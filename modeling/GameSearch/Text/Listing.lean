/-!
# Listings

How a collection is written: its members between braces, separated by commas.
-/

namespace GameSearch

/-- The given texts between braces. -/
def braced (parts : List String) : String :=
  "\x7b" ++ ", ".intercalate parts ++ "\x7d"

end GameSearch
