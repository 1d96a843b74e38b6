import GameSearch.Text.Digest

/-!
# Quoted texts

A text between quotation marks.  Quotation marks and backslashes inside are preceded by a backslash,
control characters are written by their number.
-/

namespace GameSearch

/-- How a character is written between quotation marks. -/
def quotedChar (c : Char) : List Char :=
  if c = '"' ∨ c = '\\' then ['\\', c]
  else if c.toNat < 32 then '\\' :: 'u' :: (hexDigits 4 c.toNat).toList
  else [c]

def quoted (s : String) : String :=
  String.ofList ('"' :: (s.toList.flatMap quotedChar ++ ['"']))

end GameSearch
