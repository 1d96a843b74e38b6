/-!
# Digests

The 64-bit FNV-1a digest of a text: a short stand-in for a text that is too long to show.
-/

namespace GameSearch

/-- One byte of a digest. -/
def digestByte (h : UInt64) (b : UInt8) : UInt64 := (h ^^^ b.toUInt64) * 0x100000001b3

/-- The digest of a text, read as its UTF-8 bytes. -/
def digest (s : String) : UInt64 := s.toUTF8.foldl digestByte 0xcbf29ce484222325

/-- The given number of hexadecimal digits of a number, from the most significant. -/
def hexDigits (count n : Nat) : String :=
  String.ofList ((List.range count).reverse.map fun i => (n / Nat.pow 16 i % 16).digitChar)

/-- A word as sixteen hexadecimal digits. -/
def hexWord (w : UInt64) : String := hexDigits 16 w.toNat

end GameSearch
