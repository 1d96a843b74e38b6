import GameSearch.Decimal.Binary

/-!
# Reading decimals

`Decimal.readWhole?` reads a whole number of a bounded range, `Decimal.readReal?` a floating-point
number: a decimal with an optional point and exponent, or one of the words for infinity and for
"not a number" in any case.  Both take the whole text or nothing.
-/

namespace GameSearch.Decimal

/-- The number that decimal digits write. -/
def ofDigits (ds : List Char) : Nat := ds.foldl (fun n d => 10 * n + (d.toNat - '0'.toNat)) 0

/-- Splits off a leading sign: whether it was a minus, and the rest. -/
def splitSign : List Char → Bool × List Char
  | '-' :: rest => (true, rest)
  | '+' :: rest => (false, rest)
  | cs => (false, cs)

/-- A whole number: an optional sign and one or more digits. -/
def readInt? (s : String) : Option Int :=
  let (negative, ds) := splitSign s.toList
  if ds.isEmpty || !ds.all Char.isDigit then none
  else some (if negative then -(ofDigits ds : Int) else ofDigits ds)

/-- A whole number that fits a signed word of the given number of bits. -/
def readWhole? (bits : Nat) (s : String) : Option Int :=
  let half : Int := Nat.pow 2 (bits - 1)
  (readInt? s).filter fun n => -half ≤ n && n < half

/-- The exponent behind the digits of a decimal, zero if there is none. -/
def readExponent? : List Char → Option Int
  | [] => some 0
  | e :: r => if e = 'e' ∨ e = 'E' then readInt? (String.ofList r) else none

/-- A decimal without its sign: its digits as a whole number, and the place of the last of them. -/
def readDecimal? (cs : List Char) : Option (Nat × Int) := do
  let whole := cs.takeWhile Char.isDigit
  let (frac, rest) := match cs.dropWhile Char.isDigit with
    | '.' :: r => (r.takeWhile Char.isDigit, r.dropWhile Char.isDigit)
    | r => ([], r)
  if whole.isEmpty && frac.isEmpty then none
  let exponent ← readExponent? rest
  some (ofDigits (whole ++ frac), exponent - frac.length)

/-- The floating-point number nearest to `n · 10 ^ place`, unless it is too large for one. -/
def nearest? (n : Nat) (place : Int) : Option Binary64 :=
  let magnitude := digitCount n + place
  if n = 0 ∨ magnitude < -400 then some 0
  else if magnitude > 400 then none
  else
    let x : Binary64 := match place with
      | .ofNat k => OfScientific.ofScientific n false k
      | .negSucc k => OfScientific.ofScientific n true (k + 1)
    if x.isInfinite then none else some x

/-- The words for infinity and for "not a number", the latter with an optional text in
parentheses. -/
def readWord? (cs : List Char) : Option Binary64 :=
  let word := cs.map Char.toLower
  if word = "inf".toList ∨ word = "infinity".toList then some Binary64.infinity
  else if word = "nan".toList then some Binary64.nan
  else if word.take 4 = "nan(".toList ∧ word.getLast? = some ')' then some Binary64.nan
  else none

/-- A floating-point number. -/
def readReal? (s : String) : Option Binary64 :=
  let (negative, cs) := splitSign s.toList
  let magnitude := (readWord? cs).or ((readDecimal? cs).bind fun (n, place) => nearest? n place)
  magnitude.map fun x => if negative then -x else x

end GameSearch.Decimal
