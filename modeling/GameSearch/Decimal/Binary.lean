import GameSearch.Binary64

/-!
# Binary fractions

What the bits of a floating-point number say: `nan`, an infinity, or a sign and a magnitude
`mantissa · 2 ^ exponent`.  The other modules of this folder compute on that magnitude in exact
arithmetic, as a quotient of two natural numbers.
-/

namespace GameSearch.Decimal

/-- What the bits of a floating-point number say. -/
inductive Shape where
  | nan (negative : Bool)
  | infinite (negative : Bool)
  | finite (negative : Bool) (mantissa : Nat) (exponent : Int)
deriving DecidableEq

/-- The weight of the leading one of a mantissa, `2 ^ 52`. -/
def hiddenBit : Nat := 4503599627370496

/-- One bit of sign, eleven of exponent, fifty-two of mantissa; the leading one of the mantissa is
implied unless the exponent is the smallest. -/
def shape (x : Binary64) : Shape :=
  let bits := x.bits.toNat
  let negative := decide (2048 * hiddenBit ≤ bits)
  let exponent : Nat := bits / hiddenBit % 2048
  let mantissa := bits % hiddenBit
  if exponent = 2047 then
    if mantissa = 0 then .infinite negative else .nan negative
  else if exponent = 0 then .finite negative mantissa (-1074)
  else .finite negative (mantissa + hiddenBit) (exponent - 1075)

/-- `mantissa · 2 ^ exponent` as a quotient. -/
def quotient (mantissa : Nat) : Int → Nat × Nat
  | .ofNat k => (mantissa * Nat.pow 2 k, 1)
  | .negSucc k => (mantissa, Nat.pow 2 (k + 1))

/-- A quotient times `10 ^ e`. -/
def shift (value : Nat × Nat) : Int → Nat × Nat
  | .ofNat k => (value.1 * Nat.pow 10 k, value.2)
  | .negSucc k => (value.1, value.2 * Nat.pow 10 (k + 1))

/-- The number of decimal digits, one for zero. -/
def digitCount (n : Nat) : Nat := (Nat.toDigits 10 n).length

/-- The `k` with `10 ^ k ≤ value < 10 ^ (k + 1)`, for a positive quotient. -/
def leadingPlace (value : Nat × Nat) : Int :=
  if value.2 ≤ value.1 then digitCount (value.1 / value.2) - 1
  else -(digitCount ((value.2 + value.1 - 1) / value.1 - 1) : Int)

/-- The nearest whole number to a quotient, a half going to the even neighbour. -/
def roundHalfEven (num den : Nat) : Nat :=
  let whole := num / den
  let rest := num % den
  if 2 * rest < den then whole
  else if den < 2 * rest then whole + 1
  else if whole % 2 = 0 then whole else whole + 1

def digits (n : Nat) : List Char := Nat.toDigits 10 n

/-- The sign that precedes a number. -/
def signText (negative : Bool) : String := if negative then "-" else ""

/-- The decimal digits of a positive number without the zeros at its end, and how many zeros
these were. -/
def withoutTrailingZeros (n : Nat) : List Char × Nat :=
  let reversed := (digits n).reverse
  ((reversed.dropWhile (· = '0')).reverse, (reversed.takeWhile (· = '0')).length)

/-- Digits with a point after the first `place + 1` of them, zeros filling what is missing; no
point when nothing follows it. -/
def positional (ds : List Char) (place : Int) : String :=
  let whole := (place + 1).toNat
  let leading := List.replicate (-(place + 1)).toNat '0'
  let front := ds.take whole ++ List.replicate (whole - ds.length) '0'
  let back := if 0 ≤ place then ds.drop whole else leading ++ ds
  let front := if front.isEmpty then ['0'] else front
  String.ofList (if back.isEmpty then front else front ++ '.' :: back)

/-- Digits with a point after the first of them, and the place of that digit as an exponent of at
least two digits with its sign. -/
def scientific (ds : List Char) (place : Int) : String :=
  let mantissa := match ds with
    | [] => ['0']
    | [d] => [d]
    | d :: rest => d :: '.' :: rest
  let exponent := digits place.natAbs
  let exponent := if exponent.length < 2 then '0' :: exponent else exponent
  String.ofList (mantissa ++ 'e' :: (if place < 0 then '-' else '+') :: exponent)

end GameSearch.Decimal
