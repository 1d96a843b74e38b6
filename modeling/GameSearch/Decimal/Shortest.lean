import GameSearch.Decimal.Binary

/-!
# Shortest decimals

`Decimal.shortest` writes a number with the fewest digits that read back as the same number, the
nearest such digits if there are several.  The search is exact: a decimal grid of 1, 2, ... 17
digits is tried in turn, and on each grid only the two neighbours of the value can read back.
-/

namespace GameSearch.Decimal

/-- The digits on the grid of `count` digits that read back as `mantissa · 2 ^ exponent`, with the
place of the grid's unit.  The reals that read back form an interval around the value, half a
mantissa step to each side (a quarter below a power of two), with its ends when the mantissa is
even. -/
def onGrid? (mantissa : Nat) (exponent : Int) (count : Nat) : Option (Nat × Int) :=
  let unit := leadingPlace (quotient mantissa exponent) - count + 1
  let (num, den) := shift (quotient 1 (exponent - 2)) (-unit)
  let below := if mantissa = hiddenBit ∧ exponent ≠ -1074 then 1 else 2
  let value := 4 * mantissa * num
  let low := (4 * mantissa - below) * num
  let high := (4 * mantissa + 2) * num
  let reads (n : Nat) : Bool :=
    if mantissa % 2 = 0 then low ≤ n * den && n * den ≤ high
    else low < n * den && n * den < high
  let down := value / den
  let up := down + 1
  match reads down, reads up with
  | false, false => none
  | true, false => some (down, unit)
  | false, true => some (up, unit)
  | true, true =>
    let toDown := value - down * den
    let toUp := up * den - value
    if toDown < toUp ∨ (toDown = toUp ∧ down % 2 = 0) then some (down, unit) else some (up, unit)

/-- The fewest digits that read back as `mantissa · 2 ^ exponent`, without trailing zeros, and the
place of the first of them. -/
def shortestDigits (mantissa : Nat) (exponent : Int) : List Char × Int :=
  let found := (List.range 17).findSome? fun i => onGrid? mantissa exponent (i + 1)
  let (n, unit) := found.getD (mantissa, 0)
  let (ds, zeros) := withoutTrailingZeros n
  (ds, unit + zeros + ds.length - 1)

/-- The shortest text of a number: positional for leading places from -4 to 15, without a point
when nothing follows it, and with an exponent otherwise. -/
def shortest (x : Binary64) : String :=
  match shape x with
  | .nan negative => signText negative ++ "nan"
  | .infinite negative => signText negative ++ "inf"
  | .finite negative 0 _ => signText negative ++ "0"
  | .finite negative mantissa exponent =>
    let (ds, place) := shortestDigits mantissa exponent
    signText negative ++
      if -4 ≤ place ∧ place < 16 then positional ds place else scientific ds place

end GameSearch.Decimal
