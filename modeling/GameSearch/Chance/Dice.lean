import GameSearch.Fault

/-!
# Random draws

A source of random numbers is anything that can roll a die with any positive number of sides.
All random choices of the library are made of such rolls: an element of a list, a shuffle, a
sample.  The definitions fix which rolls are made and in which order, so a search is a function of
its inputs and of the source, and what is proved about it for every source holds for every
sequence of draws.
-/

namespace GameSearch

/-- Sources of random numbers. -/
class Dice (ε : Type) where
  /-- A number below `n`, and the source after the draw. -/
  roll : (n : Nat) → 0 < n → ε → Fin n × ε

/-- Computations that may fail, on a state that a failure leaves as it was at that moment. -/
abbrev Action (σ : Type) := EStateM Fault σ

/-- A query has no state of its own. -/
instance {σ : Type} : MonadLift (Except Fault) (Action σ) where
  monadLift
    | .ok a => pure a
    | .error e => throw e

namespace Dice

variable {ε : Type} [Dice ε]

def below (n : Nat) : Action ε Nat := fun source =>
  if h : 0 < n then
    let (k, source) := roll n h source
    .ok k source
  else .error .emptyDraw source

/-- A number from `low` up to, not including, `high`. -/
def between (low high : Int) : Action ε Int := do
  let k ← below (high - low).toNat
  return low + k

def choose {α : Type} (xs : List α) : Action ε α := do
  let k ← below xs.length
  match xs[k]? with
  | some x => return x
  | none => throw .emptyDraw

/-- Two numbers, below `a` and below `b`, in one draw. -/
def pair (a b : Nat) : Action ε (Nat × Nat) := do
  let k ← below (a * b)
  return (k / b, k % b)

/-- Exchanges the elements at `i` and `i + 1`, and so on in steps of two, with random elements in
front of them; `count` is the number of steps. -/
def shuffleFrom {α : Type} (count i : Nat) (xs : Array α) : Action ε (Array α) :=
  match count with
  | 0 => return xs
  | count + 1 => do
    let (p, q) ← pair (i + 1) (i + 2)
    shuffleFrom count (i + 2) ((xs.swapIfInBounds i p).swapIfInBounds (i + 1) q)

/-- An array in random order.  An even number of elements takes one draw for the second element,
then two elements share a draw. -/
def shuffle {α : Type} (xs : Array α) : Action ε (Array α) := do
  if xs.size = 0 then return xs
  if xs.size % 2 = 0 then
    let k ← below 2
    shuffleFrom ((xs.size - 2) / 2) 2 (xs.swapIfInBounds 1 k)
  else shuffleFrom ((xs.size - 1) / 2) 1 xs

/-- `k` elements of a list, in the order of the list, or all of them if there are fewer.  Each
element is taken with the probability that is still wanted of it; two elements share a draw. -/
def sample {α : Type} (k : Nat) : List α → Action ε (List α)
  | [] => return []
  | [x] => do
    if k = 0 then return []
    let p ← below 1
    return if p < k then [x] else []
  | x :: y :: rest => do
    let size := rest.length + 2
    let wanted := min k size
    if wanted = 0 then return []
    let (p, q) ← pair size (size - 1)
    let (first, wanted) := if p < wanted then ([x], wanted - 1) else ([], wanted)
    if wanted = 0 then return first
    let (second, wanted) := if q < wanted then ([y], wanted - 1) else ([], wanted)
    let others ← sample wanted rest
    return first ++ second ++ others

end Dice

end GameSearch
