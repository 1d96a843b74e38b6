import GameSearch.Fault
import GameSearch.Scalar

/-!
# Valuations

The statistics of a node: the mean of the utilities that simulations brought, and how many of them
there were.  `Valuation.add` takes in one more utility, `Valuation.merge` all those of another
valuation; over exact numbers both keep the mean what its name says, in whatever order they come.
-/

namespace GameSearch

/-- The mean of some utilities and their number. -/
structure Valuation (R : Type) where
  mean : R
  playouts : Nat

namespace Valuation

variable {R : Type} [Scalar R]

/-- The valuation after a number of playouts of the given mean, which must be a utility. -/
def ofMean? (mean : R) (playouts : Int) : Except Fault (Valuation R) :=
  if !Scalar.isUnit mean then .error (.utilityOutOfRange (Scalar.text mean))
  else if playouts < 0 then .error .negativePlayouts
  else .ok ⟨mean, playouts.toNat⟩

/-- The valuation after one playout. -/
def ofUtility? (utility : R) : Except Fault (Valuation R) := ofMean? utility 1

/-- The valuation after one more playout. -/
def add (v : Valuation R) (utility : R) : Valuation R where
  mean := (v.mean * Scalar.ofNat v.playouts + utility) / Scalar.ofNat (v.playouts + 1)
  playouts := v.playouts + 1

/-- The valuation after the playouts of both. -/
def merge (v w : Valuation R) : Valuation R :=
  let n := v.playouts + w.playouts
  if n = 0 then v
  else
    { mean := (v.mean * Scalar.ofNat v.playouts + w.mean * Scalar.ofNat w.playouts)
        / Scalar.ofNat n
      playouts := n }

/-- The order of valuations: by mean, then by the number of playouts. -/
def isLess (v w : Valuation R) : Bool :=
  if v.mean == w.mean then decide (v.playouts < w.playouts) else decide (v.mean < w.mean)

def text (v : Valuation R) : String :=
  let mean := Scalar.fixed 3 v.mean
  s!"{mean} ({v.playouts} playouts)"

end Valuation

end GameSearch
