import GameSearch.Chance.Dice

/-!
# States beside their surroundings

Most computations of a search change a state of their own and draw random numbers from the
surroundings.  Actions on either of the two are actions on both.
-/

namespace GameSearch

/-- A state and the surroundings in which it changes. -/
structure Hosted (σ ε : Type) where
  own : σ
  host : ε

namespace Hosted

variable {σ ε α : Type}

def onOwn (action : Action σ α) : Action (Hosted σ ε) α := fun ⟨own, host⟩ =>
  match action own with
  | .ok a own => .ok a ⟨own, host⟩
  | .error e own => .error e ⟨own, host⟩

def onHost (action : Action ε α) : Action (Hosted σ ε) α := fun ⟨own, host⟩ =>
  match action host with
  | .ok a host => .ok a ⟨own, host⟩
  | .error e host => .error e ⟨own, host⟩

instance : MonadLift (Action σ) (Action (Hosted σ ε)) := ⟨onOwn⟩

instance : MonadLift (Action ε) (Action (Hosted σ ε)) := ⟨onHost⟩

def read : Action (Hosted σ ε) σ := onOwn get

/-- Puts another state in place of the present one. -/
def change (f : σ → σ) : Action (Hosted σ ε) Unit := onOwn (modify f)

end Hosted

end GameSearch
