import GameSearch.Proofs.Corridor.Board
import GameSearch.Proofs.Queries

/-!
# What a role sees of the dark split corridor

The view of a role lacks the borders that hinder the role and that it has not run into, and what its
opponent has run into.  Boards are read off a view as off the state, but for that: so the legal moves of the
role are the same, and no query fails on one of the two alone.
-/

namespace GameSearch.Corridor

variable {role owner : Role} {s v : State} {f : Term} {r r' : Reading} {b b' : Board}

/-- Whether a role sees a fact of a state. -/
def sees (s : State) (role : Role) (f : Term) : Bool := (isVisible? s role f).toOption.getD false

/-- A view holds what the role sees, which can be told of every fact of the state. -/
lemma view?_eq_ok (h : view? s role = .ok v) :
    (∀ f ∈ s, ∃ b, isVisible? s role f = .ok b) ∧ v.toList = s.toList.filter (sees s role) := by
  obtain ⟨l, hl, h⟩ := bind_eq_ok.1 h
  cases h
  obtain ⟨hall, rfl⟩ := filterM_eq_ok hl
  exact ⟨hall, State.toList_ofList_filter s _⟩

lemma sees_of_name (h : f.name = "control" ∨ f.name = "at") : sees s role f = true := by
  rcases h with h | h <;> simp [sees, isVisible?, h, pure, Except.pure, Except.toOption]

/-- A fact that a role does not see is no pawn, nothing that the role ran into and no border that hinders its
opponent. -/
lemma arguments?_of_hidden (hvisible : isVisible? s role f = .ok false) : f.name ≠ "at" ∧
    ∃ arguments, f.arguments? = .ok arguments ∧ ∀ owner what, arguments = [owner, what] →
      (f.name = "revealed" → owner ≠ role) ∧ (f.name = "border" → owner = role) := by
  by_cases hname : f.name = "control" ∨ f.name = "at"
  · have hseen : sees s role f = true := sees_of_name hname
    simp [sees, hvisible, Except.toOption] at hseen
  · obtain ⟨hcontrol, hat⟩ := not_or.1 hname
    simp only [isVisible?, hcontrol, hat, decide_false, Bool.or_self, Bool.false_eq_true, if_false] at hvisible
    obtain ⟨arguments, harguments, h⟩ := bind_eq_ok.1 hvisible
    refine ⟨hat, arguments, harguments, ?_⟩
    rintro owner what rfl
    refine ⟨fun hrevealed => ?_, fun hborder => ?_⟩
    · simp only [hrevealed] at h
      simpa [pure, Except.pure] using h
    · simp only [hborder] at h
      simp only [pure, Except.pure, Except.ok.injEq, Bool.or_eq_false_iff] at h
      simpa using h.1

/-- Two readings of the board of an owner that do not differ in what a role sees of it. -/
structure Reading.Alike (role owner : Role) (r r' : Reading) : Prop where
  pawn : r.pawn = r'.pawn
  borders : owner ≠ role → r.borders = r'.borders
  revealed : owner = role → r.revealed = r'.revealed

/-- Two boards of an owner that do not differ in what a role sees of them. -/
structure Board.Alike (role owner : Role) (b b' : Board) : Prop where
  pawn : b.pawn = b'.pawn
  borders : owner ≠ role → b.borders = b'.borders
  revealed : owner = role → b.revealed = b'.revealed

lemma Reading.Alike.add (h : r.Alike role owner r') (f : Term) :
    Together (Reading.Alike role owner) (add? owner r f) (add? owner r' f) := by
  simp only [add?]
  split
  · exact h
  refine (Together.refl f.arguments?).bind fun arguments _ heq => ?_
  subst heq
  split
  · split
    · exact h
    split
    · split
      · exact ⟨rfl, h.borders, h.revealed⟩
      · trivial
    split
    · exact ⟨h.pawn, fun hne => by rw [h.borders hne], h.revealed⟩
    · exact ⟨h.pawn, h.borders, fun heq => by rw [h.revealed heq]⟩
  · exact h

/-- A fact that is hidden from a role does not change what the role sees. -/
lemma Reading.Alike.skip (h : r.Alike role owner r') (hhidden : isVisible? s role f = .ok false) :
    ∃ r₁, add? owner r f = .ok r₁ ∧ r₁.Alike role owner r' := by
  obtain ⟨hat, arguments, harguments, hfact⟩ := arguments?_of_hidden hhidden
  simp only [add?, harguments]
  split
  · exact ⟨r, rfl, h⟩
  rename_i hname
  simp only [bind, Except.bind]
  split
  · rename_i about what
    obtain ⟨hrevealed, hborder⟩ := hfact about what rfl
    split
    · exact ⟨r, rfl, h⟩
    rename_i howner
    obtain rfl : about = owner := not_ne_iff.1 howner
    split
    · rename_i hname
      exact ⟨_, rfl, h.pawn, fun hne => absurd (hborder hname) hne, h.revealed⟩
    · have hname : f.name = "revealed" := by simp_all
      exact ⟨_, rfl, h.pawn, h.borders, fun heq => absurd heq (hrevealed hname)⟩
  · exact ⟨r, rfl, h⟩

/-- The facts that a role sees are read like all facts. -/
lemma Reading.Alike.run {l : List Term} (h : r.Alike role owner r')
    (hvisible : ∀ f ∈ l, ∃ b, isVisible? s role f = .ok b) :
    Together (Reading.Alike role owner) (l.foldlM (add? owner) r)
      ((l.filter (sees s role)).foldlM (add? owner) r') := by
  induction l generalizing r r' with
  | nil => exact h
  | cons f l ih =>
    have hrest := fun r r' (h : Reading.Alike role owner r r') =>
      ih h fun g hg => hvisible g (List.mem_cons_of_mem f hg)
    obtain ⟨seen, hf⟩ := hvisible f List.mem_cons_self
    have hsees : sees s role f = seen := by simp [sees, hf, Except.toOption]
    rw [List.foldlM_cons]
    cases seen with
    | true =>
      rw [List.filter_cons_of_pos hsees, List.foldlM_cons]
      exact (h.add f).bind hrest
    | false =>
      obtain ⟨r₁, hadd, h₁⟩ := h.skip hf
      rw [List.filter_cons_of_neg (by simp [hsees]), hadd]
      exact hrest r₁ r' h₁

/-- The board of an owner can be read off the view of a role if it can be read off the state. -/
theorem board?_view (hview : view? s role = .ok v) (owner : Role) :
    Together (Board.Alike role owner) (board? s owner) (board? v owner) := by
  obtain ⟨hvisible, hlist⟩ := view?_eq_ok hview
  have hread := (⟨rfl, fun _ => rfl, fun _ => rfl⟩ : Reading.Alike role owner {} {}).run hvisible
  unfold board?
  rw [hlist]
  refine hread.bind fun r r' h => ?_
  rw [← h.pawn]
  cases r.pawn with
  | none => trivial
  | some pawn => exact ⟨rfl, h.borders, h.revealed⟩

/-! ## Queries about views -/

section

variable (hview : view? s role = .ok v)
include hview

/-- The same roles are in control of a view. -/
lemma control?_view : v.control? = s.control? := by
  have hnamed : v.named "control" = s.named "control" := by
    rw [State.named, (view?_eq_ok hview).2, List.filter_filter, State.named]
    refine List.filter_congr fun f _ => ?_
    by_cases hname : f.name = "control"
    · simp [hname, sees_of_name (.inl hname)]
    · simp [hname]
  rw [State.control?, hnamed, State.control?]

/-- The play is over in a view if it is over. -/
lemma isOver?_view : Together (· = ·) (isOver? s) (isOver? v) := by
  refine (board?_view hview left).bind fun b b' h => ?_
  rw [h.pawn]
  split
  · rfl
  · exact (board?_view hview right).bind fun c c' h => congrArg Cell.isGoal h.pawn

end

lemma other_ne (hrole : role ∈ game.roles) : other role ≠ role := by
  rcases mem_roles.1 hrole with rfl | rfl <;> decide

/-- What a role may do depends on nothing that is hidden from it. -/
lemma moves?_view (hrole : role ∈ game.roles) (hview : view? s role = .ok v) (mover : Role) :
    Together (fun m m' => mover = role → m = m') (moves? s mover) (moves? v mover) := by
  refine (board?_view hview mover).bind fun own own' hown => ?_
  refine (board?_view hview (other mover)).bind fun opponent opponent' hopponent => ?_
  obtain ⟨blocks, hblocks⟩ := exists_blocks opponent
  obtain ⟨blocks', hblocks'⟩ := exists_blocks opponent'
  rw [hblocks, hblocks']
  rintro rfl
  have hopen : openBlocks opponent = openBlocks opponent' := by
    rw [openBlocks, openBlocks, hopponent.borders (other_ne hrole), hopponent.pawn]
  have hpawn : pawnMoves own = pawnMoves own' := by
    rw [pawnMoves, pawnMoves, hown.revealed rfl, hown.pawn]
  rw [hopen, hblocks', Except.ok.injEq] at hblocks
  rw [hblocks, hpawn]

/-- Two tables agree on a role if they are made of the same entries for it. -/
lemma getD_insertMany {l l' : List (Role × List Move)} {table table' : ByRole (List Move)}
    (hl : List.Forall₂ (fun p p' => p.1 = p'.1 ∧ (p.1 = role → p.2 = p'.2)) l l')
    (htable : table.getD role [] = table'.getD role []) :
    (table.insertMany l).getD role [] = (table'.insertMany l').getD role [] := by
  induction hl generalizing table table' with
  | nil => simpa using htable
  | @cons p p' l l' hp _ ih =>
    obtain ⟨mover, moves⟩ := p
    obtain ⟨mover', moves'⟩ := p'
    obtain ⟨rfl, hmoves⟩ := hp
    rw [Std.ExtTreeMap.insertMany_cons, Std.ExtTreeMap.insertMany_cons]
    refine ih ?_
    rw [Std.ExtTreeMap.getD_insert, Std.ExtTreeMap.getD_insert]
    split
    · rename_i heq
      exact hmoves (Std.LawfulEqOrd.eq_of_compare heq)
    · exact htable

/-- A role has the same legal moves in its view. -/
theorem game_moves?_view (hrole : role ∈ game.roles) (hview : view? s role = .ok v) :
    Together (· = ·) (game.moves? s role) (game.moves? v role) := by
  have hlegal : Together (fun l l' : ByRole (List Move) => l.getD role [] = l'.getD role []) (game.legal s)
      (game.legal v) := by
    simp only [game, control?_view hview]
    refine (Together.refl s.control?).bind fun control _ heq => ?_
    subst heq
    refine (Together.mapM (P := fun p p' : Role × List Move => p.1 = p'.1 ∧ (p.1 = role → p.2 = p'.2))
      fun mover _ => ?_).bind fun l l' hl => ?_
    · exact (moves?_view hrole hview mover).bind fun m m' hm => ⟨rfl, hm⟩
    · simp only [Together, pure, Except.pure, Std.ExtTreeMap.ofList_eq_insertMany_empty]
      exact getD_insertMany hl rfl
  exact hlegal.bind fun l l' hl => hl

/-- The game shows a role its view. -/
lemma view?_of_game_view? (hrole : role ∈ game.roles) (hview : game.view? s role = .ok v) :
    view? s role = .ok v := by
  obtain ⟨views, hviews, h⟩ := bind_eq_ok.1 hview
  obtain ⟨atLeft, hleft, hviews⟩ := bind_eq_ok.1 hviews
  obtain ⟨atRight, hright, hviews⟩ := bind_eq_ok.1 hviews
  cases hviews
  rcases mem_roles.1 hrole with rfl | rfl
  · rw [hleft, ← h]
    rfl
  · rw [hright, ← h]
    rfl

end GameSearch.Corridor
