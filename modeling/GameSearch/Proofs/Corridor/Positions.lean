import Mathlib.Logic.Function.Basic
import GameSearch.Proofs.Corridor.Search

/-!
# Positions of the dark split corridor

`Position mover pawn s` is what is the case in every state that the play comes to: whose turn it is,
where the pawns are, and that both of them can still reach row 4.  One lemma for each part of a
transition says what it preserves, and every play preserves all of it.
-/

namespace GameSearch.Corridor

variable {role mover : Role} {pawn : Role → Cell} {s : State} {a b c : Cell} {t f : Term}

/-- The pawn of a role can step from a cell to a neighbour: no border hinders it. -/
def Passable (s : State) (role : Role) (a b : Cell) : Prop :=
  a.Adjacent b ∧ ∀ t, border role t ∈ s → t.text ≠ a.crossing b

/-- The pawn of a role can reach row 4 from a cell, step by step. -/
def WayOut (s : State) (role : Role) (a : Cell) : Prop :=
  ∃ b, b.isGoal = true ∧ Relation.ReflTransGen (Passable s role) a b

lemma Passable.symm (h : Passable s role a b) : Passable s role b a :=
  ⟨h.1.symm, Cell.crossing_comm a b ▸ h.2⟩

lemma WayOut.mono {s' : State} (h : WayOut s role a)
    (hborders : ∀ t, border role t ∈ s' → border role t ∈ s) : WayOut s' role a := by
  obtain ⟨b, hgoal, hpath⟩ := h
  have hmono : Passable s role ≤ Passable s' role :=
    fun _ _ hstep => ⟨hstep.1, fun t ht => hstep.2 t (hborders t ht)⟩
  exact ⟨b, hgoal, Relation.ReflTransGen.mono hmono _ _ hpath⟩

/-- A step that a pawn can take back does not lose its way. -/
lemma WayOut.step (h : WayOut s role a) (hstep : Passable s role a b) : WayOut s role b := by
  obtain ⟨c, hgoal, hpath⟩ := h
  exact ⟨c, hgoal, hpath.head hstep.symm⟩

/-- What holds of the states of a play. -/
structure Position (mover : Role) (pawn : Role → Cell) (s : State) : Prop where
  mover_mem : mover ∈ game.roles
  facts : ∀ f ∈ s, Fact f
  control : ∀ role, controlOf role ∈ s ↔ role = mover
  pawns : ∀ role ∈ game.roles, ∀ c : Cell, pawnAt role c.term ∈ s ↔ c = pawn role
  revealed : ∀ role ∈ game.roles, ∀ t, Corridor.revealed role t ∈ s → border role t ∈ s
  winner : ¬((pawn left).isGoal = true ∧ (pawn right).isGoal = true)
  wayOut : ∀ role ∈ game.roles, WayOut s role (pawn role)

namespace Position

variable (h : Position mover pawn s)
include h

/-- The board of a role can be read, and its pawn is where the role has it. -/
lemma board? (hrole : role ∈ game.roles) :
    ∃ b, Corridor.board? s role = .ok b ∧ b.Of role s ∧ b.pawn = pawn role := by
  obtain ⟨b, hb, hof⟩ := board?_eq_ok hrole h.facts ((h.pawns role hrole _).2 rfl)
  exact ⟨b, hb, hof, (h.pawns role hrole _).1 hof.pawn⟩

lemma isTerminal : game.isTerminal s = .ok ((pawn left).isGoal || (pawn right).isGoal) := by
  obtain ⟨bl, hbl, -, hl⟩ := h.board? left_mem
  obtain ⟨br, hbr, -, hr⟩ := h.board? right_mem
  change isOver? s = _
  cases hgoal : (pawn left).isGoal <;>
    simp [isOver?, hbl, hbr, hl, hr, hgoal, bind, Except.bind, pure, Except.pure]

lemma mem_named_control : f ∈ s.named "control" ↔ f = controlOf mover := by
  rw [State.named, List.mem_filter, State.mem_toList]
  constructor
  · rintro ⟨hf, hname⟩
    cases h.facts f hf with
    | control hrole => rw [(h.control _).1 hf]
    | _ => simp at hname
  · rintro rfl
    exact ⟨(h.control mover).2 rfl, by simp [Term.name_controlOf]⟩

/-- The role in control is the only one. -/
lemma control? : ∃ control : SortedSet Role, s.control? = .ok control ∧ control.toList = [mover] := by
  have hnamed : s.named "control" = [controlOf mover] := by
    refine SortedSet.eq_of_sorted_of_mem_iff ?_ (by simp) fun f => ?_
    · exact s.facts.sorted.filter _
    · rw [h.mem_named_control, List.mem_singleton]
  refine ⟨.ofList [mover], ?_, rfl⟩
  simp [State.control?, hnamed, arguments?_control h.mover_mem, bind, Except.bind, pure, Except.pure]

end Position

/-! ## What a play changes -/

/-- The state after a role has handed the control to the other one. -/
def passed (s : State) (mover : Role) : State :=
  .ofList (s.withoutNamed "control" ++ [controlOf (other mover)])

/-- The state with one fact in the place of another one. -/
def replaced (s : State) (source target : Term) : State :=
  .ofList (s.toList.map fun f => if f = source then target else f)

lemma mem_passed : f ∈ passed s mover ↔ (f ∈ s ∧ f.name ≠ "control") ∨ f = controlOf (other mover) := by
  simp [passed, State.withoutNamed]

lemma mem_passed_of_name_ne (h : f.name ≠ "control") : f ∈ passed s mover ↔ f ∈ s := by
  have hne : f ≠ controlOf (other mover) := ne_of_name_ne (by rwa [Term.name_controlOf])
  simp [mem_passed, h, hne]

lemma mem_replaced {source target : Term} (hsource : source ∈ s) :
    f ∈ replaced s source target ↔ f = target ∨ (f ∈ s ∧ f ≠ source) := by
  rw [replaced, State.mem_ofList, List.mem_map]
  simp only [State.mem_toList]
  constructor
  · rintro ⟨g, hg, rfl⟩
    by_cases heq : g = source
    · exact .inl (if_pos heq)
    · rw [if_neg heq]
      exact .inr ⟨hg, heq⟩
  · rintro (rfl | ⟨hf, hne⟩)
    · exact ⟨source, hsource, if_pos rfl⟩
    · exact ⟨f, hf, if_neg hne⟩

namespace Position

variable (h : Position mover pawn s)
include h

lemma passed : Position (other mover) pawn (passed s mover) where
  mover_mem := other_mem
  facts f hf := by
    rcases mem_passed.1 hf with ⟨hf, -⟩ | rfl
    · exact h.facts f hf
    · exact .control other_mem
  control role := by
    simp [mem_passed, Term.name_controlOf, controlOf_inj]
  pawns role hrole c := by
    rw [mem_passed_of_name_ne (by simp), h.pawns role hrole]
  revealed role hrole t ht := by
    rw [mem_passed_of_name_ne (by simp)] at ht ⊢
    exact h.revealed role hrole t ht
  winner := h.winner
  wayOut role hrole := (h.wayOut role hrole).mono fun t ht => (mem_passed_of_name_ne (by simp)).1 ht

/-- A border may hinder a role that can still reach row 4. -/
lemma blocked (hrole : role ∈ game.roles) (ht : t.text ∈ blockable)
    (hway : WayOut (s.insert (border role t)) role (pawn role)) :
    Position mover pawn (s.insert (border role t)) where
  mover_mem := h.mover_mem
  facts f hf := by
    rcases State.mem_insert.1 hf with rfl | hf
    · exact .border hrole ht
    · exact h.facts f hf
  control owner := by
    rw [State.mem_insert, ← h.control]
    simp [ne_of_name_ne, Term.name_controlOf]
  pawns owner howner c := by
    rw [State.mem_insert, ← h.pawns owner howner]
    simp [ne_of_name_ne]
  revealed owner howner u hu := by
    have hin : Corridor.revealed owner u ∈ s := by simpa [ne_of_name_ne] using hu
    exact State.mem_insert.2 (.inr (h.revealed owner howner u hin))
  winner := h.winner
  wayOut owner howner := by
    by_cases heq : owner = role
    · exact heq ▸ hway
    · refine (h.wayOut owner howner).mono fun u hu => ?_
      simpa [border_inj howner hrole, heq] using hu

/-- Running into a border reveals it. -/
lemma bumped (hrole : role ∈ game.roles) (ht : border role t ∈ s) :
    Position mover pawn (s.insert (Corridor.revealed role t)) where
  mover_mem := h.mover_mem
  facts f hf := by
    rcases State.mem_insert.1 hf with rfl | hf
    · exact .revealed hrole ((h.facts _ ht).mem_blockable hrole)
    · exact h.facts f hf
  control owner := by
    rw [State.mem_insert, ← h.control]
    simp [ne_of_name_ne, Term.name_controlOf]
  pawns owner howner c := by
    rw [State.mem_insert, ← h.pawns owner howner]
    simp [ne_of_name_ne]
  revealed owner howner u hu := by
    rw [State.mem_insert, revealed_inj howner hrole] at hu
    rcases hu with ⟨rfl, rfl⟩ | hu
    · exact State.mem_insert.2 (.inr ht)
    · exact State.mem_insert.2 (.inr (h.revealed owner howner u hu))
  winner := h.winner
  wayOut owner howner := by
    refine (h.wayOut owner howner).mono fun u hu => ?_
    simpa [ne_of_name_ne] using hu

/-- A pawn that moves on can go back, so that it can still reach row 4. -/
lemma moved (hrole : role ∈ game.roles) (hstep : Passable s role (pawn role) c)
    (hother : (pawn (other role)).isGoal = false) :
    Position mover (Function.update pawn role c)
      (replaced s (pawnAt role (pawn role).term) (pawnAt role c.term)) := by
  have hsource := (h.pawns role hrole _).2 rfl
  have hborder : ∀ owner t, border owner t ∈ replaced s (pawnAt role (pawn role).term) (pawnAt role c.term) ↔
      border owner t ∈ s := fun owner t => by simp [mem_replaced hsource, ne_of_name_ne]
  refine ⟨h.mover_mem, fun f hf => ?_, fun owner => ?_, fun owner howner d => ?_, fun owner howner t ht => ?_,
    ?_, fun owner howner => ?_⟩
  · rcases (mem_replaced hsource).1 hf with rfl | ⟨hf, -⟩
    · exact .pawn hrole c
    · exact h.facts f hf
  · rw [mem_replaced hsource, ← h.control]
    simp [ne_of_name_ne, Term.name_controlOf]
  · rw [mem_replaced hsource, h.pawns owner howner, pawnAt_inj howner hrole, ne_eq, pawnAt_inj howner hrole]
    by_cases heq : owner = role
    · subst heq
      simp
    · simp [heq]
  · rw [hborder]
    refine h.revealed owner howner t ?_
    simpa [mem_replaced hsource, ne_of_name_ne] using ht
  · rintro ⟨hleft, hright⟩
    rcases mem_roles.1 hrole with rfl | rfl
    · rw [Function.update_of_ne left_ne_right.symm] at hright
      exact Bool.false_ne_true (hother.symm.trans hright)
    · rw [Function.update_of_ne left_ne_right] at hleft
      exact Bool.false_ne_true (hother.symm.trans hleft)
  · by_cases heq : owner = role
    · subst heq
      rw [Function.update_self]
      exact ((h.wayOut owner howner).step hstep).mono fun t => (hborder owner t).1
    · rw [Function.update_of_ne heq]
      exact (h.wayOut owner howner).mono fun t => (hborder owner t).1

end Position

/-! ## Plays -/

section

variable {own : Board} {d : Direction} {next : Cell}

lemma arguments?_step (d : Direction) :
    ∃ t, (step d).arguments? = .ok [t] ∧ Direction.ofName? t.text = some d := by
  cases d <;>
    exact ⟨_, Term.arguments?_compound (by decide) (by simpa using Term.whole_of_isPlain (by decide)), rfl⟩

lemma name_step (d : Direction) : (step d).name = "move" := by
  cases d <;> exact Term.name_compound (by decide)

lemma plays_ofList_singleton (p : Play) : (Turn.ofList [p]).plays = [p] := rfl

lemma insert_eq (l : List Term) (f : Term) : State.ofList (l ++ [f]) = (State.ofList l).insert f := by
  refine State.ext_mem fun g => ?_
  simp [or_comm]

lemma replaced_eq (l : List Term) (source target : Term) :
    State.ofList (l.map fun f => if f = source then target else f) =
      replaced (State.ofList l) source target := by
  refine State.ext_mem fun g => ?_
  simp only [replaced, State.mem_ofList, List.mem_map, State.mem_toList]

variable (hb : board? s role = .ok own)
include hb

lemma play_block (ht : Term.Whole t.chars) :
    play s (.ofList [⟨role, .compound "block" t []⟩]) =
      .ok ((passed s role).insert (border (other role) t)) := by
  have hname : (Term.compound "block" t []).name = "block" := Term.name_compound (by decide)
  have harguments : (Term.compound "block" t []).arguments? = .ok [t] :=
    Term.arguments?_compound (by decide) (by simpa using ht)
  rw [passed, ← insert_eq]
  simp [play, plays_ofList_singleton, hb, hname, harguments, bind, Except.bind, pure, Except.pure]

variable (hnext : own.pawn.neighbour? d = some next)
include hnext

lemma play_step_blocked (ht : t.text ∈ own.borders) (htext : t.text = own.pawn.crossing next) :
    play s (.ofList [⟨role, step d⟩]) = .ok ((passed s role).insert (revealed role t)) := by
  obtain ⟨u, harguments, hdirection⟩ := arguments?_step d
  have hterm : Term.ofText? (own.pawn.crossing next) = .ok t := by
    have ht := Term.ofText?_chars t
    rwa [Term.chars, String.ofList_toList, htext] at ht
  rw [htext] at ht
  rw [passed, ← insert_eq]
  simp [play, plays_ofList_singleton, hb, name_step, harguments, hdirection, hnext, ht, hterm, bind,
    Except.bind, pure, Except.pure]

lemma play_step_open (hcrossing : own.pawn.crossing next ∉ own.borders) :
    play s (.ofList [⟨role, step d⟩]) =
      .ok (replaced (passed s role) (pawnAt role own.pawn.term) (pawnAt role next.term)) := by
  obtain ⟨u, harguments, hdirection⟩ := arguments?_step d
  rw [passed, ← replaced_eq]
  simp [play, plays_ofList_singleton, hb, name_step, harguments, hdirection, hnext, hcrossing,
    Cell.ofText?_name, bind, Except.bind, pure, Except.pure]

end

/-- A border that the search for row 4 can do without leaves a way to it. -/
lemma wayOut_of_canReach {opponent : Board} (hof : opponent.Of role s) (hrole : role ∈ game.roles)
    (h : canReach (separated [t.text] ++ separated opponent.borders) opponent.pawn = true) :
    WayOut (s.insert (border role t)) role opponent.pawn := by
  obtain ⟨b, hgoal, hpath⟩ := exists_path_of_canReach h
  refine ⟨b, hgoal, Relation.ReflTransGen.mono (fun a b hopens => ⟨hopens.1, fun u hu htext => ?_⟩) _ _ hpath⟩
  obtain ⟨hnew, hold⟩ := isOpen_append.1 hopens.2
  rw [isOpen_separated hopens.1] at hnew hold
  rcases State.mem_insert.1 hu with hu | hu
  · obtain ⟨-, rfl⟩ := (border_inj hrole hrole).1 hu
    exact hnew (by simp [htext])
  · exact hold ((hof.borders _).2 ⟨u, hu, htext⟩)

/-- The moves of a role, from its own board and that of its opponent. -/
lemma moves?_of_boards {own opponent : Board} (hown : board? s mover = .ok own)
    (hopponent : board? s (other mover) = .ok opponent) : ∃ blocks, (openBlocks opponent).mapM block? = .ok blocks ∧
      moves? s mover = .ok (blocks ++ pawnMoves own) := by
  obtain ⟨blocks, hblocks⟩ := exists_blocks opponent
  exact ⟨blocks, hblocks, by simp [moves?, hown, hopponent, hblocks, bind, Except.bind, pure, Except.pure]⟩

namespace Position

variable (h : Position mover pawn s)
include h

/-- A pawn may step to a cell if its role did not run into a border on the way there. -/
lemma step_mem {moves : List Move} {d : Direction} {next : Cell} (hnext : (pawn mover).neighbour? d = some next)
    (hfree : ∀ t, Corridor.revealed mover t ∈ s → t.text ≠ (pawn mover).crossing next)
    (hmoves : Corridor.moves? s mover = .ok moves) : step d ∈ moves := by
  obtain ⟨own, hown, hof, hpawn⟩ := h.board? h.mover_mem
  obtain ⟨opponent, hopponent, -, -⟩ := h.board? (@other_mem mover)
  obtain ⟨blocks, -, hmoves'⟩ := moves?_of_boards hown hopponent
  rw [Except.ok.inj (hmoves.symm.trans hmoves')]
  refine List.mem_append_right _ (List.mem_map_of_mem (List.mem_filter.2 ⟨d.mem_all, ?_⟩))
  rw [hpawn, hnext]
  simp only [Option.any_some, Bool.not_eq_true', List.contains_eq_mem, decide_eq_false_iff_not]
  intro hin
  obtain ⟨t, ht, htext⟩ := (hof.revealed _).1 hin
  exact hfree t ht htext

/-- Where no border hinders the opponent yet, one may be placed that leaves it a way. -/
lemma block_mem {moves : List Move} (hnone : ∀ u, border (other mover) u ∉ s) (ht : t.text ∈ blockable)
    (hreach : canFinish (pawn (other mover)) [] t.text = true) (hmoves : Corridor.moves? s mover = .ok moves) :
    .compound "block" t [] ∈ moves := by
  obtain ⟨own, hown, -, -⟩ := h.board? h.mover_mem
  obtain ⟨opponent, hopponent, hof, hpawn⟩ := h.board? (@other_mem mover)
  obtain ⟨blocks, hblocks, hmoves'⟩ := moves?_of_boards hown hopponent
  have hborders : opponent.borders = [] := List.eq_nil_iff_forall_not_mem.2 fun c hc => by
    obtain ⟨u, hu, -⟩ := (hof.borders c).1 hc
    exact hnone u hu
  have hopen : t.text ∈ openBlocks opponent := by
    rw [mem_openBlocks, hborders, hpawn]
    exact ⟨ht, List.not_mem_nil, hreach⟩
  rw [Except.ok.inj (hmoves.symm.trans hmoves')]
  exact List.mem_append_left _ ((mem_of_mapM hblocks _).2 ⟨t.text, hopen, block?_eq_ok t⟩)

/-- A legal move of the role in control is a block that leaves the opponent a way out, or a step of the
pawn to a cell of the board. -/
theorem moves? : ∃ moves, Corridor.moves? s mover = .ok moves ∧
    (∀ m ∈ moves, (∃ t : Term, m = .compound "block" t [] ∧ t.text ∈ blockable ∧
        WayOut (s.insert (border (other mover) t)) (other mover) (pawn (other mover))) ∨
      ∃ d next, m = step d ∧ (pawn mover).neighbour? d = some next) ∧
    ((pawn mover).isGoal = false → ∃ d, step d ∈ moves) := by
  obtain ⟨own, hown, hof, hpawn⟩ := h.board? h.mover_mem
  obtain ⟨opponent, hopponent, hopponentOf, hopponentPawn⟩ := h.board? (@other_mem mover)
  obtain ⟨blocks, hblocks, hmoves⟩ := moves?_of_boards hown hopponent
  refine ⟨blocks ++ pawnMoves own, hmoves, fun m hm => ?_, fun hgoal => ?_⟩
  · rcases List.mem_append.1 hm with hm | hm
    · obtain ⟨crossing, hc, hm⟩ := (mem_of_mapM hblocks m).1 hm
      obtain ⟨hplace, hreach⟩ := Bool.and_eq_true_iff.1 (List.mem_filter.1 hc).2
      obtain ⟨t, -, rfl⟩ := exists_ofText?_of_mem_blockable (List.mem_filter.1 hc).1
      rw [block?_eq_ok t, Except.ok.injEq] at hm
      exact .inl ⟨t, hm.symm, (List.mem_filter.1 hc).1, hopponentPawn ▸ wayOut_of_canReach hopponentOf other_mem hreach⟩
    · obtain ⟨d, hd, rfl⟩ := List.mem_map.1 hm
      obtain ⟨next, hnext, -⟩ := (Option.any_eq_true _ _).1 (List.mem_filter.1 hd).2
      exact .inr ⟨d, next, rfl, hpawn ▸ hnext⟩
  -- the first step of the way out is not known to be blocked, since it is not blocked
  · obtain ⟨b, hb, hpath⟩ := h.wayOut mover h.mover_mem
    rcases hpath.cases_head with heq | ⟨next, ⟨⟨d, hnext⟩, hfree⟩, -⟩
    · exact absurd (heq ▸ hb) (by simp [hgoal])
    · exact ⟨d, h.step_mem hnext (fun t ht => hfree t (h.revealed mover h.mover_mem t ht)) hmoves⟩

/-- Every legal move of the role in control leads on to a position. -/
theorem play (hended : ∀ role ∈ game.roles, (pawn role).isGoal = false) {moves : List Move} {m : Move}
    (hmoves : Corridor.moves? s mover = .ok moves) (hm : m ∈ moves) :
    ∃ s' pawn', Corridor.play s (.ofList [⟨mover, m⟩]) = .ok s' ∧ Position (other mover) pawn' s' := by
  obtain ⟨own, hown, hof, hpawn⟩ := h.board? h.mover_mem
  obtain ⟨moves', hmoves', hlegal, -⟩ := h.moves?
  obtain rfl : moves' = moves := Except.ok.inj (hmoves'.symm.trans hmoves)
  have hborder : ∀ owner t, border owner t ∈ Corridor.passed s mover ↔ border owner t ∈ s :=
    fun owner t => mem_passed_of_name_ne (by simp)
  rcases hlegal m hm with ⟨t, rfl, ht, hway⟩ | ⟨d, next, rfl, hnext⟩
  · refine ⟨_, pawn, play_block hown (whole_of_mem_blockable ht), h.passed.blocked other_mem ht ?_⟩
    refine hway.mono fun u hu => ?_
    rwa [State.mem_insert, hborder, ← State.mem_insert] at hu
  · rw [← hpawn] at hnext
    by_cases hin : own.pawn.crossing next ∈ own.borders
    · obtain ⟨t, ht, htext⟩ := (hof.borders _).1 hin
      exact ⟨_, pawn, play_step_blocked hown hnext (htext ▸ hin) htext,
        h.passed.bumped h.mover_mem ((hborder mover t).2 ht)⟩
    · have hfree : Passable (Corridor.passed s mover) mover (pawn mover) next := by
        refine ⟨⟨d, hpawn ▸ hnext⟩, fun t ht htext => hin ?_⟩
        rw [hpawn]
        exact (hof.borders _).2 ⟨t, (hborder mover t).1 ht, htext⟩
      refine ⟨_, Function.update pawn mover next, play_step_open hown hnext hin, ?_⟩
      rw [hpawn]
      exact h.passed.moved h.mover_mem hfree (hended _ other_mem)

lemma legal {moves : List Move} (hmoves : Corridor.moves? s mover = .ok moves) :
    ∃ legal, game.legal s = .ok legal ∧ legal.getD mover [] = moves := by
  obtain ⟨control, hcontrol, hmover⟩ := h.control?
  refine ⟨.ofList [(mover, moves)], ?_, by simp [Std.ExtTreeMap.ofList_singleton]⟩
  simp [game, hcontrol, hmover, hmoves, bind, Except.bind, pure, Except.pure]

/-- The transitions out of a position can be listed, and lead to positions. -/
theorem successors? : ∃ next, game.successors? s = .ok next ∧
    ∀ step ∈ next, ∃ pawn', Position (other mover) pawn' step.2 := by
  cases hended : (pawn left).isGoal || (pawn right).isGoal with
  | true =>
    exact ⟨[], Game.successors?_of_isTerminal (by rw [h.isTerminal, hended]), by simp⟩
  | false =>
    have hgoal : ∀ role ∈ game.roles, (pawn role).isGoal = false := by
      intro role hrole
      rw [Bool.or_eq_false_iff] at hended
      rcases mem_roles.1 hrole with rfl | rfl
      · exact hended.1
      · exact hended.2
    obtain ⟨control, hcontrol, hmover⟩ := h.control?
    obtain ⟨moves, hmoves, -, hmove⟩ := h.moves?
    obtain ⟨d, hd⟩ := hmove (hgoal mover h.mover_mem)
    obtain ⟨legal, hlegal, hmoves'⟩ := h.legal hmoves
    have hplay : ∀ m ∈ moves, ∃ t pawn', game.play s (.ofList [⟨mover, m⟩]) = .ok t ∧
        Position (other mover) pawn' t := fun m hm => h.play hgoal hmoves hm
    obtain ⟨next, hnext, hmem⟩ := Game.exists_successors?_of_single (h.isTerminal.trans (by rw [hended]))
      hcontrol hmover hlegal (by rw [hmoves']; exact List.ne_nil_of_mem hd)
      fun m hm => (hplay m (hmoves' ▸ hm)).imp fun t ht => ht.choose_spec.1
    refine ⟨next, hnext, fun step hstep => ?_⟩
    obtain ⟨m, hm, -, ht⟩ := hmem step hstep
    obtain ⟨t, pawn', ht', hposition⟩ := hplay m (hmoves' ▸ hm)
    rw [ht, Except.ok.injEq] at ht'
    exact ⟨pawn', ht' ▸ hposition⟩

end Position

/-! ## The whole play -/

def Cell.first : Cell := ⟨⟨1, by decide⟩, ⟨0, by decide⟩⟩

lemma mem_start : f ∈ game.start ↔
    f = pawnAt left Cell.first.term ∨ f = pawnAt right Cell.first.term ∨ f = controlOf left := by
  have hfirst : firstCell = Cell.first.term := Term.ext (by decide +kernel)
  simp [game, hfirst]

lemma not_border_start (t : Term) : border role t ∉ game.start := by
  simp [mem_start, ne_of_name_ne, Term.name_controlOf]

/-- With no border on the board the pawns walk straight up. -/
lemma wayOut_first (hborders : ∀ t, border role t ∉ s) : WayOut s role Cell.first := by
  have hup : ∀ row : Fin 3, Passable s role ⟨1, row.castSucc⟩ ⟨1, row.succ⟩ := fun row =>
    ⟨⟨.north, by revert row; decide⟩, fun t ht => absurd ht (hborders t)⟩
  exact ⟨⟨1, 3⟩, rfl, .head (hup 0) (.head (hup 1) (.head (hup 2) .refl))⟩

lemma position_start : Position left (fun _ => Cell.first) game.start where
  mover_mem := left_mem
  facts f hf := by
    rcases mem_start.1 hf with rfl | rfl | rfl
    · exact .pawn left_mem _
    · exact .pawn right_mem _
    · exact .control left_mem
  control role := by simp [mem_start, ne_of_name_ne, Term.name_controlOf, controlOf_inj]
  pawns role hrole c := by
    have hcontrol : pawnAt role c.term ≠ controlOf left := ne_of_name_ne (by simp [Term.name_controlOf])
    rw [mem_start, pawnAt_inj hrole left_mem, pawnAt_inj hrole right_mem]
    rcases mem_roles.1 hrole with rfl | rfl <;> simp [hcontrol, left_ne_right, left_ne_right.symm]
  revealed role _ t ht := by simp [mem_start, ne_of_name_ne, Term.name_controlOf] at ht
  winner := by decide
  wayOut role _ := wayOut_first not_border_start

/-- Every state that the play comes to is a position. -/
theorem exists_position_of_after {plies : Nat} (h : game.After plies game.start s) :
    ∃ mover pawn, Position mover pawn s := by
  induction plies generalizing s with
  | zero =>
    cases h
    exact ⟨_, _, position_start⟩
  | succ plies ih =>
    obtain ⟨u, hu, turn, hturn, rfl⟩ := Game.after_succ.1 h
    obtain ⟨mover, pawn, hposition⟩ := ih hu
    obtain ⟨next, hnext, hlater⟩ := hposition.successors?
    rw [Game.transitions_of_ok hnext] at hturn
    exact ⟨_, hlater turn hturn⟩

/-- What the rules promise of every state of a play. -/
structure Orderly (s : State) : Prop where
  /-- One role is in control. -/
  control : ∃ mover ∈ game.roles, ∀ f, f ∈ s.named "control" ↔ f = controlOf mover
  /-- Each role has one pawn, no two pawns have won, and each of them can still win. -/
  pawns : ∃ pawn : Role → Cell,
    (∀ f, f ∈ s.named "at" ↔ ∃ role ∈ game.roles, f = pawnAt role (pawn role).term) ∧
    ¬((pawn left).isGoal = true ∧ (pawn right).isGoal = true) ∧
    ∀ role ∈ game.roles, WayOut s role (pawn role)
  /-- Borders lie where they may be placed. -/
  borders : ∀ f ∈ s.named "border", ∃ role ∈ game.roles, ∃ t : Term, f = border role t ∧ t.text ∈ blockable
  /-- What has been revealed is a border. -/
  revealed : ∀ f ∈ s.named "revealed",
    ∃ role ∈ game.roles, ∃ t, f = Corridor.revealed role t ∧ border role t ∈ s

lemma Position.orderly (h : Position mover pawn s) : Orderly s where
  control := ⟨mover, h.mover_mem, fun _ => h.mem_named_control⟩
  pawns := by
    refine ⟨pawn, fun f => ?_, h.winner, h.wayOut⟩
    rw [State.named, List.mem_filter, State.mem_toList]
    constructor
    · rintro ⟨hf, hname⟩
      cases h.facts f hf with
      | pawn hrole c => exact ⟨_, hrole, by rw [(h.pawns _ hrole c).1 hf]⟩
      | control => simp [Term.name_controlOf] at hname
      | _ => simp at hname
    · rintro ⟨role, hrole, rfl⟩
      exact ⟨(h.pawns role hrole _).2 rfl, by simp⟩
  borders f hf := by
    obtain ⟨hf, hname⟩ := List.mem_filter.1 hf
    cases h.facts f hf with
    | border hrole ht => exact ⟨_, hrole, _, rfl, ht⟩
    | control => simp [Term.name_controlOf] at hname
    | _ => simp at hname
  revealed f hf := by
    obtain ⟨hf, hname⟩ := List.mem_filter.1 hf
    cases h.facts f hf with
    | revealed hrole ht => exact ⟨_, hrole, _, rfl, h.revealed _ hrole _ hf⟩
    | control => simp [Term.name_controlOf] at hname
    | _ => simp at hname

/-- However long the play: its states are as the rules promise, their transitions can be listed, and the
role in control of a state that is not terminal can move its pawn. -/
theorem orderly_of_after {plies : Nat} (h : game.After plies game.start s) :
    Orderly s ∧ (∃ next, game.successors? s = .ok next) ∧
      (game.isTerminal s = .ok false → ∀ role, s.isInControl role = true →
        ∃ moves d, game.moves? s role = .ok moves ∧ step d ∈ moves) := by
  obtain ⟨mover, pawn, hposition⟩ := exists_position_of_after h
  refine ⟨hposition.orderly, hposition.successors?.imp fun _ => And.left, fun hterminal role hrole => ?_⟩
  rw [State.isInControl_iff, hposition.control] at hrole
  obtain ⟨moves, hmoves, -, hstep⟩ := hposition.moves?
  obtain ⟨legal, hlegal, hmoves'⟩ := hposition.legal hmoves
  rw [hposition.isTerminal, Except.ok.injEq, Bool.or_eq_false_iff] at hterminal
  have hgoal : (pawn mover).isGoal = false := by
    rcases mem_roles.1 hposition.mover_mem with rfl | rfl
    · exact hterminal.1
    · exact hterminal.2
  obtain ⟨d, hd⟩ := hstep hgoal
  refine ⟨moves, d, ?_, hd⟩
  simp [Game.moves?, hlegal, hrole, hmoves', bind, Except.bind, pure, Except.pure]

/-- The play goes on with any legal move. -/
lemma Position.goes_on {plies : Nat} {moves : List Move} {m : Move} (h : Position mover pawn s)
    (hs : game.After plies game.start s) (hended : ∀ role ∈ game.roles, (pawn role).isGoal = false)
    (hmoves : Corridor.moves? s mover = .ok moves) (hm : m ∈ moves) :
    ∃ t pawn', Corridor.play s (.ofList [⟨mover, m⟩]) = .ok t ∧ game.After (plies + 1) game.start t ∧
      Position (other mover) pawn' t := by
  obtain ⟨t, pawn', hplay, hposition⟩ := h.play hended hmoves hm
  obtain ⟨next, hnext, -⟩ := h.successors?
  have hongoing : game.isTerminal s = .ok false := by
    rw [h.isTerminal, hended left left_mem, hended right right_mem]
    rfl
  obtain ⟨control, legal, hcontrol, hlegal, hsteps⟩ := Game.mem_transitions_iff hnext hongoing
  obtain ⟨control', hcontrol', honly⟩ := h.control?
  cases hcontrol.symm.trans hcontrol'
  obtain ⟨legal', hlegal', hlisted⟩ := h.legal hmoves
  cases hlegal.symm.trans hlegal'
  have hturn : Game.Legal legal control.toList [⟨mover, m⟩] := by
    rw [honly]
    exact .cons ⟨rfl, hlisted ▸ hm⟩ .nil
  exact ⟨t, pawn', hplay, Game.after_succ.2 ⟨s, hs, _, (hsteps _ t).2 ⟨_, hturn, rfl, hplay⟩, rfl⟩, hposition⟩

/-! ## A play of three plies -/

def Cell.second : Cell := ⟨⟨1, by decide⟩, ⟨1, by decide⟩⟩

/-- The crossing above the first cells. -/
def firstCrossing : Term := .symbol (Cell.first.crossing Cell.second)

lemma firstCrossing_text : firstCrossing.text = Cell.first.crossing Cell.second := rfl

/-- Both pawns are where they were at first, and no border hinders `left`. -/
structure Opened (s : State) (pawn : Role → Cell) : Prop where
  pawns : ∀ role ∈ game.roles, pawn role = Cell.first
  free : ∀ t, border left t ∉ s
  fresh : ∀ t, revealed left t ∉ s

/-- The first player may put up a border in the way of the other one. -/
lemma exists_blocked : ∃ s pawn, game.After 1 game.start s ∧ Position right pawn s ∧ Opened s pawn ∧
    border right firstCrossing ∈ s ∧ ∀ t, revealed right t ∉ s := by
  have hplace : firstCrossing.text ∈ blockable :=
    mem_blockable.2 ⟨Cell.first, Cell.second, by decide +kernel, by decide, firstCrossing_text.symm⟩
  obtain ⟨moves, hmoves, -⟩ := position_start.moves?
  have hbegins : game.After 0 game.start game.start := rfl
  obtain ⟨s, pawn, hplay, hafter, h⟩ := position_start.goes_on hbegins (fun _ _ => rfl) hmoves
    (position_start.block_mem not_border_start hplace (by decide +kernel) hmoves)
  obtain ⟨own, hown, -⟩ := position_start.board? left_mem
  cases hplay.symm.trans (play_block hown (whole_of_mem_blockable hplace))
  have hother : other left = right := by decide
  rw [hother] at h hafter
  refine ⟨_, pawn, hafter, h, ⟨fun role hrole => ?_, fun t => ?_, fun t => ?_⟩, State.mem_insert.2 (.inl rfl),
    fun t => ?_⟩
  · refine ((h.pawns role hrole _).1 ?_).symm
    rcases mem_roles.1 hrole with rfl | rfl <;> simp [State.mem_insert, mem_passed, mem_start]
  · simp [mem_passed, mem_start, ne_of_name_ne, border_inj, left_mem, right_mem, left_ne_right, hother,
      Term.name_controlOf]
  · simp [mem_passed, mem_start, ne_of_name_ne, Term.name_controlOf]
  · simp [mem_passed, mem_start, ne_of_name_ne, Term.name_controlOf]

/-- The other one may run into it. -/
lemma exists_bumped : ∃ s pawn, game.After 2 game.start s ∧ Position left pawn s ∧ Opened s pawn ∧
    border right firstCrossing ∈ s ∧ revealed right firstCrossing ∈ s := by
  obtain ⟨s, pawn, hafter, h, hopened, hborder, hfresh⟩ := exists_blocked
  have hpawn := hopened.pawns right right_mem
  have hnext : (pawn right).neighbour? .north = some Cell.second := by
    rw [hpawn]
    rfl
  obtain ⟨moves, hmoves, -⟩ := h.moves?
  obtain ⟨s', pawn', hplay, hafter', h'⟩ := h.goes_on hafter (fun role hrole => by rw [hopened.pawns role hrole]; rfl)
    hmoves (h.step_mem hnext (fun t ht => absurd ht (hfresh t)) hmoves)
  obtain ⟨own, hown, hof, hown'⟩ := h.board? right_mem
  have hcrossing : firstCrossing.text = own.pawn.crossing Cell.second := by
    rw [hown', hpawn]
    exact firstCrossing_text
  cases hplay.symm.trans (play_step_blocked hown (hown'.symm ▸ hnext) ((hof.borders _).2 ⟨_, hborder, rfl⟩) hcrossing)
  have hkept : ∀ f : Term, f.name ≠ "control" → f ∈ s → f ∈ (passed s right).insert (revealed right firstCrossing) :=
    fun f hf hin => State.mem_insert.2 (.inr (mem_passed.2 (.inl ⟨hin, hf⟩)))
  refine ⟨_, pawn', hafter', h', ⟨fun role hrole => ?_, fun t => ?_, fun t => ?_⟩, hkept _ (by simp) hborder,
    State.mem_insert.2 (.inl rfl)⟩
  · refine ((h'.pawns role hrole _).1 (hkept _ (by simp) ?_)).symm
    exact (h.pawns role hrole _).2 (hopened.pawns role hrole).symm
  · simp [mem_passed, ne_of_name_ne, Term.name_controlOf, hopened.free]
  · simp [mem_passed, ne_of_name_ne, revealed_inj, left_mem, right_mem, left_ne_right, Term.name_controlOf,
      hopened.fresh]

/-- The theorem applies after three plies: `left` has put up a border in the way of `right`, which has run into it,
and `left` has made its first step. -/
theorem orderly_hindered : ∃ s, game.After 3 game.start s ∧ border right firstCrossing ∈ s ∧
    revealed right firstCrossing ∈ s ∧ pawnAt left Cell.second.term ∈ s ∧ Orderly s ∧
    ∃ moves d, game.moves? s right = .ok moves ∧ step d ∈ moves := by
  obtain ⟨s, pawn, hafter, h, hopened, hborder, hrevealed⟩ := exists_bumped
  have hpawn := hopened.pawns left left_mem
  have hnext : (pawn left).neighbour? .north = some Cell.second := by
    rw [hpawn]
    rfl
  obtain ⟨moves, hmoves, -⟩ := h.moves?
  obtain ⟨s', pawn', hplay, hafter', h'⟩ := h.goes_on hafter (fun role hrole => by rw [hopened.pawns role hrole]; rfl)
    hmoves (h.step_mem hnext (fun t ht => absurd ht (hopened.fresh t)) hmoves)
  obtain ⟨own, hown, hof, hown'⟩ := h.board? left_mem
  have hopen : own.pawn.crossing Cell.second ∉ own.borders := fun hin => by
    obtain ⟨t, ht, -⟩ := (hof.borders _).1 hin
    exact hopened.free t ht
  cases hplay.symm.trans (play_step_open hown (hown'.symm ▸ hnext) hopen)
  have hsource : pawnAt left own.pawn.term ∈ passed s left :=
    (mem_passed_of_name_ne (by simp)).2 ((h.pawns left left_mem _).2 hown')
  have hkept : ∀ f : Term, f.name ≠ "control" → f.name ≠ "at" → f ∈ s →
      f ∈ replaced (passed s left) (pawnAt left own.pawn.term) (pawnAt left Cell.second.term) := fun f hf hat hin =>
    (mem_replaced hsource).2 (.inr ⟨mem_passed.2 (.inl ⟨hin, hf⟩), ne_of_name_ne (by simpa using hat)⟩)
  have hleft : Cell.second = pawn' left := (h'.pawns left left_mem _).1 ((mem_replaced hsource).2 (.inl rfl))
  have hright : Cell.first = pawn' right := by
    have hstays : pawnAt right Cell.first.term ∈ passed s left :=
      (mem_passed_of_name_ne (by simp)).2 ((h.pawns right right_mem _).2 (hopened.pawns right right_mem).symm)
    refine (h'.pawns right right_mem _).1 ((mem_replaced hsource).2 (.inr ⟨hstays, fun heq => ?_⟩))
    exact left_ne_right ((pawnAt_inj right_mem left_mem).1 heq).1.symm
  have hongoing := h'.isTerminal
  rw [← hleft, ← hright] at hongoing
  obtain ⟨horderly, -, hmove⟩ := orderly_of_after hafter'
  refine ⟨_, hafter', hkept _ (by simp) (by simp) hborder, hkept _ (by simp) (by simp) hrevealed,
    (mem_replaced hsource).2 (.inl rfl), horderly, hmove hongoing right ?_⟩
  exact State.isInControl_iff.2 ((h'.control right).2 (by decide))

end GameSearch.Corridor
