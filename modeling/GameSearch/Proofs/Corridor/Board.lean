import GameSearch.Game.Corridor
import GameSearch.Proofs.Control

/-!
# Boards of the dark split corridor

`Fact` lists what the states of the game are made of.  A board read from such a state holds the pawn
and the crossings that the facts of the state name.
-/

namespace GameSearch.Corridor

variable {role owner : Role} {s : State} {a b c : Cell} {t u f : Term} {r : Reading}

lemma mem_roles : role ∈ game.roles ↔ role = left ∨ role = right := by simp [game]

lemma left_mem : left ∈ game.roles := mem_roles.2 (.inl rfl)

lemma right_mem : right ∈ game.roles := mem_roles.2 (.inr rfl)

lemma left_ne_right : left ≠ right := by decide

lemma other_mem : other role ∈ game.roles := by
  rw [mem_roles, other]
  split
  · exact .inr rfl
  · exact .inl rfl

lemma whole_role (h : role ∈ game.roles) : Term.Whole role.chars := by
  rcases mem_roles.1 h with rfl | rfl <;> exact Term.whole_of_isPlain (by decide)

/-! ## Cells and crossings -/

lemma Direction.mem_all (d : Direction) : d ∈ Direction.all := by
  cases d <;> decide

namespace Cell

lemma mem_all (c : Cell) : c ∈ all := by simp [all]

lemma isPlain_name (c : Cell) : c.name.toList.all Term.isPlain = true := by
  have h : ∀ c ∈ all, c.name.toList.all Term.isPlain = true := by decide +kernel
  exact h c c.mem_all

lemma name_ne_empty (c : Cell) : c.name ≠ "" := by
  have h : ∀ c ∈ all, c.name ≠ "" := by decide +kernel
  exact h c c.mem_all

lemma ofName?_name (c : Cell) : ofName? c.name = some c := by
  have h : ∀ c ∈ all, ofName? c.name = some c := by decide +kernel
  exact h c c.mem_all

/-- The name of a cell as a term. -/
def term (c : Cell) : Term := ⟨c.name, c.name_ne_empty, Term.isBlank_of_isPlain c.isPlain_name⟩

lemma ofText?_name (c : Cell) : Term.ofText? c.name = .ok c.term := by
  have h := Term.ofText?_chars c.term
  rwa [show c.term.chars = c.name.toList from rfl, String.ofList_toList] at h

lemma term_injective (h : a.term = b.term) : a = b := by
  have hname : a.name = b.name := congrArg Term.text h
  have hcells := congrArg ofName? hname
  rw [ofName?_name, ofName?_name] at hcells
  exact Option.some.inj hcells

/-- Two cells are neighbours on a board. -/
def Adjacent (a b : Cell) : Prop := ∃ d, a.neighbour? d = some b

/-- Neighbours are listed in one of the two orders. -/
lemma Adjacent.listed (h : a.Adjacent b) : (a, b) ∈ neighbours ∨ (b, a) ∈ neighbours := by
  have hall : ∀ a ∈ all, ∀ d ∈ Direction.all, ∀ b ∈ all, a.neighbour? d = some b →
      (a, b) ∈ neighbours ∨ (b, a) ∈ neighbours := by decide +kernel
  obtain ⟨d, hd⟩ := h
  exact hall a a.mem_all d d.mem_all b b.mem_all hd

lemma Adjacent.symm (h : a.Adjacent b) : b.Adjacent a := by
  have hall : ∀ a ∈ all, ∀ d ∈ Direction.all, ∀ b ∈ all, a.neighbour? d = some b →
      ∃ d' ∈ Direction.all, b.neighbour? d' = some a := by decide +kernel
  obtain ⟨d, hd⟩ := h
  obtain ⟨d', -, hd'⟩ := hall a a.mem_all d d.mem_all b b.mem_all hd
  exact ⟨d', hd'⟩

lemma crossing_comm (a b : Cell) : a.crossing b = b.crossing a := by
  unfold crossing crossingName
  by_cases hab : a.name < b.name
  · rw [if_pos hab, if_neg (String.lt_asymm hab)]
  · by_cases hba : b.name < a.name
    · rw [if_neg hab, if_pos hba]
    · rw [if_neg hab, if_neg hba, String.le_antisymm (String.not_lt.1 hba) (String.not_lt.1 hab)]

end Cell

lemma mem_separated {borders : List String} :
    (a, b) ∈ separated borders ↔ (a, b) ∈ neighbours ∧ a.crossing b ∈ borders := by
  simp [separated, crossings]

/-- A pawn can step between two neighbours if no border lies on their crossing. -/
lemma isOpen_separated {borders : List String} (h : a.Adjacent b) :
    isOpen (separated borders) a b = true ↔ a.crossing b ∉ borders := by
  have hab : (a, b) ∈ separated borders → a.crossing b ∈ borders := fun hin => (mem_separated.1 hin).2
  have hba : (b, a) ∈ separated borders → a.crossing b ∈ borders := fun hin =>
    Cell.crossing_comm b a ▸ (mem_separated.1 hin).2
  have hlisted : a.crossing b ∈ borders → (a, b) ∈ separated borders ∨ (b, a) ∈ separated borders := by
    intro hin
    rcases h.listed with hab | hba
    · exact .inl (mem_separated.2 ⟨hab, hin⟩)
    · rw [Cell.crossing_comm] at hin
      exact .inr (mem_separated.2 ⟨hba, hin⟩)
  simp only [isOpen, Bool.and_eq_true, Bool.not_eq_true', List.contains_eq_mem, decide_eq_false_iff_not]
  constructor
  · rintro ⟨hnab, hnba⟩ hin
    rcases hlisted hin with hin | hin
    · exact hnab hin
    · exact hnba hin
  · exact fun hnot => ⟨fun hin => hnot (hab hin), fun hin => hnot (hba hin)⟩

/-- The crossings on which a border may be placed are those between neighbours that are not both on
row 4. -/
lemma mem_blockable {crossing : String} : crossing ∈ blockable ↔
    ∃ a b, (a, b) ∈ neighbours ∧ (a.isGoal = false ∨ b.isGoal = false) ∧ a.crossing b = crossing := by
  simp only [blockable, List.mem_mergeSort, crossings, List.mem_map, List.mem_filter, Prod.exists,
    Prod.mk.injEq, Bool.not_eq_true', Bool.and_eq_false_iff]
  constructor
  · rintro ⟨name, a, b, ⟨⟨a', b', hneighbours, rfl, rfl, rfl⟩, hgoal⟩, rfl⟩
    exact ⟨a', b', hneighbours, hgoal, rfl⟩
  · rintro ⟨a, b, hneighbours, hgoal, rfl⟩
    exact ⟨_, a, b, ⟨⟨a, b, hneighbours, rfl, rfl, rfl⟩, hgoal⟩, rfl⟩

lemma isPlain_of_mem_blockable {crossing : String} (h : crossing ∈ blockable) :
    crossing.toList.all Term.isPlain = true ∧ crossing ≠ "" := by
  have hall : ∀ p ∈ neighbours, (p.1.crossing p.2).toList.all Term.isPlain = true ∧ p.1.crossing p.2 ≠ "" := by
    decide +kernel
  obtain ⟨a, b, hneighbours, -, rfl⟩ := mem_blockable.1 h
  exact hall (a, b) hneighbours

lemma whole_of_mem_blockable (h : t.text ∈ blockable) : Term.Whole t.chars :=
  Term.whole_of_isPlain (isPlain_of_mem_blockable h).1

/-- The name of a crossing can be written as a term. -/
lemma exists_ofText?_of_mem_blockable {crossing : String} (h : crossing ∈ blockable) :
    ∃ t, Term.ofText? crossing = .ok t ∧ t.text = crossing := by
  obtain ⟨hplain, hne⟩ := isPlain_of_mem_blockable h
  let t : Term := ⟨crossing, hne, Term.isBlank_of_isPlain hplain⟩
  have ht := Term.ofText?_chars t
  rw [show t.chars = crossing.toList from rfl, String.ofList_toList] at ht
  exact ⟨t, ht, rfl⟩

lemma block?_eq_ok (t : Term) : block? t.text = .ok (.compound "block" t []) := by
  have ht := Term.ofText?_chars t
  rw [Term.chars, String.ofList_toList] at ht
  simp [block?, ht, bind, Except.bind, pure, Except.pure]

/-- Every crossing on which a border may be placed can be named in a move. -/
lemma exists_blocks (b : Board) : ∃ blocks, (openBlocks b).mapM block? = .ok blocks := by
  refine exists_mapM_eq_ok fun crossing hc => ?_
  obtain ⟨t, ht, -⟩ := exists_ofText?_of_mem_blockable (List.mem_filter.1 hc).1
  exact ⟨.compound "block" t [], by simp [block?, ht, bind, Except.bind, pure, Except.pure]⟩

/-! ## Facts -/

/-- The facts that the states of the game are made of. -/
inductive Fact : Term → Prop
  | control {role : Role} (h : role ∈ game.roles) : Fact (controlOf role)
  | pawn {role : Role} (h : role ∈ game.roles) (c : Cell) : Fact (pawnAt role c.term)
  | border {role : Role} (h : role ∈ game.roles) {t : Term} (ht : t.text ∈ blockable) :
      Fact (border role t)
  | revealed {role : Role} (h : role ∈ game.roles) {t : Term} (ht : t.text ∈ blockable) :
      Fact (revealed role t)

@[simp] lemma name_pawnAt : (pawnAt role t).name = "at" := Term.name_compound (by decide)

@[simp] lemma name_border : (border role t).name = "border" := Term.name_compound (by decide)

@[simp] lemma name_revealed : (revealed role t).name = "revealed" := Term.name_compound (by decide)

lemma arguments?_control (h : role ∈ game.roles) : (controlOf role).arguments? = .ok [role] :=
  Term.arguments?_compound (by decide) (by simpa using whole_role h)

section

variable (h : role ∈ game.roles) (ht : Term.Whole t.chars)
include h ht

lemma forall_whole : ∀ u ∈ [role, t], Term.Whole u.chars := by
  simpa using ⟨whole_role h, ht⟩

lemma arguments?_pawnAt : (pawnAt role t).arguments? = .ok [role, t] :=
  Term.arguments?_compound (by decide) (forall_whole h ht)

lemma arguments?_border : (border role t).arguments? = .ok [role, t] :=
  Term.arguments?_compound (by decide) (forall_whole h ht)

lemma arguments?_revealed : (revealed role t).arguments? = .ok [role, t] :=
  Term.arguments?_compound (by decide) (forall_whole h ht)

end

lemma Cell.whole_term (c : Cell) : Term.Whole c.term.chars := Term.whole_of_isPlain c.isPlain_name

section

variable (h : role ∈ game.roles) (howner : owner ∈ game.roles)
include h howner

/-- A fact about a role says which role and what of it. -/
lemma pair_inj {name : String} :
    Term.compound name role [t] = Term.compound name owner [u] ↔ role = owner ∧ t = u := by
  refine ⟨fun heq => ?_, fun ⟨hrole, hterm⟩ => by rw [hrole, hterm]⟩
  have hchars := congrArg Term.chars heq
  rw [Term.chars_compound, Term.chars_compound, List.append_cancel_left_eq, List.cons_inj_right,
    List.append_cancel_right_eq] at hchars
  have hleft : left.chars = ['l', 'e', 'f', 't'] := rfl
  have hright : right.chars = ['r', 'i', 'g', 'h', 't'] := rfl
  simp only [Term.commaSeparated] at hchars
  rcases mem_roles.1 h with rfl | rfl <;> rcases mem_roles.1 howner with rfl | rfl <;>
    simp only [hleft, hright, List.append_cancel_left_eq, List.cons_append, List.cons.injEq, true_and] at hchars
  · exact ⟨rfl, Term.ext (String.toList_inj.1 hchars)⟩
  · exact absurd hchars.1 (by decide)
  · exact absurd hchars.1 (by decide)
  · exact ⟨rfl, Term.ext (String.toList_inj.1 hchars)⟩

lemma pawnAt_inj : pawnAt role a.term = pawnAt owner b.term ↔ role = owner ∧ a = b := by
  unfold pawnAt
  rw [pair_inj h howner]
  exact and_congr_right fun _ => ⟨Cell.term_injective, congrArg Cell.term⟩

lemma border_inj : border role t = border owner u ↔ role = owner ∧ t = u := pair_inj h howner

lemma revealed_inj : revealed role t = revealed owner u ↔ role = owner ∧ t = u := pair_inj h howner

end

lemma ne_of_name_ne (h : t.name ≠ u.name) : t ≠ u := fun heq => h (heq ▸ rfl)

lemma controlOf_inj : controlOf role = controlOf owner ↔ role = owner := Term.compound_singleton_inj

/-- A border of the game lies on a blockable crossing. -/
lemma Fact.mem_blockable (h : Fact (Corridor.border role t)) (hrole : role ∈ game.roles) :
    t.text ∈ blockable := by
  generalize hf : Corridor.border role t = f at h
  cases h with
  | border howner hu =>
    obtain ⟨-, rfl⟩ := (border_inj hrole howner).1 hf
    exact hu
  | control howner => exact absurd hf (ne_of_name_ne (by simp [Term.name_controlOf]))
  | pawn howner c => exact absurd hf (ne_of_name_ne (by simp))
  | revealed howner hu => exact absurd hf (ne_of_name_ne (by simp))

/-! ## Reading a board -/

/-- What has been read of the board of a role from some facts. -/
structure Reading.Of (role : Role) (facts : List Term) (r : Reading) : Prop where
  pawn : ∀ c, r.pawn = some c → pawnAt role c.term ∈ facts
  met : ∀ c : Cell, pawnAt role c.term ∈ facts → r.pawn ≠ none
  borders : ∀ c, c ∈ r.borders ↔ ∃ t, border role t ∈ facts ∧ t.text = c
  revealed : ∀ c, c ∈ r.revealed ↔ ∃ t, Corridor.revealed role t ∈ facts ∧ t.text = c

namespace Reading

variable {l : List Term}

/-- A fact of another board, or of none, changes nothing. -/
lemma Of.skip (h : r.Of role l) (hpawn : ∀ c : Cell, pawnAt role c.term ≠ f)
    (hborder : ∀ t, border role t ≠ f) (hrevealed : ∀ t, Corridor.revealed role t ≠ f) :
    r.Of role (l ++ [f]) where
  pawn c hc := List.mem_append_left _ (h.pawn c hc)
  met c hc := h.met c (by simpa [hpawn c] using hc)
  borders c := by simp [h.borders c, hborder]
  revealed c := by simp [h.revealed c, hrevealed]

lemma exists_mem_concat {make : Term → Term} (hmake : ∀ u v, make u = make v ↔ u = v) {d : String} :
    (∃ u, make u ∈ l ++ [make t] ∧ u.text = d) ↔ d = t.text ∨ ∃ u, make u ∈ l ∧ u.text = d := by
  simp only [List.mem_append, List.mem_singleton, hmake]
  constructor
  · rintro ⟨u, hu | rfl, rfl⟩
    · exact .inr ⟨u, hu, rfl⟩
    · exact .inl rfl
  · rintro (rfl | ⟨u, hu, rfl⟩)
    · exact ⟨t, .inr rfl, rfl⟩
    · exact ⟨u, .inl hu, rfl⟩

lemma Of.pawnAt (h : r.Of role l) (c : Cell) :
    ({ r with pawn := some c } : Reading).Of role (l ++ [Corridor.pawnAt role c.term]) where
  pawn d hd := by simp_all
  met d _ := by simp
  borders d := by simp [h.borders, ne_of_name_ne]
  revealed d := by simp [h.revealed, ne_of_name_ne]

lemma Of.border (h : r.Of role l) (hrole : role ∈ game.roles) (t : Term) :
    ({ r with borders := t.text :: r.borders } : Reading).Of role (l ++ [Corridor.border role t]) where
  pawn d hd := List.mem_append_left _ (h.pawn d hd)
  met d hd := h.met d (by simpa [ne_of_name_ne] using hd)
  borders d := by
    rw [exists_mem_concat fun u v => by simp [border_inj hrole hrole], ← h.borders, List.mem_cons]
  revealed d := by simp [h.revealed, ne_of_name_ne]

lemma Of.revealed' (h : r.Of role l) (hrole : role ∈ game.roles) (t : Term) :
    ({ r with revealed := t.text :: r.revealed } : Reading).Of role
      (l ++ [Corridor.revealed role t]) where
  pawn d hd := List.mem_append_left _ (h.pawn d hd)
  met d hd := h.met d (by simpa [ne_of_name_ne] using hd)
  borders d := by simp [h.borders, ne_of_name_ne]
  revealed d := by
    rw [exists_mem_concat fun u v => by simp [revealed_inj hrole hrole], ← h.revealed, List.mem_cons]

/-- Every fact of the game can be added to a reading. -/
lemma Of.add (h : r.Of role l) (hrole : role ∈ game.roles) (hf : Fact f) :
    ∃ r', add? role r f = .ok r' ∧ r'.Of role (l ++ [f]) := by
  cases hf with
  | control howner =>
    refine ⟨r, by simp [add?, Term.name_controlOf, pure, Except.pure], h.skip ?_ ?_ ?_⟩ <;>
      simp [ne_of_name_ne, Term.name_controlOf]
  | @pawn owner howner c =>
    have harguments := arguments?_pawnAt howner c.whole_term
    by_cases hne : owner = role
    · subst hne
      refine ⟨{ r with pawn := some c }, ?_, h.pawnAt c⟩
      simp [add?, harguments, bind, Except.bind, pure, Except.pure, show c.term.text = c.name from rfl,
        c.ofName?_name]
    · refine ⟨r, ?_, h.skip ?_ ?_ ?_⟩
      · simp [add?, harguments, bind, Except.bind, pure, Except.pure, hne]
      all_goals simp [ne_of_name_ne, pawnAt_inj hrole howner, Ne.symm hne]
  | @border owner howner t ht =>
    have harguments := arguments?_border howner (whole_of_mem_blockable ht)
    by_cases hne : owner = role
    · subst hne
      refine ⟨{ r with borders := t.text :: r.borders }, ?_, h.border hrole t⟩
      simp [add?, harguments, bind, Except.bind, pure, Except.pure]
    · refine ⟨r, ?_, h.skip ?_ ?_ ?_⟩
      · simp [add?, harguments, bind, Except.bind, pure, Except.pure, hne]
      all_goals simp [ne_of_name_ne, border_inj hrole howner, Ne.symm hne]
  | @revealed owner howner t ht =>
    have harguments := arguments?_revealed howner (whole_of_mem_blockable ht)
    by_cases hne : owner = role
    · subst hne
      refine ⟨{ r with revealed := t.text :: r.revealed }, ?_, h.revealed' hrole t⟩
      simp [add?, harguments, bind, Except.bind, pure, Except.pure]
    · refine ⟨r, ?_, h.skip ?_ ?_ ?_⟩
      · simp [add?, harguments, bind, Except.bind, pure, Except.pure, hne]
      all_goals simp [ne_of_name_ne, revealed_inj hrole howner, Ne.symm hne]

/-- A reading of some facts goes on to a reading of more of them. -/
lemma Of.run {rest : List Term} (h : r.Of role l) (hrole : role ∈ game.roles) (hfacts : ∀ f ∈ rest, Fact f) :
    ∃ r', rest.foldlM (add? role) r = .ok r' ∧ r'.Of role (l ++ rest) := by
  induction rest generalizing l r with
  | nil => exact ⟨r, rfl, by rwa [List.append_nil]⟩
  | cons f rest ih =>
    obtain ⟨r', hadd, hof⟩ := h.add hrole (hfacts f List.mem_cons_self)
    obtain ⟨r'', hrest, hof⟩ := ih hof fun g hg => hfacts g (List.mem_cons_of_mem f hg)
    refine ⟨r'', ?_, by rwa [← List.append_cons] at hof⟩
    rw [List.foldlM_cons, hadd]
    exact hrest

end Reading

/-- A board is what the facts of a state say about a role. -/
structure Board.Of (role : Role) (s : State) (b : Board) : Prop where
  pawn : pawnAt role b.pawn.term ∈ s
  borders : ∀ c, c ∈ b.borders ↔ ∃ t, border role t ∈ s ∧ t.text = c
  revealed : ∀ c, c ∈ b.revealed ↔ ∃ t, Corridor.revealed role t ∈ s ∧ t.text = c

/-- The board of a role can be read from facts of the game with a pawn of the role among them. -/
theorem board?_eq_ok (hrole : role ∈ game.roles) (hfacts : ∀ f ∈ s, Fact f)
    (hpawn : pawnAt role c.term ∈ s) : ∃ b, board? s role = .ok b ∧ b.Of role s := by
  have hempty : ({} : Reading).Of role [] := by constructor <;> simp
  have hlisted : ∀ f ∈ s.toList, Fact f := hfacts
  obtain ⟨r, hr, hof⟩ := hempty.run hrole hlisted
  rw [List.nil_append] at hof
  cases hp : r.pawn with
  | none => exact absurd hp (hof.met c hpawn)
  | some p =>
    refine ⟨⟨p, r.borders, r.revealed⟩, ?_, hof.pawn p hp, hof.borders, hof.revealed⟩
    simp [board?, hr, hp, bind, Except.bind, pure, Except.pure]

end GameSearch.Corridor
