import Mathlib.Algebra.Order.Group.MinMax
import GameSearch.Proofs.Solver.Value

/-!
# Verdicts on a state

What the bounds of the successors of a state say about the state.  If they are right, so is the verdict,
and a verdict is all that the window of the search asks for.  If the successors have to be searched
first, all of them are searched with one window, and once each of them has bounds that answer it, there
is a verdict on the state.

Minimizing is maximizing with all numbers negated, so it is enough to look at the one of the two.
-/

namespace GameSearch.Solver

variable {ε : Type} {p : Problem ℚ ε} {range b b' : Bounds ℚ} {v : State → ℚ} {entries entries' : Entries ℚ}
  {s c : State} {children : List State} {low high low' high' m : ℚ} {tasks : List (Task ℚ)}

/-! ## Bounds -/

/-- The bounds hold of a value, and are inside a range. -/
structure Bounds.Hold (b range : Bounds ℚ) (x : ℚ) : Prop where
  lower : b.lower ≤ x
  upper : x ≤ b.upper
  least : range.lower ≤ b.lower
  greatest : b.upper ≤ range.upper

/-- All bounds found so far hold. -/
def Entries.Sound (range : Bounds ℚ) (v : State → ℚ) (entries : Entries ℚ) : Prop :=
  ∀ (s : State) (b : Bounds ℚ), entries[s]? = some b → b.Hold range (v s)

/-- All bounds are kept, or made narrower. -/
def Entries.Narrows (entries entries' : Entries ℚ) : Prop :=
  ∀ (s : State) (b : Bounds ℚ), entries[s]? = some b →
    ∃ b' : Bounds ℚ, entries'[s]? = some b' ∧ b.lower ≤ b'.lower ∧ b'.upper ≤ b.upper

lemma Entries.Narrows.refl : entries.Narrows entries := fun _ b hb => ⟨b, hb, le_rfl, le_rfl⟩

lemma Entries.Narrows.trans {entries'' : Entries ℚ} (h : entries.Narrows entries')
    (h' : entries'.Narrows entries'') : entries.Narrows entries'' := by
  intro s b hb
  obtain ⟨b', hb', hlower, hupper⟩ := h s b hb
  obtain ⟨b'', hb'', hlower', hupper'⟩ := h' s b' hb'
  exact ⟨b'', hb'', hlower.trans hlower', hupper'.trans hupper⟩

lemma Bounds.isExact_iff : b.isExact = true ↔ b.lower = b.upper := beq_iff_eq

/-- Bounds that say all that a window asks for. -/
def Bounds.Answers (b : Bounds ℚ) (low high : ℚ) : Prop :=
  b.lower = b.upper ∨ high ≤ b.lower ∨ b.upper ≤ low

lemma answers_iff {bounds : Option (Bounds ℚ)} : Problem.answers bounds low high = true ↔
    ∃ b, bounds = some b ∧ b.Answers low high := by
  cases bounds with
  | none => simp [Problem.answers]
  | some b => simp [Problem.answers, Bounds.Answers, Bounds.isExact_iff, or_assoc]

/-- Narrower bounds answer what wider ones do, and also a narrower window. -/
lemma answers_mono (hsound : entries'.Sound range v) (hnarrows : entries.Narrows entries')
    (hlow : low ≤ low') (hhigh : high' ≤ high) (h : Problem.answers entries[s]? low high = true) :
    Problem.answers entries'[s]? low' high' = true := by
  obtain ⟨b, hb, hanswers⟩ := answers_iff.1 h
  obtain ⟨b', hb', hlower, hupper⟩ := hnarrows s b hb
  have hbetween := (hsound s b' hb').lower.trans (hsound s b' hb').upper
  refine answers_iff.2 ⟨b', hb', ?_⟩
  rcases hanswers with hexact | hcut | hfail
  · exact .inl (le_antisymm hbetween (by linarith))
  · exact .inr (.inl (by linarith))
  · exact .inr (.inr (by linarith))

/-- Within the range, nothing but the value itself answers the whole range. -/
lemma answers_range_iff (hsound : entries.Sound range v) :
    Problem.answers entries[s]? range.lower range.upper = true ↔
      ∃ b, entries[s]? = some b ∧ b.lower = b.upper := by
  rw [answers_iff]
  refine exists_congr fun b => and_congr_right fun hb => ?_
  obtain ⟨hlower, hupper, hleast, hgreatest⟩ := hsound s b hb
  constructor
  · rintro (hexact | hcut | hfail)
    · exact hexact
    · linarith
    · linarith
  · exact .inl

lemma value?_eq_some {x : ℚ} : entries.value? s = some x ↔
    ∃ b, entries[s]? = some b ∧ b.lower = b.upper ∧ b.lower = x := by
  simp [Entries.value?, Option.bind_eq_some_iff, Bounds.isExact_iff]

lemma Entries.Sound.value (h : entries.Sound range v) {x : ℚ} (hx : entries.value? s = some x) :
    x = v s := by
  obtain ⟨b, hb, hexact, rfl⟩ := value?_eq_some.1 hx
  have hlower := (h s b hb).lower
  have hupper := (h s b hb).upper
  linarith

/-! ## Maximizing -/

namespace Problem

/-- The greatest of the known values of some states. -/
def bestKnown (p : Problem ℚ ε) (entries : Entries ℚ) (children : List State) : ℚ :=
  (children.filterMap entries.value?).foldl Scalar.larger p.range.lower

lemma bestKnown_eq : p.bestKnown entries children =
    (children.filterMap entries.value?).foldl max p.range.lower := by
  rw [bestKnown]
  congr 1
  funext a b
  exact Scalar.larger_rat

lemma lower_le_bestKnown : p.range.lower ≤ p.bestKnown entries children := by
  rw [bestKnown_eq, List.foldl_max]
  exact le_max_left _ _

lemma le_bestKnown (hc : c ∈ children) (hb : entries[c]? = some b) (hexact : b.lower = b.upper) :
    b.lower ≤ p.bestKnown entries children := by
  have hmem : b.lower ∈ children.filterMap entries.value? :=
    List.mem_filterMap.2 ⟨c, hc, value?_eq_some.2 ⟨b, hb, hexact, rfl⟩⟩
  rw [bestKnown_eq, List.foldl_max]
  cases hmax : (children.filterMap entries.value?).max? with
  | none => exact absurd hmem (by rw [List.max?_eq_none_iff.1 hmax]; exact List.not_mem_nil)
  | some best => exact le_max_of_le_right ((List.max?_eq_some_iff.1 hmax).2 _ hmem)

/-- The greatest known value is at most the greatest value. -/
lemma bestKnown_le (hsound : entries.Sound range v) (hrange : p.range.lower ≤ m)
    (hm : ∀ c ∈ children, v c ≤ m) : p.bestKnown entries children ≤ m := by
  rw [bestKnown_eq, List.foldl_max]
  refine max_le hrange ?_
  cases hmax : (children.filterMap entries.value?).max? with
  | none => exact hrange
  | some best =>
    obtain ⟨c, hc, hvalue⟩ := List.mem_filterMap.1 (List.max?_eq_some_iff.1 hmax).1
    exact (hsound.value hvalue).symm ▸ hm c hc

/-- The tasks of searching the states that have no bounds yet that answer a window. -/
def unanswered (entries : Entries ℚ) (low high : ℚ) (children : List State) : List (Task ℚ) :=
  (children.filter fun c => !answers entries[c]? low high).map fun c => .search c low high

lemma unanswered_eq_nil : unanswered entries low high children = [] ↔
    ∀ c ∈ children, answers entries[c]? low high = true := by
  simp [unanswered]

/-- What becomes of the successors once the greatest known value is known: one of them exceeds the window,
or some of them have to be searched first, or none of them is above `most` unless its value is known. -/
inductive Weighed (p : Problem ℚ ε) (entries : Entries ℚ) (value low high : ℚ) (children : List State)
    (skipped : ℚ) (pending : List (Task ℚ)) : Verdict ℚ → Prop
  | exceeds {c : State} {b : Bounds ℚ} (hc : c ∈ children) (hb : entries[c]? = some b) (hcut : high ≤ b.lower) :
    Weighed p entries value low high children skipped pending (.settled ⟨b.lower, p.range.upper⟩)
  | waits (hne : pending.reverse ++ unanswered entries low high children ≠ []) :
    Weighed p entries value low high children skipped pending
      (.waiting (pending.reverse ++ unanswered entries low high children))
  | bounded {most : ℚ} (hnil : pending = []) (hle : skipped ≤ most)
    (hmost : most = skipped ∨ ∃ c ∈ children, ∃ b, entries[c]? = some b ∧ b.upper = most ∧ most ≤ low)
    (hall : ∀ c ∈ children, ∃ b, entries[c]? = some b ∧ (b.lower = b.upper ∨ b.upper ≤ most)) :
    Weighed p entries value low high children skipped pending (.settled ⟨value, max value most⟩)

namespace Weighed

variable {value skipped : ℚ} {rest : List State} {pending : List (Task ℚ)} {verdict : Verdict ℚ}

/-- A successor that is left open is searched after those that were left open before. -/
lemma cons_open (h : p.Weighed entries value low high rest skipped (.search c low high :: pending) verdict)
    (hopen : answers entries[c]? low high = false) :
    p.Weighed entries value low high (c :: rest) skipped pending verdict := by
  have hunanswered : (Task.search c low high :: pending).reverse ++ unanswered entries low high rest =
      pending.reverse ++ unanswered entries low high (c :: rest) := by
    simp [unanswered, hopen]
  cases h with
  | exceeds hd hb hcut => exact .exceeds (List.mem_cons_of_mem _ hd) hb hcut
  | waits hne =>
    rw [hunanswered] at hne ⊢
    exact .waits hne
  | bounded hnil => cases hnil

/-- A successor whose value is known, or that is below the value that one has to exceed, is left behind. -/
lemma cons_skip {most : ℚ} (h : p.Weighed entries value low high rest most pending verdict)
    (hb : entries[c]? = some b) (hle : skipped ≤ most)
    (hmost : most = skipped ∨ b.upper = most ∧ most ≤ low) (hclosed : b.lower = b.upper ∨ b.upper ≤ most)
    (hanswers : b.Answers low high) : p.Weighed entries value low high (c :: rest) skipped pending verdict := by
  have hunanswered : unanswered entries low high (c :: rest) = unanswered entries low high rest := by
    have : answers entries[c]? low high = true := answers_iff.2 ⟨b, hb, hanswers⟩
    simp [unanswered, this]
  cases h with
  | exceeds hd hb' hcut => exact .exceeds (List.mem_cons_of_mem _ hd) hb' hcut
  | waits hne =>
    rw [← hunanswered] at hne ⊢
    exact .waits hne
  | bounded hnil hle' hmost' hall =>
    refine .bounded hnil (hle.trans hle') ?_
      (List.forall_mem_cons.2 ⟨⟨b, hb, hclosed.imp_right fun h => h.trans hle'⟩, hall⟩)
    rcases hmost' with rfl | ⟨d, hd, hmost'⟩
    · exact hmost.imp_right fun h => ⟨c, List.mem_cons_self, b, hb, h⟩
    · exact .inr ⟨d, List.mem_cons_of_mem _ hd, hmost'⟩

end Weighed

lemma maximizeRest_weighed (p : Problem ℚ ε) (entries : Entries ℚ) (children : List State)
    (value low high skipped : ℚ) (pending : List (Task ℚ)) :
    p.Weighed entries value low high children skipped pending
      (p.maximizeRest entries value low high children skipped pending) := by
  induction children generalizing skipped pending with
  | nil =>
    cases pending with
    | nil =>
      rw [maximizeRest, Scalar.larger_rat]
      exact .bounded rfl le_rfl (.inl rfl) (by simp)
    | cons task pending =>
      have hwaits : (task :: pending).reverse ++ unanswered entries low high [] = (task :: pending).reverse := by
        simp [unanswered]
      rw [maximizeRest, ← hwaits]
      · exact .waits (by simp)
      · simp
  | cons c rest ih =>
    rw [maximizeRest]
    cases hb : entries[c]? with
    | none => exact (ih skipped _).cons_open (by rw [hb]; rfl)
    | some b =>
      by_cases hexact : b.lower = b.upper
      · simp only [if_pos (Bounds.isExact_iff.2 hexact)]
        exact (ih skipped pending).cons_skip hb le_rfl (.inl rfl) (.inl hexact) (.inl hexact)
      · simp only [if_neg (mt Bounds.isExact_iff.1 hexact)]
        by_cases hskip : b.upper ≤ low
        · simp only [if_pos hskip, Scalar.larger_rat]
          refine (ih (max skipped b.upper) pending).cons_skip hb (le_max_left _ _) ?_
            (.inr (le_max_right _ _)) (.inr (.inr hskip))
          exact (max_choice skipped b.upper).imp_right fun hmax => ⟨hmax.symm, hmax.le.trans hskip⟩
        · simp only [if_neg hskip]
          by_cases hcut : high ≤ b.lower
          · rw [if_pos hcut]
            exact .exceeds List.mem_cons_self hb hcut
          · rw [if_neg hcut]
            refine (ih skipped _).cons_open ?_
            rw [← Bool.not_eq_true, hb, answers_iff]
            rintro ⟨b', hb', hanswers⟩
            cases hb'
            exact hanswers.elim hexact fun h => h.elim hcut hskip

lemma maximize_of_le (h : high ≤ p.bestKnown entries children) :
    p.maximize entries low high children = .settled ⟨p.bestKnown entries children, p.range.upper⟩ :=
  if_pos h

lemma maximize_weighed (low : ℚ) (h : ¬high ≤ p.bestKnown entries children) :
    p.Weighed entries (p.bestKnown entries children) (max low (p.bestKnown entries children)) high children
      p.range.lower [] (p.maximize entries low high children) := by
  have hmaximize : p.maximize entries low high children =
      p.maximizeRest entries (p.bestKnown entries children)
        (Scalar.larger low (p.bestKnown entries children)) high children p.range.lower [] := if_neg h
  rw [hmaximize, Scalar.larger_rat]
  exact p.maximizeRest_weighed entries children _ _ high p.range.lower []

/-- A verdict on a state in the hands of the role and its allies holds of the greatest value of the
successors, and is all that the window asks for. -/
theorem maximize_settled (hsound : entries.Sound p.range v) (hm : ∀ c ∈ children, v c ≤ m)
    (hmax : ∃ c ∈ children, v c = m) (hrange : p.range.lower ≤ m ∧ m ≤ p.range.upper)
    (h : p.maximize entries low high children = .settled b) :
    b.Hold p.range m ∧ b.Answers low high := by
  have hbest : p.bestKnown entries children ≤ m := bestKnown_le hsound hrange.1 hm
  have hleast : p.range.lower ≤ p.bestKnown entries children := lower_le_bestKnown
  by_cases hcut : high ≤ p.bestKnown entries children
  · rw [maximize_of_le hcut] at h
    cases h
    exact ⟨⟨hbest, hrange.2, hleast, le_rfl⟩, .inr (.inl hcut)⟩
  · have hweighed := maximize_weighed low hcut
    rw [h] at hweighed
    cases hweighed with
    | exceeds hc hb hcut =>
      have hhold := hsound _ _ hb
      exact ⟨⟨hhold.lower.trans (hm _ hc), hrange.2, hhold.least, le_rfl⟩, .inr (.inl hcut)⟩
    | @bounded most _ hle hmost hall =>
      have hupper : m ≤ max (p.bestKnown entries children) most := by
        obtain ⟨c, hc, rfl⟩ := hmax
        obtain ⟨b', hb', hexact | hskip⟩ := hall c hc
        · exact le_max_of_le_left ((hexact ▸ (hsound c b' hb').upper).trans (le_bestKnown hc hb' hexact))
        · exact le_max_of_le_right ((hsound c b' hb').upper.trans hskip)
      rcases hmost with rfl | ⟨c, hc, b', hb', rfl, hmost⟩
      · rw [max_eq_left hleast] at hupper ⊢
        exact ⟨⟨hbest, hupper, hleast, hbest.trans hrange.2⟩, .inl rfl⟩
      · refine ⟨⟨hbest, hupper, hleast, max_le (hbest.trans hrange.2) (hsound c b' hb').greatest⟩, ?_⟩
        rcases le_total b'.upper (p.bestKnown entries children) with hbelow | habove
        · exact .inl (max_eq_left hbelow).symm
        · rcases le_max_iff.1 hmost with hlow | hknown
          · exact .inr (.inr (max_le (habove.trans hlow) hlow))
          · exact .inl (max_eq_left hknown).symm

/-- The greatest known value does not become less as bounds become narrower. -/
lemma bestKnown_mono (hsound : entries'.Sound range v) (hnarrows : entries.Narrows entries') :
    p.bestKnown entries children ≤ p.bestKnown entries' children := by
  rw [bestKnown_eq, List.foldl_max]
  refine max_le lower_le_bestKnown ?_
  cases hmax : (children.filterMap entries.value?).max? with
  | none => exact lower_le_bestKnown
  | some best =>
    obtain ⟨c, hc, hvalue⟩ := List.mem_filterMap.1 (List.max?_eq_some_iff.1 hmax).1
    obtain ⟨b, hb, hexact, rfl⟩ := value?_eq_some.1 hvalue
    obtain ⟨b', hb', hlower, hupper⟩ := hnarrows c b hb
    have hbetween := (hsound c b' hb').lower.trans (hsound c b' hb').upper
    exact hlower.trans (le_bestKnown hc hb' (le_antisymm hbetween (by linarith)))

/-- The successors that have to be searched first are searched with one window, and once all of them have
bounds that answer it, there is a verdict. -/
theorem maximize_waiting (h : p.maximize entries low high children = .waiting tasks) :
    ∃ l, tasks = unanswered entries l high children ∧ ∀ entries' : Entries ℚ, entries'.Sound p.range v →
      entries.Narrows entries' → (∀ c ∈ children, answers entries'[c]? l high = true) →
        ∃ b, p.maximize entries' low high children = .settled b := by
  by_cases hcut : high ≤ p.bestKnown entries children
  · rw [maximize_of_le hcut] at h
    cases h
  · have hweighed := maximize_weighed low hcut
    rw [h] at hweighed
    obtain ⟨⟩ := hweighed
    refine ⟨max low (p.bestKnown entries children), rfl, fun entries' hsound hnarrows hanswers => ?_⟩
    by_cases hcut' : high ≤ p.bestKnown entries' children
    · exact ⟨_, maximize_of_le hcut'⟩
    · have hnone : unanswered entries' (max low (p.bestKnown entries' children)) high children = [] := by
        rw [unanswered_eq_nil]
        exact fun c hc => answers_mono hsound .refl (max_le_max_left low (bestKnown_mono hsound hnarrows))
          le_rfl (hanswers c hc)
      have hweighed := maximize_weighed low hcut'
      generalize p.maximize entries' low high children = verdict at hweighed ⊢
      cases hweighed with
      | exceeds _ _ _ => exact ⟨_, rfl⟩
      | waits hne => exact absurd hnone hne
      | bounded _ _ _ _ => exact ⟨_, rfl⟩

end Problem

/-! ## Minimizing -/

def Bounds.mirror (b : Bounds ℚ) : Bounds ℚ := ⟨-b.upper, -b.lower⟩

def Entries.mirror (entries : Entries ℚ) : Entries ℚ := entries.map fun _ b => b.mirror

/-- The task of doing the same with the negated values. -/
def Task.mirror : Task ℚ → Task ℚ
  | .seed s => .seed s
  | .search s low high => .search s (-high) (-low)

def Verdict.mirror : Verdict ℚ → Verdict ℚ
  | .settled b => .settled b.mirror
  | .waiting tasks => .waiting (tasks.map Task.mirror)

def Problem.mirror (p : Problem ℚ ε) : Problem ℚ ε := { p with range := p.range.mirror }

lemma Bounds.mirror_mirror (b : Bounds ℚ) : b.mirror.mirror = b := by simp [mirror]

lemma Bounds.hold_mirror {x : ℚ} : b.mirror.Hold range.mirror (-x) ↔ b.Hold range x := by
  constructor
  · rintro ⟨hlower, hupper, hleast, hgreatest⟩
    simp only [mirror, neg_le_neg_iff] at hlower hupper hleast hgreatest
    exact ⟨hupper, hlower, hgreatest, hleast⟩
  · rintro ⟨hlower, hupper, hleast, hgreatest⟩
    exact ⟨neg_le_neg hupper, neg_le_neg hlower, neg_le_neg hgreatest, neg_le_neg hleast⟩

lemma Bounds.answers_mirror : b.mirror.Answers (-high) (-low) ↔ b.Answers low high := by
  simp only [Answers, mirror, neg_le_neg_iff, neg_inj, @eq_comm _ b.upper]
  rw [or_comm (a := b.upper ≤ low)]

lemma Bounds.isExact_mirror : b.mirror.isExact = b.isExact := by
  rw [Bool.eq_iff_iff, isExact_iff, isExact_iff, mirror, neg_inj, eq_comm]

lemma Entries.getElem?_mirror : entries.mirror[s]? = entries[s]?.map Bounds.mirror :=
  Std.HashMap.getElem?_map

lemma Entries.Sound.mirror (h : entries.Sound range v) : entries.mirror.Sound range.mirror fun s => -v s := by
  intro s b hb
  rw [getElem?_mirror] at hb
  obtain ⟨b₀, hb₀, rfl⟩ := Option.map_eq_some_iff.1 hb
  exact Bounds.hold_mirror.2 (h s b₀ hb₀)

lemma Entries.Narrows.mirror (h : entries.Narrows entries') : entries.mirror.Narrows entries'.mirror := by
  intro s b hb
  rw [getElem?_mirror] at hb
  obtain ⟨b₀, hb₀, rfl⟩ := Option.map_eq_some_iff.1 hb
  obtain ⟨b', hb', hlower, hupper⟩ := h s b₀ hb₀
  exact ⟨b'.mirror, by rw [getElem?_mirror, hb']; rfl, neg_le_neg hupper, neg_le_neg hlower⟩

lemma answers_mirror :
    Problem.answers entries.mirror[s]? (-high) (-low) = Problem.answers entries[s]? low high := by
  rw [Bool.eq_iff_iff, answers_iff, answers_iff, Entries.getElem?_mirror]
  constructor
  · rintro ⟨b, hb, h⟩
    obtain ⟨b₀, hb₀, rfl⟩ := Option.map_eq_some_iff.1 hb
    exact ⟨b₀, hb₀, Bounds.answers_mirror.1 h⟩
  · rintro ⟨b, hb, h⟩
    exact ⟨b.mirror, by rw [hb]; rfl, Bounds.answers_mirror.2 h⟩

namespace Problem

lemma unanswered_mirror : (unanswered entries.mirror (-high) (-low) children).map Task.mirror =
    unanswered entries low high children := by
  simp only [unanswered, answers_mirror, List.map_map]
  refine List.map_congr_left fun c _ => ?_
  simp [Task.mirror]

lemma value?_mirror : entries.mirror.value? c = (entries.value? c).map fun x => -x := by
  rw [Entries.value?, Entries.value?, Entries.getElem?_mirror]
  cases entries[c]? with
  | none => rfl
  | some b =>
    simp only [Option.map_some, Option.bind_some, Bounds.isExact_mirror]
    split
    · rename_i hexact
      rw [Option.map_some, Bounds.isExact_iff.1 hexact]
      rfl
    · rfl

/-- The least known value is the greatest one of the negated values. -/
lemma foldl_smaller_mirror (x : ℚ) : (children.filterMap entries.value?).foldl Scalar.smaller x =
    -(children.filterMap entries.mirror.value?).foldl Scalar.larger (-x) := by
  induction children generalizing x with
  | nil => simp
  | cons c rest ih =>
    rw [List.filterMap_cons, List.filterMap_cons, value?_mirror]
    cases entries.value? c with
    | none => exact ih x
    | some y =>
      simp only [Option.map_some, List.foldl_cons, Scalar.larger_rat, Scalar.smaller_rat, max_neg_neg]
      exact ih (min x y)

lemma minimizeRest_mirror (value skipped : ℚ) (pending : List (Task ℚ)) :
    p.minimizeRest entries value low high children skipped pending =
      (p.mirror.maximizeRest entries.mirror (-value) (-high) (-low) children (-skipped)
        (pending.map Task.mirror)).mirror := by
  have htask : ∀ c, (Task.search c low high).mirror = .search c (-high) (-low) := fun _ => rfl
  have hback : ∀ task : Task ℚ, task.mirror.mirror = task := by
    intro task
    cases task <;> simp [Task.mirror]
  induction children generalizing skipped pending with
  | nil =>
    cases pending with
    | nil =>
      simp only [minimizeRest, maximizeRest, List.map_nil, Verdict.mirror, Bounds.mirror,
        Scalar.larger_rat, Scalar.smaller_rat, max_neg_neg, neg_neg]
    | cons task pending =>
      simp [minimizeRest, maximizeRest, Verdict.mirror, hback, Function.comp_def]
  | cons c rest ih =>
    rw [minimizeRest, maximizeRest, Entries.getElem?_mirror]
    cases entries[c]? with
    | none =>
      rw [Option.map_none, ← htask, ← List.map_cons]
      exact ih skipped _
    | some b =>
      simp only [Option.map_some, Bounds.isExact_mirror]
      by_cases hexact : b.isExact
      · simp only [if_pos hexact]
        exact ih skipped pending
      · simp only [if_neg hexact, Bounds.mirror, neg_le_neg_iff]
        by_cases hskip : high ≤ b.lower
        · simp only [if_pos hskip, Scalar.larger_rat, Scalar.smaller_rat, max_neg_neg]
          exact ih (min skipped b.lower) pending
        · simp only [if_neg hskip]
          by_cases hcut : b.upper ≤ low
          · simp [if_pos hcut, Verdict.mirror, Bounds.mirror, Problem.mirror]
          · simp only [if_neg hcut]
            rw [← htask, ← List.map_cons]
            exact ih skipped _

/-- Minimizing is maximizing with all numbers negated. -/
theorem minimize_mirror : p.minimize entries low high children =
    (p.mirror.maximize entries.mirror (-high) (-low) children).mirror := by
  have hrange : p.mirror.range.lower = -p.range.upper := rfl
  rw [minimize, maximize, foldl_smaller_mirror, hrange]
  generalize (children.filterMap entries.mirror.value?).foldl Scalar.larger (-p.range.upper) = best
  simp only [neg_le]
  split
  · simp [Verdict.mirror, Bounds.mirror, Problem.mirror]
  · rw [minimizeRest_mirror, Scalar.larger_rat, Scalar.smaller_rat, ← max_neg_neg, neg_neg, List.map_nil]

/-- A verdict on a state in other hands holds of the least value of the successors, and is all that the
window asks for. -/
theorem minimize_settled (hsound : entries.Sound p.range v) (hm : ∀ c ∈ children, m ≤ v c)
    (hmin : ∃ c ∈ children, v c = m) (hrange : p.range.lower ≤ m ∧ m ≤ p.range.upper)
    (h : p.minimize entries low high children = .settled b) :
    b.Hold p.range m ∧ b.Answers low high := by
  rw [minimize_mirror] at h
  cases hverdict : p.mirror.maximize entries.mirror (-high) (-low) children with
  | waiting tasks =>
    rw [hverdict] at h
    cases h
  | settled b₀ =>
    rw [hverdict] at h
    cases h
    obtain ⟨hhold, hanswers⟩ := maximize_settled (p := p.mirror) (m := -m) hsound.mirror
      (fun c hc => neg_le_neg (hm c hc)) (hmin.imp fun c ⟨hc, hv⟩ => ⟨hc, congrArg _ hv⟩)
      ⟨neg_le_neg hrange.2, neg_le_neg hrange.1⟩ hverdict
    rw [← b₀.mirror_mirror] at hhold hanswers
    exact ⟨Bounds.hold_mirror.1 hhold, Bounds.answers_mirror.1 hanswers⟩

theorem minimize_waiting (h : p.minimize entries low high children = .waiting tasks) :
    ∃ l, tasks = unanswered entries low l children ∧ ∀ entries' : Entries ℚ, entries'.Sound p.range v →
      entries.Narrows entries' → (∀ c ∈ children, answers entries'[c]? low l = true) →
        ∃ b, p.minimize entries' low high children = .settled b := by
  rw [minimize_mirror] at h
  cases hverdict : p.mirror.maximize entries.mirror (-high) (-low) children with
  | settled b =>
    rw [hverdict] at h
    cases h
  | waiting tasks =>
    rw [hverdict] at h
    cases h
    obtain ⟨l, rfl, hagain⟩ := maximize_waiting (p := p.mirror) (v := fun s => -v s) hverdict
    obtain ⟨l, rfl⟩ : ∃ l', l = -l' := ⟨-l, (neg_neg l).symm⟩
    refine ⟨l, unanswered_mirror, fun entries' hsound hnarrows hanswers => ?_⟩
    obtain ⟨b, hb⟩ := hagain entries'.mirror hsound.mirror hnarrows.mirror fun c hc =>
      answers_mirror.trans (hanswers c hc)
    exact ⟨b.mirror, by rw [minimize_mirror, hb]; rfl⟩

/-! ## Averaging -/

lemma filterMap_value?_eq (hv : ∀ c ∈ children, entries.value? c = some (v c)) :
    children.filterMap entries.value? = children.map v := by
  rw [← List.filterMap_eq_map]
  exact List.filterMap_congr hv

/-- A verdict on a state in the hands of chance is the mean of the values of the successors, which are all
known. -/
theorem average_known (h : p.average entries children = .settled b) :
    ∃ v : State → ℚ, (∀ c ∈ children, entries.value? c = some (v c)) ∧
      b = ⟨(children.map v).sum / children.length, (children.map v).sum / children.length⟩ := by
  rw [average] at h
  split at h
  · rename_i hnone
    have hv : ∀ c ∈ children, entries.value? c = some ((entries.value? c).getD 0) := by
      intro c hc
      have hknown := List.filter_eq_nil_iff.1 hnone c hc
      rw [Option.isNone_iff_eq_none] at hknown
      obtain ⟨x, hx⟩ := Option.ne_none_iff_exists'.1 hknown
      rw [hx, Option.getD_some]
    have hsum : (children.filterMap entries.value?).foldl (· + ·) Scalar.zero =
        (children.map fun c => (entries.value? c).getD 0).sum := by
      rw [filterMap_value?_eq hv, List.sum_eq_foldl]
      rfl
    cases h
    rw [hsum]
    exact ⟨_, hv, rfl⟩
  · cases h

theorem average_settled (hsound : entries.Sound range v) (h : p.average entries children = .settled b) :
    b = ⟨(children.map v).sum / children.length, (children.map v).sum / children.length⟩ := by
  obtain ⟨v', hv', rfl⟩ := average_known h
  rw [List.map_congr_left fun c hc => hsound.value (hv' c hc)]

lemma isNone_value? (hsound : entries.Sound range v) :
    (entries.value? c).isNone = !answers entries[c]? range.lower range.upper := by
  rw [Bool.eq_iff_iff, Bool.not_eq_true', ← Bool.not_eq_true, answers_range_iff hsound,
    ← Option.not_isSome, Bool.not_eq_true', ← Bool.not_eq_true, Option.isSome_iff_exists]
  simp only [value?_eq_some]
  exact not_congr ⟨fun ⟨_, b, hb, hexact, _⟩ => ⟨b, hb, hexact⟩, fun ⟨b, hb, hexact⟩ => ⟨_, b, hb, hexact, rfl⟩⟩

theorem average_waiting (hsound : entries.Sound p.range v) (h : p.average entries children = .waiting tasks) :
    tasks = unanswered entries p.range.lower p.range.upper children ∧ ∀ entries' : Entries ℚ,
      entries'.Sound p.range v → (∀ c ∈ children, answers entries'[c]? p.range.lower p.range.upper = true) →
        ∃ b, p.average entries' children = .settled b := by
  have hfilter : ∀ {entries : Entries ℚ}, entries.Sound p.range v →
      (children.filter fun c => (entries.value? c).isNone) =
        children.filter fun c => !answers entries[c]? p.range.lower p.range.upper :=
    fun hsound => List.filter_congr fun c _ => isNone_value? hsound
  rw [average] at h
  split at h
  · cases h
  · cases h
    refine ⟨?_, fun entries' hsound' hanswers => ?_⟩
    · rw [unanswered, hfilter hsound]
    · have hnone : (children.filter fun c => (entries'.value? c).isNone) = [] := by
        rw [hfilter hsound', List.filter_eq_nil_iff]
        simpa using hanswers
      rw [average, hnone]
      exact ⟨_, rfl⟩

/-! ## All states -/

/-- If successors have to be searched first, they are searched with one window, and are those that the
bounds found so far do not answer that window for.  Once they all are answered, there is a verdict. -/
theorem judge_waiting {control : SortedSet Role} (hsound : entries.Sound p.range v)
    (hjudge : p.judge entries control low high children = .waiting tasks) :
    ∃ l u, tasks = unanswered entries l u children ∧ ∀ entries' : Entries ℚ,
      entries'.Sound p.range v → entries.Narrows entries' →
        (∀ c ∈ children, answers entries'[c]? l u = true) →
          ∃ b, p.judge entries' control low high children = .settled b := by
  simp only [judge]
  rw [judge] at hjudge
  split at hjudge
  · rename_i hcontrol
    obtain ⟨htasks, hagain⟩ := average_waiting hsound hjudge
    simp only [if_pos hcontrol]
    exact ⟨_, _, htasks, fun entries' hsound' _ hanswers => hagain entries' hsound' hanswers⟩
  · rename_i hcontrol
    simp only [if_neg hcontrol]
    split at hjudge
    · rename_i hallies
      obtain ⟨l, htasks, hagain⟩ := maximize_waiting hjudge
      simp only [if_pos hallies]
      exact ⟨_, _, htasks, hagain⟩
    · rename_i hothers
      obtain ⟨l, htasks, hagain⟩ := minimize_waiting hjudge
      simp only [if_neg hothers]
      exact ⟨_, _, htasks, hagain⟩

namespace Determined

variable {worth : State → ℚ} (h : p.Determined worth) (hs : p.Reaches s)
  (hgoes : p.game.isTerminal s = .ok false)

include h hs hgoes

/-- A verdict holds of the value of the state, and is all that the window asks for. -/
theorem judge_settled (hsound : entries.Sound p.range (p.value worth))
    (hjudge : p.judge entries s.controllers low high (p.successors s) = .settled b) :
    b.Hold p.range (p.value worth s) ∧ b.Answers low high := by
  rw [judge] at hjudge
  split at hjudge
  · rename_i hcontrol
    rw [average_settled hsound hjudge, ← h.value_of_chance hs hgoes hcontrol]
    exact ⟨⟨le_rfl, le_rfl, (h.value_mem hs).1, (h.value_mem hs).2⟩, .inl rfl⟩
  · rename_i hcontrol
    simp only [List.all_eq_true, decide_eq_true_eq] at hjudge
    split at hjudge
    · rename_i hallies
      obtain ⟨hm, hmax⟩ := h.value_of_allies hs hgoes hcontrol hallies
      exact maximize_settled hsound hm hmax (h.value_mem hs) hjudge
    · rename_i hothers
      obtain ⟨hm, hmin⟩ := h.value_of_others hs hgoes hcontrol hothers
      exact minimize_settled hsound hm hmin (h.value_mem hs) hjudge

end Determined

end Problem

end GameSearch.Solver
