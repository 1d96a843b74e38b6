import GameSearch.State

/-!
# Turns

A turn is the joint action of one ply: at most one move for each role.  It is a table from roles to
moves, kept as a list in the order of the roles, so that two turns with the same plays are equal.
`Turn.find?_insert` says what insertion does to look-up.
-/

namespace GameSearch

/-- A role and the move it makes. -/
structure Play where
  role : Role
  move : Move
deriving DecidableEq

namespace Play

/-- Plays are ordered by role, then by move. -/
instance : Ord Play := ⟨compareLex (compareOn Play.role) (compareOn Play.move)⟩

instance : Std.TransOrd Play := inferInstanceAs (Std.TransCmp (compareLex _ _))

theorem compare_def (p q : Play) :
    compare p q = (compare p.role q.role).then (compare p.move q.move) := rfl

instance : Std.LawfulEqOrd Play where
  compare_self := by simp
  eq_of_compare {a b} h := by
    rw [compare_def, Ordering.then_eq_eq] at h
    have hr := Std.LawfulEqOrd.eq_of_compare h.1
    have hm := Std.LawfulEqOrd.eq_of_compare h.2
    cases a; cases b; simp_all

def text (p : Play) : String := p.role.text ++ ": " ++ p.move.text

end Play

/-- The joint action of one ply. -/
structure Turn where
  /-- The plays in the order of their roles. -/
  plays : List Play
  sorted : plays.Pairwise fun a b => compare a.role b.role = .lt

namespace Turn

instance : DecidableEq Turn := fun s t =>
  decidable_of_iff (s.plays = t.plays) ⟨fun h => by cases s; cases t; simp_all, fun h => h ▸ rfl⟩

instance : EmptyCollection Turn := ⟨⟨[], .nil⟩⟩

theorem ext {s t : Turn} (h : s.plays = t.plays) : s = t := by
  cases s; cases t; simp_all

/-- Turns are ordered as the lists of their plays. -/
instance : Ord Turn := ⟨fun s t => compare s.plays t.plays⟩

instance : Std.TransOrd Turn where
  eq_swap {a b} := @Std.OrientedCmp.eq_swap (List Play) compare _ a.plays b.plays
  isLE_trans {a b c} := @Std.TransCmp.isLE_trans (List Play) compare _ a.plays b.plays c.plays

instance : Std.LawfulEqOrd Turn where
  compare_self {a} := @Std.ReflCmp.compare_self (List Play) compare _ a.plays
  eq_of_compare {a b} h :=
    ext (@Std.LawfulEqCmp.eq_of_compare (List Play) compare _ a.plays b.plays h)

/-- Puts a play into a list in the order of the roles, in place of another play of the role. -/
def insertInto (p : Play) : List Play → List Play
  | [] => [p]
  | q :: rest =>
    match compare p.role q.role with
    | .lt => p :: q :: rest
    | .eq => p :: rest
    | .gt => q :: insertInto p rest

theorem role_of_mem_insertInto {p x : Play} {l : List Play} (h : x ∈ insertInto p l) :
    x = p ∨ x ∈ l := by
  induction l with
  | nil => simp_all [insertInto]
  | cons q rest ih =>
    simp only [insertInto] at h
    split at h
    · simpa using h
    · rcases List.mem_cons.1 h with h | h <;> simp [h]
    · rcases List.mem_cons.1 h with h | h
      · simp [h]
      · rcases ih h with h | h <;> simp [h]

theorem sorted_insertInto (p : Play) {l : List Play}
    (h : l.Pairwise fun a b => compare a.role b.role = .lt) :
    (insertInto p l).Pairwise fun a b => compare a.role b.role = .lt := by
  induction l with
  | nil => simp [insertInto]
  | cons q rest ih =>
    obtain ⟨hq, hr⟩ := List.pairwise_cons.1 h
    simp only [insertInto]
    split
    · rename_i hpq
      refine List.pairwise_cons.2 ⟨fun x hx => ?_, h⟩
      rcases List.mem_cons.1 hx with rfl | hx
      · exact hpq
      · exact Std.TransCmp.lt_trans hpq (hq x hx)
    · rename_i hpq
      have hpq := Std.LawfulEqOrd.eq_of_compare hpq
      exact List.pairwise_cons.2 ⟨fun x hx => by rw [hpq]; exact hq x hx, hr⟩
    · rename_i hpq
      refine List.pairwise_cons.2 ⟨fun x hx => ?_, ih hr⟩
      rcases role_of_mem_insertInto hx with rfl | hx
      · exact Std.OrientedCmp.gt_iff_lt.1 hpq
      · exact hq x hx

/-- The turn in which a role makes a move, in place of another one. -/
def insert (t : Turn) (p : Play) : Turn := ⟨insertInto p t.plays, sorted_insertInto p t.sorted⟩

/-- The turn of the listed plays; of several plays of a role the last counts. -/
def ofList (plays : List Play) : Turn := plays.foldl insert ∅

def single (role : Role) (move : Move) : Turn := ⟨[⟨role, move⟩], by simp⟩

/-- The first role that two neighbours of a list share. -/
def firstRepeated? : List Play → Option Role
  | p :: q :: rest => if p.role = q.role then some p.role else firstRepeated? (q :: rest)
  | _ => none

/-- The turn of the listed plays, which must be of different roles. -/
def ofPlays? (plays : List Play) : Except Fault Turn :=
  match firstRepeated? (plays.mergeSort fun p q => (compare p q).isLE) with
  | some role => .error (.repeatedRole role.text)
  | none => .ok (ofList plays)

def size (t : Turn) : Nat := t.plays.length

/-- Whether no role moves. -/
def isEmpty (t : Turn) : Bool := t.plays.isEmpty

/-- The move of a role, if it makes one. -/
def find? (t : Turn) (role : Role) : Option Move :=
  (t.plays.find? (·.role = role)).map Play.move

def contains (t : Turn) (role : Role) (move : Move) : Bool := t.find? role = some move

/-- The turn that consists of a role's own move, if any. -/
def restrict (t : Turn) (role : Role) : Turn :=
  match t.find? role with
  | some move => single role move
  | none => ∅

/-- Whether every play of `u` is one of `t`. -/
def includes (t u : Turn) : Bool := u.plays.all fun p => t.contains p.role p.move

def text (t : Turn) : String := braced (t.plays.map Play.text)

instance : ToString Turn := ⟨text⟩

/-- The move of a role that must make one. -/
def at? (t : Turn) (role : Role) : Except Fault Move :=
  match t.find? role with
  | some move => .ok move
  | none => .error (.noMoveFor t.text role.text)

theorem find?_insertInto {p : Play} {l : List Play} {role : Role}
    (h : l.Pairwise fun a b => compare a.role b.role = .lt) :
    ((insertInto p l).find? (·.role = role)).map Play.move =
      if p.role = role then some p.move else (l.find? (·.role = role)).map Play.move := by
  induction l with
  | nil => simp [insertInto, List.find?_cons]; split <;> simp_all
  | cons q rest ih =>
    obtain ⟨hq, hr⟩ := List.pairwise_cons.1 h
    simp only [insertInto]
    split
    · by_cases hp : p.role = role <;> simp [hp]
    · rename_i hpq
      have hpq := Std.LawfulEqOrd.eq_of_compare hpq
      by_cases hp : p.role = role
      · simp [hp]
      · have : q.role ≠ role := hpq ▸ hp
        simp [hp, this]
    · rename_i hpq
      by_cases hqr : q.role = role
      · have : p.role ≠ role := by
          intro e
          rw [e, hqr] at hpq
          simp at hpq
        simp [hqr, this]
      · simp [hqr, ih hr]

@[simp] theorem find?_insert {t : Turn} {p : Play} {role : Role} :
    (t.insert p).find? role = if p.role = role then some p.move else t.find? role :=
  find?_insertInto t.sorted

end Turn

end GameSearch
