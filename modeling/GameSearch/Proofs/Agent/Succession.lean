import GameSearch.Proofs.Agent.Requests
import GameSearch.Proofs.Agent.Twins
import GameSearch.Proofs.Answers
import GameSearch.Session

/-!
# One match after another

An agent may take part in one match after another, and any of its calls may fail.  Once a match has been concluded
or aborted, nothing of it is left that the next match could tell: `Player.starts_afresh`.  There is one exception.
An agent that makes books keeps the last one until the next one is made, so that it must not search before it has
prepared for the next match.
-/

namespace GameSearch

open GameSearch.Action Hosted Request

/-! ## Searching agents -/

namespace TreeAgent

variable {μ R ε : Type} [SearchMethod μ R ε] {c a b : TreeAgent μ R ε} {E E' : Evaluator R ε → Evaluator R ε → Prop}
  {select : Deliberation μ R ε Unit} {q : Request ε} {host : ε}

/-- What a searching agent does at a request for such agents. -/
def respond (select : Deliberation μ R ε Unit) : Request ε → Deliberation μ R ε Unit
  | .develop ply view => SearchMethod.develop ply view
  | .step => SearchMethod.step
  | .select => select
  | .commit chosen => SearchMethod.commit chosen
  | _ => return ()

/-- An agent in no match. -/
structure Unseated (a : TreeAgent μ R ε) : Prop where
  game : a.seat.game = none
  role : a.seat.role = none
  memory : a.memory = SearchMethod.fresh R ε
  arena : a.arena = ∅

/-- An agent of some equipment in no match. -/
structure Idle (c : TreeAgent μ R ε) (E : Evaluator R ε → Evaluator R ε → Prop) (a : TreeAgent μ R ε) : Prop
    extends Unseated a where
  twins : Twins c E a a

lemma Unseated.idle (h : Unseated c) (hE : E c.evaluator c.evaluator) : Idle c E c :=
  ⟨h, rfl, rfl, rfl, rfl, hE, c.evaluator, c.lastSearch, rfl⟩

/-- The evaluator of an agent, and no other one. -/
def Own (c : TreeAgent μ R ε) (e e' : Evaluator R ε) : Prop := e = c.evaluator ∧ e' = c.evaluator

omit [SearchMethod μ R ε] in
lemma Own.eq {e e' : Evaluator R ε} (h : Own c e e') : e = e' := h.1.trans h.2.symm

lemma Idle.mono (himp : ∀ ⦃e e'⦄, E e e' → E' e e') (h : Idle c E a) : Idle c E' a :=
  { h with twins := h.twins.mono himp }

/-- An agent with the clocks of a match. -/
def clocked (startClock playClock : Clock.Settings Binary64) (a : TreeAgent μ R ε) : TreeAgent μ R ε :=
  { a with seat := { a.seat with startClock := startClock, playClock := playClock } }

/-- The clocks are all that remains of a match, but for the last search and the evaluator. -/
lemma Idle.twins_clocked (ha : Idle c E a) (hb : Idle c E b) (hE : E a.evaluator b.evaluator)
    (startClock playClock : Clock.Settings Binary64) :
    Twins c E (clocked startClock playClock a) (clocked startClock playClock b) := by
  refine ⟨ha.twins.source, ha.twins.settings, ha.twins.selector, ha.twins.chooser, hE, b.evaluator, b.lastSearch, ?_⟩
  obtain ⟨⟨agame, arole, amemory, aarena⟩, asource, asettings, aselector, achooser, -, -⟩ := ha
  obtain ⟨⟨bgame, brole, bmemory, barena⟩, bsource, bsettings, bselector, bchooser, -, -⟩ := hb
  simp only [clocked, asource, asettings, aselector, achooser, agame, arole, amemory, aarena]
  obtain ⟨⟨source, game, role, start, play⟩, settings, selector, chooser, evaluator, memory, last, arena⟩ := b
  simp only at bsource bsettings bselector bchooser bgame brole bmemory barena
  rw [bsource, bsettings, bselector, bchooser, bgame, brole, bmemory, barena]

variable [Scalar R] [Host ε]

lemma unswayed_perform (h : Unprejudiced c E) (hselect : Unswayed c E select)
    (hplant : q.prepares = true → Unswayed c E (SearchMethod.plant : Deliberation μ R ε Unit))
    (hstep : q.searches = true → Unswayed c E (SearchMethod.step : Deliberation μ R ε Unit)) :
    Unswayed c E (perform (respond select) q) := by
  cases q with
  | prepare role ruleset startClock playClock => exact (alike_prepare (hplant rfl) _ _ _ _).bind_pure _
  | move ply timeLeft view => exact (h.calculate (hstep rfl) _ _ _).bind_pure _
  | conclude view => exact unswayed_leave.bind_pure _
  | abort => exact unswayed_leave.bind_pure _
  | develop ply view => exact (h.develop ply view).bind_pure _
  | step => exact (hstep rfl).bind_pure _
  | select => exact hselect.bind_pure _
  | commit chosen => exact (h.commit chosen).bind_pure _
  | elsewhere f => exact (alike_onHost _).bind_pure _

/-- Whoever ends a match is in no match afterwards. -/
lemma idle_of_closes {x : Hosted (TreeAgent μ R ε) ε} (hcloses : q.closes = true) (h : Twins c E x.own x.own) :
    Idle c E ((perform (respond select) q).after x).own := by
  have hleave : Idle c E ((leave : Deliberation μ R ε Unit).after x).own :=
    ⟨⟨rfl, rfl, rfl, rfl⟩, ((unswayed_leave (c := c) (E := E)).after ⟨h, rfl⟩).own⟩
  cases q with
  | conclude view => exact hleave
  | abort => exact hleave
  | _ => cases hcloses

/-- Who is in no match refuses to move. -/
lemma Idle.refuses (h : Idle c E a) (ply timeLeft : Int) (view : View) (host : ε) :
    perform (respond select) (.move ply timeLeft view) ⟨a, host⟩ =
      .error (.noGame (SearchMethod.name μ R ε)) ⟨a, host⟩ := by
  have hgame : (theGame : Deliberation μ R ε Game) ⟨a, host⟩ =
      .error (.noGame (SearchMethod.name μ R ε)) ⟨a, host⟩ := by
    refine (Action.bind_of_ok Hosted.read_run).trans ?_
    exact (Action.lift_eq_error).2 ⟨by rw [Seat.game?, h.game], rfl⟩
  exact Action.bind_of_error (Action.bind_of_error hgame)

/-- The clocks of a match are set when it is prepared, whatever they were. -/
lemma prepare_clocked (role : Role) (ruleset : Ruleset) (startClock playClock : Clock.Settings Binary64) :
    perform (respond select) (.prepare role ruleset startClock playClock) ⟨a, host⟩ =
      perform (respond select) (.prepare role ruleset startClock playClock) ⟨clocked startClock playClock a, host⟩ :=
  rfl

/-- Whatever an agent was asked for, it is in no match once one was ended. -/
lemma idle_afterAll (hnew : Idle c E c) (hrun : ∀ q, Unswayed c E (perform (respond select) q))
    (earlier : List (Request ε)) {closing : Request ε} (host : ε) (hcloses : closing.closes = true) :
    Idle c E (afterAll (perform (respond select)) (earlier ++ [closing]) ⟨c, host⟩).own := by
  rw [afterAll_concat]
  exact idle_of_closes hcloses (afterAll_related hrun ⟨hnew.twins, rfl⟩).own

/-- An agent that keeps its evaluator starts every match afresh. -/
theorem startsAfresh (hnew : Unseated c) (hrun : ∀ q, Unswayed c (Own c) (perform (respond select) q))
    (careful : Prop) : StartsAfresh (perform (respond select)) (SearchMethod.name μ R ε) careful c := by
  have hstart : Idle c (Own c) c := hnew.idle ⟨rfl, rfl⟩
  constructor
  · intro earlier closing host hcloses
    exact (idle_afterAll hstart hrun earlier host hcloses).refuses
  · intro earlier closing host hcloses role ruleset startClock playClock later host' _
    have hidle := idle_afterAll hstart hrun earlier host hcloses
    rw [transcript_congr (prepare_clocked role ruleset startClock playClock),
      transcript_congr (s := ⟨c, host'⟩) (prepare_clocked role ruleset startClock playClock)]
    exact transcript_eq hrun ⟨hidle.twins_clocked hstart ⟨hidle.twins.evaluator.1, rfl⟩ startClock playClock, rfl⟩

/-- An agent that gets another evaluator whenever it prepares a match starts every match afresh in which it does
not search before. -/
theorem startsAfresh_of_renewal (hnew : Unseated c) (hrun : ∀ q, Unswayed c Eq (perform (respond select) q))
    (hquiet : ∀ q : Request ε, q.searches = false → q.prepares = false →
      Unswayed c (fun _ _ => True) (perform (respond select) q))
    (hplant : Alike (Beside (Twins c fun _ _ => True)) (Beside (Twins c Eq))
      (SearchMethod.plant : Deliberation μ R ε Unit)) {careful : Prop} (hcareful : careful) :
    StartsAfresh (perform (respond select)) (SearchMethod.name μ R ε) careful c := by
  have hprepare : ∀ q : Request ε, q.prepares = true → Alike (Beside (Twins c fun _ _ => True)) (Beside (Twins c Eq))
      (perform (respond select) q) := by
    intro q hq
    cases q with
    | prepare role ruleset startClock playClock => exact (alike_prepare hplant _ _ _ _).bind_pure _
    | _ => cases hq
  constructor
  · intro earlier closing host hcloses
    exact (idle_afterAll (hnew.idle rfl) hrun earlier host hcloses).refuses
  · intro earlier closing host hcloses role ruleset startClock playClock later host' hfirst
    have hidle := idle_afterAll (hnew.idle rfl) hrun earlier host hcloses
    have hfirst := (preparedFirst_congr (prepare_clocked role ruleset startClock playClock)).1 (hfirst hcareful)
    rw [transcript_congr (prepare_clocked role ruleset startClock playClock),
      transcript_congr (s := ⟨c, host'⟩) (prepare_clocked role ruleset startClock playClock)]
    have htwins := (hnew.idle trivial).twins_clocked (hidle.mono fun _ _ _ => trivial) trivial startClock playClock
    symm
    refine transcript_eq_of_preparedFirst hquiet hprepare hrun ?_ hfirst
    exact ⟨htwins, rfl⟩

end TreeAgent

/-! ## The kinds of agents -/

section Kinds

variable {R ε : Type} [Scalar R] [Host ε]

open TreeAgent

/-- An agent that makes books has to be careful. -/
theorem Mcts.startsAfresh {c : TreeAgent Mcts R ε} (hnew : Unseated c) {careful : Prop}
    (hcareful : c.settings.buildsBook = true → careful) :
    StartsAfresh (perform (respond (return ()))) "mcts" careful c := by
  have hplant : ∀ {E E' : Evaluator R ε → Evaluator R ε → Prop}, (c.settings.buildsBook = true → ∀ e, E' e e) →
      (c.settings.buildsBook = false → ∀ ⦃e e'⦄, E e e' → E' e e') →
      Alike (Beside (Twins c E)) (Beside (Twins c E')) (SearchMethod.plant : Deliberation Mcts R ε Unit) :=
    fun hbook hplain => (unswayed_gameAndRole _).bind fun _ => Mcts.alike_plant hbook hplain _ _
  by_cases hbook : c.settings.buildsBook = true
  · refine TreeAgent.startsAfresh_of_renewal hnew (fun q => ?_) (fun q hsearches hprepares => ?_) ?_
      (hcareful hbook)
    · refine unswayed_perform Mcts.unprejudiced (alike_pure _) (fun _ => hplant (fun _ _ => rfl) fun _ _ _ h => h)
        fun _ => Mcts.unswayed_step fun _ _ h => h
    · refine unswayed_perform Mcts.unprejudiced (alike_pure _) (fun hyes => ?_) fun hyes => ?_
      · cases hprepares.symm.trans hyes
      · cases hsearches.symm.trans hyes
    · exact hplant (fun _ _ => rfl) fun hnot => by cases hbook.symm.trans hnot
  · refine TreeAgent.startsAfresh hnew (fun q => ?_) _
    refine unswayed_perform Mcts.unprejudiced (alike_pure _)
      (fun _ => hplant (fun hyes => absurd hyes hbook) fun _ _ _ h => h) fun _ => Mcts.unswayed_step fun _ _ h => h.eq

theorem SingleObserver.startsAfresh {c : TreeAgent SingleObserver R ε} (hnew : Unseated c) (careful : Prop) :
    StartsAfresh (perform (respond (return ()))) "sois-mcts" careful c := by
  refine TreeAgent.startsAfresh hnew (fun q => ?_) careful
  refine unswayed_perform SingleObserver.unprejudiced (alike_pure _) (fun _ => ?_) fun _ =>
    SingleObserver.unswayed_step fun _ _ h => h.eq
  exact (unswayed_gameAndRole _).bind fun _ => SingleObserver.unswayed_plant _ _

theorem MultiObserver.startsAfresh {c : TreeAgent MultiObserver R ε} (hnew : Unseated c) (careful : Prop) :
    StartsAfresh (perform (respond do let _ ← MultiObserver.select; return ())) MultiObserver.label careful c := by
  refine TreeAgent.startsAfresh hnew (fun q => ?_) careful
  refine unswayed_perform MultiObserver.unprejudiced (MultiObserver.unswayed_select.bind_pure _)
    (fun _ => MultiObserver.unswayed_plant) fun _ => MultiObserver.unswayed_simulate fun _ _ h => h.eq

end Kinds

namespace RandomAgent

variable {ε : Type} {c a b : RandomAgent} {host : ε} {q : Request ε}

/-- An agent, with the source of games of another one. -/
def Same (c a b : RandomAgent) : Prop := a.seat.source = c.seat.source ∧ a = b

lemma alike_onSeat {α : Type} {action : Action Seat α} (hsource : ∀ seat, (action.after seat).source = seat.source) :
    Alike (Beside (Same c)) (Beside (Same c)) (onSeat action : Action (Hosted RandomAgent ε) α) := by
  refine alike_onOwn ?_
  rintro a _ ⟨ha, rfl⟩
  have hafter := hsource a.seat
  simp only
  cases hrun : action a.seat with
  | ok r seat =>
    rw [after_of_ok hrun] at hafter
    exact .ok ⟨hafter.trans ha, rfl⟩
  | error f seat =>
    rw [after_of_error hrun] at hafter
    exact .error ⟨hafter.trans ha, rfl⟩

variable [Dice ε]

lemma alike_move (ply : Int) (view : View) :
    Alike (Beside (Same c)) (Beside (Same c)) (move ply view : Action (Hosted RandomAgent ε) Move) := by
  refine alike_read_bind (fun a b h => by rw [h.2]) fun _ _ _ => (alike_lift _).bind fun game => ?_
  refine (alike_lift _).bind fun role => (alike_lift _).bind fun moves => ?_
  cases moves with
  | nil => exact alike_throw _
  | cons move moves => exact alike_onHost _

lemma alike_perform (q : Request ε) : Alike (Beside (Same c)) (Beside (Same c))
    (perform (fun _ => return ()) q : Action (Hosted RandomAgent ε) (Option Move)) := by
  cases q with
  | prepare role ruleset startClock playClock =>
    exact (alike_onSeat fun seat => seat.source_take role ruleset startClock playClock).bind_pure _
  | move ply timeLeft view => exact (alike_move ply view).bind_pure _
  | conclude view => exact (alike_onSeat fun _ => rfl).bind_pure _
  | abort => exact (alike_onSeat fun _ => rfl).bind_pure _
  | elsewhere f => exact (alike_onHost _).bind_pure _
  | _ => exact (alike_pure _).bind_pure _

/-- All that matters when a match is prepared is where games come from, and what is played already. -/
lemma prepare_congr (hsource : a.seat.source = b.seat.source) (hgame : a.seat.game = b.seat.game) (role : Role)
    (ruleset : Ruleset) (startClock playClock : Clock.Settings Binary64) :
    perform (fun _ => return ()) (.prepare role ruleset startClock playClock) ⟨a, host⟩ =
      perform (fun _ => return ()) (.prepare role ruleset startClock playClock) ⟨b, host⟩ := by
  obtain ⟨⟨source, game, _, _, _⟩⟩ := a
  obtain ⟨⟨source', game', _, _, _⟩⟩ := b
  simp only at hsource hgame
  subst hsource hgame
  rfl

lemma game_of_closes {x : Hosted RandomAgent ε} (hcloses : q.closes = true) :
    ((perform (fun _ => return ()) q : Action (Hosted RandomAgent ε) (Option Move)).after x).own.seat.game = none := by
  cases q with
  | conclude view => rfl
  | abort => rfl
  | _ => cases hcloses

lemma move_of_none (h : a.seat.game = none) (ply : Int) (view : View) :
    (move ply view : Action (Hosted RandomAgent ε) Move) ⟨a, host⟩ = .error (.noGame label) ⟨a, host⟩ := by
  refine (Action.bind_of_ok Hosted.read_run).trans (Action.bind_of_error ?_)
  exact Action.lift_eq_error.2 ⟨by rw [Seat.game?, h], rfl⟩

theorem startsAfresh (hnew : c.seat.game = none) (careful : Prop) :
    StartsAfresh (perform fun _ => return () : Request ε → Action (Hosted RandomAgent ε) (Option Move)) label careful
      c := by
  constructor
  · intro earlier closing host hcloses ply timeLeft view host'
    have hgame := game_of_closes (x := afterAll (perform fun _ => return ()) earlier ⟨c, host⟩) hcloses
    rw [← afterAll_concat] at hgame
    exact Action.bind_of_error (move_of_none hgame ply view)
  · intro earlier closing host hcloses role ruleset startClock playClock later host' _
    have hsame : Beside (Same c) (afterAll (perform fun _ => return ()) (earlier ++ [closing]) ⟨c, host⟩) _ :=
      afterAll_related alike_perform ⟨⟨rfl, rfl⟩, rfl⟩
    have hgame := game_of_closes (x := afterAll (perform fun _ => return ()) earlier ⟨c, host⟩) hcloses
    rw [← afterAll_concat] at hgame
    exact transcript_congr (prepare_congr hsame.own.1 (hgame.trans hnew.symm) role ruleset startClock playClock)

end RandomAgent

/-! ## Agents of any kind -/

namespace Player

variable {ε α β γ : Type} {wrap : α → Player ε} {run : Request ε → Action (Hosted (Player ε) ε) β}
  {run' : Request ε → Action (Hosted α ε) β} {s : Hosted α ε} {requests : List (Request ε)}

/-- An agent of some kind as a player. -/
def wrapped (wrap : α → Player ε) (s : Hosted α ε) : Hosted (Player ε) ε := ⟨wrap s.own, s.host⟩

/-- Players of some kind do what agents of this kind do. -/
def Does (wrap : α → Player ε) (x : Action (Hosted (Player ε) ε) β) (x' : Action (Hosted α ε) β) : Prop :=
  ∀ s, x (wrapped wrap s) = within wrap x' s.own s.host

lemma Does.of_ok {x : Action (Hosted (Player ε) ε) β} {x' : Action (Hosted α ε) β} {b : β} {t : Hosted α ε}
    (h : Does wrap x x') (hrun : x' s = .ok b t) : x (wrapped wrap s) = .ok b (wrapped wrap t) := by
  rw [h, within, hrun]
  rfl

lemma Does.of_error {x : Action (Hosted (Player ε) ε) β} {x' : Action (Hosted α ε) β} {e : Fault} {t : Hosted α ε}
    (h : Does wrap x x') (hrun : x' s = .error e t) : x (wrapped wrap s) = .error e (wrapped wrap t) := by
  rw [h, within, hrun]
  rfl

lemma Does.after {x : Action (Hosted (Player ε) ε) β} {x' : Action (Hosted α ε) β} (h : Does wrap x x') :
    x.after (wrapped wrap s) = wrapped wrap (x'.after s) := by
  cases hrun : x' s with
  | ok b t => rw [after_of_ok (h.of_ok hrun), after_of_ok hrun]
  | error e t => rw [after_of_error (h.of_error hrun), after_of_error hrun]

lemma Does.bind_pure {x : Action (Hosted (Player ε) ε) β} {x' : Action (Hosted α ε) β} (h : Does wrap x x')
    (f : β → γ) : Does wrap (x >>= fun b => pure (f b)) (x' >>= fun b => pure (f b)) := by
  intro s
  cases hrun : x' s with
  | ok b t =>
    rw [bind_of_ok (h.of_ok hrun), within, bind_of_ok hrun]
    rfl
  | error e t =>
    rw [bind_of_error (h.of_error hrun), within, bind_of_error hrun]
    rfl

lemma transcript_wrapped (h : ∀ q, Does wrap (run q) (run' q)) :
    transcript run requests (wrapped wrap s) = transcript run' requests s := by
  induction requests generalizing s with
  | nil => rfl
  | cons q rest ih =>
    rw [transcript, transcript]
    cases hrun : run' q s with
    | ok b t =>
      rw [(h q).of_ok hrun]
      simp only [ih]
      rfl
    | error e t =>
      rw [(h q).of_error hrun]
      simp only [ih]
      rfl

lemma afterAll_wrapped (h : ∀ q, Does wrap (run q) (run' q)) :
    afterAll run requests (wrapped wrap s) = wrapped wrap (afterAll run' requests s) := by
  induction requests generalizing s with
  | nil => rfl
  | cons q rest ih =>
    rw [afterAll, List.foldl_cons, (h q).after]
    exact ih

lemma preparedFirst_wrapped (h : ∀ q, Does wrap (run q) (run' q)) :
    PreparedFirst run requests (wrapped wrap s) ↔ PreparedFirst run' requests s := by
  induction requests generalizing s with
  | nil => rfl
  | cons q rest ih =>
    have hok : (∃ b t, run q (wrapped wrap s) = .ok b t) ↔ ∃ b t, run' q s = .ok b t := by
      cases hrun : run' q s with
      | ok b t => simp [(h q).of_ok hrun]
      | error e t => simp [(h q).of_error hrun]
    rw [PreparedFirst, PreparedFirst, hok, (h q).after, ih]

/-- What is so for agents of some kind is so for them as players. -/
lemma startsAfresh_wrapped {run : Request ε → Action (Hosted (Player ε) ε) (Option Move)}
    {run' : Request ε → Action (Hosted α ε) (Option Move)} {name : String} {careful : Prop} {a : α}
    (h : ∀ q, Does wrap (run q) (run' q)) (hafresh : StartsAfresh run' name careful a) :
    StartsAfresh run name careful (wrap a) := by
  constructor
  · intro earlier closing host hcloses ply timeLeft view host'
    have hafter : (afterAll run (earlier ++ [closing]) (wrapped wrap ⟨a, host⟩)).own =
        wrap (afterAll run' (earlier ++ [closing]) ⟨a, host⟩).own := congrArg Hosted.own (afterAll_wrapped h)
    have hrefuses := hafresh.refuses earlier closing host hcloses ply timeLeft view host'
    rw [show (⟨wrap a, host⟩ : Hosted (Player ε) ε) = wrapped wrap ⟨a, host⟩ from rfl, hafter]
    exact (h _).of_error hrefuses
  · intro earlier closing host hcloses role ruleset startClock playClock later host' hcareful
    have hafter : (afterAll run (earlier ++ [closing]) (wrapped wrap ⟨a, host⟩)).own =
        wrap (afterAll run' (earlier ++ [closing]) ⟨a, host⟩).own := congrArg Hosted.own (afterAll_wrapped h)
    have hanswers := hafresh.answers earlier closing host hcloses role ruleset startClock playClock later host'
      fun hyes => (preparedFirst_wrapped (s := ⟨a, host'⟩) h).1 (hcareful hyes)
    rw [← transcript_wrapped h, ← transcript_wrapped h] at hanswers
    rw [show (⟨wrap a, host⟩ : Hosted (Player ε) ε) = wrapped wrap ⟨a, host⟩ from rfl, hafter]
    exact hanswers

variable [Host ε]

/-- What a player does at a request for searching agents. -/
def respond : Request ε → Action (Hosted (Player ε) ε) Unit
  | .develop ply view => do
    let _ ← deliberate (SearchMethod.develop ply view)
    return ()
  | .step => do
    let _ ← deliberate SearchMethod.step
    return ()
  | .select => fun ⟨player, host⟩ =>
    match player with
    | .multiObserver agent => within .multiObserver (do let _ ← MultiObserver.select; return ()) agent host
    | player => .ok () ⟨player, host⟩
  | .commit chosen => do
    let _ ← deliberate (SearchMethod.commit chosen)
    return ()
  | _ => return ()

/-- What a player answers to a request. -/
def answer : Request ε → Action (Hosted (Player ε) ε) (Option Move) := perform respond

/-- A searching agent does as a player what it does at a request. -/
lemma does_perform {α : Type} [Agent α ε] {wrap : α → Player ε} {search : Request ε → Action (Hosted α ε) Unit}
    (hact : ∀ {β : Type} (action : {α : Type} → [Agent α ε] → Action (Hosted α ε) β), Does wrap (act action) action)
    (hsearch : ∀ q, Does wrap (respond q) (search q)) (q : Request ε) :
    Does wrap (answer q) (perform search q) := by
  cases q with
  | prepare role ruleset startClock playClock =>
    exact (hact (Agent.prepare role ruleset startClock playClock)).bind_pure _
  | move ply timeLeft view => exact (hact (Agent.move ply timeLeft view)).bind_pure _
  | conclude view => exact (hact (Agent.conclude view)).bind_pure _
  | abort => exact (hact Agent.abort).bind_pure _
  | elsewhere f => exact fun s => rfl
  | _ => exact (hsearch _).bind_pure _

/-- A searching agent deliberates as a player, and what comes of it is left out. -/
lemma does_deliberate {μ : Type} [SearchMethod μ Binary64 ε] {wrap : TreeAgent μ Binary64 ε → Player ε}
    {action : {μ : Type} → [SearchMethod μ Binary64 ε] → Deliberation μ Binary64 ε Unit}
    (h : Does wrap (deliberate action) (some <$> (action : Deliberation μ Binary64 ε Unit))) :
    Does wrap (do let _ ← deliberate action; return ()) (action : Deliberation μ Binary64 ε Unit) := by
  have hsame : (action : Deliberation μ Binary64 ε Unit) = (some <$> action) >>= fun _ => pure () := by simp
  exact hsame ▸ h.bind_pure _

/-- What searching agents that keep a single tree do at requests, they do as players. -/
lemma does_respond {μ : Type} [SearchMethod μ Binary64 ε] {wrap : TreeAgent μ Binary64 ε → Player ε}
    {select : Deliberation μ Binary64 ε Unit}
    (hdeliberate : ∀ action : {μ : Type} → [SearchMethod μ Binary64 ε] → Deliberation μ Binary64 ε Unit,
      Does wrap (deliberate action) (some <$> (action : Deliberation μ Binary64 ε Unit)))
    (hselect : Does wrap (respond .select) select) (hother : Does wrap (pure ()) (pure ())) (q : Request ε) :
    Does wrap (respond q) (TreeAgent.respond select q) := by
  cases q with
  | develop ply view => exact does_deliberate (hdeliberate (SearchMethod.develop ply view))
  | step => exact does_deliberate (hdeliberate SearchMethod.step)
  | commit chosen => exact does_deliberate (hdeliberate (SearchMethod.commit chosen))
  | select => exact hselect
  | _ => exact hother

/-- A seat that was just made is in no match. -/
lemma unseated_of_ofSource? {source : Option GameSource} {seat : Seat} (h : Seat.ofSource? source = .ok seat) :
    seat.game = none ∧ seat.role = none := by
  cases source with
  | none => cases h
  | some source =>
    cases h
    exact ⟨rfl, rfl⟩

/-- A new searching agent has the settings that it was given, and is in no match. -/
lemma unseated_of_of? {μ : Type} [SearchMethod μ Binary64 ε] {source : Option GameSource} {settings : SearchSettings}
    {selector chooser : Option (Selector Binary64 ε)} {evaluator : Option (Evaluator Binary64 ε)}
    {c : TreeAgent μ Binary64 ε} (h : TreeAgent.of? source settings selector chooser evaluator = .ok c) :
    c.settings = settings ∧ c.Unseated := by
  obtain ⟨seat, hseat, h⟩ := bind_eq_ok.1 h
  have hbuilt : ∃ selector evaluator, c = ⟨seat, settings, selector, chooser.getD Selector.mostVisited, evaluator,
      SearchMethod.fresh Binary64 ε, {}, ∅⟩ := by
    cases selector <;> cases evaluator <;> obtain ⟨_, -, h⟩ := bind_eq_ok.1 h <;> obtain ⟨_, -, h⟩ := bind_eq_ok.1 h
    · obtain ⟨_, -, h⟩ := bind_eq_ok.1 h
      cases h
      exact ⟨_, _, rfl⟩
    · cases h
      exact ⟨_, _, rfl⟩
    · obtain ⟨_, -, h⟩ := bind_eq_ok.1 h
      cases h
      exact ⟨_, _, rfl⟩
    · cases h
      exact ⟨_, _, rfl⟩
  obtain ⟨selector, evaluator, rfl⟩ := hbuilt
  obtain ⟨hgame, hrole⟩ := unseated_of_ofSource? hseat
  exact ⟨rfl, hgame, hrole, rfl, rfl⟩

variable {name : String} {source : Option GameSource} {settings : SearchSettings}
  {selector chooser : Option (Selector Binary64 ε)} {evaluator : Option (Evaluator Binary64 ε)} {player : Player ε}

lemma startsAfresh_of_ofName? (h : ofName? name source settings selector chooser evaluator = .ok player) :
    StartsAfresh answer name (name = "mcts" ∧ settings.buildsBook = true) player := by
  unfold ofName? at h
  split at h
  · obtain ⟨c, hc, rfl⟩ := map_eq_ok.1 h
    obtain ⟨seat, hseat, hc⟩ := bind_eq_ok.1 hc
    cases hc
    exact startsAfresh_wrapped (does_perform (fun _ _ => rfl) fun q => by cases q <;> exact fun _ => rfl)
      (RandomAgent.startsAfresh (unseated_of_ofSource? hseat).1 _)
  · obtain ⟨c, hc, rfl⟩ := map_eq_ok.1 h
    obtain ⟨hsettings, hnew⟩ := unseated_of_of? hc
    exact startsAfresh_wrapped (does_perform (fun _ _ => rfl)
      (does_respond (fun _ _ => rfl) (fun _ => rfl) fun _ => rfl))
      (Mcts.startsAfresh hnew fun hbook => ⟨rfl, hsettings ▸ hbook⟩)
  · obtain ⟨c, hc, rfl⟩ := map_eq_ok.1 h
    exact startsAfresh_wrapped (does_perform (fun _ _ => rfl)
      (does_respond (fun _ _ => rfl) (fun _ => rfl) fun _ => rfl))
      (SingleObserver.startsAfresh (unseated_of_of? hc).2 _)
  · obtain ⟨c, hc, rfl⟩ := map_eq_ok.1 h
    exact startsAfresh_wrapped (does_perform (fun _ _ => rfl)
      (does_respond (fun _ _ => rfl) (fun _ => rfl) fun _ => rfl))
      (MultiObserver.startsAfresh (unseated_of_of? hc).2 _)
  · cases h

/-- Once a match has been concluded or aborted, whatever an agent was asked for before and whether it could do it,
the agent refuses to move without any change, as it is in no match.  From the next match on it gives the answers
of a new agent and leaves the same surroundings, random numbers that are left to draw among them, if an agent that
makes books does not search before it has been prepared. -/
theorem starts_afresh (hnew : ofName? name source settings selector chooser evaluator = .ok player)
    (earlier : List (Request ε)) (closing : Request ε) (hcloses : closing.closes = true) (host : ε) :
    ∃ idle : Player ε, (afterAll answer (earlier ++ [closing]) ⟨player, host⟩).own = idle ∧
      (∀ ply timeLeft view host,
        answer (.move ply timeLeft view) ⟨idle, host⟩ = .error (.noGame name) ⟨idle, host⟩) ∧
      ∀ role ruleset startClock playClock later host,
        (name = "mcts" ∧ settings.buildsBook = true →
          PreparedFirst answer (.prepare role ruleset startClock playClock :: later) ⟨player, host⟩) →
        transcript answer (.prepare role ruleset startClock playClock :: later) ⟨idle, host⟩ =
          transcript answer (.prepare role ruleset startClock playClock :: later) ⟨player, host⟩ := by
  have hafresh := startsAfresh_of_ofName? hnew
  exact ⟨_, rfl, hafresh.refuses earlier closing host hcloses, hafresh.answers earlier closing host hcloses⟩

/-- The theorem applies to an agent that makes a book for a match, which is aborted, and that in the next match is
asked to develop its tree whether it could prepare for the match or not. -/
theorem starts_afresh_rematch : ∃ player idle : Player Session,
    ofName? "mcts" (some GameSource.library) { buildsBook := true } (some .mostVisited) none
      (some (.ofTable [] Scalar.half)) = .ok player ∧
    (afterAll answer [.prepare (.symbol "x") ⟨"tictactoe"⟩ ⟨60, 0, 0⟩ ⟨1, 0, 0⟩, .step, .abort]
      ⟨player, .ofSeed 0⟩).own = idle ∧
    answer (.move 0 0 ∅) ⟨idle, .ofSeed 1⟩ = .error (.noGame "mcts") ⟨idle, .ofSeed 1⟩ ∧
    transcript answer [.prepare (.symbol "o") ⟨"tictactoe"⟩ ⟨0, 0, 0⟩ ⟨1, 0, 0⟩, .develop 0 ∅] ⟨idle, .ofSeed 1⟩ =
      transcript answer [.prepare (.symbol "o") ⟨"tictactoe"⟩ ⟨0, 0, 0⟩ ⟨1, 0, 0⟩, .develop 0 ∅]
        ⟨player, .ofSeed 1⟩ := by
  obtain ⟨player, hnew⟩ : ∃ player : Player Session, ofName? "mcts" (some GameSource.library) { buildsBook := true }
      (some .mostVisited) none (some (.ofTable [] Scalar.half)) = .ok player := ⟨_, rfl⟩
  obtain ⟨idle, hidle, hrefuses, hanswers⟩ := starts_afresh hnew
    [.prepare (.symbol "x") ⟨"tictactoe"⟩ ⟨60, 0, 0⟩ ⟨1, 0, 0⟩, .step] .abort rfl (.ofSeed 0)
  refine ⟨player, idle, hnew, hidle, hrefuses 0 0 ∅ _, hanswers _ _ _ _ [.develop 0 ∅] _ fun _ => ?_⟩
  exact ⟨rfl, .inr ⟨rfl, .inr trivial⟩⟩

end Player

end GameSearch
