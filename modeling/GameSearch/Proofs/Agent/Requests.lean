import GameSearch.Agent.Player
import GameSearch.Proofs.Alike

/-!
# What agents are asked for

Requests to an agent, the transcript of what it answers, and two agents that answer alike: `transcript_eq`.
`StartsAfresh` says that an agent carries nothing from one match to the next.
-/

namespace GameSearch

open GameSearch.Action Hosted

/-! ## Requests -/

/-- What an agent may be asked for.  Some agents cannot do all of it, and then do nothing. -/
inductive Request (ε : Type) where
  | prepare (role : Role) (ruleset : Ruleset) (startClock playClock : Clock.Settings Binary64)
  | move (ply timeLeft : Int) (view : View)
  | conclude (view : View)
  | abort
  | develop (ply : Int) (view : View)
  | step
  | select
  | commit (move : Move)
  /-- Nothing is asked for, but time passes, and others draw random numbers. -/
  | elsewhere (f : ε → ε)

namespace Request

variable {σ ε α β : Type}

def closes : Request ε → Bool
  | conclude _ | abort => true
  | _ => false

def prepares : Request ε → Bool
  | prepare .. => true
  | _ => false

/-- Whether a request makes an agent do simulations. -/
def searches : Request ε → Bool
  | move .. | step => true
  | _ => false

/-- What an agent does that is asked for something; `search` says what it does as a searching agent. -/
def perform [Agent α ε] (search : Request ε → Action (Hosted α ε) Unit) :
    Request ε → Action (Hosted α ε) (Option Move)
  | prepare role ruleset startClock playClock => do
    Agent.prepare role ruleset startClock playClock
    return none
  | move ply timeLeft view => do
    let move ← Agent.move ply timeLeft view
    return some move
  | conclude view => do
    Agent.conclude view
    return none
  | abort => do
    Agent.abort
    return none
  | elsewhere f => do
    Hosted.onHost (modify f)
    return none
  | q => do
    search q
    return none

/-! ## Transcripts -/

/-- What requests are answered, each with the surroundings after it. -/
def transcript (run : Request ε → Action (Hosted σ ε) β) :
    List (Request ε) → Hosted σ ε → List (Except Fault β × ε)
  | [], _ => []
  | q :: rest, s =>
    match run q s with
    | .ok b t => (.ok b, t.host) :: transcript run rest t
    | .error e t => (.error e, t.host) :: transcript run rest t

/-- The state after requests, whether they could be met or not. -/
def afterAll (run : Request ε → Action (Hosted σ ε) β) (requests : List (Request ε)) (s : Hosted σ ε) : Hosted σ ε :=
  requests.foldl (fun s q => (run q).after s) s

/-- There is no search before a match has been prepared. -/
def PreparedFirst (run : Request ε → Action (Hosted σ ε) β) : List (Request ε) → Hosted σ ε → Prop
  | [], _ => True
  | q :: rest, s => q.searches = false ∧
    (q.prepares = true ∧ (∃ b t, run q s = .ok b t) ∨ PreparedFirst run rest ((run q).after s))

variable {run : Request ε → Action (Hosted σ ε) β} {s t : Hosted σ ε} {q : Request ε} {requests : List (Request ε)}

/-- The answer to the first request is all that matters. -/
lemma transcript_congr (h : run q s = run q t) :
    transcript run (q :: requests) s = transcript run (q :: requests) t := by
  simp only [transcript, h]

/-- The answer to a request that is met alike is the same, and what comes afterwards counts. -/
lemma transcript_cons {S T : σ → σ → Prop} (h : EndsAlike (Beside S) (Beside T) (run q s) (run q t))
    (hok : ∀ b s' t', run q s = .ok b s' → Beside T s' t' → transcript run requests s' = transcript run requests t')
    (herror : ∀ e s' t', run q s = .error e s' → Beside S s' t' →
      transcript run requests s' = transcript run requests t') :
    transcript run (q :: requests) s = transcript run (q :: requests) t := by
  rw [transcript, transcript]
  obtain ⟨b, s', t', hs, ht, hafter⟩ | ⟨e, s', t', hs, ht, hafter⟩ := h.cases
  · rw [hs, ht]
    simp only [hafter.host, hok b s' t' hs hafter]
  · rw [hs, ht]
    simp only [hafter.host, herror e s' t' hs hafter]

/-- Related states answer alike. -/
theorem transcript_eq {S : σ → σ → Prop} (hrun : ∀ q, Alike (Beside S) (Beside S) (run q)) (h : Beside S s t) :
    transcript run requests s = transcript run requests t := by
  induction requests generalizing s t with
  | nil => rfl
  | cons q rest ih => exact transcript_cons (hrun q h) (fun _ _ _ _ => ih) fun _ _ _ _ => ih

/-- States that preparing a match relates more closely need not be so before, if there is no search until
then. -/
theorem transcript_eq_of_preparedFirst {S T : σ → σ → Prop}
    (hquiet : ∀ q : Request ε, q.searches = false → q.prepares = false → Alike (Beside S) (Beside S) (run q))
    (hprepare : ∀ q : Request ε, q.prepares = true → Alike (Beside S) (Beside T) (run q))
    (hrun : ∀ q, Alike (Beside T) (Beside T) (run q)) (h : Beside S s t) (hfirst : PreparedFirst run requests s) :
    transcript run requests s = transcript run requests t := by
  induction requests generalizing s t with
  | nil => rfl
  | cons q rest ih =>
    obtain ⟨hsearches, hnext⟩ := hfirst
    cases hprepares : q.prepares with
    | true =>
      refine transcript_cons (hprepare q hprepares h) (fun _ _ _ _ => transcript_eq hrun)
        fun e s' t' hs hst => ih hst ?_
      rcases hnext with ⟨-, b, u, hok⟩ | hnext
      · cases hs.symm.trans hok
      · rwa [after_of_error hs] at hnext
    | false =>
      have hrest : PreparedFirst run rest ((run q).after s) := by simpa [hprepares] using hnext
      refine transcript_cons (hquiet q hsearches hprepares h) (fun b s' t' hs hst => ih hst ?_)
        fun e s' t' hs hst => ih hst ?_
      · rwa [after_of_ok hs] at hrest
      · rwa [after_of_error hs] at hrest

/-- What every request keeps is kept by all of them. -/
lemma afterAll_related {S : σ → σ → Prop} (hrun : ∀ q, Alike (Beside S) (Beside S) (run q)) (h : Beside S s s) :
    Beside S (afterAll run requests s) (afterAll run requests s) := by
  induction requests generalizing s with
  | nil => exact h
  | cons q rest ih => exact ih ((hrun q).after h)

lemma afterAll_concat (closing : Request ε) :
    afterAll run (requests ++ [closing]) s = (run closing).after (afterAll run requests s) := by
  simp [afterAll]

lemma preparedFirst_congr (h : run q s = run q t) :
    PreparedFirst run (q :: requests) s ↔ PreparedFirst run (q :: requests) t := by
  simp only [PreparedFirst, Action.after, h]

end Request

open Request

/-- After any requests and the end of a match, an agent refuses to move.  What it answers from the next match on is
what it would have answered at first, if it heeds `careful` and does not search before it is prepared. -/
structure StartsAfresh {α ε : Type} (run : Request ε → Action (Hosted α ε) (Option Move)) (name : String)
    (careful : Prop) (a : α) : Prop where
  refuses (earlier : List (Request ε)) (closing : Request ε) (host : ε) (hcloses : closing.closes = true)
    (ply timeLeft : Int) (view : View) (host' : ε) :
    run (.move ply timeLeft view) ⟨(afterAll run (earlier ++ [closing]) ⟨a, host⟩).own, host'⟩ =
      .error (.noGame name) ⟨(afterAll run (earlier ++ [closing]) ⟨a, host⟩).own, host'⟩
  answers (earlier : List (Request ε)) (closing : Request ε) (host : ε) (hcloses : closing.closes = true)
    (role : Role) (ruleset : Ruleset) (startClock playClock : Clock.Settings Binary64) (later : List (Request ε))
    (host' : ε)
    (hcareful : careful → PreparedFirst run (.prepare role ruleset startClock playClock :: later) ⟨a, host'⟩) :
    transcript run (.prepare role ruleset startClock playClock :: later)
        ⟨(afterAll run (earlier ++ [closing]) ⟨a, host⟩).own, host'⟩ =
      transcript run (.prepare role ruleset startClock playClock :: later) ⟨a, host'⟩

end GameSearch
