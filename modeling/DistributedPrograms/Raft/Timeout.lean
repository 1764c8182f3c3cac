import DistributedPrograms.Lib.Broadcast
import DistributedPrograms.Raft.Candidacy

/-!
# The election timeout of a Raft node

`launch` runs a task that waits for the timeout of a node and then calls `open_election`.  Whoever
wants the election put off sends a message on a broadcast channel: `append_entries` for every
request that is not of an older term, `request_vote` for every vote it gives, and `open_election`
itself when it starts an election.  The loop listens in two ways.  `rx` is polled together with the
timeout and starts the loop again; `rx2`, which is subscribed at the head of the loop, is looked at
once more in `open_election`, after a second, random sleep.

A put-off that arrives while the timeout elapses may be overlooked by the `select!`, which takes any
branch that is ready; so what counts is the look at `rx2`.  `check_passes_iff` says what it is
worth: the call goes on exactly when in this whole round of the loop nobody has put the election
off, *or more than 1024 did*, for then `rx2` lags, and `try_recv` fails.

The time itself is not modelled.  A sleep may end at any moment after its first poll.

* `TimedNode` is a node with its channel and its timer; `Timer` has one case for each place where
  the task of `launch` can stand, the call of `open_election` included.
* `PutsOff` says of an action, without looking at the channel, whether it puts the election off, and
  `step_putoffs` that the channel gets a message exactly then.
* `LoopRound` is a stretch of the history, from the moment the timer was last at its head.  What it
  adds to the channel is nothing exactly when all its steps were quiet (`LoopRound.putoffs_eq_iff`).
* `TimerInv` ties the place of the timer to such a stretch, and `candidate_after_silence` reads the
  result for a node that becomes candidate: its history holds a round in which nothing put it off,
  or too much did.
-/

set_option autoImplicit false

namespace DistributedPrograms
namespace Raft

variable {A : Type} [DecidableEq A]

open VariableState

/-- The task of `launch`, with the `open_election` it calls, from one `await` to the next. -/
inductive Timer
  /-- At the head of the loop. -/
  | top
  /-- Before the first poll of the `select!`. -/
  | selecting (rx2 : Broadcast.Receiver)
  /-- In the `select!`. -/
  | waiting (rx2 : Broadcast.Receiver)
  /-- In the random sleep of `open_election`. -/
  | sleeping (rx2 : Broadcast.Receiver)
  /-- Past the look at `rx2`, on the way to the lock. -/
  | locking
  /-- In the election. -/
  | electing
deriving DecidableEq

/-- The receiver the loop has subscribed in this round, while the call may still look at it. -/
def Timer.rx2 : Timer → Option Broadcast.Receiver
  | .selecting rx2 => some rx2
  | .waiting rx2 => some rx2
  | .sleeping rx2 => some rx2
  | _ => none

/-- A node, its `timeout_cancel` channel with the receiver `rx` of `launch`, and its timer.  `rx`
lives as long as the process, and `rx2` for one round of the loop. -/
structure TimedNode (A : Type) where
  voter : Voter A
  timeoutCancel : Broadcast Unit
  rx : Broadcast.Receiver
  timer : Timer

/-- What can happen to a node, its timer included. -/
inductive TimedAction (A : Type)
  /-- `rx2` is subscribed. -/
  | resubscribe
  /-- The first poll of the `select!`, at which no time has passed. -/
  | poll
  /-- The `select!` takes a message. -/
  | recv
  /-- The `select!` takes the timeout. -/
  | elapsed
  /-- The random sleep is over and `rx2` is looked at. -/
  | check
  /-- Anything of `VoterAction`; the elections are the timer's. -/
  | node (a : VoterAction A)

/-- `broadcast::channel(1024)`. -/
def timeoutCancelChannel : Broadcast Unit := ⟨1024, []⟩

/-- `putoff_timeout`. -/
def putoffTimeout (timeoutCancel : Broadcast Unit) : Broadcast Unit := timeoutCancel.send ()

/-- Whether the code gets to `putoff_timeout`.  An entries request gets there unless its term is
older, a vote request only with a vote, and an election at its start. -/
def callsPutoff (s : VariableState A) : VoterAction A → Bool
  | .appendEntries req _ _ => !decide (req.term < s.currentTerm)
  | .requestVote req d₁ _ =>
    if req.term < s.currentTerm then false
    else
      match s.turnToFollower req.term d₁ with
      | (s, .ok ()) =>
        logCondition s.logs req &&
          (s.votedFor.map fun candidate => candidate == req.candidateId).getD true
      | (_, .error _) => false
  | .openElection _ => s.role.isFollower
  | _ => false

/-- Where the timer is after an action that led to `v`; `open_election` waits for the lock before it
starts and for its votes before it counts them. -/
def Timer.after (t : Timer) (v : Voter A) : VoterAction A → Option Timer
  | .openElection _ =>
    if t = .locking then some (if v.electing then .electing else .top) else none
  | .countVotes _ _ => if t = .electing then some .top else none
  | .restart => some .top
  | _ => some t

namespace TimedNode

abbrev state (x : TimedNode A) : VariableState A := x.voter.state

omit [DecidableEq A] in
@[simp] theorem state_mk (v : Voter A) (c : Broadcast Unit) (rx : Broadcast.Receiver) (t : Timer) :
    state ⟨v, c, rx, t⟩ = v.state := rfl

/-- A process that has just called `launch`, with a new channel on which nothing has been sent. -/
def launched (v : Voter A) : TimedNode A :=
  ⟨v, timeoutCancelChannel, timeoutCancelChannel.subscribe, .top⟩

/-- One step of the node `me`. -/
def step (me : A) (servers : Finset A) (x : TimedNode A) : TimedAction A → Option (TimedNode A)
  | .resubscribe =>
    if x.timer = .top then some { x with timer := .selecting x.timeoutCancel.subscribe } else none
  | .poll =>
    match x.timer with
    | .selecting rx2 =>
      if 0 < x.timeoutCancel.unread x.rx then
        some { x with rx := (x.timeoutCancel.tryRecv x.rx).2, timer := .top }
      else some { x with timer := .waiting rx2 }
    | _ => none
  | .recv =>
    match x.timer with
    | .waiting _ =>
      if 0 < x.timeoutCancel.unread x.rx then
        some { x with rx := (x.timeoutCancel.tryRecv x.rx).2, timer := .top }
      else none
    | _ => none
  | .elapsed =>
    match x.timer with
    | .waiting rx2 => some { x with timer := .sleeping rx2 }
    | _ => none
  | .check =>
    match x.timer with
    | .sleeping rx2 =>
      some { x with timer := if (x.timeoutCancel.tryRecv rx2).1.isOk then .top else .locking }
    | _ => none
  | .node .restart => (x.voter.step me servers .restart).map launched
  | .node a =>
    match x.voter.step me servers a with
    | none => none
    | some v =>
      (x.timer.after v a).map fun t =>
        { x with
          voter := v
          timeoutCancel :=
            if callsPutoff x.state a then putoffTimeout x.timeoutCancel else x.timeoutCancel
          timer := t }

/-- **Who puts the election off**: a request for entries that is not of an older term, a vote that
is given (a newer term is saved before), and an election that starts. -/
def PutsOff (x : TimedNode A) : TimedAction A → Prop
  | .node (.appendEntries req _ _) => x.state.currentTerm ≤ req.term
  | .node (.requestVote req d₁ _) =>
    WouldGrant x.state req ∧ (x.state.currentTerm < req.term → d₁ = .ok)
  | .node (.openElection _) => x.state.role = .follower
  | _ => False

/-- A step that does not put the election off.  Steps of the timer itself are quiet. -/
def Quiet (tr : List (TimedNode A)) (a : TimedAction A) : Prop :=
  ∀ x ∈ tr.head?, ¬x.PutsOff a

/-- The put-offs so far. -/
def putoffs (x : TimedNode A) : Nat := x.timeoutCancel.sent.length

variable {me : A} {servers : Finset A} {x x' begin : TimedNode A} {a : TimedAction A}

/-! ## One step

What a step can do to the channel and to the timer. -/

theorem callsPutoff_requestVote {s : VariableState A} {req : RequestVoteRequest A}
    {d₁ d₂ : Disk A} :
    callsPutoff s (.requestVote req d₁ d₂) = true ↔
      WouldGrant s req ∧ (s.currentTerm < req.term → d₁ = .ok) := by
  rw [callsPutoff]
  split
  · next hold => exact iff_of_false Bool.false_ne_true fun h => Nat.not_lt.2 h.1.1 hold
  next hold =>
  by_cases hd : s.currentTerm < req.term → d₁ = .ok
  · obtain ⟨t, ht, heq⟩ := turnToFollower_saved hold hd
    obtain ⟨hlogs, -, -, hcases⟩ := id ht
    rw [heq, Bool.and_eq_true, votedFor_free_iff, hlogs]
    constructor
    · rintro ⟨hlog, hfree⟩
      refine ⟨⟨ht.le, hlog, ?_⟩, hd⟩
      rcases hcases with ⟨-, -, hvoted⟩ | ⟨-, -, hlt⟩
      · exact Or.inr (hvoted ▸ hfree)
      · exact Or.inl hlt
    · rintro ⟨⟨-, hlog, hfree⟩, -⟩
      refine ⟨hlog, ?_⟩
      rcases hcases with ⟨-, hsame, hvoted⟩ | ⟨-, hnone, -⟩
      · exact hvoted ▸ hfree.resolve_left (by omega)
      · exact Or.inl hnone
  · obtain ⟨t, -, -, heq⟩ := turnToFollower_failed hd
    rw [heq]
    exact iff_of_false Bool.false_ne_true fun h => hd h.2

/-- The code gets to `putoff_timeout` exactly for what `PutsOff` says. -/
theorem callsPutoff_iff {b : VoterAction A} :
    callsPutoff x.state b = true ↔ x.PutsOff (.node b) := by
  cases b with
  | requestVote req d₁ d₂ => exact callsPutoff_requestVote
  | appendEntries req d₁ d₂ => simp [callsPutoff, PutsOff]
  | openElection d => simp [callsPutoff, PutsOff]
  | _ => simp [callsPutoff, PutsOff]

/-- The three kinds of steps: of the timer alone, a restart, and anything else that happens to the
node. -/
inductive StepKind (me : A) (servers : Finset A) (x x' : TimedNode A) : TimedAction A → Prop
  | timer {a : TimedAction A} (hvoter : x'.voter = x.voter)
    (hchannel : x'.timeoutCancel = x.timeoutCancel) (hquiet : ¬x.PutsOff a)
    (hne : a ≠ .node .restart) : StepKind me servers x x' a
  | restart {v : Voter A} (hv : x.voter.step me servers .restart = some v)
    (hx : x' = launched v) : StepKind me servers x x' (.node .restart)
  | node {b : VoterAction A} {v : Voter A} {t : Timer} (hb : b ≠ .restart)
    (hv : x.voter.step me servers b = some v) (ht : x.timer.after v b = some t)
    (hx : x' = ⟨v, if callsPutoff x.state b then putoffTimeout x.timeoutCancel
      else x.timeoutCancel, x.rx, t⟩) : StepKind me servers x x' (.node b)

theorem step_kind (hs : x.step me servers a = some x') : StepKind me servers x x' a := by
  cases a with
  | resubscribe =>
    rw [step] at hs
    split at hs
    · obtain ⟨⟩ := hs
      exact .timer rfl rfl id (by simp)
    · contradiction
  | poll =>
    rw [step] at hs
    split at hs
    · split at hs
      all_goals
        obtain ⟨⟩ := hs
        exact .timer rfl rfl id (by simp)
    · contradiction
  | recv =>
    rw [step] at hs
    split at hs
    · split at hs
      · obtain ⟨⟩ := hs
        exact .timer rfl rfl id (by simp)
      · contradiction
    · contradiction
  | elapsed =>
    rw [step] at hs
    split at hs
    · obtain ⟨⟩ := hs
      exact .timer rfl rfl id (by simp)
    · contradiction
  | check =>
    rw [step] at hs
    split at hs
    · obtain ⟨⟩ := hs
      exact .timer rfl rfl id (by simp)
    · contradiction
  | node b =>
    by_cases hb : b = .restart
    · subst hb
      obtain ⟨v, hv, rfl⟩ := Option.map_eq_some_iff.1 hs
      exact .restart hv rfl
    · rw [step] at hs
      · split at hs
        · contradiction
        next v hv =>
        obtain ⟨t, ht, rfl⟩ := Option.map_eq_some_iff.1 hs
        exact .node hb hv ht rfl
      · exact hb

/-- **What one step does** to the channel: it sends one message or none, and none exactly when the
step puts nothing off.  A restart begins with a channel of its own. -/
theorem step_putoffs (hs : x.step me servers a = some x') (hrestart : a ≠ .node .restart) :
    x'.timeoutCancel.capacity = x.timeoutCancel.capacity ∧ x.putoffs ≤ x'.putoffs ∧
      (x'.putoffs = x.putoffs ↔ ¬x.PutsOff a) := by
  cases step_kind hs with
  | timer hvoter hchannel hquiet hne =>
    rw [putoffs, putoffs, hchannel]
    exact ⟨rfl, le_rfl, iff_of_true rfl hquiet⟩
  | restart hv hx => exact absurd rfl hrestart
  | @node b v t hb hv ht hx =>
    subst hx
    by_cases hputs : callsPutoff x.state b = true
    · simp [putoffs, hputs, putoffTimeout, callsPutoff_iff.1 hputs]
    · simp [putoffs, hputs, mt callsPutoff_iff.2 hputs]

/-- Where the timer can go in one step. -/
inductive TimerStep (x x' : TimedNode A) : Prop
  | top (h : x'.timer = .top)
  | electing (h : x'.timer = .electing)
  | stays (h : x'.timer = x.timer)
  | resubscribe (h : x.timer = .top) (h' : x'.timer = .selecting ⟨x.putoffs⟩)
    (hsame : x'.putoffs = x.putoffs)
  | goesOn (h : x'.timer.rx2 = x.timer.rx2) (h' : x'.timer ≠ .locking)
  | passes (rx2 : Broadcast.Receiver) (h : x.timer = .sleeping rx2)
    (hnone : (x.timeoutCancel.tryRecv rx2).1.isOk = false) (h' : x'.timer = .locking)

omit [DecidableEq A] in
theorem after_cases {t t' : Timer} {v : Voter A} {b : VoterAction A} (h : t.after v b = some t') :
    t' = .top ∨ t' = .electing ∨ t' = t := by
  cases b with
  | openElection d =>
    rw [Timer.after] at h
    split at h
    · obtain ⟨⟩ := h
      split
      · exact Or.inr (Or.inl rfl)
      · exact Or.inl rfl
    · contradiction
  | countVotes n d =>
    rw [Timer.after] at h
    split at h
    · obtain ⟨⟩ := h
      exact Or.inl rfl
    · contradiction
  | restart => exact Or.inl (Option.some.inj h).symm
  | _ => exact Or.inr (Or.inr (Option.some.inj h).symm)

theorem step_timer (hs : x.step me servers a = some x') : TimerStep x x' := by
  cases a with
  | resubscribe =>
    rw [step] at hs
    split at hs
    · next htop =>
      obtain ⟨⟩ := hs
      exact .resubscribe htop rfl rfl
    · contradiction
  | poll =>
    rw [step] at hs
    split at hs
    · next rx2 hsel =>
      split at hs
      · obtain ⟨⟩ := hs
        exact .top rfl
      · obtain ⟨⟩ := hs
        exact .goesOn (by rw [hsel]; rfl) (by simp)
    · contradiction
  | recv =>
    rw [step] at hs
    split at hs
    · split at hs
      · obtain ⟨⟩ := hs
        exact .top rfl
      · contradiction
    · contradiction
  | elapsed =>
    rw [step] at hs
    split at hs
    · next rx2 hwait =>
      obtain ⟨⟩ := hs
      exact .goesOn (by rw [hwait]; rfl) (by simp)
    · contradiction
  | check =>
    rw [step] at hs
    split at hs
    · next rx2 hsleep =>
      obtain ⟨⟩ := hs
      cases hok : (x.timeoutCancel.tryRecv rx2).1.isOk with
      | true => exact .top rfl
      | false => exact .passes rx2 hsleep hok rfl
    · contradiction
  | node b =>
    by_cases hb : b = .restart
    · subst hb
      obtain ⟨v, -, rfl⟩ := Option.map_eq_some_iff.1 hs
      exact .top rfl
    · rw [step] at hs
      · split at hs
        · contradiction
        obtain ⟨t, ht, rfl⟩ := Option.map_eq_some_iff.1 hs
        rcases after_cases ht with rfl | rfl | rfl
        · exact .top rfl
        · exact .electing rfl
        · exact .stays rfl
      · exact hb

/-- A node that is not at the head of its loop has not been restarted just now. -/
theorem ne_restart (hs : x.step me servers a = some x') (htop : x'.timer ≠ .top) :
    a ≠ .node .restart := by
  rintro rfl
  rw [step] at hs
  obtain ⟨v, -, rfl⟩ := Option.map_eq_some_iff.1 hs
  exact htop rfl

/-! ## One round of the loop

The receiver `rx2` is subscribed at the head of the loop, so the messages it has not seen are those
of this round. -/

variable {during before tr : List (TimedNode A)}

/-- A round of the loop: the moments since the timer was last at its head, the latest first.  The
receiver that the round looks at has been subscribed in it. -/
structure LoopRound (me : A) (servers : Finset A) (during : List (TimedNode A))
    (begin : TimedNode A) : Prop where
  run : Run (step me servers) (fun _ _ => True) begin (during ++ [begin])
  top : begin.timer = .top
  under_way : ∀ x ∈ during, x.timer ≠ .top

theorem LoopRound.cons (h : LoopRound me servers during begin)
    (hlast : (during ++ [begin]).head? = some x) (hs : x.step me servers a = some x')
    (htop : x'.timer ≠ .top) : LoopRound me servers (x' :: during) begin := by
  refine ⟨?_, h.top, List.forall_mem_cons.2 ⟨htop, h.under_way⟩⟩
  obtain ⟨past, hpast⟩ := List.head?_eq_some_iff.1 hlast
  rw [List.cons_append, hpast]
  exact .step (hpast ▸ h.run) trivial hs

/-- **What a round of the loop adds to the channel**: nothing exactly when every step of it was
quiet.  So the channel tells what has happened, until it is full. -/
theorem LoopRound.putoffs_eq_iff (h : LoopRound me servers during begin)
    (hlast : (during ++ [begin]).head? = some x) :
    x.timeoutCancel.capacity = begin.timeoutCancel.capacity ∧ begin.putoffs ≤ x.putoffs ∧
      (x.putoffs = begin.putoffs ↔ Run (step me servers) Quiet begin (during ++ [begin])) := by
  induction during generalizing x with
  | nil =>
    obtain rfl : begin = x := by simpa using hlast
    exact ⟨rfl, le_rfl, iff_of_true rfl .init⟩
  | cons u during ih =>
    obtain rfl : u = x := by simpa using hlast
    obtain ⟨htop, hunder⟩ := List.forall_mem_cons.1 h.under_way
    have hrun := h.run
    rw [List.cons_append] at hrun ⊢
    generalize htr : during ++ [begin] = tr at hrun
    cases hrun with
    | init => simp at htr
    | @step s _ tr a hrun _ hs =>
      have hround : LoopRound me servers during begin := ⟨htr ▸ hrun, h.top, hunder⟩
      obtain ⟨hcap, hle, hiff⟩ := ih (x := s) hround (by rw [htr]; rfl)
      rw [htr] at hiff
      obtain ⟨hcap', hle', hiff'⟩ := step_putoffs hs (ne_restart hs htop)
      refine ⟨hcap'.trans hcap, hle.trans hle', fun heq => ?_, fun hquiet => ?_⟩
      · have hs_eq : s.putoffs = begin.putoffs := by omega
        refine .step (hiff.1 hs_eq) ?_ hs
        rintro v ⟨⟩
        exact hiff'.1 (heq.trans hs_eq.symm)
      · cases hquiet with
        | step hquiet hc hs' =>
          have hsame := (step_putoffs hs' (ne_restart hs' htop)).2.2.2 (hc s rfl)
          exact hsame.trans (hiff.2 hquiet)

/-- Nobody has put the election off in a round so far, or more than 1024 have.  In the second case
the receiver lags, and an error is not the message that the code waits for. -/
def Expired (me : A) (servers : Finset A) (during : List (TimedNode A)) (begin : TimedNode A) :
    Prop :=
  Run (step me servers) Quiet begin (during ++ [begin]) ∨
    ∃ x, (during ++ [begin]).head? = some x ∧ begin.putoffs + 1024 < x.putoffs

/-! ## Runs

Between the look at `rx2` and the lock other tasks may run once more.  The invariant therefore
remembers the round the call has come through, and that it has been on the way since. -/

/-- What the history says of a timer: while it listens, which round it is in; on its way to the
lock, which round it has come through, and that it has been on the way since. -/
structure TimerInv (me : A) (servers : Finset A) (x : TimedNode A) (tr : List (TimedNode A)) :
    Prop where
  listening : ∀ rx2, x.timer.rx2 = some rx2 → ∃ during begin before,
    x :: tr = (x :: during) ++ begin :: before ∧ LoopRound me servers (x :: during) begin ∧
      rx2.next = begin.putoffs
  locking : x.timer = .locking → ∃ later during begin before,
    x :: tr = later ++ during ++ begin :: before ∧ LoopRound me servers during begin ∧
      Expired me servers during begin ∧ ∀ v ∈ later, v.timer = .locking

/-- The decision to elect, by the message that `rx2` has or has not for the call. -/
theorem LoopRound.expired_iff (h : LoopRound me servers during begin)
    (hlast : (during ++ [begin]).head? = some x) (hcap : begin.timeoutCancel.capacity = 1024)
    {rx2 : Broadcast.Receiver} (hrx2 : rx2.next = begin.putoffs) :
    (x.timeoutCancel.tryRecv rx2).1.isOk = false ↔ Expired me servers during begin := by
  obtain ⟨hsame, hle, hquiet⟩ := h.putoffs_eq_iff hlast
  have hunread : x.timeoutCancel.unread rx2 = x.putoffs - begin.putoffs := by
    rw [Broadcast.unread, hrx2]
    rfl
  rw [← Bool.not_eq_true, Broadcast.tryRecv_ok_iff, hunread, hsame, hcap, Expired, hlast, ← hquiet]
  simp only [Option.some.injEq, exists_eq_left']
  omega

/-- A round goes on for as long as its receiver is the loop's. -/
theorem TimerInv.goesOn {rx2 : Broadcast.Receiver} (h : TimerInv me servers x tr)
    (hs : x.step me servers a = some x') (hold : x.timer.rx2 = some rx2)
    (hnew : x'.timer.rx2 = some rx2) : ∃ during begin before,
      x' :: x :: tr = (x' :: during) ++ begin :: before ∧
        LoopRound me servers (x' :: during) begin ∧ rx2.next = begin.putoffs := by
  obtain ⟨during, begin, before, htr, hround, hrx2⟩ := h.listening rx2 hold
  refine ⟨x :: during, begin, before, congrArg (x' :: ·) htr, hround.cons rfl hs ?_, hrx2⟩
  intro htop
  rw [htop] at hnew
  cases hnew

theorem TimerInv.step (h : TimerInv me servers x tr) (hs : x.step me servers a = some x')
    (hcap : ∀ v ∈ x :: tr, v.timeoutCancel.capacity = 1024) :
    TimerInv me servers x' (x :: tr) := by
  cases step_timer hs with
  | top htop =>
    refine ⟨fun rx2 hrx2 => ?_, fun hlock => ?_⟩
    · rw [htop] at hrx2
      cases hrx2
    · rw [htop] at hlock
      cases hlock
  | electing hel =>
    refine ⟨fun rx2 hrx2 => ?_, fun hlock => ?_⟩
    · rw [hel] at hrx2
      cases hrx2
    · rw [hel] at hlock
      cases hlock
  | stays hstay =>
    refine ⟨fun rx2 hrx2 => h.goesOn hs (hstay ▸ hrx2) hrx2, fun hlock => ?_⟩
    obtain ⟨later, during, begin, before, htr, hround, hexp, hlater⟩ := h.locking (hstay ▸ hlock)
    exact ⟨x' :: later, during, begin, before, congrArg (x' :: ·) htr, hround, hexp,
      List.forall_mem_cons.2 ⟨hlock, hlater⟩⟩
  | resubscribe htop hsel hsame =>
    refine ⟨fun rx2 hrx2 => ?_, fun hlock => ?_⟩
    · refine ⟨[], x, tr, rfl, ⟨.step .init trivial hs, htop, ?_⟩, ?_⟩
      · intro v hv
        rw [List.mem_singleton.1 hv, hsel]
        exact fun h => by cases h
      · rw [hsel] at hrx2
        obtain ⟨⟩ := hrx2
        rfl
    · rw [hsel] at hlock
      cases hlock
  | goesOn hgoes hne =>
    exact ⟨fun rx2 hrx2 => h.goesOn hs (hgoes ▸ hrx2) hrx2, fun hlock => absurd hlock hne⟩
  | passes rx2 hsleep hnone hlock' =>
    refine ⟨fun rx2 hrx2 => ?_, fun _ => ?_⟩
    · rw [hlock'] at hrx2
      cases hrx2
    · obtain ⟨during, begin, before, htr, hround, hrx2⟩ := h.listening rx2 (by rw [hsleep]; rfl)
      refine ⟨[x'], x :: during, begin, before, congrArg (x' :: ·) htr, hround, ?_, ?_⟩
      · exact (hround.expired_iff rfl (hcap begin (by rw [htr]; simp)) hrx2).1 hnone
      · intro v hv
        rw [List.mem_singleton.1 hv]
        exact hlock'

variable {v₀ : Voter A}

theorem timerInv_run
    (h : Run (step me servers) (fun _ _ => True) (launched v₀) (x :: tr)) :
    TimerInv me servers x tr ∧ ∀ v ∈ x :: tr, v.timeoutCancel.capacity = 1024 := by
  refine Run.head_induction
    (P := fun x tr => TimerInv me servers x tr ∧ ∀ v ∈ x :: tr, v.timeoutCancel.capacity = 1024)
    ⟨⟨fun rx2 hrx2 => ?_, fun hlock => ?_⟩, ?_⟩ ?_ h
  · cases hrx2
  · cases hlock
  · intro v hv
    rw [List.mem_singleton.1 hv]
    rfl
  · rintro x tr a x' - - hs ⟨hinv, hcap⟩
    refine ⟨hinv.step hs hcap, List.forall_mem_cons.2 ⟨?_, hcap⟩⟩
    by_cases hrestart : a = .node .restart
    · subst hrestart
      obtain ⟨v, -, rfl⟩ := Option.map_eq_some_iff.1 hs
      rfl
    · exact (step_putoffs hs hrestart).1.trans (hcap x List.mem_cons_self)

/-- **What the look at `rx2` is worth.**  An `open_election` whose sleep is over goes on exactly
when in this round of the loop nobody has put the election off, or more than 1024 have. -/
theorem check_passes_iff
    (h : Run (step me servers) (fun _ _ => True) (launched v₀) (x :: tr))
    (hs : x.step me servers .check = some x') : ∃ during begin before,
      x :: tr = during ++ begin :: before ∧ LoopRound me servers during begin ∧
        (x'.timer = .locking ↔ Run (step me servers) Quiet begin (during ++ [begin]) ∨
          begin.putoffs + 1024 < x.putoffs) := by
  obtain ⟨hinv, hcap⟩ := timerInv_run h
  rw [step] at hs
  split at hs
  · next rx2 hsleep =>
    obtain ⟨⟩ := hs
    obtain ⟨during, begin, before, htr, hround, hrx2⟩ := hinv.listening rx2 (by rw [hsleep]; rfl)
    have hexp := hround.expired_iff (x := x) rfl (hcap begin (by rw [htr]; simp)) hrx2
    refine ⟨x :: during, begin, before, htr, hround, ?_⟩
    rw [Expired, List.cons_append, List.head?_cons] at hexp
    simp only [Option.some.injEq, exists_eq_left'] at hexp
    rw [List.cons_append, ← hexp]
    cases (x.timeoutCancel.tryRecv rx2).1.isOk <;> simp
  · contradiction

/-- A follower that is asked for its log while the timeout elapses: the call does not go on. -/
theorem check_passes_iff_putoff : ∃ (x' x : TimedNode (Fin 3)) (tr : List (TimedNode (Fin 3))),
    x.step 0 {0, 1, 2} .check = some x' ∧ x'.timer = .top ∧ ∃ during begin before,
      x :: tr = during ++ begin :: before ∧
        ¬Run (step 0 {0, 1, 2}) Quiet begin (during ++ [begin]) ∧
        ¬begin.putoffs + 1024 < x.putoffs := by
  have hcheck : Run.checkStep (step (0 : Fin 3) {0, 1, 2}) (fun _ _ => true)
      (launched ⟨.init, false, []⟩)
      [.resubscribe, .poll, .node (.appendEntries ⟨1, 0, 0, [], 0⟩ .ok .ok), .elapsed] .check
      (fun x' _ _ => decide (x'.timer = .top)) = true := by
    decide +kernel
  obtain ⟨x', x, tr, hrun, hs, hp⟩ :=
    Run.exists_of_checkStep (C := fun _ _ => True) (fun _ _ _ => trivial) hcheck
  have htop : x'.timer = .top := of_decide_eq_true hp
  obtain ⟨during, begin, before, htr, -, hiff⟩ :=
    check_passes_iff (hrun.of_suffix (List.suffix_cons _ _) (List.cons_ne_nil _ _)) hs
  rw [htop] at hiff
  obtain ⟨hnoisy, hfew⟩ := not_or.1 fun h => Timer.noConfusion (hiff.2 h)
  exact ⟨x', x, tr, hs, htop, during, begin, before, htr, hnoisy, hfew⟩

/-! ## Becoming a candidate

Back from the candidacy to the round of the loop that has led to it. -/

/-- Nothing but the start of an election makes a candidate. -/
theorem openElection_of_candidate {v v' : Voter A} {b : VoterAction A}
    (hs : v.step me servers b = some v') (hold : v.state.role ≠ .candidate)
    (hnew : v'.state.role = .candidate) : ∃ d, b = .openElection d := by
  rw [Voter.step_state hs] at hnew
  cases b with
  | openElection d => exact ⟨d, rfl⟩
  | requestVote req d₁ d₂ =>
    have hne : (requestVote v.state req d₁ d₂).1.role ≠ .follower := fun hf => by
      rw [Voter.stateAfter, hf] at hnew
      cases hnew
    exact absurd (((requestVote_spec v.state req d₁ d₂).kept hne).1.symm.trans hnew) hold
  | appendEntries req d₁ d₂ =>
    have hne : (appendEntries v.state req d₁ d₂).1.role ≠ .follower := fun hf => by
      rw [Voter.stateAfter, hf] at hnew
      cases hnew
    exact absurd (((appendEntries_spec v.state req d₁ d₂).kept hne).1.symm.trans hnew) hold
  | countVotes n d => exact absurd hnew (openElectionCount_role hold)
  | sendAppendEntries texts d =>
    rw [Voter.stateAfter] at hnew
    rcases sendAppendEntriesAppend_cases v.state texts d with ⟨-, ho, -⟩ | ⟨-, file, ho⟩
    · rw [ho] at hnew
      exact absurd hnew hold
    · rw [ho] at hnew
      exact absurd hnew hold
  | sendRound addr =>
    exact absurd ((sendAppendEntriesRequest_same me v.state addr).candidate_iff.1 hnew) hold
  | roundReply addr success =>
    exact absurd ((sendAppendEntriesReply_same v.state addr success).candidate_iff.1 hnew) hold
  | closeRound n =>
    rw [Voter.stateAfter, sendAppendEntriesCommit] at hnew
    split at hnew
    · exact absurd hnew hold
    · exact absurd hnew hold
  | restart =>
    rw [Voter.stateAfter] at hnew
    split at hnew
    · next hfile =>
      rw [fromFile_role hfile] at hnew
      cases hnew
    · exact absurd hnew hold

/-- **A node stands for election only after silence.**  When it becomes candidate, its history holds
a round of its timer, from the head of the loop to the look at `rx2`, in which it has handled no
request for entries but those of older terms and has given no vote, *or has done so more than 1024
times*; since then its `open_election` has only been on the way to the lock. -/
theorem candidate_after_silence
    (h : Run (step me servers) (fun _ _ => True) (launched v₀) (x :: tr))
    (hs : x.step me servers a = some x') (hold : x.state.role ≠ .candidate)
    (hnew : x'.state.role = .candidate) : ∃ later during begin before,
      x :: tr = later ++ during ++ begin :: before ∧ LoopRound me servers during begin ∧
        Expired me servers during begin ∧ ∀ v ∈ later, v.timer = .locking := by
  refine (timerInv_run h).1.locking ?_
  cases step_kind hs with
  | timer hvoter hchannel hquiet hne =>
    rw [state, hvoter] at hnew
    exact absurd hnew hold
  | restart hv hx =>
    subst hx
    obtain ⟨d, hd⟩ := openElection_of_candidate hv hold hnew
    cases hd
  | node hb hv ht hx =>
    subst hx
    obtain ⟨d, rfl⟩ := openElection_of_candidate hv hold hnew
    rw [Timer.after] at ht
    by_contra hlock
    rw [if_neg hlock] at ht
    contradiction

/-- A node alone: its timeout elapses, and it stands for election. -/
theorem candidate_after_silence_alone :
    ∃ (x : TimedNode (Fin 3)) (tr : List (TimedNode (Fin 3))),
      Run (step 0 {0, 1, 2}) (fun _ _ => True) (launched ⟨.init, false, []⟩) (x :: tr) ∧
        ∃ later during begin before, x :: tr = later ++ during ++ begin :: before ∧
          Expired 0 {0, 1, 2} during begin := by
  have hcheck : Run.checkStep (step (0 : Fin 3) {0, 1, 2}) (fun _ _ => true)
      (launched ⟨.init, false, []⟩) [.resubscribe, .poll, .elapsed, .check]
      (.node (.openElection .ok))
      (fun x' x _ => decide (x'.state.role.isCandidate = true ∧ ¬x.state.role.isCandidate = true)) =
        true := by
    decide +kernel
  obtain ⟨x', x, tr, hrun, hs, hp⟩ :=
    Run.exists_of_checkStep (C := fun _ _ => True) (fun _ _ _ => trivial) hcheck
  obtain ⟨hnew, hold⟩ := of_decide_eq_true hp
  rw [Role.isCandidate_iff] at hnew hold
  have hpast := hrun.of_suffix (List.suffix_cons x' (x :: tr)) (List.cons_ne_nil _ _)
  obtain ⟨later, during, begin, before, htr, -, hexp, -⟩ :=
    candidate_after_silence hpast hs hold hnew
  exact ⟨x, tr, hpast, later, during, begin, before, htr, hexp⟩

end TimedNode

end Raft
end DistributedPrograms
