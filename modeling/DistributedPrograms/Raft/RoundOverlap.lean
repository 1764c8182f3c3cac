import DistributedPrograms.Raft.ElectionSafety

/-!
# Rounds of a node that meet each other or a later leadership

A call of `send_append_entries` reads and writes the state of its node for as long as its futures
run.  Two things are meant to keep that harmless.

* `append_entries_lock` is to let in one call at a time.  Its guard is bound to `_` and dropped at
  once, so a `post_log` appends while a heartbeat is out (`not_serialised`).  Where calls do come
  one at a time, no call touches anything before the last one has returned (`serialised`).
* A node that is deposed is to get nothing out of its round.  But a future of a node that is not
  leader ends with `Ok(true)`, and nothing looks at role or term when the successes are counted
  (`not_deposed_inert`); and the futures of the old round write the index maps of a new leadership.
  `deposed_inert` says which events have to be excluded: a future of the round that starts or gets
  its reply after the deposition, and a deposition that comes when the successes are a majority
  already.  What follows for the rest of the round, its count included, is `minority_of_left`.
-/

set_option autoImplicit false

namespace DistributedPrograms
namespace Raft

variable {A : Type} [DecidableEq A] {servers : Finset A} {c c' : Cluster A}
  {tr : List (Cluster A)} {n : A} {r : Nat} {a : Action A}

open VariableState

/-- The step is one of the round `r` of `n`: a future of it starts, ends or gets its reply, or the
call returns. -/
def ByRound (c : Cluster A) (n : A) (r : Nat) : Action A → Prop
  | .sendRound n' r' _ => n' = n ∧ r' = r
  | .appendReply k => ∃ m ∈ c.appendReplies[k]?, m.1.caller = n ∧ m.1.round = r
  | .appendError n' r' _ => n' = n ∧ r' = r
  | .closeRound n' r' => n' = n ∧ r' = r
  | _ => False

/-- What a step of a round finds, and what it makes of the state of its node. -/
theorem step_byRound (h : c.step servers a = some c') (hby : ByRound c n r a) :
    ∃ rd, (c.node n).rounds[r]? = some rd ∧
    ((∃ p, a = .sendRound n r p ∧ p ∈ servers ∧ rd.peers p = .idle ∧
        (c'.node n).state = (sendAppendEntriesRequest n (c.node n).state p).1) ∨
     (∃ k call res req, a = .appendReply k ∧ c.appendReplies[k]? = some (call, res) ∧
        call.caller = n ∧ call.round = r ∧ rd.peers call.callee = .waiting req ∧
        (c'.node n).state =
          (sendAppendEntriesReply (c.node n).state call.callee res.success).1) ∨
     (∃ p req, a = .appendError n r p ∧ rd.peers p = .waiting req ∧
        (c'.node n).state = (c.node n).state) ∨
     (a = .closeRound n r ∧ rd.ret = none ∧ (c'.node n).state =
        (sendAppendEntriesCommit servers (c.node n).state (countTrue servers rd.peers)).1)) := by
  cases a with
  | sendRound n' r' p =>
    obtain ⟨rfl, rfl⟩ := hby
    obtain ⟨rd, hrd, hp, hidle, ⟨req, -, rfl⟩ | ⟨-, rfl⟩⟩ := step_sendRound h
    · exact ⟨rd, hrd, Or.inl ⟨p, rfl, hp, hidle, by simp [Cluster.setNode]⟩⟩
    · exact ⟨rd, hrd, Or.inl ⟨p, rfl, hp, hidle, by simp [Cluster.setNode]⟩⟩
  | appendReply k =>
    obtain ⟨m, hm, rfl, rfl⟩ := hby
    obtain ⟨call, res, rd, req, hk, hrd, hw, rfl⟩ := step_appendReply h
    obtain ⟨⟩ := hk.symm.trans hm
    exact ⟨rd, hrd, Or.inr (Or.inl ⟨k, call, res, req, rfl, hk, rfl, rfl, hw,
      by simp [Cluster.setNode]⟩)⟩
  | appendError n' r' p =>
    obtain ⟨rfl, rfl⟩ := hby
    obtain ⟨rd, req, hrd, hw, rfl⟩ := step_appendError h
    exact ⟨rd, hrd, Or.inr (Or.inr (Or.inl ⟨p, req, rfl, hw, by simp [Node.setRound]⟩))⟩
  | closeRound n' r' =>
    obtain ⟨rfl, rfl⟩ := hby
    obtain ⟨rd, hrd, hret, -, rfl⟩ := step_closeRound h
    exact ⟨rd, hrd, Or.inr (Or.inr (Or.inr ⟨rfl, hret, by simp⟩))⟩
  | _ => exact hby.elim

/-- The step from `c` to `c'` has moved the round `r` of `n` on. -/
def Moved (c c' : Cluster A) (n : A) (r : Nat) : Prop :=
  ∃ rd rd', (c.node n).rounds[r]? = some rd ∧ (c'.node n).rounds[r]? = some rd' ∧ rd' ≠ rd

/-- Only a step of the round moves it. -/
theorem Moved.byRound (hm : Moved c c' n r) (h : c.step servers a = some c') : ByRound c n r a := by
  obtain ⟨rd, rd', hrd, hrd', hne⟩ := hm
  rcases step_rounds h hrd' with ⟨_, _, -, hge, -⟩ | ⟨rd₀, hrd₀, hstep⟩
  · have hlt := (List.getElem?_eq_some_iff.1 hrd).1
    omega
  obtain ⟨⟩ := hrd₀.symm.trans hrd
  by_contra hby
  -- no future moves, and the round does not return
  have hpeers : ∀ p, rd'.peers p = rd.peers p := by
    intro p
    have hpeer := hstep.peers p
    generalize rd'.peers p = f at hpeer
    cases hpeer with
    | keep => rfl
    | start => exact absurd ⟨rfl, rfl⟩ hby
    | error => exact absurd ⟨rfl, rfl⟩ hby
    | reply _ hk hcaller hround _ => exact absurd ⟨_, hk, hcaller, hround⟩ hby
  have hret : rd'.ret = rd.ret := by
    rcases hstep.ret with heq | ⟨rfl, -⟩
    · exact heq
    · exact absurd ⟨rfl, rfl⟩ hby
  obtain ⟨term', base', texts', peers', ret'⟩ := rd'
  obtain ⟨rfl, rfl, rfl⟩ := And.intro hstep.term (And.intro hstep.base hstep.texts)
  exact hne (congr (congrArg _ (funext hpeers)) hret)

/-! ## One call at a time

What the lock would bring about, if its guard were kept. -/

/-- Log, index maps and commit index are the same. -/
def Untouched (s t : VariableState A) : Prop :=
  t.logs = s.logs ∧ t.role = s.role ∧ t.commitIndex = s.commitIndex

/-- Whenever a call of a node, on entering or in its round, changes log, index maps or commit index,
every other call has returned that had appended before.  This is what the lock is to bring about. -/
structure Serialised (servers : Finset A) (tr : List (Cluster A)) : Prop where
  entering : ∀ c' c tr₀, (c' :: c :: tr₀) <:+ tr → ∀ n texts d,
    c.step servers (.sendAppendEntries n texts d) = some c' →
    ¬Untouched (c.node n).state (c'.node n).state → ∀ rd ∈ (c.node n).rounds, rd.ret ≠ none
  running : ∀ c' c tr₀, (c' :: c :: tr₀) <:+ tr → ∀ n r, Moved c c' n r →
    ¬Untouched (c.node n).state (c'.node n).state →
    ∀ r' rd, (c.node n).rounds[r']? = some rd → r' ≠ r → rd.ret ≠ none

/-- The condition on a step: a call enters on a leader only when all calls before have returned. -/
def EntersAlone (tr : List (Cluster A)) : Action A → Prop
  | .sendAppendEntries n _ _ => ∀ c ∈ tr.head?, (c.node n).state.role.isLeader = true →
      ∀ rd ∈ (c.node n).rounds, rd.ret ≠ none
  | _ => True

instance (tr : List (Cluster A)) (a : Action A) : Decidable (EntersAlone tr a) := by
  rcases a <;> dsimp only [EntersAlone] <;> infer_instance

/-- At most one round of a node is open, and only its futures still have something to do. -/
structure RoundsAlone (servers : Finset A) (c : Cluster A) : Prop where
  asked : ∀ n (r : Nat) (rd : Round A) p, (c.node n).rounds[r]? = some rd →
    (rd.peers p).isWaiting = true → p ∈ servers
  done : ∀ n (r : Nat) (rd : Round A), (c.node n).rounds[r]? = some rd → rd.ret ≠ none →
    ∀ p ∈ servers, (rd.peers p).isDone = true
  one : ∀ n (r r' : Nat) (rd rd' : Round A), (c.node n).rounds[r]? = some rd →
    (c.node n).rounds[r']? = some rd' → rd.ret = none → rd'.ret = none → r = r'

/-- A round that is open after a step was open before it. -/
theorem RoundStep.ret_eq_none {n : A} {r : Nat} {rd rd' : Round A}
    (hstep : RoundStep servers c n r rd a rd') (hret : rd'.ret = none) : rd.ret = none := by
  rcases hstep.ret with heq | ⟨-, -, -, heq⟩
  · exact heq.symm.trans hret
  · rw [hret] at heq
    contradiction

/-- No round stands behind the one that a call appends. -/
theorem le_of_entered {n : A} {r : Nat} {rd : Round A} {texts : List String} {d : Disk A}
    (h : c.step servers (.sendAppendEntries n texts d) = some c')
    (hrd : (c'.node n).rounds[r]? = some rd) : r ≤ (c.node n).rounds.length := by
  have hlt := (List.getElem?_eq_some_iff.1 hrd).1
  obtain ⟨-, rfl⟩ | rfl := step_sendAppendEntries h
  · rw [Cluster.setNode_self, List.length_append] at hlt
    exact Nat.le_of_lt_succ hlt
  · rw [Cluster.setNode_self] at hlt
    exact Nat.le_of_lt hlt

/-- When a call enters, all rounds before have returned. -/
theorem returned_of_entersAlone {n : A} {r : Nat} {rd rd' : Round A} {texts : List String}
    {d : Disk A} (hc : EntersAlone (c :: tr) (.sendAppendEntries n texts d))
    (hok : (sendAppendEntriesAppend (c.node n).state texts d).2 = .ok ())
    (hrd : (c.node n).rounds[r]? = some rd)
    (hstep : RoundStep servers c n r rd (.sendAppendEntries n texts d) rd') : rd'.ret ≠ none := by
  have hret : rd.ret ≠ none := by
    rcases sendAppendEntriesAppend_cases (c.node n).state texts d with ⟨-, -, e, herr⟩ |
      ⟨hlead, -⟩
    · rw [hok] at herr
      contradiction
    · exact hc c rfl hlead rd (List.mem_of_getElem? hrd)
  exact fun hnone => hret (hstep.ret_eq_none hnone)

theorem RoundsAlone.step (hi : RoundsAlone servers c) (hc : EntersAlone (c :: tr) a)
    (h : c.step servers a = some c') : RoundsAlone servers c' := by
  refine ⟨fun n r rd' p hrd' hw => ?_, fun n r rd' hrd' hret p hp => ?_,
    fun n r r' rd₁ rd₂ hrd₁ hrd₂ h₁ h₂ => ?_⟩
  · rcases step_rounds h hrd' with ⟨_, _, -, -, -, -, rfl⟩ | ⟨rd, hrd, hstep⟩
    · contradiction
    · have hpeer := hstep.peers p
      generalize rd'.peers p = f at hpeer hw
      cases hpeer with
      | keep => exact hi.asked n r rd p hrd hw
      | start hidle =>
        obtain ⟨-, -, hp, -⟩ := step_sendRound h
        exact hp
      | _ => contradiction
  · rcases step_rounds h hrd' with ⟨_, _, -, -, -, -, rfl⟩ | ⟨rd, hrd, hstep⟩
    · contradiction
    · have hdone : (rd.peers p).isDone = true := by
        rcases hstep.ret with heq | ⟨-, -, hdone, -⟩
        · exact hi.done n r rd hrd (heq ▸ hret) p hp
        · exact hdone p hp
      rw [(hstep.peers p).eq_of_done hdone]
      exact hdone
  · rcases step_rounds h hrd₁ with ⟨_, _, rfl, hge₁, hok, -⟩ | ⟨rd, hrd, hstep⟩
    · rcases step_rounds h hrd₂ with ⟨_, _, -, hge₂, -⟩ | ⟨rd', hrd', hstep'⟩
      · -- both have just started, so both are the last one
        have hle₁ := le_of_entered h hrd₁
        have hle₂ := le_of_entered h hrd₂
        omega
      · exact absurd h₂ (returned_of_entersAlone hc hok hrd' hstep')
    · rcases step_rounds h hrd₂ with ⟨_, _, rfl, -, hok, -⟩ | ⟨rd', hrd', hstep'⟩
      · exact absurd h₁ (returned_of_entersAlone hc hok hrd hstep)
      · exact hi.one n r r' rd rd' hrd hrd' (hstep.ret_eq_none h₁) (hstep'.ret_eq_none h₂)

omit [DecidableEq A] in
theorem roundsAlone_init : RoundsAlone servers (Cluster.init : Cluster A) :=
  ⟨fun _ _ _ _ h => absurd h (by simp [Cluster.init]),
    fun _ _ _ h => absurd h (by simp [Cluster.init]),
    fun _ _ _ _ _ h => absurd h (by simp [Cluster.init])⟩

/-- A round that takes a step has not returned. -/
theorem RoundsAlone.open_of_byRound (hi : RoundsAlone servers c)
    (h : c.step servers a = some c') (hby : ByRound c n r a) :
    ∃ rd, (c.node n).rounds[r]? = some rd ∧ rd.ret = none := by
  obtain ⟨rd, hrd, hcases⟩ := step_byRound h hby
  refine ⟨rd, hrd, ?_⟩
  by_contra hret
  have hwaiting : ∀ {p : A} {req : AppendEntriesRequest}, rd.peers p ≠ .waiting req := by
    intro p req hw
    have hp := hi.asked n r rd p hrd (by rw [hw, Future.isWaiting_waiting])
    have hdone := hi.done n r rd hrd hret p hp
    rw [hw] at hdone
    contradiction
  rcases hcases with ⟨p, -, hp, hidle, -⟩ | ⟨_, _, _, _, -, -, -, -, hw, -⟩ | ⟨_, _, -, hw, -⟩ |
    ⟨-, hnone, -⟩
  · have hdone := hi.done n r rd hrd hret p hp
    rw [hidle] at hdone
    contradiction
  · exact hwaiting hw
  · exact hwaiting hw
  · exact hret hnone

/-- A call that touches its node on entering has found it leader, and has appended. -/
theorem entered_of_touched {texts : List String} {d : Disk A}
    (h : c.step servers (.sendAppendEntries n texts d) = some c')
    (htouched : ¬Untouched (c.node n).state (c'.node n).state) :
    (c.node n).state.role.isLeader = true ∧ (c'.node n).state.role = (c.node n).state.role ∧
      (c'.node n).state.logs ≠ (c.node n).state.logs := by
  have hstate : (c'.node n).state = (sendAppendEntriesAppend (c.node n).state texts d).1 := by
    obtain ⟨-, rfl⟩ | rfl := step_sendAppendEntries h
    · rw [Cluster.setNode_self]
    · rw [Cluster.setNode_self]
  rcases sendAppendEntriesAppend_cases (c.node n).state texts d with ⟨-, hsame, -⟩ |
    ⟨hlead, file, heq⟩
  · rw [hstate, hsame] at htouched
    exact absurd ⟨rfl, rfl, rfl⟩ htouched
  · rw [hstate, heq] at htouched ⊢
    exact ⟨hlead, rfl, fun hlogs => htouched ⟨hlogs, rfl, rfl⟩⟩

/-- **Calls that enter one at a time are serialised.** -/
theorem serialised (h : Run (Cluster.step servers) EntersAlone Cluster.init tr) :
    Serialised servers tr := by
  have halone : ∀ c ∈ tr, RoundsAlone servers c := h.forall_mem roundsAlone_init
    fun _ _ _ _ _ hc hi hs => hi.step hc hs
  refine ⟨fun c' c tr₀ hsuf n texts d hs htouched rd hrd => ?_,
    fun c' c tr₀ hsuf n r hmoved _ r' rd hrd hne hret => ?_⟩
  · obtain ⟨hlead, hrole, hlogs⟩ := entered_of_touched hs htouched
    have hrun := h.of_suffix hsuf (List.cons_ne_nil _ _)
    cases hrun with
    | @step _ _ _ a _ hc hs' =>
      -- on a leader nothing else writes to the log
      rcases (step_effect hs' n).logs with hsame | ⟨_, _, rfl, -⟩ | ⟨_, _, _, _, -, -, -, hst⟩
      · exact absurd hsame hlogs
      · exact hc c rfl hlead rd hrd
      · rw [← hrole, hst.role] at hlead
        contradiction
  · have hrun := h.of_suffix hsuf (List.cons_ne_nil _ _)
    cases hrun with
    | @step _ _ _ a _ _ hs =>
      have hi := halone c (hsuf.subset (by simp))
      obtain ⟨rd₀, hrd₀, hopen⟩ := hi.open_of_byRound hs (hmoved.byRound hs)
      exact hne (hi.one n r' r rd rd₀ hrd hrd₀ hret hopen)

/-- Node 0 of two is elected by both. -/
def electFirst : List (Action (Fin 2)) :=
  [.openElection 0 .ok, .askVote 0 0, .askVote 0 1, .requestVote 0 .ok .ok, .voteReply 0,
    .countVotes 0 .ok]

/-- A `post_log` after a heartbeat has timed out. -/
theorem serialised_two_calls : ∃ tr : List (Cluster (Fin 2)), Serialised {0, 1} tr ∧
    ∃ c ∈ tr, (c.node 0).rounds.length = 2 := by
  have hcheck : Run.check (Cluster.step ({0, 1} : Finset (Fin 2)))
      (fun tr a => decide (EntersAlone tr a)) Cluster.init
      (electFirst ++ [.sendAppendEntries 0 [] .ok, .sendRound 0 0 0, .sendRound 0 0 1,
        .appendError 0 0 1, .closeRound 0 0, .sendAppendEntries 0 ["a"] .ok])
      (fun tr => decide (∃ c ∈ tr, (c.node 0).rounds.length = 2)) = true := by
    decide +kernel
  obtain ⟨tr, hrun, hp⟩ := Run.exists_of_check (fun _ _ hc => of_decide_eq_true hc) hcheck
  exact ⟨tr, serialised hrun, of_decide_eq_true hp⟩

/-- **A `post_log` appends while a heartbeat is out.** -/
theorem not_serialised : ∃ tr : List (Cluster (Fin 2)),
    Run (Cluster.step {0, 1}) (fun _ _ => True) Cluster.init tr ∧ ¬Serialised {0, 1} tr := by
  have hcheck : Run.checkStep (Cluster.step ({0, 1} : Finset (Fin 2))) (fun _ _ => true)
      Cluster.init (electFirst ++ [.sendAppendEntries 0 [] .ok, .sendRound 0 0 1])
      (.sendAppendEntries 0 ["a"] .ok)
      (fun s' s _ => decide ((s'.node 0).state.logs ≠ (s.node 0).state.logs ∧
        ∃ rd ∈ (s.node 0).rounds, rd.ret = none)) = true := by
    decide +kernel
  obtain ⟨s', s, tr, hrun, hs, hp⟩ :=
    Run.exists_of_checkStep (C := fun _ _ => True) (fun _ _ _ => trivial) hcheck
  obtain ⟨hlogs, rd, hrd, hopen⟩ := of_decide_eq_true hp
  refine ⟨_, hrun, fun hserial => ?_⟩
  exact hserial.entering s' s tr List.suffix_rfl 0 _ _ hs (fun h => hlogs h.1) rd hrd hopen

/-! ## A round after a deposition

What the three tests of the role do not bring about. -/

/-- At some moment of the round `r` of `n` the node did not lead the term of the round.  It may lead
again by now, a later term. -/
def Left (tr : List (Cluster A)) (n : A) (r : Nat) : Prop :=
  ∃ s ∈ tr, ∃ rd ∈ (s.node n).rounds[r]?, ¬Leads s n rd.term

instance (tr : List (Cluster A)) (n : A) (r : Nat) : Decidable (Left tr n r) := by
  unfold Left; infer_instance

/-- A round whose node has left its leadership has no effect. -/
structure DeposedInert (tr : List (Cluster A)) : Prop where
  /-- Its steps change neither the commit index nor the index maps, whoever leads by then. -/
  steps : ∀ c' c tr₀, (c' :: c :: tr₀) <:+ tr → ∀ n r, Moved c c' n r → Left (c :: tr₀) n r →
    (c'.node n).state.commitIndex = (c.node n).state.commitIndex ∧
      (c'.node n).state.role = (c.node n).state.role
  /-- A round that has returned `Ok(true)` was led as long as it was open. -/
  returned : ∀ c tr₀, (c :: tr₀) <:+ tr → ∀ n (r : Nat) (rd : Round A),
    (c.node n).rounds[r]? = some rd → rd.ret = some true →
    ∀ s ∈ tr₀, ∀ rd₀ ∈ (s.node n).rounds[r]?, rd₀.ret = none → Leads s n rd₀.term

/-- Of no open round of the node have futures for a majority ended with `Ok(true)`. -/
def OpenMinorities (servers : Finset A) (x : Node A) : Prop :=
  ∀ rd ∈ x.rounds, rd.ret = none → ¬countTrue servers rd.peers * 2 > servers.card

/-- A request of term `T` deposes the node only if its open rounds have no majorities yet.  A round
that has one commits when it returns, although its node follows somebody else by then. -/
def DeposesEarly (servers : Finset A) (x : Node A) (T : Nat) : Prop :=
  x.state.role.isLeader = true → x.state.currentTerm < T → OpenMinorities servers x

/-- The condition on a step: once a node has left the leadership of a round, no future of the round
starts and no reply reaches one; and a leader is not deposed while a majority of an open round has
succeeded. -/
def QuietAfterLeaving (servers : Finset A) (tr : List (Cluster A)) : Action A → Prop
  | .sendRound n r _ => ¬Left tr n r
  | .appendReply k => ∀ c ∈ tr.head?, ∀ m ∈ c.appendReplies[k]?, ¬Left tr m.1.caller m.1.round
  | .requestVote k _ _ => ∀ c ∈ tr.head?, ∀ call ∈ c.voteCalls[k]?,
      DeposesEarly servers (c.node call.callee) call.req.term
  | .appendEntries k _ _ => ∀ c ∈ tr.head?, ∀ call ∈ c.appendCalls[k]?,
      DeposesEarly servers (c.node call.callee) call.req.term
  | _ => True

instance (x : Node A) (T : Nat) : Decidable (DeposesEarly servers x T) := by
  unfold DeposesEarly OpenMinorities; infer_instance

instance (tr : List (Cluster A)) (a : Action A) : Decidable (QuietAfterLeaving servers tr a) := by
  rcases a <;> dsimp only [QuietAfterLeaving] <;> infer_instance

omit [DecidableEq A] in
theorem countTrue_mono {Req : Type} {f g : A → Future Req}
    (h : ∀ p, (f p).succeeded = true → (g p).succeeded = true) :
    countTrue servers f ≤ countTrue servers g :=
  Finset.card_le_card (Finset.monotone_filter_right _ fun p _ hp => h p hp)

/-- No future of a round succeeds in a step that neither starts one nor brings a reply to one. -/
theorem succeeded_of_quiet {rd : Round A} {p : A} {f : Future AppendEntriesRequest}
    (h : PeerStep c n r rd p a f) (hstart : a ≠ .sendRound n r p)
    (hreply : ∀ k m, a = .appendReply k → c.appendReplies[k]? = some m → m.1.caller = n →
      m.1.round ≠ r) (hf : f.succeeded = true) : (rd.peers p).succeeded = true := by
  cases h with
  | keep => exact hf
  | start => exact absurd rfl hstart
  | error => contradiction
  | reply _ hk hcaller hround _ => exact absurd hround (hreply _ _ rfl hk hcaller)

/-- **The successes of a round that was left stay a minority.**  The induction is on the run: when
the round is left they are one, and from then on none is added. -/
theorem minority_of_left
    (h : Run (Cluster.step servers) (QuietAfterLeaving servers) Cluster.init (c :: tr))
    {rd : Round A} : (c.node n).rounds[r]? = some rd → rd.ret = none → Left (c :: tr) n r →
      ¬countTrue servers rd.peers * 2 > servers.card := by
  refine Run.head_induction (P := fun c tr => ∀ {rd : Round A}, (c.node n).rounds[r]? = some rd →
    rd.ret = none → Left (c :: tr) n r → ¬countTrue servers rd.peers * 2 > servers.card) ?_ ?_ h
  · intro rd hrd
    simp [Cluster.init] at hrd
  · intro c tr a c' _ hc hs ih rd' hrd' hopen hleft
    rcases step_rounds hs hrd' with ⟨_, _, -, -, -, -, rfl⟩ | ⟨rd, hrd, hstep⟩
    · simp [countTrue, Future.succeeded]
    have hret : rd.ret = none := by
      rcases hstep.ret with heq | ⟨-, hret, -, -⟩
      · exact heq ▸ hopen
      · exact hret
    by_cases hbefore : Left (c :: tr) n r
    · -- nothing succeeds any more
      have hmono : countTrue servers rd'.peers ≤ countTrue servers rd.peers := by
        refine countTrue_mono fun p => succeeded_of_quiet (hstep.peers p) ?_ ?_
        · rintro rfl
          exact hc hbefore
        · rintro k m rfl hk rfl rfl
          exact hc c rfl m hk hbefore
      have hold := ih hrd hret hbefore
      omega
    · -- it is left in this step
      have hlead : Leads c n rd.term := by
        by_contra hnot
        exact hbefore ⟨c, by simp, rd, hrd, hnot⟩
      have hnot : ¬Leads c' n rd.term := by
        obtain ⟨s, hmem, rd₀, hrd₀, hnot⟩ := hleft
        rcases List.mem_cons.1 hmem with rfl | hmem
        · obtain ⟨⟩ := hrd'.symm.trans hrd₀
          exact hstep.term ▸ hnot
        · exact absurd ⟨s, hmem, rd₀, hrd₀, hnot⟩ hbefore
      have hmem : rd ∈ (c.node n).rounds := List.mem_of_getElem? hrd
      rcases (step_effect hs n).leader_term hlead.1 with hterm |
        ⟨k, d₁, d₂, call, rfl, hk, rfl, hlt⟩ | ⟨k, d₁, d₂, call, rfl, hk, rfl, hlt⟩
      · exact absurd ⟨(step_effect hs n).leader_stays hlead.1 hterm, hterm.trans hlead.2⟩ hnot
      all_goals
        have hmin := hc c rfl call hk hlead.1 hlt rd hmem hret
        have hmono : countTrue servers rd'.peers ≤ countTrue servers rd.peers :=
          countTrue_mono fun p => succeeded_of_quiet (hstep.peers p) (by simp) (by simp)
        omega

/-- **A deposed leader's round has no effect**, where nothing reaches its futures any more and it
had no majority when the leader was deposed. -/
theorem deposed_inert
    (h : Run (Cluster.step servers) (QuietAfterLeaving servers) Cluster.init tr) :
    DeposedInert tr := by
  refine ⟨fun c' c tr₀ hsuf n r hmoved hleft => ?_, fun c tr₀ hsuf n r rd hrd hret => ?_⟩
  · have hrun := h.of_suffix hsuf (List.cons_ne_nil _ _)
    cases hrun with
    | @step _ _ _ a _ hc hs =>
      obtain ⟨rd, hrd, ⟨p, rfl, -, -, -⟩ | ⟨k, call, res, req, rfl, hk, rfl, rfl, -, -⟩ |
        ⟨p, req, rfl, -, heq⟩ | ⟨rfl, hret, heq⟩⟩ := step_byRound hs (hmoved.byRound hs)
      · exact absurd hleft hc
      · exact absurd hleft (hc c rfl (call, res) hk)
      · rw [heq]
        exact ⟨rfl, rfl⟩
      · have hrun' := h.of_suffix ((List.suffix_cons _ _).trans hsuf) (List.cons_ne_nil _ _)
        rw [heq, sendAppendEntriesCommit, if_neg (minority_of_left hrun' hrd hret hleft)]
        exact ⟨rfl, rfl⟩
  · have hrun := h.of_suffix hsuf (List.cons_ne_nil _ _)
    refine Run.head_induction (P := fun c tr => ∀ rd : Round A, (c.node n).rounds[r]? = some rd →
      rd.ret = some true → ∀ s ∈ tr, ∀ rd₀ ∈ (s.node n).rounds[r]?, rd₀.ret = none →
      Leads s n rd₀.term) ?_ ?_ hrun rd hrd hret
    · intro _ _ _ s hmem
      exact absurd hmem List.not_mem_nil
    · intro c tr a c' hrun' _ hs ih rd' hrd' hret s hmem rd₀ hrd₀ hopen
      rcases step_rounds hs hrd' with ⟨_, _, -, -, -, -, rfl⟩ | ⟨rd, hrd, hstep⟩
      · contradiction
      rcases hstep.ret with heq | ⟨rfl, hnone, -, heq⟩
      · rcases List.mem_cons.1 hmem with rfl | hmem
        · obtain ⟨⟩ := hrd.symm.trans hrd₀
          rw [← heq, hret] at hopen
          contradiction
        · exact ih rd hrd (heq.symm.trans hret) s hmem rd₀ hrd₀ hopen
      · -- the step in which it returned: had it been left, there would be no majority
        by_contra hnot
        rw [hret, Option.some.injEq] at heq
        exact minority_of_left hrun' hrd hnone ⟨s, hmem, rd₀, hrd₀, hnot⟩
          (of_decide_eq_true heq.symm)

/-- Node 1 makes node 0 step down while its request is on the way; the request times out. -/
theorem deposed_inert_timeout : ∃ tr : List (Cluster (Fin 2)), DeposedInert tr ∧ Left tr 0 0 := by
  have hcheck : Run.check (Cluster.step ({0, 1} : Finset (Fin 2)))
      (fun tr a => decide (QuietAfterLeaving {0, 1} tr a)) Cluster.init
      (electFirst ++ [.sendAppendEntries 0 ["a"] .ok, .sendRound 0 0 0, .sendRound 0 0 1,
        .openElection 1 .ok, .askVote 1 0, .requestVote 0 .ok .ok, .appendError 0 0 1,
        .closeRound 0 0])
      (fun tr => decide (Left tr 0 0)) = true := by
    decide +kernel
  obtain ⟨tr, hrun, hp⟩ := Run.exists_of_check (fun _ _ hc => of_decide_eq_true hc) hcheck
  exact ⟨tr, deposed_inert hrun, of_decide_eq_true hp⟩

/-- **A deposed leader acknowledges an entry** that it has sent to nobody. -/
theorem not_deposed_inert : ∃ tr : List (Cluster (Fin 2)),
    Run (Cluster.step {0, 1}) (fun _ _ => True) Cluster.init tr ∧ ¬DeposedInert tr := by
  have hcheck : Run.checkStep (Cluster.step ({0, 1} : Finset (Fin 2))) (fun _ _ => true)
      Cluster.init
      (electFirst ++ [.sendAppendEntries 0 ["a"] .ok, .sendRound 0 0 0,
        .openElection 1 .ok, .askVote 1 0, .requestVote 0 .ok .ok, .sendRound 0 0 1])
      (.closeRound 0 0)
      (fun s' s _ => decide ((∃ rd ∈ (s'.node 0).rounds[0]?, rd.ret = some true) ∧
        ∃ rd ∈ (s.node 0).rounds[0]?, rd.ret = none ∧ ¬Leads s 0 rd.term)) = true := by
    decide +kernel
  obtain ⟨s', s, tr, hrun, -, hp⟩ :=
    Run.exists_of_checkStep (C := fun _ _ => True) (fun _ _ _ => trivial) hcheck
  obtain ⟨⟨rd, hrd, hret⟩, rd₀, hrd₀, hopen, hnot⟩ := of_decide_eq_true hp
  refine ⟨_, hrun, fun hinert => hnot ?_⟩
  exact hinert.returned s' (s :: tr) List.suffix_rfl 0 0 rd hrd hret s (by simp) rd₀ hrd₀ hopen

end Raft
end DistributedPrograms
