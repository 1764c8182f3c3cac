import DistributedPrograms.Raft.Acknowledged
import DistributedPrograms.Raft.CommitRule

/-!
# State machine safety

What `get_log` returns as committed, at whatever nodes and moments, are prefixes of one list.  On
top of what leader completeness asks for, a call that raises the commit index must be the leader's
own (`CloseIsCurrent`, from the commit rule), and the log that it commits must not end with an entry
of an older term (`CommitsOwnTerm`): such an entry can be on a majority and still be overwritten by
a later leader.  A call that finds everything committed already, as the heartbeats of a leader at
rest do, needs neither.

The code looks at none of this.  A deposed leader commits whatever its log is, and then two nodes
report different entries as committed (`committed_logs_diverge`).

The argument is in two parts.  Everything that is committed by rule has been taken over by a
majority from a leader (`Chosen`), and such lists are comparable (`committed_comparable`).  And the
commit index of every node stays within one of them (`commitBacked`).
-/

set_option autoImplicit false

namespace DistributedPrograms
namespace Raft

variable {A : Type} [DecidableEq A] {servers : Finset A} {c c' : Cluster A}
  {tr : List (Cluster A)}

open VariableState

/-- Of the committed lists that `get_log` returns on two nodes at two moments, one is a prefix of
the other. -/
def StateMachineSafe (tr : List (Cluster A)) : Prop :=
  ∀ s ∈ tr, ∀ s' ∈ tr, ∀ n m,
    Comparable (getLog (s.node n).state).commited (getLog (s'.node m).state).commited

/-- The call moves the commit index of its node forward, if it moves it at all. -/
def RaisesCommit (tr : List (Cluster A)) : Action A → Prop
  | .closeRound n _ => ∀ c ∈ tr.head?,
      (c.node n).state.commitIndex < (c.node n).state.logs.length - 1
  | _ => True

instance (tr : List (Cluster A)) (a : Action A) : Decidable (RaisesCommit tr a) := by
  rcases a <;> dsimp only [RaisesCommit] <;> infer_instance

/-- A call commits a log only when its last entry is of the node's own term.  An older one may be on
a majority and be overwritten yet, by a leader who has been elected by the others. -/
def CommitsOwnTerm (servers : Finset A) (tr : List (Cluster A)) : Action A → Prop
  | .closeRound n r => ∀ c ∈ tr.head?, ∀ rd ∈ (c.node n).rounds[r]?,
      countTrue servers rd.peers * 2 > servers.card →
        lastLogTerm (c.node n).state.logs = (c.node n).state.currentTerm
  | _ => True

instance (tr : List (Cluster A)) (a : Action A) : Decidable (CommitsOwnTerm servers tr a) := by
  rcases a <;> dsimp only [CommitsOwnTerm] <;> infer_instance

/-- The conditions of state machine safety: those of leader completeness, and for a call that raises
the commit index also that it is the leader's own and commits an entry of its term. -/
def SafetyCond (servers : Finset A) (tr : List (Cluster A)) (a : Action A) : Prop :=
  CompletenessCond tr a ∧
    (RaisesCommit tr a → CloseIsCurrent servers tr a ∧ CommitsOwnTerm servers tr a)

instance [Fintype A] (tr : List (Cluster A)) (a : Action A) :
    Decidable (SafetyCond servers tr a) := by
  unfold SafetyCond; infer_instance

/-! ## Committed lists

What is committed by rule, apart from who knows of it. -/

/-- The first entry alone, or what a majority has taken over from a leader.  All logs begin with the
first entry, so nobody has to send it. -/
def Committed (servers : Finset A) (tr : List (Cluster A)) (T : Nat) (P : List Log) : Prop :=
  (T = 0 ∧ P = [initLog]) ∨ Chosen servers tr T P

omit [DecidableEq A] in
theorem Committed.mono {tr' : List (Cluster A)} {T : Nat} {P : List Log}
    (h : Committed servers tr T P) (hsub : tr ⊆ tr') : Committed servers tr' T P :=
  h.imp_right fun h => h.mono hsub

/-- The node has everything up to its commit index, and that is the beginning of a committed list of
a term the node has reached. -/
def CommitBacked (servers : Finset A) (tr : List (Cluster A)) (s : VariableState A) : Prop :=
  ∃ T P, Committed servers tr T P ∧ T ≤ s.currentTerm ∧ s.commitIndex < P.length ∧
    P.take (s.commitIndex + 1) <+: s.logs

omit [DecidableEq A] in
theorem CommitBacked.mono {tr' : List (Cluster A)} {s : VariableState A}
    (h : CommitBacked servers tr s) (hsub : tr ⊆ tr') : CommitBacked servers tr' s := by
  obtain ⟨T, P, hP, h⟩ := h
  exact ⟨T, P, hP.mono hsub, h⟩

omit [DecidableEq A] in
/-- A backed commit index stays so when the term and the log grow. -/
theorem CommitBacked.grow {s t : VariableState A} (h : CommitBacked servers tr s)
    (hterm : s.currentTerm ≤ t.currentTerm) (hlogs : s.logs <+: t.logs)
    (hcommit : t.commitIndex = s.commitIndex) : CommitBacked servers tr t := by
  obtain ⟨T, P, hP, hT, hlt, hpre⟩ := h
  rw [CommitBacked, hcommit]
  exact ⟨T, P, hP, Nat.le_trans hT hterm, hlt, hpre.trans hlogs⟩

omit [DecidableEq A] in
/-- A backed commit index is within the log. -/
theorem CommitBacked.commitIndex_lt {s : VariableState A} (h : CommitBacked servers tr s) :
    s.commitIndex < s.logs.length := by
  obtain ⟨T, P, -, -, hlt, hpre⟩ := h
  have hle := hpre.length_le
  rw [List.length_take] at hle
  omega

omit [DecidableEq A] in
/-- What `get_log` returns as committed is a prefix of a committed list. -/
theorem CommitBacked.commited {s : VariableState A} (h : CommitBacked servers tr s) :
    ∃ T P, Committed servers tr T P ∧ (getLog s).commited <+: P := by
  obtain ⟨T, P, hP, -, hlt, hpre⟩ := h
  refine ⟨T, P, hP, ?_⟩
  have hlen : (P.take (s.commitIndex + 1)).length = s.commitIndex + 1 := by
    rw [List.length_take]
    omega
  have hle := hpre.length_le
  have htake := take_eq_of_isPrefix hpre
  rw [hlen] at hle htake
  rw [getLog, if_pos hle, htake]
  exact List.take_prefix _ _

section Run

variable {C : List (Cluster A) → Action A → Prop}

/-- Committed lists are comparable. -/
theorem committed_comparable (hW : ∀ tr a, C tr a → NoTermWrap tr a)
    (hV : ∀ tr a, C tr a → VoteOnce tr a) (hE : ∀ tr a, C tr a → InsertsAtEnd tr a)
    (hF : ∀ tr a, C tr a → VoteIsFresh tr a) (hK : ∀ tr a, C tr a → KeepsLeadersEntries tr a)
    (h : Run (Cluster.step servers) C Cluster.init tr) {T T' : Nat} {P P' : List Log}
    (hP : Committed servers tr T P) (hP' : Committed servers tr T' P') : Comparable P P' := by
  have hinit : ∀ {T P}, Chosen servers tr T P → [initLog] <+: P := by
    intro T P hP
    obtain ⟨n, L, ⟨s, hs, -, rfl⟩, hPL⟩ := hP.led
    have hpos := List.length_pos_of_ne_nil hP.ne_nil
    exact (comparable_of_isPrefix (initLog_isPrefix h s hs n) hPL).prefix_of_length_le hpos
  -- the list of the older term is in the log of the leader of the newer
  have hlt : ∀ {T T' P P'}, T < T' → Chosen servers tr T P → Chosen servers tr T' P' →
      Comparable P P' := by
    intro T T' P P' hT hP hP'
    obtain ⟨n, L, hL, hPL⟩ := hP'.led
    exact comparable_of_isPrefix (chosen_isPrefix hW hV hE hF hK h hP T' hT n L hL) hPL
  rcases hP with ⟨-, rfl⟩ | hP
  · rcases hP' with ⟨-, rfl⟩ | hP'
    · exact Or.inl (List.prefix_refl _)
    · exact Or.inl (hinit hP')
  rcases hP' with ⟨-, rfl⟩ | hP'
  · exact Or.inr (hinit hP)
  rcases Nat.lt_trichotomy T T' with hT | rfl | hT
  · exact hlt hT hP hP'
  · obtain ⟨n, L, hL, hPL⟩ := hP.led
    obtain ⟨m, L', hL', hPL'⟩ := hP'.led
    exact (led_comparable' hW hV h hL hL').of_isPrefix hPL hPL'
  · exact (hlt hT hP' hP).symm

/-- The list a call commits is chosen. -/
theorem chosen_of_close (hW : ∀ tr a, C tr a → NoTermWrap tr a)
    (hV : ∀ tr a, C tr a → VoteOnce tr a) (hE : ∀ tr a, C tr a → InsertsAtEnd tr a)
    (h : Run (Cluster.step servers) C Cluster.init (c :: tr)) {n : A} {r : Nat} {rd : Round A}
    (hclose : CloseIsCurrent servers (c :: tr) (.closeRound n r))
    (hown : CommitsOwnTerm servers (c :: tr) (.closeRound n r))
    (hrd : (c.node n).rounds[r]? = some rd)
    (hmaj : countTrue servers rd.peers * 2 > servers.card) :
    Chosen servers (c :: tr) (c.node n).state.currentTerm (c.node n).state.logs := by
  obtain ⟨hl, Q, hQ, hcard, -, hheld⟩ := close_quorum hW hV hE h hclose hrd hmaj
  have hpos := logs_length_pos h (s := c) (by simp) n
  rw [hl.2]
  refine ⟨List.ne_nil_of_length_pos hpos, ?_, ⟨n, _, ⟨c, by simp, hl, rfl⟩, List.prefix_refl _⟩,
    Q, hQ, hcard, fun p hp => ?_⟩
  · rw [hown c (by simp) rd (by simp [hrd]) hmaj, hl.2]
  · obtain ⟨s, hs, -, hterm, hpre⟩ := hheld p hp
    exact ⟨s, hs, hterm, hpre⟩

/-- **Commit indices are backed**, at every node and moment: by the call that raised the index of a
leader, and by the leader's request for the others. -/
theorem commitBacked (hW : ∀ tr a, C tr a → NoTermWrap tr a)
    (hV : ∀ tr a, C tr a → VoteOnce tr a) (hE : ∀ tr a, C tr a → InsertsAtEnd tr a)
    (hF : ∀ tr a, C tr a → VoteIsFresh tr a) (hK : ∀ tr a, C tr a → KeepsLeadersEntries tr a)
    (hR : ∀ tr a, C tr a → RaisesCommit tr a →
      CloseIsCurrent servers tr a ∧ CommitsOwnTerm servers tr a)
    (h : Run (Cluster.step servers) C Cluster.init tr) :
    ∀ s ∈ tr, ∀ v, CommitBacked servers tr (s.node v).state := by
  induction h with
  | init =>
    intro s hs v
    rw [List.mem_singleton] at hs
    subst hs
    exact ⟨0, [initLog], Or.inl ⟨rfl, rfl⟩, Nat.le_refl _, Nat.one_pos, List.prefix_refl _⟩
  | @step c c' tr a hrun hc hs ih =>
    have hsub : c :: tr ⊆ c' :: c :: tr := List.subset_cons_self _ _
    intro s hmem v
    rcases List.mem_cons.1 hmem with rfl | hmem
    swap
    · exact (ih s hmem v).mono hsub
    refine CommitBacked.mono ?_ hsub
    have hterm := (step_effect hs v).term_le (hW _ _ hc)
    have hold := ih c (by simp) v
    -- an accepted request: the log is now the one its leader had
    have hstored : ∀ {k d₁ d₂ call}, a = .appendEntries k d₁ d₂ → c.appendCalls[k]? = some call →
        call.callee = v → Stored (c.node v).state call.req (s.node v).state →
        CommitBacked servers (c :: tr) (s.node v).state := by
      rintro k d₁ d₂ call rfl hk rfl hst
      obtain ⟨s₀, hs₀, hl₀, hfrom, hci, heq⟩ :=
        stored_log hW hV hrun (soundLog_run hW hV hE hrun) (hE _ _ hc) hk hst
      rw [CommitBacked, hst.commitIndex, heq, hst.term]
      rw [hst.term] at hterm
      split
      · -- the leader's commit index
        obtain ⟨T, P, hP, hT, hlt, hpre⟩ := ih s₀ hs₀ call.caller
        rw [← hci] at hlt hpre
        rw [hl₀.2] at hT
        refine ⟨T, P, hP, hT, by omega, ?_⟩
        exact (List.take_prefix_take_left (by omega)).trans hpre
      · -- the own commit index: the leader has what it covers
        obtain ⟨T, P, hP, hT, hlt, hpre⟩ := hold
        refine ⟨T, P, hP, Nat.le_trans hT hterm, hlt, ?_⟩
        have hL₀ : Led (c :: tr) call.caller call.req.term (s₀.node call.caller).state.logs :=
          ⟨s₀, hs₀, hl₀, rfl⟩
        rcases hP with ⟨-, rfl⟩ | hP
        · exact (List.take_prefix _ _).trans (initLog_isPrefix hrun s₀ hs₀ call.caller)
        rcases Nat.lt_or_eq_of_le (Nat.le_trans hT hterm) with hlt | rfl
        · exact (List.take_prefix _ _).trans
            (chosen_isPrefix hW hV hE hF hK hrun hP _ hlt _ _ hL₀)
        · obtain ⟨n, L, hL, hPL⟩ := hP.led
          refine prefix_of_same_term (led_comparable hW hV hrun hL₀ hL)
            ((List.take_prefix _ _).trans hPL) hpre hfrom ?_ ?_
          · exact fun hne => hE _ _ hc c (by simp) call (by simp [hk]) hst.accepts hne
          · exact fun hnil e he =>
              hK _ _ hc c (by simp) call (by simp [hk]) hst.accepts hnil e (by simp [he])
    rcases (step_effect hs v).commitIndex with hci | ⟨r, rd, rfl, hrd, -, hmaj, heq⟩ |
      ⟨k, d₁, d₂, call, ha, hk, hv, hst⟩
    · rcases (step_effect hs v).logs with hl | ⟨texts, d, -, -, -, -, hl⟩ |
        ⟨k, d₁, d₂, call, ha, hk, hv, hst⟩
      · exact hold.grow hterm (hl ▸ List.prefix_refl _) hci
      · exact hold.grow hterm (hl ▸ List.prefix_append _ _) hci
      · exact hstored ha hk hv hst
    · rw [heq]
      by_cases hraise : (c.node v).state.commitIndex < (c.node v).state.logs.length - 1
      · have hpos := logs_length_pos hrun (s := c) (by simp) v
        obtain ⟨hclose, hown⟩ := hR _ _ hc (fun _ h => Option.some.inj h ▸ hraise)
        exact ⟨_, _, Or.inr (chosen_of_close hW hV hE hrun hclose hown hrd hmaj),
          Nat.le_refl _, Nat.sub_lt hpos Nat.one_pos, List.take_prefix _ _⟩
      · -- everything is committed already
        have hle := hold.commitIndex_lt
        have hsame : (c.node v).state.logs.length - 1 = (c.node v).state.commitIndex := by omega
        rw [CommitBacked, hsame]
        exact hold
    · exact hstored ha hk hv hst

end Run

/-- **State machine safety.**  As long as votes are given once and to fresh logs, followers only
append and keep what they have from the current leader, and a call that raises the commit index does
so in its own leadership, for the log its requests were about, ending in its own term, all committed
lists are comparable. -/
theorem state_machine_safety
    (h : Run (Cluster.step servers) (SafetyCond servers) Cluster.init tr) :
    StateMachineSafe tr := by
  have hbacked := commitBacked (fun _ _ hc => hc.1.1.1) (fun _ _ hc => hc.1.1.2.1)
    (fun _ _ hc => hc.1.1.2.2) (fun _ _ hc => hc.1.2.1) (fun _ _ hc => hc.1.2.2)
    (fun _ _ hc => hc.2) h
  intro s hs s' hs' n m
  obtain ⟨T, P, hP, hpre⟩ := (hbacked s hs n).commited
  obtain ⟨T', P', hP', hpre'⟩ := (hbacked s' hs' m).commited
  have hcomp := committed_comparable (fun _ _ hc => hc.1.1.1) (fun _ _ hc => hc.1.1.2.1)
    (fun _ _ hc => hc.1.1.2.2) (fun _ _ hc => hc.1.2.1) (fun _ _ hc => hc.1.2.2) h hP hP'
  exact hcomp.of_isPrefix hpre hpre'

/-- A run of three nodes within the conditions: the first heartbeat of leader 0 is acknowledged, it
commits an entry, and a heartbeat tells node 1 so. -/
theorem state_machine_safety_three :
    ∃ tr : List (Cluster (Fin 3)), StateMachineSafe tr ∧
      ∃ s ∈ tr, (getLog (s.node 1).state).commited = [initLog, ⟨"a", 1⟩] := by
  have hcheck : Run.check (Cluster.step (Finset.univ : Finset (Fin 3)))
      (fun tr a => decide (SafetyCond Finset.univ tr a)) Cluster.init
      [.openElection 0 .ok, .askVote 0 0, .askVote 0 2, .requestVote 0 .ok .ok, .voteReply 0,
        .askVote 0 1, .voteError 0 1, .countVotes 0 .ok,
        .sendAppendEntries 0 [] .ok, .sendRound 0 0 0, .sendRound 0 0 1, .sendRound 0 0 2,
        .appendEntries 1 .ok .ok, .appendReply 0, .appendError 0 0 2, .closeRound 0 0,
        .sendAppendEntries 0 ["a"] .ok, .sendRound 0 1 0, .sendRound 0 1 1, .sendRound 0 1 2,
        .appendEntries 1 .ok .ok, .appendReply 0, .appendError 0 1 2, .closeRound 0 1,
        .sendAppendEntries 0 [] .ok, .sendRound 0 2 1, .appendEntries 0 .ok .ok]
      (fun tr => decide (∃ s ∈ tr,
        (getLog (s.node 1).state).commited = [initLog, ⟨"a", 1⟩])) = true := by
    decide +kernel
  obtain ⟨tr, hrun, hp⟩ := Run.exists_of_check (fun _ _ hc => of_decide_eq_true hc) hcheck
  exact ⟨tr, state_machine_safety hrun, of_decide_eq_true hp⟩

/-- **Committed logs diverge.**  Leader 0 has appended `a` and loses its leadership; its call ends
with `Ok(true)` all the same and commits `a` on node 0.  Node 1, leader of the next term, appends
and commits `b` at the same index. -/
theorem committed_logs_diverge :
    ∃ tr : List (Cluster (Fin 3)), Run (Cluster.step Finset.univ) (fun _ _ => True)
      Cluster.init tr ∧ ¬StateMachineSafe tr := by
  have hcheck : Run.check (Cluster.step (Finset.univ : Finset (Fin 3))) (fun _ _ => true)
      Cluster.init
      [.openElection 0 .ok, .askVote 0 0, .askVote 0 1, .requestVote 0 .ok .ok, .voteReply 0,
        .askVote 0 2, .requestVote 0 .ok .ok, .voteReply 0, .countVotes 0 .ok,
        .sendAppendEntries 0 ["a"] .ok,
        .openElection 1 .ok, .askVote 1 1, .askVote 1 0, .requestVote 0 .ok .ok, .voteReply 0,
        .askVote 1 2, .requestVote 0 .ok .ok, .voteReply 0, .countVotes 1 .ok,
        .sendRound 0 0 0, .sendRound 0 0 1, .sendRound 0 0 2, .closeRound 0 0,
        .sendAppendEntries 1 ["b"] .ok, .sendRound 1 0 1, .sendRound 1 0 0, .sendRound 1 0 2,
        .appendEntries 0 .ok .ok, .appendReply 0, .appendError 1 0 0, .closeRound 1 0]
      (fun tr => decide (∃ s ∈ tr, (getLog (s.node 0).state).commited = [initLog, ⟨"a", 1⟩] ∧
        (getLog (s.node 1).state).commited = [initLog, ⟨"b", 2⟩])) = true := by
    decide +kernel
  obtain ⟨tr, hrun, hp⟩ := Run.exists_of_check (C := fun _ _ => True) (fun _ _ _ => trivial) hcheck
  obtain ⟨s, hs, h0, h1⟩ := of_decide_eq_true hp
  refine ⟨tr, hrun, fun hsafe => ?_⟩
  have hcomp := hsafe s hs s hs 0 1
  rw [h0, h1] at hcomp
  exact absurd hcomp (by decide)

end Raft
end DistributedPrograms
