import DistributedPrograms.Raft.LeaderCompleteness

/-!
# Acknowledged entries

`post_log` answers `Ok(true)` when a majority of its futures ended with `Ok(true)`.  A future whose
node is not leader (any more) does so without a reply, or in spite of a refusal, so the answer can
mean nothing at all (`acknowledged_entry_lost`).  `AsksAsLeader` and `CountsSuccess` exclude these
two cases; then what `post_log` acknowledges is in the log of every later leader.

The statement `AcknowledgedKept` is about what the client sees and what the later leader has: once a
call has returned `Ok(true)`, the entries it appended under term `T` are, at their indices, in the
log of every leader of a term above `T`.  It holds for every text and for every call, and for
leaders that were elected before the call returned as well.

* `ret_majority`: a round that has returned has all its futures done, and its answer counts them;
* `chosen_of_ret`: with no excuse left for a future (`acked`), the log of the leader right after the
  append has been on a majority, so it is `Chosen`;
* `acknowledged_kept`: leader completeness does the rest, and its conditions are asked for here too.
-/

set_option autoImplicit false

namespace DistributedPrograms
namespace Raft

variable {A : Type} [DecidableEq A] {servers : Finset A} {c c' : Cluster A}
  {tr : List (Cluster A)}

open VariableState

/-- Once a call has returned `Ok(true)`, the entries it appended under term `T` are, at their
indices, in the log of every leader of a term above `T`. -/
def AcknowledgedKept (tr : List (Cluster A)) : Prop :=
  ∀ s' tr₀, (s' :: tr₀) <:+ tr → ∀ s ∈ s' :: tr₀, ∀ (n : A) (r : Nat) (rd : Round A),
    (s.node n).rounds[r]? = some rd → rd.ret = some true → ∀ k text, rd.texts[k]? = some text →
      ∀ m T', rd.term < T' → Leads s' m T' →
        (s'.node m).state.logs[rd.base + k]? = some ⟨text, rd.term⟩

/-! ## Conditions on a step

One for each of the two places where a future answers for its peer. -/

/-- A future for a peer starts while its node leads the term of the round.  Otherwise it would end
with `Ok(true)` at once, without having asked anybody. -/
def AsksAsLeader (tr : List (Cluster A)) : Action A → Prop
  | .sendRound n r p => ∀ c ∈ tr.head?, ∀ rd ∈ (c.node n).rounds[r]?, p ≠ n → Leads c n rd.term
  | _ => True

/-- A reply that reaches a node that is not leader is a success.  Such a node counts it in any case,
so a refusal would be taken for a copy of the log. -/
def CountsSuccess (tr : List (Cluster A)) : Action A → Prop
  | .appendReply k => ∀ c ∈ tr.head?, ∀ m ∈ c.appendReplies[k]?,
      (c.node m.1.caller).state.role.isLeader = false → m.2.success = true
  | _ => True

instance (tr : List (Cluster A)) (a : Action A) : Decidable (AsksAsLeader tr a) := by
  rcases a <;> dsimp only [AsksAsLeader] <;> infer_instance

instance (tr : List (Cluster A)) (a : Action A) : Decidable (CountsSuccess tr a) := by
  rcases a <;> dsimp only [CountsSuccess] <;> infer_instance

section Run

variable {C : List (Cluster A) → Action A → Prop}

/-- A round that has returned has all its futures done, and what it returned is whether a majority
of them ended with `Ok(true)`. -/
theorem ret_majority (h : Run (Cluster.step servers) C Cluster.init (c :: tr)) {n : A} {r : Nat}
    {rd : Round A} {b : Bool} : (c.node n).rounds[r]? = some rd → rd.ret = some b →
    (∀ p ∈ servers, (rd.peers p).isDone = true) ∧
      b = decide (countTrue servers rd.peers * 2 > servers.card) := by
  refine Run.head_induction (P := fun c tr => ∀ {rd : Round A}, (c.node n).rounds[r]? = some rd →
    rd.ret = some b → (∀ p ∈ servers, (rd.peers p).isDone = true) ∧
      b = decide (countTrue servers rd.peers * 2 > servers.card)) ?_ ?_ h
  · intro rd hrd
    simp [Cluster.init] at hrd
  · intro c tr a c' _ _ hs ih rd' hrd' hret
    rcases step_rounds hs hrd' with ⟨_, _, -, -, -, -, rfl⟩ | ⟨rd, hrd, hstep⟩
    · exact absurd hret (by simp)
    -- once all futures are done, a step keeps them
    have hkeep : (∀ p ∈ servers, (rd.peers p).isDone = true) →
        ∀ p ∈ servers, rd'.peers p = rd.peers p :=
      fun hdone p hp => (hstep.peers p).eq_of_done (hdone p hp)
    have hcount : (∀ p ∈ servers, (rd.peers p).isDone = true) →
        countTrue servers rd'.peers = countTrue servers rd.peers := by
      intro hdone
      rw [countTrue, countTrue]
      exact congrArg Finset.card (Finset.filter_congr fun p hp => by rw [hkeep hdone p hp])
    rcases hstep.ret with heq | ⟨-, -, hdone, heq⟩
    · obtain ⟨hdone, hb⟩ := ih hrd (heq ▸ hret)
      refine ⟨fun p hp => ?_, by rw [hb, hcount hdone]⟩
      rw [hkeep hdone p hp]
      exact hdone p hp
    · rw [heq, Option.some.injEq] at hret
      refine ⟨fun p hp => ?_, by rw [← hret, hcount hdone]⟩
      rw [hkeep hdone p hp]
      exact hdone p hp

theorem excuse_false (hA : ∀ tr a, C tr a → AsksAsLeader tr a)
    (hS : ∀ tr a, C tr a → CountsSuccess tr a) :
    Excuse servers C fun _ _ _ => False where
  cons _ _ _ _ h := h
  send c tr n r p rd _ hc hrd hp := Or.inl (hA _ _ hc c (by simp) rd (by simp [hrd]) hp)
  reply c tr k call res rd _ hc hk _ hrole :=
    Or.inl (hS _ _ hc c (by simp) (call, res) (by simp [hk]) hrole)

/-- **What `Ok(true)` means**: the leader's log right after the append was chosen.  Each success
that was counted is a peer who has taken the log over, or the leader itself. -/
theorem chosen_of_ret (hW : ∀ tr a, C tr a → NoTermWrap tr a)
    (hV : ∀ tr a, C tr a → VoteOnce tr a) (hE : ∀ tr a, C tr a → InsertsAtEnd tr a)
    (hX : Excuse servers C fun _ _ _ => False)
    (h : Run (Cluster.step servers) C Cluster.init (c :: tr)) {n : A} {r : Nat} {rd : Round A}
    (hrd : (c.node n).rounds[r]? = some rd) (hret : rd.ret = some true) (htexts : rd.texts ≠ []) :
    ∃ X : List Log, X.length = rd.base ∧ Chosen servers (c :: tr) rd.term
      (X ++ rd.texts.map fun text => ⟨text, rd.term⟩) := by
  obtain ⟨s, hs, hl, X, hX₀, hlogs⟩ := roundLed h hrd
  obtain ⟨-, hmaj⟩ := ret_majority h hrd hret
  have hled : Led (c :: tr) n rd.term (X ++ rd.texts.map fun text => ⟨text, rd.term⟩) :=
    ⟨s, hs, hl, hlogs⟩
  refine ⟨X, hX₀, by simp [htexts], ?_, ⟨n, _, hled, List.prefix_refl _⟩,
    servers.filter fun p => (rd.peers p).succeeded = true, Finset.filter_subset _ _,
    of_decide_eq_true hmaj.symm, fun p hp => ?_⟩
  · rw [lastLogTerm, List.getLast?_append_of_ne_nil _ (by simpa using htexts), List.getLast?_map,
      List.getLast?_eq_some_getLast htexts]
    rfl
  · obtain ⟨-, hsucc⟩ := Finset.mem_filter.1 hp
    rcases acked hW hV hE hX h hrd hsucc with rfl | hx | ⟨req, hsent, hheld⟩
    · exact ⟨s, hs, hl.2, hlogs ▸ List.prefix_refl _⟩
    · exact absurd hx id
    · -- the request of the peer covered the texts, and the peer had what the request was cut from
      obtain ⟨hterm, hcover⟩ := (covers_of_sent hW hX h hrd hsent).resolve_right id
      obtain ⟨x, tr₀, hsuf, hxterm, y, hy, hly, hfrom, heq⟩ := hheld
      rw [hterm] at hly hxterm
      refine ⟨x, hsuf.subset (by simp), hxterm, ?_⟩
      rw [heq]
      have hcomp := led_comparable' hW hV h hled ⟨y, hsuf.subset hy, hly, rfl⟩
      refine hcomp.prefix_of_length_le ?_
      rw [← hfrom.length, List.length_append, List.length_map, hX₀]
      exact hcover

end Run

/-- The conditions of leader completeness: those of log matching, votes for candidates whose log is
not older, and heartbeats that cut off nothing of their own term. -/
def CompletenessCond (tr : List (Cluster A)) (a : Action A) : Prop :=
  (NoTermWrap tr a ∧ VoteOnce tr a ∧ InsertsAtEnd tr a) ∧ VoteIsFresh tr a ∧
    KeepsLeadersEntries tr a

instance [Fintype A] (tr : List (Cluster A)) (a : Action A) :
    Decidable (CompletenessCond tr a) := by
  unfold CompletenessCond; infer_instance

/-- **No acknowledged entry is lost.**  As long as votes are given once and to fresh logs, followers
only append and keep what they have from the current leader, and a call counts for a success only
what a peer has answered to a request of the call's own leadership, the entries of a call that has
returned `Ok(true)` are in the log of every later leader. -/
theorem acknowledged_kept
    (h : Run (Cluster.step servers)
      (fun tr a => CompletenessCond tr a ∧ AsksAsLeader tr a ∧ CountsSuccess tr a)
      Cluster.init tr) : AcknowledgedKept tr := by
  intro s' tr₀ hsuf s hs n r rd hrd hret k text htext m T' hT hlead
  have hrun := h.of_suffix hsuf (by simp)
  obtain ⟨tr₁, hsuf₁, hrun₁⟩ := hrun.exists_suffix_of_mem hs
  obtain ⟨X, hX, hchosen⟩ := chosen_of_ret (fun _ _ hc => hc.1.1.1) (fun _ _ hc => hc.1.1.2.1)
    (fun _ _ hc => hc.1.1.2.2) (excuse_false (fun _ _ hc => hc.2.1) fun _ _ hc => hc.2.2) hrun₁ hrd
    hret (List.ne_nil_of_mem (List.mem_of_getElem? htext))
  have hprefix := chosen_isPrefix (fun _ _ hc => hc.1.1.1) (fun _ _ hc => hc.1.1.2.1)
    (fun _ _ hc => hc.1.1.2.2) (fun _ _ hc => hc.1.2.1) (fun _ _ hc => hc.1.2.2) hrun
    (hchosen.mono hsuf₁.subset) T' hT m _ ⟨s', by simp, hlead, rfl⟩
  refine prefix_getElem?_eq_some hprefix ?_
  rw [List.getElem?_append_right (by omega), ← hX, Nat.add_sub_cancel_left, List.getElem?_map,
    htext]
  rfl

/-- A run of three nodes within the conditions: the entry that leader 0 acknowledges is in the log
of the later leader 1. -/
theorem acknowledged_kept_three :
    ∃ tr : List (Cluster (Fin 3)), AcknowledgedKept tr ∧
      ∃ s ∈ tr, ((s.node 0).rounds[0]?.bind Round.ret) = some true ∧ Leads s 1 2 ∧
        (s.node 1).state.logs = [initLog, ⟨"a", 1⟩] := by
  have hcheck : Run.check (Cluster.step (Finset.univ : Finset (Fin 3)))
      (fun tr a => decide (CompletenessCond tr a ∧ AsksAsLeader tr a ∧ CountsSuccess tr a))
      Cluster.init
      [.openElection 0 .ok, .askVote 0 0, .askVote 0 2, .requestVote 0 .ok .ok, .voteReply 0,
        .askVote 0 1, .voteError 0 1, .countVotes 0 .ok,
        .sendAppendEntries 0 ["a"] .ok, .sendRound 0 0 0, .sendRound 0 0 1, .sendRound 0 0 2,
        .appendEntries 1 .ok .ok, .appendReply 0, .appendError 0 0 2, .closeRound 0 0,
        .openElection 1 .ok, .askVote 1 1, .askVote 1 0, .voteError 1 0, .askVote 1 2,
        .requestVote 0 .ok .ok, .voteReply 0, .countVotes 1 .ok]
      (fun tr => decide (∃ s ∈ tr, ((s.node 0).rounds[0]?.bind Round.ret) = some true ∧
        Leads s 1 2 ∧ (s.node 1).state.logs = [initLog, ⟨"a", 1⟩])) = true := by
    decide +kernel
  obtain ⟨tr, hrun, hp⟩ := Run.exists_of_check (fun _ _ hc => of_decide_eq_true hc) hcheck
  exact ⟨tr, acknowledged_kept hrun, of_decide_eq_true hp⟩

/-- **An acknowledged entry is lost.**  Leader 0 has appended `a` and loses its leadership before
its futures start; each ends with `Ok(true)`, and node 1, leader of the next term, has never had
`a`. -/
theorem acknowledged_entry_lost :
    ∃ tr : List (Cluster (Fin 3)), Run (Cluster.step Finset.univ) (fun _ _ => True)
      Cluster.init tr ∧ ¬AcknowledgedKept tr := by
  have hcheck : Run.check (Cluster.step (Finset.univ : Finset (Fin 3))) (fun _ _ => true)
      Cluster.init
      [.openElection 0 .ok, .askVote 0 0, .askVote 0 1, .requestVote 0 .ok .ok, .voteReply 0,
        .askVote 0 2, .requestVote 0 .ok .ok, .voteReply 0, .countVotes 0 .ok,
        .sendAppendEntries 0 ["a"] .ok,
        .openElection 1 .ok, .askVote 1 1, .askVote 1 0, .requestVote 0 .ok .ok, .voteReply 0,
        .askVote 1 2, .requestVote 0 .ok .ok, .voteReply 0,
        .sendRound 0 0 0, .sendRound 0 0 1, .sendRound 0 0 2, .closeRound 0 0, .countVotes 1 .ok]
      (fun tr => tr.head?.any fun s => ((s.node 0).rounds[0]?.any fun rd =>
          decide (rd.ret = some true ∧ rd.texts = ["a"] ∧ rd.term = 1)) &&
        decide (Leads s 1 2 ∧ (s.node 1).state.logs = [initLog])) = true := by
    decide +kernel
  obtain ⟨tr, hrun, hp⟩ := Run.exists_of_check (C := fun _ _ => True) (fun _ _ _ => trivial) hcheck
  refine ⟨tr, hrun, fun hkept => ?_⟩
  cases tr with
  | nil => exact absurd rfl hrun.ne_nil
  | cons s tr =>
    simp only [List.head?_cons, Option.any_some, Bool.and_eq_true, Option.any_eq_true,
      decide_eq_true_eq] at hp
    obtain ⟨⟨rd, hrd, hret, htexts, hterm⟩, hlead, hlogs⟩ := hp
    have hget := hkept s tr List.suffix_rfl s (by simp) 0 0 rd hrd hret 0 "a" (by rw [htexts]; rfl)
      1 2 (by omega) hlead
    rw [hlogs] at hget
    have hmem := List.mem_of_getElem? hget
    rw [List.mem_singleton, hterm] at hmem
    exact absurd (congrArg Log.term hmem) (by decide)

end Raft
end DistributedPrograms
