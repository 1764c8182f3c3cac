import DistributedPrograms.Raft.NodeStep

/-!
# The committed entries of one node

`commit_index` is meant to point into the log, and it is only ever raised.  `append_entries` cuts
the log off without looking at it: a heartbeat that was delayed names an old `prev_log_index`, is
accepted and cuts the log off there, below entries that are committed by now.  The commit index then
points past the end, and `get_log` answers with no entries at all.

`commitKept_iff` says that this is the only way: in a run the committed entries stay exactly if no
accepted request leaves the log too short for them.

* `InBounds` is the invariant, and `CommitKept` the statement about a run: every commit index points
  into its log, and no committed list of a node is shorter than an earlier one of it.
* `SparesCommitted` is arithmetic on a request and the state it meets: the entries up to
  `prev_log_index` and those of the request, with the old ones that are pushed behind them, reach
  beyond the commit index.  Whether the request is accepted is asked separately (`SparingStep`), so
  a request that is refused is never in the way.
* `Stored.kept_iff` compares the two for one request, in both directions, and the equivalence for
  runs is made of it: a step that violates the condition takes entries away at once
  (`sparingStep_of_kept`).

Nothing here compares nodes with each other.
-/

set_option autoImplicit false

namespace DistributedPrograms
namespace Raft

variable {A : Type}

open VariableState

/-- `commit_index` points into the log.  Where it does not, `get_log` reports nothing as
committed. -/
def InBounds (s : VariableState A) : Prop := s.commitIndex < s.logs.length

/-- In bounds, `get_log` does not fall back to the empty list. -/
theorem InBounds.commited_length {s : VariableState A} (h : InBounds s) :
    (getLog s).commited.length = s.commitIndex + 1 := by
  have hle : s.commitIndex + 1 ≤ s.logs.length := h
  rw [getLog, if_pos hle, List.length_take, Nat.min_eq_left hle]

theorem length_mergedLogs {logs : List Log} {req : AppendEntriesRequest}
    (h : req.prevLogIndex < logs.length) : (mergedLogs logs req).length =
      req.prevLogIndex + 1 + req.entries.length +
        min req.entries.length (logs.length - (req.prevLogIndex + 1)) := by
  rw [mergedLogs, List.length_append, List.length_append, List.length_take, List.length_take,
    List.length_drop, Nat.min_eq_left h]

/-- The log is not cut off at or below the commit index.  What is left of it has the entries of the
request twice where they were there already, as they are inserted and not written over. -/
def SparesCommitted (s : VariableState A) (req : AppendEntriesRequest) : Prop :=
  s.commitIndex < req.prevLogIndex + 1 + req.entries.length +
    min req.entries.length (s.logs.length - (req.prevLogIndex + 1))

/-- After an accepted request the committed entries are there exactly if they were spared. -/
theorem Stored.kept_iff {s t : VariableState A} {req : AppendEntriesRequest} (h : Stored s req t)
    (hs : InBounds s) : SparesCommitted s req ↔
      InBounds t ∧ (getLog s).commited.length ≤ (getLog t).commited.length := by
  have hci := h.commitIndex
  rw [SparesCommitted, ← length_mergedLogs (lt_length_of_match h.accepts.2.2), ← h.logs,
    hs.commited_length]
  constructor
  · intro hspared
    have ht : InBounds t := by
      rw [InBounds]
      split at hci <;> omega
    refine ⟨ht, ?_⟩
    rw [ht.commited_length]
    split at hci <;> omega
  · rintro ⟨ht, hle⟩
    rw [ht.commited_length] at hle
    exact Nat.lt_of_le_of_lt (Nat.le_of_succ_le_succ hle) ht

variable [DecidableEq A] {servers : Finset A} {c₀ c c' : Cluster A} {tr : List (Cluster A)}

omit [DecidableEq A] in
/-- A freshly started node has committed the first entry. -/
theorem inBounds_init (v : A) : InBounds ((Cluster.init : Cluster A).node v).state := Nat.one_pos

/-- At every moment of a run every node's commit index points into its log, and no node's committed
list is shorter than at an earlier moment. -/
structure CommitKept (tr : List (Cluster A)) : Prop where
  inBounds : ∀ c ∈ tr, ∀ v, InBounds (c.node v).state
  grows : tr.Pairwise fun later earlier => ∀ v,
    (getLog (earlier.node v).state).commited.length ≤
      (getLog (later.node v).state).commited.length

omit [DecidableEq A] in
theorem CommitKept.commited_ne_nil (h : CommitKept tr) (hmem : c ∈ tr) (v : A) :
    (getLog (c.node v).state).commited ≠ [] := by
  intro hnil
  have hlen := (h.inBounds c hmem v).commited_length
  rw [hnil] at hlen
  exact Nat.succ_ne_zero _ hlen.symm

/-- The condition on a step: if a node accepts the request it handles, and the new term, if there is
one, could be saved, then the log is not cut off at or below the commit index. -/
def SparingStep (tr : List (Cluster A)) : Action A → Prop
  | .appendEntries k d₁ _ => ∀ c ∈ tr.head?, ∀ call ∈ c.appendCalls[k]?,
      Accepts (c.node call.callee).state call.req →
      ((c.node call.callee).state.currentTerm < call.req.term → d₁ = .ok) →
      SparesCommitted (c.node call.callee).state call.req
  | _ => True

/-! ## What a step does to a node in bounds

Only one kind of step can take a node out of bounds, a request that cuts the log off. -/

theorem Effect.commitKept {a : Action A} {v : A} {t : VariableState A}
    (h : Effect servers c v a t) (hs : InBounds (c.node v).state) (hc : SparingStep (c :: tr) a) :
    InBounds t ∧ (getLog (c.node v).state).commited.length ≤ (getLog t).commited.length := by
  -- a log that is not shorter and a commit index that is not lower, but in bounds
  have hgrow : ∀ {t : VariableState A}, InBounds t → (c.node v).state.commitIndex ≤ t.commitIndex →
      InBounds t ∧ (getLog (c.node v).state).commited.length ≤ (getLog t).commited.length := by
    intro t ht hle
    rw [hs.commited_length, ht.commited_length]
    exact ⟨ht, Nat.succ_le_succ hle⟩
  have hl := h.logs
  have hci := h.commitIndex
  rw [InBounds] at hs
  cases h with
  | same h =>
    exact hgrow (by rw [InBounds, VariableState.logs, h.persistent, h.commitIndex]; exact hs)
      (Nat.le_of_eq h.commitIndex.symm)
  | @appendEntries k d₁ d₂ call hk hv =>
    subst hv
    rcases appendEntries_stores (c.node call.callee).state call.req d₁ d₂ with
      ⟨hacc, hd, hst⟩ | ⟨-, hlogs, hci⟩
    · exact (hst.kept_iff hs).1 (hc c rfl call hk hacc hd)
    · exact hgrow (by rw [InBounds, hlogs, hci]; exact hs) (Nat.le_of_eq hci.symm)
  | @closeRound r rd _ _ _ _ =>
    exact hgrow (Nat.sub_lt (by omega) Nat.one_pos) (Nat.le_sub_one_of_lt hs)
  | _ =>
    rcases hci with hci | ⟨_, _, ha, -⟩ | ⟨_, _, _, _, ha, -⟩
    · refine hgrow ?_ (Nat.le_of_eq hci.symm)
      rcases hl with hl | ⟨_, _, -, -, -, -, hl⟩ | ⟨_, _, _, _, ha, -⟩
      · rw [InBounds, hci, hl]
        exact hs
      · rw [InBounds, hci, hl, List.length_append]
        omega
      · contradiction
    · contradiction
    · contradiction

/-- A step that violates the condition takes committed entries away. -/
theorem sparingStep_of_kept {a : Action A} (h : c.step servers a = some c')
    (hs : ∀ v, InBounds (c.node v).state)
    (hkept : ∀ v, InBounds (c'.node v).state ∧
      (getLog (c.node v).state).commited.length ≤ (getLog (c'.node v).state).commited.length) :
    SparingStep (c :: tr) a := by
  cases a with
  | appendEntries k d₁ d₂ =>
    intro c₁ hc₁ call hcall hacc hd
    obtain ⟨⟩ := hc₁
    obtain ⟨call', hcall', -, hc'⟩ := step_appendEntries h
    obtain ⟨⟩ := hcall.symm.trans hcall'
    have hstate : (c'.node call.callee).state =
        (Raft.appendEntries (c.node call.callee).state call.req d₁ d₂).1 := by
      rcases hc' with ⟨res, -, rfl⟩ | rfl
      · simp [Cluster.setNode]
      · simp [Cluster.setNode]
    rcases appendEntries_stores (c.node call.callee).state call.req d₁ d₂ with
      ⟨-, -, hst⟩ | ⟨hnot, -⟩
    · rw [← hstate] at hst
      exact (hst.kept_iff (hs call.callee)).2 (hkept call.callee)
    · exact absurd ⟨hacc, hd⟩ hnot
  | _ => exact trivial

/-! ## Runs

One direction is an induction over the run.  For the other, the first step that fails the condition
is the one after which something is missing. -/

theorem inBounds_run (h₀ : ∀ v, InBounds (c₀.node v).state)
    (h : Run (Cluster.step servers) SparingStep c₀ tr) :
    ∀ c ∈ tr, ∀ v, InBounds (c.node v).state :=
  h.forall_mem (I := fun c => ∀ v, InBounds (c.node v).state) h₀
    fun _ _ _ _ _ hc hs hstep v => ((step_effect hstep v).commitKept (hs v) hc).1

/-- In a run whose steps meet the condition the committed entries stay. -/
theorem commitKept_run (h₀ : ∀ v, InBounds (c₀.node v).state)
    (h : Run (Cluster.step servers) SparingStep c₀ tr) : CommitKept tr := by
  refine ⟨inBounds_run h₀ h, h.pairwise (R := fun later earlier : Cluster A => ∀ v,
      (getLog (earlier.node v).state).commited.length ≤
        (getLog (later.node v).state).commited.length)
    (fun hut hts v => (hts v).trans (hut v)) fun s rest a s' hrun hc hstep v => ?_⟩
  have hs : InBounds (s.node v).state := inBounds_run h₀ hrun s List.mem_cons_self v
  exact ((step_effect hstep v).commitKept hs hc).2

/-- **The committed entries of every node stay** exactly in the runs in which no accepted request
cuts a log off at or below its commit index. -/
theorem commitKept_iff (h₀ : ∀ v, InBounds (c₀.node v).state)
    (h : Run (Cluster.step servers) (fun _ _ => True) c₀ tr) :
    CommitKept tr ↔ Run (Cluster.step servers) SparingStep c₀ tr := by
  refine ⟨fun hkept => h.of_forall_step fun s' s rest a hsuf hstep => ?_, commitKept_run h₀⟩
  have hs : s ∈ tr := hsuf.subset (by simp)
  have hs' : s' ∈ tr := hsuf.subset (by simp)
  refine sparingStep_of_kept hstep (hkept.inBounds s hs) fun v => ⟨hkept.inBounds s' hs' v, ?_⟩
  exact (List.pairwise_cons.1 (hkept.grows.sublist hsuf.sublist)).1 s (by simp) v

/-! ## A late heartbeat

The run in which it does. -/

/-- Leader 0 sends the other node a heartbeat that is delayed, then replicates and commits an entry;
then the heartbeat arrives. -/
def lateHeartbeat : List (Action (Fin 2)) :=
  [.openElection 0 .ok, .askVote 0 0, .askVote 0 1, .requestVote 0 .ok .ok, .voteReply 0,
    .countVotes 0 .ok,
    -- the heartbeat, and its caller's timeout
    .sendAppendEntries 0 [] .ok, .sendRound 0 0 0, .sendRound 0 0 1, .appendError 0 0 1,
    .closeRound 0 0,
    .sendAppendEntries 0 ["a"] .ok, .sendRound 0 1 0, .sendRound 0 1 1, .appendEntries 0 .ok .ok,
    .appendReply 0, .closeRound 0 1,
    -- the next round tells the follower that the entry is committed
    .sendAppendEntries 0 [] .ok, .sendRound 0 2 0, .sendRound 0 2 1, .appendEntries 0 .ok .ok,
    .appendReply 0, .closeRound 0 2,
    .appendEntries 0 .ok .ok]

theorem exists_lateHeartbeat : ∃ tr : List (Cluster (Fin 2)),
    Run (Cluster.step {0, 1}) (fun _ _ => True) Cluster.init tr ∧
      ∃ c ∈ tr, (getLog (c.node 1).state).commited = [] := by
  have hcheck : Run.check (Cluster.step ({0, 1} : Finset (Fin 2))) (fun _ _ => true) Cluster.init
      lateHeartbeat (fun tr => decide (∃ c ∈ tr,
        (getLog (c.node 1).state).commited = [])) = true := by
    decide +kernel
  obtain ⟨tr, hrun, hp⟩ :=
    Run.exists_of_check (C := fun _ _ => True) (fun _ _ _ => trivial) hcheck
  exact ⟨tr, hrun, of_decide_eq_true hp⟩

/-- **A late heartbeat takes a committed entry away**, and `get_log` shows none at all. -/
theorem not_commitKept : ∃ tr : List (Cluster (Fin 2)),
    Run (Cluster.step {0, 1}) (fun _ _ => True) Cluster.init tr ∧ ¬CommitKept tr := by
  obtain ⟨tr, hrun, c, hmem, hempty⟩ := exists_lateHeartbeat
  exact ⟨tr, hrun, fun hkept => hkept.commited_ne_nil hmem 1 hempty⟩

/-- The run of the late heartbeat has a step that fails the condition. -/
theorem commitKept_iff_lateHeartbeat : ∃ tr : List (Cluster (Fin 2)),
    Run (Cluster.step {0, 1}) (fun _ _ => True) Cluster.init tr ∧
      ¬Run (Cluster.step {0, 1}) SparingStep Cluster.init tr := by
  obtain ⟨tr, hrun, c, hmem, hempty⟩ := exists_lateHeartbeat
  have hiff := commitKept_iff inBounds_init hrun
  exact ⟨tr, hrun, fun hsparing => (hiff.2 hsparing).commited_ne_nil hmem 1 hempty⟩

end Raft
end DistributedPrograms
