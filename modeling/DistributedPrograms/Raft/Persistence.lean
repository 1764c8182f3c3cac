import DistributedPrograms.Raft.ElectionSafety
import DistributedPrograms.Raft.Exposed

/-!
# What is on disk

A node is `Synced` if its file decodes to what it holds in memory.  Every handler and every part of
a call that changes `persistent` saves afterwards, so it keeps a node `Synced` when the file
operations succeed, with one exception: `openElectionStart` saves the new term and clears
`voted_for` after that.  A follower that has voted and opens an election so keeps its old vote on
disk, under the new term.

* `…_synced`: the handlers, the parts of a call and their continuations, one lemma each.
* `openElectionStart_synced_iff`: the exception, exactly.
* `exposedStep_synced`: one step of the cluster, requests from outside included.
* `persisted`: every run in which no follower with a vote on record opens an election.

Every file operation succeeds here, and takes effect in the order in which it is made; the steps are
those of `Cluster.exposedStep` with `Disk.ok` everywhere.
-/

set_option autoImplicit false

namespace DistributedPrograms
namespace Raft

variable {A : Type}

open VariableState

/-! ## The parts of the handlers

Each part ends with a save, or has changed nothing that is persistent. -/

/-- The file decodes to what is in memory.  A node whose last save has failed need not be
`Synced`. -/
def VariableState.Synced (s : VariableState A) : Prop := s.file = some s.persistent

/-- Memory and file are left alone. -/
theorem Synced.of_same {s t : VariableState A} (h : s.Synced) (hfile : t.file = s.file)
    (hpersistent : t.persistent = s.persistent) : t.Synced := by
  rw [Synced, hfile, hpersistent]
  exact h

theorem savePersistent_ok (s : VariableState A) :
    s.savePersistent .ok = ({ s with file := some s.persistent }, .ok ()) := rfl

theorem savePersistent_synced (s : VariableState A) : (s.savePersistent .ok).1.Synced := rfl

theorem turnToFollower_synced {s : VariableState A} (h : s.Synced) (term : Nat) :
    ∃ t, s.turnToFollower term .ok = (t, .ok ()) ∧ t.Synced := by
  rw [turnToFollower]
  split
  · exact ⟨_, rfl, rfl⟩
  · exact ⟨s, rfl, h⟩

variable [DecidableEq A]

theorem requestVote_synced {s : VariableState A} (h : s.Synced) (req : RequestVoteRequest A) :
    (requestVote s req .ok .ok).1.Synced := by
  rw [requestVote]
  split
  · exact h
  · obtain ⟨t, ht, hsynced⟩ := turnToFollower_synced h req.term
    rw [ht, Outcome.andThen_ok, decideVote]
    split
    · split
      · exact savePersistent_synced _
      · exact hsynced
    · split
      · exact savePersistent_synced _
      · exact hsynced

omit [DecidableEq A] in
theorem appendEntries_synced {s : VariableState A} (h : s.Synced) (req : AppendEntriesRequest) :
    (appendEntries s req .ok .ok).1.Synced := by
  rw [appendEntries]
  split
  · exact h
  · obtain ⟨t, ht, hsynced⟩ := turnToFollower_synced h req.term
    rw [ht, Outcome.andThen_ok, storeEntries]
    split
    · exact hsynced
    split
    · exact hsynced
    · next hconf =>
      -- past the check no insertion panics, so the save is reached
      have hlt : req.prevLogIndex < t.logs.length := by
        have hmatch := not_conflicting_iff.1 ((Bool.not_eq_true _).mp hconf)
        by_contra hge
        rw [List.getElem?_eq_none (by omega)] at hmatch
        simp at hmatch
      rw [updateLogs_eq hlt]
      exact savePersistent_synced _

omit [DecidableEq A] in
theorem sendAppendEntriesAppend_synced {s : VariableState A} (h : s.Synced) (texts : List String) :
    (sendAppendEntriesAppend s texts .ok).1.Synced := by
  rw [sendAppendEntriesAppend]
  split
  · exact h
  · exact savePersistent_synced _

theorem sendAppendEntriesRequest_synced {me addr : A} {s : VariableState A} (h : s.Synced) :
    (sendAppendEntriesRequest me s addr).1.Synced := by
  rw [sendAppendEntriesRequest]
  split
  · split
    · exact h
    · split <;> exact h
  · exact h

theorem sendAppendEntriesReply_synced {addr : A} {s : VariableState A} (h : s.Synced) (b : Bool) :
    (sendAppendEntriesReply s addr b).1.Synced := by
  rw [sendAppendEntriesReply]
  split
  · split <;> exact h
  · exact h

omit [DecidableEq A] in
theorem sendAppendEntriesCommit_synced {servers : Finset A} {s : VariableState A} (h : s.Synced)
    (n : Nat) : (sendAppendEntriesCommit servers s n).1.Synced := by
  rw [sendAppendEntriesCommit]
  split <;> exact h

theorem openElectionCount_synced {servers : Finset A} {s : VariableState A} (h : s.Synced)
    (n : Nat) : (openElectionCount servers s n .ok).1.Synced := by
  rw [openElectionCount]
  split
  · exact h
  · split <;> exact savePersistent_synced _

omit [DecidableEq A] in
/-- **The exception.**  The start of an election keeps a node `Synced` exactly if there was no vote
to forget. -/
theorem openElectionStart_synced_iff {s : VariableState A} (h : s.Synced) :
    (openElectionStart s .ok).1.Synced ↔ (s.role.isFollower = true → s.votedFor = none) := by
  rw [openElectionStart]
  cases hf : s.role.isFollower with
  | false => simpa using h
  | true =>
    simp only [Bool.not_true, Bool.false_eq_true, if_false, savePersistent_ok, Outcome.andThen_ok,
      Synced, Option.some.injEq, Persistent.mk.injEq, true_and, and_true, true_implies]

/-! ## Runs

Memory and disk along a run, with requests from outside. -/

variable {servers : Finset A} {c c' : Cluster A}

def Disk.IsOk : Disk A → Prop
  | .ok => True
  | .err _ => False

instance (d : Disk A) : Decidable d.IsOk := by
  rcases d <;> dsimp only [Disk.IsOk] <;> infer_instance

omit [DecidableEq A] in
theorem Disk.IsOk.eq {d : Disk A} (h : d.IsOk) : d = .ok := by
  cases d with
  | ok => rfl
  | err left => exact absurd h id

/-- All file operations of the step succeed. -/
def Action.DisksOk : Action A → Prop
  | .openElection _ d | .countVotes _ d | .sendAppendEntries _ _ d => d.IsOk
  | .requestVote _ d₁ d₂ | .appendEntries _ d₁ d₂ => d₁.IsOk ∧ d₂.IsOk
  | _ => True

def ExposedAction.DisksOk : ExposedAction A → Prop
  | .own a => a.DisksOk
  | .foreignVote _ _ d₁ d₂ | .foreignEntries _ _ d₁ d₂ => d₁.IsOk ∧ d₂.IsOk

/-- No election is opened by a follower with a vote on record.  Such a vote is cleared only after
the save, so the file still has it, under the new term. -/
def ElectsUnvoted (tr : List (Cluster A)) : ExposedAction A → Prop
  | .own (.openElection n _) => ∀ c ∈ tr.head?,
    (c.node n).state.role.isFollower = true → (c.node n).state.votedFor = none
  | _ => True

instance (a : Action A) : Decidable a.DisksOk := by
  rcases a <;> dsimp only [Action.DisksOk] <;> infer_instance

instance (e : ExposedAction A) : Decidable e.DisksOk := by
  rcases e <;> dsimp only [ExposedAction.DisksOk] <;> infer_instance

instance (tr : List (Cluster A)) (e : ExposedAction A) : Decidable (ElectsUnvoted tr e) := by
  rcases e with a | _ | _
  · rcases a <;> dsimp only [ElectsUnvoted] <;> infer_instance
  all_goals
    dsimp only [ElectsUnvoted]
    infer_instance

/-- Every file decodes to what its node holds. -/
def Cluster.Synced (c : Cluster A) : Prop := ∀ n, (c.node n).state.Synced

theorem Cluster.Synced.setNode (h : c.Synced) {n : A} {x : Node A} (hx : x.state.Synced) :
    (c.setNode n x).Synced := by
  intro v
  rw [Cluster.setNode_node]
  split
  · exact hx
  · exact h v

/-- **A step of the cluster itself keeps memory and disk together**, unless it opens an election
that forgets a vote. -/
theorem step_synced {a : Action A} {tr : List (Cluster A)} (h : c.Synced) (hd : a.DisksOk)
    (hv : ElectsUnvoted (c :: tr) (.own a)) (hs : c.step servers a = some c') : c'.Synced := by
  cases a with
  | openElection n d =>
    obtain rfl := Disk.IsOk.eq hd
    have hstart := (openElectionStart_synced_iff (h n)).2 (hv c rfl)
    obtain ⟨-, ⟨-, rfl⟩ | ⟨-, rfl⟩⟩ := step_openElection hs <;> exact h.setNode hstart
  | askVote n p =>
    obtain ⟨e, -, -, -, ⟨-, rfl⟩ | ⟨-, rfl⟩⟩ := step_askVote hs
    · exact h.setNode (h n)
    · exact h.setNode (x := { c.node n with election := _ }) (h n)
  | requestVote k d₁ d₂ =>
    obtain ⟨rfl, rfl⟩ := And.intro (Disk.IsOk.eq hd.1) (Disk.IsOk.eq hd.2)
    obtain ⟨call, -, -, ⟨res, -, rfl⟩ | rfl⟩ := step_requestVote hs
    all_goals
      exact h.setNode (x := { c.node call.callee with state := _ })
        (requestVote_synced (h call.callee) call.req)
  | voteReply k =>
    obtain ⟨call, res, e, req, -, -, -, -, rfl⟩ := step_voteReply hs
    exact h.setNode (x := { c.node call.caller with election := _ }) (h call.caller)
  | voteError n p =>
    obtain ⟨e, req, -, -, rfl⟩ := step_voteError hs
    exact h.setNode (h n)
  | countVotes n d =>
    obtain rfl := Disk.IsOk.eq hd
    obtain ⟨e, -, -, rfl⟩ := step_countVotes hs
    exact h.setNode (openElectionCount_synced (h n) _)
  | sendAppendEntries n texts d =>
    obtain rfl := Disk.IsOk.eq hd
    obtain ⟨-, rfl⟩ | rfl := step_sendAppendEntries hs
    all_goals exact h.setNode (sendAppendEntriesAppend_synced (h n) texts)
  | sendRound n r p =>
    obtain ⟨rd, -, -, -, ⟨req, -, rfl⟩ | ⟨-, rfl⟩⟩ := step_sendRound hs
    all_goals
      exact h.setNode (x := { (c.node n).setRound r _ with state := _ })
        (sendAppendEntriesRequest_synced (h n))
  | appendEntries k d₁ d₂ =>
    obtain ⟨rfl, rfl⟩ := And.intro (Disk.IsOk.eq hd.1) (Disk.IsOk.eq hd.2)
    obtain ⟨call, -, -, ⟨res, -, rfl⟩ | rfl⟩ := step_appendEntries hs
    all_goals
      exact h.setNode (x := { c.node call.callee with state := _ })
        (appendEntries_synced (h call.callee) call.req)
  | appendReply k =>
    obtain ⟨call, res, rd, req, -, -, -, rfl⟩ := step_appendReply hs
    exact h.setNode (x := { (c.node call.caller).setRound call.round _ with state := _ })
      (sendAppendEntriesReply_synced (h call.caller) res.success)
  | appendError n r p =>
    obtain ⟨rd, req, -, -, rfl⟩ := step_appendError hs
    exact h.setNode (h n)
  | closeRound n r =>
    obtain ⟨rd, -, -, -, rfl⟩ := step_closeRound hs
    exact h.setNode (sendAppendEntriesCommit_synced (h n) _)

theorem exposedStep_synced {e : ExposedAction A} {tr : List (Cluster A)} (h : c.Synced)
    (hd : e.DisksOk) (hv : ElectsUnvoted (c :: tr) e) (hs : c.exposedStep servers e = some c') :
    c'.Synced := by
  intro v
  rcases exposedStep_cases hs v with ⟨a, rfl, hs⟩ | heq | ⟨req, d₁, d₂, rfl, heq⟩ |
    ⟨req, d₁, d₂, rfl, heq⟩
  · exact step_synced h hd hv hs v
  · rw [heq]
    exact h v
  · rw [heq, hd.1.eq, hd.2.eq]
    exact requestVote_synced (h v) req
  · rw [heq, hd.1.eq, hd.2.eq]
    exact appendEntries_synced (h v) req

/-- Every node has just been started by `State::from_file`, with or without a file. -/
def Cluster.Started (c : Cluster A) : Prop := ∀ n, (c.node n).elections = 0 ∧
  (c.node n).election = none ∧ (c.node n).rounds = [] ∧ ∃ file, fromFile file = .ok (c.node n).state

omit [DecidableEq A] in
theorem started_init : (Cluster.init : Cluster A).Started :=
  fun _ => ⟨rfl, rfl, rfl, none, rfl⟩

omit [DecidableEq A] in
theorem fromFile_synced {file : Option (Option (Persistent A))} {s : VariableState A}
    (h : fromFile file = .ok s) : s.Synced := by
  rcases file with _ | _ | p
  · cases h
    rfl
  · cases h
  · cases h
    rfl

/-- At every moment every node's file decodes to what the node holds, and a start from that file
brings it back.  A crash at such a moment loses nothing of the persistent state. -/
def Persisted (tr : List (Cluster A)) : Prop := ∀ c ∈ tr, ∀ n,
  (c.node n).state.file = some (c.node n).state.persistent ∧
  ∃ s, fromFile (some (c.node n).state.file) = .ok s ∧
    s.persistent = (c.node n).state.persistent

/-- **Persistence.**  As long as no follower with a vote on record opens an election, memory and
disk agree whenever nobody holds the lock. -/
theorem persisted {c₀ : Cluster A} {tr : List (Cluster A)} (hstart : c₀.Started)
    (h : Run (Cluster.exposedStep servers) (fun tr e => e.DisksOk ∧ ElectsUnvoted tr e) c₀ tr) :
    Persisted tr := by
  have hinit : c₀.Synced := fun n => fromFile_synced (hstart n).2.2.2.choose_spec
  have hrun : ∀ c ∈ tr, c.Synced :=
    Run.forall_mem hinit (fun _ _ _ _ _ hc hsynced hs => exposedStep_synced hsynced hc.1 hc.2 hs) h
  intro c hc n
  have hsynced : (c.node n).state.file = some (c.node n).state.persistent := hrun c hc n
  refine ⟨hsynced, ⟨.follower, some (c.node n).state.persistent, (c.node n).state.persistent, 0⟩,
    ?_, rfl⟩
  rw [hsynced]
  rfl

/-! ## Two runs

One in which the exception happens, and one in which everything works. -/

/-- A vote is granted, a leader elected and an entry replicated, and memory and disk agree
throughout. -/
theorem persisted_replicated :
    ∃ tr : List (Cluster (Fin 2)), Persisted tr ∧
      ∃ c ∈ tr, (c.node 1).state.votedFor = some 0 ∧ (c.node 1).state.logs.length = 2 := by
  have hcheck : Run.check (Cluster.exposedStep ({0, 1} : Finset (Fin 2)))
      (fun tr e => decide (e.DisksOk ∧ ElectsUnvoted tr e)) Cluster.init
      [.own (.openElection 0 .ok), .own (.askVote 0 0), .own (.askVote 0 1),
        .own (.requestVote 0 .ok .ok), .own (.voteReply 0), .own (.countVotes 0 .ok),
        .own (.sendAppendEntries 0 ["a"] .ok), .own (.sendRound 0 0 1),
        .own (.appendEntries 0 .ok .ok)]
      (fun tr => decide (∃ c ∈ tr, (c.node 1).state.votedFor = some 0 ∧
        (c.node 1).state.logs.length = 2)) = true := by
    decide +kernel
  obtain ⟨tr, hrun, hp⟩ := Run.exists_of_check (fun _ _ hc => of_decide_eq_true hc) hcheck
  exact ⟨tr, persisted started_init hrun, of_decide_eq_true hp⟩

/-- **A vote of an old term stays on disk.**  Node 1 votes for node 0 and opens an election itself:
its file holds the new term with the old vote. -/
theorem vote_left_on_disk :
    ∃ tr : List (Cluster (Fin 2)),
      Run (Cluster.exposedStep {0, 1}) (fun _ e => e.DisksOk) Cluster.init tr ∧ ¬Persisted tr := by
  have hcheck : Run.check (Cluster.exposedStep ({0, 1} : Finset (Fin 2)))
      (fun _ e => decide e.DisksOk) Cluster.init
      [.own (.openElection 0 .ok), .own (.askVote 0 1), .own (.requestVote 0 .ok .ok),
        .own (.openElection 1 .ok)]
      (fun tr => decide (∃ c ∈ tr,
        (c.node 1).state.file ≠ some (c.node 1).state.persistent)) = true := by
    decide +kernel
  obtain ⟨tr, hrun, hp⟩ := Run.exists_of_check (fun _ _ hc => of_decide_eq_true hc) hcheck
  obtain ⟨c, hc, hne⟩ := of_decide_eq_true hp
  exact ⟨tr, hrun, fun h => hne (h c hc 1).1⟩

end Raft
end DistributedPrograms
