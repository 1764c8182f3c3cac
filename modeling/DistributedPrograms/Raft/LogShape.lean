import DistributedPrograms.Raft.LeaderLog
import DistributedPrograms.Raft.OneVote

/-!
# Every index is in range

`append_entries` indexes the log, inserts into it, shortens it with `resize_with` and subtracts one
from its length, all of it at positions that come from the wire.  `appendEntriesOrPanic` is the
handler with each of these as an operation that can panic; it never does
(`appendEntriesOrPanic_eq`), because the first test of the handler bounds `prev_log_index` by the
length of the log.  The sums of the handler are evaluated behind that test, so they are at most
those of the lengths of two vectors and fit into a `usize`.

A request of `send_append_entries` is read off the log at `next_index` with three `unwrap_or`.  The
log begins with the entry it was created with and `next_index` never points behind its end, so the
two that guard the log are never used.  The one that guards `checked_sub` is: `next_index` is 0 in a
leader that has been elected on a fresh log (`not_noFallback`).

* The handler with panics and the one without are two definitions that follow the source line by
  line, and that they are equal is a theorem without any condition on the request.
* `sendAppendEntriesRequest_eq` is the request with its `unwrap_or`s, as the source writes it.
* `LogOk` is the invariant of a node: its log has its first entry, and no `next_index` is behind its
  end. It is about a `Voter`, so requests have any content and saves may fail.  Only a file that has
  been tampered with is excluded: a node that is started again must find a log that begins as the
  first one did (`FileIntact`).
* `well_indexed` puts the three together for every state that a node reaches from a fresh file.
-/

set_option autoImplicit false

namespace DistributedPrograms
namespace Raft

variable {A : Type}

open VariableState

/-! ## `append_entries` with everything that can panic

Each operation of the source that can panic has its own definition, and the order of the tests is
kept: what is behind a test is evaluated only where the test lets it. -/

/-- `logs[index]`, which panics where there is no such entry. -/
def indexLog (logs : List Log) (index : Nat) : Except (Error A) Log :=
  match logs[index]? with
  | some log => .ok log
  | none => .error .panic

/-- `logs.len() - 1`, in a build that checks arithmetic. -/
def lastIndex (logs : List Log) : Except (Error A) Nat :=
  if logs.length = 0 then .error .panic else .ok (logs.length - 1)

/-- The consistency check; the log is indexed only where the first test has failed. -/
def conflictingOrPanic (logs : List Log) (req : AppendEntriesRequest) : Except (Error A) Bool :=
  if req.prevLogIndex ≥ logs.length then .ok true
  else (indexLog logs req.prevLogIndex).map fun log => log.term != req.prevLogTerm

/-- The new `commit_index`.  The end of the log is looked at only where the leader's index is the
larger one. -/
def commitIndexOrPanic (logs : List Log) (commitIndex leaderCommit : Nat) : Except (Error A) Nat :=
  if leaderCommit > commitIndex then (lastIndex logs).map fun last => min leaderCommit last
  else .ok commitIndex

/-- `storeEntries`, with every index of the source checked as the compiled code checks it. -/
def storeEntriesOrPanic (s : VariableState A) (req : AppendEntriesRequest) (d : Disk A) :
    Outcome A AppendEntriesResponse :=
  if !s.role.isFollower then (s, .ok ⟨false⟩)
  else
    match conflictingOrPanic s.logs req with
    | .error e => (s, .error e)
    | .ok true => (s, .ok ⟨false⟩)
    | .ok false =>
      match updateLogs (A := A) s.logs req with
      | (logs, .error e) => ({ s with persistent := { s.persistent with logs := logs } }, .error e)
      | (logs, .ok ()) =>
        match commitIndexOrPanic logs s.commitIndex req.leaderCommit with
        | .error e => ({ s with persistent := { s.persistent with logs := logs } }, .error e)
        | .ok commitIndex =>
          (savePersistent
            { s with
              persistent := { s.persistent with logs := logs }
              commitIndex := commitIndex } d).andThen
            fun s _ => (s, .ok ⟨true⟩)

/-- `append_entries`, with every index of the source checked as the compiled code checks it. -/
def appendEntriesOrPanic (s : VariableState A) (req : AppendEntriesRequest) (d₁ d₂ : Disk A) :
    Outcome A AppendEntriesResponse :=
  if req.term < s.currentTerm then (s, .ok ⟨false⟩)
  else (s.turnToFollower req.term d₁).andThen fun s _ => storeEntriesOrPanic s req d₂

theorem conflictingOrPanic_eq (logs : List Log) (req : AppendEntriesRequest) :
    conflictingOrPanic (A := A) logs req = .ok (conflicting logs req) := by
  rw [conflictingOrPanic, conflicting]
  split
  · next hge => rw [List.getElem?_eq_none hge]
  · next hlt =>
    rw [indexLog, List.getElem?_eq_getElem (Nat.lt_of_not_le hlt)]
    rfl

theorem mergedLogs_length_pos {logs : List Log} {req : AppendEntriesRequest}
    (h : req.prevLogIndex < logs.length) : 0 < (mergedLogs logs req).length := by
  rw [mergedLogs, List.length_append, List.length_append, List.length_take]
  omega

theorem commitIndexOrPanic_eq {logs : List Log} (h : 0 < logs.length)
    (commitIndex leaderCommit : Nat) :
    commitIndexOrPanic (A := A) logs commitIndex leaderCommit =
      .ok (if leaderCommit > commitIndex then min leaderCommit (logs.length - 1)
        else commitIndex) := by
  rw [commitIndexOrPanic, lastIndex, if_neg (Nat.ne_of_gt h)]
  split <;> rfl

theorem storeEntriesOrPanic_eq (s : VariableState A) (req : AppendEntriesRequest) (d : Disk A) :
    storeEntriesOrPanic s req d = storeEntries s req d := by
  rw [storeEntriesOrPanic, storeEntries, conflictingOrPanic_eq]
  cases hconf : conflicting s.logs req with
  | true => rfl
  | false =>
    have hlt := lt_length_of_match (not_conflicting_iff.1 hconf)
    rw [updateLogs_eq hlt]
    simp only [commitIndexOrPanic_eq (mergedLogs_length_pos hlt)]
    rfl

/-- **Nothing in `append_entries` is out of range**, whatever the request.  The model that leaves
the checks out and the one that has them are one function. -/
theorem appendEntriesOrPanic_eq (s : VariableState A) (req : AppendEntriesRequest)
    (d₁ d₂ : Disk A) : appendEntriesOrPanic s req d₁ d₂ = appendEntries s req d₁ d₂ := by
  rw [appendEntriesOrPanic, appendEntries]
  simp only [storeEntriesOrPanic_eq]

theorem appendEntries_ne_panic (s : VariableState A) (req : AppendEntriesRequest)
    (d₁ d₂ : Disk A) : (appendEntries s req d₁ d₂).2 ≠ .error .panic := by
  rw [appendEntries]
  split
  · simp
  · next hold =>
    obtain ⟨t, -, heq | heq⟩ := turnToFollower_adopted hold d₁
    · rw [heq, Outcome.andThen_ok]
      obtain ⟨_, _, _, -, ⟨res, hres⟩ | hres⟩ := storeEntries_cases t req d₂
      · simp [hres]
      · simp [hres]
    · rw [heq]
      simp

/-! ## The requests of a leader with their fallbacks

The three `unwrap_or`s of the source, each with the case it is for. -/

/-- `next_index[addr]` of a leader. -/
def Role.nextIndexOf : Role A → A → Option Nat
  | leader nextIndex _, addr => nextIndex addr
  | _, _ => none

/-- `next_index.checked_sub(1)`. -/
def checkedPred (next : Nat) : Option Nat :=
  if next = 0 then none else some (next - 1)

/-- `logs.get(start..)`. -/
def getFrom (logs : List Log) (start : Nat) : Option (List Log) :=
  if start ≤ logs.length then some (logs.drop start) else none

/-- `logs.get(index).map(|log| log.term)`. -/
def getTerm (logs : List Log) (index : Nat) : Option Nat :=
  logs[index]?.map Log.term

variable [DecidableEq A] {me : A} {servers : Finset A} {s : VariableState A}
  {tr : List (Voter A)}

/-- The request for a peer, with the `unwrap_or`s of the source. -/
theorem sendAppendEntriesRequest_eq {addr : A} {next : Nat} (haddr : addr ≠ me)
    (hnext : s.role.nextIndexOf addr = some next) :
    (sendAppendEntriesRequest me s addr).2 = .waiting
      { term := s.currentTerm
        prevLogIndex := (checkedPred next).getD 0
        prevLogTerm := (getTerm s.logs ((checkedPred next).getD 0)).getD 0
        entries := (getFrom s.logs ((checkedPred next).getD 0 + 1)).getD []
        leaderCommit := s.commitIndex } := by
  have hpred : (checkedPred next).getD 0 = next - 1 := by
    rw [checkedPred]
    split
    · next hzero => rw [hzero]; rfl
    · rfl
  have hfrom : ∀ start, (getFrom s.logs start).getD [] = s.logs.drop start := by
    intro start
    rw [getFrom]
    split
    · rfl
    · next hlt => rw [List.drop_of_length_le (by omega)]; rfl
  rw [hpred, hfrom, sendAppendEntriesRequest]
  cases hrole : s.role with
  | leader nextIndex matchIndex =>
    rw [hrole] at hnext
    have hget : nextIndex addr = some next := hnext
    simp only [if_neg haddr, hget]
    rfl
  | _ =>
    rw [hrole] at hnext
    contradiction

/-! ## Runs

What a node holds in memory comes from the file or from what the handlers make of it; both keep the
first entry. -/

/-- The log begins with the first entry and no `next_index` is behind its end.  This is all that the
indices in the code rest on. -/
structure LogOk (s : VariableState A) : Prop where
  first : [initLog] <+: s.logs
  nextIndex : NextIndexOk s

/-- The condition on a step: a node that is started again finds a log in its file that begins as the
first one did.  Everything else is free. -/
def FileIntact (tr : List (Voter A)) : VoterAction A → Prop
  | .restart => ∀ v ∈ tr.head?, ∀ p ∈ v.state.file, [initLog] <+: p.logs
  | _ => True

theorem LogOk.after (h : LogOk s) {a : VoterAction A} (ha : a ≠ .restart) :
    LogOk (Voter.stateAfter me servers s a) := by
  cases a with
  | requestVote req d₁ d₂ =>
    refine ⟨?_, h.nextIndex.requestVote req d₁ d₂⟩
    rw [Voter.stateAfter, (requestVote_spec s req d₁ d₂).logs]
    exact h.first
  | appendEntries req d₁ d₂ =>
    refine ⟨?_, h.nextIndex.appendEntries req d₁ d₂⟩
    rcases (appendEntries_spec s req d₁ d₂).stored with ⟨hlogs, -⟩ | hstored
    · rw [Voter.stateAfter, hlogs]
      exact h.first
    · rw [Voter.stateAfter, hstored.logs]
      exact initLog_prefix_mergedLogs h.first req
  | openElection d =>
    refine ⟨?_, h.nextIndex.openElectionStart d⟩
    rw [Voter.stateAfter]
    rcases openElectionStart_cases s d with ⟨-, ho⟩ | ⟨-, _, _, -, ho, -⟩
    · rw [ho]
      exact h.first
    · rw [ho]
      exact h.first
  | countVotes voteResult d =>
    refine ⟨?_, h.nextIndex.openElectionCount voteResult d⟩
    rw [Voter.stateAfter]
    rcases openElectionCount_cases servers s voteResult d with ⟨-, ho⟩ | ⟨-, _, _, ho, -⟩
    · rw [ho]
      exact h.first
    · rw [ho]
      exact h.first
  | sendAppendEntries texts d =>
    refine ⟨?_, h.nextIndex.sendAppendEntriesAppend texts d⟩
    rw [Voter.stateAfter]
    rcases sendAppendEntriesAppend_cases s texts d with ⟨-, ho, -⟩ | ⟨-, _, ho⟩
    · rw [ho]
      exact h.first
    · rw [ho]
      exact h.first.trans (List.prefix_append _ _)
  | sendRound addr =>
    have hsame := sendAppendEntriesRequest_same me s addr
    refine ⟨?_, h.nextIndex.of_same hsame⟩
    rw [Voter.stateAfter, VariableState.logs, hsame.persistent]
    exact h.first
  | roundReply addr success =>
    have hsame := sendAppendEntriesReply_same s addr success
    refine ⟨?_, h.nextIndex.of_same hsame⟩
    rw [Voter.stateAfter, VariableState.logs, hsame.persistent]
    exact h.first
  | closeRound successCount =>
    refine ⟨?_, h.nextIndex.sendAppendEntriesCommit successCount⟩
    rw [Voter.stateAfter, sendAppendEntriesCommit]
    split
    · exact h.first
    · exact h.first
  | restart => contradiction

theorem LogOk.step {v v' : Voter A} {a : VoterAction A} (h : LogOk v.state)
    (hc : FileIntact (v :: tr) a) (hs : v.step me servers a = some v') : LogOk v'.state := by
  by_cases ha : a = .restart
  · subst ha
    rw [Voter.step] at hs
    cases hfile : v.state.file with
    | none =>
      rw [hfile] at hs
      contradiction
    | some p =>
      rw [hfile] at hs
      obtain ⟨⟩ := hs
      exact ⟨hc v rfl p hfile, .of_not_leader rfl⟩
  · rw [Voter.step_state hs]
    exact h.after ha

theorem logOk_run (h : Run (Voter.step me servers) FileIntact ⟨.init, false, []⟩ tr) :
    ∀ v ∈ tr, LogOk v.state :=
  h.forall_mem ⟨List.prefix_refl _, .of_not_leader rfl⟩ fun _ _ _ _ _ hc hi hs => hi.step hc hs

/-- What every state of a node is to allow: the log has its first entry, `append_entries` does not
panic, and a request for a peer is cut out of the log. -/
structure WellIndexed (me : A) (s : VariableState A) : Prop where
  first : ∃ logs, s.logs = initLog :: logs
  noPanic : ∀ req d₁ d₂, (appendEntriesOrPanic s req d₁ d₂).2 ≠ .error .panic
  request : ∀ addr req, (sendAppendEntriesRequest me s addr).2 = .waiting req → FromLog s.logs req
  /-- Neither of the two fallbacks that guard the log is used. -/
  guarded : ∀ addr next, addr ≠ me → s.role.nextIndexOf addr = some next →
    (getTerm s.logs ((checkedPred next).getD 0)).isSome ∧
      (getFrom s.logs ((checkedPred next).getD 0 + 1)).isSome
  /-- That of `checked_sub` is used where `next_index` is 0, and gives the first entry. -/
  base : ∀ addr next req, addr ≠ me → s.role.nextIndexOf addr = some next →
    checkedPred next = none → (sendAppendEntriesRequest me s addr).2 = .waiting req →
    next = 0 ∧ req.prevLogIndex = 0 ∧ req.prevLogTerm = initLog.term ∧ s.logs = initLog :: req.entries

theorem LogOk.wellIndexed (h : LogOk s) : WellIndexed me s := by
  obtain ⟨logs, hlogs⟩ := h.first
  have hrequest : ∀ addr req, (sendAppendEntriesRequest me s addr).2 = .waiting req →
      FromLog s.logs req :=
    fun addr req hreq => (fromLog_of_waiting h.nextIndex h.first.length_le hreq).2.2.1
  refine ⟨⟨logs, hlogs.symm⟩, fun req d₁ d₂ => ?_, hrequest, fun addr next haddr hnext => ?_,
    fun addr next req haddr hnext hpred hreq => ?_⟩
  · rw [appendEntriesOrPanic_eq]
    exact appendEntries_ne_panic s req d₁ d₂
  · have hlt : (checkedPred next).getD 0 < s.logs.length :=
      (hrequest addr _ (sendAppendEntriesRequest_eq haddr hnext)).prev_lt
    constructor
    · rw [getTerm, List.getElem?_eq_getElem hlt]
      rfl
    · rw [getFrom, if_pos (Nat.succ_le_of_lt hlt)]
      rfl
  · have hfrom := hrequest addr req hreq
    rw [sendAppendEntriesRequest_eq haddr hnext, hpred, Future.waiting.injEq] at hreq
    have hzero : next = 0 := by
      by_contra hne
      rw [checkedPred, if_neg hne] at hpred
      contradiction
    have hprev : req.prevLogIndex = 0 := by rw [← hreq]; rfl
    have hterm := hfrom.prevTerm
    have hentries := hfrom.entries
    rw [hprev, ← hlogs] at hterm hentries
    exact ⟨hzero, hprev, (Option.some.inj hterm).symm, by rw [hentries, ← hlogs]; rfl⟩

/-- **Every index is in range**, in every state that a node reaches from a fresh file. -/
theorem well_indexed (h : Run (Voter.step me servers) FileIntact ⟨.init, false, []⟩ tr) :
    ∀ v ∈ tr, WellIndexed me v.state :=
  fun v hv => (logOk_run h v hv).wellIndexed

instance (tr : List (Voter A)) (a : VoterAction A) : Decidable (FileIntact tr a) := by
  rcases a <;> dsimp only [FileIntact] <;> infer_instance

/-- A follower that is sent entries with an index far outside and merges others becomes leader,
takes a log and hears of a failure. -/
theorem well_indexed_leader : ∃ tr : List (Voter (Fin 3)), (∀ v ∈ tr, WellIndexed 0 v.state) ∧
    ∃ v ∈ tr, v.state.role.nextIndexOf 1 = some 1 ∧ v.state.logs.length = 4 := by
  have hcheck : Run.check (Voter.step (0 : Fin 3) {0, 1, 2})
      (fun tr a => decide (FileIntact tr a)) ⟨.init, false, []⟩
      [.appendEntries ⟨1, 2 ^ 64 - 1, 7, [⟨"a", 9⟩], 2 ^ 64 - 1⟩ .ok .ok,
        .appendEntries ⟨1, 0, 0, [⟨"a", 9⟩, ⟨"b", 3⟩], 2 ^ 64 - 1⟩ .ok .ok,
        .restart, .openElection .ok, .countVotes 2 .ok, .sendAppendEntries ["c"] .ok,
        .sendRound 1, .roundReply 1 false]
      (fun tr => decide (∃ v ∈ tr, v.state.role.nextIndexOf 1 = some 1 ∧
        v.state.logs.length = 4)) = true := by
    decide +kernel
  obtain ⟨tr, hrun, hp⟩ := Run.exists_of_check (fun _ _ hc => of_decide_eq_true hc) hcheck
  exact ⟨tr, well_indexed hrun, of_decide_eq_true hp⟩

/-- None of the three fallbacks of a request is needed, for any peer.  The first of them is for a
`next_index` of 0, from which nothing can be subtracted. -/
def NoFallback (me : A) (s : VariableState A) : Prop :=
  ∀ addr next, addr ≠ me → s.role.nextIndexOf addr = some next →
    (checkedPred next).isSome ∧ (getTerm s.logs ((checkedPred next).getD 0)).isSome ∧
      (getFrom s.logs ((checkedPred next).getD 0 + 1)).isSome

/-- **The first leader needs one**: its `next_index` is 0 for every peer. -/
theorem not_noFallback : ∃ tr : List (Voter (Fin 3)),
    Run (Voter.step 0 {0, 1, 2}) FileIntact ⟨.init, false, []⟩ tr ∧
      ∃ v ∈ tr, (∃ req, (sendAppendEntriesRequest 0 v.state 1).2 = .waiting req) ∧
        ¬NoFallback 0 v.state := by
  have hcheck : Run.check (Voter.step (0 : Fin 3) {0, 1, 2})
      (fun tr a => decide (FileIntact tr a)) ⟨.init, false, []⟩
      [.openElection .ok, .countVotes 2 .ok, .sendAppendEntries [] .ok]
      (fun tr => decide (∃ v ∈ tr, v.state.role.nextIndexOf 1 = some 0)) = true := by
    decide +kernel
  obtain ⟨tr, hrun, hp⟩ := Run.exists_of_check (fun _ _ hc => of_decide_eq_true hc) hcheck
  obtain ⟨v, hv, hnext⟩ := of_decide_eq_true hp
  refine ⟨tr, hrun, v, hv, ⟨_, sendAppendEntriesRequest_eq (by decide) hnext⟩, fun hno => ?_⟩
  have hpred := (hno 1 0 (by decide) hnext).1
  simp [checkedPred] at hpred

end Raft
end DistributedPrograms
