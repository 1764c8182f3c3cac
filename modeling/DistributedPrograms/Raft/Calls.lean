import Mathlib.Data.Finset.Card
import DistributedPrograms.Raft.Handlers

/-!
# The calls a Raft node makes

`send_append_entries` and `open_election` release the lock while they wait for their peers, so each
is cut at the points where another task can get in between:

* `sendAppendEntriesAppend`, under the write lock: the role test, the append and the save;
* for each server one future, which looks at the state (`sendAppendEntriesRequest`, read lock),
  waits for the reply without a lock, and looks at the state again (`sendAppendEntriesReply`, read
  lock);
* `sendAppendEntriesCommit`, under the write lock: the count and the new `commit_index`.

`append_entries_lock` does not appear.  The statement is `let _ = ….lock().await`, and a guard bound
to `_` is dropped at once, so the lock is free again before the next line runs.

* `openElectionStart`, under the write lock;
* for each server one future, which builds its request (`openElectionRequest`) and, the guard being
  a variable of the future, keeps the *read lock until the reply is there*;
* `openElectionCount`, under the write lock.

The two maps of a leader have locks of their own, but every access happens under the read lock of
the node, and no section touches one map twice with something of another section in between that
would matter; so each section under the read lock is one step.
-/

set_option autoImplicit false

namespace DistributedPrograms
namespace Raft

variable {A : Type} [DecidableEq A]

open VariableState

/-- One of the futures a call joins: not started, waiting for the reply to `req`, or finished with
a result, `none` for an error.  A finished future remembers what it had sent. -/
inductive Future (Req : Type)
  | idle
  | waiting (req : Req)
  | done (req : Option Req) (res : Option Bool)
deriving DecidableEq, Repr

namespace Future

variable {Req : Type}

def isIdle : Future Req → Bool
  | idle => true
  | _ => false

def isWaiting : Future Req → Bool
  | waiting _ => true
  | _ => false

def isDone : Future Req → Bool
  | done _ _ => true
  | _ => false

/-- The future ended with `Ok(true)`. -/
def succeeded : Future Req → Bool
  | done _ (some b) => b
  | _ => false

/-- The request the future has sent, if it has sent one.  A future that has ended still remembers
it, because what it asked for says what its success is worth. -/
def sent : Future Req → Option Req
  | idle => none
  | waiting req => some req
  | done req _ => req

theorem succeeded_iff {f : Future Req} : f.succeeded = true ↔ ∃ req, f = done req (some true) := by
  cases f with
  | idle => simp [succeeded]
  | waiting req => simp [succeeded]
  | done req res => cases res <;> simp [succeeded]

@[simp] theorem isWaiting_waiting (req : Req) : (waiting req).isWaiting = true := rfl
@[simp] theorem sent_idle : (idle : Future Req).sent = none := rfl
@[simp] theorem sent_waiting (req : Req) : (waiting req).sent = some req := rfl
@[simp] theorem sent_done (req : Option Req) (res : Option Bool) : (done req res).sent = req := rfl

theorem isIdle_iff {f : Future Req} : f.isIdle = true ↔ f = idle := by
  cases f <;> simp [isIdle]

theorem isDone_iff {f : Future Req} : f.isDone = true ↔ ∃ req res, f = done req res := by
  cases f <;> simp [isDone]

end Future

/-! ## `send_append_entries`

The append at its start, a future before and after its RPC, and the count at its end. -/

/-- The start of `send_append_entries`: only a leader goes on, and it appends the texts under its
own term.  When the save fails the entries stay in the log. -/
def sendAppendEntriesAppend (s : VariableState A) (appendLogs : List String) (d : Disk A) :
    Outcome A Unit :=
  if !s.role.isLeader then (s, .error (.message "i_am_not_leader"))
  else
    let logs := appendLogs.map fun text => (⟨text, s.currentTerm⟩ : Log)
    savePersistent { s with persistent := { s.persistent with logs := s.logs ++ logs } } d

/-- A future of `send_append_entries` up to its RPC.  A node that is not leader (any more) answers
`Ok(true)`, as does the node itself. -/
def sendAppendEntriesRequest (me : A) (s : VariableState A) (addr : A) :
    VariableState A × Future AppendEntriesRequest :=
  match s.role with
  | .leader nextIndex matchIndex =>
    if addr = me then
      ({ s with role := .leader (Function.update nextIndex me (some s.logs.length))
                  (Function.update matchIndex me (some (s.logs.length - 1))) },
        .done none (some true))
    else
      match nextIndex addr with
      | none => (s, .done none none)
      | some next =>
        let prevLogIndex := next - 1
        (s, .waiting
          { term := s.currentTerm
            prevLogIndex := prevLogIndex
            prevLogTerm := (s.logs[prevLogIndex]?.map Log.term).getD 0
            entries := s.logs.drop (prevLogIndex + 1)
            leaderCommit := s.commitIndex })
  | _ => (s, .done none (some true))

/-- A future of `send_append_entries` after its RPC.  The length of the log is read again. -/
def sendAppendEntriesReply (s : VariableState A) (addr : A) (success : Bool) :
    VariableState A × Bool :=
  match s.role with
  | .leader nextIndex matchIndex =>
    if success then
      ({ s with role := .leader (Function.update nextIndex addr (some s.logs.length))
                  (Function.update matchIndex addr (some (s.logs.length - 1))) }, true)
    else
      ({ s with role := .leader
                  (Function.update nextIndex addr
                    ((nextIndex addr).map fun next => if next ≠ 0 then next - 1 else next))
                  matchIndex }, false)
  | _ => (s, true)

/-- The end of `send_append_entries`: a majority of successes commits the whole log, whoever is
leader by now. -/
def sendAppendEntriesCommit (servers : Finset A) (s : VariableState A) (successCount : Nat) :
    VariableState A × Bool :=
  if successCount * 2 > servers.card then ({ s with commitIndex := s.logs.length - 1 }, true)
  else (s, false)

/-! ## `open_election`

Its start, a future before and after its RPC, and the count at its end. -/

/-- The start of `open_election` once its sleep is over: a follower becomes candidate of the next
term.  The result says whether an election was started; an error leaves the candidate behind. -/
def openElectionStart (s : VariableState A) (d : Disk A) : Outcome A Bool :=
  if !s.role.isFollower then (s, .ok false)
  else
    (savePersistent
      { s with
        role := .candidate
        persistent := { s.persistent with currentTerm := wrappingSucc s.currentTerm } } d).andThen
      fun s _ => ({ s with persistent := { s.persistent with votedFor := none } }, .ok true)

/-- The request a future of `open_election` builds, from the state it finds.  It takes the read lock
again for this, so another future of the same election may build a different one. -/
def openElectionRequest (me : A) (s : VariableState A) : RequestVoteRequest A :=
  { term := s.currentTerm
    candidateId := me
    lastLogIndex := s.logs.length - 1
    lastLogTerm := lastLogTerm s.logs }

/-- The end of `open_election`: a node that is still candidate wins or loses. -/
def openElectionCount (servers : Finset A) (s : VariableState A) (voteResult : Nat) (d : Disk A) :
    Outcome A Unit :=
  if !s.role.isCandidate then (s, .ok ())
  else if voteResult * 2 > servers.card then
    (savePersistent { s with persistent := { s.persistent with votedFor := none } } d).andThen
      fun s _ =>
        ({ s with role := .leader (fun a => if a ∈ servers then some (s.logs.length - 1) else none)
                    (fun a => if a ∈ servers then some 0 else none) }, .ok ())
  else
    (savePersistent { s with persistent := { s.persistent with votedFor := none } } d).andThen
      fun s _ => ({ s with role := .follower }, .ok ())

/-! ## What the pieces do to a node

Which fields of a state a piece leaves alone. -/

/-- The two states differ at most in the file and in a leader's index maps, and no `next_index` is
above both what it was and the end of the log. -/
structure SameNode (s t : VariableState A) : Prop where
  persistent : t.persistent = s.persistent
  commitIndex : t.commitIndex = s.commitIndex
  role : t.role = s.role ∨ (t.role.isLeader = true ∧ s.role.isLeader = true)
  nextIndex : ∀ next' mtch', t.role = .leader next' mtch' → ∃ next mtch,
    s.role = .leader next mtch ∧ ∀ a k', next' a = some k' →
      k' ≤ s.logs.length ∨ ∃ k, next a = some k ∧ k' ≤ k

omit [DecidableEq A] in
theorem SameNode.refl (s : VariableState A) : SameNode s s :=
  ⟨rfl, rfl, Or.inl rfl, fun next mtch h =>
    ⟨next, mtch, h, fun _ k hk => Or.inr ⟨k, hk, Nat.le_refl k⟩⟩⟩

omit [DecidableEq A] in
theorem SameNode.currentTerm_eq {s t : VariableState A} (h : SameNode s t) :
    t.currentTerm = s.currentTerm :=
  congrArg Persistent.currentTerm h.persistent

omit [DecidableEq A] in
theorem SameNode.isLeader {s t : VariableState A} (h : SameNode s t) :
    t.role.isLeader = s.role.isLeader := by
  rcases h.role with h | ⟨h1, h2⟩
  · rw [h]
  · rw [h1, h2]

omit [DecidableEq A] in
theorem SameNode.candidate_iff {s t : VariableState A} (h : SameNode s t) :
    t.role = .candidate ↔ s.role = .candidate := by
  rcases h.role with h | ⟨h1, h2⟩
  · rw [h]
  · constructor <;> intro hr <;> simp [hr] at h1 h2

omit [DecidableEq A] in
theorem SameNode.follower_iff {s t : VariableState A} (h : SameNode s t) :
    t.role = .follower ↔ s.role = .follower := by
  rcases h.role with h | ⟨h1, h2⟩
  · rw [h]
  · constructor <;> intro hr <;> simp [hr] at h1 h2

omit [DecidableEq A] in
/-- Either nothing but an error comes of the call, or the node is leader and its log has grown. -/
theorem sendAppendEntriesAppend_cases (s : VariableState A) (texts : List String) (d : Disk A) :
    (s.role.isLeader = false ∧ (sendAppendEntriesAppend s texts d).1 = s ∧
      ∃ e, (sendAppendEntriesAppend s texts d).2 = .error e) ∨
    (s.role.isLeader = true ∧ ∃ file, (sendAppendEntriesAppend s texts d).1 =
      { s with
        file := file
        persistent :=
          { s.persistent with
            logs := s.logs ++ texts.map fun text => ⟨text, s.currentTerm⟩ } }) := by
  rw [sendAppendEntriesAppend]
  cases hl : s.role.isLeader with
  | false => exact Or.inl ⟨rfl, by simp, .message "i_am_not_leader", by simp⟩
  | true =>
    refine Or.inr ⟨rfl, ?_⟩
    simp only [Bool.not_true, Bool.false_eq_true, if_false]
    obtain ⟨file, h | h⟩ := savePersistent_cases { s with persistent :=
      { s.persistent with logs := s.logs ++ texts.map fun text => ⟨text, s.currentTerm⟩ } } d
    · exact ⟨file, by rw [h]⟩
    · exact ⟨file, by rw [h]⟩

theorem sendAppendEntriesRequest_same (me : A) (s : VariableState A) (addr : A) :
    SameNode s (sendAppendEntriesRequest me s addr).1 := by
  rw [sendAppendEntriesRequest]
  split
  · rename_i next mtch hr
    split
    · refine ⟨rfl, rfl, Or.inr ⟨rfl, by simp [hr]⟩, fun next' mtch' h => ⟨next, mtch, hr, ?_⟩⟩
      cases h
      intro a k' hk'
      by_cases ha : a = me
      · subst ha
        rw [Function.update_self] at hk'
        exact Or.inl (Nat.le_of_eq (Option.some.inj hk').symm)
      · rw [Function.update_of_ne ha] at hk'
        exact Or.inr ⟨k', hk', Nat.le_refl k'⟩
    · split <;> exact SameNode.refl s
  · exact SameNode.refl s

theorem sendAppendEntriesReply_same (s : VariableState A) (addr : A) (success : Bool) :
    SameNode s (sendAppendEntriesReply s addr success).1 := by
  rw [sendAppendEntriesReply]
  split
  · rename_i next mtch hr
    split
    all_goals
      refine ⟨rfl, rfl, Or.inr ⟨rfl, by simp [hr]⟩, fun next' mtch' h => ⟨next, mtch, hr, ?_⟩⟩
      cases h
      intro a k' hk'
      by_cases ha : a = addr
      · subst ha
        rw [Function.update_self] at hk'
        first
          | exact Or.inl (Nat.le_of_eq (Option.some.inj hk').symm)
          | obtain ⟨k, hk, rfl⟩ := Option.map_eq_some_iff.1 hk'
            refine Or.inr ⟨k, hk, ?_⟩
            split <;> omega
      · rw [Function.update_of_ne ha] at hk'
        exact Or.inr ⟨k', hk', Nat.le_refl k'⟩
  · exact SameNode.refl s

/-- On a node that is not leader (any more) a future only ends, with `Ok(true)`. -/
theorem sendAppendEntriesRequest_of_not_leader (me : A) {s : VariableState A} (addr : A)
    (h : s.role.isLeader = false) :
    sendAppendEntriesRequest me s addr = (s, .done none (some true)) := by
  rw [sendAppendEntriesRequest]
  cases hr : s.role with
  | leader next mtch =>
    rw [hr] at h
    contradiction
  | _ => rfl

/-- Only a leader sends a request, in its current term. -/
theorem sendAppendEntriesRequest_term {n p : A} {s : VariableState A} {req : AppendEntriesRequest}
    (h : (sendAppendEntriesRequest n s p).2.sent = some req) :
    s.role.isLeader = true ∧ req.term = s.currentTerm := by
  cases hlead : s.role.isLeader with
  | false =>
    rw [sendAppendEntriesRequest_of_not_leader n p hlead] at h
    contradiction
  | true =>
    refine ⟨rfl, ?_⟩
    rw [sendAppendEntriesRequest] at h
    split at h
    · split at h
      · contradiction
      · split at h
        · contradiction
        · obtain ⟨⟩ := h
          rfl
    · contradiction

/-- A future writes the `match_index` of its own node only before its RPC. -/
theorem sendAppendEntriesRequest_matchIndex {me : A} {s : VariableState A} {addr p : A} {j : Nat}
    (h : (sendAppendEntriesRequest me s addr).1.role.matchIndexOf p = some j) :
    s.role.matchIndexOf p = some j ∨
      (p = me ∧ s.role.isLeader = true ∧ j = s.logs.length - 1) := by
  rw [sendAppendEntriesRequest] at h
  cases hr : s.role with
  | follower => simp [hr] at h
  | candidate => simp [hr] at h
  | leader next mtch =>
    simp only [hr] at h
    by_cases ha : addr = me
    · rw [if_pos ha] at h
      simp only [Role.matchIndexOf_leader, Function.update_apply] at h
      by_cases hp : p = me
      · rw [if_pos hp] at h
        exact Or.inr ⟨hp, rfl, (Option.some.inj h).symm⟩
      · rw [if_neg hp] at h
        exact Or.inl h
    · rw [if_neg ha] at h
      refine Or.inl ?_
      cases hk : next addr <;> simpa [hk, hr] using h

/-- After its RPC a future writes the `match_index` of its peer, and only for a success. -/
theorem sendAppendEntriesReply_matchIndex {s : VariableState A} {addr p : A} {b : Bool} {j : Nat}
    (h : (sendAppendEntriesReply s addr b).1.role.matchIndexOf p = some j) :
    s.role.matchIndexOf p = some j ∨
      (p = addr ∧ b = true ∧ s.role.isLeader = true ∧ j = s.logs.length - 1) := by
  rw [sendAppendEntriesReply] at h
  cases hr : s.role with
  | follower => simp [hr] at h
  | candidate => simp [hr] at h
  | leader next mtch =>
    simp only [hr] at h
    cases b with
    | false => exact Or.inl (by simpa using h)
    | true =>
      simp only [if_true, Role.matchIndexOf_leader, Function.update_apply] at h
      by_cases hp : p = addr
      · rw [if_pos hp] at h
        exact Or.inr ⟨hp, rfl, rfl, (Option.some.inj h).symm⟩
      · rw [if_neg hp] at h
        exact Or.inl h

omit [DecidableEq A] in
/-- A node that is not follower starts no election; a follower becomes candidate of the next term,
and the election is on exactly when the save succeeds. -/
theorem openElectionStart_cases (s : VariableState A) (d : Disk A) :
    (s.role ≠ .follower ∧ openElectionStart s d = (s, .ok false)) ∨
    (s.role = .follower ∧ ∃ file votedFor, (votedFor = none ∨ votedFor = s.votedFor) ∧
      (openElectionStart s d).1 =
        ⟨.candidate, file, ⟨wrappingSucc s.currentTerm, votedFor, s.logs⟩, s.commitIndex⟩ ∧
      ((openElectionStart s d).2 = .ok true ∧ votedFor = none ∨
        (openElectionStart s d).2 = .error .io)) := by
  rw [openElectionStart]
  by_cases hf : s.role = .follower
  · refine Or.inr ⟨hf, ?_⟩
    simp only [Role.isFollower_iff.2 hf, Bool.not_true, Bool.false_eq_true, if_false]
    obtain ⟨file, h | h⟩ := savePersistent_cases { s with
      role := .candidate
      persistent := { s.persistent with currentTerm := wrappingSucc s.currentTerm } } d
    · exact ⟨file, none, Or.inl rfl, by rw [h]; rfl, Or.inl ⟨by rw [h]; rfl, rfl⟩⟩
    · exact ⟨file, s.votedFor, Or.inr rfl, by rw [h]; rfl, Or.inr (by rw [h]; rfl)⟩
  · refine Or.inl ⟨hf, ?_⟩
    have : s.role.isFollower = false := by
      cases hr : s.role.isFollower with
      | false => rfl
      | true => exact absurd (Role.isFollower_iff.1 hr) hf
    simp [this]

/-- The end of an election leaves a node alone that is no longer candidate; else the vote on record
is cleared, and the role is leader only with a majority. -/
theorem openElectionCount_cases (servers : Finset A) (s : VariableState A) (n : Nat) (d : Disk A) :
    (s.role ≠ .candidate ∧ (openElectionCount servers s n d).1 = s) ∨
    (s.role = .candidate ∧ ∃ role file, (openElectionCount servers s n d).1 =
        ⟨role, file, ⟨s.currentTerm, none, s.logs⟩, s.commitIndex⟩ ∧
      (role = .candidate ∨ role = .follower ∨
        (n * 2 > servers.card ∧
          role = .leader (fun a => if a ∈ servers then some (s.logs.length - 1) else none)
            (fun a => if a ∈ servers then some 0 else none)))) := by
  rw [openElectionCount]
  by_cases hc : s.role = .candidate
  · refine Or.inr ⟨hc, ?_⟩
    simp only [Role.isCandidate_iff.2 hc, Bool.not_true, Bool.false_eq_true, if_false]
    split
    · rename_i hmaj
      obtain ⟨file, h | h⟩ := savePersistent_cases
        { s with persistent := { s.persistent with votedFor := none } } d
      · exact ⟨_, file, by rw [h]; rfl, Or.inr (Or.inr ⟨hmaj, rfl⟩)⟩
      · exact ⟨.candidate, file, by rw [h, ← hc]; rfl, Or.inl rfl⟩
    · obtain ⟨file, h | h⟩ := savePersistent_cases
        { s with persistent := { s.persistent with votedFor := none } } d
      · exact ⟨.follower, file, by rw [h]; rfl, Or.inr (Or.inl rfl)⟩
      · exact ⟨.candidate, file, by rw [h, ← hc]; rfl, Or.inl rfl⟩
  · refine Or.inl ⟨hc, ?_⟩
    have : s.role.isCandidate = false := by
      cases hr : s.role.isCandidate with
      | false => rfl
      | true => exact absurd (Role.isCandidate_iff.1 hr) hc
    simp [this]

end Raft
end DistributedPrograms
