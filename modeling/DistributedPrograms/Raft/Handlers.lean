import Mathlib.Data.List.InsertIdx
import DistributedPrograms.Raft.State

/-!
# The RPC handlers of a Raft node

`append_entries`, `request_vote` and `get_log` of `raft2/src/lib.rs`.  A handler holds the write
lock from its first line to its return, so it is one function of the state.  `putoff_timeout` is
left out: it only feeds the timers, and it cannot fail because `State` itself keeps a receiver of
the channel.

A handler returns an `Outcome`: the state it leaves behind, and an answer or an error.  The state of
an error is not the one from before, because nothing in the code undoes what was done up to a `?`.
`append_entries` and `request_vote` save up to twice; `d₁` and `d₂` say how these saves end.

The two handlers begin alike: a request of a newer term makes the node a follower of that term and
saves it (`turnToFollower`, `Adopted`).  Then each goes its own way:

* `decideVote` is the log test and the vote.  The test is `log_condition` as the source has it, a
  disjunction, and the vote on record is cleared where the test fails.
* `storeEntries` is the consistency check and the update of the log: `resizeLogs` and then one
  `Vec::insert` for each entry (`insertEntries`), each of which can panic.  `updateLogs_eq` says
  that behind the check none does, and what comes out is `mergedLogs`.

Each handler gets one specification (`RequestVoteSpec`, `AppendEntriesSpec`) that says what the
invariants of a cluster use of it.  Where a handler answers, and what the answer says, is in
`requestVote_answer` and `appendEntries_answer`, and what becomes of the term and of the vote on
record whatever the saves do is in `requestVote_currentTerm`, `requestVote_votedFor`,
`appendEntries_currentTerm` and `appendEntries_votedFor`.
-/

set_option autoImplicit false

namespace DistributedPrograms
namespace Raft

variable {A : Type}

open VariableState

/-! ## Falling back to follower

The common prologue.  It comes out in one of three ways: nothing happens, the newer term is adopted
and saved, or the save fails and the handler stops there, with the new term in memory. -/

/-- The common prologue of both handlers: a request of a newer term makes the node a follower of
that term without a vote. -/
def VariableState.turnToFollower (s : VariableState A) (term : Nat) (d : Disk A) :
    Outcome A Unit :=
  if term > s.currentTerm then
    savePersistent { s with role := .follower, persistent := ⟨term, none, s.logs⟩ } d
  else (s, .ok ())

theorem savePersistent_cases (s : VariableState A) (d : Disk A) :
    ∃ file, s.savePersistent d = ({ s with file := file }, .ok ()) ∨
      s.savePersistent d = ({ s with file := file }, .error .io) := by
  cases d with
  | ok => exact ⟨_, Or.inl rfl⟩
  | err left => exact ⟨left, Or.inr rfl⟩

/-- Either nothing happens, or the node is a follower of the newer term, saved or not. -/
theorem turnToFollower_cases (s : VariableState A) (term : Nat) (d : Disk A) :
    (term ≤ s.currentTerm ∧ s.turnToFollower term d = (s, .ok ())) ∨
    (s.currentTerm < term ∧ ∃ file,
      (s.turnToFollower term d = (⟨.follower, file, ⟨term, none, s.logs⟩, s.commitIndex⟩, .ok ()) ∨
       s.turnToFollower term d =
        (⟨.follower, file, ⟨term, none, s.logs⟩, s.commitIndex⟩, .error .io))) := by
  by_cases h : term > s.currentTerm
  · refine Or.inr ⟨h, ?_⟩
    rw [turnToFollower, if_pos h]
    exact savePersistent_cases _ d
  · refine Or.inl ⟨Nat.le_of_not_lt h, ?_⟩
    rw [turnToFollower, if_neg h]

/-- The state `t` a handler is in once the request's term is adopted in state `s`: the same, or a
follower of a newer term. -/
def Adopted (s : VariableState A) (term : Nat) (t : VariableState A) : Prop :=
  t.logs = s.logs ∧ t.commitIndex = s.commitIndex ∧ t.currentTerm = term ∧
    ((t.role = s.role ∧ s.currentTerm = term ∧ t.votedFor = s.votedFor) ∨
      (t.role = .follower ∧ t.votedFor = none ∧ s.currentTerm < term))

namespace Adopted

variable {s t : VariableState A} {term : Nat}

theorem role_term (h : Adopted s term t) : (t.role = s.role ∧ t.currentTerm = s.currentTerm) ∨
    (t.role = .follower ∧ t.currentTerm = term ∧ s.currentTerm < term) := by
  obtain ⟨-, -, hterm, ⟨h1, h2, -⟩ | ⟨h1, -, h2⟩⟩ := h
  · exact Or.inl ⟨h1, hterm.trans h2.symm⟩
  · exact Or.inr ⟨h1, hterm, h2⟩

theorem le (h : Adopted s term t) : s.currentTerm ≤ term := by
  obtain ⟨-, -, -, ⟨-, h2, -⟩ | ⟨-, -, h2⟩⟩ := h <;> omega

theorem votedFor (h : Adopted s term t) (c : A) (hc : t.votedFor = some c) :
    t.currentTerm = s.currentTerm ∧ s.votedFor = some c := by
  obtain ⟨-, -, hterm, ⟨-, h2, h3⟩ | ⟨-, h3, -⟩⟩ := h
  · exact ⟨hterm.trans h2.symm, h3 ▸ hc⟩
  · rw [h3] at hc; exact absurd hc (by simp)

theorem votedFor_eq (h : Adopted s term t) (hterm : t.currentTerm = s.currentTerm) :
    t.votedFor = s.votedFor := by
  obtain ⟨-, -, hnew, ⟨-, -, h3⟩ | ⟨-, -, hlt⟩⟩ := h
  · exact h3
  · omega

end Adopted

/-- Adopting the term of a request that is not older: it succeeds, or the handler stops there. -/
theorem turnToFollower_adopted {s : VariableState A} {term : Nat} (h : ¬term < s.currentTerm)
    (d : Disk A) : ∃ t, Adopted s term t ∧
      (s.turnToFollower term d = (t, .ok ()) ∨ s.turnToFollower term d = (t, .error .io)) := by
  rcases turnToFollower_cases s term d with ⟨hle, heq⟩ | ⟨hgt, file, heq⟩
  · have hterm : s.currentTerm = term := by omega
    exact ⟨s, ⟨rfl, rfl, hterm, Or.inl ⟨rfl, hterm, rfl⟩⟩, Or.inl heq⟩
  · exact ⟨⟨.follower, file, ⟨term, none, s.logs⟩, s.commitIndex⟩,
      ⟨rfl, rfl, rfl, Or.inr ⟨rfl, rfl, hgt⟩⟩, heq⟩

theorem turnToFollower_saved {s : VariableState A} {term : Nat} {d : Disk A}
    (h : ¬term < s.currentTerm) (hd : s.currentTerm < term → d = .ok) :
    ∃ t, Adopted s term t ∧ s.turnToFollower term d = (t, .ok ()) := by
  obtain ⟨t, ht, heq | heq⟩ := turnToFollower_adopted h d
  · exact ⟨t, ht, heq⟩
  · rw [turnToFollower] at heq
    split at heq
    · next hgt => simp [hd hgt, savePersistent] at heq
    · simp at heq

theorem turnToFollower_failed {s : VariableState A} {term : Nat} {d : Disk A}
    (hd : ¬(s.currentTerm < term → d = .ok)) : ∃ t : VariableState A, t.logs = s.logs ∧
      t.commitIndex = s.commitIndex ∧ s.turnToFollower term d = (t, .error .io) := by
  obtain ⟨hnewer, hfailed⟩ := Classical.not_imp.1 hd
  cases d with
  | ok => contradiction
  | err left =>
    refine ⟨⟨.follower, left, ⟨term, none, s.logs⟩, s.commitIndex⟩, rfl, rfl, ?_⟩
    rw [turnToFollower, if_pos hnewer, savePersistent]

/-! ## `request_vote`

`decideVote` is cut off from the prologue because nothing in it depends on how the term came to be
that of the request. -/

section RequestVote

variable [DecidableEq A]

/-- `logs.last().map(|log| log.term).unwrap_or(0)`. -/
def lastLogTerm (logs : List Log) : Nat := (logs.getLast?.map Log.term).getD 0

/-- `log_condition` of `request_vote`.  The two tests are joined by `||`, so a log that is long
enough is accepted whatever the term of its last entry is; the index is computed in 64 bits and
wraps. -/
def logCondition (logs : List Log) (req : RequestVoteRequest A) : Bool :=
  req.lastLogTerm > lastLogTerm logs || wrappingSucc req.lastLogIndex ≥ logs.length

/-- `request_vote` from the log test on, when the node's term is the request's.  A candidate that
has the vote already and fails the log test loses it again. -/
def decideVote (s : VariableState A) (req : RequestVoteRequest A) (d : Disk A) :
    Outcome A RequestVoteResponse :=
  if !logCondition s.logs req then
    if some req.candidateId = s.votedFor then
      (savePersistent { s with persistent := { s.persistent with votedFor := none } } d).andThen
        fun s _ => (s, .ok ⟨max req.term s.currentTerm, false⟩)
    else (s, .ok ⟨max req.term s.currentTerm, false⟩)
  else if (s.votedFor.map fun candidate => candidate == req.candidateId).getD true then
    (savePersistent
      { s with persistent := { s.persistent with votedFor := some req.candidateId } } d).andThen
      fun s _ => (s, .ok ⟨max req.term s.currentTerm, true⟩)
  else (s, .ok ⟨max req.term s.currentTerm, false⟩)

/-- `request_vote`.  The request of an older term is refused before anything is touched; a newer one
makes the node a follower first, and this is saved by itself. -/
def requestVote (s : VariableState A) (req : RequestVoteRequest A) (d₁ d₂ : Disk A) :
    Outcome A RequestVoteResponse :=
  if req.term < s.currentTerm then (s, .ok ⟨req.term, false⟩)
  else (s.turnToFollower req.term d₁).andThen fun s _ => decideVote s req d₂

/-- What a node looks at before it gives its vote: the request's term is not older, its log passes
`log_condition`, and the vote of that term is free or already the candidate's. -/
def WouldGrant (s : VariableState A) (req : RequestVoteRequest A) : Prop :=
  s.currentTerm ≤ req.term ∧ logCondition s.logs req = true ∧
    (s.currentTerm < req.term ∨ s.votedFor = none ∨ s.votedFor = some req.candidateId)

instance (s : VariableState A) (req : RequestVoteRequest A) : Decidable (WouldGrant s req) := by
  unfold WouldGrant; infer_instance

/-- Everything `request_vote` can do to a node, whatever the request and whether or not the saves
succeed.  The invariants cite this and never unfold the handler. -/
structure RequestVoteSpec (s : VariableState A) (req : RequestVoteRequest A)
    (o : Outcome A RequestVoteResponse) : Prop where
  logs : o.1.logs = s.logs
  commitIndex : o.1.commitIndex = s.commitIndex
  /-- Role and term are kept, or the node is a follower of the request's newer term. -/
  role_term : (o.1.role = s.role ∧ o.1.currentTerm = s.currentTerm) ∨
    (o.1.role = .follower ∧ o.1.currentTerm = req.term ∧ s.currentTerm < req.term)
  /-- A vote on record afterwards is the old one or was given to this request. -/
  votedFor : ∀ c, o.1.votedFor = some c →
    (o.1.currentTerm = s.currentTerm ∧ s.votedFor = some c) ∨
    (WouldGrant s req ∧ c = req.candidateId ∧ o.1.currentTerm = req.term)
  /-- A vote that is answered was free to give and is on record. -/
  granted : ∀ res, o.2 = .ok res → res.voteGranted = true →
    WouldGrant s req ∧ o.1.currentTerm = req.term ∧ o.1.votedFor = some req.candidateId ∧
      res.term = req.term

omit [DecidableEq A] in
/-- A node that is not follower afterwards has not taken over anything. -/
theorem RequestVoteSpec.kept {s : VariableState A} {req : RequestVoteRequest A}
    {o : Outcome A RequestVoteResponse} (h : RequestVoteSpec s req o) (hrole : o.1.role ≠ .follower) :
    o.1.role = s.role ∧ o.1.currentTerm = s.currentTerm :=
  h.role_term.resolve_right fun hnewer => hrole hnewer.1

theorem decideVote_spec {s t : VariableState A} {req : RequestVoteRequest A}
    (h : Adopted s req.term t) (d : Disk A) : RequestVoteSpec s req (decideVote t req d) := by
  obtain ⟨hlogs, hci, hterm, hcases⟩ := id h
  have hkeep : ∀ res : RequestVoteResponse, res.voteGranted = false →
      RequestVoteSpec s req (t, .ok res) := by
    intro res hres
    refine ⟨hlogs, hci, h.role_term, fun c hc => Or.inl (h.votedFor c hc), fun r hr hg => ?_⟩
    cases hr
    rw [hres] at hg
    exact absurd hg (by simp)
  rw [decideVote]
  split
  · split
    · -- the vote given to this candidate is taken back
      obtain ⟨file, heq | heq⟩ := savePersistent_cases
        { t with persistent := { t.persistent with votedFor := none } } d
      · rw [heq]
        refine ⟨hlogs, hci, h.role_term, fun c hc => absurd hc (by simp), fun r hr hg => ?_⟩
        cases hr
        exact absurd hg (by simp)
      · rw [heq]
        exact ⟨hlogs, hci, h.role_term, fun c hc => absurd hc (by simp), fun r hr => by
          simp at hr⟩
    · exact hkeep _ rfl
  · rename_i hcond
    split
    · rename_i hfree
      have hfree' : t.votedFor = none ∨ t.votedFor = some req.candidateId := by
        cases hv : t.votedFor with
        | none => exact Or.inl rfl
        | some c => simp [hv] at hfree; simp [hfree]
      have hwould : WouldGrant s req := by
        refine ⟨h.le, by rw [← hlogs]; simpa using hcond, ?_⟩
        rcases hcases with ⟨-, -, h3⟩ | ⟨-, -, h2⟩
        · exact Or.inr (h3 ▸ hfree')
        · exact Or.inl h2
      obtain ⟨file, heq | heq⟩ := savePersistent_cases
        { t with persistent := { t.persistent with votedFor := some req.candidateId } } d
      · rw [heq]
        refine ⟨hlogs, hci, h.role_term, fun c hc => Or.inr ⟨hwould, ?_, hterm⟩, fun r hr _ => ?_⟩
        · simpa using hc.symm
        · cases hr
          exact ⟨hwould, hterm, rfl, Nat.max_eq_left (Nat.le_of_eq hterm)⟩
      · rw [heq]
        refine ⟨hlogs, hci, h.role_term, fun c hc => Or.inr ⟨hwould, ?_, hterm⟩, fun r hr => ?_⟩
        · simpa using hc.symm
        · simp at hr
    · exact hkeep _ rfl

theorem requestVote_spec (s : VariableState A) (req : RequestVoteRequest A) (d₁ d₂ : Disk A) :
    RequestVoteSpec s req (requestVote s req d₁ d₂) := by
  rw [requestVote]
  split
  · refine ⟨rfl, rfl, Or.inl ⟨rfl, rfl⟩, fun c hc => Or.inl ⟨rfl, hc⟩, fun r hr hg => ?_⟩
    cases hr
    exact absurd hg (by simp)
  · rename_i hlt
    obtain ⟨t, ht, heq | heq⟩ := turnToFollower_adopted hlt d₁
    · rw [heq]
      exact decideVote_spec ht d₂
    · rw [heq]
      exact ⟨ht.1, ht.2.1, ht.role_term, fun c hc => Or.inl (ht.votedFor c hc), fun r hr => by
        simp at hr⟩

/-! ### The answer and the vote on record

What a candidate is told against what the node remembers. -/

omit [DecidableEq A] in
theorem logCondition_iff {logs : List Log} {req : RequestVoteRequest A} :
    logCondition logs req = true ↔
      lastLogTerm logs < req.lastLogTerm ∨ logs.length ≤ wrappingSucc req.lastLogIndex := by
  simp [logCondition]

theorem votedFor_free_iff {votedFor : Option A} {a : A} :
    (votedFor.map fun candidate => candidate == a).getD true = true ↔
      votedFor = none ∨ votedFor = some a := by
  cases votedFor <;> simp

/-- **Whoever is answered is granted exactly what the node would grant.** -/
theorem requestVote_answer {s : VariableState A} {req : RequestVoteRequest A} {d₁ d₂ : Disk A}
    {res : RequestVoteResponse} (h : (requestVote s req d₁ d₂).2 = .ok res) :
    res.voteGranted = true ↔ WouldGrant s req := by
  refine ⟨fun hg => ((requestVote_spec s req d₁ d₂).granted res h hg).1, fun hw => ?_⟩
  obtain ⟨hterm, hlog, hfree⟩ := hw
  rw [requestVote, if_neg (Nat.not_lt.2 hterm)] at h
  obtain ⟨t, ht, heq | heq⟩ := turnToFollower_adopted (Nat.not_lt.2 hterm) d₁
  · have hlog' : logCondition t.logs req = true := ht.1 ▸ hlog
    have hfree' : t.votedFor = none ∨ t.votedFor = some req.candidateId := by
      obtain ⟨-, -, -, ⟨-, hsame, hvoted⟩ | ⟨-, hnone, -⟩⟩ := ht
      · rw [hvoted]
        exact hfree.resolve_left (by omega)
      · exact Or.inl hnone
    rw [heq, Outcome.andThen_ok, decideVote, hlog', if_neg (by simp),
      if_pos (votedFor_free_iff.2 hfree')] at h
    obtain ⟨file, hsave | hsave⟩ := savePersistent_cases
      { t with persistent := { t.persistent with votedFor := some req.candidateId } } d₂
    · rw [hsave, Outcome.andThen_ok] at h
      obtain ⟨⟩ := h
      rfl
    · rw [hsave, Outcome.andThen_error] at h
      contradiction
  · rw [heq, Outcome.andThen_error] at h
    contradiction

/-- The request is answered unless a save fails. -/
theorem requestVote_answers (s : VariableState A) (req : RequestVoteRequest A) :
    ∃ res, (requestVote s req .ok .ok).2 = .ok res := by
  rw [requestVote]
  split
  · exact ⟨_, rfl⟩
  · rw [turnToFollower]
    split
    all_goals
      simp only [savePersistent, Outcome.andThen_ok, decideVote]
      split
      · split <;> exact ⟨_, rfl⟩
      · split <;> exact ⟨_, rfl⟩

/-- The test touches the vote and the file, and fails only where it cannot save. -/
theorem decideVote_cases (s : VariableState A) (req : RequestVoteRequest A) (d : Disk A) :
    ∃ file votedFor, (decideVote s req d).1 =
        ⟨s.role, file, { s.persistent with votedFor := votedFor }, s.commitIndex⟩ ∧
      ((∃ res, (decideVote s req d).2 = .ok res) ∨ (decideVote s req d).2 = .error .io) := by
  rw [decideVote]
  split
  · split
    · obtain ⟨file, h | h⟩ := savePersistent_cases
        { s with persistent := { s.persistent with votedFor := none } } d
      · exact ⟨file, none, by rw [h]; rfl, Or.inl ⟨_, by rw [h]; rfl⟩⟩
      · exact ⟨file, none, by rw [h]; rfl, Or.inr (by rw [h]; rfl)⟩
    · exact ⟨s.file, s.votedFor, rfl, Or.inl ⟨_, rfl⟩⟩
  · split
    · obtain ⟨file, h | h⟩ := savePersistent_cases
        { s with persistent := { s.persistent with votedFor := some req.candidateId } } d
      · exact ⟨file, some req.candidateId, by rw [h]; rfl, Or.inl ⟨_, by rw [h]; rfl⟩⟩
      · exact ⟨file, some req.candidateId, by rw [h]; rfl, Or.inr (by rw [h]; rfl)⟩
    · exact ⟨s.file, s.votedFor, rfl, Or.inl ⟨_, rfl⟩⟩

theorem decideVote_currentTerm (s : VariableState A) (req : RequestVoteRequest A) (d : Disk A) :
    (decideVote s req d).1.currentTerm = s.currentTerm := by
  obtain ⟨file, votedFor, h, -⟩ := decideVote_cases s req d
  rw [h]

/-- A newer term is adopted, whatever becomes of the vote and of the saves. -/
theorem requestVote_currentTerm (s : VariableState A) (req : RequestVoteRequest A)
    (d₁ d₂ : Disk A) : (requestVote s req d₁ d₂).1.currentTerm = max s.currentTerm req.term := by
  rw [requestVote]
  split
  · next hold => exact (Nat.max_eq_left (Nat.le_of_lt hold)).symm
  · next hold =>
    rw [Nat.max_eq_right (Nat.le_of_not_lt hold)]
    obtain ⟨t, ht, heq | heq⟩ := turnToFollower_adopted hold d₁
    · rw [heq, Outcome.andThen_ok, decideVote_currentTerm]
      exact ht.2.2.1
    · rw [heq]
      exact ht.2.2.1

/-- **A vote is taken back** where its candidate asks again and fails the log test; else it stays
for its term. -/
theorem requestVote_votedFor {s : VariableState A} {req : RequestVoteRequest A} {a : A}
    (d₁ d₂ : Disk A) (hvoted : s.votedFor = some a)
    (hterm : (requestVote s req d₁ d₂).1.currentTerm = s.currentTerm) :
    (requestVote s req d₁ d₂).1.votedFor =
      if req.term = s.currentTerm ∧ a = req.candidateId ∧ logCondition s.logs req = false then none
      else some a := by
  rw [requestVote] at hterm ⊢
  split at hterm
  · next hold =>
    rw [if_pos hold, if_neg fun h => by omega]
    exact hvoted
  · next hold =>
    rw [if_neg hold]
    have hsame : req.term = s.currentTerm := by
      obtain ⟨t, ht, heq | heq⟩ := turnToFollower_adopted hold d₁
      · rw [heq, Outcome.andThen_ok, decideVote_currentTerm] at hterm
        exact ht.2.2.1.symm.trans hterm
      · rw [heq, Outcome.andThen_error] at hterm
        exact ht.2.2.1.symm.trans hterm
    have hstay : s.turnToFollower req.term d₁ = (s, .ok ()) := by
      rw [turnToFollower, if_neg (by omega)]
    rw [hstay, Outcome.andThen_ok, decideVote, hvoted]
    by_cases ha : a = req.candidateId
    · cases hlog : logCondition s.logs req with
      | false =>
        obtain ⟨file, hsave | hsave⟩ := savePersistent_cases
          { s with persistent := { s.persistent with votedFor := none } } d₂
        all_goals simp [hsave, hsame, ha]
      | true =>
        obtain ⟨file, hsave | hsave⟩ := savePersistent_cases
          { s with persistent := { s.persistent with votedFor := some req.candidateId } } d₂
        all_goals simp [hsave, ha]
    · cases hlog : logCondition s.logs req with
      | false => simp [ha, Ne.symm ha, hvoted]
      | true => simp [ha, hvoted]

end RequestVote

/-! ## `append_entries`

The loop puts each entry in front of what stands at its position.  After the check on the previous
entry it has a closed form, which all that follows uses instead of the loop. -/

/-- The loop of `Vec::insert`s: each entry goes *in front of* what stands at its position.  An
insertion past the end panics. -/
def insertEntries (pos : Nat) : List Log → List Log → List Log × Except (Error A) Unit
  | logs, [] => (logs, .ok ())
  | logs, log :: entries =>
    if pos ≤ logs.length then insertEntries (pos + 1) (logs.insertIdx pos log) entries
    else (logs, .error .panic)

/-- `resize_with(new_len, || unreachable!())`: growing the log panics. -/
def resizeLogs (logs : List Log) (newLen : Nat) : List Log × Except (Error A) Unit :=
  if newLen ≤ logs.length then (logs.take newLen, .ok ()) else (logs, .error .panic)

/-- The part of `append_entries` that changes the log.  What goes beyond the entries of the request
is cut off, and then they are inserted. -/
def updateLogs (logs : List Log) (req : AppendEntriesRequest) : List Log × Except (Error A) Unit :=
  if logs.length > req.prevLogIndex + 1 + req.entries.length then
    match resizeLogs (A := A) logs (req.prevLogIndex + 1 + req.entries.length) with
    | (logs, .ok ()) => insertEntries (req.prevLogIndex + 1) logs req.entries
    | (logs, .error e) => (logs, .error e)
  else insertEntries (req.prevLogIndex + 1) logs req.entries

/-- The consistency check on the entry before the new ones.  An index behind the log conflicts as
well. -/
def conflicting (logs : List Log) (req : AppendEntriesRequest) : Bool :=
  match logs[req.prevLogIndex]? with
  | none => true
  | some log => log.term != req.prevLogTerm

/-- `append_entries` from the role test on, when the node's term is the request's.  A candidate of
that term refuses, so it does not become a follower by the requests of the leader it has lost to. -/
def storeEntries (s : VariableState A) (req : AppendEntriesRequest) (d : Disk A) :
    Outcome A AppendEntriesResponse :=
  if !s.role.isFollower then (s, .ok ⟨false⟩)
  else if conflicting s.logs req then (s, .ok ⟨false⟩)
  else
    match updateLogs (A := A) s.logs req with
    | (logs, .error e) => ({ s with persistent := { s.persistent with logs := logs } }, .error e)
    | (logs, .ok ()) =>
      (savePersistent
        { s with
          persistent := { s.persistent with logs := logs }
          commitIndex :=
            if req.leaderCommit > s.commitIndex then min req.leaderCommit (logs.length - 1)
            else s.commitIndex } d).andThen
        fun s _ => (s, .ok ⟨true⟩)

/-- `append_entries`. -/
def appendEntries (s : VariableState A) (req : AppendEntriesRequest) (d₁ d₂ : Disk A) :
    Outcome A AppendEntriesResponse :=
  if req.term < s.currentTerm then (s, .ok ⟨false⟩)
  else (s.turnToFollower req.term d₁).andThen fun s _ => storeEntries s req d₂

/-- The log after an accepted request: the entries are inserted behind `prev_log_index`, and as
many of the old entries as there are new ones stay behind them. -/
def mergedLogs (logs : List Log) (req : AppendEntriesRequest) : List Log :=
  logs.take (req.prevLogIndex + 1) ++ req.entries ++
    (logs.drop (req.prevLogIndex + 1)).take req.entries.length

theorem insertIdx_eq_take_append : ∀ (logs : List Log) (pos : Nat) (log : Log),
    pos ≤ logs.length → logs.insertIdx pos log = logs.take pos ++ log :: logs.drop pos
  | logs, 0, log, _ => by simp
  | [], pos + 1, log, h => by simp at h
  | l :: logs, pos + 1, log, h => by
    rw [List.insertIdx_succ_cons, insertIdx_eq_take_append logs pos log (by simpa using h)]
    simp

theorem insertEntries_eq : ∀ (entries logs : List Log) (pos : Nat), pos ≤ logs.length →
    insertEntries (A := A) pos logs entries =
      (logs.take pos ++ entries ++ logs.drop pos, .ok ())
  | [], logs, pos, _ => by simp [insertEntries]
  | log :: entries, logs, pos, h => by
    have hins := insertIdx_eq_take_append logs pos log h
    have hlen : (logs.take pos).length = pos := by simp [h]
    rw [insertEntries, if_pos h, insertEntries_eq entries _ (pos + 1) (by rw [hins]; simp; omega),
      hins]
    simp [List.take_append, List.drop_append, hlen, List.take_of_length_le, List.drop_of_length_le]

/-- When the check has passed, no step of the update panics. -/
theorem updateLogs_eq {logs : List Log} {req : AppendEntriesRequest}
    (h : req.prevLogIndex < logs.length) :
    updateLogs (A := A) logs req = (mergedLogs logs req, .ok ()) := by
  rw [updateLogs, mergedLogs]
  split
  · rename_i hlen
    rw [resizeLogs, if_pos (by omega)]
    simp only
    rw [insertEntries_eq _ _ _ (by simp; omega), List.take_take, List.drop_take]
    congr 4 <;> omega
  · rename_i hlen
    rw [insertEntries_eq _ _ _ (by omega), List.take_of_length_le (l := logs.drop _)]
    simp; omega

/-- What a node looks at before it takes over entries: the request's term is not older, the node
is (or thereby becomes) a follower, and the entry at `prev_log_index` has the stated term. -/
def Accepts (s : VariableState A) (req : AppendEntriesRequest) : Prop :=
  s.currentTerm ≤ req.term ∧ (s.currentTerm < req.term ∨ s.role = .follower) ∧
    s.logs[req.prevLogIndex]?.map Log.term = some req.prevLogTerm

instance (s : VariableState A) (req : AppendEntriesRequest) : Decidable (Accepts s req) :=
  decidable_of_iff (s.currentTerm ≤ req.term ∧
      (s.currentTerm < req.term ∨ s.role.isFollower = true) ∧
      s.logs[req.prevLogIndex]?.map Log.term = some req.prevLogTerm) <| by
    rw [Accepts, Role.isFollower_iff]

/-- What an accepted request leaves in the node.  The new commit index is bounded by the new log,
and never goes down. -/
structure Stored (s : VariableState A) (req : AppendEntriesRequest) (t : VariableState A) :
    Prop where
  accepts : Accepts s req
  logs : t.logs = mergedLogs s.logs req
  commitIndex : t.commitIndex =
    if req.leaderCommit > s.commitIndex then min req.leaderCommit (t.logs.length - 1)
    else s.commitIndex
  term : t.currentTerm = req.term
  role : t.role = .follower

/-- Everything `append_entries` can do to a node, whatever the request and whether or not the saves
succeed.  The invariants cite this and never unfold the handler. -/
structure AppendEntriesSpec (s : VariableState A) (req : AppendEntriesRequest)
    (o : Outcome A AppendEntriesResponse) : Prop where
  votedFor : ∀ c, o.1.votedFor = some c → o.1.currentTerm = s.currentTerm ∧ s.votedFor = some c
  /-- Role and term are kept, or the node is a follower of the request's newer term. -/
  role_term : (o.1.role = s.role ∧ o.1.currentTerm = s.currentTerm) ∨
    (o.1.role = .follower ∧ o.1.currentTerm = req.term ∧ s.currentTerm < req.term)
  /-- The log is kept, or the request was accepted. -/
  stored : (o.1.logs = s.logs ∧ o.1.commitIndex = s.commitIndex) ∨ Stored s req o.1
  success : ∀ res, o.2 = .ok res → res.success = true → Stored s req o.1

theorem AppendEntriesSpec.kept {s : VariableState A} {req : AppendEntriesRequest}
    {o : Outcome A AppendEntriesResponse} (h : AppendEntriesSpec s req o)
    (hrole : o.1.role ≠ .follower) : o.1.role = s.role ∧ o.1.currentTerm = s.currentTerm :=
  h.role_term.resolve_right fun hnewer => hrole hnewer.1

theorem not_conflicting_iff {logs : List Log} {req : AppendEntriesRequest} :
    conflicting logs req = false ↔
      logs[req.prevLogIndex]?.map Log.term = some req.prevLogTerm := by
  rw [conflicting]
  cases logs[req.prevLogIndex]? <;> simp

/-- The state an accepted request leaves before the save. -/
def VariableState.stored (s : VariableState A) (req : AppendEntriesRequest) : VariableState A :=
  { s with
    persistent := { s.persistent with logs := mergedLogs s.logs req }
    commitIndex :=
      if req.leaderCommit > s.commitIndex then
        min req.leaderCommit ((mergedLogs s.logs req).length - 1)
      else s.commitIndex }

theorem lt_length_of_match {logs : List Log} {req : AppendEntriesRequest}
    (h : logs[req.prevLogIndex]?.map Log.term = some req.prevLogTerm) :
    req.prevLogIndex < logs.length := by
  by_contra hge
  rw [List.getElem?_eq_none (by omega)] at h
  contradiction

/-- A follower whose log fits stores the entries; the save only decides the answer. -/
theorem storeEntries_of_match {s : VariableState A} {req : AppendEntriesRequest} (d : Disk A)
    (hrole : s.role = .follower)
    (hmatch : s.logs[req.prevLogIndex]?.map Log.term = some req.prevLogTerm) :
    storeEntries s req d = ((s.stored req).savePersistent d).andThen fun s _ => (s, .ok ⟨true⟩) := by
  rw [storeEntries, if_neg (by simp [hrole, Role.isFollower]), not_conflicting_iff.2 hmatch,
    if_neg (by simp), updateLogs_eq (lt_length_of_match hmatch)]
  rfl

/-- In every other case nothing happens. -/
theorem storeEntries_of_not {s : VariableState A} {req : AppendEntriesRequest} (d : Disk A)
    (h : ¬(s.role = .follower ∧
      s.logs[req.prevLogIndex]?.map Log.term = some req.prevLogTerm)) :
    storeEntries s req d = (s, .ok ⟨false⟩) := by
  rw [storeEntries]
  by_cases hrole : s.role = .follower
  · rw [if_neg (by simp [hrole, Role.isFollower]), if_pos]
    exact eq_true_of_ne_false fun hconf => h ⟨hrole, not_conflicting_iff.1 hconf⟩
  · rw [if_pos]
    rw [Bool.eq_false_iff.2 (mt Role.isFollower_iff.1 hrole), Bool.not_false]

/-- Once the term is adopted, what is left of the test is the role and the previous entry. -/
theorem Adopted.accepts_iff {s t : VariableState A} {req : AppendEntriesRequest}
    (h : Adopted s req.term t) : Accepts s req ↔ t.role = .follower ∧
      t.logs[req.prevLogIndex]?.map Log.term = some req.prevLogTerm := by
  obtain ⟨hlogs, -, -, ⟨hrole, hterm, -⟩ | ⟨hrole, -, hlt⟩⟩ := id h
  · rw [Accepts, hlogs, hrole]
    exact ⟨fun ⟨_, hfree, hmatch⟩ => ⟨hfree.resolve_left (by omega), hmatch⟩,
      fun ⟨hfollower, hmatch⟩ => ⟨h.le, Or.inr hfollower, hmatch⟩⟩
  · rw [Accepts, hlogs]
    exact ⟨fun ⟨_, _, hmatch⟩ => ⟨hrole, hmatch⟩, fun ⟨_, hmatch⟩ => ⟨h.le, Or.inl hlt, hmatch⟩⟩

theorem Adopted.stored {s t : VariableState A} {req : AppendEntriesRequest}
    (h : Adopted s req.term t) (hacc : Accepts s req) (file : Option (Persistent A)) :
    Stored s req { t.stored req with file := file } := by
  obtain ⟨hlogs, hci, hterm, -⟩ := id h
  exact ⟨hacc, by simp [VariableState.stored, ← hlogs], by simp [VariableState.stored, ← hci],
    hterm, (h.accepts_iff.1 hacc).1⟩

/-- Nothing else but the save can fail, and nothing but log, file and commit index changes. -/
theorem storeEntries_cases (s : VariableState A) (req : AppendEntriesRequest) (d : Disk A) :
    ∃ file logs commitIndex, (storeEntries s req d).1 =
        ⟨s.role, file, { s.persistent with logs := logs }, commitIndex⟩ ∧
      ((∃ res, (storeEntries s req d).2 = .ok res) ∨ (storeEntries s req d).2 = .error .io) := by
  by_cases hmatch : s.role = .follower ∧
      s.logs[req.prevLogIndex]?.map Log.term = some req.prevLogTerm
  · rw [storeEntries_of_match d hmatch.1 hmatch.2]
    obtain ⟨file, h | h⟩ := savePersistent_cases (s.stored req) d
    · exact ⟨file, _, _, by rw [h]; rfl, Or.inl ⟨_, by rw [h]; rfl⟩⟩
    · exact ⟨file, _, _, by rw [h]; rfl, Or.inr (by rw [h]; rfl)⟩
  · rw [storeEntries_of_not d hmatch]
    exact ⟨s.file, s.logs, s.commitIndex, rfl, Or.inl ⟨_, rfl⟩⟩

theorem storeEntries_spec {s t : VariableState A} {req : AppendEntriesRequest}
    (h : Adopted s req.term t) (d : Disk A) : AppendEntriesSpec s req (storeEntries t req d) := by
  obtain ⟨hlogs, hci, -, -⟩ := id h
  by_cases hacc : Accepts s req
  · obtain ⟨hrole, hmatch⟩ := h.accepts_iff.1 hacc
    rw [storeEntries_of_match d hrole hmatch]
    obtain ⟨file, heq | heq⟩ := savePersistent_cases (t.stored req) d
    · rw [heq]
      exact ⟨h.votedFor, h.role_term, Or.inr (h.stored hacc file), fun _ _ _ => h.stored hacc file⟩
    · rw [heq]
      exact ⟨h.votedFor, h.role_term, Or.inr (h.stored hacc file), fun _ hr => by simp at hr⟩
  · rw [storeEntries_of_not d fun hnot => hacc (h.accepts_iff.2 hnot)]
    refine ⟨h.votedFor, h.role_term, Or.inl ⟨hlogs, hci⟩, fun r hr hg => ?_⟩
    cases hr
    exact absurd hg (by simp)

theorem appendEntries_spec (s : VariableState A) (req : AppendEntriesRequest) (d₁ d₂ : Disk A) :
    AppendEntriesSpec s req (appendEntries s req d₁ d₂) := by
  rw [appendEntries]
  split
  · refine ⟨fun c hc => ⟨rfl, hc⟩, Or.inl ⟨rfl, rfl⟩, Or.inl ⟨rfl, rfl⟩, fun r hr hg => ?_⟩
    cases hr
    exact absurd hg (by simp)
  · rename_i hlt
    obtain ⟨t, ht, heq | heq⟩ := turnToFollower_adopted hlt d₁
    · rw [heq]
      exact storeEntries_spec ht d₂
    · rw [heq]
      exact ⟨ht.votedFor, ht.role_term, Or.inl ⟨ht.1, ht.2.1⟩, fun r hr => by simp at hr⟩

/-- A newer term is adopted, whether the entries are stored or not. -/
theorem appendEntries_currentTerm (s : VariableState A) (req : AppendEntriesRequest)
    (d₁ d₂ : Disk A) : (appendEntries s req d₁ d₂).1.currentTerm = max s.currentTerm req.term := by
  rw [appendEntries]
  split
  · next hold => exact (Nat.max_eq_left (Nat.le_of_lt hold)).symm
  · next hold =>
    rw [Nat.max_eq_right (Nat.le_of_not_lt hold)]
    obtain ⟨t, ht, heq | heq⟩ := turnToFollower_adopted hold d₁
    · obtain ⟨file, logs, commitIndex, hstored, -⟩ := storeEntries_cases t req d₂
      rw [heq, Outcome.andThen_ok, hstored]
      exact ht.2.2.1
    · rw [heq]
      exact ht.2.2.1

/-- Within a term the vote on record is left alone. -/
theorem appendEntries_votedFor {s : VariableState A} {req : AppendEntriesRequest} (d₁ d₂ : Disk A)
    (hterm : (appendEntries s req d₁ d₂).1.currentTerm = s.currentTerm) :
    (appendEntries s req d₁ d₂).1.votedFor = s.votedFor := by
  rw [appendEntries] at hterm ⊢
  split at hterm
  · next hold => rw [if_pos hold]
  · next hold =>
    rw [if_neg hold]
    obtain ⟨t, ht, heq | heq⟩ := turnToFollower_adopted hold d₁
    · rw [heq, Outcome.andThen_ok] at hterm ⊢
      obtain ⟨file, logs, commitIndex, hstored, -⟩ := storeEntries_cases t req d₂
      rw [hstored] at hterm ⊢
      exact ht.votedFor_eq hterm
    · rw [heq, Outcome.andThen_error] at hterm ⊢
      exact ht.votedFor_eq hterm

/-! ### The answer and the file

What is told is saved first, so an answer is backed by the file. -/

/-- **Whoever is answered is told whether the node accepts**, and then the new state is saved. -/
theorem appendEntries_answer {s : VariableState A} {req : AppendEntriesRequest} {d₁ d₂ : Disk A}
    {res : AppendEntriesResponse} (h : (appendEntries s req d₁ d₂).2 = .ok res) :
    (res.success = true ↔ Accepts s req) ∧ (res.success = true →
      (appendEntries s req d₁ d₂).1.file = some (appendEntries s req d₁ d₂).1.persistent) := by
  rw [appendEntries] at h ⊢
  split at h
  · next hold =>
    obtain ⟨⟩ := h
    exact ⟨⟨fun hg => absurd hg Bool.false_ne_true, fun hacc => absurd hold (by
      have := hacc.1; omega)⟩, fun hg => absurd hg Bool.false_ne_true⟩
  · next hold =>
    rw [if_neg hold]
    obtain ⟨t, ht, heq | heq⟩ := turnToFollower_adopted hold d₁
    · rw [heq, Outcome.andThen_ok] at h ⊢
      by_cases hacc : Accepts s req
      · obtain ⟨hrole, hmatch⟩ := ht.accepts_iff.1 hacc
        rw [storeEntries_of_match d₂ hrole hmatch] at h ⊢
        cases d₂ with
        | ok =>
          obtain ⟨⟩ := h
          exact ⟨⟨fun _ => hacc, fun _ => rfl⟩, fun _ => rfl⟩
        | err left => contradiction
      · rw [storeEntries_of_not d₂ fun hnot => hacc (ht.accepts_iff.2 hnot)] at h
        obtain ⟨⟩ := h
        exact ⟨⟨fun hg => absurd hg Bool.false_ne_true, fun hacc' => absurd hacc' hacc⟩,
          fun hg => absurd hg Bool.false_ne_true⟩
    · rw [heq] at h
      contradiction

/-- The request is answered unless a save fails. -/
theorem appendEntries_answers (s : VariableState A) (req : AppendEntriesRequest) :
    ∃ res, (appendEntries s req .ok .ok).2 = .ok res := by
  rw [appendEntries]
  split
  · exact ⟨_, rfl⟩
  · next hold =>
    obtain ⟨t, ht, heq⟩ := turnToFollower_saved hold (d := (.ok : Disk A)) fun _ => rfl
    rw [heq, Outcome.andThen_ok]
    by_cases hmatch : t.role = .follower ∧
        t.logs[req.prevLogIndex]?.map Log.term = some req.prevLogTerm
    · exact ⟨_, by rw [storeEntries_of_match .ok hmatch.1 hmatch.2]; rfl⟩
    · exact ⟨_, by rw [storeEntries_of_not .ok hmatch]⟩

/-- The entries of an acceptable request are stored if the new term, if there is one, could be
saved; the second save comes too late to prevent it.  Else log and commit index are kept. -/
theorem appendEntries_stores (s : VariableState A) (req : AppendEntriesRequest) (d₁ d₂ : Disk A) :
    (Accepts s req ∧ (s.currentTerm < req.term → d₁ = .ok) ∧
      Stored s req (appendEntries s req d₁ d₂).1) ∨
    (¬(Accepts s req ∧ (s.currentTerm < req.term → d₁ = .ok)) ∧
      (appendEntries s req d₁ d₂).1.logs = s.logs ∧
      (appendEntries s req d₁ d₂).1.commitIndex = s.commitIndex) := by
  by_cases hold : req.term < s.currentTerm
  · rw [appendEntries, if_pos hold]
    exact Or.inr ⟨fun h => Nat.not_lt.2 h.1.1 hold, rfl, rfl⟩
  by_cases hd : s.currentTerm < req.term → d₁ = .ok
  · obtain ⟨t, ht, heq⟩ := turnToFollower_saved hold hd
    rw [appendEntries, if_neg hold, heq, Outcome.andThen_ok]
    by_cases hacc : Accepts s req
    · obtain ⟨hrole, hmatch⟩ := ht.accepts_iff.1 hacc
      refine Or.inl ⟨hacc, hd, ?_⟩
      rw [storeEntries_of_match d₂ hrole hmatch]
      obtain ⟨file, hsave | hsave⟩ := savePersistent_cases (t.stored req) d₂
      · rw [hsave]
        exact ht.stored hacc file
      · rw [hsave]
        exact ht.stored hacc file
    · rw [storeEntries_of_not d₂ fun hnot => hacc (ht.accepts_iff.2 hnot)]
      exact Or.inr ⟨fun h => hacc h.1, ht.1, ht.2.1⟩
  · obtain ⟨t, hlogs, hci, heq⟩ := turnToFollower_failed hd
    rw [appendEntries, if_neg hold, heq]
    exact Or.inr ⟨fun h => hd h.2, hlogs, hci⟩

/-! ## `get_log`

What a client is told of the log. -/

structure GetLogResponse where
  commited : List Log
  all : List Log
deriving DecidableEq, Repr

/-- `get_log`: the slice is empty when it would run past the end of the log. -/
def getLog (s : VariableState A) : GetLogResponse :=
  { commited := if s.commitIndex + 1 ≤ s.logs.length then s.logs.take (s.commitIndex + 1) else []
    all := s.logs }

end Raft
end DistributedPrograms
