import DistributedPrograms.Raft.Handlers

/-!
# Who is given a vote

Raft gives a vote of the current term to one candidate, and only to one whose log is at least as new
as the voter's: by the term of the last entry, and within one term by its index.  `request_vote`
asks for a newer last term *or* an index that is at least as high, so a candidate with an older last
term and a long log is given a vote as well; and a candidate that asks again with a log that has
fallen behind loses the vote it was given.

* `VoteRule` is the rule for one outcome of the handler: which answer it gives, and what it leaves
  on record. `UpToDate` and `FreeFor` are its two tests, in the words of Raft and not of the source.
* `KeepsVoteRule` is the rule for a voter and a request, however the saves end.
* `LogTestFits` is the condition: it is about a request of a term that is not older, from a
  candidate for which the vote is free, and asks that the last entry of the candidate is not older
  than the voter's with an index that is as high, and that a candidate which has the vote passes the
  test again.

`voteRule_iff` says for which voters and requests the code keeps to the rule, and these are exactly
those for which the condition holds.
-/

set_option autoImplicit false

namespace DistributedPrograms
namespace Raft

variable {A : Type} [DecidableEq A]

open VariableState

/-- The last entry of the candidate is at least as new as that of `logs`: by term, then by index.
This is the rule that the comment in `request_vote` states. -/
def UpToDate (logs : List Log) (req : RequestVoteRequest A) : Prop :=
  lastLogTerm logs < req.lastLogTerm ∨
    lastLogTerm logs = req.lastLogTerm ∧ logs.length - 1 ≤ req.lastLogIndex

/-- Once the term of the request is adopted, the vote is free or the candidate's. -/
def FreeFor (s : VariableState A) (req : RequestVoteRequest A) : Prop :=
  s.currentTerm < req.term ∨ s.votedFor = none ∨ s.votedFor = some req.candidateId

/-- What `request_vote` is to do, for one outcome: who is granted, what a grant leaves in the node,
that the log stays as it is, and that no vote of the term is taken back. -/
structure VoteRule (s : VariableState A) (req : RequestVoteRequest A)
    (o : Outcome A RequestVoteResponse) : Prop where
  granted_iff : ∀ res, o.2 = .ok res → (res.voteGranted = true ↔
    s.currentTerm ≤ req.term ∧ UpToDate s.logs req ∧ FreeFor s req)
  recorded : ∀ res, o.2 = .ok res → res.voteGranted = true →
    o.1.currentTerm = req.term ∧ o.1.votedFor = some req.candidateId
  logs : o.1.logs = s.logs
  /-- A vote that this candidate was given in the term is not taken back. -/
  kept : s.votedFor = some req.candidateId → o.1.currentTerm = s.currentTerm →
    o.1.votedFor = some req.candidateId

/-- `request_vote` keeps to the rule, however its saves end, and answers if they succeed.  A handler
that never answers would keep to the rule as well. -/
def KeepsVoteRule (s : VariableState A) (req : RequestVoteRequest A) : Prop :=
  (∀ d₁ d₂, VoteRule s req (requestVote s req d₁ d₂)) ∧
    ∃ res, (requestVote s req .ok .ok).2 = .ok res

/-- The condition on a voter and a request.  It is about requests of a term that is not older, from
a candidate for which the vote is free. -/
structure LogTestFits (s : VariableState A) (req : RequestVoteRequest A) : Prop where
  /-- An older last term does not come with an index that is high enough. -/
  older : s.currentTerm ≤ req.term → FreeFor s req → req.lastLogTerm < lastLogTerm s.logs →
    wrappingSucc req.lastLogIndex < s.logs.length
  /-- With equal last terms the index is not the largest 64-bit number. -/
  equal : s.currentTerm ≤ req.term → FreeFor s req → lastLogTerm s.logs = req.lastLogTerm →
    s.logs.length - 1 ≤ req.lastLogIndex → s.logs.length ≤ wrappingSucc req.lastLogIndex
  /-- The candidate that has the vote of this term has a newer last term or a high enough index. -/
  again : req.term = s.currentTerm → s.votedFor = some req.candidateId →
    lastLogTerm s.logs < req.lastLogTerm ∨ s.logs.length ≤ wrappingSucc req.lastLogIndex

variable {s : VariableState A} {req : RequestVoteRequest A}

omit [DecidableEq A] in
theorem wouldGrant_iff : WouldGrant s req ↔
    s.currentTerm ≤ req.term ∧ logCondition s.logs req = true ∧ FreeFor s req :=
  Iff.rfl

omit [DecidableEq A] in
/-- Where the condition holds, the log test is the comparison of Raft. -/
theorem LogTestFits.logCondition_iff (h : LogTestFits s req) (hterm : s.currentTerm ≤ req.term)
    (hfree : FreeFor s req) : logCondition s.logs req = true ↔ UpToDate s.logs req := by
  rw [Raft.logCondition_iff]
  constructor
  · rintro (hnewer | hindex)
    · exact Or.inl hnewer
    · rcases Nat.lt_trichotomy (lastLogTerm s.logs) req.lastLogTerm with hlt | heq | hgt
      · exact Or.inl hlt
      · refine Or.inr ⟨heq, ?_⟩
        have hle := wrappingSucc_le req.lastLogIndex
        omega
      · exact absurd hindex (Nat.not_le.2 (h.older hterm hfree hgt))
  · rintro (hnewer | ⟨heq, hindex⟩)
    · exact Or.inl hnewer
    · exact Or.inr (h.equal hterm hfree heq hindex)

theorem voteRule_of_fits (h : LogTestFits s req) (d₁ d₂ : Disk A) :
    VoteRule s req (requestVote s req d₁ d₂) := by
  have hspec := requestVote_spec s req d₁ d₂
  refine ⟨fun res hres => ?_, fun res hres hg => ?_, hspec.logs, fun hvoted hterm => ?_⟩
  · rw [requestVote_answer hres, wouldGrant_iff]
    exact and_congr_right fun hterm => and_congr_left fun hfree =>
      h.logCondition_iff hterm hfree
  · obtain ⟨-, hterm, hvoted, -⟩ := hspec.granted res hres hg
    exact ⟨hterm, hvoted⟩
  · rw [requestVote_votedFor d₁ d₂ hvoted hterm, if_neg]
    rintro ⟨heq, -, hlog⟩
    rw [Raft.logCondition_iff.2 (h.again heq hvoted)] at hlog
    contradiction

/-- **The rule is kept** by exactly the voters and requests for which the log test fits. -/
theorem voteRule_iff (s : VariableState A) (req : RequestVoteRequest A) :
    KeepsVoteRule s req ↔ LogTestFits s req := by
  refine ⟨fun ⟨hrule, res, hres⟩ => ?_, fun h =>
    ⟨fun d₁ d₂ => voteRule_of_fits h d₁ d₂, requestVote_answers s req⟩⟩
  have hrule := hrule .ok .ok
  -- the answer tells the log test and the comparison of Raft apart
  have htest : s.currentTerm ≤ req.term → FreeFor s req →
      (logCondition s.logs req = true ↔ UpToDate s.logs req) := by
    intro hterm hfree
    have hiff := (requestVote_answer hres).symm.trans (hrule.granted_iff res hres)
    rw [wouldGrant_iff] at hiff
    exact ⟨fun hlog => (hiff.1 ⟨hterm, hlog, hfree⟩).2.1,
      fun hnew => (hiff.2 ⟨hterm, hnew, hfree⟩).2.1⟩
  refine ⟨fun hterm hfree holder => ?_, fun hterm hfree heq hindex => ?_, fun hterm hvoted => ?_⟩
  · by_contra hge
    rcases (htest hterm hfree).1 (logCondition_iff.2 (Or.inr (Nat.not_lt.1 hge))) with hlt | ⟨heq, -⟩
    · omega
    · omega
  · rcases logCondition_iff.1 ((htest hterm hfree).2 (Or.inr ⟨heq, hindex⟩)) with hlt | hle
    · omega
    · exact hle
  · rw [← logCondition_iff]
    by_contra hlog
    have hsame : (requestVote s req .ok .ok).1.currentTerm = s.currentTerm := by
      rcases (requestVote_spec s req .ok .ok).role_term with ⟨-, h⟩ | ⟨-, -, h⟩
      · exact h
      · omega
    have hkept := hrule.kept hvoted hsame
    rw [requestVote_votedFor .ok .ok hvoted hsame,
      if_pos ⟨hterm, rfl, Bool.eq_false_iff.2 hlog⟩] at hkept
    contradiction

/-- A voter of term 5 whose last entry is of term 4. -/
def staleVoter : VariableState Bool := ⟨.follower, none, ⟨5, none, [initLog, ⟨"a", 4⟩]⟩, 0⟩

/-- **A candidate with an older log is given the vote**, and one that asks again loses it. -/
theorem not_keepsVoteRule :
    ¬KeepsVoteRule staleVoter ⟨5, true, 1, 1⟩ ∧
      ¬KeepsVoteRule { staleVoter with persistent := ⟨5, some true, [initLog, ⟨"a", 4⟩]⟩ }
        ⟨5, true, 0, 0⟩ := by
  refine ⟨fun ⟨hrule, _⟩ => ?_, fun ⟨hrule, _⟩ => ?_⟩
  · have hgranted := ((hrule .ok .ok).granted_iff ⟨5, true⟩ rfl).1 rfl
    exact absurd hgranted.2.1 (by unfold UpToDate; decide)
  · have hkept := (hrule .ok .ok).kept rfl rfl
    contradiction

end Raft
end DistributedPrograms
