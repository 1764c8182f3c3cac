import DistributedPrograms.Lib.Run
import DistributedPrograms.Raft.Calls

/-!
# The vote of one node

A node is to vote once in a term, for itself if it stands for election.  `Voter` follows one node
through everything that can happen to it, restarts included, and keeps a list of the votes it has
given.  Two paths let it vote twice:

* `open_election` does not record the node's vote for itself, so a node that has counted itself
  grants the vote of that term again;
* `request_vote` clears `voted_for` when the candidate it is for asks again and fails the log test,
  and then grants it to the next one.

The other resets of `voted_for` are harmless: a new term comes with them, or they end an election of
the node's own.  `one_vote` shows this, for every run in which the two paths are not taken, no
election takes the term past the largest 64-bit number, and the file knows of the votes when it is
read back (`KeepsVotes`).

In contrast to the cluster, a `Voter` is alone: any request may come at any time, with any fields,
and any save may fail and leave anything in the file.  A restart reads the file back, so what was
only in memory is lost.  A vote counts as given when it is answered, and the vote for itself when
the election is on, so an error after a vote has been put on record gives none.

`VotesKept` is the invariant.  It says of every vote given that it is of no later term than the
node's, and that one of the node's own term is on record, unless it was for the node itself.
-/

set_option autoImplicit false

namespace DistributedPrograms
namespace Raft

variable {A : Type} [DecidableEq A]

open VariableState

/-- A node, whether an `open_election` of it is past its start, and the votes it has given since it
was first started, with their terms, the latest first. -/
structure Voter (A : Type) where
  state : VariableState A
  electing : Bool
  votes : List (Nat × A)

/-- What can happen to a node. -/
inductive VoterAction (A : Type)
  | requestVote (req : RequestVoteRequest A) (d₁ d₂ : Disk A)
  | appendEntries (req : AppendEntriesRequest) (d₁ d₂ : Disk A)
  /-- `open_election` up to the first release of the lock. -/
  | openElection (d : Disk A)
  /-- `open_election` from the count on. -/
  | countVotes (voteResult : Nat) (d : Disk A)
  /-- `send_append_entries` up to the first release of the lock, its futures before and after their
  RPC, and its end. -/
  | sendAppendEntries (texts : List String) (d : Disk A)
  | sendRound (addr : A)
  | roundReply (addr : A) (success : Bool)
  | closeRound (successCount : Nat)
  /-- The process dies and is started again on its file. -/
  | restart

namespace Voter

/-- One step of the node `me`.  A vote counts as given when it is answered, and for the node itself
when its election is on. -/
def step (me : A) (servers : Finset A) (v : Voter A) : VoterAction A → Option (Voter A)
  | .requestVote req d₁ d₂ =>
    match Raft.requestVote v.state req d₁ d₂ with
    | (s, .ok res) =>
      some { v with
        state := s
        votes := if res.voteGranted then (res.term, req.candidateId) :: v.votes else v.votes }
    | (s, .error _) => some { v with state := s }
  | .appendEntries req d₁ d₂ => some { v with state := (Raft.appendEntries v.state req d₁ d₂).1 }
  | .openElection d =>
    if v.electing then none
    else
      match openElectionStart v.state d with
      | (s, .ok true) => some ⟨s, true, (s.currentTerm, me) :: v.votes⟩
      | (s, _) => some { v with state := s }
  | .countVotes voteResult d =>
    if v.electing then
      some { v with
        state := (openElectionCount servers v.state voteResult d).1
        electing := false }
    else none
  | .sendAppendEntries texts d => some { v with state := (sendAppendEntriesAppend v.state texts d).1 }
  | .sendRound addr => some { v with state := (sendAppendEntriesRequest me v.state addr).1 }
  | .roundReply addr success =>
    some { v with state := (sendAppendEntriesReply v.state addr success).1 }
  | .closeRound successCount =>
    some { v with state := (sendAppendEntriesCommit servers v.state successCount).1 }
  | .restart =>
    match fromFile (some v.state.file) with
    | .ok s => some ⟨s, false, v.votes⟩
    | .error _ => none

/-- The state that an action leaves; a node does not start on a file that does not decode. -/
def stateAfter (me : A) (servers : Finset A) (s : VariableState A) :
    VoterAction A → VariableState A
  | .requestVote req d₁ d₂ => (Raft.requestVote s req d₁ d₂).1
  | .appendEntries req d₁ d₂ => (Raft.appendEntries s req d₁ d₂).1
  | .openElection d => (openElectionStart s d).1
  | .countVotes voteResult d => (openElectionCount servers s voteResult d).1
  | .sendAppendEntries texts d => (sendAppendEntriesAppend s texts d).1
  | .sendRound addr => (sendAppendEntriesRequest me s addr).1
  | .roundReply addr success => (sendAppendEntriesReply s addr success).1
  | .closeRound successCount => (sendAppendEntriesCommit servers s successCount).1
  | .restart =>
    match fromFile (some s.file) with
    | .ok t => t
    | .error _ => s

theorem step_state {me : A} {servers : Finset A} {v v' : Voter A} {a : VoterAction A}
    (hs : v.step me servers a = some v') : v'.state = stateAfter me servers v.state a := by
  cases a with
  | requestVote req d₁ d₂ =>
    rw [step] at hs
    rw [stateAfter]
    split at hs
    · next ho =>
      obtain ⟨⟩ := hs
      rw [ho]
    · next ho =>
      obtain ⟨⟩ := hs
      rw [ho]
  | openElection d =>
    rw [step] at hs
    rw [stateAfter]
    split at hs
    · contradiction
    · split at hs
      · next ho =>
        obtain ⟨⟩ := hs
        rw [ho]
      · next ho =>
        obtain ⟨⟩ := hs
        rw [ho]
  | countVotes voteResult d =>
    rw [step] at hs
    split at hs
    · obtain ⟨⟩ := hs
      rfl
    · contradiction
  | restart =>
    rw [step] at hs
    rw [stateAfter]
    split at hs
    · obtain ⟨⟩ := hs
      rfl
    · contradiction
  | _ =>
    obtain ⟨⟩ := hs
    rfl

end Voter

/-- At most one candidate has a vote in each term.  The list has all votes that the node has given
since the beginning, its own candidacies among them, whatever has become of `voted_for`. -/
def OneVote (votes : List (Nat × A)) : Prop :=
  ∀ x ∈ votes, ∀ y ∈ votes, x.1 = y.1 → x.2 = y.2

instance (votes : List (Nat × A)) : Decidable (OneVote votes) := by
  unfold OneVote; infer_instance

/-- The condition on a step. -/
def KeepsVotes (me : A) (tr : List (Voter A)) : VoterAction A → Prop
  | .requestVote req _ _ => ∀ v ∈ tr.head?, req.term = v.state.currentTerm →
      -- in a term in which the node has voted for itself nobody else comes who would be granted
      ((req.term, me) ∈ v.votes → WouldGrant v.state req → req.candidateId = me) ∧
      -- a candidate that has the vote of the term passes the log test when it asks again
      ((req.term, req.candidateId) ∈ v.votes → logCondition v.state.logs req = true)
  | .openElection _ => ∀ v ∈ tr.head?, v.state.role.isFollower = true →
      v.state.currentTerm + 1 < 2 ^ 64
  -- the file knows of the votes
  | .restart => ∀ v ∈ tr.head?, ∀ p ∈ v.state.file, ∀ x ∈ v.votes, x.1 ≤ p.currentTerm ∧
      (x.1 = p.currentTerm → x.2 = me ∨ p.votedFor = some x.2)
  | _ => True

instance (me : A) (tr : List (Voter A)) (a : VoterAction A) : Decidable (KeepsVotes me tr a) := by
  rcases a <;> dsimp only [KeepsVotes] <;> infer_instance

/-! ## The invariant

What `voted_for` says about the votes that have been given. -/

/-- No vote is of a later term than the node's, one of its own term is on record unless it was for
the node itself, and a candidate has voted for itself. -/
structure VotesKept (me : A) (v : Voter A) : Prop where
  le : ∀ x ∈ v.votes, x.1 ≤ v.state.currentTerm
  recorded : ∀ x ∈ v.votes, x.1 = v.state.currentTerm → x.2 = me ∨ v.state.votedFor = some x.2
  once : OneVote v.votes
  stood : v.electing = true → v.state.role = .candidate → (v.state.currentTerm, me) ∈ v.votes

variable {me : A} {servers : Finset A} {v v' : Voter A} {t : VariableState A}

omit [DecidableEq A] in
/-- A step without a new vote: the term does not go back, and within it the votes given stay on
record. -/
theorem VotesKept.of_state (h : VotesKept me v) (hle : v.state.currentTerm ≤ t.currentTerm)
    (hvoted : t.currentTerm = v.state.currentTerm → ∀ x ∈ v.votes, x.1 = v.state.currentTerm →
      v.state.votedFor = some x.2 → t.votedFor = some x.2)
    (hstood : v.electing = true → t.role = .candidate →
      v.state.role = .candidate ∧ t.currentTerm = v.state.currentTerm) :
    VotesKept me { v with state := t } := by
  refine ⟨fun x hx => (h.le x hx).trans hle, fun x hx hterm => ?_, h.once, fun hel hrole => ?_⟩
  · have hsame : t.currentTerm = v.state.currentTerm := Nat.le_antisymm (hterm ▸ h.le x hx) hle
    rcases h.recorded x hx (hterm.trans hsame) with hme | hrec
    · exact Or.inl hme
    · exact Or.inr (hvoted hsame x hx (hterm.trans hsame) hrec)
  · obtain ⟨hcand, hsame⟩ := hstood hel hrole
    show (t.currentTerm, me) ∈ v.votes
    rw [hsame]
    exact h.stood hel hcand

omit [DecidableEq A] in
theorem VotesKept.of_same (h : VotesKept me v) (hs : SameNode v.state t) :
    VotesKept me { v with state := t } := by
  have hterm : t.currentTerm = v.state.currentTerm := hs.currentTerm_eq
  have hvoted : t.votedFor = v.state.votedFor := congrArg Persistent.votedFor hs.persistent
  exact h.of_state (Nat.le_of_eq hterm.symm) (fun _ _ _ _ hrec => hvoted.trans hrec)
    fun _ hrole => ⟨hs.candidate_iff.1 hrole, hterm⟩

omit [DecidableEq A] in
/-- A vote in the node's term that no other vote of this term contradicts. -/
theorem VotesKept.vote (h : VotesKept me v) {a : A} (hrec : a = me ∨ v.state.votedFor = some a)
    (hfree : ∀ x ∈ v.votes, x.1 = v.state.currentTerm → x.2 = a) :
    VotesKept me { v with votes := (v.state.currentTerm, a) :: v.votes } := by
  refine ⟨List.forall_mem_cons.2 ⟨Nat.le_refl _, h.le⟩,
    List.forall_mem_cons.2 ⟨fun _ => hrec, h.recorded⟩,
    List.forall_mem_cons.2 ⟨?_, fun x hx => ?_⟩,
    fun hel hrole => List.mem_cons_of_mem _ (h.stood hel hrole)⟩
  · exact List.forall_mem_cons.2 ⟨fun _ => rfl, fun y hy hterm => (hfree y hy hterm.symm).symm⟩
  · exact List.forall_mem_cons.2 ⟨fun hterm => hfree x hx hterm, h.once x hx⟩

/-! ## Steps

One lemma for each kind of step.  A restart is the one that looks at the file; all others are about
what is in memory. -/

variable {tr : List (Voter A)} {req : RequestVoteRequest A}

theorem VotesKept.requestVote_state (h : VotesKept me v) (d₁ d₂ : Disk A)
    (hc : KeepsVotes me (v :: tr) (.requestVote req d₁ d₂)) :
    VotesKept me { v with state := (requestVote v.state req d₁ d₂).1 } := by
  refine h.of_state ?_ (fun hsame x hx hterm hrec => ?_) fun _ hrole => ?_
  · rw [requestVote_currentTerm]
    exact Nat.le_max_left _ _
  · rw [requestVote_votedFor d₁ d₂ hrec hsame, if_neg]
    rintro ⟨hreq, hcand, hlog⟩
    have hmem : (req.term, req.candidateId) ∈ v.votes := by
      rw [hreq, ← hterm, ← hcand]
      exact hx
    rw [(hc v rfl hreq).2 hmem] at hlog
    contradiction
  · obtain ⟨hkept, hterm⟩ := (requestVote_spec v.state req d₁ d₂).kept (by simp [hrole])
    exact ⟨hkept.symm.trans hrole, hterm⟩

/-- A vote that is granted is the first of its term, or goes to the candidate that has it. -/
theorem VotesKept.granted_free (h : VotesKept me v) {d₁ d₂ : Disk A}
    (hc : KeepsVotes me (v :: tr) (.requestVote req d₁ d₂)) (hw : WouldGrant v.state req) :
    ∀ x ∈ v.votes, x.1 = req.term → x.2 = req.candidateId := by
  intro x hx hterm
  have hreq : req.term = v.state.currentTerm :=
    Nat.le_antisymm (hterm ▸ h.le x hx) hw.1
  rcases h.recorded x hx (hterm.trans hreq) with hme | hrec
  · refine hme.trans ((hc v rfl hreq).1 ?_ hw).symm
    rw [← hterm, ← hme]
    exact hx
  · rcases hw.2.2 with hlt | hnone | hsome
    · omega
    · rw [hnone] at hrec
      contradiction
    · exact Option.some.inj (hrec.symm.trans hsome)

theorem VotesKept.requestVote (h : VotesKept me v) {d₁ d₂ : Disk A}
    (hc : KeepsVotes me (v :: tr) (.requestVote req d₁ d₂))
    (hs : v.step me servers (.requestVote req d₁ d₂) = some v') : VotesKept me v' := by
  have hstate := h.requestVote_state d₁ d₂ hc
  have hspec := requestVote_spec v.state req d₁ d₂
  rw [Voter.step] at hs
  split at hs
  · next s res ho =>
    rw [ho] at hstate hspec
    obtain ⟨⟩ := hs
    cases hg : res.voteGranted with
    | false => exact hstate
    | true =>
      obtain ⟨hw, hterm, hvoted, hres⟩ := hspec.granted res rfl hg
      have hvote := hstate.vote (Or.inr hvoted) fun x hx hx1 =>
        h.granted_free hc hw x hx (hx1.trans hterm)
      rw [if_pos rfl, hres, ← hterm]
      exact hvote
  · next s e ho =>
    rw [ho] at hstate
    obtain ⟨⟩ := hs
    exact hstate

theorem VotesKept.openElection (h : VotesKept me v) {d : Disk A}
    (hc : KeepsVotes me (v :: tr) (.openElection d))
    (hs : v.step me servers (.openElection d) = some v') : VotesKept me v' := by
  rw [Voter.step] at hs
  split at hs
  · contradiction
  next hel =>
  rcases openElectionStart_cases v.state d with ⟨-, ho⟩ | ⟨hrole, file, votedFor, -, hstate, hres⟩
  · rw [ho] at hs
    obtain ⟨⟩ := hs
    exact h
  · have hterm : v.state.currentTerm < wrappingSucc v.state.currentTerm := by
      rw [wrappingSucc_of_lt (hc v rfl (Role.isFollower_iff.2 hrole))]
      exact Nat.lt_succ_self _
    have hkept : VotesKept me { v with state := (openElectionStart v.state d).1 } := by
      rw [hstate]
      exact h.of_state (Nat.le_of_lt hterm) (fun hsame => absurd hsame (Nat.ne_of_gt hterm))
        fun helecting => absurd helecting hel
    have hnew : ∀ x ∈ v.votes, x.1 ≠ (openElectionStart v.state d).1.currentTerm := by
      rw [hstate]
      exact fun x hx => Nat.ne_of_lt (Nat.lt_of_le_of_lt (h.le x hx) hterm)
    generalize openElectionStart v.state d = o at hs hkept hnew hres
    obtain ⟨s, res⟩ := o
    rcases hres with ⟨rfl, -⟩ | rfl
    · obtain ⟨⟩ := hs
      have hvote := hkept.vote (a := me) (Or.inl rfl) fun x hx hx1 => absurd hx1 (hnew x hx)
      exact ⟨hvote.le, hvote.recorded, hvote.once, fun _ _ => List.mem_cons_self⟩
    · obtain ⟨⟩ := hs
      exact hkept

/-- Clearing `voted_for` at the end of an election loses nothing: the vote was the node's own. -/
theorem VotesKept.countVotes (h : VotesKept me v) {voteResult : Nat} {d : Disk A}
    (hs : v.step me servers (.countVotes voteResult d) = some v') : VotesKept me v' := by
  rw [Voter.step] at hs
  split at hs
  · next hel =>
    obtain ⟨⟩ := hs
    rcases openElectionCount_cases servers v.state voteResult d with ⟨-, ho⟩ |
      ⟨hrole, role, file, ho, -⟩
    · rw [ho]
      exact ⟨h.le, h.recorded, h.once, fun hel => absurd hel Bool.false_ne_true⟩
    · rw [ho]
      refine ⟨h.le, fun x hx hterm => Or.inl ?_, h.once, fun hel => absurd hel Bool.false_ne_true⟩
      exact h.once x hx _ (h.stood hel hrole) hterm
  · contradiction

theorem VotesKept.restart (h : VotesKept me v) (hc : KeepsVotes me (v :: tr) .restart)
    (hs : v.step me servers .restart = some v') : VotesKept me v' := by
  rw [Voter.step] at hs
  cases hfile : v.state.file with
  | none =>
    rw [hfile] at hs
    contradiction
  | some p =>
    rw [hfile] at hs
    obtain ⟨⟩ := hs
    have hknown := hc v rfl p hfile
    exact ⟨fun x hx => (hknown x hx).1, fun x hx => (hknown x hx).2, h.once,
      fun hel => absurd hel Bool.false_ne_true⟩

theorem VotesKept.step {a : VoterAction A} (h : VotesKept me v) (hc : KeepsVotes me (v :: tr) a)
    (hs : v.step me servers a = some v') : VotesKept me v' := by
  cases a with
  | requestVote req d₁ d₂ => exact h.requestVote hc hs
  | openElection d => exact h.openElection hc hs
  | countVotes voteResult d => exact h.countVotes hs
  | restart => exact h.restart hc hs
  | appendEntries req d₁ d₂ =>
    obtain ⟨⟩ := hs
    refine h.of_state ?_ (fun hsame _ _ _ hrec => ?_) fun _ hrole => ?_
    · rw [appendEntries_currentTerm]
      exact Nat.le_max_left _ _
    · exact (appendEntries_votedFor d₁ d₂ hsame).trans hrec
    · obtain ⟨hkept, hterm⟩ := (appendEntries_spec v.state req d₁ d₂).kept (by simp [hrole])
      exact ⟨hkept.symm.trans hrole, hterm⟩
  | sendAppendEntries texts d =>
    obtain ⟨⟩ := hs
    rcases sendAppendEntriesAppend_cases v.state texts d with ⟨-, ho, -⟩ | ⟨-, file, ho⟩
    · rw [ho]
      exact h
    · rw [ho]
      exact h.of_state (Nat.le_refl _) (fun _ _ _ _ hrec => hrec) fun _ hrole => ⟨hrole, rfl⟩
  | sendRound addr =>
    obtain ⟨⟩ := hs
    exact h.of_same (sendAppendEntriesRequest_same me v.state addr)
  | roundReply addr success =>
    obtain ⟨⟩ := hs
    exact h.of_same (sendAppendEntriesReply_same v.state addr success)
  | closeRound successCount =>
    obtain ⟨⟩ := hs
    rw [sendAppendEntriesCommit]
    split
    · exact h.of_state (Nat.le_refl _) (fun _ _ _ _ hrec => hrec) fun _ hrole => ⟨hrole, rfl⟩
    · exact h

/-! ## Runs

The invariant along a run: in each term at most one candidate has got a vote. -/

/-- **One vote per term**, whatever a node starts with and whatever happens to it, restarts
included, as long as the condition is met. -/
theorem one_vote (me : A) (servers : Finset A) (s : VariableState A)
    (h : Run (Voter.step me servers) (KeepsVotes me) ⟨s, false, []⟩ tr) :
    ∀ v ∈ tr, OneVote v.votes := by
  have hinit : VotesKept me ⟨s, false, []⟩ :=
    ⟨fun _ hx => absurd hx List.not_mem_nil, fun _ hx => absurd hx List.not_mem_nil,
      fun _ hx => absurd hx List.not_mem_nil, fun hel => absurd hel Bool.false_ne_true⟩
  have hkept : ∀ v ∈ tr, VotesKept me v :=
    h.forall_mem hinit fun _ _ _ _ _ hc hi hs => hi.step hc hs
  exact fun v hv => (hkept v hv).once

/-- Node 0 votes for node 1, is restarted, votes for it again, stands for election itself and votes
for node 2 in the term after that. -/
theorem one_vote_restart : ∃ tr : List (Voter (Fin 3)), (∀ v ∈ tr, OneVote v.votes) ∧
    ∃ v ∈ tr, v.votes = [(3, 2), (2, 0), (1, 1), (1, 1)] := by
  have hcheck : Run.check (Voter.step (0 : Fin 3) {0, 1, 2})
      (fun tr a => decide (KeepsVotes 0 tr a)) ⟨.init, false, []⟩
      [.requestVote ⟨1, 1, 0, 0⟩ .ok .ok, .restart, .requestVote ⟨1, 1, 0, 0⟩ .ok .ok,
        .openElection .ok, .countVotes 1 .ok, .requestVote ⟨3, 2, 0, 0⟩ .ok .ok]
      (fun tr => decide (∃ v ∈ tr, v.votes = [(3, 2), (2, 0), (1, 1), (1, 1)])) = true := by
    decide +kernel
  obtain ⟨tr, hrun, hp⟩ := Run.exists_of_check (fun _ _ hc => of_decide_eq_true hc) hcheck
  exact ⟨tr, one_vote 0 _ _ hrun, of_decide_eq_true hp⟩

/-- **A node votes twice in term 1**: for node 1 after it has stood for election itself, and for
node 2 after node 1, which has its vote, has asked again with an old log. -/
theorem not_one_vote :
    (∃ tr : List (Voter (Fin 3)), Run (Voter.step 0 {0, 1, 2}) (fun _ _ => True)
      ⟨.init, false, []⟩ tr ∧ ∃ v ∈ tr, v.votes = [(1, 1), (1, 0)] ∧ ¬OneVote v.votes) ∧
    ∃ tr : List (Voter (Fin 3)), Run (Voter.step 0 {0, 1, 2}) (fun _ _ => True)
      ⟨.init, false, []⟩ tr ∧ ∃ v ∈ tr, v.votes = [(1, 2), (1, 1)] ∧ ¬OneVote v.votes := by
  have hself : Run.check (Voter.step (0 : Fin 3) {0, 1, 2}) (fun _ _ => true) ⟨.init, false, []⟩
      [.openElection .ok, .requestVote ⟨1, 1, 0, 0⟩ .ok .ok]
      (fun tr => decide (∃ v ∈ tr, v.votes = [(1, 1), (1, 0)] ∧ ¬OneVote v.votes)) = true := by
    decide +kernel
  have hagain : Run.check (Voter.step (0 : Fin 3) {0, 1, 2}) (fun _ _ => true) ⟨.init, false, []⟩
      [.requestVote ⟨1, 1, 0, 0⟩ .ok .ok, .appendEntries ⟨1, 0, 0, [⟨"a", 1⟩], 0⟩ .ok .ok,
        .requestVote ⟨1, 1, 0, 0⟩ .ok .ok, .requestVote ⟨1, 2, 1, 1⟩ .ok .ok]
      (fun tr => decide (∃ v ∈ tr, v.votes = [(1, 2), (1, 1)] ∧ ¬OneVote v.votes)) = true := by
    decide +kernel
  obtain ⟨tr₁, hrun₁, h₁⟩ :=
    Run.exists_of_check (C := fun _ _ => True) (fun _ _ _ => trivial) hself
  obtain ⟨tr₂, hrun₂, h₂⟩ :=
    Run.exists_of_check (C := fun _ _ => True) (fun _ _ _ => trivial) hagain
  exact ⟨⟨tr₁, hrun₁, of_decide_eq_true h₁⟩, tr₂, hrun₂, of_decide_eq_true h₂⟩

end Raft
end DistributedPrograms
