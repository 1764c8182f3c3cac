import DistributedPrograms.Raft.OneVote

/-!
# Terms and indices at the end of the 64-bit range

A node takes its term from whoever calls it: both handlers store any newer term they are sent, and
the next `open_election` adds 1 to it.  `request_vote` adds 1 to the candidate's `last_log_index`.
Neither addition is guarded.  At the largest number a debug build panics, and a release build goes
on with 0, so that the term of the node falls back and a complete log fails the log test.

The two functions are given here for any successor, `checkedSucc` for the debug build and
`wrappingSucc` for the release build.  `exact_iff_withinRange` then says what a node has to be
spared: a term that the elections it starts from then on take past the range, and a `last_log_index`
at the end of the range in a vote request whose index is looked at.

The condition must not be read off the term that overflows, or it would say the same again.  It is
about what a node has been given: `Counted` keeps, for the term a process starts with and for every
term it is sent, that term plus the number of elections it has started since.  `WithinRange` looks
at these counts only. That the term of the node is the largest of them is an invariant
(`CountsTerm`), and the equivalence comes from it: an election overflows exactly if one of the
counts is at the end of the range.

Where a debug build does not panic the two builds do the same (`openElectionStart_eq_of_ne_panic`,
`requestVote_eq_of_ne_panic`), so the rest of the development, which takes the release build, speaks
about both.
-/

set_option autoImplicit false

namespace DistributedPrograms
namespace Raft

variable {A : Type} [DecidableEq A]

open VariableState

/-! ## The additions of a debug and of a release build

The handlers with the successor as a parameter, so that one text serves both builds. -/

/-- `n + 1` in a debug build, which panics where a release build wraps. -/
def checkedSucc (n : Nat) : Except (Error A) Nat :=
  if n + 1 < 2 ^ 64 then .ok (n + 1) else .error .panic

/-- The start of `open_election`.  When the addition panics, the node is candidate already, because
the role is set before the term. -/
def openElectionStartWith (succ : Nat → Except (Error A) Nat) (s : VariableState A) (d : Disk A) :
    Outcome A Bool :=
  if !s.role.isFollower then (s, .ok false)
  else
    match succ s.currentTerm with
    | .error e => ({ s with role := .candidate }, .error e)
    | .ok term =>
      (savePersistent
        { s with
          role := .candidate
          persistent := { s.persistent with currentTerm := term } } d).andThen
        fun s _ => ({ s with persistent := { s.persistent with votedFor := none } }, .ok true)

/-- `log_condition` of `request_vote`; the addition is made only where the terms do not decide. -/
def logConditionWith (succ : Nat → Except (Error A) Nat) (logs : List Log)
    (req : RequestVoteRequest A) : Except (Error A) Bool :=
  if req.lastLogTerm > lastLogTerm logs then .ok true
  else
    match succ req.lastLogIndex with
    | .error e => .error e
    | .ok next => .ok (next ≥ logs.length)

/-- `request_vote` from the log test on. -/
def decideVoteWith (succ : Nat → Except (Error A) Nat) (s : VariableState A)
    (req : RequestVoteRequest A) (d : Disk A) : Outcome A RequestVoteResponse :=
  match logConditionWith succ s.logs req with
  | .error e => (s, .error e)
  | .ok logCondition =>
    if !logCondition then
      if some req.candidateId = s.votedFor then
        (savePersistent { s with persistent := { s.persistent with votedFor := none } } d).andThen
          fun s _ => (s, .ok ⟨max req.term s.currentTerm, false⟩)
      else (s, .ok ⟨max req.term s.currentTerm, false⟩)
    else if (s.votedFor.map fun candidate => candidate == req.candidateId).getD true then
      (savePersistent
        { s with persistent := { s.persistent with votedFor := some req.candidateId } } d).andThen
        fun s _ => (s, .ok ⟨max req.term s.currentTerm, true⟩)
    else (s, .ok ⟨max req.term s.currentTerm, false⟩)

/-- `request_vote`. -/
def requestVoteWith (succ : Nat → Except (Error A) Nat) (s : VariableState A)
    (req : RequestVoteRequest A) (d₁ d₂ : Disk A) : Outcome A RequestVoteResponse :=
  if req.term < s.currentTerm then (s, .ok ⟨req.term, false⟩)
  else (s.turnToFollower req.term d₁).andThen fun s _ => decideVoteWith succ s req d₂

/-- `request_vote` comes to compare the index: the request is not old, a newer term is saved, and
the last term of the candidate is not above the node's own. -/
def ComparesIndex (s : VariableState A) (req : RequestVoteRequest A) (d₁ : Disk A) : Prop :=
  s.currentTerm ≤ req.term ∧ (s.currentTerm < req.term → d₁ = .ok) ∧
    req.lastLogTerm ≤ lastLogTerm s.logs

/-! ### What the successor decides

Nothing else of a handler depends on it. -/

variable {succ : Nat → Except (Error A) Nat} {s : VariableState A} {req : RequestVoteRequest A}
  {d d₁ d₂ : Disk A}

omit [DecidableEq A] in
theorem checkedSucc_of_lt {n : Nat} (h : n + 1 < 2 ^ 64) :
    (checkedSucc n : Except (Error A) Nat) = .ok (wrappingSucc n) := by
  rw [checkedSucc, if_pos h, wrappingSucc_of_lt h]

omit [DecidableEq A] in
theorem checkedSucc_of_not_lt {n : Nat} (h : ¬n + 1 < 2 ^ 64) :
    (checkedSucc n : Except (Error A) Nat) = .error .panic := by
  rw [checkedSucc, if_neg h]

omit [DecidableEq A] in
theorem openElectionStartWith_of_ok
    (h : s.role = .follower → succ s.currentTerm = .ok (wrappingSucc s.currentTerm)) :
    openElectionStartWith succ s d = openElectionStart s d := by
  rw [openElectionStartWith, openElectionStart]
  split
  · rfl
  · next hrole => rw [h (by simpa using hrole)]

omit [DecidableEq A] in
theorem logConditionWith_of_ok {logs : List Log}
    (h : req.lastLogTerm ≤ lastLogTerm logs →
      succ req.lastLogIndex = .ok (wrappingSucc req.lastLogIndex)) :
    logConditionWith succ logs req = .ok (logCondition logs req) := by
  rw [logConditionWith]
  split
  · next hlast => rw [logCondition, decide_eq_true hlast, Bool.true_or]
  · next hlast =>
    rw [h (Nat.le_of_not_lt hlast), logCondition, decide_eq_false hlast, Bool.false_or]

theorem decideVoteWith_of_ok
    (h : logConditionWith succ s.logs req = .ok (logCondition s.logs req)) :
    decideVoteWith succ s req d = decideVote s req d := by
  rw [decideVoteWith, h, decideVote]

theorem requestVoteWith_of_ok (h : ComparesIndex s req d₁ →
      succ req.lastLogIndex = .ok (wrappingSucc req.lastLogIndex)) :
    requestVoteWith succ s req d₁ d₂ = requestVote s req d₁ d₂ := by
  rw [requestVoteWith, requestVote]
  split
  · rfl
  · next hold =>
    by_cases hd : s.currentTerm < req.term → d₁ = .ok
    · obtain ⟨t, ht, heq⟩ := turnToFollower_saved hold hd
      rw [heq, Outcome.andThen_ok, Outcome.andThen_ok]
      refine decideVoteWith_of_ok (logConditionWith_of_ok fun hlast => h ?_)
      exact ⟨Nat.le_of_not_lt hold, hd, ht.1 ▸ hlast⟩
    · obtain ⟨t, -, -, heq⟩ := turnToFollower_failed hd
      rw [heq, Outcome.andThen_error, Outcome.andThen_error]

omit [DecidableEq A] in
theorem openElectionStartWith_of_error {e : Error A} (hrole : s.role = .follower)
    (h : succ s.currentTerm = .error e) : (openElectionStartWith succ s d).2 = .error e := by
  rw [openElectionStartWith, if_neg (by simp [hrole, Role.isFollower]), h]

theorem requestVoteWith_of_error {e : Error A} (hcomp : ComparesIndex s req d₁)
    (h : succ req.lastLogIndex = .error e) : (requestVoteWith succ s req d₁ d₂).2 = .error e := by
  obtain ⟨hterm, hd, hlast⟩ := hcomp
  obtain ⟨t, ht, heq⟩ := turnToFollower_saved (Nat.not_lt.2 hterm) hd
  rw [requestVoteWith, if_neg (Nat.not_lt.2 hterm), heq, Outcome.andThen_ok, decideVoteWith,
    logConditionWith, if_neg (by rw [ht.1]; exact Nat.not_lt.2 hlast), h]

/-! ### The panics of a debug build

Where the addition is out of range, and only there. -/

omit [DecidableEq A] in
theorem openElectionStart_ne_panic (s : VariableState A) (d : Disk A) :
    (openElectionStart s d).2 ≠ .error .panic := by
  rcases openElectionStart_cases s d with ⟨-, ho⟩ | ⟨-, _, _, -, -, ⟨ho, -⟩ | ho⟩
  · simp [ho]
  · simp [ho]
  · simp [ho]

theorem decideVote_ne_panic (s : VariableState A) (req : RequestVoteRequest A) (d : Disk A) :
    (decideVote s req d).2 ≠ .error .panic := by
  obtain ⟨_, _, -, ⟨res, hres⟩ | hres⟩ := decideVote_cases s req d
  · simp [hres]
  · simp [hres]

theorem requestVote_ne_panic (s : VariableState A) (req : RequestVoteRequest A) (d₁ d₂ : Disk A) :
    (requestVote s req d₁ d₂).2 ≠ .error .panic := by
  rw [requestVote]
  split
  · simp
  · next hold =>
    obtain ⟨t, -, heq | heq⟩ := turnToFollower_adopted hold d₁
    · rw [heq, Outcome.andThen_ok]
      exact decideVote_ne_panic t req d₂
    · simp [heq]

omit [DecidableEq A] in
theorem openElectionStartWith_ne_panic_iff :
    (openElectionStartWith checkedSucc s d).2 ≠ .error .panic ↔
      (s.role = .follower → s.currentTerm + 1 < 2 ^ 64) := by
  refine ⟨fun hok hrole => ?_, fun h => ?_⟩
  · by_contra hover
    exact hok (openElectionStartWith_of_error hrole (checkedSucc_of_not_lt hover))
  · rw [openElectionStartWith_of_ok fun hrole => checkedSucc_of_lt (h hrole)]
    exact openElectionStart_ne_panic s d

theorem requestVoteWith_ne_panic_iff :
    (requestVoteWith checkedSucc s req d₁ d₂).2 ≠ .error .panic ↔
      (ComparesIndex s req d₁ → req.lastLogIndex + 1 < 2 ^ 64) := by
  refine ⟨fun hok hcomp => ?_, fun h => ?_⟩
  · by_contra hover
    exact hok (requestVoteWith_of_error hcomp (checkedSucc_of_not_lt hover))
  · rw [requestVoteWith_of_ok fun hcomp => checkedSucc_of_lt (h hcomp)]
    exact requestVote_ne_panic s req d₁ d₂

omit [DecidableEq A] in
/-- Where a debug build does not panic, a release build does the same. -/
theorem openElectionStart_eq_of_ne_panic
    (h : (openElectionStartWith checkedSucc s d).2 ≠ .error .panic) :
    openElectionStart s d = openElectionStartWith checkedSucc s d :=
  (openElectionStartWith_of_ok fun hrole =>
    checkedSucc_of_lt (openElectionStartWith_ne_panic_iff.1 h hrole)).symm

theorem requestVote_eq_of_ne_panic
    (h : (requestVoteWith checkedSucc s req d₁ d₂).2 ≠ .error .panic) :
    requestVote s req d₁ d₂ = requestVoteWith checkedSucc s req d₁ d₂ :=
  (requestVoteWith_of_ok fun hcomp =>
    checkedSucc_of_lt (requestVoteWith_ne_panic_iff.1 h hcomp)).symm

/-! ## What a step does to the term

The term is the one that was, one more, or that of a request. -/

/-- The term after an action of a process that goes on. -/
def Voter.termAfter (s : VariableState A) : VoterAction A → Nat
  | .requestVote req _ _ => max s.currentTerm req.term
  | .appendEntries req _ _ => max s.currentTerm req.term
  | .openElection _ => if s.role.isFollower then wrappingSucc s.currentTerm else s.currentTerm
  | _ => s.currentTerm

variable {me : A} {servers : Finset A} {a : VoterAction A}

theorem Voter.currentTerm_stateAfter (ha : a ≠ .restart) :
    (Voter.stateAfter me servers s a).currentTerm = Voter.termAfter s a := by
  cases a with
  | requestVote req d₁ d₂ => exact requestVote_currentTerm s req d₁ d₂
  | appendEntries req d₁ d₂ => exact appendEntries_currentTerm s req d₁ d₂
  | openElection d =>
    rw [Voter.stateAfter, Voter.termAfter]
    rcases openElectionStart_cases s d with ⟨hrole, ho⟩ | ⟨hrole, _, _, -, ho, -⟩
    · rw [ho, if_neg (mt Role.isFollower_iff.1 hrole)]
    · rw [ho, if_pos (Role.isFollower_iff.2 hrole)]
  | countVotes voteResult d =>
    show (openElectionCount servers s voteResult d).1.currentTerm = s.currentTerm
    rcases openElectionCount_cases servers s voteResult d with ⟨-, ho⟩ | ⟨-, _, _, ho, -⟩
    · rw [ho]
    · rw [ho]
  | sendAppendEntries texts d =>
    show (sendAppendEntriesAppend s texts d).1.currentTerm = s.currentTerm
    rcases sendAppendEntriesAppend_cases s texts d with ⟨-, ho, -⟩ | ⟨-, _, ho⟩
    · rw [ho]
    · rw [ho]
  | sendRound addr => exact (sendAppendEntriesRequest_same me s addr).currentTerm_eq
  | roundReply addr success => exact (sendAppendEntriesReply_same s addr success).currentTerm_eq
  | closeRound successCount =>
    show (sendAppendEntriesCommit servers s successCount).1.currentTerm = s.currentTerm
    rw [sendAppendEntriesCommit]
    split
    · rfl
    · rfl
  | restart => contradiction

/-! ## Runs of one process

A process ends with a panic or is killed; a restart begins a new one, with the term of its file.  So
the runs here have no restarts, and any state to start in. -/

/-- A node and, for the term it has started with and every term it has been sent, that term plus the
number of elections it has started since. -/
structure Counted (A : Type) where
  voter : Voter A
  counts : List Nat

namespace Counted

/-- A process that starts in the state `s`. -/
def start (s : VariableState A) : Counted A := ⟨⟨s, false, []⟩, [s.currentTerm]⟩

def countsAfter (s : VariableState A) (counts : List Nat) : VoterAction A → List Nat
  | .requestVote req _ _ => req.term :: counts
  | .appendEntries req _ _ => req.term :: counts
  | .openElection _ => if s.role.isFollower then counts.map (· + 1) else counts
  | _ => counts

/-- One step of the node `me`, as long as its process lives. -/
def step (me : A) (servers : Finset A) (v : Counted A) : VoterAction A → Option (Counted A)
  | .restart => none
  | a => (v.voter.step me servers a).map fun voter =>
      ⟨voter, countsAfter v.voter.state v.counts a⟩

variable {v v' : Counted A}

theorem step_cases (h : v.step me servers a = some v') : a ≠ .restart ∧
    v'.voter.state = Voter.stateAfter me servers v.voter.state a ∧
    v'.counts = countsAfter v.voter.state v.counts a := by
  have hne : a ≠ .restart := by
    rintro rfl
    contradiction
  rw [step] at h
  · obtain ⟨voter, hs, rfl⟩ := Option.map_eq_some_iff.1 h
    exact ⟨hne, Voter.step_state hs, rfl⟩
  · exact hne

end Counted

/-- No addition of the step overflows, and the index is compared as the natural numbers are.  It is
said for both kinds of builds: none that checks panics, and none that wraps decides otherwise. -/
def Exact (tr : List (Counted A)) : VoterAction A → Prop
  | .openElection d => ∀ v ∈ tr.head?,
      (openElectionStartWith checkedSucc v.voter.state d).2 ≠ .error .panic
  | .requestVote req d₁ d₂ => ∀ v ∈ tr.head?,
      (requestVoteWith checkedSucc v.voter.state req d₁ d₂).2 ≠ .error .panic ∧
      (ComparesIndex v.voter.state req d₁ →
        (v.voter.state.logs.length ≤ wrappingSucc req.lastLogIndex ↔
          v.voter.state.logs.length ≤ req.lastLogIndex + 1))
  | _ => True

/-- The term of the node does not decrease, from any moment to any later one of the life of a
process. -/
def TermGrows (tr : List (Counted A)) : Prop :=
  tr.Pairwise fun later earlier =>
    earlier.voter.state.currentTerm ≤ later.voter.state.currentTerm

/-- The condition on a step: the elections of the node do not take a term it has started with or has
been sent past the range, and an index that is compared is not at the end of the range. -/
def WithinRange (tr : List (Counted A)) : VoterAction A → Prop
  | .openElection _ => ∀ v ∈ tr.head?, v.voter.state.role = .follower →
      ∀ n ∈ v.counts, n + 1 < 2 ^ 64
  | .requestVote req d₁ _ => ∀ v ∈ tr.head?, ComparesIndex v.voter.state req d₁ →
      req.lastLogIndex + 1 < 2 ^ 64
  | _ => True

/-! ### The term is the largest count

The first term and every term from the wire is counted on by the elections after it, in natural
numbers.  As long as no count is at the end of the range, the largest of them is the term of the
node. -/

structure CountsTerm (v : Counted A) : Prop where
  mem : v.voter.state.currentTerm ∈ v.counts
  le : ∀ n ∈ v.counts, n ≤ v.voter.state.currentTerm

variable {v v' : Counted A} {tr : List (Counted A)}

omit [DecidableEq A] in
theorem countsTerm_start (s : VariableState A) : CountsTerm (Counted.start s) :=
  ⟨List.mem_singleton_self _, fun _ hn => Nat.le_of_eq (List.mem_singleton.1 hn)⟩

omit [DecidableEq A] in
/-- A term from the wire is one count more. -/
theorem CountsTerm.adopt (h : CountsTerm v) {term : Nat}
    (hstate : v'.voter.state.currentTerm = max v.voter.state.currentTerm term)
    (hcounts : v'.counts = term :: v.counts) : CountsTerm v' := by
  refine ⟨?_, fun n hn => ?_⟩
  · rw [hstate, hcounts]
    rcases max_choice v.voter.state.currentTerm term with hmax | hmax
    · rw [hmax]
      exact List.mem_cons_of_mem _ h.mem
    · rw [hmax]
      exact List.mem_cons_self
  · rw [hcounts] at hn
    rw [hstate]
    rcases List.mem_cons.1 hn with rfl | hn
    · exact Nat.le_max_right _ _
    · exact (h.le n hn).trans (Nat.le_max_left _ _)

omit [DecidableEq A] in
theorem CountsTerm.keep (h : CountsTerm v)
    (hstate : v'.voter.state.currentTerm = v.voter.state.currentTerm)
    (hcounts : v'.counts = v.counts) : CountsTerm v' :=
  ⟨hstate ▸ hcounts ▸ h.mem, hstate ▸ hcounts ▸ h.le⟩

omit [DecidableEq A] in
/-- An election counts on from the term and from everything below it. -/
theorem CountsTerm.election (h : CountsTerm v)
    (hstate : v'.voter.state.currentTerm = v.voter.state.currentTerm + 1)
    (hcounts : v'.counts = v.counts.map (· + 1)) : CountsTerm v' := by
  refine ⟨?_, fun n hn => ?_⟩
  · rw [hstate, hcounts]
    exact List.mem_map_of_mem h.mem
  · rw [hcounts] at hn
    obtain ⟨m, hm, rfl⟩ := List.mem_map.1 hn
    rw [hstate]
    exact Nat.succ_le_succ (h.le m hm)

theorem CountsTerm.step (h : CountsTerm v) (hc : WithinRange (v :: tr) a)
    (hs : v.step me servers a = some v') : CountsTerm v' := by
  obtain ⟨ha, hstate, hcounts⟩ := Counted.step_cases hs
  have hterm : v'.voter.state.currentTerm = Voter.termAfter v.voter.state a := by
    rw [hstate]
    exact Voter.currentTerm_stateAfter ha
  cases a with
  | requestVote req d₁ d₂ => exact h.adopt hterm hcounts
  | appendEntries req d₁ d₂ => exact h.adopt hterm hcounts
  | openElection d =>
    rw [Voter.termAfter] at hterm
    rw [Counted.countsAfter] at hcounts
    split at hterm
    · next hrole =>
      rw [if_pos hrole] at hcounts
      have hlt := hc v rfl (Role.isFollower_iff.1 hrole) _ h.mem
      exact h.election (hterm.trans (wrappingSucc_of_lt hlt)) hcounts
    · next hrole =>
      rw [if_neg hrole] at hcounts
      exact h.keep hterm hcounts
  | _ => exact h.keep hterm hcounts

/-- Where the counts are right, the condition is what a step needs. -/
theorem CountsTerm.exact_iff (h : CountsTerm v) :
    Exact (v :: tr) a ↔ WithinRange (v :: tr) a := by
  cases a with
  | openElection d =>
    refine ⟨fun hexact => ?_, fun hrange => ?_⟩
    · rintro u ⟨⟩ hrole n hn
      have hlt := openElectionStartWith_ne_panic_iff.1 (hexact v rfl) hrole
      exact Nat.lt_of_le_of_lt (Nat.succ_le_succ (h.le n hn)) hlt
    · rintro u ⟨⟩
      exact openElectionStartWith_ne_panic_iff.2 fun hrole => hrange v rfl hrole _ h.mem
  | requestVote req d₁ d₂ =>
    refine ⟨fun hexact => ?_, fun hrange => ?_⟩
    · rintro u ⟨⟩
      exact requestVoteWith_ne_panic_iff.1 (hexact v rfl).1
    · rintro u ⟨⟩
      refine ⟨requestVoteWith_ne_panic_iff.2 (hrange v rfl), fun hcomp => ?_⟩
      rw [wrappingSucc_of_lt (hrange v rfl hcomp)]
  | _ => exact Iff.rfl

/-! ## Runs within the range

Runs in which no request and no election comes near the end. -/

theorem countsTerm_run (h : Run (Counted.step me servers) WithinRange (.start s) tr) :
    ∀ v ∈ tr, CountsTerm v :=
  h.forall_mem (countsTerm_start s) fun _ _ _ _ _ hc hi hs => hi.step hc hs

theorem termGrows_run (h : Run (Counted.step me servers) WithinRange (.start s) tr) :
    TermGrows tr := by
  refine h.pairwise (R := fun later earlier =>
      earlier.voter.state.currentTerm ≤ later.voter.state.currentTerm)
    (fun hut hts => hts.trans hut) fun v rest a v' hrun hc hs => ?_
  have hv : CountsTerm v := countsTerm_run hrun v List.mem_cons_self
  obtain ⟨ha, hstate, -⟩ := Counted.step_cases hs
  rw [hstate, Voter.currentTerm_stateAfter ha]
  cases a with
  | requestVote req d₁ d₂ => exact Nat.le_max_left _ _
  | appendEntries req d₁ d₂ => exact Nat.le_max_left _ _
  | openElection d =>
    rw [Voter.termAfter]
    split
    · next hrole =>
      rw [wrappingSucc_of_lt (hc v rfl (Role.isFollower_iff.1 hrole) _ hv.mem)]
      exact Nat.le_succ _
    · exact Nat.le_refl _
  | _ => exact Nat.le_refl _

/-- **No addition overflows, the term never decreases and the index is compared as it should be**
exactly in the runs that stay within the range, whatever state the process starts in. -/
theorem exact_iff_withinRange (me : A) (servers : Finset A) (s : VariableState A)
    (tr : List (Counted A)) :
    (Run (Counted.step me servers) Exact (.start s) tr ∧ TermGrows tr) ↔
      Run (Counted.step me servers) WithinRange (.start s) tr := by
  refine ⟨fun ⟨hexact, _⟩ => ?_, fun hrange => ⟨?_, termGrows_run hrange⟩⟩
  · have hcounts : ∀ v ∈ tr, CountsTerm v := by
      refine hexact.forall_mem (countsTerm_start s) fun v rest a _ _ hc hi hs => ?_
      have hwithin : WithinRange (v :: rest) a := hi.exact_iff.1 hc
      exact hi.step hwithin hs
    exact hexact.mono_of_mem (fun _ _ _ hv hc => hv.exact_iff.1 hc) hcounts
  · exact hrange.mono_of_mem (fun _ _ _ hv hc => hv.exact_iff.2 hc) (countsTerm_run hrange)

instance (tr : List (Counted A)) : Decidable (TermGrows tr) := by
  unfold TermGrows; infer_instance

/-- **A peer takes the term of a node back to 0**: one heartbeat of the largest term, and the
timeout after it.  And a fresh node that is asked for its vote with the largest index refuses,
although the candidate's log is not behind. -/
theorem not_exact :
    (∃ tr : List (Counted (Fin 3)), Run (Counted.step 0 {0, 1, 2}) (fun _ _ => True)
      (.start .init) tr ∧ ¬TermGrows tr ∧
      ∃ v ∈ tr, v.voter.state.currentTerm = 2 ^ 64 - 1 ∧
        (openElectionStartWith checkedSucc v.voter.state .ok).2 = .error .panic) ∧
    ∃ req : RequestVoteRequest (Fin 3), req.lastLogIndex < 2 ^ 64 ∧
      (requestVoteWith checkedSucc .init req .ok .ok).2 = .error .panic ∧
      (requestVote .init req .ok .ok).2 = .ok ⟨1, false⟩ ∧
      (VariableState.init : VariableState (Fin 3)).logs.length ≤ req.lastLogIndex + 1 := by
  have hcheck : Run.check (Counted.step (0 : Fin 3) {0, 1, 2}) (fun _ _ => true) (.start .init)
      [.appendEntries ⟨2 ^ 64 - 1, 0, 0, [], 0⟩ .ok .ok, .openElection .ok]
      (fun tr => decide (¬TermGrows tr ∧ ∃ v ∈ tr, v.voter.state.currentTerm = 2 ^ 64 - 1 ∧
        (openElectionStartWith checkedSucc v.voter.state .ok).2 = .error .panic)) = true := by
    decide +kernel
  obtain ⟨tr, hrun, hp⟩ :=
    Run.exists_of_check (C := fun _ _ => True) (fun _ _ _ => trivial) hcheck
  exact ⟨⟨tr, hrun, of_decide_eq_true hp⟩, ⟨1, 1, 2 ^ 64 - 1, 0⟩, by decide +kernel⟩

end Raft
end DistributedPrograms
