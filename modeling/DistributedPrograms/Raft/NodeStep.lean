import DistributedPrograms.Raft.Steps

/-!
# What a step does to role, term, log and commit index of one node

The effects of `Raft.Steps`, read off field by field.  These are the facts every invariant of a
cluster starts from, and each is a case analysis of `Effect` that is made once, here:

* `Effect.term_le`: terms only grow, as long as no election wraps (`NoWrap`);
* `Effect.active`, `Effect.candidate`: who is not follower was so before in the same term, or has
  just become candidate; and a candidate keeps its term and its log;
* `Effect.leader`, `Effect.leader_stays`, `Effect.leader_term`: a leader was leader of the same term
  and has only appended, or it was candidate and has just won; it leaves its role only for a newer
  term;
* `Effect.logs`: a log changes in two ways only, by a leader that appends and by a follower that
  accepts a request;
* `Effect.commitIndex`: so does the commit index, by a round that commits and by a follower that
  accepts;
* `Effect.matchIndex`: a `match_index` of a leader was there before, is written now, or is the 0 of
  a node that has just won.

They are disjunctions with the reason for each case in it, so that a proof about, say, the logs
never sees the ten other things a step can be.
-/

set_option autoImplicit false

namespace DistributedPrograms
namespace Raft

variable {A : Type} [DecidableEq A] {servers : Finset A} {c : Cluster A} {v : A} {a : Action A}
  {t : VariableState A}

open VariableState

/-- An election does not take the term past the largest 64-bit number.  Behind it the term is 0
again, in a build without overflow checks. -/
def NoWrap (c : Cluster A) : Action A → Prop
  | .openElection n _ => (c.node n).state.currentTerm + 1 < 2 ^ 64
  | _ => True

instance (c : Cluster A) (a : Action A) : Decidable (NoWrap c a) := by
  rcases a <;> dsimp only [NoWrap] <;> infer_instance

namespace Effect

theorem term_le (hw : NoWrap c a) (h : Effect servers c v a t) :
    (c.node v).state.currentTerm ≤ t.currentTerm := by
  cases h with
  | same h => exact Nat.le_of_eq h.currentTerm_eq.symm
  | @openElection d _ =>
    rcases openElectionStart_cases (c.node v).state d with ⟨-, h⟩ | ⟨-, _, _, -, h, -⟩
    · rw [h]
    · rw [h]
      show (c.node v).state.currentTerm ≤ wrappingSucc (c.node v).state.currentTerm
      rw [wrappingSucc_of_lt hw]
      exact Nat.le_succ _
  | @countVotes d e _ _ =>
    rcases openElectionCount_cases servers (c.node v).state (countTrue servers e.votes) d with
      ⟨-, h⟩ | ⟨-, _, _, h, -⟩
    · rw [h]
    · rw [h]
  | @requestVote k d₁ d₂ call _ _ =>
    rw [requestVote_currentTerm]
    exact Nat.le_max_left _ _
  | @sendAppendEntries texts d =>
    rcases sendAppendEntriesAppend_cases (c.node v).state texts d with ⟨-, h, -⟩ | ⟨-, _, h⟩
    · rw [h]
    · rw [h]
  | @appendEntries k d₁ d₂ call _ _ =>
    rw [appendEntries_currentTerm]
    exact Nat.le_max_left _ _
  | closeRound => exact Nat.le_refl _

/-- A node that is not follower was so before, in the same term, or has just become candidate. -/
theorem active (h : Effect servers c v a t) (ht : t.role ≠ .follower) :
    ((c.node v).state.role ≠ .follower ∧ t.currentTerm = (c.node v).state.currentTerm) ∨
    (∃ d, a = .openElection v d ∧ (c.node v).state.role = .follower ∧ t.role = .candidate ∧
      t.currentTerm = wrappingSucc (c.node v).state.currentTerm) := by
  cases h with
  | same h =>
    exact Or.inl ⟨fun hf => ht (h.follower_iff.2 hf), h.currentTerm_eq⟩
  | @openElection d _ =>
    rcases openElectionStart_cases (c.node v).state d with ⟨hr, h⟩ | ⟨hr, _, _, -, h, -⟩
    · rw [h]; exact Or.inl ⟨hr, rfl⟩
    · rw [h]; exact Or.inr ⟨d, rfl, hr, rfl, rfl⟩
  | @countVotes d e _ _ =>
    rcases openElectionCount_cases servers (c.node v).state (countTrue servers e.votes) d with
      ⟨-, h⟩ | ⟨hr, _, _, h, -⟩
    · rw [h] at ht ⊢; exact Or.inl ⟨ht, rfl⟩
    · rw [h]; exact Or.inl ⟨by rw [hr]; simp, rfl⟩
  | @requestVote k d₁ d₂ call _ _ =>
    obtain ⟨hr, hterm⟩ := (requestVote_spec (c.node v).state call.req d₁ d₂).kept ht
    exact Or.inl ⟨hr ▸ ht, hterm⟩
  | @sendAppendEntries texts d =>
    rcases sendAppendEntriesAppend_cases (c.node v).state texts d with ⟨-, h, -⟩ | ⟨-, _, h⟩
    · rw [h] at ht ⊢; exact Or.inl ⟨ht, rfl⟩
    · rw [h] at ht ⊢; exact Or.inl ⟨ht, rfl⟩
  | @appendEntries k d₁ d₂ call _ _ =>
    obtain ⟨hr, hterm⟩ := (appendEntries_spec (c.node v).state call.req d₁ d₂).kept ht
    exact Or.inl ⟨hr ▸ ht, hterm⟩
  | closeRound => exact Or.inl ⟨ht, rfl⟩

/-- A log stays as it is, or the node is leader and appends, or it is follower and has accepted a
request. -/
theorem logs (h : Effect servers c v a t) :
    t.logs = (c.node v).state.logs ∨
    (∃ texts d, a = .sendAppendEntries v texts d ∧ (c.node v).state.role.isLeader = true ∧
      t.role = (c.node v).state.role ∧ t.currentTerm = (c.node v).state.currentTerm ∧
      t.logs = (c.node v).state.logs ++
        texts.map fun text => ⟨text, (c.node v).state.currentTerm⟩) ∨
    (∃ k d₁ d₂ call, a = .appendEntries k d₁ d₂ ∧ c.appendCalls[k]? = some call ∧
      call.callee = v ∧ Stored (c.node v).state call.req t) := by
  cases h with
  | same h => exact Or.inl (by rw [VariableState.logs, VariableState.logs, h.persistent])
  | @openElection d _ =>
    rcases openElectionStart_cases (c.node v).state d with ⟨-, h⟩ | ⟨-, _, _, -, h, -⟩ <;>
      exact Or.inl (by rw [h])
  | @countVotes d e _ _ =>
    rcases openElectionCount_cases servers (c.node v).state (countTrue servers e.votes) d with
      ⟨-, h⟩ | ⟨-, _, _, h, -⟩ <;> exact Or.inl (by rw [h])
  | @requestVote k d₁ d₂ call _ _ =>
    exact Or.inl (requestVote_spec (c.node v).state call.req d₁ d₂).logs
  | @sendAppendEntries texts d =>
    rcases sendAppendEntriesAppend_cases (c.node v).state texts d with ⟨-, h, -⟩ | ⟨hl, _, h⟩
    · exact Or.inl (by rw [h])
    · exact Or.inr (Or.inl ⟨texts, d, rfl, hl, by rw [h], by rw [h], by rw [h]⟩)
  | @appendEntries k d₁ d₂ call hk hv =>
    rcases (appendEntries_spec (c.node v).state call.req d₁ d₂).stored with ⟨h, -⟩ | h
    · exact Or.inl h
    · exact Or.inr (Or.inr ⟨k, d₁, d₂, call, rfl, hk, hv, h⟩)
  | closeRound => exact Or.inl rfl

/-- The commit index stays as it is, or a round of the node commits its log, or the node is follower
and has accepted a request. -/
theorem commitIndex (h : Effect servers c v a t) :
    t.commitIndex = (c.node v).state.commitIndex ∨
    (∃ r rd, a = .closeRound v r ∧ (c.node v).rounds[r]? = some rd ∧
      (∀ p ∈ servers, (rd.peers p).isDone = true) ∧
      countTrue servers rd.peers * 2 > servers.card ∧
      t = { (c.node v).state with commitIndex := (c.node v).state.logs.length - 1 }) ∨
    (∃ k d₁ d₂ call, a = .appendEntries k d₁ d₂ ∧ c.appendCalls[k]? = some call ∧
      call.callee = v ∧ Stored (c.node v).state call.req t) := by
  cases h with
  | same h => exact Or.inl h.commitIndex
  | @openElection d _ =>
    rcases openElectionStart_cases (c.node v).state d with ⟨-, h⟩ | ⟨-, _, _, -, h, -⟩ <;>
      exact Or.inl (by rw [h])
  | @countVotes d e _ _ =>
    rcases openElectionCount_cases servers (c.node v).state (countTrue servers e.votes) d with
      ⟨-, h⟩ | ⟨-, _, _, h, -⟩ <;> exact Or.inl (by rw [h])
  | @requestVote k d₁ d₂ call _ _ =>
    exact Or.inl (requestVote_spec (c.node v).state call.req d₁ d₂).commitIndex
  | @sendAppendEntries texts d =>
    rcases sendAppendEntriesAppend_cases (c.node v).state texts d with ⟨-, h, -⟩ | ⟨-, _, h⟩ <;>
      exact Or.inl (by rw [h])
  | @appendEntries k d₁ d₂ call hk hv =>
    rcases (appendEntries_spec (c.node v).state call.req d₁ d₂).stored with ⟨-, h⟩ | h
    · exact Or.inl h
    · exact Or.inr (Or.inr ⟨k, d₁, d₂, call, rfl, hk, hv, h⟩)
  | @closeRound r rd hr _ hdone hmaj =>
    exact Or.inr (Or.inl ⟨r, rd, rfl, hr, hdone, hmaj, rfl⟩)

/-- A candidate has just been made by `open_election`, or it was candidate before and keeps its term
and its log. -/
theorem candidate (h : Effect servers c v a t) (ht : t.role = .candidate) :
    ((c.node v).state.role = .candidate ∧ t.currentTerm = (c.node v).state.currentTerm ∧
      t.logs = (c.node v).state.logs) ∨
    (∃ d, a = .openElection v d ∧ (c.node v).state.role = .follower) := by
  rcases h.active (by rw [ht]; simp) with ⟨hr, hterm⟩ | ⟨d, ha, hr, -, -⟩
  · refine Or.inl ⟨?_, hterm, ?_⟩
    · -- a leader does not become candidate
      cases h with
      | same h => exact h.candidate_iff.1 ht
      | @openElection d _ =>
        rcases openElectionStart_cases (c.node v).state d with ⟨-, h⟩ | ⟨hf, -⟩
        · rwa [h] at ht
        · exact absurd hf hr
      | @countVotes d e _ _ =>
        rcases openElectionCount_cases servers (c.node v).state (countTrue servers e.votes) d with
          ⟨-, h⟩ | ⟨hc, -⟩
        · rwa [h] at ht
        · exact hc
      | @requestVote k d₁ d₂ call _ _ =>
        rcases (requestVote_spec (c.node v).state call.req d₁ d₂).role_term with ⟨h, -⟩ | ⟨h, -, -⟩
        · rwa [h] at ht
        · rw [h] at ht; exact absurd ht (by simp)
      | @sendAppendEntries texts d =>
        rcases sendAppendEntriesAppend_cases (c.node v).state texts d with ⟨-, h, -⟩ | ⟨-, _, h⟩
        · rwa [h] at ht
        · rwa [h] at ht
      | @appendEntries k d₁ d₂ call _ _ =>
        rcases (appendEntries_spec (c.node v).state call.req d₁ d₂).role_term with
          ⟨h, -⟩ | ⟨h, -, -⟩
        · rwa [h] at ht
        · rw [h] at ht; exact absurd ht (by simp)
      | closeRound => exact ht
    · rcases h.logs with h | ⟨_, _, -, hl, hrole, -, -⟩ | ⟨_, _, _, _, -, -, -, hst⟩
      · exact h
      · rw [← hrole, ht] at hl; exact absurd hl (by simp)
      · rw [hst.role] at ht; exact absurd ht (by simp)
  · exact Or.inr ⟨d, ha, hr⟩

/-- A leader was leader of the same term before and has at most appended entries of that term, or it
was candidate and has just won. -/
theorem leader (h : Effect servers c v a t) (ht : t.role.isLeader = true) :
    ((c.node v).state.role.isLeader = true ∧ t.currentTerm = (c.node v).state.currentTerm ∧
      ∃ texts : List String, t.logs = (c.node v).state.logs ++
        texts.map fun text => ⟨text, (c.node v).state.currentTerm⟩) ∨
    (∃ d e, a = .countVotes v d ∧ (c.node v).election = some e ∧
      (∀ p ∈ servers, (e.votes p).isDone = true) ∧
      countTrue servers e.votes * 2 > servers.card ∧ (c.node v).state.role = .candidate ∧
      t.currentTerm = (c.node v).state.currentTerm ∧ t.logs = (c.node v).state.logs) := by
  have hnil : ∀ {t : VariableState A}, t.logs = (c.node v).state.logs →
      ∃ texts : List String, t.logs = (c.node v).state.logs ++
        texts.map fun text => ⟨text, (c.node v).state.currentTerm⟩ :=
    fun h => ⟨[], by simp [h]⟩
  cases h with
  | same h =>
    refine Or.inl ⟨h.isLeader ▸ ht, h.currentTerm_eq, hnil ?_⟩
    rw [VariableState.logs, VariableState.logs, h.persistent]
  | @openElection d _ =>
    rcases openElectionStart_cases (c.node v).state d with ⟨-, h⟩ | ⟨-, _, _, -, h, -⟩
    · rw [h] at ht ⊢; exact Or.inl ⟨ht, rfl, hnil rfl⟩
    · rw [h] at ht; exact absurd ht (by simp)
  | @countVotes d e he hdone =>
    rcases openElectionCount_cases servers (c.node v).state (countTrue servers e.votes) d with
      ⟨-, h⟩ | ⟨hc, role, _, h, hrole⟩
    · rw [h] at ht ⊢; exact Or.inl ⟨ht, rfl, hnil rfl⟩
    · rw [h] at ht ⊢
      rcases hrole with rfl | rfl | ⟨hmaj, rfl⟩
      · exact absurd ht (by simp)
      · exact absurd ht (by simp)
      · exact Or.inr ⟨d, e, rfl, he, hdone, hmaj, hc, rfl, rfl⟩
  | @requestVote k d₁ d₂ call _ _ =>
    have hspec := requestVote_spec (c.node v).state call.req d₁ d₂
    rcases hspec.role_term with ⟨hr, hterm⟩ | ⟨hr, -, -⟩
    · exact Or.inl ⟨hr ▸ ht, hterm, hnil hspec.logs⟩
    · rw [hr] at ht; exact absurd ht (by simp)
  | @sendAppendEntries texts d =>
    rcases sendAppendEntriesAppend_cases (c.node v).state texts d with ⟨-, h, -⟩ | ⟨hl, _, h⟩
    · rw [h] at ht ⊢; exact Or.inl ⟨ht, rfl, hnil rfl⟩
    · rw [h]; exact Or.inl ⟨hl, rfl, texts, rfl⟩
  | @appendEntries k d₁ d₂ call _ _ =>
    have hspec := appendEntries_spec (c.node v).state call.req d₁ d₂
    rcases hspec.role_term with ⟨hr, hterm⟩ | ⟨hr, -, -⟩
    · rcases hspec.stored with ⟨hlogs, -⟩ | hst
      · exact Or.inl ⟨hr ▸ ht, hterm, hnil hlogs⟩
      · rw [hst.role] at ht; exact absurd ht (by simp)
    · rw [hr] at ht; exact absurd ht (by simp)
  | closeRound => exact Or.inl ⟨ht, rfl, hnil rfl⟩

/-- A leader that keeps its term stays leader. -/
theorem leader_stays (h : Effect servers c v a t) (hs : (c.node v).state.role.isLeader = true)
    (hterm : t.currentTerm = (c.node v).state.currentTerm) : t.role.isLeader = true := by
  cases h with
  | same h => exact h.isLeader ▸ hs
  | @openElection d _ =>
    rcases openElectionStart_cases (c.node v).state d with ⟨-, h⟩ | ⟨hf, -⟩
    · rwa [h]
    · rw [hf] at hs; exact absurd hs (by simp)
  | @countVotes d e _ _ =>
    rcases openElectionCount_cases servers (c.node v).state (countTrue servers e.votes) d with
      ⟨-, h⟩ | ⟨hc, -⟩
    · rwa [h]
    · rw [hc] at hs; exact absurd hs (by simp)
  | @requestVote k d₁ d₂ call _ _ =>
    rcases (requestVote_spec (c.node v).state call.req d₁ d₂).role_term with ⟨h, -⟩ | ⟨-, h, hlt⟩
    · rwa [h]
    · omega
  | @sendAppendEntries texts d =>
    rcases sendAppendEntriesAppend_cases (c.node v).state texts d with ⟨-, h, -⟩ | ⟨-, _, h⟩
    · rwa [h]
    · rwa [h]
  | @appendEntries k d₁ d₂ call _ _ =>
    rcases (appendEntries_spec (c.node v).state call.req d₁ d₂).role_term with ⟨h, -⟩ | ⟨-, h, hlt⟩
    · rwa [h]
    · omega
  | closeRound => exact hs

/-- The term of a leader changes only when a request of a newer term is handled. -/
theorem leader_term (h : Effect servers c v a t) (hs : (c.node v).state.role.isLeader = true) :
    t.currentTerm = (c.node v).state.currentTerm ∨
      (∃ k d₁ d₂ call, a = .requestVote k d₁ d₂ ∧ c.voteCalls[k]? = some call ∧ call.callee = v ∧
        (c.node v).state.currentTerm < call.req.term) ∨
      ∃ k d₁ d₂ call, a = .appendEntries k d₁ d₂ ∧ c.appendCalls[k]? = some call ∧
        call.callee = v ∧ (c.node v).state.currentTerm < call.req.term := by
  cases h with
  | same h => exact Or.inl h.currentTerm_eq
  | @openElection d _ =>
    rcases openElectionStart_cases (c.node v).state d with ⟨-, h⟩ | ⟨hf, -⟩
    · exact Or.inl (by rw [h])
    · rw [hf] at hs
      exact absurd hs (by simp)
  | @countVotes d e _ _ =>
    rcases openElectionCount_cases servers (c.node v).state (countTrue servers e.votes) d with
      ⟨-, h⟩ | ⟨hc, -⟩
    · exact Or.inl (by rw [h])
    · rw [hc] at hs
      exact absurd hs (by simp)
  | @requestVote k d₁ d₂ call hk hv =>
    rcases (requestVote_spec (c.node v).state call.req d₁ d₂).role_term with ⟨-, h⟩ | ⟨-, -, hlt⟩
    · exact Or.inl h
    · exact Or.inr (Or.inl ⟨k, d₁, d₂, call, rfl, hk, hv, hlt⟩)
  | @sendAppendEntries texts d =>
    rcases sendAppendEntriesAppend_cases (c.node v).state texts d with ⟨-, h, -⟩ | ⟨-, _, h⟩
    · exact Or.inl (by rw [h])
    · exact Or.inl (by rw [h])
  | @appendEntries k d₁ d₂ call hk hv =>
    rcases (appendEntries_spec (c.node v).state call.req d₁ d₂).role_term with ⟨-, h⟩ | ⟨-, -, hlt⟩
    · exact Or.inl h
    · exact Or.inr (Or.inr ⟨k, d₁, d₂, call, rfl, hk, hv, hlt⟩)
  | closeRound => exact Or.inl rfl

/-- A `match_index` of a leader was there before, or is written now, or is the 0 of a node that has
just won. -/
theorem matchIndex (h : Effect servers c v a t) {p : A} {j : Nat}
    (hj : t.role.matchIndexOf p = some j) :
    MatchStep c v a p j ∨ ((c.node v).state.role = .candidate ∧ j = 0) := by
  have hkeep : ∀ {t : VariableState A}, t.role = (c.node v).state.role →
      t.role.matchIndexOf p = some j →
      MatchStep c v a p j ∨ ((c.node v).state.role = .candidate ∧ j = 0) := by
    intro t hrole hj
    rw [hrole] at hj
    exact Or.inl (.keep hj)
  cases h with
  | same _ hmatch => exact Or.inl (hmatch p j hj)
  | @openElection d _ =>
    rcases openElectionStart_cases (c.node v).state d with ⟨-, h⟩ | ⟨-, _, _, -, h, -⟩
    · rw [h] at hj
      exact hkeep rfl hj
    · rw [h] at hj
      exact absurd hj (by simp)
  | @countVotes d e _ _ =>
    rcases openElectionCount_cases servers (c.node v).state (countTrue servers e.votes) d with
      ⟨-, h⟩ | ⟨hc, role, _, h, hrole⟩
    · rw [h] at hj
      exact hkeep rfl hj
    · rw [h] at hj
      rcases hrole with rfl | rfl | ⟨-, rfl⟩
      · exact absurd hj (by simp)
      · exact absurd hj (by simp)
      · simp only [Role.matchIndexOf_leader, Option.ite_none_right_eq_some,
          Option.some.injEq] at hj
        exact Or.inr ⟨hc, hj.2.symm⟩
  | @requestVote k d₁ d₂ call _ _ =>
    rcases (requestVote_spec (c.node v).state call.req d₁ d₂).role_term with ⟨hr, -⟩ | ⟨hr, -, -⟩
    · exact hkeep hr hj
    · rw [hr] at hj
      exact absurd hj (by simp)
  | @sendAppendEntries texts d =>
    rcases sendAppendEntriesAppend_cases (c.node v).state texts d with ⟨-, h, -⟩ | ⟨-, _, h⟩
    · rw [h] at hj
      exact hkeep rfl hj
    · rw [h] at hj
      exact hkeep rfl hj
  | @appendEntries k d₁ d₂ call _ _ =>
    rcases (appendEntries_spec (c.node v).state call.req d₁ d₂).role_term with ⟨hr, -⟩ | ⟨hr, -, -⟩
    · exact hkeep hr hj
    · rw [hr] at hj
      exact absurd hj (by simp)
  | closeRound => exact hkeep rfl hj

end Effect

end Raft
end DistributedPrograms
