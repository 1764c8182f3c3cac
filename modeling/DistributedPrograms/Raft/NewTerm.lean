import Mathlib.Data.Finset.Lattice.Fold
import DistributedPrograms.Raft.Ballot

/-!
# A term that is newer than all

Whatever elections are on, they can come to an end (`Possible.calm`).  Then a follower can start
elections that nobody hears of until its term is the newest, and one more that all others hear of:
whoever gets the request becomes a follower of its term, a leader or a candidate that no election is
on for included (`Possible.gather`).  From there the server with the longest log can be elected by
everybody (`Possible.win`).

* `Calm` and `Ready` are what the pieces leave: no election is on and the nodes are what they were
  up to how their elections have ended; all servers are followers of one term with no election on.
* `Possible.raise` counts the term of one follower up by elections in which it has no vote but its
  own.  It loses each of them, because there are several servers, and is a follower again.
* `Possible.gather` needs no vote either: a request of a newer term makes whoever gets it a
  follower, also if it then refuses the vote.
* `Possible.win` does need the votes, and gets them because a longest log passes the log test of
  everybody.

No term may wrap on the way, so how far the terms are from the end of the range is a hypothesis.
-/

set_option autoImplicit false

namespace DistributedPrograms
namespace Raft

variable {A : Type} [DecidableEq A] {servers : Finset A} {c c' : Cluster A} {n f : A}
  {s t : VariableState A} {T k : Nat}

open VariableState

/-! ## The end of an election

An election that is on can always be finished: its futures fail, and the count is made. -/

theorem openElectionCount_of_minority (hrole : s.role = .candidate) (h : ¬k * 2 > servers.card) :
    (openElectionCount servers s k .ok).1 = ⟨.follower, some ⟨s.currentTerm, none, s.logs⟩,
      ⟨s.currentTerm, none, s.logs⟩, s.commitIndex⟩ := by
  rw [openElectionCount, Role.isCandidate_iff.2 hrole]
  simp [h, savePersistent]

theorem openElectionCount_of_majority (hrole : s.role = .candidate) (h : k * 2 > servers.card) :
    (openElectionCount servers s k .ok).1 =
      ⟨.leader (fun a => if a ∈ servers then some (s.logs.length - 1) else none)
          (fun a => if a ∈ servers then some 0 else none),
        some ⟨s.currentTerm, none, s.logs⟩, ⟨s.currentTerm, none, s.logs⟩, s.commitIndex⟩ := by
  rw [openElectionCount, Role.isCandidate_iff.2 hrole]
  simp [h, savePersistent]

/-- A follower stays one, and neither term nor log change. -/
structure Kept (s t : VariableState A) : Prop where
  logs : t.logs = s.logs
  term : t.currentTerm = s.currentTerm
  follower : s.role = .follower → t.role = .follower

omit [DecidableEq A] in
theorem Kept.refl (s : VariableState A) : Kept s s := ⟨rfl, rfl, id⟩

omit [DecidableEq A] in
theorem Kept.trans {u : VariableState A} (h : Kept s t) (h' : Kept t u) : Kept s u :=
  ⟨h'.logs.trans h.logs, h'.term.trans h.term, fun hf => h'.follower (h.follower hf)⟩

theorem kept_openElectionCount (servers : Finset A) (s : VariableState A) (k : Nat) :
    Kept s (openElectionCount servers s k .ok).1 := by
  rcases openElectionCount_cases servers s k .ok with ⟨-, h⟩ | ⟨hc, _, _, h, -⟩
  · rw [h]
    exact .refl s
  · rw [h]
    exact ⟨rfl, rfl, fun hf => absurd (hf.symm.trans hc) (by simp)⟩

/-- A future of an election comes to an end. -/
theorem Possible.future {e : Election A} {p : A} {x : Node A} (hx : c.node n = x)
    (he : x.election = some e) (hp : p ∈ servers) : Possible (Cluster.step servers) NoWrap
      (fun c' => ∃ f, f.isDone = true ∧ c'.node =
        Function.update c.node n { x with election := some (e.setVote p f) }) c := by
  cases hf : e.votes p with
  | idle =>
    have hask := do_askVote hx he hp hf
    split at hask
    · exact .one (a := .askVote n p) trivial hask ⟨.done none (some true), rfl, rfl⟩
    · refine .next (a := .askVote n p) trivial hask (.one (a := .voteError n p) trivial
        (do_voteError (Cluster.setNode_self ..) rfl (e.setVote_votes p _))
        ⟨.done (some (openElectionRequest n x.state)) none, rfl, ?_⟩)
      rw [Cluster.setNode, Election.setVote_setVote]
      exact Function.update_idem ..
  | waiting req =>
    exact .one (a := .voteError n p) trivial (do_voteError hx he hf)
      ⟨.done (some req) none, rfl, rfl⟩
  | done req res =>
    have hsame : e.setVote p (.done req res) = e := by
      rw [Election.setVote, ← hf, Function.update_eq_self]
    refine .here ⟨.done req res, rfl, ?_⟩
    rw [hsame, ← he, ← hx, Function.update_eq_self]

/-- A pending election comes to an end. -/
theorem Possible.close (c : Cluster A) (n : A) : Possible (Cluster.step servers) NoWrap
    (fun c' => (c'.node n).election = none ∧ Kept (c.node n).state (c'.node n).state ∧
      ∀ q, q ≠ n → c'.node q = c.node q) c := by
  cases he : (c.node n).election with
  | none => exact .here ⟨he, .refl _, fun q _ => rfl⟩
  | some e =>
    refine (Possible.forall_mem (F := servers) (I := fun S (t : Cluster A) => ∃ e,
      t.node = Function.update c.node n { c.node n with election := some e } ∧
        ∀ p ∈ S, (e.votes p).isDone = true) ?_ ⟨e, ?_, by simp⟩).bind ?_
    · rintro S p t hp - ⟨e, ht, hdone⟩
      have hx : t.node n = { c.node n with election := some e } := by
        rw [ht, Function.update_self]
      refine (Possible.future hx rfl hp).mono ?_
      rintro t' ⟨f, hf, ht'⟩
      refine ⟨e.setVote p f, by rw [ht', ht, Function.update_idem], fun q hq => ?_⟩
      by_cases hqp : q = p
      · rw [hqp, Election.setVote_votes]
        exact hf
      · rw [Election.setVote_votes_of_ne _ hqp]
        exact hdone q ((Finset.mem_insert.1 hq).resolve_left hqp)
    · rw [← he, Function.update_eq_self]
    · rintro t ⟨e, ht, hdone⟩
      have hx : t.node n = { c.node n with election := some e } := by
        rw [ht, Function.update_self]
      refine .one (a := .countVotes n .ok) trivial (do_countVotes hx rfl hdone) ⟨?_, ?_, ?_⟩
      · rw [Cluster.setNode_self]
      · rw [Cluster.setNode_self]
        exact kept_openElectionCount _ _ _
      · intro q hq
        rw [Cluster.setNode_of_ne _ _ hq, ht, Function.update_of_ne hq]

/-- No election is on, and every node is as in `c` up to how its election has ended.  This is where
the way to a new leader starts, because a node in an election has its lock held. -/
structure Calm (servers : Finset A) (c c' : Cluster A) : Prop where
  election : ∀ p ∈ servers, (c'.node p).election = none
  kept : ∀ p, Kept (c.node p).state (c'.node p).state

theorem Possible.calm (c : Cluster A) :
    Possible (Cluster.step servers) NoWrap (Calm servers c) c := by
  refine (Possible.forall_mem (F := servers) (I := fun S (t : Cluster A) =>
    (∀ p ∈ S, (t.node p).election = none) ∧ ∀ p, Kept (c.node p).state (t.node p).state) ?_
      ⟨by simp, fun p => .refl _⟩).mono fun t ht => ⟨ht.1, ht.2⟩
  rintro S p t - - ⟨hnone, hkept⟩
  refine (Possible.close t p).mono ?_
  rintro t' ⟨hp, hkept', hother⟩
  refine ⟨fun q hq => ?_, fun q => ?_⟩
  · by_cases hqp : q = p
    · rw [hqp]
      exact hp
    · rw [hother q hqp]
      exact hnone q ((Finset.mem_insert.1 hq).resolve_left hqp)
  · by_cases hqp : q = p
    · rw [hqp]
      exact (hkept p).trans hkept'
    · rw [hother q hqp]
      exact hkept q

/-! ## A term that is newer than all

A follower can go on opening elections until nobody is ahead of it. -/

section Elections

variable {how : Reach}

/-- An election that no answer comes back to has one vote. -/
theorem Reach.count_le_one (hhow : how ≠ .answered) : how.count servers c n ≤ 1 := by
  have hsub : (servers.filter fun p => (how.votes c.node n
      (openElectionRequest n (candidacy (c.node n).state)) p).succeeded = true) ⊆ {n} := by
    intro p hp
    by_contra hne
    rw [Finset.mem_singleton] at hne
    have hvote := (Finset.mem_filter.1 hp).2
    rw [Reach.votes, if_neg hne, Reach.vote_of_ne hhow] at hvote
    exact absurd hvote (by simp [Future.succeeded])
  exact Finset.card_le_card hsub

theorem Elected.loser (h : Elected servers how n c c') (hhow : how ≠ .answered)
    (hcard : 1 < servers.card) (hrole : (c.node n).state.role = .follower) :
    (c'.node n).state.role = .follower ∧ (c'.node n).state.logs = (c.node n).state.logs ∧
      (c'.node n).state.currentTerm = wrappingSucc (c.node n).state.currentTerm := by
  obtain ⟨hcandidate, hlogs, hterm⟩ := candidacy_spec hrole
  have hone : how.count servers c n ≤ 1 := Reach.count_le_one hhow
  rw [h.state, openElectionCount_of_minority hcandidate (by omega)]
  exact ⟨rfl, hlogs, hterm⟩

/-- Elections that nobody hears of only count the term up. -/
theorem Possible.raise (hcard : 1 < servers.card) (k : Nat) (c : Cluster A)
    (hnone : (c.node f).election = none) (hrole : (c.node f).state.role = .follower)
    (hwrap : (c.node f).state.currentTerm + k < 2 ^ 64) :
    Possible (Cluster.step servers) NoWrap (fun c' => (c'.node f).election = none ∧
      (c'.node f).state.role = .follower ∧ (c'.node f).state.logs = (c.node f).state.logs ∧
      (c'.node f).state.currentTerm = (c.node f).state.currentTerm + k ∧
      ∀ q, q ≠ f → c'.node q = c.node q) c := by
  induction k generalizing c with
  | zero => exact .here ⟨hnone, hrole, rfl, rfl, fun q _ => rfl⟩
  | succ k ih =>
    refine (Possible.election .lost hrole hnone (by omega) (absurd rfl)).bind fun t ht => ?_
    obtain ⟨hrole', hlogs', hterm'⟩ := ht.loser (by decide) hcard hrole
    rw [wrappingSucc_of_lt (by omega)] at hterm'
    refine (ih t ht.election hrole' (by omega)).mono ?_
    rintro t' ⟨hnone₂, hrole₂, hlogs₂, hterm₂, hother⟩
    refine ⟨hnone₂, hrole₂, hlogs₂.trans hlogs', by omega, fun q hq => (hother q hq).trans ?_⟩
    by_cases hqs : q ∈ servers
    · exact ht.peer q hqs hq
    · exact ht.other q hqs hq

/-- A follower of term `T` that no election is on for. -/
structure Ready (T : Nat) (logs : List Log) (x : Node A) : Prop where
  election : x.election = none
  role : x.state.role = .follower
  term : x.state.currentTerm = T
  logs : x.state.logs = logs

theorem requestVote_ready {req : RequestVoteRequest A} (h : s.currentTerm < req.term) :
    (requestVote s req .ok .ok).1.role = .follower ∧
      (requestVote s req .ok .ok).1.currentTerm = req.term ∧
      (requestVote s req .ok .ok).1.logs = s.logs := by
  have hspec := requestVote_spec s req .ok .ok
  have hterm := requestVote_currentTerm s req .ok .ok
  rw [Nat.max_eq_right (Nat.le_of_lt h)] at hterm
  refine ⟨?_, hterm, hspec.logs⟩
  rcases hspec.role_term with ⟨-, hsame⟩ | ⟨hrole, -, -⟩
  · omega
  · exact hrole

/-- **One follower gathers all servers** in a term that is new to all.  It opens elections until its
term is the greatest, and its requests make followers of all who hear them, whether or not they
vote. -/
theorem Possible.gather (hcard : 1 < servers.card) (hf : f ∈ servers)
    (hrole : (c.node f).state.role = .follower)
    (hterm : ∀ p ∈ servers, (c.node p).state.currentTerm + 2 < 2 ^ 64) :
    Possible (Cluster.step servers) NoWrap (fun c' => ∃ T, T + 1 < 2 ^ 64 ∧
      ∀ p ∈ servers, (c.node p).state.currentTerm < T ∧
        Ready T (c.node p).state.logs (c'.node p)) c := by
  set M := servers.sup fun p => (c.node p).state.currentTerm
  have hle : ∀ p ∈ servers, (c.node p).state.currentTerm ≤ M := fun p hp =>
    Finset.le_sup (f := fun p => (c.node p).state.currentTerm) hp
  have hM : M < 2 ^ 64 - 2 := by
    refine (Finset.sup_lt_iff (by decide)).2 fun p hp => ?_
    have := hterm p hp
    omega
  refine (Possible.calm c).bind fun c₁ h₁ => ?_
  have hf₁ := (h₁.kept f).term
  have hf₂ := hle f hf
  refine (Possible.raise hcard (M - (c.node f).state.currentTerm) c₁ (h₁.election f hf)
    ((h₁.kept f).follower hrole) (by omega)).bind ?_
  rintro c₂ ⟨hnone, hrole₂, hlogs₂, hterm₂, hother⟩
  replace hterm₂ : (c₂.node f).state.currentTerm = M := by omega
  obtain ⟨-, -, hnew⟩ := candidacy_spec hrole₂
  rw [hterm₂, wrappingSucc_of_lt (by omega)] at hnew
  refine (Possible.election .heard hrole₂ hnone (by omega) fun _ p hp hne => ?_).mono
    fun c₃ h₃ => ⟨M + 1, by omega, fun p hp => ⟨Nat.lt_succ_of_le (hle p hp), ?_⟩⟩
  · rw [hother p hne, Node.free, h₁.election p hp]
  · by_cases hpf : p = f
    · rw [hpf]
      obtain ⟨hrole₃, hlogs₃, hterm₃⟩ := h₃.loser (by decide) hcard hrole₂
      rw [hterm₂, wrappingSucc_of_lt (by omega)] at hterm₃
      exact ⟨h₃.election, hrole₃, hterm₃, hlogs₃.trans (hlogs₂.trans (h₁.kept f).logs)⟩
    · have hpeer := h₃.peer p hp hpf
      rw [hother p hpf] at hpeer
      have hlt : (c₁.node p).state.currentTerm <
          (openElectionRequest f (candidacy (c₂.node f).state)).term := by
        have hp₁ := (h₁.kept p).term
        have hp₂ := hle p hp
        have hreq : (openElectionRequest f (candidacy (c₂.node f).state)).term = M + 1 := hnew
        omega
      obtain ⟨hrole₃, hterm₃, hlogs₃⟩ := requestVote_ready hlt
      rw [hpeer]
      exact ⟨h₁.election p hp, hrole₃, hterm₃.trans hnew, hlogs₃.trans (h₁.kept p).logs⟩

/-! ## The longest log wins

A server whose log nobody's is newer than gets all the votes. -/

/-- `b` has been elected by all servers, which are followers of its term `T` now.  Its index maps
are those of a leader that knows nothing of its peers yet. -/
structure WonByAll (servers : Finset A) (b : A) (T : Nat) (c c' : Cluster A) : Prop where
  leader : (c'.node b).state.role = .leader
    (fun a => if a ∈ servers then some ((c.node b).state.logs.length - 1) else none)
    (fun a => if a ∈ servers then some 0 else none)
  term : (c'.node b).state.currentTerm = T
  logs : (c'.node b).state.logs = (c.node b).state.logs
  election : (c'.node b).election = none
  peer : ∀ p ∈ servers, p ≠ b → Ready T (c.node p).state.logs (c'.node p)

theorem Possible.win {b : A} (hb : b ∈ servers) (hT : T + 1 < 2 ^ 64)
    (hlen : (c.node b).state.logs.length < 2 ^ 64) (hpos : 0 < (c.node b).state.logs.length)
    (hready : ∀ p ∈ servers, Ready T (c.node p).state.logs (c.node p))
    (hlongest : ∀ p ∈ servers, (c.node p).state.logs.length ≤ (c.node b).state.logs.length) :
    Possible (Cluster.step servers) NoWrap (WonByAll servers b (T + 1) c) c := by
  have hrole := (hready b hb).role
  obtain ⟨hcandidate, hlogs, hterm⟩ := candidacy_spec hrole
  rw [(hready b hb).term, wrappingSucc_of_lt hT] at hterm
  set req := openElectionRequest b (candidacy (c.node b).state) with hreq
  have hnewer : ∀ p ∈ servers, (c.node p).state.currentTerm < req.term := by
    intro p hp
    rw [(hready p hp).term, hreq, openElectionRequest, hterm]
    exact Nat.lt_succ_self T
  have hindex : req.lastLogIndex + 1 = (c.node b).state.logs.length := by
    rw [hreq, openElectionRequest, hlogs]
    exact Nat.sub_add_cancel hpos
  -- nobody has a longer log
  have hgrant : ∀ p ∈ servers, WouldGrant (c.node p).state req := by
    intro p hp
    refine ⟨Nat.le_of_lt (hnewer p hp), logCondition_iff.2 (Or.inr ?_), Or.inl (hnewer p hp)⟩
    rw [wrappingSucc_of_lt (by omega), hindex]
    exact hlongest p hp
  have hall : Reach.answered.count servers c b = servers.card := by
    refine congrArg Finset.card (Finset.filter_true_of_mem fun p hp => ?_)
    rw [Reach.votes]
    split
    · rfl
    · obtain ⟨res, hres⟩ := requestVote_answers (c.node p).state req
      simp only [Reach.vote, ← hreq, hres]
      exact (requestVote_answer hres).2 (hgrant p hp)
  have hcard : 0 < servers.card := Finset.card_pos.2 ⟨b, hb⟩
  refine (Possible.election .answered hrole (hready b hb).election
    (by rw [(hready b hb).term]; exact hT) fun _ p hp _ => ?_).mono fun c' h => ?_
  · rw [Node.free, (hready p hp).election]
  · have hstate := h.state
    rw [hall, openElectionCount_of_majority hcandidate (by omega), hlogs] at hstate
    refine ⟨by rw [hstate], by rw [hstate]; exact hterm, by rw [hstate], h.election,
      fun p hp hpb => ?_⟩
    obtain ⟨hrole', hterm', hlogs'⟩ := requestVote_ready (hnewer p hp)
    rw [h.peer p hp hpb]
    exact ⟨(hready p hp).election, hrole', hterm'.trans hterm, hlogs'⟩

end Elections

end Raft
end DistributedPrograms
