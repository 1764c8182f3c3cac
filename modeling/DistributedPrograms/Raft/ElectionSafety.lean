import Mathlib.Data.Finset.Card
import Mathlib.Data.Fintype.Basic
import DistributedPrograms.Raft.Winner

/-!
# At most one leader of a term

Raft has one leader in a term because a server votes once in it.  The code does not keep to this:
`open_election` clears `voted_for` instead of recording the candidate's vote for itself, and clears
it again when it wins or loses, so a candidate, a leader or a candidate that has lost gives its vote
a second time (`two_leaders`).  `VoteOnce` asks of a step that this does not happen, and
`election_safety` is what then follows, for any two moments of a run.

The argument is the usual one, and each of its parts is a lemma that later modules use as well:

* a vote is given in the term of the voter, and the term of a node never goes down (`granted_le`,
  `term_mono`);
* `Voted` counts the vote that a candidate gives itself along with those it grants, and under
  `VoteOnce` a server so has one vote in a term (`voted_unique`);
* a leader has won an election with the votes of a majority (`exists_win`, `leads_quorum`), and two
  majorities have a server in common (`leads_unique`).

The conditions are on the step and the history before it, and no step is asked whether somebody else
leads already.  `NoTermWrap` is needed as well: behind the largest term comes 0, and then everything
begins again.

`leads_unique` is stated for any condition that implies the two, so the results on logs, which need
more, have it too.
-/

set_option autoImplicit false

namespace DistributedPrograms
namespace Raft

variable {A : Type} [DecidableEq A] {servers : Finset A} {c c' : Cluster A}
  {tr : List (Cluster A)}

open VariableState

/-- Node `n` is leader of term `T`. -/
def Leads (c : Cluster A) (n : A) (T : Nat) : Prop :=
  (c.node n).state.role.isLeader = true ∧ (c.node n).state.currentTerm = T

instance (c : Cluster A) (n : A) (T : Nat) : Decidable (Leads c n T) := by
  unfold Leads; infer_instance

/-- No two nodes are leader of one term, at whatever moments.  The two need not lead at the same
time. -/
def ElectionSafe (tr : List (Cluster A)) : Prop :=
  ∀ s ∈ tr, ∀ s' ∈ tr, ∀ n m T, Leads s n T → Leads s' m T → n = m

/-- Server `v` has stood for election, or has led, in term `T`.  Its own candidacy is its vote of
that term, though the code does not record it. -/
def Stood (tr : List (Cluster A)) (v : A) (T : Nat) : Prop :=
  ∃ s ∈ tr, (s.node v).state.role.isFollower = false ∧ (s.node v).state.currentTerm = T

/-- Server `v` has given its vote of term `T` to `n`: it has granted it, or it is `n` and has stood
for election itself. -/
def Voted (tr : List (Cluster A)) (v : A) (T : Nat) (n : A) : Prop :=
  (∃ req, Granted tr v n req ∧ req.term = T) ∨ (n = v ∧ Stood tr v T)

instance (tr : List (Cluster A)) (v : A) (T : Nat) : Decidable (Stood tr v T) := by
  unfold Stood; infer_instance

instance (tr : List (Cluster A)) (v : A) (T : Nat) (n : A) : Decidable (Voted tr v T n) :=
  decidable_of_iff ((∃ s ∈ tr, ∃ m ∈ s.voteReplies, m.1.callee = v ∧ m.1.caller = n ∧
      m.1.req.term = T ∧ m.2.voteGranted = true) ∨ (n = v ∧ Stood tr v T)) <| by
    refine or_congr ⟨?_, ?_⟩ Iff.rfl
    · rintro ⟨s, hs, m, hm, h1, h2, h3, h4⟩
      exact ⟨m.1.req, ⟨s, hs, m, hm, h1, h2, rfl, h4⟩, h3⟩
    · rintro ⟨req, ⟨s, hs, m, hm, h1, h2, h3, h4⟩, hT⟩
      exact ⟨s, hs, m, hm, h1, h2, by rw [h3, hT], h4⟩

/-! ## Conditions on a step

The first is about the arithmetic of terms, the second about votes.  Both are on what a step is
about to do in the state before it. -/

/-- No election takes a term past the largest 64-bit number. -/
def NoTermWrap : List (Cluster A) → Action A → Prop
  | c :: _, a => NoWrap c a
  | [], _ => True

/-- No server gives its vote of a term to a second candidate.  That it has stood for election itself
counts as a vote for itself; `voted_for` alone does not ensure this. -/
def VoteOnce (tr : List (Cluster A)) : Action A → Prop
  | .requestVote k _ _ => ∀ c ∈ tr.head?, ∀ call ∈ c.voteCalls[k]?,
      WouldGrant (c.node call.callee).state call.req →
        ∀ n, Voted tr call.callee call.req.term n → n = call.caller
  | _ => True

instance (tr : List (Cluster A)) (a : Action A) : Decidable (NoTermWrap tr a) := by
  rcases tr <;> dsimp only [NoTermWrap] <;> infer_instance

instance [Fintype A] (tr : List (Cluster A)) (a : Action A) : Decidable (VoteOnce tr a) := by
  rcases a <;> dsimp only [VoteOnce] <;> infer_instance

/-! ## Terms along a run

They do not fall, so what is of an old term is past. -/

section Run

variable {C : List (Cluster A) → Action A → Prop}

/-- The term of a node never goes down. -/
theorem term_mono (hW : ∀ tr a, C tr a → NoTermWrap tr a)
    (h : Run (Cluster.step servers) C Cluster.init (c :: tr)) (v : A) :
    ∀ s ∈ c :: tr, (s.node v).state.currentTerm ≤ (c.node v).state.currentTerm := by
  refine Run.head_induction (P := fun c tr => ∀ s ∈ c :: tr,
    (s.node v).state.currentTerm ≤ (c.node v).state.currentTerm) ?_ ?_ h
  · intro s hs
    rw [List.mem_singleton.1 hs]
  · intro c tr a c' _ hc hs ih s hmem
    have hle := (step_effect hs v).term_le (hW _ _ hc)
    rcases List.mem_cons.1 hmem with rfl | hmem
    · exact Nat.le_refl _
    · exact Nat.le_trans (ih s hmem) hle

/-- A vote is given in the term of the voter. -/
theorem granted_le (hW : ∀ tr a, C tr a → NoTermWrap tr a)
    (h : Run (Cluster.step servers) C Cluster.init (c :: tr)) {v n : A}
    {req : RequestVoteRequest A} (hg : Granted (c :: tr) v n req) :
    req.term ≤ (c.node v).state.currentTerm := by
  obtain ⟨c₀, c₁, hin, k, d₁, d₂, call, res, -, -, -, -, -, -, -, hterm⟩ :=
    answered_of_granted h hg
  rw [← hterm]
  exact term_mono hW h v c₁ (hin.subset (by simp))

theorem voted_le (hW : ∀ tr a, C tr a → NoTermWrap tr a)
    (h : Run (Cluster.step servers) C Cluster.init (c :: tr)) {v n : A} {T : Nat}
    (hv : Voted (c :: tr) v T n) : T ≤ (c.node v).state.currentTerm := by
  rcases hv with ⟨req, hg, rfl⟩ | ⟨-, s, hs, -, rfl⟩
  · exact granted_le hW h hg
  · exact term_mono hW h v s hs

/-! ## One vote, one leader

`Voted` is a statement about the history, because a candidate's vote for itself is on record
nowhere. -/

omit [DecidableEq A] in
theorem Granted.of_cons {v n : A} {req : RequestVoteRequest A} (h : Granted (c' :: tr) v n req) :
    Granted tr v n req ∨ ∃ m ∈ c'.voteReplies,
      m.1.callee = v ∧ m.1.caller = n ∧ m.1.req = req ∧ m.2.voteGranted = true := by
  obtain ⟨s, hs, h⟩ := h
  rcases List.mem_cons.1 hs with rfl | hs
  · exact Or.inr h
  · exact Or.inl ⟨s, hs, h⟩

omit [DecidableEq A] in
theorem Stood.cons {v : A} {T : Nat} (h : Stood tr v T) (c : Cluster A) : Stood (c :: tr) v T := by
  obtain ⟨s, hs, h⟩ := h
  exact ⟨s, List.mem_cons_of_mem _ hs, h⟩

omit [DecidableEq A] in
theorem Voted.cons {v n : A} {T : Nat} (h : Voted tr v T n) (c : Cluster A) :
    Voted (c :: tr) v T n := by
  rcases h with ⟨req, hg, hT⟩ | ⟨hn, hs⟩
  · exact Or.inl ⟨req, hg.cons c, hT⟩
  · exact Or.inr ⟨hn, hs.cons c⟩

/-- A vote that a step adds: the vote of a request it handles, or that of a node that has just
become candidate for itself, in a term the node was not in before. -/
theorem Voted.of_step {a : Action A} (hW : NoWrap c a)
    (hs : c.step servers a = some c') {v n : A} {T : Nat} (h : Voted (c' :: c :: tr) v T n) :
    Voted (c :: tr) v T n ∨
    (∃ k d₁ d₂ call, a = .requestVote k d₁ d₂ ∧ c.voteCalls[k]? = some call ∧ call.callee = v ∧
      call.caller = n ∧ call.req.term = T ∧ WouldGrant (c.node v).state call.req) ∨
    (n = v ∧ (c.node v).state.currentTerm < T ∧ ∃ d, a = .openElection v d) := by
  rcases h with ⟨req, hg, rfl⟩ | ⟨rfl, s, hmem, hrole, rfl⟩
  · rcases hg.of_cons with hg | ⟨⟨call, res⟩, hm, rfl, rfl, rfl, hgr⟩
    · exact Or.inl (Or.inl ⟨req, hg, rfl⟩)
    rcases mem_voteReplies hs hm with hm | ⟨k, d₁, d₂, rfl, hk, hres, -⟩
    · exact Or.inl (Or.inl ⟨call.req, ⟨c, by simp, _, hm, rfl, rfl, rfl, hgr⟩, rfl⟩)
    · have hspec := requestVote_spec (c.node call.callee).state call.req d₁ d₂
      exact Or.inr (Or.inl ⟨k, d₁, d₂, call, rfl, hk, rfl, rfl, rfl,
        (hspec.granted res hres hgr).1⟩)
  · rcases List.mem_cons.1 hmem with rfl | hmem
    · have hne : (s.node n).state.role ≠ .follower := by
        intro hf
        rw [hf] at hrole
        exact absurd hrole (by simp [Role.isFollower])
      rcases (step_effect hs n).active hne with ⟨hr, hterm⟩ | ⟨d, rfl, -, -, hterm⟩
      · refine Or.inl (Or.inr ⟨rfl, c, by simp, ?_, hterm.symm⟩)
        cases hf : (c.node n).state.role.isFollower with
        | false => rfl
        | true => exact absurd (Role.isFollower_iff.1 hf) hr
      · rw [wrappingSucc_of_lt hW] at hterm
        exact Or.inr (Or.inr ⟨rfl, by omega, d, rfl⟩)
    · exact Or.inl (Or.inr ⟨rfl, s, hmem, hrole, rfl⟩)

/-- Under `VoteOnce`, counting the candidacies too, a server gives one vote in a term. -/
theorem voted_unique (hW : ∀ tr a, C tr a → NoTermWrap tr a)
    (hV : ∀ tr a, C tr a → VoteOnce tr a)
    (h : Run (Cluster.step servers) C Cluster.init tr) {v : A} {T : Nat} :
    ∀ n m, Voted tr v T n → Voted tr v T m → n = m := by
  induction h with
  | init =>
    have hnone : ∀ n, ¬Voted [(Cluster.init : Cluster A)] v T n := by
      rintro n (⟨req, ⟨s, hs, m, hm, -⟩, -⟩ | ⟨-, s, hs, hrole, -⟩)
      all_goals
        rw [List.mem_singleton] at hs
        subst hs
      · simp [Cluster.init] at hm
      · simp [Cluster.init, VariableState.init, Role.isFollower] at hrole
    intro n m hn
    exact absurd hn (hnone n)
  | @step c c' tr a hrun hc hs ih =>
    -- a vote that the step adds agrees with every vote from before
    have hnew : ∀ n m, Voted (c :: tr) v T m →
        (∃ k d₁ d₂ call, a = .requestVote k d₁ d₂ ∧ c.voteCalls[k]? = some call ∧
          call.callee = v ∧ call.caller = n ∧ call.req.term = T ∧
          WouldGrant (c.node v).state call.req) ∨
        (n = v ∧ (c.node v).state.currentTerm < T ∧ ∃ d, a = .openElection v d) → m = n := by
      rintro n m hm (⟨k, d₁, d₂, call, rfl, hk, rfl, rfl, rfl, hw⟩ | ⟨-, hlt, -⟩)
      · exact hV _ _ hc c (by simp) call (by simp [hk]) hw m hm
      · exact absurd (voted_le hW hrun hm) (Nat.not_le.2 hlt)
    intro n m hn hm
    rcases hn.of_step (hW _ _ hc) hs with hn | hn
    · rcases hm.of_step (hW _ _ hc) hs with hm | hm
      · exact ih n m hn hm
      · exact hnew m n hn hm
    · rcases hm.of_step (hW _ _ hc) hs with hm | hm
      · exact (hnew n m hm hn).symm
      · rcases hn with ⟨k, d₁, d₂, call, rfl, hk, -, rfl, -⟩ | ⟨rfl, -, d, rfl⟩
        · rcases hm with ⟨k', _, _, call', heq, hk', -, rfl, -⟩ | ⟨-, -, d, heq⟩
          · cases heq
            cases hk.symm.trans hk'
            rfl
          · exact absurd heq (by simp)
        · rcases hm with ⟨k', _, _, call', heq, -⟩ | ⟨rfl, -⟩
          · exact absurd heq (by simp)
          · rfl

/-- A leader has won an election: it was candidate of the term, with a majority and with the log it
began to lead with. -/
theorem exists_win (h : Run (Cluster.step servers) C Cluster.init (c :: tr)) {n : A} {T : Nat} :
    Leads c n T → ∃ w' w tr₀ e, (w' :: w :: tr₀) <:+ c :: tr ∧ Leads w' n T ∧
      (w'.node n).state.logs = (w.node n).state.logs ∧ (w.node n).state.currentTerm = T ∧
      (w.node n).state.role = .candidate ∧ (w.node n).election = some e ∧
      countTrue servers e.votes * 2 > servers.card := by
  refine Run.head_induction (P := fun c tr => Leads c n T → ∃ w' w tr₀ e,
    (w' :: w :: tr₀) <:+ c :: tr ∧ Leads w' n T ∧
      (w'.node n).state.logs = (w.node n).state.logs ∧ (w.node n).state.currentTerm = T ∧
      (w.node n).state.role = .candidate ∧ (w.node n).election = some e ∧
      countTrue servers e.votes * 2 > servers.card) ?_ ?_ h
  · intro hl
    exact absurd hl.1 (by simp [Cluster.init, VariableState.init])
  · intro c tr a c' hrun _ hs ih hl
    rcases (step_effect hs n).leader hl.1 with ⟨hr, hterm, -⟩ |
      ⟨d, e, rfl, he, -, hmaj, hrole, hterm, hlogs⟩
    · obtain ⟨w', w, tr₀, e, hsuf, hwin⟩ := ih ⟨hr, hterm ▸ hl.2⟩
      exact ⟨w', w, tr₀, e, hsuf.trans (List.suffix_cons _ _), hwin⟩
    · exact ⟨c', c, tr, e, List.suffix_rfl, hl, hlogs, by rw [← hterm, hl.2], hrole, he, hmaj⟩

omit [DecidableEq A] in
theorem Granted.mono {tr' : List (Cluster A)} {v n : A} {req : RequestVoteRequest A}
    (h : Granted tr v n req) (hsub : tr ⊆ tr') : Granted tr' v n req := by
  obtain ⟨s, hs, h⟩ := h
  exact ⟨s, hsub hs, h⟩

/-- A leader has the votes of a majority. -/
theorem leads_quorum (h : Run (Cluster.step servers) C Cluster.init tr) {n : A} {T : Nat}
    {s : Cluster A} (hs : s ∈ tr) (hl : Leads s n T) :
    ∃ Q ⊆ servers, Q.card * 2 > servers.card ∧ ∀ p ∈ Q, Voted tr p T n := by
  obtain ⟨tr₁, hsuf₁, hrun₁⟩ := h.exists_suffix_of_mem hs
  obtain ⟨w', w, tr₀, e, hsuf, hl', -, hterm, hrole, he, hmaj⟩ := exists_win hrun₁ hl
  have hsub : w' :: w :: tr₀ ⊆ tr := (hsuf.trans hsuf₁).subset
  have hrun := hrun₁.of_suffix ((List.suffix_cons w' _).trans hsuf) (by simp)
  obtain ⟨hT, -, Q, hQ, hcard, hg⟩ := winner_granted hrun he hrole hmaj
  refine ⟨Q, hQ, hcard, fun p hp => ?_⟩
  rcases hg p hp with rfl | hg
  · refine Or.inr ⟨rfl, w, hsub (by simp), ?_, hterm⟩
    rw [hrole, Role.isFollower_candidate]
  · exact Or.inl ⟨_, hg.mono fun x hx => hsub (List.mem_cons_of_mem _ hx), hT.symm.trans hterm⟩

end Run

/-- Under `VoteOnce` there is one leader of a term, for the conditions of other results too. -/
theorem leads_unique {C : List (Cluster A) → Action A → Prop}
    (hW : ∀ tr a, C tr a → NoTermWrap tr a) (hV : ∀ tr a, C tr a → VoteOnce tr a)
    (h : Run (Cluster.step servers) C Cluster.init tr) {s s' : Cluster A} (hs : s ∈ tr)
    (hs' : s' ∈ tr) {n m : A} {T : Nat} (hn : Leads s n T) (hm : Leads s' m T) : n = m := by
  obtain ⟨Q₁, hQ₁, hcard₁, hv₁⟩ := leads_quorum h hs hn
  obtain ⟨Q₂, hQ₂, hcard₂, hv₂⟩ := leads_quorum h hs' hm
  obtain ⟨p, hp⟩ := Finset.inter_nonempty_of_card_lt_card_add_card hQ₁ hQ₂ (by omega)
  rw [Finset.mem_inter] at hp
  exact voted_unique hW hV h n m (hv₁ p hp.1) (hv₂ p hp.2)

/-- **Election safety.**  As long as no server gives its vote of a term to a second candidate, no
two nodes are ever leader of one term. -/
theorem election_safety
    (h : Run (Cluster.step servers) (fun tr a => NoTermWrap tr a ∧ VoteOnce tr a)
      Cluster.init tr) : ElectionSafe tr :=
  fun _ hs _ hs' _ _ _ hn hm =>
    leads_unique (fun _ _ hc => hc.1) (fun _ _ hc => hc.2) h hs hs' hn hm

/-- A run of three nodes within the conditions: node 0 is elected, later node 1 in a newer term,
with the vote of node 2 both times. -/
theorem election_safety_three :
    ∃ tr : List (Cluster (Fin 3)), ElectionSafe tr ∧
      (∃ s ∈ tr, Leads s 0 1) ∧ ∃ s ∈ tr, Leads s 1 2 := by
  have hcheck : Run.check (Cluster.step (Finset.univ : Finset (Fin 3)))
      (fun tr a => decide (NoTermWrap tr a ∧ VoteOnce tr a)) Cluster.init
      [.openElection 0 .ok, .askVote 0 0, .askVote 0 2, .requestVote 0 .ok .ok, .voteReply 0,
        .askVote 0 1, .requestVote 0 .ok .ok, .voteError 0 1, .countVotes 0 .ok,
        .openElection 1 .ok, .askVote 1 1, .askVote 1 2, .requestVote 0 .ok .ok, .voteReply 0,
        .askVote 1 0, .voteError 1 0, .countVotes 1 .ok]
      (fun tr => decide ((∃ s ∈ tr, Leads s 0 1) ∧ ∃ s ∈ tr, Leads s 1 2)) = true := by
    decide +kernel
  obtain ⟨tr, hrun, hp⟩ :=
    Run.exists_of_check (fun _ _ hc => of_decide_eq_true hc) hcheck
  exact ⟨tr, election_safety hrun, of_decide_eq_true hp⟩

/-- **Two leaders of one term.**  Two candidates of one term give each other their vote, on top of
the one each counts for itself, and both become leader. -/
theorem two_leaders :
    ∃ tr : List (Cluster (Fin 2)), Run (Cluster.step Finset.univ) (fun _ _ => True)
      Cluster.init tr ∧ ¬ElectionSafe tr := by
  have hcheck : Run.check (Cluster.step (Finset.univ : Finset (Fin 2))) (fun _ _ => true)
      Cluster.init
      -- each request is handled when the read locks of its candidate are free
      [.openElection 0 .ok, .askVote 0 0, .askVote 0 1, .openElection 1 .ok,
        .requestVote 0 .ok .ok, .voteReply 0, .askVote 1 1, .askVote 1 0,
        .requestVote 0 .ok .ok, .voteReply 0, .countVotes 0 .ok, .countVotes 1 .ok]
      (fun tr => decide (∃ s ∈ tr, Leads s 0 1 ∧ Leads s 1 1)) = true := by decide +kernel
  obtain ⟨tr, hrun, hp⟩ := Run.exists_of_check (C := fun _ _ => True) (fun _ _ _ => trivial) hcheck
  obtain ⟨s, hs, h0, h1⟩ := of_decide_eq_true hp
  refine ⟨tr, hrun, fun hsafe => ?_⟩
  have heq := hsafe s hs s hs 0 1 1 h0 h1
  exact absurd heq (by decide)

end Raft
end DistributedPrograms
