import Mathlib.Data.Fintype.Basic
import DistributedPrograms.Raft.NodeStep

/-!
# A winner has a quorum of its own term

`open_election` releases the lock between its start, each of its requests and the count, and each
request reads the term and the log afresh.  The comments in the source and the report argue in prose
that this does no harm, because whatever changes the term or the log also takes the node out of the
candidate role.  `ElectionInv` is that argument as an invariant, and `winner_has_quorum` its
consequence: who stores `Role::Leader` does so in the term and with the log its election began with,
and a majority of the servers are the node itself or peers that granted a request of exactly that
term while in that term.

* `ElectionInv` ties the futures of an election to the requests and replies on the wire, and a node
  that is still candidate to the term and log on record of its election.
* `Granted` is a grant that is, or was, on the wire, and `granted_of_done` finds one for every
  future that ended with `Ok(true)` and is not the node's own.
* `Answered` traces the grant back to the step at which it was given, and `OpenStep` the election to
  the step at which it was opened, so that the theorem speaks about moments of the run and not about
  records.

Nothing is assumed of the run: saves may fail, terms may wrap, old rounds may still be under way.
-/

set_option autoImplicit false

namespace DistributedPrograms
namespace Raft

variable {A : Type} [DecidableEq A] {servers : Finset A} {c c' : Cluster A}

open VariableState

/-! ## Elections and their requests

The invariant has to speak of the wire as well, because a reply finds its future through the
election it belongs to, and by then another election may be on. -/

/-- A grant of `p` to the request `req` of `n` is, or was, on the wire.  It may be lost, or reach an
election of `n` that is another one by then. -/
def Granted (tr : List (Cluster A)) (p n : A) (req : RequestVoteRequest A) : Prop :=
  ∃ c ∈ tr, ∃ m ∈ c.voteReplies,
    m.1.callee = p ∧ m.1.caller = n ∧ m.1.req = req ∧ m.2.voteGranted = true

omit [DecidableEq A] in
theorem Granted.cons {tr : List (Cluster A)} {p n : A} {req : RequestVoteRequest A}
    (h : Granted tr p n req) (c : Cluster A) : Granted (c :: tr) p n req := by
  obtain ⟨c₀, hc₀, m, hm, h⟩ := h
  exact ⟨c₀, List.mem_cons_of_mem _ hc₀, m, hm, h⟩

/-- The futures of an election and the wire belong together, and a node that is still candidate has
the term and the log its election began with. -/
structure ElectionInv (c : Cluster A) : Prop where
  idLt : ∀ n e, (c.node n).election = some e → e.id < (c.node n).elections
  callLt : ∀ call ∈ c.voteCalls, call.election < (c.node call.caller).elections
  replyLt : ∀ m ∈ c.voteReplies, m.1.election < (c.node m.1.caller).elections
  /-- A request on the wire is the one its future has sent. -/
  callSent : ∀ call ∈ c.voteCalls, ∀ e, (c.node call.caller).election = some e →
    e.id = call.election → (e.votes call.callee).sent = some call.req
  /-- A reply on the wire answers the request its future has sent. -/
  replySent : ∀ m ∈ c.voteReplies, ∀ e, (c.node m.1.caller).election = some e →
    e.id = m.1.election → (e.votes m.1.callee).sent = some m.1.req
  notLeader : ∀ n e, (c.node n).election = some e → (c.node n).state.role.isLeader = false
  candidate : ∀ n e, (c.node n).election = some e → (c.node n).state.role = .candidate →
    (c.node n).state.currentTerm = e.term ∧ (c.node n).state.logs = e.logs
  request : ∀ n e p req, (c.node n).election = some e → (c.node n).state.role = .candidate →
    (e.votes p).sent = some req → req = ⟨e.term, n, e.logs.length - 1, lastLogTerm e.logs⟩

omit [DecidableEq A] in
theorem electionInv_init : ElectionInv (Cluster.init : Cluster A) where
  idLt n e he := by simp [Cluster.init] at he
  callLt call hc := by simp [Cluster.init] at hc
  replyLt m hm := by simp [Cluster.init] at hm
  callSent call hc := by simp [Cluster.init] at hc
  replySent m hm := by simp [Cluster.init] at hm
  notLeader n e he := by simp [Cluster.init] at he
  candidate n e he := by simp [Cluster.init] at he
  request n e p req he := by simp [Cluster.init] at he

/-- The count ends the election. -/
theorem election_countVotes {n : A} {d : Disk A} (h : c.step servers (.countVotes n d) = some c') :
    (c'.node n).election = none := by
  obtain ⟨e, -, -, rfl⟩ := step_countVotes h
  rw [Cluster.setNode_self]

/-- A node that is candidate with an election on was so before, with the same term and log, or has
just opened the election. -/
theorem candidate_step {a : Action A} (h : c.step servers a = some c') {n : A} {e' : Election A}
    (he' : (c'.node n).election = some e') (hrole : (c'.node n).state.role = .candidate) :
    (e'.term = (c'.node n).state.currentTerm ∧ e'.logs = (c'.node n).state.logs ∧
      ∀ p, e'.votes p = .idle) ∨
    ∃ e, (c.node n).election = some e ∧ (c.node n).state.role = .candidate ∧
      (c'.node n).state.currentTerm = (c.node n).state.currentTerm ∧
      (c'.node n).state.logs = (c.node n).state.logs ∧
      e'.term = e.term ∧ e'.logs = e.logs ∧ ∀ p, VoteStep c n e p (e'.votes p) := by
  rcases step_election h he' with ⟨d, -, -, -, rfl⟩ | ⟨e, he, -, hterm, hlogs, hvotes⟩
  · exact Or.inl ⟨rfl, rfl, fun _ => rfl⟩
  · rcases (step_effect h n).candidate hrole with ⟨hr, ht, hl⟩ | ⟨d, rfl, -⟩
    · exact Or.inr ⟨e, he, hr, ht, hl, hterm, hlogs, hvotes⟩
    · rw [(step_openElection h).1] at he
      exact absurd he (by simp)

theorem ElectionInv.step {a : Action A} (hi : ElectionInv c) (h : c.step servers a = some c') :
    ElectionInv c' := by
  -- a call of the running election that was there before still has its future
  have hold : ∀ (n p : A) (i : Nat) (req : RequestVoteRequest A), i < (c.node n).elections →
      (∀ e, (c.node n).election = some e → e.id = i → (e.votes p).sent = some req) →
      ∀ e', (c'.node n).election = some e' → e'.id = i → (e'.votes p).sent = some req := by
    intro n p i req hlt hsent e' he' hid
    rcases step_election h he' with ⟨d, -, -, -, rfl⟩ | ⟨e, he, hid', -, -, hvotes⟩
    · exact absurd hid (Nat.ne_of_gt hlt)
    · exact (hvotes p).sent_mono (hsent e he (hid' ▸ hid))
  constructor
  case idLt =>
    intro n e' he'
    rcases step_election h he' with ⟨d, -, -, hn, rfl⟩ | ⟨e, he, hid, -⟩
    · rw [hn]; exact Nat.lt_succ_self _
    · rw [hid]; exact Nat.lt_of_lt_of_le (hi.idLt n e he) (elections_le h n)
  case callLt =>
    intro call hcall
    refine Nat.lt_of_lt_of_le ?_ (elections_le h call.caller)
    rcases mem_voteCalls h hcall with hcall | ⟨e, -, he, hid, -⟩
    · exact hi.callLt call hcall
    · exact hid ▸ hi.idLt _ e he
  case replyLt =>
    intro m hm
    refine Nat.lt_of_lt_of_le ?_ (elections_le h m.1.caller)
    rcases mem_voteReplies h hm with hm | ⟨k, d₁, d₂, -, hk, -⟩
    · exact hi.replyLt m hm
    · exact hi.callLt m.1 (List.mem_of_getElem? hk)
  case callSent =>
    intro call hcall e' he' hid
    rcases mem_voteCalls h hcall with hcall | ⟨e, -, -, -, -, -, -, -, hnew⟩
    · exact hold _ _ _ _ (hi.callLt call hcall) (hi.callSent call hcall) e' he' hid
    · rw [hnew] at he'
      cases he'
      simp [Election.setVote]
  case replySent =>
    intro m hm e' he' hid
    rcases mem_voteReplies h hm with hm | ⟨k, d₁, d₂, -, hk, -⟩
    · exact hold _ _ _ _ (hi.replyLt m hm) (hi.replySent m hm) e' he' hid
    · have hcall := List.mem_of_getElem? hk
      exact hold _ _ _ _ (hi.callLt m.1 hcall) (hi.callSent m.1 hcall) e' he' hid
  case notLeader =>
    intro n e' he'
    cases hl : (c'.node n).state.role.isLeader with
    | false => rfl
    | true =>
      exfalso
      rcases (step_effect h n).leader hl with ⟨hs, -, -⟩ | ⟨d, e, rfl, -⟩
      · rcases step_election h he' with ⟨d, rfl, hok, -, -⟩ | ⟨e, he, -⟩
        · rcases openElectionStart_cases (c.node n).state d with ⟨-, heq⟩ | ⟨hf, -⟩
          · rw [heq] at hok; exact absurd hok (by simp)
          · rw [hf] at hs; exact absurd hs (by simp)
        · rw [hi.notLeader n e he] at hs; exact absurd hs (by simp)
      · rw [election_countVotes h] at he'; exact absurd he' (by simp)
  case candidate =>
    intro n e' he' hrole
    rcases candidate_step h he' hrole with ⟨ht, hl, -⟩ | ⟨e, he, hr, ht, hl, ht', hl', -⟩
    · exact ⟨ht.symm, hl.symm⟩
    · obtain ⟨h1, h2⟩ := hi.candidate n e he hr
      exact ⟨by rw [ht, h1, ht'], by rw [hl, h2, hl']⟩
  case request =>
    intro n e' p req he' hrole hsent
    rcases candidate_step h he' hrole with ⟨-, -, hidle⟩ | ⟨e, he, hr, -, -, ht', hl', hvotes⟩
    · simp [hidle p] at hsent
    · rw [ht', hl']
      rcases (hvotes p).sent_cases hsent with hs | hs
      · exact hi.request n e p req he hr hs
      · obtain ⟨h1, h2⟩ := hi.candidate n e he hr
        rw [hs, openElectionRequest, h1, h2]

/-! ## Along a run

Grants are collected future by future, from the opening of the election on. -/

section Run

variable {C : List (Cluster A) → Action A → Prop} {tr : List (Cluster A)}

theorem electionInv_run (h : Run (Cluster.step servers) C Cluster.init tr) :
    ∀ c ∈ tr, ElectionInv c :=
  h.forall_mem electionInv_init fun _ _ _ _ _ _ hi hs => hi.step hs

/-- A future that ended with `Ok(true)` belongs to the node itself, or its peer granted the request
it had sent. -/
theorem granted_of_done (h : Run (Cluster.step servers) C Cluster.init (c :: tr)) {n p : A}
    {e : Election A} {req : Option (RequestVoteRequest A)} (he : (c.node n).election = some e)
    (hp : e.votes p = .done req (some true)) :
    p = n ∨ ∃ r, req = some r ∧ Granted (c :: tr) p n r := by
  revert e
  refine Run.head_induction (P := fun c tr => ∀ {e : Election A}, (c.node n).election = some e →
    e.votes p = .done req (some true) → p = n ∨ ∃ r, req = some r ∧ Granted (c :: tr) p n r)
    ?_ ?_ h
  · intro e he
    simp [Cluster.init] at he
  · intro c₀ tr₀ a c₁ hrun _ hs ih e he hp
    rcases step_election hs he with ⟨d, -, -, -, rfl⟩ | ⟨e₀, he₀, -, -, -, hvotes⟩
    · simp at hp
    · have hstep := hvotes p
      rw [hp] at hstep
      generalize hf : Future.done req (some true) = f at hstep
      cases hstep with
      | keep =>
        rcases ih he₀ hf.symm with h | ⟨r, hr, hg⟩
        · exact Or.inl h
        · exact Or.inr ⟨r, hr, hg.cons _⟩
      | self _ hpn => exact Or.inl hpn
      | ask _ _ => simp at hf
      | error _ => simp at hf
      | @reply r call res hw hmem hcaller hid hcallee =>
        simp only [Future.done.injEq, Option.some.injEq] at hf
        refine Or.inr ⟨r, hf.1, c₀, by simp, (call, res), hmem, hcallee, hcaller, ?_, hf.2.symm⟩
        have hsent := (electionInv_run hrun c₀ (by simp)).replySent _ hmem e₀
          (by rw [hcaller]; exact he₀) hid.symm
        rw [show (call, res).1.callee = p from hcallee, hw, Future.sent_waiting] at hsent
        exact (Option.some.inj hsent).symm

/-- In the step from `c` to `c'`, node `p` handles a vote request of `n` of term `T` and answers
`vote_granted = true`, its own term being `T`. -/
def GrantStep (servers : Finset A) (c c' : Cluster A) (p n : A) (T : Nat) : Prop :=
  ∃ k d₁ d₂ call res, c.step servers (.requestVote k d₁ d₂) = some c' ∧
    c.voteCalls[k]? = some call ∧ call.callee = p ∧ call.caller = n ∧ call.req.term = T ∧
    requestVote (c.node p).state call.req d₁ d₂ = ((c'.node p).state, .ok res) ∧
    res.voteGranted = true ∧ (c'.node p).state.currentTerm = T

/-- At some step of the run, `p` answered a vote request of `n` of term `T` with
`vote_granted = true`, its own term being `T`. -/
def Answered (servers : Finset A) (tr : List (Cluster A)) (p n : A) (T : Nat) : Prop :=
  ∃ c c', [c', c] <:+: tr ∧ GrantStep servers c c' p n T

theorem Answered.cons {p n : A} {T : Nat} (h : Answered servers tr p n T) (c : Cluster A) :
    Answered servers (c :: tr) p n T := by
  obtain ⟨c₀, c₁, hin, h⟩ := h
  exact ⟨c₀, c₁, List.infix_cons hin, h⟩

/-- A grant on the wire was answered in the term of its request. -/
theorem answered_of_granted (h : Run (Cluster.step servers) C Cluster.init tr) {p n : A}
    {req : RequestVoteRequest A} (hg : Granted tr p n req) :
    Answered servers tr p n req.term := by
  obtain ⟨c, hc, ⟨call, res⟩, hm, hp, hn, hreq, hgr⟩ := hg
  induction h generalizing c with
  | init =>
    rw [List.mem_singleton] at hc
    subst hc
    simp [Cluster.init] at hm
  | @step c₀ c₁ tr₀ a hrun _ hs ih =>
    rcases List.mem_cons.1 hc with rfl | hc
    · rcases mem_voteReplies hs hm with hm | ⟨k, d₁, d₂, rfl, hk, hres, hstate⟩
      · exact (ih c₀ (by simp) hm).cons _
      · have hspec := requestVote_spec (c₀.node call.callee).state call.req d₁ d₂
        obtain ⟨-, hterm, -, -⟩ := hspec.granted res hres hgr
        subst hp hreq
        refine ⟨c₀, c, ⟨[], tr₀, rfl⟩, k, d₁, d₂, call, res, hs, hk, rfl, hn, rfl, ?_, hgr, ?_⟩
        · rw [hstate, ← hres]
        · rw [hstate, hterm]
    · exact (ih c hc hm).cons _

/-- In the step from `c` to `c'`, the follower `n` opens the election `e`.  What the election is
about is fixed here: its term and the log of the candidate. -/
def OpenStep (servers : Finset A) (c c' : Cluster A) (n : A) (e : Election A) : Prop :=
  ∃ d e₀, c.step servers (.openElection n d) = some c' ∧ (c.node n).state.role = .follower ∧
    (c'.node n).election = some e₀ ∧ e₀.id = e.id ∧
    (c'.node n).state.currentTerm = e.term ∧ (c'.node n).state.logs = e.logs

/-- Every election that is on was opened in the run, with the term and the log on its record. -/
theorem exists_openStep (h : Run (Cluster.step servers) C Cluster.init (c :: tr)) {n : A}
    {e : Election A} (he : (c.node n).election = some e) :
    ∃ c₀ c₁, [c₁, c₀] <:+: c :: tr ∧ OpenStep servers c₀ c₁ n e := by
  revert e
  refine Run.head_induction (P := fun c tr => ∀ {e : Election A}, (c.node n).election = some e →
    ∃ c₀ c₁, [c₁, c₀] <:+: c :: tr ∧ OpenStep servers c₀ c₁ n e) ?_ ?_ h
  · intro e he
    simp [Cluster.init] at he
  · intro c₀ tr₀ a c₁ hrun _ hs ih e he
    rcases step_election hs he with ⟨d, rfl, hok, -, heq⟩ | ⟨e₀, he₀, hid, hterm, hlogs, -⟩
    · refine ⟨c₀, c₁, ⟨[], tr₀, rfl⟩, d, e, hs, ?_, he, rfl, by rw [heq], by rw [heq]⟩
      rcases openElectionStart_cases (c₀.node n).state d with ⟨-, h⟩ | ⟨hf, -⟩
      · rw [h] at hok; exact absurd hok (by simp)
      · exact hf
    · obtain ⟨b₀, b₁, hin, d, e₁, h1, h2, h3, h4, h5, h6⟩ := ih he₀
      exact ⟨b₀, b₁, List.infix_cons hin, d, e₁, h1, h2, h3, hid ▸ h4, hterm ▸ h5, hlogs ▸ h6⟩

end Run

/-- A candidate whose election has a majority has the term and the log the election began with, and
the majority are the node itself or peers that granted the request with this term and log. -/
theorem winner_granted {C : List (Cluster A) → Action A → Prop} {tr : List (Cluster A)} {n : A}
    {e : Election A} (h : Run (Cluster.step servers) C Cluster.init (c :: tr))
    (he : (c.node n).election = some e) (hrole : (c.node n).state.role = .candidate)
    (hmaj : countTrue servers e.votes * 2 > servers.card) :
    (c.node n).state.currentTerm = e.term ∧ (c.node n).state.logs = e.logs ∧
    ∃ Q ⊆ servers, Q.card * 2 > servers.card ∧
      ∀ p ∈ Q, p = n ∨
        Granted (c :: tr) p n ⟨e.term, n, e.logs.length - 1, lastLogTerm e.logs⟩ := by
  have hi := electionInv_run h c (by simp)
  obtain ⟨ht, hl⟩ := hi.candidate n e he hrole
  refine ⟨ht, hl, servers.filter fun p => (e.votes p).succeeded = true, Finset.filter_subset _ _,
    hmaj, ?_⟩
  intro p hp
  obtain ⟨req, hreq⟩ := Future.succeeded_iff.1 (Finset.mem_filter.1 hp).2
  rcases granted_of_done h he hreq with hpn | ⟨r, rfl, hg⟩
  · exact Or.inl hpn
  · have hr := hi.request n e p r he hrole (by rw [hreq, Future.sent_done])
    exact Or.inr (hr ▸ hg)

/-- **A winner has a quorum of its own term.**  When the election `e` of `n` ends with `n` as
leader, the election was opened in term `e.term` with the log `e.logs`; the node's term and log are
still these; and strictly more than half of the servers are the node itself or peers that answered
`vote_granted = true` to a request of exactly this term while their own term was this term. -/
theorem winner_has_quorum {tr : List (Cluster A)} {n : A} {d : Disk A} {e : Election A}
    (h : Run (Cluster.step servers) (fun _ _ => True) Cluster.init (c :: tr))
    (he : (c.node n).election = some e) (hs : c.step servers (.countVotes n d) = some c')
    (hwin : (c'.node n).state.role.isLeader = true) :
    (∃ c₀ c₁, [c₁, c₀] <:+: c :: tr ∧ OpenStep servers c₀ c₁ n e) ∧
    (c'.node n).state.currentTerm = e.term ∧ (c'.node n).state.logs = e.logs ∧
    ∃ Q ⊆ servers, Q.card * 2 > servers.card ∧
      ∀ p ∈ Q, p = n ∨ Answered servers (c :: tr) p n e.term := by
  have hi := electionInv_run h c (by simp)
  rcases (step_effect hs n).leader hwin with ⟨hl, -⟩ |
    ⟨d', e', -, he', -, hmaj, hrole, hterm, hlogs⟩
  · rw [hi.notLeader n e he] at hl
    exact absurd hl (by simp)
  · cases he.symm.trans he'
    obtain ⟨ht, hl, Q, hQ, hcard, hgranted⟩ := winner_granted h he hrole hmaj
    refine ⟨exists_openStep h he, hterm.trans ht, hlogs.trans hl, Q, hQ, hcard, fun p hp => ?_⟩
    rcases hgranted p hp with hpn | hg
    · exact Or.inl hpn
    · exact Or.inr (answered_of_granted h hg)

/-- Node 0 of three wins its first election with the vote of node 1. -/
theorem winner_has_quorum_three :
    ∃ (c c' : Cluster (Fin 3)) (e : Election (Fin 3)) (tr : List (Cluster (Fin 3))),
      c.step Finset.univ (.countVotes 0 .ok) = some c' ∧
      (c'.node 0).state.role.isLeader = true ∧ (c'.node 0).state.currentTerm = e.term ∧
      ∃ Q ⊆ Finset.univ, Q.card * 2 > (Finset.univ : Finset (Fin 3)).card ∧
        ∀ p ∈ Q, p = 0 ∨ Answered Finset.univ (c :: tr) p 0 e.term := by
  have hcheck : Run.checkStep (Cluster.step (Finset.univ : Finset (Fin 3))) (fun _ _ => true)
      Cluster.init [.openElection 0 .ok, .askVote 0 0, .askVote 0 1, .requestVote 0 .ok .ok,
        .voteReply 0, .askVote 0 2, .voteError 0 2] (.countVotes 0 .ok) (fun c' c _ =>
      (c.node 0).election.isSome && (c'.node 0).state.role.isLeader) = true := by
    decide +kernel
  obtain ⟨c', c, tr, hrun, hs, hp⟩ :=
    Run.exists_of_checkStep (C := fun _ _ => True) (fun _ _ _ => trivial) hcheck
  rw [Bool.and_eq_true, Option.isSome_iff_exists] at hp
  obtain ⟨⟨e, he⟩, hwin⟩ := hp
  obtain ⟨-, hterm, -, hQ⟩ :=
    winner_has_quorum (hrun.of_suffix (List.suffix_cons c' _) (by simp)) he hs hwin
  exact ⟨c, c', e, tr, hs, hwin, hterm, hQ⟩

end Raft
end DistributedPrograms
