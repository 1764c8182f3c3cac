import DistributedPrograms.Raft.Rounds

/-!
# A split brain is for ever

`two_leaders` shows two nodes leading one term.  When it happens to all nodes of a cluster there is
no way back short of a restart.  `open_election` refuses on a node that is not follower, a leader
steps down only for a newer term, and no message on the wire is of one; so all stay leader of the
term.  Each refuses the entries of the others, and with more than one server the `Ok(true)` that a
leader gives itself is no majority: no `send_append_entries` that starts from then on, for a
heartbeat or a `post_log`, ever returns `Ok(true)` (`split_brain_for_ever`).

* `WireTerms`: no request is of a newer term than its sender is in.
* `Stuck T b c`: what has become of the cluster `b`, all of whose nodes lead the term `T`, in a
  later `c`.  The clusters are those of `Cluster.step`, which has no restarts: a node that is
  started again is a follower, and with it the cluster is out of the split brain.
* The runs are those in which no election wraps the term (`NoTermWrap`); a term that wraps to 0
  would be older than that of the leaders.
-/

set_option autoImplicit false

namespace DistributedPrograms
namespace Raft

variable {A : Type} [DecidableEq A] {servers : Finset A} {b c c' : Cluster A} {T : Nat}
  {tr : List (Cluster A)}

open VariableState

/-! ## Terms on the wire

No request is of a later term than the cluster has reached. -/

/-- No request on the wire is of a newer term than its sender is in. -/
structure WireTerms (c : Cluster A) : Prop where
  vote : ∀ call ∈ c.voteCalls, call.req.term ≤ (c.node call.caller).state.currentTerm
  append : ∀ call ∈ c.appendCalls, call.req.term ≤ (c.node call.caller).state.currentTerm

omit [DecidableEq A] in
theorem wireTerms_init : WireTerms (Cluster.init : Cluster A) where
  vote call hcall := by simp [Cluster.init] at hcall
  append call hcall := by simp [Cluster.init] at hcall

theorem WireTerms.step {a : Action A} (hi : WireTerms c) (hW : NoWrap c a)
    (h : c.step servers a = some c') : WireTerms c' where
  vote call hcall := by
    have hle := (step_effect h call.caller).term_le hW
    rcases mem_voteCalls h hcall with hcall | ⟨e, -, -, -, -, -, -, hreq, -⟩
    · exact Nat.le_trans (hi.vote call hcall) hle
    · rw [hreq]
      exact hle
  append call hcall := by
    have hle := (step_effect h call.caller).term_le hW
    rcases mem_appendCalls h hcall with hcall | ⟨rd, -, -, hreq, -⟩
    · exact Nat.le_trans (hi.append call hcall) hle
    · rw [(sendAppendEntriesRequest_term (congrArg Future.sent hreq)).2]
      exact hle

theorem wireTerms {C : List (Cluster A) → Action A → Prop}
    (hW : ∀ tr a, C tr a → NoTermWrap tr a)
    (h : Run (Cluster.step servers) C Cluster.init tr) : ∀ s ∈ tr, WireTerms s :=
  h.forall_mem wireTerms_init fun _ _ _ _ _ hc hi hs => hi.step (hW _ _ hc) hs

/-! ## Where all lead

Every request of the common term is refused, and no later one can come up. -/

/-- Where all nodes lead one term, all still do after the next step. -/
theorem leads_step {a : Action A} (hi : WireTerms c) (hlead : ∀ n, Leads c n T)
    (h : c.step servers a = some c') (n : A) : Leads c' n T := by
  obtain ⟨hl, hterm⟩ := hlead n
  have hstays := (step_effect h n).leader_stays hl
  -- so it is enough that the term is kept
  suffices (c'.node n).state.currentTerm = (c.node n).state.currentTerm from
    ⟨hstays this, this.trans hterm⟩
  -- and no request is newer, since its sender leads the same term
  rcases (step_effect h n).leader_term hl with hkept | ⟨k, _, _, call, -, hk, -, hlt⟩ |
    ⟨k, _, _, call, -, hk, -, hlt⟩
  · exact hkept
  · have hle := hi.vote call (List.mem_of_getElem? hk)
    rw [(hlead call.caller).2, ← hterm] at hle
    omega
  · have hle := hi.append call (List.mem_of_getElem? hk)
    rw [(hlead call.caller).2, ← hterm] at hle
    omega

omit [DecidableEq A] in
/-- A leader refuses entries of its own term and of older ones. -/
theorem not_accepts_of_leads {n : A} {req : AppendEntriesRequest} (h : Leads c n T)
    (hle : req.term ≤ T) : ¬Accepts (c.node n).state req := by
  rintro ⟨-, hnewer | hf, -⟩
  · rw [h.2] at hnewer
    omega
  · have hl := h.1
    rw [hf] at hl
    exact absurd hl (by simp)

/-! ## What has happened since

What has begun before is set apart from what begins afterwards. -/

/-- The round `rd` of `n` has no success but the node's own, and has not returned `Ok(true)`. -/
structure Alone (n : A) (rd : Round A) : Prop where
  peers : ∀ p, p ≠ n → (rd.peers p).succeeded = false
  ret : rd.ret ≠ some true

/-- The cluster `c`, some time after all nodes led `T` in `b`. -/
structure Stuck (T : Nat) (b c : Cluster A) : Prop where
  lead : ∀ n, Leads c n T
  /-- A node appends to its log and takes nothing over. -/
  logs : ∀ n, ∃ texts : List String,
    (c.node n).state.logs = (b.node n).state.logs ++ texts.map fun text => ⟨text, T⟩
  longer : ∀ n, (b.node n).rounds.length ≤ (c.node n).rounds.length
  /-- The rounds of before are there, and those that were over are as they were. -/
  before : ∀ n r rd, r < (b.node n).rounds.length → (c.node n).rounds[r]? = some rd →
    ∃ rd₀, (b.node n).rounds[r]? = some rd₀ ∧ (rd₀.ret ≠ none → rd.ret = rd₀.ret)
  since : ∀ n r rd, (b.node n).rounds.length ≤ r → (c.node n).rounds[r]? = some rd → Alone n rd
  reply : ∀ m ∈ c.appendReplies, (b.node m.1.caller).rounds.length ≤ m.1.round →
    m.2.success = false
  commit : ∀ n, (∀ rd ∈ (b.node n).rounds, rd.ret ≠ none) →
    (c.node n).state.commitIndex = (b.node n).state.commitIndex

omit [DecidableEq A] in
theorem Stuck.refl (hi : RoundInv b) (hlead : ∀ n, Leads b n T) : Stuck T b b where
  lead := hlead
  logs n := ⟨[], by simp⟩
  longer n := Nat.le_refl _
  before n r rd _ hrd := ⟨rd, hrd, fun _ => rfl⟩
  since n r rd hle hrd := absurd (List.getElem?_eq_some_iff.1 hrd).1 (Nat.not_lt.2 hle)
  reply m hm hle := absurd (hi.replyLt m hm) (Nat.not_lt.2 hle)
  commit n _ := rfl

/-- The node's own `Ok(true)` is no majority of several servers. -/
theorem Alone.no_majority {n : A} {rd : Round A} (h : Alone n rd) (hcard : 1 < servers.card) :
    ¬countTrue servers rd.peers * 2 > servers.card := by
  have hsub : (servers.filter fun p => (rd.peers p).succeeded = true) ⊆ {n} := by
    intro p hp
    by_contra hne
    rw [Finset.mem_singleton] at hne
    exact absurd (Finset.mem_filter.1 hp).2 (by simp [h.peers p hne])
  have hle : countTrue servers rd.peers ≤ 1 := Finset.card_le_card hsub
  omega

/-- A future of a leader for a peer does not succeed unless its reply says so. -/
theorem PeerStep.alone {n p : A} {r : Nat} {rd : Round A} {a : Action A}
    {f : Future AppendEntriesRequest} (h : PeerStep c n r rd p a f) (hne : p ≠ n)
    (hl : (c.node n).state.role.isLeader = true) (hold : (rd.peers p).succeeded = false)
    (hreply : ∀ m ∈ c.appendReplies, m.1.caller = n → m.1.round = r → m.2.success = false) :
    f.succeeded = false := by
  cases hf : f.succeeded with
  | false => rfl
  | true =>
    exfalso
    obtain ⟨req, hreq⟩ := Future.succeeded_iff.1 hf
    cases h with
    | keep => rw [hold] at hf; exact absurd hf (by simp)
    | start _ =>
      rcases sendAppendEntriesRequest_done hreq with hpn | hnot
      · exact hne hpn
      · rw [hl] at hnot; exact absurd hnot (by simp)
    | error _ => exact absurd hreq (by simp)
    | @reply k req' call res _ hk hcaller hround _ =>
      simp only [Future.done.injEq, Option.some.injEq] at hreq
      have hno := hreply _ (List.mem_of_getElem? hk) hcaller hround
      rcases sendAppendEntriesReply_true hreq.2 with hyes | hnot
      · rw [hno] at hyes; exact absurd hyes (by simp)
      · rw [hl] at hnot; exact absurd hnot (by simp)

theorem Stuck.step {a : Action A} (hcard : 1 < servers.card) (hi : WireTerms c)
    (hst : Stuck T b c) (h : c.step servers a = some c') : Stuck T b c' := by
  have hlead := leads_step hi hst.lead h
  constructor
  case lead => exact hlead
  case longer => exact fun n => Nat.le_trans (hst.longer n) (rounds_length_le h n)
  case logs =>
    intro n
    obtain ⟨texts, hlogs⟩ := hst.logs n
    rcases (step_effect h n).leader (hlead n).1 with ⟨-, -, more, hmore⟩ |
      ⟨d, e, -, -, -, -, hc, -⟩
    · exact ⟨texts ++ more, by rw [hmore, hlogs, (hst.lead n).2]; simp⟩
    · have hl := (hst.lead n).1
      rw [hc] at hl
      exact absurd hl (by simp)
  case before =>
    intro n r rd' hlt hrd'
    rcases step_rounds h hrd' with ⟨_, _, -, hge, -⟩ | ⟨rd, hrd, hstep⟩
    · have := hst.longer n
      omega
    · obtain ⟨rd₀, hrd₀, hret⟩ := hst.before n r rd hlt hrd
      refine ⟨rd₀, hrd₀, fun hover => ?_⟩
      rcases hstep.ret with heq | ⟨-, hnone, -⟩
      · rw [heq, hret hover]
      · exact absurd (hret hover ▸ hnone) hover
  case since =>
    intro n r rd' hle hrd'
    rcases step_rounds h hrd' with ⟨_, _, -, -, -, -, rfl⟩ | ⟨rd, hrd, hstep⟩
    · exact ⟨fun p _ => rfl, by simp⟩
    · have halone := hst.since n r rd hle hrd
      refine ⟨fun p hne => (hstep.peers p).alone hne (hst.lead n).1 (halone.peers p hne) ?_, ?_⟩
      · intro m hm hcaller hround
        exact hst.reply m hm (by rw [hcaller, hround]; exact hle)
      · rcases hstep.ret with heq | ⟨-, -, -, heq⟩
        · exact heq ▸ halone.ret
        · rw [heq, decide_eq_false (halone.no_majority hcard)]
          simp
  case reply =>
    intro m hm hle
    rcases mem_appendReplies h hm with hm | ⟨k, d₁, d₂, -, hk, hres, -⟩
    · exact hst.reply m hm hle
    · have hterm := hi.append m.1 (List.mem_of_getElem? hk)
      rw [(hst.lead m.1.caller).2] at hterm
      have hno := not_accepts_of_leads (hst.lead m.1.callee) hterm
      exact Bool.eq_false_iff.2 fun hyes => hno ((appendEntries_answer hres).1.1 hyes)
  case commit =>
    intro n hover
    rw [← hst.commit n hover]
    rcases (step_effect h n).commitIndex with heq | ⟨r, rd, rfl, hrd, -, hmaj, -⟩ |
      ⟨k, d₁, d₂, call, -, -, -, hstored⟩
    · exact heq
    · exfalso
      obtain ⟨rd', hrd', hret, -⟩ := step_closeRound h
      cases hrd.symm.trans hrd'
      rcases Nat.lt_or_ge r (b.node n).rounds.length with hlt | hge
      · obtain ⟨rd₀, hrd₀, hkeep⟩ := hst.before n r rd hlt hrd
        have hnone := hover rd₀ (List.mem_of_getElem? hrd₀)
        exact hnone (hkeep hnone ▸ hret)
      · exact (hst.since n r rd hge hrd).no_majority hcard hmaj
    · have hl := (hlead n).1
      rw [hstored.role] at hl
      exact absurd hl (by simp)

/-- **A split brain is for ever.**  Once all nodes of a cluster of several servers lead one term,
they do so at every later moment of a run without restarts and without a term that wraps, whatever
is sent, lost or saved: no node takes over an entry of another, no `send_append_entries` that starts
from then on returns `Ok(true)`, and a node whose earlier calls are over never commits anything
again. -/
theorem split_brain_for_ever {later rest : List (Cluster A)} (hcard : 1 < servers.card)
    (h : Run (Cluster.step servers) NoTermWrap Cluster.init (later ++ b :: rest))
    (hlead : ∀ n, Leads b n T) :
    ∀ c ∈ later, ∀ n, Leads c n T ∧
      (∃ texts : List String,
        (c.node n).state.logs = (b.node n).state.logs ++ texts.map fun text => ⟨text, T⟩) ∧
      (∀ r rd, (b.node n).rounds.length ≤ r → (c.node n).rounds[r]? = some rd →
        rd.ret ≠ some true) ∧
      ((∀ rd ∈ (b.node n).rounds, rd.ret ≠ none) →
        (c.node n).state.commitIndex = (b.node n).state.commitIndex) := by
  have hmoment := h.of_suffix (List.suffix_append later _) (by simp)
  have hst := Stuck.refl (roundInv hmoment b (by simp)) hlead
  have hall := h.forall_later (P := Stuck T b) (fun s tr a s' hrun _ hst hs =>
    hst.step hcard (wireTerms (fun _ _ hc => hc) hrun s (by simp)) hs) hst
  intro c hc n
  have hstuck := hall c (List.mem_append_left _ hc)
  exact ⟨hstuck.lead n, hstuck.logs n, fun r rd hle hrd => (hstuck.since n r rd hle hrd).ret,
    hstuck.commit n⟩

/-- Two nodes that have elected each other: a log posted to the first is refused by the second, its
`post_log` fails, and both go on leading. -/
theorem split_brain_for_ever_two :
    ∃ (c : Cluster (Fin 2)) (later : List (Cluster (Fin 2))) (b : Cluster (Fin 2))
      (rest : List (Cluster (Fin 2))),
      Run (Cluster.step Finset.univ) NoTermWrap Cluster.init ((c :: later) ++ b :: rest) ∧
      (∀ n, Leads b n 1) ∧
      (∃ rd ∈ (c.node 0).rounds, rd.texts = ["a"] ∧ rd.ret = some false) ∧
      ∀ s ∈ c :: later, ∀ n, Leads s n 1 := by
  have hcheck : Run.check (Cluster.step (Finset.univ : Finset (Fin 2)))
      (fun tr a => decide (NoTermWrap tr a)) Cluster.init
      [.openElection 0 .ok, .askVote 0 0, .askVote 0 1, .openElection 1 .ok,
        .requestVote 0 .ok .ok, .voteReply 0, .askVote 1 1, .askVote 1 0,
        .requestVote 0 .ok .ok, .voteReply 0, .countVotes 0 .ok, .countVotes 1 .ok,
        .sendAppendEntries 0 ["a"] .ok, .sendRound 0 0 0, .sendRound 0 0 1,
        .appendEntries 0 .ok .ok, .appendReply 0, .closeRound 0 0]
      (fun tr => decide ((∃ b ∈ tr.tail, ∀ n, Leads b n 1) ∧
        ∀ c ∈ tr.head?, ∃ rd ∈ (c.node 0).rounds, rd.texts = ["a"] ∧ rd.ret = some false)) =
      true := by
    decide +kernel
  obtain ⟨tr, hrun, hp⟩ :=
    Run.exists_of_check (C := NoTermWrap) (fun _ _ hc => of_decide_eq_true hc) hcheck
  obtain ⟨⟨b, hb, hlead⟩, hret⟩ := of_decide_eq_true hp
  cases tr with
  | nil => exact absurd rfl hrun.ne_nil
  | cons c tr =>
    obtain ⟨later, rest, rfl⟩ := List.append_of_mem hb
    refine ⟨c, later, b, rest, hrun, hlead, hret c rfl, fun s hs n => ?_⟩
    exact (split_brain_for_ever (by decide) hrun hlead s hs n).1

end Raft
end DistributedPrograms
