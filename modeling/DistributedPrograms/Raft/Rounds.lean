import DistributedPrograms.Raft.LogMatching

/-!
# Rounds and acknowledgements

What the futures of a `send_append_entries` call can be relied on for.  A reply on the wire belongs
to the request its future has sent (`RoundInv`); a round was started by the leader of its term
(`roundLed`); and a successful reply means that the peer has had exactly the log its request was cut
out of (`Held`, `held_of_reply`).

A future can end with `Ok(true)` without such a reply: when its node is not leader (any more) it
does not ask, or does not look at the answer.  `acked` says what is known of every future that ended
with `Ok(true)`, up to an excuse `X` for these cases.  Its users choose `X` and show that the excuse
does not apply:

* the commit rule takes "the node has left the term of the round", and its condition is that the
  count is made during the leadership;
* acknowledged entries take no excuse at all, and their conditions exclude each of the two cases
  where a future comes to its answer by itself.

`Covers` is the other half.  The texts of a round stand in the log from `base` on, and a request
covers them if its last entry is not before the last of them.  Who has had exactly the log that the
request was cut out of so has had the texts.
-/

set_option autoImplicit false

namespace DistributedPrograms
namespace Raft

variable {A : Type} [DecidableEq A] {servers : Finset A} {c c' : Cluster A}
  {tr : List (Cluster A)}

open VariableState

/-! ## Futures and the wire

A future remembers the request it has sent, and the wire remembers which future a call or a reply
belongs to.  The invariant says that the two agree. -/

/-- The futures of the rounds and the wire belong together. -/
structure RoundInv (c : Cluster A) : Prop where
  callLt : ∀ call ∈ c.appendCalls, call.round < (c.node call.caller).rounds.length
  replyLt : ∀ m ∈ c.appendReplies, m.1.round < (c.node m.1.caller).rounds.length
  /-- A request on the wire is the one its future has sent. -/
  callSent : ∀ call ∈ c.appendCalls, ∀ rd, (c.node call.caller).rounds[call.round]? = some rd →
    (rd.peers call.callee).sent = some call.req
  /-- A reply on the wire answers the request its future has sent. -/
  replySent : ∀ m ∈ c.appendReplies, ∀ rd, (c.node m.1.caller).rounds[m.1.round]? = some rd →
    (rd.peers m.1.callee).sent = some m.1.req

omit [DecidableEq A] in
theorem roundInv_init : RoundInv (Cluster.init : Cluster A) where
  callLt call hc := by simp [Cluster.init] at hc
  replyLt m hm := by simp [Cluster.init] at hm
  callSent call hc := by simp [Cluster.init] at hc
  replySent m hm := by simp [Cluster.init] at hm

theorem RoundInv.step {a : Action A} (hi : RoundInv c) (h : c.step servers a = some c') :
    RoundInv c' := by
  -- what a future of an old round has sent, it has still sent
  have hold : ∀ (n p : A) (r : Nat) (req : AppendEntriesRequest),
      r < (c.node n).rounds.length →
      (∀ rd, (c.node n).rounds[r]? = some rd → (rd.peers p).sent = some req) →
      ∀ rd', (c'.node n).rounds[r]? = some rd' → (rd'.peers p).sent = some req := by
    intro n p r req hlt hsent rd' hrd'
    rcases step_rounds h hrd' with ⟨_, _, -, hge, -⟩ | ⟨rd, hrd, hstep⟩
    · omega
    · exact (hstep.peers p).sent_mono (hsent rd hrd)
  constructor
  case callLt =>
    intro call hcall
    rcases mem_appendCalls h hcall with hcall | ⟨rd, -, -, -, hrd⟩
    · exact Nat.lt_of_lt_of_le (hi.callLt call hcall) (rounds_length_le h call.caller)
    · exact (List.getElem?_eq_some_iff.1 hrd).1
  case replyLt =>
    intro m hm
    refine Nat.lt_of_lt_of_le ?_ (rounds_length_le h m.1.caller)
    rcases mem_appendReplies h hm with hm | ⟨k, d₁, d₂, -, hk, -⟩
    · exact hi.replyLt m hm
    · exact hi.callLt m.1 (List.mem_of_getElem? hk)
  case callSent =>
    intro call hcall rd' hrd'
    rcases mem_appendCalls h hcall with hcall | ⟨rd, -, -, -, hrd⟩
    · exact hold _ _ _ _ (hi.callLt call hcall) (hi.callSent call hcall) rd' hrd'
    · cases hrd.symm.trans hrd'
      simp [Round.setPeer]
  case replySent =>
    intro m hm rd' hrd'
    rcases mem_appendReplies h hm with hm | ⟨k, d₁, d₂, -, hk, -⟩
    · exact hold _ _ _ _ (hi.replyLt m hm) (hi.replySent m hm) rd' hrd'
    · have hcall := List.mem_of_getElem? hk
      exact hold _ _ _ _ (hi.callLt m.1 hcall) (hi.callSent m.1 hcall) rd' hrd'

section Run

variable {C : List (Cluster A) → Action A → Prop}

theorem roundInv (h : Run (Cluster.step servers) C Cluster.init tr) : ∀ s ∈ tr, RoundInv s :=
  h.forall_mem roundInv_init fun _ _ _ _ _ _ hi hs => hi.step hs

/-! ## The leader of a round

A round is of the term in which its call has appended. -/

/-- At some moment `n` led the term of the round, and its log ended with the texts of the round,
from `base` on. -/
def RoundLed (tr : List (Cluster A)) (n : A) (rd : Round A) : Prop :=
  ∃ s ∈ tr, Leads s n rd.term ∧ ∃ X : List Log, X.length = rd.base ∧
    (s.node n).state.logs = X ++ rd.texts.map fun text => ⟨text, rd.term⟩

/-- Every round was started by the leader of its term, which appended the texts. -/
theorem roundLed (h : Run (Cluster.step servers) C Cluster.init (c :: tr)) {n : A} {r : Nat}
    {rd : Round A} : (c.node n).rounds[r]? = some rd → RoundLed (c :: tr) n rd := by
  refine Run.head_induction (P := fun c tr => ∀ {rd : Round A},
    (c.node n).rounds[r]? = some rd → RoundLed (c :: tr) n rd) ?_ ?_ h
  · intro rd hrd
    simp [Cluster.init] at hrd
  · intro c tr a c' hrun _ hs ih rd' hrd'
    rcases step_rounds hs hrd' with ⟨texts, d, rfl, -, hok, hstate, rfl⟩ | ⟨rd, hrd, hstep⟩
    · rcases sendAppendEntriesAppend_cases (c.node n).state texts d with ⟨-, -, e, herr⟩ |
        ⟨hlead, file, heq⟩
      · rw [hok] at herr
        exact absurd herr (by simp)
      · rw [heq] at hstate
        refine ⟨c', by simp, ⟨?_, ?_⟩, (c.node n).state.logs, rfl, ?_⟩
        · rw [hstate]
          exact hlead
        · rw [hstate]
        · rw [hstate]
    · obtain ⟨s, hmem, hl, X, hX, heq⟩ := ih hrd
      exact ⟨s, List.mem_cons_of_mem _ hmem, hstep.term ▸ hl, X, hstep.base ▸ hX,
        by rw [heq, hstep.term, hstep.texts]⟩

/-! ## Successful replies

Where a success comes from: a peer that has accepted, or a node that is not leader. -/

/-- At some moment the log of `p`, in the term of `req`, was exactly the log that `n` had as leader
of this term when it built `req`. -/
def Held (tr : List (Cluster A)) (n p : A) (req : AppendEntriesRequest) : Prop :=
  ∃ s tr₀, (s :: tr₀) <:+ tr ∧ (s.node p).state.currentTerm = req.term ∧
    ∃ s₀ ∈ s :: tr₀, Leads s₀ n req.term ∧ FromLog (s₀.node n).state.logs req ∧
      (s.node p).state.logs = (s₀.node n).state.logs

omit [DecidableEq A] in
theorem Held.cons {n p : A} {req : AppendEntriesRequest} (h : Held tr n p req) (c : Cluster A) :
    Held (c :: tr) n p req := by
  obtain ⟨s, tr₀, hsuf, h⟩ := h
  exact ⟨s, tr₀, hsuf.trans (List.suffix_cons c tr), h⟩

/-- **A successful reply means that the peer has had the leader's log.** -/
theorem held_of_reply (hW : ∀ tr a, C tr a → NoTermWrap tr a)
    (hV : ∀ tr a, C tr a → VoteOnce tr a) (hE : ∀ tr a, C tr a → InsertsAtEnd tr a)
    (h : Run (Cluster.step servers) C Cluster.init (c :: tr)) :
    ∀ m ∈ c.appendReplies, m.2.success = true → Held (c :: tr) m.1.caller m.1.callee m.1.req := by
  refine Run.head_induction (P := fun c tr => ∀ m ∈ c.appendReplies, m.2.success = true →
    Held (c :: tr) m.1.caller m.1.callee m.1.req) ?_ ?_ h
  · intro m hm
    simp [Cluster.init] at hm
  · intro c tr a c' hrun hc hs ih m hm hsuccess
    obtain ⟨call, res⟩ := m
    rcases mem_appendReplies hs hm with hm | ⟨k, d₁, d₂, rfl, hk, hres, hstate⟩
    · exact (ih _ hm hsuccess).cons _
    · have hst := (appendEntries_spec (c.node call.callee).state call.req d₁ d₂).success
        res hres hsuccess
      rw [← hstate] at hst
      obtain ⟨s₀, hs₀, hl, hfrom, -, heq⟩ :=
        stored_log hW hV hrun (soundLog_run hW hV hE hrun) (hE _ _ hc) hk hst
      exact ⟨c', c :: tr, List.suffix_rfl, hst.term, s₀, List.mem_cons_of_mem _ hs₀, hl, hfrom, heq⟩

/-! ## Futures that ended with `Ok(true)`

The excuse is a parameter, with the two cases it has to cover as its fields, so that the induction
over the life of a future is made once. -/

/-- The request is of the term of the round and covers its texts. -/
def Covers (rd : Round A) (req : AppendEntriesRequest) : Prop :=
  req.term = rd.term ∧
    rd.base + rd.texts.length ≤ req.prevLogIndex + 1 + req.entries.length

theorem sendAppendEntriesReply_true {s : VariableState A} {p : A} {b : Bool}
    (h : (sendAppendEntriesReply s p b).2 = true) : b = true ∨ s.role.isLeader = false := by
  rw [sendAppendEntriesReply] at h
  cases hr : s.role with
  | follower => exact Or.inr rfl
  | candidate => exact Or.inr rfl
  | leader next mtch =>
    cases b with
    | true => exact Or.inl rfl
    | false => simp [hr] at h

/-- A future that has just sent a request is one for a peer and waits for the reply. -/
theorem sendAppendEntriesRequest_sent {n p : A} {s : VariableState A} {req : AppendEntriesRequest}
    (h : (sendAppendEntriesRequest n s p).2.sent = some req) :
    p ≠ n ∧ (sendAppendEntriesRequest n s p).2 = .waiting req := by
  rw [sendAppendEntriesRequest] at h ⊢
  cases hr : s.role with
  | follower => simp [hr] at h
  | candidate => simp [hr] at h
  | leader next mtch =>
    simp only [hr] at h ⊢
    by_cases hp : p = n
    · simp [hp] at h
    · refine ⟨hp, ?_⟩
      rw [if_neg hp] at h ⊢
      cases hk : next p with
      | none => simp [hk] at h
      | some k => simpa [hk] using h

/-- A future that ends with `Ok(true)` at once is the node's own, or the node is not leader. -/
theorem sendAppendEntriesRequest_done {n p : A} {s : VariableState A}
    {req : Option AppendEntriesRequest}
    (h : (sendAppendEntriesRequest n s p).2 = .done req (some true)) :
    p = n ∨ s.role.isLeader = false := by
  rw [sendAppendEntriesRequest] at h
  cases hr : s.role with
  | follower => exact Or.inr rfl
  | candidate => exact Or.inr rfl
  | leader next mtch =>
    simp only [hr] at h
    split at h
    · rename_i hp
      exact Or.inl hp
    · split at h <;> exact absurd h (by simp)

/-- The excuse `X` covers every future for a peer that starts while its node does not lead the term
of the round, and every reply without success that arrives while it is not leader. -/
structure Excuse (servers : Finset A) (C : List (Cluster A) → Action A → Prop)
    (X : List (Cluster A) → A → Nat → Prop) : Prop where
  cons : ∀ c tr n T, X tr n T → X (c :: tr) n T
  send : ∀ c tr n r p rd, Run (Cluster.step servers) C Cluster.init (c :: tr) →
    C (c :: tr) (.sendRound n r p) → (c.node n).rounds[r]? = some rd → p ≠ n →
    Leads c n rd.term ∨ X (c :: tr) n rd.term
  reply : ∀ c tr k call res rd, Run (Cluster.step servers) C Cluster.init (c :: tr) →
    C (c :: tr) (.appendReply k) → c.appendReplies[k]? = some (call, res) →
    (c.node call.caller).rounds[call.round]? = some rd →
    (c.node call.caller).state.role.isLeader = false →
    res.success = true ∨ X (c :: tr) call.caller rd.term

variable {X : List (Cluster A) → A → Nat → Prop}

/-- What a future has sent covers the round, or the excuse applies. -/
theorem covers_of_sent (hW : ∀ tr a, C tr a → NoTermWrap tr a) (hX : Excuse servers C X)
    (h : Run (Cluster.step servers) C Cluster.init (c :: tr)) {n p : A} {r : Nat} {rd : Round A}
    {req : AppendEntriesRequest} : (c.node n).rounds[r]? = some rd →
    (rd.peers p).sent = some req → Covers rd req ∨ X (c :: tr) n rd.term := by
  refine Run.head_induction (P := fun c tr => ∀ {rd : Round A}, (c.node n).rounds[r]? = some rd →
    (rd.peers p).sent = some req → Covers rd req ∨ X (c :: tr) n rd.term) ?_ ?_ h
  · intro rd hrd
    simp [Cluster.init] at hrd
  · intro c tr a c' hrun hc hs ih rd' hrd' hsent
    rcases step_rounds hs hrd' with ⟨_, _, -, -, -, -, rfl⟩ | ⟨rd, hrd, hstep⟩
    · exact absurd hsent (by simp)
    rw [hstep.term, Covers, hstep.term, hstep.base, hstep.texts]
    have hold : (rd.peers p).sent = some req → Covers rd req ∨ X (c' :: c :: tr) n rd.term :=
      fun hsent => (ih hrd hsent).imp_right (hX.cons _ _ _ _)
    have hpeer := hstep.peers p
    generalize rd'.peers p = f at hpeer hsent
    cases hpeer with
    | keep => exact hold hsent
    | error hw => exact hold (by simpa [hw] using hsent)
    | reply hw _ _ _ _ => exact hold (by simpa [hw] using hsent)
    | start hidle =>
      obtain ⟨hp, hwait⟩ := sendAppendEntriesRequest_sent hsent
      rcases hX.send c tr n r p rd hrun hc hrd hp with hl | hx
      · refine Or.inl ?_
        obtain ⟨hl', hfrom, -⟩ := sendAppendEntriesRequest_waiting
          (nextIndexOk hrun c (by simp) n) (logs_length_pos hrun (by simp) n) hwait
        obtain ⟨s, hmem, hls, Y, hY, heq⟩ := roundLed hrun hrd
        have hlen := (leads_appended hW hrun hl s hmem hls).isPrefix.length_le
        refine ⟨hl'.2.symm.trans hl.2, ?_⟩
        rw [hfrom.length]
        rw [heq, List.length_append, List.length_map, hY] at hlen
        exact hlen
      · exact Or.inr (hX.cons _ _ _ _ hx)

/-- **What `Ok(true)` of a future means**: it is the node's own, or the excuse applies, or the peer
has had exactly the log the future's request was cut out of. -/
theorem acked (hW : ∀ tr a, C tr a → NoTermWrap tr a) (hV : ∀ tr a, C tr a → VoteOnce tr a)
    (hE : ∀ tr a, C tr a → InsertsAtEnd tr a) (hX : Excuse servers C X)
    (h : Run (Cluster.step servers) C Cluster.init (c :: tr)) {n p : A} {r : Nat} {rd : Round A} :
    (c.node n).rounds[r]? = some rd → (rd.peers p).succeeded = true →
    p = n ∨ X (c :: tr) n rd.term ∨
      ∃ req, (rd.peers p).sent = some req ∧ Held (c :: tr) n p req := by
  refine Run.head_induction (P := fun c tr => ∀ {rd : Round A}, (c.node n).rounds[r]? = some rd →
    (rd.peers p).succeeded = true → p = n ∨ X (c :: tr) n rd.term ∨
      ∃ req, (rd.peers p).sent = some req ∧ Held (c :: tr) n p req) ?_ ?_ h
  · intro rd hrd
    simp [Cluster.init] at hrd
  · intro c tr a c' hrun hc hs ih rd' hrd' hsucc
    rcases step_rounds hs hrd' with ⟨_, _, -, -, -, -, rfl⟩ | ⟨rd, hrd, hstep⟩
    · exact absurd hsucc (by simp [Future.succeeded])
    rw [hstep.term]
    have hpeer := hstep.peers p
    generalize rd'.peers p = f at hpeer hsucc
    cases hpeer with
    | keep =>
      rcases ih hrd hsucc with hp | hx | ⟨req, hsent, hheld⟩
      · exact Or.inl hp
      · exact Or.inr (Or.inl (hX.cons _ _ _ _ hx))
      · exact Or.inr (Or.inr ⟨req, hsent, hheld.cons _⟩)
    | error hw => exact absurd hsucc (by simp [Future.succeeded])
    | start hidle =>
      obtain ⟨req, hdone⟩ := Future.succeeded_iff.1 hsucc
      by_cases hp : p = n
      · exact Or.inl hp
      have hrole := (sendAppendEntriesRequest_done hdone).resolve_left hp
      rcases hX.send c tr n r p rd hrun hc hrd hp with hl | hx
      · rw [hl.1] at hrole
        exact absurd hrole (by simp)
      · exact Or.inr (Or.inl (hX.cons _ _ _ _ hx))
    | @reply k req call res hw hk hcaller hround hcallee =>
      have hmem := List.mem_of_getElem? hk
      subst hcaller hround hcallee
      have htrue : (sendAppendEntriesReply (c.node call.caller).state call.callee
          res.success).2 = true := by
        simpa [Future.succeeded] using hsucc
      have hreq : req = call.req := by
        have := (roundInv hrun c (by simp)).replySent _ hmem rd hrd
        rw [hw] at this
        exact Option.some.inj this
      subst hreq
      have hheld : res.success = true →
          ∃ req, (Future.done (some call.req) (some (sendAppendEntriesReply
            (c.node call.caller).state call.callee res.success).2)).sent = some req ∧
            Held (c' :: c :: tr) call.caller call.callee req :=
        fun hsuccess => ⟨call.req, rfl, (held_of_reply hW hV hE hrun _ hmem hsuccess).cons _⟩
      rcases sendAppendEntriesReply_true htrue with hsuccess | hrole
      · exact Or.inr (Or.inr (hheld hsuccess))
      · rcases hX.reply c tr k call res rd hrun hc hk hrd hrole with hsuccess | hx
        · exact Or.inr (Or.inr (hheld hsuccess))
        · exact Or.inr (Or.inl (hX.cons _ _ _ _ hx))

end Run

end Raft
end DistributedPrograms
