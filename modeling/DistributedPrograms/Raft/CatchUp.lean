import DistributedPrograms.Raft.Ballot
import DistributedPrograms.Raft.LeaderLog
import DistributedPrograms.Raft.Replication

/-!
# A leader brings its followers up to date

The steps of a round of `send_append_entries`, forwards, and what a leader can reach with them that
all others follow: heartbeats move `next_index` back until the request for a server is accepted
(`Leading.syncAll`), and a `post_log` is then accepted by everybody (`Possible.post`).

* The lemmas `do_…` say that a step of a round can be taken and what the cluster is after it, and
  `Possible.call` runs one future of a round from its start to its end.
* `Follows p k l y`: the server `y` follows the leader `l` and can be sent its log from `k` on.
  `AtEnd` says that the next request to it is accepted.
* `Leading servers b T L S c`: `b` leads the term `T` with the log `L`, all other servers follow,
  and those in `S` have caught up.  Syncing one more server keeps it (`Follows.other`,
  `AtEnd.other`), which is what the rule for finite sets asks for.
* `Underway` and `Posting` are the same for a single round with texts: in it the futures for the
  servers in `S` have succeeded.

In contrast to the module on replication, which follows one server through rounds with anything in
between, the rounds here are chosen.  In a heartbeat only the future for one server runs, and the
others are left where they are.  So its effect is that of one exchange between the leader and that
server.
-/

set_option autoImplicit false

namespace DistributedPrograms
namespace Raft

variable {A : Type} [DecidableEq A] {servers : Finset A} {c : Cluster A} {n : A}
  {s : VariableState A} {T k : Nat}

open VariableState

/-! ## A round, forwards

A future goes through its request, the handler of the peer and the reply, with nothing in between.
-/

section Rounds

variable {x y : Node A} {rd : Round A} {p b : A} {r : Nat}

theorem do_sendAppendEntries (texts : List String) (hx : c.node n = x)
    (hfree : x.free servers = true) (hlead : x.state.role.isLeader = true) :
    c.step servers (.sendAppendEntries n texts .ok) = some (c.setNode n { x with
      state := (sendAppendEntriesAppend x.state texts .ok).1
      rounds := x.rounds ++
        [⟨x.state.currentTerm, x.state.logs.length, texts, fun _ => .idle, none⟩] }) := by
  have hok : sendAppendEntriesAppend x.state texts .ok =
      ((sendAppendEntriesAppend x.state texts .ok).1, .ok ()) := by
    rw [sendAppendEntriesAppend, hlead]
    rfl
  simp only [Cluster.step, Cluster.roundStep, hx]
  rw [if_pos hfree, hok]

theorem do_sendRound_own (hx : c.node n = x) (hrd : x.rounds[r]? = some rd) (hn : n ∈ servers)
    (hidle : rd.peers n = .idle) (hlead : x.state.role.isLeader = true) :
    c.step servers (.sendRound n r n) = some (c.setNode n
      { x.setRound r (rd.setPeer n (.done none (some true))) with
        state := (sendAppendEntriesRequest n x.state n).1 }) := by
  obtain ⟨next, mtch, hrole⟩ : ∃ next mtch, x.state.role = .leader next mtch := by
    cases hr : x.state.role with
    | leader next mtch => exact ⟨next, mtch, rfl⟩
    | _ => rw [hr] at hlead; contradiction
  simp only [Cluster.step, Cluster.roundStep, hx, hrd, sendAppendEntriesRequest, hrole, if_true]
  rw [if_pos ⟨hn, Future.isIdle_iff.2 hidle⟩]

theorem do_sendRound {req : AppendEntriesRequest} (hx : c.node n = x)
    (hrd : x.rounds[r]? = some rd) (hp : p ∈ servers) (hidle : rd.peers p = .idle)
    (hreq : sendAppendEntriesRequest n x.state p = (x.state, .waiting req)) :
    c.step servers (.sendRound n r p) = some
      { c.setNode n (x.setRound r (rd.setPeer p (.waiting req))) with
        appendCalls := ⟨n, r, p, req⟩ :: c.appendCalls } := by
  simp only [Cluster.step, Cluster.roundStep, hx, hrd, hreq]
  rw [if_pos ⟨hp, Future.isIdle_iff.2 hidle⟩]
  rfl

theorem do_appendEntries {call : AppendCall A} {calls : List (AppendCall A)}
    {res : AppendEntriesResponse} (hcalls : c.appendCalls = call :: calls)
    (hx : c.node call.callee = x) (hfree : x.free servers = true)
    (hres : (appendEntries x.state call.req .ok .ok).2 = .ok res) :
    c.step servers (.appendEntries 0 .ok .ok) =
      some { c.setNode call.callee { x with
          state := (appendEntries x.state call.req .ok .ok).1 } with
        appendCalls := calls
        appendReplies := (call, res) :: c.appendReplies } := by
  simp only [Cluster.step, Cluster.deliver, hcalls, hx, List.getElem?_cons_zero, hres,
    List.eraseIdx_cons_zero]
  rw [if_pos hfree]

theorem do_appendReply {call : AppendCall A} {res : AppendEntriesResponse}
    {replies : List (AppendCall A × AppendEntriesResponse)} {req : AppendEntriesRequest}
    (hreplies : c.appendReplies = (call, res) :: replies) (hx : c.node call.caller = x)
    (hrd : x.rounds[call.round]? = some rd) (hwait : rd.peers call.callee = .waiting req) :
    c.step servers (.appendReply 0) =
      some { c.setNode call.caller { x.setRound call.round (rd.setPeer call.callee (.done (some req)
            (some (sendAppendEntriesReply x.state call.callee res.success).2))) with
          state := (sendAppendEntriesReply x.state call.callee res.success).1 } with
        appendReplies := replies } := by
  simp only [Cluster.step, Cluster.deliver, hreplies, hx, hrd, List.getElem?_cons_zero, hwait,
    List.eraseIdx_cons_zero]

theorem do_closeRound (hx : c.node n = x) (hrd : x.rounds[r]? = some rd) (hret : rd.ret = none)
    (hdone : ∀ p ∈ servers, (rd.peers p).isDone = true) (hfree : x.free servers = true)
    (hmaj : countTrue servers rd.peers * 2 > servers.card) : c.step servers (.closeRound n r) =
      some (c.setNode n { x.setRound r (rd.close true) with
        state := { x.state with commitIndex := x.state.logs.length - 1 } }) := by
  simp only [Cluster.step, Cluster.roundStep, hx, hrd, sendAppendEntriesCommit]
  rw [if_pos ⟨hret, hdone, fun _ => hfree⟩, if_pos hmaj]

theorem Round.setPeer_setPeer (rd : Round A) (p : A) (f g : Future AppendEntriesRequest) :
    (rd.setPeer p f).setPeer p g = rd.setPeer p g := by
  simp only [Round.setPeer, Function.update_idem]

omit [DecidableEq A] in
theorem Node.setRound_setRound (x : Node A) (r : Nat) (rd rd' : Round A) :
    (x.setRound r rd).setRound r rd' = x.setRound r rd' := by
  simp only [Node.setRound, List.set_set]

/-- A future of a round runs from its start to its end. -/
theorem Possible.call (hx : c.node b = x) (hy : c.node p = y) (hrd : x.rounds[r]? = some rd)
    (hp : p ∈ servers) (hne : p ≠ b) (hidle : rd.peers p = .idle)
    (hnext : NextIndex p k x.state) (hfree : y.free servers = true) {success : Bool}
    {req : AppendEntriesRequest} (hreq : catchUp x.state k x.state.commitIndex = req)
    (hres : (appendEntries y.state req .ok .ok).2 = .ok ⟨success⟩) :
    Possible (Cluster.step servers) NoWrap (fun c' => c'.node = Function.update
      (Function.update c.node p { y with state := (appendEntries y.state req .ok .ok).1 }) b
        { x.setRound r (rd.setPeer p (.done (some req) (some success))) with
          state := (sendAppendEntriesReply x.state p success).1 }) c := by
  have hsend := sendAppendEntriesRequest_of_nextIndex hnext hne
  rw [hreq] at hsend
  set waits := x.setRound r (rd.setPeer p (.waiting req)) with hwaits
  refine .next (a := .sendRound b r p) trivial (do_sendRound hx hrd hp hidle hsend) ?_
  refine .next (a := .appendEntries 0 .ok .ok) trivial
    (do_appendEntries rfl ((Cluster.setNode_of_ne c _ hne).trans hy) hfree hres) ?_
  have hnode : Function.update (Function.update c.node b waits) p
        { y with state := (appendEntries y.state req .ok .ok).1 } =
      Function.update (Function.update c.node p
        { y with state := (appendEntries y.state req .ok .ok).1 }) b waits :=
    Function.update_comm hne.symm _ _ _
  have hround : waits.rounds[r]? = some (rd.setPeer p (.waiting req)) :=
    List.getElem?_set_self (List.getElem?_eq_some_iff.1 hrd).1
  have hwait : (rd.setPeer p (.waiting req)).peers p = .waiting req := Function.update_self ..
  obtain ⟨next, mtch, hrole, -⟩ := hnext
  have hreply : (sendAppendEntriesReply x.state p success).2 = success := by
    rw [sendAppendEntriesReply, hrole]
    cases success <;> rfl
  refine .one (a := .appendReply 0) trivial (do_appendReply rfl
    ((congrFun hnode b).trans (Function.update_self ..)) hround hwait) ?_
  refine (congrArg (Function.update · b _) hnode).trans ?_
  rw [Function.update_idem, Round.setPeer_setPeer, hwaits, Node.setRound_setRound]
  show Function.update (Function.update c.node p _) b { x.setRound r (rd.setPeer p (.done (some req)
    (some (sendAppendEntriesReply x.state p success).2))) with
      state := (sendAppendEntriesReply x.state p success).1 } = _
  rw [hreply]

end Rounds

/-! ## The leader's log reaches everybody

A refusal moves `next_index` back by one, and at the first entry, which all logs have, no request is
refused. -/

section Catching

variable {p b : A} {logs L : List Log} {S : Finset A} {l : VariableState A} {leaderCommit : Nat}

omit [DecidableEq A] in
theorem mergedLogs_catchUp_eq (logs : List Log) : mergedLogs logs (catchUp l k leaderCommit) =
    logs.take (k - 1 + 1) ++ (l.logs.drop (k - 1 + 1) ++
      (logs.drop (k - 1 + 1)).take (l.logs.drop (k - 1 + 1)).length) :=
  List.append_assoc ..

omit [DecidableEq A] in
/-- An accepted request of the leader leaves the term of its last entry at the same place. -/
theorem mergedLogs_catchUp_last (hlt : k - 1 < l.logs.length)
    (hmatch : logs[k - 1]?.map Log.term = l.logs[k - 1]?.map Log.term) :
    (mergedLogs logs (catchUp l k leaderCommit))[l.logs.length - 1]?.map Log.term =
      l.logs[l.logs.length - 1]?.map Log.term := by
  have hlen : k - 1 < logs.length := by
    by_contra hge
    rw [List.getElem?_eq_none (Nat.not_lt.1 hge), List.getElem?_eq_getElem hlt] at hmatch
    contradiction
  have htake : (logs.take (k - 1 + 1)).length = k - 1 + 1 := by
    rw [List.length_take]
    omega
  rw [mergedLogs_catchUp_eq]
  rcases Nat.lt_or_ge (l.logs.length - 1) (k - 1 + 1) with hlast | hlast
  · have heq : l.logs.length - 1 = k - 1 := by omega
    rw [heq, List.getElem?_append_left (by omega), List.getElem?_take_of_lt (by omega), hmatch]
  · rw [List.getElem?_append_right (by omega), htake,
      List.getElem?_append_left (by rw [List.length_drop]; omega), List.getElem?_drop]
    congr 2
    omega

omit [DecidableEq A] in
theorem mergedLogs_catchUp_first {log : Log} (hfirst : logs[0]? = some log) :
    (mergedLogs logs (catchUp l k leaderCommit))[0]? = some log := by
  have hlen : 0 < logs.length := (List.getElem?_eq_some_iff.1 hfirst).1
  rw [mergedLogs_catchUp_eq, List.getElem?_append_left (by rw [List.length_take]; omega),
    List.getElem?_take_of_lt (by omega), hfirst]

omit [DecidableEq A] in
theorem appendEntries_follower (req : AppendEntriesRequest) (hrole : s.role = .follower)
    (hterm : s.currentTerm = req.term) : (appendEntries s req .ok .ok).1.role = .follower ∧
      (appendEntries s req .ok .ok).1.currentTerm = req.term := by
  rcases (appendEntries_spec s req .ok .ok).role_term with ⟨hrole', hterm'⟩ | ⟨hrole', hterm', -⟩
  · exact ⟨hrole'.trans hrole, hterm'.trans hterm⟩
  · exact ⟨hrole', hterm'⟩

/-- The server `p` follows the leader `l` and can be sent its log from `k` on.  It is in no election
itself, so its lock is free. -/
structure Follows (p : A) (k : Nat) (l : VariableState A) (y : Node A) : Prop where
  peer : Peer p k l y.state
  role : y.state.role = .follower
  term : y.state.currentTerm = l.currentTerm
  election : y.election = none
  first : y.state.logs[0]? = some initLog

/-- The next request to `p` is accepted: its `next_index` is the end of the leader's log, and the
entries in front of it agree. -/
def AtEnd (p : A) (l f : VariableState A) : Prop :=
  NextIndex p l.logs.length l ∧
    f.logs[l.logs.length - 1]?.map Log.term = l.logs[l.logs.length - 1]?.map Log.term

/-- `b` leads `T` with the log `L`, all other servers follow, and those in `S` have caught up.  A
round takes the peers into `S` one by one. -/
structure Leading (servers : Finset A) (b : A) (T : Nat) (L : List Log) (S : Finset A)
    (c : Cluster A) : Prop where
  lead : Leads c b T
  logs : (c.node b).state.logs = L
  first : L[0]? = some initLog
  election : (c.node b).election = none
  follows : ∀ p ∈ servers, p ≠ b → ∃ k, Follows p k (c.node b).state (c.node p)
  atEnd : ∀ p ∈ S, p ≠ b → AtEnd p (c.node b).state (c.node p).state

/-- What a whole heartbeat does to the follower it is for. -/
theorem Follows.heartbeat {l' f' : VariableState A} {success : Bool} {y : Node A}
    (h : Follows p k l y) (hfirst : l.logs[0]? = some initLog) (hne : p ≠ b)
    (hanswer : (appendEntries y.state (catchUp l k l.commitIndex) .ok .ok).2 = .ok ⟨success⟩)
    (hf' : (appendEntries y.state (catchUp l k l.commitIndex) .ok .ok).1 = f')
    (hl' : (sendAppendEntriesReply { l with file := some l.persistent } p success).1 = l') :
    l'.persistent = l.persistent ∧
      Follows p (if success then l.logs.length else k - 1) l' { y with state := f' } ∧
      if success then AtEnd p l' f' else 1 < k := by
  have hround : HeartbeatRound (∅ : Finset A) b p l y.state success l' f' := by
    have hmk : HeartbeatRound (∅ : Finset A) b p l y.state success _ _ := .mk 0
      (sendAppendEntriesAppend_nil h.peer.next) .refl
      (sendAppendEntriesRequest_of_nextIndex (s := { l with file := some l.persistent })
        h.peer.next hne) .refl hanswer .refl
    rw [hl', sendAppendEntriesCommit, if_neg (by simp)] at hmk
    exact hf' ▸ hmk
  obtain ⟨hkept, hpeer, leaderCommit, hiff, hlogs⟩ := h.peer.round hne hround
  have hsame : l'.logs = l.logs := congrArg Persistent.logs hkept
  have hterm : l'.currentTerm = l.currentTerm := congrArg Persistent.currentTerm hkept
  have hpos : 0 < l.logs.length := (List.getElem?_eq_some_iff.1 hfirst).1
  have hlt : k - 1 < l.logs.length := by
    have := h.peer.le
    omega
  have hrole := appendEntries_follower (catchUp l k l.commitIndex) h.role h.term
  rw [hf'] at hrole
  rw [h.peer.accepts_iff hlt] at hiff
  cases success with
  | true =>
    rw [if_pos rfl] at hpeer hlogs
    refine ⟨hkept, ⟨hpeer, hrole.1, hrole.2.trans hterm.symm, h.election, ?_⟩, ?_, ?_⟩
    · rw [hlogs]
      exact mergedLogs_catchUp_first h.first
    · rw [hsame]
      exact hpeer.next
    · rw [hsame, hlogs]
      exact mergedLogs_catchUp_last hlt (hiff.1 rfl)
  | false =>
    rw [if_neg Bool.false_ne_true] at hpeer hlogs
    refine ⟨hkept, ⟨hpeer, hrole.1, hrole.2.trans hterm.symm, h.election, hlogs ▸ h.first⟩, ?_⟩
    -- both logs begin alike
    by_contra hge
    have hzero : k - 1 = 0 := by
      have : ¬1 < k := hge
      omega
    rw [hzero, h.first, hfirst] at hiff
    exact absurd (hiff.2 rfl) Bool.false_ne_true

omit [DecidableEq A] in
/-- What changes at the leader is nothing to `p`, as long as its `next_index` stays. -/
theorem Follows.of_leader {l' : VariableState A} {y : Node A} (h : Follows p k l y)
    (hnext : NextIndex p k l') (hterm : l'.currentTerm = l.currentTerm)
    (hlen : l.logs.length ≤ l'.logs.length) : Follows p k l' y :=
  ⟨⟨hnext, Nat.le_trans h.peer.le hlen, hterm ▸ h.peer.term, hterm ▸ h.peer.role⟩, h.role,
    h.term.trans hterm.symm, h.election, h.first⟩

theorem Follows.other {l' : VariableState A} {y : Node A} (h : Follows p k l y)
    (hother : OtherFuture b p l l') : Follows p k l' y := by
  obtain ⟨hkept, hnext⟩ := hother.keeps (n := k)
  exact h.of_leader (hnext h.peer.next) (congrArg Persistent.currentTerm hkept)
    (Nat.le_of_eq (congrArg (fun q => q.logs.length) hkept.symm))

theorem AtEnd.other {l' f : VariableState A} (h : AtEnd p l f) (hother : OtherFuture b p l l') :
    AtEnd p l' f := by
  obtain ⟨hkept, hnext⟩ := hother.keeps (n := l.logs.length)
  have hlogs : l'.logs = l.logs := congrArg Persistent.logs hkept
  exact ⟨hlogs.symm ▸ hnext h.1, hlogs.symm ▸ h.2⟩

/-- A heartbeat to one server syncs it, or moves its `next_index` back. -/
theorem Possible.heartbeat (h : Leading servers b T L S c) (hp : p ∈ servers) (hne : p ≠ b)
    (hpS : p ∉ S) (hk : Follows p k (c.node b).state (c.node p)) :
    Possible (Cluster.step servers) NoWrap (fun c' => Leading servers b T L (insert p S) c' ∨
      (1 < k ∧ Leading servers b T L S c' ∧
        Follows p (k - 1) (c'.node b).state (c'.node p))) c := by
  have hlead := h.lead.1
  have hfree : (c.node b).free servers = true := by rw [Node.free, h.election]
  have happend := do_sendAppendEntries [] rfl hfree hlead
  rw [sendAppendEntriesAppend_nil hk.peer.next] at happend
  refine .next (a := .sendAppendEntries b [] .ok) trivial happend ?_
  set l := (c.node b).state with hl
  set rd : Round A := ⟨l.currentTerm, l.logs.length, [], fun _ => .idle, none⟩
  set x : Node A := { c.node b with
    state := { l with file := some l.persistent }
    rounds := (c.node b).rounds ++ [rd] } with hx
  have hrd : x.rounds[(c.node b).rounds.length]? = some rd := by rw [hx]; simp
  obtain ⟨⟨success⟩, hanswer⟩ := appendEntries_answers (c.node p).state
    (catchUp l k l.commitIndex)
  refine (Possible.call (c := c.setNode b x) (Cluster.setNode_self ..)
    (Cluster.setNode_of_ne c _ hne) hrd hp hne rfl hk.peer.next
    (by rw [Node.free, hk.election]) rfl hanswer).mono fun c' hc' => ?_
  have hfirst : l.logs[0]? = some initLog := h.logs ▸ h.first
  obtain ⟨hkept, hfollows, hcase⟩ := hk.heartbeat hfirst hne hanswer rfl rfl
  -- the states of the nodes at the end
  have hb : (c'.node b).state = (sendAppendEntriesReply { l with file := some l.persistent } p
      success).1 := by rw [hc', Function.update_self]
  have hbnone : (c'.node b).election = none := by rw [hc', Function.update_self]; exact h.election
  have hpnode : c'.node p = { c.node p with state :=
      (appendEntries (c.node p).state (catchUp l k l.commitIndex) .ok .ok).1 } := by
    rw [hc', Function.update_of_ne hne, Function.update_self]
    rfl
  have hother : ∀ q, q ≠ b → q ≠ p → c'.node q = c.node q := by
    intro q hqb hqp
    rw [hc', Function.update_of_ne hqb, Function.update_of_ne hqp, Cluster.setNode_of_ne _ _ hqb]
  have hsame := sendAppendEntriesReply_same { l with file := some l.persistent } p success
  have hlead' : Leads c' b T := by
    rw [Leads, hb, hsame.isLeader, hsame.currentTerm_eq]
    exact h.lead
  have hnext : ∀ S', (∀ q ∈ S', q ≠ b → q ≠ p → q ∈ S) →
      (∀ q ∈ S', q = p → AtEnd p (c'.node b).state (c'.node p).state) →
      Leading servers b T L S' c' := by
    intro S' hold hnew
    refine ⟨hlead', ?_, h.first, hbnone, fun q hq hqb => ?_, fun q hq hqb => ?_⟩
    · rw [hb]
      exact (congrArg Persistent.logs hkept).trans h.logs
    · by_cases hqp : q = p
      · rw [hqp, hb, hpnode]
        exact ⟨_, hfollows⟩
      · obtain ⟨j, hj⟩ := h.follows q hq hqb
        rw [hb, hother q hqb hqp]
        have hj' : Follows q j { l with file := some l.persistent } (c.node q) :=
          hj.of_leader hj.peer.next rfl (Nat.le_refl _)
        exact ⟨j, hj'.other (.reply success (Ne.symm hqp) : OtherFuture b q _ _)⟩
    · by_cases hqp : q = p
      · exact hqp ▸ hnew q hq hqp
      · rw [hb, hother q hqb hqp]
        have hq' : AtEnd q { l with file := some l.persistent } (c.node q).state :=
          h.atEnd q (hold q hq hqb hqp) hqb
        exact hq'.other (.reply success (Ne.symm hqp) : OtherFuture b q _ _)
  cases success with
  | true =>
    refine Or.inl (hnext _ (fun q hq _ hqp => (Finset.mem_insert.1 hq).resolve_left hqp) ?_)
    intro q _ _
    rw [hb, hpnode]
    exact hcase
  | false =>
    refine Or.inr ⟨hcase, hnext S (fun q hq _ _ => hq) ?_, ?_⟩
    · exact fun q hq hqp => absurd (hqp ▸ hq) hpS
    · rw [hb, hpnode]
      exact hfollows

/-- As many heartbeats as needed. -/
theorem Possible.sync (hp : p ∈ servers) (hne : p ≠ b) (hpS : p ∉ S) (k : Nat) (c : Cluster A)
    (h : Leading servers b T L S c) (hk : Follows p k (c.node b).state (c.node p)) :
    Possible (Cluster.step servers) NoWrap (Leading servers b T L (insert p S)) c := by
  induction k generalizing c with
  | zero =>
    refine (Possible.heartbeat h hp hne hpS hk).bind fun t ht => ?_
    rcases ht with ht | ⟨hlt, -⟩
    · exact .here ht
    · omega
  | succ k ih =>
    refine (Possible.heartbeat h hp hne hpS hk).bind fun t ht => ?_
    rcases ht with ht | ⟨-, ht, hkt⟩
    · exact .here ht
    · exact ih t ht hkt

theorem Leading.syncAll (h : Leading servers b T L ∅ c) :
    Possible (Cluster.step servers) NoWrap (Leading servers b T L servers) c := by
  refine Possible.forall_mem (I := fun S => Leading servers b T L S)
    (fun S p t hp hpS ht => ?_) h
  by_cases hpb : p = b
  · refine .here { ht with atEnd := fun q hq hqb => ht.atEnd q ?_ hqb }
    exact (Finset.mem_insert.1 hq).resolve_left fun hqp => hqb (hqp.trans hpb)
  · obtain ⟨k, hk⟩ := ht.follows p hp hpb
    exact Possible.sync hp hpb hpS k t ht hk

/-- In the round `rd` for `texts` the futures for `S` have succeeded. -/
structure Underway (texts : List String) (S : Finset A) (rd : Round A) : Prop where
  texts : rd.texts = texts
  ret : rd.ret = none
  done : ∀ p ∈ S, (rd.peers p).succeeded = true
  idle : ∀ p, p ∉ S → rd.peers p = .idle

theorem Underway.setPeer {texts : List String} {rd : Round A} (h : Underway texts S rd) (p : A)
    {f : Future AppendEntriesRequest} (hf : f.succeeded = true) :
    Underway texts (insert p S) (rd.setPeer p f) := by
  refine ⟨h.texts, h.ret, fun q hq => ?_, fun q hq => ?_⟩
  · by_cases hqp : q = p
    · rw [hqp]
      have hnew : (rd.setPeer p f).peers p = f := Function.update_self ..
      rw [hnew]
      exact hf
    · have hkeep : (rd.setPeer p f).peers q = rd.peers q := Function.update_of_ne hqp ..
      rw [hkeep]
      exact h.done q ((Finset.mem_insert.1 hq).resolve_left hqp)
  · obtain ⟨hqp, hqS⟩ := not_or.1 fun hmem => hq (Finset.mem_insert.2 hmem)
    exact (Function.update_of_ne hqp ..).trans (h.idle q hqS)

/-- `b` has posted `texts`, which its log `L` ends with since, and the futures of the round `r` for
`S` have succeeded.  When `S` is all servers the round can return. -/
structure Posting (servers : Finset A) (b : A) (T : Nat) (L : List Log) (texts : List String)
    (k r : Nat) (S : Finset A) (c : Cluster A) : Prop where
  lead : Leads c b T
  logs : (c.node b).state.logs = L
  election : (c.node b).election = none
  round : ∃ rd, (c.node b).rounds[r]? = some rd ∧ Underway texts S rd
  peer : ∀ p ∈ servers, p ≠ b → (c.node p).state.role = .follower ∧
    (c.node p).state.currentTerm = T
  follows : ∀ p ∈ servers, p ∉ S → p ≠ b → Follows p k (c.node b).state (c.node p) ∧
    (c.node p).state.logs[k - 1]?.map Log.term = L[k - 1]?.map Log.term

theorem Possible.posted {texts : List String} {r : Nat} (h : Posting servers b T L texts k r S c)
    (hp : p ∈ servers) (hpS : p ∉ S) (hk : 0 < L.length) : Possible (Cluster.step servers) NoWrap
      (Posting servers b T L texts k r (insert p S)) c := by
  obtain ⟨rd, hrd, hunder⟩ := h.round
  have hround : ∀ rd', ((c.node b).setRound r rd').rounds[r]? = some rd' := fun rd' =>
    List.getElem?_set_self (List.getElem?_eq_some_iff.1 hrd).1
  set l := (c.node b).state with hl
  by_cases hpb : p = b
  · subst hpb
    have hsame := sendAppendEntriesRequest_same p l p
    refine .one (a := .sendRound p r p) trivial
      (do_sendRound_own rfl hrd hp (hunder.idle p hpS) h.lead.1) ⟨?_, ?_, ?_, ?_, ?_, ?_⟩
    · rw [Leads, Cluster.setNode_self]
      show (sendAppendEntriesRequest p l p).1.role.isLeader = true ∧
        (sendAppendEntriesRequest p l p).1.currentTerm = T
      rw [hsame.isLeader, hsame.currentTerm_eq]
      exact h.lead
    · rw [Cluster.setNode_self]
      exact (congrArg Persistent.logs hsame.persistent).trans h.logs
    · rw [Cluster.setNode_self]
      exact h.election
    · rw [Cluster.setNode_self]
      exact ⟨_, hround _, hunder.setPeer p rfl⟩
    · intro q hq hqb
      rw [Cluster.setNode_of_ne _ _ hqb]
      exact h.peer q hq hqb
    · intro q hq hqS hqb
      obtain ⟨hfollows, hmatch⟩ :=
        h.follows q hq (fun hmem => hqS (Finset.mem_insert_of_mem hmem)) hqb
      rw [Cluster.setNode_of_ne _ _ hqb, Cluster.setNode_self]
      exact ⟨hfollows.other (.request (Ne.symm hqb) : OtherFuture p q _ _), hmatch⟩
  · obtain ⟨hfollows, hmatch⟩ := h.follows p hp hpS hpb
    have hlogs : l.logs = L := h.logs
    set req := catchUp l k l.commitIndex with hreq
    have haccepts : Accepts (c.node p).state req := by
      have hle : k ≤ L.length := hlogs ▸ hfollows.peer.le
      refine (hfollows.peer.accepts_iff ?_ _).2 (hlogs.symm ▸ hmatch)
      rw [hlogs]
      omega
    obtain ⟨⟨success⟩, hanswer⟩ := appendEntries_answers (c.node p).state req
    obtain rfl : success = true := (appendEntries_answer hanswer).1.2 haccepts
    have hsame := sendAppendEntriesReply_same l p true
    refine (Possible.call rfl rfl hrd hp hpb (hunder.idle p hpS) hfollows.peer.next
      (by rw [Node.free, hfollows.election]) rfl hanswer).mono fun c' hc' => ?_
    have hb : (c'.node b).state = (sendAppendEntriesReply l p true).1 := by
      rw [hc', Function.update_self]
    have hother : ∀ q, q ≠ b → q ≠ p → c'.node q = c.node q := by
      intro q hqb hqp
      rw [hc', Function.update_of_ne hqb, Function.update_of_ne hqp]
    refine ⟨?_, ?_, ?_, ?_, fun q hq hqb => ?_, fun q hq hqS hqb => ?_⟩
    · rw [Leads, hb, hsame.isLeader, hsame.currentTerm_eq]
      exact h.lead
    · rw [hb]
      exact (congrArg Persistent.logs hsame.persistent).trans hlogs
    · rw [hc', Function.update_self]
      exact h.election
    · rw [hc', Function.update_self]
      exact ⟨_, hround _, hunder.setPeer p rfl⟩
    · by_cases hqp : q = p
      · rw [hqp, hc', Function.update_of_ne hpb, Function.update_self]
        obtain ⟨hrole, hterm⟩ := appendEntries_follower req hfollows.role hfollows.term
        exact ⟨hrole, hterm.trans h.lead.2⟩
      · rw [hother q hqb hqp]
        exact h.peer q hq hqb
    · obtain ⟨hqp, hqS⟩ := not_or.1 fun hmem => hqS (Finset.mem_insert.2 hmem)
      obtain ⟨hfollows, hmatch⟩ := h.follows q hq hqS hqb
      rw [hb, hother q hqb hqp]
      exact ⟨hfollows.other (.reply true (Ne.symm hqp) : OtherFuture b q _ _), hmatch⟩

omit [DecidableEq A] in
theorem sendAppendEntriesAppend_of_leader (texts : List String) (h : s.role.isLeader = true) :
    (sendAppendEntriesAppend s texts .ok).1 =
      { s with
        file := some { s.persistent with
          logs := s.logs ++ texts.map fun text => ⟨text, s.currentTerm⟩ }
        persistent := { s.persistent with
          logs := s.logs ++ texts.map fun text => ⟨text, s.currentTerm⟩ } } := by
  rw [sendAppendEntriesAppend, h]
  rfl

/-- **A `post_log`** of a leader whose log has reached everybody.  One request to each peer is
enough, and the call returns `Ok(true)`. -/
theorem Possible.post (texts : List String) (hb : b ∈ servers)
    (h : Leading servers b T L servers c) : Possible (Cluster.step servers) NoWrap (fun c' =>
      Leads c' b T ∧ (∀ p ∈ servers, p ≠ b → (c'.node p).state.role = .follower ∧
        (c'.node p).state.currentTerm = T) ∧
      (c'.node b).state.logs = L ++ texts.map (fun text => ⟨text, T⟩) ∧
      (c'.node b).state.commitIndex = (c'.node b).state.logs.length - 1 ∧
      ∃ r rd, (c.node b).rounds.length ≤ r ∧ (c'.node b).rounds[r]? = some rd ∧
        rd.texts = texts ∧ rd.ret = some true) c := by
  set l := (c.node b).state with hl
  have hlogs : l.logs = L := h.logs
  have hterm : l.currentTerm = T := h.lead.2
  have hpos : 0 < L.length := (List.getElem?_eq_some_iff.1 h.first).1
  set L' := L ++ texts.map (fun text => (⟨text, T⟩ : Log)) with hL'
  have hfree : (c.node b).free servers = true := by rw [Node.free, h.election]
  have happend := do_sendAppendEntries texts rfl hfree h.lead.1
  rw [sendAppendEntriesAppend_of_leader texts h.lead.1] at happend
  refine .next (a := .sendAppendEntries b texts .ok) trivial happend ?_
  set rd : Round A := ⟨l.currentTerm, l.logs.length, texts, fun _ => .idle, none⟩
  set x : Node A := { c.node b with
    state := { l with
      file := some { l.persistent with
        logs := l.logs ++ texts.map fun text => ⟨text, l.currentTerm⟩ }
      persistent := { l.persistent with
        logs := l.logs ++ texts.map fun text => ⟨text, l.currentTerm⟩ } }
    rounds := (c.node b).rounds ++ [rd] } with hx
  have hnode : (c.setNode b x).node b = x := Cluster.setNode_self ..
  have hxlogs : x.state.logs = L' := by
    rw [hL', ← hlogs, ← hterm]
  have hstart : Posting servers b T L' texts L.length (c.node b).rounds.length ∅
      (c.setNode b x) := by
    refine ⟨?_, by rw [hnode, hxlogs], by rw [hnode]; exact h.election, ⟨rd, ?_, rfl, rfl, ?_, ?_⟩,
      fun p hp hpb => ?_, fun p hp _ hpb => ?_⟩
    · rw [Leads, hnode]
      exact h.lead
    · rw [hnode, hx]
      simp
    · simp
    · exact fun p _ => rfl
    · obtain ⟨k, hk⟩ := h.follows p hp hpb
      rw [Cluster.setNode_of_ne _ _ hpb]
      exact ⟨hk.role, hk.term.trans hterm⟩
    · obtain ⟨k, hk⟩ := h.follows p hp hpb
      obtain ⟨hnext, hmatch⟩ := h.atEnd p hp hpb
      rw [hlogs] at hnext hmatch
      rw [Cluster.setNode_of_ne _ _ hpb, hnode]
      have hlong : L.length ≤ x.state.logs.length := by
        rw [hxlogs, hL', List.length_append]
        omega
      refine ⟨⟨⟨hnext, hlong, hk.peer.term, hk.peer.role⟩, hk.role, hk.term, hk.election,
        hk.first⟩, ?_⟩
      rw [hmatch, hL', List.getElem?_append_left (by omega)]
  refine (Possible.forall_mem (I := Posting servers b T L' texts L.length (c.node b).rounds.length)
    (fun S p t hp hpS ht => Possible.posted ht hp hpS (by rw [hL', List.length_append]; omega))
    hstart).bind fun t ht => ?_
  obtain ⟨rd, hrd, hunder⟩ := ht.round
  have hcount : countTrue servers rd.peers = servers.card :=
    congrArg Finset.card (Finset.filter_true_of_mem hunder.done)
  have hcard : 0 < servers.card := Finset.card_pos.2 ⟨b, hb⟩
  have hdone : ∀ p ∈ servers, (rd.peers p).isDone = true := by
    intro p hp
    obtain ⟨req, hreq⟩ := Future.succeeded_iff.1 (hunder.done p hp)
    exact Future.isDone_iff.2 ⟨req, _, hreq⟩
  refine .one (a := .closeRound b (c.node b).rounds.length) trivial
    (do_closeRound rfl hrd hunder.ret hdone (by rw [Node.free, ht.election]) (by omega))
    ⟨?_, fun p hp hpb => ?_, ?_, ?_, ?_⟩
  · rw [Leads, Cluster.setNode_self]
    exact ht.lead
  · rw [Cluster.setNode_of_ne _ _ hpb]
    exact ht.peer p hp hpb
  · rw [Cluster.setNode_self]
    exact ht.logs
  · rw [Cluster.setNode_self]
  · refine ⟨_, rd.close true, Nat.le_refl _, ?_, hunder.texts, rfl⟩
    rw [Cluster.setNode_self]
    exact List.getElem?_set_self (List.getElem?_eq_some_iff.1 hrd).1

end Catching

end Raft
end DistributedPrograms
