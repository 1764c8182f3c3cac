import Mathlib.Logic.Relation
import DistributedPrograms.Raft.Calls

/-!
# How a follower gets the log of its leader

The loop of `append_entries` *inserts* the entries of a request, it does not overwrite: the entries
that stood at their places move behind them (`mergedLogs`).  So an accepted request does not leave
the log it describes when it overlaps the old log, and delivering it twice leaves its entries twice.
`postcondition_iff` says when it does.

The surplus does no lasting harm, because a success sets `next_index` to the end of the leader's log
and the next heartbeat cuts the follower's log off there: `replication_converges`.

That theorem is about a leader and one of its servers, `p`, and rounds without new entries, one
after another.  A `HeartbeatRound` is such a round as the code runs it: the append of nothing, the
futures of the other servers at any time before and after the RPC to `p` (`OtherFuture`), the RPC
itself through the real handler, and the count.

* `Peer p n l f`: `l` leads, its `next_index` for `p` is `n`, and `f` does not deny its term.  The
  two logs are only asked to begin alike and to agree up to every index at which their terms are
  equal (`Matches`).
* Before the logs fit, a round is refused and moves `next_index` back by one, or it is accepted and
  the follower has the leader's log with perhaps a surplus (`Peer.round_cases`, `CaughtUp`).
* After that, a round leaves exactly the leader's log (`CaughtUp.round`).

So a follower refuses at most `next_index` rounds.  That there are as many rounds as the leader
makes is `Peer.exists_rounds`; without it the theorem could be true of no rounds at all.
-/

set_option autoImplicit false

namespace DistributedPrograms
namespace Raft

variable {A : Type}

open VariableState

/-! ## What an accepted request leaves

Two things are expected of a success: that the follower's log is what the request describes, and
that the same request can be delivered again without a difference. -/

/-- After every success the log is the part up to `prev_log_index` and then the entries.  This is
what a leader concludes from a success. -/
def Replaces (s : VariableState A) (req : AppendEntriesRequest) : Prop :=
  ∀ d₁ d₂, (appendEntries s req d₁ d₂).2 = .ok ⟨true⟩ →
    s.logs[req.prevLogIndex]?.map Log.term = some req.prevLogTerm ∧
    (appendEntries s req d₁ d₂).1.logs = s.logs.take (req.prevLogIndex + 1) ++ req.entries

/-- After every success the same request is accepted again and changes nothing.  A leader that has
lost the answer sends it again. -/
def Redelivers (s : VariableState A) (req : AppendEntriesRequest) : Prop :=
  ∀ d₁ d₂, (appendEntries s req d₁ d₂).2 = .ok ⟨true⟩ → ∀ d,
    appendEntries (appendEntries s req d₁ d₂).1 req d .ok =
      ((appendEntries s req d₁ d₂).1, .ok ⟨true⟩)

variable {s t : VariableState A} {req : AppendEntriesRequest}

theorem appendEntries_accepts (h : Accepts s req) :
    (appendEntries s req .ok .ok).2 = .ok ⟨true⟩ := by
  obtain ⟨⟨success⟩, hres⟩ := appendEntries_answers s req
  have hsuccess : success = true := (appendEntries_answer hres).1.2 h
  rw [hres, hsuccess]

/-- On a follower of the request's term the handler does not go through a term change. -/
theorem appendEntries_of_accepts (h : Accepts s req) (hrole : s.role = .follower)
    (hterm : s.currentTerm = req.term) (d : Disk A) :
    appendEntries s req d .ok =
      ({ s.stored req with file := some (s.stored req).persistent }, .ok ⟨true⟩) := by
  rw [appendEntries, if_neg (by omega), turnToFollower, if_neg (by omega), Outcome.andThen_ok,
    storeEntries_of_match _ hrole h.2.2]
  rfl

theorem Stored.getElem?_prev (h : Stored s req t) :
    t.logs[req.prevLogIndex]? = s.logs[req.prevLogIndex]? := by
  have hlt := lt_length_of_match h.accepts.2.2
  rw [h.logs, mergedLogs, List.append_assoc, List.getElem?_append_left (by simp; omega),
    List.getElem?_take_of_lt (by omega)]

/-- A node that has just accepted a request accepts it again. -/
theorem Stored.accepts_again (h : Stored s req t) : Accepts t req :=
  ⟨Nat.le_of_eq h.term, Or.inr h.role, h.getElem?_prev ▸ h.accepts.2.2⟩

theorem Stored.commitIndex_again (h : Stored s req t) :
    t.commitIndex =
      if req.leaderCommit > t.commitIndex then min req.leaderCommit (t.logs.length - 1)
      else t.commitIndex := by
  have hci := h.commitIndex
  split at hci <;> split <;> omega

/-- The second delivery moves the entries of the first one behind its own. -/
theorem Stored.mergedLogs_again (h : Stored s req t) :
    mergedLogs t.logs req = s.logs.take (req.prevLogIndex + 1) ++ req.entries ++ req.entries := by
  have hlt := lt_length_of_match h.accepts.2.2
  have hlen : (s.logs.take (req.prevLogIndex + 1)).length = req.prevLogIndex + 1 := by
    rw [List.length_take]
    omega
  have htake : t.logs.take (req.prevLogIndex + 1) = s.logs.take (req.prevLogIndex + 1) := by
    rw [h.logs, mergedLogs, List.append_assoc, List.take_left' hlen]
  have hdrop : t.logs.drop (req.prevLogIndex + 1) =
      req.entries ++ (s.logs.drop (req.prevLogIndex + 1)).take req.entries.length := by
    rw [h.logs, mergedLogs, List.append_assoc, List.drop_left' hlen]
  rw [mergedLogs, htake, hdrop, List.take_left' rfl]

theorem replaces_iff (s : VariableState A) (req : AppendEntriesRequest) :
    Replaces s req ↔
      (Accepts s req → req.entries = [] ∨ req.prevLogIndex + 1 = s.logs.length) := by
  have hmerged : ∀ logs : List Log, req.prevLogIndex < logs.length →
      (mergedLogs logs req = logs.take (req.prevLogIndex + 1) ++ req.entries ↔
        req.entries = [] ∨ req.prevLogIndex + 1 = logs.length) := by
    intro logs hlt
    rw [mergedLogs, List.append_right_eq_self, List.take_eq_nil_iff, List.length_eq_zero_iff,
      List.drop_eq_nil_iff]
    exact or_congr_right ⟨fun h => by omega, fun h => by omega⟩
  constructor
  · intro h hacc
    have hok := appendEntries_accepts hacc
    have hst := (appendEntries_spec s req .ok .ok).success ⟨true⟩ hok rfl
    exact (hmerged _ (lt_length_of_match hacc.2.2)).1 (hst.logs.symm.trans (h .ok .ok hok).2)
  · intro h d₁ d₂ hok
    have hst := (appendEntries_spec s req d₁ d₂).success ⟨true⟩ hok rfl
    refine ⟨hst.accepts.2.2, hst.logs.trans ?_⟩
    exact (hmerged _ (lt_length_of_match hst.accepts.2.2)).2 (h hst.accepts)

theorem redelivers_iff (s : VariableState A) (req : AppendEntriesRequest) :
    Redelivers s req ↔ (Accepts s req →
      (s.logs.drop (req.prevLogIndex + 1)).take req.entries.length = req.entries) := by
  have hagain : ∀ {t : VariableState A}, Stored s req t → (mergedLogs t.logs req = t.logs ↔
      (s.logs.drop (req.prevLogIndex + 1)).take req.entries.length = req.entries) := by
    intro t hst
    rw [hst.mergedLogs_again, hst.logs, mergedLogs, List.append_cancel_left_eq, eq_comm]
  constructor
  · intro h hacc
    have hok := appendEntries_accepts hacc
    have hst := (appendEntries_spec s req .ok .ok).success ⟨true⟩ hok rfl
    have hsame := h .ok .ok hok .ok
    rw [appendEntries_of_accepts hst.accepts_again hst.role hst.term] at hsame
    exact (hagain hst).1 (congrArg (fun o => o.1.logs) hsame)
  · intro h d₁ d₂ hok d
    have hst := (appendEntries_spec s req d₁ d₂).success ⟨true⟩ hok rfl
    have hfile := (appendEntries_answer hok).2 rfl
    have hlogs := (hagain hst).2 (h hst.accepts)
    rw [appendEntries_of_accepts hst.accepts_again hst.role hst.term]
    have hstored : (appendEntries s req d₁ d₂).1.stored req = (appendEntries s req d₁ d₂).1 := by
      rw [stored, hlogs, ← hst.commitIndex_again]
    rw [hstored, ← hfile]

/-- **A success keeps what it promises** for exactly the requests without entries: with entries it
is the log that is wrong, or the log after the second delivery. -/
theorem postcondition_iff (s : VariableState A) (req : AppendEntriesRequest) :
    (Replaces s req ∧ Redelivers s req) ↔ (Accepts s req → req.entries = []) := by
  rw [replaces_iff, redelivers_iff]
  constructor
  · rintro ⟨hrepl, hredel⟩ hacc
    rcases hrepl hacc with hnil | hend
    · exact hnil
    · rw [← hredel hacc, List.drop_of_length_le (Nat.le_of_eq hend.symm), List.take_nil]
  · intro h
    refine ⟨fun hacc => Or.inl (h hacc), fun hacc => ?_⟩
    rw [h hacc, List.length_nil, List.take_zero]

/-- A follower with one entry of term 1. -/
def oneEntry : VariableState Bool := ⟨.follower, none, ⟨1, none, [initLog, ⟨"a", 1⟩]⟩, 0⟩

/-- **The entries end up in the log twice**: in front of the old one, or of themselves. -/
theorem not_postcondition :
    ¬Replaces oneEntry ⟨1, 0, 0, [⟨"a", 1⟩], 0⟩ ∧ ¬Redelivers oneEntry ⟨1, 1, 1, [⟨"b", 1⟩], 0⟩ := by
  refine ⟨fun h => ?_, fun h => ?_⟩
  · exact absurd (h .ok .ok rfl).2 (by decide)
  · exact absurd (congrArg (fun o => o.1.logs) (h .ok .ok rfl .ok)) (by decide)

/-! ## Repeated rounds

`p` is a server other than the leader `me`.  The futures of the other servers run at any time before
and after the RPC to `p`. -/

variable [DecidableEq A]

/-- What the future of a server other than `p` does to the leader, before its RPC or after it. -/
inductive OtherFuture (me p : A) : VariableState A → VariableState A → Prop
  | request {s : VariableState A} {q : A} (h : q ≠ p) :
    OtherFuture me p s (sendAppendEntriesRequest me s q).1
  | reply {s : VariableState A} {q : A} (success : Bool) (h : q ≠ p) :
    OtherFuture me p s (sendAppendEntriesReply s q success).1

/-- A whole round of `send_append_entries` without new entries, from the leader in state `l` and `p`
in state `f` to the states they are in at its end, with what `p` has answered. -/
inductive HeartbeatRound (servers : Finset A) (me p : A) :
    VariableState A → VariableState A → Bool → VariableState A → VariableState A → Prop
  | mk {l l₁ l₂ l₃ l₄ l₅ f : VariableState A} {req : AppendEntriesRequest} {success : Bool}
    (count : Nat)
    (append : sendAppendEntriesAppend l [] .ok = (l₁, .ok ()))
    (before : Relation.ReflTransGen (OtherFuture me p) l₁ l₂)
    (send : sendAppendEntriesRequest me l₂ p = (l₃, .waiting req))
    (during : Relation.ReflTransGen (OtherFuture me p) l₃ l₄)
    (answer : (appendEntries f req .ok .ok).2 = .ok ⟨success⟩)
    (after : Relation.ReflTransGen (OtherFuture me p) (sendAppendEntriesReply l₄ p success).1 l₅) :
    HeartbeatRound servers me p l f success (sendAppendEntriesCommit servers l₅ count).1
      (appendEntries f req .ok .ok).1

/-- Rounds one after another, with the answers of `p`.  In between, the futures for the other
servers run, at any moment and in any number. -/
inductive HeartbeatRounds (servers : Finset A) (me p : A) :
    VariableState A → VariableState A → List Bool → VariableState A → VariableState A → Prop
  | nil {l f : VariableState A} : HeartbeatRounds servers me p l f [] l f
  | cons {l l' l'' f f' f'' : VariableState A} {success : Bool} {answers : List Bool}
    (round : HeartbeatRound servers me p l f success l' f')
    (rounds : HeartbeatRounds servers me p l' f' answers l'' f'') :
    HeartbeatRounds servers me p l f (success :: answers) l'' f''

/-- The node is leader and `n` is its `next_index` for `p`. -/
def NextIndex (p : A) (n : Nat) (l : VariableState A) : Prop :=
  ∃ next mtch, l.role = .leader next mtch ∧ next p = some n

/-- What a leader with the log and term of `l` sends to a server whose `next_index` is `n`. -/
def catchUp (l : VariableState A) (n leaderCommit : Nat) : AppendEntriesRequest :=
  ⟨l.currentTerm, n - 1, (l.logs[n - 1]?.map Log.term).getD 0, l.logs.drop (n - 1 + 1),
    leaderCommit⟩

/-- `l` is a leader whose `next_index` for `p` is in its log, and `f` the state of `p`, which does
not deny the leader's term. -/
structure Peer (p : A) (n : Nat) (l f : VariableState A) : Prop where
  next : NextIndex p n l
  le : n ≤ l.logs.length
  term : f.currentTerm ≤ l.currentTerm
  role : f.currentTerm = l.currentTerm → f.role = .follower

/-- The two logs begin alike, and agree up to every index at which their terms are equal. -/
structure Matches (logs logs' : List Log) : Prop where
  first : ∃ log, logs[0]? = some log ∧ logs'[0]? = some log
  upto : ∀ i log log', logs[i]? = some log → logs'[i]? = some log' → log.term = log'.term →
    logs.take (i + 1) = logs'.take (i + 1)

section Rounds

variable {servers : Finset A} {me p : A} {n : Nat} {l l' f f' : VariableState A} {success : Bool}

/-- The other futures leave the log, the term and the `next_index` of `p` alone. -/
theorem OtherFuture.keeps {s t : VariableState A} (h : OtherFuture me p s t) :
    t.persistent = s.persistent ∧ (NextIndex p n s → NextIndex p n t) := by
  have hupdate : ∀ (next : A → Option Nat) (q : A) (k : Option Nat), q ≠ p →
      Function.update next q k p = next p := fun next q k hq => Function.update_of_ne hq.symm _ _
  cases h with
  | @request q hq =>
    refine ⟨(sendAppendEntriesRequest_same me s q).persistent, ?_⟩
    rintro ⟨next, mtch, hrole, hnext⟩
    rw [sendAppendEntriesRequest, hrole]
    dsimp only
    split
    · next hme => exact ⟨_, _, rfl, (hupdate next me _ (hme ▸ hq)).trans hnext⟩
    · split <;> exact ⟨next, mtch, hrole, hnext⟩
  | @reply q success hq =>
    refine ⟨(sendAppendEntriesReply_same s q success).persistent, ?_⟩
    rintro ⟨next, mtch, hrole, hnext⟩
    rw [sendAppendEntriesReply, hrole]
    dsimp only
    split <;> exact ⟨_, _, rfl, (hupdate next q _ hq).trans hnext⟩

theorem others_keep {s t : VariableState A} (h : Relation.ReflTransGen (OtherFuture me p) s t) :
    t.persistent = s.persistent ∧ (NextIndex p n s → NextIndex p n t) := by
  induction h with
  | refl => exact ⟨rfl, id⟩
  | tail _ hstep ih =>
    obtain ⟨hpersistent, hnext⟩ := hstep.keeps (n := n)
    exact ⟨hpersistent.trans ih.1, fun h => hnext (ih.2 h)⟩

theorem sendAppendEntriesRequest_of_nextIndex {s : VariableState A} (h : NextIndex p n s)
    (hp : p ≠ me) :
    sendAppendEntriesRequest me s p = (s, .waiting (catchUp s n s.commitIndex)) := by
  obtain ⟨next, mtch, hrole, hnext⟩ := h
  rw [sendAppendEntriesRequest, hrole]
  dsimp only
  rw [if_neg hp, hnext]
  rfl

/-- A success moves `next_index` to the end of the log, a refusal moves it back by one. -/
theorem sendAppendEntriesReply_of_nextIndex {s : VariableState A} (h : NextIndex p n s)
    (success : Bool) :
    NextIndex p (if success then s.logs.length else n - 1) (sendAppendEntriesReply s p success).1 := by
  obtain ⟨next, mtch, hrole, hnext⟩ := h
  rw [sendAppendEntriesReply, hrole]
  cases success with
  | true => exact ⟨_, _, rfl, Function.update_self _ _ _⟩
  | false =>
    refine ⟨_, _, rfl, (Function.update_self _ _ _).trans ?_⟩
    rw [hnext, Option.map_some]
    split
    · rfl
    · next hzero => rw [Decidable.not_not.1 hzero]; rfl

omit [DecidableEq A] in
theorem sendAppendEntriesAppend_nil (h : NextIndex p n l) :
    sendAppendEntriesAppend l [] .ok = ({ l with file := some l.persistent }, .ok ()) := by
  obtain ⟨next, mtch, hrole, -⟩ := h
  rw [sendAppendEntriesAppend, hrole, if_neg (by simp)]
  simp [savePersistent, ← hrole]

omit [DecidableEq A] in
theorem commit_keeps (servers : Finset A) (count : Nat) (s : VariableState A) :
    (sendAppendEntriesCommit servers s count).1.persistent = s.persistent ∧
      (NextIndex p n s → NextIndex p n (sendAppendEntriesCommit servers s count).1) := by
  rw [sendAppendEntriesCommit]
  split
  · exact ⟨rfl, id⟩
  · exact ⟨rfl, id⟩

/-- **The leader's side of a round**: its request to `p`, and what the answer does to it. -/
theorem HeartbeatRound.leader (h : HeartbeatRound servers me p l f success l' f')
    (hnext : NextIndex p n l) (hp : p ≠ me) :
    l'.persistent = l.persistent ∧ NextIndex p (if success then l.logs.length else n - 1) l' ∧
    ∃ leaderCommit, (appendEntries f (catchUp l n leaderCommit) .ok .ok).2 = .ok ⟨success⟩ ∧
      f' = (appendEntries f (catchUp l n leaderCommit) .ok .ok).1 := by
  obtain ⟨count, happend, hbefore, hsend, hduring, hanswer, hafter⟩ := h
  next l₁ l₂ l₃ l₄ l₅ req =>
  rw [sendAppendEntriesAppend_nil hnext] at happend
  obtain ⟨⟩ := happend
  obtain ⟨hlogs₂, hnext₂⟩ := others_keep (n := n) hbefore
  replace hlogs₂ : l₂.persistent = l.persistent := hlogs₂
  replace hnext₂ := hnext₂ hnext
  rw [sendAppendEntriesRequest_of_nextIndex hnext₂ hp, catchUp, currentTerm, logs, hlogs₂] at hsend
  obtain ⟨⟩ := hsend
  obtain ⟨hlogs₄, hnext₄⟩ := others_keep (n := n) hduring
  have hreply := sendAppendEntriesReply_of_nextIndex (hnext₄ hnext₂) success
  have hlogs := (sendAppendEntriesReply_same l₄ p success).persistent.trans (hlogs₄.trans hlogs₂)
  rw [logs, hlogs₄, hlogs₂] at hreply
  obtain ⟨hlogs₅, hnext₅⟩ := others_keep hafter
  obtain ⟨hlogs', hnext'⟩ := commit_keeps servers count l₅
  exact ⟨hlogs'.trans (hlogs₅.trans hlogs), hnext' (hnext₅ hreply), l₂.commitIndex, hanswer, rfl⟩

/-- **One round**: `p` stores the leader's log from `next_index` on, or refuses. -/
theorem Peer.round (h : Peer p n l f) (hp : p ≠ me)
    (hround : HeartbeatRound servers me p l f success l' f') :
    l'.persistent = l.persistent ∧
    Peer p (if success then l.logs.length else n - 1) l' f' ∧
    ∃ leaderCommit, (success = true ↔ Accepts f (catchUp l n leaderCommit)) ∧
      f'.logs = if success then mergedLogs f.logs (catchUp l n leaderCommit) else f.logs := by
  obtain ⟨hlogs, hnext, leaderCommit, hanswer, rfl⟩ := hround.leader h.next hp
  have hspec := appendEntries_spec f (catchUp l n leaderCommit) .ok .ok
  have hiff := (appendEntries_answer hanswer).1
  have hlength : l'.logs.length = l.logs.length := congrArg (fun q => q.logs.length) hlogs
  have hterm' : l'.currentTerm = l.currentTerm := congrArg Persistent.currentTerm hlogs
  refine ⟨hlogs, ⟨hnext, ?_, ?_, fun hterm => ?_⟩, leaderCommit, hiff, ?_⟩
  · have hle := h.le
    split <;> omega
  · rw [hterm']
    rcases hspec.role_term with ⟨-, hterm⟩ | ⟨-, hterm, -⟩
    · exact Nat.le_trans (Nat.le_of_eq hterm) h.term
    · exact Nat.le_of_eq hterm
  · rcases hspec.role_term with ⟨hrole, hsame⟩ | ⟨hrole, -, -⟩
    · exact hrole.trans (h.role (hsame.symm.trans (hterm.trans hterm')))
    · exact hrole
  · cases success with
    | true => exact (hspec.success _ hanswer rfl).logs
    | false =>
      rcases hspec.stored with hkept | hst
      · exact hkept.1
      · exact absurd (hiff.2 hst.accepts) Bool.false_ne_true

omit [DecidableEq A] in
/-- `p` accepts when it has an entry of the same term where the leader looks. -/
theorem Peer.accepts_iff (h : Peer p n l f) (hlt : n - 1 < l.logs.length) (leaderCommit : Nat) :
    Accepts f (catchUp l n leaderCommit) ↔
      f.logs[n - 1]?.map Log.term = l.logs[n - 1]?.map Log.term := by
  rw [Accepts, catchUp, List.getElem?_eq_getElem hlt, Option.map_some, Option.getD_some]
  refine ⟨fun ⟨_, _, hmatch⟩ => hmatch, fun hmatch => ⟨h.term, ?_, hmatch⟩⟩
  rcases Nat.lt_or_eq_of_le h.term with hlt | heq
  · exact Or.inl hlt
  · exact Or.inr (h.role heq)

omit [DecidableEq A] in
/-- Where the logs agree up to `next_index`, the follower gets the leader's log, with as many of its
old entries behind it as were sent. -/
theorem mergedLogs_catchUp {logs' : List Log} (h : l.logs.take (n - 1 + 1) = logs'.take (n - 1 + 1))
    (leaderCommit : Nat) : mergedLogs logs' (catchUp l n leaderCommit) =
      l.logs ++ (logs'.drop (n - 1 + 1)).take (l.logs.length - (n - 1 + 1)) := by
  rw [mergedLogs, catchUp, ← h, List.take_append_drop, List.length_drop]

/-- A follower that has the leader's log, and perhaps something behind it. -/
structure CaughtUp (p : A) (l f : VariableState A) : Prop where
  peer : Peer p l.logs.length l f
  ne_nil : l.logs ≠ []
  logs : l.logs <+: f.logs

/-- **The next round cuts the surplus off.** -/
theorem CaughtUp.round (h : CaughtUp p l f) (hp : p ≠ me)
    (hround : HeartbeatRound servers me p l f success l' f') :
    success = true ∧ l'.logs = l.logs ∧ f'.logs = l.logs ∧ CaughtUp p l' f' := by
  have hpos : 0 < l.logs.length := List.length_pos_iff.2 h.ne_nil
  have hend : l.logs.length - 1 + 1 = l.logs.length := by omega
  obtain ⟨rest, hrest⟩ := h.logs
  obtain ⟨hkept, hpeer, leaderCommit, hiff, hf'⟩ := h.peer.round hp hround
  have hsame : l'.logs = l.logs := congrArg Persistent.logs hkept
  have hsuccess : success = true := by
    rw [hiff, h.peer.accepts_iff (by omega), ← hrest, List.getElem?_append_left (by omega)]
  rw [if_pos hsuccess] at hpeer hf'
  have htake : l.logs.take (l.logs.length - 1 + 1) = f.logs.take (l.logs.length - 1 + 1) := by
    rw [hend, ← hrest, List.take_length, List.take_left]
  rw [mergedLogs_catchUp htake, hend, Nat.sub_self, List.take_zero, List.append_nil] at hf'
  refine ⟨hsuccess, hsame, hf', ⟨hsame ▸ hpeer, hsame ▸ h.ne_nil, ?_⟩⟩
  rw [hsame, hf']

/-- **A round before the logs fit** is refused and moves `next_index` back, or it catches up. -/
theorem Peer.round_cases (h : Peer p n l f) (hmatch : Matches l.logs f.logs) (hp : p ≠ me)
    (hround : HeartbeatRound servers me p l f success l' f') :
    l'.logs = l.logs ∧ (success = true ∧ CaughtUp p l' f' ∨
      success = false ∧ 0 < n ∧ f'.logs = f.logs ∧ Peer p (n - 1) l' f') := by
  obtain ⟨first, hfirst, hfirst'⟩ := hmatch.first
  have hpos : 0 < l.logs.length := (List.getElem?_eq_some_iff.1 hfirst).1
  have hlt : n - 1 < l.logs.length := by
    have := h.le
    omega
  obtain ⟨hkept, hpeer, leaderCommit, hiff, hf'⟩ := h.round hp hround
  have hsame : l'.logs = l.logs := congrArg Persistent.logs hkept
  refine ⟨hsame, ?_⟩
  rw [h.accepts_iff hlt] at hiff
  cases success with
  | true =>
    rw [if_pos rfl] at hpeer hf'
    obtain ⟨log', hlog', hterm⟩ := Option.map_eq_some_iff.1
      ((hiff.1 rfl).trans (by rw [List.getElem?_eq_getElem hlt, Option.map_some]))
    have htake := hmatch.upto (n - 1) _ log' (List.getElem?_eq_getElem hlt) hlog' hterm.symm
    rw [mergedLogs_catchUp htake] at hf'
    refine Or.inl ⟨rfl, ⟨hsame ▸ hpeer, hsame ▸ List.length_pos_iff.1 hpos, ?_⟩⟩
    rw [hsame, hf']
    exact List.prefix_append _ _
  | false =>
    refine Or.inr ⟨rfl, Nat.pos_of_ne_zero ?_, hf', hpeer⟩
    rintro rfl
    exact absurd (hiff.2 (by rw [hfirst, hfirst'])) Bool.false_ne_true

theorem CaughtUp.rounds {answers : List Bool} (h : CaughtUp p l f) (hp : p ≠ me)
    (hrounds : HeartbeatRounds servers me p l f answers l' f') :
    l'.logs = l.logs ∧ (∀ b ∈ answers, b = true) ∧ (answers ≠ [] → f'.logs = l.logs) := by
  induction hrounds with
  | nil => exact ⟨rfl, fun b hb => absurd hb (by simp), fun hne => absurd rfl hne⟩
  | cons round rounds ih =>
    obtain ⟨hsuccess, hl, hf, hcaught⟩ := h.round hp round
    obtain ⟨hlogs, hall, hf'⟩ := ih hcaught
    refine ⟨hlogs.trans hl, List.forall_mem_cons.2 ⟨hsuccess, hall⟩, fun _ => ?_⟩
    cases rounds with
    | nil => exact hf
    | cons => exact (hf' (by simp)).trans hl

theorem Peer.rounds {answers : List Bool} (h : Peer p n l f) (hmatch : Matches l.logs f.logs)
    (hp : p ≠ me) (hrounds : HeartbeatRounds servers me p l f answers l' f') :
    l'.logs = l.logs ∧ ∃ j ≤ n, (∀ i b, answers[i]? = some b → (b = false ↔ i < j)) ∧
      (j + 2 ≤ answers.length → f'.logs = l.logs) := by
  induction hrounds generalizing n with
  | nil => exact ⟨rfl, 0, Nat.zero_le n, fun i b hb => absurd hb (by simp), fun h => absurd h (by simp)⟩
  | @cons l l₁ l₂ f f₁ f₂ success answers round rounds ih =>
    obtain ⟨hl, ⟨rfl, hcaught⟩ | ⟨rfl, hpos, hf, hpeer⟩⟩ := h.round_cases hmatch hp round
    · obtain ⟨hlogs, hall, hf'⟩ := hcaught.rounds hp rounds
      refine ⟨hlogs.trans hl, 0, Nat.zero_le n, fun i b hb => ?_, fun hlen => ?_⟩
      · rcases List.mem_cons.1 (List.mem_of_getElem? hb) with rfl | hb
        · simp
        · simp [hall b hb]
      · refine (hf' ?_).trans hl
        rintro rfl
        simp at hlen
    · obtain ⟨hlogs, j, hj, hanswers, hf'⟩ := ih hpeer (hl.symm ▸ hf.symm ▸ hmatch)
      refine ⟨hlogs.trans hl, j + 1, by omega, fun i b hb => ?_, fun hlen => ?_⟩
      · cases i with
        | zero =>
          obtain ⟨⟩ := hb
          simp
        | succ i => rw [hanswers i b hb, Nat.add_lt_add_iff_right]
      · refine (hf' ?_).trans hl
        rw [List.length_cons] at hlen
        omega

/-- The rounds go on for as long as the leader makes them. -/
theorem Peer.exists_rounds (h : Peer p n l f) (hp : p ≠ me) (k : Nat) :
    ∃ answers l' f', answers.length = k ∧ HeartbeatRounds servers me p l f answers l' f' := by
  induction k generalizing n l f with
  | zero => exact ⟨[], l, f, rfl, .nil⟩
  | succ k ih =>
    obtain ⟨⟨success⟩, hanswer⟩ := appendEntries_answers f (catchUp l n l.commitIndex)
    have hround : HeartbeatRound servers me p l f success _ _ :=
      .mk 0 (sendAppendEntriesAppend_nil h.next) .refl
        (sendAppendEntriesRequest_of_nextIndex (s := { l with file := some l.persistent }) h.next hp)
        .refl hanswer .refl
    obtain ⟨-, hpeer, -⟩ := h.round hp hround
    obtain ⟨answers, l', f', hlen, hrounds⟩ := ih hpeer
    exact ⟨success :: answers, l', f', congrArg Nat.succ hlen, .cons hround hrounds⟩

/-- **Replication converges**: a follower refuses at most `next_index` rounds, then accepts, and
from the round after that on it has exactly the leader's log. -/
theorem replication_converges (servers : Finset A) (me : A) (hp : p ≠ me) (h : Peer p n l f)
    (hmatch : Matches l.logs f.logs) :
    (∀ k, ∃ answers l' f', answers.length = k ∧
      HeartbeatRounds servers me p l f answers l' f') ∧
    ∀ answers l' f', HeartbeatRounds servers me p l f answers l' f' →
      l'.logs = l.logs ∧ ∃ j ≤ n, (∀ i b, answers[i]? = some b → (b = false ↔ i < j)) ∧
        (j + 2 ≤ answers.length → f'.logs = l.logs) :=
  ⟨h.exists_rounds hp, fun _ _ _ hrounds => h.rounds hmatch hp hrounds⟩

end Rounds

/-- A leader of term 2 that has just been elected. -/
def newLeader : VariableState Bool :=
  ⟨.leader (fun _ => some 2) fun _ => some 0, none, ⟨2, none, [initLog, ⟨"a", 1⟩, ⟨"b", 2⟩]⟩, 0⟩

/-- A follower with two entries that the leader does not have. -/
def divergent : VariableState Bool :=
  ⟨.follower, none, ⟨1, none, [initLog, ⟨"a", 1⟩, ⟨"c", 1⟩, ⟨"d", 1⟩]⟩, 0⟩

/-- Four rounds bring the divergent follower to the leader's log. -/
theorem replication_converges_divergent :
    ∃ answers l' f', answers.length = 4 ∧
      HeartbeatRounds Finset.univ false true newLeader divergent answers l' f' ∧
      f'.logs = newLeader.logs := by
  have hpeer : Peer true 2 newLeader divergent :=
    ⟨⟨_, _, rfl, rfl⟩, by decide, by decide, fun h => absurd h (by decide)⟩
  have hmatch : Matches newLeader.logs divergent.logs := by
    refine ⟨⟨initLog, rfl, rfl⟩, fun i log log' hlog hlog' hterm => ?_⟩
    match i with
    | 0 => rfl
    | 1 => rfl
    | 2 =>
      obtain ⟨⟩ := hlog
      obtain ⟨⟩ := hlog'
      contradiction
    | i + 3 => contradiction
  obtain ⟨hexists, hconverges⟩ :=
    replication_converges Finset.univ false (by decide) hpeer hmatch
  obtain ⟨answers, l', f', hlen, hrounds⟩ := hexists 4
  obtain ⟨-, j, hj, -, hf'⟩ := hconverges answers l' f' hrounds
  exact ⟨answers, l', f', hlen, hrounds, hf' (by omega)⟩

end Raft
end DistributedPrograms
