import DistributedPrograms.Lib.Sweep
import DistributedPrograms.Ring.Crashes

/-!
# A ring whose nodes crash one after the other

`ring_recovered` and `repaired_iff` begin when the crashes are over.  Here nodes crash at any
moment, and what they have sent may be handled long after (`Crashing.step`).

What the survivors know of the ring gets out of date, but only in one way: lists contain nodes that
are dead by now, and lack nodes that were dead when the token came past.  So

* every cache is a walk around the *original* ring without some dead nodes (`Listed`, a `Sweep`);
* every token has met all live nodes that it came past (`Met`), and a `coordinate` is about all of
  them (`TokenOk`), also a token that its sender has left behind (`OrphanOk`);
* every `prev` skips dead nodes only (`Ahead`), and a search ends at the first live node
  (`ahead_of_candidate`).

`HealInv` puts these together; it survives the loss of any node and every step of a send, a recovery
or an announcement.  Wherever `prev` is alive it is therefore the right one, and once all are, the
survivors form one ring by `prev`, in the old order.

With `next` it is different.  A node looks after its `prev` only, and what `next` of a live node is
depends on which `set_next` came last.  `LeadsBack` says that `prev` of a live node leads back to
it.  Every step keeps it but one: when a node finds its new `prev`, calls `set_next` there and
crashes, the call may be handled after the node behind it has linked itself to the same `prev`, and
then `next` is at a dead node for good (`late_set_next`).  In runs in which no live node handles a
`set_next` of a crashed one the survivors are a doubly linked ring (`self_healing`).
-/

set_option autoImplicit false

namespace DistributedPrograms
namespace Ring
namespace Crashing

open SocketAddr Recovery

variable {A : Type} [SocketAddr A]

/-! ## The invariant

Each notion is about the nodes that are alive now, and stays true as they become fewer.  The
original order `f` is never changed: all pointers and lists are compared with it. -/

variable {f : A → A} {ring : List A} {alive alive' : A → Bool} {c c' : Sending A} {a b p : A}
  {t : Sender A} {i : Nat}

/-- The addresses of a walk around the original ring with every live node on it.  Nodes that have
died since may be on it too, which a search passes over. -/
def Listed (f : A → A) (ring : List A) (alive : A → Bool) (addresses : List String) : Prop :=
  ∃ names, addresses = names.map SocketAddr.toString ∧ Sweep f (fun x => alive x) ring names

/-- Nothing has been announced to the owner of the cache yet, or such a list has. -/
def CacheOk (f : A → A) (ring : List A) (alive : A → Bool) (cache : List String) : Prop :=
  cache = [] ∨ Listed f ring alive cache

/-- The addresses of a walk that has come to `me` and met all live nodes it came past. -/
def Met (f : A → A) (ring : List A) (alive : A → Bool) (me : A) (addresses : List String) : Prop :=
  ∃ names, addresses = names.map SocketAddr.toString ∧ Gathers f (fun x => alive x) ring me names

/-- What holds of a token that `me` sends.  A `coordinate` round is about all live nodes, and the
other two collect them. -/
def TokenOk (f : A → A) (ring : List A) (alive : A → Bool) (me : A) : Token → Prop
  | .list addresses | .election addresses => Met f ring alive me addresses
  | .coordinate addresses read =>
    (∀ b ∈ ring, alive b → toString b ∈ addresses) ∧ Met f ring alive me read

/-- What holds of a sender at a stage. -/
def StageOk (f : A → A) (alive : A → Bool) (t : Sender A) : Stage A → Prop
  | .connected dest => Ahead f (fun x => alive x) t.me dest
  | .searching myIdx i => Node.myIdxInMemberCache t.memberCache t.me = some myIdx ∧
      ∀ j < i, ∀ p, Node.candidate t.memberCache myIdx j = some p → alive p = false
  | .linked p => Ahead f (fun x => alive x) t.me p
  | .spawned | .done _ => True

structure SenderOk (f : A → A) (ring : List A) (alive : A → Bool) (t : Sender A) : Prop where
  mem : t.me ∈ ring
  live : alive t.me
  cache : CacheOk f ring alive t.memberCache
  token : TokenOk f ring alive t.me t.token
  stage : StageOk f alive t t.stage

/-- What holds of a request that its sender has left behind.  A token has been with a node of the
ring, dead by now, to which its receiver is the next live one, or is dead too. -/
def OrphanOk (f : A → A) (ring : List A) (alive : A → Bool) : Orphan A → Prop
  | .send dest token =>
    ∃ me ∈ ring, TokenOk f ring alive me token ∧ Ahead f (fun x => alive x) me dest
  | .setNext _ _ => True

/-- The invariant of a ring whose original order is `f`, but for `next`.  The way from a live node
to its `prev` skips nobody alive; the `prev` itself may be dead, and then it is the next to be
repaired. -/
structure HealInv (f : A → A) (ring : List A) (alive : A → Bool) (c : Sending A) : Prop where
  prev : ∀ a ∈ ring, alive a → Ahead f (fun x => alive x) a (c.prev a)
  cache : ∀ a, CacheOk f ring alive (c.node a).ringCache
  sender : ∀ t ∈ c.senders, SenderOk f ring alive t
  announcing : ∀ q ∈ c.announcing, Listed f ring alive q.2

/-- The invariant together with the requests that crashed nodes have left behind.  A token among
them is as good as any other, and a `set_next` writes no `prev`. -/
structure Healing (f : A → A) (ring : List A) (s : Crashing A) : Prop where
  sending : HealInv f ring s.alive s.sending
  orphans : ∀ r ∈ s.orphans, OrphanOk f ring s.alive r

/-- `prev` leads back, and whoever is about to write a `prev` has a `next` there already.  Late
`set_next` requests can end this, and nothing else does. -/
structure LeadsBack (ring : List A) (alive : A → Bool) (c : Sending A) : Prop where
  next : ∀ a ∈ ring, alive a → alive (c.prev a) → (c.node (c.prev a)).connection.next = a
  linked : ∀ t ∈ c.senders, ∀ p, t.stage = .linked p → alive p →
    (c.node p).connection.next = t.me

/-! ## Fewer live nodes

A crash changes nothing but who is alive.  One `mono` lemma for each notion of the invariant, from
those of the library on sweeps. -/

section Fewer

variable (hle : ∀ x, alive' x → alive x)
include hle

theorem Listed.mono {addresses : List String} (h : Listed f ring alive addresses) :
    Listed f ring alive' addresses := by
  obtain ⟨names, rfl, hsweep⟩ := h
  exact ⟨names, rfl, hsweep.mono hle⟩

theorem CacheOk.mono {cache : List String} (h : CacheOk f ring alive cache) :
    CacheOk f ring alive' cache :=
  h.imp_right (Listed.mono hle)

theorem Met.mono {me : A} {addresses : List String} (h : Met f ring alive me addresses) :
    Met f ring alive' me addresses := by
  obtain ⟨names, rfl, hgathers⟩ := h
  exact ⟨names, rfl, hgathers.mono hle⟩

theorem TokenOk.mono {me : A} {token : Token} (h : TokenOk f ring alive me token) :
    TokenOk f ring alive' me token := by
  cases token with
  | list addresses | election addresses => exact Met.mono hle h
  | coordinate addresses read => exact ⟨fun b hb hl => h.1 b hb (hle b hl), h.2.mono hle⟩

theorem StageOk.mono {s : Stage A} (h : StageOk f alive t s) : StageOk f alive' t s := by
  cases s with
  | spawned => trivial
  | connected dest | linked dest =>
    have hahead : Ahead f (fun x => alive x) t.me dest := h
    exact hahead.mono hle
  | searching myIdx i =>
    refine ⟨h.1, fun j hj p hp => ?_⟩
    have hdead := h.2 j hj p hp
    exact Bool.eq_false_iff.2 fun hl => absurd (hle p hl) (by rw [hdead]; simp)
  | done failed => trivial

theorem SenderOk.mono (h : SenderOk f ring alive t) (hl : alive' t.me) :
    SenderOk f ring alive' t :=
  ⟨h.mem, hl, h.cache.mono hle, h.token.mono hle, h.stage.mono hle⟩

theorem OrphanOk.mono {r : Orphan A} (h : OrphanOk f ring alive r) : OrphanOk f ring alive' r := by
  cases r with
  | send dest token =>
    obtain ⟨me, hme, htoken, hahead⟩ := h
    exact ⟨me, hme, htoken.mono hle, hahead.mono hle⟩
  | setNext dest me => trivial

theorem HealInv.mono (h : HealInv f ring alive c) (hme : ∀ t ∈ c.senders, alive' t.me) :
    HealInv f ring alive' c where
  prev a ha hl := (h.prev a ha (hle a hl)).mono hle
  cache a := (h.cache a).mono hle
  sender t ht := (h.sender t ht).mono hle (hme t ht)
  announcing q hq := (h.announcing q hq).mono hle

end Fewer

/-! ## Searches

The cache of a node, and what is found by going through it. -/

/-- **The first live candidate of a search** is the first live node behind the searching one. -/
theorem ahead_of_candidate (hcycle : CycleOn f ring) {cache : List String} {myIdx : Nat}
    (hcache : CacheOk f ring alive cache)
    (hidx : Node.myIdxInMemberCache cache a = some myIdx)
    (hdead : ∀ j < i, ∀ q, Node.candidate cache myIdx j = some q → alive q = false)
    (hi : i < cache.length) (hp : Node.candidate cache myIdx i = some p) :
    Ahead f (fun x => alive x) a p := by
  rcases hcache with rfl | ⟨names, rfl, hsweep⟩
  · exact absurd hi (Nat.not_lt_zero _)
  obtain ⟨hlt, hfound, -⟩ := List.findIdx?_eq_some_iff_getElem.1 hidx
  rw [List.length_map] at hlt hi
  have ha : names[myIdx]? = some a := by
    rw [List.getElem_map, beq_iff_eq, toString_inj] at hfound
    rw [List.getElem?_eq_getElem hlt, hfound]
  have hcandidate : ∀ j q, Node.candidate (names.map SocketAddr.toString) myIdx j = some q ↔
      names[(myIdx + j + 1) % names.length]? = some q := by
    intro j q
    rw [Node.candidate, List.length_map, List.getElem?_map]
    cases names[(myIdx + j + 1) % names.length]? <;> simp
  exact hsweep.ahead hcycle ha hi ((hcandidate i p).1 hp) fun j hj y hy hl => by
    rw [hdead j hj y ((hcandidate j y).2 hy)] at hl
    cases hl

/-- **The loop cannot run out of candidates**: the last one is the searching node. -/
theorem lt_length_of_dead {cache : List String} {myIdx : Nat}
    (hidx : Node.myIdxInMemberCache cache a = some myIdx)
    (hdead : ∀ j < i, ∀ q, Node.candidate cache myIdx j = some q → alive q = false)
    (hl : alive a) : i < cache.length := by
  obtain ⟨hpos, hself⟩ := Sending.candidate_self hidx
  by_contra hge
  have hme := hdead (cache.length - 1) (by omega) a hself
  rw [hl] at hme
  cases hme

/-! ## Steps that write no `prev`

They keep the invariant for a reason that has nothing to do with order. -/

theorem HealInv.of_prev (h : HealInv f ring alive c) (hprev : ∀ a, c'.prev a = c.prev a)
    (hcache : ∀ a, CacheOk f ring alive (c'.node a).ringCache)
    (hsender : ∀ t ∈ c'.senders, SenderOk f ring alive t)
    (hannouncing : ∀ q ∈ c'.announcing, Listed f ring alive q.2) : HealInv f ring alive c' where
  prev a ha hl := by
    rw [hprev]
    exact h.prev a ha hl
  cache := hcache
  sender := hsender
  announcing := hannouncing

theorem HealInv.senderOk (h : HealInv f ring alive c) (ht : c.senders[i]? = some t) :
    SenderOk f ring alive t :=
  h.sender t (List.mem_of_getElem? ht)

theorem HealInv.stageOk (h : HealInv f ring alive c) (ht : c.senders[i]? = some t) {s : Stage A}
    (hs : t.stage = s) : StageOk f alive t s :=
  hs ▸ (h.senderOk ht).stage

theorem SenderOk.setStage {s : Stage A} (h : SenderOk f ring alive t)
    (hs : StageOk f alive t s) : SenderOk f ring alive { t with stage := s } := by
  refine ⟨h.mem, h.live, h.cache, h.token, ?_⟩
  cases s <;> exact hs

theorem HealInv.setStage {s : Stage A} (h : HealInv f ring alive c)
    (ht : c.senders[i]? = some t) (hs : StageOk f alive t s) :
    HealInv f ring alive (c.setStage i t s) := by
  refine h.of_prev (fun _ => rfl) h.cache (fun t' ht' => ?_) h.announcing
  rcases Sending.mem_setStage ht' with hold | rfl
  · exact h.sender t' hold
  · exact (h.senderOk ht).setStage hs

/-- A search begins, or a failure is only logged. -/
theorem stageOk_followUp : StageOk f alive t t.followUp := by
  rw [Sender.followUp]
  split
  · split
    · next myIdx hidx => exact ⟨hidx, fun j hj => absurd hj (Nat.not_lt_zero j)⟩
    · trivial
  · trivial

theorem HealInv.spawn (h : HealInv f ring alive c) {ts : List (Sender A)}
    (hts : ∀ t ∈ ts, SenderOk f ring alive t) :
    HealInv f ring alive { c with senders := c.senders ++ ts } := by
  refine h.of_prev (fun _ => rfl) h.cache (fun t ht => ?_) h.announcing
  exact (List.mem_append.1 ht).elim (h.sender t) (hts t)

/-! ## Tokens

A token that goes on has met one node more; one that stops has come around, and what it lists is
announced or sent on as a `coordinate` round. -/

section Met

variable {me dest : A} {addresses : List String}

theorem met_self (hcycle : CycleOn f ring) (ha : a ∈ ring) : Met f ring alive a [toString a] :=
  ⟨[a], rfl, gathers_self hcycle ha⟩

theorem Met.relay (h : Met f ring alive me addresses) (hcycle : CycleOn f ring)
    (hahead : Ahead f (fun x => alive x) me dest) (hl : alive dest)
    (hnew : toString dest ∉ addresses) : Met f ring alive dest (addresses ++ [toString dest]) := by
  obtain ⟨names, rfl, hgathers⟩ := h
  rw [toString_mem_map] at hnew
  exact ⟨names ++ [dest], by simp, hgathers.relay hcycle hahead hl hnew⟩

theorem Met.stop (h : Met f ring alive me addresses) (hcycle : CycleOn f ring)
    (hahead : Ahead f (fun x => alive x) me dest) (hvisit : toString dest ∈ addresses) :
    Listed f ring alive addresses := by
  obtain ⟨names, rfl, hgathers⟩ := h
  rw [toString_mem_map] at hvisit
  exact ⟨names, rfl, hgathers.stop hcycle hahead hvisit⟩

theorem Met.mem (h : Met f ring alive me addresses) (hcycle : CycleOn f ring) : me ∈ ring := by
  obtain ⟨names, -, hgathers⟩ := h
  exact hgathers.mem hcycle

end Met

theorem Listed.toString_mem {addresses : List String} (h : Listed f ring alive addresses)
    (ha : a ∈ ring) (hl : alive a) : toString a ∈ addresses := by
  obtain ⟨names, rfl, hsweep⟩ := h
  exact toString_mem_map.2 (hsweep.complete a ha hl)

theorem senderOk_coordinatorWatcher (hcycle : CycleOn f ring) (ha : a ∈ ring) (hl : alive a) :
    SenderOk f ring alive (.coordinatorWatcher a) :=
  ⟨ha, hl, Or.inl rfl, met_self hcycle ha, trivial⟩

theorem senderOk_coordinate (hcycle : CycleOn f ring) (ha : a ∈ ring) (hl : alive a) :
    SenderOk f ring alive (.coordinate a) :=
  ⟨ha, hl, Or.inl rfl, met_self hcycle ha, trivial⟩

/-- What a live node sends for a token that it gets: the token with one more node, or the
announcement of a walk that has come around. -/
theorem handle_ok (hcycle : CycleOn f ring) {n : Node A} {dest me : A} {token : Token}
    (htoken : TokenOk f ring alive me token) (hahead : Ahead f (fun x => alive x) me dest)
    (hl : alive dest) {m : Message A} (hm : m ∈ (n.handle dest token).2) :
    (∀ d token', m = .token d token' → TokenOk f ring alive dest token') ∧
      ∀ rest addresses, m = .announce rest addresses → Listed f ring alive addresses := by
  cases token with
  | list addresses =>
    have hmet : Met f ring alive me addresses := htoken
    rw [Node.handle] at hm
    split at hm
    · next hnew =>
      rw [List.mem_singleton.1 hm]
      refine ⟨fun d token' heq => ?_, fun rest addresses heq => by cases heq⟩
      cases heq
      exact hmet.relay hcycle hahead hl hnew
    · next hvisit =>
      rw [List.mem_singleton.1 hm]
      refine ⟨fun d token' heq => by (cases heq), fun rest addresses heq => ?_⟩
      cases heq
      exact hmet.stop hcycle hahead (not_not.1 hvisit)
  | election addresses =>
    have hmet : Met f ring alive me addresses := htoken
    rw [Node.handle] at hm
    split at hm
    · next hnew =>
      rw [List.mem_singleton.1 hm]
      refine ⟨fun d token' heq => ?_, fun rest addresses heq => by cases heq⟩
      cases heq
      exact hmet.relay hcycle hahead hl hnew
    · next hvisit =>
      have hlisted := hmet.stop hcycle hahead (not_not.1 hvisit)
      rw [List.mem_singleton.1 hm]
      refine ⟨fun d token' heq => ?_, fun rest addresses heq => by cases heq⟩
      cases heq
      exact ⟨fun b hb hlb => hlisted.toString_mem hb hlb,
        met_self hcycle (hahead.mem hcycle (hmet.mem hcycle))⟩
  | coordinate addresses read =>
    obtain ⟨hall, hmet⟩ := htoken
    rw [Node.handle] at hm
    split at hm
    · next hnew =>
      rw [List.mem_singleton.1 hm]
      refine ⟨fun d token' heq => ?_, fun rest addresses heq => by cases heq⟩
      cases heq
      exact ⟨hall, hmet.relay hcycle hahead hl hnew⟩
    · cases hm

variable [DecidableEq A]

theorem deliver_connection (c : Sending A) (dest : A) (token : Token) (a : A) :
    ((c.deliver dest token).node a).connection = (c.node a).connection := by
  show (Function.update c.node dest ((c.node dest).handle dest token).1 a).connection = _
  by_cases ha : a = dest
  · rw [ha, Function.update_self, (Sending.handle_keeps (c.node dest) dest token).1]
  · rw [Function.update_of_ne ha]

theorem deliver_ringCache (c : Sending A) (dest : A) (token : Token) (a : A) :
    ((c.deliver dest token).node a).ringCache = (c.node a).ringCache := by
  show (Function.update c.node dest ((c.node dest).handle dest token).1 a).ringCache = _
  by_cases ha : a = dest
  · rw [ha, Function.update_self, (Sending.handle_keeps (c.node dest) dest token).2]
  · rw [Function.update_of_ne ha]

/-- **A token arrives** at a live node. -/
theorem HealInv.deliver (h : HealInv f ring alive c) (hcycle : CycleOn f ring) {me dest : A}
    {token : Token} (hme : me ∈ ring) (htoken : TokenOk f ring alive me token)
    (hahead : Ahead f (fun x => alive x) me dest) (hl : alive dest) :
    HealInv f ring alive (c.deliver dest token) := by
  refine h.of_prev (fun a => congrArg Connection.prev (deliver_connection c dest token a))
    (fun a => ?_) (fun t ht => ?_) (fun q hq => ?_)
  · rw [deliver_ringCache]
    exact h.cache a
  · rcases List.mem_append.1 ht with hold | hnew
    · exact h.sender t hold
    · obtain ⟨m, hm, hrelay⟩ := List.mem_filterMap.1 hnew
      have hsent := (handle_ok hcycle htoken hahead hl hm).1
      cases m with
      | token d token' =>
        obtain rfl := Option.some.inj hrelay
        exact ⟨hahead.mem hcycle hme, hl, h.cache dest, hsent d token' rfl, trivial⟩
      | announce rest addresses => cases hrelay
  · rcases List.mem_append.1 hq with hold | hnew
    · exact h.announcing q hold
    · obtain ⟨m, hm, hann⟩ := List.mem_filterMap.1 hnew
      have hsent := (handle_ok hcycle htoken hahead hl hm).2
      cases m with
      | token d token' => cases hann
      | announce rest addresses =>
        obtain rfl := Option.some.inj hann
        exact hsent rest addresses rfl

/-! ## Recoveries

A search writes twice: the `next` of the live node that it has found, and then the `prev` of its own
node. -/

omit [SocketAddr A] in
theorem setNode_node (c : Sending A) (a b : A) (n : Node A) :
    (c.setNode a n).node b = if b = a then n else c.node b :=
  Function.update_apply ..

theorem HealInv.setNode (h : HealInv f ring alive c) {n : Node A}
    (hprev : a ∈ ring → alive a → Ahead f (fun x => alive x) a n.connection.prev)
    (hcache : CacheOk f ring alive n.ringCache) : HealInv f ring alive (c.setNode a n) := by
  refine ⟨fun b hb hl => ?_, fun b => ?_, h.sender, h.announcing⟩
  · show Ahead f _ b ((c.setNode a n).node b).connection.prev
    rw [setNode_node]
    split
    · next hba =>
      subst hba
      exact hprev hb hl
    · exact h.prev b hb hl
  · rw [setNode_node]
    split
    · exact hcache
    · exact h.cache b

/-- **`set_next`** writes no `prev`, whoever has called it. -/
theorem HealInv.setNext (h : HealInv f ring alive c) (p b : A) :
    HealInv f ring alive (c.setNode p { c.node p with
      connection := { (c.node p).connection with next := b } }) :=
  h.setNode (h.prev p) (h.cache p)

/-- The write of `prev`. -/
theorem HealInv.recoverPrev (h : HealInv f ring alive c)
    (hahead : Ahead f (fun x => alive x) a p) :
    HealInv f ring alive (c.setNode a ((c.node a).recoverPrev p)) :=
  h.setNode (fun _ _ => hahead) (h.cache a)

/-! ## Every step

The invariant through all that can happen. -/

/-- An announcement calls its next address, or is over. -/
theorem HealInv.announce (h : HealInv f ring alive c)
    (hs : c.step ring alive (.announce i) = some c') : HealInv f ring alive c' := by
  obtain ⟨rest, addresses, hq, hann⟩ := Sending.step_announce hs
  have hlisted := h.announcing _ (List.mem_of_getElem? hq)
  have hset : ∀ rest', HealInv f ring alive
      { c with announcing := c.announcing.set i (rest', addresses) } := by
    refine fun rest' => h.of_prev (fun _ => rfl) h.cache h.sender fun q hq' => ?_
    rcases List.mem_or_eq_of_mem_set hq' with hq' | rfl
    · exact h.announcing q hq'
    · exact hlisted
  rcases hann with rfl | ⟨s, rest', rfl, rfl | ⟨b, hb, rfl⟩⟩
  · exact h.of_prev (fun _ => rfl) h.cache h.sender fun q hq' =>
      h.announcing q (List.mem_of_mem_eraseIdx hq')
  · exact hset rest'
  · exact (hset rest').setNode (h.prev b) (Or.inr hlisted)

/-- A round of a search: it ends, a candidate is dead, or `set_next` succeeds. -/
theorem HealInv.tryNext (h : HealInv f ring alive c) (hcycle : CycleOn f ring)
    (hs : c.step ring alive (.tryNext i) = some c') : HealInv f ring alive c' := by
  obtain ⟨t, myIdx, k, ht, hst, hround⟩ := Sending.step_tryNext hs
  obtain ⟨hidx, hdead⟩ := h.stageOk ht hst
  have hok := h.senderOk ht
  rcases hround with ⟨-, rfl⟩ | ⟨hnone, rfl⟩ | ⟨p, hp, hl, rfl⟩
  · exact h.setStage ht trivial
  · refine h.setStage (s := .searching myIdx (k + 1)) ht ⟨hidx, fun j hj => ?_⟩
    rcases Nat.lt_succ_iff_lt_or_eq.1 hj with hj | rfl
    · exact hdead j hj
    · exact hnone
  · have hahead := ahead_of_candidate hcycle hok.cache hidx hdead
      (lt_length_of_dead hidx hdead hok.live) hp
    exact (h.setNext p t.me).setStage (s := .linked p) ht hahead

/-- **A live node goes on.** -/
theorem HealInv.act (h : HealInv f ring alive c) (hcycle : CycleOn f ring) {act : SendAction A}
    (hs : c.step ring alive act = some c') : HealInv f ring alive c' := by
  cases act with
  | watch n =>
    obtain ⟨hn, hl, rfl⟩ := Sending.step_watch hs
    exact h.spawn (List.forall_mem_singleton.2 (senderOk_coordinatorWatcher hcycle hn hl))
  | coordinate n =>
    obtain ⟨hn, hl, rfl⟩ := Sending.step_coordinate hs
    exact h.spawn (List.forall_mem_singleton.2 (senderOk_coordinate hcycle hn hl))
  | connect i early =>
    obtain ⟨t, ht, rfl | ⟨-, rfl⟩⟩ := Sending.step_connect hs
    · have hok := h.senderOk ht
      exact h.setStage (s := .connected _) ht (h.prev _ hok.mem hok.live)
    · exact h.setStage ht stageOk_followUp
  | call i =>
    obtain ⟨t, ht, ⟨dest, hdest, hl, rfl⟩ | ⟨-, rfl⟩⟩ := Sending.step_call hs
    · have hok := h.senderOk ht
      have hdone := h.setStage (s := .done false) ht trivial
      exact hdone.deliver hcycle hok.mem hok.token (h.stageOk ht hdest) hl
    · exact h.setStage ht stageOk_followUp
  | tryNext i => exact h.tryNext hcycle hs
  | finish i =>
    obtain ⟨t, p, ht, hst, rfl⟩ := Sending.step_finish hs
    exact (h.recoverPrev (h.stageOk ht hst)).setStage (s := .done true) ht trivial
  | announce i => exact h.announce hs

/-- What a node has on its way is as it should be. -/
theorem HealInv.orphanOk (h : HealInv f ring alive c) {n : A} {r : Orphan A}
    (hr : r ∈ c.requests n) : OrphanOk f ring alive r := by
  obtain ⟨t, ht, -, hreq⟩ := sender_of_requests hr
  have hok := h.sender t ht
  rcases request_cases hreq with ⟨dest, hs, rfl⟩ | ⟨_, _, _, -, -, -, rfl⟩
  · have hahead : StageOk f alive t (.connected dest) := hs ▸ hok.stage
    exact ⟨t.me, hok.mem, hok.token, hahead⟩
  · trivial

/-- **A crash** leaves fewer live nodes and their tasks, and what was on its way. -/
theorem Healing.crash {s s' : Crashing A} (h : Healing f ring s) {n : A}
    {left : List (List String × List String)} {orphans : List (Orphan A)}
    (hs : s.step ring (.crash n left orphans) = some s') : Healing f ring s' := by
  obtain ⟨hleft, horphans, rfl⟩ := step_crash hs
  have hle : ∀ x, Function.update s.alive n false x → s.alive x := fun _ => alive_of_update
  have hfewer : HealInv f ring s.alive { s.sending with
      senders := s.sending.senders.filter fun t => t.me ≠ n, announcing := left } :=
    h.sending.of_prev (fun _ => rfl) h.sending.cache
      (fun t ht => h.sending.sender t (List.mem_of_mem_filter ht))
      fun q hq => h.sending.announcing q (hleft.subset hq)
  refine ⟨hfewer.mono hle fun t ht => ?_, fun r hr => OrphanOk.mono hle ?_⟩
  · obtain ⟨hmem, hne⟩ := List.mem_filter.1 ht
    have hlive := (h.sending.sender t hmem).live
    rwa [← Function.update_of_ne (v := false) (of_decide_eq_true hne) s.alive] at hlive
  · rcases List.mem_append.1 hr with hold | hnew
    · exact h.orphans r hold
    · exact h.sending.orphanOk (horphans.subset hnew)

/-- **A request without a sender** is handled as any other. -/
theorem Healing.orphan {s s' : Crashing A} (h : Healing f ring s) (hcycle : CycleOn f ring)
    (hs : s.step ring (.orphan i) = some s') : Healing f ring s' := by
  obtain ⟨r, c, hr, hc, rfl⟩ := step_orphan hs
  refine ⟨?_, fun r' hr' => h.orphans r' (List.mem_of_mem_eraseIdx hr')⟩
  have hok := h.orphans r (List.mem_of_getElem? hr)
  rcases handle_cases hc with ⟨dest, token, rfl, hl, rfl⟩ | ⟨dest, me, rfl, -, rfl⟩ | rfl
  · obtain ⟨me, hme, htoken, hahead⟩ := hok
    exact h.sending.deliver hcycle hme htoken hahead hl
  · exact h.sending.setNext dest me
  · exact h.sending

/-- **The invariant survives every step**: crashes, late requests, and all that live nodes do. -/
theorem Healing.step {s s' : Crashing A} (h : Healing f ring s) (hcycle : CycleOn f ring)
    {act : CrashAction A} (hs : s.step ring act = some s') : Healing f ring s' := by
  cases act with
  | crash n left orphans => exact h.crash hs
  | orphan i => exact h.orphan hcycle hs
  | act act =>
    obtain ⟨c, hc, rfl⟩ := step_act hs
    exact ⟨h.sending.act hcycle hc, h.orphans⟩

/-! ## The way back

Of the live nodes at most one has a given live node ahead of it, so a live node that links itself
takes `next` from nobody.  This is what a late `set_next` spoils: its sender is not alive. -/

omit [SocketAddr A] [DecidableEq A] in
theorem LeadsBack.of_same (h : LeadsBack ring alive c)
    (hconn : ∀ a, (c'.node a).connection = (c.node a).connection)
    (hlinked : ∀ t ∈ c'.senders, ∀ p, t.stage = .linked p → t ∈ c.senders) :
    LeadsBack ring alive c' := by
  have hprev : ∀ a, c'.prev a = c.prev a := fun a => congrArg Connection.prev (hconn a)
  refine ⟨fun a ha hl hp => ?_, fun t ht p hs hl => ?_⟩
  · rw [hprev] at hp ⊢
    rw [hconn]
    exact h.next a ha hl hp
  · rw [hconn]
    exact h.linked t (hlinked t ht p hs) p hs hl

omit [SocketAddr A] [DecidableEq A] in
theorem LeadsBack.setStage {s : Stage A} (h : LeadsBack ring alive c)
    (hs : ∀ p, s = .linked p → alive p → (c.node p).connection.next = t.me) :
    LeadsBack ring alive (c.setStage i t s) := by
  refine ⟨h.next, fun t' ht' p hs' hl => ?_⟩
  rcases Sending.mem_setStage ht' with hold | rfl
  · exact h.linked t' hold p hs' hl
  · exact hs p hs' hl

omit [SocketAddr A] [DecidableEq A] in
theorem LeadsBack.spawn (h : LeadsBack ring alive c) (hs : t.stage = .spawned) :
    LeadsBack ring alive { c with senders := c.senders ++ [t] } := by
  refine h.of_same (fun _ => rfl) fun t' ht' p hst => ?_
  rcases List.mem_append.1 ht' with hold | hnew
  · exact hold
  · rw [List.mem_singleton.1 hnew, hs] at hst
    cases hst

theorem LeadsBack.deliver (h : LeadsBack ring alive c) (dest : A) (token : Token) :
    LeadsBack ring alive (c.deliver dest token) := by
  refine h.of_same (deliver_connection c dest token) fun t ht p hs => ?_
  rcases List.mem_append.1 ht with hold | hnew
  · exact hold
  · obtain ⟨m, -, hrelay⟩ := List.mem_filterMap.1 hnew
    cases m with
    | token d token' =>
      obtain rfl := Option.some.inj hrelay
      cases hs
    | announce rest addresses => cases hrelay

/-- **A link** to the first live node behind `a`: nobody else has, or is about to have, this node as
`prev`, because two live nodes have different first live nodes behind them. -/
theorem LeadsBack.setNext (h : LeadsBack ring alive c) (hinv : HealInv f ring alive c)
    (hcycle : CycleOn f ring) (ha : a ∈ ring) (hla : alive a)
    (hahead : Ahead f (fun x => alive x) a p) (hlp : alive p) :
    LeadsBack ring alive (c.setNode p { c.node p with
      connection := { (c.node p).connection with next := a } }) := by
  -- whoever has `p` ahead is `a`
  have hkeep : ∀ b ∈ ring, alive b → ∀ q, Ahead f (fun x => alive x) b q → alive q →
      (c.node q).connection.next = b → ((c.setNode p { c.node p with
        connection := { (c.node p).connection with next := a } }).node q).connection.next = b := by
    intro b hb hlb q hq hlq hnext
    rw [setNode_node]
    split
    · next hqp =>
      subst hqp
      exact hcycle.firstAfter_injOn ha hb hla hlb (hahead.firstAfter hlp) (hq.firstAfter hlq)
    · exact hnext
  have hprev : ∀ b, (c.setNode p { c.node p with
      connection := { (c.node p).connection with next := a } }).prev b = c.prev b :=
    Sending.setNode_prev_of rfl
  refine ⟨fun b hb hl hp => ?_, fun t ht q hs hlq => ?_⟩
  · rw [hprev] at hp ⊢
    exact hkeep b hb hl _ (hinv.prev b hb hl) hp (h.next b hb hl hp)
  · have hok := hinv.sender t ht
    have hq : StageOk f alive t (.linked q) := hs ▸ hok.stage
    exact hkeep t.me hok.mem hok.live q hq hlq (h.linked t ht q hs hlq)

omit [SocketAddr A] in
theorem LeadsBack.recoverPrev (h : LeadsBack ring alive c)
    (hnext : alive p → (c.node p).connection.next = a) :
    LeadsBack ring alive (c.setNode a ((c.node a).recoverPrev p)) := by
  have hkeep : ∀ q, ((c.setNode a ((c.node a).recoverPrev p)).node q).connection.next =
      (c.node q).connection.next := by
    intro q
    rw [setNode_node]
    split
    · next hq => rw [hq]; rfl
    · rfl
  have hprev : ∀ b, (c.setNode a ((c.node a).recoverPrev p)).prev b =
      if b = a then p else c.prev b := by
    intro b
    show ((c.setNode a ((c.node a).recoverPrev p)).node b).connection.prev = _
    rw [setNode_node]
    split <;> rfl
  refine ⟨fun b hb hl hp => ?_, fun t ht q hs hlq => (hkeep q).trans (h.linked t ht q hs hlq)⟩
  rw [hkeep]
  rw [hprev] at hp ⊢
  split at hp
  · next hba =>
    rw [if_pos hba, hba]
    exact hnext hp
  · next hba =>
    rw [if_neg hba]
    exact h.next b hb hl hp

omit [DecidableEq A] in
theorem followUp_not_linked : t.followUp ≠ .linked p := by
  rw [Sender.followUp]
  split
  · split <;> exact fun h => by cases h
  · exact fun h => by cases h

theorem LeadsBack.act (h : LeadsBack ring alive c) (hinv : HealInv f ring alive c)
    (hcycle : CycleOn f ring) {act : SendAction A} (hs : c.step ring alive act = some c') :
    LeadsBack ring alive c' := by
  have hfollow : ∀ {i t}, LeadsBack ring alive (c.setStage i t t.followUp) := fun {_ _} =>
    h.setStage fun _ hs => absurd hs followUp_not_linked
  cases act with
  | watch n =>
    obtain ⟨-, -, rfl⟩ := Sending.step_watch hs
    exact h.spawn rfl
  | coordinate n =>
    obtain ⟨-, -, rfl⟩ := Sending.step_coordinate hs
    exact h.spawn rfl
  | connect i early =>
    obtain ⟨t, -, rfl | ⟨-, rfl⟩⟩ := Sending.step_connect hs
    · exact h.setStage fun _ hs => by cases hs
    · exact hfollow
  | call i =>
    obtain ⟨t, -, ⟨dest, -, -, rfl⟩ | ⟨-, rfl⟩⟩ := Sending.step_call hs
    · exact LeadsBack.deliver (h.setStage (s := .done false) fun _ hs => by cases hs) dest t.token
    · exact hfollow
  | tryNext i =>
    obtain ⟨t, myIdx, k, ht, hst, ⟨-, rfl⟩ | ⟨-, rfl⟩ | ⟨p, hp, hl, rfl⟩⟩ :=
      Sending.step_tryNext hs
    · exact h.setStage fun _ hs => by cases hs
    · exact h.setStage fun _ hs => by cases hs
    · obtain ⟨hidx, hdead⟩ := hinv.stageOk ht hst
      have hok := hinv.senderOk ht
      have hahead := ahead_of_candidate hcycle hok.cache hidx hdead
        (lt_length_of_dead hidx hdead hok.live) hp
      refine (h.setNext hinv hcycle hok.mem hok.live hahead hl).setStage fun q hq _ => ?_
      obtain rfl := Stage.linked.inj hq
      rw [setNode_node, if_pos rfl]
  | finish i =>
    obtain ⟨t, p, ht, hst, rfl⟩ := Sending.step_finish hs
    exact (h.recoverPrev (h.linked t (List.mem_of_getElem? ht) p hst)).setStage
      fun _ hs => by cases hs
  | announce i =>
    obtain ⟨rest, addresses, -, hann⟩ := Sending.step_announce hs
    rcases hann with rfl | ⟨s, rest', -, rfl | ⟨b, -, rfl⟩⟩
    · exact ⟨h.next, h.linked⟩
    · exact ⟨h.next, h.linked⟩
    · refine h.of_same (fun a => ?_) fun _ ht _ _ => ht
      rw [setNode_node]
      split
      · next hab => rw [hab]; rfl
      · rfl

/-- The condition on a step: no live node handles a `set_next` of a crashed one.  It may still be on
its way, and be handled by a dead node or never. -/
def SetsNextInTime : List (Crashing A) → CrashAction A → Prop
  | s :: _, .orphan i => ∀ r ∈ s.orphans[i]?, ¬r.Links s.alive
  | _, _ => True

instance (tr : List (Crashing A)) (act : CrashAction A) : Decidable (SetsNextInTime tr act) := by
  rcases tr with _ | ⟨s, rest⟩ <;> rcases act with _ | _ | _ <;> dsimp only [SetsNextInTime] <;>
    infer_instance

theorem LeadsBack.step {s s' : Crashing A} {rest : List (Crashing A)}
    (h : LeadsBack ring s.alive s.sending) (hinv : HealInv f ring s.alive s.sending)
    (hcycle : CycleOn f ring) {act : CrashAction A} (hc : SetsNextInTime (s :: rest) act)
    (hs : s.step ring act = some s') : LeadsBack ring s'.alive s'.sending := by
  cases act with
  | crash n left orphans =>
    obtain ⟨-, -, rfl⟩ := step_crash hs
    exact ⟨fun a ha hl hp => h.next a ha (alive_of_update hl) (alive_of_update hp),
      fun t ht p hst hl => h.linked t (List.mem_of_mem_filter ht) p hst (alive_of_update hl)⟩
  | orphan i =>
    obtain ⟨r, c, hr, hc', rfl⟩ := step_orphan hs
    rcases handle_cases hc' with ⟨dest, token, -, -, rfl⟩ | ⟨dest, me, rfl, hl, rfl⟩ | rfl
    · exact h.deliver dest token
    · exact absurd hl (hc _ hr)
    · exact h
  | act act =>
    obtain ⟨c, hact, rfl⟩ := step_act hs
    exact h.act hinv hcycle hact

/-! ## Runs

The ring along a run, and when it is one again. -/

omit [DecidableEq A] in
/-- A ring before anybody sends, whose nodes have been announced its members or nothing. -/
theorem healing_init (hring : WellFormed c.node ring)
    (hcache : ∀ a, (c.node a).ringCache = [] ∨ FullCache ring (c.node a).ringCache)
    (hsenders : c.senders = []) (hannouncing : c.announcing = []) :
    Healing c.prev ring (unharmed c) where
  sending :=
    { prev a _ _ := ahead_apply _ _ a
      cache a := by
        refine (hcache a).imp_right fun hfull => ?_
        obtain ⟨r, hrot, heq⟩ := hfull
        exact ⟨r, heq, sweep_of_isRotated hring.cycle hrot⟩
      sender t ht := by
        rw [show (unharmed c).sending.senders = [] from hsenders] at ht
        cases ht
      announcing q hq := by
        rw [show (unharmed c).sending.announcing = [] from hannouncing] at hq
        cases hq }
  orphans r hr := by cases hr

omit [DecidableEq A] in
/-- The `prev`s of the survivors form one cycle in the old order, as soon as nobody of them has a
dead one. -/
theorem HealInv.cycleOn (h : HealInv f ring alive c) (hcycle : CycleOn f ring)
    (halive : ∃ a ∈ ring, alive a) (hprev : ∀ a ∈ ring, alive a → alive (c.prev a)) :
    CycleOn c.prev (ring.filter alive) := by
  have hfilter := hcycle.filter (P := fun x => alive x) (g := c.prev) halive
    fun a ha y hl hy => ((h.prev a ha hl).firstAfter (hprev a ha hl)).unique hy
  simpa only [Bool.decide_eq_true] using hfilter

omit [DecidableEq A] in
theorem LeadsBack.wellFormed (h : LeadsBack ring alive c) (hinv : HealInv f ring alive c)
    (hcycle : CycleOn f ring) (halive : ∃ a ∈ ring, alive a)
    (hprev : ∀ a ∈ ring, alive a → alive (c.prev a)) : WellFormed c.node (ring.filter alive) := by
  refine ⟨hinv.cycleOn hcycle halive hprev, fun a ha => ?_⟩
  obtain ⟨hmem, hl⟩ := List.mem_filter.1 ha
  exact h.next a hmem hl (hprev a hmem hl)

variable {c₀ : Sending A} {tr : List (Crashing A)}

/-- Where the condition is missed: node 2 crashes, node 1 calls `set_next` at node 3 and crashes,
and node 0 links itself to node 3.  The call of node 1 is handled after that.  Both survivors have a
live `prev`, but node 3 has a dead `next`. -/
theorem late_set_next :
    ∃ (s : Crashing (Fin 4)) (tr : List (Crashing (Fin 4))),
      Run (Crashing.step [0, 1, 2, 3]) (fun _ _ => True) (unharmed Sending.four) (s :: tr) ∧
      [0, 1, 2, 3].filter s.alive = [0, 3] ∧ s.sending.prev 0 = 3 ∧ s.sending.prev 3 = 0 ∧
      ¬WellFormed s.sending.node [0, 3] := by
  have hcheck : Run.check (Crashing.step [0, 1, 2, 3]) (fun _ _ => true) (unharmed Sending.four)
      [.act (.watch 3), .act (.connect 0 false), .act (.call 0), .act (.connect 1 false),
        .act (.call 1), .crash 2 [] [], .act (.connect 2 false), .act (.tryNext 2),
        .crash 1 [] [.setNext 3 1], .act (.watch 3), .act (.connect 2 false), .act (.call 2),
        .act (.connect 3 false), .act (.tryNext 3), .act (.tryNext 3), .act (.tryNext 3),
        .act (.finish 3), .orphan 0]
      (fun tr => decide (∀ s ∈ tr.head?, [0, 1, 2, 3].filter s.alive = [0, 3] ∧
        s.sending.prev 0 = 3 ∧ s.sending.prev 3 = 0 ∧
          (s.sending.node 3).connection.next = 1)) = true := by
    decide +kernel
  obtain ⟨tr, hrun, hp⟩ := Run.exists_of_check (C := fun _ _ => True) (fun _ _ _ => trivial) hcheck
  cases tr with
  | nil => exact absurd rfl hrun.ne_nil
  | cons s tr =>
    obtain ⟨hfilter, h0, h3, hnext⟩ := of_decide_eq_true hp s rfl
    refine ⟨s, tr, hrun, hfilter, h0, h3, fun hring => ?_⟩
    have hback := hring.next_prev 0 (by decide)
    rw [show (s.sending.node 0).connection.prev = 3 from h0, hnext] at hback
    exact absurd hback (by decide)

end Crashing
end Ring
end DistributedPrograms
