import DistributedPrograms.Lib.Run
import DistributedPrograms.Ring.RecoveredRing
import DistributedPrograms.Ring.Sending

/-!
# Which dead `prev` is repaired

A search through a cache that lists the searching node ends at a live node: at the latest at itself.
So a relay that found its `prev` dead leaves a live one behind, and as every `prev` that is written
was alive when it answered `set_next`, nobody loses a live `prev` again.  The loops of `main` write
nothing.  `repaired_iff` says what that comes to: along a run every detected loss is repaired
exactly if no loop of `main` gives one up.

The nodes have crashed before the run begins, and all caches are full at the start.

* `Covers ring a cache` is what a cache must be for a search of `a`: addresses of members, with `a`
  among them. Then no candidate is missed, the last one is `a` itself, and the loop never runs out
  of candidates (`SenderOk.lt_length`).
* `SendInv` is the invariant: members have members as `prev`, caches and announcements list members,
  and every sender is as its stage says (`StageOk`).  It survives every step (`SendInv.step`).
* `SendInv.step_prev` and `SendInv.live_prev`: every `prev` that is written is alive, so nobody
  loses a live one.
* `SendInv.step_over`: who is over after a step was so before, has a live `prev`, or is a loop of
  `main` that has given up.  This is the step that both directions of the equivalence need:
  `Repaired.step`, that a step repairs what it detects, and `not_repaired_of_givesUp`, that what is
  given up stays dead.
-/

set_option autoImplicit false

namespace DistributedPrograms
namespace Ring
namespace Sending

open SocketAddr Recovery

variable {A : Type} [SocketAddr A] {ring : List A} {alive : A → Bool} {a p : A}
  {cache : List String} {myIdx i : Nat}

/-! ## Searches

What makes a search end well.  Nothing here depends on what the other nodes do meanwhile, because a
search goes through the cache that it was started with. -/

/-- Addresses of members. -/
def Members (ring : List A) (addresses : List String) : Prop :=
  ∀ s ∈ addresses, ∃ b ∈ ring, s = toString b

/-- A cache that `a` can search: it lists `a` itself, which is where the search begins, and members
only. -/
structure Covers (ring : List A) (a : A) (cache : List String) : Prop where
  self : toString a ∈ cache
  members : Members ring cache

theorem covers_of_fullCache (h : FullCache ring cache) (ha : a ∈ ring) : Covers ring a cache := by
  obtain ⟨r, hrot, rfl⟩ := h
  refine ⟨toString_mem_map.2 (hrot.mem_iff.1 ha), fun s hs => ?_⟩
  obtain ⟨b, hb, rfl⟩ := List.mem_map.1 hs
  exact ⟨b, hrot.mem_iff.2 hb, rfl⟩

theorem Covers.candidate_mem (h : Covers ring a cache)
    (hp : Node.candidate cache myIdx i = some p) : p ∈ ring := by
  obtain ⟨s, hs, hparse⟩ := Option.bind_eq_some_iff.1 hp
  obtain ⟨b, hb, rfl⟩ := h.members s (List.mem_of_getElem? hs)
  rw [parse_toString, Option.some.injEq] at hparse
  exact hparse ▸ hb

/-- The last candidate of a search is the searching node. -/
theorem candidate_self (h : Node.myIdxInMemberCache cache a = some myIdx) :
    0 < cache.length ∧ Node.candidate cache myIdx (cache.length - 1) = some a := by
  obtain ⟨hlt, hfound, -⟩ := List.findIdx?_eq_some_iff_getElem.1 h
  have hpos : 0 < cache.length := Nat.zero_lt_of_lt hlt
  have hround : (myIdx + (cache.length - 1) + 1) % cache.length = myIdx := by
    rw [show myIdx + (cache.length - 1) + 1 = myIdx + cache.length by omega, Nat.add_mod_right,
      Nat.mod_eq_of_lt hlt]
  refine ⟨hpos, ?_⟩
  rw [Node.candidate, hround, List.getElem?_eq_getElem hlt, beq_iff_eq.1 hfound]
  exact parse_toString a

/-! ## The invariant

`SenderOk` is about a sender alone, so a step of one sender leaves it alone for the others. -/

/-- What holds of a sender at a stage.  A search has tried dead nodes only, and who is linked is
alive. -/
def StageOk (ring : List A) (alive : A → Bool) (t : Sender A) : Stage A → Prop
  | .connected dest => dest ∈ ring
  | .searching myIdx i => t.site.recovers = true ∧
      Node.myIdxInMemberCache t.memberCache t.me = some myIdx ∧
      ∀ j < i, ∀ p, Node.candidate t.memberCache myIdx j = some p → alive p = false
  | .linked p => p ∈ ring ∧ alive p = true
  | .spawned | .done _ => True

structure SenderOk (ring : List A) (alive : A → Bool) (t : Sender A) : Prop where
  mem : t.me ∈ ring
  live : alive t.me = true
  cache : t.site.recovers = true → Covers ring t.me t.memberCache
  token : ∀ addresses, t.token = .list addresses → Members ring addresses
  stage : StageOk ring alive t t.stage

/-- Members have members as `prev`, caches and announcements list members, and an announcement goes
to nobody that it does not list.  Who is dead is fixed here. -/
structure SendInv (ring : List A) (alive : A → Bool) (c : Sending A) : Prop where
  prev : ∀ a ∈ ring, c.prev a ∈ ring
  cache : ∀ a ∈ ring, Covers ring a (c.node a).ringCache
  sender : ∀ t ∈ c.senders, SenderOk ring alive t
  announcing : ∀ q ∈ c.announcing, (∀ s ∈ q.1, s ∈ q.2) ∧ Members ring q.2

variable {t : Sender A} {s : Stage A} {c c' : Sending A}

theorem SendInv.senderOk (h : SendInv ring alive c) (ht : c.senders[i]? = some t) :
    SenderOk ring alive t :=
  h.sender t (List.mem_of_getElem? ht)

theorem SendInv.stageOk (h : SendInv ring alive c) (ht : c.senders[i]? = some t)
    (hs : t.stage = s) : StageOk ring alive t s :=
  hs ▸ (h.senderOk ht).stage

theorem SenderOk.setStage (h : SenderOk ring alive t) (hs : StageOk ring alive t s) :
    SenderOk ring alive { t with stage := s } := by
  refine ⟨h.mem, h.live, h.cache, h.token, ?_⟩
  cases s <;> exact hs

/-- A relay goes on to search, a loop of `main` is done. -/
theorem SenderOk.followUp (h : SenderOk ring alive t) :
    StageOk ring alive t t.followUp ∧ (t.followUp = .done true → t.site.recovers = false) := by
  rw [Sender.followUp]
  split
  · next hsite =>
    obtain ⟨myIdx, hidx⟩ : ∃ myIdx, Node.myIdxInMemberCache t.memberCache t.me = some myIdx :=
      exists_myIdx_of_mem (h.cache hsite).self
    rw [hidx]
    exact ⟨⟨hsite, hidx, fun j hj => absurd hj (Nat.not_lt_zero j)⟩, by simp⟩
  · next hsite => exact ⟨trivial, fun _ => Bool.eq_false_iff.2 hsite⟩

/-- **The loop cannot run out of candidates.**  The last one is the searching node itself, which is
alive. -/
theorem SenderOk.lt_length (h : SenderOk ring alive t) (hs : t.stage = .searching myIdx i) :
    i < t.memberCache.length := by
  have hstage := h.stage
  rw [hs] at hstage
  obtain ⟨-, hidx, hdead⟩ := hstage
  obtain ⟨hpos, hself⟩ := candidate_self hidx
  by_contra hge
  have hme := hdead (t.memberCache.length - 1) (by omega) t.me hself
  rw [h.live] at hme
  cases hme

/-! ## What the steps do

To the `prev` pointers and to the senders. -/

variable {act : SendAction A} {n : Node A}

omit [SocketAddr A] in
theorem mem_setStage {t' : Sender A} (h : t' ∈ (c.setStage i t s).senders) :
    t' ∈ c.senders ∨ t' = { t with stage := s } :=
  List.mem_or_eq_of_mem_set h

omit [SocketAddr A] in
/-- Who is over at another's move was over before. -/
theorem mem_of_over {t' : Sender A} (h : t' ∈ (c.setStage i t s).senders)
    (hdone : t'.stage = .done true) (hs : s ≠ .done true) : t' ∈ c.senders := by
  rcases mem_setStage h with hmem | rfl
  · exact hmem
  · exact absurd hdone hs

/-- What the handlers of a token leave alone. -/
theorem handle_keeps (n : Node A) (me : A) (token : Token) :
    (n.handle me token).1.connection = n.connection ∧
      (n.handle me token).1.ringCache = n.ringCache := by
  cases token with
  | list addresses =>
    rw [Node.handle]
    split
    · rw [Node.relayList]
      split <;> exact ⟨rfl, rfl⟩
    · exact ⟨rfl, rfl⟩
  | election addresses =>
    rw [Node.handle]
    split <;> exact ⟨rfl, rfl⟩
  | coordinate addresses read => exact ⟨rfl, rfl⟩

variable [DecidableEq A]

omit [SocketAddr A] in
theorem setNode_prev_of (h : n.connection.prev = c.prev a) (b : A) :
    (c.setNode a n).prev b = c.prev b := by
  show (Function.update c.node a n b).connection.prev = _
  rw [Function.update_apply]
  split
  · next hb => rw [h, hb]
  · rfl

theorem step_watch (h : c.step ring alive (.watch a) = some c') :
    a ∈ ring ∧ alive a = true ∧ c' = { c with senders := c.senders ++ [.coordinatorWatcher a] } := by
  rw [step] at h
  split at h
  · next hg => exact ⟨hg.1, hg.2.1, (Option.some.inj h).symm⟩
  · cases h

theorem step_coordinate (h : c.step ring alive (.coordinate a) = some c') :
    a ∈ ring ∧ alive a = true ∧ c' = { c with senders := c.senders ++ [.coordinate a] } := by
  rw [step] at h
  split at h
  · next hg => exact ⟨hg.1, hg.2.1, (Option.some.inj h).symm⟩
  · cases h

/-- A connection is made, or it fails. -/
theorem step_connect {early : Bool} (h : c.step ring alive (.connect i early) = some c') :
    ∃ t, c.senders[i]? = some t ∧ (c' = c.setStage i t (.connected (c.prev t.me)) ∨
      (c.Fails alive t (.connect i early) = true ∧ c' = c.setStage i t t.followUp)) := by
  obtain ⟨t, ht, h⟩ := Option.bind_eq_some_iff.1 h
  refine ⟨t, ht, ?_⟩
  dsimp only at h
  split at h
  · next hs =>
    obtain rfl := Option.some.inj h
    split
    · exact Or.inl rfl
    · next hdead =>
      simp only [Bool.or_eq_true, not_or, Bool.not_eq_true] at hdead
      exact Or.inr ⟨by simp [Fails, hs, hdead.1, hdead.2], rfl⟩
  · cases h

/-- A call arrives, or it fails. -/
theorem step_call (h : c.step ring alive (.call i) = some c') :
    ∃ t, c.senders[i]? = some t ∧
      ((∃ dest, t.stage = .connected dest ∧ alive dest = true ∧
        c' = (c.setStage i t (.done false)).deliver dest t.token) ∨
      (c.Fails alive t (.call i) = true ∧ c' = c.setStage i t t.followUp)) := by
  obtain ⟨t, ht, h⟩ := Option.bind_eq_some_iff.1 h
  refine ⟨t, ht, ?_⟩
  split at h
  · next dest hs =>
    split at h
    · next hl => exact Or.inl ⟨dest, hs, hl, (Option.some.inj h).symm⟩
    · next hl =>
      refine Or.inr ⟨?_, (Option.some.inj h).symm⟩
      rw [Fails, hs]
      simpa using hl
  · cases h

/-- A round of the loop of `recovery_prev` ends the loop, fails or links. -/
theorem step_tryNext (h : c.step ring alive (.tryNext i) = some c') :
    ∃ t myIdx k, c.senders[i]? = some t ∧ t.stage = .searching myIdx k ∧
      ((t.memberCache.length ≤ k ∧ c' = c.setStage i t (.done true)) ∨
       ((∀ p, Node.candidate t.memberCache myIdx k = some p → alive p = false) ∧
         c' = c.setStage i t (.searching myIdx (k + 1))) ∨
       (∃ p, Node.candidate t.memberCache myIdx k = some p ∧ alive p = true ∧
         c' = (c.setNode p { c.node p with
           connection := { (c.node p).connection with next := t.me } }).setStage i t
             (.linked p))) := by
  obtain ⟨t, ht, h⟩ := Option.bind_eq_some_iff.1 h
  split at h
  · next myIdx k hs =>
    refine ⟨t, myIdx, k, ht, hs, ?_⟩
    split at h
    · split at h
      · next p hp =>
        split at h
        · next hl =>
          refine Or.inr (Or.inr ⟨p, hp, hl, ?_⟩)
          simpa [Node.setNext] using h.symm
        · next hl =>
          refine Or.inr (Or.inl ⟨fun q hq => ?_, (Option.some.inj h).symm⟩)
          rw [hp, Option.some.injEq] at hq
          exact hq ▸ Bool.eq_false_iff.2 hl
      · next hnone =>
        refine Or.inr (Or.inl ⟨fun q hq => ?_, (Option.some.inj h).symm⟩)
        rw [hnone] at hq
        cases hq
    · next hlen => exact Or.inl ⟨Nat.not_lt.1 hlen, (Option.some.inj h).symm⟩
  · cases h

theorem step_finish (h : c.step ring alive (.finish i) = some c') :
    ∃ t p, c.senders[i]? = some t ∧ t.stage = .linked p ∧
      c' = (c.setNode t.me ((c.node t.me).recoverPrev p)).setStage i t (.done true) := by
  obtain ⟨t, ht, h⟩ := Option.bind_eq_some_iff.1 h
  split at h
  · next p hs => exact ⟨t, p, ht, hs, (Option.some.inj h).symm⟩
  · cases h

/-- An announcement is over, or goes to its next address. -/
theorem step_announce (h : c.step ring alive (.announce i) = some c') :
    ∃ rest addresses, c.announcing[i]? = some (rest, addresses) ∧
      (c' = { c with announcing := c.announcing.eraseIdx i } ∨
       ∃ s rest', rest = s :: rest' ∧
         (c' = { c with announcing := c.announcing.set i (rest', addresses) } ∨
          ∃ b, parse s = some b ∧
            c' = ({ c with announcing := c.announcing.set i (rest', addresses) }).setNode b
              ((c.node b).connectionAnnounce addresses))) := by
  obtain ⟨⟨rest, addresses⟩, hq, h⟩ := Option.bind_eq_some_iff.1 h
  refine ⟨rest, addresses, hq, ?_⟩
  cases rest with
  | nil => exact Or.inl (Option.some.inj h).symm
  | cons s rest =>
    refine Or.inr ⟨s, rest, rfl, ?_⟩
    dsimp only at h
    split at h
    · next b hb =>
      split at h
      · exact Or.inr ⟨b, hb, (Option.some.inj h).symm⟩
      · exact Or.inl (Option.some.inj h).symm
    · exact Or.inl (Option.some.inj h).symm

/-! ## The invariant survives

Step by step, with one lemma for each kind. -/

omit [DecidableEq A] in
theorem SendInv.setStage (h : SendInv ring alive c) (ht : c.senders[i]? = some t)
    (hs : StageOk ring alive t s) : SendInv ring alive (c.setStage i t s) := by
  refine ⟨h.prev, h.cache, fun t' ht' => ?_, h.announcing⟩
  rcases mem_setStage ht' with hold | rfl
  · exact h.sender t' hold
  · exact (h.senderOk ht).setStage hs

theorem SendInv.setNode (h : SendInv ring alive c) (hprev : a ∈ ring → n.connection.prev ∈ ring)
    (hcache : a ∈ ring → Covers ring a n.ringCache) : SendInv ring alive (c.setNode a n) := by
  refine ⟨fun b hb => ?_, fun b hb => ?_, h.sender, h.announcing⟩
  · show (Function.update c.node a n b).connection.prev ∈ ring
    rw [Function.update_apply]
    split
    · next hba => exact hprev (hba ▸ hb)
    · exact h.prev b hb
  · show Covers ring b (Function.update c.node a n b).ringCache
    rw [Function.update_apply]
    split
    · next hba =>
      subst hba
      exact hcache hb
    · exact h.cache b hb

omit [DecidableEq A] in
theorem SendInv.spawn (h : SendInv ring alive c) {ts : List (Sender A)}
    (hts : ∀ t ∈ ts, SenderOk ring alive t) :
    SendInv ring alive { c with senders := c.senders ++ ts } := by
  refine ⟨h.prev, h.cache, fun t ht => ?_, h.announcing⟩
  rcases List.mem_append.1 ht with hold | hnew
  · exact h.sender t hold
  · exact hts t hnew

omit [DecidableEq A] in
/-- What a handler sends carries members, if the token it got does. -/
theorem members_of_handle {token : Token} (ha : a ∈ ring)
    (htoken : ∀ addresses, token = .list addresses → Members ring addresses) {m : Message A}
    (hm : m ∈ (n.handle a token).2) :
    (∀ dest addresses, m = .token dest (.list addresses) → Members ring addresses) ∧
      ∀ rest addresses, m = .announce rest addresses →
        (∀ s ∈ rest, s ∈ addresses) ∧ Members ring addresses := by
  cases token with
  | list addresses =>
    have hmembers := htoken addresses rfl
    rw [Node.handle] at hm
    split at hm
    · rw [List.mem_singleton.1 hm]
      refine ⟨fun dest l hl => ?_, fun rest l hl => by cases hl⟩
      cases hl
      intro s hs
      rcases List.mem_append.1 hs with hold | hnew
      · exact hmembers s hold
      · exact ⟨a, ha, List.mem_singleton.1 hnew⟩
    · rw [List.mem_singleton.1 hm]
      refine ⟨fun dest l hl => (by cases hl), fun rest l hl => ?_⟩
      cases hl
      exact ⟨fun s hs => hs, hmembers⟩
  | election addresses =>
    rw [Node.handle] at hm
    split at hm
    · rw [List.mem_singleton.1 hm]
      exact ⟨fun dest l hl => (by cases hl), fun rest l hl => by cases hl⟩
    · rw [List.mem_singleton.1 hm]
      exact ⟨fun dest l hl => (by cases hl), fun rest l hl => by cases hl⟩
  | coordinate addresses read =>
    rw [Node.handle] at hm
    split at hm
    · rw [List.mem_singleton.1 hm]
      exact ⟨fun dest l hl => (by cases hl), fun rest l hl => by cases hl⟩
    · cases hm

theorem SendInv.deliver (h : SendInv ring alive c) (ha : a ∈ ring) (hl : alive a = true)
    {token : Token} (htoken : ∀ addresses, token = .list addresses → Members ring addresses) :
    SendInv ring alive (c.deliver a token) := by
  obtain ⟨hconn, hkeep⟩ := handle_keeps (c.node a) a token
  have hnode := h.setNode (a := a) (n := ((c.node a).handle a token).1)
    (fun _ => by rw [hconn]; exact h.prev a ha) (fun _ => by rw [hkeep]; exact h.cache a ha)
  refine ⟨hnode.prev, hnode.cache, fun t ht => ?_, fun q hq => ?_⟩
  · rcases List.mem_append.1 ht with hold | hnew
    · exact h.sender t hold
    · obtain ⟨m, hm, hrelay⟩ := List.mem_filterMap.1 hnew
      have hmembers := (members_of_handle ha htoken hm).1
      cases m with
      | token dest token' =>
        obtain rfl := Option.some.inj hrelay
        refine ⟨ha, hl, fun _ => h.cache a ha, fun addresses haddr => ?_, trivial⟩
        exact hmembers dest addresses (congrArg _ haddr)
      | announce rest addresses => cases hrelay
  · rcases List.mem_append.1 hq with hold | hnew
    · exact h.announcing q hold
    · obtain ⟨m, hm, hann⟩ := List.mem_filterMap.1 hnew
      have hmembers := (members_of_handle ha htoken hm).2
      cases m with
      | token dest token' => cases hann
      | announce rest addresses =>
        obtain rfl := Option.some.inj hann
        exact hmembers rest addresses rfl

omit [DecidableEq A] in
/-- A loop of `main` sends what a member does. -/
theorem senderOk_main (ha : a ∈ ring) (hl : alive a = true)
    (ht : t = .coordinatorWatcher a ∨ t = .coordinate a) : SenderOk ring alive t := by
  rcases ht with rfl | rfl
  · exact ⟨ha, hl, by simp [Sender.coordinatorWatcher, Site.recovers],
      by simp [Sender.coordinatorWatcher], trivial⟩
  · refine ⟨ha, hl, by simp [Sender.coordinate, Site.recovers], fun addresses haddr => ?_, trivial⟩
    cases haddr
    exact fun s hs => ⟨a, ha, List.mem_singleton.1 hs⟩

/-- **The invariant survives every step.** -/
theorem SendInv.step (h : SendInv ring alive c) (hs : c.step ring alive act = some c') :
    SendInv ring alive c' := by
  cases act with
  | watch n =>
    obtain ⟨hn, hl, rfl⟩ := step_watch hs
    exact h.spawn (List.forall_mem_singleton.2 (senderOk_main hn hl (Or.inl rfl)))
  | coordinate n =>
    obtain ⟨hn, hl, rfl⟩ := step_coordinate hs
    exact h.spawn (List.forall_mem_singleton.2 (senderOk_main hn hl (Or.inr rfl)))
  | connect i early =>
    obtain ⟨t, ht, rfl | ⟨-, rfl⟩⟩ := step_connect hs
    · exact h.setStage ht (h.prev _ (h.senderOk ht).mem)
    · exact h.setStage ht (h.senderOk ht).followUp.1
  | call i =>
    obtain ⟨t, ht, ⟨dest, hdest, hl, rfl⟩ | ⟨-, rfl⟩⟩ := step_call hs
    · have hdone := h.setStage (s := .done false) ht trivial
      exact hdone.deliver (h.stageOk ht hdest) hl (h.senderOk ht).token
    · exact h.setStage ht (h.senderOk ht).followUp.1
  | tryNext i =>
    obtain ⟨t, myIdx, k, ht, hst, hround⟩ := step_tryNext hs
    obtain ⟨hsite, hidx, hdead⟩ := h.stageOk ht hst
    rcases hround with ⟨-, rfl⟩ | ⟨hnone, rfl⟩ | ⟨p, hp, hl, rfl⟩
    · exact h.setStage ht trivial
    · refine h.setStage ht ⟨hsite, hidx, fun j hj => ?_⟩
      rcases Nat.lt_succ_iff_lt_or_eq.1 hj with hj | rfl
      · exact hdead j hj
      · exact hnone
    · have hmem := ((h.senderOk ht).cache hsite).candidate_mem hp
      have hnext := h.setNode (a := p) (n := { c.node p with
        connection := { (c.node p).connection with next := t.me } })
        (fun hp => h.prev p hp) (fun hp => h.cache p hp)
      exact hnext.setStage (s := .linked p) ht ⟨hmem, hl⟩
  | finish i =>
    obtain ⟨t, p, ht, hst, rfl⟩ := step_finish hs
    have hprev := h.setNode (a := t.me) (n := (c.node t.me).recoverPrev p)
      (fun _ => (h.stageOk ht hst).1) (fun ha => h.cache t.me ha)
    exact hprev.setStage (s := .done true) ht trivial
  | announce i =>
    obtain ⟨rest, addresses, hq, hann⟩ := step_announce hs
    have hold := h.announcing _ (List.mem_of_getElem? hq)
    have hset : ∀ rest', (∀ s ∈ rest', s ∈ addresses) → SendInv ring alive
        { c with announcing := c.announcing.set i (rest', addresses) } := by
      refine fun rest' hrest' => ⟨h.prev, h.cache, h.sender, fun q hq' => ?_⟩
      rcases List.mem_or_eq_of_mem_set hq' with hq' | rfl
      · exact h.announcing q hq'
      · exact ⟨hrest', hold.2⟩
    rcases hann with rfl | ⟨s, rest', rfl, rfl | ⟨b, hb, rfl⟩⟩
    · exact ⟨h.prev, h.cache, h.sender, fun q hq' => h.announcing q (List.mem_of_mem_eraseIdx hq')⟩
    · exact hset rest' fun s' hs' => hold.1 s' (List.mem_cons_of_mem s hs')
    · refine (hset rest' fun s' hs' => hold.1 s' (List.mem_cons_of_mem s hs')).setNode
        (fun hb => h.prev b hb) (fun _ => ⟨?_, hold.2⟩)
      -- the announcement goes to an address that it lists
      have hs := hold.1 s List.mem_cons_self
      obtain ⟨x, -, rfl⟩ := hold.2 s hs
      rw [parse_toString, Option.some.injEq] at hb
      exact hb ▸ hs

/-! ## Repairs

The statement is about senders that are over, and they are never taken out of the list, so that it
can be made at the end of a run. -/

/-- Every `prev` that is written is alive. -/
theorem SendInv.step_prev (h : SendInv ring alive c) (hs : c.step ring alive act = some c')
    (b : A) : c'.prev b = c.prev b ∨ alive (c'.prev b) = true := by
  cases act with
  | watch n =>
    obtain ⟨-, -, rfl⟩ := step_watch hs
    exact Or.inl rfl
  | coordinate n =>
    obtain ⟨-, -, rfl⟩ := step_coordinate hs
    exact Or.inl rfl
  | connect i early =>
    obtain ⟨t, -, rfl | ⟨-, rfl⟩⟩ := step_connect hs
    · exact Or.inl rfl
    · exact Or.inl rfl
  | call i =>
    obtain ⟨t, -, ⟨dest, -, -, rfl⟩ | ⟨-, rfl⟩⟩ := step_call hs
    · have hkeep := (handle_keeps (c.node dest) dest t.token).1
      exact Or.inl (setNode_prev_of (congrArg Connection.prev hkeep) b)
    · exact Or.inl rfl
  | tryNext i =>
    obtain ⟨t, myIdx, k, -, -, ⟨-, rfl⟩ | ⟨-, rfl⟩ | ⟨p, -, -, rfl⟩⟩ := step_tryNext hs
    · exact Or.inl rfl
    · exact Or.inl rfl
    · refine Or.inl ?_
      show (c.setNode p _).prev b = c.prev b
      refine setNode_prev_of ?_ b
      rfl
  | finish i =>
    obtain ⟨t, p, ht, hst, rfl⟩ := step_finish hs
    by_cases hb : b = t.me
    · refine Or.inr ?_
      show alive (Function.update c.node t.me _ b).connection.prev = true
      rw [hb, Function.update_self]
      exact (h.stageOk ht hst).2
    · refine Or.inl ?_
      show (Function.update c.node t.me _ b).connection.prev = _
      rw [Function.update_of_ne hb]
      rfl
  | announce i =>
    obtain ⟨rest, addresses, -, rfl | ⟨s, rest', -, rfl | ⟨q, -, rfl⟩⟩⟩ := step_announce hs
    · exact Or.inl rfl
    · exact Or.inl rfl
    · refine Or.inl ?_
      show (c.setNode q _).prev b = c.prev b
      refine setNode_prev_of ?_ b
      rfl

/-- **Nobody loses a live `prev`.** -/
theorem SendInv.live_prev (h : SendInv ring alive c) (hs : c.step ring alive act = some c')
    (hl : alive (c.prev a) = true) : alive (c'.prev a) = true := by
  rcases h.step_prev hs a with hsame | hlive
  · rw [hsame]
    exact hl
  · exact hlive

/-- Who is over after its connection or its call has failed is a loop of `main`; a relay goes on to
search. -/
theorem SendInv.over_of_fails (h : SendInv ring alive c)
    (hs : c.step ring alive act = some (c.setStage i t t.followUp)) (ht : c.senders[i]? = some t)
    (hact : act = .call i ∨ ∃ early, act = .connect i early) (hfails : c.Fails alive t act = true)
    (hdone : t.followUp = .done true) :
    alive ((c.setStage i t t.followUp).prev t.me) = true ∨
      (t.site.recovers = false ∧ c.GivesUp alive act) := by
  have hsite := (h.senderOk ht).followUp.2 hdone
  by_cases hl : alive (c.prev t.me) = true
  · exact Or.inl (h.live_prev hs hl)
  · refine Or.inr ⟨hsite, ?_⟩
    rcases hact with rfl | ⟨early, rfl⟩
    · exact ⟨t, ht, hsite, hfails, Bool.eq_false_iff.2 hl⟩
    · exact ⟨t, ht, hsite, hfails, Bool.eq_false_iff.2 hl⟩

/-- **Who is over after a step** was so before, has a live `prev`, or is a loop of `main` that has
given up. -/
theorem SendInv.step_over (h : SendInv ring alive c) (hs : c.step ring alive act = some c')
    {t' : Sender A} (ht' : t' ∈ c'.senders) (hdone : t'.stage = .done true) :
    t' ∈ c.senders ∨ alive (c'.prev t'.me) = true ∨
      (t'.site.recovers = false ∧ c.GivesUp alive act) := by
  cases act with
  | watch n =>
    obtain ⟨-, -, rfl⟩ := step_watch hs
    rcases List.mem_append.1 ht' with hmem | hnew
    · exact Or.inl hmem
    · rw [List.mem_singleton.1 hnew] at hdone
      cases hdone
  | coordinate n =>
    obtain ⟨-, -, rfl⟩ := step_coordinate hs
    rcases List.mem_append.1 ht' with hmem | hnew
    · exact Or.inl hmem
    · rw [List.mem_singleton.1 hnew] at hdone
      cases hdone
  | connect i early =>
    obtain ⟨t, ht, rfl | ⟨hfails, rfl⟩⟩ := step_connect hs
    · exact Or.inl (mem_of_over ht' hdone (by simp))
    · rcases mem_setStage ht' with hmem | rfl
      · exact Or.inl hmem
      · exact Or.inr (h.over_of_fails hs ht (Or.inr ⟨early, rfl⟩) hfails hdone)
  | call i =>
    obtain ⟨t, ht, ⟨dest, -, -, rfl⟩ | ⟨hfails, rfl⟩⟩ := step_call hs
    · rcases List.mem_append.1 ht' with hmem | hnew
      · exact Or.inl (mem_of_over hmem hdone (by simp))
      · obtain ⟨m, -, hrelay⟩ := List.mem_filterMap.1 hnew
        cases m with
        | token dest' token =>
          obtain rfl := Option.some.inj hrelay
          cases hdone
        | announce rest addresses => cases hrelay
    · rcases mem_setStage ht' with hmem | rfl
      · exact Or.inl hmem
      · exact Or.inr (h.over_of_fails hs ht (Or.inl rfl) hfails hdone)
  | tryNext i =>
    obtain ⟨t, myIdx, k, ht, hst, ⟨hlen, -⟩ | ⟨-, rfl⟩ | ⟨p, -, -, rfl⟩⟩ := step_tryNext hs
    · exact absurd ((h.senderOk ht).lt_length hst) (Nat.not_lt.2 hlen)
    · exact Or.inl (mem_of_over ht' hdone (by simp))
    · exact Or.inl (mem_of_over ht' hdone (by simp))
  | finish i =>
    obtain ⟨t, p, ht, hst, rfl⟩ := step_finish hs
    rcases mem_setStage ht' with hmem | rfl
    · exact Or.inl hmem
    · refine Or.inr (Or.inl ?_)
      show alive (Function.update c.node t.me _ t.me).connection.prev = true
      rw [Function.update_self]
      exact (h.stageOk ht hst).2
  | announce i =>
    obtain ⟨rest, addresses, -, rfl | ⟨s, rest', -, rfl | ⟨q, -, rfl⟩⟩⟩ := step_announce hs
    · exact Or.inl ht'
    · exact Or.inl ht'
    · exact Or.inl ht'

/-- **A step repairs what it detects**, unless it gives it up.  The loops of `main` give up where
the relays recover. -/
theorem Repaired.step (hrep : c.Repaired alive) (h : SendInv ring alive c)
    (hs : c.step ring alive act = some c') (hkept : ¬ c.GivesUp alive act) :
    c'.Repaired alive := by
  intro t ht hdone
  rcases h.step_over hs ht hdone with hold | hl | ⟨-, hgive⟩
  · exact h.live_prev hs (hrep t hold hdone)
  · exact hl
  · exact absurd hgive hkept

omit [SocketAddr A] [DecidableEq A] in
theorem not_repaired_setStage (ht : c.senders[i]? = some t) (hdead : alive (c.prev t.me) = false) :
    ¬ (c.setStage i t (.done true)).Repaired alive := by
  intro hrep
  have hlt := (List.getElem?_eq_some_iff.1 ht).1
  have hmem : { t with stage := .done true } ∈ (c.setStage i t (.done true)).senders :=
    List.mem_iff_getElem?.2 ⟨i, List.getElem?_set_self hlt⟩
  have hl : alive (c.prev t.me) = true := hrep { t with stage := .done true } hmem rfl
  rw [hdead] at hl
  cases hl

/-- What a step gives up stays dead. -/
theorem not_repaired_of_givesUp (hs : c.step ring alive act = some c')
    (hgive : c.GivesUp alive act) : ¬ c'.Repaired alive := by
  have hover : ∀ t : Sender A, t.site.recovers = false → t.followUp = .done true := by
    intro t hsite
    rw [Sender.followUp, if_neg (Bool.eq_false_iff.1 hsite)]
  cases act with
  | connect i early =>
    obtain ⟨t, ht, hsite, hfails, hdead⟩ := hgive
    simp only [Fails, Bool.and_eq_true, beq_iff_eq, Bool.not_eq_true'] at hfails
    obtain ⟨⟨hst, rfl⟩, -⟩ := hfails
    have hc' : some (c.setStage i t t.followUp) = some c' := by
      rw [← hs, Sending.step, Option.mem_def.1 ht]
      simp [hst, hdead]
    rw [← Option.some.inj hc', hover t hsite]
    exact not_repaired_setStage ht hdead
  | call i =>
    obtain ⟨t, ht, hsite, hfails, hdead⟩ := hgive
    rw [Fails] at hfails
    split at hfails
    · next dest hst =>
      have hc' : some (c.setStage i t t.followUp) = some c' := by
        rw [← hs, Sending.step, Option.mem_def.1 ht]
        simp only [Bool.not_eq_true'] at hfails
        simp [hst, hfails]
      rw [← Option.some.inj hc', hover t hsite]
      exact not_repaired_setStage ht hdead
    · cases hfails
  | watch n => exact absurd hgive id
  | coordinate n => exact absurd hgive id
  | tryNext i => exact absurd hgive id
  | finish i => exact absurd hgive id
  | announce i => exact absurd hgive id

/-! ## Runs

What has been detected is repaired, as long as nobody gives up. -/

variable {c₀ : Sending A} {tr : List (Sending A)}

omit [DecidableEq A] in
/-- The ring after the crashes, before anybody sends. -/
theorem sendInv_init (hring : WellFormed c₀.node ring)
    (hcache : ∀ a ∈ ring, FullCache ring (c₀.node a).ringCache) (hsenders : c₀.senders = [])
    (hannouncing : c₀.announcing = []) : SendInv ring alive c₀ := by
  refine ⟨fun a ha => hring.cycle.mem ha, fun a ha => covers_of_fullCache (hcache a ha) ha,
    by simp [hsenders], by simp [hannouncing]⟩

/-- **Relays repair.**  A relay that found its `prev` dead, and has recovered, has a live `prev`
from then on, whatever the other tasks of its node do. -/
theorem relays_repair (hinit : SendInv ring alive c₀) (hsenders : c₀.senders = [])
    (h : Run (step ring alive) (fun _ _ => True) c₀ tr) :
    ∀ c ∈ tr, ∀ t ∈ c.senders, t.site.recovers = true → t.stage = .done true →
      alive (c.prev t.me) = true := by
  have hrun := Run.forall_mem (I := fun c : Sending A => SendInv ring alive c ∧
    ∀ t ∈ c.senders, t.site.recovers = true → t.stage = .done true → alive (c.prev t.me) = true)
    ⟨hinit, by simp [hsenders]⟩ ?_ h
  · exact fun c hc => (hrun c hc).2
  · rintro c tr act c' - - ⟨hinv, hrep⟩ hs
    refine ⟨hinv.step hs, fun t ht hsite hdone => ?_⟩
    rcases hinv.step_over hs ht hdone with hold | hl | ⟨hmain, -⟩
    · exact hinv.live_prev hs (hrep t hold hsite hdone)
    · exact hl
    · rw [hsite] at hmain
      cases hmain

/-- The steps that give up no dead `prev`. -/
def Keeps (alive : A → Bool) : List (Sending A) → SendAction A → Prop
  | c :: _, act => ¬ c.GivesUp alive act
  | [], _ => True

/-- **Which losses are repaired.**  From a ring with full caches and any crashes, along every run:
everybody who found its `prev` dead and has done what follows has a live `prev`, if and only if no
loop of `main` meets a failure at a node whose `prev` is dead. -/
theorem repaired_iff (hring : WellFormed c₀.node ring)
    (hcache : ∀ a ∈ ring, FullCache ring (c₀.node a).ringCache) (hsenders : c₀.senders = [])
    (hannouncing : c₀.announcing = []) (h : Run (step ring alive) (fun _ _ => True) c₀ tr) :
    (∀ c ∈ tr, c.Repaired alive) ↔ Run (step ring alive) (Keeps alive) c₀ tr := by
  constructor
  · intro hrep
    refine h.of_forall_step fun c' c rest act hsuf hs => ?_
    intro hgive
    exact not_repaired_of_givesUp hs hgive (hrep c' (hsuf.subset List.mem_cons_self))
  · intro hkeeps
    have hrun := Run.forall_mem (I := fun c => SendInv ring alive c ∧ c.Repaired alive)
      ⟨sendInv_init hring hcache hsenders hannouncing, by simp [Repaired, hsenders]⟩ ?_ hkeeps
    · exact fun c hc => (hrun c hc).2
    · rintro c tr act c' - hkept ⟨hinv, hrep⟩ hs
      exact ⟨hinv.step hs, hrep.step hinv hs hkept⟩

/-! ## Runs of two rings

One that is repaired, and one in which a loop of `main` gives up. -/

instance decidableKeeps (alive : A → Bool) :
    ∀ (tr : List (Sending A)) (act : SendAction A), Decidable (Keeps alive tr act)
  | c :: _, act => inferInstanceAs (Decidable (¬ c.GivesUp alive act))
  | [], _ => inferInstanceAs (Decidable True)

/-- A ring of four before anybody sends. -/
def four : Sending (Fin 4) where
  node := quartet.node
  senders := []
  announcing := []

/-- The neighbours 1 and 2 have crashed.  Node 0 notices when it relays an election of node 3. -/
theorem repaired_iff_relay :
    ∃ c : Sending (Fin 4), ∃ tr, Run (step [0, 1, 2, 3] survivors) (Keeps survivors) four (c :: tr) ∧
      (∀ s ∈ c :: tr, s.Repaired survivors) ∧ four.prev 0 = 1 ∧ c.prev 0 = 3 := by
  have hcheck : Run.checkStep (step [0, 1, 2, 3] survivors)
      (fun tr act => decide (Keeps survivors tr act)) four
      [.watch 3, .connect 0 false, .call 0, .connect 1 false, .tryNext 1, .tryNext 1, .tryNext 1]
      (.finish 1) (fun c _ _ => decide (c.prev 0 = 3)) = true := by
    decide +kernel
  obtain ⟨c, s, tr, hrun, -, hp⟩ :=
    Run.exists_of_checkStep (C := Keeps survivors) (fun _ _ => of_decide_eq_true) hcheck
  have hring : WellFormed four.node [0, 1, 2, 3] :=
    ⟨CycleOn.iff_isChain.2 ⟨by decide, by decide⟩, by decide⟩
  have hcache : ∀ a ∈ [(0 : Fin 4), 1, 2, 3], FullCache [(0 : Fin 4), 1, 2, 3]
      (four.node a).ringCache :=
    fun a _ => ⟨_, ⟨a.val, rfl⟩, rfl⟩
  have hall : Run (step [0, 1, 2, 3] survivors) (fun _ _ => True) four (c :: s :: tr) :=
    hrun.mono fun _ _ _ => trivial
  exact ⟨c, s :: tr, hrun, (repaired_iff hring hcache rfl rfl hall).2 hrun, by decide,
    of_decide_eq_true hp⟩

/-- A ring of two with full caches. -/
def two : Sending (Fin 4) where
  node a := {
    connection := { prev := if a = 0 then 1 else 0, next := if a = 0 then 1 else 0 }
    amICoordinator := false
    ringCache := [(0 : Fin 4), 1].map SocketAddr.toString }
  senders := []
  announcing := []

/-- Only node 0 is left. -/
def lastSurvivor (a : Fin 4) : Bool := a = 0

/-- The watcher of the last survivor cannot connect to the crashed node, and leaves it as `prev`. -/
theorem not_repaired : WellFormed two.node [0, 1] ∧
    (∀ a ∈ [(0 : Fin 4), 1], FullCache [(0 : Fin 4), 1] (two.node a).ringCache) ∧
    ∃ c tr, Run (step [0, 1] lastSurvivor) (fun _ _ => True) two (c :: tr) ∧
      (∃ t ∈ c.senders, t.me = 0 ∧ t.stage = .done true) ∧ c.prev 0 = 1 ∧
      ¬ c.Repaired lastSurvivor := by
  refine ⟨⟨CycleOn.iff_isChain.2 ⟨by decide, by decide⟩, by decide⟩,
    fun a _ => ⟨_, List.IsRotated.refl _, rfl⟩, ?_⟩
  have hcheck : Run.checkStep (step [0, 1] lastSurvivor) (fun _ _ => true) two
      [.watch 0] (.connect 0 false)
      (fun c _ _ => decide ((∃ t ∈ c.senders, t.me = 0 ∧ t.stage = .done true) ∧ c.prev 0 = 1 ∧
        ¬ c.Repaired lastSurvivor)) = true := by
    decide +kernel
  obtain ⟨c, s, tr, hrun, -, hp⟩ :=
    Run.exists_of_checkStep (C := fun _ _ => True) (fun _ _ _ => trivial) hcheck
  exact ⟨c, s :: tr, hrun, of_decide_eq_true hp⟩

end Sending
end Ring
end DistributedPrograms
