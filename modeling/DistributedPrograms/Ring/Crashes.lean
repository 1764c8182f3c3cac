import DistributedPrograms.Ring.PrevRepair

/-!
# Nodes that crash in the midst of their work

`Sending` has nodes that are dead from the start.  Here nodes crash at any moment, while tokens,
announcements and recoveries are on their way, and as often as there are nodes.

* `Crashing` is the state: who is alive, what the nodes and their tasks do, and the requests that
  crashed nodes have left behind.
* A crashed node takes its tasks with it, but not what they have sent.  A request that was on its
  way when its sender crashed is an `Orphan`: it is handled at any later moment, in any order, or
  never.
* `Crashing.step` is one step of a ring in which this happens.

The requests are those of the tasks: tokens, and the `set_next` of a recovery.  An announcement has
no owner in `Sending`, so a crash says which announcements are `left`; one of a crashed node whose
last call is still on its way is among them.

A call to a live node is handled and answered in one step, so whoever has called a live node takes
the call for a success, even if that node crashes right after.
-/

set_option autoImplicit false

namespace DistributedPrograms
namespace Ring

open SocketAddr

/-! ## Requests without a sender

What a crashed node leaves behind. -/

/-- A request whose sender has crashed, and that nobody has handled yet. -/
inductive Orphan (A : Type) where
  /-- a token for `dest` -/
  | send (dest : A) (token : Token)
  /-- `set_next` of the crashed node `me` -/
  | setNext (dest me : A)
  deriving DecidableEq, Repr

/-- The request that a sender may have on its way. -/
def Sender.request {A : Type} [SocketAddr A] (t : Sender A) : Option (Orphan A) :=
  match t.stage with
  | .connected dest => some (.send dest t.token)
  | .searching myIdx i =>
    if i < t.memberCache.length then
      (Node.candidate t.memberCache myIdx i).map fun prev => .setNext prev t.me
    else none
  | _ => none

variable {A : Type} [DecidableEq A] [SocketAddr A]

/-- The requests that `n` may have on their way. -/
def Sending.requests (c : Sending A) (n : A) : List (Orphan A) :=
  (c.senders.filter fun t => t.me = n).filterMap Sender.request

/-- The handler of the receiver runs, unless the receiver has crashed too. -/
def Orphan.handle (alive : A → Bool) (c : Sending A) : Orphan A → Option (Sending A)
  | .send dest token => some (if alive dest then c.deliver dest token else c)
  | .setNext dest me =>
    if alive dest then do
      let n ← (c.node dest).setNext (toString me)
      return c.setNode dest n
    else some c

/-- A `set_next` that a live node has not handled yet. -/
def Orphan.Links (alive : A → Bool) : Orphan A → Prop
  | .send _ _ => False
  | .setNext dest _ => alive dest = true

omit [DecidableEq A] [SocketAddr A] in
instance (alive : A → Bool) (r : Orphan A) : Decidable (r.Links alive) := by
  cases r <;> dsimp only [Orphan.Links] <;> infer_instance

/-! ## Crashes

One step of the ring, and who is alive behind it. -/

/-- Which nodes are alive, what they do, and what the others have left behind. -/
structure Crashing (A : Type) where
  alive : A → Bool
  sending : Sending A
  orphans : List (Orphan A)

inductive CrashAction (A : Type) where
  /-- `n` crashes; the announcements `left` go on, and the requests `orphans` of `n` are on their
  way -/
  | crash (n : A) (left : List (List String × List String)) (orphans : List (Orphan A))
  /-- the `i`-th request of a crashed node is handled -/
  | orphan (i : Nat)
  /-- a live node goes on with a send, a recovery or an announcement -/
  | act (act : SendAction A)
  deriving DecidableEq, Repr

namespace Crashing

/-- The ring `c` before anybody has crashed. -/
def unharmed (c : Sending A) : Crashing A where
  alive _ := true
  sending := c
  orphans := []

/-- One step of the ring `ring`. -/
def step (ring : List A) (s : Crashing A) : CrashAction A → Option (Crashing A)
  | .crash n left orphans =>
    if left.Sublist s.sending.announcing ∧ orphans.Sublist (s.sending.requests n) then
      some
        { alive := Function.update s.alive n false
          sending := { s.sending with
            senders := s.sending.senders.filter fun t => t.me ≠ n
            announcing := left }
          orphans := s.orphans ++ orphans }
    else none
  | .orphan i => do
    let r ← s.orphans[i]?
    let c ← r.handle s.alive s.sending
    return { s with sending := c, orphans := s.orphans.eraseIdx i }
  | .act act => (s.sending.step ring s.alive act).map fun c => { s with sending := c }

/-! ## What the steps do

Crashes, late requests and live nodes, as inversion lemmas. -/

variable {ring : List A} {s s' : Crashing A} {c c' : Sending A} {alive : A → Bool} {r : Orphan A}
  {n : A} {i : Nat}

/-- **An orphan is handled** by a live receiver, as any request, and a dead one does nothing. -/
theorem handle_cases (h : r.handle alive c = some c') :
    (∃ dest token, r = .send dest token ∧ alive dest ∧ c' = c.deliver dest token) ∨
    (∃ dest me, r = .setNext dest me ∧ alive dest ∧ c' = c.setNode dest { c.node dest with
      connection := { (c.node dest).connection with next := me } }) ∨
    c' = c := by
  cases r with
  | send dest token =>
    rw [Orphan.handle] at h
    obtain rfl := Option.some.inj h
    split
    · next hl => exact Or.inl ⟨dest, token, rfl, hl, rfl⟩
    · exact Or.inr (Or.inr rfl)
  | setNext dest me =>
    rw [Orphan.handle] at h
    split at h
    · next hl =>
      refine Or.inr (Or.inl ⟨dest, me, rfl, hl, ?_⟩)
      simpa [Node.setNext] using h.symm
    · exact Or.inr (Or.inr (Option.some.inj h).symm)

theorem step_crash {left : List (List String × List String)} {orphans : List (Orphan A)}
    (h : s.step ring (.crash n left orphans) = some s') :
    left.Sublist s.sending.announcing ∧ orphans.Sublist (s.sending.requests n) ∧
      s' = ⟨Function.update s.alive n false, { s.sending with
        senders := s.sending.senders.filter fun t => t.me ≠ n, announcing := left },
        s.orphans ++ orphans⟩ := by
  rw [step] at h
  split at h
  · next hg => exact ⟨hg.1, hg.2, (Option.some.inj h).symm⟩
  · cases h

theorem step_orphan (h : s.step ring (.orphan i) = some s') :
    ∃ r c, s.orphans[i]? = some r ∧ r.handle s.alive s.sending = some c ∧
      s' = { s with sending := c, orphans := s.orphans.eraseIdx i } := by
  obtain ⟨r, hr, h⟩ := Option.bind_eq_some_iff.1 h
  obtain ⟨c, hc, h⟩ := Option.bind_eq_some_iff.1 h
  exact ⟨r, c, hr, hc, (Option.some.inj h).symm⟩

theorem step_act {act : SendAction A} (h : s.step ring (.act act) = some s') :
    ∃ c, s.sending.step ring s.alive act = some c ∧ s' = { s with sending := c } := by
  obtain ⟨c, hc, rfl⟩ := Option.map_eq_some_iff.1 h
  exact ⟨c, hc, rfl⟩

/-- Every orphan has been the request of a task of the node that has crashed. -/
theorem sender_of_requests (h : r ∈ c.requests n) :
    ∃ t ∈ c.senders, t.me = n ∧ t.request = some r := by
  obtain ⟨t, ht, hr⟩ := List.mem_filterMap.1 h
  obtain ⟨hmem, hme⟩ := List.mem_filter.1 ht
  exact ⟨t, hmem, of_decide_eq_true hme, hr⟩

omit [DecidableEq A] in
/-- What a sender has on its way: its token, or a `set_next`. -/
theorem request_cases {t : Sender A} (h : t.request = some r) :
    (∃ dest, t.stage = .connected dest ∧ r = .send dest t.token) ∨
    (∃ myIdx i p, t.stage = .searching myIdx i ∧ i < t.memberCache.length ∧
      Node.candidate t.memberCache myIdx i = some p ∧ r = .setNext p t.me) := by
  rw [Sender.request] at h
  split at h
  · next dest hs => exact Or.inl ⟨dest, hs, (Option.some.inj h).symm⟩
  · next myIdx i hs =>
    split at h
    · next hi =>
      obtain ⟨p, hp, rfl⟩ := Option.map_eq_some_iff.1 h
      exact Or.inr ⟨myIdx, i, p, hs, hi, hp, rfl⟩
    · cases h
  · cases h

omit [SocketAddr A] in
theorem alive_of_update {x : A} (h : Function.update alive n false x) : alive x := by
  by_cases hxn : x = n
  · rw [hxn, Function.update_self] at h
    cases h
  · rwa [Function.update_of_ne hxn] at h

end Crashing
end Ring
end DistributedPrograms
