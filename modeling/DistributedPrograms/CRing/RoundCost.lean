import DistributedPrograms.CRing.Election
import DistributedPrograms.Lib.Budget

/-!
# What the rounds of the C ring cost

An RPC carries every name at most once, whatever happens to the `prev` pointers on the way, so it is
forwarded a bounded number of times: `RoundAction.handle` uses up the `work` that is left of the
handlers.  A handler of a round never waits for ever, because whoever has a `join_lock` can move
(`exists_handle`).  So every round comes to its end, and nothing but `heatbeater` starts another one
(`rounds_end`).

The pointers may change at any moment, but `relink` is one step, which takes no `join_lock`.  What
is said of waiting is therefore said of `list`, `election` and `coordinate` among themselves; the
locks of `join`, `set_prev` and `set_next` are in `CRing.Apart` (`changes_go_on`), and every one of
these handlers gives `join_lock` back without waiting for a round.

On a ring that stands still the cost is exact: a `list` is sent once to each of the `n` members, an
`election` and the `coordinate` after it once each (`messages`).
-/

set_option autoImplicit false

namespace DistributedPrograms
namespace CRing
namespace Rounds

variable {ring : List Name} {s s' : Rounds} {act : RoundAction} {a : Name} {i n : Nat}

/-! ## What is left to do

A handler has a fixed number of steps, and the RPC that it sends is counted with it.  What follows
from an RPC depends on how many processes its list has not been to. -/

/-- How many more RPCs follow one that arrives, on a ring of `n`.  An `election` that has come
around is followed by a `coordinate` around the whole ring. -/
def rpcLeft (n : Nat) : Rpc → Nat
  | .list nodeList => n - nodeList.length
  | .election nodeList => n - nodeList.length + n
  | .coordinate _ read => n - read.length

/-- How many more RPCs follow from a handler. -/
def left (n : Nat) : Handler → Nat
  | .arriving rpc => rpcLeft n rpc
  | .sending rpc _ => 1 + rpcLeft n rpc
  | .locked rpc _ => 1 + rpcLeft n rpc
  | .sent _ => 0
  | .electing _ => 0
  | .returned => 0

/-- The steps of the last of these handlers, beside the four of each before it. -/
def rpcLast : Rpc → Nat
  | .list _ => 1
  | .election _ => 2
  | .coordinate _ _ => 1

/-- The step behind the lock that only the end of an `election` has. -/
def electedWork (elected : Option NodeList) : Nat := if elected.isSome then 1 else 0

def rpcWork (n : Nat) (rpc : Rpc) : Nat := 4 * rpcLeft n rpc + rpcLast rpc

/-- How many steps a handler and those that follow from it still take.  It is counted from the
members that are not on the list yet, so it does not depend on where the pointers lead. -/
def work (n : Nat) : Handler → Nat
  | .arriving rpc => rpcWork n rpc
  | .sending rpc elected => 3 + electedWork elected + rpcWork n rpc
  | .locked rpc elected => 2 + electedWork elected + rpcWork n rpc
  | .sent elected => 1 + electedWork elected
  | .electing _ => 1
  | .returned => 0

/-- The sum of `w` over all handlers. -/
def total (w : Handler → Nat) (s : Rounds) : Nat := (s.handlers.map fun ah => w ah.2).sum

variable {w : Handler → Nat}

/-- Moving one handler changes the sum by what it had and what it has. -/
theorem total_set {h h' : Handler} (hi : s.handlers[i]? = some (a, h))
    (hs' : s'.handlers = s.handlers.set i (a, h')) : total w s' + w h = total w s + w h' := by
  rw [total, total, hs']
  exact sum_map_set (fun ah : Name × Handler => w ah.2) (a, h') hi

theorem total_forward {dest : Name} {rpc : Rpc} :
    total w (s.forward dest rpc) = total w s + w (.arriving rpc) := by
  rw [total, total, forward_handlers, List.map_append, List.sum_append]
  simp

/-! ## Lists that fit

A list without a name twice, of processes of the ring, is no longer than the ring, so there is
always something to count down from. -/

/-- An RPC has been to processes of the ring only, and nowhere twice. -/
def RpcFits (ring : List Name) (rpc : Rpc) : Prop := rpc.collected.Nodup ∧ rpc.collected ⊆ ring

def HandlerFits (ring : List Name) : Handler → Prop
  | .arriving rpc => RpcFits ring rpc
  | .sending rpc _ => RpcFits ring rpc
  | .locked rpc _ => RpcFits ring rpc
  | .sent _ => True
  | .electing _ => True
  | .returned => True

section Fits

variable {p : Process} {rpc : Rpc}

theorem RpcFits.length_le (h : RpcFits ring rpc) : rpc.collected.length ≤ ring.length :=
  (List.subperm_of_subset h.1 h.2).length_le

theorem fits_singleton (ha : a ∈ ring) (hrpc : rpc.collected = [a]) : RpcFits ring rpc := by
  rw [RpcFits, hrpc]
  exact ⟨List.nodup_singleton a, List.cons_subset.2 ⟨ha, List.nil_subset _⟩⟩

theorem RpcFits.push (h : RpcFits ring rpc) (ha : a ∈ ring) (hnew : a ∉ rpc.collected) :
    RpcFits ring (rpc.push a) := by
  rw [RpcFits, Rpc.collected_push]
  refine ⟨?_, List.append_subset.2 ⟨h.2, List.cons_subset.2 ⟨ha, List.nil_subset _⟩⟩⟩
  rw [← List.concat_eq_append]
  exact h.1.concat hnew

/-- What a handler is to forward fits. -/
theorem enter_fits (h : RpcFits ring rpc) (ha : a ∈ ring) :
    HandlerFits ring (p.enter a rpc).2 := by
  rw [Process.enter_handler]
  split
  · cases rpc with
    | list nodeList => exact trivial
    | election nodeList => exact fits_singleton ha rfl
    | coordinate members read => exact trivial
  · next hnew => exact h.push ha hnew

/-- An RPC with room for one more name is forwarded once more. -/
theorem rpcLeft_push (h : rpc.collected.length < n) : rpcLeft n rpc = rpcLeft n (rpc.push a) + 1 := by
  cases rpc <;> simp [rpcLeft, Rpc.push, pushName, Rpc.collected] at h ⊢ <;> omega

theorem rpcLast_push : rpcLast (rpc.push a) = rpcLast rpc := by
  cases rpc <;> rfl

theorem RpcFits.length_lt (h : RpcFits ring rpc) (ha : a ∈ ring) (hnew : a ∉ rpc.collected) :
    rpc.collected.length < ring.length := by
  have hle := (h.push ha hnew).length_le
  rwa [Rpc.collected_push, List.length_append, List.length_singleton] at hle

/-- The first part of a handler uses up a step: what it leaves to do is less than it had. -/
theorem enter_work (h : RpcFits ring rpc) (ha : a ∈ ring) :
    work ring.length (p.enter a rpc).2 + 1 ≤ work ring.length (.arriving rpc) := by
  have hpos : 0 < ring.length := List.length_pos_of_mem ha
  rw [Process.enter_handler]
  split
  · cases rpc <;> simp [Rpc.back, work, rpcWork, rpcLast, rpcLeft, electedWork, pushName]
    omega
  · next hnew =>
    have hleft := rpcLeft_push (a := a) (h.length_lt ha hnew)
    simp only [work, rpcWork, electedWork, rpcLast_push, hleft]
    simp
    omega

end Fits

/-- Every RPC fits, and no pointer leads out of the ring.  This holds while pointers change at any
moment. -/
structure FitInv (ring : List Name) (s : Rounds) : Prop where
  prev_mem : ∀ a ∈ ring, (s.process a).prev ∈ ring
  handlers : ∀ a h, (a, h) ∈ s.handlers → a ∈ ring ∧ HandlerFits ring h

theorem FitInv.step (h : FitInv ring s) (hs : s.step ring act = some s') : FitInv ring s' := by
  -- the parts that a change of one handler leaves to show
  have hset : ∀ {i : Nat} {a : Name} {h₀ h₁ : Handler}, s.handlers[i]? = some (a, h₀) →
      HandlerFits ring h₁ → ∀ b h', (b, h') ∈ s.handlers.set i (a, h₁) →
      b ∈ ring ∧ HandlerFits ring h' := by
    intro i a h₀ h₁ hi hfits b h' hmem
    rcases List.mem_or_eq_of_mem_set hmem with hold | heq
    · exact h.handlers b h' hold
    · obtain ⟨hb, hh⟩ := Prod.mk.inj heq
      rw [hb, hh]
      exact ⟨(h.handlers a h₀ (List.mem_of_getElem? hi)).1, hfits⟩
  have hprev : ∀ {a : Name} {p : Process}, p.prev = (s.process a).prev →
      ∀ b ∈ ring, ((s.setProcess a p).process b).prev ∈ ring :=
    fun hp b hb => (prev_setProcess hp).symm ▸ h.prev_mem b hb
  cases step_cases hs with
  | @heatbeat a ha =>
    refine ⟨fun b hb => ?_, fun b h' hmem => ?_⟩
    · obtain ⟨p, hp, -, -, hq⟩ := heatbeat_cases s a
      rcases hq with hq | hq | hq <;> rw [hq] <;> exact hprev hp b hb
    · rcases heatbeat_handlers s a with heq | ⟨rpc, hrpc, heq⟩ <;> rw [heq] at hmem
      · exact h.handlers b h' hmem
      · rcases List.mem_append.1 hmem with hmem | hmem
        · exact h.handlers b h' hmem
        · cases List.mem_singleton.1 hmem
          refine ⟨h.prev_mem a ha, fits_singleton ha ?_⟩
          rcases hrpc with rfl | rfl <;> rfl
  | @relink a prev ha hmem =>
    refine ⟨fun b hb => ?_, h.handlers⟩
    rw [setProcess_process]
    split
    · exact hmem
    · exact h.prev_mem b hb
  | enter hi =>
    obtain ⟨ha, hfits⟩ := h.handlers _ _ (List.mem_of_getElem? hi)
    exact ⟨hprev enter_prev, hset hi (enter_fits hfits ha)⟩
  | @lock i a rpc elected hi hfree =>
    have hfits : RpcFits ring rpc := (h.handlers a _ (List.mem_of_getElem? hi)).2
    exact ⟨hprev rfl, hset hi hfits⟩
  | @forward i a rpc elected hi =>
    obtain ⟨ha, hfits⟩ := h.handlers a _ (List.mem_of_getElem? hi)
    refine ⟨h.prev_mem, fun b h' hmem => ?_⟩
    rcases List.mem_append.1 hmem with hmem | hmem
    · exact hset hi (show HandlerFits ring (.sent elected) from trivial) b h' hmem
    · cases List.mem_singleton.1 hmem
      exact ⟨h.prev_mem a ha, hfits⟩
  | @unlock i a elected hi =>
    have hfits : HandlerFits ring (.unlocked elected) := by cases elected <;> exact trivial
    exact ⟨hprev rfl, hset hi hfits⟩
  | elect hi => exact ⟨hprev rfl, hset hi trivial⟩

/-! ## The work of a run

A step of a handler leaves less to do than there was.  Only `heatbeater` adds work, and it adds at
most one round. -/

/-- **A step of a handler** uses up work, also the step that sends an RPC and so makes a new
handler. -/
theorem FitInv.handle_work (h : FitInv ring s) (hs : s.step ring (.handle i) = some s') :
    total (work ring.length) s' + 1 ≤ total (work ring.length) s := by
  have hmove : ∀ {a : Name} {h₀ h₁ : Handler}, s.handlers[i]? = some (a, h₀) →
      s'.handlers = s.handlers.set i (a, h₁) → work ring.length h₁ + 1 ≤ work ring.length h₀ →
      total (work ring.length) s' + 1 ≤ total (work ring.length) s := by
    intro a h₀ h₁ hi hs' hwork
    have htotal := total_set (w := work ring.length) hi hs'
    omega
  cases step_cases hs with
  | enter hi =>
    obtain ⟨ha, hfits⟩ := h.handlers _ _ (List.mem_of_getElem? hi)
    exact hmove hi rfl (enter_work hfits ha)
  | lock hi hfree => exact hmove hi rfl (by simp only [work]; omega)
  | @forward i a rpc elected hi =>
    have hset : (s.setHandler i a (.sent elected)).handlers =
        s.handlers.set i (a, .sent elected) := rfl
    have htotal := total_set (w := work ring.length) hi hset
    rw [total_forward]
    simp only [work] at htotal ⊢
    omega
  | @unlock i a elected hi =>
    refine hmove hi rfl ?_
    cases elected <;> simp [Handler.unlocked, work, electedWork]
  | elect hi => exact hmove hi rfl le_rfl

/-- What `heatbeater` starts. -/
theorem heatbeat_work (s : Rounds) (ha : a ∈ ring) :
    total (work ring.length) (s.heatbeat a) ≤ total (work ring.length) s + 8 * ring.length := by
  have hpos : 0 < ring.length := List.length_pos_of_mem ha
  rcases heatbeat_handlers s a with heq | ⟨rpc, hrpc, heq⟩
  · rw [total, total, heq]
    omega
  · have htotal : total (work ring.length) (s.heatbeat a) =
        total (work ring.length) s + rpcWork ring.length rpc := by
      rw [total, total, heq, List.map_append, List.sum_append]
      simp [work]
    rw [htotal]
    rcases hrpc with rfl | rfl <;> simp [rpcWork, rpcLeft, rpcLast] <;> omega

/-! ## Locks

Every handler that waits for a lock waits for one that can move. -/

/-- The handler stands between its lock and its unlock. -/
def HasLock : Handler → Prop
  | .arriving _ => False
  | .sending _ _ => False
  | .locked _ _ => True
  | .sent _ => True
  | .electing _ => False
  | .returned => False

/-- The `i`-th handler runs in `a` and has its lock. -/
def Owns (s : Rounds) (i : Nat) (a : Name) : Prop :=
  ∃ h, s.handlers[i]? = some (a, h) ∧ HasLock h

/-- A `join_lock` is with the handler that stands behind it.  No handler waits for anything but its
lock, and none takes a second one. -/
def LockInv (s : Rounds) : Prop := ∀ a i, (s.process a).joinLock = some i ↔ s.Owns i a

section Locks

variable {b : Name} {j : Nat} {h₀ h₁ : Handler} {out : List (Name × Handler)}

theorem owns_iff (hi : s.handlers[i]? = some (a, h₀)) : s.Owns i b ↔ b = a ∧ HasLock h₀ := by
  refine ⟨?_, ?_⟩
  · rintro ⟨h, hb, hhas⟩
    obtain ⟨rfl, rfl⟩ := Prod.mk.inj (Option.some.inj (hi.symm.trans hb))
    exact ⟨rfl, hhas⟩
  · rintro ⟨rfl, hhas⟩
    exact ⟨h₀, hi, hhas⟩

/-- An RPC that is sent has no lock. -/
theorem owns_append (hs' : s'.handlers = s.handlers ++ out) (hout : ∀ ah ∈ out, ¬HasLock ah.2) :
    s'.Owns j b ↔ s.Owns j b := by
  rw [Owns, Owns, hs']
  refine exists_congr fun h => and_congr_left fun hhas => ?_
  rcases Nat.lt_or_ge j s.handlers.length with hlt | hge
  · rw [List.getElem?_append_left hlt]
  · rw [List.getElem?_append_right hge, List.getElem?_eq_none hge]
    refine ⟨fun hget => ?_, fun hget => by cases hget⟩
    exact absurd hhas (hout _ (List.mem_of_getElem? hget))

/-- When one handler moves, the locks of the others stay where they are. -/
theorem owns_move (hi : s.handlers[i]? = some (a, h₀))
    (hs' : s'.handlers = s.handlers.set i (a, h₁)) :
    s'.Owns j b ↔ if j = i then b = a ∧ HasLock h₁ else s.Owns j b := by
  have hlt : i < s.handlers.length := (List.getElem?_eq_some_iff.1 hi).1
  split
  · next hji =>
    subst hji
    refine owns_iff ?_
    rw [hs', List.getElem?_set_self hlt]
  · next hji => rw [Owns, Owns, hs', List.getElem?_set_ne (Ne.symm hji)]

/-- A move that neither takes nor gives back a lock. -/
theorem LockInv.keep (h : LockInv s) (hi : s.handlers[i]? = some (a, h₀))
    (hs' : s'.handlers = s.handlers.set i (a, h₁)) (hhas : HasLock h₁ ↔ HasLock h₀)
    (hlock : ∀ b, (s'.process b).joinLock = (s.process b).joinLock) : LockInv s' := by
  intro b j
  rw [hlock, h, owns_move hi hs']
  split
  · next hji => rw [hji, owns_iff hi, hhas]
  · exact Iff.rfl

/-- A move by which the handler takes the lock of its process, or gives it back. -/
theorem LockInv.setLock (h : LockInv s) (hi : s.handlers[i]? = some (a, h₀)) {p : Process}
    (hp : ∀ j, p.joinLock = some j ↔
      if j = i then HasLock h₁ else (s.process a).joinLock = some j) :
    LockInv ((s.setProcess a p).setHandler i a h₁) := by
  intro b j
  rw [owns_move hi rfl, setHandler_process, setProcess_process]
  by_cases hba : b = a
  · subst hba
    rw [if_pos rfl, hp]
    split
    · simp
    · exact h b j
  · rw [if_neg hba, h]
    split
    · next hji => simp [hji, owns_iff hi, hba]
    · exact Iff.rfl

theorem joinLock_setProcess {p : Process} (hp : p.joinLock = (s.process a).joinLock) (b : Name) :
    ((s.setProcess a p).process b).joinLock = (s.process b).joinLock := by
  rw [setProcess_process]
  split
  · next hba => rw [hp, hba]
  · rfl

end Locks

theorem LockInv.step (h : LockInv s) (hs : s.step ring act = some s') : LockInv s' := by
  cases step_cases hs with
  | @heatbeat a ha =>
    obtain ⟨p, -, -, hp, hq⟩ := heatbeat_cases s a
    have hlock : ∀ b, ((s.heatbeat a).process b).joinLock = (s.process b).joinLock := by
      rcases hq with hq | hq | hq <;> rw [hq] <;> exact joinLock_setProcess hp
    intro b j
    rw [hlock, h]
    rcases heatbeat_handlers s a with heq | ⟨rpc, -, heq⟩
    · rw [Owns, Owns, heq]
    · refine (owns_append heq fun ah hah => ?_).symm
      rw [List.mem_singleton.1 hah]
      exact id
  | @relink a prev ha hprev =>
    intro b j
    have hlock := joinLock_setProcess (s := s) (a := a) (p := { s.process a with prev }) rfl b
    exact (iff_of_eq (congrArg (· = some j) hlock)).trans (h b j)
  | enter hi =>
    refine h.keep hi rfl (iff_of_false ?_ id) (joinLock_setProcess enter_joinLock)
    rw [Process.enter_handler]
    split
    · next rpc _ =>
      cases rpc <;> exact id
    · exact id
  | @lock i a rpc elected hi hfree =>
    refine h.setLock hi fun j => ?_
    split
    · next hji => simp [hji, HasLock]
    · next hji => simp [hfree, Ne.symm hji]
  | @forward i a rpc elected hi =>
    have hmoved : LockInv (s.setHandler i a (.sent elected)) :=
      h.keep hi rfl Iff.rfl fun _ => rfl
    intro b j
    rw [forward_process, hmoved b j]
    refine (owns_append (forward_handlers ..) fun ah hah => ?_).symm
    rw [List.mem_singleton.1 hah]
    exact id
  | @unlock i a elected hi =>
    have hhas : ¬HasLock (.unlocked elected) := by cases elected <;> exact id
    have howns : (s.process a).joinLock = some i := (h a i).2 ⟨_, hi, trivial⟩
    refine h.setLock hi fun j => ?_
    split
    · simp [hhas]
    · next hji => simp [howns, Ne.symm hji]
  | elect hi => exact h.keep hi rfl Iff.rfl (joinLock_setProcess rfl)

/-- **No handler waits for ever**: while one has not returned, one can move, be it only the one that
has the lock. -/
theorem LockInv.exists_handle (h : LockInv s) (hsettled : ¬s.Settled) :
    ∃ i s', s.step ring (.handle i) = some s' := by
  simp only [Settled, not_forall] at hsettled
  obtain ⟨⟨a, h'⟩, hmem, hne⟩ := hsettled
  obtain ⟨i, hi⟩ := List.mem_iff_getElem?.1 hmem
  cases h' with
  | sending rpc elected =>
    cases hlock : (s.process a).joinLock with
    | none => exact ⟨i, _, by rw [Rounds.step, hi]; exact if_pos hlock⟩
    | some j =>
      -- the one who has the lock can move
      obtain ⟨h'', hj, hhas⟩ := (h a j).1 hlock
      refine ⟨j, ?_⟩
      rw [Rounds.step, hj]
      cases h'' with
      | locked rpc elected => exact ⟨_, rfl⟩
      | sent elected => exact ⟨_, rfl⟩
      | _ => exact absurd hhas id
  | returned => exact absurd rfl hne
  | _ =>
    refine ⟨i, ?_⟩
    rw [Rounds.step, hi]
    exact ⟨_, rfl⟩

/-! ## Every round ends

Steps are paid for, and while a handler has not returned, one can move. -/

def isHandle : RoundAction → Bool
  | .heatbeat _ => false
  | .handle _ => true
  | .relink _ _ => false

def isHeatbeat : RoundAction → Bool
  | .heatbeat _ => true
  | .handle _ => false
  | .relink _ _ => false

/-- Nothing is on its way, and no pointer leads out of the ring. -/
structure Idle (ring : List Name) (s : Rounds) : Prop where
  prev_mem : ∀ a ∈ ring, (s.process a).prev ∈ ring
  handlers : s.handlers = []
  joinLock : ∀ a, (s.process a).joinLock = none

theorem Idle.fitInv (h : Idle ring s) : FitInv ring s where
  prev_mem := h.prev_mem
  handlers a h' hmem := by
    rw [h.handlers] at hmem
    exact absurd hmem List.not_mem_nil

theorem lockInv_init (hhandlers : s.handlers = []) (hlock : ∀ a, (s.process a).joinLock = none) :
    LockInv s := by
  intro a i
  simp [hlock, Owns, hhandlers]

variable {s₀ : Rounds} {as : List RoundAction}

theorem Idle.steps (h : Idle ring s₀)
    (hsteps : Steps (Rounds.step ring) (fun _ _ => True) s₀ as s) :
    (FitInv ring s ∧ LockInv s) ∧ as.countP isHandle + total (work ring.length) s ≤
      8 * ring.length * as.countP isHeatbeat := by
  have hzero : total (work ring.length) s₀ = 0 := by simp [total, h.handlers]
  rw [← Nat.zero_add (8 * ring.length * _), ← hzero]
  refine hsteps.countP_le (I := fun s => FitInv ring s ∧ LockInv s) _ _ _ _
    ⟨h.fitInv, lockInv_init h.handlers h.joinLock⟩ ?_
  rintro s act s' ⟨hfit, hlock⟩ - hs
  refine ⟨⟨hfit.step hs, hlock.step hs⟩, ?_⟩
  cases act with
  | handle i =>
    have huse := hfit.handle_work hs
    simp only [isHandle, isHeatbeat, if_true, Bool.false_eq_true, if_false]
    omega
  | heatbeat a =>
    obtain ⟨ha, rfl⟩ : a ∈ ring ∧ s.heatbeat a = s' := by simpa [Rounds.step] using hs
    have hstart := heatbeat_work s ha
    simp only [isHandle, isHeatbeat, if_true, Bool.false_eq_true, if_false]
    omega
  | relink a prev =>
    obtain ⟨-, rfl⟩ : (a ∈ ring ∧ prev ∈ ring) ∧
        s.setProcess a { s.process a with prev } = s' := by simpa [Rounds.step] using hs
    simp only [isHandle, isHeatbeat, Bool.false_eq_true, if_false]
    exact (Nat.zero_add _).le

/-- **Every round ends**, whatever becomes of the pointers in the meantime: between them, the
handlers of the rounds take at most `8 n` steps for each step of a `heatbeater`, and while one of
them has not returned some handler of a round can move. -/
theorem rounds_end (h : Idle ring s₀)
    (hsteps : Steps (Rounds.step ring) (fun _ _ => True) s₀ as s) :
    as.countP isHandle ≤ 8 * ring.length * as.countP isHeatbeat ∧
      (¬s.Settled → ∃ i s', s.step ring (.handle i) = some s') := by
  obtain ⟨⟨-, hlock⟩, hwork⟩ := h.steps hsteps
  exact ⟨(Nat.le_add_right _ _).trans hwork, hlock.exists_handle⟩

/-- An election of `b` whose RPC is with `a` when `a` gets another `prev`. -/
def relinkedElection : List RoundAction :=
  [.heatbeat nameB, .heatbeat nameB, .heatbeat nameB, .heatbeat nameB, .handle 0,
    .relink nameA nameB]

theorem rounds_end_trio : ∃ s, Steps (Rounds.step [nameA, nameC, nameB]) (fun _ _ => True) trio
    relinkedElection s ∧ ¬s.Settled ∧ relinkedElection.countP isHandle ≤ 8 * 3 * 4 ∧
      ∃ i s', s.step [nameA, nameC, nameB] (.handle i) = some s' := by
  have hexec : (Steps.exec (Rounds.step [nameA, nameC, nameB]) (fun _ _ => true) trio
      relinkedElection).any (fun s => decide ¬s.Settled) = true := by
    decide +kernel
  obtain ⟨s, hsteps, hp⟩ := Steps.exists_of_exec (C := fun _ _ => True) (fun _ _ _ => trivial) hexec
  have hidle : Idle [nameA, nameC, nameB] trio := ⟨by decide, rfl, fun _ => rfl⟩
  obtain ⟨hcount, hmove⟩ := rounds_end hidle hsteps
  exact ⟨s, hsteps, of_decide_eq_true hp, hcount, hmove (of_decide_eq_true hp)⟩

/-! ## The RPCs of a ring that stands still

Where the pointers form one cycle an RPC comes back exactly when its list is full, so the bound is
met. -/

/-- Does the action start a `list`? -/
def lists (s : Rounds) : RoundAction → Nat
  | .heatbeat a => if (s.process a).heatbeater = .leading then 1 else 0
  | .handle _ => 0
  | .relink _ _ => 0

/-- Does the action start an `election`? -/
def elections (s : Rounds) : RoundAction → Nat
  | .heatbeat a => if (s.process a).heatbeater = .electing then 1 else 0
  | .handle _ => 0
  | .relink _ _ => 0

/-- A run from `s₀` to the last argument in which `l` lists and `e` elections have been started. -/
inductive Counted (ring : List Name) (s₀ : Rounds) : Nat → Nat → Rounds → Prop
  | start : Counted ring s₀ 0 0 s₀
  | step {l e : Nat} {s s' : Rounds} {act : RoundAction} (h : Counted ring s₀ l e s)
      (hstill : Still act) (hs : s.step ring act = some s') :
      Counted ring s₀ (l + s.lists act) (e + s.elections act) s'

section Count

variable {f : Name → Name} {rpc : Rpc} {p : Process} {l e : Nat}

/-- The first part of a handler decides nothing about how many RPCs there will be. -/
theorem enter_left (hcycle : CycleOn f ring) (h : RpcSound f ring s a rpc) :
    left ring.length (p.enter a rpc).2 = rpcLeft ring.length rpc := by
  obtain ⟨x, hx, hcollects⟩ := h.collects
  have hpos := hcycle.length_pos
  rw [Process.enter_handler]
  split
  · next hvisit =>
    have hlen := (hcollects.mem_iff_length hcycle hx).1 hvisit
    cases rpc <;> simp [Rpc.collected, Rpc.back, left, rpcLeft, pushName] at hlen ⊢ <;> omega
  · next hnew =>
    rw [rpcLeft_push (hcollects.length_lt hcycle hx hnew), left, Nat.add_comm]

/-- What `heatbeater` adds to the RPCs. -/
theorem heatbeat_sent (s : Rounds) (ha : a ∈ ring) :
    (s.heatbeat a).handlers.length + total (left ring.length) (s.heatbeat a) =
      s.handlers.length + total (left ring.length) s + ring.length * s.lists (.heatbeat a) +
        2 * ring.length * s.elections (.heatbeat a) := by
  have hpos : 0 < ring.length := List.length_pos_of_mem ha
  -- a forwarded RPC counts itself and those that follow
  have hforward : ∀ {s₁ : Rounds} {dest : Name} {rpc : Rpc}, s₁.handlers = s.handlers →
      (s₁.forward dest rpc).handlers.length + total (left ring.length) (s₁.forward dest rpc) =
        s.handlers.length + total (left ring.length) s + (1 + rpcLeft ring.length rpc) := by
    intro s₁ dest rpc hs₁
    rw [total_forward, total, total, forward_handlers, hs₁]
    simp only [List.length_append, List.length_singleton, left]
    omega
  have hquiet : ∀ {s₁ : Rounds}, s₁.handlers = s.handlers →
      s₁.handlers.length + total (left ring.length) s₁ =
        s.handlers.length + total (left ring.length) s := by
    intro s₁ hs₁
    rw [total, total, hs₁]
  rw [lists, elections, heatbeat]
  cases hbeat : (s.process a).heatbeater with
  | top => exact hquiet rfl
  | leading =>
    refine (hforward rfl).trans ?_
    simp [rpcLeft, pushName]
    omega
  | checking =>
    dsimp only
    split <;> exact hquiet rfl
  | watching =>
    dsimp only
    split <;> exact hquiet rfl
  | electing =>
    refine (hforward rfl).trans ?_
    simp [rpcLeft, pushName]
    omega

/-- A step of a handler forwards what was left to forward. -/
theorem RoundInv.handle_sent (h : RoundInv f ring s) (hcycle : CycleOn f ring)
    (hs : s.step ring (.handle i) = some s') :
    s'.handlers.length + total (left ring.length) s' =
      s.handlers.length + total (left ring.length) s := by
  have hmove : ∀ {a : Name} {h₀ h₁ : Handler}, s.handlers[i]? = some (a, h₀) →
      s'.handlers = s.handlers.set i (a, h₁) → left ring.length h₁ = left ring.length h₀ →
      s'.handlers.length + total (left ring.length) s' =
        s.handlers.length + total (left ring.length) s := by
    intro a h₀ h₁ hi hs' hleft
    have htotal := total_set (w := left ring.length) hi hs'
    have hlen : s'.handlers.length = s.handlers.length := by rw [hs', List.length_set]
    omega
  cases step_cases hs with
  | enter hi =>
    have hsound := (h.handlers _ _ (List.mem_of_getElem? hi)).2
    exact hmove hi rfl (enter_left hcycle hsound)
  | lock hi hfree => exact hmove hi rfl rfl
  | @forward i a rpc elected hi =>
    have hset : (s.setHandler i a (.sent elected)).handlers =
        s.handlers.set i (a, .sent elected) := rfl
    have htotal := total_set (w := left ring.length) hi hset
    rw [total_forward, forward_handlers, setHandler_handlers]
    simp only [left, List.length_append, List.length_set, List.length_singleton] at htotal ⊢
    omega
  | @unlock i a elected hi =>
    refine hmove hi rfl ?_
    cases elected <;> rfl
  | elect hi => exact hmove hi rfl rfl

variable {s₀ : Rounds}

theorem Counted.inv (h : Started ring s₀) (hc : Counted ring s₀ l e s) :
    RoundInv (fun a => (s₀.process a).prev) ring s ∧
      s.handlers.length + total (left ring.length) s = ring.length * l + 2 * ring.length * e := by
  induction hc with
  | start => exact ⟨h.roundInv, by simp [total, h.handlers]⟩
  | @step l e s s' act _ hstill hs ih =>
    obtain ⟨hinv, hcount⟩ := ih
    refine ⟨hinv.step h.cycle hstill hs, ?_⟩
    rw [Nat.mul_add, Nat.mul_add]
    cases act with
    | handle i =>
      have hsent := hinv.handle_sent h.cycle hs
      simp only [lists, elections]
      omega
    | heatbeat a =>
      obtain ⟨ha, rfl⟩ : a ∈ ring ∧ s.heatbeat a = s' := by simpa [Rounds.step] using hs
      have hsent := heatbeat_sent s ha
      omega
    | relink a prev => exact absurd hstill id

/-- **What the rounds cost.**  On a ring of `n` that stands still, `l` lists and `e` elections take
never more than `n * l + 2 * n * e` RPCs, and exactly so many by the time all handlers have
returned. -/
theorem messages (h : Started ring s₀) (hc : Counted ring s₀ l e s) :
    s.handlers.length ≤ ring.length * l + 2 * ring.length * e ∧
      (s.Settled → s.handlers.length = ring.length * l + 2 * ring.length * e) := by
  have hcount := (hc.inv h).2
  refine ⟨by omega, fun hsettled => ?_⟩
  have hzero : total (left ring.length) s = 0 := by
    refine List.sum_eq_zero fun x hx => ?_
    obtain ⟨ah, hah, rfl⟩ := List.mem_map.1 hx
    rw [hsettled ah hah]
    rfl
  omega

/-- Every run can be counted. -/
theorem Counted.exists_of_run {tr : List Rounds}
    (h : Run (Rounds.step ring) (fun _ act => Still act) s₀ (s :: tr)) :
    ∃ l e, Counted ring s₀ l e s := by
  refine Run.head_induction (P := fun s _ => ∃ l e, Counted ring s₀ l e s) ⟨0, 0, .start⟩ ?_ h
  rintro s tr act s' - hstill hs ⟨l, e, hc⟩
  exact ⟨_, _, hc.step hstill hs⟩

end Count

/-- The election of `b`: six RPCs. -/
theorem messages_trio : ∃ s l e, Counted [nameA, nameC, nameB] trio l e s ∧
    s.handlers.length = 6 ∧ s.handlers.length = 3 * l + 2 * 3 * e := by
  have hcheck : Run.check (Rounds.step [nameA, nameC, nameB]) (fun _ act => decide (Still act)) trio
      electionOfB (fun
        | [] => false
        | s :: _ => decide s.Settled && decide (s.handlers.length = 6)) = true := by
    decide +kernel
  obtain ⟨tr, hrun, hp⟩ := Run.exists_of_check (C := fun _ act => Still act)
    (fun _ _ h => of_decide_eq_true h) hcheck
  cases tr with
  | nil => exact absurd hp (by simp)
  | cons s tr =>
    simp only [Bool.and_eq_true, decide_eq_true_eq] at hp
    obtain ⟨l, e, hc⟩ := Counted.exists_of_run hrun
    exact ⟨s, l, e, hc, hp.2, (messages started_trio hc).2 hp.1⟩

end Rounds
end CRing
end DistributedPrograms
