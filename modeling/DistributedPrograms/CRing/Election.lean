import DistributedPrograms.CRing.Rounds
import DistributedPrograms.Lib.Collect
import Mathlib.Data.Set.Finite.Lemmas

/-!
# One coordinator in the C ring

While the `prev` pointers stay one cycle `f`, every RPC of a round collects the places of a walk
along `f`.  An `election` that comes back has everybody on it, so a `coordinate` carries all
members, and whoever decides on them decides for the member whose name comes first.  `RoundInv` is
this invariant, over the RPCs that are on their way and those that a handler still has to forward.

That somebody will be the coordinator is the second half: an `election` under way leaves behind it
another one, a `coordinate`, or the first member's decision (`RoundInv.promised_step`).

* `Least` is the member whose name comes first in the order of `strcmp`; there is exactly one, and
  with all members listed the check of the code picks it (`check_iff_least`).
* `RpcSound` and `HandlerSound` say what holds of an RPC on its way and of a handler at its cut.  A
  handler has in its locals what it is to forward, so it is described by the RPC that this will be.
* `Started` is a ring before any of this, and the theorem about runs begins there.

The handlers run in any order, each cut where it takes and gives back the lock, and any number of
rounds of each kind may be under way.
-/

set_option autoImplicit false

namespace DistributedPrograms
namespace CRing
namespace Rounds

/-- The member whose name comes first in the order of `strcmp`, byte by byte. -/
def Least (ring : List Name) (a : Name) : Prop := a ∈ ring ∧ ∀ b ∈ ring, a.key ≤ b.key

/-- `a` takes itself for the coordinator. -/
def Coordinator (s : Rounds) (a : Name) : Prop := (s.process a).amICoordinator = true

instance (s : Rounds) (a : Name) : Decidable (s.Coordinator a) := by
  unfold Coordinator
  infer_instance

variable {f : Name → Name} {ring members : List Name} {a b m : Name} {s s' : Rounds}

theorem exists_least (h : ring ≠ []) : ∃ a, Least ring a := by
  obtain ⟨b, hb⟩ := List.exists_mem_of_ne_nil ring h
  obtain ⟨a, ha, hmin⟩ := Set.exists_min_image {a | a ∈ ring} Name.key ring.finite_toSet ⟨b, hb⟩
  exact ⟨a, ha, hmin⟩

theorem Least.unique (ha : Least ring a) (hb : Least ring b) : a = b :=
  Name.key_injective (le_antisymm (ha.2 b hb.1) (hb.2 a ha.1))

/-- With all members listed, the check picks the first one. -/
theorem check_iff_least (ha : a ∈ ring) (hperm : members.Perm ring) :
    checkAmICoordinator a members = true ↔ Least ring a := by
  rw [checkAmICoordinator_iff]
  exact ⟨fun h => ⟨ha, fun b hb => h b (hperm.mem_iff.2 hb)⟩,
    fun h b hb => h.2 b (hperm.mem_iff.1 hb)⟩

/-! ## The invariant

Lists of names are walks.  An RPC is described by where the walk began and how many places it has
come past. -/

/-- What holds of an RPC on its way to `dest`: it has collected the processes it has come through,
and a `coordinate` brings all members. -/
def RpcSound (f : Name → Name) (ring : List Name) (s : Rounds) (dest : Name) : Rpc → Prop
  | .list nodeList => ∃ x ∈ ring, Collects f x nodeList dest
  | .election nodeList => ∃ x ∈ ring, Collects f x nodeList dest
  | .coordinate members read => members.Perm ring ∧ ∃ x ∈ ring, Collects f x read dest ∧
      -- behind its start, it has made the first member the coordinator
      ∀ a ∈ read.tail, Least ring a → s.Coordinator a

/-- The members that an `election` keeps are all of them. -/
def AllMembers (ring : List Name) (elected : Option NodeList) : Prop :=
  ∀ nodeList, elected = some nodeList → nodeList.Perm ring

/-- What holds of a handler in the process `a`. -/
def HandlerSound (f : Name → Name) (ring : List Name) (s : Rounds) (a : Name) : Handler → Prop
  | .arriving rpc => RpcSound f ring s a rpc
  | .sending rpc elected => RpcSound f ring s (f a) rpc ∧ AllMembers ring elected
  | .locked rpc elected => RpcSound f ring s (f a) rpc ∧ AllMembers ring elected
  | .sent elected => AllMembers ring elected
  | .electing nodeList => nodeList.Perm ring
  | .returned => True

/-- The invariant of the rounds, on a ring that stands still.  Nothing is asked of the locks. -/
structure RoundInv (f : Name → Name) (ring : List Name) (s : Rounds) : Prop where
  prev_eq : ∀ a ∈ ring, (s.process a).prev = f a
  least : ∀ a ∈ ring, s.Coordinator a → Least ring a
  handlers : ∀ a h, (a, h) ∈ s.handlers → a ∈ ring ∧ HandlerSound f ring s a h

theorem RpcSound.mono {dest : Name} {rpc : Rpc} (h : RpcSound f ring s dest rpc)
    (hmono : ∀ a, Least ring a → s.Coordinator a → s'.Coordinator a) :
    RpcSound f ring s' dest rpc := by
  cases rpc with
  | list nodeList => exact h
  | election nodeList => exact h
  | coordinate members read =>
    obtain ⟨hperm, x, hx, hcollects, hflag⟩ := h
    exact ⟨hperm, x, hx, hcollects, fun a ha hleast => hmono a hleast (hflag a ha hleast)⟩

theorem HandlerSound.mono {h : Handler} (hs : HandlerSound f ring s a h)
    (hmono : ∀ a, Least ring a → s.Coordinator a → s'.Coordinator a) :
    HandlerSound f ring s' a h := by
  cases h with
  | arriving rpc => exact RpcSound.mono hs hmono
  | sending rpc elected => exact ⟨hs.1.mono hmono, hs.2⟩
  | locked rpc elected => exact ⟨hs.1.mono hmono, hs.2⟩
  | sent elected => exact hs
  | electing nodeList => exact hs
  | returned => exact hs

theorem allMembers_none : AllMembers ring none := fun _ h => absurd h (by simp)

theorem AllMembers.unlocked {elected : Option NodeList} (h : AllMembers ring elected) :
    HandlerSound f ring s a (.unlocked elected) := by
  cases elected with
  | none => exact trivial
  | some nodeList => exact h nodeList rfl

/-! ## The first part of a handler

Up to its lock a handler decides: whether the RPC has come back, what it sends on, and, in a
`coordinate`, who is the coordinator. -/

section Enter

variable {p : Process} {rpc : Rpc}

@[simp] theorem enter_prev : (p.enter a rpc).1.prev = p.prev := by
  cases rpc <;> dsimp only [Process.enter] <;> split <;> rfl

@[simp] theorem enter_joinLock : (p.enter a rpc).1.joinLock = p.joinLock := by
  cases rpc <;> dsimp only [Process.enter] <;> split <;> rfl

/-- Only `coordinate` decides, on the members it carries. -/
theorem enter_amICoordinator : (p.enter a rpc).1.amICoordinator =
    match rpc with
    | .coordinate members _ => checkAmICoordinator a members
    | _ => p.amICoordinator := by
  cases rpc <;> dsimp only [Process.enter] <;> split <;> rfl

/-- The first member stays the coordinator, and nobody else becomes it. -/
theorem enter_coordinator (ha : a ∈ ring) (h : RpcSound f ring s a rpc) :
    (Least ring a → p.amICoordinator = true → (p.enter a rpc).1.amICoordinator = true) ∧
      ((p.enter a rpc).1.amICoordinator = true → p.amICoordinator = true ∨ Least ring a) := by
  rw [enter_amICoordinator]
  cases rpc with
  | list nodeList => exact ⟨fun _ hp => hp, Or.inl⟩
  | election nodeList => exact ⟨fun _ hp => hp, Or.inl⟩
  | coordinate members read =>
    have hcheck := check_iff_least ha h.1
    exact ⟨fun hleast _ => hcheck.2 hleast, fun hp => Or.inr (hcheck.1 hp)⟩

theorem include_iff {list : NodeList} (h : nodeListIncludeMyName a list = false) : a ∉ list :=
  fun ha => by rw [nodeListIncludeMyName_iff.2 ha] at h; contradiction

/-- What a handler is to forward is sound, once its first part is done. -/
theorem enter_sound (hcycle : CycleOn f ring) (h : RpcSound f ring s a rpc)
    (hmono : ∀ b, Least ring b → s.Coordinator b → s'.Coordinator b)
    (hs' : (s'.process a).amICoordinator = (p.enter a rpc).1.amICoordinator) :
    HandlerSound f ring s' a (p.enter a rpc).2 := by
  rw [enter_amICoordinator] at hs'
  cases rpc with
  | list nodeList =>
    obtain ⟨x, hx, hcollects⟩ := h
    rw [Process.enter]
    split
    · exact trivial
    · next hnew =>
      exact ⟨⟨x, hx, hcollects.relay (include_iff (Bool.eq_false_iff.2 hnew))⟩, allMembers_none⟩
  | election nodeList =>
    obtain ⟨x, hx, hcollects⟩ := h
    rw [Process.enter]
    split
    · next hvisit =>
      -- the election is back, so everybody is listed
      have hperm := (hcollects.home hcycle hx (nodeListIncludeMyName_iff.1 hvisit)).2
      have ha : a ∈ ring := hcollects.dest_mem hcycle hx
      refine ⟨⟨hperm, a, ha, Collects.send f a, fun b hb => ?_⟩, ?_⟩
      · exact absurd hb List.not_mem_nil
      · intro _ heq
        cases heq
        exact hperm
    · next hnew =>
      exact ⟨⟨x, hx, hcollects.relay (include_iff (Bool.eq_false_iff.2 hnew))⟩, allMembers_none⟩
  | coordinate members read =>
    obtain ⟨hperm, x, hx, hcollects, hflag⟩ := h
    have ha : a ∈ ring := hcollects.dest_mem hcycle hx
    rw [Process.enter]
    split
    · exact trivial
    · next hnew =>
      refine ⟨⟨hperm, x, hx, hcollects.relay (include_iff (Bool.eq_false_iff.2 hnew)), ?_⟩,
        allMembers_none⟩
      intro b hb hleast
      rw [pushName, List.tail_append_of_ne_nil hcollects.ne_nil] at hb
      rcases List.mem_append.1 hb with hb | hb
      · exact hmono b hleast (hflag b hb hleast)
      · obtain rfl := List.mem_singleton.1 hb
        exact hs'.trans ((check_iff_least ha hperm).2 hleast)

end Enter

/-! ## Steps

The invariant through a step, with one part for each of its fields. -/

section Step

variable {act : RoundAction}

/-- Nothing relinks the ring. -/
def Still : RoundAction → Prop
  | .heatbeat _ => True
  | .handle _ => True
  | .relink _ _ => False

instance (act : RoundAction) : Decidable (Still act) := by
  rcases act <;> dsimp only [Still] <;> infer_instance

theorem coordinator_setProcess {p : Process}
    (hp : p.amICoordinator = (s.process a).amICoordinator) :
    (s.setProcess a p).Coordinator b ↔ s.Coordinator b := by
  rw [Coordinator, Coordinator, setProcess_process]
  split
  · next hba => rw [hp, hba]
  · exact Iff.rfl

theorem prev_setProcess {p : Process} (hp : p.prev = (s.process a).prev) :
    ((s.setProcess a p).process b).prev = (s.process b).prev := by
  rw [setProcess_process]
  split
  · next hba => rw [hp, hba]
  · rfl

/-- **The coordinator.**  No step takes the first member its place, and none gives it to another.  A
process decides this when a `coordinate` comes, by a list that has all members. -/
theorem RoundInv.coordinator_step (h : RoundInv f ring s) (hs : s.step ring act = some s')
    (b : Name) : (Least ring b → s.Coordinator b → s'.Coordinator b) ∧
      (s'.Coordinator b → s.Coordinator b ∨ Least ring b) := by
  have hsame : (s'.Coordinator b ↔ s.Coordinator b) →
      (Least ring b → s.Coordinator b → s'.Coordinator b) ∧
        (s'.Coordinator b → s.Coordinator b ∨ Least ring b) :=
    fun hiff => ⟨fun _ => hiff.2, fun hb => Or.inl (hiff.1 hb)⟩
  cases step_cases hs with
  | @heatbeat a ha =>
    obtain ⟨p, -, hp, -, hq⟩ := heatbeat_cases s a
    refine hsame ?_
    rcases hq with hq | hq | hq <;> rw [hq] <;> exact coordinator_setProcess hp
  | relink ha hprev => exact hsame (coordinator_setProcess rfl)
  | @enter i a rpc hi =>
    obtain ⟨ha, hsound⟩ := h.handlers a _ (List.mem_of_getElem? hi)
    rw [Coordinator, Coordinator, setHandler_process, setProcess_process]
    split
    · next hba =>
      subst hba
      exact enter_coordinator ha hsound
    · exact ⟨fun _ hb => hb, Or.inl⟩
  | lock hi hfree => exact hsame (coordinator_setProcess rfl)
  | forward hi => exact hsame Iff.rfl
  | unlock hi => exact hsame (coordinator_setProcess rfl)
  | @elect i a nodeList hi =>
    obtain ⟨ha, hsound⟩ := h.handlers a _ (List.mem_of_getElem? hi)
    rw [Coordinator, Coordinator, setHandler_process, setProcess_process]
    split
    · next hba =>
      subst hba
      have hcheck := check_iff_least ha hsound
      exact ⟨fun hleast _ => hcheck.2 hleast, fun hb => Or.inr (hcheck.1 hb)⟩
    · exact ⟨fun _ hb => hb, Or.inl⟩

theorem prev_step (hstill : Still act) (hs : s.step ring act = some s') (b : Name) :
    (s'.process b).prev = (s.process b).prev := by
  cases step_cases hs with
  | @heatbeat a ha =>
    obtain ⟨p, hp, -, -, hq⟩ := heatbeat_cases s a
    rcases hq with hq | hq | hq <;> rw [hq] <;> exact prev_setProcess hp
  | relink ha hprev => exact absurd hstill id
  | enter hi => exact prev_setProcess enter_prev
  | lock hi hfree => exact prev_setProcess rfl
  | forward hi => rfl
  | unlock hi => exact prev_setProcess rfl
  | elect hi => exact prev_setProcess rfl

/-- What a process starts. -/
theorem heatbeat_handlers (s : Rounds) (a : Name) :
    (s.heatbeat a).handlers = s.handlers ∨ ∃ rpc, (rpc = .list [a] ∨ rpc = .election [a]) ∧
      (s.heatbeat a).handlers = s.handlers ++ [((s.process a).prev, .arriving rpc)] := by
  obtain ⟨p, -, -, -, hq | hq | hq⟩ := heatbeat_cases s a
  · exact Or.inl (by rw [hq, setProcess_handlers])
  · exact Or.inr ⟨_, Or.inl rfl, by rw [hq, forward_handlers, setProcess_handlers]⟩
  · exact Or.inr ⟨_, Or.inr rfl, by rw [hq, forward_handlers, setProcess_handlers]⟩

/-- The handlers after a step: one of them has moved on, and one may have been added. -/
theorem RoundInv.handlers_step (h : RoundInv f ring s) (hcycle : CycleOn f ring)
    (hs : s.step ring act = some s') (h' : Handler) (hmem : (b, h') ∈ s'.handlers) :
    (b, h') ∈ s.handlers ∨ b ∈ ring ∧ HandlerSound f ring s' b h' := by
  have hmono : ∀ c, Least ring c → s.Coordinator c → s'.Coordinator c :=
    fun c => (h.coordinator_step hs c).1
  -- a handler that moves on is sound if what it moves to is
  have hset : ∀ {i : Nat} {a : Name} {h₀ h₁ : Handler}, s.handlers[i]? = some (a, h₀) →
      (b, h') ∈ s.handlers.set i (a, h₁) → HandlerSound f ring s' a h₁ →
      (b, h') ∈ s.handlers ∨ b ∈ ring ∧ HandlerSound f ring s' b h' := by
    intro i a h₀ h₁ hi hmem hsound
    refine (List.mem_or_eq_of_mem_set hmem).imp_right fun heq => ?_
    obtain ⟨hb, hh⟩ := Prod.mk.inj heq
    rw [hb, hh]
    exact ⟨(h.handlers a h₀ (List.mem_of_getElem? hi)).1, hsound⟩
  cases step_cases hs with
  | @heatbeat a ha =>
    rcases heatbeat_handlers s a with heq | ⟨rpc, hrpc, heq⟩ <;> rw [heq] at hmem
    · exact Or.inl hmem
    · refine (List.mem_append.1 hmem).imp_right fun hmem => ?_
      cases List.mem_singleton.1 hmem
      rw [h.prev_eq a ha]
      refine ⟨hcycle.mem ha, ?_⟩
      rcases hrpc with rfl | rfl
      · exact ⟨a, ha, Collects.send f a⟩
      · exact ⟨a, ha, Collects.send f a⟩
  | relink ha hprev => exact Or.inl hmem
  | @enter i a rpc hi =>
    obtain ⟨ha, hsound⟩ := h.handlers a _ (List.mem_of_getElem? hi)
    refine hset hi hmem (enter_sound hcycle hsound hmono ?_)
    rw [setHandler_process, setProcess_process, if_pos rfl]
  | @lock i a rpc elected hi hfree =>
    obtain ⟨hrpc, hall⟩ := (h.handlers a _ (List.mem_of_getElem? hi)).2
    exact hset hi hmem ⟨hrpc.mono hmono, hall⟩
  | @forward i a rpc elected hi =>
    obtain ⟨ha, hrpc, hall⟩ := h.handlers a _ (List.mem_of_getElem? hi)
    rcases List.mem_append.1 hmem with hmem | hmem
    · exact hset hi hmem hall
    · cases List.mem_singleton.1 hmem
      rw [h.prev_eq a ha]
      exact Or.inr ⟨hcycle.mem ha, hrpc.mono hmono⟩
  | @unlock i a elected hi =>
    obtain ⟨-, hall⟩ := h.handlers a _ (List.mem_of_getElem? hi)
    exact hset hi hmem hall.unlocked
  | elect hi => exact hset hi hmem trivial

/-- **The invariant survives every step** that does not relink the ring. -/
theorem RoundInv.step (h : RoundInv f ring s) (hcycle : CycleOn f ring) (hstill : Still act)
    (hs : s.step ring act = some s') : RoundInv f ring s' where
  prev_eq a ha := (prev_step hstill hs a).trans (h.prev_eq a ha)
  least a ha hcoord := ((h.coordinator_step hs a).2 hcoord).elim (h.least a ha) id
  handlers a h' hmem := by
    rcases h.handlers_step hcycle hs h' hmem with hold | hnew
    · obtain ⟨ha, hsound⟩ := h.handlers a h' hold
      exact ⟨ha, hsound.mono fun b => (h.coordinator_step hs b).1⟩
    · exact hnew

end Step

/-! ## An election leads to a coordinator

An election is a promise: some RPC or handler carries it until the first member has taken its place.
-/

def RpcElects : Rpc → Prop
  | .list _ => False
  | .election _ => True
  | .coordinate _ _ => True

/-- An `election` or a `coordinate` that has not come to its end. -/
def Elects : Handler → Prop
  | .arriving rpc => RpcElects rpc
  | .sending rpc _ => RpcElects rpc
  | .locked rpc _ => RpcElects rpc
  | .sent _ => False
  | .electing _ => False
  | .returned => False

instance (rpc : Rpc) : Decidable (RpcElects rpc) := by
  rcases rpc <;> dsimp only [RpcElects] <;> infer_instance

instance (h : Handler) : Decidable (Elects h) := by
  rcases h <;> dsimp only [Elects] <;> infer_instance

/-- An election is under way. -/
def Electing (s : Rounds) : Prop := ∃ ah ∈ s.handlers, Elects ah.2

instance (s : Rounds) : Decidable s.Electing := by
  unfold Electing
  infer_instance

/-- The first part of a handler keeps an election going, or makes the first member the coordinator.
-/
theorem enter_elects {p : Process} {rpc : Rpc} (hcycle : CycleOn f ring) (hm : Least ring m)
    (h : RpcSound f ring s a rpc) (helects : RpcElects rpc) :
    Elects (p.enter a rpc).2 ∨ s.Coordinator m ∨
      (m = a ∧ (p.enter a rpc).1.amICoordinator = true) := by
  rw [enter_amICoordinator]
  cases rpc with
  | list nodeList => exact absurd helects id
  | election nodeList =>
    rw [Process.enter]
    split <;> exact Or.inl trivial
  | coordinate members read =>
    obtain ⟨hperm, x, hx, hcollects, hflag⟩ := h
    rw [Process.enter]
    split
    · next hvisit =>
      have hread : a ∈ read := nodeListIncludeMyName_iff.1 hvisit
      rcases hcollects.eq_or_mem_tail hcycle hx hread hm.1 with rfl | htail
      · exact Or.inr (Or.inr ⟨rfl, (check_iff_least hm.1 hperm).2 hm⟩)
      · exact Or.inr (Or.inl (hflag m htail hm))
    · exact Or.inl trivial

/-- **Once an election is under way**, it stays so until the first member is the coordinator: it is
handed on from RPC to RPC, and from `election` to `coordinate`. -/
theorem RoundInv.promised_step (h : RoundInv f ring s) (hcycle : CycleOn f ring)
    (hm : Least ring m) {act : RoundAction} (hs : s.step ring act = some s')
    (hp : s.Coordinator m ∨ s.Electing) : s'.Coordinator m ∨ s'.Electing := by
  rcases hp with hp | ⟨ah, hah, helects⟩
  · exact Or.inl ((h.coordinator_step hs m).1 hm hp)
  -- either another handler moves, or this one does
  have hmove : ∀ {i : Nat} {a : Name} {h₀ h₁ : Handler} {out : List (Name × Handler)},
      s.handlers[i]? = some (a, h₀) → s'.handlers = s.handlers.set i (a, h₁) ++ out →
      (Elects h₀ → s'.Coordinator m ∨ Elects h₁ ∨ ∃ ah ∈ out, Elects ah.2) →
      s'.Coordinator m ∨ s'.Electing := by
    intro i a h₀ h₁ out hi hs' hgoes
    obtain ⟨j, hj⟩ := List.mem_iff_getElem?.1 hah
    have hlt : i < s.handlers.length := (List.getElem?_eq_some_iff.1 hi).1
    by_cases hij : i = j
    · subst hij
      obtain rfl := Option.some.inj (hi.symm.trans hj)
      rcases hgoes helects with hcoord | helects | ⟨ah, hah, helects⟩
      · exact Or.inl hcoord
      · refine Or.inr ⟨(a, h₁), ?_, helects⟩
        rw [hs']
        exact List.mem_append_left _ (List.mem_set hlt _)
      · refine Or.inr ⟨ah, ?_, helects⟩
        rw [hs']
        exact List.mem_append_right _ hah
    · refine Or.inr ⟨ah, ?_, helects⟩
      rw [hs']
      refine List.mem_append_left _ (List.mem_of_getElem? (i := j) ?_)
      rwa [List.getElem?_set_ne hij]
  cases step_cases hs with
  | @heatbeat a ha =>
    refine Or.inr ⟨ah, ?_, helects⟩
    rcases heatbeat_handlers s a with heq | ⟨rpc, -, heq⟩ <;> rw [heq]
    · exact hah
    · exact List.mem_append_left _ hah
  | relink ha hprev => exact Or.inr ⟨ah, hah, helects⟩
  | @enter i a rpc hi =>
    have hsound := (h.handlers a _ (List.mem_of_getElem? hi)).2
    refine hmove hi (List.append_nil _).symm fun helects => ?_
    have hnext := enter_elects (p := s.process a) hcycle hm hsound helects
    rcases hnext with helects | hcoord | ⟨rfl, hcoord⟩
    · exact Or.inr (Or.inl helects)
    · exact Or.inl ((h.coordinator_step hs m).1 hm hcoord)
    · refine Or.inl ?_
      rw [Coordinator, setHandler_process, setProcess_process, if_pos rfl]
      exact hcoord
  | lock hi hfree =>
    exact hmove hi (List.append_nil _).symm fun helects => Or.inr (Or.inl helects)
  | @forward i a rpc elected hi =>
    exact hmove hi rfl fun helects => Or.inr (Or.inr ⟨_, List.mem_singleton_self _, helects⟩)
  | unlock hi => exact hmove hi (List.append_nil _).symm fun helects => absurd helects id
  | elect hi => exact hmove hi (List.append_nil _).symm fun helects => absurd helects id

/-! ## Runs -/

section Run

variable {s₀ : Rounds} {tr : List Rounds}

/-- Processes that have just joined: nothing is on its way, and nobody is the coordinator.  Who has
which flag of the `heatbeater` does not matter. -/
structure Started (ring : List Name) (s : Rounds) : Prop where
  cycle : CycleOn (fun a => (s.process a).prev) ring
  handlers : s.handlers = []
  coordinator : ∀ a ∈ ring, ¬s.Coordinator a

theorem Started.roundInv (h : Started ring s) :
    RoundInv (fun a => (s.process a).prev) ring s where
  prev_eq _ _ := rfl
  least a ha hcoord := absurd hcoord (h.coordinator a ha)
  handlers a h' hmem := by
    rw [h.handlers] at hmem
    exact absurd hmem List.not_mem_nil

theorem Started.run (h : Started ring s₀)
    (hrun : Run (Rounds.step ring) (fun _ act => Still act) s₀ tr) :
    ∀ s ∈ tr, RoundInv (fun a => (s₀.process a).prev) ring s :=
  Run.forall_mem h.roundInv (fun _ _ _ _ _ hstill hs hstep => hs.step h.cycle hstill hstep) hrun

/-- An RPC on its way collects the places of a walk. -/
theorem RpcSound.collects {rpc : Rpc} (h : RpcSound f ring s a rpc) :
    ∃ x ∈ ring, Collects f x rpc.collected a := by
  cases rpc with
  | list nodeList => exact h
  | election nodeList => exact h
  | coordinate members read =>
    obtain ⟨-, x, hx, hcollects, -⟩ := h
    exact ⟨x, hx, hcollects⟩

end Run

/-! ## A run -/

/-- The names `a`, `b`, and `c`. -/
def nameA : Name := ⟨[97], by decide⟩
def nameB : Name := ⟨[98], by decide⟩
def nameC : Name := ⟨[99], by decide⟩

/-- Three processes, each between two others, before anything has happened. -/
def trio : Rounds where
  process a :=
    { prev :=
        if a = nameA then nameC
        else if a = nameB then nameA
        else if a = nameC then nameB
        else a
      coordinatorCalledFlag := .reseted
      amICoordinator := false
      joinLock := none
      heatbeater := .top }
  handlers := []

theorem started_trio : Started [nameA, nameC, nameB] trio where
  cycle := CycleOn.iff_isChain.2 ⟨by decide, by decide⟩
  handlers := rfl
  coordinator := by decide

/-- The `heatbeater` of `b` finds no coordinator and starts an election, which runs to its end. -/
def electionOfB : List RoundAction :=
  .heatbeat nameB :: .heatbeat nameB :: .heatbeat nameB :: .heatbeat nameB ::
    [0, 0, 0, 0, 1, 1, 1, 1, 2, 2, 2, 2, 2, 3, 3, 3, 3, 4, 4, 4, 4, 5].map .handle

end Rounds
end CRing
end DistributedPrograms
