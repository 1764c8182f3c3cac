import DistributedPrograms.Ring.Tasks
import Mathlib.Data.Fintype.Basic

/-!
# Joining the ring

A join touches three nodes at separate moments: the target reads its `prev` and later exchanges it,
the old `prev` gets a `set_next`, and the joining node writes its own connection when the answer
arrives.  `JoinTask` says how far the join of a node has come; `Joins.step` is one such moment.
Joins run concurrently in any order, and nodes call members only: nodes of the initial ring, or
nodes whose own join has returned.

A task carries what the code has in local variables at that point: the old `prev` that it read and
the one that it exchanged, which may be two different nodes.  The target of a join and the node that
its `set_next` goes to are nodes like any other, so another join may have changed them since.

* `Joins.step_cases` inverts a step: one case for each action, with what the tasks were and the
  state after.
* `Joins.step_join`, `step_read`, `step_swap`, `step_setNext` and `step_respond` are the same
  forwards, for runs that are put together by hand.
* `Joins.task_step` says what a step does to the task of one node, which is nothing or one step of
  its join.

No call fails here.  A join that fails, with the rollback it leads to, is in a module of its own.
-/

set_option autoImplicit false

namespace DistributedPrograms
namespace Ring

open SocketAddr Tasks

/-- How far the join of a node has come, from its call to its return.  Between any two of these
points other joins go on. -/
inductive JoinTask (A : Type) where
  /-- the node has not called `join` -/
  | idle
  /-- the request is on its way to `target` -/
  | requested (target : A)
  /-- `join_impl` of `target` has read `oldPrev` -/
  | read (target oldPrev : A)
  /-- `join_impl_no_rollback` has exchanged `prev`; `set_next` is on its way to `dest` -/
  | swapped (target oldPrev dest : A)
  /-- `set_next` was handled; the answer `oldPrev` is on its way to the joining node -/
  | linked (target oldPrev : A)
  /-- the joining node has handled the answer -/
  | returned
  deriving DecidableEq, Repr

/-- The nodes, and the joins in progress. -/
abbrev Joins (A : Type) := Tasks A (JoinTask A)

inductive JoinAction (A : Type) where
  /-- `joiner` sends its request to `target` -/
  | join (joiner target : A)
  /-- the target of `joiner` reads its `prev` -/
  | read (joiner : A)
  /-- the target of `joiner` exchanges its `prev` -/
  | swap (joiner : A)
  /-- the old `prev` of the target handles `set_next` -/
  | setNext (joiner : A)
  /-- `joiner` handles the answer -/
  | respond (joiner : A)
  deriving DecidableEq, Repr

namespace Joins

variable {A : Type} [DecidableEq A] [SocketAddr A]

/-- A node of the initial ring `ring`, or one whose join has returned.  Only such a node can be
asked to take a new one in. -/
def IsMember (ring : List A) (c : Joins A) (a : A) : Prop := a ∈ ring ∨ c.task a = .returned

instance (ring : List A) (c : Joins A) (a : A) : Decidable (c.IsMember ring a) := by
  unfold IsMember; infer_instance

/-- One moment of one join; `none` where it is not due. -/
def step (ring : List A) (c : Joins A) : JoinAction A → Option (Joins A)
  | .join joiner target =>
    if c.task joiner = .idle ∧ joiner ∉ ring ∧ c.IsMember ring target then
      some (c.setTask joiner (.requested target))
    else none
  | .read joiner =>
    match c.task joiner with
    | .requested target => some (c.setTask joiner (.read target (c.node target).joinImplRead))
    | _ => none
  | .swap joiner =>
    match c.task joiner with
    | .read target oldPrev => do
      let (dest, n) ← (c.node target).joinImplSwap (toString joiner)
      return (c.setNode target n).setTask joiner (.swapped target oldPrev dest)
    | _ => none
  | .setNext joiner =>
    match c.task joiner with
    | .swapped target oldPrev dest => do
      let n ← (c.node dest).setNext (toString joiner)
      return (c.setNode dest n).setTask joiner (.linked target oldPrev)
    | _ => none
  | .respond joiner =>
    match c.task joiner with
    | .linked target oldPrev => do
      let n ← (c.node joiner).handleJoinResponse target (toString oldPrev)
      return (c.setNode joiner n).setTask joiner .returned
    | _ => none

/-- No join is in progress.  What the ring is then is what the joins have come to. -/
def Settled (c : Joins A) : Prop := ∀ a, c.task a = .idle ∨ c.task a = .returned

instance [Fintype A] (c : Joins A) : Decidable c.Settled :=
  inferInstanceAs (Decidable (∀ a, c.task a = .idle ∨ c.task a = .returned))

/-! ## What the steps do

The inversion lemmas, one case for each action. -/

variable {ring : List A} {c c' : Joins A} {joiner target : A}

/-- **What a step does.**  One case for each action, with what the tasks were and the state
after. -/
theorem step_cases {a : JoinAction A} (h : c.step ring a = some c') :
    (∃ joiner target, a = .join joiner target ∧ c.task joiner = .idle ∧ joiner ∉ ring ∧
      c.IsMember ring target ∧ c' = c.setTask joiner (.requested target)) ∨
    (∃ joiner target, a = .read joiner ∧ c.task joiner = .requested target ∧
      c' = c.setTask joiner (.read target (c.node target).connection.prev)) ∨
    (∃ joiner target oldPrev, a = .swap joiner ∧ c.task joiner = .read target oldPrev ∧
      c' = (c.setNode target { c.node target with
          connection := { (c.node target).connection with prev := joiner } }).setTask joiner
        (.swapped target oldPrev (c.node target).connection.prev)) ∨
    (∃ joiner target oldPrev dest, a = .setNext joiner ∧
      c.task joiner = .swapped target oldPrev dest ∧
      c' = (c.setNode dest { c.node dest with
          connection := { (c.node dest).connection with next := joiner } }).setTask joiner
        (.linked target oldPrev)) ∨
    (∃ joiner target oldPrev, a = .respond joiner ∧ c.task joiner = .linked target oldPrev ∧
      c' = (c.setNode joiner { c.node joiner with
          connection := { prev := oldPrev, next := target } }).setTask joiner .returned) := by
  cases a with
  | join joiner target =>
    rw [step] at h
    split at h
    · next hg =>
      exact Or.inl ⟨joiner, target, rfl, hg.1, hg.2.1, hg.2.2, (Option.some.inj h).symm⟩
    · cases h
  | read joiner =>
    rw [step] at h
    split at h
    · next target ht =>
      exact Or.inr (Or.inl ⟨joiner, target, rfl, ht, (Option.some.inj h).symm⟩)
    · cases h
  | swap joiner =>
    rw [step] at h
    split at h
    · next target oldPrev ht =>
      refine Or.inr (Or.inr (Or.inl ⟨joiner, target, oldPrev, rfl, ht, ?_⟩))
      simpa [Node.joinImplSwap] using h.symm
    · cases h
  | setNext joiner =>
    rw [step] at h
    split at h
    · next target oldPrev dest ht =>
      refine Or.inr (Or.inr (Or.inr (Or.inl ⟨joiner, target, oldPrev, dest, rfl, ht, ?_⟩)))
      simpa [Node.setNext] using h.symm
    · cases h
  | respond joiner =>
    rw [step] at h
    split at h
    · next target oldPrev ht =>
      refine Or.inr (Or.inr (Or.inr (Or.inr ⟨joiner, target, oldPrev, rfl, ht, ?_⟩)))
      simpa [Node.handleJoinResponse] using h.symm
    · cases h

/-! ## The steps that are due

That a step can be taken, and where it leads. -/

theorem step_join {ring : List A} (hj : c.task joiner = .idle) (hring : joiner ∉ ring)
    (ht : c.IsMember ring target) :
    c.step ring (.join joiner target) = some (c.setTask joiner (.requested target)) := by
  rw [step, if_pos ⟨hj, hring, ht⟩]

theorem step_read (ring : List A) (hj : c.task joiner = .requested target) :
    c.step ring (.read joiner) =
      some (c.setTask joiner (.read target (c.node target).connection.prev)) := by
  rw [step, hj]
  rfl

theorem step_swap (ring : List A) {o : A} (hj : c.task joiner = .read target o) :
    c.step ring (.swap joiner) = some ((c.setNode target { c.node target with
        connection := { (c.node target).connection with prev := joiner } }).setTask joiner
      (.swapped target o (c.node target).connection.prev)) := by
  rw [step, hj]
  simp [Node.joinImplSwap]

theorem step_setNext (ring : List A) {o dest : A} (hj : c.task joiner = .swapped target o dest) :
    c.step ring (.setNext joiner) = some ((c.setNode dest { c.node dest with
        connection := { (c.node dest).connection with next := joiner } }).setTask joiner
      (.linked target o)) := by
  rw [step, hj]
  simp [Node.setNext]

theorem step_respond (ring : List A) {o : A} (hj : c.task joiner = .linked target o) :
    c.step ring (.respond joiner) = some ((c.setNode joiner { c.node joiner with
      connection := { prev := o, next := target } }).setTask joiner .returned) := by
  rw [step, hj]
  simp [Node.handleJoinResponse]

/-! ## The task of one node

The course of one join, whatever the others do. -/

variable {act : JoinAction A} {n : A}

/-- **What a step does to the task of a node**: nothing, or one step of its join. -/
theorem task_step (h : c.step ring act = some c') (a : A) :
    c'.task a = c.task a ∨
    (∃ target, c.task a = .idle ∧ c'.task a = .requested target ∧ a ∉ ring) ∨
    (∃ target, c.task a = .requested target ∧
      c'.task a = .read target (c.node target).connection.prev) ∨
    (∃ target o, act = .swap a ∧ c.task a = .read target o ∧
      c'.task a = .swapped target o (c.node target).connection.prev) ∨
    (∃ target o d, c.task a = .swapped target o d ∧ c'.task a = .linked target o) ∨
    ∃ target o, c.task a = .linked target o ∧ c'.task a = .returned := by
  rcases step_cases h with ⟨j, t, rfl, hj, hring, -, rfl⟩ | ⟨j, t, rfl, hj, rfl⟩ |
    ⟨j, t, o, rfl, hj, rfl⟩ | ⟨j, t, o, d, rfl, hj, rfl⟩ | ⟨j, t, o, rfl, hj, rfl⟩
  · by_cases ha : a = j
    · subst ha
      simp [hj, hring]
    · exact Or.inl (setTask_task_of_ne _ _ ha)
  all_goals
    by_cases ha : a = j
    · subst ha
      simp [hj]
    · exact Or.inl (setTask_task_of_ne _ _ ha)

/-- `n` is a member, and no join of its own is in progress, so its `prev` changes by joins at `n`
only. -/
def Fixed (ring : List A) (n : A) (c : Joins A) : Prop :=
  c.task n = .returned ∨ n ∈ ring ∧ c.task n = .idle

theorem fixed_step (hs : c.step ring act = some c') (h : Fixed ring n c) : Fixed ring n c' := by
  rcases task_step hs n with heq | ⟨_, hold, -, hring⟩ | ⟨_, hold, -⟩ | ⟨_, _, -, hold, -⟩ |
    ⟨_, _, _, hold, -⟩ | ⟨_, _, hold, -⟩
  · rwa [Fixed, heq]
  · rcases h with h | h
    · rw [h] at hold
      contradiction
    · exact absurd h.1 hring
  all_goals
    rcases h with h | ⟨-, h⟩ <;> rw [h] at hold <;> contradiction

end Joins

end Ring
end DistributedPrograms
