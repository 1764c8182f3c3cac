import DistributedPrograms.Ring.Node
import Mathlib.Logic.Function.Basic

/-!
# Nodes with a task each

The state of a ring in which every node can have one task of type `T` in progress, with the two
updates the steps of such a task are made of.
-/

set_option autoImplicit false

namespace DistributedPrograms
namespace Ring

/-- The nodes, and the task of each. -/
structure Tasks (A T : Type) where
  node : A → Node A
  task : A → T

namespace Tasks

variable {A T : Type} [DecidableEq A]

def setNode (c : Tasks A T) (a : A) (n : Node A) : Tasks A T :=
  { c with node := Function.update c.node a n }

def setTask (c : Tasks A T) (a : A) (t : T) : Tasks A T :=
  { c with task := Function.update c.task a t }

variable (c : Tasks A T) (a : A) (n : Node A) (t : T) {b : A}

@[simp] theorem setNode_task : (c.setNode a n).task = c.task := rfl

@[simp] theorem setTask_node : (c.setTask a t).node = c.node := rfl

@[simp] theorem setNode_node_self : (c.setNode a n).node a = n := Function.update_self ..

@[simp] theorem setTask_task_self : (c.setTask a t).task a = t := Function.update_self ..

variable {a}

theorem setNode_node_of_ne (h : b ≠ a) : (c.setNode a n).node b = c.node b :=
  Function.update_of_ne h ..

theorem setTask_task_of_ne (h : b ≠ a) : (c.setTask a t).task b = c.task b :=
  Function.update_of_ne h ..

end Tasks

end Ring
end DistributedPrograms
