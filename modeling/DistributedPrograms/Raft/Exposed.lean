import DistributedPrograms.Raft.NodeStep

/-!
# A cluster that anybody can call

The two RPCs are plain HTTP, so a node handles whatever decodes, whoever sent it.  `exposedStep`
adds to the steps of the cluster the handling of an arbitrary request, with any field values, that
comes from outside; its answer goes back there and is left out.

What no request can do to a node is the stronger statement, and it is made over these steps: that a
leader only appends, and that memory and disk agree.  What the nodes promise each other, on the
other hand, holds only as long as nobody else speaks in their name, and is said of the steps of the
cluster alone.
-/

set_option autoImplicit false

namespace DistributedPrograms
namespace Raft

variable {A : Type} [DecidableEq A]

inductive ExposedAction (A : Type)
  /-- A step of the cluster itself. -/
  | own (a : Action A)
  /-- Node `n` handles a vote request from outside. -/
  | foreignVote (n : A) (req : RequestVoteRequest A) (d₁ d₂ : Disk A)
  /-- Node `n` handles an entries request from outside. -/
  | foreignEntries (n : A) (req : AppendEntriesRequest) (d₁ d₂ : Disk A)

/-- One step of a cluster that also gets requests from outside.  These may carry anything, and their
answers go nowhere; for the lock they are like all others. -/
def Cluster.exposedStep (servers : Finset A) (c : Cluster A) :
    ExposedAction A → Option (Cluster A)
  | .own a => c.step servers a
  | .foreignVote n req d₁ d₂ =>
    if (c.node n).free servers = true then
      some (c.setNode n
        { c.node n with state := (Raft.requestVote (c.node n).state req d₁ d₂).1 })
    else none
  | .foreignEntries n req d₁ d₂ =>
    if (c.node n).free servers = true then
      some (c.setNode n
        { c.node n with state := (Raft.appendEntries (c.node n).state req d₁ d₂).1 })
    else none

variable {servers : Finset A} {c c' : Cluster A}

/-- A step of the cluster itself, or a handler on a request from outside at one node. -/
theorem exposedStep_cases {e : ExposedAction A} (h : c.exposedStep servers e = some c') (v : A) :
    (∃ a, e = .own a ∧ c.step servers a = some c') ∨
    (c'.node v).state = (c.node v).state ∨
    (∃ req d₁ d₂, e = .foreignVote v req d₁ d₂ ∧
      (c'.node v).state = (requestVote (c.node v).state req d₁ d₂).1) ∨
    (∃ req d₁ d₂, e = .foreignEntries v req d₁ d₂ ∧
      (c'.node v).state = (appendEntries (c.node v).state req d₁ d₂).1) := by
  cases e with
  | own a => exact Or.inl ⟨a, rfl, h⟩
  | foreignVote n req d₁ d₂ =>
    simp only [Cluster.exposedStep, Option.ite_none_right_eq_some, Option.some.injEq] at h
    obtain ⟨-, rfl⟩ := h
    by_cases hv : v = n
    · subst hv
      rw [Cluster.setNode_self]
      exact Or.inr (Or.inr (Or.inl ⟨req, d₁, d₂, rfl, rfl⟩))
    · rw [Cluster.setNode_of_ne _ _ hv]
      exact Or.inr (Or.inl rfl)
  | foreignEntries n req d₁ d₂ =>
    simp only [Cluster.exposedStep, Option.ite_none_right_eq_some, Option.some.injEq] at h
    obtain ⟨-, rfl⟩ := h
    by_cases hv : v = n
    · subst hv
      rw [Cluster.setNode_self]
      exact Or.inr (Or.inr (Or.inr ⟨req, d₁, d₂, rfl, rfl⟩))
    · rw [Cluster.setNode_of_ne _ _ hv]
      exact Or.inr (Or.inl rfl)

end Raft
end DistributedPrograms
