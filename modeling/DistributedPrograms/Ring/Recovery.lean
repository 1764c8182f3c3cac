import DistributedPrograms.Ring.Tasks

/-!
# Recovery

`recovery_prev` as a task that moves in three kinds of steps: it looks itself up in the cached
members, tries one candidate after the other with a `set_next`, and, when one succeeded, writes
`prev`.  The tasks of different nodes run in any order.  A `set_next` succeeds exactly on the nodes
that are alive; dead nodes do nothing.

The cache is the list of the last announcement.  The search starts behind the node's own place in it
and goes once around, so the order in which candidates are tried is the order of the ring, from
wherever the list begins. A node that is not on its own cache, or that finds nobody alive, gives up.

* `Recovery.step` is one step of one recovery, and `Recovery.step_cases` inverts it: the lookup
  succeeds or not, a round of the loop ends the loop, fails or links, and the last step writes
  `prev`.
* `HasRun` says that a call of `recovery_prev` by a node has ended, with or without success.

Between the `set_next` that succeeds and the write of `prev` any other step may come, so for a
moment two neighbours disagree about each other.
-/

set_option autoImplicit false

namespace DistributedPrograms
namespace Ring

open SocketAddr

/-- How far a call of `recovery_prev` has come.  It is cut at its awaits, and between two of them
other recoveries go on. -/
inductive RecoveryTask (A : Type) where
  | idle
  /-- at round `i` of the loop, from the own place `myIdx` in the cache -/
  | searching (memberCache : List String) (myIdx i : Nat)
  /-- `set_next` succeeded on `prev` -/
  | linked (prev : A)
  deriving DecidableEq, Repr

/-- The nodes, and the recoveries in progress. -/
abbrev Recovery (A : Type) := Tasks A (RecoveryTask A)

inductive RecoveryAction (A : Type) where
  /-- `n` calls `recovery_prev` with its cache -/
  | start (n : A)
  /-- `n` goes through one round of the loop -/
  | tryNext (n : A)
  /-- `n` writes `prev` and leaves the loop -/
  | finish (n : A)
  deriving DecidableEq, Repr

namespace Recovery

variable {A : Type} [DecidableEq A] [SocketAddr A]

/-- One step of one recovery. -/
def step (ring : List A) (alive : A → Bool) (c : Recovery A) :
    RecoveryAction A → Option (Recovery A)
  | .start n =>
    if n ∈ ring ∧ alive n ∧ c.task n = .idle then
      match Node.myIdxInMemberCache (c.node n).ringCache n with
      | some myIdx => some (c.setTask n (.searching (c.node n).ringCache myIdx 0))
      | none => some c
    else none
  | .tryNext n =>
    match c.task n with
    | .searching memberCache myIdx i =>
      if i < memberCache.length then
        match Node.candidate memberCache myIdx i with
        | some prev =>
          if alive prev then do
            let node ← (c.node prev).setNext (toString n)
            return (c.setNode prev node).setTask n (.linked prev)
          else some (c.setTask n (.searching memberCache myIdx (i + 1)))
        | none => some (c.setTask n (.searching memberCache myIdx (i + 1)))
      else some (c.setTask n .idle)
    | _ => none
  | .finish n =>
    match c.task n with
    | .linked prev => some ((c.setNode n ((c.node n).recoverPrev prev)).setTask n .idle)
    | _ => none

/-- A call of `recovery_prev` by `a` has ended, in the history given.  It may have ended without
having found anybody. -/
def HasRun : List (Recovery A) → A → Prop
  | s' :: s :: tr, a => (s.task a ≠ .idle ∧ s'.task a = .idle) ∨ HasRun (s :: tr) a
  | _, _ => False

instance decidableHasRun : ∀ (tr : List (Recovery A)) (a : A), Decidable (HasRun tr a)
  | [], _ => inferInstanceAs (Decidable False)
  | [_], _ => inferInstanceAs (Decidable False)
  | s' :: s :: tr, a =>
    have := decidableHasRun (s :: tr) a
    inferInstanceAs (Decidable ((s.task a ≠ .idle ∧ s'.task a = .idle) ∨ HasRun (s :: tr) a))

/-! ## What the steps do

The one inversion lemma.  Everything later about recoveries is read off from it. -/

variable {ring : List A} {alive : A → Bool} {c c' : Recovery A}

/-- **What a step does.**  The lookup succeeds or not; a round of the loop ends the loop, fails or
links; and the last step writes `prev`. -/
theorem step_cases {act : RecoveryAction A} (h : c.step ring alive act = some c') :
    (∃ n, act = .start n ∧ n ∈ ring ∧ alive n ∧ c.task n = .idle ∧
      ((∃ myIdx, Node.myIdxInMemberCache (c.node n).ringCache n = some myIdx ∧
        c' = c.setTask n (.searching (c.node n).ringCache myIdx 0)) ∨ c' = c)) ∨
    (∃ n memberCache myIdx i, act = .tryNext n ∧ c.task n = .searching memberCache myIdx i ∧
      ((memberCache.length ≤ i ∧ c' = c.setTask n .idle) ∨
       ((∀ prev, Node.candidate memberCache myIdx i = some prev → alive prev = false) ∧
         c' = c.setTask n (.searching memberCache myIdx (i + 1))) ∨
       (∃ prev, Node.candidate memberCache myIdx i = some prev ∧ alive prev ∧
         c' = (c.setNode prev { c.node prev with
           connection := { (c.node prev).connection with next := n } }).setTask n
             (.linked prev)))) ∨
    (∃ n prev, act = .finish n ∧ c.task n = .linked prev ∧
      c' = (c.setNode n ((c.node n).recoverPrev prev)).setTask n .idle) := by
  cases act with
  | start n =>
    rw [step] at h
    split at h
    · next hg =>
      refine Or.inl ⟨n, rfl, hg.1, hg.2.1, hg.2.2, ?_⟩
      split at h
      · next myIdx hidx => exact Or.inl ⟨myIdx, hidx, (Option.some.inj h).symm⟩
      · exact Or.inr (Option.some.inj h).symm
    · cases h
  | tryNext n =>
    rw [step] at h
    split at h
    · next memberCache myIdx i ht =>
      refine Or.inr (Or.inl ⟨n, memberCache, myIdx, i, rfl, ht, ?_⟩)
      split at h
      · split at h
        · next prev hprev =>
          split at h
          · next halive =>
            refine Or.inr (Or.inr ⟨prev, hprev, halive, ?_⟩)
            simpa [Node.setNext] using h.symm
          · next halive =>
            refine Or.inr (Or.inl ⟨fun p hp => ?_, (Option.some.inj h).symm⟩)
            rw [hprev, Option.some.injEq] at hp
            exact hp ▸ Bool.eq_false_iff.2 halive
        · next hnone =>
          refine Or.inr (Or.inl ⟨fun p hp => ?_, (Option.some.inj h).symm⟩)
          rw [hnone] at hp
          cases hp
      · next hlen => exact Or.inl ⟨Nat.not_lt.1 hlen, (Option.some.inj h).symm⟩
    · cases h
  | finish n =>
    rw [step] at h
    split at h
    · next prev ht => exact Or.inr (Or.inr ⟨n, prev, rfl, ht, (Option.some.inj h).symm⟩)
    · cases h

end Recovery

end Ring
end DistributedPrograms
