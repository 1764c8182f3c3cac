import DistributedPrograms.Lib.Simulation
import Mathlib.Algebra.BigOperators.Group.List.Basic
import Mathlib.Algebra.GroupWithZero.Nat

/-!
# Steps that are paid for in advance

A system is given a budget by some of its actions and spends it with others.  If every action of the
second kind makes the work that is left smaller, and an action of the first kind adds at most `k` to
it, then a run has at most `k` actions of the second kind for each of the first (`Steps.countP_le`).
Nothing is said of the order in which the work is done, nor of when: the actions of the first kind
may come at any time, and all other actions may do what they like as long as they add no work.

The rule is stated under an invariant of the states, because the work of a task is bounded only
where the data it goes through is bounded.

The work is mostly a sum over the tasks of a list.  `sum_map_set`, `sum_map_eraseIdx`,
`sum_map_le_of_sublist` and `sum_map_filterMap_le` say what becomes of it when the list changes:
when one task moves on, when one is taken away, when some of them are lost, and when some turn into
something else.
-/

set_option autoImplicit false

namespace DistributedPrograms

variable {σ α : Type*}

/-- Replacing one element changes a sum by what this element had and what the new one has. -/
theorem sum_map_set (w : α → Nat) (y : α) : ∀ {l : List α} {i : Nat} {x : α},
    l[i]? = some x → ((l.set i y).map w).sum + w x = (l.map w).sum + w y
  | [], i, x, h => by simp at h
  | z :: l, 0, x, h => by
    obtain rfl : z = x := by simpa using h
    simp only [List.set_cons_zero, List.map_cons, List.sum_cons]
    omega
  | z :: l, i + 1, x, h => by
    have ih := sum_map_set w y (l := l) (i := i) (by simpa using h)
    simp only [List.set_cons_succ, List.map_cons, List.sum_cons]
    omega

/-- Taking an element away takes its share. -/
theorem sum_map_eraseIdx (w : α → Nat) : ∀ {l : List α} {i : Nat} {x : α},
    l[i]? = some x → ((l.eraseIdx i).map w).sum + w x = (l.map w).sum
  | [], i, x, h => by simp at h
  | z :: l, 0, x, h => by
    obtain rfl : z = x := by simpa using h
    simp only [List.eraseIdx_cons_zero, List.map_cons, List.sum_cons]
    omega
  | z :: l, i + 1, x, h => by
    have ih := sum_map_eraseIdx w (l := l) (i := i) (by simpa using h)
    simp only [List.eraseIdx_cons_succ, List.map_cons, List.sum_cons]
    omega

/-- What is left of a list has no more to do. -/
theorem sum_map_le_of_sublist (w : α → Nat) {l l' : List α} (h : l'.Sublist l) :
    (l'.map w).sum ≤ (l.map w).sum := by
  induction h with
  | slnil => exact Nat.le_refl _
  | cons a _ ih =>
    rw [List.map_cons, List.sum_cons]
    omega
  | cons_cons a _ ih =>
    rw [List.map_cons, List.map_cons, List.sum_cons, List.sum_cons]
    omega

/-- What some elements turn into has no more to do than they had.  This is for steps that end some
tasks and leave others of another kind behind. -/
theorem sum_map_filterMap_le {β : Type*} {w : α → Nat} {w' : β → Nat} {g : α → Option β}
    (h : ∀ x y, g x = some y → w' y ≤ w x) : ∀ l : List α,
    ((l.filterMap g).map w').sum ≤ (l.map w).sum
  | [] => Nat.le_refl _
  | x :: l => by
    have ih := sum_map_filterMap_le h l
    rw [List.map_cons, List.sum_cons]
    cases hx : g x with
    | none =>
      rw [List.filterMap_cons_none hx]
      omega
    | some y =>
      rw [List.filterMap_cons_some hx, List.map_cons, List.sum_cons]
      have hle := h x y hx
      omega

namespace Steps

variable {step : σ → α → Option σ} {C : σ → α → Prop} {init s : σ} {as : List α}

/-- **The budget rule**, under an invariant.  Every busy step takes at least one unit of work away,
and only a step that starts something brings work, at most `k` units of it; so a run has at most as
many busy steps as there is work at the beginning, and `k` more for each start. -/
theorem countP_le {I : σ → Prop} (work : σ → Nat) (busy starts : α → Bool) (k : Nat)
    (hinit : I init) (hstep : ∀ s a s', I s → C s a → step s a = some s' →
      I s' ∧ (if busy a then 1 else 0) + work s' ≤ work s + if starts a then k else 0)
    (h : Steps step C init as s) :
    I s ∧ as.countP busy + work s ≤ work init + k * as.countP starts := by
  induction h with
  | nil => exact ⟨hinit, by simp⟩
  | @snoc as a s s' _ hc hs ih =>
    obtain ⟨hI, hsum⟩ := ih
    obtain ⟨hI', hpay⟩ := hstep s a s' hI hc hs
    refine ⟨hI', ?_⟩
    rw [List.countP_append, List.countP_append, List.countP_singleton, List.countP_singleton,
      Nat.mul_add]
    have hk : k * (if starts a = true then 1 else 0) = if starts a = true then k else 0 := by
      split <;> simp
    omega

end Steps

end DistributedPrograms
