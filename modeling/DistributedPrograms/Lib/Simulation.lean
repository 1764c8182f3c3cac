import Mathlib.Data.List.Basic

/-!
# Simulation

`Steps step C s as t` says that the actions `as`, taken one after the other, lead from `s` to `t`,
and that each meets the condition `C` in the state in which it is taken.  In contrast to a history,
it keeps the actions and forgets the states in between, which is what is compared when one system
follows another.

A relation between the states of two systems is a simulation if the second system can follow every
action of the first, or need not move where the action is not one of its own.  Then every run of the
first, reduced to the actions of the second, is a run of the second (`Steps.simulate`).  As a step
is a function, the same actions lead to one state only (`Steps.unique`), so the run of the second
system that is found in this way is *the* run with these actions: a statement "this made no
difference" is then an equation between the states at the end.

`exec` computes the state that a list of actions leads to, as long as all of them are possible and
meet a check, and `exists_of_exec` turns the value into a run.
-/

set_option autoImplicit false

namespace DistributedPrograms

variable {σ τ α β : Type*}

/-- The actions `as` lead from `init` to the last argument, within the condition `C`.  Here a run is
known by its actions, where `Run` knows its states. -/
inductive Steps (step : σ → α → Option σ) (C : σ → α → Prop) (init : σ) : List α → σ → Prop
  | nil : Steps step C init [] init
  | snoc {as : List α} {a : α} {s s' : σ} (h : Steps step C init as s) (hc : C s a)
      (hs : step s a = some s') : Steps step C init (as ++ [a]) s'

namespace Steps

variable {step : σ → α → Option σ} {C : σ → α → Prop} {init s s' : σ} {as : List α}

/-- A run under a condition is a run under every weaker one. -/
theorem mono {D : σ → α → Prop} (hCD : ∀ s a, C s a → D s a) (h : Steps step C init as s) :
    Steps step D init as s := by
  induction h with
  | nil => exact .nil
  | snoc _ hc hs ih => exact .snoc ih (hCD _ _ hc) hs

/-- The same actions lead to one state only. -/
theorem unique {D : σ → α → Prop} (h : Steps step C init as s) :
    ∀ {s' : σ}, Steps step D init as s' → s = s' := by
  induction h with
  | nil =>
    intro s' h'
    generalize has : ([] : List α) = as at h'
    cases h' with
    | nil => rfl
    | snoc h' hc hs => simp at has
  | @snoc as a s s₁ h hc hs ih =>
    intro s' h'
    generalize has : as ++ [a] = as' at h'
    cases h' with
    | nil => simp at has
    | snoc h' hc' hs' =>
      obtain ⟨rfl, heq⟩ := List.append_inj' has rfl
      obtain ⟨rfl⟩ := List.cons.inj heq
      rw [ih h', hs'] at hs
      exact (Option.some.inj hs).symm

/-- **A simulation carries runs over**, reduced to the actions of the second system: an action that
`f` drops must keep the relation with the second state as it is, and any other must be possible in
both. -/
theorem simulate (step' : τ → β → Option τ) (D : τ → β → Prop) (f : α → Option β) {init' : τ}
    {R : σ → τ → Prop} (hinit : R init init')
    (hstep : ∀ s t a s', R s t → C s a → step s a = some s' →
      (f a = none → R s' t) ∧ ∀ b, f a = some b → D t b ∧ ∃ t', step' t b = some t' ∧ R s' t')
    (h : Steps step C init as s) :
    ∃ t, Steps step' D init' (as.filterMap f) t ∧ R s t := by
  induction h with
  | nil => exact ⟨init', .nil, hinit⟩
  | @snoc as a s s' h hc hs ih =>
    obtain ⟨t, ht, hR⟩ := ih
    obtain ⟨hsilent, hfollow⟩ := hstep s t a s' hR hc hs
    rw [List.filterMap_append]
    cases hf : f a with
    | none =>
      rw [List.filterMap_cons_none hf, List.filterMap_nil, List.append_nil]
      exact ⟨t, ht, hsilent hf⟩
    | some b =>
      obtain ⟨hd, t', hs', hR'⟩ := hfollow b hf
      rw [List.filterMap_cons_some hf, List.filterMap_nil]
      exact ⟨t', .snoc ht hd hs', hR'⟩

/-! ## Running a list of actions

By computation, for the runs of examples. -/

/-- The state that the actions lead to, if all of them are possible and meet the check `c`. -/
def exec (step : σ → α → Option σ) (c : σ → α → Bool) : σ → List α → Option σ
  | s, [] => some s
  | s, a :: as => if c s a then (step s a).bind fun s' => exec step c s' as else none

theorem exec_steps {c : σ → α → Bool} (hC : ∀ s a, c s a = true → C s a) :
    ∀ (bs : List α) {as : List α} {s s' : σ}, Steps step C init as s →
      exec step c s bs = some s' → Steps step C init (as ++ bs) s'
  | [], as, s, s', h, hx => by
    rw [exec, Option.some.injEq] at hx
    rwa [List.append_nil, ← hx]
  | b :: bs, as, s, s', h, hx => by
    rw [exec] at hx
    split at hx
    · next hc =>
      obtain ⟨t, ht, hx⟩ := Option.bind_eq_some_iff.1 hx
      have hrest := exec_steps hC bs (.snoc h (hC s b hc) ht) hx
      rwa [List.append_assoc, List.singleton_append] at hrest
    · contradiction

/-- A property of the last state, evaluated at the end of a list of actions. -/
theorem exists_of_exec {c : σ → α → Bool} (hC : ∀ s a, c s a = true → C s a) {as : List α}
    {p : σ → Bool} (h : (exec step c init as).any p = true) :
    ∃ s, Steps step C init as s ∧ p s = true := by
  obtain ⟨s, hs, hp⟩ := (Option.any_eq_true ..).1 h
  exact ⟨s, exec_steps hC as .nil hs, hp⟩

end Steps

end DistributedPrograms
