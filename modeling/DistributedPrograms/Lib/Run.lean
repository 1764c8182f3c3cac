import Mathlib.Logic.Relation
import Mathlib.Data.List.Basic

/-!
# Runs of a transition system

A system is a partial function `step : σ → α → Option σ`: in state `s` the action `a` is either
impossible or leads to one state.  All nondeterminism (which task moves, which message arrives,
whether a disk write fails) sits in the choice of the action, so that a step is a function and can
be evaluated.

`Run step C init tr` says that `tr` is the history of a run from `init`, *latest state first*, all
of whose steps meet the condition `C`.  Keeping the whole history is what lets a property speak of
two moments of a run, or of something a node "has held"; and because `C` sees the history before the
step, a condition can do so too.  The unconditional runs are those with `C := fun _ _ => True`.

The rules for properties of runs are stated once, for any system and any condition:

* **State invariants.** `Run.forall_mem`: what holds initially and survives every permitted step
  holds at every moment of every run.
* **Relations between two moments.** `Run.pairwise`, for a transitive relation that every step
  establishes.
* **What lasts.** `Run.forall_later`, for a property that no step takes away, and
  `Run.forall_later_while` for one that lasts only as long as the states have some other property.
* **Everything else.** `Run.head_induction`, where the last state and the history before it are both
  needed.
* **Conditions.** `Run.mono` and `Run.of_forall_step` go from one condition on the steps to another;
  `Run.of_suffix` and `Run.exists_suffix_of_mem` cut a run at a moment of it.

A statement of the form "no run does this" is refuted by one run, and that run is written as a list
of actions.  `exec` computes the history of such a list, and `check` and `checkStep` ask a decidable
question at its end; `exists_of_check` and `exists_of_checkStep` turn the answer into a run.  The
state of a concrete run must therefore be something that evaluates, which is why the systems of this
development are plain functions on plain data.
-/

set_option autoImplicit false

namespace DistributedPrograms

variable {σ α : Type*}

/-- `tr` is the history, latest state first, of a run from `init` in which every step meets `C`.
The condition may look at the whole history before the step, and at the action, but not at what
comes out. -/
inductive Run (step : σ → α → Option σ) (C : List σ → α → Prop) (init : σ) : List σ → Prop
  | init : Run step C init [init]
  | step {s s' : σ} {tr : List σ} {a : α} (h : Run step C init (s :: tr)) (hc : C (s :: tr) a)
      (hs : step s a = some s') : Run step C init (s' :: s :: tr)

namespace Run

variable {step : σ → α → Option σ} {C D : List σ → α → Prop} {init : σ}

/-- A run under a condition is a run under every weaker one. -/
theorem mono (hCD : ∀ tr a, C tr a → D tr a) {tr : List σ} (h : Run step C init tr) :
    Run step D init tr := by
  induction h with
  | init => exact .init
  | step _ hc hs ih => exact .step ih (hCD _ _ hc) hs

/-- A run all of whose steps meet another condition is a run under that one. -/
theorem of_forall_step {tr : List σ} (h : Run step C init tr)
    (hD : ∀ s' s rest a, (s' :: s :: rest) <:+ tr → step s a = some s' → D (s :: rest) a) :
    Run step D init tr := by
  induction h with
  | init => exact .init
  | step _ _ hs ih =>
    refine .step (ih fun s' s rest a hsuf => hD s' s rest a ?_) (hD _ _ _ _ List.suffix_rfl hs) hs
    exact hsuf.trans (List.suffix_cons _ _)

theorem ne_nil {tr : List σ} (h : Run step C init tr) : tr ≠ [] := by
  cases h <;> simp

/-- Induction on a run, for properties of its last state and the history before it. -/
theorem head_induction {P : σ → List σ → Prop} (hinit : P init [])
    (hstep : ∀ s tr a s', Run step C init (s :: tr) → C (s :: tr) a → step s a = some s' →
      P s tr → P s' (s :: tr)) {s : σ} {tr : List σ} (h : Run step C init (s :: tr)) : P s tr := by
  generalize htr : s :: tr = tr' at h
  induction h generalizing s tr with
  | init => cases htr; exact hinit
  | step h hc hs ih => cases htr; exact hstep _ _ _ _ h hc hs (ih rfl)

/-- Every moment of a run ends a run of its own. -/
theorem of_suffix {tr : List σ} (h : Run step C init tr) :
    ∀ {tr₀ : List σ}, tr₀ <:+ tr → tr₀ ≠ [] → Run step C init tr₀ := by
  induction h with
  | init =>
    intro tr₀ hsuf hne
    rcases List.suffix_cons_iff.1 hsuf with rfl | hsuf
    · exact .init
    · exact absurd (List.suffix_nil.1 hsuf) hne
  | step h hc hs ih =>
    intro tr₀ hsuf hne
    rcases List.suffix_cons_iff.1 hsuf with rfl | hsuf
    · exact .step h hc hs
    · exact ih hsuf hne

/-- The history up to any state that occurs in a run. -/
theorem exists_suffix_of_mem {tr : List σ} (h : Run step C init tr) {s : σ} (hs : s ∈ tr) :
    ∃ tr₀, (s :: tr₀) <:+ tr ∧ Run step C init (s :: tr₀) := by
  obtain ⟨l, r, rfl⟩ := List.append_of_mem hs
  exact ⟨r, List.suffix_append l _, h.of_suffix (List.suffix_append l _) (by simp)⟩

/-- Of two moments of a run, one is in the history of the other. -/
theorem exists_suffix_or {tr : List σ} {s t : σ} (hs : s ∈ tr) (ht : t ∈ tr) :
    (∃ tr₀, (s :: tr₀) <:+ tr ∧ t ∈ s :: tr₀) ∨ (∃ tr₀, (t :: tr₀) <:+ tr ∧ s ∈ t :: tr₀) := by
  induction tr with
  | nil => exact absurd hs (by simp)
  | cons u tr ih =>
    rcases List.mem_cons.1 hs with rfl | hs'
    · exact Or.inl ⟨tr, List.suffix_rfl, ht⟩
    rcases List.mem_cons.1 ht with rfl | ht'
    · exact Or.inr ⟨tr, List.suffix_rfl, hs⟩
    rcases ih hs' ht' with ⟨tr₀, hsuf, h⟩ | ⟨tr₀, hsuf, h⟩
    · exact Or.inl ⟨tr₀, hsuf.trans (List.suffix_cons _ _), h⟩
    · exact Or.inr ⟨tr₀, hsuf.trans (List.suffix_cons _ _), h⟩

/-- **State invariants.**  What holds initially and survives every permitted step holds at every
moment of every run.  The run up to the step is at hand, so other invariants may be used. -/
theorem forall_mem {I : σ → Prop} (hinit : I init)
    (hstep : ∀ s tr a s', Run step C init (s :: tr) → C (s :: tr) a → I s → step s a = some s' →
      I s') {tr : List σ} (h : Run step C init tr) : ∀ s ∈ tr, I s := by
  induction h with
  | init => simpa using hinit
  | step h hc hs ih =>
    intro t ht
    rcases List.mem_cons.1 ht with rfl | ht
    · exact hstep _ _ _ _ h hc (ih _ (by simp)) hs
    · exact ih t ht

/-- A run is one under another condition where this follows from the first in the states that occur.
-/
theorem mono_of_mem {I : σ → Prop}
    (hCD : ∀ s tr a, I s → C (s :: tr) a → D (s :: tr) a) {tr : List σ} (h : Run step C init tr)
    (hI : ∀ s ∈ tr, I s) : Run step D init tr := by
  induction h with
  | init => exact .init
  | step _ hc hs ih =>
    have hpast := (List.forall_mem_cons.1 hI).2
    exact .step (ih hpast) (hCD _ _ _ (hpast _ List.mem_cons_self) hc) hs

/-- A transitive relation that every step establishes relates any later moment to any earlier one.
-/
theorem pairwise {R : σ → σ → Prop} (htrans : ∀ {u t s}, R u t → R t s → R u s)
    (hstep : ∀ s tr a s', Run step C init (s :: tr) → C (s :: tr) a → step s a = some s' → R s' s)
    {tr : List σ} (h : Run step C init tr) : tr.Pairwise R := by
  induction h with
  | init => exact List.pairwise_singleton _ _
  | step h hc hs ih =>
    have hlast := hstep _ _ _ _ h hc hs
    refine List.pairwise_cons.2 ⟨fun t ht => ?_, ih⟩
    rcases List.mem_cons.1 ht with rfl | ht
    · exact hlast
    · exact htrans hlast ((List.pairwise_cons.1 ih).1 t ht)

/-- **What lasts while.**  A property that no step into a state with `N` takes away lasts from the
moment it holds for as long as the states have `N`. -/
theorem forall_later_while {P N : σ → Prop}
    (hstep : ∀ s tr a s', Run step C init (s :: tr) → C (s :: tr) a → P s → step s a = some s' →
      N s' → P s') {s : σ} {rest : List σ} :
    ∀ {later : List σ}, Run step C init (later ++ s :: rest) → P s → (∀ t ∈ later, N t) →
      ∀ t ∈ later ++ [s], P t
  | [], _, hP, _, t, ht => by
    rw [List.mem_singleton.1 ht]
    exact hP
  | u :: later, h, hP, hN, t, ht => by
    have hrun : Run step C init (later ++ s :: rest) :=
      h.of_suffix (List.suffix_cons u _) (by simp)
    have hold : ∀ t ∈ later ++ [s], P t :=
      forall_later_while hstep hrun hP fun t ht => hN t (List.mem_cons_of_mem _ ht)
    rcases List.mem_cons.1 ht with rfl | ht
    · generalize htr : later ++ s :: rest = tr at hrun
      rw [List.cons_append, htr] at h
      cases h with
      | init => simp at htr
      | @step v _ tr a hrun hc hs =>
        have hv : v ∈ later ++ [s] := by
          cases later with
          | nil =>
            cases htr
            exact List.mem_cons_self
          | cons w later =>
            cases htr
            exact List.mem_cons_self
        exact hstep v tr a t hrun hc (hold v hv) hs (hN t List.mem_cons_self)
    · exact hold t ht

/-- **What lasts.**  A property that no step takes away holds from the moment it first does. -/
theorem forall_later {P : σ → Prop}
    (hstep : ∀ s tr a s', Run step C init (s :: tr) → C (s :: tr) a → P s → step s a = some s' →
      P s') {s : σ} {rest later : List σ} (h : Run step C init (later ++ s :: rest)) (hP : P s) :
    ∀ t ∈ later ++ [s], P t :=
  forall_later_while (N := fun _ => True)
    (fun s tr a s' h hc hP hs _ => hstep s tr a s' h hc hP hs) h hP fun _ _ => trivial

/-! ## Running a list of actions

A run that is given by its actions.  The check `c` is evaluated before every step, on the history up
to there, so that the run it finds is one under the condition that `c` decides. -/

/-- Extend the history `tr` by the actions `as`; `none` when an action is impossible or fails the
check `c`.  It computes, so that a run can be shown to exist by giving its actions. -/
def exec (step : σ → α → Option σ) (c : List σ → α → Bool) : List σ → List α → Option (List σ)
  | tr, [] => some tr
  | [], _ :: _ => none
  | s :: tr, a :: as =>
    if c (s :: tr) a then
      match step s a with
      | some s' => exec step c (s' :: s :: tr) as
      | none => none
    else none

theorem exec_run {c : List σ → α → Bool} (hcC : ∀ tr a, c tr a = true → C tr a) :
    ∀ (as : List α) {tr tr' : List σ}, Run step C init tr → exec step c tr as = some tr' →
      Run step C init tr'
  | [], tr, tr', h, hx => by
    simp only [exec, Option.some.injEq] at hx
    exact hx ▸ h
  | a :: as, [], tr', h, hx => by simp [exec] at hx
  | a :: as, s :: tr, tr', h, hx => by
    rw [exec] at hx
    split at hx
    · rename_i hc
      split at hx
      · rename_i s' hs
        exact exec_run hcC as (.step h (hcC _ _ hc) hs) hx
      · exact absurd hx (by simp)
    · exact absurd hx (by simp)

theorem exec_append {c : List σ → α → Bool} (bs : List α) :
    ∀ (as : List α) {tr : List σ}, tr ≠ [] →
      exec step c tr (as ++ bs) = (exec step c tr as).bind fun tr => exec step c tr bs
  | [], _, _ => rfl
  | _ :: _, [], hne => absurd rfl hne
  | a :: as, s :: tr, _ => by
    rw [List.cons_append, exec, exec]
    split
    · split
      · exact exec_append bs as (List.cons_ne_nil _ _)
      · rfl
    · rfl

/-- What has happened stays in the history. -/
theorem exec_suffix {c : List σ → α → Bool} :
    ∀ (as : List α) {tr tr' : List σ}, exec step c tr as = some tr' → tr <:+ tr'
  | [], tr, tr', h => by
    rw [exec, Option.some.injEq] at h
    exact h ▸ List.suffix_rfl
  | _ :: _, [], _, _ => List.nil_suffix
  | a :: as, s :: tr, tr', h => by
    rw [exec] at h
    split at h
    · split at h
      · exact (List.suffix_cons _ _).trans (exec_suffix as h)
      · contradiction
    · contradiction

/-- An action of the list is a step of the history. -/
theorem exists_step_of_exec {c : List σ → α → Bool} {as bs : List α} {a : α} {tr tr' : List σ}
    (hne : tr ≠ []) (h : exec step c tr (as ++ a :: bs) = some tr') :
    ∃ later s' s rest, tr' = later ++ s' :: s :: rest ∧ step s a = some s' := by
  rw [exec_append _ as hne] at h
  obtain ⟨mid, hmid, h⟩ := Option.bind_eq_some_iff.1 h
  cases mid with
  | nil => exact absurd (List.suffix_nil.1 (exec_suffix as hmid)) hne
  | cons s rest =>
    rw [exec] at h
    split at h
    · split at h
      · next s' hs =>
        obtain ⟨later, rfl⟩ := exec_suffix bs h
        exact ⟨later, s', s, rest, rfl, hs⟩
      · contradiction
    · contradiction

/-- The actions `as` can be taken from `init` within the check `c`, and lead to a history with `p`.
-/
def check (step : σ → α → Option σ) (c : List σ → α → Bool) (init : σ) (as : List α)
    (p : List σ → Bool) : Bool :=
  (exec step c [init] as).any p

/-- The same for the actions `as` and then `a`, where `p` is about the last step. -/
def checkStep (step : σ → α → Option σ) (c : List σ → α → Bool) (init : σ) (as : List α) (a : α)
    (p : σ → σ → List σ → Bool) : Bool :=
  check step c init as fun
    | [] => false
    | s :: tr => c (s :: tr) a && (step s a).any fun s' => p s' s tr

/-- A property of a history, evaluated at the end of a list of actions, holds of some run. -/
theorem exists_of_check {c : List σ → α → Bool} (hcC : ∀ tr a, c tr a = true → C tr a)
    {as : List α} {p : List σ → Bool} (h : check step c init as p = true) :
    ∃ tr, Run step C init tr ∧ p tr = true := by
  rw [check] at h
  cases hx : exec step c [init] as with
  | none => simp [hx] at h
  | some tr => exact ⟨tr, exec_run hcC as .init hx, by simpa [hx] using h⟩

theorem exists_of_checkStep {c : List σ → α → Bool} (hcC : ∀ tr a, c tr a = true → C tr a)
    {as : List α} {a : α} {p : σ → σ → List σ → Bool}
    (h : checkStep step c init as a p = true) :
    ∃ s' s tr, Run step C init (s' :: s :: tr) ∧ step s a = some s' ∧ p s' s tr = true := by
  obtain ⟨tr, hrun, hp⟩ := exists_of_check hcC h
  cases tr with
  | nil => exact absurd hp (by simp)
  | cons s tr =>
    simp only [Bool.and_eq_true, Option.any_eq_true] at hp
    obtain ⟨hc, s', hs, hp⟩ := hp
    exact ⟨s', s, tr, .step hrun (hcC _ _ hc) hs, hs, hp⟩

end Run

/-! ## The literals of `Fin 2` and `Fin 4`, for concrete runs -/

instance neZero_two : @NeZero Nat Zero.ofOfNat0 2 := ⟨by decide⟩

instance neZero_four : @NeZero Nat Zero.ofOfNat0 4 := ⟨by decide⟩

end DistributedPrograms
