import DistributedPrograms.Lib.Run
import Mathlib.Data.Finset.Insert

/-!
# What can still happen

`Possible step C P s` says that `P` is still within reach at `s`: some actions lead from `s` to a
state with `P`, each of them within the condition `C`.  A theorem that no reachable state is a dead
end is a `Possible` at every reachable state, and is proved by giving the actions.  It does not say
that they will be taken; for that one needs assumptions on the scheduler, and nothing here makes
any.

The rules put such runs together out of pieces:

* `Possible.one` is a single step, `Possible.bind` goes on from the state that a first piece has
  reached, and `Possible.mono` forgets what is not needed of it;
* `Possible.forall_mem` does a piece once for every element of a finite set, in any order, where the
  piece for one element does not undo those for the others;
* `Possible.keeping` adds what every step keeps.

What is possible after a run happens in a longer one (`Possible.exists_run`), which is how the
statement comes back to histories.
-/

set_option autoImplicit false

namespace DistributedPrograms

variable {σ α ι : Type*}

inductive Possible (step : σ → α → Option σ) (C : σ → α → Prop) (P : σ → Prop) : σ → Prop
  | here {s : σ} (h : P s) : Possible step C P s
  | next {s s' : σ} {a : α} (hc : C s a) (hs : step s a = some s') (h : Possible step C P s') :
    Possible step C P s

namespace Possible

variable {step : σ → α → Option σ} {C : σ → α → Prop} {P Q : σ → Prop} {s : σ}

theorem bind (h : Possible step C P s) (hQ : ∀ t, P t → Possible step C Q t) :
    Possible step C Q s := by
  induction h with
  | here h => exact hQ _ h
  | next hc hs _ ih => exact .next hc hs ih

theorem mono (h : Possible step C P s) (hPQ : ∀ t, P t → Q t) : Possible step C Q s :=
  h.bind fun t ht => .here (hPQ t ht)

theorem one {s' : σ} {a : α} (hc : C s a) (hs : step s a = some s') (h : P s') :
    Possible step C P s :=
  .next hc hs (.here h)

/-- Once for every element of a finite set, in any order. -/
theorem forall_mem [DecidableEq ι] {I : Finset ι → σ → Prop} {F : Finset ι}
    (hstep : ∀ S i t, i ∈ F → i ∉ S → I S t → Possible step C (I (insert i S)) t) (h : I ∅ s) :
    Possible step C (I F) s := by
  suffices ∀ S ⊆ F, Possible step C (I S) s from this F (Finset.Subset.refl F)
  intro S hS
  induction S using Finset.induction_on with
  | empty => exact .here h
  | insert i S hi ih =>
    have hsub := Finset.insert_subset_iff.1 hS
    exact (ih hsub.2).bind fun t ht => hstep S i t hsub.1 hi ht

/-- What every step keeps still holds on the way. -/
theorem keeping {I : σ → Prop} (hI : ∀ t a t', I t → step t a = some t' → I t')
    (h : Possible step C P s) (hs : I s) : Possible step C (fun t => P t ∧ I t) s := by
  induction h with
  | here h => exact .here ⟨h, hs⟩
  | next hc hstep _ ih => exact .next hc hstep (ih (hI _ _ _ hs hstep))

/-- What is possible at the end of a run happens in a longer one. -/
theorem exists_run {D : List σ → α → Prop} {init : σ} {tr : List σ}
    (hCD : ∀ s tr a, C s a → D (s :: tr) a) (h : Possible step C P s)
    (hrun : Run step D init (s :: tr)) :
    ∃ t later, Run step D init (t :: later) ∧ (s :: tr) <:+ t :: later ∧ P t := by
  induction h generalizing tr with
  | @here s h => exact ⟨s, tr, hrun, List.suffix_rfl, h⟩
  | @next s s' a hc hs _ ih =>
    obtain ⟨t, later, hlater, hsuffix, hP⟩ := ih (hrun.step (hCD s tr a hc) hs)
    exact ⟨t, later, hlater, (List.suffix_cons s' (s :: tr)).trans hsuffix, hP⟩

end Possible

end DistributedPrograms
