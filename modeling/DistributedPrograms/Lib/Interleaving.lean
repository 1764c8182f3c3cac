import Mathlib.Logic.Function.Basic
import DistributedPrograms.Lib.Program

/-!
# Programs that run side by side

`Threads` are programs of one signature over one shared state.  A step lets one thread make its next
call; what the call is answered and does to the shared state is a `Semantics`, which may also refuse
the call for the moment, so that the thread waits.  What the semantics leaves open (an error, a
short read, a time) is resolved by a choice of type `ω` that comes with the step.

So the atomic steps of the threads are exactly their calls, and a run of `Threads.step` is an
arbitrary interleaving of them: nothing is assumed about scheduling or fairness.  A lock is no
exception.  It is a part of the shared state, and a call that asks for one is refused as long as the
semantics says that it is taken.

`Threads.step_cases` is the one place where a step is taken apart: the thread had a call to make,
the semantics answered it, and all other threads are where they were.
-/

set_option autoImplicit false

namespace DistributedPrograms

/-- What a call of a thread `p` does to the shared state `σ`; `none` makes it wait.  The choice `ω`
stands for everything that the call leaves open, as an answer that may be any. -/
structure Semantics (C : Type → Type) (P ω σ : Type*) where
  exec : {β : Type} → P → ω → C β → σ → Option (β × σ)

/-- Programs over one shared state.  A thread that has ended has a program that returns, so nothing
is ever taken out. -/
structure Threads (C : Type → Type) (P σ : Type*) (α : Type) where
  /-- what a thread has still to run -/
  left : P → Program C α
  shared : σ

namespace Threads

variable {C : Type → Type} {P ω σ : Type*} {α : Type} [DecidableEq P]

/-- The thread `a.1` makes its next call.  A call is atomic, and between two calls of one thread any
number of calls of others may come. -/
def step (sem : Semantics C P ω σ) (t : Threads C P σ α) (a : P × ω) : Option (Threads C P σ α) :=
  match t.left a.1 with
  | .ret _ => none
  | .call c next => (sem.exec a.1 a.2 c t.shared).map fun r =>
      ⟨Function.update t.left a.1 (next r.1), r.2⟩

variable {sem : Semantics C P ω σ} {t t' : Threads C P σ α}

theorem step_cases {a : P × ω} (h : t.step sem a = some t') :
    ∃ (β : Type) (c : C β) (next : β → Program C α) (b : β) (s : σ),
      t.left a.1 = .call c next ∧ sem.exec a.1 a.2 c t.shared = some (b, s) ∧
      t' = ⟨Function.update t.left a.1 (next b), s⟩ := by
  unfold step at h
  split at h
  · cases h
  · next β c next hleft =>
    obtain ⟨⟨b, s⟩, hexec, rfl⟩ := Option.map_eq_some_iff.1 h
    exact ⟨β, c, next, b, s, hleft, hexec, rfl⟩

/-- The step of a thread whose next call is not refused. -/
theorem step_call {p : P} {o : ω} {β : Type} {c : C β} {next : β → Program C α} {b : β} {s : σ}
    (hleft : t.left p = .call c next) (hexec : sem.exec p o c t.shared = some (b, s)) :
    t.step sem (p, o) = some ⟨Function.update t.left p (next b), s⟩ := by
  simp [step, hleft, hexec]

end Threads
end DistributedPrograms
