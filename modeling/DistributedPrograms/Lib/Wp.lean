import DistributedPrograms.Lib.Interleaving

/-!
# What holds when a program stops

`wp sem p Q x s` says that every run of the program `x` by the thread `p`, from the state `s` with
nobody else moving, stops with `Q`: with the result `some a`, or with `none` where it waits forever
at a call that is refused.  In contrast to `Ends` it speaks about all runs at once, so it is the
form for "whatever the answers are, afterwards …", and a run that waits is not forgotten.

It is computed along the text of `x`, like a weakest precondition: `wp_bind` hands the rest of a
sequence to its first part, `wp_bracket` waits for its first call or stops where its body does, and
`wp_attempt_bind` is a call that is not refused, with what follows it.  `wp_mono` weakens what is
shown at the end, `wp_and` puts two results together, and `wp_of_uses` is the rule for an invariant:
what no call of a program ends holds when it stops.

`drive` is the run of a program with a choice for each of its calls.  It is a function, and
`drive_of_wp` says that what holds of all runs holds of this one.
-/

set_option autoImplicit false

namespace DistributedPrograms

variable {C : Type → Type} {P ω σ : Type*} {α β : Type} {sem : Semantics C P ω σ} {p : P}

namespace Program

/-- `f` after a result, and `Q` where there is none. -/
def andThen (f : α → σ → Prop) (Q : Option β → σ → Prop) : Option α → σ → Prop
  | some a, s => f a s
  | none, s => Q none s

/-- All runs of a program stop with `Q`.  A run stops with a result, or without one at a call that
waits; what has been done up to there counts in both cases. -/
def wp (sem : Semantics C P ω σ) (p : P) (Q : Option α → σ → Prop) : Program C α → σ → Prop
  | .ret a, s => Q (some a) s
  | .call c next, s => ∀ o, match sem.exec p o c s with
    | some (b, s') => (next b).wp sem p Q s'
    | none => Q none s

/-- Runs a program, with a choice for each of its calls.  The choices are read one after the
other. -/
def drive (sem : Semantics C P ω σ) (p : P) : Program C α → (Nat → ω) → σ → Option α × σ
  | .ret a, _, s => (some a, s)
  | .call c next, os, s => match sem.exec p (os 0) c s with
    | some (b, s') => (next b).drive sem p (fun n => os (n + 1)) s'
    | none => (none, s)

variable {Q Q' : Option α → σ → Prop} {x : Program C α} {s : σ}

theorem drive_of_wp (os : Nat → ω) (h : wp sem p Q x s) :
    Q (x.drive sem p os s).1 (x.drive sem p os s).2 := by
  induction x generalizing os s with
  | ret a => exact h
  | call c next ih =>
    have hnext := h (os 0)
    rw [drive]
    split at hnext
    · exact ih _ _ hnext
    · exact hnext

theorem wp_mono (hQ : ∀ r s, Q r s → Q' r s) (h : wp sem p Q x s) : wp sem p Q' x s := by
  induction x generalizing s with
  | ret a => exact hQ _ _ h
  | call c next ih =>
    intro o
    have hnext := h o
    split at hnext
    · exact ih _ hnext
    · exact hQ _ _ hnext

theorem wp_and (h : wp sem p Q x s) (h' : wp sem p Q' x s) :
    wp sem p (fun r s => Q r s ∧ Q' r s) x s := by
  induction x generalizing s with
  | ret a => exact ⟨h, h'⟩
  | call c next ih =>
    intro o
    have hnext := h o
    have hnext' := h' o
    split at hnext
    · next hexec =>
      rw [hexec] at hnext'
      exact ih _ hnext hnext'
    · next hexec =>
      rw [hexec] at hnext'
      exact ⟨hnext, hnext'⟩

theorem wp_of_forall (h : ∀ r s, Q r s) : wp sem p Q x s := by
  induction x generalizing s with
  | ret a => exact h _ _
  | call c next ih =>
    intro o
    split
    · exact ih _
    · exact h _ _

/-- **A sequence stops where its second part does, or where its first part waits.**  With this rule
a program is gone through from the front, part by part. -/
theorem wp_bind {Q : Option β → σ → Prop} {f : α → Program C β} :
    wp sem p Q (x >>= f) s ↔ wp sem p (andThen (fun a => wp sem p Q (f a)) Q) x s := by
  induction x generalizing s with
  | ret a => exact Iff.rfl
  | call c next ih =>
    rw [call_bind, wp, wp]
    refine forall_congr' fun o => ?_
    split
    · exact ih _
    · exact Iff.rfl

theorem wp_perform {c : C α} : wp sem p Q (perform c) s ↔
    ∀ o, match sem.exec p o c s with
      | some (a, s') => Q (some a) s'
      | none => Q none s :=
  Iff.rfl

/-- **Invariants.**  What no call of a program ends holds when it stops.  Which calls the program
makes is all that has to be known about it. -/
theorem wp_of_uses {I : σ → Prop} {R : {β : Type} → C β → Prop}
    (hI : ∀ {β : Type} (c : C β), R c → ∀ o s b s', I s → sem.exec p o c s = some (b, s') → I s')
    (hx : Uses R x) (hs : I s) : wp sem p (fun _ s => I s) x s := by
  induction x generalizing s with
  | ret a => exact hs
  | call c next ih =>
    intro o
    split
    · next b s' hexec => exact ih b (hx.2 b) (hI c hx.1 o s b s' hs hexec)
    · exact hs

end Program

namespace Fallible

variable {E E' : Type}

/-- `f` after a result, and `Q` where there is none. -/
def andThen (f : α → σ → Prop) (Q : Option (Except E β) → σ → Prop) :
    Option (Except E α) → σ → Prop
  | some (.ok a), s => f a s
  | some (.error e), s => Q (some (.error e)) s
  | none, s => Q none s

/-- All runs of a program that can fail stop with `Q`. -/
def wp (sem : Semantics C P ω σ) (p : P) (Q : Option (Except E α) → σ → Prop)
    (x : Fallible C E α) (s : σ) : Prop :=
  Program.wp sem p Q x.run s

variable {Q Q' : Option (Except E α) → σ → Prop} {x : Fallible C E α} {s : σ}

theorem wp_mono (hQ : ∀ r s, Q r s → Q' r s) (h : wp sem p Q x s) : wp sem p Q' x s :=
  Program.wp_mono hQ h

theorem wp_and (h : wp sem p Q x s) (h' : wp sem p Q' x s) :
    wp sem p (fun r s => Q r s ∧ Q' r s) x s :=
  Program.wp_and h h'

theorem wp_of_forall (h : ∀ r s, Q r s) : wp sem p Q x s := Program.wp_of_forall h

theorem wp_of_uses {I : σ → Prop} {R : {β : Type} → C β → Prop}
    (hI : ∀ {β : Type} (c : C β), R c → ∀ o s b s', I s → sem.exec p o c s = some (b, s') → I s')
    (hx : Uses R x) (hs : I s) : wp sem p (fun _ s => I s) x s :=
  Program.wp_of_uses hI hx hs

@[simp] theorem wp_pure {a : α} :
    wp sem p Q (pure a : Fallible C E α) s ↔ Q (some (.ok a)) s := Iff.rfl

@[simp] theorem wp_throw {e : E} :
    wp sem p Q (throw e : Fallible C E α) s ↔ Q (some (.error e)) s := Iff.rfl

/-- **A sequence stops where its second part does, or where its first part fails or waits.** -/
theorem wp_bind {Q : Option (Except E β) → σ → Prop} {f : α → Fallible C E β} :
    wp sem p Q (x >>= f) s ↔ wp sem p (andThen (fun a => wp sem p Q (f a)) Q) x s := by
  rw [wp, ExceptT.run_bind, Program.wp_bind]
  refine iff_of_eq (congrArg (fun Q => Program.wp sem p Q x.run s) ?_)
  funext r s'
  rcases r with _ | e | a <;> rfl

theorem wp_perform {c : C α} : wp sem p Q (perform c : Fallible C E α) s ↔
    ∀ o, match sem.exec p o c s with
      | some (a, s') => Q (some (.ok a)) s'
      | none => Q none s := by
  rw [wp, perform, ExceptT.run_lift, map_eq_pure_bind, Program.wp_bind, Program.wp_perform]
  rfl

@[simp] theorem wp_ofExcept {f : E' → E} {r : Except E' α} :
    wp sem p Q (ofExcept f r) s ↔ Q (some (r.mapError f)) s := by
  cases r <;> exact Iff.rfl

@[simp] theorem wp_ofOption {e : E} {r : Option α} :
    wp sem p Q (ofOption e r) s ↔ Q (some (r.elim (.error e) .ok)) s := by
  cases r <;> exact Iff.rfl

theorem wp_attempt {f : E' → E} {c : C (Except E' α)} : wp sem p Q (attempt f c) s ↔
    ∀ o, match sem.exec p o c s with
      | some (r, s') => Q (some (r.mapError f)) s'
      | none => Q none s := by
  rw [attempt, wp_bind, wp_perform]
  refine forall_congr' fun o => ?_
  cases sem.exec p o c s with
  | some r => exact wp_ofExcept
  | none => exact Iff.rfl

/-- A call that is not refused, and what follows it. -/
theorem wp_attempt_bind {g : E' → E} {c : C (Except E' α)} {Q : Option (Except E β) → σ → Prop}
    {f : α → Fallible C E β}
    (h : ∀ o, ∃ r s', sem.exec p o c s = some (r, s') ∧ (∀ a, r = .ok a → wp sem p Q (f a) s') ∧
      ∀ e, r = .error e → Q (some (.error (g e))) s') : wp sem p Q (attempt g c >>= f) s := by
  refine wp_bind.2 (wp_attempt.2 fun o => ?_)
  obtain ⟨r, s', hexec, hok, herror⟩ := h o
  rw [hexec]
  cases r with
  | error e => exact herror e rfl
  | ok a => exact hok a rfl

theorem wp_map {Q : Option (Except E β) → σ → Prop} {f : α → β} :
    wp sem p Q (f <$> x) s ↔ wp sem p (fun r => Q (r.map (Except.map f))) x s := by
  rw [map_eq_pure_bind, wp_bind]
  refine iff_of_eq (congrArg (fun Q => wp sem p Q x s) ?_)
  funext r s'
  rcases r with _ | e | a <;> rfl

/-- A bracket waits for its first call, or stops where its body does; its second call is not
refused. -/
theorem wp_bracket {enter leave : C Unit} {undo : σ → σ}
    (hwait : ∀ o, sem.exec p o enter s = none → Q none s)
    (hbody : ∀ o s₁, sem.exec p o enter s = some ((), s₁) →
      wp sem p (fun r s' => Q r (if r.isSome then undo s' else s')) x s₁)
    (hleave : ∀ o s, sem.exec p o leave s = some ((), undo s)) :
    wp sem p Q (bracket enter leave x) s := by
  refine Program.wp_bind.2 (Program.wp_perform.2 fun o => ?_)
  split
  · next s₁ hexec =>
    refine Program.wp_bind.2 (Program.wp_mono (fun r s' hr => ?_) (hbody o s₁ hexec))
    cases r with
    | none => exact hr
    | some r =>
      refine Program.wp_bind.2 (Program.wp_perform.2 fun o' => ?_)
      rw [hleave]
      exact hr
  · next hexec => exact hwait o hexec

end Fallible
end DistributedPrograms
