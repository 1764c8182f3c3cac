import DistributedPrograms.Lib.Interleaving

/-!
# A program that runs alone

`Ends sem p x s a s'` says that the program `x`, run by the thread `p` in the state `s` with nobody
else moving, can end with `a` in the state `s'`.  A program that waits forever ends in no state, so
"it ends with `a` and nothing else" is two statements: that it can end with `a`, and that whatever
it ends with is `a`.

Like `Returns` this splits along `>>=`, so that what a program does is computed along its text.
Every rule is an equivalence, which is what makes it possible to say *exactly* when a request is
answered in a certain way:

* `ends_bind`: a sequence ends where its second part does, or where its first part fails;
* `ends_perform_of`, `ends_attempt_of`, `ends_bind_of_ok` and `ends_bind_of_error` are the forms in
  which it is mostly used, for a step that can only go one way;
* `ends_bracket`: a bracket ends where its body does, between its two calls;
* `ends_mapM`: a list of programs that leave the state as it is, where the results are put together.

`Calls sem p R x s` says that some such run makes a call with the property `R`, whether it then ends
or not.  It is used where a program must be caught in the act, for instance to say that a handler
makes a system call at a certain moment.

`eval` is the run in which all choices are the same.  It is a function, so a run on a concrete state
is evaluated, and `ends_of_eval` makes an `Ends` of the value.
-/

set_option autoImplicit false

namespace DistributedPrograms

variable {C : Type → Type} {P ω σ : Type*} {α β : Type} {sem : Semantics C P ω σ} {p : P}
  {s s' : σ}

namespace Program

/-- Some run of `x` that starts in `s` ends with `a` in `s'`.  The choices `o` of a semantics are
what a run is free to do, so a program of which nothing is left open has one run at most. -/
def Ends (sem : Semantics C P ω σ) (p : P) : Program C α → σ → α → σ → Prop
  | .ret a, s, a', s' => a = a' ∧ s = s'
  | .call c next, s, a', s' =>
    ∃ o b s₁, sem.exec p o c s = some (b, s₁) ∧ (next b).Ends sem p s₁ a' s'

@[simp] theorem ends_pure {a a' : α} :
    Ends sem p (pure a : Program C α) s a' s' ↔ a = a' ∧ s = s' := Iff.rfl

@[simp] theorem ends_perform {c : C α} {a : α} :
    Ends sem p (perform c) s a s' ↔ ∃ o, sem.exec p o c s = some (a, s') := by
  constructor
  · rintro ⟨o, b, s₁, hexec, rfl, rfl⟩
    exact ⟨o, hexec⟩
  · rintro ⟨o, hexec⟩
    exact ⟨o, a, s', hexec, rfl, rfl⟩

/-- **A sequence ends where its second part does.** -/
@[simp] theorem ends_bind {x : Program C α} {f : α → Program C β} {b : β} :
    Ends sem p (x >>= f) s b s' ↔ ∃ a s₁, Ends sem p x s a s₁ ∧ Ends sem p (f a) s₁ b s' := by
  induction x generalizing s with
  | ret a =>
    constructor
    · intro h
      exact ⟨a, s, ⟨rfl, rfl⟩, h⟩
    · rintro ⟨a', s₁, ⟨rfl, rfl⟩, h⟩
      exact h
  | call c next ih =>
    rw [call_bind]
    constructor
    · rintro ⟨o, r, s₁, hexec, h⟩
      obtain ⟨a, s₂, ha, hb⟩ := (ih r).1 h
      exact ⟨a, s₂, ⟨o, r, s₁, hexec, ha⟩, hb⟩
    · rintro ⟨a, s₂, ⟨o, r, s₁, hexec, ha⟩, hb⟩
      exact ⟨o, r, s₁, hexec, (ih r).2 ⟨a, s₂, ha, hb⟩⟩

theorem returns_of_ends {x : Program C α} {a : α} (h : Ends sem p x s a s') : Returns x a := by
  induction x generalizing s with
  | ret a' => exact h.1
  | call c next ih =>
    obtain ⟨o, b, s₁, -, hnext⟩ := h
    exact ⟨b, ih b hnext⟩

/-- Some run of `x` that starts in `s` makes a call with `R`.  The call itself need not be possible
in the state in which it is made. -/
def Calls (sem : Semantics C P ω σ) (p : P) (R : {β : Type} → C β → Prop) :
    Program C α → σ → Prop
  | .ret _, _ => False
  | .call c next, s => R c ∨ ∃ o b s₁, sem.exec p o c s = some (b, s₁) ∧ (next b).Calls sem p R s₁

variable {R : {β : Type} → C β → Prop}

@[simp] theorem not_calls_pure {a : α} : ¬Calls sem p R (pure a : Program C α) s := id

@[simp] theorem calls_perform {c : C α} : Calls sem p R (perform c) s ↔ R c :=
  ⟨fun h => h.elim id fun ⟨_, _, _, _, hnone⟩ => hnone.elim, Or.inl⟩

/-- **A sequence makes the calls of its parts.** -/
theorem calls_bind {x : Program C α} {f : α → Program C β} :
    Calls sem p R (x >>= f) s ↔
      Calls sem p R x s ∨ ∃ a s₁, Ends sem p x s a s₁ ∧ Calls sem p R (f a) s₁ := by
  induction x generalizing s with
  | ret a =>
    refine ⟨fun h => Or.inr ⟨a, s, ⟨rfl, rfl⟩, h⟩, ?_⟩
    rintro (hnone | ⟨a', s₁, ⟨rfl, rfl⟩, h⟩)
    · exact hnone.elim
    · exact h
  | call c next ih =>
    rw [call_bind]
    constructor
    · rintro (hc | ⟨o, b, s₁, hexec, h⟩)
      · exact Or.inl (Or.inl hc)
      · rcases (ih b).1 h with h | ⟨a, s₂, ha, h⟩
        · exact Or.inl (Or.inr ⟨o, b, s₁, hexec, h⟩)
        · exact Or.inr ⟨a, s₂, ⟨o, b, s₁, hexec, ha⟩, h⟩
    · rintro ((hc | ⟨o, b, s₁, hexec, h⟩) | ⟨a, s₂, ⟨o, b, s₁, hexec, ha⟩, h⟩)
      · exact Or.inl hc
      · exact Or.inr ⟨o, b, s₁, hexec, (ih b).2 (Or.inl h)⟩
      · exact Or.inr ⟨o, b, s₁, hexec, (ih b).2 (Or.inr ⟨a, s₂, ha, h⟩)⟩

/-- What follows from every call with `R` follows from one that is made. -/
theorem Calls.elim {S : Prop} {x : Program C α} (h : Calls sem p R x s)
    (hx : Uses (fun c => R c → S) x) : S := by
  induction x generalizing s with
  | ret a => exact h.elim
  | call c next ih =>
    rcases h with hc | ⟨o, b, s₁, -, h⟩
    · exact hx.1 hc
    · exact ih b h (hx.2 b)

/-- What a program ends with, if the choice is always `o`.  It can be computed, for the runs of
examples. -/
def eval (sem : Semantics C P ω σ) (p : P) (o : ω) : Program C α → σ → Option (α × σ)
  | .ret a, s => some (a, s)
  | .call c next, s =>
    match sem.exec p o c s with
    | some (b, s₁) => (next b).eval sem p o s₁
    | none => none

theorem eval_bind {o : ω} {x : Program C α} {f : α → Program C β} :
    (x >>= f).eval sem p o s = (x.eval sem p o s).bind fun r => (f r.1).eval sem p o r.2 := by
  induction x generalizing s with
  | ret a => rfl
  | call c next ih =>
    rw [call_bind, eval, eval]
    split
    · exact ih _
    · rfl

theorem eval_perform {o : ω} {c : C α} :
    (perform c).eval sem p o s = sem.exec p o c s := by
  rw [perform, eval]
  cases sem.exec p o c s <;> rfl

theorem ends_of_eval {o : ω} {x : Program C α} {a : α} (h : x.eval sem p o s = some (a, s')) :
    Ends sem p x s a s' := by
  induction x generalizing s with
  | ret a' =>
    cases h
    exact ⟨rfl, rfl⟩
  | call c next ih =>
    rw [eval] at h
    split at h
    · next b s₁ hexec => exact ⟨o, b, s₁, hexec, ih b h⟩
    · cases h

end Program

namespace Fallible

variable {E E' : Type}

/-- Some run of `x` that starts in `s` ends with the result `r` in `s'`. -/
def Ends (sem : Semantics C P ω σ) (p : P) (x : Fallible C E α) (s : σ) (r : Except E α) (s' : σ) :
    Prop :=
  Program.Ends sem p x.run s r s'

/-- What a program that can fail ends with, if the choice is always `o`. -/
def eval (sem : Semantics C P ω σ) (p : P) (o : ω) (x : Fallible C E α) (s : σ) :
    Option (Except E α × σ) :=
  x.run.eval sem p o s

variable {r : Except E α}

theorem ends_of_eval {o : ω} {x : Fallible C E α} (h : x.eval sem p o s = some (r, s')) :
    Ends sem p x s r s' :=
  Program.ends_of_eval h

theorem eval_bind {o : ω} {x : Fallible C E α} {f : α → Fallible C E β} :
    (x >>= f).eval sem p o s = (x.eval sem p o s).bind fun r =>
      match r.1 with
      | .ok a => (f a).eval sem p o r.2
      | .error e => some (.error e, r.2) := by
  rw [eval, ExceptT.run_bind, Program.eval_bind]
  refine congrArg _ (funext fun ⟨r, s₁⟩ => ?_)
  cases r <;> rfl

theorem eval_perform {o : ω} {c : C α} :
    (perform c : Fallible C E α).eval sem p o s =
      (sem.exec p o c s).map fun r => (.ok r.1, r.2) := by
  rw [eval, perform, ExceptT.run_lift, map_eq_pure_bind, Program.eval_bind, Program.eval_perform,
    Option.map_eq_bind]
  rfl

theorem eval_map {o : ω} {x : Fallible C E α} {f : α → β} :
    (f <$> x).eval sem p o s = (x.eval sem p o s).map fun r => (r.1.map f, r.2) := by
  rw [map_eq_pure_bind, eval_bind, Option.map_eq_bind]
  refine congrArg _ (funext fun ⟨r, s₁⟩ => ?_)
  cases r <;> rfl

@[simp] theorem ends_pure {a : α} :
    Ends sem p (pure a : Fallible C E α) s r s' ↔ .ok a = r ∧ s = s' := Iff.rfl

@[simp] theorem ends_throw {e : E} :
    Ends sem p (throw e : Fallible C E α) s r s' ↔ .error e = r ∧ s = s' := Iff.rfl

@[simp] theorem ends_perform {c : C α} :
    Ends sem p (perform c : Fallible C E α) s r s' ↔
      ∃ o a, sem.exec p o c s = some (a, s') ∧ .ok a = r := by
  rw [Ends, perform, ExceptT.run_lift, map_eq_pure_bind, Program.ends_bind]
  constructor
  · rintro ⟨a, s₁, ha, rfl, rfl⟩
    obtain ⟨o, hexec⟩ := Program.ends_perform.1 ha
    exact ⟨o, a, hexec, rfl⟩
  · rintro ⟨o, a, hexec, rfl⟩
    exact ⟨a, s', Program.ends_perform.2 ⟨o, hexec⟩, rfl, rfl⟩

/-- **A sequence ends where its second part does, or where its first part fails.** -/
theorem ends_bind {x : Fallible C E α} {f : α → Fallible C E β} {r : Except E β} :
    Ends sem p (x >>= f) s r s' ↔
      (∃ a s₁, Ends sem p x s (.ok a) s₁ ∧ Ends sem p (f a) s₁ r s') ∨
      ∃ e, Ends sem p x s (.error e) s' ∧ .error e = r := by
  rw [Ends, ExceptT.run_bind, Program.ends_bind]
  constructor
  · rintro ⟨e | a, s₁, hx, h⟩
    · obtain ⟨rfl, rfl⟩ := Program.ends_pure.1 h
      exact Or.inr ⟨e, hx, rfl⟩
    · exact Or.inl ⟨a, s₁, hx, h⟩
  · rintro (⟨a, s₁, hx, h⟩ | ⟨e, hx, rfl⟩)
    · exact ⟨.ok a, s₁, hx, h⟩
    · exact ⟨.error e, s', hx, rfl, rfl⟩

/-- A call whose answer is known. -/
theorem ends_perform_of [Nonempty ω] {c : C α} {a : α} {s₀ : σ}
    (hc : ∀ o, sem.exec p o c s = some (a, s₀)) :
    Ends sem p (perform c : Fallible C E α) s r s' ↔ r = .ok a ∧ s' = s₀ := by
  rw [ends_perform]
  constructor
  · rintro ⟨o, a', hexec, rfl⟩
    rw [hc] at hexec
    obtain ⟨⟩ := hexec
    exact ⟨rfl, rfl⟩
  · rintro ⟨rfl, rfl⟩
    obtain ⟨o⟩ := ‹Nonempty ω›
    exact ⟨o, a, hc o, rfl⟩

/-- A sequence whose first part can only succeed, in one way. -/
theorem ends_bind_of_ok {x : Fallible C E α} {f : α → Fallible C E β} {r : Except E β} {a : α}
    {s₀ : σ} (hx : ∀ r s₁, Ends sem p x s r s₁ ↔ r = .ok a ∧ s₁ = s₀) :
    Ends sem p (x >>= f) s r s' ↔ Ends sem p (f a) s₀ r s' := by
  simp [ends_bind, hx]

/-- A sequence whose first part can only fail, in one way. -/
theorem ends_bind_of_error {x : Fallible C E α} {f : α → Fallible C E β} {r : Except E β} {e : E}
    {s₀ : σ} (hx : ∀ r s₁, Ends sem p x s r s₁ ↔ r = .error e ∧ s₁ = s₀) :
    Ends sem p (x >>= f) s r s' ↔ r = .error e ∧ s' = s₀ := by
  simp [ends_bind, hx, eq_comm, and_comm]

/-- A sequence succeeds if both parts do. -/
theorem ends_bind_ok {x : Fallible C E α} {f : α → Fallible C E β} {b : β} :
    Ends sem p (x >>= f) s (.ok b) s' ↔
      ∃ a s₁, Ends sem p x s (.ok a) s₁ ∧ Ends sem p (f a) s₁ (.ok b) s' := by
  rw [ends_bind]
  simp

@[simp] theorem ends_ofExcept {f : E' → E} {a : Except E' α} :
    Ends sem p (ofExcept f a : Fallible C E α) s r s' ↔ a.mapError f = r ∧ s = s' := by
  cases a <;> exact Iff.rfl

@[simp] theorem ends_ofOption {e : E} {a : Option α} :
    Ends sem p (ofOption e a : Fallible C E α) s r s' ↔
      a.elim (.error e) .ok = r ∧ s = s' := by
  cases a <;> exact Iff.rfl

@[simp] theorem ends_attempt {f : E' → E} {c : C (Except E' α)} :
    Ends sem p (attempt f c : Fallible C E α) s r s' ↔
      ∃ o a, sem.exec p o c s = some (a, s') ∧ a.mapError f = r := by
  rw [attempt, ends_bind]
  constructor
  · rintro (⟨a, s₁, hperform, hr⟩ | ⟨e, hperform, -⟩)
    · obtain ⟨o, a', hexec, ha⟩ := ends_perform.1 hperform
      cases ha
      obtain ⟨rfl, rfl⟩ := ends_ofExcept.1 hr
      exact ⟨o, a, hexec, rfl⟩
    · obtain ⟨o, a, hexec, ha⟩ := ends_perform.1 hperform
      cases ha
  · rintro ⟨o, a, hexec, rfl⟩
    exact Or.inl ⟨a, s', ends_perform.2 ⟨o, a, hexec, rfl⟩, ends_ofExcept.2 ⟨rfl, rfl⟩⟩

/-- A call that can only be answered in one way. -/
theorem ends_attempt_of [Nonempty ω] {f : E' → E} {c : C (Except E' α)} {a : Except E' α} {s₀ : σ}
    (hc : ∀ o, sem.exec p o c s = some (a, s₀)) :
    Ends sem p (attempt f c : Fallible C E α) s r s' ↔ r = a.mapError f ∧ s' = s₀ := by
  rw [ends_attempt]
  constructor
  · rintro ⟨o, a', hexec, rfl⟩
    rw [hc] at hexec
    obtain ⟨⟩ := hexec
    exact ⟨rfl, rfl⟩
  · rintro ⟨rfl, rfl⟩
    obtain ⟨o⟩ := ‹Nonempty ω›
    exact ⟨o, a, hc o, rfl⟩

/-- A bracket ends where its body does, between its two calls. -/
theorem ends_bracket {enter leave : C Unit} {x : Fallible C E α} :
    Ends sem p (bracket enter leave x) s r s' ↔
      ∃ o s₁ o' s₂, sem.exec p o enter s = some ((), s₁) ∧ Ends sem p x s₁ r s₂ ∧
        sem.exec p o' leave s₂ = some ((), s') := by
  simp only [Ends, bracket, ExceptT.run_mk, Program.ends_bind, Program.ends_perform,
    Program.ends_pure]
  constructor
  · rintro ⟨⟨⟩, s₁, ⟨o, henter⟩, r', s₂, hx, ⟨⟩, s₃, ⟨o', hleave⟩, rfl, rfl⟩
    exact ⟨o, s₁, o', s₂, henter, hx, hleave⟩
  · rintro ⟨o, s₁, o', s₂, henter, hx, hleave⟩
    exact ⟨(), s₁, ⟨o, henter⟩, r, s₂, hx, (), s', ⟨o', hleave⟩, rfl, rfl⟩

@[simp] theorem ends_map {x : Fallible C E α} {f : α → β} {r : Except E β} :
    Ends sem p (f <$> x) s r s' ↔ ∃ r', Ends sem p x s r' s' ∧ r'.map f = r := by
  rw [map_eq_pure_bind, ends_bind]
  constructor
  · rintro (⟨a, s₁, hx, hr⟩ | ⟨e, hx, rfl⟩)
    · obtain ⟨rfl, rfl⟩ := ends_pure.1 hr
      exact ⟨.ok a, hx, rfl⟩
    · exact ⟨.error e, hx, rfl⟩
  · rintro ⟨e | a, hx, rfl⟩
    · exact Or.inr ⟨e, hx, rfl⟩
    · exact Or.inl ⟨a, s', hx, ends_pure.2 ⟨rfl, rfl⟩⟩

/-- What is made of the one result of a program. -/
theorem ends_map_of {x : Fallible C E α} {f : α → β} {r : Except E β} {a : Except E α} {s₀ : σ}
    (hx : ∀ r s₁, Ends sem p x s r s₁ ↔ r = a ∧ s₁ = s₀) :
    Ends sem p (f <$> x) s r s' ↔ r = a.map f ∧ s' = s₀ := by
  rw [ends_map]
  constructor
  · rintro ⟨r', h, rfl⟩
    obtain ⟨rfl, rfl⟩ := (hx r' s').1 h
    exact ⟨rfl, rfl⟩
  · rintro ⟨rfl, rfl⟩
    exact ⟨a, (hx a s').2 ⟨rfl, rfl⟩, rfl⟩

/-- A sequence of programs that leave the state as it is. -/
theorem ends_mapM {f : α → Fallible C E β} {l : List α} {bs : List β}
    (hf : ∀ a ∈ l, ∀ b s₁, Ends sem p (f a) s (.ok b) s₁ → s₁ = s)
    (h : Ends sem p (l.mapM f) s (.ok bs) s') :
    s' = s ∧ List.Forall₂ (fun a b => Ends sem p (f a) s (.ok b) s) l bs := by
  induction l generalizing bs s' with
  | nil =>
    obtain ⟨hbs, rfl⟩ := ends_pure.1 h
    exact ⟨rfl, Except.ok.inj hbs ▸ .nil⟩
  | cons a l ih =>
    rw [List.mapM_cons, ends_bind_ok] at h
    obtain ⟨b, s₁, hb, htail⟩ := h
    obtain rfl := hf a List.mem_cons_self b s₁ hb
    obtain ⟨bs', s₂, hbs', hlast⟩ := ends_bind_ok.1 htail
    obtain ⟨rfl, hall⟩ := ih (fun a' ha' => hf a' (List.mem_cons_of_mem _ ha')) hbs'
    obtain ⟨hcons, rfl⟩ := ends_pure.1 hlast
    exact ⟨rfl, Except.ok.inj hcons ▸ .cons hb hall⟩

/-- Some run of a program that can fail makes a call with `R`. -/
def Calls (sem : Semantics C P ω σ) (p : P) (R : {β : Type} → C β → Prop) (x : Fallible C E α)
    (s : σ) : Prop :=
  Program.Calls sem p R x.run s

variable {R : {β : Type} → C β → Prop}

@[simp] theorem not_calls_pure {a : α} : ¬Calls sem p R (pure a : Fallible C E α) s := id

@[simp] theorem not_calls_throw {e : E} : ¬Calls sem p R (throw e : Fallible C E α) s := id

@[simp] theorem calls_perform {c : C α} :
    Calls sem p R (perform c : Fallible C E α) s ↔ R c := by
  rw [Calls, perform, ExceptT.run_lift, map_eq_pure_bind, Program.calls_bind]
  simp

/-- **A sequence makes the calls of its parts**, the later ones where the first part succeeds. -/
theorem calls_bind {x : Fallible C E α} {f : α → Fallible C E β} :
    Calls sem p R (x >>= f) s ↔
      Calls sem p R x s ∨ ∃ a s₁, Ends sem p x s (.ok a) s₁ ∧ Calls sem p R (f a) s₁ := by
  rw [Calls, ExceptT.run_bind, Program.calls_bind]
  refine or_congr Iff.rfl ⟨?_, ?_⟩
  · rintro ⟨e | a, s₁, hx, h⟩
    · exact (Program.not_calls_pure h).elim
    · exact ⟨a, s₁, hx, h⟩
  · rintro ⟨a, s₁, hx, h⟩
    exact ⟨.ok a, s₁, hx, h⟩

/-- A sequence whose first part makes no such call and can only succeed, in one way. -/
theorem calls_bind_of_ok {x : Fallible C E α} {f : α → Fallible C E β} {a : α} {s₀ : σ}
    (hnot : ¬Calls sem p R x s) (hx : ∀ r s₁, Ends sem p x s r s₁ ↔ r = .ok a ∧ s₁ = s₀) :
    Calls sem p R (x >>= f) s ↔ Calls sem p R (f a) s₀ := by
  simp [calls_bind, hnot, hx]

@[simp] theorem calls_ofExcept {f : E' → E} {a : Except E' α} :
    ¬Calls sem p R (ofExcept f a : Fallible C E α) s := by
  cases a with
  | ok a => exact not_calls_pure
  | error e => exact not_calls_throw

@[simp] theorem calls_ofOption {e : E} {a : Option α} :
    ¬Calls sem p R (ofOption e a : Fallible C E α) s := by
  cases a with
  | some a => exact not_calls_pure
  | none => exact not_calls_throw

@[simp] theorem calls_attempt {f : E' → E} {c : C (Except E' α)} :
    Calls sem p R (attempt f c : Fallible C E α) s ↔ R c := by
  simp [attempt, calls_bind]

theorem Calls.elim {S : Prop} {x : Fallible C E α} (h : Calls sem p R x s)
    (hx : Uses (fun c => R c → S) x) : S :=
  Program.Calls.elim h hx

/-- A bracket whose own calls do not count makes the calls of its body. -/
theorem calls_bracket {enter leave : C Unit} {x : Fallible C E α} (henter : ¬R enter)
    (hleave : ¬R leave) : Calls sem p R (bracket enter leave x) s ↔
      ∃ o s₁, sem.exec p o enter s = some ((), s₁) ∧ Calls sem p R x s₁ := by
  simp only [Calls, bracket, ExceptT.run_mk, Program.calls_bind, Program.calls_perform,
    Program.ends_perform, Program.not_calls_pure, henter, hleave, false_or, and_false, exists_false,
    or_false]
  constructor
  · rintro ⟨⟨⟩, s₁, ⟨o, hexec⟩, h⟩
    exact ⟨o, s₁, hexec, h⟩
  · rintro ⟨o, s₁, hexec, h⟩
    exact ⟨(), s₁, ⟨o, hexec⟩, h⟩

/-- What a program can end with is one of its results. -/
theorem returns_of_ends {x : Fallible C E α} {a : α} (h : Ends sem p x s (.ok a) s') :
    Returns x a :=
  Program.returns_of_ends h

end Fallible
end DistributedPrograms
