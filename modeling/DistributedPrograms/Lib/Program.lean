import Mathlib.Control.Basic
import Mathlib.Data.List.Forall2

/-!
# Programs over typed calls

A `Program C α` is a computation that makes calls of a signature `C` and ends with an `α`: a `C β`
is one call, with an answer in `β` that nothing here constrains.  The signature is a parameter, so
the same rules serve every component whose effects are calls to something outside. A program is a
tree, with a branch for every possible answer.  What the calls mean is given later and more than
once: by arbitrary answers, by a shared state in which several programs move, or by a model of an
operating system.

What can be said of a program without any meaning for its calls:

* `Uses P x`: every call of every run of `x` satisfies `P`, whatever the answers were.  This is the
  form of "this handler never touches anything outside".
* `Returns x a`: some run of `x` ends in `a`.
* `ReturnsBy Got x a`: the same for fewer runs, those whose answers are all as `Got` says.  It is
  what ties a result to the answers it was made from.

All three split along `>>=`, and exactly so (`uses_bind`, `returns_bind`, `returnsBy_bind`): a
sequence uses what its parts use, where the second part counts from every value that the first can
return.  So they are computed along the text of a program, and for a concrete program `simp` does
it.

`Fallible` adds failure.  A program that can fail stops at the first failure, and `bracket` is the
one construct that goes on: it runs a body between two calls, the second of which is made also where
the body fails.  The predicates have the same names and the same rules there; the second part of a
sequence counts only from the values with which the first can *succeed*.
-/

set_option autoImplicit false

namespace DistributedPrograms

/-- A computation that makes calls of the signature `C`.  What a call is answered is not part of it,
so a program is a tree with a branch for each answer. -/
inductive Program (C : Type → Type) (α : Type) : Type 1 where
  /-- end with `a` -/
  | ret (a : α)
  /-- make the call `c` and go on with its answer -/
  | call {β : Type} (c : C β) (next : β → Program C α)

namespace Program

variable {C : Type → Type} {α β γ : Type}

protected def bind (x : Program C α) (f : α → Program C β) : Program C β :=
  match x with
  | .ret a => f a
  | .call c next => .call c fun b => (next b).bind f

instance : Monad (Program C) where
  pure := .ret
  bind := Program.bind

/-- The program that makes one call and ends with its answer. -/
def perform (c : C α) : Program C α := .call c .ret

@[simp] theorem ret_bind (a : α) (f : α → Program C β) : Program.ret a >>= f = f a := rfl

@[simp] theorem call_bind (c : C γ) (next : γ → Program C α) (f : α → Program C β) :
    Program.call c next >>= f = .call c fun b => next b >>= f := rfl

theorem bind_ret (x : Program C α) : x >>= Program.ret = x := by
  induction x with
  | ret a => rfl
  | call c next ih =>
    rw [call_bind]
    congr 1
    funext b
    exact ih b

theorem bind_assoc (x : Program C α) (f : α → Program C β) (g : β → Program C γ) :
    x >>= f >>= g = x >>= fun a => f a >>= g := by
  induction x with
  | ret a => rfl
  | call c next ih =>
    rw [call_bind, call_bind, call_bind]
    congr 1
    funext b
    exact ih b

instance : LawfulMonad (Program C) :=
  LawfulMonad.mk' (Program C) bind_ret (fun _ _ => rfl) bind_assoc

/-! ## What a program calls and returns

The predicates are defined by recursion on the tree, and their rules at `>>=` are equivalences.  A
rule in one direction would be enough for most uses; the exact one is what a statement "exactly the
requests that …" needs. -/

/-- Every call of every run satisfies `P`.  All answers count, also those that no system would
give. -/
def Uses (P : {β : Type} → C β → Prop) : Program C α → Prop
  | .ret _ => True
  | .call c next => P c ∧ ∀ b, (next b).Uses P

/-- Some run ends in `a`. -/
def Returns : Program C α → α → Prop
  | .ret a', a => a' = a
  | .call _ next, a => ∃ b, (next b).Returns a

/-- Some run ends in `a` in which every call is answered as `Got` says.  With a log of calls and
answers for `Got`, this is what the log has to say about the result. -/
def ReturnsBy (Got : {β : Type} → C β → β → Prop) : Program C α → α → Prop
  | .ret a', a => a' = a
  | .call c next, a => ∃ b, Got c b ∧ (next b).ReturnsBy Got a

variable {P Q : {β : Type} → C β → Prop} {Got : {β : Type} → C β → β → Prop}

@[simp] theorem uses_pure (a : α) : Uses P (pure a : Program C α) := trivial

@[simp] theorem uses_perform {c : C α} : Uses P (perform c : Program C α) ↔ P c := by
  simp [perform, Uses]

@[simp] theorem returns_pure {a a' : α} : Returns (pure a : Program C α) a' ↔ a = a' := Iff.rfl

@[simp] theorem returns_perform (c : C α) (a : α) : Returns (perform c) a := ⟨a, rfl⟩

/-- **A sequence uses what its parts use.**  The second part counts from every value the first
can return. -/
theorem uses_bind {x : Program C α} {f : α → Program C β} :
    Uses P (x >>= f) ↔ Uses P x ∧ ∀ a, Returns x a → Uses P (f a) := by
  induction x with
  | ret a => exact ⟨fun h => ⟨trivial, fun _ ha => ha ▸ h⟩, fun h => h.2 a rfl⟩
  | call c next ih =>
    rw [call_bind]
    constructor
    · rintro ⟨hc, hnext⟩
      refine ⟨⟨hc, fun b => ((ih b).1 (hnext b)).1⟩, ?_⟩
      rintro a ⟨b, hb⟩
      exact ((ih b).1 (hnext b)).2 a hb
    · rintro ⟨⟨hc, hnext⟩, hf⟩
      exact ⟨hc, fun b => (ih b).2 ⟨hnext b, fun a ha => hf a ⟨b, ha⟩⟩⟩

@[simp] theorem uses_map {x : Program C α} {f : α → β} : Uses P (f <$> x) ↔ Uses P x := by
  rw [map_eq_pure_bind, uses_bind]
  simp

theorem returns_bind {x : Program C α} {f : α → Program C β} {b : β} :
    Returns (x >>= f) b ↔ ∃ a, Returns x a ∧ Returns (f a) b := by
  induction x with
  | ret a => exact ⟨fun h => ⟨a, rfl, h⟩, fun ⟨_, ha, h⟩ => ha ▸ h⟩
  | call c next ih =>
    rw [call_bind]
    constructor
    · rintro ⟨r, hr⟩
      obtain ⟨a, ha, hb⟩ := (ih r).1 hr
      exact ⟨a, ⟨r, ha⟩, hb⟩
    · rintro ⟨a, ⟨r, hr⟩, hb⟩
      exact ⟨r, (ih r).2 ⟨a, hr, hb⟩⟩

theorem returnsBy_bind {x : Program C α} {f : α → Program C β} {b : β} :
    ReturnsBy Got (x >>= f) b ↔ ∃ a, ReturnsBy Got x a ∧ ReturnsBy Got (f a) b := by
  induction x with
  | ret a => exact ⟨fun h => ⟨a, rfl, h⟩, fun ⟨_, ha, h⟩ => ha ▸ h⟩
  | call c next ih =>
    rw [call_bind]
    constructor
    · rintro ⟨r, hgot, hr⟩
      obtain ⟨a, ha, hb⟩ := (ih r).1 hr
      exact ⟨a, ⟨r, hgot, ha⟩, hb⟩
    · rintro ⟨a, ⟨r, hgot, hr⟩, hb⟩
      exact ⟨r, hgot, (ih r).2 ⟨a, hr, hb⟩⟩

theorem returnsBy_perform {c : C α} {a : α} : ReturnsBy Got (perform c) a ↔ Got c a := by
  constructor
  · rintro ⟨b, hgot, rfl⟩
    exact hgot
  · exact fun hgot => ⟨a, hgot, rfl⟩

theorem Uses.mono {x : Program C α} (h : Uses P x)
    (hPQ : ∀ {β : Type} (c : C β), P c → Q c) : Uses Q x := by
  induction x with
  | ret a => trivial
  | call c next ih => exact ⟨hPQ c h.1, fun b => ih b (h.2 b)⟩

theorem Uses.and {x : Program C α} (h : Uses P x) (h' : Uses Q x) :
    Uses (fun c => P c ∧ Q c) x := by
  induction x with
  | ret a => trivial
  | call c next ih => exact ⟨⟨h.1, h'.1⟩, fun b => ih b (h.2 b) (h'.2 b)⟩

end Program

/-! ## Programs that can fail

The steps of such a program are an attempt at a call that may be answered by an error, a result or
an option that is taken apart, and a bracket.  Each has its rule for each of the predicates. -/

/-- A program that ends with an `α` or with a failure of type `E`.  The calls that it has made
before it fails count like all others. -/
abbrev Fallible (C : Type → Type) (E : Type) : Type → Type 1 := ExceptT E (Program C)

namespace Fallible

variable {C : Type → Type} {E E' α β : Type}

/-- One call, its answer taken as it is. -/
def perform (c : C α) : Fallible C E α := ExceptT.lift (Program.perform c)

/-- Goes on with a result, or fails with its translated error. -/
def ofExcept (f : E' → E) : Except E' α → Fallible C E α
  | .ok a => pure a
  | .error e => throw (f e)

/-- Goes on with a value, or fails. -/
def ofOption (e : E) : Option α → Fallible C E α
  | some a => pure a
  | none => throw e

/-- One call that may be answered by an error. -/
def attempt (f : E' → E) (c : C (Except E' α)) : Fallible C E α := perform c >>= ofExcept f

/-- Runs `x` between two calls; the second is made also where `x` fails.  This is how a guard that
is dropped at the end of its scope is modelled. -/
def bracket (enter leave : C Unit) (x : Fallible C E α) : Fallible C E α :=
  ExceptT.mk do
    Program.perform enter
    let r ← x.run
    Program.perform leave
    pure r

/-- Every call of every run satisfies `P`. -/
def Uses (P : {β : Type} → C β → Prop) (x : Fallible C E α) : Prop := Program.Uses P x.run

/-- Some run succeeds with `a`. -/
def Returns (x : Fallible C E α) (a : α) : Prop := Program.Returns x.run (.ok a)

/-- Some run succeeds with `a` in which every call is answered as `Got` says. -/
def ReturnsBy (Got : {β : Type} → C β → β → Prop) (x : Fallible C E α) (a : α) : Prop :=
  Program.ReturnsBy Got x.run (.ok a)

variable {P Q : {β : Type} → C β → Prop} {Got : {β : Type} → C β → β → Prop}

theorem Uses.mono {x : Fallible C E α} (h : Uses P x)
    (hPQ : ∀ {β : Type} (c : C β), P c → Q c) : Uses Q x :=
  Program.Uses.mono h hPQ

theorem Uses.and {x : Fallible C E α} (h : Uses P x) (h' : Uses Q x) :
    Uses (fun c => P c ∧ Q c) x :=
  Program.Uses.and h h'

@[simp] theorem uses_pure (a : α) : Uses P (pure a : Fallible C E α) := trivial

@[simp] theorem uses_throw (e : E) : Uses P (throw e : Fallible C E α) := trivial

@[simp] theorem returns_pure {a a' : α} : Returns (pure a : Fallible C E α) a' ↔ a = a' := by
  show Program.Returns (pure (Except.ok a)) (Except.ok a') ↔ _
  rw [Program.returns_pure, Except.ok.injEq]

@[simp] theorem not_returns_throw (e : E) (a : α) : ¬Returns (throw e : Fallible C E α) a := by
  intro h
  cases h

@[simp] theorem uses_perform {c : C α} : Uses P (perform c : Fallible C E α) ↔ P c := by
  unfold Uses perform
  rw [ExceptT.run_lift, Program.uses_map, Program.uses_perform]

@[simp] theorem returns_perform (c : C α) (a : α) : Returns (perform c : Fallible C E α) a :=
  ⟨a, rfl⟩

/-- **A sequence uses what its parts use.**  The second part counts from every value with which
the first can succeed. -/
@[simp] theorem uses_bind {x : Fallible C E α} {f : α → Fallible C E β} :
    Uses P (x >>= f) ↔ Uses P x ∧ ∀ a, Returns x a → Uses P (f a) := by
  unfold Uses Returns
  rw [ExceptT.run_bind, Program.uses_bind]
  constructor
  · rintro ⟨hx, hf⟩
    exact ⟨hx, fun a ha => hf (.ok a) ha⟩
  · rintro ⟨hx, hf⟩
    refine ⟨hx, ?_⟩
    rintro (e | a) hr
    · trivial
    · exact hf a hr

@[simp] theorem returns_bind {x : Fallible C E α} {f : α → Fallible C E β} {b : β} :
    Returns (x >>= f) b ↔ ∃ a, Returns x a ∧ Returns (f a) b := by
  unfold Returns
  rw [ExceptT.run_bind, Program.returns_bind]
  constructor
  · rintro ⟨e | a, hr, hb⟩
    · cases hb
    · exact ⟨a, hr, hb⟩
  · rintro ⟨a, ha, hb⟩
    exact ⟨.ok a, ha, hb⟩

@[simp] theorem uses_map {x : Fallible C E α} {f : α → β} : Uses P (f <$> x) ↔ Uses P x := by
  rw [map_eq_pure_bind, uses_bind]
  simp

@[simp] theorem uses_ofExcept (f : E' → E) (r : Except E' α) :
    Uses P (ofExcept f r : Fallible C E α) := by
  cases r with
  | ok a => exact uses_pure a
  | error e => exact uses_throw (f e)

@[simp] theorem returns_ofExcept {f : E' → E} {r : Except E' α} {a : α} :
    Returns (ofExcept f r : Fallible C E α) a ↔ r = .ok a := by
  cases r with
  | ok a' => simp [ofExcept]
  | error e => simp [ofExcept]

@[simp] theorem uses_ofOption (e : E) (r : Option α) :
    Uses P (ofOption e r : Fallible C E α) := by
  cases r with
  | some a => exact uses_pure a
  | none => exact uses_throw e

@[simp] theorem returns_ofOption {e : E} {r : Option α} {a : α} :
    Returns (ofOption e r : Fallible C E α) a ↔ r = some a := by
  cases r with
  | some a' => simp [ofOption]
  | none => simp [ofOption]

@[simp] theorem uses_attempt {f : E' → E} {c : C (Except E' α)} :
    Uses P (attempt f c : Fallible C E α) ↔ P c := by
  simp [attempt]

@[simp] theorem returns_attempt {f : E' → E} {c : C (Except E' α)} {a : α} :
    Returns (attempt f c : Fallible C E α) a := by
  simp [attempt]

/-- A bracket whose own calls are allowed uses what its body uses. -/
theorem uses_bracket {enter leave : C Unit} {x : Fallible C E α} (henter : P enter)
    (hleave : P leave) : Uses P (bracket enter leave x : Fallible C E α) ↔ Uses P x := by
  unfold Uses bracket
  simp [Program.uses_bind, henter, hleave]

@[simp] theorem returnsBy_pure {a a' : α} :
    ReturnsBy Got (pure a : Fallible C E α) a' ↔ a = a' := by
  show Except.ok a = Except.ok a' ↔ _
  rw [Except.ok.injEq]

@[simp] theorem not_returnsBy_throw (e : E) (a : α) :
    ¬ReturnsBy Got (throw e : Fallible C E α) a := by
  intro h
  cases h

@[simp] theorem returnsBy_bind {x : Fallible C E α} {f : α → Fallible C E β} {b : β} :
    ReturnsBy Got (x >>= f) b ↔ ∃ a, ReturnsBy Got x a ∧ ReturnsBy Got (f a) b := by
  unfold ReturnsBy
  rw [ExceptT.run_bind, Program.returnsBy_bind]
  constructor
  · rintro ⟨e | a, hr, hb⟩
    · cases hb
    · exact ⟨a, hr, hb⟩
  · rintro ⟨a, ha, hb⟩
    exact ⟨.ok a, ha, hb⟩

@[simp] theorem returnsBy_perform {c : C α} {a : α} :
    ReturnsBy Got (perform c : Fallible C E α) a ↔ Got c a := by
  unfold ReturnsBy perform
  rw [ExceptT.run_lift, map_eq_pure_bind, Program.returnsBy_bind]
  constructor
  · rintro ⟨b, hb, heq⟩
    obtain rfl := Except.ok.inj heq
    exact Program.returnsBy_perform.1 hb
  · exact fun hgot => ⟨a, Program.returnsBy_perform.2 hgot, rfl⟩

@[simp] theorem returnsBy_map {x : Fallible C E α} {f : α → β} {b : β} :
    ReturnsBy Got (f <$> x) b ↔ ∃ a, ReturnsBy Got x a ∧ f a = b := by
  rw [map_eq_pure_bind, returnsBy_bind]
  simp only [returnsBy_pure]

@[simp] theorem returnsBy_attempt {f : E' → E} {c : C (Except E' α)} {a : α} :
    ReturnsBy Got (attempt f c : Fallible C E α) a ↔ Got c (.ok a) := by
  rw [attempt, returnsBy_bind]
  simp only [returnsBy_perform]
  constructor
  · rintro ⟨r, hgot, hr⟩
    cases r with
    | error e => exact absurd hr (not_returnsBy_throw (f e) a)
    | ok a' => exact returnsBy_pure.1 hr ▸ hgot
  · exact fun hgot => ⟨.ok a, hgot, returnsBy_pure.2 rfl⟩

theorem returnsBy_of_bracket {enter leave : C Unit} {x : Fallible C E α} {a : α}
    (h : ReturnsBy Got (bracket enter leave x) a) : ReturnsBy Got x a := by
  obtain ⟨-, -, h⟩ := Program.returnsBy_bind.1 h
  obtain ⟨r, hr, h⟩ := Program.returnsBy_bind.1 h
  obtain ⟨-, -, heq⟩ := Program.returnsBy_bind.1 h
  obtain rfl : r = .ok a := heq
  exact hr

theorem uses_mapM {f : α → Fallible C E β} {l : List α} (h : ∀ a ∈ l, Uses P (f a)) :
    Uses P (l.mapM f) := by
  induction l with
  | nil => simp
  | cons a l ih =>
    rw [List.mapM_cons, uses_bind]
    refine ⟨h a List.mem_cons_self, fun b _ => ?_⟩
    rw [uses_bind]
    exact ⟨ih fun a' ha' => h a' (List.mem_cons_of_mem _ ha'), fun _ _ => uses_pure _⟩

theorem returns_mapM {f : α → Fallible C E β} {l : List α} {bs : List β}
    (h : Returns (l.mapM f) bs) : List.Forall₂ (fun a b => Returns (f a) b) l bs := by
  induction l generalizing bs with
  | nil =>
    rw [List.mapM_nil, returns_pure] at h
    exact h ▸ .nil
  | cons a l ih =>
    rw [List.mapM_cons, returns_bind] at h
    obtain ⟨b, hb, h⟩ := h
    rw [returns_bind] at h
    obtain ⟨bs', hbs', h⟩ := h
    rw [returns_pure] at h
    exact h ▸ .cons hb (ih hbs')

end Fallible
end DistributedPrograms
