import DistributedPrograms.Lib.Interleaving
import DistributedPrograms.Lib.Run

/-!
# Protocols of calls

What a thread may call can depend on what it was answered before: a number may be used once it has
been given out, a table entry removed by the one who put it.  A `Protocol` says which calls a
program may make in a state of its own, and where an answer leads.

`Follows pr Q x g` says that `x`, started in `g`, makes no call that is not allowed, whatever the
answers are, and ends as `Q` says; it splits along `>>=` (`follows_bind`), so it is checked along
the text of a program, without any other thread in sight.  Two rules cover the parts of a program
that have nothing to do with the protocol: `follows_of_allows`, and `follows_of_uses` for calls that
lead nowhere.

`Trace` is a run of threads with the log of all calls, latest first, each with the thread that made
it and its answer.  Every run of the threads is a trace (`Trace.exists_of_run`).  On traces:

* `Trace.invariant`: where every thread follows its protocol, an invariant of the states of the
  threads, the shared state and the log needs to survive allowed calls only.  This is where the
  local view of each program and the common view of all of them meet.
* `Trace.returnsBy`: what a thread returns it returns by the answers that stand in the log under its
  name, so a result can be traced to calls that were really made.
* `Threads.forall_shared`: an invariant of the shared state alone, for threads that make no other
  calls than those that keep it.
-/

set_option autoImplicit false

namespace DistributedPrograms

/-- What a program may call, and what an answer makes of its state.  The state `G` is a ghost: it is
what an observer of the calls knows about the program. -/
structure Protocol (C : Type → Type) (G : Type*) where
  allows : {β : Type} → G → C β → Prop
  next : {β : Type} → G → C β → β → G

variable {C : Type → Type} {G : Type*} {α β : Type} {pr : Protocol C G}

namespace Program

/-- All calls of `x` are allowed, and where it ends, `Q` holds.  It is checked for the program
alone, before anything is said about others. -/
def Follows (pr : Protocol C G) (Q : α → G → Prop) : Program C α → G → Prop
  | .ret a, g => Q a g
  | .call c next, g => pr.allows g c ∧ ∀ b, (next b).Follows pr Q (pr.next g c b)

variable {Q Q' : α → G → Prop} {x : Program C α} {g : G}

theorem follows_mono (hQ : ∀ a g, Q a g → Q' a g) (h : Follows pr Q x g) : Follows pr Q' x g := by
  induction x generalizing g with
  | ret a => exact hQ a g h
  | call c next ih => exact ⟨h.1, fun b => ih b (h.2 b)⟩

/-- **A sequence follows the protocol if its parts do.** -/
theorem follows_bind {Q : β → G → Prop} {f : α → Program C β} :
    Follows pr Q (x >>= f) g ↔ Follows pr (fun a => Follows pr Q (f a)) x g := by
  induction x generalizing g with
  | ret a => exact Iff.rfl
  | call c next ih =>
    rw [call_bind]
    exact and_congr_right fun _ => forall_congr' fun b => ih b

theorem follows_perform {c : C α} :
    Follows pr Q (perform c) g ↔ pr.allows g c ∧ ∀ a, Q a (pr.next g c a) := Iff.rfl

/-- A program whose calls are always allowed. -/
theorem follows_of_allows (hx : Uses (fun c => ∀ g, pr.allows g c) x)
    (hQ : ∀ a, Returns x a → ∀ g, Q a g) : Follows pr Q x g := by
  induction x generalizing g with
  | ret a => exact hQ a rfl g
  | call c next ih => exact ⟨hx.1 g, fun b => ih b (hx.2 b) fun a ha => hQ a ⟨b, ha⟩⟩

/-- A program whose calls are allowed and lead nowhere. -/
theorem follows_of_uses {R : {β : Type} → C β → Prop}
    (hR : ∀ {β : Type} (c : C β), R c → pr.allows g c ∧ ∀ b, pr.next g c b = g) (hx : Uses R x)
    (hQ : ∀ a, Q a g) : Follows pr Q x g := by
  induction x with
  | ret a => exact hQ a
  | call c next ih =>
    obtain ⟨hallows, hnext⟩ := hR c hx.1
    exact ⟨hallows, fun b => (hnext b).symm ▸ ih b (hx.2 b)⟩

end Program

namespace Fallible

variable {E E' : Type}

/-- All calls of `x` are allowed, and where it ends, `Q` holds. -/
def Follows (pr : Protocol C G) (Q : Except E α → G → Prop) (x : Fallible C E α) (g : G) : Prop :=
  Program.Follows pr Q x.run g

/-- `f` after a result, and `Q` after a failure. -/
def orFails (f : α → G → Prop) (Q : Except E β → G → Prop) : Except E α → G → Prop
  | .ok a, g => f a g
  | .error e, g => Q (.error e) g

variable {Q Q' : Except E α → G → Prop} {x : Fallible C E α} {g : G}

theorem follows_mono (hQ : ∀ r g, Q r g → Q' r g) (h : Follows pr Q x g) : Follows pr Q' x g :=
  Program.follows_mono hQ h

theorem follows_of_allows (hx : Uses (fun c => ∀ g, pr.allows g c) x)
    (hok : ∀ a, Returns x a → ∀ g, Q (.ok a) g) (herror : ∀ e g, Q (.error e) g) :
    Follows pr Q x g := by
  refine Program.follows_of_allows hx fun r hr => ?_
  cases r with
  | error e => exact herror e
  | ok a => exact hok a hr

theorem follows_of_uses {R : {β : Type} → C β → Prop}
    (hR : ∀ {β : Type} (c : C β), R c → pr.allows g c ∧ ∀ b, pr.next g c b = g) (hx : Uses R x)
    (hQ : ∀ r, Q r g) : Follows pr Q x g :=
  Program.follows_of_uses hR hx hQ

@[simp] theorem follows_pure {a : α} :
    Follows pr Q (pure a : Fallible C E α) g ↔ Q (.ok a) g := Iff.rfl

@[simp] theorem follows_throw {e : E} :
    Follows pr Q (throw e : Fallible C E α) g ↔ Q (.error e) g := Iff.rfl

/-- **A sequence follows the protocol if its parts do.** -/
theorem follows_bind {Q : Except E β → G → Prop} {f : α → Fallible C E β} :
    Follows pr Q (x >>= f) g ↔ Follows pr (orFails (fun a => Follows pr Q (f a)) Q) x g := by
  rw [Follows, ExceptT.run_bind, Program.follows_bind]
  refine iff_of_eq (congrArg (fun Q => Program.Follows pr Q x.run g) ?_)
  funext r g'
  cases r <;> rfl

theorem follows_perform {c : C α} :
    Follows pr Q (perform c : Fallible C E α) g ↔
      pr.allows g c ∧ ∀ a, Q (.ok a) (pr.next g c a) := by
  rw [Follows, perform, ExceptT.run_lift, map_eq_pure_bind, Program.follows_bind,
    Program.follows_perform]
  rfl

@[simp] theorem follows_ofOption {e : E} {r : Option α} :
    Follows pr Q (ofOption e r) g ↔ Q (r.elim (.error e) .ok) g := by
  cases r <;> exact Iff.rfl

theorem follows_attempt {f : E' → E} {c : C (Except E' α)} :
    Follows pr Q (attempt f c) g ↔
      pr.allows g c ∧ ∀ r : Except E' α, Q (r.mapError f) (pr.next g c r) := by
  rw [attempt, follows_bind, follows_perform]
  refine and_congr_right fun _ => forall_congr' fun r => ?_
  cases r <;> exact Iff.rfl

theorem follows_map {Q : Except E β → G → Prop} {f : α → β} :
    Follows pr Q (f <$> x) g ↔ Follows pr (fun r => Q (r.map f)) x g := by
  rw [map_eq_pure_bind, follows_bind]
  refine iff_of_eq (congrArg (fun Q => Follows pr Q x g) ?_)
  funext r g'
  cases r <;> rfl

/-- A bracket whose own calls are always allowed and lead nowhere. -/
theorem follows_bracket {enter leave : C Unit}
    (henter : ∀ g, pr.allows g enter ∧ pr.next g enter () = g)
    (hleave : ∀ g, pr.allows g leave ∧ pr.next g leave () = g) (hx : Follows pr Q x g) :
    Follows pr Q (bracket enter leave x) g := by
  refine Program.follows_bind.2 (Program.follows_perform.2 ⟨(henter g).1, fun _ => ?_⟩)
  rw [(henter g).2]
  refine Program.follows_bind.2 (Program.follows_mono (fun r g' hr => ?_) hx)
  refine Program.follows_bind.2 (Program.follows_perform.2 ⟨(hleave g').1, fun _ => ?_⟩)
  rw [(hleave g').2]
  exact hr

end Fallible

/-! ## Traces

The log is the only record of the past.  A statement about what has happened to some entry of a
table is a statement about it, and needs no state of its own. -/

/-- A call that a thread has made, and what it was answered.  The order of the events is that of the
log they are in. -/
structure Event (C : Type → Type) (P : Type*) where
  thread : P
  {result : Type}
  call : C result
  answer : result

variable {P ω σ : Type*} [DecidableEq P] {sem : Semantics C P ω σ} {t₀ t : Threads C P σ α}
  {log : List (Event C P)}

/-- The threads come from `t₀` to `t` by the calls in the log, the latest first.  Calls that wait
are not in it. -/
inductive Trace (sem : Semantics C P ω σ) (t₀ : Threads C P σ α) :
    Threads C P σ α → List (Event C P) → Prop
  | start : Trace sem t₀ t₀ []
  | step {t : Threads C P σ α} {log : List (Event C P)} {p : P} {o : ω} {β : Type} {c : C β}
      {next : β → Program C α} {b : β} {s : σ} (h : Trace sem t₀ t log)
      (hleft : t.left p = .call c next) (hexec : sem.exec p o c t.shared = some (b, s)) :
      Trace sem t₀ ⟨Function.update t.left p (next b), s⟩ (⟨p, c, b⟩ :: log)

/-- Every step of the threads is a call in the log. -/
theorem Trace.of_step {t' : Threads C P σ α} {a : P × ω} (h : Trace sem t₀ t log)
    (hs : t.step sem a = some t') : ∃ e, e.thread = a.1 ∧ Trace sem t₀ t' (e :: log) := by
  obtain ⟨β, c, next, b, s, hleft, hexec, rfl⟩ := Threads.step_cases hs
  exact ⟨⟨a.1, c, b⟩, rfl, h.step hleft hexec⟩

/-- Every run is a trace. -/
theorem Trace.exists_of_run {D : List (Threads C P σ α) → P × ω → Prop}
    {tr : List (Threads C P σ α)} (h : Run (Threads.step sem) D t₀ (t :: tr)) :
    ∃ log, log.length = tr.length ∧ Trace sem t₀ t log := by
  refine Run.head_induction
    (P := fun t tr => ∃ log : List (Event C P), log.length = tr.length ∧ Trace sem t₀ t log)
    ⟨[], rfl, .start⟩ (fun t tr a t' _ _ hs ih => ?_) h
  obtain ⟨log, hlength, htrace⟩ := ih
  obtain ⟨e, -, htrace'⟩ := htrace.of_step hs
  exact ⟨e :: log, by simp [hlength], htrace'⟩

/-- **What a thread returns it returns by the answers in the log.** -/
theorem Trace.returnsBy {p : P} {a : α} (h : Trace sem t₀ t log) (hp : t.left p = .ret a) :
    (t₀.left p).ReturnsBy (fun c b => ⟨p, c, b⟩ ∈ log) a := by
  -- of any moment on the way: the rest of the thread returns `a` by the answers of the whole log
  have hrest : ∀ {all : List (Event C P)}, log ⊆ all →
      (t.left p).ReturnsBy (fun c b => ⟨p, c, b⟩ ∈ all) a →
      (t₀.left p).ReturnsBy (fun c b => ⟨p, c, b⟩ ∈ all) a := by
    clear hp
    induction h with
    | start => exact fun _ hret => hret
    | @step t log q o β c next b s _ hleft _ ih =>
      intro all hsub hret
      obtain ⟨hmem, hlog⟩ := List.cons_subset.1 hsub
      refine ih hlog ?_
      by_cases hpq : p = q
      · subst hpq
        rw [hleft]
        exact ⟨b, hmem, by simpa using hret⟩
      · simpa [Function.update_of_ne hpq] using hret
  exact hrest (List.Subset.refl log) (by rw [hp]; exact rfl)

/-- **Invariants of threads that follow a protocol.**  An invariant may speak of where each thread
stands in its protocol, of the shared state and of the log; at each step one has to look at a call
that is allowed only, whatever program makes it. -/
theorem Trace.invariant {pr : P → Protocol C G} {Q : P → α → G → Prop}
    {I : (P → G) → σ → List (Event C P) → Prop} {g₀ : P → G}
    (hfollows : ∀ p, (t₀.left p).Follows (pr p) (Q p) (g₀ p)) (hinit : I g₀ t₀.shared [])
    (hstep : ∀ (g : P → G) (s : σ) (log : List (Event C P)) (p : P) (o : ω) {β : Type} (c : C β)
      (b : β) (s' : σ), I g s log → (pr p).allows (g p) c → sem.exec p o c s = some (b, s') →
      I (Function.update g p ((pr p).next (g p) c b)) s' (⟨p, c, b⟩ :: log))
    (h : Trace sem t₀ t log) :
    ∃ g, (∀ p, (t.left p).Follows (pr p) (Q p) (g p)) ∧ I g t.shared log := by
  induction h with
  | start => exact ⟨g₀, hfollows, hinit⟩
  | @step t log p o β c next b s _ hleft hexec ih =>
    obtain ⟨g, hfollows, hI⟩ := ih
    have hp := hfollows p
    rw [hleft] at hp
    refine ⟨_, fun q => ?_, hstep g _ log p o c b s hI hp.1 hexec⟩
    show (Function.update t.left p (next b) q).Follows (pr q) (Q q) (Function.update g p _ q)
    by_cases hq : q = p
    · subst hq
      rw [Function.update_self, Function.update_self]
      exact hp.2 b
    · rw [Function.update_of_ne hq, Function.update_of_ne hq]
      exact hfollows q

/-- **An invariant of the shared state**, for threads that make no other calls than those that keep
it. -/
theorem Threads.forall_shared {R : {β : Type} → C β → Prop} {I : σ → Prop}
    {D : List (Threads C P σ α) → P × ω → Prop} {tr : List (Threads C P σ α)}
    (huses : ∀ p, Program.Uses R (t₀.left p)) (hinit : I t₀.shared)
    (hstep : ∀ {β : Type} (p : P) (o : ω) (c : C β) (b : β) (s s' : σ), R c → I s →
      sem.exec p o c s = some (b, s') → I s')
    (hrun : Run (Threads.step sem) D t₀ tr) : ∀ t ∈ tr, I t.shared := by
  have hall : ∀ t ∈ tr, (∀ p, Program.Uses R (t.left p)) ∧ I t.shared := by
    refine hrun.forall_mem ⟨huses, hinit⟩ fun t tr a t' _ _ ih hs => ?_
    obtain ⟨β, c, next, b, s, hleft, hexec, rfl⟩ := Threads.step_cases hs
    have hcall := ih.1 a.1
    rw [hleft] at hcall
    refine ⟨fun q => ?_, hstep a.1 a.2 c b _ s hcall.1 ih.2 hexec⟩
    by_cases hq : q = a.1
    · subst hq
      simp only [Function.update_self]
      exact hcall.2 b
    · simp only [Function.update_of_ne hq]
      exact ih.1 q
  exact fun t ht => (hall t ht).2

end DistributedPrograms
