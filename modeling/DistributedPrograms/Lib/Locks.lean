import Mathlib.Logic.Relation
import DistributedPrograms.Lib.Interleaving
import DistributedPrograms.Lib.Run

/-!
# Threads that take locks in order

Programs that take locks in one common order never wait for each other in a circle.  Here this is a
library about `Program`s, so that the order is read off the text of each program and the absence of
cycles follows for every interleaving of any number of threads.

* Which calls of a signature take and give back locks is a `Locking`.  A `LockOp` changes the locks
  of its thread, and `Holdings` records who holds what.
* A program `Climbs` in a relation on locks if each lock it takes is above all those it holds at
  that moment, on every run.  Sequences climb if their parts do (`Climbs.bind`), a bracket climbs if
  its lock is above those held and its body climbs from there (`Climbs.bracket`), and a program that
  calls no lock climbs.  These three cover programs whose locks are all taken by brackets.
* `WaitsFor` is the graph of threads: one waits for another if the lock it asks for next is held by
  that one.  `Climb` says that every thread climbs from the locks it holds, and it is kept by every
  step of a semantics that `Tracks` who holds what.
* `no_cycle_of_climbs`: if all threads climb in a relation without cycles, the graph has no cycle at
  any moment of any interleaving.

The relation is arbitrary.  It may compare kinds of locks, or two locks of one kind by what the
requests that take them say, and it need not be total; what counts is that it has no cycles.

Neither the modes of locks nor their queues play a part here: a thread counts as waiting for every
holder, also where it would not have to, so a reader that waits for a reader is already excluded.
-/

set_option autoImplicit false

namespace DistributedPrograms

/-- What a call does to the locks of its thread. -/
inductive LockOp (L M : Type) where
  | acquire (l : L) (m : M)
  | release (l : L) (m : M)
  | other

/-- The calls of a signature that take or give back a lock.  Which locks there are, and in which
modes they can be held, is up to the program. -/
structure Locking (C : Type → Type) (L M : Type) where
  op : {β : Type} → C β → LockOp L M

/-- Who holds what, latest first. -/
abbrev Holdings (P : Type*) (L M : Type) := List (P × L × M)

variable {C : Type → Type} {P : Type*} {L M α β : Type}

section

variable [DecidableEq L] [DecidableEq M]

/-- The locks of a thread after its call. -/
def LockOp.apply : LockOp L M → List (L × M) → List (L × M)
  | .acquire l m, held => (l, m) :: held
  | .release l m, held => held.erase (l, m)
  | .other, held => held

/-- The locks of all threads after a call of `p`. -/
def LockOp.applyTo [DecidableEq P] (p : P) : LockOp L M → Holdings P L M → Holdings P L M
  | .acquire l m, hs => (p, l, m) :: hs
  | .release l m, hs => hs.erase (p, l, m)
  | .other, hs => hs

end

/-! ## The locks of one thread

The record of who holds what is a list, latest first, and a thread gives back the lock it took last.
The lemmas say what a call of one thread does to the locks of that thread, and that it leaves those
of the others. -/

namespace Holdings

variable [DecidableEq P]

/-- The locks that `p` holds. -/
def of (p : P) : Holdings P L M → List (L × M)
  | [] => []
  | x :: hs => if x.1 = p then x.2 :: of p hs else of p hs

@[simp] theorem of_nil (p : P) : of p ([] : Holdings P L M) = [] := rfl

@[simp] theorem of_cons_self (p : P) (x : L × M) (hs : Holdings P L M) :
    of p ((p, x) :: hs) = x :: of p hs := by
  simp [of]

theorem of_cons_ne {p q : P} (hne : q ≠ p) (x : L × M) (hs : Holdings P L M) :
    of p ((q, x) :: hs) = of p hs := by
  simp [of, hne]

theorem mem_of {p : P} {x : L × M} {hs : Holdings P L M} : x ∈ of p hs ↔ (p, x) ∈ hs := by
  induction hs with
  | nil => simp
  | cons y hs ih =>
    obtain ⟨q, y⟩ := y
    by_cases hq : q = p
    · subst hq
      simp [ih]
    · rw [of_cons_ne hq, ih]
      simp [Ne.symm hq]

variable [DecidableEq L] [DecidableEq M]

theorem of_erase_self (p : P) (x : L × M) (hs : Holdings P L M) :
    of p (hs.erase (p, x)) = (of p hs).erase x := by
  induction hs with
  | nil => rfl
  | cons y hs ih =>
    obtain ⟨q, y⟩ := y
    by_cases hq : q = p
    · subst hq
      by_cases hy : y = x
      · simp [hy]
      · simp [hy, ih]
    · rw [List.erase_cons_tail (by simp [hq]), of_cons_ne hq, of_cons_ne hq, ih]

theorem of_erase_ne {p q : P} (hne : q ≠ p) (x : L × M) (hs : Holdings P L M) :
    of p (hs.erase (q, x)) = of p hs := by
  induction hs with
  | nil => rfl
  | cons y hs ih =>
    by_cases hy : y = (q, x)
    · subst hy
      rw [List.erase_cons_head, of_cons_ne hne]
    · rw [List.erase_cons_tail (by simpa using hy)]
      simp [of, ih]

theorem of_applyTo_self (p : P) (op : LockOp L M) (hs : Holdings P L M) :
    of p (op.applyTo p hs) = op.apply (of p hs) := by
  cases op with
  | acquire l m => exact of_cons_self p (l, m) hs
  | release l m => exact of_erase_self p (l, m) hs
  | other => rfl

theorem of_applyTo_ne {p q : P} (hne : q ≠ p) (op : LockOp L M) (hs : Holdings P L M) :
    of p (op.applyTo q hs) = of p hs := by
  cases op with
  | acquire l m => exact of_cons_ne hne (l, m) hs
  | release l m => exact of_erase_ne hne (l, m) hs
  | other => rfl

end Holdings

/-! ## Programs that climb

What a program does with its locks, whatever it is answered. -/

variable [DecidableEq L] [DecidableEq M] {lk : Locking C L M} {r : L → L → Prop}

namespace Program

/-- Started with the locks `held`, a program takes only locks above all those it holds, and ends
with the locks `last`.  It has to do so for all answers, so what it asks for may depend on what it
was told. -/
def Climbs (lk : Locking C L M) (r : L → L → Prop) (last : List (L × M)) :
    List (L × M) → Program C α → Prop
  | held, .ret _ => held = last
  | held, .call c next =>
    (∀ l m, lk.op c = .acquire l m → ∀ k ∈ held, r k.1 l) ∧
      ∀ b, Climbs lk r last ((lk.op c).apply held) (next b)

theorem climbs_pure (held : List (L × M)) (a : α) :
    Climbs lk r held held (pure a : Program C α) := rfl

/-- **A sequence of climbing programs climbs.** -/
theorem Climbs.bind {mid last held : List (L × M)} {x : Program C α} {f : α → Program C β}
    (hx : Climbs lk r mid held x) (hf : ∀ a, Climbs lk r last mid (f a)) :
    Climbs lk r last held (x >>= f) := by
  induction x generalizing held with
  | ret a =>
    obtain rfl : held = mid := hx
    exact hf a
  | call c next ih => exact ⟨hx.1, fun b => ih b (hx.2 b)⟩

/-- A program that calls no lock climbs. -/
theorem climbs_of_uses {x : Program C α} (held : List (L × M))
    (h : Uses (fun c => lk.op c = .other) x) : Climbs lk r held held x := by
  induction x with
  | ret a => rfl
  | call c next ih =>
    obtain ⟨hc, hnext⟩ := h
    have hc : lk.op c = .other := hc
    refine ⟨fun l m hop => ?_, fun b => ?_⟩
    · rw [hc] at hop
      cases hop
    · rw [hc]
      exact ih b (hnext b)

theorem climbs_acquire {held : List (L × M)} {c : C α} {l : L} {m : M}
    (hc : lk.op c = .acquire l m) (h : ∀ k ∈ held, r k.1 l) :
    Climbs lk r ((l, m) :: held) held (perform c) := by
  refine ⟨fun l' m' hop => ?_, fun b => ?_⟩
  · rw [hc] at hop
    cases hop
    exact h
  · rw [hc]
    rfl

theorem climbs_release {held : List (L × M)} {c : C α} {l : L} {m : M}
    (hc : lk.op c = .release l m) : Climbs lk r held ((l, m) :: held) (perform c) := by
  refine ⟨fun l' m' hop => ?_, fun b => ?_⟩
  · rw [hc] at hop
    cases hop
  · rw [hc]
    exact List.erase_cons_head _ _

end Program

namespace Fallible

variable {E : Type}

/-- A program that takes locks in order and gives back those it took, also where it fails. -/
def Climbs (lk : Locking C L M) (r : L → L → Prop) (held : List (L × M)) (x : Fallible C E α) :
    Prop :=
  Program.Climbs lk r held held x.run

variable {held : List (L × M)} {x : Fallible C E α}

theorem climbs_of_uses (h : Uses (fun c => lk.op c = .other) x) : Climbs lk r held x :=
  Program.climbs_of_uses held h

theorem Climbs.bind {f : α → Fallible C E β} (hx : Climbs lk r held x)
    (hf : ∀ a, Climbs lk r held (f a)) : Climbs lk r held (x >>= f) := by
  unfold Climbs at hx hf ⊢
  rw [ExceptT.run_bind]
  refine Program.Climbs.bind hx fun res => ?_
  cases res with
  | ok a => exact hf a
  | error e => exact Program.climbs_pure held _

theorem Climbs.map (f : α → β) (hx : Climbs lk r held x) : Climbs lk r held (f <$> x) := by
  rw [map_eq_pure_bind]
  exact hx.bind fun a => Program.climbs_pure held _

/-- **A bracket climbs** if its lock is above those held, and its body climbs from there. -/
theorem Climbs.bracket {enter leave : C Unit} {l : L} {m : M}
    (henter : lk.op enter = .acquire l m) (hleave : lk.op leave = .release l m)
    (habove : ∀ k ∈ held, r k.1 l) (hx : Climbs lk r ((l, m) :: held) x) :
    Climbs lk r held (bracket enter leave x) := by
  refine (Program.climbs_acquire henter habove).bind fun _ => ?_
  refine Program.Climbs.bind hx fun res => ?_
  exact (Program.climbs_release hleave).bind fun _ => Program.climbs_pure held _

end Fallible

/-! ## Threads

Along a path of waiting threads the locks they ask for climb, because the lock that one thread asks
for is held by the next, who asks for one above it.  A circle would climb back to where it began. -/

namespace Threads

variable {ω σ : Type*} [DecidableEq P] {held : σ → Holdings P L M} {sem : Semantics C P ω σ}
  {t t' : Threads C P σ α}

/-- The next call of `p` takes the lock `l`. -/
def Asks (lk : Locking C L M) (t : Threads C P σ α) (p : P) (l : L) : Prop :=
  match t.left p with
  | .ret _ => False
  | .call c _ => ∃ m, lk.op c = .acquire l m

/-- `p` asks for a lock that `q` holds.  Whether the modes of the two exclude each other is not
asked, so this is more than waiting, and a circle of it is the more to be excluded. -/
def WaitsFor (lk : Locking C L M) (held : σ → Holdings P L M) (t : Threads C P σ α) (p q : P) :
    Prop :=
  ∃ l m, Asks lk t p l ∧ (q, l, m) ∈ held t.shared

/-- The semantics keeps the record of who holds what. -/
def Tracks (lk : Locking C L M) (held : σ → Holdings P L M) (sem : Semantics C P ω σ) : Prop :=
  ∀ {β : Type} (p : P) (o : ω) (c : C β) (s : σ) (b : β) (s' : σ),
    sem.exec p o c s = some (b, s') → held s' = (lk.op c).applyTo p (held s)

/-- Every thread climbs from the locks it holds.  This is the invariant of the threads as a
whole. -/
def Climb (lk : Locking C L M) (r : L → L → Prop) (held : σ → Holdings P L M)
    (t : Threads C P σ α) : Prop :=
  ∀ p, Program.Climbs lk r [] (Holdings.of p (held t.shared)) (t.left p)

theorem Climb.step (htracks : Tracks lk held sem) (h : Climb lk r held t) {a : P × ω}
    (hs : t.step sem a = some t') : Climb lk r held t' := by
  obtain ⟨β, c, next, b, s, hleft, hexec, rfl⟩ := step_cases hs
  intro p
  show Program.Climbs lk r [] (Holdings.of p (held s)) (Function.update t.left a.1 (next b) p)
  rw [htracks _ _ _ _ _ _ hexec]
  by_cases hp : p = a.1
  · subst hp
    rw [Holdings.of_applyTo_self, Function.update_self]
    have hclimbs := h a.1
    rw [hleft] at hclimbs
    exact hclimbs.2 b
  · rw [Holdings.of_applyTo_ne (Ne.symm hp), Function.update_of_ne hp]
    exact h p

/-- The lock that a climbing thread asks for is above those it holds. -/
theorem Climb.above (h : Climb lk r held t) {p : P} {k l : L} {m : M} (hasks : Asks lk t p l)
    (hk : (p, k, m) ∈ held t.shared) : r k l := by
  have hclimbs := h p
  unfold Asks at hasks
  split at hasks
  · exact hasks.elim
  · next hleft =>
    obtain ⟨m', hop⟩ := hasks
    rw [hleft] at hclimbs
    exact hclimbs.1 l m' hop (k, m) (Holdings.mem_of.2 hk)

/-- Along a path of waiting threads the locks climb. -/
theorem Climb.path (h : Climb lk r held t) {p q : P}
    (hpath : Relation.TransGen (WaitsFor lk held t) p q) :
    ∃ l k m, Asks lk t p l ∧ (q, k, m) ∈ held t.shared ∧ Relation.ReflTransGen r l k := by
  induction hpath with
  | single hpq =>
    obtain ⟨l, m, hasks, hheld⟩ := hpq
    exact ⟨l, l, m, hasks, hheld, .refl⟩
  | tail _ hqs ih =>
    obtain ⟨l, k, m, hasks, hheld, hlk⟩ := ih
    obtain ⟨l', m', hasks', hheld'⟩ := hqs
    exact ⟨l, l', m', hasks, hheld', hlk.tail (h.above hasks' hheld)⟩

/-- **No deadlock.**  Threads that climb in a relation without cycles never wait for each other in a
circle: going around it, each would hold a lock above the one that it asks for. -/
theorem no_cycle_of_climbs (hr : ∀ l, ¬Relation.TransGen r l l) (htracks : Tracks lk held sem)
    {init : Threads C P σ α} (hheld : held init.shared = [])
    (hclimbs : ∀ p, Program.Climbs lk r [] [] (init.left p)) {K : List _ → P × ω → Prop}
    {tr : List (Threads C P σ α)} (hrun : Run (step sem) K init tr) :
    ∀ t ∈ tr, ∀ p, ¬Relation.TransGen (WaitsFor lk held t) p p := by
  have hinit : Climb lk r held init := by
    intro p
    rw [hheld]
    exact hclimbs p
  intro t ht p hcycle
  have hclimb : Climb lk r held t :=
    Run.forall_mem hinit (fun _ _ _ _ _ _ h hs => h.step htracks hs) hrun t ht
  obtain ⟨l, k, m, hasks, hk, hlk⟩ := hclimb.path hcycle
  exact hr k (.head' (hclimb.above hasks hk) hlk)

end Threads
end DistributedPrograms
