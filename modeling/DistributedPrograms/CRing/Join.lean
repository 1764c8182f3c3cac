import Mathlib.Logic.Function.Basic
import DistributedPrograms.Lib.Run

/-!
# Joining in the C ring

`ring/ring.c`.  A process that is started with the address of a member calls `join_ring`: it points
its `next` at the member and sends it `join`.  The handler there sends `set_next` with the new
address to the `prev` of the member, answers with the name of that `prev`, and makes the new process
its `prev`.

All joins here are at one member `n`.  Margo runs every handler as a thread of its own, so they are
cut at their calls:

* `join` creates the handle of its `set_next`, which fixes where it goes, takes `join_lock`,
  forwards the handle, prints `env.prev`, responds, stores its new `env.prev` and gives the lock
  back;
* `set_next` has its response disabled, so that `margo_forward` only sends it; the handler takes the
  `join_lock` of the process it has been sent to, stores `env.next` and gives the lock back;
* `join_ring` looks at nothing that others write until it has its answer, so it is the part before
  and the part after that.

Calls do not fail.  `margo_addr_lookup` finds the address that `margo_addr_to_string` has printed,
so a string and the address it names are one.
-/

set_option autoImplicit false

namespace DistributedPrograms
namespace CRing

variable {A : Type}

/-! ## One join

A join takes place in three processes, and each place has its own record.  A handler keeps its
locals in its record when it has returned, so that they can be spoken of afterwards. -/

/-- The two neighbours in `env`. -/
structure Env (A : Type) where
  next : A
  prev : A
deriving DecidableEq, Repr

/-- Where `join_ring` stands in a process; a member has it behind it.  It waits in `margo_forward`
until the handler has responded. -/
inductive JoinRing (A : Type)
  | outside
  /-- `margo_forward` waits for the answer -/
  | waiting
  /-- the answer is on its way -/
  | answered (prevAddr : A)
  | joined
deriving DecidableEq, Repr

/-- Where the handler `join` stands, with the address that `prev_h` goes to and `old_prev`.  A
handler that has returned keeps them here. -/
inductive JoinHandler (A : Type)
  | absent
  | entered
  | created (dest : A)
  | locked (dest : A)
  | forwarded (dest : A)
  | named (dest oldPrev : A)
  | responded (dest oldPrev : A)
  | stored (dest oldPrev : A)
  | returned (dest oldPrev : A)
deriving DecidableEq, Repr

/-- Where the `set_next` of a join stands, with the process it goes to.  Nobody waits for it,
because its response is disabled. -/
inductive SetNext (A : Type)
  | unsent
  | sent (dest : A)
  /-- its handler has the `join_lock` of `dest` -/
  | locked (dest : A)
  | handled (dest : A)
deriving DecidableEq, Repr

/-- A join in its three places: the process that joins, the member, and the old `prev`.  They run
side by side. -/
structure Join (A : Type) where
  caller : JoinRing A
  handler : JoinHandler A
  setNext : SetNext A
deriving DecidableEq, Repr

namespace JoinHandler

/-- The address that `prev_h` goes to. -/
def dest : JoinHandler A → Option A
  | absent => none
  | entered => none
  | created dest => some dest
  | locked dest => some dest
  | forwarded dest => some dest
  | named dest _ => some dest
  | responded dest _ => some dest
  | stored dest _ => some dest
  | returned dest _ => some dest

/-- `old_prev`, which the joining process is answered. -/
def oldPrev : JoinHandler A → Option A
  | absent => none
  | entered => none
  | created _ => none
  | locked _ => none
  | forwarded _ => none
  | named _ oldPrev => some oldPrev
  | responded _ oldPrev => some oldPrev
  | stored _ oldPrev => some oldPrev
  | returned _ oldPrev => some oldPrev

/-- The handler is between its lock and its unlock. -/
def hasLock : JoinHandler A → Bool
  | absent => false
  | entered => false
  | created _ => false
  | locked _ => true
  | forwarded _ => true
  | named _ _ => true
  | responded _ _ => true
  | stored _ _ => true
  | returned _ _ => false

/-- The handler has stored its new `env.prev`. -/
def hasStored : JoinHandler A → Bool
  | absent => false
  | entered => false
  | created _ => false
  | locked _ => false
  | forwarded _ => false
  | named _ _ => false
  | responded _ _ => false
  | stored _ _ => true
  | returned _ _ => true

end JoinHandler

/-- The process that a `set_next` goes to, once it is sent. -/
def SetNext.dest : SetNext A → Option A
  | unsent => none
  | sent dest => some dest
  | locked dest => some dest
  | handled dest => some dest

/-! ## All joins at `n`

The joins share the pointers and the locks.  The record of a join is known by the process that
joins. -/

/-- The handler that holds a `join_lock`: that of a `join` or of a `set_next`, by the process that
joins. -/
inductive Holder (A : Type)
  | join (joining : A)
  | setNext (joining : A)
deriving DecidableEq, Repr

structure Ring (A : Type) where
  env : A → Env A
  joinLock : A → Option (Holder A)
  /-- the join of each process -/
  join : A → Join A

/-- A moment of the join of one process. -/
inductive Action (A : Type)
  /-- `join_ring` up to its `margo_forward` -/
  | joinRing (a : A)
  /-- `margo_create` in `join` -/
  | create (a : A)
  | lock (a : A)
  | forward (a : A)
  /-- `margo_addr_to_string` in `join` -/
  | name (a : A)
  | respond (a : A)
  /-- `lookup_addr` in `join` -/
  | store (a : A)
  | unlock (a : A)
  /-- `join_ring` from its `margo_get_output` on -/
  | finish (a : A)
  /-- `set_next` takes the lock -/
  | setNextLock (a : A)
  /-- `set_next` stores and gives the lock back -/
  | setNextStore (a : A)
deriving DecidableEq, Repr

namespace Ring

variable [DecidableEq A]

def setPrev (s : Ring A) (a prev : A) : Ring A :=
  { s with env := Function.update s.env a { s.env a with prev } }

def setNext (s : Ring A) (a next : A) : Ring A :=
  { s with env := Function.update s.env a { s.env a with next } }

def setLock (s : Ring A) (a : A) (holder : Option (Holder A)) : Ring A :=
  { s with joinLock := Function.update s.joinLock a holder }

def setJoin (s : Ring A) (a : A) (join : Join A) : Ring A :=
  { s with join := Function.update s.join a join }

@[simp] theorem setPrev_join (s : Ring A) (a prev : A) : (s.setPrev a prev).join = s.join := rfl
@[simp] theorem setNext_join (s : Ring A) (a next : A) : (s.setNext a next).join = s.join := rfl
@[simp] theorem setLock_join (s : Ring A) (a : A) (holder : Option (Holder A)) :
    (s.setLock a holder).join = s.join := rfl

@[simp, grind =] theorem setJoin_join (s : Ring A) (a b : A) (join : Join A) :
    (s.setJoin a join).join b = if b = a then join else s.join b :=
  Function.update_apply ..

theorem setJoin_self (s : Ring A) (a : A) (join : Join A) : (s.setJoin a join).join a = join :=
  Function.update_self ..

@[simp] theorem setPrev_joinLock (s : Ring A) (a prev : A) :
    (s.setPrev a prev).joinLock = s.joinLock := rfl
@[simp] theorem setNext_joinLock (s : Ring A) (a next : A) :
    (s.setNext a next).joinLock = s.joinLock := rfl
@[simp] theorem setJoin_joinLock (s : Ring A) (a : A) (join : Join A) :
    (s.setJoin a join).joinLock = s.joinLock := rfl

@[simp, grind =] theorem setLock_joinLock (s : Ring A) (a b : A) (holder : Option (Holder A)) :
    (s.setLock a holder).joinLock b = if b = a then holder else s.joinLock b :=
  Function.update_apply ..

@[simp] theorem setLock_env (s : Ring A) (a : A) (holder : Option (Holder A)) :
    (s.setLock a holder).env = s.env := rfl
@[simp] theorem setJoin_env (s : Ring A) (a : A) (join : Join A) :
    (s.setJoin a join).env = s.env := rfl

@[simp] theorem setPrev_env_prev (s : Ring A) (a b prev : A) :
    ((s.setPrev a prev).env b).prev = if b = a then prev else (s.env b).prev := by
  by_cases h : b = a
  · subst h
    simp [setPrev]
  · simp [setPrev, h]

@[simp] theorem setPrev_env_next (s : Ring A) (a b prev : A) :
    ((s.setPrev a prev).env b).next = (s.env b).next := by
  by_cases h : b = a
  · subst h
    simp [setPrev]
  · simp [setPrev, h]

@[simp] theorem setNext_env_next (s : Ring A) (a b next : A) :
    ((s.setNext a next).env b).next = if b = a then next else (s.env b).next := by
  by_cases h : b = a
  · subst h
    simp [setNext]
  · simp [setNext, h]

@[simp] theorem setNext_env_prev (s : Ring A) (a b next : A) :
    ((s.setNext a next).env b).prev = (s.env b).prev := by
  by_cases h : b = a
  · subst h
    simp [setNext]
  · simp [setNext, h]

/-- One moment of one join at `n`; `none` where the place does not stand there, or the lock is
taken. -/
def step (n : A) (s : Ring A) : Action A → Option (Ring A)
  | .joinRing a =>
    match s.join a with
    | ⟨.outside, _, _⟩ => some ((s.setJoin a ⟨.waiting, .entered, .unsent⟩).setNext a n)
    | _ => none
  | .create a =>
    match s.join a with
    | ⟨caller, .entered, sn⟩ => some (s.setJoin a ⟨caller, .created (s.env n).prev, sn⟩)
    | _ => none
  | .lock a =>
    match s.join a with
    | ⟨caller, .created dest, sn⟩ =>
      if s.joinLock n = none then
        some ((s.setJoin a ⟨caller, .locked dest, sn⟩).setLock n (some (.join a)))
      else none
    | _ => none
  | .forward a =>
    match s.join a with
    | ⟨caller, .locked dest, _⟩ => some (s.setJoin a ⟨caller, .forwarded dest, .sent dest⟩)
    | _ => none
  | .name a =>
    match s.join a with
    | ⟨caller, .forwarded dest, sn⟩ => some (s.setJoin a ⟨caller, .named dest (s.env n).prev, sn⟩)
    | _ => none
  | .respond a =>
    match s.join a with
    | ⟨_, .named dest oldPrev, sn⟩ =>
      some (s.setJoin a ⟨.answered oldPrev, .responded dest oldPrev, sn⟩)
    | _ => none
  | .store a =>
    match s.join a with
    | ⟨caller, .responded dest oldPrev, sn⟩ =>
      some ((s.setJoin a ⟨caller, .stored dest oldPrev, sn⟩).setPrev n a)
    | _ => none
  | .unlock a =>
    match s.join a with
    | ⟨caller, .stored dest oldPrev, sn⟩ =>
      some ((s.setJoin a ⟨caller, .returned dest oldPrev, sn⟩).setLock n none)
    | _ => none
  | .finish a =>
    match s.join a with
    | ⟨.answered prevAddr, handler, sn⟩ =>
      some ((s.setJoin a ⟨.joined, handler, sn⟩).setPrev a prevAddr)
    | _ => none
  | .setNextLock a =>
    match s.join a with
    | ⟨caller, handler, .sent dest⟩ =>
      if s.joinLock dest = none then
        some ((s.setJoin a ⟨caller, handler, .locked dest⟩).setLock dest (some (.setNext a)))
      else none
    | _ => none
  | .setNextStore a =>
    match s.join a with
    | ⟨caller, handler, .locked dest⟩ =>
      some (((s.setJoin a ⟨caller, handler, .handled dest⟩).setNext dest a).setLock dest none)
    | _ => none

/-! ## What a step does

The step function as a relation, and the fields that a step leaves alone. -/

variable {n : A} {s s' : Ring A} {act : Action A}

/-- The moments of a join one by one, each with the join before it.  This is `step` as an inversion:
proofs go through its cases. -/
inductive Step (n : A) (s : Ring A) : Action A → Ring A → Prop
  | joinRing {a : A} {handler : JoinHandler A} {sn : SetNext A}
      (hj : s.join a = ⟨.outside, handler, sn⟩) :
      Step n s (.joinRing a) ((s.setJoin a ⟨.waiting, .entered, .unsent⟩).setNext a n)
  | create {a : A} {caller : JoinRing A} {sn : SetNext A}
      (hj : s.join a = ⟨caller, .entered, sn⟩) :
      Step n s (.create a) (s.setJoin a ⟨caller, .created (s.env n).prev, sn⟩)
  | lock {a dest : A} {caller : JoinRing A} {sn : SetNext A}
      (hj : s.join a = ⟨caller, .created dest, sn⟩) (hfree : s.joinLock n = none) :
      Step n s (.lock a) ((s.setJoin a ⟨caller, .locked dest, sn⟩).setLock n (some (.join a)))
  | forward {a dest : A} {caller : JoinRing A} {sn : SetNext A}
      (hj : s.join a = ⟨caller, .locked dest, sn⟩) :
      Step n s (.forward a) (s.setJoin a ⟨caller, .forwarded dest, .sent dest⟩)
  | name {a dest : A} {caller : JoinRing A} {sn : SetNext A}
      (hj : s.join a = ⟨caller, .forwarded dest, sn⟩) :
      Step n s (.name a) (s.setJoin a ⟨caller, .named dest (s.env n).prev, sn⟩)
  | respond {a dest oldPrev : A} {caller : JoinRing A} {sn : SetNext A}
      (hj : s.join a = ⟨caller, .named dest oldPrev, sn⟩) :
      Step n s (.respond a) (s.setJoin a ⟨.answered oldPrev, .responded dest oldPrev, sn⟩)
  | store {a dest oldPrev : A} {caller : JoinRing A} {sn : SetNext A}
      (hj : s.join a = ⟨caller, .responded dest oldPrev, sn⟩) :
      Step n s (.store a) ((s.setJoin a ⟨caller, .stored dest oldPrev, sn⟩).setPrev n a)
  | unlock {a dest oldPrev : A} {caller : JoinRing A} {sn : SetNext A}
      (hj : s.join a = ⟨caller, .stored dest oldPrev, sn⟩) :
      Step n s (.unlock a) ((s.setJoin a ⟨caller, .returned dest oldPrev, sn⟩).setLock n none)
  | finish {a prevAddr : A} {handler : JoinHandler A} {sn : SetNext A}
      (hj : s.join a = ⟨.answered prevAddr, handler, sn⟩) :
      Step n s (.finish a) ((s.setJoin a ⟨.joined, handler, sn⟩).setPrev a prevAddr)
  | setNextLock {a dest : A} {caller : JoinRing A} {handler : JoinHandler A}
      (hj : s.join a = ⟨caller, handler, .sent dest⟩) (hfree : s.joinLock dest = none) :
      Step n s (.setNextLock a)
        ((s.setJoin a ⟨caller, handler, .locked dest⟩).setLock dest (some (.setNext a)))
  | setNextStore {a dest : A} {caller : JoinRing A} {handler : JoinHandler A}
      (hj : s.join a = ⟨caller, handler, .locked dest⟩) :
      Step n s (.setNextStore a)
        (((s.setJoin a ⟨caller, handler, .handled dest⟩).setNext dest a).setLock dest none)

theorem step_cases (h : s.step n act = some s') : Step n s act s' := by
  cases act with
  | lock a =>
    simp only [step] at h
    split at h
    · next hj =>
      simp only [Option.ite_none_right_eq_some, Option.some.injEq] at h
      obtain ⟨hfree, rfl⟩ := h
      exact .lock hj hfree
    · contradiction
  | setNextLock a =>
    simp only [step] at h
    split at h
    · next hj =>
      simp only [Option.ite_none_right_eq_some, Option.some.injEq] at h
      obtain ⟨hfree, rfl⟩ := h
      exact .setNextLock hj hfree
    · contradiction
  | _ a =>
    simp only [step] at h
    split at h
    · obtain ⟨⟩ := h
      constructor
      assumption
    · contradiction

end Ring

end CRing
end DistributedPrograms
