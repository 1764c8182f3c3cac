import DistributedPrograms.Lib.Cycle
import DistributedPrograms.CRing.JoinInvariants

/-!
# Leaving the C ring

A process that is interrupted calls `leave` in the thread that waits for the signal.  It reads its
two neighbours, tells the one about the other, and exits: `set_prev` goes to `next` with the name of
`prev`, `set_next` goes to `prev` with the name of `next`.  Nobody takes a lock for this but the two
handlers, and nobody answers.

`Net` has the joins at any number of members (`CRing.Join`, with the `contact` that a process is
started with) and the leaves, all at once.  A leave is cut at its calls; it reads each pointer
twice, once for the name it sends and once for the handle it sends with.  The handlers of `set_prev`
and `set_next` do nothing else under the lock than to store, so each is one moment at which the lock
is free.  What goes to a process that has exited is never handled.
-/

set_option autoImplicit false

namespace DistributedPrograms
namespace CRing

variable {A : Type}

/-- Where `leave` stands, with its locals.  It names its neighbours first, then reads them again for
its two handles, and then sends. -/
inductive LeaveCall (A : Type)
  | staying
  | nextNamed (nextStr : A)
  | prevNamed (nextStr prevStr : A)
  | nextCreated (nextStr prevStr nextH : A)
  | prevCreated (nextStr prevStr nextH prevH : A)
  /-- `set_prev` is sent -/
  | nextForwarded (nextStr prevH : A)
  /-- `set_next` is sent -/
  | prevForwarded
  | exited
deriving DecidableEq, Repr

/-- A `set_prev` or a `set_next`, with its receiver and the name it brings.  It is handled at some
moment at which the lock of the receiver is free. -/
inductive Told (A : Type)
  | unsent
  | sent (dest name : A)
  | handled
deriving DecidableEq, Repr

/-- A leave in its three places. -/
structure Leave (A : Type) where
  call : LeaveCall A
  setPrev : Told A
  setNext : Told A
deriving DecidableEq, Repr

/-- A process that nobody has interrupted. -/
def Leave.none : Leave A := ⟨.staying, .unsent, .unsent⟩

structure Net (A : Type) where
  ring : Ring A
  leave : A → Leave A

/-- A moment of a join or of a leave. -/
inductive NetAction (A : Type)
  | join (act : Action A)
  /-- the two `margo_addr_to_string`s of `leave` -/
  | nameNext (a : A)
  | namePrev (a : A)
  /-- its two `margo_create`s -/
  | createNext (a : A)
  | createPrev (a : A)
  /-- its two `margo_forward`s -/
  | forwardNext (a : A)
  | forwardPrev (a : A)
  | exit (a : A)
  /-- the handlers of its two RPCs -/
  | setPrev (a : A)
  | setNext (a : A)
deriving DecidableEq, Repr

/-- The process whose join it is. -/
def Action.joining : Action A → A
  | .joinRing a => a
  | .create a => a
  | .lock a => a
  | .forward a => a
  | .name a => a
  | .respond a => a
  | .store a => a
  | .unlock a => a
  | .finish a => a
  | .setNextLock a => a
  | .setNextStore a => a

/-- The process whose leave it is. -/
def NetAction.leaving : NetAction A → Option A
  | .join _ => none
  | .nameNext a => some a
  | .namePrev a => some a
  | .createNext a => some a
  | .createPrev a => some a
  | .forwardNext a => some a
  | .forwardPrev a => some a
  | .exit a => some a
  | .setPrev a => some a
  | .setNext a => some a

namespace Net

/-- Where a moment of a join takes place. -/
def place (contact : A → A) (s : Net A) : Action A → Option A
  | .joinRing a => some a
  | .finish a => some a
  | .setNextLock a => (s.ring.join a).setNext.dest
  | .setNextStore a => (s.ring.join a).setNext.dest
  | act => some (contact act.joining)

def setRing (s : Net A) (ring : Ring A) : Net A := { s with ring }

@[simp] theorem setRing_ring (s : Net A) (ring : Ring A) : (s.setRing ring).ring = ring := rfl
@[simp] theorem setRing_leave (s : Net A) (ring : Ring A) : (s.setRing ring).leave = s.leave := rfl

variable [DecidableEq A]

/-- The process has not exited.  A call to one that has would wait for ever. -/
def Alive (s : Net A) (a : A) : Prop := (s.leave a).call ≠ .exited

instance (s : Net A) (a : A) : Decidable (s.Alive a) :=
  inferInstanceAs (Decidable ((s.leave a).call ≠ .exited))

def setLeave (s : Net A) (a : A) (leave : Leave A) : Net A :=
  { s with leave := Function.update s.leave a leave }

@[simp] theorem setLeave_ring (s : Net A) (a : A) (leave : Leave A) :
    (s.setLeave a leave).ring = s.ring := rfl

@[simp, grind =] theorem setLeave_leave (s : Net A) (a b : A) (leave : Leave A) :
    (s.setLeave a leave).leave b = if b = a then leave else s.leave b :=
  Function.update_apply ..

theorem setLeave_self (s : Net A) (a : A) (leave : Leave A) :
    (s.setLeave a leave).leave a = leave :=
  Function.update_self ..

/-- One moment, of a join or of a leave.  A process that has exited handles nothing any more. -/
def step (contact : A → A) (s : Net A) : NetAction A → Option (Net A)
  | .join act =>
    match s.place contact act with
    | some c =>
      if s.Alive c then
        (s.ring.step (contact act.joining) act).map s.setRing
      else none
    | none => none
  | .nameNext a =>
    match s.leave a with
    | ⟨.staying, sp, sn⟩ =>
      if (s.ring.join a).caller ≠ .outside then
        some (s.setLeave a ⟨.nextNamed (s.ring.env a).next, sp, sn⟩)
      else none
    | _ => none
  | .namePrev a =>
    match s.leave a with
    | ⟨.nextNamed nextStr, sp, sn⟩ =>
      some (s.setLeave a ⟨.prevNamed nextStr (s.ring.env a).prev, sp, sn⟩)
    | _ => none
  | .createNext a =>
    match s.leave a with
    | ⟨.prevNamed nextStr prevStr, sp, sn⟩ =>
      some (s.setLeave a ⟨.nextCreated nextStr prevStr (s.ring.env a).next, sp, sn⟩)
    | _ => none
  | .createPrev a =>
    match s.leave a with
    | ⟨.nextCreated nextStr prevStr nextH, sp, sn⟩ =>
      some (s.setLeave a ⟨.prevCreated nextStr prevStr nextH (s.ring.env a).prev, sp, sn⟩)
    | _ => none
  | .forwardNext a =>
    match s.leave a with
    | ⟨.prevCreated nextStr prevStr nextH prevH, _, sn⟩ =>
      some (s.setLeave a ⟨.nextForwarded nextStr prevH, .sent nextH prevStr, sn⟩)
    | _ => none
  | .forwardPrev a =>
    match s.leave a with
    | ⟨.nextForwarded nextStr prevH, sp, _⟩ =>
      some (s.setLeave a ⟨.prevForwarded, sp, .sent prevH nextStr⟩)
    | _ => none
  | .exit a =>
    match s.leave a with
    | ⟨.prevForwarded, sp, sn⟩ => some (s.setLeave a ⟨.exited, sp, sn⟩)
    | _ => none
  | .setPrev a =>
    match s.leave a with
    | ⟨call, .sent dest name, sn⟩ =>
      if s.Alive dest ∧ s.ring.joinLock dest = none then
        some ((s.setLeave a ⟨call, .handled, sn⟩).setRing (s.ring.setPrev dest name))
      else none
    | _ => none
  | .setNext a =>
    match s.leave a with
    | ⟨call, sp, .sent dest name⟩ =>
      if s.Alive dest ∧ s.ring.joinLock dest = none then
        some ((s.setLeave a ⟨call, sp, .handled⟩).setRing (s.ring.setNext dest name))
      else none
    | _ => none

/-! ## What a step does

The moments of joins are those of `CRing.Join`, at the member that the process was started with. -/

variable {contact : A → A} {s s' : Net A} {act : NetAction A}

/-- The moments one by one. -/
inductive Step (contact : A → A) (s : Net A) : NetAction A → Net A → Prop
  | join {act : Action A} {c : A} {ring : Ring A} (hplace : s.place contact act = some c)
      (halive : s.Alive c) (hs : s.ring.step (contact act.joining) act = some ring) :
      Step contact s (.join act) (s.setRing ring)
  | nameNext {a : A} {sp sn : Told A} (hl : s.leave a = ⟨.staying, sp, sn⟩)
      (hcaller : (s.ring.join a).caller ≠ .outside) :
      Step contact s (.nameNext a) (s.setLeave a ⟨.nextNamed (s.ring.env a).next, sp, sn⟩)
  | namePrev {a nextStr : A} {sp sn : Told A} (hl : s.leave a = ⟨.nextNamed nextStr, sp, sn⟩) :
      Step contact s (.namePrev a) (s.setLeave a ⟨.prevNamed nextStr (s.ring.env a).prev, sp, sn⟩)
  | createNext {a nextStr prevStr : A} {sp sn : Told A}
      (hl : s.leave a = ⟨.prevNamed nextStr prevStr, sp, sn⟩) :
      Step contact s (.createNext a)
        (s.setLeave a ⟨.nextCreated nextStr prevStr (s.ring.env a).next, sp, sn⟩)
  | createPrev {a nextStr prevStr nextH : A} {sp sn : Told A}
      (hl : s.leave a = ⟨.nextCreated nextStr prevStr nextH, sp, sn⟩) :
      Step contact s (.createPrev a)
        (s.setLeave a ⟨.prevCreated nextStr prevStr nextH (s.ring.env a).prev, sp, sn⟩)
  | forwardNext {a nextStr prevStr nextH prevH : A} {sp sn : Told A}
      (hl : s.leave a = ⟨.prevCreated nextStr prevStr nextH prevH, sp, sn⟩) :
      Step contact s (.forwardNext a)
        (s.setLeave a ⟨.nextForwarded nextStr prevH, .sent nextH prevStr, sn⟩)
  | forwardPrev {a nextStr prevH : A} {sp sn : Told A}
      (hl : s.leave a = ⟨.nextForwarded nextStr prevH, sp, sn⟩) :
      Step contact s (.forwardPrev a) (s.setLeave a ⟨.prevForwarded, sp, .sent prevH nextStr⟩)
  | exit {a : A} {sp sn : Told A} (hl : s.leave a = ⟨.prevForwarded, sp, sn⟩) :
      Step contact s (.exit a) (s.setLeave a ⟨.exited, sp, sn⟩)
  | setPrev {a dest name : A} {call : LeaveCall A} {sn : Told A}
      (hl : s.leave a = ⟨call, .sent dest name, sn⟩) (halive : s.Alive dest)
      (hfree : s.ring.joinLock dest = none) :
      Step contact s (.setPrev a)
        ((s.setLeave a ⟨call, .handled, sn⟩).setRing (s.ring.setPrev dest name))
  | setNext {a dest name : A} {call : LeaveCall A} {sp : Told A}
      (hl : s.leave a = ⟨call, sp, .sent dest name⟩) (halive : s.Alive dest)
      (hfree : s.ring.joinLock dest = none) :
      Step contact s (.setNext a)
        ((s.setLeave a ⟨call, sp, .handled⟩).setRing (s.ring.setNext dest name))

theorem step_cases (h : s.step contact act = some s') : Step contact s act s' := by
  cases act with
  | join act =>
    rw [step] at h
    split at h
    · next c hplace =>
      split at h
      · next halive =>
        obtain ⟨ring, hs, rfl⟩ := Option.map_eq_some_iff.1 h
        exact .join hplace halive hs
      · contradiction
    · contradiction
  | nameNext a =>
    rw [step] at h
    split at h
    · next sp sn hl =>
      split at h
      · next hcaller =>
        obtain ⟨⟩ := h
        exact .nameNext hl hcaller
      · contradiction
    · contradiction
  | setPrev a =>
    rw [step] at h
    split at h
    · next call dest name sn hl =>
      split at h
      · next hok =>
        obtain ⟨⟩ := h
        exact .setPrev hl hok.1 hok.2
      · contradiction
    · contradiction
  | setNext a =>
    rw [step] at h
    split at h
    · next call sp dest name hl =>
      split at h
      · next hok =>
        obtain ⟨⟩ := h
        exact .setNext hl hok.1 hok.2
      · contradiction
    · contradiction
  | _ a =>
    rw [step] at h
    split at h
    · obtain ⟨⟩ := h
      constructor
      assumption
    · contradiction

end Net
end CRing
end DistributedPrograms
