import DistributedPrograms.Lib.Evaluation
import DistributedPrograms.Lib.Locks
import DistributedPrograms.Distfs.Server

/-!
# Handlers side by side

`World` is what the handlers of one server share: the locks, the two tables of handles, the counter,
and the operating system with a state of its own.  `World.exec` answers the calls of a handler; a
lock that is not free makes it wait.  An `OperatingSystem` is a parameter, and `anySystem` is the
one that may answer anything.

A handler is one thread, and its atomic steps are its calls, so that between any two calls of one
handler those of all others may come.  Locks are shared or exclusive as their mode says, and a lock
that is asked for is given as soon as nobody holds it in a mode that excludes it; in what order
those who wait get it is left open.

* `locking` says which calls take and give back locks, and `tracks` that the world keeps the record
  of who holds what, so the library on locks applies.
* `os_of_exec`: a call is the server's own, or it is passed to the system.
* `World.alone` is a world in which no lock is taken, for a request that is the only one, and
  `Server.start` is the beginning of any number of requests at once.
-/

set_option autoImplicit false

namespace DistributedPrograms
namespace Distfs

open UnixPath

universe u v

/-- How a system answers the calls that are not about the server's own locks and tables, and what
they do to it; what is left open is resolved by a choice of type `ω`. -/
structure OperatingSystem (ω : Type u) (σ : Type v) where
  exec : {β : Type} → ω → Call β → σ → β × σ

/-- One answer for each call. -/
def Answers : Type 1 := (β : Type) → Call β → β

/-- The system of which only the types of its answers are known.  What holds over it holds over
every other one. -/
def anySystem : OperatingSystem Answers Unit := ⟨fun answer c _ => (answer _ c, ())⟩

/-- Every request to the system is refused. -/
def refusing : Answers
  | _, .acquire _ _ | _, .release _ _ | _, .fhInsert _ _ _ | _, .dhInsert _ _ _ | _, .dhRemove _ => ()
  | _, .allocFh => 0
  | _, .fhGet _ | _, .fhRemove _ => none
  | _, .dhGet _ => none
  | _, .mkdir _ _ | _, .unlink _ | _, .access _ _ | _, .fsync _ | _, .fallocate _ _ _ _ =>
    .error EACCES
  | _, .copyFileRange _ _ _ _ _ => .error EACCES
  | _, .setOwner _ _ | _, .setGroup _ _ => .error .userNotFound
  | _, .symlink _ _ | _, .removeDir _ | _, .rename _ _ | _, .setFileMtime _ _ _
  | _, .setFileAtime _ _ _ | _, .setPermissions _ _ | _, .fileSetLen _ _ | _, .fileFlush _ =>
    .error ⟨none⟩
  | _, .metadata _ | _, .entryMetadata _ _ | _, .fileMetadata _ => .error ⟨none⟩
  | _, .readDir _ => .error ⟨none⟩
  | _, .entryFileType _ _ => .error ⟨none⟩
  | _, .openFile _ _ => .error ⟨none⟩
  | _, .readLink _ => .error ⟨none⟩
  | _, .fileSeek _ _ => .error ⟨none⟩
  | _, .fileRead _ _ => .error ⟨none⟩
  | _, .fileWrite _ _ => .error ⟨none⟩

instance : Nonempty Answers := ⟨refusing⟩

/-- What the handlers share: the locks that are held, latest first, the two tables, the counter, and
the system. -/
structure World (P : Type u) (σ : Type v) where
  held : Holdings P Lock LockMode
  fh : UInt64 → Option (Fd × Path)
  dh : UInt64 → Option (List Entry × Path)
  fhSrc : UInt64
  os : σ

/-- Where a request is the only one, no lock is taken.  The tables may have anything in them. -/
def World.alone (P : Type u) {σ : Type v} (fh : UInt64 → Option (Fd × Path))
    (dh : UInt64 → Option (List Entry × Path)) (fhSrc : UInt64) (os : σ) : World P σ :=
  ⟨[], fh, dh, fhSrc, os⟩

/-- The calls that take and give back locks. -/
def locking : Locking Call Lock LockMode where
  op
    | .acquire l m => .acquire l m
    | .release l m => .release l m
    | _ => .other

namespace World

variable {P : Type u} {σ : Type v} {ω : Type*}

/-- Nobody holds the lock in a mode that excludes `m`.  The thread itself counts too: a lock is not
given twice, but for reading. -/
def free (w : World P σ) (l : Lock) (m : LockMode) : Bool :=
  w.held.all fun x => x.2.1 != l || (m == .read && x.2.2 == .read)

variable [DecidableEq P]

def exec (os : OperatingSystem ω σ) {β : Type} (p : P) (o : ω) :
    Call β → World P σ → Option (β × World P σ)
  | .acquire l m, w => if w.free l m then some ((), { w with held := (p, l, m) :: w.held }) else none
  | .release l m, w => some ((), { w with held := w.held.erase (p, l, m) })
  | .allocFh, w => some (w.fhSrc, { w with fhSrc := w.fhSrc + 1 })
  | .fhGet fh, w => some (w.fh fh, w)
  | .fhInsert fh file path, w =>
    some ((), { w with fh := Function.update w.fh fh (some (file, path)) })
  | .fhRemove fh, w => some (w.fh fh, { w with fh := Function.update w.fh fh none })
  | .dhGet fh, w => some (w.dh fh, w)
  | .dhInsert fh entries path, w =>
    some ((), { w with dh := Function.update w.dh fh (some (entries, path)) })
  | .dhRemove fh, w => some ((), { w with dh := Function.update w.dh fh none })
  | c, w => some ((os.exec o c w.os).1, { w with os := (os.exec o c w.os).2 })

/-- The handlers of one server over their world. -/
def semantics (os : OperatingSystem ω σ) : Semantics Call P ω (World P σ) := ⟨exec os⟩

variable {os : OperatingSystem ω σ} {p : P} {o : ω} {α : Type} {l : Lock} {m : LockMode}
  {x : Handler α} {w w' : World P σ}

theorem exec_acquire (h : w.free l m = true) :
    (semantics os).exec p o (.acquire l m) w = some ((), { w with held := (p, l, m) :: w.held }) :=
  if_pos h

/-- A call is the server's own, or it is passed to the system. -/
theorem os_of_exec {β : Type} {c : Call β} {b : β}
    (h : (semantics os).exec p o c w = some (b, w')) :
    w'.os = w.os ∨ w'.os = (os.exec o c w.os).2 := by
  cases c with
  | acquire l m =>
    obtain ⟨-, heq⟩ := Option.ite_none_right_eq_some.1 h
    obtain ⟨⟩ := heq
    exact Or.inl rfl
  | release l m => obtain ⟨⟩ := h; exact Or.inl rfl
  | allocFh => obtain ⟨⟩ := h; exact Or.inl rfl
  | fhGet fh => obtain ⟨⟩ := h; exact Or.inl rfl
  | fhInsert fh file path => obtain ⟨⟩ := h; exact Or.inl rfl
  | fhRemove fh => obtain ⟨⟩ := h; exact Or.inl rfl
  | dhGet fh => obtain ⟨⟩ := h; exact Or.inl rfl
  | dhInsert fh entries path => obtain ⟨⟩ := h; exact Or.inl rfl
  | dhRemove fh => obtain ⟨⟩ := h; exact Or.inl rfl
  | _ => obtain ⟨⟩ := h; exact Or.inr rfl

theorem ends_withLock [Nonempty ω] {r : Except Failure α} :
    Fallible.Ends (semantics os) p (withLock l m x) w r w' ↔ w.free l m = true ∧
      ∃ w₂, Fallible.Ends (semantics os) p x { w with held := (p, l, m) :: w.held } r w₂ ∧
        w' = { w₂ with held := w₂.held.erase (p, l, m) } := by
  rw [withLock, Fallible.ends_bracket]
  constructor
  · rintro ⟨o, w₁, o', w₂, henter, hx, hleave⟩
    obtain ⟨hfree, heq⟩ := Option.ite_none_right_eq_some.1 henter
    cases heq
    cases hleave
    exact ⟨hfree, w₂, hx, rfl⟩
  · rintro ⟨hfree, w₂, hx, rfl⟩
    obtain ⟨o⟩ := ‹Nonempty ω›
    exact ⟨o, _, o, w₂, exec_acquire hfree, hx, rfl⟩

/-- The world keeps the record of who holds what. -/
theorem tracks (os : OperatingSystem ω σ) :
    Threads.Tracks locking held (semantics os : Semantics Call P ω (World P σ)) := by
  intro β p o c w b w' h
  cases c
  case acquire l m =>
    simp only [semantics, exec, Option.ite_none_right_eq_some, Option.some.injEq] at h
    obtain ⟨-, h⟩ := h
    cases h
    rfl
  all_goals
    cases h
    rfl

end World

/-- Handlers that run side by side, one thread for each request. -/
abbrev Handlers (P : Type u) (σ : Type v) :=
  Threads Call P (World P σ) (Except Failure Reply)

/-- One handler for each request, none of them started, over a world without locks taken. -/
def Server.start {P : Type u} {σ : Type v} (s : Server) (reqs : P → Request) (w : World P σ) :
    Handlers P σ :=
  ⟨fun p => (s.handle (reqs p)).run, w⟩

end Distfs
end DistributedPrograms
