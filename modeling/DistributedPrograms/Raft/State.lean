import Mathlib.Algebra.Group.Nat.Defs
import Mathlib.Logic.Function.Basic

/-!
# The state of a Raft node

The data model of `raft2/src/lib.rs`: what a node keeps behind its `RwLock` (`VariableState`), the
part of it that goes to disk (`Persistent`), and the bodies of the two RPCs.  The handlers and
calls that work on it are in `Raft.Handlers` and `Raft.Calls`.

Modelling choices.

* `SocketAddr` is an arbitrary type `A` with decidable equality; the code only compares addresses
  and uses them as keys.  A `HashMap<SocketAddr, usize>` is a partial function `A → Option Nat`.
* `u64` and `usize` values are natural numbers.  The two additions that a value from the wire can
  drive over the edge (`current_term += 1` and `last_log_index + 1`) are `wrappingSucc`, which is
  what the release build the Dockerfile ships computes.
* The node's file is represented by the value its bytes decode to, `none` when they do not decode.
* An operation of the file system either succeeds or fails, and then leaves some contents behind:
  that is the argument `Disk` of every operation that saves.
-/

set_option autoImplicit false

namespace DistributedPrograms
namespace Raft

/-- `n + 1` in 64-bit arithmetic. -/
def wrappingSucc (n : Nat) : Nat := (n + 1) % 2 ^ 64

theorem wrappingSucc_of_lt {n : Nat} (h : n + 1 < 2 ^ 64) : wrappingSucc n = n + 1 :=
  Nat.mod_eq_of_lt h

theorem wrappingSucc_le (n : Nat) : wrappingSucc n ≤ n + 1 :=
  Nat.mod_le _ _

/-- One entry of the replicated log. -/
structure Log where
  text : String
  term : Nat
deriving DecidableEq, Repr

variable {A : Type}

/-- What a node must not forget. -/
structure Persistent (A : Type) where
  currentTerm : Nat
  votedFor : Option A
  logs : List Log
deriving DecidableEq, Repr

/-- The role of a node.  A leader also keeps, for every server, the index of the next entry to send
to it and of the last entry known to be on it. -/
inductive Role (A : Type)
  | follower
  | candidate
  | leader (nextIndex matchIndex : A → Option Nat)

namespace Role

def isFollower : Role A → Bool
  | follower => true
  | _ => false

def isCandidate : Role A → Bool
  | candidate => true
  | _ => false

def isLeader : Role A → Bool
  | leader _ _ => true
  | _ => false

@[simp] theorem isFollower_iff {r : Role A} : r.isFollower = true ↔ r = .follower := by
  cases r <;> simp [isFollower]

@[simp] theorem isCandidate_iff {r : Role A} : r.isCandidate = true ↔ r = .candidate := by
  cases r <;> simp [isCandidate]

@[simp] theorem isLeader_follower : (follower : Role A).isLeader = false := rfl
@[simp] theorem isLeader_candidate : (candidate : Role A).isLeader = false := rfl
@[simp] theorem isLeader_leader (n m : A → Option Nat) : (leader n m).isLeader = true := rfl
@[simp] theorem isFollower_leader (n m : A → Option Nat) : (leader n m).isFollower = false := rfl
@[simp] theorem isFollower_candidate : (candidate : Role A).isFollower = false := rfl
@[simp] theorem isCandidate_leader (n m : A → Option Nat) : (leader n m).isCandidate = false := rfl

/-- `match_index[p]` of a leader. -/
def matchIndexOf : Role A → A → Option Nat
  | leader _ matchIndex, p => matchIndex p
  | _, _ => none

@[simp] theorem matchIndexOf_follower (p : A) : (follower : Role A).matchIndexOf p = none := rfl
@[simp] theorem matchIndexOf_candidate (p : A) : (candidate : Role A).matchIndexOf p = none := rfl
@[simp] theorem matchIndexOf_leader (n m : A → Option Nat) (p : A) :
    (leader n m).matchIndexOf p = m p := rfl

theorem isLeader_of_matchIndexOf {r : Role A} {p : A} {j : Nat}
    (h : r.matchIndexOf p = some j) : r.isLeader = true := by
  cases r with
  | follower => simp at h
  | candidate => simp at h
  | leader n m => rfl

end Role

/-- What a node keeps behind its lock. -/
structure VariableState (A : Type) where
  role : Role A
  file : Option (Persistent A)
  persistent : Persistent A
  commitIndex : Nat

namespace VariableState

/-! Shorthands for the fields of `persistent`. -/

abbrev currentTerm (s : VariableState A) : Nat := s.persistent.currentTerm
abbrev votedFor (s : VariableState A) : Option A := s.persistent.votedFor
abbrev logs (s : VariableState A) : List Log := s.persistent.logs

@[simp] theorem currentTerm_mk (r : Role A) (f : Option (Persistent A)) (p : Persistent A)
    (c : Nat) : currentTerm ⟨r, f, p, c⟩ = p.currentTerm := rfl

@[simp] theorem votedFor_mk (r : Role A) (f : Option (Persistent A)) (p : Persistent A)
    (c : Nat) : votedFor ⟨r, f, p, c⟩ = p.votedFor := rfl

@[simp] theorem logs_mk (r : Role A) (f : Option (Persistent A)) (p : Persistent A)
    (c : Nat) : logs ⟨r, f, p, c⟩ = p.logs := rfl

end VariableState

/-! ## Errors and outcomes

How a handler ends, and the sequence of two parts of one. -/

/-- How an operation fails: an `anyhow` error with its text, the missing key of `"{addr} not
found"`, a failed file operation, or a panic. -/
inductive Error (A : Type)
  | message (text : String)
  | notFound (addr : A)
  | io
  | panic
deriving DecidableEq, Repr

/-- The state an operation leaves behind and what it returns.  An error does not undo the changes
made before it. -/
abbrev Outcome (A α : Type) := VariableState A × Except (Error A) α

variable {α β : Type}

/-- Sequencing with `?`: an error returns at once, in the state reached. -/
def Outcome.andThen (x : Outcome A α) (f : VariableState A → α → Outcome A β) : Outcome A β :=
  match x with
  | (s, .ok a) => f s a
  | (s, .error e) => (s, .error e)

@[simp] theorem Outcome.andThen_ok (s : VariableState A) (a : α)
    (f : VariableState A → α → Outcome A β) : Outcome.andThen (s, .ok a) f = f s a := rfl

@[simp] theorem Outcome.andThen_error (s : VariableState A) (e : Error A)
    (f : VariableState A → α → Outcome A β) :
    Outcome.andThen (s, .error e) f = (s, .error e) := rfl

/-! ## The file

What is saved, and what `from_file` makes of it. -/

/-- The outcome of the file operations of one `save_persistent`: all succeed, or one fails and the
file is left with the contents `left`. -/
inductive Disk (A : Type)
  | ok
  | err (left : Option (Persistent A))

/-- `VariableState::save_persistent`.  It goes to the beginning of the file, makes it as long as the
new text and writes the text; when all this succeeds, the text is all that is in the file. -/
def VariableState.savePersistent (s : VariableState A) : Disk A → Outcome A Unit
  | .ok => ({ s with file := some s.persistent }, .ok ())
  | .err left => ({ s with file := left }, .error .io)

/-- The entry every log begins with. -/
def initLog : Log := ⟨"init", 0⟩

/-- The persistent state `State::from_file` starts with when there is no file. -/
def Persistent.fresh : Persistent A := ⟨0, none, [initLog]⟩

/-- `State::from_file`: `none` is a path that does not exist, `some none` a file that does not
decode. -/
def fromFile : Option (Option (Persistent A)) → Except (Error A) (VariableState A)
  | some (some persistent) => .ok ⟨.follower, some persistent, persistent, 0⟩
  | some none => .error .io
  | none => .ok ⟨.follower, some .fresh, .fresh, 0⟩

/-- The state of a node started without a file. -/
def VariableState.init : VariableState A := ⟨.follower, some .fresh, .fresh, 0⟩

/-! ## The bodies of the RPCs

The messages, with the fields that the handlers read. -/

structure AppendEntriesRequest where
  term : Nat
  prevLogIndex : Nat
  prevLogTerm : Nat
  entries : List Log
  leaderCommit : Nat
deriving DecidableEq, Repr

structure AppendEntriesResponse where
  success : Bool
deriving DecidableEq, Repr

structure RequestVoteRequest (A : Type) where
  term : Nat
  candidateId : A
  lastLogIndex : Nat
  lastLogTerm : Nat
deriving DecidableEq, Repr

structure RequestVoteResponse where
  term : Nat
  voteGranted : Bool
deriving DecidableEq, Repr

end Raft
end DistributedPrograms
