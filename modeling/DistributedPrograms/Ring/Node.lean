import DistributedPrograms.Lib.Cycle
import Mathlib.Data.String.Basic
import Mathlib.Data.List.Basic

/-!
# A node of the ring

The state of one node of `ring-rs/src/main.rs` and what its handlers do to it.  A handler is a
function of the node and the request; where the source goes on after a call to another node, or in a
spawned task, the function returns what the rest needs, and the modules on joins, tokens and
recovery put the parts together.

* **Joining.** `join_impl` is cut at its locks and its call: `joinImplRead` reads `prev`,
  `joinImplSwap` exchanges it and returns the old one, to which `set_next` is sent, and
  `joinImplRollback` puts back what was read.  The guard of `join_lock` is bound to `_` and dropped
  at once, so nothing is held in between.
* **Tokens.** `checkAmICoordinator` compares addresses as strings, as the source does.  `relayList`,
  `coordinate` and `connectionAnnounce` are the writes of the handlers.
* **Recovery.** `myIdxInMemberCache` and `candidate` are the places that `recovery_prev` looks up in
  its cache, and `recoverPrev` is its last write.

Addresses travel as strings.  `SocketAddr` has the two conversions of the standard library and the
one fact the code relies on: what was printed parses back.  A string that nobody has printed may
parse to anything, or not at all; the handlers then answer an error and change nothing.

`WellFormed` is what the nodes of a ring are to be: `prev` leads once around them, and `next` leads
back.
-/

set_option autoImplicit false

namespace DistributedPrograms
namespace Ring

/-! ## Addresses

Strings on the wire, and addresses in memory. -/

/-- Socket addresses: `to_string` and `parse`.  Nothing more is known of them than that an address
is parsed back from its string. -/
class SocketAddr (A : Type) where
  toString : A → String
  parse : String → Option A
  parse_toString : ∀ a, parse (toString a) = some a

namespace SocketAddr

attribute [simp] parse_toString

variable {A : Type} [SocketAddr A]

theorem toString_injective : Function.Injective (toString : A → String) := by
  intro a b hab
  have hparse := congrArg (parse : String → Option A) hab
  rwa [parse_toString, parse_toString, Option.some.injEq] at hparse

@[simp] theorem toString_inj {a b : A} : toString a = toString b ↔ a = b :=
  toString_injective.eq_iff

@[simp] theorem toString_mem_map {a : A} {l : List A} : toString a ∈ l.map toString ↔ a ∈ l :=
  List.mem_map_of_injective toString_injective

/-- Four addresses of one host, for rings that are run. -/
instance : SocketAddr (Fin 4) where
  toString a :=
    ["127.0.0.1:50000", "127.0.0.1:50001", "127.0.0.1:50002", "127.0.0.1:50003"].get a
  parse s :=
    ["127.0.0.1:50000", "127.0.0.1:50001", "127.0.0.1:50002", "127.0.0.1:50003"].finIdxOf? s
  parse_toString := by decide

end SocketAddr

open SocketAddr

/-! ## State

What a node knows of the ring. -/

structure Connection (A : Type) where
  prev : A
  next : A
  deriving DecidableEq, Repr

/-- The state behind the locks of a `Ring`.  Its own address `me` is no part of it; it is the index
under which the node is found. -/
structure Node (A : Type) where
  connection : Connection A
  amICoordinator : Bool
  ringCache : List String
  deriving DecidableEq, Repr

namespace Node

variable {A : Type} [SocketAddr A]

/-- A node before it joins: connected to itself. -/
def new (me : A) : Node A where
  connection := { prev := me, next := me }
  amICoordinator := false
  ringCache := []

/-! ## Joining

The writes of the handlers for joining and leaving. -/

/-- `join_impl` up to the call of `join_impl_no_rollback`.  The guard of `join_lock` is bound to
`_`, so it is dropped at once and nothing is held from here on. -/
def joinImplRead (n : Node A) : A := n.connection.prev

/-- `join_impl_no_rollback` up to its call: the old `prev`, which is where `set_next` is sent, and
the node after the write.  `none` if the new address does not parse. -/
def joinImplSwap (n : Node A) (newPrev : String) : Option (A × Node A) := do
  let newPrev ← parse newPrev
  return (n.connection.prev, { n with connection := { n.connection with prev := newPrev } })

/-- The write of `join_impl` after `join_impl_no_rollback` has failed. -/
def joinImplRollback (n : Node A) (oldPrev : A) : Node A :=
  { n with connection := { n.connection with prev := oldPrev } }

/-- The handler `set_next`; `none` if the address does not parse and nothing is changed. -/
def setNext (n : Node A) (address : String) : Option (Node A) := do
  let nextAddr ← parse address
  return { n with connection := { n.connection with next := nextAddr } }

/-- The handler `set_prev`; `none` if the address does not parse and nothing is changed. -/
def setPrev (n : Node A) (address : String) : Option (Node A) := do
  let prevAddr ← parse address
  return { n with connection := { n.connection with prev := prevAddr } }

/-- What a joining node does with the answer of `next`.  `none` if the answer does not parse: `main`
then returns the error and the node is gone. -/
def handleJoinResponse (n : Node A) (next : A) (prev : String) : Option (Node A) := do
  let prev ← parse prev
  return { n with connection := { prev, next } }

/-! ## Tokens

The writes of the three rounds. -/

/-- No listed address comes before `me`, as strings are compared.  It is true of an empty list. -/
def checkAmICoordinator (addresses : List String) (me : String) : Bool :=
  addresses.all fun address => me ≤ address

/-- The part of `relay_list_rpc_in_background` before the task is spawned: a node that is not the
coordinator of these addresses resigns. -/
def relayList (n : Node A) (me : A) (addresses : List String) : Node A :=
  if !checkAmICoordinator addresses (toString me) then { n with amICoordinator := false } else n

/-- The write of `coordinate`. -/
def coordinate (n : Node A) (me : A) (addresses : List String) : Node A :=
  { n with amICoordinator := checkAmICoordinator addresses (toString me) }

def connectionAnnounce (n : Node A) (addresses : List String) : Node A :=
  { n with ringCache := addresses }

/-! ## Recovery

What `recovery_prev` reads and writes. -/

/-- The place of a node in a cache, as `recovery_prev` looks it up. -/
def myIdxInMemberCache (memberCache : List String) (me : A) : Option Nat :=
  memberCache.findIdx? (· == toString me)

/-- The candidate that `recovery_prev` tries in round `i`: the entries behind the own one, and
around the end of the cache.  The last of them is the node itself. -/
def candidate (memberCache : List String) (myIdx i : Nat) : Option A := do
  let address ← memberCache[(myIdx + i + 1) % memberCache.length]?
  parse address

/-- The write of `recovery_prev` after `set_next` succeeded. -/
def recoverPrev (n : Node A) (prev : A) : Node A :=
  { n with connection := { n.connection with prev } }

end Node

/-! ## Well-formed rings

What the ring is to be, when nothing is under way. -/

/-- `prev` leads once around the nodes of `l`, and `next` leads back.  The list begins with any of
them. -/
structure WellFormed {A : Type} (node : A → Node A) (l : List A) : Prop where
  cycle : CycleOn (fun a => (node a).connection.prev) l
  next_prev : ∀ a ∈ l, (node (node a).connection.prev).connection.next = a

/-- In a well-formed ring `prev` also leads back from `next`. -/
theorem WellFormed.prev_next {A : Type} {node : A → Node A} {l : List A} (h : WellFormed node l) :
    ∀ a ∈ l, (node (node a).connection.next).connection.prev = a := by
  intro a ha
  obtain ⟨b, hb, rfl⟩ := h.cycle.exists_eq ha
  exact congrArg (fun x => (node x).connection.prev) (h.next_prev b hb)

end Ring
end DistributedPrograms
