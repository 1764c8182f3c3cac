import DistributedPrograms.Ring.Node
import Mathlib.Logic.Function.Basic

/-!
# Tokens on the ring

`list`, `election` and `coordinate` send a token backwards around the ring: a node that does not
find itself on the token adds itself and relays it to its `prev`, and a node that does stops the
round and starts what comes next: the announcement of the members after `list`, a `coordinate` round
after `election`, nothing after `coordinate`.

`Node.handle` has the three handlers in one place, with what they send.  A `list` token also makes a
coordinator resign that is not the least of those listed, and a `coordinate` token sets the flag of
the node it comes to, to whether it is the least.  An announcement is a list of nodes that are still
to be called, and whoever is called stores the members.

`Tokens` are the nodes and everything that is on its way; `Tokens.step` starts a round or delivers
one message, in any order.  Any node may start an election at any time, a flagged node a list round.
That covers the timers of the source, whose lengths play no part.

The relaying tasks are spawned, so that a handler has returned before its token is sent on.  Nothing
waits for an answer, and a message on its way is all there is of such a task.  The calls here
arrive; calls that fail, and what is done about them, belong to the modules on recovery.
-/

set_option autoImplicit false

namespace DistributedPrograms
namespace Ring

open SocketAddr

/-- A token, as the request that carries it. -/
inductive Token where
  | list (addresses : List String)
  | election (addresses : List String)
  | coordinate (addresses read : List String)
  deriving DecidableEq, Repr

/-- What is on its way. -/
inductive Message (A : Type) where
  | token (dest : A) (token : Token)
  /-- the task of `announce_in_background`, with the addresses it has not called yet -/
  | announce (rest addresses : List String)
  deriving DecidableEq, Repr

/-- The handlers `list`, `election` and `coordinate` of the node `me`, with what they send. -/
def Node.handle {A : Type} [SocketAddr A] (n : Node A) (me : A) : Token → Node A × List (Message A)
  | .list addresses =>
    if toString me ∉ addresses then
      (n.relayList me addresses,
        [.token n.connection.prev (.list (addresses ++ [toString me]))])
    else (n, [.announce addresses addresses])
  | .election addresses =>
    if toString me ∉ addresses then
      (n, [.token n.connection.prev (.election (addresses ++ [toString me]))])
    else (n, [.token n.connection.prev (.coordinate addresses ([] ++ [toString me]))])
  | .coordinate addresses read =>
    (n.coordinate me addresses,
      if toString me ∉ read then
        [.token n.connection.prev (.coordinate addresses (read ++ [toString me]))]
      else [])

/-- The nodes, and what is on its way. -/
structure Tokens (A : Type) where
  node : A → Node A
  flight : List (Message A)

inductive TokenAction (A : Type) where
  /-- the watcher of `n` starts an election -/
  | startElection (n : A)
  /-- the coordinator `n` starts a list round -/
  | startList (n : A)
  /-- the `i`-th message on its way arrives -/
  | deliver (i : Nat)
  deriving DecidableEq, Repr

namespace Tokens

variable {A : Type} [DecidableEq A] [SocketAddr A]

/-- `n` takes itself for the coordinator. -/
def Flagged (c : Tokens A) (n : A) : Prop := (c.node n).amICoordinator = true

instance (c : Tokens A) (n : A) : Decidable (c.Flagged n) := by unfold Flagged; infer_instance

def setNode (c : Tokens A) (a : A) (n : Node A) : Tokens A :=
  { c with node := Function.update c.node a n }

/-- The message `m`, taken from its place `i`, arrives. -/
def receive (c : Tokens A) (i : Nat) : Message A → Tokens A
  | .token dest token =>
    let (n, out) := (c.node dest).handle dest token
    { node := Function.update c.node dest n, flight := c.flight.eraseIdx i ++ out }
  | .announce [] _ => { c with flight := c.flight.eraseIdx i }
  | .announce (address :: rest) addresses =>
    let c := { c with flight := c.flight.eraseIdx i ++ [.announce rest addresses] }
    match parse address with
    | some a => c.setNode a ((c.node a).connectionAnnounce addresses)
    | none => c

/-- One step of the ring `ring`. -/
def step (ring : List A) (c : Tokens A) : TokenAction A → Option (Tokens A)
  | .startElection n =>
    if n ∈ ring then
      some { c with flight := c.flight ++
        [.token (c.node n).connection.prev (.election [toString n])] }
    else none
  | .startList n =>
    if n ∈ ring ∧ c.Flagged n then
      some { c with flight := c.flight ++
        [.token (c.node n).connection.prev (.list [toString n])] }
    else none
  | .deliver i => (c.flight[i]?).map (c.receive i)

/-- The `i`-th message is a `coordinate` token that arrives where it has been: its round is
complete. -/
def Completes (c : Tokens A) (i : Nat) : Prop :=
  match c.flight[i]? with
  | some (.token dest (.coordinate _ read)) => toString dest ∈ read
  | _ => False

instance (c : Tokens A) (i : Nat) : Decidable (c.Completes i) := by
  rw [Completes]
  split <;> infer_instance

end Tokens

end Ring
end DistributedPrograms
