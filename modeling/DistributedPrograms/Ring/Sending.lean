import DistributedPrograms.Ring.Token

/-!
# Sends to `prev` and what follows when they fail

A token is sent from five places: the three relays, each in a task of its own, and the two loops of
`main`.  Every one connects to `prev`, calls it, and has something to do when the connection or the
call fails: a relay runs `recovery_prev`, a loop of `main` logs it and goes on.

* `Site` names the five places, and `Site.recovers` says where a failure is followed by a recovery.
* A `Sender` is one send with its token, and `Stage` says how far it has come: connected, searching
  through the cache after a failure, linked to its new `prev`, or over.  A relay sends from a task
  that has been spawned, so a node may have any number of these; a loop of `main` does not start a
  second send while its first is under way (`Free`).
* An announcement is a list of addresses still to be called, without an owner.

`Sending.step` moves one send, one recovery or one announcement at a time, in any order.  The nodes
that have crashed stay so.  They do not answer, but a connection may have been made before the
crash, so that either the connection or the call is what fails.

A call is one step, from its request to its answer.  What becomes of a request whose sender crashes
before the answer is the subject of a later module.

`Repaired` is what the recoveries are for: whoever found its `prev` dead, and has done all that
follows, has a live one.  `GivesUp` marks the steps in which a loop of `main` meets a failure and
only logs it.
-/

set_option autoImplicit false

namespace DistributedPrograms
namespace Ring

open SocketAddr

/-! ## Senders

The connection is remembered in a stage of its own, because a node may die between the connection
and the call. -/

/-- Where a token is sent from: by a relay of one of the three kinds, or by one of the two loops of
`main`. -/
inductive Site where
  | relayList
  | relayElection
  | relayCoordinate
  | coordinatorWatcher
  | coordinate
  deriving DecidableEq, Repr

/-- Whether a failure there is followed by `recovery_prev`.  The loops of `main` only write a
warning. -/
def Site.recovers : Site → Bool
  | .relayList | .relayElection | .relayCoordinate => true
  | .coordinatorWatcher | .coordinate => false

/-- How far a send has come.  It reads `prev`, connects, calls, and where this fails may search its
cache; other tasks go on between any two of these. -/
inductive Stage (A : Type) where
  /-- about to read `prev` and to connect to it -/
  | spawned
  /-- connected to `dest`, about to call it -/
  | connected (dest : A)
  /-- at round `i` of the loop of `recovery_prev`, from the own place `myIdx` in the cache -/
  | searching (myIdx i : Nat)
  /-- `set_next` succeeded on `prev` -/
  | linked (prev : A)
  /-- over, with what follows on a failure -/
  | done (failed : Bool)
  deriving DecidableEq, Repr

def Stage.isDone {A : Type} : Stage A → Bool
  | .done _ => true
  | _ => false

structure Sender (A : Type) where
  me : A
  site : Site
  token : Token
  /-- the clone of `ring_cache` that a relay takes before its task is spawned -/
  memberCache : List String
  stage : Stage A
  deriving DecidableEq, Repr

/-- The relay that carries a token on. -/
def Token.relay : Token → Site
  | .list _ => .relayList
  | .election _ => .relayElection
  | .coordinate _ _ => .relayCoordinate

namespace Sender

variable {A : Type} [SocketAddr A]

/-- The task that a relay of `me` spawns. -/
def relay (me : A) (memberCache : List String) (token : Token) : Sender A :=
  { me, site := token.relay, token, memberCache, stage := .spawned }

/-- The election that the watcher of `me` starts when no `list` has come for three seconds. -/
def coordinatorWatcher (me : A) : Sender A :=
  { me, site := .coordinatorWatcher, token := .election [toString me], memberCache := [],
    stage := .spawned }

/-- The `list` round that the coordinator `me` starts every two seconds. -/
def coordinate (me : A) : Sender A :=
  { me, site := .coordinate, token := .list [toString me], memberCache := [], stage := .spawned }

/-- Where a sender goes on when its connection or its call has failed: to the loop of
`recovery_prev`, if it finds itself in the cache, or to the end. -/
def followUp (t : Sender A) : Stage A :=
  if t.site.recovers then
    match Node.myIdxInMemberCache t.memberCache t.me with
    | some myIdx => .searching myIdx 0
    | none => .done true
  else .done true

end Sender

/-! ## State

The nodes, what their tasks are about to do, and the announcements. -/

/-- The nodes, their sends, and the announcements: the addresses not called yet, and all. -/
structure Sending (A : Type) where
  node : A → Node A
  senders : List (Sender A)
  announcing : List (List String × List String)

inductive SendAction (A : Type) where
  /-- the watcher of `n` times out -/
  | watch (n : A)
  /-- the `coordinate` loop of `n` comes round -/
  | coordinate (n : A)
  /-- sender `i` connects; `early` if that was before `prev` crashed -/
  | connect (i : Nat) (early : Bool)
  /-- sender `i` calls -/
  | call (i : Nat)
  /-- sender `i` goes through one round of the loop of `recovery_prev` -/
  | tryNext (i : Nat)
  /-- sender `i` writes `prev` and leaves the loop -/
  | finish (i : Nat)
  /-- the `i`-th announcement calls its next address -/
  | announce (i : Nat)
  deriving DecidableEq, Repr

namespace Sending

variable {A : Type} [DecidableEq A]

def prev (c : Sending A) (a : A) : A := (c.node a).connection.prev

def setNode (c : Sending A) (a : A) (n : Node A) : Sending A :=
  { c with node := Function.update c.node a n }

def setStage (c : Sending A) (i : Nat) (t : Sender A) (stage : Stage A) : Sending A :=
  { c with senders := c.senders.set i { t with stage } }

/-- The loop of `n` at `site` does not wait for a send. -/
def Free (c : Sending A) (n : A) (site : Site) : Prop :=
  ∀ t ∈ c.senders, t.me = n → t.site = site → t.stage.isDone = true

instance (c : Sending A) (n : A) (site : Site) : Decidable (c.Free n site) := by
  unfold Free; infer_instance

variable [SocketAddr A]

/-- The handler of `dest` runs on a token, and spawns a relay or an announcement. -/
def deliver (c : Sending A) (dest : A) (token : Token) : Sending A :=
  let memberCache := (c.node dest).ringCache
  let (n, out) := (c.node dest).handle dest token
  { node := Function.update c.node dest n
    senders := c.senders ++ out.filterMap fun
      | .token _ token => some (.relay dest memberCache token)
      | .announce _ _ => none
    announcing := c.announcing ++ out.filterMap fun
      | .token _ _ => none
      | .announce rest addresses => some (rest, addresses) }

/-- One step of the ring `ring`, of which the nodes outside `alive` have crashed. -/
def step (ring : List A) (alive : A → Bool) (c : Sending A) : SendAction A → Option (Sending A)
  | .watch n =>
    if n ∈ ring ∧ alive n ∧ c.Free n .coordinatorWatcher then
      some { c with senders := c.senders ++ [.coordinatorWatcher n] }
    else none
  | .coordinate n =>
    if n ∈ ring ∧ alive n ∧ (c.node n).amICoordinator ∧ c.Free n .coordinate then
      some { c with senders := c.senders ++ [.coordinate n] }
    else none
  | .connect i early => do
    let t ← c.senders[i]?
    match t.stage with
    | .spawned =>
      let dest := c.prev t.me
      some (c.setStage i t (if alive dest || early then .connected dest else t.followUp))
    | _ => none
  | .call i => do
    let t ← c.senders[i]?
    match t.stage with
    | .connected dest =>
      if alive dest then some ((c.setStage i t (.done false)).deliver dest t.token)
      else some (c.setStage i t t.followUp)
    | _ => none
  | .tryNext i => do
    let t ← c.senders[i]?
    match t.stage with
    | .searching myIdx k =>
      if k < t.memberCache.length then
        match Node.candidate t.memberCache myIdx k with
        | some prev =>
          if alive prev then do
            let n ← (c.node prev).setNext (toString t.me)
            return (c.setNode prev n).setStage i t (.linked prev)
          else some (c.setStage i t (.searching myIdx (k + 1)))
        | none => some (c.setStage i t (.searching myIdx (k + 1)))
      else some (c.setStage i t (.done true))
    | _ => none
  | .finish i => do
    let t ← c.senders[i]?
    match t.stage with
    | .linked prev =>
      some ((c.setNode t.me ((c.node t.me).recoverPrev prev)).setStage i t (.done true))
    | _ => none
  | .announce i => do
    let (rest, addresses) ← c.announcing[i]?
    match rest with
    | [] => some { c with announcing := c.announcing.eraseIdx i }
    | address :: rest =>
      let c := { c with announcing := c.announcing.set i (rest, addresses) }
      match parse address with
      | some a =>
        if alive a then some (c.setNode a ((c.node a).connectionAnnounce addresses)) else some c
      | none => some c

/-! ## What is repaired, and what is given up

By whom a dead `prev` has been detected, and what has been done about it. -/

/-- Whoever found its `prev` dead, and has done all that follows, has a live `prev`. -/
def Repaired (alive : A → Bool) (c : Sending A) : Prop :=
  ∀ t ∈ c.senders, t.stage = .done true → alive (c.prev t.me) = true

instance (alive : A → Bool) (c : Sending A) : Decidable (c.Repaired alive) := by
  unfold Repaired; infer_instance

/-- The connection or the call of `t` fails in this step. -/
def Fails (alive : A → Bool) (c : Sending A) (t : Sender A) : SendAction A → Bool
  | .connect _ early => t.stage == .spawned && !early && !alive (c.prev t.me)
  | .call _ =>
    match t.stage with
    | .connected dest => !alive dest
    | _ => false
  | _ => false

/-- In this step a loop of `main` meets a failure, at a node whose `prev` is dead. -/
def GivesUp (alive : A → Bool) (c : Sending A) (act : SendAction A) : Prop :=
  match act with
  | .connect i _ | .call i => ∃ t ∈ c.senders[i]?, t.site.recovers = false ∧
      c.Fails alive t act ∧ alive (c.prev t.me) = false
  | _ => False

instance (alive : A → Bool) (c : Sending A) (act : SendAction A) :
    Decidable (c.GivesUp alive act) := by
  cases act <;> unfold GivesUp <;> infer_instance

end Sending

end Ring
end DistributedPrograms
