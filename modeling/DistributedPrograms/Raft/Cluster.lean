import DistributedPrograms.Lib.Run
import DistributedPrograms.Raft.Calls

/-!
# A cluster of Raft nodes

The nodes, the RPCs on the wire and the steps of every task, one step for each stretch of code
between two points where another task can run.

* `launch` runs the `open_election` calls of a node one after another, so a node has at most one
  (`Node.election`).  Any number of `send_append_entries` calls, from the heartbeat task or from
  `post_log`, run side by side (`Node.rounds`).
* The futures of an election hold the read lock of the node while they wait.  `Node.free` says that
  nobody does; every step that needs the write lock asks for it.
* A request or a reply stays on the wire until it is delivered, which may be never, and in any
  order.  It is delivered at most once.  A reply finds its future through the connection it belongs
  to, here the call it answers, and a future that has given up takes no reply.  A handler that
  ends with an error sends a body the caller cannot decode; the caller's future then fails, which it
  may do at any time anyway.
-/

set_option autoImplicit false

namespace DistributedPrograms
namespace Raft

variable {A : Type} [DecidableEq A]

open VariableState

/-- A call of `open_election` whose election is on, with what it found at its start.  `id` tells it
from earlier elections of the node, so that a late reply finds the right futures or none. -/
structure Election (A : Type) where
  id : Nat
  term : Nat
  logs : List Log
  votes : A → Future (RequestVoteRequest A)

/-- A call of `send_append_entries` past its append, with what it found at its start; `ret` is what
it has returned in `Ok`. -/
structure Round (A : Type) where
  term : Nat
  base : Nat
  texts : List String
  peers : A → Future AppendEntriesRequest
  ret : Option Bool

/-- A node: its state, the number of elections it has opened, the one that is on, and its rounds,
finished ones included. -/
structure Node (A : Type) where
  state : VariableState A
  elections : Nat
  election : Option (Election A)
  rounds : List (Round A)

/-- A `RequestVote` RPC: the future of `callee` in the election `election` of `caller`. -/
structure VoteCall (A : Type) where
  caller : A
  election : Nat
  callee : A
  req : RequestVoteRequest A

/-- An `AppendEntries` RPC: the future of `callee` in the round `round` of `caller`. -/
structure AppendCall (A : Type) where
  caller : A
  round : Nat
  callee : A
  req : AppendEntriesRequest

/-- The future of `p` in an election changes to `f`. -/
def Election.setVote (e : Election A) (p : A) (f : Future (RequestVoteRequest A)) : Election A :=
  { e with votes := Function.update e.votes p f }

/-- The future of `p` in a round changes to `f`. -/
def Round.setPeer (rd : Round A) (p : A) (f : Future AppendEntriesRequest) : Round A :=
  { rd with peers := Function.update rd.peers p f }

/-- A round returns `Ok(b)`. -/
def Round.close (rd : Round A) (b : Bool) : Round A := { rd with ret := some b }

/-- Round `r` of a node changes to `rd`. -/
def Node.setRound (x : Node A) (r : Nat) (rd : Round A) : Node A :=
  { x with rounds := x.rounds.set r rd }

structure Cluster (A : Type) where
  node : A → Node A
  voteCalls : List (VoteCall A)
  voteReplies : List (VoteCall A × RequestVoteResponse)
  appendCalls : List (AppendCall A)
  appendReplies : List (AppendCall A × AppendEntriesResponse)

/-- Every node freshly started, nothing on the wire.  All of them are followers of term 0, with the
first entry in the log. -/
def Cluster.init : Cluster A :=
  ⟨fun _ => ⟨.init, 0, none, []⟩, [], [], [], []⟩

/-- The write lock can be taken: no future of an election holds the read lock.  Such a future holds
it across its RPC, so a node that waits for votes answers nobody. -/
def Node.free (servers : Finset A) (x : Node A) : Bool :=
  match x.election with
  | none => true
  | some e => decide (∀ p ∈ servers, (e.votes p).isWaiting = false)

/-- The steps of a cluster.  RPCs are named by their place in the list they wait in, rounds by
their number on the node. -/
inductive Action (A : Type)
  /-- `open_election` up to the first release of the lock. -/
  | openElection (n : A) (d : Disk A)
  /-- The future of `p` in the election of `n` starts. -/
  | askVote (n p : A)
  /-- A vote request is handled. -/
  | requestVote (k : Nat) (d₁ d₂ : Disk A)
  /-- A reply to a vote request reaches its future. -/
  | voteReply (k : Nat)
  /-- The future of `p` in the election of `n` gives up. -/
  | voteError (n p : A)
  /-- `open_election` from the count on. -/
  | countVotes (n : A) (d : Disk A)
  /-- `send_append_entries`, for a heartbeat or a `post_log`, up to where it first gives the lock
  back. -/
  | sendAppendEntries (n : A) (texts : List String) (d : Disk A)
  /-- The future of `p` in the round `r` of `n` starts. -/
  | sendRound (n : A) (r : Nat) (p : A)
  /-- An entries request is handled. -/
  | appendEntries (k : Nat) (d₁ d₂ : Disk A)
  /-- A reply to an entries request reaches its future. -/
  | appendReply (k : Nat)
  /-- The future of `p` in the round `r` of `n` gives up. -/
  | appendError (n : A) (r : Nat) (p : A)
  /-- `send_append_entries` from the count on. -/
  | closeRound (n : A) (r : Nat)

namespace Cluster

def setNode (c : Cluster A) (n : A) (x : Node A) : Cluster A :=
  { c with node := Function.update c.node n x }

@[simp] theorem setNode_self (c : Cluster A) (n : A) (x : Node A) : (c.setNode n x).node n = x := by
  simp [setNode]

theorem setNode_node (c : Cluster A) (n v : A) (x : Node A) :
    (c.setNode n x).node v = if v = n then x else c.node v := by
  simp [setNode, Function.update_apply]

@[simp] theorem setNode_of_ne (c : Cluster A) {n v : A} (x : Node A) (h : v ≠ n) :
    (c.setNode n x).node v = c.node v := by
  simp [setNode, h]

end Cluster

/-- The number of futures that ended with `Ok(true)`. -/
def countTrue {Req : Type} (servers : Finset A) (futures : A → Future Req) : Nat :=
  (servers.filter fun p => (futures p).succeeded = true).card

/-- The steps of a node's election. -/
def Cluster.electionStep (servers : Finset A) (c : Cluster A) (n : A) :
    Action A → Option (Cluster A)
  | .openElection _ d =>
    let x := c.node n
    if x.election.isNone then
      match openElectionStart x.state d with
      | (s, .ok true) =>
        some (c.setNode n { x with
          state := s
          elections := x.elections + 1
          election := some ⟨x.elections, s.currentTerm, s.logs, fun _ => .idle⟩ })
      | (s, _) => some (c.setNode n { x with state := s })
    else none
  | .askVote _ p =>
    let x := c.node n
    match x.election with
    | none => none
    | some e =>
      if p ∈ servers ∧ (e.votes p).isIdle = true then
        if p = n then
          some (c.setNode n { x with election := some (e.setVote p (.done none (some true))) })
        else
          let req := openElectionRequest n x.state
          let c' := c.setNode n { x with election := some (e.setVote p (.waiting req)) }
          some { c' with voteCalls := ⟨n, e.id, p, req⟩ :: c.voteCalls }
      else none
  | .voteError _ p =>
    let x := c.node n
    match x.election with
    | none => none
    | some e =>
      match e.votes p with
      | .waiting req =>
        some (c.setNode n { x with election := some (e.setVote p (.done (some req) none)) })
      | _ => none
  | .countVotes _ d =>
    let x := c.node n
    match x.election with
    | none => none
    | some e =>
      if ∀ p ∈ servers, (e.votes p).isDone = true then
        some (c.setNode n { x with
          state := (openElectionCount servers x.state (countTrue servers e.votes) d).1
          election := none })
      else none
  | _ => none

/-- The steps of a node's rounds. -/
def Cluster.roundStep (servers : Finset A) (c : Cluster A) (n : A) :
    Action A → Option (Cluster A)
  | .sendAppendEntries _ texts d =>
    let x := c.node n
    if x.free servers = true then
      match sendAppendEntriesAppend x.state texts d with
      | (s, .ok ()) =>
        some (c.setNode n { x with
          state := s
          rounds := x.rounds ++
            [⟨x.state.currentTerm, x.state.logs.length, texts, fun _ => .idle, none⟩] })
      | (s, .error _) => some (c.setNode n { x with state := s })
    else none
  | .sendRound _ r p =>
    let x := c.node n
    match x.rounds[r]? with
    | none => none
    | some rd =>
      if p ∈ servers ∧ (rd.peers p).isIdle = true then
        let o := sendAppendEntriesRequest n x.state p
        let c' := c.setNode n { x.setRound r (rd.setPeer p o.2) with state := o.1 }
        match o.2 with
        | .waiting req => some { c' with appendCalls := ⟨n, r, p, req⟩ :: c.appendCalls }
        | _ => some c'
      else none
  | .appendError _ r p =>
    let x := c.node n
    match x.rounds[r]? with
    | none => none
    | some rd =>
      match rd.peers p with
      | .waiting req => some (c.setNode n (x.setRound r (rd.setPeer p (.done (some req) none))))
      | _ => none
  | .closeRound _ r =>
    let x := c.node n
    match x.rounds[r]? with
    | none => none
    | some rd =>
      if rd.ret = none ∧ (∀ p ∈ servers, (rd.peers p).isDone = true) ∧
          (countTrue servers rd.peers * 2 > servers.card → x.free servers = true) then
        let o := sendAppendEntriesCommit servers x.state (countTrue servers rd.peers)
        some (c.setNode n { x.setRound r (rd.close o.2) with state := o.1 })
      else none
  | _ => none

/-- The steps of the RPCs on the wire. -/
def Cluster.deliver (servers : Finset A) (c : Cluster A) : Action A → Option (Cluster A)
  | .requestVote k d₁ d₂ =>
    match c.voteCalls[k]? with
    | none => none
    | some call =>
      let x := c.node call.callee
      if x.free servers = true then
        let o := requestVote x.state call.req d₁ d₂
        let c' := { c.setNode call.callee { x with state := o.1 } with
          voteCalls := c.voteCalls.eraseIdx k }
        match o.2 with
        | .ok res => some { c' with voteReplies := (call, res) :: c.voteReplies }
        | .error _ => some c'
      else none
  | .voteReply k =>
    match c.voteReplies[k]? with
    | none => none
    | some (call, res) =>
      let x := c.node call.caller
      match x.election with
      | none => none
      | some e =>
        match e.votes call.callee with
        | .waiting req =>
          if e.id = call.election then
            let f := .done (some req) (some res.voteGranted)
            let c' := c.setNode call.caller { x with election := some (e.setVote call.callee f) }
            some { c' with voteReplies := c.voteReplies.eraseIdx k }
          else none
        | _ => none
  | .appendEntries k d₁ d₂ =>
    match c.appendCalls[k]? with
    | none => none
    | some call =>
      let x := c.node call.callee
      if x.free servers = true then
        let o := appendEntries x.state call.req d₁ d₂
        let c' := { c.setNode call.callee { x with state := o.1 } with
          appendCalls := c.appendCalls.eraseIdx k }
        match o.2 with
        | .ok res => some { c' with appendReplies := (call, res) :: c.appendReplies }
        | .error _ => some c'
      else none
  | .appendReply k =>
    match c.appendReplies[k]? with
    | none => none
    | some (call, res) =>
      let x := c.node call.caller
      match x.rounds[call.round]? with
      | none => none
      | some rd =>
        match rd.peers call.callee with
        | .waiting req =>
          let o := sendAppendEntriesReply x.state call.callee res.success
          let f := .done (some req) (some o.2)
          let c' := c.setNode call.caller
            { x.setRound call.round (rd.setPeer call.callee f) with state := o.1 }
          some { c' with appendReplies := c.appendReplies.eraseIdx k }
        | _ => none
  | _ => none

/-- One step of a cluster whose nodes are configured with `servers`.  A step is `none` where it
cannot be taken: the future does not stand there, the RPC is not on the wire, or the lock is
held. -/
def Cluster.step (servers : Finset A) (c : Cluster A) (a : Action A) : Option (Cluster A) :=
  match a with
  | .openElection n _ => c.electionStep servers n a
  | .askVote n _ => c.electionStep servers n a
  | .voteError n _ => c.electionStep servers n a
  | .countVotes n _ => c.electionStep servers n a
  | .sendAppendEntries n _ _ => c.roundStep servers n a
  | .sendRound n _ _ => c.roundStep servers n a
  | .appendError n _ _ => c.roundStep servers n a
  | .closeRound n _ => c.roundStep servers n a
  | .requestVote _ _ _ => c.deliver servers a
  | .voteReply _ => c.deliver servers a
  | .appendEntries _ _ _ => c.deliver servers a
  | .appendReply _ => c.deliver servers a

end Raft
end DistributedPrograms
