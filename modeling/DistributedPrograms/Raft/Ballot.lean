import DistributedPrograms.Lib.Possible
import DistributedPrograms.Raft.ElectionSafety

/-!
# An election as a whole

`Cluster.step` lets an election go on future by future, with anything else in between.  Here nothing
else happens: `Possible.election` runs `open_election` of a follower from its sleep to its count,
and says where it leaves every node.  How far the calls to the other servers get is a choice
(`Reach`): the request is lost, or its reply, or neither.

This is the forward direction.  The inversion lemmas of `Raft.Steps` say what a step was; here the
lemmas `do_…` say that a step can be taken, with its guards as hypotheses, and what the cluster is
after it.  They are put together in three layers:

* one future from its start to its end (`Possible.poll`), which leaves the peer as `Reach.peer` says
  and ends with `Reach.vote`;
* all futures, one after the other (`Possible.ballot`), by induction on the set of servers;
  `Reach.partway` and `Reach.polled` are the election and the nodes in the midst of it;
* the start before it and the count behind it (`Possible.election`, `Elected`).

With `Reach` as a parameter, the elections that nobody hears of, and the one that everybody votes
in, are two uses of one theorem.
-/

set_option autoImplicit false

namespace DistributedPrograms
namespace Raft

variable {A : Type} [DecidableEq A] {servers : Finset A} {c : Cluster A} {n p : A} {e : Election A}

open VariableState

/-! ## The steps of an election, forwards

That a step can be taken, and where it leads; the inversion lemmas are the other direction. -/

variable {x : Node A} {req : RequestVoteRequest A}

theorem do_askVote (hx : c.node n = x) (he : x.election = some e) (hp : p ∈ servers)
    (hidle : e.votes p = .idle) :
    c.step servers (.askVote n p) = some (if p = n then
      c.setNode n { x with election := some (e.setVote p (.done none (some true))) }
    else { c.setNode n { x with
        election := some (e.setVote p (.waiting (openElectionRequest n x.state))) } with
      voteCalls := ⟨n, e.id, p, openElectionRequest n x.state⟩ :: c.voteCalls }) := by
  simp only [Cluster.step, Cluster.electionStep, hx, he]
  rw [if_pos ⟨hp, Future.isIdle_iff.2 hidle⟩]
  split <;> rfl

theorem do_voteError (hx : c.node n = x) (he : x.election = some e)
    (hwait : e.votes p = .waiting req) : c.step servers (.voteError n p) =
      some (c.setNode n { x with election := some (e.setVote p (.done (some req) none)) }) := by
  simp only [Cluster.step, Cluster.electionStep, hx, he, hwait]

theorem do_countVotes (hx : c.node n = x) (he : x.election = some e)
    (hdone : ∀ p ∈ servers, (e.votes p).isDone = true) : c.step servers (.countVotes n .ok) =
      some (c.setNode n { x with
        state := (openElectionCount servers x.state (countTrue servers e.votes) .ok).1
        election := none }) := by
  simp only [Cluster.step, Cluster.electionStep, hx, he]
  rw [if_pos hdone]

theorem do_requestVote {call : VoteCall A} {calls : List (VoteCall A)}
    {res : RequestVoteResponse} (hcalls : c.voteCalls = call :: calls)
    (hx : c.node call.callee = x) (hfree : x.free servers = true)
    (hres : (requestVote x.state call.req .ok .ok).2 = .ok res) :
    c.step servers (.requestVote 0 .ok .ok) =
      some { c.setNode call.callee { x with state := (requestVote x.state call.req .ok .ok).1 } with
        voteCalls := calls
        voteReplies := (call, res) :: c.voteReplies } := by
  simp only [Cluster.step, Cluster.deliver, hcalls, hx, List.getElem?_cons_zero, hres,
    List.eraseIdx_cons_zero]
  rw [if_pos hfree]

theorem do_voteReply {call : VoteCall A} {res : RequestVoteResponse}
    {replies : List (VoteCall A × RequestVoteResponse)}
    (hreplies : c.voteReplies = (call, res) :: replies) (hx : c.node call.caller = x)
    (he : x.election = some e) (hwait : e.votes call.callee = .waiting req)
    (hid : e.id = call.election) : c.step servers (.voteReply 0) =
      some { c.setNode call.caller { x with
          election := some (e.setVote call.callee (.done (some req) (some res.voteGranted))) } with
        voteReplies := replies } := by
  simp only [Cluster.step, Cluster.deliver, hreplies, hx, List.getElem?_cons_zero, he, hwait,
    List.eraseIdx_cons_zero]
  rw [if_pos hid]

/-! ## One future

From its request to its end, as far as its RPC gets. -/

/-- How far the RPC of a future gets: it is lost on the way, or its answer is lost, or the answer
arrives. -/
inductive Reach where
  | lost
  | heard
  | answered
deriving DecidableEq

/-- What the future ends with. -/
def Reach.vote (how : Reach) (s : VariableState A) (req : RequestVoteRequest A) :
    Future (RequestVoteRequest A) :=
  .done (some req) <|
    match how with
    | .lost | .heard => none
    | .answered =>
      match (requestVote s req .ok .ok).2 with
      | .ok res => some res.voteGranted
      | .error _ => none

/-- What becomes of the peer. -/
def Reach.peer (how : Reach) (x : Node A) (req : RequestVoteRequest A) : Node A :=
  match how with
  | .lost => x
  | .heard | .answered => { x with state := (requestVote x.state req .ok .ok).1 }

theorem Election.setVote_setVote (e : Election A) (p : A) (f g : Future (RequestVoteRequest A)) :
    (e.setVote p f).setVote p g = e.setVote p g := by
  simp only [Election.setVote, Function.update_idem]

theorem Election.setVote_votes (e : Election A) (p : A) (f : Future (RequestVoteRequest A)) :
    (e.setVote p f).votes p = f :=
  Function.update_self ..

theorem Election.setVote_votes_of_ne (e : Election A) {p q : A} (h : q ≠ p)
    (f : Future (RequestVoteRequest A)) : (e.setVote p f).votes q = e.votes q :=
  Function.update_of_ne h ..

theorem Reach.vote_of_ne {how : Reach} (hhow : how ≠ .answered) (s : VariableState A)
    (req : RequestVoteRequest A) : how.vote s req = .done (some req) none := by
  cases how with
  | lost | heard => rfl
  | answered => exact absurd rfl hhow

/-- A future of an election runs from its start to its end. -/
theorem Possible.poll (how : Reach) {y : Node A} (hx : c.node n = x) (hy : c.node p = y)
    (he : x.election = some e) (hp : p ∈ servers) (hne : p ≠ n) (hidle : e.votes p = .idle)
    (hfree : how ≠ .lost → y.free servers = true) (hreq : openElectionRequest n x.state = req) :
    Possible (Cluster.step servers) NoWrap (fun c' => c'.node =
      Function.update (Function.update c.node p (how.peer y req)) n
        { x with election := some (e.setVote p (how.vote y.state req)) }) c := by
  -- the request goes on the wire
  have hask : c.step servers (.askVote n p) = _ := do_askVote hx he hp hidle
  rw [if_neg hne, hreq] at hask
  refine .next (a := .askVote n p) trivial hask ?_
  have hpeer : ∀ s : Cluster A, s.node = (c.setNode n { x with
      election := some (e.setVote p (.waiting req)) }).node → s.node p = y := by
    intro s hs
    rw [hs, Cluster.setNode_of_ne _ _ hne, hy]
  have hcaller : ∀ (node : A → Node A) (s : Cluster A), s.node = Function.update node n
      { x with election := some (e.setVote p (.waiting req)) } →
      s.node n = { x with election := some (e.setVote p (.waiting req)) } := by
    intro node s hs
    rw [hs, Function.update_self]
  -- the future that waits for it gives up
  have hgiveUp : how ≠ .answered → ∀ s : Cluster A, s.node =
      Function.update (Function.update c.node p (how.peer y req)) n
        { x with election := some (e.setVote p (.waiting req)) } →
      Possible (Cluster.step servers) NoWrap (fun c' => c'.node =
        Function.update (Function.update c.node p (how.peer y req)) n
          { x with election := some (e.setVote p (how.vote y.state req)) }) s := by
    intro hhow s hs
    refine .one (a := .voteError n p) trivial
      (do_voteError (hcaller _ s hs) rfl (e.setVote_votes p _)) ?_
    rw [Reach.vote_of_ne hhow, Cluster.setNode, hs, Function.update_idem,
      Election.setVote_setVote]
  cases how with
  | lost =>
    refine hgiveUp (by decide) _ ?_
    rw [Reach.peer, ← hy, Function.update_eq_self]
    rfl
  | heard =>
    obtain ⟨res, hres⟩ := requestVote_answers y.state req
    refine .next (a := .requestVote 0 .ok .ok) trivial
      (do_requestVote rfl (hpeer _ rfl) (hfree (by decide)) hres) (hgiveUp (by decide) _ ?_)
    exact Function.update_comm hne.symm ..
  | answered =>
    obtain ⟨res, hres⟩ := requestVote_answers y.state req
    refine .next (a := .requestVote 0 .ok .ok) trivial
      (do_requestVote rfl (hpeer _ rfl) (hfree (by decide)) hres) ?_
    have hnode : Function.update (Function.update c.node n { x with
          election := some (e.setVote p (.waiting req)) }) p (Reach.answered.peer y req) =
        Function.update (Function.update c.node p (Reach.answered.peer y req)) n { x with
          election := some (e.setVote p (.waiting req)) } := Function.update_comm hne.symm _ _ _
    have hvote : Reach.answered.vote y.state req = .done (some req) (some res.voteGranted) := by
      simp only [Reach.vote, hres]
    refine .one (a := .voteReply 0) trivial (do_voteReply rfl
      ((congrFun hnode n).trans (Function.update_self ..)) rfl (e.setVote_votes p _) rfl) ?_
    refine (congrArg (Function.update · n _) hnode).trans ?_
    rw [Function.update_idem, Election.setVote_setVote, hvote]

/-! ## One election

The candidate keeps the read lock while its futures run, so nothing but the replies can reach it,
and its term and log are those of its requests. -/

omit [DecidableEq A] in
theorem openElectionStart_saved {s : VariableState A} (hrole : s.role = .follower) :
    openElectionStart s .ok = (⟨.candidate, some ⟨wrappingSucc s.currentTerm, s.votedFor, s.logs⟩,
      ⟨wrappingSucc s.currentTerm, none, s.logs⟩, s.commitIndex⟩, .ok true) := by
  rw [openElectionStart, hrole]
  rfl

/-- The state of a follower that has become candidate. -/
def candidacy (s : VariableState A) : VariableState A := (openElectionStart s .ok).1

omit [DecidableEq A] in
theorem candidacy_spec {s : VariableState A} (hrole : s.role = .follower) :
    (candidacy s).role = .candidate ∧ (candidacy s).logs = s.logs ∧
      (candidacy s).currentTerm = wrappingSucc s.currentTerm := by
  rw [candidacy, openElectionStart_saved hrole]
  exact ⟨rfl, rfl, rfl⟩

theorem do_openElection (hx : c.node n = x) (hrole : x.state.role = .follower)
    (hnone : x.election = none) : c.step servers (.openElection n .ok) =
      some (c.setNode n { x with
        state := candidacy x.state
        elections := x.elections + 1
        election := some ⟨x.elections, (candidacy x.state).currentTerm, (candidacy x.state).logs,
          fun _ => .idle⟩ }) := by
  have hstart := openElectionStart_saved hrole
  simp only [Cluster.step, Cluster.electionStep, hx, hnone, Option.isNone_none, if_true, candidacy,
    hstart]

/-- What the future for `p` ends with. -/
def Reach.votes (how : Reach) (node : A → Node A) (n : A) (req : RequestVoteRequest A) (p : A) :
    Future (RequestVoteRequest A) :=
  if p = n then .done none (some true) else how.vote (node p).state req

/-- The election `e` when the futures for `S` are over, and the others have not started yet. -/
def Reach.partway (how : Reach) (node : A → Node A) (n : A) (e : Election A)
    (req : RequestVoteRequest A) (S : Finset A) : Election A :=
  { e with votes := fun p => if p ∈ S then how.votes node n req p else .idle }

/-- The nodes in the midst of the election `e` of `n`, when the futures for `S` are over. -/
def Reach.polled (how : Reach) (node : A → Node A) (n : A) (e : Election A)
    (req : RequestVoteRequest A) (S : Finset A) : A → Node A := fun q =>
  if q = n then { node n with election := some (how.partway node n e req S) }
  else if q ∈ S then how.peer (node q) req
  else node q

section Polled

variable {how : Reach} {node : A → Node A} {S : Finset A}

theorem Reach.partway_insert (e : Election A) : how.partway node n e req (insert p S) =
    (how.partway node n e req S).setVote p (how.votes node n req p) := by
  rw [Election.setVote, partway, partway]
  congr 1
  funext q
  by_cases hqp : q = p
  · rw [hqp, Function.update_self, if_pos (Finset.mem_insert_self p S)]
  · simp only [Function.update_of_ne hqp, Finset.mem_insert, hqp, false_or]

theorem Reach.polled_self (e : Election A) : how.polled node n e req S n =
    { node n with election := some (how.partway node n e req S) } :=
  if_pos rfl

theorem Reach.polled_of_notMem (hne : p ≠ n) (hp : p ∉ S) :
    how.polled node n e req S p = node p := by
  rw [polled, if_neg hne, if_neg hp]

theorem Reach.polled_insert_of_ne (hne : p ≠ n) : how.polled node n e req (insert p S) =
    Function.update (Function.update (how.polled node n e req S) p (how.peer (node p) req)) n
      { node n with
        election :=
          some ((how.partway node n e req S).setVote p (how.vote (node p).state req)) } := by
  funext q
  by_cases hqn : q = n
  · rw [hqn, Function.update_self, polled_self, partway_insert, votes, if_neg hne]
  · rw [Function.update_of_ne hqn]
    by_cases hqp : q = p
    · rw [hqp, Function.update_self, polled, if_neg hne, if_pos (Finset.mem_insert_self p S)]
    · simp only [Function.update_of_ne hqp, polled, Finset.mem_insert, hqp, false_or, if_neg hqn]

theorem Reach.polled_insert_self : how.polled node n e req (insert n S) =
    Function.update (how.polled node n e req S) n { node n with
      election := some ((how.partway node n e req S).setVote n (.done none (some true))) } := by
  funext q
  by_cases hqn : q = n
  · rw [hqn, Function.update_self, polled_self, partway_insert, votes, if_pos rfl]
  · simp only [Function.update_of_ne hqn, polled, Finset.mem_insert, hqn, false_or, if_false]

theorem Reach.polled_empty (he : (node n).election = some e) (hidle : e.votes = fun _ => .idle) :
    how.polled node n e req ∅ = node := by
  funext q
  by_cases hqn : q = n
  · have hpartway : how.partway node n e req ∅ = e := by
      simp only [partway, Finset.notMem_empty, if_false, ← hidle]
    rw [hqn, polled_self, hpartway, ← he]
  · rw [polled_of_notMem hqn (Finset.notMem_empty q)]

end Polled

/-- All futures of an election run, one after the other. -/
theorem Possible.ballot (how : Reach) (he : (c.node n).election = some e)
    (hidle : e.votes = fun _ => .idle) (hreq : openElectionRequest n (c.node n).state = req)
    (hfree : how ≠ .lost → ∀ p ∈ servers, p ≠ n → (c.node p).free servers = true) :
    Possible (Cluster.step servers) NoWrap
      (fun c' => c'.node = how.polled c.node n e req servers) c := by
  refine Possible.forall_mem (I := fun S (c' : Cluster A) => c'.node = how.polled c.node n e req S)
    (fun S p t hp hpS ht => ?_) (how.polled_empty he hidle).symm
  have hn : t.node n = { c.node n with election := some (how.partway c.node n e req S) } := by
    rw [ht, Reach.polled_self]
  have hstart : (how.partway c.node n e req S).votes p = .idle := if_neg hpS
  by_cases hpn : p = n
  · subst hpn
    have hask := do_askVote hn rfl hp hstart
    rw [if_pos rfl] at hask
    refine .one (a := .askVote p p) trivial hask ?_
    rw [Reach.polled_insert_self, Cluster.setNode, ht]
  · have hy : t.node p = c.node p := by rw [ht, Reach.polled_of_notMem hpn hpS]
    refine (Possible.poll how hn hy rfl hp hpn hstart (fun hhow => hfree hhow p hp hpn)
      hreq).mono fun t' ht' => ?_
    rw [Reach.polled_insert_of_ne hpn, ht', ht]

/-- The votes that an election of `n` gets in which all futures get as far as `how`. -/
def Reach.count (how : Reach) (servers : Finset A) (c : Cluster A) (n : A) : Nat :=
  countTrue servers (how.votes c.node n (openElectionRequest n (candidacy (c.node n).state)))

/-- Where an election of `n` leaves the nodes: its peers have been asked as far as `how` says,
nobody else has changed, and `n` has counted its votes and has no election any more. -/
structure Elected (servers : Finset A) (how : Reach) (n : A) (c c' : Cluster A) : Prop where
  peer : ∀ q ∈ servers, q ≠ n → c'.node q =
    how.peer (c.node q) (openElectionRequest n (candidacy (c.node n).state))
  other : ∀ q, q ∉ servers → q ≠ n → c'.node q = c.node q
  state : (c'.node n).state = (openElectionCount servers (candidacy (c.node n).state)
    (how.count servers c n) .ok).1
  election : (c'.node n).election = none
  rounds : (c'.node n).rounds = (c.node n).rounds

theorem Reach.isDone_votes (how : Reach) (node : A → Node A) (n p : A)
    (req : RequestVoteRequest A) : (how.votes node n req p).isDone = true := by
  rw [votes]
  split <;> rfl

omit [DecidableEq A] in
theorem countTrue_congr {Req : Type} {f g : A → Future Req} (h : ∀ p ∈ servers, f p = g p) :
    countTrue servers f = countTrue servers g := by
  rw [countTrue, countTrue, Finset.filter_congr fun p hp => by rw [h p hp]]

/-- **An election of a follower**, from its start to its end.  The futures are taken one after the
other, and whoever is to hear of it must not be in an election whose futures wait. -/
theorem Possible.election (how : Reach) (hrole : (c.node n).state.role = .follower)
    (hnone : (c.node n).election = none) (hwrap : (c.node n).state.currentTerm + 1 < 2 ^ 64)
    (hfree : how ≠ .lost → ∀ p ∈ servers, p ≠ n → (c.node p).free servers = true) :
    Possible (Cluster.step servers) NoWrap (Elected servers how n c) c := by
  have hopen : c.step servers (.openElection n .ok) = _ := do_openElection rfl hrole hnone
  refine .next (a := .openElection n .ok) hwrap hopen ?_
  set e : Election A := ⟨(c.node n).elections, (candidacy (c.node n).state).currentTerm,
    (candidacy (c.node n).state).logs, fun _ => .idle⟩
  set x : Node A := { c.node n with
    state := candidacy (c.node n).state
    elections := (c.node n).elections + 1
    election := some e }
  have hx : (c.setNode n x).node n = x := Cluster.setNode_self ..
  have hkeep : ∀ q, q ≠ n → (c.setNode n x).node q = c.node q := fun q hq =>
    Cluster.setNode_of_ne _ _ hq
  refine (Possible.ballot (c := c.setNode n x) how (e := e) (by rw [hx]) rfl rfl
    fun hhow p hp hpn => ?_).bind fun t ht => ?_
  · rw [hkeep p hpn]
    exact hfree hhow p hp hpn
  rw [hx] at ht
  set req := openElectionRequest n x.state
  have hn : t.node n = { x with
      election := some (how.partway (c.setNode n x).node n e req servers) } := by
    rw [ht, Reach.polled_self, hx]
  have hvotes : ∀ p ∈ servers, (how.partway (c.setNode n x).node n e req servers).votes p =
      how.votes c.node n req p := by
    intro p hp
    refine (if_pos hp).trans ?_
    rw [Reach.votes, Reach.votes]
    split
    · rfl
    · next hpn => rw [hkeep p hpn]
  have hcount := do_countVotes hn rfl fun p hp =>
    (hvotes p hp).symm ▸ how.isDone_votes c.node n p req
  refine .one (a := .countVotes n .ok) trivial hcount
    ⟨fun q hq hqn => ?_, fun q hq hqn => ?_, ?_, ?_, ?_⟩
  · rw [Cluster.setNode_of_ne _ _ hqn, ht, Reach.polled, if_neg hqn, if_pos hq, hkeep q hqn]
  · rw [Cluster.setNode_of_ne _ _ hqn, ht, Reach.polled_of_notMem hqn hq, hkeep q hqn]
  · rw [Cluster.setNode_self, countTrue_congr hvotes]
    rfl
  · rw [Cluster.setNode_self]
  · rw [Cluster.setNode_self]

end Raft
end DistributedPrograms
