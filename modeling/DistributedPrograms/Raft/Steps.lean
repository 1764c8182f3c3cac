import DistributedPrograms.Raft.Cluster

/-!
# What a step of the cluster can do

One inversion lemma per action, saying under which guards it happens and what the cluster is
afterwards; no later file unfolds `Cluster.step`.

A step is about one node and the wire.  `Becomes` says what becomes of the node: it has one case for
each stretch of code that runs under the write lock, and one for a future that moves on, of an
election (`VoteStep`) or of a round (`PeerStep`).  From it come the views that the invariants are
proved in:

* `Effect`: what a step does to the state of a node.  What the futures of `send_append_entries` do
  to `next_index` and `match_index` is one effect, `Effect.same`, as nothing else of the state
  changes;
* `step_election`: the election of a node after a step is one from before, or was just opened;
* `step_rounds`: so for its rounds, whose numbers never change (`rounds_length_le`).

An RPC on the wire is either from before or was put there by this step, with the request or the
reply that the state of its sender gives: these are the `mem_*` lemmas.
-/

set_option autoImplicit false

namespace DistributedPrograms
namespace Raft

variable {A : Type} [DecidableEq A] {servers : Finset A} {c c' : Cluster A}

open VariableState

/-! ## One lemma per action

Each says what is true before the step, the guards of `Cluster.step` and what the futures and the
lists of RPCs must hold, and gives the cluster after it in the words of `Cluster.setNode`. -/

theorem step_openElection {n : A} {d : Disk A}
    (h : c.step servers (.openElection n d) = some c') :
    (c.node n).election = none ∧
    (((openElectionStart (c.node n).state d).2 = .ok true ∧
      c' = c.setNode n { c.node n with
        state := (openElectionStart (c.node n).state d).1
        elections := (c.node n).elections + 1
        election := some ⟨(c.node n).elections,
          (openElectionStart (c.node n).state d).1.currentTerm,
          (openElectionStart (c.node n).state d).1.logs, fun _ => .idle⟩ }) ∨
     ((openElectionStart (c.node n).state d).2 ≠ .ok true ∧
      c' = c.setNode n { c.node n with state := (openElectionStart (c.node n).state d).1 })) := by
  simp only [Cluster.step, Cluster.electionStep, Option.isNone_iff_eq_none] at h
  split at h
  · rename_i hel
    refine ⟨hel, ?_⟩
    split at h
    · rename_i s ho
      rw [ho]
      exact Or.inl ⟨rfl, (Option.some.inj h).symm⟩
    · rename_i s res hne ho
      rw [ho]
      exact Or.inr ⟨fun hok => hne hok, (Option.some.inj h).symm⟩
  · exact absurd h (by simp)

theorem step_askVote {n p : A} (h : c.step servers (.askVote n p) = some c') :
    ∃ e, (c.node n).election = some e ∧ p ∈ servers ∧ e.votes p = .idle ∧
    ((p = n ∧ c' = c.setNode n { c.node n with
        election := some (e.setVote p (.done none (some true))) }) ∨
     (p ≠ n ∧ c' = { c.setNode n { c.node n with
          election := some (e.setVote p (.waiting (openElectionRequest n (c.node n).state))) } with
        voteCalls := ⟨n, e.id, p, openElectionRequest n (c.node n).state⟩ :: c.voteCalls })) := by
  simp only [Cluster.step, Cluster.electionStep] at h
  split at h
  · exact absurd h (by simp)
  · rename_i e he
    split at h
    · rename_i hp
      refine ⟨e, he, hp.1, Future.isIdle_iff.1 hp.2, ?_⟩
      split at h
      · rename_i hpn
        exact Or.inl ⟨hpn, (Option.some.inj h).symm⟩
      · rename_i hpn
        exact Or.inr ⟨hpn, (Option.some.inj h).symm⟩
    · exact absurd h (by simp)

theorem step_voteError {n p : A} (h : c.step servers (.voteError n p) = some c') :
    ∃ e req, (c.node n).election = some e ∧ e.votes p = .waiting req ∧
      c' = c.setNode n { c.node n with
        election := some (e.setVote p (.done (some req) none)) } := by
  simp only [Cluster.step, Cluster.electionStep] at h
  split at h
  · exact absurd h (by simp)
  · rename_i e he
    split at h
    · rename_i req hreq
      exact ⟨e, req, he, hreq, (Option.some.inj h).symm⟩
    · exact absurd h (by simp)

theorem step_countVotes {n : A} {d : Disk A} (h : c.step servers (.countVotes n d) = some c') :
    ∃ e, (c.node n).election = some e ∧ (∀ p ∈ servers, (e.votes p).isDone = true) ∧
      c' = c.setNode n { c.node n with
        state := (openElectionCount servers (c.node n).state (countTrue servers e.votes) d).1
        election := none } := by
  simp only [Cluster.step, Cluster.electionStep] at h
  split at h
  · exact absurd h (by simp)
  · rename_i e he
    split at h
    · rename_i hdone
      exact ⟨e, he, hdone, (Option.some.inj h).symm⟩
    · exact absurd h (by simp)

theorem step_sendAppendEntries {n : A} {texts : List String} {d : Disk A}
    (h : c.step servers (.sendAppendEntries n texts d) = some c') :
    (((sendAppendEntriesAppend (c.node n).state texts d).2 = .ok () ∧
      c' = c.setNode n { c.node n with
        state := (sendAppendEntriesAppend (c.node n).state texts d).1
        rounds := (c.node n).rounds ++ [⟨(c.node n).state.currentTerm,
          (c.node n).state.logs.length, texts, fun _ => .idle, none⟩] }) ∨
     c' = c.setNode n
        { c.node n with state := (sendAppendEntriesAppend (c.node n).state texts d).1 }) := by
  simp only [Cluster.step, Cluster.roundStep] at h
  split at h
  · split at h
    · rename_i s ho
      rw [ho]
      exact Or.inl ⟨rfl, (Option.some.inj h).symm⟩
    · rename_i s e ho
      rw [ho]
      exact Or.inr (Option.some.inj h).symm
  · exact absurd h (by simp)

theorem step_sendRound {n p : A} {r : Nat} (h : c.step servers (.sendRound n r p) = some c') :
    ∃ rd, (c.node n).rounds[r]? = some rd ∧ p ∈ servers ∧ rd.peers p = .idle ∧
    ((∃ req, (sendAppendEntriesRequest n (c.node n).state p).2 = .waiting req ∧
      c' = { c.setNode n { (c.node n).setRound r (rd.setPeer p (.waiting req)) with
          state := (sendAppendEntriesRequest n (c.node n).state p).1 } with
        appendCalls := ⟨n, r, p, req⟩ :: c.appendCalls }) ∨
     ((∀ req, (sendAppendEntriesRequest n (c.node n).state p).2 ≠ .waiting req) ∧
      c' = c.setNode n { (c.node n).setRound r
          (rd.setPeer p (sendAppendEntriesRequest n (c.node n).state p).2) with
        state := (sendAppendEntriesRequest n (c.node n).state p).1 })) := by
  simp only [Cluster.step, Cluster.roundStep] at h
  split at h
  · exact absurd h (by simp)
  · rename_i rd hrd
    split at h
    · rename_i hp
      refine ⟨rd, hrd, hp.1, Future.isIdle_iff.1 hp.2, ?_⟩
      split at h
      · rename_i req hreq
        rw [hreq] at h
        exact Or.inl ⟨req, hreq, (Option.some.inj h).symm⟩
      · rename_i hne
        exact Or.inr ⟨fun req hreq => hne req hreq, (Option.some.inj h).symm⟩
    · exact absurd h (by simp)

theorem step_appendError {n p : A} {r : Nat} (h : c.step servers (.appendError n r p) = some c') :
    ∃ rd req, (c.node n).rounds[r]? = some rd ∧ rd.peers p = .waiting req ∧
      c' = c.setNode n ((c.node n).setRound r (rd.setPeer p (.done (some req) none))) := by
  simp only [Cluster.step, Cluster.roundStep] at h
  split at h
  · exact absurd h (by simp)
  · rename_i rd hrd
    split at h
    · rename_i req hreq
      exact ⟨rd, req, hrd, hreq, (Option.some.inj h).symm⟩
    · exact absurd h (by simp)

theorem step_closeRound {n : A} {r : Nat} (h : c.step servers (.closeRound n r) = some c') :
    ∃ rd, (c.node n).rounds[r]? = some rd ∧ rd.ret = none ∧
      (∀ p ∈ servers, (rd.peers p).isDone = true) ∧
      c' = c.setNode n { (c.node n).setRound r (rd.close
          (sendAppendEntriesCommit servers (c.node n).state (countTrue servers rd.peers)).2) with
        state :=
          (sendAppendEntriesCommit servers (c.node n).state (countTrue servers rd.peers)).1 } := by
  simp only [Cluster.step, Cluster.roundStep] at h
  split at h
  · exact absurd h (by simp)
  · rename_i rd hrd
    split at h
    · rename_i hg
      exact ⟨rd, hrd, hg.1, hg.2.1, (Option.some.inj h).symm⟩
    · exact absurd h (by simp)

theorem step_requestVote {k : Nat} {d₁ d₂ : Disk A}
    (h : c.step servers (.requestVote k d₁ d₂) = some c') :
    ∃ call, c.voteCalls[k]? = some call ∧ (c.node call.callee).free servers = true ∧
    ((∃ res, (requestVote (c.node call.callee).state call.req d₁ d₂).2 = .ok res ∧
      c' = { c.setNode call.callee { c.node call.callee with
          state := (requestVote (c.node call.callee).state call.req d₁ d₂).1 } with
        voteCalls := c.voteCalls.eraseIdx k
        voteReplies := (call, res) :: c.voteReplies }) ∨
     c' = { c.setNode call.callee { c.node call.callee with
          state := (requestVote (c.node call.callee).state call.req d₁ d₂).1 } with
        voteCalls := c.voteCalls.eraseIdx k }) := by
  simp only [Cluster.step, Cluster.deliver] at h
  split at h
  · exact absurd h (by simp)
  · rename_i call hcall
    split at h
    · rename_i hfree
      refine ⟨call, hcall, hfree, ?_⟩
      split at h
      · rename_i res hres
        exact Or.inl ⟨res, hres, (Option.some.inj h).symm⟩
      · exact Or.inr (Option.some.inj h).symm
    · exact absurd h (by simp)

theorem step_voteReply {k : Nat} (h : c.step servers (.voteReply k) = some c') :
    ∃ call res e req, c.voteReplies[k]? = some (call, res) ∧
      (c.node call.caller).election = some e ∧ e.votes call.callee = .waiting req ∧
      e.id = call.election ∧
      c' = { c.setNode call.caller { c.node call.caller with
          election :=
            some (e.setVote call.callee (.done (some req) (some res.voteGranted))) } with
        voteReplies := c.voteReplies.eraseIdx k } := by
  simp only [Cluster.step, Cluster.deliver] at h
  split at h
  · exact absurd h (by simp)
  · rename_i call res hk
    split at h
    · exact absurd h (by simp)
    · rename_i e he
      split at h
      · rename_i req hreq
        split at h
        · rename_i hid
          exact ⟨call, res, e, req, hk, he, hreq, hid, (Option.some.inj h).symm⟩
        · exact absurd h (by simp)
      · exact absurd h (by simp)

theorem step_appendEntries {k : Nat} {d₁ d₂ : Disk A}
    (h : c.step servers (.appendEntries k d₁ d₂) = some c') :
    ∃ call, c.appendCalls[k]? = some call ∧ (c.node call.callee).free servers = true ∧
    ((∃ res, (appendEntries (c.node call.callee).state call.req d₁ d₂).2 = .ok res ∧
      c' = { c.setNode call.callee { c.node call.callee with
          state := (appendEntries (c.node call.callee).state call.req d₁ d₂).1 } with
        appendCalls := c.appendCalls.eraseIdx k
        appendReplies := (call, res) :: c.appendReplies }) ∨
     c' = { c.setNode call.callee { c.node call.callee with
          state := (appendEntries (c.node call.callee).state call.req d₁ d₂).1 } with
        appendCalls := c.appendCalls.eraseIdx k }) := by
  simp only [Cluster.step, Cluster.deliver] at h
  split at h
  · exact absurd h (by simp)
  · rename_i call hcall
    split at h
    · rename_i hfree
      refine ⟨call, hcall, hfree, ?_⟩
      split at h
      · rename_i res hres
        exact Or.inl ⟨res, hres, (Option.some.inj h).symm⟩
      · exact Or.inr (Option.some.inj h).symm
    · exact absurd h (by simp)

theorem step_appendReply {k : Nat} (h : c.step servers (.appendReply k) = some c') :
    ∃ call res rd req, c.appendReplies[k]? = some (call, res) ∧
      (c.node call.caller).rounds[call.round]? = some rd ∧
      rd.peers call.callee = .waiting req ∧
      c' = { c.setNode call.caller { (c.node call.caller).setRound call.round
            (rd.setPeer call.callee (.done (some req) (some
              (sendAppendEntriesReply (c.node call.caller).state call.callee res.success).2))) with
          state :=
            (sendAppendEntriesReply (c.node call.caller).state call.callee res.success).1 } with
        appendReplies := c.appendReplies.eraseIdx k } := by
  simp only [Cluster.step, Cluster.deliver] at h
  split at h
  · exact absurd h (by simp)
  · rename_i call res hk
    split at h
    · exact absurd h (by simp)
    · rename_i rd hrd
      split at h
      · rename_i req hreq
        exact ⟨call, res, rd, req, hk, hrd, hreq, (Option.some.inj h).symm⟩
      · exact absurd h (by simp)

/-! ## What a step can do to a future

A future goes from `idle` over `waiting` to `done`, and never back: what it has sent it remembers
(`sent_mono`), and what it ended with stays (`PeerStep.eq_of_done`).
-/

/-- How a step can change the future of `p` in the running election `e` of `v`. -/
inductive VoteStep (c : Cluster A) (v : A) (e : Election A) (p : A) :
    Future (RequestVoteRequest A) → Prop
  | keep : VoteStep c v e p (e.votes p)
  | self (hidle : e.votes p = .idle) (hp : p = v) : VoteStep c v e p (.done none (some true))
  | ask (hidle : e.votes p = .idle) (hp : p ≠ v) :
      VoteStep c v e p (.waiting (openElectionRequest v (c.node v).state))
  | error {req : RequestVoteRequest A} (hw : e.votes p = .waiting req) :
      VoteStep c v e p (.done (some req) none)
  | reply {req : RequestVoteRequest A} {call : VoteCall A} {res : RequestVoteResponse}
      (hw : e.votes p = .waiting req) (hmem : (call, res) ∈ c.voteReplies)
      (hcaller : call.caller = v) (hid : call.election = e.id) (hcallee : call.callee = p) :
      VoteStep c v e p (.done (some req) (some res.voteGranted))

theorem voteStep_setVote {v : A} {e : Election A} {q : A} {f : Future (RequestVoteRequest A)}
    (h : VoteStep c v e q f) (p : A) : VoteStep c v e p ((e.setVote q f).votes p) := by
  by_cases hpq : p = q
  · subst hpq
    simpa [Election.setVote] using h
  · have hkeep : VoteStep c v e p (e.votes p) := .keep
    simpa [Election.setVote, hpq] using hkeep

omit [DecidableEq A] in
/-- What a future has sent it remembers. -/
theorem VoteStep.sent_mono {v : A} {e : Election A} {p : A} {f : Future (RequestVoteRequest A)}
    (h : VoteStep c v e p f) {req : RequestVoteRequest A} (hs : (e.votes p).sent = some req) :
    f.sent = some req := by
  cases h with
  | keep => exact hs
  | self hidle _ => simp [hidle] at hs
  | ask hidle _ => simp [hidle] at hs
  | error hw => simpa [hw] using hs
  | reply hw _ _ _ _ => simpa [hw] using hs

omit [DecidableEq A] in
/-- What a future has sent it had sent before, or it is built from the state of the node now. -/
theorem VoteStep.sent_cases {v : A} {e : Election A} {p : A} {f : Future (RequestVoteRequest A)}
    (h : VoteStep c v e p f) {req : RequestVoteRequest A} (hs : f.sent = some req) :
    (e.votes p).sent = some req ∨ req = openElectionRequest v (c.node v).state := by
  cases h with
  | keep => exact Or.inl hs
  | self _ _ => simp at hs
  | ask _ _ => exact Or.inr (by simpa using hs.symm)
  | error hw => exact Or.inl (by simpa [hw] using hs)
  | reply hw _ _ _ _ => exact Or.inl (by simpa [hw] using hs)

/-- How a step can change the future of `p` in round `r` of `v`, which is `rd`. -/
inductive PeerStep (c : Cluster A) (v : A) (r : Nat) (rd : Round A) (p : A) :
    Action A → Future AppendEntriesRequest → Prop
  | keep {a : Action A} : PeerStep c v r rd p a (rd.peers p)
  | start (hidle : rd.peers p = .idle) :
      PeerStep c v r rd p (.sendRound v r p) (sendAppendEntriesRequest v (c.node v).state p).2
  | error {req : AppendEntriesRequest} (hw : rd.peers p = .waiting req) :
      PeerStep c v r rd p (.appendError v r p) (.done (some req) none)
  | reply {k : Nat} {req : AppendEntriesRequest} {call : AppendCall A}
      {res : AppendEntriesResponse} (hw : rd.peers p = .waiting req)
      (hk : c.appendReplies[k]? = some (call, res)) (hcaller : call.caller = v)
      (hround : call.round = r) (hcallee : call.callee = p) :
      PeerStep c v r rd p (.appendReply k)
        (.done (some req) (some (sendAppendEntriesReply (c.node v).state p res.success).2))

/-- What a future has sent it remembers. -/
theorem PeerStep.sent_mono {v : A} {r : Nat} {rd : Round A} {p : A} {a : Action A}
    {f : Future AppendEntriesRequest} (h : PeerStep c v r rd p a f) {req : AppendEntriesRequest}
    (hs : (rd.peers p).sent = some req) : f.sent = some req := by
  cases h with
  | keep => exact hs
  | start hidle => simp [hidle] at hs
  | error hw => simpa [hw] using hs
  | reply hw _ _ _ _ => simpa [hw] using hs

/-- A future that is done stays as it is. -/
theorem PeerStep.eq_of_done {v p : A} {r : Nat} {rd : Round A} {a : Action A}
    {f : Future AppendEntriesRequest} (h : PeerStep c v r rd p a f)
    (hdone : (rd.peers p).isDone = true) : f = rd.peers p := by
  obtain ⟨req, res, heq⟩ := Future.isDone_iff.1 hdone
  cases h with
  | keep => rfl
  | start hidle => rw [heq] at hidle; exact absurd hidle (by simp)
  | error hw => rw [heq] at hw; exact absurd hw (by simp)
  | reply hw _ _ _ _ => rw [heq] at hw; exact absurd hw (by simp)

theorem peerStep_setPeer {v : A} {r : Nat} {rd : Round A} {q : A} {a : Action A}
    {f : Future AppendEntriesRequest} (h : PeerStep c v r rd q a f) (p : A) :
    PeerStep c v r rd p a ((rd.setPeer q f).peers p) := by
  by_cases hpq : p = q
  · subst hpq
    simpa [Round.setPeer] using h
  · have hkeep : PeerStep c v r rd p a (rd.peers p) := .keep
    simpa [Round.setPeer, hpq] using hkeep

/-- Where a `match_index[p] = j` of `v` can come from in a step that only touches its index maps. -/
inductive MatchStep (c : Cluster A) (v : A) : Action A → A → Nat → Prop
  | keep {a : Action A} {p : A} {j : Nat} (h : (c.node v).state.role.matchIndexOf p = some j) :
      MatchStep c v a p j
  | self {a : Action A} (hlead : (c.node v).state.role.isLeader = true) :
      MatchStep c v a v ((c.node v).state.logs.length - 1)
  | reply {k : Nat} {call : AppendCall A} {res : AppendEntriesResponse}
      (hk : c.appendReplies[k]? = some (call, res)) (hcaller : call.caller = v)
      (hsuccess : res.success = true) (hlead : (c.node v).state.role.isLeader = true) :
      MatchStep c v (.appendReply k) call.callee ((c.node v).state.logs.length - 1)

/-! ## What becomes of a node

A step is about one node, and `Becomes` lists what it makes of it: the futures of its election or of
one of its rounds move on, or a stretch of code runs to its end.  The views of the invariants are
read off from this list. -/

/-- What action `a` makes of node `v`.  There is one case for each stretch of code under the lock
and one for each move of a future, and `same` for a node that the step is not about. -/
inductive Becomes (servers : Finset A) (c : Cluster A) (v : A) : Action A → Node A → Prop
  | same {a : Action A} : Becomes servers c v a (c.node v)
  | openElection {d : Disk A} (hel : (c.node v).election = none)
      (hok : (openElectionStart (c.node v).state d).2 = .ok true) :
      Becomes servers c v (.openElection v d) { c.node v with
        state := (openElectionStart (c.node v).state d).1
        elections := (c.node v).elections + 1
        election := some ⟨(c.node v).elections,
          (openElectionStart (c.node v).state d).1.currentTerm,
          (openElectionStart (c.node v).state d).1.logs, fun _ => .idle⟩ }
  | openElectionFails {d : Disk A} (hel : (c.node v).election = none) :
      Becomes servers c v (.openElection v d)
        { c.node v with state := (openElectionStart (c.node v).state d).1 }
  | vote {a : Action A} {e : Election A} {p : A} {f : Future (RequestVoteRequest A)}
      (he : (c.node v).election = some e) (hf : VoteStep c v e p f) :
      Becomes servers c v a { c.node v with election := some (e.setVote p f) }
  | countVotes {d : Disk A} {e : Election A} (he : (c.node v).election = some e)
      (hdone : ∀ p ∈ servers, (e.votes p).isDone = true) :
      Becomes servers c v (.countVotes v d) { c.node v with
        state := (openElectionCount servers (c.node v).state (countTrue servers e.votes) d).1
        election := none }
  | requestVote {k : Nat} {d₁ d₂ : Disk A} {call : VoteCall A} (hk : c.voteCalls[k]? = some call)
      (hv : call.callee = v) :
      Becomes servers c v (.requestVote k d₁ d₂)
        { c.node v with state := (requestVote (c.node v).state call.req d₁ d₂).1 }
  | sendAppendEntries {texts : List String} {d : Disk A}
      (hok : (sendAppendEntriesAppend (c.node v).state texts d).2 = .ok ()) :
      Becomes servers c v (.sendAppendEntries v texts d) { c.node v with
        state := (sendAppendEntriesAppend (c.node v).state texts d).1
        rounds := (c.node v).rounds ++ [⟨(c.node v).state.currentTerm,
          (c.node v).state.logs.length, texts, fun _ => .idle, none⟩] }
  | sendAppendEntriesFails {texts : List String} {d : Disk A} :
      Becomes servers c v (.sendAppendEntries v texts d)
        { c.node v with state := (sendAppendEntriesAppend (c.node v).state texts d).1 }
  | peer {a : Action A} {r : Nat} {rd : Round A} {p : A} {f : Future AppendEntriesRequest}
      {t : VariableState A} (hr : (c.node v).rounds[r]? = some rd) (hf : PeerStep c v r rd p a f)
      (ht : SameNode (c.node v).state t)
      (hmatch : ∀ p j, t.role.matchIndexOf p = some j → MatchStep c v a p j) :
      Becomes servers c v a { (c.node v).setRound r (rd.setPeer p f) with state := t }
  | appendEntries {k : Nat} {d₁ d₂ : Disk A} {call : AppendCall A}
      (hk : c.appendCalls[k]? = some call) (hv : call.callee = v) :
      Becomes servers c v (.appendEntries k d₁ d₂)
        { c.node v with state := (appendEntries (c.node v).state call.req d₁ d₂).1 }
  | closeRound {r : Nat} {rd : Round A} (hr : (c.node v).rounds[r]? = some rd)
      (hret : rd.ret = none) (hdone : ∀ p ∈ servers, (rd.peers p).isDone = true) :
      Becomes servers c v (.closeRound v r) { (c.node v).setRound r (rd.close
          (sendAppendEntriesCommit servers (c.node v).state (countTrue servers rd.peers)).2) with
        state :=
          (sendAppendEntriesCommit servers (c.node v).state (countTrue servers rd.peers)).1 }

/-- A step leaves all nodes but one alone. -/
theorem becomes_setNode {n : A} {x : Node A} {a : Action A} (h : Becomes servers c n a x) (v : A) :
    Becomes servers c v a ((c.setNode n x).node v) := by
  by_cases hvn : v = n
  · subst hvn
    rwa [Cluster.setNode_self]
  · rw [Cluster.setNode_of_ne _ _ hvn]
    exact .same

theorem becomes_sendRound {n p : A} {r : Nat} {rd : Round A}
    (hr : (c.node n).rounds[r]? = some rd) (hidle : rd.peers p = .idle) :
    Becomes servers c n (.sendRound n r p) { (c.node n).setRound r
        (rd.setPeer p (sendAppendEntriesRequest n (c.node n).state p).2) with
      state := (sendAppendEntriesRequest n (c.node n).state p).1 } := by
  refine .peer hr (.start hidle) (sendAppendEntriesRequest_same n _ p) fun q j hj => ?_
  rcases sendAppendEntriesRequest_matchIndex hj with hj | ⟨rfl, hlead, rfl⟩
  · exact .keep hj
  · exact .self hlead

theorem becomes_appendReply {k : Nat} {call : AppendCall A} {res : AppendEntriesResponse}
    {rd : Round A} {req : AppendEntriesRequest} (hk : c.appendReplies[k]? = some (call, res))
    (hr : (c.node call.caller).rounds[call.round]? = some rd)
    (hw : rd.peers call.callee = .waiting req) :
    Becomes servers c call.caller (.appendReply k) { (c.node call.caller).setRound call.round
        (rd.setPeer call.callee (.done (some req) (some
          (sendAppendEntriesReply (c.node call.caller).state call.callee res.success).2))) with
      state := (sendAppendEntriesReply (c.node call.caller).state call.callee res.success).1 } := by
  refine .peer hr (.reply hw hk rfl rfl rfl) (sendAppendEntriesReply_same _ _ _) fun q j hj => ?_
  rcases sendAppendEntriesReply_matchIndex hj with hj | ⟨rfl, hsuccess, hlead, rfl⟩
  · exact .keep hj
  · exact .reply hk rfl hsuccess hlead

/-- **A step makes of each node one of these.**  No proof about nodes looks at `Cluster.step`
again. -/
theorem step_becomes {a : Action A} (h : c.step servers a = some c') (v : A) :
    Becomes servers c v a (c'.node v) := by
  cases a with
  | openElection n d =>
    obtain ⟨hel, ⟨hok, rfl⟩ | ⟨-, rfl⟩⟩ := step_openElection h
    · exact becomes_setNode (.openElection hel hok) v
    · exact becomes_setNode (.openElectionFails hel) v
  | askVote n p =>
    obtain ⟨e, he, -, hidle, ⟨hp, rfl⟩ | ⟨hp, rfl⟩⟩ := step_askVote h
    · exact becomes_setNode (.vote he (.self hidle hp)) v
    · exact becomes_setNode (.vote he (.ask hidle hp)) v
  | requestVote k d₁ d₂ =>
    obtain ⟨call, hk, -, ⟨res, -, rfl⟩ | rfl⟩ := step_requestVote h
    · exact becomes_setNode (.requestVote hk rfl) v
    · exact becomes_setNode (.requestVote hk rfl) v
  | voteReply k =>
    obtain ⟨call, res, e, req, hk, he, hw, hid, rfl⟩ := step_voteReply h
    exact becomes_setNode (.vote he (.reply hw (List.mem_of_getElem? hk) rfl hid.symm rfl)) v
  | voteError n p =>
    obtain ⟨e, req, he, hw, rfl⟩ := step_voteError h
    exact becomes_setNode (.vote he (.error hw)) v
  | countVotes n d =>
    obtain ⟨e, he, hdone, rfl⟩ := step_countVotes h
    exact becomes_setNode (.countVotes he hdone) v
  | sendAppendEntries n texts d =>
    obtain ⟨hok, rfl⟩ | rfl := step_sendAppendEntries h
    · exact becomes_setNode (.sendAppendEntries hok) v
    · exact becomes_setNode .sendAppendEntriesFails v
  | sendRound n r p =>
    obtain ⟨rd, hr, -, hidle, ⟨req, hreq, rfl⟩ | ⟨-, rfl⟩⟩ := step_sendRound h
    · exact becomes_setNode (hreq ▸ becomes_sendRound hr hidle) v
    · exact becomes_setNode (becomes_sendRound hr hidle) v
  | appendEntries k d₁ d₂ =>
    obtain ⟨call, hk, -, ⟨res, -, rfl⟩ | rfl⟩ := step_appendEntries h
    · exact becomes_setNode (.appendEntries hk rfl) v
    · exact becomes_setNode (.appendEntries hk rfl) v
  | appendReply k =>
    obtain ⟨call, res, rd, req, hk, hr, hw, rfl⟩ := step_appendReply h
    exact becomes_setNode (becomes_appendReply hk hr hw) v
  | appendError n r p =>
    obtain ⟨rd, req, hr, hw, rfl⟩ := step_appendError h
    exact becomes_setNode (.peer hr (.error hw) (SameNode.refl _) fun _ _ => .keep) v
  | closeRound n r =>
    obtain ⟨rd, hr, hret, hdone, rfl⟩ := step_closeRound h
    exact becomes_setNode (.closeRound hr hret hdone) v

/-! ## The state of a node

The role, the term, the vote, the log and the commit index of a node change in the stretches of code
under the write lock only, so an invariant about them has these seven cases.
-/

/-- What action `a` makes of the state of node `v`.  Steps of futures are all one case here, since
they touch nothing but the index maps of a leader. -/
inductive Effect (servers : Finset A) (c : Cluster A) (v : A) :
    Action A → VariableState A → Prop
  | same {a : Action A} {t : VariableState A} (h : SameNode (c.node v).state t)
      (hmatch : ∀ p j, t.role.matchIndexOf p = some j → MatchStep c v a p j) :
      Effect servers c v a t
  | openElection {d : Disk A} (h : (c.node v).election = none) :
      Effect servers c v (.openElection v d) (openElectionStart (c.node v).state d).1
  | countVotes {d : Disk A} {e : Election A} (he : (c.node v).election = some e)
      (hdone : ∀ p ∈ servers, (e.votes p).isDone = true) :
      Effect servers c v (.countVotes v d)
        (openElectionCount servers (c.node v).state (countTrue servers e.votes) d).1
  | requestVote {k : Nat} {d₁ d₂ : Disk A} {call : VoteCall A} (hk : c.voteCalls[k]? = some call)
      (hv : call.callee = v) :
      Effect servers c v (.requestVote k d₁ d₂) (requestVote (c.node v).state call.req d₁ d₂).1
  | sendAppendEntries {texts : List String} {d : Disk A} :
      Effect servers c v (.sendAppendEntries v texts d)
        (sendAppendEntriesAppend (c.node v).state texts d).1
  | appendEntries {k : Nat} {d₁ d₂ : Disk A} {call : AppendCall A}
      (hk : c.appendCalls[k]? = some call) (hv : call.callee = v) :
      Effect servers c v (.appendEntries k d₁ d₂) (appendEntries (c.node v).state call.req d₁ d₂).1
  | closeRound {r : Nat} {rd : Round A} (hr : (c.node v).rounds[r]? = some rd)
      (hret : rd.ret = none) (hdone : ∀ p ∈ servers, (rd.peers p).isDone = true)
      (hmaj : countTrue servers rd.peers * 2 > servers.card) :
      Effect servers c v (.closeRound v r)
        { (c.node v).state with commitIndex := (c.node v).state.logs.length - 1 }

/-- A step changes the state of at most one node, and there it is one of the effects. -/
theorem step_effect {a : Action A} (h : c.step servers a = some c') (v : A) :
    Effect servers c v a (c'.node v).state := by
  have hstep := step_becomes h v
  generalize c'.node v = x at hstep ⊢
  cases hstep with
  | same => exact .same (SameNode.refl _) fun _ _ => .keep
  | openElection hel _ => exact .openElection hel
  | openElectionFails hel => exact .openElection hel
  | vote _ _ => exact .same (SameNode.refl _) fun _ _ => .keep
  | countVotes he hdone => exact .countVotes he hdone
  | requestVote hk hv => exact .requestVote hk hv
  | sendAppendEntries _ => exact .sendAppendEntries
  | sendAppendEntriesFails => exact .sendAppendEntries
  | peer _ _ ht hmatch => exact .same ht hmatch
  | appendEntries hk hv => exact .appendEntries hk hv
  | closeRound hr hret hdone =>
    simp only [sendAppendEntriesCommit]
    split
    · next hmaj => exact .closeRound hr hret hdone hmaj
    · exact .same (SameNode.refl _) fun _ _ => .keep

/-! ## The elections and rounds of a node

A node has one election at a time, known by its number, and keeps all its rounds, finished ones
included.  A round keeps the term, the base and the texts that it was started with.
-/

/-- The election of a node after a step: just opened, or the one before with one future moved on. -/
theorem step_election {a : Action A} (h : c.step servers a = some c') {v : A} {e' : Election A}
    (he' : (c'.node v).election = some e') :
    (∃ d, a = .openElection v d ∧ (openElectionStart (c.node v).state d).2 = .ok true ∧
      (c'.node v).elections = (c.node v).elections + 1 ∧
      e' = ⟨(c.node v).elections, (c'.node v).state.currentTerm, (c'.node v).state.logs,
        fun _ => .idle⟩) ∨
    ∃ e, (c.node v).election = some e ∧ e'.id = e.id ∧ e'.term = e.term ∧ e'.logs = e.logs ∧
      ∀ p, VoteStep c v e p (e'.votes p) := by
  have hsame : (c.node v).election = some e' → ∃ e, (c.node v).election = some e ∧
      e'.id = e.id ∧ e'.term = e.term ∧ e'.logs = e.logs ∧ ∀ p, VoteStep c v e p (e'.votes p) :=
    fun he => ⟨e', he, rfl, rfl, rfl, fun p => .keep⟩
  have hstep := step_becomes h v
  generalize c'.node v = x at hstep he' ⊢
  cases hstep with
  | @openElection d _ hok => exact .inl ⟨d, rfl, hok, rfl, (Option.some.inj he').symm⟩
  | vote he hf =>
    obtain rfl := Option.some.inj he'
    exact .inr ⟨_, he, rfl, rfl, rfl, voteStep_setVote hf⟩
  | countVotes _ _ => contradiction
  | _ => exact .inr (hsame he')

/-- The number of elections a node has opened only grows, and so does that of its rounds. -/
theorem counts_le {a : Action A} (h : c.step servers a = some c') (v : A) :
    (c.node v).elections ≤ (c'.node v).elections ∧
      (c.node v).rounds.length ≤ (c'.node v).rounds.length := by
  have hround : ∀ {r : Nat} {rd : Round A},
      (c.node v).rounds.length ≤ ((c.node v).setRound r rd).rounds.length := by
    intro r rd
    simp [Node.setRound]
  have hstep := step_becomes h v
  generalize c'.node v = x at hstep ⊢
  cases hstep with
  | openElection _ _ => exact ⟨Nat.le_succ _, Nat.le_refl _⟩
  | sendAppendEntries _ => exact ⟨Nat.le_refl _, by simp⟩
  | peer _ _ _ _ => exact ⟨Nat.le_refl _, hround⟩
  | closeRound _ _ _ => exact ⟨Nat.le_refl _, hround⟩
  | _ => exact ⟨Nat.le_refl _, Nat.le_refl _⟩

theorem elections_le {a : Action A} (h : c.step servers a = some c') (v : A) :
    (c.node v).elections ≤ (c'.node v).elections :=
  (counts_le h v).1

theorem rounds_length_le {a : Action A} (h : c.step servers a = some c') (v : A) :
    (c.node v).rounds.length ≤ (c'.node v).rounds.length :=
  (counts_le h v).2

/-- What a round `rd` of `v` with number `r` becomes in a step.  What it was called with stays, each
future takes at most one move, and it returns at most once. -/
structure RoundStep (servers : Finset A) (c : Cluster A) (v : A) (r : Nat) (rd : Round A)
    (a : Action A) (rd' : Round A) : Prop where
  term : rd'.term = rd.term
  base : rd'.base = rd.base
  texts : rd'.texts = rd.texts
  peers : ∀ p, PeerStep c v r rd p a (rd'.peers p)
  ret : rd'.ret = rd.ret ∨
    (a = .closeRound v r ∧ rd.ret = none ∧ (∀ p ∈ servers, (rd.peers p).isDone = true) ∧
      rd'.ret = some (decide (countTrue servers rd.peers * 2 > servers.card)))

theorem RoundStep.refl (servers : Finset A) (c : Cluster A) (v : A) (r : Nat) (rd : Round A)
    (a : Action A) : RoundStep servers c v r rd a rd :=
  ⟨rfl, rfl, rfl, fun _ => .keep, Or.inl rfl⟩

theorem roundStep_setPeer {v : A} {r : Nat} {rd : Round A} {q : A} {a : Action A}
    {f : Future AppendEntriesRequest} (h : PeerStep c v r rd q a f) :
    RoundStep servers c v r rd a (rd.setPeer q f) :=
  ⟨rfl, rfl, rfl, peerStep_setPeer h, Or.inl rfl⟩

theorem roundStep_close {v : A} {r : Nat} {rd : Round A} (hret : rd.ret = none)
    (hdone : ∀ p ∈ servers, (rd.peers p).isDone = true) :
    RoundStep servers c v r rd (.closeRound v r) (rd.close
      (sendAppendEntriesCommit servers (c.node v).state (countTrue servers rd.peers)).2) := by
  refine ⟨rfl, rfl, rfl, fun _ => .keep, Or.inr ⟨rfl, hret, hdone, ?_⟩⟩
  simp only [Round.close, sendAppendEntriesCommit]
  split
  · next hmaj => simp [hmaj]
  · next hmaj => simp [hmaj]

/-- Where one round is set to the outcome of a step, every round is the outcome of one. -/
theorem roundStep_set {v : A} {q r : Nat} {rd₀ rd₁ rd' : Round A} {a : Action A}
    (hq : (c.node v).rounds[q]? = some rd₀) (hstep : RoundStep servers c v q rd₀ a rd₁)
    (hget : ((c.node v).rounds.set q rd₁)[r]? = some rd') :
    ∃ rd, (c.node v).rounds[r]? = some rd ∧ RoundStep servers c v r rd a rd' := by
  by_cases hqr : q = r
  · subst hqr
    have hlt : q < (c.node v).rounds.length := (List.getElem?_eq_some_iff.1 hq).1
    rw [List.getElem?_set_self hlt] at hget
    cases hget
    exact ⟨rd₀, hq, hstep⟩
  · rw [List.getElem?_set_ne hqr] at hget
    exact ⟨rd', hget, .refl _ _ _ _ _ _⟩

/-- A round of a node after a step: just started by a leader, or one from before. -/
theorem step_rounds {a : Action A} (h : c.step servers a = some c') {v : A} {r : Nat}
    {rd' : Round A} (hr' : (c'.node v).rounds[r]? = some rd') :
    (∃ texts d, a = .sendAppendEntries v texts d ∧ (c.node v).rounds.length ≤ r ∧
      (sendAppendEntriesAppend (c.node v).state texts d).2 = .ok () ∧
      (c'.node v).state = (sendAppendEntriesAppend (c.node v).state texts d).1 ∧
      rd' = ⟨(c.node v).state.currentTerm, (c.node v).state.logs.length, texts,
        fun _ => .idle, none⟩) ∨
    ∃ rd, (c.node v).rounds[r]? = some rd ∧ RoundStep servers c v r rd a rd' := by
  have hsame : (c.node v).rounds[r]? = some rd' →
      ∃ rd, (c.node v).rounds[r]? = some rd ∧ RoundStep servers c v r rd a rd' :=
    fun hr => ⟨rd', hr, .refl _ _ _ _ _ _⟩
  have hstep := step_becomes h v
  generalize c'.node v = x at hstep hr' ⊢
  cases hstep with
  | @sendAppendEntries texts d hok =>
    rcases Nat.lt_or_ge r (c.node v).rounds.length with hlt | hge
    · rw [List.getElem?_append_left hlt] at hr'
      exact .inr (hsame hr')
    · rw [List.getElem?_append_right hge] at hr'
      exact .inl ⟨texts, d, rfl, hge, hok, rfl, List.mem_singleton.1 (List.mem_of_getElem? hr')⟩
  | peer hr hf _ _ => exact .inr (roundStep_set hr (roundStep_setPeer hf) hr')
  | closeRound hr hret hdone => exact .inr (roundStep_set hr (roundStep_close hret hdone) hr')
  | _ => exact .inr (hsame hr')

/-! ## The wire

What is on the wire was put there by one kind of action for each of the four lists.
-/

/-- Actions that put nothing on the wire and take nothing from it. -/
def Action.OffWire : Action A → Prop
  | .openElection .. | .voteError .. | .countVotes .. | .sendAppendEntries .. | .appendError ..
  | .closeRound .. => True
  | _ => False

theorem step_offWire {a : Action A} (h : c.step servers a = some c') (ha : a.OffWire) :
    c'.voteCalls = c.voteCalls ∧ c'.voteReplies = c.voteReplies ∧
      c'.appendCalls = c.appendCalls ∧ c'.appendReplies = c.appendReplies := by
  cases a with
  | openElection n d =>
    obtain ⟨-, ⟨-, rfl⟩ | ⟨-, rfl⟩⟩ := step_openElection h <;> exact ⟨rfl, rfl, rfl, rfl⟩
  | voteError n p =>
    obtain ⟨e, req, -, -, rfl⟩ := step_voteError h
    exact ⟨rfl, rfl, rfl, rfl⟩
  | countVotes n d =>
    obtain ⟨e, -, -, rfl⟩ := step_countVotes h
    exact ⟨rfl, rfl, rfl, rfl⟩
  | sendAppendEntries n texts d =>
    obtain ⟨-, rfl⟩ | rfl := step_sendAppendEntries h <;> exact ⟨rfl, rfl, rfl, rfl⟩
  | appendError n r p =>
    obtain ⟨rd, req, -, -, rfl⟩ := step_appendError h
    exact ⟨rfl, rfl, rfl, rfl⟩
  | closeRound n r =>
    obtain ⟨rd, -, -, -, rfl⟩ := step_closeRound h
    exact ⟨rfl, rfl, rfl, rfl⟩
  | _ => exact ha.elim

theorem mem_voteCalls {a : Action A} (h : c.step servers a = some c') {call : VoteCall A}
    (hmem : call ∈ c'.voteCalls) :
    call ∈ c.voteCalls ∨
    ∃ e, a = .askVote call.caller call.callee ∧ (c.node call.caller).election = some e ∧
      e.id = call.election ∧ call.callee ≠ call.caller ∧ call.callee ∈ servers ∧
      e.votes call.callee = .idle ∧
      call.req = openElectionRequest call.caller (c.node call.caller).state ∧
      (c'.node call.caller).election = some (e.setVote call.callee (.waiting call.req)) := by
  cases a with
  | askVote n p =>
    obtain ⟨e, he, hp, hidle, ⟨-, rfl⟩ | ⟨hne, rfl⟩⟩ := step_askVote h
    · exact Or.inl hmem
    · rcases List.mem_cons.1 hmem with rfl | hmem
      · exact Or.inr ⟨e, rfl, he, rfl, hne, hp, hidle, rfl, by simp [Cluster.setNode]⟩
      · exact Or.inl hmem
  | requestVote k d₁ d₂ =>
    obtain ⟨call', -, -, ⟨res, -, rfl⟩ | rfl⟩ := step_requestVote h
    all_goals exact Or.inl (List.mem_of_mem_eraseIdx hmem)
  | voteReply k =>
    obtain ⟨call', res, e, req, -, -, -, -, rfl⟩ := step_voteReply h
    exact Or.inl hmem
  | sendRound n r p =>
    obtain ⟨rd, -, -, -, ⟨req, -, rfl⟩ | ⟨-, rfl⟩⟩ := step_sendRound h <;> exact Or.inl hmem
  | appendEntries k d₁ d₂ =>
    obtain ⟨call', -, -, ⟨res, -, rfl⟩ | rfl⟩ := step_appendEntries h <;> exact Or.inl hmem
  | appendReply k =>
    obtain ⟨call', res, rd, req, -, -, -, rfl⟩ := step_appendReply h; exact Or.inl hmem
  | _ => exact Or.inl ((step_offWire h trivial).1 ▸ hmem)

theorem mem_voteReplies {a : Action A} (h : c.step servers a = some c') {call : VoteCall A}
    {res : RequestVoteResponse} (hmem : (call, res) ∈ c'.voteReplies) :
    (call, res) ∈ c.voteReplies ∨
    ∃ k d₁ d₂, a = .requestVote k d₁ d₂ ∧ c.voteCalls[k]? = some call ∧
      (requestVote (c.node call.callee).state call.req d₁ d₂).2 = .ok res ∧
      (c'.node call.callee).state = (requestVote (c.node call.callee).state call.req d₁ d₂).1 := by
  cases a with
  | askVote n p =>
    obtain ⟨e, -, -, -, ⟨-, rfl⟩ | ⟨-, rfl⟩⟩ := step_askVote h <;> exact Or.inl hmem
  | requestVote k d₁ d₂ =>
    obtain ⟨call', hk, -, ⟨res', hres, rfl⟩ | rfl⟩ := step_requestVote h
    · rcases List.mem_cons.1 hmem with heq | hmem
      · cases heq
        exact Or.inr ⟨k, d₁, d₂, rfl, hk, hres, by simp [Cluster.setNode]⟩
      · exact Or.inl hmem
    · exact Or.inl hmem
  | voteReply k =>
    obtain ⟨call', res', e, req, -, -, -, -, rfl⟩ := step_voteReply h
    exact Or.inl (List.mem_of_mem_eraseIdx hmem)
  | sendRound n r p =>
    obtain ⟨rd, -, -, -, ⟨req, -, rfl⟩ | ⟨-, rfl⟩⟩ := step_sendRound h <;> exact Or.inl hmem
  | appendEntries k d₁ d₂ =>
    obtain ⟨call', -, -, ⟨res', -, rfl⟩ | rfl⟩ := step_appendEntries h <;> exact Or.inl hmem
  | appendReply k =>
    obtain ⟨call', res', rd, req, -, -, -, rfl⟩ := step_appendReply h; exact Or.inl hmem
  | _ => exact Or.inl ((step_offWire h trivial).2.1 ▸ hmem)

theorem mem_appendCalls {a : Action A} (h : c.step servers a = some c') {call : AppendCall A}
    (hmem : call ∈ c'.appendCalls) :
    call ∈ c.appendCalls ∨
    ∃ rd, a = .sendRound call.caller call.round call.callee ∧
      (c.node call.caller).rounds[call.round]? = some rd ∧
      (sendAppendEntriesRequest call.caller (c.node call.caller).state call.callee).2 =
        .waiting call.req ∧
      (c'.node call.caller).rounds[call.round]? =
        some (rd.setPeer call.callee (.waiting call.req)) := by
  cases a with
  | askVote n p =>
    obtain ⟨e, -, -, -, ⟨-, rfl⟩ | ⟨-, rfl⟩⟩ := step_askVote h <;> exact Or.inl hmem
  | requestVote k d₁ d₂ =>
    obtain ⟨call', -, -, ⟨res, -, rfl⟩ | rfl⟩ := step_requestVote h <;> exact Or.inl hmem
  | voteReply k =>
    obtain ⟨call', res, e, req, -, -, -, -, rfl⟩ := step_voteReply h
    exact Or.inl hmem
  | sendRound n r p =>
    obtain ⟨rd, hrd, -, -, ⟨req, hreq, rfl⟩ | ⟨-, rfl⟩⟩ := step_sendRound h
    · rcases List.mem_cons.1 hmem with rfl | hmem
      · have hlt : r < (c.node n).rounds.length := (List.getElem?_eq_some_iff.1 hrd).1
        exact Or.inr ⟨rd, rfl, hrd, hreq, by simp [Cluster.setNode, Node.setRound, hlt]⟩
      · exact Or.inl hmem
    · exact Or.inl hmem
  | appendEntries k d₁ d₂ =>
    obtain ⟨call', -, -, ⟨res, -, rfl⟩ | rfl⟩ := step_appendEntries h
    all_goals exact Or.inl (List.mem_of_mem_eraseIdx hmem)
  | appendReply k =>
    obtain ⟨call', res, rd, req, -, -, -, rfl⟩ := step_appendReply h; exact Or.inl hmem
  | _ => exact Or.inl ((step_offWire h trivial).2.2.1 ▸ hmem)

theorem mem_appendReplies {a : Action A} (h : c.step servers a = some c') {call : AppendCall A}
    {res : AppendEntriesResponse} (hmem : (call, res) ∈ c'.appendReplies) :
    (call, res) ∈ c.appendReplies ∨
    ∃ k d₁ d₂, a = .appendEntries k d₁ d₂ ∧ c.appendCalls[k]? = some call ∧
      (appendEntries (c.node call.callee).state call.req d₁ d₂).2 = .ok res ∧
      (c'.node call.callee).state =
        (appendEntries (c.node call.callee).state call.req d₁ d₂).1 := by
  cases a with
  | askVote n p =>
    obtain ⟨e, -, -, -, ⟨-, rfl⟩ | ⟨-, rfl⟩⟩ := step_askVote h <;> exact Or.inl hmem
  | requestVote k d₁ d₂ =>
    obtain ⟨call', -, -, ⟨res', -, rfl⟩ | rfl⟩ := step_requestVote h <;> exact Or.inl hmem
  | voteReply k =>
    obtain ⟨call', res', e, req, -, -, -, -, rfl⟩ := step_voteReply h; exact Or.inl hmem
  | sendRound n r p =>
    obtain ⟨rd, -, -, -, ⟨req, -, rfl⟩ | ⟨-, rfl⟩⟩ := step_sendRound h <;> exact Or.inl hmem
  | appendEntries k d₁ d₂ =>
    obtain ⟨call', hk, -, ⟨res', hres, rfl⟩ | rfl⟩ := step_appendEntries h
    · rcases List.mem_cons.1 hmem with heq | hmem
      · cases heq
        exact Or.inr ⟨k, d₁, d₂, rfl, hk, hres, by simp [Cluster.setNode]⟩
      · exact Or.inl hmem
    · exact Or.inl hmem
  | appendReply k =>
    obtain ⟨call', res', rd, req, -, -, -, rfl⟩ := step_appendReply h
    exact Or.inl (List.mem_of_mem_eraseIdx hmem)
  | _ => exact Or.inl ((step_offWire h trivial).2.2.2 ▸ hmem)

end Raft
end DistributedPrograms
