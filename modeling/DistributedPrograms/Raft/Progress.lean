import Mathlib.Data.Finset.Max
import DistributedPrograms.Raft.CatchUp
import DistributedPrograms.Raft.NewTerm

/-!
# A follower is enough

`split_brain_for_ever` shows clusters that can do nothing any more.  As long as one server is a
follower there is a way on (`progress_possible`).  The follower gathers all servers in a new term,
the one with the longest log is elected, sends its log to everybody and takes a `post_log` that
returns `Ok(true)`.

The theorem starts from *every* reachable state with a follower: elections may be on, rounds under
way, other nodes stuck as leaders or candidates, and the wire full of old requests.  It gives the
steps of a run that goes on from there, and says what has been reached in the end (`Resumed`): some
server `b` leads a new term that all others follow; it has kept its own log and has added the texts
behind it; and its commit index is at the end.

The pieces are in the three modules before this one.

* `Possible.calm`, `Possible.raise` and `Possible.gather` lead to a term that is new to all;
* `Possible.win` elects a server with a longest log;
* `Leading.syncAll` brings everybody up to date;
* `Possible.post` takes the texts.

It is a statement about what can happen, not about what will.  That timers fire and messages arrive
in a favourable order is not something the code can promise.  The hypotheses, that terms and lengths
of logs are far enough from the end of their ranges, are about the state from which the run goes on.
-/

set_option autoImplicit false

namespace DistributedPrograms
namespace Raft

variable {A : Type} [DecidableEq A] {servers : Finset A} {c c' : Cluster A} {f b : A} {T : Nat}

open VariableState

theorem getElem?_zero_of_prefix {logs : List Log} (h : [initLog] <+: logs) :
    logs[0]? = some initLog := by
  obtain ⟨rest, rfl⟩ := h
  rfl

theorem WonByAll.leading (h : WonByAll servers b T c c') (hfirst : ∀ p ∈ servers,
    (c.node p).state.logs[0]? = some initLog) (hb : b ∈ servers) :
    Leading servers b T (c.node b).state.logs ∅ c' := by
  refine ⟨⟨by rw [h.leader]; rfl, h.term⟩, h.logs, hfirst b hb, h.election, fun p hp hpb => ?_,
    by simp⟩
  have hready := h.peer p hp hpb
  have hterm : (c'.node p).state.currentTerm = (c'.node b).state.currentTerm :=
    hready.term.trans h.term.symm
  refine ⟨(c.node b).state.logs.length - 1, ⟨⟨_, _, h.leader, if_pos hp⟩, ?_, ?_, ?_⟩, hready.role,
    hterm, hready.election, ?_⟩
  · rw [h.logs]
    exact Nat.sub_le _ 1
  · exact Nat.le_of_eq hterm
  · exact fun _ => hready.role
  · rw [hready.logs]
    exact hfirst p hp

/-- Since `c` the server `b` has come to lead a new term `T`, which all others follow.  It has kept
its own log and has added `texts` in a `post_log` that returned `Ok(true)`, and has committed them.
-/
structure Resumed (servers : Finset A) (texts : List String) (b : A) (T : Nat) (c c' : Cluster A) :
    Prop where
  newer : ∀ p ∈ servers, (c.node p).state.currentTerm < T
  lead : Leads c' b T
  follow : ∀ p ∈ servers, p ≠ b → (c'.node p).state.role = .follower ∧
    (c'.node p).state.currentTerm = T
  logs : (c'.node b).state.logs = (c.node b).state.logs ++ texts.map fun text => ⟨text, T⟩
  commit : (c'.node b).state.commitIndex = (c'.node b).state.logs.length - 1
  round : ∃ r rd, (c.node b).rounds.length ≤ r ∧ (c'.node b).rounds[r]? = some rd ∧
    rd.texts = texts ∧ rd.ret = some true

/-- Some server with a longest log becomes leader of a new term and everybody takes its log. -/
theorem Possible.lead (hcard : 1 < servers.card) (hf : f ∈ servers)
    (hrole : (c.node f).state.role = .follower)
    (hterm : ∀ p ∈ servers, (c.node p).state.currentTerm + 2 < 2 ^ 64)
    (hlen : ∀ p ∈ servers, (c.node p).state.logs.length < 2 ^ 64)
    (hfirst : ∀ p ∈ servers, (c.node p).state.logs[0]? = some initLog) :
    ∃ b ∈ servers, Possible (Cluster.step servers) NoWrap (fun t => ∃ T,
      (∀ p ∈ servers, (c.node p).state.currentTerm < T) ∧
        Leading servers b T (c.node b).state.logs servers t) c := by
  obtain ⟨b, hb, hlongest⟩ :=
    Finset.exists_max_image servers (fun p => (c.node p).state.logs.length) ⟨f, hf⟩
  refine ⟨b, hb, (Possible.gather hcard hf hrole hterm).bind ?_⟩
  rintro c₁ ⟨T, hT, hready⟩
  have hlogs : ∀ p ∈ servers, (c₁.node p).state.logs = (c.node p).state.logs := fun p hp =>
    (hready p hp).2.logs
  refine (Possible.win hb hT ?_ ?_ (fun p hp => hlogs p hp ▸ (hready p hp).2) fun p hp => ?_).bind
    fun c₂ hwon => ?_
  · rw [hlogs b hb]
    exact hlen b hb
  · rw [hlogs b hb]
    exact (List.getElem?_eq_some_iff.1 (hfirst b hb)).1
  · rw [hlogs p hp, hlogs b hb]
    exact hlongest p hp
  · have hleading := hwon.leading (fun p hp => (hlogs p hp).symm ▸ hfirst p hp) hb
    rw [hlogs b hb] at hleading
    exact hleading.syncAll.mono fun t ht =>
      ⟨T + 1, fun p hp => Nat.lt_succ_of_lt (hready p hp).1, ht⟩

/-- **A follower is enough.**  From every reachable state in which one of several servers is a
follower the run can go on to where a leader of a new term has taken any texts in a `post_log`. -/
theorem progress_possible {rest : List (Cluster A)}
    (h : Run (Cluster.step servers) NoTermWrap Cluster.init (c :: rest)) (hcard : 1 < servers.card)
    (hf : f ∈ servers) (hrole : (c.node f).state.role = .follower)
    (hterm : ∀ p ∈ servers, (c.node p).state.currentTerm + 2 < 2 ^ 64)
    (hlen : ∀ p ∈ servers, (c.node p).state.logs.length < 2 ^ 64) (texts : List String) :
    ∃ c' later, Run (Cluster.step servers) NoTermWrap Cluster.init (c' :: later) ∧
      (c :: rest) <:+ c' :: later ∧ ∃ b ∈ servers, ∃ T, Resumed servers texts b T c c' := by
  have hfirst : ∀ p ∈ servers, (c.node p).state.logs[0]? = some initLog := fun p _ =>
    getElem?_zero_of_prefix (initLog_isPrefix h c (by simp) p)
  obtain ⟨b, hb, hlead⟩ := Possible.lead hcard hf hrole hterm hlen hfirst
  have hkeep : ∀ (t : Cluster A) (a : Action A) (t' : Cluster A),
      (c.node b).rounds.length ≤ (t.node b).rounds.length → t.step servers a = some t' →
      (c.node b).rounds.length ≤ (t'.node b).rounds.length := fun t a t' hle hs =>
    Nat.le_trans hle (rounds_length_le hs b)
  have hresumed : Possible (Cluster.step servers) NoWrap
      (fun t => ∃ T, Resumed servers texts b T c t) c := by
    refine (hlead.keeping hkeep (Nat.le_refl _)).bind ?_
    rintro t ⟨⟨T, hnew, ht⟩, hle⟩
    refine (Possible.post texts hb ht).mono ?_
    rintro t' ⟨hlead, hpeers, hlogs, hcommit, r, rd, hr, hrd, hround⟩
    exact ⟨T, hnew, hlead, hpeers, hlogs, hcommit, r, rd, Nat.le_trans hle hr, hrd, hround⟩
  obtain ⟨c', later, hrun, hsuffix, hP⟩ := hresumed.exists_run (fun _ _ _ hc => hc) h
  exact ⟨c', later, hrun, hsuffix, b, hb, hP⟩

/-- One of two servers is a candidate for ever by itself, because its save has failed; the other can
still get a log committed. -/
theorem progress_possible_two :
    ∃ (c : Cluster (Fin 2)) (rest : List (Cluster (Fin 2))),
      (c.node 1).state.role = .candidate ∧ (c.node 1).election = none ∧
      ∃ c' later, Run (Cluster.step Finset.univ) NoTermWrap Cluster.init (c' :: later) ∧
        (c :: rest) <:+ c' :: later ∧
        ∃ b ∈ Finset.univ, ∃ T, Resumed Finset.univ ["a"] b T c c' := by
  have hcheck : Run.check (Cluster.step (Finset.univ : Finset (Fin 2)))
      (fun tr a => decide (NoTermWrap tr a)) Cluster.init [.openElection 1 (.err none)]
      (fun tr => decide (∀ c ∈ tr.head?, (c.node 1).state.role.isCandidate = true ∧
        (c.node 1).election.isNone = true ∧ (c.node 0).state.role.isFollower = true ∧
        ∀ p, (c.node p).state.currentTerm ≤ 1 ∧ (c.node p).state.logs.length = 1)) = true := by
    decide +kernel
  obtain ⟨tr, hrun, hp⟩ :=
    Run.exists_of_check (C := NoTermWrap) (fun _ _ hc => of_decide_eq_true hc) hcheck
  cases tr with
  | nil => exact absurd rfl hrun.ne_nil
  | cons c rest =>
    obtain ⟨hcandidate, hnone, hfollower, hsmall⟩ := of_decide_eq_true hp c rfl
    refine ⟨c, rest, Role.isCandidate_iff.1 hcandidate, Option.isNone_iff_eq_none.1 hnone, ?_⟩
    refine progress_possible hrun (by decide) (Finset.mem_univ 0) (Role.isFollower_iff.1 hfollower)
      (fun p _ => ?_) (fun p _ => ?_) ["a"]
    · have := (hsmall p).1
      omega
    · have := (hsmall p).2
      omega


end Raft
end DistributedPrograms
