import DistributedPrograms.Raft.Persistence
import DistributedPrograms.Raft.RoundOverlap

/-!
# The heartbeats of a leader

A node that wins an election spawns a task that sends rounds without entries for as long as the node
leads.  The task is meant to end with the leadership it was started for, but all it does is look, at
each wake-up, whether the node is leader.  A node that steps down and is elected again before the
task wakes up finds the old task at its side, in its new term, and spawns a second one
(`not_one_heartbeat`).

`Beating` is the cluster with these tasks, and it adds nothing to what the cluster can do: a task
takes the steps that start and run its rounds, one at a time, and its sleep may end at any moment.
A `Task` has, for the statement only, the term it was started in and the rounds it has sent.

* `StillSends` is a task that sends another round if nothing else happens to the node.
* `OneHeartbeat` is the statement about a moment: of a node at most one task still sends, and every
  round a task has sent is of the task's own term, its requests included.
* `WinsAlone` is the condition on a step: who wins an election has no heartbeat task alive.
* `Beats` is the invariant that carries it through a run.

`one_heartbeat_iff` says that a node has one heartbeat, and the heartbeat keeps to its term, exactly
in the runs in which nobody wins an election while an earlier task of his is still alive.  The
condition is necessary because who wins beside a living task has two that send
(`winsAlone_of_oneHeartbeat`).
-/

set_option autoImplicit false

namespace DistributedPrograms
namespace Raft

variable {A : Type} [DecidableEq A]

open VariableState

/-! ## The tasks

A task for each election won, which sends a round, sleeps, and looks at the role again. -/

/-- Where a heartbeat task stands in its loop. -/
inductive Stage where
  /-- it sleeps, or is about to look at the role -/
  | asleep
  /-- it has found the node leader and is about to call `send_append_entries` -/
  | calling
  /-- its call is the round `r` of the node -/
  | inRound (r : Nat)
  | ended
  deriving DecidableEq

/-- A heartbeat task, with the term of the leadership it was started for and the rounds it has sent;
the code keeps neither. -/
structure Task where
  term : Nat
  stage : Stage
  rounds : List Nat

structure Beating (A : Type) where
  cluster : Cluster A
  tasks : A → List Task

inductive BeatAction (A : Type)
  /-- A step of the nodes and the wire. -/
  | cluster (a : Action A)
  /-- The task `i` of `n` looks at the role. -/
  | look (n : A) (i : Nat)
  /-- It calls `send_append_entries`. -/
  | call (n : A) (i : Nat) (d : Disk A)
  /-- Its call has returned and it goes to sleep. -/
  | sleep (n : A) (i : Nat)

namespace Beating

/-- Before any election: no task. -/
def start (c : Cluster A) : Beating A := ⟨c, fun _ => []⟩

def setTask (b : Beating A) (n : A) (i : Nat) (t : Task) : Beating A :=
  { b with tasks := Function.update b.tasks n ((b.tasks n).set i t) }

@[simp] theorem setTask_self (b : Beating A) (n : A) (i : Nat) (t : Task) :
    (b.setTask n i t).tasks n = (b.tasks n).set i t := by
  simp [setTask]

@[simp] theorem setTask_of_ne (b : Beating A) {m n : A} (i : Nat) (t : Task) (h : m ≠ n) :
    (b.setTask n i t).tasks m = b.tasks m := by
  simp [setTask, h]

/-- The tasks after a step of the cluster to `c`: an `open_election` that has made a candidate
leader has spawned one. -/
def spawned (b : Beating A) (c : Cluster A) : Action A → A → List Task
  | .countVotes n _ =>
    if (b.cluster.node n).state.role.isCandidate && (c.node n).state.role.isLeader then
      Function.update b.tasks n
        (b.tasks n ++ [⟨(c.node n).state.currentTerm, .asleep, []⟩])
    else b.tasks
  | _ => b.tasks

def step (servers : Finset A) (b : Beating A) : BeatAction A → Option (Beating A)
  | .cluster a =>
    match b.cluster.step servers a with
    | some c => some ⟨c, b.spawned c a⟩
    | none => none
  | .look n i =>
    match (b.tasks n)[i]? with
    | some ⟨term, .asleep, rounds⟩ =>
      let stage := if (b.cluster.node n).state.role.isLeader then .calling else .ended
      some (b.setTask n i ⟨term, stage, rounds⟩)
    | _ => none
  | .call n i d =>
    match (b.tasks n)[i]? with
    | some ⟨term, .calling, rounds⟩ =>
      match b.cluster.step servers (.sendAppendEntries n [] d) with
      | some c =>
        let r := (b.cluster.node n).rounds.length
        -- an error is logged, and the loop goes on
        let t := if r < (c.node n).rounds.length then ⟨term, .inRound r, r :: rounds⟩
          else ⟨term, .asleep, rounds⟩
        some (setTask { b with cluster := c } n i t)
      | none => none
    | _ => none
  | .sleep n i =>
    match (b.tasks n)[i]? with
    | some ⟨term, .inRound r, rounds⟩ =>
      match (b.cluster.node n).rounds[r]? with
      | some rd => if rd.ret.isSome then some (b.setTask n i ⟨term, .asleep, rounds⟩) else none
      | none => none
    | _ => none

end Beating

/-! ## One heartbeat

What is to hold of the tasks at every moment. -/

/-- The task `i` of `n` sends another round if nothing else happens to the node.  It looks at the
role only, so it does so also in a later leadership than the one it was spawned for. -/
def StillSends (b : Beating A) (n : A) (i : Nat) : Prop :=
  (b.cluster.node n).state.role.isLeader = true ∧ ∃ t ∈ (b.tasks n)[i]?, t.stage ≠ .ended

instance (b : Beating A) (n : A) (i : Nat) : Decidable (StillSends b n i) := by
  unfold StillSends; infer_instance

/-- The round `rd` and all its requests are of term `T`. -/
def OfTerm (T : Nat) (rd : Round A) : Prop :=
  rd.term = T ∧ ∀ p req, (rd.peers p).sent = some req → req.term = T

structure OneHeartbeat (b : Beating A) : Prop where
  alone : ∀ n i j, StillSends b n i → StillSends b n j → i = j
  ownTerm : ∀ n, ∀ t ∈ b.tasks n, ∀ r ∈ t.rounds, ∀ rd ∈ (b.cluster.node n).rounds[r]?,
    OfTerm t.term rd

/-- The condition on a step: who wins an election has no heartbeat task alive.  A task that has
slept through the time in which its node was not leader goes on beside the new one. -/
def WinsAlone (servers : Finset A) (tr : List (Beating A)) : BeatAction A → Prop
  | .cluster (.countVotes n d) => ∀ b ∈ tr.head?, ∀ e ∈ (b.cluster.node n).election,
      (b.cluster.node n).state.role.isCandidate = true →
      countTrue servers e.votes * 2 > servers.card → d.IsOk → ∀ t ∈ b.tasks n, t.stage = .ended
  | _ => True

instance (servers : Finset A) (tr : List (Beating A)) (a : BeatAction A) :
    Decidable (WinsAlone servers tr a) := by
  unfold WinsAlone
  split <;> infer_instance

/-! ## The invariant

A task alive is one of the term that its node leads, if the node leads at all; and the rounds of a
task are its own, also those that are still under way. -/

variable {servers : Finset A} {b b' : Beating A} {c : Cluster A}

/-- A round of the task `t` is of its term; it is the one the task is in, or its futures are
done. -/
structure OwnRound (servers : Finset A) (t : Task) (r : Nat) (rd : Round A) : Prop where
  ofTerm : OfTerm t.term rd
  current : rd.ret = none → t.stage = .inRound r
  done : rd.ret ≠ none → ∀ p ∈ servers, (rd.peers p).isDone = true

structure Beats (servers : Finset A) (b : Beating A) : Prop where
  alone : ∀ n (i j : Nat) (t u : Task), (b.tasks n)[i]? = some t → (b.tasks n)[j]? = some u →
    t.stage ≠ .ended → u.stage ≠ .ended → i = j
  /-- A task that is alive under a leader is of the leader's term. -/
  term : ∀ n, (b.cluster.node n).state.role.isLeader = true → ∀ t ∈ b.tasks n,
    t.stage ≠ .ended → t.term = (b.cluster.node n).state.currentTerm
  rounds : ∀ n, ∀ t ∈ b.tasks n, ∀ r ∈ t.rounds, ∃ rd, (b.cluster.node n).rounds[r]? = some rd ∧
    OwnRound servers t r rd

omit [DecidableEq A] in
theorem Beats.oneHeartbeat (h : Beats servers b) : OneHeartbeat b := by
  refine ⟨fun n i j ⟨_, t, ht, hlive⟩ ⟨_, u, hu, hlive'⟩ => h.alone n i j t u ht hu hlive hlive',
    fun n t ht r hr rd hrd => ?_⟩
  obtain ⟨rd', hrd', hown⟩ := h.rounds n t ht r hr
  obtain ⟨⟩ := hrd'.symm.trans hrd
  exact hown.ofTerm

omit [DecidableEq A] in
theorem beats_start : Beats servers (Beating.start c) where
  alone n i j t u ht := by simp [Beating.start] at ht
  term n _ t ht := by simp [Beating.start] at ht
  rounds n t ht := by simp [Beating.start] at ht

/-- One task takes a step: it keeps its term, is not woken from the dead, and has its rounds. -/
theorem Beats.setTask (h : Beats servers b) {n : A} {i : Nat} {t t' : Task}
    (ht : (b.tasks n)[i]? = some t) (hterm : t'.term = t.term)
    (hlive : t'.stage ≠ .ended → t.stage ≠ .ended)
    (hrounds : ∀ r ∈ t'.rounds, ∃ rd, (b.cluster.node n).rounds[r]? = some rd ∧
      OwnRound servers t' r rd) : Beats servers (b.setTask n i t') := by
  have hlt : i < (b.tasks n).length := (List.getElem?_eq_some_iff.1 ht).1
  -- every task is an old one, at the same place, or the new one
  have hget : ∀ m (j : Nat) (u : Task), ((b.setTask n i t').tasks m)[j]? = some u →
      (b.tasks m)[j]? = some u ∨ (m = n ∧ j = i ∧ u = t') := by
    intro m j u hu
    by_cases hm : m = n
    · subst hm
      rw [Beating.setTask_self] at hu
      by_cases hj : j = i
      · subst hj
        rw [List.getElem?_set_self hlt] at hu
        exact Or.inr ⟨rfl, rfl, (Option.some.inj hu).symm⟩
      · rw [List.getElem?_set_ne (Ne.symm hj)] at hu
        exact Or.inl hu
    · rw [Beating.setTask_of_ne _ _ _ hm] at hu
      exact Or.inl hu
  have hold : ∀ m (j : Nat) (u : Task), ((b.setTask n i t').tasks m)[j]? = some u →
      u.stage ≠ .ended → ∃ w : Task, (b.tasks m)[j]? = some w ∧ w.stage ≠ .ended ∧ w.term = u.term := by
    intro m j u hu hlive'
    rcases hget m j u hu with hu | ⟨rfl, rfl, rfl⟩
    · exact ⟨u, hu, hlive', rfl⟩
    · exact ⟨t, ht, hlive hlive', hterm.symm⟩
  refine ⟨fun m j k u w hu hw hu' hw' => ?_, fun m hlead u hu hu' => ?_, fun m u hu => ?_⟩
  · obtain ⟨u₀, hu₀, hlive₀, -⟩ := hold m j u hu hu'
    obtain ⟨w₀, hw₀, hlive₁, -⟩ := hold m k w hw hw'
    exact h.alone m j k u₀ w₀ hu₀ hw₀ hlive₀ hlive₁
  · obtain ⟨j, hj⟩ := List.mem_iff_getElem?.1 hu
    obtain ⟨w, hw, hlive', hterm'⟩ := hold m j u hj hu'
    rw [← hterm']
    exact h.term m hlead w (List.mem_of_getElem? hw) hlive'
  · obtain ⟨j, hj⟩ := List.mem_iff_getElem?.1 hu
    rcases hget m j u hj with hj | ⟨rfl, -, rfl⟩
    · exact h.rounds m u (List.mem_of_getElem? hj)
    · exact hrounds

/-! ## A step of the cluster

Everything that the nodes do besides their heartbeats, the end of an election among it. -/

/-- A round of a task after a step: if a request is added to it, it is of the term of the leader,
and the task is alive. -/
theorem OwnRound.step {a : Action A} {n : A} {t : Task} {r : Nat} {rd rd' : Round A}
    (h : OwnRound servers t r rd) (hs : b.cluster.step servers a = some c)
    (hrd : (b.cluster.node n).rounds[r]? = some rd)
    (hterm : (b.cluster.node n).state.role.isLeader = true → t.stage ≠ .ended →
      t.term = (b.cluster.node n).state.currentTerm)
    (hstep : RoundStep servers b.cluster n r rd a rd') : OwnRound servers t r rd' := by
  refine ⟨⟨hstep.term.trans h.ofTerm.1, fun p req hreq => ?_⟩, fun hret => ?_, fun hret p hp => ?_⟩
  · have hpeer := hstep.peers p
    generalize rd'.peers p = f at hpeer hreq
    cases hpeer with
    | keep => exact h.ofTerm.2 p req hreq
    | start hidle =>
      obtain ⟨rd₀, hrd₀, hp, -⟩ := step_sendRound hs
      obtain ⟨⟩ := hrd₀.symm.trans hrd
      obtain ⟨hlead, hreqTerm⟩ := sendAppendEntriesRequest_term hreq
      -- a future of a round that has returned does not start
      have hopen : rd.ret = none := by
        by_contra hret
        have hdone := h.done hret p hp
        rw [hidle] at hdone
        contradiction
      rw [hreqTerm, hterm hlead]
      rw [h.current hopen]
      exact fun heq => Stage.noConfusion heq
    | error hw => exact h.ofTerm.2 p req (by rw [hw]; exact hreq)
    | reply hw _ _ _ _ => exact h.ofTerm.2 p req (by rw [hw]; exact hreq)
  · rcases hstep.ret with heq | ⟨-, -, -, heq⟩
    · exact h.current (heq ▸ hret)
    · rw [heq] at hret
      contradiction
  · have hdone : (rd.peers p).isDone = true := by
      rcases hstep.ret with heq | ⟨-, -, hdone, -⟩
      · exact h.done (heq ▸ hret) p hp
      · exact hdone p hp
    rw [(hstep.peers p).eq_of_done hdone]
    exact hdone

/-- The step `a` to `c` is the end of an election that `n` wins. -/
def Won (b : Beating A) (c : Cluster A) (a : Action A) (n : A) : Prop :=
  (∃ d, a = .countVotes n d) ∧ (b.cluster.node n).state.role.isCandidate = true ∧
    (c.node n).state.role.isLeader = true

/-- Who wins has a task more than before. -/
theorem spawned_cases (b : Beating A) (c : Cluster A) (a : Action A) (n : A) :
    (¬Won b c a n ∧ b.spawned c a n = b.tasks n) ∨
    (Won b c a n ∧
      b.spawned c a n = b.tasks n ++ [⟨(c.node n).state.currentTerm, .asleep, []⟩]) := by
  cases a with
  | countVotes m d =>
    rw [Beating.spawned]
    split
    · next hwon =>
      by_cases hm : n = m
      · subst hm
        rw [Bool.and_eq_true] at hwon
        exact Or.inr ⟨⟨⟨d, rfl⟩, hwon⟩, Function.update_self _ _ _⟩
      · refine Or.inl ⟨fun ⟨⟨d', heq⟩, _⟩ => ?_, Function.update_of_ne hm _ _⟩
        obtain ⟨⟩ := heq
        exact hm rfl
    · next hlost =>
      refine Or.inl ⟨fun ⟨⟨d', heq⟩, hwon⟩ => ?_, rfl⟩
      obtain ⟨⟩ := heq
      exact hlost (Bool.and_eq_true _ _ ▸ hwon)
  | _ => exact Or.inl ⟨fun ⟨⟨d, heq⟩, _⟩ => by contradiction, rfl⟩

/-- An election is won by a majority, if the save succeeds. -/
theorem openElectionCount_isLeader {s : VariableState A} {n : Nat} {d : Disk A}
    (h : s.role = .candidate) : (openElectionCount servers s n d).1.role.isLeader = true ↔
      n * 2 > servers.card ∧ d.IsOk := by
  rw [openElectionCount, if_neg (by simp [h, Role.isCandidate])]
  cases d with
  | ok => split <;> simp_all [savePersistent, Disk.IsOk]
  | err left => split <;> simp_all [savePersistent, Disk.IsOk]

theorem Won.counted {a : Action A} {n : A} (h : Won b c a n)
    (hs : b.cluster.step servers a = some c) : ∃ d e, a = .countVotes n d ∧
      (b.cluster.node n).election = some e ∧ countTrue servers e.votes * 2 > servers.card ∧
      d.IsOk := by
  obtain ⟨⟨d, rfl⟩, hcand, hlead⟩ := h
  obtain ⟨e, he, -, rfl⟩ := step_countVotes hs
  rw [Cluster.setNode_self, openElectionCount_isLeader (Role.isCandidate_iff.1 hcand)] at hlead
  exact ⟨d, e, rfl, he, hlead⟩

theorem getElem?_concat_cases {α : Type} {l : List α} {x y : α} {i : Nat}
    (h : (l ++ [x])[i]? = some y) : l[i]? = some y ∨ (i = l.length ∧ y = x) := by
  rcases Nat.lt_or_ge i l.length with hi | hi
  · rw [List.getElem?_append_left hi] at h
    exact Or.inl h
  · rw [List.getElem?_append_right hi, List.getElem?_singleton] at h
    split at h
    · exact Or.inr ⟨by omega, (Option.some.inj h).symm⟩
    · contradiction

theorem Beats.cluster (h : Beats servers b) {a : Action A} {tr : List (Beating A)}
    (hs : b.cluster.step servers a = some c) (hc : WinsAlone servers (b :: tr) (.cluster a)) :
    Beats servers ⟨c, b.spawned c a⟩ := by
  -- the tasks of a winner from before have ended
  have hended : ∀ n, Won b c a n → ∀ t ∈ b.tasks n, t.stage = .ended := by
    intro n hwon
    obtain ⟨d, e, rfl, he, hmaj, hd⟩ := hwon.counted hs
    exact hc b rfl e he hwon.2.1 hmaj hd
  refine ⟨fun n i j t u ht hu hlive hlive' => ?_, fun n hlead t ht hlive => ?_,
    fun n t ht r hr => ?_⟩
  · change (b.spawned c a n)[i]? = some t at ht
    change (b.spawned c a n)[j]? = some u at hu
    rcases spawned_cases b c a n with ⟨-, heq⟩ | ⟨hwon, heq⟩
    · rw [heq] at ht hu
      exact h.alone n i j t u ht hu hlive hlive'
    · have hlast : ∀ (k : Nat) (v : Task), (b.spawned c a n)[k]? = some v → v.stage ≠ .ended →
          k = (b.tasks n).length := by
        intro k v hv hlive
        rw [heq] at hv
        rcases getElem?_concat_cases hv with hv | ⟨hk, -⟩
        · exact absurd (hended n hwon v (List.mem_of_getElem? hv)) hlive
        · exact hk
      rw [hlast i t ht hlive, hlast j u hu hlive']
  · change t ∈ b.spawned c a n at ht
    rcases spawned_cases b c a n with ⟨hnot, heq⟩ | ⟨hwon, heq⟩
    · rw [heq] at ht
      rcases (step_effect hs n).leader hlead with ⟨hlead', hterm, -⟩ | ⟨d, e, ha, -, -, -, hcand, -⟩
      · exact (h.term n hlead' t ht hlive).trans hterm.symm
      · exact absurd ⟨⟨d, ha⟩, Role.isCandidate_iff.2 hcand, hlead⟩ hnot
    · rw [heq] at ht
      rcases List.mem_append.1 ht with ht | ht
      · exact absurd (hended n hwon t ht) hlive
      · rw [List.mem_singleton.1 ht]
  · change t ∈ b.spawned c a n at ht
    have hold : t ∈ b.tasks n := by
      rcases spawned_cases b c a n with ⟨-, heq⟩ | ⟨-, heq⟩
      · exact heq ▸ ht
      · rw [heq] at ht
        rcases List.mem_append.1 ht with ht | ht
        · exact ht
        · rw [List.mem_singleton.1 ht] at hr
          exact absurd hr List.not_mem_nil
    obtain ⟨rd, hrd, hown⟩ := h.rounds n t hold r hr
    have hlt : r < (b.cluster.node n).rounds.length := (List.getElem?_eq_some_iff.1 hrd).1
    have hlt' : r < (c.node n).rounds.length := Nat.lt_of_lt_of_le hlt (rounds_length_le hs n)
    have hrd' : (c.node n).rounds[r]? = some (c.node n).rounds[r] := List.getElem?_eq_getElem hlt'
    refine ⟨_, hrd', ?_⟩
    rcases step_rounds hs hrd' with ⟨_, _, -, hge, -⟩ | ⟨rd₀, hrd₀, hstep⟩
    · omega
    · obtain ⟨⟩ := hrd₀.symm.trans hrd
      exact hown.step hs hrd (fun hlead hlive => h.term n hlead t hold hlive) hstep

/-! ## A step of a task

The task itself moves, or its round does. -/

/-- A task that is in no round keeps the rounds it has. -/
theorem Beats.rest (h : Beats servers b) {n : A} {i : Nat} {t : Task} {stage : Stage}
    (ht : (b.tasks n)[i]? = some t) (hlive : t.stage ≠ .ended)
    (hrounds : ∀ r ∈ t.rounds, t.stage = .inRound r →
      ∀ rd ∈ (b.cluster.node n).rounds[r]?, rd.ret ≠ none) :
    Beats servers (b.setTask n i { t with stage := stage }) := by
  refine h.setTask ht rfl (fun _ => hlive) fun r hr => ?_
  obtain ⟨rd, hrd, hown⟩ := h.rounds n t (List.mem_of_getElem? ht) r hr
  refine ⟨rd, hrd, hown.ofTerm, fun hopen => ?_, hown.done⟩
  exact absurd hopen (hrounds r hr (hown.current hopen) rd hrd)

theorem Beats.look (h : Beats servers b) {n : A} {i : Nat}
    (hs : b.step servers (.look n i) = some b') : Beats servers b' := by
  rw [Beating.step] at hs
  split at hs
  · next term rounds ht =>
    obtain ⟨⟩ := hs
    exact h.rest ht (fun heq => Stage.noConfusion heq) fun r _ heq => Stage.noConfusion heq
  · contradiction

theorem Beats.sleep (h : Beats servers b) {n : A} {i : Nat}
    (hs : b.step servers (.sleep n i) = some b') : Beats servers b' := by
  rw [Beating.step] at hs
  split at hs
  · next term r rounds ht =>
    split at hs
    · next rd hrd =>
      split at hs
      · next hret =>
        obtain ⟨⟩ := hs
        refine h.rest ht (fun heq => Stage.noConfusion heq) fun r' _ heq rd' hrd' hopen => ?_
        obtain ⟨⟩ := heq
        obtain ⟨⟩ := hrd.symm.trans hrd'
        rw [hopen] at hret
        contradiction
      · contradiction
    · contradiction
  · contradiction

/-- What the call of a task leaves: a round of the task's own term, or an error. -/
theorem Beats.call (h : Beats servers b) {n : A} {i : Nat} {d : Disk A}
    (hs : b.step servers (.call n i d) = some b') : Beats servers b' := by
  rw [Beating.step] at hs
  split at hs
  · next term rounds ht =>
    split at hs
    · next c hcall =>
      obtain ⟨⟩ := hs
      have hnoWin : WinsAlone servers [b] (.cluster (.sendAppendEntries n [] d)) := trivial
      have hafter : Beats servers { b with cluster := c } := h.cluster hcall hnoWin
      split
      · next hlt =>
        refine hafter.setTask ht rfl (fun _ heq => Stage.noConfusion heq) fun r hr => ?_
        rcases List.mem_cons.1 hr with rfl | hr
        · -- the new round: it has sent nothing yet
          have hrd : (c.node n).rounds[(b.cluster.node n).rounds.length]? = some _ :=
            List.getElem?_eq_getElem hlt
          refine ⟨_, hrd, ?_⟩
          rcases step_rounds hcall hrd with ⟨texts, d', heq, -, hok, -, hnew⟩ | ⟨rd, hrd', -⟩
          · obtain ⟨⟩ := heq
            rcases sendAppendEntriesAppend_cases (b.cluster.node n).state [] d with
              ⟨-, -, e, herr⟩ | ⟨hlead, -⟩
            · rw [hok] at herr
              contradiction
            · rw [hnew]
              refine ⟨⟨?_, fun p req hreq => by contradiction⟩, fun _ => rfl,
                fun hret => absurd rfl hret⟩
              exact (h.term n hlead _ (List.mem_of_getElem? ht) fun heq =>
                Stage.noConfusion heq).symm
          · have := (List.getElem?_eq_some_iff.1 hrd').1
            omega
        · obtain ⟨rd, hrd, hown⟩ := hafter.rounds n _ (List.mem_of_getElem? ht) r hr
          exact ⟨rd, hrd, hown.ofTerm, fun hopen => Stage.noConfusion (hown.current hopen),
            hown.done⟩
      · exact hafter.rest ht (fun heq => Stage.noConfusion heq)
          fun r _ heq => Stage.noConfusion heq
    · contradiction
  · contradiction

theorem Beats.step (h : Beats servers b) {x : BeatAction A} {tr : List (Beating A)}
    (hs : b.step servers x = some b') (hc : WinsAlone servers (b :: tr) x) :
    Beats servers b' := by
  cases x with
  | cluster a =>
    rw [Beating.step] at hs
    split at hs
    · next c hstep =>
      obtain ⟨⟩ := hs
      exact h.cluster hstep hc
    · contradiction
  | look n i => exact h.look hs
  | call n i d => exact h.call hs
  | sleep n i => exact h.sleep hs

/-- Who wins with a task still alive has two afterwards. -/
theorem winsAlone_of_oneHeartbeat {x : BeatAction A} {tr : List (Beating A)}
    (hs : b.step servers x = some b') (h : OneHeartbeat b') : WinsAlone servers (b :: tr) x := by
  rw [WinsAlone.eq_def]
  split
  · next n d =>
    rintro _ ⟨⟩ e he hcand hmaj hd t ht
    rw [Beating.step] at hs
    split at hs
    · next c hstep =>
      obtain ⟨⟩ := hs
      have hlead : (c.node n).state.role.isLeader = true := by
        obtain ⟨e', he', -, rfl⟩ := step_countVotes hstep
        obtain ⟨⟩ := he'.symm.trans he
        rw [Cluster.setNode_self, openElectionCount_isLeader (Role.isCandidate_iff.1 hcand)]
        exact ⟨hmaj, hd⟩
      rcases spawned_cases b c (.countVotes n d) n with ⟨hnot, -⟩ | ⟨-, heq⟩
      · exact absurd ⟨⟨d, rfl⟩, hcand, hlead⟩ hnot
      · by_contra hlive
        obtain ⟨i, hi⟩ := List.mem_iff_getElem?.1 ht
        have hlt : i < (b.tasks n).length := (List.getElem?_eq_some_iff.1 hi).1
        have hold : StillSends ⟨c, b.spawned c (.countVotes n d)⟩ n i := by
          refine ⟨hlead, t, ?_, hlive⟩
          change (b.spawned c (.countVotes n d) n)[i]? = some t
          rw [heq, List.getElem?_append_left hlt]
          exact hi
        have hnew : StillSends ⟨c, b.spawned c (.countVotes n d)⟩ n (b.tasks n).length := by
          refine ⟨hlead, ⟨(c.node n).state.currentTerm, .asleep, []⟩, ?_,
            fun heq => Stage.noConfusion heq⟩
          change (b.spawned c (.countVotes n d) n)[(b.tasks n).length]? = _
          rw [heq, List.getElem?_concat_length]
        exact Nat.ne_of_lt hlt (h.alone n _ _ hold hnew)
    · contradiction
  · trivial

/-! ## Runs

The invariant along a run, and when it fails. -/

/-- **At most one heartbeat task of a node is going to send another round, and none sends one in
another term than its own**, exactly as long as nobody wins an election while an earlier task of his
is alive. -/
theorem one_heartbeat_iff {c₀ : Cluster A} {tr : List (Beating A)}
    (h : Run (Beating.step servers) (fun _ _ => True) (.start c₀) tr) :
    (∀ b ∈ tr, OneHeartbeat b) ↔
      Run (Beating.step servers) (WinsAlone servers) (.start c₀) tr := by
  refine ⟨fun hone => h.of_forall_step fun s' s rest x hsuf hs => ?_, fun halone => ?_⟩
  · exact winsAlone_of_oneHeartbeat hs (hone s' (hsuf.subset (by simp)))
  · have hbeats : ∀ b ∈ tr, Beats servers b :=
      halone.forall_mem beats_start fun _ _ _ _ _ hc hi hs => hi.step hs hc
    exact fun b hb => (hbeats b hb).oneHeartbeat

/-- Node 1 stands for election and gives up; its request has made node 0 a follower. -/
def deposeFirst : List (Action (Fin 2)) :=
  [.openElection 1 .ok, .askVote 1 0, .requestVote 0 .ok .ok, .voteError 1 0]

/-- Node 0 is elected again. -/
def electFirstAgain : List (Action (Fin 2)) :=
  [.openElection 0 .ok, .askVote 0 0, .askVote 0 1, .requestVote 0 .ok .ok, .voteReply 0,
    .countVotes 0 .ok]

/-- The first task finds its leadership gone, and ends, before the next one begins. -/
theorem one_heartbeat_iff_ended : ∃ tr : List (Beating (Fin 2)),
    (∀ b ∈ tr, OneHeartbeat b) ∧ ∃ b ∈ tr, StillSends b 0 1 := by
  have hcheck : Run.check (Beating.step ({0, 1} : Finset (Fin 2)))
      (fun tr a => decide (WinsAlone {0, 1} tr a)) (.start .init)
      (electFirst.map .cluster ++ [.look 0 0] ++ deposeFirst.map .cluster ++
        [.call 0 0 .ok, .look 0 0] ++ electFirstAgain.map .cluster)
      (fun tr => decide (∃ b ∈ tr, StillSends b 0 1)) = true := by
    decide +kernel
  obtain ⟨tr, hrun, hp⟩ := Run.exists_of_check (fun _ _ hc => of_decide_eq_true hc) hcheck
  exact ⟨tr, (one_heartbeat_iff (hrun.mono fun _ _ _ => trivial)).2 hrun, of_decide_eq_true hp⟩

/-- **Two heartbeats.**  Node 0 steps down and is elected again while its first task sleeps.  Both
tasks go on, and the first, of term 1, sends a round in term 3. -/
theorem not_one_heartbeat : ∃ tr : List (Beating (Fin 2)),
    Run (Beating.step {0, 1}) (fun _ _ => True) (.start .init) tr ∧ ∃ b ∈ tr, ¬OneHeartbeat b ∧
      StillSends b 0 0 ∧ StillSends b 0 1 ∧ ∃ t ∈ (b.tasks 0)[0]?, t.term = 1 ∧
        ∃ r ∈ t.rounds, ∃ rd ∈ (b.cluster.node 0).rounds[r]?, rd.term = 3 := by
  have hcheck : Run.check (Beating.step ({0, 1} : Finset (Fin 2))) (fun _ _ => true)
      (.start .init)
      (electFirst.map .cluster ++ deposeFirst.map .cluster ++ electFirstAgain.map .cluster ++
        [.look 0 0, .call 0 0 .ok])
      (fun tr => decide (∃ b ∈ tr, StillSends b 0 0 ∧ StillSends b 0 1 ∧
        ∃ t ∈ (b.tasks 0)[0]?, t.term = 1 ∧
          ∃ r ∈ t.rounds, ∃ rd ∈ (b.cluster.node 0).rounds[r]?, rd.term = 3)) = true := by
    decide +kernel
  obtain ⟨tr, hrun, hp⟩ :=
    Run.exists_of_check (C := fun _ _ => True) (fun _ _ _ => trivial) hcheck
  obtain ⟨b, hb, h₀, h₁, hsent⟩ := of_decide_eq_true hp
  exact ⟨tr, hrun, b, hb, fun hone => absurd (hone.alone 0 0 1 h₀ h₁) (by decide), h₀, h₁, hsent⟩

end Raft
end DistributedPrograms
