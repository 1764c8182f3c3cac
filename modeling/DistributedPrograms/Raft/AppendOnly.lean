import DistributedPrograms.Raft.ElectionSafety
import DistributedPrograms.Raft.Exposed

/-!
# A leader only appends

While a node is leader of a term its log only grows, whatever requests it gets.  `LeaderKept` is
what every step does to every node: terms do not go back, and a leader that keeps its term stays
leader and keeps its log as a prefix.  So between two moments at which a node is leader of one term
it has been so all the time.

The requests may come from outside, with any content (`Raft.Exposed`).  Both handlers are therefore
looked at for an arbitrary request: `requestVote_leaderKept` and `appendEntries_leaderKept` say that
neither takes a leader's log away in its own term.  What they can do is to raise its term, and then
the node is no leader any more.

Terms do go back where `current_term += 1` wraps.  A request of the largest term makes that happen
at the next election, and the node can then come to lead an old term again (`leader_loses_entry`).
`ExposedNoWrap` is the only condition on a run, and it is about the election that wraps, not about
the request before it.
-/

set_option autoImplicit false

namespace DistributedPrograms
namespace Raft

variable {A : Type} [DecidableEq A] {servers : Finset A} {c c' : Cluster A}

open VariableState

/-- If a node leads a term at two moments, its log at the first is a prefix of the one at the
second. -/
def LeaderAppendsOnly (tr : List (Cluster A)) : Prop :=
  ∀ s' tr₀, (s' :: tr₀) <:+ tr → ∀ s ∈ s' :: tr₀, ∀ n T, Leads s n T → Leads s' n T →
    (s.node n).state.logs <+: (s'.node n).state.logs

/-- No election of the cluster takes a term past the largest 64-bit number. -/
def ExposedNoWrap (tr : List (Cluster A)) : ExposedAction A → Prop
  | .own a => NoTermWrap tr a
  | _ => True

instance (tr : List (Cluster A)) (e : ExposedAction A) : Decidable (ExposedNoWrap tr e) := by
  rcases e <;> dsimp only [ExposedNoWrap] <;> infer_instance

/-- What every step does to a node, whoever sends it what.  The term does not fall, and a node that
leads keeps its log and its role for as long as its term stays. -/
structure LeaderKept (s t : VariableState A) : Prop where
  term_le : s.currentTerm ≤ t.currentTerm
  kept : s.role.isLeader = true → t.currentTerm = s.currentTerm →
    t.role.isLeader = true ∧ s.logs <+: t.logs

omit [DecidableEq A] in
theorem LeaderKept.refl (s : VariableState A) : LeaderKept s s :=
  ⟨Nat.le_refl _, fun h _ => ⟨h, List.prefix_refl _⟩⟩

theorem Effect.leaderKept {a : Action A} {v : A} {t : VariableState A} (hw : NoWrap c a)
    (h : Effect servers c v a t) : LeaderKept (c.node v).state t := by
  refine ⟨h.term_le hw, fun hs hterm => ?_⟩
  have ht := h.leader_stays hs hterm
  refine ⟨ht, ?_⟩
  rcases h.leader ht with ⟨-, -, texts, hl⟩ | ⟨d, e, -, -, -, -, -, -, hl⟩
  · rw [hl]
    exact List.prefix_append _ _
  · rw [hl]

/-- A vote request, whatever it says, takes no leader's log away. -/
theorem requestVote_leaderKept (s : VariableState A) (req : RequestVoteRequest A) (d₁ d₂ : Disk A) :
    LeaderKept s (requestVote s req d₁ d₂).1 := by
  have hspec := requestVote_spec s req d₁ d₂
  rcases hspec.role_term with ⟨hr, hterm⟩ | ⟨-, hterm, hlt⟩
  · refine ⟨Nat.le_of_eq hterm.symm, fun hs _ => ⟨hr ▸ hs, ?_⟩⟩
    rw [hspec.logs]
  · exact ⟨by omega, fun _ heq => by omega⟩

omit [DecidableEq A] in
/-- Nor does an entries request: a log is only changed by a follower. -/
theorem appendEntries_leaderKept (s : VariableState A) (req : AppendEntriesRequest)
    (d₁ d₂ : Disk A) : LeaderKept s (appendEntries s req d₁ d₂).1 := by
  have hspec := appendEntries_spec s req d₁ d₂
  rcases hspec.role_term with ⟨hr, hterm⟩ | ⟨-, hterm, hlt⟩
  · refine ⟨Nat.le_of_eq hterm.symm, fun hs _ => ⟨hr ▸ hs, ?_⟩⟩
    rcases hspec.stored with ⟨hl, -⟩ | hst
    · rw [hl]
    · -- the request was accepted, so the node was follower
      rw [← hr, hst.role] at hs
      exact absurd hs (by simp)
  · exact ⟨by omega, fun _ heq => by omega⟩

theorem exposedStep_leaderKept {e : ExposedAction A} {tr : List (Cluster A)}
    (hw : ExposedNoWrap (c :: tr) e) (h : c.exposedStep servers e = some c') (v : A) :
    LeaderKept (c.node v).state (c'.node v).state := by
  rcases exposedStep_cases h v with ⟨a, rfl, hs⟩ | heq | ⟨req, d₁, d₂, -, heq⟩ |
    ⟨req, d₁, d₂, -, heq⟩
  · exact (step_effect hs v).leaderKept hw
  · rw [heq]
    exact LeaderKept.refl _
  · rw [heq]
    exact requestVote_leaderKept _ req d₁ d₂
  · rw [heq]
    exact appendEntries_leaderKept _ req d₁ d₂

/-- What a step does to every node, a run does too. -/
theorem leaderKept_run {tr : List (Cluster A)}
    (h : Run (Cluster.exposedStep servers) ExposedNoWrap Cluster.init (c :: tr)) :
    ∀ s ∈ c :: tr, ∀ v, LeaderKept (s.node v).state (c.node v).state := by
  refine Run.head_induction (P := fun c tr => ∀ s ∈ c :: tr, ∀ v,
    LeaderKept (s.node v).state (c.node v).state) ?_ ?_ h
  · intro s hs v
    obtain rfl := List.mem_singleton.1 hs
    exact LeaderKept.refl _
  · intro c tr e c' _ hw hs ih s hmem v
    rcases List.mem_cons.1 hmem with rfl | hmem
    · exact LeaderKept.refl _
    · have hold := ih s hmem v
      have hstep := exposedStep_leaderKept hw hs v
      refine ⟨hold.term_le.trans hstep.term_le, fun hlead hterm => ?_⟩
      -- the term in between is squeezed, so the node was leader there too
      have hmid : (c.node v).state.currentTerm = (s.node v).state.currentTerm :=
        Nat.le_antisymm (hterm ▸ hstep.term_le) hold.term_le
      obtain ⟨hl, hpre⟩ := hold.kept hlead hmid
      obtain ⟨hl', hpre'⟩ := hstep.kept hl (hterm.trans hmid.symm)
      exact ⟨hl', hpre.trans hpre'⟩

/-- **A leader only appends.**  As long as no term wraps, a node that leads a term at two moments
has only appended to its log in between, whatever requests anybody sends. -/
theorem leader_appends_only {tr : List (Cluster A)}
    (h : Run (Cluster.exposedStep servers) ExposedNoWrap Cluster.init tr) :
    LeaderAppendsOnly tr := by
  intro s' tr₀ hsuf s hs n T hl hl'
  have hrun := h.of_suffix hsuf (List.cons_ne_nil _ _)
  exact ((leaderKept_run hrun s hs n).kept hl.1 (hl'.2.trans hl.2.symm)).2

/-! ## Two runs

In the first a log is truncated between two leaderships of one node, in different terms, which is
allowed; in the second the terms are the same. -/

/-- An outsider raises the term of a leader and has it truncate its log; the node is elected again
in a later term. -/
theorem leader_appends_only_one :
    ∃ tr : List (Cluster (Fin 2)), LeaderAppendsOnly tr ∧
      ∃ s ∈ tr, ∃ s' ∈ tr, Leads s 0 1 ∧ Leads s' 0 1 ∧
        (s.node 0).state.logs ≠ (s'.node 0).state.logs := by
  have hcheck : Run.check (Cluster.exposedStep ({0} : Finset (Fin 2)))
      (fun tr e => decide (ExposedNoWrap tr e)) Cluster.init
      [.own (.openElection 0 .ok), .own (.askVote 0 0), .own (.countVotes 0 .ok),
        .own (.sendAppendEntries 0 ["a"] .ok), .foreignEntries 0 ⟨1, 0, 0, [], 0⟩ .ok .ok,
        .foreignVote 0 ⟨1, 1, 7, 1⟩ .ok .ok, .own (.sendAppendEntries 0 ["b"] .ok),
        .foreignEntries 0 ⟨5, 0, 0, [], 0⟩ .ok .ok, .own (.openElection 0 .ok),
        .own (.askVote 0 0), .own (.countVotes 0 .ok)]
      (fun tr => decide (∃ s ∈ tr, ∃ s' ∈ tr, Leads s 0 1 ∧ Leads s' 0 1 ∧
        (s.node 0).state.logs ≠ (s'.node 0).state.logs)) = true := by
    decide +kernel
  obtain ⟨tr, hrun, hp⟩ := Run.exists_of_check (fun _ _ hc => of_decide_eq_true hc) hcheck
  exact ⟨tr, leader_appends_only hrun, of_decide_eq_true hp⟩

/-- **A leader leads an old term again.**  A request of the largest term truncates the log of leader
0 of term 2; the term of its next election wraps to 0, and from there it is elected in term 2 once
more. -/
theorem leader_loses_entry :
    ∃ tr : List (Cluster (Fin 2)), Run (Cluster.exposedStep {0}) (fun _ _ => True) Cluster.init tr ∧
      ¬LeaderAppendsOnly tr := by
  have hcheck : Run.checkStep (Cluster.exposedStep ({0} : Finset (Fin 2))) (fun _ _ => true)
      Cluster.init
      [.foreignVote 0 ⟨1, 1, 0, 0⟩ .ok .ok,
        .own (.openElection 0 .ok), .own (.askVote 0 0), .own (.countVotes 0 .ok),
        .own (.sendAppendEntries 0 ["a"] .ok),
        .foreignEntries 0 ⟨2 ^ 64 - 1, 0, 0, [], 0⟩ .ok .ok,
        .own (.openElection 0 .ok), .own (.askVote 0 0), .own (.countVotes 0 .ok),
        .foreignVote 0 ⟨1, 1, 0, 0⟩ .ok .ok,
        .own (.openElection 0 .ok), .own (.askVote 0 0)]
      (.own (.countVotes 0 .ok))
      (fun s' _ tr => decide (∃ s ∈ tr, Leads s 0 2 ∧ Leads s' 0 2 ∧
        ¬(s.node 0).state.logs <+: (s'.node 0).state.logs)) = true := by
    decide +kernel
  obtain ⟨s', s₁, tr, hrun, -, hp⟩ :=
    Run.exists_of_checkStep (C := fun _ _ => True) (fun _ _ _ => trivial) hcheck
  obtain ⟨s, hs, hl, hl', hnot⟩ := of_decide_eq_true hp
  refine ⟨_, hrun, fun honly => hnot ?_⟩
  exact honly s' (s₁ :: tr) List.suffix_rfl s
    (List.mem_cons_of_mem _ (List.mem_cons_of_mem _ hs)) 0 2 hl hl'

end Raft
end DistributedPrograms
