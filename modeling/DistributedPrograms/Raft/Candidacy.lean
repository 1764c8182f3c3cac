import DistributedPrograms.Raft.OneVote
import DistributedPrograms.Raft.Persistence

/-!
# Stuck as a candidate

A node is candidate while an `open_election` of it is under way and is to be follower or leader when
the call has ended.  The call has three ways out by `?` after it has made the node a candidate: the
save of the new term, and the save of the cleared vote, which comes before the new role whether the
election is won or lost.  None of them takes the role back.  A node that leaves by one of them stays
candidate: `launch` calls `open_election` again, but the call returns at once on a node that is not
follower.

`never_stuck_iff` says that these are the only ways: a node is never stuck exactly when every save
of an election that makes or finds it candidate succeeds.

The steps are those of a `Voter`, so the statement covers whatever a node is started with, any
requests in any order, restarts, and failing saves everywhere else.  A request of a newer term would
free a node that is stuck, but the statement is about every moment of a run.  `notStuck_step_iff` is
exact for one step, and the theorem follows by induction.
-/

set_option autoImplicit false

namespace DistributedPrograms
namespace Raft

variable {A : Type} [DecidableEq A]

open VariableState

/-- A node none of whose elections is under way is follower or leader.  A candidate without an
election could leave its role through requests of others only, since `open_election` is for
followers. -/
def Voter.NotStuck (v : Voter A) : Prop := v.electing = false → v.state.role ≠ .candidate

instance (v : Voter A) : Decidable v.NotStuck :=
  decidable_of_iff (v.electing = false → v.state.role.isCandidate = false) <| by
    rw [Voter.NotStuck, Ne, ← Role.isCandidate_iff, Bool.not_eq_true]

/-- The condition on a step: the saves of an election succeed on a node that is candidate then.  A
save that fails ends `open_election` by `?`, and the role stays as it is. -/
def SavesElection (tr : List (Voter A)) : VoterAction A → Prop
  | .openElection d => ∀ v ∈ tr.head?, v.state.role.isFollower = true → d.IsOk
  | .countVotes _ d => ∀ v ∈ tr.head?, v.state.role.isCandidate = true → d.IsOk
  | _ => True

instance (tr : List (Voter A)) (a : VoterAction A) : Decidable (SavesElection tr a) := by
  rcases a <;> dsimp only [SavesElection] <;> infer_instance

/-! ## The two ends of an election

What the start and the count leave behind, each with a save that succeeds and with one that fails.
-/

variable {me : A} {servers : Finset A} {v v' : Voter A} {t : VariableState A}
  {tr : List (Voter A)} {d : Disk A}

omit [DecidableEq A] in
/-- An election that is started makes a candidate; a failed save ends it there. -/
theorem openElectionStart_of_follower (h : v.state.role = .follower) :
    (openElectionStart v.state d).1.role = .candidate ∧
      ((openElectionStart v.state d).2 = .ok true ↔ d.IsOk) := by
  rw [openElectionStart, if_neg (by simp [h, Role.isFollower])]
  cases d with
  | ok => exact ⟨rfl, fun _ => trivial, fun _ => rfl⟩
  | err left => exact ⟨rfl, fun hok => by simp [savePersistent] at hok, False.elim⟩

/-- The count leaves a candidate only where it cannot save. -/
theorem openElectionCount_of_candidate {n : Nat} (h : v.state.role = .candidate) :
    (openElectionCount servers v.state n d).1.role ≠ .candidate ↔ d.IsOk := by
  rw [openElectionCount, if_neg (by simp [h, Role.isCandidate])]
  cases d with
  | ok => split <;> simp [savePersistent, Disk.IsOk]
  | err left => split <;> simp [savePersistent, Disk.IsOk, h]

theorem openElectionCount_role {n : Nat} (h : v.state.role ≠ .candidate) :
    (openElectionCount servers v.state n d).1.role ≠ .candidate := by
  rcases openElectionCount_cases servers v.state n d with ⟨-, ho⟩ | ⟨hrole, -⟩
  · rw [ho]
    exact h
  · exact absurd hrole h

/-! ## Steps

Each kind of step by itself: who was not stuck is not stuck afterwards, but for one that fails to
save. -/

theorem notStuck_openElection (h : v.NotStuck)
    (hs : v.step me servers (.openElection d) = some v') :
    v'.NotStuck ↔ SavesElection (v :: tr) (.openElection d) := by
  rw [Voter.step] at hs
  split at hs
  · contradiction
  next hel =>
  by_cases hrole : v.state.role = .follower
  · obtain ⟨hcand, hsaved⟩ := openElectionStart_of_follower (d := d) hrole
    have hcond : SavesElection (v :: tr) (.openElection d) ↔ d.IsOk := by
      simp [SavesElection, hrole, Role.isFollower]
    rw [hcond, ← hsaved]
    generalize openElectionStart v.state d = o at hs hcand
    obtain ⟨s, res⟩ := o
    split at hs
    · next heq =>
      obtain ⟨⟩ := hs
      rw [Prod.mk.injEq] at heq
      exact ⟨fun _ => heq.2, fun _ hover => absurd hover (by simp)⟩
    · next hne heq =>
      obtain ⟨⟩ := hs
      rw [Prod.mk.injEq] at heq
      refine ⟨fun hfree => absurd (heq.1 ▸ hcand) (hfree (Bool.eq_false_iff.2 hel)), fun hok => ?_⟩
      exact absurd (heq.2.symm.trans hok) hne
  · have hcond : SavesElection (v :: tr) (.openElection d) := by
      rintro u ⟨⟩ hfollower
      exact absurd (Role.isFollower_iff.1 hfollower) hrole
    rcases openElectionStart_cases v.state d with ⟨-, ho⟩ | ⟨hfollower, -⟩
    · rw [ho] at hs
      obtain ⟨⟩ := hs
      exact iff_of_true h hcond
    · exact absurd hfollower hrole

theorem notStuck_countVotes {n : Nat} (hs : v.step me servers (.countVotes n d) = some v') :
    v'.NotStuck ↔ SavesElection (v :: tr) (.countVotes n d) := by
  rw [Voter.step] at hs
  split at hs
  · obtain ⟨⟩ := hs
    by_cases hrole : v.state.role = .candidate
    · have hcond : SavesElection (v :: tr) (.countVotes n d) ↔ d.IsOk := by
        simp [SavesElection, hrole, Role.isCandidate]
      have hcount : (openElectionCount servers v.state n d).1.role ≠ .candidate ↔ d.IsOk :=
        openElectionCount_of_candidate hrole
      rw [hcond, ← hcount]
      exact ⟨fun hfree => hfree rfl, fun hfree _ => hfree⟩
    · refine iff_of_true (fun _ => openElectionCount_role hrole) ?_
      rintro u ⟨⟩ hcand
      exact absurd (Role.isCandidate_iff.1 hcand) hrole
  · contradiction

omit [DecidableEq A] in
/-- A step that makes no candidate. -/
theorem Voter.NotStuck.of_state (h : v.NotStuck)
    (hrole : t.role = .candidate → v.state.role = .candidate) :
    Voter.NotStuck { v with state := t } :=
  fun hel hcand => h hel (hrole hcand)

/-- **What one step does**: a node gets stuck exactly by a save of its own election that fails. -/
theorem notStuck_step_iff {a : VoterAction A} (h : v.NotStuck)
    (hs : v.step me servers a = some v') : v'.NotStuck ↔ SavesElection (v :: tr) a := by
  cases a with
  | openElection d => exact notStuck_openElection h hs
  | countVotes n d => exact notStuck_countVotes hs
  | requestVote req d₁ d₂ =>
    refine iff_of_true ?_ trivial
    have hkept : Voter.NotStuck { v with state := (requestVote v.state req d₁ d₂).1 } := by
      refine h.of_state fun hcand => ?_
      obtain ⟨hsame, -⟩ := (requestVote_spec v.state req d₁ d₂).kept (by simp [hcand])
      exact hsame.symm.trans hcand
    rw [Voter.step] at hs
    split at hs
    · next s res ho =>
      obtain ⟨⟩ := hs
      rw [ho] at hkept
      exact hkept
    · next s e ho =>
      obtain ⟨⟩ := hs
      rw [ho] at hkept
      exact hkept
  | appendEntries req d₁ d₂ =>
    obtain ⟨⟩ := hs
    refine iff_of_true (h.of_state fun hcand => ?_) trivial
    obtain ⟨hsame, -⟩ := (appendEntries_spec v.state req d₁ d₂).kept (by simp [hcand])
    exact hsame.symm.trans hcand
  | sendAppendEntries texts d =>
    obtain ⟨⟩ := hs
    refine iff_of_true (h.of_state fun hcand => ?_) trivial
    rcases sendAppendEntriesAppend_cases v.state texts d with ⟨-, ho, -⟩ | ⟨-, file, ho⟩
    · rw [ho] at hcand
      exact hcand
    · rw [ho] at hcand
      exact hcand
  | sendRound addr =>
    obtain ⟨⟩ := hs
    exact iff_of_true (h.of_state (sendAppendEntriesRequest_same me v.state addr).candidate_iff.1)
      trivial
  | roundReply addr success =>
    obtain ⟨⟩ := hs
    exact iff_of_true (h.of_state (sendAppendEntriesReply_same v.state addr success).candidate_iff.1)
      trivial
  | closeRound n =>
    obtain ⟨⟩ := hs
    refine iff_of_true (h.of_state fun hcand => ?_) trivial
    rw [sendAppendEntriesCommit] at hcand
    split at hcand
    · exact hcand
    · exact hcand
  | restart =>
    refine iff_of_true ?_ trivial
    rw [Voter.step] at hs
    cases hfile : v.state.file with
    | none =>
      rw [hfile] at hs
      contradiction
    | some p =>
      rw [hfile] at hs
      obtain ⟨⟩ := hs
      exact fun _ hcand => by simp at hcand

/-! ## Runs

From the steps to runs, in both directions. -/

omit [DecidableEq A] in
theorem fromFile_role {file : Option (Option (Persistent A))} {s : VariableState A}
    (h : fromFile file = .ok s) : s.role = .follower := by
  rcases file with _ | _ | p
  · obtain ⟨⟩ := h
    rfl
  · contradiction
  · obtain ⟨⟩ := h
    rfl

/-- **A node is never stuck as a candidate** exactly as long as the saves of its own elections
succeed, whatever it is started with, whatever else happens to it and whichever other save fails. -/
theorem never_stuck_iff {file : Option (Option (Persistent A))} {s : VariableState A}
    (hstart : fromFile file = .ok s)
    (h : Run (Voter.step me servers) (fun _ _ => True) ⟨s, false, []⟩ tr) :
    (∀ v ∈ tr, v.NotStuck) ↔ Run (Voter.step me servers) SavesElection ⟨s, false, []⟩ tr := by
  have h₀ : Voter.NotStuck (⟨s, false, []⟩ : Voter A) := fun _ hcand => by
    rw [fromFile_role hstart] at hcand
    contradiction
  refine ⟨fun hfree => h.of_forall_step fun s' s rest a hsuf hs => ?_, fun hsaves => ?_⟩
  · have hmem : s ∈ tr := hsuf.subset (by simp)
    have hmem' : s' ∈ tr := hsuf.subset (by simp)
    exact (notStuck_step_iff (hfree s hmem) hs).1 (hfree s' hmem')
  · exact hsaves.forall_mem h₀ fun _ _ _ _ _ hc hfree hs => (notStuck_step_iff hfree hs).2 hc

/-- A node started without a file that loses an election and wins the next one, while the save of a
vote fails. -/
theorem never_stuck_iff_saved : ∃ tr : List (Voter (Fin 3)),
    (∀ v ∈ tr, v.NotStuck) ∧ ∃ v ∈ tr, v.state.role.isLeader = true := by
  have hcheck : Run.check (Voter.step (0 : Fin 3) {0, 1, 2})
      (fun tr a => decide (SavesElection tr a)) ⟨.init, false, []⟩
      [.requestVote ⟨1, 1, 0, 0⟩ .ok (.err none), .openElection .ok, .countVotes 1 .ok,
        .openElection .ok, .countVotes 2 .ok]
      (fun tr => decide (∃ v ∈ tr, v.state.role.isLeader = true)) = true := by
    decide +kernel
  obtain ⟨tr, hrun, hp⟩ := Run.exists_of_check (fun _ _ hc => of_decide_eq_true hc) hcheck
  have hstart : fromFile none = .ok (.init : VariableState (Fin 3)) := rfl
  exact ⟨tr, (never_stuck_iff hstart (hrun.mono fun _ _ _ => trivial)).2 hrun,
    of_decide_eq_true hp⟩

/-- **One failed save is enough.**  The save at the start of an election fails; the next
`open_election` returns at once, the entries of the leader of the node's term are refused, and the
node is still candidate. -/
theorem not_never_stuck : ∃ tr : List (Voter (Fin 3)),
    Run (Voter.step 0 {0, 1, 2}) (fun _ _ => True) ⟨.init, false, []⟩ tr ∧
      ∃ v ∈ tr.head?, ¬v.NotStuck ∧ v.state.logs = [initLog] := by
  have hcheck : Run.check (Voter.step (0 : Fin 3) {0, 1, 2}) (fun _ _ => true)
      ⟨.init, false, []⟩
      [.openElection (.err none), .openElection .ok,
        .appendEntries ⟨1, 0, 0, [⟨"a", 1⟩], 0⟩ .ok .ok]
      (fun tr => decide (∃ v ∈ tr.head?, ¬v.NotStuck ∧ v.state.logs = [initLog])) = true := by
    decide +kernel
  obtain ⟨tr, hrun, hp⟩ :=
    Run.exists_of_check (C := fun _ _ => True) (fun _ _ _ => trivial) hcheck
  exact ⟨tr, hrun, of_decide_eq_true hp⟩

end Raft
end DistributedPrograms
