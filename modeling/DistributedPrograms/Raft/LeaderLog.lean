import DistributedPrograms.Lib.Prefix
import DistributedPrograms.Raft.ElectionSafety

/-!
# The log of a leader

While a node leads a term its log only grows, by entries of that term, and with election safety this
makes the logs of *all* leaders of a term one growing list (`led_comparable`).  An entries request
is cut out of such a log (`built_of_call`): `next_index` never points behind the end, so the entry
at `prev_log_index` is there and the entries are everything behind it.

* `Appended T L L'` says that `L'` is `L` with some entries of term `T` behind it; it is transitive,
  so what one step does to the log of a leader a whole leadership does.
* `Led tr n T L`: at some moment of the history `n` led term `T` with the log `L`.  Statements about
  logs are about such moments, because the leader may have moved on or lost its office since.
* `NextIndexOk` is the invariant that makes a request well formed.  It has one lemma for each
  handler and each part of a call, since all of them touch the log or the maps of a leader.
* `FromLog` and `Built` say what a request is: a cut through a leader's log, with the rest of it as
  entries. The entries are always *all* that comes behind `prev_log_index`, so a request covers the
  whole log.
-/

set_option autoImplicit false

namespace DistributedPrograms
namespace Raft

variable {A : Type} [DecidableEq A] {servers : Finset A} {c c' : Cluster A}
  {tr : List (Cluster A)}

open VariableState

/-! ## Growing by entries of one term

What a leader does to its log, as long as it leads. -/

/-- `L'` is `L` with some entries of term `T` appended. -/
def Appended (T : Nat) (L L' : List Log) : Prop :=
  ∃ texts : List String, L' = L ++ texts.map fun text => ⟨text, T⟩

namespace Appended

variable {T : Nat} {L L' L'' : List Log}

theorem refl (T : Nat) (L : List Log) : Appended T L L := ⟨[], by simp⟩

theorem trans (h : Appended T L L') (h' : Appended T L' L'') : Appended T L L'' := by
  obtain ⟨texts, rfl⟩ := h
  obtain ⟨texts', rfl⟩ := h'
  exact ⟨texts ++ texts', by simp⟩

theorem isPrefix (h : Appended T L L') : L <+: L' := by
  obtain ⟨texts, rfl⟩ := h
  exact List.prefix_append _ _

/-- The entries behind the old ones are of term `T`. -/
theorem term_of_le (h : Appended T L L') {i : Nat} {e : Log} (hi : L.length ≤ i)
    (he : L'[i]? = some e) : e.term = T := by
  obtain ⟨texts, rfl⟩ := h
  rw [List.getElem?_append_right hi] at he
  obtain ⟨text, -, rfl⟩ := List.mem_map.1 (List.mem_of_getElem? he)
  rfl

end Appended

/-! ## Leaders along a run

The step from one moment to a later one goes through `leads_persist`: a node that leads a term at
the later moment has led it all the time since. -/

/-- At some moment `n` is leader of term `T` and its log is `L`.  Such logs of one term are prefixes
of each other, as a leader appends only. -/
def Led (tr : List (Cluster A)) (n : A) (T : Nat) (L : List Log) : Prop :=
  ∃ s ∈ tr, Leads s n T ∧ (s.node n).state.logs = L

omit [DecidableEq A] in
theorem Led.mono {tr' : List (Cluster A)} {n : A} {T : Nat} {L : List Log} (h : Led tr n T L)
    (hsub : tr ⊆ tr') : Led tr' n T L := by
  obtain ⟨s, hs, h⟩ := h
  exact ⟨s, hsub hs, h⟩

omit [DecidableEq A] in
theorem Led.cons {n : A} {T : Nat} {L : List Log} (h : Led tr n T L) (c : Cluster A) :
    Led (c :: tr) n T L :=
  h.mono (List.subset_cons_self c tr)

section Run

variable {C : List (Cluster A) → Action A → Prop}

/-- Once leader of a term, a node is leader as long as it is in the term. -/
theorem leads_persist (hW : ∀ tr a, C tr a → NoTermWrap tr a)
    (h : Run (Cluster.step servers) C Cluster.init (c :: tr)) {n : A} {T : Nat} :
    ∀ s ∈ c :: tr, Leads s n T → (c.node n).state.currentTerm = T → Leads c n T := by
  refine Run.head_induction (P := fun c tr => ∀ s ∈ c :: tr, Leads s n T →
    (c.node n).state.currentTerm = T → Leads c n T) ?_ ?_ h
  · intro s hs hl _
    rwa [List.mem_singleton.1 hs] at hl
  · intro c tr a c' hrun hc hs ih s hmem hl hT
    rcases List.mem_cons.1 hmem with rfl | hmem
    · exact hl
    have hle := term_mono hW hrun n s hmem
    have hstep := (step_effect hs n).term_le (hW _ _ hc)
    have hterm : (c.node n).state.currentTerm = T := by
      have := hl.2
      omega
    obtain ⟨hlead, -⟩ := ih s hmem hl hterm
    exact ⟨(step_effect hs n).leader_stays hlead (by rw [hT, hterm]), hT⟩

/-- A leader's log has grown by entries of its term from every log it had as leader of that term. -/
theorem leads_appended (hW : ∀ tr a, C tr a → NoTermWrap tr a)
    (h : Run (Cluster.step servers) C Cluster.init (c :: tr)) {n : A} {T : Nat} :
    Leads c n T → ∀ s ∈ c :: tr, Leads s n T →
      Appended T (s.node n).state.logs (c.node n).state.logs := by
  refine Run.head_induction (P := fun c tr => Leads c n T → ∀ s ∈ c :: tr, Leads s n T →
      Appended T (s.node n).state.logs (c.node n).state.logs) ?_ ?_ h
  · intro _ s hs _
    rw [List.mem_singleton.1 hs]
    exact Appended.refl _ _
  · intro c tr a c' hrun hc hs ih hlead s hmem hl
    rcases List.mem_cons.1 hmem with rfl | hmem
    · exact Appended.refl _ _
    rcases (step_effect hs n).leader hlead.1 with ⟨hr, hterm, htexts⟩ |
      ⟨d, e, rfl, -, -, -, hrole, hterm, -⟩
    · have hT : (c.node n).state.currentTerm = T := hterm ▸ hlead.2
      exact (ih ⟨hr, hT⟩ s hmem hl).trans (hT ▸ htexts)
    · -- a candidate has not led its term
      have hT : (c.node n).state.currentTerm = T := hterm ▸ hlead.2
      have hcand := (leads_persist hW hrun s hmem hl hT).1
      rw [hrole] at hcand
      exact absurd hcand (by simp)

/-- **One log for a term.**  The logs of the leaders of a term are comparable, and what one has more
than another are entries of that term. -/
theorem led_comparable (hW : ∀ tr a, C tr a → NoTermWrap tr a)
    (hV : ∀ tr a, C tr a → VoteOnce tr a)
    (h : Run (Cluster.step servers) C Cluster.init tr) {n m : A} {T : Nat} {L L' : List Log}
    (hL : Led tr n T L) (hL' : Led tr m T L') : Appended T L L' ∨ Appended T L' L := by
  obtain ⟨s, hs, hl, rfl⟩ := hL
  obtain ⟨s', hs', hl', rfl⟩ := hL'
  cases leads_unique hW hV h hs hs' hl hl'
  rcases Run.exists_suffix_or hs hs' with ⟨tr₀, hsuf, hmem⟩ | ⟨tr₀, hsuf, hmem⟩
  · exact Or.inr (leads_appended hW (h.of_suffix hsuf (by simp)) hl s' hmem hl')
  · exact Or.inl (leads_appended hW (h.of_suffix hsuf (by simp)) hl' s hmem hl)

theorem led_comparable' (hW : ∀ tr a, C tr a → NoTermWrap tr a)
    (hV : ∀ tr a, C tr a → VoteOnce tr a)
    (h : Run (Cluster.step servers) C Cluster.init tr) {n m : A} {T : Nat} {L L' : List Log}
    (hL : Led tr n T L) (hL' : Led tr m T L') : Comparable L L' :=
  (led_comparable hW hV h hL hL').imp Appended.isPrefix Appended.isPrefix

/-! ## Every log begins with the first entry

No log is ever empty, and all have the same first entry. -/

omit [DecidableEq A] in
theorem initLog_prefix_mergedLogs {logs : List Log} (h : [initLog] <+: logs)
    (req : AppendEntriesRequest) : [initLog] <+: mergedLogs logs req := by
  rw [mergedLogs, List.append_assoc]
  exact (singleton_prefix_take h _).trans (List.prefix_append _ _)

theorem initLog_isPrefix (h : Run (Cluster.step servers) C Cluster.init tr) :
    ∀ s ∈ tr, ∀ v, [initLog] <+: (s.node v).state.logs := by
  refine h.forall_mem ?_ ?_
  · intro v
    exact List.prefix_refl _
  · intro s tr a s' _ _ ih hs v
    rcases (step_effect hs v).logs with hl | ⟨texts, d, -, -, -, -, hl⟩ |
      ⟨k, d₁, d₂, call, -, -, -, hst⟩
    · rw [hl]
      exact ih v
    · rw [hl]
      exact (ih v).trans (List.prefix_append _ _)
    · rw [hst.logs]
      exact initLog_prefix_mergedLogs (ih v) call.req

theorem logs_length_pos (h : Run (Cluster.step servers) C Cluster.init tr) {s : Cluster A}
    (hs : s ∈ tr) (v : A) : 0 < (s.node v).state.logs.length :=
  (initLog_isPrefix h s hs v).length_le

/-! ## `next_index`

It is the end of the log at some moment, and the log of a leader does not get shorter. -/

omit [DecidableEq A] in
/-- No `next_index` of a leader is beyond the end of its log, so the slice of a request is never out
of range. -/
def NextIndexOk (s : VariableState A) : Prop :=
  ∀ next mtch, s.role = .leader next mtch → ∀ a k, next a = some k → k ≤ s.logs.length

section NextIndexOk

variable {s t : VariableState A}

omit [DecidableEq A] in
theorem NextIndexOk.of_not_leader (h : s.role.isLeader = false) : NextIndexOk s := by
  intro next mtch hr
  rw [hr] at h
  contradiction

omit [DecidableEq A] in
theorem NextIndexOk.of_grown (h : NextIndexOk s) (hrole : t.role = s.role)
    (hlen : s.logs.length ≤ t.logs.length) : NextIndexOk t := by
  intro next mtch hr a k hk
  exact Nat.le_trans (h next mtch (hrole ▸ hr) a k hk) hlen

omit [DecidableEq A] in
theorem NextIndexOk.of_same (h : NextIndexOk s) (hs : SameNode s t) : NextIndexOk t := by
  intro next' mtch' hr a k' hk'
  obtain ⟨next, mtch, hr, hmap⟩ := hs.nextIndex next' mtch' hr
  have hlen : t.logs = s.logs := congrArg Persistent.logs hs.persistent
  rw [hlen]
  rcases hmap a k' hk' with hle | ⟨k, hk, hle⟩
  · exact hle
  · exact Nat.le_trans hle (h next mtch hr a k hk)

omit [DecidableEq A] in
theorem NextIndexOk.openElectionStart (h : NextIndexOk s) (d : Disk A) :
    NextIndexOk (openElectionStart s d).1 := by
  rcases openElectionStart_cases s d with ⟨-, hs⟩ | ⟨-, _, _, -, hs, -⟩
  · rw [hs]
    exact h
  · rw [hs]
    exact .of_not_leader rfl

theorem NextIndexOk.openElectionCount (h : NextIndexOk s) (voteResult : Nat) (d : Disk A) :
    NextIndexOk (openElectionCount servers s voteResult d).1 := by
  rcases openElectionCount_cases servers s voteResult d with ⟨-, hs⟩ | ⟨-, role, file, hs, hrole⟩
  · rw [hs]
    exact h
  · rw [hs]
    rcases hrole with rfl | rfl | ⟨-, rfl⟩
    · exact .of_not_leader rfl
    · exact .of_not_leader rfl
    · intro next mtch hr a k hk
      cases hr
      simp only [Option.ite_none_right_eq_some, Option.some.injEq] at hk
      obtain ⟨-, rfl⟩ := hk
      exact Nat.sub_le _ _

theorem NextIndexOk.requestVote (h : NextIndexOk s) (req : RequestVoteRequest A)
    (d₁ d₂ : Disk A) : NextIndexOk (requestVote s req d₁ d₂).1 := by
  have hspec := requestVote_spec s req d₁ d₂
  rcases hspec.role_term with ⟨hr, -⟩ | ⟨hr, -, -⟩
  · exact h.of_grown hr (Nat.le_of_eq (by rw [hspec.logs]))
  · exact .of_not_leader (by rw [hr]; rfl)

omit [DecidableEq A] in
theorem NextIndexOk.sendAppendEntriesAppend (h : NextIndexOk s) (texts : List String)
    (d : Disk A) : NextIndexOk (sendAppendEntriesAppend s texts d).1 := by
  rcases sendAppendEntriesAppend_cases s texts d with ⟨-, hs, -⟩ | ⟨-, _, hs⟩
  · rw [hs]
    exact h
  · rw [hs]
    exact h.of_grown rfl (by simp)

omit [DecidableEq A] in
theorem NextIndexOk.appendEntries (h : NextIndexOk s) (req : AppendEntriesRequest)
    (d₁ d₂ : Disk A) : NextIndexOk (appendEntries s req d₁ d₂).1 := by
  have hspec := appendEntries_spec s req d₁ d₂
  rcases hspec.stored with ⟨hl, -⟩ | hst
  · rcases hspec.role_term with ⟨hr, -⟩ | ⟨hr, -, -⟩
    · exact h.of_grown hr (Nat.le_of_eq (by rw [hl]))
    · exact .of_not_leader (by rw [hr]; rfl)
  · exact .of_not_leader (by rw [hst.role]; rfl)

omit [DecidableEq A] in
theorem NextIndexOk.sendAppendEntriesCommit (h : NextIndexOk s) (successCount : Nat) :
    NextIndexOk (sendAppendEntriesCommit servers s successCount).1 := by
  rw [Raft.sendAppendEntriesCommit]
  split
  · exact h.of_grown rfl (Nat.le_refl _)
  · exact h

end NextIndexOk

theorem NextIndexOk.step {v : A} {a : Action A} {t : VariableState A}
    (hi : NextIndexOk (c.node v).state) (h : Effect servers c v a t) : NextIndexOk t := by
  cases h with
  | same h => exact hi.of_same h
  | openElection => exact hi.openElectionStart _
  | countVotes => exact hi.openElectionCount _ _
  | requestVote => exact hi.requestVote _ _ _
  | sendAppendEntries => exact hi.sendAppendEntriesAppend _ _
  | appendEntries => exact hi.appendEntries _ _ _
  | closeRound => exact hi.of_grown rfl (Nat.le_refl _)

theorem nextIndexOk (h : Run (Cluster.step servers) C Cluster.init tr) :
    ∀ s ∈ tr, ∀ v, NextIndexOk (s.node v).state := by
  refine h.forall_mem ?_ ?_
  · intro v next mtch hr
    exact absurd hr (by simp [Cluster.init, VariableState.init])
  · intro s tr a s' _ _ ih hs v
    exact (ih v).step (step_effect hs v)

/-! ## Entries requests

A request stays on the wire while its sender appends more, or is deposed, so what it was cut out of
is a moment of the past. -/

/-- The request is cut out of the log `L`: all of it from some index on, with the term of the entry
in front. -/
structure FromLog (L : List Log) (req : AppendEntriesRequest) : Prop where
  prev_lt : req.prevLogIndex < L.length
  prevTerm : L[req.prevLogIndex]?.map Log.term = some req.prevLogTerm
  entries : req.entries = L.drop (req.prevLogIndex + 1)

/-- The request covers the whole log. -/
theorem FromLog.length {L : List Log} {req : AppendEntriesRequest} (h : FromLog L req) :
    req.prevLogIndex + 1 + req.entries.length = L.length := by
  have := h.prev_lt
  rw [h.entries, List.length_drop]
  omega

/-- At some moment the request was cut out of the log of `n`, leader of the request's term.  This
moment may be long past when the request arrives. -/
def Built (tr : List (Cluster A)) (n : A) (req : AppendEntriesRequest) : Prop :=
  ∃ s ∈ tr, Leads s n req.term ∧ FromLog (s.node n).state.logs req ∧
    req.leaderCommit = (s.node n).state.commitIndex

omit [DecidableEq A] in
theorem Built.mono {tr' : List (Cluster A)} {n : A} {req : AppendEntriesRequest}
    (h : Built tr n req) (hsub : tr ⊆ tr') : Built tr' n req := by
  obtain ⟨s, hs, h⟩ := h
  exact ⟨s, hsub hs, h⟩

/-- Only a leader sends a request, and what it sends is cut out of its log. -/
theorem fromLog_of_waiting {s : VariableState A} {n p : A} {req : AppendEntriesRequest}
    (hi : NextIndexOk s) (hpos : 0 < s.logs.length)
    (h : (sendAppendEntriesRequest n s p).2 = .waiting req) :
    s.role.isLeader = true ∧ req.term = s.currentTerm ∧ FromLog s.logs req ∧
      req.leaderCommit = s.commitIndex := by
  rw [sendAppendEntriesRequest] at h
  split at h
  · rename_i next mtch hr
    split at h
    · exact absurd h (by simp)
    · split at h
      · exact absurd h (by simp)
      · rename_i k hk
        have hle := hi next mtch hr p k hk
        have hlt : k - 1 < s.logs.length := by omega
        simp only [Future.waiting.injEq] at h
        subst h
        refine ⟨by rw [hr]; rfl, rfl, ⟨hlt, ?_, rfl⟩, rfl⟩
        rw [List.getElem?_eq_getElem hlt]
        rfl
  · exact absurd h (by simp)

theorem sendAppendEntriesRequest_waiting {n p : A} {req : AppendEntriesRequest}
    (hi : NextIndexOk (c.node n).state) (hpos : 0 < (c.node n).state.logs.length)
    (h : (sendAppendEntriesRequest n (c.node n).state p).2 = .waiting req) :
    Leads c n req.term ∧ FromLog (c.node n).state.logs req ∧
      req.leaderCommit = (c.node n).state.commitIndex := by
  obtain ⟨hleader, hterm, hfrom, hcommit⟩ := fromLog_of_waiting hi hpos h
  exact ⟨⟨hleader, hterm.symm⟩, hfrom, hcommit⟩

/-- **Every request on the wire was cut out of a leader's log.** -/
theorem built_of_call (h : Run (Cluster.step servers) C Cluster.init tr) :
    ∀ s ∈ tr, ∀ call ∈ s.appendCalls, Built tr call.caller call.req := by
  induction h with
  | init =>
    intro s hs call hcall
    rw [List.mem_singleton] at hs
    subst hs
    simp [Cluster.init] at hcall
  | @step c c' tr a hrun _ hs ih =>
    have hsub : c :: tr ⊆ c' :: c :: tr := List.subset_cons_self _ _
    intro s hmem call hcall
    rcases List.mem_cons.1 hmem with rfl | hmem
    · rcases mem_appendCalls hs hcall with hcall | ⟨rd, -, -, hreq, -⟩
      · exact (ih c (by simp) call hcall).mono hsub
      · exact ⟨c, by simp, sendAppendEntriesRequest_waiting
          (nextIndexOk hrun c (by simp) _) (logs_length_pos hrun (by simp) _) hreq⟩
    · exact (ih s hmem call hcall).mono hsub

end Run

end Raft
end DistributedPrograms
