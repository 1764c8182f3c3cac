import DistributedPrograms.Raft.LeaderLog

/-!
# Log matching

A follower takes over entries with `Vec::insert`, which puts them in front of what it has at these
positions instead of over it.  When it has nothing there the two are the same; otherwise the old
entries are pushed behind the new ones and the log is no leader's log any more
(`logs_not_matching`).  `InsertsAtEnd` says of a step that there is nothing to overwrite.  Then an
accepted request makes the follower's log the one the leader had when it built the request
(`stored_log`), every log is put together from leaders' logs (`SoundLog`), and logs match.

`SoundLog tr X` says that `X` begins with the first entry of all logs, and that up to any other of
its entries it is a prefix of the log of a leader of that entry's term.  It is kept by both ways in
which a log can change:

* a leader appends entries of its own term, and is itself the leader of which they are a prefix
  (`SoundLog.append`);
* a follower's log becomes that of the leader at the moment of the request (`stored_log`).

Of two sound logs with the same term at an index, both are there prefixes of logs of leaders of that
term, and these are comparable; so they agree up to the index (`SoundLog.take_eq`).  No induction on
the index is made anywhere.
-/

set_option autoImplicit false

namespace DistributedPrograms
namespace Raft

variable {A : Type} [DecidableEq A] {servers : Finset A} {c c' : Cluster A}
  {tr : List (Cluster A)}

open VariableState

/-- Two logs that have entries of one term at some index are equal up to this index.  It is about
one moment; the logs of different moments are compared by `SoundLog`. -/
def LogMatching (c : Cluster A) : Prop :=
  ∀ n m i e e', (c.node n).state.logs[i]? = some e → (c.node m).state.logs[i]? = some e' →
    e.term = e'.term → (c.node n).state.logs.take (i + 1) = (c.node m).state.logs.take (i + 1)

/-- A follower that takes over entries has none yet behind `prev_log_index`.  Where it has some, the
code inserts the new ones in front of them instead of replacing them. -/
def InsertsAtEnd (tr : List (Cluster A)) : Action A → Prop
  | .appendEntries k _ _ => ∀ c ∈ tr.head?, ∀ call ∈ c.appendCalls[k]?,
      Accepts (c.node call.callee).state call.req → call.req.entries ≠ [] →
        (c.node call.callee).state.logs.length = call.req.prevLogIndex + 1
  | _ => True

instance (tr : List (Cluster A)) (a : Action A) : Decidable (InsertsAtEnd tr a) := by
  rcases a <;> dsimp only [InsertsAtEnd] <;> infer_instance

omit [DecidableEq A] in
/-- With nothing to overwrite, an accepted request cuts the log and appends the entries. -/
theorem mergedLogs_eq {logs : List Log} {req : AppendEntriesRequest}
    (h : req.entries ≠ [] → logs.length = req.prevLogIndex + 1) :
    mergedLogs logs req = logs.take (req.prevLogIndex + 1) ++ req.entries := by
  rw [mergedLogs]
  by_cases he : req.entries = []
  · simp [he]
  · rw [List.drop_of_length_le (Nat.le_of_eq (h he))]
    simp

/-! ## Logs put together from leaders' logs

The invariant of a log is about the history, since the leaders whose logs it is made of are gone. -/

/-- The log begins with the first entry, and up to any other of its entries it is a prefix of the
log of a leader of that entry's term. -/
structure SoundLog (tr : List (Cluster A)) (X : List Log) : Prop where
  first : [initLog] <+: X
  led : ∀ i e, 0 < i → X[i]? = some e → ∃ n L, Led tr n e.term L ∧ X.take (i + 1) <+: L

omit [DecidableEq A] in
theorem SoundLog.mono {tr' : List (Cluster A)} {X : List Log} (h : SoundLog tr X)
    (hsub : tr ⊆ tr') : SoundLog tr' X :=
  ⟨h.first, fun i e hi he =>
    let ⟨n, L, hL, hX⟩ := h.led i e hi he
    ⟨n, L, hL.mono hsub, hX⟩⟩

omit [DecidableEq A] in
/-- A leader's log stays sound when it appends entries of its term. -/
theorem SoundLog.append {X X' : List Log} {n : A} {T : Nat} (h : SoundLog tr X)
    (hX : Appended T X X') (hL : Led tr n T X') : SoundLog tr X' := by
  refine ⟨h.first.trans hX.isPrefix, fun i e hi he => ?_⟩
  rcases Nat.lt_or_ge i X.length with hlt | hge
  · have hi' : X[i]? = some e := by rw [← prefix_getElem? hX.isPrefix hlt, he]
    obtain ⟨m, L, hL, hpre⟩ := h.led i e hi hi'
    refine ⟨m, L, hL, ?_⟩
    obtain ⟨texts, rfl⟩ := hX
    rwa [List.take_append_of_le_length (by omega)]
  · rw [hX.term_of_le hge he]
    exact ⟨n, X', hL, List.take_prefix _ _⟩

section Run

variable {C : List (Cluster A) → Action A → Prop}

/-- **Sound logs match.**  Each entry is where the leader of its term had it, and in front of it is
what that leader had there, so two such logs agree up to a common term. -/
theorem SoundLog.take_eq (hW : ∀ tr a, C tr a → NoTermWrap tr a)
    (hV : ∀ tr a, C tr a → VoteOnce tr a)
    (h : Run (Cluster.step servers) C Cluster.init tr) {X Y : List Log} (hX : SoundLog tr X)
    (hY : SoundLog tr Y) {i : Nat} {e e' : Log} (he : X[i]? = some e) (he' : Y[i]? = some e')
    (ht : e.term = e'.term) : X.take (i + 1) = Y.take (i + 1) := by
  have hiX : i < X.length := (List.getElem?_eq_some_iff.1 he).1
  have hiY : i < Y.length := (List.getElem?_eq_some_iff.1 he').1
  have hlen : (X.take (i + 1)).length = (Y.take (i + 1)).length := by
    rw [List.length_take, List.length_take]
    omega
  have hcomp : Comparable (X.take (i + 1)) (Y.take (i + 1)) := by
    rcases Nat.eq_zero_or_pos i with rfl | hi
    · have hx := (singleton_prefix_take hX.first 0).eq_of_length (by simp; omega)
      have hy := (singleton_prefix_take hY.first 0).eq_of_length (by simp; omega)
      exact Or.inl (by rw [← hx, ← hy])
    · obtain ⟨n, L, hL, hXL⟩ := hX.led i e hi he
      obtain ⟨m, L', hL', hYL⟩ := hY.led i e' hi he'
      rw [← ht] at hL'
      exact (led_comparable' hW hV h hL hL').of_isPrefix hXL hYL
  exact hcomp.eq_of_length hlen

/-- An accepted request leaves the follower with the log its leader had when it built the request.
-/
theorem stored_log (hW : ∀ tr a, C tr a → NoTermWrap tr a)
    (hV : ∀ tr a, C tr a → VoteOnce tr a)
    (h : Run (Cluster.step servers) C Cluster.init (c :: tr))
    (hsound : ∀ s ∈ c :: tr, ∀ v, SoundLog (c :: tr) (s.node v).state.logs)
    {k : Nat} {d₁ d₂ : Disk A} {call : AppendCall A} {t : VariableState A}
    (hend : InsertsAtEnd (c :: tr) (.appendEntries k d₁ d₂)) (hk : c.appendCalls[k]? = some call)
    (hst : Stored (c.node call.callee).state call.req t) :
    ∃ s ∈ c :: tr, Leads s call.caller call.req.term ∧
      FromLog (s.node call.caller).state.logs call.req ∧
      call.req.leaderCommit = (s.node call.caller).state.commitIndex ∧
      t.logs = (s.node call.caller).state.logs := by
  obtain ⟨s, hs, hl, hfrom, hci⟩ := built_of_call h c (by simp) call (List.mem_of_getElem? hk)
  refine ⟨s, hs, hl, hfrom, hci, ?_⟩
  -- both logs have an entry of `prev_log_term` at `prev_log_index`
  obtain ⟨e, he, hterm⟩ := Option.map_eq_some_iff.1 hst.accepts.2.2
  obtain ⟨e', he', hterm'⟩ := Option.map_eq_some_iff.1 hfrom.prevTerm
  have heq := (hsound c (by simp) call.callee).take_eq hW hV h (hsound s hs call.caller) he he'
    (hterm.trans hterm'.symm)
  have hmerged := mergedLogs_eq fun hne => hend c (by simp) call (by simp [hk]) hst.accepts hne
  calc t.logs = (c.node call.callee).state.logs.take (call.req.prevLogIndex + 1) ++
        call.req.entries := by rw [hst.logs, hmerged]
    _ = (s.node call.caller).state.logs.take (call.req.prevLogIndex + 1) ++
        (s.node call.caller).state.logs.drop (call.req.prevLogIndex + 1) := by
      rw [heq, hfrom.entries]
    _ = (s.node call.caller).state.logs := List.take_append_drop _ _

theorem soundLog_run (hW : ∀ tr a, C tr a → NoTermWrap tr a)
    (hV : ∀ tr a, C tr a → VoteOnce tr a) (hE : ∀ tr a, C tr a → InsertsAtEnd tr a)
    (h : Run (Cluster.step servers) C Cluster.init tr) :
    ∀ s ∈ tr, ∀ v, SoundLog tr (s.node v).state.logs := by
  induction h with
  | init =>
    intro s hs v
    rw [List.mem_singleton] at hs
    subst hs
    refine ⟨List.prefix_refl _, fun i e hi he => ?_⟩
    have hlen := (List.getElem?_eq_some_iff.1 he).1
    simp [Cluster.init, VariableState.init, Persistent.fresh] at hlen
    omega
  | @step c c' tr a hrun hc hs ih =>
    have hsub : c :: tr ⊆ c' :: c :: tr := List.subset_cons_self _ _
    intro s hmem v
    rcases List.mem_cons.1 hmem with rfl | hmem
    · rcases (step_effect hs v).logs with hl | ⟨texts, d, -, hlead, hrole, hterm, hl⟩ |
        ⟨k, d₁, d₂, call, rfl, hk, rfl, hst⟩
      · rw [hl]
        exact (ih c (by simp) v).mono hsub
      · refine ((ih c (by simp) v).mono hsub).append ⟨texts, hl⟩
          (n := v) ⟨s, by simp, ⟨hrole ▸ hlead, hterm⟩, rfl⟩
      · obtain ⟨s', hs', -, -, -, heq⟩ := stored_log hW hV hrun ih (hE _ _ hc) hk hst
        rw [heq]
        exact (ih s' hs' call.caller).mono hsub
    · exact (ih s hmem v).mono hsub

end Run

/-- **Log matching.**  As long as no server votes twice in a term and no follower takes over entries
where it has some already, two logs that agree on the term at an index agree up to it. -/
theorem log_matching
    (h : Run (Cluster.step servers)
      (fun tr a => NoTermWrap tr a ∧ VoteOnce tr a ∧ InsertsAtEnd tr a) Cluster.init tr) :
    ∀ c ∈ tr, LogMatching c := by
  have hW : ∀ (tr : List (Cluster A)) a, NoTermWrap tr a ∧ VoteOnce tr a ∧ InsertsAtEnd tr a →
      NoTermWrap tr a := fun _ _ hc => hc.1
  have hV : ∀ (tr : List (Cluster A)) a, NoTermWrap tr a ∧ VoteOnce tr a ∧ InsertsAtEnd tr a →
      VoteOnce tr a := fun _ _ hc => hc.2.1
  have hsound := soundLog_run hW hV (fun _ _ hc => hc.2.2) h
  intro c hc n m i e e' he he' ht
  exact (hsound c hc n).take_eq hW hV h (hsound c hc m) he he' ht

/-- A run of three nodes within the conditions: leader 0 appends two entries, one after the other,
and node 1 takes over both. -/
theorem log_matching_three :
    ∃ tr : List (Cluster (Fin 3)), (∀ c ∈ tr, LogMatching c) ∧
      ∃ c ∈ tr, (c.node 1).state.logs = [initLog, ⟨"a", 1⟩, ⟨"b", 1⟩] := by
  have hcheck : Run.check (Cluster.step (Finset.univ : Finset (Fin 3)))
      (fun tr a => decide (NoTermWrap tr a ∧ VoteOnce tr a ∧ InsertsAtEnd tr a)) Cluster.init
      [.openElection 0 .ok, .askVote 0 0, .askVote 0 2, .requestVote 0 .ok .ok, .voteReply 0,
        .askVote 0 1, .voteError 0 1, .countVotes 0 .ok,
        .sendAppendEntries 0 ["a"] .ok, .sendRound 0 0 1, .appendEntries 0 .ok .ok, .appendReply 0,
        .sendAppendEntries 0 ["b"] .ok, .sendRound 0 1 1, .appendEntries 0 .ok .ok]
      (fun tr => decide (∃ c ∈ tr,
        (c.node 1).state.logs = [initLog, ⟨"a", 1⟩, ⟨"b", 1⟩])) = true := by
    decide +kernel
  obtain ⟨tr, hrun, hp⟩ :=
    Run.exists_of_check (fun _ _ hc => of_decide_eq_true hc) hcheck
  exact ⟨tr, log_matching hrun, of_decide_eq_true hp⟩

/-- **Logs that do not match.**  The answer to the first round is lost, so the second sends the
entry `a` once more; the follower inserts it again, and its log goes on with `a` where the leader's
goes on with `c`. -/
theorem logs_not_matching :
    ∃ tr : List (Cluster (Fin 2)), Run (Cluster.step Finset.univ) (fun _ _ => True)
      Cluster.init tr ∧ ¬∀ c ∈ tr, LogMatching c := by
  have hcheck : Run.check (Cluster.step (Finset.univ : Finset (Fin 2))) (fun _ _ => true)
      Cluster.init
      [.openElection 0 .ok, .askVote 0 0, .askVote 0 1, .requestVote 0 .ok .ok, .voteReply 0,
        .countVotes 0 .ok,
        .sendAppendEntries 0 ["a"] .ok, .sendRound 0 0 1, .appendEntries 0 .ok .ok,
        .appendError 0 0 1,
        .sendAppendEntries 0 ["b"] .ok, .sendRound 0 1 1, .appendEntries 0 .ok .ok,
        .sendAppendEntries 0 ["c"] .ok]
      (fun tr => decide (∃ c ∈ tr,
        (c.node 0).state.logs = [initLog, ⟨"a", 1⟩, ⟨"b", 1⟩, ⟨"c", 1⟩] ∧
        (c.node 1).state.logs = [initLog, ⟨"a", 1⟩, ⟨"b", 1⟩, ⟨"a", 1⟩])) = true := by
    decide +kernel
  obtain ⟨tr, hrun, hp⟩ := Run.exists_of_check (C := fun _ _ => True) (fun _ _ _ => trivial) hcheck
  obtain ⟨c, hc, h0, h1⟩ := of_decide_eq_true hp
  refine ⟨tr, hrun, fun hmatch => ?_⟩
  have heq := hmatch c hc 0 1 3 ⟨"c", 1⟩ ⟨"a", 1⟩ (by rw [h0]; rfl) (by rw [h1]; rfl) rfl
  rw [h0, h1] at heq
  exact absurd heq (by decide)

end Raft
end DistributedPrograms
