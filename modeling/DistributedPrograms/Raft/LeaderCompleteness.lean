import DistributedPrograms.Raft.Rounds

/-!
# Leader completeness

What a majority has taken over from the leader of a term is in the log of every later leader.  A
later leader was elected by a majority; the two majorities meet in a server that first took over the
entries and then voted; the voter still had the entries when it voted; and the candidate's log was
at least as fresh as the voter's.

Two more steps of the code have to be excluded for it.  `log_condition` grants a vote when the
candidate's last entry is *older* than the voter's, if only its log is long enough (`VoteIsFresh`);
and a follower cuts its log behind `prev_log_index` when the request is a late one of the current
leader and the log goes on with entries of this very leader (`KeepsLeadersEntries`).

`Chosen servers tr T P` is the subject: the prefix `P` of the log of the leader of term `T`, with a
last entry of this term, has in this term been on a majority of the servers.  The proof that it is a
prefix of the log of every later leader (`chosen_isPrefix`) is by induction on the later term:

* `retained`: a server that has had `P` in the term of its leader has it as long as its term is
  below that of any leader without `P`.  By the induction there is none, so every request it accepts
  on the way comes from a leader that has `P`;
* `grant_fresh`: it voted for a log that is not less fresh than its own;
* `prefix_of_fresh`: a fresh log carries what the voter has.  Its last entry is of a term between,
  and a log is up to its last entry a prefix of the log of a leader of that term; so the induction
  applies once more;
* `prefix_of_granted` puts these together for the voter in whom the majorities meet.

`OrderedLog` is the small fact on which the comparison of logs rests: the terms in a log go up.
-/

set_option autoImplicit false

namespace DistributedPrograms
namespace Raft

variable {A : Type} [DecidableEq A] {servers : Finset A} {c c' : Cluster A}
  {tr : List (Cluster A)}

open VariableState

/-! ## Conditions on a step

What Raft asks of a vote and of a heartbeat, and the code does not. -/

/-- No vote goes to a candidate whose last entry is of an older term than the voter's.  The `||` of
`log_condition` lets such candidates through if their log is long enough. -/
def VoteIsFresh (tr : List (Cluster A)) : Action A → Prop
  | .requestVote k _ _ => ∀ c ∈ tr.head?, ∀ call ∈ c.voteCalls[k]?,
      WouldGrant (c.node call.callee).state call.req →
        lastLogTerm (c.node call.callee).state.logs ≤ call.req.lastLogTerm
  | _ => True

/-- A request without entries does not cut off entries of the term of its leader.  A heartbeat that
was sent before the entries, and comes after them, does. -/
def KeepsLeadersEntries (tr : List (Cluster A)) : Action A → Prop
  | .appendEntries k _ _ => ∀ c ∈ tr.head?, ∀ call ∈ c.appendCalls[k]?,
      Accepts (c.node call.callee).state call.req → call.req.entries = [] →
        ∀ e ∈ (c.node call.callee).state.logs[call.req.prevLogIndex + 1]?, e.term ≠ call.req.term
  | _ => True

instance (tr : List (Cluster A)) (a : Action A) : Decidable (VoteIsFresh tr a) := by
  rcases a <;> dsimp only [VoteIsFresh] <;> infer_instance

instance (tr : List (Cluster A)) (a : Action A) : Decidable (KeepsLeadersEntries tr a) := by
  rcases a <;> dsimp only [KeepsLeadersEntries] <;> infer_instance

/-! ## The terms in a log

The last term of a log bounds all others, so comparing two logs by their last terms compares
everything that is in them. -/

/-- The terms of the log go up and not above `T`. -/
structure OrderedLog (T : Nat) (X : List Log) : Prop where
  sorted : X.Pairwise fun e e' => e.term ≤ e'.term
  le : ∀ e ∈ X, e.term ≤ T

theorem OrderedLog.mono {T T' : Nat} {X : List Log} (h : OrderedLog T X) (hT : T ≤ T') :
    OrderedLog T' X :=
  ⟨h.sorted, fun e he => Nat.le_trans (h.le e he) hT⟩

theorem OrderedLog.append {T : Nat} {X X' : List Log} (h : OrderedLog T X)
    (hX : Appended T X X') : OrderedLog T X' := by
  obtain ⟨texts, rfl⟩ := hX
  have hnew : ∀ e ∈ texts.map fun text => (⟨text, T⟩ : Log), e.term = T := by
    intro e he
    obtain ⟨text, -, rfl⟩ := List.mem_map.1 he
    rfl
  refine ⟨List.pairwise_append.2 ⟨h.sorted, ?_, fun e he e' he' => ?_⟩, fun e he => ?_⟩
  · exact List.pairwise_of_forall_mem_list fun e he e' he' => by rw [hnew e he, hnew e' he']
  · rw [hnew e' he']
    exact h.le e he
  · rcases List.mem_append.1 he with he | he
    · exact h.le e he
    · exact Nat.le_of_eq (hnew e he)

omit [DecidableEq A] in
theorem lastLogTerm_eq {X : List Log} (h : X ≠ []) : lastLogTerm X = (X.getLast h).term := by
  rw [lastLogTerm, List.getLast?_eq_some_getLast h]
  rfl

theorem OrderedLog.lastLogTerm_le {T : Nat} {X : List Log} (h : OrderedLog T X) (hne : X ≠ []) :
    lastLogTerm X ≤ T := by
  rw [lastLogTerm_eq hne]
  exact h.le _ (List.getLast_mem hne)

/-- No entry is of a newer term than the last. -/
theorem OrderedLog.le_lastLogTerm {T : Nat} {X : List Log} (h : OrderedLog T X) {e : Log}
    (he : e ∈ X) : e.term ≤ lastLogTerm X := by
  have hne : X ≠ [] := List.ne_nil_of_mem he
  rw [lastLogTerm_eq hne]
  rw [← List.dropLast_append_getLast hne] at he
  rcases List.mem_append.1 he with he | he
  · have hsorted := h.sorted
    rw [← List.dropLast_append_getLast hne] at hsorted
    exact (List.pairwise_append.1 hsorted).2.2 e he _ (by simp)
  · rw [List.mem_singleton.1 he]

theorem OrderedLog.lastLogTerm_mono {T : Nat} {P X : List Log} (h : OrderedLog T X) (hne : P ≠ [])
    (hP : P <+: X) : lastLogTerm P ≤ lastLogTerm X := by
  rw [lastLogTerm_eq hne]
  exact h.le_lastLogTerm (hP.subset (List.getLast_mem hne))

omit [DecidableEq A] in
/-- A sound log is a prefix of the log of a leader of its last term. -/
theorem SoundLog.last {X : List Log} (h : SoundLog tr X) :
    X = [initLog] ∨ ∃ n L, Led tr n (lastLogTerm X) L ∧ X <+: L := by
  have hpos := h.first.length_le
  have hne : X ≠ [] := List.ne_nil_of_length_pos hpos
  by_cases hone : X.length = 1
  · exact Or.inl (h.first.eq_of_length hone.symm).symm
  · have hlast : X[X.length - 1]? = some (X.getLast hne) := by
      rw [← List.getLast?_eq_getElem?, List.getLast?_eq_some_getLast hne]
    obtain ⟨n, L, hL, hX⟩ := h.led (X.length - 1) _ (by simp at hpos; omega) hlast
    rw [List.take_of_length_le (by omega)] at hX
    exact Or.inr ⟨n, L, lastLogTerm_eq hne ▸ hL, hX⟩

section Run

variable {C : List (Cluster A) → Action A → Prop}

theorem orderedLog (hW : ∀ tr a, C tr a → NoTermWrap tr a)
    (hV : ∀ tr a, C tr a → VoteOnce tr a) (hE : ∀ tr a, C tr a → InsertsAtEnd tr a)
    (h : Run (Cluster.step servers) C Cluster.init tr) :
    ∀ s ∈ tr, ∀ v, OrderedLog (s.node v).state.currentTerm (s.node v).state.logs := by
  induction h with
  | init =>
    intro s hs v
    rw [List.mem_singleton] at hs
    subst hs
    refine ⟨List.pairwise_singleton _ _, fun e he => ?_⟩
    rw [show e = initLog from List.mem_singleton.1 he]
    exact Nat.le_refl _
  | @step c c' tr a hrun hc hs ih =>
    intro s hmem v
    rcases List.mem_cons.1 hmem with rfl | hmem
    · have hle := (step_effect hs v).term_le (hW _ _ hc)
      rcases (step_effect hs v).logs with hl | ⟨texts, d, -, -, -, hterm, hl⟩ |
        ⟨k, d₁, d₂, call, rfl, hk, rfl, hst⟩
      · rw [hl]
        exact (ih c (by simp) v).mono hle
      · rw [hterm]
        exact (ih c (by simp) v).append ⟨texts, hl⟩
      · obtain ⟨s', hs', hl, -, -, heq⟩ :=
          stored_log hW hV hrun (soundLog_run hW hV hE hrun) (hE _ _ hc) hk hst
        rw [heq, hst.term, ← hl.2]
        exact ih s' hs' call.caller
    · exact ih s hmem v

/-! ## What a majority has taken over

Lists of entries that are on a majority in the term of their leader. -/

/-- At some moment in term `T` the log of `p` began with `P`.  What matters is that it was then,
since the log may be another one by now. -/
def HadInTerm (tr : List (Cluster A)) (p : A) (T : Nat) (P : List Log) : Prop :=
  ∃ s ∈ tr, (s.node p).state.currentTerm = T ∧ P <+: (s.node p).state.logs

/-- The prefix `P` of the log of the leader of term `T`, with a last entry of this term, has in this
term been on a majority of the servers. -/
structure Chosen (servers : Finset A) (tr : List (Cluster A)) (T : Nat) (P : List Log) : Prop where
  ne_nil : P ≠ []
  last : lastLogTerm P = T
  led : ∃ n L, Led tr n T L ∧ P <+: L
  quorum : ∃ Q ⊆ servers, Q.card * 2 > servers.card ∧ ∀ p ∈ Q, HadInTerm tr p T P

omit [DecidableEq A] in
theorem Chosen.mono {tr' : List (Cluster A)} {T : Nat} {P : List Log}
    (h : Chosen servers tr T P) (hsub : tr ⊆ tr') : Chosen servers tr' T P := by
  obtain ⟨n, L, hL, hP⟩ := h.led
  obtain ⟨Q, hQ, hcard, hhad⟩ := h.quorum
  refine ⟨h.ne_nil, h.last, ⟨n, L, hL.mono hsub, hP⟩, Q, hQ, hcard, fun p hp => ?_⟩
  obtain ⟨s, hs, hs'⟩ := hhad p hp
  exact ⟨s, hsub hs, hs'⟩

omit [DecidableEq A] in
/-- A log that goes on with the leader's entries is not cut back by an accepted request of the same
leader, within the conditions. -/
theorem prefix_of_same_term {P X L L' : List Log} {T : Nat} {req : AppendEntriesRequest}
    (hL : Appended T L L' ∨ Appended T L' L) (hPL : P <+: L') (hPX : P <+: X)
    (hfrom : FromLog L req) (hend : req.entries ≠ [] → X.length = req.prevLogIndex + 1)
    (hkeep : req.entries = [] → ∀ e, X[req.prevLogIndex + 1]? = some e → e.term ≠ T) :
    P <+: L := by
  have hcomp : Comparable P L := by
    rcases hL with h | h
    · exact comparable_of_isPrefix hPL h.isPrefix
    · exact Or.inl (hPL.trans h.isPrefix)
  by_contra hnot
  have hlt : L.length < P.length := by
    by_contra hle
    exact hnot (hcomp.prefix_of_length_le (Nat.le_of_not_lt hle))
  have hlen := hfrom.length
  have hPX' := hPX.length_le
  have hPL' := hPL.length_le
  by_cases hne : req.entries = []
  · rw [hne] at hlen
    have hi : req.prevLogIndex + 1 < P.length := by simp at hlen; omega
    have hget := List.getElem?_eq_getElem hi
    refine hkeep hne _ (prefix_getElem?_eq_some hPX hget) ?_
    rcases hL with h | h
    · exact h.term_of_le (by simp at hlen; omega) (prefix_getElem?_eq_some hPL hget)
    · have := h.isPrefix.length_le
      omega
  · have := hend hne
    omega

/-- **Retention.**  A server that has had `P` in the term of its leader has it as long as its term
is below that of any leader without `P`, and in this leader's term until there is the leader. -/
theorem retained (hW : ∀ tr a, C tr a → NoTermWrap tr a)
    (hV : ∀ tr a, C tr a → VoteOnce tr a) (hE : ∀ tr a, C tr a → InsertsAtEnd tr a)
    (hK : ∀ tr a, C tr a → KeepsLeadersEntries tr a)
    (htr : Run (Cluster.step servers) C Cluster.init tr) {T T' : Nat} {P : List Log}
    (hled : ∃ n L, Led tr n T L ∧ P <+: L) (hT : T < T')
    (hlater : ∀ t, T < t → t < T' → ∀ n L, Led tr n t L → P <+: L) {v : A} {tr₀ : List (Cluster A)}
    (h : Run (Cluster.step servers) C Cluster.init (c :: tr₀)) :
    (c :: tr₀) <:+ tr → HadInTerm (c :: tr₀) v T P → (c.node v).state.currentTerm ≤ T' →
      P <+: (c.node v).state.logs ∨ ∃ s ∈ c :: tr₀, ∃ n, Leads s n T' := by
  refine Run.head_induction (P := fun c tr₀ => (c :: tr₀) <:+ tr → HadInTerm (c :: tr₀) v T P →
    (c.node v).state.currentTerm ≤ T' →
      P <+: (c.node v).state.logs ∨ ∃ s ∈ c :: tr₀, ∃ n, Leads s n T') ?_ ?_ h
  · rintro - ⟨s, hs, -, hP⟩ -
    rw [List.mem_singleton.1 hs] at hP
    exact Or.inl hP
  · rintro c tr₀ a c' hrun hc hs ih hsuf ⟨s, hmem, hterm, hP⟩ hle
    rcases List.mem_cons.1 hmem with rfl | hmem
    · exact Or.inl hP
    have hsuf' : (c :: tr₀) <:+ tr := (List.suffix_cons c' _).trans hsuf
    have hstep := (step_effect hs v).term_le (hW _ _ hc)
    have hTc : T ≤ (c.node v).state.currentTerm := hterm ▸ term_mono hW hrun v s hmem
    rcases ih hsuf' ⟨s, hmem, hterm, hP⟩ (Nat.le_trans hstep hle) with hPc | ⟨s', hs', hl'⟩
    swap
    · exact Or.inr ⟨s', List.mem_cons_of_mem _ hs', hl'⟩
    rcases (step_effect hs v).logs with hl | ⟨texts, d, -, -, -, -, hl⟩ |
      ⟨k, d₁, d₂, call, rfl, hk, rfl, hst⟩
    · exact Or.inl (hl ▸ hPc)
    · exact Or.inl (hPc.trans (hl ▸ List.prefix_append _ _))
    · -- the log is now that of a leader of the term
      obtain ⟨s₀, hs₀, hl₀, hfrom, -, heq⟩ :=
        stored_log hW hV hrun (soundLog_run hW hV hE hrun) (hE _ _ hc) hk hst
      have hL₀ : Led tr call.caller call.req.term (s₀.node call.caller).state.logs :=
        ⟨s₀, hsuf'.subset hs₀, hl₀, rfl⟩
      rw [hst.term] at hle hstep
      rcases Nat.lt_or_eq_of_le hle with hlt | heqT
      · rcases Nat.lt_or_eq_of_le (Nat.le_trans hTc hstep) with hgt | heqT
        · exact Or.inl (heq ▸ hlater _ hgt hlt _ _ hL₀)
        · obtain ⟨n, L, hL, hPL⟩ := hled
          subst heqT
          refine Or.inl (heq ▸
            prefix_of_same_term (led_comparable hW hV htr hL₀ hL) hPL hPc hfrom ?_ ?_)
          · exact fun hne => hE _ _ hc c (by simp) call (by simp [hk]) hst.accepts hne
          · exact fun hnil e he =>
              hK _ _ hc c (by simp) call (by simp [hk]) hst.accepts hnil e (by simp [he])
      · exact Or.inr ⟨s₀, List.mem_cons_of_mem _ hs₀, call.caller, heqT ▸ hl₀⟩

/-! ## Votes for a fresh log

The voter had the entries at some moment in their term, and voted in a later one; the log it
compared its own with then is the log the candidate began its election with. -/

/-- A grant was given by a server of a log not fresher than the candidate's. -/
theorem grant_fresh (hF : ∀ tr a, C tr a → VoteIsFresh tr a)
    (h : Run (Cluster.step servers) C Cluster.init tr) {p n : A} {req : RequestVoteRequest A}
    (hg : Granted tr p n req) : ∃ c' c tr₀, (c' :: c :: tr₀) <:+ tr ∧
      (c'.node p).state.currentTerm = req.term ∧ WouldGrant (c.node p).state req ∧
      lastLogTerm (c.node p).state.logs ≤ req.lastLogTerm := by
  induction h with
  | init =>
    obtain ⟨s, hs, m, hm, -⟩ := hg
    rw [List.mem_singleton] at hs
    subst hs
    simp [Cluster.init] at hm
  | @step c c' tr a hrun hc hs ih =>
    have hold : Granted (c :: tr) p n req → ∃ b' b tr₀, (b' :: b :: tr₀) <:+ c' :: c :: tr ∧
        (b'.node p).state.currentTerm = req.term ∧ WouldGrant (b.node p).state req ∧
        lastLogTerm (b.node p).state.logs ≤ req.lastLogTerm := by
      intro hg
      obtain ⟨b', b, tr₀, hsuf, hb⟩ := ih hg
      exact ⟨b', b, tr₀, hsuf.trans (List.suffix_cons _ _), hb⟩
    rcases hg.of_cons with hg | ⟨⟨call, res⟩, hm, rfl, rfl, rfl, hgr⟩
    · exact hold hg
    rcases mem_voteReplies hs hm with hm | ⟨k, d₁, d₂, rfl, hk, hres, hstate⟩
    · exact hold ⟨c, by simp, _, hm, rfl, rfl, rfl, hgr⟩
    · obtain ⟨hwould, hterm, -, -⟩ :=
        (requestVote_spec (c.node call.callee).state call.req d₁ d₂).granted res hres hgr
      exact ⟨c', c, tr, List.suffix_rfl, hstate ▸ hterm, hwould,
        hF _ _ hc c (by simp) call (by simp [hk]) hwould⟩

/-- **A fresh log carries what the voter has.**  `Y` is at least as fresh as `X`, which begins with
`P`; then so does `Y`, when leaders of terms in between have `P`. -/
theorem prefix_of_fresh (hW : ∀ tr a, C tr a → NoTermWrap tr a)
    (hV : ∀ tr a, C tr a → VoteOnce tr a)
    (htr : Run (Cluster.step servers) C Cluster.init tr) {P X Y : List Log} {T TX : Nat}
    (hne : P ≠ []) (hlast : lastLogTerm P = T) (hPX : P <+: X) (hX : SoundLog tr X)
    (hY : SoundLog tr Y) (hXo : OrderedLog TX X)
    (hlater : ∀ t n L, T < t → t ≤ lastLogTerm Y → Led tr n t L → P <+: L)
    (hfresh : lastLogTerm X < lastLogTerm Y ∨
      (lastLogTerm X = lastLogTerm Y ∧ X.length ≤ Y.length)) : P <+: Y := by
  have hYpos := hY.first.length_le
  have hYne : Y ≠ [] := List.ne_nil_of_length_pos hYpos
  have hTX : T ≤ lastLogTerm X := hlast ▸ hXo.lastLogTerm_mono hne hPX
  rcases hfresh with hlt | ⟨heq, hlen⟩
  · -- the last entry of `Y` is of a later leader, which has `P`
    rcases hY.last with hinit | ⟨n, L, hL, hYL⟩
    · rw [hinit] at hlt
      exact absurd hlt (by simp [lastLogTerm, initLog])
    · have hPL := hlater _ n L (by omega) (Nat.le_refl _) hL
      rcases comparable_of_isPrefix hPL hYL with h | h
      · exact h
      · -- `Y` cannot be shorter, for its last entry is newer than all of `P`
        have hle := (OrderedLog.lastLogTerm_mono (T := TX)
          ⟨hXo.sorted.sublist hPX.sublist, fun e he => hXo.le e (hPX.subset he)⟩ hYne h)
        omega
  · -- both end in the log of one term
    refine hPX.trans ?_
    rcases hX.last with hinit | ⟨n, L, hL, hXL⟩
    · exact hinit ▸ hY.first
    · rcases hY.last with hinit | ⟨m, L', hL', hYL⟩
      · have hone : X.length = 1 := by
          have := hX.first.length_le
          rw [hinit] at hlen
          simp at this hlen
          omega
        rw [← hX.first.eq_of_length hone.symm]
        exact hY.first
      · rw [heq] at hL
        exact ((led_comparable' hW hV htr hL hL').of_isPrefix hXL hYL).prefix_of_length_le hlen

/-- Before the step in which a node becomes leader of a term, nobody leads the term. -/
theorem no_leader_before (hW : ∀ tr a, C tr a → NoTermWrap tr a)
    (hV : ∀ tr a, C tr a → VoteOnce tr a)
    (h : Run (Cluster.step servers) C Cluster.init (c' :: c :: tr)) {n : A} {T : Nat}
    (hl : Leads c' n T) (hterm : (c.node n).state.currentTerm = T)
    (hrole : (c.node n).state.role = .candidate) : ∀ s ∈ c :: tr, ∀ m, ¬Leads s m T := by
  intro s hs m hm
  cases leads_unique hW hV h (List.mem_cons_of_mem _ hs) (by simp) hm hl
  have hlead := leads_persist hW (h.of_suffix (List.suffix_cons _ _) (by simp)) s hs hm hterm
  rw [Leads, hrole] at hlead
  exact absurd hlead.1 (by simp)

/-- A server that has had `P` in term `T` had it before it came to a later term. -/
theorem HadInTerm.before (hW : ∀ tr a, C tr a → NoTermWrap tr a)
    (htr : Run (Cluster.step servers) C Cluster.init tr) {tr₀ : List (Cluster A)} {v : A}
    {T : Nat} {P : List Log} (h : HadInTerm tr v T P) (hsuf : (c :: tr₀) <:+ tr)
    (hT : T < (c.node v).state.currentTerm) : HadInTerm (c :: tr₀) v T P := by
  obtain ⟨y, hy, hyT, hyP⟩ := h
  rcases mem_suffix_or hsuf hy with hy | ⟨Z, hZ, hcZ⟩
  · exact ⟨y, hy, hyT, hyP⟩
  · have hle := term_mono hW (htr.of_suffix hZ (by simp)) v c
      (List.mem_cons_of_mem _ (hcZ.subset (by simp)))
    omega

omit [DecidableEq A] in
/-- `log_condition`, with what `VoteIsFresh` adds to it. -/
theorem fresher_of_logCondition {X Y : List Log} {req : RequestVoteRequest A}
    (hcond : logCondition X req = true) (hterm : req.lastLogTerm = lastLogTerm Y)
    (hindex : req.lastLogIndex = Y.length - 1) (hpos : 1 ≤ Y.length)
    (hfresh : lastLogTerm X ≤ req.lastLogTerm) :
    lastLogTerm X < lastLogTerm Y ∨ (lastLogTerm X = lastLogTerm Y ∧ X.length ≤ Y.length) := by
  rw [logCondition, Bool.or_eq_true, decide_eq_true_eq, decide_eq_true_eq, hterm, hindex] at hcond
  rw [hterm] at hfresh
  rcases hcond with hgt | hlen
  · exact Or.inl hgt
  · have hsucc := wrappingSucc_le (Y.length - 1)
    rcases Nat.lt_or_eq_of_le hfresh with hlt | heq
    · exact Or.inl hlt
    · exact Or.inr ⟨heq, by omega⟩

/-- **A voter that had `P`** when it was in an older term still had it when it voted, so the log of
the candidate that it voted for begins with `P`. -/
theorem prefix_of_granted (hW : ∀ tr a, C tr a → NoTermWrap tr a)
    (hV : ∀ tr a, C tr a → VoteOnce tr a) (hE : ∀ tr a, C tr a → InsertsAtEnd tr a)
    (hF : ∀ tr a, C tr a → VoteIsFresh tr a) (hK : ∀ tr a, C tr a → KeepsLeadersEntries tr a)
    (htr : Run (Cluster.step servers) C Cluster.init tr) {T T' : Nat} {P : List Log}
    (hP : Chosen servers tr T P) (hT : T < T')
    (hlater : ∀ t, T < t → t < T' → ∀ n L, Led tr n t L → P <+: L) {tr₀ : List (Cluster A)}
    (hsuf : (c :: tr₀) <:+ tr) {n p : A} (hterm : (c.node n).state.currentTerm = T')
    (hnone : ∀ s ∈ c :: tr₀, ∀ m, ¬Leads s m T') (hhad : HadInTerm tr p T P)
    (hg : Granted (c :: tr₀) p n (openElectionRequest n (c.node n).state)) :
    P <+: (c.node n).state.logs := by
  have hrun := htr.of_suffix hsuf (by simp)
  obtain ⟨x', x, tr₂, hx, hxterm, hwould, hfresh⟩ := grant_fresh hF hrun hg
  have hxT : (x'.node p).state.currentTerm = T' := hxterm.trans hterm
  have hxw : (x :: tr₂) <:+ c :: tr₀ := (List.suffix_cons x' _).trans hx
  have hhad' : HadInTerm (x :: tr₂) p T P := by
    obtain ⟨y, hy, hyT, hyP⟩ := hhad.before hW htr (hx.trans hsuf) (by omega)
    rcases List.mem_cons.1 hy with rfl | hy
    · omega
    · exact ⟨y, hy, hyT, hyP⟩
  have hxle : (x.node p).state.currentTerm ≤ T' := hterm ▸ hwould.1
  rcases retained hW hV hE hK htr hP.led hT hlater (hrun.of_suffix hxw (by simp))
    (hxw.trans hsuf) hhad' hxle with h | ⟨s', hs', m, hm⟩
  swap
  · exact absurd hm (hnone s' (hxw.subset hs') m)
  have hsound := soundLog_run hW hV hE hrun
  have horder := orderedLog hW hV hE hrun
  have hmem : x ∈ c :: tr₀ := hxw.subset (by simp)
  have hpos := logs_length_pos hrun (s := c) (by simp) n
  refine prefix_of_fresh hW hV hrun hP.ne_nil hP.last h (hsound x hmem p) (hsound c (by simp) n)
    (horder x hmem p) (fun t m L hTt htle hL => ?_)
    (fresher_of_logCondition hwould.2.1 rfl rfl hpos hfresh)
  have htT : t ≤ T' := Nat.le_trans htle (hterm ▸
    (horder c (by simp) n).lastLogTerm_le (List.ne_nil_of_length_pos hpos))
  rcases Nat.lt_or_eq_of_le htT with hlt | rfl
  · exact hlater t hTt hlt m L (hL.mono hsuf.subset)
  · obtain ⟨y, hy, hyl, -⟩ := hL
    exact absurd hyl (hnone y hy m)

/-- **Leader completeness.**  The log of every leader of a later term begins with what was chosen.
The induction is on the term: some server has both taken the entries over and voted for the leader,
and its log was not newer than the leader's. -/
theorem chosen_isPrefix (hW : ∀ tr a, C tr a → NoTermWrap tr a)
    (hV : ∀ tr a, C tr a → VoteOnce tr a) (hE : ∀ tr a, C tr a → InsertsAtEnd tr a)
    (hF : ∀ tr a, C tr a → VoteIsFresh tr a) (hK : ∀ tr a, C tr a → KeepsLeadersEntries tr a)
    (htr : Run (Cluster.step servers) C Cluster.init tr) {T : Nat} {P : List Log}
    (hP : Chosen servers tr T P) :
    ∀ T', T < T' → ∀ n L, Led tr n T' L → P <+: L := by
  intro T'
  induction T' using Nat.strong_induction_on with
  | _ T' ih =>
    rintro hT n L ⟨s, hs, hl, rfl⟩
    obtain ⟨tr₁, hsuf₁, hrun₁⟩ := htr.exists_suffix_of_mem hs
    obtain ⟨w', w, tr₀, e, hsuf₀, hl', hlogs, hterm, hrole, he, hmaj⟩ := exists_win hrun₁ hl
    have hsuf := hsuf₀.trans hsuf₁
    have hsufw : (w :: tr₀) <:+ tr := (List.suffix_cons w' _).trans hsuf
    have hrun' := htr.of_suffix hsuf (by simp)
    have hrun := htr.of_suffix hsufw (by simp)
    have hnone := no_leader_before hW hV hrun' hl' hterm hrole
    -- it is enough that the log of the winner begins with `P`
    have hgrow := (leads_appended hW hrun₁ hl w' (hsuf₀.subset (by simp)) hl').isPrefix
    rw [hlogs] at hgrow
    refine List.IsPrefix.trans ?_ hgrow
    have hlater : ∀ t, T < t → t < T' → ∀ n L, Led tr n t L → P <+: L :=
      fun t h₁ h₂ => ih t h₂ h₁
    obtain ⟨Q₁, hQ₁, hcard₁, hhad⟩ := hP.quorum
    obtain ⟨het, hel, Q₂, hQ₂, hcard₂, hvote⟩ := winner_granted hrun he hrole hmaj
    obtain ⟨p, hp⟩ := Finset.inter_nonempty_of_card_lt_card_add_card hQ₁ hQ₂ (by omega)
    rw [Finset.mem_inter] at hp
    rcases hvote p hp.2 with rfl | hg
    · -- the candidate itself
      rcases retained hW hV hE hK htr hP.led hT hlater hrun hsufw
        ((hhad p hp.1).before hW htr hsufw (by omega)) (Nat.le_of_eq hterm) with h | ⟨s', hs', m, hm⟩
      · exact h
      · exact absurd hm (hnone s' hs' m)
    · rw [← het, ← hel] at hg
      exact prefix_of_granted hW hV hE hF hK htr hP hT hlater hsufw hterm hnone (hhad p hp.1) hg

end Run

end Raft
end DistributedPrograms
