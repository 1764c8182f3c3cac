import DistributedPrograms.Raft.Rounds

/-!
# What a leader writes down about its followers

`send_append_entries` reads the length of the log again after the reply of a peer, for
`match_index`, and again when all futures have ended, for `commit_index`.  It counts on
`append_entries_lock` to keep other calls from appending in between, but the lock is not held, so
both can be set to entries no follower has seen (`commits_unseen_entry`).

What both are meant to say is said about the history: `MatchIndexRule`, that the peer has held the
leader's entries up to the index at a moment of this leadership, and `CommitIndexRule`, that a
majority with the leader in it has.

`ReplyIsCurrent` and `CloseIsCurrent` ask of a step that the log is still the one the request was
cut out of, and the leadership the one of the call.  Then both are what they are meant to be
(`commit_rule`).  The conditions compare the request with the log at the moment of the step; they do
not ask what any follower has.

Beyond `acked` two things are needed.  The peer had the log in the term of the request, and this
must lie within the leadership in which the success is counted (`Held.during`).  And the successes
of a call that commits must be turned into a majority of servers (`close_quorum`), of which the node
itself is one.
-/

set_option autoImplicit false

namespace DistributedPrograms
namespace Raft

variable {A : Type} [DecidableEq A] {servers : Finset A} {c c' : Cluster A}
  {tr : List (Cluster A)}

open VariableState

/-! ## The rule

An index is written down once and read much later, so the rule is about a moment of the same
leadership at which the peer had the entries, and not about what it has now. -/

/-- At some moment at which `n` leads term `T`, the log of `p` begins with `L`.  It need not be so
any more when `n` learns of it. -/
def HeldUnder (tr : List (Cluster A)) (n : A) (T : Nat) (p : A) (L : List Log) : Prop :=
  ∃ s ∈ tr, Leads s n T ∧ L <+: (s.node p).state.logs

omit [DecidableEq A] in
theorem HeldUnder.mono {tr' : List (Cluster A)} {n p : A} {T : Nat} {L L' : List Log}
    (h : HeldUnder tr n T p L) (hsub : tr ⊆ tr') (hL : L' <+: L) : HeldUnder tr' n T p L' := by
  obtain ⟨s, hs, hl, hpre⟩ := h
  exact ⟨s, hsub hs, hl, hL.trans hpre⟩

/-- Whenever `match_index[p] = j` on a leader, `p` has held the leader's entries up to `j` at a
moment of this leadership. -/
def MatchIndexRule (tr : List (Cluster A)) : Prop :=
  ∀ c tr₀, (c :: tr₀) <:+ tr → ∀ n p j, (c.node n).state.role.matchIndexOf p = some j →
    j < (c.node n).state.logs.length ∧
      HeldUnder (c :: tr₀) n (c.node n).state.currentTerm p ((c.node n).state.logs.take (j + 1))

/-- Whenever a call sets `commit_index`, a majority of the servers, the leader included, have held
the leader's entries up to it at a moment of the leadership of the call. -/
def CommitIndexRule (servers : Finset A) (tr : List (Cluster A)) : Prop :=
  ∀ c' c tr₀, (c' :: c :: tr₀) <:+ tr → ∀ n r rd,
    c.step servers (.closeRound n r) = some c' → (c.node n).rounds[r]? = some rd →
    countTrue servers rd.peers * 2 > servers.card →
    (c'.node n).state.commitIndex < (c'.node n).state.logs.length ∧
    ∃ Q ⊆ servers, Q.card * 2 > servers.card ∧ (n ∈ servers → n ∈ Q) ∧
      ∀ p ∈ Q, HeldUnder (c' :: c :: tr₀) n rd.term p
        ((c'.node n).state.logs.take ((c'.node n).state.commitIndex + 1))

/-! ## Conditions on a step

Each is about what an answer says and what it is taken for. -/

/-- A success that reaches a leader is about its current term and its whole log.  The code takes it
for that, since it reads the length of the log again when the reply is there. -/
def ReplyIsCurrent (tr : List (Cluster A)) : Action A → Prop
  | .appendReply k => ∀ c ∈ tr.head?, ∀ m ∈ c.appendReplies[k]?, m.2.success = true →
      (c.node m.1.caller).state.role.isLeader = true →
      (c.node m.1.caller).state.currentTerm = m.1.req.term ∧
        m.1.req.prevLogIndex + 1 + m.1.req.entries.length =
          (c.node m.1.caller).state.logs.length
  | _ => True

/-- A call that commits is one of the current leadership, and the requests whose successes it counts
were about the whole log.  The code looks at the number of successes only. -/
def CloseIsCurrent (servers : Finset A) (tr : List (Cluster A)) : Action A → Prop
  | .closeRound n r => ∀ c ∈ tr.head?, ∀ rd ∈ (c.node n).rounds[r]?,
      countTrue servers rd.peers * 2 > servers.card →
      Leads c n rd.term ∧ ∀ p ∈ servers, p ≠ n → (rd.peers p).succeeded = true →
        ∀ req ∈ (rd.peers p).sent,
          req.prevLogIndex + 1 + req.entries.length = (c.node n).state.logs.length
  | _ => True

instance (tr : List (Cluster A)) (a : Action A) : Decidable (ReplyIsCurrent tr a) := by
  rcases a <;> dsimp only [ReplyIsCurrent] <;> infer_instance

instance (tr : List (Cluster A)) (a : Action A) : Decidable (CloseIsCurrent servers tr a) := by
  rcases a <;> dsimp only [CloseIsCurrent] <;> infer_instance

section Run

variable {C : List (Cluster A) → Action A → Prop}

/-! ## The excuse of a node that has left the term

A peer that has gone on to a later term may have lost what it had; its answer then comes too late to
be counted. -/

/-- `n` has been in a term above `T`. -/
def Passed (tr : List (Cluster A)) (n : A) (T : Nat) : Prop :=
  ∃ s ∈ tr, T < (s.node n).state.currentTerm

/-- A node that does not lead the term of one of its rounds has left it. -/
theorem passed_of_not_leads (hW : ∀ tr a, C tr a → NoTermWrap tr a)
    (h : Run (Cluster.step servers) C Cluster.init (c :: tr)) {n : A} {r : Nat} {rd : Round A}
    (hrd : (c.node n).rounds[r]? = some rd) (hl : ¬Leads c n rd.term) :
    Passed (c :: tr) n rd.term := by
  obtain ⟨s, hs, hls, -⟩ := roundLed h hrd
  have hle := term_mono hW h n s hs
  have hne : (c.node n).state.currentTerm ≠ rd.term :=
    fun heq => hl (leads_persist hW h s hs hls heq)
  have hterm := hls.2
  exact ⟨c, by simp, by omega⟩

theorem excuse_passed (hW : ∀ tr a, C tr a → NoTermWrap tr a) : Excuse servers C Passed where
  cons c tr n T h := by
    obtain ⟨s, hs, h⟩ := h
    exact ⟨s, List.mem_cons_of_mem _ hs, h⟩
  send c tr n r p rd hrun _ hrd _ := by
    by_cases hl : Leads c n rd.term
    · exact Or.inl hl
    · exact Or.inr (passed_of_not_leads hW hrun hrd hl)
  reply c tr k call res rd hrun _ _ hrd hrole := by
    refine Or.inr (passed_of_not_leads hW hrun hrd fun hl => ?_)
    rw [hl.1] at hrole
    exact absurd hrole (by simp)

theorem not_passed (hW : ∀ tr a, C tr a → NoTermWrap tr a)
    (h : Run (Cluster.step servers) C Cluster.init (c :: tr)) {n : A} {T : Nat}
    (hl : Leads c n T) : ¬Passed (c :: tr) n T := by
  rintro ⟨s, hs, hlt⟩
  have hle := term_mono hW h n s hs
  have hterm := hl.2
  omega

/-! ## What an acknowledgement says to the leader it reaches

A reply in order speaks of the log that the leader has now, so an index map may take it over. -/

/-- A peer that has answered a request about the whole log of the leader has had this log, in the
leader's term and during the leadership. -/
theorem Held.during (hW : ∀ tr a, C tr a → NoTermWrap tr a)
    (hV : ∀ tr a, C tr a → VoteOnce tr a)
    (h : Run (Cluster.step servers) C Cluster.init (c :: tr)) {n p : A}
    {req : AppendEntriesRequest} (hheld : Held (c :: tr) n p req) (hl : Leads c n req.term)
    (hlen : req.prevLogIndex + 1 + req.entries.length = (c.node n).state.logs.length) :
    ∃ s ∈ c :: tr, Leads s n req.term ∧ (s.node p).state.currentTerm = req.term ∧
      (c.node n).state.logs <+: (s.node p).state.logs := by
  obtain ⟨s, tr₀, hsuf, hsterm, s₀, hs₀, hl₀, hfrom, heq⟩ := hheld
  have hs : s ∈ c :: tr := hsuf.subset (by simp)
  have hrun := h.of_suffix hsuf (by simp)
  -- between the request and now the node has led the term
  have hle₁ := term_mono hW hrun n s₀ hs₀
  have hle₂ := term_mono hW h n s hs
  have hterm : (s.node n).state.currentTerm = req.term := by
    have h₁ := hl₀.2
    have h₂ := hl.2
    omega
  have hls := leads_persist hW hrun s₀ hs₀ hl₀ hterm
  have hlog : (s₀.node n).state.logs = (c.node n).state.logs :=
    (led_comparable' hW hV h ⟨s₀, hsuf.subset hs₀, hl₀, rfl⟩
      ⟨c, by simp, hl, rfl⟩).eq_of_length (by rw [← hfrom.length, hlen])
  exact ⟨s, hs, hls, hsterm, by rw [heq, hlog]⟩

/-- A step that closes a round is no other step as well. -/
theorem eq_closeRound {a : Action A} {n : A} {r : Nat}
    (hclose : c.step servers (.closeRound n r) = some c') (hs : c.step servers a = some c') :
    a = .closeRound n r := by
  obtain ⟨rd, hrd, hret, -, hc'⟩ := step_closeRound hclose
  have hlt : r < (c.node n).rounds.length := (List.getElem?_eq_some_iff.1 hrd).1
  have hrd' : (c'.node n).rounds[r]? = some (rd.close (sendAppendEntriesCommit servers
      (c.node n).state (countTrue servers rd.peers)).2) := by
    rw [hc', Cluster.setNode_self]
    exact List.getElem?_set_self hlt
  rcases step_rounds hs hrd' with ⟨_, _, -, hge, -⟩ | ⟨rd₀, hrd₀, hstep⟩
  · omega
  · cases hrd.symm.trans hrd₀
    rcases hstep.ret with heq | ⟨ha, -⟩
    · rw [hret] at heq
      exact absurd heq (by simp [Round.close])
    · exact ha

/-- What a call that commits does to its node. -/
theorem closeRound_commits {n : A} {r : Nat} {rd : Round A}
    (hs : c.step servers (.closeRound n r) = some c') (hrd : (c.node n).rounds[r]? = some rd)
    (hmaj : countTrue servers rd.peers * 2 > servers.card) :
    (c'.node n).state =
      { (c.node n).state with commitIndex := (c.node n).state.logs.length - 1 } := by
  obtain ⟨rd₀, hrd₀, -, -, rfl⟩ := step_closeRound hs
  cases hrd.symm.trans hrd₀
  rw [Cluster.setNode_self, sendAppendEntriesCommit, if_pos hmaj]

/-- **Committing is backed by a majority**, when the call is of the current leadership and has asked
about the whole log: each of the majority has held this very log under this leader. -/
theorem close_quorum (hW : ∀ tr a, C tr a → NoTermWrap tr a)
    (hV : ∀ tr a, C tr a → VoteOnce tr a) (hE : ∀ tr a, C tr a → InsertsAtEnd tr a)
    (h : Run (Cluster.step servers) C Cluster.init (c :: tr)) {n : A} {r : Nat} {rd : Round A}
    (hclose : CloseIsCurrent servers (c :: tr) (.closeRound n r))
    (hrd : (c.node n).rounds[r]? = some rd) (hmaj : countTrue servers rd.peers * 2 > servers.card) :
    Leads c n rd.term ∧ ∃ Q ⊆ servers, Q.card * 2 > servers.card ∧ (n ∈ servers → n ∈ Q) ∧
      ∀ p ∈ Q, ∃ s ∈ c :: tr, Leads s n rd.term ∧ (s.node p).state.currentTerm = rd.term ∧
        (c.node n).state.logs <+: (s.node p).state.logs := by
  obtain ⟨hl, hcover⟩ := hclose c (by simp) rd (by simp [hrd]) hmaj
  have hX : Excuse servers C Passed := excuse_passed hW
  refine ⟨hl, servers.filter fun p => p = n ∨ (rd.peers p).succeeded = true,
    Finset.filter_subset _ _, ?_, fun hn => Finset.mem_filter.2 ⟨hn, Or.inl rfl⟩, ?_⟩
  · have hle : countTrue servers rd.peers ≤
        (servers.filter fun p => p = n ∨ (rd.peers p).succeeded = true).card :=
      Finset.card_le_card fun p hp =>
        Finset.mem_filter.2 ⟨(Finset.mem_filter.1 hp).1, Or.inr (Finset.mem_filter.1 hp).2⟩
    omega
  · intro p hp
    obtain ⟨hps, hp⟩ := Finset.mem_filter.1 hp
    by_cases hpn : p = n
    · subst hpn
      exact ⟨c, by simp, hl, hl.2, List.prefix_refl _⟩
    have hsucc := hp.resolve_left hpn
    rcases acked hW hV hE hX h hrd hsucc with hpn' | hx | ⟨req, hsent, hheld⟩
    · exact absurd hpn' hpn
    · exact absurd hx (not_passed hW h hl)
    · rcases covers_of_sent hW hX h hrd hsent with ⟨hterm, -⟩ | hx
      · rw [← hterm] at hl ⊢
        exact hheld.during hW hV h hl (hcover p hps hpn hsucc req (by simp [hsent]))
      · exact absurd hx (not_passed hW h (by exact hl))

theorem matchIndexRule_head (hW : ∀ tr a, C tr a → NoTermWrap tr a)
    (hV : ∀ tr a, C tr a → VoteOnce tr a) (hE : ∀ tr a, C tr a → InsertsAtEnd tr a)
    (hR : ∀ tr a, C tr a → ReplyIsCurrent tr a)
    (h : Run (Cluster.step servers) C Cluster.init (c :: tr)) {n p : A} {j : Nat} :
    (c.node n).state.role.matchIndexOf p = some j → j < (c.node n).state.logs.length ∧
      HeldUnder (c :: tr) n (c.node n).state.currentTerm p
        ((c.node n).state.logs.take (j + 1)) := by
  refine Run.head_induction (P := fun c tr => ∀ {j : Nat},
    (c.node n).state.role.matchIndexOf p = some j → j < (c.node n).state.logs.length ∧
      HeldUnder (c :: tr) n (c.node n).state.currentTerm p
        ((c.node n).state.logs.take (j + 1))) ?_ ?_ h
  · intro j hj
    exact absurd hj (by simp [Cluster.init, VariableState.init])
  · intro c tr a c' hrun hc hs ih j hj
    have hrun' := Run.step hrun hc hs
    have hsub : c :: tr ⊆ c' :: c :: tr := List.subset_cons_self _ _
    have hlead := Role.isLeader_of_matchIndexOf hj
    rcases (step_effect hs n).matchIndex hj with hmatch | ⟨-, rfl⟩
    · -- as leader of the term the node has only appended in this step
      have hgrow : (c.node n).state.role.isLeader = true →
          (c'.node n).state.currentTerm = (c.node n).state.currentTerm ∧
            (c.node n).state.logs <+: (c'.node n).state.logs := by
        intro hlc
        rcases (step_effect hs n).leader hlead with ⟨-, hterm, texts, hlogs⟩ |
          ⟨_, _, -, -, -, -, hr, -⟩
        · exact ⟨hterm, by rw [hlogs]; exact List.prefix_append _ _⟩
        · rw [hr] at hlc
          exact absurd hlc (by simp)
      have hfinish : ∀ j, (c.node n).state.role.isLeader = true →
          j < (c.node n).state.logs.length →
          HeldUnder (c :: tr) n (c.node n).state.currentTerm p
            ((c.node n).state.logs.take (j + 1)) →
          j < (c'.node n).state.logs.length ∧
            HeldUnder (c' :: c :: tr) n (c'.node n).state.currentTerm p
              ((c'.node n).state.logs.take (j + 1)) := by
        intro j hlc hlt hheld
        obtain ⟨hterm, hpre⟩ := hgrow hlc
        refine ⟨Nat.lt_of_lt_of_le hlt hpre.length_le, ?_⟩
        rw [hterm, take_eq_take_of_isPrefix hpre hlt]
        exact hheld.mono hsub (List.prefix_refl _)
      have hpos := logs_length_pos hrun (s := c) (by simp) n
      cases hmatch with
      | keep hj =>
        obtain ⟨hlt, hheld⟩ := ih hj
        exact hfinish _ (Role.isLeader_of_matchIndexOf hj) hlt hheld
      | self hlc =>
        exact hfinish _ hlc (by omega) ⟨c, by simp, ⟨hlc, rfl⟩, List.take_prefix _ _⟩
      | @reply k call res hk hcaller hsuccess hlc =>
        subst hcaller
        obtain ⟨hterm, hlen⟩ := hR _ _ hc c (by simp) (call, res) (by simp [hk]) hsuccess hlc
        have hheld := held_of_reply hW hV hE hrun _ (List.mem_of_getElem? hk) hsuccess
        obtain ⟨s, hs, hl, -, hpre⟩ := hheld.during hW hV hrun ⟨hlc, hterm⟩ hlen
        exact hfinish _ hlc (by omega)
          ⟨s, hs, hterm ▸ hl, (List.take_prefix _ _).trans hpre⟩
    · have hpos := logs_length_pos hrun' (s := c') (by simp) n
      refine ⟨hpos, c', by simp, ⟨hlead, rfl⟩, ?_⟩
      rw [← (singleton_prefix_take (initLog_isPrefix hrun' c' (by simp) n) 0).eq_of_length
        (by simp; omega)]
      exact initLog_isPrefix hrun' c' (by simp) p

end Run

/-- The conditions of `commit_rule`. -/
def CommitCond (servers : Finset A) (tr : List (Cluster A)) (a : Action A) : Prop :=
  (NoTermWrap tr a ∧ VoteOnce tr a ∧ InsertsAtEnd tr a) ∧
    ReplyIsCurrent tr a ∧ CloseIsCurrent servers tr a

instance [Fintype A] (tr : List (Cluster A)) (a : Action A) :
    Decidable (CommitCond servers tr a) := by
  unfold CommitCond; infer_instance

/-- **The commit rule.**  As long as no server votes twice in a term, no follower takes over entries
where it has some already, and every success is counted against the log and in the leadership it
was given for, `match_index` is what a follower has held and `commit_index` what a majority has. -/
theorem commit_rule (h : Run (Cluster.step servers) (CommitCond servers) Cluster.init tr) :
    MatchIndexRule tr ∧ CommitIndexRule servers tr := by
  have hW : ∀ (tr : List (Cluster A)) a, CommitCond servers tr a → NoTermWrap tr a :=
    fun _ _ hc => hc.1.1
  have hV : ∀ (tr : List (Cluster A)) a, CommitCond servers tr a → VoteOnce tr a :=
    fun _ _ hc => hc.1.2.1
  have hE : ∀ (tr : List (Cluster A)) a, CommitCond servers tr a → InsertsAtEnd tr a :=
    fun _ _ hc => hc.1.2.2
  refine ⟨fun c tr₀ hsuf n p j hj => ?_, fun c' c tr₀ hsuf n r rd hs hrd hmaj => ?_⟩
  · exact matchIndexRule_head hW hV hE (fun _ _ hc => hc.2.1) (h.of_suffix hsuf (by simp)) hj
  · cases h.of_suffix hsuf (by simp) with
    | step hrun hc hstep =>
      cases eq_closeRound hs hstep
      have hstate := closeRound_commits hs hrd hmaj
      have hpos := logs_length_pos hrun (s := c) (by simp) n
      obtain ⟨-, Q, hQ, hcard, hn, hheld⟩ := close_quorum hW hV hE hrun hc.2.2 hrd hmaj
      rw [hstate]
      refine ⟨Nat.sub_lt hpos Nat.one_pos, Q, hQ, hcard, hn, fun p hp => ?_⟩
      obtain ⟨s, hs, hl, -, hpre⟩ := hheld p hp
      exact ⟨s, List.mem_cons_of_mem _ hs, hl, (List.take_prefix _ _).trans hpre⟩

/-- A run of three nodes within the conditions: node 1 takes over the entry of leader 0, which notes
this and commits. -/
theorem commit_rule_three :
    ∃ tr : List (Cluster (Fin 3)), (MatchIndexRule tr ∧ CommitIndexRule Finset.univ tr) ∧
      ∃ c ∈ tr, (c.node 0).state.role.matchIndexOf 1 = some 1 ∧
        (c.node 0).state.commitIndex = 1 := by
  have hcheck : Run.check (Cluster.step (Finset.univ : Finset (Fin 3)))
      (fun tr a => decide (CommitCond Finset.univ tr a)) Cluster.init
      [.openElection 0 .ok, .askVote 0 0, .askVote 0 2, .requestVote 0 .ok .ok, .voteReply 0,
        .askVote 0 1, .voteError 0 1, .countVotes 0 .ok,
        .sendAppendEntries 0 ["a"] .ok, .sendRound 0 0 0, .sendRound 0 0 1,
        .appendEntries 0 .ok .ok, .appendReply 0, .sendRound 0 0 2, .appendError 0 0 2,
        .closeRound 0 0]
      (fun tr => decide (∃ c ∈ tr, (c.node 0).state.role.matchIndexOf 1 = some 1 ∧
        (c.node 0).state.commitIndex = 1)) = true := by
    decide +kernel
  obtain ⟨tr, hrun, hp⟩ := Run.exists_of_check (fun _ _ hc => of_decide_eq_true hc) hcheck
  exact ⟨tr, commit_rule hrun, of_decide_eq_true hp⟩

/-- **An entry nobody has seen is noted and committed.**  While the request with the entry `a` is
under way a second call appends `b`; the reply to the first is counted for both. -/
theorem commits_unseen_entry :
    ∃ tr : List (Cluster (Fin 3)), Run (Cluster.step Finset.univ) (fun _ _ => True)
      Cluster.init tr ∧ ¬MatchIndexRule tr ∧ ¬CommitIndexRule Finset.univ tr := by
  have hcheck : Run.checkStep (Cluster.step (Finset.univ : Finset (Fin 3))) (fun _ _ => true)
      Cluster.init
      [.openElection 0 .ok, .askVote 0 0, .askVote 0 2, .requestVote 0 .ok .ok, .voteReply 0,
        .askVote 0 1, .voteError 0 1, .countVotes 0 .ok,
        .sendAppendEntries 0 ["a"] .ok, .sendRound 0 0 0, .sendRound 0 0 1, .sendRound 0 0 2,
        .sendAppendEntries 0 ["b"] .ok, .appendEntries 1 .ok .ok, .appendReply 0,
        .appendError 0 0 2] (.closeRound 0 0) (fun c' c tr =>
      ((c.node 0).rounds[0]?.any fun rd => decide (countTrue Finset.univ rd.peers * 2 > 3)) &&
      decide ((c'.node 0).state.role.matchIndexOf 1 = some 2 ∧
        (c'.node 0).state.commitIndex = 2 ∧ (c'.node 0).state.logs.length = 3 ∧
        ∀ s ∈ c' :: c :: tr, ∀ p, p ≠ 0 → (s.node p).state.logs.length ≤ 2)) = true := by
    decide +kernel
  obtain ⟨c', c, tr, hrun, hs, hp⟩ :=
    Run.exists_of_checkStep (C := fun _ _ => True) (fun _ _ _ => trivial) hcheck
  rw [Bool.and_eq_true, Option.any_eq_true] at hp
  obtain ⟨⟨rd, hrd, hmaj⟩, hp⟩ := hp
  obtain ⟨hmatch, hcommit, hlen, hshort⟩ := of_decide_eq_true hp
  -- no other node ever has three entries
  have hnot : ∀ T p, p ≠ 0 →
      ¬HeldUnder (c' :: c :: tr) 0 T p ((c'.node 0).state.logs.take (2 + 1)) := by
    rintro T p hp ⟨s, hs, -, hpre⟩
    have hle := hpre.length_le
    have hle' := hshort s hs p hp
    rw [List.length_take, hlen] at hle
    omega
  refine ⟨c' :: c :: tr, hrun, fun hrule => ?_, fun hrule => ?_⟩
  · exact hnot _ 1 (by decide) (hrule c' _ List.suffix_rfl 0 1 2 hmatch).2
  · obtain ⟨-, Q, -, hcard, -, hheld⟩ :=
      hrule c' c tr List.suffix_rfl 0 0 rd hs hrd (of_decide_eq_true hmaj)
    rw [hcommit] at hheld
    have hsub : Q ⊆ {0} := by
      intro p hp
      by_contra hne
      exact hnot _ p (by simpa using hne) (hheld p hp)
    have hle := Finset.card_le_card hsub
    rw [Finset.card_singleton] at hle
    have hthree : (Finset.univ : Finset (Fin 3)).card = 3 := by decide
    omega

end Raft
end DistributedPrograms
