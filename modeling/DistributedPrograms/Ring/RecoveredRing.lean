import DistributedPrograms.Lib.Run
import DistributedPrograms.Ring.Recovery

/-!
# The recovered ring

After crashes every live node looks for the first live node behind itself in the old order
(`FirstAfter`).  `Settled c a` says that `a` has it as `prev` and is its `next`.  A node whose
`prev` is alive is settled from the start, any other one when its recovery has run, and nobody is
unsettled again: two live nodes never look for the same one, so no `set_next` overwrites another's.
When all live nodes are settled they form the ring that skips the dead ones.

* `FullCache` is what the search relies on: a list of all members in the old order, from wherever it
  begins. Then the candidates are the nodes behind the one that searches, one after the other
  (`Searches`).
* `RecoveryInv` is the invariant of the recoveries in progress: each has tried dead nodes only, and
  a `set_next` that has succeeded went to the first live node.
* `RecoveryInv.lt_length`: the loop cannot run out of candidates, because after a full round a node
  would find itself, which is alive.
* `ring_recovered`: when every live node whose `prev` is dead has run `recovery_prev`, the live
  nodes form one well-formed ring in the old order, whatever else has run in the meantime.

Who is alive is fixed here: the crashes have happened before.  Crashes at any time are in the
modules on healing.
-/

set_option autoImplicit false

namespace DistributedPrograms
namespace Ring
namespace Recovery

open SocketAddr Tasks

variable {A : Type} {f : A → A} {ring : List A} {alive : A → Bool} {c c' : Recovery A} {a b p : A}

/-- `p` is the first live node behind `a` in the old ring, and leads back to `a`.  This is what a
`set_next` brings about, before `prev` is written. -/
def LinkedTo (f : A → A) (alive : A → Bool) (c : Recovery A) (a p : A) : Prop :=
  FirstAfter f (fun x => alive x) a p ∧ (c.node p).connection.next = a

/-- `a` stands where it has to in the recovered ring: its `prev` is the first live node behind it,
and leads back. -/
def Settled (f : A → A) (alive : A → Bool) (c : Recovery A) (a : A) : Prop :=
  LinkedTo f alive c a (c.node a).connection.prev

variable [SocketAddr A]

/-- A cache of all members in the old order, from wherever it begins.  Each round begins its list
with the node that has started it. -/
def FullCache (ring : List A) (cache : List String) : Prop :=
  ∃ r, ring ~r r ∧ cache = r.map SocketAddr.toString

/-- The candidates of a search are the nodes behind `a`, one after the other. -/
def Searches (f : A → A) (ring : List A) (cache : List String) (myIdx : Nat) (a : A) : Prop :=
  cache.length = ring.length ∧ ∀ i, Node.candidate cache myIdx i = some (f^[i + 1] a)

/-- **A full cache is searched in the old order.** -/
theorem searches_of_fullCache {cache : List String} {myIdx : Nat} (hcycle : CycleOn f ring)
    (hcache : FullCache ring cache) (hidx : Node.myIdxInMemberCache cache a = some myIdx) :
    Searches f ring cache myIdx a := by
  obtain ⟨r, hrot, rfl⟩ := hcache
  have hr := hcycle.isRotated hrot
  have hlen : r.length = ring.length := hrot.perm.length_eq.symm
  obtain ⟨hlt, hfound, -⟩ := List.findIdx?_eq_some_iff_getElem.1 hidx
  rw [List.length_map] at hlt
  have ha : r[myIdx]? = some a := by
    rw [List.getElem_map, beq_iff_eq, toString_inj] at hfound
    rw [List.getElem?_eq_getElem hlt, hfound]
  refine ⟨by rw [List.length_map, hlen], fun i => ?_⟩
  have hnext := hr.getElem?_iterate ha (i + 1)
  rw [← Nat.add_assoc] at hnext
  rw [Node.candidate, List.length_map, List.getElem?_map, hnext]
  simp

/-- A node finds itself in a cache that lists it. -/
theorem exists_myIdx_of_mem {cache : List String} (h : toString a ∈ cache) :
    ∃ myIdx, Node.myIdxInMemberCache cache a = some myIdx := by
  refine Option.isSome_iff_exists.1 ?_
  rw [Node.myIdxInMemberCache, List.findIdx?_isSome, List.any_eq_true]
  exact ⟨toString a, h, beq_self_eq_true _⟩

/-! ## The invariant

The old order `f` stands for the pointers before the crashes, and no step changes it. -/

/-- What holds of the recoveries in progress on a ring whose old order is `f`.  Every search goes
through the nodes in this order and has met dead ones only. -/
structure RecoveryInv (f : A → A) (ring : List A) (alive : A → Bool) (c : Recovery A) : Prop where
  cache : ∀ a ∈ ring, FullCache ring (c.node a).ringCache
  actor : ∀ a, c.task a ≠ .idle → a ∈ ring ∧ alive a
  searching : ∀ a cache myIdx i, c.task a = .searching cache myIdx i →
    Searches f ring cache myIdx a ∧ ∀ j < i, alive (f^[j + 1] a) = false
  linked : ∀ a p, c.task a = .linked p → LinkedTo f alive c a p
  settled : ∀ a ∈ ring, alive a → alive (f a) → Settled f alive c a

variable [DecidableEq A]

omit [SocketAddr A] in
/-- A `set_next` from a live node to the first live node behind it takes that place from nobody. -/
theorem LinkedTo.setNext (hcycle : CycleOn f ring) (ha : a ∈ ring) (hal : alive a) (hb : b ∈ ring)
    (hbl : alive b) {q : A} (h : LinkedTo f alive c a p)
    (hq : FirstAfter f (fun x => alive x) b q) :
    LinkedTo f alive (c.setNode q { c.node q with
      connection := { (c.node q).connection with next := b } }) a p := by
  refine ⟨h.1, ?_⟩
  by_cases hpq : p = q
  · subst hpq
    rw [setNode_node_self]
    exact hcycle.firstAfter_injOn hb ha hbl hal hq h.1
  · rw [setNode_node_of_ne _ _ hpq]
    exact h.2

omit [DecidableEq A] in
/-- A successful round of the loop has found the first live node. -/
theorem firstAfter_of_candidate {cache : List String} {myIdx i : Nat} {q : A}
    (hsearch : Searches f ring cache myIdx a) (hskip : ∀ j < i, alive (f^[j + 1] a) = false)
    (hq : Node.candidate cache myIdx i = some q) (hql : alive q) :
    FirstAfter f (fun x => alive x) a q := by
  rw [hsearch.2 i, Option.some.injEq] at hq
  exact ⟨i, hq, hql, fun j hj => Bool.eq_false_iff.1 (hskip j hj)⟩

omit [DecidableEq A] in
/-- The loop cannot run out of candidates: after a full round the node finds itself. -/
theorem RecoveryInv.lt_length (h : RecoveryInv f ring alive c) (hcycle : CycleOn f ring)
    {cache : List String} {myIdx i : Nat} (ht : c.task a = .searching cache myIdx i) :
    i < cache.length := by
  obtain ⟨ha, hal⟩ := h.actor a (by simp [ht])
  obtain ⟨⟨hlen, -⟩, hskip⟩ := h.searching a cache myIdx i ht
  rw [hlen]
  by_contra hge
  have hself := hskip (ring.length - 1) (by have := hcycle.length_pos; omega)
  rw [Nat.sub_add_cancel hcycle.length_pos, hcycle.iterate_length ha, hal] at hself
  cases hself

/-- **Nobody is unlinked.** -/
theorem LinkedTo.step (h : LinkedTo f alive c a p) (hinv : RecoveryInv f ring alive c)
    (hcycle : CycleOn f ring) (ha : a ∈ ring) (hal : alive a) {act : RecoveryAction A}
    (hs : Recovery.step ring alive c act = some c') : LinkedTo f alive c' a p := by
  rcases step_cases hs with ⟨n, -, -, -, -, ⟨myIdx, -, rfl⟩ | rfl⟩ |
    ⟨n, cache, myIdx, i, -, ht, ⟨-, rfl⟩ | ⟨-, rfl⟩ | ⟨q, hq, hql, rfl⟩⟩ | ⟨n, q, -, -, rfl⟩
  · exact h
  · exact h
  · exact h
  · exact h
  · obtain ⟨hn, hnl⟩ := hinv.actor n (by simp [ht])
    obtain ⟨hsearch, hskip⟩ := hinv.searching n cache myIdx i ht
    exact h.setNext hcycle ha hal hn hnl (firstAfter_of_candidate hsearch hskip hq hql)
  · refine ⟨h.1, ?_⟩
    by_cases hpn : p = n
    · subst hpn
      rw [setTask_node, setNode_node_self]
      exact h.2
    · rw [setTask_node, setNode_node_of_ne _ _ hpn]
      exact h.2

/-- **Nobody is unsettled.** -/
theorem Settled.step (h : Settled f alive c a) (hinv : RecoveryInv f ring alive c)
    (hcycle : CycleOn f ring) (ha : a ∈ ring) (hal : alive a) {act : RecoveryAction A}
    (hs : Recovery.step ring alive c act = some c') : Settled f alive c' a := by
  have hlinked := LinkedTo.step h hinv hcycle ha hal hs
  have hsame : (c'.node a).connection.prev = (c.node a).connection.prev →
      Settled f alive c' a := by
    intro hprev
    rw [Settled, hprev]
    exact hlinked
  rcases step_cases hs with ⟨n, -, -, -, -, ⟨myIdx, -, rfl⟩ | rfl⟩ |
    ⟨n, cache, myIdx, i, -, ht, ⟨-, rfl⟩ | ⟨-, rfl⟩ | ⟨q, hq, hql, rfl⟩⟩ | ⟨n, q, -, ht, rfl⟩
  · exact hlinked
  · exact hlinked
  · exact hlinked
  · exact hlinked
  · refine hsame ?_
    by_cases haq : a = q
    · subst haq
      rw [setTask_node, setNode_node_self]
    · rw [setTask_node, setNode_node_of_ne _ _ haq]
  · refine hsame ?_
    by_cases han : a = n
    · subst han
      rw [setTask_node, setNode_node_self]
      exact (hinv.linked a q ht).1.unique h.1
    · rw [setTask_node, setNode_node_of_ne _ _ han]

/-- **The end of a recovery settles its node.**  It ends by writing the `prev` that it is linked
to. -/
theorem RecoveryInv.settled_of_end (hinv : RecoveryInv f ring alive c) (hcycle : CycleOn f ring)
    {act : RecoveryAction A} (hs : Recovery.step ring alive c act = some c')
    (hbusy : c.task a ≠ .idle) (hend : c'.task a = .idle) : Settled f alive c' a := by
  obtain ⟨ha, hal⟩ := hinv.actor a hbusy
  -- the task of `a` can only have moved on if the step was its own
  have hother : ∀ {n : A} {t : RecoveryTask A} {m : A → Node A},
      c' = Tasks.setTask ⟨m, c.task⟩ n t → n = a := by
    rintro n t m rfl
    by_contra hne
    rw [setTask_task_of_ne _ _ (Ne.symm hne)] at hend
    exact hbusy hend
  rcases step_cases hs with ⟨n, -, -, -, hidle, ⟨myIdx, -, hc'⟩ | hc'⟩ |
    ⟨n, cache, myIdx, i, -, ht, ⟨hlen, hc'⟩ | ⟨-, hc'⟩ | ⟨q, -, -, hc'⟩⟩ | ⟨n, q, -, ht, hc'⟩
  · obtain rfl := hother hc'
    exact absurd hidle hbusy
  · rw [hc'] at hend
    exact absurd hend hbusy
  · obtain rfl := hother hc'
    exact absurd (hinv.lt_length hcycle ht) (Nat.not_lt.2 hlen)
  · obtain rfl := hother hc'
    rw [hc', setTask_task_self] at hend
    cases hend
  · obtain rfl := hother hc'
    rw [hc', setTask_task_self] at hend
    cases hend
  · obtain rfl := hother hc'
    have hlinked := (hinv.linked n q ht).step hinv hcycle ha hal hs
    have hprev : (c'.node n).connection.prev = q := by
      rw [hc', setTask_node, setNode_node_self]
      rfl
    rw [Settled, hprev]
    exact hlinked

/-- No step changes a cache. -/
theorem step_ringCache {act : RecoveryAction A} (hs : Recovery.step ring alive c act = some c')
    (a : A) : (c'.node a).ringCache = (c.node a).ringCache := by
  have hupdate : ∀ (b : A) (n : Node A), n.ringCache = (c.node b).ringCache →
      ((c.setNode b n).node a).ringCache = (c.node a).ringCache := by
    intro b n hn
    by_cases hab : a = b
    · rw [hab, setNode_node_self, hn]
    · rw [setNode_node_of_ne _ _ hab]
  rcases step_cases hs with ⟨n, -, -, -, -, ⟨myIdx, -, rfl⟩ | rfl⟩ |
    ⟨n, cache, myIdx, i, -, ht, ⟨-, rfl⟩ | ⟨-, rfl⟩ | ⟨q, hq, hql, rfl⟩⟩ | ⟨n, q, -, -, rfl⟩
  · rfl
  · rfl
  · rfl
  · rfl
  · exact hupdate q _ rfl
  · exact hupdate n _ rfl

/-- What a step does to the tasks: the task of one live member moves, as its place in the loop
says. -/
theorem RecoveryInv.step_task (hinv : RecoveryInv f ring alive c) (hcycle : CycleOn f ring)
    {act : RecoveryAction A} (hs : Recovery.step ring alive c act = some c') (a : A) :
    c'.task a = c.task a ∨
      (a ∈ ring ∧ alive a ∧
        (c'.task a = .idle ∨
        (∃ cache myIdx i, c'.task a = .searching cache myIdx i ∧ Searches f ring cache myIdx a ∧
          ∀ j < i, alive (f^[j + 1] a) = false) ∨
        ∃ p, c'.task a = .linked p ∧ LinkedTo f alive c' a p)) := by
  have hother : ∀ {n : A} {t : RecoveryTask A} {m : A → Node A},
      c' = Tasks.setTask ⟨m, c.task⟩ n t → a ≠ n → c'.task a = c.task a := by
    rintro n t m rfl hne
    exact setTask_task_of_ne _ _ hne
  rcases step_cases hs with ⟨n, -, hn, hnl, -, ⟨myIdx, hidx, hc'⟩ | hc'⟩ |
    ⟨n, cache, myIdx, i, -, ht, hmove⟩ | ⟨n, q, -, ht, hc'⟩
  · by_cases han : a = n
    · subst han
      refine Or.inr ⟨hn, hnl, Or.inr (Or.inl ⟨(c.node a).ringCache, myIdx, 0, ?_, ?_, by simp⟩)⟩
      · rw [hc', setTask_task_self]
      · exact searches_of_fullCache hcycle (hinv.cache a hn) hidx
    · exact Or.inl (hother hc' han)
  · exact Or.inl (by rw [hc'])
  · obtain ⟨hn, hnl⟩ := hinv.actor n (by simp [ht])
    obtain ⟨hsearch, hskip⟩ := hinv.searching n cache myIdx i ht
    rcases hmove with ⟨-, hc'⟩ | ⟨hdead, hc'⟩ | ⟨q, hq, hql, hc'⟩
    · by_cases han : a = n
      · subst han
        exact Or.inr ⟨hn, hnl, Or.inl (by rw [hc', setTask_task_self])⟩
      · exact Or.inl (hother hc' han)
    · by_cases han : a = n
      · subst han
        refine Or.inr ⟨hn, hnl, Or.inr (Or.inl ⟨cache, myIdx, i + 1, ?_, hsearch, ?_⟩)⟩
        · rw [hc', setTask_task_self]
        · intro j hj
          rcases Nat.lt_succ_iff_lt_or_eq.1 hj with hj | rfl
          · exact hskip j hj
          · exact hdead _ (hsearch.2 j)
      · exact Or.inl (hother hc' han)
    · by_cases han : a = n
      · subst han
        refine Or.inr ⟨hn, hnl, Or.inr (Or.inr ⟨q, ?_, ?_, ?_⟩)⟩
        · rw [hc', setTask_task_self]
        · exact firstAfter_of_candidate hsearch hskip hq hql
        · rw [hc', setTask_node, setNode_node_self]
      · exact Or.inl (hother hc' han)
  · obtain ⟨hn, hnl⟩ := hinv.actor n (by simp [ht])
    by_cases han : a = n
    · subst han
      exact Or.inr ⟨hn, hnl, Or.inl (by rw [hc', setTask_task_self])⟩
    · exact Or.inl (hother hc' han)

/-- **The invariant survives every step.** -/
theorem RecoveryInv.step (h : RecoveryInv f ring alive c) (hcycle : CycleOn f ring)
    {act : RecoveryAction A} (hs : Recovery.step ring alive c act = some c') :
    RecoveryInv f ring alive c' := by
  have htask := h.step_task hcycle hs
  refine ⟨fun a ha => ?_, fun a ha => ?_, fun a cache myIdx i ha => ?_, fun a p ha => ?_,
    fun a ha hal hfl => (h.settled a ha hal hfl).step h hcycle ha hal hs⟩
  · rw [step_ringCache hs]
    exact h.cache a ha
  · rcases htask a with hsame | ⟨hmem, hal, -⟩
    · exact h.actor a (hsame ▸ ha)
    · exact ⟨hmem, hal⟩
  · rcases htask a with hsame | ⟨-, -, hidle | ⟨cache', idx', i', hsearch, hinfo⟩ | ⟨p, hp, -⟩⟩
    · exact h.searching a cache myIdx i (hsame ▸ ha)
    · cases ha.symm.trans hidle
    · cases ha.symm.trans hsearch
      exact hinfo
    · cases ha.symm.trans hp
  · rcases htask a with hsame | ⟨-, -, hidle | ⟨cache', idx', i', hsearch, -⟩ | ⟨q, hq, hinfo⟩⟩
    · have hbusy : c.task a ≠ .idle := by simp [← hsame, ha]
      obtain ⟨hmem, hal⟩ := h.actor a hbusy
      exact (h.linked a p (hsame ▸ ha)).step h hcycle hmem hal hs
    · cases ha.symm.trans hidle
    · cases ha.symm.trans hsearch
    · cases ha.symm.trans hq
      exact hinfo

/-! ## Runs

When all have recovered, the live nodes form the ring. -/

variable {c₀ : Recovery A} {tr : List (Recovery A)}

omit [DecidableEq A] in
/-- The ring after the crashes, before any recovery. -/
theorem recoveryInv_init (hring : WellFormed c₀.node ring)
    (hcache : ∀ a ∈ ring, FullCache ring (c₀.node a).ringCache) (hidle : ∀ a, c₀.task a = .idle) :
    RecoveryInv (fun a => (c₀.node a).connection.prev) ring alive c₀ := by
  refine ⟨hcache, fun a ha => absurd (hidle a) ha, by simp [hidle], by simp [hidle], ?_⟩
  intro a ha _ hfl
  exact ⟨⟨0, rfl, hfl, by simp⟩, hring.next_prev a ha⟩

/-- Throughout a run, whoever has run `recovery_prev` is settled. -/
theorem settled_of_hasRun (hinit : RecoveryInv f ring alive c₀) (hcycle : CycleOn f ring)
    (h : Run (Recovery.step ring alive) (fun _ _ => True) c₀ (c :: tr)) :
    RecoveryInv f ring alive c ∧
      ∀ a ∈ ring, alive a → HasRun (c :: tr) a → Settled f alive c a := by
  refine Run.head_induction (P := fun c tr => RecoveryInv f ring alive c ∧
    ∀ a ∈ ring, alive a → HasRun (c :: tr) a → Settled f alive c a) ?_ ?_ h
  · exact ⟨hinit, fun a _ _ hrun => absurd hrun id⟩
  · rintro c tr act c' - - hs ⟨hinv, hsettled⟩
    refine ⟨hinv.step hcycle hs, fun a ha hal hrun => ?_⟩
    rcases hrun with ⟨hbusy, hend⟩ | hrun
    · exact hinv.settled_of_end hcycle hs hbusy hend
    · exact (hsettled a ha hal hrun).step hinv hcycle ha hal hs

omit [SocketAddr A] [DecidableEq A] in
/-- Settled live nodes form one ring, in the old order. -/
theorem wellFormed_of_settled (hcycle : CycleOn f ring) (halive : ∃ a ∈ ring, alive a)
    (h : ∀ a ∈ ring, alive a → Settled f alive c a) : WellFormed c.node (ring.filter alive) := by
  have hfilter := hcycle.filter (P := fun x => alive x) halive
    (g := fun a => (c.node a).connection.prev) fun a ha y hal hy => (h a ha hal).1.unique hy
  simp only [Bool.decide_eq_true] at hfilter
  refine ⟨hfilter, fun a ha => ?_⟩
  obtain ⟨hmem, hal⟩ := List.mem_filter.1 ha
  exact (h a hmem hal).2

/-- **Recovery.**  When every live node whose `prev` is dead has run `recovery_prev`, the live nodes
form one well-formed ring in the old order, whatever else has run meanwhile. -/
theorem ring_recovered (hring : WellFormed c₀.node ring)
    (hcache : ∀ a ∈ ring, FullCache ring (c₀.node a).ringCache) (hidle : ∀ a, c₀.task a = .idle)
    (halive : ∃ a ∈ ring, alive a)
    (h : Run (Recovery.step ring alive) (fun _ _ => True) c₀ (c :: tr))
    (hrun : ∀ a ∈ ring, alive a → alive (c₀.node a).connection.prev = false →
      HasRun (c :: tr) a) : WellFormed c.node (ring.filter alive) := by
  obtain ⟨hinv, hsettled⟩ := settled_of_hasRun (recoveryInv_init hring hcache hidle) hring.cycle h
  refine wellFormed_of_settled hring.cycle halive fun a ha hal => ?_
  cases hprev : alive (c₀.node a).connection.prev with
  | true => exact hinv.settled a ha hal hprev
  | false => exact hsettled a ha hal (hrun a ha hal hprev)

/-! ## A run -/

/-- A ring of four with full caches, each beginning elsewhere. -/
def quartet : Recovery (Fin 4) where
  node a := {
    connection := { prev := a + 1, next := a - 1 }
    amICoordinator := false
    ringCache := ([0, 1, 2, 3].rotate a.val).map fun b : Fin 4 => SocketAddr.toString b }
  task _ := .idle

/-- The neighbours 1 and 2 have crashed. -/
def survivors (a : Fin 4) : Bool := a ≠ 1 ∧ a ≠ 2

/-- Node 0 skips both crashed nodes while node 3 recovers too. -/
theorem ring_recovered_quartet :
    ∃ c : Recovery (Fin 4), ∃ tr, Run (Recovery.step [0, 1, 2, 3] survivors) (fun _ _ => True)
      quartet (c :: tr) ∧ WellFormed c.node [0, 3] := by
  have hcheck : Run.checkStep (Recovery.step [0, 1, 2, 3] survivors) (fun _ _ => true) quartet
      [.start 0, .tryNext 0, .start 3, .tryNext 0, .tryNext 3, .tryNext 0, .finish 3] (.finish 0)
      (fun c s tr => decide (HasRun (c :: s :: tr) 0)) = true := by
    decide +kernel
  obtain ⟨c, s, tr, hrun, -, hp⟩ :=
    Run.exists_of_checkStep (C := fun _ _ => True) (fun _ _ _ => trivial) hcheck
  have hring : WellFormed quartet.node [0, 1, 2, 3] :=
    ⟨CycleOn.iff_isChain.2 ⟨by decide, by decide⟩, by decide⟩
  refine ⟨c, s :: tr, hrun,
    ring_recovered hring ?_ (fun _ => rfl) ⟨0, by decide, by decide⟩ hrun ?_⟩
  · exact fun a _ => ⟨_, ⟨a.val, rfl⟩, rfl⟩
  · intro a _ halive hdead
    have ha : a = 0 := by revert a; decide
    exact ha ▸ of_decide_eq_true hp

end Recovery
end Ring
end DistributedPrograms
