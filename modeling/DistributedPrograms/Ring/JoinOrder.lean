import DistributedPrograms.Lib.Run
import DistributedPrograms.Ring.Join
import Mathlib.Data.List.Chain

/-!
# The joins of one node in some order

`join_impl` reads the `prev` of its node, which it will answer with, and `join_impl_no_rollback`
exchanges it, which gives the node that `set_next` is sent to.  The exchanges of one node always
form a chain: each finds the joining node of the one before (`exists_exchanges`).  The answers form
the same chain if and only if no exchange of another join falls between the two readings of a join
(`joins_in_order`).  `join_lock` is meant to see to that, but its guard is dropped at once.

`InOrder n p tr` is the statement about a history: the joins at `n` can be put in an order such that
each was answered with the one before it, or with `p` if it is the first, its `set_next` was sent to
that one, and `prev` is the last of them.  It says nothing about the order in which they were
called.

* `Sent` and `Answered` are read off the history, and `Recorded` keeps the record of one join while
  its task moves on.  A join is exchanged once, and answered with what it read (`swapped_unique`).
* `Exchanges` is the chain, and it grows with every exchange; no other step moves the `prev` of a
  member (`prev_step`).
* Under the condition what a join read is what it exchanged (`eq_of_unmoved`), so the two chains are
  one.  The other direction needs no chain: in any such order each join is answered with the node
  that its `set_next` was sent to.
-/

set_option autoImplicit false

namespace DistributedPrograms
namespace Ring

open SocketAddr Tasks

variable {A : Type}

/-- The target of a join, and where its `set_next` is on its way to. -/
def JoinTask.sent : JoinTask A → Option (A × A)
  | .swapped target _ dest => some (target, dest)
  | _ => none

/-- The target of a join, and what its answer names. -/
def JoinTask.reply : JoinTask A → Option (A × A)
  | .linked target oldPrev => some (target, oldPrev)
  | _ => none

/-- What a task can be after it was `t`, from the exchange on. -/
def JoinTask.After : JoinTask A → JoinTask A → Prop
  | .swapped target oldPrev dest, t =>
    t = .swapped target oldPrev dest ∨ t = .linked target oldPrev ∨ t = .returned
  | .linked target oldPrev, t => t = .linked target oldPrev ∨ t = .returned
  | .returned, t => t = .returned
  | _, _ => True

namespace Joins

/-- `a` has called `join` on `n`. -/
def Requested (n : A) (tr : List (Joins A)) (a : A) : Prop := ∃ c ∈ tr, c.task a = .requested n

/-- For the join of `a` at `n`, `set_next` was sent to `dest`. -/
def Sent (n : A) (tr : List (Joins A)) (a dest : A) : Prop :=
  ∃ c ∈ tr, (c.task a).sent = some (n, dest)

/-- The join of `a` at `n` was answered with `oldPrev`. -/
def Answered (n : A) (tr : List (Joins A)) (a oldPrev : A) : Prop :=
  ∃ c ∈ tr, (c.task a).reply = some (n, oldPrev)

/-- All joins at `n` have been handled, whether or not their answers have arrived. -/
def Handled (n : A) (tr : List (Joins A)) : Prop :=
  ∀ a, Requested n tr a → ∀ c ∈ tr.head?, c.task a = .returned ∨ ∃ o, c.task a = .linked n o

/-- The joins at `n`, whose `prev` was `p`, acted in some order: each was answered with the one
before it, to which its `set_next` was sent, and `prev` is the last one. -/
def InOrder (n p : A) (tr : List (Joins A)) : Prop :=
  ∃ l : List A, l.Nodup ∧ (∀ a, a ∈ l ↔ Requested n tr a) ∧
    (p :: l).IsChain (fun b a => Answered n tr a b ∧ Sent n tr a b) ∧
    ∀ c ∈ tr.head?, (p :: l).getLast? = some (c.node n).connection.prev

variable [DecidableEq A] [SocketAddr A] {ring : List A} {n a : A} {c c' c₀ : Joins A}
  {tr : List (Joins A)} {act : JoinAction A} {t : JoinTask A}

/-- The condition on a step: a join at `n` exchanges `prev` only while it is what the join read.
This is what the lock of `join_impl` would ensure, if it were held. -/
def Unmoved (n : A) : List (Joins A) → JoinAction A → Prop
  | c :: _, .swap joiner =>
    match c.task joiner with
    | .read target oldPrev => target = n → (c.node n).connection.prev = oldPrev
    | _ => True
  | _, _ => True

/-! ## The course of one join

It is exchanged once and answered once, and only after it was requested. -/

theorem after_step (h : c.step ring act = some c') (ha : t.After (c.task a)) :
    t.After (c'.task a) := by
  rcases task_step h a with heq | ⟨_, hold, hnew, -⟩ | ⟨_, hold, hnew⟩ | ⟨_, _, -, hold, hnew⟩ |
    ⟨_, _, _, hold, hnew⟩ | ⟨_, _, hold, hnew⟩
  · rwa [heq]
  all_goals
    rw [hold] at ha
    rw [hnew]
    cases t <;> simp_all [JoinTask.After]

omit [DecidableEq A] [SocketAddr A] in
theorem after_refl (t : JoinTask A) : t.After t := by
  cases t <;> simp [JoinTask.After]

/-- The last moment of a run comes after all others. -/
theorem after_head (h : Run (Joins.step ring) (fun _ _ => True) c₀ (c' :: tr)) (hc : c ∈ c' :: tr)
    (a : A) : (c.task a).After (c'.task a) := by
  obtain ⟨later, rest, hsplit⟩ := List.append_of_mem hc
  rw [hsplit] at h
  refine Run.forall_later (P := fun c' => (c.task a).After (c'.task a))
    (fun _ _ _ _ _ _ hs hstep => after_step hstep hs) h (after_refl _) c' ?_
  cases later with
  | nil =>
    obtain ⟨rfl, -⟩ := List.cons.inj hsplit
    exact List.mem_cons_self
  | cons d later =>
    obtain ⟨rfl, -⟩ := List.cons.inj hsplit
    exact List.mem_cons_self

/-- Of two moments of a run, one comes after the other. -/
theorem after_or (h : Run (Joins.step ring) (fun _ _ => True) c₀ tr) (hc : c ∈ tr) (hc' : c' ∈ tr)
    (a : A) : (c.task a).After (c'.task a) ∨ (c'.task a).After (c.task a) := by
  rcases Run.exists_suffix_or hc hc' with ⟨tr₀, hsuf, hmem⟩ | ⟨tr₀, hsuf, hmem⟩
  · exact Or.inr (after_head (h.of_suffix hsuf (List.cons_ne_nil _ _)) hmem a)
  · exact Or.inl (after_head (h.of_suffix hsuf (List.cons_ne_nil _ _)) hmem a)

/-- **A join is exchanged once**, and answered with what it read. -/
theorem swapped_unique (h : Run (Joins.step ring) (fun _ _ => True) c₀ tr) {b o d b' o' d' : A}
    (hc : c ∈ tr) (hsw : c.task a = .swapped b o d) (hc' : c' ∈ tr)
    (hsw' : c'.task a = .swapped b' o' d') : b = b' ∧ o = o' ∧ d = d' := by
  have hafter := after_or h hc hc' a
  rw [hsw, hsw'] at hafter
  rcases hafter with hafter | hafter <;> simp_all [JoinTask.After]

theorem linked_of_swapped (h : Run (Joins.step ring) (fun _ _ => True) c₀ tr) {b o d b' o' : A}
    (hc : c ∈ tr) (hsw : c.task a = .swapped b o d) (hc' : c' ∈ tr)
    (hlinked : c'.task a = .linked b' o') : b = b' ∧ o = o' := by
  have hafter := after_or h hc hc' a
  rw [hsw, hlinked] at hafter
  rcases hafter with hafter | hafter <;> simp_all [JoinTask.After]

/-- In the history, the task of `a` was `t`. -/
def Was (tr : List (Joins A)) (a : A) (t : JoinTask A) : Prop := ∃ c ∈ tr, c.task a = t

omit [DecidableEq A] [SocketAddr A] in
@[simp] theorem was_cons {t : JoinTask A} : Was (c :: tr) a t ↔ c.task a = t ∨ Was tr a t := by
  simp [Was]

omit [DecidableEq A] [SocketAddr A] in
theorem sent_iff {dest : A} : Sent n tr a dest ↔ ∃ o, Was tr a (.swapped n o dest) := by
  constructor
  · rintro ⟨c, hc, hsent⟩
    cases hj : c.task a <;> simp [hj, JoinTask.sent] at hsent
    obtain ⟨rfl, rfl⟩ := hsent
    exact ⟨_, c, hc, hj⟩
  · rintro ⟨o, c, hc, hj⟩
    exact ⟨c, hc, by rw [hj, JoinTask.sent]⟩

omit [DecidableEq A] [SocketAddr A] in
theorem answered_iff {o : A} : Answered n tr a o ↔ Was tr a (.linked n o) := by
  constructor
  · rintro ⟨c, hc, hreply⟩
    cases hj : c.task a <;> simp [hj, JoinTask.reply] at hreply
    obtain ⟨rfl, rfl⟩ := hreply
    exact ⟨c, hc, hj⟩
  · rintro ⟨c, hc, hj⟩
    exact ⟨c, hc, by rw [hj, JoinTask.reply]⟩

/-- What the history of a run tells about the join of `a`: the points that it has come past, in
their order. -/
structure Recorded (n a : A) (c : Joins A) (tr : List (Joins A)) : Prop where
  read : ∀ o, c.task a = .read n o → Was tr a (.requested n)
  swapped : ∀ o d, Was tr a (.swapped n o d) → Was tr a (.requested n)
  linked : ∀ o, Was tr a (.linked n o) → ∃ d, Was tr a (.swapped n o d)
  requested : Was tr a (.requested n) → c.task a = .requested n ∨ (∃ o, c.task a = .read n o) ∨
    ∃ o d, Was tr a (.swapped n o d)
  answered : ∀ o d, Was tr a (.swapped n o d) → c.task a = .swapped n o d ∨ Was tr a (.linked n o)

omit [DecidableEq A] [SocketAddr A] in
theorem recorded_init (hsettled : c.Settled) (n a : A) : Recorded n a c [c] := by
  constructor <;> rcases hsettled a with ha | ha <;> simp [Was, ha]

/-- The record of a join is kept up to date. -/
theorem recorded_step (hs : c.step ring act = some c') (h : Recorded n a c tr)
    (hc : c ∈ tr) : Recorded n a c' (c' :: tr) := by
  have hwas : Was tr a (c.task a) := ⟨c, hc, rfl⟩
  obtain ⟨hread, hswapped, hlinked, hrequested, hanswered⟩ := h
  constructor <;> simp only [was_cons] <;>
    rcases task_step hs a with heq | ⟨_, hold, hnew, -⟩ | ⟨_, hold, hnew⟩ |
      ⟨_, _, -, hold, hnew⟩ | ⟨_, _, _, hold, hnew⟩ | ⟨_, _, hold, hnew⟩ <;>
    grind

theorem recorded_run (hsettled : c₀.Settled)
    (h : Run (Joins.step ring) (fun _ _ => True) c₀ (c :: tr)) (n a : A) :
    Recorded n a c (c :: tr) :=
  Run.head_induction (P := fun c tr => Recorded n a c (c :: tr)) (recorded_init hsettled n a)
    (fun _ _ _ _ _ _ hs ih => recorded_step hs ih List.mem_cons_self) h

/-! ## The chain of the exchanges

Each join that is exchanged comes in front of the one before it.  What it has read, and is answered,
is this one only if nothing came between. -/

/-- **Only an exchange moves the `prev` of a member.** -/
theorem prev_step (hs : c.step ring act = some c') (hn : Fixed ring n c) :
    (∃ j o, c.task j = .read n o ∧
        c'.task j = .swapped n o (c.node n).connection.prev ∧
        (∀ b, b ≠ j → c'.task b = c.task b) ∧ (c'.node n).connection.prev = j) ∨
      (∀ j o d, c'.task j = .swapped n o d → c.task j = .swapped n o d) ∧
        (c'.node n).connection.prev = (c.node n).connection.prev := by
  have hother : ∀ {s : Joins A} {j : A} {t : JoinTask A},
      (∀ o d, t ≠ .swapped n o d) → s.task = c.task →
      ∀ b o d, (s.setTask j t).task b = .swapped n o d → c.task b = .swapped n o d := by
    intro s j t ht hs b o d hb
    by_cases hbj : b = j
    · subst hbj
      rw [setTask_task_self] at hb
      exact absurd hb (ht o d)
    · rwa [setTask_task_of_ne _ _ hbj, hs] at hb
  rcases step_cases hs with ⟨j, t, rfl, hj, -, -, rfl⟩ | ⟨j, t, rfl, hj, rfl⟩ |
    ⟨j, t, o, rfl, hj, rfl⟩ | ⟨j, t, o, d, rfl, hj, rfl⟩ | ⟨j, t, o, rfl, hj, rfl⟩
  · exact Or.inr ⟨hother (by simp) rfl, rfl⟩
  · exact Or.inr ⟨hother (by simp) rfl, rfl⟩
  · by_cases ht : t = n
    · subst ht
      refine Or.inl ⟨j, o, hj, setTask_task_self .., fun b hb => setTask_task_of_ne _ _ hb, ?_⟩
      rw [setTask_node, setNode_node_self]
    · refine Or.inr ⟨hother (by simp [ht]) rfl, ?_⟩
      rw [setTask_node, setNode_node_of_ne _ _ (Ne.symm ht)]
  · refine Or.inr ⟨hother (by simp) rfl, ?_⟩
    rw [setTask_node]
    by_cases hd : n = d
    · rw [hd, setNode_node_self]
    · rw [setNode_node_of_ne _ _ hd]
  · have hjn : n ≠ j := by
      rintro rfl
      rcases hn with hn | ⟨-, hn⟩ <;> rw [hn] at hj <;> contradiction
    refine Or.inr ⟨hother (by simp) rfl, ?_⟩
    rw [setTask_node, setNode_node_of_ne _ _ hjn]

/-- The nodes of `l` have exchanged the `prev` of `n`, which was `p`, one after the other.  The
chain says that each was sent to the one before it. -/
structure Exchanges (n p : A) (c : Joins A) (tr : List (Joins A)) (l : List A) : Prop where
  nodup : l.Nodup
  mem : ∀ a, a ∈ l ↔ ∃ o d, Was tr a (.swapped n o d)
  chain : (p :: l).IsChain fun b a => ∃ o, Was tr a (.swapped n o b)
  last : (p :: l).getLast? = some (c.node n).connection.prev

/-- **The exchanges of a node form a chain.** -/
theorem exists_exchanges (hn : Fixed ring n c₀) (hsettled : c₀.Settled)
    (h : Run (Joins.step ring) (fun _ _ => True) c₀ (c :: tr)) :
    ∃ l, Exchanges n (c₀.node n).connection.prev c (c :: tr) l := by
  refine Run.head_induction
    (P := fun c tr => ∃ l, Exchanges n (c₀.node n).connection.prev c (c :: tr) l) ?_ ?_ h
  · refine ⟨[], List.nodup_nil, fun a => ?_, List.isChain_singleton _, rfl⟩
    rcases hsettled a with ha | ha <;> simp [Was, ha]
  · rintro c tr act c' hrun - hs ⟨l, hnodup, hmem, hchain, hlast⟩
    have hfixed : Fixed ring n c :=
      Run.forall_mem (I := Fixed ring n) hn (fun _ _ _ _ _ _ hc hs => fixed_step hs hc) hrun c
        List.mem_cons_self
    have hold : (_ :: l).IsChain fun b a => ∃ o, Was (c' :: c :: tr) a (.swapped n o b) :=
      hchain.imp fun b a ⟨o, hwas⟩ => ⟨o, was_cons.2 (Or.inr hwas)⟩
    rcases prev_step hs hfixed with ⟨j, o, hj, hj', hother, hprev⟩ | ⟨hsame, hprev⟩
    · have hnew : j ∉ l := fun hjl => by
        obtain ⟨o', d', s, hmems, hsw⟩ := (hmem j).1 hjl
        have hafter := after_head hrun hmems j
        rw [hsw, hj] at hafter
        simp [JoinTask.After] at hafter
      have hswapped : Was (c' :: c :: tr) j (.swapped n o (c.node n).connection.prev) :=
        was_cons.2 (Or.inl hj')
      refine ⟨l ++ [j], ?_, fun a => ?_, ?_, ?_⟩
      · rw [List.nodup_append]
        exact ⟨hnodup, List.nodup_singleton j, fun a ha b hb hab =>
          hnew (List.mem_singleton.1 hb ▸ hab ▸ ha)⟩
      · rw [List.mem_append, List.mem_singleton]
        constructor
        · rintro (ha | rfl)
          · obtain ⟨o', d', hwas⟩ := (hmem a).1 ha
            exact ⟨o', d', was_cons.2 (Or.inr hwas)⟩
          · exact ⟨o, _, hswapped⟩
        · rintro ⟨o', d', hwas⟩
          by_cases haj : a = j
          · exact Or.inr haj
          · refine Or.inl ((hmem a).2 ⟨o', d', ?_⟩)
            rcases was_cons.1 hwas with hnow | hwas
            · exact ⟨c, List.mem_cons_self, by rw [← hother a haj, hnow]⟩
            · exact hwas
      · refine hold.append (List.isChain_singleton j) fun b hb a ha => ?_
        rw [hlast] at hb
        obtain rfl := Option.some.inj hb
        obtain rfl := Option.some.inj ha
        exact ⟨o, hswapped⟩
      · rw [← List.cons_append, List.getLast?_append, hprev]
        rfl
    · refine ⟨l, hnodup, fun a => ?_, hold, by rw [hprev, hlast]⟩
      have hwas : ∀ o d, Was (c' :: c :: tr) a (.swapped n o d) ↔
          Was (c :: tr) a (.swapped n o d) := fun o d =>
        was_cons.trans (or_iff_right_of_imp fun hnow => ⟨c, List.mem_cons_self, hsame a o d hnow⟩)
      simp only [hmem a, hwas]

/-! ## The answers

Whether the two chains are the same is decided join by join. -/

/-- Within the condition, what a join read is what it exchanged. -/
theorem eq_of_unmoved (hsettled : c₀.Settled) (h : Run (Joins.step ring) (Unmoved n) c₀ tr) :
    ∀ a o d, Was tr a (.swapped n o d) → o = d := by
  induction h with
  | init =>
    intro a o d hwas
    rcases hsettled a with ha | ha <;> simp [Was, ha] at hwas
  | @step c c' tr act _ hc hs ih =>
    intro a o d hwas
    rcases was_cons.1 hwas with hnow | hwas
    · rcases task_step hs a with heq | ⟨_, -, hnew, -⟩ | ⟨_, -, hnew⟩ | ⟨_, _, rfl, hold, hnew⟩ |
        ⟨_, _, _, -, hnew⟩ | ⟨_, _, -, hnew⟩
      · exact ih a o d ⟨c, List.mem_cons_self, by rw [← heq, hnow]⟩
      all_goals
        rw [hnow] at hnew
        obtain ⟨⟩ := hnew
      rw [Unmoved, hold] at hc
      exact (hc rfl).symm
    · exact ih a o d hwas

theorem swap_task {target o : A} (hs : c.step ring (.swap a) = some c')
    (ha : c.task a = .read target o) :
    c'.task a = .swapped target o (c.node target).connection.prev := by
  rcases step_cases hs with ⟨j, t, hact, -⟩ | ⟨j, t, hact, -⟩ | ⟨j, t, o, hact, hj, rfl⟩ |
    ⟨j, t, o, d, hact, -⟩ | ⟨j, t, o, hact, -⟩
  all_goals obtain ⟨⟩ := hact
  obtain ⟨⟩ := ha.symm.trans hj
  exact setTask_task_self ..

omit [DecidableEq A] [SocketAddr A] in
/-- In a chain every member has one before it. -/
theorem exists_rel_of_isChain {R : A → A → Prop} {p : A} {l : List A} (h : (p :: l).IsChain R)
    (ha : a ∈ l) : ∃ b, R b a := by
  obtain ⟨l₁, l₂, rfl⟩ := List.append_of_mem ha
  rw [← List.cons_append, List.isChain_append] at h
  obtain ⟨-, -, hrel⟩ := h
  exact ⟨_, hrel _ (List.getLast?_cons ..) a rfl⟩

/-- **The joins of a node act in some order** if and only if each exchanges the `prev` that it has
read.  The order is then that of the exchanges. -/
theorem joins_in_order (hn : c₀.IsMember ring n) (hsettled : c₀.Settled)
    (h : Run (Joins.step ring) (fun _ _ => True) c₀ tr) (hhandled : Handled n tr) :
    InOrder n (c₀.node n).connection.prev tr ↔ Run (Joins.step ring) (Unmoved n) c₀ tr := by
  obtain ⟨c, tr, rfl⟩ := List.exists_cons_of_ne_nil h.ne_nil
  have hrecorded : ∀ a, Recorded n a c (c :: tr) := recorded_run hsettled h n
  have hdone : ∀ a, Was (c :: tr) a (.requested n) →
      c.task a = .returned ∨ ∃ o, c.task a = .linked n o := fun a ha => hhandled a ha c rfl
  constructor
  · rintro ⟨l, -, hmem, hchain, -⟩
    refine h.of_forall_step fun s' s rest act hsuf hs => ?_
    cases act with
    | swap j =>
      rw [Unmoved]
      split
      · next target o hj =>
        rintro rfl
        have hj' := swap_task hs hj
        have hs' : s' ∈ c :: tr := hsuf.subset List.mem_cons_self
        obtain ⟨b, hanswered, hsent⟩ := exists_rel_of_isChain hchain
          ((hmem j).2 ((hrecorded j).swapped _ _ ⟨s', hs', hj'⟩))
        obtain ⟨o', u, hu, hsw⟩ := sent_iff.1 hsent
        obtain ⟨v, hv, hlinked⟩ := answered_iff.1 hanswered
        obtain ⟨-, -, hdest⟩ := swapped_unique h hs' hj' hu hsw
        obtain ⟨-, hread⟩ := linked_of_swapped h hs' hj' hv hlinked
        rw [hdest, hread]
      · trivial
    | _ => trivial
  · intro hunmoved
    have hfixed : Fixed ring n c₀ := by
      rcases hsettled n with hidle | hreturned
      · exact hn.symm.imp_right fun hmem => ⟨hmem, hidle⟩
      · exact Or.inl hreturned
    obtain ⟨l, hl⟩ := exists_exchanges hfixed hsettled h
    refine ⟨l, hl.nodup, fun a => (hl.mem a).trans ⟨?_, fun ha => ?_⟩, ?_, ?_⟩
    · rintro ⟨o, d, hwas⟩
      exact (hrecorded a).swapped o d hwas
    · rcases (hrecorded a).requested ha with hnow | ⟨o, hnow⟩ | hwas
      · rcases hdone a ha with hend | ⟨o, hend⟩ <;> rw [hend] at hnow <;> contradiction
      · rcases hdone a ha with hend | ⟨o, hend⟩ <;> rw [hend] at hnow <;> contradiction
      · exact hwas
    · refine hl.chain.imp fun b a hexchange => ?_
      obtain ⟨o, hwas⟩ := hexchange
      refine ⟨answered_iff.2 ?_, sent_iff.2 ⟨o, hwas⟩⟩
      obtain rfl := eq_of_unmoved hsettled hunmoved a o b hwas
      rcases (hrecorded a).answered o o hwas with hnow | hlinked
      · rcases hdone a ((hrecorded a).swapped o o hwas) with hend | ⟨_, hend⟩ <;>
          rw [hend] at hnow <;> contradiction
      · exact hlinked
    · intro c' hc'
      obtain rfl := Option.some.inj hc'
      exact hl.last

/-! ## A run -/

/-- One member, which nodes 1 and 2 are to join. -/
def alone : Joins (Fin 4) where
  node := Node.new
  task _ := .idle

instance (n : A) (tr : List (Joins A)) (a : A) : Decidable (Requested n tr a) :=
  inferInstanceAs (Decidable (∃ c ∈ tr, c.task a = .requested n))

instance (n : A) (tr : List (Joins A)) (a dest : A) : Decidable (Sent n tr a dest) :=
  inferInstanceAs (Decidable (∃ c ∈ tr, (c.task a).sent = some (n, dest)))

instance (n : A) (tr : List (Joins A)) (a o : A) : Decidable (Answered n tr a o) :=
  inferInstanceAs (Decidable (∃ c ∈ tr, (c.task a).reply = some (n, o)))

instance [Fintype A] (n : A) (tr : List (Joins A)) : Decidable (Handled n tr) :=
  have (a : A) (c : Joins A) : Decidable (c.task a = .returned ∨ ∃ o, c.task a = .linked n o) :=
    inferInstance
  inferInstanceAs (Decidable (∀ a, Requested n tr a → ∀ c ∈ tr.head?, _))

instance (n : A) (tr : List (Joins A)) (act : JoinAction A) : Decidable (Unmoved n tr act) := by
  rcases tr with _ | ⟨c, tr⟩
  · rcases act <;> dsimp only [Unmoved] <;> infer_instance
  · rcases act <;> dsimp only [Unmoved]
    case swap joiner =>
      generalize c.task joiner = t
      rcases t <;> dsimp only <;> infer_instance
    all_goals infer_instance

/-- Two joins at node 0 that overlap, but not between the two readings of one. -/
theorem joins_in_order_pair :
    ∃ tr, Run (Joins.step [0]) (fun _ _ => True) alone tr ∧ Requested 0 tr 1 ∧ Requested 0 tr 2 ∧
      InOrder 0 0 tr := by
  have hcheck : Run.check (Joins.step [0]) (fun tr act => decide (Unmoved 0 tr act)) alone
      [.join 1 0, .join 2 0, .read 1, .swap 1, .read 2, .swap 2, .setNext 2, .setNext 1]
      (fun tr => decide (Handled 0 tr ∧ Requested 0 tr 1 ∧ Requested 0 tr 2)) = true := by
    decide +kernel
  obtain ⟨tr, hrun, hp⟩ :=
    Run.exists_of_check (C := Unmoved 0) (fun _ _ h => of_decide_eq_true h) hcheck
  obtain ⟨hhandled, h1, h2⟩ := of_decide_eq_true hp
  have hall := hrun.mono (D := fun _ _ => True) fun _ _ _ => trivial
  exact ⟨tr, hall, h1, h2, (joins_in_order (Or.inl List.mem_cons_self)
    (fun _ => Or.inl rfl) hall hhandled).2 hrun⟩

/-- **Two joins are given the same place**: both read the `prev` of node 0 before either exchanges
it, so both are answered with it. -/
theorem not_joins_in_order :
    ∃ tr, Run (Joins.step [0]) (fun _ _ => True) alone tr ∧ Handled 0 tr ∧ ¬InOrder 0 0 tr := by
  have hcheck : Run.check (Joins.step [0]) (fun _ _ => true) alone
      [.join 1 0, .join 2 0, .read 1, .read 2, .swap 1, .setNext 1, .swap 2, .setNext 2]
      (fun tr => decide (Handled 0 tr ∧ Requested 0 tr 2 ∧
        ∀ b, ¬(Answered 0 tr 2 b ∧ Sent 0 tr 2 b))) = true := by
    decide +kernel
  obtain ⟨tr, hrun, hp⟩ :=
    Run.exists_of_check (C := fun _ _ => True) (fun _ _ _ => trivial) hcheck
  obtain ⟨hhandled, h2, hnone⟩ := of_decide_eq_true hp
  refine ⟨tr, hrun, hhandled, fun ⟨l, _, hmem, hchain, _⟩ => ?_⟩
  obtain ⟨b, hb⟩ := exists_rel_of_isChain hchain ((hmem 2).2 h2)
  exact hnone b hb

end Joins

end Ring
end DistributedPrograms
