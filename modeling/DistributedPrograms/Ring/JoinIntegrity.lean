import DistributedPrograms.Lib.Run
import DistributedPrograms.Ring.Join

/-!
# The ring survives joins that do not cross

While a join is in progress the ring exists only virtually: a joining node whose target has already
exchanged its `prev` stands in the ring with the connection that the answer will bring
(`Joins.connection`), and a `next` may lag behind a `set_next` that is on its way.  `RingInv` says
that the virtual ring is one cycle.

Two things can break it, because `join_lock` is not held.  The answer of a join is what `join_impl`
read before it exchanged `prev`, and is stale if another join came between; and the joining node
overwrites its `next` when it handles the answer, losing a `set_next` that came first.  `Uncrossed`
excludes both, with a condition on the state before the step.

* `TaskInv` is the half of the invariant that is about the joins in progress: the nodes of the
  initial ring have none, targets are members, and an exchange has found what its join read.
* `RingInv` is the other half.  Three of the steps change the virtual ring or its `next`s: the
  exchange inserts the joining node (`RingInv.insert`), a handled `set_next` repairs the `next` that
  lagged behind (`RingInv.link`), and the answer makes real what was promised (`RingInv.respond`).
* Where no join is in progress the virtual ring is the real one (`RingInv.wellFormed`), and so
  `joins_intact`: from any well-formed ring, any joins in any order leave one well-formed ring of
  all old and new members, as long as they do not cross.
-/

set_option autoImplicit false

namespace DistributedPrograms
namespace Ring

open SocketAddr Tasks

variable {A : Type}

/-- The connection that is on its way to a joining node. -/
def JoinTask.answer : JoinTask A → Option (Connection A)
  | .swapped target oldPrev _ => some { prev := oldPrev, next := target }
  | .linked target oldPrev => some { prev := oldPrev, next := target }
  | _ => none

/-- A `set_next` of this join is on its way. -/
def JoinTask.Swapped (t : JoinTask A) : Prop :=
  ∃ target oldPrev dest, t = .swapped target oldPrev dest

namespace Joins

variable [DecidableEq A] [SocketAddr A] {ring : List A} {c c' : Joins A} {a b : A}

/-- The connection of a node, where a joining node already counts with the one it will get.  With
these connections the ring is whole at every moment. -/
def connection (c : Joins A) (a : A) : Connection A :=
  (c.task a).answer.getD (c.node a).connection

/-- The nodes of the virtual ring: the members, and who has been entered as a `prev` but has no
answer yet. -/
def Entered (ring : List A) (c : Joins A) (a : A) : Prop :=
  c.IsMember ring a ∨ (c.task a).answer.isSome

/-- The condition on a step: a target exchanges its `prev` only while it is what its join read,
and `set_next` reaches no node that still waits for the answer of its own join. -/
def Uncrossed (ring : List A) : List (Joins A) → JoinAction A → Prop
  | c :: _, .swap joiner =>
    match c.task joiner with
    | .read target oldPrev => (c.node target).connection.prev = oldPrev
    | _ => True
  | c :: _, .setNext joiner =>
    match c.task joiner with
    | .swapped _ _ dest => c.IsMember ring dest
    | _ => True
  | _, _ => True

instance (ring : List A) (tr : List (Joins A)) (a : JoinAction A) :
    Decidable (Uncrossed ring tr a) := by
  unfold Uncrossed
  split
  · split <;> infer_instance
  · split <;> infer_instance
  · infer_instance

/-- Once all joins have returned, all old and new members form one well-formed ring.  While some are
in progress nothing is said, because a `next` may lag behind. -/
def JoinsIntact (ring : List A) (tr : List (Joins A)) : Prop :=
  ∀ c ∈ tr, c.Settled → ∃ l, (∀ a, a ∈ l ↔ c.IsMember ring a) ∧ WellFormed c.node l

/-! ## Tasks

What the tasks say of each other, whatever the pointers are. -/

/-- What holds of the joins in progress. -/
structure TaskInv (ring : List A) (c : Joins A) : Prop where
  ring_idle : ∀ a ∈ ring, c.task a = .idle
  target_member : ∀ a target, c.task a = .requested target ∨ (∃ o, c.task a = .read target o) →
    c.IsMember ring target
  dest_eq : ∀ a target oldPrev dest, c.task a = .swapped target oldPrev dest → dest = oldPrev

omit [SocketAddr A] [DecidableEq A] in
/-- A member is not waiting for an answer. -/
theorem TaskInv.answer_eq_none (h : TaskInv ring c) (ha : c.IsMember ring a) :
    (c.task a).answer = none := by
  rcases ha with ha | ha
  · rw [h.ring_idle a ha]
    rfl
  · rw [ha]
    rfl

omit [SocketAddr A] [DecidableEq A] in
theorem TaskInv.connection_eq (h : TaskInv ring c) (ha : c.IsMember ring a) :
    c.connection a = (c.node a).connection := by
  rw [connection, h.answer_eq_none ha, Option.getD_none]

omit [SocketAddr A] in
theorem TaskInv.setNode (h : TaskInv ring c) (a : A) (n : Node A) : TaskInv ring (c.setNode a n) :=
  ⟨h.ring_idle, h.target_member, h.dest_eq⟩

omit [SocketAddr A] in
/-- The invariant of the tasks when the task of one node, not in the initial ring, moves on. -/
theorem TaskInv.setTask (h : TaskInv ring c) {t : JoinTask A} (hring : a ∉ ring)
    (hret : c.task a ≠ .returned)
    (htarget : ∀ target, t = .requested target ∨ (∃ o, t = .read target o) → c.IsMember ring target)
    (hdest : ∀ target oldPrev dest, t = .swapped target oldPrev dest → dest = oldPrev) :
    TaskInv ring (c.setTask a t) := by
  have htask : ∀ b, b ≠ a → (c.setTask a t).task b = c.task b :=
    fun b hb => setTask_task_of_ne _ t hb
  have hmember : ∀ b, c.IsMember ring b → Joins.IsMember ring (c.setTask a t) b := by
    rintro b (hb | hb)
    · exact Or.inl hb
    · exact Or.inr (by rw [htask b (by rintro rfl; exact hret hb), hb])
  refine ⟨fun b hb => ?_, fun b target hb => ?_, fun b target oldPrev dest hb => ?_⟩
  · rw [htask b (by rintro rfl; exact hring hb), h.ring_idle b hb]
  · by_cases hba : b = a
    · subst hba
      rw [setTask_task_self] at hb
      exact hmember _ (htarget target hb)
    · rw [htask b hba] at hb
      exact hmember _ (h.target_member b target hb)
  · by_cases hba : b = a
    · subst hba
      rw [setTask_task_self] at hb
      exact hdest target oldPrev dest hb
    · rw [htask b hba] at hb
      exact h.dest_eq b target oldPrev dest hb

omit [SocketAddr A] [DecidableEq A] in
theorem TaskInv.not_mem_of_task (h : TaskInv ring c) (ha : c.task a ≠ .idle) : a ∉ ring :=
  fun hmem => ha (h.ring_idle a hmem)

theorem TaskInv.step {act : JoinAction A} {tr : List (Joins A)} (h : TaskInv ring c)
    (hc : Uncrossed ring (c :: tr) act) (hs : c.step ring act = some c') : TaskInv ring c' := by
  rcases step_cases hs with ⟨j, t, rfl, hj, hring, ht, rfl⟩ | ⟨j, t, rfl, hj, rfl⟩ |
    ⟨j, t, o, rfl, hj, rfl⟩ | ⟨j, t, o, d, rfl, hj, rfl⟩ | ⟨j, t, o, rfl, hj, rfl⟩
  · refine h.setTask hring (by simp [hj]) ?_ (by simp)
    rintro target (htarget | ⟨o, htarget⟩)
    · cases htarget
      exact ht
    · cases htarget
  · refine h.setTask (h.not_mem_of_task (by simp [hj])) (by simp [hj]) ?_ (by simp)
    rintro target (htarget | ⟨o, htarget⟩)
    · cases htarget
    · cases htarget
      exact h.target_member j t (Or.inl hj)
  · have hprev : (c.node t).connection.prev = o := by simpa [Uncrossed, hj] using hc
    refine (h.setNode t _).setTask (h.not_mem_of_task (by simp [hj])) (by simp [hj]) (by simp) ?_
    intro target oldPrev dest heq
    cases heq
    exact hprev
  · exact (h.setNode d _).setTask (h.not_mem_of_task (by simp [hj])) (by simp [hj]) (by simp)
      (by simp)
  · exact (h.setNode j _).setTask (h.not_mem_of_task (by simp [hj])) (by simp [hj]) (by simp)
      (by simp)

/-! ## The virtual ring

A step is compared with the one before on the connections that count.  Most steps leave them as they
are. -/

section Fields

variable (c) {n : Node A} {t : JoinTask A}

omit [SocketAddr A]

theorem connection_setTask_self :
    Joins.connection (c.setTask a t) a = t.answer.getD (c.node a).connection := by
  rw [connection, setTask_task_self, setTask_node]

theorem connection_setTask_of_ne (hb : b ≠ a) :
    Joins.connection (c.setTask a t) b = c.connection b := by
  rw [connection, setTask_task_of_ne _ _ hb, setTask_node, connection]

theorem connection_setNode_self (h : (c.task a).answer = none) :
    Joins.connection (c.setNode a n) a = n.connection := by
  rw [connection, setNode_task, h, Option.getD_none, setNode_node_self]

theorem connection_setNode_of_ne (hb : b ≠ a) :
    Joins.connection (c.setNode a n) b = c.connection b := by
  rw [connection, setNode_task, setNode_node_of_ne _ _ hb, connection]

theorem entered_setTask_self :
    Joins.Entered ring (c.setTask a t) a ↔ a ∈ ring ∨ t = .returned ∨ t.answer.isSome := by
  rw [Entered, IsMember, setTask_task_self, or_assoc]

theorem entered_setTask_of_ne (hb : b ≠ a) :
    Joins.Entered ring (c.setTask a t) b ↔ c.Entered ring b := by
  rw [Entered, Entered, IsMember, IsMember, setTask_task_of_ne _ _ hb]

end Fields

/-- The virtual ring is one cycle, and only a `set_next` on its way keeps a `next` from leading
back. -/
structure RingInv (ring : List A) (c : Joins A) : Prop where
  cycle : ∃ l, (∀ a, a ∈ l ↔ c.Entered ring a) ∧ CycleOn (fun a => (c.connection a).prev) l
  next_prev : ∀ a, c.Entered ring a →
    (c.connection (c.connection a).prev).next = a ∨ (c.task a).Swapped

omit [SocketAddr A] [DecidableEq A] in
/-- A step that leaves the virtual ring as it is. -/
theorem RingInv.of_same (h : RingInv ring c) (hconn : ∀ a, c'.connection a = c.connection a)
    (henter : ∀ a, c'.Entered ring a ↔ c.Entered ring a)
    (hswapped : ∀ a, (c.task a).Swapped → (c'.task a).Swapped) : RingInv ring c' := by
  obtain ⟨l, hl, hcycle⟩ := h.cycle
  refine ⟨⟨l, fun a => (hl a).trans (henter a).symm, hcycle.congr fun a _ => by rw [hconn]⟩, ?_⟩
  intro a ha
  rw [hconn, hconn]
  exact (h.next_prev a ((henter a).1 ha)).imp_right (hswapped a)

omit [SocketAddr A] [DecidableEq A] in
/-- **The exchange of `prev` inserts the joining node** `j` behind its target `t`. -/
theorem RingInv.insert (h : RingInv ring c) {j t : A} (ht : c.Entered ring t)
    (hj : ¬c.Entered ring j)
    (hself : c'.connection j = { prev := (c.connection t).prev, next := t })
    (htarget : c'.connection t = { prev := j, next := (c.connection t).next })
    (hother : ∀ b, b ≠ j → b ≠ t → c'.connection b = c.connection b)
    (henter : ∀ b, c'.Entered ring b ↔ b = j ∨ c.Entered ring b)
    (hswapped : ∀ b, b = j ∨ (c.task b).Swapped → (c'.task b).Swapped) : RingInv ring c' := by
  obtain ⟨l, hl, hcycle⟩ := h.cycle
  have hne : ∀ b ∈ l, b ≠ j := by
    rintro b hb rfl
    exact hj ((hl b).1 hb)
  refine ⟨?_, fun b hb => ?_⟩
  · obtain ⟨l', hcycle', hl'⟩ := hcycle.exists_insert ((hl t).2 ht) (mt (hl j).1 hj)
      (g := fun a => (c'.connection a).prev) (by rw [htarget]) (by rw [hself])
      (fun b hb hbt => by rw [hother b (hne b hb) hbt])
    exact ⟨l', fun b => by rw [hl', henter, hl], hcycle'⟩
  · rcases (henter b).1 hb with rfl | hb
    · exact Or.inr (hswapped b (Or.inl rfl))
    · have hbl := (hl b).2 hb
      by_cases hbt : b = t
      · subst hbt
        exact Or.inl (by rw [htarget, hself])
      · refine (h.next_prev b hb).imp (fun hnext => ?_) fun hsw => hswapped b (Or.inr hsw)
        have hp := hne _ (hcycle.mem hbl)
        rw [hother b (hne b hbl) hbt]
        by_cases hpt : (c.connection b).prev = t
        · rw [hpt, htarget]
          rwa [hpt] at hnext
        · rwa [hother _ hp hpt]

omit [SocketAddr A] [DecidableEq A] in
/-- **A handled `set_next` repairs the `next` that lagged behind.** -/
theorem RingInv.link (h : RingInv ring c) {j d : A} (hj : c.Entered ring j)
    (hprev : (c.connection j).prev = d)
    (hdest : c'.connection d = { prev := (c.connection d).prev, next := j })
    (hother : ∀ b, b ≠ d → c'.connection b = c.connection b)
    (henter : ∀ b, c'.Entered ring b ↔ c.Entered ring b)
    (hswapped : ∀ b, b ≠ j → (c.task b).Swapped → (c'.task b).Swapped) : RingInv ring c' := by
  obtain ⟨l, hl, hcycle⟩ := h.cycle
  have hsame : ∀ b, (c'.connection b).prev = (c.connection b).prev := by
    intro b
    by_cases hb : b = d
    · rw [hb, hdest]
    · rw [hother b hb]
  refine ⟨⟨l, fun b => (hl b).trans (henter b).symm, hcycle.congr fun b _ => (hsame b).symm⟩, ?_⟩
  intro b hb
  rw [henter] at hb
  rw [hsame]
  by_cases hbj : b = j
  · subst hbj
    exact Or.inl (by rw [hprev, hdest])
  · have hbd : (c.connection b).prev ≠ d := fun hbd =>
      hbj (hcycle.injOn ((hl b).2 hb) ((hl j).2 hj) (hbd.trans hprev.symm))
    rw [hother _ hbd]
    exact (h.next_prev b hb).imp_right (hswapped b hbj)

omit [SocketAddr A] in
/-- A node whose task moves on without changing what it counts for. -/
theorem RingInv.setTask (h : RingInv ring c) {t : JoinTask A}
    (hconn : t.answer.getD (c.node a).connection = c.connection a)
    (henter : Joins.Entered ring (c.setTask a t) a ↔ c.Entered ring a)
    (hnot : ¬(c.task a).Swapped) :
    RingInv ring (c.setTask a t) := by
  refine h.of_same (fun b => ?_) (fun b => ?_) fun b hb => ?_
  · by_cases hba : b = a
    · rw [hba, connection_setTask_self, hconn]
    · exact connection_setTask_of_ne c hba
  · by_cases hba : b = a
    · rw [hba, henter]
    · exact entered_setTask_of_ne c hba
  · have hba : b ≠ a := by
      rintro rfl
      exact hnot hb
    rwa [setTask_task_of_ne _ _ hba]

omit [SocketAddr A] in
/-- The step that exchanges the `prev` of a target which still has it as its join read it. -/
theorem RingInv.swap (h : RingInv ring c) (ht : TaskInv ring c) {j t : A}
    (hj : c.task j = .read t (c.node t).connection.prev) :
    RingInv ring ((c.setNode t { c.node t with
        connection := { (c.node t).connection with prev := j } }).setTask j
      (.swapped t (c.node t).connection.prev (c.node t).connection.prev)) := by
  have hmember : c.IsMember ring t := ht.target_member j t (Or.inr ⟨_, hj⟩)
  have hnot : ¬c.Entered ring j := by
    have hring : j ∉ ring := ht.not_mem_of_task (by simp [hj])
    simp [Entered, IsMember, hj, hring, JoinTask.answer]
  have htj : t ≠ j := by
    rintro rfl
    exact hnot (Or.inl hmember)
  have hconn := ht.connection_eq hmember
  refine h.insert (Or.inl hmember) hnot ?_ ?_ (fun b hbj hbt => ?_) (fun b => ?_) ?_
  · rw [connection_setTask_self, hconn]
    rfl
  · rw [connection_setTask_of_ne _ htj, connection_setNode_self _ (ht.answer_eq_none hmember),
      hconn]
  · rw [connection_setTask_of_ne _ hbj, connection_setNode_of_ne _ hbt]
  · by_cases hbj : b = j
    · subst hbj
      rw [entered_setTask_self]
      simp [JoinTask.answer]
    · rw [entered_setTask_of_ne _ hbj]
      simp only [hbj, false_or]
      rfl
  · rintro b (rfl | hb)
    · rw [setTask_task_self]
      exact ⟨_, _, _, rfl⟩
    · have hbj : b ≠ j := by
        rintro rfl
        simp [hj, JoinTask.Swapped] at hb
      rwa [setTask_task_of_ne _ _ hbj]

omit [SocketAddr A] in
/-- The step in which a member `d` handles the `set_next` of `j`. -/
theorem RingInv.setNext (h : RingInv ring c) (ht : TaskInv ring c) {j t d : A}
    (hj : c.task j = .swapped t d d) (hmember : c.IsMember ring d) :
    RingInv ring ((c.setNode d { c.node d with
        connection := { (c.node d).connection with next := j } }).setTask j (.linked t d)) := by
  have hdj : d ≠ j := by
    rintro rfl
    exact absurd (ht.answer_eq_none hmember) (by simp [hj, JoinTask.answer])
  have hentered : c.Entered ring j := Or.inr (by simp [hj, JoinTask.answer])
  have hself : c.connection j = { prev := d, next := t } := by
    rw [connection, hj]
    rfl
  refine h.link hentered (by rw [hself]) ?_ (fun b hbd => ?_) (fun b => ?_) fun b hbj hb => ?_
  · rw [connection_setTask_of_ne _ hdj, connection_setNode_self _ (ht.answer_eq_none hmember),
      ht.connection_eq hmember]
  · by_cases hbj : b = j
    · rw [hbj, connection_setTask_self, hself]
      rfl
    · rw [connection_setTask_of_ne _ hbj, connection_setNode_of_ne _ hbd]
  · by_cases hbj : b = j
    · subst hbj
      rw [entered_setTask_self]
      simp [JoinTask.answer, hentered]
    · rw [entered_setTask_of_ne _ hbj]
      rfl
  · rwa [setTask_task_of_ne _ _ hbj]

omit [SocketAddr A] in
/-- The step in which a joining node takes the connection it was promised. -/
theorem RingInv.respond (h : RingInv ring c) {j t o : A} (hj : c.task j = .linked t o) :
    RingInv ring ((c.setNode j { c.node j with
        connection := { prev := o, next := t } }).setTask j .returned) := by
  have hself : c.connection j = { prev := o, next := t } := by
    rw [connection, hj]
    rfl
  refine h.of_same (fun b => ?_) (fun b => ?_) fun b hb => ?_
  · by_cases hbj : b = j
    · rw [hbj, connection_setTask_self, hself, setNode_node_self]
      rfl
    · rw [connection_setTask_of_ne _ hbj, connection_setNode_of_ne _ hbj]
  · by_cases hbj : b = j
    · subst hbj
      rw [entered_setTask_self, Entered, hj]
      simp [JoinTask.answer]
    · rw [entered_setTask_of_ne _ hbj]
      rfl
  · have hbj : b ≠ j := by
      rintro rfl
      simp [hj, JoinTask.Swapped] at hb
    rwa [setTask_task_of_ne _ _ hbj]

/-- **The virtual ring survives every uncrossed step.**  The exchange inserts a node, a handled
`set_next` sets a `next` right, and an answer changes nothing that was not counted already. -/
theorem RingInv.step {act : JoinAction A} {tr : List (Joins A)} (h : RingInv ring c)
    (ht : TaskInv ring c) (hc : Uncrossed ring (c :: tr) act) (hs : c.step ring act = some c') :
    RingInv ring c' := by
  rcases step_cases hs with ⟨j, t, rfl, hj, -, -, rfl⟩ | ⟨j, t, rfl, hj, rfl⟩ |
    ⟨j, t, o, rfl, hj, rfl⟩ | ⟨j, t, o, d, rfl, hj, rfl⟩ | ⟨j, t, o, rfl, hj, rfl⟩
  · refine h.setTask ?_ ?_ (by simp [hj, JoinTask.Swapped])
    · rw [connection, hj]
      rfl
    · rw [entered_setTask_self, Entered, IsMember, hj]
      simp [JoinTask.answer]
  · refine h.setTask ?_ ?_ (by simp [hj, JoinTask.Swapped])
    · rw [connection, hj]
      rfl
    · rw [entered_setTask_self, Entered, IsMember, hj]
      simp [JoinTask.answer]
  · have hprev : (c.node t).connection.prev = o := by simpa [Uncrossed, hj] using hc
    subst hprev
    exact h.swap ht hj
  · have hmember : c.IsMember ring d := by simpa [Uncrossed, hj] using hc
    obtain rfl := ht.dest_eq j t o d hj
    exact h.setNext ht hj hmember
  · exact h.respond hj

/-! ## Runs

The virtual ring along a run, and the ring itself when all have returned. -/

omit [SocketAddr A] [DecidableEq A] in
/-- The ring before any join. -/
theorem inv_init (hring : WellFormed c.node ring) (hidle : ∀ a, c.task a = .idle) :
    TaskInv ring c ∧ RingInv ring c := by
  have hconn : ∀ a, c.connection a = (c.node a).connection := by
    intro a
    rw [connection, hidle]
    rfl
  have henter : ∀ a, c.Entered ring a ↔ a ∈ ring := by
    intro a
    rw [Entered, IsMember, hidle]
    simp [JoinTask.answer]
  refine ⟨⟨fun a _ => hidle a, by simp [hidle], by simp [hidle]⟩, ⟨ring, fun a => (henter a).symm,
    hring.cycle.congr fun a _ => by rw [hconn]⟩, fun a ha => Or.inl ?_⟩
  rw [hconn, hconn]
  exact hring.next_prev a ((henter a).1 ha)

/-- The invariants hold throughout an uncrossed run. -/
theorem inv_run {c₀ : Joins A} {tr : List (Joins A)} (hring : WellFormed c₀.node ring)
    (hidle : ∀ a, c₀.task a = .idle) (h : Run (Joins.step ring) (Uncrossed ring) c₀ tr) :
    ∀ c ∈ tr, TaskInv ring c ∧ RingInv ring c := by
  refine Run.forall_mem (I := fun c => TaskInv ring c ∧ RingInv ring c) (inv_init hring hidle) ?_ h
  intro s tr a s' _ hc hinv hs
  exact ⟨hinv.1.step hc hs, hinv.2.step hinv.1 hc hs⟩

omit [SocketAddr A] [DecidableEq A] in
/-- Where no join is in progress the virtual ring is the real one. -/
theorem RingInv.wellFormed (h : RingInv ring c) (hset : c.Settled) :
    ∃ l, (∀ a, a ∈ l ↔ c.IsMember ring a) ∧ WellFormed c.node l := by
  have hanswer : ∀ a, (c.task a).answer = none := by
    intro a
    rcases hset a with ha | ha <;> rw [ha] <;> rfl
  have hconn : ∀ a, c.connection a = (c.node a).connection := by
    intro a
    rw [connection, hanswer, Option.getD_none]
  have henter : ∀ a, c.Entered ring a ↔ c.IsMember ring a := by
    intro a
    rw [Entered, hanswer]
    simp
  obtain ⟨l, hl, hcycle⟩ := h.cycle
  refine ⟨l, fun a => (hl a).trans (henter a), hcycle.congr fun a _ => by rw [hconn], ?_⟩
  intro a ha
  have hnext := (h.next_prev a ((hl a).1 ha)).resolve_right (by
    rintro ⟨t, o, d, hsw⟩
    rcases hset a with hidle | hret
    · cases hsw.symm.trans hidle
    · cases hsw.symm.trans hret)
  rwa [hconn, hconn] at hnext

/-- **Ring integrity.**  From any well-formed ring, any joins in any order leave one well-formed
ring of all old and new members, as long as they do not cross. -/
theorem joins_intact {c₀ : Joins A} {tr : List (Joins A)} (hring : WellFormed c₀.node ring)
    (hidle : ∀ a, c₀.task a = .idle) (h : Run (Joins.step ring) (Uncrossed ring) c₀ tr) :
    JoinsIntact ring tr :=
  fun c hc hset => (inv_run hring hidle h c hc).2.wellFormed hset

/-! ## Two runs

One in which the joins do not cross, and one in which they do. -/

/-- The ring of the nodes 0 and 1, with 2 and 3 still outside. -/
def pair : Joins (Fin 4) where
  node a := { Node.new a with
    connection := if a = 0 then ⟨1, 1⟩ else if a = 1 then ⟨0, 0⟩ else ⟨a, a⟩ }
  task _ := .idle

theorem wellFormed_pair : WellFormed pair.node [0, 1] :=
  ⟨CycleOn.iff_isChain.2 ⟨by decide, by decide⟩, by decide⟩

/-- Two nodes join at neighbouring members at the same time, without crossing. -/
theorem joins_intact_pair :
    ∃ tr : List (Joins (Fin 4)), JoinsIntact [0, 1] tr ∧
      ∃ c ∈ tr, c.Settled ∧ c.task 2 = .returned ∧ c.task 3 = .returned := by
  have hcheck : Run.check (Joins.step [0, 1]) (fun tr a => decide (Uncrossed [0, 1] tr a)) pair
      [.join 2 0, .join 3 1, .read 2, .read 3, .swap 2, .swap 3, .setNext 3, .setNext 2,
        .respond 2, .respond 3]
      (fun tr => decide (∃ c ∈ tr, c.Settled ∧
        c.task 2 = .returned ∧ c.task 3 = .returned)) = true := by
    decide +kernel
  obtain ⟨tr, hrun, hp⟩ := Run.exists_of_check (fun _ _ hc => of_decide_eq_true hc) hcheck
  exact ⟨tr, joins_intact wellFormed_pair (fun _ => rfl) hrun, of_decide_eq_true hp⟩

/-- **Crossing joins drop a member.**  Two joins at node 0 both read its `prev` before either
exchanges it; both joining nodes are told the same old `prev`, and the first one is on nobody's
way. -/
theorem joins_cross :
    ∃ tr : List (Joins (Fin 4)), Run (Joins.step [0, 1]) (fun _ _ => True) pair tr ∧
      ¬JoinsIntact [0, 1] tr := by
  have hcheck : Run.check (Joins.step [0, 1]) (fun _ _ => true) pair
      [.join 2 0, .join 3 0, .read 2, .read 3, .swap 2, .setNext 2, .respond 2, .swap 3,
        .setNext 3, .respond 3]
      (fun tr => decide (∃ c ∈ tr, c.Settled ∧
        c.IsMember [0, 1] 2 ∧ c.IsMember [0, 1] 3 ∧
        (c.node 2).connection.prev = (c.node 3).connection.prev)) = true := by
    decide +kernel
  obtain ⟨tr, hrun, hp⟩ := Run.exists_of_check (C := fun _ _ => True) (fun _ _ _ => trivial) hcheck
  obtain ⟨c, hc, hset, h2, h3, hprev⟩ := of_decide_eq_true hp
  refine ⟨tr, hrun, fun hintact => ?_⟩
  obtain ⟨l, hl, hwf⟩ := hintact c hc hset
  have heq : (2 : Fin 4) = 3 := hwf.cycle.injOn ((hl 2).2 h2) ((hl 3).2 h3) hprev
  exact absurd heq (by decide)

end Joins

end Ring
end DistributedPrograms
