import DistributedPrograms.Lib.Run
import DistributedPrograms.Ring.Node
import Mathlib.Data.Finset.Card

/-!
# Joining and leaving one after the other

The whole life of a ring without failures, one completed operation after another: a new node joins
at a member, or a member shuts down gracefully.  An operation is the composition of the handlers it
runs through, in the order of its calls, each on the node as the calls before have left it.  So the
degenerate rings need no case of their own: the only member of a ring calls itself, and the two
calls of a leaving node may go to one and the same neighbour.

* `Membership` has the nodes and, beside them, who is a member: whoever has joined and not left.  No
  operation reads this; it is there to say which nodes are to form the ring (`Intact`).
* `join_inserts`: a join puts the new node between its target and the target's old `prev`
  (`Inserted`).
* `leave_bypasses`: a shutdown links the two neighbours of the node past it (`Bypassed`).
* Either keeps the members one ring (`Intact.insert`, `Intact.bypass`), and `ring_intact` says both
  of every moment of a history.
-/

set_option autoImplicit false

namespace DistributedPrograms
namespace Ring

open SocketAddr

/-- The nodes, and which of them are in the ring.  The members are a record of the joins and
shutdowns, which no node has. -/
structure Membership (A : Type) where
  node : A → Node A
  members : Finset A

inductive MemberAction (A : Type) where
  /-- a new node calls `join` on `target` -/
  | join (joiner target : A)
  /-- a member gets `SIGTERM` or `SIGINT` -/
  | leave (a : A)
  deriving DecidableEq, Repr

namespace Membership

variable {A : Type} [DecidableEq A]

/-- A ring of one node that points to itself. -/
def single (a : A) : Membership A where
  node := Node.new
  members := {a}

def setNode (c : Membership A) (a : A) (n : Node A) : Membership A :=
  { c with node := Function.update c.node a n }

def prev (c : Membership A) (a : A) : A := (c.node a).connection.prev
def next (c : Membership A) (a : A) : A := (c.node a).connection.next

theorem setNode_prev (c : Membership A) (a b : A) (n : Node A) :
    (c.setNode a n).prev b = if b = a then n.connection.prev else c.prev b := by
  show (Function.update c.node a n b).connection.prev = _
  rw [Function.update_apply]
  split <;> rfl

theorem setNode_next (c : Membership A) (a b : A) (n : Node A) :
    (c.setNode a n).next b = if b = a then n.connection.next else c.next b := by
  show (Function.update c.node a n b).connection.next = _
  rw [Function.update_apply]
  split <;> rfl

variable [SocketAddr A]

/-- A new node starts and joins at `target`: `join_impl` with its `set_next` to the old `prev`, and
what the new node does with the answer. -/
def join (c : Membership A) (joiner target : A) : Option (Membership A) := do
  let c := c.setNode joiner (Node.new joiner)
  let oldPrev := (c.node target).joinImplRead
  let (dest, n) ← (c.node target).joinImplSwap (toString joiner)
  let c := c.setNode target n
  let m ← (c.node dest).setNext (toString joiner)
  let c := c.setNode dest m
  let j ← (c.node joiner).handleJoinResponse target (toString oldPrev)
  return { c.setNode joiner j with members := insert joiner c.members }

/-- The graceful shutdown of `a`: `set_prev_wrapper(prev, next)`, then `set_next_wrapper(next,
prev)`.  Where it is alone it would call itself. -/
def leave (c : Membership A) (a : A) : Option (Membership A) := do
  let { prev, next } := (c.node a).connection
  let n ← (c.node next).setPrev (toString prev)
  let c := c.setNode next n
  let m ← (c.node prev).setNext (toString next)
  return { c.setNode prev m with members := c.members.erase a }

/-- One operation: new nodes join at members, and the last member does not leave. -/
def step (c : Membership A) : MemberAction A → Option (Membership A)
  | .join joiner target =>
    if joiner ∉ c.members ∧ target ∈ c.members then c.join joiner target else none
  | .leave a => if a ∈ c.members ∧ 2 ≤ c.members.card then c.leave a else none

/-! ## What an operation does to the connections

The handlers of an operation are composed in the order of its calls, and what comes out is an
equation for every node, also where two of the nodes that are involved are one. -/

/-- `x` stands between `target` and `oldPrev` in `c'`, and nothing else differs from `c`. -/
structure Inserted (c c' : Membership A) (x target oldPrev : A) : Prop where
  members : c'.members = insert x c.members
  prev_target : c'.prev target = x
  prev_new : c'.prev x = oldPrev
  next_new : c'.next x = target
  next_oldPrev : c'.next oldPrev = x
  prev_of_ne : ∀ b ∈ c.members, b ≠ target → c'.prev b = c.prev b
  next_of_ne : ∀ b ∈ c.members, b ≠ oldPrev → c'.next b = c.next b

/-- The neighbours of `a` in `c` are linked past it in `c'`, and nothing else differs from `c`. -/
structure Bypassed (c c' : Membership A) (a : A) : Prop where
  members : c'.members = c.members.erase a
  prev_next : c'.prev (c.next a) = c.prev a
  next_prev : c'.next (c.prev a) = c.next a
  prev_of_ne : ∀ b, b ≠ c.next a → c'.prev b = c.prev b
  next_of_ne : ∀ b, b ≠ c.prev a → c'.next b = c.next b

variable {c c' : Membership A} {joiner target a b : A}

/-- The connections after a join.  The target may be its own `prev`, and is then changed twice. -/
theorem join_eq (hpj : c.prev target ≠ joiner) (htj : target ≠ joiner) :
    ∃ c', c.join joiner target = some c' ∧
      (∀ b, c'.prev b = if b = joiner then c.prev target
        else if b = target then joiner else c.prev b) ∧
      (∀ b, c'.next b = if b = joiner then target
        else if b = c.prev target then joiner else c.next b) ∧
      c'.members = insert joiner c.members := by
  let c₁ := c.setNode joiner (Node.new joiner)
  let c₂ := c₁.setNode target { c₁.node target with
    connection := { (c₁.node target).connection with prev := joiner } }
  let c₃ := c₂.setNode (c.prev target) { c₂.node (c.prev target) with
    connection := { (c₂.node (c.prev target)).connection with next := joiner } }
  let c₄ := c₃.setNode joiner { c₃.node joiner with
    connection := { prev := c.prev target, next := target } }
  have hread : (c₁.node target).connection.prev = c.prev target := by
    show c₁.prev target = c.prev target
    rw [setNode_prev, if_neg htj]
  have hjoin : c.join joiner target = some { c₄ with members := insert joiner c.members } := by
    simp only [join, Node.joinImplRead, Node.joinImplSwap, Node.setNext, Node.handleJoinResponse,
      parse_toString, Option.bind_eq_bind, Option.bind_some, Option.pure_def]
    rw [show ((c.setNode joiner (Node.new joiner)).node target).connection.prev = c.prev target
      from hread]
    rfl
  refine ⟨_, hjoin, fun b => ?_, fun b => ?_, rfl⟩
  · show c₄.prev b = _
    rw [setNode_prev]
    split
    · rfl
    · next hbj =>
      rw [setNode_prev]
      split
      · next hb =>
        -- the old `prev` keeps its own `prev`, unless it is the target itself
        show c₂.prev (c.prev target) = _
        rw [setNode_prev, setNode_prev, if_neg hpj, hb]
      · rw [setNode_prev, setNode_prev, if_neg hbj]
  · show c₄.next b = _
    rw [setNode_next]
    split
    · rfl
    · next hbj =>
      rw [setNode_next]
      split
      · rfl
      · rw [setNode_next]
        split
        · next hb =>
          show c₁.next target = _
          rw [setNode_next, if_neg htj, hb]
        · rw [setNode_next, if_neg hbj]

/-- **A join inserts the new node** between its target and the target's old `prev`.  Four pointers
are written, by three nodes. -/
theorem join_inserts (hnew : joiner ∉ c.members) (ht : target ∈ c.members)
    (hp : c.prev target ∈ c.members) :
    ∃ c', c.join joiner target = some c' ∧ Inserted c c' joiner target (c.prev target) := by
  have htj : target ≠ joiner := fun h => hnew (h ▸ ht)
  have hpj : c.prev target ≠ joiner := fun h => hnew (h ▸ hp)
  obtain ⟨c', hc', hprev, hnext, hmem⟩ := join_eq hpj htj
  refine ⟨c', hc', hmem, ?_, ?_, ?_, ?_, ?_, ?_⟩
  · rw [hprev, if_neg htj, if_pos rfl]
  · rw [hprev, if_pos rfl]
  · rw [hnext, if_pos rfl]
  · rw [hnext, if_neg hpj, if_pos rfl]
  · intro b hb hbt
    rw [hprev, if_neg (fun h : b = joiner => hnew (h ▸ hb)), if_neg hbt]
  · intro b hb hbp
    rw [hnext, if_neg (fun h : b = joiner => hnew (h ▸ hb)), if_neg hbp]

/-- The connections after a shutdown. -/
theorem leave_eq : ∃ c', c.leave a = some c' ∧
    (∀ b, c'.prev b = if b = c.next a then c.prev a else c.prev b) ∧
    (∀ b, c'.next b = if b = c.prev a then c.next a else c.next b) ∧
    c'.members = c.members.erase a := by
  let c₁ := c.setNode (c.next a) { c.node (c.next a) with
    connection := { (c.node (c.next a)).connection with prev := c.prev a } }
  let c₂ := c₁.setNode (c.prev a) { c₁.node (c.prev a) with
    connection := { (c₁.node (c.prev a)).connection with next := c.next a } }
  have hleave : c.leave a = some { c₂ with members := c.members.erase a } := by
    simp only [leave, Node.setPrev, Node.setNext, parse_toString, Option.bind_eq_bind,
      Option.bind_some, Option.pure_def]
    rfl
  refine ⟨_, hleave, fun b => ?_, fun b => ?_, rfl⟩
  · show c₂.prev b = _
    rw [setNode_prev]
    split
    · next hb =>
      -- the other neighbour keeps its `prev`, unless both neighbours are one node
      show c₁.prev (c.prev a) = _
      rw [setNode_prev, hb]
    · rw [setNode_prev]
  · show c₂.next b = _
    rw [setNode_next]
    split
    · rfl
    · rw [setNode_next]
      split
      · next hb =>
        show c.next (c.next a) = _
        rw [hb]
      · rfl

/-- **A shutdown bypasses the node** that leaves.  The node itself keeps its pointers, but nobody
points at it any more. -/
theorem leave_bypasses : ∃ c', c.leave a = some c' ∧ Bypassed c c' a := by
  obtain ⟨c', hc', hprev, hnext, hmem⟩ := leave_eq (c := c) (a := a)
  refine ⟨c', hc', hmem, ?_, ?_, fun b hb => ?_, fun b hb => ?_⟩
  · rw [hprev, if_pos rfl]
  · rw [hnext, if_pos rfl]
  · rw [hprev, if_neg hb]
  · rw [hnext, if_neg hb]

/-! ## What a history does to the ring

The members as a list that `prev` walks around.  A join inserts into this list and a shutdown takes
one element out. -/

omit [DecidableEq A] [SocketAddr A] in
/-- The members, and nobody else, form one ring.  Nodes that have left may still point into it. -/
def Intact (c : Membership A) : Prop :=
  ∃ l, WellFormed c.node l ∧ ∀ a, a ∈ l ↔ a ∈ c.members

omit [DecidableEq A] [SocketAddr A] in
theorem intact_single (a : A) : (single a).Intact := by
  refine ⟨[a], ⟨CycleOn.iff_isChain.2 ⟨List.nodup_singleton a, ?_⟩, ?_⟩, ?_⟩
  · show [a, a].IsChain _
    exact List.isChain_pair.2 rfl
  · intro b hb
    obtain rfl := List.mem_singleton.1 hb
    rfl
  · intro b
    show b ∈ [a] ↔ b ∈ ({a} : Finset A)
    rw [List.mem_singleton, Finset.mem_singleton]

omit [DecidableEq A] [SocketAddr A] in
theorem Intact.prev_mem (h : c.Intact) (ha : a ∈ c.members) : c.prev a ∈ c.members := by
  obtain ⟨l, hl, hmem⟩ := h
  exact (hmem _).1 (hl.cycle.mem ((hmem a).2 ha))

omit [SocketAddr A] in
/-- **An inserted node joins the ring.** -/
theorem Intact.insert (h : c.Intact) (hnew : joiner ∉ c.members) (ht : target ∈ c.members)
    (hins : Inserted c c' joiner target (c.prev target)) : c'.Intact := by
  obtain ⟨l, hl, hmem⟩ := h
  have htl : target ∈ l := (hmem _).2 ht
  have hjl : joiner ∉ l := fun hj => hnew ((hmem _).1 hj)
  obtain ⟨l', hcycle, hmem'⟩ := hl.cycle.exists_insert (g := c'.prev) htl hjl hins.prev_target
    hins.prev_new fun y hy hyt => hins.prev_of_ne y ((hmem y).1 hy) hyt
  refine ⟨l', ⟨hcycle, fun a ha => ?_⟩, fun a => ?_⟩
  · show c'.next (c'.prev a) = a
    rcases (hmem' a).1 ha with rfl | ha
    · rw [hins.prev_new, hins.next_oldPrev]
    · by_cases hat : a = target
      · rw [hat, hins.prev_target, hins.next_new]
      · have hne : c.prev a ≠ c.prev target := fun heq => hat (hl.cycle.injOn ha htl heq)
        have hkeep : c'.next (c.prev a) = c.next (c.prev a) :=
          hins.next_of_ne _ ((hmem _).1 (hl.cycle.mem ha)) hne
        rw [hins.prev_of_ne a ((hmem a).1 ha) hat, hkeep]
        exact hl.next_prev a ha
  · rw [hmem', hins.members, Finset.mem_insert, hmem]

omit [SocketAddr A] in
/-- A member of a ring of several has two neighbours, or twice the same, but not itself. -/
theorem Intact.neighbours (h : c.Intact) (ha : a ∈ c.members) (hcard : 2 ≤ c.members.card) :
    c.prev a ∈ c.members.erase a ∧ c.next a ∈ c.members.erase a := by
  obtain ⟨l, hl, hmem⟩ := h
  have hal : a ∈ l := (hmem a).2 ha
  obtain ⟨b, hb, hba⟩ := Finset.exists_mem_ne hcard a
  have hself : c.prev a ≠ a := hl.cycle.apply_ne_self hal ((hmem b).2 hb) hba
  obtain ⟨x, hx, hxa⟩ := hl.cycle.exists_eq hal
  have hnext : c.next a = x := by
    rw [← hxa]
    exact hl.next_prev x hx
  refine ⟨Finset.mem_erase.2 ⟨hself, (hmem _).1 (hl.cycle.mem hal)⟩, Finset.mem_erase.2 ⟨?_, ?_⟩⟩
  · rintro heq
    rw [← hnext, heq] at hxa
    exact hself hxa
  · rw [hnext]
    exact (hmem x).1 hx

omit [SocketAddr A] in
/-- **A node that is bypassed leaves the ring.** -/
theorem Intact.bypass (h : c.Intact) (ha : a ∈ c.members) (hcard : 2 ≤ c.members.card)
    (hby : Bypassed c c' a) : c'.Intact := by
  have hself : c.prev a ≠ a := Finset.ne_of_mem_erase (h.neighbours ha hcard).1
  obtain ⟨l, hl, hmem⟩ := h
  have hal : a ∈ l := (hmem a).2 ha
  -- the `next` of `a` is whoever has `a` as `prev`
  have hnext_iff : ∀ x ∈ l, x = c.next a ↔ c.prev x = a := by
    intro x hx
    constructor
    · rintro rfl
      exact hl.prev_next a hal
    · intro hxa
      have := hl.next_prev x hx
      rw [show (c.node x).connection.prev = a from hxa] at this
      exact this.symm
  have hprev : ∀ x, c'.prev x = if x = c.next a then c.prev a else c.prev x := by
    intro x
    split
    · next hx => rw [hx, hby.prev_next]
    · next hx => exact hby.prev_of_ne x hx
  have hcycle : CycleOn c'.prev (l.filter (· ≠ a)) := by
    refine hl.cycle.remove hal hself fun x hx _ => ?_
    rw [hprev, if_congr (hnext_iff x hx) rfl rfl]
    rfl
  refine ⟨l.filter (· ≠ a), ⟨hcycle, fun x hx => ?_⟩, fun x => ?_⟩
  · obtain ⟨hxl, hxa⟩ : x ∈ l ∧ x ≠ a := by simpa using hx
    show c'.next (c'.prev x) = x
    rw [hprev]
    split
    · next hxn => rw [hby.next_prev, hxn]
    · next hxn =>
      have hne : c.prev x ≠ c.prev a := fun heq => hxa (hl.cycle.injOn hxl hal heq)
      rw [hby.next_of_ne _ hne]
      exact hl.next_prev x hxl
  · rw [hby.members, Finset.mem_erase, ← hmem, List.mem_filter, decide_eq_true_iff, and_comm]

/-- **One operation keeps the ring.** -/
theorem Intact.step (h : c.Intact) {act : MemberAction A} (hs : c.step act = some c') :
    c'.Intact := by
  cases act with
  | join joiner target =>
    rw [Membership.step] at hs
    split at hs
    · next hg =>
      obtain ⟨c'', hc'', hins⟩ := join_inserts hg.1 hg.2 (h.prev_mem hg.2)
      obtain rfl : c'' = c' := Option.some.inj (hc''.symm.trans hs)
      exact h.insert hg.1 hg.2 hins
    · cases hs
  | leave a =>
    rw [Membership.step] at hs
    split at hs
    · next hg =>
      obtain ⟨c'', hc'', hby⟩ := leave_bypasses (c := c) (a := a)
      obtain rfl : c'' = c' := Option.some.inj (hc''.symm.trans hs)
      exact h.bypass hg.1 hg.2 hby
    · cases hs

theorem intact_run {a₀ : A} {tr : List (Membership A)}
    (h : Run Membership.step (fun _ _ => True) (single a₀) tr) : ∀ c ∈ tr, c.Intact :=
  Run.forall_mem (intact_single a₀) (fun _ _ _ _ _ _ hc hs => hc.step hs) h

/-- **The ring stays one ring.**  In every history of joins and shutdowns from a single node the
members form one ring at every moment, every operation that may start is completed, a join puts the
new node exactly between its target and the target's old `prev`, and a shutdown links the two
neighbours of the node, which are other members, past it. -/
theorem ring_intact {a₀ : A} {tr : List (Membership A)}
    (h : Run Membership.step (fun _ _ => True) (single a₀) tr) :
    ∀ c ∈ tr, c.Intact ∧
      (∀ joiner target, joiner ∉ c.members → target ∈ c.members →
        ∃ c', c.step (.join joiner target) = some c' ∧
          Inserted c c' joiner target (c.prev target)) ∧
      (∀ a ∈ c.members, 2 ≤ c.members.card →
        c.prev a ∈ c.members.erase a ∧ c.next a ∈ c.members.erase a ∧
          ∃ c', c.step (.leave a) = some c' ∧ Bypassed c c' a) := by
  intro c hc
  have hintact := intact_run h c hc
  refine ⟨hintact, fun joiner target hnew ht => ?_, fun a ha hcard => ?_⟩
  · obtain ⟨c', hc', hins⟩ := join_inserts hnew ht (hintact.prev_mem ht)
    exact ⟨c', by rw [Membership.step, if_pos ⟨hnew, ht⟩, hc'], hins⟩
  · obtain ⟨hp, hn⟩ := hintact.neighbours ha hcard
    obtain ⟨c', hc', hby⟩ := leave_bypasses (c := c) (a := a)
    exact ⟨hp, hn, c', by rw [Membership.step, if_pos ⟨ha, hcard⟩, hc'], hby⟩

/-- Three nodes join node 0, two of them leave again, and the last two stay a ring. -/
theorem ring_intact_history :
    ∃ c : Membership (Fin 4), ∃ tr, Run Membership.step (fun _ _ => True) (single 0) (c :: tr) ∧
      c.members = {0, 3} ∧ c.Intact := by
  have hcheck : Run.checkStep Membership.step (fun _ _ => true) (single (0 : Fin 4))
      [.join 1 0, .join 2 1, .join 3 0, .leave 1] (.leave 2)
      (fun c _ _ => decide (c.members = {0, 3})) = true := by
    decide +kernel
  obtain ⟨c, s, tr, hrun, -, hp⟩ :=
    Run.exists_of_checkStep (C := fun _ _ => True) (fun _ _ _ => trivial) hcheck
  exact ⟨c, s :: tr, hrun, of_decide_eq_true hp, (ring_intact hrun c List.mem_cons_self).1⟩

end Membership
end Ring
end DistributedPrograms
