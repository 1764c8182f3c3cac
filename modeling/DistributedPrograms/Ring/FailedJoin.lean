import DistributedPrograms.Lib.Run
import DistributedPrograms.Lib.Simulation
import DistributedPrograms.Ring.Join

/-!
# A join that fails

One join at the node `n` is answered with an error: its address does not parse, or the connection to
the old `prev` fails, or `set_next` answers an error, or its reply is lost.  Meanwhile any other
joins go on, at `n` and elsewhere.  `join_impl` then puts the `prev` back that it has read.

That undoes the failed join, and nothing else, if no other join at `n` exchanges `prev` between this
reading and the rollback, none reads it while the address of the failed join stands in it, and the
old `prev` has not handled `set_next` (`failed_join_noop`): the other joins then leave all nodes as
they would have done alone.  In each of the three cases something is left of the failed join, or
something is lost of another.

* `Attempt` says how far the failing join has come.  A reply that is lost is a `set_next` that is
  handled, and an error nevertheless.
* `Failing` is the ring with the other joins and this one, and `FailAction.other?` is what an action
  is for the others.
* `Shadows ring n c d` says that `d` is what the other joins alone have made of the ring: the same,
  except that `n` still has the `prev` that the failing join has replaced.  It is a simulation, in
  which the second system does not move where the failing join does (`Shadows.own`), and follows it
  everywhere else (`Shadows.other`).
* `NoOp` compares the two at the end, and `failed_join_noop` is the conclusion for a list of actions
  of any length.

The conditions are on a step, in the state before it.
-/

set_option autoImplicit false

namespace DistributedPrograms
namespace Ring

open SocketAddr Tasks

/-- How far the join has come that fails.  It can fail before the exchange of `prev`, where an
address does not parse, and after it, where `set_next` cannot be called. -/
inductive Attempt (A : Type) where
  | idle
  /-- the request is at `n` -/
  | requested
  /-- `join_impl` has read `oldPrev` -/
  | read (oldPrev : A)
  /-- `join_impl_no_rollback` has exchanged `prev` and calls `set_next` -/
  | swapped (oldPrev : A)
  /-- `join_impl_no_rollback` has returned an error, and its address stands in `prev` or not -/
  | failed (oldPrev : A) (stands : Bool)
  /-- `prev` is put back, and the error is answered -/
  | answered
  deriving DecidableEq, Repr

namespace Attempt

variable {A : Type}

/-- What the join has read and is to put back. -/
def oldPrev : Attempt A → Option A
  | .read oldPrev => some oldPrev
  | .swapped oldPrev => some oldPrev
  | .failed oldPrev _ => some oldPrev
  | _ => none

/-- The address of the join stands in `prev`. -/
def stands : Attempt A → Bool
  | .swapped _ => true
  | .failed _ stands => stands
  | _ => false

/-- Putting back what is there changes nothing. -/
theorem joinImplRollback_of_prev_eq {m : Node A} {a : A} (h : m.connection.prev = a) :
    m.joinImplRollback a = m := by
  subst h
  rfl

/-- The node `n` as the failing join has found it, up to what the others have done since: its `prev`
is what will be put back. -/
def undo : Attempt A → Node A → Node A
  | .swapped oldPrev, m => m.joinImplRollback oldPrev
  | .failed oldPrev true, m => m.joinImplRollback oldPrev
  | _, m => m

theorem undo_of_not_stands {t : Attempt A} (h : t.stands = false) (m : Node A) : t.undo m = m := by
  cases t with
  | swapped oldPrev => contradiction
  | failed oldPrev stands =>
    obtain rfl : stands = false := h
    rfl
  | _ => rfl

theorem undo_of_stands {t : Attempt A} {o : A} (h : t.stands = true) (ho : t.oldPrev = some o)
    (m : Node A) : t.undo m = m.joinImplRollback o := by
  cases t with
  | swapped oldPrev =>
    obtain rfl := Option.some.inj ho
    rfl
  | failed oldPrev stands =>
    obtain rfl : stands = true := h
    obtain rfl := Option.some.inj ho
    rfl
  | _ => contradiction

theorem stands_of_oldPrev {t : Attempt A} (h : t.oldPrev = none) : t.stands = false := by
  cases t <;> first | rfl | contradiction

/-- What a `set_next` changes is not what the rollback changes. -/
theorem undo_next (t : Attempt A) (m : Node A) (a : A) :
    t.undo { m with connection := { m.connection with next := a } } =
      { t.undo m with connection := { (t.undo m).connection with next := a } } := by
  cases t with
  | failed oldPrev stands => cases stands <;> rfl
  | _ => rfl

end Attempt

/-- The other joins, and the one that fails. -/
structure Failing (A : Type) where
  joins : Joins A
  attempt : Attempt A
  /-- the `set_next` of the failing join: where it is on its way to, and its address -/
  setNext : Option (A × String)

inductive FailAction (A : Type) where
  /-- a moment of another join -/
  | other (act : JoinAction A)
  /-- the request arrives -/
  | request
  /-- `join_impl` reads `prev` -/
  | read
  /-- the address does not parse -/
  | reject
  /-- `join_impl_no_rollback` exchanges `prev` and sends `set_next` -/
  | swap
  /-- the old `prev` handles `set_next` -/
  | setNext
  /-- no connection, an error, or no reply -/
  | fail
  /-- `join_impl` puts `prev` back -/
  | rollback
  deriving DecidableEq, Repr

/-- What the action is for the other joins. -/
def FailAction.other? {A : Type} : FailAction A → Option (JoinAction A)
  | .other act => some act
  | _ => none

namespace Failing

variable {A : Type} [DecidableEq A] [SocketAddr A]

/-- One moment of one join.  The join that fails is at `n`, with the address `newPrev`, which need
not be the address of anybody. -/
def step (ring : List A) (n : A) (newPrev : String) (c : Failing A) :
    FailAction A → Option (Failing A)
  | .other act => (c.joins.step ring act).map fun joins => { c with joins }
  | .request =>
    match c.attempt with
    | .idle => some { c with attempt := .requested }
    | _ => none
  | .read =>
    match c.attempt with
    | .requested => some { c with attempt := .read (c.joins.node n).joinImplRead }
    | _ => none
  | .reject =>
    match c.attempt, (parse newPrev : Option A) with
    | .read oldPrev, none => some { c with attempt := .failed oldPrev false }
    | _, _ => none
  | .swap =>
    match c.attempt, (parse newPrev : Option A) with
    | .read oldPrev, some address => do
      let (dest, m) ← (c.joins.node n).joinImplSwap newPrev
      return { joins := c.joins.setNode n m, attempt := .swapped oldPrev,
               setNext := some (dest, toString address) }
    | _, _ => none
  | .setNext =>
    match c.setNext with
    | some (dest, address) => do
      let m ← (c.joins.node dest).setNext address
      return { c with joins := c.joins.setNode dest m, setNext := none }
    | none => none
  | .fail =>
    match c.attempt with
    | .swapped oldPrev => some { c with attempt := .failed oldPrev true }
    | _ => none
  | .rollback =>
    match c.attempt with
    | .failed oldPrev _ =>
      some { c with joins := c.joins.setNode n ((c.joins.node n).joinImplRollback oldPrev),
                    attempt := .answered }
    | _ => none

/-- After the actions `as` all nodes have the `prev` and `next` that the other joins alone give
them.  The other joins are run by their own steps, in the same order. -/
def NoOp (ring : List A) (c₀ : Failing A) (as : List (FailAction A)) (c : Failing A) : Prop :=
  ∃ d, Steps (Joins.step ring) (fun _ _ => True) c₀.joins (as.filterMap FailAction.other?) d ∧
    ∀ a, (c.joins.node a).connection = (d.node a).connection

/-- The condition on a step: no other join at `n` exchanges `prev` from the reading to the rollback,
none reads it while the address stands in it, and `set_next` is not handled. -/
def Undisturbed (n : A) (c : Failing A) : FailAction A → Prop
  | .other (.swap joiner) =>
    match c.joins.task joiner with
    | .read target _ => target = n → c.attempt.oldPrev = none
    | _ => True
  | .other (.read joiner) =>
    match c.joins.task joiner with
    | .requested target => target = n → c.attempt.stands = false
    | _ => True
  | .setNext => False
  | _ => True

/-! ## The other joins alone

`n` is the only node in which the two differ, and only while the address of the failing join stands
there. -/

/-- `d` is what the other joins alone have made of the ring.  The two rings differ in the node `n`
only, and there as the failing join will undo it. -/
structure Shadows (ring : List A) (n : A) (c : Failing A) (d : Joins A) : Prop where
  fixed : Joins.Fixed ring n d
  task : d.task = c.joins.task
  node : ∀ a, a ≠ n → d.node a = c.joins.node a
  target : d.node n = c.attempt.undo (c.joins.node n)
  prev : ∀ o, c.attempt.oldPrev = some o → (d.node n).connection.prev = o

variable {ring : List A} {n : A} {newPrev : String} {c c' c₀ : Failing A} {d : Joins A}

omit [DecidableEq A] [SocketAddr A] in
/-- Where the address of the failing join does not stand, nothing tells the two rings apart. -/
theorem Shadows.node_target (h : Shadows ring n c d) (hstands : c.attempt.stands = false) :
    d.node n = c.joins.node n := by
  rw [h.target, Attempt.undo_of_not_stands hstands]

omit [DecidableEq A] [SocketAddr A] in
/-- From the reading on, to put back what has been read gives the node that the other joins alone
have made. -/
theorem Shadows.rollback (h : Shadows ring n c d) {o : A} (ho : c.attempt.oldPrev = some o) :
    d.node n = (c.joins.node n).joinImplRollback o := by
  cases hstands : c.attempt.stands with
  | false =>
    have hprev := h.prev o ho
    rw [h.node_target hstands] at hprev ⊢
    exact (Attempt.joinImplRollback_of_prev_eq hprev).symm
  | true => rw [h.target, Attempt.undo_of_stands hstands ho]

omit [DecidableEq A] [SocketAddr A] in
/-- The failing join goes on without a change to any node. -/
theorem Shadows.setAttempt (h : Shadows ring n c d) {attempt : Attempt A}
    (htarget : d.node n = attempt.undo (c.joins.node n))
    (hprev : ∀ o, attempt.oldPrev = some o → (d.node n).connection.prev = o) :
    Shadows ring n { c with attempt } d :=
  ⟨h.fixed, h.task, h.node, htarget, hprev⟩

omit [SocketAddr A] in
/-- The failing join goes on with a change to the node `n`. -/
theorem Shadows.setTarget (h : Shadows ring n c d) {m : Node A} {attempt : Attempt A}
    {setNext : Option (A × String)} (htarget : d.node n = attempt.undo m)
    (hprev : ∀ o, attempt.oldPrev = some o → (d.node n).connection.prev = o) :
    Shadows ring n { joins := c.joins.setNode n m, attempt, setNext } d where
  fixed := h.fixed
  task := h.task
  node a ha := by rw [setNode_node_of_ne _ _ ha, h.node a ha]
  target := by rw [setNode_node_self, htarget]
  prev := hprev

omit [SocketAddr A] in
theorem Shadows.setTask (h : Shadows ring n c d) {j : A} {t : JoinTask A}
    (hfixed : Joins.Fixed ring n (d.setTask j t)) :
    Shadows ring n { c with joins := c.joins.setTask j t } (d.setTask j t) where
  fixed := hfixed
  task := show Function.update d.task j t = Function.update c.joins.task j t by rw [h.task]
  node := h.node
  target := h.target
  prev := h.prev

omit [SocketAddr A] in
/-- A step changes the node `b` in both, and the task of `j`. -/
theorem Shadows.setNode (h : Shadows ring n c d) {b j : A} {t : JoinTask A} {m m' : Node A}
    (hfixed : Joins.Fixed ring n ((d.setNode b m').setTask j t)) (hother : b ≠ n → m' = m)
    (hself : b = n → m' = c.attempt.undo m ∧
      ∀ o, c.attempt.oldPrev = some o → m'.connection.prev = o) :
    Shadows ring n { c with joins := (c.joins.setNode b m).setTask j t }
      ((d.setNode b m').setTask j t) := by
  refine ⟨hfixed, ?_, fun a ha => ?_, ?_, ?_⟩
  · show Function.update d.task j t = Function.update c.joins.task j t
    rw [h.task]
  · rw [setTask_node, setTask_node]
    by_cases hab : a = b
    · subst hab
      rw [setNode_node_self, setNode_node_self, hother ha]
    · rw [setNode_node_of_ne _ _ hab, setNode_node_of_ne _ _ hab, h.node a ha]
  · rw [setTask_node, setTask_node]
    by_cases hb : n = b
    · subst hb
      rw [setNode_node_self, setNode_node_self, (hself rfl).1]
    · rw [setNode_node_of_ne _ _ hb, setNode_node_of_ne _ _ hb, h.target]
  · intro o ho
    rw [setTask_node]
    by_cases hb : n = b
    · subst hb
      rw [setNode_node_self, (hself rfl).2 o ho]
    · rw [setNode_node_of_ne _ _ hb, h.prev o ho]

/-- **The other joins do without the failing one what they do with it.** -/
theorem Shadows.other (h : Shadows ring n c d) {act : JoinAction A} {joins : Joins A}
    (hc : Undisturbed n c (.other act)) (hs : c.joins.step ring act = some joins) :
    ∃ d', d.step ring act = some d' ∧ Shadows ring n { c with joins } d' := by
  have hfixed := fun {d'} (hs : d.step ring act = some d') => Joins.fixed_step hs h.fixed
  have htask := fun j => congrFun h.task j
  rcases Joins.step_cases hs with ⟨j, t, rfl, hj, hring, ht, rfl⟩ | ⟨j, t, rfl, hj, rfl⟩ |
    ⟨j, t, o, rfl, hj, rfl⟩ | ⟨j, t, o, dest, rfl, hj, rfl⟩ | ⟨j, t, o, rfl, hj, rfl⟩
  · have ht' : d.IsMember ring t := ht.imp_right fun ht => (htask t).trans ht
    have hs' := Joins.step_join ((htask j).trans hj) hring ht'
    exact ⟨_, hs', h.setTask (hfixed hs')⟩
  · have hs' := Joins.step_read ring ((htask j).trans hj)
    have hread : (d.node t).connection.prev = (c.joins.node t).connection.prev := by
      by_cases ht : t = n
      · subst ht
        rw [Undisturbed, hj] at hc
        rw [h.node_target (hc rfl)]
      · rw [h.node t ht]
    rw [hread] at hs'
    exact ⟨_, hs', h.setTask (hfixed hs')⟩
  · have hs' := Joins.step_swap ring ((htask j).trans hj)
    by_cases ht : t = n
    · subst ht
      rw [Undisturbed, hj] at hc
      have hold := hc rfl
      have hstands := Attempt.stands_of_oldPrev hold
      rw [h.node_target hstands] at hs'
      refine ⟨_, hs', h.setNode (hfixed hs') (fun hne => absurd rfl hne) fun _ => ⟨?_, ?_⟩⟩
      · rw [Attempt.undo_of_not_stands hstands]
      · intro o ho
        rw [hold] at ho
        contradiction
    · rw [h.node t ht] at hs'
      exact ⟨_, hs', h.setNode (hfixed hs') (fun _ => rfl) fun heq => absurd heq ht⟩
  · have hs' := Joins.step_setNext ring ((htask j).trans hj)
    refine ⟨_, hs', h.setNode (hfixed hs') (fun hne => ?_) ?_⟩
    · rw [h.node dest hne]
    · rintro rfl
      refine ⟨?_, h.prev⟩
      rw [h.target]
      exact (Attempt.undo_next _ _ _).symm
  · have hs' := Joins.step_respond ring ((htask j).trans hj)
    have hjn : j ≠ n := by
      rintro rfl
      rcases h.fixed with hn | ⟨-, hn⟩ <;> rw [htask, hj] at hn <;> contradiction
    rw [h.node j hjn] at hs'
    exact ⟨_, hs', h.setNode (hfixed hs') (fun _ => rfl) fun heq => absurd heq hjn⟩

/-- **What the failing join does is undone.**  It reads, exchanges and puts back the `prev` of `n`,
and its `set_next` is handled nowhere. -/
theorem Shadows.own (h : Shadows ring n c d) {act : FailAction A} (hc : Undisturbed n c act)
    (hs : step ring n newPrev c act = some c') (hown : act.other? = none) :
    Shadows ring n c' d := by
  cases act with
  | other act => contradiction
  | request =>
    rw [step] at hs
    split at hs
    · next hidle =>
      obtain ⟨⟩ := hs
      exact h.setAttempt (h.node_target (by rw [hidle]; rfl)) fun o ho => by contradiction
    · contradiction
  | read =>
    rw [step] at hs
    split at hs
    · next hrequested =>
      obtain ⟨⟩ := hs
      have htarget := h.node_target (by rw [hrequested]; rfl)
      refine h.setAttempt htarget fun o ho => ?_
      obtain ⟨⟩ := ho
      rw [htarget]
      rfl
    · contradiction
  | reject =>
    rw [step] at hs
    split at hs
    · next o hread _ =>
      obtain ⟨⟩ := hs
      have ho : c.attempt.oldPrev = some o := by rw [hread]; rfl
      exact h.setAttempt (h.node_target (by rw [hread]; rfl)) fun o' ho' => h.prev o' (ho.trans ho')
    · contradiction
  | swap =>
    rw [step] at hs
    split at hs
    · next o address hread haddress =>
      have ho : c.attempt.oldPrev = some o := by rw [hread]; rfl
      simp only [Node.joinImplSwap, haddress, Option.bind_eq_bind, Option.bind_some,
        Option.pure_def, Option.some.injEq] at hs
      obtain rfl := hs
      -- the rollback puts back what the exchange has overwritten
      exact h.setTarget (h.rollback ho) fun o' ho' => h.prev o' (ho.trans ho')
    · contradiction
  | setNext => contradiction
  | fail =>
    rw [step] at hs
    split at hs
    · next o hswapped =>
      obtain ⟨⟩ := hs
      have ho : c.attempt.oldPrev = some o := by rw [hswapped]; rfl
      exact h.setAttempt (h.rollback ho) fun o' ho' => h.prev o' (ho.trans ho')
    · contradiction
  | rollback =>
    rw [step] at hs
    split at hs
    · next o stands hfailed =>
      obtain ⟨⟩ := hs
      exact h.setTarget (h.rollback (by rw [hfailed]; rfl)) fun o ho => by contradiction
    · contradiction

/-- **A failed join is a no-op** as long as nothing disturbs it: the other joins, wherever they are,
leave every node as they would have without it. -/
theorem failed_join_noop {as : List (FailAction A)} (hn : Joins.Fixed ring n c₀.joins)
    (hidle : c₀.attempt = .idle) (h : Steps (step ring n newPrev) (Undisturbed n) c₀ as c)
    (hanswered : c.attempt = .answered) : NoOp ring c₀ as c := by
  have h₀ : Shadows ring n c₀ c₀.joins :=
    ⟨hn, rfl, fun _ _ => rfl, by rw [hidle]; rfl, fun o ho => by rw [hidle] at ho; contradiction⟩
  obtain ⟨d, hd, hshadows⟩ := h.simulate (Joins.step ring) (fun _ _ => True) FailAction.other? h₀
    fun c d act c' hshadows hc hs => by
      refine ⟨hshadows.own hc hs, fun b hb => ⟨trivial, ?_⟩⟩
      cases act with
      | other act =>
        obtain ⟨joins, hjoins, rfl⟩ := Option.map_eq_some_iff.1 hs
        obtain rfl := Option.some.inj hb
        exact hshadows.other hc hjoins
      | _ => contradiction
  refine ⟨d, hd, fun a => ?_⟩
  by_cases ha : a = n
  · rw [ha, hshadows.target, hanswered]
    rfl
  · rw [hshadows.node a ha]

/-! ## Runs

Both rings along a run, in step. -/

instance (n : A) (c : Failing A) (act : FailAction A) : Decidable (Undisturbed n c act) := by
  unfold Undisturbed
  split
  · split <;> infer_instance
  · split <;> infer_instance
  · infer_instance
  · infer_instance

/-- Node 0 alone in its ring. -/
def alone : Failing (Fin 4) where
  joins := { node := Node.new, task := fun _ => .idle }
  attempt := .idle
  setNext := none

/-- Node 3 cannot be reached while node 1 is joining. -/
theorem failed_join_noop_unreachable :
    ∃ as c, Steps (step [0] 0 "127.0.0.1:50003") (fun _ _ => True) alone as c ∧
      c.attempt = .answered ∧ (c.joins.node 0).connection.prev = 1 ∧ NoOp [0] alone as c := by
  have hexec : (Steps.exec (step [0] 0 "127.0.0.1:50003") (fun c act => decide (Undisturbed 0 c act))
      alone [.other (.join 1 0), .request, .read, .swap, .fail, .rollback, .other (.read 1),
        .other (.swap 1), .other (.setNext 1), .other (.respond 1)]).any (fun c =>
        decide (c.attempt = .answered ∧ (c.joins.node 0).connection.prev = 1)) = true := by
    decide +kernel
  obtain ⟨c, hsteps, hc⟩ :=
    Steps.exists_of_exec (C := Undisturbed 0) (fun _ _ h => of_decide_eq_true h) hexec
  obtain ⟨hanswered, hprev⟩ := of_decide_eq_true hc
  exact ⟨_, c, hsteps.mono fun _ _ _ => trivial, hanswered, hprev,
    failed_join_noop (Or.inr ⟨List.mem_cons_self, rfl⟩) rfl hsteps hanswered⟩

/-- The states with and without the failing join, at the end of a list of actions. -/
theorem not_noop_of_exec {newPrev : String} {as : List (FailAction (Fin 4))}
    {p q : Connection (Fin 4)}
    (hc : (Steps.exec (step [0] 0 newPrev) (fun _ _ => true) alone as).any (fun c =>
      decide (c.attempt = .answered ∧ (c.joins.node 0).connection = p)) = true)
    (hd : (Steps.exec (Joins.step [0]) (fun _ _ => true) alone.joins
      (as.filterMap FailAction.other?)).any (fun d => decide ((d.node 0).connection = q)) = true)
    (hne : p ≠ q) :
    ∃ c, Steps (step [0] 0 newPrev) (fun _ _ => True) alone as c ∧ c.attempt = .answered ∧
      ¬NoOp [0] alone as c := by
  obtain ⟨c, hsteps, hc⟩ :=
    Steps.exists_of_exec (C := fun _ _ => True) (fun _ _ _ => trivial) hc
  obtain ⟨hanswered, hconnection⟩ := of_decide_eq_true hc
  obtain ⟨d, hothers, hd⟩ :=
    Steps.exists_of_exec (C := fun _ _ => True) (fun _ _ _ => trivial) hd
  refine ⟨c, hsteps, hanswered, fun ⟨d', hothers', hsame⟩ => hne ?_⟩
  rw [← hconnection, hsame 0, ← hothers.unique hothers']
  exact of_decide_eq_true hd

/-- **What is left and what is lost**: the reply of `set_next` is lost, and the old `prev` keeps the
failed node; or an address that does not parse takes back a join that came in between. -/
theorem not_failed_join_noop :
    (∃ as c, Steps (step [0] 0 "127.0.0.1:50003") (fun _ _ => True) alone as c ∧
      c.attempt = .answered ∧ ¬NoOp [0] alone as c) ∧
    ∃ as c, Steps (step [0] 0 "") (fun _ _ => True) alone as c ∧ c.attempt = .answered ∧
      ¬NoOp [0] alone as c := by
  refine ⟨⟨[.request, .read, .swap, .setNext, .fail, .rollback], ?_⟩,
    [.other (.join 1 0), .request, .read, .other (.read 1), .other (.swap 1), .other (.setNext 1),
      .other (.respond 1), .reject, .rollback], ?_⟩
  · exact not_noop_of_exec (p := ⟨0, 3⟩) (q := ⟨0, 0⟩) (by decide +kernel) (by decide +kernel)
      (by decide)
  · exact not_noop_of_exec (p := ⟨0, 1⟩) (q := ⟨1, 1⟩) (by decide +kernel) (by decide +kernel)
      (by decide)

end Failing

end Ring
end DistributedPrograms
