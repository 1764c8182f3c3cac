import DistributedPrograms.CRing.JoinInvariants
import Mathlib.Data.Fintype.Basic
import Mathlib.Data.Fin.VecNotation

/-!
# Joins that overlap

Any number of processes join at `n`, whose `prev` was `p`.  When all is over, the nodes from `p` to
`n` are to be doubly linked: `prev` leads from `n` through everyone who has joined to `p`, and
`next` leads back.

`join_lock` makes `prev` right whatever the order of the moments is.  But `join` creates the handle
of its `set_next` before it takes the lock, and so fixes the process this goes to by a `prev` that
may be another one by then.  `next` is right exactly when no handle is stale (`linked_iff`).

* `Linked n p s` is the statement, and `Settled` the end of a run: all joins and all `set_next` are
  over.
* `FreshHandle` is the condition on a step: where a handler takes the lock, the handle it has
  created goes to what is `prev` now.
* One direction goes through `Aimed`: the `set_next` of a join goes, or is to go, to what the join
  answers with. Where all handles are fresh every handler that has taken the lock is well aimed, and
  stays so.
* The other goes through `dest_of_linked`: `next` leads back from the `prev` of a process only if
  the `set_next` of its join went there, so in a linked ring no handle was stale.

The equivalence is about complete runs.  That there are such is `exists_step`: as long as a join is
not over, something can happen, whoever has a lock can go on, and so no run of the joins is stuck.
-/

set_option autoImplicit false

namespace DistributedPrograms
namespace CRing

variable {A : Type}

/-- The join is over in all three places. -/
def Join.Done : Join A → Prop
  | ⟨.joined, .returned _ _, .handled _⟩ => True
  | _ => False

namespace Ring

/-- All joins and all `set_next` are over.  A process that has its answer is not enough, since its
`set_next` may still be on its way. -/
def Settled (s : Ring A) : Prop := ∀ a, s.Joined a → (s.join a).Done

/-- From `n`, `prev` leads through all who have joined, each once, to `p`, and `next` leads back.
The rest of the ring, between `p` and `n`, is not touched by joins at `n`. -/
def Linked (n p : A) (s : Ring A) : Prop :=
  ∃ l : List A, l.Nodup ∧ (∀ a, a ∈ l ↔ s.Joined a) ∧
    (n :: l ++ [p]).IsChain fun a b => (s.env a).prev = b ∧ (s.env b).next = a

/-- The condition on a step: where a handler takes the lock, the handle it has created goes to what
is `prev` now.  It was created before the lock, from a `prev` that another handler may have changed
since. -/
def FreshHandle (n : A) (tr : List (Ring A)) : Action A → Prop
  | .lock a => ∀ s ∈ tr.head?, ∀ dest ∈ (s.join a).handler.dest, dest = (s.env n).prev
  | _ => True

variable [DecidableEq A] {n p a b o : A} {s s' s₀ : Ring A} {act : Action A}
  {tr : List (Ring A)}

/-! ## The end of a run

Where everything is over, the records of the joins say which process was answered with which, and to
which its `set_next` went. -/

omit [DecidableEq A] in
theorem done_iff {j : Join A} : j.Done ↔
    j.caller = .joined ∧ (∃ dest o, j.handler = .returned dest o) ∧ ∃ d, j.setNext = .handled d := by
  obtain ⟨caller, handler, sn⟩ := j
  cases caller <;> cases handler <;> cases sn <;> simp [Join.Done]

omit [DecidableEq A] in
theorem Settled.of_joined (h : s.Settled) (ha : s.Joined a) : (s.join a).caller = .joined ∧
    ∃ dest o, (s.join a).handler = .returned dest o ∧ ∃ d, (s.join a).setNext = .handled d := by
  obtain ⟨hcaller, ⟨dest, o, hhandler⟩, hset⟩ := done_iff.1 (h a ha)
  exact ⟨hcaller, dest, o, hhandler, hset⟩

omit [DecidableEq A] in
theorem joined_of_hasStored (h : (s.join a).handler.hasStored = true) : s.Joined a := fun habsent => by
  rw [habsent] at h
  contradiction

omit [DecidableEq A] in
theorem Linked.next_prev (h : Linked n p s) (ha : s.Joined a) :
    (s.env (s.env a).prev).next = a := by
  obtain ⟨l, -, hmem, hchain⟩ := h
  obtain ⟨i, hi, hia⟩ := List.getElem_of_mem (List.mem_cons_of_mem n ((hmem a).2 ha))
  have hlinks := hchain.getElem i (by simpa using hi)
  rw [List.getElem_append_left hi, hia] at hlinks
  rw [hlinks.1, hlinks.2]

omit [DecidableEq A] in
theorem Order.joined {l : List A} (h : Order n p s l) (hb : b ∈ l ++ [p]) :
    b = p ∨ s.Joined b := by
  rcases List.mem_append.1 hb with hb | hb
  · exact Or.inr (joined_of_hasStored ((h.mem b).1 hb))
  · exact Or.inl (List.mem_singleton.1 hb)

omit [DecidableEq A] in
theorem Order.nodup_append {l : List A} (h : Order n p s l) (hp : s.Member p) :
    (l ++ [p]).Nodup := by
  refine List.nodup_append.2 ⟨h.nodup, List.nodup_singleton p, fun a ha b hb hab => ?_⟩
  have hstored := (h.mem a).1 ha
  rw [hab, List.mem_singleton.1 hb, hp] at hstored
  contradiction

omit [DecidableEq A] in
/-- A process stands right before the one that its join answered with. -/
theorem Order.exists_index {l : List A} (h : Order n p s l)
    (ha : (s.join a).handler.hasStored = true) (ho : (s.join a).handler.oldPrev = some o) :
    ∃ i, (l ++ [p])[i]? = some a ∧ (l ++ [p])[i + 1]? = some o := by
  obtain ⟨i, hi, rfl⟩ := List.getElem_of_mem ((h.mem a).2 ha)
  have hlt : i + 1 < (l ++ [p]).length := by simpa using hi
  have hrel := h.chain.getElem i hlt
  rw [List.getElem_append_left hi, ho, Option.some.injEq] at hrel
  refine ⟨i, ?_, ?_⟩
  · rw [List.getElem?_append_left hi, List.getElem?_eq_getElem hi]
  · rw [List.getElem?_eq_getElem hlt, hrel]

omit [DecidableEq A] in
theorem Settled.joined_iff (h : s.Settled) :
    s.Joined a ↔ (s.join a).handler.hasStored = true := by
  refine ⟨fun ha => ?_, joined_of_hasStored⟩
  obtain ⟨-, dest, o, hhandler, -⟩ := h.of_joined ha
  rw [hhandler]
  rfl

omit [DecidableEq A] in
/-- `next` leads back from the `prev` of a process only if its `set_next` went there. -/
theorem dest_of_linked (h : Inv n p s) (hsettled : s.Settled) (hlinked : Linked n p s) {d : A}
    (hd : (s.join a).handler.dest = some d) : (s.join a).handler.oldPrev = some d := by
  obtain ⟨l, hl⟩ := h.order
  have hjoined : s.Joined a := fun habsent => by
    rw [habsent] at hd
    contradiction
  obtain ⟨hcaller, dest, o, hhandler, -⟩ := hsettled.of_joined hjoined
  have ho : (s.join a).handler.oldPrev = some o := by rw [hhandler]; rfl
  have hnext := hlinked.next_prev hjoined
  rw [h.answered a o ho hcaller] at hnext
  obtain ⟨i, -, hi⟩ := hl.exists_index (hsettled.joined_iff.1 hjoined) ho
  rcases h.nexts o with ⟨b, hb, hbnext⟩ | ⟨-, hbase⟩
  · obtain rfl : b = a := hbnext.symm.trans hnext
    have hdest := (h.sound b).setNext_dest (by rw [hb]; rfl)
    rw [ho, ← hdest, hd]
  · obtain rfl : n = a := (hbase (hl.joined (List.mem_of_getElem? hi))).symm.trans hnext
    exact absurd (by rw [h.memberN]) hjoined

omit [DecidableEq A] in
theorem linked_of_dest (h : Inv n p s) (hsettled : s.Settled)
    (hdest : ∀ a d, (s.join a).handler.dest = some d → (s.join a).handler.oldPrev = some d) :
    Linked n p s := by
  obtain ⟨l, hl⟩ := h.order
  have hnodup := hl.nodup_append h.memberP
  have hinj : ∀ {i j : Nat} {b}, (l ++ [p])[i]? = some b → (l ++ [p])[j]? = some b → i = j :=
    fun hi hj => (List.getElem?_inj (List.getElem?_eq_some_iff.1 hi).1 hnodup).1 (hi.trans hj.symm)
  -- a `set_next` that `b` has handled came from the process right before it
  have hfrom : ∀ {a b}, (s.join a).setNext = .handled b →
      ∃ i, (l ++ [p])[i]? = some a ∧ (l ++ [p])[i + 1]? = some b := by
    intro a b hb
    have hsent : (s.join a).setNext.dest = some b := by rw [hb]; rfl
    have hto := (h.sound a).setNext_dest hsent
    refine hl.exists_index (hsettled.joined_iff.1 fun habsent => ?_) (hdest a b hto)
    rw [habsent] at hto
    contradiction
  refine ⟨l, hl.nodup, fun a => (hl.mem a).trans hsettled.joined_iff.symm, ?_⟩
  rw [List.cons_append, List.isChain_cons]
  refine ⟨fun b hb => ⟨Option.some.inj (hl.head.symm.trans hb), ?_⟩, hl.chain.imp fun a b hab => ?_⟩
  · rcases h.nexts b with ⟨a, ha, -⟩ | ⟨-, hbase⟩
    · obtain ⟨i, -, hi⟩ := hfrom ha
      rw [List.head?_eq_getElem?] at hb
      exact absurd (hinj hi hb) (by omega)
    · exact hbase (hl.joined (List.mem_of_mem_head? hb))
  · have hjoined : s.Joined a := fun habsent => by
      rw [habsent] at hab
      contradiction
    obtain ⟨hcaller, dest, o, hhandler, d, hset⟩ := hsettled.of_joined hjoined
    refine ⟨h.answered a b hab hcaller, ?_⟩
    have hd := hdest a d ((h.sound a).setNext_dest (by rw [hset]; rfl))
    obtain rfl : b = d := Option.some.inj (hab.symm.trans hd)
    rcases h.nexts b with ⟨a', ha', hnext⟩ | ⟨hnone, -⟩
    · obtain ⟨i, hi, hib⟩ := hfrom hset
      obtain ⟨j, hj, hjb⟩ := hfrom ha'
      obtain rfl : i = j := Nat.succ.inj (hinj hib hjb)
      rw [hnext]
      exact Option.some.inj (hj.symm.trans hi)
    · exact absurd hset (hnone a)

/-! ## The condition

It is looked at when the lock is taken, because from then on neither the handle nor `prev` changes.
-/

/-- The `set_next` of `a` goes, or is to go, to what its join answers with. -/
def Aimed (n : A) (s : Ring A) (a : A) : Prop :=
  ∃ d, (s.join a).handler.dest = some d ∧ s.Answers n a d

theorem Aimed.step (h : s.Aimed n a) (hi : Inv n p s) (hs : s.step n act = some s') :
    s'.Aimed n a := by
  obtain ⟨d, hd, hanswers⟩ := h
  exact ⟨d, dest_step hi.sound hs hd, answers_step hanswers hi.sound hi.lockHeld hi.memberN hs⟩

/-- A handler that takes the lock, and what it finds under it. -/
theorem lock_step (hs : s.step n (.lock a) = some s') : ∃ dest,
    (s.join a).handler = .created dest ∧ (s'.join a).handler = .locked dest ∧ s'.env = s.env := by
  cases step_cases hs with
  | @lock _ dest caller sn hj hfree => exact ⟨dest, by rw [hj], by simp, rfl⟩

theorem act_eq_lock {dest : A} (hs : s.step n act = some s')
    (hold : (s.join a).handler = .created dest) (hnew : (s'.join a).handler = .locked dest) :
    act = .lock a := by
  cases step_cases hs <;> simp only [setJoin_join, setNext_join, setPrev_join, setLock_join] at hnew <;>
    grind

/-- Where all handles are fresh, every handler that has taken the lock is well aimed. -/
theorem aimed_of_fresh (h₀ : Initial n p s₀) (h : Run (Ring.step n) (FreshHandle n) s₀ tr) :
    ∀ s ∈ tr, ∀ a, ((s.join a).handler.hasLock = true ∨ (s.join a).handler.hasStored = true) →
      s.Aimed n a := by
  refine h.forall_mem (fun a ha => ?_) fun s tr act s' hrun hc hold hs a ha => ?_
  · rcases h₀.idle a with hidle | hidle <;> rw [hidle] at ha <;> rcases ha with ha | ha <;>
      contradiction
  · have hi := inv_run h₀ hrun s List.mem_cons_self
    rcases handler_step hi.sound hs a with heq | hnext
    · rw [heq] at ha
      exact (hold a ha).step hi hs
    · generalize hx : (s.join a).handler = x at hnext
      generalize hy : (s'.join a).handler = y at hnext ha
      cases hnext with
      | enter => simp [JoinHandler.hasLock, JoinHandler.hasStored] at ha
      | create => simp [JoinHandler.hasLock, JoinHandler.hasStored] at ha
      | @lock dest =>
        obtain rfl := act_eq_lock hs hx hy
        obtain ⟨dest', hold', -, henv⟩ := lock_step hs
        have hfresh := hc s rfl dest (by rw [hx]; rfl)
        refine ⟨dest, by rw [hy]; rfl, Or.inr ⟨by rw [hy]; rfl, by rw [hy]; rfl, ?_⟩⟩
        rw [henv, hfresh]
      | forward => exact (hold a (Or.inl (by rw [hx]; rfl))).step hi hs
      | name => exact (hold a (Or.inl (by rw [hx]; rfl))).step hi hs
      | respond => exact (hold a (Or.inl (by rw [hx]; rfl))).step hi hs
      | store => exact (hold a (Or.inl (by rw [hx]; rfl))).step hi hs
      | unlock => exact (hold a (Or.inr (by rw [hx]; rfl))).step hi hs

/-- **The joins leave the ring linked if and only if no handler takes the lock with a stale
handle.**  A stale one sends `set_next` past somebody who has come in between. -/
theorem linked_iff (h₀ : Initial n p s₀)
    (h : Run (Ring.step n) (fun _ _ => True) s₀ (s :: tr)) (hsettled : s.Settled) :
    Linked n p s ↔ Run (Ring.step n) (FreshHandle n) s₀ (s :: tr) := by
  have hi := inv_run h₀ h s List.mem_cons_self
  constructor
  · intro hlinked
    refine h.of_forall_step fun t' t rest act hsuf hs => ?_
    cases act with
    | lock a =>
      intro u hu dest hdest
      obtain rfl : t = u := Option.some.inj hu
      obtain ⟨dest', hold, hnew, henv⟩ := lock_step hs
      obtain rfl : dest' = dest := Option.some.inj (by rw [hold] at hdest; exact hdest)
      obtain ⟨later, hlater⟩ := hsuf
      -- from here on the handler answers with the `prev` it has found, and keeps its handle
      have hlasts : s.Answers n a (t.env n).prev ∧ (s.join a).handler.dest = some dest' := by
        rw [← hlater] at h
        refine Run.forall_later (P := fun u => u.Answers n a (t.env n).prev ∧
          (u.join a).handler.dest = some dest') ?_ h ?_ s ?_
        · intro u rest act u' hrun _ hu hs
          have hiu := inv_run h₀ hrun u List.mem_cons_self
          exact ⟨answers_step hu.1 hiu.sound hiu.lockHeld hiu.memberN hs, dest_step hiu.sound hs hu.2⟩
        · rw [Answers, hnew, henv]
          exact ⟨Or.inr ⟨rfl, rfl, rfl⟩, rfl⟩
        · cases later with
          | nil => exact (List.cons.inj hlater).1 ▸ List.mem_cons_self
          | cons v later => exact (List.cons.inj hlater).1 ▸ List.mem_cons_self
      have hread := dest_of_linked hi hsettled hlinked hlasts.2
      rcases hlasts.1 with ho | ⟨hnone, -⟩
      · exact Option.some.inj (hread.symm.trans ho)
      · rw [hnone] at hread
        contradiction
    | _ => trivial
  · intro hfresh
    refine linked_of_dest hi hsettled fun a d hd => ?_
    have hjoined : s.Joined a := fun habsent => by
      rw [habsent] at hd
      contradiction
    obtain ⟨e, he, hanswers⟩ := aimed_of_fresh h₀ hfresh s List.mem_cons_self a
      (Or.inr (hsettled.joined_iff.1 hjoined))
    obtain rfl : e = d := Option.some.inj (he.symm.trans hd)
    rcases hanswers with ho | ⟨hnone, -⟩
    · exact ho
    · obtain ⟨-, dest, o, hhandler, -⟩ := hsettled.of_joined hjoined
      rw [hhandler] at hnone
      contradiction

/-! ## Nobody waits for ever

A lock is held by a handler that can go on, so there is no state in which all wait. -/

/-- A handler under the lock can make its next call. -/
theorem exists_step_of_hasLock (h : (s.join a).handler.hasLock = true) :
    ∃ act s', s.step n act = some s' := by
  rcases hj : s.join a with ⟨caller, handler, sn⟩
  rw [hj] at h
  cases handler with
  | locked dest => exact ⟨.forward a, _, by simp only [step, hj]; rfl⟩
  | forwarded dest => exact ⟨.name a, _, by simp only [step, hj]; rfl⟩
  | named dest o => exact ⟨.respond a, _, by simp only [step, hj]; rfl⟩
  | responded dest o => exact ⟨.store a, _, by simp only [step, hj]; rfl⟩
  | stored dest o => exact ⟨.unlock a, _, by simp only [step, hj]; rfl⟩
  | _ => contradiction

/-- Whoever has a lock can go on. -/
theorem exists_step_of_held (h : LockHeld n s) {c : A} {x : Holder A}
    (hheld : s.joinLock c = some x) : ∃ act s', s.step n act = some s' := by
  have hholds := (h c x).1 hheld
  cases x with
  | join b => exact exists_step_of_hasLock hholds.2
  | setNext b =>
    rcases hj : s.join b with ⟨caller, handler, sn⟩
    obtain rfl : sn = .locked c := by rw [Holds, hj] at hholds; exact hholds
    exact ⟨.setNextStore b, _, by simp only [step, hj]; rfl⟩

/-- **As long as a join is not over, something can happen**, so the runs that this is about do come
to an end. -/
theorem exists_step (h : Inv n p s) (hsettled : ¬s.Settled) : ∃ act s', s.step n act = some s' := by
  simp only [Settled, not_forall] at hsettled
  obtain ⟨a, hjoined, hdone⟩ := hsettled
  rcases hj : s.join a with ⟨caller, handler, sn⟩
  have hfit := h.sound a
  rw [Joined] at hjoined
  rw [hj] at hjoined hdone hfit
  cases handler with
  | absent => contradiction
  | entered => exact ⟨.create a, _, by simp only [step, hj]; rfl⟩
  | created dest =>
    cases hlock : s.joinLock n with
    | none => exact ⟨.lock a, _, by simp only [step, hj, hlock]; rfl⟩
    | some x => exact exists_step_of_held h.lockHeld hlock
  | returned dest o =>
    obtain ⟨rfl | rfl, hdest⟩ := hfit
    · exact ⟨.finish a, _, by simp only [step, hj]; rfl⟩
    · cases sn with
      | unsent => contradiction
      | sent d =>
        cases hlock : s.joinLock d with
        | none => exact ⟨.setNextLock a, _, by simp only [step, hj, hlock]; rfl⟩
        | some x => exact exists_step_of_held h.lockHeld hlock
      | locked d => exact ⟨.setNextStore a, _, by simp only [step, hj]; rfl⟩
      | handled d => exact absurd trivial hdone
  | _ => exact exists_step_of_hasLock (a := a) (by rw [hj]; rfl)

/-! ## A run -/

instance (s : Ring A) (a : A) : Decidable (s.Joined a) :=
  inferInstanceAs (Decidable ((s.join a).handler ≠ .absent))

instance (j : Join A) : Decidable j.Done := by
  unfold Join.Done
  split <;> infer_instance

instance [Fintype A] (s : Ring A) : Decidable s.Settled :=
  inferInstanceAs (Decidable (∀ a, s.Joined a → (s.join a).Done))

instance (n : A) (tr : List (Ring A)) (act : Action A) : Decidable (FreshHandle n tr act) := by
  unfold FreshHandle
  split <;> infer_instance

/-- Nodes 0 and 1 form a ring; 2 and 3 are started. -/
def pair : Ring (Fin 4) where
  env := ![⟨1, 1⟩, ⟨0, 0⟩, ⟨2, 2⟩, ⟨3, 3⟩]
  joinLock _ := none
  join := ![⟨.joined, .absent, .unsent⟩, ⟨.joined, .absent, .unsent⟩,
    ⟨.outside, .absent, .unsent⟩, ⟨.outside, .absent, .unsent⟩]

theorem initial_pair : Initial 0 1 pair where
  prev := rfl
  next := rfl
  free _ := rfl
  member := by decide
  idle := by decide

/-- The second join is called while the first holds the lock, and creates its handle afterwards. -/
theorem linked_iff_pair : ∃ s tr, Run (Ring.step 0) (fun _ _ => True) pair (s :: tr) ∧
    s.Joined 2 ∧ s.Joined 3 ∧ Linked 0 1 s := by
  have hcheck : Run.check (Ring.step (0 : Fin 4)) (fun tr act => decide (FreshHandle 0 tr act)) pair
      [.joinRing 2, .create 2, .lock 2, .joinRing 3, .forward 2, .setNextLock 2, .name 2, .respond 2,
        .store 2, .create 3, .finish 2, .unlock 2, .lock 3, .setNextStore 2, .forward 3, .name 3,
        .respond 3, .finish 3, .store 3, .unlock 3, .setNextLock 3, .setNextStore 3]
      (fun tr => decide (∃ s ∈ tr.head?, s.Settled ∧ s.Joined 2 ∧ s.Joined 3)) = true := by
    decide +kernel
  obtain ⟨tr, hrun, hp⟩ :=
    Run.exists_of_check (C := FreshHandle 0) (fun _ _ h => of_decide_eq_true h) hcheck
  obtain ⟨s, hs, hsettled, h2, h3⟩ := of_decide_eq_true hp
  obtain ⟨tr, rfl⟩ := List.head?_eq_some_iff.1 hs
  have hall := hrun.mono (D := fun _ _ => True) fun _ _ _ => trivial
  exact ⟨s, tr, hall, h2, h3, (linked_iff initial_pair hall hsettled).2 hrun⟩

/-- **Both handlers create their handles before one takes the lock.**  Both `set_next` go to the old
`prev`, and nobody tells the first of the two that the second comes after it. -/
theorem not_linked : ∃ s tr, Run (Ring.step 0) (fun _ _ => True) pair (s :: tr) ∧ s.Settled ∧
    ¬Linked 0 1 s := by
  have hcheck : Run.check (Ring.step (0 : Fin 4)) (fun _ _ => true) pair
      [.joinRing 2, .joinRing 3, .create 2, .create 3,
        .lock 2, .forward 2, .name 2, .respond 2, .store 2, .unlock 2,
        .lock 3, .forward 3, .name 3, .respond 3, .store 3, .unlock 3,
        .finish 2, .finish 3, .setNextLock 2, .setNextStore 2, .setNextLock 3, .setNextStore 3]
      (fun tr => decide (∃ s ∈ tr.head?, s.Settled ∧
        ∃ a, s.Joined a ∧ (s.env (s.env a).prev).next ≠ a)) = true := by
    decide +kernel
  obtain ⟨tr, hrun, hp⟩ :=
    Run.exists_of_check (C := fun _ _ => True) (fun _ _ _ => trivial) hcheck
  obtain ⟨s, hs, hsettled, a, ha, hnext⟩ := of_decide_eq_true hp
  obtain ⟨tr, rfl⟩ := List.head?_eq_some_iff.1 hs
  exact ⟨s, tr, hrun, hsettled, fun hlinked => hnext (hlinked.next_prev ha)⟩

end Ring
end CRing
end DistributedPrograms
