import DistributedPrograms.CRing.Leave
import DistributedPrograms.CRing.ConcurrentJoins

/-!
# What a change of the C ring owes

A join changes four pointers around the place where the new process comes in, a leave changes two
around the one that goes, and no lock covers a whole change.  To say what the pointers are in
between, every change is thought of as made at once when it starts.  That gives a ring `v` at every
moment; what the pointers of a process lack of it is what a change that touches the process still
owes (`Joining`, `Leaving`), and each of its moments pays some of it (`Joining.step`,
`Leaving.step`).

* `Member`, `Joins` and `Leaves` say who belongs to the ring and who is on the way into it or out of
  it.  A process is a member from the start of its join to the start of its leave.
* `Busy` is who takes part in a change: in a join the process that joins, the member it has called
  and the process before that; in a leave the process that leaves and its two neighbours.
* `Apart` is the condition on a step, in these words: a change starts where nobody is busy.
  `Change.Touches` is the same for a change that has started, with its neighbours of then.
* `Joining contact s v a p n` and `Leaving s v l a p n` say, pointer by pointer, what the change may
  still owe, and from which moment on it is paid.
* `Fits` says this of the whole net: the pointers of all processes are those of the ring `v` through
  `l`, but for what the changes `op` owe, no two of which touch the same process.

A change depends only on what happens at the processes it touches (`Change.Under.congr`), so a step
of one change is no concern of the others (`Fits.replace`).  What is left are the moments of one
change, and of these only the three stores of a join and the two messages of a leave write a
pointer.
-/

set_option autoImplicit false

namespace DistributedPrograms
namespace CRing
namespace Net

variable {A : Type}

/-! ## Who takes part in what

A change is going on from its start until all of its three places are through, and as long as it is,
it touches three processes. -/

/-- `a` belongs to the ring: it has started to join and not to leave.  From the two starts on it is
so in the ring as it is to be; the pointers follow later. -/
def Member (s : Net A) (a : A) : Prop :=
  (s.ring.join a).caller ≠ .outside ∧ (s.leave a).call = .staying

/-- The join of `a` is going on, in one of its three places. -/
def Joins (s : Net A) (a : A) : Prop := s.ring.Joined a ∧ ¬(s.ring.join a).Done

/-- The leave of `a` is going on. -/
def Leaves (s : Net A) (a : A) : Prop :=
  (s.leave a).call ≠ .staying ∧ ¬((s.leave a).setPrev = .handled ∧ (s.leave a).setNext = .handled)

/-- The process that the `set_next` of a join goes to, or would go to now.  It is the third process
that a join touches, beside the one that joins and its contact. -/
def target (contact : A → A) (s : Net A) (a : A) : Option A :=
  match (s.ring.join a).handler with
  | .entered => some (s.ring.env (contact a)).prev
  | handler => handler.dest

/-- `x` takes part in a change: in a join the process that joins, the member it has called and the
process before that; in a leave the process that leaves and its two neighbours. -/
def Busy (contact : A → A) (s : Net A) (x : A) : Prop :=
  ∃ a, (s.Joins a ∧ (x = a ∨ x = contact a ∨ s.target contact a = some x)) ∨
    (s.Leaves a ∧ (x = a ∨ x = (s.ring.env a).next ∨ x = (s.ring.env a).prev))

/-- The condition on a step: a join starts at a member, a leave at a process that is not alone, and
both where nobody takes part in another change. -/
def Apart (contact : A → A) (tr : List (Net A)) : NetAction A → Prop
  | .join (.joinRing a) => ∀ s ∈ tr.head?, s.Member (contact a) ∧ ¬s.Busy contact (contact a) ∧
      ¬s.Busy contact (s.ring.env (contact a)).prev
  | .nameNext a => ∀ s ∈ tr.head?, (s.ring.env a).next ≠ a ∧ ¬s.Busy contact a ∧
      ¬s.Busy contact (s.ring.env a).next ∧ ¬s.Busy contact (s.ring.env a).prev
  | _ => True

/-- Before the changes: some processes form a doubly linked ring, and nothing is under way. -/
structure Initial (s : Net A) : Prop where
  linked : ∃ l, LinkedCycle (fun x => (s.ring.env x).next) (fun x => (s.ring.env x).prev) l ∧
    ∀ a, a ∈ l ↔ s.Member a
  idle : ∀ a, s.ring.join a = ⟨.outside, .absent, .unsent⟩ ∨
    s.ring.join a = ⟨.joined, .absent, .unsent⟩
  staying : ∀ a, s.leave a = .none
  free : ∀ a, s.ring.joinLock a = none

/-! ## What a change owes

The ring as it is to be is fixed when a change starts; the stores come later, one by one.  Where a
change stands says which of them are still missing. -/

/-- A change: `prev` and `next` are the neighbours of the process that comes or goes, as they are
when it starts. -/
inductive Change (A : Type)
  | join (prev next : A)
  | leave (prev next : A)

namespace Change

def prev : Change A → A
  | join prev _ => prev
  | leave prev _ => prev

def next : Change A → A
  | join _ next => next
  | leave _ next => next

end Change

/-- `x` is one of the three processes that a change of `a` touches. -/
def Change.Touches (o : Change A) (a x : A) : Prop := x = a ∨ x = o.next ∨ x = o.prev

/-- The pointers of a ring, without the locks and the places of the code. -/
structure Pointers (A : Type) where
  next : A → A
  prev : A → A

/-- `a` joins between `p` and `n`.  In the ring `v` it is there; the process `p` may not have been
told of it, `n` not have stored it, and `a` itself not have its answer. -/
structure Joining (contact : A → A) (s : Net A) (v : Pointers A) (a p n : A) : Prop where
  contact : contact a = n
  staying : (s.leave a).call = .staying
  joined : s.ring.Joined a
  ne : n ≠ a
  next : v.next a = n
  prev : v.prev a = p
  dest : ∀ d ∈ (s.ring.join a).handler.dest, d = p
  oldPrev : ∀ o ∈ (s.ring.join a).handler.oldPrev, o = p
  old : (s.ring.join a).handler.hasStored = false → (s.ring.env n).prev = p
  env_next : ∀ x, (Change.join p n).Touches a x →
    (x = p → ∃ d, (s.ring.join a).setNext = .handled d) → (s.ring.env x).next = v.next x
  env_prev : ∀ x, (Change.join p n).Touches a x →
    (x = n → (s.ring.join a).handler.hasStored = true) →
    (x = a → (s.ring.join a).caller = .joined) → (s.ring.env x).prev = v.prev x

/-- The locals of a `leave`, where its neighbours are `p` and `n`, and what it has sent. -/
def Leave.Between (p n : A) : Leave A → Prop
  | ⟨.staying, _, _⟩ => False
  | ⟨.nextNamed nextStr, sp, sn⟩ => nextStr = n ∧ sp = .unsent ∧ sn = .unsent
  | ⟨.prevNamed nextStr prevStr, sp, sn⟩ =>
    (nextStr = n ∧ prevStr = p) ∧ sp = .unsent ∧ sn = .unsent
  | ⟨.nextCreated nextStr prevStr nextH, sp, sn⟩ =>
    (nextStr = n ∧ prevStr = p ∧ nextH = n) ∧ sp = .unsent ∧ sn = .unsent
  | ⟨.prevCreated nextStr prevStr nextH prevH, sp, sn⟩ =>
    (nextStr = n ∧ prevStr = p ∧ nextH = n ∧ prevH = p) ∧ sp = .unsent ∧ sn = .unsent
  | ⟨.nextForwarded nextStr prevH, sp, sn⟩ =>
    (nextStr = n ∧ prevH = p) ∧ (sp = .sent n p ∨ sp = .handled) ∧ sn = .unsent
  | ⟨_, sp, sn⟩ => (sp = .sent n p ∨ sp = .handled) ∧ (sn = .sent p n ∨ sn = .handled)

/-- `a` leaves from between `p` and `n`.  In the ring `v` these are neighbours; `n` or `p` may not
have been told, and then still points at `a`. -/
structure Leaving (s : Net A) (v : Pointers A) (l : List A) (a p n : A) : Prop where
  between : Leave.Between p n (s.leave a)
  inactive : ¬s.Joins a
  started : (s.ring.join a).caller ≠ .outside
  ne_next : n ≠ a
  ne_prev : p ≠ a
  mem : p ∈ l
  next : v.next p = n
  env : s.ring.env a = ⟨n, p⟩
  env_next : ∀ x, x = n ∨ x = p → (x = p → (s.leave a).setNext = .handled) →
    (s.ring.env x).next = v.next x
  env_prev : ∀ x, x = n ∨ x = p → (x = n → (s.leave a).setPrev = .handled) →
    (s.ring.env x).prev = v.prev x

/-- How far a change of `a` has come. -/
def Change.Under (contact : A → A) (s : Net A) (v : Pointers A) (l : List A) (a : A) :
    Change A → Prop
  | .join p n => Joining contact s v a p n
  | .leave p n => Leaving s v l a p n

/-- Who may have a `join_lock`. -/
def Holds (contact : A → A) (s : Net A) (c : A) : Holder A → Prop
  | .join a => c = contact a ∧ (s.ring.join a).handler.hasLock = true
  | .setNext a => (s.ring.join a).setNext = .locked c

/-- The pointers of all processes are those of the ring `v` through `l`, but for what the changes
`op` owe.  Changes that are going on are known and touch different processes. -/
structure Fits (contact : A → A) (s : Net A) (op : A → Option (Change A)) (v : Pointers A)
    (l : List A) : Prop where
  linked : LinkedCycle v.next v.prev l
  mem : ∀ a, a ∈ l ↔ s.Member a
  under_way : ∀ a o, op a = some o → o.Under contact s v l a
  known : ∀ a, s.Joins a ∨ s.Leaves a → ∃ o, op a = some o
  apart : ∀ a b o o', op a = some o → op b = some o' → ∀ x, o.Touches a x → o'.Touches b x → a = b
  rest : ∀ x ∈ l, (∀ a o, op a = some o → ¬o.Touches a x) → s.ring.env x = ⟨v.next x, v.prev x⟩
  sound : ∀ a, (s.ring.join a).Sound
  leaving : ∀ a, s.leave a = .none ∨
    (s.ring.join a).caller ≠ .outside ∧ ∃ p n, Leave.Between p n (s.leave a)
  held : ∀ c x, s.ring.joinLock c = some x → s.Holds contact c x

/-! ## What a change does not see

Changes have disjoint footprints, and a step keeps to the footprint of its change. -/

variable {contact : A → A} {s s' : Net A} {op : A → Option (Change A)} {v v' : Pointers A}
  {l l' : List A} {a b p n x : A} {o : Change A}

theorem Leave.Between.call_ne {y : Leave A} (h : Leave.Between p n y) : y.call ≠ .staying := by
  obtain ⟨call, sp, sn⟩ := y
  rintro rfl
  exact h

/-- A change depends on what happens at the processes it touches only. -/
theorem Change.Under.congr (h : o.Under contact s v l a) (hjoin : s'.ring.join a = s.ring.join a)
    (hleave : s'.leave a = s.leave a) (henv : ∀ x, o.Touches a x → s'.ring.env x = s.ring.env x)
    (hnext : ∀ x, o.Touches a x → v'.next x = v.next x)
    (hprev : ∀ x, o.Touches a x → v'.prev x = v.prev x)
    (hl : ∀ x, o.Touches a x → x ∈ l → x ∈ l') : o.Under contact s' v' l' a := by
  cases o with
  | join p n =>
    have hn : s'.ring.env n = s.ring.env n := henv n (Or.inr (Or.inl rfl))
    exact
      { contact := h.contact
        staying := by rw [hleave]; exact h.staying
        joined := by rw [Ring.Joined, hjoin]; exact h.joined
        ne := h.ne
        next := (hnext a (Or.inl rfl)).trans h.next
        prev := (hprev a (Or.inl rfl)).trans h.prev
        dest := by rw [hjoin]; exact h.dest
        oldPrev := by rw [hjoin]; exact h.oldPrev
        old := by rw [hjoin, hn]; exact h.old
        env_next := fun x hx => by rw [hjoin, henv x hx, hnext x hx]; exact h.env_next x hx
        env_prev := fun x hx => by rw [hjoin, henv x hx, hprev x hx]; exact h.env_prev x hx }
  | leave p n =>
    have hp : (Change.leave p n).Touches a p := Or.inr (Or.inr rfl)
    exact
      { between := by rw [hleave]; exact h.between
        inactive := by rw [Joins, Ring.Joined, hjoin]; exact h.inactive
        started := by rw [hjoin]; exact h.started
        ne_next := h.ne_next
        ne_prev := h.ne_prev
        mem := hl p hp h.mem
        next := (hnext p hp).trans h.next
        env := (henv a (Or.inl rfl)).trans h.env
        env_next := fun x hx => by
          rw [hleave, henv x (Or.inr hx), hnext x (Or.inr hx)]
          exact h.env_next x hx
        env_prev := fun x hx => by
          rw [hleave, henv x (Or.inr hx), hprev x (Or.inr hx)]
          exact h.env_prev x hx }

/-- **A step of one change** that keeps to the processes this change touches. -/
theorem Fits.replace (h : Fits contact s op v l)
    (hjoin : ∀ b, b ≠ a → s'.ring.join b = s.ring.join b)
    (hleave : ∀ b, b ≠ a → s'.leave b = s.leave b)
    (henv : ∀ x, (∀ o, op a = some o → ¬o.Touches a x) → s'.ring.env x = s.ring.env x)
    (hmem : s'.Member a ↔ s.Member a) (hsound : ∀ b, (s'.ring.join b).Sound)
    (hleaving : s'.leave a = .none ∨
      (s'.ring.join a).caller ≠ .outside ∧ ∃ p n, Leave.Between p n (s'.leave a))
    (hheld : ∀ c x, s'.ring.joinLock c = some x → s'.Holds contact c x)
    (hknown : s'.Joins a ∨ s'.Leaves a → ∃ o, op a = some o)
    (hunder : ∀ o, op a = some o → o.Under contact s' v l a) : Fits contact s' op v l where
  linked := h.linked
  mem b := by
    rw [h.mem]
    by_cases hb : b = a
    · rw [hb, hmem]
    · rw [Member, Member, hjoin b hb, hleave b hb]
  under_way b o' hb := by
    by_cases hba : b = a
    · exact hba ▸ hunder o' (hba ▸ hb)
    · refine (h.under_way b o' hb).congr (hjoin b hba) (hleave b hba)
        (fun x hx => henv x fun o ha hax => hba (h.apart b a o' o hb ha x hx hax))
        (fun x hx => rfl) (fun x hx => rfl) fun x hx => id
  known b hb := by
    by_cases hba : b = a
    · exact hba ▸ hknown (hba ▸ hb)
    · rw [Joins, Ring.Joined, Leaves, hjoin b hba, hleave b hba] at hb
      exact h.known b hb
  apart := h.apart
  rest x hx hfree := by
    rw [henv x (hfree a)]
    exact h.rest x hx hfree
  sound := hsound
  leaving b := by
    by_cases hba : b = a
    · exact hba ▸ hleaving
    · rw [hjoin b hba, hleave b hba]
      exact h.leaving b
  held := hheld

/-! ## The moments of a join

Most moments write no pointer (`Joining.move`).  The three stores do, each at one process and as the
ring `v` has it (`Joining.write`).
-/

/-- A moment that writes only what the ring `v` has.  Where it leaves a pointer alone, it must not
say that the pointer is written. -/
theorem Joining.write {j : Join A} (h : Joining contact s v a p n) (hj : s'.ring.join a = j)
    (hleave : s'.leave = s.leave) (hjoined : j.handler ≠ .absent)
    (hdest : ∀ d ∈ j.handler.dest, d = p) (holdPrev : ∀ o ∈ j.handler.oldPrev, o = p)
    (hold : j.handler.hasStored = false → (s'.ring.env n).prev = p)
    (hnext : ∀ x, (s'.ring.env x).next = v.next x ∨ (s'.ring.env x).next = (s.ring.env x).next ∧
      (x = p → ∀ d, j.setNext = .handled d → (s.ring.join a).setNext = .handled d))
    (hprev : ∀ x, (s'.ring.env x).prev = v.prev x ∨ (s'.ring.env x).prev = (s.ring.env x).prev ∧
      (x = n → j.handler.hasStored = true → (s.ring.join a).handler.hasStored = true) ∧
      (x = a → j.caller = .joined → (s.ring.join a).caller = .joined)) :
    Joining contact s' v a p n where
  contact := h.contact
  staying := by rw [hleave]; exact h.staying
  joined := by rw [Ring.Joined, hj]; exact hjoined
  ne := h.ne
  next := h.next
  prev := h.prev
  dest := by rw [hj]; exact hdest
  oldPrev := by rw [hj]; exact holdPrev
  old := by rw [hj]; exact hold
  env_next x hx hp := by
    obtain heq | ⟨heq, hset⟩ := hnext x
    · exact heq
    · rw [heq]
      refine h.env_next x hx fun hxp => ?_
      obtain ⟨d, hd⟩ := hp hxp
      exact ⟨d, hset hxp d (hj ▸ hd)⟩
  env_prev x hx hn ha := by
    obtain heq | ⟨heq, hstored, hcaller⟩ := hprev x
    · exact heq
    · rw [heq]
      exact h.env_prev x hx (fun hxn => hstored hxn (hj ▸ hn hxn)) fun hxa =>
        hcaller hxa (hj ▸ ha hxa)

/-- A moment that writes no pointer. -/
theorem Joining.move {j : Join A} (h : Joining contact s v a p n) (hj : s'.ring.join a = j)
    (hleave : s'.leave = s.leave) (henv : s'.ring.env = s.ring.env)
    (hjoined : j.handler ≠ .absent) (hdest : ∀ d ∈ j.handler.dest, d = p)
    (holdPrev : ∀ o ∈ j.handler.oldPrev, o = p)
    (hstored : j.handler.hasStored = (s.ring.join a).handler.hasStored)
    (hset : ∀ d, j.setNext = .handled d → (s.ring.join a).setNext = .handled d)
    (hcaller : j.caller = .joined → (s.ring.join a).caller = .joined) :
    Joining contact s' v a p n := by
  refine h.write hj hleave hjoined hdest holdPrev ?_ (fun x => .inr ⟨by rw [henv], fun _ => hset⟩)
    fun x => .inr ⟨by rw [henv], fun _ hs => hstored ▸ hs, fun _ => hcaller⟩
  rw [hstored, henv]
  exact h.old

variable [DecidableEq A] {r : Ring A} {act : Action A}

/-- The member stores its new `prev`. -/
theorem Joining.store {dest oldPrev : A} {caller : JoinRing A} {sn : SetNext A}
    (h : Joining contact s v a p n) (hvn : v.prev n = a)
    (hj : s.ring.join a = ⟨caller, .responded dest oldPrev, sn⟩) :
    Joining contact
      (s.setRing ((s.ring.setJoin a ⟨caller, .stored dest oldPrev, sn⟩).setPrev n a)) v a p n := by
  have hdest := h.dest
  have holdPrev := h.oldPrev
  rw [hj] at hdest holdPrev
  refine h.write (j := ⟨caller, .stored dest oldPrev, sn⟩) ?_ rfl (by simp) hdest holdPrev
    (fun hstored => by simp [JoinHandler.hasStored] at hstored)
    (fun x => .inr ⟨Ring.setPrev_env_next .., fun _ d hd => by rw [hj]; exact hd⟩) fun x => ?_
  · rw [setRing_ring, Ring.setPrev_join, Ring.setJoin_self]
  · rw [setRing_ring, Ring.setPrev_env_prev]
    split
    · next hxn => exact .inl (by rw [hxn, hvn])
    · next hxn => exact .inr ⟨rfl, fun heq => absurd heq hxn, fun _ hd => by rw [hj]; exact hd⟩

/-- The joining process stores the answer, which is the old `prev` of the member. -/
theorem Joining.finish {prevAddr : A} {handler : JoinHandler A} {sn : SetNext A}
    (h : Joining contact s v a p n) (hsound : (s.ring.join a).Sound)
    (hj : s.ring.join a = ⟨.answered prevAddr, handler, sn⟩) :
    Joining contact
      (s.setRing ((s.ring.setJoin a ⟨.joined, handler, sn⟩).setPrev a prevAddr)) v a p n := by
  have hjoined := h.joined
  have hdest := h.dest
  have holdPrev := h.oldPrev
  have hold := h.old
  obtain ⟨o, ho⟩ : ∃ o, handler.oldPrev = some o := by
    rw [hj] at hsound
    cases handler <;> simp_all [Join.Sound, JoinHandler.oldPrev]
  have hanswer : prevAddr = p := by
    have hread : prevAddr = o := hsound.answered (by rw [hj]) (by rw [hj, ho])
    exact hread.trans (holdPrev o (by rw [hj]; exact ho))
  rw [Ring.Joined, hj] at hjoined
  rw [hj] at hdest holdPrev hold
  refine h.write (j := ⟨.joined, handler, sn⟩) ?_ rfl hjoined hdest holdPrev
    (fun hstored => ?_)
    (fun x => .inr ⟨Ring.setPrev_env_next .., fun _ d hd => by rw [hj]; exact hd⟩) fun x => ?_
  · rw [setRing_ring, Ring.setPrev_join, Ring.setJoin_self]
  · rw [setRing_ring, Ring.setPrev_env_prev, if_neg h.ne]
    exact hold hstored
  · rw [setRing_ring, Ring.setPrev_env_prev]
    split
    · next hxa => exact .inl (by rw [hxa, h.prev, hanswer])
    · next hxa => exact .inr ⟨rfl, fun _ hs => by rw [hj]; exact hs, fun heq => absurd heq hxa⟩

/-- The process before stores its new `next`. -/
theorem Joining.setNextStore {dest : A} {caller : JoinRing A} {handler : JoinHandler A}
    (h : Joining contact s v a p n) (hsound : (s.ring.join a).Sound) (hvp : v.next p = a)
    (hj : s.ring.join a = ⟨caller, handler, .locked dest⟩) :
    Joining contact (s.setRing (((s.ring.setJoin a ⟨caller, handler, .handled dest⟩).setNext
      dest a).setLock dest none)) v a p n := by
  have hjoined := h.joined
  have hdest := h.dest
  have holdPrev := h.oldPrev
  have hold := h.old
  have hsent : (s.ring.join a).setNext.dest = some dest := by rw [hj]; rfl
  have hto : dest = p := hdest dest (hsound.setNext_dest hsent)
  rw [Ring.Joined, hj] at hjoined
  rw [hj] at hdest holdPrev hold
  refine h.write (j := ⟨caller, handler, .handled dest⟩) ?_ rfl hjoined hdest holdPrev
    (fun hstored => ?_) (fun x => ?_) fun x => .inr ⟨?_, fun _ hs => by rw [hj]; exact hs,
      fun _ hd => by rw [hj]; exact hd⟩
  · rw [setRing_ring, Ring.setLock_join, Ring.setNext_join, Ring.setJoin_self]
  · rw [setRing_ring, Ring.setLock_env, Ring.setNext_env_prev]
    exact hold hstored
  · rw [setRing_ring, Ring.setLock_env, Ring.setNext_env_next]
    split
    · next hxd => exact .inl (by rw [hxd, hto, hvp])
    · next hxd => exact .inr ⟨rfl, fun hxp => absurd (hxp.trans hto.symm) hxd⟩
  · rw [setRing_ring, Ring.setLock_env, Ring.setNext_env_prev]
    rfl

/-- **A join goes on** and pays what it owes: the three stores write what the ring `v` has.
Everything else that it does writes into its own places only. -/
theorem Joining.step (h : Joining contact s v a p n) (hsound : (s.ring.join a).Sound)
    (hvp : v.next p = a) (hvn : v.prev n = a) (hs : Ring.Step n s.ring act r)
    (hact : act.joining = a) (hstart : act ≠ .joinRing a) :
    Joining contact (s.setRing r) v a p n := by
  have hjoined := h.joined
  have hdest := h.dest
  have holdPrev := h.oldPrev
  have hold := h.old
  cases hs with
  | joinRing hj => exact absurd (congrArg _ hact) hstart
  | @create b caller sn hj =>
    obtain rfl : b = a := hact
    refine h.move (Ring.setJoin_self _ _ _) rfl rfl (by simp) ?_ (by simp [JoinHandler.oldPrev])
      (by rw [hj]; rfl) (fun d hd => by rw [hj]; exact hd) fun hd => by rw [hj]; exact hd
    rintro d ⟨⟩
    exact hold (by rw [hj]; rfl)
  | @lock b dest caller sn hj hfree =>
    obtain rfl : b = a := hact
    exact h.move (Ring.setJoin_self _ _ _) rfl rfl (by simp) (by rw [hj] at hdest; exact hdest)
      (by simp [JoinHandler.oldPrev]) (by rw [hj]; rfl) (fun d hd => by rw [hj]; exact hd)
      fun hd => by rw [hj]; exact hd
  | @forward b dest caller sn hj =>
    obtain rfl : b = a := hact
    exact h.move (Ring.setJoin_self _ _ _) rfl rfl (by simp) (by rw [hj] at hdest; exact hdest)
      (by simp [JoinHandler.oldPrev]) (by rw [hj]; rfl) (fun d hd => by simp at hd)
      fun hd => by rw [hj]; exact hd
  | @name b dest caller sn hj =>
    obtain rfl : b = a := hact
    refine h.move (Ring.setJoin_self _ _ _) rfl rfl (by simp) (by rw [hj] at hdest; exact hdest)
      ?_ (by rw [hj]; rfl) (fun d hd => by rw [hj]; exact hd) fun hd => by rw [hj]; exact hd
    rintro o ⟨⟩
    exact hold (by rw [hj]; rfl)
  | @respond b dest oldPrev caller sn hj =>
    obtain rfl : b = a := hact
    exact h.move (Ring.setJoin_self _ _ _) rfl rfl (by simp) (by rw [hj] at hdest; exact hdest)
      (by rw [hj] at holdPrev; exact holdPrev) (by rw [hj]; rfl) (fun d hd => by rw [hj]; exact hd)
      fun hd => by simp at hd
  | @store b dest oldPrev caller sn hj =>
    obtain rfl : b = a := hact
    exact h.store hvn hj
  | @unlock b dest oldPrev caller sn hj =>
    obtain rfl : b = a := hact
    exact h.move (Ring.setJoin_self _ _ _) rfl rfl (by simp) (by rw [hj] at hdest; exact hdest)
      (by rw [hj] at holdPrev; exact holdPrev) (by rw [hj]; rfl) (fun d hd => by rw [hj]; exact hd)
      fun hd => by rw [hj]; exact hd
  | @finish b prevAddr handler sn hj =>
    obtain rfl : b = a := hact
    exact h.finish hsound hj
  | @setNextLock b dest caller handler hj hfree =>
    obtain rfl : b = a := hact
    rw [hj] at hdest holdPrev
    rw [Ring.Joined, hj] at hjoined
    exact h.move (Ring.setJoin_self _ _ _) rfl rfl hjoined hdest holdPrev (by rw [hj])
      (fun d hd => by simp at hd) fun hd => by rw [hj]; exact hd
  | @setNextStore b dest caller handler hj =>
    obtain rfl : b = a := hact
    exact h.setNextStore hsound hvp hj

/-! ## The moments of a leave

Only the two messages write pointers, one at each neighbour.
-/

omit [DecidableEq A] in
/-- A moment that writes no pointer and handles no message. -/
theorem Leaving.move {y : Leave A} (h : Leaving s v l a p n) (hy : s'.leave a = y)
    (hring : s'.ring = s.ring) (hbetween : Leave.Between p n y)
    (hset : y.setNext = .handled → (s.leave a).setNext = .handled)
    (hprev : y.setPrev = .handled → (s.leave a).setPrev = .handled) : Leaving s' v l a p n where
  between := hy ▸ hbetween
  inactive := by rw [Joins, hring]; exact h.inactive
  started := by rw [hring]; exact h.started
  ne_next := h.ne_next
  ne_prev := h.ne_prev
  mem := h.mem
  next := h.next
  env := by rw [hring]; exact h.env
  env_next x hx hp := by
    rw [hring]
    exact h.env_next x hx fun hxp => hset (hy ▸ hp hxp)
  env_prev x hx hn := by
    rw [hring]
    exact h.env_prev x hx fun hxn => hprev (hy ▸ hn hxn)

omit [DecidableEq A] in
theorem Leave.Between.setPrev_eq {call : LeaveCall A} {sn : Told A} {dest name : A}
    (h : Leave.Between p n ⟨call, .sent dest name, sn⟩) :
    (dest = n ∧ name = p) ∧ Leave.Between p n ⟨call, .handled, sn⟩ := by
  cases call <;> simp_all [Leave.Between]

omit [DecidableEq A] in
theorem Leave.Between.setNext_eq {call : LeaveCall A} {sp : Told A} {dest name : A}
    (h : Leave.Between p n ⟨call, sp, .sent dest name⟩) :
    (dest = p ∧ name = n) ∧ Leave.Between p n ⟨call, sp, .handled⟩ := by
  cases call <;> simp_all [Leave.Between]

/-- The process behind stores its new `prev`. -/
theorem Leaving.setPrev {call : LeaveCall A} {sn : Told A} {dest name : A}
    (h : Leaving s v l a p n) (hvn : v.prev n = p)
    (hl : s.leave a = ⟨call, .sent dest name, sn⟩) :
    Leaving ((s.setLeave a ⟨call, .handled, sn⟩).setRing (s.ring.setPrev dest name)) v l a p n := by
  have hbetween := h.between
  rw [hl] at hbetween
  obtain ⟨⟨rfl, rfl⟩, hhandled⟩ := hbetween.setPrev_eq
  refine ⟨?_, h.inactive, h.started, h.ne_next, h.ne_prev, h.mem, h.next, ?_, fun x hx hp => ?_,
    fun x hx hn => ?_⟩
  · rw [setRing_leave, setLeave_self]
    exact hhandled
  · exact (Function.update_of_ne h.ne_next.symm _ _).trans h.env
  · refine (Ring.setPrev_env_next ..).trans (h.env_next x hx fun hxp => ?_)
    have hset := hp hxp
    rw [setRing_leave, setLeave_self] at hset
    rw [hl]
    exact hset
  · refine (Ring.setPrev_env_prev ..).trans ?_
    split
    · next hxd => rw [hxd, hvn]
    · next hxd => exact h.env_prev x hx fun heq => absurd heq hxd

/-- The process before stores its new `next`. -/
theorem Leaving.setNext {call : LeaveCall A} {sp : Told A} {dest name : A}
    (h : Leaving s v l a p n) (hl : s.leave a = ⟨call, sp, .sent dest name⟩) :
    Leaving ((s.setLeave a ⟨call, sp, .handled⟩).setRing (s.ring.setNext dest name)) v l a p n := by
  have hbetween := h.between
  rw [hl] at hbetween
  obtain ⟨⟨rfl, rfl⟩, hhandled⟩ := hbetween.setNext_eq
  refine ⟨?_, h.inactive, h.started, h.ne_next, h.ne_prev, h.mem, h.next, ?_, fun x hx hp => ?_,
    fun x hx hn => ?_⟩
  · rw [setRing_leave, setLeave_self]
    exact hhandled
  · exact (Function.update_of_ne h.ne_prev.symm _ _).trans h.env
  · refine (Ring.setNext_env_next ..).trans ?_
    split
    · next hxd => rw [hxd, h.next]
    · next hxd => exact h.env_next x hx fun heq => absurd heq hxd
  · refine (Ring.setNext_env_prev ..).trans (h.env_prev x hx fun hxn => ?_)
    have hset := hn hxn
    rw [setRing_leave, setLeave_self] at hset
    rw [hl]
    exact hset

/-- **A leave goes on** and pays what it owes, with the two stores of its neighbours. -/
theorem Leaving.step {act : NetAction A} (h : Leaving s v l a p n) (hvn : v.prev n = p)
    (hs : Step contact s act s') (hact : act.leaving = some a) (hstart : act ≠ .nameNext a) :
    Leaving s' v l a p n := by
  have hbetween := h.between
  have henv := h.env
  cases hs with
  | join hplace halive hs => cases hact
  | nameNext hl hcaller => exact absurd (congrArg _ (Option.some.inj hact)) hstart
  | @namePrev b nextStr sp sn hl =>
    obtain rfl : b = a := Option.some.inj hact
    rw [hl] at hbetween
    refine h.move (setLeave_self _ _ _) rfl ?_ (by rw [hl]; exact id) (by rw [hl]; exact id)
    exact ⟨⟨hbetween.1, by rw [henv]⟩, hbetween.2⟩
  | @createNext b nextStr prevStr sp sn hl =>
    obtain rfl : b = a := Option.some.inj hact
    rw [hl] at hbetween
    refine h.move (setLeave_self _ _ _) rfl ?_ (by rw [hl]; exact id) (by rw [hl]; exact id)
    exact ⟨⟨hbetween.1.1, hbetween.1.2, by rw [henv]⟩, hbetween.2⟩
  | @createPrev b nextStr prevStr nextH sp sn hl =>
    obtain rfl : b = a := Option.some.inj hact
    rw [hl] at hbetween
    refine h.move (setLeave_self _ _ _) rfl ?_ (by rw [hl]; exact id) (by rw [hl]; exact id)
    exact ⟨⟨hbetween.1.1, hbetween.1.2.1, hbetween.1.2.2, by rw [henv]⟩, hbetween.2⟩
  | @forwardNext b nextStr prevStr nextH prevH sp sn hl =>
    obtain rfl : b = a := Option.some.inj hact
    rw [hl] at hbetween
    obtain ⟨⟨rfl, rfl, rfl, rfl⟩, -, rfl⟩ := hbetween
    exact h.move (setLeave_self _ _ _) rfl ⟨⟨rfl, rfl⟩, Or.inl rfl, rfl⟩ (by rw [hl]; exact id)
      fun hd => by cases hd
  | @forwardPrev b nextStr prevH sp sn hl =>
    obtain rfl : b = a := Option.some.inj hact
    rw [hl] at hbetween
    obtain ⟨⟨rfl, rfl⟩, hsp, -⟩ := hbetween
    exact h.move (setLeave_self _ _ _) rfl ⟨hsp, Or.inl rfl⟩ (fun hd => by cases hd)
      (by rw [hl]; exact id)
  | @exit b sp sn hl =>
    obtain rfl : b = a := Option.some.inj hact
    rw [hl] at hbetween
    exact h.move (setLeave_self _ _ _) rfl hbetween (by rw [hl]; exact id) (by rw [hl]; exact id)
  | @setPrev b dest name call sn hl halive hfree =>
    obtain rfl : b = a := Option.some.inj hact
    exact h.setPrev hvn hl
  | @setNext b dest name call sp hl halive hfree =>
    obtain rfl : b = a := Option.some.inj hact
    exact h.setNext hl

end Net
end CRing
end DistributedPrograms
