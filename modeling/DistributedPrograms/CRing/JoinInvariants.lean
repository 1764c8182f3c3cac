import DistributedPrograms.CRing.Join
import Mathlib.Data.List.Chain
import Mathlib.Data.List.Nodup

/-!
# What the joins of the C ring keep to

`n` is the member that everybody joins, and `p` was its `prev`.  At every moment of the joins

* the three places of one join fit together (`Join.Sound`), and the locks are with the handlers that
  stand between their lock and their unlock (`LockHeld`);
* `prev` leads from `n` through the processes that it has stored to `p` (`Order`), since a handler
  answers with the `prev` it replaces and has the lock from the one to the other (`Named`);
* what a process has been answered is its `prev` (`Answered`);
* the `next` of a process is what a `set_next` has told it, or else `n` (`Nexts`), and whom a
  `set_next` goes to has been stored by `n` or was its `prev` in the beginning (`Dests`).

None of this says that a `set_next` goes to the right process.  That is the condition of the next
module, and everything here holds without it.

The order in which the invariants are proved is the order in which they depend on each other.  The
handlers come first, since a step moves one of them by one call and all others stand still
(`handler_step`).  The locks follow, and under a lock `prev` stands still (`answers_step`), so the
answer of a join is settled once its handler has the lock.  `Inv` has them all, and `inv_run` says
that every moment of a run keeps to it.
-/

set_option autoImplicit false

namespace DistributedPrograms
namespace CRing

variable {A : Type}

/-- The three places of a join fit together: the caller waits as long as the handler has not
responded, and a `set_next` is there once it was forwarded. -/
def Join.Sound : Join A → Prop
  | ⟨caller, .absent, setNext⟩ => (caller = .outside ∨ caller = .joined) ∧ setNext = .unsent
  | ⟨caller, .entered, setNext⟩ => caller = .waiting ∧ setNext = .unsent
  | ⟨caller, .created _, setNext⟩ => caller = .waiting ∧ setNext = .unsent
  | ⟨caller, .locked _, setNext⟩ => caller = .waiting ∧ setNext = .unsent
  | ⟨caller, .forwarded dest, setNext⟩ => caller = .waiting ∧ setNext.dest = some dest
  | ⟨caller, .named dest _, setNext⟩ => caller = .waiting ∧ setNext.dest = some dest
  | ⟨caller, .responded dest oldPrev, setNext⟩ =>
    (caller = .answered oldPrev ∨ caller = .joined) ∧ setNext.dest = some dest
  | ⟨caller, .stored dest oldPrev, setNext⟩ =>
    (caller = .answered oldPrev ∨ caller = .joined) ∧ setNext.dest = some dest
  | ⟨caller, .returned dest oldPrev, setNext⟩ =>
    (caller = .answered oldPrev ∨ caller = .joined) ∧ setNext.dest = some dest

/-- A handler goes on by one call; `prev` is what it finds in `env`. -/
inductive JoinHandler.Next (prev : A) : JoinHandler A → JoinHandler A → Prop
  | enter : Next prev .absent .entered
  | create : Next prev .entered (.created prev)
  | lock {dest : A} : Next prev (.created dest) (.locked dest)
  | forward {dest : A} : Next prev (.locked dest) (.forwarded dest)
  | name {dest : A} : Next prev (.forwarded dest) (.named dest prev)
  | respond {dest oldPrev : A} : Next prev (.named dest oldPrev) (.responded dest oldPrev)
  | store {dest oldPrev : A} : Next prev (.responded dest oldPrev) (.stored dest oldPrev)
  | unlock {dest oldPrev : A} : Next prev (.stored dest oldPrev) (.returned dest oldPrev)

theorem Join.Sound.outside {j : Join A} (h : j.Sound) (hcaller : j.caller = .outside) :
    j.handler = .absent ∧ j.setNext = .unsent := by
  obtain ⟨caller, handler, sn⟩ := j
  cases handler <;> simp_all [Join.Sound]

theorem Join.Sound.unsent {caller : JoinRing A} {dest : A} {sn : SetNext A}
    (h : Join.Sound ⟨caller, .locked dest, sn⟩) : sn = .unsent := h.2

theorem Join.Sound.waiting {j : Join A} (h : j.Sound) {dest : A}
    (hhandler : j.handler = .forwarded dest) : j.caller = .waiting := by
  obtain ⟨caller, handler, sn⟩ := j
  obtain rfl : handler = .forwarded dest := hhandler
  exact h.1

theorem Join.Sound.answered {j : Join A} (h : j.Sound) {prevAddr oldPrev : A}
    (hcaller : j.caller = .answered prevAddr) (ho : j.handler.oldPrev = some oldPrev) :
    prevAddr = oldPrev := by
  obtain ⟨caller, handler, sn⟩ := j
  cases handler <;> simp_all [Join.Sound, JoinHandler.oldPrev]

theorem Join.Sound.setNext_dest {j : Join A} (h : j.Sound) {dest : A}
    (hdest : j.setNext.dest = some dest) : j.handler.dest = some dest := by
  obtain ⟨caller, handler, sn⟩ := j
  cases handler <;> simp_all [Join.Sound, SetNext.dest, JoinHandler.dest]

namespace JoinHandler

variable {prev d : A} {h h' : JoinHandler A}

/-- What a handler has in its locals it keeps. -/
theorem Next.dest (hnext : Next prev h h') (hd : h.dest = some d) : h'.dest = some d := by
  cases hnext <;> first | exact hd | contradiction

theorem Next.oldPrev (hnext : Next prev h h') (hd : h.oldPrev = some d) :
    h'.oldPrev = some d := by
  cases hnext <;> first | exact hd | contradiction

theorem Next.hasStored (hnext : Next prev h h') (hstored : h.hasStored = true) :
    h'.hasStored = true := by
  cases hnext <;> first | rfl | contradiction

end JoinHandler

namespace Ring

/-- `a` has called `join_ring` on `n`. -/
def Joined (s : Ring A) (a : A) : Prop := (s.join a).handler ≠ .absent

/-- Before the joins: `p` and `n` are members and linked, and nothing is under way. -/
structure Initial (n p : A) (s : Ring A) : Prop where
  prev : (s.env n).prev = p
  next : (s.env p).next = n
  free : ∀ a, s.joinLock a = none
  member : ∀ a, a = n ∨ a = p → (s.join a).caller = .joined
  idle : ∀ a, s.join a = ⟨.outside, .absent, .unsent⟩ ∨ s.join a = ⟨.joined, .absent, .unsent⟩

variable [DecidableEq A] {n p a b o : A} {s s' s₀ : Ring A} {act : Action A}
  {tr : List (Ring A)}

/-! ## One join at a time

A step replaces one join by its successor.  That its three places fit together does not depend on
the others. -/

/-- A step replaces one join. -/
theorem sound_setJoin {j j' : Join A} (h : ∀ a, (s.join a).Sound) (hj : s.join b = j)
    (hj' : j.Sound → j'.Sound) (a : A) : ((s.setJoin b j').join a).Sound := by
  rw [setJoin_join]
  split
  · exact hj' (hj ▸ h b)
  · exact h a

theorem sound_step (h : ∀ a, (s.join a).Sound) (hs : s.step n act = some s') :
    ∀ a, (s'.join a).Sound := by
  cases step_cases hs with
  | joinRing hj => exact sound_setJoin h hj fun _ => ⟨rfl, rfl⟩
  | create hj => exact sound_setJoin h hj id
  | lock hj _ => exact sound_setJoin h hj id
  | forward hj => exact sound_setJoin h hj fun hsound => ⟨hsound.1, rfl⟩
  | name hj => exact sound_setJoin h hj id
  | respond hj => exact sound_setJoin h hj fun hsound => ⟨Or.inl rfl, hsound.2⟩
  | store hj => exact sound_setJoin h hj id
  | unlock hj => exact sound_setJoin h hj id
  | @finish _ _ handler _ hj =>
    refine sound_setJoin h hj fun hsound => ?_
    cases handler <;> simp_all [Join.Sound]
  | @setNextLock _ _ _ handler hj _ =>
    refine sound_setJoin h hj fun hsound => ?_
    cases handler <;> simp_all [Join.Sound, SetNext.dest]
  | @setNextStore _ _ _ handler hj =>
    refine sound_setJoin h hj fun hsound => ?_
    cases handler <;> simp_all [Join.Sound, SetNext.dest]

/-! ## The locks

A step takes a lock, gives one back, or does neither.  There is a lemma for each of the three. -/

/-- A handler stands between the lock and the unlock of the `join_lock` of `c`. -/
def Holds (n : A) (s : Ring A) (c : A) : Holder A → Prop
  | .join a => c = n ∧ (s.join a).handler.hasLock = true
  | .setNext a => (s.join a).setNext = .locked c

/-- The locks are with the handlers that stand between their lock and their unlock, and with nobody
else. -/
def LockHeld (n : A) (s : Ring A) : Prop := ∀ c x, s.joinLock c = some x ↔ s.Holds n c x

omit [DecidableEq A] in
theorem LockHeld.unique (h : LockHeld n s) (ha : (s.join a).handler.hasLock = true)
    (hb : (s.join b).handler.hasLock = true) : a = b := by
  have hheld := (h n (.join a)).2 ⟨rfl, ha⟩
  rw [(h n (.join b)).2 ⟨rfl, hb⟩] at hheld
  simpa using hheld.symm

theorem LockHeld.take {c : A} {x : Holder A} (h : LockHeld n s) (hfree : s.joinLock c = none)
    (hlock : s'.joinLock = Function.update s.joinLock c (some x))
    (hholds : ∀ d y, s'.Holds n d y ↔ s.Holds n d y ∨ d = c ∧ y = x) : LockHeld n s' := by
  intro d y
  rw [hlock, hholds, ← h, Function.update_apply]
  by_cases hd : d = c
  · simp [hd, hfree, eq_comm]
  · simp [hd]

theorem LockHeld.giveBack {c : A} {x : Holder A} (h : LockHeld n s) (hheld : s.Holds n c x)
    (hlock : s'.joinLock = Function.update s.joinLock c none)
    (hholds : ∀ d y, s'.Holds n d y ↔ s.Holds n d y ∧ ¬(d = c ∧ y = x)) : LockHeld n s' := by
  intro d y
  rw [hlock, hholds, ← h, Function.update_apply]
  by_cases hd : d = c
  · simp [hd, (h c x).2 hheld, eq_comm]
  · simp [hd]

/-- A step of one join that neither takes nor gives back a lock. -/
theorem LockHeld.keep {j k : Join A} (h : LockHeld n s) (hj : s.join a = j)
    (hjoin : s'.join = Function.update s.join a k) (hlock : s'.joinLock = s.joinLock)
    (hhandler : k.handler.hasLock = j.handler.hasLock)
    (hnext : ∀ c, k.setNext = .locked c ↔ j.setNext = .locked c) : LockHeld n s' := by
  rintro c (b | b)
  · rw [hlock, h, Holds, Holds, hjoin, Function.update_apply]
    split
    · next hb => rw [hb, hj, hhandler]
    · rfl
  · rw [hlock, h, Holds, Holds, hjoin, Function.update_apply]
    split
    · next hb => rw [hb, hj, hnext]
    · rfl

theorem lockHeld_step (h : LockHeld n s) (hsound : ∀ a, (s.join a).Sound)
    (hs : s.step n act = some s') : LockHeld n s' := by
  cases step_cases hs with
  | @joinRing a handler sn hj =>
    obtain ⟨rfl, rfl⟩ := (hj ▸ hsound a).outside rfl
    exact h.keep hj rfl rfl rfl fun _ => Iff.rfl
  | create hj => exact h.keep hj rfl rfl rfl fun _ => Iff.rfl
  | @lock a dest caller sn hj hfree =>
    refine h.take hfree rfl ?_
    rintro d (b | b)
    · simp only [Holds, setLock_join, setJoin_join]
      grind [JoinHandler.hasLock]
    · simp only [Holds, setLock_join, setJoin_join]
      grind
  | @forward a _ _ sn hj =>
    have hunsent := hsound a
    rw [hj] at hunsent
    refine h.keep hj rfl rfl rfl fun c => ?_
    simp [hunsent.2]
  | name hj => exact h.keep hj rfl rfl rfl fun _ => Iff.rfl
  | respond hj => exact h.keep hj rfl rfl rfl fun _ => Iff.rfl
  | store hj => exact h.keep hj rfl rfl rfl fun _ => Iff.rfl
  | @unlock a dest oldPrev caller sn hj =>
    refine h.giveBack (x := .join a) ⟨rfl, by rw [hj]; rfl⟩ rfl ?_
    rintro d (b | b)
    · simp only [Holds, setLock_join, setJoin_join]
      grind [JoinHandler.hasLock]
    · simp only [Holds, setLock_join, setJoin_join]
      grind
  | finish hj => exact h.keep hj rfl rfl rfl fun _ => Iff.rfl
  | @setNextLock a dest caller handler hj hfree =>
    refine h.take hfree rfl ?_
    rintro d (b | b)
    · simp only [Holds, setLock_join, setJoin_join]
      grind
    · simp only [Holds, setLock_join, setJoin_join]
      grind
  | @setNextStore a dest caller handler hj =>
    have hheld : s.Holds n dest (.setNext a) := by
      rw [Holds, hj]
    refine h.giveBack hheld rfl ?_
    rintro d (b | b)
    · simp only [Holds, setLock_join, setJoin_join, setNext_join]
      grind
    · simp only [Holds, setLock_join, setJoin_join, setNext_join]
      grind

/-! ## What a step does to the handlers

Each handler goes on in its own order, and the other two places of its join follow it. -/

theorem handler_setJoin {j k : Join A} {prev : A} (hj : s.join b = j)
    (hk : k.handler = j.handler ∨ JoinHandler.Next prev j.handler k.handler) (a : A) :
    ((s.setJoin b k).join a).handler = (s.join a).handler ∨
      JoinHandler.Next prev (s.join a).handler ((s.setJoin b k).join a).handler := by
  rw [setJoin_join]
  split
  · next hab => rwa [hab, hj]
  · exact Or.inl rfl

/-- In a step every handler stands still or goes on by one call. -/
theorem handler_step (hsound : ∀ a, (s.join a).Sound) (hs : s.step n act = some s') :
    ∀ a, (s'.join a).handler = (s.join a).handler ∨
      JoinHandler.Next (s.env n).prev (s.join a).handler (s'.join a).handler := by
  cases step_cases hs with
  | @joinRing b handler sn hj =>
    obtain ⟨rfl, -⟩ := (hj ▸ hsound b).outside rfl
    exact handler_setJoin hj (Or.inr .enter)
  | create hj => exact handler_setJoin hj (Or.inr .create)
  | lock hj _ => exact handler_setJoin hj (Or.inr .lock)
  | forward hj => exact handler_setJoin hj (Or.inr .forward)
  | name hj => exact handler_setJoin hj (Or.inr .name)
  | respond hj => exact handler_setJoin hj (Or.inr .respond)
  | store hj => exact handler_setJoin hj (Or.inr .store)
  | unlock hj => exact handler_setJoin hj (Or.inr .unlock)
  | finish hj => exact handler_setJoin hj (Or.inl rfl)
  | setNextLock hj _ => exact handler_setJoin hj (Or.inl rfl)
  | setNextStore hj => exact handler_setJoin hj (Or.inl rfl)

theorem dest_step (hsound : ∀ a, (s.join a).Sound) (hs : s.step n act = some s') {d : A}
    (h : (s.join a).handler.dest = some d) : (s'.join a).handler.dest = some d := by
  rcases handler_step hsound hs a with heq | hnext
  · rw [heq, h]
  · exact hnext.dest h

theorem oldPrev_step (hsound : ∀ a, (s.join a).Sound) (hs : s.step n act = some s')
    (h : (s.join a).handler.oldPrev = some o) : (s'.join a).handler.oldPrev = some o := by
  rcases handler_step hsound hs a with heq | hnext
  · rw [heq, h]
  · exact hnext.oldPrev h

theorem hasStored_step (hsound : ∀ a, (s.join a).Sound) (hs : s.step n act = some s')
    (h : (s.join a).handler.hasStored = true) : (s'.join a).handler.hasStored = true := by
  rcases handler_step hsound hs a with heq | hnext
  · rw [heq, h]
  · exact hnext.hasStored h

/-- A process that is in the ring from the start. -/
def Member (s : Ring A) (a : A) : Prop := s.join a = ⟨.joined, .absent, .unsent⟩

theorem member_setJoin {j k : Join A} (h : s.Member a) (hj : s.join b = j)
    (hne : j ≠ ⟨.joined, .absent, .unsent⟩) : (s.setJoin b k).Member a := by
  rw [Member, setJoin_join, if_neg, h]
  rintro rfl
  exact hne (hj.symm.trans h)

theorem member_step (h : s.Member a) (hs : s.step n act = some s') : s'.Member a := by
  cases step_cases hs with
  | lock hj _ => exact member_setJoin h hj (by simp)
  | setNextLock hj _ => exact member_setJoin h hj (by simp)
  | _ hj => exact member_setJoin h hj (by simp)

/-! ## `prev`

Only the handlers of `join` at `n` write the `prev` of `n`, and they do so under its lock. -/

/-- The `prev` of `n` is replaced by a handler that has responded, and in no other way. -/
theorem prev_step (hsound : ∀ a, (s.join a).Sound) (hn : s.Member n)
    (hs : s.step n act = some s') :
    ((s'.env n).prev = (s.env n).prev ∧
      ∀ a, (s'.join a).handler.hasStored = (s.join a).handler.hasStored) ∨
    ∃ a dest o, (s.join a).handler = .responded dest o ∧ (s'.join a).handler = .stored dest o ∧
      (∀ b, b ≠ a → s'.join b = s.join b) ∧ (s'.env n).prev = a := by
  have hset : ∀ {b : A} {j k : Join A}, s.join b = j →
      k.handler.hasStored = j.handler.hasStored → ∀ a,
      ((s.setJoin b k).join a).handler.hasStored = (s.join a).handler.hasStored := by
    intro b j k hj hk a
    rw [setJoin_join]
    split
    · next hab => rw [hab, hj, hk]
    · rfl
  cases step_cases hs with
  | @joinRing b handler sn hj =>
    obtain ⟨rfl, -⟩ := (hj ▸ hsound b).outside rfl
    exact Or.inl ⟨by simp, hset hj rfl⟩
  | @store a dest o caller sn hj =>
    refine Or.inr ⟨a, dest, o, by rw [hj], by simp, fun b hb => by simp [hb], by simp⟩
  | @finish a prevAddr handler sn hj =>
    refine Or.inl ⟨?_, hset hj rfl⟩
    rw [setPrev_env_prev, if_neg]
    · rfl
    · rintro rfl
      rw [hn] at hj
      simp at hj
  | lock hj _ => exact Or.inl ⟨rfl, hset hj rfl⟩
  | setNextLock hj _ => exact Or.inl ⟨rfl, hset hj rfl⟩
  | setNextStore hj => exact Or.inl ⟨by simp, hset hj rfl⟩
  | _ hj => exact Or.inl ⟨rfl, hset hj rfl⟩

/-- A handler between its reading and its store has read what is still there, since it has the lock
and only such handlers store. -/
def Named (n : A) (s : Ring A) : Prop :=
  ∀ a o, (s.join a).handler.oldPrev = some o → (s.join a).handler.hasStored = false →
    (s.env n).prev = o

omit [DecidableEq A] in
theorem hasLock_of_oldPrev (h : (s.join a).handler.oldPrev = some o)
    (hstored : (s.join a).handler.hasStored = false) : (s.join a).handler.hasLock = true := by
  cases hh : (s.join a).handler <;>
    simp_all [JoinHandler.oldPrev, JoinHandler.hasStored, JoinHandler.hasLock]

theorem named_step (h : Named n s) (hsound : ∀ a, (s.join a).Sound) (hlock : LockHeld n s)
    (hn : s.Member n) (hs : s.step n act = some s') : Named n s' := by
  intro a o ho hstored
  rcases prev_step hsound hn hs with ⟨hprev, -⟩ | ⟨b, dest, o', hold, hnew, hother, -⟩
  · rw [hprev]
    rcases handler_step hsound hs a with heq | hnext
    · rw [heq] at ho hstored
      exact h a o ho hstored
    · generalize hx : (s.join a).handler = x at hnext
      generalize (s'.join a).handler = y at hnext ho hstored
      cases hnext with
      | name => exact Option.some.inj ho
      | respond => exact h a o (by rw [hx]; exact ho) (by rw [hx]; rfl)
      | _ => contradiction
  · by_cases hab : a = b
    · subst hab
      rw [hnew] at hstored
      contradiction
    · rw [hother a hab] at ho hstored
      exact absurd (hlock.unique (hasLock_of_oldPrev ho hstored) (by rw [hold]; rfl)) hab

/-- `l` are the processes that `n` has stored, the latest first, each with the one before it as its
answer.  The last one has been answered `p`. -/
structure Order (n p : A) (s : Ring A) (l : List A) : Prop where
  nodup : l.Nodup
  mem : ∀ a, a ∈ l ↔ (s.join a).handler.hasStored = true
  chain : (l ++ [p]).IsChain fun a b => (s.join a).handler.oldPrev = some b
  head : (l ++ [p]).head? = some (s.env n).prev

theorem order_step {l : List A} (h : Order n p s l) (hnamed : Named n s)
    (hsound : ∀ a, (s.join a).Sound) (hn : s.Member n) (hs : s.step n act = some s') :
    ∃ l, Order n p s' l := by
  have hchain : (l ++ [p]).IsChain fun a b => (s'.join a).handler.oldPrev = some b :=
    h.chain.imp fun a b hab => oldPrev_step hsound hs hab
  rcases prev_step hsound hn hs with ⟨hprev, hstored⟩ | ⟨a, dest, o, hold, hnew, hother, hprev⟩
  · exact ⟨l, h.nodup, fun a => by rw [hstored, h.mem], hchain, by rw [hprev, h.head]⟩
  · have hnot : a ∉ l := fun ha => by
      have hstored := (h.mem a).1 ha
      rw [hold] at hstored
      contradiction
    refine ⟨a :: l, List.nodup_cons.2 ⟨hnot, h.nodup⟩, fun b => ?_, ?_, by rw [hprev]; rfl⟩
    · by_cases hb : b = a
      · simp [hb, hnew, JoinHandler.hasStored]
      · simp [hb, hother b hb, h.mem]
    · refine List.IsChain.cons hchain fun b hb => ?_
      have hread := hnamed a o (by rw [hold]; rfl) (by rw [hold]; rfl)
      obtain rfl : (s.env n).prev = b := Option.some.inj (h.head.symm.trans hb)
      rw [hnew]
      exact congrArg some hread.symm

/-- What a process has been answered is its `prev`. -/
def Answered (s : Ring A) : Prop :=
  ∀ a o, (s.join a).handler.oldPrev = some o → (s.join a).caller = .joined → (s.env a).prev = o

/-- The handler of `a` has taken `o` for its answer, or is to find it in `env` under the lock. -/
def Answers (n : A) (s : Ring A) (a o : A) : Prop :=
  (s.join a).handler.oldPrev = some o ∨
    (s.join a).handler.oldPrev = none ∧ (s.join a).handler.hasLock = true ∧ (s.env n).prev = o

/-- **Under the lock `prev` stands still**, so the answer is settled once the lock is taken, before
it is read. -/
theorem answers_step (h : s.Answers n a o) (hsound : ∀ a, (s.join a).Sound) (hlock : LockHeld n s)
    (hn : s.Member n) (hs : s.step n act = some s') : s'.Answers n a o := by
  rcases h with hread | ⟨hnone, hhas, hprev⟩
  · exact Or.inl (oldPrev_step hsound hs hread)
  · have hstays : (s'.env n).prev = o := by
      rcases prev_step hsound hn hs with ⟨hsame, -⟩ | ⟨b, dest, o', hold, -⟩
      · exact hsame.trans hprev
      · obtain rfl := hlock.unique hhas (by rw [hold]; rfl)
        rw [hold] at hnone
        contradiction
    rcases handler_step hsound hs a with heq | hnext
    · exact Or.inr ⟨by rw [heq, hnone], by rw [heq, hhas], hstays⟩
    · rw [Answers]
      generalize (s.join a).handler = x at hnext hnone hhas
      generalize (s'.join a).handler = y at hnext
      cases hnext with
      | forward => exact Or.inr ⟨rfl, rfl, hstays⟩
      | name => exact Or.inl (congrArg some hprev)
      | _ => contradiction

/-- Whoever has joined after a step had done so before, or is handed its answer. -/
theorem caller_step (hs : s.step n act = some s') (h : (s'.join a).caller = .joined) :
    (s.join a).caller = .joined ∧ (a ≠ n → (s'.env a).prev = (s.env a).prev) ∨
    (s.join a).caller = .answered (s'.env a).prev ∧ (s'.join a).handler = (s.join a).handler := by
  cases step_cases hs <;>
    simp only [setJoin_join, setNext_join, setPrev_join, setLock_join, setJoin_env, setLock_env,
      setNext_env_prev, setPrev_env_prev] at h ⊢ <;> grind

theorem answered_step (h : s.Answered) (hsound : ∀ a, (s.join a).Sound) (hn : s.Member n)
    (hs : s.step n act = some s') : s'.Answered := by
  intro a o ho hcaller
  rcases caller_step hs hcaller with ⟨hjoined, hprev⟩ | ⟨hanswered, hsame⟩
  · have hne : a ≠ n := by
      rintro rfl
      rw [member_step hn hs] at ho
      contradiction
    rw [hprev hne]
    refine h a o ?_ hjoined
    rcases handler_step hsound hs a with heq | hnext
    · rwa [heq] at ho
    · generalize hx : (s.join a).handler = x at hnext
      generalize (s'.join a).handler = y at hnext ho
      cases hnext with
      | name =>
        rw [(hsound a).waiting hx] at hjoined
        contradiction
      | respond => exact ho
      | store => exact ho
      | unlock => exact ho
      | _ => contradiction
  · rw [hsame] at ho
    exact (hsound a).answered hanswered ho

/-! ## `next`

The `next` of a process is written by the handlers of `set_next`, which nobody orders: the last one
counts. -/

/-- Whom a `set_next` goes to has been stored by `n`, or was its `prev` in the beginning. -/
def Dests (p : A) (s : Ring A) : Prop :=
  ∀ a d, (s.join a).handler.dest = some d → d = p ∨ (s.join d).handler.hasStored = true

/-- The `next` of a process of the ring is the last that a `set_next` has told it, or else `n`, as
it is for one who has just joined. -/
def Nexts (n p : A) (s : Ring A) : Prop :=
  ∀ b, (∃ a, (s.join a).setNext = .handled b ∧ (s.env b).next = a) ∨
    (∀ a, (s.join a).setNext ≠ .handled b) ∧ (b = p ∨ s.Joined b → (s.env b).next = n)

theorem next_step (hsound : ∀ a, (s.join a).Sound) (hs : s.step n act = some s') (b : A) :
    (s'.env b).next = (s.env b).next ∧ (s'.Joined b → s.Joined b) ∧
      (∀ a, (s'.join a).setNext = .handled b ↔ (s.join a).setNext = .handled b) ∨
    (∃ a, (s'.join a).setNext = .handled b ∧ (s'.env b).next = a) ∨
    (s.join b).caller = .outside ∧ (s'.env b).next = n ∧
      (∀ a, (s'.join a).setNext = .handled b ↔ (s.join a).setNext = .handled b) := by
  cases step_cases hs with
  | @joinRing a handler sn hj =>
    obtain ⟨rfl, rfl⟩ := (hj ▸ hsound a).outside rfl
    clear hs hsound
    simp only [setJoin_join, setNext_join, setNext_env_next, setJoin_env, Joined]
    grind
  | @forward a dest caller sn hj =>
    obtain rfl := (hj ▸ hsound a).unsent
    clear hs hsound
    simp only [setJoin_join, setJoin_env, Joined]
    grind
  | _ =>
    clear hs hsound
    simp only [setJoin_join, setNext_join, setPrev_join, setLock_join, setJoin_env, setLock_env,
      setNext_env_next, setPrev_env_next, Joined]
    grind

theorem dests_step (h : Dests p s) (hprev : (s.env n).prev = p ∨
    (s.join (s.env n).prev).handler.hasStored = true) (hsound : ∀ a, (s.join a).Sound)
    (hs : s.step n act = some s') : Dests p s' := by
  have hkeep : ∀ {d}, d = p ∨ (s.join d).handler.hasStored = true →
      d = p ∨ (s'.join d).handler.hasStored = true :=
    fun hd => hd.imp_right (hasStored_step hsound hs)
  intro a d hd
  rcases handler_step hsound hs a with heq | hnext
  · exact hkeep (h a d (heq ▸ hd))
  · generalize hx : (s.join a).handler = x at hnext
    generalize (s'.join a).handler = y at hnext hd
    cases hnext with
    | enter => contradiction
    | create =>
      obtain rfl := Option.some.inj hd
      exact hkeep hprev
    | _ => exact hkeep (h a d (hx ▸ hd))

theorem nexts_step (h : Nexts n p s) (hdests : Dests p s) (hp : s.Member p)
    (hsound : ∀ a, (s.join a).Sound) (hs : s.step n act = some s') : Nexts n p s' := by
  intro b
  rcases next_step hsound hs b with ⟨hsame, hjoined, hhandled⟩ | hnew | ⟨houtside, hnext, hhandled⟩
  · simp only [hsame, hhandled]
    exact (h b).imp_right fun hnone => ⟨by simpa [hhandled] using hnone.1,
      fun hb => hnone.2 (hb.imp_right hjoined)⟩
  · exact Or.inl hnew
  · -- nobody sends `set_next` to a process outside
    refine Or.inr ⟨fun a ha => ?_, fun _ => hnext⟩
    have hset := (hhandled a).1 ha
    have hdest := (hsound a).setNext_dest (by rw [hset]; rfl)
    rcases hdests a b hdest with rfl | hstored
    · rw [hp] at houtside
      contradiction
    · rw [((hsound b).outside houtside).1] at hstored
      contradiction

/-! ## Runs

All invariants together, along a run. -/

/-- What every moment of the joins keeps to.  Nothing in it depends on whether handles are fresh. -/
structure Inv (n p : A) (s : Ring A) : Prop where
  sound : ∀ a, (s.join a).Sound
  lockHeld : LockHeld n s
  memberN : s.Member n
  memberP : s.Member p
  named : Named n s
  answered : s.Answered
  order : ∃ l, Order n p s l
  dests : Dests p s
  nexts : Nexts n p s

omit [DecidableEq A] in
theorem Initial.inv (h : Initial n p s₀) : Inv n p s₀ := by
  have habsent : ∀ a, (s₀.join a).handler = .absent := fun a => by
    rcases h.idle a with ha | ha <;> rw [ha]
  have hunsent : ∀ a, (s₀.join a).setNext = .unsent := fun a => by
    rcases h.idle a with ha | ha <;> rw [ha]
  have hmember : ∀ a, a = n ∨ a = p → s₀.Member a := fun a ha => by
    rcases h.idle a with hidle | hidle
    · have hjoined := h.member a ha
      rw [hidle] at hjoined
      contradiction
    · exact hidle
  refine ⟨fun a => ?_, ?_, hmember n (Or.inl rfl), hmember p (Or.inr rfl), ?_, ?_, ⟨[], ?_⟩, ?_, ?_⟩
  · rcases h.idle a with ha | ha
    · rw [ha]
      exact ⟨Or.inl rfl, rfl⟩
    · rw [ha]
      exact ⟨Or.inr rfl, rfl⟩
  · rintro c (a | a)
    · simp [h.free, Holds, habsent, JoinHandler.hasLock]
    · simp [h.free, Holds, hunsent]
  · intro a o ho
    simp [habsent, JoinHandler.oldPrev] at ho
  · intro a o ho
    simp [habsent, JoinHandler.oldPrev] at ho
  · exact ⟨List.nodup_nil, fun a => by simp [habsent, JoinHandler.hasStored],
      List.isChain_singleton p, congrArg some h.prev.symm⟩
  · intro a d hd
    simp [habsent, JoinHandler.dest] at hd
  · refine fun b => Or.inr ⟨fun a => by simp [hunsent], ?_⟩
    rintro (rfl | hjoined)
    · exact h.next
    · exact absurd (habsent b) hjoined

omit [DecidableEq A] in
/-- The `prev` of `n` is `p`, or a process that has joined. -/
theorem Order.prev {l : List A} (h : Order n p s l) :
    (s.env n).prev = p ∨ (s.join (s.env n).prev).handler.hasStored = true := by
  have hmem := List.mem_of_mem_head? h.head
  rcases List.mem_append.1 hmem with hl | hp
  · exact Or.inr ((h.mem _).1 hl)
  · exact Or.inl (List.mem_singleton.1 hp)

theorem Inv.step (h : Inv n p s) (hs : s.step n act = some s') : Inv n p s' := by
  obtain ⟨l, hl⟩ := h.order
  exact
    { sound := sound_step h.sound hs
      lockHeld := lockHeld_step h.lockHeld h.sound hs
      memberN := member_step h.memberN hs
      memberP := member_step h.memberP hs
      named := named_step h.named h.sound h.lockHeld h.memberN hs
      answered := answered_step h.answered h.sound h.memberN hs
      order := order_step hl h.named h.sound h.memberN hs
      dests := dests_step h.dests hl.prev h.sound hs
      nexts := nexts_step h.nexts h.dests h.memberP h.sound hs }

theorem inv_run {C : List (Ring A) → Action A → Prop} (h₀ : Initial n p s₀)
    (h : Run (Ring.step n) C s₀ tr) : ∀ s ∈ tr, Inv n p s :=
  h.forall_mem h₀.inv fun _ _ _ _ _ _ hi hs => hi.step hs

end Ring
end CRing
end DistributedPrograms
