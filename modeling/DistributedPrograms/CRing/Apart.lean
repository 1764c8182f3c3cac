import DistributedPrograms.CRing.Changes

/-!
# Changes of the C ring that keep apart

A join changes four pointers around the place where the new process comes in, a leave changes two
around the one that goes.  No lock covers a whole change, and two that meet at a process can break
the ring: two joins at one member do (`Ring.not_linked`), and so does a leave next to a leave, for
then `set_next` goes to a process that has exited.

Here nothing starts where something is still going on (`Apart`).  In any other respect the changes
may overlap as they like, any number of them.  Then at every moment there is a ring, doubly linked
through all who have started to join and not started to leave, and the pointers of everybody who
takes part in no change are those of this ring (`linked_through_changes`); and nobody waits for ever
(`changes_go_on`).

The ring is the one in which every change has happened at once when it started.  What the pointers
of a process lack of it is what the change at this process still owes (`Joining`, `Leaving`).
-/

set_option autoImplicit false

namespace DistributedPrograms
namespace CRing
namespace Net

variable {A : Type} [DecidableEq A] {contact : A → A} {s s' : Net A}
  {op : A → Option (Change A)} {v v' : Pointers A} {l l' : List A} {a b p n x : A} {o : Change A}
  {r : Ring A} {act : Action A}

/-! ## Any moment but a start

A moment belongs to a change that is going on.  It writes what `CRing.Changes` says, and it leaves
the records of all other changes alone, which is what has to be shown here. -/

/-- A moment of a join, but for its start, belongs to a join that is going on. -/
theorem joins_of_step (hsound : (s.ring.join act.joining).Sound) (hs : Ring.Step n s.ring act r)
    (hstart : act ≠ .joinRing act.joining) : s.Joins act.joining := by
  cases hs with
  | joinRing hj => exact absurd rfl hstart
  | @finish b prevAddr handler sn hj =>
    rw [Action.joining, hj] at hsound
    rw [Joins, Ring.Joined, Action.joining, hj]
    cases handler <;> simp_all [Join.Sound, Join.Done]
  | @setNextLock b dest caller handler hj hfree =>
    rw [Action.joining, hj] at hsound
    rw [Joins, Ring.Joined, Action.joining, hj]
    cases handler <;> simp_all [Join.Sound, Join.Done]
  | @setNextStore b dest caller handler hj =>
    rw [Action.joining, hj] at hsound
    rw [Joins, Ring.Joined, Action.joining, hj]
    cases handler <;> simp_all [Join.Sound, Join.Done]
  | lock hj hfree =>
    rw [Joins, Ring.Joined, Action.joining, hj]
    simp [Join.Done]
  | _ hj =>
    rw [Joins, Ring.Joined, Action.joining, hj]
    simp [Join.Done]

/-- A moment that neither takes nor gives back a lock. -/
theorem held_keep {j k : Join A} (hheld : ∀ c x, s.ring.joinLock c = some x → s.Holds contact c x)
    (hj : s.ring.join a = j) (hjoin : r.join = Function.update s.ring.join a k)
    (hlock : r.joinLock = s.ring.joinLock) (hhandler : k.handler.hasLock = j.handler.hasLock)
    (hnext : ∀ c, j.setNext = .locked c → k.setNext = .locked c) :
    ∀ c x, r.joinLock c = some x → (s.setRing r).Holds contact c x := by
  intro c x hx
  have hold := hheld c x (hlock ▸ hx)
  cases x with
  | join b =>
    rw [Holds, setRing_ring, hjoin, Function.update_apply]
    split
    · next hb => rwa [Holds, hb, hj, ← hhandler, ← hb] at hold
    · exact hold
  | setNext b =>
    rw [Holds, setRing_ring, hjoin, Function.update_apply]
    split
    · next hb =>
      rw [Holds, hb, hj] at hold
      exact hnext c hold
    · exact hold

theorem held_take {c : A} {y : Holder A}
    (hheld : ∀ c x, s.ring.joinLock c = some x → s.Holds contact c x)
    (hlock : r.joinLock = Function.update s.ring.joinLock c (some y))
    (hy : (s.setRing r).Holds contact c y)
    (hold : ∀ d x, s.Holds contact d x → (s.setRing r).Holds contact d x) :
    ∀ d x, r.joinLock d = some x → (s.setRing r).Holds contact d x := by
  intro d x hx
  rw [hlock, Function.update_apply] at hx
  split at hx
  · next hd =>
    obtain ⟨⟩ := hx
    exact hd ▸ hy
  · exact hold d x (hheld d x hx)

theorem held_giveBack {c : A}
    (hheld : ∀ c x, s.ring.joinLock c = some x → s.Holds contact c x)
    (hlock : r.joinLock = Function.update s.ring.joinLock c none)
    (hold : ∀ d x, d ≠ c → s.Holds contact d x → (s.setRing r).Holds contact d x) :
    ∀ d x, r.joinLock d = some x → (s.setRing r).Holds contact d x := by
  intro d x hx
  rw [hlock, Function.update_apply] at hx
  split at hx
  · contradiction
  · next hd => exact hold d x hd (hheld d x hx)

/-- The locks stay with the handlers that stand between their lock and their unlock. -/
theorem held_join (act : Action A) (hheld : ∀ c x, s.ring.joinLock c = some x → s.Holds contact c x)
    (hsound : ∀ b, (s.ring.join b).Sound)
    (hs : Ring.Step (contact act.joining) s.ring act r) :
    ∀ c x, r.joinLock c = some x → (s.setRing r).Holds contact c x := by
  cases hs with
  | @joinRing a handler sn hj =>
    obtain ⟨rfl, rfl⟩ := (hj ▸ hsound a).outside rfl
    exact held_keep hheld hj rfl rfl rfl fun c => id
  | create hj => exact held_keep hheld hj rfl rfl rfl fun c => id
  | @lock a dest caller sn hj hfree =>
    refine held_take hheld rfl ⟨rfl, by simp [JoinHandler.hasLock]⟩ ?_
    rintro d (b | b) hold
    · simp only [Holds, setRing_ring, Ring.setLock_join, Ring.setJoin_join] at hold ⊢
      grind [JoinHandler.hasLock]
    · simp only [Holds, setRing_ring, Ring.setLock_join, Ring.setJoin_join] at hold ⊢
      grind
  | @forward a dest caller sn hj =>
    have hunsent := hsound a
    rw [hj] at hunsent
    refine held_keep hheld hj rfl rfl rfl fun c hc => ?_
    rw [hunsent.2] at hc
    contradiction
  | name hj => exact held_keep hheld hj rfl rfl rfl fun c => id
  | respond hj => exact held_keep hheld hj rfl rfl rfl fun c => id
  | store hj => exact held_keep hheld hj rfl rfl rfl fun c => id
  | @unlock a dest oldPrev caller sn hj =>
    refine held_giveBack (c := contact a) hheld rfl ?_
    rintro d (b | b) hd hold
    · simp only [Holds, setRing_ring, Ring.setLock_join, Ring.setJoin_join] at hold ⊢
      grind
    · simp only [Holds, setRing_ring, Ring.setLock_join, Ring.setJoin_join] at hold ⊢
      grind
  | finish hj => exact held_keep hheld hj rfl rfl rfl fun c => id
  | @setNextLock a dest caller handler hj hfree =>
    refine held_take hheld rfl (by simp [Holds]) ?_
    rintro d (b | b) hold
    · simp only [Holds, setRing_ring, Ring.setLock_join, Ring.setJoin_join] at hold ⊢
      grind
    · simp only [Holds, setRing_ring, Ring.setLock_join, Ring.setJoin_join] at hold ⊢
      grind
  | @setNextStore a dest caller handler hj =>
    refine held_giveBack (c := dest) hheld rfl ?_
    rintro d (b | b) hd hold
    · simp only [Holds, setRing_ring, Ring.setLock_join, Ring.setNext_join, Ring.setJoin_join]
        at hold ⊢
      grind
    · simp only [Holds, setRing_ring, Ring.setLock_join, Ring.setNext_join, Ring.setJoin_join]
        at hold ⊢
      grind

/-- A join changes its own record only. -/
theorem join_of_ne (hs : Ring.Step n s.ring act r) (hb : b ≠ act.joining) :
    r.join b = s.ring.join b := by
  cases hs with
  | lock hj hfree => exact (Ring.setJoin_join ..).trans (if_neg hb)
  | setNextLock hj hfree => exact (Ring.setJoin_join ..).trans (if_neg hb)
  | _ hj => exact (Ring.setJoin_join ..).trans (if_neg hb)

omit [DecidableEq A] in
theorem Joining.dest_eq (h : Joining contact s v a p n) (hsound : (s.ring.join a).Sound) {d : A}
    (hd : (s.ring.join a).setNext.dest = some d) : d = p :=
  h.dest d (hsound.setNext_dest hd)

/-- And it writes pointers of the processes it touches. -/
theorem Joining.env_of_not (h : Joining contact s v a p n) (hsound : (s.ring.join a).Sound)
    (hs : Ring.Step n s.ring act r) (hact : act.joining = a)
    (hx : ¬(Change.join p n).Touches a x) : r.env x = s.ring.env x := by
  obtain ⟨hxa, hxn, hxp⟩ : x ≠ a ∧ x ≠ n ∧ x ≠ p := by
    simpa [Change.Touches, Change.next, Change.prev] using hx
  cases hs with
  | @joinRing b handler sn hj =>
    obtain rfl : b = a := hact
    exact Function.update_of_ne hxa _ _
  | store hj => exact Function.update_of_ne hxn _ _
  | @finish b prevAddr handler sn hj =>
    obtain rfl : b = a := hact
    exact Function.update_of_ne hxa _ _
  | @setNextStore b dest caller handler hj =>
    obtain rfl : b = a := hact
    obtain rfl := h.dest_eq (d := dest) hsound (by rw [hj]; rfl)
    exact Function.update_of_ne hxp _ _
  | _ => rfl

omit [DecidableEq A] in
theorem joined_caller (hsound : (s.ring.join a).Sound) (h : s.ring.Joined a) :
    (s.ring.join a).caller ≠ .outside := fun hcaller => h (hsound.outside hcaller).1

/-- **A join that is going on** keeps the ring. -/
theorem Fits.join (h : Fits contact s op v l)
    (hs : s.ring.step (contact act.joining) act = some r)
    (hstart : act ≠ .joinRing act.joining) : Fits contact (s.setRing r) op v l := by
  have hsounds := Ring.sound_step h.sound hs
  have hstep := Ring.step_cases hs
  have hjoins : s.Joins act.joining := joins_of_step (h.sound _) hstep hstart
  have hheld := held_join act h.held h.sound hstep
  generalize ha : act.joining = a at hstep hstart hjoins
  obtain ⟨o, ho⟩ := h.known a (Or.inl hjoins)
  have hunder := h.under_way a o ho
  cases o with
  | leave p n => exact absurd hjoins hunder.inactive
  | join p n =>
    have hjoining : Joining contact s v a p n := hunder
    have hmem : a ∈ l := (h.mem a).2 ⟨joined_caller (h.sound a) hjoining.joined, hjoining.staying⟩
    rw [hjoining.contact] at hstep
    have hnew : Joining contact (s.setRing r) v a p n :=
      hjoining.step (h.sound a) (hjoining.prev ▸ h.linked.next_prev hmem)
        (hjoining.next ▸ h.linked.prev_next a hmem) hstep ha hstart
    have hcaller : (r.join a).caller ≠ .outside := joined_caller (hsounds a) hnew.joined
    refine h.replace (a := a) (fun b hb => join_of_ne hstep (ha ▸ hb)) (fun b hb => rfl)
      (fun x hx => hjoining.env_of_not (h.sound a) hstep ha (hx _ ho)) ?_ hsounds
      ((h.leaving a).imp_right fun hl => ⟨hcaller, hl.2⟩) hheld (fun _ => ⟨_, ho⟩) ?_
    · exact ⟨fun _ => (h.mem a).1 hmem, fun _ => ⟨hcaller, hjoining.staying⟩⟩
    · intro o' ho'
      obtain rfl : Change.join p n = o' := Option.some.inj (ho.symm.trans ho')
      exact hnew

/-- A leave changes its own record only, and pointers of its neighbours. -/
theorem Leaving.frame {act : NetAction A} (h : Leaving s v l a p n) (hs : Step contact s act s')
    (hact : act.leaving = some a) (hx : ¬(Change.leave p n).Touches a x) :
    s'.ring.env x = s.ring.env x := by
  obtain ⟨-, hxn, hxp⟩ : x ≠ a ∧ x ≠ n ∧ x ≠ p := by
    simpa [Change.Touches, Change.next, Change.prev] using hx
  have hbetween := h.between
  cases hs with
  | join hplace halive hs => cases hact
  | @setPrev b dest name call sn hl halive hfree =>
    obtain rfl : b = a := Option.some.inj hact
    rw [hl] at hbetween
    obtain ⟨⟨rfl, rfl⟩, -⟩ := hbetween.setPrev_eq
    exact Function.update_of_ne hxn _ _
  | @setNext b dest name call sp hl halive hfree =>
    obtain rfl : b = a := Option.some.inj hact
    rw [hl] at hbetween
    obtain ⟨⟨rfl, rfl⟩, -⟩ := hbetween.setNext_eq
    exact Function.update_of_ne hxp _ _
  | _ => rfl

/-- What a moment of a leave leaves alone. -/
theorem leave_frame {act : NetAction A} (hs : Step contact s act s')
    (hact : act.leaving = some a) : s'.ring.join = s.ring.join ∧
      s'.ring.joinLock = s.ring.joinLock ∧ ∀ b, b ≠ a → s'.leave b = s.leave b := by
  cases hs with
  | join hplace halive hs => cases hact
  | setPrev hl halive hfree =>
    obtain rfl := Option.some.inj hact
    exact ⟨rfl, rfl, fun b hb => (setLeave_leave ..).trans (if_neg hb)⟩
  | setNext hl halive hfree =>
    obtain rfl := Option.some.inj hact
    exact ⟨rfl, rfl, fun b hb => (setLeave_leave ..).trans (if_neg hb)⟩
  | nameNext hl hcaller =>
    obtain rfl := Option.some.inj hact
    exact ⟨rfl, rfl, fun b hb => (setLeave_leave ..).trans (if_neg hb)⟩
  | _ hl =>
    obtain rfl := Option.some.inj hact
    exact ⟨rfl, rfl, fun b hb => (setLeave_leave ..).trans (if_neg hb)⟩

/-- The moments of a leave, but for its start, come behind its start. -/
theorem begun_of_step {act : NetAction A}
    (hleaving : ∀ a, s.leave a = .none ∨
      (s.ring.join a).caller ≠ .outside ∧ ∃ p n, Leave.Between p n (s.leave a))
    (hs : Step contact s act s') (hact : act.leaving = some a) (hstart : act ≠ .nameNext a) :
    (s.leave a).call ≠ .staying := by
  rcases hleaving a with hnone | ⟨-, p, n, hbetween⟩
  · cases hs with
    | join hplace halive hs => cases hact
    | nameNext hl hcaller => exact absurd (congrArg _ (Option.some.inj hact)) hstart
    | setPrev hl halive hfree =>
      obtain rfl := Option.some.inj hact
      rw [hnone] at hl
      cases hl
    | setNext hl halive hfree =>
      obtain rfl := Option.some.inj hact
      rw [hnone] at hl
      cases hl
    | _ hl =>
      obtain rfl := Option.some.inj hact
      rw [hnone] at hl
      cases hl
  · exact hbetween.call_ne

/-- A leave whose neighbours have both been told has nothing left to do but to exit. -/
theorem exit_of_handled {act : NetAction A} (hs : Step contact s act s')
    (hact : act.leaving = some a) (hbetween : Leave.Between p n (s.leave a))
    (hsp : (s.leave a).setPrev = .handled) (hsn : (s.leave a).setNext = .handled) :
    s' = s.setLeave a ⟨.exited, .handled, .handled⟩ := by
  cases hs with
  | join hplace halive hs => cases hact
  | @exit b sp sn hl =>
    obtain rfl : b = a := Option.some.inj hact
    rw [hl] at hsp hsn
    obtain rfl : sp = .handled := hsp
    obtain rfl : sn = .handled := hsn
    rfl
  | nameNext hl hcaller =>
    obtain rfl := Option.some.inj hact
    rw [hl] at hbetween
    exact hbetween.elim
  | setPrev hl halive hfree =>
    obtain rfl := Option.some.inj hact
    rw [hl] at hsp
    contradiction
  | setNext hl halive hfree =>
    obtain rfl := Option.some.inj hact
    rw [hl] at hsn
    contradiction
  | _ hl =>
    obtain rfl := Option.some.inj hact
    rw [hl] at hbetween hsn
    obtain rfl := hbetween.2.2
    contradiction

/-- **A leave that is going on** keeps the ring, and so does the exit of one that is over. -/
theorem Fits.leave {act : NetAction A} (h : Fits contact s op v l) (hs : Step contact s act s')
    (hact : act.leaving = some a) (hstart : act ≠ .nameNext a)
    (hbegun : (s.leave a).call ≠ .staying) : Fits contact s' op v l := by
  obtain ⟨hjoin, hlock, hleave⟩ := leave_frame hs hact
  obtain ⟨hcaller, p, n, hbetween⟩ :=
    (h.leaving a).resolve_left fun hnone => hbegun (by rw [hnone]; rfl)
  have hheld : ∀ c x, s'.ring.joinLock c = some x → s'.Holds contact c x := by
    intro c x hx
    have hold := h.held c x (hlock ▸ hx)
    cases x with
    | join b => rw [Holds, hjoin]; exact hold
    | setNext b => rw [Holds, hjoin]; exact hold
  have hmem : (s'.leave a).call ≠ .staying → (s'.Member a ↔ s.Member a) := fun hcall =>
    iff_of_false (fun hmem => hcall hmem.2) fun hmem => hbegun hmem.2
  cases ho : op a with
  | none =>
    have hover : (s.leave a).setPrev = .handled ∧ (s.leave a).setNext = .handled := by
      by_contra hnot
      obtain ⟨o, ho'⟩ := h.known a (Or.inr ⟨hbegun, hnot⟩)
      rw [ho] at ho'
      contradiction
    obtain rfl := exit_of_handled hs hact hbetween hover.1 hover.2
    have hself : (s.setLeave a ⟨.exited, .handled, .handled⟩).leave a =
      ⟨.exited, .handled, .handled⟩ := setLeave_self ..
    refine h.replace (a := a) (fun b _ => rfl) hleave (fun x _ => rfl) (hmem (by simp))
      h.sound (Or.inr ⟨hcaller, p, n, by rw [hself]; exact ⟨Or.inr rfl, Or.inr rfl⟩⟩) hheld ?_ ?_
    · rintro (hjoins | hleaves)
      · exact h.known a (Or.inl hjoins)
      · exact absurd ⟨by rw [hself], by rw [hself]⟩ hleaves.2
    · intro o ho'
      rw [ho] at ho'
      contradiction
  | some o =>
    have hunder := h.under_way a o ho
    cases o with
    | join p n => exact absurd hunder.staying hbegun
    | leave p n =>
      have hleaving : Leaving s v l a p n := hunder
      have hnew : Leaving s' v l a p n :=
        hleaving.step (by rw [← hleaving.next, h.linked.prev_next p hleaving.mem]) hs hact hstart
      refine h.replace (a := a) (fun b _ => by rw [hjoin]) hleave
        (fun x hx => hleaving.frame hs hact (hx _ ho)) (hmem hnew.between.call_ne)
        (fun b => by rw [hjoin]; exact h.sound b)
        (Or.inr ⟨by rw [hjoin]; exact hcaller, p, n, hnew.between⟩) hheld (fun _ => ⟨_, ho⟩) ?_
      intro o ho'
      obtain rfl : Change.leave p n = o := Option.some.inj (ho.symm.trans ho')
      exact hnew

/-! ## Starts

When a change starts, the ring gets or loses a process, although no pointer of another process has
been written. Since nobody nearby is busy, the new change owes exactly the difference. -/

omit [DecidableEq A] in
/-- A change that is over can be forgotten. -/
theorem Fits.forget (h : Fits contact s op v l) : ∃ op', Fits contact s op' v l ∧
    ∀ a o, op' a = some o → s.Joins a ∨ s.Leaves a := by
  classical
  let op' : A → Option (Change A) := fun a => if s.Joins a ∨ s.Leaves a then op a else none
  have hop : ∀ {a o}, op' a = some o → op a = some o ∧ (s.Joins a ∨ s.Leaves a) := by
    intro a o ho
    by_cases hactive : s.Joins a ∨ s.Leaves a
    · exact ⟨(if_pos hactive).symm.trans ho, hactive⟩
    · exact absurd ((if_neg hactive).symm.trans ho) (by simp)
  refine ⟨op', { h with
    under_way := fun a o ho => h.under_way a o (hop ho).1
    known := fun a ha => ?_
    apart := fun a b o o' ho ho' => h.apart a b o o' (hop ho).1 (hop ho').1
    rest := fun x hx hfree => ?_ }, fun a o ho => (hop ho).2⟩
  · obtain ⟨o, ho⟩ := h.known a ha
    exact ⟨o, (if_pos ha).trans ho⟩
  · by_cases htouched : ∃ a o, op a = some o ∧ o.Touches a x
    · obtain ⟨a, o, ho, htouch⟩ := htouched
      have hover : ¬(s.Joins a ∨ s.Leaves a) := fun hactive =>
        hfree a o ((if_pos hactive).trans ho) htouch
      have hunder := h.under_way a o ho
      have henv : (s.ring.env x).next = v.next x ∧ (s.ring.env x).prev = v.prev x := by
        cases o with
        | join p n =>
          obtain ⟨hcaller, ⟨dest, oldPrev, hhandler⟩, hset⟩ := Ring.done_iff.1
            (not_not.1 fun hnot => hover (Or.inl ⟨hunder.joined, hnot⟩))
          exact ⟨hunder.env_next x htouch fun _ => hset,
            hunder.env_prev x htouch (fun _ => by rw [hhandler]; rfl) fun _ => hcaller⟩
        | leave p n =>
          have hcall := hunder.between.call_ne
          obtain ⟨hsp, hsn⟩ := not_not.1 fun hnot => hover (Or.inr ⟨hcall, hnot⟩)
          have hx : x = n ∨ x = p := by
            refine htouch.resolve_left ?_
            rintro rfl
            exact hcall ((h.mem x).1 hx).2
          exact ⟨hunder.env_next x hx fun _ => hsn, hunder.env_prev x hx fun _ => hsp⟩
      rw [← henv.1, ← henv.2]
    · exact h.rest x hx fun a o ho htouch => htouched ⟨a, o, ho, htouch⟩

omit [DecidableEq A] in
/-- Whom a change touches, it keeps busy. -/
theorem Change.Under.busy (h : o.Under contact s v l a) (hactive : s.Joins a ∨ s.Leaves a)
    (hx : o.Touches a x) : s.Busy contact x := by
  cases o with
  | join p n =>
    have hjoining : Joining contact s v a p n := h
    have hjoins : s.Joins a := hactive.resolve_right fun hleaves => hleaves.1 hjoining.staying
    refine ⟨a, Or.inl ⟨hjoins, ?_⟩⟩
    rcases hx with rfl | rfl | rfl
    · exact Or.inl rfl
    · exact Or.inr (Or.inl hjoining.contact.symm)
    · refine Or.inr (Or.inr ?_)
      have hjoined := hjoining.joined
      have hold := hjoining.old
      have hdest := hjoining.dest
      rw [Ring.Joined] at hjoined
      rw [target, hjoining.contact]
      generalize (s.ring.join a).handler = handler at hjoined hold hdest
      cases handler with
      | absent => exact absurd rfl hjoined
      | entered => exact congrArg _ (hold rfl)
      | _ => exact congrArg _ (hdest _ rfl)
  | leave p n =>
    have hleaving : Leaving s v l a p n := h
    have hleaves : s.Leaves a := hactive.resolve_left hleaving.inactive
    refine ⟨a, Or.inr ⟨hleaves, ?_⟩⟩
    rw [hleaving.env]
    exact hx

omit [DecidableEq A] in
/-- A change touches processes of the ring and the one that changes. -/
theorem Fits.touched (h : Fits contact s op v l) (ho : op a = some o) (hx : o.Touches a x) :
    x = a ∨ x ∈ l := by
  have hunder := h.under_way a o ho
  cases o with
  | join p n =>
    have hjoining : Joining contact s v a p n := hunder
    have ha : a ∈ l := (h.mem a).2 ⟨joined_caller (h.sound a) hjoining.joined, hjoining.staying⟩
    rcases hx with rfl | rfl | rfl
    · exact Or.inl rfl
    · exact Or.inr (hjoining.next ▸ h.linked.cycle.mem ha)
    · exact Or.inr (hjoining.prev ▸ h.linked.prev_mem ha)
  | leave p n =>
    have hleaving : Leaving s v l a p n := hunder
    rcases hx with rfl | rfl | rfl
    · exact Or.inl rfl
    · exact Or.inr (hleaving.next ▸ h.linked.cycle.mem hleaving.mem)
    · exact Or.inr hleaving.mem

/-- **A change starts** that touches nothing which another one touches.  So whatever the others
still owe is owed to other processes. -/
theorem Fits.start (h : Fits contact s op v l) (hidle : ∀ o', op a ≠ some o')
    (hapart : ∀ b o', op b = some o' → ∀ x, o'.Touches b x → ¬o.Touches a x)
    (hlinked : LinkedCycle v'.next v'.prev l') (hmem : ∀ b, b ∈ l' ↔ s'.Member b)
    (hunder : o.Under contact s' v' l' a) (hjoin : ∀ b, b ≠ a → s'.ring.join b = s.ring.join b)
    (hleave : ∀ b, b ≠ a → s'.leave b = s.leave b)
    (henv : ∀ x, ¬o.Touches a x → s'.ring.env x = s.ring.env x)
    (hv : ∀ x, ¬o.Touches a x → v'.next x = v.next x ∧ v'.prev x = v.prev x)
    (hl : ∀ x, ¬o.Touches a x → (x ∈ l' ↔ x ∈ l)) (hsound : ∀ b, (s'.ring.join b).Sound)
    (hleaving : s'.leave a = .none ∨
      (s'.ring.join a).caller ≠ .outside ∧ ∃ p n, Leave.Between p n (s'.leave a))
    (hheld : ∀ c x, s'.ring.joinLock c = some x → s'.Holds contact c x) :
    Fits contact s' (Function.update op a (some o)) v' l' where
  linked := hlinked
  mem := hmem
  under_way b o' hb := by
    rw [Function.update_apply] at hb
    split at hb
    · next hba =>
      obtain ⟨⟩ := hb
      exact hba ▸ hunder
    · next hba =>
      have hfar := hapart b o' hb
      exact (h.under_way b o' hb).congr (hjoin b hba) (hleave b hba)
        (fun x hx => henv x (hfar x hx)) (fun x hx => (hv x (hfar x hx)).1)
        (fun x hx => (hv x (hfar x hx)).2)
        fun x hx => (hl x (hfar x hx)).2
  known b hb := by
    rw [Function.update_apply]
    split
    · exact ⟨_, rfl⟩
    · next hba =>
      rw [Joins, Ring.Joined, Leaves, hjoin b hba, hleave b hba] at hb
      exact h.known b hb
  apart b c o₁ o₂ hb hc x hx hx' := by
    rw [Function.update_apply] at hb hc
    split at hb
    · next hba =>
      split at hc
      · next hca => rw [hba, hca]
      · obtain ⟨⟩ := hb
        exact absurd (hba ▸ hx) (hapart c o₂ hc x hx')
    · split at hc
      · next hca =>
        obtain ⟨⟩ := hc
        exact absurd (hca ▸ hx') (hapart b o₁ hb x hx)
      · exact h.apart b c o₁ o₂ hb hc x hx hx'
  rest x hx hfree := by
    have hfar : ¬o.Touches a x := hfree a o (Function.update_self ..)
    rw [henv x hfar, (hv x hfar).1, (hv x hfar).2]
    refine h.rest x ((hl x hfar).1 hx) fun b o' ho hb => ?_
    have hba : b ≠ a := fun hba => hidle o' (hba ▸ ho)
    exact hfree b o' ((Function.update_of_ne hba _ _).trans ho) hb
  sound := hsound
  leaving b := by
    by_cases hba : b = a
    · exact hba ▸ hleaving
    · rw [hjoin b hba, hleave b hba]
      exact h.leaving b
  held := hheld

/-- The ring with `a` between `p` and `n`.  This is the ring as it is to be, from the moment the
join starts, whatever has been stored yet. -/
def Pointers.insert (v : Pointers A) (a p n : A) : Pointers A :=
  ⟨Function.update (Function.update v.next p a) a n, Function.update (Function.update v.prev n a) a p⟩

/-- The ring without what is between `p` and `n`, from the moment the leave starts. -/
def Pointers.remove (v : Pointers A) (p n : A) : Pointers A :=
  ⟨Function.update v.next p n, Function.update v.prev n p⟩

theorem Pointers.insert_next_self : (v.insert a p n).next a = n := Function.update_self ..

theorem Pointers.insert_prev_self : (v.insert a p n).prev a = p := Function.update_self ..

theorem Pointers.insert_next_of_ne (ha : x ≠ a) (hp : x ≠ p) :
    (v.insert a p n).next x = v.next x :=
  (Function.update_of_ne ha _ _).trans (Function.update_of_ne hp _ _)

theorem Pointers.insert_prev_of_ne (ha : x ≠ a) (hn : x ≠ n) :
    (v.insert a p n).prev x = v.prev x :=
  (Function.update_of_ne ha _ _).trans (Function.update_of_ne hn _ _)

theorem Pointers.remove_next_of_ne (hp : x ≠ p) : (v.remove p n).next x = v.next x :=
  Function.update_of_ne hp ..

theorem Pointers.remove_prev_of_ne (hn : x ≠ n) : (v.remove p n).prev x = v.prev x :=
  Function.update_of_ne hn ..

omit [DecidableEq A] in
theorem Change.not_touches : ¬o.Touches a x ↔ x ≠ a ∧ x ≠ o.next ∧ x ≠ o.prev := by
  rw [Change.Touches, not_or, not_or]

omit [DecidableEq A] in
/-- A process where nothing is going on is touched by no change. -/
theorem Fits.not_touched (h : Fits contact s op v l)
    (hactive : ∀ b o, op b = some o → s.Joins b ∨ s.Leaves b) (hx : ¬s.Busy contact x) :
    ∀ b o, op b = some o → ¬o.Touches b x :=
  fun b o ho htouch => hx ((h.under_way b o ho).busy (hactive b o ho) htouch)

/-- At the start of a join the new process has its `next`, and nobody knows of it. -/
theorem Joining.start (hcontact : contact a = n) (hstaying : (s.leave a).call = .staying)
    (hna : n ≠ a) (hn : s.ring.env n = ⟨v.next n, p⟩) (hp : (s.ring.env p).prev = v.prev p) :
    Joining contact (s.setRing ((s.ring.setJoin a ⟨.waiting, .entered, .unsent⟩).setNext a n))
      (v.insert a p n) a p n where
  contact := hcontact
  staying := hstaying
  joined := by simp [Ring.Joined]
  ne := hna
  next := Pointers.insert_next_self
  prev := Pointers.insert_prev_self
  dest := by simp [JoinHandler.dest]
  oldPrev := by simp [JoinHandler.oldPrev]
  old _ := by
    rw [setRing_ring, Ring.setNext_env_prev]
    exact congrArg Env.prev hn
  env_next x hx hset := by
    rw [setRing_ring, Ring.setNext_env_next]
    split
    · next hxa => rw [hxa, Pointers.insert_next_self]
    · next hxa =>
      have hxp : x ≠ p := fun hxp => by
        obtain ⟨d, hd⟩ := hset hxp
        simp at hd
      obtain rfl : x = n := (hx.resolve_left hxa).resolve_right hxp
      rw [Pointers.insert_next_of_ne hxa hxp]
      exact congrArg Env.next hn
  env_prev x hx hstored hcaller := by
    rw [setRing_ring, Ring.setNext_env_prev]
    have hxa : x ≠ a := fun hxa => by simpa using hcaller hxa
    have hxn : x ≠ n := fun hxn => by simpa [JoinHandler.hasStored] using hstored hxn
    obtain rfl : x = p := (hx.resolve_left hxa).resolve_left hxn
    rw [Pointers.insert_prev_of_ne hxa hxn]
    exact hp

/-- **A join starts** where nothing else is going on: the new process comes into the ring, between
its contact and the `prev` of this one. -/
theorem Fits.startJoin (h : Fits contact s op v l)
    (hactive : ∀ b o, op b = some o → s.Joins b ∨ s.Leaves b)
    (hs : s.ring.step (contact a) (.joinRing a) = some r) (hn : s.Member (contact a))
    (hfreeN : ¬s.Busy contact (contact a))
    (hfreeP : ¬s.Busy contact (s.ring.env (contact a)).prev) :
    ∃ op' v' l', Fits contact (s.setRing r) op' v' l' := by
  have hsounds := Ring.sound_step h.sound hs
  have hstep := Ring.step_cases hs
  have hheld := held_join (.joinRing a) h.held h.sound hstep
  have hnl : contact a ∈ l := (h.mem _).2 hn
  have henvN := h.rest _ hnl (h.not_touched hactive hfreeN)
  generalize hcontact : contact a = n at *
  generalize hprev : v.prev n = p at *
  have hpl : p ∈ l := hprev ▸ h.linked.prev_mem hnl
  rw [henvN] at hfreeP
  have henvP := h.rest _ hpl (h.not_touched hactive hfreeP)
  cases hstep with
  | @joinRing _ handler sn hj =>
  have houtside : (s.ring.join a).caller = .outside := by rw [hj]
  have hal : a ∉ l := fun ha => ((h.mem a).1 ha).1 houtside
  have hleave : s.leave a = .none := (h.leaving a).resolve_right fun hl => hl.1 houtside
  have hidle : ∀ o, op a ≠ some o := fun o ho => by
    rcases hactive a o ho with hjoins | hleaves
    · exact joined_caller (h.sound a) hjoins.1 houtside
    · exact hleaves.1 (by rw [hleave]; rfl)
  have hapart : ∀ b o, op b = some o → ∀ x, o.Touches b x → ¬(Change.join p n).Touches a x := by
    rintro b o ho x hx (rfl | rfl | rfl)
    · rcases h.touched ho hx with rfl | hx
      · exact hidle o ho
      · exact hal hx
    · exact h.not_touched hactive hfreeN b o ho hx
    · exact h.not_touched hactive hfreeP b o ho hx
  obtain ⟨l', hlinked, hmem⟩ := h.linked.insert hnl hal
  rw [hprev] at hlinked
  have hna : n ≠ a := fun heq => hal (heq ▸ hnl)
  have hjoining := Joining.start (v := v) hcontact (by rw [hleave]; rfl) hna henvN
    (congrArg Env.prev henvP)
  have hjoin : ∀ b, b ≠ a → ((s.ring.setJoin a ⟨.waiting, .entered, .unsent⟩).setNext a n).join b =
      s.ring.join b := fun b hb => by
    rw [Ring.setNext_join, Ring.setJoin_join, if_neg hb]
  refine ⟨_, v.insert a p n, l', h.start hidle hapart hlinked (fun b => ?_) hjoining hjoin
    (fun b _ => rfl) (fun x hx => ?_) (fun x hx => ?_) (fun x hx => ?_) hsounds (Or.inl hleave)
    hheld⟩
  · rw [hmem, h.mem, Member, Member, setRing_leave]
    by_cases hb : b = a
    · subst hb
      have hcaller : ((s.setRing ((s.ring.setJoin b ⟨.waiting, .entered, .unsent⟩).setNext
          b n)).ring.join b).caller = .waiting := by
        rw [setRing_ring, Ring.setNext_join, Ring.setJoin_self]
      exact iff_of_true (Or.inl rfl) ⟨by rw [hcaller]; simp, by rw [hleave]; rfl⟩
    · rw [setRing_ring, hjoin b hb]
      exact or_iff_right hb
  · exact Function.update_of_ne (Change.not_touches.1 hx).1 ..
  · obtain ⟨hxa, hxn, hxp⟩ := Change.not_touches.1 hx
    exact ⟨Pointers.insert_next_of_ne hxa hxp, Pointers.insert_prev_of_ne hxa hxn⟩
  · rw [hmem]
    exact or_iff_right (Change.not_touches.1 hx).1

/-- At the start of a leave the process knows its `next`, and nobody has been told. -/
theorem Leaving.start (hinactive : ¬s.Joins a) (hcaller : (s.ring.join a).caller ≠ .outside)
    (hna : n ≠ a) (hpa : p ≠ a) (hpl : p ∈ l) (ha : s.ring.env a = ⟨n, p⟩)
    (hn : (s.ring.env n).next = v.next n) (hp : (s.ring.env p).prev = v.prev p) :
    Leaving (s.setLeave a ⟨.nextNamed n, .unsent, .unsent⟩) (v.remove p n) (l.filter (· ≠ a))
      a p n where
  between := by
    rw [setLeave_self]
    exact ⟨rfl, rfl, rfl⟩
  inactive := hinactive
  started := hcaller
  ne_next := hna
  ne_prev := hpa
  mem := List.mem_filter.2 ⟨hpl, by simpa using hpa⟩
  next := Function.update_self ..
  env := ha
  env_next x hx hset := by
    have hxp : x ≠ p := fun hxp => by simpa using hset hxp
    obtain rfl : x = n := hx.resolve_right hxp
    rw [Pointers.remove_next_of_ne hxp]
    exact hn
  env_prev x hx hset := by
    have hxn : x ≠ n := fun hxn => by simpa using hset hxn
    obtain rfl : x = p := hx.resolve_left hxn
    rw [Pointers.remove_prev_of_ne hxn]
    exact hp

/-- **A leave starts** where nothing else is going on: the process is out of the ring, though both
neighbours still point at it. -/
theorem Fits.startLeave (h : Fits contact s op v l)
    (hactive : ∀ b o, op b = some o → s.Joins b ∨ s.Leaves b)
    (hs : Step contact s (.nameNext a) s') (hne : (s.ring.env a).next ≠ a)
    (hfreeA : ¬s.Busy contact a) (hfreeN : ¬s.Busy contact (s.ring.env a).next)
    (hfreeP : ¬s.Busy contact (s.ring.env a).prev) :
    ∃ op' v' l', Fits contact s' op' v' l' := by
  have hfree := h.not_touched hactive hfreeA
  cases hs with
  | @nameNext _ sp sn hl hcaller =>
  have hleave : s.leave a = .none := by
    refine (h.leaving a).resolve_right fun hleaving => ?_
    obtain ⟨-, p, n, hbetween⟩ := hleaving
    rw [hl] at hbetween
    exact hbetween
  have hal : a ∈ l := (h.mem a).2 ⟨hcaller, by rw [hleave]; rfl⟩
  have henvA := h.rest a hal hfree
  have hlinked := h.linked.remove hal (by rw [henvA] at hne; exact hne)
  have hnl : v.next a ∈ l := h.linked.cycle.mem hal
  have hpl : v.prev a ∈ l := h.linked.prev_mem hal
  have hpa : v.prev a ≠ a := fun heq => by
    have hnext := h.linked.next_prev hal
    rw [henvA] at hne
    rw [heq] at hnext
    exact hne hnext
  rw [henvA] at hne hfreeN hfreeP ⊢
  dsimp only at hne hfreeN hfreeP ⊢
  have henvN := h.rest _ hnl (h.not_touched hactive hfreeN)
  have henvP := h.rest _ hpl (h.not_touched hactive hfreeP)
  generalize v.next a = n at *
  generalize v.prev a = p at *
  have hapart : ∀ b o, op b = some o → ∀ x, o.Touches b x → ¬(Change.leave p n).Touches a x := by
    rintro b o ho x hx (rfl | rfl | rfl)
    · exact hfree b o ho hx
    · exact h.not_touched hactive hfreeN b o ho hx
    · exact h.not_touched hactive hfreeP b o ho hx
  have hunsent : sp = .unsent ∧ sn = .unsent := by
    rw [hleave] at hl
    cases hl
    exact ⟨rfl, rfl⟩
  obtain ⟨rfl, rfl⟩ := hunsent
  have hleaves : ∀ b, b ≠ a →
      (s.setLeave a ⟨.nextNamed n, .unsent, .unsent⟩).leave b = s.leave b :=
    fun b hb => (setLeave_leave ..).trans (if_neg hb)
  have hleaving := Leaving.start (v := v) (fun hjoins => hfreeA ⟨a, Or.inl ⟨hjoins, Or.inl rfl⟩⟩)
    hcaller hne hpa hpl henvA (congrArg Env.next henvN) (congrArg Env.prev henvP)
  refine ⟨_, v.remove p n, _, h.start (fun o ho => hfree a o ho (Or.inl rfl)) hapart hlinked
    (fun b => ?_) hleaving (fun b _ => rfl) hleaves (fun x _ => rfl) (fun x hx => ?_)
    (fun x hx => ?_) h.sound (Or.inr ⟨hcaller, p, n, hleaving.between⟩) h.held⟩
  · rw [List.mem_filter, h.mem, decide_eq_true_eq]
    by_cases hb : b = a
    · subst hb
      exact iff_of_false (fun hmem => hmem.2 rfl) fun hmem => hleaving.between.call_ne hmem.2
    · rw [Member, Member, hleaves b hb]
      exact and_iff_left hb
  · obtain ⟨-, hxn, hxp⟩ := Change.not_touches.1 hx
    exact ⟨Pointers.remove_next_of_ne hxp, Pointers.remove_prev_of_ne hxn⟩
  · rw [List.mem_filter, decide_eq_true_eq]
    exact and_iff_left (Change.not_touches.1 hx).1

/-! ## Runs

The invariant along a run whose changes start apart: at every moment there are a ring and changes
that fit. -/

/-- **What one step does**: the ring goes on, or a process comes or goes. -/
theorem Fits.step {act : NetAction A} {tr : List (Net A)} (h : Fits contact s op v l)
    (hc : Apart contact (s :: tr) act) (hs : s.step contact act = some s') :
    ∃ op' v' l', Fits contact s' op' v' l' := by
  have hstep := step_cases hs
  cases act with
  | join act =>
    cases hstep with
    | @join _ c r hplace halive hring =>
      by_cases hstart : act = .joinRing act.joining
      · obtain ⟨op', hop', hactive⟩ := h.forget
        generalize act.joining = a at hstart hring
        subst hstart
        obtain ⟨hn, hfreeN, hfreeP⟩ := hc s rfl
        exact hop'.startJoin hactive hring hn hfreeN hfreeP
      · exact ⟨op, v, l, h.join hring hstart⟩
  | nameNext a =>
    obtain ⟨op', hop', hactive⟩ := h.forget
    obtain ⟨hne, hfreeA, hfreeN, hfreeP⟩ := hc s rfl
    exact hop'.startLeave hactive hstep hne hfreeA hfreeN hfreeP
  | setPrev a =>
    exact ⟨op, v, l, h.leave hstep rfl (by simp) (begun_of_step h.leaving hstep rfl (by simp))⟩
  | setNext a =>
    exact ⟨op, v, l, h.leave hstep rfl (by simp) (begun_of_step h.leaving hstep rfl (by simp))⟩
  | _ a =>
    exact ⟨op, v, l, h.leave hstep rfl (by simp) (begun_of_step h.leaving hstep rfl (by simp))⟩

variable {s₀ : Net A} {tr : List (Net A)}

omit [DecidableEq A] in
theorem Initial.fits (h₀ : Initial s₀) : ∃ op v l, Fits contact s₀ op v l := by
  obtain ⟨l, hlinked, hmem⟩ := h₀.linked
  refine ⟨fun _ => none, ⟨_, _⟩, l, hlinked, hmem, fun a o ho => (by cases ho), fun a ha => ?_,
    fun a b o o' ho => (by cases ho), fun x hx _ => rfl, fun a => ?_,
    fun a => Or.inl (h₀.staying a), fun c x hx => ?_⟩
  · rcases ha with hjoins | hleaves
    · refine absurd ?_ hjoins.1
      rcases h₀.idle a with hj | hj <;> rw [hj]
    · exact absurd (by rw [h₀.staying a]; rfl) hleaves.1
  · rcases h₀.idle a with hj | hj <;> rw [hj]
    · exact ⟨Or.inl rfl, rfl⟩
    · exact ⟨Or.inr rfl, rfl⟩
  · rw [h₀.free] at hx
    contradiction

theorem fits_run (h₀ : Initial s₀) (h : Run (step contact) (Apart contact) s₀ tr) :
    ∀ s ∈ tr, ∃ op v l, Fits contact s op v l := by
  refine h.forall_mem (I := fun s => ∃ op v l, Fits contact s op v l) h₀.fits ?_
  rintro s tr act s' - hc ⟨op, v, l, hfits⟩ hs
  exact hfits.step hc hs

omit [DecidableEq A] in
/-- The ring in which every change has happened when it started is that of the members, and who
takes part in no change has its pointers. -/
theorem Fits.members (h : Fits contact s op v l) : LinkedCycle v.next v.prev l ∧
    (∀ a, a ∈ l ↔ s.Member a) ∧
      ∀ a, s.Member a → ¬s.Busy contact a → s.ring.env a = ⟨v.next a, v.prev a⟩ := by
  obtain ⟨op', hop', hactive⟩ := h.forget
  refine ⟨hop'.linked, hop'.mem, fun a ha hbusy => ?_⟩
  refine hop'.rest a ((hop'.mem a).2 ha) fun b o ho htouch => hbusy ?_
  exact (hop'.under_way b o ho).busy (hactive b o ho) htouch

/-- When all changes are over, the pointers themselves form the ring. -/
theorem linked_of_idle (h₀ : Initial s₀) (h : Run (step contact) (Apart contact) s₀ tr) :
    ∀ s ∈ tr, (∀ a, ¬s.Joins a ∧ ¬s.Leaves a) → ∃ l : List A,
      LinkedCycle (fun x => (s.ring.env x).next) (fun x => (s.ring.env x).prev) l ∧
        ∀ a, a ∈ l ↔ s.Member a := by
  intro s hs hidle
  obtain ⟨op, v, l, hfits⟩ := fits_run h₀ h s hs
  obtain ⟨hlinked, hmem, henv⟩ := hfits.members
  have hfree : ∀ a, ¬s.Busy contact a := by
    rintro a ⟨b, ⟨hjoins, -⟩ | ⟨hleaves, -⟩⟩
    · exact (hidle b).1 hjoins
    · exact (hidle b).2 hleaves
  refine ⟨l, hlinked.congr (fun x hx => ?_) (fun x hx => ?_), hmem⟩
  · rw [henv x ((hmem x).1 hx) (hfree x)]
  · rw [henv x ((hmem x).1 hx) (hfree x)]

/-! ## Nobody waits for ever

Whoever has a lock can go on, and gives it back before it waits for anything.  So a change that
waits for a lock waits for a change that can go on. -/

theorem step_join {c : A} (hplace : s.place contact act = some c) (halive : s.Alive c)
    (hs : s.ring.step (contact act.joining) act = some r) :
    s.step contact (.join act) = some (s.setRing r) := by
  rw [step, hplace]
  dsimp only
  rw [if_pos halive, hs]
  rfl

omit [DecidableEq A] in
theorem Fits.alive (h : Fits contact s op v l) (hx : x ∈ l) : s.Alive x := by
  rw [Alive, ((h.mem x).1 hx).2]
  simp

omit [DecidableEq A] in
/-- What a join that is going on has around it. -/
theorem Fits.joining (h : Fits contact s op v l) (hjoins : s.Joins a) :
    ∃ p n, Joining contact s v a p n ∧ a ∈ l ∧ p ∈ l ∧ n ∈ l := by
  obtain ⟨o, ho⟩ := h.known a (Or.inl hjoins)
  have hunder := h.under_way a o ho
  cases o with
  | leave p n => exact absurd hjoins hunder.inactive
  | join p n =>
    have hjoining : Joining contact s v a p n := hunder
    have ha : a ∈ l := (h.mem a).2 ⟨joined_caller (h.sound a) hjoining.joined, hjoining.staying⟩
    exact ⟨p, n, hjoining, ha, hjoining.prev ▸ h.linked.prev_mem ha,
      hjoining.next ▸ h.linked.cycle.mem ha⟩

/-- A moment that starts nothing.  Starts are left out because they are always possible somewhere,
and so would hide that nothing else moves. -/
def GoesOn (contact : A → A) (s : Net A) : Prop :=
  ∃ act s', s.step contact act = some s' ∧ (∀ b, act ≠ .join (.joinRing b)) ∧
    ∀ b, act ≠ .nameNext b

theorem goesOn_of_join (act : Action A) {c : A} (hplace : s.place contact act = some c)
    (halive : s.Alive c) (hs : s.ring.step (contact act.joining) act = some r)
    (hstart : ∀ b, act ≠ .joinRing b) : s.GoesOn contact :=
  ⟨_, _, step_join hplace halive hs, fun b hb => hstart b (NetAction.join.inj hb),
    fun b hb => by cases hb⟩

omit [DecidableEq A] in
theorem joins_of_hasLock (h : (s.ring.join a).handler.hasLock = true) : s.Joins a := by
  rcases hj : s.ring.join a with ⟨caller, handler, sn⟩
  rw [hj] at h
  rw [Joins, Ring.Joined, hj]
  cases handler <;> simp_all [JoinHandler.hasLock, Join.Done]

omit [DecidableEq A] in
theorem joins_of_setNext {c : A} (hsound : (s.ring.join a).Sound)
    (h : (s.ring.join a).setNext = .sent c ∨ (s.ring.join a).setNext = .locked c) : s.Joins a := by
  rcases hj : s.ring.join a with ⟨caller, handler, sn⟩
  rw [hj] at h hsound
  rw [Joins, Ring.Joined, hj]
  cases handler <;> rcases h with rfl | rfl <;> simp_all [Join.Sound, Join.Done]

/-- A handler under the lock can make its next call. -/
theorem Fits.goesOn_of_hasLock (h : Fits contact s op v l)
    (hlock : (s.ring.join a).handler.hasLock = true) : s.GoesOn contact := by
  obtain ⟨p, n, hjoining, -, -, hn⟩ := h.joining (joins_of_hasLock hlock)
  have halive : s.Alive (contact a) := h.alive (hjoining.contact.symm ▸ hn)
  rcases hj : s.ring.join a with ⟨caller, handler, sn⟩
  rw [hj] at hlock
  cases handler with
  | locked dest =>
    exact goesOn_of_join (.forward a) rfl halive (by simp only [Ring.step, hj]; rfl) (by simp)
  | forwarded dest =>
    exact goesOn_of_join (.name a) rfl halive (by simp only [Ring.step, hj]; rfl) (by simp)
  | named dest o =>
    exact goesOn_of_join (.respond a) rfl halive (by simp only [Ring.step, hj]; rfl) (by simp)
  | responded dest o =>
    exact goesOn_of_join (.store a) rfl halive (by simp only [Ring.step, hj]; rfl) (by simp)
  | stored dest o =>
    exact goesOn_of_join (.unlock a) rfl halive (by simp only [Ring.step, hj]; rfl) (by simp)
  | _ => contradiction

omit [DecidableEq A] in
/-- A `set_next` of a join is for a process of the ring. -/
theorem Fits.alive_dest (h : Fits contact s op v l) {c : A}
    (hset : (s.ring.join a).setNext = .sent c ∨ (s.ring.join a).setNext = .locked c) :
    s.Alive c := by
  obtain ⟨p, n, hjoining, -, hp, -⟩ := h.joining (joins_of_setNext (h.sound a) hset)
  have hdest : (s.ring.join a).setNext.dest = some c := by
    rcases hset with hset | hset <;> rw [hset] <;> rfl
  exact h.alive (hjoining.dest_eq (h.sound a) hdest ▸ hp)

/-- Whoever has a lock can go on. -/
theorem Fits.goesOn_of_held (h : Fits contact s op v l) {c : A} {y : Holder A}
    (hheld : s.ring.joinLock c = some y) : s.GoesOn contact := by
  have hholds := h.held c y hheld
  cases y with
  | join b => exact h.goesOn_of_hasLock hholds.2
  | setNext b =>
    have hset : (s.ring.join b).setNext = .locked c := hholds
    have halive : s.Alive c := h.alive_dest (Or.inr hset)
    rcases hj : s.ring.join b with ⟨caller, handler, sn⟩
    obtain rfl : sn = .locked c := by rw [hj] at hset; exact hset
    exact goesOn_of_join (.setNextStore b) (by rw [place, hset]; rfl) halive
      (by simp only [Ring.step, hj]; rfl) (by simp)

theorem Fits.goesOn_of_joins (h : Fits contact s op v l) (hjoins : s.Joins a) :
    s.GoesOn contact := by
  obtain ⟨p, n, hjoining, ha, -, hn⟩ := h.joining hjoins
  have halive : s.Alive (contact a) := h.alive (hjoining.contact.symm ▸ hn)
  obtain ⟨hjoined, hdone⟩ := hjoins
  have hsound := h.sound a
  rcases hj : s.ring.join a with ⟨caller, handler, sn⟩
  rw [Ring.Joined, hj] at hjoined
  rw [hj] at hdone hsound
  cases handler with
  | absent => contradiction
  | entered =>
    exact goesOn_of_join (.create a) rfl halive (by simp only [Ring.step, hj]; rfl) (by simp)
  | created dest =>
    cases hlock : s.ring.joinLock (contact a) with
    | none =>
      exact goesOn_of_join (.lock a) rfl halive
        (by simp only [Ring.step, hj, Action.joining, hlock]; rfl) (by simp)
    | some y => exact h.goesOn_of_held hlock
  | returned dest o =>
    obtain ⟨rfl | rfl, hdest⟩ := hsound
    · exact goesOn_of_join (.finish a) rfl (h.alive ha) (by simp only [Ring.step, hj]; rfl)
        (by simp)
    · cases sn with
      | unsent => contradiction
      | sent d =>
        cases hlock : s.ring.joinLock d with
        | none =>
          exact goesOn_of_join (.setNextLock a) (by rw [place, hj]; rfl)
            (h.alive_dest (a := a) (Or.inl (by rw [hj])))
            (by simp only [Ring.step, hj, hlock]; rfl) (by simp)
        | some y => exact h.goesOn_of_held hlock
      | locked d =>
        exact goesOn_of_join (.setNextStore a) (by rw [place, hj]; rfl)
          (h.alive_dest (a := a) (Or.inr (by rw [hj]))) (by simp only [Ring.step, hj]; rfl)
          (by simp)
      | handled d => exact absurd trivial hdone
  | _ => exact h.goesOn_of_hasLock (a := a) (by rw [hj]; rfl)

theorem goesOn_of_leave (act : NetAction A) (hs : s.step contact act = some s')
    (hact : act.leaving = some a) (hstart : act ≠ .nameNext a) : s.GoesOn contact := by
  refine ⟨act, s', hs, ?_, ?_⟩
  · rintro b rfl
    cases hact
  · rintro b rfl
    obtain rfl : b = a := Option.some.inj hact
    exact hstart rfl

theorem Fits.goesOn_of_leaves (h : Fits contact s op v l) (hleaves : s.Leaves a) :
    s.GoesOn contact := by
  obtain ⟨o, ho⟩ := h.known a (Or.inr hleaves)
  have hunder := h.under_way a o ho
  cases o with
  | join p n => exact absurd hunder.staying hleaves.1
  | leave p n =>
  have hleaving : Leaving s v l a p n := hunder
  have hp : s.Alive p := h.alive hleaving.mem
  have hn : s.Alive n := h.alive (hleaving.next ▸ h.linked.cycle.mem hleaving.mem)
  have hbetween := hleaving.between
  obtain ⟨hcall, hopen⟩ := hleaves
  rcases hl : s.leave a with ⟨call, sp, sn⟩
  rw [hl] at hbetween hcall hopen
  cases call with
  | staying => contradiction
  | nextNamed nextStr =>
    exact goesOn_of_leave (.namePrev a) (by simp only [Net.step, hl]; rfl) rfl (by simp)
  | prevNamed nextStr prevStr =>
    exact goesOn_of_leave (.createNext a) (by simp only [Net.step, hl]; rfl) rfl (by simp)
  | nextCreated nextStr prevStr nextH =>
    exact goesOn_of_leave (.createPrev a) (by simp only [Net.step, hl]; rfl) rfl (by simp)
  | prevCreated nextStr prevStr nextH prevH =>
    exact goesOn_of_leave (.forwardNext a) (by simp only [Net.step, hl]; rfl) rfl (by simp)
  | nextForwarded nextStr prevH =>
    exact goesOn_of_leave (.forwardPrev a) (by simp only [Net.step, hl]; rfl) rfl (by simp)
  | prevForwarded =>
    exact goesOn_of_leave (.exit a) (by simp only [Net.step, hl]; rfl) rfl (by simp)
  | exited =>
    obtain ⟨rfl | rfl, hsn⟩ := hbetween
    · cases hlock : s.ring.joinLock n with
      | none =>
        exact goesOn_of_leave (.setPrev a) (by simp only [Net.step, hl, hn, hlock]; rfl) rfl
          (by simp)
      | some y => exact h.goesOn_of_held hlock
    · obtain rfl | rfl := hsn
      · cases hlock : s.ring.joinLock p with
        | none =>
          exact goesOn_of_leave (.setNext a) (by simp only [Net.step, hl, hp, hlock]; rfl) rfl
            (by simp)
        | some y => exact h.goesOn_of_held hlock
      · exact absurd ⟨rfl, rfl⟩ hopen

instance (s : Net A) (a : A) : Decidable (s.Member a) :=
  inferInstanceAs (Decidable (_ ∧ _))

instance (s : Net A) (a : A) : Decidable (s.Joins a) :=
  inferInstanceAs (Decidable (_ ∧ _))

instance (s : Net A) (a : A) : Decidable (s.Leaves a) :=
  inferInstanceAs (Decidable (_ ∧ _))

instance [Fintype A] (contact : A → A) (s : Net A) (x : A) : Decidable (s.Busy contact x) :=
  inferInstanceAs (Decidable (∃ _, _))

instance [Fintype A] (contact : A → A) (tr : List (Net A)) (act : NetAction A) :
    Decidable (Apart contact tr act) := by
  unfold Apart
  split <;> infer_instance

/-- Nodes 0 and 1 form a ring; 2 and 3 are to join at 0. -/
def pair : Net (Fin 4) := ⟨Ring.pair, fun _ => .none⟩

theorem initial_pair : Initial pair where
  linked := by
    refine ⟨[0, 1], ⟨CycleOn.iff_isChain.2 ?_, by decide⟩, by decide⟩
    exact ⟨by decide, by decide⟩
  idle := by decide
  staying _ := rfl
  free _ := rfl

end Net
end CRing
end DistributedPrograms
