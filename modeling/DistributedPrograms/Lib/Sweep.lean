import DistributedPrograms.Lib.Cycle

/-!
# Going around a cycle that loses elements

Some elements of a cycle have a property `P`, and fewer have it as time goes by.  Whoever goes on
along the cycle may skip elements without `P`, as it likes.  What was true of such a walk stays true
when elements lose `P`; all notions here are monotone in this way.

* `Ahead f P a p`: the way from `a` to `p` skips nobody with `P`.  When `p` has `P`, it is the first
  one behind `a` (`Ahead.firstAfter`).
* `Gathers f P l a names`: a walk that has come to `a` has collected `names`, which is everybody
  with `P` that it came past.  On its next step to somebody with `P` it either has one more
  (`Gathers.relay`), or it has come around (`Gathers.stop`).
* `Sweep f P l names`: the names of one walk around the cycle, with everybody with `P` on it. Behind
  the place of `a` they are searched in the order of the cycle (`Sweep.ahead`).

The cycle `f` never changes, although the pointers of the system that uses this do: a node whose
neighbour is dead points further on.  What keeps such pointers in touch with the cycle is `Ahead`.
And a list of names that was collected when more nodes were alive is still good to search in,
because those who have died since are skipped by the search itself; that is the use of `Sweep`, and
the reason why it does not say that everybody on it has `P`.

So an invariant about pointers, tokens and stored lists of names needs to be looked at only where
something is written.  A crash is covered by the `mono` lemmas.
-/

set_option autoImplicit false

namespace DistributedPrograms

variable {α : Type*} {f : α → α} {P Q : α → Prop} {l names : List α} {a b p x : α}

/-! ## Walks and sublists

Where a walk is cut, its parts are walks, and the names of a walk that skips elements are a sublist
of those of one that does not. -/

theorem walk_add (f : α → α) (x : α) (i : Nat) :
    ∀ k, walk f x (i + k) = walk f x i ++ walk f (f^[i] x) k
  | 0 => by simp [walk]
  | k + 1 => by
    rw [← Nat.add_assoc, walk_succ, walk_add f x i k, walk_succ, List.append_assoc,
      Nat.add_comm i k, Function.iterate_add_apply]

theorem walk_sublist {i k : Nat} (h : i ≤ k) : (walk f x i).Sublist (walk f x k) := by
  obtain ⟨d, rfl⟩ := Nat.exists_eq_add_of_le h
  rw [walk_add]
  exact List.sublist_append_left _ _

theorem walk_cons (f : α → α) (x : α) (k : Nat) : walk f x (k + 1) = x :: walk f (f x) k := by
  rw [Nat.add_comm, walk_add]
  rfl

theorem getElem?_walk {k i : Nat} (hi : i < k) : (walk f x k)[i]? = some (f^[i] x) := by
  simp [walk, hi]

/-- Where a walk is cut, its parts are walks. -/
theorem walk_eq_append_cons {k : Nat} {u v : List α} (h : walk f x k = u ++ a :: v) :
    u = walk f x u.length ∧ a = f^[u.length] x ∧ v = walk f (f a) v.length := by
  have hlen : k = u.length + (v.length + 1) := by simpa using congrArg List.length h
  rw [hlen, walk_add, walk_cons] at h
  obtain ⟨hu, hav⟩ := List.append_inj h (length_walk f x _)
  obtain ⟨ha, hv⟩ := List.cons.inj hav
  exact ⟨hu.symm, ha.symm, ha ▸ hv.symm⟩

/-- A sublist and a place in it cut the list in two. -/
theorem exists_of_append_cons_sublist {u v w : List α} (h : (u ++ a :: v).Sublist w) :
    ∃ u' v', w = u' ++ a :: v' ∧ u.Sublist u' ∧ v.Sublist v' := by
  obtain ⟨w₁, w₂, rfl, hu, hav⟩ := List.append_sublist_iff.1 h
  obtain ⟨w₃, w₄, rfl, ha, hv⟩ := List.cons_sublist_iff.1 hav
  obtain ⟨s, t, rfl⟩ := List.append_of_mem ha
  exact ⟨w₁ ++ s, t ++ w₄, by simp, hu.trans (List.sublist_append_left _ _),
    hv.trans (List.sublist_append_right _ _)⟩

/-- Taking out elements without `P` does not make anybody with `P` come later. -/
theorem first_of_sublist {names w : List α} (hsub : names.Sublist w) (hw : w.Nodup)
    (hall : ∀ y ∈ w, P y → y ∈ names) {i : Nat} (hp : names[i]? = some p)
    (hskip : ∀ j < i, ∀ y, names[j]? = some y → ¬P y) :
    ∃ k : Nat, w[k]? = some p ∧ ∀ j < k, ∀ y, w[j]? = some y → ¬P y := by
  obtain ⟨hi, hget⟩ := List.getElem?_eq_some_iff.1 hp
  obtain ⟨u, v, rfl, hu⟩ : ∃ u v, names = u ++ p :: v ∧ u.length = i :=
    ⟨names.take i, names.drop (i + 1), by rw [← hget]; simp,
      by simp [Nat.min_eq_left hi.le]⟩
  obtain ⟨u', v', rfl, -, hv⟩ := exists_of_append_cons_sublist hsub
  refine ⟨u'.length, by simp, fun j hj y hy hPy => ?_⟩
  rw [List.getElem?_append_left hj] at hy
  have hyu := List.mem_of_getElem? hy
  have hdisj := List.nodup_append.1 hw
  rcases List.mem_append.1 (hall y (List.mem_append_left _ hyu) hPy) with hmem | hmem
  · -- `y` is on the list before `p`
    obtain ⟨m, hm⟩ := List.mem_iff_getElem?.1 hmem
    have hlt := (List.getElem?_eq_some_iff.1 hm).1
    exact hskip m (hu ▸ hlt) y (by rwa [List.getElem?_append_left hlt]) hPy
  · -- `y` would be twice in the longer list
    refine hdisj.2.2 y hyu y ?_ rfl
    rcases List.mem_cons.1 hmem with rfl | hmem
    · exact List.mem_cons_self
    · exact List.mem_cons_of_mem _ (hv.subset hmem)

/-! ## The way to the next one

How far it is to the next element with `P`, and that two of them do not meet. -/

/-- The way from `a` to `p` along `f` skips nobody with `P`.  Whether `p` itself has `P` is not
said: in a ring a pointer may lead to one who has died since. -/
def Ahead (f : α → α) (P : α → Prop) (a p : α) : Prop :=
  ∃ k, f^[k + 1] a = p ∧ ∀ j < k, ¬P (f^[j + 1] a)

theorem ahead_apply (f : α → α) (P : α → Prop) (a : α) : Ahead f P a (f a) :=
  ⟨0, rfl, fun _ hj => absurd hj (Nat.not_lt_zero _)⟩

theorem Ahead.mono (h : Ahead f P a p) (hPQ : ∀ y, Q y → P y) : Ahead f Q a p := by
  obtain ⟨k, hk, hskip⟩ := h
  exact ⟨k, hk, fun j hj hQ => hskip j hj (hPQ _ hQ)⟩

theorem Ahead.firstAfter (h : Ahead f P a p) (hp : P p) : FirstAfter f P a p := by
  obtain ⟨k, hk, hskip⟩ := h
  exact ⟨k, hk, hp, hskip⟩

theorem Ahead.mem (h : Ahead f P a p) (hcycle : CycleOn f l) (ha : a ∈ l) : p ∈ l := by
  obtain ⟨k, rfl, -⟩ := h
  exact hcycle.mem_iterate ha _

/-! ## The names of a walk around

A `Sweep` may begin anywhere on the cycle.  It is searched from the place behind one's own, around
the end of the list, and that order is the order of the cycle. -/

/-- The names of a walk once around the cycle `l`, with everybody with `P` on it.  Others may be on
it as well, so a list that was complete stays so when some of its members die. -/
structure Sweep (f : α → α) (P : α → Prop) (l names : List α) : Prop where
  sublist : ∃ x ∈ l, names.Sublist (walk f x l.length)
  complete : ∀ y ∈ l, P y → y ∈ names

theorem Sweep.mono (h : Sweep f P l names) (hPQ : ∀ y, Q y → P y) : Sweep f Q l names :=
  ⟨h.sublist, fun y hy hQ => h.complete y hy (hPQ y hQ)⟩

theorem Sweep.length_le (h : Sweep f P l names) : names.length ≤ l.length := by
  obtain ⟨x, -, hsub⟩ := h.sublist
  simpa using hsub.length_le

/-- A cycle is a walk around itself. -/
theorem CycleOn.eq_walk (h : CycleOn f (x :: names)) :
    x :: names = walk f x (x :: names).length := by
  refine List.ext_getElem? fun i => ?_
  rcases Nat.lt_or_ge i (x :: names).length with hi | hi
  · have hget := h.getElem?_iterate (i := 0) (x := x) rfl i
    rw [Nat.zero_add, Nat.mod_eq_of_lt hi] at hget
    rw [hget, getElem?_walk hi]
  · rw [List.getElem?_eq_none hi, List.getElem?_eq_none (by simpa using hi)]

theorem sweep_of_isRotated (h : CycleOn f l) (hl : l ~r names) : Sweep f P l names := by
  have hnames := h.isRotated hl
  refine ⟨?_, fun y hy _ => hl.mem_iff.1 hy⟩
  cases names with
  | nil => exact absurd rfl hnames.ne_nil
  | cons x rest =>
    refine ⟨x, hl.mem_iff.2 List.mem_cons_self, ?_⟩
    rw [hl.perm.length_eq, ← hnames.eq_walk]

/-- Behind the place of `a`, the names are those of a walk that starts behind `a`. -/
theorem CycleOn.rotate_sublist (h : CycleOn f l) (hx : x ∈ l)
    (hsub : names.Sublist (walk f x l.length)) {m : Nat} (ha : names[m]? = some a) :
    (names.rotate (m + 1)).Sublist (walk f (f a) l.length) := by
  obtain ⟨hm, hget⟩ := List.getElem?_eq_some_iff.1 ha
  have hnames : names = names.take m ++ a :: names.drop (m + 1) := by
    rw [← hget]
    simp
  have hrotate : names.rotate (m + 1) = names.drop (m + 1) ++ (names.take m ++ [a]) := by
    rw [List.rotate_eq_drop_append_take hm, List.take_add_one, ha, Option.toList_some]
  rw [hnames] at hsub
  obtain ⟨u, v, hwalk, hu, hv⟩ := exists_of_append_cons_sublist hsub
  obtain ⟨hu', ha', hv'⟩ := walk_eq_append_cons hwalk
  have hlen : l.length = v.length + (u.length + 1) := by
    have := congrArg List.length hwalk
    simp only [length_walk, List.length_append, List.length_cons] at this
    omega
  -- the walk from behind `a` goes to the end, and then from the beginning up to `a`
  have hround : f^[v.length] (f a) = x := by
    rw [ha', ← Function.iterate_succ_apply' f u.length x, ← Function.iterate_add_apply,
      show v.length + (u.length + 1) = l.length from hlen.symm, h.iterate_length hx]
  rw [hrotate, hlen, walk_add, hround, walk_succ, ← hu', ← ha', ← hv']
  exact hv.append (hu.append (List.Sublist.refl _))

theorem CycleOn.nodup_walk (h : CycleOn f l) (hx : x ∈ l) : (walk f x l.length).Nodup := by
  obtain ⟨t, hrot, hcycle⟩ := h.exists_rotated_cons hx
  rw [hrot.perm.length_eq, ← hcycle.eq_walk]
  exact hcycle.nodup

/-- **A search through the names behind the place of `a`** skips nobody with `P`.  The names are
tried in the order of the cycle, and all before the one that is found have turned out to be without
`P`. -/
theorem Sweep.ahead (h : Sweep f P l names) (hcycle : CycleOn f l) {m i : Nat}
    (ha : names[m]? = some a) (hi : i < names.length)
    (hp : names[(m + i + 1) % names.length]? = some p)
    (hskip : ∀ j < i, ∀ y, names[(m + j + 1) % names.length]? = some y → ¬P y) :
    Ahead f P a p := by
  obtain ⟨x, hx, hsub⟩ := h.sublist
  have hmem : a ∈ l := by
    obtain ⟨j, -, rfl⟩ := mem_walk.1 (hsub.subset (List.mem_of_getElem? ha))
    exact hcycle.mem_iterate hx j
  have hplace : ∀ j < names.length,
      (names.rotate (m + 1))[j]? = names[(m + j + 1) % names.length]? := by
    intro j hj
    rw [List.getElem?_rotate hj, show j + (m + 1) = m + j + 1 by omega]
  have hcomplete : ∀ y ∈ walk f (f a) l.length, P y → y ∈ names.rotate (m + 1) := by
    intro y hy hPy
    obtain ⟨j, -, rfl⟩ := mem_walk.1 hy
    exact List.mem_rotate.2 (h.complete _ (hcycle.mem_iterate (hcycle.mem hmem) j) hPy)
  obtain ⟨k, hk, hfirst⟩ := first_of_sublist (hcycle.rotate_sublist hx hsub ha)
    (hcycle.nodup_walk (hcycle.mem hmem)) hcomplete ((hplace i hi).trans hp) fun j hj y hy =>
      hskip j hj y ((hplace j (hj.trans hi)).symm.trans hy)
  have hlt : k < l.length := by simpa using (List.getElem?_eq_some_iff.1 hk).1
  rw [getElem?_walk hlt, Option.some.injEq] at hk
  exact ⟨k, by rw [Function.iterate_succ_apply, hk], fun j hj => by
    rw [Function.iterate_succ_apply]
    exact hfirst j hj _ (getElem?_walk (hj.trans hlt))⟩

/-! ## A walk on its way

The invariant of a token.  It speaks of the place where the token is, not of the one it goes to,
because that one may still be chosen. -/

/-- A walk that has come to `a` has collected `names`, which is everybody with `P` it came past.  It
is less than a full round from where it began. -/
def Gathers (f : α → α) (P : α → Prop) (l : List α) (a : α) (names : List α) : Prop :=
  ∃ x ∈ l, ∃ d < l.length, a = f^[d] x ∧ names.Sublist (walk f x (d + 1)) ∧
    ∀ j ≤ d, P (f^[j] x) → f^[j] x ∈ names

theorem Gathers.mono (h : Gathers f P l a names) (hPQ : ∀ y, Q y → P y) :
    Gathers f Q l a names := by
  obtain ⟨x, hx, d, hd, ha, hsub, hall⟩ := h
  exact ⟨x, hx, d, hd, ha, hsub, fun j hj hQ => hall j hj (hPQ _ hQ)⟩

theorem gathers_self (hcycle : CycleOn f l) (ha : a ∈ l) : Gathers f P l a [a] := by
  refine ⟨a, ha, 0, hcycle.length_pos, rfl, by simp [walk], fun j hj _ => ?_⟩
  rw [Nat.le_zero.1 hj]
  exact List.mem_singleton_self _

theorem Gathers.mem (h : Gathers f P l a names) (hcycle : CycleOn f l) : a ∈ l := by
  obtain ⟨x, hx, d, -, rfl, -, -⟩ := h
  exact hcycle.mem_iterate hx d

theorem Gathers.length_le (h : Gathers f P l a names) : names.length ≤ l.length := by
  obtain ⟨x, -, d, hd, -, hsub, -⟩ := h
  have hle := hsub.length_le
  rw [length_walk] at hle
  omega

/-- What lies between the walk and the next one has not got `P`. -/
theorem Gathers.between {d k : Nat} (hall : ∀ j ≤ d, P (f^[j] x) → f^[j] x ∈ names)
    (hskip : ∀ j < k, ¬P (f^[j + 1] (f^[d] x))) {j : Nat} (hj : j < d + (k + 1))
    (hPj : P (f^[j] x)) : f^[j] x ∈ names := by
  rcases Nat.lt_or_ge d j with hlt | hle
  · refine absurd hPj ?_
    have hbetween := hskip (j - d - 1) (by omega)
    rwa [← Function.iterate_add_apply, show j - d - 1 + 1 + d = j by omega] at hbetween
  · exact hall j hle hPj

/-- **The next one** that is not on the list is closer than a full round, and is added. -/
theorem Gathers.relay (h : Gathers f P l a names) (hcycle : CycleOn f l) (hb : Ahead f P a b)
    (hPb : P b) (hnew : b ∉ names) : Gathers f P l b (names ++ [b]) := by
  obtain ⟨x, hx, d, hd, rfl, hsub, hall⟩ := h
  obtain ⟨k, rfl, hskip⟩ := hb
  have hbetween : ∀ j < d + (k + 1), P (f^[j] x) → f^[j] x ∈ names := fun j hj =>
    Gathers.between hall hskip hj
  have hplace : f^[k + 1] (f^[d] x) = f^[d + (k + 1)] x := by
    rw [← Function.iterate_add_apply, Nat.add_comm]
  rw [hplace] at hPb hnew ⊢
  have hlt : d + (k + 1) < l.length := by
    by_contra hge
    -- a full round ago the walk came past the same place
    have hback : f^[d + (k + 1)] x = f^[d + (k + 1) - l.length] x := by
      conv_lhs => rw [← Nat.sub_add_cancel (Nat.not_lt.1 hge), Function.iterate_add_apply,
        hcycle.iterate_length hx]
    rw [hback] at hPb hnew
    exact hnew (hbetween _ (by have := hcycle.length_pos; omega) hPb)
  refine ⟨x, hx, d + (k + 1), hlt, rfl, ?_, fun j hj hPj => ?_⟩
  · rw [walk_succ]
    exact (hsub.trans (walk_sublist (by omega))).append (List.Sublist.refl _)
  · rcases Nat.lt_or_eq_of_le hj with hj | rfl
    · exact List.mem_append_left _ (hbetween j hj hPj)
    · exact List.mem_append_right _ (List.mem_singleton_self _)

/-- **The next one is on the list**: the walk has come around. -/
theorem Gathers.stop (h : Gathers f P l a names) (hcycle : CycleOn f l) (hb : Ahead f P a b)
    (hvisit : b ∈ names) : Sweep f P l names := by
  obtain ⟨x, hx, d, hd, rfl, hsub, hall⟩ := h
  obtain ⟨k, rfl, hskip⟩ := hb
  have hbetween : ∀ j < d + (k + 1), P (f^[j] x) → f^[j] x ∈ names := fun j hj =>
    Gathers.between hall hskip hj
  refine ⟨⟨x, hx, hsub.trans (walk_sublist hd)⟩, fun y hy hPy => ?_⟩
  obtain ⟨j, hj, rfl⟩ := hcycle.exists_iterate hx hy
  refine hbetween j ?_ hPy
  by_contra hge
  -- else the next one would be met twice within one round
  obtain ⟨i, hi, heq⟩ := mem_walk.1 (hsub.subset hvisit)
  rw [← Function.iterate_add_apply] at heq
  have hdvd := hcycle.dvd_of_iterate_eq hx (by omega : i ≤ k + 1 + d) heq
  have hle := Nat.le_of_dvd (by omega) hdvd
  omega

end DistributedPrograms
