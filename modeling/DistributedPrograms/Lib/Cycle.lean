import Mathlib.Data.List.Rotate
import Mathlib.Data.List.Chain
import Mathlib.Data.List.Perm.Subperm
import Mathlib.Data.Nat.Find
import Mathlib.Data.Int.ModEq
import Mathlib.Logic.Function.Iterate

/-!
# Functions that walk around a cycle

`CycleOn f l` says that `f` leads from each element of the duplicate-free list `l` to the next one,
and from the last to the first.  This is what it means for the pointers `f` of a set of nodes to
form one ring through the nodes `l`.  Where the list begins does not matter (`isRotated`).

What is here is in three parts:

* **Walking.** Where `f` leads in `k` steps is computed by indices modulo the length
  (`getElem?_iterate`), and everything else comes from there: only full rounds lead back
  (`dvd_of_iterate_eq`), `f` is injective on `l`, everybody is reached from everybody in less than a
  full round (`exists_iterate`), and a walk that comes to a place where it has been has met
  everybody (`mem_walk_of_revisit`).  The last one is how a message that is handed on around the
  ring, and that stops where it finds itself listed, has collected all members.
* **Surgery.** Three changes keep the shape: putting a new element between two neighbours
  (`exists_insert`), skipping the elements without a property (`filter`), and taking one element out
  (`remove`).  Each is stated for a function that differs from the old one only where it has to.
* **Both ways.** A `LinkedCycle` has pointers in both directions, `next` around the list and `prev`
  back.  Inserting changes four of its pointers and removing two, and the two lemmas name them all,
  so that a program which changes them one after the other can be compared with the pointers they
  end at.

Nothing here says in what order pointers are changed, or that anybody looks at them in between; that
belongs to the systems that use it.
-/

set_option autoImplicit false

namespace DistributedPrograms

variable {α : Type*}

/-- `f` walks around the list `l`, once through each of its elements.  Nothing is said of `f`
outside the list, so a function on all addresses can walk around those that are members. -/
structure CycleOn (f : α → α) (l : List α) : Prop where
  ne_nil : l ≠ []
  nodup : l.Nodup
  getElem?_succ : ∀ i x, l[i]? = some x → l[(i + 1) % l.length]? = some (f x)

/-- The first `k` places of the walk from `x`. -/
def walk (f : α → α) (x : α) (k : Nat) : List α := (List.range k).map fun j => f^[j] x

theorem mem_walk {f : α → α} {x y : α} {k : Nat} : y ∈ walk f x k ↔ ∃ j < k, f^[j] x = y := by
  simp only [walk, List.mem_map, List.mem_range]

theorem walk_succ (f : α → α) (x : α) (k : Nat) : walk f x (k + 1) = walk f x k ++ [f^[k] x] := by
  simp [walk, List.range_succ]

@[simp] theorem length_walk (f : α → α) (x : α) (k : Nat) : (walk f x k).length = k := by
  simp [walk]

/-- A function that keeps to `l` cannot walk through more different places than `l` has. -/
theorem length_le_of_walk_nodup {f : α → α} {l : List α} {x : α} (hf : ∀ y ∈ l, f y ∈ l)
    (hx : x ∈ l) {k : Nat} (h : (walk f x k).Nodup) : k ≤ l.length := by
  have hmem : ∀ j, f^[j] x ∈ l := by
    intro j
    induction j with
    | zero => exact hx
    | succ j ih =>
      rw [Function.iterate_succ_apply']
      exact hf _ ih
  have hsub : walk f x k ⊆ l := by
    intro y hy
    obtain ⟨j, -, rfl⟩ := mem_walk.1 hy
    exact hmem j
  have hle := (List.subperm_of_subset h hsub).length_le
  rwa [length_walk] at hle

theorem nodup_walk_succ {f : α → α} {x : α} {k : Nat} (h : (walk f x k).Nodup)
    (hnew : f^[k] x ∉ walk f x k) : (walk f x (k + 1)).Nodup := by
  rw [walk_succ, ← List.concat_eq_append]
  exact List.Nodup.concat hnew h

namespace CycleOn

variable {f g : α → α} {l l' : List α} {a b x y : α}

/-! ## Walking

The list is only there to count with.  All lemmas about where `f` leads are read off the index of
the place after `k` steps. -/

theorem length_pos (h : CycleOn f l) : 0 < l.length := List.length_pos_iff.2 h.ne_nil

/-- **The place after `k` steps.** -/
theorem getElem?_iterate (h : CycleOn f l) {i : Nat} (hx : l[i]? = some x) (k : Nat) :
    l[(i + k) % l.length]? = some (f^[k] x) := by
  induction k with
  | zero =>
    have hi : i < l.length := (List.getElem?_eq_some_iff.1 hx).1
    rwa [Nat.add_zero, Nat.mod_eq_of_lt hi]
  | succ k ih =>
    have hsucc := h.getElem?_succ _ _ ih
    rwa [Nat.mod_add_mod, Nat.add_assoc, ← Function.iterate_succ_apply' f k x] at hsucc

theorem mem_iterate (h : CycleOn f l) (hx : x ∈ l) (k : Nat) : f^[k] x ∈ l := by
  obtain ⟨i, hi⟩ := List.mem_iff_getElem?.1 hx
  exact List.mem_of_getElem? (h.getElem?_iterate hi k)

theorem mem (h : CycleOn f l) (hx : x ∈ l) : f x ∈ l := h.mem_iterate hx 1

/-- Everybody is reached from everybody, in less than a full round. -/
theorem exists_iterate (h : CycleOn f l) (hx : x ∈ l) (hy : y ∈ l) :
    ∃ k < l.length, f^[k] x = y := by
  obtain ⟨i, hi⟩ := List.mem_iff_getElem?.1 hx
  obtain ⟨j, hj⟩ := List.mem_iff_getElem?.1 hy
  have hil : i < l.length := (List.getElem?_eq_some_iff.1 hi).1
  have hjl : j < l.length := (List.getElem?_eq_some_iff.1 hj).1
  refine ⟨(j + (l.length - i)) % l.length, Nat.mod_lt _ h.length_pos, ?_⟩
  have hk := h.getElem?_iterate hi ((j + (l.length - i)) % l.length)
  have hidx : i + (j + (l.length - i)) = j + l.length := by omega
  rw [Nat.add_mod_mod, hidx, Nat.add_mod_right, Nat.mod_eq_of_lt hjl, hj] at hk
  exact (Option.some.inj hk).symm

/-- A full round leads back. -/
theorem iterate_length (h : CycleOn f l) (hx : x ∈ l) : f^[l.length] x = x := by
  obtain ⟨i, hi⟩ := List.mem_iff_getElem?.1 hx
  have hil : i < l.length := (List.getElem?_eq_some_iff.1 hi).1
  have hk := h.getElem?_iterate hi l.length
  rw [Nat.add_mod_right, Nat.mod_eq_of_lt hil, hi] at hk
  exact (Option.some.inj hk).symm

/-- Only full rounds lead back. -/
theorem dvd_of_iterate_eq (h : CycleOn f l) (hx : x ∈ l) {j k : Nat} (hjk : j ≤ k)
    (heq : f^[j] x = f^[k] x) : l.length ∣ k - j := by
  obtain ⟨i, hi⟩ := List.mem_iff_getElem?.1 hx
  have hj := h.getElem?_iterate hi j
  rw [heq, ← h.getElem?_iterate hi k] at hj
  have hmod := (List.getElem?_inj (Nat.mod_lt _ h.length_pos) h.nodup).1 hj
  have hdvd := (Nat.modEq_iff_dvd' (Nat.add_le_add_left hjk i)).1 hmod
  rwa [Nat.add_sub_add_left] at hdvd

theorem injOn (h : CycleOn f l) (hx : x ∈ l) (hy : y ∈ l) (heq : f x = f y) : x = y := by
  obtain ⟨k, hk, rfl⟩ := h.exists_iterate hx hy
  have hdvd := h.dvd_of_iterate_eq hx (by omega : 1 ≤ k + 1)
    (by rw [Function.iterate_one, heq, Function.iterate_succ_apply'])
  have hzero : k = 0 := Nat.eq_zero_of_dvd_of_lt (by simpa using hdvd) hk
  rw [hzero, Function.iterate_zero_apply]

/-- Somebody leads to `x`. -/
theorem exists_eq (h : CycleOn f l) (hx : x ∈ l) : ∃ y ∈ l, f y = x := by
  obtain ⟨k, hk⟩ := Nat.exists_eq_add_one.2 h.length_pos
  refine ⟨f^[k] x, h.mem_iterate hx k, ?_⟩
  rw [← Function.iterate_succ_apply' f k x, Nat.succ_eq_add_one, ← hk, h.iterate_length hx]

/-- **A walk that comes to a place where it has been has met everybody.**  It cannot come back
earlier than after a full round, since up to then all places are different. -/
theorem mem_walk_of_revisit (h : CycleOn f l) (hx : x ∈ l) {k : Nat}
    (hvisit : f^[k] x ∈ walk f x k) : l.length ≤ k ∧ ∀ y ∈ l, y ∈ walk f x k := by
  obtain ⟨j, hj, heq⟩ := mem_walk.1 hvisit
  have hle := Nat.le_of_dvd (by omega) (h.dvd_of_iterate_eq hx hj.le heq)
  refine ⟨by omega, fun y hy => ?_⟩
  obtain ⟨m, hm, rfl⟩ := h.exists_iterate hx hy
  exact mem_walk.2 ⟨m, by omega, rfl⟩

/-- The first place that the walk comes to again is its start. -/
theorem revisit_iff (h : CycleOn f l) (hx : x ∈ l) {k : Nat} (hpos : 0 < k)
    (hnodup : (walk f x k).Nodup) : f^[k] x ∈ walk f x k ↔ f^[k] x = x := by
  refine ⟨fun hvisit => ?_, fun heq => mem_walk.2 ⟨0, hpos, heq.symm⟩⟩
  have hge := (h.mem_walk_of_revisit hx hvisit).1
  have hle := length_le_of_walk_nodup (fun y => h.mem) hx hnodup
  rw [hle.antisymm hge, h.iterate_length hx]

/-- The walk of a full round. -/
theorem walk_perm (h : CycleOn f l) (hx : x ∈ l) {k : Nat} (hnodup : (walk f x k).Nodup)
    (hvisit : f^[k] x ∈ walk f x k) : k = l.length ∧ (walk f x k).Perm l := by
  obtain ⟨hge, hmet⟩ := h.mem_walk_of_revisit hx hvisit
  have hle := length_le_of_walk_nodup (fun y => h.mem) hx hnodup
  refine ⟨hle.antisymm hge, ?_⟩
  have hsubperm := List.subperm_of_subset h.nodup hmet
  exact (hsubperm.perm_of_length_le (by rwa [length_walk])).symm

/-! ## Changing the list and the function

Elements come and go, and the list can be begun anywhere. -/

theorem congr (h : CycleOn f l) (hfg : ∀ x ∈ l, f x = g x) : CycleOn g l where
  ne_nil := h.ne_nil
  nodup := h.nodup
  getElem?_succ i x hx := by
    rw [← hfg x (List.mem_of_getElem? hx)]
    exact h.getElem?_succ i x hx

/-- Where the list begins does not matter. -/
theorem isRotated (h : CycleOn f l) (hl : l ~r l') : CycleOn f l' := by
  obtain ⟨n, rfl⟩ := hl
  refine ⟨by simpa using h.ne_nil, List.nodup_rotate.2 h.nodup, fun i x hx => ?_⟩
  have hi : i < l.length := by simpa using (List.getElem?_eq_some_iff.1 hx).1
  rw [List.getElem?_rotate hi] at hx
  have hsucc := h.getElem?_succ _ _ hx
  rw [Nat.mod_add_mod] at hsucc
  rw [List.length_rotate, List.getElem?_rotate (Nat.mod_lt _ h.length_pos), Nat.mod_add_mod,
    show i + 1 + n = i + n + 1 by omega]
  exact hsucc

theorem exists_rotated_cons (h : CycleOn f l) (ha : a ∈ l) :
    ∃ t, l ~r a :: t ∧ CycleOn f (a :: t) := by
  obtain ⟨l₁, l₂, rfl⟩ := List.append_of_mem ha
  exact ⟨l₂ ++ l₁, List.isRotated_append, h.isRotated List.isRotated_append⟩

/-- The same as a chain that closes. -/
theorem iff_isChain {t : List α} :
    CycleOn f (a :: t) ↔ (a :: t).Nodup ∧ (a :: t ++ [a]).IsChain (f · = ·) := by
  -- the closed list continues the open one as the indices modulo its length do
  have hclosed : ∀ i ≤ t.length,
      (a :: t ++ [a])[i + 1]? = (a :: t)[(i + 1) % (a :: t).length]? := by
    intro i hi
    rcases Nat.lt_or_eq_of_le hi with hi | rfl
    · rw [Nat.mod_eq_of_lt (by simpa using hi), List.getElem?_append_left (by simpa using hi)]
    · rw [List.length_cons, Nat.mod_self]
      simp
  constructor
  · refine fun h => ⟨h.nodup, List.isChain_iff_getElem.2 fun i hi => ?_⟩
    have hle : i ≤ t.length := by simpa using Nat.lt_succ_iff.1 hi
    have hlt : i < (a :: t).length := by simp; omega
    have hget : (a :: t ++ [a])[i] = (a :: t)[i] := List.getElem_append_left hlt
    have hsucc := h.getElem?_succ i _ (List.getElem?_eq_getElem hlt)
    rw [← hclosed i hle, List.getElem?_eq_getElem hi] at hsucc
    rw [hget]
    exact (Option.some.inj hsucc).symm
  · rintro ⟨hnodup, hchain⟩
    refine ⟨List.cons_ne_nil _ _, hnodup, fun i x hx => ?_⟩
    have hi : i < (a :: t).length := (List.getElem?_eq_some_iff.1 hx).1
    rw [List.length_cons] at hi
    have hlt : i + 1 < (a :: t ++ [a]).length := by simp; omega
    have hstep := List.isChain_iff_getElem.1 hchain i hlt
    rw [← hclosed i (by omega), List.getElem?_eq_getElem hlt, ← hstep]
    have hopen : (a :: t ++ [a])[i]? = (a :: t)[i]? :=
      List.getElem?_append_left (by simpa using hi)
    rw [← hopen, List.getElem?_eq_getElem (by omega)] at hx
    rw [Option.some.inj hx]

/-- **Insertion.**  A new element between `a` and `f a`, where nothing else changes.  Where it comes
in the list is left open; that the list is a cycle of the old elements and the new one is all that
is used. -/
theorem exists_insert (h : CycleOn f l) (ha : a ∈ l) (hx : x ∉ l) (hga : g a = x)
    (hgx : g x = f a) (hg : ∀ y ∈ l, y ≠ a → g y = f y) :
    ∃ l', CycleOn g l' ∧ ∀ y, y ∈ l' ↔ y = x ∨ y ∈ l := by
  obtain ⟨t, hrot, ht⟩ := h.exists_rotated_cons ha
  obtain ⟨hnodup, hchain⟩ := iff_isChain.1 ht
  have hmem : ∀ y, y ∈ l ↔ y = a ∨ y ∈ t := fun y => by rw [hrot.mem_iff, List.mem_cons]
  have hat : a ∉ t := (List.nodup_cons.1 hnodup).1
  refine ⟨a :: x :: t, iff_isChain.2 ⟨?_, ?_⟩, fun y => ?_⟩
  · have hax : a ≠ x := by rintro rfl; exact hx ha
    have hxt : x ∉ t := fun hxt => hx ((hmem x).2 (Or.inr hxt))
    exact List.nodup_cons.2 ⟨by simp [hax, hat],
      List.nodup_cons.2 ⟨hxt, (List.nodup_cons.1 hnodup).2⟩⟩
  · have hrest : (t ++ [a]).IsChain (g · = ·) := by
      refine List.isChain_iff_getElem.2 fun i hi => ?_
      have hstep := List.isChain_iff_getElem.1 hchain (i + 1) (by simpa using hi)
      have hit : i < t.length := by simp at hi; omega
      have hget : (t ++ [a])[i] = t[i] := List.getElem_append_left hit
      have hti : t[i] ∈ t := List.getElem_mem hit
      rw [hget, hg _ ((hmem _).2 (Or.inr hti)) (fun heq => hat (heq ▸ hti)), ← hget]
      simpa using hstep
    have hfirst : (x :: (t ++ [a])).IsChain (g · = ·) := by
      cases t with
      | nil =>
        rw [List.nil_append, List.isChain_cons_cons]
        have hfa : f a = a := (List.isChain_cons_cons.1 hchain).1
        exact ⟨hgx.trans hfa, hrest⟩
      | cons b t =>
        rw [List.cons_append, List.isChain_cons_cons]
        exact ⟨hgx.trans (List.isChain_cons_cons.1 hchain).1, hrest⟩
    exact List.isChain_cons_cons.2 ⟨hga, hfirst⟩
  · rw [List.mem_cons, List.mem_cons, hmem]
    tauto

end CycleOn

/-! ## Skipping

A node that finds its neighbour dead goes on to the next one that lives.  `FirstAfter` is the place
where such a search ends, and `filter` says that the pointers found in this way form a cycle of the
living. -/

/-- `y` is the first place with `P` on the walk behind `x`.  With `P` for being alive, this is where
a ring that has lost some of its members goes on. -/
def FirstAfter (f : α → α) (P : α → Prop) (x y : α) : Prop :=
  ∃ k, f^[k + 1] x = y ∧ P y ∧ ∀ j < k, ¬P (f^[j + 1] x)

theorem FirstAfter.unique {f : α → α} {P : α → Prop} {x y z : α} (hy : FirstAfter f P x y)
    (hz : FirstAfter f P x z) : y = z := by
  obtain ⟨j, rfl, hPy, hj⟩ := hy
  obtain ⟨k, rfl, hPz, hk⟩ := hz
  rcases Nat.lt_trichotomy j k with hlt | rfl | hlt
  · exact absurd hPy (hk j hlt)
  · rfl
  · exact absurd hPz (hj k hlt)

namespace CycleOn

variable {f g : α → α} {l : List α} {P : α → Prop} {a b x : α}

theorem iterate_injOn (h : CycleOn f l) (ha : a ∈ l) (hb : b ∈ l) :
    ∀ {k : Nat}, f^[k] a = f^[k] b → a = b
  | 0, heq => heq
  | k + 1, heq => by
    rw [Function.iterate_succ_apply', Function.iterate_succ_apply'] at heq
    exact h.iterate_injOn ha hb (h.injOn (h.mem_iterate ha k) (h.mem_iterate hb k) heq)

/-- Two elements with `P` do not find the same next one. -/
theorem firstAfter_injOn (h : CycleOn f l) (ha : a ∈ l) (hb : b ∈ l) (hPa : P a) (hPb : P b)
    (hax : FirstAfter f P a x) (hbx : FirstAfter f P b x) : a = b := by
  -- of two that reach the same place, the one with the longer way passes the other
  have key : ∀ {a b : α} {j k : Nat}, a ∈ l → b ∈ l → P a → f^[j + 1] a = f^[k + 1] b → j ≤ k →
      (∀ i < k, ¬P (f^[i + 1] b)) → a = b := by
    intro a b j k ha hb hPa heq hjk hskip
    obtain ⟨d, rfl⟩ := Nat.exists_eq_add_of_le hjk
    rw [show j + d + 1 = j + 1 + d by omega, Function.iterate_add_apply f (j + 1) d b] at heq
    obtain rfl := h.iterate_injOn ha (h.mem_iterate hb d) heq
    cases d with
    | zero => rfl
    | succ d => exact absurd hPa (hskip d (by omega))
  obtain ⟨j, hj, -, hskipa⟩ := hax
  obtain ⟨k, hk, -, hskipb⟩ := hbx
  rcases Nat.le_total j k with hjk | hkj
  · exact key ha hb hPa (hj.trans hk.symm) hjk hskipb
  · exact (key hb ha hPb (hk.trans hj.symm) hkj hskipa).symm

/-- The skipping step along a chain.  The walk stands at `c`, `k` steps behind `a`, and has met
nobody with `P` since. -/
theorem isChain_filter [DecidablePred P] (hPb : P b) :
    ∀ (t : List α) (a : α) (k : Nat), P a → (∀ j < k, ¬P (f^[j + 1] a)) →
      (f^[k] a :: t ++ [b]).IsChain (f · = ·) →
      (∀ x ∈ a :: t, ∀ y, P x → FirstAfter f P x y → g x = y) →
      (a :: t.filter P ++ [b]).IsChain (g · = ·)
  | [], a, k, _, hskip, hchain, hg => by
    have hfb : f^[k + 1] a = b := by
      rw [Function.iterate_succ_apply']
      exact (List.isChain_cons_cons.1 hchain).1
    have hgb : g a = b := hg a List.mem_cons_self b ‹P a› ⟨k, hfb, hPb, hskip⟩
    simpa using hgb
  | d :: t, a, k, hPa, hskip, hchain, hg => by
    rw [List.cons_append, List.cons_append, List.isChain_cons_cons] at hchain
    have hfd : f^[k + 1] a = d := by rw [Function.iterate_succ_apply']; exact hchain.1
    by_cases hPd : P d
    · have hgd : g a = d := hg a List.mem_cons_self d hPa ⟨k, hfd, hPd, hskip⟩
      rw [List.filter_cons_of_pos (by simpa using hPd), List.cons_append, List.cons_append,
        List.isChain_cons_cons]
      exact ⟨hgd, isChain_filter hPb t d 0 hPd (by simp) hchain.2
        fun x hx => hg x (List.mem_cons_of_mem _ hx)⟩
    · rw [List.filter_cons_of_neg (by simpa using hPd)]
      refine isChain_filter hPb t a (k + 1) hPa (fun j hj => ?_) (hfd ▸ hchain.2) fun x hx => ?_
      · rcases Nat.lt_succ_iff_lt_or_eq.1 hj with hj | rfl
        · exact hskip j hj
        · rwa [hfd]
      · rcases List.mem_cons.1 hx with rfl | hx
        · exact hg x List.mem_cons_self
        · exact hg x (List.mem_cons_of_mem _ (List.mem_cons_of_mem _ hx))

/-- **Skipping.**  A function that leads from each element with `P` to the first one with `P`
behind it walks around the elements with `P`, in the old order. -/
theorem filter [DecidablePred P] (h : CycleOn f l) (hP : ∃ x ∈ l, P x)
    (hg : ∀ x ∈ l, ∀ y, P x → FirstAfter f P x y → g x = y) : CycleOn g (l.filter P) := by
  obtain ⟨a, ha, hPa⟩ := hP
  obtain ⟨l₁, l₂, rfl⟩ := List.append_of_mem ha
  obtain ⟨hnodup, hchain⟩ := iff_isChain.1
    (h.isRotated (List.isRotated_append : l₁ ++ a :: l₂ ~r a :: l₂ ++ l₁))
  have hkeep : (a :: (l₂ ++ l₁)).filter P = a :: (l₂ ++ l₁).filter P :=
    List.filter_cons_of_pos (by simpa using hPa)
  have hfilter : CycleOn g ((a :: (l₂ ++ l₁)).filter P) := by
    rw [hkeep]
    refine iff_isChain.2 ⟨hkeep ▸ hnodup.filter _, ?_⟩
    refine isChain_filter hPa (l₂ ++ l₁) a 0 hPa (by simp) hchain fun x hx => hg x ?_
    simp only [List.mem_cons, List.mem_append] at hx ⊢
    tauto
  rw [← List.cons_append, List.filter_append] at hfilter
  rw [List.filter_append]
  exact hfilter.isRotated List.isRotated_append

/-- On a cycle of more than one element nobody leads to itself. -/
theorem apply_ne_self (h : CycleOn f l) (ha : a ∈ l) (hb : b ∈ l) (hba : b ≠ a) : f a ≠ a := by
  intro hfix
  obtain ⟨k, -, rfl⟩ := h.exists_iterate ha hb
  exact hba (Function.iterate_fixed hfix k)

/-- **Removal.**  Who led to `a` now leads to where `a` led. -/
theorem remove [DecidableEq α] (h : CycleOn f l) (ha : a ∈ l) (hfa : f a ≠ a)
    (hg : ∀ x ∈ l, x ≠ a → g x = if f x = a then f a else f x) :
    CycleOn g (l.filter (· ≠ a)) := by
  refine h.filter ⟨f a, h.mem ha, hfa⟩ fun x hx y hxa hy => ?_
  rw [hg x hx hxa]
  split
  · next hfx =>
    have hskip : FirstAfter f (· ≠ a) x (f a) := by
      refine ⟨1, by rw [Function.iterate_succ_apply', Function.iterate_one, hfx], hfa, ?_⟩
      intro j hj
      obtain rfl : j = 0 := by omega
      exact fun hne => hne hfx
    exact hskip.unique hy
  · next hfx =>
    have hnext : FirstAfter f (· ≠ a) x (f x) := ⟨0, rfl, hfx, fun j hj => absurd hj (by omega)⟩
    exact hnext.unique hy

end CycleOn

/-! ## Both ways

The two surgeries on a doubly linked ring.  A removed element keeps its own pointers; nobody points
at it any more. -/

/-- `next` walks around `l`, and `prev` leads back.  That `prev` walks around the list the other way
follows. -/
structure LinkedCycle (next prev : α → α) (l : List α) : Prop where
  cycle : CycleOn next l
  prev_next : ∀ x ∈ l, prev (next x) = x

namespace LinkedCycle

variable {next prev : α → α} {l : List α} {a n x y : α}

theorem exists_next (h : LinkedCycle next prev l) (hx : x ∈ l) :
    ∃ y ∈ l, next y = x ∧ prev x = y := by
  obtain ⟨y, hy, rfl⟩ := h.cycle.exists_eq hx
  exact ⟨y, hy, rfl, h.prev_next y hy⟩

theorem prev_mem (h : LinkedCycle next prev l) (hx : x ∈ l) : prev x ∈ l := by
  obtain ⟨y, hy, -, rfl⟩ := h.exists_next hx
  exact hy

theorem next_prev (h : LinkedCycle next prev l) (hx : x ∈ l) : next (prev x) = x := by
  obtain ⟨y, -, hnext, rfl⟩ := h.exists_next hx
  exact hnext

theorem congr {next' prev' : α → α} (h : LinkedCycle next prev l)
    (hnext : ∀ x ∈ l, next x = next' x) (hprev : ∀ x ∈ l, prev x = prev' x) :
    LinkedCycle next' prev' l where
  cycle := h.cycle.congr hnext
  prev_next x hx := by
    rw [← hnext x hx, ← hprev _ (h.cycle.mem hx)]
    exact h.prev_next x hx

variable [DecidableEq α]

/-- **Insertion** of `a` before `n`: four pointers change, the two of `a` itself and those of its
neighbours that point at each other. -/
theorem insert (h : LinkedCycle next prev l) (hn : n ∈ l) (ha : a ∉ l) : ∃ l',
    LinkedCycle (Function.update (Function.update next (prev n) a) a n)
      (Function.update (Function.update prev n a) a (prev n)) l' ∧
      ∀ y, y ∈ l' ↔ y = a ∨ y ∈ l := by
  have hp : prev n ∈ l := h.prev_mem hn
  have hpa : prev n ≠ a := fun heq => ha (heq ▸ hp)
  have hna : n ≠ a := fun heq => ha (heq ▸ hn)
  obtain ⟨l', hl', hmem⟩ := h.cycle.exists_insert (x := a)
    (g := Function.update (Function.update next (prev n) a) a n) hp ha
    (by rw [Function.update_of_ne hpa, Function.update_self])
    (by rw [Function.update_self, h.next_prev hn])
    (fun y hy hyp => by
      have hya : y ≠ a := fun heq => ha (heq ▸ hy)
      rw [Function.update_of_ne hya, Function.update_of_ne hyp])
  refine ⟨l', ⟨hl', fun y hy => ?_⟩, hmem⟩
  by_cases hya : y = a
  · rw [hya, Function.update_self, Function.update_of_ne hna, Function.update_self]
  have hy : y ∈ l := ((hmem y).1 hy).resolve_left hya
  by_cases hyp : y = prev n
  · rw [hyp, Function.update_of_ne hpa, Function.update_self, Function.update_self]
  have hne : next y ≠ n := fun heq => hyp (heq ▸ (h.prev_next y hy).symm)
  have hnea : next y ≠ a := fun heq => ha (heq ▸ h.cycle.mem hy)
  rw [Function.update_of_ne hya, Function.update_of_ne hyp, Function.update_of_ne hnea,
    Function.update_of_ne hne, h.prev_next y hy]

/-- **Removal** of `a`: its neighbours are linked to each other.  What `a` itself points at does not
matter any more. -/
theorem remove (h : LinkedCycle next prev l) (ha : a ∈ l) (hne : next a ≠ a) :
    LinkedCycle (Function.update next (prev a) (next a)) (Function.update prev (next a) (prev a))
      (l.filter (· ≠ a)) := by
  have hprev : ∀ x ∈ l, next x = a → x = prev a := fun x hx heq => heq ▸ (h.prev_next x hx).symm
  refine ⟨h.cycle.remove ha hne fun x hx hxa => ?_, fun y hy => ?_⟩
  · by_cases hxp : x = prev a
    · rw [hxp, Function.update_self, if_pos (h.next_prev ha)]
    · rw [Function.update_of_ne hxp, if_neg fun heq => hxp (hprev x hx heq)]
  · obtain ⟨hy, hya⟩ := List.mem_filter.1 hy
    have hya : y ≠ a := of_decide_eq_true hya
    by_cases hyp : y = prev a
    · rw [hyp, Function.update_self, Function.update_self]
    have hnext : next y ≠ next a := fun heq => hya (h.cycle.injOn hy ha heq)
    rw [Function.update_of_ne hyp, Function.update_of_ne hnext, h.prev_next y hy]

end LinkedCycle

end DistributedPrograms
