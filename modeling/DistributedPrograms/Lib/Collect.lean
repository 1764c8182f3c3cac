import DistributedPrograms.Lib.Cycle

/-!
# Collecting the places of a walk

A token goes from place to place along `f`, writes down where it has been, and stops at the first
place that it finds on its list.  `Collects f start names dest` says that it began at `start`, has
been to `names`, nowhere twice, and is on its way to `dest`.

* `Collects.send` and `Collects.relay` are the two steps: a place sends a token with nobody but
  itself on it, and a place that is not on the token adds itself and sends the token on.  Both hold
  for any `f`.
* Where `f` walks around a cycle, the place where the token stops is its start, and it has been
  everywhere once (`Collects.home`).
* The length of the list tells how far the token still has to go, because it stops when the list is
  full (`Collects.mem_iff_length`).  That is what a count of the messages of a round is made of.

The pointers must stay what they are while the token is on its way.  Where they change in between,
only the bound by the number of places is left, which does not need this module.
-/

set_option autoImplicit false

namespace DistributedPrograms

variable {α : Type*}

/-- A token that has walked from `start` through `names`, nowhere twice, and goes to `dest`.  The
names are the places of the walk in their order, and the destination is the next one, which may be
on the list already. -/
structure Collects (f : α → α) (start : α) (names : List α) (dest : α) : Prop where
  names_eq : names = walk f start names.length
  dest_eq : dest = f^[names.length] start
  nodup : names.Nodup
  ne_nil : names ≠ []

namespace Collects

variable {f : α → α} {l names : List α} {start dest a : α}

/-- A place sends a token with nobody but itself on it. -/
theorem send (f : α → α) (a : α) : Collects f a [a] (f a) where
  names_eq := by simp [walk]
  dest_eq := rfl
  nodup := List.nodup_singleton a
  ne_nil := List.cons_ne_nil _ _

/-- A place that is not on the token adds itself and sends the token on. -/
theorem relay (h : Collects f start names dest) (hnew : dest ∉ names) :
    Collects f start (names ++ [dest]) (f dest) where
  names_eq := by
    rw [List.length_append, List.length_singleton, walk_succ, ← h.names_eq, ← h.dest_eq]
  dest_eq := by
    rw [List.length_append, List.length_singleton, Function.iterate_succ_apply', ← h.dest_eq]
  nodup := by
    rw [← List.concat_eq_append]
    exact h.nodup.concat hnew
  ne_nil := List.append_ne_nil_of_right_ne_nil _ (List.cons_ne_nil _ _)

theorem length_pos (h : Collects f start names dest) : 0 < names.length :=
  List.length_pos_iff.2 h.ne_nil

/-- The first place on the list is the start. -/
theorem exists_cons (h : Collects f start names dest) : ∃ rest, names = start :: rest := by
  obtain ⟨k, hk⟩ := Nat.exists_eq_add_one.2 h.length_pos
  have hnames := h.names_eq
  rw [hk, walk, List.range_succ_eq_map, List.map_cons] at hnames
  exact ⟨_, hnames⟩

/-! ## On a cycle

Where the places form one cycle, a token that comes to a place again has been everywhere. -/

variable (hcycle : CycleOn f l) (hstart : start ∈ l)
include hcycle hstart

theorem dest_mem (h : Collects f start names dest) : dest ∈ l :=
  h.dest_eq ▸ hcycle.mem_iterate hstart _

theorem subset (h : Collects f start names dest) : names ⊆ l := by
  intro y hy
  rw [h.names_eq] at hy
  obtain ⟨j, -, rfl⟩ := mem_walk.1 hy
  exact hcycle.mem_iterate hstart j

/-- **The token stops at its start**, and has been everywhere.  On a cycle the first place that a
walk comes to again is the one where it began. -/
theorem home (h : Collects f start names dest) (hvisit : dest ∈ names) :
    dest = start ∧ names.Perm l := by
  have hwalk : (walk f start names.length).Nodup := h.names_eq ▸ h.nodup
  have hrevisit : f^[names.length] start ∈ walk f start names.length := by
    rw [← h.dest_eq, ← h.names_eq]
    exact hvisit
  refine ⟨?_, ?_⟩
  · rw [h.dest_eq]
    exact (hcycle.revisit_iff hstart h.length_pos hwalk).1 hrevisit
  · rw [h.names_eq]
    exact (hcycle.walk_perm hstart hwalk hrevisit).2

/-- It stops when its list is full. -/
theorem mem_iff_length (h : Collects f start names dest) :
    dest ∈ names ↔ names.length = l.length := by
  refine ⟨fun hvisit => (h.home hcycle hstart hvisit).2.length_eq, fun hlen => ?_⟩
  have hsub := List.subperm_of_subset h.nodup (h.subset hcycle hstart)
  exact (hsub.perm_of_length_le hlen.ge).mem_iff.2 (h.dest_mem hcycle hstart)

theorem length_le (h : Collects f start names dest) : names.length ≤ l.length :=
  (List.subperm_of_subset h.nodup (h.subset hcycle hstart)).length_le

theorem length_lt (h : Collects f start names dest) (hnew : dest ∉ names) :
    names.length < l.length :=
  (h.length_le hcycle hstart).lt_of_ne fun hlen => hnew ((h.mem_iff_length hcycle hstart).2 hlen)

/-- When the token stops, everybody is where it stops or was called behind its start. -/
theorem eq_or_mem_tail (h : Collects f start names dest) (hvisit : dest ∈ names) (ha : a ∈ l) :
    a = dest ∨ a ∈ names.tail := by
  obtain ⟨rfl, hperm⟩ := h.home hcycle hstart hvisit
  obtain ⟨rest, rfl⟩ := h.exists_cons
  exact List.mem_cons.1 (hperm.mem_iff.2 ha)

end Collects

end DistributedPrograms
