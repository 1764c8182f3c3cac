import Mathlib.Data.List.Infix
import Mathlib.Data.List.TakeDrop

/-!
# Prefixes of lists

A log that only grows is compared with what it was before: the old log is a prefix of the new one.
Two logs that were both copied from one third log are prefixes of it.  Most of what a replicated log
promises comes down to facts about `<+:`, and those that the library does not have are here:

* `Comparable` is the relation "one is a prefix of the other".  Two prefixes of one list are
  comparable (`comparable_of_isPrefix`), and so are prefixes of comparable lists
  (`Comparable.of_isPrefix`); which of the two is the prefix is decided by their lengths
  (`Comparable.prefix_of_length_le`).
* A prefix and its list agree at every index at which the prefix has an entry (`prefix_getElem?`),
  and cutting both at such an index gives the same list (`take_eq_take_of_isPrefix`).
* `mem_suffix_or` places a member of a list against a suffix of it.  Histories are lists with the
  latest state first, so this is how two moments of one run are ordered.

Nothing here is about logs or about terms; the entries are of any type.
-/

set_option autoImplicit false

namespace DistributedPrograms

variable {α : Type*} {X Y L L' P : List α}

/-- One of the lists is a prefix of the other.  Which one it is, is left open: of two moments of a
growing list either may be the later. -/
def Comparable (X Y : List α) : Prop := X <+: Y ∨ Y <+: X

instance [DecidableEq α] (X Y : List α) : Decidable (Comparable X Y) := by
  unfold Comparable; infer_instance

theorem Comparable.symm (h : Comparable X Y) : Comparable Y X := Or.symm h

theorem comparable_of_isPrefix (hX : X <+: L) (hY : Y <+: L) : Comparable X Y :=
  List.prefix_or_prefix_of_prefix hX hY

/-- Prefixes of comparable lists are comparable. -/
theorem Comparable.of_isPrefix (h : Comparable L L') (hX : X <+: L) (hY : Y <+: L') :
    Comparable X Y := by
  rcases h with h | h
  · exact comparable_of_isPrefix (hX.trans h) hY
  · exact comparable_of_isPrefix hX (hY.trans h)

/-- Of comparable lists the shorter is the prefix. -/
theorem Comparable.prefix_of_length_le (h : Comparable X Y) (hlen : X.length ≤ Y.length) :
    X <+: Y := by
  rcases h with h | h
  · exact h
  · rw [h.eq_of_length (Nat.le_antisymm h.length_le hlen)]

theorem Comparable.eq_of_length (h : Comparable X Y) (hlen : X.length = Y.length) : X = Y :=
  (h.prefix_of_length_le (Nat.le_of_eq hlen)).eq_of_length hlen

/-- A prefix and the list have the same entries where both have one. -/
theorem prefix_getElem? (h : X <+: Y) {i : Nat} (hi : i < X.length) : Y[i]? = X[i]? := by
  obtain ⟨Z, rfl⟩ := h
  exact List.getElem?_append_left hi

theorem prefix_getElem?_eq_some (h : X <+: Y) {i : Nat} {x : α} (hx : X[i]? = some x) :
    Y[i]? = some x := by
  rw [prefix_getElem? h (List.getElem?_eq_some_iff.1 hx).1, hx]

/-- A prefix is what one gets by cutting the list to its length. -/
theorem take_eq_of_isPrefix (h : X <+: Y) : Y.take X.length = X :=
  (List.prefix_iff_eq_take.1 h).symm

/-- Cut within a prefix, the list and the prefix are the same. -/
theorem take_eq_take_of_isPrefix (h : X <+: Y) {i : Nat} (hi : i < X.length) :
    Y.take (i + 1) = X.take (i + 1) := by
  obtain ⟨Z, rfl⟩ := h
  exact List.take_append_of_le_length hi

/-- A list that begins with `x` still does after it is cut behind its first entries. -/
theorem singleton_prefix_take {x : α} (h : [x] <+: X) (k : Nat) : [x] <+: X.take (k + 1) := by
  obtain ⟨Z, rfl⟩ := h
  exact ⟨Z.take k, by simp⟩

/-- A member of a list is in a given suffix of it, or the whole suffix lies behind it. -/
theorem mem_suffix_or (h : L <:+ L') {x : α} (hx : x ∈ L') :
    x ∈ L ∨ ∃ Z, (x :: Z) <:+ L' ∧ L <:+ Z := by
  obtain ⟨W, rfl⟩ := h
  rcases List.mem_append.1 hx with hx | hx
  · obtain ⟨W₁, W₂, rfl⟩ := List.append_of_mem hx
    exact Or.inr ⟨W₂ ++ L, ⟨W₁, by simp⟩, List.suffix_append _ _⟩
  · exact Or.inl hx

end DistributedPrograms
