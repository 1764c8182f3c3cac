import Mathlib.Data.List.TakeDrop
import Mathlib.Order.MinMax

/-!
# Reading and writing in the middle of a file

A file is a list.  `slice` is the part that a read at a position returns, and `overwrite` what a
write at a position leaves, with zeros between the old end and a position behind it.  A write of
nothing leaves the file as it is, also behind its end.

* `slice_overwrite`: what was written is there;
* `slice_append`: a slice in two parts, as a loop of short reads collects it, and
  `slice_of_slice_eq_nil`: behind the end of a file there is nothing, which is where such a loop
  stops;
* `getElem?_overwrite`: what stands where after a write, from which the rest follows;
* `slice_overwrite_of_apart`: a write inside the file is not seen apart from it;
* `overwrite_comm`: writes that are apart come in either order, if one of them is inside the file.

The last two are about a write inside the file.  One behind the end makes the file longer and fills
what is in between with zeros, so it is seen in places that it writes nothing to.
-/

set_option autoImplicit false

namespace DistributedPrograms

variable {α : Type*}

/-- The `n` elements from `pos` on, fewer where the file ends. -/
def slice (file : List α) (pos n : Nat) : List α := (file.drop pos).take n

/-- The file after `data` was written at `pos`; nothing is written where there is no data.  A gap
between the end of the file and `pos` is filled with `zero`, as in a file with a hole. -/
def overwrite (zero : α) (file : List α) (pos : Nat) (data : List α) : List α :=
  if data.isEmpty then file
  else file.takeD pos zero ++ data ++ file.drop (pos + data.length)

variable {zero : α} {file data : List α} {pos : Nat}

theorem overwrite_nil : overwrite zero file pos [] = file := rfl

/-- **What was written is there**, wherever the write began. -/
theorem slice_overwrite : slice (overwrite zero file pos data) pos data.length = data := by
  cases data with
  | nil => exact List.take_zero
  | cons a data =>
    have hlength : (file.takeD pos zero).length = pos := List.takeD_length _ _ _
    rw [slice, overwrite, if_neg (by simp), List.append_assoc, List.drop_left' hlength]
    exact List.take_left

variable {k n : Nat}

/-- A slice is as long as what it holds. -/
theorem slice_length : slice file pos (slice file pos k).length = slice file pos k := by
  rw [slice, slice, List.length_take, ← List.take_eq_take_min]

theorem length_slice_mono (h : k ≤ n) : (slice file pos k).length ≤ (slice file pos n).length := by
  rw [slice, slice, List.length_take, List.length_take]
  exact min_le_min_right (List.length (file.drop pos)) h

/-- A slice in two parts, of which the first may have ended with the file. -/
theorem slice_append (h : k ≤ n) :
    slice file pos k ++ slice file (pos + (slice file pos k).length) (n - (slice file pos k).length) =
      slice file pos n := by
  have hlength : (slice file pos k).length ≤ n := Nat.le_trans (List.length_take_le _ _) h
  have hrest : slice file (pos + (slice file pos k).length) (n - (slice file pos k).length) =
      ((file.drop pos).drop (slice file pos k).length).take (n - (slice file pos k).length) := by
    rw [slice, List.drop_drop]
  rw [hrest]
  nth_rewrite 1 [← slice_length]
  rw [slice, ← List.take_add, Nat.add_sub_cancel' hlength, slice]

/-- Behind the end of a file there is nothing. -/
theorem slice_of_slice_eq_nil (hk : 0 < k) (h : slice file pos k = []) : slice file pos n = [] := by
  obtain hk' | hdrop := List.take_eq_nil_iff.1 h
  · exact absurd hk' (Nat.ne_of_gt hk)
  · rw [slice, hdrop, List.take_nil]

/-! ## Writes that are apart

Two writes, or a write and a read, are apart if the one ends where the other begins or before.  All
is compared element by element. -/

variable {pos' : Nat} {data' : List α}

theorem getElem?_takeD {k : Nat} (h : k < pos) :
    (file.takeD pos zero)[k]? = some (file[k]?.getD zero) := by
  induction pos generalizing file k with
  | zero => contradiction
  | succ pos ih =>
    cases k with
    | zero => rw [List.takeD_succ, List.getElem?_cons_zero, List.head?_eq_getElem?]
    | succ k =>
      rw [List.takeD_succ, List.getElem?_cons_succ, ih (Nat.lt_of_succ_lt_succ h), List.getElem?_tail]

/-- What stands where after a write. -/
theorem getElem?_overwrite (hdata : data ≠ []) (k : Nat) :
    (overwrite zero file pos data)[k]? =
      if k < pos then some (file[k]?.getD zero)
      else if k < pos + data.length then data[k - pos]? else file[k]? := by
  have hlength : (file.takeD pos zero).length = pos := List.takeD_length _ _ _
  rw [overwrite, if_neg (by simpa using hdata), List.append_assoc]
  split_ifs with hbefore hin
  · rw [List.getElem?_append_left (by omega), getElem?_takeD hbefore]
  · rw [List.getElem?_append_right (by omega), hlength, List.getElem?_append_left (by omega)]
  · rw [List.getElem?_append_right (by omega), hlength, List.getElem?_append_right (by omega),
      List.getElem?_drop]
    congr 1
    omega

/-- A write inside the file changes what it is about, and nothing else. -/
theorem getElem?_overwrite_of_le (hle : pos + data.length ≤ file.length) (k : Nat) :
    (overwrite zero file pos data)[k]? =
      if pos ≤ k ∧ k < pos + data.length then data[k - pos]? else file[k]? := by
  rcases eq_or_ne data [] with rfl | hdata
  · rw [overwrite_nil, if_neg fun h => absurd h.2 (Nat.not_lt.2 h.1)]
  · rw [getElem?_overwrite hdata]
    split_ifs with hbefore hin
    · omega
    · rw [List.getElem?_eq_getElem (by omega), Option.getD_some]
    · rfl
    · omega
    · omega
    · rfl

theorem length_overwrite_of_le (hle : pos + data.length ≤ file.length) :
    (overwrite zero file pos data).length = file.length := by
  rw [overwrite]
  split
  · rfl
  · rw [List.length_append, List.length_append, List.takeD_length, List.length_drop]
    omega

/-- A write takes nothing away. -/
theorem length_le_overwrite : file.length ≤ (overwrite zero file pos data).length := by
  rw [overwrite]
  split
  · exact Nat.le_refl _
  · rw [List.length_append, List.length_append, List.takeD_length, List.length_drop]
    omega

theorem getElem?_slice {start : Nat} (k : Nat) :
    (slice file start n)[k]? = if k < n then file[start + k]? else none := by
  rw [slice, List.getElem?_take, List.getElem?_drop]

/-- **A write inside the file is not seen apart from it.** -/
theorem slice_overwrite_of_apart {start : Nat} (hle : pos + data.length ≤ file.length)
    (hapart : pos + data.length ≤ start ∨ start + n ≤ pos) :
    slice (overwrite zero file pos data) start n = slice file start n := by
  refine List.ext_getElem? fun k => ?_
  rw [getElem?_slice, getElem?_slice]
  split_ifs with hk
  · rw [getElem?_overwrite_of_le hle, if_neg (by omega)]
  · rfl

/-- **Writes that are apart come in either order**, if one of them is inside the file.  If both went
behind its end, the gap that one fills would be there or not. -/
theorem overwrite_comm (hle : pos + data.length ≤ file.length)
    (hapart : pos + data.length ≤ pos' ∨ pos' + data'.length ≤ pos) :
    overwrite zero (overwrite zero file pos' data') pos data =
      overwrite zero (overwrite zero file pos data) pos' data' := by
  rcases eq_or_ne data' [] with rfl | hdata'
  · rw [overwrite_nil, overwrite_nil]
  · refine List.ext_getElem? fun k => ?_
    have hle' : pos + data.length ≤ (overwrite zero file pos' data').length :=
      Nat.le_trans hle length_le_overwrite
    rw [getElem?_overwrite_of_le hle', getElem?_overwrite hdata', getElem?_overwrite hdata',
      getElem?_overwrite_of_le hle]
    have hin : pos ≤ k ∧ k < pos + data.length →
        data[k - pos]? = some (data[k - pos]?.getD zero) := by
      intro hk
      rw [List.getElem?_eq_getElem (by omega), Option.getD_some]
    split_ifs with hk hbefore hafter
    · exact hin hk
    · omega
    · rfl
    · rfl
    · rfl
    · rfl

end DistributedPrograms
