import Mathlib.Data.List.Basic

/-!
# Reading a list in pages

A list is read by calls that answer what is left of it from an offset on; the reader takes some of
the answer and calls again, with the offset that the last element taken carries.  This is how a
kernel reads a directory: how much of an answer it takes depends on its buffer, and where it goes on
depends on what the entries themselves say.

`resume a` is the offset an element carries, if it carries one.  The reader of call `n` takes at
most `k n + 1` elements, so that `k` is one way of splitting the list, and a statement for every `k`
is one for every reader.

* `walk` is what has been read in the first `n` calls, with the offset of the next one, and
  `ReadsAll` says that the reading ends and has read exactly the list: nothing left out, nothing
  twice.
* `stop` is where call `n` should stop if all went well, and `StopsWell` says that the last element
  it takes carries its own position.
* `walk_cases` is the invariant.  Either all stops so far were good, and just the elements up to the
  last one have been read; or the offset has fallen behind what was read.
* `readsAll_iff`: if no element carries more than its own position, the pages put together are the
  list, and the reading ends, exactly if each element behind which a call stops carries its
  position.  An offset that falls behind is never made up for.

The condition that no element carries *more* than its position is what rules out an element that
makes the reader skip some; there the reading could still end, with something left out.
-/

set_option autoImplicit false

namespace DistributedPrograms
namespace Paging

variable {α : Type*} (resume : α → Option Nat) (page : Nat → Option (List α)) (k : Nat → Nat)

/-- The offset of the next call: the last one that the page carries. -/
def next (start : Nat) (taken : List α) : Nat := (taken.reverse.findSome? resume).getD start

/-- What has been read in the first `n` calls, and the offset of the next one.  Call `n` takes the
first `k n + 1` elements of its page and leaves the rest, as a reader does whose buffer is full. -/
def walk : Nat → Option (List α × Nat)
  | 0 => some ([], 0)
  | n + 1 => do
    let (read, start) ← walk n
    let answer ← page start
    let taken := answer.take (k n + 1)
    pure (read ++ taken, next resume start taken)

/-- The reading ends, and has read exactly `l`.  It ends at a page that is empty. -/
def ReadsAll (l : List α) : Prop :=
  ∃ n start, walk resume page k n = some (l, start) ∧ page start = some []

/-- Where call `n` stops in the list. -/
def stop (k : Nat → Nat) (l : List α) : Nat → Nat
  | 0 => 0
  | n + 1 => min (stop k l n + k n + 1) l.length

/-- The last element that call `n` takes carries its position.  The others that it takes may carry
anything. -/
def StopsWell (l : List α) (n : Nat) : Prop :=
  ∀ a, l[stop k l (n + 1) - 1]? = some a → resume a = some (stop k l (n + 1))

variable {resume page k} {l : List α}

theorem stop_le (n : Nat) : stop k l n ≤ l.length := by
  cases n with
  | zero => exact Nat.zero_le _
  | succ n => exact Nat.min_le_right _ _

theorem le_stop (n : Nat) : min n l.length ≤ stop k l n := by
  induction n with
  | zero => simp
  | succ n ih =>
    rw [stop]
    omega

theorem stop_succ_of_eq {n : Nat} (h : stop k l n = l.length) : stop k l (n + 1) = l.length := by
  rw [stop]
  omega

theorem stop_eq_of_le {m n : Nat} (h : stop k l m = l.length) (hmn : m ≤ n) :
    stop k l n = l.length := by
  induction hmn with
  | refl => exact h
  | step _ ih => exact stop_succ_of_eq ih

/-- A call that starts where the last one stopped takes the elements up to its own stop. -/
theorem take_append_taken (n : Nat) :
    l.take (stop k l n) ++ (l.drop (stop k l n)).take (k n + 1) = l.take (stop k l (n + 1)) := by
  rw [← List.take_add, stop, Nat.add_assoc]
  rcases Nat.le_total (stop k l n + (k n + 1)) l.length with hle | hle
  · rw [Nat.min_eq_left hle]
  · rw [Nat.min_eq_right hle, List.take_of_length_le hle, List.take_length]

theorem next_nil (start : Nat) : next resume start [] = start := rfl

theorem next_concat (start : Nat) (taken : List α) (a : α) :
    next resume start (taken ++ [a]) = (resume a).getD (next resume start taken) := by
  rw [next, List.reverse_append, List.reverse_singleton, List.singleton_append,
    List.findSome?_cons]
  cases resume a <;> rfl

/-- The next offset is not ahead of what was taken. -/
theorem next_le (hresume : ∀ i a r, l[i]? = some a → resume a = some r → r ≤ i + 1)
    (start m : Nat) (hm : start + m ≤ l.length) :
    next resume start ((l.drop start).take m) ≤ start + m := by
  induction m with
  | zero => exact Nat.le_refl _
  | succ m ih =>
    have hidx : start + m < l.length := by omega
    rw [List.take_add_one, List.getElem?_drop, List.getElem?_eq_getElem hidx, Option.toList_some,
      next_concat]
    have hle := ih (by omega)
    cases hr : resume l[start + m] with
    | none =>
      rw [Option.getD_none]
      omega
    | some r =>
      have hbound := hresume (start + m) _ r (List.getElem?_eq_getElem hidx) hr
      rw [Option.getD_some]
      omega

/-- A page that is not empty ends with the element in front of the stop. -/
theorem taken_eq {n : Nat} (hlt : stop k l n < l.length) :
    ∃ m a, stop k l (n + 1) = stop k l n + m + 1 ∧ l[stop k l (n + 1) - 1]? = some a ∧
      (l.drop (stop k l n)).take (k n + 1) = (l.drop (stop k l n)).take m ++ [a] := by
  have hsucc : stop k l (n + 1) = min (stop k l n + k n + 1) l.length := rfl
  have hidx : stop k l (n + 1) - 1 < l.length := by omega
  have hget := List.getElem?_eq_getElem hidx
  refine ⟨stop k l (n + 1) - 1 - stop k l n, l[stop k l (n + 1) - 1], by omega, hget, ?_⟩
  have htake : (l.drop (stop k l n)).take (k n + 1) =
      (l.drop (stop k l n)).take (stop k l (n + 1) - 1 - stop k l n + 1) := by
    rw [List.take_eq_take_iff, List.length_drop]
    omega
  rw [htake, List.take_add_one, List.getElem?_drop,
    show stop k l n + (stop k l (n + 1) - 1 - stop k l n) = stop k l (n + 1) - 1 by omega, hget]
  rfl

/-- From a good stop the next call starts where this one has stopped. -/
theorem next_taken {n : Nat} (h : StopsWell resume k l n) :
    next resume (stop k l n) ((l.drop (stop k l n)).take (k n + 1)) = stop k l (n + 1) := by
  rcases Nat.lt_or_ge (stop k l n) l.length with hlt | hge
  · obtain ⟨m, a, -, hget, htaken⟩ := taken_eq (k := k) hlt
    rw [htaken, next_concat, h a hget, Option.getD_some]
  · have heq : stop k l n = l.length := Nat.le_antisymm (stop_le n) hge
    rw [List.drop_of_length_le hge, List.take_nil, next_nil, stop_succ_of_eq heq, heq]

/-- From a bad stop it starts before. -/
theorem next_taken_lt (hresume : ∀ i a r, l[i]? = some a → resume a = some r → r ≤ i + 1) {n : Nat}
    (hlt : stop k l n < l.length) (h : ¬StopsWell resume k l n) :
    next resume (stop k l n) ((l.drop (stop k l n)).take (k n + 1)) < stop k l (n + 1) := by
  obtain ⟨m, a, hsucc, hget, htaken⟩ := taken_eq (k := k) hlt
  have hle : stop k l (n + 1) ≤ l.length := stop_le (n + 1)
  rw [htaken, next_concat]
  cases hr : resume a with
  | none =>
    have hprev := next_le hresume (stop k l n) m (by omega)
    rw [Option.getD_none]
    omega
  | some r =>
    have hbound := hresume _ a r hget hr
    have hne : r ≠ stop k l (n + 1) := by
      rintro rfl
      refine h fun b hb => ?_
      obtain rfl : a = b := Option.some.inj (hget.symm.trans hb)
      exact hr
    rw [Option.getD_some]
    omega

/-- Where the end has been reached, later calls stop where the last one did. -/
theorem stopsWell_of_end {n : Nat} (hstop : stop k l n = l.length)
    (hgood : ∀ m < n, StopsWell resume k l m) (m : Nat) : StopsWell resume k l m := by
  rcases Nat.lt_or_ge m n with hm | hm
  · exact hgood m hm
  cases n with
  | zero =>
    intro a ha
    rw [List.length_eq_zero_iff.1 hstop.symm] at ha
    simp at ha
  | succ n =>
    have hlast := hgood n (Nat.lt_succ_self n)
    rw [StopsWell, hstop] at hlast
    rw [StopsWell, stop_eq_of_le hstop (Nat.le_succ_of_le hm)]
    exact hlast

theorem walk_succ {n start : Nat} {read answer : List α}
    (hwalk : walk resume page k n = some (read, start)) (hanswer : page start = some answer) :
    walk resume page k (n + 1) = some (read ++ answer.take (k n + 1),
      next resume start (answer.take (k n + 1))) := by
  rw [walk, hwalk]
  show (page start).bind _ = _
  rw [hanswer]
  rfl

/-- After good stops just the elements up to the last one have been read. -/
theorem walk_of_stopsWell (hpage : ∀ start ≤ l.length, page start = some (l.drop start)) {n : Nat}
    (hgood : ∀ m < n, StopsWell resume k l m) :
    walk resume page k n = some (l.take (stop k l n), stop k l n) := by
  induction n with
  | zero => simp [walk, stop]
  | succ n ih =>
    have hwalk := ih fun m hm => hgood m (Nat.lt_succ_of_lt hm)
    rw [walk_succ hwalk (hpage _ (stop_le n)), take_append_taken,
      next_taken (hgood n (Nat.lt_succ_self n))]

/-- Either all stops so far were good, or the offset is behind what was read. -/
theorem walk_cases (hpage : ∀ start ≤ l.length, page start = some (l.drop start))
    (hresume : ∀ i a r, l[i]? = some a → resume a = some r → r ≤ i + 1) (n : Nat) :
    (∀ m < n, StopsWell resume k l m) ∨
    ∃ read start, walk resume page k n = some (read, start) ∧ start < read.length ∧
      start ≤ l.length := by
  induction n with
  | zero => exact Or.inl (by simp)
  | succ n ih =>
    rcases ih with hgood | ⟨read, start, hwalk, hlt, hstart⟩
    · by_cases hstop : StopsWell resume k l n
      · refine Or.inl fun m hm => ?_
        rcases Nat.lt_succ_iff_lt_or_eq.1 hm with hm | rfl
        · exact hgood m hm
        · exact hstop
      · have hlt : stop k l n < l.length := by
          refine Nat.lt_of_le_of_ne (stop_le n) fun heq => hstop ?_
          exact stopsWell_of_end heq hgood n
        have hnext := next_taken_lt hresume hlt hstop
        refine Or.inr ⟨_, _, walk_succ (walk_of_stopsWell hpage hgood) (hpage _ (stop_le n)), ?_,
          Nat.le_trans (Nat.le_of_lt hnext) (stop_le _)⟩
        rw [take_append_taken, List.length_take, Nat.min_eq_left (stop_le _)]
        exact hnext
    · refine Or.inr ⟨_, _, walk_succ hwalk (hpage start hstart), ?_⟩
      have htaken : (l.drop start).take (k n + 1) =
          (l.drop start).take (min (k n + 1) (l.length - start)) := by
        rw [List.take_eq_take_iff, List.length_drop]
        omega
      rw [htaken, List.length_append, List.length_take, List.length_drop]
      have hle := next_le hresume start (min (k n + 1) (l.length - start)) (by omega)
      omega

/-- **When reading in pages reads the list.**  Exactly if every call stops behind an element that
carries its own position. -/
theorem readsAll_iff (hpage : ∀ start ≤ l.length, page start = some (l.drop start))
    (hresume : ∀ i a r, l[i]? = some a → resume a = some r → r ≤ i + 1) :
    ReadsAll resume page k l ↔ ∀ n, StopsWell resume k l n := by
  constructor
  · rintro ⟨n, start, hwalk, hend⟩
    have hlength : start ≤ l.length → l.length ≤ start := by
      intro hstart
      rw [hpage start hstart, Option.some.injEq, List.drop_eq_nil_iff] at hend
      exact hend
    rcases walk_cases (k := k) hpage hresume n with hgood | ⟨read, start', hwalk', hlt, hstart⟩
    · have hideal := walk_of_stopsWell hpage hgood
      obtain ⟨-, rfl⟩ := Prod.mk.inj (Option.some.inj (hwalk.symm.trans hideal))
      exact stopsWell_of_end (Nat.le_antisymm (stop_le n) (hlength (stop_le n))) hgood
    · obtain ⟨rfl, rfl⟩ := Prod.mk.inj (Option.some.inj (hwalk.symm.trans hwalk'))
      have hge := hlength hstart
      omega
  · intro hgood
    have hstop : stop k l l.length = l.length :=
      Nat.le_antisymm (stop_le _) (by simpa using le_stop (k := k) (l := l) l.length)
    have hwalk := walk_of_stopsWell hpage fun m (_ : m < l.length) => hgood m
    rw [hstop, List.take_length] at hwalk
    exact ⟨l.length, l.length, hwalk, by rw [hpage _ (Nat.le_refl _), List.drop_length]⟩

end Paging
end DistributedPrograms
