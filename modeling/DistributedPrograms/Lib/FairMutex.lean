import Mathlib.Data.List.Basic
import Mathlib.Data.List.Nodup

/-!
# Fair mutexes

A mutex whose permit belongs to at most one task, with a queue of the tasks that wait for it.

* A task `poll`s: it gets the permit if nobody has it, and otherwise takes its place at the end of
  the queue, once.  A poll that could get the permit does get it.
* To `cancel` is to give up one's place; if this is the permit itself, it goes to the first task in
  the queue.
* `pass` gives the permit back after use, to the same task.

That a permit never becomes free while somebody waits, and goes to the one who waits longest, is
what makes the mutex fair.  It is what the documentation of an asynchronous mutex promises, taken
here as its definition; no scheduler's budget comes in between, for which a poll may be told to come
again although the permit is there.

A free mutex has an empty queue, and nobody is in it twice: this is part of the type, so no
operation can lead out of it and no later proof has to say it again.

The lemmas about the operations say who has a place afterwards (`holds_poll`, `holds_cancel`) and
who has the permit (`poll_owner`, `pass_owner`, `cancel_owner_of_ne`).  `Ahead t u` says that `t`
has its place in front of `u`; nothing that other tasks do changes that (`Ahead.poll`,
`Ahead.cancel`), and who is at the head of the queue gets the permit when it is passed on.  A task
may wait in several mutexes at once; this module is about one of them.
-/

set_option autoImplicit false

namespace DistributedPrograms

/-- Who has the permit, and who waits for it, the first in front.  The fields exclude what cannot
be: that somebody waits while the permit is free, that a place is taken twice, or that the owner
waits as well. -/
structure FairMutex (T : Type*) where
  owner : Option T
  queue : List T
  queue_of_free : owner = none → queue = []
  nodup : queue.Nodup
  owner_not_mem : ∀ t ∈ owner, t ∉ queue

namespace FairMutex

variable {T : Type*}

/-- Nobody has it. -/
def free : FairMutex T where
  owner := none
  queue := []
  queue_of_free _ := rfl
  nodup := List.nodup_nil
  owner_not_mem _ h := absurd h (Option.not_mem_none _)

/-- `t` has the permit or waits for it. -/
def Holds (m : FairMutex T) (t : T) : Prop := m.owner = some t ∨ t ∈ m.queue

/-- `t` comes before `u` in the list, or `u` does not come at all. -/
def Before (t u : T) (l : List T) : Prop := ∃ l₁ l₂, l = l₁ ++ t :: l₂ ∧ u ∉ l₁

/-- `t` has its place in front of `u`: it has the permit already, or its place comes earlier in the
queue, or `u` has none. -/
def Ahead (m : FairMutex T) (t u : T) : Prop :=
  m.owner = some t ∨ m.owner ≠ some u ∧ Before t u m.queue

variable {m : FairMutex T} {t u w : T}

instance [DecidableEq T] : Decidable (m.Holds t) := by unfold Holds; infer_instance

theorem Ahead.holds (h : m.Ahead t u) : m.Holds t := by
  rcases h with h | ⟨-, l₁, l₂, hq, -⟩
  · exact Or.inl h
  · exact Or.inr (hq ▸ List.mem_append_right _ List.mem_cons_self)

theorem Ahead.owner_ne (h : m.Ahead t u) (htu : t ≠ u) : m.owner ≠ some u := by
  rcases h with h | ⟨h, -⟩
  · exact fun hu => htu (Option.some.inj (h.symm.trans hu))
  · exact h

/-- Whoever has a place is in front of those who have none. -/
theorem Holds.ahead (h : m.Holds t) (hu : ¬m.Holds u) : m.Ahead t u := by
  rcases h with h | h
  · exact Or.inl h
  · obtain ⟨l₁, l₂, hq⟩ := List.append_of_mem h
    refine Or.inr ⟨fun hown => hu (Or.inl hown), l₁, l₂, hq, fun hmem => hu (Or.inr ?_)⟩
    rw [hq]
    exact List.mem_append_left _ hmem

theorem not_holds_free : ¬(free : FairMutex T).Holds t := by
  rintro (h | h)
  · cases h
  · cases h

/-- A mutex that is not free because somebody waits has an owner. -/
theorem exists_owner (h : m.Holds t) : ∃ u, m.owner = some u := by
  cases ho : m.owner with
  | some u => exact ⟨u, rfl⟩
  | none =>
    rcases h with h | h
    · rw [ho] at h
      cases h
    · rw [m.queue_of_free ho] at h
      cases h

/-! ## Polling

A poll is what a lock future does when it is looked at.  It never takes a place away from anybody,
and who polls again keeps the place of the first time. -/

section Poll

variable [DecidableEq T]

/-- `t` asks for the permit.  It has got it if it is the owner afterwards; otherwise it has a place
at the end of the queue, or keeps the one it had. -/
def poll (m : FairMutex T) (t : T) : FairMutex T :=
  if hfree : m.owner = none then
    { owner := some t
      queue := m.queue
      queue_of_free := fun h => by cases h
      nodup := m.nodup
      owner_not_mem := fun u _ hu => by
        rw [m.queue_of_free hfree] at hu
        cases hu }
  else if hplace : m.Holds t then m
  else
    { owner := m.owner
      queue := m.queue ++ [t]
      queue_of_free := fun h => absurd h hfree
      nodup := by
        rw [← List.concat_eq_append]
        exact m.nodup.concat fun h => hplace (Or.inr h)
      owner_not_mem := fun u hu hmem => by
        rcases List.mem_append.1 hmem with hmem | hmem
        · exact m.owner_not_mem u hu hmem
        · exact hplace (Or.inl (List.mem_singleton.1 hmem ▸ hu)) }

theorem poll_owner : (m.poll t).owner = if m.owner = none then some t else m.owner := by
  rw [poll]
  split
  · rfl
  · split <;> rfl

theorem poll_queue : (m.poll t).queue =
    if m.owner = none ∨ m.Holds t then m.queue else m.queue ++ [t] := by
  rw [poll]
  split
  · next h => rw [if_pos (Or.inl h)]
  · next h =>
    split
    · next h' => rw [if_pos (Or.inr h')]
    · next h' => rw [if_neg (not_or.2 ⟨h, h'⟩)]

/-- Whoever asks gets a place, and the others keep theirs. -/
theorem holds_poll : (m.poll t).Holds u ↔ m.Holds u ∨ u = t := by
  rw [Holds, poll_owner, poll_queue]
  by_cases hfree : m.owner = none
  · have hqueue := m.queue_of_free hfree
    simp [Holds, hfree, hqueue, eq_comm]
  · rw [if_neg hfree]
    by_cases hplace : m.Holds t
    · rw [if_pos (Or.inr hplace)]
      refine ⟨Or.inl, ?_⟩
      rintro (h | rfl)
      · exact h
      · exact hplace
    · rw [if_neg (not_or.2 ⟨hfree, hplace⟩), List.mem_append, List.mem_singleton, Holds, or_assoc]

/-- Asking does not bring anybody in front of another. -/
theorem Ahead.poll (h : m.Ahead t u) : (m.poll w).Ahead t u := by
  have hown : m.owner ≠ none := by
    obtain ⟨v, hv⟩ := exists_owner h.holds
    rw [hv]
    exact Option.some_ne_none v
  rw [Ahead, poll_owner, if_neg hown, poll_queue]
  refine h.imp id (And.imp_right ?_)
  rintro ⟨l₁, l₂, hq, hu⟩
  split
  · exact ⟨l₁, l₂, hq, hu⟩
  · exact ⟨l₁, l₂ ++ [w], by rw [hq, List.append_assoc, List.cons_append], hu⟩

end Poll

/-! ## Giving up a place

A task leaves a mutex when it has used it, and also when it has got what it wanted somewhere else.
In the second case it may have been given the permit in the meantime. -/

section Cancel

/-- The owner gives the permit back: it goes to the first who waits. -/
def pass (m : FairMutex T) : FairMutex T where
  owner := m.queue.head?
  queue := m.queue.tail
  queue_of_free h := by rw [List.head?_eq_none_iff.1 h, List.tail_nil]
  nodup := m.nodup.tail
  owner_not_mem t ht hmem := by
    obtain ⟨rest, hq⟩ : ∃ rest, m.queue = t :: rest := by
      cases hq : m.queue with
      | nil =>
        rw [hq] at ht
        cases ht
      | cons u rest =>
        rw [hq] at ht
        exact ⟨rest, by rw [Option.some.inj ht]⟩
    have hnodup := m.nodup
    rw [hq] at hnodup hmem
    exact (List.nodup_cons.1 hnodup).1 hmem

theorem pass_owner : m.pass.owner = m.queue.head? := rfl

theorem pass_queue : m.pass.queue = m.queue.tail := rfl

variable [DecidableEq T]

/-- `t` gives up its place.  If it has been given the permit in the meantime, the permit goes on to
the next one. -/
def cancel (m : FairMutex T) (t : T) : FairMutex T :=
  if m.owner = some t then m.pass
  else
    { owner := m.owner
      queue := m.queue.erase t
      queue_of_free := fun h => by rw [m.queue_of_free h, List.erase_nil]
      nodup := m.nodup.erase t
      owner_not_mem := fun u hu hmem => m.owner_not_mem u hu (List.mem_of_mem_erase hmem) }

theorem cancel_of_owner (h : m.owner = some t) : m.cancel t = m.pass := if_pos h

theorem cancel_owner_of_ne (h : m.owner ≠ some t) : (m.cancel t).owner = m.owner := by
  rw [cancel, if_neg h]

theorem holds_cancel : (m.cancel t).Holds u ↔ m.Holds u ∧ u ≠ t := by
  rw [cancel]
  split
  · next hown =>
    have ht : t ∉ m.queue := m.owner_not_mem t hown
    have hpass : m.pass.Holds u ↔ u ∈ m.queue := by
      rw [Holds, pass_owner, pass_queue]
      cases m.queue with
      | nil => simp
      | cons v rest => simp [eq_comm]
    rw [hpass, Holds, hown]
    refine ⟨fun h => ⟨Or.inr h, fun hut => ht (hut ▸ h)⟩, ?_⟩
    rintro ⟨h | h, hne⟩
    · exact absurd (Option.some.inj h).symm hne
    · exact h
  · next hown =>
    rw [Holds, Holds, m.nodup.mem_erase_iff]
    constructor
    · rintro (h | ⟨hne, h⟩)
      · exact ⟨Or.inl h, fun hut => hown (hut ▸ h)⟩
      · exact ⟨Or.inr h, hne⟩
    · rintro ⟨h | h, hne⟩
      · exact Or.inl h
      · exact Or.inr ⟨hne, h⟩

/-- What others give up brings nobody in front of `t`. -/
theorem Ahead.cancel (h : m.Ahead t u) (htw : t ≠ w) : (m.cancel w).Ahead t u := by
  rw [FairMutex.cancel]
  rcases h with h | ⟨hu, l₁, l₂, hq, hmem⟩
  · rw [if_neg fun hw => htw (Option.some.inj (h.symm.trans hw))]
    exact Or.inl h
  · split
    · -- the permit goes to the first in the queue, which is not `u`
      rw [Ahead, pass_owner, pass_queue, hq]
      cases l₁ with
      | nil => exact Or.inl rfl
      | cons v l₁ =>
        have hvu : v ≠ u := fun hvu => hmem (hvu ▸ List.mem_cons_self)
        refine Or.inr ⟨fun h => hvu (Option.some.inj h), l₁, l₂, rfl, ?_⟩
        exact fun h => hmem (List.mem_cons_of_mem _ h)
    · refine Or.inr ⟨hu, ?_⟩
      show Before t u (m.queue.erase w)
      rw [hq]
      by_cases hw : w ∈ l₁
      · exact ⟨l₁.erase w, l₂, List.erase_append_left _ hw, fun h => hmem (List.mem_of_mem_erase h)⟩
      · rw [List.erase_append_right _ hw, List.erase_cons_tail (by simpa using htw)]
        exact ⟨l₁, l₂.erase w, rfl, hmem⟩

end Cancel

end FairMutex

end DistributedPrograms
