import Mathlib.Logic.Function.Basic
import Mathlib.Data.List.Basic

/-!
# Writes that arrive later

Several writers change files through buffers of their own: a writer that has been told that its
block is written may still hold it, and `drain` is the moment at which the block reaches its file.
What has been promised and what a file holds are two things in the meantime, and which of the blocks
arrives first is open.

`Owes c store` says that `c` has promised the files `store`: there are finitely many blocks on their
way, and in whatever order those that are held arrive, a file is as promised once nobody holds a
block for it.  So it does not fix an order of the blocks, and needs none: it is a statement about
all the ways in which `c` can be `Drained`.

* `Drained.owes`: draining keeps all promises, and `exists_drained` says that all blocks can be
  drained;
* `Owes.put`: a writer promises a block, which may arrive before or after the others.  The new block
  has to commute with those that are on their way to the same file, because nobody knows which comes
  first;
* `Owes.set`: a file is changed at once, where nobody holds a block for it;
* `Owes.eq_of_drains`: what no block that is held changes is as promised already.  `look` is any
  view of a file, the length of it or the bytes in a range, so a reader who looks only there needs
  no draining.

A block is of any type, with a function that applies it to a file.  That two blocks commute, and
that a block does not change what is looked at, are hypotheses here; for writes into the middle of a
file they are shown where those are described.
-/

set_option autoImplicit false

namespace DistributedPrograms

/-- Files, and for each writer the block that it still holds, with the file it belongs to.  A writer
that holds a block has reported it as written. -/
structure WriteBack (K F B Φ : Type*) where
  files : K → Φ
  pending : F → Option (K × B)

namespace WriteBack

variable {K F B Φ : Type*} [DecidableEq K] [DecidableEq F]

/-- The block of a writer reaches its file. -/
def drain (apply : B → Φ → Φ) (c : WriteBack K F B Φ) (w : F) : WriteBack K F B Φ :=
  match c.pending w with
  | none => c
  | some (k, b) =>
    { files := Function.update c.files k (apply b (c.files k))
      pending := Function.update c.pending w none }

/-- The writer holds a block for the file. -/
def Holds (c : WriteBack K F B Φ) (w : F) (k : K) : Prop := ∃ b, c.pending w = some (k, b)

/-- `c'` is `c` after some blocks have reached their files, in any order.  A writer that holds none
does nothing. -/
def Drained (apply : B → Φ → Φ) (c c' : WriteBack K F B Φ) : Prop :=
  ∃ ws : List F, c' = ws.foldl (drain apply) c

/-- The files that have been promised.  There are finitely many blocks on their way, and they can
arrive in any order: whenever nobody holds a block for a file any more, the file is what was
promised. -/
structure Owes (apply : B → Φ → Φ) (c : WriteBack K F B Φ) (store : K → Φ) : Prop where
  holders : ∃ ws : List F, ∀ w k, c.Holds w k → w ∈ ws
  settles : ∀ c', Drained apply c c' → ∀ k, (∀ w, ¬c'.Holds w k) → c'.files k = store k

variable {apply : B → Φ → Φ} {c c' c'' : WriteBack K F B Φ} {store : K → Φ} {w w' : F} {k : K}

/-! ## Draining

Nobody takes a block while blocks are drained, and a block that is still held stays what it is.
From this come the rules that a promise survives, and that a file for which nobody holds a block
stays as it is. -/

theorem pending_drain : (c.drain apply w).pending = Function.update c.pending w none := by
  rw [drain]
  split
  · next hnone => rw [← hnone, Function.update_eq_self]
  · rfl

theorem not_holds_drain : ¬(c.drain apply w).Holds w k := by
  rintro ⟨b, hb⟩
  rw [pending_drain, Function.update_self] at hb
  contradiction

theorem files_drain_of_pending {b : B} (h : c.pending w = some (k, b)) :
    (c.drain apply w).files k = apply b (c.files k) := by
  simp only [drain, h, Function.update_self]

theorem files_drain_of_not_holds (h : ¬c.Holds w k) : (c.drain apply w).files k = c.files k := by
  rw [drain]
  split
  · rfl
  · next k' b hb =>
    have hne : k ≠ k' := by
      rintro rfl
      exact h ⟨b, hb⟩
    exact Function.update_of_ne hne ..

theorem Drained.refl : Drained apply c c := ⟨[], rfl⟩

theorem Drained.trans (h : Drained apply c c') (h' : Drained apply c' c'') : Drained apply c c'' := by
  obtain ⟨ws, rfl⟩ := h
  obtain ⟨ws', rfl⟩ := h'
  exact ⟨ws ++ ws', (List.foldl_append ..).symm⟩

theorem drained_drain : Drained apply c (c.drain apply w) := ⟨[w], rfl⟩

/-- What draining preserves lasts. -/
theorem Drained.preserves {I : WriteBack K F B Φ → Prop} (hI : ∀ c w, I c → I (c.drain apply w))
    (h : Drained apply c c') (hc : I c) : I c' := by
  obtain ⟨ws, rfl⟩ := h
  induction ws generalizing c with
  | nil => exact hc
  | cons w ws ih => exact ih (hI c w hc)

/-- Nobody takes a block while blocks are drained, and those that are held stay what they are. -/
theorem Drained.pending (h : Drained apply c c') {held : K × B} (hw : c'.pending w = some held) :
    c.pending w = some held := by
  refine Drained.preserves (I := fun c' => ∀ held, c'.pending w = some held → c.pending w = some held)
    (fun c' w' hc' held hheld => hc' held ?_) h (fun _ => id) held hw
  rw [pending_drain] at hheld
  by_cases hne : w = w'
  · subst hne
    rw [Function.update_self] at hheld
    contradiction
  · rwa [Function.update_of_ne hne] at hheld

theorem Drained.idle (h : Drained apply c c') (hw : c.pending w = none) : c'.pending w = none := by
  cases hpending : c'.pending w with
  | none => rfl
  | some held =>
    rw [h.pending hpending] at hw
    contradiction

theorem Drained.not_holds (h : Drained apply c c') (hnot : ¬c.Holds w k) : ¬c'.Holds w k :=
  fun ⟨b, hb⟩ => hnot ⟨b, h.pending hb⟩

/-- A file for which nobody holds a block stays as it is. -/
theorem Drained.files_eq (h : Drained apply c c') (hk : ∀ w, ¬c.Holds w k) :
    c'.files k = c.files k := by
  refine (Drained.preserves (I := fun c' => Drained apply c c' ∧ c'.files k = c.files k)
    (fun c₁ w hc₁ => ⟨hc₁.1.trans drained_drain, ?_⟩) h ⟨.refl, rfl⟩).2
  rw [files_drain_of_not_holds (hc₁.1.not_holds (hk w)), hc₁.2]

/-- **Draining keeps all promises.** -/
theorem Drained.owes (h : Drained apply c c') (howes : Owes apply c store) : Owes apply c' store := by
  obtain ⟨ws, hws⟩ := howes.holders
  exact ⟨⟨ws, fun w k ⟨b, hb⟩ => hws w k ⟨b, h.pending hb⟩⟩,
    fun c'' hdrained => howes.settles c'' (h.trans hdrained)⟩

/-- All blocks can be drained. -/
theorem exists_drained (apply : B → Φ → Φ) (c : WriteBack K F B Φ) (ws : List F) :
    ∃ c', Drained apply c c' ∧ ∀ w ∈ ws, ∀ k, ¬c'.Holds w k := by
  refine ⟨ws.foldl (drain apply) c, ⟨ws, rfl⟩, ?_⟩
  induction ws generalizing c with
  | nil => exact fun w hw => absurd hw List.not_mem_nil
  | cons w ws ih =>
    intro w' hw' k
    rcases List.mem_cons.1 hw' with rfl | hmem
    · exact Drained.not_holds ⟨ws, rfl⟩ not_holds_drain
    · exact ih (c.drain apply w) w' hmem k

/-- **What no block that is held changes is as promised already.**  So a reader who looks at a part
of a file has to know only that the blocks on their way belong elsewhere. -/
theorem Owes.eq_of_drains {β : Type*} (look : Φ → β) (h : Owes apply c store)
    (hlook : ∀ c', Drained apply c c' → ∀ w b, c'.pending w = some (k, b) →
      look (apply b (c'.files k)) = look (c'.files k)) : look (c.files k) = look (store k) := by
  obtain ⟨ws, hws⟩ := h.holders
  obtain ⟨c', hdrained, hidle⟩ := exists_drained apply c ws
  have hsettled : ∀ w, ¬c'.Holds w k := fun w hholds =>
    hidle w (hws w k (not_not.1 fun hnot => hdrained.not_holds hnot hholds)) k hholds
  rw [← h.settles c' hdrained k hsettled]
  refine (Drained.preserves (I := fun c' => Drained apply c c' ∧
    look (c'.files k) = look (c.files k)) (fun c₁ w hc₁ => ?_) hdrained ⟨.refl, rfl⟩).2.symm
  refine ⟨hc₁.1.trans drained_drain, ?_⟩
  by_cases hw : c₁.Holds w k
  · obtain ⟨b, hb⟩ := hw
    rw [files_drain_of_pending hb, hlook c₁ hc₁.1 w b hb, hc₁.2]
  · rw [files_drain_of_not_holds hw, hc₁.2]

/-! ## New promises

A block that is put arrives at some time while the others do.  `Putting` follows the two files side
by side, the one with the block still to come and the one that has it already. -/

theorem Owes.files_eq (h : Owes apply c store) (hk : ∀ w, ¬c.Holds w k) : c.files k = store k :=
  h.settles c .refl k hk

/-- The writer takes a block for the file. -/
def put (c : WriteBack K F B Φ) (w : F) (k : K) (b : B) : WriteBack K F B Φ :=
  { c with pending := Function.update c.pending w (some (k, b)) }

omit [DecidableEq K] in
theorem pending_put_self {b : B} : (c.put w k b).pending w = some (k, b) :=
  Function.update_self ..

omit [DecidableEq K] in
theorem pending_put_of_ne {b : B} (h : w' ≠ w) : (c.put w k b).pending w' = c.pending w' :=
  Function.update_of_ne h ..

/-- A block is put, and arrives at some time while the others do.  Whether it is still held when the
writer goes on is left open. -/
inductive Putting (apply : B → Φ → Φ) (w : F) (k : K) (b : B) (c : WriteBack K F B Φ) :
    WriteBack K F B Φ → Prop
  | held : Putting apply w k b c (c.put w k b)
  | arrived :
    Putting apply w k b c { c with files := Function.update c.files k (apply b (c.files k)) }

theorem put_drain_self {b : B} (hw : c.pending w = none) : (c.put w k b).drain apply w =
    { c with files := Function.update c.files k (apply b (c.files k)) } := by
  rw [drain, pending_put_self]
  simp only [put, Function.update_idem]
  rw [← hw, Function.update_eq_self]

theorem put_drain_of_ne {b : B} (hne : w' ≠ w) :
    (c.put w k b).drain apply w' = (c.drain apply w').put w k b := by
  rw [drain, pending_put_of_ne hne, drain]
  split
  · rfl
  · simp only [put, Function.update_comm hne]

/-- The other blocks arrive in front of the new one, or behind it. -/
theorem putting_drain {b : B} {c₁ : WriteBack K F B Φ} (hw : c.pending w = none)
    (hcomm : ∀ w' b', c.pending w' = some (k, b') →
      apply b' (apply b (c.files k)) = apply b (apply b' (c.files k)))
    (h : Putting apply w k b c c₁) :
    Putting apply w k b c (c₁.drain apply w') ∨
      Putting apply w k b (c.drain apply w') (c₁.drain apply w') := by
  cases h with
  | held =>
    by_cases hne : w' = w
    · subst hne
      rw [put_drain_self hw]
      exact .inl .arrived
    · rw [put_drain_of_ne hne]
      exact .inr .held
  | arrived =>
    cases hpending : c.pending w' with
    | none => exact .inl (by simpa only [drain, hpending] using .arrived)
    | some held =>
      obtain ⟨k', b'⟩ := held
      have hdrain :
          drain apply { c with files := Function.update c.files k (apply b (c.files k)) } w' =
          { c.drain apply w' with
            files := Function.update (c.drain apply w').files k
              (apply b ((c.drain apply w').files k)) } := by
        simp only [drain, hpending]
        by_cases hk : k' = k
        · subst hk
          simp only [Function.update_self, Function.update_idem, hcomm w' b' hpending]
        · simp only [Function.update_of_ne hk, Function.update_of_ne (Ne.symm hk),
            Function.update_comm hk]
      rw [hdrain]
      exact .inr .arrived

/-- **A writer promises a block**, which commutes with those that are on their way.  Otherwise the
file would depend on which of them comes last. -/
theorem Owes.put {b : B} (h : Owes apply c store) (hw : c.pending w = none)
    (hcomm : ∀ c', Drained apply c c' → ∀ w' b', c'.pending w' = some (k, b') →
      apply b' (apply b (c'.files k)) = apply b (apply b' (c'.files k))) :
    Owes apply (c.put w k b) (Function.update store k (apply b (store k))) := by
  obtain ⟨ws, hws⟩ := h.holders
  refine ⟨⟨w :: ws, fun w' k' hholds => ?_⟩, fun c₁ hdrained k' hsettled => ?_⟩
  · by_cases hne : w' = w
    · exact List.mem_cons.2 (.inl hne)
    · obtain ⟨b', hb'⟩ := hholds
      rw [pending_put_of_ne hne] at hb'
      exact List.mem_cons_of_mem w (hws w' k' ⟨b', hb'⟩)
  · obtain ⟨c', hc', hputting⟩ : ∃ c', Drained apply c c' ∧ Putting apply w k b c' c₁ := by
      refine Drained.preserves (I := fun c₁ => ∃ c', Drained apply c c' ∧ Putting apply w k b c' c₁)
        (fun c₁ w' ⟨c', hc', hputting⟩ => ?_) hdrained ⟨c, .refl, .held⟩
      rcases putting_drain (hc'.idle hw) (hcomm c' hc') hputting with hsame | hdrain
      · exact ⟨c', hc', hsame⟩
      · exact ⟨_, hc'.trans drained_drain, hdrain⟩
    cases hputting with
    | held =>
      have hne : k' ≠ k := by
        rintro rfl
        exact hsettled w ⟨b, pending_put_self⟩
      rw [Function.update_of_ne hne]
      refine h.settles c' hc' k' fun w' ⟨b', hb'⟩ => ?_
      have hne' : w' ≠ w := by
        rintro rfl
        rw [hc'.idle hw] at hb'
        contradiction
      exact hsettled w' ⟨b', (pending_put_of_ne hne').trans hb'⟩
    | arrived =>
      have heq := h.settles c' hc' k' hsettled
      by_cases hne : k' = k
      · subst hne
        simp only [Function.update_self, heq]
      · simp only [Function.update_of_ne hne, heq]

/-- The file is changed. -/
def set (c : WriteBack K F B Φ) (k : K) (file : Φ) : WriteBack K F B Φ :=
  { c with files := Function.update c.files k file }

theorem set_drain (hw : ¬c.Holds w k) (file : Φ) :
    (c.set k file).drain apply w = (c.drain apply w).set k file := by
  rw [drain, drain]
  simp only [set]
  split
  · rfl
  · next k' b hb =>
    have hne : k' ≠ k := by
      rintro rfl
      exact hw ⟨b, hb⟩
    simp only [Function.update_of_ne hne, Function.update_comm hne]

/-- **A file is changed at once**, where nobody holds a block for it. -/
theorem Owes.set (h : Owes apply c store) (hk : ∀ w, ¬c.Holds w k) (file : Φ) :
    Owes apply (c.set k file) (Function.update store k file) := by
  refine ⟨h.holders, fun c₁ hdrained k' hsettled => ?_⟩
  obtain ⟨c', hc', rfl⟩ : ∃ c', Drained apply c c' ∧ c₁ = c'.set k file := by
    refine Drained.preserves (I := fun c₁ => ∃ c', Drained apply c c' ∧ c₁ = c'.set k file)
      (fun c₁ w ⟨c', hc', heq⟩ => ?_) hdrained ⟨c, .refl, rfl⟩
    subst heq
    exact ⟨_, hc'.trans drained_drain, set_drain (hc'.not_holds (hk w)) file⟩
  have heq := h.settles c' hc' k' hsettled
  by_cases hne : k' = k
  · subst hne
    simp only [WriteBack.set, Function.update_self]
  · simp only [WriteBack.set, Function.update_of_ne hne, heq]

/-- Where nobody holds a block, the files themselves are promised. -/
theorem owes_of_idle {files : K → Φ} : Owes apply ⟨files, fun _ : F => none⟩ files := by
  have hidle : ∀ w k, ¬(⟨files, fun _ => none⟩ : WriteBack K F B Φ).Holds w k := by
    rintro w k ⟨b, hb⟩
    contradiction
  exact ⟨⟨[], fun w k hholds => absurd hholds (hidle w k)⟩,
    fun c' hdrained k _ => hdrained.files_eq fun w => hidle w k⟩

end WriteBack
end DistributedPrograms
