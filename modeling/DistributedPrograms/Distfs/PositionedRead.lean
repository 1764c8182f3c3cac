import DistributedPrograms.Distfs.Visibility

/-!
# Reads at a position

`read` seeks to its offset and reads until nothing comes any more; how much comes at a time is up to
the system.  `readImpl_exact` says what it returns when no call fails: the slice of the file that
was asked for, whatever the portions are, wherever the cursor was, and with what was written through
the same handle before.  An offset that the file system does not accept is not behind the end of the
file but refused by the seek.

* `Standing` is the file of a descriptor before the request: regular, and `file` once the bytes that
  the descriptor itself still holds are there, while nobody else holds any for it.
* `Poised` is the descriptor at a position of that file with nothing on its way, as the seek leaves
  it and every read keeps it, further on.
* `readLoop_exact` is the induction, on what is left to read: each portion is a part of the slice,
  and where a read brings nothing the file has ended.
* `readImpl_exact` is stated by `wp`, for all runs, and says that the handler ends.

The other requests go on in the meantime.  `Aside` is what they may do: they leave the descriptor,
its buffer and the file alone, and do not begin to write to it.  A `Moment` is a call that does not
fail, with what the others have done before it.
-/

set_option autoImplicit false

namespace DistributedPrograms
namespace Distfs

open UnixPath UnixPath.Errno Fallible Server WriteBack

/-- The descriptor and its buffer, and the file `i`, are left alone, and nobody else begins to hold
bytes for the file.  Whatever else the other requests do, they do elsewhere. -/
structure Aside (fd : Fd) (i : Ino) (s s' : Buffered) : Prop where
  regular : s'.regular fd = s.regular fd
  cursor : s'.cursor fd = s.cursor fd
  pending : s'.contents.pending fd = s.contents.pending fd
  files : s'.contents.files i = s.contents.files i
  holds : ∀ fd', s'.contents.Holds fd' i → s.contents.Holds fd' i

/-- What is left open about a call that does not fail, with what the other requests have done
before it. -/
structure Moment (fd : Fd) (i : Ino) where
  turn : Turn
  served : turn.refused = none
  others : Buffered → Buffered
  aside : ∀ s, Aside fd i s (others s)

/-- The buffered system of a server on which other requests leave `fd` and `i` alone. -/
def undisturbed (rules : ContentRules) (fd : Fd) (i : Ino) :
    OperatingSystem (Moment fd i) Buffered :=
  ⟨fun m c s => Buffered.exec rules m.turn c (m.turn.drains.foldl Buffered.drain (m.others s))⟩

/-! ## The file of a descriptor

What a call of the request itself does to where the descriptor stands. -/

namespace Buffered

variable {rules : ContentRules} {s s' : Buffered} {o : Turn} {fd fd' : Fd} {i : Ino}
  {options : OpenOptions} {file : List UInt8} {pos pos' : Nat}

/-- The file with what the descriptor still holds for it.  This is what a read through the same
handle is to see. -/
def flushed (s : Buffered) (fd : Fd) (i : Ino) : List UInt8 := (s.drain fd).contents.files i

/-- The descriptor is open on the regular file `i`, which is `file` once its bytes are there; nobody
else holds bytes for it. -/
structure Standing (s : Buffered) (fd : Fd) (i : Ino) (options : OpenOptions)
    (file : List UInt8) : Prop where
  regular : s.regular fd = some (i, options)
  settled : s.Settled [fd] i
  flushed : s.flushed fd i = file

theorem flushed_congr (hpending : s'.contents.pending fd = s.contents.pending fd)
    (hfiles : s'.contents.files i = s.contents.files i) : s'.flushed fd i = s.flushed fd i := by
  rw [flushed, flushed, contents_drain, contents_drain, WriteBack.drain, WriteBack.drain, hpending]
  cases s.contents.pending fd with
  | none => exact hfiles
  | some held =>
    obtain ⟨j, b⟩ := held
    by_cases hj : i = j
    · subst hj
      simp only [Function.update_self, hfiles]
    · simp only [Function.update_of_ne hj, hfiles]

theorem Standing.aside (h : s.Standing fd i options file) (ha : Aside fd i s s') :
    s'.Standing fd i options file where
  regular := ha.regular.trans h.regular
  settled fd' hne hholds := h.settled fd' hne (ha.holds fd' hholds)
  flushed := (flushed_congr ha.pending ha.files).trans h.flushed

theorem Standing.drain (h : s.Standing fd i options file) :
    (s.drain fd').Standing fd i options file := by
  refine ⟨(regular_congr posix_drain).trans h.regular, ?_, ?_⟩
  · refine settled_of_drained ?_ h.settled
    rw [contents_drain]
    exact drained_drain
  · by_cases hne : fd' = fd
    · subst hne
      have hidle : (s.drain fd').contents.pending fd' = none := by
        rw [contents_drain, pending_drain, Function.update_self]
      show ((s.drain fd').drain fd').contents.files i = _
      rw [drain_of_idle hidle]
      exact h.flushed
    · refine (flushed_congr ?_ ?_).trans h.flushed
      · rw [contents_drain, pending_drain, Function.update_of_ne (Ne.symm hne)]
      · rw [contents_drain, files_drain_of_not_holds (h.settled fd' (by simpa using hne))]

theorem Standing.foldl (h : s.Standing fd i options file) (fds : List Fd) :
    (fds.foldl Buffered.drain s).Standing fd i options file := by
  induction fds generalizing s with
  | nil => exact h
  | cons fd' fds ih => exact ih h.drain

/-- The descriptor is at `pos` in the regular file `i`, which is `file`, and no bytes are on their
way there. -/
structure Poised (s : Buffered) (fd : Fd) (i : Ino) (options : OpenOptions) (file : List UInt8)
    (pos : Nat) : Prop where
  ready : s.Ready fd i options pos
  settled : s.Settled [] i
  files : s.contents.files i = file

theorem Poised.aside (h : s.Poised fd i options file pos) (ha : Aside fd i s s') :
    s'.Poised fd i options file pos where
  ready := ⟨ha.regular.trans h.ready.regular, ha.pending.trans h.ready.idle,
    ha.cursor.trans h.ready.cursor⟩
  settled fd' hfd' hholds := h.settled fd' hfd' (ha.holds fd' hholds)
  files := ha.files.trans h.files

theorem Poised.drained (h : s.Poised fd i options file pos)
    (hready : s'.Ready fd i options pos') (hdrained : Drained Block.apply s.contents s'.contents) :
    s'.Poised fd i options file pos' where
  ready := hready
  settled := settled_of_drained hdrained h.settled
  files := (hdrained.files_eq fun fd' => h.settled fd' List.not_mem_nil).trans h.files

theorem tried_ok {ε β : Type} {err : Int32 → ε} {b : β} (h : o.refused = none) :
    s.tried o err (.ok (b, s')) = (.ok b, s') := by
  rw [tried.eq_def, h]

theorem tried_error {ε β : Type} {err : Int32 → ε} {e : Int32} (h : o.refused = none) :
    s.tried o err (.error e : Except Int32 (β × Buffered)) = (.error (err e), s) := by
  rw [tried.eq_def, h]

/-- An offset that is accepted is where the cursor goes. -/
theorem seek_of_le {offset : UInt64} (h : offset.toNat ≤ rules.maxOffset i) :
    s.seek rules o fd i (.start offset) = .ok (UInt64.ofNat offset.toNat,
      { s with cursor := Function.update s.cursor fd offset.toNat }.touched o fd) := by
  have htarget : s.target fd i (.start offset) = offset.toNat := rfl
  have hin : (decide (s.target fd i (.start offset) < 0) ||
      decide ((rules.maxOffset i : Int) < s.target fd i (.start offset))) = false := by
    rw [Bool.or_eq_false_iff, decide_eq_false_iff_not, decide_eq_false_iff_not]
    omega
  rw [Buffered.seek]
  simp only [hin]
  rfl

theorem seek_of_gt {offset : UInt64} (h : rules.maxOffset i < offset.toNat) :
    s.seek rules o fd i (.start offset) = .error EINVAL := by
  have htarget : s.target fd i (.start offset) = offset.toNat := rfl
  have hout : (decide (s.target fd i (.start offset) < 0) ||
      decide ((rules.maxOffset i : Int) < s.target fd i (.start offset))) = true := by
    rw [Bool.or_eq_true, decide_eq_true_eq, decide_eq_true_eq]
    omega
  rw [Buffered.seek]
  simp only [hout]
  rfl

/-- **A seek goes where it is told**, up to the largest offset that is accepted; behind it there is
an `EINVAL`, and the descriptor stays where it is. -/
theorem Standing.seek (rules : ContentRules) (h : s.Standing fd i options file)
    (hserved : o.refused = none) (offset : UInt64) :
    (rules.maxOffset i < offset.toNat ∧
      (exec rules o (.fileSeek fd (.start offset)) s).1 = .error ⟨some EINVAL⟩) ∨
    (offset.toNat ≤ rules.maxOffset i ∧
      (∃ pos, (exec rules o (.fileSeek fd (.start offset)) s).1 = .ok pos) ∧
      (exec rules o (.fileSeek fd (.start offset)) s).2.Poised fd i options file offset.toNat) := by
  rw [exec, h.regular]
  simp only
  rcases Nat.lt_or_ge (rules.maxOffset i) offset.toNat with hgt | hle
  · rw [seek_of_gt hgt, tried_error hserved]
    exact Or.inl ⟨hgt, rfl⟩
  · rw [seek_of_le hle, tried_ok hserved]
    refine Or.inr ⟨hle, ⟨_, rfl⟩, ⟨ready_touched ⟨?_, idle_drain, ?_⟩, ?_, h.flushed⟩⟩
    · exact (regular_congr posix_drain).trans h.regular
    · exact Function.update_self ..
    · have hdrained : (s.drain fd).Standing fd i options file := h.drain
      exact settled_of_idle hdrained.settled idle_drain

/-- A read that is not refused brings a portion. -/
theorem Poised.read (rules : ContentRules) (size : Nat) (h : s.Poised fd i options file pos)
    (hread : options.read = true) (hserved : o.refused = none) :
    ∃ data, (exec rules o (.fileRead fd size) s).1 = .ok data ∧
      data.1 = slice file pos (o.portion size) ∧
      (exec rules o (.fileRead fd size) s).2.Poised fd i options file (pos + data.1.length) := by
  have hread' : (∃ e, (exec rules o (.fileRead fd size) s).1 = .error e) ∨ _ := ready_read h.ready
  rcases hread' with ⟨e, he⟩ | ⟨data, hdata, hslice, hready⟩
  · obtain ⟨data, s', hok⟩ : ∃ data s', (s.drain fd).read o fd i options size = .ok (data, s') :=
      ⟨_, _, by rw [Buffered.read, hread]; rfl⟩
    rw [exec, h.ready.regular] at he
    simp only at he
    rw [hok, tried_ok hserved] at he
    contradiction
  · rw [h.files] at hslice
    exact ⟨data, hdata, hslice, h.drained hready (drained_exec id)⟩

theorem Ready.fileMetadata (rules : ContentRules) (o : Turn) (h : s.Ready fd i options pos) :
    (∃ m, (exec rules o (.fileMetadata fd) s).1 = .ok m) ∧
      (exec rules o (.fileMetadata fd) s).2 = s := by
  obtain ⟨f, hfile, -⟩ := regular_eq_some.1 h.regular
  rw [exec, hfile]
  exact ⟨⟨_, rfl⟩, rfl⟩

end Buffered

/-! ## `read`

The seek, then the loop, under the two locks that the handler holds. -/

section

variable {P : Type} [DecidableEq P] {p : P} {rules : ContentRules} {fd : Fd} {i : Ino}
  {options : OpenOptions} {file : List UInt8} {pos : Nat} {w : World P Buffered}

omit [DecidableEq P] in
/-- The other requests and the background writes come before a call. -/
theorem poised_before (h : w.os.Poised fd i options file pos) (m : Moment fd i) :
    (m.turn.drains.foldl Buffered.drain (m.others w.os)).Poised fd i options file pos :=
  have haside := h.aside (m.aside w.os)
  haside.drained (Buffered.ready_foldl haside.ready m.turn.drains) (Buffered.drained_foldl _)

/-- **The loop of `read` ends, with the slice that it is asked for.**  The induction is on the
number of bytes left; each portion has at least one, or the file has ended. -/
theorem readLoop_exact (size pos : Nat) (hread : options.read = true)
    (hpoised : w.os.Poised fd i options file pos) :
    wp (World.semantics (undisturbed rules fd i)) p
      (fun r w' => r = some (.ok (slice file pos size)) ∧ ∃ pos', w'.os.Poised fd i options file pos')
      (readLoop fd size) w := by
  induction size using Nat.strong_induction_on generalizing pos w with
  | h size ih =>
    rw [readLoop]
    refine wp_attempt_bind fun m => ?_
    obtain ⟨⟨data, hlength⟩, hdata, hslice, hpoised'⟩ :=
      (poised_before hpoised m).read rules size hread m.served
    refine ⟨_, _, rfl, fun data' hdata' => ?_, fun e he => ?_⟩
    · obtain rfl := Except.ok.inj (hdata.symm.trans hdata')
      obtain rfl : data = slice file pos (m.turn.portion size) := hslice
      have hportion : m.turn.portion size ≤ size := Nat.min_le_left ..
      show wp _ _ _ (if (slice file pos (m.turn.portion size)).length = 0 then _ else _) _
      split
      · next hzero =>
        refine ⟨?_, _, hpoised'⟩
        rw [Buffered.slice_of_portion_eq_nil (List.length_eq_zero_iff.1 hzero)]
      · next hne =>
        refine wp_bind.2 (wp_mono (fun r w' hr => ?_) (ih _ (by omega) _ hpoised'))
        obtain ⟨rfl, hpoised''⟩ := hr
        exact ⟨congrArg (fun data => some (Except.ok data)) (slice_append hportion), hpoised''⟩
    · rw [show ((undisturbed rules fd i).exec m _ w.os).1 = _ from hdata] at he
      contradiction

theorem wp_withLock {α : Type} {Q : Option (Except Failure α) → World P Buffered → Prop}
    {l : Lock} {mode : LockMode} {x : Handler α} (hfree : w.free l mode = true)
    (hx : wp (World.semantics (undisturbed rules fd i)) p
      (fun r w' => Q r (if r.isSome then { w' with held := w'.held.erase (p, l, mode) } else w')) x
      { w with held := (p, l, mode) :: w.held }) :
    wp (World.semantics (undisturbed rules fd i)) p Q (withLock l mode x) w := by
  refine wp_bracket (fun o hwait => ?_) (fun o w₁ hexec => ?_) fun _ _ => rfl
  · rw [World.exec_acquire hfree] at hwait
    contradiction
  · rw [World.exec_acquire hfree] at hexec
    obtain ⟨⟩ := hexec
    exact hx

/-- **`read` is exact.** Without failing calls it ends with the bytes from the offset on, as many as
were asked for or as there are, whatever portions they come in and wherever the cursor was; what has
been written through the same handle is there.  An offset that a seek does not accept is refused. -/
theorem readImpl_exact (s : Server) (req : ReadRequest) {path : Path}
    (hfh : w.fh req.fh = some (fd, path)) (hregular : w.os.regular fd = some (i, options))
    (hread : options.read = true) (hsettled : w.os.Settled [fd] i)
    (htable : w.free .fh .read = true) (hfile : w.free (.file req.fh) .write = true) :
    wp (World.semantics (undisturbed rules fd i)) p
      (fun r _ => r = some (if req.offset.toNat ≤ rules.maxOffset i then
        .ok (slice (w.os.flushed fd i) req.offset.toNat req.size.toNat)
        else .error (.errno EINVAL))) (s.readImpl req) w := by
  have hstanding : w.os.Standing fd i options (w.os.flushed fd i) := ⟨hregular, hsettled, rfl⟩
  refine wp_withLock htable (wp_bind.2 (wp_perform.2 fun _ => wp_bind.2 (wp_ofOption.2 ?_)))
  rw [hfh]
  refine wp_withLock ?_ (wp_attempt_bind fun m => ?_)
  · rw [World.free, List.all_cons, ← World.free, hfile]
    rfl
  have hbefore := (hstanding.aside (m.aside w.os)).foldl m.turn.drains
  obtain ⟨hgt, herror⟩ | ⟨hle, ⟨pos, hpos⟩, hpoised⟩ :=
    hbefore.seek rules m.served req.offset
  · rw [if_neg (Nat.not_le.2 hgt)]
    refine ⟨_, _, rfl, fun pos hpos => ?_, fun e he => ?_⟩
    · exact absurd (herror.symm.trans hpos) (by simp)
    · obtain rfl := Except.error.inj (herror.symm.trans he)
      rfl
  · rw [if_pos hle]
    refine ⟨_, _, rfl, fun _ _ => ?_, fun e he => absurd (hpos.symm.trans he) (by simp)⟩
    refine wp_bind.2 (wp_mono (fun r w' hr => ?_) (readLoop_exact req.size.toNat _ hread hpoised))
    obtain ⟨rfl, pos', hpoised'⟩ := hr
    refine wp_attempt_bind fun m' => ?_
    obtain ⟨⟨metadata, hmetadata⟩, -⟩ := (poised_before hpoised' m').ready.fileMetadata rules m'.turn
    exact ⟨_, _, rfl, fun _ _ => rfl, fun e he => absurd (hmetadata.symm.trans he) (by simp)⟩

end

/-- `f` holds three bytes, and a fourth one is still with the descriptor of the handle 1, whose
cursor is far behind. -/
def almostWritten : World Unit Buffered :=
  .alone Unit openHandles (fun _ => none) 4
    ⟨openFiles, WriteBack.put ⟨fun _ => [5, 6, 7], fun _ => none⟩ 0 1 ⟨some 3, [8]⟩, fun _ => 9⟩

/-- The byte that is still on its way is read with the others, however short the reads are. -/
theorem readImpl_exact_almostWritten :
    wp (World.semantics (undisturbed contentRules 0 1)) ()
      (fun r _ => r = some (.ok [6, 7, 8])) (serveAll.readImpl ⟨1, 1, 10⟩) almostWritten := by
  have hsettled : almostWritten.os.Settled [0] 1 := by
    rintro fd hfd ⟨b, hb⟩
    have hidle := hb.symm.trans (pending_put_of_ne (by simpa using hfd))
    contradiction
  refine wp_mono (fun r w hr => hr.trans ?_)
    (readImpl_exact serveAll ⟨1, 1, 10⟩ rfl rfl rfl hsettled rfl rfl)
  decide +kernel

/-- Nobody else is there, and a call takes one byte at most. -/
def byByte (n : Nat) : Moment 0 1 :=
  ⟨{ late n with count := 1 }, rfl, id, fun _ => ⟨rfl, rfl, rfl, rfl, fun _ h => h⟩⟩

/-- **Far behind the end of the file there is an error**, not an empty answer. -/
theorem not_readImpl_exact :
    ¬wp (World.semantics (undisturbed contentRules 0 1)) ()
      (fun r _ => r = some (.ok (slice (almostWritten.os.flushed 0 1) (2 ^ 44) 1)))
      (serveAll.readImpl ⟨1, 0x100000000000, 1⟩) almostWritten := by
  intro h
  have hanswer : ((serveAll.readImpl ⟨1, 0x100000000000, 1⟩).run.drive
      (World.semantics (undisturbed contentRules 0 1)) () byByte almostWritten).1 =
        some (.error (.errno EINVAL)) := by
    decide +kernel
  have hdrive := Program.drive_of_wp byByte h
  rw [hanswer] at hdrive
  contradiction

end Distfs
end DistributedPrograms
