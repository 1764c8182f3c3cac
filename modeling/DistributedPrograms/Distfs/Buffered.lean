import DistributedPrograms.Lib.Overwrite
import DistributedPrograms.Lib.WriteBack
import DistributedPrograms.Distfs.Posix
import DistributedPrograms.Distfs.Uses

/-!
# Files with contents

A `Buffered` system is a POSIX system that knows what is in its regular files.  A write copies its
bytes into the buffer of its descriptor and is answered; they reach the file at some later call, at
the latest at the next call that seeks, reads, writes or flushes the same descriptor.  A call that
names the file by its path, or that hands the raw descriptor to the system, waits for no buffer.

This is how an asynchronous file works: a background task does the write, and the descriptor is told
of a failure only later.  A `Turn` says, for each call, which buffers have reached their files
before it, how much a read or write takes, and whether the call is refused.

* `Contents` are the files with the buffers of the descriptors, an instance of the library on writes
  that arrive later.  A `Block` knows the bytes and where they belong; for a file opened for
  appending that is the end of the file when the block arrives.
* `Buffered.seek`, `read`, `write`, `fallocate` and `copyFileRange` are the calls on contents, and
  `Buffered.exec` has them all.  A seek is accepted up to the largest offset of the file system,
  which is one of the `ContentRules`.
* `Block.Apart` says that a block belongs inside a file and apart from a range.  `Buffered.Spares`
  says that all descriptors but the flushed ones hold only such blocks for a file, and
  `Buffered.Settled` that they hold none.
* `Buffered.Ready` is a descriptor at a position of its file with nothing in its own buffer.

The lemmas on `Spares` are what a reader and a writer need of the descriptors of others: a slice
that is spared, and the length of a file that nobody makes longer, are already as they will be.
-/

set_option autoImplicit false

namespace DistributedPrograms
namespace Distfs

open UnixPath UnixPath.Errno

/-- The rules of a system, with those about the contents of files. -/
structure ContentRules extends Rules where
  /-- what `fallocate` makes of a file -/
  fallocated : UInt32 → Int64 → Int64 → List UInt8 → List UInt8
  /-- the largest offset in a file that a seek accepts: its file system has a largest size -/
  maxOffset : Ino → Nat
  maxOffset_lt : ∀ i, maxOffset i < 2 ^ 63

/-- Bytes on their way to a file, and where they belong: `none` is its end, at the time they
arrive. -/
structure Block where
  pos : Option Nat
  data : List UInt8

def Block.apply (b : Block) (file : List UInt8) : List UInt8 :=
  overwrite 0 file (b.pos.getD file.length) b.data

/-- The contents of the files, and the buffers of the descriptors.  A descriptor has one buffer, and
takes no second block before the first has arrived. -/
abbrev Contents := WriteBack Ino Fd Block (List UInt8)

structure Buffered where
  posix : Posix
  contents : Contents
  /-- where the descriptors are in their files -/
  cursor : Fd → Nat

/-- What is left open about a call: what POSIX leaves open, which buffers are emptied first, how
much is read or written, and whether the call is refused. -/
structure Turn where
  chance : Chance
  /-- the buffers that reach their files before the call, in this order -/
  drains : List Fd
  /-- how much a call takes at most, if that is anything -/
  count : Nat
  /-- an error by which a call on the contents of a file is refused -/
  refused : Option Int32

def Turn.portion (o : Turn) (n : Nat) : Nat := min n (max 1 o.count)

/-- The largest buffer of an open file. -/
def maxBufferSize : Nat := 2 * 1024 * 1024

def OpenOptions.writes (options : OpenOptions) : Bool := options.write || options.append

namespace Buffered

/-- The buffer of a descriptor reaches its file.  Its cursor moves with it, as it is the position of
the descriptor in the system. -/
def drain (s : Buffered) (fd : Fd) : Buffered :=
  match s.contents.pending fd with
  | none => s
  | some (i, b) =>
    { s with
      contents := s.contents.drain Block.apply fd
      cursor := Function.update s.cursor fd
        (b.pos.getD (s.contents.files i).length + b.data.length) }

/-- The regular file of a descriptor. -/
def regular (s : Buffered) (fd : Fd) : Option (Ino × OpenOptions) :=
  match s.posix.file fd with
  | .ok (i, options, { content := .regular, .. }) => some (i, options)
  | _ => none

def size (s : Buffered) (i : Ino) (f : Inode) : UInt64 :=
  match f.content with
  | .regular => UInt64.ofNat (s.contents.files i).length
  | _ => f.stat.size

def metadata (s : Buffered) (i : Ino) (f : Inode) : Metadata :=
  { metadataOf f with len := s.size i f }

/-- The file of an entry of a directory, with its number. -/
def entryOf (rules : Rules) (t : FileTree) (dir name : Path) : Except Int32 (Ino × Inode) := do
  let (i, f) ← t.reach rules dir
  refuseIf (!rules.search f.rights) EACCES
  if h : FileName name then t.entry i ⟨name, h⟩
  else throw ENOENT

/-- Reading or writing a file changes its `Stat`. -/
def touched (s : Buffered) (o : Turn) (fd : Fd) : Buffered :=
  { s with posix := s.posix.touched o.chance.stat fd }

/-- A call on the contents of a file.  If it is refused, nothing has changed but what the buffers
brought. -/
def tried {ε β : Type} (s : Buffered) (o : Turn) (err : Int32 → ε)
    (x : Except Int32 (β × Buffered)) : Except ε β × Buffered :=
  match o.refused, x with
  | some e, _ => (.error (err e), s)
  | none, .error e => (.error (err e), s)
  | none, .ok (b, s') => (.ok b, s')

/-- Where a seek goes to. -/
def target (s : Buffered) (fd : Fd) (i : Ino) : SeekFrom → Int
  | .start offset => offset.toNat
  | .current offset => s.cursor fd + offset.toInt
  | .fromEnd offset => (s.contents.files i).length + offset.toInt

def seek (rules : ContentRules) (s : Buffered) (o : Turn) (fd : Fd) (i : Ino) (pos : SeekFrom) :
    Except Int32 (UInt64 × Buffered) := do
  let target := s.target fd i pos
  refuseIf (target < 0 || (rules.maxOffset i : Int) < target) EINVAL
  return (UInt64.ofNat target.toNat,
    { s with cursor := Function.update s.cursor fd target.toNat }.touched o fd)

def read (s : Buffered) (o : Turn) (fd : Fd) (i : Ino) (options : OpenOptions) (size : Nat) :
    Except Int32 ({ data : List UInt8 // data.length ≤ size } × Buffered) := do
  refuseIf (!options.read) EBADF
  let data := slice (s.contents.files i) (s.cursor fd) (o.portion size)
  return (⟨data, Nat.le_trans (List.length_take_le ..) (Nat.min_le_left ..)⟩,
    { s with cursor := Function.update s.cursor fd (s.cursor fd + data.length) }.touched o fd)

/-- What is written through a descriptor that is not open for writing is answered and lost. -/
def write (s : Buffered) (o : Turn) (fd : Fd) (i : Ino) (options : OpenOptions)
    (data : List UInt8) : { n : Nat // n ≤ data.length } × Buffered :=
  let n := min (o.portion data.length) maxBufferSize
  let block : Block := ⟨if options.append then none else some (s.cursor fd), data.take n⟩
  (⟨n, Nat.le_trans (Nat.min_le_left ..) (Nat.min_le_left ..)⟩,
    (if options.writes && n != 0 then { s with contents := s.contents.put fd i block }
      else s).touched o fd)

def fallocate (rules : ContentRules) (s : Buffered) (o : Turn) (fd : Fd) (i : Ino)
    (options : OpenOptions) (mode : UInt32) (offset length : Int64) :
    Except Int32 (Unit × Buffered) := do
  refuseIf (!options.writes) EBADF
  return ((), { s with
    contents := s.contents.set i (rules.fallocated mode offset length (s.contents.files i))
      }.touched o fd)

def copyFileRange (s : Buffered) (o : Turn) (fdIn : Fd) (fileIn : Ino × OpenOptions)
    (offsetIn : Int64) (fdOut : Fd) (fileOut : Ino × OpenOptions) (offsetOut : Int64)
    (length : UInt64) : Except Int32 (UInt64 × Buffered) := do
  refuseIf (!fileIn.2.read || !fileOut.2.writes || fileOut.2.append) EBADF
  refuseIf (offsetIn < 0 || offsetOut < 0) EINVAL
  let start := offsetIn.toNatClampNeg
  let stop := offsetOut.toNatClampNeg
  refuseIf (fileIn.1 == fileOut.1 && start < stop + length.toNat && stop < start + length.toNat)
    EINVAL
  let data := slice (s.contents.files fileIn.1) start (o.portion length.toNat)
  return (UInt64.ofNat data.length, ({ s with
    contents := s.contents.set fileOut.1 (overwrite 0 (s.contents.files fileOut.1) stop data)
      }.touched o fdIn).touched o fdOut)

/-- A call that has nothing to do with the contents of a regular file. -/
def forward (rules : Rules) (o : Turn) {β : Type} (c : Call β) (s : Buffered) : β × Buffered :=
  ((Posix.exec rules o.chance c s.posix).1,
    { s with posix := (Posix.exec rules o.chance c s.posix).2 })

def exec (rules : ContentRules) {β : Type} (o : Turn) : Call β → Buffered → β × Buffered
  | .metadata path, s =>
    (((s.posix.tree.reach rules.toRules path).map fun r => s.metadata r.1 r.2).mapError
      (ioError [path]), s)
  | .entryMetadata dir entry, s =>
    (((entryOf rules.toRules s.posix.tree dir entry.fileName).map fun r =>
      s.metadata r.1 r.2).mapError fun e => ⟨some e⟩, s)
  | .fileMetadata fd, s =>
    (((s.posix.file fd).map fun r => s.metadata r.1 r.2.2).mapError fun e => ⟨some e⟩, s)
  | .openFile options path, s =>
    match Posix.openFile rules.toRules o.chance.now s.posix options path with
    | .ok (fd, posix) => (.ok fd, { s with posix, cursor := Function.update s.cursor fd 0 })
    | .error e => (.error (ioError [path] e), s)
  | .fileSetLen fd size, s =>
    match s.posix.setLen rules.toRules o.chance.now fd size, s.regular fd with
    | .ok tree, some (i, _) => (.ok (), { s with
        posix := { s.posix with tree }
        contents := s.contents.set i ((s.contents.files i).takeD size.toNat 0) })
    | .ok tree, none => (.ok (), { s with posix := { s.posix with tree } })
    | .error e, _ => (.error ⟨some e⟩, s)
  | .fileSeek fd pos, s => match s.regular fd with
    | some (i, _) => (s.drain fd).tried o (fun e => ⟨some e⟩) ((s.drain fd).seek rules o fd i pos)
    | none => forward rules.toRules o (.fileSeek fd pos) s
  | .fileRead fd size, s => match s.regular fd with
    | some (i, options) =>
      (s.drain fd).tried o (fun e => ⟨some e⟩) ((s.drain fd).read o fd i options size)
    | none => forward rules.toRules o (.fileRead fd size) s
  | .fileWrite fd data, s => match s.regular fd with
    | some (i, options) =>
      (s.drain fd).tried o (fun e => ⟨some e⟩) (.ok ((s.drain fd).write o fd i options data))
    | none => forward rules.toRules o (.fileWrite fd data) s
  | .fileFlush fd, s =>
    (s.drain fd).tried o (fun e => ⟨some e⟩) (.ok ((), (s.drain fd).touched o fd))
  | .fallocate fd mode offset length, s => match s.regular fd with
    | some (i, options) => s.tried o id (s.fallocate rules o fd i options mode offset length)
    | none => forward rules.toRules o (.fallocate fd mode offset length) s
  | .copyFileRange fdIn offsetIn fdOut offsetOut length, s =>
    match s.regular fdIn, s.regular fdOut with
    | some fileIn, some fileOut =>
      s.tried o id (s.copyFileRange o fdIn fileIn offsetIn fdOut fileOut offsetOut length)
    | _, _ => forward rules.toRules o (.copyFileRange fdIn offsetIn fdOut offsetOut length) s
  | c, s => forward rules.toRules o c s

end Buffered

/-- The operating system of a server whose files are buffered.  Before each call any buffers may
reach their files, in any order. -/
def buffered (rules : ContentRules) : OperatingSystem Turn Buffered :=
  ⟨fun o c s => Buffered.exec rules o c (o.drains.foldl Buffered.drain s)⟩

/-! ## Blocks that are apart from a range

A block on its way does not matter to one who looks elsewhere: if it lies inside the file it changes
no length, and if it lies apart from a range, no byte of it. -/

/-- The block belongs inside a file of this length, and apart from the `n` bytes from `start` on.
So neither these bytes nor the length tell whether it has arrived. -/
def Block.Apart (b : Block) (length start n : Nat) : Prop :=
  ∃ pos, b.pos = some pos ∧ pos + b.data.length ≤ length ∧
    (pos + b.data.length ≤ start ∨ start + n ≤ pos)

theorem Block.length_le_apply (b : Block) (file : List UInt8) :
    file.length ≤ (b.apply file).length := length_le_overwrite

theorem Block.Apart.mono {b : Block} {length length' start n : Nat} (h : b.Apart length start n)
    (hle : length ≤ length') : b.Apart length' start n := by
  obtain ⟨pos, hpos, hin, hapart⟩ := h
  exact ⟨pos, hpos, Nat.le_trans hin hle, hapart⟩

theorem Block.Apart.length_eq {b : Block} {file : List UInt8} {start n : Nat}
    (h : b.Apart file.length start n) : (b.apply file).length = file.length := by
  obtain ⟨pos, hpos, hin, -⟩ := h
  rw [Block.apply, hpos, Option.getD_some, length_overwrite_of_le hin]

/-- A block is not seen in a range that it is apart from. -/
theorem Block.Apart.slice_eq {b : Block} {file : List UInt8} {start n pos k : Nat}
    (h : b.Apart file.length start n) (hstart : start ≤ pos) (hstop : pos + k ≤ start + n) :
    slice (b.apply file) pos k = slice file pos k := by
  obtain ⟨p, hp, hin, hapart⟩ := h
  rw [Block.apply, hp, Option.getD_some, slice_overwrite_of_apart hin (by omega)]

/-- A block for the end of the file, or for a range of it, commutes with one inside the file that is
apart from the range. -/
theorem Block.Apart.comm {b b' : Block} {file : List UInt8} {start n : Nat}
    (h : b'.Apart file.length start n)
    (hb : ∀ pos, b.pos = some pos → pos = start ∧ b.data.length ≤ n) :
    b'.apply (b.apply file) = b.apply (b'.apply file) := by
  have hlength := h.length_eq
  obtain ⟨p, hp, hin, hapart⟩ := h
  have happly : ∀ file, b'.apply file = overwrite 0 file p b'.data := fun file => by
    rw [Block.apply, hp, Option.getD_some]
  rw [happly, happly] at *
  rw [Block.apply, Block.apply, hlength]
  refine overwrite_comm hin ?_
  cases hpos : b.pos with
  | none => exact Or.inl hin
  | some pos =>
    obtain ⟨rfl, hle⟩ := hb pos hpos
    rw [Option.getD_some]
    omega

/-! ## What calls do to the contents

Most calls only let buffers arrive.  The lemmas say so once, for all of them, and then what is left:
seeking, reading, writing and the two calls on raw descriptors. -/

namespace Buffered

open WriteBack

variable {rules : ContentRules} {s s' : Buffered} {o : Turn} {fd fd' : Fd} {i : Ino}
  {options : OpenOptions} {file : List UInt8} {pos : Nat}

/-- Nothing is read where there is nothing to read. -/
theorem slice_of_portion_eq_nil {n : Nat} (h : slice file pos (o.portion n) = []) :
    slice file pos n = [] := by
  rcases Nat.eq_zero_or_pos n with rfl | hpos
  · exact List.take_zero
  · refine slice_of_slice_eq_nil (Nat.lt_min.2 ⟨hpos, ?_⟩) h
    exact Nat.lt_of_lt_of_le Nat.zero_lt_one (Nat.le_max_left ..)

theorem contents_drain : (s.drain fd).contents = s.contents.drain Block.apply fd := by
  rw [drain]
  split
  · next hnone => simp only [WriteBack.drain, hnone]
  · rfl

theorem posix_drain : (s.drain fd).posix = s.posix := by
  rw [drain]
  split <;> rfl

theorem regular_congr (h : s'.posix = s.posix) : s'.regular fd = s.regular fd := by
  rw [regular, regular, h]

theorem regular_eq_some : s.regular fd = some (i, options) ↔
    ∃ f, s.posix.file fd = .ok (i, options, f) ∧ f.content = .regular := by
  rw [regular]
  constructor
  · intro h
    split at h
    · next hfile =>
      obtain ⟨⟩ := h
      exact ⟨_, hfile, rfl⟩
    · contradiction
  · rintro ⟨⟨content, rights, stat, nlink, rdev, blksize⟩, hfile, rfl⟩
    rw [hfile]

/-- Which regular file a descriptor is open on does not depend on its `Stat`. -/
theorem regular_touched (stat : Stat) :
    regular { s with posix := s.posix.touched stat fd' } fd = s.regular fd := by
  have hfile : ∀ options i', (∃ f, (s.posix.touched stat fd').file fd = .ok (i', options, f) ∧
        f.content = .regular) ↔
      ∃ f, s.posix.file fd = .ok (i', options, f) ∧ f.content = .regular := by
    intro options i'
    rw [Posix.touched]
    split
    · exact Iff.rfl
    · next j options' hfd' =>
      simp only [Posix.file_eq_ok]
      by_cases hj : i' = j
      · subst hj
        rw [FileTree.node_modify_self]
        constructor
        · rintro ⟨f, ⟨hfd, hnode⟩, hcontent⟩
          obtain ⟨f', hnode', rfl⟩ := Option.map_eq_some_iff.1 hnode
          exact ⟨f', ⟨hfd, hnode'⟩, hcontent⟩
        · rintro ⟨f, ⟨hfd, hnode⟩, hcontent⟩
          exact ⟨_, ⟨hfd, Option.map_eq_some_iff.2 ⟨f, hnode, rfl⟩⟩, hcontent⟩
      · rw [FileTree.node_modify_of_ne hj]
  refine Option.ext fun r => ?_
  obtain ⟨i', options⟩ := r
  exact regular_eq_some.trans ((hfile options i').trans regular_eq_some.symm)

theorem contents_tried {ε β : Type} {err : Int32 → ε} {x : Except Int32 (β × Buffered)}
    (h : ∀ b s', x = .ok (b, s') → s'.contents = s.contents) :
    (s.tried o err x).2.contents = s.contents := by
  rw [tried.eq_def]
  split
  · rfl
  · rfl
  · exact h _ _ rfl

theorem contents_seek {goal : SeekFrom} {b : UInt64} (h : s.seek rules o fd i goal = .ok (b, s')) :
    s'.contents = s.contents := by
  obtain ⟨⟨⟩, -, h⟩ := FileTree.bind_eq_ok.1 h
  obtain ⟨⟩ := h
  rfl

theorem contents_read {size : Nat} {b : { data : List UInt8 // data.length ≤ size }}
    (h : s.read o fd i options size = .ok (b, s')) : s'.contents = s.contents := by
  obtain ⟨⟨⟩, -, h⟩ := FileTree.bind_eq_ok.1 h
  obtain ⟨⟩ := h
  rfl

/-- **A call that does not write only lets blocks reach their files.** -/
theorem drained_exec {β : Type} {c : Call β} (h : ¬c.Writes) :
    Drained Block.apply s.contents (exec rules o c s).2.contents := by
  have hdrain : ∀ {fd}, Drained Block.apply s.contents (s.drain fd).contents := by
    intro fd
    rw [contents_drain]
    exact drained_drain
  cases c with
  | fileWrite fd data => exact absurd trivial h
  | fileSetLen fd size => exact absurd trivial h
  | fallocate fd mode offset length => exact absurd trivial h
  | copyFileRange fdIn offsetIn fdOut offsetOut length => exact absurd trivial h
  | openFile options path =>
    rw [exec]
    split <;> exact .refl
  | fileSeek fd goal =>
    rw [exec]
    split
    · rw [contents_tried fun b s' => contents_seek]
      exact hdrain
    · exact .refl
  | fileRead fd size =>
    rw [exec]
    split
    · rw [contents_tried fun b s' => contents_read]
      exact hdrain
    · exact .refl
  | fileFlush fd =>
    rw [exec, contents_tried]
    · exact hdrain
    · intro b s' heq
      obtain ⟨⟩ := heq
      rfl
  | _ => exact .refl

theorem foldl_drain (fds : List Fd) : (fds.foldl drain s).posix = s.posix ∧
    (fds.foldl drain s).contents = fds.foldl (WriteBack.drain Block.apply) s.contents := by
  induction fds generalizing s with
  | nil => exact ⟨rfl, rfl⟩
  | cons fd fds ih =>
    obtain ⟨hposix, hcontents⟩ := ih (s := s.drain fd)
    rw [contents_drain] at hcontents
    exact ⟨hposix.trans posix_drain, hcontents⟩

theorem drained_foldl (fds : List Fd) :
    Drained Block.apply s.contents (fds.foldl drain s).contents :=
  ⟨fds, (foldl_drain fds).2⟩

/-! ## Files with bytes on their way

What is in the files now, against what has been promised. -/

/-- What the descriptors outside `own` hold for the file makes it no longer, and is apart from the
`n` bytes from `start` on. -/
def Spares (s : Buffered) (own : List Fd) (i : Ino) (start n : Nat) : Prop :=
  ∀ fd, fd ∉ own → ∀ b, s.contents.pending fd = some (i, b) →
    b.Apart (s.contents.files i).length start n

/-- No descriptor but those of `own` holds bytes for the file.  Then the file is what was promised,
up to what these hold. -/
def Settled (s : Buffered) (own : List Fd) (i : Ino) : Prop :=
  ∀ fd, fd ∉ own → ¬s.contents.Holds fd i

theorem settled_of_drained {own : List Fd} (h : Drained Block.apply s.contents s'.contents)
    (hs : s.Settled own i) : s'.Settled own i :=
  fun fd hfd => h.not_holds (hs fd hfd)

theorem length_le_of_drained {c c' : Contents} (h : Drained Block.apply c c') :
    (c.files i).length ≤ (c'.files i).length := by
  refine Drained.preserves (I := fun c' : Contents => (c.files i).length ≤ (c'.files i).length)
    (fun c' w hc' => Nat.le_trans hc' ?_) h (Nat.le_refl _)
  by_cases hw : c'.Holds w i
  · obtain ⟨b, hb⟩ := hw
    rw [files_drain_of_pending hb]
    exact b.length_le_apply _
  · rw [files_drain_of_not_holds hw]

/-- Files only grow while blocks arrive, so what is inside them stays there. -/
theorem spares_of_drained {own : List Fd} {start n : Nat}
    (h : Drained Block.apply s.contents s'.contents) (hs : s.Spares own i start n) :
    s'.Spares own i start n :=
  fun fd hfd b hb => (hs fd hfd b (h.pending hb)).mono (length_le_of_drained h)

/-- Once the last descriptor with bytes for the file is flushed, none has any. -/
theorem settled_of_idle (hs : s.Settled [fd] i) (hidle : s.contents.pending fd = none) :
    s.Settled [] i := by
  rintro fd' - ⟨b, hb⟩
  refine hs fd' (fun hmem => ?_) ⟨b, hb⟩
  rw [List.mem_singleton.1 hmem, hidle] at hb
  contradiction

/-- Once its own descriptor is empty, a range is spared by all. -/
theorem spares_of_idle {start n : Nat} (hs : s.Spares [fd] i start n)
    (hidle : s.contents.pending fd = none) : s.Spares [] i start n := by
  intro fd' _ b hb
  refine hs fd' (fun hmem => ?_) b hb
  rw [List.mem_singleton.1 hmem, hidle] at hb
  contradiction

section

variable {files : Ino → List UInt8} {start n : Nat}

/-- **The part of a file that is spared is as it was promised**, although the file as a whole need
not be. -/
theorem slice_of_spares {k : Nat} (howes : Owes Block.apply s.contents files)
    (hs : s.Spares [] i start n) (hstart : start ≤ pos) (hstop : pos + k ≤ start + n) :
    slice (s.contents.files i) pos k = slice (files i) pos k :=
  howes.eq_of_drains (fun file => slice file pos k) fun _ hdrained fd b hb =>
    ((hs fd List.not_mem_nil b (hdrained.pending hb)).mono
      (length_le_of_drained hdrained)).slice_eq hstart hstop

/-- **Where no block makes a file longer, it is as long as it was promised.** -/
theorem length_of_spares (howes : Owes Block.apply s.contents files)
    (hs : s.Spares [] i start n) : (s.contents.files i).length = (files i).length :=
  howes.eq_of_drains List.length fun _ hdrained fd b hb =>
    ((hs fd List.not_mem_nil b (hdrained.pending hb)).mono (length_le_of_drained hdrained)).length_eq

end

/-! ## A file in front of its reader

A descriptor that stands somewhere in its file, and what a read or a write there does. -/

/-- The descriptor is at `pos` in the regular file `i`, and holds no bytes.  This is where a seek
leaves it. -/
structure Ready (s : Buffered) (fd : Fd) (i : Ino) (options : OpenOptions) (pos : Nat) : Prop where
  regular : s.regular fd = some (i, options)
  idle : s.contents.pending fd = none
  cursor : s.cursor fd = pos

theorem ready_drain (h : s.Ready fd i options pos) : (s.drain fd').Ready fd i options pos := by
  rw [drain]
  split
  · exact h
  · next j b hpending =>
    have hne : fd ≠ fd' := by
      rintro rfl
      rw [h.idle] at hpending
      contradiction
    refine ⟨h.regular, ?_, (Function.update_of_ne hne ..).trans h.cursor⟩
    rw [pending_drain, Function.update_of_ne hne, h.idle]

theorem ready_foldl (h : s.Ready fd i options pos) (fds : List Fd) :
    (fds.foldl drain s).Ready fd i options pos := by
  induction fds generalizing s with
  | nil => exact h
  | cons fd' fds ih => exact ih (ready_drain h)

theorem ready_touched (h : s.Ready fd i options pos) :
    (s.touched o fd').Ready fd i options pos :=
  ⟨(regular_touched _).trans h.regular, h.idle, h.cursor⟩

theorem drain_of_idle (h : s.contents.pending fd = none) : s.drain fd = s := by
  rw [drain, h]

theorem idle_drain : (s.drain fd).contents.pending fd = none := by
  rw [contents_drain, pending_drain, Function.update_self]

/-- **A seek flushes its own descriptor**, and goes to its offset. -/
theorem ready_seek {offset : UInt64} (hregular : s.regular fd = some (i, options)) :
    (∃ e, (exec rules o (.fileSeek fd (.start offset)) s).1 = .error e) ∨
      (exec rules o (.fileSeek fd (.start offset)) s).2.Ready fd i options offset.toNat := by
  rw [exec, hregular]
  simp only
  rw [tried.eq_def]
  split
  · exact Or.inl ⟨_, rfl⟩
  · exact Or.inl ⟨_, rfl⟩
  · next hseek =>
    obtain ⟨⟨⟩, -, hseek⟩ := FileTree.bind_eq_ok.1 hseek
    obtain ⟨⟩ := hseek
    refine Or.inr (ready_touched ⟨?_, idle_drain, Function.update_self ..⟩)
    exact (regular_congr posix_drain).trans hregular

theorem ready_read {size : Nat} (h : s.Ready fd i options pos) :
    (∃ e, (exec rules o (.fileRead fd size) s).1 = .error e) ∨
      ∃ data, (exec rules o (.fileRead fd size) s).1 = .ok data ∧
        data.1 = slice (s.contents.files i) pos (o.portion size) ∧
        (exec rules o (.fileRead fd size) s).2.Ready fd i options (pos + data.1.length) := by
  rw [exec, h.regular]
  simp only
  rw [drain_of_idle h.idle, tried.eq_def]
  split
  · exact Or.inl ⟨_, rfl⟩
  · exact Or.inl ⟨_, rfl⟩
  · next hread =>
    obtain ⟨⟨⟩, -, hread⟩ := FileTree.bind_eq_ok.1 hread
    obtain ⟨⟩ := hread
    have hdata : slice (s.contents.files i) (s.cursor fd) (o.portion size) =
        slice (s.contents.files i) pos (o.portion size) := by rw [h.cursor]
    refine Or.inr ⟨_, rfl, hdata, ready_touched ⟨h.regular, h.idle, ?_⟩⟩
    exact (Function.update_self ..).trans (congrArg (· + _) h.cursor)

/-- **A write leaves its bytes with its descriptor.** -/
theorem ready_write (rules : ContentRules) (o : Turn) (data : List UInt8)
    (h : s.Ready fd i options pos) :
    (∃ e, (exec rules o (.fileWrite fd data) s).1 = .error e ∧
        (exec rules o (.fileWrite fd data) s).2.contents = s.contents) ∨
      ∃ n, (exec rules o (.fileWrite fd data) s).1 = .ok n ∧ n.1 ≤ maxBufferSize ∧
        (exec rules o (.fileWrite fd data) s).2.contents =
          if options.writes && n.1 != 0 then
            s.contents.put fd i ⟨if options.append then none else some pos, data.take n.1⟩
          else s.contents := by
  rw [exec, h.regular]
  simp only
  rw [drain_of_idle h.idle, tried.eq_def]
  split
  · exact Or.inl ⟨_, rfl, rfl⟩
  · contradiction
  · next hwrite =>
    obtain ⟨⟩ := hwrite
    refine Or.inr ⟨_, rfl, Nat.min_le_right .., ?_⟩
    simp only [touched, h.cursor]
    split <;> rfl

theorem contents_flush :
    (exec rules o (.fileFlush fd) s).2.contents = (s.drain fd).contents := by
  rw [exec, contents_tried]
  intro b s' heq
  obtain ⟨⟩ := heq
  rfl

theorem regular_flush : (exec rules o (.fileFlush fd') s).2.regular fd = s.regular fd := by
  rw [exec, tried.eq_def]
  split
  · exact regular_congr posix_drain
  · exact regular_congr posix_drain
  · next heq =>
    obtain ⟨⟩ := heq
    exact (regular_touched _).trans (regular_congr posix_drain)

/-- A seek on something else than a regular file. -/
theorem seek_of_not_regular {goal : SeekFrom} (h : s.regular fd = none) :
    (exec rules o (.fileSeek fd goal) s).2.regular fd = none ∧
      (exec rules o (.fileSeek fd goal) s).2.contents = s.contents := by
  rw [exec, h]
  exact ⟨(regular_touched _).trans h, rfl⟩

theorem write_of_not_regular {data : List UInt8} (h : s.regular fd = none) :
    (exec rules o (.fileWrite fd data) s).2.contents = s.contents := by
  rw [exec, h]
  rfl

/-- What a look at a regular file tells of its size. -/
theorem len_metadata {f : Inode} (hcontent : f.content = .regular) :
    (s.metadata i f).len = UInt64.ofNat (s.contents.files i).length := by
  rw [metadata, size, hcontent]

theorem len_fileMetadata (rules : ContentRules) (o : Turn) {m : Metadata}
    (hregular : s.regular fd = some (i, options))
    (h : (exec rules o (.fileMetadata fd) s).1 = .ok m) :
    m.len = UInt64.ofNat (s.contents.files i).length := by
  obtain ⟨f, hfile, hcontent⟩ := regular_eq_some.1 hregular
  rw [exec, hfile] at h
  obtain rfl := Except.ok.inj h
  exact len_metadata hcontent

theorem len_pathMetadata {m : Metadata} {path : Path} {f : Inode}
    (hreach : s.posix.tree.reach rules.toRules path = .ok (i, f)) (hcontent : f.content = .regular)
    (h : (exec rules o (.metadata path) s).1 = .ok m) :
    m.len = UInt64.ofNat (s.contents.files i).length := by
  rw [exec, hreach] at h
  obtain rfl := Except.ok.inj h
  exact len_metadata hcontent

theorem fallocate_cases (rules : ContentRules) (o : Turn) (mode : UInt32) (offset length : Int64)
    (hregular : s.regular fd = some (i, options)) :
    (∃ e, (exec rules o (.fallocate fd mode offset length) s).1 = .error e ∧
        (exec rules o (.fallocate fd mode offset length) s).2.contents = s.contents) ∨
      (exec rules o (.fallocate fd mode offset length) s).1 = .ok () ∧
        (exec rules o (.fallocate fd mode offset length) s).2.contents =
          s.contents.set i (rules.fallocated mode offset length (s.contents.files i)) := by
  rw [exec, hregular]
  simp only
  rw [tried.eq_def]
  split
  · exact Or.inl ⟨_, rfl, rfl⟩
  · exact Or.inl ⟨_, rfl, rfl⟩
  · next hok =>
    obtain ⟨⟨⟩, -, hok⟩ := FileTree.bind_eq_ok.1 hok
    obtain ⟨⟩ := hok
    exact Or.inr ⟨rfl, rfl⟩

theorem fallocate_of_not_regular (rules : ContentRules) (o : Turn) (mode : UInt32)
    (offset length : Int64) (hregular : s.regular fd = none) :
    (exec rules o (.fallocate fd mode offset length) s).2.contents = s.contents := by
  rw [exec, hregular]
  rfl

theorem toNatClampNeg_toInt64 {x : UInt64} (h : ¬x.toInt64 < 0) :
    x.toInt64.toNatClampNeg = x.toNat := by
  have htoInt : x.toInt64.toInt = x.toBitVec.toInt := rfl
  have hzero : (0 : Int64).toInt = 0 := rfl
  rw [Int64.lt_iff_toInt_lt, htoInt, hzero, BitVec.toInt_eq_toNat_cond] at h
  rw [Int64.toNatClampNeg, htoInt, BitVec.toInt_eq_toNat_cond]
  have hlt := x.toNat_lt
  rw [← UInt64.toNat_toBitVec] at hlt ⊢
  split at h
  · next hcond => rw [if_pos hcond, Int.toNat_natCast]
  · omega

/-- What a copy makes of its files. -/
theorem copyFileRange_eq_ok {fdIn fdOut : Fd} {fileIn fileOut : Ino × OpenOptions}
    {offsetIn offsetOut length n : UInt64}
    (h : s.copyFileRange o fdIn fileIn offsetIn.toInt64 fdOut fileOut offsetOut.toInt64 length =
      .ok (n, s')) :
    n.toNat ≤ (slice (s.contents.files fileIn.1) offsetIn.toNat length.toNat).length ∧
    (n = 0 → slice (s.contents.files fileIn.1) offsetIn.toNat length.toNat = []) ∧
    s'.contents = s.contents.set fileOut.1 (overwrite 0 (s.contents.files fileOut.1)
      offsetOut.toNat (slice (s.contents.files fileIn.1) offsetIn.toNat n.toNat)) := by
  obtain ⟨⟨⟩, -, h⟩ := FileTree.bind_eq_ok.1 h
  obtain ⟨⟨⟩, hpositive, h⟩ := FileTree.bind_eq_ok.1 h
  obtain ⟨⟨⟩, -, h⟩ := FileTree.bind_eq_ok.1 h
  rw [FileTree.refuseIf_eq_ok, Bool.or_eq_false_iff] at hpositive
  have hin := toNatClampNeg_toInt64 (of_decide_eq_false hpositive.1)
  have hout := toNatClampNeg_toInt64 (of_decide_eq_false hpositive.2)
  rw [hin, hout] at h
  obtain ⟨⟩ := h
  have hportion : o.portion length.toNat ≤ length.toNat := Nat.min_le_left ..
  have hlt : (slice (s.contents.files fileIn.1) offsetIn.toNat (o.portion length.toNat)).length <
      2 ^ 64 :=
    Nat.lt_of_le_of_lt (Nat.le_trans (List.length_take_le ..) hportion) length.toNat_lt
  rw [UInt64.toNat_ofNat_of_lt' hlt, slice_length]
  refine ⟨length_slice_mono hportion, fun hn => ?_, rfl⟩
  have hnil : slice (s.contents.files fileIn.1) offsetIn.toNat (o.portion length.toNat) = [] := by
    refine List.length_eq_zero_iff.1 ?_
    rw [← UInt64.toNat_ofNat_of_lt' hlt, hn]
    rfl
  exact slice_of_portion_eq_nil hnil

theorem copyFileRange_cases (rules : ContentRules) (o : Turn) (offsetIn offsetOut : Int64)
    (length : UInt64) {fdIn fdOut : Fd} {fileIn fileOut : Ino × OpenOptions}
    (hin : s.regular fdIn = some fileIn)
    (hout : s.regular fdOut = some fileOut) :
    (∃ e, (exec rules o (.copyFileRange fdIn offsetIn fdOut offsetOut length) s).1 = .error e ∧
        (exec rules o (.copyFileRange fdIn offsetIn fdOut offsetOut length) s).2.contents =
          s.contents) ∨
      ∃ n, s.copyFileRange o fdIn fileIn offsetIn fdOut fileOut offsetOut length = .ok
          (n, (exec rules o (.copyFileRange fdIn offsetIn fdOut offsetOut length) s).2) ∧
        (exec rules o (.copyFileRange fdIn offsetIn fdOut offsetOut length) s).1 = .ok n := by
  rw [exec, hin, hout]
  simp only
  rw [tried.eq_def]
  split
  · exact Or.inl ⟨_, rfl, rfl⟩
  · exact Or.inl ⟨_, rfl, rfl⟩
  · next hok => exact Or.inr ⟨_, hok, rfl⟩

theorem copyFileRange_of_not_regular (rules : ContentRules) (o : Turn) (offsetIn offsetOut : Int64)
    (length : UInt64) {fdIn fdOut : Fd} (h : s.regular fdIn = none ∨ s.regular fdOut = none) :
    (exec rules o (.copyFileRange fdIn offsetIn fdOut offsetOut length) s).2.contents =
      s.contents := by
  rw [exec]
  split
  · next hin hout =>
    rcases h with h | h
    · rw [hin] at h
      contradiction
    · rw [hout] at h
      contradiction
  · rfl

end Buffered
end Distfs
end DistributedPrograms
