import DistributedPrograms.Lib.FileTree
import DistributedPrograms.Distfs.World

/-!
# The server on a POSIX system

`posix rules` is the operating system whose calls act on a `FileTree`: what the standard library and
the crates make of a handler's call is spelled out here, with the errors they report.  What is read
from and written to open files is left open, as is the time of a call: a `Chance` says what happens.

* `Posix` is the tree and the files that are open, each with the options it was opened with.
* `Posix.tried` is a call that changes the tree if it succeeds, and `Posix.touched` one that changes
  no more of a file than its `Stat`, as reading and writing do.
* The standard library refuses a path with a zero byte by itself, without an errno, before any call
  is made.
* A directory stream reports names and types; the attributes of an entry are read afterwards, entry
  by entry.

Access times that a system moves by itself, when a file is read or a link followed, are not followed
here: a `Chance` does not carry them, and the results that are about what files keep say so
(`Inode.lasting`).

`attrOf` is what the server tells of a file, and `metadataToGrpc_metadataOf` says that every file of
a tree has attributes, so the `unreachable!()` of the conversion is never reached on such a system.
-/

set_option autoImplicit false

namespace DistributedPrograms
namespace Distfs

open UnixPath UnixPath.Errno

/-- A POSIX system: its files, and those that are open.  A descriptor names a file and not a path,
so renaming does not touch it. -/
structure Posix where
  tree : FileTree
  fds : Fd → Option (Ino × OpenOptions)
  nextFd : Fd

/-- What the files do not determine about a call.  It is chosen anew for each call. -/
structure Chance where
  /-- when it is made -/
  now : Clock
  /-- what it answers, where its answer depends on the contents of files -/
  answers : Answers
  /-- how it leaves the files that it reads or writes -/
  stat : Stat

/-! ## Answers

What each call answers, in the words of the tree.  The errors are those of the library. -/

/-- What `stat` reports. -/
def metadataOf (f : Inode) : Metadata where
  len := f.stat.size
  blocks := f.stat.blocks
  atime := f.stat.atime.seconds
  mtime := f.stat.mtime.seconds
  ctime := f.stat.ctime.seconds
  mode := f.mode
  nlink := f.nlink
  uid := f.rights.uid
  gid := f.rights.gid
  rdev := f.rdev
  blksize := f.blksize

/-- The standard library refuses a path with a zero byte by itself, without an errno. -/
def ioError (paths : List Path) (e : Int32) : IoError :=
  if paths.any fun p => (0 : UInt8) ∈ p then ⟨none⟩ else ⟨some e⟩

namespace Posix

/-- A call that changes the tree if it succeeds, and leaves it as it is if it fails. -/
def tried {ε : Type} (s : Posix) (err : Int32 → ε) : Except Int32 FileTree → Except ε Unit × Posix
  | .ok tree => (.ok (), { s with tree })
  | .error e => (.error (err e), s)

/-- The entries of a directory, as a stream yields them. -/
def readDir (rules : Rules) (t : FileTree) (p : Path) :
    Except Int32 (List (Except IoError OsDirEntry)) := do
  let (i, f) ← t.reach rules p
  match f.content with
  | .directory d => do
    t.allowed rules (.open true false) [i]
    return d.entries.map fun e => .ok ⟨e.1.1, e.1.2.1⟩
  | _ => throw ENOTDIR

/-- The file of an entry in the directory `dir`; a link is not followed. -/
def entryOf (rules : Rules) (t : FileTree) (dir name : Path) : Except Int32 Inode := do
  let (i, f) ← t.reach rules dir
  refuseIf (!rules.search f.rights) EACCES
  if h : FileName name then do
    let (_, f) ← t.entry i ⟨name, h⟩
    return f
  else throw ENOENT

/-- The type of an entry is part of the directory. -/
def entryType (rules : Rules) (t : FileTree) (dir name : Path) : Except Int32 FileType := do
  let (i, _) ← t.reach rules dir
  if h : FileName name then do
    let (_, f) ← t.entry i ⟨name, h⟩
    return ⟨f.content.typeBits⟩
  else throw ENOENT

/-- `OpenOptions::open`: a file is created only by one who also writes, and one who neither reads
nor writes opens nothing. -/
def openFile (rules : Rules) (now : Time) (s : Posix) (options : OpenOptions) (p : Path) :
    Except Int32 (Fd × Posix) := do
  let write := options.write || options.append
  refuseIf (!options.read && !write) EINVAL
  refuseIf (options.create && !write) EINVAL
  let (i, tree) ← s.tree.openFile rules now options.create options.read write options.mode p
  return (s.nextFd,
    { tree, fds := Function.update s.fds s.nextFd (some (i, options)), nextFd := s.nextFd + 1 })

def readLink (rules : Rules) (t : FileTree) (p : Path) : Except Int32 Path := do
  let (i, n, slash) ← t.slot rules p
  let (_, f) ← t.entry i n
  match f.content, slash with
  | .symlink target, false => return target
  | _, _ => throw EINVAL

/-- The file of a descriptor. -/
def file (s : Posix) (fd : Fd) : Except Int32 (Ino × OpenOptions × Inode) :=
  match s.fds fd with
  | none => .error EBADF
  | some (i, options) => match s.tree.node i with
    | none => .error EBADF
    | some f => .ok (i, options, f)

theorem file_eq_ok {s : Posix} {fd : Fd} {i : Ino} {options : OpenOptions} {f : Inode} :
    s.file fd = .ok (i, options, f) ↔ s.fds fd = some (i, options) ∧ s.tree.node i = some f := by
  rw [file]
  constructor
  · intro h
    split at h
    · contradiction
    · next hfd =>
      split at h
      · contradiction
      · next hnode =>
        cases h
        exact ⟨hfd, hnode⟩
  · rintro ⟨hfd, hnode⟩
    simp only [hfd, hnode]

/-- `ftruncate`, for which the file must be open for writing.  The check is on the descriptor, and
comes before that of the rules. -/
def setLen (rules : Rules) (now : Time) (s : Posix) (fd : Fd) (size : UInt64) :
    Except Int32 FileTree := do
  let (i, options, _) ← s.file fd
  refuseIf (!(options.write || options.append) || 2 ^ 63 ≤ size.toNat) EINVAL
  s.tree.allowed rules .truncate [i]
  return s.tree.modify i fun f => { f with stat := { f.stat with size, mtime := now, ctime := now } }

/-- Reading or writing a file changes no more of it than its `Stat`. -/
def touched (s : Posix) (stat : Stat) (fd : Fd) : Posix :=
  match s.fds fd with
  | none => s
  | some (i, _) => { s with tree := s.tree.modify i fun f => { f with stat } }

def exec (rules : Rules) {β : Type} (o : Chance) : Call β → Posix → β × Posix
  | .metadata path, s =>
    (((s.tree.reach rules path).map fun r => metadataOf r.2).mapError (ioError [path]), s)
  | .mkdir path mode, s => s.tried id (s.tree.mkdir rules o.now path mode)
  | .unlink path, s => s.tried id (s.tree.unlink rules o.now path)
  | .symlink source target, s =>
    s.tried (ioError [source, target]) (s.tree.symlink rules o.now source target)
  | .removeDir path, s => s.tried (ioError [path]) (s.tree.rmdir rules o.now path)
  | .rename origin path, s =>
    s.tried (ioError [origin, path]) (s.tree.rename rules o.now origin path)
  | .readDir path, s => ((readDir rules s.tree path).mapError (ioError [path]), s)
  | .entryFileType dir entry, s =>
    ((entryType rules s.tree dir entry.fileName).mapError fun e => ⟨some e⟩, s)
  | .entryMetadata dir entry, s =>
    (((entryOf rules s.tree dir entry.fileName).map metadataOf).mapError fun e => ⟨some e⟩, s)
  | .openFile options path, s => match openFile rules o.now s options path with
    | .ok (fd, s') => (.ok fd, s')
    | .error e => (.error (ioError [path] e), s)
  | .access path flag, s => match s.tree.reach rules path with
    | .ok _ => (o.answers _ (.access path flag), s)
    | .error e => (.error e, s)
  | .readLink path, s => ((readLink rules s.tree path).mapError (ioError [path]), s)
  | .setOwner path uid, s => s.tried .nixError (s.tree.chown rules o.now path uid)
  | .setGroup path gid, s => s.tried .nixError (s.tree.chgrp rules o.now path gid)
  | .setFileMtime path seconds nanos, s =>
    s.tried (ioError [path])
      (s.tree.utimens rules o.now path .omitted (FileTree.timeArg seconds nanos))
  | .setFileAtime path seconds nanos, s =>
    s.tried (ioError [path])
      (s.tree.utimens rules o.now path (FileTree.timeArg seconds nanos) .omitted)
  | .setPermissions path mode, s => s.tried (ioError [path]) (s.tree.chmod rules o.now path mode)
  | .fileMetadata fd, s =>
    (((s.file fd).map fun r => metadataOf r.2.2).mapError fun e => ⟨some e⟩, s)
  | .fileSetLen fd size, s => s.tried (fun e => ⟨some e⟩) (s.setLen rules o.now fd size)
  | .fileSeek fd pos, s => (o.answers _ (.fileSeek fd pos), s.touched o.stat fd)
  | .fileRead fd size, s => (o.answers _ (.fileRead fd size), s.touched o.stat fd)
  | .fileWrite fd data, s => (o.answers _ (.fileWrite fd data), s.touched o.stat fd)
  | .fileFlush fd, s => (o.answers _ (.fileFlush fd), s.touched o.stat fd)
  | .fsync fd, s => (o.answers _ (.fsync fd), s.touched o.stat fd)
  | .fallocate fd mode offset length, s =>
    (o.answers _ (.fallocate fd mode offset length), s.touched o.stat fd)
  | .copyFileRange fdIn offsetIn fdOut offsetOut length, s =>
    (o.answers _ (.copyFileRange fdIn offsetIn fdOut offsetOut length),
      (s.touched o.stat fdIn).touched o.stat fdOut)
  | c, s => (o.answers _ c, s)

end Posix

/-- The operating system of a server that runs on POSIX, where the rules say what it lets its user
do. -/
def posix (rules : Rules) : OperatingSystem Chance Posix := ⟨Posix.exec rules⟩

instance : Nonempty Chance :=
  ⟨⟨⟨⟨0, 0⟩, by decide⟩, refusing, ⟨0, 0, ⟨0, 0⟩, ⟨0, 0⟩, ⟨0, 0⟩⟩⟩⟩

/-! ## Attributes

What the server tells of a file of the tree. -/

def filetypeOf : Content → Filetype
  | .regular => .regularFile
  | .directory _ => .directory
  | .symlink _ => .symlink
  | .special .fifo => .namedPipe
  | .special .charDevice => .charDevice
  | .special .blockDevice => .blockDevice
  | .special .socket => .socket

/-- What the server tells of a file.  Of the times it tells the seconds, of the mode the lower nine
bits. -/
def attrOf (f : Inode) : Attr where
  size := f.stat.size
  blocks := f.stat.blocks
  atime := some ⟨f.stat.atime.seconds, 0⟩
  mtime := some ⟨f.stat.mtime.seconds, 0⟩
  ctime := some ⟨f.stat.ctime.seconds, 0⟩
  kind := filetypeOf f.content
  perm := f.rights.perm &&& 0o777
  nlink := f.nlink.toUInt32
  uid := f.rights.uid
  gid := f.rights.gid
  rdev := f.rdev.toUInt32
  flag := 0
  blksize := f.blksize.toUInt32

theorem or_and (x y z : UInt32) : (x ||| y) &&& z = x &&& z ||| y &&& z :=
  UInt32.toBitVec_inj.1 BitVec.and_or_distrib_right

/-- The type bits of a mode and its permission bits do not meet. -/
theorem mode_and (f : Inode) : f.mode &&& FileType.ifmt = f.content.typeBits ∧
    f.mode &&& 0o777 = f.rights.perm &&& 0o777 := by
  have hperm : f.rights.perm &&& 0o7777 &&& FileType.ifmt = 0 := by
    rw [UInt32.and_assoc]
    exact UInt32.and_zero
  have hbits : f.content.typeBits &&& FileType.ifmt = f.content.typeBits ∧
      f.content.typeBits &&& 0o777 = 0 := by
    cases f.content with
    | special kind => cases kind <;> decide
    | _ => exact ⟨by rw [Content.typeBits]; decide, by rw [Content.typeBits]; decide⟩
  constructor
  · rw [Inode.mode, or_and, hperm, hbits.1, UInt32.or_zero]
  · rw [Inode.mode, or_and, hbits.2, UInt32.zero_or, UInt32.and_assoc]
    rfl

theorem stdToGrpc_of_bits {c : Content} {t : FileType} (h : t.mode &&& FileType.ifmt = c.typeBits) :
    stdToGrpc t = some (filetypeOf c) := by
  simp only [stdToGrpc, FileType.isDir, FileType.isFile, FileType.isSymlink, FileType.isSocket,
    FileType.isBlockDevice, FileType.isCharDevice, FileType.isFifo, FileType.is, h]
  cases c with
  | special kind => cases kind <;> rfl
  | _ => rfl

/-- **Every file has attributes.**  The `unreachable!()` on the way is never reached, because a file
of a tree is of one of the known types. -/
theorem metadataToGrpc_metadataOf (f : Inode) : metadataToGrpc (metadataOf f) = some (attrOf f) := by
  obtain ⟨hkind, hperm⟩ := mode_and f
  have hstd : stdToGrpc (metadataOf f).fileType = some (filetypeOf f.content) :=
    stdToGrpc_of_bits hkind
  have hperm' : (metadataOf f).mode &&& 0o777 = f.rights.perm &&& 0o777 := hperm
  rw [metadataToGrpc, hstd, hperm']
  rfl

/-! ## Reading attributes

The two ways in which a handler looks at a file, by its path and by its descriptor. -/

section

universe u

variable {P : Type u} [DecidableEq P] {rules : Rules} {p : P} {w w' : World P Posix}

/-- A look at a file tells its attributes. -/
theorem ends_attrOf {c : Call (Except IoError Metadata)} {found : Except Int32 Inode}
    {err : Int32 → IoError} {r : Except Failure Attr}
    (hexec : ∀ o : Chance, (World.semantics (posix rules)).exec p o c w =
      some ((found.map metadataOf).mapError err, w)) :
    Fallible.Ends (World.semantics (posix rules)) p
        (Fallible.attempt .ofIoError c >>= fun m => Fallible.ofOption .panic (metadataToGrpc m))
        w r w' ↔
      w' = w ∧ r = (found.map attrOf).mapError fun e => .ofIoError (err e) := by
  cases found with
  | error e =>
    have hcall : ∀ r w', Fallible.Ends (World.semantics (posix rules)) p
        (Fallible.attempt Failure.ofIoError c) w r w' ↔
        r = .error (.ofIoError (err e)) ∧ w' = w := fun _ _ => Fallible.ends_attempt_of hexec
    exact (Fallible.ends_bind_of_error hcall).trans and_comm
  | ok f =>
    have hcall : ∀ r w', Fallible.Ends (World.semantics (posix rules)) p
        (Fallible.attempt Failure.ofIoError c) w r w' ↔
        r = .ok (metadataOf f) ∧ w' = w := fun _ _ => Fallible.ends_attempt_of hexec
    rw [Fallible.ends_bind_of_ok hcall, Fallible.ends_ofOption, metadataToGrpc_metadataOf,
      and_comm, eq_comm (a := w), eq_comm (b := r)]
    exact Iff.rfl

/-- **What `get_attr_from_path` answers.** -/
theorem ends_getAttrFromPath {path : Path} {r : Except Failure Attr} :
    Fallible.Ends (World.semantics (posix rules)) p (Server.getAttrFromPath path) w r w' ↔
      w' = w ∧ r = ((w.os.tree.reach rules path).map fun x => attrOf x.2).mapError
        fun e => .ofIoError (ioError [path] e) := by
  have hexec : ∀ o : Chance, (World.semantics (posix rules)).exec p o (.metadata path) w =
      some ((((w.os.tree.reach rules path).map Prod.snd).map metadataOf).mapError (ioError [path]),
        w) := by
    intro o
    show some ((((w.os.tree.reach rules path).map fun r => metadataOf r.2).mapError _), w) = _
    cases w.os.tree.reach rules path <;> rfl
  refine (ends_attrOf hexec).trans ?_
  cases w.os.tree.reach rules path <;> rfl

/-- What is answered about an open file. -/
theorem ends_fileAttr {fd : Fd} {r : Except Failure Attr} :
    Fallible.Ends (World.semantics (posix rules)) p
        (Fallible.attempt .ofIoError (.fileMetadata fd) >>= fun m =>
          Fallible.ofOption .panic (metadataToGrpc m)) w r w' ↔
      w' = w ∧ r = ((w.os.file fd).map fun x => attrOf x.2.2).mapError
        fun e => .ofIoError ⟨some e⟩ := by
  have hexec : ∀ o : Chance, (World.semantics (posix rules)).exec p o (.fileMetadata fd) w =
      some ((((w.os.file fd).map fun x => x.2.2).map metadataOf).mapError fun e => ⟨some e⟩,
        w) := by
    intro o
    show some ((((w.os.file fd).map fun r => metadataOf r.2.2).mapError _), w) = _
    cases w.os.file fd <;> rfl
  refine (ends_attrOf hexec).trans ?_
  cases w.os.file fd <;> rfl

end

/-! ## Small trees

A few files in one directory, for the runs of examples. -/

/-- Rules that forbid nothing, with the times that ext4 stores. -/
def lenientRules (user : UInt32) : Rules where
  user
  cwd := rootIno
  search := fun _ => true
  denies := fun _ _ => none
  initial := fun _ mode => ⟨mode, user, user⟩
  chowned := id
  earliest := -2147483648
  latest := 15032385535

/-- A file as it is when nothing special is said of it. -/
def plainInode (content : Content) : Inode where
  content
  rights := ⟨0o644, 0, 0⟩
  stat := ⟨0, 0, ⟨0, 0⟩, ⟨0, 0⟩, ⟨0, 0⟩⟩
  nlink := 1
  rdev := 0
  blksize := 4096

/-- The tree whose root directory holds these files. -/
def flatTree (files : List (Name × Content)) (nodup : (files.map Prod.fst).Nodup) : FileTree where
  node i := match i with
    | 0 => some (plainInode (.directory
        { parent := 0
          entries := files.zipIdx.map fun f => (f.1.1, f.2 + 1)
          nodup := by
            have hfst : (files.zipIdx.map fun f => (f.1.1, f.2 + 1)).map Prod.fst =
                files.map Prod.fst := List.ext_getElem (by simp) (by simp)
            rw [hfst]
            exact nodup }))
    | i + 1 => (files[i]?).map fun f => plainInode f.2
  next := files.length + 1
  fresh i hi := by
    match i, hi with
    | i + 1, hi => simp [Nat.le_of_succ_le_succ hi]

/-- A system with these files, none of them open. -/
def idlePosix (files : List (Name × Content)) (nodup : (files.map Prod.fst).Nodup) : Posix :=
  ⟨flatTree files nodup, fun _ => none, 0⟩

theorem fileName_f : FileName [102] := by decide

/-- A system with one file, `f`, in its root directory. -/
def oneFile : Posix := idlePosix [(⟨[102], fileName_f⟩, .regular)] (by decide)

end Distfs
end DistributedPrograms
