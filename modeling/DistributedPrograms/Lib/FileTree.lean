import Mathlib.Logic.Function.Basic
import DistributedPrograms.Lib.PathWalk

/-!
# File trees

The files of a POSIX system, and the calls that read and change their names and attributes.  A call
either fails and changes nothing, or succeeds; which of the two is a function of the tree, of the
call and of the `Rules`, under which the system lets its user search directories and make changes.

A `FileTree` gives the file of each inode, if there is one; that there is none from the next free
number on is a field.  A `Directory` is a list of entries with different names, and that they are
different is a field as well, so that looking a name up has one answer.  An `Inode` has its
`Rights`, its `Stat` with the size and the times, and its `Content`: a directory, a link with its
target, a regular file, or something special.  What is in a regular file is left out.

The calls are written as the manual pages describe them: `mkdir`, `symlink`, `unlink`, `rmdir`,
`rename`, `openFile`, `chown`, `chgrp`, `chmod` and `utimens`.  What the pages leave to the system
is in the `Rules`: who may search a directory, with which error an operation on given files is
refused (for want of a right, on a read-only file system, over a quota), what rights a new file
gets, what is left of a mode when the owner changes, and which times the file system can store.
`utimensat` refuses no time, but brings it into the range that can be stored (`Rules.stored`).

Time comes in from outside: the time of a call is an argument of the calls that record it.  Whether
a call succeeds depends on no time in the tree: `view` is what it depends on.  Only the access times
that are set are kept.  A system also moves them by itself, when a file is read, a directory listed,
or a link read or followed: a statement about what files keep is about `Inode.lasting`.

The lemmas are of four kinds:

* **What a call finds.** A call that succeeded had a directory, a name and a file (`dir_of_look`,
  `entry_eq_ok`, `reach_eq_ok`, `change_eq_ok`).
* **What lasts.** `Grows t t'` says that `t'` has all names of `t` and lets through whoever `t` lets
  through.  Making a file or changing attributes makes a tree grow, and a name that is taken stays
  so (`taken_mono`).
* **New files.** A file that has been made is where its path leads (`reach_mkdir`, `look_symlink`,
  `taken_of_openFile`).
* **Refusals.** `OpenRefusal` and `RenameRefusal` list the reasons for which a call is refused, and
  `openFile_refused_iff` and `rename_refused_iff` say that there are no others.
-/

set_option autoImplicit false

namespace DistributedPrograms
namespace UnixPath

open Errno

/-! ## Files

What a file is: its content, its rights, and what is recorded about it. -/

/-- A moment, counted from 1970. -/
structure Time where
  seconds : Int64
  nanos : UInt32
  deriving DecidableEq, Repr

/-- A moment that a clock can show.  Times that are set may be any, but those that a system records
by itself are not before 1970. -/
abbrev Clock := { now : Time // 0 ≤ now.seconds }

/-- What decides who may do what with a file.  Only the twelve lower bits of `perm` count. -/
structure Rights where
  perm : UInt32
  uid : UInt32
  gid : UInt32
  deriving DecidableEq, Repr

structure Directory where
  parent : Ino
  entries : List (Name × Ino)
  nodup : (entries.map Prod.fst).Nodup

inductive Special where
  | fifo
  | charDevice
  | blockDevice
  | socket
  deriving DecidableEq, Repr

inductive Content where
  | regular
  | directory (d : Directory)
  | symlink (target : Path)
  | special (kind : Special)

/-- What writing to a file changes as well.  Sizes and blocks are recorded only, as no contents are
kept here. -/
structure Stat where
  size : UInt64
  blocks : UInt64
  atime : Time
  mtime : Time
  ctime : Time
  deriving DecidableEq, Repr

structure Inode where
  content : Content
  rights : Rights
  stat : Stat
  nlink : UInt64
  rdev : UInt64
  blksize : UInt64

/-- The type bits of a mode. -/
def Content.typeBits : Content → UInt32
  | .regular => 0o100000
  | .directory _ => 0o040000
  | .symlink _ => 0o120000
  | .special .fifo => 0o010000
  | .special .charDevice => 0o020000
  | .special .blockDevice => 0o060000
  | .special .socket => 0o140000

/-- The links to the parent of a file, beside its name. -/
def Content.links : Content → UInt64
  | .directory _ => 1
  | _ => 0

def Inode.mode (f : Inode) : UInt32 := f.content.typeBits ||| f.rights.perm &&& 0o7777

def Inode.isDir (f : Inode) : Bool :=
  match f.content with
  | .directory _ => true
  | _ => false

/-- A file but for its access time, which the system may move whenever the file is looked at, or a
link followed. -/
def Inode.lasting (f : Inode) : Inode := { f with stat := { f.stat with atime := ⟨0, 0⟩ } }

def Inode.IsLink (f : Inode) : Prop := ∃ target, f.content = .symlink target

structure FileTree where
  node : Ino → Option Inode
  /-- the number of the next new file -/
  next : Ino
  fresh : ∀ i, next ≤ i → node i = none

/-! ## Directories

Names with the numbers of their files, none of them twice. -/

namespace Directory

def find (d : Directory) (n : Name) : Option Ino := d.entries.lookup n

def empty (parent : Ino) : Directory := ⟨parent, [], List.nodup_nil⟩

/-- `d` with a new entry, where the name is free. -/
def insert (d : Directory) (n : Name) (i : Ino) : Directory :=
  if h : n ∈ d.entries.map Prod.fst then d
  else
    { parent := d.parent
      entries := d.entries ++ [(n, i)]
      nodup := by
        rw [List.map_append, List.nodup_append]
        refine ⟨d.nodup, by simp, ?_⟩
        rintro a ha b hb rfl
        obtain rfl : a = n := by simpa using hb
        exact h ha }

def erase (d : Directory) (n : Name) : Directory where
  parent := d.parent
  entries := d.entries.filter fun e => e.1 ≠ n
  nodup := d.nodup.sublist (List.filter_sublist.map _)

end Directory

def Content.mapDirectory (f : Directory → Directory) : Content → Content
  | .directory d => .directory (f d)
  | c => c

/-- A directory without names. -/
def Inode.isEmpty (f : Inode) : Bool :=
  match f.content with
  | .directory d => d.entries.isEmpty
  | _ => true

/-- A changed directory: its entries, the links to it from below, its times. -/
def Inode.changed (now : Time) (links : UInt64) (f : Directory → Directory) (inode : Inode) : Inode :=
  { inode with
    content := inode.content.mapDirectory f
    stat := { inode.stat with mtime := now, ctime := now }
    nlink := inode.nlink + links }

/-! ## Who may do what

The rules of the system.  Beyond what POSIX says of searching and of the kinds of files, they may
refuse anything. -/

/-- What is asked of the system. -/
inductive Operation where
  | open (read write : Bool)
  | create (mode : UInt32)
  | mkdir (mode : UInt32)
  | symlink
  | unlink
  | rmdir
  | rename
  | chown (uid : UInt32)
  | chgrp (gid : UInt32)
  | chmod (mode : UInt32)
  | utimes
  | truncate
  deriving DecidableEq, Repr

/-- What a system decides by itself, for one user.  Everything that POSIX leaves to the system, or
to rights that are not kept here, is a rule. -/
structure Rules where
  user : UInt32
  /-- the working directory -/
  cwd : Ino
  /-- the names of a directory with these rights may be looked up -/
  search : Rights → Bool
  /-- the error with which an operation on these files is refused -/
  denies : Operation → List (Ino × Rights) → Option Int32
  /-- the rights of what is made in a directory with these rights -/
  initial : Rights → UInt32 → Rights
  /-- what is left of the mode bits when the owner or the group changes -/
  chowned : UInt32 → UInt32
  /-- the first and the last second that the file system can store -/
  earliest : Int64
  latest : Int64

/-- The file system can store a time with these seconds. -/
def Rules.Stores (rules : Rules) (seconds : Int64) : Prop :=
  rules.earliest ≤ seconds ∧ seconds ≤ rules.latest

instance (rules : Rules) (seconds : Int64) : Decidable (rules.Stores seconds) := by
  unfold Rules.Stores; infer_instance

/-- What is stored of a time that is set: `utimensat` refuses none, but brings it into range and
reports success. -/
def Rules.stored (rules : Rules) (time : Time) : Time :=
  if time.seconds < rules.earliest then ⟨rules.earliest, 0⟩
  else if rules.latest < time.seconds then ⟨rules.latest, 0⟩
  else time

theorem Rules.stored_seconds_iff {rules : Rules} {time : Time} :
    (rules.stored time).seconds = time.seconds ↔ rules.Stores time.seconds := by
  rw [stored, Stores]
  split_ifs with hbefore hafter
  · exact iff_of_false (Int64.ne_of_lt hbefore).symm fun h => Int64.not_lt.2 h.1 hbefore
  · exact iff_of_false (Int64.ne_of_lt hafter) fun h => Int64.not_lt.2 h.2 hafter
  · exact iff_of_true rfl ⟨Int64.not_lt.1 hbefore, Int64.not_lt.1 hafter⟩

/-- A reason to refuse a call. -/
def refuseIf (c : Bool) (e : Int32) : Except Int32 Unit := if c then .error e else .ok ()

/-- A path that a call does not look at but keeps. -/
def takePath (p : Path) : Except Int32 Unit :=
  match pathError p with
  | some e => .error e
  | none => .ok ()

/-! ## Looking

From a path to a file, with links followed or not. -/

namespace FileTree

def passage (search : Rights → Bool) (f : Inode) : Passage :=
  match f.content with
  | .directory d => .dir d.parent d.find (search f.rights)
  | .symlink target => .link target
  | _ => .other

def look (search : Rights → Bool) (t : FileTree) : Look := fun i => (t.node i).map (passage search)

def lead (rules : Rules) (t : FileTree) (p : Path) : Walked :=
  UnixPath.lead (t.look rules.search) rules.cwd p

def slot (rules : Rules) (t : FileTree) (p : Path) : Except Int32 (Ino × Name × Bool) :=
  UnixPath.slot (t.look rules.search) rules.cwd p

def find (t : FileTree) (i : Ino) (n : Name) : Option Ino :=
  match t.node i with
  | some { content := .directory d, .. } => d.find n
  | _ => none

/-- The file that a path leads to, links followed.  A path whose last name is missing leads to
none. -/
def reach (rules : Rules) (t : FileTree) (p : Path) : Except Int32 (Ino × Inode) :=
  match t.lead rules p with
  | .found i => match t.node i with
    | some f => .ok (i, f)
    | none => .error ENOENT
  | .missing _ _ => .error ENOENT
  | .failed e => .error e

/-- Nothing of the system's own forbids the operation.  The rules are asked with the rights of the
files that it is about. -/
def allowed (rules : Rules) (t : FileTree) (op : Operation) (files : List Ino) :
    Except Int32 Unit :=
  match rules.denies op (files.filterMap fun i => (t.node i).map fun f => (i, f.rights)) with
  | some e => .error e
  | none => .ok ()

/-! ## Changing

The changes that the operations below are made of. -/

def modify (t : FileTree) (i : Ino) (f : Inode → Inode) : FileTree where
  node := Function.update t.node i ((t.node i).map f)
  next := t.next
  fresh := by
    intro j hj
    by_cases hji : j = i
    · rw [hji, Function.update_self, t.fresh i (hji ▸ hj)]
      rfl
    · rw [Function.update_of_ne hji, t.fresh j hj]

def add (t : FileTree) (f : Inode) : FileTree where
  node := Function.update t.node t.next (some f)
  next := t.next + 1
  fresh := by
    intro j hj
    rw [Function.update_of_ne (Nat.ne_of_gt hj), t.fresh j (Nat.le_of_succ_le hj)]

def enter (t : FileTree) (now : Time) (i : Ino) (n : Name) (j : Ino) (links : UInt64) : FileTree :=
  t.modify i (Inode.changed now links fun d => d.insert n j)

def leave (t : FileTree) (now : Time) (i : Ino) (n : Name) (links : UInt64) : FileTree :=
  t.modify i (Inode.changed now links fun d => d.erase n)

/-- One name less for a file. -/
def unname (t : FileTree) (now : Time) (i : Ino) : FileTree :=
  t.modify i fun f => { f with nlink := f.nlink - 1, stat := { f.stat with ctime := now } }

/-- What a new file is like. -/
def newInode (rules : Rules) (now : Time) (parent : Rights) (content : Content) (mode : UInt32) :
    Inode where
  content
  rights := rules.initial parent mode
  stat :=
    { size := match content with
        | .symlink target => UInt64.ofNat target.length
        | _ => 0
      blocks := 0
      atime := now
      mtime := now
      ctime := now }
  nlink := match content with
    | .directory _ => 2
    | _ => 1
  rdev := 0
  blksize := 4096

/-- A new file under a free name.  Whether the name is free is looked at first, and then the rules
are asked. -/
def make (rules : Rules) (now : Time) (t : FileTree) (op : Operation) (content : Content)
    (mode : UInt32) (i : Ino) (n : Name) : Except Int32 FileTree :=
  match t.node i, t.find i n with
  | _, some _ => .error EEXIST
  | none, none => .error ENOENT
  | some parent, none => do
    t.allowed rules op [i]
    let new := newInode rules now parent.rights content mode
    return (t.add new).enter now i n t.next content.links

def mkdir (rules : Rules) (now : Time) (t : FileTree) (p : Path) (mode : UInt32) :
    Except Int32 FileTree := do
  let (i, n, _) ← t.slot rules p
  t.make rules now (.mkdir mode) (.directory (.empty i)) mode i n

def symlink (rules : Rules) (now : Time) (t : FileTree) (source p : Path) :
    Except Int32 FileTree := do
  let (i, n, slash) ← t.slot rules p
  takePath source
  refuseIf slash ENOENT
  t.make rules now .symlink (.symlink source) 0o777 i n

/-- The file `n` in `i`. -/
def entry (t : FileTree) (i : Ino) (n : Name) : Except Int32 (Ino × Inode) :=
  match t.find i n with
  | none => .error ENOENT
  | some j => match t.node j with
    | none => .error ENOENT
    | some f => .ok (j, f)

def unlink (rules : Rules) (now : Time) (t : FileTree) (p : Path) : Except Int32 FileTree := do
  let (i, n, slash) ← t.slot rules p
  let (j, f) ← t.entry i n
  refuseIf f.isDir EISDIR
  refuseIf slash ENOTDIR
  t.allowed rules .unlink [i, j]
  return (t.leave now i n 0).unname now j

def rmdir (rules : Rules) (now : Time) (t : FileTree) (p : Path) : Except Int32 FileTree := do
  let (i, n, _) ← t.slot rules p
  let (j, f) ← t.entry i n
  refuseIf (!f.isDir) ENOTDIR
  refuseIf (!f.isEmpty) ENOTEMPTY
  t.allowed rules .rmdir [i, j]
  return (t.leave now i n (-1)).unname now j

/-- `i` is `j` or lies below it; the search upwards takes at most `k` steps. -/
def isBelow (t : FileTree) (j : Ino) : Nat → Ino → Bool
  | 0, _ => false
  | k + 1, i => i == j || match t.node i with
    | some { content := .directory d, .. } => t.isBelow j k d.parent
    | _ => false

/-- The new parent of a directory that has moved. -/
def reparent (t : FileTree) (now : Time) (i j : Ino) : FileTree :=
  t.modify j fun f =>
    { f with
      content := f.content.mapDirectory fun d => { d with parent := i }
      stat := { f.stat with ctime := now } }

/-- The file under the new name makes room for the one that is renamed. -/
def makesRoom (f f' : Inode) : Except Int32 Unit :=
  if f.isDir then
    if !f'.isDir then .error ENOTDIR else if !f'.isEmpty then .error ENOTEMPTY else .ok ()
  else if f'.isDir then .error EISDIR else .ok ()

def rename (rules : Rules) (now : Time) (t : FileTree) (origin p : Path) :
    Except Int32 FileTree := do
  let (i, n, slash) ← t.slot rules origin
  let (i', n', slash') ← t.slot rules p
  let (j, f) ← t.entry i n
  refuseIf ((slash || slash') && !f.isDir) ENOTDIR
  refuseIf (f.isDir && t.isBelow j (t.next + 1) i') EINVAL
  let links : UInt64 := if f.isDir then 1 else 0
  match t.find i' n' with
  | none =>
    t.allowed rules .rename [i, j, i']
    return (((t.leave now i n (-links)).enter now i' n' j links).reparent now i' j)
  | some j' =>
    if j' = j then return t
    else
      let (_, f') ← t.entry i' n'
      makesRoom f f'
      t.allowed rules .rename [i, j, i', j']
      return ((((t.leave now i n (-links)).leave now i' n' (-links)).unname now j').enter now i' n' j
        links).reparent now i' j

/-- The file that is opened; under a free name it is made, if that is asked for. -/
def openFile (rules : Rules) (now : Time) (t : FileTree) (create read write : Bool) (mode : UInt32)
    (p : Path) : Except Int32 (Ino × FileTree) :=
  match t.lead rules p with
  | .found i => match t.node i with
    | none => .error ENOENT
    | some f => do
      refuseIf (f.isDir && (create || write)) EISDIR
      t.allowed rules (.open read write) [i]
      return (i, t)
  | .missing i n =>
    if create then do
      let t' ← t.make rules now (.create mode) .regular mode i n
      return (t.next, t')
    else .error ENOENT
  | .failed e => .error e

/-! ## Changing attributes

One operation for each attribute; all of them find the file, ask the rules, and change it. -/

/-- A change of the attributes of the file that a path leads to. -/
def change (rules : Rules) (t : FileTree) (op : Operation) (p : Path) (f : Inode → Inode) :
    Except Int32 FileTree := do
  let (i, _) ← t.reach rules p
  t.allowed rules op [i]
  return t.modify i f

def chown (rules : Rules) (now : Time) (t : FileTree) (p : Path) (uid : UInt32) :
    Except Int32 FileTree :=
  t.change rules (.chown uid) p fun f =>
    { f with
      rights := { f.rights with uid, perm := rules.chowned f.rights.perm }
      stat := { f.stat with ctime := now } }

def chgrp (rules : Rules) (now : Time) (t : FileTree) (p : Path) (gid : UInt32) :
    Except Int32 FileTree :=
  t.change rules (.chgrp gid) p fun f =>
    { f with
      rights := { f.rights with gid, perm := rules.chowned f.rights.perm }
      stat := { f.stat with ctime := now } }

def chmod (rules : Rules) (now : Time) (t : FileTree) (p : Path) (mode : UInt32) :
    Except Int32 FileTree :=
  t.change rules (.chmod mode) p fun f =>
    { f with
      rights := { f.rights with perm := mode &&& 0o7777 }
      stat := { f.stat with ctime := now } }

/-- What a time of a file is to become. -/
inductive TimeArg where
  | omitted
  | now
  | value (time : Time)
  | invalid
  deriving DecidableEq, Repr

/-- `UTIME_NOW` and `UTIME_OMIT` are nanoseconds out of range. -/
def timeArg (seconds : Int64) (nanos : UInt32) : TimeArg :=
  if nanos = 0x3FFFFFFF then .now
  else if nanos = 0x3FFFFFFE then .omitted
  else if nanos < 1000000000 then .value ⟨seconds, nanos⟩
  else .invalid

def TimeArg.apply (rules : Rules) (now old : Time) : TimeArg → Time
  | .now => now
  | .value time => rules.stored time
  | .omitted | .invalid => old

/-- `utimensat`.  Where both times are omitted, not even the path is looked at. -/
def utimens (rules : Rules) (now : Time) (t : FileTree) (p : Path) (atime mtime : TimeArg) :
    Except Int32 FileTree :=
  if 0 ∈ p then .error EINVAL
  else if atime = .omitted ∧ mtime = .omitted then .ok t
  else if atime = .invalid ∨ mtime = .invalid then .error EINVAL
  else t.change rules .utimes p fun f =>
    { f with
      stat :=
        { f.stat with
          atime := atime.apply rules now f.stat.atime
          mtime := mtime.apply rules now f.stat.mtime
          ctime := now } }

/-! ## What a call finds

The inversion lemmas of the calls: each says what a call that succeeded has found, so that no proof
about a call has to unfold it. -/

section

variable {t t' : FileTree} {rules : Rules} {search : Rights → Bool} {now : Time} {p : Path}
  {i j : Ino} {n : Name} {inode new : Inode} {f : Inode → Inode} {op : Operation}

theorem bind_eq_ok {ε α β : Type} {x : Except ε α} {g : α → Except ε β} {b : β} :
    x >>= g = .ok b ↔ ∃ a, x = .ok a ∧ g a = .ok b := by
  cases x with
  | error e => simp [bind, Except.bind]
  | ok a => simp [bind, Except.bind]

theorem refuseIf_eq_ok {c : Bool} {e : Int32} : refuseIf c e = .ok () ↔ c = false := by
  cases c <;> simp [refuseIf]

theorem takePath_eq_ok : takePath p = .ok () ↔ pathError p = none := by
  rw [takePath]
  split <;> simp [*]

theorem node_modify_self : (t.modify i f).node i = (t.node i).map f := Function.update_self ..

theorem node_modify_of_ne (h : j ≠ i) : (t.modify i f).node j = t.node j :=
  Function.update_of_ne h ..

theorem node_add_self : (t.add new).node t.next = some new := Function.update_self ..

theorem node_add_of_ne (h : j ≠ t.next) : (t.add new).node j = t.node j :=
  Function.update_of_ne h ..

theorem ne_next_of_node (h : t.node i = some inode) : i ≠ t.next := by
  rintro rfl
  rw [t.fresh _ le_rfl] at h
  cases h

/-- A directory that a walk meets. -/
theorem dir_of_look {parent : Ino} {find : Name → Option Ino} {searchable : Bool}
    (h : t.look search i = some (.dir parent find searchable)) :
    ∃ inode d, t.node i = some inode ∧ inode.content = .directory d ∧ parent = d.parent ∧
      find = d.find ∧ searchable = search inode.rights := by
  obtain ⟨inode, hnode, hpass⟩ := Option.map_eq_some_iff.1 h
  obtain ⟨content, rights, stat, nlink, rdev, blksize⟩ := inode
  cases content with
  | directory d =>
    cases hpass
    exact ⟨_, d, hnode, rfl, rfl, rfl, rfl⟩
  | _ => cases hpass

theorem look_of_dir {d : Directory} (hnode : t.node i = some inode)
    (hd : inode.content = .directory d) :
    t.look search i = some (.dir d.parent d.find (search inode.rights)) := by
  simp [look, passage, hnode, hd]

/-- A link that a walk meets. -/
theorem look_eq_link {target : Path} : t.look search i = some (.link target) ↔
    ∃ inode, t.node i = some inode ∧ inode.content = .symlink target := by
  constructor
  · intro h
    obtain ⟨inode, hnode, hpass⟩ := Option.map_eq_some_iff.1 h
    obtain ⟨content, rights, stat, nlink, rdev, blksize⟩ := inode
    cases content with
    | symlink target' =>
      cases hpass
      exact ⟨_, hnode, rfl⟩
    | _ => cases hpass
  · rintro ⟨inode, hnode, hlink⟩
    simp [look, passage, hnode, hlink]

theorem find_of_dir {d : Directory} (hnode : t.node i = some inode)
    (hd : inode.content = .directory d) : t.find i n = d.find n := by
  obtain ⟨content, rights, stat, nlink, rdev, blksize⟩ := inode
  obtain rfl : content = .directory d := hd
  simp only [find, hnode]

/-- Where the last name of a path is missing, there is a directory to make it in. -/
theorem dir_of_lead_missing (h : t.lead rules p = .missing i n) :
    ∃ inode d, t.node i = some inode ∧ inode.content = .directory d ∧ t.find i n = none := by
  rw [lead, UnixPath.lead] at h
  split at h
  · contradiction
  · obtain ⟨parent, find, hlook, hfind⟩ := dir_of_walk_missing h
    obtain ⟨inode, d, hnode, hd, -, rfl, -⟩ := dir_of_look hlook
    exact ⟨inode, d, hnode, hd, (find_of_dir hnode hd).trans hfind⟩

/-- The directory that a slot is in. -/
theorem slot_dir {slash : Bool} (h : t.slot rules p = .ok (i, n, slash)) :
    ∃ inode d, t.node i = some inode ∧ inode.content = .directory d ∧
      t.look rules.search i = some (.dir d.parent d.find true) := by
  obtain ⟨-, front, parent, find, -, -, hlook⟩ := slot_eq_ok.1 h
  obtain ⟨inode, d, hnode, hd, rfl, rfl, -⟩ := dir_of_look hlook
  exact ⟨inode, d, hnode, hd, hlook⟩

theorem entry_eq_ok :
    t.entry i n = .ok (j, inode) ↔ t.find i n = some j ∧ t.node j = some inode := by
  rw [entry]
  constructor
  · intro h
    split at h
    · contradiction
    · next k hfind =>
      split at h
      · contradiction
      · next f hnode =>
        cases h
        exact ⟨hfind, hnode⟩
  · rintro ⟨hfind, hnode⟩
    simp only [hfind, hnode]

theorem reach_eq_ok :
    t.reach rules p = .ok (i, inode) ↔ t.lead rules p = .found i ∧ t.node i = some inode := by
  rw [reach]
  constructor
  · intro h
    split at h
    · next i' hlead =>
      split at h
      · next inode' hnode =>
        cases h
        exact ⟨hlead, hnode⟩
      · contradiction
    · contradiction
    · contradiction
  · rintro ⟨hlead, hnode⟩
    simp only [hlead, hnode]

theorem allowed_eq_ok {files : List Ino} : t.allowed rules op files = .ok () ↔
    rules.denies op (files.filterMap fun i => (t.node i).map fun f => (i, f.rights)) = none := by
  rw [allowed]
  split <;> simp [*]

/-- **A change of attributes succeeds where its path leads to a file and nothing forbids it.** -/
theorem change_eq_ok :
    t.change rules op p f = .ok t' ↔ ∃ i inode, t.reach rules p = .ok (i, inode) ∧
      t.allowed rules op [i] = .ok () ∧ t' = t.modify i f := by
  constructor
  · intro h
    obtain ⟨⟨i, inode⟩, hreach, h⟩ := bind_eq_ok.1 h
    obtain ⟨⟨⟩, hallowed, h⟩ := bind_eq_ok.1 h
    cases h
    exact ⟨i, inode, hreach, hallowed, rfl⟩
  · rintro ⟨i, inode, hreach, hallowed, rfl⟩
    exact bind_eq_ok.2 ⟨_, hreach, bind_eq_ok.2 ⟨_, hallowed, rfl⟩⟩

/-- A walk does not see what it does not look at. -/
theorem look_modify
    (h : ∀ inode, t.node i = some inode → passage search (f inode) = passage search inode) :
    (t.modify i f).look search = t.look search := by
  funext k
  by_cases hki : k = i
  · subst hki
    rw [look, look, node_modify_self, Option.map_map]
    cases hnode : t.node k with
    | none => rfl
    | some inode => exact congrArg some (h inode hnode)
  · rw [look, look, node_modify_of_ne hki]

theorem reach_modify (hreach : t.reach rules p = .ok (i, inode))
    (h : passage rules.search (f inode) = passage rules.search inode) :
    (t.modify i f).reach rules p = .ok (i, f inode) := by
  obtain ⟨hlead, hnode⟩ := reach_eq_ok.1 hreach
  refine reach_eq_ok.2 ⟨?_, by rw [node_modify_self, hnode, Option.map_some]⟩
  rw [lead, look_modify, ← lead, hlead]
  intro inode' hnode'
  obtain rfl : inode = inode' := Option.some.inj (hnode.symm.trans hnode')
  exact h

/-! ## Names in a directory

Making and removing names. -/

theorem find_eq_some {d : Directory} : d.find n = some j ↔ (n, j) ∈ d.entries := by
  obtain ⟨parent, entries, nodup⟩ := d
  rw [Directory.find]
  constructor
  · intro h
    obtain ⟨l₁, l₂, rfl, -⟩ := List.lookup_eq_some_iff.1 h
    exact List.mem_append_right _ List.mem_cons_self
  · intro h
    obtain ⟨l₁, l₂, rfl⟩ := List.append_of_mem h
    refine List.lookup_eq_some_iff.2 ⟨l₁, l₂, rfl, fun e he => ?_⟩
    rw [List.map_append, List.nodup_append] at nodup
    have hne := nodup.2.2 e.1 (List.mem_map_of_mem he) n (by simp)
    simpa using hne.symm

theorem noLink_iff (hnode : t.node i = some inode) :
    (t.look search).NoLink i ↔ ¬inode.IsLink := by
  have hlook : t.look search i = some (passage search inode) := by
    rw [look, hnode, Option.map_some]
  rw [Look.NoLink, hlook, Inode.IsLink, not_exists]
  refine forall_congr' fun target => not_congr ?_
  obtain ⟨content, rights, stat, nlink, rdev, blksize⟩ := inode
  cases content <;> simp [passage]

section

variable {ns : List Path} {f' : Inode} {d : Directory} (hns : ∀ n ∈ ns, ValidName n)
  (hreach : t.reach rules (renderAbs ns) = .ok (i, inode)) (hd : inode.content = .directory d)

include hns hreach hd

/-- **A file that is no link is reached behind its directory**, by its name, if the path is not too
long by then. -/
theorem reach_join (hsearch : rules.search inode.rights = true) (hmem : (n, j) ∈ d.entries)
    (hnode : t.node j = some f') (hlink : ¬f'.IsLink)
    (hshort : (join (renderAbs ns) n.1).length < maxPath) :
    t.reach rules (join (renderAbs ns) n.1) = .ok (j, f') := by
  obtain ⟨hlead, hdir⟩ := reach_eq_ok.1 hreach
  obtain ⟨k, hjoin⟩ := lead_join hns hlead n
  have hlook : t.look rules.search i =
      some (.dir d.parent d.find (rules.search inode.rights)) := look_of_dir hdir hd
  rw [hsearch] at hlook
  have hpass : t.look rules.search j = some (passage rules.search f') := by
    rw [look, hnode, Option.map_some]
  refine reach_eq_ok.2 ⟨?_, hnode⟩
  rw [lead, hjoin, if_neg (Nat.not_le.2 hshort)]
  refine walk_name hlook (find_eq_some.2 hmem) hpass fun target htarget => ?_
  exact (noLink_iff hnode).2 hlink target (htarget ▸ hpass)

/-- What is reached behind a directory has a name there, and is no link. -/
theorem reach_join_cases (h : t.reach rules (join (renderAbs ns) n.1) = .ok (j, f')) :
    (join (renderAbs ns) n.1).length < maxPath ∧ ¬f'.IsLink ∧
      ∃ j' g, (n, j') ∈ d.entries ∧ t.node j' = some g := by
  obtain ⟨hlead, hdir⟩ := reach_eq_ok.1 hreach
  obtain ⟨hlead', hnode⟩ := reach_eq_ok.1 h
  obtain ⟨k, hjoin⟩ := lead_join hns hlead n
  have hlook : t.look rules.search i =
      some (.dir d.parent d.find (rules.search inode.rights)) := look_of_dir hdir hd
  have hi : (t.look rules.search).NoLink i := Look.noLink_of_dir hlook
  rw [lead, hjoin] at hlead'
  split at hlead'
  · contradiction
  · next hshort =>
    have hroot := noLink_root hlead isAbsolute_renderAbs hi
    refine ⟨Nat.not_le.1 hshort, (noLink_iff hnode).1 (walk_noLink hroot hi hlead'), ?_⟩
    obtain ⟨j', hfind, pass, hpass⟩ := find_of_walk hlook hlead'
    obtain ⟨g, hg, -⟩ := Option.map_eq_some_iff.1 hpass
    exact ⟨j', g, find_eq_some.1 hfind, hg⟩

end

/-! ## Times do not matter

Two trees with the same `view` take the same calls with the same results, up to times and sizes.  So
a time that a call records has no influence on later ones. -/

/-- The tree without the times and sizes of its files.  Two runs with different clocks are compared
by it. -/
def view (t : FileTree) : Ino → Option (Content × Rights) :=
  fun i => (t.node i).map fun f => (f.content, f.rights)

theorem look_eq (t : FileTree) (search : Rights → Bool) : t.look search = fun i =>
    (t.view i).map fun v => passage search ⟨v.1, v.2, ⟨0, 0, ⟨0, 0⟩, ⟨0, 0⟩, ⟨0, 0⟩⟩, 0, 0, 0⟩ := by
  funext i
  rw [look, view, Option.map_map]
  rfl

theorem lead_congr (h : t.view = t'.view) : t.lead rules p = t'.lead rules p := by
  rw [lead, lead, look_eq, look_eq, h]

theorem exists_node_congr (h : t.view = t'.view) (hnode : t.node i = some inode) :
    ∃ inode', t'.node i = some inode' := by
  have hview := congrFun h i
  simp only [view, hnode, Option.map_some] at hview
  obtain ⟨inode', hnode', -⟩ := Option.map_eq_some_iff.1 hview.symm
  exact ⟨inode', hnode'⟩

theorem allowed_congr {files : List Ino} (h : t.view = t'.view) :
    t.allowed rules op files = t'.allowed rules op files := by
  have hrights : ∀ t : FileTree, (fun i => (t.node i).map fun f => (i, f.rights)) =
      fun i => (t.view i).map fun v => (i, v.2) := by
    intro t
    funext i
    rw [view, Option.map_map]
    rfl
  rw [allowed, allowed, hrights, hrights, h]

theorem view_modify {g : Content × Rights → Content × Rights}
    (h : ∀ inode, ((f inode).content, (f inode).rights) = g (inode.content, inode.rights)) :
    (t.modify i f).view = Function.update t.view i ((t.view i).map g) := by
  funext j
  by_cases hji : j = i
  · subst hji
    rw [Function.update_self, view, view, node_modify_self, Option.map_map, Option.map_map]
    exact congrArg (fun k => Option.map k _) (funext h)
  · rw [Function.update_of_ne hji, view, view, node_modify_of_ne hji]

/-! ## More names

Renaming, and what can stand against it. -/

/-- `t'` has all names of `t`, and lets through whoever `t` lets through.  So every walk that has
arrived in `t` arrives in `t'`. -/
def Grows (search : Rights → Bool) (t t' : FileTree) : Prop :=
  (t.look search).Extends (t'.look search)

theorem Grows.refl : Grows search t t := fun _ a h => ⟨a, h, .refl a⟩

theorem Grows.trans {t'' : FileTree} (h : Grows search t t') (h' : Grows search t' t'') :
    Grows search t t'' := by
  intro k a ha
  obtain ⟨b, hb, hab⟩ := h k a ha
  obtain ⟨c, hc, hbc⟩ := h' k b hb
  exact ⟨c, hc, hab.trans hbc⟩

theorem grows_add : Grows search t (t.add new) := by
  intro k a ha
  obtain ⟨inode, hnode, rfl⟩ := Option.map_eq_some_iff.1 ha
  refine ⟨_, ?_, .refl _⟩
  rw [look, node_add_of_ne (ne_next_of_node hnode), hnode, Option.map_some]

theorem grows_modify
    (h : ∀ inode, t.node i = some inode → (passage search inode).Extends (passage search (f inode))) :
    Grows search t (t.modify i f) := by
  intro k a ha
  obtain ⟨inode, hnode, rfl⟩ := Option.map_eq_some_iff.1 ha
  by_cases hki : k = i
  · subst hki
    refine ⟨passage search (f inode), ?_, h inode hnode⟩
    rw [look, node_modify_self, hnode, Option.map_some, Option.map_some]
  · refine ⟨_, ?_, .refl _⟩
    rw [look, node_modify_of_ne hki, hnode, Option.map_some]

theorem find_insert {d : Directory} (h : d.find n = none) (m : Name) :
    (d.insert n j).find m = if m = n then some j else d.find m := by
  have hnot : n ∉ d.entries.map Prod.fst := by
    rw [List.mem_map]
    rintro ⟨e, he, rfl⟩
    exact absurd (List.lookup_eq_none_iff.1 h e he) (by simp)
  rw [Directory.insert, dif_neg hnot, Directory.find, List.lookup_append]
  by_cases hm : m = n
  · subst hm
    have hnone : d.entries.lookup m = none := h
    simp [hnone]
  · have hsingle : [(n, j)].lookup m = none :=
      List.lookup_eq_none_iff.2 (by simpa using hm)
    rw [if_neg hm, hsingle, Option.or_none]
    rfl

theorem grows_enter {links : UInt64} (hfree : t.find i n = none) :
    Grows search t (t.enter now i n j links) := by
  refine grows_modify fun inode hnode => ?_
  obtain ⟨content, rights, stat, nlink, rdev, blksize⟩ := inode
  cases content with
  | directory d =>
    refine ⟨?_, id, fun m k hm => ?_⟩
    · show d.parent = (d.insert n j).parent
      rw [Directory.insert]
      split <;> rfl
    · have hd : d.find n = none := (find_of_dir hnode rfl).symm.trans hfree
      have hne : m ≠ n := by
        rintro rfl
        rw [hd] at hm
        cases hm
      show (d.insert n j).find m = some k
      rw [find_insert hd, if_neg hne, hm]
  | _ => exact .refl _

/-! ## New files

What a new number is for, and that it has not been used. -/

theorem make_eq_ok {content : Content} {mode : UInt32} :
    t.make rules now op content mode i n = .ok t' ↔
      ∃ parent, t.node i = some parent ∧ t.find i n = none ∧ t.allowed rules op [i] = .ok () ∧
        t' = (t.add (newInode rules now parent.rights content mode)).enter now i n t.next
          content.links := by
  rw [make]
  constructor
  · intro h
    split at h
    · contradiction
    · contradiction
    · next parent hnode hfind =>
      obtain ⟨⟨⟩, hallowed, h⟩ := bind_eq_ok.1 h
      cases h
      exact ⟨parent, hnode, hfind, hallowed, rfl⟩
  · rintro ⟨parent, hnode, hfind, hallowed, rfl⟩
    simp only [hnode, hfind]
    exact bind_eq_ok.2 ⟨(), hallowed, rfl⟩

/-- **A new file takes no name away.** -/
theorem grows_make {content : Content} {mode : UInt32}
    (h : t.make rules now op content mode i n = .ok t') : Grows search t t' := by
  obtain ⟨parent, hnode, hfind, -, rfl⟩ := make_eq_ok.1 h
  refine grows_add.trans (grows_enter ?_)
  rw [find, node_add_of_ne (ne_next_of_node hnode)]
  exact hfind

theorem node_make {content : Content} {mode : UInt32}
    (h : t.make rules now op content mode i n = .ok t') :
    ∃ new, t'.node t.next = some new ∧ new.content = content := by
  obtain ⟨parent, hnode, hfind, -, rfl⟩ := make_eq_ok.1 h
  refine ⟨newInode rules now parent.rights content mode, ?_, rfl⟩
  rw [enter, node_modify_of_ne (ne_next_of_node hnode).symm, node_add_self]

theorem ne_of_make {content : Content} {mode : UInt32}
    (h : t.make rules now op content mode i n = .ok t') : t' ≠ t := by
  rintro rfl
  obtain ⟨new, hnew, -⟩ := node_make h
  exact ne_next_of_node hnew rfl

/-- The name that a new file got. -/
theorem find_make {content : Content} {mode : UInt32} {d : Directory} {parent : Inode}
    (hparent : t.node i = some parent) (hd : parent.content = .directory d)
    (h : t.make rules now op content mode i n = .ok t') : t'.find i n = some t.next := by
  obtain ⟨parent', hnode, hfind, -, rfl⟩ := make_eq_ok.1 h
  obtain rfl : parent = parent' := Option.some.inj (hparent.symm.trans hnode)
  obtain ⟨content, rights, stat, nlink, rdev, blksize⟩ := parent
  obtain rfl : content = .directory d := hd
  have hfree : d.find n = none := (find_of_dir hnode rfl).symm.trans hfind
  rw [find_of_dir (d := d.insert n t.next) (by
    rw [enter, node_modify_self, node_add_of_ne (ne_next_of_node hnode), hnode]
    rfl) rfl, find_insert hfree, if_pos rfl]

theorem openFile_cases {create read write : Bool} {mode : UInt32}
    (h : t.openFile rules now create read write mode p = .ok (i, t')) :
    (∃ f, t.reach rules p = .ok (i, f) ∧ t' = t ∧ (f.isDir = true → create = false) ∧
      t.allowed rules (.open read write) [i] = .ok ()) ∨
    (create = true ∧ i = t.next ∧ ∃ j n, t.lead rules p = .missing j n ∧
      t.make rules now (.create mode) .regular mode j n = .ok t') := by
  rw [openFile] at h
  split at h
  · next j hlead =>
    split at h
    · contradiction
    · next f hnode =>
      obtain ⟨⟨⟩, hdir, h⟩ := bind_eq_ok.1 h
      obtain ⟨⟨⟩, hallowed, h⟩ := bind_eq_ok.1 h
      cases h
      refine Or.inl ⟨f, reach_eq_ok.2 ⟨hlead, hnode⟩, rfl, fun hf => ?_, hallowed⟩
      rw [refuseIf_eq_ok, hf, Bool.true_and, Bool.or_eq_false_iff] at hdir
      exact hdir.1
  · next j n hlead =>
    split at h
    · next hcreate =>
      obtain ⟨t₁, hmake, h⟩ := bind_eq_ok.1 h
      cases h
      exact Or.inr ⟨hcreate, rfl, j, n, hlead, hmake⟩
    · contradiction
  · contradiction

/-- Where nothing may be made, opening a file changes nothing. -/
theorem tree_of_openFile {read write : Bool} {mode : UInt32}
    (h : t.openFile rules now false read write mode p = .ok (i, t')) : t' = t := by
  obtain ⟨f, -, ht, -⟩ | ⟨hcreate, -⟩ := openFile_cases h
  · exact ht
  · contradiction

/-- What a new link does to a walk. -/
theorem look_make_symlink {source : Path} {mode : UInt32}
    (h : t.make rules now op (.symlink source) mode i n = .ok t') :
    t'.look search = (t.look search).withLink i n t.next source := by
  obtain ⟨parent, hnode, hfind, -, rfl⟩ := make_eq_ok.1 h
  have hi : i ≠ t.next := ne_next_of_node hnode
  funext k
  rw [Look.withLink]
  by_cases hk : k = t.next
  · rw [if_pos hk, hk, look, enter, node_modify_of_ne hi.symm, node_add_self]
    rfl
  · rw [if_neg hk]
    by_cases hki : k = i
    · subst hki
      rw [if_pos rfl, look, look, enter, node_modify_self, node_add_of_ne hi, hnode]
      obtain ⟨content, rights, stat, nlink, rdev, blksize⟩ := parent
      cases content with
      | directory d =>
        have hd : d.find n = none := (find_of_dir hnode rfl).symm.trans hfind
        have hparent : (d.insert n t.next).parent = d.parent := by
          rw [Directory.insert]
          split <;> rfl
        simp only [Option.map_some, passage, Inode.changed, Content.mapDirectory, Passage.withName,
          hparent, Option.some.injEq, Passage.dir.injEq, true_and, and_true]
        exact funext fun m => find_insert hd m
      | _ => rfl
    · rw [if_neg hki, look, look, enter, node_modify_of_ne hki, node_add_of_ne hk]

/-- A link to `source` can be made at `p`, under the free name `n` in `i`.  The target is not looked
at, only whether a path of this kind is taken at all. -/
def Links (rules : Rules) (t : FileTree) (source p : Path) (i : Ino) (n : Name) : Prop :=
  t.slot rules p = .ok (i, n, false) ∧ takePath source = .ok () ∧ t.find i n = none ∧
    t.allowed rules .symlink [i] = .ok ()

/-- **A link is made where one can be made.** -/
theorem look_symlink {source : Path} (h : t.symlink rules now source p = .ok t') :
    ∃ i n, t.Links rules source p i n ∧
      ∀ search, t'.look search = (t.look search).withLink i n t.next source := by
  obtain ⟨⟨i, n, slash⟩, hslot, h⟩ := bind_eq_ok.1 h
  obtain ⟨⟨⟩, hsource, h⟩ := bind_eq_ok.1 h
  obtain ⟨⟨⟩, hslash, hmake⟩ := bind_eq_ok.1 h
  obtain ⟨parent, -, hfree, hallowed, -⟩ := make_eq_ok.1 hmake
  rw [refuseIf_eq_ok.1 hslash] at hslot
  exact ⟨i, n, ⟨hslot, hsource, hfree, hallowed⟩, fun _ => look_make_symlink hmake⟩

theorem Links.exists_symlink {source : Path} (h : t.Links rules source p i n) (now : Time) :
    ∃ t', t.symlink rules now source p = .ok t' := by
  obtain ⟨hslot, hsource, hfree, hallowed⟩ := h
  obtain ⟨parent, d, hnode, -, -⟩ := slot_dir hslot
  obtain ⟨t', hmake⟩ : ∃ t', t.make rules now .symlink (.symlink source) 0o777 i n = .ok t' :=
    ⟨_, make_eq_ok.2 ⟨parent, hnode, hfree, hallowed, rfl⟩⟩
  exact ⟨t', bind_eq_ok.2 ⟨_, hslot, bind_eq_ok.2 ⟨_, hsource, bind_eq_ok.2 ⟨(), rfl, hmake⟩⟩⟩⟩

/-- There is one place for the link. -/
theorem Links.unique {source : Path} {i' : Ino} {n' : Name} (h : t.Links rules source p i n)
    (h' : t.Links rules source p i' n') : i = i' ∧ n = n' := by
  cases h.1.symm.trans h'.1
  exact ⟨rfl, rfl⟩

theorem ne_of_symlink {source : Path} (h : t.symlink rules now source p = .ok t') : t' ≠ t := by
  obtain ⟨⟨i, n, slash⟩, -, h⟩ := bind_eq_ok.1 h
  obtain ⟨⟨⟩, -, h⟩ := bind_eq_ok.1 h
  obtain ⟨⟨⟩, -, hmake⟩ := bind_eq_ok.1 h
  exact ne_of_make hmake

/-- A file that was opened is there. -/
theorem node_of_openFile {create read write : Bool} {mode : UInt32}
    (h : t.openFile rules now create read write mode p = .ok (i, t')) :
    ∃ f, t'.node i = some f := by
  obtain ⟨f, hreach, rfl, -⟩ | ⟨-, rfl, j, n, -, hmake⟩ := openFile_cases h
  · exact ⟨f, (reach_eq_ok.1 hreach).2⟩
  · obtain ⟨new, hnew, -⟩ := node_make hmake
    exact ⟨new, hnew⟩

/-- **A directory that was made is where its path leads.** -/
theorem reach_mkdir {mode : UInt32} (h : t.mkdir rules now p mode = .ok t') :
    ∃ new, t'.reach rules p = .ok (t.next, new) := by
  obtain ⟨⟨i, n, slash⟩, hslot, hmake⟩ := bind_eq_ok.1 h
  obtain ⟨parent, d, hnode, hd, hlook⟩ := slot_dir hslot
  obtain ⟨new, hnew, hcontent⟩ := node_make hmake
  have hfind := find_make hnode hd hmake
  have hgrows : Grows rules.search t t' := grows_make hmake
  obtain ⟨find', s', hlook', hs, -⟩ := hgrows.dir hlook
  obtain ⟨inode', d', hnode', hd', -, rfl, -⟩ := dir_of_look hlook'
  have hfind' : d'.find n = some t.next := (find_of_dir hnode' hd').symm.trans hfind
  rw [hs rfl] at hlook'
  refine ⟨new, reach_eq_ok.2 ⟨?_, hnew⟩⟩
  exact lead_of_dir (slot_mono hgrows hslot) hlook' hfind' (look_of_dir hnew hcontent)

/-! ## Free names and taken names

A name may be hidden from a user who may not search a directory on the way.  So that a name is taken
is said for one who may search them all. -/

/-- Every directory may be searched. -/
def everywhere : Rights → Bool := fun _ => true

/-- The path ends in a name that is free, in a directory that the user can get to. -/
def Free (rules : Rules) (t : FileTree) (p : Path) : Prop :=
  ∃ i n slash, t.slot rules p = .ok (i, n, slash) ∧ t.find i n = none

/-- The path ends in a name that is taken, for one who may search every directory.  For others it
may be out of sight, but it is not free. -/
def Taken (cwd : Ino) (t : FileTree) (p : Path) : Prop :=
  ∃ i n slash j, UnixPath.slot (t.look everywhere) cwd p = .ok (i, n, slash) ∧ t.find i n = some j

theorem find_of_look {parent : Ino} {find : Name → Option Ino} {searchable : Bool}
    (h : t.look search i = some (.dir parent find searchable)) : find n = t.find i n := by
  obtain ⟨inode, d, hnode, hd, rfl, rfl, rfl⟩ := dir_of_look h
  exact (find_of_dir hnode hd).symm

/-- A name that is there stays where names are only added. -/
theorem Grows.find (h : Grows search t t') (hfind : t.find i n = some j) :
    t'.find i n = some j := by
  obtain ⟨inode, d, hnode, hd⟩ : ∃ inode d, t.node i = some inode ∧ inode.content = .directory d := by
    rw [FileTree.find] at hfind
    split at hfind
    · next hnode => exact ⟨_, _, hnode, rfl⟩
    · contradiction
  obtain ⟨f', s', hlook, -, hf⟩ := h.dir (look_of_dir hnode hd)
  rw [← find_of_look hlook]
  exact hf n j ((find_of_dir hnode hd).symm.trans hfind)

theorem slot_everywhere {slash : Bool} (h : t.slot rules p = .ok (i, n, slash)) :
    UnixPath.slot (t.look everywhere) rules.cwd p = .ok (i, n, slash) := by
  refine slot_mono (fun k a ha => ?_) h
  obtain ⟨inode, hnode, rfl⟩ := Option.map_eq_some_iff.1 ha
  refine ⟨passage everywhere inode, by rw [look, hnode, Option.map_some], ?_⟩
  obtain ⟨content, rights, stat, nlink, rdev, blksize⟩ := inode
  cases content with
  | directory d => exact ⟨rfl, fun _ => rfl, fun _ _ h => h⟩
  | _ => exact .refl _

theorem not_taken_of_free (h : Free rules t p) : ¬Taken rules.cwd t p := by
  rintro ⟨i, n, slash, j, hslot, hfind⟩
  obtain ⟨i', n', slash', hslot', hfind'⟩ := h
  obtain ⟨⟩ := (slot_everywhere hslot').symm.trans hslot
  rw [hfind] at hfind'
  contradiction

/-- **A taken name stays taken where names are only added.** -/
theorem taken_mono {cwd : Ino} (h : Grows everywhere t t') (htaken : Taken cwd t p) :
    Taken cwd t' p := by
  obtain ⟨i, n, slash, j, hslot, hfind⟩ := htaken
  exact ⟨i, n, slash, j, slot_mono h hslot, h.find hfind⟩

/-- **A free name is taken once the file has been opened for creation.** -/
theorem taken_of_openFile {create read write : Bool} {mode : UInt32} (hfree : Free rules t p)
    (h : t.openFile rules now create read write mode p = .ok (i, t')) :
    Taken rules.cwd t' p := by
  obtain ⟨k, n, slash, hslot, hfind⟩ := hfree
  obtain ⟨inode, d, hnode, hd, hlook⟩ := slot_dir hslot
  have hlead : t.lead rules p = if slash then .failed ENOENT else .missing k n :=
    lead_of_free hslot hlook ((find_of_dir hnode hd).symm.trans hfind)
  obtain ⟨f, hreach, -⟩ | ⟨-, -, k', n', hlead', hmake⟩ := openFile_cases h
  · have hfound := (reach_eq_ok.1 hreach).1
    rw [hlead] at hfound
    cases slash <;> contradiction
  · cases slash with
    | true =>
      rw [hlead] at hlead'
      contradiction
    | false =>
      obtain ⟨⟩ := hlead.symm.trans hlead'
      exact ⟨k, n, false, t.next, slot_everywhere (slot_mono (grows_make hmake) hslot),
        find_make hnode hd hmake⟩

/-! ## Why calls are refused

A call that should do nothing where a name is taken has other reasons to do nothing as well.  They
are listed here, as properties of the tree and the call and not as the result of the call, and the
list is shown to be complete. -/

/-- Why a file cannot be opened for creation, whatever is found under its path: the path leads
nowhere; it leads to a directory, or to a file that the user may not open; or it leads to a free
name in a directory where the user may make nothing. -/
inductive OpenRefusal (rules : Rules) (t : FileTree) (read : Bool) (mode : UInt32) (p : Path) : Prop
  | nowhere (hreach : ∀ f, t.reach rules p ≠ .ok f) (hlead : ∀ i n, t.lead rules p ≠ .missing i n)
  | directory {i : Ino} {f : Inode} (hreach : t.reach rules p = .ok (i, f)) (hdir : f.isDir = true)
  | closed {i : Ino} {f : Inode} {e : Int32} (hreach : t.reach rules p = .ok (i, f))
      (hdenied : t.allowed rules (.open read true) [i] = .error e)
  | fixed {i : Ino} {n : Name} {e : Int32} (hlead : t.lead rules p = .missing i n)
      (hdenied : t.allowed rules (.create mode) [i] = .error e)

/-- What a renaming from `origin` to `p` is about: the file `f`, which is `n` in `i`, and the name
`n'` in `i'`; `slash` says that a separator stands behind one of the two paths. -/
def Renames (rules : Rules) (t : FileTree) (origin p : Path) (i : Ino) (n : Name) (j : Ino)
    (f : Inode) (i' : Ino) (n' : Name) (slash : Bool) : Prop :=
  ∃ b b', t.slot rules origin = .ok (i, n, b) ∧ t.slot rules p = .ok (i', n', b') ∧
    t.entry i n = .ok (j, f) ∧ slash = (b || b')

/-- Why a file cannot be renamed: one of the paths does not end in a name, or there is no file to
rename; a separator stands behind the name of what is no directory; a directory would come to lie
below itself; another file has the new name and does not make room; or the user may not do it. -/
inductive RenameRefusal (rules : Rules) (t : FileTree) (origin p : Path) : Prop
  | nowhere (h : ∀ i n j f i' n' slash, ¬t.Renames rules origin p i n j f i' n' slash)
  | slash {i i' j : Ino} {n n' : Name} {f : Inode}
      (h : t.Renames rules origin p i n j f i' n' true) (hdir : f.isDir = false)
  | below {i i' j : Ino} {n n' : Name} {f : Inode} {slash : Bool}
      (h : t.Renames rules origin p i n j f i' n' slash) (hdir : f.isDir = true)
      (hbelow : t.isBelow j (t.next + 1) i' = true)
  | occupied {i i' j j' : Ino} {n n' : Name} {f : Inode} {slash : Bool} {e : Int32}
      (h : t.Renames rules origin p i n j f i' n' slash) (hfind : t.find i' n' = some j')
      (hne : j' ≠ j) (hroom : (t.entry i' n' >>= fun x => makesRoom f x.2) = .error e)
  | denied {i i' j : Ino} {n n' : Name} {f : Inode} {slash : Bool} {e : Int32}
      (h : t.Renames rules origin p i n j f i' n' slash) (hne : t.find i' n' ≠ some j)
      (hdenied : t.allowed rules .rename (i :: j :: i' :: (t.find i' n').toList) = .error e)

theorem lead_of_reach (h : t.reach rules p = .ok (i, inode)) : t.lead rules p = .found i :=
  (reach_eq_ok.1 h).1

/-- **A file is opened for creation unless there is a reason not to.**  The reasons are about the
tree, the path and the rules, at any time. -/
theorem openFile_refused_iff {read : Bool} {mode : UInt32} :
    (∀ x, t.openFile rules now true read true mode p ≠ .ok x) ↔
      OpenRefusal rules t read mode p := by
  constructor
  · intro h
    cases hlead : t.lead rules p with
    | failed e =>
      refine .nowhere (fun f hreach => ?_) (fun i n hmissing => ?_)
      · exact absurd (hlead.symm.trans (lead_of_reach hreach)) (by simp)
      · exact absurd (hlead.symm.trans hmissing) (by simp)
    | missing i n =>
      obtain ⟨parent, d, hnode, hd, hfind⟩ := dir_of_lead_missing hlead
      cases hallowed : t.allowed rules (.create mode) [i] with
      | error e => exact .fixed hlead hallowed
      | ok u =>
        obtain ⟨t', hmake⟩ : ∃ t', t.make rules now (.create mode) .regular mode i n = .ok t' :=
          ⟨_, make_eq_ok.2 ⟨parent, hnode, hfind, hallowed, rfl⟩⟩
        refine absurd ?_ (h (t.next, t'))
        simp only [openFile, hlead]
        exact bind_eq_ok.2 ⟨t', hmake, rfl⟩
    | found i =>
      cases hnode : t.node i with
      | none =>
        refine .nowhere (fun f hreach => ?_) (fun j n hmissing => ?_)
        · obtain ⟨hfound, hnode'⟩ := reach_eq_ok.1 hreach
          cases hlead.symm.trans hfound
          rw [hnode] at hnode'
          contradiction
        · exact absurd (hlead.symm.trans hmissing) (by simp)
      | some f =>
        have hreach : t.reach rules p = .ok (i, f) := reach_eq_ok.2 ⟨hlead, hnode⟩
        cases hdir : f.isDir with
        | true => exact .directory hreach hdir
        | false =>
          cases hallowed : t.allowed rules (.open read true) [i] with
          | error e => exact .closed hreach hallowed
          | ok u =>
            refine absurd ?_ (h (i, t))
            simp only [openFile, hlead, hnode, hdir, Bool.false_and]
            exact bind_eq_ok.2 ⟨(), rfl, bind_eq_ok.2 ⟨(), hallowed, rfl⟩⟩
  · rintro hrefusal ⟨i, t'⟩ hopen
    obtain ⟨f, hreach, -, hdir, hallowed⟩ | ⟨-, -, j, n, hlead, hmake⟩ := openFile_cases hopen
    · cases hrefusal with
      | nowhere hnot => exact hnot _ hreach
      | directory hreach' hdir' =>
        cases hreach.symm.trans hreach'
        exact absurd (hdir hdir') (by simp)
      | closed hreach' hdenied =>
        cases hreach.symm.trans hreach'
        exact absurd (hallowed.symm.trans hdenied) (by simp)
      | fixed hlead => exact absurd (hlead.symm.trans (lead_of_reach hreach)) (by simp)
    · obtain ⟨-, -, -, hallowed, -⟩ := make_eq_ok.1 hmake
      cases hrefusal with
      | nowhere _ hnot => exact hnot _ _ hlead
      | directory hreach => exact absurd (hlead.symm.trans (lead_of_reach hreach)) (by simp)
      | closed hreach => exact absurd (hlead.symm.trans (lead_of_reach hreach)) (by simp)
      | fixed hlead' hdenied =>
        cases hlead.symm.trans hlead'
        exact absurd (hallowed.symm.trans hdenied) (by simp)

theorem Renames.unique {origin : Path} {i i₁ i' i₁' j j₁ : Ino} {n n₁ n' n₁' : Name} {f f₁ : Inode}
    {slash slash₁ : Bool} (h : t.Renames rules origin p i n j f i' n' slash)
    (h₁ : t.Renames rules origin p i₁ n₁ j₁ f₁ i₁' n₁' slash₁) :
    i = i₁ ∧ n = n₁ ∧ j = j₁ ∧ f = f₁ ∧ i' = i₁' ∧ n' = n₁' ∧ slash = slash₁ := by
  obtain ⟨b, b', horigin, hslot, hentry, rfl⟩ := h
  obtain ⟨b₁, b₁', horigin₁, hslot₁, hentry₁, rfl⟩ := h₁
  cases horigin.symm.trans horigin₁
  cases hslot.symm.trans hslot₁
  cases hentry.symm.trans hentry₁
  exact ⟨rfl, rfl, rfl, rfl, rfl, rfl, rfl⟩

/-- When a file is renamed: where another file has the new name, that one makes room, and the user
may do it; where the file has both names, nothing is done. -/
theorem exists_rename_iff {origin : Path} : (∃ t', t.rename rules now origin p = .ok t') ↔
    ∃ i n j f i' n' slash, t.Renames rules origin p i n j f i' n' slash ∧
      (slash && !f.isDir) = false ∧ (f.isDir && t.isBelow j (t.next + 1) i') = false ∧
      (t.find i' n' ≠ some j →
        (t.find i' n' ≠ none → (t.entry i' n' >>= fun x => makesRoom f x.2) = .ok ()) ∧
        t.allowed rules .rename (i :: j :: i' :: (t.find i' n').toList) = .ok ()) := by
  constructor
  · rintro ⟨t', h⟩
    obtain ⟨⟨i, n, b⟩, horigin, h⟩ := bind_eq_ok.1 h
    obtain ⟨⟨i', n', b'⟩, hslot, h⟩ := bind_eq_ok.1 h
    obtain ⟨⟨j, f⟩, hentry, h⟩ := bind_eq_ok.1 h
    obtain ⟨⟨⟩, hslash, h⟩ := bind_eq_ok.1 h
    obtain ⟨⟨⟩, hbelow, h⟩ := bind_eq_ok.1 h
    refine ⟨i, n, j, f, i', n', _, ⟨b, b', horigin, hslot, hentry, rfl⟩, refuseIf_eq_ok.1 hslash,
      refuseIf_eq_ok.1 hbelow, fun hne => ?_⟩
    cases hfind : t.find i' n' with
    | none =>
      simp only [hfind] at h
      obtain ⟨⟨⟩, hallowed, -⟩ := bind_eq_ok.1 h
      exact ⟨fun hnot => absurd rfl hnot, hallowed⟩
    | some j' =>
      have hj : j' ≠ j := fun heq => hne (heq ▸ hfind)
      simp only [hfind, if_neg hj] at h
      obtain ⟨⟨j'', f'⟩, hentry', h⟩ := bind_eq_ok.1 h
      obtain ⟨⟨⟩, hroom, h⟩ := bind_eq_ok.1 h
      obtain ⟨⟨⟩, hallowed, -⟩ := bind_eq_ok.1 h
      exact ⟨fun _ => bind_eq_ok.2 ⟨_, hentry', hroom⟩, hallowed⟩
  · rintro ⟨i, n, j, f, i', n', -, ⟨b, b', horigin, hslot, hentry, rfl⟩, hslash, hbelow, hrest⟩
    have hslash' : refuseIf ((b || b') && !f.isDir) ENOTDIR = .ok () := refuseIf_eq_ok.2 hslash
    have hbelow' : refuseIf (f.isDir && t.isBelow j (t.next + 1) i') EINVAL = .ok () :=
      refuseIf_eq_ok.2 hbelow
    rw [rename, horigin, hslot]
    simp only [bind, Except.bind, hentry, hslash', hbelow']
    cases hfind : t.find i' n' with
    | none =>
      have hallowed := (hrest (by simp [hfind])).2
      rw [hfind] at hallowed
      exact ⟨_, bind_eq_ok.2 ⟨(), hallowed, rfl⟩⟩
    | some j' =>
      by_cases hj : j' = j
      · exact ⟨t, if_pos hj⟩
      · obtain ⟨hroom, hallowed⟩ := hrest (by simpa [hfind] using hj)
        obtain ⟨⟨j'', f'⟩, hentry', hroom⟩ := bind_eq_ok.1 (hroom (by simp [hfind]))
        rw [hfind] at hallowed
        simp only [if_neg hj]
        exact ⟨_, bind_eq_ok.2 ⟨_, hentry', bind_eq_ok.2 ⟨(), hroom,
          bind_eq_ok.2 ⟨(), hallowed, rfl⟩⟩⟩⟩

/-- Whether a call has succeeded. -/
instance decidableForallNe {ε α : Type} (r : Except ε α) : Decidable (∀ x, r ≠ .ok x) :=
  match r with
  | .ok x => isFalse fun h => h x rfl
  | .error _ => isTrue fun _ => by simp

/-- **A file is renamed unless there is a reason not to.**  That another file has the new name is
none, if it can be replaced. -/
theorem rename_refused_iff {origin : Path} :
    (∀ t', t.rename rules now origin p ≠ .ok t') ↔ RenameRefusal rules t origin p := by
  rw [← not_exists, exists_rename_iff]
  constructor
  · intro h
    by_cases hnames : ∃ i n j f i' n' slash, t.Renames rules origin p i n j f i' n' slash
    · obtain ⟨i, n, j, f, i', n', slash, hnames⟩ := hnames
      cases hslash : slash && !f.isDir with
      | true =>
        obtain ⟨rfl, hdir⟩ := Bool.and_eq_true_iff.1 hslash
        exact .slash hnames (by simpa using hdir)
      | false =>
        cases hbelow : f.isDir && t.isBelow j (t.next + 1) i' with
        | true =>
          obtain ⟨hdir, hbelow⟩ := Bool.and_eq_true_iff.1 hbelow
          exact .below hnames hdir hbelow
        | false =>
          by_contra hnot
          refine h ⟨i, n, j, f, i', n', slash, hnames, hslash, hbelow,
            fun hne => ⟨fun hsome => ?_, ?_⟩⟩
          · obtain ⟨j', hfind⟩ := Option.ne_none_iff_exists'.1 hsome
            have hj : j' ≠ j := fun heq => hne (heq ▸ hfind)
            cases hroom : t.entry i' n' >>= fun x => makesRoom f x.2 with
            | error e => exact absurd (.occupied hnames hfind hj hroom) hnot
            | ok u => rfl
          · cases hallowed : t.allowed rules .rename (i :: j :: i' :: (t.find i' n').toList) with
            | error e => exact absurd (.denied hnames hne hallowed) hnot
            | ok u => rfl
    · exact .nowhere fun i n j f i' n' slash h => hnames ⟨i, n, j, f, i', n', slash, h⟩
  · rintro hrefusal ⟨i, n, j, f, i', n', slash, hnames, hslash, hbelow, hrest⟩
    cases hrefusal with
    | nowhere hnot => exact hnot _ _ _ _ _ _ _ hnames
    | slash hnames' hdir =>
      obtain ⟨rfl, rfl, rfl, rfl, rfl, rfl, rfl⟩ := hnames.unique hnames'
      rw [hdir] at hslash
      contradiction
    | below hnames' hdir hbelow' =>
      obtain ⟨rfl, rfl, rfl, rfl, rfl, rfl, rfl⟩ := hnames.unique hnames'
      rw [hdir, hbelow'] at hbelow
      contradiction
    | occupied hnames' hfind hne hroom =>
      obtain ⟨rfl, rfl, rfl, rfl, rfl, rfl, rfl⟩ := hnames.unique hnames'
      have hfree := (hrest (by simpa [hfind] using hne)).1 (by simp [hfind])
      exact absurd (hfree.symm.trans hroom) (by simp)
    | denied hnames' hne hdenied =>
      obtain ⟨rfl, rfl, rfl, rfl, rfl, rfl, rfl⟩ := hnames.unique hnames'
      exact absurd ((hrest hne).2.symm.trans hdenied) (by simp)

instance (rules : Rules) (t : FileTree) (read : Bool) (mode : UInt32) (p : Path) :
    Decidable (OpenRefusal rules t read mode p) :=
  decidable_of_iff (∀ x, t.openFile rules ⟨0, 0⟩ true read true mode p ≠ .ok x) openFile_refused_iff

instance (rules : Rules) (t : FileTree) (origin p : Path) :
    Decidable (RenameRefusal rules t origin p) :=
  decidable_of_iff (∀ t', t.rename rules ⟨0, 0⟩ origin p ≠ .ok t') rename_refused_iff

instance (rules : Rules) (t : FileTree) (p : Path) : Decidable (Free rules t p) :=
  match h : t.slot rules p with
  | .ok (i, n, slash) => decidable_of_iff (t.find i n = none) <| by
      refine ⟨fun hfind => ⟨i, n, slash, h, hfind⟩, fun ⟨i', n', slash', hslot, hfind⟩ => ?_⟩
      obtain ⟨⟩ := h.symm.trans hslot
      exact hfind
  | .error e => isFalse fun ⟨i, n, slash, hslot, _⟩ => absurd (h.symm.trans hslot) (by simp)

/-! ## Calls that take no name away

Making things adds names only, so whoever has found a file finds it again. -/

theorem grows_change (h : t.change rules op p f = .ok t')
    (hf : ∀ inode, (f inode).content = inode.content) : Grows everywhere t t' := by
  obtain ⟨i, inode, -, -, rfl⟩ := change_eq_ok.1 h
  refine grows_modify fun inode _ => ?_
  have hsame : passage everywhere (f inode) = passage everywhere inode := by
    rw [passage, passage, hf]
    rfl
  rw [hsame]
  exact .refl _

theorem grows_openFile {create read write : Bool} {mode : UInt32}
    (h : t.openFile rules now create read write mode p = .ok (i, t')) : Grows search t t' := by
  obtain ⟨f, -, rfl, -⟩ | ⟨-, -, j, n, -, hmake⟩ := openFile_cases h
  · exact .refl
  · exact grows_make hmake

theorem grows_mkdir {mode : UInt32} (h : t.mkdir rules now p mode = .ok t') :
    Grows search t t' := by
  obtain ⟨⟨i, n, slash⟩, -, hmake⟩ := bind_eq_ok.1 h
  exact grows_make hmake

theorem grows_symlink {source : Path} (h : t.symlink rules now source p = .ok t') :
    Grows search t t' := by
  obtain ⟨⟨i, n, slash⟩, -, h⟩ := bind_eq_ok.1 h
  obtain ⟨⟨⟩, -, h⟩ := bind_eq_ok.1 h
  obtain ⟨⟨⟩, -, hmake⟩ := bind_eq_ok.1 h
  exact grows_make hmake

theorem grows_utimens {atime mtime : TimeArg} (h : t.utimens rules now p atime mtime = .ok t') :
    Grows everywhere t t' := by
  rw [utimens] at h
  split_ifs at h
  · obtain ⟨⟩ := h
    exact .refl
  · exact grows_change h fun inode => rfl

/-! ## Renaming onto a free name

Then nothing is replaced, and one name becomes another. -/

/-- What changes the entries of one directory keeps the names that it keeps there. -/
theorem find_modify {g : Directory → Directory} {k : Ino} {m : Name}
    (hcontent : ∀ inode, (f inode).content = inode.content.mapDirectory g)
    (hg : k = i → ∀ d : Directory, d.find m = some j → (g d).find m = some j)
    (h : t.find k m = some j) : (t.modify i f).find k m = some j := by
  rw [find] at h
  split at h
  · next d rights stat nlink rdev blksize hnode =>
    by_cases hki : k = i
    · subst hki
      have hnode' : (t.modify k f).node k =
          some (f ⟨.directory d, rights, stat, nlink, rdev, blksize⟩) := by
        rw [node_modify_self, hnode, Option.map_some]
      rw [find_of_dir hnode' (hcontent _)]
      exact hg rfl d h
    · rw [find, node_modify_of_ne hki, hnode]
      exact h
  · contradiction

theorem find_erase {d : Directory} {m : Name} (hm : m ≠ n) (h : d.find m = some j) :
    (d.erase n).find m = some j :=
  find_eq_some.2 (List.mem_filter.2 ⟨find_eq_some.1 h, by simpa using hm⟩)

theorem find_insert_of_some {d : Directory} {k : Ino} {m : Name} (h : d.find m = some j) :
    (d.insert n k).find m = some j := by
  rw [Directory.insert]
  split
  · exact h
  · exact find_eq_some.2 (List.mem_append_left _ (find_eq_some.1 h))

/-- **A rename onto a free name takes no other name away than its own.** -/
theorem find_rename_of_free {origin : Path} {k : Ino} {m : Name} (hfree : Free rules t p)
    (h : t.rename rules now origin p = .ok t') (hfind : t.find k m = some j) :
    t'.find k m = some j ∨ ∃ slash, t.slot rules origin = .ok (k, m, slash) := by
  obtain ⟨⟨i, n, slash⟩, horigin, h⟩ := bind_eq_ok.1 h
  obtain ⟨⟨i', n', slash'⟩, hslot, h⟩ := bind_eq_ok.1 h
  obtain ⟨⟨j', f⟩, hentry, h⟩ := bind_eq_ok.1 h
  obtain ⟨⟨⟩, -, h⟩ := bind_eq_ok.1 h
  obtain ⟨⟨⟩, -, h⟩ := bind_eq_ok.1 h
  obtain ⟨i'', n'', slash'', hslot', hnone⟩ := hfree
  obtain ⟨⟩ := hslot.symm.trans hslot'
  simp only [hnone] at h
  obtain ⟨⟨⟩, -, h⟩ := bind_eq_ok.1 h
  obtain ⟨⟩ := h
  by_cases hname : k = i ∧ m = n
  · obtain ⟨rfl, rfl⟩ := hname
    exact Or.inr ⟨slash, horigin⟩
  · have hleave : ∀ links, (t.leave now i n links).find k m = some j := fun links =>
      find_modify (fun _ => rfl) (fun hk d hd => find_erase (fun hm => hname ⟨hk, hm⟩) hd) hfind
    have henter : ∀ links links',
        ((t.leave now i n links).enter now i' n' j' links').find k m = some j := fun _ _ =>
      find_modify (fun _ => rfl) (fun _ d hd => find_insert_of_some hd) (hleave _)
    exact Or.inl (find_modify (fun _ => rfl) (fun _ d hd => hd) (henter _ _))

end

end FileTree
end UnixPath
end DistributedPrograms
