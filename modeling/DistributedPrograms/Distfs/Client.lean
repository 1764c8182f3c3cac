import DistributedPrograms.Distfs.Server

/-!
# The client of the file server

What the client of `distfs/src/client.rs` hands to the kernel: the conversions of `type_conv.rs`
that it applies to answers and to the attributes of a `setattr`, and the methods whose results are
more than a handle or a number.  A method is split into the request it sends and the reply it makes
of the answer.

Paths and names of the kernel are bytes and those of a request are strings, so every request goes
through `to_string_lossy`.  An answer may be missing, may be an errno, or may not come at all,
because the task of the server has panicked; `received` is what then arrives.

Adding a duration to a `SystemTime` panics where the seconds leave the range of an `i64`; that is
how a time before 1970 ends, because its seconds are cast to `u64`.  `grpcToFuse3_whole` says that
the conversion of an attribute panics exactly if one of its times is before 1970, for the attributes
that a server sends, whose times have whole seconds.  In a listing one such entry is enough for the
whole reply, because all entries are converted before any is handed out.
-/

set_option autoImplicit false

namespace DistributedPrograms
namespace Distfs

open UnixPath

def EIO : Int32 := 5

/-! ## The types of `fuse3`

What the kernel is handed, with the fields that the conversions fill. -/

namespace Fuse3

inductive FileType where
  | namedPipe
  | charDevice
  | blockDevice
  | directory
  | regularFile
  | symlink
  | socket
  deriving DecidableEq, Repr

structure Timestamp where
  sec : Int64
  nsec : UInt32
  deriving DecidableEq, Repr

structure SetAttr where
  mode : Option UInt32
  uid : Option UInt32
  gid : Option UInt32
  size : Option UInt64
  lockOwner : Option UInt64
  atime : Option Timestamp
  mtime : Option Timestamp
  ctime : Option Timestamp
  deriving DecidableEq, Repr

/-- `std::time::SystemTime`, counted from 1970, with seconds that may be negative. -/
structure SystemTime where
  seconds : Int
  nanos : Nat
  deriving DecidableEq, Repr

structure FileAttr where
  size : UInt64
  blocks : UInt64
  atime : SystemTime
  mtime : SystemTime
  ctime : SystemTime
  kind : FileType
  perm : UInt16
  nlink : UInt32
  uid : UInt32
  gid : UInt32
  rdev : UInt32
  blksize : UInt32
  deriving DecidableEq, Repr

structure DirectoryEntryPlus where
  attr : FileAttr
  kind : FileType
  name : String
  offset : Int64
  attrTtlMs : UInt64
  entryTtlMs : UInt64
  deriving DecidableEq, Repr

/-- `ReplyAttr` and `ReplyEntry`, which have the same fields. -/
structure ReplyAttr where
  ttlMs : UInt64
  attr : FileAttr
  deriving DecidableEq, Repr

end Fuse3

/-! ## Conversions

Those of `type_conv.rs` that the client applies.  Only that of times can panic. -/

open Fuse3 (SystemTime FileAttr DirectoryEntryPlus ReplyAttr)

/-- `SystemTime::UNIX_EPOCH` -/
def unixEpoch : SystemTime := ⟨0, 0⟩

/-- `SystemTime + Duration`; `none` is its panic.  The seconds are those of an `i64`, and what is
added is unsigned. -/
def SystemTime.add (t : SystemTime) (secs nanos : Nat) : Option SystemTime :=
  let nanos := t.nanos + nanos
  let seconds := t.seconds + secs + (nanos / 1000000000 : Nat)
  if seconds < 2 ^ 63 then some ⟨seconds, nanos % 1000000000⟩ else none

/-- `timestamp::grpc_to_system` -/
def grpcToSystem (ts : Timestamp) : Option SystemTime := do
  let t ← SystemTime.add unixEpoch ts.seconds.toUInt64.toNat 0
  SystemTime.add t 0 ts.nanos.toInt64.toUInt64.toNat

/-- `filetype::grpc_to_fuse3` -/
def filetypeToFuse3 : Filetype → Fuse3.FileType
  | .blockDevice => .blockDevice
  | .charDevice => .charDevice
  | .directory => .directory
  | .regularFile => .regularFile
  | .socket => .socket
  | .symlink => .symlink
  | .namedPipe => .namedPipe

/-- A time of an `Attr`: `EACCES` where it is missing, a panic where it is out of range. -/
def timeToFuse3 : Option Timestamp → Except Failure SystemTime
  | none => .error (.errno EACCES)
  | some ts => (grpcToSystem ts).elim (.error .panic) .ok

/-- `attr::grpc_to_fuse3` -/
def grpcToFuse3 (attr : Attr) : Except Failure FileAttr := do
  let atime ← timeToFuse3 attr.atime
  let mtime ← timeToFuse3 attr.mtime
  let ctime ← timeToFuse3 attr.ctime
  return {
    size := attr.size
    blocks := attr.blocks
    atime
    mtime
    ctime
    kind := filetypeToFuse3 attr.kind
    perm := attr.perm.toUInt16
    nlink := attr.nlink
    uid := attr.uid
    gid := attr.gid
    rdev := attr.rdev
    blksize := attr.blksize }

def timestampToGrpc (ts : Fuse3.Timestamp) : Timestamp where
  seconds := ts.sec
  nanos := ts.nsec.toInt32

/-- `set_attr::fuse3_to_grpc` -/
def fuse3ToGrpc (attr : Fuse3.SetAttr) : SettableAttr where
  mode := attr.mode
  uid := attr.uid
  gid := attr.gid
  size := attr.size
  lockOwner := attr.lockOwner
  atime := attr.atime.map timestampToGrpc
  mtime := attr.mtime.map timestampToGrpc
  ctime := attr.ctime.map timestampToGrpc

/-! ## Answers

What the methods of the client make of an answer. -/

namespace Client

/-- What arrives of an answer: a server task that panics leaves a transport error, which the client
takes for `EIO`. -/
def received {α : Type} : Except Failure α → Except Failure α
  | .ok reply => .ok reply
  | .error (.errno e) => .error (.errno e)
  | .error .panic => .error (.errno EIO)

/-- The reply of `lookup`, `getattr`, `setattr`, `mkdir` and `symlink`. -/
def attrReply (answer : Except Failure Reply) : Except Failure ReplyAttr := do
  match ← received answer with
  | .attr ttlMs attr =>
    let attr ← grpcToFuse3 attr
    return ⟨ttlMs, attr⟩
  | _ => throw (.errno EIO)

/-- One entry of a listing. -/
def directoryEntryPlus (entry : Entry) : Except Failure DirectoryEntryPlus := do
  match entry.inner with
  | none => throw (.errno EIO)
  | some (.errno e) => throw (.errno e)
  | some (.entry entry) => match entry.attr with
    | none => throw (.errno EIO)
    | some attr =>
      let attr ← grpcToFuse3 attr
      return {
        attr
        kind := filetypeToFuse3 entry.kind
        name := entry.name
        offset := entry.offset
        attrTtlMs := entry.attrTtlMs
        entryTtlMs := entry.entryTtlMs }

/-- The entry as an element of the reply: an errno is one too, a panic is none. -/
def readdirplusEntry (entry : Entry) : Except Failure (Except Int32 DirectoryEntryPlus) :=
  match directoryEntryPlus entry with
  | .ok entry => .ok (.ok entry)
  | .error (.errno e) => .ok (.error e)
  | .error .panic => .error .panic

/-- The reply of `readdirplus`: all entries of the answer are converted before any is handed out, so
one that panics takes all others with it. -/
def readdirplusReply (answer : Except Failure Reply) :
    Except Failure (List (Except Int32 DirectoryEntryPlus)) := do
  match ← received answer with
  | .entries inner => inner.mapM readdirplusEntry
  | _ => throw (.errno EIO)

/-- The reply of `readlink`: `CString::new` takes no zero byte. -/
def readlinkReply (answer : Except Failure Reply) : Except Failure Path := do
  match ← received answer with
  | .path link => if 0 ∈ osStr link then throw (.errno EIO) else return osStr link
  | _ => throw (.errno EIO)

/-! ## Requests

What the methods of the client send.  Paths and names become strings here. -/

/-- `path.to_string_lossy().to_string()` of the path or name that the kernel gives. -/
abbrev lossy (p : Path) : String := toStringLossy p

def lookup (parent name : Path) : Request := .lookup ⟨lossy parent, lossy name⟩

def getattr (path : Option Path) (fh : Option UInt64) (flags : UInt32) : Request :=
  .getAttr ⟨path.map lossy, fh, flags⟩

def setattr (path : Option Path) (fh : Option UInt64) (setAttr : Fuse3.SetAttr) : Request :=
  .setAttr ⟨path.map lossy, fh, some (fuse3ToGrpc setAttr)⟩

def create (parent name : Path) (mode flags : UInt32) : Request :=
  .create ⟨lossy parent, lossy name, mode, flags⟩

def opendir (path : Path) (flags : UInt32) : Request := .opendir ⟨lossy path, flags⟩

def readdirplus (parent : Path) (fh offset lockOwner : UInt64) : Request :=
  .readdir ⟨lossy parent, fh, offset, lockOwner⟩

def symlink (parent name linkPath : Path) : Request :=
  .symlink ⟨lossy parent, lossy name, lossy linkPath⟩

def readlink (path : Path) : Request := .readlink ⟨lossy path⟩

def rename2 (originParent originName parent name : Path) (flags : UInt32) : Request :=
  .rename ⟨lossy originParent, lossy originName, lossy parent, lossy name, flags⟩

end Client

/-! ## Times

The one place where a conversion can panic. -/

theorem toInt_eq_of_nonneg {n : Int64} (h : 0 ≤ n) : (n.toUInt64.toNat : Int) = n.toInt := by
  have hle : (0 : Int) ≤ n.toInt := Int64.le_iff_toInt_le.1 h
  have hint : n.toInt = n.toBitVec.toInt := rfl
  have hnat : n.toUInt64.toNat = n.toBitVec.toNat := rfl
  rw [hint, BitVec.toInt_eq_toNat_cond] at hle ⊢
  rw [hnat]
  have hlt := n.toBitVec.isLt
  split at hle <;> split <;> omega

/-- Cast to `u64`, a negative number is out of the range of an `i64`. -/
theorem le_toNat_of_neg {n : Int64} (h : ¬0 ≤ n) : 2 ^ 63 ≤ n.toUInt64.toNat := by
  have hlt : n.toInt < 0 := Int.not_le.1 fun hle => h (Int64.le_iff_toInt_le.2 hle)
  have hint : n.toInt = n.toBitVec.toInt := rfl
  have hnat : n.toUInt64.toNat = n.toBitVec.toNat := rfl
  rw [hint, BitVec.toInt_eq_toNat_cond] at hlt
  rw [hnat]
  split at hlt <;> omega

theorem SystemTime.add_whole_of_lt {t : SystemTime} {secs : Nat} (hnanos : t.nanos = 0)
    (h : t.seconds + secs < 2 ^ 63) : SystemTime.add t secs 0 = some ⟨t.seconds + secs, 0⟩ := by
  have hcond : t.seconds + secs + ((t.nanos + 0) / 1000000000 : Nat) < 2 ^ 63 := by omega
  refine (if_pos hcond).trans ?_
  rw [hnanos]
  simp

theorem SystemTime.add_of_ge {t : SystemTime} {secs nanos : Nat} (h : 2 ^ 63 ≤ t.seconds + secs) :
    SystemTime.add t secs nanos = none :=
  if_neg (by omega)

/-- **A time is converted exactly if it is not before 1970.**  Others have become seconds beyond
every `i64` by a cast. -/
theorem grpcToSystem_whole (seconds : Int64) :
    grpcToSystem ⟨seconds, 0⟩ = if 0 ≤ seconds then some ⟨seconds.toInt, 0⟩ else none := by
  have hbind : grpcToSystem ⟨seconds, 0⟩ =
      (SystemTime.add unixEpoch seconds.toUInt64.toNat 0).bind fun t => SystemTime.add t 0 0 := rfl
  have hepoch : unixEpoch.seconds = 0 := rfl
  rw [hbind]
  split
  · next h =>
    have heq := toInt_eq_of_nonneg h
    have hlt := Int64.toInt_lt seconds
    rw [SystemTime.add_whole_of_lt rfl (by omega), Option.bind_some, hepoch,
      SystemTime.add_whole_of_lt rfl (by simp only; omega)]
    simp [heq]
  · next h =>
    have hle := le_toNat_of_neg h
    rw [SystemTime.add_of_ge (by omega), Option.bind_none]

/-- The times of an attribute have whole seconds, as those of the server have. -/
def Attr.Whole (attr : Attr) : Prop :=
  ∃ atime mtime ctime : Int64, attr.atime = some ⟨atime, 0⟩ ∧ attr.mtime = some ⟨mtime, 0⟩ ∧
    attr.ctime = some ⟨ctime, 0⟩

theorem whole_of_metadataToGrpc {m : Metadata} {attr : Attr} (h : metadataToGrpc m = some attr) :
    attr.Whole := by
  rw [metadataToGrpc] at h
  obtain ⟨kind, -, hattr⟩ := Option.bind_eq_some_iff.1 h
  cases hattr
  exact ⟨m.atime, m.mtime, m.ctime, rfl, rfl, rfl⟩

/-- No time of the attribute is before 1970.  This is all that the conversion needs. -/
def Attr.Datable (attr : Attr) : Prop :=
  ∀ ts, attr.atime = some ts ∨ attr.mtime = some ts ∨ attr.ctime = some ts → 0 ≤ ts.seconds

theorem timeToFuse3_whole (seconds : Int64) :
    timeToFuse3 (some ⟨seconds, 0⟩) =
      if 0 ≤ seconds then .ok ⟨seconds.toInt, 0⟩ else .error .panic := by
  rw [timeToFuse3, grpcToSystem_whole]
  by_cases h : 0 ≤ seconds
  · rw [if_pos h, if_pos h, Option.elim_some]
  · rw [if_neg h, if_neg h, Option.elim_none]

/-- **The conversion of an attribute panics exactly if one of its times is before 1970.** -/
theorem grpcToFuse3_whole {attr : Attr} (hwhole : attr.Whole) :
    (attr.Datable ∧ ∃ fuse, grpcToFuse3 attr = .ok fuse) ∨
      (¬attr.Datable ∧ grpcToFuse3 attr = .error .panic) := by
  obtain ⟨atime, mtime, ctime, ha, hm, hc⟩ := hwhole
  have hdatable : attr.Datable ↔ 0 ≤ atime ∧ 0 ≤ mtime ∧ 0 ≤ ctime := by
    simp only [Attr.Datable, ha, hm, hc, Option.some.injEq, or_imp, forall_and, forall_eq']
  rw [hdatable, grpcToFuse3, ha, hm, hc, timeToFuse3_whole, timeToFuse3_whole, timeToFuse3_whole]
  by_cases ha' : 0 ≤ atime
  · by_cases hm' : 0 ≤ mtime
    · by_cases hc' : 0 ≤ ctime
      · rw [if_pos ha', if_pos hm', if_pos hc']
        exact Or.inl ⟨⟨ha', hm', hc'⟩, _, rfl⟩
      · rw [if_pos ha', if_pos hm', if_neg hc']
        exact Or.inr ⟨fun h => hc' h.2.2, rfl⟩
    · rw [if_pos ha', if_neg hm']
      exact Or.inr ⟨fun h => hm' h.2.1, rfl⟩
  · rw [if_neg ha']
    exact Or.inr ⟨fun h => ha' h.1, rfl⟩

end Distfs
end DistributedPrograms
