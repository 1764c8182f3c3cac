import Mathlib.Algebra.Group.Int.Defs
import Mathlib.Algebra.Group.Nat.Defs
import Mathlib.Data.List.Basic

/-!
# Attributes

The messages that describe a file (`Attr`, `SettableAttr`) and the conversions of `type_conv.rs`
that the server applies: what the operating system reports (`Metadata`) becomes an `Attr` by
`metadataToGrpc`.  File types are read off the mode bits, as the standard library does; a mode of no
known type is the `unreachable!()` of the source and gives `none`.

The numbers have the widths of the messages and of the system call, so what is cut off in a
conversion is cut off here: the nanoseconds of the times, the upper bits of `nlink`, `rdev` and
`blksize`, and all mode bits but those of the permissions.  What a client loses by this is the
subject of the module on reading back.
-/

set_option autoImplicit false

namespace DistributedPrograms
namespace Distfs

inductive Filetype where
  | namedPipe
  | charDevice
  | blockDevice
  | directory
  | regularFile
  | symlink
  | socket
  deriving DecidableEq, Repr

structure Timestamp where
  seconds : Int64
  nanos : Int32
  deriving DecidableEq, Repr

structure Attr where
  size : UInt64
  blocks : UInt64
  atime : Option Timestamp
  mtime : Option Timestamp
  ctime : Option Timestamp
  kind : Filetype
  perm : UInt32
  nlink : UInt32
  uid : UInt32
  gid : UInt32
  rdev : UInt32
  flag : UInt32
  blksize : UInt32
  deriving DecidableEq, Repr

structure SettableAttr where
  mode : Option UInt32
  uid : Option UInt32
  gid : Option UInt32
  size : Option UInt64
  lockOwner : Option UInt64
  atime : Option Timestamp
  mtime : Option Timestamp
  ctime : Option Timestamp
  deriving DecidableEq, Repr

/-! ## What the operating system reports

The fields of a `stat`, in the widths of the system call. -/

/-- A file type, as the mode it is read off.  This is how the standard library keeps it, so a mode
of no known type is one too. -/
structure FileType where
  mode : UInt32
  deriving DecidableEq, Repr

namespace FileType

/-- The mask `S_IFMT` of the type bits. -/
def ifmt : UInt32 := 0o170000

def is (kind : UInt32) (t : FileType) : Bool := t.mode &&& ifmt == kind

def isDir : FileType → Bool := is 0o040000
def isFile : FileType → Bool := is 0o100000
def isSymlink : FileType → Bool := is 0o120000
def isSocket : FileType → Bool := is 0o140000
def isBlockDevice : FileType → Bool := is 0o060000
def isCharDevice : FileType → Bool := is 0o020000
def isFifo : FileType → Bool := is 0o010000

end FileType

/-- The result of a `stat` call, with the fields the server reads. -/
structure Metadata where
  len : UInt64
  blocks : UInt64
  atime : Int64
  mtime : Int64
  ctime : Int64
  mode : UInt32
  nlink : UInt64
  uid : UInt32
  gid : UInt32
  rdev : UInt64
  blksize : UInt64
  deriving DecidableEq, Repr

def Metadata.fileType (m : Metadata) : FileType := ⟨m.mode⟩

/-! ## Conversions

From the system to the messages, with what is cut off on the way. -/

/-- `filetype::std_to_grpc`; `none` is its `unreachable!()`.  The tests come in the order of the
source. -/
def stdToGrpc (ftype : FileType) : Option Filetype :=
  if ftype.isDir then some .directory
  else if ftype.isFile then some .regularFile
  else if ftype.isSymlink then some .symlink
  else if ftype.isSocket then some .socket
  else if ftype.isBlockDevice then some .blockDevice
  else if ftype.isCharDevice then some .charDevice
  else if ftype.isFifo then some .namedPipe
  else none

/-- `attr::metadata_to_grpc`.  The times lose their nanoseconds, the mode keeps only the
permission bits, and `nlink`, `rdev` and `blksize` are cut to 32 bits. -/
def metadataToGrpc (m : Metadata) : Option Attr := do
  let kind ← stdToGrpc m.fileType
  return {
    size := m.len
    blocks := m.blocks
    atime := some ⟨m.atime, 0⟩
    mtime := some ⟨m.mtime, 0⟩
    ctime := some ⟨m.ctime, 0⟩
    kind
    perm := m.mode &&& 0o777
    nlink := m.nlink.toUInt32
    uid := m.uid
    gid := m.gid
    flag := 0
    rdev := m.rdev.toUInt32
    blksize := m.blksize.toUInt32 }

end Distfs
end DistributedPrograms
