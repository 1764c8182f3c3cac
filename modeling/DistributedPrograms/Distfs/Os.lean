import DistributedPrograms.Lib.Program
import DistributedPrograms.Lib.UnixPath
import DistributedPrograms.Distfs.Attr

/-!
# What a handler of the file server calls

`Call` lists everything a handler does outside its own computation: the locks and tables of the
server, the counter of handles, and the calls to the operating system with their answers.  A handler
is a `Handler`, a program over these calls that can fail with an errno or with a panic. `Call.paths`
are the paths that a call hands to the operating system.

What a call is answered is left open here, so whatever is said of a handler at this level holds for
every operating system.  Later modules give the calls a meaning three times: by answers that may be
anything, by a POSIX system whose files have names and attributes, and by one whose files have
contents as well.

* Errors are those of the standard library, with or without an errno; `IoError.errno` is the
  fallback of the source.
* A directory stream is answered as one list: the entries in the order the stream yields them, each
  of them possibly an error.  The operating system reports names only, without the two dots.
* A lock is asked for in a mode, and a guard is held by `withLock` for as long as the source holds
  it.
* Strings and paths are converted as the standard library does it.  `toStringLossy` is written out,
  byte by byte, because which names survive it decides several of the results.
-/

set_option autoImplicit false

namespace DistributedPrograms
namespace Distfs

open UnixPath

/-! ## Errors

What can go wrong, and which errno a client is answered for it. -/

def EACCES : Int32 := 13
def EEXIST : Int32 := 17
def EINVAL : Int32 := 22
def ENOSYS : Int32 := 38

/-- An error of the standard library: the errno of the operating system, where there is one.  There
is none for an error that the library has found by itself. -/
structure IoError where
  rawOsError : Option Int32
  deriving DecidableEq, Repr

/-- `e.raw_os_error().unwrap_or(libc::EACCES)` -/
def IoError.errno (e : IoError) : Int32 := e.rawOsError.getD EACCES

inductive FileOwnerError where
  | ioError (e : IoError)
  | nixError (errno : Int32)
  | groupNotFound
  | userNotFound
  deriving DecidableEq, Repr

def fileOwnerErrorToIoError : FileOwnerError → IoError
  | .ioError e => e
  | .nixError errno => ⟨some errno⟩
  | .groupNotFound => ⟨none⟩
  | .userNotFound => ⟨none⟩

/-- How a handler ends without a result.  A panic ends the task of the request, and nothing else. -/
inductive Failure where
  /-- the errno that is answered to the client -/
  | errno (e : Int32)
  /-- an `expect` or an `unreachable!()` that was reached -/
  | panic
  deriving DecidableEq, Repr

def Failure.ofIoError (e : IoError) : Failure := .errno e.errno

/-! ## Directory listings

What the server stores of a directory, and what the system reports of one. -/

structure DirEntry where
  kind : Filetype
  name : String
  offset : Int64
  attr : Option Attr
  entryTtlMs : UInt64
  attrTtlMs : UInt64
  deriving DecidableEq, Repr

/-- The `oneof inner` of an `Entry`. -/
inductive Inner where
  | entry (e : DirEntry)
  | errno (e : Int32)
  deriving DecidableEq, Repr

/-- An entry of a listing, as `readdir` answers it. -/
structure Entry where
  inner : Option Inner
  deriving DecidableEq, Repr

/-- An entry of a directory stream.  The operating system reports names only, without `.` and `..`,
and each of them is a name that a file can have. -/
structure OsDirEntry where
  fileName : Path
  valid : ValidName fileName

/-! ## Calls

One constructor for each kind of call, with the type of its answer.  Calls of crates that are one
system call are one call. -/

/-- An open file. -/
abbrev Fd := Nat

structure OpenOptions where
  create : Bool
  append : Bool
  write : Bool
  read : Bool
  /-- the permissions of a new file -/
  mode : UInt32
  deriving DecidableEq, Repr

/-- Where a seek goes to. -/
inductive SeekFrom where
  | start (offset : UInt64)
  | current (offset : Int64)
  | fromEnd (offset : Int64)
  deriving DecidableEq, Repr

/-- The locks of the server: the tables of file and of directory handles, and one lock for each
handle.  The lock of a handle stays with those who use the file when the handle is released. -/
inductive Lock where
  | fh
  | dh
  | file (fh : UInt64)
  | dir (fh : UInt64)
  deriving DecidableEq, Repr

inductive LockMode where
  | read
  | write
  deriving DecidableEq, Repr

/-- A call, with the type of its answers. -/
inductive Call : Type → Type
  | acquire (l : Lock) (m : LockMode) : Call Unit
  | release (l : Lock) (m : LockMode) : Call Unit
  | allocFh : Call UInt64
  | fhGet (fh : UInt64) : Call (Option (Fd × Path))
  | fhInsert (fh : UInt64) (file : Fd) (path : Path) : Call Unit
  | fhRemove (fh : UInt64) : Call (Option (Fd × Path))
  | dhGet (fh : UInt64) : Call (Option (List Entry × Path))
  | dhInsert (fh : UInt64) (entries : List Entry) (path : Path) : Call Unit
  | dhRemove (fh : UInt64) : Call Unit
  | metadata (path : Path) : Call (Except IoError Metadata)
  | mkdir (path : Path) (mode : UInt32) : Call (Except Int32 Unit)
  | unlink (path : Path) : Call (Except Int32 Unit)
  | symlink (source target : Path) : Call (Except IoError Unit)
  | removeDir (path : Path) : Call (Except IoError Unit)
  | rename (origin path : Path) : Call (Except IoError Unit)
  | readDir (path : Path) : Call (Except IoError (List (Except IoError OsDirEntry)))
  | entryFileType (dir : Path) (entry : OsDirEntry) : Call (Except IoError FileType)
  | entryMetadata (dir : Path) (entry : OsDirEntry) : Call (Except IoError Metadata)
  | openFile (options : OpenOptions) (path : Path) : Call (Except IoError Fd)
  | access (path : Path) (flag : UInt32) : Call (Except Int32 Unit)
  | readLink (path : Path) : Call (Except IoError Path)
  | setOwner (path : Path) (uid : UInt32) : Call (Except FileOwnerError Unit)
  | setGroup (path : Path) (gid : UInt32) : Call (Except FileOwnerError Unit)
  | setFileMtime (path : Path) (seconds : Int64) (nanos : UInt32) : Call (Except IoError Unit)
  | setFileAtime (path : Path) (seconds : Int64) (nanos : UInt32) : Call (Except IoError Unit)
  | setPermissions (path : Path) (mode : UInt32) : Call (Except IoError Unit)
  | fileMetadata (file : Fd) : Call (Except IoError Metadata)
  | fileSetLen (file : Fd) (size : UInt64) : Call (Except IoError Unit)
  | fileSeek (file : Fd) (pos : SeekFrom) : Call (Except IoError UInt64)
  | fileRead (file : Fd) (size : Nat) :
      Call (Except IoError { data : List UInt8 // data.length ≤ size })
  | fileWrite (file : Fd) (data : List UInt8) : Call (Except IoError { n : Nat // n ≤ data.length })
  | fileFlush (file : Fd) : Call (Except IoError Unit)
  | fsync (file : Fd) : Call (Except Int32 Unit)
  | fallocate (file : Fd) (mode : UInt32) (offset length : Int64) : Call (Except Int32 Unit)
  | copyFileRange (fileIn : Fd) (offsetIn : Int64) (fileOut : Fd) (offsetOut : Int64)
      (length : UInt64) : Call (Except Int32 UInt64)

/-- The paths that a call hands to the operating system.  An entry of a directory stream stands
for its name in that directory. -/
def Call.paths {β : Type} : Call β → List Path
  | .metadata path => [path]
  | .mkdir path _ => [path]
  | .unlink path => [path]
  | .symlink source target => [source, target]
  | .removeDir path => [path]
  | .rename origin path => [origin, path]
  | .readDir path => [path]
  | .entryFileType dir entry => [join dir entry.fileName]
  | .entryMetadata dir entry => [join dir entry.fileName]
  | .openFile _ path => [path]
  | .access path _ => [path]
  | .readLink path => [path]
  | .setOwner path _ => [path]
  | .setGroup path _ => [path]
  | .setFileMtime path _ _ => [path]
  | .setFileAtime path _ _ => [path]
  | .setPermissions path _ => [path]
  | .acquire _ _ | .release _ _ | .allocFh | .fhGet _ | .fhInsert _ _ _ | .fhRemove _ | .dhGet _
  | .dhInsert _ _ _ | .dhRemove _ | .fileMetadata _ | .fileSetLen _ _ | .fileSeek _ _
  | .fileRead _ _ | .fileWrite _ _ | .fileFlush _ | .fsync _ | .fallocate _ _ _ _
  | .copyFileRange _ _ _ _ _ => []

/-- The body of a handler: a program over the calls, which can fail. -/
abbrev Handler := Fallible Call Failure

/-- `x` while a guard of `l` is held.  The guard is dropped at the end, also where `x` has
failed. -/
def withLock {α : Type} (l : Lock) (m : LockMode) (x : Handler α) : Handler α :=
  Fallible.bracket (.acquire l m) (.release l m) x

/-! ## Strings

The decoder of the standard library.  It replaces each longest start of an encoding that does not go
on as one by one replacement character. -/

/-- The bytes of a string, as a path.  Every string is one, but not every path is a string. -/
def osStr (s : String) : Path := s.toUTF8.data.toList

/-- The length of the encoding that starts with `b`, 0 where none does. -/
def utf8CharWidth (b : UInt8) : Nat :=
  if b < 0x80 then 1
  else if b < 0xC2 then 0
  else if b < 0xE0 then 2
  else if b < 0xF0 then 3
  else if b < 0xF5 then 4
  else 0

def isContinuation (b : UInt8) : Bool := b &&& 0xC0 == 0x80

/-- `b₁` can follow the first byte `b₀`: overlong forms, surrogates and code points above
`10FFFF` are excluded here. -/
def secondByteOk (b₀ b₁ : UInt8) : Bool :=
  isContinuation b₁ && !(b₀ == 0xE0 && b₁ < 0xA0) && !(b₀ == 0xED && 0xA0 ≤ b₁) &&
    !(b₀ == 0xF0 && b₁ < 0x90) && !(b₀ == 0xF4 && 0x90 ≤ b₁)

/-- The character with this first byte, stripped of its length bits, and these further bytes. -/
def decodeChar (first : Nat) (rest : List UInt8) : Char :=
  Char.ofNat (rest.foldl (fun code b => code * 64 + (b &&& 0x3F).toNat) first)

def replacementCharacter : Char := Char.ofNat 0xFFFD

/-- The characters of a byte string; each longest start of an encoding that does not go on as one
becomes one replacement character. -/
def lossyChars : List UInt8 → List Char
  | [] => []
  | b₀ :: t₀ =>
    if utf8CharWidth b₀ = 0 then replacementCharacter :: lossyChars t₀
    else if utf8CharWidth b₀ = 1 then decodeChar b₀.toNat [] :: lossyChars t₀
    else match t₀ with
    | [] => [replacementCharacter]
    | b₁ :: t₁ =>
      if !secondByteOk b₀ b₁ then replacementCharacter :: lossyChars (b₁ :: t₁)
      else if utf8CharWidth b₀ = 2 then
        decodeChar (b₀ &&& 0x1F).toNat [b₁] :: lossyChars t₁
      else match t₁ with
      | [] => [replacementCharacter]
      | b₂ :: t₂ =>
        if !isContinuation b₂ then replacementCharacter :: lossyChars (b₂ :: t₂)
        else if utf8CharWidth b₀ = 3 then
          decodeChar (b₀ &&& 0x0F).toNat [b₁, b₂] :: lossyChars t₂
        else match t₂ with
        | [] => [replacementCharacter]
        | b₃ :: t₃ =>
          if !isContinuation b₃ then replacementCharacter :: lossyChars (b₃ :: t₃)
          else decodeChar (b₀ &&& 0x07).toNat [b₁, b₂, b₃] :: lossyChars t₃

/-- `to_string_lossy().to_string()` -/
def toStringLossy (p : Path) : String := String.ofList (lossyChars p)

end Distfs
end DistributedPrograms
