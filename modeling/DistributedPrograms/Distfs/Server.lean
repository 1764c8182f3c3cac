import DistributedPrograms.Distfs.Os

/-!
# The file server

`Server` with its `realPath` and all handlers, in the order of `distfs/src/server.rs`.  A handler is
a program over `Call`; its text follows the source statement by statement, with `withLock` where a
guard is held.  `Server.handle` is the dispatch of the service.

The root is part of the server, and that it is canonical is a field: `Server::new` canonicalizes it
before anything else happens.

Where the source does something that one would not expect, the definition does it too:

* `lookup`, `mkdir`, `unlink`, `symlink`, `rmdir`, `rename` and `create` resolve the parent below
  the root and then join the name as it is;
* `set_attr` by handle resolves the stored path once more, and a size is set through a file that is
  opened for reading;
* `opendir` gives `..` the offset of `.`, and looks at the parent of the resolved path for it;
* `readlink` hands the path of the request to the system unresolved;
* `fsync` locks its file a second time while it holds the lock, and `copy_file_range` flushes its
  second file twice and its first one not at all;
* `access` shifts its mask where it should test bits.

What follows from each of these is in the modules behind this one.
-/

set_option autoImplicit false

namespace DistributedPrograms
namespace Distfs

open UnixPath Fallible

/-! ## Requests and replies

The messages of `protos/fs.proto`, with the fields that a handler reads. -/

structure LookupRequest where
  parent : String
  name : String

structure GetAttrRequest where
  path : Option String
  fh : Option UInt64
  flags : UInt32

structure SetAttrRequest where
  path : Option String
  fh : Option UInt64
  attr : Option SettableAttr

structure MkdirRequest where
  parent : String
  name : String
  mode : UInt32
  umask : UInt32

structure UnlinkRequest where
  parent : String
  name : String

structure SymlinkRequest where
  parent : String
  name : String
  linkPath : String

structure RmdirRequest where
  parent : String
  name : String

structure RenameRequest where
  originParent : String
  originName : String
  parent : String
  name : String
  flag : UInt32

structure OpendirRequest where
  path : String
  flags : UInt32

structure ReleasedirRequest where
  fh : UInt64
  flag : UInt32
  path : String

structure ReaddirRequest where
  parent : String
  fh : UInt64
  offset : UInt64
  lockOwner : UInt64

structure OpenRequest where
  path : String
  flags : UInt32

structure ReadRequest where
  fh : UInt64
  offset : UInt64
  size : UInt32

structure WriteRequest where
  fh : UInt64
  offset : UInt64
  data : List UInt8
  flags : UInt32

structure ReleaseRequest where
  fh : UInt64
  flags : UInt32
  lockOwner : UInt64
  flush : Bool

structure AccessRequest where
  path : String
  mask : UInt32

structure FlushRequest where
  fh : UInt64
  lockOwner : UInt64

structure FsyncRequest where
  fh : UInt64
  datasync : Bool

structure CreateRequest where
  parent : String
  name : String
  mode : UInt32
  flags : UInt32

structure FallocateRequest where
  fh : UInt64
  offset : UInt64
  length : UInt64
  mode : UInt32

structure LseekRequest where
  fh : UInt64
  offset : UInt64
  whence : UInt32

structure ReadlinkRequest where
  path : String

structure CopyFileRangeRequest where
  fhIn : UInt64
  offsetIn : UInt64
  fhOut : UInt64
  offsetOut : UInt64
  length : UInt64
  flags : UInt64

/-- `create_response::Ok` -/
structure CreateOk where
  ttlMs : UInt64
  attr : Option Attr
  generation : UInt64
  fh : UInt64
  flags : UInt32
  deriving DecidableEq, Repr

/-! ## The server

The root, the resolution of paths, and the parts that several handlers share. -/

/-- The server's root directory.  `Server::new` canonicalizes it, so it is absolute and spelled
without `.`, `..` and repeated separators. -/
structure Server where
  rootPath : Path
  canonical : Canonical rootPath

theorem canonical_sep : Canonical [sep] := by decide

namespace Server

/-- One step of the fold of `real_path`.  Whether this is the root is asked of the components, so a
root with a slash at its end is recognized too. -/
def realPathStep (s : Server) (parent : Path) : Component → Path
  | .rootDir => s.rootPath
  | .parentDir =>
    if components parent = components s.rootPath then parent
    else (UnixPath.parent parent).getD s.rootPath
  | .curDir => parent
  | .normal component => join parent component

/-- The path below the root that a request's path stands for.  (`Component::Prefix` does not
occur in Unix paths.) -/
def realPath (s : Server) (path : Path) : Path :=
  (components path).foldl s.realPathStep s.rootPath

def getAttrFromPath (path : Path) : Handler Attr := do
  let metadata ← attempt .ofIoError (.metadata path)
  ofOption .panic (metadataToGrpc metadata)

/-- `None` leaves the attribute as it is. -/
def whenSome {α : Type} (a : Option α) (f : α → Handler Unit) : Handler Unit :=
  match a with
  | none => pure ()
  | some a => f a

/-- `set_attr_by_path`, its errors already turned into an errno by both callers.  The first change
that is refused ends it, and those before it stay. -/
def setAttrByPath (path : Path) (attr : SettableAttr) : Handler Unit := do
  whenSome attr.uid fun uid =>
    attempt (.ofIoError ∘ fileOwnerErrorToIoError) (.setOwner path uid)
  whenSome attr.gid fun gid =>
    attempt (.ofIoError ∘ fileOwnerErrorToIoError) (.setGroup path gid)
  whenSome attr.size fun size => do
    let file ← attempt .ofIoError (.openFile
      { create := false, append := false, write := false, read := true, mode := 0o666 } path)
    attempt .ofIoError (.fileSetLen file size)
  whenSome attr.mtime fun mtime =>
    attempt .ofIoError (.setFileMtime path mtime.seconds mtime.nanos.toUInt32)
  -- `ctime` is unimplemented
  whenSome attr.atime fun atime =>
    attempt .ofIoError (.setFileAtime path atime.seconds atime.nanos.toUInt32)
  whenSome attr.mode fun mode =>
    attempt .ofIoError (.setPermissions path mode)

def lookupImpl (s : Server) (req : LookupRequest) : Handler Attr :=
  let path := join (s.realPath (osStr req.parent)) (osStr req.name)
  getAttrFromPath path

def getAttrImpl (s : Server) (req : GetAttrRequest) : Handler Attr :=
  match req.path, req.fh with
  | _, some fh =>
    withLock .fh .read do
      let (file, _) ← ofOption (.errno EEXIST) (← perform (.fhGet fh))
      let metadata ← withLock (.file fh) .read (attempt .ofIoError (.fileMetadata file))
      ofOption .panic (metadataToGrpc metadata)
  | some path, none => getAttrFromPath (s.realPath (osStr path))
  | none, none => throw (.errno EACCES)

def setAttrImpl (s : Server) (req : SetAttrRequest) : Handler Attr :=
  match req.attr with
  | none => throw (.errno EACCES)
  | some attr =>
    match req.path, req.fh with
    | _, some fh =>
      withLock .fh .read do
        let (file, path) ← ofOption (.errno EEXIST) (← perform (.fhGet fh))
        withLock (.file fh) .read do
          setAttrByPath (s.realPath path) attr
          let metadata ← attempt .ofIoError (.fileMetadata file)
          ofOption .panic (metadataToGrpc metadata)
    | some path, none => do
      setAttrByPath (s.realPath (osStr path)) attr
      getAttrFromPath (s.realPath (osStr path))
    | none, none => throw (.errno EACCES)

def mkdirImpl (s : Server) (req : MkdirRequest) : Handler Attr := do
  let path := join (s.realPath (osStr req.parent)) (osStr req.name)
  -- `Mode::from_bits_truncate` keeps the twelve mode bits
  attempt .errno (.mkdir path (req.mode &&& 0o7777))
  getAttrFromPath path

def unlinkImpl (s : Server) (req : UnlinkRequest) : Handler Unit :=
  let path := join (s.realPath (osStr req.parent)) (osStr req.name)
  attempt .errno (.unlink path)

def symlinkImpl (s : Server) (req : SymlinkRequest) : Handler Attr := do
  let target := join (s.realPath (osStr req.parent)) (osStr req.name)
  let source := s.realPath (osStr req.linkPath)
  attempt .ofIoError (.symlink source target)
  getAttrFromPath target

def rmdirImpl (s : Server) (req : RmdirRequest) : Handler Unit :=
  let path := join (s.realPath (osStr req.parent)) (osStr req.name)
  attempt .ofIoError (.removeDir path)

def renameImpl (s : Server) (req : RenameRequest) : Handler Unit :=
  let originPath := join (s.realPath (osStr req.originParent)) (osStr req.originName)
  let path := join (s.realPath (osStr req.parent)) (osStr req.name)
  attempt .ofIoError (.rename originPath path)

/-- What `opendir` stores for the entry at `offset` of the directory stream.  An entry about which
the system refuses an answer becomes an error, and the listing goes on. -/
def listEntry (dir : Path) (offset : Nat) : Except IoError OsDirEntry → Handler Entry
  | .error e => pure ⟨some (.errno e.errno)⟩
  | .ok entry => do
    match ← perform (.entryFileType dir entry) with
    | .error e => pure ⟨some (.errno e.errno)⟩
    | .ok ftype =>
      let kind ← ofOption .panic (stdToGrpc ftype)
      match ← perform (.entryMetadata dir entry) with
      | .error e => pure ⟨some (.errno e.errno)⟩
      | .ok metadata =>
        let attr ← ofOption .panic (metadataToGrpc metadata)
        pure ⟨some (.entry {
          kind
          name := toStringLossy entry.fileName
          offset := 1 + Int64.ofNat offset
          attr := some attr
          entryTtlMs := 1000
          attrTtlMs := 1000 })⟩

/-- The entry of a directory `.` or `..`.  Both carry the offset 1. -/
def specialEntry (name : String) (attr : Attr) : Entry :=
  ⟨some (.entry {
    kind := .directory
    name
    offset := 1
    attr := some attr
    entryTtlMs := 1000
    attrTtlMs := 1000 })⟩

/-- The shift of an ordinary entry behind the two special ones. -/
def shiftEntry (entry : Entry) : Entry :=
  match entry.inner with
  | some (.entry e) => ⟨some (.entry { e with offset := e.offset + 2 })⟩
  | _ => entry

/-- The entries as `opendir` stores them: all but `/` get the two special ones in front. -/
def withSpecials (reqPath : String) (path : Path) (inner : List Entry) : Handler (List Entry) :=
  if reqPath = "/" then pure inner
  else do
    let here ← getAttrFromPath path
    let up ← ofOption .panic (UnixPath.parent path)
    let above ← getAttrFromPath up
    pure ([specialEntry "." here, specialEntry ".." above] ++ inner.map shiftEntry)

def opendirImpl (s : Server) (req : OpendirRequest) : Handler (UInt64 × UInt32) := do
  let fh ← perform .allocFh
  let path := s.realPath (osStr req.path)
  let readdir ← attempt .ofIoError (.readDir path)
  let inner ← readdir.zipIdx.mapM fun (entry, offset) => listEntry path offset entry
  let inner ← withSpecials req.path path inner
  withLock .dh .write (perform (.dhInsert fh inner path))
  pure (fh, req.flags)

def releasedirImpl (_ : Server) (req : ReleasedirRequest) : Handler Unit :=
  withLock .dh .write (perform (.dhRemove req.fh))

def readdirImpl (_ : Server) (req : ReaddirRequest) : Handler (List Entry) :=
  withLock .dh .read do
    let (entries, _) ← ofOption (.errno EEXIST) (← perform (.dhGet req.fh))
    withLock (.dir req.fh) .read (pure (entries.drop req.offset.toNat))

def O_WRONLY : UInt32 := 1
def O_RDWR : UInt32 := 2
def O_CREAT : UInt32 := 0o100
def O_APPEND : UInt32 := 0o2000

/-- The options that `open` and `create` read off the flags: the access mode and `O_APPEND`, and
none of the others. -/
def openOptions (flags : UInt32) (create : Bool) (mode : UInt32) : OpenOptions :=
  let wOnly := flags &&& 0b11 == O_WRONLY
  let rOnly := flags &&& 0b11 == 0
  let rw := flags &&& 0b11 == O_RDWR
  { create, append := flags &&& O_APPEND != 0, write := rw || wOnly, read := rw || rOnly, mode }

def openImpl (s : Server) (req : OpenRequest) : Handler (UInt64 × UInt32) := do
  let path := s.realPath (osStr req.path)
  let file ← attempt .ofIoError
    (.openFile (openOptions req.flags (req.flags &&& O_CREAT != 0) 0o666) path)
  let fh ← perform .allocFh
  withLock .fh .write (perform (.fhInsert fh file path))
  pure (fh, req.flags)

/-- `x` on the file of a handle, whose write lock it holds.  The table stays locked for reading
until `x` is through. -/
def withFile {α : Type} (fh : UInt64) (x : Fd → Handler α) : Handler α :=
  withLock .fh .read do
    let (file, _) ← ofOption (.errno EEXIST) (← perform (.fhGet fh))
    withLock (.file fh) .write (x file)

/-- The loop of `read`: reads until nothing comes any more.  The buffer shrinks with what has come,
so it ends also when the buffer is full. -/
def readLoop (file : Fd) (size : Nat) : Handler (List UInt8) := do
  let ⟨data, _⟩ ← attempt .ofIoError (.fileRead file size)
  if data.length = 0 then pure []
  else do
    let rest ← readLoop file (size - data.length)
    pure (data ++ rest)
termination_by size

def readImpl (_ : Server) (req : ReadRequest) : Handler (List UInt8) :=
  withFile req.fh fun file => do
    let _ ← attempt .ofIoError (.fileSeek file (.start req.offset))
    let data ← readLoop file req.size.toNat
    let _ ← attempt .ofIoError (.fileMetadata file)
    pure data

def writeImpl (_ : Server) (req : WriteRequest) : Handler UInt32 :=
  withFile req.fh fun file => do
    let _ ← attempt .ofIoError (.fileSeek file (.start req.offset))
    let ⟨written, _⟩ ← attempt .ofIoError (.fileWrite file req.data)
    pure (UInt32.ofNat written)

def releaseImpl (_ : Server) (req : ReleaseRequest) : Handler Unit :=
  withLock .fh .write do
    match ← perform (.fhRemove req.fh) with
    | none => pure ()
    | some (file, _) =>
      if req.flush then withLock (.file req.fh) .write (attempt .ofIoError (.fileFlush file))
      else pure ()

def X_OK : UInt32 := 1
def W_OK : UInt32 := 2
def R_OK : UInt32 := 4

/-- The flag is set by shifting, not by masking, as in the source. -/
def accessFlags (mask : UInt32) : UInt32 :=
  (if X_OK >>> mask != 0 then X_OK else 0) ||| (if R_OK >>> mask != 0 then R_OK else 0) |||
    (if W_OK >>> mask != 0 then W_OK else 0)

def accessImpl (s : Server) (req : AccessRequest) : Handler Unit :=
  attempt .errno (.access (s.realPath (osStr req.path)) (accessFlags req.mask))

def flushImpl (_ : Server) (req : FlushRequest) : Handler Unit :=
  withFile req.fh fun file => attempt .ofIoError (.fileFlush file)

/-- The file is locked a second time for the flush. -/
def fsyncImpl (_ : Server) (req : FsyncRequest) : Handler Unit :=
  withFile req.fh fun file => do
    withLock (.file req.fh) .write (attempt .ofIoError (.fileFlush file))
    attempt .errno (.fsync file)

def createImpl (s : Server) (req : CreateRequest) : Handler CreateOk := do
  let path := join (s.realPath (osStr req.parent)) (osStr req.name)
  let file ← attempt .ofIoError (.openFile (openOptions req.flags true req.mode) path)
  let fh ← perform .allocFh
  let metadata ← attempt .ofIoError (.fileMetadata file)
  withLock .fh .write (perform (.fhInsert fh file path))
  let attr ← ofOption .panic (metadataToGrpc metadata)
  pure { ttlMs := 1000, attr := some attr, generation := 0, fh, flags := req.flags }

/-- The flags that `FallocateFlags` knows. -/
def fallocateFlags : UInt32 := 0x7B

def fallocateImpl (_ : Server) (req : FallocateRequest) : Handler Unit :=
  withFile req.fh fun file => do
    let mode ← ofOption (.errno EINVAL)
      (if req.mode &&& ~~~fallocateFlags == 0 then some req.mode else none)
    attempt .errno (.fallocate file mode req.offset.toInt64 req.length.toInt64)

def lseekImpl (_ : Server) (req : LseekRequest) : Handler UInt64 :=
  withFile req.fh fun file => do
    let pos ← ofOption (.errno ENOSYS)
      (if req.whence = 0 then some (.start req.offset)
      else if req.whence = 1 then some (.current req.offset.toInt64)
      else if req.whence = 2 then some (.fromEnd req.offset.toInt64)
      else none)
    attempt .ofIoError (.fileSeek file pos)

/-- The request's path goes to the operating system as it is. -/
def readlinkImpl (_ : Server) (req : ReadlinkRequest) : Handler String := do
  let link ← attempt .ofIoError (.readLink (osStr req.path))
  pure (toStringLossy link)

/-- The second file is looked up and locked while the lock of the first is held, and it is the
second that is flushed, twice. -/
def copyFileRangeImpl (_ : Server) (req : CopyFileRangeRequest) : Handler UInt64 :=
  withLock .fh .read do
    let (fileIn, _) ← ofOption (.errno EEXIST) (← perform (.fhGet req.fhIn))
    withLock (.file req.fhIn) .write do
      let (fileOut, _) ← ofOption (.errno EEXIST) (← perform (.fhGet req.fhOut))
      withLock (.file req.fhOut) .write do
        attempt .ofIoError (.fileFlush fileOut)
        attempt .ofIoError (.fileFlush fileOut)
        attempt .errno (.copyFileRange fileIn req.offsetIn.toInt64 fileOut req.offsetOut.toInt64
          req.length)

end Server

/-! ## The service

Which handler serves which request. -/

inductive Request where
  | lookup (req : LookupRequest)
  | getAttr (req : GetAttrRequest)
  | setAttr (req : SetAttrRequest)
  | mkdir (req : MkdirRequest)
  | unlink (req : UnlinkRequest)
  | symlink (req : SymlinkRequest)
  | rmdir (req : RmdirRequest)
  | rename (req : RenameRequest)
  | opendir (req : OpendirRequest)
  | releasedir (req : ReleasedirRequest)
  | readdir (req : ReaddirRequest)
  | open (req : OpenRequest)
  | read (req : ReadRequest)
  | write (req : WriteRequest)
  | release (req : ReleaseRequest)
  | access (req : AccessRequest)
  | flush (req : FlushRequest)
  | fsync (req : FsyncRequest)
  | create (req : CreateRequest)
  | fallocate (req : FallocateRequest)
  | lseek (req : LseekRequest)
  | readlink (req : ReadlinkRequest)
  | copyFileRange (req : CopyFileRangeRequest)

inductive Reply where
  | attr (ttlMs : UInt64) (attr : Attr)
  | unit
  | handle (fh : UInt64) (flag : UInt32)
  | create (ok : CreateOk)
  | path (link : String)
  | entries (inner : List Entry)
  | data (data : List UInt8)
  | written (written : UInt32)
  | offset (offset : UInt64)
  | copied (copied : UInt64)
  deriving DecidableEq, Repr

/-- The handler of a request, its result as it is answered.  This is the dispatch of the service,
one line for each RPC. -/
def Server.handle (s : Server) : Request → Handler Reply
  | .lookup req => .attr 1000 <$> s.lookupImpl req
  | .getAttr req => .attr 1000 <$> s.getAttrImpl req
  | .setAttr req => .attr 1000 <$> s.setAttrImpl req
  | .mkdir req => .attr 1000 <$> s.mkdirImpl req
  | .unlink req => (fun _ => .unit) <$> s.unlinkImpl req
  | .symlink req => .attr 1000 <$> s.symlinkImpl req
  | .rmdir req => (fun _ => .unit) <$> s.rmdirImpl req
  | .rename req => (fun _ => .unit) <$> s.renameImpl req
  | .opendir req => (fun (fh, flag) => .handle fh flag) <$> s.opendirImpl req
  | .releasedir req => (fun _ => .unit) <$> s.releasedirImpl req
  | .readdir req => .entries <$> s.readdirImpl req
  | .open req => (fun (fh, flag) => .handle fh flag) <$> s.openImpl req
  | .read req => .data <$> s.readImpl req
  | .write req => .written <$> s.writeImpl req
  | .release req => (fun _ => .unit) <$> s.releaseImpl req
  | .access req => (fun _ => .unit) <$> s.accessImpl req
  | .flush req => (fun _ => .unit) <$> s.flushImpl req
  | .fsync req => (fun _ => .unit) <$> s.fsyncImpl req
  | .create req => .create <$> s.createImpl req
  | .fallocate req => (fun _ => .unit) <$> s.fallocateImpl req
  | .lseek req => .offset <$> s.lseekImpl req
  | .readlink req => .path <$> s.readlinkImpl req
  | .copyFileRange req => .copied <$> s.copyFileRangeImpl req

end Distfs
end DistributedPrograms
