import DistributedPrograms.Distfs.Server

/-!
# What the parts of the handlers call

Several handlers share a part: they set attributes, look at an entry of a directory, or read until
nothing comes any more.  The calls that a part makes are listed here once; what a proof wants to
know of all of them it gets by `Uses.mono`.  The handlers that take a handle and no path hand no
path to the operating system either, and no handler takes a name away or writes unless its request
is about that.

* `SetsAttr path` and `ReadsEntry dir` are the calls of `set_attr_by_path` and of the look at one
  entry.
* `HandleCall req` are those of the requests that name a file by a handle only
  (`handleCall_handle`).
* `Inspects` are those of a request that looks at the attributes of a file.
* `Request.Makes` are all calls that a request may make, of whatever kind (`makes_handle`).

They are inductive predicates with one constructor for each call, so a property of all calls of a
handler is proved by cases, and each case is one call with its arguments.  A new property needs no
new walk through the handlers.
-/

set_option autoImplicit false

namespace DistributedPrograms
namespace Distfs

open UnixPath Fallible Server

variable {P : {β : Type} → Call β → Prop} {α : Type}

/-- The calls of `set_attr_by_path`.  Which of them are made, and how far it comes, is left open. -/
inductive SetsAttr (path : Path) : {β : Type} → Call β → Prop
  | owner (uid : UInt32) : SetsAttr path (.setOwner path uid)
  | group (gid : UInt32) : SetsAttr path (.setGroup path gid)
  | openFile : SetsAttr path (.openFile
      { create := false, append := false, write := false, read := true, mode := 0o666 } path)
  | setLen (file : Fd) (size : UInt64) : SetsAttr path (.fileSetLen file size)
  | mtime (seconds : Int64) (nanos : UInt32) : SetsAttr path (.setFileMtime path seconds nanos)
  | atime (seconds : Int64) (nanos : UInt32) : SetsAttr path (.setFileAtime path seconds nanos)
  | permissions (mode : UInt32) : SetsAttr path (.setPermissions path mode)

/-- The calls about the entries of the directory `dir`, whose names the system has reported
itself. -/
inductive ReadsEntry (dir : Path) : {β : Type} → Call β → Prop
  | fileType (entry : OsDirEntry) : ReadsEntry dir (.entryFileType dir entry)
  | metadata (entry : OsDirEntry) : ReadsEntry dir (.entryMetadata dir entry)

theorem uses_withLock {l : Lock} {m : LockMode} {x : Handler α} (hacquire : P (.acquire l m))
    (hrelease : P (.release l m)) : Uses P (withLock l m x) ↔ Uses P x :=
  uses_bracket hacquire hrelease

theorem uses_getAttrFromPath {path : Path} :
    Uses P (getAttrFromPath path) ↔ P (.metadata path) := by
  simp [getAttrFromPath]

theorem uses_whenSome {a : Option α} {f : α → Handler Unit} (h : ∀ a, Uses P (f a)) :
    Uses P (whenSome a f) := by
  cases a with
  | none => exact uses_pure ()
  | some a => exact h a

theorem uses_setAttrByPath (path : Path) (attr : SettableAttr) :
    Uses (SetsAttr path) (setAttrByPath path attr) := by
  unfold setAttrByPath
  simp only [uses_bind]
  refine ⟨uses_whenSome fun uid => uses_attempt.2 (.owner uid), fun _ _ =>
    ⟨uses_whenSome fun gid => uses_attempt.2 (.group gid), fun _ _ =>
    ⟨uses_whenSome fun size => ?_, fun _ _ =>
    ⟨uses_whenSome fun mtime => uses_attempt.2 (.mtime _ _), fun _ _ =>
    ⟨uses_whenSome fun atime => uses_attempt.2 (.atime _ _), fun _ _ =>
      uses_whenSome fun mode => uses_attempt.2 (.permissions mode)⟩⟩⟩⟩⟩
  exact uses_bind.2 ⟨uses_attempt.2 .openFile, fun file _ => uses_attempt.2 (.setLen file size)⟩

theorem uses_listEntry (dir : Path) (offset : Nat) (entry : Except IoError OsDirEntry) :
    Uses (ReadsEntry dir) (listEntry dir offset entry) := by
  cases entry with
  | error e => exact uses_pure _
  | ok entry =>
    refine uses_bind.2 ⟨uses_perform.2 (.fileType entry), fun ftype _ => ?_⟩
    cases ftype with
    | error e => exact uses_pure _
    | ok ftype =>
      refine uses_bind.2 ⟨uses_ofOption _ _, fun kind _ =>
        uses_bind.2 ⟨uses_perform.2 (.metadata entry), fun metadata _ => ?_⟩⟩
      cases metadata with
      | error e => exact uses_pure _
      | ok metadata => exact uses_bind.2 ⟨uses_ofOption _ _, fun _ _ => uses_pure _⟩

theorem uses_readLoop {file : Fd} (h : ∀ size, P (.fileRead file size)) (size : Nat) :
    Uses P (readLoop file size) := by
  induction size using Nat.strong_induction_on with
  | h size ih =>
    rw [readLoop, uses_bind]
    refine ⟨uses_attempt.2 (h size), ?_⟩
    rintro ⟨data, hdata⟩ -
    show Uses P (if data.length = 0 then _ else _)
    split
    · exact uses_pure _
    · exact uses_bind.2 ⟨ih _ (by omega), fun _ _ => uses_pure _⟩

/-! ## Calls that take names away or write

The kinds of calls that matter to others: who takes a name away, and who changes what is in a file.
-/

/-- The call takes a name away. -/
def Call.Removes {β : Type} : Call β → Prop
  | .unlink _ | .removeDir _ | .rename _ _ => True
  | _ => False

/-- The call changes what is in a file.  Opening one does not, since no handler truncates. -/
def Call.Writes {β : Type} : Call β → Prop
  | .fileSetLen _ _ | .fileWrite _ _ | .fallocate _ _ _ _ | .copyFileRange _ _ _ _ _ => True
  | _ => False

def Request.Removes : Request → Prop
  | .unlink _ | .rmdir _ | .rename _ => True
  | _ => False

def Request.Writes : Request → Prop
  | .setAttr _ | .write _ | .fallocate _ | .copyFileRange _ => True
  | _ => False

/-! ## Calls without a path

What is done with open files and with the tables. -/

/-- The call is given no path. -/
def NoPath {β : Type} (c : Call β) : Prop := c.paths = []

/-- A call without a path, which writes only if `w`. -/
def FromHandle (w : Prop) {β : Type} (c : Call β) : Prop := NoPath c ∧ (c.Writes → w)

/-- A call of the request `req`, which names its file by a handle.  No path is in it, and what is
taken out of a table is the handle of the request. -/
inductive HandleCall (req : Request) : {β : Type} → Call β → Prop
  | acquire (l : Lock) (m : LockMode) : HandleCall req (.acquire l m)
  | release (l : Lock) (m : LockMode) : HandleCall req (.release l m)
  | fhGet (fh : UInt64) : HandleCall req (.fhGet fh)
  | dhGet (fh : UInt64) : HandleCall req (.dhGet fh)
  | fhRemove (r : ReleaseRequest) (h : req = .release r) : HandleCall req (.fhRemove r.fh)
  | dhRemove (r : ReleasedirRequest) (h : req = .releasedir r) : HandleCall req (.dhRemove r.fh)
  | metadata (file : Fd) : HandleCall req (.fileMetadata file)
  | seek (file : Fd) (pos : SeekFrom) : HandleCall req (.fileSeek file pos)
  | read (file : Fd) (size : Nat) : HandleCall req (.fileRead file size)
  | flush (file : Fd) : HandleCall req (.fileFlush file)
  | fsync (file : Fd) : HandleCall req (.fsync file)
  | write (h : req.Writes) (file : Fd) (data : List UInt8) : HandleCall req (.fileWrite file data)
  | fallocate (h : req.Writes) (file : Fd) (mode : UInt32) (offset length : Int64) :
      HandleCall req (.fallocate file mode offset length)
  | copy (h : req.Writes) (fileIn fileOut : Fd) (offsetIn offsetOut : Int64) (length : UInt64) :
      HandleCall req (.copyFileRange fileIn offsetIn fileOut offsetOut length)

variable {req : Request}

theorem handleCall_withLock {l : Lock} {m : LockMode} {x : Handler α} :
    Uses (HandleCall req) (withLock l m x) ↔ Uses (HandleCall req) x :=
  uses_withLock (.acquire l m) (.release l m)

theorem handleCall_withFile {fh : UInt64} {x : Fd → Handler α}
    (h : ∀ file, Uses (HandleCall req) (x file)) : Uses (HandleCall req) (withFile fh x) := by
  refine handleCall_withLock.2 (uses_bind.2 ⟨uses_perform.2 (.fhGet fh), fun entry _ =>
    uses_bind.2 ⟨uses_ofOption _ _, ?_⟩⟩)
  rintro ⟨file, path⟩ -
  exact handleCall_withLock.2 (h file)

variable {s : Server}

theorem handleCall_readImpl (r : ReadRequest) : Uses (HandleCall req) (s.readImpl r) := by
  refine handleCall_withFile fun file => ?_
  simp only [uses_bind]
  refine ⟨uses_attempt.2 (.seek _ _), fun _ _ => ⟨uses_readLoop (.read _) _, fun _ _ => ?_⟩⟩
  exact ⟨uses_attempt.2 (.metadata _), fun _ _ => uses_pure _⟩

theorem handleCall_writeImpl (r : WriteRequest) :
    Uses (HandleCall (.write r)) (s.writeImpl r) := by
  have hreq : (Request.write r).Writes := trivial
  refine handleCall_withFile fun file => ?_
  simp only [uses_bind]
  refine ⟨uses_attempt.2 (.seek _ _), fun _ _ => ⟨uses_attempt.2 (.write hreq _ _), ?_⟩⟩
  exact fun _ _ => uses_pure _

theorem handleCall_releaseImpl (r : ReleaseRequest) :
    Uses (HandleCall (.release r)) (s.releaseImpl r) := by
  refine handleCall_withLock.2
    (uses_bind.2 ⟨uses_perform.2 (.fhRemove r rfl), fun entry _ => ?_⟩)
  rcases entry with _ | ⟨file, path⟩
  · exact uses_pure ()
  · show Uses _ (if r.flush then _ else _)
    split
    · exact handleCall_withLock.2 (uses_attempt.2 (.flush file))
    · exact uses_pure ()

theorem handleCall_flushImpl (r : FlushRequest) : Uses (HandleCall req) (s.flushImpl r) :=
  handleCall_withFile fun file => uses_attempt.2 (.flush file)

theorem handleCall_fsyncImpl (r : FsyncRequest) : Uses (HandleCall req) (s.fsyncImpl r) := by
  refine handleCall_withFile fun file => uses_bind.2 ⟨?_, fun _ _ => uses_attempt.2 (.fsync file)⟩
  exact handleCall_withLock.2 (uses_attempt.2 (.flush file))

theorem handleCall_fallocateImpl (r : FallocateRequest) :
    Uses (HandleCall (.fallocate r)) (s.fallocateImpl r) := by
  have hreq : (Request.fallocate r).Writes := trivial
  refine handleCall_withFile fun file => ?_
  exact uses_bind.2 ⟨uses_ofOption _ _, fun _ _ => uses_attempt.2 (.fallocate hreq _ _ _ _)⟩

theorem handleCall_lseekImpl (r : LseekRequest) : Uses (HandleCall req) (s.lseekImpl r) := by
  refine handleCall_withFile fun file => ?_
  exact uses_bind.2 ⟨uses_ofOption _ _, fun _ _ => uses_attempt.2 (.seek _ _)⟩

theorem handleCall_copyFileRangeImpl (r : CopyFileRangeRequest) :
    Uses (HandleCall (.copyFileRange r)) (s.copyFileRangeImpl r) := by
  have hreq : (Request.copyFileRange r).Writes := trivial
  refine handleCall_withLock.2 (uses_bind.2 ⟨uses_perform.2 (.fhGet _), fun entry _ =>
    uses_bind.2 ⟨uses_ofOption _ _, ?_⟩⟩)
  rintro ⟨fileIn, pathIn⟩ -
  refine handleCall_withLock.2 (uses_bind.2 ⟨uses_perform.2 (.fhGet _), fun entry _ =>
    uses_bind.2 ⟨uses_ofOption _ _, ?_⟩⟩)
  rintro ⟨fileOut, pathOut⟩ -
  refine handleCall_withLock.2 ?_
  simp only [uses_bind]
  exact ⟨uses_attempt.2 (.flush _), fun _ _ => ⟨uses_attempt.2 (.flush _), fun _ _ =>
    uses_attempt.2 (.copy hreq _ _ _ _ _)⟩⟩

theorem handleCall_releasedirImpl (r : ReleasedirRequest) :
    Uses (HandleCall (.releasedir r)) (s.releasedirImpl r) :=
  handleCall_withLock.2 (uses_perform.2 (.dhRemove r rfl))

theorem handleCall_readdirImpl (r : ReaddirRequest) :
    Uses (HandleCall req) (s.readdirImpl r) := by
  refine handleCall_withLock.2 (uses_bind.2 ⟨uses_perform.2 (.dhGet _), fun entry _ =>
    uses_bind.2 ⟨uses_ofOption _ _, ?_⟩⟩)
  rintro ⟨entries, path⟩ -
  exact handleCall_withLock.2 (uses_pure _)

/-- The requests that name a file by a handle only. -/
def Request.ByHandle : Request → Prop
  | .releasedir _ | .readdir _ | .read _ | .write _ | .release _ | .flush _ | .fsync _
  | .fallocate _ | .lseek _ | .copyFileRange _ => True
  | _ => False

/-- **What names a file by a handle** makes calls about handles and open files only. -/
theorem handleCall_handle (h : req.ByHandle) : Uses (HandleCall req) (s.handle req) := by
  cases req with
  | releasedir r => exact uses_map.2 (handleCall_releasedirImpl r)
  | readdir r => exact uses_map.2 (handleCall_readdirImpl r)
  | read r => exact uses_map.2 (handleCall_readImpl r)
  | write r => exact uses_map.2 (handleCall_writeImpl r)
  | release r => exact uses_map.2 (handleCall_releaseImpl r)
  | flush r => exact uses_map.2 (handleCall_flushImpl r)
  | fsync r => exact uses_map.2 (handleCall_fsyncImpl r)
  | fallocate r => exact uses_map.2 (handleCall_fallocateImpl r)
  | lseek r => exact uses_map.2 (handleCall_lseekImpl r)
  | copyFileRange r => exact uses_map.2 (handleCall_copyFileRangeImpl r)
  | _ => exact h.elim

/-- It hands no path to the operating system, and writes only if it is asked to. -/
theorem fromHandle_handle {req : Request} (h : req.ByHandle) :
    Uses (FromHandle req.Writes) (s.handle req) := by
  refine (handleCall_handle h).mono fun c hc => ?_
  cases hc with
  | write hreq => exact ⟨rfl, fun _ => hreq⟩
  | fallocate hreq => exact ⟨rfl, fun _ => hreq⟩
  | copy hreq => exact ⟨rfl, fun _ => hreq⟩
  | _ => exact ⟨rfl, False.elim⟩

theorem noPath_handle {req : Request} (h : req.ByHandle) : Uses NoPath (s.handle req) :=
  (fromHandle_handle h).mono fun _ hc => hc.1

/-! ## Calls that look

What is done for an answer only. -/

/-- The calls of a request that looks at the attributes of a file. -/
inductive Inspects : {β : Type} → Call β → Prop
  | acquire (l : Lock) (m : LockMode) : Inspects (.acquire l m)
  | release (l : Lock) (m : LockMode) : Inspects (.release l m)
  | fhGet (fh : UInt64) : Inspects (.fhGet fh)
  | file (file : Fd) : Inspects (.fileMetadata file)
  | path (path : Path) : Inspects (.metadata path)

theorem inspects_getAttrImpl (r : GetAttrRequest) : Uses Inspects (s.getAttrImpl r) := by
  rw [getAttrImpl]
  split
  · refine (uses_withLock (.acquire _ _) (.release _ _)).2 (uses_bind.2 ⟨uses_perform.2 (.fhGet _),
      fun entry _ => uses_bind.2 ⟨uses_ofOption _ _, ?_⟩⟩)
    rintro ⟨file, path⟩ -
    exact uses_bind.2 ⟨(uses_withLock (.acquire _ _) (.release _ _)).2 (uses_attempt.2 (.file file)),
      fun _ _ => uses_ofOption _ _⟩
  · exact uses_getAttrFromPath.2 (.path _)
  · exact uses_throw _

theorem uses_setAttrImpl (r : SetAttrRequest) :
    Uses (fun c => Inspects c ∨ ∃ path, SetsAttr path c) (s.setAttrImpl r) := by
  have hset : ∀ path attr, Uses (fun c => Inspects c ∨ ∃ path, SetsAttr path c)
      (setAttrByPath path attr) :=
    fun path attr => (uses_setAttrByPath path attr).mono fun c hc => Or.inr ⟨path, hc⟩
  rw [setAttrImpl]
  split
  · exact uses_throw _
  · split
    · refine (uses_withLock (Or.inl (.acquire _ _)) (Or.inl (.release _ _))).2
        (uses_bind.2 ⟨uses_perform.2 (Or.inl (.fhGet _)), fun entry _ =>
        uses_bind.2 ⟨uses_ofOption _ _, ?_⟩⟩)
      rintro ⟨file, path⟩ -
      refine (uses_withLock (Or.inl (.acquire _ _)) (Or.inl (.release _ _))).2
        (uses_bind.2 ⟨hset _ _, fun _ _ => ?_⟩)
      exact uses_bind.2 ⟨uses_attempt.2 (Or.inl (.file file)), fun _ _ => uses_ofOption _ _⟩
    · refine uses_bind.2 ⟨hset _ _, fun _ _ => ?_⟩
      exact uses_getAttrFromPath.2 (Or.inl (.path _))
    · exact uses_throw _

/-! ## All calls of a request

The handlers as a whole, for whatever kind of call. -/

/-- A call that `req` may make: it takes a name away, or writes, only if `req` is about that. -/
def Request.Makes (req : Request) {β : Type} (c : Call β) : Prop :=
  (c.Removes → req.Removes) ∧ (c.Writes → req.Writes)

theorem makes_of_fromHandle {β : Type} (c : Call β) (h : FromHandle req.Writes c) :
    req.Makes c := by
  refine ⟨fun hremoves => ?_, h.2⟩
  cases c with
  | unlink path => exact absurd h.1 (by simp [NoPath, Call.paths])
  | removeDir path => exact absurd h.1 (by simp [NoPath, Call.paths])
  | rename origin path => exact absurd h.1 (by simp [NoPath, Call.paths])
  | _ => contradiction

theorem makes_of_inspects {β : Type} (c : Call β) (h : Inspects c) : req.Makes c := by
  cases h <;> exact ⟨False.elim, False.elim⟩

theorem makes_withLock {l : Lock} {m : LockMode} {x : Handler α} :
    Uses req.Makes (withLock l m x) ↔ Uses req.Makes x :=
  uses_withLock ⟨False.elim, False.elim⟩ ⟨False.elim, False.elim⟩

theorem makes_getAttrFromPath (path : Path) : Uses req.Makes (getAttrFromPath path) :=
  uses_getAttrFromPath.2 ⟨False.elim, False.elim⟩

theorem makes_listEntry (dir : Path) (offset : Nat) (entry : Except IoError OsDirEntry) :
    Uses req.Makes (listEntry dir offset entry) := by
  refine (uses_listEntry dir offset entry).mono fun c hc => ?_
  cases hc <;> exact ⟨False.elim, False.elim⟩

theorem makes_getAttrImpl (r : GetAttrRequest) : Uses req.Makes (s.getAttrImpl r) :=
  (inspects_getAttrImpl r).mono makes_of_inspects

theorem makes_setAttrImpl (hreq : req.Writes) (r : SetAttrRequest) :
    Uses req.Makes (s.setAttrImpl r) := by
  refine (uses_setAttrImpl r).mono fun c hc => ?_
  rcases hc with hc | ⟨path, hc⟩
  · exact makes_of_inspects c hc
  · cases hc <;> exact ⟨False.elim, fun _ => hreq⟩

theorem makes_opendirImpl (r : OpendirRequest) : Uses req.Makes (s.opendirImpl r) := by
  refine uses_bind.2 ⟨uses_perform.2 ⟨False.elim, False.elim⟩, fun fh _ =>
    uses_bind.2 ⟨uses_attempt.2 ⟨False.elim, False.elim⟩, fun readdir _ =>
    uses_bind.2 ⟨uses_mapM fun entry _ => makes_listEntry _ _ _, fun inner _ =>
    uses_bind.2 ⟨?_, fun listing _ => ?_⟩⟩⟩⟩
  · rw [withSpecials]
    split
    · exact uses_pure _
    · simp [makes_getAttrFromPath]
  · exact uses_bind.2 ⟨makes_withLock.2 (uses_perform.2 ⟨False.elim, False.elim⟩),
      fun _ _ => uses_pure _⟩

/-- A call that neither takes a name away nor writes, and a look at a path. -/
theorem makes_look {ε : Type} {err : ε → Failure} {c : Call (Except ε Unit)} (hc : req.Makes c)
    (path : Path) : Uses req.Makes ((attempt err c : Handler Unit) >>= fun _ => getAttrFromPath path) :=
  uses_bind.2 ⟨uses_attempt.2 hc, fun _ _ => makes_getAttrFromPath _⟩

/-- **What a request is not about, its handler does not do.**  All handlers are gone through for
this once. -/
theorem makes_handle (s : Server) (req : Request) : Uses req.Makes (s.handle req) := by
  have hhandle : req.ByHandle → Uses req.Makes (s.handle req) := fun hreq =>
    (fromHandle_handle hreq).mono makes_of_fromHandle
  cases req with
  | unlink req => exact uses_map.2 (uses_attempt.2 ⟨id, False.elim⟩)
  | rmdir req => exact uses_map.2 (uses_attempt.2 ⟨id, False.elim⟩)
  | rename req => exact uses_map.2 (uses_attempt.2 ⟨id, False.elim⟩)
  | lookup req => exact uses_map.2 (makes_getAttrFromPath _)
  | getAttr req => exact uses_map.2 (makes_getAttrImpl req)
  | setAttr req =>
    have hwrites : (Request.setAttr req).Writes := trivial
    exact uses_map.2 (makes_setAttrImpl hwrites req)
  | mkdir req => exact uses_map.2 (makes_look ⟨False.elim, False.elim⟩ _)
  | symlink req => exact uses_map.2 (makes_look ⟨False.elim, False.elim⟩ _)
  | opendir req => exact uses_map.2 (makes_opendirImpl req)
  | «open» req =>
    refine uses_map.2 ?_
    simp [openImpl, makes_withLock, Request.Makes, Call.Removes, Call.Writes]
  | access req => exact uses_map.2 (uses_attempt.2 ⟨False.elim, False.elim⟩)
  | create req =>
    refine uses_map.2 ?_
    simp [createImpl, makes_withLock, Request.Makes, Call.Removes, Call.Writes]
  | readlink req =>
    exact uses_map.2 (uses_bind.2 ⟨uses_attempt.2 ⟨False.elim, False.elim⟩, fun _ _ => uses_pure _⟩)
  | _ => exact hhandle trivial

end Distfs
end DistributedPrograms
