import DistributedPrograms.Distfs.RealPath
import DistributedPrograms.Distfs.Uses

/-!
# What stays below the root

A request is `Contained` if every path that its handler hands to the operating system, in any run,
is `Under` the root.  `Request.StaysInside` is the exact condition: a name joined to a resolved
parent must not climb, `opendir` must not be asked for the root by another path than `/`, and
`readlink`, which resolves nothing, must be given a path that is below the root already.

The statement is about spellings: `Under` compares components, and what a link on the way leads to
is a question of its own.  It quantifies over all answers, so it holds for any operating system, and
it counts a path that is handed over in a run that then fails.

* `under_join_realPath` is the fact behind most cases: a name under a resolved parent stays inside
  exactly if it does not climb (`NameStays`).
* The handlers are gone through once, each with one lemma `allows_…` that is an equivalence or has
  no condition.
* `opendir` is the case of its own: for `..` it looks at the parent of the resolved path, which for
  the root is outside; the test that is to prevent this compares the path of the request with `/` as
  it is spelled.
* `contained_iff` has them all.
-/

set_option autoImplicit false

namespace DistributedPrograms
namespace Distfs

open UnixPath Fallible Server

/-- Every path of the call lies under the root. -/
def Server.Allows (s : Server) {β : Type} (c : Call β) : Prop := ∀ p ∈ c.paths, Under s.rootPath p

/-- No run of the handler hands a path outside the root to the operating system.  All answers count,
also in a run that is answered an error in the end. -/
def Server.Contained (s : Server) (req : Request) : Prop := Uses s.Allows (s.handle req)

/-- A name that does not lead out of a directory below the root: a relative one without `..`, or
an absolute one that is below the root itself. -/
def NameStays (root name : Path) : Prop :=
  if isAbsolute name then Under root name else [dot, dot] ∉ name.splitOn sep

instance (root name : Path) : Decidable (NameStays root name) := by
  unfold NameStays; infer_instance

/-- The requests whose paths stay below the root.  It is a condition on the strings of the request
and the spelling of the root, and on nothing else. -/
def Request.StaysInside (s : Server) : Request → Prop
  | .lookup req => NameStays s.rootPath (osStr req.name)
  | .mkdir req => NameStays s.rootPath (osStr req.name)
  | .unlink req => NameStays s.rootPath (osStr req.name)
  | .symlink req => NameStays s.rootPath (osStr req.name)
  | .rmdir req => NameStays s.rootPath (osStr req.name)
  | .create req => NameStays s.rootPath (osStr req.name)
  | .rename req =>
    NameStays s.rootPath (osStr req.originName) ∧ NameStays s.rootPath (osStr req.name)
  | .opendir req =>
    req.path = "/" ∨ stackOf (osStr req.path) ≠ [] ∨ s.rootPath = [sep]
  | .readlink req => Under s.rootPath (osStr req.path)
  | .getAttr _ | .setAttr _ | .open _ | .access _ => True
  | .releasedir _ | .readdir _ | .read _ | .write _ | .release _ | .flush _ | .fsync _
  | .fallocate _ | .lseek _ | .copyFileRange _ => True

variable {s : Server} {α : Type}

/-! ## The parts of the handlers

What several handlers share, each with the paths that it uses. -/

/-- **A name under a resolved parent stays inside exactly if it does not climb.**  An absolute name
replaces the parent, and has to lie under the root itself. -/
theorem under_join_realPath {p name : Path} :
    Under s.rootPath (join (s.realPath p) name) ↔ NameStays s.rootPath name := by
  unfold NameStays
  by_cases habs : isAbsolute name = true
  · rw [if_pos habs, join_of_isAbsolute habs]
  · rw [if_neg habs,
      under_join (s.under_realPath p) (s.isAbsolute_realPath p) (by simpa using habs),
      parentDir_mem_body]

theorem allows_of_noPath {β : Type} (c : Call β) (h : NoPath c) : s.Allows c := by
  intro p hp
  rw [h] at hp
  contradiction

theorem allows_getAttrFromPath {path : Path} :
    Uses s.Allows (getAttrFromPath path) ↔ Under s.rootPath path := by
  rw [uses_getAttrFromPath]
  exact List.forall_mem_singleton

theorem allows_setAttrByPath {path : Path} {attr : SettableAttr} (h : Under s.rootPath path) :
    Uses s.Allows (setAttrByPath path attr) := by
  refine (uses_setAttrByPath path attr).mono fun c hc => ?_
  cases hc with
  | setLen file size => exact allows_of_noPath _ rfl
  | _ => exact List.forall_mem_singleton.2 h

/-- The entries of a directory below the root are below the root. -/
theorem under_entry {path : Path} (entry : OsDirEntry) :
    Under s.rootPath (join (s.realPath path) entry.fileName) := by
  rw [under_join (s.under_realPath path) (s.isAbsolute_realPath path)
    (isAbsolute_of_validName entry.valid), body_of_validName entry.valid]
  simp

theorem allows_listEntry (path : Path) (offset : Nat) (entry : Except IoError OsDirEntry) :
    Uses s.Allows (listEntry (s.realPath path) offset entry) := by
  refine (uses_listEntry _ offset entry).mono fun c hc => ?_
  cases hc with
  | fileType entry => exact List.forall_mem_singleton.2 (under_entry entry)
  | metadata entry => exact List.forall_mem_singleton.2 (under_entry entry)

theorem allows_withLock {l : Lock} {m : LockMode} {x : Handler α} :
    Uses s.Allows (withLock l m x) ↔ Uses s.Allows x :=
  uses_withLock (allows_of_noPath _ rfl) (allows_of_noPath _ rfl)

/-! ## The handlers

One lemma for each handler, in the order of the source.  Most need no condition, since `real_path`
stays below the root. -/

theorem allows_getAttrImpl (req : GetAttrRequest) : Uses s.Allows (s.getAttrImpl req) := by
  unfold getAttrImpl
  split
  · rw [allows_withLock]
    simp [allows_withLock, Server.Allows, Call.paths]
  · exact allows_getAttrFromPath.2 (s.under_realPath _)
  · exact uses_throw _

theorem allows_setAttrImpl (req : SetAttrRequest) : Uses s.Allows (s.setAttrImpl req) := by
  unfold setAttrImpl
  split
  · exact uses_throw _
  · split
    · rw [allows_withLock]
      simp only [uses_bind]
      refine ⟨by simp [Server.Allows, Call.paths], fun _ _ => ⟨uses_ofOption _ _, ?_⟩⟩
      rintro ⟨file, path⟩ -
      rw [allows_withLock, uses_bind]
      refine ⟨allows_setAttrByPath (s.under_realPath path), fun _ _ => ?_⟩
      simp [Server.Allows, Call.paths]
    · rw [uses_bind]
      exact ⟨allows_setAttrByPath (s.under_realPath _),
        fun _ _ => allows_getAttrFromPath.2 (s.under_realPath _)⟩
    · exact uses_throw _

theorem allows_openImpl (req : OpenRequest) : Uses s.Allows (s.openImpl req) := by
  have hpath := s.under_realPath (osStr req.path)
  simp [openImpl, allows_withLock, Server.Allows, Call.paths, hpath]

theorem allows_accessImpl (req : AccessRequest) : Uses s.Allows (s.accessImpl req) := by
  have hpath := s.under_realPath (osStr req.path)
  simpa [accessImpl, Server.Allows, Call.paths] using hpath

/-- The directory above the resolved path, which `opendir` looks at for its entry `..`. -/
theorem under_parent_realPath {path : Path} :
    (∀ up, parent (s.realPath path) = some up → Under s.rootPath up) ↔
      stackOf path ≠ [] ∨ s.rootPath = [sep] := by
  have hstack := validName_stackOf path
  rw [realPath_eq]
  by_cases hne : stackOf path = []
  · rw [hne, below_nil, rootPath_eq_sep]
    have hparent := parent_renderAbs s.validName_rootNames
    rw [s.canonical] at hparent
    rw [hparent]
    by_cases hroot : names s.rootPath = []
    · simp [hroot]
    · have hnot := not_under_dropLast s.validName_rootNames hroot
      rw [s.canonical] at hnot
      simp [hroot, hnot]
  · rw [s.parent_below hstack hne]
    simp only [Option.some.injEq, forall_eq', ne_eq, hne, not_false_eq_true, true_or, iff_true]
    exact s.under_below fun n hn => hstack n (List.mem_of_mem_dropLast hn)

/-- Some directory can be looked at with success. -/
theorem exists_returns_getAttrFromPath (path : Path) :
    ∃ attr, Returns (getAttrFromPath path) attr := by
  let metadata : Metadata := ⟨0, 0, 0, 0, 0, 0o040000, 0, 0, 0, 0, 0⟩
  have hsome : (metadataToGrpc metadata).isSome := by decide
  obtain ⟨attr, hattr⟩ := Option.isSome_iff_exists.1 hsome
  exact ⟨attr, returns_bind.2 ⟨metadata, returns_attempt, returns_ofOption.2 hattr⟩⟩

theorem allows_withSpecials {reqPath : String} {path : Path} (inner : List Entry) :
    Uses s.Allows (withSpecials reqPath (s.realPath path) inner) ↔
      reqPath = "/" ∨ ∀ up, parent (s.realPath path) = some up → Under s.rootPath up := by
  unfold withSpecials
  split
  · next hroot => simp [hroot]
  · next hroot =>
    simp only [uses_bind, hroot, false_or]
    constructor
    · rintro ⟨-, h⟩ up hup
      obtain ⟨here, hhere⟩ := exists_returns_getAttrFromPath (s.realPath path)
      exact allows_getAttrFromPath.1 ((h here hhere).2 up (returns_ofOption.2 hup)).1
    · intro h
      refine ⟨allows_getAttrFromPath.2 (s.under_realPath _), fun here _ =>
        ⟨uses_ofOption _ _, fun up hup => ⟨?_, fun _ _ => uses_pure _⟩⟩⟩
      exact allows_getAttrFromPath.2 (h up (returns_ofOption.1 hup))

theorem allows_opendirImpl {req : OpendirRequest} :
    Uses s.Allows (s.opendirImpl req) ↔
      req.path = "/" ∨ stackOf (osStr req.path) ≠ [] ∨ s.rootPath = [sep] := by
  rw [← under_parent_realPath]
  unfold opendirImpl
  simp only [uses_bind, allows_withSpecials]
  constructor
  · rintro ⟨-, h⟩
    -- the run that finds the directory empty
    have hempty := (h 0 (returns_perform _ _)).2 [] returns_attempt
    exact (hempty.2 [] (by simp)).1
  · intro h
    refine ⟨by simp [Server.Allows, Call.paths], fun fh _ => ?_⟩
    refine ⟨by simpa [Server.Allows, Call.paths] using s.under_realPath _, fun readdir _ => ?_⟩
    refine ⟨uses_mapM fun entry _ => allows_listEntry _ _ _, fun inner _ => ⟨h, fun _ _ => ?_⟩⟩
    exact ⟨allows_withLock.2 (by simp [Server.Allows, Call.paths]), fun _ _ => uses_pure _⟩

/-! ## The handlers that join a name

A request with two names stays inside if both do. -/

theorem allows_lookupImpl {req : LookupRequest} :
    Uses s.Allows (s.lookupImpl req) ↔ NameStays s.rootPath (osStr req.name) := by
  rw [lookupImpl, allows_getAttrFromPath, under_join_realPath]

theorem allows_mkdirImpl {req : MkdirRequest} :
    Uses s.Allows (s.mkdirImpl req) ↔ NameStays s.rootPath (osStr req.name) := by
  rw [← under_join_realPath (p := osStr req.parent)]
  simp [mkdirImpl, allows_getAttrFromPath, Server.Allows, Call.paths]

theorem allows_unlinkImpl {req : UnlinkRequest} :
    Uses s.Allows (s.unlinkImpl req) ↔ NameStays s.rootPath (osStr req.name) := by
  rw [← under_join_realPath (p := osStr req.parent)]
  simp [unlinkImpl, Server.Allows, Call.paths]

theorem allows_symlinkImpl {req : SymlinkRequest} :
    Uses s.Allows (s.symlinkImpl req) ↔ NameStays s.rootPath (osStr req.name) := by
  have hsource := s.under_realPath (osStr req.linkPath)
  rw [← under_join_realPath (p := osStr req.parent)]
  simp [symlinkImpl, allows_getAttrFromPath, Server.Allows, Call.paths, hsource]

theorem allows_rmdirImpl {req : RmdirRequest} :
    Uses s.Allows (s.rmdirImpl req) ↔ NameStays s.rootPath (osStr req.name) := by
  rw [← under_join_realPath (p := osStr req.parent)]
  simp [rmdirImpl, Server.Allows, Call.paths]

theorem allows_renameImpl {req : RenameRequest} :
    Uses s.Allows (s.renameImpl req) ↔
      NameStays s.rootPath (osStr req.originName) ∧ NameStays s.rootPath (osStr req.name) := by
  rw [← under_join_realPath (p := osStr req.originParent),
    ← under_join_realPath (p := osStr req.parent)]
  simp [renameImpl, Server.Allows, Call.paths]

theorem allows_createImpl {req : CreateRequest} :
    Uses s.Allows (s.createImpl req) ↔ NameStays s.rootPath (osStr req.name) := by
  rw [← under_join_realPath (p := osStr req.parent)]
  simp [createImpl, allows_withLock, Server.Allows, Call.paths]

/-- `readlink` passes on what it is given. -/
theorem allows_readlinkImpl {req : ReadlinkRequest} :
    Uses s.Allows (s.readlinkImpl req) ↔ Under s.rootPath (osStr req.path) := by
  simp [readlinkImpl, Server.Allows, Call.paths]

/-! ## Containment

The requests, each with the condition of its handler. -/

/-- **When a request stays below the root.**  Of the handlers that take a path without a name,
`get_attr`, `set_attr`, `open` and `access` are always contained, and so are the handlers that take
only a handle; each handler that joins a name is contained exactly if the name does not climb. -/
theorem contained_iff (s : Server) (req : Request) : s.Contained req ↔ req.StaysInside s := by
  unfold Server.Contained
  have hhandle : req.ByHandle → Uses s.Allows (s.handle req) := fun h =>
    (noPath_handle h).mono allows_of_noPath
  cases req with
  | lookup req => exact uses_map.trans allows_lookupImpl
  | getAttr req => exact uses_map.trans (iff_true_intro (allows_getAttrImpl req))
  | setAttr req => exact uses_map.trans (iff_true_intro (allows_setAttrImpl req))
  | mkdir req => exact uses_map.trans allows_mkdirImpl
  | unlink req => exact uses_map.trans allows_unlinkImpl
  | symlink req => exact uses_map.trans allows_symlinkImpl
  | rmdir req => exact uses_map.trans allows_rmdirImpl
  | rename req => exact uses_map.trans allows_renameImpl
  | opendir req => exact uses_map.trans allows_opendirImpl
  | «open» req => exact uses_map.trans (iff_true_intro (allows_openImpl req))
  | create req => exact uses_map.trans allows_createImpl
  | access req => exact uses_map.trans (iff_true_intro (allows_accessImpl req))
  | readlink req => exact uses_map.trans allows_readlinkImpl
  | _ => exact iff_true_intro (hhandle trivial)

/-- The server with root `/srv`. -/
def srv : Server := ⟨osStr "/srv", by decide⟩

/-- Asked to unlink `../x` in `/`, the server unlinks `/srv/../x`. -/
theorem unlink_escapes_root : ¬∀ (s : Server) (req : Request), s.Contained req := by
  intro h
  have hunlink := uses_map.1 (h srv (.unlink ⟨"/", "../x"⟩))
  rw [unlinkImpl, uses_attempt] at hunlink
  exact absurd (hunlink _ List.mem_cons_self) (by decide)

end Distfs
end DistributedPrograms
