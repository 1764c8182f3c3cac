import Mathlib.Data.List.Pairwise
import DistributedPrograms.Distfs.Client
import DistributedPrograms.Distfs.Names
import DistributedPrograms.Distfs.Posix
import DistributedPrograms.Distfs.RealPath

/-!
# Looking up what is listed

`opendir` takes the attribute of an entry from the entry, `lookup` follows the path of its name, and
between the two the name has been through `to_string_lossy`.  They agree on a file exactly if it is
no symbolic link, its name is UTF-8, and its path is not too long for the operating system: an entry
may have a name that its path has no room for.

* `ends_listing` says what the stream of a directory is listed as, entry by entry, and `of_opendir`
  what `opendir` then stores under its handle.  An entry shows its name and its attribute, or it is
  an error.
* `ends_readdirplus` is what the client is answered about that handle, from any offset, and
  `ends_lookup` what `lookup` answers about a name.
* `Server.ListingAgrees` is the statement: each ordinary entry of the answer is looked up with the
  attribute it is listed with, and no name is listed twice.  The two special entries are left out.
* `Server.ListsPlainly` is the condition on the directory: the names that may be looked up are
  UTF-8, their paths are not too long, and none of them is a link.

A file that is not plain may still be looked up under the string of another one, with that one's
attribute.  Then the two have the same string, and the name is listed twice; this is why the
statement has both halves (`plain_of_looksUp`).
-/

set_option autoImplicit false

namespace DistributedPrograms
namespace Distfs

open UnixPath UnixPath.FileTree Fallible

universe u

/-! ## What is listed

The listing as a function of the tree, so that two requests can be compared that look at the same
tree. -/

/-- The entry, unless it is an error. -/
def Entry.dirEntry (e : Entry) : Option DirEntry :=
  match e.inner with
  | some (.entry d) => some d
  | _ => none

/-- The entries other than `.` and `..`.  Errors in the listing are left out as well. -/
def ordinary (listing : List Entry) : List DirEntry :=
  (listing.filterMap Entry.dirEntry).filter fun d => d.name ≠ "." ∧ d.name ≠ ".."

/-- Looking up `d` answers the attribute that it is listed with, in whatever state the tables of the
server are. -/
def Server.LooksUp (s : Server) (rules : Rules) {P : Type u} [DecidableEq P] (p : P) (parent : Path)
    (tree : FileTree) (d : DirEntry) : Prop :=
  ∃ a, d.attr = some a ∧ ∀ (w : World P Posix) r w', w.os.tree = tree →
    (Ends (World.semantics (posix rules)) p (s.handle (Client.lookup parent (osStr d.name))) w r w' ↔
      w' = w ∧ r = .ok (.attr 1000 a))

/-- What `readdirplus` answers about the directory that was opened as `fh`: each ordinary entry is
looked up with the attribute it is listed with, and no name is listed twice. -/
def Server.ListingAgrees (s : Server) (rules : Rules) {P : Type u} [DecidableEq P] (p : P)
    (parent : Path) (fh : UInt64) (w : World P Posix) : Prop :=
  ∀ offset lockOwner entries w', Ends (World.semantics (posix rules)) p
      (s.handle (Client.readdirplus parent fh offset lockOwner)) w (.ok (.entries entries)) w' →
    (∀ d ∈ ordinary entries, s.LooksUp rules p parent w.os.tree d) ∧
      ((ordinary entries).map DirEntry.name).Nodup

/-- The directory has no entry that `lookup` misses: the names that may be looked up are UTF-8,
their paths are not too long, and none of them is a link. -/
def Server.ListsPlainly (s : Server) (rules : Rules) (parent : Path) (t : FileTree) : Prop :=
  let dir := s.realPath (osStr (toStringLossy parent))
  ∀ i f d, t.reach rules dir = .ok (i, f) → f.content = .directory d →
    rules.search f.rights = true → ∀ n j g, (n, j) ∈ d.entries → t.node j = some g →
      ¬g.IsLink ∧ IsUtf8 n.1 ∧ (join dir n.1).length < maxPath

section

variable {P : Type u} [DecidableEq P] {rules : Rules} {p : P} {s : Server} {w w' : World P Posix}
  {dir : Path} {i j : Ino} {f : Inode} {d : Directory} {n : Name}

/-- What is shown of a file `j` under the name `n` in a directory that may be searched. -/
def shownEntry (t : FileTree) (searchable : Bool) (e : Name × Ino) : Option (String × Option Attr) :=
  if searchable then (t.node e.2).map fun g => (toStringLossy e.1.1, some (attrOf g)) else none

/-- What an entry shows. -/
def Entry.shown (e : Entry) : Option (String × Option Attr) :=
  e.dirEntry.map fun d => (d.name, d.attr)

theorem entry_of_mem {t : FileTree} (hnode : t.node i = some f) (hd : f.content = .directory d)
    (hmem : (n, j) ∈ d.entries) :
    t.entry i n = match t.node j with
      | none => .error Errno.ENOENT
      | some g => .ok (j, g) := by
  have hfind : t.find i n = some j := (find_of_dir hnode hd).trans (find_eq_some.2 hmem)
  cases hj : t.node j <;> simp only [entry, hfind, hj]

/-- **What `opendir` makes of an entry.**  Its attribute is that of the entry itself, so a link is
listed as a link. -/
theorem ends_listEntry {offset : Nat} {e : Entry}
    (hreach : w.os.tree.reach rules dir = .ok (i, f)) (hd : f.content = .directory d)
    (hmem : (n, j) ∈ d.entries)
    (h : Ends (World.semantics (posix rules)) p (Server.listEntry dir offset (.ok ⟨n.1, n.2.1⟩)) w
      (.ok e) w') :
    w' = w ∧ e.shown = shownEntry w.os.tree (rules.search f.rights) (n, j) := by
  have hentry := entry_of_mem (reach_eq_ok.1 hreach).2 hd hmem
  have htype : Posix.entryType rules w.os.tree dir n.1 =
      (w.os.tree.entry i n).map fun x => ⟨x.2.content.typeBits⟩ := by
    rw [Posix.entryType, hreach]
    refine (dif_pos n.2).trans ?_
    cases w.os.tree.entry i n <;> rfl
  have hmeta : Posix.entryOf rules w.os.tree dir n.1 = (do
      refuseIf (!rules.search f.rights) Errno.EACCES
      let x ← w.os.tree.entry i n
      return x.2) := by
    rw [Posix.entryOf, hreach]
    exact congrArg (refuseIf _ _ >>= ·) (funext fun _ => dif_pos n.2)
  have hexecType : ∀ o, (World.semantics (posix rules)).exec p o
      (.entryFileType dir ⟨n.1, n.2.1⟩) w =
        some ((Posix.entryType rules w.os.tree dir n.1).mapError fun e => ⟨some e⟩, w) :=
    fun o => rfl
  have hexecMeta : ∀ o, (World.semantics (posix rules)).exec p o
      (.entryMetadata dir ⟨n.1, n.2.1⟩) w =
        some (((Posix.entryOf rules w.os.tree dir n.1).map metadataOf).mapError fun e => ⟨some e⟩,
          w) :=
    fun o => rfl
  rw [Server.listEntry, ends_bind_of_ok fun r s₁ => ends_perform_of hexecType, htype, hentry] at h
  cases hnode : w.os.tree.node j with
  | none =>
    simp only [hnode] at h
    obtain ⟨he, rfl⟩ := ends_pure.1 h
    obtain rfl := Except.ok.inj he
    refine ⟨rfl, ?_⟩
    rw [shownEntry, hnode, Option.map_none, ite_self]
    rfl
  | some g =>
    rw [hnode] at hentry
    simp only [hnode] at h
    obtain ⟨kind, w₁, hkind, h⟩ := ends_bind_ok.1 h
    obtain ⟨-, rfl⟩ := ends_ofOption.1 hkind
    rw [ends_bind_of_ok fun r s₁ => ends_perform_of hexecMeta, hmeta, hentry] at h
    rw [shownEntry, hnode]
    cases hsearch : rules.search f.rights with
    | false =>
      rw [hsearch] at h
      obtain ⟨he, rfl⟩ := ends_pure.1 h
      obtain rfl := Except.ok.inj he
      exact ⟨rfl, rfl⟩
    | true =>
      rw [hsearch] at h
      obtain ⟨attr, w₁, hattr, h⟩ := ends_bind_ok.1 h
      obtain ⟨hok, rfl⟩ := ends_ofOption.1 hattr
      obtain ⟨he, rfl⟩ := ends_pure.1 h
      obtain rfl := Except.ok.inj he
      refine ⟨rfl, ?_⟩
      replace hok :
          (metadataToGrpc (metadataOf g)).elim (.error Failure.panic) Except.ok = .ok attr := hok
      rw [metadataToGrpc_metadataOf] at hok
      obtain rfl := Except.ok.inj hok
      rfl

theorem readDir_eq_ok {t : FileTree} {entries : List (Except IoError OsDirEntry)}
    (h : Posix.readDir rules t dir = .ok entries) :
    ∃ i f d, t.reach rules dir = .ok (i, f) ∧ f.content = .directory d ∧
      entries = d.entries.map fun e => .ok ⟨e.1.1, e.1.2.1⟩ := by
  obtain ⟨⟨i, f⟩, hreach, h⟩ := bind_eq_ok.1 h
  obtain ⟨content, rights, stat, nlink, rdev, blksize⟩ := f
  cases content with
  | directory d =>
    obtain ⟨⟨⟩, -, h⟩ := bind_eq_ok.1 h
    exact ⟨i, _, d, hreach, rfl, (Except.ok.inj h).symm⟩
  | _ => contradiction

/-- **What the stream of a directory is listed as.** -/
theorem ends_listing {inner : List Entry} (hreach : w.os.tree.reach rules dir = .ok (i, f))
    (hd : f.content = .directory d)
    (h : Ends (World.semantics (posix rules)) p
      ((d.entries.map fun e => (.ok ⟨e.1.1, e.1.2.1⟩ : Except IoError OsDirEntry)).zipIdx.mapM
        fun (entry, offset) => Server.listEntry dir offset entry) w (.ok inner) w') :
    w' = w ∧ inner.map Entry.shown =
      d.entries.map (shownEntry w.os.tree (rules.search f.rights)) := by
  have hentry : ∀ x ∈ (d.entries.map fun e =>
      (.ok ⟨e.1.1, e.1.2.1⟩ : Except IoError OsDirEntry)).zipIdx, ∀ b w₁,
      Ends (World.semantics (posix rules)) p (Server.listEntry dir x.2 x.1) w (.ok b) w₁ →
        w₁ = w := by
    rintro ⟨x, offset⟩ hx b w₁ hends
    obtain ⟨e, he, rfl⟩ := List.mem_map.1 (List.fst_mem_of_mem_zipIdx hx)
    exact (ends_listEntry hreach hd he hends).1
  obtain ⟨rfl, hall⟩ := ends_mapM hentry h
  obtain ⟨hlen, hget⟩ := List.forall₂_iff_get.1 hall
  rw [List.length_zipIdx, List.length_map] at hlen
  refine ⟨rfl, List.ext_getElem (by simp [hlen]) fun k hk hk' => ?_⟩
  rw [List.length_map] at hk hk'
  have hends := hget k (by simpa using hk') hk
  simp only [List.get_eq_getElem, List.getElem_zipIdx, List.getElem_map] at hends
  rw [List.getElem_map, List.getElem_map]
  exact (ends_listEntry hreach hd (List.getElem_mem hk') hends).2

theorem shown_shiftEntry (e : Entry) : (Server.shiftEntry e).shown = e.shown := by
  obtain ⟨inner⟩ := e
  rcases inner with _ | ⟨d | err⟩ <;> rfl

/-- A file is never shown as `.` or `..`. -/
theorem name_of_shownEntry {t : FileTree} {searchable : Bool} {e : Name × Ino}
    {x : String × Option Attr} (h : shownEntry t searchable e = some x) :
    x.1 ≠ "." ∧ x.1 ≠ ".." := by
  have hname : x.1 = toStringLossy e.1.1 := by
    rw [shownEntry] at h
    split at h
    · obtain ⟨g, -, rfl⟩ := Option.map_eq_some_iff.1 h
      rfl
    · contradiction
  obtain ⟨⟨-, hdot, hdots, -⟩, -⟩ := fileName_lossy e.1.2
  rw [hname]
  constructor
  · intro heq
    exact hdot (by rw [heq]; decide)
  · intro heq
    exact hdots (by rw [heq]; decide)

theorem map_ordinary (listing : List Entry) :
    (ordinary listing).map (fun d => (d.name, d.attr)) =
      (listing.filterMap Entry.shown).filter fun x => x.1 ≠ "." ∧ x.1 ≠ ".." := by
  have hshown : listing.filterMap Entry.shown =
      (listing.filterMap Entry.dirEntry).map fun d => (d.name, d.attr) :=
    List.map_filterMap.symm
  rw [hshown, List.filter_map]
  rfl

/-- The special entries are left out, and nothing else. -/
theorem ordinary_withSpecials {reqPath : String} {inner listing : List Entry} {t : FileTree}
    {searchable : Bool} {entries : List (Name × Ino)}
    (hinner : inner.map Entry.shown = entries.map (shownEntry t searchable))
    (h : Ends (World.semantics (posix rules)) p (Server.withSpecials reqPath dir inner) w
      (.ok listing) w') :
    w' = w ∧ (ordinary listing).map (fun d => (d.name, d.attr)) =
      entries.filterMap (shownEntry t searchable) := by
  have hshown : inner.filterMap Entry.shown = entries.filterMap (shownEntry t searchable) := by
    have hid := congrArg (List.filterMap id) hinner
    rw [List.filterMap_map, List.filterMap_map] at hid
    exact hid
  have hfiles : (entries.filterMap (shownEntry t searchable)).filter
      (fun x => x.1 ≠ "." ∧ x.1 ≠ "..") = entries.filterMap (shownEntry t searchable) := by
    refine List.filter_eq_self.2 fun x hx => ?_
    obtain ⟨e, -, he⟩ := List.mem_filterMap.1 hx
    exact decide_eq_true (name_of_shownEntry he)
  rw [map_ordinary]
  rw [Server.withSpecials] at h
  split at h
  · obtain ⟨hlisting, rfl⟩ := ends_pure.1 h
    obtain rfl := Except.ok.inj hlisting
    exact ⟨rfl, by rw [hshown, hfiles]⟩
  · obtain ⟨here, w₁, hhere, h₁⟩ := ends_bind_ok.1 h
    obtain ⟨rfl, -⟩ := ends_getAttrFromPath.1 hhere
    obtain ⟨up, w₂, hup, h₂⟩ := ends_bind_ok.1 h₁
    obtain ⟨-, rfl⟩ := ends_ofOption.1 hup
    obtain ⟨above, w₃, habove, h₃⟩ := ends_bind_ok.1 h₂
    obtain ⟨rfl, -⟩ := ends_getAttrFromPath.1 habove
    obtain ⟨hlisting, rfl⟩ := ends_pure.1 h₃
    obtain rfl := Except.ok.inj hlisting
    have hshift : (inner.map Server.shiftEntry).filterMap Entry.shown =
        inner.filterMap Entry.shown := by
      rw [List.filterMap_map]
      exact List.filterMap_congr fun e _ => shown_shiftEntry e
    have hspecials : [Server.specialEntry "." here, Server.specialEntry ".." above].filterMap
        Entry.shown = [(".", some here), ("..", some above)] := rfl
    refine ⟨rfl, ?_⟩
    rw [List.filterMap_append, hshift, hspecials, List.filter_append, hshown, hfiles]
    rfl

theorem ends_dhInsert {fh : UInt64} {listing : List Entry}
    (h : Ends (World.semantics (posix rules)) p
      (withLock .dh .write (perform (.dhInsert fh listing dir))) w (.ok ()) w') :
    w' = { w with dh := Function.update w.dh fh (some (listing, dir)) } := by
  obtain ⟨-, w₁, hbody, rfl⟩ := World.ends_withLock.1 h
  obtain ⟨o, a, hexec, -⟩ := ends_perform.1 hbody
  obtain ⟨rfl, rfl⟩ := Prod.ext_iff.1 (Option.some.inj hexec)
  show World.mk (List.erase ((p, Lock.dh, LockMode.write) :: w.held) _) _ _ _ _ = _
  rw [List.erase_cons_head]

/-- **What `opendir` stores under its handle.** -/
theorem of_opendir {parent : Path} {flags fl : UInt32} {fh : UInt64} (hheld : w.held = [])
    (h : Ends (World.semantics (posix rules)) p (s.handle (Client.opendir parent flags)) w
      (.ok (.handle fh fl)) w') :
    w'.held = [] ∧ w'.os.tree = w.os.tree ∧
      ∃ i f d listing, w.os.tree.reach rules (s.realPath (osStr (toStringLossy parent))) =
          .ok (i, f) ∧ f.content = .directory d ∧
        w'.dh fh = some (listing, s.realPath (osStr (toStringLossy parent))) ∧
        (ordinary listing).map (fun d => (d.name, d.attr)) =
          d.entries.filterMap (shownEntry w.os.tree (rules.search f.rights)) := by
  obtain ⟨r, hends, hr⟩ := ends_map.1 h
  cases r with
  | error e => contradiction
  | ok r =>
    obtain ⟨fh', fl'⟩ := r
    obtain ⟨⟩ := hr
    obtain ⟨fh', w₁, halloc, h₁⟩ := ends_bind_ok.1 hends
    obtain ⟨readdir, w₂, hreaddir, h₂⟩ := ends_bind_ok.1 h₁
    obtain ⟨inner, w₃, hinner, h₃⟩ := ends_bind_ok.1 h₂
    obtain ⟨listing, w₄, hlisting, h₄⟩ := ends_bind_ok.1 h₃
    obtain ⟨⟨⟩, w₅, hinsert, h₅⟩ := ends_bind_ok.1 h₄
    obtain ⟨hok, rfl⟩ := ends_pure.1 h₅
    obtain ⟨⟩ := hok
    obtain rfl := ends_dhInsert hinsert
    obtain ⟨o, a, hexec, -⟩ := ends_perform.1 halloc
    obtain ⟨⟩ := hexec
    obtain ⟨o, answer, hexec, hanswer⟩ := ends_attempt.1 hreaddir
    obtain ⟨rfl, hw₂⟩ := Prod.ext_iff.1 (Option.some.inj hexec)
    obtain rfl : { w with fhSrc := w.fhSrc + 1 } = w₂ := hw₂
    replace hanswer : ((Posix.readDir rules w.os.tree
        (s.realPath (osStr (toStringLossy parent)))).mapError _).mapError _ = .ok readdir := hanswer
    cases hdir : Posix.readDir rules w.os.tree (s.realPath (osStr (toStringLossy parent))) with
    | error e =>
      rw [hdir] at hanswer
      contradiction
    | ok stream =>
      rw [hdir] at hanswer
      obtain rfl := Except.ok.inj hanswer
      obtain ⟨i, f, d, hreach, hd, rfl⟩ := readDir_eq_ok hdir
      obtain ⟨rfl, hshown⟩ :=
        ends_listing (w := { w with fhSrc := w.fhSrc + 1 }) hreach hd hinner
      obtain ⟨rfl, hordinary⟩ := ordinary_withSpecials hshown hlisting
      exact ⟨hheld, rfl, i, f, d, listing, hreach, hd, Function.update_self .., hordinary⟩

/-! ## What is answered about it

The answers of `readdirplus` and `lookup`, and when the two agree on a file. -/

/-- What `readdir` answers while no lock is taken. -/
theorem ends_readdir {req : ReaddirRequest} {listing : List Entry} {r : Except Failure (List Entry)}
    (hheld : w.held = []) (hstored : w.dh req.fh = some (listing, dir)) :
    Ends (World.semantics (posix rules)) p (s.readdirImpl req) w r w' ↔
      w' = w ∧ r = .ok (listing.drop req.offset.toNat) := by
  let w₀ : World P Posix := { w with held := [(p, .dh, .read)] }
  have hfree : ∀ l, w.free l .read = true := by simp [World.free, hheld]
  have hfree₀ : ∀ l, w₀.free l .read = true := by simp [w₀, World.free]
  have hget : ∀ r w₁, Ends (World.semantics (posix rules)) p (perform (.dhGet req.fh) : Handler _)
      w₀ r w₁ ↔ r = .ok (w.dh req.fh) ∧ w₁ = w₀ := fun r w₁ => ends_perform_of fun _ => rfl
  have hok : ∀ r w₁, Ends (World.semantics (posix rules)) p
      (ofOption (.errno EEXIST) (some (listing, dir)) : Handler _) w₀ r w₁ ↔
      r = .ok (listing, dir) ∧ w₁ = w₀ := by simp [eq_comm]
  have hw : { w with held := [] } = w := by rw [← hheld]
  rw [Server.readdirImpl, World.ends_withLock]
  simp only [hfree, true_and, hheld]
  show (∃ w₂, Ends _ _ _ w₀ r w₂ ∧ _) ↔ _
  simp only [ends_bind_of_ok hget, hstored, ends_bind_of_ok hok, World.ends_withLock, hfree₀,
    true_and, ends_pure]
  constructor
  · rintro ⟨w₂, ⟨w₃, ⟨rfl, rfl⟩, rfl⟩, rfl⟩
    exact ⟨by simp [w₀, hw], rfl⟩
  · rintro ⟨rfl, rfl⟩
    exact ⟨_, ⟨_, ⟨rfl, rfl⟩, rfl⟩, by simp [w₀, hw]⟩

theorem ends_readdirplus {parent : Path} {fh offset lockOwner : UInt64} {listing entries : List Entry}
    (hheld : w.held = []) (hstored : w.dh fh = some (listing, dir)) :
    Ends (World.semantics (posix rules)) p
        (s.handle (Client.readdirplus parent fh offset lockOwner)) w (.ok (.entries entries)) w' ↔
      w' = w ∧ entries = listing.drop offset.toNat := by
  have hends : ∀ r w', Ends (World.semantics (posix rules)) p
      (s.readdirImpl ⟨toStringLossy parent, fh, offset, lockOwner⟩) w r w' ↔
      w' = w ∧ r = .ok (listing.drop offset.toNat) := fun r w' => ends_readdir hheld hstored
  refine ends_map.trans ?_
  constructor
  · rintro ⟨r, h, hr⟩
    obtain ⟨rfl, rfl⟩ := (hends _ _).1 h
    cases hr
    exact ⟨rfl, rfl⟩
  · rintro ⟨rfl, rfl⟩
    exact ⟨_, (hends _ _).2 ⟨rfl, rfl⟩, rfl⟩

/-- **What `lookup` answers about a listed name.**  Its attribute is that of the path, so a link is
followed. -/
theorem ends_lookup {parent : Path} {name : String} {r : Except Failure Reply} :
    Ends (World.semantics (posix rules)) p (s.handle (Client.lookup parent (osStr name))) w r w' ↔
      w' = w ∧ r = ((w.os.tree.reach rules (join (s.realPath (osStr (toStringLossy parent)))
        (osStr name))).map fun x => .attr 1000 (attrOf x.2)).mapError fun e =>
          .ofIoError (ioError [join (s.realPath (osStr (toStringLossy parent))) (osStr name)] e) := by
  have hname : Client.lookup parent (osStr name) = .lookup ⟨toStringLossy parent, name⟩ := by
    rw [Client.lookup, Client.lossy, Client.lossy, toStringLossy_osStr]
  rw [hname]
  refine (ends_map_of fun _ _ => ends_getAttrFromPath.trans and_comm).trans (and_comm.trans ?_)
  cases w.os.tree.reach rules _ <;> exact Iff.rfl

theorem realPath_below (parent : Path) : ∃ ns, s.realPath parent = renderAbs ns ∧
    ∀ n ∈ ns, ValidName n :=
  ⟨_, s.realPath_eq parent, s.validName_append (Server.validName_stackOf parent)⟩

/-- A link has another attribute than what is no link. -/
theorem attrOf_ne {f g : Inode} (hf : f.IsLink) (hg : ¬g.IsLink) : attrOf f ≠ attrOf g := by
  intro heq
  obtain ⟨target, hcontent⟩ := hf
  have hkind : filetypeOf f.content = filetypeOf g.content := congrArg Attr.kind heq
  rw [hcontent] at hkind
  cases hg' : g.content with
  | symlink target' => exact hg ⟨target', hg'⟩
  | special kind =>
    rw [hg'] at hkind
    cases kind <;> contradiction
  | _ =>
    rw [hg'] at hkind
    contradiction

section

variable {parent : Path} {g : Inode} {e : DirEntry}
  (hreach : w.os.tree.reach rules (s.realPath (osStr (toStringLossy parent))) = .ok (i, f))
  (hd : f.content = .directory d)

include hreach hd

/-- **A plain file is looked up as it is listed.**  Its name comes back from its string, its path is
short enough, and there is no link to follow. -/
theorem looksUp_of_plain (hsearch : rules.search f.rights = true) (hmem : (n, j) ∈ d.entries)
    (hnode : w.os.tree.node j = some g) (hlink : ¬g.IsLink) (hutf8 : IsUtf8 n.1)
    (hshort : (join (s.realPath (osStr (toStringLossy parent))) n.1).length < maxPath)
    (he : (e.name, e.attr) = (toStringLossy n.1, some (attrOf g))) :
    s.LooksUp rules p parent w.os.tree e := by
  obtain ⟨ns, hns, hvalid⟩ := realPath_below (s := s) (osStr (toStringLossy parent))
  obtain ⟨hname, hattr⟩ := Prod.ext_iff.1 he
  refine ⟨_, hattr, fun w₁ r w₂ htree => ?_⟩
  have hfound : w.os.tree.reach rules (join (s.realPath (osStr (toStringLossy parent))) n.1) =
      .ok (j, g) := by
    rw [hns] at hreach hshort ⊢
    exact reach_join hvalid hreach hd hsearch hmem hnode hlink hshort
  rw [ends_lookup, htree, show osStr e.name = n.1 from (congrArg osStr hname).trans hutf8, hfound]
  rfl

/-- **A listed file that is looked up is plain**, or its name is listed twice. -/
theorem plain_of_looksUp
    (he : (e.name, e.attr) = (toStringLossy n.1, some (attrOf g)))
    (h : s.LooksUp rules p parent w.os.tree e) :
    (¬g.IsLink ∧ IsUtf8 n.1 ∧
        (join (s.realPath (osStr (toStringLossy parent))) n.1).length < maxPath) ∨
      ∃ m j' g', (m, j') ∈ d.entries ∧ w.os.tree.node j' = some g' ∧ m ≠ n ∧
        toStringLossy m.1 = toStringLossy n.1 := by
  obtain ⟨ns, hns, hvalid⟩ := realPath_below (s := s) (osStr (toStringLossy parent))
  obtain ⟨hname, hattr⟩ := Prod.ext_iff.1 he
  obtain ⟨a, ha, hlookup⟩ := h
  obtain rfl : attrOf g = a := Option.some.inj (hattr.symm.trans ha)
  have hanswer := ((hlookup w _ w rfl).1 (ends_lookup.2 ⟨rfl, rfl⟩)).2
  rw [show osStr e.name = osStr (toStringLossy n.1) from congrArg osStr hname] at hanswer
  cases hfound : w.os.tree.reach rules
      (join (s.realPath (osStr (toStringLossy parent))) (osStr (toStringLossy n.1))) with
  | error err =>
    rw [hfound] at hanswer
    contradiction
  | ok x =>
    obtain ⟨j₀, g₀⟩ := x
    rw [hfound] at hanswer
    have hsame : attrOf g₀ = attrOf g := (Reply.attr.inj (Except.ok.inj hanswer)).2
    rw [hns] at hreach hfound
    let m : Name := ⟨osStr (toStringLossy n.1), fileName_lossy n.2⟩
    obtain ⟨hshort, hlink, j', g', hmem', hnode'⟩ :=
      reach_join_cases (n := m) hvalid hreach hd hfound
    by_cases hm : m = n
    · have hutf8 : IsUtf8 n.1 := congrArg Subtype.val hm
      refine Or.inl ⟨fun hg => attrOf_ne hg hlink hsame.symm, hutf8, ?_⟩
      rw [hns, ← hm]
      exact hshort
    · exact Or.inr ⟨m, j', g', hmem', hnode', hm, toStringLossy_osStr _⟩

end

theorem shownEntry_eq_some {t : FileTree} {searchable : Bool} {e : Name × Ino}
    {x : String × Option Attr} : shownEntry t searchable e = some x ↔
      searchable = true ∧ ∃ g, t.node e.2 = some g ∧
        x = (toStringLossy e.1.1, some (attrOf g)) := by
  rw [shownEntry, Option.ite_none_right_eq_some, Option.map_eq_some_iff]
  simp only [eq_comm]

/-- No name is listed twice if the names of different files become different strings. -/
theorem nodup_names {t : FileTree} (d : Directory) (searchable : Bool) :
    ((d.entries.filterMap (shownEntry t searchable)).map Prod.fst).Nodup ↔
      (searchable = true → ∀ n j g m j' g', (n, j) ∈ d.entries → t.node j = some g →
        (m, j') ∈ d.entries → t.node j' = some g' → toStringLossy m.1 = toStringLossy n.1 → m = n) := by
  rw [List.Nodup, List.pairwise_map, List.pairwise_filterMap]
  constructor
  · intro hpairs hsearch n j g m j' g' hmem hnode hmem' hnode' hname
    by_contra hne
    have hsymm : Std.Symm fun a a' : Name × Ino => ∀ x, shownEntry t searchable a = some x →
        ∀ x', shownEntry t searchable a' = some x' → x.1 ≠ x'.1 :=
      ⟨fun a a' h x' hx' x hx => (h x hx x' hx').symm⟩
    have hpair : ((m, j') : Name × Ino) ≠ (n, j) := fun h => hne (Prod.ext_iff.1 h).1
    exact hpairs.forall hmem' hmem hpair _ (shownEntry_eq_some.2 ⟨hsearch, g', hnode', rfl⟩) _
      (shownEntry_eq_some.2 ⟨hsearch, g, hnode, rfl⟩) hname
  · intro h
    have hkeys : d.entries.Pairwise fun e e' => e.1 ≠ e'.1 := List.pairwise_map.1 d.nodup
    refine hkeys.imp_of_mem fun {e e'} he he' hne x hx x' hx' hname => ?_
    obtain ⟨hsearch, g, hnode, rfl⟩ := shownEntry_eq_some.1 hx
    obtain ⟨-, g', hnode', rfl⟩ := shownEntry_eq_some.1 hx'
    exact hne (h hsearch _ _ _ _ _ _ he' hnode' he hnode hname)

theorem listingAgrees_iff_of_stored {parent : Path} {fh : UInt64} {listing : List Entry}
    (hheld : w.held = [])
    (hreach : w.os.tree.reach rules (s.realPath (osStr (toStringLossy parent))) = .ok (i, f))
    (hd : f.content = .directory d) (hstored : w.dh fh = some (listing, dir))
    (hordinary : (ordinary listing).map (fun d => (d.name, d.attr)) =
      d.entries.filterMap (shownEntry w.os.tree (rules.search f.rights))) :
    s.ListingAgrees rules p parent fh w ↔ s.ListsPlainly rules parent w.os.tree := by
  have hnames : (ordinary listing).map DirEntry.name =
      (d.entries.filterMap (shownEntry w.os.tree (rules.search f.rights))).map Prod.fst := by
    rw [← hordinary, List.map_map]
    rfl
  have hmem : ∀ x, x ∈ (ordinary listing).map (fun d => (d.name, d.attr)) ↔
      ∃ e ∈ d.entries, shownEntry w.os.tree (rules.search f.rights) e = some x := fun x => by
    rw [hordinary, List.mem_filterMap]
  constructor
  · intro hagrees i' f' d' hreach' hd' hsearch n j g hentry hnode
    obtain ⟨rfl, rfl⟩ := Prod.ext_iff.1 (Except.ok.inj (hreach.symm.trans hreach'))
    obtain rfl : d = d' := Content.directory.inj (hd.symm.trans hd')
    obtain ⟨hlookups, hnodup⟩ := hagrees 0 0 listing w
      ((ends_readdirplus hheld hstored).2 ⟨rfl, rfl⟩)
    rw [hnames, nodup_names] at hnodup
    have hlisted := (hmem _).2 ⟨_, hentry, shownEntry_eq_some.2 ⟨hsearch, g, hnode, rfl⟩⟩
    obtain ⟨e, he, heq⟩ := List.mem_map.1 hlisted
    obtain hplain | ⟨m, j', g', hmem', hnode', hne, hname⟩ :=
      plain_of_looksUp hreach hd heq (hlookups e he)
    · exact hplain
    · exact absurd (hnodup hsearch _ _ _ _ _ _ hentry hnode hmem' hnode' hname) hne
  · intro hplain offset lockOwner entries w₁ hends
    obtain ⟨rfl, rfl⟩ := (ends_readdirplus hheld hstored).1 hends
    have hsub : (ordinary (listing.drop offset.toNat)).Sublist (ordinary listing) :=
      ((List.drop_sublist _ _).filterMap _).filter _
    constructor
    · intro e he
      obtain ⟨⟨n, j⟩, hentry, hshown⟩ := (hmem _).1 (List.mem_map_of_mem (hsub.subset he))
      obtain ⟨hsearch, g, hnode, heq⟩ := shownEntry_eq_some.1 hshown
      obtain ⟨hlink, hutf8, hshort⟩ := hplain i f d hreach hd hsearch n j g hentry hnode
      exact looksUp_of_plain hreach hd hsearch hentry hnode hlink hutf8 hshort heq
    · refine List.Nodup.sublist (hsub.map _) ?_
      rw [hnames, nodup_names]
      intro hsearch n j g m j' g' hentry hnode hentry' hnode' hname
      obtain ⟨-, hutf8, -⟩ := hplain i f d hreach hd hsearch n j g hentry hnode
      obtain ⟨-, hutf8', -⟩ := hplain i f d hreach hd hsearch m j' g' hentry' hnode'
      exact Subtype.ext (hutf8'.symm.trans ((congrArg osStr hname).trans hutf8))

end

/-- **The listing of a directory agrees with `lookup` exactly if all its files are plain.** -/
theorem listingAgrees_iff (s : Server) {rules : Rules} {P : Type u} [DecidableEq P] (p : P)
    {parent : Path} {flags fl : UInt32} {fh : UInt64} {w w' : World P Posix} (hheld : w.held = [])
    (h : Ends (World.semantics (posix rules)) p (s.handle (Client.opendir parent flags)) w
      (.ok (.handle fh fl)) w') :
    s.ListingAgrees rules p parent fh w' ↔ s.ListsPlainly rules parent w.os.tree := by
  obtain ⟨hheld', htree, i, f, d, listing, hreach, hd, hstored, hordinary⟩ := of_opendir hheld h
  rw [← htree] at hreach hordinary ⊢
  exact listingAgrees_iff_of_stored hheld' hreach hd hstored hordinary

/-- The root directory of a server over these files, opened as the handle 0 of the world `w`. -/
def OpensRoot (files : List (Name × Content)) (nodup : (files.map Prod.fst).Nodup)
    (w : World Unit Posix) : Prop :=
  Ends (World.semantics (posix (lenientRules 0))) ()
    ((⟨[sep], canonical_sep⟩ : Server).handle (Client.opendir [sep] 0))
    (.alone Unit (fun _ => none) (fun _ => none) 0 (idlePosix files nodup)) (.ok (.handle 0 0)) w

/-- One file with a plain name is looked up as it is listed. -/
theorem listingAgrees_one : ∃ w, OpensRoot [(⟨[102], by decide⟩, .regular)] (by decide) w ∧
    (⟨[sep], by decide⟩ : Server).ListingAgrees (lenientRules 0) () [sep] 0 w := by
  obtain ⟨o⟩ : Nonempty Chance := inferInstance
  obtain ⟨w, hopen⟩ : ∃ w, OpensRoot [(⟨[102], by decide⟩, .regular)] (by decide) w :=
    ⟨_, ends_of_eval (o := o) rfl⟩
  refine ⟨w, hopen, (listingAgrees_iff _ _ rfl hopen).2 ?_⟩
  rintro i f d hreach hd - n j g hentry hnode
  obtain ⟨⟩ := hreach
  obtain ⟨⟩ := hd
  obtain ⟨⟩ := List.mem_singleton.1 hentry
  obtain ⟨⟩ := hnode
  refine ⟨?_, by decide, by decide⟩
  rintro ⟨target, htarget⟩
  contradiction

/-- **What is listed and not looked up**: a link, dangling or not, and a name that is not UTF-8. -/
theorem not_listingAgrees :
    (∃ w, OpensRoot [(⟨[108], by decide⟩, .symlink [103])] (by decide) w ∧
      ¬(⟨[sep], by decide⟩ : Server).ListingAgrees (lenientRules 0) () [sep] 0 w) ∧
    ∃ w, OpensRoot [(⟨[255], by decide⟩, .regular)] (by decide) w ∧
      ¬(⟨[sep], by decide⟩ : Server).ListingAgrees (lenientRules 0) () [sep] 0 w := by
  obtain ⟨o⟩ : Nonempty Chance := inferInstance
  have key : ∀ {files nodup w}, OpensRoot files nodup w →
      (⟨[sep], by decide⟩ : Server).ListingAgrees (lenientRules 0) () [sep] 0 w →
      (⟨[sep], by decide⟩ : Server).ListsPlainly (lenientRules 0) [sep]
        (idlePosix files nodup).tree := by
    intro files nodup w hopen hagrees
    obtain ⟨hheld, htree, i, f, d, listing, hreach, hd, hstored, hordinary⟩ := of_opendir rfl hopen
    rw [← htree] at hreach hordinary
    have hplain := (listingAgrees_iff_of_stored hheld hreach hd hstored hordinary).1 hagrees
    rw [htree] at hplain
    exact hplain
  constructor
  · obtain ⟨w, hopen⟩ : ∃ w, OpensRoot [(⟨[108], by decide⟩, .symlink [103])] (by decide) w :=
      ⟨_, ends_of_eval (o := o) rfl⟩
    refine ⟨w, hopen, fun hagrees => ?_⟩
    have hplain := key hopen hagrees 0 _ _ rfl rfl rfl ⟨[108], by decide⟩ 1 _ (by simp) rfl
    exact hplain.1 ⟨[103], rfl⟩
  · obtain ⟨w, hopen⟩ : ∃ w, OpensRoot [(⟨[255], by decide⟩, .regular)] (by decide) w :=
      ⟨_, ends_of_eval (o := o) rfl⟩
    refine ⟨w, hopen, fun hagrees => ?_⟩
    have hplain := key hopen hagrees 0 _ _ rfl rfl rfl ⟨[255], by decide⟩ 1 _ (by simp) rfl
    exact absurd hplain.2.1 (by decide)

end Distfs
end DistributedPrograms
