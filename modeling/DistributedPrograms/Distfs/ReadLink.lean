import DistributedPrograms.Distfs.Atomicity
import DistributedPrograms.Distfs.Client
import DistributedPrograms.Distfs.Names
import DistributedPrograms.Distfs.RealPath

/-!
# Reading a link back

A client makes a link and reads it again under the same path.  The two requests treat that path
differently: `symlink` makes the link below the root, and its target too is resolved below the root,
while `readlink` opens the path as it is sent.  So a target comes back only if the path leads to the
new link as it stands and the root does nothing to the target, or if the path leads to another link,
with that very target.  `undoes_iff` is this, for every path and every target.

* `readlink_iff` says which answer comes back to the client, from the link at the end of the path,
  through the string of its target and `CString::new`, which takes no zero byte.
* `withTree_of_ends_symlink` says what is there after a `symlink`, whatever was answered: a link to
  nowhere is made and then answered with an errno, and it can be read nevertheless.
* `lossy_realPath_eq_iff`: a target is resolved to itself only below the root `/`, and only if it is
  spelled as `real_path` spells it.
* `leadsBack_iff_of_root` reads the condition for the common case, a canonical path below the root
  `/`: exactly the targets come back that are canonical too.
-/

set_option autoImplicit false

namespace DistributedPrograms
namespace Distfs

open UnixPath Fallible Server FileTree

universe u

/-! ## What `readlink` answers

Nothing but the tree decides this, and the path as it is sent. -/

section

variable {s : Server} {rules : Rules} {P : Type u} [DecidableEq P] {p : P} {w w' : World P Posix}
  {path target : Path}

/-- **A link is read where its path ends.**  The link at the end is not followed, those on the way
are. -/
theorem readLink_eq_ok {t : FileTree} : Posix.readLink rules t path = .ok target ↔
    ∃ j, linkAt (t.look rules.search) rules.cwd path = some (j, target) := by
  constructor
  · intro h
    obtain ⟨⟨i, n, slash⟩, hslot, hrest⟩ := bind_eq_ok.1 h
    obtain ⟨⟨j, f⟩, hentry, hcontent⟩ := bind_eq_ok.1 hrest
    obtain ⟨inode, d, hnode, hd, hdir⟩ := slot_dir hslot
    obtain ⟨hfind, hf⟩ := entry_eq_ok.1 hentry
    rw [find_of_dir hnode hd] at hfind
    dsimp only at hcontent
    split at hcontent
    · next hlink =>
      cases hcontent
      refine ⟨j, linkAt_eq_some.2 ⟨i, n, _, _, hslot, hdir, hfind, ?_⟩⟩
      exact look_eq_link.2 ⟨f, hf, hlink⟩
    · contradiction
  · rintro ⟨j, hlink⟩
    obtain ⟨i, n, parent, find, hslot, hdir, hfind, hj⟩ := linkAt_eq_some.1 hlink
    obtain ⟨f, hf, hcontent⟩ := look_eq_link.1 hj
    have hentry : t.entry i n = .ok (j, f) := entry_eq_ok.2 ⟨find_of_look hdir ▸ hfind, hf⟩
    refine bind_eq_ok.2 ⟨_, hslot, bind_eq_ok.2 ⟨_, hentry, ?_⟩⟩
    simp only [hcontent]
    rfl

/-- **What `readlink` answers.**  The path of the client is used as it is, and the tree is left as
it is up to times of access. -/
theorem ends_readlink {r : Except Failure Reply} :
    Ends (World.semantics (posix rules)) p (s.handle (Client.readlink path)) w r w' ↔
      r = ((Posix.readLink rules w.os.tree (osStr (Client.lossy path))).map fun link =>
        .path (toStringLossy link)).mapError
          (fun e => .ofIoError (ioError [osStr (Client.lossy path)] e)) ∧ w' = w := by
  have hcall : ∀ r w', Ends (World.semantics (posix rules)) p
      (attempt Failure.ofIoError (.readLink (osStr (Client.lossy path)))) w r w' ↔
      r = ((Posix.readLink rules w.os.tree (osStr (Client.lossy path))).mapError
        (ioError [osStr (Client.lossy path)])).mapError Failure.ofIoError ∧ w' = w :=
    fun r w' => ends_attempt_of fun o => rfl
  have himpl : s.readlinkImpl ⟨Client.lossy path⟩ =
      toStringLossy <$> attempt Failure.ofIoError (.readLink (osStr (Client.lossy path))) :=
    (map_eq_pure_bind _ _).symm
  show Ends (World.semantics (posix rules)) p (Reply.path <$> s.readlinkImpl ⟨Client.lossy path⟩) w
    r w' ↔ _
  rw [himpl]
  refine (ends_map_of fun _ _ => ends_map_of hcall).trans ?_
  cases Posix.readLink rules w.os.tree (osStr (Client.lossy path)) <;> exact Iff.rfl

/-- `CString::new` takes no zero byte. -/
theorem readlinkReply_eq_ok {link : String} {t : Path} :
    Client.readlinkReply (.ok (.path link)) = .ok t ↔ osStr link = t ∧ 0 ∉ t := by
  show (if 0 ∈ osStr link then (throw (.errno EIO) : Except Failure Path)
    else pure (osStr link)) = .ok t ↔ _
  split
  · next hzero =>
    constructor
    · intro h
      contradiction
    · rintro ⟨rfl, hnot⟩
      exact absurd hzero hnot
  · next hzero =>
    constructor
    · intro h
      cases h
      exact ⟨rfl, hzero⟩
    · rintro ⟨rfl, -⟩
      rfl

/-- **Which answer comes back.** -/
theorem readlink_iff {t : Path} :
    ((∃ r w', Ends (World.semantics (posix rules)) p (s.handle (Client.readlink path)) w r w') ∧
      ∀ r w', Ends (World.semantics (posix rules)) p (s.handle (Client.readlink path)) w r w' →
        Client.readlinkReply r = .ok t) ↔
      ∃ j target, linkAt (w.os.tree.look rules.search) rules.cwd (osStr (Client.lossy path)) =
        some (j, target) ∧ osStr (Client.lossy target) = t ∧ 0 ∉ t := by
  simp only [ends_readlink]
  constructor
  · rintro ⟨-, h⟩
    have hreply := h _ w ⟨rfl, rfl⟩
    cases hread : Posix.readLink rules w.os.tree (osStr (Client.lossy path)) with
    | error e =>
      rw [hread] at hreply
      contradiction
    | ok target =>
      rw [hread] at hreply
      obtain ⟨j, hlink⟩ := readLink_eq_ok.1 hread
      exact ⟨j, target, hlink, readlinkReply_eq_ok.1 hreply⟩
  · rintro ⟨j, target, hlink, hback⟩
    have hread := readLink_eq_ok.2 ⟨j, hlink⟩
    refine ⟨⟨_, w, rfl, rfl⟩, ?_⟩
    rintro r w' ⟨rfl, rfl⟩
    rw [hread]
    exact readlinkReply_eq_ok.2 hback

/-! ## What `symlink` leaves

Whatever is answered, the tree has the new link or is as it was. -/

variable {parent name : Path}

/-- Whatever is answered, a link that was made is there. -/
theorem withTree_of_ends_symlink {r : Except Failure Reply}
    (h : Ends (World.semantics (posix rules)) p (s.handle (Client.symlink parent name target)) w r w')
    (hne : w'.os.tree ≠ w.os.tree) :
    ∃ (now : Clock) (t : FileTree), w.os.tree.symlink rules now
        (s.realPath (osStr (Client.lossy target)))
        (join (s.realPath (osStr (Client.lossy parent))) (osStr (Client.lossy name))) = .ok t ∧
      w' = w.withTree t := by
  obtain ⟨r, h, -⟩ := ends_map.1 h
  obtain ⟨⟨⟩, w₁, hmade, hlook⟩ | ⟨e, hmade, -⟩ := ends_bind.1 h
  · obtain ⟨now, ⟨t, hmake, -, rfl⟩ | ⟨e, e', -, hr, -⟩⟩ := performs_symlink.of_ends hmade
    · exact ⟨now, t, hmake, (ends_getAttrFromPath.1 hlook).1⟩
    · contradiction
  · exact absurd (unchanged_of_performs performs_symlink hmade) hne

/-- A link that can be made is made. -/
theorem exists_ends_symlink {now : Clock} {t : FileTree}
    (hmake : w.os.tree.symlink rules now (s.realPath (osStr (Client.lossy target)))
      (join (s.realPath (osStr (Client.lossy parent))) (osStr (Client.lossy name))) = .ok t) :
    ∃ r, Ends (World.semantics (posix rules)) p (s.handle (Client.symlink parent name target)) w r
      (w.withTree t) :=
  ⟨_, ends_map.2 ⟨_, ends_bind.2 (Or.inl ⟨(), _, performs_symlink.ends_ok now t hmake,
    ends_getAttrFromPath.2 ⟨rfl, rfl⟩⟩), rfl⟩⟩

/-! ## Which targets survive

A target that is relative, or has a dot in it, is stored as another one. -/

omit [DecidableEq P] in
/-- **A target is resolved to itself** only below the root `/`, and only if it is spelled as
`real_path` spells it. -/
theorem lossy_realPath_eq_iff : osStr (Client.lossy (s.realPath (osStr (Client.lossy target)))) =
    target ↔ s.rootPath = [sep] ∧ Canonical target ∧ IsUtf8 target := by
  constructor
  · intro h
    have hutf8 : IsUtf8 target := h ▸ isUtf8_osStr _
    rw [hutf8, s.realPath_eq, below, lossy_renderAbs, List.map_append] at h
    have hvalid : ∀ n ∈ (names s.rootPath).map (fun n => osStr (toStringLossy n)) ++
        (stackOf target).map (fun n => osStr (toStringLossy n)), ValidName n := by
      rw [← List.map_append]
      intro n hn
      obtain ⟨m, hm, rfl⟩ := List.mem_map.1 hn
      exact validName_lossy (s.validName_append (validName_stackOf target) m hm)
    -- the target has its own names, and those of the root in front of them
    have hlength := congrArg List.length (stackOf_renderAbs hvalid)
    rw [h, List.length_append, List.length_map, List.length_map] at hlength
    refine ⟨s.rootPath_eq_sep.2 (List.length_eq_zero_iff.1 (by omega)), ?_, hutf8⟩
    rw [Canonical, ← h, names_renderAbs hvalid]
  · rintro ⟨hroot, hcanonical, hutf8⟩
    rw [hutf8, s.realPath_of_canonical hroot hcanonical, hutf8]

/-- Where a request makes a link, reading it answers its target.  Nothing is asked where the tree
has not changed, as then no link was made. -/
def Server.Undoes (s : Server) (rules : Rules) {P : Type u} [DecidableEq P] (p : P)
    (parent name target : Path) (w : World P Posix) : Prop :=
  ∀ r w₁, Ends (World.semantics (posix rules)) p (s.handle (Client.symlink parent name target)) w r
      w₁ → w₁.os.tree ≠ w.os.tree →
    (∃ r' w₂, Ends (World.semantics (posix rules)) p
      (s.handle (Client.readlink (join parent name))) w₁ r' w₂) ∧
    ∀ r' w₂, Ends (World.semantics (posix rules)) p
      (s.handle (Client.readlink (join parent name))) w₁ r' w₂ → Client.readlinkReply r' = .ok target

/-- Where the link can be made, the path that the client reads ends at the new link, and the target
is one that `real_path` keeps; or it ends at another link, with that target. -/
def Server.LeadsBack (s : Server) (rules : Rules) (parent name target : Path) (t : FileTree) :
    Prop :=
  let source := s.realPath (osStr (Client.lossy target))
  let place := join (s.realPath (osStr (Client.lossy parent))) (osStr (Client.lossy name))
  ∀ i n, t.Links rules source place i n →
    ∃ j found, linkAt ((t.look rules.search).withLink i n t.next source) rules.cwd
        (osStr (Client.lossy (join parent name))) = some (j, found) ∧
      if j = t.next then s.rootPath = [sep] ∧ Canonical target ∧ IsUtf8 target
      else osStr (Client.lossy found) = target ∧ 0 ∉ target

omit [DecidableEq P] in
/-- What the link at the end of the path has to be like. -/
theorem back_iff {look : Look} {i j k : Ino} {n : Name} {found : Path}
    (hsource : takePath (s.realPath (osStr (Client.lossy target))) = .ok ())
    (h : linkAt (look.withLink i n k (s.realPath (osStr (Client.lossy target)))) rules.cwd path =
      some (j, found)) :
    osStr (Client.lossy found) = target ∧ 0 ∉ target ↔
      if j = k then s.rootPath = [sep] ∧ Canonical target ∧ IsUtf8 target
      else osStr (Client.lossy found) = target ∧ 0 ∉ target := by
  split
  · next hj =>
    obtain ⟨-, -, -, -, -, -, -, hlink⟩ := linkAt_eq_some.1 h
    rw [Look.withLink, if_pos hj] at hlink
    cases hlink
    rw [← lossy_realPath_eq_iff]
    refine and_iff_left_of_imp fun hback => hback ▸ ?_
    exact notMem_lossy (by decide) (zero_notMem_of_pathError (takePath_eq_ok.1 hsource))
  · exact Iff.rfl

end

/-- A link that can be made can be made by a request, so its path has to lead back. -/
theorem leadsBack_of_undoes {s : Server} {rules : Rules} {P : Type u} [DecidableEq P] {p : P}
    {parent name target : Path} {w : World P Posix} (h : s.Undoes rules p parent name target w) :
    s.LeadsBack rules parent name target w.os.tree := by
  intro i n hlinks
  obtain ⟨o⟩ : Nonempty Chance := inferInstance
  obtain ⟨t, hmake⟩ := hlinks.exists_symlink o.now
  obtain ⟨r, hends⟩ := exists_ends_symlink (p := p) hmake
  obtain ⟨j, found, hlink, hback⟩ := readlink_iff.1 (h r _ hends (ne_of_symlink hmake))
  obtain ⟨i', n', hlinks', hlook⟩ := look_symlink hmake
  obtain ⟨rfl, rfl⟩ := hlinks.unique hlinks'
  rw [World.withTree_tree, hlook] at hlink
  exact ⟨j, found, hlink, (back_iff hlinks.2.1 hlink).1 hback⟩

/-- **When `readlink` undoes `symlink`**: exactly where the link leads back.  The condition is on
the tree before, the two paths and the target. -/
theorem undoes_iff (s : Server) (rules : Rules) {P : Type u} [DecidableEq P] (p : P)
    (parent name target : Path) (w : World P Posix) :
    s.Undoes rules p parent name target w ↔ s.LeadsBack rules parent name target w.os.tree := by
  constructor
  · exact leadsBack_of_undoes
  · intro h r w₁ hends hne
    obtain ⟨now, t, hmake, rfl⟩ := withTree_of_ends_symlink hends hne
    obtain ⟨i, n, hlinks, hlook⟩ := look_symlink hmake
    obtain ⟨j, found, hlink, hback⟩ := h i n hlinks
    refine readlink_iff.2 ⟨j, found, ?_, (back_iff hlinks.2.1 hlink).2 hback⟩
    rw [World.withTree_tree, hlook]
    exact hlink

/-- **Below the root `/`**, under a path that is spelled canonically, exactly the targets come back
that are canonical too. -/
theorem leadsBack_iff_of_root {s : Server} {rules : Rules} {parent name target : Path}
    {t : FileTree} (hroot : s.rootPath = [sep]) (hparent : Canonical parent)
    (hparent' : IsUtf8 parent) (hname : IsUtf8 name) :
    s.LeadsBack rules parent name target t ↔
      ((∃ i n, t.Links rules (s.realPath (osStr (Client.lossy target))) (join parent name) i n) →
        Canonical target ∧ IsUtf8 target) := by
  have hclient : osStr (Client.lossy (join parent name)) = join parent name :=
    isUtf8_join hparent' hname
  have hplace : join (s.realPath (osStr (Client.lossy parent))) (osStr (Client.lossy name)) =
      join parent name := by
    rw [hparent', hname, s.realPath_of_canonical hroot hparent]
  have hfound : ∀ {i n source}, t.Links rules source (join parent name) i n →
      linkAt ((t.look rules.search).withLink i n t.next source) rules.cwd (join parent name) =
        some (t.next, source) := by
    intro i n source hlinks
    obtain ⟨inode, d, hnode, hd, hdir⟩ := slot_dir hlinks.1
    refine linkAt_withLink hlinks.1 hdir ((find_of_dir hnode hd).symm.trans hlinks.2.2.1) ?_
    rw [look, t.fresh _ le_rfl, Option.map_none]
  rw [Server.LeadsBack]
  simp only [hplace, hclient]
  constructor
  · rintro h ⟨i, n, hlinks⟩
    obtain ⟨j, found, hlink, hback⟩ := h i n hlinks
    cases (hfound hlinks).symm.trans hlink
    rw [if_pos rfl] at hback
    exact hback.2
  · intro h i n hlinks
    refine ⟨t.next, _, hfound hlinks, ?_⟩
    rw [if_pos rfl]
    exact ⟨hroot, h ⟨i, n, hlinks⟩⟩

/-- **A relative target does not come back.**  The link `l` to `f` is read as a link to `/f`. -/
theorem not_undoes :
    ¬(⟨[sep], by decide⟩ : Server).Undoes (lenientRules 0) () [sep] [108] [102]
      (.alone Unit (fun _ => none) (fun _ => none) 0 oneFile) := by
  intro hundoes
  have h := (leadsBack_iff_of_root rfl (by decide) (by decide +kernel) (by decide +kernel)).1
    (leadsBack_of_undoes hundoes)
  have hlinks : ∃ i n, oneFile.tree.Links (lenientRules 0) [sep, 102] [sep, 108] i n :=
    ⟨0, ⟨[108], by decide⟩, by decide +kernel, rfl, rfl, rfl⟩
  exact absurd (h hlinks).1 (by decide)

end Distfs
end DistributedPrograms
