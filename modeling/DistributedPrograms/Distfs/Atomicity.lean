import DistributedPrograms.Distfs.Changes

/-!
# Failed mutations

A handler that answers an errno has left the tree as it was, or it has not: `failsClean_iff` says
when, for every tree and every mutation.  The handlers that make one call are safe, and so are
`create` and `mkdir`, whose second call cannot fail.  A `symlink` is not safe where the new link
leads nowhere, because the link is looked through before it is answered; and `set_attr` is safe only
as long as nothing was changed before a change is refused.

* `Mutation` are the requests that change the tree, and `Server.FailsClean` the statement about one
  of them: every run that ends with an errno ends with the tree it began with.
* `Server.Clean` is the condition.  It is about the tree before and the answers that the *calls* of
  the request get from it, one by one: whether the link that is made leads to a file
  (`Server.LinkLeads`), and whether the changes of a `set_attr` are made together or not at all
  (`Server.SetsCleanly`).
* `Change.AllOrNothing` is that for a list of changes: all ways to make them make all and end well,
  or the first of them that is a change at all is refused.  `Change.unchanged_iff` shows that
  nothing less is enough, since a change that is made in front of a failure leaves its mark, at
  least in the time of the last change.

A look at the file comes behind most mutations, for the answer, and it can fail as well.  `Looks`
says for which trees it does, and `setsCleanly_iff` puts it behind the changes.
-/

set_option autoImplicit false

namespace DistributedPrograms
namespace Distfs

open UnixPath Fallible Server FileTree

universe u

/-! ## Several changes

The hard half is that a partial change shows.  A clock can show two moments, and a change made at
one of them differs from the same change made at the other. -/

/-- Every way to make the changes makes all of them and ends where `final` holds; or the first of
them that is a change at all is refused. -/
def Change.AllOrNothing (rules : Rules) (path : Path) (final : FileTree → Prop) (cs : List Change)
    (t : FileTree) : Prop :=
  (∀ t' all, Makes rules path cs t t' all → all = true ∧ final t') ∨
  ∀ c ∈ (cs.filter fun c => ¬c.IsNone path).head?,
    ∀ now : Clock, ∃ e, c.make rules path now t = .error e

namespace Change

variable {rules : Rules} {path : Path} {c : Change} {cs : List Change} {t t' : FileTree}
  {final : FileTree → Prop} {all : Bool}

theorem make_of_isNone (h : c.IsNone path) (now : Time) (t : FileTree) :
    c.make rules path now t = .ok t := by
  obtain ⟨-, hnone⟩ | ⟨hnot, -⟩ | ⟨hnot, -⟩ := c.cases rules path
  · exact hnone now t
  · exact absurd h hnot
  · exact absurd h hnot

/-- Changes that are none can be left out in front. -/
theorem makes_cons_of_isNone (h : c.IsNone path) :
    Makes rules path (c :: cs) t t' all ↔ Makes rules path cs t t' all := by
  constructor
  · intro hmakes
    cases hmakes with
    | refused now hmake =>
      rw [make_of_isNone h] at hmake
      contradiction
    | made now hmake hrest =>
      rw [make_of_isNone h] at hmake
      cases hmake
      exact hrest
  · intro hmakes
    obtain ⟨o⟩ : Nonempty Chance := inferInstance
    exact .made o.now (make_of_isNone h o.now t) hmakes

/-- Two moments that a clock can show. -/
theorem exists_clock_ne (time : Time) : ∃ now : Clock, now.1 ≠ time := by
  by_cases h : time = ⟨0, 0⟩
  · exact ⟨⟨⟨1, 0⟩, by decide⟩, by rw [h]; decide⟩
  · exact ⟨⟨⟨0, 0⟩, by decide⟩, Ne.symm h⟩

/-- A change that is made in front of a failure shows: at some time it leaves its mark. -/
theorem exists_makes_ne (hnone : ¬c.IsNone path) {now₀ : Time} {t₀ : FileTree}
    (hgranted : c.make rules path now₀ t = .ok t₀) (h : Makes rules path (c :: cs) t t' all) :
    ∃ t'', Makes rules path (c :: cs) t t'' all ∧ t'.view = t''.view ∧ t'' ≠ t := by
  obtain ⟨hnone', -⟩ | ⟨-, hrefused⟩ | ⟨-, op, f, g, hrecords⟩ := c.cases rules path
  · exact absurd hnone' hnone
  · obtain ⟨e, he⟩ := hrefused now₀ t
    rw [he] at hgranted
    contradiction
  · cases h with
    | refused now hmake =>
      obtain ⟨t₁, hmake', -⟩ := make_congr now rfl hgranted
      rw [hmake'] at hmake
      contradiction
    | @made _ _ _ t₁ _ _ now hmake hrest =>
      have hchange := hmake
      rw [hrecords.make_eq] at hchange
      obtain ⟨i, inode, hreach, hallowed, -⟩ := change_eq_ok.1 hchange
      obtain ⟨-, hnode⟩ := reach_eq_ok.1 hreach
      obtain ⟨now', hnow'⟩ := exists_clock_ne inode.stat.ctime
      obtain ⟨t₂, hmake₂, hview⟩ := make_congr now'.1 rfl hmake
      have ht₂ : t₂ = t.modify i (f now') := by
        rw [hrecords.make_eq] at hmake₂
        obtain ⟨j, inode', hreach', -, rfl⟩ := change_eq_ok.1 hmake₂
        cases hreach.symm.trans hreach'
        rfl
      have hstamped : Stamped now'.1 i t₂ := by
        rw [ht₂]
        exact stamped_modify (hrecords.ctime now') (Or.inr ⟨rfl, by rw [hnode]; rfl⟩)
      obtain ⟨t'', hrest', hview', inode'', hnode'', hctime⟩ :=
        exists_makes_at hrest hview now' hstamped
      refine ⟨t'', .made now' hmake₂ hrest', hview', ?_⟩
      rintro rfl
      obtain rfl : inode'' = inode := Option.some.inj (hnode''.symm.trans hnode)
      exact hnow' hctime.symm

/-- **When changes that fail leave the tree as it was.**  They fail if one of them is refused, or if
all are made and the look behind them fails. -/
theorem unchanged_iff (hfinal : ∀ t t' : FileTree, t.view = t'.view → final t → final t') :
    (∀ t' all, Makes rules path cs t t' all → ¬(all = true ∧ final t') → t' = t) ↔
      AllOrNothing rules path final cs t := by
  induction cs with
  | nil =>
    constructor
    · intro _
      exact Or.inr (by simp)
    · rintro - t' all (_ | _) -
      rfl
  | cons c cs ih =>
    by_cases hnone : c.IsNone path
    · have hfilter : ((c :: cs).filter fun c => ¬c.IsNone path) =
          cs.filter fun c => ¬c.IsNone path := List.filter_cons_of_neg (by simpa using hnone)
      simp only [AllOrNothing, hfilter, makes_cons_of_isNone hnone]
      exact ih
    · have hhead : ((c :: cs).filter fun c => ¬c.IsNone path).head? = some c := by
        rw [List.filter_cons_of_pos (by simpa using hnone), List.head?_cons]
      simp only [AllOrNothing, hhead, Option.mem_some_iff, forall_eq']
      constructor
      · intro h
        by_cases hrefused : ∀ now : Clock, ∃ e, c.make rules path now t = .error e
        · exact Or.inr hrefused
        · refine Or.inl fun t' all hmakes => ?_
          obtain ⟨now₀, hnow₀⟩ := not_forall.1 hrefused
          cases hmake : c.make rules path now₀ t with
          | error e => exact absurd ⟨e, hmake⟩ hnow₀
          | ok t₀ =>
            by_contra hfail
            obtain ⟨t'', hmakes', hview, hne⟩ := exists_makes_ne hnone hmake hmakes
            refine hne (h t'' all hmakes' fun hdone => hfail ?_)
            exact ⟨hdone.1, hfinal t'' t' hview.symm hdone.2⟩
      · rintro (hall | hrefused) t' all hmakes hfail
        · exact absurd (hall t' all hmakes) hfail
        · cases hmakes with
          | refused now hmake => rfl
          | made now hmake hrest =>
            obtain ⟨e, he⟩ := hrefused now
            rw [he] at hmake
            contradiction

end Change

/-! ## Mutations

Handler by handler, what its calls do to the tree. -/

/-- The requests that change the tree.  Writing into a file is none of them, as it changes its
contents only. -/
inductive Mutation where
  | setAttr (req : SetAttrRequest)
  | mkdir (req : MkdirRequest)
  | symlink (req : SymlinkRequest)
  | create (req : CreateRequest)
  | rename (req : RenameRequest)
  | unlink (req : UnlinkRequest)
  | rmdir (req : RmdirRequest)

def Mutation.request : Mutation → Request
  | .setAttr req => .setAttr req
  | .mkdir req => .mkdir req
  | .symlink req => .symlink req
  | .create req => .create req
  | .rename req => .rename req
  | .unlink req => .unlink req
  | .rmdir req => .rmdir req

/-- Where the mutation is answered with an errno, the tree is as it was, whatever the run: with the
times, the links and the attributes of all files. -/
def Server.FailsClean (s : Server) (rules : Rules) {P : Type u} [DecidableEq P] (p : P)
    (m : Mutation) (w : World P Posix) : Prop :=
  ∀ e w', Ends (World.semantics (posix rules)) p (s.handle m.request) w (.error (.errno e)) w' →
    w'.os.tree = w.os.tree

/-- The link that a request makes is refused, or leads to a file.  Otherwise it is there, and the
look at what it leads to fails. -/
def Server.LinkLeads (s : Server) (rules : Rules) (req : SymlinkRequest) (t : FileTree) : Prop :=
  let target := join (s.realPath (osStr req.parent)) (osStr req.name)
  ∀ (now : Clock) (t' : FileTree),
    t.symlink rules now (s.realPath (osStr req.linkPath)) target = .ok t' →
      ∃ file, t'.reach rules target = .ok file

/-- The changes that a request asks for are made together or not at all: by path, where the path
leads to a file afterwards; by handle, where the handle's file is open. -/
def Server.SetsCleanly (s : Server) (rules : Rules) (req : SetAttrRequest)
    (fh : UInt64 → Option (Fd × Path)) (os : Posix) : Prop :=
  match req.attr, req.path, req.fh with
  | none, _, _ => True
  | some attr, _, some h => ∀ fd path, fh h = some (fd, path) →
    Change.AllOrNothing rules (s.realPath path)
      (fun t => ∃ i options f, os.fds fd = some (i, options) ∧ t.node i = some f)
      attr.changes os.tree
  | some attr, some path, none =>
    Change.AllOrNothing rules (s.realPath (osStr path))
      (fun t => ∃ file, t.reach rules (s.realPath (osStr path)) = .ok file) attr.changes os.tree
  | some _, none, none => True

/-- When the mutation leaves the tree as it was, if it fails. -/
def Server.Clean (s : Server) (rules : Rules) (m : Mutation) (fh : UInt64 → Option (Fd × Path))
    (os : Posix) : Prop :=
  match m with
  | .setAttr req => s.SetsCleanly rules req fh os
  | .symlink req => s.LinkLeads rules req os.tree
  | .mkdir _ | .create _ | .rename _ | .unlink _ | .rmdir _ => True

section

variable {s : Server} {rules : Rules} {P : Type u} [DecidableEq P] {p : P} {w w' : World P Posix}

/-- A call that changes the tree, and then nothing more, fails cleanly. -/
theorem unchanged_of_performs {x : Handler Unit} {make : Time → FileTree → Except Int32 FileTree}
    (hx : Performs rules p w x make) {e : Failure}
    (h : Ends (World.semantics (posix rules)) p x w (.error e) w') : w'.os.tree = w.os.tree := by
  obtain ⟨now, ⟨t, -, hr, -⟩ | ⟨e, e', -, -, htree⟩⟩ := hx.of_ends h
  · contradiction
  · exact htree

/-- A call that changes the tree, and then a look at the file. -/
theorem ends_look {x : Handler Unit} {make : Time → FileTree → Except Int32 FileTree} {path : Path}
    {e : Int32} (hx : Performs rules p w x make)
    (h : Ends (World.semantics (posix rules)) p (x >>= fun _ => getAttrFromPath path) w
      (.error (.errno e)) w') :
    w'.os.tree = w.os.tree ∨ ∃ (now : Clock) (t : FileTree), make now w.os.tree = .ok t ∧
      w'.os.tree = t ∧ ∀ file, t.reach rules path ≠ .ok file := by
  obtain ⟨⟨⟩, w₁, hmade, hlook⟩ | ⟨e', hmade, -⟩ := ends_bind.1 h
  · obtain ⟨now, ⟨t, hmake, -, rfl⟩ | ⟨e, e', -, hr, -⟩⟩ := hx.of_ends hmade
    · obtain ⟨rfl, hr⟩ := ends_getAttrFromPath.1 hlook
      refine Or.inr ⟨now, t, hmake, rfl, fun file hfile => ?_⟩
      rw [World.withTree_tree, hfile] at hr
      contradiction
    · contradiction
  · exact Or.inl (unchanged_of_performs hx hmade)

theorem performs_mkdir {path : Path} {mode : UInt32} :
    Performs rules p w (attempt .errno (.mkdir path mode))
      fun now t => t.mkdir rules now path mode :=
  performs_of_tries (fun _ => rfl) (fun _ _ => rfl) fun _ => ⟨_, rfl⟩

theorem performs_symlink {source target : Path} :
    Performs rules p w (attempt .ofIoError (.symlink source target))
      fun now t => t.symlink rules now source target :=
  performs_of_tries (fun _ => rfl) (fun _ _ => rfl) fun _ => ⟨_, rfl⟩

theorem performs_unlink {path : Path} :
    Performs rules p w (attempt .errno (.unlink path)) fun now t => t.unlink rules now path :=
  performs_of_tries (fun _ => rfl) (fun _ _ => rfl) fun _ => ⟨_, rfl⟩

theorem performs_removeDir {path : Path} :
    Performs rules p w (attempt .ofIoError (.removeDir path)) fun now t => t.rmdir rules now path :=
  performs_of_tries (fun _ => rfl) (fun _ _ => rfl) fun _ => ⟨_, rfl⟩

theorem performs_rename {origin path : Path} :
    Performs rules p w (attempt .ofIoError (.rename origin path))
      fun now t => t.rename rules now origin path :=
  performs_of_tries (fun _ => rfl) (fun _ _ => rfl) fun _ => ⟨_, rfl⟩

/-- An errno that is answered is the handler's. -/
theorem ends_of_map {α β : Type} {f : α → β} {x : Handler α} {e : Failure}
    (h : Ends (World.semantics (posix rules)) p (f <$> x) w (.error e) w') :
    Ends (World.semantics (posix rules)) p x w (.error e) w' := by
  obtain ⟨r, h, hr⟩ := ends_map.1 h
  cases r with
  | error e' =>
    cases hr
    exact h
  | ok a => contradiction

theorem failsClean_mkdir (req : MkdirRequest) : s.FailsClean rules p (.mkdir req) w := by
  intro e w' h
  obtain htree | ⟨now, t, hmake, -, hlost⟩ := ends_look performs_mkdir (ends_of_map h)
  · exact htree
  · obtain ⟨new, hreach⟩ := reach_mkdir hmake
    exact absurd hreach (hlost _)

/-- The descriptor of a file that was just opened can be looked at. -/
theorem ends_fileMetadata {options : OpenOptions} {path : Path} {fd : Fd} {w₁ w₂ : World P Posix}
    (hopen : Ends (World.semantics (posix rules)) p
      (attempt Failure.ofIoError (.openFile options path)) w (.ok fd) w₁)
    {r : Except Failure Metadata}
    (h : Ends (World.semantics (posix rules)) p (attempt Failure.ofIoError (.fileMetadata fd)) w₂ r
      w') (hos : w₂.os = w₁.os) :
    ∃ f, r = .ok (metadataOf f) := by
  obtain ⟨o, a, hcall, ha⟩ := ends_attempt.1 hopen
  rw [exec_openFile] at hcall
  split at hcall
  · next fd' os hos' =>
    cases hcall
    cases ha
    obtain ⟨i, tree, htree, -, -, rfl⟩ := openFile_eq_ok hos'
    obtain ⟨f, hf⟩ := node_of_openFile htree
    obtain ⟨o', a, hcall, rfl⟩ := ends_attempt.1 h
    have hfile : w₂.os.file fd = .ok (i, options, f) := by
      rw [hos]
      exact Posix.file_eq_ok.2 ⟨Function.update_self .., hf⟩
    have hexec : (World.semantics (posix rules)).exec p o' (.fileMetadata fd) w₂ =
        some (((w₂.os.file fd).map fun r => metadataOf r.2.2).mapError fun e => ⟨some e⟩, w₂) := rfl
    rw [hexec, hfile] at hcall
    cases hcall
    exact ⟨f, rfl⟩
  · cases hcall
    contradiction

theorem failsClean_create (req : CreateRequest) : s.FailsClean rules p (.create req) w := by
  intro e w' h
  obtain ⟨fd, w₁, hopen, h⟩ | ⟨e', hopen, -⟩ := ends_bind.1 (ends_of_map h)
  · obtain ⟨fh, w₂, halloc, h⟩ | ⟨e', halloc, -⟩ := ends_bind.1 h
    · obtain ⟨o, a, hcall, ha⟩ := ends_perform.1 halloc
      cases hcall
      obtain ⟨m, w₃, hmeta, h⟩ | ⟨e', hmeta, -⟩ := ends_bind.1 h
      · obtain ⟨f, hf⟩ := ends_fileMetadata hopen hmeta rfl
        cases hf
        obtain ⟨⟨⟩, w₄, -, h⟩ | ⟨e', hinsert, -⟩ := ends_bind.1 h
        · rw [metadataToGrpc_metadataOf] at h
          obtain ⟨attr, w₅, hattr, h⟩ | ⟨e', hattr, -⟩ := ends_bind.1 h
          · exact absurd (ends_pure.1 h).1 (by simp)
          · exact absurd (ends_ofOption.1 hattr).1 (by simp)
        · obtain ⟨-, w₄, hperform, -⟩ := World.ends_withLock.1 hinsert
          obtain ⟨o, a, -, ha⟩ := ends_perform.1 hperform
          contradiction
      · obtain ⟨f, hf⟩ := ends_fileMetadata hopen hmeta rfl
        contradiction
    · obtain ⟨o, a, -, ha⟩ := ends_perform.1 halloc
      contradiction
  · obtain ⟨o, a, hcall, ha⟩ := ends_attempt.1 hopen
    rw [exec_openFile] at hcall
    split at hcall
    · cases hcall
      contradiction
    · cases hcall
      rfl

/-- **When a link is made cleanly.** -/
theorem failsClean_symlink (req : SymlinkRequest) :
    s.FailsClean rules p (.symlink req) w ↔ s.LinkLeads rules req w.os.tree := by
  constructor
  · intro h now t hmake
    cases hreach : t.reach rules (join (s.realPath (osStr req.parent)) (osStr req.name)) with
    | ok file => exact ⟨file, rfl⟩
    | error e =>
      have hlook : Ends (World.semantics (posix rules)) p (getAttrFromPath
          (join (s.realPath (osStr req.parent)) (osStr req.name))) (w.withTree t)
          (.error (.ofIoError (ioError [_] e))) (w.withTree t) :=
        ends_getAttrFromPath.2 ⟨rfl, by rw [World.withTree_tree, hreach]; rfl⟩
      have hfails : Ends (World.semantics (posix rules)) p (s.symlinkImpl req) w _ (w.withTree t) :=
        ends_bind.2 (Or.inl ⟨(), _, performs_symlink.ends_ok now t hmake, hlook⟩)
      exact absurd (h _ _ (ends_map.2 ⟨_, hfails, rfl⟩)) (ne_of_symlink hmake)
  · intro hleads e w' h
    obtain htree | ⟨now, t, hmake, -, hlost⟩ := ends_look performs_symlink (ends_of_map h)
    · exact htree
    · obtain ⟨file, hfile⟩ := hleads now t hmake
      exact absurd hfile (hlost file)

/-! ## `set_attr`

By path and by handle the changes are the same, and the look behind them is another one. -/

/-- `look` fails exactly where `final` does not hold of the tree, and changes nothing.  There are
two of them, by path and by descriptor. -/
structure Looks (rules : Rules) (p : P) (w : World P Posix) (look : Handler Attr)
    (final : FileTree → Prop) : Prop where
  of_ends : ∀ {t e w'}, Ends (World.semantics (posix rules)) p look (w.withTree t)
    (.error (.errno e)) w' → w'.os.tree = t ∧ ¬final t
  ends : ∀ {t}, ¬final t → ∃ e w', Ends (World.semantics (posix rules)) p look (w.withTree t)
    (.error (.errno e)) w' ∧ w'.os.tree = t

/-- **When changes and a look behind them fail cleanly.** -/
theorem setsCleanly_iff {look : Handler Attr} {final : FileTree → Prop} {path : Path}
    {attr : SettableAttr} (hlook : Looks rules p w look final)
    (hfinal : ∀ t t' : FileTree, t.view = t'.view → final t → final t') :
    (∀ e w', Ends (World.semantics (posix rules)) p (setAttrByPath path attr >>= fun _ => look) w
      (.error (.errno e)) w' → w'.os.tree = w.os.tree) ↔
      Change.AllOrNothing rules path final attr.changes w.os.tree := by
  rw [setAttrByPath_eq, ← Change.unchanged_iff hfinal]
  constructor
  · intro h t' all hmakes hfail
    obtain ⟨hok, herror⟩ := ends_of_makes (p := p) hmakes (w := w) rfl
    cases all with
    | true =>
      obtain ⟨e, w', hends, htree⟩ := hlook.ends fun hfinal => hfail ⟨rfl, hfinal⟩
      exact htree.symm.trans (h e w' (ends_bind.2 (Or.inl ⟨(), _, hok rfl, hends⟩)))
    | false =>
      obtain ⟨e, w', hends, htree⟩ := herror rfl
      exact htree.symm.trans (h e w' (ends_bind.2 (Or.inr ⟨_, hends, rfl⟩)))
  · intro h e w' hends
    obtain ⟨⟨⟩, w₁, hchanges, hlooks⟩ | ⟨e', hchanges, -⟩ := ends_bind.1 hends
    · obtain ⟨hmakes, -, hw₁⟩ | ⟨-, e', he'⟩ := makes_of_ends hchanges
      · rw [hw₁] at hlooks
        obtain ⟨htree, hnot⟩ := hlook.of_ends hlooks
        rw [htree]
        exact h _ _ hmakes fun hdone => hnot hdone.2
      · contradiction
    · obtain ⟨-, he', -⟩ | ⟨hmakes, -⟩ := makes_of_ends hchanges
      · contradiction
      · exact h _ _ hmakes fun hdone => by simp at hdone

theorem looks_getAttrFromPath {path : Path} :
    Looks rules p w (getAttrFromPath path) fun t => ∃ file, t.reach rules path = .ok file where
  of_ends {t e w'} h := by
    obtain ⟨rfl, hr⟩ := ends_getAttrFromPath.1 h
    refine ⟨rfl, fun ⟨file, hfile⟩ => ?_⟩
    rw [World.withTree_tree, hfile] at hr
    contradiction
  ends {t} hnot := by
    cases hreach : t.reach rules path with
    | ok file => exact absurd ⟨file, hreach⟩ hnot
    | error e =>
      refine ⟨(ioError [path] e).errno, w.withTree t, ends_getAttrFromPath.2 ⟨rfl, ?_⟩, rfl⟩
      rw [World.withTree_tree, hreach]
      rfl

theorem looks_fileMetadata {fd : Fd} :
    Looks rules p w
      (attempt .ofIoError (.fileMetadata fd) >>= fun m => ofOption .panic (metadataToGrpc m))
      fun t => ∃ i options f, w.os.fds fd = some (i, options) ∧ t.node i = some f where
  of_ends {t e w'} h := by
    obtain ⟨rfl, hr⟩ := ends_fileAttr.1 h
    refine ⟨rfl, fun ⟨i, options, f, hfd, hnode⟩ => ?_⟩
    have hfile : (w.withTree t).os.file fd = .ok (i, options, f) :=
      Posix.file_eq_ok.2 ⟨hfd, hnode⟩
    rw [hfile] at hr
    contradiction
  ends {t} hnot := by
    cases hfile : (w.withTree t).os.file fd with
    | ok file =>
      obtain ⟨i, options, f⟩ := file
      obtain ⟨hfd, hnode⟩ := Posix.file_eq_ok.1 hfile
      exact absurd ⟨i, options, f, hfd, hnode⟩ hnot
    | error e =>
      refine ⟨e, w.withTree t, ends_fileAttr.2 ⟨rfl, ?_⟩, rfl⟩
      rw [hfile]
      rfl

/-- What a handler that holds a handle's lock for reading does, if it is alone. -/
theorem ends_withHandle {α : Type} {fh : UInt64} {x : Fd × Path → Handler α}
    {r : Except Failure α} (hheld : w.held = []) :
    Ends (World.semantics (posix rules)) p
        (withLock .fh .read (do
          let file ← ofOption (.errno EEXIST) (← perform (.fhGet fh))
          withLock (.file fh) .read (x file))) w r w' ↔
      (w.fh fh = none ∧ r = .error (.errno EEXIST) ∧ w' = w) ∨
      ∃ file w₁, w.fh fh = some file ∧
        Ends (World.semantics (posix rules)) p (x file)
          { w with held := [(p, .file fh, .read), (p, .fh, .read)] } r w₁ ∧
        w' = { w₁ with held := (w₁.held.erase (p, .file fh, .read)).erase (p, .fh, .read) } := by
  let w₀ : World P Posix := { w with held := [(p, .fh, .read)] }
  have hfree : ∀ l, w.free l .read = true := by simp [World.free, hheld]
  have hfree₀ : ∀ l, w₀.free l .read = true := by simp [w₀, World.free]
  have hget : ∀ r w₁, Ends (World.semantics (posix rules)) p (perform (.fhGet fh) : Handler _) w₀ r
      w₁ ↔ r = .ok (w.fh fh) ∧ w₁ = w₀ := fun r w₁ => ends_perform_of fun _ => rfl
  have hbody : ∀ r w₁, Ends (World.semantics (posix rules)) p (do
      let file ← ofOption (.errno EEXIST) (← perform (.fhGet fh))
      withLock (.file fh) .read (x file)) w₀ r w₁ ↔
      (w.fh fh = none ∧ r = .error (.errno EEXIST) ∧ w₁ = w₀) ∨
      ∃ file w₂, w.fh fh = some file ∧ Ends (World.semantics (posix rules)) p (x file)
        { w₀ with held := (p, .file fh, .read) :: w₀.held } r w₂ ∧
        w₁ = { w₂ with held := w₂.held.erase (p, .file fh, .read) } := by
    intro r w₁
    rw [ends_bind_of_ok hget]
    cases w.fh fh with
    | none =>
      have herror : ∀ r w₁, Ends (World.semantics (posix rules)) p
          (ofOption (.errno EEXIST) (none : Option (Fd × Path)) : Handler _) w₀ r w₁ ↔
          r = .error (.errno EEXIST) ∧ w₁ = w₀ := by simp [eq_comm]
      rw [ends_bind_of_error herror]
      simp
    | some file =>
      have hok : ∀ r w₁, Ends (World.semantics (posix rules)) p
          (ofOption (.errno EEXIST) (some file) : Handler _) w₀ r w₁ ↔
          r = .ok file ∧ w₁ = w₀ := by simp [eq_comm]
      rw [ends_bind_of_ok hok, World.ends_withLock]
      simp [hfree₀]
  rw [World.ends_withLock]
  simp only [hfree, true_and, hheld]
  constructor
  · rintro ⟨w₁, hends, rfl⟩
    obtain ⟨hnone, rfl, rfl⟩ | ⟨file, w₂, hfile, hx, rfl⟩ := (hbody r w₁).1 hends
    · exact Or.inl ⟨hnone, rfl, by simp [w₀, ← hheld]⟩
    · exact Or.inr ⟨file, w₂, hfile, hx, rfl⟩
  · rintro (⟨hnone, rfl, rfl⟩ | ⟨file, w₂, hfile, hx, rfl⟩)
    · exact ⟨w₀, (hbody _ _).2 (Or.inl ⟨hnone, rfl, rfl⟩), by simp [w₀, ← hheld]⟩
    · exact ⟨_, (hbody _ _).2 (Or.inr ⟨file, w₂, hfile, hx, rfl⟩), rfl⟩

theorem exists_reach_congr {path : Path} {t t' : FileTree} (hview : t.view = t'.view)
    (h : ∃ file, t.reach rules path = .ok file) : ∃ file, t'.reach rules path = .ok file := by
  obtain ⟨⟨i, f⟩, hreach⟩ := h
  obtain ⟨hlead, hnode⟩ := reach_eq_ok.1 hreach
  obtain ⟨f', hnode'⟩ := exists_node_congr hview hnode
  exact ⟨(i, f'), reach_eq_ok.2 ⟨(lead_congr hview).symm.trans hlead, hnode'⟩⟩

/-- **When `set_attr` fails cleanly.** -/
theorem failsClean_setAttr (req : SetAttrRequest) (hheld : w.held = []) :
    s.FailsClean rules p (.setAttr req) w ↔ s.SetsCleanly rules req w.fh w.os := by
  have hmap : s.FailsClean rules p (.setAttr req) w ↔
      ∀ e w', Ends (World.semantics (posix rules)) p (s.setAttrImpl req) w (.error (.errno e)) w' →
        w'.os.tree = w.os.tree := by
    constructor
    · intro h e w' hends
      exact h e w' (ends_map.2 ⟨_, hends, rfl⟩)
    · intro h e w' hends
      exact h e w' (ends_of_map hends)
  rw [hmap]
  obtain ⟨path, fh, attr⟩ := req
  match attr, path, fh with
  | none, _, _ => exact ⟨fun _ => trivial, fun _ e w' h => by rw [(ends_throw.1 h).2]⟩
  | some _, none, none => exact ⟨fun _ => trivial, fun _ e w' h => by rw [(ends_throw.1 h).2]⟩
  | some attr, some path, none =>
    exact setsCleanly_iff looks_getAttrFromPath fun _ _ => exists_reach_congr
  | some attr, path, some h =>
    let x : Fd × Path → Handler Attr := fun file => do
      setAttrByPath (s.realPath file.2) attr
      let metadata ← attempt .ofIoError (.fileMetadata file.1)
      ofOption .panic (metadataToGrpc metadata)
    have himpl : s.setAttrImpl ⟨path, some h, some attr⟩ = withLock .fh .read (do
        let file ← ofOption (.errno EEXIST) (← perform (.fhGet h))
        withLock (.file h) .read (x file)) := by
      cases path <;> rfl
    have hcond : s.SetsCleanly rules ⟨path, some h, some attr⟩ w.fh w.os ↔
        ∀ fd path, w.fh h = some (fd, path) → Change.AllOrNothing rules (s.realPath path)
          (fun t => ∃ i options f, w.os.fds fd = some (i, options) ∧ t.node i = some f)
          attr.changes w.os.tree := by
      cases path <;> exact Iff.rfl
    rw [hcond, himpl]
    let w₂ : World P Posix := { w with held := [(p, .file h, .read), (p, .fh, .read)] }
    have hiff : ∀ fd path, _ ↔ Change.AllOrNothing rules (s.realPath path)
        (fun t => ∃ i options f, w.os.fds fd = some (i, options) ∧ t.node i = some f)
        attr.changes w.os.tree := fun fd path =>
      setsCleanly_iff (w := w₂) (looks_fileMetadata (p := p)) fun t t' hview => by
        rintro ⟨i, options, f, hfd, hnode⟩
        obtain ⟨f', hnode'⟩ := exists_node_congr hview hnode
        exact ⟨i, options, f', hfd, hnode'⟩
    constructor
    · intro hclean fd path hfile
      refine (hiff fd path).1 fun e w' hends => ?_
      have hwhole := (ends_withHandle (x := x) hheld).2 (Or.inr ⟨(fd, path), w', hfile, hends, rfl⟩)
      have htree := hclean e _ hwhole
      exact htree
    · intro hsets e w' hends
      obtain ⟨-, -, rfl⟩ | ⟨⟨fd, path⟩, w₁, hfile, hx, rfl⟩ := (ends_withHandle hheld).1 hends
      · rfl
      · exact (hiff fd path).2 (hsets fd path hfile) e w₁ hx

end

/-- **When a mutation that fails leaves the tree as it was**: exactly where it is clean. -/
theorem failsClean_iff (s : Server) (rules : Rules) {P : Type u} [DecidableEq P] (p : P)
    (m : Mutation) (fh : UInt64 → Option (Fd × Path)) (dh : UInt64 → Option (List Entry × Path))
    (fhSrc : UInt64) (os : Posix) :
    s.FailsClean rules p m (.alone P fh dh fhSrc os) ↔ s.Clean rules m fh os := by
  cases m with
  | setAttr req => exact failsClean_setAttr req rfl
  | symlink req => exact failsClean_symlink req
  | mkdir req => exact iff_of_true (failsClean_mkdir req) trivial
  | create req => exact iff_of_true (failsClean_create req) trivial
  | rename req =>
    exact iff_of_true (fun e w' h => unchanged_of_performs performs_rename (ends_of_map h)) trivial
  | unlink req =>
    exact iff_of_true (fun e w' h => unchanged_of_performs performs_unlink (ends_of_map h)) trivial
  | rmdir req =>
    exact iff_of_true (fun e w' h => unchanged_of_performs performs_removeDir (ends_of_map h))
      trivial

/-- **Failures that leave something behind.**  A link to a file that is missing is made and then
answered with an errno, and so is a change of the owner whose request also asks for a size. -/
theorem not_failsClean :
    ¬(⟨[sep], by decide⟩ : Server).FailsClean (lenientRules 0) () (.symlink ⟨"/", "l", "/gone"⟩)
      (.alone Unit (fun _ => none) (fun _ => none) 0 oneFile) ∧
    ¬(⟨[sep], by decide⟩ : Server).FailsClean (lenientRules 0) () (.setAttr
        ⟨some "/f", none, some ⟨none, some 1, none, some 0, none, none, none, none⟩⟩)
      (.alone Unit (fun _ => none) (fun _ => none) 0 oneFile) := by
  let now : Clock := ⟨⟨0, 0⟩, by decide⟩
  constructor
  · rw [failsClean_symlink]
    intro hleads
    obtain ⟨file, hfile⟩ := hleads now _ rfl
    exact absurd (show _ = true from congrArg Except.isOk hfile) (by decide)
  · rw [failsClean_setAttr _ rfl]
    rintro (hall | hrefused)
    · have hmakes : Change.Makes (lenientRules 0) [sep, 102] [.owner 1, .size 0] oneFile.tree _
          false := .made now rfl (.refused now rfl)
      exact absurd (hall _ _ hmakes).1 (by decide)
    · obtain ⟨e, he⟩ := hrefused (.owner 1) rfl now
      exact absurd (show _ = false from congrArg Except.isOk he) (by decide)

end Distfs
end DistributedPrograms
