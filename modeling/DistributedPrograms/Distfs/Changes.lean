import DistributedPrograms.Distfs.Posix

/-!
# What `set_attr` changes

The attributes that a request sets are a list of changes, made one after another until one is
refused.  `makes_of_ends` says what is left of the tree: the changes that were made, and nothing of
the one that was refused.  Whether a change is refused does not depend on when it is made, so a run
can be repeated with other times (`exists_makes_at`).

* `Change` has one constructor for each kind of attribute, `SettableAttr.changes` is the list in the
  order of `set_attr_by_path`, and `setAttrByPath_eq` says that the handler is this list, one
  handler for each.
* `Change.make` is what a change does to the tree, and `performs_handler` connects it with the
  handler.  The size is the odd one: the file is opened for reading only, so the change is refused,
  but only after the file has been opened.
* `Makes rules path cs t t' all` says that the changes `cs`, made one after another, each at its own
  time, lead from `t` to `t'`, and whether all of them were made.  `makes_of_ends` and
  `ends_of_makes` are the two directions between it and the runs of the handler.
* `Change.cases`: a change is none, or always refused, or a change of attributes.  This is the
  trichotomy on which the condition for failing cleanly rests.

Every call records the time of its change, so two runs with the same answers may still leave
different trees.  That the times can be chosen (`exists_makes_at`) is what makes "the tree is as it
was" a statement about what was done, and not about when.
-/

set_option autoImplicit false

namespace DistributedPrograms
namespace Distfs

open UnixPath UnixPath.Errno Fallible Server FileTree

universe u

/-! ## Calls that change the tree

`Tries` is about one call and `Performs` about a handler that makes one.  Either fails and leaves
the tree alone, or succeeds with the change. -/

section

variable {P : Type u} {rules : Rules} {p : P} {w w' : World P Posix}

def World.withTree (w : World P Posix) (tree : FileTree) : World P Posix :=
  { w with os := { w.os with tree } }

@[simp] theorem World.withTree_tree (tree : FileTree) : (w.withTree tree).os.tree = tree := rfl

@[simp] theorem World.withTree_self : w.withTree w.os.tree = w := rfl

@[simp] theorem World.withTree_withTree (t t' : FileTree) :
    (w.withTree t).withTree t' = w.withTree t' := rfl

variable [DecidableEq P]

/-- The call `c` makes the change `make` of the tree, or fails and makes none.  The time of the
change is that of the call. -/
def Tries (rules : Rules) {ε : Type} (c : Call (Except ε Unit)) (err : Int32 → ε)
    (make : Time → FileTree → Except Int32 FileTree) : Prop :=
  ∀ (o : Chance) (s : Posix), (posix rules).exec o c s = s.tried err (make o.now s.tree)

/-- **A call that changes the tree succeeds with the change, or leaves everything as it is.** -/
theorem ends_of_tries {ε : Type} {c : Call (Except ε Unit)} {err : Int32 → ε}
    {make : Time → FileTree → Except Int32 FileTree} {f : ε → Failure} {r : Except Failure Unit}
    (hexec : ∀ (o : Chance), (World.semantics (posix rules)).exec p o c w =
      some (((posix rules).exec o c w.os).1, { w with os := ((posix rules).exec o c w.os).2 }))
    (h : Tries rules c err make) :
    Ends (World.semantics (posix rules)) p (attempt f c) w r w' ↔ ∃ now : Clock,
      (∃ t, make now w.os.tree = .ok t ∧ r = .ok () ∧ w' = w.withTree t) ∨
      ∃ e, make now w.os.tree = .error e ∧ r = .error (f (err e)) ∧ w' = w := by
  rw [ends_attempt]
  constructor
  · rintro ⟨o, a, hcall, rfl⟩
    rw [hexec, h] at hcall
    refine ⟨o.now, ?_⟩
    cases hmake : make o.now w.os.tree with
    | ok t =>
      rw [hmake] at hcall
      cases hcall
      exact Or.inl ⟨t, rfl, rfl, rfl⟩
    | error e =>
      rw [hmake] at hcall
      cases hcall
      exact Or.inr ⟨e, rfl, rfl, rfl⟩
  · rintro ⟨now, hmade⟩
    obtain ⟨o⟩ : Nonempty Chance := inferInstance
    obtain ⟨t, hmake, rfl, rfl⟩ | ⟨e, hmake, rfl, rfl⟩ := hmade
    · exact ⟨{ o with now }, .ok (), by rw [hexec, h, hmake]; rfl, rfl⟩
    · exact ⟨{ o with now }, .error (err e), by rw [hexec, h, hmake]; rfl, rfl⟩

/-- `x` makes the change `make` of the tree, or answers an errno and makes none.  It may look at the
tree and open files besides. -/
structure Performs (rules : Rules) (p : P) (w : World P Posix) (x : Handler Unit)
    (make : Time → FileTree → Except Int32 FileTree) : Prop where
  of_ends : ∀ {r w'}, Ends (World.semantics (posix rules)) p x w r w' → ∃ now : Clock,
    (∃ t, make now w.os.tree = .ok t ∧ r = .ok () ∧ w' = w.withTree t) ∨
    ∃ e e', make now w.os.tree = .error e ∧ r = .error (.errno e') ∧ w'.os.tree = w.os.tree
  ends_ok : ∀ (now : Clock) (t : FileTree), make now w.os.tree = .ok t →
    Ends (World.semantics (posix rules)) p x w (.ok ()) (w.withTree t)
  ends_error : ∀ (now : Clock) (e : Int32), make now w.os.tree = .error e →
    ∃ e' w', Ends (World.semantics (posix rules)) p x w (.error (.errno e')) w' ∧
      w'.os.tree = w.os.tree

theorem performs_of_tries {ε : Type} {c : Call (Except ε Unit)} {err : Int32 → ε}
    {make : Time → FileTree → Except Int32 FileTree} {f : ε → Failure}
    (hexec : ∀ (o : Chance), (World.semantics (posix rules)).exec p o c w =
      some (((posix rules).exec o c w.os).1, { w with os := ((posix rules).exec o c w.os).2 }))
    (h : Tries rules c err make) (herrno : ∀ e, ∃ e', f (err e) = .errno e') :
    Performs rules p w (attempt f c) make where
  of_ends hends := by
    obtain ⟨now, hmade | ⟨e, hmake, rfl, rfl⟩⟩ := (ends_of_tries hexec h).1 hends
    · exact ⟨now, Or.inl hmade⟩
    · obtain ⟨e', he'⟩ := herrno e
      exact ⟨now, Or.inr ⟨e, e', hmake, by rw [he'], rfl⟩⟩
  ends_ok now t hmake := (ends_of_tries hexec h).2 ⟨now, Or.inl ⟨t, hmake, rfl, rfl⟩⟩
  ends_error now e hmake := by
    obtain ⟨e', he'⟩ := herrno e
    exact ⟨e', w, (ends_of_tries hexec h).2 ⟨now, Or.inr ⟨e, hmake, by rw [he'], rfl⟩⟩, rfl⟩

end

/-! ## Changes

The attributes that a request leaves out give no change. -/

/-- A change that a request asks for, one for each attribute that can be set. -/
inductive Change where
  | owner (uid : UInt32)
  | group (gid : UInt32)
  | size (len : UInt64)
  | mtime (ts : Timestamp)
  | atime (ts : Timestamp)
  | mode (bits : UInt32)

/-- The changes that `set_attr_by_path` makes, in its order. -/
def SettableAttr.changes (attr : SettableAttr) : List Change :=
  attr.uid.toList.map .owner ++ attr.gid.toList.map .group ++ attr.size.toList.map .size ++
    attr.mtime.toList.map .mtime ++ attr.atime.toList.map .atime ++ attr.mode.toList.map .mode

namespace Change

/-- How `set_attr_by_path` makes a change.  All are one call but the size, for which the file is
opened. -/
def handler (path : Path) : Change → Handler Unit
  | .owner uid => attempt (.ofIoError ∘ fileOwnerErrorToIoError) (.setOwner path uid)
  | .group gid => attempt (.ofIoError ∘ fileOwnerErrorToIoError) (.setGroup path gid)
  | .size len => do
    let file ← attempt .ofIoError (.openFile
      { create := false, append := false, write := false, read := true, mode := 0o666 } path)
    attempt .ofIoError (.fileSetLen file len)
  | .mtime ts => attempt .ofIoError (.setFileMtime path ts.seconds ts.nanos.toUInt32)
  | .atime ts => attempt .ofIoError (.setFileAtime path ts.seconds ts.nanos.toUInt32)
  | .mode bits => attempt .ofIoError (.setPermissions path bits)

/-- What a change does to the tree.  The size is never changed: the file is opened for reading
only. -/
def make (rules : Rules) (path : Path) (c : Change) (now : Time) (t : FileTree) :
    Except Int32 FileTree :=
  match c with
  | .owner uid => t.chown rules now path uid
  | .group gid => t.chgrp rules now path gid
  | .size _ => .error EINVAL
  | .mtime ts => t.utimens rules now path .omitted (timeArg ts.seconds ts.nanos.toUInt32)
  | .atime ts => t.utimens rules now path (timeArg ts.seconds ts.nanos.toUInt32) .omitted
  | .mode bits => t.chmod rules now path bits

/-- The change is none: a time that is to be left as it is. -/
def IsNone (path : Path) : Change → Prop
  | .mtime ts | .atime ts => 0 ∉ path ∧ timeArg ts.seconds ts.nanos.toUInt32 = .omitted
  | _ => False

instance (path : Path) (c : Change) : Decidable (c.IsNone path) := by
  cases c <;> unfold IsNone <;> infer_instance

/-- The changes are made one after another, each at its own time, until one is refused; the last
argument says whether all are made. -/
inductive Makes (rules : Rules) (path : Path) : List Change → FileTree → FileTree → Bool → Prop
  | done {t : FileTree} : Makes rules path [] t t true
  | refused {c : Change} {cs : List Change} {t : FileTree} {e : Int32} (now : Clock)
      (h : c.make rules path now t = .error e) : Makes rules path (c :: cs) t t false
  | made {c : Change} {cs : List Change} {t t₁ t' : FileTree} {all : Bool} (now : Clock)
      (h : c.make rules path now t = .ok t₁) (hrest : Makes rules path cs t₁ t' all) :
      Makes rules path (c :: cs) t t' all

end Change

theorem forM_toList {α : Type} (a : Option α) (g : α → Change) (path : Path) :
    (a.toList.map g).forM (Change.handler path) = whenSome a fun a => (g a).handler path := by
  cases a with
  | none => rfl
  | some a => exact bind_pure_unit

/-- **`set_attr_by_path` makes the changes of the request.** -/
theorem setAttrByPath_eq (path : Path) (attr : SettableAttr) :
    setAttrByPath path attr = forM attr.changes (Change.handler path) := by
  rw [SettableAttr.changes]
  simp only [List.forM_append, bind_assoc]
  have key := @forM_toList
  simp only [List.forM_eq_forM] at key
  simp only [key]
  rfl

/-! ## One change

Everything but the size is one call. -/

section

variable {P : Type u} [DecidableEq P] {rules : Rules} {p : P} {w w' : World P Posix}
  {r : Except Failure Unit} {path : Path}

/-- A file that is open for reading only keeps its size. -/
theorem setLen_of_read (rules : Rules) (now : Time) (len : UInt64) {s : Posix} {fd : Fd} {i : Ino}
    {options : OpenOptions} (hfd : s.fds fd = some (i, options)) (hwrite : options.write = false)
    (happend : options.append = false) : ∃ e, s.setLen rules now fd len = .error e := by
  cases h : s.setLen rules now fd len with
  | error e => exact ⟨e, rfl⟩
  | ok t =>
    obtain ⟨⟨i', options', f⟩, hfile, h⟩ := bind_eq_ok.1 h
    obtain ⟨⟨⟩, hwritable, h⟩ := bind_eq_ok.1 h
    obtain ⟨hfd', -⟩ := Posix.file_eq_ok.1 hfile
    obtain ⟨-, rfl⟩ : i = i' ∧ options = options' := by simpa using hfd.symm.trans hfd'
    rw [refuseIf_eq_ok, hwrite, happend] at hwritable
    contradiction

theorem openFile_eq_ok {s s' : Posix} {fd : Fd} {options : OpenOptions} {now : Time}
    (h : Posix.openFile rules now s options path = .ok (fd, s')) :
    ∃ i tree, s.tree.openFile rules now options.create options.read
        (options.write || options.append) options.mode path = .ok (i, tree) ∧
      (options.create = true → (options.write || options.append) = true) ∧ fd = s.nextFd ∧
      s' = { tree, fds := Function.update s.fds fd (some (i, options)), nextFd := s.nextFd + 1 } := by
  obtain ⟨⟨⟩, -, h⟩ := bind_eq_ok.1 h
  obtain ⟨⟨⟩, hcreate, h⟩ := bind_eq_ok.1 h
  obtain ⟨⟨i, tree⟩, hopen, h⟩ := bind_eq_ok.1 h
  cases h
  refine ⟨i, tree, hopen, ?_, rfl, rfl⟩
  rw [refuseIf_eq_ok] at hcreate
  simpa [or_iff_not_imp_left] using hcreate

theorem exec_openFile (o : Chance) (options : OpenOptions) :
    (World.semantics (posix rules)).exec p o (.openFile options path) w =
      match Posix.openFile rules o.now w.os options path with
      | .ok (fd, s) => some (.ok fd, { w with os := s })
      | .error e => some (.error (ioError [path] e), w) := by
  show some _ = _
  simp only [posix, Posix.exec]
  cases Posix.openFile rules o.now w.os options path <;> rfl

/-- What the handler of a size opens its file with. -/
def sizeOptions : OpenOptions :=
  { create := false, append := false, write := false, read := true, mode := 0o666 }

/-- The file that the handler of a size has opened keeps its size, and the tree is as before. -/
theorem setLen_refused {o : Chance} {fd : Fd} {s : Posix}
    (hopen : Posix.openFile rules o.now w.os sizeOptions path = .ok (fd, s)) (o' : Chance)
    (len : UInt64) : s.tree = w.os.tree ∧
      ∃ e, (World.semantics (posix rules)).exec p o' (.fileSetLen fd len) { w with os := s } =
        some (.error ⟨some e⟩, { w with os := s }) := by
  obtain ⟨i, tree, htree, -, -, rfl⟩ := openFile_eq_ok hopen
  refine ⟨tree_of_openFile htree, ?_⟩
  obtain ⟨e, hset⟩ := setLen_of_read rules o'.now len
    (Function.update_self fd (some (i, sizeOptions)) w.os.fds) rfl rfl
    (s := ⟨tree, Function.update w.os.fds fd (some (i, sizeOptions)), w.os.nextFd + 1⟩)
  refine ⟨e, ?_⟩
  show some _ = _
  simp only [posix, Posix.exec, hset]
  rfl

/-- A change of the size is refused: the file is opened, if at all, and left as it is. -/
theorem ends_size {len : UInt64}
    (h : Ends (World.semantics (posix rules)) p ((Change.size len).handler path) w r w') :
    (∃ e, r = .error (.errno e)) ∧ w'.os.tree = w.os.tree := by
  obtain ⟨fd, w₁, hopen, hset⟩ | ⟨e, hopen, rfl⟩ := ends_bind.1 h
  · obtain ⟨o, a, hcall, ha⟩ := ends_attempt.1 hopen
    rw [exec_openFile] at hcall
    split at hcall
    · next fd' s hopen =>
      cases hcall
      cases ha
      obtain ⟨o', a, hcall, rfl⟩ := ends_attempt.1 hset
      obtain ⟨htree, e, hcall'⟩ := setLen_refused (p := p) hopen o' len
      rw [hcall'] at hcall
      cases hcall
      exact ⟨⟨_, rfl⟩, htree⟩
    · cases hcall
      cases ha
  · obtain ⟨o, a, hcall, ha⟩ := ends_attempt.1 hopen
    rw [exec_openFile] at hcall
    split at hcall
    · cases hcall
      cases ha
    · cases hcall
      exact ⟨⟨_, congrArg _ (Except.error.inj ha).symm⟩, rfl⟩

/-- And it does end. -/
theorem exists_ends_size (o : Chance) (len : UInt64) : ∃ e w',
    Ends (World.semantics (posix rules)) p ((Change.size len).handler path) w
      (.error (.errno e)) w' ∧ w'.os.tree = w.os.tree := by
  cases hopen : Posix.openFile rules o.now w.os sizeOptions path with
  | ok opened =>
    obtain ⟨fd, s⟩ := opened
    obtain ⟨htree, e, hset⟩ := setLen_refused (p := p) hopen o len
    refine ⟨e, { w with os := s }, ends_bind.2 (Or.inl ⟨fd, { w with os := s }, ?_, ?_⟩), htree⟩
    · exact ends_attempt.2 ⟨o, .ok fd, by rw [exec_openFile, ← sizeOptions, hopen], rfl⟩
    · exact ends_attempt.2 ⟨o, _, hset, rfl⟩
  | error e =>
    refine ⟨(ioError [path] e).errno, w, ends_bind.2 (Or.inr ⟨_, ?_, rfl⟩), rfl⟩
    exact ends_attempt.2 ⟨o, _, by rw [exec_openFile, ← sizeOptions, hopen], rfl⟩

theorem performs_size {len : UInt64} :
    Performs rules p w ((Change.size len).handler path) ((Change.size len).make rules path) := by
  obtain ⟨o⟩ : Nonempty Chance := inferInstance
  refine ⟨fun h => ?_, fun _ _ h => by contradiction, fun _ _ _ => exists_ends_size o len⟩
  obtain ⟨⟨e, rfl⟩, htree⟩ := ends_size h
  exact ⟨o.now, Or.inr ⟨EINVAL, e, rfl, rfl, htree⟩⟩

/-- **Every change of a request is made by its handler.** -/
theorem performs_handler (c : Change) :
    Performs rules p w (c.handler path) (c.make rules path) := by
  cases c with
  | size len => exact performs_size
  | owner uid => exact performs_of_tries (fun _ => rfl) (fun _ _ => rfl) fun _ => ⟨_, rfl⟩
  | group gid => exact performs_of_tries (fun _ => rfl) (fun _ _ => rfl) fun _ => ⟨_, rfl⟩
  | mtime ts => exact performs_of_tries (fun _ => rfl) (fun _ _ => rfl) fun _ => ⟨_, rfl⟩
  | atime ts => exact performs_of_tries (fun _ => rfl) (fun _ _ => rfl) fun _ => ⟨_, rfl⟩
  | mode bits => exact performs_of_tries (fun _ => rfl) (fun _ _ => rfl) fun _ => ⟨_, rfl⟩

/-! ## All changes

A list of changes is made from the front, each in the tree that the one before has left, until one
is refused. -/

/-- **What the changes of a request leave of the tree.** -/
theorem makes_of_ends {cs : List Change} {r : Except Failure Unit}
    (h : Ends (World.semantics (posix rules)) p (forM cs (Change.handler path)) w r w') :
    (Change.Makes rules path cs w.os.tree w'.os.tree true ∧ r = .ok () ∧
      w' = w.withTree w'.os.tree) ∨
    (Change.Makes rules path cs w.os.tree w'.os.tree false ∧ ∃ e, r = .error (.errno e)) := by
  induction cs generalizing w with
  | nil =>
    obtain ⟨rfl, rfl⟩ := ends_pure.1 h
    exact Or.inl ⟨.done, rfl, rfl⟩
  | cons c cs ih =>
    rw [List.forM_cons] at h
    obtain ⟨⟨⟩, w₁, hc, hrest⟩ | ⟨e, hc, rfl⟩ := ends_bind.1 h
    · obtain ⟨now, ⟨t, hmake, -, rfl⟩ | ⟨e, e', -, hr, -⟩⟩ := (performs_handler c).of_ends hc
      · obtain ⟨hmakes, rfl, hw'⟩ | ⟨hmakes, hr⟩ := ih hrest
        · exact Or.inl ⟨.made now hmake hmakes, rfl, hw'⟩
        · exact Or.inr ⟨.made now hmake hmakes, hr⟩
      · contradiction
    · obtain ⟨now, ⟨t, -, hr, -⟩ | ⟨e', e'', hmake, hr, htree⟩⟩ := (performs_handler c).of_ends hc
      · contradiction
      · rw [htree]
        cases hr
        exact Or.inr ⟨.refused now hmake, e'', rfl⟩

theorem ends_of_makes {cs : List Change} {t t' : FileTree} {all : Bool}
    (h : Change.Makes rules path cs t t' all) : ∀ {w : World P Posix}, w.os.tree = t →
    (all = true → Ends (World.semantics (posix rules)) p (forM cs (Change.handler path)) w (.ok ())
      (w.withTree t')) ∧
    (all = false → ∃ e w', Ends (World.semantics (posix rules)) p
      (forM cs (Change.handler path)) w (.error (.errno e)) w' ∧ w'.os.tree = t') := by
  induction h with
  | done =>
    rintro w rfl
    exact ⟨fun _ => ends_pure.2 ⟨rfl, rfl⟩, fun h => by contradiction⟩
  | refused now hmake =>
    rintro w rfl
    refine ⟨fun h => by contradiction, fun _ => ?_⟩
    obtain ⟨e, w', hends, htree⟩ := (performs_handler _).ends_error _ _ hmake
    exact ⟨e, w', ends_bind.2 (Or.inr ⟨_, hends, rfl⟩), htree⟩
  | @made c cs _ t₁ t' all now hmake _ ih =>
    rintro w rfl
    have hc : Ends (World.semantics (posix rules)) p (c.handler path) w (.ok ()) (w.withTree t₁) :=
      (performs_handler c).ends_ok _ _ hmake
    obtain ⟨hok, herror⟩ := ih (w := w.withTree t₁) rfl
    constructor
    · intro hall
      exact ends_bind.2 (Or.inl ⟨(), _, hc, hok hall⟩)
    · intro hall
      obtain ⟨e, w', hrest, htree⟩ := herror hall
      exact ⟨e, w', ends_bind.2 (Or.inl ⟨(), _, hc, hrest⟩), htree⟩

end

/-! ## Changes at other times

Two runs with different clocks do the same to everything but the times. -/

namespace Change

section

variable {rules : Rules} {path : Path} {c : Change} {cs : List Change} {t t' s t₁ : FileTree}
  {now : Time} {all : Bool}

/-- The change `c` is the change `f` of attributes, which records its time and nothing else of it.
What it does to content and rights is `g`, and does not depend on the time. -/
structure Records (rules : Rules) (path : Path) (c : Change) (op : Operation)
    (f : Time → Inode → Inode) (g : Content × Rights → Content × Rights) : Prop where
  make_eq : ∀ now t, c.make rules path now t = t.change rules op path (f now)
  ctime : ∀ now inode, (f now inode).stat.ctime = now
  view : ∀ now inode, ((f now inode).content, (f now inode).rights) = g (inode.content, inode.rights)

theorem utimens_cases (rules : Rules) (path : Path) (atime mtime : TimeArg) :
    ((0 ∉ path ∧ atime = .omitted ∧ mtime = .omitted) ∧
      ∀ now t, FileTree.utimens rules now t path atime mtime = .ok t) ∨
    (¬(0 ∉ path ∧ atime = .omitted ∧ mtime = .omitted) ∧
      ∀ now t, ∃ e, FileTree.utimens rules now t path atime mtime = .error e) ∨
    (¬(0 ∉ path ∧ atime = .omitted ∧ mtime = .omitted) ∧ ∃ f : Time → Inode → Inode,
      (∀ now t, FileTree.utimens rules now t path atime mtime = t.change rules .utimes path (f now)) ∧
      (∀ now inode, (f now inode).stat.ctime = now) ∧
      ∀ now inode, ((f now inode).content, (f now inode).rights) =
        (inode.content, inode.rights)) := by
  by_cases hzero : 0 ∈ path
  · exact Or.inr (Or.inl ⟨fun h => h.1 hzero, fun now t => ⟨_, if_pos hzero⟩⟩)
  · by_cases hnone : atime = .omitted ∧ mtime = .omitted
    · refine Or.inl ⟨⟨hzero, hnone⟩, fun now t => ?_⟩
      rw [FileTree.utimens, if_neg hzero, if_pos hnone]
    · by_cases hinvalid : atime = .invalid ∨ mtime = .invalid
      · refine Or.inr (Or.inl ⟨fun h => hnone h.2, fun now t => ⟨Errno.EINVAL, ?_⟩⟩)
        rw [FileTree.utimens, if_neg hzero, if_neg hnone, if_pos hinvalid]
      · refine Or.inr (Or.inr ⟨fun h => hnone h.2, fun now f =>
          { f with
            stat :=
              { f.stat with
                atime := atime.apply rules now f.stat.atime
                mtime := mtime.apply rules now f.stat.mtime
                ctime := now } }, fun now t => ?_, fun _ _ => rfl, fun _ _ => rfl⟩)
        rw [FileTree.utimens, if_neg hzero, if_neg hnone, if_neg hinvalid]

/-- **A change is none, or always refused, or a change of attributes.**  Which of them does not
depend on the tree, nor on the time. -/
theorem cases (rules : Rules) (path : Path) (c : Change) :
    (c.IsNone path ∧ ∀ now t, c.make rules path now t = .ok t) ∨
    (¬c.IsNone path ∧ ∀ now t, ∃ e, c.make rules path now t = .error e) ∨
    (¬c.IsNone path ∧ ∃ op f g, Records rules path c op f g) := by
  cases c with
  | owner uid =>
    exact Or.inr (Or.inr ⟨id, _, _, fun v => (v.1, { v.2 with uid, perm := rules.chowned v.2.perm }),
      fun _ _ => rfl, fun _ _ => rfl, fun _ _ => rfl⟩)
  | group gid =>
    exact Or.inr (Or.inr ⟨id, _, _, fun v => (v.1, { v.2 with gid, perm := rules.chowned v.2.perm }),
      fun _ _ => rfl, fun _ _ => rfl, fun _ _ => rfl⟩)
  | size len => exact Or.inr (Or.inl ⟨id, fun _ _ => ⟨_, rfl⟩⟩)
  | mode bits =>
    exact Or.inr (Or.inr ⟨id, _, _, fun v => (v.1, { v.2 with perm := bits &&& 0o7777 }),
      fun _ _ => rfl, fun _ _ => rfl, fun _ _ => rfl⟩)
  | mtime ts =>
    have hnone : (Change.mtime ts).IsNone path ↔
        0 ∉ path ∧ TimeArg.omitted = .omitted ∧ timeArg ts.seconds ts.nanos.toUInt32 = .omitted := by
      simp [IsNone]
    rw [hnone]
    obtain h | h | ⟨h, f, hf⟩ :=
      utimens_cases rules path .omitted (timeArg ts.seconds ts.nanos.toUInt32)
    · exact Or.inl h
    · exact Or.inr (Or.inl h)
    · exact Or.inr (Or.inr ⟨h, .utimes, f, id, hf.1, hf.2.1, hf.2.2⟩)
  | atime ts =>
    have hnone : (Change.atime ts).IsNone path ↔
        0 ∉ path ∧ timeArg ts.seconds ts.nanos.toUInt32 = .omitted ∧ TimeArg.omitted = .omitted := by
      simp [IsNone]
    rw [hnone]
    obtain h | h | ⟨h, f, hf⟩ :=
      utimens_cases rules path (timeArg ts.seconds ts.nanos.toUInt32) .omitted
    · exact Or.inl h
    · exact Or.inr (Or.inl h)
    · exact Or.inr (Or.inr ⟨h, .utimes, f, id, hf.1, hf.2.1, hf.2.2⟩)

/-- A change that succeeds, succeeds at any time and in any tree that differs in times only. -/
theorem make_congr (now' : Time) (hview : t.view = s.view)
    (h : c.make rules path now t = .ok t₁) :
    ∃ s₁, c.make rules path now' s = .ok s₁ ∧ t₁.view = s₁.view := by
  obtain ⟨-, hnone⟩ | ⟨-, hrefused⟩ | ⟨-, op, f, g, hrecords⟩ := c.cases rules path
  · rw [hnone] at h
    cases h
    exact ⟨s, hnone _ _, hview⟩
  · obtain ⟨e, he⟩ := hrefused now t
    rw [he] at h
    contradiction
  · rw [hrecords.make_eq] at h ⊢
    obtain ⟨i, inode, hreach, hallowed, rfl⟩ := change_eq_ok.1 h
    obtain ⟨hlead, hnode⟩ := reach_eq_ok.1 hreach
    obtain ⟨inode', hnode'⟩ := exists_node_congr hview hnode
    refine ⟨_, change_eq_ok.2 ⟨i, inode', ?_, ?_, rfl⟩, ?_⟩
    · exact reach_eq_ok.2 ⟨(lead_congr hview).symm.trans hlead, hnode'⟩
    · exact (allowed_congr hview).symm.trans hallowed
    · rw [view_modify (hrecords.view now), view_modify (hrecords.view now'), hview]

/-- The file `i` was last changed at `now`.  A change at another time shows in this. -/
def Stamped (now : Time) (i : Ino) (t : FileTree) : Prop :=
  ∃ inode, t.node i = some inode ∧ inode.stat.ctime = now

theorem stamped_modify {i j : Ino} {f : Inode → Inode} (hf : ∀ inode, (f inode).stat.ctime = now)
    (h : Stamped now i t ∨ i = j ∧ (t.node j).isSome) : Stamped now i (t.modify j f) := by
  by_cases hij : i = j
  · subst hij
    obtain ⟨inode, hnode⟩ : ∃ inode, t.node i = some inode := by
      obtain ⟨inode, hnode, -⟩ | ⟨-, hsome⟩ := h
      · exact ⟨inode, hnode⟩
      · exact Option.isSome_iff_exists.1 hsome
    exact ⟨f inode, by rw [node_modify_self, hnode, Option.map_some], hf inode⟩
  · obtain ⟨inode, hnode, hctime⟩ := h.resolve_right fun h => hij h.1
    exact ⟨inode, by rw [node_modify_of_ne hij, hnode], hctime⟩

/-- A later change at the same time leaves the file as last changed then. -/
theorem stamped_make {i : Ino} (h : c.make rules path now t = .ok t₁) (hi : Stamped now i t) :
    Stamped now i t₁ := by
  obtain ⟨-, hnone⟩ | ⟨-, hrefused⟩ | ⟨-, op, f, g, hrecords⟩ := c.cases rules path
  · rw [hnone] at h
    cases h
    exact hi
  · obtain ⟨e, he⟩ := hrefused now t
    rw [he] at h
    contradiction
  · rw [hrecords.make_eq] at h
    obtain ⟨j, inode, -, -, rfl⟩ := change_eq_ok.1 h
    exact stamped_modify (hrecords.ctime now) (Or.inl hi)

/-- **Changes can be made at one time as well.**  Whatever they do besides, they do at any other
time too, so a run can be repeated by a clock that stands still. -/
theorem exists_makes_at (h : Makes rules path cs t t' all) (hview : t.view = s.view) (now : Clock)
    {i : Ino} (hi : Stamped now i s) :
    ∃ s', Makes rules path cs s s' all ∧ t'.view = s'.view ∧ Stamped now i s' := by
  induction h generalizing s with
  | done => exact ⟨s, .done, hview, hi⟩
  | @refused c cs t e now' hmake =>
    refine ⟨s, ?_, hview, hi⟩
    cases hs : c.make rules path now s with
    | error e' => exact .refused now hs
    | ok s₁ =>
      obtain ⟨t₁, ht₁, -⟩ := make_congr now' hview.symm hs
      rw [ht₁] at hmake
      contradiction
  | made _ hmake _ ih =>
    obtain ⟨s₁, hs₁, hview₁⟩ := make_congr now hview hmake
    obtain ⟨s', hs', hview', hi'⟩ := ih hview₁ (stamped_make hs₁ hi)
    exact ⟨s', .made now hs₁ hs', hview', hi'⟩

end

end Change

end Distfs
end DistributedPrograms
