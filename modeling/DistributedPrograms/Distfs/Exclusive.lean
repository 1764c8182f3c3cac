import DistributedPrograms.Lib.Run
import DistributedPrograms.Distfs.Changes
import DistributedPrograms.Distfs.Client
import DistributedPrograms.Distfs.Uses

/-!
# Requests that are not to replace anything

A `create` with `O_EXCL` and a `rename2` with `RENAME_NOREPLACE` reach the server with their flags,
and the server makes the plain call of each, which replaces what is there unless the files or the
rights stand against it.  What can stand against it is listed in `OpenRefusal` and `RenameRefusal`,
and nothing else can (`refusal_iff`).

`noClobber` is about all interleavings of all requests: where the name of each such request is free
when it makes its call, or something on the list stands against the call, none of them replaces
anything, and of the creations of one path only one succeeds.

* `Server.exclusiveTarget` is the name that a request is not to take from another file.
* `Server.NoClobber` is the statement about a set of requests and a run of them: `Ok` only if the
  name was free at the moment of the call, and one of several creations of one path, as long as no
  request takes a name away.
* `Server.Spares` is the condition on a step, in the state before it: the name is free, or there is
  a reason on the list.  The list is about the tree, the path and the rules, never about the answer.
* `Pending` requests have not made their call with success.  A request that is not pending any more
  has made it under a free name (`madeFree_of_run`), and has taken the name for good as long as
  nothing takes names away (`Excludes`).
-/

set_option autoImplicit false

namespace DistributedPrograms
namespace Distfs

open UnixPath UnixPath.FileTree Fallible Server

universe u

/-! ## Calls that take no name away

All handlers but three keep every name, so a name that is taken stays so between the calls of
others. -/

section

variable {rules : Rules} {st : Posix}

theorem grows_tried {ε : Type} {err : Int32 → ε} {r : Except Int32 FileTree}
    (h : ∀ t, r = .ok t → Grows everywhere st.tree t) :
    Grows everywhere st.tree (st.tried err r).2.tree := by
  cases r with
  | error e => exact .refl
  | ok t => exact h t rfl

theorem grows_touched (stat : Stat) (fd : Fd) :
    Grows everywhere st.tree (st.touched stat fd).tree := by
  rw [Posix.touched]
  split
  · exact .refl
  · exact grows_modify fun inode _ => .refl _

theorem grows_setLen {now : Time} {fd : Fd} {size : UInt64} {t : FileTree}
    (h : st.setLen rules now fd size = .ok t) : Grows everywhere st.tree t := by
  obtain ⟨⟨i, options, f⟩, -, h⟩ := bind_eq_ok.1 h
  obtain ⟨⟨⟩, -, h⟩ := bind_eq_ok.1 h
  obtain ⟨⟨⟩, -, h⟩ := bind_eq_ok.1 h
  obtain ⟨⟩ := h
  exact grows_modify fun inode _ => .refl _

/-- **All other calls only add names.** -/
theorem grows_exec {β : Type} (o : Chance) (c : Call β) (h : ¬c.Removes) :
    Grows everywhere st.tree (Posix.exec rules o c st).2.tree := by
  cases c with
  | unlink path => exact absurd trivial h
  | removeDir path => exact absurd trivial h
  | rename origin path => exact absurd trivial h
  | mkdir path mode => exact grows_tried fun t ht => grows_mkdir ht
  | symlink source target => exact grows_tried fun t ht => grows_symlink ht
  | openFile options path =>
    rw [Posix.exec]
    split
    · next fd st' hopen =>
      obtain ⟨i, t, ht, -, -, rfl⟩ := openFile_eq_ok hopen
      exact grows_openFile ht
    · exact .refl
  | setOwner path uid => exact grows_tried fun t ht => grows_change ht fun _ => rfl
  | setGroup path gid => exact grows_tried fun t ht => grows_change ht fun _ => rfl
  | setFileMtime path seconds nanos => exact grows_tried fun t ht => grows_utimens ht
  | setFileAtime path seconds nanos => exact grows_tried fun t ht => grows_utimens ht
  | setPermissions path mode => exact grows_tried fun t ht => grows_change ht fun _ => rfl
  | fileSetLen fd size => exact grows_tried fun t ht => grows_setLen ht
  | fileSeek fd pos => exact grows_touched _ fd
  | fileRead fd size => exact grows_touched _ fd
  | fileWrite fd data => exact grows_touched _ fd
  | fileFlush fd => exact grows_touched _ fd
  | fsync fd => exact grows_touched _ fd
  | fallocate fd mode offset length => exact grows_touched _ fd
  | copyFileRange fdIn offsetIn fdOut offsetOut length =>
    exact (grows_touched _ fdIn).trans (grows_touched _ fdOut)
  | access path flag =>
    rw [Posix.exec]
    split <;> exact .refl
  | _ => exact .refl

/-- The shared state after a call that takes no name away. -/
theorem grows_world {P : Type u} [DecidableEq P] {p : P} {o : Chance} {β : Type} {c : Call β}
    {b : β} {w w' : World P Posix} (hc : ¬c.Removes)
    (h : (World.semantics (posix rules)).exec p o c w = some (b, w')) :
    Grows everywhere w.os.tree w'.os.tree := by
  rcases World.os_of_exec h with hos | hos
  · rw [hos]
    exact .refl
  · rw [hos]
    exact grows_exec o c hc

end

/-! ## Requests that take no name away

The handlers one by one; it is enough to see which calls they make. -/

/-- A call that takes no name away.  It may add names, and change what is under them. -/
def KeepsNames {β : Type} (c : Call β) : Prop := ¬c.Removes

/-- **All handlers but three take no name away.** -/
theorem keepsNames_handle (s : Server) {req : Request} (h : ¬req.Removes) :
    Uses KeepsNames (s.handle req) :=
  (makes_handle s req).mono fun _ hc hremoves => h (hc.1 hremoves)

/-! ## Requests that are not to replace anything

The two handlers begin with their call, so a request has either not begun, or its call is behind it.
-/

def O_EXCL : UInt32 := 0o200

def RENAME_NOREPLACE : UInt32 := 1

/-- The path under which a `create` or a `rename` puts a file. -/
def Server.target (s : Server) (parent name : String) : Path :=
  join (s.realPath (osStr parent)) (osStr name)

/-- The name that a request is not to take from another file. -/
def Server.exclusiveTarget (s : Server) : Request → Option Path
  | .create req => if req.flags &&& O_EXCL != 0 then some (s.target req.parent req.name) else none
  | .rename req =>
    if req.flag &&& RENAME_NOREPLACE != 0 then some (s.target req.parent req.name) else none
  | _ => none

/-- Why the plain call of a `create` or a `rename` is refused.  A file is created only by one who
also writes; everything else is on the lists of the tree. -/
def Server.Refusal (s : Server) (rules : Rules) (t : FileTree) : Request → Prop
  | .create req =>
    let options := openOptions req.flags true req.mode
    (options.write || options.append) = false ∨
      FileTree.OpenRefusal rules t options.read options.mode (s.target req.parent req.name)
  | .rename req => FileTree.RenameRefusal rules t (s.target req.originParent req.originName)
      (s.target req.parent req.name)
  | _ => False

instance (s : Server) (rules : Rules) (t : FileTree) (req : Request) :
    Decidable (s.Refusal rules t req) := by
  cases req <;> dsimp only [Server.Refusal] <;> infer_instance

/-- The entry that a `rename` moves. -/
def Server.Moves (s : Server) (rules : Rules) (t : FileTree) (i : Ino) (n : Name) : Request → Prop
  | .rename req => ∃ slash,
      t.slot rules (s.target req.originParent req.originName) = .ok (i, n, slash)
  | _ => False

variable {P : Type u} [DecidableEq P]

/-- `p` has made its call at a moment of the run at which `path` was free, and no name but the one
that it moves was taken from its file. -/
def Server.MadeFree (s : Server) (rules : Rules) (reqs : P → Request)
    (tr : List (Handlers P Posix)) (p : P) (path : Path) : Prop :=
  ∃ t t' tr₀ o, (t' :: t :: tr₀) <:+ tr ∧ t.left p = (s.handle (reqs p)).run ∧
    t.step (World.semantics (posix rules)) (p, o) = some t' ∧ Free rules t.shared.os.tree path ∧
    ∀ i n j, t.shared.os.tree.find i n = some j →
      t'.shared.os.tree.find i n = some j ∨ s.Moves rules t.shared.os.tree i n (reqs p)

/-- A request that is not to replace anything is answered `Ok` only if its name was free at the
moment of its call; and of the creations of one path only one is, if no request takes a name away.
-/
def Server.NoClobber (s : Server) (rules : Rules) (reqs : P → Request)
    (tr : List (Handlers P Posix)) : Prop :=
  (∀ t ∈ tr, ∀ p path reply, s.exclusiveTarget (reqs p) = some path →
      t.left p = .ret (.ok reply) → s.MadeFree rules reqs tr p path) ∧
    ((∀ p, ¬(reqs p).Removes) → ∀ t ∈ tr, ∀ p q path reply reply',
      s.exclusiveTarget (reqs p) = some path → s.exclusiveTarget (reqs q) = some path →
      t.left p = .ret (.ok reply) → t.left q = .ret (.ok reply') → p = q)

/-- If a request that is not to replace anything makes its call now, its name is free, or there is a
reason to refuse the plain call. -/
def Server.Spares (s : Server) (rules : Rules) (reqs : P → Request) (tr : List (Handlers P Posix))
    (a : P × Chance) : Prop :=
  ∀ t ∈ tr.head?, ∀ path, s.exclusiveTarget (reqs a.1) = some path →
    t.left a.1 = (s.handle (reqs a.1)).run →
    Free rules t.shared.os.tree path ∨ s.Refusal rules t.shared.os.tree (reqs a.1)

section

variable {s : Server} {rules : Rules} {reqs : P → Request} {t t' : Handlers P Posix} {p : P}
  {o : Chance} {path : Path}

omit [DecidableEq P] in
/-- **The reasons are complete.**  Where none of them holds the call succeeds, at whatever time it
is made. -/
theorem refusal_iff {now : Time} {st : Posix} :
    (∀ req : CreateRequest, (¬∃ x, Posix.openFile rules now st (openOptions req.flags true req.mode)
        (s.target req.parent req.name) = .ok x) ↔ s.Refusal rules st.tree (.create req)) ∧
    ∀ req : RenameRequest, (¬∃ t, st.tree.rename rules now
        (s.target req.originParent req.originName) (s.target req.parent req.name) = .ok t) ↔
      s.Refusal rules st.tree (.rename req) := by
  refine ⟨fun req => ?_, fun req => not_exists.trans FileTree.rename_refused_iff⟩
  rw [Server.Refusal]
  set options := openOptions req.flags true req.mode
  cases hwrites : options.write || options.append with
  | false =>
    refine iff_of_true ?_ (Or.inl rfl)
    rintro ⟨⟨fd, st'⟩, hopen⟩
    obtain ⟨i, tree, -, hcreate, -⟩ := openFile_eq_ok hopen
    exact absurd ((hcreate rfl).symm.trans hwrites) (by simp)
  | true =>
    have hrefused : (∀ x, st.tree.openFile rules now true options.read true options.mode
          (s.target req.parent req.name) ≠ .ok x) ↔ _ := FileTree.openFile_refused_iff
    rw [or_iff_right (by simp), ← hrefused, ← not_exists, not_iff_not]
    constructor
    · rintro ⟨⟨fd, st'⟩, hopen⟩
      obtain ⟨i, tree, htree, -⟩ := openFile_eq_ok hopen
      rw [hwrites] at htree
      exact ⟨_, htree⟩
    · rintro ⟨⟨i, tree⟩, htree⟩
      refine ⟨_, bind_eq_ok.2 ⟨(), ?_, bind_eq_ok.2 ⟨(), ?_, bind_eq_ok.2 ⟨(i, tree), ?_, rfl⟩⟩⟩⟩
      · rw [hwrites, Bool.not_true, Bool.and_false]
        rfl
      · rw [hwrites, Bool.not_true, Bool.and_false]
        rfl
      · rw [hwrites]
        exact htree

/-- The handlers with a target start with their call, and end where it is refused. -/
theorem run_create (s : Server) (req : CreateRequest) :
    ∃ next, (s.handle (.create req)).run = .call
        (.openFile (openOptions req.flags true req.mode) (s.target req.parent req.name)) next ∧
      ∀ e, next (.error e) = .ret (.error (.ofIoError e)) :=
  ⟨_, rfl, fun _ => rfl⟩

theorem run_rename (s : Server) (req : RenameRequest) :
    ∃ next, (s.handle (.rename req)).run = .call (.rename
        (s.target req.originParent req.originName) (s.target req.parent req.name)) next ∧
      ∀ e, next (.error e) = .ret (.error (.ofIoError e)) :=
  ⟨_, rfl, fun _ => rfl⟩

/-- The call of an exclusive creation. -/
theorem create_step {req : CreateRequest} (hleft : t.left p = (s.handle (.create req)).run)
    (hstep : t.step (World.semantics (posix rules)) (p, o) = some t') :
    (∃ e, t'.left p = .ret (.error e)) ∨
    ∃ fd, Posix.openFile rules o.now t.shared.os (openOptions req.flags true req.mode)
      (s.target req.parent req.name) = .ok (fd, t'.shared.os) := by
  obtain ⟨β, c, next, b, w, hcall, hexec, rfl⟩ := Threads.step_cases hstep
  obtain ⟨next', hrun, herror⟩ := run_create s req
  rw [hleft, hrun] at hcall
  obtain ⟨⟩ := hcall
  rw [exec_openFile] at hexec
  split at hexec
  · next fd st hopen =>
    obtain ⟨⟩ := hexec
    exact Or.inr ⟨fd, hopen⟩
  · obtain ⟨⟩ := hexec
    exact Or.inl ⟨_, (Function.update_self ..).trans (herror _)⟩

/-- The call of a renaming. -/
theorem rename_step {req : RenameRequest} (hleft : t.left p = (s.handle (.rename req)).run)
    (hstep : t.step (World.semantics (posix rules)) (p, o) = some t') :
    (∃ e, t'.left p = .ret (.error e)) ∨
    t.shared.os.tree.rename rules o.now (s.target req.originParent req.originName)
      (s.target req.parent req.name) = .ok t'.shared.os.tree := by
  obtain ⟨β, c, next, b, w, hcall, hexec, rfl⟩ := Threads.step_cases hstep
  obtain ⟨next', hrun, herror⟩ := run_rename s req
  rw [hleft, hrun] at hcall
  obtain ⟨⟩ := hcall
  have hexec' : some (t.shared.os.tried
      (ioError [s.target req.originParent req.originName, s.target req.parent req.name])
      (t.shared.os.tree.rename rules o.now (s.target req.originParent req.originName)
        (s.target req.parent req.name))) = some (b, w.os) := by
    obtain ⟨⟩ := hexec
    rfl
  cases hrename : t.shared.os.tree.rename rules o.now (s.target req.originParent req.originName)
      (s.target req.parent req.name) with
  | ok tree =>
    rw [hrename] at hexec'
    obtain ⟨-, hos⟩ := Prod.ext_iff.1 (Option.some.inj hexec')
    exact Or.inr (congrArg (Except.ok ∘ Posix.tree) hos)
  | error e =>
    rw [hrename] at hexec'
    obtain ⟨rfl, -⟩ := Prod.ext_iff.1 (Option.some.inj hexec')
    exact Or.inl ⟨_, (Function.update_self ..).trans (herror _)⟩

/-- **The call of a request that is not to replace anything.**  It is the first one of its handler,
and it decides whether the request can still be answered `Ok`. -/
theorem exclusive_step (htarget : s.exclusiveTarget (reqs p) = some path)
    (hleft : t.left p = (s.handle (reqs p)).run)
    (hstep : t.step (World.semantics (posix rules)) (p, o) = some t') :
    (∃ e, t'.left p = .ret (.error e)) ∨
    (¬s.Refusal rules t.shared.os.tree (reqs p) ∧ (Free rules t.shared.os.tree path →
      (∀ i n j, t.shared.os.tree.find i n = some j →
        t'.shared.os.tree.find i n = some j ∨ s.Moves rules t.shared.os.tree i n (reqs p)) ∧
      (¬(reqs p).Removes → Taken rules.cwd t'.shared.os.tree path))) := by
  generalize reqs p = req at htarget hleft
  cases req with
  | create req =>
    obtain ⟨-, htarget⟩ := Option.ite_none_right_eq_some.1 htarget
    obtain rfl := Option.some.inj htarget
    obtain herror | ⟨fd, hopen⟩ := create_step hleft hstep
    · exact Or.inl herror
    · refine Or.inr ⟨fun hrefusal => ?_, fun hfree => ?_⟩
      · exact (refusal_iff.1 req).2 hrefusal ⟨_, hopen⟩
      · obtain ⟨i, tree, hmade, -, -, hos⟩ := openFile_eq_ok hopen
        rw [hos]
        have hgrows : Grows everywhere t.shared.os.tree tree := grows_openFile hmade
        exact ⟨fun i n j hfind => Or.inl (hgrows.find hfind),
          fun _ => taken_of_openFile hfree hmade⟩
  | rename req =>
    obtain ⟨-, htarget⟩ := Option.ite_none_right_eq_some.1 htarget
    obtain rfl := Option.some.inj htarget
    obtain herror | hrename := rename_step hleft hstep
    · exact Or.inl herror
    · refine Or.inr ⟨fun hrefusal => ?_, fun hfree => ⟨fun i n j hfind => ?_, fun hkeeps => ?_⟩⟩
      · exact (refusal_iff.2 req).2 hrefusal ⟨_, hrename⟩
      · exact find_rename_of_free hfree hrename hfind
      · exact absurd trivial hkeeps
  | _ => contradiction

/-! ## All interleavings

The other requests of a run may be any; that some of them remove or move names is excluded only for
the half that is about several creations. -/

/-- `p` has not made its call with success: it has not begun, or it has ended with an error. -/
def Pending (s : Server) (reqs : P → Request) (t : Handlers P Posix) (p : P) : Prop :=
  t.left p = (s.handle (reqs p)).run ∨ ∃ e, t.left p = .ret (.error e)

omit [DecidableEq P] in
/-- What is pending has not been answered `Ok`. -/
theorem not_ok_of_pending {reply : Reply} (htarget : s.exclusiveTarget (reqs p) = some path)
    (h : Pending s reqs t p) : t.left p ≠ .ret (.ok reply) := by
  intro hok
  rcases h with h | ⟨e, h⟩
  · rw [hok] at h
    generalize reqs p = req at htarget h
    cases req <;> contradiction
  · obtain ⟨⟩ := Program.ret.inj (hok.symm.trans h)

theorem left_of_ne {q : P} {sem : Semantics Call P Chance (World P Posix)}
    (hstep : t.step sem (p, o) = some t') (hne : q ≠ p) : t'.left q = t.left q := by
  obtain ⟨β, c, next, b, w, -, -, rfl⟩ := Threads.step_cases hstep
  exact Function.update_of_ne hne ..

omit [DecidableEq P] in
theorem pending_congr (hleft : t'.left p = t.left p) (h : Pending s reqs t p) :
    Pending s reqs t' p := by
  rw [Pending, hleft]
  exact h

/-- **The step of a pending request**, where the name is free or there is a reason to refuse. -/
theorem pending_step (htarget : s.exclusiveTarget (reqs p) = some path) (h : Pending s reqs t p)
    (hstep : t.step (World.semantics (posix rules)) (p, o) = some t') {tr : List (Handlers P Posix)}
    (hspares : s.Spares rules reqs (t :: tr) (p, o)) :
    Pending s reqs t' p ∨
    (t.left p = (s.handle (reqs p)).run ∧ Free rules t.shared.os.tree path ∧
      (∀ i n j, t.shared.os.tree.find i n = some j →
        t'.shared.os.tree.find i n = some j ∨ s.Moves rules t.shared.os.tree i n (reqs p)) ∧
      (¬(reqs p).Removes → Taken rules.cwd t'.shared.os.tree path)) := by
  rcases h with hleft | ⟨e, hleft⟩
  · obtain herror | ⟨hrefusal, hmade⟩ := exclusive_step htarget hleft hstep
    · exact Or.inl (Or.inr herror)
    · have hfree := (hspares t rfl path htarget hleft).resolve_right hrefusal
      exact Or.inr ⟨hleft, hfree, hmade hfree⟩
  · obtain ⟨β, c, next, b, w, hcall, -, -⟩ := Threads.step_cases hstep
    rw [hleft] at hcall
    contradiction

/-- A request that is not pending any more has made its call under a free name. -/
theorem madeFree_of_run {w : World P Posix} {tr : List (Handlers P Posix)}
    (hrun : Run (Threads.step (World.semantics (posix rules))) (s.Spares rules reqs)
      (s.start reqs w) (t :: tr)) (htarget : s.exclusiveTarget (reqs p) = some path) :
    Pending s reqs t p ∨ s.MadeFree rules reqs (t :: tr) p path := by
  refine Run.head_induction (P := fun t tr => Pending s reqs t p ∨
    s.MadeFree rules reqs (t :: tr) p path) (Or.inl (Or.inl rfl)) ?_ hrun
  rintro t tr ⟨q, o⟩ t' - hspares hstep (hpending | ⟨t₁, t₂, tr₀, o', hsuffix, hmade⟩)
  · by_cases hq : p = q
    · subst hq
      obtain hpending' | ⟨hleft, hfree, hkept, -⟩ := pending_step htarget hpending hstep hspares
      · exact Or.inl hpending'
      · exact Or.inr ⟨t, t', tr, o, List.suffix_rfl, hleft, hstep, hfree, hkept⟩
    · exact Or.inl (pending_congr (left_of_ne hstep hq) hpending)
  · exact Or.inr ⟨t₁, t₂, tr₀, o', hsuffix.trans (List.suffix_cons _ _), hmade⟩

/-- While no request takes a name away: what is not pending has taken its name, and of two creations
of one path one is pending. -/
structure Excludes (s : Server) (rules : Rules) (reqs : P → Request) (t : Handlers P Posix) :
    Prop where
  keeps : ∀ p, Program.Uses KeepsNames (t.left p)
  taken : ∀ p path, s.exclusiveTarget (reqs p) = some path →
    Pending s reqs t p ∨ Taken rules.cwd t.shared.os.tree path
  alone : ∀ p q path, s.exclusiveTarget (reqs p) = some path →
    s.exclusiveTarget (reqs q) = some path → p ≠ q → Pending s reqs t p ∨ Pending s reqs t q

theorem excludes_step {tr : List (Handlers P Posix)} (hkeeps : ∀ p, ¬(reqs p).Removes)
    (h : Excludes s rules reqs t)
    (hstep : t.step (World.semantics (posix rules)) (p, o) = some t')
    (hspares : s.Spares rules reqs (t :: tr) (p, o)) : Excludes s rules reqs t' := by
  have hgrows : Grows everywhere t.shared.os.tree t'.shared.os.tree := by
    obtain ⟨β, c, next, b, w, hcall, hexec, rfl⟩ := Threads.step_cases hstep
    have huses := h.keeps p
    rw [hcall] at huses
    exact grows_world huses.1 hexec
  have hother : ∀ q, q ≠ p → Pending s reqs t q → Pending s reqs t' q := fun q hq =>
    pending_congr (left_of_ne hstep hq)
  refine ⟨fun q => ?_, fun q path htarget => ?_, fun q q' path htarget htarget' hne => ?_⟩
  · by_cases hq : q = p
    · subst hq
      obtain ⟨β, c, next, b, w, hcall, hexec, rfl⟩ := Threads.step_cases hstep
      have huses := h.keeps q
      rw [hcall] at huses
      simp only [Function.update_self]
      exact huses.2 b
    · rw [left_of_ne hstep hq]
      exact h.keeps q
  · obtain hpending | htaken := h.taken q path htarget
    · by_cases hq : q = p
      · subst hq
        exact (pending_step htarget hpending hstep hspares).imp_right fun hmade =>
          hmade.2.2.2 (hkeeps q)
      · exact Or.inl (hother q hq hpending)
    · exact Or.inr (taken_mono hgrows htaken)
  · -- the one that moves finds its name free, so that the other one cannot have taken it
    have hmoves : ∀ r r', r = p → r ≠ r' → s.exclusiveTarget (reqs r) = some path →
        s.exclusiveTarget (reqs r') = some path → Pending s reqs t r →
        Pending s reqs t' r ∨ Pending s reqs t' r' := by
      rintro r r' rfl hne hr hr' hpending
      obtain hpending' | ⟨-, hfree, -⟩ := pending_step hr hpending hstep hspares
      · exact Or.inl hpending'
      · have hpending' := (h.taken r' path hr').resolve_right (not_taken_of_free hfree)
        exact Or.inr (hother r' hne.symm hpending')
    by_cases hq : q = p
    · obtain hpending | hpending := h.alone q q' path htarget htarget' hne
      · exact hmoves q q' hq hne htarget htarget' hpending
      · exact Or.inr (hother q' (hq ▸ hne.symm) hpending)
    · by_cases hq' : q' = p
      · obtain hpending | hpending := h.alone q q' path htarget htarget' hne
        · exact Or.inl (hother q hq hpending)
        · exact (hmoves q' q hq' hne.symm htarget' htarget hpending).symm
      · exact (h.alone q q' path htarget htarget' hne).imp (hother q hq) (hother q' hq')

end

/-- **When requests exclude each other.**  In every run in which each request that is not to replace
anything finds its name free, or a reason stands against its plain call, none of them replaces
anything. -/
theorem noClobber (s : Server) {rules : Rules} {reqs : P → Request} {w : World P Posix}
    {tr : List (Handlers P Posix)}
    (hrun : Run (Threads.step (World.semantics (posix rules))) (s.Spares rules reqs)
      (s.start reqs w) tr) : s.NoClobber rules reqs tr := by
  constructor
  · intro t ht p path reply htarget hok
    obtain ⟨tr₀, hsuffix, hrun₀⟩ := hrun.exists_suffix_of_mem ht
    obtain hpending | ⟨t₁, t₂, tr₁, o, hsuffix₁, hmade⟩ := madeFree_of_run hrun₀ htarget
    · exact absurd hok (not_ok_of_pending htarget hpending)
    · exact ⟨t₁, t₂, tr₁, o, hsuffix₁.trans hsuffix, hmade⟩
  · intro hkeeps t ht p q path reply reply' hp hq hokp hokq
    have hinit : Excludes s rules reqs (s.start reqs w) :=
      ⟨fun p => keepsNames_handle s (hkeeps p), fun _ _ _ => Or.inl (Or.inl rfl),
        fun _ _ _ _ _ _ => Or.inl (Or.inl rfl)⟩
    have hexcludes : Excludes s rules reqs t :=
      hrun.forall_mem hinit (fun t tr a t' _ hspares h hstep =>
        excludes_step hkeeps h hstep hspares) t ht
    by_contra hne
    obtain hpending | hpending := hexcludes.alone p q path hp hq hne
    · exact not_ok_of_pending hp hpending hokp
    · exact not_ok_of_pending hq hpending hokq

/-! ## Runs

Each exclusive request by itself, along a run of all. -/

/-- A server that serves `/`. -/
def rootServer : Server := ⟨[sep], canonical_sep⟩

/-- The world of a server over these files, nothing open and no lock taken. -/
def filesWorld (P : Type u) (files : List (Name × Content))
    (nodup : (files.map Prod.fst).Nodup) : World P Posix :=
  .alone P (fun _ => none) (fun _ => none) 0 (idlePosix files nodup)

def isOk {α : Type} : Program Call (Except Failure α) → Bool
  | .ret (.ok _) => true
  | _ => false

theorem eq_ret_of_isOk {α : Type} {x : Program Call (Except Failure α)} (h : isOk x = true) :
    ∃ a, x = .ret (.ok a) := by
  match x, h with
  | .ret (.ok a), _ => exact ⟨a, rfl⟩

def isError {α : Type} : Program Call (Except Failure α) → Bool
  | .ret (.error _) => true
  | _ => false

/-- The next call is the one of a `create` or a `rename`. -/
def atCall {α : Type} : Program Call α → Bool
  | .call (.openFile _ _) _ => true
  | .call (.rename _ _) _ => true
  | _ => false

theorem spares_of_atCall {P : Type u} [DecidableEq P] {s : Server} {rules : Rules}
    {reqs : P → Request} {tr : List (Handlers P Posix)} {a : P × Chance}
    (h : ∀ t ∈ tr.head?, ∀ path ∈ s.exclusiveTarget (reqs a.1), atCall (t.left a.1) = true →
      Free rules t.shared.os.tree path ∨ s.Refusal rules t.shared.os.tree (reqs a.1)) :
    s.Spares rules reqs tr a := by
  intro t ht path htarget hleft
  refine h t ht path htarget ?_
  rw [hleft]
  generalize reqs a.1 = req at htarget
  cases req with
  | create req => rfl
  | rename req => rfl
  | _ => contradiction

/-- Rules under which nobody may write to a file without the right to. -/
def strictRules : Rules :=
  { lenientRules 1000 with
    denies := fun op files => match op with
      | .open _ true => if files.any fun f => f.2.perm &&& 0o200 == 0 then some EACCES else none
      | _ => none }

/-- An exclusive creation of `/l`, which nobody may write to then. -/
def createSealed : Request := Client.create [sep] [108] 0o444 (O_EXCL ||| O_CREAT ||| O_WRONLY)

/-- A renaming of `/f` to `/g` that is to replace nothing. -/
def moveAside : Request := Client.rename2 [sep] [102] [sep] [103] RENAME_NOREPLACE

/-- Two that create one file, and one that renames another. -/
def locksAndMove (p : Fin 3) : Request := if p = 2 then moveAside else createSealed

/-- Of two that create one file exclusively one succeeds, and so does one that renames another file
to a free name in between. -/
theorem noClobber_locks :
    (∃ tr, (∃ t ∈ tr, isOk (t.left 0) = true ∧ isError (t.left 1) = true) ∧
      rootServer.NoClobber strictRules (fun _ : Fin 2 => createSealed) tr) ∧
    ∃ tr, (∃ t ∈ tr, isOk (t.left 0) = true ∧ isError (t.left 1) = true ∧ isOk (t.left 2) = true) ∧
      rootServer.NoClobber strictRules locksAndMove tr := by
  let o : Chance := ⟨⟨⟨0, 0⟩, by decide⟩, refusing, ⟨0, 0, ⟨0, 0⟩, ⟨0, 0⟩, ⟨0, 0⟩⟩⟩
  constructor
  · have hcheck : Run.check (Threads.step (World.semantics (posix strictRules)))
        (fun tr a => decide (∀ t ∈ tr.head?, ∀ path ∈ rootServer.exclusiveTarget createSealed,
          atCall (t.left a.1) = true → Free strictRules t.shared.os.tree path ∨
            rootServer.Refusal strictRules t.shared.os.tree createSealed))
        (rootServer.start (fun _ => createSealed) (filesWorld (Fin 2) [] (by decide)))
        ([(0, o), (1, o)] ++ List.replicate 5 (0, o))
        (fun tr => decide (∃ t ∈ tr, isOk (t.left 0) = true ∧ isError (t.left 1) = true)) =
          true := by
      decide +kernel
    obtain ⟨tr, hrun, hended⟩ := Run.exists_of_check
      (C := rootServer.Spares strictRules fun _ => createSealed)
      (fun _ _ h => spares_of_atCall (of_decide_eq_true h)) hcheck
    exact ⟨tr, of_decide_eq_true hended, noClobber _ hrun⟩
  · have hcheck : Run.check (Threads.step (World.semantics (posix strictRules)))
        (fun tr a => decide (∀ t ∈ tr.head?, ∀ path ∈ rootServer.exclusiveTarget (locksAndMove a.1),
          atCall (t.left a.1) = true → Free strictRules t.shared.os.tree path ∨
            rootServer.Refusal strictRules t.shared.os.tree (locksAndMove a.1)))
        (rootServer.start locksAndMove
          (filesWorld (Fin 3) [(⟨[102], fileName_f⟩, .regular)] (by decide)))
        ([(0, o), (1, o), (2, o)] ++ List.replicate 5 (0, o))
        (fun tr => decide (∃ t ∈ tr, isOk (t.left 0) = true ∧ isError (t.left 1) = true ∧
          isOk (t.left 2) = true)) = true := by
      decide +kernel
    obtain ⟨tr, hrun, hended⟩ := Run.exists_of_check
      (C := rootServer.Spares strictRules locksAndMove)
      (fun _ _ h => spares_of_atCall (of_decide_eq_true h)) hcheck
    exact ⟨tr, of_decide_eq_true hended, noClobber _ hrun⟩

/-- An exclusive creation of `/l`, for writing. -/
def createLock : Request := Client.create [sep] [108] 0o644 (O_EXCL ||| O_CREAT ||| O_WRONLY)

/-- **Two clients create one file exclusively, and both succeed; a file that exists is replaced by a
renaming that is not to replace it.** -/
theorem not_noClobber :
    (∃ (w : World (Fin 2) Posix) (tr : List (Handlers (Fin 2) Posix)),
      Run (Threads.step (World.semantics (posix (lenientRules 0)))) (fun _ _ => True)
        (rootServer.start (fun _ => createLock) w) tr ∧
      ¬rootServer.NoClobber (lenientRules 0) (fun _ => createLock) tr) ∧
    ∃ (w : World Unit Posix) (tr : List (Handlers Unit Posix)),
      Run (Threads.step (World.semantics (posix (lenientRules 0)))) (fun _ _ => True)
        (rootServer.start (fun _ => moveAside) w) tr ∧
      ¬rootServer.NoClobber (lenientRules 0) (fun _ => moveAside) tr := by
  let o : Chance := ⟨⟨⟨0, 0⟩, by decide⟩, refusing, ⟨0, 0, ⟨0, 0⟩, ⟨0, 0⟩, ⟨0, 0⟩⟩⟩
  constructor
  · let acts : List (Fin 2 × Chance) := List.replicate 6 (0, o) ++ List.replicate 6 (1, o)
    have hcheck : Run.check (Threads.step (World.semantics (posix (lenientRules 0))))
        (fun _ _ => true) (rootServer.start (fun _ => createLock) (filesWorld (Fin 2) [] (by decide)))
        acts (fun tr => tr.head?.any fun t => isOk (t.left 0) && isOk (t.left 1)) = true := by
      decide +kernel
    obtain ⟨tr, hrun, hok⟩ := Run.exists_of_check (C := fun _ _ => True) (fun _ _ _ => trivial) hcheck
    refine ⟨_, tr, hrun, fun hno => ?_⟩
    obtain ⟨t, ht, hok⟩ := (Option.any_eq_true _ _).1 hok
    obtain ⟨h₀, h₁⟩ := Bool.and_eq_true_iff.1 hok
    obtain ⟨reply, h₀⟩ := eq_ret_of_isOk h₀
    obtain ⟨reply', h₁⟩ := eq_ret_of_isOk h₁
    have heq := hno.2 (fun _ => id) t (List.mem_of_head? ht) 0 1 _ _ _ rfl rfl h₀ h₁
    exact absurd heq (by decide)
  · obtain ⟨t, hstep, hok⟩ : ∃ t, (rootServer.start (fun _ => moveAside)
        (filesWorld Unit [(⟨[102], by decide⟩, .regular), (⟨[103], by decide⟩, .regular)]
          (by decide))).step (World.semantics (posix (lenientRules 0))) ((), o) = some t ∧
        t.left () = .ret (.ok .unit) := ⟨_, rfl, rfl⟩
    refine ⟨_, _, .step .init trivial hstep, fun hno => ?_⟩
    obtain ⟨t₁, t₂, tr₀, o', hsuffix, -, -, hfree, -⟩ :=
      hno.1 t List.mem_cons_self () _ _ rfl hok
    have hlength := hsuffix.eq_of_length_le (by simp)
    obtain ⟨-, htail⟩ := List.cons_eq_cons.1 hlength
    obtain ⟨rfl, -⟩ := List.cons_eq_cons.1 htail
    obtain ⟨i, n, slash, hslot, hfind⟩ := hfree
    obtain ⟨⟩ := hslot
    contradiction

end Distfs
end DistributedPrograms
