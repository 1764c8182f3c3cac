import DistributedPrograms.Distfs.RealPath
import DistributedPrograms.Distfs.Uses
import DistributedPrograms.Distfs.World

/-!
# The file that `set_attr` changes

`open` and `create` store the path of their file with the handle, below the root already.
`set_attr` by handle takes that path for one of a client and puts it below the root once more, so it
looks for the file in the wrong place unless the root is `/`; and it answers with the attributes of
the open file, which hides this.  `agrees_iff` says when the handle and the path stand for the same
file.

* `Server.storedPath` is what a request that answers a handle stores with it (`stored_of_ends`), for
  a `create` the parent resolved with the name joined to it.
* `Server.ActsOn` says that some run of a request changes attributes of the file at a path;
  `actsOn_path` and `actsOn_fh` compute it for the two kinds of requests.
* `Server.Agrees` is the statement about one handle: the two requests act on the same file, and that
  is the one which is stored.
* `agrees_iff` is the equivalence: there is nothing to change, or the root is `/` and what is stored
  is where the path leads.  The second half is there because of names that are none
  (`storedPath_of_plain`).

The system may be any; which file a path leads to is not asked.
-/

set_option autoImplicit false

namespace DistributedPrograms
namespace Distfs

open UnixPath Fallible Server

universe u v

/-- The path of the file whose attributes a call changes, or which it opens for that. -/
def Call.attrPath {β : Type} : Call β → Option Path
  | .setOwner path _ | .setGroup path _ | .setFileMtime path _ _ | .setFileAtime path _ _
  | .setPermissions path _ | .openFile _ path => some path
  | _ => none

/-- Nothing that `set_attr` knows how to change is to be changed. -/
def SettableAttr.setsNothing (attr : SettableAttr) : Bool :=
  attr.uid.isNone && attr.gid.isNone && attr.size.isNone && attr.mtime.isNone &&
    attr.atime.isNone && attr.mode.isNone

/-- The client path of a request that answers with a new handle. -/
def Request.clientPath : Request → Option Path
  | .open req => some (osStr req.path)
  | .create req => some (join (osStr req.parent) (osStr req.name))
  | _ => none

/-- The handle in the answer to such a request. -/
def Reply.fh : Reply → Option UInt64
  | .handle fh _ => some fh
  | .create ok => some ok.fh
  | _ => none

section

variable {P : Type u} [DecidableEq P] {σ : Type v} {ω : Type*}

/-- Some run of the request changes attributes of the file at `q`.  A call counts also where the
system refuses it. -/
def Server.ActsOn (s : Server) (os : OperatingSystem ω σ) (t : P) (w : World P σ)
    (req : SetAttrRequest) (q : Path) : Prop :=
  Calls (World.semantics os) t (fun c => c.attrPath = some q) (s.setAttrImpl req) w

/-- `set_attr` with the handle `h` acts on the file that it acts on with the path `p`, and this is
the one that is stored with the handle. -/
structure Server.Agrees (s : Server) (os : OperatingSystem ω σ) (t : P) (w : World P σ)
    (h : UInt64) (p : String) (attr : SettableAttr) : Prop where
  same : ∀ path q, s.ActsOn os t w ⟨path, some h, some attr⟩ q ↔
    s.ActsOn os t w ⟨some p, none, some attr⟩ q
  stored : ∀ path q, s.ActsOn os t w ⟨path, some h, some attr⟩ q →
    ∃ file, w.fh h = some (file, q)

end

/-! ## What is stored

The path that goes into the table, for each of the two requests that open a file. -/

section

variable {P : Type u} [DecidableEq P] {σ : Type v} {ω : Type*} [Nonempty ω] {s : Server}
  {os : OperatingSystem ω σ} {t : P} {w w' : World P σ}

/-- The path that a new handle gets.  It is below the root already, and is stored as it is. -/
def Server.storedPath (s : Server) : Request → Option Path
  | .open req => some (s.realPath (osStr req.path))
  | .create req => some (join (s.realPath (osStr req.parent)) (osStr req.name))
  | _ => none

theorem ends_fhInsert {fh : UInt64} {file : Fd} {path : Path}
    (h : Ends (World.semantics os) t (withLock .fh .write (perform (.fhInsert fh file path))) w
      (.ok ()) w') : w'.fh fh = some (file, path) := by
  obtain ⟨-, w₂, hinsert, rfl⟩ := World.ends_withLock.1 h
  obtain ⟨o, a, hexec, -⟩ := ends_perform.1 hinsert
  obtain ⟨⟩ := hexec
  exact Function.update_self ..

/-- **What `open` and `create` store** with the handle that they answer, whatever the system answers
them. -/
theorem stored_of_ends {req : Request} {reply : Reply} {h : UInt64} {stored : Path}
    (hends : Ends (World.semantics os) t (s.handle req) w (.ok reply) w')
    (hstored : s.storedPath req = some stored) (hfh : reply.fh = some h) :
    ∃ file, w'.fh h = some (file, stored) := by
  cases req with
  | «open» req =>
    obtain ⟨⟩ := hstored
    obtain ⟨r, hr, heq⟩ := ends_map.1 hends
    obtain _ | ⟨fh, flags⟩ := r
    · contradiction
    obtain ⟨⟩ := heq
    obtain ⟨⟩ := hfh
    rw [openImpl] at hr
    obtain ⟨file, w₁, -, hr⟩ := ends_bind_ok.1 hr
    obtain ⟨fh', w₂, -, hr⟩ := ends_bind_ok.1 hr
    obtain ⟨⟨⟩, w₃, hinsert, hr⟩ := ends_bind_ok.1 hr
    obtain ⟨heq, rfl⟩ := ends_pure.1 hr
    obtain ⟨⟩ := heq
    exact ⟨file, ends_fhInsert hinsert⟩
  | create req =>
    obtain ⟨⟩ := hstored
    obtain ⟨r, hr, heq⟩ := ends_map.1 hends
    obtain _ | ok := r
    · contradiction
    obtain ⟨⟩ := heq
    obtain ⟨⟩ := hfh
    rw [createImpl] at hr
    obtain ⟨file, w₁, -, hr⟩ := ends_bind_ok.1 hr
    obtain ⟨fh, w₂, -, hr⟩ := ends_bind_ok.1 hr
    obtain ⟨metadata, w₃, -, hr⟩ := ends_bind_ok.1 hr
    obtain ⟨⟨⟩, w₄, hinsert, hr⟩ := ends_bind_ok.1 hr
    obtain ⟨attr, w₅, hattr, hr⟩ := ends_bind_ok.1 hr
    obtain ⟨-, rfl⟩ := ends_ofOption.1 hattr
    obtain ⟨heq, rfl⟩ := ends_pure.1 hr
    obtain ⟨⟩ := heq
    exact ⟨file, ends_fhInsert hinsert⟩
  | _ => contradiction

/-! ## What is changed

A request that changes nothing acts on no file, whichever way it names it. -/

omit [Nonempty ω] in
theorem calls_whenSome {α : Type} {R : {β : Type} → Call β → Prop} {a : Option α}
    {f : α → Handler Unit} {rest : Handler Unit}
    (hsome : ∀ b, a = some b → Calls (World.semantics os) t R (f b) w)
    (hnone : a = none → Calls (World.semantics os) t R rest w) :
    Calls (World.semantics os) t R (do whenSome a f; rest) w := by
  cases a with
  | none => exact hnone rfl
  | some b => exact calls_bind.2 (Or.inl (hsome b rfl))

theorem setAttrByPath_of_setsNothing {path : Path} {attr : SettableAttr}
    (h : attr.setsNothing = true) : setAttrByPath path attr = pure () := by
  obtain ⟨mode, uid, gid, size, lockOwner, atime, mtime, ctime⟩ := attr
  simp only [SettableAttr.setsNothing, Bool.and_eq_true, Option.isNone_iff_eq_none] at h
  obtain ⟨⟨⟨⟨⟨rfl, rfl⟩, rfl⟩, rfl⟩, rfl⟩, rfl⟩ := h
  rfl

omit [Nonempty ω] in
/-- **`set_attr_by_path` acts on the path that it is given**, if it does anything. -/
theorem calls_setAttrByPath {path q : Path} {attr : SettableAttr} :
    Calls (World.semantics os) t (fun c => c.attrPath = some q) (setAttrByPath path attr) w ↔
      attr.setsNothing = false ∧ q = path := by
  constructor
  · intro h
    refine ⟨Bool.eq_false_iff.2 fun hnothing => ?_, ?_⟩
    · rw [setAttrByPath_of_setsNothing hnothing] at h
      exact not_calls_pure h
    · refine h.elim (Uses.mono (uses_setAttrByPath path attr) fun c hc hq => ?_)
      cases hc <;> simp_all [Call.attrPath]
  · rintro ⟨hsets, rfl⟩
    -- the first attribute that is set makes the first call
    rw [setAttrByPath]
    refine calls_whenSome (fun uid _ => calls_attempt.2 rfl) fun huid => ?_
    refine calls_whenSome (fun gid _ => calls_attempt.2 rfl) fun hgid => ?_
    refine calls_whenSome (fun size _ => calls_bind.2 (Or.inl (calls_attempt.2 rfl))) fun hsize => ?_
    refine calls_whenSome (fun mtime _ => calls_attempt.2 rfl) fun hmtime => ?_
    refine calls_whenSome (fun atime _ => calls_attempt.2 rfl) fun hatime => ?_
    cases hmode : attr.mode with
    | none => simp [SettableAttr.setsNothing, huid, hgid, hsize, hmtime, hatime, hmode] at hsets
    | some mode => exact calls_attempt.2 rfl

omit [Nonempty ω] in
theorem calls_getAttrFromPath {path q : Path} :
    ¬Calls (World.semantics os) t (fun c => c.attrPath = some q) (getAttrFromPath path) w :=
  fun h => h.elim (uses_getAttrFromPath.2 fun hq => by simp [Call.attrPath] at hq)

omit [Nonempty ω] in
theorem actsOn_path {p : String} {attr : SettableAttr} {q : Path} :
    s.ActsOn os t w ⟨some p, none, some attr⟩ q ↔
      attr.setsNothing = false ∧ q = s.realPath (osStr p) := by
  rw [Server.ActsOn, setAttrImpl, calls_bind, calls_setAttrByPath]
  refine or_iff_left ?_
  rintro ⟨_, _, _, h⟩
  exact calls_getAttrFromPath h

theorem calls_withLock {α : Type} {l : Lock} {m : LockMode} {x : Handler α} {q : Path}
    (hfree : w.free l m = true) :
    Calls (World.semantics os) t (fun c => c.attrPath = some q) (withLock l m x) w ↔
      Calls (World.semantics os) t (fun c => c.attrPath = some q) x
        { w with held := (t, l, m) :: w.held } := by
  rw [withLock, calls_bracket (by simp [Call.attrPath]) (by simp [Call.attrPath])]
  simp only [World.exec_acquire hfree, Option.some.injEq, Prod.mk.injEq, true_and]
  refine ⟨?_, fun h => (‹Nonempty ω›).elim fun o => ⟨o, _, rfl, h⟩⟩
  rintro ⟨_, _, heq, h⟩
  exact heq ▸ h

/-- **By handle `real_path` is applied to the path that is stored**, which has been through it once
already. -/
theorem actsOn_fh {path : Option String} {h : UInt64} {attr : SettableAttr} {q stored : Path}
    {file : Fd} (hfh : w.fh h = some (file, stored)) (htable : w.free .fh .read = true)
    (hfile : w.free (.file h) .read = true) :
    s.ActsOn os t w ⟨path, some h, some attr⟩ q ↔
      attr.setsNothing = false ∧ q = s.realPath stored := by
  have hbody : s.setAttrImpl ⟨path, some h, some attr⟩ = withLock .fh .read (do
      let entry ← ofOption (.errno EEXIST) (← perform (.fhGet h))
      withLock (.file h) .read do
        setAttrByPath (s.realPath entry.2) attr
        let metadata ← attempt .ofIoError (.fileMetadata entry.1)
        ofOption .panic (metadataToGrpc metadata)) := by
    cases path <;> rfl
  have hfree : World.free { w with held := (t, .fh, .read) :: w.held } (.file h) .read = true := by
    rw [World.free, List.all_cons, ← World.free, hfile]
    rfl
  have hlookup : ∀ w₁ r w₂, Ends (World.semantics os) t (perform (.fhGet h) : Handler _) w₁ r w₂ ↔
      r = .ok (w₁.fh h) ∧ w₂ = w₁ := fun _ _ _ => ends_perform_of fun _ => rfl
  rw [Server.ActsOn, hbody, calls_withLock htable,
    calls_bind_of_ok (by simp [Call.attrPath]) (hlookup _), hfh]
  refine (calls_withLock hfree).trans ?_
  rw [calls_bind, calls_setAttrByPath]
  refine or_iff_left ?_
  rintro ⟨⟨⟩, w₁, -, h⟩
  rcases calls_bind.1 h with h | ⟨metadata, w₂, -, h⟩
  · simp [Call.attrPath] at h
  · exact calls_ofOption h

/-! ## The handle and the path

One goes through `real_path` once, and the other one twice. -/

/-- **By handle and by path `set_attr` acts on the same file** where there is nothing to change, or
the server's root is `/` and what is stored is where the path leads. -/
theorem agrees_iff {req : Request} {reply : Reply} {h : UInt64} {p : String} {w₀ w₁ : World P σ}
    (attr : SettableAttr) (hends : Ends (World.semantics os) t (s.handle req) w₀ (.ok reply) w₁)
    (hfh : reply.fh = some h) (hpath : req.clientPath = some (osStr p)) (hkept : w.fh h = w₁.fh h)
    (htable : w.free .fh .read = true) (hfile : w.free (.file h) .read = true) :
    s.Agrees os t w h p attr ↔ attr.setsNothing = true ∨
      (s.rootPath = [sep] ∧ s.storedPath req = req.clientPath.map s.realPath) := by
  obtain ⟨stored, hstored⟩ : ∃ stored, s.storedPath req = some stored := by
    cases req with
    | «open» req => exact ⟨_, rfl⟩
    | create req => exact ⟨_, rfl⟩
    | _ => contradiction
  obtain ⟨file, hentry⟩ := stored_of_ends hends hstored hfh
  have hget : w.fh h = some (file, stored) := hkept.trans hentry
  rw [hstored, hpath, Option.map_some, Option.some.injEq]
  constructor
  · intro hagrees
    cases hsets : attr.setsNothing with
    | true => exact Or.inl rfl
    | false =>
      have hact : s.ActsOn os t w ⟨none, some h, some attr⟩ (s.realPath stored) :=
        (actsOn_fh hget htable hfile).2 ⟨hsets, rfl⟩
      obtain ⟨file', hget'⟩ := hagrees.stored none _ hact
      rw [hget, Option.some.injEq, Prod.mk.injEq] at hget'
      obtain ⟨-, hpath'⟩ := actsOn_path.1 ((hagrees.same none _).1 hact)
      have hreal : stored = s.realPath (osStr p) := hget'.2.trans hpath'
      refine Or.inr ⟨?_, hreal⟩
      rw [hreal] at hpath'
      exact (s.realPath_realPath _).1 hpath'
  · rintro (hnothing | ⟨hroot, hreal⟩)
    · refine ⟨fun path q => ?_, fun path q hq => ?_⟩
      · rw [actsOn_fh hget htable hfile, actsOn_path, hnothing]
        simp
      · rw [actsOn_fh hget htable hfile, hnothing] at hq
        simp at hq
    · have htwice : s.realPath stored = stored := by
        rw [hreal]
        exact (s.realPath_realPath _).2 hroot
      refine ⟨fun path q => ?_, fun path q hq => ?_⟩
      · rw [actsOn_fh hget htable hfile, actsOn_path, htwice, hreal]
      · obtain ⟨-, rfl⟩ := (actsOn_fh hget htable hfile).1 hq
        rw [htwice]
        exact ⟨file, hget⟩

/-- What is stored is where the path leads, for `open` and for a name that is one. -/
theorem storedPath_of_plain {req : Request}
    (hname : ∀ req', req = .create req' → ValidName (osStr req'.name)) :
    s.storedPath req = req.clientPath.map s.realPath := by
  cases req with
  | create req =>
    have hjoin := s.realPath_join_of_validName (osStr req.parent) (hname req rfl)
    exact congrArg some hjoin.symm
  | _ => rfl

end

/-! ## The root `/` and another one

Where it makes no difference, and where it does. -/

/-- Every file is opened, as the descriptor 3. -/
def serving : Answers
  | _, .openFile _ _ => .ok 3
  | _, c => refusing _ c

/-- `chmod`, by a request. -/
def chmod : SettableAttr := ⟨some 0o644, none, none, none, none, none, none, none⟩

/-- A server on which no handle has been made. -/
def beforeOpen : World Unit Unit := .alone Unit (fun _ => none) (fun _ => none) 0 ()

/-- The server after `open` of `/a`, whose handle is 0. -/
def opened (path : Path) : World Unit Unit :=
  { beforeOpen with fh := Function.update (fun _ => none) 0 (some (3, path)), fhSrc := 1 }

theorem fh_opened (path : Path) : (opened path).fh 0 = some (3, path) := by
  simp [opened]

theorem ends_open (s : Server) : Ends (World.semantics anySystem) () (s.handle (.open ⟨"/a", 0⟩))
    beforeOpen (.ok (.handle 0 0)) (opened (s.realPath (osStr "/a"))) :=
  ends_of_eval (o := serving) rfl

/-- Where the root is `/` the handle and the path stand for the same file. -/
theorem agrees_iff_root : Server.Agrees ⟨[sep], by decide⟩ anySystem ()
    (opened [sep, 97]) 0 "/a" chmod :=
  (agrees_iff chmod (ends_open ⟨[sep], by decide⟩) rfl rfl rfl rfl rfl).2
    (Or.inr ⟨rfl, rfl⟩)

/-- **On a server of `/src` the handle of `/a` stands for `/src/src/a`**, and the path for
`/src/a`. -/
theorem not_agrees : ∃ s : Server, s.rootPath = [sep, 115, 114, 99] ∧
    ∃ w₁, Ends (World.semantics anySystem) () (s.handle (.open ⟨"/a", 0⟩)) beforeOpen
      (.ok (.handle 0 0)) w₁ ∧ ¬s.Agrees anySystem () w₁ 0 "/a" chmod := by
  refine ⟨⟨[sep, 115, 114, 99], by decide⟩, rfl, _, ends_open _, fun hagrees => ?_⟩
  have hact : Server.ActsOn ⟨[sep, 115, 114, 99], by decide⟩ anySystem ()
      (opened [sep, 115, 114, 99, sep, 97]) ⟨none, some 0, some chmod⟩
      [sep, 115, 114, 99, sep, 115, 114, 99, sep, 97] :=
    (actsOn_fh (fh_opened _) rfl rfl).2 ⟨rfl, by decide⟩
  obtain ⟨file, hstored⟩ := hagrees.stored none _ hact
  rw [fh_opened, Option.some.injEq, Prod.mk.injEq] at hstored
  exact absurd hstored.2 (by decide +kernel)

end Distfs
end DistributedPrograms
