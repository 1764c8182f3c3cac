import Mathlib.Data.Fintype.Pigeonhole
import Mathlib.Data.Set.Finite.Basic
import DistributedPrograms.Distfs.Uses
import DistributedPrograms.Distfs.World

/-!
# When handlers wait for each other in a circle

All handlers but two take their locks in one order: a table before a handle of it.
`copy_file_range` takes the locks of two files, in the order of its request, and `fsync` takes the
lock of its file a second time.  So a set of requests is free of deadlocks, over all contents of the
tables and in all interleavings, exactly if there is no `fsync` in it and its copies do not form a
circle.

* `Before copies` is the order of locks, where `copies a b` says that some copy goes from the file
  of handle `a` to that of `b`.  Without a circle of copies it has none (`before_acyclic`).
* `orderly_handle`: all handlers but `fsync` climb in this order, and so the library on locks
  excludes a circle of waiting threads.
* For the other direction a run into the circle is constructed: each of the copies gets its first
  lock and asks for the second (`exists_parked_copies`), and an `fsync` waits for itself
  (`exists_parked_fsync`).  The tables of these runs have an open file for every handle.

Requests are names for threads, so two equal requests are two.  A thread that waits for a lock held
for reading, and asks for reading itself, counts as waiting; that makes the first direction
stronger, and in the second the locks are exclusive.
-/

set_option autoImplicit false

namespace DistributedPrograms
namespace Distfs

open UnixPath Fallible Server Relation

/-! ## The order of the locks

A table comes before every handle, and a handle before those that are copied to from it. -/

/-- The order in which handlers take locks, if `copies a b` says that some copy goes from the file
of handle `a` to that of `b`. -/
inductive Before (copies : UInt64 → UInt64 → Prop) : Lock → Lock → Prop
  | file (fh : UInt64) : Before copies .fh (.file fh)
  | dir (fh : UInt64) : Before copies .dh (.dir fh)
  | copy {a b : UInt64} (h : copies a b) : Before copies (.file a) (.file b)

variable {copies : UInt64 → UInt64 → Prop}

/-- A path of locks lies between files, as a path of copies, or starts at a table. -/
theorem transGen_before {k l : Lock} (h : TransGen (Before copies) k l) :
    (∃ a b, k = .file a ∧ l = .file b ∧ TransGen copies a b) ∨
    (k = .fh ∧ ∃ b, l = .file b) ∨ (k = .dh ∧ ∃ b, l = .dir b) := by
  induction h with
  | single h =>
    cases h with
    | file fh => exact Or.inr (Or.inl ⟨rfl, fh, rfl⟩)
    | dir fh => exact Or.inr (Or.inr ⟨rfl, fh, rfl⟩)
    | copy hab => exact Or.inl ⟨_, _, rfl, rfl, .single hab⟩
  | tail _ h ih =>
    rcases ih with ⟨a, b, rfl, rfl, hab⟩ | ⟨rfl, b, rfl⟩ | ⟨rfl, b, rfl⟩
    · cases h with
      | copy hbc => exact Or.inl ⟨a, _, rfl, rfl, hab.tail hbc⟩
    · cases h with
      | copy hbc => exact Or.inr (Or.inl ⟨rfl, _, rfl⟩)
    · cases h

/-- Without a circle of copies there is no circle of locks. -/
theorem before_acyclic (h : ∀ a, ¬TransGen copies a a) (l : Lock) :
    ¬TransGen (Before copies) l l := by
  intro hl
  rcases transGen_before hl with ⟨a, b, rfl, hb, hab⟩ | ⟨rfl, b, hb⟩ | ⟨rfl, b, hb⟩
  · cases hb
    exact h a hab
  · cases hb
  · cases hb

/-! ## The handlers take their locks in this order

The text of each handler is gone through once.  Most of it calls no lock at all. -/

variable {s : Server} {α : Type} {held : List (Lock × LockMode)}

/-- `x` takes its locks in order when it is started with `held`, and gives back what it has
taken. -/
abbrev Orderly (copies : UInt64 → UInt64 → Prop) (held : List (Lock × LockMode)) (x : Handler α) :
    Prop :=
  Climbs locking (Before copies) held x

/-- A call that is not about locks. -/
def NoLock {β : Type} (c : Call β) : Prop := locking.op c = .other

theorem orderly_of_uses {x : Handler α} (h : Uses NoLock x) : Orderly copies held x :=
  climbs_of_uses h

theorem orderly_withLock {l : Lock} {m : LockMode} {x : Handler α}
    (habove : ∀ k ∈ held, Before copies k.1 l) (hx : Orderly copies ((l, m) :: held) x) :
    Orderly copies held (withLock l m x) :=
  Climbs.bracket rfl rfl habove hx

theorem orderly_file (fh : UInt64) (m : LockMode) :
    ∀ k ∈ [(Lock.fh, m)], Before copies k.1 (.file fh) := by
  intro k hk
  rw [List.mem_singleton.1 hk]
  exact .file fh

theorem orderly_withFile {fh : UInt64} {x : Fd → Handler α}
    (hx : ∀ file, Orderly copies [(.file fh, .write), (.fh, .read)] (x file)) :
    Orderly copies [] (withFile fh x) := by
  refine orderly_withLock (by simp) (Climbs.bind (orderly_of_uses ?_) fun entry =>
    Climbs.bind (orderly_of_uses (uses_ofOption _ _)) fun file => ?_)
  · simp [NoLock, locking]
  · exact orderly_withLock (orderly_file fh .read) (hx file.1)

theorem noLock_getAttrFromPath (path : Path) : Uses NoLock (getAttrFromPath path) :=
  uses_getAttrFromPath.2 rfl

theorem noLock_setAttrByPath (path : Path) (attr : SettableAttr) :
    Uses NoLock (setAttrByPath path attr) := by
  refine (uses_setAttrByPath path attr).mono fun c hc => ?_
  cases hc <;> rfl

theorem noLock_listEntry (dir : Path) (offset : Nat) (entry : Except IoError OsDirEntry) :
    Uses NoLock (listEntry dir offset entry) := by
  refine (uses_listEntry dir offset entry).mono fun c hc => ?_
  cases hc <;> rfl

theorem noLock_withSpecials (reqPath : String) (path : Path) (inner : List Entry) :
    Uses NoLock (withSpecials reqPath path inner) := by
  rw [withSpecials]
  split
  · exact uses_pure _
  · simp [noLock_getAttrFromPath]

theorem orderly_getAttrImpl (req : GetAttrRequest) : Orderly copies [] (s.getAttrImpl req) := by
  rw [getAttrImpl]
  split
  · next fh _ =>
    refine orderly_withLock (by simp) (Climbs.bind (orderly_of_uses (by simp [NoLock, locking]))
      fun entry => Climbs.bind (orderly_of_uses (uses_ofOption _ _)) fun file => ?_)
    refine Climbs.bind (orderly_withLock (orderly_file fh .read) (orderly_of_uses ?_))
      fun metadata => orderly_of_uses (uses_ofOption _ _)
    simp [NoLock, locking]
  · exact orderly_of_uses (noLock_getAttrFromPath _)
  · exact orderly_of_uses (uses_throw _)

theorem orderly_setAttrImpl (req : SetAttrRequest) : Orderly copies [] (s.setAttrImpl req) := by
  rw [setAttrImpl]
  split
  · exact orderly_of_uses (uses_throw _)
  · split
    · next fh _ =>
      refine orderly_withLock (by simp) (Climbs.bind (orderly_of_uses (by simp [NoLock, locking]))
        fun entry => Climbs.bind (orderly_of_uses (uses_ofOption _ _)) fun file => ?_)
      refine orderly_withLock (orderly_file fh .read) (orderly_of_uses ?_)
      rw [uses_bind]
      exact ⟨noLock_setAttrByPath _ _, fun _ _ => by simp [NoLock, locking]⟩
    · refine orderly_of_uses ?_
      rw [uses_bind]
      exact ⟨noLock_setAttrByPath _ _, fun _ _ => noLock_getAttrFromPath _⟩
    · exact orderly_of_uses (uses_throw _)

theorem orderly_opendirImpl (req : OpendirRequest) : Orderly copies [] (s.opendirImpl req) := by
  rw [opendirImpl]
  refine Climbs.bind (orderly_of_uses (by simp [NoLock, locking])) fun fh =>
    Climbs.bind (orderly_of_uses (by simp [NoLock, locking])) fun readdir =>
    Climbs.bind (orderly_of_uses (uses_mapM fun _ _ => noLock_listEntry _ _ _)) fun inner =>
    Climbs.bind (orderly_of_uses (noLock_withSpecials _ _ _)) fun inner =>
    Climbs.bind (orderly_withLock (by simp) (orderly_of_uses ?_)) fun _ =>
    orderly_of_uses (uses_pure _)
  simp [NoLock, locking]

theorem orderly_readdirImpl (req : ReaddirRequest) : Orderly copies [] (s.readdirImpl req) := by
  refine orderly_withLock (by simp) (Climbs.bind (orderly_of_uses (by simp [NoLock, locking]))
    fun entry => Climbs.bind (orderly_of_uses (uses_ofOption _ _)) fun inner => ?_)
  refine orderly_withLock ?_ (orderly_of_uses (uses_pure _))
  intro k hk
  rw [List.mem_singleton.1 hk]
  exact .dir req.fh

theorem orderly_insert (fh : UInt64) (file : Fd) (path : Path) :
    Orderly copies [] (withLock .fh .write (perform (.fhInsert fh file path))) :=
  orderly_withLock (by simp) (orderly_of_uses (by simp [NoLock, locking]))

theorem orderly_openImpl (req : OpenRequest) : Orderly copies [] (s.openImpl req) := by
  refine Climbs.bind (orderly_of_uses (by simp [NoLock, locking])) fun file =>
    Climbs.bind (orderly_of_uses (by simp [NoLock, locking])) fun fh =>
    Climbs.bind (orderly_insert _ _ _) fun _ => orderly_of_uses (uses_pure _)

theorem orderly_createImpl (req : CreateRequest) : Orderly copies [] (s.createImpl req) := by
  refine Climbs.bind (orderly_of_uses (by simp [NoLock, locking])) fun file =>
    Climbs.bind (orderly_of_uses (by simp [NoLock, locking])) fun fh =>
    Climbs.bind (orderly_of_uses (by simp [NoLock, locking])) fun metadata =>
    Climbs.bind (orderly_insert _ _ _) fun _ => orderly_of_uses (by simp)

theorem orderly_releaseImpl (req : ReleaseRequest) : Orderly copies [] (s.releaseImpl req) := by
  refine orderly_withLock (by simp) (Climbs.bind (orderly_of_uses (by simp [NoLock, locking]))
    fun entry => ?_)
  rcases entry with _ | ⟨file, path⟩
  · exact orderly_of_uses (uses_pure ())
  · show Orderly copies _ (if req.flush then _ else _)
    split
    · exact orderly_withLock (orderly_file req.fh .write)
        (orderly_of_uses (by simp [NoLock, locking]))
    · exact orderly_of_uses (uses_pure ())

theorem orderly_readImpl (req : ReadRequest) : Orderly copies [] (s.readImpl req) := by
  refine orderly_withFile fun file => orderly_of_uses ?_
  simp only [uses_bind]
  exact ⟨by simp [NoLock, locking], fun _ _ => ⟨uses_readLoop (fun _ => rfl) _, fun _ _ => by
    simp [NoLock, locking]⟩⟩

/-- A copy takes its second lock above the first. -/
theorem orderly_copyFileRangeImpl {req : CopyFileRangeRequest} (h : copies req.fhIn req.fhOut) :
    Orderly copies [] (s.copyFileRangeImpl req) := by
  refine orderly_withLock (by simp) (Climbs.bind (orderly_of_uses (by simp [NoLock, locking]))
    fun entry => Climbs.bind (orderly_of_uses (uses_ofOption _ _)) fun fileIn => ?_)
  refine orderly_withLock (orderly_file req.fhIn .read) (Climbs.bind
    (orderly_of_uses (by simp [NoLock, locking])) fun entry =>
    Climbs.bind (orderly_of_uses (uses_ofOption _ _)) fun fileOut => ?_)
  refine orderly_withLock ?_ (orderly_of_uses (by simp [NoLock, locking]))
  intro k hk
  rcases List.mem_cons.1 hk with rfl | hk
  · exact .copy h
  · exact orderly_file req.fhOut .read k hk

/-- **All handlers but `fsync` take their locks in order.**  For a copy this is so because the order
is made for the copies there are. -/
theorem orderly_handle {req : Request} (hsync : ∀ r, req ≠ .fsync r)
    (hcopy : ∀ r, req = .copyFileRange r → copies r.fhIn r.fhOut) :
    Orderly copies [] (s.handle req) := by
  cases req with
  | lookup req => exact Climbs.map _ (orderly_of_uses (noLock_getAttrFromPath _))
  | getAttr req => exact Climbs.map _ (orderly_getAttrImpl req)
  | setAttr req => exact Climbs.map _ (orderly_setAttrImpl req)
  | mkdir req =>
    refine Climbs.map _ (Climbs.bind (orderly_of_uses ?_) fun _ =>
      orderly_of_uses (noLock_getAttrFromPath _))
    simp [NoLock, locking]
  | unlink req => exact Climbs.map _ (orderly_of_uses (by simp [unlinkImpl, NoLock, locking]))
  | symlink req =>
    refine Climbs.map _ (Climbs.bind (orderly_of_uses ?_) fun _ =>
      orderly_of_uses (noLock_getAttrFromPath _))
    simp [NoLock, locking]
  | rmdir req => exact Climbs.map _ (orderly_of_uses (by simp [rmdirImpl, NoLock, locking]))
  | rename req => exact Climbs.map _ (orderly_of_uses (by simp [renameImpl, NoLock, locking]))
  | opendir req => exact Climbs.map _ (orderly_opendirImpl req)
  | releasedir req =>
    exact Climbs.map _ (orderly_withLock (by simp) (orderly_of_uses (by simp [NoLock, locking])))
  | readdir req => exact Climbs.map _ (orderly_readdirImpl req)
  | «open» req => exact Climbs.map _ (orderly_openImpl req)
  | read req => exact Climbs.map _ (orderly_readImpl req)
  | write req =>
    refine Climbs.map _ (orderly_withFile fun file => orderly_of_uses ?_)
    simp [NoLock, locking]
  | release req => exact Climbs.map _ (orderly_releaseImpl req)
  | access req => exact Climbs.map _ (orderly_of_uses (by simp [accessImpl, NoLock, locking]))
  | flush req =>
    exact Climbs.map _ (orderly_withFile fun file => orderly_of_uses (by simp [NoLock, locking]))
  | fsync req => exact absurd rfl (hsync req)
  | create req => exact Climbs.map _ (orderly_createImpl req)
  | fallocate req =>
    exact Climbs.map _ (orderly_withFile fun file => orderly_of_uses (by simp [NoLock, locking]))
  | lseek req =>
    exact Climbs.map _ (orderly_withFile fun file => orderly_of_uses (by simp [NoLock, locking]))
  | readlink req => exact Climbs.map _ (orderly_of_uses (by simp [readlinkImpl, NoLock, locking]))
  | copyFileRange req => exact Climbs.map _ (orderly_copyFileRangeImpl (hcopy req rfl))

/-! ## Runs into a circle

A run is put together out of single calls.  What has to be seen at each is that the lock it asks for
is free, or held by the next one of the circle. -/

variable {P : Type}

/-- Some request copies from the file of `a` to that of `b`.  A copy within one file is a circle of
one. -/
def Copies (reqs : P → Request) (a b : UInt64) : Prop :=
  ∃ p r, reqs p = .copyFileRange r ∧ r.fhIn = a ∧ r.fhOut = b

variable [DecidableEq P]

/-- Whatever the system answers. -/
abbrev anyStep (t : Handlers P Unit) (a : P × Answers) : Option (Handlers P Unit) :=
  t.step (World.semantics anySystem) a

/-- In all interleavings of these requests, over all contents of the tables, no handlers wait for
each other in a circle.  One that waits for itself is a circle too. -/
def Server.DeadlockFree (s : Server) (reqs : P → Request) : Prop :=
  ∀ (w : World P Unit), w.held = [] → ∀ tr, Run anyStep (fun _ _ => True) (s.start reqs w) tr →
    ∀ t ∈ tr, ∀ p, ¬TransGen (Threads.WaitsFor locking World.held t) p p

/-- Without `fsync` and circles of copies there is no deadlock. -/
theorem deadlockFree_of_acyclic {reqs : P → Request} (hsync : ∀ p r, reqs p ≠ .fsync r)
    (hcopies : ∀ a, ¬TransGen (Copies reqs) a a) : s.DeadlockFree reqs := by
  intro w hw tr hrun
  refine Threads.no_cycle_of_climbs (before_acyclic hcopies) (World.tracks anySystem) hw ?_ hrun
  exact fun p => orderly_handle (hsync p) fun r hr => ⟨p, r, hr, rfl, rfl⟩

/-- The thread holds the lock of `a` for itself and asks for that of `b`.  It goes on only when that
one is given back. -/
def Parked (t : Handlers P Unit) (p : P) (a b : UInt64) : Prop :=
  (p, .file a, .write) ∈ t.shared.held ∧ Threads.Asks locking t p (.file b)

/-- An open file for every handle. -/
def openWorld : World P Unit := ⟨[], fun _ => some (0, []), fun _ => none, 0, ()⟩

/-- A run whose tables are untouched. -/
def Reaches (init t : Handlers P Unit) : Prop :=
  t.shared.fh = (openWorld : World P Unit).fh ∧
    ∃ tr, Run anyStep (fun _ _ => True) init (t :: tr)

variable {init t : Handlers P Unit}

/-- One call of `p`. -/
theorem Reaches.call {β : Type} {p : P} {c : Call β} {next : β → _} {b : β} {w : World P Unit}
    (h : Reaches init t) (answer : Answers) (hleft : t.left p = .call c next)
    (hexec : World.exec anySystem p answer c t.shared = some (b, w)) (hfh : w.fh = t.shared.fh) :
    ∃ t', Reaches init t' ∧ t'.left = Function.update t.left p (next b) ∧ t'.shared = w := by
  obtain ⟨ht, tr, hrun⟩ := h
  have hstep := hrun.step trivial (Threads.step_call hleft hexec)
  exact ⟨⟨Function.update t.left p (next b), w⟩, ⟨hfh.trans ht, t :: tr, hstep⟩, rfl, rfl⟩

/-- A handler that starts with the lock of the file `a` can get it where it is free. -/
theorem Reaches.fileLock (h : Reaches init t) {p : P} {a : UInt64} {n₁ : Unit → _}
    {n₂ : Option (Fd × Path) → _} {n₃ : Unit → _}
    (h₁ : t.left p = .call (.acquire .fh .read) n₁) (h₂ : n₁ () = .call (.fhGet a) n₂)
    (h₃ : n₂ (some (0, [])) = .call (.acquire (.file a) .write) n₃)
    (htable : t.shared.free .fh .read = true) (hfile : t.shared.free (.file a) .write = true) :
    ∃ t', Reaches init t' ∧ t'.left = Function.update t.left p (n₃ ()) ∧
      t'.shared.held = (p, .file a, .write) :: (p, .fh, .read) :: t.shared.held := by
  obtain ⟨t₁, hr₁, hl₁, hs₁⟩ := h.call refusing h₁ (b := ())
    (w := { t.shared with held := (p, .fh, .read) :: t.shared.held })
    (by simp [World.exec, htable]) rfl
  have hfh : t₁.shared.fh a = some (0, []) := by
    rw [hr₁.1]
    rfl
  obtain ⟨t₂, hr₂, hl₂, hs₂⟩ := hr₁.call refusing (p := p) (b := some (0, []))
    (by rw [hl₁, Function.update_self, h₂]) (by rw [← hfh]; rfl) rfl
  have hfree : t₂.shared.free (.file a) .write = true := by
    rw [hs₂, hs₁]
    simpa [World.free] using hfile
  obtain ⟨t₃, hr₃, hl₃, hs₃⟩ := hr₂.call refusing (p := p) (b := ())
    (w := { t₂.shared with held := (p, .file a, .write) :: t₂.shared.held })
    (by rw [hl₂, Function.update_self, h₃]) (by simp [World.exec, hfree]) rfl
  refine ⟨t₃, hr₃, ?_, by rw [hs₃, hs₂, hs₁]⟩
  rw [hl₃, hl₂, hl₁, Function.update_idem, Function.update_idem]

/-- An `fsync` asks for the lock it holds. -/
theorem exists_parked_fsync {reqs : P → Request} {p : P} {r : FsyncRequest}
    (hp : reqs p = .fsync r) :
    ∃ t, Reaches (s.start reqs openWorld) t ∧ Parked t p r.fh r.fh := by
  obtain ⟨n₁, n₂, n₃, n₄, h₁, h₂, h₃, h₄⟩ : ∃ n₁ n₂ n₃ n₄,
      (s.handle (.fsync r)).run = .call (.acquire .fh .read) n₁ ∧
      n₁ () = .call (.fhGet r.fh) n₂ ∧
      n₂ (some (0, [])) = .call (.acquire (.file r.fh) .write) n₃ ∧
      n₃ () = .call (.acquire (.file r.fh) .write) n₄ :=
    ⟨_, _, _, _, rfl, rfl, rfl, rfl⟩
  have hinit : Reaches (s.start reqs openWorld) (s.start reqs openWorld) := ⟨rfl, [], .init⟩
  obtain ⟨t, ht, hleft, hheld⟩ :=
    hinit.fileLock (p := p) (by rw [← h₁, ← hp]; rfl) h₂ h₃ rfl rfl
  refine ⟨t, ht, by rw [hheld]; exact List.mem_cons_self, ?_⟩
  rw [Threads.Asks, hleft, Function.update_self, h₄]
  exact ⟨.write, rfl⟩

/-- **Copies that all hold their first lock.**  `f a` copies from `a` to `g a`. -/
theorem exists_parked_copies {reqs : P → Request} {f : UInt64 → P} {g : UInt64 → UInt64}
    {S : UInt64 → Prop}
    (hf : ∀ a, S a → ∃ r, reqs (f a) = .copyFileRange r ∧ r.fhIn = a ∧ r.fhOut = g a) :
    ∀ l : List UInt64, l.Nodup → (∀ a ∈ l, S a) →
      ∃ t, Reaches (s.start reqs openWorld) t ∧ (∀ a ∈ l, Parked t (f a) a (g a)) ∧
        (∀ a, S a → a ∉ l → t.left (f a) = (s.handle (reqs (f a))).run) ∧
        ∀ x ∈ t.shared.held, x.2 = (.fh, .read) ∨ ∃ a ∈ l, x.2 = (.file a, .write)
  | [], _, _ => ⟨_, ⟨rfl, [], .init⟩, by simp, fun _ _ _ => rfl, by simp [Server.start, openWorld]⟩
  | a :: l, hnodup, hS => by
    obtain ⟨ha, hl⟩ := List.nodup_cons.1 hnodup
    obtain ⟨t, hreach, hparked, hleft, hheld⟩ :=
      exists_parked_copies hf l hl fun b hb => hS b (List.mem_cons_of_mem _ hb)
    obtain ⟨r, hr, rfl, hout⟩ := hf a (hS a List.mem_cons_self)
    -- one request has one first file
    have hinj : ∀ b, S b → b ≠ r.fhIn → f b ≠ f r.fhIn := by
      intro b hb hne heq
      obtain ⟨r', hr', rfl, -⟩ := hf b hb
      rw [heq, hr] at hr'
      cases hr'
      exact hne rfl
    obtain ⟨n₁, n₂, n₃, n₄, n₅, h₁, h₂, h₃, h₄, h₅⟩ : ∃ n₁ n₂ n₃ n₄ n₅,
        (s.handle (.copyFileRange r)).run = .call (.acquire .fh .read) n₁ ∧
        n₁ () = .call (.fhGet r.fhIn) n₂ ∧
        n₂ (some (0, [])) = .call (.acquire (.file r.fhIn) .write) n₃ ∧
        n₃ () = .call (.fhGet r.fhOut) n₄ ∧
        n₄ (some (0, [])) = .call (.acquire (.file r.fhOut) .write) n₅ :=
      ⟨_, _, _, _, _, rfl, rfl, rfl, rfl, rfl⟩
    have htable : t.shared.free .fh .read = true := by
      rw [World.free, List.all_eq_true]
      intro x hx
      rcases hheld x hx with h | ⟨b, -, h⟩ <;> simp [h]
    have hfile : t.shared.free (.file r.fhIn) .write = true := by
      rw [World.free, List.all_eq_true]
      intro x hx
      rcases hheld x hx with h | ⟨b, hb, h⟩
      · simp [h]
      · have hne : b ≠ r.fhIn := fun heq => ha (heq ▸ hb)
        simp [h, hne]
    obtain ⟨t₁, hr₁, hl₁, hheld₁⟩ := hreach.fileLock (p := f r.fhIn)
      ((hleft _ (hS _ List.mem_cons_self) ha).trans (by rw [hr, h₁])) h₂ h₃ htable hfile
    have hfh : t₁.shared.fh r.fhOut = some (0, []) := by
      rw [hr₁.1]
      rfl
    obtain ⟨t', hr', hl', hs'⟩ := hr₁.call refusing (p := f r.fhIn) (b := some (0, []))
      (by rw [hl₁, Function.update_self, h₄]) (by rw [← hfh]; rfl) rfl
    rw [hl₁, Function.update_idem] at hl'
    rw [← hs'] at hheld₁
    refine ⟨t', hr', ?_, ?_, ?_⟩
    · intro b hb
      rw [Parked, hheld₁, Threads.Asks, hl']
      rcases List.mem_cons.1 hb with rfl | hb
      · refine ⟨List.mem_cons_self, ?_⟩
        rw [Function.update_self, h₅, ← hout]
        exact ⟨.write, rfl⟩
      · obtain ⟨hmem, hasks⟩ := hparked b hb
        have hne := hinj b (hS b (List.mem_cons_of_mem _ hb)) fun heq => ha (heq ▸ hb)
        rw [Function.update_of_ne hne]
        exact ⟨List.mem_cons_of_mem _ (List.mem_cons_of_mem _ hmem), hasks⟩
    · intro b hb hnot
      rw [List.mem_cons, not_or] at hnot
      rw [hl', Function.update_of_ne (hinj b hb hnot.1)]
      exact hleft b hb hnot.2
    · intro x hx
      rw [hheld₁] at hx
      rcases List.mem_cons.1 hx with rfl | hx
      · exact Or.inr ⟨_, List.mem_cons_self, rfl⟩
      rcases List.mem_cons.1 hx with rfl | hx
      · exact Or.inl rfl
      rcases hheld x hx with h | ⟨b, hb, h⟩
      · exact Or.inl h
      · exact Or.inr ⟨b, List.mem_cons_of_mem _ hb, h⟩

omit [DecidableEq P] in
/-- Parked threads whose files form a circle wait for each other. -/
theorem waitsFor_iterate {f : UInt64 → P} {g : UInt64 → UInt64} {S : UInt64 → Prop}
    (hg : ∀ a, S a → S (g a)) (hparked : ∀ a, S a → Parked t (f a) a (g a)) {a : UInt64}
    (ha : S a) (n : Nat) :
    S (g^[n + 1] a) ∧ TransGen (Threads.WaitsFor locking World.held t) (f a) (f (g^[n + 1] a)) := by
  have hwait : ∀ b, S b → Threads.WaitsFor locking World.held t (f b) (f (g b)) :=
    fun b hb => ⟨.file (g b), .write, (hparked b hb).2, (hparked (g b) (hg b hb)).1⟩
  induction n with
  | zero => exact ⟨hg a ha, .single (hwait a ha)⟩
  | succ n ih =>
    rw [Function.iterate_succ_apply' g (n + 1)]
    exact ⟨hg _ ih.1, ih.2.tail (hwait _ ih.1)⟩

/-- A circle of copies ends in a circle of threads. -/
theorem exists_cycle_of_copies {reqs : P → Request} {a : UInt64}
    (h : TransGen (Copies reqs) a a) :
    ∃ t, Reaches (s.start reqs openWorld) t ∧
      ∃ p, TransGen (Threads.WaitsFor locking World.held t) p p := by
  -- every handle on a circle has a copy to another one on a circle
  have hnext : ∀ a, TransGen (Copies reqs) a a → ∃ p b, TransGen (Copies reqs) b b ∧
      ∃ r, reqs p = .copyFileRange r ∧ r.fhIn = a ∧ r.fhOut = b := by
    intro a ha
    obtain ⟨b, hab, hba⟩ := TransGen.head'_iff.1 ha
    obtain ⟨p, r, hr, hin, hout⟩ := hab
    exact ⟨p, b, TransGen.tail' hba ⟨p, r, hr, hin, hout⟩, r, hr, hin, hout⟩
  have hp : Nonempty P := let ⟨p, _⟩ := hnext a h; ⟨p⟩
  choose! f g hg hf using hnext
  have hfinite : Finite UInt64 := Finite.of_injective UInt64.toFin fun _ _ => UInt64.toFin_inj.1
  have hS : ∀ b, b ∈ (Set.toFinite { a | TransGen (Copies reqs) a a }).toFinset ↔
      TransGen (Copies reqs) b b := fun b => Set.Finite.mem_toFinset _
  obtain ⟨t, hreach, hparked, -, -⟩ := exists_parked_copies (s := s) hf
    (Set.toFinite { a | TransGen (Copies reqs) a a }).toFinset.toList (Finset.nodup_toList _)
    fun b hb => (hS b).1 (Finset.mem_toList.1 hb)
  have hparked : ∀ b, TransGen (Copies reqs) b b → Parked t (f b) b (g b) :=
    fun b hb => hparked b (Finset.mem_toList.2 ((hS b).2 hb))
  -- following `g` from `a` comes back to a handle
  obtain ⟨m, n, hmn, heq⟩ : ∃ m n, m < n ∧ g^[m + 1] a = g^[n + 1] a := by
    obtain ⟨m, n, hne, heq⟩ := Finite.exists_ne_map_eq_of_infinite fun n => g^[n + 1] a
    rcases Nat.lt_or_gt_of_ne hne with hlt | hlt
    · exact ⟨m, n, hlt, heq⟩
    · exact ⟨n, m, hlt, heq.symm⟩
  have hb := (waitsFor_iterate hg hparked h m).1
  have hcycle := (waitsFor_iterate hg hparked hb (n - m - 1)).2
  have hback : g^[n - m - 1 + 1] (g^[m + 1] a) = g^[m + 1] a := by
    rw [← Function.iterate_add_apply, show n - m - 1 + 1 + (m + 1) = n + 1 by omega, ← heq]
  rw [hback] at hcycle
  exact ⟨t, hreach, _, hcycle⟩

/-- A set of requests with a run into a circle is not free of deadlocks. -/
theorem not_deadlockFree {reqs : P → Request} {p : P} (h : Reaches (s.start reqs openWorld) t)
    (hcycle : TransGen (Threads.WaitsFor locking World.held t) p p) : ¬s.DeadlockFree reqs := by
  obtain ⟨-, tr, hrun⟩ := h
  intro hfree
  exact hfree openWorld rfl _ hrun t List.mem_cons_self p hcycle

/-- One `fsync` waits for itself. -/
theorem not_deadlockFree_fsync {reqs : P → Request} {p : P} {r : FsyncRequest}
    (hp : reqs p = .fsync r) : ¬s.DeadlockFree reqs := by
  obtain ⟨t, hreach, hheld, hasks⟩ := exists_parked_fsync (s := s) hp
  exact not_deadlockFree hreach (.single ⟨_, .write, hasks, hheld⟩)

/-- **When requests can deadlock.**  Exactly if one of them is an `fsync`, or their copies form a
circle (a copy within one file included). -/
theorem deadlockFree_iff (s : Server) (reqs : P → Request) :
    s.DeadlockFree reqs ↔
      (∀ p r, reqs p ≠ .fsync r) ∧ ∀ a, ¬TransGen (Copies reqs) a a := by
  constructor
  · intro hfree
    refine ⟨fun p r hp => not_deadlockFree_fsync hp hfree, fun a ha => ?_⟩
    obtain ⟨t, hreach, p, hcycle⟩ := exists_cycle_of_copies (s := s) ha
    exact not_deadlockFree hreach hcycle hfree
  · rintro ⟨hsync, hcopies⟩
    exact deadlockFree_of_acyclic hsync hcopies

/-- One client calls `fsync` on an open file. -/
theorem fsync_deadlocks : ¬∀ (s : Server) (reqs : Fin 1 → Request), s.DeadlockFree reqs := by
  intro h
  have hsync : ∀ s : Server, ¬s.DeadlockFree fun _ : Fin 1 => .fsync ⟨0, false⟩ :=
    fun s => not_deadlockFree_fsync (p := 0) rfl
  exact hsync _ (h ⟨[sep], by decide⟩ _)

end Distfs
end DistributedPrograms
