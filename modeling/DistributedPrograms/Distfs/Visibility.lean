import DistributedPrograms.Lib.Run
import DistributedPrograms.Lib.Wp
import DistributedPrograms.Distfs.Buffered
import DistributedPrograms.Distfs.Changes
import DistributedPrograms.Distfs.World

/-!
# Which requests see what was written

A client that has been told that `n` bytes are written expects them in the file.  `acknowledged` is
the files as the clients have been told of them, and `Server.Shows` what they expect of an answer.
`write` leaves its bytes in the buffer of its descriptor, and only `seek`, `read` and `flush` on the
same descriptor empty it; so the answers are as expected in every run in which no request looks at,
or changes, a part of a file for which another descriptor holds bytes, and no such bytes make the
file longer (`visible`).  Bytes elsewhere in the file may be on their way: `Facing` is how a
descriptor stands in front of a part of its file while they arrive.

* `Stops`, `Keeps`: what holds at the end of one request, and the requests that promise nothing;
* `stops_readImpl`, `stops_getAttrImpl`: what is read, and the size that is told;
* `told_write`, `told_fallocate`, `told_copyFileRange`: an answer is as expected, and what it
  acknowledges is promised;
* `exists_not_visible`: the answers without the byte that was acknowledged before.

A request that waits forever, as `fsync` does, leaves the locks that it holds, and the run goes on.
-/

set_option autoImplicit false

namespace DistributedPrograms
namespace Distfs

open UnixPath Fallible Server WriteBack

/-- A server between two requests, with what its clients know of its files.  Requests come one after
the other here, and each has its answer before the next. -/
structure Session where
  world : World Unit Buffered
  /-- the files with all acknowledged changes in them -/
  files : Ino → List UInt8
  /-- the last request, with its result if it has one -/
  exchange : Option (Request × Option (Except Failure Reply))

/-- The descriptor of a handle, and the regular file that it is open on. -/
def World.fileOf (w : World Unit Buffered) (fh : UInt64) : Option (Fd × Ino × OpenOptions) := do
  let (fd, _) ← w.fh fh
  let (i, options) ← w.os.regular fd
  return (fd, i, options)

/-- Where a write begins. -/
def writeStart (options : OpenOptions) (offset : UInt64) (file : List UInt8) : Nat :=
  if options.append then file.length else offset.toNat

/-- The files as they are after an answer, to one who knows of them by answers only.  An error
acknowledges nothing, though some of the bytes may be on their way. -/
def acknowledged (rules : ContentRules) (w : World Unit Buffered) (files : Ino → List UInt8) :
    Request → Option (Except Failure Reply) → Ino → List UInt8
  | .write req, some (.ok (.written n)) => match w.fileOf req.fh with
    | some (_, i, options) => Function.update files i
        (overwrite 0 (files i) (writeStart options req.offset (files i)) (req.data.take n.toNat))
    | none => files
  | .fallocate req, some (.ok .unit) => match w.fileOf req.fh with
    | some (_, i, _) => Function.update files i
        (rules.fallocated req.mode req.offset.toInt64 req.length.toInt64 (files i))
    | none => files
  | .copyFileRange req, some (.ok (.copied n)) => match w.fileOf req.fhIn, w.fileOf req.fhOut with
    | some (_, i, _), some (_, j, _) => Function.update files j
        (overwrite 0 (files j) req.offsetOut.toNat (slice (files i) req.offsetIn.toNat n.toNat))
    | _, _ => files
  | _, _ => files

/-- The regular file that `get_attr` is about. -/
def Server.lookedAt (s : Server) (rules : Rules) (w : World Unit Buffered) (req : GetAttrRequest) :
    Option Ino :=
  match req.path, req.fh with
  | _, some fh => (w.fileOf fh).map fun x => x.2.1
  | some path, none => match w.os.posix.tree.reach rules (s.realPath (osStr path)) with
    | .ok (i, { content := .regular, .. }) => some i
    | _ => none
  | none, none => none

/-- What a client expects of an answer, when `files` have been acknowledged.  Of an error nothing is
expected. -/
def Server.Shows (s : Server) (rules : ContentRules) (w : World Unit Buffered)
    (files : Ino → List UInt8) (os : Buffered) : Request → Option (Except Failure Reply) → Prop
  | .write req, some (.ok (.written n)) => n.toNat ≤ req.data.length ∧
    ∀ fd i options, w.fileOf req.fh = some (fd, i, options) →
      slice (acknowledged rules w files (.write req) (some (.ok (.written n))) i)
        (writeStart options req.offset (files i)) n.toNat = req.data.take n.toNat
  | .read req, some (.ok (.data data)) =>
    ∀ fd i options, w.fileOf req.fh = some (fd, i, options) →
      data = slice (files i) req.offset.toNat req.size.toNat
  | .getAttr req, some (.ok (.attr _ attr)) =>
    ∀ i, s.lookedAt rules.toRules w req = some i → attr.size = UInt64.ofNat (files i).length
  | .copyFileRange req, some (.ok (.copied n)) =>
    ∀ fdIn i optionsIn fdOut j optionsOut, w.fileOf req.fhIn = some (fdIn, i, optionsIn) →
      w.fileOf req.fhOut = some (fdOut, j, optionsOut) →
      n.toNat ≤ (slice (files i) req.offsetIn.toNat req.length.toNat).length ∧
      (n = 0 → slice (files i) req.offsetIn.toNat req.length.toNat = []) ∧
      os.contents.files j =
        overwrite 0 (files j) req.offsetOut.toNat (slice (files i) req.offsetIn.toNat n.toNat)
  | _, _ => True

/-- One request, to its end or to where it waits forever.  The turns of its calls say what the
buffers do in the meantime. -/
def Server.serve (s : Server) (rules : ContentRules) (t : Session)
    (a : Request × (Nat → Turn)) : Option Session :=
  let r := (s.handle a.1).run.drive (World.semantics (buffered rules)) () a.2 t.world
  some ⟨r.2, acknowledged rules t.world t.files a.1 r.1, some (a.1, r.1)⟩

/-- A server without buffered bytes, with any handles. -/
def Session.fresh (fh : UInt64 → Option (Fd × Path)) (dh : UInt64 → Option (List Entry × Path))
    (fhSrc : UInt64) (posix : Posix) (files : Ino → List UInt8) (cursor : Fd → Nat) : Session :=
  ⟨.alone Unit fh dh fhSrc ⟨posix, ⟨files, fun _ => none⟩, cursor⟩, files, none⟩

/-- Every answer of the run is as expected. -/
def Server.Visible (s : Server) (rules : ContentRules) (tr : List Session) : Prop :=
  ∀ t' t tr₀ req r, (t' :: t :: tr₀) <:+ tr → t'.exchange = some (req, r) →
    s.Shows rules t.world t.files t'.world.os req r

/-- What descriptors hold that the request does not flush itself neither makes a file longer that
the request is about nor belongs where it reads or writes.  `fallocate` and the file that a copy
goes to are about whole files.  Writes go only through descriptors that are open for writing. -/
def Server.Clear (s : Server) (rules : ContentRules) (w : World Unit Buffered) : Request → Prop
  | .write req => ∀ fd i options, w.fileOf req.fh = some (fd, i, options) →
    options.writes = true ∧ if options.append then w.os.Spares [fd] i 0 0
      else w.os.Spares [fd] i req.offset.toNat req.data.length
  | .read req => ∀ fd i options, w.fileOf req.fh = some (fd, i, options) →
    w.os.Spares [fd] i req.offset.toNat req.size.toNat
  | .getAttr req => ∀ i, s.lookedAt rules.toRules w req = some i → w.os.Spares [] i 0 0
  | .fallocate req =>
    ∀ fd i options, w.fileOf req.fh = some (fd, i, options) → w.os.Settled [] i
  | .copyFileRange req =>
    ∀ fdIn i optionsIn fdOut j optionsOut, w.fileOf req.fhIn = some (fdIn, i, optionsIn) →
      w.fileOf req.fhOut = some (fdOut, j, optionsOut) →
      w.os.Spares [fdOut] i req.offsetIn.toNat req.length.toNat ∧ w.os.Settled [fdOut] j
  | _ => True

def Server.Clears (s : Server) (rules : ContentRules) (tr : List Session)
    (a : Request × (Nat → Turn)) : Prop :=
  ∀ t ∈ tr.head?, s.Clear rules t.world a.1

/-! ## Handlers that run alone

A run is one request after the other, and each runs to its end or to where it waits, so its calls
are computed by `wp`. -/

section

variable {rules : ContentRules} {s : Server} {α β : Type} {w : World Unit Buffered}
  {files : Ino → List UInt8}

/-- A request on its own: what is said of its end is said of the system only. -/
def Stops (rules : ContentRules) (Q : Option (Except Failure α) → Buffered → Prop) (x : Handler α)
    (w : World Unit Buffered) : Prop :=
  wp (World.semantics (buffered rules)) () (fun r w' => Q r w'.os) x w

variable {Q : Option (Except Failure α) → Buffered → Prop} {x : Handler α}

theorem stops_withLock {l : Lock} {m : LockMode} (hwait : Q none w.os)
    (hx : ∀ w' : World Unit Buffered, w'.os = w.os → w'.fh = w.fh → Stops rules Q x w') :
    Stops rules Q (withLock l m x) w := by
  refine wp_bracket (fun _ _ => hwait) (fun o w₁ hexec => ?_) fun _ _ => rfl
  obtain ⟨-, heq⟩ := Option.ite_none_right_eq_some.1 hexec
  obtain ⟨⟩ := heq
  refine wp_mono (fun r w' hr => ?_) (hx _ rfl rfl)
  cases r <;> exact hr

/-- A handler that begins with a call to the system. -/
theorem stops_attempt_bind {ε : Type} {err : ε → Failure} {c : Call (Except ε β)}
    {f : β → Handler α}
    (hexec : ∀ o, (World.semantics (buffered rules)).exec () o c w =
      some (((buffered rules).exec o c w.os).1, { w with os := ((buffered rules).exec o c w.os).2 }))
    (herror : ∀ o e, ((buffered rules).exec o c w.os).1 = .error e →
      Q (some (.error (err e))) ((buffered rules).exec o c w.os).2)
    (hok : ∀ o b, ((buffered rules).exec o c w.os).1 = .ok b →
      Stops rules Q (f b) { w with os := ((buffered rules).exec o c w.os).2 }) :
    Stops rules Q (attempt err c >>= f) w := by
  refine wp_bind.2 (wp_attempt.2 fun o => ?_)
  rw [hexec]
  cases hr : ((buffered rules).exec o c w.os).1 with
  | error e => exact herror o e hr
  | ok b => exact hok o b hr

theorem stops_bind {R : Option (Except Failure β) → Buffered → Prop} {y : Handler β}
    {f : β → Handler α} (hy : Stops rules R y w) (hwait : ∀ os, R none os → Q none os)
    (herror : ∀ e os, R (some (.error e)) os → Q (some (.error e)) os)
    (hok : ∀ (b : β) (w' : World Unit Buffered), R (some (.ok b)) w'.os → Stops rules Q (f b) w') :
    Stops rules Q (y >>= f) w := by
  refine wp_bind.2 (wp_mono (fun r w' hr => ?_) hy)
  rcases r with _ | e | b
  · exact hwait _ hr
  · exact herror e _ hr
  · exact hok b w' hr

theorem stops_attempt {ε : Type} {err : ε → Failure} {c : Call (Except ε α)}
    (hexec : ∀ o, (World.semantics (buffered rules)).exec () o c w =
      some (((buffered rules).exec o c w.os).1, { w with os := ((buffered rules).exec o c w.os).2 }))
    (h : ∀ o, Q (some (((buffered rules).exec o c w.os).1.mapError err))
      ((buffered rules).exec o c w.os).2) :
    Stops rules Q (attempt err c) w := by
  refine wp_attempt.2 fun o => ?_
  rw [hexec]
  exact h o

/-- A handler that begins with a look at the table of handles. -/
theorem stops_fhGet {fh : UInt64} {f : Fd × Path → Handler α}
    (hno : Q (some (.error (.errno EEXIST))) w.os)
    (hf : ∀ fd path, w.fh fh = some (fd, path) → Stops rules Q (f (fd, path)) w) :
    Stops rules Q (do f (← ofOption (.errno EEXIST) (← perform (.fhGet fh)))) w := by
  refine wp_bind.2 (wp_perform.2 fun o => wp_bind.2 (wp_ofOption.2 ?_))
  cases hfh : w.fh fh with
  | none => exact hno
  | some entry => exact hf _ _ hfh

theorem stops_withFile {fh : UInt64} {f : Fd → Handler α}
    (hno : ∀ r : Option (Except Failure α), (∀ a, r ≠ some (.ok a)) → Q r w.os)
    (hf : ∀ fd path (w' : World Unit Buffered), w.fh fh = some (fd, path) → w'.os = w.os →
      Stops rules Q (f fd) w') :
    Stops rules Q (withFile fh f) w := by
  refine stops_withLock (hno _ (by simp)) fun w₁ hos hfh => ?_
  refine stops_fhGet (f := fun entry => withLock (.file fh) .write (f entry.1))
    (hos ▸ hno _ (by simp)) fun fd path hget => ?_
  refine stops_withLock (hos ▸ hno _ (by simp)) fun w₂ hos' _ => ?_
  exact hf fd path w₂ (hfh ▸ hget) (hos'.trans hos)

/-! ## What is promised is kept

`Owes` is the invariant between two requests.  Most requests promise nothing new, and for these it
is enough that no call of theirs breaks a promise. -/

/-- The system owes the files that have been acknowledged: when all buffers have arrived, in
whatever order, they are there. -/
def Buffered.Owes (os : Buffered) (files : Ino → List UInt8) : Prop :=
  WriteBack.Owes Block.apply os.contents files

theorem owes_congr {os os' : Buffered} (h : os'.contents = os.contents) (howes : os.Owes files) :
    os'.Owes files := by
  rw [Buffered.Owes, h]
  exact howes

/-- A handler that keeps all promises and makes none.  It may well let buffers arrive. -/
def Keeps (rules : ContentRules) (files : Ino → List UInt8) (x : Handler α) : Prop :=
  ∀ w : World Unit Buffered, w.os.Owes files → Stops rules (fun _ os => os.Owes files) x w

theorem drained_step {o : Turn} {c : Call β} {b : β} {w' : World Unit Buffered} (hc : ¬c.Writes)
    (h : (World.semantics (buffered rules)).exec () o c w = some (b, w')) :
    Drained Block.apply w.os.contents w'.os.contents := by
  rcases World.os_of_exec h with hos | hos
  · rw [hos]
    exact .refl
  · rw [hos]
    exact (Buffered.drained_foldl _).trans (Buffered.drained_exec hc)

theorem keeps_of_uses (hx : Uses (fun c => ¬c.Writes) x) : Keeps rules files x := fun _ howes =>
  wp_of_uses (I := fun w : World Unit Buffered => w.os.Owes files)
    (fun _ hc _ _ _ _ h hexec => (drained_step hc hexec).owes h) hx howes

theorem keeps_bind {f : α → Handler β} (hx : Keeps rules files x)
    (hf : ∀ a, Keeps rules files (f a)) : Keeps rules files (x >>= f) := by
  intro w howes
  refine wp_bind.2 (wp_mono (fun r w' howes' => ?_) (hx w howes))
  rcases r with _ | e | a
  · exact howes'
  · exact howes'
  · exact hf a w' howes'

theorem keeps_withLock {l : Lock} {m : LockMode} (hx : Keeps rules files x) :
    Keeps rules files (withLock l m x) := fun w howes =>
  stops_withLock howes fun w' hos _ => hx w' (by rwa [hos])

theorem keeps_whenSome {a : Option β} {f : β → Handler Unit} (h : ∀ b, Keeps rules files (f b)) :
    Keeps rules files (whenSome a f) := by
  cases a with
  | none => exact keeps_of_uses (uses_pure ())
  | some b => exact h b

theorem openFile_ok {o : Turn} {os : Buffered} {options : OpenOptions} {path : Path} {fd : Fd}
    (h : (Buffered.exec rules o (.openFile options path) os).1 = .ok fd) :
    ∃ i, (Buffered.exec rules o (.openFile options path) os).2.posix.fds fd = some (i, options) := by
  rw [Buffered.exec] at h ⊢
  split at h
  · next fd' posix hopen =>
    obtain ⟨⟩ := h
    obtain ⟨i, tree, -, -, -, rfl⟩ := openFile_eq_ok hopen
    exact ⟨i, Function.update_self ..⟩
  · contradiction

theorem contents_setLen {o : Turn} {os : Buffered} {options : OpenOptions} {fd : Fd} {i : Ino}
    {size : UInt64} (hfd : os.posix.fds fd = some (i, options)) (hwrite : options.write = false)
    (happend : options.append = false) :
    (Buffered.exec rules o (.fileSetLen fd size) os).2.contents = os.contents := by
  obtain ⟨e, he⟩ := setLen_of_read rules.toRules o.chance.now size hfd hwrite happend
  rw [Buffered.exec, he]

/-- A change of the size is refused where the file is not open for writing. -/
theorem keeps_resize {options : OpenOptions} (hwrite : options.write = false)
    (happend : options.append = false) (path : Path) (size : UInt64) :
    Keeps rules files (do
      let file ← attempt .ofIoError (.openFile options path)
      attempt .ofIoError (.fileSetLen file size)) := by
  intro w howes
  have hopen : ∀ o, ((buffered rules).exec o (.openFile options path) w.os).2.Owes files := fun o =>
    ((Buffered.drained_foldl _).trans (Buffered.drained_exec id)).owes howes
  refine stops_attempt_bind (fun _ => rfl) (fun o _ _ => hopen o) fun o fd hfd => ?_
  refine stops_attempt (fun _ => rfl) fun o' => ?_
  obtain ⟨i, hi⟩ := openFile_ok hfd
  have hdrained := Drained.owes (Buffered.drained_foldl o'.drains) (hopen o)
  refine owes_congr (contents_setLen (i := i) ?_ hwrite happend) hdrained
  rw [(Buffered.foldl_drain _).1]
  exact hi

theorem keeps_setAttrByPath (path : Path) (attr : SettableAttr) :
    Keeps rules files (setAttrByPath path attr) := by
  have hplain : ∀ {ε : Type} {err : ε → Failure} {c : Call (Except ε Unit)}, ¬c.Writes →
      Keeps rules files (attempt err c) := fun hc => keeps_of_uses (uses_attempt.2 hc)
  unfold setAttrByPath
  refine keeps_bind (keeps_whenSome fun uid => hplain id) fun _ => ?_
  refine keeps_bind (keeps_whenSome fun gid => hplain id) fun _ => ?_
  refine keeps_bind (keeps_whenSome fun size => keeps_resize rfl rfl path size) fun _ => ?_
  refine keeps_bind (keeps_whenSome fun mtime => hplain id) fun _ => ?_
  refine keeps_bind (keeps_whenSome fun atime => hplain id) fun _ => ?_
  exact keeps_whenSome fun mode => hplain id

theorem keeps_setAttrImpl (req : SetAttrRequest) : Keeps rules files (s.setAttrImpl req) := by
  rw [setAttrImpl]
  split
  · exact keeps_of_uses (uses_throw _)
  · split
    · refine keeps_withLock (keeps_bind (keeps_of_uses (uses_perform.2 id)) fun entry =>
        keeps_bind (keeps_of_uses (uses_ofOption _ _)) fun found => ?_)
      refine keeps_withLock (keeps_bind (keeps_setAttrByPath _ _) fun _ => ?_)
      exact keeps_bind (keeps_of_uses (uses_attempt.2 id)) fun _ =>
        keeps_of_uses (uses_ofOption _ _)
    · exact keeps_bind (keeps_setAttrByPath _ _) fun _ =>
        keeps_of_uses (uses_getAttrFromPath.2 id)
    · exact keeps_of_uses (uses_throw _)

/-- **Requests that write nothing keep all promises**, and so does `set_attr`, whose size is set on
a descriptor that cannot write. -/
theorem keeps_handle {req : Request} (h : ¬req.Writes ∨ ∃ r, req = .setAttr r) :
    Keeps rules files (s.handle req) := by
  rcases h with h | ⟨r, rfl⟩
  · exact keeps_of_uses ((makes_handle s req).mono fun _ hc hwrites => h (hc.2 hwrites))
  · exact keeps_bind (keeps_setAttrImpl r) fun _ => keeps_of_uses (uses_pure _)

/-! ## Reading

The loop of `read` takes any number of short reads, and between two of them bytes of other
descriptors may arrive. They belong elsewhere, or the read would not be clear. -/

theorem fileOf_of_regular {fh : UInt64} {fd : Fd} {path : Path} {i : Ino} {options : OpenOptions}
    (hfh : w.fh fh = some (fd, path)) (hregular : w.os.regular fd = some (i, options)) :
    w.fileOf fh = some (fd, i, options) := by
  simp [World.fileOf, hfh, hregular]

theorem fileOf_of_not_regular {fh : UInt64} {fd : Fd} {path : Path}
    (hfh : w.fh fh = some (fd, path)) (hregular : w.os.regular fd = none) : w.fileOf fh = none := by
  simp [World.fileOf, hfh, hregular]

theorem fileOf_eq_some {fh : UInt64} {fd : Fd} {i : Ino} {options : OpenOptions}
    (h : w.fileOf fh = some (fd, i, options)) :
    ∃ path, w.fh fh = some (fd, path) ∧ w.os.regular fd = some (i, options) := by
  obtain ⟨⟨fd', path⟩, hfh, h⟩ := Option.bind_eq_some_iff.1 h
  obtain ⟨⟨i', options'⟩, hregular, h⟩ := Option.bind_eq_some_iff.1 h
  obtain ⟨⟩ := h
  exact ⟨path, hfh, hregular⟩

/-- A descriptor in front of a part of its file that no other descriptor holds bytes for.  What it
reads there has been acknowledged. -/
structure Facing (os : Buffered) (files : Ino → List UInt8) (fd : Fd) (i : Ino)
    (options : OpenOptions) (pos start n : Nat) : Prop where
  ready : os.Ready fd i options pos
  owes : os.Owes files
  spares : os.Spares [] i start n

theorem Facing.foldl {os : Buffered} {fd : Fd} {i : Ino} {options : OpenOptions} {pos start n : Nat}
    (h : Facing os files fd i options pos start n) (fds : List Fd) :
    Facing (fds.foldl Buffered.drain os) files fd i options pos start n :=
  ⟨Buffered.ready_foldl h.ready fds, Drained.owes (Buffered.drained_foldl fds) h.owes,
    Buffered.spares_of_drained (Buffered.drained_foldl fds) h.spares⟩

/-- The seek in front of a read or a write. -/
theorem facing_of_seek {w' : World Unit Buffered} {fh : UInt64} {fd : Fd} {i : Ino}
    {options : OpenOptions} {offset pos : UInt64} {start n : Nat} {o : Turn} (hos : w'.os = w.os)
    (hfile : w.fileOf fh = some (fd, i, options)) (hspares : w.os.Spares [fd] i start n)
    (howes : w.os.Owes files)
    (hseek : ((buffered rules).exec o (.fileSeek fd (.start offset)) w'.os).1 = .ok pos) :
    Facing ((buffered rules).exec o (.fileSeek fd (.start offset)) w'.os).2 files fd i options
      offset.toNat start n := by
  obtain ⟨path, -, hregular⟩ := fileOf_eq_some hfile
  have hdrained : Drained Block.apply w.os.contents
      ((buffered rules).exec o (.fileSeek fd (.start offset)) w'.os).2.contents :=
    hos ▸ (Buffered.drained_foldl _).trans (Buffered.drained_exec id)
  have hready : ((buffered rules).exec o (.fileSeek fd (.start offset)) w'.os).2.Ready fd i options
      offset.toNat := by
    refine (Buffered.ready_seek ?_).resolve_left ?_
    · rw [Buffered.regular_congr (Buffered.foldl_drain _).1, hos, hregular]
    · rintro ⟨e, he⟩
      rw [show ((buffered rules).exec o _ w'.os).1 = _ from he] at hseek
      contradiction
  exact ⟨hready, hdrained.owes howes,
    Buffered.spares_of_idle (Buffered.spares_of_drained hdrained hspares) hready.idle⟩

/-- A read that brings something leaves the rest in front of the descriptor. -/
theorem Facing.read {fd : Fd} {i : Ino} {options : OpenOptions} {pos start n size : Nat}
    {data : { data : List UInt8 // data.length ≤ size }} {o : Turn}
    (h : Facing w.os files fd i options pos start n) (hstart : start ≤ pos)
    (hstop : pos + size ≤ start + n)
    (hdata : ((buffered rules).exec o (.fileRead fd size) w.os).1 = .ok data) :
    data.1 = slice (files i) pos (o.portion size) ∧
      Facing ((buffered rules).exec o (.fileRead fd size) w.os).2 files fd i options
        (pos + data.1.length) start n := by
  have hbefore := h.foldl o.drains
  have hportion : o.portion size ≤ size := Nat.min_le_left ..
  have hdrained : Drained Block.apply (o.drains.foldl Buffered.drain w.os).contents
      ((buffered rules).exec o (.fileRead fd size) w.os).2.contents := Buffered.drained_exec id
  obtain ⟨e, he⟩ | ⟨data', hdata', hslice, hready⟩ := Buffered.ready_read hbefore.ready
  · rw [show ((buffered rules).exec o _ w.os).1 = _ from he] at hdata
    contradiction
  · rw [show ((buffered rules).exec o _ w.os).1 = _ from hdata'] at hdata
    obtain rfl := Except.ok.inj hdata
    rw [Buffered.slice_of_spares hbefore.owes hbefore.spares hstart (by omega)] at hslice
    exact ⟨hslice, hready, hdrained.owes hbefore.owes,
      Buffered.spares_of_drained hdrained hbefore.spares⟩

/-- **The loop of `read`** returns the slice that it is asked for. -/
theorem stops_readLoop {fd : Fd} {i : Ino} {options : OpenOptions} {start n : Nat} (size pos : Nat)
    (hfacing : Facing w.os files fd i options pos start n) (hstart : start ≤ pos)
    (hstop : pos + size ≤ start + n) :
    Stops rules (fun r _ => ∀ data, r = some (.ok data) → data = slice (files i) pos size)
      (readLoop fd size) w := by
  induction size using Nat.strong_induction_on generalizing pos w with
  | h size ih =>
    rw [readLoop]
    refine stops_attempt_bind (fun _ => rfl) (fun _ _ _ _ h => by simp at h) fun o data hdata => ?_
    obtain ⟨hslice, hfacing'⟩ := hfacing.read hstart hstop hdata
    obtain ⟨data, hlength⟩ := data
    obtain rfl : data = slice (files i) pos (o.portion size) := hslice
    have hportion : o.portion size ≤ size := Nat.min_le_left ..
    show Stops rules _ (if (slice (files i) pos (o.portion size)).length = 0 then _ else _) _
    split
    · next hzero =>
      intro data hdata
      obtain rfl := Except.ok.inj (Option.some.inj hdata)
      exact (Buffered.slice_of_portion_eq_nil (List.length_eq_zero_iff.1 hzero)).symm
    · next hne =>
      refine stops_bind (ih _ (by omega) _ hfacing' (by omega) (by dsimp only at hlength ⊢; omega))
        (fun _ _ _ h => by simp at h) (fun _ _ _ _ h => by simp at h) fun rest w₁ hrest => ?_
      intro data hdata
      obtain rfl := Except.ok.inj (Option.some.inj hdata)
      rw [hrest rest rfl]
      exact slice_append hportion

/-- **`read` returns what has been acknowledged**, where no other handle holds bytes for the range
or the end of the file. -/
theorem stops_readImpl {req : ReadRequest} (hclear : s.Clear rules w (.read req))
    (howes : w.os.Owes files) :
    Stops rules (fun r _ => ∀ data, r = some (.ok data) → ∀ fd i options,
        w.fileOf req.fh = some (fd, i, options) →
        data = slice (files i) req.offset.toNat req.size.toNat) (s.readImpl req) w := by
  refine stops_withFile (fun r hr data hdata => absurd hdata (hr data)) fun fd path w' hfh hos => ?_
  cases hregular : w.os.regular fd with
  | none =>
    refine wp_of_forall fun r _ data _ fd' i options hfile => ?_
    rw [fileOf_of_not_regular hfh hregular] at hfile
    contradiction
  | some file =>
    obtain ⟨i, options⟩ := file
    have hfile := fileOf_of_regular hfh hregular
    refine stops_attempt_bind (fun _ => rfl) (fun _ _ _ _ h => by simp at h) fun o _ hseek => ?_
    have hfacing := facing_of_seek hos hfile (hclear _ _ _ hfile) howes hseek
    refine stops_bind (stops_readLoop _ _ hfacing (Nat.le_refl _) (Nat.le_refl _))
      (fun _ _ _ h => by simp at h) (fun _ _ _ _ h => by simp at h) fun data w₁ hslice => ?_
    refine stops_attempt_bind (fun _ => rfl) (fun _ _ _ _ h => by simp at h) fun _ _ _ => ?_
    intro data' hdata' fd' i' options' hfile'
    rw [hfile] at hfile'
    obtain ⟨⟩ := hfile'
    obtain ⟨⟩ := hdata'
    exact hslice data rfl

/-! ## Looking

Which file a request is about is read off the tables and the tree, and no buffer changes it. -/

theorem size_of_metadataToGrpc {m : Metadata} {attr : Attr} (h : metadataToGrpc m = some attr) :
    attr.size = m.len := by
  obtain ⟨kind, -, h⟩ := Option.bind_eq_some_iff.1 h
  obtain ⟨⟩ := h
  rfl

/-- A file that nobody makes longer is as long as has been acknowledged. -/
theorem length_before (fds : List Fd) {i : Ino} (hspares : w.os.Spares [] i 0 0)
    (howes : w.os.Owes files) :
    ((fds.foldl Buffered.drain w.os).contents.files i).length = (files i).length := by
  have hdrained : Drained Block.apply w.os.contents (fds.foldl Buffered.drain w.os).contents :=
    Buffered.drained_foldl _
  exact Buffered.length_of_spares (hdrained.owes howes) (Buffered.spares_of_drained hdrained hspares)

/-- The size in an answer. -/
def Tells (n : UInt64) (r : Option (Except Failure Attr)) (_ : Buffered) : Prop :=
  ∀ attr, r = some (.ok attr) → attr.size = n

theorem stops_convert {m : Metadata} {n : UInt64} (h : m.len = n) :
    Stops rules (Tells n) (ofOption .panic (metadataToGrpc m)) w := by
  refine wp_ofOption.2 fun attr hattr => ?_
  cases hconv : metadataToGrpc m with
  | none => simp [hconv] at hattr
  | some attr' =>
    rw [hconv] at hattr
    obtain ⟨⟩ := hattr
    rw [size_of_metadataToGrpc hconv, h]

theorem stops_fileAttr {fh : UInt64} {fd : Fd} {i : Ino} {options : OpenOptions}
    (hfile : w.fileOf fh = some (fd, i, options)) (hspares : w.os.Spares [] i 0 0)
    (howes : w.os.Owes files) :
    Stops rules (Tells (UInt64.ofNat (files i).length))
      (withLock .fh .read do
        let (file, _) ← ofOption (.errno EEXIST) (← perform (.fhGet fh))
        let metadata ← withLock (.file fh) .read (attempt .ofIoError (.fileMetadata file))
        ofOption .panic (metadataToGrpc metadata)) w := by
  obtain ⟨path, hfh, hregular⟩ := fileOf_eq_some hfile
  refine stops_withLock (fun _ h => by simp at h) fun w₁ hos hfh₁ => ?_
  refine stops_fhGet (f := fun entry => withLock (.file fh) .read
    (attempt .ofIoError (.fileMetadata entry.1)) >>= fun metadata =>
      ofOption .panic (metadataToGrpc metadata)) (fun _ h => by simp at h) fun fd' path' hget => ?_
  rw [hfh₁, hfh] at hget
  obtain ⟨⟩ := hget
  refine stops_bind (R := fun r _ => ∀ m, r = some (.ok m) → m.len = UInt64.ofNat (files i).length)
    ?_ (fun _ _ _ h => by simp at h) (fun _ _ _ _ h => by simp at h)
    fun m w₂ hm => stops_convert (hm m rfl)
  refine stops_withLock (fun _ h => by simp at h) fun w₂ hos' _ => ?_
  refine stops_attempt (fun _ => rfl) fun o m hm => ?_
  have hos₂ : w₂.os = w.os := hos'.trans hos
  cases hexec : ((buffered rules).exec o (.fileMetadata fd) w₂.os).1 with
  | error e =>
    rw [hexec] at hm
    obtain ⟨⟩ := Option.some.inj hm
  | ok m' =>
    rw [hexec] at hm
    obtain ⟨⟩ := hm
    rw [hos₂] at hexec
    have hregular' : (o.drains.foldl Buffered.drain w.os).regular fd = some (i, options) := by
      rw [Buffered.regular_congr (Buffered.foldl_drain _).1, hregular]
    have hlen : m.len = _ := Buffered.len_fileMetadata rules o hregular' hexec
    rw [hlen, length_before o.drains hspares howes]

theorem stops_pathAttr {path : Path} {i : Ino} {f : Inode}
    (hreach : w.os.posix.tree.reach rules.toRules path = .ok (i, f)) (hcontent : f.content = .regular)
    (hspares : w.os.Spares [] i 0 0) (howes : w.os.Owes files) :
    Stops rules (Tells (UInt64.ofNat (files i).length)) (getAttrFromPath path) w := by
  refine stops_attempt_bind (fun _ => rfl) (fun _ _ _ _ h => by simp at h) fun o m hm =>
    stops_convert ?_
  rw [← length_before o.drains hspares howes]
  refine Buffered.len_pathMetadata ?_ hcontent hm
  rw [(Buffered.foldl_drain _).1, hreach]

/-- **`get_attr` tells the acknowledged size.** -/
theorem stops_getAttrImpl {req : GetAttrRequest} (hclear : s.Clear rules w (.getAttr req))
    (howes : w.os.Owes files) {i : Ino} (hi : s.lookedAt rules.toRules w req = some i) :
    Stops rules (Tells (UInt64.ofNat (files i).length)) (s.getAttrImpl req) w := by
  have hspares := hclear i hi
  obtain ⟨path, fh, flags⟩ := req
  rcases fh with _ | fh
  · rcases path with _ | path
    · contradiction
    · have hreach : ∃ f, w.os.posix.tree.reach rules.toRules (s.realPath (osStr path)) = .ok (i, f) ∧
          f.content = .regular := by
        simp only [lookedAt] at hi
        split at hi
        · next hreach =>
          obtain ⟨⟩ := hi
          exact ⟨_, hreach, rfl⟩
        · contradiction
      obtain ⟨f, hreach, hcontent⟩ := hreach
      exact stops_pathAttr hreach hcontent hspares howes
  · have hmap : (w.fileOf fh).map (fun x => x.2.1) = some i := by
      rcases path with _ | path <;> exact hi
    obtain ⟨⟨fd, i', options⟩, hfile, rfl⟩ := Option.map_eq_some_iff.1 hmap
    rcases path with _ | path <;> exact stops_fileAttr hfile hspares howes

/-! ## Writing

The bytes are promised when the write is answered, and are still in the buffer.  They have to
commute with what others have on its way to the same file. -/

/-- An answer is as expected, and what it acknowledges is promised.  This is what has to be shown of
each handler. -/
def Server.Told (s : Server) (rules : ContentRules) (w : World Unit Buffered)
    (files : Ino → List UInt8) (req : Request) (r : Option (Except Failure Reply)) (os : Buffered) :
    Prop :=
  os.Owes (acknowledged rules w files req r) ∧ s.Shows rules w files os req r

theorem told_of_not_ok {req : Request} {r : Option (Except Failure Reply)} {os : Buffered}
    (hr : ∀ reply, r ≠ some (.ok reply)) (h : os.Owes files) : s.Told rules w files req r os := by
  rcases r with _ | e | reply
  · cases req <;> exact ⟨h, trivial⟩
  · cases req <;> exact ⟨h, trivial⟩
  · exact absurd rfl (hr reply)

theorem told_of_map_not_ok {f : α → Reply} {req : Request} {r : Option (Except Failure α)}
    {os : Buffered} (hr : ∀ a, r ≠ some (.ok a)) (h : os.Owes files) :
    s.Told rules w files req (r.map (Except.map f)) os := by
  refine told_of_not_ok (fun reply hreply => ?_) h
  rcases r with _ | e | a
  · obtain ⟨⟩ := hreply
  · obtain ⟨⟩ := hreply
  · exact hr a rfl

theorem acknowledged_write {req : WriteRequest} {n : UInt32} {fd : Fd} {i : Ino}
    {options : OpenOptions} (hfile : w.fileOf req.fh = some (fd, i, options)) :
    acknowledged rules w files (.write req) (some (.ok (.written n))) = Function.update files i
      (overwrite 0 (files i) (writeStart options req.offset (files i))
        (req.data.take n.toNat)) := by
  simp only [acknowledged, hfile]

theorem shows_write {req : WriteRequest} {n : UInt32} {os : Buffered}
    (hn : n.toNat ≤ req.data.length) :
    s.Shows rules w files os (.write req) (some (.ok (.written n))) := by
  refine ⟨hn, fun fd i options hfile => ?_⟩
  have hlength : (req.data.take n.toNat).length = n.toNat := by
    rw [List.length_take, Nat.min_eq_left hn]
  rw [acknowledged_write hfile, Function.update_self]
  nth_rewrite 2 [← hlength]
  exact slice_overwrite

theorem toNat_written {n : Nat} (h : n ≤ maxBufferSize) : (UInt32.ofNat n).toNat = n :=
  UInt32.toNat_ofNat_of_lt' (Nat.lt_of_le_of_lt h (by decide))

/-- Where a clear write puts its bytes: at the end of the file, or in a range that is spared. -/
theorem Server.Clear.write {req : WriteRequest} {fd : Fd} {i : Ino} {options : OpenOptions}
    (h : s.Clear rules w (.write req)) (hfile : w.fileOf req.fh = some (fd, i, options)) :
    ∃ start len, options.writes = true ∧ w.os.Spares [fd] i start len ∧
      (options.append = false → start = req.offset.toNat ∧ req.data.length ≤ len) := by
  obtain ⟨hwrites, hspares⟩ := h _ _ _ hfile
  cases happend : options.append with
  | true =>
    rw [happend] at hspares
    exact ⟨0, 0, hwrites, hspares, by simp⟩
  | false =>
    rw [happend] at hspares
    exact ⟨req.offset.toNat, req.data.length, hwrites, hspares, fun _ => ⟨rfl, Nat.le_refl _⟩⟩

/-- The promise that comes with an answer to a write. -/
theorem owes_write {req : WriteRequest} {fd : Fd} {i : Ino} {options : OpenOptions} {n : Nat}
    {start len : Nat} {os os' : Buffered} (hfile : w.fileOf req.fh = some (fd, i, options))
    (hwrites : options.writes = true) (hn : n ≤ maxBufferSize)
    (hfacing : Facing os files fd i options req.offset.toNat start len)
    (hrange : options.append = false → start = req.offset.toNat ∧ req.data.length ≤ len)
    (hcontents : os'.contents = if options.writes && n != 0 then
      os.contents.put fd i
        ⟨if options.append then none else some req.offset.toNat, req.data.take n⟩
      else os.contents) :
    os'.Owes (acknowledged rules w files (.write req)
      (some (.ok (.written (UInt32.ofNat n))))) := by
  rw [acknowledged_write hfile, toNat_written hn, Buffered.Owes, hcontents, hwrites, Bool.true_and]
  by_cases hzero : n = 0
  · rw [hzero, List.take_zero, overwrite_nil, Function.update_eq_self]
    exact hfacing.owes
  · rw [if_pos (by simpa using hzero)]
    have happly : Block.apply
        ⟨if options.append then none else some req.offset.toNat, req.data.take n⟩ (files i) =
        overwrite 0 (files i) (writeStart options req.offset (files i)) (req.data.take n) := by
      rw [Block.apply, writeStart]
      split <;> rfl
    rw [← happly]
    refine WriteBack.Owes.put hfacing.owes hfacing.ready.idle fun c' hdrained fd' b' hb' => ?_
    have hspares := hfacing.spares fd' List.not_mem_nil b' (hdrained.pending hb')
    refine (hspares.mono (Buffered.length_le_of_drained hdrained)).comm fun pos hpos => ?_
    split at hpos
    · contradiction
    · next happend =>
      obtain ⟨rfl, hle⟩ := hrange (by simpa using happend)
      obtain ⟨⟩ := hpos
      exact ⟨rfl, Nat.le_trans (List.length_take_le' ..) hle⟩

/-- **`write` acknowledges what it promises**, where it is clear of the bytes of others. -/
theorem told_write {req : WriteRequest} (hclear : s.Clear rules w (.write req))
    (howes : w.os.Owes files) :
    Stops rules (s.Told rules w files (.write req)) (s.handle (.write req)) w := by
  refine wp_map.2 (stops_withFile (fun r hr => told_of_map_not_ok hr howes)
    fun fd path w' hfh hos => ?_)
  have hseek : ∀ o, ((buffered rules).exec o (.fileSeek fd (.start req.offset)) w'.os).2.Owes files :=
    fun o => ((Buffered.drained_foldl _).trans (Buffered.drained_exec id)).owes (hos ▸ howes)
  refine stops_attempt_bind (fun _ => rfl)
    (fun o _ _ => told_of_map_not_ok (by simp) (hseek o)) fun o pos hpos => ?_
  have hdrained := fun o' : Turn => Drained.owes (Buffered.drained_foldl o'.drains) (hseek o)
  cases hregular : w.os.regular fd with
  | none =>
    have hnone : ((buffered rules).exec o (.fileSeek fd (.start req.offset)) w'.os).2.regular fd =
        none := by
      refine (Buffered.seek_of_not_regular ?_).1
      rw [Buffered.regular_congr (Buffered.foldl_drain _).1, hos, hregular]
    have hwrite : ∀ o', ((buffered rules).exec o' (.fileWrite fd req.data)
        ((buffered rules).exec o (.fileSeek fd (.start req.offset)) w'.os).2).2.Owes files := by
      intro o'
      refine owes_congr (Buffered.write_of_not_regular ?_) (hdrained o')
      rw [Buffered.regular_congr (Buffered.foldl_drain _).1, hnone]
    refine stops_attempt_bind (fun _ => rfl)
      (fun o' _ _ => told_of_map_not_ok (by simp) (hwrite o')) fun o' n hn => ?_
    refine ⟨?_, shows_write ?_⟩
    · show Buffered.Owes _ (acknowledged rules w files (.write req) (some (.ok (.written _))))
      rw [acknowledged, fileOf_of_not_regular hfh hregular]
      exact hwrite o'
    · rw [UInt32.toNat_ofNat']
      exact Nat.le_trans (Nat.mod_le _ _) n.2
  | some file =>
    obtain ⟨i, options⟩ := file
    have hfile := fileOf_of_regular hfh hregular
    obtain ⟨start, len, hwrites, hspares, hrange⟩ := hclear.write hfile
    have hfacing := facing_of_seek hos hfile hspares howes hpos
    have hwrite := fun o' => Buffered.ready_write rules o' req.data
      (Buffered.ready_foldl hfacing.ready o'.drains)
    refine stops_attempt_bind (fun _ => rfl) (fun o' e he => ?_) fun o' n hn => ?_
    · obtain ⟨e', -, hcontents⟩ | ⟨n, hn, -⟩ := hwrite o'
      · exact told_of_map_not_ok (by simp) (owes_congr hcontents (hdrained o'))
      · rw [show ((buffered rules).exec o' _ _).1 = _ from hn] at he
        contradiction
    · obtain ⟨e', he, -⟩ | ⟨n', hn', hmax, hcontents⟩ := hwrite o'
      · rw [show ((buffered rules).exec o' _ _).1 = _ from he] at hn
        contradiction
      · rw [show ((buffered rules).exec o' _ _).1 = _ from hn'] at hn
        obtain rfl := Except.ok.inj hn
        refine ⟨?_, shows_write ?_⟩
        · exact owes_write hfile hwrites hmax (hfacing.foldl o'.drains) hrange hcontents
        · rw [toNat_written hmax]
          exact n'.2

/-! ## Calls on the raw descriptor

`fallocate` and `copy_file_range` go to the system past the buffers, so what these hold must not
matter to them. -/

theorem told_fallocate {req : FallocateRequest} (hclear : s.Clear rules w (.fallocate req))
    (howes : w.os.Owes files) :
    Stops rules (s.Told rules w files (.fallocate req)) (s.handle (.fallocate req)) w := by
  refine wp_map.2 (stops_withFile (fun r hr => told_of_map_not_ok hr howes)
    fun fd path w' hfh hos => ?_)
  refine wp_bind.2 (wp_ofOption.2 ?_)
  split
  swap
  · exact told_of_map_not_ok (by simp) (hos ▸ howes)
  refine stops_attempt (fun _ => rfl) fun o => ?_
  have hdrained : (o.drains.foldl Buffered.drain w'.os).Owes files :=
    Drained.owes (Buffered.drained_foldl _) (hos ▸ howes)
  have hcongr : (o.drains.foldl Buffered.drain w'.os).regular fd = w.os.regular fd := by
    rw [Buffered.regular_congr (Buffered.foldl_drain _).1, hos]
  cases hregular : w.os.regular fd with
  | none =>
    have howes' := owes_congr (Buffered.fallocate_of_not_regular rules o req.mode
      req.offset.toInt64 req.length.toInt64 (hcongr.trans hregular)) hdrained
    cases hr : ((buffered rules).exec o
        (.fallocate fd req.mode req.offset.toInt64 req.length.toInt64) w'.os).1 with
    | error e => exact told_of_map_not_ok (f := fun _ => .unit) (by simp [Except.mapError]) howes'
    | ok u =>
      refine ⟨?_, trivial⟩
      show Buffered.Owes _ (acknowledged rules w files (.fallocate req) (some (.ok .unit)))
      rw [acknowledged, fileOf_of_not_regular hfh hregular]
      exact howes'
  | some file =>
    obtain ⟨i, options⟩ := file
    have hfile := fileOf_of_regular hfh hregular
    have hsettled : (o.drains.foldl Buffered.drain w'.os).Settled [] i :=
      Buffered.settled_of_drained (hos ▸ Buffered.drained_foldl _) (hclear _ _ _ hfile)
    obtain ⟨e, he, hcontents⟩ | ⟨hok, hcontents⟩ := Buffered.fallocate_cases rules o req.mode
      req.offset.toInt64 req.length.toInt64 (hcongr.trans hregular)
    · rw [show ((buffered rules).exec o _ w'.os).1 = _ from he]
      exact told_of_map_not_ok (f := fun _ => .unit) (by simp [Except.mapError])
        (owes_congr hcontents hdrained)
    · rw [show ((buffered rules).exec o _ w'.os).1 = _ from hok]
      refine ⟨?_, trivial⟩
      show Buffered.Owes _ (acknowledged rules w files (.fallocate req) (some (.ok .unit)))
      have hnone : ∀ fd', ¬(o.drains.foldl Buffered.drain w'.os).contents.Holds fd' i := fun fd' =>
        hsettled fd' List.not_mem_nil
      rw [acknowledged, hfile, Buffered.Owes,
        show ((buffered rules).exec o _ w'.os).2.contents = _ from hcontents,
        WriteBack.Owes.files_eq hdrained hnone]
      exact WriteBack.Owes.set hdrained hnone _

/-- A flush only lets blocks reach their files. -/
theorem drained_flush {os : Buffered} {fd : Fd} (o : Turn) : Drained Block.apply os.contents
    ((buffered rules).exec o (.fileFlush fd) os).2.contents :=
  (Buffered.drained_foldl _).trans (Buffered.drained_exec id)

/-- A flush loses nothing, and leaves nothing with its descriptor. -/
theorem flushed {os : Buffered} {fd : Fd} (o : Turn) (howes : os.Owes files) :
    ((buffered rules).exec o (.fileFlush fd) os).2.Owes files ∧
      (∀ fd', ((buffered rules).exec o (.fileFlush fd) os).2.regular fd' = os.regular fd') ∧
      ((buffered rules).exec o (.fileFlush fd) os).2.contents.pending fd = none := by
  refine ⟨(drained_flush o).owes howes, fun fd' => ?_, ?_⟩
  · exact Buffered.regular_flush.trans (Buffered.regular_congr (Buffered.foldl_drain _).1)
  · show (Buffered.exec rules o (.fileFlush fd) _).2.contents.pending fd = none
    rw [Buffered.contents_flush]
    exact Buffered.idle_drain

/-- A copy in which a descriptor is not that of a regular file writes nowhere. -/
theorem told_copy_of_not_regular {req : CopyFileRangeRequest} {os : Buffered} {fdIn fdOut : Fd}
    {pathIn pathOut : Path} (o : Turn) (hin : w.fh req.fhIn = some (fdIn, pathIn))
    (hout : w.fh req.fhOut = some (fdOut, pathOut))
    (hdrained : (o.drains.foldl Buffered.drain os).Owes files)
    (hcongr : ∀ fd, (o.drains.foldl Buffered.drain os).regular fd = w.os.regular fd)
    (hnone : w.os.regular fdIn = none ∨ w.os.regular fdOut = none) :
    s.Told rules w files (.copyFileRange req)
      ((some (((buffered rules).exec o (.copyFileRange fdIn req.offsetIn.toInt64 fdOut
        req.offsetOut.toInt64 req.length) os).1.mapError Failure.errno)).map
          (Except.map Reply.copied))
      ((buffered rules).exec o (.copyFileRange fdIn req.offsetIn.toInt64 fdOut
        req.offsetOut.toInt64 req.length) os).2 := by
  have howes := owes_congr (Buffered.copyFileRange_of_not_regular rules o
    req.offsetIn.toInt64 req.offsetOut.toInt64 req.length
    (hnone.imp (hcongr fdIn).trans (hcongr fdOut).trans)) hdrained
  have hfile : ∀ fdIn i optionsIn fdOut j optionsOut,
      w.fileOf req.fhIn = some (fdIn, i, optionsIn) →
      w.fileOf req.fhOut ≠ some (fdOut, j, optionsOut) := by
    intro _ _ _ _ _ _ hfileIn hfileOut
    rcases hnone with hnone | hnone
    · rw [fileOf_of_not_regular hin hnone] at hfileIn
      contradiction
    · rw [fileOf_of_not_regular hout hnone] at hfileOut
      contradiction
  cases hr : ((buffered rules).exec o (.copyFileRange fdIn req.offsetIn.toInt64 fdOut
      req.offsetOut.toInt64 req.length) os).1 with
  | error e => exact told_of_map_not_ok (by simp [Except.mapError]) howes
  | ok n =>
    refine ⟨?_, fun _ _ _ _ _ _ hfileIn hfileOut => absurd hfileOut (hfile _ _ _ _ _ _ hfileIn)⟩
    show Buffered.Owes _ (acknowledged rules w files (.copyFileRange req) (some (.ok (.copied n))))
    rw [acknowledged]
    split
    · next hfileIn hfileOut => exact absurd hfileOut (hfile _ _ _ _ _ _ hfileIn)
    · exact howes

/-- A copy between regular files reads what the first is to hold, and nothing pending is left to
touch the second. -/
theorem told_copy_of_regular {req : CopyFileRangeRequest} {os : Buffered} {fdIn fdOut : Fd}
    {pathIn pathOut : Path} {i j : Ino} {optionsIn optionsOut : OpenOptions} (o : Turn)
    (hin : w.fh req.fhIn = some (fdIn, pathIn)) (hout : w.fh req.fhOut = some (fdOut, pathOut))
    (hdrained : (o.drains.foldl Buffered.drain os).Owes files)
    (hcongr : ∀ fd, (o.drains.foldl Buffered.drain os).regular fd = w.os.regular fd)
    (hregIn : w.os.regular fdIn = some (i, optionsIn))
    (hregOut : w.os.regular fdOut = some (j, optionsOut))
    (hspares : os.Spares [] i req.offsetIn.toNat req.length.toNat) (hsettled : os.Settled [] j) :
    s.Told rules w files (.copyFileRange req)
      ((some (((buffered rules).exec o (.copyFileRange fdIn req.offsetIn.toInt64 fdOut
        req.offsetOut.toInt64 req.length) os).1.mapError Failure.errno)).map
          (Except.map Reply.copied))
      ((buffered rules).exec o (.copyFileRange fdIn req.offsetIn.toInt64 fdOut
        req.offsetOut.toInt64 req.length) os).2 := by
  have hfileIn := fileOf_of_regular hin hregIn
  have hfileOut := fileOf_of_regular hout hregOut
  have hidle : ∀ fd, ¬(o.drains.foldl Buffered.drain os).contents.Holds fd j := fun fd =>
    Buffered.settled_of_drained (Buffered.drained_foldl _) hsettled fd List.not_mem_nil
  have hslice : ∀ k ≤ req.length.toNat, slice
      ((o.drains.foldl Buffered.drain os).contents.files i) req.offsetIn.toNat k =
        slice (files i) req.offsetIn.toNat k := fun k hk =>
    Buffered.slice_of_spares hdrained
      (Buffered.spares_of_drained (Buffered.drained_foldl _) hspares) (Nat.le_refl _) (by omega)
  obtain ⟨e, he, hcontents⟩ | ⟨n, hcopy, hn⟩ := Buffered.copyFileRange_cases rules o
    req.offsetIn.toInt64 req.offsetOut.toInt64 req.length ((hcongr fdIn).trans hregIn)
    ((hcongr fdOut).trans hregOut)
  · rw [show ((buffered rules).exec o _ os).1 = _ from he]
    exact told_of_map_not_ok (by simp [Except.mapError]) (owes_congr hcontents hdrained)
  · rw [show ((buffered rules).exec o _ os).1 = _ from hn]
    obtain ⟨hlength, hzero, hcontents⟩ := Buffered.copyFileRange_eq_ok hcopy
    have hn : n.toNat ≤ req.length.toNat := Nat.le_trans hlength (List.length_take_le ..)
    simp only [hslice _ (Nat.le_refl _)] at hlength hzero
    simp only [hslice _ hn, WriteBack.Owes.files_eq hdrained hidle] at hcontents
    refine ⟨?_, ?_⟩
    · show Buffered.Owes _
        (acknowledged rules w files (.copyFileRange req) (some (.ok (.copied n))))
      rw [acknowledged, hfileIn, hfileOut, Buffered.Owes,
        show ((buffered rules).exec o _ os).2.contents = _ from hcontents]
      exact WriteBack.Owes.set hdrained hidle _
    · intro _ _ _ _ _ _ hfileIn' hfileOut'
      rw [hfileIn] at hfileIn'
      rw [hfileOut] at hfileOut'
      obtain ⟨⟩ := hfileIn'
      obtain ⟨⟩ := hfileOut'
      refine ⟨hlength, hzero, ?_⟩
      rw [show ((buffered rules).exec o _ os).2.contents = _ from hcontents]
      exact Function.update_self ..

/-- The copy itself, all handles being found and all buffers flushed. -/
theorem told_copy {req : CopyFileRangeRequest} {os : Buffered} {fdIn fdOut : Fd}
    {pathIn pathOut : Path} (o : Turn) (hin : w.fh req.fhIn = some (fdIn, pathIn))
    (hout : w.fh req.fhOut = some (fdOut, pathOut)) (howes : os.Owes files)
    (hregular : ∀ fd, os.regular fd = w.os.regular fd)
    (hsettled : ∀ i optionsIn j optionsOut, w.os.regular fdIn = some (i, optionsIn) →
      w.os.regular fdOut = some (j, optionsOut) →
      os.Spares [] i req.offsetIn.toNat req.length.toNat ∧ os.Settled [] j) :
    s.Told rules w files (.copyFileRange req)
      ((some (((buffered rules).exec o (.copyFileRange fdIn req.offsetIn.toInt64 fdOut
        req.offsetOut.toInt64 req.length) os).1.mapError Failure.errno)).map
          (Except.map Reply.copied))
      ((buffered rules).exec o (.copyFileRange fdIn req.offsetIn.toInt64 fdOut
        req.offsetOut.toInt64 req.length) os).2 := by
  have hdrained : (o.drains.foldl Buffered.drain os).Owes files :=
    Drained.owes (Buffered.drained_foldl _) howes
  have hcongr : ∀ fd, (o.drains.foldl Buffered.drain os).regular fd = w.os.regular fd := fun fd =>
    (Buffered.regular_congr (Buffered.foldl_drain _).1).trans (hregular fd)
  by_cases hnone : w.os.regular fdIn = none ∨ w.os.regular fdOut = none
  · exact told_copy_of_not_regular o hin hout hdrained hcongr hnone
  · rw [not_or] at hnone
    obtain ⟨⟨i, optionsIn⟩, hregIn⟩ := Option.ne_none_iff_exists'.1 hnone.1
    obtain ⟨⟨j, optionsOut⟩, hregOut⟩ := Option.ne_none_iff_exists'.1 hnone.2
    obtain ⟨hspares, hsettled⟩ := hsettled i optionsIn j optionsOut hregIn hregOut
    exact told_copy_of_regular o hin hout hdrained hcongr hregIn hregOut hspares hsettled

/-- **`copy_file_range` copies what has been acknowledged**, where it has all been flushed. -/
theorem told_copyFileRange {req : CopyFileRangeRequest} (hclear : s.Clear rules w (.copyFileRange req))
    (howes : w.os.Owes files) :
    Stops rules (s.Told rules w files (.copyFileRange req)) (s.handle (.copyFileRange req)) w := by
  have hno : ∀ {os : Buffered} {r : Option (Except Failure UInt64)}, (∀ a, r ≠ some (.ok a)) →
      os.Owes files → s.Told rules w files (.copyFileRange req) (r.map (Except.map .copied)) os :=
    fun hr h => told_of_map_not_ok hr h
  refine wp_map.2 (stops_withLock (hno (by simp) howes) fun w₁ hos₁ hfh₁ => ?_)
  refine stops_fhGet (f := fun file => withLock (.file req.fhIn) .write do
      let (fileOut, _) ← ofOption (.errno EEXIST) (← perform (.fhGet req.fhOut))
      withLock (.file req.fhOut) .write do
        attempt .ofIoError (.fileFlush fileOut)
        attempt .ofIoError (.fileFlush fileOut)
        attempt .errno (.copyFileRange file.1 req.offsetIn.toInt64 fileOut req.offsetOut.toInt64
          req.length)) (hno (by simp) (hos₁ ▸ howes)) fun fdIn pathIn hin => ?_
  refine stops_withLock (hno (by simp) (hos₁ ▸ howes)) fun w₂ hos₂ hfh₂ => ?_
  refine stops_fhGet (f := fun file => withLock (.file req.fhOut) .write do
        attempt .ofIoError (.fileFlush file.1)
        attempt .ofIoError (.fileFlush file.1)
        attempt .errno (.copyFileRange fdIn req.offsetIn.toInt64 file.1 req.offsetOut.toInt64
          req.length)) (hno (by simp) (by rwa [hos₂, hos₁])) fun fdOut pathOut hout => ?_
  refine stops_withLock (hno (by simp) (by rwa [hos₂, hos₁])) fun w₃ hos₃ hfh₃ => ?_
  have hos : w₃.os = w.os := hos₃.trans (hos₂.trans hos₁)
  have hin' : w.fh req.fhIn = some (fdIn, pathIn) := by rw [← hfh₁, hin]
  have hout' : w.fh req.fhOut = some (fdOut, pathOut) := by rw [← hfh₁, ← hfh₂, hout]
  have howes₃ : w₃.os.Owes files := by rwa [hos]
  refine stops_attempt_bind (fun _ => rfl)
    (fun o _ _ => hno (by simp) (flushed o howes₃).1) fun o _ _ => ?_
  have howes₄ : ((buffered rules).exec o (.fileFlush fdOut) w₃.os).2.Owes files :=
    (flushed o howes₃).1
  refine stops_attempt_bind (fun _ => rfl)
    (fun o' _ _ => hno (by simp) (flushed o' howes₄).1) fun o' _ _ => ?_
  refine stops_attempt (fun _ => rfl) fun o'' => ?_
  refine told_copy o'' hin' hout' (flushed o' howes₄).1 (fun fd => ?_) ?_
  · exact ((flushed o' howes₄).2.1 fd).trans (((flushed o howes₃).2.1 fd).trans (by rw [hos]))
  · intro i optionsIn j optionsOut hregIn hregOut
    obtain ⟨hspares, hsettled⟩ := hclear _ _ _ _ _ _ (fileOf_of_regular hin' hregIn)
      (fileOf_of_regular hout' hregOut)
    have hdrained : Drained Block.apply w.os.contents ((buffered rules).exec o' (.fileFlush fdOut)
        ((buffered rules).exec o (.fileFlush fdOut) w₃.os).2).2.contents :=
      hos ▸ (drained_flush o).trans (drained_flush o')
    have hidle : ((buffered rules).exec o' (.fileFlush fdOut) ((buffered rules).exec o
        (.fileFlush fdOut) w₃.os).2).2.contents.pending fdOut = none := (flushed o' howes₄).2.2
    exact ⟨Buffered.spares_of_idle (Buffered.spares_of_drained hdrained hspares) hidle,
      Buffered.settled_of_idle (Buffered.settled_of_drained hdrained hsettled) hidle⟩

/-! ## All requests

One lemma for each kind of request, put together. -/

theorem acknowledged_of_keeps {req : Request} (h : ¬req.Writes ∨ ∃ r, req = .setAttr r)
    (r : Option (Except Failure Reply)) : acknowledged rules w files req r = files := by
  have hno : ∀ {req' : Request}, req = req' → req'.Writes → ∃ r, req' = .setAttr r := by
    rintro _ rfl hwrites
    exact h.resolve_left fun hnot => hnot hwrites
  rw [acknowledged.eq_def]
  split
  · obtain ⟨_, ⟨⟩⟩ := hno rfl trivial
  · obtain ⟨_, ⟨⟩⟩ := hno rfl trivial
  · obtain ⟨_, ⟨⟩⟩ := hno rfl trivial
  · rfl

theorem told_read {req : ReadRequest} (hclear : s.Clear rules w (.read req))
    (howes : w.os.Owes files) :
    Stops rules (s.Told rules w files (.read req)) (s.handle (.read req)) w := by
  have hkeeps : ¬(Request.read req).Writes ∨ ∃ r, Request.read req = .setAttr r := Or.inl id
  have hshows : Stops rules (fun r os => s.Shows rules w files os (.read req) r)
      (s.handle (.read req)) w := by
    refine wp_map.2 (wp_mono (fun r os hr => ?_) (stops_readImpl hclear howes))
    rcases r with _ | e | data
    · trivial
    · trivial
    · exact hr data rfl
  refine wp_mono (fun r os hr => ⟨?_, hr.2⟩) (wp_and (keeps_handle hkeeps w howes) hshows)
  rw [acknowledged_of_keeps hkeeps]
  exact hr.1

theorem told_getAttr {req : GetAttrRequest} (hclear : s.Clear rules w (.getAttr req))
    (howes : w.os.Owes files) :
    Stops rules (s.Told rules w files (.getAttr req)) (s.handle (.getAttr req)) w := by
  have hkeeps : ¬(Request.getAttr req).Writes ∨ ∃ r, Request.getAttr req = .setAttr r := Or.inl id
  have hshows : Stops rules (fun r os => s.Shows rules w files os (.getAttr req) r)
      (s.handle (.getAttr req)) w := by
    cases hi : s.lookedAt rules.toRules w req with
    | none =>
      refine wp_of_forall fun r os => ?_
      rcases r with _ | e | reply
      · trivial
      · trivial
      · cases reply with
        | attr ttlMs attr => exact fun i h => by rw [hi] at h; contradiction
        | _ => trivial
    | some i =>
      refine wp_map.2 (wp_mono (fun r os hr => ?_) (stops_getAttrImpl hclear howes hi))
      rcases r with _ | e | attr
      · trivial
      · trivial
      · intro j hj
        rw [hi] at hj
        obtain ⟨⟩ := hj
        exact hr attr rfl
  refine wp_mono (fun r os hr => ⟨?_, hr.2⟩) (wp_and (keeps_handle hkeeps w howes) hshows)
  rw [acknowledged_of_keeps hkeeps]
  exact hr.1

/-- A request of which nothing is expected. -/
theorem told_of_keeps {req : Request} (hkeeps : ¬req.Writes ∨ ∃ r, req = .setAttr r)
    (hshows : ∀ os r, s.Shows rules w files os req r) (howes : w.os.Owes files) :
    Stops rules (s.Told rules w files req) (s.handle req) w := by
  refine wp_mono (fun r os hr => ⟨?_, hshows _ r⟩) (keeps_handle hkeeps w howes)
  rw [acknowledged_of_keeps hkeeps]
  exact hr

/-- **Every request is answered as expected**, and keeps what was promised before, where it is
clear. -/
theorem told_handle {req : Request} (hclear : s.Clear rules w req) (howes : w.os.Owes files) :
    Stops rules (s.Told rules w files req) (s.handle req) w := by
  cases req with
  | write req => exact told_write hclear howes
  | fallocate req => exact told_fallocate hclear howes
  | copyFileRange req => exact told_copyFileRange hclear howes
  | read req => exact told_read hclear howes
  | getAttr req => exact told_getAttr hclear howes
  | setAttr req => exact told_of_keeps (Or.inr ⟨_, rfl⟩) (fun _ _ => trivial) howes
  | _ => exact told_of_keeps (Or.inl id) (fun _ _ => trivial) howes

end

/-- **When acknowledged writes are visible.** In every run in which no other descriptor holds bytes
for the part of a file that a request is about, or bytes that make the file longer, every answer is
as expected. -/
theorem visible (s : Server) (rules : ContentRules) {fh : UInt64 → Option (Fd × Path)}
    {dh : UInt64 → Option (List Entry × Path)} {fhSrc : UInt64} {posix : Posix}
    {files : Ino → List UInt8} {cursor : Fd → Nat} {tr : List Session}
    (hrun : Run (s.serve rules) (s.Clears rules) (.fresh fh dh fhSrc posix files cursor) tr) :
    s.Visible rules tr := by
  have htold : ∀ t a, t.world.os.Owes t.files → s.Clear rules t.world a.1 →
      ∀ t', s.serve rules t a = some t' → t'.world.os.Owes t'.files ∧
        ∀ req r, t'.exchange = some (req, r) → s.Shows rules t.world t.files t'.world.os req r := by
    intro t a howes hclear t' hserve
    obtain ⟨⟩ := hserve
    have hdrive := Program.drive_of_wp a.2 (told_handle hclear howes)
    refine ⟨hdrive.1, fun req r hexchange => ?_⟩
    obtain ⟨⟩ := hexchange
    exact hdrive.2
  have howes : ∀ t ∈ tr, t.world.os.Owes t.files :=
    Run.forall_mem (I := fun t => t.world.os.Owes t.files) owes_of_idle
      (fun t tr a t' _ hclear howes hserve => (htold t a howes (hclear t rfl) t' hserve).1) hrun
  intro t' t tr₀ req r hsuffix hexchange
  have hrun₀ := hrun.of_suffix hsuffix (by simp)
  cases hrun₀ with
  | step hrun₁ hclear hserve =>
    have ht := howes t (hsuffix.subset (List.mem_cons_of_mem _ List.mem_cons_self))
    exact (htold t _ ht (hclear t rfl) t' hserve).2 req r hexchange

/-! ## Runs

Request after request, with what is promised in between. -/

/-- No rule stands in the way of a call.  The largest offset is that of the file systems that count
the blocks of a file in 32 bits. -/
def contentRules : ContentRules :=
  { lenientRules 0 with
    fallocated := fun _ _ _ file => file
    maxOffset := fun _ => 2 ^ 44 - 4096
    maxOffset_lt := fun _ => by decide }

/-- Two files, `f` and `g`; `f` is open twice. -/
def openFiles : Posix :=
  let options : OpenOptions :=
    { create := false, append := false, write := true, read := true, mode := 0o666 }
  { idlePosix [(⟨[102], fileName_f⟩, .regular), (⟨[103], by decide⟩, .regular)] (by decide) with
    fds := fun fd => match fd with
      | 0 | 1 => some (1, options)
      | 2 => some (2, options)
      | _ => none
    nextFd := 3 }

/-- The handles 1 and 2 for `f`, and 3 for `g`. -/
def openHandles (fh : UInt64) : Option (Fd × Path) :=
  if fh = 1 then some (0, [sep, 102])
  else if fh = 2 then some (1, [sep, 102])
  else if fh = 3 then some (2, [sep, 103])
  else none

/-- A server of empty files. -/
def emptyFiles : Session :=
  .fresh openHandles (fun _ => none) 4 openFiles (fun _ => []) (fun _ => 0)

/-- No buffer reaches its file before it has to. -/
def late (_ : Nat) : Turn :=
  ⟨⟨⟨⟨0, 0⟩, by decide⟩, refusing, ⟨0, 0, ⟨0, 0⟩, ⟨0, 0⟩, ⟨0, 0⟩⟩⟩, [], 100, none⟩

/-- The server that serves `/`. -/
def serveAll : Server := ⟨[sep], canonical_sep⟩

/-- The session after one byte was written to `f` through the handle 1. -/
def written : Session :=
  let r := (serveAll.handle (.write ⟨1, 0, [7], 0⟩)).run.drive
    (World.semantics (buffered contentRules)) () late emptyFiles.world
  ⟨r.2, acknowledged contentRules emptyFiles.world emptyFiles.files (.write ⟨1, 0, [7], 0⟩) r.1,
    some (.write ⟨1, 0, [7], 0⟩, r.1)⟩

def answer (req : Request) : Option (Except Failure Reply) :=
  ((serveAll.handle req).run.drive (World.semantics (buffered contentRules)) () late
    written.world).1

/-- A byte that was written is read through the same handle. -/
theorem visible_same_handle : ∃ tr : List Session,
    (∃ t ∈ tr, t.exchange = some (.read ⟨1, 0, 1⟩, some (.ok (.data [7])))) ∧
    Run (serveAll.serve contentRules) (serveAll.Clears contentRules) emptyFiles tr ∧
    serveAll.Visible contentRules tr := by
  have hwrite : Run (serveAll.serve contentRules) (serveAll.Clears contentRules) emptyFiles
      [written, emptyFiles] := by
    refine .step (a := (.write ⟨1, 0, [7], 0⟩, late)) .init ?_ rfl
    rintro t ⟨⟩ fd i options hfile
    obtain ⟨⟩ := hfile
    exact ⟨rfl, fun _ _ _ h => by contradiction⟩
  have hread := Run.step (a := (.read ⟨1, 0, 1⟩, late)) hwrite ?_ rfl
  · have hanswer : answer (.read ⟨1, 0, 1⟩) = some (.ok (.data [7])) := by decide +kernel
    exact ⟨_, ⟨_, List.mem_cons_self, congrArg (fun r => some (_, r)) hanswer⟩, hread,
      visible serveAll contentRules hread⟩
  · rintro t ⟨⟩ fd i options hfile fd' hfd' b hb
    obtain ⟨⟩ := hfile
    have hpending : written.world.os.contents.pending =
        Function.update (fun _ => none) (0 : Fd) (some ((1 : Ino), (⟨some 0, [7]⟩ : Block))) := rfl
    rw [hpending, Function.update_of_ne (by simpa using hfd')] at hb
    contradiction

/-- What is asked after the write: another handle reads the byte, `f` is looked at by handle and by
path, and its contents are copied. -/
def questions : List Request :=
  [.read ⟨2, 0, 1⟩, .getAttr ⟨none, some 1, 0⟩, .getAttr ⟨some "/f", none, 0⟩,
    .copyFileRange ⟨1, 0, 3, 0, 1, 0⟩]

def answeredSize : Option (Except Failure Reply) → Option UInt64
  | some (.ok (.attr _ attr)) => some attr.size
  | _ => none

/-- A byte that was written is missing for each of these questions. -/
theorem exists_not_visible : ∀ req ∈ questions, ∃ tr : List Session,
    Run (serveAll.serve contentRules) (fun _ _ => True) emptyFiles tr ∧
      ¬serveAll.Visible contentRules tr := by
  intro req hreq
  have hrun : ∀ req, ∃ t, Run (serveAll.serve contentRules) (fun _ _ => True) emptyFiles
      [t, written, emptyFiles] ∧ t.exchange = some (req, answer req) := fun req =>
    ⟨_, .step (a := (req, late)) (.step (a := (.write ⟨1, 0, [7], 0⟩, late)) .init trivial rfl)
      trivial rfl, rfl⟩
  obtain ⟨t, ht, hexchange⟩ := hrun req
  refine ⟨_, ht, fun hvisible => ?_⟩
  have hshows := hvisible t written [emptyFiles] req (answer req) List.suffix_rfl hexchange
  have hfiles : written.files 1 = [7] := by decide +kernel
  have hsize : ∀ r, answeredSize r = some 0 → ∃ ttlMs attr, r = some (.ok (.attr ttlMs attr)) ∧
      attr.size = 0 := by
    intro r hr
    rcases r with _ | _ | reply
    · contradiction
    · contradiction
    · cases reply with
      | attr ttlMs attr => exact ⟨ttlMs, attr, rfl, Option.some.inj hr⟩
      | _ => contradiction
  rcases List.mem_cons.1 hreq with rfl | hreq
  · have hanswer : answer (.read ⟨2, 0, 1⟩) = some (.ok (.data [])) := by decide +kernel
    rw [hanswer] at hshows
    have hdata := hshows 1 1 _ rfl
    rw [hfiles] at hdata
    contradiction
  rcases List.mem_cons.1 hreq with rfl | hreq
  · obtain ⟨ttlMs, attr, hanswer, hattr⟩ :=
      hsize (answer (.getAttr ⟨none, some 1, 0⟩)) (by decide +kernel)
    rw [hanswer] at hshows
    have hdata := hshows 1 rfl
    rw [hfiles, hattr] at hdata
    contradiction
  rcases List.mem_cons.1 hreq with rfl | hreq
  · obtain ⟨ttlMs, attr, hanswer, hattr⟩ :=
      hsize (answer (.getAttr ⟨some "/f", none, 0⟩)) (by decide +kernel)
    rw [hanswer] at hshows
    have hdata := hshows 1 rfl
    rw [hfiles, hattr] at hdata
    contradiction
  · obtain rfl := List.mem_singleton.1 hreq
    have hanswer : answer (.copyFileRange ⟨1, 0, 3, 0, 1, 0⟩) = some (.ok (.copied 0)) := by
      decide +kernel
    rw [hanswer] at hshows
    have hdata := (hshows 0 1 _ 2 2 _ rfl rfl).2.1 rfl
    rw [hfiles] at hdata
    contradiction

/-- **A byte that was written is missing**: another handle reads nothing where it stands. -/
theorem not_visible : ∃ tr : List Session,
    Run (serveAll.serve contentRules) (fun _ _ => True) emptyFiles tr ∧
      ¬serveAll.Visible contentRules tr :=
  exists_not_visible (.read ⟨2, 0, 1⟩) List.mem_cons_self

end Distfs
end DistributedPrograms
