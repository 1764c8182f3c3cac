import DistributedPrograms.Distfs.Changes
import DistributedPrograms.Distfs.Client

/-!
# `getattr` after `setattr`

What a client sets crosses four conversions until it is read back: it is sent, made into calls,
reported by the system, and converted again.  `readsBack_iff` says for which requests and files the
client gets back what it has set.  On the way the nanoseconds, the bits above the permissions and
every time before 1970 are lost, and a size is not set at all.  A time that the file system cannot
store is lost in the system itself, which stores the nearest one and reports success.

* `Settable` is what a client may set, and `Shows attr f f' shown` says that `shown` tells of the
  file `f'`, which was `f`, what was requested, and that what was not requested has not changed.
* `Server.ReadsBack` is the statement: `setattr` by path succeeds, and a `getattr` after it shows
  what was set.  It is about all runs of the two, one after the other.
* `Settable.Kept` is the condition, on the request, the file and the rules of the system.  It also
  speaks of the times that were *not* set: one of them before 1970 is enough for the reply to fail.
* `Change.effect` is what a change makes of a file of the server's user, and `After` what a list of
  changes does.

The file is an ordinary one, whose owner is the user of the server, on a system that lets him change
its mode and its times (`GrantsOwner`).  All other requests fail for a reason that has nothing to do
with the round trip.
-/

set_option autoImplicit false

namespace DistributedPrograms
namespace Distfs

open UnixPath Fallible Server FileTree Fuse3

universe u

/-! ## Requests

What is asked for, and what it would be to get it back. -/

/-- What a client may set: the mode bits, the size and the two times.  The bounds are those of the
messages of the kernel. -/
structure Settable where
  mode : Option UInt32
  size : Option UInt64
  atime : Option Fuse3.Timestamp
  mtime : Option Fuse3.Timestamp
  mode_le : ∀ m ∈ mode, m ≤ 0o7777
  atime_lt : ∀ ts ∈ atime, ts.nsec < 1000000000
  mtime_lt : ∀ ts ∈ mtime, ts.nsec < 1000000000

def Settable.setAttr (attr : Settable) : Fuse3.SetAttr where
  mode := attr.mode
  uid := none
  gid := none
  size := attr.size
  lockOwner := none
  atime := attr.atime
  mtime := attr.mtime
  ctime := none

/-- A time as it is set and as it is shown. -/
def Fuse3.Timestamp.toSystemTime (ts : Fuse3.Timestamp) : SystemTime :=
  ⟨ts.sec.toInt, ts.nsec.toNat⟩

/-- `shown` tells of the file, which was `f` and is now `f'`, what was requested; what was not
requested has not changed. -/
structure Shows (attr : Settable) (f f' : Inode) (shown : FileAttr) : Prop where
  told : grpcToFuse3 (attrOf f') = .ok shown
  mode : ∀ m ∈ attr.mode, shown.perm.toUInt32 = m
  size : ∀ n ∈ attr.size, shown.size = n
  atime : ∀ ts ∈ attr.atime, shown.atime = ts.toSystemTime
  mtime : ∀ ts ∈ attr.mtime, shown.mtime = ts.toSystemTime
  keeps_mode : attr.mode = none → f'.rights.perm = f.rights.perm
  keeps_size : attr.size = none → f'.stat.size = f.stat.size
  keeps_atime : attr.atime = none → f'.stat.atime = f.stat.atime
  keeps_mtime : attr.mtime = none → attr.size = none → f'.stat.mtime = f.stat.mtime

/-- `setattr` by path succeeds, and a `getattr` after it shows what was set.  Both are without a
panic in the client, and this is so for all runs. -/
def Server.ReadsBack (s : Server) (rules : Rules) {P : Type u} [DecidableEq P] (p : P) (path : Path)
    (attr : Settable) (i : Ino) (f : Inode) (w : World P Posix) : Prop :=
  ∀ r w₁, Ends (World.semantics (posix rules)) p
      (s.handle (Client.setattr (some path) none attr.setAttr)) w r w₁ →
    (∃ reply, Client.attrReply r = .ok reply) ∧
    ∀ flags r' w₂, Ends (World.semantics (posix rules)) p
        (s.handle (Client.getattr (some path) none flags)) w₁ r' w₂ →
      ∃ reply f', Client.attrReply r' = .ok reply ∧ w₁.os.tree.node i = some f' ∧
        Shows attr f f' reply.attr

/-- The system lets its user change the mode and the times of its own files, as POSIX says.  Of
anything else that it may refuse nothing is asked. -/
def GrantsOwner (rules : Rules) : Prop :=
  ∀ (i : Ino) (r : Rights), r.uid = rules.user →
    (∀ bits, rules.denies (.chmod bits) [(i, r)] = none) ∧ rules.denies .utimes [(i, r)] = none

/-- A time that is set survives: whole seconds, which the file system can store.  One out of its
range becomes the nearest one without an error. -/
def Whole (rules : Rules) (ts : Fuse3.Timestamp) : Prop := ts.nsec = 0 ∧ rules.Stores ts.sec

instance (rules : Rules) (ts : Fuse3.Timestamp) : Decidable (Whole rules ts) := by
  unfold Whole; infer_instance

/-- What is set survives: no size, no bits but those of the permissions, whole seconds that the file
system can store, and no time before 1970 among those that the file has then.  The time of the
change itself is not before 1970; where nothing is changed, that of the last change counts. -/
def Settable.Kept (attr : Settable) (rules : Rules) (f : Inode) : Prop :=
  attr.size = none ∧ (∀ m ∈ attr.mode, m ≤ 0o777) ∧ (∀ ts ∈ attr.atime, Whole rules ts) ∧
    (∀ ts ∈ attr.mtime, Whole rules ts) ∧
    0 ≤ attr.atime.elim f.stat.atime.seconds (·.sec) ∧
    0 ≤ attr.mtime.elim f.stat.mtime.seconds (·.sec) ∧
    (attr.mode = none → attr.atime = none → attr.mtime = none → 0 ≤ f.stat.ctime.seconds)

/-! ## The changes

What the changes of a request make of a file of the server's user, who is not refused any of them.
-/

namespace Change

/-- What a change makes of a file, at `now`, where it is made.  The time of the last change moves in
any case. -/
def effect (rules : Rules) (now : Time) (f : Inode) : Change → Inode
  | .mtime ts =>
    { f with stat :=
      { f.stat with mtime := rules.stored ⟨ts.seconds, ts.nanos.toUInt32⟩, ctime := now } }
  | .atime ts =>
    { f with stat :=
      { f.stat with atime := rules.stored ⟨ts.seconds, ts.nanos.toUInt32⟩, ctime := now } }
  | .mode bits =>
    { f with rights := { f.rights with perm := bits &&& 0o7777 }, stat := { f.stat with ctime := now } }
  | _ => f

/-- The owner of a file is always let make the change. -/
def ByOwner : Change → Prop
  | .mtime ts | .atime ts => ts.nanos.toUInt32 < 1000000000
  | .mode _ => True
  | _ => False

variable {rules : Rules} {path : Path} {c : Change} {cs : List Change} {t t' : FileTree}
  {i : Ino} {f : Inode}

theorem timeArg_of_lt {seconds : Int64} {nanos : UInt32} (h : nanos < 1000000000) :
    timeArg seconds nanos = .value ⟨seconds, nanos⟩ := by
  have hne : nanos ≠ 0x3FFFFFFF ∧ nanos ≠ 0x3FFFFFFE := by
    constructor <;> (rintro rfl; revert h; decide)
  rw [timeArg, if_neg hne.1, if_neg hne.2, if_pos h]

theorem effect_same (rules : Rules) (c : Change) (now : Time) (f : Inode) :
    (c.effect rules now f).content = f.content ∧
      (c.effect rules now f).rights.uid = f.rights.uid := by
  cases c <;> exact ⟨rfl, rfl⟩

section

variable (hgrants : GrantsOwner rules) (howner : f.rights.uid = rules.user)
  (hregular : f.content = .regular) (hreach : t.reach rules path = .ok (i, f))

include hgrants howner hregular hreach

/-- **The owner's change of an ordinary file is made, and the path still leads to the file.** -/
theorem make_byOwner (hc : c.ByOwner) (now : Time) :
    ∃ t', c.make rules path now t = .ok t' ∧
      t'.reach rules path = .ok (i, c.effect rules now f) := by
  obtain ⟨hlead, hnode⟩ := reach_eq_ok.1 hreach
  have hzero : 0 ∉ path := zero_notMem_of_pathError (pathError_of_lead hlead)
  obtain ⟨hmode, htimes⟩ := hgrants i f.rights howner
  obtain ⟨op, hdenies, hmake⟩ : ∃ op, rules.denies op [(i, f.rights)] = none ∧
      c.make rules path now t = t.change rules op path fun f => c.effect rules now f := by
    cases c with
    | mode bits => exact ⟨_, hmode bits, rfl⟩
    | mtime ts =>
      refine ⟨_, htimes, ?_⟩
      rw [make, utimens, if_neg hzero, timeArg_of_lt hc, if_neg (by simp), if_neg (by simp)]
      rfl
    | atime ts =>
      refine ⟨_, htimes, ?_⟩
      rw [make, utimens, if_neg hzero, timeArg_of_lt hc, if_neg (by simp), if_neg (by simp)]
      rfl
    | owner uid => exact hc.elim
    | group gid => exact hc.elim
    | size len => exact hc.elim
  have hpass : passage rules.search (c.effect rules now f) = passage rules.search f := by
    rw [passage, passage, (effect_same rules c now f).1, hregular]
  refine ⟨t.modify i fun f => c.effect rules now f, ?_, reach_modify hreach hpass⟩
  rw [hmake]
  refine change_eq_ok.2 ⟨i, f, hreach, allowed_eq_ok.2 ?_, rfl⟩
  simpa [hnode] using hdenies

end

/-- `f'` is what the changes, each at its own time, make of `f`.  A later change does not undo an
earlier one, since a request sets each attribute once. -/
def After (rules : Rules) : List Change → Inode → Inode → Prop
  | [], f, f' => f' = f
  | c :: cs, f, f' => ∃ now : Clock, After rules cs (c.effect rules now f) f'

section

variable (hgrants : GrantsOwner rules) (howner : f.rights.uid = rules.user)
  (hregular : f.content = .regular) (hreach : t.reach rules path = .ok (i, f))
  (hcs : ∀ c ∈ cs, c.ByOwner)

include hgrants howner hregular hreach hcs

/-- **What the owner's changes make of the file.** -/
theorem after_of_makes {all : Bool} (h : Makes rules path cs t t' all) :
    all = true ∧ ∃ f', t'.reach rules path = .ok (i, f') ∧ After rules cs f f' := by
  induction h generalizing f with
  | done => exact ⟨rfl, f, hreach, rfl⟩
  | @refused c cs t e now hmake =>
    obtain ⟨t', hmake', -⟩ := make_byOwner hgrants howner hregular hreach
      (hcs c List.mem_cons_self) now
    rw [hmake] at hmake'
    contradiction
  | @made c cs t t₁ t' all now hmake _ ih =>
    obtain ⟨t₁', hmake', hreach₁⟩ := make_byOwner hgrants howner hregular hreach
      (hcs c List.mem_cons_self) now
    obtain rfl : t₁ = t₁' := Except.ok.inj (hmake.symm.trans hmake')
    obtain ⟨hcontent, huid⟩ := effect_same rules c now.1 f
    obtain ⟨hall, f', hreach', hafter⟩ := ih (huid.trans howner) (hcontent.trans hregular) hreach₁
      fun c' hc' => hcs c' (List.mem_cons_of_mem _ hc')
    exact ⟨hall, f', hreach', now, hafter⟩

/-- They can be made, at any time. -/
theorem exists_makes (now : Clock) : ∃ t', Makes rules path cs t t' true := by
  induction cs generalizing t f with
  | nil => exact ⟨t, .done⟩
  | cons c cs ih =>
    obtain ⟨t₁, hmake, hreach₁⟩ := make_byOwner hgrants howner hregular hreach
      (hcs c List.mem_cons_self) now
    obtain ⟨hcontent, huid⟩ := effect_same rules c now.1 f
    obtain ⟨t', hmakes⟩ := ih (huid.trans howner) (hcontent.trans hregular) hreach₁
      fun c' hc' => hcs c' (List.mem_cons_of_mem _ hc')
    exact ⟨t', .made now hmake hmakes⟩

end

end Change

/-! ## What is told of a file

The way back: from the file through the attributes of the server to what the client shows. -/

/-- What a client is shown of a file, if it can be shown. -/
def shownOf (f : Inode) : FileAttr where
  size := f.stat.size
  blocks := f.stat.blocks
  atime := ⟨f.stat.atime.seconds.toInt, 0⟩
  mtime := ⟨f.stat.mtime.seconds.toInt, 0⟩
  ctime := ⟨f.stat.ctime.seconds.toInt, 0⟩
  kind := filetypeToFuse3 (filetypeOf f.content)
  perm := (f.rights.perm &&& 0o777).toUInt16
  nlink := f.nlink.toUInt32
  uid := f.rights.uid
  gid := f.rights.gid
  rdev := f.rdev.toUInt32
  blksize := f.blksize.toUInt32

/-- The file can be shown: none of its times is before 1970, where the conversion of the client
would panic. -/
def Datable (f : Inode) : Prop :=
  0 ≤ f.stat.atime.seconds ∧ 0 ≤ f.stat.mtime.seconds ∧ 0 ≤ f.stat.ctime.seconds

theorem grpcToFuse3_attrOf (f : Inode) {shown : FileAttr} :
    grpcToFuse3 (attrOf f) = .ok shown ↔ Datable f ∧ shown = shownOf f := by
  have ha : (attrOf f).atime = some ⟨f.stat.atime.seconds, 0⟩ := rfl
  have hm : (attrOf f).mtime = some ⟨f.stat.mtime.seconds, 0⟩ := rfl
  have hc : (attrOf f).ctime = some ⟨f.stat.ctime.seconds, 0⟩ := rfl
  rw [grpcToFuse3, ha, hm, hc, timeToFuse3_whole, timeToFuse3_whole, timeToFuse3_whole, Datable]
  constructor
  · intro h
    obtain ⟨atime, hatime, h⟩ := bind_eq_ok.1 h
    obtain ⟨mtime, hmtime, h⟩ := bind_eq_ok.1 h
    obtain ⟨ctime, hctime, h⟩ := bind_eq_ok.1 h
    split at hatime <;> [skip; contradiction]
    split at hmtime <;> [skip; contradiction]
    split at hctime <;> [skip; contradiction]
    next h₁ h₂ h₃ =>
      refine ⟨⟨h₁, h₂, h₃⟩, ?_⟩
      obtain ⟨⟩ := hatime
      obtain ⟨⟩ := hmtime
      obtain ⟨⟩ := hctime
      obtain ⟨⟩ := h
      rfl
  · rintro ⟨⟨h₁, h₂, h₃⟩, rfl⟩
    rw [if_pos h₁, if_pos h₂, if_pos h₃]
    rfl

theorem attrReply_attr (ttlMs : UInt64) (attr : Attr) {reply : ReplyAttr} :
    Client.attrReply (.ok (.attr ttlMs attr)) = .ok reply ↔
      grpcToFuse3 attr = .ok reply.attr ∧ reply.ttlMs = ttlMs := by
  have hreply : Client.attrReply (.ok (.attr ttlMs attr)) =
      (grpcToFuse3 attr).bind fun attr => .ok ⟨ttlMs, attr⟩ := rfl
  rw [hreply]
  cases grpcToFuse3 attr with
  | error e => simp [Except.bind]
  | ok shown =>
    constructor
    · rintro ⟨⟩
      exact ⟨rfl, rfl⟩
    · rintro ⟨⟨⟩, rfl⟩
      rfl

/-- What the changes of a request leave of the file. -/
theorem after_changes {rules : Rules} {attr : Settable} {f f' : Inode} (hsize : attr.size = none)
    (h : Change.After rules (fuse3ToGrpc attr.setAttr).changes f f') :
    f'.rights.perm = attr.mode.elim f.rights.perm (· &&& 0o7777) ∧ f'.stat.size = f.stat.size ∧
    f'.stat.atime = attr.atime.elim f.stat.atime (fun ts => rules.stored ⟨ts.sec, ts.nsec⟩) ∧
    f'.stat.mtime = attr.mtime.elim f.stat.mtime (fun ts => rules.stored ⟨ts.sec, ts.nsec⟩) ∧
    (if attr.mode = none ∧ attr.atime = none ∧ attr.mtime = none
      then f'.stat.ctime = f.stat.ctime else 0 ≤ f'.stat.ctime.seconds) := by
  obtain ⟨mode, size, atime, mtime, hmode, hatime, hmtime⟩ := attr
  obtain rfl : size = none := hsize
  cases mode <;> cases atime <;> cases mtime <;>
  · simp only [Settable.setAttr, fuse3ToGrpc, SettableAttr.changes, timestampToGrpc, Option.map_some,
      Option.map_none, Option.toList_some, Option.toList_none, List.map_cons, List.map_nil,
      List.nil_append, List.cons_append, Change.After, Change.effect] at h
    aesop

/-- Of the times of a file, those that were not set and those that can be stored are as they were
requested. -/
theorem seconds_elim {rules : Rules} {o : Option Fuse3.Timestamp}
    (h : ∀ ts ∈ o, rules.Stores ts.sec) (t : Time) :
    (o.elim t fun ts => rules.stored ⟨ts.sec, ts.nsec⟩).seconds = o.elim t.seconds (·.sec) := by
  cases o with
  | none => rfl
  | some ts => exact Rules.stored_seconds_iff.2 (h ts rfl)

/-- What is shown of a time that was set is what was requested exactly if it could be stored. -/
theorem stored_eq_iff {rules : Rules} {ts : Fuse3.Timestamp} :
    (⟨(rules.stored ⟨ts.sec, ts.nsec⟩).seconds.toInt, 0⟩ : SystemTime) = ts.toSystemTime ↔
      Whole rules ts := by
  have hseconds : (rules.stored ⟨ts.sec, ts.nsec⟩).seconds = ts.sec ↔ rules.Stores ts.sec :=
    Rules.stored_seconds_iff
  rw [Fuse3.Timestamp.toSystemTime, SystemTime.mk.injEq, Int64.toInt_inj, hseconds, Whole, and_comm,
    eq_comm (a := 0)]
  exact and_congr_left fun _ => UInt32.toNat_inj (b := 0)

/-- Of the mode bits, those of the permissions come back. -/
theorem perm_kept (m : UInt32) :
    (m &&& 0o7777 &&& 0o777).toUInt16.toUInt32 = m ↔ m ≤ 0o777 := by
  have hand : m &&& 0o7777 &&& 0o777 = m &&& 0o777 := by
    rw [UInt32.and_assoc]
    rfl
  have hmod : (m &&& 0o777).toNat = m.toNat % 2 ^ 9 := by
    rw [UInt32.toNat_and]
    exact Nat.and_two_pow_sub_one_eq_mod m.toNat 9
  have hcast : (m &&& 0o777).toUInt16.toUInt32.toNat = (m &&& 0o777).toNat % 2 ^ 16 := by
    rw [UInt16.toNat_toUInt32, UInt32.toNat_toUInt16]
  rw [hand, ← UInt32.toNat_inj, hcast, hmod, UInt32.le_iff_toNat_le]
  have hbound : (0o777 : UInt32).toNat = 511 := rfl
  omega

/-! ## The round trip

The request and the answer put together, and the cases in which something is lost. -/

section

variable {s : Server} {rules : Rules} {P : Type u} [DecidableEq P] {p : P} {path : Path}
  {attr : Settable} {i : Ino} {f : Inode} {w w' : World P Posix}

/-- What `getattr` by path answers. -/
theorem ends_getattr {flags : UInt32} {r : Except Failure Reply}
    (hreach : w.os.tree.reach rules (s.realPath (osStr (toStringLossy path))) = .ok (i, f)) :
    Ends (World.semantics (posix rules)) p (s.handle (Client.getattr (some path) none flags)) w r w' ↔
      r = .ok (.attr 1000 (attrOf f)) ∧ w' = w := by
  have hhandle : s.handle (Client.getattr (some path) none flags) =
      Reply.attr 1000 <$> getAttrFromPath (s.realPath (osStr (toStringLossy path))) := rfl
  rw [hhandle, ends_map]
  simp only [ends_getAttrFromPath, hreach]
  constructor
  · rintro ⟨r', ⟨rfl, rfl⟩, rfl⟩
    exact ⟨rfl, rfl⟩
  · rintro ⟨rfl, rfl⟩
    exact ⟨_, ⟨rfl, rfl⟩, rfl⟩

theorem byOwner_changes (hsize : attr.size = none) :
    ∀ c ∈ (fuse3ToGrpc attr.setAttr).changes, c.ByOwner := by
  intro c hc
  have htime : ∀ ts : Fuse3.Timestamp, (timestampToGrpc ts).nanos.toUInt32 = ts.nsec :=
    fun ts => UInt32.toUInt32_toInt32 _
  simp only [SettableAttr.changes, fuse3ToGrpc, Settable.setAttr, hsize, List.mem_append,
    List.mem_map, Option.mem_toList, Option.map_eq_some_iff] at hc
  obtain ((((⟨a, ha, -⟩ | ⟨a, ha, -⟩) | ⟨a, ha, -⟩) | ⟨a, ⟨ts, hts, rfl⟩, rfl⟩) |
    ⟨a, ⟨ts, hts, rfl⟩, rfl⟩) | ⟨bits, -, rfl⟩ := hc
  · contradiction
  · contradiction
  · contradiction
  · show (timestampToGrpc ts).nanos.toUInt32 < 1000000000
    rw [htime]
    exact attr.mtime_lt ts hts
  · show (timestampToGrpc ts).nanos.toUInt32 < 1000000000
    rw [htime]
    exact attr.atime_lt ts hts
  · trivial

section

variable (hgrants : GrantsOwner rules) (howner : f.rights.uid = rules.user)
  (hregular : f.content = .regular)
  (hreach : w.os.tree.reach rules (s.realPath (osStr (toStringLossy path))) = .ok (i, f))
  (hsize : attr.size = none)

include hgrants howner hregular hreach hsize

/-- **What `setattr` by path does to a file of its user, if it asks for no size.** -/
theorem ends_setattr {r : Except Failure Reply}
    (h : Ends (World.semantics (posix rules)) p
      (s.handle (Client.setattr (some path) none attr.setAttr)) w r w') :
    ∃ f', w'.os.tree.reach rules (s.realPath (osStr (toStringLossy path))) = .ok (i, f') ∧
      Change.After rules (fuse3ToGrpc attr.setAttr).changes f f' ∧
      r = .ok (.attr 1000 (attrOf f')) := by
  have hhandle : s.handle (Client.setattr (some path) none attr.setAttr) = Reply.attr 1000 <$> (do
      setAttrByPath (s.realPath (osStr (toStringLossy path))) (fuse3ToGrpc attr.setAttr)
      getAttrFromPath (s.realPath (osStr (toStringLossy path)))) := rfl
  rw [hhandle, ends_map] at h
  obtain ⟨r', h, rfl⟩ := h
  rw [setAttrByPath_eq] at h
  obtain ⟨⟨⟩, w₁, hchanges, hlook⟩ | ⟨e, hchanges, -⟩ := ends_bind.1 h
  · obtain ⟨hmakes, -, hw₁⟩ | ⟨-, e, he⟩ := makes_of_ends hchanges
    · obtain ⟨-, f', hreach', hafter⟩ := Change.after_of_makes hgrants howner hregular hreach
        (byOwner_changes hsize) hmakes
      obtain ⟨rfl, hr⟩ := ends_getAttrFromPath.1 hlook
      rw [hreach'] at hr
      exact ⟨f', hreach', hafter, by rw [hr]; rfl⟩
    · contradiction
  · obtain ⟨-, he, -⟩ | ⟨hmakes, -⟩ := makes_of_ends hchanges
    · contradiction
    · have hall := (Change.after_of_makes hgrants howner hregular hreach (byOwner_changes hsize)
        hmakes).1
      contradiction

/-- It can be carried out. -/
theorem exists_ends_setattr : ∃ r w', Ends (World.semantics (posix rules)) p
    (s.handle (Client.setattr (some path) none attr.setAttr)) w r w' := by
  obtain ⟨o⟩ : Nonempty Chance := inferInstance
  obtain ⟨t', hmakes⟩ := Change.exists_makes hgrants howner hregular hreach
    (byOwner_changes hsize) o.now
  obtain ⟨hok, -⟩ := ends_of_makes (p := p) hmakes (w := w) rfl
  have hchanges := hok rfl
  rw [← setAttrByPath_eq] at hchanges
  have himpl : Ends (World.semantics (posix rules)) p (do
      setAttrByPath (s.realPath (osStr (toStringLossy path))) (fuse3ToGrpc attr.setAttr)
      getAttrFromPath (s.realPath (osStr (toStringLossy path)))) w _ (w.withTree t') :=
    ends_bind.2 (Or.inl ⟨(), w.withTree t', hchanges, ends_getAttrFromPath.2 ⟨rfl, rfl⟩⟩)
  exact ⟨_, w.withTree t', ends_map.2 ⟨_, himpl, rfl⟩⟩

/-- **When a `setattr` without a size is read back.** -/
theorem readsBack_of_size_none : s.ReadsBack rules p path attr i f w ↔ attr.Kept rules f := by
  constructor
  · intro h
    obtain ⟨r, w₁, hset⟩ := exists_ends_setattr (s := s) (p := p) hgrants howner hregular hreach hsize
    obtain ⟨⟨reply, hreply⟩, hget⟩ := h r w₁ hset
    obtain ⟨f', hreach', hafter, rfl⟩ := ends_setattr hgrants howner hregular hreach hsize hset
    obtain ⟨reply', f'', hreply', hnode, hshows⟩ := hget 0 _ w₁ ((ends_getattr hreach').2 ⟨rfl, rfl⟩)
    obtain rfl : f' = f'' :=
      Option.some.inj ((reach_eq_ok.1 hreach').2.symm.trans hnode)
    obtain ⟨⟨hatime, hmtime, hctime⟩, hshown⟩ := (grpcToFuse3_attrOf f').1 hshows.told
    obtain ⟨hperm, -, ha, hm, hc⟩ := after_changes hsize hafter
    have hwhole : ∀ ts ∈ attr.atime, Whole rules ts := by
      intro ts hts
      have hkept := hshows.atime ts hts
      rw [hshown, shownOf, ha, hts] at hkept
      exact stored_eq_iff.1 hkept
    have hwhole' : ∀ ts ∈ attr.mtime, Whole rules ts := by
      intro ts hts
      have hkept := hshows.mtime ts hts
      rw [hshown, shownOf, hm, hts] at hkept
      exact stored_eq_iff.1 hkept
    refine ⟨hsize, fun m hmode => ?_, hwhole, hwhole', ?_, ?_, ?_⟩
    · have hkept := hshows.mode m hmode
      rw [hshown, shownOf, hperm, hmode] at hkept
      exact (perm_kept m).1 hkept
    · rwa [ha, seconds_elim fun ts hts => (hwhole ts hts).2] at hatime
    · rwa [hm, seconds_elim fun ts hts => (hwhole' ts hts).2] at hmtime
    · intro hmode hatime' hmtime'
      rw [if_pos ⟨hmode, hatime', hmtime'⟩] at hc
      exact hc ▸ hctime
  · rintro ⟨-, hmode, hatime, hmtime, hdatime, hdmtime, hdctime⟩ r w₁ hset
    obtain ⟨f', hreach', hafter, rfl⟩ := ends_setattr hgrants howner hregular hreach hsize hset
    obtain ⟨hperm, hsame, ha, hm, hc⟩ := after_changes hsize hafter
    have hdatable : Datable f' := by
      refine ⟨?_, ?_, ?_⟩
      · rwa [ha, seconds_elim fun ts hts => (hatime ts hts).2]
      · rwa [hm, seconds_elim fun ts hts => (hmtime ts hts).2]
      · split at hc
        · next hnone => exact hc ▸ hdctime hnone.1 hnone.2.1 hnone.2.2
        · exact hc
    have hreply : Client.attrReply (.ok (.attr 1000 (attrOf f'))) = .ok ⟨1000, shownOf f'⟩ :=
      (attrReply_attr _ _).2 ⟨(grpcToFuse3_attrOf f').2 ⟨hdatable, rfl⟩, rfl⟩
    refine ⟨⟨_, hreply⟩, fun flags r' w₂ hget => ?_⟩
    obtain ⟨rfl, -⟩ := (ends_getattr hreach').1 hget
    refine ⟨_, f', hreply, (reach_eq_ok.1 hreach').2, ?_⟩
    exact {
      told := (grpcToFuse3_attrOf f').2 ⟨hdatable, rfl⟩
      mode := fun m hm => by
        rw [shownOf, hperm, hm]
        exact (perm_kept m).2 (hmode m hm)
      size := fun n hn => absurd (hsize ▸ hn) (Option.not_mem_none n)
      atime := fun ts hts => by
        rw [shownOf, ha, hts]
        exact stored_eq_iff.2 (hatime ts hts)
      mtime := fun ts hts => by
        rw [shownOf, hm, hts]
        exact stored_eq_iff.2 (hmtime ts hts)
      keeps_mode := fun hnone => by rw [hperm, hnone, Option.elim_none]
      keeps_size := fun _ => hsame
      keeps_atime := fun hnone => by rw [ha, hnone, Option.elim_none]
      keeps_mtime := fun hnone _ => by rw [hm, hnone, Option.elim_none] }

end

/-- A size is never set. -/
theorem not_readsBack_of_size (hsize : attr.size ≠ none) : ¬s.ReadsBack rules p path attr i f w := by
  intro h
  obtain ⟨n, hn⟩ := Option.ne_none_iff_exists'.1 hsize
  obtain ⟨o⟩ : Nonempty Chance := inferInstance
  obtain ⟨rest, hchanges⟩ : ∃ rest, (fuse3ToGrpc attr.setAttr).changes = .size n :: rest := by
    simp [SettableAttr.changes, fuse3ToGrpc, Settable.setAttr, hn]
  have hmakes : Change.Makes rules (s.realPath (osStr (toStringLossy path)))
      (fuse3ToGrpc attr.setAttr).changes w.os.tree w.os.tree false :=
    hchanges ▸ .refused o.now rfl
  obtain ⟨e, w', hends, -⟩ := (ends_of_makes (p := p) hmakes (w := w) rfl).2 rfl
  rw [← setAttrByPath_eq] at hends
  have himpl : Ends (World.semantics (posix rules)) p (do
      setAttrByPath (s.realPath (osStr (toStringLossy path))) (fuse3ToGrpc attr.setAttr)
      getAttrFromPath (s.realPath (osStr (toStringLossy path)))) w _ w' :=
    ends_bind.2 (Or.inr ⟨_, hends, rfl⟩)
  obtain ⟨⟨reply, hreply⟩, -⟩ := h _ w' (ends_map.2 ⟨_, himpl, rfl⟩)
  contradiction

end

/-- **When a client reads back what it has set**, on an ordinary file of the server's user. -/
theorem readsBack_iff (s : Server) {rules : Rules} {P : Type u} [DecidableEq P] (p : P) {path : Path}
    (attr : Settable) {i : Ino} {f : Inode} {w : World P Posix} (hgrants : GrantsOwner rules)
    (howner : f.rights.uid = rules.user) (hregular : f.content = .regular)
    (hreach : w.os.tree.reach rules (s.realPath (osStr (toStringLossy path))) = .ok (i, f)) :
    s.ReadsBack rules p path attr i f w ↔ attr.Kept rules f := by
  by_cases hsize : attr.size = none
  · exact readsBack_of_size_none hgrants howner hregular hreach hsize
  · exact iff_of_false (not_readsBack_of_size hsize) fun hkept => hsize hkept.1

/-- A server with `f` in its root directory, and nothing open. -/
def oneFileWorld : World Unit Posix := .alone Unit (fun _ => none) (fun _ => none) 0 oneFile

theorem grantsOwner_lenientRules : GrantsOwner (lenientRules 0) := fun _ _ _ => ⟨fun _ => rfl, rfl⟩

/-- Permissions and a whole second come back. -/
theorem readsBack_whole :
    (⟨[sep], by decide⟩ : Server).ReadsBack (lenientRules 0) () [sep, 102]
      ⟨some 0o600, none, none, some ⟨1, 0⟩, by simp, by simp, by simp⟩ 1 (plainInode .regular)
      oneFileWorld :=
  (readsBack_iff _ _ _ grantsOwner_lenientRules rfl rfl rfl).2
    ⟨rfl, by simp, by simp, by decide, by decide, by decide, by decide⟩

/-- **What does not come back**: a size, a set-user-id bit, a nanosecond, a time before 1970. -/
theorem not_readsBack :
    (¬(⟨[sep], by decide⟩ : Server).ReadsBack (lenientRules 0) () [sep, 102]
      ⟨none, some 0, none, none, by simp, by simp, by simp⟩ 1 (plainInode .regular)
      oneFileWorld) ∧
    (¬(⟨[sep], by decide⟩ : Server).ReadsBack (lenientRules 0) () [sep, 102]
      ⟨some 0o4755, none, none, none, by simp, by simp, by simp⟩ 1 (plainInode .regular)
      oneFileWorld) ∧
    (¬(⟨[sep], by decide⟩ : Server).ReadsBack (lenientRules 0) () [sep, 102]
      ⟨none, none, none, some ⟨0, 1⟩, by simp, by simp, by simp⟩ 1 (plainInode .regular)
      oneFileWorld) ∧
    ¬(⟨[sep], by decide⟩ : Server).ReadsBack (lenientRules 0) () [sep, 102]
      ⟨none, none, none, some ⟨-1, 0⟩, by simp, by simp, by simp⟩ 1 (plainInode .regular)
      oneFileWorld := by
  have key : ∀ attr : Settable, attr.size = none →
      ((⟨[sep], by decide⟩ : Server).ReadsBack (lenientRules 0) () [sep, 102] attr 1
        (plainInode .regular) oneFileWorld ↔
        attr.Kept (lenientRules 0) (plainInode .regular)) := fun attr hsize =>
    readsBack_of_size_none grantsOwner_lenientRules rfl rfl rfl hsize
  refine ⟨not_readsBack_of_size (by simp), ?_, ?_, ?_⟩
  · rw [key _ rfl]
    exact fun hkept => absurd (hkept.2.1 _ rfl) (by decide)
  · rw [key _ rfl]
    exact fun hkept => absurd (hkept.2.2.2.1 _ rfl).1 (by decide)
  · rw [key _ rfl]
    exact fun hkept => absurd hkept.2.2.2.2.2.1 (by decide)

end Distfs
end DistributedPrograms
