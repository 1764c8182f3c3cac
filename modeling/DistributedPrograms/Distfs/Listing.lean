import DistributedPrograms.Lib.Paging
import DistributedPrograms.Distfs.Client
import DistributedPrograms.Distfs.World

/-!
# Reading a directory in pages

`opendir` stores a listing, each entry with the offset at which the next call is to go on, and
`readdir` answers what is left from an offset.  The offsets stored are the right ones but for the
entry `..`, which carries 1 like `.` in front of it, and for the errors in the listing, which carry
none.  So a client reads a listing exactly once unless one of its calls stops right behind one of
these; and it reads nothing at all where the listing holds a time before 1970, at which it panics.

* `Listed special i e` is what holds of the entry `e` at position `i`, and `listed_of_opendir` says
  that every entry that `opendir` stores is so, on whatever system.
* `Server.readPage` is one call of the client's `readdirplus`, with the conversions of the client,
  and `resumeAt` the offset at which the kernel goes on behind an entry.
* `Server.ReadsListing` is the statement: the reading ends, and what is delivered is the listing,
  each entry once and in order.
* `readsListing_iff` is the equivalence, for every listing and every way of splitting it: no time
  before 1970, and no call stops behind an error or behind the entry `..`.  It is an instance of the
  library on paging.

Where the path of the request is `/` there are no special entries, and only the errors are in the
way.
-/

set_option autoImplicit false

namespace DistributedPrograms
namespace Distfs

open UnixPath Fallible Server Fuse3

/-! ## The listing that is stored

Positions are computed in 64 bits, and a listing is shorter than that. -/

/-- The entry at position `i` of a listing: an errno, or an entry with its attribute and with the
offset behind it, `..` apart. -/
def Listed (special : Bool) (i : Nat) (e : Entry) : Prop :=
  (∃ err, e.inner = some (.errno err)) ∨
  ∃ d attr, e.inner = some (.entry d) ∧ d.attr = some attr ∧ attr.Whole ∧
    d.offset = Int64.ofNat (if special = true ∧ i = 1 then 1 else i + 1)

theorem one_add_ofNat (n : Nat) : 1 + Int64.ofNat n = Int64.ofNat (n + 1) := by
  rw [Int64.ofNat_add, Int64.add_comm]
  rfl

theorem ofNat_add_two (n : Nat) : Int64.ofNat n + 2 = Int64.ofNat (n + 2) := by
  rw [Int64.ofNat_add]
  rfl

theorem listed_of_listEntry {dir : Path} {offset : Nat} {entry : Except IoError OsDirEntry}
    {e : Entry} (h : Returns (listEntry dir offset entry) e) : Listed false offset e := by
  cases entry with
  | error err => exact Or.inl ⟨_, congrArg Entry.inner (returns_pure.1 h).symm⟩
  | ok entry =>
    rw [listEntry, returns_bind] at h
    obtain ⟨ftype, -, h⟩ := h
    cases ftype with
    | error err => exact Or.inl ⟨_, congrArg Entry.inner (returns_pure.1 h).symm⟩
    | ok ftype =>
      obtain ⟨kind, -, h⟩ := returns_bind.1 h
      obtain ⟨metadata, -, h⟩ := returns_bind.1 h
      cases metadata with
      | error err => exact Or.inl ⟨_, congrArg Entry.inner (returns_pure.1 h).symm⟩
      | ok metadata =>
        obtain ⟨attr, hattr, h⟩ := returns_bind.1 h
        refine Or.inr ⟨_, attr, congrArg Entry.inner (returns_pure.1 h).symm, rfl, ?_, ?_⟩
        · exact whole_of_metadataToGrpc (returns_ofOption.1 hattr)
        · simp [one_add_ofNat]

theorem listed_of_mapM {dir : Path} {readdir : List (Except IoError OsDirEntry)} {inner : List Entry}
    (h : Returns (readdir.zipIdx.mapM fun (entry, offset) => listEntry dir offset entry) inner)
    {i : Nat} {e : Entry} (he : inner[i]? = some e) : Listed false i e := by
  obtain ⟨hlen, hget⟩ := List.forall₂_iff_get.1 (returns_mapM h)
  obtain ⟨hi, rfl⟩ := List.getElem?_eq_some_iff.1 he
  have hentry := hget i (by omega) hi
  simp only [List.get_eq_getElem, List.getElem_zipIdx, Nat.zero_add] at hentry
  exact listed_of_listEntry hentry

theorem whole_of_getAttrFromPath {path : Path} {attr : Attr}
    (h : Returns (getAttrFromPath path) attr) : attr.Whole := by
  obtain ⟨metadata, -, h⟩ := returns_bind.1 h
  exact whole_of_metadataToGrpc (returns_ofOption.1 h)

theorem listed_shiftEntry {i : Nat} {e : Entry} (h : Listed false i e) :
    Listed true (i + 2) (shiftEntry e) := by
  obtain ⟨err, he⟩ | ⟨d, attr, he, hattr, hwhole, hoffset⟩ := h
  · refine Or.inl ⟨err, ?_⟩
    rw [shiftEntry, he]
    exact he
  · refine Or.inr ⟨{ d with offset := d.offset + 2 }, attr, by rw [shiftEntry, he], hattr, hwhole, ?_⟩
    show d.offset + 2 = _
    rw [hoffset, if_neg (by simp), if_neg (by simp), ofNat_add_two]

theorem listed_withSpecials {reqPath : String} {path : Path} {inner listing : List Entry}
    (hinner : ∀ i e, inner[i]? = some e → Listed false i e)
    (h : Returns (withSpecials reqPath path inner) listing) {i : Nat} {e : Entry}
    (he : listing[i]? = some e) : Listed (reqPath ≠ "/") i e := by
  rw [withSpecials] at h
  by_cases hroot : reqPath = "/"
  · rw [if_pos hroot, returns_pure] at h
    subst h
    simpa [hroot] using hinner i e he
  · rw [if_neg hroot, returns_bind] at h
    obtain ⟨here, hhere, h⟩ := h
    obtain ⟨up, -, h⟩ := returns_bind.1 h
    obtain ⟨above, habove, h⟩ := returns_bind.1 h
    rw [returns_pure] at h
    subst h
    rw [decide_eq_true hroot]
    match i, he with
    | 0, he =>
      cases he
      exact Or.inr ⟨_, here, rfl, rfl, whole_of_getAttrFromPath hhere, rfl⟩
    | 1, he =>
      cases he
      exact Or.inr ⟨_, above, rfl, rfl, whole_of_getAttrFromPath habove, rfl⟩
    | i + 2, he =>
      rw [List.getElem?_append_right (by simp), List.getElem?_map] at he
      obtain ⟨e', he', rfl⟩ := Option.map_eq_some_iff.1 he
      exact listed_shiftEntry (hinner _ _ (by simpa using he'))

variable {s : Server} {w w₀ : World Unit Unit} {fh : UInt64}

/-- **What `opendir` stores.**  The entries come in the order of the directory stream, behind the
two special ones where there are any. -/
theorem listed_of_opendir {req : OpendirRequest} {flags : UInt32}
    (h : Ends (World.semantics anySystem) () (s.opendirImpl req) w₀ (.ok (fh, flags)) w) :
    ∃ listing path, w.dh fh = some (listing, path) ∧
      ∀ i e, listing[i]? = some e → Listed (req.path ≠ "/") i e := by
  obtain ⟨fh', w₁, -, h⟩ := ends_bind_ok.1 h
  obtain ⟨readdir, w₂, -, h⟩ := ends_bind_ok.1 h
  obtain ⟨inner, w₃, hinner, h⟩ := ends_bind_ok.1 h
  obtain ⟨listing, w₄, hlisting, h⟩ := ends_bind_ok.1 h
  obtain ⟨⟨⟩, w₅, hinsert, h⟩ := ends_bind_ok.1 h
  obtain ⟨hok, rfl⟩ := ends_pure.1 h
  cases hok
  refine ⟨listing, s.realPath (osStr req.path), ?_, fun i e => ?_⟩
  · obtain ⟨-, w₆, hbody, rfl⟩ := World.ends_withLock.1 hinsert
    obtain ⟨o, a, hexec, -⟩ := ends_perform.1 hbody
    cases hexec
    exact Function.update_self ..
  · exact listed_withSpecials
      (fun i e => listed_of_mapM (returns_of_ends hinner)) (returns_of_ends hlisting)

/-! ## The pages

One call of the client is one page of the listing, with the offsets at which it can go on. -/

/-- **What `readdir` answers**, to a client that is alone: all that is left from its offset on, as
entries are skipped by their number. -/
theorem eval_readdirImpl {answer : Answers} {req : ReaddirRequest} {listing : List Entry}
    {path : Path} (hheld : w.held = []) (hstored : w.dh req.fh = some (listing, path)) :
    (s.readdirImpl req).eval (World.semantics anySystem) () answer w =
      some (.ok (listing.drop req.offset.toNat), w) := by
  obtain ⟨n₁, n₂, n₃, n₄, n₅, h₁, h₂, h₃, h₄, h₅, h₆⟩ : ∃ n₁ n₂ n₃ n₄ n₅,
      (s.readdirImpl req).run = .call (.acquire .dh .read) n₁ ∧
      n₁ () = .call (.dhGet req.fh) n₂ ∧
      n₂ (some (listing, path)) = .call (.acquire (.dir req.fh) .read) n₃ ∧
      n₃ () = .call (.release (.dir req.fh) .read) n₄ ∧
      n₄ () = .call (.release .dh .read) n₅ ∧
      n₅ () = .ret (.ok (listing.drop req.offset.toNat)) :=
    ⟨_, _, _, _, _, rfl, rfl, rfl, rfl, rfl, rfl⟩
  obtain ⟨held, fh, dh, fhSrc, os⟩ := w
  subst hheld
  have hget : dh req.fh = some (listing, path) := hstored
  simp [Fallible.eval, h₁, Program.eval, World.semantics, World.exec, World.free, h₂, hget, h₃, h₄,
    h₅, h₆]

/-- What one call of the client's `readdirplus` delivers; `none` where it fails or panics.  The
server runs alone, on the directory that the handle stands for. -/
def Server.readPage (s : Server) (answer : Answers) (w : World Unit Unit) (parent : Path)
    (fh lockOwner : UInt64) (offset : Nat) : Option (List (Except Int32 DirectoryEntryPlus)) :=
  match (s.handle (Client.readdirplus parent fh (.ofNat offset) lockOwner)).eval
      (World.semantics anySystem) () answer w with
  | some (reply, _) => (Client.readdirplusReply reply).toOption
  | none => none

/-- The offset at which the client goes on behind an entry.  An error carries none, so it goes on
behind the last entry before it. -/
def resumeAt : Except Int32 DirectoryEntryPlus → Option Nat
  | .ok d => some d.offset.toUInt64.toNat
  | .error _ => none

theorem mapM_eq_ok {E α β : Type} {f : α → Except E β} {l : List α} {bs : List β} :
    l.mapM f = .ok bs ↔ List.Forall₂ (fun a b => f a = .ok b) l bs := by
  induction l generalizing bs with
  | nil =>
    rw [List.mapM_nil, List.forall₂_nil_left_iff]
    exact ⟨fun h => (Except.ok.inj h).symm, fun h => h ▸ rfl⟩
  | cons a l ih =>
    rw [List.mapM_cons, List.forall₂_cons_left_iff]
    cases ha : f a with
    | error e => simp [bind, Except.bind]
    | ok b =>
      cases hl : l.mapM f with
      | error e =>
        simp only [Except.ok.injEq, ← ih, hl]
        simp [bind, Except.bind]
      | ok bs' =>
        simp only [Except.ok.injEq, ← ih, hl]
        simp [bind, Except.bind, pure, Except.pure, eq_comm]

theorem readPage_eq {answer : Answers} {listing : List Entry} {path parent : Path}
    {lockOwner : UInt64} (hheld : w.held = []) (hstored : w.dh fh = some (listing, path))
    (offset : Nat) :
    s.readPage answer w parent fh lockOwner offset =
      ((listing.drop (UInt64.ofNat offset).toNat).mapM Client.readdirplusEntry).toOption := by
  have hhandle : s.handle (Client.readdirplus parent fh (.ofNat offset) lockOwner) =
      Reply.entries <$> s.readdirImpl ⟨toStringLossy parent, fh, .ofNat offset, lockOwner⟩ := rfl
  rw [readPage, hhandle, eval_map, eval_readdirImpl hheld hstored]
  rfl

/-- The offset that an entry carries. -/
def Entry.carries (e : Entry) : Option Nat :=
  match e.inner with
  | some (.entry d) => some d.offset.toUInt64.toNat
  | _ => none

/-- The entry is no error. -/
def Entry.IsListed (e : Entry) : Prop := ∀ err, e.inner ≠ some (.errno err)

/-- The entry holds no time before 1970. -/
def Entry.Dated (e : Entry) : Prop :=
  ∀ d attr, e.inner = some (.entry d) → d.attr = some attr → attr.Datable

/-- A listed entry carries the position behind it, `..` apart. -/
theorem carries_of_listed {special : Bool} {i : Nat} {e : Entry} (h : Listed special i e)
    (hi : i + 1 < 2 ^ 64) :
    e.carries = some (i + 1) ↔ e.IsListed ∧ ¬(special = true ∧ i = 1) := by
  obtain ⟨err, he⟩ | ⟨d, attr, he, -, -, hoffset⟩ := h
  · simp [Entry.carries, Entry.IsListed, he]
  · have hcast : ∀ n, (Int64.ofNat n).toUInt64.toNat = n % 2 ^ 64 := fun n => UInt64.toNat_ofNat'
    rw [Entry.carries, he]
    simp only [Entry.IsListed, he, hoffset, hcast]
    by_cases hspecial : special = true ∧ i = 1
    · simp [hspecial]
    · rw [if_neg hspecial, Nat.mod_eq_of_lt hi]
      simp [hspecial]

theorem carries_le {special : Bool} {i r : Nat} {e : Entry} (h : Listed special i e)
    (hr : e.carries = some r) : r ≤ i + 1 := by
  obtain ⟨err, he⟩ | ⟨d, attr, he, -, -, hoffset⟩ := h
  · simp [Entry.carries, he] at hr
  · have hcast : ∀ n, (Int64.ofNat n).toUInt64.toNat = n % 2 ^ 64 := fun n => UInt64.toNat_ofNat'
    simp only [Entry.carries, he, hoffset, hcast, Option.some.injEq] at hr
    have hmod : ∀ n, n % 2 ^ 64 ≤ n := fun n => Nat.mod_le n _
    split at hr
    · have hle := hmod 1
      omega
    · have hle := hmod (i + 1)
      omega

/-- What the client makes of a listed entry. -/
theorem readdirplusEntry_of_listed {special : Bool} {i : Nat} {e : Entry} (h : Listed special i e) :
    (e.Dated ∧ ∃ b, Client.readdirplusEntry e = .ok b ∧ resumeAt b = e.carries) ∨
    (¬e.Dated ∧ Client.readdirplusEntry e = .error .panic) := by
  obtain ⟨err, he⟩ | ⟨d, attr, he, hattr, hwhole, hoffset⟩ := h
  · refine Or.inl ⟨by simp [Entry.Dated, he], .error err, ?_, by simp [Entry.carries, he, resumeAt]⟩
    rw [Client.readdirplusEntry, Client.directoryEntryPlus, he]
    rfl
  · have hdated : e.Dated ↔ attr.Datable := by
      constructor
      · intro h
        exact h d attr he hattr
      · intro h d' attr' he' hattr'
        obtain rfl : d = d' := by simpa using he.symm.trans he'
        obtain rfl : attr = attr' := by simpa using hattr.symm.trans hattr'
        exact h
    rw [hdated, Client.readdirplusEntry, Client.directoryEntryPlus, he]
    simp only [hattr]
    obtain ⟨hdatable, fuse, hfuse⟩ | ⟨hdatable, hfuse⟩ := grpcToFuse3_whole hwhole
    · rw [hfuse]
      exact Or.inl ⟨hdatable, _, rfl, by simp [Entry.carries, he, resumeAt]⟩
    · rw [hfuse]
      exact Or.inr ⟨hdatable, rfl⟩

/-- The reading ends, and what is delivered is the listing, each entry once and in order.  That it
can be converted at all is the first half. -/
def Server.ReadsListing (s : Server) (answer : Answers) (w : World Unit Unit) (parent : Path)
    (fh lockOwner : UInt64) (k : Nat → Nat) (listing : List Entry) : Prop :=
  ∃ shown, listing.mapM Client.readdirplusEntry = .ok shown ∧
    Paging.ReadsAll resumeAt (s.readPage answer w parent fh lockOwner) k shown

/-- Call `n` stops neither behind an error nor behind the entry `..`, which is at the second place
of every listing but that of `/`. -/
def StopsBehindEntry (reqPath : String) (k : Nat → Nat) (listing : List Entry) (n : Nat) : Prop :=
  (reqPath = "/" ∨ Paging.stop k listing (n + 1) ≠ 2) ∧
    ∀ e, listing[Paging.stop k listing (n + 1) - 1]? = some e → e.IsListed

theorem stop_congr {α β : Type} {k : Nat → Nat} {l : List α} {l' : List β}
    (h : l.length = l'.length) (n : Nat) : Paging.stop k l n = Paging.stop k l' n := by
  induction n with
  | zero => rfl
  | succ n ih => rw [Paging.stop, Paging.stop, ih, h]

theorem exists_forall₂ {α β : Type} {R : α → β → Prop} {l : List α} (h : ∀ a ∈ l, ∃ b, R a b) :
    ∃ bs, List.Forall₂ R l bs := by
  induction l with
  | nil => exact ⟨[], .nil⟩
  | cons a l ih =>
    obtain ⟨b, hb⟩ := h a List.mem_cons_self
    obtain ⟨bs, hbs⟩ := ih fun a' ha' => h a' (List.mem_cons_of_mem _ ha')
    exact ⟨b :: bs, .cons hb hbs⟩

section

variable {reqPath : String} {listing : List Entry} {shown : List (Except Int32 DirectoryEntryPlus)}
  (hlisted : ∀ i e, listing[i]? = some e → Listed (reqPath ≠ "/") i e)
  (hshown : List.Forall₂ (fun e b => Client.readdirplusEntry e = .ok b) listing shown)

include hlisted hshown

/-- What the client is shown has the offsets of the listing. -/
theorem resumeAt_shown {i : Nat} {b : Except Int32 DirectoryEntryPlus} (hb : shown[i]? = some b) :
    ∃ e, listing[i]? = some e ∧ e.Dated ∧ resumeAt b = e.carries := by
  obtain ⟨hlength, hget⟩ := List.forall₂_iff_get.1 hshown
  obtain ⟨hi, rfl⟩ := List.getElem?_eq_some_iff.1 hb
  have he := List.getElem?_eq_getElem (hlength.symm ▸ hi : i < listing.length)
  refine ⟨_, he, ?_⟩
  have hok := hget i (hlength.symm ▸ hi) hi
  obtain ⟨hdated, b', hok', hresume⟩ | ⟨-, hpanic⟩ := readdirplusEntry_of_listed (hlisted i _ he)
  · obtain rfl : shown[i] = b' := Except.ok.inj (hok.symm.trans hok')
    exact ⟨hdated, hresume⟩
  · cases hok.symm.trans hpanic

theorem resumeAt_le {i r : Nat} {b : Except Int32 DirectoryEntryPlus} (hb : shown[i]? = some b)
    (hr : resumeAt b = some r) : r ≤ i + 1 := by
  obtain ⟨e, he, -, hresume⟩ := resumeAt_shown hlisted hshown hb
  exact carries_le (hlisted i e he) (hresume.symm.trans hr)

theorem dated_of_shown {e : Entry} (he : e ∈ listing) : e.Dated := by
  obtain ⟨i, hi, rfl⟩ := List.getElem_of_mem he
  have hlength := hshown.length_eq
  obtain ⟨e', he', hdated, -⟩ := resumeAt_shown hlisted hshown
    (List.getElem?_eq_getElem (hlength ▸ hi : i < shown.length))
  obtain rfl : listing[i] = e' := Option.some.inj ((List.getElem?_eq_getElem hi).symm.trans he')
  exact hdated

theorem stopsWell_iff {k : Nat → Nat} {n : Nat} (hlen : listing.length < 2 ^ 63) :
    Paging.StopsWell resumeAt k shown n ↔ StopsBehindEntry reqPath k listing n := by
  have hlength := hshown.length_eq
  have hstop := stop_congr (k := k) hlength (n + 1)
  have hle : Paging.stop k listing (n + 1) ≤ listing.length := Paging.stop_le _
  rw [Paging.StopsWell, StopsBehindEntry, ← hstop]
  rcases Nat.lt_or_ge (Paging.stop k listing (n + 1) - 1) listing.length with hlt | hge
  · obtain ⟨e, he, -, hresume⟩ := resumeAt_shown hlisted hshown
      (List.getElem?_eq_getElem (hlength ▸ hlt))
    have hpos : Paging.stop k listing (n + 1) - 1 + 1 = Paging.stop k listing (n + 1) := by
      rw [Paging.stop] at hle hlt ⊢
      omega
    have hcarries := carries_of_listed (hlisted _ e he) (by omega)
    have htwo : Paging.stop k listing (n + 1) - 1 = 1 ↔ Paging.stop k listing (n + 1) = 2 := by
      omega
    rw [hpos, decide_eq_true_iff, htwo] at hcarries
    rw [he, List.getElem?_eq_getElem (hlength ▸ hlt)]
    simp only [Option.some.injEq, forall_eq', hresume, hcarries]
    tauto
  · -- the listing is empty
    rw [List.getElem?_eq_none hge, List.getElem?_eq_none (hlength ▸ hge)]
    refine iff_of_true (by simp) ⟨Or.inr (by omega), by simp⟩

end

/-- The same for a listing of the right shape. -/
theorem readsListing_iff_of_listed {reqPath : String} {listing : List Entry} {path : Path}
    (hlisted : ∀ i e, listing[i]? = some e → Listed (reqPath ≠ "/") i e)
    (hstored : w.dh fh = some (listing, path)) (hheld : w.held = [])
    (hlen : listing.length < 2 ^ 63) (answer : Answers) (parent : Path) (lockOwner : UInt64)
    (k : Nat → Nat) :
    s.ReadsListing answer w parent fh lockOwner k listing ↔
      (∀ e ∈ listing, e.Dated) ∧ ∀ n, StopsBehindEntry reqPath k listing n := by
  have hpage : ∀ shown, listing.mapM Client.readdirplusEntry = .ok shown →
      ∀ start ≤ shown.length,
        s.readPage answer w parent fh lockOwner start = some (shown.drop start) := by
    intro shown hshown start hstart
    have hforall := mapM_eq_ok.1 hshown
    have hlength := hforall.length_eq
    have hdrop := mapM_eq_ok.2 (List.forall₂_drop start hforall)
    rw [readPage_eq hheld hstored, UInt64.toNat_ofNat_of_lt' (by show start < 2 ^ 64; omega), hdrop]
    rfl
  have hreads : ∀ shown, listing.mapM Client.readdirplusEntry = .ok shown →
      (Paging.ReadsAll resumeAt (s.readPage answer w parent fh lockOwner) k shown ↔
        ∀ n, StopsBehindEntry reqPath k listing n) := by
    intro shown hshown
    have hforall := mapM_eq_ok.1 hshown
    rw [Paging.readsAll_iff (hpage shown hshown) fun i b r => resumeAt_le hlisted hforall]
    exact forall_congr' fun n => stopsWell_iff hlisted hforall hlen
  constructor
  · rintro ⟨shown, hshown, h⟩
    exact ⟨fun e => dated_of_shown hlisted (mapM_eq_ok.1 hshown), (hreads shown hshown).1 h⟩
  · rintro ⟨hdated, hstops⟩
    obtain ⟨shown, hforall⟩ : ∃ shown,
        List.Forall₂ (fun e b => Client.readdirplusEntry e = .ok b) listing shown := by
      refine exists_forall₂ fun e he => ?_
      obtain ⟨i, hi, rfl⟩ := List.getElem_of_mem he
      obtain ⟨-, b, hok, -⟩ | ⟨hnot, -⟩ :=
        readdirplusEntry_of_listed (hlisted i _ (List.getElem?_eq_getElem hi))
      · exact ⟨b, hok⟩
      · exact absurd (hdated _ he) hnot
    exact ⟨shown, mapM_eq_ok.2 hforall, (hreads shown (mapM_eq_ok.2 hforall)).2 hstops⟩

/-- **When a client reads a listing exactly once.**  Exactly if the listing holds no time before
1970 and no call stops right behind an error, nor, below the root, right behind the entry `..`. -/
theorem readsListing_iff {req : OpendirRequest} {flags : UInt32} {listing : List Entry}
    {path : Path} (hopen : Ends (World.semantics anySystem) () (s.opendirImpl req) w₀
      (.ok (fh, flags)) w) (hstored : w.dh fh = some (listing, path)) (hheld : w.held = [])
    (hlen : listing.length < 2 ^ 63) (answer : Answers) (parent : Path) (lockOwner : UInt64)
    (k : Nat → Nat) :
    s.ReadsListing answer w parent fh lockOwner k listing ↔
      (∀ e ∈ listing, e.Dated) ∧ ∀ n, StopsBehindEntry req.path k listing n := by
  obtain ⟨listing', path', hstored', hlisted⟩ := listed_of_opendir hopen
  obtain ⟨rfl, rfl⟩ : listing' = listing ∧ path' = path := by simpa [hstored] using hstored'.symm
  exact readsListing_iff_of_listed hlisted hstored hheld hlen answer parent lockOwner k

/-! ## A directory with one entry

The smallest listing in which the offset of `..` is in the way. -/

/-- A directory of 1970. -/
def directoryMetadata : Metadata := ⟨4096, 8, 0, 0, 0, 0o040755, 2, 0, 0, 0, 4096⟩

def directoryAttr : Attr where
  size := 4096
  blocks := 8
  atime := some ⟨0, 0⟩
  mtime := some ⟨0, 0⟩
  ctime := some ⟨0, 0⟩
  kind := .directory
  perm := 0o755
  nlink := 2
  uid := 0
  gid := 0
  rdev := 0
  flag := 0
  blksize := 4096

/-- A system on which every path is a directory with the one entry `a`. -/
def oneEntry : Answers
  | _, .readDir _ => .ok [.ok ⟨osStr "a", by decide⟩]
  | _, .metadata _ | _, .entryMetadata _ _ => .ok directoryMetadata
  | _, .entryFileType _ _ => .ok directoryMetadata.fileType
  | _, c => refusing _ c

def noHandles : World Unit Unit := ⟨[], fun _ => none, fun _ => none, 0, ()⟩

def listing : List Entry :=
  [specialEntry "." directoryAttr, specialEntry ".." directoryAttr,
    ⟨some (.entry ⟨.directory, "a", 3, some directoryAttr, 1000, 1000⟩)⟩]

theorem exists_listing : ∃ (w : World Unit Unit) (path : Path),
    Ends (World.semantics anySystem) () ((⟨[sep], by decide⟩ : Server).opendirImpl ⟨"/d", 0⟩)
      noHandles (.ok (0, 0)) w ∧ w.dh 0 = some (listing, path) ∧ w.held = [] :=
  ⟨_, _, ends_of_eval (o := oneEntry) rfl, rfl, rfl⟩

theorem dated_listing : ∀ e ∈ listing, e.Dated := by
  have hdatable : directoryAttr.Datable := by
    rintro ts (h | h | h) <;> (cases h; decide)
  intro e he d attr hinner hattr
  have hattr' : d.attr = some directoryAttr := by
    simp only [listing, List.mem_cons, List.not_mem_nil, or_false] at he
    obtain rfl | rfl | rfl := he <;> (cases hinner; rfl)
  obtain rfl : attr = directoryAttr := Option.some.inj (hattr.symm.trans hattr')
  exact hdatable

/-- A client that reads all three entries in its first call reads them once. -/
theorem readsListing_at_once : ∃ w : World Unit Unit, w.dh 0 ≠ none ∧
    (⟨[sep], by decide⟩ : Server).ReadsListing refusing w [] 0 0 (fun _ => 2) listing := by
  obtain ⟨w, path, hopen, hstored, hheld⟩ := exists_listing
  refine ⟨w, by simp [hstored], ?_⟩
  refine (readsListing_iff hopen hstored hheld (by decide) refusing [] 0 _).2 ⟨dated_listing, ?_⟩
  intro n
  have hstop : Paging.stop (fun _ => 2) listing (n + 1) = 3 := by
    have hlength : listing.length = 3 := rfl
    rw [Paging.stop, hlength]
    omega
  rw [StopsBehindEntry, hstop]
  refine ⟨Or.inr (by decide), fun e he err herr => ?_⟩
  cases he
  cases herr

/-- **A client that stops behind `..` reads it again.**  It takes two entries at a time, and goes on
at the offset of `.`, which is that of `..` as well. -/
theorem not_readsListing_in_pairs : ∃ w : World Unit Unit,
    Ends (World.semantics anySystem) () ((⟨[sep], by decide⟩ : Server).opendirImpl ⟨"/d", 0⟩)
      noHandles (.ok (0, 0)) w ∧ (∃ path, w.dh 0 = some (listing, path)) ∧
    ¬(⟨[sep], by decide⟩ : Server).ReadsListing refusing w [] 0 0 (fun _ => 1) listing := by
  obtain ⟨w, path, hopen, hstored, hheld⟩ := exists_listing
  refine ⟨w, hopen, ⟨path, hstored⟩, fun hreads => ?_⟩
  obtain ⟨listing', path', hstored', hlisted⟩ := listed_of_opendir hopen
  obtain ⟨rfl, rfl⟩ : listing' = listing ∧ path' = path := by simpa [hstored] using hstored'.symm
  have hstops := ((readsListing_iff_of_listed hlisted hstored hheld (by decide) refusing [] 0
    _).1 hreads).2 0
  exact absurd hstops.1 (by decide)

end Distfs
end DistributedPrograms
