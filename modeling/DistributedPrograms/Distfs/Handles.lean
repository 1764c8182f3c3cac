import DistributedPrograms.Lib.Protocol
import DistributedPrograms.Distfs.Uses
import DistributedPrograms.Distfs.World

/-!
# Handles are unique and stable

`open`, `create` and `opendir` take a number from one counter and later put what they have opened
into one of two tables, with calls, locks and failures in between; `release` and `releasedir` take
out whatever number they are given.

* `Progress` is what a request has got so far, and `handing` the order in which it may go on.  All
  handlers keep to it (`follows_handle`).
* `HandlesInv` is what follows for the tables and the log of all calls: the numbers of two requests
  differ, each entry of a table has been put there by the request that holds its number, and only a
  release of the right kind takes it away.
* `OpenedBy` says what is under a handle: the file that the request itself has opened, or the
  entries of the directory that it has listed, name by name, by the answers that it has got itself.
  Every handle is answered after such an entry has been put under it (`handle_opened`).

`handles_unique_and_stable` puts this together.  The system, and the order in which the handlers
run, may be any.  Only as many requests may have taken numbers as there are numbers: behind the
largest the counter begins again.

A handle of a file is looked up in the table of files only, and one of a directory in the other.
Both take their numbers from the same counter, so the number of a file is nothing in the table of
directories, and a release of the wrong kind takes nothing away (`World.Denotes`).
-/

set_option autoImplicit false

namespace DistributedPrograms
namespace Distfs

open UnixPath Fallible Server

/-- What a handle stands for: an open file, or the entries of a directory, in either case with the
path that is stored with it. -/
inductive Denoted where
  | file (fd : Fd) (path : Path)
  | dir (entries : List Entry) (path : Path)

/-- What a request has got so far: a number, and an entry under that number.  It gets one of each at
most. -/
structure Progress where
  fh : Option UInt64
  denoted : Option Denoted

def Progress.fresh : Progress := ⟨none, none⟩

def Progress.next {β : Type} (g : Progress) : Call β → β → Progress
  | .allocFh, fh => { g with fh := some fh }
  | .fhInsert _ fd path, _ => { g with denoted := some (.file fd path) }
  | .dhInsert _ entries path, _ => { g with denoted := some (.dir entries path) }
  | _, _ => g

/-- A request takes one number, puts one entry under it, and takes an entry out only if this is what
it is about. -/
def Progress.Allows (g : Progress) (req : Request) {β : Type} : Call β → Prop
  | .allocFh => g.fh = none
  | .fhInsert fh _ _ | .dhInsert fh _ _ => g.fh = some fh ∧ g.denoted = none
  | .fhRemove fh => ∃ r, req = .release r ∧ r.fh = fh
  | .dhRemove fh => ∃ r, req = .releasedir r ∧ r.fh = fh
  | _ => True

def handing (req : Request) : Protocol Call Progress :=
  ⟨fun g c => g.Allows req c, fun g c b => g.next c b⟩

/-- The handle in a reply. -/
def Reply.fh? : Reply → Option UInt64
  | .handle fh _ => some fh
  | .create ok => some ok.fh
  | _ => none

/-- The requests that are answered with a handle. -/
def Request.Opens : Request → Prop
  | .open _ | .create _ | .opendir _ => True
  | _ => False

/-- What the answer of a request stands for: `open` and `create` answer a file, `opendir` a
directory, each under the path of the request. -/
def Server.Yields (s : Server) : Request → Denoted → Prop
  | .open req, .file _ path => path = s.realPath (osStr req.path)
  | .create req, .file _ path => path = join (s.realPath (osStr req.parent)) (osStr req.name)
  | .opendir req, .dir _ path => path = s.realPath (osStr req.path)
  | _, _ => False

/-! ## The handlers keep to the order

A handler that opens nothing may make its calls at any time.  The three that do are gone through
call by call. -/

section Handlers

variable {s : Server} {req : Request} {g : Progress} {α : Type}

/-- Nothing is said of how a program ends. -/
def anyEnd (_ : Except Failure α) (_ : Progress) : Prop := True

theorem follows_withLock {l : Lock} {m : LockMode} {x : Handler α}
    {Q : Except Failure α → Progress → Prop} (hx : Follows (handing req) Q x g) :
    Follows (handing req) Q (withLock l m x) g :=
  follows_bracket (fun _ => ⟨trivial, rfl⟩) (fun _ => ⟨trivial, rfl⟩) hx

theorem follows_openImpl (r : OpenRequest) :
    Follows (handing (.open r)) anyEnd (s.handle (.open r)) .fresh := by
  refine follows_map.2 (follows_bind.2 (follows_attempt.2 ⟨trivial, fun file => ?_⟩))
  cases file with
  | error e => trivial
  | ok file =>
    refine follows_bind.2 (follows_perform.2 ⟨rfl, fun fh => ?_⟩)
    exact follows_bind.2 (follows_withLock (follows_perform.2 ⟨⟨rfl, rfl⟩, fun _ => trivial⟩))

theorem follows_createImpl (r : CreateRequest) :
    Follows (handing (.create r)) anyEnd (s.handle (.create r)) .fresh := by
  refine follows_map.2 (follows_bind.2 (follows_attempt.2 ⟨trivial, fun file => ?_⟩))
  cases file with
  | error e => trivial
  | ok file =>
    refine follows_bind.2 (follows_perform.2 ⟨rfl, fun fh => ?_⟩)
    refine follows_bind.2 (follows_attempt.2 ⟨trivial, fun metadata => ?_⟩)
    cases metadata with
    | error e => trivial
    | ok metadata =>
      refine follows_bind.2 (follows_withLock (follows_perform.2 ⟨⟨rfl, rfl⟩, fun _ => ?_⟩))
      refine follows_bind.2 (follows_ofOption.2 ?_)
      cases metadataToGrpc metadata <;> trivial

/-- What `opendir` calls between its number and its entry. -/
inductive Lists : {β : Type} → Call β → Prop
  | entry {path : Path} {β : Type} {c : Call β} (h : ReadsEntry path c) : Lists c
  | metadata (path : Path) : Lists (.metadata path)

theorem lists_allows {β : Type} {c : Call β} (h : Lists c) :
    (handing req).allows g c ∧ ∀ b, (handing req).next g c b = g := by
  cases h with
  | entry h => cases h <;> exact ⟨trivial, fun _ => rfl⟩
  | metadata path => exact ⟨trivial, fun _ => rfl⟩

theorem lists_withSpecials (reqPath : String) (path : Path) (inner : List Entry) :
    Uses Lists (withSpecials reqPath path inner) := by
  rw [withSpecials]
  split
  · exact uses_pure _
  · refine uses_bind.2 ⟨uses_getAttrFromPath.2 (.metadata _), fun here _ =>
      uses_bind.2 ⟨uses_ofOption _ _, fun up _ => ?_⟩⟩
    exact uses_bind.2 ⟨uses_getAttrFromPath.2 (.metadata _), fun above _ => uses_pure _⟩

/-- A part of `opendir` that lists something, and what follows it. -/
theorem follows_lists_bind {β : Type} {x : Handler α} {f : α → Handler β} (hx : Uses Lists x)
    (hf : ∀ a, Follows (handing req) anyEnd (f a) g) :
    Follows (handing req) anyEnd (x >>= f) g := by
  refine follows_bind.2 (follows_of_uses (fun c hc => lists_allows hc) hx fun r => ?_)
  cases r with
  | error e => trivial
  | ok a => exact hf a

theorem follows_opendirImpl (r : OpendirRequest) :
    Follows (handing (.opendir r)) anyEnd (s.handle (.opendir r)) .fresh := by
  refine follows_map.2 (follows_bind.2 (follows_perform.2 ⟨rfl, fun fh => ?_⟩))
  refine follows_bind.2 (follows_attempt.2 ⟨trivial, fun readdir => ?_⟩)
  cases readdir with
  | error e => trivial
  | ok readdir =>
    refine follows_lists_bind (uses_mapM fun entry _ => (uses_listEntry _ _ _).mono fun _ => .entry)
      fun inner => ?_
    refine follows_lists_bind (lists_withSpecials _ _ _) fun listing => ?_
    exact follows_bind.2 (follows_withLock (follows_perform.2 ⟨⟨rfl, rfl⟩, fun _ => trivial⟩))

theorem handing_of_inspects {β : Type} (c : Call β) (h : Inspects c) :
    ∀ g, (handing req).allows g c := by
  cases h <;> exact fun _ => trivial

theorem handing_of_handleCall {β : Type} (c : Call β) (h : HandleCall req c) :
    ∀ g, (handing req).allows g c := by
  cases h with
  | fhRemove r h => exact fun _ => ⟨r, h, rfl⟩
  | dhRemove r h => exact fun _ => ⟨r, h, rfl⟩
  | _ => exact fun _ => trivial

theorem handing_getAttrFromPath (path : Path) :
    Uses (fun c => ∀ g, (handing req).allows g c) (getAttrFromPath path) :=
  uses_getAttrFromPath.2 fun _ => trivial

/-- The other requests are always allowed to go on. -/
theorem handing_handle (h : ¬req.Opens) :
    Uses (fun c => ∀ g, (handing req).allows g c) (s.handle req) := by
  have hhandle : req.ByHandle → Uses (fun c => ∀ g, (handing req).allows g c) (s.handle req) :=
    fun hreq => (handleCall_handle hreq).mono handing_of_handleCall
  cases req with
  | «open» req => exact absurd trivial h
  | create req => exact absurd trivial h
  | opendir req => exact absurd trivial h
  | unlink req => exact uses_map.2 (uses_attempt.2 fun _ => trivial)
  | rmdir req => exact uses_map.2 (uses_attempt.2 fun _ => trivial)
  | rename req => exact uses_map.2 (uses_attempt.2 fun _ => trivial)
  | access req => exact uses_map.2 (uses_attempt.2 fun _ => trivial)
  | lookup req => exact uses_map.2 (handing_getAttrFromPath _)
  | mkdir req =>
    exact uses_map.2 (uses_bind.2 ⟨uses_attempt.2 fun _ => trivial, fun _ _ =>
      handing_getAttrFromPath _⟩)
  | symlink req =>
    exact uses_map.2 (uses_bind.2 ⟨uses_attempt.2 fun _ => trivial, fun _ _ =>
      handing_getAttrFromPath _⟩)
  | readlink req =>
    exact uses_map.2 (uses_bind.2 ⟨uses_attempt.2 fun _ => trivial, fun _ _ => uses_pure _⟩)
  | getAttr req => exact uses_map.2 ((inspects_getAttrImpl req).mono handing_of_inspects)
  | setAttr req =>
    refine uses_map.2 ((uses_setAttrImpl req).mono fun c hc => ?_)
    rcases hc with hc | ⟨path, hc⟩
    · exact handing_of_inspects c hc
    · cases hc <;> exact fun _ => trivial
  | _ => exact hhandle trivial

/-- **Every handler keeps to the order.** -/
theorem follows_handle (s : Server) (req : Request) :
    Follows (handing req) anyEnd (s.handle req) .fresh := by
  by_cases h : req.Opens
  · cases req with
    | «open» r => exact follows_openImpl r
    | create r => exact follows_createImpl r
    | opendir r => exact follows_opendirImpl r
    | _ => exact h.elim
  · exact follows_of_allows (handing_handle h) (fun _ _ _ => trivial) fun _ _ => trivial

end Handlers

/-! ## What is put under a handle

`Got` says which answers a request has been given to its calls. -/

section Answers

variable {Got : {β : Type} → Call β → β → Prop} {s : Server} {req : Request} {reply : Reply}
  {fh : UInt64}

/-- By its own answers the request `req` has opened the file, or listed the directory: `names` is
what the directory stream has shown, and the entries are made of them and of what was asked about
each. -/
def Denoted.OpenedBy (Got : {β : Type} → Call β → β → Prop) (req : Request) : Denoted → Prop
  | .file fd path => ∃ options, Got (.openFile options path) (.ok fd)
  | .dir entries path => ∃ r names inner, req = .opendir r ∧ Got (.readDir path) (.ok names) ∧
      ReturnsBy Got (names.zipIdx.mapM fun (entry, offset) => listEntry path offset entry) inner ∧
      ReturnsBy Got (withSpecials r.path path inner) entries

/-- The request has put `d` into its table. -/
def Denoted.PutBy (Got : {β : Type} → Call β → β → Prop) (fh : UInt64) : Denoted → Prop
  | .file fd path => Got (.fhInsert fh fd path) ()
  | .dir entries path => Got (.dhInsert fh entries path) ()

/-- Only a request that opens something is answered with a handle. -/
theorem fh?_eq_none (h : ¬req.Opens) (hr : ReturnsBy Got (s.handle req) reply) :
    reply.fh? = none := by
  cases req with
  | «open» req => exact absurd trivial h
  | create req => exact absurd trivial h
  | opendir req => exact absurd trivial h
  | _ =>
    obtain ⟨a, -, rfl⟩ := returnsBy_map.1 hr
    rfl

theorem returnsBy_of_withLock {α : Type} {l : Lock} {m : LockMode} {x : Handler α} {a : α}
    (h : ReturnsBy Got (withLock l m x) a) : ReturnsBy Got x a :=
  returnsBy_of_bracket h

/-- **A handle is answered for something.**  What stands under it has been opened by the request
itself, under the path of the request. -/
theorem handle_opened (hr : ReturnsBy Got (s.handle req) reply) (hreply : reply.fh? = some fh) :
    ∃ d, s.Yields req d ∧ d.OpenedBy Got req ∧ d.PutBy Got fh := by
  by_cases hopens : req.Opens
  · cases req with
    | «open» r =>
      obtain ⟨answer, hanswer, rfl⟩ := returnsBy_map.1 hr
      obtain ⟨fd, hfile, hr⟩ := returnsBy_bind.1 hanswer
      obtain ⟨fh', -, hr⟩ := returnsBy_bind.1 hr
      obtain ⟨⟨⟩, hput, hr⟩ := returnsBy_bind.1 hr
      obtain rfl := returnsBy_pure.1 hr
      obtain rfl := Option.some.inj hreply
      exact ⟨.file fd _, rfl, ⟨_, returnsBy_attempt.1 hfile⟩,
        returnsBy_perform.1 (returnsBy_of_withLock hput)⟩
    | create r =>
      obtain ⟨answer, hanswer, rfl⟩ := returnsBy_map.1 hr
      obtain ⟨fd, hfile, hr⟩ := returnsBy_bind.1 hanswer
      obtain ⟨fh', -, hr⟩ := returnsBy_bind.1 hr
      obtain ⟨metadata, -, hr⟩ := returnsBy_bind.1 hr
      obtain ⟨⟨⟩, hput, hr⟩ := returnsBy_bind.1 hr
      obtain ⟨attr, -, hr⟩ := returnsBy_bind.1 hr
      obtain rfl := returnsBy_pure.1 hr
      obtain rfl := Option.some.inj hreply
      exact ⟨.file fd _, rfl, ⟨_, returnsBy_attempt.1 hfile⟩,
        returnsBy_perform.1 (returnsBy_of_withLock hput)⟩
    | opendir r =>
      obtain ⟨answer, hanswer, rfl⟩ := returnsBy_map.1 hr
      obtain ⟨fh', -, hr⟩ := returnsBy_bind.1 hanswer
      obtain ⟨names, hread, hr⟩ := returnsBy_bind.1 hr
      obtain ⟨inner, hinner, hr⟩ := returnsBy_bind.1 hr
      obtain ⟨entries, hentries, hr⟩ := returnsBy_bind.1 hr
      obtain ⟨⟨⟩, hput, hr⟩ := returnsBy_bind.1 hr
      obtain rfl := returnsBy_pure.1 hr
      obtain rfl := Option.some.inj hreply
      exact ⟨.dir entries _, rfl,
        ⟨r, names, inner, rfl, returnsBy_attempt.1 hread, hinner, hentries⟩,
        returnsBy_perform.1 (returnsBy_of_withLock hput)⟩
    | _ => exact hopens.elim
  · rw [fh?_eq_none hopens hr] at hreply
    cases hreply

end Answers

/-! ## The tables

A call is one of five: it takes a number, puts an entry in, takes one out, changes a table in no
way, or is not about the tables at all. -/

section Tables

universe u v

variable {P : Type u} {σ : Type v}

def Call.allocates {β : Type} : Call β → Bool
  | .allocFh => true
  | _ => false

def Call.puts {β : Type} : Call β → Bool
  | .fhInsert _ _ _ | .dhInsert _ _ _ => true
  | _ => false

/-- How many numbers have been taken. -/
def allocations (log : List (Event Call P)) : Nat := log.countP fun x => x.call.allocates

/-- The call of `p` that puts `d` into its table. -/
def Denoted.put (p : P) (fh : UInt64) : Denoted → Event Call P
  | .file fd path => ⟨p, .fhInsert fh fd path, ()⟩
  | .dir entries path => ⟨p, .dhInsert fh entries path, ()⟩

/-- The answers that `p` has got.  What others have got does not count, although it may be about the
same file. -/
def Heard (log : List (Event Call P)) (p : P) {β : Type} (c : Call β) (b : β) : Prop :=
  ⟨p, c, b⟩ ∈ log

/-- The event takes `d` out of its table, for a request to release its handle. -/
def Denoted.ReleasedBy (reqs : P → Request) (fh : UInt64) (x : Event Call P) : Denoted → Prop
  | .file _ _ => ∃ q r answer, reqs q = .release r ∧ r.fh = fh ∧ x = ⟨q, .fhRemove fh, answer⟩
  | .dir _ _ => ∃ q r, reqs q = .releasedir r ∧ r.fh = fh ∧ x = ⟨q, .dhRemove fh, ()⟩

/-- The handle has been released since `p` put `d` under it.  Any client may have done so, as the
number is all that is asked for. -/
def Released (reqs : P → Request) (log : List (Event Call P)) (p : P) (fh : UInt64) (d : Denoted) :
    Prop :=
  ∃ later earlier x, log = later ++ d.put p fh :: earlier ∧ x ∈ later ∧ d.ReleasedBy reqs fh x

/-- The table for `d` has it under `fh`. -/
def World.Has (w : World P σ) (fh : UInt64) : Denoted → Prop
  | .file fd path => w.fh fh = some (fd, path)
  | .dir entries path => w.dh fh = some (entries, path)

/-- The handle stands for `d` in its own table, and for nothing in the other one.  A request of the
wrong kind is answered an error. -/
def World.Denotes (w : World P σ) (fh : UInt64) : Denoted → Prop
  | .file fd path => w.fh fh = some (fd, path) ∧ w.dh fh = none
  | .dir entries path => w.dh fh = some (entries, path) ∧ w.fh fh = none

/-- The request has put `d` under its number. -/
def Progress.Owns (g : Progress) (fh : UInt64) (d : Denoted) : Prop :=
  g.fh = some fh ∧ g.denoted = some d

/-- What holds of the requests, the tables and the log.  Numbers are taken in order, so they differ
as long as the counter has not begun again. -/
structure HandlesInv (reqs : P → Request) (g : P → Progress) (w : World P σ)
    (log : List (Event Call P)) : Prop where
  counter : w.fhSrc.toNat = allocations log
  below : ∀ p fh, (g p).fh = some fh → fh.toNat < allocations log
  unique : ∀ p q fh, (g p).fh = some fh → (g q).fh = some fh → p = q
  number : ∀ p, (g p).fh = none → (g p).denoted = none
  owned : ∀ fh d, w.Has fh d → ∃ p, (g p).Owns fh d
  once : ∀ p fh d, d.put p fh ∈ log → (g p).Owns fh d
  has : ∀ p fh d, (g p).Owns fh d → d.put p fh ∈ log ∧ (w.Has fh d ∨ Released reqs log p fh d)

variable {reqs : P → Request} {g : P → Progress} {w w' : World P σ} {log : List (Event Call P)}
  {x : Event Call P} {p : P} {fh : UInt64} {d : Denoted}

theorem Denoted.puts_put : (d.put p fh).call.puts = true := by
  cases d <;> rfl

theorem Denoted.put_inj {q : P} {fh' : UInt64} {d' : Denoted} (h : d'.put q fh' = d.put p fh) :
    q = p ∧ fh' = fh ∧ d' = d := by
  cases d <;> cases d' <;> cases h <;> exact ⟨rfl, rfl, rfl⟩

/-- A call that is no such call does not add one to the log. -/
theorem Denoted.put_mem_of_cons (hx : x.call.puts = false) (h : d.put p fh ∈ x :: log) :
    d.put p fh ∈ log := by
  refine (List.mem_cons.1 h).resolve_left fun heq => ?_
  rw [← heq, Denoted.puts_put] at hx
  cases hx

theorem Released.cons (h : Released reqs log p fh d) : Released reqs (x :: log) p fh d := by
  obtain ⟨later, earlier, y, rfl, hy, hrel⟩ := h
  exact ⟨x :: later, earlier, y, rfl, List.mem_cons_of_mem _ hy, hrel⟩

theorem Released.of_mem (hput : d.put p fh ∈ log) (hx : d.ReleasedBy reqs fh x) :
    Released reqs (x :: log) p fh d := by
  obtain ⟨later, earlier, rfl⟩ := List.append_of_mem hput
  exact ⟨x :: later, earlier, x, rfl, List.mem_cons_self, hx⟩

/-- The entries of files after one of them has been changed. -/
theorem has_fh {e : Option (Fd × Path)} {fh' : UInt64} {fd : Fd} {path : Path} :
    ({ w with fh := Function.update w.fh fh e } : World P σ).Has fh' (.file fd path) ↔
      fh' = fh ∧ e = some (fd, path) ∨ fh' ≠ fh ∧ w.Has fh' (.file fd path) := by
  show Function.update w.fh fh e fh' = _ ↔ _ ∨ _ ∧ w.fh fh' = _
  by_cases heq : fh' = fh
  · simp [heq]
  · simp [heq]

/-- The entries of directories after one of them has been changed. -/
theorem has_dh {e : Option (List Entry × Path)} {fh' : UInt64} {entries : List Entry}
    {path : Path} :
    ({ w with dh := Function.update w.dh fh e } : World P σ).Has fh' (.dir entries path) ↔
      fh' = fh ∧ e = some (entries, path) ∨ fh' ≠ fh ∧ w.Has fh' (.dir entries path) := by
  show Function.update w.dh fh e fh' = _ ↔ _ ∨ _ ∧ w.dh fh' = _
  by_cases heq : fh' = fh
  · simp [heq]
  · simp [heq]

variable [DecidableEq P]

/-- A call that takes no number and puts in no entry. -/
theorem HandlesInv.keep (h : HandlesInv reqs g w log) {g' : Progress}
    (hx : x.call.allocates = false) (hputs : x.call.puts = false) (hfh : g'.fh = (g p).fh)
    (hdenoted : g'.denoted = (g p).denoted) (hsrc : w'.fhSrc = w.fhSrc)
    (hback : ∀ fh d, w'.Has fh d → w.Has fh d)
    (hforth : ∀ fh d, w.Has fh d → w'.Has fh d ∨ d.ReleasedBy reqs fh x) :
    HandlesInv reqs (Function.update g p g') w' (x :: log) := by
  have hnumber : ∀ q, (Function.update g p g' q).fh = (g q).fh := by
    intro q
    by_cases hq : q = p
    · rw [hq, Function.update_self, hfh]
    · rw [Function.update_of_ne hq]
  have hden : ∀ q, (Function.update g p g' q).denoted = (g q).denoted := by
    intro q
    by_cases hq : q = p
    · rw [hq, Function.update_self, hdenoted]
    · rw [Function.update_of_ne hq]
  have hcount : allocations (x :: log) = allocations log :=
    List.countP_cons_of_neg (by rw [hx]; exact Bool.false_ne_true)
  refine ⟨by rw [hsrc, hcount, h.counter], fun q fh hq => ?_, fun q q' fh hq hq' => ?_,
    fun q hq => ?_, fun fh d hhas => ?_, fun q fh d hput => ?_, fun q fh d hq => ?_⟩
  · rw [hcount]
    exact h.below q fh (hnumber q ▸ hq)
  · exact h.unique q q' fh (hnumber q ▸ hq) (hnumber q' ▸ hq')
  · rw [hden]
    exact h.number q (hnumber q ▸ hq)
  · obtain ⟨q, hq⟩ := h.owned fh d (hback fh d hhas)
    exact ⟨q, (hnumber q).trans hq.1, (hden q).trans hq.2⟩
  · have hq := h.once q fh d (Denoted.put_mem_of_cons hputs hput)
    exact ⟨(hnumber q).trans hq.1, (hden q).trans hq.2⟩
  · obtain ⟨hput, hhas⟩ := h.has q fh d ⟨hnumber q ▸ hq.1, hden q ▸ hq.2⟩
    refine ⟨List.mem_cons_of_mem _ hput, ?_⟩
    rcases hhas with hhas | hreleased
    · exact (hforth fh d hhas).imp_right (Released.of_mem hput)
    · exact Or.inr hreleased.cons

/-- An entry under the number of `p`, which had none. -/
theorem HandlesInv.insert (h : HandlesInv reqs g w log) (hfh : (g p).fh = some fh)
    (hnone : (g p).denoted = none) (hsrc : w'.fhSrc = w.fhSrc) (hhas : w'.Has fh d)
    (hback : ∀ fh' d', w'.Has fh' d' → (fh' = fh ∧ d' = d) ∨ w.Has fh' d')
    (hforth : ∀ fh' d', fh' ≠ fh → w.Has fh' d' → w'.Has fh' d') :
    HandlesInv reqs (Function.update g p { g p with denoted := some d }) w'
      (d.put p fh :: log) := by
  have hnumber : ∀ q, (Function.update g p { g p with denoted := some d } q).fh = (g q).fh := by
    intro q
    by_cases hq : q = p
    · rw [hq, Function.update_self]
    · rw [Function.update_of_ne hq]
  have hcount : allocations (d.put p fh :: log) = allocations log := by
    cases d <;> exact List.countP_cons_of_neg Bool.false_ne_true
  have hnew : (Function.update g p { g p with denoted := some d } p).Owns fh d := by
    rw [Function.update_self]
    exact ⟨hfh, rfl⟩
  have hkept : ∀ {q fh' d'}, (g q).Owns fh' d' →
      (Function.update g p { g p with denoted := some d } q).Owns fh' d' := by
    intro q fh' d' hq
    have hqp : q ≠ p := by
      rintro rfl
      cases hnone.symm.trans hq.2
    rwa [Function.update_of_ne hqp]
  refine ⟨by rw [hsrc, hcount, h.counter], fun q fh hq => ?_, fun q q' fh hq hq' => ?_,
    fun q hq => ?_, fun fh' d' htable => ?_, fun q fh' d' hput => ?_, fun q fh' d' hq => ?_⟩
  · rw [hcount]
    exact h.below q fh (hnumber q ▸ hq)
  · exact h.unique q q' fh (hnumber q ▸ hq) (hnumber q' ▸ hq')
  · rw [hnumber] at hq
    have hqp : q ≠ p := by
      rintro rfl
      rw [hq] at hfh
      cases hfh
    rw [Function.update_of_ne hqp]
    exact h.number q hq
  · rcases hback fh' d' htable with ⟨rfl, rfl⟩ | hold
    · exact ⟨p, hnew⟩
    · obtain ⟨q, hq⟩ := h.owned fh' d' hold
      exact ⟨q, hkept hq⟩
  · rcases List.mem_cons.1 hput with hhead | htail
    · obtain ⟨rfl, rfl, rfl⟩ := Denoted.put_inj hhead
      exact hnew
    · exact hkept (h.once q fh' d' htail)
  · by_cases hqp : q = p
    · subst hqp
      rw [Function.update_self] at hq
      obtain ⟨hq, hd⟩ := hq
      obtain rfl := Option.some.inj hd
      obtain rfl := Option.some.inj (hfh.symm.trans hq)
      exact ⟨List.mem_cons_self, Or.inl hhas⟩
    · rw [Function.update_of_ne hqp] at hq
      obtain ⟨hput, hhas⟩ := h.has q fh' d' hq
      refine ⟨List.mem_cons_of_mem _ hput, ?_⟩
      -- two requests have two numbers
      have hne : fh' ≠ fh := by
        rintro rfl
        exact hqp (h.unique q p fh' hq.1 hfh)
      exact hhas.imp (hforth fh' d' hne) Released.cons

/-- A number for `p`, which had none. -/
theorem HandlesInv.alloc (h : HandlesInv reqs g w log) (hnone : (g p).fh = none)
    (hx : x.call.allocates = true) (hputs : x.call.puts = false)
    (hcount : allocations (x :: log) < 2 ^ 64) :
    HandlesInv reqs (Function.update g p { g p with fh := some w.fhSrc })
      { w with fhSrc := w.fhSrc + 1 } (x :: log) := by
  have hsucc : allocations (x :: log) = allocations log + 1 := List.countP_cons_of_pos hx
  have hother : ∀ q fh, q ≠ p → (g q).fh = some fh → fh ≠ w.fhSrc := by
    intro q fh _ hq heq
    have hlt := h.below q fh hq
    rw [heq, h.counter] at hlt
    exact absurd hlt (Nat.lt_irrefl _)
  have hkept : ∀ {q fh d}, (g q).Owns fh d →
      (Function.update g p { g p with fh := some w.fhSrc } q).Owns fh d := by
    intro q fh d hq
    have hqp : q ≠ p := by
      rintro rfl
      cases hnone.symm.trans hq.1
    rwa [Function.update_of_ne hqp]
  refine ⟨?_, fun q fh hq => ?_, fun q q' fh hq hq' => ?_, fun q hq => ?_,
    fun fh d hhas => ?_, fun q fh d hput => ?_, fun q fh d hq => ?_⟩
  · have hmod : (w.fhSrc + 1).toNat = (w.fhSrc.toNat + 1) % 2 ^ 64 := UInt64.toNat_add ..
    rw [hmod, h.counter, Nat.mod_eq_of_lt (hsucc ▸ hcount), hsucc]
  · rw [hsucc]
    by_cases hqp : q = p
    · rw [hqp, Function.update_self] at hq
      rw [← Option.some.inj hq, h.counter]
      exact Nat.lt_succ_self _
    · rw [Function.update_of_ne hqp] at hq
      exact Nat.lt_succ_of_lt (h.below q fh hq)
  · by_cases hqp : q = p <;> by_cases hqp' : q' = p
    · rw [hqp, hqp']
    · rw [hqp, Function.update_self] at hq
      rw [Function.update_of_ne hqp'] at hq'
      exact absurd (Option.some.inj hq).symm (hother q' fh hqp' hq')
    · rw [hqp', Function.update_self] at hq'
      rw [Function.update_of_ne hqp] at hq
      exact absurd (Option.some.inj hq').symm (hother q fh hqp hq)
    · rw [Function.update_of_ne hqp] at hq
      rw [Function.update_of_ne hqp'] at hq'
      exact h.unique q q' fh hq hq'
  · by_cases hqp : q = p
    · rw [hqp, Function.update_self] at hq
      cases hq
    · rw [Function.update_of_ne hqp] at hq ⊢
      exact h.number q hq
  · obtain ⟨q, hq⟩ := h.owned fh d (by cases d <;> exact hhas)
    exact ⟨q, hkept hq⟩
  · exact hkept (h.once q fh d (Denoted.put_mem_of_cons hputs hput))
  · have hqp : q ≠ p := by
      rintro rfl
      rw [Progress.Owns, Function.update_self] at hq
      cases (h.number q hnone).symm.trans hq.2
    rw [Function.update_of_ne hqp] at hq
    obtain ⟨hput, hhas⟩ := h.has q fh d hq
    refine ⟨List.mem_cons_of_mem _ hput, hhas.imp ?_ Released.cons⟩
    cases d <;> exact id

/-- A call that leaves the tables and the counter alone. -/
theorem HandlesInv.plain (h : HandlesInv reqs g w log) (hx : x.call.allocates = false)
    (hputs : x.call.puts = false) (hfh : w'.fh = w.fh) (hdh : w'.dh = w.dh)
    (hsrc : w'.fhSrc = w.fhSrc) :
    HandlesInv reqs (Function.update g p (g p)) w' (x :: log) := by
  have hhas : ∀ fh d, w'.Has fh d ↔ w.Has fh d := by
    intro fh d
    cases d with
    | file fd path => rw [World.Has, hfh, World.Has]
    | dir entries path => rw [World.Has, hdh, World.Has]
  exact h.keep hx hputs rfl rfl hsrc (fun fh d => (hhas fh d).1)
    fun fh d hd => Or.inl ((hhas fh d).2 hd)

/-- **One call.** -/
theorem HandlesInv.step {ω : Type*} {os : OperatingSystem ω σ} {o : ω} {β : Type} {c : Call β}
    {b : β} (h : HandlesInv reqs g w log) (hallows : (handing (reqs p)).allows (g p) c)
    (hexec : (World.semantics os).exec p o c w = some (b, w'))
    (hcount : allocations (⟨p, c, b⟩ :: log) < 2 ^ 64) :
    HandlesInv reqs (Function.update g p ((handing (reqs p)).next (g p) c b)) w'
      (⟨p, c, b⟩ :: log) := by
  cases c with
  | acquire l m =>
    obtain ⟨-, heq⟩ := Option.ite_none_right_eq_some.1 hexec
    obtain ⟨⟩ := heq
    exact h.plain rfl rfl rfl rfl rfl
  | allocFh =>
    obtain ⟨⟩ := hexec
    exact h.alloc hallows rfl rfl hcount
  | fhInsert fh fd path =>
    obtain ⟨⟩ := hexec
    obtain ⟨hfh, hnone⟩ := hallows
    refine h.insert (d := .file fd path) hfh hnone rfl
      (has_fh.2 (Or.inl ⟨rfl, rfl⟩)) (fun fh' d' hd => ?_) fun fh' d' hne hd => ?_
    · cases d' with
      | file fd' path' =>
        refine (has_fh.1 hd).imp (fun hnew => ⟨hnew.1, ?_⟩) And.right
        obtain ⟨-, ⟨⟩⟩ := hnew
        rfl
      | dir entries path' => exact Or.inr hd
    · cases d' with
      | file fd' path' => exact has_fh.2 (Or.inr ⟨hne, hd⟩)
      | dir entries path' => exact hd
  | dhInsert fh entries path =>
    obtain ⟨⟩ := hexec
    obtain ⟨hfh, hnone⟩ := hallows
    refine h.insert (d := .dir entries path) hfh hnone rfl
      (has_dh.2 (Or.inl ⟨rfl, rfl⟩)) (fun fh' d' hd => ?_) fun fh' d' hne hd => ?_
    · cases d' with
      | file fd' path' => exact Or.inr hd
      | dir entries' path' =>
        refine (has_dh.1 hd).imp (fun hnew => ⟨hnew.1, ?_⟩) And.right
        obtain ⟨-, ⟨⟩⟩ := hnew
        rfl
    · cases d' with
      | file fd' path' => exact hd
      | dir entries' path' => exact has_dh.2 (Or.inr ⟨hne, hd⟩)
  | fhRemove fh =>
    obtain ⟨⟩ := hexec
    obtain ⟨r, hreq, rfl⟩ := hallows
    refine h.keep rfl rfl rfl rfl rfl (fun fh' d' hd => ?_) fun fh' d' hd => ?_
    · cases d' with
      | file fd path => exact ((has_fh.1 hd).resolve_left fun hno => by cases hno.2).2
      | dir entries path => exact hd
    · cases d' with
      | file fd path =>
        by_cases heq : fh' = r.fh
        · exact Or.inr ⟨p, r, w.fh r.fh, hreq, heq.symm, heq ▸ rfl⟩
        · exact Or.inl (has_fh.2 (Or.inr ⟨heq, hd⟩))
      | dir entries path => exact Or.inl hd
  | dhRemove fh =>
    obtain ⟨⟩ := hexec
    obtain ⟨r, hreq, rfl⟩ := hallows
    refine h.keep rfl rfl rfl rfl rfl (fun fh' d' hd => ?_) fun fh' d' hd => ?_
    · cases d' with
      | file fd path => exact hd
      | dir entries path => exact ((has_dh.1 hd).resolve_left fun hno => by cases hno.2).2
    · cases d' with
      | file fd path => exact Or.inl hd
      | dir entries path =>
        by_cases heq : fh' = r.fh
        · exact Or.inr ⟨p, r, hreq, heq.symm, heq ▸ rfl⟩
        · exact Or.inl (has_dh.2 (Or.inr ⟨heq, hd⟩))
  | _ =>
    obtain ⟨⟩ := hexec
    exact h.plain rfl rfl rfl rfl rfl

/-! ## Runs

The invariant along a run, and what it says about each handle that has been answered. -/

variable {ω : Type*} {os : OperatingSystem ω σ} {s : Server} {os₀ : σ} {t : Handlers P σ}

omit [DecidableEq P] in
theorem handlesInv_init :
    HandlesInv reqs (fun _ => .fresh) (.alone P (fun _ => none) (fun _ => none) 0 os₀) [] where
  counter := rfl
  below _ _ h := by cases h
  unique _ _ _ h _ := by cases h
  number _ _ := rfl
  owned _ d h := by cases d <;> cases h
  once _ _ d h := by cases d <;> cases h
  has _ _ _ h := by cases h.1

/-- What holds of a new server whatever its handlers have done, as long as there are numbers. -/
theorem handlesInv_of_trace
    (h : Trace (World.semantics os)
      (s.start reqs (.alone P (fun _ => none) (fun _ => none) 0 os₀)) t log)
    (hcount : allocations log < 2 ^ 64) :
    ∃ g, HandlesInv reqs g t.shared log := by
  have hstart : ∀ p, (s.handle (reqs p)).run.Follows (handing (reqs p)) anyEnd .fresh :=
    fun p => follows_handle s (reqs p)
  obtain ⟨g, -, hinv⟩ := h.invariant
    (I := fun g w log => allocations log < 2 ^ 64 → HandlesInv reqs g w log) hstart
    (fun _ => handlesInv_init) fun g w log p o β c b w' hI hallows hexec hlog => by
      have hle : allocations log ≤ allocations (⟨p, c, b⟩ :: log) :=
        (List.sublist_cons_self _ log).countP_le
      exact (hI (hle.trans_lt hlog)).step hallows hexec hlog
  exact ⟨g, hinv hcount⟩

/-- What a handler has answered with a handle stands under it. -/
theorem opened_of_answer
    (h : Trace (World.semantics os)
      (s.start reqs (.alone P (fun _ => none) (fun _ => none) 0 os₀)) t log)
    {reply : Reply} (hp : t.left p = .ret (.ok reply)) (hreply : reply.fh? = some fh) :
    ∃ d, s.Yields (reqs p) d ∧ d.OpenedBy (Heard log p) (reqs p) ∧ d.put p fh ∈ log := by
  obtain ⟨d, hyields, hopened, hput⟩ := handle_opened (h.returnsBy hp) hreply
  exact ⟨d, hyields, hopened, by cases d <;> exact hput⟩

omit [DecidableEq P] in
/-- An entry in its own table is the only one under its number. -/
theorem HandlesInv.denotes (h : HandlesInv reqs g w log) (hp : (g p).Owns fh d)
    (hhas : w.Has fh d) : w.Denotes fh d := by
  have hsame : ∀ d', w.Has fh d' → d' = d := by
    intro d' hd'
    obtain ⟨q, hq⟩ := h.owned fh d' hd'
    obtain rfl := h.unique q p fh hq.1 hp.1
    exact Option.some.inj (hq.2.symm.trans hp.2)
  cases d with
  | file fd path =>
    refine ⟨hhas, Option.eq_none_iff_forall_ne_some.2 fun x hx => ?_⟩
    cases hsame (.dir x.1 x.2) hx
  | dir entries path =>
    refine ⟨hhas, Option.eq_none_iff_forall_ne_some.2 fun x hx => ?_⟩
    cases hsame (.file x.1 x.2) hx

/-- **Handles are unique and stable.**  A handle that has been answered is the answer of one request
only, and nobody else has ever put anything under it; it stands for the file that this request has
opened, or for the entries it has listed, until a request of its own kind releases it. -/
theorem handles_unique_and_stable
    (h : Trace (World.semantics os)
      (s.start reqs (.alone P (fun _ => none) (fun _ => none) 0 os₀)) t log)
    (hcount : allocations log < 2 ^ 64) {reply : Reply} (hp : t.left p = .ret (.ok reply))
    (hreply : reply.fh? = some fh) :
    (∀ q reply', q ≠ p → t.left q = .ret (.ok reply') → reply'.fh? ≠ some fh) ∧
      ∃ d, s.Yields (reqs p) d ∧ d.OpenedBy (Heard log p) (reqs p) ∧ d.put p fh ∈ log ∧
        (∀ q d', d'.put q fh ∈ log → q = p ∧ d' = d) ∧
        (t.shared.Denotes fh d ∨ Released reqs log p fh d) := by
  obtain ⟨g, hinv⟩ := handlesInv_of_trace h hcount
  obtain ⟨d, hyields, hopened, hput⟩ := opened_of_answer h hp hreply
  have howns : (g p).Owns fh d := hinv.once p fh d hput
  -- whoever has put something under the number holds it
  have hsame : ∀ q d', d'.put q fh ∈ log → q = p ∧ d' = d := by
    intro q d' hput'
    have hq := hinv.once q fh d' hput'
    obtain rfl := hinv.unique q p fh hq.1 howns.1
    exact ⟨rfl, Option.some.inj (hq.2.symm.trans howns.2)⟩
  refine ⟨fun q reply' hqp hq hreply' => ?_, d, hyields, hopened, hput, hsame,
    (hinv.has p fh d howns).2.imp_left (hinv.denotes howns)⟩
  obtain ⟨d', -, -, hput'⟩ := opened_of_answer h hq hreply'
  exact hqp (hsame q d' hput').1

end Tables

/-! ## A run -/

/-- A system that opens every file and shows every directory empty. -/
def granting : Answers
  | _, .openFile _ _ => .ok 3
  | _, .readDir _ => .ok []
  | _, c => refusing _ c

/-- One client opens `/f`, another one the directory `/`. -/
def openBoth : Bool → Request
  | true => .open { path := "/f", flags := 0 }
  | false => .opendir { path := "/", flags := 0 }

/-- The handle that a handler has answered. -/
def answeredFh : Program Call (Except Failure Reply) → Option UInt64
  | .ret (.ok reply) => reply.fh?
  | _ => none

theorem eq_ret_of_answeredFh {x : Program Call (Except Failure Reply)} {fh : UInt64}
    (h : answeredFh x = some fh) : ∃ reply, x = .ret (.ok reply) ∧ reply.fh? = some fh := by
  match x, h with
  | .ret (.ok reply), h => exact ⟨reply, rfl, h⟩

/-- The two take their numbers one after the other before either puts in its entry, and get two
handles. -/
theorem handles_unique_and_stable_openBoth : ∃ (t : Handlers Bool Unit)
    (log : List (Event Call Bool)) (fh fh' : UInt64),
    Trace (World.semantics anySystem) (Server.start ⟨[sep], by decide⟩ openBoth
      (.alone Bool (fun _ => none) (fun _ => none) 0 ())) t log ∧
    answeredFh (t.left true) = some fh ∧ answeredFh (t.left false) = some fh' ∧ fh' ≠ fh ∧
    ∃ d : Denoted, d.put true fh ∈ log ∧
      (t.shared.Denotes fh d ∨ Released openBoth log true fh d) := by
  let order : List Bool := [false, true, true, false, false, false, false, true, true, true]
  have hcheck : Run.check (Threads.step (World.semantics anySystem)) (fun _ _ => true)
      (Server.start ⟨[sep], by decide⟩ openBoth
        (.alone Bool (fun _ => none) (fun _ => none) 0 ()))
      (order.map fun p => (p, granting)) (fun tr => match tr with
        | [] => false
        | t :: tr => (answeredFh (t.left true)).isSome && (answeredFh (t.left false)).isSome &&
          tr.length == 10) = true := by
    decide +kernel
  obtain ⟨tr, hrun, hcheck⟩ :=
    Run.exists_of_check (C := fun _ _ => True) (fun _ _ _ => trivial) hcheck
  cases tr with
  | nil => cases hcheck
  | cons t tr =>
    simp only [Bool.and_eq_true, beq_iff_eq, Option.isSome_iff_exists] at hcheck
    obtain ⟨⟨⟨fh, hopen⟩, fh', hopendir⟩, hlength⟩ := hcheck
    obtain ⟨log, hlog, htrace⟩ := Trace.exists_of_run hrun
    have hcount : allocations log < 2 ^ 64 := by
      have hle : allocations log ≤ log.length := List.countP_le_length
      omega
    obtain ⟨reply, hleft, hreply⟩ := eq_ret_of_answeredFh hopen
    obtain ⟨reply', hleft', hreply'⟩ := eq_ret_of_answeredFh hopendir
    obtain ⟨hunique, d, -, -, hput, -, hstable⟩ :=
      handles_unique_and_stable htrace hcount hleft hreply
    have hne : fh' ≠ fh := by
      rintro rfl
      exact hunique false reply' (by decide) hleft' hreply'
    exact ⟨t, log, fh, fh', htrace, hopen, hopendir, hne, d, hput, hstable⟩

end Distfs
end DistributedPrograms
