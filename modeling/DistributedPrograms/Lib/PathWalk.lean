import Mathlib.Data.List.Basic
import DistributedPrograms.Lib.UnixPath

/-!
# Path resolution

How a Unix system walks along a path.  What it meets is a `Look`: for each inode a directory with
its names, a symbolic link with its target, or something else.  Nothing else about the files plays a
part in where a path leads, so everything about walks is said for a `Look`, and a file system of
whatever kind gives one.

* `segments` are the steps of a path: a name, one of the two dots, or at the end a separator, which
  asks for a directory.
* `walkFrom` follows them up to the first link; `walk` goes on there with the target in front of
  what is left, as many times as its budget allows.  The recursion of a walk is therefore on the
  budget outside and on the steps inside.
* `lead` is where a path leads, links at its end included; `slot` stops in front of the last name,
  as the calls that make and remove names do; `linkAt` is the link that a path ends in.
* `pathError` is what is wrong with a path before any file is looked at: it is empty, too long, or
  has a zero byte.

What is shown of walks:

* `walk_append`: a longer walk goes on from where the shorter one has arrived, with what is left of
  its budget.  With it, `lead_join` says that a name behind a canonical path is one more step.
* `walk_noLink`: a walk never ends at a link.
* `walk_mono`: a walk keeps arriving where names are only added (`Look.Extends`).  A walk that ends
  in a missing name need not, because the name may come.
* `lead_of_free` and `lead_of_dir` connect the last name of a path with where the path leads, and
  `linkAt_withLink` says that a link is found where it was made.

The numbers of the errors are those of Linux.
-/

set_option autoImplicit false

namespace DistributedPrograms
namespace UnixPath

abbrev Ino := Nat

def rootIno : Ino := 0

/-- A string that can name a file: a path ends at its first zero byte. -/
def FileName (n : Path) : Prop := ValidName n ∧ (0 : UInt8) ∉ n

instance (n : Path) : Decidable (FileName n) := by unfold FileName; infer_instance

abbrev Name := { n : Path // FileName n }

/-! ## Errors

The errors of a walk, in the order in which it would report them. -/

namespace Errno

def ENOENT : Int32 := 2
def EBADF : Int32 := 9
def EACCES : Int32 := 13
def EEXIST : Int32 := 17
def ENOTDIR : Int32 := 20
def EISDIR : Int32 := 21
def EINVAL : Int32 := 22
def ENAMETOOLONG : Int32 := 36
def ENOTEMPTY : Int32 := 39
def ELOOP : Int32 := 40

end Errno

open Errno

/-! ## Segments

What a path asks for, piece by piece, between its separators. -/

/-- One step of a walk.  Empty pieces of a path ask for nothing, and are none. -/
inductive Segment where
  | cur
  | up
  | name (n : Name)
  /-- what a separator at the end asks for: a directory -/
  | isDir
  deriving DecidableEq

/-- What a piece between two separators asks for. -/
def segment (piece : Path) : Option Segment :=
  if piece = [dot] then some .cur
  else if piece = [dot, dot] then some .up
  else if h : FileName piece then some (.name ⟨piece, h⟩)
  else none

/-- The steps of a path, the last one being for a separator at its end.  This is about how the
system takes a path, and not about how a library lists its components. -/
def segments (p : Path) : List Segment :=
  let steps := (p.splitOn sep).filterMap segment
  if p.getLast? = some sep ∧ steps ≠ [] then steps ++ [.isDir] else steps

/-- The last name, what stands in front of it, and whether a separator stands behind it; none where
the path does not end in a name. -/
def splitLast (segs : List Segment) : Option (List Segment × Name × Bool) :=
  match segs.reverse with
  | .isDir :: .name n :: front => some (front.reverse, n, true)
  | .name n :: front => some (front.reverse, n, false)
  | _ => none

/-! ## Walking

The walk is split at links, because that is where its budget is spent: `walkFrom` is structural on
the steps, and `walk` on the budget. -/

/-- What a walk can do at an inode. -/
inductive Passage where
  /-- a directory, and whether its names may be looked up -/
  | dir (parent : Ino) (find : Name → Option Ino) (searchable : Bool)
  | link (target : Path)
  | other

/-- What a walk meets, at each inode there is.  Nothing else of a file tree matters to a walk. -/
abbrev Look := Ino → Option Passage

/-- Where a walk ends: at a file, in front of a last name that is missing, or with an error. -/
inductive Walked where
  | found (i : Ino)
  /-- only the last name is missing, in the directory `dir` -/
  | missing (dir : Ino) (n : Name)
  | failed (e : Int32)
  deriving DecidableEq

/-- Where the path starts that is met in `here`. -/
def start (here : Ino) (p : Path) : Ino := if isAbsolute p then rootIno else here

/-- The walk from `here`, up to the first link, where `restart` goes on with the target of the link
and what is left of the path. -/
def walkFrom (look : Look) (restart : Ino → List Segment → Walked) (here : Ino) :
    List Segment → Walked
  | [] => .found here
  | .isDir :: rest => match look here with
    | some (.dir _ _ _) => walkFrom look restart here rest
    | _ => .failed ENOTDIR
  | .cur :: rest => match look here with
    | some (.dir _ _ true) => walkFrom look restart here rest
    | some (.dir _ _ false) => .failed EACCES
    | _ => .failed ENOTDIR
  | .up :: rest => match look here with
    | some (.dir parent _ true) => match look parent with
      | some (.dir _ _ _) => walkFrom look restart parent rest
      | _ => .failed ENOENT
    | some (.dir _ _ false) => .failed EACCES
    | _ => .failed ENOTDIR
  | .name n :: rest => match look here with
    | some (.dir _ find true) => match find n with
      | none => if rest = [] then .missing here n else .failed ENOENT
      | some i => match look i with
        | some (.link target) => restart (start here target) (segments target ++ rest)
        | some _ => walkFrom look restart i rest
        | none => .failed ENOENT
    | some (.dir _ _ false) => .failed EACCES
    | _ => .failed ENOTDIR

attribute [local simp] walkFrom

/-- The walk that follows up to `k` links.  Behind them it fails, so it ends also where links lead
to each other. -/
def walk (look : Look) : Nat → Ino → List Segment → Walked
  | 0 => walkFrom look fun _ _ => .failed ELOOP
  | k + 1 => walkFrom look (walk look k)

/-- The number of links that are followed. -/
def maxLinks : Nat := 40

/-- The length from which a path is too long. -/
def maxPath : Nat := 4096

/-- Why a call does not take a path, whatever the files are. -/
def pathError (p : Path) : Option Int32 :=
  if 0 ∈ p then some EINVAL
  else if p = [] then some ENOENT
  else if maxPath ≤ p.length then some ENAMETOOLONG
  else none

/-- Where a path leads, links at its end included. -/
def lead (look : Look) (cwd : Ino) (p : Path) : Walked :=
  match pathError p with
  | some e => .failed e
  | none => walk look maxLinks (start cwd p) (segments p)

/-- The directory and the name that a path ends in, and whether a separator stands behind it.  A
link under that name is not followed. -/
def slot (look : Look) (cwd : Ino) (p : Path) : Except Int32 (Ino × Name × Bool) :=
  match pathError p, splitLast (segments p) with
  | some e, _ => .error e
  | none, none => .error EEXIST
  | none, some (front, n, slash) => match walk look maxLinks (start cwd p) front with
    | .found i => match look i with
      | some (.dir _ _ true) => .ok (i, n, slash)
      | some (.dir _ _ false) => .error EACCES
      | _ => .error ENOTDIR
    | .missing _ _ => .error ENOENT
    | .failed e => .error e

/-- The link that a path ends in, which is not followed, and its target. -/
def linkAt (look : Look) (cwd : Ino) (p : Path) : Option (Ino × Path) :=
  match slot look cwd p with
  | .ok (i, n, false) => match look i with
    | some (.dir _ find _) => do
      let j ← find n
      match look j with
      | some (.link target) => some (j, target)
      | _ => none
    | _ => none
  | _ => none

/-- `a` with the name `n` for `j`, if it is a directory. -/
def Passage.withName (n : Name) (j : Ino) : Passage → Passage
  | .dir parent find searchable =>
    .dir parent (fun m => if m = n then some j else find m) searchable
  | a => a

/-- `look` with a link `j` to `target`, under the name `n` in `i`. -/
def Look.withLink (look : Look) (i : Ino) (n : Name) (j : Ino) (target : Path) : Look := fun k =>
  if k = j then some (.link target)
  else if k = i then (look k).map (Passage.withName n j)
  else look k

variable {look look' : Look} {restart restart' : Ino → List Segment → Walked} {here i cwd : Ino}
  {segs : List Segment} {p : Path} {n : Name} {ns : List Path}

theorem pathError_of_lead (h : lead look cwd p = .found i) : pathError p = none := by
  rw [lead] at h
  split at h
  · contradiction
  · assumption

theorem zero_notMem_of_pathError (h : pathError p = none) : 0 ∉ p := by
  intro hzero
  rw [pathError, if_pos hzero] at h
  contradiction

/-! ## The steps of a path

Paths that are spelled canonically ask for their names and for nothing else. -/

theorem segment_of_fileName {n : Path} (h : FileName n) : segment n = some (.name ⟨n, h⟩) := by
  rw [segment, if_neg h.1.2.1, if_neg h.1.2.2.1, dif_pos h]

/-- The names of a path, as steps. -/
def nameSteps (ns : List Path) (h : ∀ n ∈ ns, FileName n) : List Segment :=
  ns.pmap (fun n hn => .name ⟨n, hn⟩) h

theorem filterMap_segment (h : ∀ n ∈ ns, FileName n) :
    ns.filterMap segment = nameSteps ns h := by
  induction ns with
  | nil => rfl
  | cons n ns ih =>
    rw [List.filterMap_cons_some (segment_of_fileName (h n List.mem_cons_self)),
      ih fun m hm => h m (List.mem_cons_of_mem _ hm)]
    rfl

/-- **The steps of a canonical path are its names.** -/
theorem segments_renderAbs (h : ∀ n ∈ ns, FileName n) :
    segments (renderAbs ns) = nameSteps ns h := by
  by_cases hne : ns = []
  · subst hne
    rfl
  · have hsplit : (renderAbs ns).splitOn sep = [] :: ns := by
      rw [renderAbs, List.splitOn_cons_eq_if_modifyHead, if_pos (by decide),
        List.splitOn_intercalate sep (fun n hn => (h n hn).1.2.2.2) hne]
    have hsteps : ((renderAbs ns).splitOn sep).filterMap segment = nameSteps ns h := by
      rw [hsplit, List.filterMap_cons_none (by decide), filterMap_segment h]
    have hlast := getLast?_renderAbs (fun n hn => (h n hn).1) hne
    rw [segments, hsteps]
    exact if_neg fun h => hlast h.1

/-- **A name behind a canonical path is one more step.** -/
theorem segments_join_renderAbs (h : ∀ n ∈ ns, FileName n) (n : Name) :
    segments (join (renderAbs ns) n.1) = segments (renderAbs ns) ++ [.name n] := by
  have happend : ∀ m ∈ ns ++ [n.1], FileName m := by
    intro m hm
    rcases List.mem_append.1 hm with hm | hm
    · exact h m hm
    · exact (List.mem_singleton.1 hm) ▸ n.2
  rw [join_renderAbs (fun n hn => (h n hn).1) n.2.1, segments_renderAbs happend,
    segments_renderAbs h, nameSteps, List.pmap_append]
  rfl

theorem eq_of_splitLast {front : List Segment} {slash : Bool}
    (h : splitLast segs = some (front, n, slash)) :
    segs = front ++ .name n :: (if slash then [.isDir] else []) := by
  rw [splitLast] at h
  split at h
  · next m front' heq =>
    cases h
    rw [← List.reverse_reverse segs, heq]
    simp
  · next m front' heq =>
    cases h
    rw [← List.reverse_reverse segs, heq]
    simp
  · contradiction

/-! ## Longer walks

In a tree that has more, a walk that has found something finds it again. -/

/-- Where `front` leads, the walk along a longer path goes on. -/
theorem walkFrom_append {G : (Ino → List Segment → Walked) → Prop}
    (hself : G (walkFrom look restart))
    (hrestart : ∀ here segs i, restart here segs = .found i →
      ∃ g, G g ∧ ∀ rest, restart here (segs ++ rest) = g i rest)
    (h : walkFrom look restart here segs = .found i) :
    ∃ g, G g ∧ ∀ rest, walkFrom look restart here (segs ++ rest) = g i rest := by
  induction segs generalizing here with
  | nil =>
    cases h
    exact ⟨_, hself, fun rest => rfl⟩
  | cons seg segs ih =>
    cases seg with
    | isDir =>
      simp only [walkFrom, List.cons_append] at h ⊢
      split at h
      · exact ih h
      · contradiction
    | cur =>
      simp only [walkFrom, List.cons_append] at h ⊢
      split at h
      · exact ih h
      · contradiction
      · contradiction
    | up =>
      simp only [walkFrom, List.cons_append] at h ⊢
      split at h
      · split at h
        · exact ih h
        · contradiction
      · contradiction
      · contradiction
    | name n =>
      simp only [walkFrom, List.cons_append] at h ⊢
      split at h
      · split at h
        · split at h <;> contradiction
        · split at h
          · next target _ =>
            obtain ⟨g, hg, hrest⟩ := hrestart _ _ _ h
            refine ⟨g, hg, fun rest => ?_⟩
            rw [← hrest, List.append_assoc]
          · exact ih h
          · contradiction
      · contradiction
      · contradiction

/-- **A walk goes on where a shorter one arrives**, with what is left of its budget of links. -/
theorem walk_append {k : Nat} (h : walk look k here segs = .found i) :
    ∃ k', ∀ rest, walk look k here (segs ++ rest) = walk look k' i rest := by
  have key : ∃ g, (∃ k', g = walk look k') ∧
      ∀ rest, walk look k here (segs ++ rest) = g i rest := by
    induction k generalizing here segs i with
    | zero => exact walkFrom_append ⟨0, rfl⟩ (fun _ _ _ h => by contradiction) h
    | succ k ih => exact walkFrom_append ⟨k + 1, rfl⟩ (fun _ _ _ h => ih h) h
  obtain ⟨-, ⟨k', rfl⟩, hrest⟩ := key
  exact ⟨k', hrest⟩

/-- The step to a name, whatever is left of the budget. -/
theorem walk_name {k : Nat} {parent j : Ino} {find : Name → Option Ino} {pass : Passage}
    (hdir : look i = some (.dir parent find true)) (hfind : find n = some j)
    (hpass : look j = some pass) (hlink : ∀ target, pass ≠ .link target) :
    walk look k i [.name n] = .found j := by
  cases k <;>
  · simp only [walk, walkFrom, hdir, hfind, hpass]

/-- A step to a name that leads somewhere finds the name. -/
theorem find_of_walk {k : Nat} {parent j : Ino} {find : Name → Option Ino} {searchable : Bool}
    (hdir : look i = some (.dir parent find searchable))
    (h : walk look k i [.name n] = .found j) :
    ∃ j', find n = some j' ∧ ∃ pass, look j' = some pass := by
  have key : ∀ {restart}, walkFrom look restart i [.name n] = .found j →
      ∃ j', find n = some j' ∧ ∃ pass, look j' = some pass := by
    intro restart h
    simp only [walkFrom, hdir] at h
    cases searchable with
    | false => contradiction
    | true =>
      cases hfind : find n with
      | none => simp [hfind] at h
      | some j' =>
        cases hpass : look j' with
        | none => simp [hfind, hpass] at h
        | some pass => exact ⟨j', rfl, pass, hpass⟩
  cases k with
  | zero => exact key h
  | succ k => exact key h

/-- Behind a directory a separator changes nothing. -/
theorem walk_isDir {k : Nat} {parent : Ino} {find : Name → Option Ino} {searchable : Bool}
    (hdir : look i = some (.dir parent find searchable)) : walk look k i [.isDir] = .found i := by
  cases k <;> simp only [walk, walkFrom, hdir]

/-- A name that is not there. -/
theorem walk_missing {k : Nat} {parent : Ino} {find : Name → Option Ino}
    (hdir : look i = some (.dir parent find true)) (hfind : find n = none) (rest : List Segment) :
    walk look k i (.name n :: rest) = if rest = [] then .missing i n else .failed ENOENT := by
  cases k <;> simp only [walk, walkFrom, hdir, hfind]

/-! ## Canonical paths

A path in its canonical spelling has no steps but names.  Where it leads anywhere, its names are
names of files, and it can be taken apart at the end. -/

theorem mem_intercalate {b : UInt8} {n : Path} (hn : n ∈ ns) (hb : b ∈ n) :
    b ∈ [sep].intercalate ns := by
  induction ns with
  | nil => contradiction
  | cons m ns ih =>
    cases ns with
    | nil =>
      obtain rfl := List.mem_singleton.1 hn
      simpa using hb
    | cons m' ns =>
      rw [List.intercalate_cons_cons]
      rcases List.mem_cons.1 hn with rfl | hn
      · simp [hb]
      · simp [ih hn]

theorem mem_join {b : UInt8} {name : Path} (h : b ∈ join p name) : b ∈ p ∨ b = sep ∨ b ∈ name := by
  rw [join] at h
  split_ifs at h
  · exact Or.inr (Or.inr h)
  · exact (List.mem_append.1 h).imp_right Or.inr
  · exact (List.mem_append.1 h).imp_right List.mem_cons.1

/-- The names on a canonical path that leads anywhere are names of files. -/
theorem fileName_of_pathError (h : ∀ n ∈ ns, ValidName n)
    (hpath : pathError (renderAbs ns) = none) : ∀ n ∈ ns, FileName n := by
  intro n hn
  refine ⟨h n hn, fun hb => ?_⟩
  exact zero_notMem_of_pathError hpath (List.mem_cons_of_mem _ (mem_intercalate hn hb))

/-- **Behind the end of a canonical path a name is one more step**, if the path is not too long. -/
theorem lead_join (h : ∀ n ∈ ns, ValidName n) (hlead : lead look cwd (renderAbs ns) = .found i)
    (n : Name) : ∃ k, lead look cwd (join (renderAbs ns) n.1) =
      if maxPath ≤ (join (renderAbs ns) n.1).length then .failed ENAMETOOLONG
      else walk look k i [.name n] := by
  have hpath := pathError_of_lead hlead
  have hsegs := segments_join_renderAbs (fileName_of_pathError h hpath) n
  have hjoin : join (renderAbs ns) n.1 = renderAbs (ns ++ [n.1]) := join_renderAbs h n.2.1
  have hstart : start cwd (join (renderAbs ns) n.1) = start cwd (renderAbs ns) := by
    rw [start, start, hjoin, isAbsolute_renderAbs, isAbsolute_renderAbs]
  have hzero : 0 ∉ join (renderAbs ns) n.1 := by
    intro hmem
    rcases mem_join hmem with hmem | hmem | hmem
    · exact zero_notMem_of_pathError hpath hmem
    · exact absurd hmem (by decide)
    · exact n.2.2 hmem
  have hne : join (renderAbs ns) n.1 ≠ [] := by
    rw [hjoin]
    exact List.cons_ne_nil _ _
  simp only [lead, hpath] at hlead
  obtain ⟨k, hrest⟩ := walk_append hlead
  refine ⟨k, ?_⟩
  rw [lead, pathError, if_neg hzero, if_neg hne]
  by_cases hlong : maxPath ≤ (join (renderAbs ns) n.1).length
  · rw [if_pos hlong, if_pos hlong]
  · rw [if_neg hlong, if_neg hlong, hstart, hsegs, ← hrest]

/-! ## Links

No link is ever the end of a walk, so what stands there is a directory or something else.  The root
is no link where an absolute path leads anywhere. -/

/-- What stands at `i` is no link. -/
def Look.NoLink (look : Look) (i : Ino) : Prop := ∀ target, look i ≠ some (.link target)

theorem Look.noLink_of_dir {parent : Ino} {find : Name → Option Ino} {searchable : Bool}
    (hdir : look i = some (.dir parent find searchable)) : look.NoLink i := by
  intro target hlink
  cases hdir.symm.trans hlink

/-- A walk that goes anywhere starts in a directory. -/
theorem walkFrom_start (h : walkFrom look restart here segs = .found i) :
    here = i ∨ look.NoLink here := by
  cases segs with
  | nil =>
    cases h
    exact Or.inl rfl
  | cons seg segs =>
    refine Or.inr ?_
    cases seg <;>
    · simp only [walkFrom] at h
      split at h
      · next hdir => exact Look.noLink_of_dir hdir
      all_goals contradiction

/-- Where an absolute path leads to something else than a link, the root is none. -/
theorem noLink_root (hlead : lead look cwd p = .found i) (habs : isAbsolute p = true)
    (hi : look.NoLink i) : look.NoLink rootIno := by
  have hpath := pathError_of_lead hlead
  have hstart : start cwd p = rootIno := if_pos habs
  simp only [lead, hpath, hstart, maxLinks] at hlead
  rcases walkFrom_start hlead with rfl | hroot
  · exact hi
  · exact hroot

theorem walkFrom_noLink (hroot : look.NoLink rootIno)
    (hrestart : ∀ here segs, look.NoLink here → restart here segs = .found i → look.NoLink i)
    (hhere : look.NoLink here) (h : walkFrom look restart here segs = .found i) :
    look.NoLink i := by
  induction segs generalizing here with
  | nil =>
    cases h
    exact hhere
  | cons seg segs ih =>
    cases seg with
    | isDir =>
      simp only [walkFrom] at h
      split at h
      · exact ih hhere h
      · contradiction
    | cur =>
      simp only [walkFrom] at h
      split at h
      · exact ih hhere h
      · contradiction
      · contradiction
    | up =>
      simp only [walkFrom] at h
      split at h
      · split at h
        · next hparent => exact ih (Look.noLink_of_dir hparent) h
        · contradiction
      · contradiction
      · contradiction
    | name n =>
      simp only [walkFrom] at h
      split at h
      · split at h
        · split at h <;> contradiction
        · split at h
          · refine hrestart _ _ ?_ h
            rw [start]
            split
            · exact hroot
            · exact hhere
          · next a hlink ha =>
            exact ih (fun target hj => hlink target (Option.some.inj (ha.symm.trans hj))) h
          · contradiction
      · contradiction
      · contradiction

/-- **A walk never ends at a link**, because links at its end are followed as well. -/
theorem walk_noLink {k : Nat} (hroot : look.NoLink rootIno) (hhere : look.NoLink here)
    (h : walk look k here segs = .found i) : look.NoLink i := by
  induction k generalizing here segs with
  | zero => exact walkFrom_noLink hroot (fun _ _ _ h => by contradiction) hhere h
  | succ k ih => exact walkFrom_noLink hroot (fun _ _ hhere h => ih hhere h) hhere h

theorem dir_of_walkFrom_missing {restart : Ino → List Segment → Walked} {n : Name}
    (hrestart : ∀ here segs, restart here segs = .missing i n →
      ∃ parent find, look i = some (.dir parent find true) ∧ find n = none)
    (h : walkFrom look restart here segs = .missing i n) :
    ∃ parent find, look i = some (.dir parent find true) ∧ find n = none := by
  induction segs generalizing here with
  | nil => contradiction
  | cons seg segs ih =>
    cases seg with
    | isDir =>
      simp only [walkFrom] at h
      split at h
      · exact ih h
      · contradiction
    | cur =>
      simp only [walkFrom] at h
      split at h
      · exact ih h
      · contradiction
      · contradiction
    | up =>
      simp only [walkFrom] at h
      split at h
      · split at h
        · exact ih h
        · contradiction
      · contradiction
      · contradiction
    | name m =>
      simp only [walkFrom] at h
      split at h
      · next hdir =>
        split at h
        · next hfind =>
          split at h
          · cases h
            exact ⟨_, _, hdir, hfind⟩
          · contradiction
        · split at h
          · exact hrestart _ _ h
          · exact ih h
          · contradiction
      · contradiction
      · contradiction

/-- **A walk whose last name is missing ends in a directory**, which may be searched. -/
theorem dir_of_walk_missing {k : Nat} {n : Name} (h : walk look k here segs = .missing i n) :
    ∃ parent find, look i = some (.dir parent find true) ∧ find n = none := by
  induction k generalizing here segs with
  | zero => exact dir_of_walkFrom_missing (fun _ _ h => by contradiction) h
  | succ k ih => exact dir_of_walkFrom_missing (fun _ _ h => ih h) h

/-! ## More names

Between two looks at a tree names may have been added.  A walk that arrives does not notice. -/

/-- `b` has all names of `a`, and lets a walk through where `a` does.  Links and other files are as
they were. -/
def Passage.Extends : Passage → Passage → Prop
  | .dir p f s, .dir p' f' s' => p = p' ∧ (s = true → s' = true) ∧ ∀ n j, f n = some j → f' n = some j
  | .link target, .link target' => target = target'
  | .other, .other => True
  | _, _ => False

def Look.Extends (look look' : Look) : Prop :=
  ∀ i a, look i = some a → ∃ b, look' i = some b ∧ a.Extends b

theorem Passage.Extends.refl (a : Passage) : a.Extends a := by
  cases a with
  | dir p f s => exact ⟨rfl, id, fun _ _ h => h⟩
  | link target => rfl
  | other => trivial

theorem Passage.Extends.trans {a b c : Passage} (hab : a.Extends b) (hbc : b.Extends c) :
    a.Extends c := by
  cases a <;> cases b <;> cases c <;> first | exact hab.elim | exact hbc.elim | skip
  case dir.dir.dir =>
    obtain ⟨rfl, hs, hf⟩ := hab
    obtain ⟨rfl, hs', hf'⟩ := hbc
    exact ⟨rfl, fun h => hs' (hs h), fun n j h => hf' n j (hf n j h)⟩
  case link.link.link => exact Eq.trans hab hbc
  case other.other.other => trivial

theorem Look.Extends.dir {p : Ino} {f : Name → Option Ino} {s : Bool}
    (h : look.Extends look') (hdir : look i = some (.dir p f s)) :
    ∃ f' s', look' i = some (.dir p f' s') ∧ (s = true → s' = true) ∧
      ∀ n j, f n = some j → f' n = some j := by
  obtain ⟨b, hb, hext⟩ := h i _ hdir
  cases b with
  | dir p' f' s' =>
    obtain ⟨rfl, hs, hf⟩ := hext
    exact ⟨f', s', hb, hs, hf⟩
  | link target => exact hext.elim
  | other => exact hext.elim

theorem Look.Extends.link {target : Path} (h : look.Extends look')
    (hlink : look i = some (.link target)) : look' i = some (.link target) := by
  obtain ⟨b, hb, hext⟩ := h i _ hlink
  cases b with
  | link target' =>
    obtain rfl : target = target' := hext
    exact hb
  | dir _ _ _ => exact hext.elim
  | other => exact hext.elim

theorem walkFrom_mono (hext : look.Extends look')
    (hrestart : ∀ here segs i, restart here segs = .found i → restart' here segs = .found i)
    (h : walkFrom look restart here segs = .found i) :
    walkFrom look' restart' here segs = .found i := by
  induction segs generalizing here with
  | nil => exact h
  | cons seg segs ih =>
    cases seg with
    | isDir =>
      simp only [walkFrom] at h ⊢
      split at h
      · next hdir =>
        obtain ⟨f', s', hdir', -, -⟩ := hext.dir hdir
        rw [hdir']
        exact ih h
      · contradiction
    | cur =>
      simp only [walkFrom] at h ⊢
      split at h
      · next hdir =>
        obtain ⟨f', s', hdir', hs, -⟩ := hext.dir hdir
        rw [hdir', hs rfl]
        exact ih h
      · contradiction
      · contradiction
    | up =>
      simp only [walkFrom] at h ⊢
      split at h
      · next hdir =>
        obtain ⟨f', s', hdir', hs, -⟩ := hext.dir hdir
        rw [hdir', hs rfl]
        split at h
        · next hparent =>
          obtain ⟨f'', s'', hparent', -, -⟩ := hext.dir hparent
          simp only [hparent']
          exact ih h
        · contradiction
      · contradiction
      · contradiction
    | name n =>
      simp only [walkFrom] at h ⊢
      split at h
      · next find hdir =>
        obtain ⟨f', s', hdir', hs, hf⟩ := hext.dir hdir
        rw [hdir', hs rfl]
        split at h
        · split at h <;> contradiction
        · next j hfind =>
          simp only [hf n j hfind]
          split at h
          · next target hlink =>
            rw [hext.link hlink]
            exact hrestart _ _ _ h
          · next a hlink ha =>
            obtain ⟨b, hb, hab⟩ := hext j a ha
            rw [hb]
            cases b with
            | link target => cases a <;> first | exact hab.elim | exact absurd rfl (hlink _)
            | dir _ _ _ => exact ih h
            | other => exact ih h
          · contradiction
      · contradiction
      · contradiction

/-- **Where names are added only, a walk still arrives**, at the same file and on the same way. -/
theorem walk_mono {k : Nat} (hext : look.Extends look') (h : walk look k here segs = .found i) :
    walk look' k here segs = .found i := by
  induction k generalizing here segs i with
  | zero => exact walkFrom_mono hext (fun _ _ _ h => by contradiction) h
  | succ k ih => exact walkFrom_mono hext (fun _ _ _ h => ih h) h

/-! ## Last names

The calls that make a name and those that follow a path agree on what a free name is, and on what a
directory under the last name is. -/

section

variable {slash : Bool}

theorem slot_eq_ok :
    slot look cwd p = .ok (i, n, slash) ↔
      pathError p = none ∧ ∃ front parent find, splitLast (segments p) = some (front, n, slash) ∧
        walk look maxLinks (start cwd p) front = .found i ∧
        look i = some (.dir parent find true) := by
  constructor
  · intro h
    rw [slot] at h
    split at h
    · contradiction
    · contradiction
    · next front n' slash' hpath hsplit =>
      split at h
      · next i' hwalk =>
        split at h
        · next parent find hdir =>
          cases h
          exact ⟨hpath, front, parent, find, hsplit, hwalk, hdir⟩
        · contradiction
        · contradiction
      · contradiction
      · contradiction
  · rintro ⟨hpath, front, parent, find, hsplit, hwalk, hdir⟩
    simp only [slot, hpath, hsplit, hwalk, hdir]

/-- What a path with a last name is walked along. -/
theorem lead_eq_of_slot (h : slot look cwd p = .ok (i, n, slash)) :
    ∃ k, lead look cwd p = walk look k i (.name n :: if slash then [.isDir] else []) := by
  obtain ⟨hpath, front, parent, find, hsplit, hwalk, -⟩ := slot_eq_ok.1 h
  have hsegs := eq_of_splitLast hsplit
  obtain ⟨k, hrest⟩ := walk_append hwalk
  refine ⟨k, ?_⟩
  simp only [lead, hpath]
  rw [hsegs, hrest]

/-- **A free last name is what a walk misses.** -/
theorem lead_of_free {parent : Ino} {find : Name → Option Ino}
    (h : slot look cwd p = .ok (i, n, slash)) (hdir : look i = some (.dir parent find true))
    (hfind : find n = none) :
    lead look cwd p = if slash then .failed ENOENT else .missing i n := by
  obtain ⟨k, hlead⟩ := lead_eq_of_slot h
  rw [hlead, walk_missing hdir hfind]
  cases slash <;> rfl

/-- **A last name that is a directory is where the walk leads.** -/
theorem lead_of_dir {parent j : Ino} {find : Name → Option Ino} {parent' : Ino}
    {find' : Name → Option Ino} {searchable : Bool}
    (h : slot look cwd p = .ok (i, n, slash)) (hdir : look i = some (.dir parent find true))
    (hfind : find n = some j) (hj : look j = some (.dir parent' find' searchable)) :
    lead look cwd p = .found j := by
  obtain ⟨k, hlead⟩ := lead_eq_of_slot h
  have hname : walk look k i [.name n] = .found j := walk_name hdir hfind hj (by simp)
  rw [hlead]
  cases slash with
  | false => exact hname
  | true =>
    obtain ⟨k', hrest⟩ := walk_append hname
    exact (hrest [.isDir]).trans (walk_isDir hj)

theorem linkAt_eq_some {j : Ino} {target : Path} :
    linkAt look cwd p = some (j, target) ↔ ∃ i n parent find, slot look cwd p = .ok (i, n, false) ∧
      look i = some (.dir parent find true) ∧ find n = some j ∧ look j = some (.link target) := by
  rw [linkAt]
  constructor
  · intro h
    split at h
    · next i n hslot =>
      split at h
      · next parent find searchable hdir =>
        obtain ⟨j', hfind, h⟩ := Option.bind_eq_some_iff.1 h
        split at h
        · next target' hlink =>
          cases h
          obtain ⟨-, front, parent', find', -, -, hdir'⟩ := slot_eq_ok.1 hslot
          cases hdir.symm.trans hdir'
          exact ⟨i, n, parent, find, hslot, hdir, hfind, hlink⟩
        · contradiction
      · contradiction
    · contradiction
  · rintro ⟨i, n, parent, find, hslot, hdir, hfind, hlink⟩
    simp only [hslot, hdir, hfind, hlink, Option.bind_eq_bind, Option.bind_some]

theorem slot_mono (hext : look.Extends look') (h : slot look cwd p = .ok (i, n, slash)) :
    slot look' cwd p = .ok (i, n, slash) := by
  obtain ⟨hpath, front, parent, find, hsplit, hwalk, hdir⟩ := slot_eq_ok.1 h
  obtain ⟨find', s', hdir', hs, -⟩ := hext.dir hdir
  exact slot_eq_ok.2 ⟨hpath, front, parent, find', hsplit, walk_mono hext hwalk, by rw [hdir', hs rfl]⟩

/-- A link under a free name takes no name away. -/
theorem Look.extends_withLink {parent j : Ino} {find : Name → Option Ino} {searchable : Bool}
    {target : Path} (hdir : look i = some (.dir parent find searchable)) (hfree : find n = none)
    (hnew : look j = none) : look.Extends (look.withLink i n j target) := by
  intro k a ha
  have hkj : k ≠ j := by
    rintro rfl
    rw [hnew] at ha
    contradiction
  by_cases hki : k = i
  · subst hki
    obtain rfl : Passage.dir parent find searchable = a := Option.some.inj (hdir.symm.trans ha)
    refine ⟨(Passage.dir parent find searchable).withName n j, ?_, ⟨rfl, id, fun m k' hm => ?_⟩⟩
    · rw [Look.withLink, if_neg hkj, if_pos rfl, hdir]
      rfl
    · have hne : m ≠ n := by
        rintro rfl
        rw [hfree] at hm
        contradiction
      exact (if_neg hne).trans hm
  · refine ⟨a, ?_, .refl a⟩
    rw [Look.withLink, if_neg hkj, if_neg hki, ha]

/-- **A new link is found where it was made**, under the path that it was made with. -/
theorem linkAt_withLink {parent j : Ino} {find : Name → Option Ino} {target : Path}
    (h : slot look cwd p = .ok (i, n, false)) (hdir : look i = some (.dir parent find true))
    (hfree : find n = none) (hnew : look j = none) :
    linkAt (look.withLink i n j target) cwd p = some (j, target) := by
  have hij : i ≠ j := by
    rintro rfl
    rw [hnew] at hdir
    contradiction
  have hdir' : look.withLink i n j target i =
      some (.dir parent (fun m => if m = n then some j else find m) true) := by
    rw [Look.withLink, if_neg hij, if_pos rfl, hdir]
    rfl
  have hslot : slot (look.withLink i n j target) cwd p = .ok (i, n, false) :=
    slot_mono (Look.extends_withLink hdir hfree hnew) h
  exact linkAt_eq_some.2 ⟨i, n, parent, _, hslot, hdir', if_pos rfl, if_pos rfl⟩

end

end UnixPath
end DistributedPrograms
