import DistributedPrograms.Lib.FileTree

/-!
# A part of a file tree that no path leads out of

A program that serves one directory takes care that the paths it uses name only what is below it.
That is a statement about spellings.  This module is about what it is worth: which files such a path
can lead to, with all the links it may meet.

A set `inside` of inodes is *enclosed* under the names `root` if

* the names lead from the root of the tree to it, through directories outside (`Route`);
* what is inside leads nowhere else: the entries of its directories are inside, and its links stay
  below `root` or go down from where they are (`Content.Within`, `Inbound`);
* new files are inside.

Then a path that names `root` or something below it, without `..`, never leads to a file outside,
whatever links it meets (`lead_inside`, `slot_inside`); and a call that is given only such paths
changes nothing outside and leaves the set enclosed (`Keeps`).  There is one lemma `keeps_…` for
each call of a file tree, and they compose by `Keeps.trans`.

The proof has three layers, and each speaks its own language.  On *paths*, `Below` and
`StrictlyBelow` compare the steps of a path with the names of the root, and `below_of_under` gets
them from the components, where the program checks them.  On *walks*, `walk_inside` is the
induction: outside for as long as the names of the root last, and inside from then on, also behind
every link.  On *trees*, each edit of a directory or a file inside is shown to keep the enclosure,
and the calls are made of such edits.

The calls of a file tree move no access time by themselves.  A system does, also outside, where it
looks at a directory on the way; so what `Keeps` is worth for a system is about what lasts
(`Inode.lasting`).
-/

set_option autoImplicit false

namespace DistributedPrograms
namespace UnixPath

/-! ## Paths that lead inside

A walk leads inside if it goes through the names of the root and then nowhere upwards.  The target
of a link is a walk as well, which begins where the link stands or at the top. -/

/-- The name that a step asks for. -/
def Segment.name? : Segment → Option Name
  | .name n => some n
  | _ => none

/-- The names on a walk. -/
def namesOf (segs : List Segment) : List Name := segs.filterMap Segment.name?

/-- The walk goes through the names `root`, and nowhere upwards.  Behind the names of the root any
others may come. -/
def Inward (root : List Name) (segs : List Segment) : Prop :=
  .up ∉ segs ∧ root <+: namesOf segs

/-- The path is absolute, and leads to `root` or below it.  This is about how the path is spelled,
and says nothing yet about where links on the way lead. -/
def Below (root : List Name) (p : Path) : Prop := isAbsolute p = true ∧ Inward root (segments p)

/-- The path leads below `root`, and not to `root` itself. -/
def StrictlyBelow (root : List Name) (p : Path) : Prop :=
  Below root p ∧ root.length < (namesOf (segments p)).length

/-- The target of a link that does not lead out of what is below `root`.  An absolute one goes below
the root itself, and a relative one does not go upwards. -/
def Inbound (root : List Name) (target : Path) : Prop :=
  Below root target ∨ (isAbsolute target = false ∧ .up ∉ segments target)

variable {root : List Name} {front rest segs : List Segment} {p : Path} {n : Name}

@[simp] theorem namesOf_append : namesOf (front ++ rest) = namesOf front ++ namesOf rest :=
  List.filterMap_append

@[simp] theorem namesOf_cons_name : namesOf (.name n :: segs) = n :: namesOf segs := rfl
@[simp] theorem namesOf_cons_cur : namesOf (.cur :: segs) = namesOf segs := rfl
@[simp] theorem namesOf_cons_isDir : namesOf (.isDir :: segs) = namesOf segs := rfl
@[simp] theorem namesOf_nil : namesOf [] = [] := rfl

theorem Inward.append (h : Inward root segs) (hrest : .up ∉ rest) : Inward root (segs ++ rest) :=
  ⟨fun hup => (List.mem_append.1 hup).elim h.1 hrest, by
    rw [namesOf_append]
    exact h.2.trans (List.prefix_append ..)⟩

/-- A walk through more names than those of the root has gone through these first. -/
theorem Inward.of_append (h : Inward root (front ++ rest))
    (hlength : root.length ≤ (namesOf front).length) : Inward root front := by
  refine ⟨fun hup => h.1 (List.mem_append_left _ hup), ?_⟩
  have hprefix : namesOf front <+: namesOf (front ++ rest) := by
    rw [namesOf_append]
    exact List.prefix_append ..
  exact List.prefix_of_prefix_length_le h.2 hprefix hlength

/-! ## Components and steps

What a program checks are the components of a path, and what a system walks along are its steps.
The two have the same names and go upwards at the same places. -/

theorem zero_notMem_of_mem_splitOn {piece : Path} (hzero : 0 ∉ p) (h : piece ∈ p.splitOn sep) :
    0 ∉ piece := by
  intro hmem
  have hp : p = [sep].intercalate (p.splitOn sep) := (List.intercalate_splitOn sep).symm
  rw [hp] at hzero
  exact hzero (mem_intercalate h hmem)

/-- A piece that asks for a name, or upwards, is the component that does. -/
theorem segment_cases {piece : Path} (hsep : sep ∉ piece) (hzero : 0 ∉ piece) :
    (component piece = none ∧ (segment piece = none ∨ segment piece = some .cur)) ∨
    (component piece = some .parentDir ∧ segment piece = some .up) ∨
    ∃ n : Name, component piece = some (.normal n.1) ∧ segment piece = some (.name n) := by
  by_cases hnil : piece = []
  · subst hnil
    exact Or.inl ⟨rfl, Or.inl rfl⟩
  · by_cases hdot : piece = [dot]
    · subst hdot
      exact Or.inl ⟨rfl, Or.inr rfl⟩
    · by_cases hdots : piece = [dot, dot]
      · subst hdots
        exact Or.inr (Or.inl ⟨rfl, rfl⟩)
      · have hname : FileName piece := ⟨⟨hnil, hdot, hdots, hsep⟩, hzero⟩
        exact Or.inr (Or.inr ⟨⟨piece, hname⟩, component_of_validName hname.1,
          segment_of_fileName hname⟩)

/-- **The steps of a path have the names of its components**, and go upwards where these do. -/
theorem components_of_segments (hzero : 0 ∉ p) :
    names p = (namesOf (segments p)).map Subtype.val ∧
      (.up ∈ segments p ↔ Component.parentDir ∈ body p) := by
  have hpieces : ∀ piece ∈ p.splitOn sep, sep ∉ piece ∧ 0 ∉ piece := fun piece hpiece =>
    ⟨not_mem_of_mem_splitOn hpiece, zero_notMem_of_mem_splitOn hzero hpiece⟩
  have hlast : namesOf (segments p) = namesOf ((p.splitOn sep).filterMap segment) ∧
      (.up ∈ segments p ↔ .up ∈ (p.splitOn sep).filterMap segment) := by
    rw [segments]
    split
    · simp
    · simp
  rw [hlast.1, hlast.2, names, body]
  generalize p.splitOn sep = pieces at hpieces
  induction pieces with
  | nil => simp
  | cons piece pieces ih =>
    obtain ⟨hnames, hup⟩ := ih fun q hq => hpieces q (List.mem_cons_of_mem _ hq)
    obtain ⟨hsep, hzero⟩ := hpieces piece List.mem_cons_self
    obtain ⟨hc, hs | hs⟩ | ⟨hc, hs⟩ | ⟨n, hc, hs⟩ := segment_cases hsep hzero
    · rw [List.filterMap_cons_none hc, List.filterMap_cons_none hs]
      exact ⟨hnames, hup⟩
    · rw [List.filterMap_cons_none hc, List.filterMap_cons_some hs]
      exact ⟨hnames, by simpa using hup⟩
    · rw [List.filterMap_cons_some hc, List.filterMap_cons_some hs]
      exact ⟨hnames, by simp⟩
    · rw [List.filterMap_cons_some hc, List.filterMap_cons_some hs]
      exact ⟨by simpa using hnames, by simpa using hup⟩

/-- The path of a root. -/
def rootPath (root : List Name) : Path := renderAbs (root.map Subtype.val)

theorem components_rootPath :
    components (rootPath root) = .rootDir :: (root.map Subtype.val).map Component.normal :=
  components_renderAbs fun _ hn => by
    obtain ⟨n, -, rfl⟩ := List.mem_map.1 hn
    exact n.2.1

/-- Behind its root a path has names and `..` only. -/
theorem body_cases {c : Component} (h : c ∈ body p) : c = .parentDir ∨ ∃ n, c = .normal n := by
  obtain ⟨piece, -, hpiece⟩ := List.mem_filterMap.1 h
  rw [component] at hpiece
  split_ifs at hpiece with h₁ h₂
  · exact Or.inl (Option.some.inj hpiece).symm
  · exact Or.inr ⟨piece, (Option.some.inj hpiece).symm⟩

theorem isAbsolute_of_head {cs : List Component} (h : components p = .rootDir :: cs) :
    isAbsolute p = true := by
  have hbody : Component.rootDir ∉ body p := fun hmem => by simpa using body_cases hmem
  have hmem : Component.rootDir ∈ components p := by
    rw [h]
    exact List.mem_cons_self
  by_contra habs
  rw [components, if_neg habs] at hmem
  split at hmem
  · exact hbody ((List.mem_cons.1 hmem).resolve_left (by simp))
  · exact hbody hmem

theorem exists_map_normal {cs : List Component} (h : ∀ c ∈ cs, ∃ n, c = .normal n) :
    ∃ ns : List Path, cs = ns.map Component.normal := by
  induction cs with
  | nil => exact ⟨[], rfl⟩
  | cons c cs ih =>
    obtain ⟨n, rfl⟩ := h c List.mem_cons_self
    obtain ⟨ns, rfl⟩ := ih fun c hc => h c (List.mem_cons_of_mem _ hc)
    exact ⟨n :: ns, rfl⟩

/-- A path under the root goes on from it by names. -/
theorem body_of_under (h : Under (rootPath root) p) :
    isAbsolute p = true ∧ ∃ ns, body p = (root.map Subtype.val ++ ns).map Component.normal := by
  obtain ⟨rest, hrest, hnot⟩ := under_iff.1 h
  rw [components_rootPath, List.cons_append] at hrest
  have habs := isAbsolute_of_head hrest
  rw [components_of_isAbsolute habs] at hrest
  have hbody := (List.cons_eq_cons.1 hrest).2
  obtain ⟨ns, rfl⟩ : ∃ ns : List Path, rest = ns.map Component.normal := by
    refine exists_map_normal fun c hc => ?_
    refine (body_cases (p := p) (by simp [hbody, hc])).resolve_left ?_
    rintro rfl
    exact hnot hc
  exact ⟨habs, ns, by rw [hbody, List.map_append]⟩

theorem names_of_body {ns : List Path} (h : body p = ns.map Component.normal) : names p = ns := by
  rw [names, h, List.filterMap_map]
  exact List.filterMap_some

/-- **What is under the root by its components is below it on a walk.** -/
theorem below_of_under (hzero : 0 ∉ p) (h : Under (rootPath root) p) : Below root p := by
  obtain ⟨habs, ns, hbody⟩ := body_of_under h
  obtain ⟨hnames, hup⟩ := components_of_segments hzero
  rw [names_of_body hbody] at hnames
  refine ⟨habs, fun hmem => ?_, (List.prefix_map_iff_of_injective Subtype.val_injective).1 ?_⟩
  · rw [hup, hbody] at hmem
    simp at hmem
  · rw [← hnames]
    exact List.prefix_append ..

/-- What has more components than the root is below it and not the root itself. -/
theorem strictlyBelow_of_under (hzero : 0 ∉ p) (h : Under (rootPath root) p)
    (hne : components p ≠ components (rootPath root)) : StrictlyBelow root p := by
  obtain ⟨habs, ns, hbody⟩ := body_of_under h
  obtain ⟨hnames, -⟩ := components_of_segments hzero
  rw [names_of_body hbody] at hnames
  refine ⟨below_of_under hzero h, ?_⟩
  have hns : ns ≠ [] := by
    rintro rfl
    rw [components_of_isAbsolute habs, components_rootPath, hbody, List.append_nil] at hne
    exact hne rfl
  have hlength := congrArg List.length hnames
  have hpos := List.length_pos_iff.2 hns
  simp only [List.length_append, List.length_map] at hlength
  omega

/-! ## Walks

The induction is on the budget of links and then on the steps.  The invariant is `Starts`: the walk
stands inside, or in front of the names of the root that are still to come. -/

namespace Look

/-- From `i` the names lead to `r`, from directory to directory. -/
def Route (look : Look) : Ino → List Name → Ino → Prop
  | i, [], r => i = r
  | i, n :: ns, r => ∃ parent find searchable j,
      look i = some (.dir parent find searchable) ∧ find n = some j ∧ look.Route j ns r

/-- No path from `root` on leads out of `inside`.  The names of the root lead inside, to what is no
link; what is entered in a directory inside is inside; and links inside lead back inside. -/
structure Encloses (look : Look) (root : List Name) (inside : Ino → Prop) : Prop where
  route : ∃ r, look.Route rootIno root r ∧ inside r ∧ look.NoLink r
  closed : ∀ i parent find searchable, inside i → look i = some (.dir parent find searchable) →
    ∀ n j, find n = some j → inside j
  link : ∀ i target, inside i → look i = some (.link target) → Inbound root target

end Look

/-- The walk ends inside, if it ends anywhere. -/
def Walked.Stays (inside : Ino → Prop) : Walked → Prop
  | .found i => inside i
  | .missing dir _ => inside dir
  | .failed _ => True

variable {look : Look} {inside : Ino → Prop} {restart : Ino → List Segment → Walked}
  {here i r cwd : Ino}

/-- Where a walk may start: inside, or in front of the names of the root.  The second case is that
of an absolute path, whose walk starts outside. -/
def Starts (root : List Name) (inside : Ino → Prop) (here : Ino) (segs : List Segment) : Prop :=
  (inside here ∧ .up ∉ segs) ∨ (here = rootIno ∧ Inward root segs)

/-- A link that is met inside is followed to a place to start from. -/
theorem Inbound.starts {target : Path} (h : Inbound root target) (hhere : inside here)
    (hrest : .up ∉ rest) : Starts root inside (start here target) (segments target ++ rest) := by
  rcases h with ⟨habs, hin⟩ | ⟨hrel, hup⟩
  · exact Or.inr ⟨if_pos habs, hin.append hrest⟩
  · refine Or.inl ⟨?_, fun hmem => (List.mem_append.1 hmem).elim hup hrest⟩
    rw [start, if_neg (by simp [hrel])]
    exact hhere

/-- **A walk that starts inside stays there.**  Where it meets a link it is started again, which is
left to the caller by `restart`. -/
theorem walkFrom_inside (h : look.Encloses root inside)
    (hrestart : ∀ here segs, Starts root inside here segs → (restart here segs).Stays inside)
    (hhere : inside here) (hup : .up ∉ segs) : (walkFrom look restart here segs).Stays inside := by
  induction segs generalizing here with
  | nil => exact hhere
  | cons seg segs ih =>
    rw [List.mem_cons, not_or] at hup
    cases seg with
    | up => exact absurd rfl hup.1
    | isDir =>
      rw [walkFrom]
      split
      · exact ih hhere hup.2
      · trivial
    | cur =>
      rw [walkFrom]
      split
      · exact ih hhere hup.2
      all_goals trivial
    | name n =>
      rw [walkFrom]
      split
      · next hdir =>
        split
        · split
          · exact hhere
          · trivial
        · next j hfind =>
          have hj : inside j := h.closed _ _ _ _ hhere hdir n j hfind
          split
          · next target hlink =>
            exact hrestart _ _ ((h.link j target hj hlink).starts hhere hup.2)
          · exact ih hj hup.2
          · trivial
      all_goals trivial

/-- **A walk through the names of the root comes inside, and stays there.** -/
theorem walkFrom_route (h : look.Encloses root inside)
    (hrestart : ∀ here segs, Starts root inside here segs → (restart here segs).Stays inside)
    {ns : List Name} (hroute : look.Route i ns r) (hr : inside r) (hlink : look.NoLink r)
    (hsegs : Inward ns segs) : (walkFrom look restart i segs).Stays inside := by
  induction segs generalizing i ns with
  | nil =>
    obtain rfl : ns = [] := List.prefix_nil.1 hsegs.2
    obtain rfl : i = r := hroute
    exact hr
  | cons seg segs ih =>
    obtain ⟨hup, hprefix⟩ := hsegs
    cases ns with
    | nil =>
      obtain rfl : i = r := hroute
      exact walkFrom_inside h hrestart hr hup
    | cons n ns =>
      have hrest : .up ∉ segs := fun hmem => hup (List.mem_cons_of_mem _ hmem)
      cases seg with
      | up => exact absurd List.mem_cons_self hup
      | isDir =>
        rw [walkFrom]
        split
        · exact ih hroute ⟨hrest, hprefix⟩
        · trivial
      | cur =>
        rw [walkFrom]
        split
        · exact ih hroute ⟨hrest, hprefix⟩
        all_goals trivial
      | name m =>
        obtain ⟨parent, find, searchable, j, hdir, hfind, hnext⟩ := hroute
        rw [namesOf_cons_name, List.cons_prefix_cons] at hprefix
        obtain ⟨rfl, hprefix⟩ := hprefix
        -- what stands on the way is a directory
        have hnolink : look.NoLink j := by
          cases ns with
          | nil =>
            obtain rfl : j = r := hnext
            exact hlink
          | cons n' ns =>
            obtain ⟨parent', find', searchable', j', hdir', -⟩ := hnext
            exact Look.noLink_of_dir hdir'
        cases searchable with
        | false =>
          simp only [walkFrom, hdir]
          trivial
        | true =>
          simp only [walkFrom, hdir, hfind]
          split
          · next target htarget => exact absurd htarget (hnolink target)
          · exact ih hnext ⟨hrest, hprefix⟩
          · trivial

/-- Where a walk starts that may, it ends inside. -/
theorem walk_inside (h : look.Encloses root inside) {k : Nat}
    (hstart : Starts root inside here segs) : (walk look k here segs).Stays inside := by
  have key : ∀ {restart : Ino → List Segment → Walked} {here : Ino} {segs : List Segment},
      (∀ here segs, Starts root inside here segs → (restart here segs).Stays inside) →
      Starts root inside here segs → (walkFrom look restart here segs).Stays inside := by
    intro restart here segs hrestart hstart
    rcases hstart with ⟨hhere, hup⟩ | ⟨rfl, hin⟩
    · exact walkFrom_inside h hrestart hhere hup
    · obtain ⟨r, hroute, hr, hlink⟩ := h.route
      exact walkFrom_route h hrestart hroute hr hlink hin
  induction k generalizing here segs with
  | zero => exact key (fun _ _ _ => trivial) hstart
  | succ k ih => exact key (fun _ _ => ih) hstart

/-- **A path below the root leads inside.**  One with a zero byte leads nowhere, because the system
refuses it, so nothing is asked of it. -/
theorem lead_inside (h : look.Encloses root inside) (hp : 0 ∉ p → Below root p) :
    (lead look cwd p).Stays inside := by
  rw [lead]
  split
  · trivial
  · next hpath =>
    obtain ⟨habs, hin⟩ := hp (zero_notMem_of_pathError hpath)
    exact walk_inside h (Or.inr ⟨if_pos habs, hin⟩)

/-- **The last name of a path below the root is an entry inside.** -/
theorem slot_inside (h : look.Encloses root inside) (hp : 0 ∉ p → StrictlyBelow root p)
    {slash : Bool} (hslot : slot look cwd p = .ok (i, n, slash)) : inside i := by
  obtain ⟨hpath, front, parent, find, hsplit, hwalk, -⟩ := slot_eq_ok.1 hslot
  obtain ⟨⟨habs, hin⟩, hlength⟩ := hp (zero_notMem_of_pathError hpath)
  have hsegs := eq_of_splitLast hsplit
  have hnames : namesOf (segments p) = namesOf front ++ [n] := by
    rw [hsegs]
    cases slash <;> simp
  have hfront : Inward root front := by
    rw [hsegs] at hin
    refine hin.of_append ?_
    rw [hnames, List.length_append, List.length_singleton] at hlength
    exact Nat.le_of_lt_succ hlength
  have hstarts : Starts root inside (start cwd p) front := Or.inr ⟨if_pos habs, hfront⟩
  have hstays := walk_inside (k := maxLinks) h hstarts
  rwa [hwalk] at hstays

/-! ## Trees

The same for a tree that changes: each operation keeps what is enclosed, if its paths are below the
root. -/

/-- What is there leads nowhere but inside: the entries of a directory are files inside, and a link
has an inbound target. -/
def Content.Within (root : List Name) (inside : Ino → Prop) : Content → Prop
  | .directory d => ∀ e ∈ d.entries, inside e.2
  | .symlink target => Inbound root target
  | _ => True

namespace FileTree

/-- From `i` the names lead to `r`, through directories outside. -/
def Route (t : FileTree) (inside : Ino → Prop) : Ino → List Name → Ino → Prop
  | i, [], r => i = r
  | i, n :: ns, r => ¬inside i ∧ ∃ j, t.find i n = some j ∧ t.Route inside j ns r

/-- No path from `root` on leads out of `inside`, and new files are inside.  The names of the root
itself lead through directories outside, whose entries must not change either. -/
structure Encloses (t : FileTree) (root : List Name) (inside : Ino → Prop) : Prop where
  route : ∃ r f, t.Route inside rootIno root r ∧ inside r ∧ t.node r = some f ∧ ¬f.IsLink
  within : ∀ i f, inside i → t.node i = some f → f.content.Within root inside
  new : ∀ i, t.next ≤ i → inside i

/-- What has become of `t`: nothing outside has changed, and the inside is still enclosed.  Every
operation of the tree that is given paths below the root keeps this. -/
structure Keeps (root : List Name) (inside : Ino → Prop) (t t' : FileTree) : Prop where
  encloses : t'.Encloses root inside
  outside : ∀ i, ¬inside i → t'.node i = t.node i

variable {t t' t'' : FileTree} {inode new : Inode} {rules : Rules} {now : Time} {op : Operation}
  {j : Ino}

theorem Keeps.refl (h : t.Encloses root inside) : Keeps root inside t t := ⟨h, fun _ _ => rfl⟩

theorem Keeps.trans (h : Keeps root inside t t') (h' : Keeps root inside t' t'') :
    Keeps root inside t t'' :=
  ⟨h'.encloses, fun i hi => (h'.outside i hi).trans (h.outside i hi)⟩

theorem Encloses.find (h : t.Encloses root inside) (hi : inside i) (hfind : t.find i n = some j) :
    inside j := by
  rw [FileTree.find] at hfind
  split at hfind
  · next d _ _ _ _ _ hnode => exact h.within i _ hi hnode (n, j) (find_eq_some.1 hfind)
  · contradiction

theorem Route.toLook {search : Rights → Bool} {ns : List Name} (h : t.Route inside i ns r) :
    (t.look search).Route i ns r := by
  induction ns generalizing i with
  | nil => exact h
  | cons n ns ih =>
    obtain ⟨-, j, hfind, hnext⟩ := h
    rw [FileTree.find] at hfind
    split at hfind
    · next d _ _ _ _ _ hnode => exact ⟨_, _, _, j, look_of_dir hnode rfl, hfind, ih hnext⟩
    · contradiction

/-- What a walk meets is enclosed as well. -/
theorem Encloses.toLook (h : t.Encloses root inside) (search : Rights → Bool) :
    (t.look search).Encloses root inside := by
  obtain ⟨r, f, hroute, hr, hnode, hlink⟩ := h.route
  refine ⟨⟨r, hroute.toLook, hr, (noLink_iff hnode).2 hlink⟩,
    fun i parent find s hi hdir n j hfind => ?_, fun i target hi hlink => ?_⟩
  · obtain ⟨f, d, hnode, hcontent, -, rfl, -⟩ := dir_of_look hdir
    exact h.find hi ((find_of_dir hnode hcontent).trans hfind)
  · obtain ⟨f, hnode, hcontent⟩ := look_eq_link.1 hlink
    have hwithin := h.within i f hi hnode
    rwa [hcontent] at hwithin

/-! ## Changes inside

One lemma for each edit that the calls are made of.  That the route to the inside stays open is
`Route.congr`: nothing outside has changed, so neither have the directories on it. -/

section

variable {f : Inode → Inode} {links : UInt64} {t₁ : FileTree}

theorem Route.congr {ns : List Name} (h : t.Route inside i ns r)
    (hsame : ∀ i, ¬inside i → t'.node i = t.node i) : t'.Route inside i ns r := by
  induction ns generalizing i with
  | nil => exact h
  | cons n ns ih =>
    obtain ⟨hi, j, hfind, hnext⟩ := h
    refine ⟨hi, j, ?_, ih hnext⟩
    rw [FileTree.find, hsame i hi]
    exact hfind

/-- A change of a file inside that leads nowhere else. -/
theorem Keeps.modify (h : Keeps root inside t t₁) (hi : inside i)
    (hwithin : ∀ c : Content, c.Within root inside → ∀ inode : Inode, inode.content = c →
      (f inode).content.Within root inside)
    (hlink : ∀ inode, (f inode).IsLink → inode.IsLink) :
    Keeps root inside t (t₁.modify i f) := by
  have hother : ∀ k, ¬inside k → (t₁.modify i f).node k = t₁.node k := by
    intro k hk
    refine node_modify_of_ne ?_
    rintro rfl
    exact hk hi
  refine ⟨⟨?_, fun k inode hk hnode => ?_, h.encloses.new⟩,
    fun k hk => (hother k hk).trans (h.outside k hk)⟩
  · obtain ⟨r, inode, hroute, hr, hnode, hnolink⟩ := h.encloses.route
    by_cases hri : r = i
    · subst hri
      refine ⟨r, f inode, hroute.congr hother, hr, ?_, fun hl => hnolink (hlink inode hl)⟩
      rw [node_modify_self, hnode, Option.map_some]
    · exact ⟨r, inode, hroute.congr hother, hr, (node_modify_of_ne hri).trans hnode, hnolink⟩
  · by_cases hki : k = i
    · subst hki
      rw [node_modify_self] at hnode
      obtain ⟨inode', hnode', rfl⟩ := Option.map_eq_some_iff.1 hnode
      exact hwithin _ (h.encloses.within k inode' hk hnode') inode' rfl
    · rw [node_modify_of_ne hki] at hnode
      exact h.encloses.within k inode hk hnode

/-- A change of the entries of a directory inside. -/
theorem Keeps.mapDirectory (h : Keeps root inside t t₁) (hi : inside i) {g : Directory → Directory}
    (hf : ∀ inode, (f inode).content = inode.content.mapDirectory g)
    (hg : ∀ d : Directory, (∀ e ∈ d.entries, inside e.2) → ∀ e ∈ (g d).entries, inside e.2) :
    Keeps root inside t (t₁.modify i f) := by
  refine h.modify hi (fun c hc inode hinode => ?_) fun inode ⟨target, htarget⟩ => ?_
  · rw [hf, hinode]
    cases c with
    | directory d => exact hg d hc
    | regular => trivial
    | symlink target => exact hc
    | special kind => trivial
  · rw [hf] at htarget
    cases hcontent : inode.content with
    | symlink target' => exact ⟨target', hcontent⟩
    | directory d => simp [hcontent, Content.mapDirectory] at htarget
    | regular => simp [hcontent, Content.mapDirectory] at htarget
    | special kind => simp [hcontent, Content.mapDirectory] at htarget

/-- A change of the attributes of a file inside. -/
theorem Keeps.attributes (h : Keeps root inside t t₁) (hi : inside i)
    (hf : ∀ inode, (f inode).content = inode.content) : Keeps root inside t (t₁.modify i f) :=
  h.modify hi (fun c hc inode hinode => by rwa [hf, hinode])
    fun inode ⟨target, htarget⟩ => ⟨target, (hf inode).symm.trans htarget⟩

theorem Keeps.enter (h : Keeps root inside t t₁) (hi : inside i) (hj : inside j) :
    Keeps root inside t (t₁.enter now i n j links) := by
  refine h.mapDirectory hi (fun _ => rfl) fun d hd e he => ?_
  rw [Directory.insert] at he
  split at he
  · exact hd e he
  · rcases List.mem_append.1 he with he | he
    · exact hd e he
    · rw [List.mem_singleton.1 he]
      exact hj

theorem Keeps.leave (h : Keeps root inside t t₁) (hi : inside i) :
    Keeps root inside t (t₁.leave now i n links) :=
  h.mapDirectory hi (fun _ => rfl) fun _ hd e he => hd e (List.mem_of_mem_filter he)

theorem Keeps.unname (h : Keeps root inside t t₁) (hi : inside i) :
    Keeps root inside t (t₁.unname now i) :=
  h.attributes hi fun _ => rfl

theorem Keeps.reparent (h : Keeps root inside t t₁) (hj : inside j) :
    Keeps root inside t (t₁.reparent now i j) :=
  h.mapDirectory hj (fun _ => rfl) fun _ hd => hd

theorem Keeps.add (h : Keeps root inside t t₁) (hnew : new.content.Within root inside) :
    Keeps root inside t (t₁.add new) := by
  have hnext : inside t₁.next := h.encloses.new _ le_rfl
  have hother : ∀ k, ¬inside k → (t₁.add new).node k = t₁.node k := by
    intro k hk
    refine node_add_of_ne ?_
    rintro rfl
    exact hk hnext
  refine ⟨⟨?_, fun k inode hk hnode => ?_, fun k hk => h.encloses.new k (Nat.le_of_succ_le hk)⟩,
    fun k hk => (hother k hk).trans (h.outside k hk)⟩
  · obtain ⟨r, inode, hroute, hr, hnode, hnolink⟩ := h.encloses.route
    exact ⟨r, inode, hroute.congr hother, hr, (node_add_of_ne (ne_next_of_node hnode)).trans hnode,
      hnolink⟩
  · by_cases hkn : k = t₁.next
    · subst hkn
      obtain rfl := Option.some.inj (node_add_self.symm.trans hnode)
      exact hnew
    · rw [node_add_of_ne hkn] at hnode
      exact h.encloses.within k inode hk hnode

/-! ## Calls

The operations of the tree, one by one. -/

variable {mode : UInt32} {content : Content} {slash : Bool} {source origin : Path}

theorem Encloses.slot (h : t.Encloses root inside) (hp : 0 ∉ p → StrictlyBelow root p)
    (hslot : t.slot rules p = .ok (i, n, slash)) : inside i :=
  slot_inside (h.toLook rules.search) hp hslot

theorem Encloses.lead (h : t.Encloses root inside) (rules : Rules) (hp : 0 ∉ p → Below root p) :
    (t.lead rules p).Stays inside :=
  lead_inside (h.toLook rules.search) hp

theorem Encloses.reach (h : t.Encloses root inside) (hp : 0 ∉ p → Below root p)
    (hreach : t.reach rules p = .ok (i, inode)) : inside i := by
  have hlead := h.lead rules hp
  rwa [(reach_eq_ok.1 hreach).1] at hlead

theorem Encloses.entry (h : t.Encloses root inside) (hi : inside i)
    (hentry : t.entry i n = .ok (j, inode)) : inside j :=
  h.find hi (entry_eq_ok.1 hentry).1

theorem keeps_make (h : t.Encloses root inside) (hi : inside i)
    (hcontent : content.Within root inside)
    (hmake : t.make rules now op content mode i n = .ok t') : Keeps root inside t t' := by
  obtain ⟨parent, -, -, -, rfl⟩ := make_eq_ok.1 hmake
  exact ((Keeps.refl h).add hcontent).enter hi (h.new _ le_rfl)

theorem keeps_mkdir (h : t.Encloses root inside) (hp : 0 ∉ p → StrictlyBelow root p)
    (hmkdir : t.mkdir rules now p mode = .ok t') : Keeps root inside t t' := by
  obtain ⟨⟨i, n, slash⟩, hslot, hmake⟩ := bind_eq_ok.1 hmkdir
  exact keeps_make h (h.slot hp hslot) (by simp [Content.Within, Directory.empty]) hmake

theorem keeps_symlink (h : t.Encloses root inside) (hp : 0 ∉ p → StrictlyBelow root p)
    (hsource : 0 ∉ source → Below root source) (hsymlink : t.symlink rules now source p = .ok t') :
    Keeps root inside t t' := by
  obtain ⟨⟨i, n, slash⟩, hslot, hrest⟩ := bind_eq_ok.1 hsymlink
  obtain ⟨⟨⟩, htake, hrest⟩ := bind_eq_ok.1 hrest
  obtain ⟨⟨⟩, -, hmake⟩ := bind_eq_ok.1 hrest
  have hwithin : (Content.symlink source).Within root inside :=
    Or.inl (hsource (zero_notMem_of_pathError (takePath_eq_ok.1 htake)))
  exact keeps_make h (h.slot hp hslot) hwithin hmake

theorem keeps_unlink (h : t.Encloses root inside) (hp : 0 ∉ p → StrictlyBelow root p)
    (hunlink : t.unlink rules now p = .ok t') : Keeps root inside t t' := by
  obtain ⟨⟨i, n, slash⟩, hslot, hrest⟩ := bind_eq_ok.1 hunlink
  obtain ⟨⟨j, f⟩, hentry, hrest⟩ := bind_eq_ok.1 hrest
  obtain ⟨⟨⟩, -, hrest⟩ := bind_eq_ok.1 hrest
  obtain ⟨⟨⟩, -, hrest⟩ := bind_eq_ok.1 hrest
  obtain ⟨⟨⟩, -, hrest⟩ := bind_eq_ok.1 hrest
  obtain ⟨⟩ := hrest
  have hi : inside i := h.slot hp hslot
  exact ((Keeps.refl h).leave hi).unname (h.entry hi hentry)

theorem keeps_rmdir (h : t.Encloses root inside) (hp : 0 ∉ p → StrictlyBelow root p)
    (hrmdir : t.rmdir rules now p = .ok t') : Keeps root inside t t' := by
  obtain ⟨⟨i, n, slash⟩, hslot, hrest⟩ := bind_eq_ok.1 hrmdir
  obtain ⟨⟨j, f⟩, hentry, hrest⟩ := bind_eq_ok.1 hrest
  obtain ⟨⟨⟩, -, hrest⟩ := bind_eq_ok.1 hrest
  obtain ⟨⟨⟩, -, hrest⟩ := bind_eq_ok.1 hrest
  obtain ⟨⟨⟩, -, hrest⟩ := bind_eq_ok.1 hrest
  obtain ⟨⟩ := hrest
  have hi : inside i := h.slot hp hslot
  exact ((Keeps.refl h).leave hi).unname (h.entry hi hentry)

theorem keeps_rename (h : t.Encloses root inside) (horigin : 0 ∉ origin → StrictlyBelow root origin)
    (hp : 0 ∉ p → StrictlyBelow root p) (hrename : t.rename rules now origin p = .ok t') :
    Keeps root inside t t' := by
  obtain ⟨⟨i, n, slash⟩, hslot, hrest⟩ := bind_eq_ok.1 hrename
  obtain ⟨⟨i', n', slash'⟩, hslot', hrest⟩ := bind_eq_ok.1 hrest
  obtain ⟨⟨j, f⟩, hentry, hrest⟩ := bind_eq_ok.1 hrest
  obtain ⟨⟨⟩, -, hrest⟩ := bind_eq_ok.1 hrest
  obtain ⟨⟨⟩, -, hrest⟩ := bind_eq_ok.1 hrest
  have hi : inside i := h.slot horigin hslot
  have hi' : inside i' := h.slot hp hslot'
  have hj : inside j := h.entry hi hentry
  cases hfind : t.find i' n' with
  | none =>
    simp only [hfind] at hrest
    obtain ⟨⟨⟩, -, hrest⟩ := bind_eq_ok.1 hrest
    obtain ⟨⟩ := hrest
    exact (((Keeps.refl h).leave hi).enter hi' hj).reparent hj
  | some j' =>
    simp only [hfind] at hrest
    by_cases hsame : j' = j
    · rw [if_pos hsame] at hrest
      obtain ⟨⟩ := hrest
      exact Keeps.refl h
    · rw [if_neg hsame] at hrest
      obtain ⟨⟨j'', f'⟩, -, hrest⟩ := bind_eq_ok.1 hrest
      obtain ⟨⟨⟩, -, hrest⟩ := bind_eq_ok.1 hrest
      obtain ⟨⟨⟩, -, hrest⟩ := bind_eq_ok.1 hrest
      obtain ⟨⟩ := hrest
      have hj' : inside j' := h.find hi' hfind
      exact (((((Keeps.refl h).leave hi).leave hi').unname hj').enter hi' hj).reparent hj

/-- The file that is opened is inside. -/
theorem keeps_openFile (h : t.Encloses root inside) (hp : 0 ∉ p → Below root p)
    {create read write : Bool}
    (hopen : t.openFile rules now create read write mode p = .ok (i, t')) :
    inside i ∧ Keeps root inside t t' := by
  obtain ⟨f, hreach, rfl, -⟩ | ⟨-, rfl, j, n, hlead, hmake⟩ := openFile_cases hopen
  · exact ⟨h.reach hp hreach, Keeps.refl h⟩
  · have hj := h.lead rules hp
    rw [hlead] at hj
    have hwithin : Content.regular.Within root inside := trivial
    exact ⟨h.new _ le_rfl, keeps_make h hj hwithin hmake⟩

theorem keeps_change (h : t.Encloses root inside) (hp : 0 ∉ p → Below root p)
    (hchange : t.change rules op p f = .ok t')
    (hf : ∀ inode, (f inode).content = inode.content) : Keeps root inside t t' := by
  obtain ⟨i, inode, hreach, -, rfl⟩ := change_eq_ok.1 hchange
  exact (Keeps.refl h).attributes (h.reach hp hreach) hf

theorem keeps_utimens (h : t.Encloses root inside) (hp : 0 ∉ p → Below root p)
    {atime mtime : TimeArg} (hutimens : t.utimens rules now p atime mtime = .ok t') :
    Keeps root inside t t' := by
  rw [utimens] at hutimens
  split_ifs at hutimens
  · obtain ⟨⟩ := hutimens
    exact Keeps.refl h
  · exact keeps_change h hp hutimens fun _ => rfl

end

end FileTree

end UnixPath
end DistributedPrograms
