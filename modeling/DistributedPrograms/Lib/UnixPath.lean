import Mathlib.Data.List.Infix
import Mathlib.Data.List.TakeDrop

/-!
# Unix paths

Paths as the byte strings an operating system takes, with the operations of a path library:
splitting into components, `join`, `parent`.  A path is any list of bytes, so that a name which is
no valid text is still a path; nothing here decodes.

The definitions fall into three layers:

* **Bytes.** `components` reads a path: repeated separators and inner `.` are dropped, a leading `.`
  of a relative path is kept, `..` stays.  `join`, `parent` and `render` write paths.  These are the
  operations a program calls.
* **Names.** `names` are the entries a path goes through, and `renderAbs ns` is the one canonical
  spelling of the absolute path through the names `ns`.  `Canonical` paths are those that are
  spelled in this way.
* **Places.** `resolve` is the lexical resolution of components on a stack of names, where `..`
  pops, and does nothing on the empty stack.  `Under root p` says that `p` names `root` or something
  below it without ever going through `..`.

What the operations do is stated on components, and a client never has to look at bytes:

* `components_renderAbs` and `names_renderAbs` read a canonical spelling back;
* `components_join` says what a joined path consists of, and `isAbsolute_join` when it is absolute:
  an absolute second argument replaces the first;
* `parent_renderAbs` drops the last name, and has no answer at the root;
* `resolve_components_join` goes on resolving behind a joined path, and `under_join` says exactly
  when a joined name is still under the root.

`..` is never resolved against symbolic links here: that is a question to a file system, and the
library about file trees has it.
-/

set_option autoImplicit false

namespace DistributedPrograms
namespace UnixPath

/-! ## Components

`Path::components` of the standard library, written out. -/

/-- A path as the operating system takes it: any string of bytes. -/
abbrev Path := List UInt8

/-- The separator `/`. -/
def sep : UInt8 := 47

/-- The byte `.`. -/
def dot : UInt8 := 46

/-- A component of a path, as a path library lists them.  It has been cut at the separators, and is
not resolved in any way. -/
inductive Component where
  | rootDir
  | curDir
  | parentDir
  | normal (name : Path)
  deriving DecidableEq, Repr

/-- A string that can name a directory entry. -/
def ValidName (n : Path) : Prop := n ≠ [] ∧ n ≠ [dot] ∧ n ≠ [dot, dot] ∧ sep ∉ n

instance (n : Path) : Decidable (ValidName n) := by unfold ValidName; infer_instance

/-- What one piece between two separators stands for.  Empty pieces and `.` stand for nothing. -/
def component (piece : Path) : Option Component :=
  if piece = [] ∨ piece = [dot] then none
  else if piece = [dot, dot] then some .parentDir
  else some (.normal piece)

/-- The components of a path behind its root, a leading `.` not counted. -/
def body (p : Path) : List Component := (p.splitOn sep).filterMap component

def isAbsolute (p : Path) : Bool := p.head? == some sep

/-- The components of a path: repeated separators and inner `.` are dropped, a leading `.` of a
relative path is kept. -/
def components (p : Path) : List Component :=
  if isAbsolute p then .rootDir :: body p
  else if (p.splitOn sep).head? = some [dot] then .curDir :: body p
  else body p

/-! ## Operations

`Path::join` and `Path::parent`, and the bytes of a path that is put together from names. -/

/-- `p` with `name` behind it.  An absolute `name` replaces `p`.  Neither of them is resolved. -/
def join (p name : Path) : Path :=
  if isAbsolute name then name
  else if p = [] ∨ p.getLast? = some sep then p ++ name
  else p ++ sep :: name

/-- The absolute path through the names `ns`, spelled canonically: one separator in front of each,
and none behind. -/
def renderAbs (ns : List Path) : Path := sep :: [sep].intercalate ns

/-- How a component is spelled.  The root is spelled by the separator before the next one. -/
def Component.text : Component → Path
  | .rootDir => []
  | .curDir => [dot]
  | .parentDir => [dot, dot]
  | .normal name => name

/-- The path with these components. -/
def render : List Component → Path
  | .rootDir :: cs => renderAbs (cs.map Component.text)
  | cs => [sep].intercalate (cs.map Component.text)

/-- The path without its last component: none for a root and for the empty path.  The result is
spelled canonically, so it is the parent up to equality of components. -/
def parent (p : Path) : Option Path :=
  match (components p).getLast? with
  | none | some .rootDir => none
  | some _ => some (render (components p).dropLast)

/-- The names among the components behind the root. -/
def names (p : Path) : List Path :=
  (body p).filterMap fun
    | .normal name => some name
    | _ => none

/-- An absolute path in its one canonical spelling: only names, single separators. -/
def Canonical (p : Path) : Prop := renderAbs (names p) = p

instance (p : Path) : Decidable (Canonical p) := by unfold Canonical; infer_instance

/-! ## Resolution -/

/-- One step of lexical resolution on a stack of names, the deepest name last.  At the bottom `..`
does nothing. -/
def push (stack : List Path) : Component → List Path
  | .rootDir => []
  | .curDir => stack
  | .parentDir => stack.dropLast
  | .normal name => stack ++ [name]

/-- Lexical resolution from a stack: a name is pushed, `..` pops and does nothing on an empty
stack, a root clears. -/
def resolve (stack : List Path) (cs : List Component) : List Path := cs.foldl push stack

/-- `p` is `root` or lies below it: `root` is a component prefix of `p` and what follows it has no
`..`.  Whether links lead elsewhere is not asked. -/
def Under (root p : Path) : Prop :=
  components root <+: components p ∧
    Component.parentDir ∉ (components p).drop (components root).length

instance (root p : Path) : Decidable (Under root p) := by unfold Under; infer_instance

variable {root p q name : Path} {ns ms : List Path} {n : Path}

/-! ## Pieces

What stands between two separators.  A name comes out of a path only as a piece without separator
that is neither empty nor `.` nor `..`, which is what `ValidName` says, so that every name read from
a path can be put into another one. -/

@[simp] theorem body_nil : body [] = [] := by decide

@[simp] theorem isAbsolute_renderAbs : isAbsolute (renderAbs ns) = true := by
  simp [isAbsolute, renderAbs]

theorem component_of_validName (h : ValidName n) : component n = some (.normal n) := by
  simp [component, h.1, h.2.1, h.2.2.1]

/-- Names come out of `component` only as valid ones, as long as the piece has no separator. -/
theorem validName_of_component {piece : Path} (hsep : sep ∉ piece)
    (h : component piece = some (.normal n)) : ValidName n := by
  unfold component at h
  split at h
  · cases h
  · split at h
    · cases h
    · cases h
      simp_all [ValidName]

theorem not_mem_of_mem_splitOn {piece : Path} : ∀ {p : Path}, piece ∈ p.splitOn sep → sep ∉ piece
  | [], h => by
      rw [List.splitOn_nil, List.mem_singleton] at h
      simp [h]
  | b :: p, h => by
      rw [List.splitOn_cons_eq_if_modifyHead] at h
      split at h
      · rcases List.mem_cons.1 h with rfl | h
        · simp
        · exact not_mem_of_mem_splitOn h
      · next hb =>
        obtain ⟨first, rest, hp⟩ := List.exists_cons_of_ne_nil (List.splitOn_ne_nil sep p)
        rw [hp, List.modifyHead_cons] at h
        rcases List.mem_cons.1 h with rfl | h
        · have hfirst : sep ∉ first :=
            not_mem_of_mem_splitOn (p := p) (hp ▸ List.mem_cons_self)
          rw [List.mem_cons, not_or]
          exact ⟨fun hsep => hb (by simp [hsep]), hfirst⟩
        · exact not_mem_of_mem_splitOn (p := p) (hp ▸ List.mem_cons_of_mem _ h)

/-- **The names of a path are valid.** -/
theorem validName_of_mem_body (h : Component.normal n ∈ body p) : ValidName n := by
  obtain ⟨piece, hpiece, hn⟩ := List.mem_filterMap.1 h
  exact validName_of_component (not_mem_of_mem_splitOn hpiece) hn

theorem validName_of_mem_components (h : Component.normal n ∈ components p) : ValidName n := by
  unfold components at h
  split_ifs at h
  · exact validName_of_mem_body ((List.mem_cons.1 h).resolve_left (by simp))
  · exact validName_of_mem_body ((List.mem_cons.1 h).resolve_left (by simp))
  · exact validName_of_mem_body h

theorem body_append_sep (p q : Path) : body (p ++ sep :: q) = body p ++ body q := by
  simp [body, List.splitOn_append_cons_self]

theorem components_of_isAbsolute (h : isAbsolute p = true) :
    components p = .rootDir :: body p := by
  simp [components, h]

/-- `..` is a component of a path exactly if it stands between two separators. -/
theorem parentDir_mem_body : Component.parentDir ∈ body p ↔ [dot, dot] ∈ p.splitOn sep := by
  constructor
  · intro h
    obtain ⟨piece, hpiece, hc⟩ := List.mem_filterMap.1 h
    unfold component at hc
    split_ifs at hc with h1 h2
    · exact h2 ▸ hpiece
    · cases hc
  · intro h
    exact List.mem_filterMap.2 ⟨_, h, by decide⟩

/-! ## Canonical spellings

A canonical path and its list of names are the same thing.  The lemmas go from the spelling to the
list, where everything is an equation between lists. -/

theorem filterMap_component (h : ∀ n ∈ ns, ValidName n) :
    ns.filterMap component = ns.map Component.normal := by
  induction ns with
  | nil => rfl
  | cons n ns ih =>
    rw [List.filterMap_cons_some (component_of_validName (h n List.mem_cons_self)),
      ih (fun m hm => h m (List.mem_cons_of_mem _ hm)), List.map_cons]

/-- Canonical spellings grow at the end. -/
theorem renderAbs_append (hne : ns ≠ []) (n : Path) :
    renderAbs (ns ++ [n]) = renderAbs ns ++ sep :: n := by
  have key : ∀ {ns : List Path}, ns ≠ [] →
      [sep].intercalate (ns ++ [n]) = [sep].intercalate ns ++ sep :: n := by
    intro ns hne
    induction ns with
    | nil => exact absurd rfl hne
    | cons m ns ih =>
      cases ns with
      | nil => simp
      | cons m' ns =>
        have ih := ih (by simp)
        rw [List.cons_append] at ih
        simp [ih]
  rw [renderAbs, key hne, renderAbs, List.cons_append]

/-- Only the root ends in a separator. -/
theorem getLast?_renderAbs (h : ∀ n ∈ ns, ValidName n) (hne : ns ≠ []) :
    (renderAbs ns).getLast? ≠ some sep := by
  obtain ⟨init, n, rfl⟩ := List.eq_nil_or_concat' ns |>.resolve_left hne
  have hn : ValidName n := h n (by simp)
  have hlast : (renderAbs (init ++ [n])).getLast? = n.getLast? := by
    have hget : ∀ q : Path, (q ++ sep :: n).getLast? = n.getLast? := by
      intro q
      rw [List.getLast?_append_of_ne_nil _ (by simp), List.getLast?_cons_of_ne_nil hn.1]
    by_cases hinit : init = []
    · subst hinit
      simpa [renderAbs] using hget []
    · rw [renderAbs_append hinit, hget]
  rw [hlast]
  intro hsep
  exact hn.2.2.2 (List.mem_of_getLast? hsep)

/-- The root is the only canonical path without names. -/
theorem renderAbs_eq_sep (h : ∀ n ∈ ns, ValidName n) : renderAbs ns = [sep] ↔ ns = [] := by
  constructor
  · intro heq
    by_contra hne
    exact getLast?_renderAbs h hne (by rw [heq]; rfl)
  · rintro rfl
    rfl

theorem body_renderAbs (h : ∀ n ∈ ns, ValidName n) :
    body (renderAbs ns) = ns.map Component.normal := by
  have hbody : body ([sep].intercalate ns) = ns.map Component.normal := by
    by_cases hne : ns = []
    · subst hne
      decide
    · rw [body, List.splitOn_intercalate sep (fun n hn => (h n hn).2.2.2) hne]
      exact filterMap_component h
  have hcons := body_append_sep [] ([sep].intercalate ns)
  rw [List.nil_append, body_nil, List.nil_append] at hcons
  rw [renderAbs, hcons, hbody]

/-- **A canonical spelling has the components it was made of**, so names and path determine each
other. -/
theorem components_renderAbs (h : ∀ n ∈ ns, ValidName n) :
    components (renderAbs ns) = .rootDir :: ns.map Component.normal := by
  rw [components_of_isAbsolute isAbsolute_renderAbs, body_renderAbs h]

theorem names_renderAbs (h : ∀ n ∈ ns, ValidName n) : names (renderAbs ns) = ns := by
  rw [names, body_renderAbs h, List.filterMap_map]
  exact List.filterMap_some

theorem validName_of_mem_names (h : n ∈ names p) : ValidName n := by
  obtain ⟨c, hc, hn⟩ := List.mem_filterMap.1 h
  cases c <;> cases hn
  exact validName_of_mem_body hc

theorem components_of_canonical (h : Canonical p) :
    components p = .rootDir :: (names p).map Component.normal := by
  conv_lhs => rw [← h]
  exact components_renderAbs fun _ => validName_of_mem_names

theorem map_text_normal (ns : List Path) : (ns.map Component.normal).map Component.text = ns := by
  simp [Function.comp_def, Component.text]

/-- The parent of a canonical path drops its last name; the root has none. -/
theorem parent_renderAbs (h : ∀ n ∈ ns, ValidName n) :
    parent (renderAbs ns) = if ns = [] then none else some (renderAbs ns.dropLast) := by
  rw [parent, components_renderAbs h]
  rcases List.eq_nil_or_concat ns with rfl | ⟨init, n, rfl⟩
  · rfl
  · rw [List.concat_eq_append, List.map_append, List.map_singleton, ← List.cons_append,
      List.getLast?_concat, List.dropLast_concat, List.dropLast_concat, if_neg (by simp)]
    simp only [render, map_text_normal]

/-! ## Joining

The components of a joined path are those of its parts, unless the second one is absolute. -/

theorem join_of_isAbsolute (h : isAbsolute name = true) : join p name = name := by
  simp [join, h]

/-- Behind a path a relative one adds its components. -/
theorem body_join (hname : isAbsolute name = false) : body (join p name) = body p ++ body name := by
  have hfalse : ¬isAbsolute name = true := by simp [hname]
  rw [join, if_neg hfalse]
  split
  · next hlast =>
    rcases hlast with rfl | hlast
    · rfl
    · obtain ⟨init, rfl⟩ := List.getLast?_eq_some_iff.1 hlast
      rw [List.append_assoc, List.singleton_append, body_append_sep, body_append_sep, body_nil,
        List.append_nil]
  · exact body_append_sep p name

theorem isAbsolute_join (hp : p ≠ []) (hname : isAbsolute name = false) :
    isAbsolute (join p name) = isAbsolute p := by
  have hfalse : ¬isAbsolute name = true := by simp [hname]
  have happend : ∀ q : Path, isAbsolute (p ++ q) = isAbsolute p := by
    obtain ⟨b, p, rfl⟩ := List.exists_cons_of_ne_nil hp
    exact fun q => rfl
  rw [join, if_neg hfalse]
  split
  · exact happend name
  · exact happend _

/-- Behind an absolute path nothing but its end changes. -/
theorem join_relative (hp : isAbsolute p = true) (hname : isAbsolute name = false) :
    isAbsolute (join p name) = true ∧ body (join p name) = body p ++ body name := by
  have hne : p ≠ [] := by rintro rfl; cases hp
  exact ⟨(isAbsolute_join hne hname).trans hp, body_join hname⟩

/-- **The components of a joined path.** -/
theorem components_join (hp : isAbsolute p = true) (hname : isAbsolute name = false) :
    components (join p name) = components p ++ body name := by
  obtain ⟨habs, hbody⟩ := join_relative hp hname
  rw [components_of_isAbsolute habs, components_of_isAbsolute hp, hbody, List.cons_append]

theorem isAbsolute_of_validName (h : ValidName n) : isAbsolute n = false := by
  rcases n with _ | ⟨b, n⟩
  · rfl
  · have hb : b ≠ sep := by rintro rfl; exact h.2.2.2 List.mem_cons_self
    simp [isAbsolute, hb]

theorem body_of_validName (h : ValidName n) : body n = [.normal n] := by
  rw [body, List.splitOn_eq_singleton h.2.2.2, List.filterMap_cons_some (component_of_validName h),
    List.filterMap_nil]

/-- Joining a name to a canonical path spells the longer path canonically. -/
theorem join_renderAbs (h : ∀ n ∈ ns, ValidName n) (hn : ValidName n) :
    join (renderAbs ns) n = renderAbs (ns ++ [n]) := by
  have hrel : ¬isAbsolute n = true := by simp [isAbsolute_of_validName hn]
  rw [join, if_neg hrel]
  by_cases hne : ns = []
  · subst hne
    show (if renderAbs [] = [] ∨ (renderAbs []).getLast? = some sep then _ else _) = _
    rw [if_pos (by decide)]
    simp [renderAbs]
  · have hnil : renderAbs ns ≠ [] := List.cons_ne_nil _ _
    rw [if_neg (not_or.2 ⟨hnil, getLast?_renderAbs h hne⟩), renderAbs_append hne]

/-! ## Below a root

By components, so that no spelling of the root matters. -/

theorem under_iff :
    Under root p ↔
      ∃ rest, components p = components root ++ rest ∧ Component.parentDir ∉ rest := by
  constructor
  · rintro ⟨⟨rest, hrest⟩, hnot⟩
    rw [← hrest, List.drop_left] at hnot
    exact ⟨rest, hrest.symm, hnot⟩
  · rintro ⟨rest, hrest, hnot⟩
    refine ⟨⟨rest, hrest.symm⟩, ?_⟩
    rwa [hrest, List.drop_left]

/-- Below a path under the root, a relative name stays under the root exactly if it has no
`..`. -/
theorem under_join (hp : Under root p) (habs : isAbsolute p = true)
    (hname : isAbsolute name = false) :
    Under root (join p name) ↔ Component.parentDir ∉ body name := by
  obtain ⟨rest, hrest, hnot⟩ := under_iff.1 hp
  have hcomp : components (join p name) = components root ++ (rest ++ body name) := by
    rw [components_join habs hname, hrest, List.append_assoc]
  constructor
  · intro h
    obtain ⟨rest', hrest', hnot'⟩ := under_iff.1 h
    rw [hcomp] at hrest'
    obtain rfl := List.append_cancel_left hrest'
    exact fun hmem => hnot' (List.mem_append_right _ hmem)
  · intro h
    exact under_iff.2 ⟨_, hcomp, fun hmem => (List.mem_append.1 hmem).elim hnot h⟩

/-- A proper prefix of the root is not below the root. -/
theorem not_under_dropLast (h : ∀ n ∈ ns, ValidName n) (hne : ns ≠ []) :
    ¬Under (renderAbs ns) (renderAbs ns.dropLast) := by
  intro hunder
  have hlen := hunder.1.length_le
  rw [components_renderAbs h,
    components_renderAbs (fun n hn => h n (List.mem_of_mem_dropLast hn))] at hlen
  have hpos := List.length_pos_iff.2 hne
  simp only [List.length_cons, List.length_map, List.length_dropLast] at hlen
  omega

/-! ## Resolution -/

theorem resolve_cons (stack : List Path) (c : Component) (cs : List Component) :
    resolve stack (c :: cs) = resolve (push stack c) cs := rfl

theorem resolve_append (stack : List Path) (cs ds : List Component) :
    resolve stack (cs ++ ds) = resolve (resolve stack cs) ds := List.foldl_append

/-- Names are put on top of the stack. -/
theorem resolve_map_normal (stack ns : List Path) :
    resolve stack (ns.map Component.normal) = stack ++ ns := by
  induction ns generalizing stack with
  | nil => rw [List.map_nil, List.append_nil, resolve, List.foldl_nil]
  | cons n ns ih => rw [List.map_cons, resolve_cons, ih, push, List.append_assoc,
      List.singleton_append]

/-- A root clears the stack, and a leading `.` does nothing. -/
theorem resolve_components (stack : List Path) (p : Path) :
    resolve stack (components p) = resolve (if isAbsolute p then [] else stack) (body p) := by
  rw [components]
  split_ifs <;> rfl

/-- **Joining a relative path goes on resolving.** -/
theorem resolve_components_join (stack : List Path) (p : Path) (hq : isAbsolute q = false) :
    resolve stack (components (join p q)) = resolve (resolve stack (components p)) (components q) := by
  have hrest : ∀ stack, resolve stack (components q) = resolve stack (body q) := by
    intro stack
    rw [resolve_components, hq, if_neg Bool.false_ne_true]
  rw [hrest, resolve_components, resolve_components, body_join hq, resolve_append]
  by_cases hp : p = []
  · subst hp
    have hnil : join [] q = q := by
      rw [join, if_neg (by simp [hq]), if_pos (Or.inl rfl), List.nil_append]
    rw [hnil, hq]
    rfl
  · rw [isAbsolute_join hp hq]

/-- Resolving names that are valid keeps the stack valid. -/
theorem validName_push {stack : List Path} {c : Component} (h : ∀ n ∈ stack, ValidName n)
    (hc : ∀ n, c = .normal n → ValidName n) : ∀ n ∈ push stack c, ValidName n := by
  intro n hn
  cases c with
  | rootDir => cases hn
  | curDir => exact h n hn
  | parentDir => exact h n (List.mem_of_mem_dropLast hn)
  | normal m =>
    rcases List.mem_append.1 hn with hn | hn
    · exact h n hn
    · exact hc n (by rw [List.mem_singleton.1 hn])

theorem validName_resolve {stack : List Path} {cs : List Component}
    (h : ∀ n ∈ stack, ValidName n) (hcs : ∀ n, Component.normal n ∈ cs → ValidName n) :
    ∀ n ∈ resolve stack cs, ValidName n := by
  induction cs generalizing stack with
  | nil => exact h
  | cons c cs ih =>
    refine ih (validName_push h ?_) (fun n hn => hcs n (List.mem_cons_of_mem _ hn))
    rintro n rfl
    exact hcs n List.mem_cons_self

end UnixPath
end DistributedPrograms
