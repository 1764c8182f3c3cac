import DistributedPrograms.Distfs.Server

/-!
# The paths below the root

`real_path` folds over the components of a request's path: a name is joined, `..` goes to the parent
unless this is the root, and a root leads back to the server's root.  That is lexical resolution on
a stack of names, with the names of the server's root below it.

* `Server.below stack` is the path of a stack of names, and `realPathStep_below` is the simulation:
  one step of the fold does to the path what `push` does to the stack.
* `realPath_eq`: `real_path` is the root followed by the resolution of the path.  From there come
  the facts that the other modules use: the result is absolute, it is under the root
  (`under_realPath`), a canonical path stays as it is where the root is `/`, and a path of the
  server's own gets the root in front of it once more (`realPath_below`).
* `realPath_resolves` is the law as a whole: it leads from the root through the names that are left
  when the components are resolved, it can go on from where it is behind any path, and twice is once
  only where the root is `/`.

The test for the root compares components, and so recognizes it however the path is spelled.
-/

set_option autoImplicit false

namespace DistributedPrograms
namespace Distfs
namespace Server

open UnixPath

/-- The path of a stack of names below the root.  With an empty stack it is the root itself. -/
def below (s : Server) (stack : List Path) : Path := renderAbs (names s.rootPath ++ stack)

variable (s : Server) {stack : List Path}

theorem validName_rootNames : ∀ n ∈ names s.rootPath, ValidName n :=
  fun _ => validName_of_mem_names

theorem validName_append (h : ∀ n ∈ stack, ValidName n) :
    ∀ n ∈ names s.rootPath ++ stack, ValidName n := by
  intro n hn
  rcases List.mem_append.1 hn with hn | hn
  · exact s.validName_rootNames n hn
  · exact h n hn

theorem rootPath_eq_sep : s.rootPath = [sep] ↔ names s.rootPath = [] := by
  conv_lhs => rw [← s.canonical]
  exact renderAbs_eq_sep s.validName_rootNames

@[simp] theorem below_nil : s.below [] = s.rootPath := by
  rw [below, List.append_nil]
  exact s.canonical

@[simp] theorem isAbsolute_below (stack : List Path) : isAbsolute (s.below stack) = true :=
  isAbsolute_renderAbs

theorem components_below (h : ∀ n ∈ stack, ValidName n) :
    components (s.below stack) = components s.rootPath ++ stack.map Component.normal := by
  rw [below, components_renderAbs (s.validName_append h), components_of_canonical s.canonical,
    List.map_append, List.cons_append]

/-- The test of `real_path` recognizes the root. -/
theorem components_below_eq_root (h : ∀ n ∈ stack, ValidName n) :
    components (s.below stack) = components s.rootPath ↔ stack = [] := by
  rw [components_below s h, List.append_right_eq_self, List.map_eq_nil_iff]

theorem under_below (h : ∀ n ∈ stack, ValidName n) : Under s.rootPath (s.below stack) :=
  under_iff.2 ⟨_, s.components_below h, by simp⟩

/-- The directory above the path of a stack: the path of the shorter stack, and above the root
whatever is above the root. -/
theorem parent_below (h : ∀ n ∈ stack, ValidName n) (hne : stack ≠ []) :
    parent (s.below stack) = some (s.below stack.dropLast) := by
  rw [below, parent_renderAbs (s.validName_append h), if_neg (by simp [hne]), below,
    List.dropLast_append_of_ne_nil hne]

/-- **One step of the fold does to the path what `push` does to the stack.**  At the root `..` does
nothing, and in front of a name it takes the last one away. -/
theorem realPathStep_below {c : Component} (h : ∀ n ∈ stack, ValidName n)
    (hc : ∀ n, c = .normal n → ValidName n) :
    s.realPathStep (s.below stack) c = s.below (push stack c) := by
  cases c with
  | rootDir => exact s.below_nil.symm
  | curDir => rfl
  | parentDir =>
    show (if components (s.below stack) = components s.rootPath then s.below stack
      else (parent (s.below stack)).getD s.rootPath) = s.below stack.dropLast
    by_cases hne : stack = []
    · rw [if_pos ((s.components_below_eq_root h).2 hne), hne, List.dropLast_nil]
    · rw [if_neg (mt (s.components_below_eq_root h).1 hne), s.parent_below h hne,
        Option.getD_some]
  | normal n =>
    show join (s.below stack) n = s.below (stack ++ [n])
    rw [below, join_renderAbs (s.validName_append h) (hc n rfl), List.append_assoc, below]

theorem foldl_realPathStep {cs : List Component} (h : ∀ n ∈ stack, ValidName n)
    (hcs : ∀ n, Component.normal n ∈ cs → ValidName n) :
    cs.foldl s.realPathStep (s.below stack) = s.below (resolve stack cs) := by
  induction cs generalizing stack with
  | nil => rfl
  | cons c cs ih =>
    have hc : ∀ n, c = .normal n → ValidName n := by
      rintro n rfl
      exact hcs n List.mem_cons_self
    rw [List.foldl_cons, s.realPathStep_below h hc,
      ih (validName_push h hc) (fun n hn => hcs n (List.mem_cons_of_mem _ hn)), resolve_cons]

/-- The names below the root that a request's path resolves to. -/
def stackOf (path : Path) : List Path := resolve [] (components path)

theorem validName_stackOf (path : Path) : ∀ n ∈ stackOf path, ValidName n :=
  validName_resolve (by simp) fun _ => validName_of_mem_components

/-- **`real_path` is the root followed by the resolution of the path.** -/
theorem realPath_eq (path : Path) : s.realPath path = s.below (stackOf path) := by
  have h : (components path).foldl s.realPathStep (s.below []) = s.below (stackOf path) :=
    s.foldl_realPathStep (by simp) fun n => validName_of_mem_components
  rwa [below_nil] at h

/-- The path through names resolves to these names. -/
theorem stackOf_renderAbs (h : ∀ n ∈ stack, ValidName n) : stackOf (renderAbs stack) = stack := by
  rw [stackOf, components_renderAbs h, resolve_cons, push, resolve_map_normal, List.nil_append]

/-- With the root `/` a canonical path stays as it is. -/
theorem realPath_of_canonical (hroot : s.rootPath = [sep]) {path : Path} (h : Canonical path) :
    s.realPath path = path := by
  rw [realPath_eq, below, s.rootPath_eq_sep.1 hroot, List.nil_append]
  conv_lhs => rw [← h, stackOf_renderAbs fun _ => validName_of_mem_names]
  exact h

theorem isAbsolute_realPath (path : Path) : isAbsolute (s.realPath path) = true := by
  rw [realPath_eq, isAbsolute_below]

/-- **`real_path` never leaves the root**, as far as its spelling goes. -/
theorem under_realPath (path : Path) : Under s.rootPath (s.realPath path) := by
  rw [realPath_eq]
  exact s.under_below (validName_stackOf path)

/-- **On a path of its own `real_path` puts the root in front again.**  It cannot tell such a path
from one of a client. -/
theorem realPath_below (h : ∀ n ∈ stack, ValidName n) :
    s.realPath (s.below stack) = s.below (names s.rootPath ++ stack) := by
  rw [realPath_eq, stackOf, components_below s h, components_of_canonical s.canonical,
    List.cons_append, ← List.map_append, resolve_cons, push, resolve_map_normal, List.nil_append]

/-- The path of a name in a directory. -/
theorem realPath_join_of_validName (path : Path) {name : Path} (h : ValidName name) :
    s.realPath (join path name) = join (s.realPath path) name := by
  have habs := isAbsolute_of_validName h
  have hstack : stackOf (join path name) = stackOf path ++ [name] := by
    rw [stackOf, resolve_components_join [] path habs, resolve_components, habs,
      if_neg Bool.false_ne_true, body_of_validName h]
    exact resolve_map_normal _ [name]
  rw [realPath_eq, realPath_eq, hstack, below, below,
    join_renderAbs (s.validName_append (validName_stackOf path)) h, List.append_assoc]

/-! ## The law

The path is made name by name, so resolution can be cut anywhere. -/

/-- The path of a stack is made name by name. -/
theorem foldl_join_below {rest : List Path} (h : ∀ n ∈ stack, ValidName n)
    (hrest : ∀ n ∈ rest, ValidName n) : rest.foldl join (s.below stack) = s.below (stack ++ rest) := by
  induction rest generalizing stack with
  | nil => rw [List.foldl_nil, List.append_nil]
  | cons n rest ih =>
    have hn : ValidName n := hrest n List.mem_cons_self
    have hpush := s.realPathStep_below (c := .normal n) h fun m hm => by cases hm; exact hn
    have hjoin : join (s.below stack) n = s.below (stack ++ [n]) := hpush
    have hstack : ∀ m ∈ stack ++ [n], ValidName m :=
      validName_push (c := .normal n) h fun m hm => by cases hm; exact hn
    rw [List.foldl_cons, hjoin, ih hstack fun m hm => hrest m (List.mem_cons_of_mem _ hm),
      List.append_assoc, List.singleton_append]

/-- The names of a path of the server, behind those of its root. -/
def stackIn (path : Path) : List Path := (names path).drop (names s.rootPath).length

theorem stackIn_below (h : ∀ n ∈ stack, ValidName n) : s.stackIn (s.below stack) = stack := by
  rw [stackIn, below, names_renderAbs (s.validName_append h), List.drop_left]

/-- **Twice is once only where the root is `/`.**  Anywhere else the second time puts the names of
the root in once more. -/
theorem realPath_realPath (path : Path) :
    s.realPath (s.realPath path) = s.realPath path ↔ s.rootPath = [sep] := by
  have hvalid := validName_stackOf path
  rw [s.realPath_eq path, s.realPath_below hvalid, rootPath_eq_sep]
  constructor
  · intro h
    have hstack := congrArg s.stackIn h
    rw [s.stackIn_below hvalid, s.stackIn_below (s.validName_append hvalid)] at hstack
    exact List.append_left_eq_self.1 hstack
  · intro h
    rw [h, List.nil_append]

/-- **`real_path` is lexical resolution below the root.**  It leads from the root through the names
that are left when the components are resolved on an empty stack, so it has the root as a component
prefix and no `..` behind it; and a relative path behind another one is resolved from where that one
leads. -/
theorem realPath_resolves (path : Path) :
    s.realPath path = (resolve [] (components path)).foldl join s.rootPath ∧
      Under s.rootPath (s.realPath path) ∧
      ∀ rest, isAbsolute rest = false → s.realPath (join path rest) =
        (resolve (s.stackIn (s.realPath path)) (components rest)).foldl join s.rootPath := by
  have hfold : ∀ stack, (∀ n ∈ stack, ValidName n) →
      stack.foldl join s.rootPath = s.below stack := by
    intro stack h
    have hjoin : stack.foldl join (s.below []) = s.below ([] ++ stack) :=
      s.foldl_join_below (by simp) h
    rwa [below_nil, List.nil_append] at hjoin
  have hpath := validName_stackOf path
  refine ⟨(s.realPath_eq path).trans (hfold _ hpath).symm, s.under_realPath path,
    fun rest hrest => ?_⟩
  have hjoin : stackOf (join path rest) = resolve (stackOf path) (components rest) :=
    resolve_components_join [] path hrest
  rw [s.realPath_eq path, s.stackIn_below hpath, ← hjoin, realPath_eq]
  exact (hfold _ (validName_stackOf _)).symm

/-- From `/src/a` on, `../b/./c` leads to `/src/b/c`. -/
theorem realPath_resolves_src :
    ∃ s : Server, s.rootPath = [sep, 115, 114, 99] ∧
      s.realPath (join [dot, dot, sep, 97] [dot, dot, sep, 98, sep, dot, sep, 99]) =
        [sep, 115, 114, 99, sep, 98, sep, 99] := by
  refine ⟨⟨[sep, 115, 114, 99], by decide⟩, rfl, ?_⟩
  rw [((Server.mk [sep, 115, 114, 99] (by decide)).realPath_resolves [dot, dot, sep, 97]).2.2
    [dot, dot, sep, 98, sep, dot, sep, 99] (by decide)]
  decide

end Server
end Distfs
end DistributedPrograms
