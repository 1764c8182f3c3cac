import Mathlib.Data.List.FinRange
import Mathlib.Logic.Function.Basic
import DistributedPrograms.Lib.FairMutex
import DistributedPrograms.Lib.Run

/-!
# The pool of clients

`distfs/src/mux.rs`.  Every request of the file system takes one of `n` connections for as long as
it runs: `Pool::get` gives `select_all` the lock futures of all of them, and keeps the first that is
ready.

`select_all` polls its futures in order.  A future that finds its mutex taken waits in the queue of
that mutex, so a task may wait in all queues at once; when it is woken, all futures are polled
again.  At the first that is ready, the others are taken out by `swap_remove` and dropped one after
the other: a place in a queue is given up, and a permit that has arrived in the meantime goes to the
next task.  Dropping the guard gives the permit back.

The tasks run in parallel and are cut wherever they touch a mutex.

What is not in the repository is taken from the documentation of the two crates:

* a `tokio::sync::Mutex` is fair: its permit goes to the tasks in the order in which their futures
  have first been polled (`FairMutex`);
* `select_all` polls its futures in the order of the list, returns at the first that is ready, and
  gives back the others in the order that `swap_remove` leaves, in which they are then dropped;
* a poll of a free mutex is ready.  The cooperative budget of tokio, for which such a poll may be
  pending once in a long while, is left out.

`PoolInv` is the invariant: who uses a client has the permit of its mutex, and who sleeps has a
place in every queue.  From it come `no_idle_client` and, with the order of the places,
`first_come_first_served`.
-/

set_option autoImplicit false

namespace DistributedPrograms
namespace Distfs
namespace Mux

variable {Task : Type} {n : Nat}

/-- Where a task stands.  Between two polls, and between two drops, other tasks go on. -/
inductive Get (n : Nat)
  /-- it has no request -/
  | outside
  /-- in `select_all`, with these futures left to poll; if there are none, it sleeps -/
  | polling (left : List (Fin n))
  /-- it has got the client `idx`, and has these futures left to drop -/
  | dropping (idx : Fin n) (left : List (Fin n))
  /-- it uses the client `idx` -/
  | leased (idx : Fin n)
deriving DecidableEq, Repr

/-- The client that a task has got. -/
def Get.client : Get n → Option (Fin n)
  | outside => none
  | polling _ => none
  | dropping idx _ => some idx
  | leased idx => some idx

/-- The mutexes of the clients, and the tasks. -/
structure Pool (Task : Type) (n : Nat) where
  inner : Fin n → FairMutex Task
  task : Task → Get n

/-- `Vec::swap_remove`: the last element takes the place of the one removed.  So the order in which
the futures are dropped is not that in which they were polled. -/
def swapRemove {α : Type} (l : List α) (i : Nat) : List α :=
  match l.getLast? with
  | some x => (l.set i x).dropLast
  | none => []

/-- What is left when the element at `i` is taken out. -/
theorem mem_swapRemove {α : Type} {l : List α} (hnodup : l.Nodup) {i : Nat} {a b : α}
    (hi : l[i]? = some a) : b ∈ swapRemove l i ↔ b ∈ l ∧ b ≠ a := by
  obtain ⟨init, x, rfl⟩ : ∃ init x, l = init ++ [x] := by
    refine ⟨l.dropLast, l.getLast (List.ne_nil_of_mem (List.mem_of_getElem? hi)), ?_⟩
    rw [List.dropLast_append_getLast]
  have hlt : i < (init ++ [x]).length := (List.getElem?_eq_some_iff.1 hi).1
  have hx : x ∉ init := fun hx => by
    simpa using List.disjoint_of_nodup_append hnodup hx (List.mem_singleton_self x)
  have hinit : init.Nodup := (List.nodup_append.1 hnodup).1
  rw [swapRemove, List.getLast?_concat]
  dsimp only
  rcases Nat.lt_or_ge i init.length with hlt' | hge
  · rw [List.getElem?_append_left hlt'] at hi
    rw [List.set_append_left _ _ hlt', List.dropLast_concat, List.mem_append, List.mem_singleton]
    have hax : a ≠ x := fun h => hx (h ▸ List.mem_of_getElem? hi)
    constructor
    · intro hb
      obtain ⟨k, hk⟩ := List.mem_iff_getElem?.1 hb
      rw [List.getElem?_set] at hk
      split at hk
      · obtain rfl := Option.some.inj hk
        exact ⟨Or.inr rfl, hax.symm⟩
      · next hik =>
        refine ⟨Or.inl (List.mem_of_getElem? hk), ?_⟩
        rintro rfl
        exact hik ((List.getElem?_inj hlt' hinit).1 (hi.trans hk.symm))
    · rintro ⟨hb | rfl, hne⟩
      · obtain ⟨k, hk⟩ := List.mem_iff_getElem?.1 hb
        refine List.mem_of_getElem? (i := k) ?_
        rw [List.getElem?_set_ne, hk]
        rintro rfl
        exact hne (Option.some.inj (hk.symm.trans hi))
      · exact List.mem_set hlt' _
  · obtain rfl : i = init.length := by simp at hlt; omega
    rw [List.getElem?_concat_length, Option.some.injEq] at hi
    subst hi
    rw [List.set_append_right _ _ le_rfl, Nat.sub_self, List.set_cons_zero, List.dropLast_concat,
      List.mem_append, List.mem_singleton]
    refine ⟨fun hb => ⟨Or.inl hb, fun h => hx (h ▸ hb)⟩, ?_⟩
    rintro ⟨hb | rfl, hne⟩
    · exact hb
    · exact absurd rfl hne

/-- What a task does next. -/
inductive PoolAction (Task : Type)
  /-- a request begins -/
  | get (t : Task)
  /-- `select_all` polls the next future -/
  | poll (t : Task)
  /-- the task is woken -/
  | wake (t : Task)
  /-- the next of the other futures is dropped -/
  | drop (t : Task)
  /-- the request is done, and its `Leased` is dropped -/
  | release (t : Task)
deriving DecidableEq, Repr

namespace Pool

variable [DecidableEq Task]

def setTask (s : Pool Task n) (t : Task) (g : Get n) : Pool Task n :=
  { s with task := Function.update s.task t g }

def setInner (s : Pool Task n) (i : Fin n) (m : FairMutex Task) : Pool Task n :=
  { s with inner := Function.update s.inner i m }

def step (s : Pool Task n) : PoolAction Task → Option (Pool Task n)
  | .get t =>
    match s.task t with
    | .outside => some (s.setTask t (.polling (List.finRange n)))
    | _ => none
  | .poll t =>
    match s.task t with
    | .polling (i :: left) =>
      let m := (s.inner i).poll t
      some ((s.setInner i m).setTask t
        (if m.owner = some t then .dropping i (swapRemove (List.finRange n) i) else .polling left))
    | _ => none
  | .wake t =>
    match s.task t with
    | .polling [] => some (s.setTask t (.polling (List.finRange n)))
    | _ => none
  | .drop t =>
    match s.task t with
    | .dropping idx (i :: left) =>
      some ((s.setInner i ((s.inner i).cancel t)).setTask t (.dropping idx left))
    | .dropping idx [] => some (s.setTask t (.leased idx))
    | _ => none
  | .release t =>
    match s.task t with
    | .leased idx => some ((s.setInner idx (s.inner idx).pass).setTask t .outside)
    | _ => none

/-- `Pool::new`, before the first request. -/
def new : Pool Task n where
  inner _ := FairMutex.free
  task _ := .outside

/-! ## What a step does

The step function as a relation, with what a step leaves to the other tasks. -/

variable {s s' : Pool Task n} {act : PoolAction Task} {t u : Task} {i j : Fin n} {g : Get n}

@[simp] theorem setTask_inner (s : Pool Task n) (t : Task) (g : Get n) :
    (s.setTask t g).inner = s.inner := rfl
omit [DecidableEq Task] in
@[simp] theorem setInner_task (s : Pool Task n) (i : Fin n) (m : FairMutex Task) :
    (s.setInner i m).task = s.task := rfl

@[simp] theorem setTask_task (s : Pool Task n) (t u : Task) (g : Get n) :
    (s.setTask t g).task u = if u = t then g else s.task u :=
  Function.update_apply ..

omit [DecidableEq Task] in
@[simp] theorem setInner_inner (s : Pool Task n) (i j : Fin n) (m : FairMutex Task) :
    (s.setInner i m).inner j = if j = i then m else s.inner j :=
  Function.update_apply ..

/-- The steps one by one. -/
inductive Step (s : Pool Task n) : PoolAction Task → Pool Task n → Prop
  | get {t : Task} (ht : s.task t = .outside) :
      Step s (.get t) (s.setTask t (.polling (List.finRange n)))
  | ready {t : Task} {i : Fin n} {left : List (Fin n)} (ht : s.task t = .polling (i :: left))
      (hready : ((s.inner i).poll t).owner = some t) :
      Step s (.poll t) ((s.setInner i ((s.inner i).poll t)).setTask t
        (.dropping i (swapRemove (List.finRange n) i)))
  | pending {t : Task} {i : Fin n} {left : List (Fin n)} (ht : s.task t = .polling (i :: left))
      (hpending : ((s.inner i).poll t).owner ≠ some t) :
      Step s (.poll t) ((s.setInner i ((s.inner i).poll t)).setTask t (.polling left))
  | wake {t : Task} (ht : s.task t = .polling []) :
      Step s (.wake t) (s.setTask t (.polling (List.finRange n)))
  | drop {t : Task} {idx i : Fin n} {left : List (Fin n)}
      (ht : s.task t = .dropping idx (i :: left)) :
      Step s (.drop t) ((s.setInner i ((s.inner i).cancel t)).setTask t (.dropping idx left))
  | dropped {t : Task} {idx : Fin n} (ht : s.task t = .dropping idx []) :
      Step s (.drop t) (s.setTask t (.leased idx))
  | release {t : Task} {idx : Fin n} (ht : s.task t = .leased idx) :
      Step s (.release t) ((s.setInner idx (s.inner idx).pass).setTask t .outside)

theorem step_cases (h : s.step act = some s') : Step s act s' := by
  cases act with
  | poll t =>
    simp only [step] at h
    split at h
    · next i left ht =>
      obtain ⟨⟩ := h
      split
      · next hready => exact .ready ht hready
      · next hpending => exact .pending ht hpending
    · contradiction
  | drop t =>
    simp only [step] at h
    split at h
    · next ht =>
      obtain ⟨⟩ := h
      exact .drop ht
    · next ht =>
      obtain ⟨⟩ := h
      exact .dropped ht
    · contradiction
  | _ t =>
    simp only [step] at h
    split at h
    · obtain ⟨⟩ := h
      constructor
      assumption
    · contradiction

/-! ## The invariant

Where a task may have a place, and where it must have one. -/

/-- A task at this point may have a place at the mutex `i`. -/
def May (i : Fin n) : Get n → Prop
  | .outside => False
  | .polling _ => True
  | .dropping idx left => i = idx ∨ i ∈ left
  | .leased idx => i = idx

/-- A task at this point has polled the future `i`. -/
def Polled (i : Fin n) : Get n → Prop
  | .outside => False
  | .polling left => i ∉ left
  | .dropping _ _ => False
  | .leased _ => False

/-- A task drops the other futures only. -/
def KeepsClient : Get n → Prop
  | .outside => True
  | .polling _ => True
  | .dropping idx left => idx ∉ left
  | .leased _ => True

/-- Places and tasks fit together: a task has places only where it has polled and not yet dropped,
and has the permit of the client it has got. -/
structure PoolInv (s : Pool Task n) : Prop where
  may : ∀ t i, (s.inner i).Holds t → May i (s.task t)
  polled : ∀ t i, Polled i (s.task t) → (s.inner i).Holds t
  owner : ∀ t i, (s.task t).client = some i → (s.inner i).owner = some t
  keeps : ∀ t, KeepsClient (s.task t)

omit [DecidableEq Task] in
theorem poolInv_new : PoolInv (new : Pool Task n) where
  may _ _ h := FairMutex.not_holds_free h
  polled _ _ h := absurd h id
  owner _ _ h := by cases h
  keeps _ := trivial

/-- What one task does leaves the others as they are, but that a permit may be handed to one of
them. -/
structure Others (t : Task) (s s' : Pool Task n) : Prop where
  task : ∀ u, u ≠ t → s'.task u = s.task u
  holds : ∀ u, u ≠ t → ∀ i, (s'.inner i).Holds u ↔ (s.inner i).Holds u
  owner : ∀ u, u ≠ t → ∀ i, (s.inner i).owner = some u → (s'.inner i).owner = some u

theorem others_setTask (g : Get n) : Others t s (s.setTask t g) where
  task u hu := by rw [setTask_task, if_neg hu]
  holds _ _ _ := Iff.rfl
  owner _ _ _ h := h

theorem Others.setTask (h : Others t s s') (g : Get n) : Others t s (s'.setTask t g) where
  task u hu := by rw [setTask_task, if_neg hu, h.task u hu]
  holds u hu i := h.holds u hu i
  owner u hu i ho := h.owner u hu i ho

theorem others_poll : Others t s (s.setInner i ((s.inner i).poll t)) where
  task _ _ := rfl
  holds u hu j := by
    rw [setInner_inner]
    split
    · next hji => rw [FairMutex.holds_poll, or_iff_left hu, hji]
    · exact Iff.rfl
  owner u hu j ho := by
    rw [setInner_inner]
    split
    · next hji =>
      subst hji
      rw [FairMutex.poll_owner, if_neg (by simp [ho]), ho]
    · exact ho

theorem others_cancel : Others t s (s.setInner i ((s.inner i).cancel t)) where
  task _ _ := rfl
  holds u hu j := by
    rw [setInner_inner]
    split
    · next hji => rw [FairMutex.holds_cancel, and_iff_left hu, hji]
    · exact Iff.rfl
  owner u hu j ho := by
    rw [setInner_inner]
    split
    · next hji =>
      subst hji
      rw [FairMutex.cancel_owner_of_ne, ho]
      exact fun ht => hu (Option.some.inj (ho.symm.trans ht))
    · exact ho

/-- What has to be seen of the one that moves. -/
theorem PoolInv.of_others (h : PoolInv s) (ho : Others t s s')
    (hmay : ∀ i, (s'.inner i).Holds t → May i (s'.task t))
    (hpolled : ∀ i, Polled i (s'.task t) → (s'.inner i).Holds t)
    (howner : ∀ i, (s'.task t).client = some i → (s'.inner i).owner = some t)
    (hkeeps : KeepsClient (s'.task t)) : PoolInv s' where
  may u i hu := by
    by_cases hut : u = t
    · exact hut ▸ hmay i (hut ▸ hu)
    · rw [ho.task u hut]
      exact h.may u i ((ho.holds u hut i).1 hu)
  polled u i hu := by
    by_cases hut : u = t
    · exact hut ▸ hpolled i (hut ▸ hu)
    · rw [ho.task u hut] at hu
      exact (ho.holds u hut i).2 (h.polled u i hu)
  owner u i hu := by
    by_cases hut : u = t
    · exact hut ▸ howner i (hut ▸ hu)
    · rw [ho.task u hut] at hu
      exact ho.owner u hut i (h.owner u i hu)
  keeps u := by
    by_cases hut : u = t
    · exact hut ▸ hkeeps
    · rw [ho.task u hut]
      exact h.keeps u

/-- A task that begins to poll, or begins again, has all futures before it. -/
theorem PoolInv.setPolling (h : PoolInv s) :
    PoolInv (s.setTask t (.polling (List.finRange n))) := by
  refine h.of_others (others_setTask _) ?_ ?_ ?_ ?_ <;> simp only [setTask_task, if_true]
  · exact fun _ _ => trivial
  · exact fun i hi => absurd (List.mem_finRange i) hi
  · exact fun i hi => by cases hi
  · exact trivial

/-- The first future that is ready gives its client, and the others are left to be dropped. -/
theorem PoolInv.ready (h : PoolInv s) (hready : ((s.inner i).poll t).owner = some t) :
    PoolInv ((s.setInner i ((s.inner i).poll t)).setTask t
      (.dropping i (swapRemove (List.finRange n) i))) := by
  refine h.of_others (others_poll.setTask _) ?_ ?_ ?_ ?_ <;> simp only [setTask_task, if_true]
  · intro j _
    by_cases hji : j = i
    · exact Or.inl hji
    · refine Or.inr ((mem_swapRemove (List.nodup_finRange n) ?_).2 ⟨List.mem_finRange j, hji⟩)
      simp
  · exact fun _ hi => absurd hi id
  · intro j hj
    obtain rfl := Option.some.inj hj
    rw [setTask_inner, setInner_inner, if_pos rfl, hready]
  · intro hmem
    exact ((mem_swapRemove (List.nodup_finRange n) (by simp)).1 hmem).2 rfl

/-- A future that is pending has its place in the queue. -/
theorem PoolInv.pending (h : PoolInv s) {left : List (Fin n)}
    (ht : s.task t = .polling (i :: left)) :
    PoolInv ((s.setInner i ((s.inner i).poll t)).setTask t (.polling left)) := by
  refine h.of_others (others_poll.setTask _) ?_ ?_ ?_ ?_ <;> simp only [setTask_task, if_true]
  · exact fun _ _ => trivial
  · intro j hj
    rw [setTask_inner, setInner_inner]
    split
    · exact FairMutex.holds_poll.2 (Or.inr rfl)
    · next hji =>
      refine h.polled t j ?_
      rw [ht]
      exact fun hmem => (List.mem_cons.1 hmem).elim hji hj
  · exact fun _ hi => by cases hi
  · exact trivial

/-- After a cancelled future the task has no place at that mutex. -/
theorem holds_cancel (hj : (((s.setInner i ((s.inner i).cancel t)).setTask t g).inner j).Holds t) :
    j ≠ i ∧ (s.inner j).Holds t := by
  rw [setTask_inner, setInner_inner] at hj
  split at hj
  · exact absurd rfl (FairMutex.holds_cancel.1 hj).2
  · next hji => exact ⟨hji, hj⟩

/-- A future that is dropped gives its place back, and is never that of the client. -/
theorem PoolInv.drop (h : PoolInv s) {idx : Fin n} {left : List (Fin n)}
    (ht : s.task t = .dropping idx (i :: left)) :
    PoolInv ((s.setInner i ((s.inner i).cancel t)).setTask t (.dropping idx left)) := by
  have hkeeps := h.keeps t
  rw [ht] at hkeeps
  have hne : idx ≠ i := fun hi => hkeeps (hi ▸ List.mem_cons_self)
  refine h.of_others (others_cancel.setTask _) ?_ ?_ ?_ ?_
  · intro j hj
    obtain ⟨hji, hj⟩ := holds_cancel hj
    have hmay := h.may t j hj
    rw [ht] at hmay
    rw [setTask_task, if_pos rfl]
    exact hmay.imp id fun hmem => (List.mem_cons.1 hmem).resolve_left hji
  all_goals simp only [setTask_task, if_true]
  · exact fun _ hi => absurd hi id
  · intro j hj
    obtain rfl := Option.some.inj hj
    rw [setTask_inner, setInner_inner, if_neg hne]
    exact h.owner t idx (by rw [ht]; rfl)
  · exact fun hmem => hkeeps (List.mem_cons_of_mem _ hmem)

/-- With all other futures dropped, the only place left is that of the client. -/
theorem PoolInv.dropped (h : PoolInv s) {idx : Fin n} (ht : s.task t = .dropping idx []) :
    PoolInv (s.setTask t (.leased idx)) := by
  refine h.of_others (others_setTask _) ?_ ?_ ?_ ?_ <;> simp only [setTask_task, if_true]
  · intro j hj
    have hmay := h.may t j hj
    rw [ht] at hmay
    exact hmay.resolve_right List.not_mem_nil
  · exact fun _ hi => absurd hi id
  · intro j hj
    obtain rfl := Option.some.inj hj
    exact h.owner t idx (by rw [ht]; rfl)
  · exact trivial

/-- A task that gives its client back has no place left. -/
theorem PoolInv.release (h : PoolInv s) {idx : Fin n} (ht : s.task t = .leased idx) :
    PoolInv ((s.setInner idx (s.inner idx).pass).setTask t .outside) := by
  rw [← FairMutex.cancel_of_owner (h.owner t idx (by rw [ht]; rfl))]
  refine h.of_others (others_cancel.setTask _) ?_ ?_ ?_ ?_
  · intro j hj
    obtain ⟨hji, hj⟩ := holds_cancel hj
    have hmay := h.may t j hj
    rw [ht] at hmay
    exact absurd hmay hji
  all_goals simp only [setTask_task, if_true]
  · exact fun _ hi => absurd hi id
  · exact fun _ hi => by cases hi
  · exact trivial

/-- **The invariant survives every step.** -/
theorem PoolInv.step (h : PoolInv s) (hs : s.step act = some s') : PoolInv s' := by
  cases step_cases hs with
  | get ht => exact h.setPolling
  | ready ht hready => exact h.ready hready
  | pending ht hpending => exact h.pending ht
  | wake ht => exact h.setPolling
  | drop ht => exact h.drop ht
  | dropped ht => exact h.dropped ht
  | release ht => exact h.release ht

/-! ## No client is idle while a request waits

A task that sleeps has a place in every queue, so every permit is with somebody; and who has a
permit uses it, or is about to move. -/

/-- A task that will move without anybody else: it polls, it drops, or it has been handed a client
in its sleep.  A task that uses a client is none; it may do so as long as it likes. -/
def Working (s : Pool Task n) (t : Task) : Prop :=
  match s.task t with
  | .outside => False
  | .polling [] => ∃ i, (s.inner i).owner = some t
  | .polling (_ :: _) => True
  | .dropping _ _ => True
  | .leased _ => False

omit [DecidableEq Task] in
/-- Whoever has a permit uses it or will move. -/
theorem PoolInv.leased_or_working (h : PoolInv s) (ho : (s.inner i).owner = some t) :
    s.task t = .leased i ∨ s.Working t := by
  have hmay := h.may t i (Or.inl ho)
  rw [Working]
  cases ht : s.task t with
  | outside =>
    rw [ht] at hmay
    exact absurd hmay id
  | polling left =>
    cases left with
    | nil => exact Or.inr ⟨i, ho⟩
    | cons j left => exact Or.inr trivial
  | dropping idx left => exact Or.inr trivial
  | leased idx =>
    rw [ht] at hmay
    exact Or.inl (congrArg _ hmay.symm)

variable {tr : List (Pool Task n)}

theorem poolInv_run (hrun : Run Pool.step (fun _ _ => True) new tr) :
    ∀ s ∈ tr, PoolInv (s : Pool Task n) :=
  Run.forall_mem poolInv_new (fun _ _ _ _ _ _ h hs => h.step hs) hrun

/-- **Exclusive, and never idle.**  At every moment no two tasks have the same client, and while a
task sleeps that has been handed nothing, every client is used by another task or about to be taken
or handed on by one; so if nobody is about to move, all clients are in use. -/
theorem no_idle_client (hrun : Run Pool.step (fun _ _ => True) new tr) :
    ∀ s ∈ tr, (∀ t u i, (s.task t).client = some i → (s.task u).client = some i → t = u) ∧
      ∀ t, (s : Pool Task n).task t = .polling [] → ¬s.Working t →
        ∀ i, ∃ u, u ≠ t ∧ (s.task u = .leased i ∨ (s.inner i).owner = some u ∧ s.Working u) := by
  intro s hs
  have h := poolInv_run hrun s hs
  refine ⟨fun t u i ht hu => ?_, fun t ht hwork i => ?_⟩
  · exact Option.some.inj ((h.owner t i ht).symm.trans (h.owner u i hu))
  · have hplace : (s.inner i).Holds t := h.polled t i (by rw [ht]; exact List.not_mem_nil)
    obtain ⟨u, hu⟩ := FairMutex.exists_owner hplace
    refine ⟨u, ?_, (h.leased_or_working hu).imp_right fun hwork => ⟨hu, hwork⟩⟩
    rintro rfl
    rw [Working, ht] at hwork
    exact hwork ⟨i, hu⟩

/-! ## First come, first served

Places in a queue are given in order and are kept, so a task that sleeps stays in front of all that
come later, at every client. -/

/-- `t` waits for a client, with its place in front of `u` everywhere, or `u` has no place there
yet. -/
structure Queued (t u : Task) (s : Pool Task n) : Prop where
  waits : ∃ left, s.task t = .polling left
  ahead : ∀ i, (s.inner i).Ahead t u

omit [DecidableEq Task] in
/-- A task that sleeps is in front of one whose request has not begun. -/
theorem PoolInv.queued (h : PoolInv s) (ht : s.task t = .polling []) (hu : s.task u = .outside) :
    Queued t u s where
  waits := ⟨[], ht⟩
  ahead i := by
    have hplace : (s.inner i).Holds t := h.polled t i (by rw [ht]; exact List.not_mem_nil)
    refine hplace.ahead fun hplace' => ?_
    have hmay := h.may u i hplace'
    rw [hu] at hmay
    exact hmay

omit [DecidableEq Task] in
/-- Only a task that waits already is queued. -/
theorem Queued.task_ne (h : Queued t u s) {w : Task} (hw : ∀ left, s.task w ≠ .polling left) :
    t ≠ w := by
  obtain ⟨left, ht⟩ := h.waits
  rintro rfl
  exact hw left ht

theorem Queued.setTask (h : Queued t u s) {w : Task} {g : Get n}
    (hg : t = w → ∃ left, g = .polling left) : Queued t u (s.setTask w g) where
  waits := by
    rw [setTask_task]
    split
    · next htw => exact hg htw
    · exact h.waits
  ahead := h.ahead

omit [DecidableEq Task] in
theorem Queued.setInner (h : Queued t u s) {m : FairMutex Task} (hm : m.Ahead t u) :
    Queued t u (s.setInner i m) where
  waits := h.waits
  ahead j := by
    rw [setInner_inner]
    split
    · exact hm
    · exact h.ahead j

/-- **It stays in front** until it gets a client. -/
theorem Queued.step (h : Queued t u s) (hinv : PoolInv s) (hs : s.step act = some s')
    (hnone : (s'.task t).client = none) : Queued t u s' := by
  cases step_cases hs with
  | @get w hw =>
    have htw : t ≠ w := h.task_ne fun left hl => by rw [hl] at hw; cases hw
    exact h.setTask fun heq => absurd heq htw
  | @ready w i left hw hready =>
    refine (h.setInner (h.ahead i).poll).setTask fun heq => ?_
    subst heq
    rw [setTask_task, if_pos rfl] at hnone
    cases hnone
  | @pending w i left hw hpending =>
    exact (h.setInner (h.ahead i).poll).setTask fun _ => ⟨left, rfl⟩
  | @wake w hw => exact h.setTask fun _ => ⟨_, rfl⟩
  | @drop w idx i left hw =>
    have htw : t ≠ w := h.task_ne fun left hl => by rw [hl] at hw; cases hw
    exact (h.setInner ((h.ahead i).cancel htw)).setTask fun heq => absurd heq htw
  | @dropped w idx hw =>
    have htw : t ≠ w := h.task_ne fun left hl => by rw [hl] at hw; cases hw
    exact h.setTask fun heq => absurd heq htw
  | @release w idx hw =>
    have htw : t ≠ w := h.task_ne fun left hl => by rw [hl] at hw; cases hw
    rw [← FairMutex.cancel_of_owner (hinv.owner w idx (by rw [hw]; rfl))]
    exact (h.setInner ((h.ahead idx).cancel htw)).setTask fun heq => absurd heq htw

omit [DecidableEq Task] in
/-- Whoever is queued behind another has got nothing. -/
theorem Queued.client (h : Queued t u s) (hinv : PoolInv s) (htu : t ≠ u) :
    (s.task u).client = none := by
  cases hu : (s.task u).client with
  | none => rfl
  | some i => exact absurd (hinv.owner u i hu) ((h.ahead i).owner_ne htu)

/-- **First come, first served.**  If a task sleeps in `get` when the request of another begins,
then the other gets no client before the first has got one. -/
theorem first_come_first_served {v : Pool Task n} {rest : List (Pool Task n)}
    (ht : v.task t = .polling []) (hu : v.task u = .outside) :
    ∀ {later : List (Pool Task n)}, Run Pool.step (fun _ _ => True) new (later ++ v :: rest) →
      (∀ s ∈ later, (s.task t).client = none) → ∀ s ∈ later, (s.task u).client = none := by
  have htu : t ≠ u := by
    rintro rfl
    rw [ht] at hu
    cases hu
  intro later hrun hnone s hs
  -- `t` is queued in front of `u` at every moment since
  have hqueued : ∀ s ∈ later ++ [v], Queued t u s := by
    refine Run.forall_later_while (N := fun s => (s.task t).client = none) ?_ hrun ?_ hnone
    · intro r tr act r' hr _ hqueued hstep hr'
      exact hqueued.step (poolInv_run hr r List.mem_cons_self) hstep hr'
    · exact (poolInv_run hrun v (by simp)).queued ht hu
  have hmem : s ∈ later ++ v :: rest := List.mem_append_left _ hs
  exact (hqueued s (List.mem_append_left _ hs)).client (poolInv_run hrun s hmem) htu

/-! ## A run -/

/-- Tasks 0 and 1 get the two clients, and task 2 finds none and sleeps. -/
def twoInUse : List (PoolAction Nat) :=
  [.get 0, .poll 0, .drop 0, .drop 0, .get 1, .poll 1, .poll 1, .drop 1, .drop 1, .get 2, .poll 2,
    .poll 2]

theorem no_idle_client_two : ∃ (s : Pool Nat 2) (tr : List (Pool Nat 2)),
    Run Pool.step (fun _ _ => True) new (s :: tr) ∧ s.task 2 = .polling [] ∧
      ∀ i, ∃ u, u ≠ 2 ∧ (s.task u = .leased i ∨ (s.inner i).owner = some u ∧ s.Working u) := by
  have hcheck : Run.check Pool.step (fun _ _ => true) (new : Pool Nat 2) twoInUse (fun
      | [] => false
      | s :: _ => decide (s.task 2 = .polling []) &&
          decide (∀ i, (s.inner i).owner ≠ some 2)) = true := by
    decide +kernel
  obtain ⟨tr, hrun, hp⟩ := Run.exists_of_check (C := fun _ _ => True) (fun _ _ _ => trivial) hcheck
  cases tr with
  | nil => exact absurd hp (by simp)
  | cons s tr =>
    simp only [Bool.and_eq_true, decide_eq_true_eq] at hp
    have hwork : ¬s.Working 2 := by
      rw [Working, hp.1]
      rintro ⟨i, hi⟩
      exact hp.2 i hi
    exact ⟨s, tr, hrun, hp.1, (no_idle_client hrun s List.mem_cons_self).2 2 hp.1 hwork⟩

/-- A client is given back: it goes to task 2, not to task 3, which comes later. -/
theorem first_come_first_served_two : ∃ (s' s : Pool Nat 2) (tr : List (Pool Nat 2)),
    Run Pool.step (fun _ _ => True) new (s' :: s :: tr) ∧ s.task 2 = .polling [] ∧
      (s'.task 3).client = none := by
  have hcheck : Run.checkStep Pool.step (fun _ _ => true) (new : Pool Nat 2) twoInUse (.release 1)
      (fun s' s _ => decide (s.task 2 = .polling []) && decide (s.task 3 = .outside) &&
        decide ((s'.task 2).client = none)) = true := by
    decide +kernel
  obtain ⟨s', s, tr, hrun, -, hp⟩ :=
    Run.exists_of_checkStep (C := fun _ _ => True) (fun _ _ _ => trivial) hcheck
  simp only [Bool.and_eq_true, decide_eq_true_eq] at hp
  obtain ⟨⟨ht, hu⟩, hnone⟩ := hp
  have hfirst : ∀ s ∈ [s'], (s.task 3).client = none :=
    first_come_first_served ht hu hrun (by simpa using hnone)
  exact ⟨s', s, tr, hrun, ht, hfirst s' (List.mem_singleton_self _)⟩

end Pool

end Mux
end Distfs
end DistributedPrograms
