import Mathlib.Data.List.Lex
import Mathlib.Logic.Function.Basic
import DistributedPrograms.Lib.Run

/-!
# The rounds of the C ring

`ring/ring.c`: the thread `heatbeater` and the handlers `list`, `election` and `coordinate`.

The coordinator sends a `list` around the ring against `prev` every two seconds.  A process that has
not handled a `list` for three seconds sends an `election` around; it comes back with everybody on
it, and is followed by a `coordinate` with these members, at which each process decides whether it
is the coordinator: the one whose address comes first in the order of `strcmp`.

The responses of the three RPCs are disabled, so `margo_forward` only sends, and every handler runs
as a thread of its own.  A handler is cut where it takes and gives back `join_lock`; between two
cuts it touches no other memory of its process than what stands in its step.  The sleeps of
`heatbeater` are points at which it may stand for any time.  `relink` is what `join`, `set_prev` and
`join_ring` do to `env.prev`.

Calls do not fail.  The address that `margo_addr_lookup` finds for a name and the name that
`margo_addr_to_string` prints for it are one.
-/

set_option autoImplicit false

namespace DistributedPrograms
namespace CRing

/-! ## Names

`strcmp` compares bytes as unsigned numbers, and the shorter of two strings that begin alike comes
first.  Its sign is all that the code looks at. -/

/-- A C string: the bytes in front of its terminating zero. -/
structure Name where
  bytes : List UInt8
  not_nul : 0 ∉ bytes
deriving DecidableEq, Repr

namespace Name

/-- The loop of `strcmp`, where the end of a list stands for the terminating zero. -/
def strcmpBytes : List UInt8 → List UInt8 → Int
  | [], [] => 0
  | [], b :: _ => 0 - b.toNat
  | a :: _, [] => a.toNat - 0
  | a :: s, b :: t => if a = b then strcmpBytes s t else a.toNat - b.toNat

def strcmp (s t : Name) : Int := strcmpBytes s.bytes t.bytes

/-- The bytes as numbers: `strcmp` compares them in the order of these lists. -/
def key (s : Name) : List Nat := s.bytes.map UInt8.toNat

theorem key_injective : Function.Injective key := by
  intro s t h
  have hbytes : s.bytes = t.bytes := List.map_injective_iff.2 (fun _ _ => UInt8.toNat_inj.1) h
  cases s
  cases t
  simpa using hbytes

theorem toNat_ne_zero {b : UInt8} {s : List UInt8} (h : 0 ∉ b :: s) : b.toNat ≠ 0 := fun hb =>
  h (by simp [UInt8.toNat_inj.1 (hb.trans UInt8.toNat_zero.symm)])

theorem strcmpBytes_eq_zero_iff : ∀ {s t : List UInt8}, 0 ∉ s → 0 ∉ t →
    (strcmpBytes s t = 0 ↔ s = t)
  | [], [], _, _ => by simp [strcmpBytes]
  | [], _ :: _, _, ht => by simp [strcmpBytes, toNat_ne_zero ht]
  | _ :: _, [], hs, _ => by simp [strcmpBytes, toNat_ne_zero hs]
  | a :: s, b :: t, hs, ht => by
    rw [strcmpBytes]
    split
    · next hab =>
      rw [strcmpBytes_eq_zero_iff (List.not_mem_of_not_mem_cons hs)
        (List.not_mem_of_not_mem_cons ht), hab, List.cons_inj_right]
    · next hab =>
      have hne : a.toNat ≠ b.toNat := fun h => hab (UInt8.toNat_inj.1 h)
      refine ⟨fun h => absurd h (by omega), fun h => absurd (List.cons.inj h).1 hab⟩

theorem strcmpBytes_pos_iff : ∀ {s t : List UInt8}, 0 ∉ s → 0 ∉ t →
    (0 < strcmpBytes s t ↔ t.map UInt8.toNat < s.map UInt8.toNat)
  | [], [], _, _ => by simp [strcmpBytes]
  | [], _ :: _, _, _ => by simp [strcmpBytes]
  | a :: _, [], hs, _ => by
    have ha := toNat_ne_zero hs
    have hpos : 0 < (a.toNat : Int) - 0 := by omega
    simpa [strcmpBytes] using hpos
  | a :: s, b :: t, hs, ht => by
    rw [strcmpBytes, List.map_cons, List.map_cons, List.cons_lt_cons_iff]
    split
    · next hab =>
      rw [strcmpBytes_pos_iff (List.not_mem_of_not_mem_cons hs)
        (List.not_mem_of_not_mem_cons ht), hab]
      simp
    · next hab =>
      have hne : a.toNat ≠ b.toNat := fun h => hab (UInt8.toNat_inj.1 h)
      omega

/-- Only equal names compare equal. -/
theorem strcmp_eq_zero_iff {s t : Name} : strcmp s t = 0 ↔ s = t := by
  rw [strcmp, strcmpBytes_eq_zero_iff s.not_nul t.not_nul]
  cases s
  cases t
  simp

theorem strcmp_pos_iff {s t : Name} : 0 < strcmp s t ↔ t.key < s.key :=
  strcmpBytes_pos_iff s.not_nul t.not_nul

end Name

/-! ## Lists of names

What is done with the strings and the lists of `ring.c`. -/

/-- `node_list_t`; its `len` is the length of the list.  The names are strings of their own, so
nothing is shared between two lists. -/
abbrev NodeList := List Name

def pushName (nodeList : NodeList) (name : Name) : NodeList := nodeList ++ [name]

def nodeListIncludeMyName (me : Name) (list : NodeList) : Bool :=
  list.any fun name => name.strcmp me = 0

def checkAmICoordinator (me : Name) (list : NodeList) : Bool :=
  !list.any fun name => 0 < me.strcmp name

theorem nodeListIncludeMyName_iff {me : Name} {list : NodeList} :
    nodeListIncludeMyName me list = true ↔ me ∈ list := by
  simp [nodeListIncludeMyName, Name.strcmp_eq_zero_iff]

theorem checkAmICoordinator_iff {me : Name} {list : NodeList} :
    checkAmICoordinator me list = true ↔ ∀ name ∈ list, me.key ≤ name.key := by
  simp [checkAmICoordinator, Name.strcmp_pos_iff]

/-! ## Processes

The three handlers differ only in the list that they collect on and in what follows when an RPC has
come back (`Process.enter_handler`), so they share their places. -/

/-- The values of `coordinator_called_flag`. -/
inductive CalledFlag
  | recieved
  | reseted
deriving DecidableEq, Repr

/-- Where the thread `heatbeater` stands: in front of something that others may write, or of a
call. -/
inductive Heatbeater
  /-- in front of `if (am_i_coordinator)`, or in a sleep that leads there -/
  | top
  /-- `am_i_coordinator` was set; in front of its `margo_create` -/
  | leading
  /-- it was not; in front of the first look at the flag -/
  | checking
  /-- in the sleep of three seconds, and up to the second look -/
  | watching
  /-- the flag was still reset; in front of `margo_create` -/
  | electing
deriving DecidableEq, Repr

structure Process where
  prev : Name
  coordinatorCalledFlag : CalledFlag
  amICoordinator : Bool
  /-- the handler that has `join_lock`, by its place among all handlers -/
  joinLock : Option Nat
  heatbeater : Heatbeater
deriving DecidableEq, Repr

/-- An RPC with its input. -/
inductive Rpc
  | list (nodeList : NodeList)
  | election (nodeList : NodeList)
  | coordinate (ring read : NodeList)
deriving DecidableEq, Repr

/-- Where a handler stands.  `elected` are the members that `election` keeps when it starts a
`coordinate`, to look at them once it has sent. -/
inductive Handler
  /-- the RPC is on its way, or the handler has not looked at it -/
  | arriving (rpc : Rpc)
  /-- in front of `ABT_mutex_lock(join_lock)`, to forward `rpc` -/
  | sending (rpc : Rpc) (elected : Option NodeList)
  /-- it has the lock -/
  | locked (rpc : Rpc) (elected : Option NodeList)
  /-- it has forwarded, and still has the lock -/
  | sent (elected : Option NodeList)
  /-- `election` behind its `ABT_mutex_unlock(join_lock)` -/
  | electing (nodeList : NodeList)
  | returned
deriving DecidableEq, Repr

/-- The handlers `list`, `election` and `coordinate` of the process `me` up to their lock. -/
def Process.enter (p : Process) (me : Name) : Rpc → Process × Handler
  | .list nodeList =>
    let p := { p with coordinatorCalledFlag := .recieved }
    if nodeListIncludeMyName me nodeList then (p, .returned)
    else (p, .sending (.list (pushName nodeList me)) none)
  | .election nodeList =>
    if nodeListIncludeMyName me nodeList then
      (p, .sending (.coordinate nodeList (pushName [] me)) (some nodeList))
    else (p, .sending (.election (pushName nodeList me)) none)
  | .coordinate ring read =>
    let p := { p with amICoordinator := checkAmICoordinator me ring }
    if nodeListIncludeMyName me read then (p, .returned)
    else (p, .sending (.coordinate ring (pushName read me)) none)

/-- The list on which an RPC collects the processes it has been to. -/
def Rpc.collected : Rpc → NodeList
  | .list nodeList => nodeList
  | .election nodeList => nodeList
  | .coordinate _ read => read

/-- The RPC with `me` on its list. -/
def Rpc.push (me : Name) : Rpc → Rpc
  | .list nodeList => .list (pushName nodeList me)
  | .election nodeList => .election (pushName nodeList me)
  | .coordinate ring read => .coordinate ring (pushName read me)

/-- What follows an RPC that has come back to where it was started.  An `election` is followed by a
`coordinate` about the members that it has collected. -/
def Rpc.back (me : Name) : Rpc → Handler
  | .list _ => .returned
  | .election nodeList => .sending (.coordinate nodeList (pushName [] me)) (some nodeList)
  | .coordinate _ _ => .returned

theorem Rpc.collected_push (me : Name) (rpc : Rpc) :
    (rpc.push me).collected = rpc.collected ++ [me] := by
  cases rpc <;> rfl

/-- The three handlers differ in what they do with an RPC that has come back. -/
theorem Process.enter_handler (p : Process) (me : Name) (rpc : Rpc) : (p.enter me rpc).2 =
    if me ∈ rpc.collected then rpc.back me else .sending (rpc.push me) none := by
  have hinclude : nodeListIncludeMyName me rpc.collected = true ↔ me ∈ rpc.collected :=
    nodeListIncludeMyName_iff
  cases rpc <;> rw [Rpc.collected] at hinclude ⊢ <;> rw [enter, ← if_congr hinclude rfl rfl] <;>
    split <;> rfl

/-- What is left of a handler when it has given the lock back. -/
def Handler.unlocked : Option NodeList → Handler
  | none => .returned
  | some nodeList => .electing nodeList

/-! ## The ring

Processes and handlers, and the steps they take. -/

/-- All processes, and all handlers in the order of their RPCs, each with the process it runs in.
Handlers that have returned stay in the list, so that a place in it names a handler for good. -/
structure Rounds where
  process : Name → Process
  handlers : List (Name × Handler)

inductive RoundAction
  /-- `heatbeater` of the process moves on -/
  | heatbeat (a : Name)
  /-- a handler moves on -/
  | handle (i : Nat)
  /-- `env.prev` of the process `a` becomes `prev` -/
  | relink (a prev : Name)
deriving DecidableEq, Repr

namespace Rounds

def setProcess (s : Rounds) (a : Name) (p : Process) : Rounds :=
  { s with process := Function.update s.process a p }

def setHandler (s : Rounds) (i : Nat) (a : Name) (h : Handler) : Rounds :=
  { s with handlers := s.handlers.set i (a, h) }

/-- `margo_forward` to `dest`. -/
def forward (s : Rounds) (dest : Name) (rpc : Rpc) : Rounds :=
  { s with handlers := s.handlers ++ [(dest, .arriving rpc)] }

def setHeatbeater (s : Rounds) (a : Name) (h : Heatbeater) : Rounds :=
  s.setProcess a { s.process a with heatbeater := h }

/-- `heatbeater` of `a`, up to the next place where it may wait. -/
def heatbeat (s : Rounds) (a : Name) : Rounds :=
  let p := s.process a
  match p.heatbeater with
  | .top => s.setHeatbeater a (if p.amICoordinator then .leading else .checking)
  | .leading => (s.setHeatbeater a .top).forward p.prev (.list (pushName [] a))
  | .checking =>
    if p.coordinatorCalledFlag = .reseted then s.setHeatbeater a .watching
    else s.setProcess a { p with coordinatorCalledFlag := .reseted, heatbeater := .top }
  | .watching =>
    if p.coordinatorCalledFlag = .reseted then s.setHeatbeater a .electing
    else s.setProcess a { p with coordinatorCalledFlag := .reseted, heatbeater := .top }
  | .electing => (s.setHeatbeater a .top).forward p.prev (.election (pushName [] a))

/-- The `i`-th handler, in the process `a`, up to its next cut; `none` where it waits for the
lock. -/
def handle (s : Rounds) (i : Nat) (a : Name) : Handler → Option Rounds
  | .arriving rpc =>
    let (p, h) := (s.process a).enter a rpc
    some ((s.setProcess a p).setHandler i a h)
  | .sending rpc elected =>
    if (s.process a).joinLock = none then
      some ((s.setProcess a { s.process a with joinLock := some i }).setHandler i a
        (.locked rpc elected))
    else none
  | .locked rpc elected =>
    some ((s.setHandler i a (.sent elected)).forward (s.process a).prev rpc)
  | .sent elected =>
    some ((s.setProcess a { s.process a with joinLock := none }).setHandler i a
      (.unlocked elected))
  | .electing nodeList =>
    some ((s.setProcess a { s.process a with
      amICoordinator := checkAmICoordinator a nodeList }).setHandler i a .returned)
  | .returned => none

/-- One step of the processes `ring`.  A `relink` is whatever a join or a leave does to `env.prev`,
at any moment. -/
def step (ring : List Name) (s : Rounds) : RoundAction → Option Rounds
  | .heatbeat a => if a ∈ ring then some (s.heatbeat a) else none
  | .handle i =>
    match s.handlers[i]? with
    | some (a, h) => s.handle i a h
    | none => none
  | .relink a prev =>
    if a ∈ ring ∧ prev ∈ ring then
      some (s.setProcess a { s.process a with prev })
    else none

/-! ## Fields

What the updates of a state leave alone, for the simplifier. -/

@[simp] theorem setProcess_handlers (s : Rounds) (a : Name) (p : Process) :
    (s.setProcess a p).handlers = s.handlers := rfl
@[simp] theorem setHandler_process (s : Rounds) (i : Nat) (a : Name) (h : Handler) :
    (s.setHandler i a h).process = s.process := rfl
@[simp] theorem forward_process (s : Rounds) (dest : Name) (rpc : Rpc) :
    (s.forward dest rpc).process = s.process := rfl
@[simp] theorem setHandler_handlers (s : Rounds) (i : Nat) (a : Name) (h : Handler) :
    (s.setHandler i a h).handlers = s.handlers.set i (a, h) := rfl
@[simp] theorem forward_handlers (s : Rounds) (dest : Name) (rpc : Rpc) :
    (s.forward dest rpc).handlers = s.handlers ++ [(dest, .arriving rpc)] := rfl

@[simp] theorem setProcess_process (s : Rounds) (a b : Name) (p : Process) :
    (s.setProcess a p).process b = if b = a then p else s.process b :=
  Function.update_apply ..

/-! ## What a step does

The step function as a relation. -/

variable {ring : List Name} {s s' : Rounds} {act : RoundAction}

/-- The steps one by one.  This is `step` as an inversion, with one case for each stretch of code
between two cuts. -/
inductive Step (ring : List Name) (s : Rounds) : RoundAction → Rounds → Prop
  | heatbeat {a : Name} (ha : a ∈ ring) : Step ring s (.heatbeat a) (s.heatbeat a)
  | relink {a prev : Name} (ha : a ∈ ring) (hprev : prev ∈ ring) :
      Step ring s (.relink a prev) (s.setProcess a { s.process a with prev })
  | enter {i : Nat} {a : Name} {rpc : Rpc} (hi : s.handlers[i]? = some (a, .arriving rpc)) :
      Step ring s (.handle i) ((s.setProcess a ((s.process a).enter a rpc).1).setHandler i a
        ((s.process a).enter a rpc).2)
  | lock {i : Nat} {a : Name} {rpc : Rpc} {elected : Option NodeList}
      (hi : s.handlers[i]? = some (a, .sending rpc elected))
      (hfree : (s.process a).joinLock = none) :
      Step ring s (.handle i) ((s.setProcess a { s.process a with joinLock := some i }).setHandler i
        a (.locked rpc elected))
  | forward {i : Nat} {a : Name} {rpc : Rpc} {elected : Option NodeList}
      (hi : s.handlers[i]? = some (a, .locked rpc elected)) :
      Step ring s (.handle i) ((s.setHandler i a (.sent elected)).forward (s.process a).prev rpc)
  | unlock {i : Nat} {a : Name} {elected : Option NodeList}
      (hi : s.handlers[i]? = some (a, .sent elected)) :
      Step ring s (.handle i) ((s.setProcess a { s.process a with joinLock := none }).setHandler i a
        (.unlocked elected))
  | elect {i : Nat} {a : Name} {nodeList : NodeList}
      (hi : s.handlers[i]? = some (a, .electing nodeList)) :
      Step ring s (.handle i) ((s.setProcess a { s.process a with
        amICoordinator := checkAmICoordinator a nodeList }).setHandler i a .returned)

theorem step_cases (h : s.step ring act = some s') : Step ring s act s' := by
  cases act with
  | heatbeat a =>
    rw [step, Option.ite_none_right_eq_some] at h
    obtain ⟨ha, ⟨⟩⟩ := h
    exact .heatbeat ha
  | relink a prev =>
    rw [step, Option.ite_none_right_eq_some] at h
    obtain ⟨⟨ha, hprev⟩, ⟨⟩⟩ := h
    exact .relink ha hprev
  | handle i =>
    rw [step] at h
    split at h
    · next a h' hi =>
      cases h' with
      | sending rpc elected =>
        rw [handle, Option.ite_none_right_eq_some] at h
        obtain ⟨hfree, ⟨⟩⟩ := h
        exact .lock hi hfree
      | returned => contradiction
      | arriving rpc =>
        obtain ⟨⟩ := h
        exact .enter hi
      | locked rpc elected =>
        obtain ⟨⟩ := h
        exact .forward hi
      | sent elected =>
        obtain ⟨⟩ := h
        exact .unlock hi
      | electing nodeList =>
        obtain ⟨⟩ := h
        exact .elect hi
    · contradiction

/-- `heatbeater` changes its own place and the flag, and may start one round. -/
theorem heatbeat_cases (s : Rounds) (a : Name) :
    ∃ p : Process, p.prev = (s.process a).prev ∧
      p.amICoordinator = (s.process a).amICoordinator ∧ p.joinLock = (s.process a).joinLock ∧
      (s.heatbeat a = s.setProcess a p ∨
        s.heatbeat a = (s.setProcess a p).forward (s.process a).prev (.list [a]) ∨
        s.heatbeat a = (s.setProcess a p).forward (s.process a).prev (.election [a])) := by
  rw [heatbeat]
  cases (s.process a).heatbeater with
  | top => refine ⟨_, ?_, ?_, ?_, .inl rfl⟩ <;> rfl
  | leading => refine ⟨_, ?_, ?_, ?_, .inr (.inl rfl)⟩ <;> rfl
  | electing => refine ⟨_, ?_, ?_, ?_, .inr (.inr rfl)⟩ <;> rfl
  | checking =>
    dsimp only
    split <;> refine ⟨_, ?_, ?_, ?_, .inl rfl⟩ <;> rfl
  | watching =>
    dsimp only
    split <;> refine ⟨_, ?_, ?_, ?_, .inl rfl⟩ <;> rfl

/-- All handlers have returned. -/
def Settled (s : Rounds) : Prop := ∀ ah ∈ s.handlers, ah.2 = .returned

instance (s : Rounds) : Decidable s.Settled := by unfold Settled; infer_instance

end Rounds

end CRing
end DistributedPrograms
