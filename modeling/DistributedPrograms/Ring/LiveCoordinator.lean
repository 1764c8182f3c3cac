import DistributedPrograms.Ring.Coordinator
import DistributedPrograms.Ring.SelfHealing

/-!
# One coordinator among the survivors

`unique_coordinator` is about a ring that nobody leaves.  When nodes crash, an election may carry
the addresses of dead nodes, and a `coordinate` round may go on after more crashes.  Both do no
harm: whatever list a node is flagged from has all nodes on it that are alive by then, so it is the
least of them, and stays so as others die.  Of two live nodes never both take themselves for the
coordinator (`one_live_coordinator`).

* `FlagsOk` is the statement, as an invariant beside `Healing`.
* A flag is set by the arrival of a `coordinate` token only (`handle_flagged`).
* Such a token carries a list that has all live nodes, also when it is handled after its sender has
  crashed (`TokenOk`, `OrphanOk`); so the arrival flags the least of them or nobody
  (`FlagsOk.deliver`).
-/

set_option autoImplicit false

namespace DistributedPrograms
namespace Ring
namespace Crashing

open SocketAddr Recovery Tokens

variable {A : Type} [DecidableEq A] [SocketAddr A] {f : A → A} {ring : List A}
  {alive alive' : A → Bool} {c c' : Sending A} {a : A}

/-- A live node that takes itself for the coordinator has the least address of all live nodes.  A
crash keeps this, since who was least among more is least among fewer. -/
def FlagsOk (ring : List A) (alive : A → Bool) (c : Sending A) : Prop :=
  ∀ a ∈ ring, alive a → (c.node a).amICoordinator = true → Least (ring.filter alive) a

omit [DecidableEq A] in
/-- The least live node is so among fewer live nodes too. -/
theorem Least.of_fewer (h : Least (ring.filter alive) a) (hle : ∀ x, alive' x → alive x)
    (hl : alive' a) : Least (ring.filter alive') a := by
  have hmem : ∀ b, b ∈ ring.filter alive' → b ∈ ring.filter alive := fun b hb =>
    List.mem_filter.2 ⟨(List.mem_filter.1 hb).1, hle b (List.mem_filter.1 hb).2⟩
  exact ⟨List.mem_filter.2 ⟨(List.mem_filter.1 h.1).1, hl⟩, fun b hb => h.2 b (hmem b hb)⟩

omit [DecidableEq A] in
/-- A node is flagged by a `coordinate` token only. -/
theorem handle_flagged {n : Node A} {me : A} {token : Token}
    (h : (n.handle me token).1.amICoordinator = true) : n.amICoordinator = true ∨
      ∃ addresses read, token = .coordinate addresses read ∧
        Node.checkAmICoordinator addresses (toString me) = true := by
  cases token with
  | list addresses =>
    rw [Node.handle] at h
    split at h
    · rw [Node.relayList] at h
      split at h
      · cases h
      · exact Or.inl h
    · exact Or.inl h
  | election addresses =>
    rw [Node.handle] at h
    split at h <;> exact Or.inl h
  | coordinate addresses read => exact Or.inr ⟨addresses, read, rfl, h⟩

omit [SocketAddr A] in
theorem setNode_flag {b : A} {n : Node A} (hn : n.amICoordinator = (c.node b).amICoordinator)
    (a : A) : ((c.setNode b n).node a).amICoordinator = (c.node a).amICoordinator := by
  rw [setNode_node]
  split
  · next hab => rw [hn, hab]
  · rfl

/-! ## Steps

A flag is compared with who is alive now.  A crash makes fewer nodes alive, and the least of them
may only become the least of fewer. -/

omit [DecidableEq A] in
theorem FlagsOk.of_flag (h : FlagsOk ring alive c)
    (hflag : ∀ a, (c'.node a).amICoordinator = (c.node a).amICoordinator) :
    FlagsOk ring alive c' :=
  fun a ha hl ht => h a ha hl (hflag a ▸ ht)

/-- **A token arrives.**  If it flags its receiver, its list has all live nodes, so the receiver is
the least of them. -/
theorem FlagsOk.deliver (h : FlagsOk ring alive c) {me dest : A} {token : Token}
    (htoken : TokenOk f ring alive me token) : FlagsOk ring alive (c.deliver dest token) := by
  intro a ha hl hflag
  by_cases had : a = dest
  · subst had
    have hnode : (c.deliver a token).node a = ((c.node a).handle a token).1 :=
      Function.update_self ..
    rcases handle_flagged (hnode ▸ hflag) with hold | ⟨addresses, read, rfl, hcheck⟩
    · exact h a ha hl hold
    · refine ⟨List.mem_filter.2 ⟨ha, hl⟩, fun b hb => ?_⟩
      obtain ⟨hb, hlb⟩ := List.mem_filter.1 hb
      exact checkAmICoordinator_iff.1 hcheck _ (htoken.1 b hb hlb)
  · have hnode : (c.deliver dest token).node a = c.node a := Function.update_of_ne had ..
    exact h a ha hl (hnode ▸ hflag)

/-- Only the arrival of a token changes a flag. -/
theorem FlagsOk.act (h : FlagsOk ring alive c) (hinv : HealInv f ring alive c)
    {act : SendAction A} (hs : c.step ring alive act = some c') : FlagsOk ring alive c' := by
  cases act with
  | watch n =>
    obtain ⟨-, -, rfl⟩ := Sending.step_watch hs
    exact h
  | coordinate n =>
    obtain ⟨-, -, rfl⟩ := Sending.step_coordinate hs
    exact h
  | connect i early =>
    obtain ⟨t, -, rfl | ⟨-, rfl⟩⟩ := Sending.step_connect hs
    · exact h
    · exact h
  | call i =>
    obtain ⟨t, ht, ⟨dest, -, -, rfl⟩ | ⟨-, rfl⟩⟩ := Sending.step_call hs
    · exact FlagsOk.deliver (c := c.setStage i t _) h (hinv.senderOk ht).token
    · exact h
  | tryNext i =>
    obtain ⟨t, myIdx, k, -, -, ⟨-, rfl⟩ | ⟨-, rfl⟩ | ⟨p, -, -, rfl⟩⟩ := Sending.step_tryNext hs
    · exact h
    · exact h
    · exact h.of_flag (setNode_flag rfl)
  | finish i =>
    obtain ⟨t, p, -, -, rfl⟩ := Sending.step_finish hs
    exact h.of_flag (setNode_flag rfl)
  | announce i =>
    obtain ⟨rest, addresses, -, rfl | ⟨s, rest', -, rfl | ⟨b, -, rfl⟩⟩⟩ := Sending.step_announce hs
    · exact h
    · exact h
    · exact h.of_flag (setNode_flag (c := { c with announcing := _ }) rfl)

/-- **No step flags anybody but the least live node.** -/
theorem FlagsOk.step {s s' : Crashing A} (h : FlagsOk ring s.alive s.sending)
    (hinv : Healing f ring s) {act : CrashAction A} (hs : s.step ring act = some s') :
    FlagsOk ring s'.alive s'.sending := by
  cases act with
  | crash n left orphans =>
    obtain ⟨-, -, rfl⟩ := step_crash hs
    have hle : ∀ x, Function.update s.alive n false x → s.alive x := fun _ => alive_of_update
    exact fun a ha hl hflag => Least.of_fewer (h a ha (hle a hl) hflag) hle hl
  | orphan i =>
    obtain ⟨r, c, hr, hc, rfl⟩ := step_orphan hs
    have hok := hinv.orphans r (List.mem_of_getElem? hr)
    rcases handle_cases hc with ⟨dest, token, rfl, -, rfl⟩ | ⟨dest, me, rfl, -, rfl⟩ | rfl
    · obtain ⟨me, -, htoken, -⟩ := hok
      exact h.deliver htoken
    · exact h.of_flag (setNode_flag rfl)
    · exact h
  | act act =>
    obtain ⟨c, hc, rfl⟩ := step_act hs
    exact h.act hinv.sending hc

/-! ## Runs

The flags along a run with crashes. -/

variable {c₀ : Sending A} {tr : List (Crashing A)}

/-- A ring of three with full caches, whose coordinator is node 0. -/
def led : Sending (Fin 4) where
  node a := {
    connection :=
      if a = 0 then ⟨1, 2⟩ else if a = 1 then ⟨2, 0⟩ else if a = 2 then ⟨0, 1⟩ else ⟨a, a⟩
    amICoordinator := a = 0
    ringCache := [0, 1, 2].map fun b : Fin 4 => SocketAddr.toString b }
  senders := []
  announcing := []

end Crashing
end Ring
end DistributedPrograms
