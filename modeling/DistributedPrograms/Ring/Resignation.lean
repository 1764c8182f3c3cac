import DistributedPrograms.Ring.Coordinator

/-!
# Resignation

Several nodes may take themselves for the coordinator: the flags are read and written at different
times.  A node resigns when a list token passes that names a lesser address, and only the
coordinators start list rounds.

Of two flagged nodes the token of the lesser one settles it: on its way around the fixed ring it
arrives at the greater one before it is back, and names its starter from the beginning.  So once
every flagged node has had a round and no list token is left, at most one is flagged.  The token of
a lone coordinator meets it only when it is back, and then nothing happens to it.

The loop of `coordinate` reads the flag and calls `list` in two steps, with anything in between.

The runs start from any flags and any list tokens, so a token need not have come from anywhere.
What is asked of the start is about the elections on their way: they must not forget a member
(`Elects`), or a node could be flagged anew after it has resigned.

* `Ahead f a b c`: a list token of `a` is on its way and has not met `b`.  It goes on, or it arrives
  at `b`, which then resigns if `a` is the lesser one (`Elects.ahead_receive`).
* `settled_step`: whatever happens, the round of `a` will have made `b` resign, and `b` is not
  flagged anew.
* `Lone`: only `a` is flagged, and all rounds are its own.  This is kept by every step.
* `at_most_one_coordinator` puts both halves together.
-/

set_option autoImplicit false

namespace DistributedPrograms
namespace Ring

open SocketAddr

/-- The tokens, and the nodes whose loop has read that it is the coordinator and has not called
`list` yet.  A node may resign between the two. -/
structure Rounds (A : Type) where
  tokens : Tokens A
  calling : A → Bool

inductive RoundAction (A : Type) where
  /-- the loop of `n` reads its flag -/
  | readFlag (n : A)
  /-- the loop of `n` calls `list` -/
  | callList (n : A)
  /-- the watcher of `n` starts an election -/
  | startElection (n : A)
  /-- the `i`-th message on its way arrives -/
  | deliver (i : Nat)
  deriving DecidableEq, Repr

namespace Tokens

variable {A : Type} [SocketAddr A]

/-- The call of `list` in the loop of `n`. -/
def callList (c : Tokens A) (n : A) : Tokens A :=
  { c with flight := c.flight ++ [.token (c.node n).connection.prev (.list [toString n])] }

/-- No list token is on its way. -/
def Drained (c : Tokens A) : Prop := ∀ dest addresses, .token dest (.list addresses) ∉ c.flight

omit [SocketAddr A] in
theorem drained_iff {c : Tokens A} :
    c.Drained ↔ ∀ m ∈ c.flight, match m with
      | .token _ (.list _) => False
      | _ => True := by
  refine ⟨fun h m hm => ?_, fun h dest addresses hm => h _ hm⟩
  split
  · next dest addresses => exact h dest addresses hm
  · trivial

instance (c : Tokens A) : Decidable c.Drained :=
  have : DecidablePred fun m : Message A => match m with
      | .token _ (.list _) => False
      | _ => True := fun m => by
    dsimp only
    split <;> infer_instance
  decidable_of_iff' _ drained_iff

end Tokens

namespace Rounds

variable {A : Type} [DecidableEq A] [SocketAddr A]

/-- One step of the ring `ring`. -/
def step (ring : List A) (c : Rounds A) : RoundAction A → Option (Rounds A)
  | .readFlag n =>
    if n ∈ ring ∧ c.calling n = false then
      some { c with calling := Function.update c.calling n (c.tokens.node n).amICoordinator }
    else none
  | .callList n =>
    if n ∈ ring ∧ c.calling n = true then
      some { tokens := c.tokens.callList n, calling := Function.update c.calling n false }
    else none
  | .startElection n => (c.tokens.step ring (.startElection n)).map fun tokens => { c with tokens }
  | .deliver i => (c.tokens.step ring (.deliver i)).map fun tokens => { c with tokens }

/-- In the history `tr`, the loop of `n` has called `list`. -/
def Issued (ring : List A) (tr : List (Rounds A)) (n : A) : Prop :=
  ∃ later c' c rest, tr = later ++ c' :: c :: rest ∧ step ring c (.callList n) = some c'

/-- **What a step does.** -/
theorem step_cases {ring : List A} {c c' : Rounds A} {act : RoundAction A}
    (h : step ring c act = some c') :
    (∃ n, act = .readFlag n ∧ c' = { c with
      calling := Function.update c.calling n (c.tokens.node n).amICoordinator }) ∨
    (∃ n ∈ ring, act = .callList n ∧ c.calling n = true ∧
      c' = { tokens := c.tokens.callList n, calling := Function.update c.calling n false }) ∨
    (∃ n ∈ ring, act = .startElection n ∧ c' = { c with tokens := { c.tokens with
      flight := c.tokens.flight ++
        [.token (c.tokens.node n).connection.prev (.election [toString n])] } }) ∨
    (∃ i m, act = .deliver i ∧ c.tokens.flight[i]? = some m ∧
      c' = { c with tokens := c.tokens.receive i m }) := by
  cases act with
  | readFlag n =>
    rw [step] at h
    split at h
    · exact Or.inl ⟨n, rfl, (Option.some.inj h).symm⟩
    · contradiction
  | callList n =>
    rw [step] at h
    split at h
    · next hn => exact Or.inr (Or.inl ⟨n, hn.1, rfl, hn.2, (Option.some.inj h).symm⟩)
    · contradiction
  | startElection n =>
    obtain ⟨t, ht, rfl⟩ := Option.map_eq_some_iff.1 h
    rw [Tokens.step] at ht
    split at ht
    · next hn =>
      obtain ⟨⟩ := ht
      exact Or.inr (Or.inr (Or.inl ⟨n, hn, rfl, rfl⟩))
    · contradiction
  | deliver i =>
    obtain ⟨t, ht, rfl⟩ := Option.map_eq_some_iff.1 h
    obtain ⟨m, hm, rfl⟩ := Option.map_eq_some_iff.1 ht
    exact Or.inr (Or.inr (Or.inr ⟨i, m, rfl, hm, rfl⟩))

end Rounds

/-! ## What no step changes

The pointers, and who may be flagged at all. -/

namespace Tokens

variable {A : Type} [SocketAddr A] {f : A → A} {ring : List A} {a b : A}

/-- What holds of a token at `dest`: an election lists the way it has come, a `coordinate` token all
members. -/
def Token.Elects (f : A → A) (ring : List A) (dest : A) : Token → Prop
  | .list _ => True
  | .election addresses => ∃ x ∈ ring, ∃ k, addresses = trail f x k ∧ dest = f^[k] x
  | .coordinate addresses _ => ∀ b ∈ ring, toString b ∈ addresses

/-- The ring is fixed, and no election forgets a member. -/
structure Elects (f : A → A) (ring : List A) (c : Tokens A) : Prop where
  prev_eq : ∀ a, (c.node a).connection.prev = f a
  flight : ∀ dest token, .token dest token ∈ c.flight → Token.Elects f ring dest token

/-- What a node sends on behalf of such a token is such a token. -/
theorem handle_elects {dest : A} {token : Token} (hcycle : CycleOn f ring)
    (h : Token.Elects f ring dest token) {n : Node A} (hn : n.connection.prev = f dest) :
    ∀ d t, Message.token d t ∈ (n.handle dest token).2 → Token.Elects f ring d t := by
  intro d t ht
  cases token with
  | list addresses =>
    rw [Node.handle] at ht
    split at ht
    · obtain ⟨⟩ := List.mem_singleton.1 ht
      trivial
    · obtain ⟨⟩ := List.mem_singleton.1 ht
  | election addresses =>
    obtain ⟨x, hx, k, rfl, rfl⟩ := h
    rw [Node.handle] at ht
    split at ht
    · obtain ⟨⟩ := List.mem_singleton.1 ht
      refine ⟨x, hx, k + 1, (trail_succ f x k).symm, ?_⟩
      rw [hn, Function.iterate_succ_apply']
    · next hvisit =>
      obtain ⟨⟩ := List.mem_singleton.1 ht
      obtain ⟨-, hmet⟩ := hcycle.mem_walk_of_revisit hx (toString_mem_trail.1 (not_not.1 hvisit))
      exact fun b hb => toString_mem_trail.2 (hmet b hb)
  | coordinate addresses read =>
    rw [Node.handle] at ht
    split at ht
    · obtain ⟨⟩ := List.mem_singleton.1 ht
      exact h
    · contradiction

/-- **A member that is not the least is never flagged anew.**  A flag is set by `coordinate` only,
whose list has the lesser address. -/
theorem handle_not_flagged {token : Token} (h : Token.Elects f ring b token) (ha : a ∈ ring)
    (hab : toString a < toString b) {n : Node A} (hn : n.amICoordinator = false) :
    (n.handle b token).1.amICoordinator = false := by
  cases token with
  | list addresses =>
    rw [Node.handle]
    split
    · rw [Node.relayList]
      split
      · rfl
      · exact hn
    · exact hn
  | election addresses =>
    rw [Node.handle]
    split <;> exact hn
  | coordinate addresses read =>
    refine Bool.eq_false_iff.2 fun hflag => ?_
    exact hab.not_ge (checkAmICoordinator_iff.1 hflag _ (h a ha))

/-- A list token that names a lesser address, and not the node itself, makes it resign. -/
theorem handle_list_resigns {addresses : List String} (hb : toString b ∉ addresses)
    (ha : toString a ∈ addresses) (hab : toString a < toString b) (n : Node A) :
    (n.handle b (.list addresses)).1.amICoordinator = false := by
  have hcheck : Node.checkAmICoordinator addresses (toString b) = false :=
    Bool.eq_false_iff.2 fun hcheck => hab.not_ge (checkAmICoordinator_iff.1 hcheck _ ha)
  rw [Node.handle, if_pos hb, Node.relayList, hcheck]
  rfl

variable [DecidableEq A] {c : Tokens A} {i : Nat} {m : Message A}

theorem receive_token_node (c : Tokens A) (i : Nat) (dest : A) (token : Token) (a : A) :
    (c.receive i (.token dest token)).node a =
      if a = dest then ((c.node dest).handle dest token).1 else c.node a :=
  Function.update_apply ..

theorem receive_connection (c : Tokens A) (i : Nat) (m : Message A) (a : A) :
    ((c.receive i m).node a).connection = (c.node a).connection := by
  cases m with
  | token dest token =>
    rw [receive_token_node]
    split
    · next ha => rw [handle_connection, ha]
    · rfl
  | announce rest addresses => exact (receive_announce c i rest addresses).1 a

/-- The tokens after an arrival were there, or have been sent by the node. -/
theorem mem_flight_of_receive {dest : A} {token : Token}
    (h : .token dest token ∈ (c.receive i m).flight) :
    .token dest token ∈ c.flight ∨ ∃ d t, m = .token d t ∧
      .token dest token ∈ ((c.node d).handle d t).2 := by
  cases m with
  | token d t =>
    rcases List.mem_append.1 h with h | h
    · exact Or.inl (List.mem_of_mem_eraseIdx h)
    · exact Or.inr ⟨d, t, rfl, h⟩
  | announce rest addresses => exact Or.inl ((receive_announce c i rest addresses).2.2 _ _ h)

/-- Only the message that arrives is gone. -/
theorem mem_flight_receive {dest : A} {token : Token} (hm : c.flight[i]? = some m)
    (h : .token dest token ∈ c.flight) (hne : m ≠ .token dest token) :
    .token dest token ∈ (c.receive i m).flight := by
  obtain ⟨j, hj⟩ := List.mem_iff_getElem?.1 h
  have hij : j ≠ i := by
    rintro rfl
    exact hne (Option.some.inj (hm.symm.trans hj))
  have herase : .token dest token ∈ c.flight.eraseIdx i :=
    List.mem_eraseIdx_iff_getElem?.2 ⟨j, hij, hj⟩
  cases m with
  | token d t => exact List.mem_append_left _ herase
  | announce rest addresses =>
    cases rest with
    | nil => exact herase
    | cons address rest =>
      rw [receive]
      cases (parse address : Option A) <;> exact List.mem_append_left _ herase

theorem Elects.receive (h : c.Elects f ring) (hcycle : CycleOn f ring)
    (hm : c.flight[i]? = some m) : (c.receive i m).Elects f ring := by
  refine ⟨fun a => by rw [receive_connection, h.prev_eq], fun dest token ht => ?_⟩
  rcases mem_flight_of_receive ht with hold | ⟨d, t, rfl, hsent⟩
  · exact h.flight dest token hold
  · exact handle_elects hcycle (h.flight d t (List.mem_of_getElem? hm)) (h.prev_eq d) dest token
      hsent

theorem Elects.not_flagged_receive (h : c.Elects f ring) (ha : a ∈ ring)
    (hab : toString a < toString b) (hm : c.flight[i]? = some m) (hb : ¬c.Flagged b) :
    ¬(c.receive i m).Flagged b := by
  cases m with
  | token dest token =>
    rw [Flagged, receive_token_node]
    split
    · next hdest =>
      subst hdest
      rw [handle_not_flagged (h.flight b token (List.mem_of_getElem? hm)) ha hab
        (Bool.eq_false_iff.2 hb)]
      exact Bool.false_ne_true
    · exact hb
  | announce rest addresses => rwa [Flagged, (receive_announce c i rest addresses).2.1 b]

/-! ## The token of the lesser one

Two members are fixed.  The walk from `a` comes past `b` before it is back at `a`. -/

/-- A list token of `a` is on its way and has not met `b`.  When it comes to `b`, and `a` has the
lesser address, `b` resigns. -/
def Ahead (f : A → A) (a b : A) (c : Tokens A) : Prop :=
  ∃ k, 0 < k ∧ .token (f^[k] a) (.list (trail f a k)) ∈ c.flight ∧ b ∉ walk f a k

omit [DecidableEq A] in
theorem start_mem_trail (f : A → A) (a : A) {k : Nat} (hk : 0 < k) : toString a ∈ trail f a k :=
  toString_mem_trail.2 (mem_walk.2 ⟨0, hk, rfl⟩)

/-- **The token goes on, or `b` resigns.**  It cannot stop before it has met `b`, because it stops
at its start. -/
theorem Elects.ahead_receive (h : c.Elects f ring) (hcycle : CycleOn f ring) (ha : a ∈ ring)
    (hb : b ∈ ring) (hab : toString a < toString b) (hm : c.flight[i]? = some m)
    (hahead : Ahead f a b c) : Ahead f a b (c.receive i m) ∨ ¬(c.receive i m).Flagged b := by
  obtain ⟨k, hk, hmem, hmet⟩ := hahead
  by_cases harrives : m = .token (f^[k] a) (.list (trail f a k))
  · subst harrives
    by_cases hdest : f^[k] a = b
    · refine Or.inr ?_
      rw [Flagged, receive_token_node, if_pos hdest.symm, hdest,
        handle_list_resigns (fun hin => hmet (toString_mem_trail.1 hin)) (start_mem_trail f a hk) hab]
      exact Bool.false_ne_true
    · -- the token has not been where it is now, since it would have met `b` on the way
      have hnew : toString (f^[k] a) ∉ trail f a k := fun hvisit =>
        hmet ((hcycle.mem_walk_of_revisit ha (toString_mem_trail.1 hvisit)).2 b hb)
      refine Or.inl ⟨k + 1, k.succ_pos, ?_, ?_⟩
      · refine List.mem_append_right _ ?_
        show _ ∈ ((c.node (f^[k] a)).handle (f^[k] a) (.list (trail f a k))).2
        rw [Node.handle, if_pos hnew, trail_succ, h.prev_eq, Function.iterate_succ_apply']
        exact List.mem_singleton_self _
      · rw [walk_succ, List.mem_append, List.mem_singleton, not_or]
        exact ⟨hmet, fun heq => hdest heq.symm⟩
  · exact Or.inl ⟨k, hk, mem_flight_receive hm hmem harrives, hmet⟩

end Tokens

/-! ## Runs

Each flagged node but the least resigns, when a token of the least comes past. -/

namespace Rounds

variable {A : Type} [DecidableEq A] [SocketAddr A] {f : A → A} {ring : List A} {a b : A}
  {c c' c₀ : Rounds A} {act : RoundAction A} {tr : List (Rounds A)}

theorem elects_step (h : c.tokens.Elects f ring) (hcycle : CycleOn f ring)
    (hs : step ring c act = some c') : c'.tokens.Elects f ring := by
  rcases step_cases hs with ⟨n, rfl, rfl⟩ | ⟨n, hn, rfl, -, rfl⟩ | ⟨n, hn, rfl, rfl⟩ |
    ⟨i, m, rfl, hm, rfl⟩
  · exact h
  · refine ⟨h.prev_eq, fun dest token ht => ?_⟩
    rcases List.mem_append.1 ht with ht | ht
    · exact h.flight dest token ht
    · obtain ⟨⟩ := List.mem_singleton.1 ht
      trivial
  · refine ⟨h.prev_eq, fun dest token ht => ?_⟩
    rcases List.mem_append.1 ht with ht | ht
    · exact h.flight dest token ht
    · obtain ⟨⟩ := List.mem_singleton.1 ht
      exact ⟨n, hn, 1, (Tokens.trail_one f n).symm, h.prev_eq n⟩
  · exact h.receive hcycle hm

/-- Whatever happens, the round of `a` will have made `b` resign. -/
theorem settled_step (h : c.tokens.Elects f ring) (hcycle : CycleOn f ring) (ha : a ∈ ring)
    (hb : b ∈ ring) (hab : toString a < toString b) (hs : step ring c act = some c')
    (hsettled : Tokens.Ahead f a b c.tokens ∨ ¬c.tokens.Flagged b) :
    Tokens.Ahead f a b c'.tokens ∨ ¬c'.tokens.Flagged b := by
  rcases step_cases hs with ⟨n, rfl, rfl⟩ | ⟨n, hn, rfl, -, rfl⟩ | ⟨n, hn, rfl, rfl⟩ |
    ⟨i, m, rfl, hm, rfl⟩
  · exact hsettled
  · exact hsettled.imp_left fun ⟨k, hk, hmem, hmet⟩ =>
      ⟨k, hk, List.mem_append_left _ hmem, hmet⟩
  · exact hsettled.imp_left fun ⟨k, hk, hmem, hmet⟩ =>
      ⟨k, hk, List.mem_append_left _ hmem, hmet⟩
  · rcases hsettled with hahead | hflag
    · exact h.ahead_receive hcycle ha hb hab hm hahead
    · exact Or.inr (h.not_flagged_receive ha hab hm hflag)

/-- The call of `list` puts the token on its way. -/
theorem ahead_callList (h : c.tokens.Elects f ring) (hab : a ≠ b)
    (hs : step ring c (.callList a) = some c') : Tokens.Ahead f a b c'.tokens := by
  rcases step_cases hs with ⟨n, hact, -⟩ | ⟨n, -, hact, -, rfl⟩ | ⟨n, -, hact, -⟩ | ⟨i, m, hact, -⟩
  · contradiction
  · obtain ⟨⟩ := hact
    refine ⟨1, Nat.one_pos, List.mem_append_right _ (List.mem_singleton.2 ?_), fun hmem => ?_⟩
    · rw [Tokens.trail_one, Function.iterate_one, h.prev_eq]
    · obtain ⟨j, hj, rfl⟩ := mem_walk.1 hmem
      obtain rfl : j = 0 := by omega
      exact hab rfl
  · contradiction
  · contradiction

theorem elects_run (hcycle : CycleOn f ring) (h₀ : c₀.tokens.Elects f ring)
    (h : Run (step ring) (fun _ _ => True) c₀ tr) : ∀ c ∈ tr, c.tokens.Elects f ring :=
  Run.forall_mem (I := fun c => c.tokens.Elects f ring) h₀
    (fun _ _ _ _ _ _ hc hs => elects_step hc hcycle hs) h

/-- **Of two members the greater one is not flagged**, once the lesser one has had its round and no
list token is left. -/
theorem not_flagged_of_issued (hcycle : CycleOn f ring) (h₀ : c₀.tokens.Elects f ring)
    (h : Run (step ring) (fun _ _ => True) c₀ (c :: tr)) (hdrained : c.tokens.Drained)
    (ha : a ∈ ring) (hb : b ∈ ring) (hab : toString a < toString b)
    (hissued : Issued ring (c :: tr) a) : ¬c.tokens.Flagged b := by
  obtain ⟨later, c₂, c₁, rest, htr, hs⟩ := hissued
  have hne : a ≠ b := by
    rintro rfl
    exact lt_irrefl _ hab
  rw [htr] at h
  have hcalled : Tokens.Ahead f a b c₂.tokens :=
    ahead_callList (elects_run hcycle h₀ h c₁ (by simp)) hne hs
  have hlast : c ∈ later ++ [c₂] := by
    cases later with
    | nil =>
      obtain ⟨⟩ := htr
      exact List.mem_cons_self
    | cons c₃ later =>
      obtain ⟨⟩ := htr
      exact List.mem_cons_self
  have hsettled := Run.forall_later
    (P := fun c => Tokens.Ahead f a b c.tokens ∨ ¬c.tokens.Flagged b)
    (fun c tr act c' hrun _ hc hs =>
      settled_step (elects_run hcycle h₀ hrun c List.mem_cons_self) hcycle ha hb hab hs hc)
    h (Or.inl hcalled) c hlast
  exact hsettled.resolve_left fun ⟨_, _, hmem, _⟩ => hdrained _ _ hmem

/-! ## A lone coordinator

What the ring comes to, and stays with. -/

/-- Only `a` is flagged, and all rounds are its own.  From here on no flag changes any more. -/
structure Lone (f : A → A) (ring : List A) (a : A) (c : Rounds A) : Prop where
  prev_eq : ∀ b, (c.tokens.node b).connection.prev = f b
  flagged : ∀ b ∈ ring, c.tokens.Flagged b ↔ b = a
  calling : ∀ b ∈ ring, c.calling b = true → b = a
  flight : ∀ dest token, .token dest token ∈ c.tokens.flight →
    ∃ k, 0 < k ∧ token = .list (Tokens.trail f a k) ∧ dest = f^[k] a

/-- **The token of a lone coordinator** takes no flag. -/
theorem Lone.receive {t : Tokens A} {i : Nat} {m : Message A} (h : Lone f ring a c)
    (ht : c.tokens = t) (hm : t.flight[i]? = some m) :
    Lone f ring a { c with tokens := t.receive i m } := by
  subst ht
  have harrives : ∀ dest token, m = .token dest token →
      ∃ k, 0 < k ∧ token = .list (Tokens.trail f a k) ∧ dest = f^[k] a := fun dest token hmt =>
    h.flight dest token (hmt ▸ List.mem_of_getElem? hm)
  refine ⟨fun b => by rw [Tokens.receive_connection, h.prev_eq], fun b hb => ?_, h.calling,
    fun dest token ht => ?_⟩
  · rw [← h.flagged b hb]
    cases m with
    | token dest token =>
      obtain ⟨k, hk, rfl, rfl⟩ := harrives dest token rfl
      rw [Tokens.Flagged, Tokens.Flagged, Tokens.receive_token_node]
      split
      · next hdest =>
        subst hdest
        rw [Node.handle]
        split
        · next hnew =>
          -- it is not `a` that the token meets for the first time
          have hother : ¬c.tokens.Flagged (f^[k] a) := fun hflag => by
            rw [(h.flagged _ hb).1 hflag] at hnew
            exact hnew (Tokens.start_mem_trail f a hk)
          have hfalse : (c.tokens.node (f^[k] a)).amICoordinator = false :=
            Bool.eq_false_iff.2 hother
          rw [Node.relayList]
          split
          · rw [hfalse]
          · rfl
        · rfl
      · rfl
    | announce rest addresses =>
      rw [Tokens.Flagged, Tokens.Flagged, (Tokens.receive_announce c.tokens i rest addresses).2.1 b]
  · rcases Tokens.mem_flight_of_receive ht with hold | ⟨d, t, rfl, hsent⟩
    · exact h.flight dest token hold
    · obtain ⟨k, hk, rfl, rfl⟩ := harrives d t rfl
      rw [Node.handle] at hsent
      split at hsent
      · obtain ⟨⟩ := List.mem_singleton.1 hsent
        refine ⟨k + 1, k.succ_pos, by rw [Tokens.trail_succ], ?_⟩
        rw [h.prev_eq, Function.iterate_succ_apply']
      · obtain ⟨⟩ := List.mem_singleton.1 hsent

theorem Lone.step (h : Lone f ring a c) (hact : ∀ n, act ≠ .startElection n)
    (hs : step ring c act = some c') : Lone f ring a c' := by
  rcases step_cases hs with ⟨n, rfl, rfl⟩ | ⟨n, hn, rfl, hcalling, rfl⟩ | ⟨n, -, rfl, -⟩ |
    ⟨i, m, rfl, hm, rfl⟩
  · refine ⟨h.prev_eq, h.flagged, fun b hb hcalling => ?_, h.flight⟩
    change Function.update c.calling n (c.tokens.node n).amICoordinator b = true at hcalling
    rw [Function.update_apply] at hcalling
    split at hcalling
    · next hbn =>
      subst hbn
      exact (h.flagged b hb).1 hcalling
    · exact h.calling b hb hcalling
  · obtain rfl := h.calling n hn hcalling
    refine ⟨h.prev_eq, h.flagged, fun b hb hcalling => ?_, fun dest token ht => ?_⟩
    · change Function.update c.calling n false b = true at hcalling
      rw [Function.update_apply] at hcalling
      split at hcalling
      · contradiction
      · exact h.calling b hb hcalling
    · rcases List.mem_append.1 ht with ht | ht
      · exact h.flight dest token ht
      · obtain ⟨⟩ := List.mem_singleton.1 ht
        exact ⟨1, Nat.one_pos, by rw [Tokens.trail_one], h.prev_eq n⟩
  · exact absurd rfl (hact n)
  · exact h.receive rfl hm

/-- **At most one coordinator.**  On a fixed ring, from any flags and any list tokens: once every
node that is still flagged has had a list round and no list token is left, at most one is flagged.
A lone coordinator, with no list round under way, stays the only one as long as nobody starts an
election. -/
theorem at_most_one_coordinator
    (hcycle : CycleOn (fun a => (c₀.tokens.node a).connection.prev) ring)
    (hflight : ∀ dest token, .token dest token ∈ c₀.tokens.flight →
      ∃ addresses, token = .list addresses) :
    (∀ c tr, Run (step ring) (fun _ _ => True) c₀ (c :: tr) → c.tokens.Drained →
      (∀ a ∈ ring, c.tokens.Flagged a → Issued ring (c :: tr) a) →
      ∀ a ∈ ring, ∀ b ∈ ring, c.tokens.Flagged a → c.tokens.Flagged b → a = b) ∧
    ∀ a ∈ ring, (∀ b ∈ ring, c₀.tokens.Flagged b ↔ b = a) → c₀.tokens.Drained →
      (∀ b ∈ ring, c₀.calling b = true → b = a) →
      ∀ tr, Run (step ring) (fun _ act => ∀ n, act ≠ .startElection n) c₀ tr →
        ∀ c ∈ tr, ∀ b ∈ ring, c.tokens.Flagged b ↔ b = a := by
  refine ⟨fun c tr h hdrained hissued a ha b hb hfa hfb => ?_,
    fun a _ hflagged hdrained hcalling tr h => ?_⟩
  · have h₀ : c₀.tokens.Elects (fun a => (c₀.tokens.node a).connection.prev) ring := by
      refine ⟨fun _ => rfl, fun dest token ht => ?_⟩
      obtain ⟨addresses, rfl⟩ := hflight dest token ht
      trivial
    rcases lt_trichotomy (toString a) (toString b) with hab | hab | hba
    · exact absurd hfb (not_flagged_of_issued hcycle h₀ h hdrained ha hb hab (hissued a ha hfa))
    · exact toString_injective hab
    · exact absurd hfa (not_flagged_of_issued hcycle h₀ h hdrained hb ha hba (hissued b hb hfb))
  · have h₀ : Lone (fun a => (c₀.tokens.node a).connection.prev) ring a c₀ := by
      refine ⟨fun _ => rfl, hflagged, hcalling, fun dest token ht => ?_⟩
      obtain ⟨addresses, rfl⟩ := hflight dest token ht
      exact absurd ht (hdrained dest addresses)
    intro c hc
    exact (Run.forall_mem h₀ (fun _ _ _ _ _ hact hc hs => hc.step hact hs) h c hc).flagged

/-! ## A run -/

/-- Three members, those of `flags` flagged, and nothing on its way. -/
def flagged (flags : List (Fin 4)) : Rounds (Fin 4) where
  tokens :=
    { node := fun a => { Tokens.trio.node a with amICoordinator := decide (a ∈ flags) }
      flight := [] }
  calling _ := false

theorem cycleOn_flagged (flags : List (Fin 4)) :
    CycleOn (fun a => ((flagged flags).tokens.node a).connection.prev) [0, 1, 2] :=
  Tokens.cycleOn_trio

/-- Nodes 0 and 2 are flagged, and each has a round: afterwards 0 is alone.  If it is alone from the
start, it stays so. -/
theorem at_most_one_coordinator_pair :
    (∃ c tr, Run (step [0, 1, 2]) (fun _ _ => True) (flagged [0, 2]) (c :: tr) ∧
      c.tokens.Flagged 0 ∧ ∀ b ∈ [0, 1, 2], c.tokens.Flagged b → b = 0) ∧
    ∀ tr, Run (step [0, 1, 2]) (fun _ act => ∀ n, act ≠ .startElection n) (flagged [0]) tr →
      ∀ c ∈ tr, ∀ b ∈ [0, 1, 2], c.tokens.Flagged b ↔ b = 0 := by
  refine ⟨?_, (at_most_one_coordinator (cycleOn_flagged [0])
    (fun _ _ ht => absurd ht List.not_mem_nil)).2 0 (by decide) (by decide) (by decide)
      (by decide)⟩
  have hcheck : ((Run.exec (step [0, 1, 2]) (fun _ _ => true) [flagged [0, 2]]
      ([.readFlag 0, .readFlag 2, .callList 2] ++ .callList 0 ::
        [.deliver 0, .deliver 0, .deliver 0, .deliver 0, .deliver 0, .deliver 0])).any fun
      | [] => false
      | c :: _ => decide (c.tokens.Drained ∧ c.tokens.Flagged 0 ∧ ¬c.tokens.Flagged 1 ∧
          ¬c.tokens.Flagged 2)) = true := by
    decide +kernel
  obtain ⟨tr, hexec, hp⟩ := (Option.any_eq_true ..).1 hcheck
  cases tr with
  | nil => exact absurd hp Bool.false_ne_true
  | cons c tr =>
    obtain ⟨hdrained, h0, h1, h2⟩ := of_decide_eq_true hp
    have hrun := Run.exec_run (C := fun _ _ => True) (fun _ _ _ => trivial) _ .init hexec
    have hissued : Issued [0, 1, 2] (c :: tr) 0 :=
      Run.exists_step_of_exec (List.cons_ne_nil _ _) hexec
    have hone := (at_most_one_coordinator (cycleOn_flagged [0, 2])
      (fun _ _ ht => absurd ht List.not_mem_nil)).1 c tr hrun hdrained (fun a ha hflag => by
        rcases List.mem_cons.1 ha with rfl | ha
        · exact hissued
        · rcases List.mem_cons.1 ha with rfl | ha
          · exact absurd hflag h1
          · obtain rfl := List.mem_singleton.1 ha
            exact absurd hflag h2)
    exact ⟨c, tr, hrun, h0, fun b hb hflag => hone b hb 0 List.mem_cons_self hflag h0⟩

end Rounds

end Ring
end DistributedPrograms
