import DistributedPrograms.Lib.Cycle
import DistributedPrograms.Lib.Run
import DistributedPrograms.Ring.Token
import Mathlib.Data.Set.Finite.Lemmas

/-!
# One coordinator

On a ring whose `prev` pointers `f` form one fixed cycle, every token on its way is a walk: it lists
the first places of the walk along `f` from the node that started it, and stands at the next place.
So an election that comes back has met everybody, a `coordinate` token carries all members, and each
node that handles it is flagged exactly if its address is the least.  `TokenInv` is this invariant;
what a completed `coordinate` round leaves behind, that the least member is flagged, is never
undone.

* `Least` is the member whose address comes first in the order of `check_am_i_coordinator`, and
  there is exactly one (`exists_least`).  With all members listed the check picks it
  (`check_iff_least`); it keeps its flag whichever members are listed (`Least.check`).
* `Token.Sound` says what holds of a token at its destination, for each of the three kinds, and
  `handle_sound` that a node sends sound tokens on behalf of sound ones.
* `TokenInv.step` is the invariant for every step, and `TokenInv.flagged_step` says that the least
  member keeps its flag.
* `unique_coordinator` has both halves of what a ring is to have: only the least member is ever
  flagged, and from the moment a `coordinate` round is complete exactly that member is, for ever
  after.

Any number of elections may be under way at once, and any messages may overtake each other.
-/

set_option autoImplicit false

namespace DistributedPrograms
namespace Ring
namespace Tokens

open SocketAddr

variable {A : Type} [SocketAddr A]

/-- The member with the least address, in the order of `check_am_i_coordinator`.  This is the order
of strings, and not that of ports. -/
def Least (ring : List A) (a : A) : Prop := a ∈ ring ∧ ∀ b ∈ ring, toString a ≤ toString b

/-- The addresses of the first `k` places of the walk from `x`. -/
def trail (f : A → A) (x : A) (k : Nat) : List String := (walk f x k).map SocketAddr.toString

variable {f : A → A} {ring : List A} {a b x : A} {k : Nat}

theorem toString_mem_trail : toString a ∈ trail f x k ↔ a ∈ walk f x k := toString_mem_map

theorem trail_succ (f : A → A) (x : A) (k : Nat) :
    trail f x (k + 1) = trail f x k ++ [toString (f^[k] x)] := by
  rw [trail, walk_succ, List.map_append, List.map_singleton, trail]

theorem trail_one (f : A → A) (x : A) : trail f x 1 = [toString x] := by
  rw [trail_succ]
  rfl

/-- There is exactly one least member. -/
theorem exists_least (h : ring ≠ []) : ∃ a, Least ring a := by
  obtain ⟨b, hb⟩ := List.exists_mem_of_ne_nil ring h
  obtain ⟨a, ha, hmin⟩ := Set.exists_min_image {a | a ∈ ring} (fun a : A => toString a)
    ring.finite_toSet ⟨b, hb⟩
  exact ⟨a, ha, hmin⟩

theorem Least.unique (ha : Least ring a) (hb : Least ring b) : a = b :=
  toString_injective (le_antisymm (ha.2 b hb.1) (hb.2 a ha.1))

theorem Least.eq_iff (ha : Least ring a) : Least ring b ↔ b = a :=
  ⟨fun hb => hb.unique ha, by rintro rfl; exact ha⟩

/-! ## Lists of addresses

The way of a token as the strings that it carries. -/

theorem checkAmICoordinator_iff {addresses : List String} {me : String} :
    Node.checkAmICoordinator addresses me = true ↔ ∀ s ∈ addresses, me ≤ s := by
  simp [Node.checkAmICoordinator]

/-- The least member keeps its flag whichever members are listed. -/
theorem Least.check (ha : Least ring a) {addresses : List String}
    (h : ∀ s ∈ addresses, ∃ b ∈ ring, s = toString b) :
    Node.checkAmICoordinator addresses (toString a) = true := by
  refine checkAmICoordinator_iff.2 fun s hs => ?_
  obtain ⟨b, hb, rfl⟩ := h s hs
  exact ha.2 b hb

/-- With all members listed, the check picks the least one. -/
theorem check_iff_least (ha : a ∈ ring) {addresses : List String}
    (hall : ∀ b ∈ ring, toString b ∈ addresses) (h : ∀ s ∈ addresses, ∃ b ∈ ring, s = toString b) :
    Node.checkAmICoordinator addresses (toString a) = true ↔ Least ring a :=
  ⟨fun hcheck => ⟨ha, fun b hb => checkAmICoordinator_iff.1 hcheck _ (hall b hb)⟩,
    fun hleast => hleast.check h⟩

theorem mem_ring_of_trail (hcycle : CycleOn f ring) (hx : x ∈ ring) :
    ∀ s ∈ trail f x k, ∃ b ∈ ring, s = toString b := by
  intro s hs
  obtain ⟨b, hb, rfl⟩ := List.mem_map.1 hs
  obtain ⟨j, -, rfl⟩ := mem_walk.1 hb
  exact ⟨_, hcycle.mem_iterate hx j, rfl⟩

/-! ## The invariant

A token is described by its starter and the number of places it has come past.  Everything else
about it is a walk along the pointers. -/

/-- What holds of a token at `dest`: its addresses are the places of a walk from a member to `dest`,
and a `coordinate` token carries exactly the members. -/
def Token.Sound (f : A → A) (ring : List A) (c : Tokens A) (dest : A) : Token → Prop
  | .list addresses => ∃ x ∈ ring, ∃ k, addresses = trail f x k ∧ dest = f^[k] x
  | .election addresses => ∃ x ∈ ring, ∃ k, addresses = trail f x k ∧ dest = f^[k] x
  | .coordinate addresses read =>
    (∀ b ∈ ring, toString b ∈ addresses) ∧ (∀ s ∈ addresses, ∃ b ∈ ring, s = toString b) ∧
      ∃ x ∈ ring, ∃ k, read = trail f x k ∧ dest = f^[k] x ∧
        -- behind its start, the token has flagged the least member
        ∀ j, 1 ≤ j → j < k → Least ring (f^[j] x) → c.Flagged (f^[j] x)

/-- The invariant of the token rounds.  The flags are right as far as they are set, and each token
on its way will set them right. -/
structure TokenInv (f : A → A) (ring : List A) (c : Tokens A) : Prop where
  prev_eq : ∀ a, (c.node a).connection.prev = f a
  flagged : ∀ a ∈ ring, c.Flagged a → Least ring a
  flight : ∀ dest token, .token dest token ∈ c.flight → Token.Sound f ring c dest token

theorem Token.Sound.mono {c c' : Tokens A} {dest : A} {token : Token}
    (h : Token.Sound f ring c dest token) (hmono : ∀ a, Least ring a → c.Flagged a → c'.Flagged a) :
    Token.Sound f ring c' dest token := by
  cases token with
  | list addresses => exact h
  | election addresses => exact h
  | coordinate addresses read =>
    obtain ⟨hall, hmem, x, hx, k, hread, hdest, hflag⟩ := h
    exact ⟨hall, hmem, x, hx, k, hread, hdest, fun j h1 hk hl => hmono _ hl (hflag j h1 hk hl)⟩

theorem Token.Sound.dest_mem {c : Tokens A} {dest : A} {token : Token} (hcycle : CycleOn f ring)
    (h : Token.Sound f ring c dest token) : dest ∈ ring := by
  cases token with
  | list addresses =>
    obtain ⟨x, hx, k, -, rfl⟩ := h
    exact hcycle.mem_iterate hx k
  | election addresses =>
    obtain ⟨x, hx, k, -, rfl⟩ := h
    exact hcycle.mem_iterate hx k
  | coordinate addresses read =>
    obtain ⟨-, -, x, hx, k, -, rfl, -⟩ := h
    exact hcycle.mem_iterate hx k

/-! ## Handling a token

What a handler does with a sound token: to the flag of its node, to the connection, which no handler
touches, and to what is sent. -/

/-- No handler changes the connection. -/
theorem handle_connection (n : Node A) (me : A) (token : Token) :
    (n.handle me token).1.connection = n.connection := by
  cases token with
  | list addresses =>
    rw [Node.handle]
    split
    · rw [Node.relayList]
      split <;> rfl
    · rfl
  | election addresses =>
    rw [Node.handle]
    split <;> rfl
  | coordinate addresses read => rfl

/-- What a sound token does to the flag of the node it arrives at: the least member keeps it, and
nobody else gets it. -/
theorem handle_flag {c : Tokens A} {dest : A} {token : Token} (hcycle : CycleOn f ring)
    (h : Token.Sound f ring c dest token) (n : Node A) :
    (Least ring dest → n.amICoordinator = true →
      (n.handle dest token).1.amICoordinator = true) ∧
    ((n.handle dest token).1.amICoordinator = true →
      n.amICoordinator = true ∨ Least ring dest) := by
  have hdest := h.dest_mem hcycle
  cases token with
  | list addresses =>
    obtain ⟨x, hx, k, rfl, rfl⟩ := h
    rw [Node.handle]
    split
    · rw [Node.relayList]
      split
      · next hcheck =>
        refine ⟨fun hleast => ?_, fun hflag => by cases hflag⟩
        rw [hleast.check (mem_ring_of_trail hcycle hx)] at hcheck
        cases hcheck
      · exact ⟨fun _ hflag => hflag, Or.inl⟩
    · exact ⟨fun _ hflag => hflag, Or.inl⟩
  | election addresses =>
    rw [Node.handle]
    split <;> exact ⟨fun _ hflag => hflag, Or.inl⟩
  | coordinate addresses read =>
    obtain ⟨hall, hmem, -⟩ := h
    have hcheck := check_iff_least hdest hall hmem
    exact ⟨fun hleast _ => hcheck.2 hleast, fun hflag => Or.inr (hcheck.1 hflag)⟩

/-- What a node sends on behalf of a sound token is sound, once the node has handled it. -/
theorem handle_sound {c c' : Tokens A} {dest : A} {token : Token} (hcycle : CycleOn f ring)
    (h : Token.Sound f ring c dest token) {n : Node A} (hn : n.connection.prev = f dest)
    (hmono : ∀ a, Least ring a → c.Flagged a → c'.Flagged a)
    (hc' : c'.node dest = (n.handle dest token).1) :
    ∀ d t, Message.token d t ∈ (n.handle dest token).2 → Token.Sound f ring c' d t := by
  intro d t ht
  cases token with
  | list addresses =>
    obtain ⟨x, hx, k, rfl, rfl⟩ := h
    rw [Node.handle] at ht
    split at ht
    · cases List.mem_singleton.1 ht
      refine ⟨x, hx, k + 1, (trail_succ f x k).symm, ?_⟩
      rw [hn, Function.iterate_succ_apply']
    · cases List.mem_singleton.1 ht
  | election addresses =>
    have hdest := h.dest_mem hcycle
    obtain ⟨x, hx, k, rfl, rfl⟩ := h
    rw [Node.handle] at ht
    split at ht
    · cases List.mem_singleton.1 ht
      refine ⟨x, hx, k + 1, (trail_succ f x k).symm, ?_⟩
      rw [hn, Function.iterate_succ_apply']
    · next hvisit =>
      -- the election is back, so everybody is listed
      cases List.mem_singleton.1 ht
      obtain ⟨-, hmet⟩ := hcycle.mem_walk_of_revisit hx (toString_mem_trail.1 (not_not.1 hvisit))
      refine ⟨fun b hb => toString_mem_trail.2 (hmet b hb), mem_ring_of_trail hcycle hx,
        f^[k] x, hdest, 1, (trail_one f _).symm, hn, fun j h1 hk => absurd hk (by omega)⟩
  | coordinate addresses read =>
    have hdest := h.dest_mem hcycle
    obtain ⟨hall, hmem, x, hx, k, rfl, rfl, hflag⟩ := h
    rw [Node.handle] at ht
    split at ht
    · cases List.mem_singleton.1 ht
      refine ⟨hall, hmem, x, hx, k + 1, (trail_succ f x k).symm, ?_, fun j h1 hk hleast => ?_⟩
      · rw [hn, Function.iterate_succ_apply']
      · rcases Nat.lt_succ_iff_lt_or_eq.1 hk with hk | rfl
        · exact hmono _ hleast (hflag j h1 hk hleast)
        · rw [Flagged, hc']
          exact (check_iff_least hdest hall hmem).2 hleast
    · cases ht

/-! ## Steps

The invariant through a step. -/

variable [DecidableEq A] {c c' : Tokens A}

omit [DecidableEq A] in
/-- A change that touches neither connections nor flags, with sound tokens added. -/
theorem TokenInv.of_same (h : TokenInv f ring c)
    (hprev : ∀ a, (c'.node a).connection = (c.node a).connection)
    (hflag : ∀ a, (c'.node a).amICoordinator = (c.node a).amICoordinator)
    (hflight : ∀ dest token, .token dest token ∈ c'.flight →
      .token dest token ∈ c.flight ∨ Token.Sound f ring c dest token) : TokenInv f ring c' := by
  have hflagged : ∀ a, c'.Flagged a ↔ c.Flagged a := by
    intro a
    rw [Flagged, hflag, Flagged]
  refine ⟨fun a => by rw [hprev, h.prev_eq],
    fun a ha hfl => h.flagged a ha ((hflagged a).1 hfl), ?_⟩
  intro dest token hmem
  have hsound : Token.Sound f ring c dest token :=
    (hflight dest token hmem).elim (h.flight dest token) id
  exact hsound.mono fun a _ hfl => (hflagged a).2 hfl

/-- The flags when a token arrives. -/
theorem TokenInv.receive_flag (h : TokenInv f ring c) (hcycle : CycleOn f ring) {i : Nat} {dest : A}
    {token : Token} (hmem : .token dest token ∈ c.flight) (a : A) :
    (Least ring a → c.Flagged a → (c.receive i (.token dest token)).Flagged a) ∧
      ((c.receive i (.token dest token)).Flagged a → c.Flagged a ∨ Least ring a) := by
  have hkeep := handle_flag hcycle (h.flight dest token hmem) (c.node dest)
  show (Least ring a → c.Flagged a →
      (Function.update c.node dest ((c.node dest).handle dest token).1 a).amICoordinator = true) ∧
    ((Function.update c.node dest ((c.node dest).handle dest token).1 a).amICoordinator = true →
      c.Flagged a ∨ Least ring a)
  by_cases ha : a = dest
  · subst ha
    rw [Function.update_self]
    exact hkeep
  · rw [Function.update_of_ne ha]
    exact ⟨fun _ hfl => hfl, Or.inl⟩

/-- **The arrival of a token** keeps the invariant.  Either the token stops at its start, and then
lists all members, or it goes on to the next place of its walk. -/
theorem TokenInv.receive_token (h : TokenInv f ring c) (hcycle : CycleOn f ring) {i : Nat}
    {dest : A} {token : Token} (hmem : .token dest token ∈ c.flight) :
    TokenInv f ring (c.receive i (.token dest token)) := by
  have hflag := h.receive_flag hcycle (i := i) hmem
  refine ⟨fun a => ?_, fun a ha hfl => ?_, fun d t ht => ?_⟩
  · show (Function.update c.node dest ((c.node dest).handle dest token).1 a).connection.prev = f a
    by_cases ha : a = dest
    · rw [ha, Function.update_self, handle_connection, h.prev_eq]
    · rw [Function.update_of_ne ha, h.prev_eq]
  · exact ((hflag a).2 hfl).elim (h.flagged a ha) id
  · rcases List.mem_append.1 ht with ht | ht
    · exact (h.flight d t (List.mem_of_mem_eraseIdx ht)).mono fun a hl => (hflag a).1 hl
    · refine handle_sound hcycle (h.flight dest token hmem) (h.prev_eq dest)
        (fun a hl => (hflag a).1 hl) ?_ d t ht
      exact Function.update_self ..

/-- The arrival of an announcement changes only a cache. -/
theorem receive_announce (c : Tokens A) (i : Nat) (rest addresses : List String) :
    (∀ a, ((c.receive i (.announce rest addresses)).node a).connection = (c.node a).connection) ∧
    (∀ a, ((c.receive i (.announce rest addresses)).node a).amICoordinator =
      (c.node a).amICoordinator) ∧
    ∀ dest token, .token dest token ∈ (c.receive i (.announce rest addresses)).flight →
      .token dest token ∈ c.flight := by
  have herase : ∀ dest token, (Message.token dest token : Message A) ∈ c.flight.eraseIdx i →
      .token dest token ∈ c.flight := fun _ _ => List.mem_of_mem_eraseIdx
  cases rest with
  | nil => exact ⟨fun _ => rfl, fun _ => rfl, herase⟩
  | cons address rest =>
    have hflight : ∀ dest token, (Message.token dest token : Message A) ∈
        c.flight.eraseIdx i ++ [.announce rest addresses] → .token dest token ∈ c.flight := by
      intro dest token hmem
      rcases List.mem_append.1 hmem with hmem | hmem
      · exact herase dest token hmem
      · cases List.mem_singleton.1 hmem
    rw [receive]
    cases (parse address : Option A) with
    | none => exact ⟨fun _ => rfl, fun _ => rfl, hflight⟩
    | some b =>
      refine ⟨fun a => ?_, fun a => ?_, hflight⟩
      · show (Function.update c.node b ((c.node b).connectionAnnounce addresses) a).connection = _
        by_cases ha : a = b
        · rw [ha, Function.update_self]
          rfl
        · rw [Function.update_of_ne ha]
      · show (Function.update c.node b ((c.node b).connectionAnnounce addresses) a).amICoordinator =
          (c.node a).amICoordinator
        by_cases ha : a = b
        · rw [ha, Function.update_self]
          rfl
        · rw [Function.update_of_ne ha]

/-- **What a step does.**  A round starts, or a message arrives. -/
theorem step_cases {act : TokenAction A} (h : c.step ring act = some c') :
    (∃ n ∈ ring, act = .startElection n ∧ c' = { c with flight := c.flight ++
      [.token (c.node n).connection.prev (.election [toString n])] }) ∨
    (∃ n ∈ ring, act = .startList n ∧ c.Flagged n ∧ c' = { c with flight := c.flight ++
      [.token (c.node n).connection.prev (.list [toString n])] }) ∨
    (∃ i m, act = .deliver i ∧ c.flight[i]? = some m ∧ c' = c.receive i m) := by
  cases act with
  | startElection n =>
    rw [step] at h
    split at h
    · next hn => exact Or.inl ⟨n, hn, rfl, (Option.some.inj h).symm⟩
    · cases h
  | startList n =>
    rw [step] at h
    split at h
    · next hn => exact Or.inr (Or.inl ⟨n, hn.1, rfl, hn.2, (Option.some.inj h).symm⟩)
    · cases h
  | deliver i =>
    obtain ⟨m, hm, rfl⟩ := Option.map_eq_some_iff.1 h
    exact Or.inr (Or.inr ⟨i, m, rfl, hm, rfl⟩)

/-- **The invariant survives every step.** -/
theorem TokenInv.step (h : TokenInv f ring c) (hcycle : CycleOn f ring) {act : TokenAction A}
    (hs : c.step ring act = some c') : TokenInv f ring c' := by
  rcases step_cases hs with ⟨n, hn, rfl, rfl⟩ | ⟨n, hn, rfl, -, rfl⟩ | ⟨i, m, rfl, hm, rfl⟩
  · refine h.of_same (fun _ => rfl) (fun _ => rfl) fun d t ht => ?_
    refine (List.mem_append.1 ht).imp_right fun ht => ?_
    cases List.mem_singleton.1 ht
    exact ⟨n, hn, 1, (trail_one f n).symm, h.prev_eq n⟩
  · refine h.of_same (fun _ => rfl) (fun _ => rfl) fun d t ht => ?_
    refine (List.mem_append.1 ht).imp_right fun ht => ?_
    cases List.mem_singleton.1 ht
    exact ⟨n, hn, 1, (trail_one f n).symm, h.prev_eq n⟩
  · cases m with
    | token dest token => exact h.receive_token hcycle (List.mem_of_getElem? hm)
    | announce rest addresses =>
      obtain ⟨hconn, hflag, hflight⟩ := receive_announce c i rest addresses
      exact h.of_same hconn hflag fun d t ht => Or.inl (hflight d t ht)

/-- **The least member keeps its flag.** -/
theorem TokenInv.flagged_step (h : TokenInv f ring c) (hcycle : CycleOn f ring)
    {act : TokenAction A} (hs : c.step ring act = some c') (ha : Least ring a) (hfl : c.Flagged a) :
    c'.Flagged a := by
  rcases step_cases hs with ⟨n, hn, rfl, rfl⟩ | ⟨n, hn, rfl, -, rfl⟩ | ⟨i, m, rfl, hm, rfl⟩
  · exact hfl
  · exact hfl
  · cases m with
    | token dest token =>
      exact (h.receive_flag hcycle (List.mem_of_getElem? hm) a).1 ha hfl
    | announce rest addresses =>
      rwa [Flagged, (receive_announce c i rest addresses).2.1 a]

omit [DecidableEq A] in
theorem exists_of_completes {i : Nat} (h : c.Completes i) :
    ∃ dest addresses read, c.flight[i]? = some (.token dest (.coordinate addresses read)) ∧
      toString dest ∈ read := by
  rw [Completes] at h
  split at h
  · next dest addresses read hm => exact ⟨dest, addresses, read, hm, h⟩
  · exact absurd h id

/-- A `coordinate` token flags the least member where it arrives there. -/
theorem flagged_dest {dest : A} {addresses read : List String} {i : Nat}
    (hmem : ∀ s ∈ addresses, ∃ b ∈ ring, s = toString b) (hleast : Least ring dest) :
    (c.receive i (.token dest (.coordinate addresses read))).Flagged dest := by
  show (Function.update c.node dest ((c.node dest).coordinate dest addresses) dest).amICoordinator =
    true
  rw [Function.update_self]
  exact hleast.check hmem

/-- **A completed `coordinate` round has flagged the least member.**  It has been everywhere, and
behind its start it has come past the least member, or this is its start. -/
theorem TokenInv.flagged_of_completes (h : TokenInv f ring c) (hcycle : CycleOn f ring) {i : Nat}
    (hs : c.step ring (.deliver i) = some c') (hi : c.Completes i) (ha : Least ring a) :
    c'.Flagged a := by
  obtain ⟨dest, addresses, read, hm, hvisit⟩ := exists_of_completes hi
  obtain ⟨hall, hmem, x, hx, k, rfl, rfl, hflag⟩ := h.flight dest _ (List.mem_of_getElem? hm)
  obtain ⟨hlen, hmet⟩ := hcycle.mem_walk_of_revisit hx (toString_mem_trail.1 hvisit)
  -- the places behind the start are flagged already, up to the one where the token arrives now
  have hplace : ∀ j, 1 ≤ j → j ≤ k → Least ring (f^[j] x) → c'.Flagged (f^[j] x) := by
    intro j h1 hjk hleast
    rcases Nat.lt_or_eq_of_le hjk with hjk | rfl
    · exact h.flagged_step hcycle hs hleast (hflag j h1 hjk hleast)
    · rw [Tokens.step, hm, Option.map_some, Option.some.injEq] at hs
      subst hs
      exact flagged_dest hmem hleast
  obtain ⟨j, hj, rfl⟩ := mem_walk.1 (hmet a ha.1)
  rcases Nat.eq_zero_or_pos j with rfl | hpos
  · -- the start itself is passed again after a full round
    rw [Function.iterate_zero_apply] at ha ⊢
    rw [← hcycle.iterate_length hx] at ha ⊢
    exact hplace _ hcycle.length_pos hlen ha
  · exact hplace j hpos hj.le ha

/-! ## Runs

The invariant along a run, and the least member in it. -/

variable {c₀ : Tokens A} {tr : List (Tokens A)}

omit [DecidableEq A] in
/-- Between elections nothing is on its way and nobody is flagged. -/
theorem tokenInv_init (hflags : ∀ a ∈ ring, ¬c₀.Flagged a) (hflight : c₀.flight = []) :
    TokenInv (fun a => (c₀.node a).connection.prev) ring c₀ := by
  refine ⟨fun _ => rfl, fun a ha hfl => absurd hfl (hflags a ha), fun dest token hmem => ?_⟩
  rw [hflight] at hmem
  cases hmem

theorem tokenInv_run (hinv : TokenInv f ring c₀) (hcycle : CycleOn f ring)
    (h : Run (Tokens.step ring) (fun _ _ => True) c₀ tr) : ∀ c ∈ tr, TokenInv f ring c :=
  Run.forall_mem hinv (fun _ _ _ _ _ _ hc hs => hc.step hcycle hs) h

/-- **Unique coordinator.**  Only the member with the least address is ever flagged, and from the
moment a `coordinate` round is complete exactly that member is, for ever after. -/
theorem unique_coordinator (hcycle : CycleOn (fun a => (c₀.node a).connection.prev) ring)
    (hflags : ∀ a ∈ ring, ¬c₀.Flagged a) (hflight : c₀.flight = [])
    (h : Run (Tokens.step ring) (fun _ _ => True) c₀ tr) :
    (∀ c ∈ tr, ∀ a ∈ ring, c.Flagged a → Least ring a) ∧
      ∀ later c' c rest i, tr = later ++ c' :: c :: rest → c.step ring (.deliver i) = some c' →
        c.Completes i →
        ∃ m, Least ring m ∧ ∀ s ∈ later ++ [c'], ∀ a ∈ ring, s.Flagged a ↔ a = m := by
  have hinit := tokenInv_init hflags hflight
  have hinv := tokenInv_run hinit hcycle h
  refine ⟨fun c hc => (hinv c hc).flagged, ?_⟩
  rintro later c' c rest i rfl hs hi
  obtain ⟨m, hm⟩ := exists_least (A := A) hcycle.ne_nil
  refine ⟨m, hm, fun s hmem a ha => ⟨fun hfl => ?_, ?_⟩⟩
  · have hs_mem : s ∈ later ++ c' :: c :: rest := by
      rcases List.mem_append.1 hmem with hmem | hmem
      · exact List.mem_append_left _ hmem
      · rw [List.mem_singleton.1 hmem]
        simp
    exact ((hinv s hs_mem).flagged a ha hfl).unique hm
  · rintro rfl
    have hfl := (hinv c (by simp)).flagged_of_completes hcycle hs hi hm
    refine Run.forall_later (P := fun c => c.Flagged a) ?_ h hfl s hmem
    intro c tr act c' hrun _ hfl hs
    exact (tokenInv_run hinit hcycle hrun c List.mem_cons_self).flagged_step hcycle hs hm hfl

/-! ## A run -/

/-- Three members, nobody flagged. -/
def trio : Tokens (Fin 4) where
  node a := { Node.new a with
    connection :=
      if a = 0 then ⟨1, 2⟩ else if a = 1 then ⟨2, 0⟩ else if a = 2 then ⟨0, 1⟩ else ⟨a, a⟩ }
  flight := []

theorem cycleOn_trio : CycleOn (fun a => (trio.node a).connection.prev) [0, 1, 2] :=
  CycleOn.iff_isChain.2 ⟨by decide, by decide⟩

/-- An election of node 1 and its `coordinate` round: afterwards one member is flagged. -/
theorem unique_coordinator_trio :
    ∃ c' c : Tokens (Fin 4), ∃ tr m, Run (Tokens.step [0, 1, 2]) (fun _ _ => True) trio
      (c' :: c :: tr) ∧ Least [0, 1, 2] m ∧ ∀ a ∈ [0, 1, 2], c'.Flagged a ↔ a = m := by
  have hcheck : Run.checkStep (Tokens.step [0, 1, 2]) (fun _ _ => true) trio
      [.startElection 1, .deliver 0, .deliver 0, .deliver 0, .deliver 0, .deliver 0] (.deliver 0)
      (fun _ c _ => decide (c.Completes 0)) = true := by
    decide +kernel
  obtain ⟨c', c, tr, hrun, hs, hp⟩ :=
    Run.exists_of_checkStep (C := fun _ _ => True) (fun _ _ _ => trivial) hcheck
  obtain ⟨m, hm, hflags⟩ := (unique_coordinator cycleOn_trio (by decide) rfl hrun).2 [] c' c tr 0
    rfl hs (of_decide_eq_true hp)
  exact ⟨c', c, tr, m, hrun, hm, hflags c' (by simp)⟩

end Tokens
end Ring
end DistributedPrograms
