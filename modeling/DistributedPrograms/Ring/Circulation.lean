import DistributedPrograms.Ring.Resignation

/-!
# The way of one token

One `list` or `election` token is followed through the traffic: other tokens and announcements may
be on their way, rounds may start and messages may arrive in any order.  `Travels` counts how often
the followed token has been relayed, for whatever the `prev` pointers are.  `Announces` follows an
announcement in the same way, and remembers which other lists arrive in the meantime.

The token is a walk along `prev` that has not met a place twice, so no ring relays it more often
than it has members.  Where the pointers are a cycle, the first place it meets again is its start.

A message has no name.  It is known by its place in the list of everything on its way, and `place`
says where it stands after an action that is not its own arrival; the lemmas on one step are about
that.

* `Travels.getElem?`: the token lists the places of the walk from its start, and stands at the next
  one.
* `Travels.nodup`: it has not met a place twice, for arbitrary pointers.
* `Travels.stop_iff`: on a cycle it stops at its start, with everybody on it.
* `Announces.ringCache`: whoever has been called has the announced list, or one that was announced
  since.
* `token_circulation` is all of it, from the first message of a round to the last call of its
  announcement.
-/

set_option autoImplicit false

namespace DistributedPrograms
namespace Ring
namespace Tokens

open SocketAddr

/-- The two tokens that collect the addresses of the nodes they come to. -/
inductive Collector where
  | list
  | election
  deriving DecidableEq, Repr

def Collector.token : Collector → List String → Token
  | .list => .list
  | .election => .election

@[simp] theorem Collector.token_inj {t : Collector} {l l' : List String} :
    t.token l = t.token l' ↔ l = l' := by
  cases t <;> simp [Collector.token]

variable {A : Type}

/-- Where the message at place `i` stands after `act`, if it has not arrived. -/
def place : TokenAction A → Nat → Nat
  | .startElection _, i => i
  | .startList _, i => i
  | .deliver j, i => if j < i then i - 1 else i

variable [DecidableEq A] [SocketAddr A]

/-- A token that was on its way from `n` in `c₀`, with nobody but `n` on it, has been relayed `k`
times and stands at place `i` of `c`. -/
inductive Travels (ring : List A) (t : Collector) (n : A) (c₀ : Tokens A) :
    Tokens A → Nat → Nat → Prop
  | start {i : Nat}
      (h : c₀.flight[i]? = some (.token (c₀.node n).connection.prev (t.token [toString n]))) :
      Travels ring t n c₀ c₀ i 0
  | other {c c' : Tokens A} {i k : Nat} {act : TokenAction A} (h : Travels ring t n c₀ c i k)
      (hact : act ≠ .deliver i) (hs : c.step ring act = some c') :
      Travels ring t n c₀ c' (place act i) k
  | relay {c c' : Tokens A} {i k : Nat} {dest : A} {addresses : List String}
      (h : Travels ring t n c₀ c i k)
      (hm : c.flight[i]? = some (.token dest (t.token addresses)))
      (hnew : toString dest ∉ addresses) (hs : c.step ring (.deliver i) = some c') :
      Travels ring t n c₀ c' (c.flight.length - 1) (k + 1)

/-- The list that an action announces.  An announcement writes a cache each time it is delivered, as
long as there is somebody left to call. -/
def announced (c : Tokens A) : TokenAction A → List (List String)
  | .deliver i =>
    match c.flight[i]? with
    | some (.announce (_ :: _) addresses) => [addresses]
    | _ => []
  | _ => []

/-- The announcement of `addresses` that started in `c₀` stands at place `i` of `c` and has `rest`
to call; the lists `others` have been announced in the meantime. -/
inductive Announces (ring : List A) (addresses : List String) (c₀ : Tokens A) :
    Tokens A → Nat → List String → List (List String) → Prop
  | start {i : Nat} (h : c₀.flight[i]? = some (.announce addresses addresses)) :
      Announces ring addresses c₀ c₀ i addresses []
  | other {c c' : Tokens A} {i : Nat} {rest : List String} {others : List (List String)}
      {act : TokenAction A} (h : Announces ring addresses c₀ c i rest others)
      (hact : act ≠ .deliver i) (hs : c.step ring act = some c') :
      Announces ring addresses c₀ c' (place act i) rest (c.announced act ++ others)
  | call {c c' : Tokens A} {i : Nat} {address : String} {rest : List String}
      {others : List (List String)} (h : Announces ring addresses c₀ c i (address :: rest) others)
      (hs : c.step ring (.deliver i) = some c') :
      Announces ring addresses c₀ c' (c.flight.length - 1) rest others

/-! ## One step

Places shift when another message is taken away, and what an arrival causes is put at the end. -/

section Step

variable {ring : List A} {c c' : Tokens A} {act : TokenAction A} {i : Nat} {m : Message A}

omit [DecidableEq A] [SocketAddr A] in
/-- Taking the message at another place away leaves a message where `place` says. -/
theorem getElem?_place {l out : List (Message A)} (hm : l[i]? = some m) {j : Nat} (hj : j ≠ i) :
    (l.eraseIdx j ++ out)[place (.deliver j : TokenAction A) i]? = some m := by
  have hi : i < l.length := (List.getElem?_eq_some_iff.1 hm).1
  rw [place]
  split
  · next hlt =>
    have hle : j ≤ i - 1 := by omega
    have herase : (l.eraseIdx j)[i - 1]? = some m := by
      rw [List.getElem?_eraseIdx, if_neg hle.not_gt, Nat.sub_add_cancel (by omega), hm]
    rw [List.getElem?_append_left (List.getElem?_eq_some_iff.1 herase).1, herase]
  · next hge =>
    have hlt : i < j := by omega
    have herase : (l.eraseIdx j)[i]? = some m := by
      rw [List.getElem?_eraseIdx, if_pos hlt, hm]
    rw [List.getElem?_append_left (List.getElem?_eq_some_iff.1 herase).1, herase]

/-- What arrives is taken away, and what it causes is put at the end. -/
theorem receive_flight (c : Tokens A) (i : Nat) (m : Message A) :
    ∃ out, (c.receive i m).flight = c.flight.eraseIdx i ++ out := by
  cases m with
  | token dest token => exact ⟨_, rfl⟩
  | announce rest addresses =>
    cases rest with
    | nil => exact ⟨[], (List.append_nil _).symm⟩
    | cons address rest =>
      refine ⟨[.announce rest addresses], ?_⟩
      rw [receive]
      cases (parse address : Option A) <;> rfl

/-- A message that does not arrive stays on its way. -/
theorem step_flight (hs : c.step ring act = some c') (hm : c.flight[i]? = some m)
    (hact : act ≠ .deliver i) : c'.flight[place act i]? = some m := by
  have hi : i < c.flight.length := (List.getElem?_eq_some_iff.1 hm).1
  rcases step_cases hs with ⟨n, -, rfl, rfl⟩ | ⟨n, -, rfl, -, rfl⟩ | ⟨j, m', rfl, -, rfl⟩
  · rwa [place, List.getElem?_append_left hi]
  · rwa [place, List.getElem?_append_left hi]
  · obtain ⟨out, hout⟩ := receive_flight c j m'
    rw [hout]
    exact getElem?_place hm fun hj => hact (congrArg _ hj)

/-- No step changes the connections. -/
theorem step_connection (hs : c.step ring act = some c') (a : A) :
    (c'.node a).connection = (c.node a).connection := by
  rcases step_cases hs with ⟨n, -, -, rfl⟩ | ⟨n, -, -, -, rfl⟩ | ⟨j, m', -, -, rfl⟩
  · rfl
  · rfl
  · exact receive_connection c j m' a

omit [DecidableEq A] [SocketAddr A] in
/-- The one message that an arrival causes is the last one on its way. -/
theorem getElem?_receive_last {l : List (Message A)} (hi : i < l.length) :
    (l.eraseIdx i ++ [m])[l.length - 1]? = some m := by
  rw [← List.length_eraseIdx_of_lt hi, List.getElem?_concat_length]

theorem step_deliver (hs : c.step ring (.deliver i) = some c') (hm : c.flight[i]? = some m) :
    c' = c.receive i m := by
  rw [step, hm] at hs
  exact (Option.some.inj hs).symm

end Step

/-! ## The token

One token among all messages, followed from place to place. -/

omit [DecidableEq A] in
/-- A node that is not on the token adds itself and sends the token to its `prev`. -/
theorem handle_collector {n : Node A} {me : A} {t : Collector} {addresses : List String}
    (hnew : toString me ∉ addresses) : (n.handle me (t.token addresses)).2 =
      [.token n.connection.prev (t.token (addresses ++ [toString me]))] := by
  cases t with
  | list => rw [Collector.token, Node.handle, if_pos hnew]
  | election => rw [Collector.token, Node.handle, if_pos hnew]

section Travels

variable {f : A → A} {ring : List A} {t : Collector} {n : A} {c₀ c : Tokens A} {i k : Nat}

theorem Travels.connection (h : Travels ring t n c₀ c i k) (a : A) :
    (c.node a).connection = (c₀.node a).connection := by
  induction h with
  | start _ => rfl
  | other _ _ hs ih => rw [step_connection hs, ih]
  | relay _ _ _ hs ih => rw [step_connection hs, ih]

/-- **The token is a walk**: it lists the places of the walk from its start, and stands at the next
one.  Whatever else is on its way, and whatever is handled in between, does not touch it. -/
theorem Travels.getElem? (h : Travels ring t n c₀ c i k)
    (hmaps : ∀ a ∈ ring, f a ∈ ring) (hprev : ∀ a ∈ ring, (c₀.node a).connection.prev = f a)
    (hn : n ∈ ring) :
    f^[k + 1] n ∈ ring ∧
      c.flight[i]? = some (.token (f^[k + 1] n) (t.token (trail f n (k + 1)))) := by
  induction h with
  | start hm =>
    rw [trail_one, hm, hprev n hn]
    exact ⟨hmaps n hn, rfl⟩
  | other _ hact hs ih => exact ⟨ih.1, step_flight hs ih.2 hact⟩
  | @relay c c' i k dest addresses h hm hnew hs ih =>
    obtain ⟨hmem, htoken⟩ := ih
    have hi : i < c.flight.length := (List.getElem?_eq_some_iff.1 hm).1
    rw [htoken, Option.some.injEq, Message.token.injEq, Collector.token_inj] at hm
    obtain ⟨rfl, rfl⟩ := hm
    have hnext : f^[k + 1 + 1] n = f (f^[k + 1] n) := Function.iterate_succ_apply' f _ n
    have hconn : (c.node (f^[k + 1] n)).connection.prev = f (f^[k + 1] n) := by
      rw [h.connection, hprev _ hmem]
    rw [step_deliver hs htoken]
    refine ⟨hnext ▸ hmaps _ hmem, ?_⟩
    show (c.flight.eraseIdx i ++ ((c.node (f^[k + 1] n)).handle (f^[k + 1] n) _).2)[_]? = _
    rw [handle_collector hnew, getElem?_receive_last hi, hconn, hnext, trail_succ f n (k + 1)]

/-- **It has not met a place twice.** -/
theorem Travels.nodup (h : Travels ring t n c₀ c i k)
    (hmaps : ∀ a ∈ ring, f a ∈ ring) (hprev : ∀ a ∈ ring, (c₀.node a).connection.prev = f a)
    (hn : n ∈ ring) : (walk f n (k + 1)).Nodup := by
  induction h with
  | start _ => simp [walk]
  | other _ _ _ ih => exact ih
  | relay h hm hnew _ ih =>
    obtain ⟨-, htoken⟩ := h.getElem? hmaps hprev hn
    rw [htoken, Option.some.injEq, Message.token.injEq, Collector.token_inj] at hm
    obtain ⟨rfl, rfl⟩ := hm
    exact nodup_walk_succ ih fun hvisit => hnew (toString_mem_trail.2 hvisit)

omit [DecidableEq A] in
theorem nodup_trail (h : (walk f n k).Nodup) : (trail f n k).Nodup :=
  h.map toString_injective

/-- On a cycle the token stops at its start, with everybody on it. -/
theorem Travels.stop_iff (h : Travels ring t n c₀ c i k) (hcycle : CycleOn f ring)
    (hprev : ∀ a ∈ ring, (c₀.node a).connection.prev = f a) (hn : n ∈ ring) :
    toString (f^[k + 1] n) ∈ trail f n (k + 1) ↔ f^[k + 1] n = n := by
  rw [toString_mem_trail]
  exact hcycle.revisit_iff hn k.succ_pos (h.nodup (fun _ => hcycle.mem) hprev hn)

theorem Travels.trail_eq (h : Travels ring t n c₀ c i k) (hcycle : CycleOn f ring)
    (hprev : ∀ a ∈ ring, (c₀.node a).connection.prev = f a) (hn : n ∈ ring)
    (hvisit : toString (f^[k + 1] n) ∈ trail f n (k + 1)) :
    trail f n (k + 1) = trail f n ring.length ∧
      (trail f n (k + 1)).Perm (ring.map SocketAddr.toString) := by
  obtain ⟨hlen, hperm⟩ := hcycle.walk_perm hn (h.nodup (fun _ => hcycle.mem) hprev hn)
    (toString_mem_trail.1 hvisit)
  exact ⟨congrArg _ hlen, hperm.map _⟩

end Travels

/-! ## The announcement

Caches change by announcements only, so what a node has in its cache is the last list it was called
with. -/

section Announces

variable {ring : List A} {c c' c₀ : Tokens A} {i : Nat} {rest addresses : List String}
  {others : List (List String)}

/-- An arrival changes the cache of a node only to an announced list. -/
theorem receive_announce_ringCache (c : Tokens A) (i : Nat) (address : String)
    (rest addresses : List String) (a : A) :
    ((c.receive i (.announce (address :: rest) addresses)).node a).ringCache =
      if parse address = some a then addresses else (c.node a).ringCache := by
  rw [receive]
  cases hparse : (parse address : Option A) with
  | none => rfl
  | some b =>
    show (Function.update c.node b ((c.node b).connectionAnnounce addresses) a).ringCache = _
    by_cases hab : a = b
    · rw [hab, Function.update_self, if_pos rfl, Node.connectionAnnounce]
    · rw [Function.update_of_ne hab, if_neg fun hba => hab (Option.some.inj hba).symm]

omit [DecidableEq A] in
theorem handle_ringCache (n : Node A) (me : A) (token : Token) :
    (n.handle me token).1.ringCache = n.ringCache := by
  cases token with
  | list addresses =>
    rw [Node.handle]
    split
    · rw [Node.relayList]
      split <;> rfl
    · rfl
  | election addresses =>
    rw [Node.handle]
    split <;> rfl
  | coordinate addresses read => rfl

/-- **Caches change by announcements only.** -/
theorem step_ringCache {act : TokenAction A} (hs : c.step ring act = some c') (a : A) :
    (c'.node a).ringCache = (c.node a).ringCache ∨ (c'.node a).ringCache ∈ c.announced act := by
  rcases step_cases hs with ⟨n, -, rfl, rfl⟩ | ⟨n, -, rfl, -, rfl⟩ | ⟨j, m, rfl, hm, rfl⟩
  · exact Or.inl rfl
  · exact Or.inl rfl
  · cases m with
    | token dest token =>
      rw [receive_token_node]
      split
      · next ha => exact Or.inl (by rw [handle_ringCache, ha])
      · exact Or.inl rfl
    | announce rest addresses =>
      cases rest with
      | nil => exact Or.inl rfl
      | cons address rest =>
        rw [receive_announce_ringCache, announced, hm]
        split
        · exact Or.inr (List.mem_singleton_self _)
        · exact Or.inl rfl

/-- **Whoever has been called** has the announced list, or a list announced in the meantime.  An
announcement is one call after the other, and two of them may overlap. -/
theorem Announces.ringCache (h : Announces ring addresses c₀ c i rest others) :
    c.flight[i]? = some (.announce rest addresses) ∧ ∀ a : A, toString a ∈ addresses →
      toString a ∈ rest ∨ (c.node a).ringCache ∈ addresses :: others := by
  induction h with
  | start hm => exact ⟨hm, fun _ ha => Or.inl ha⟩
  | @other c c' i rest others act _ hact hs ih =>
    refine ⟨step_flight hs ih.1 hact, fun a ha => ?_⟩
    refine (ih.2 a ha).imp_right fun hcache => ?_
    rcases step_ringCache hs a with heq | hother
    · rw [heq]
      exact List.cons_subset_cons _ (List.subset_append_right _ _) hcache
    · exact List.mem_cons_of_mem _ (List.mem_append_left _ hother)
  | @call c c' i address rest others _ hs ih =>
    obtain ⟨hm, hcache⟩ := ih
    have hi : i < c.flight.length := (List.getElem?_eq_some_iff.1 hm).1
    rw [step_deliver hs hm]
    refine ⟨?_, fun a ha => ?_⟩
    · have hflight : (c.receive i (.announce (address :: rest) addresses)).flight =
          c.flight.eraseIdx i ++ [.announce rest addresses] := by
        rw [receive]
        cases (parse address : Option A) <;> rfl
      rw [hflight, getElem?_receive_last hi]
    · rw [receive_announce_ringCache]
      split
      · exact Or.inr List.mem_cons_self
      · next hne =>
        refine (hcache a ha).imp_left fun hmem => ?_
        rcases List.mem_cons.1 hmem with rfl | hmem
        · exact absurd (parse_toString a) hne
        · exact hmem

end Announces

/-! ## The whole way

From its start to its return, and the announcement behind it. -/

omit [DecidableEq A] in
/-- A node that finds itself on a `list` token announces it. -/
theorem handle_list_stop {n : Node A} {me : A} {addresses : List String}
    (hvisit : toString me ∈ addresses) :
    (n.handle me (.list addresses)).2 = [.announce addresses addresses] := by
  rw [Node.handle, if_neg (not_not.2 hvisit)]

section Circulation

variable {f : A → A} {ring : List A} {t : Collector} {n : A} {c₀ c : Tokens A} {i k : Nat}

/-- A `list` token that has come around starts the announcement of its members. -/
theorem Travels.starts_announce {c' : Tokens A} (h : Travels ring .list n c₀ c i k)
    (hcycle : CycleOn f ring) (hprev : ∀ a ∈ ring, (c₀.node a).connection.prev = f a)
    (hn : n ∈ ring) (hvisit : toString (f^[k + 1] n) ∈ trail f n (k + 1))
    (hs : c.step ring (.deliver i) = some c') :
    c'.flight[c.flight.length - 1]? =
      some (.announce (trail f n (k + 1)) (trail f n (k + 1))) := by
  obtain ⟨-, hm⟩ := h.getElem? (fun _ => hcycle.mem) hprev hn
  have hi : i < c.flight.length := (List.getElem?_eq_some_iff.1 hm).1
  rw [step_deliver hs hm]
  show (c.flight.eraseIdx i ++ ((c.node (f^[k + 1] n)).handle (f^[k + 1] n) (.list _)).2)[_]? = _
  rw [handle_list_stop hvisit, getElem?_receive_last hi]

/-- When an announcement has called everybody, every member has its list, or one announced in the
meantime. -/
theorem Announces.all_called {addresses : List String} {others : List (List String)}
    (h : Announces ring addresses c₀ c i [] others)
    (hall : addresses.Perm (ring.map SocketAddr.toString)) :
    ∀ a ∈ ring, (c.node a).ringCache ∈ addresses :: others := by
  intro a ha
  have hmem : toString a ∈ addresses := hall.mem_iff.2 (toString_mem_map.2 ha)
  exact (h.ringCache.2 a hmem).resolve_left List.not_mem_nil

/-- **Token circulation.**  A token is relayed less often than there are nodes and carries no
address twice, and until it stops its arrival relays it.  On a cycle it stops exactly at its start,
with every member once, in the order of `prev`; a `list` token is then announced, and when the last
call has been made every member's cache is that list, or a list announced in the meantime. -/
theorem token_circulation (hmaps : ∀ a ∈ ring, f a ∈ ring)
    (hprev : ∀ a ∈ ring, (c₀.node a).connection.prev = f a) (hn : n ∈ ring)
    (h : Travels ring t n c₀ c i k) :
    ∃ dest addresses, c.flight[i]? = some (.token dest (t.token addresses)) ∧
      k < ring.length ∧ addresses.Nodup ∧
      (toString dest ∉ addresses → ∃ c', c.step ring (.deliver i) = some c' ∧
        Travels ring t n c₀ c' (c.flight.length - 1) (k + 1)) ∧
      (CycleOn f ring → (toString dest ∈ addresses ↔ dest = n) ∧
        (toString dest ∈ addresses → addresses = trail f n ring.length ∧
          addresses.Perm (ring.map SocketAddr.toString)) ∧
        (t = .list → toString dest ∈ addresses → ∀ c', c.step ring (.deliver i) = some c' →
          c'.flight[c.flight.length - 1]? = some (.announce addresses addresses) ∧
          ∀ c'' j others, Announces ring addresses c' c'' j [] others →
            ∀ a ∈ ring, (c''.node a).ringCache ∈ addresses :: others)) := by
  obtain ⟨-, hm⟩ := h.getElem? hmaps hprev hn
  have hwalk := h.nodup hmaps hprev hn
  refine ⟨f^[k + 1] n, trail f n (k + 1), hm, length_le_of_walk_nodup hmaps hn hwalk,
    nodup_trail hwalk, fun hnew => ?_, fun hcycle => ?_⟩
  · have hs := congrArg (Option.map (c.receive i)) hm
    exact ⟨_, hs, h.relay hm hnew hs⟩
  · refine ⟨h.stop_iff hcycle hprev hn, h.trail_eq hcycle hprev hn, ?_⟩
    rintro rfl hvisit c' hs
    exact ⟨h.starts_announce hcycle hprev hn hvisit hs,
      fun _ _ _ hann => hann.all_called (h.trail_eq hcycle hprev hn hvisit).2⟩

end Circulation

/-- The three members, with a `list` token of node 1. -/
def listTrio : Tokens (Fin 4) :=
  { trio with flight := [.token 2 (.list [SocketAddr.toString (1 : Fin 4)])] }

/-- The token of node 1 is relayed twice and has come around. -/
theorem token_circulation_trio : ∃ c dest addresses,
    Travels [0, 1, 2] .list 1 listTrio c 0 2 ∧
      c.flight[0]? = some (.token dest (.list addresses)) ∧ addresses.Nodup ∧
      dest = 1 ∧ addresses = trail (fun a => (trio.node a).connection.prev) 1 3 := by
  let prev : Fin 4 → Fin 4 := fun a => (trio.node a).connection.prev
  let first := Message.token (2 : Fin 4) (.list (trail prev 1 1))
  let second := Message.token (0 : Fin 4) (.list (trail prev 1 2))
  have h₁ : Travels [0, 1, 2] .list 1 listTrio (listTrio.receive 0 first) 0 1 :=
    Travels.relay (.start rfl) (rfl : listTrio.flight[0]? = some first) (by decide +kernel) rfl
  have h₂ : Travels [0, 1, 2] .list 1 listTrio ((listTrio.receive 0 first).receive 0 second) 0 2 :=
    Travels.relay h₁ (rfl : (listTrio.receive 0 first).flight[0]? = some second)
      (by decide +kernel) rfl
  obtain ⟨dest, addresses, hm, -, hnodup, -, hround⟩ :=
    token_circulation (by decide : ∀ a ∈ [0, 1, 2], prev a ∈ [0, 1, 2]) (by decide) (by decide) h₂
  have hdest : dest = 1 := by
    have heq := hm.symm.trans (rfl : _ = some (Message.token (1 : Fin 4) (.list (trail prev 1 3))))
    rw [Option.some.injEq, Message.token.injEq] at heq
    exact heq.1
  obtain ⟨hstop, hall, -⟩ := hround cycleOn_trio
  exact ⟨_, dest, addresses, h₂, hm, hnodup, hdest, (hall (hstop.2 hdest)).1⟩

end Tokens
end Ring
end DistributedPrograms
