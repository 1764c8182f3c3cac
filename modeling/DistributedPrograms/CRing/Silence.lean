import DistributedPrograms.CRing.Election

/-!
# When the C ring elects

`heatbeater` looks at `coordinator_called_flag` twice, with a sleep of three seconds between the two
looks, and starts an election if the flag was reset both times.  Only `heatbeater` itself resets the
flag, and every `list` sets it; so in the whole sleep the process has not handled a `list`.

The flag may be set again between the second look and the election.  The history of a run therefore
falls into a part after the second look, the watch, and what was before it.

* `Silent a watch`: moments, the latest first, at which `heatbeater` of `a` sleeps with the flag
  reset, and in which `a` has handled no `list`.  A `list` may well have been sent to `a` in this
  time, as long as its handler has not come to set the flag.
* `WatchInv` says of a history where its watch is: the moments since the first look, or those
  between the two looks if the decision has been made.
* `election_after_silence` is the result: when a process starts an election, its history holds a
  whole sleep of its `heatbeater`, from the first look at the flag to the second, which is such a
  watch.

How long a sleep is plays no part; the code sleeps three seconds, where a comment speaks of a random
time.
-/

set_option autoImplicit false

namespace DistributedPrograms
namespace CRing
namespace Rounds

variable {ring : List Name} {s s' : Rounds} {act : RoundAction} {a : Name}

/-- A `list` that the process `a` has not handled. -/
def Unhandled (s : Rounds) (a : Name) (i : Nat) (nodeList : NodeList) : Prop :=
  s.handlers[i]? = some (a, .arriving (.list nodeList))

/-- Moments, the latest first, at which `heatbeater` of `a` sleeps with the flag reset, and in
which `a` has handled no `list`.  One that is on its way to `a` all the time does not disturb the
silence. -/
structure Silent (a : Name) (watch : List Rounds) : Prop where
  watching : ∀ v ∈ watch, (v.process a).heatbeater = .watching ∧
    (v.process a).coordinatorCalledFlag = .reseted
  unhandled : ∀ u ∈ watch, ∀ w ∈ watch.head?, ∀ i nodeList, u.Unhandled a i nodeList →
    w.Unhandled a i nodeList

/-! ## One step

What moves the `heatbeater` of a process and what touches its flag.  Everything else leaves both
alone. -/

theorem reseted_setProcess {b : Name} {p : Process}
    (hp : p.coordinatorCalledFlag = (s.process b).coordinatorCalledFlag) :
    ((s.setProcess b p).process a).coordinatorCalledFlag = .reseted →
      (s.process a).coordinatorCalledFlag = .reseted := by
  rw [setProcess_process]
  split
  · next hab =>
    rw [hp, hab]
    exact id
  · exact id

theorem heatbeater_setProcess {b : Name} {p : Process}
    (hp : p.heatbeater = (s.process b).heatbeater) :
    ((s.setProcess b p).process a).heatbeater = (s.process a).heatbeater := by
  rw [setProcess_process]
  split
  · next hab => rw [hp, hab]
  · rfl

theorem enter_heatbeater {p : Process} {rpc : Rpc} :
    (p.enter a rpc).1.heatbeater = p.heatbeater := by
  cases rpc <;> dsimp only [Process.enter] <;> split <;> rfl

/-- Of the three handlers, `list` touches the flag. -/
theorem enter_flag {p : Process} {rpc : Rpc} : (p.enter a rpc).1.coordinatorCalledFlag =
    match rpc with
    | .list _ => .recieved
    | _ => p.coordinatorCalledFlag := by
  cases rpc <;> dsimp only [Process.enter] <;> split <;> rfl

/-- What `heatbeater` of `b` does to another process. -/
theorem heatbeat_other {b : Name} (hab : a ≠ b) : (s.heatbeat b).process a = s.process a := by
  obtain ⟨p, -, -, -, hq | hq | hq⟩ := heatbeat_cases s b <;> rw [hq] <;>
    exact (setProcess_process ..).trans (if_neg hab)

/-- Only the process itself moves its `heatbeater`, and only a `list` changes its flag besides. -/
theorem step_other (hs : s.step ring act = some s') (hact : act ≠ .heatbeat a) :
    (s'.process a).heatbeater = (s.process a).heatbeater ∧
      ((s'.process a).coordinatorCalledFlag = .reseted →
        (s.process a).coordinatorCalledFlag = .reseted) := by
  cases step_cases hs with
  | @heatbeat b hb =>
    have hab : a ≠ b := fun hab => hact (congrArg _ hab.symm)
    rw [heatbeat_other hab]
    exact ⟨rfl, id⟩
  | relink hb hprev => exact ⟨heatbeater_setProcess rfl, reseted_setProcess rfl⟩
  | @enter i b rpc hi =>
    refine ⟨heatbeater_setProcess enter_heatbeater, ?_⟩
    rw [setHandler_process, setProcess_process]
    split
    · next hab =>
      rw [enter_flag, hab]
      cases rpc with
      | list nodeList => exact fun h => by cases h
      | election nodeList => exact id
      | coordinate members read => exact id
    · exact id
  | lock hi hfree => exact ⟨heatbeater_setProcess rfl, reseted_setProcess rfl⟩
  | forward hi => exact ⟨rfl, id⟩
  | unlock hi => exact ⟨heatbeater_setProcess rfl, reseted_setProcess rfl⟩
  | elect hi => exact ⟨heatbeater_setProcess rfl, reseted_setProcess rfl⟩

/-- A `list` stays unhandled, or the flag is set. -/
theorem unhandled_step (hs : s.step ring act = some s') {i : Nat} {nodeList : NodeList}
    (hi : s.Unhandled a i nodeList) : s'.Unhandled a i nodeList ∨
      (s'.process a).coordinatorCalledFlag = .recieved := by
  have hlt : i < s.handlers.length := (List.getElem?_eq_some_iff.1 hi).1
  -- a handler that is not this one leaves it alone
  have hother : ∀ {j : Nat} {x : Name × Handler} {out : List (Name × Handler)}, j ≠ i →
      s'.handlers = s.handlers.set j x ++ out → s'.Unhandled a i nodeList := by
    intro j x out hji hs'
    rw [Unhandled, hs', List.getElem?_append_left (by rwa [List.length_set]),
      List.getElem?_set_ne hji]
    exact hi
  have hne : ∀ {j : Nat} {b : Name} {h : Handler}, s.handlers[j]? = some (b, h) →
      (∀ rpc, h ≠ .arriving rpc) → j ≠ i := by
    rintro j b h hj hh rfl
    exact hh _ (Prod.mk.inj (Option.some.inj (hj.symm.trans hi))).2
  cases step_cases hs with
  | @heatbeat b hb =>
    left
    rcases heatbeat_cases s b with ⟨p, -, -, -, hq | hq | hq⟩ <;> rw [Unhandled, hq]
    · exact hi
    · exact (List.getElem?_append_left hlt).trans hi
    · exact (List.getElem?_append_left hlt).trans hi
  | relink hb hprev => exact Or.inl hi
  | @enter j b rpc hj =>
    by_cases hji : j = i
    · subst hji
      obtain ⟨rfl, hrpc⟩ := Prod.mk.inj (Option.some.inj (hj.symm.trans hi))
      obtain rfl : rpc = .list nodeList := Handler.arriving.inj hrpc
      right
      rw [setHandler_process, setProcess_process, if_pos rfl, enter_flag]
    · exact Or.inl (hother hji (List.append_nil _).symm)
  | lock hj hfree => exact Or.inl (hother (hne hj (by simp)) (List.append_nil _).symm)
  | forward hj => exact Or.inl (hother (hne hj (by simp)) rfl)
  | unlock hj => exact Or.inl (hother (hne hj (by simp)) (List.append_nil _).symm)
  | elect hj => exact Or.inl (hother (hne hj (by simp)) (List.append_nil _).symm)

/-! ## The watch

The moments of one sleep, and what is known of them at its end. -/

/-- What the history says where `heatbeater` sleeps with the flag reset, and where it has decided to
start an election: the sleep is in it, from its first moment on. -/
structure WatchInv (a : Name) (s : Rounds) (tr : List Rounds) : Prop where
  watching : (s.process a).heatbeater = .watching → (s.process a).coordinatorCalledFlag = .reseted →
    ∃ watch c rest, s :: tr = (s :: watch) ++ c :: rest ∧ Silent a (s :: watch) ∧
      (c.process a).heatbeater = .checking
  electing : (s.process a).heatbeater = .electing →
    ∃ later watch c rest, s :: tr = later ++ watch ++ c :: rest ∧ watch ≠ [] ∧ Silent a watch ∧
      (c.process a).heatbeater = .checking ∧ ∀ v ∈ later, (v.process a).heatbeater = .electing

theorem silent_singleton (hbeat : (s.process a).heatbeater = .watching)
    (hflag : (s.process a).coordinatorCalledFlag = .reseted) : Silent a [s] where
  watching v hv := by
    rw [List.mem_singleton.1 hv]
    exact ⟨hbeat, hflag⟩
  unhandled u hu w hw i nodeList hi := by
    obtain rfl := List.mem_singleton.1 hu
    obtain rfl : u = w := by simpa using hw
    exact hi

/-- The watch goes on while the flag stays reset. -/
theorem Silent.cons {watch : List Rounds} (h : Silent a (s :: watch))
    (hs : s.step ring act = some s') (hbeat : (s'.process a).heatbeater = .watching)
    (hflag : (s'.process a).coordinatorCalledFlag = .reseted) : Silent a (s' :: s :: watch) where
  watching v hv := by
    rcases List.mem_cons.1 hv with rfl | hv
    · exact ⟨hbeat, hflag⟩
    · exact h.watching v hv
  unhandled u hu w hw i nodeList hi := by
    obtain rfl : s' = w := by simpa using hw
    rcases List.mem_cons.1 hu with rfl | hu
    · exact hi
    · have hold : s.Unhandled a i nodeList := h.unhandled u hu s (by simp) i nodeList hi
      refine (unhandled_step hs hold).resolve_right fun hrec => ?_
      rw [hflag] at hrec
      cases hrec

/-- What `heatbeater` of `a` itself does. -/
theorem heatbeat_self (s : Rounds) (a : Name) :
    (((s.heatbeat a).process a).heatbeater = .watching →
      (s.process a).heatbeater = .checking) ∧
    (((s.heatbeat a).process a).heatbeater = .electing →
      (s.process a).heatbeater = .watching ∧ (s.process a).coordinatorCalledFlag = .reseted) := by
  rw [heatbeat]
  cases hbeat : (s.process a).heatbeater with
  | top =>
    dsimp only
    split <;> simp [setHeatbeater]
  | leading => simp [setHeatbeater]
  | checking =>
    dsimp only
    split <;> simp [setHeatbeater]
  | watching =>
    dsimp only
    split
    · next hflag => simp [setHeatbeater, hflag]
    · simp
  | electing => simp [setHeatbeater]

theorem WatchInv.step {tr : List Rounds} (h : WatchInv a s tr) (hs : s.step ring act = some s') :
    WatchInv a s' (s :: tr) := by
  by_cases hact : act = .heatbeat a
  · subst hact
    obtain ⟨-, rfl⟩ : a ∈ ring ∧ s.heatbeat a = s' := by simpa [Rounds.step] using hs
    obtain ⟨hchecking, hwatching⟩ := heatbeat_self s a
    refine ⟨fun hbeat hflag => ?_, fun hbeat => ?_⟩
    · exact ⟨[], s, tr, rfl, silent_singleton hbeat hflag, hchecking hbeat⟩
    · obtain ⟨hold, hflag⟩ := hwatching hbeat
      obtain ⟨watch, c, rest, htr, hsilent, hc⟩ := h.watching hold hflag
      refine ⟨[s.heatbeat a], s :: watch, c, rest, ?_, List.cons_ne_nil _ _, hsilent, hc, ?_⟩
      · rw [htr, List.append_assoc, List.singleton_append]
      · intro v hv
        rw [List.mem_singleton.1 hv]
        exact hbeat
  · obtain ⟨hsame, hflag⟩ := step_other hs hact
    refine ⟨fun hbeat hreset => ?_, fun hbeat => ?_⟩
    · obtain ⟨watch, c, rest, htr, hsilent, hc⟩ := h.watching (hsame ▸ hbeat) (hflag hreset)
      exact ⟨s :: watch, c, rest, congrArg (s' :: ·) htr, hsilent.cons hs hbeat hreset, hc⟩
    · obtain ⟨later, watch, c, rest, htr, hne, hsilent, hc, hlater⟩ := h.electing (hsame ▸ hbeat)
      refine ⟨s' :: later, watch, c, rest, congrArg (s' :: ·) htr, hne, hsilent, hc, ?_⟩
      exact List.forall_mem_cons.2 ⟨hbeat, hlater⟩

/-! ## Runs

The watch along a run. -/

variable {s₀ : Rounds} {tr : List Rounds}

theorem watchInv_run (hinit : (s₀.process a).heatbeater = .top)
    (h : Run (Rounds.step ring) (fun _ _ => True) s₀ (s :: tr)) : WatchInv a s tr := by
  refine Run.head_induction (P := WatchInv a) ⟨?_, ?_⟩
    (fun s tr act s' _ _ hs ih => ih.step hs) h
  · intro hbeat
    rw [hinit] at hbeat
    cases hbeat
  · intro hbeat
    rw [hinit] at hbeat
    cases hbeat

/-- **No election without a silent watch.**  When a process starts an election, its history holds a
whole sleep of its `heatbeater`, from the first look at the flag to the second, in which the flag
was reset at every moment and not one `list` was handled; since then it has only been about to
elect. -/
theorem election_after_silence (hinit : (s₀.process a).heatbeater = .top)
    (h : Run (Rounds.step ring) (fun _ _ => True) s₀ (s :: tr))
    (hs : s.step ring (.heatbeat a) = some s') {dest : Name}
    (hsent : s'.handlers = s.handlers ++ [(dest, .arriving (.election [a]))]) :
    ∃ later watch c rest, s :: tr = later ++ watch ++ c :: rest ∧ watch ≠ [] ∧ Silent a watch ∧
      (c.process a).heatbeater = .checking ∧ ∀ v ∈ later, (v.process a).heatbeater = .electing := by
  refine (watchInv_run hinit h).electing ?_
  obtain ⟨-, rfl⟩ : a ∈ ring ∧ s.heatbeat a = s' := by simpa [Rounds.step] using hs
  rw [heatbeat] at hsent
  cases hbeat : (s.process a).heatbeater with
  | electing => rfl
  | leading => simp [hbeat, setHeatbeater] at hsent
  | top => simp [hbeat, setHeatbeater] at hsent
  | checking =>
    rw [hbeat] at hsent
    dsimp only at hsent
    split at hsent <;> simp [setHeatbeater] at hsent
  | watching =>
    rw [hbeat] at hsent
    dsimp only at hsent
    split at hsent <;> simp [setHeatbeater] at hsent

/-- The `heatbeater` of `b` alone: two looks at the flag, and an election. -/
theorem election_after_silence_trio : ∃ s tr, Run (Rounds.step [nameA, nameC, nameB])
    (fun _ _ => True) trio (s :: tr) ∧ ∃ later watch c rest, s :: tr = later ++ watch ++ c :: rest ∧
      watch ≠ [] ∧ Silent nameB watch ∧ (c.process nameB).heatbeater = .checking := by
  have hcheck : Run.checkStep (Rounds.step [nameA, nameC, nameB]) (fun _ _ => true) trio
      [.heatbeat nameB, .heatbeat nameB, .heatbeat nameB] (.heatbeat nameB)
      (fun s' s _ => decide (s'.handlers =
        s.handlers ++ [(nameA, .arriving (.election [nameB]))])) = true := by
    decide +kernel
  obtain ⟨s', s, tr, hrun, hs, hp⟩ :=
    Run.exists_of_checkStep (C := fun _ _ => True) (fun _ _ _ => trivial) hcheck
  have hpast : Run (Rounds.step [nameA, nameC, nameB]) (fun _ _ => True) trio (s :: tr) :=
    hrun.of_suffix (List.suffix_cons _ _) (List.cons_ne_nil _ _)
  obtain ⟨later, watch, c, rest, htr, hne, hsilent, hc, -⟩ :=
    election_after_silence rfl hpast hs (of_decide_eq_true hp)
  exact ⟨s, tr, hpast, later, watch, c, rest, htr, hne, hsilent, hc⟩

end Rounds
end CRing
end DistributedPrograms
