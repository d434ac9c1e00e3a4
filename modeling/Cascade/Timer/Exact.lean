import Cascade.Timer.Simulation

/-!
# Timers are called on time

What a wheel does is what its history says: which callbacks are called and when, what `cancel`
returns, and how many timers are pending. The ids are the only limit: they are numbers of 64 bits,
and when they come around while a timer is pending, its id is given to another one.
-/

namespace Timer

open TimerWheel

variable {α : Type}

/-- The wheel holds the timers that are pending, and the callbacks that were called, and are to be
called in this tick, are the expected ones. -/
structure Sound (numSlots : ℕ) (tickMs : UInt32) (s : Observed α) : Prop where
  sim : Sim numSlots tickMs s.timers.wheel s.history
  called : s.history.called ++ (s.timers.due.filterMap id).map (s.history.ticks, ·)
    = s.history.expected tickMs

/-- No timer that is pending has the id of the next one. -/
def Observed.Fresh (s : Observed α) : Prop :=
  ∀ t ∈ s.history.timers, t.pending s.timers.wheel.tickMs s.history.ticks = true →
    t.id ≠ s.timers.wheel.nextId

namespace Sound

variable {numSlots : ℕ} {tickMs : UInt32} {s : Observed α}

theorem start {w : TimerWheel α} (hpos : 0 < numSlots) (htick : 0 < tickMs.toNat)
    (hmake : make α numSlots tickMs = some w) :
  Sound numSlots tickMs (.start w)
  := ⟨Sim.start hpos htick hmake, rfl⟩

theorem addTimer (h : Sound numSlots tickMs s) {delayMs : UInt64} (callback : Option α)
    (hshort : delayMs.toNat < 2 ^ 63) (hfresh : s.Fresh) :
  Sound numSlots tickMs (s.step (.addTimer delayMs callback))
  := by
  rw [Observed.Fresh, h.sim.tickMs_eq] at hfresh
  refine ⟨h.sim.addTimer callback hshort hfresh, h.called.trans ?_⟩
  symm
  refine expected_congr rfl fun n hn => ?_
  -- The new timer is not due yet.
  have hnew : Scheduled.calledAt tickMs n
      ⟨s.timers.wheel.nextId, s.history.ticks, delayMs, callback, false⟩ = false := by
    rw [Bool.eq_false_iff, Ne, Scheduled.calledAt_iff]
    rintro ⟨-, rfl⟩
    have hlt := (Scheduled.pending_iff.mp (Sim.pending_new tickMs s.timers.wheel.nextId
      s.history.ticks delayMs callback)).2
    omega
  change ((s.history.timers ++ [(⟨s.timers.wheel.nextId, _, _, _, _⟩ : Scheduled α)]).filter
    _).filterMap _ = _
  rw [List.filter_append, List.filter_cons_of_neg (by rw [hnew]; simp), List.filter_nil,
    List.append_nil]

theorem cancel (h : Sound numSlots tickMs s) (id : UInt64) :
  Sound numSlots tickMs (s.step (.cancel id))
  := by
  by_cases hfound : ∃ t ∈ s.history.timers, t.pending tickMs s.history.ticks = true ∧ t.id = id
  · obtain ⟨t, ht, hpending, rfl⟩ := hfound
    have htrue := h.sim.cancel_eq_true_iff.mpr ⟨t, ht, hpending, rfl⟩
    have hstep : s.step (.cancel t.id) =
        ⟨⟨(s.timers.wheel.cancel t.id).2, s.timers.due⟩, { s.history with
          timers := s.history.timers.map
            (History.markCancelled tickMs s.history.ticks t.id) }⟩ := by
      rw [Observed.step, Timers.step, htrue, h.sim.tickMs_eq]
      rfl
    rw [hstep]
    refine ⟨h.sim.cancel ht hpending, h.called.trans ?_⟩
    symm
    refine expected_congr rfl fun n hn => ?_
    exact congrArg _ (Sim.filter_calledAt_markCancelled hn s.history.timers)
  · push Not at hfound
    have hstep : s.step (.cancel id) = s := by
      rw [Observed.step, Timers.step, h.sim.cancel_of_not_pending hfound]
      rfl
    rw [hstep]
    exact h

theorem tick (h : Sound numSlots tickMs s) :
  Sound numSlots tickMs (s.step .tick)
  := by
  have hcalled := h.called
  rw [Observed.step, Timers.step]
  cases hdue : s.timers.due with
  | cons callback due => exact h
  | nil =>
      rw [hdue, List.filterMap_nil, List.map_nil, List.append_nil] at hcalled
      refine ⟨h.sim.collect, ?_⟩
      change s.history.called ++ (s.timers.wheel.collect.1.filterMap id).map _
        = { s.history with ticks := s.history.ticks + 1 }.expected tickMs
      rw [expected_tick, h.sim.collect_due, hcalled, List.filterMap_map]
      rfl

theorem fire (h : Sound numSlots tickMs s) :
  Sound numSlots tickMs (s.step .fire)
  := by
  have hcalled := h.called
  rw [Observed.step, Timers.step]
  cases hdue : s.timers.due with
  | nil => exact h
  | cons callback due =>
      rw [hdue] at hcalled
      cases callback with
      | none => exact ⟨h.sim, hcalled⟩
      | some callback =>
          refine ⟨h.sim.call _, ?_⟩
          change (s.history.called ++ [_]) ++ (due.filterMap id).map _ = s.history.expected tickMs
          rw [← hcalled, List.append_assoc]
          rfl

/-- Every call is as the history says. -/
theorem step (h : Sound numSlots tickMs s) {call : Call α} (hshort : call.Short)
    (hfresh : call.adds = true → s.Fresh) :
  Sound numSlots tickMs (s.step call)
  := by
  cases call with
  | addTimer delayMs callback => exact h.addTimer callback hshort (hfresh rfl)
  | cancel id => exact h.cancel id
  | tick => exact h.tick
  | fire => exact h.fire

end Sound

/-! ### Ids -/

/-- The timers are numbered from 1, as far as 64 bits go. -/
structure Numbered (s : Observed α) : Prop where
  nextId : s.timers.wheel.nextId = UInt64.ofNat (1 + s.history.timers.length)
  ids : ∀ i t, s.history.timers[i]? = some t → t.id = UInt64.ofNat (1 + i)

namespace Numbered

variable {s : Observed α}

theorem start {numSlots : ℕ} {tickMs : UInt32} {w : TimerWheel α}
    (hmake : make α numSlots tickMs = some w) :
  Numbered (.start w)
  := by
  rw [make] at hmake
  split at hmake
  · obtain rfl := Option.some.inj hmake
    exact ⟨rfl, fun i t ht => by cases ht⟩
  · cases hmake

theorem addTimer (h : Numbered s) (delayMs : UInt64) (callback : Option α) :
  Numbered (s.step (.addTimer delayMs callback))
  where
  nextId := by
    change s.timers.wheel.nextId + 1
      = UInt64.ofNat (1 + (s.history.timers ++ [(⟨_, _, _, _, _⟩ : Scheduled α)]).length)
    rw [h.nextId, List.length_append, ← Nat.add_assoc,
      UInt64.ofNat_add (1 + s.history.timers.length)]
    rfl
  ids i t ht := by
    change (s.history.timers ++ [⟨s.timers.wheel.nextId, _, _, _, _⟩])[i]? = some t at ht
    rcases lt_trichotomy i s.history.timers.length with hlt | rfl | hgt
    · rw [List.getElem?_append_left hlt] at ht
      exact h.ids i t ht
    · rw [List.getElem?_concat_length] at ht
      obtain rfl := Option.some.inj ht
      exact h.nextId
    · rw [List.getElem?_eq_none (by simp; omega)] at ht
      cases ht

theorem id_markCancelled (tickMs : UInt32) (ticks : ℕ) (id : UInt64) (t : Scheduled α) :
  (History.markCancelled tickMs ticks id t).id = t.id
  := by
  rw [History.markCancelled]
  split <;> rfl

theorem cancel (h : Numbered s) (id : UInt64) :
  Numbered (s.step (.cancel id))
  := by
  have hnext : (s.step (.cancel id)).timers.wheel.nextId = s.timers.wheel.nextId :=
    nextId_cancel s.timers.wheel id
  cases hfound : (s.timers.wheel.cancel id).1 with
  | false =>
      have hhistory : (s.step (.cancel id)).history = s.history := by
        rw [Observed.step, Timers.step, hfound]
        rfl
      exact ⟨by rw [hnext, hhistory, h.nextId], by rw [hhistory]; exact h.ids⟩
  | true =>
      have htimers : (s.step (.cancel id)).history.timers = s.history.timers.map
          (History.markCancelled s.timers.wheel.tickMs s.history.ticks id) := by
        rw [Observed.step, Timers.step, hfound]
        rfl
      refine ⟨by rw [hnext, htimers, List.length_map, h.nextId], fun i t ht => ?_⟩
      rw [htimers, List.getElem?_map] at ht
      obtain ⟨u, hu, rfl⟩ := Option.map_eq_some_iff.mp ht
      rw [id_markCancelled]
      exact h.ids i u hu

/-- The ids are handed out in turn. -/
theorem step (h : Numbered s) (call : Call α) :
  Numbered (s.step call)
  := by
  cases call with
  | addTimer delayMs callback => exact h.addTimer delayMs callback
  | cancel id => exact h.cancel id
  | tick =>
      rw [Observed.step, Timers.step]
      cases s.timers.due with
      | nil => exact ⟨h.nextId, h.ids⟩
      | cons callback due => exact h
  | fire =>
      rw [Observed.step, Timers.step]
      cases s.timers.due with
      | nil => exact h
      | cons callback due => cases callback <;> exact ⟨h.nextId, h.ids⟩

/-- The next id is new, as long as there are ids. -/
theorem fresh (h : Numbered s) (hlt : s.history.timers.length < 2 ^ 64) :
  s.Fresh
  := by
  intro t ht _ heq
  obtain ⟨i, hi⟩ := List.mem_iff_getElem?.mp ht
  have hil := (List.getElem?_eq_some_iff.mp hi).1
  rw [h.ids i t hi, h.nextId] at heq
  have hmod := congrArg UInt64.toNat heq
  rw [UInt64.toNat_ofNat', UInt64.toNat_ofNat'] at hmod
  omega

/-- Timers have different ids, as long as there are ids. -/
theorem nodup (h : Numbered s) (hle : s.history.timers.length ≤ 2 ^ 64) :
  (s.history.timers.map Scheduled.id).Nodup
  := by
  rw [List.nodup_iff_getElem?_ne_getElem?]
  intro i j hij hj heq
  rw [List.length_map] at hj
  rw [List.getElem?_map, List.getElem?_map, List.getElem?_eq_getElem hj,
    List.getElem?_eq_getElem (by omega), Option.map_some, Option.map_some, Option.some_inj,
    h.ids i _ (List.getElem?_eq_getElem (by omega)), h.ids j _ (List.getElem?_eq_getElem hj)] at heq
  have hmod := congrArg UInt64.toNat heq
  rw [UInt64.toNat_ofNat', UInt64.toNat_ofNat'] at hmod
  omega

end Numbered

/-- The timers are counted. -/
theorem length_timers_step (s : Observed α) (call : Call α) :
  (s.step call).history.timers.length = s.history.timers.length + call.adds.toNat
  := by
  cases call with
  | addTimer delayMs callback => exact List.length_append
  | cancel id =>
      rw [Observed.step, Timers.step]
      cases (s.timers.wheel.cancel id).1 with
      | false => rfl
      | true => exact List.length_map _
  | tick =>
      rw [Observed.step, Timers.step]
      cases s.timers.due <;> rfl
  | fire =>
      rw [Observed.step, Timers.step]
      cases s.timers.due with
      | nil => rfl
      | cons callback due => cases callback <;> rfl

/-- With enough ids, every call of a run is as the history says. -/
theorem sound_run {numSlots : ℕ} {tickMs : UInt32} {s : Observed α}
    (hsound : Sound numSlots tickMs s)
    (hnumbered : Numbered s) {calls : List (Call α)} (hshort : ∀ call ∈ calls, call.Short)
    (hadds : s.history.timers.length + calls.countP Call.adds ≤ 2 ^ 64) :
  Sound numSlots tickMs (s.run calls) ∧ Numbered (s.run calls)
    ∧ (s.run calls).history.timers.length
      = s.history.timers.length + calls.countP Call.adds
  := by
  induction calls generalizing s with
  | nil => exact ⟨hsound, hnumbered, rfl⟩
  | cons call calls ih =>
      rw [List.countP_cons] at hadds
      have hlength := length_timers_step s call
      have hstep : Sound numSlots tickMs (s.step call) := by
        apply hsound.step (hshort call List.mem_cons_self)
        intro hadd
        apply hnumbered.fresh
        rw [hadd] at hadds
        simp only [if_true] at hadds
        omega
      have hcount : call.adds.toNat = if call.adds = true then 1 else 0 := by
        cases call.adds <;> rfl
      obtain ⟨hsound', hnumbered', hlength'⟩ := ih hstep (hnumbered.step call)
        (fun call hcall => hshort call (List.mem_cons_of_mem _ hcall)) (by omega)
      refine ⟨hsound', hnumbered', hlength'.trans ?_⟩
      rw [List.countP_cons]
      omega

/-- A timer that is added after `T` ticks is called once, in the tick with the number
`T + max 1 (delayMs / tickMs)`, unless it was cancelled before; timers that are due in the same tick
are called in the order in which they were added. To cancel a timer succeeds if it is pending, and
those that are pending are counted. This holds while there are ids. -/
theorem timers_exact {numSlots : ℕ} {tickMs : UInt32} {w : TimerWheel α} (hslots : 1 ≤ numSlots)
    (htick : 1 ≤ tickMs.toNat) (hmake : make α numSlots tickMs = some w) {calls : List (Call α)}
    (hshort : ∀ call ∈ calls, call.Short) (hadds : calls.countP Call.adds ≤ 2 ^ 64) :
  let s := (Observed.start w).run calls
  (s.history.timers.map Scheduled.id).Nodup
    ∧ s.history.called ++ (s.timers.due.filterMap id).map (s.history.ticks, ·)
      = s.history.expected tickMs
    ∧ (∀ id, (s.timers.wheel.cancel id).1 = true ↔
        ∃ t ∈ s.history.timers, t.pending tickMs s.history.ticks = true ∧ t.id = id)
    ∧ s.timers.wheel.pendingCount
      = s.history.timers.countP (Scheduled.pending tickMs s.history.ticks)
  := by
  intro s
  have hadds' : (Observed.start w).history.timers.length + calls.countP Call.adds ≤ 2 ^ 64 := by
    change 0 + _ ≤ _
    omega
  obtain ⟨hsound, hnumbered, hlength⟩ := sound_run (Sound.start hslots htick hmake)
    (Numbered.start hmake) hshort hadds'
  refine ⟨hnumbered.nodup (hlength.trans_le hadds'), hsound.called, ?_, hsound.sim.pendingCount_eq⟩
  exact fun id => hsound.sim.cancel_eq_true_iff

theorem timers_exact_two_slots :
  ∃ w, make ℕ 2 10 = some w
    ∧ let s := (Observed.start w).run
        [.addTimer 25 (some 0), .addTimer 5 (some 1), .tick, .fire, .cancel 1, .addTimer 40 none]
      s.timers.wheel.pendingCount
        = s.history.timers.countP (Scheduled.pending 10 s.history.ticks)
  := by
  have hmake : make ℕ 2 10 = some ⟨List.replicate 2 [], 10, 0, 1, ∅⟩ := rfl
  refine ⟨_, hmake, (timers_exact (by decide) (by decide) hmake ?_ (by decide)).2.2.2⟩
  simp [Call.Short]

/-! ### When the ids come around -/

/-- A timer is added and stays, while others are added and cancelled. -/
def reuse (n : ℕ) : List (Call Unit) :=
  .addTimer 1 none
    :: (List.range n).flatMap fun i => [.addTimer 1 none, .cancel (UInt64.ofNat (2 + i))]

theorem reuse_succ (n : ℕ) :
  reuse (n + 1) = reuse n ++ [Call.addTimer 1 none, Call.cancel (UInt64.ofNat (2 + n))]
  := by
  rw [reuse, reuse, List.range_succ, List.flatMap_append, List.flatMap_singleton, List.cons_append]

theorem countP_adds_reuse (n : ℕ) :
  (reuse n).countP Call.adds = n + 1
  := by
  induction n with
  | zero => rfl
  | succ n ih =>
      rw [reuse_succ, List.countP_append, ih]
      rfl

theorem short_of_mem_reuse {n : ℕ} {call : Call Unit} (hcall : call ∈ reuse n) :
  call.Short
  := by
  induction n with
  | zero =>
      rw [List.mem_singleton.mp hcall]
      change (1 : UInt64).toNat < 2 ^ 63
      decide
  | succ n ih =>
      rw [reuse_succ, List.mem_append, List.mem_pair] at hcall
      rcases hcall with hcall | rfl | rfl
      · exact ih hcall
      · change (1 : UInt64).toNat < 2 ^ 63
        decide
      · trivial

/-- The timer that stays is not cancelled by a call for another id. -/
theorem getElem?_cancel {s : Observed Unit} {t : Scheduled Unit} {i : ℕ} {id : UInt64}
    (ht : s.history.timers[i]? = some t) (hid : t.id ≠ id) :
  (s.step (.cancel id)).history.timers[i]? = some t
  := by
  rw [Observed.step, Timers.step]
  cases (s.timers.wheel.cancel id).1 with
  | false => exact ht
  | true =>
      change (s.history.timers.map _)[i]? = some t
      rw [List.getElem?_map, ht, Option.map_some, History.markCancelled, if_neg fun h => hid h.2]

theorem reuse_history {w : TimerWheel Unit} (hmake : make Unit 1 1 = some w) {n : ℕ}
    (hn : n < 2 ^ 64) :
  ((Observed.start w).run (reuse n)).history.ticks = 0
    ∧ ((Observed.start w).run (reuse n)).history.timers[0]? = some ⟨1, 0, 1, none, false⟩
  := by
  induction n with
  | zero =>
      rw [make] at hmake
      obtain rfl := Option.some.inj hmake
      exact ⟨rfl, rfl⟩
  | succ n ih =>
      obtain ⟨hticks, hfirst⟩ := ih (by omega)
      have hne : (1 : UInt64) ≠ UInt64.ofNat (2 + n) := by
        intro heq
        have hmod := congrArg UInt64.toNat heq
        rw [UInt64.toNat_ofNat'] at hmod
        change 1 = (2 + n) % 2 ^ 64 at hmod
        omega
      rw [reuse_succ, Observed.run, List.foldl_append]
      change (((Observed.run _ (reuse n)).step _).step _).history.ticks = 0
        ∧ (((Observed.run _ (reuse n)).step _).step _).history.timers[0]? = _
      set s := (Observed.start w).run (reuse n)
      refine ⟨?_, getElem?_cancel ?_ hne⟩
      · rw [Observed.step, Timers.step]
        cases ((s.step (.addTimer 1 none)).timers.wheel.cancel (UInt64.ofNat (2 + n))).1 <;>
          exact hticks
      · exact List.getElem?_append_left (List.getElem?_eq_some_iff.mp hfirst).1 |>.trans hfirst

/-- A timer whose id is given to another one is not counted. -/
theorem pendingCount_addTimer {w : TimerWheel α} (hmem : w.nextId ∈ w.idToSlot) (delayMs : UInt64)
    (callback : Option α) :
  (w.addTimer delayMs callback).2.pendingCount = w.pendingCount
  := by
  have hkeys : ∀ slot, (w.idToSlot.insert w.nextId slot).keys = w.idToSlot.keys := by
    intro slot
    ext id
    rw [Finmap.mem_keys, Finmap.mem_keys, Finmap.mem_insert]
    exact or_iff_right_of_imp fun h => h ▸ hmem
  exact congrArg Finset.card (hkeys _)

theorem pendingCount_ne_of_reuse {w : TimerWheel Unit} (hmake : make Unit 1 1 = some w) {n : ℕ}
    (hn : n + 1 = 2 ^ 64) :
  let s := (Observed.start w).run (reuse n ++ [Call.addTimer 1 none])
  s.timers.wheel.pendingCount ≠ s.history.timers.countP (Scheduled.pending 1 s.history.ticks)
  := by
  obtain ⟨hticks, hfirst⟩ := reuse_history hmake (n := n) (by omega)
  have hadds : (Observed.start w).history.timers.length + (reuse n).countP Call.adds = 2 ^ 64 := by
    rw [countP_adds_reuse, hn]
    exact Nat.zero_add _
  have hstart : Sound 1 1 (Observed.start w) := Sound.start Nat.one_pos (by decide) hmake
  obtain ⟨hsound, hnumbered, hlength⟩ := sound_run hstart (Numbered.start hmake)
    (fun _ => short_of_mem_reuse) hadds.le
  rw [Observed.run, List.foldl_append]
  change ((Observed.run _ (reuse n)).step _).timers.wheel.pendingCount
    ≠ ((Observed.run _ (reuse n)).step _).history.timers.countP
      (Scheduled.pending 1 (Observed.run _ (reuse n)).history.ticks)
  set s := (Observed.start w).run (reuse n)
  -- The ids have come around to the first one.
  have hnext : s.timers.wheel.nextId = 1 := by
    rw [hnumbered.nextId, hlength, hadds]
    decide
  have hpending : Scheduled.pending 1 s.history.ticks (⟨1, 0, 1, none, false⟩ : Scheduled Unit)
      = true := by
    rw [hticks]
    rfl
  have hmem : s.timers.wheel.nextId ∈ s.timers.wheel.idToSlot := by
    rw [hnext, Finmap.mem_iff]
    exact ⟨_, (hsound.sim.idToSlot 1 _).mpr
      ⟨_, List.mem_of_getElem? hfirst, hpending, rfl, rfl⟩⟩
  have hcount : (s.step (.addTimer 1 none)).timers.wheel.pendingCount
      = s.history.timers.countP (Scheduled.pending 1 s.history.ticks) :=
    (pendingCount_addTimer hmem 1 none).trans hsound.sim.pendingCount_eq
  change _ ≠ (s.history.timers ++ [(⟨_, s.history.ticks, 1, none, false⟩ : Scheduled Unit)]).countP
    (Scheduled.pending 1 s.history.ticks)
  rw [hcount, List.countP_append, List.countP_singleton, if_pos (Sim.pending_new _ _ _ _ _)]
  exact (Nat.succ_ne_self _).symm

/-- With one more timer than there are ids, two timers are pending and one is counted. -/
theorem pendingCount_reuse :
  ∃ w, make Unit 1 1 = some w
    ∧ (∀ call ∈ reuse (2 ^ 64 - 1) ++ [.addTimer 1 none], call.Short)
    ∧ let s := (Observed.start w).run (reuse (2 ^ 64 - 1) ++ [.addTimer 1 none])
      s.timers.wheel.pendingCount ≠ s.history.timers.countP (Scheduled.pending 1 s.history.ticks)
  := by
  have hmake : make Unit 1 1 = some ⟨List.replicate 1 [], 1, 0, 1, ∅⟩ := rfl
  refine ⟨_, hmake, fun call hcall => ?_, pendingCount_ne_of_reuse hmake (by decide)⟩
  rcases List.mem_append.mp hcall with hcall | hcall
  · exact short_of_mem_reuse hcall
  · rw [List.mem_singleton.mp hcall]
    change (1 : UInt64).toNat < 2 ^ 63
    decide

end Timer
