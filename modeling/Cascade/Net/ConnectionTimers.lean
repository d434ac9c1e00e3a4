import Cascade.Net.ConnectionManager
import Cascade.Timer.Simulation

/-!
# The timers of connections

What the manager has to know about the wheel: which connections have a timer that is pending, with
its id and the number of ticks before it was added. To arm and to cancel timers changes that for
one connection, and a tick for those whose timers are due, which are the ones that were added so
many ticks before as the timeout says.
-/

namespace Timer

/-- The timers that are pending with a callback. -/
def History.pendingFor {α : Type} [DecidableEq α] (tickMs : UInt32) (h : History α)
    (callback : α) : List (Scheduled α) :=
  h.timers.filter fun t => t.pending tickMs h.ticks && t.callback = some callback

end Timer

namespace Net

open Timer ConnectionManager

variable {numSlots : ℕ} {tickMs : UInt32} {timeoutMs : UInt64} {h : History ConnectionId}
  {id : ConnectionId} {t : Scheduled ConnectionId}

theorem mem_pendingFor :
  t ∈ h.pendingFor tickMs id
    ↔ t ∈ h.timers ∧ t.pending tickMs h.ticks = true ∧ t.callback = some id
  := by
  rw [History.pendingFor, List.mem_filter, Bool.and_eq_true, decide_eq_true_iff]

/-! ### How they change -/

theorem pendingFor_concat_self (hpending : t.pending tickMs h.ticks = true)
    (hcallback : t.callback = some id) :
  { h with timers := h.timers ++ [t] }.pendingFor tickMs id = h.pendingFor tickMs id ++ [t]
  := by
  change (h.timers ++ [t]).filter _ = _
  rw [List.filter_append, List.filter_cons_of_pos (by simp [hpending, hcallback])]
  rfl

theorem pendingFor_concat_of_ne {id' : ConnectionId} (hcallback : t.callback = some id)
    (hne : id' ≠ id) :
  { h with timers := h.timers ++ [t] }.pendingFor tickMs id' = h.pendingFor tickMs id'
  := by
  change (h.timers ++ [t]).filter _ = _
  rw [List.filter_append, List.filter_cons_of_neg (by simp [hcallback, hne.symm])]
  apply List.append_nil

theorem pendingFor_markCancelled (h : History ConnectionId) (timerId : UInt64)
    (id : ConnectionId) :
  { h with timers := h.timers.map (History.markCancelled tickMs h.ticks timerId) }.pendingFor
      tickMs id
    = (h.pendingFor tickMs id).filter fun t => t.id ≠ timerId
  := by
  have hcallback : ∀ t : Scheduled ConnectionId,
      (History.markCancelled tickMs h.ticks timerId t).callback = t.callback := by
    intro t
    rw [History.markCancelled]
    split <;> rfl
  change (h.timers.map _).filter _ = _
  rw [Sim.filter_markCancelled h.timers fun t => by rw [hcallback], History.pendingFor,
    List.filter_filter]
  apply List.filter_congr
  exact fun t _ => Bool.and_comm _ _

theorem pendingFor_tick (h : History ConnectionId) (id : ConnectionId) :
  { h with ticks := h.ticks + 1 }.pendingFor tickMs id
    = (h.pendingFor tickMs id).filter (Scheduled.pending tickMs (h.ticks + 1))
  := by
  change h.timers.filter _ = _
  rw [History.pendingFor, List.filter_filter]
  apply List.filter_congr
  intro t _
  rw [Bool.eq_iff_iff, Bool.and_eq_true, Bool.and_eq_true, Bool.and_eq_true]
  constructor
  · rintro ⟨hpending, hcallback⟩
    exact ⟨hpending, Scheduled.pending_iff_calledAt_or.mpr (.inr hpending), hcallback⟩
  · rintro ⟨hpending, -, hcallback⟩
    exact ⟨hpending, hcallback⟩

/-! ### One timer at most -/

/-- After so many ticks, the timers in the wheel are one for each connection that is listed, with
its id and when it was added. -/
structure Holds (numSlots : ℕ) (tickMs : UInt32) (timeoutMs : UInt64) (w : TimerWheel ConnectionId)
    (ticks : ℕ) (pending : ConnectionId → Option (UInt64 × ℕ)) (h : History ConnectionId) :
    Prop where
  sim : Sim numSlots tickMs w h
  ticks_eq : h.ticks = ticks
  delayMs : ∀ t ∈ h.timers, t.delayMs = timeoutMs
  callback : ∀ t ∈ h.timers, t.callback ≠ none
  pendingFor : ∀ id, (h.pendingFor tickMs id).map (fun t => (t.id, t.added)) = (pending id).toList

namespace Holds

variable {w : TimerWheel ConnectionId} {ticks added : ℕ} {timerId : UInt64}
  {pending : ConnectionId → Option (UInt64 × ℕ)}

theorem start (hpos : 0 < numSlots) (htick : 0 < tickMs.toNat)
    (hmake : TimerWheel.make ConnectionId numSlots tickMs = some w) :
  Holds numSlots tickMs timeoutMs w 0 (fun _ => none) .empty
  := by
  refine ⟨Sim.start hpos htick hmake, rfl, ?_, ?_, fun id => rfl⟩
  · exact fun t ht => absurd ht List.not_mem_nil
  · exact fun t ht => absurd ht List.not_mem_nil

theorem pendingFor_eq_nil (hholds : Holds numSlots tickMs timeoutMs w ticks pending h)
    (hid : pending id = none) :
  h.pendingFor tickMs id = []
  := by
  have hmap := hholds.pendingFor id
  rw [hid] at hmap
  exact List.map_eq_nil_iff.mp hmap

theorem pendingFor_eq_singleton (hholds : Holds numSlots tickMs timeoutMs w ticks pending h)
    (hid : pending id = some (timerId, added)) :
  ∃ t, h.pendingFor tickMs id = [t] ∧ t.id = timerId ∧ t.added = added
  := by
  have hmap := hholds.pendingFor id
  rw [hid] at hmap
  obtain ⟨t, ht, heq⟩ := List.map_eq_singleton_iff.mp hmap
  obtain ⟨rfl, rfl⟩ := Prod.mk.inj heq
  exact ⟨t, ht, rfl, rfl⟩

theorem length_pendingFor_le (hholds : Holds numSlots tickMs timeoutMs w ticks pending h)
    (id : ConnectionId) :
  (h.pendingFor tickMs id).length ≤ 1
  := by
  have hlength := congrArg List.length (hholds.pendingFor id)
  rw [List.length_map] at hlength
  rw [hlength]
  cases pending id with
  | none => exact Nat.zero_le 1
  | some timer => exact le_rfl

/-- A timer is due when the timeout is over. -/
theorem due_eq (hholds : Holds numSlots tickMs timeoutMs w ticks pending h) (ht : t ∈ h.timers) :
  t.due tickMs = t.added + max 1 (timeoutMs.toNat / tickMs.toNat)
  := by
  rw [Scheduled.due, hholds.delayMs t ht]

/-! ### Arming and cancelling -/

/-- A connection gets a timer. -/
theorem addTimer (hholds : Holds numSlots tickMs timeoutMs w ticks pending h)
    (hshort : timeoutMs.toNat < 2 ^ 63) (hid : pending id = none)
    (hfresh : w.idToSlot.lookup w.nextId = none) :
  ∃ h', Holds numSlots tickMs timeoutMs (w.addTimer timeoutMs (some id)).2 ticks
    (Function.update pending id (some (w.nextId, ticks))) h'
  := by
  have hticks := hholds.ticks_eq
  have hfresh' : ∀ u ∈ h.timers, u.pending tickMs h.ticks = true → u.id ≠ w.nextId := by
    intro u hu hpending hid
    have hsome := (hholds.sim.idToSlot u.id _).mpr ⟨u, hu, hpending, rfl, rfl⟩
    rw [hid, hfresh] at hsome
    cases hsome
  have hsim := hholds.sim.addTimer (some id) hshort hfresh'
  set t : Scheduled ConnectionId := ⟨w.nextId, h.ticks, timeoutMs, some id, false⟩
  have hpending : t.pending tickMs h.ticks = true := Sim.pending_new ..
  refine ⟨{ h with timers := h.timers ++ [t] }, hsim, hticks, ?_, ?_, ?_⟩
  · intro u hu
    rcases List.mem_append.mp hu with hu | hu
    · exact hholds.delayMs u hu
    · rw [List.mem_singleton.mp hu]
  · intro u hu
    rcases List.mem_append.mp hu with hu | hu
    · exact hholds.callback u hu
    · rw [List.mem_singleton.mp hu]
      apply Option.some_ne_none
  · intro id'
    rcases eq_or_ne id' id with rfl | hne
    · rw [pendingFor_concat_self hpending rfl, hholds.pendingFor_eq_nil hid, Function.update_self,
        ← hticks]
      rfl
    · rw [pendingFor_concat_of_ne (show t.callback = some id from rfl) hne,
        Function.update_of_ne hne]
      apply hholds.pendingFor

/-- A connection loses its timer. -/
theorem cancel (hholds : Holds numSlots tickMs timeoutMs w ticks pending h)
    (hid : pending id = some (timerId, added)) :
  ∃ h', Holds numSlots tickMs timeoutMs (w.cancel timerId).2 ticks
    (Function.update pending id none) h'
  := by
  obtain ⟨t, ht, rfl, -⟩ := hholds.pendingFor_eq_singleton hid
  obtain ⟨hmem, hpending, hcallback⟩ := mem_pendingFor.mp (ht ▸ List.mem_cons_self)
  refine ⟨_, hholds.sim.cancel hmem hpending, hholds.ticks_eq, ?_, ?_, ?_⟩
  · intro u hu
    obtain ⟨u, humem, rfl⟩ := List.mem_map.mp hu
    rw [History.markCancelled]
    split <;> exact hholds.delayMs u humem
  · intro u hu
    obtain ⟨u, humem, rfl⟩ := List.mem_map.mp hu
    rw [History.markCancelled]
    split <;> exact hholds.callback u humem
  · intro id'
    rw [pendingFor_markCancelled]
    rcases eq_or_ne id' id with rfl | hne
    · rw [ht, Function.update_self]
      simp
    · -- The timers of other connections have other ids.
      have hself : ((h.pendingFor tickMs id').filter fun u => u.id ≠ t.id)
          = h.pendingFor tickMs id' := by
        rw [List.filter_eq_self]
        intro u hu
        obtain ⟨humem, hupending, hucallback⟩ := mem_pendingFor.mp hu
        rw [decide_eq_true_iff]
        intro huid
        obtain rfl := hholds.sim.eq_of_id_eq humem hupending hmem hpending huid
        exact hne (Option.some.inj (hucallback.symm.trans hcallback))
      rw [hself, Function.update_of_ne hne]
      apply hholds.pendingFor

/-! ### Ticks -/

theorem collect_due (hholds : Holds numSlots tickMs timeoutMs w ticks pending h) :
  w.collect.1 = (h.timers.filter (Scheduled.calledAt tickMs (ticks + 1))).map Scheduled.callback
  := by
  rw [hholds.sim.collect_due, hholds.ticks_eq]

/-- The connections whose timers are due. -/
theorem mem_collect_iff (hholds : Holds numSlots tickMs timeoutMs w ticks pending h) :
  id ∈ w.collect.1.reduceOption ↔ ∃ timerId added, pending id = some (timerId, added)
    ∧ added + max 1 (timeoutMs.toNat / tickMs.toNat) = ticks + 1
  := by
  rw [List.reduceOption_mem_iff, hholds.collect_due, List.mem_map]
  constructor
  · rintro ⟨t, ht, hcallback⟩
    obtain ⟨hmem, hcalled⟩ := List.mem_filter.mp ht
    rw [← hholds.ticks_eq] at hcalled
    have hpending := Scheduled.pending_iff_calledAt_or.mpr (.inl hcalled)
    have hmap := hholds.pendingFor id
    have hpendingFor : (t.id, t.added) ∈ (pending id).toList :=
      hmap ▸ List.mem_map_of_mem (mem_pendingFor.mpr ⟨hmem, hpending, hcallback⟩)
    refine ⟨t.id, t.added, Option.mem_toList.mp hpendingFor, ?_⟩
    rw [← hholds.due_eq hmem, (Scheduled.calledAt_iff.mp hcalled).2, hholds.ticks_eq]
  · rintro ⟨timerId, added, hid, hdue⟩
    obtain ⟨t, ht, -, rfl⟩ := hholds.pendingFor_eq_singleton hid
    obtain ⟨hmem, hpending, hcallback⟩ := mem_pendingFor.mp (ht ▸ List.mem_cons_self)
    refine ⟨t, List.mem_filter.mpr ⟨hmem, Scheduled.calledAt_iff.mpr ?_⟩, hcallback⟩
    exact ⟨(Scheduled.pending_iff.mp hpending).1, (hholds.due_eq hmem).trans hdue⟩

/-- No connection is due twice. -/
theorem nodup_collect (hholds : Holds numSlots tickMs timeoutMs w ticks pending h) :
  w.collect.1.reduceOption.Nodup
  := by
  rw [List.nodup_iff_count_le_one]
  intro id
  refine le_trans ?_ (hholds.length_pendingFor_le id)
  rw [hholds.collect_due, List.reduceOption, List.count_filterMap, List.countP_map,
    List.countP_filter, History.pendingFor, ← List.countP_eq_length_filter]
  apply List.countP_mono_left
  intro t _ hcond
  simp only [Function.comp_apply, Bool.and_eq_true, beq_iff_eq, decide_eq_true_iff] at hcond ⊢
  rw [hholds.ticks_eq]
  exact ⟨Scheduled.pending_iff_calledAt_or.mpr (.inl hcond.2), hcond.1⟩

/-- A tick takes away the timers that are due. -/
theorem collect (hholds : Holds numSlots tickMs timeoutMs w ticks pending h) :
  Holds numSlots tickMs timeoutMs w.collect.2 (ticks + 1)
    (fun id => if id ∈ w.collect.1.reduceOption then none else pending id)
    { h with ticks := h.ticks + 1 }
  := by
  refine ⟨hholds.sim.collect, congrArg (· + 1) hholds.ticks_eq, hholds.delayMs, hholds.callback, ?_⟩
  intro id
  rw [pendingFor_tick]
  split
  · rename_i hmem
    obtain ⟨timerId, added, hid, hdue⟩ := hholds.mem_collect_iff.mp hmem
    obtain ⟨t, ht, -, rfl⟩ := hholds.pendingFor_eq_singleton hid
    have htmem := (mem_pendingFor.mp (ht ▸ List.mem_cons_self)).1
    have hnot : ¬ t.pending tickMs (h.ticks + 1) = true := by
      rw [Scheduled.pending_iff, hholds.due_eq htmem, hdue, hholds.ticks_eq]
      exact fun hpending => lt_irrefl _ hpending.2
    rw [ht, List.filter_cons_of_neg hnot]
    rfl
  · rename_i hmem
    have hself : (h.pendingFor tickMs id).filter (Scheduled.pending tickMs (h.ticks + 1))
        = h.pendingFor tickMs id := by
      rw [List.filter_eq_self]
      intro t ht
      obtain ⟨htmem, hpending, hcallback⟩ := mem_pendingFor.mp ht
      apply (Scheduled.pending_iff_calledAt_or.mp hpending).resolve_left
      intro hcalled
      apply hmem
      rw [List.reduceOption_mem_iff, hholds.collect_due, ← hholds.ticks_eq]
      exact List.mem_map.mpr ⟨t, List.mem_filter.mpr ⟨htmem, hcalled⟩, hcallback⟩
    rw [hself]
    apply hholds.pendingFor

/-! ### In the wheel -/

theorem flatMap_range_ite {i n : ℕ} (hi : i < n) (a : UInt64) :
  ((List.range n).flatMap fun j => if i = j then [a] else []) = [a]
  := by
  induction n with
  | zero => cases hi
  | succ n ih =>
      rw [List.range_succ, List.flatMap_append, List.flatMap_singleton]
      rcases Nat.lt_succ_iff_lt_or_eq.mp hi with hlt | rfl
      · rw [ih hlt, if_neg hlt.ne, List.append_nil]
      · have hnil : ((List.range i).flatMap fun j => if i = j then [a] else []) = [] := by
          rw [List.flatMap_eq_nil_iff]
          intro j hj
          rw [if_neg (List.mem_range.mp hj).ne']
        rw [hnil, if_pos rfl, List.nil_append]

theorem slots_eq (hholds : Holds numSlots tickMs timeoutMs w ticks pending h) :
  w.slots = (List.range numSlots).map (h.bucket numSlots tickMs)
  := by
  apply List.ext_getElem?
  intro j
  rcases lt_or_ge j numSlots with hj | hj
  · rw [hholds.sim.slots j hj, List.getElem?_map, List.getElem?_range hj, Option.map_some]
  · rw [List.getElem?_eq_none (hholds.sim.length.trans_le hj),
      List.getElem?_eq_none (by simpa using hj)]

/-- The slots hold one timer for each connection that is listed. -/
theorem timersOf_eq {m : ConnectionManager}
    (hholds : Holds numSlots tickMs timeoutMs m.wheel ticks pending h) (id : ConnectionId) :
  m.timersOf id = ((pending id).map Prod.fst).toList
  := by
  have hbucket : ∀ j, ((h.bucket numSlots tickMs j).filter (·.callback = some id)).map Entry.id
      = ((h.pendingFor tickMs id).filter (·.slot numSlots tickMs = j)).map Scheduled.id := by
    intro j
    rw [History.bucket, List.filter_map, List.filter_filter, History.pendingFor, List.filter_filter,
      List.map_map]
    congr 1
    apply List.filter_congr
    intro t _
    simp only [Function.comp_apply, Scheduled.entry]
    ac_rfl
  rw [timersOf, hholds.slots_eq, List.flatMap_map]
  simp only [hbucket]
  cases hid : pending id with
  | none =>
      rw [hholds.pendingFor_eq_nil hid]
      exact List.flatMap_eq_nil_iff.mpr fun _ _ => rfl
  | some timer =>
      obtain ⟨t, ht, hfst, -⟩ := hholds.pendingFor_eq_singleton hid
      have hsingle : ∀ j, ([t].filter (·.slot numSlots tickMs = j)).map Scheduled.id
          = if t.slot numSlots tickMs = j then [t.id] else [] := by
        intro j
        rw [List.filter_singleton]
        split <;> simp_all
      rw [ht]
      simp only [hsingle]
      rw [flatMap_range_ite (hholds.sim.slot_lt t), hfst]
      rfl

/-- They hold no other timers. -/
theorem exists_of_mem_slots (hholds : Holds numSlots tickMs timeoutMs w ticks pending h)
    {bucket : List (Entry ConnectionId)} (hbucket : bucket ∈ w.slots) {entry : Entry ConnectionId}
    (hentry : entry ∈ bucket) :
  ∃ id, entry.callback = some id ∧ (pending id).map Prod.fst = some entry.id
  := by
  rw [hholds.slots_eq] at hbucket
  obtain ⟨j, -, rfl⟩ := List.mem_map.mp hbucket
  obtain ⟨t, ht, rfl⟩ := List.mem_map.mp hentry
  obtain ⟨hmem, hcond⟩ := List.mem_filter.mp ht
  obtain ⟨hpending, -⟩ := Bool.and_eq_true_iff.mp hcond
  obtain ⟨id, hid⟩ := Option.ne_none_iff_exists'.mp (hholds.callback t hmem)
  have hmap := hholds.pendingFor id
  have htimer : (t.id, t.added) ∈ (pending id).toList :=
    hmap ▸ List.mem_map_of_mem (mem_pendingFor.mpr ⟨hmem, hpending, hid⟩)
  exact ⟨id, hid, by rw [Option.mem_toList.mp htimer]; rfl⟩

end Holds

end Net
