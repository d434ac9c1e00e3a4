import Cascade.Timer.History

/-!
# Slots and due ticks

A slot of the wheel holds the timers that are due when it is visited, in this revolution or a later
one, in the order in which they were added. As the slots are visited in turn, the slot of a timer is
told by its due tick, and so are the revolutions that remain.
-/

namespace Timer

open TimerWheel

variable {α : Type}

/-- At most one element is erased, if there is at most one. -/
theorem eraseP_eq_filter {β : Type} {p : β → Bool} {l : List β}
    (h : l.Pairwise fun a b => p a = true → p b = false) :
  l.eraseP p = l.filter fun a => !p a
  := by
  induction l with
  | nil => rfl
  | cons a l ih =>
      obtain ⟨hhead, htail⟩ := List.pairwise_cons.mp h
      by_cases ha : p a = true
      · have hself : (l.filter fun b => !p b) = l := by
          rw [List.filter_eq_self]
          intro b hb
          rw [hhead b hb ha]
          rfl
        rw [List.eraseP_cons_of_pos ha, List.filter_cons_of_neg (by simp [ha]), hself]
      · rw [List.eraseP_cons_of_neg ha, List.filter_cons_of_pos (by simp [ha]), ih htail]

/-- What is left of a map when the keys of a list are erased. -/
theorem lookup_foldl_erase {κ β : Type} [DecidableEq κ] (m : Finmap fun _ : κ => β) (l : List κ)
    (k : κ) :
  (l.foldl (fun m k => m.erase k) m).lookup k = if k ∈ l then none else m.lookup k
  := by
  induction l generalizing m with
  | nil => rfl
  | cons a l ih =>
      rw [List.foldl_cons, ih]
      rcases eq_or_ne k a with rfl | hne
      · simp [Finmap.lookup_erase]
      · simp [Finmap.lookup_erase_ne hne, hne]

/-! ### Cancellation takes no id -/

theorem nextId_cancel (w : TimerWheel α) (id : UInt64) :
  (w.cancel id).2.nextId = w.nextId
  := by
  rw [cancel]
  split
  · rfl
  · split
    · rfl
    · split <;> rfl

/-- An id that is not in use is not in use after a timer was cancelled. -/
theorem lookup_idToSlot_cancel {w : TimerWheel α} {id : UInt64} (h : w.idToSlot.lookup id = none)
    (id' : UInt64) :
  (w.cancel id').2.idToSlot.lookup id = none
  := by
  rw [cancel]
  split
  · exact h
  · split
    · exact h
    · split
      · rcases eq_or_ne id id' with rfl | hne
        · exact Finmap.lookup_erase id w.idToSlot
        · exact (Finmap.lookup_erase_ne hne).trans h
      · exact h

/-! ### Where a timer is -/

/-- The slot of a timer. -/
def Scheduled.slot (numSlots : ℕ) (tickMs : UInt32) (t : Scheduled α) : ℕ :=
  (t.due tickMs - 1) % numSlots

/-- How a timer is stored after so many ticks. -/
def Scheduled.entry (numSlots : ℕ) (tickMs : UInt32) (ticks : ℕ) (t : Scheduled α) : Entry α :=
  ⟨t.id, UInt64.ofNat ((t.due tickMs - 1 - ticks) / numSlots), t.callback⟩

/-- The entries of a slot. -/
def History.bucket (numSlots : ℕ) (tickMs : UInt32) (h : History α) (j : ℕ) : List (Entry α) :=
  (h.timers.filter fun t => t.pending tickMs h.ticks && t.slot numSlots tickMs = j).map
    (Scheduled.entry numSlots tickMs h.ticks)

/-- The wheel holds the timers that are pending. -/
structure Sim (numSlots : ℕ) (tickMs : UInt32) (w : TimerWheel α) (h : History α) : Prop where
  numSlots_pos : 0 < numSlots
  numSlots_le : numSlots ≤ maxSlots
  tickMs_pos : 0 < tickMs.toNat
  tickMs_eq : w.tickMs = tickMs
  length : w.slots.length = numSlots
  currentSlot : w.currentSlot.toNat = h.ticks % numSlots
  short : ∀ t ∈ h.timers, t.delayMs.toNat < 2 ^ 63
  added_le : ∀ t ∈ h.timers, t.added ≤ h.ticks
  distinct : ((h.timers.filter (Scheduled.pending tickMs h.ticks)).map Scheduled.id).Nodup
  slots : ∀ j < numSlots, w.slots[j]? = some (h.bucket numSlots tickMs j)
  idToSlot : ∀ id slot, w.idToSlot.lookup id = some slot ↔
    ∃ t ∈ h.timers, t.pending tickMs h.ticks = true ∧ t.id = id
      ∧ slot = UInt64.ofNat (t.slot numSlots tickMs)

namespace Sim

variable {numSlots : ℕ} {tickMs : UInt32} {w : TimerWheel α} {h : History α} {t t' : Scheduled α}
  {id : UInt64}

theorem start (hpos : 0 < numSlots) (htick : 0 < tickMs.toNat)
    (hmake : TimerWheel.make α numSlots tickMs = some w) :
  Sim numSlots tickMs w .empty
  := by
  rw [make] at hmake
  split at hmake
  · rename_i hle
    obtain rfl := Option.some.inj hmake
    refine ⟨hpos, hle, htick, rfl, List.length_replicate, (Nat.zero_mod _).symm, ?_, ?_,
      List.nodup_nil, ?_, ?_⟩
    · exact fun t ht => absurd ht List.not_mem_nil
    · exact fun t ht => absurd ht List.not_mem_nil
    · exact fun j hj => List.getElem?_replicate_of_lt hj
    · intro id slot
      constructor
      · intro hlookup
        cases hlookup
      · rintro ⟨t, ht, -⟩
        cases ht
  · cases hmake

/-- Calling a callback does not concern the wheel. -/
theorem call (hsim : Sim numSlots tickMs w h) (called : List (ℕ × α)) :
  Sim numSlots tickMs w { h with called }
  := { hsim with }

theorem numSlots_lt (hsim : Sim numSlots tickMs w h) :
  numSlots < 2 ^ 63
  := lt_of_le_of_lt hsim.numSlots_le (by decide)

theorem size_toNat (hsim : Sim numSlots tickMs w h) :
  w.size.toNat = numSlots
  := by
  have hlt := hsim.numSlots_lt
  rw [size, hsim.length]
  apply UInt64.toNat_ofNat_of_lt'
  rw [UInt64.size]
  omega

theorem slot_lt (hsim : Sim numSlots tickMs w h) (t : Scheduled α) :
  t.slot numSlots tickMs < numSlots
  := Nat.mod_lt _ hsim.numSlots_pos

theorem toNat_slot (hsim : Sim numSlots tickMs w h) (t : Scheduled α) :
  (UInt64.ofNat (t.slot numSlots tickMs)).toNat = t.slot numSlots tickMs
  := by
  have hslot := hsim.slot_lt t
  have hlt := hsim.numSlots_lt
  apply UInt64.toNat_ofNat_of_lt'
  rw [UInt64.size]
  omega

/-- Timers that are pending have different ids. -/
theorem eq_of_id_eq (hsim : Sim numSlots tickMs w h) (ht : t ∈ h.timers)
    (hpending : t.pending tickMs h.ticks = true) (ht' : t' ∈ h.timers)
    (hpending' : t'.pending tickMs h.ticks = true) (hid : t.id = t'.id) :
  t = t'
  := List.inj_on_of_nodup_map hsim.distinct (List.mem_filter.mpr ⟨ht, hpending⟩)
    (List.mem_filter.mpr ⟨ht', hpending'⟩) hid

/-- The number of timers that are pending. -/
theorem pendingCount_eq (hsim : Sim numSlots tickMs w h) :
  w.pendingCount = h.timers.countP (Scheduled.pending tickMs h.ticks)
  := by
  have hkeys : w.idToSlot.keys
      = ((h.timers.filter (Scheduled.pending tickMs h.ticks)).map Scheduled.id).toFinset := by
    ext id
    rw [Finmap.mem_keys, Finmap.mem_iff, List.mem_toFinset, List.mem_map]
    constructor
    · rintro ⟨slot, hslot⟩
      obtain ⟨t, ht, hpending, rfl, -⟩ := (hsim.idToSlot id slot).mp hslot
      exact ⟨t, List.mem_filter.mpr ⟨ht, hpending⟩, rfl⟩
    · rintro ⟨t, ht, rfl⟩
      obtain ⟨ht, hpending⟩ := List.mem_filter.mp ht
      exact ⟨_, (hsim.idToSlot t.id _).mpr ⟨t, ht, hpending, rfl, rfl⟩⟩
  rw [pendingCount, hkeys, List.toFinset_card_of_nodup hsim.distinct, List.length_map,
    List.countP_eq_length_filter]

/-! ### A timer is added -/

/-- The number of ticks of a delay. -/
theorem toNat_ticks (hsim : Sim numSlots tickMs w h) (delayMs : UInt64) :
  (if delayMs / w.tickMs.toUInt64 = 0 then 1 else delayMs / w.tickMs.toUInt64).toNat
    = max 1 (delayMs.toNat / tickMs.toNat)
  := by
  have hdiv : (delayMs / w.tickMs.toUInt64).toNat = delayMs.toNat / tickMs.toNat := by
    rw [UInt64.toNat_div, UInt32.toNat_toUInt64, hsim.tickMs_eq]
  rw [← hdiv]
  split
  · rename_i hzero
    rw [hzero]
    rfl
  · rename_i hne
    have hpos : (delayMs / w.tickMs.toUInt64).toNat ≠ 0 := by
      rw [Ne, ← UInt64.toNat_zero, UInt64.toNat_inj]
      exact hne
    omega

/-- Where a timer is put, and with how many revolutions, is told by its due tick. -/
theorem addTimer_eq (hsim : Sim numSlots tickMs w h) {delayMs : UInt64} (callback : Option α)
    (hshort : delayMs.toNat < 2 ^ 63) (ht : t = ⟨w.nextId, h.ticks, delayMs, callback, false⟩) :
  w.addTimer delayMs callback = (w.nextId, { w with
    nextId := w.nextId + 1
    slots := w.slots.modify (t.slot numSlots tickMs) (· ++ [t.entry numSlots tickMs h.ticks])
    idToSlot := w.idToSlot.insert w.nextId (UInt64.ofNat (t.slot numSlots tickMs)) })
  := by
  have hlt := hsim.numSlots_lt
  have hcurrent := hsim.currentSlot
  have hmod := Nat.mod_lt h.ticks hsim.numSlots_pos
  have hdivle : delayMs.toNat / tickMs.toNat ≤ delayMs.toNat := Nat.div_le_self _ _
  set ticks := if delayMs / w.tickMs.toUInt64 = 0 then 1 else delayMs / w.tickMs.toUInt64
    with hticks
  have hticksNat : ticks.toNat = max 1 (delayMs.toNat / tickMs.toNat) := hsim.toNat_ticks delayMs
  have hdue : t.due tickMs = h.ticks + ticks.toNat := by
    rw [hticksNat, ht]
    rfl
  have hsub : (ticks - 1).toNat = ticks.toNat - 1 := by
    apply UInt64.toNat_sub_of_le
    rw [UInt64.le_iff_toNat_le]
    change 1 ≤ ticks.toNat
    omega
  -- The sum does not overflow.
  have hsum : (w.currentSlot + ticks - 1).toNat = h.ticks % numSlots + (ticks.toNat - 1) := by
    have hassoc : w.currentSlot + ticks - 1 = w.currentSlot + (ticks - 1) := by grind
    rw [hassoc, UInt64.toNat_add, hsub, hcurrent, Nat.mod_eq_of_lt]
    omega
  have hslot : (w.currentSlot + ticks - 1) % w.size = UInt64.ofNat (t.slot numSlots tickMs) := by
    rw [← UInt64.toNat_inj, hsim.toNat_slot, UInt64.toNat_mod, hsim.size_toNat, hsum,
      Scheduled.slot, hdue, Nat.mod_add_mod]
    congr 1
    omega
  have hrevolutions : (ticks - 1) / w.size
      = UInt64.ofNat ((t.due tickMs - 1 - h.ticks) / numSlots) := by
    rw [← UInt64.toNat_inj, UInt64.toNat_div, hsim.size_toNat, hsub, UInt64.toNat_ofNat_of_lt']
    · congr 1
      omega
    · apply lt_of_le_of_lt (Nat.div_le_self _ _)
      rw [UInt64.size]
      omega
  rw [TimerWheel.addTimer, ← hticks, hslot, hrevolutions, hsim.toNat_slot, Scheduled.entry, ht]

/-- A timer that was just added is pending. -/
theorem pending_new (tickMs : UInt32) (id : UInt64) (ticks : ℕ) (delayMs : UInt64)
    (callback : Option α) :
  Scheduled.pending tickMs ticks ⟨id, ticks, delayMs, callback, false⟩ = true
  := by
  rw [Scheduled.pending_iff]
  refine ⟨rfl, ?_⟩
  change ticks < ticks + max 1 (delayMs.toNat / tickMs.toNat)
  omega

/-- It is the last one in its slot. -/
theorem bucket_concat (hpending : t.pending tickMs h.ticks = true) (j : ℕ) :
  { h with timers := h.timers ++ [t] }.bucket numSlots tickMs j
    = if t.slot numSlots tickMs = j then
        h.bucket numSlots tickMs j ++ [t.entry numSlots tickMs h.ticks]
      else h.bucket numSlots tickMs j
  := by
  change ((h.timers ++ [t]).filter _).map _ = _
  rw [List.filter_append, List.map_append]
  split
  · rename_i hslot
    rw [List.filter_cons_of_pos (by simp [hpending, hslot])]
    rfl
  · rename_i hslot
    rw [List.filter_cons_of_neg (by simp [hslot])]
    apply List.append_nil

/-- A timer is added whose id no other pending timer has. -/
theorem addTimer (hsim : Sim numSlots tickMs w h) {delayMs : UInt64} (callback : Option α)
    (hshort : delayMs.toNat < 2 ^ 63)
    (hfresh : ∀ t ∈ h.timers, t.pending tickMs h.ticks = true → t.id ≠ w.nextId) :
  Sim numSlots tickMs (w.addTimer delayMs callback).2
    { h with timers := h.timers ++ [⟨w.nextId, h.ticks, delayMs, callback, false⟩] }
  := by
  have hpending := pending_new tickMs w.nextId h.ticks delayMs callback
  rw [hsim.addTimer_eq callback hshort rfl]
  set t : Scheduled α := ⟨w.nextId, h.ticks, delayMs, callback, false⟩ with ht
  refine ⟨hsim.numSlots_pos, hsim.numSlots_le, hsim.tickMs_pos, hsim.tickMs_eq, ?_,
    hsim.currentSlot, ?_, ?_, ?_, ?_, ?_⟩
  · exact (List.length_modify _ _ _).trans hsim.length
  · intro u hu
    rcases List.mem_append.mp hu with hu | hu
    · exact hsim.short u hu
    · rw [List.mem_singleton.mp hu]
      exact hshort
  · intro u hu
    rcases List.mem_append.mp hu with hu | hu
    · exact hsim.added_le u hu
    · rw [List.mem_singleton.mp hu]
  · rw [List.filter_append, List.filter_cons_of_pos hpending, List.filter_nil, List.map_append,
      List.nodup_append]
    refine ⟨hsim.distinct, List.nodup_singleton _, ?_⟩
    rintro _ hmem _ hnew rfl
    obtain ⟨u, hu, hid⟩ := List.mem_map.mp hmem
    obtain ⟨hu, hpending'⟩ := List.mem_filter.mp hu
    rw [List.map_singleton, List.mem_singleton] at hnew
    exact hfresh u hu hpending' (hid.trans hnew)
  · intro j hj
    rw [bucket_concat hpending, List.getElem?_modify, hsim.slots j hj]
    rfl
  · intro id slot
    dsimp only
    by_cases hid : id = w.nextId
    · subst hid
      rw [Finmap.lookup_insert, Option.some_inj]
      constructor
      · rintro rfl
        exact ⟨t, List.mem_append_right _ List.mem_cons_self, hpending, rfl, rfl⟩
      · rintro ⟨u, hu, hpending', hid, rfl⟩
        rcases List.mem_append.mp hu with hu | hu
        · exact absurd hid (hfresh u hu hpending')
        · rw [List.mem_singleton.mp hu]
    · rw [Finmap.lookup_insert_of_ne _ hid, hsim.idToSlot]
      constructor
      · rintro ⟨u, hu, hrest⟩
        exact ⟨u, List.mem_append_left _ hu, hrest⟩
      · rintro ⟨u, hu, hpending', rfl, hslot⟩
        rcases List.mem_append.mp hu with hu | hu
        · exact ⟨u, hu, hpending', rfl, hslot⟩
        · rw [List.mem_singleton.mp hu] at hid
          exact absurd rfl hid

/-! ### A timer is cancelled -/

theorem pending_markCancelled (t : Scheduled α) :
  (History.markCancelled tickMs h.ticks id t).pending tickMs h.ticks
    = (t.pending tickMs h.ticks && t.id ≠ id)
  := by
  rw [History.markCancelled]
  split
  · rename_i hcond
    rw [hcond.2]
    simp [Scheduled.pending]
  · rename_i hcond
    by_cases hid : t.id = id
    · have hpending : t.pending tickMs h.ticks = false := by simpa [hid] using hcond
      rw [hpending]
      rfl
    · simp [hid]

theorem filter_markCancelled {q : Scheduled α → Bool} (timers : List (Scheduled α))
    (hq : ∀ t, q (History.markCancelled tickMs h.ticks id t) = q t) :
  ((timers.map (History.markCancelled tickMs h.ticks id)).filter fun t =>
      t.pending tickMs h.ticks && q t)
    = timers.filter fun t => t.pending tickMs h.ticks && q t && t.id ≠ id
  := by
  induction timers with
  | nil => rfl
  | cons t timers ih =>
      rw [List.map_cons, List.filter_cons, List.filter_cons, ih, pending_markCancelled, hq]
      by_cases hid : t.id = id
      · simp [hid]
      · simp [hid, History.markCancelled]

/-- The timers that are left. -/
theorem filter_pending_markCancelled (h : History α) :
  (h.timers.map (History.markCancelled tickMs h.ticks id)).filter (Scheduled.pending tickMs h.ticks)
    = h.timers.filter fun t => t.pending tickMs h.ticks && t.id ≠ id
  := by
  have hfilter : (h.timers.map (History.markCancelled tickMs h.ticks id)).filter
      (fun t => t.pending tickMs h.ticks && true) = _ := filter_markCancelled h.timers fun _ => rfl
  simpa only [Bool.and_true] using hfilter

theorem mem_markCancelled (u : Scheduled α) :
  (u ∈ h.timers.map (History.markCancelled tickMs h.ticks id) ∧ u.pending tickMs h.ticks = true)
    ↔ u ∈ h.timers ∧ u.pending tickMs h.ticks = true ∧ u.id ≠ id
  := by
  rw [← List.mem_filter, filter_pending_markCancelled, List.mem_filter, Bool.and_eq_true,
    decide_eq_true_iff]

theorem slot_markCancelled (t : Scheduled α) :
  (History.markCancelled tickMs h.ticks id t).slot numSlots tickMs = t.slot numSlots tickMs
  := by
  rw [History.markCancelled]
  split <;> rfl

/-- The entry of the timer is erased from its slot. -/
theorem bucket_markCancelled (hsim : Sim numSlots tickMs w h) (id : UInt64) (j : ℕ) :
  { h with timers := h.timers.map (History.markCancelled tickMs h.ticks id) }.bucket
      numSlots tickMs j
    = (h.bucket numSlots tickMs j).eraseP (·.id = id)
  := by
  have hpairwise : (h.bucket numSlots tickMs j).Pairwise fun e e' =>
      decide (e.id = id) = true → decide (e'.id = id) = false := by
    have hsub : (h.timers.filter fun t =>
        t.pending tickMs h.ticks && t.slot numSlots tickMs = j).Sublist
          (h.timers.filter (Scheduled.pending tickMs h.ticks)) :=
      List.monotone_filter_right _ fun t ht => (Bool.and_eq_true_iff.mp ht).1
    rw [History.bucket, List.pairwise_map]
    refine ((List.pairwise_map.mp hsim.distinct).sublist hsub).imp fun {t t'} hne => ?_
    rw [decide_eq_true_iff, decide_eq_false_iff_not]
    rintro rfl heq
    exact hne heq.symm
  rw [eraseP_eq_filter hpairwise]
  change ((h.timers.map (History.markCancelled tickMs h.ticks id)).filter fun t =>
    t.pending tickMs h.ticks && t.slot numSlots tickMs = j).map _ = _
  rw [filter_markCancelled h.timers fun t => by rw [slot_markCancelled], History.bucket,
    List.filter_map, List.filter_filter]
  congr 1
  apply List.filter_congr
  intro t _
  by_cases hid : t.id = id
  · simp [Scheduled.entry, hid]
  · simp [Scheduled.entry, hid]

/-- A timer that is pending is found. -/
theorem cancel_of_pending (hsim : Sim numSlots tickMs w h) (ht : t ∈ h.timers)
    (hpending : t.pending tickMs h.ticks = true) :
  w.cancel t.id = (true, { w with
    slots := w.slots.set (t.slot numSlots tickMs)
      ((h.bucket numSlots tickMs (t.slot numSlots tickMs)).eraseP (·.id = t.id))
    idToSlot := w.idToSlot.erase t.id })
  := by
  have hlookup := (hsim.idToSlot t.id _).mpr ⟨t, ht, hpending, rfl, rfl⟩
  have hany : (h.bucket numSlots tickMs (t.slot numSlots tickMs)).any (·.id = t.id) = true := by
    rw [List.any_eq_true]
    refine ⟨t.entry numSlots tickMs h.ticks, List.mem_map_of_mem ?_, decide_eq_true rfl⟩
    rw [List.mem_filter]
    exact ⟨ht, by simp [hpending]⟩
  rw [TimerWheel.cancel, hlookup]
  dsimp only
  rw [hsim.toNat_slot, hsim.slots _ (hsim.slot_lt t)]
  dsimp only
  rw [if_pos hany]

/-- Others are not found. -/
theorem cancel_of_not_pending (hsim : Sim numSlots tickMs w h)
    (hnone : ∀ t ∈ h.timers, t.pending tickMs h.ticks = true → t.id ≠ id) :
  w.cancel id = (false, w)
  := by
  have hlookup : w.idToSlot.lookup id = none := by
    rw [Option.eq_none_iff_forall_ne_some]
    intro slot hslot
    obtain ⟨t, ht, hpending, hid, -⟩ := (hsim.idToSlot id slot).mp hslot
    exact hnone t ht hpending hid
  rw [TimerWheel.cancel, hlookup]

theorem cancel_eq_true_iff (hsim : Sim numSlots tickMs w h) :
  (w.cancel id).1 = true ↔ ∃ t ∈ h.timers, t.pending tickMs h.ticks = true ∧ t.id = id
  := by
  constructor
  · intro hfound
    by_contra hnone
    push Not at hnone
    rw [hsim.cancel_of_not_pending hnone] at hfound
    cases hfound
  · rintro ⟨t, ht, hpending, rfl⟩
    rw [hsim.cancel_of_pending ht hpending]

/-- The timer that was cancelled is no longer in the wheel. -/
theorem cancel (hsim : Sim numSlots tickMs w h) (ht : t ∈ h.timers)
    (hpending : t.pending tickMs h.ticks = true) :
  Sim numSlots tickMs (w.cancel t.id).2
    { h with timers := h.timers.map (History.markCancelled tickMs h.ticks t.id) }
  := by
  have hunique : ∀ u ∈ h.timers, u.pending tickMs h.ticks = true → u.id = t.id → u = t :=
    fun u hu hpending' hid => hsim.eq_of_id_eq hu hpending' ht hpending hid
  rw [hsim.cancel_of_pending ht hpending]
  refine ⟨hsim.numSlots_pos, hsim.numSlots_le, hsim.tickMs_pos, hsim.tickMs_eq, ?_,
    hsim.currentSlot, ?_, ?_, ?_, ?_, ?_⟩
  · exact List.length_set.trans hsim.length
  · intro u hu
    obtain ⟨u, hmem, rfl⟩ := List.mem_map.mp hu
    rw [History.markCancelled]
    split <;> exact hsim.short u hmem
  · intro u hu
    obtain ⟨u, hmem, rfl⟩ := List.mem_map.mp hu
    rw [History.markCancelled]
    split <;> exact hsim.added_le u hmem
  · dsimp only
    rw [filter_pending_markCancelled]
    refine hsim.distinct.sublist (List.Sublist.map _ (List.monotone_filter_right _ fun u hu => ?_))
    exact (Bool.and_eq_true_iff.mp hu).1
  · intro j hj
    rw [hsim.bucket_markCancelled]
    rcases eq_or_ne (t.slot numSlots tickMs) j with rfl | hne
    · exact List.getElem?_set_self (hsim.length.symm ▸ hj)
    · -- The timer is in another slot.
      refine (List.getElem?_set_ne hne).trans ((hsim.slots j hj).trans (congrArg some ?_))
      symm
      apply List.eraseP_of_forall_not
      intro e he
      obtain ⟨u, hu, rfl⟩ := List.mem_map.mp he
      obtain ⟨hu, hcond⟩ := List.mem_filter.mp hu
      obtain ⟨hpending', hslot⟩ := Bool.and_eq_true_iff.mp hcond
      rw [decide_eq_true_iff]
      intro hid
      obtain rfl := hunique u hu hpending' hid
      exact hne (of_decide_eq_true hslot)
  · intro id slot
    by_cases hid : id = t.id
    · subst hid
      refine iff_of_false ?_ ?_
      · exact fun hlookup => by cases (Finmap.lookup_erase t.id w.idToSlot).symm.trans hlookup
      · rintro ⟨u, hu, hpending', hid, -⟩
        exact ((mem_markCancelled u).mp ⟨hu, hpending'⟩).2.2 hid
    · refine (iff_of_eq (congrArg (· = some slot) (Finmap.lookup_erase_ne hid))).trans ?_
      rw [hsim.idToSlot]
      constructor
      · rintro ⟨u, hu, hpending', rfl, hslot⟩
        obtain ⟨hu, -⟩ := (mem_markCancelled u).mpr ⟨hu, hpending', hid⟩
        exact ⟨u, hu, hpending', rfl, hslot⟩
      · rintro ⟨u, hu, hpending', hrest⟩
        obtain ⟨hu, -⟩ := (mem_markCancelled u).mp ⟨hu, hpending'⟩
        exact ⟨u, hu, hpending', hrest⟩

/-- What was called before does not change. -/
theorem filter_calledAt_markCancelled {ticks n : ℕ} (hn : n ≤ ticks)
    (timers : List (Scheduled α)) :
  (timers.map (History.markCancelled tickMs ticks id)).filter (Scheduled.calledAt tickMs n)
    = timers.filter (Scheduled.calledAt tickMs n)
  := by
  induction timers with
  | nil => rfl
  | cons t timers ih =>
      rw [List.map_cons, History.markCancelled]
      split
      · -- A timer that is cancelled now was not due before, and is not called in any case.
        rename_i hcond
        have hbefore : t.calledAt tickMs n = false := by
          rw [Bool.eq_false_iff, Ne, Scheduled.calledAt_iff]
          rintro ⟨-, rfl⟩
          have hlt := (Scheduled.pending_iff.mp hcond.1).2
          omega
        rw [List.filter_cons_of_neg (by simp [Scheduled.calledAt]),
          List.filter_cons_of_neg (by simp [hbefore]), ih]
      · rw [List.filter_cons, List.filter_cons, ih]

/-! ### The wheel ticks -/

/-- The timers that are not due are kept, with one revolution less. -/
theorem foldl_visit (v : Visit α) (bucket : List (Entry α)) :
  bucket.foldl visit v =
    { due := v.due ++ (bucket.filter (·.remainingRevolutions = 0)).map Entry.callback
      remaining := v.remaining ++ (bucket.filter (·.remainingRevolutions ≠ 0)).map fun entry =>
        { entry with remainingRevolutions := entry.remainingRevolutions - 1 }
      idToSlot := ((bucket.filter (·.remainingRevolutions = 0)).map Entry.id).foldl
        (fun ids id => ids.erase id) v.idToSlot }
  := by
  induction bucket generalizing v with
  | nil => simp
  | cons entry bucket ih =>
      rw [List.foldl_cons, ih, visit]
      by_cases hzero : entry.remainingRevolutions = 0
      · simp [hzero]
      · simp [hzero]

/-- A timer is in the slot that is visited when its due tick is so many revolutions away. -/
theorem slot_eq_iff (hpending : t.pending tickMs h.ticks = true) :
  t.slot numSlots tickMs = h.ticks % numSlots ↔ numSlots ∣ t.due tickMs - 1 - h.ticks
  := by
  have hlt := (Scheduled.pending_iff.mp hpending).2
  rw [Scheduled.slot, ← Nat.modEq_iff_dvd' (by omega)]
  exact eq_comm

theorem due_sub_lt (hsim : Sim numSlots tickMs w h) (ht : t ∈ h.timers) :
  t.due tickMs - 1 - h.ticks < 2 ^ 63
  := by
  have hshort := hsim.short t ht
  have hadded := hsim.added_le t ht
  have hdiv : t.delayMs.toNat / tickMs.toNat ≤ t.delayMs.toNat := Nat.div_le_self _ _
  rw [Scheduled.due]
  omega

/-- A timer in the slot is due if no revolutions remain. -/
theorem remainingRevolutions_eq_zero_iff (hsim : Sim numSlots tickMs w h) (ht : t ∈ h.timers)
    (hpending : t.pending tickMs h.ticks = true)
    (hslot : t.slot numSlots tickMs = h.ticks % numSlots) :
  (t.entry numSlots tickMs h.ticks).remainingRevolutions = 0 ↔ t.due tickMs = h.ticks + 1
  := by
  have hlt := hsim.due_sub_lt ht
  have hdue := (Scheduled.pending_iff.mp hpending).2
  obtain ⟨q, hq⟩ := (slot_eq_iff hpending).mp hslot
  have hle := Nat.div_le_self (t.due tickMs - 1 - h.ticks) numSlots
  rw [Scheduled.entry, ← UInt64.toNat_inj, UInt64.toNat_ofNat_of_lt' (by rw [UInt64.size]; omega),
    hq, Nat.mul_div_cancel_left q hsim.numSlots_pos]
  constructor
  · intro hzero
    change q = 0 at hzero
    rw [hzero, Nat.mul_zero] at hq
    omega
  · intro heq
    have hzero : numSlots * q = 0 := by omega
    exact (Nat.mul_eq_zero.mp hzero).resolve_left hsim.numSlots_pos.ne'

/-- The entry of a timer that is still to come, after the tick. -/
theorem entry_succ_of_slot_eq (hpending : t.pending tickMs (h.ticks + 1) = true)
    (hslot : t.slot numSlots tickMs = h.ticks % numSlots) :
  { t.entry numSlots tickMs h.ticks with
    remainingRevolutions := (t.entry numSlots tickMs h.ticks).remainingRevolutions - 1 }
    = t.entry numSlots tickMs (h.ticks + 1)
  := by
  have hdvd := (slot_eq_iff (Scheduled.pending_iff_calledAt_or.mpr (.inr hpending))).mp hslot
  have hdue := (Scheduled.pending_iff.mp hpending).2
  have hsucc : t.due tickMs - 1 - h.ticks = t.due tickMs - 1 - (h.ticks + 1) + 1 := by omega
  have hremaining : (t.entry numSlots tickMs h.ticks).remainingRevolutions - 1
      = (t.entry numSlots tickMs (h.ticks + 1)).remainingRevolutions := by
    rw [Scheduled.entry, Scheduled.entry, hsucc, Nat.succ_div, if_pos (hsucc ▸ hdvd),
      UInt64.ofNat_add]
    apply add_sub_cancel_right
  rw [hremaining]
  rfl

theorem entry_succ_of_slot_ne (hpending : t.pending tickMs (h.ticks + 1) = true)
    (hslot : t.slot numSlots tickMs ≠ h.ticks % numSlots) :
  t.entry numSlots tickMs h.ticks = t.entry numSlots tickMs (h.ticks + 1)
  := by
  have hdvd := (slot_eq_iff (Scheduled.pending_iff_calledAt_or.mpr (.inr hpending))).not.mp hslot
  have hdue := (Scheduled.pending_iff.mp hpending).2
  have hsucc : t.due tickMs - 1 - h.ticks = t.due tickMs - 1 - (h.ticks + 1) + 1 := by omega
  rw [Scheduled.entry, Scheduled.entry, hsucc, Nat.succ_div, if_neg (hsucc ▸ hdvd), Nat.add_zero]

/-- A timer that is due is in the slot. -/
theorem slot_of_calledAt (hcalled : t.calledAt tickMs (h.ticks + 1) = true) :
  t.slot numSlots tickMs = h.ticks % numSlots
  := by
  rw [Scheduled.slot, (Scheduled.calledAt_iff.mp hcalled).2, Nat.add_sub_cancel]

/-- The entries of the slot that are due are those of the timers that are. -/
theorem filter_bucket_eq_zero (hsim : Sim numSlots tickMs w h) :
  (h.bucket numSlots tickMs (h.ticks % numSlots)).filter (·.remainingRevolutions = 0)
    = (h.timers.filter (Scheduled.calledAt tickMs (h.ticks + 1))).map
        (Scheduled.entry numSlots tickMs h.ticks)
  := by
  rw [History.bucket, List.filter_map, List.filter_filter]
  congr 1
  apply List.filter_congr
  intro t ht
  rw [Bool.eq_iff_iff]
  simp only [Function.comp_apply, Bool.and_eq_true, decide_eq_true_iff]
  constructor
  · rintro ⟨hzero, hpending, hslot⟩
    rw [Scheduled.calledAt_iff]
    exact ⟨(Scheduled.pending_iff.mp hpending).1,
      (hsim.remainingRevolutions_eq_zero_iff ht hpending hslot).mp hzero⟩
  · intro hcalled
    have hpending := Scheduled.pending_iff_calledAt_or.mpr (.inl hcalled)
    have hslot : t.slot numSlots tickMs = h.ticks % numSlots := slot_of_calledAt hcalled
    exact ⟨(hsim.remainingRevolutions_eq_zero_iff ht hpending hslot).mpr
      (Scheduled.calledAt_iff.mp hcalled).2, hpending, hslot⟩

/-- The others are those of the timers that are still to come. -/
theorem filter_bucket_ne_zero (hsim : Sim numSlots tickMs w h) :
  ((h.bucket numSlots tickMs (h.ticks % numSlots)).filter (·.remainingRevolutions ≠ 0)).map
      (fun entry => { entry with remainingRevolutions := entry.remainingRevolutions - 1 })
    = { h with ticks := h.ticks + 1 }.bucket numSlots tickMs (h.ticks % numSlots)
  := by
  rw [History.bucket, List.filter_map, List.filter_filter, List.map_map]
  have hfilter : (h.timers.filter fun t =>
      ((fun e : Entry α => decide (e.remainingRevolutions ≠ 0)) ∘
        Scheduled.entry numSlots tickMs h.ticks) t
        && (t.pending tickMs h.ticks && t.slot numSlots tickMs = h.ticks % numSlots))
      = h.timers.filter fun t =>
        t.pending tickMs (h.ticks + 1) && t.slot numSlots tickMs = h.ticks % numSlots := by
    apply List.filter_congr
    intro t ht
    rw [Bool.eq_iff_iff]
    simp only [Function.comp_apply, Bool.and_eq_true, decide_eq_true_iff]
    constructor
    · rintro ⟨hne, hpending, hslot⟩
      refine ⟨(Scheduled.pending_iff_calledAt_or.mp hpending).resolve_left fun hcalled => hne ?_,
        hslot⟩
      exact (hsim.remainingRevolutions_eq_zero_iff ht hpending hslot).mpr
        (Scheduled.calledAt_iff.mp hcalled).2
    · rintro ⟨hpending', hslot⟩
      have hpending := Scheduled.pending_iff_calledAt_or.mpr (.inr hpending')
      refine ⟨fun hzero => ?_, hpending, hslot⟩
      have heq := (hsim.remainingRevolutions_eq_zero_iff ht hpending hslot).mp hzero
      have hlt := (Scheduled.pending_iff.mp hpending').2
      omega
  rw [hfilter]
  apply List.map_congr_left
  intro t ht
  obtain ⟨-, hcond⟩ := List.mem_filter.mp ht
  obtain ⟨hpending, hslot⟩ := Bool.and_eq_true_iff.mp hcond
  exact entry_succ_of_slot_eq hpending (of_decide_eq_true hslot)

/-- The other slots are left as they are. -/
theorem bucket_succ_of_ne {j : ℕ} (hj : j ≠ h.ticks % numSlots) :
  { h with ticks := h.ticks + 1 }.bucket numSlots tickMs j = h.bucket numSlots tickMs j
  := by
  have hpending : ∀ t : Scheduled α, t.slot numSlots tickMs = j →
      t.pending tickMs (h.ticks + 1) = t.pending tickMs h.ticks := by
    rintro t rfl
    rw [Bool.eq_iff_iff]
    constructor
    · exact fun hpending => Scheduled.pending_iff_calledAt_or.mpr (.inr hpending)
    · intro hpending
      apply (Scheduled.pending_iff_calledAt_or.mp hpending).resolve_left
      exact fun hcalled => hj (slot_of_calledAt hcalled)
  have hfilter : (h.timers.filter fun t =>
      t.pending tickMs (h.ticks + 1) && t.slot numSlots tickMs = j)
      = h.timers.filter fun t => t.pending tickMs h.ticks && t.slot numSlots tickMs = j := by
    apply List.filter_congr
    intro t _
    by_cases hslot : t.slot numSlots tickMs = j
    · rw [hpending t hslot]
    · simp [hslot]
  change (h.timers.filter fun t => t.pending tickMs (h.ticks + 1) && _).map
    (Scheduled.entry numSlots tickMs (h.ticks + 1)) = _
  rw [hfilter, History.bucket]
  apply List.map_congr_left
  intro t ht
  obtain ⟨-, hcond⟩ := List.mem_filter.mp ht
  obtain ⟨hpend, hslot⟩ := Bool.and_eq_true_iff.mp hcond
  have hslot := of_decide_eq_true hslot
  rw [← hpending t hslot] at hpend
  exact (entry_succ_of_slot_ne hpend (hslot.trans_ne hj)).symm

/-- The callbacks that are collected. -/
theorem collect_due (hsim : Sim numSlots tickMs w h) :
  w.collect.1 = (h.timers.filter (Scheduled.calledAt tickMs (h.ticks + 1))).map Scheduled.callback
  := by
  have hmod := Nat.mod_lt h.ticks hsim.numSlots_pos
  rw [collect, hsim.currentSlot, hsim.slots _ hmod, Option.getD_some, foldl_visit,
    hsim.filter_bucket_eq_zero, List.map_map, List.nil_append]
  rfl

/-- A tick takes the timers that are due out of the wheel. -/
theorem collect (hsim : Sim numSlots tickMs w h) :
  Sim numSlots tickMs w.collect.2 { h with ticks := h.ticks + 1 }
  := by
  have hlt := hsim.numSlots_lt
  have hmod := Nat.mod_lt h.ticks hsim.numSlots_pos
  have hcurrent : (w.currentSlot + 1).toNat = h.ticks % numSlots + 1 := by
    rw [UInt64.toNat_add, hsim.currentSlot, Nat.mod_eq_of_lt]
    · rfl
    · change h.ticks % numSlots + 1 < 2 ^ 64
      omega
  rw [TimerWheel.collect, hsim.currentSlot, hsim.slots _ hmod, Option.getD_some, foldl_visit,
    hsim.filter_bucket_eq_zero, List.map_map, List.map_map, List.nil_append, List.nil_append,
    hsim.filter_bucket_ne_zero]
  refine ⟨hsim.numSlots_pos, hsim.numSlots_le, hsim.tickMs_pos, hsim.tickMs_eq, ?_, ?_, hsim.short,
    ?_, ?_, ?_, ?_⟩
  · exact List.length_set.trans hsim.length
  · change ((w.currentSlot + 1) % w.size).toNat = (h.ticks + 1) % numSlots
    rw [UInt64.toNat_mod, hsim.size_toNat, hcurrent, Nat.mod_add_mod]
  · exact fun t ht => (hsim.added_le t ht).trans (Nat.le_succ _)
  · apply hsim.distinct.sublist (List.Sublist.map _ (List.monotone_filter_right _ _))
    exact fun t ht => Scheduled.pending_iff_calledAt_or.mpr (.inr ht)
  · intro j hj
    rcases eq_or_ne (h.ticks % numSlots) j with rfl | hne
    · exact List.getElem?_set_self (hsim.length.symm ▸ hj)
    · rw [bucket_succ_of_ne hne.symm]
      exact (List.getElem?_set_ne hne).trans (hsim.slots j hj)
  · intro id slot
    refine (iff_of_eq (congrArg (· = some slot) (lookup_foldl_erase ..))).trans ?_
    rw [Option.ite_none_left_eq_some, hsim.idToSlot]
    constructor
    · rintro ⟨hnot, t, ht, hpending, rfl, hslot⟩
      refine ⟨t, ht, (Scheduled.pending_iff_calledAt_or.mp hpending).resolve_left fun hcalled => ?_,
        rfl, hslot⟩
      exact hnot (List.mem_map_of_mem (List.mem_filter.mpr ⟨ht, hcalled⟩))
    · rintro ⟨t, ht, hpending', rfl, hslot⟩
      have hpending := Scheduled.pending_iff_calledAt_or.mpr (.inr hpending')
      refine ⟨fun hmem => ?_, t, ht, hpending, rfl, hslot⟩
      -- A timer with the same id would be the same timer, and it is not due.
      obtain ⟨u, hu, hid⟩ := List.mem_map.mp hmem
      obtain ⟨hu, hcalled⟩ := List.mem_filter.mp hu
      obtain rfl := hsim.eq_of_id_eq hu (Scheduled.pending_iff_calledAt_or.mpr (.inl hcalled)) ht
        hpending hid
      have heq := (Scheduled.calledAt_iff.mp hcalled).2
      have hgt := (Scheduled.pending_iff.mp hpending').2
      dsimp only at hgt
      omega

end Sim

end Timer
