import Cascade.Memory.Invariant

/-!
# No block is given away twice

An operation that changes the list knows what it does: `deallocate` and `grow` because they put in
front of the head what they have for themselves, and `allocate` because the generation tells it that
the head, and thus the link of the block that it takes, is the one that it has seen. The latter is
right as long as the generation has not come around.
-/

namespace Memory

open MemoryPool LinkedList Runs

/-- Fewer than `2 ^ 32` changes of the head lie between its load and the swap. -/
def MemoryPool.Op.Timely (m : MemoryPool) : Op → Prop
  | .allocSwap _ _ since => m.changes - since < 2 ^ 32
  | _ => True

variable {m : MemoryPool} {p : ℕ} {index : UInt32}

/-- An address instead of a block. -/
theorem Valid.decide_blockPtr (h : Valid m) (hindex : index.toNat < m.blocks)
    (hp : m.blockPtr index = some p) {index' : UInt32} (hindex' : index'.toNat < m.blocks) :
  decide (m.blockPtr index' = some p) = decide (index = index')
  := by
  rw [decide_eq_decide]
  constructor
  · exact fun hp' => h.blockPtr_inj hindex hindex' hp hp'
  · rintro rfl
    exact hp

variable {oldHead : UInt64}

/-- When the generation is the same, the head has not changed. -/
theorem MemoryPool.Loaded.changes_eq {since : ℕ} (h : m.Loaded oldHead since) (hvalid : Valid m)
    (hhead : m.freeHead = oldHead) (htimely : m.changes - since < 2 ^ 32) :
  m.changes = since
  := by
  have hgeneration : UInt32.ofNat m.changes = UInt32.ofNat since := by
    rw [← hvalid.generation, hhead, h.generation]
  have hmod := congrArg UInt32.toNat hgeneration
  rw [UInt32.toNat_ofNat', UInt32.toNat_ofNat'] at hmod
  have hle := h.since_le
  omega

theorem fresh_iff {raw : ℕ} :
  m.fresh raw = true ↔ 0 < raw ∧ ∀ slab < m.slabCount, ∀ base, m.slabs slab = some base →
    m.Apart base raw
  := by
  rw [fresh, Bool.and_eq_true, decide_eq_true_iff, List.all_eq_true]
  refine and_congr_right fun _ => forall_congr' fun slab => ?_
  rw [List.mem_range]
  refine imp_congr_right fun _ => ?_
  cases m.slabs slab with
  | none => simp
  | some base => simp [Apart, slabSize]

namespace Inv

variable {threads : List Thread} {free : List UInt32} {k : ℕ} {held : List ℕ}

/-! ### Allocation -/

theorem allocLoad (h : Inv m threads free) (ht : threads[k]? = some ⟨held, .allocLoad⟩)
    (choice : Choice) :
  Inv m (threads.set k ⟨held, (advance choice m .allocLoad).2⟩) free
  := by
  dsimp only [advance]
  split
  · exact h.goOn ht (fun _ _ => rfl) rfl trivial
  · rename_i hne
    refine h.goOn ht (fun _ _ => rfl) rfl ?_
    exact ⟨le_rfl, h.valid.generation, h.free_lt _ (h.head_mem hne), fun _ => rfl⟩

/-- The first block is taken off the list. -/
theorem allocSwap {next : UInt32} {since : ℕ} (h : Inv m threads free)
    (ht : threads[k]? = some ⟨held, .allocSwap oldHead next since⟩) (hhead : m.freeHead = oldHead)
    (htimely : m.changes - since < 2 ^ 32) :
  ∃ free', Inv (m.setHead (pack next (generationOf oldHead + 1)))
    (threads.set k ⟨held, .allocCount (indexOf oldHead)⟩) free'
  := by
  obtain ⟨hloaded, hlink⟩ := (h.fits_of_getElem? ht).op
  have hnext := hlink (hloaded.changes_eq h.valid hhead htimely)
  subst hhead
  obtain ⟨next', rest, rfl, hnext', hrest⟩ :=
    h.chain.exists_cons (h.valid.ne_kNullIndex hloaded.index_lt)
  obtain rfl := Option.some.inj (hnext.symm.trans hnext')
  refine ⟨rest, h.setHead ht hrest ?_ ?_ rfl hloaded.index_lt⟩
  · exact fun index hindex => h.free_lt index (List.mem_cons_of_mem _ hindex)
  · intro index hindex
    simp [Op.owns, List.count_cons, Bool.toNat, Bool.cond_eq_ite]

/-! ### Growth -/

theorem growCount (h : Inv m threads free) (ht : threads[k]? = some ⟨held, .growCount⟩)
    (choice : Choice) :
  Inv m (threads.set k ⟨held, (advance choice m .growCount).2⟩) free
  := by
  dsimp only [advance]
  split_ifs with hslabs hblocks hfails hfresh
  · exact h.goOn ht (fun _ _ => rfl) rfl trivial
  · exact h.goOn ht (fun _ _ => rfl) rfl trivial
  · exact h.goOn ht (fun _ _ => rfl) rfl trivial
  · refine h.goOn ht (fun _ _ => rfl) rfl ?_
    refine ⟨rfl, ?_, hfresh⟩
    rw [Room, Nat.succ_mul]
    omega
  · exact h.goOn ht (fun _ _ => rfl) rfl trivial

theorem storeSlab {slab raw : ℕ} (h : Inv m threads free)
    (ht : threads[k]? = some ⟨held, .storeSlab slab raw⟩) :
  Inv { m with slabs := Function.update m.slabs slab (some raw) }
    (threads.set k ⟨held, .storeTable slab⟩) free
  := by
  obtain ⟨rfl, hroom, hfresh⟩ := (h.fits_of_getElem? ht).op
  have hslabs : ∀ slab < m.slabCount,
      Function.update m.slabs m.slabCount (some raw) slab = m.slabs slab :=
    fun slab hslab => Function.update_of_ne hslab.ne _ _
  have hgrows : Grows m { m with slabs := Function.update m.slabs m.slabCount (some raw) } :=
    ⟨rfl, rfl, rfl, rfl, le_rfl, hslabs, fun _ _ => rfl⟩
  refine h.grows ht hgrows ?_ rfl rfl rfl (fun _ => rfl) (fun _ _ => rfl) ?_ ?_
  · refine { h.valid with slabs := ?_, apart := ?_ }
    · intro slab hslab
      obtain ⟨base, hbase, hpos⟩ := h.valid.slabs slab hslab
      exact ⟨base, (hslabs slab hslab).trans hbase, hpos⟩
    · intro slab slab' base base' hslab hslab' hne hbase hbase'
      exact h.valid.apart slab slab' base base' hslab hslab' hne
        ((hslabs slab hslab).symm.trans hbase) ((hslabs slab' hslab').symm.trans hbase')
  · exact fun index hle hlt => absurd hlt hle.not_gt
  · refine ⟨rfl, hroom, raw, Function.update_self .., ?_⟩
    rw [fresh_iff] at hfresh ⊢
    refine ⟨hfresh.1, fun slab hslab base hbase => ?_⟩
    exact hfresh.2 slab hslab base ((hslabs slab hslab).symm.trans hbase)

theorem storeTable {slab : ℕ} (h : Inv m threads free)
    (ht : threads[k]? = some ⟨held, .storeTable slab⟩) :
  Inv { m with links := Function.update m.links slab (some (m.newLinks slab)) }
    (threads.set k ⟨held, .storeCount slab⟩) free
  := by
  obtain ⟨rfl, hroom, hstored⟩ := (h.fits_of_getElem? ht).op
  have hlinks : ∀ slab < m.slabCount,
      Function.update m.links m.slabCount (some (m.newLinks m.slabCount)) slab = m.links slab :=
    fun slab hslab => Function.update_of_ne hslab.ne _ _
  refine h.grows ht ⟨rfl, rfl, rfl, rfl, le_rfl, fun _ _ => rfl, hlinks⟩ ?_ rfl rfl rfl
    (fun _ => rfl) (fun _ _ => rfl) ?_ ?_
  · refine { h.valid with links := ?_ }
    intro slab hslab
    obtain ⟨table, htable⟩ := h.valid.links slab hslab
    exact ⟨table, (hlinks slab hslab).trans htable⟩
  · exact fun index hle hlt => absurd hlt hle.not_gt
  · exact ⟨rfl, hroom, hstored, m.newLinks m.slabCount, Function.update_self ..,
      fun i hi => newLinks_of_lt hi⟩

/-- The slab is counted, and its blocks are those that were not there. -/
theorem storeCount {slab : ℕ} (h : Inv m threads free)
    (ht : threads[k]? = some ⟨held, .storeCount slab⟩) :
  Inv { m with slabCount := slab + 1 } (threads.set k ⟨held, .growLoad slab⟩) free
  := by
  obtain ⟨rfl, hroom, ⟨raw, hraw, hfresh⟩, hlinked⟩ := (h.fits_of_getElem? ht).op
  obtain ⟨hpos, hapart⟩ := fresh_iff.mp hfresh
  refine h.grows ht ⟨rfl, rfl, rfl, rfl, Nat.le_succ _, fun _ _ => rfl, fun _ _ => rfl⟩ ?_ rfl rfl
    rfl (fun _ => rfl) ?_ ?_ ?_
  · refine { h.valid with blocks_le := hroom, slabs := ?_, apart := ?_, links := ?_ }
    · intro slab hslab
      rcases Nat.lt_succ_iff_lt_or_eq.mp hslab with hlt | rfl
      · exact h.valid.slabs slab hlt
      · exact ⟨raw, hraw, hpos⟩
    · intro slab slab' base base' hslab hslab' hne hbase hbase'
      rcases Nat.lt_succ_iff_lt_or_eq.mp hslab with hlt | rfl
      · rcases Nat.lt_succ_iff_lt_or_eq.mp hslab' with hlt' | rfl
        · exact h.valid.apart slab slab' base base' hlt hlt' hne hbase hbase'
        · obtain rfl := Option.some.inj (hraw.symm.trans hbase')
          exact hapart slab hlt base hbase
      · rcases Nat.lt_succ_iff_lt_or_eq.mp hslab' with hlt' | rfl
        · obtain rfl := Option.some.inj (hraw.symm.trans hbase)
          exact (hapart slab' hlt' base' hbase').symm
        · exact absurd rfl hne
    · intro slab hslab
      rcases Nat.lt_succ_iff_lt_or_eq.mp hslab with hlt | rfl
      · exact h.valid.links slab hlt
      · exact hlinked.imp fun _ h => h.1
  · intro index hindex
    exact decide_eq_false (h.valid.slabOf_lt hindex).ne
  · intro index hle hlt
    apply decide_eq_true
    change index.toNat / m.blocksPerSlab = m.slabCount
    apply Nat.div_eq_of_lt_le hle hlt
  · exact ⟨rfl, hlinked⟩

theorem growLink {slab : ℕ} (h : Inv m threads free)
    (ht : threads[k]? = some ⟨held, .growLink slab oldHead⟩) :
  Inv (m.storeLink slab (m.blocksPerSlab - 1) (indexOf oldHead))
    (threads.set k ⟨held, .growSwap slab oldHead⟩) free
  := by
  obtain ⟨hslab, hlinked⟩ := (h.fits_of_getElem? ht).op
  have hroom := h.valid.room_of_succ_eq hslab
  have hpos := h.valid.blocksPerSlab_pos
  have hlast : m.blocksPerSlab - 1 < m.blocksPerSlab := by omega
  -- The last block of the slab.
  set last := m.block slab (m.blocksPerSlab - 1) with hdef
  have hlt : last.toNat < m.blocks := by
    rw [block_toNat hroom hlast, blocks, ← hslab, Nat.succ_mul]
    omega
  have hslabOf : m.slabOf last = slab := slabOf_block hroom hlast
  have hstore : m.storeLink slab (m.blocksPerSlab - 1) (indexOf oldHead)
      = m.storeLink (m.slabOf last) (m.offsetOf last) (indexOf oldHead) := by
    rw [hslabOf, hdef, offsetOf_block hroom hlast]
  obtain ⟨old, hold⟩ := h.valid.exists_link hlt
  rw [hstore]
  refine h.storeLink ht hlt (decide_eq_true hslabOf) (fun _ => rfl) rfl
    ⟨hslab, ?_, link_storeLink_self hold _⟩
  rw [← hstore]
  apply Linked.storeLink hlinked
  intro _
  omega

/-- The slab is put in front of the list. -/
theorem growSwap {slab : ℕ} (h : Inv m threads free)
    (ht : threads[k]? = some ⟨held, .growSwap slab oldHead⟩) (hhead : m.freeHead = oldHead) :
  ∃ free', Inv
    (m.setHead (pack (UInt32.ofNat (slab * m.blocksPerSlab)) (generationOf oldHead + 1)))
    (threads.set k ⟨held, .growUnlock true⟩) free'
  := by
  subst hhead
  obtain ⟨hslab, hlinked, hlast⟩ := (h.fits_of_getElem? ht).op
  have hroom := h.valid.room_of_succ_eq hslab
  have hpos := h.valid.blocksPerSlab_pos
  have hpath := path_slabBlocks hroom hpos hlinked hlast
  refine ⟨m.slabBlocks slab ++ free, h.setHead ht (h.chain.append hpath) ?_ ?_ rfl trivial⟩
  · intro index hindex
    rcases List.mem_append.mp hindex with hnew | hold
    · rw [mem_slabBlocks hroom hpos, slabOf] at hnew
      rw [blocks, ← Nat.div_lt_iff_lt_mul hpos]
      omega
    · exact h.free_lt index hold
  · intro index hindex
    rw [List.count_append, count_slabBlocks hroom hpos]
    simp [Op.owns, Bool.toNat, Bool.cond_eq_ite, Nat.add_comm]

/-! ### Deallocation -/

theorem freeScan {p n slab : ℕ} (h : Inv m threads free)
    (ht : threads[k]? = some ⟨held, .freeScan p n slab⟩) (choice : Choice) :
  Inv m (threads.set k ⟨held, (advance choice m (.freeScan p n slab)).2⟩) free
  := by
  obtain ⟨index, hindex, hp, hfrom, hlt, hle⟩ := (h.fits_of_getElem? ht).op
  obtain ⟨base, hbase, -⟩ := h.valid.slabs slab (by omega)
  dsimp only [advance]
  rw [if_pos (lt_of_le_of_lt hfrom hlt), hbase]
  dsimp only
  split
  · -- The slab is that of the block.
    rename_i hmem
    obtain rfl := h.valid.slab_eq_of_mem hindex hp (by omega) hbase hmem
    rw [Valid.index_of_blockPtr hbase hp]
    refine h.goOn ht ?_ rfl hindex
    exact fun index' hindex' => (h.valid.decide_blockPtr hindex hp hindex').symm
  · rename_i hmem
    refine h.goOn ht (fun _ _ => rfl) rfl ?_
    refine ⟨index, hindex, hp, Nat.succ_le_of_lt (lt_of_le_of_ne hfrom ?_), hlt, hle⟩
    rintro rfl
    apply hmem
    obtain ⟨base', hbase', hp', -, hsize⟩ := h.valid.exists_blockPtr hindex
    obtain rfl := Option.some.inj (hbase.symm.trans hbase')
    obtain rfl := Option.some.inj (hp.symm.trans hp')
    rw [slabSize] at hsize
    omega

/-- The block is put in front of the list. -/
theorem freeSwap {index : UInt32} (h : Inv m threads free)
    (ht : threads[k]? = some ⟨held, .freeSwap index oldHead⟩) (hhead : m.freeHead = oldHead) :
  ∃ free', Inv (m.setHead (pack index (generationOf oldHead + 1)))
    (threads.set k ⟨held, .freeDiscount⟩) free'
  := by
  subst hhead
  obtain ⟨hindex, hlink⟩ := (h.fits_of_getElem? ht).op
  refine ⟨index :: free, h.setHead ht (.cons (h.valid.ne_kNullIndex hindex) hlink h.chain) ?_ ?_ rfl
    trivial⟩
  · intro b hb
    rcases List.mem_cons.mp hb with rfl | hb
    · exact hindex
    · exact h.free_lt b hb
  · intro b hb
    simp [Op.owns, List.count_cons, Bool.toNat, Bool.cond_eq_ite]

/-! ### Steps -/

/-- A step of an operation preserves the invariant. -/
theorem advance (h : Inv m threads free) {op : Op} (ht : threads[k]? = some ⟨held, op⟩)
    (htimely : op.Timely m) (choice : Choice) :
  ∃ free', Inv (MemoryPool.advance choice m op).1
    (threads.set k ⟨held, (MemoryPool.advance choice m op).2⟩) free'
  := by
  have hfits := (h.fits_of_getElem? ht).op
  -- The steps that change the pool are above. The others keep what the operation has.
  cases op with
  | idle => exact ⟨free, h.goOn ht (fun _ _ => rfl) rfl hfits⟩
  | allocLoad =>
      have hm : (MemoryPool.advance choice m .allocLoad).1 = m := by
        dsimp only [MemoryPool.advance]
        split <;> rfl
      rw [hm]
      exact ⟨free, h.allocLoad ht choice⟩
  | allocTable oldHead since =>
      obtain ⟨table, htable⟩ := h.valid.links _ (h.valid.slabOf_lt hfits.index_lt)
      dsimp only [MemoryPool.advance]
      rw [htable]
      exact ⟨free, h.goOn ht (fun _ _ => rfl) rfl hfits⟩
  | allocLink oldHead since =>
      obtain ⟨next, hnext⟩ := h.valid.exists_link hfits.index_lt
      dsimp only [MemoryPool.advance]
      rw [hnext]
      exact ⟨free, h.goOn ht (fun _ _ => rfl) rfl ⟨hfits, fun _ => hnext⟩⟩
  | allocSwap oldHead next since =>
      dsimp only [MemoryPool.advance]
      split
      · rename_i hswap
        exact h.allocSwap ht hswap.1 htimely
      · exact ⟨free, h.goOn ht (fun _ _ => rfl) rfl trivial⟩
  | allocCount index =>
      exact ⟨free, h.aside ht (m.allocated + 1) (fun _ _ => rfl) rfl
        ⟨(h.fits_of_getElem? ht).held, hfits⟩⟩
  | allocSlab index =>
      obtain ⟨base, -, hp, -⟩ := h.valid.exists_blockPtr hfits
      dsimp only [MemoryPool.advance]
      rw [hp]
      refine ⟨free, h.goOn ht ?_ rfl ⟨index, hfits, hp⟩⟩
      exact fun index' hindex' => h.valid.decide_blockPtr hfits hp hindex'
  | allocated p => exact ⟨free, h.goOn ht (fun _ _ => rfl) rfl hfits⟩
  | growLock =>
      dsimp only [MemoryPool.advance]
      split
      · exact ⟨free, h.goOn ht (fun _ _ => rfl) rfl trivial⟩
      · rename_i hmutex
        refine ⟨free, h.aside ht m.allocated (fun _ _ => rfl) ?_
          ⟨(h.fits_of_getElem? ht).held, trivial⟩⟩
        rw [Bool.not_eq_true] at hmutex
        rw [hmutex]
        rfl
  | growCheck =>
      dsimp only [MemoryPool.advance]
      split
      · exact ⟨free, h.goOn ht (fun _ _ => rfl) rfl trivial⟩
      · exact ⟨free, h.goOn ht (fun _ _ => rfl) rfl trivial⟩
  | growCount =>
      have hm : (MemoryPool.advance choice m .growCount).1 = m := by
        dsimp only [MemoryPool.advance]
        split_ifs <;> rfl
      rw [hm]
      exact ⟨free, h.growCount ht choice⟩
  | storeSlab slab raw => exact ⟨free, h.storeSlab ht⟩
  | storeTable slab => exact ⟨free, h.storeTable ht⟩
  | storeCount slab => exact ⟨free, h.storeCount ht⟩
  | growLoad slab => exact ⟨free, h.goOn ht (fun _ _ => rfl) rfl hfits⟩
  | growLink slab oldHead => exact ⟨free, h.growLink ht⟩
  | growSwap slab oldHead =>
      dsimp only [MemoryPool.advance]
      split
      · rename_i hswap
        exact h.growSwap ht hswap.1
      · exact ⟨free, h.goOn ht (fun _ _ => rfl) rfl ⟨hfits.1, hfits.2.1⟩⟩
  | growUnlock ok =>
      have hmutex := h.growMutex_eq ht rfl
      refine ⟨free, h.aside ht m.allocated ?_ ?_ ⟨(h.fits_of_getElem? ht).held, ?_⟩⟩
      · cases ok <;> exact fun _ _ => rfl
      · rw [hmutex]
        cases ok <;> rfl
      · cases ok <;> trivial
  | freeCount p =>
      obtain ⟨index, hindex, hp⟩ := hfits
      exact ⟨free, h.goOn ht (fun _ _ => rfl) rfl
        ⟨index, hindex, hp, Nat.zero_le _, h.valid.slabOf_lt hindex, le_rfl⟩⟩
  | freeScan p n slab =>
      have hm : (MemoryPool.advance choice m (.freeScan p n slab)).1 = m := by
        dsimp only [MemoryPool.advance]
        split
        · split
          · rfl
          · split <;> rfl
        · rfl
      rw [hm]
      exact ⟨free, h.freeScan ht choice⟩
  | freeLoad index => exact ⟨free, h.goOn ht (fun _ _ => rfl) rfl hfits⟩
  | freeTable index oldHead =>
      obtain ⟨table, htable⟩ := h.valid.links _ (h.valid.slabOf_lt hfits)
      dsimp only [MemoryPool.advance]
      rw [htable]
      exact ⟨free, h.goOn ht (fun _ _ => rfl) rfl hfits⟩
  | freeLink index oldHead =>
      obtain ⟨old, hold⟩ := h.valid.exists_link hfits
      exact ⟨free, h.storeLink ht hfits (decide_eq_true rfl) (fun _ => rfl) rfl
        ⟨hfits, link_storeLink_self hold _⟩⟩
  | freeSwap index oldHead =>
      dsimp only [MemoryPool.advance]
      split
      · rename_i hswap
        exact h.freeSwap ht hswap.1
      · exact ⟨free, h.goOn ht (fun _ _ => rfl) rfl hfits.1⟩
  | freeDiscount =>
      exact ⟨free, h.aside ht (m.allocated - 1) (fun _ _ => rfl) rfl
        ⟨(h.fits_of_getElem? ht).held, trivial⟩⟩
  | undefined => exact absurd hfits id

/-- A thread gives up a pointer, and `deallocate` has the block. -/
theorem deallocate (h : Inv m threads free) (ht : threads[k]? = some ⟨held, .idle⟩) {i p : ℕ}
    (hp : held[i]? = some p) :
  Inv m (threads.set k ⟨held.eraseIdx i, .freeCount p⟩) free
  := by
  have hfits := (h.fits_of_getElem? ht).held
  obtain ⟨hi, rfl⟩ := List.getElem?_eq_some_iff.mp hp
  refine h.aside ht m.allocated ?_ rfl ⟨?_, hfits _ (List.getElem_mem hi)⟩
  · intro index _
    have hperm := (List.getElem_cons_eraseIdx_perm hi).countP_eq fun p => m.blockPtr index = some p
    rw [List.countP_cons] at hperm
    simp only [Thread.share, Thread.holds, Op.owns, Bool.toNat, Bool.cond_eq_ite]
    rw [← hperm]
    simp
  · exact fun p hp => hfits p (List.mem_of_mem_eraseIdx hp)

/-- A thread has allocated a block, and holds it. -/
theorem allocated (h : Inv m threads free) (ht : threads[k]? = some ⟨held, .allocated p⟩) :
  Inv m (threads.set k ⟨held ++ [p], .idle⟩) free
  := by
  obtain ⟨hheld, hblock⟩ := h.fits_of_getElem? ht
  refine h.aside ht m.allocated ?_ rfl ⟨?_, trivial⟩
  · intro index _
    simp only [Thread.share, Thread.holds, Op.owns, Bool.toNat, Bool.cond_eq_ite,
      List.countP_append, List.countP_singleton]
    simp
  · intro p' hp'
    rcases List.mem_append.mp hp' with hp' | hp'
    · exact hheld p' hp'
    · rw [List.mem_singleton.mp hp']
      exact hblock

/-- A step of a thread preserves the invariant. -/
theorem thread_advance {t : Thread} (h : Inv m threads free) (ht : threads[k]? = some t)
    (htimely : t.op.Timely m) (choice : Choice) :
  ∃ free', Inv (t.advance choice m).1 (threads.set k (t.advance choice m).2) free'
  := by
  obtain ⟨held, op⟩ := t
  cases op with
  | idle =>
      dsimp only [Thread.advance]
      split
      · exact ⟨free, h.goOn ht (fun _ _ => rfl) rfl trivial⟩
      · split
        · exact ⟨free, (Concurrent.set_of_getElem? ht).symm ▸ h⟩
        · rename_i p hp
          -- The address of a block is not null.
          obtain ⟨index, hindex, hptr⟩ :=
            (h.fits_of_getElem? ht).held p (List.mem_of_getElem? hp)
          obtain ⟨base, -, hptr', hpos, -⟩ := h.valid.exists_blockPtr hindex
          have hne : p ≠ 0 := by
            rw [hptr', Option.some_inj] at hptr
            omega
          rw [if_neg hne]
          exact ⟨free, h.deallocate ht hp⟩
  | allocated p => exact ⟨free, h.allocated ht⟩
  | _ => exact h.advance ht htimely choice

/-- A new thread has nothing. -/
theorem call (h : Inv m threads free) :
  Inv m (threads ++ [⟨[], .idle⟩]) free
  where
  valid := h.valid
  chain := h.chain
  free_lt := h.free_lt
  count index hindex := by
    rw [List.map_append, List.sum_append]
    exact h.count index hindex
  mutex := by
    rw [List.map_append, List.sum_append]
    exact h.mutex
  fits t ht := by
    rcases List.mem_append.mp ht with ht | ht
    · exact h.fits t ht
    · rw [List.mem_singleton.mp ht]
      exact ⟨fun p hp => absurd hp List.not_mem_nil, trivial⟩

end Inv

/-! ### The constructor -/

/-- The head changes at most once with each step. -/
theorem changes_advance_le (choice : Choice) (m : MemoryPool) (op : Op) :
  (advance choice m op).1.changes ≤ m.changes + 1
  := by
  cases op
  all_goals
    dsimp only [advance]
    repeat' split
  all_goals first
    | exact Nat.le_succ _
    | exact le_rfl

theorem changes_thread_advance_le (choice : Choice) (m : MemoryPool) (t : Thread) :
  (t.advance choice m).1.changes ≤ m.changes + 1
  := by
  rw [Thread.advance]
  split
  · split
    · exact Nat.le_succ _
    · split <;> exact Nat.le_succ _
  · exact Nat.le_succ _
  · apply changes_advance_le

/-- The generation does not come around at first. -/
theorem timely_of_changes_lt (h : m.changes < 2 ^ 32) (op : Op) :
  op.Timely m
  := by
  cases op with
  | allocSwap oldHead next since => exact lt_of_le_of_lt (Nat.sub_le _ _) h
  | _ => trivial

/-- Before the constructor, there is nothing. -/
theorem inv_empty {blocksPerSlab : ℕ} (hpos : 0 < blocksPerSlab) (stride : ℕ+) :
  Inv (empty blocksPerSlab stride) [⟨[], .growCount⟩] []
  where
  valid := by
    refine ⟨hpos, ?_, ?_, ?_, ?_, generationOf_pack _ _⟩
    · rw [blocks, empty, Nat.zero_mul]
      apply Nat.zero_le
    · exact fun slab hslab => absurd hslab (Nat.not_lt_zero slab)
    · exact fun slab _ _ _ hslab => absurd hslab (Nat.not_lt_zero slab)
    · exact fun slab hslab => absurd hslab (Nat.not_lt_zero slab)
  chain := by
    rw [empty, indexOf_pack]
    exact .nil
  free_lt index hindex := absurd hindex List.not_mem_nil
  count index hindex := by
    rw [blocks, empty, Nat.zero_mul] at hindex
    exact absurd hindex (Nat.not_lt_zero _)
  mutex := rfl
  fits t ht := by
    rw [List.mem_singleton.mp ht]
    exact ⟨fun p hp => absurd hp List.not_mem_nil, trivial⟩

/-- The blocks of a new pool are all on the list. -/
theorem inv_construct {blocksPerSlab : ℕ} {stride : ℕ+} {choice : Choice}
    (h : construct blocksPerSlab stride choice = some m) :
  ∃ free, Inv m [] free
  := by
  have hpos : 0 < blocksPerSlab := by
    rcases Nat.eq_zero_or_pos blocksPerSlab with rfl | hpos
    · cases h
    · exact hpos
  -- The constructor is an operation, which is alone.
  set r := fun n => (fun r : MemoryPool × Op => MemoryPool.advance choice r.1 r.2)^[n]
    (empty blocksPerSlab stride, .growCount) with hr
  have hsteps : ∀ n ≤ 8, (∃ free, Inv (r n).1 [⟨[], (r n).2⟩] free) ∧ (r n).1.changes ≤ n := by
    intro n
    induction n with
    | zero => exact fun _ => ⟨⟨[], inv_empty hpos stride⟩, le_rfl⟩
    | succ n ih =>
        intro hn
        obtain ⟨⟨free, hinv⟩, hchanges⟩ := ih (by omega)
        have hsucc : r (n + 1) = MemoryPool.advance choice (r n).1 (r n).2 :=
          Function.iterate_succ_apply' ..
        have htimely := timely_of_changes_lt (m := (r n).1) (by omega) (r n).2
        have hle := changes_advance_le choice (r n).1 (r n).2
        rw [hsucc]
        exact ⟨hinv.advance (k := 0) rfl htimely choice, by omega⟩
  obtain ⟨⟨free, hinv⟩, -⟩ := hsteps 8 le_rfl
  change (if (r 8).2 = .allocLoad then some (r 8).1 else none) = some m at h
  split at h
  · rename_i hop
    obtain rfl := Option.some.inj h
    rw [hop] at hinv
    exact ⟨free, hinv.valid, hinv.chain, hinv.free_lt, hinv.count, hinv.mutex,
      fun t ht => absurd ht List.not_mem_nil⟩
  · cases h

/-! ### All the time -/

/-- No thread swaps the head after too many changes. -/
def Timely (s : Concurrent MemoryPool Thread) : Concurrent.Action Unit Choice → Prop
  | .call _ => True
  | .advance k _ => ∀ t, s.ops[k]? = some t → t.op.Timely s.memory

/-- A run that is not too long is timely. -/
theorem along_timely {s : Concurrent MemoryPool Thread}
    {actions : List (Concurrent.Action Unit Choice)}
    (h : s.memory.changes + actions.length < 2 ^ 32) :
  Along (Concurrent.step protocol) Timely s actions
  := by
  induction actions generalizing s with
  | nil => trivial
  | cons action actions ih =>
      rw [List.length_cons] at h
      cases action with
      | call c => exact ⟨trivial, ih (by change s.memory.changes + _ < _; omega)⟩
      | advance k choice =>
          refine ⟨fun t _ => timely_of_changes_lt (by omega) t.op, ih ?_⟩
          rw [Concurrent.step]
          split
          · omega
          · rename_i t ht
            have hle := changes_thread_advance_le choice s.memory t
            change (t.advance choice s.memory).1.changes + _ < _
            omega

theorem inv_run {blocksPerSlab : ℕ} {stride : ℕ+} {choice : Choice}
    (hnew : construct blocksPerSlab stride choice = some m)
    {actions : List (Concurrent.Action Unit Choice)}
    (htimely : Along (Concurrent.step protocol) Timely ⟨m, []⟩ actions) :
  ∃ free, Inv (Concurrent.run protocol ⟨m, []⟩ actions).memory
    (Concurrent.run protocol ⟨m, []⟩ actions).ops free
  := by
  refine Concurrent.run_induction_along (P := fun s => ∃ free, Inv s.memory s.ops free) ?_ ?_
    (inv_construct hnew) htimely
  · rintro s c ⟨free, h⟩
    exact ⟨free, h.call⟩
  · rintro s k t choice ⟨free, h⟩ ht htimely
    exact h.thread_advance ht (htimely t ht) choice

/-- Whatever threads do with a pool, the free blocks are a list that ends, without a block that is
not there or is twice. A block of a slab is on the list, or held by a thread, or one operation has
it, and only one of these. A block that is handed out is not held by anyone, and nothing undefined
happens. -/
theorem blocks_exclusive {blocksPerSlab : ℕ} {stride : ℕ+} {choice : Choice}
    (hnew : construct blocksPerSlab stride choice = some m)
    {actions : List (Concurrent.Action Unit Choice)}
    (htimely : Along (Concurrent.step protocol) Timely ⟨m, []⟩ actions) :
  let s := Concurrent.run protocol ⟨m, []⟩ actions
  (∃ free, Chain s.memory.link kNullIndex (indexOf s.memory.freeHead) free ∧ free.Nodup
    ∧ (∀ index ∈ free,
        index.toNat < s.memory.slabCount * s.memory.blocksPerSlab ∧ index ≠ kNullIndex)
    ∧ ∀ index : UInt32, index.toNat < s.memory.slabCount * s.memory.blocksPerSlab →
        free.count index + (s.ops.map (Thread.holds s.memory index)).sum
          + (s.ops.map fun t => (t.op.owns s.memory index).toNat).sum = 1)
    ∧ (∀ t ∈ s.ops, ∀ p, t.op = .allocated p → s.memory.IsBlock p ∧ ∀ u ∈ s.ops, p ∉ u.held)
    ∧ ∀ t ∈ s.ops, t.op ≠ .undefined
  := by
  intro s
  obtain ⟨free, h⟩ := inv_run hnew htimely
  have hcount : ∀ index : UInt32, index.toNat < s.memory.blocks →
      free.count index + (s.ops.map (Thread.holds s.memory index)).sum
        + (s.ops.map fun t => (t.op.owns s.memory index).toNat).sum = 1 := by
    intro index hindex
    rw [Nat.add_assoc, ← List.sum_map_add]
    exact h.count index hindex
  refine ⟨⟨free, h.chain, ?_, ?_, hcount⟩, ?_, ?_⟩
  · rw [List.nodup_iff_count_le_one]
    intro index
    by_cases hmem : index ∈ free
    · have := hcount index (h.free_lt index hmem)
      omega
    · rw [List.count_eq_zero.mpr hmem]
      apply Nat.zero_le
  · exact fun index hindex => ⟨h.free_lt index hindex, h.chain.ne_null_of_mem hindex⟩
  · intro t ht p hp
    have hfits := (h.fits t ht).op
    rw [hp] at hfits
    obtain ⟨index, hindex, hptr⟩ := hfits
    refine ⟨⟨index, hindex, hptr⟩, fun u hu hheld => ?_⟩
    -- The operation has the block, and the thread would hold it.
    have howns := List.single_le_sum (fun _ _ => Nat.zero_le _) _
      (List.mem_map_of_mem (f := fun t => (t.op.owns s.memory index).toNat) ht)
    have hholds := List.single_le_sum (fun _ _ => Nat.zero_le _) _
      (List.mem_map_of_mem (f := Thread.holds s.memory index) hu)
    have hpos : 0 < u.holds s.memory index :=
      List.countP_pos_iff.mpr ⟨p, hheld, decide_eq_true hptr⟩
    have hone : (t.op.owns s.memory index).toNat = 1 := by
      rw [hp, Op.owns, decide_eq_true hptr]
      rfl
    have := hcount index hindex
    omega
  · intro t ht hop
    have hfits := (h.fits t ht).op
    rw [hop] at hfits
    exact hfits

/-- Two threads allocate, and have loaded the same head when the first one swaps it. -/
def contention (choice : Choice) : List (Concurrent.Action Unit Choice) :=
  [.call (), .call ()]
    ++ List.replicate 4 (.advance 0 choice) ++ List.replicate 4 (.advance 1 choice)
    ++ [.advance 0 choice, .advance 1 choice, .advance 0 choice, .advance 0 choice]

/-- A pool of two blocks. -/
def twoBlocks : MemoryPool :=
  (construct 2 8 ⟨.allocate, false, 16⟩).getD (empty 2 8)

theorem blocks_exclusive_contention :
  construct 2 8 ⟨.allocate, false, 16⟩ = some twoBlocks
    ∧ Along (Concurrent.step protocol) Timely ⟨twoBlocks, []⟩ (contention ⟨.allocate, false, 16⟩)
    ∧ let s := Concurrent.run protocol ⟨twoBlocks, []⟩ (contention ⟨.allocate, false, 16⟩)
      (∃ t ∈ s.ops, t.op = .allocated 16) ∧ ∀ u ∈ s.ops, 16 ∉ u.held
  := by
  have hnew : construct 2 8 ⟨.allocate, false, 16⟩ = some twoBlocks := by
    have hsome : (construct 2 8 ⟨.allocate, false, 16⟩).isSome = true := by decide +kernel
    obtain ⟨m, hm⟩ := Option.isSome_iff_exists.mp hsome
    rw [twoBlocks, hm]
    rfl
  have htimely : Along (Concurrent.step protocol) Timely ⟨twoBlocks, []⟩
      (contention ⟨.allocate, false, 16⟩) := by
    apply along_timely
    decide +kernel
  have hop : ∃ t ∈ (Concurrent.run protocol ⟨twoBlocks, []⟩
      (contention ⟨.allocate, false, 16⟩)).ops, t.op = .allocated 16 := by
    decide +kernel
  obtain ⟨t, ht, htop⟩ := hop
  have hexclusive := blocks_exclusive hnew htimely
  exact ⟨hnew, htimely, ⟨t, ht, htop⟩, (hexclusive.2.1 t ht 16 htop).2⟩

end Memory
