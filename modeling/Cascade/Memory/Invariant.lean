import Cascade.Memory.Ownership

/-!
# What the threads share

The blocks of a pool are, at all times, each at one place: on the list, with a thread that holds it,
or with an operation. This is `Inv`, and there are few ways in which a step can change the pool:
the head, the link of a block, the slabs, or the counter and the mutex, which do not matter. For
each there is a lemma that says when the invariant is preserved.
-/

namespace Memory

open MemoryPool LinkedList

/-- The list and the threads share the blocks, one thread at most has the mutex, and the threads
fit. -/
structure Inv (m : MemoryPool) (threads : List Thread) (free : List UInt32) : Prop where
  valid : Valid m
  chain : Chain m.link kNullIndex (indexOf m.freeHead) free
  free_lt : ∀ index ∈ free, index.toNat < m.blocks
  count : ∀ index : UInt32, index.toNat < m.blocks →
    free.count index + (threads.map (Thread.share m index)).sum = 1
  mutex : (threads.map fun t => t.op.growing.toNat).sum = m.growMutex.toNat
  fits : ∀ t ∈ threads, t.Fits m

namespace Inv

variable {m m' : MemoryPool} {threads : List Thread} {free free' : List UInt32} {k : ℕ}
  {t t' : Thread} {held : List ℕ} {op op' : Op} {index : UInt32}

theorem fits_of_getElem? (h : Inv m threads free) (ht : threads[k]? = some t) :
  t.Fits m
  := h.fits t (List.mem_of_getElem? ht)

/-- A block that a thread has is not on the list. -/
theorem not_mem_free (h : Inv m threads free) (ht : threads[k]? = some t)
    (hindex : index.toNat < m.blocks) (hshare : 0 < t.share m index) :
  index ∉ free
  := by
  intro hmem
  have hpos := List.count_pos_iff.mpr hmem
  have hle := le_sum_map ht (Thread.share m index)
  have hcount := h.count index hindex
  omega

/-- A block that a thread has no other thread has. -/
theorem share_eq_zero (h : Inv m threads free) (ht : threads[k]? = some t)
    (hindex : index.toNat < m.blocks) (hshare : 0 < t.share m index) {k' : ℕ}
    (ht' : threads[k']? = some t') (hne : k' ≠ k) :
  t'.share m index = 0
  := by
  have hle := add_le_sum_map ht ht' hne.symm (Thread.share m index)
  have hcount := h.count index hindex
  omega

/-- When a thread has the mutex, it is locked, and no other thread has it. -/
theorem growMutex_eq (h : Inv m threads free) (ht : threads[k]? = some t)
    (hgrowing : t.op.growing = true) :
  m.growMutex = true
  := by
  have hle := le_sum_map ht fun t => t.op.growing.toNat
  rw [h.mutex, hgrowing] at hle
  cases hmutex : m.growMutex with
  | true => rfl
  | false => simp [hmutex] at hle

theorem growing_eq_false (h : Inv m threads free) (ht : threads[k]? = some t)
    (hgrowing : t.op.growing = true) {k' : ℕ} (ht' : threads[k']? = some t') (hne : k' ≠ k) :
  t'.op.growing = false
  := by
  have hle := add_le_sum_map ht ht' hne.symm fun t => t.op.growing.toNat
  rw [h.mutex, hgrowing, h.growMutex_eq ht hgrowing] at hle
  cases hgrowing' : t'.op.growing with
  | false => rfl
  | true => simp [hgrowing'] at hle

/-- The first block of the list is a block. -/
theorem head_mem (h : Inv m threads free) (hne : indexOf m.freeHead ≠ kNullIndex) :
  indexOf m.freeHead ∈ free
  := by
  obtain ⟨next, rest, rfl, -⟩ := h.chain.exists_cons hne
  exact List.mem_cons_self

/-! ### One thread goes on -/

/-- A thread goes on, and the pool and the list change accordingly. -/
theorem set (h : Inv m threads free) (ht : threads[k]? = some t) (valid : Valid m')
    (hchain : Chain m'.link kNullIndex (indexOf m'.freeHead) free')
    (hlt : ∀ index ∈ free', index.toNat < m'.blocks)
    (hcount : ∀ index : UInt32, index.toNat < m'.blocks →
      free'.count index + (threads.map (Thread.share m' index)).sum + t'.share m' index
        = 1 + t.share m' index)
    (hmutex : m.growMutex.toNat + t'.op.growing.toNat = m'.growMutex.toNat + t.op.growing.toNat)
    (hfits : t'.Fits m')
    (others : ∀ k' u, k' ≠ k → threads[k']? = some u → u.Fits m') :
  Inv m' (threads.set k t') free'
  where
  valid
  chain := hchain
  free_lt := hlt
  count index hindex := by
    have hsum := sum_map_set ht (Thread.share m' index) t'
    have := hcount index hindex
    omega
  mutex := by
    have hsum := sum_map_set ht (fun t => t.op.growing.toNat) t'
    have := h.mutex
    omega
  fits u hu := by
    obtain ⟨k', hk'⟩ := List.mem_iff_getElem?.mp hu
    rcases eq_or_ne k' k with rfl | hne
    · have hk := (List.getElem?_eq_some_iff.mp ht).1
      rw [List.getElem?_set_self hk] at hk'
      exact Option.some.inj hk' ▸ hfits
    · rw [List.getElem?_set_ne hne.symm] at hk'
      exact others k' u hne hk'

/-- A step that at most counts an allocation, or locks or unlocks the mutex. -/
theorem aside (h : Inv m threads free) (ht : threads[k]? = some t) (allocated : UInt64)
    {growMutex : Bool}
    (hshare : ∀ index : UInt32, index.toNat < m.blocks → t'.share m index = t.share m index)
    (hmutex : m.growMutex.toNat + t'.op.growing.toNat = growMutex.toNat + t.op.growing.toNat)
    (hfits : t'.Fits m) :
  Inv { m with allocated, growMutex } (threads.set k t') free
  := by
  have hfits' : ∀ u : Thread, u.Fits m → u.Fits { m with allocated, growMutex } :=
    fun u hu => ⟨hu.held, Op.Fits.aside hu.op allocated growMutex⟩
  apply h.set ht (h.valid.aside allocated growMutex) h.chain h.free_lt
  · intro index hindex
    have hcount := h.count index hindex
    have heq := hshare index hindex
    change free.count index + (threads.map (Thread.share m index)).sum + t'.share m index
      = 1 + t.share m index
    omega
  · exact hmutex
  · exact hfits' t' hfits
  · exact fun k' u _ hu => hfits' u (h.fits_of_getElem? hu)

/-- A step that leaves the pool as it is. -/
theorem goOn (h : Inv m threads free) (ht : threads[k]? = some ⟨held, op⟩)
    (howns : ∀ index : UInt32, index.toNat < m.blocks → op'.owns m index = op.owns m index)
    (hgrowing : op'.growing = op.growing) (hfits : op'.Fits m) :
  Inv m (threads.set k ⟨held, op'⟩) free
  := by
  refine h.aside ht m.allocated ?_ ?_ ⟨(h.fits_of_getElem? ht).held, hfits⟩
  · intro index hindex
    rw [Thread.share, Thread.share, howns index hindex]
    rfl
  · rw [hgrowing]

/-- A step that changes the head. -/
theorem setHead (h : Inv m threads free) (ht : threads[k]? = some ⟨held, op⟩)
    (hchain : Chain m.link kNullIndex index free')
    (hlt : ∀ index ∈ free', index.toNat < m.blocks)
    (hcount : ∀ index : UInt32, index.toNat < m.blocks →
      free'.count index + (op'.owns m index).toNat = free.count index + (op.owns m index).toNat)
    (hgrowing : op'.growing = op.growing) (hfits : op'.Fits m) :
  Inv (m.setHead (pack index (generationOf m.freeHead + 1))) (threads.set k ⟨held, op'⟩) free'
  := by
  apply h.set ht (h.valid.setHead index)
  · change Chain m.link kNullIndex (indexOf (pack index _)) free'
    rwa [indexOf_pack]
  · exact hlt
  · intro b hb
    have hbefore := h.count b hb
    have hafter := hcount b hb
    change free'.count b + (threads.map (Thread.share m b)).sum
      + (Thread.holds m b ⟨held, op⟩ + (op'.owns m b).toNat)
      = 1 + (Thread.holds m b ⟨held, op⟩ + (op.owns m b).toNat)
    omega
  · change m.growMutex.toNat + op'.growing.toNat = m.growMutex.toNat + op.growing.toNat
    rw [hgrowing]
  · exact ⟨(h.fits_of_getElem? ht).held, Op.Fits.setHead hfits _⟩
  · intro k' u _ hu
    have hfits := h.fits_of_getElem? hu
    exact ⟨hfits.held, Op.Fits.setHead hfits.op _⟩

/-- A step that stores the link of a block that the operation has. -/
theorem storeLink (h : Inv m threads free) (ht : threads[k]? = some ⟨held, op⟩)
    (hindex : index.toNat < m.blocks) (howns : op.owns m index = true) {next : UInt32}
    (hshare : ∀ index : UInt32, op'.owns m index = op.owns m index)
    (hgrowing : op'.growing = op.growing)
    (hfits : op'.Fits (m.storeLink (m.slabOf index) (m.offsetOf index) next)) :
  Inv (m.storeLink (m.slabOf index) (m.offsetOf index) next) (threads.set k ⟨held, op'⟩) free
  := by
  have hpos : 0 < Thread.share m index ⟨held, op⟩ := by
    rw [Thread.share, howns]
    exact Nat.succ_pos _
  have hmem := h.not_mem_free ht hindex hpos
  have hhead : indexOf m.freeHead ≠ index := by
    rintro rfl
    exact hmem (h.head_mem (h.valid.ne_kNullIndex hindex))
  apply h.set ht (h.valid.storeLink (m.slabOf index) (m.offsetOf index) next)
  · apply h.chain.congr
    intro b hb
    apply link_storeLink_of_ne
    rintro rfl
    exact hmem hb
  · exact h.free_lt
  · intro b hb
    have hcount := h.count b hb
    change free.count b + (threads.map (Thread.share m b)).sum
      + (Thread.holds m b ⟨held, op⟩ + (op'.owns m b).toNat)
      = 1 + (Thread.holds m b ⟨held, op⟩ + (op.owns m b).toNat)
    rw [hshare]
    omega
  · change m.growMutex.toNat + op'.growing.toNat = m.growMutex.toNat + op.growing.toNat
    rw [hgrowing]
  · exact ⟨(h.fits_of_getElem? ht).held, hfits⟩
  · intro k' u hne hu
    have hfits := h.fits_of_getElem? hu
    refine ⟨hfits.held, Op.Fits.storeLink hfits.op h.valid hindex ?_ hhead next⟩
    have hzero := h.share_eq_zero ht hindex hpos hu hne
    rw [Thread.share, Nat.add_eq_zero_iff, Bool.toNat_eq_zero] at hzero
    exact hzero.2

/-- A step that adds a part of a slab. When it counts it, the operation has its blocks. -/
theorem grows (h : Inv m threads free) (ht : threads[k]? = some ⟨held, op⟩) (hgrows : Grows m m')
    (valid : Valid m') (hmutex : m'.growMutex = m.growMutex) (hgrowing : op.growing = true)
    (hgrowing' : op'.growing = true) (howns : ∀ index, op.owns m' index = false)
    (hold : ∀ index : UInt32, index.toNat < m.blocks → op'.owns m' index = false)
    (hnew : ∀ index : UInt32, m.blocks ≤ index.toNat → index.toNat < m'.blocks →
      op'.owns m' index = true)
    (hfits : op'.Fits m') :
  Inv m' (threads.set k ⟨held, op'⟩) free
  := by
  have hheld := (h.fits_of_getElem? ht).held
  apply h.set ht valid
  · rw [hgrows.freeHead]
    apply h.chain.congr
    intro b hb
    exact hgrows.link h.valid (h.free_lt b hb)
  · exact fun b hb => (h.free_lt b hb).trans_le hgrows.blocks_le
  · intro b hb
    change _ + (Thread.holds m' b ⟨held, op⟩ + (op'.owns m' b).toNat)
      = 1 + (Thread.holds m' b ⟨held, op⟩ + (op.owns m' b).toNat)
    rw [howns b]
    rcases lt_or_ge b.toNat m.blocks with hlt | hge
    · have hshare : Thread.share m' b = Thread.share m b := by
        funext u
        exact hgrows.share h.valid hlt u
      have hcount := h.count b hlt
      rw [hshare, hold b hlt]
      omega
    · -- Nobody has had a block of the new slab.
      have hfree : free.count b = 0 := by
        rw [List.count_eq_zero]
        intro hmem
        have := h.free_lt b hmem
        omega
      have hshare : (threads.map (Thread.share m' b)).sum = 0 := by
        rw [List.sum_eq_zero_iff]
        intro x hx
        obtain ⟨u, hu, rfl⟩ := List.mem_map.mp hx
        obtain ⟨k', hk'⟩ := List.mem_iff_getElem?.mp hu
        have hfits := h.fits u hu
        rw [Thread.share, hgrows.holds_new h.valid valid hfits.held hge hb]
        rcases eq_or_ne k' k with rfl | hne
        · obtain rfl := Option.some.inj (ht.symm.trans hk')
          rw [howns b]
          rfl
        · rw [hgrows.owns_new h.valid valid (h.growing_eq_false ht hgrowing hk' hne) hfits.op hge
            hb]
          rfl
      rw [hfree, hshare, hnew b hge hb]
      simp only [Bool.toNat_true, Bool.toNat_false]
      omega
  · change m.growMutex.toNat + op'.growing.toNat = m'.growMutex.toNat + op.growing.toNat
    rw [hmutex, hgrowing, hgrowing']
  · exact ⟨fun p hp => hgrows.isBlock h.valid (hheld p hp), hfits⟩
  · intro k' u hne hu
    have hfits := h.fits_of_getElem? hu
    exact ⟨fun p hp => hgrows.isBlock h.valid (hfits.held p hp),
      hgrows.fits h.valid (h.growing_eq_false ht hgrowing hu hne) hfits.op⟩

end Inv

end Memory
