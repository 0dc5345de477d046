import Nyaux.Mm.HeapInv

/-! What `make_slab`, `slab_alloc` and `free` do to the pages, and that they never meet a
null header. -/

namespace Nyaux.Mm

open Word Memory

section LinkObjects

variable {start size : Nat}

theorem linkObjects_other (n : Nat) (mem : Mem) (address : Nat)
    (other : ∀ j < n, address ≠ start + j * size) :
    linkObjects start size n mem address = mem address := by
  induction n with
  | zero => rfl
  | succ n ih =>
      rw [linkObjects, store_other _ _ _ _ (other n (Nat.lt_succ_self n))]
      exact ih fun j inside => other j (Nat.lt_succ_of_lt inside)

theorem linkObjects_at (positive : 0 < size) (n : Nat) (mem : Mem) (j : Nat) (inside : j < n) :
    linkObjects start size n mem (start + j * size) = start + (j + 1) * size := by
  induction n with
  | zero => exact absurd inside (Nat.not_lt_zero j)
  | succ n ih =>
      rw [linkObjects]
      by_cases last : j = n
      · rw [last, store_same]
      · rw [store_other]
        · exact ih (by omega)
        · intro same
          exact last (Nat.eq_of_mul_eq_mul_right positive (Nat.add_left_cancel same))

theorem chain_objects {mem : Mem} (base n : Nat) (nonzero : 0 < start)
    (links : ∀ j < n, mem (start + j * size) = start + (j + 1) * size)
    (ends : mem (start + n * size) = 0) (j : Nat) (inside : base + j = n) :
    Chain mem 0 (start + base * size)
      ((List.range' base (j + 1)).map fun i => start + i * size) := by
  induction j generalizing base with
  | zero =>
      refine ⟨rfl, Nat.ne_of_gt (Nat.add_pos_left nonzero _), ?_⟩
      rw [Nat.add_zero, show base = n by omega, ends]
      rfl
  | succ j ih =>
      rw [List.range'_succ, List.map_cons]
      refine ⟨rfl, Nat.ne_of_gt (Nat.add_pos_left nonzero _), ?_⟩
      rw [Nat.add_zero, links base (by omega)]
      exact ih (base + 1) (by omega)

end LinkObjects

theorem objAmount_pos {c : Nat} (cache : c < 8) : 0 < objAmount (cacheSize c) := by
  have small : cacheSize c ≤ 4096 - 24 := by
    unfold cacheSize
    have := Nat.pow_le_pow_right (show 0 < 2 by decide) (show c ≤ 7 by omega)
    omega
  exact Nat.div_pos small (cacheSize_pos c)

/-- The memory `make_slab` leaves in a page. -/
def slabMem (mem : Mem) (page size : Nat) : Mem :=
  linkObjects (page + 24) size (objAmount size - 1)
    (store (store (zeroPage mem page) page size) (page + 16) (page + 24))

theorem makeSlab_eq {offset size page : Nat} {k : Kernel} (listed : k.head = page)
    (nonzero : page ≠ 0) (word : page < 2 ^ 64) :
    makeSlab offset size k =
      .ok (page, { k with mem := slabMem k.mem page size, head := k.mem page }) := by
  have back : add64 (sub64 page offset) offset = page := by
    unfold add64 sub64
    omega
  subst listed
  unfold makeSlab pmmAllocSinglep
  rw [if_pos nonzero]
  simp only [Except.bind, bind, back]
  rfl

section NewSlab

variable {mem : Mem} {page c : Nat}

theorem slabMem_outside (cache : c < 8) (address : Nat) (outside : ¬ InPage page address) :
    slabMem mem page (cacheSize c) address = mem address := by
  have positive := objAmount_pos cache
  rw [slabMem, linkObjects_other, store_other, store_other]
  · exact if_neg outside
  · rintro rfl
    exact outside ⟨le_refl _, by omega⟩
  · rintro rfl
    exact outside ⟨by omega, by omega⟩
  · rintro j inside rfl
    apply outside
    apply object_inPage (c := c)
    exact List.mem_map.mpr ⟨j, List.mem_range.mpr (by omega), rfl⟩

theorem slabMem_header (address : Nat) (header : page ≤ address ∧ address < page + 24) :
    slabMem mem page (cacheSize c) address =
      store (store (zeroPage mem page) page (cacheSize c)) (page + 16) (page + 24) address := by
  apply linkObjects_other
  intro j _ same
  omega

theorem slabMem_next : slabMem mem page (cacheSize c) (page + 8) = 0 := by
  rw [slabMem_header _ ⟨by omega, by omega⟩, store_other _ _ _ _ (by omega),
    store_other _ _ _ _ (by omega)]
  exact zeroPage_inside ⟨by omega, by omega⟩

theorem slabOk_new (cache : c < 8) :
    SlabOk (slabMem mem page (cacheSize c)) ⟨page, c, objects page c, []⟩ where
  cache := cache
  size := by
    rw [slabMem_header _ ⟨le_refl _, by omega⟩, store_other _ _ _ _ (by omega), store_same]
  freelist := by
    obtain ⟨n, amount⟩ : ∃ n, objAmount (cacheSize c) = n + 1 :=
      ⟨objAmount (cacheSize c) - 1, by have := objAmount_pos cache; omega⟩
    have first : slabMem mem page (cacheSize c) (page + 16) = page + 24 + 0 * cacheSize c := by
      rw [slabMem_header _ ⟨by omega, by omega⟩, store_same]
      omega
    dsimp only
    rw [first, objects, amount, List.range_eq_range']
    apply chain_objects 0 n (by omega)
    · intro j inside
      rw [slabMem, amount, Nat.add_sub_cancel]
      exact linkObjects_at (cacheSize_pos c) n _ j inside
    · have last : page + 24 + n * cacheSize c ∈ objects page c :=
        List.mem_map.mpr ⟨n, by rw [amount]; exact List.mem_range.mpr (Nat.lt_succ_self n), rfl⟩
      rw [slabMem, amount, Nat.add_sub_cancel, linkObjects_other, store_other, store_other]
      · exact zeroPage_inside (object_inPage last)
      · omega
      · omega
      · intro j inside same
        have cancelled := Nat.eq_of_mul_eq_mul_right (cacheSize_pos c) (Nat.add_left_cancel same)
        omega
    · omega
  carved := by
    rw [List.append_nil]

end NewSlab

section Append

variable {pages : List Nat} {ready : Nat} {k : Kernel} {page : Nat} {free : List Nat}
  {slabs : List Slab} {others : Multiset Nat} {c : Nat}

theorem HeapInv.first (inv : HeapInv pages ready k (page :: free) slabs others)
    (usable : Usable pages) :
    k.head = page ∧ page ≠ 0 ∧ page < 2 ^ 64 ∧ Aligned page ∧ Chain k.mem 0 (k.mem page) free := by
  obtain ⟨head, nonzero, tail⟩ := inv.list
  have member : page ∈ pages := inv.mem_pages (Or.inl List.mem_cons_self)
  have below := usable.below page member
  exact ⟨head, nonzero, by omega, usable.aligned page member, tail⟩

theorem HeapInv.take_slab (inv : HeapInv pages ready k (page :: free) slabs others)
    (usable : Usable pages) (cache : c < 8) (t : Slab) (member : t ∈ slabs) :
    SamePage k.mem (slabMem k.mem page (cacheSize c)) t.page ∧ t.page ≠ page := by
  obtain ⟨-, -, apart, -⟩ := inv.disjoint usable
  have different : t.page ≠ page := fun same =>
    apart page List.mem_cons_self (same ▸ slabPage_mem member)
  refine ⟨?_, different⟩
  intro address inT
  apply slabMem_outside cache
  exact page_ne (usable.aligned _ (inv.mem_pages (Or.inr (Or.inl (slabPage_mem member)))))
    (usable.aligned page (inv.mem_pages (Or.inl List.mem_cons_self))) different inT

/-- Memory that a new slab and its link leave alone: any page but the new one and, in the
page of the last slab, all but the link. -/
theorem HeapInv.append (inv : HeapInv pages ready k (page :: free) slabs others)
    (usable : Usable pages) (inside : c < ready) (cache : c < 8) {front : List Slab} {last : Slab}
    (listed : ofCache c slabs = front ++ [last]) :
    HeapInv pages ready
      { k with mem := store (slabMem k.mem page (cacheSize c)) (last.page + 8) page,
               head := k.mem page }
      free (slabs ++ [⟨page, c, objects page c, []⟩]) others := by
  obtain ⟨freeNodup, nodup, apart, -⟩ := inv.disjoint usable
  obtain ⟨-, nonzero, word, alignedPage, tail⟩ := inv.first usable
  have lastIn : last ∈ slabs := by
    have : last ∈ ofCache c slabs := by rw [listed]; simp
    exact (List.mem_filter.mp this).1
  have alignedSlab : ∀ t ∈ slabs, Aligned t.page := fun t inT =>
    usable.aligned _ (inv.mem_pages (Or.inr (Or.inl (slabPage_mem inT))))
  have lastOther : last.page ≠ page := (inv.take_slab usable cache last lastIn).2
  have lastPage : InPage last.page (last.page + 8) := by unfold InPage; omega
  have newPage : SamePage (slabMem k.mem page (cacheSize c))
      (store (slabMem k.mem page (cacheSize c)) (last.page + 8) page) page :=
    samePage_store page (alignedSlab last lastIn) alignedPage lastOther lastPage
  refine ⟨?_, ?_, ?_, inv.count, ?_⟩
  · have total := inv.pages
    rw [← total, slabPages, slabPages, List.map_append, List.map_singleton,
      ← Multiset.coe_add, Multiset.coe_singleton, ← Multiset.cons_coe page free,
      ← Multiset.singleton_add page]
    abel
  · apply tail.frame
    intro x inFree
    have different : x ≠ page := fun same => (List.nodup_cons.mp freeNodup).1 (same ▸ inFree)
    have alignedX := usable.aligned x (inv.mem_pages (Or.inl (List.mem_cons_of_mem _ inFree)))
    have xPage : InPage x (x + 0) := by unfold InPage; omega
    have slabless : x ≠ last.page := fun same =>
      apart x (List.mem_cons_of_mem _ inFree) (same ▸ slabPage_mem lastIn)
    dsimp only
    rw [store_other]
    · exact slabMem_outside cache _ (page_ne alignedX alignedPage different xPage)
    · rintro same
      exact page_ne alignedX (alignedSlab last lastIn) slabless xPage (same ▸ lastPage)
  · intro t inT
    rcases List.mem_append.mp inT with old | new
    · obtain ⟨kept, -⟩ := inv.take_slab usable cache t old
      have ok := (inv.slab t old).frame kept
      by_cases same : t = last
      · subst same
        dsimp only
        refine ⟨ok.cache, ?_, ?_, ok.carved⟩
        · rw [store_other _ _ _ _ (by omega)]
          exact ok.size
        · rw [store_other _ _ _ _ (by omega)]
          apply ok.freelist.frame
          intro x inFree
          obtain ⟨lower, -, -⟩ := object_bounds (ok.free_mem inFree)
          exact store_other _ _ _ _ (by omega)
      · have different : last.page ≠ t.page := fun pages =>
          same (slab_unique nodup old lastIn pages.symm)
        exact ok.frame (samePage_store page (alignedSlab last lastIn) (alignedSlab t old)
          different lastPage)
    · rw [List.mem_singleton.mp new]
      exact (slabOk_new cache).frame newPage
  · intro d belowReady
    obtain ⟨first, cached, nonempty, chain⟩ := inv.caches d belowReady
    refine ⟨first, cached, ?_, ?_⟩
    · rw [ofCache, List.filter_append]
      exact List.append_ne_nil_of_left_ne_nil nonempty _
    · have moved : Chain (slabMem k.mem page (cacheSize c)) 8 first
          (slabPages (ofCache d slabs)) := by
        apply chain.frame
        intro q inQ
        obtain ⟨t, inT, rfl⟩ := List.mem_map.mp inQ
        have old := (List.mem_filter.mp inT).1
        exact (inv.take_slab usable cache t old).1 _ (by unfold InPage; omega)
      have sub : (slabPages (ofCache d slabs)).Nodup :=
        nodup.sublist ((List.filter_sublist).map Slab.page)
      by_cases here : d = c
      · subst here
        have grown : ofCache d (slabs ++ [⟨page, d, objects page d, []⟩]) =
            front ++ [last, ⟨page, d, objects page d, []⟩] := by
          rw [ofCache, List.filter_append, ← ofCache, listed]
          simp
        rw [listed, slabPages, List.map_append, List.map_singleton] at moved sub
        rw [grown, slabPages, List.map_append]
        exact moved.append sub nonzero slabMem_next lastOther.symm
      · have same : ofCache d (slabs ++ [⟨page, c, objects page c, []⟩]) = ofCache d slabs := by
          rw [ofCache, List.filter_append, ← ofCache]
          simp [Ne.symm here]
        rw [same]
        apply moved.frame
        intro q inQ
        obtain ⟨t, inT, rfl⟩ := List.mem_map.mp inQ
        obtain ⟨old, ofD⟩ := List.mem_filter.mp inT
        apply store_other
        intro clash
        have equal := slab_unique nodup old lastIn (Nat.add_right_cancel clash)
        have lastC : last ∈ ofCache c slabs := by rw [listed]; simp
        have cacheC := (List.mem_filter.mp lastC).2
        simp only [decide_eq_true_eq] at ofD cacheC
        rw [equal] at ofD
        exact here (ofD.symm.trans cacheC)

end Append

end Nyaux.Mm
