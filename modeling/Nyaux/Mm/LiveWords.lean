import Nyaux.Mm.HeapCalls
import Nyaux.Mm.UserHalf

/-! What the calls of the allocator write: the words of the live blocks, but for those of the block
that is freed, are not among it. -/

namespace Nyaux.Mm

open Word Memory Paging

section Slabs

variable {pages : List Nat} {k k' : Kernel} {free : List Nat} {slabs : List Slab}
  {others : Multiset Nat} {offset : Nat}

theorem HeapInv.aligned {ready : Nat} (inv : HeapInv pages ready k free slabs others)
    (usable : Usable pages) {s : Slab} (member : s ∈ slabs) : Aligned s.page :=
  usable.aligned _ (inv.mem_pages (Or.inr (Or.inl (slabPage_mem member))))

/-- Behind the headers, `slab_alloc` writes in new slabs only. -/
theorem slabAlloc_objects {ready c : Nat} (inv : HeapInv pages ready k free slabs others)
    (usable : Usable pages) (inside : c < ready) (small : c < 8) {cache : Cache}
    (cached : k.kmallocCache[c]? = some cache) {x : Nat}
    (ran : slabAlloc offset cache k = .ok (x, k')) {s : Slab} (member : s ∈ slabs) {address : Nat}
    (lower : s.page + 24 ≤ address) (upper : address < s.page + 4096) :
    k'.mem address = k.mem address := by
  obtain ⟨first, entry, nonempty, chain⟩ := inv.caches c inside
  obtain rfl : ⟨first, cacheSize c⟩ = cache := Option.some.inj (entry.symm.trans cached)
  have aligned := inv.aligned usable member
  have header : ∀ t ∈ slabs, ∀ i < 24, address ≠ t.page + i := by
    intro t inT i bound
    have alignedT := inv.aligned usable inT
    unfold Aligned at aligned alignedT
    omega
  have ofC : ∀ t ∈ ofCache c slabs, t ∈ slabs := fun t inT => (List.mem_filter.mp inT).1
  rcases findSlab_eq _ first slabFuel nonempty chain (fun t inT => inv.slab t (ofC t inT))
    (inv.slabs_lt usable c).le with ⟨t, inT, -, found⟩ | ⟨front, last, split, -, found⟩
  · rw [slabAlloc, found, ok_bind] at ran
    obtain ⟨-, rfl⟩ := Prod.mk.inj (Except.ok.inj ran)
    exact store_other _ _ _ _ (header t (ofC t inT) 16 (by decide))
  · have lastIn : last ∈ slabs := ofC last (by rw [split]; simp)
    have lastNonzero : last.page ≠ 0 :=
      usable.nonzero _ (inv.mem_pages (Or.inr (Or.inl (slabPage_mem lastIn))))
    rw [slabAlloc, found, ok_bind] at ran
    cases free with
    | nil =>
        have null : k.head = 0 := inv.list
        simp [makeSlab, pmmAllocSinglep, null, bind, Except.bind] at ran
    | cons page free =>
        obtain ⟨listed, nonzero, word, alignedPage, -⟩ := inv.first usable
        obtain ⟨same, different⟩ := inv.take_slab usable small s member
        simp only [Bool.false_eq_true, if_false, makeSlab_eq listed nonzero word, ok_bind,
          if_neg lastNonzero] at ran
        split at ran
        · cases ran
        · obtain ⟨-, rfl⟩ := Prod.mk.inj (Except.ok.inj ran)
          have newHeader : address ≠ page + 16 := by
            unfold Aligned at aligned alignedPage
            omega
          dsimp only
          rw [store_other _ _ _ _ newHeader, store_other _ _ _ _ (header last lastIn 8 (by decide))]
          exact same address ⟨by omega, upper⟩

def ObjectWord (slabs : List Slab) (x c address : Nat) : Prop :=
  (x, c) ∈ liveObjects slabs ∧ x ≤ address ∧ address < x + cacheSize c

theorem ObjectWord.slab {x c address : Nat} (word : ObjectWord slabs x c address)
    {ready : Nat} (inv : HeapInv pages ready k free slabs others) :
    ∃ s ∈ slabs, x ∈ s.live ∧ s.cache = c ∧ s.page + 24 ≤ address ∧ address < s.page + 4096 := by
  obtain ⟨live, lower, upper⟩ := word
  obtain ⟨s, member, inLive, rfl⟩ := mem_liveObjects.mp live
  obtain ⟨above, below, -⟩ := object_bounds ((inv.slab s member).live_mem inLive)
  exact ⟨s, member, inLive, rfl, by omega, by omega⟩

theorem ObjectWord.apart {ready x c y d address : Nat}
    (inv : HeapInv pages ready k free slabs others) (usable : Usable pages) (different : x ≠ y)
    (left : ObjectWord slabs x c address) (right : ObjectWord slabs y d address) : False := by
  obtain ⟨s, inS, liveX, rfl, lowerS, upperS⟩ := left.slab inv
  obtain ⟨t, inT, liveY, rfl, lowerT, upperT⟩ := right.slab inv
  have alignedS := inv.aligned usable inS
  have alignedT := inv.aligned usable inT
  have page : s.page = t.page := by
    unfold Aligned at alignedS alignedT
    omega
  obtain ⟨-, nodup, -, -⟩ := inv.disjoint usable
  obtain rfl := slab_unique nodup inS inT page
  have ok := inv.slab s inS
  have apart := object_apart (ok.live_mem liveX) (ok.live_mem liveY) different
  obtain ⟨-, lowerX, upperX⟩ := left
  obtain ⟨-, lowerY, upperY⟩ := right
  omega

theorem kmallocSlab_objects (inv : HeapInv pages 8 k free slabs others) (usable : Usable pages)
    {size x : Nat} (small : size < 1024) (ran : kmallocSlab offset size k = .ok (x, k'))
    {y d address : Nat} (word : ObjectWord slabs y d address) :
    k'.mem address = k.mem address := by
  obtain ⟨-, bound, -⟩ := cacheFor_spec size small
  obtain ⟨first, cached, -⟩ := inv.caches _ bound
  rw [kmallocSlab, searchForBigenoughcache_eq inv small] at ran
  dsimp only at ran
  rw [cached] at ran
  obtain ⟨s, member, -, -, lower, upper⟩ := word.slab inv
  exact slabAlloc_objects inv usable bound bound cached ran member lower upper

theorem free_objects (inv : HeapInv pages 8 k free slabs others) (usable : Usable pages) {x c : Nat}
    (live : (x, c) ∈ liveObjects slabs) (ran : Mm.free x k = .ok k') {address : Nat}
    (other : ¬ ObjectWord slabs x c address) (header : ∀ s ∈ slabs, address ≠ s.page + 16) :
    k'.mem address = k.mem address := by
  obtain ⟨s, member, inLive, -⟩ := mem_liveObjects.mp live
  obtain ⟨ran', -⟩ := free_eq inv usable member inLive
  obtain rfl := Except.ok.inj (ran'.symm.trans ran)
  have positive := cacheSize_pos c
  have away : address ≠ x := by
    rintro rfl
    exact other ⟨live, le_refl _, by omega⟩
  dsimp only [freedMem]
  rw [store_other _ _ _ _ (header s member), store_other _ _ _ _ away]

end Slabs

section Pages

variable {offset : Nat} {pages : List Nat} {k k' : Kernel} {free : List Nat} {slabs : List Slab}
  {tables : List (List Nat × Nat)} {data : Multiset Nat} {flags base n : Nat}

/-- The page loop of `vmm_region_alloc` leaves the slabs alone. -/
theorem allocPages_slabs (inv : KernelPaging offset pages k free slabs tables data)
    (direct : Direct offset pages) (bits : FlagBits flags) (short : n ≤ 2 ^ 19)
    (ran : allocPages offset base flags n k = .ok k') {q : Nat} (member : q ∈ slabPages slabs) :
    SamePage k.mem k'.mem q := by
  induction n generalizing k' with
  | zero =>
      obtain rfl := Except.ok.inj ran
      exact SamePage.refl k.mem q
  | succ n ih =>
      rw [allocPages_succ] at ran
      obtain ⟨k₁, loop, last⟩ := of_bind_ok ran
      have turns : (free.length < 4 * n ∧ allocPages offset base flags n k = .error .outOfMemory) ∨
          _ := allocPages_spec inv direct bits (show n ≤ 2 ^ 19 by omega)
      rcases turns with
        ⟨-, stopped⟩ | ⟨k₂, free₁, tables₁, ran₁, inv₁, -⟩
      · rw [stopped] at loop
        cases loop
      obtain rfl := Except.ok.inj (ran₁.symm.trans loop)
      obtain ⟨-, -, apart, elsewhere⟩ := inv₁.heap.disjoint direct.usable
      have inPages := inv₁.heap.mem_pages (Or.inr (Or.inl member))
      apply (ih (by omega) loop).trans
      apply (PagingInv.tableTree inv₁ direct).mapFreshPage_frame bits (under_all _) last
        (direct.usable.aligned q inPages)
      · exact fun inFree => apart q inFree member
      · exact fun inTables => (elsewhere q (Multiset.mem_add.mpr (Or.inl inTables))).2 member

/-- So does that of `vmm_region_dealloc`. -/
theorem freePages_slabs (inv : KernelPaging offset pages k free slabs tables
      ((targets offset k (pageLoop base n) : Multiset Nat) + data))
    (direct : Direct offset pages) (short : n ≤ 2 ^ 19)
    (mapped : ∀ page ∈ pageLoop base n, DataEntry offset (k.leaf offset page)) {q : Nat}
    (member : q ∈ slabPages slabs) : SamePage k.mem (freePages offset base n k).mem q := by
  induction n generalizing data with
  | zero => exact SamePage.refl k.mem q
  | succ n ih =>
      rw [pageLoop_succ] at inv mapped
      have fresh : pageIndex (pageAddr base n) ∉ pageLoop base n := pageLoop_fresh (by omega)
      have dataEntry := mapped (pageIndex (pageAddr base n)) (by simp)
      have split : ((targets offset k (pageLoop base n ++ [pageIndex (pageAddr base n)]) :
          List Nat) : Multiset Nat) + data = (targets offset k (pageLoop base n) : Multiset Nat) +
            pointee offset (k.leaf offset (pageIndex (pageAddr base n))) ::ₘ data := by
        rw [targets_append, ← Multiset.coe_add, add_assoc]
        rfl
      rw [split] at inv
      have earlier := fun page inLoop => mapped page (List.mem_append_left _ inLoop)
      obtain ⟨inv₁, leaf₁, -⟩ := freePages_spec direct (show n ≤ 2 ^ 19 by omega) inv earlier
      have entry : (freePages offset base n k).leaf offset (pageIndex (pageAddr base n)) =
          k.leaf offset (pageIndex (pageAddr base n)) := by
        rw [leaf₁ _ (pageIndex_lt _), if_neg fresh]
      obtain ⟨mem', ran, -, -, kept⟩ :=
        (PagingInv.tableTree inv₁ direct).unmap_spec (pageAddr base n) (under_all _)
      have inData := Multiset.mem_cons_self
        (pointee offset (k.leaf offset (pageIndex (pageAddr base n)))) data
      obtain ⟨-, notSlab, -⟩ := inv₁.apart direct.usable inData
      obtain ⟨-, -, -, elsewhere⟩ := inv₁.heap.disjoint direct.usable
      have aligned := direct.usable.aligned q (inv₁.heap.mem_pages (Or.inr (Or.inl member)))
      have given : add64 (getPhysFromEntry ((freePages offset base n k).leaf offset
          (pageIndex (pageAddr base n)))) offset =
            pointee offset (k.leaf offset (pageIndex (pageAddr base n))) := by
        rw [entry]
        exact dataEntry.phys
      have step : (freePages offset base (n + 1) k).mem =
          store mem' (pointee offset (k.leaf offset (pageIndex (pageAddr base n))))
            (freePages offset base n k).head := by
        have same : add64 (freePages offset base n k).pml4 offset =
            (freePages offset base n k).root offset := rfl
        rw [freePages]
        dsimp only
        rw [same, ran, ← given]
        rfl
      rw [step]
      apply (ih inv (by omega) earlier).trans
      apply SamePage.trans (kept q aligned
        fun inTables => (elsewhere q (Multiset.mem_add.mpr (Or.inl inTables))).2 member)
      apply samePage_store _ (direct.usable.aligned _ (inv₁.data_mem inData)) aligned
      · rintro rfl
        exact notSlab member
      · exact ⟨le_refl _, by omega⟩

end Pages

end Nyaux.Mm
