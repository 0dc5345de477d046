import Nyaux.Mm.HeapSafety
import Nyaux.Mm.LiveWords

/-! The bytes of the live blocks: where they are, that no two blocks share one, and which of them
each call of the allocator keeps. -/

namespace Nyaux.Mm

open Word Memory Paging

theorem live_addresses {pages : List Nat} {k : Kernel} {free : List Nat} {slabs : List Slab}
    {others : Multiset Nat} (inv : HeapInv pages 8 k free slabs others) (usable : Usable pages) :
    ((liveObjects slabs).map Prod.fst).Nodup := by
  rw [liveObjects_addresses, Multiset.coe_nodup]
  exact live_nodup inv usable

section Apart

variable {offset : Nat} {pages : List Nat} {leaf₀ : Nat → Nat} {first last : VmmRegion}
  {others : Multiset (Nat × Nat)} {extra : Multiset Nat} {h : KernelHeap}
  {mids : List VmmRegion} {free : List Nat} {slabs : List Slab}
  {tables : List (List Nat × Nat)} {b b' : Nat × Nat} {rest : List (Nat × Nat)} {address : Nat}

theorem RegionInv.targets_nodup {k : Kernel} {blocks : Multiset (Nat × Nat)}
    (inv : RegionInv offset pages leaf₀ first last k mids free slabs tables blocks extra)
    (usable : Usable pages) : (targets offset k (runs mids)).Nodup := by
  have all := usable.nodup
  rw [← Multiset.coe_nodup, ← inv.paging.heap.pages] at all
  exact Multiset.coe_nodup.mp
    (Multiset.nodup_add.mp (Multiset.nodup_add.mp (Multiset.nodup_add.mp all).2.1).2.1).1

theorem RegionInv.target_inj {k : Kernel} {blocks : Multiset (Nat × Nat)} {p q : Nat}
    (inv : RegionInv offset pages leaf₀ first last k mids free slabs tables blocks extra)
    (usable : Usable pages) (inP : p ∈ runs mids) (inQ : q ∈ runs mids)
    (left : InPage (pointee offset (k.leaf offset p)) address)
    (right : InPage (pointee offset (k.leaf offset q)) address) : p = q := by
  have alignedP := usable.aligned _ (inv.paging.data_mem (target_mem inP))
  have alignedQ := usable.aligned _ (inv.paging.data_mem (target_mem inQ))
  have same : pointee offset (k.leaf offset p) = pointee offset (k.leaf offset q) := by
    by_contra different
    exact page_ne alignedP alignedQ different left right
  exact List.inj_on_of_nodup_map (inv.targets_nodup usable) inP inQ same

theorem RegionInv.base_inj {k : Kernel} {blocks : Multiset (Nat × Nat)} {r s : VmmRegion}
    (inv : RegionInv offset pages leaf₀ first last k mids free slabs tables blocks extra)
    (inR : r ∈ mids) (inS : s ∈ mids) (same : r.base = s.base) : r = s :=
  List.inj_on_of_nodup_map
    (inv.layout.bases_nodup fun x inX => (inv.region x inX).nonempty) inR inS same

theorem KernelInv.large_word
    (inv : KernelInv offset pages leaf₀ first last others extra h mids free slabs tables)
    (member : b ∈ h.blocks) (large : 1024 ≤ b.2) (word : BlockWord offset h.kernel b address) :
    ∃ r ∈ mids, r.base = b.1 ∧ ∃ page ∈ run r,
      InPage (pointee offset (h.kernel.leaf offset page)) address := by
  obtain ⟨r, inMids, base, -, inRun⟩ := inv.block_run member large
  rw [BlockWord, if_neg (by omega)] at word
  obtain ⟨i, inside, inPage⟩ := word
  exact ⟨r, inMids, base, _, inRun i inside, inPage⟩

theorem KernelInv.small_word
    (inv : KernelInv offset pages leaf₀ first last others extra h mids free slabs tables)
    (member : b ∈ h.blocks) (small : b.2 < 1024) (word : BlockWord offset h.kernel b address) :
    ObjectWord slabs b.1 (cacheFor b.2) address := by
  rw [BlockWord, if_pos small] at word
  exact ⟨inv.small_object member small, word⟩

theorem KernelInv.large_not_slab
    (inv : KernelInv offset pages leaf₀ first last others extra h mids free slabs tables)
    (usable : Usable pages) (member : b ∈ h.blocks) (large : 1024 ≤ b.2)
    (word : BlockWord offset h.kernel b address) {s : Slab} (inSlabs : s ∈ slabs) :
    ¬ InPage s.page address := by
  intro inSlab
  obtain ⟨r, inMids, -, page, inRun, inPage⟩ := inv.large_word member large word
  have inRuns := List.mem_flatMap.mpr ⟨r, inMids, inRun⟩
  have inData := inv.region.paging.data_mem (target_mem inRuns)
  obtain ⟨-, notSlab, -⟩ := inv.region.paging.apart usable (target_mem inRuns)
  have different : s.page ≠ pointee offset (h.kernel.leaf offset page) := by
    intro same
    exact notSlab (same ▸ slabPage_mem inSlabs)
  exact page_ne (inv.region.paging.heap.aligned usable inSlabs)
    (usable.aligned _ inData) different inSlab inPage

theorem KernelInv.not_header
    (inv : KernelInv offset pages leaf₀ first last others extra h mids free slabs tables)
    (usable : Usable pages) (member : b ∈ h.blocks) (word : BlockWord offset h.kernel b address) :
    ∀ s ∈ slabs, address ≠ s.page + 16 := by
  intro s inSlabs
  by_cases small : b.2 < 1024
  · obtain ⟨t, inT, -, -, lower, upper⟩ :=
      (inv.small_word member small word).slab inv.region.paging.heap
    have alignedS := inv.region.paging.heap.aligned usable inSlabs
    have alignedT := inv.region.paging.heap.aligned usable inT
    unfold Aligned at alignedS alignedT
    omega
  · rintro rfl
    exact inv.large_not_slab usable member (by omega) word inSlabs ⟨by omega, by omega⟩

theorem KernelInv.small_ne
    (inv : KernelInv offset pages leaf₀ first last others extra h mids free slabs tables)
    (usable : Usable pages) (listed : h.blocks.Perm (b :: rest)) (other : b' ∈ rest)
    (small : b.2 < 1024) (small' : b'.2 < 1024) : b.1 ≠ b'.1 := by
  have distinct := live_addresses inv.region.paging.heap usable
  rw [inv.region.live, smallBlocks_perm listed, smallBlocks_cons, if_pos small, Multiset.add_cons,
    Multiset.add_cons, Multiset.map_cons, Multiset.nodup_cons] at distinct
  intro same
  apply distinct.1
  rw [same]
  apply Multiset.mem_map_of_mem Prod.fst (a := (b'.1, cacheFor b'.2))
  rw [Multiset.mem_add, Multiset.mem_add]
  exact Or.inr (Or.inr (mem_smallBlocks other small'))

theorem KernelInv.large_ne
    (inv : KernelInv offset pages leaf₀ first last others extra h mids free slabs tables)
    (listed : h.blocks.Perm (b :: rest)) (other : b' ∈ rest) (large : 1024 ≤ b.2)
    (large' : 1024 ≤ b'.2) : b.1 ≠ b'.1 := by
  have distinct : (h.held : Multiset Nat).Nodup := by
    apply Multiset.nodup_of_le inv.held
    exact Multiset.coe_nodup.mpr
      (inv.region.layout.bases_nodup fun x inX => (inv.region.region x inX).nonempty)
  have split := (held_perm h.kernel h.bases listed).trans
    (held_cons h.kernel rest h.bases b.1 b.2)
  rw [if_pos large] at split
  have nodup := split.nodup_iff.mp (Multiset.coe_nodup.mp distinct)
  intro same
  apply (List.nodup_cons.mp nodup).1
  rw [same]
  apply List.mem_append_right
  exact List.mem_map_of_mem (List.mem_filter.mpr ⟨other, by simpa using large'⟩)

theorem KernelInv.blocks_apart
    (inv : KernelInv offset pages leaf₀ first last others extra h mids free slabs tables)
    (boot : BootFacts offset pages leaf₀ first) (listed : h.blocks.Perm (b :: rest))
    (other : b' ∈ rest) (left : BlockWord offset h.kernel b address) :
    ¬ BlockWord offset h.kernel b' address := by
  intro right
  have usable := boot.direct.usable
  have member : b ∈ h.blocks := listed.symm.subset List.mem_cons_self
  have member' : b' ∈ h.blocks := listed.symm.subset (List.mem_cons_of_mem b other)
  by_cases small : b.2 < 1024
  · have object := inv.small_word member small left
    by_cases small' : b'.2 < 1024
    · exact object.apart inv.region.paging.heap usable
        (inv.small_ne usable listed other small small') (inv.small_word member' small' right)
    · obtain ⟨s, inSlabs, -, -, lower, upper⟩ := object.slab inv.region.paging.heap
      exact inv.large_not_slab usable member' (by omega) right inSlabs ⟨by omega, upper⟩
  · by_cases small' : b'.2 < 1024
    · obtain ⟨s, inSlabs, -, -, lower, upper⟩ :=
        (inv.small_word member' small' right).slab inv.region.paging.heap
      exact inv.large_not_slab usable member (by omega) left inSlabs ⟨by omega, upper⟩
    · obtain ⟨r, inMids, base, page, inRun, inPage⟩ := inv.large_word member (by omega) left
      obtain ⟨r', inMids', base', page', inRun', inPage'⟩ := inv.large_word member' (by omega) right
      obtain rfl : page = page' := inv.region.target_inj usable
        (List.mem_flatMap.mpr ⟨r, inMids, inRun⟩) (List.mem_flatMap.mpr ⟨r', inMids', inRun'⟩) inPage
        inPage'
      -- the page is of one region only
      obtain ⟨before, after, rfl⟩ := List.append_of_mem inMids
      have separate := runs_separate boot.ends inv.region.layout inv.region.region page inRun
      rcases List.mem_append.mp inMids' with left | right
      · exact separate (List.mem_flatMap.mpr ⟨r', List.mem_append_left _ left, inRun'⟩)
      rcases List.mem_cons.mp right with rfl | right
      · exact inv.large_ne listed other (by omega) (by omega) (base.symm.trans base')
      · exact separate (List.mem_flatMap.mpr ⟨r', List.mem_append_right _ right, inRun'⟩)

theorem KernelInv.place_inj {i j : Nat}
    (inv : KernelInv offset pages leaf₀ first last others extra h mids free slabs tables)
    (usable : Usable pages) (member : b ∈ h.blocks) (insideI : i < b.2) (insideJ : j < b.2)
    (same : blockPlace offset h.kernel b i = blockPlace offset h.kernel b j) : i = j := by
  unfold blockPlace at same
  by_cases small : b.2 < 1024
  · rw [if_pos small, if_pos small] at same
    omega
  · rw [if_neg small, if_neg small] at same
    obtain ⟨r, inMids, base, fits, inRun⟩ := inv.block_run member (by omega)
    have ok := inv.region.region r inMids
    have aligned := ok.base
    have short := ok.short
    have inI := List.mem_flatMap.mpr ⟨r, inMids, inRun i insideI⟩
    have inJ := List.mem_flatMap.mpr ⟨r, inMids, inRun j insideJ⟩
    have alignedI := usable.aligned _ (inv.region.paging.data_mem (target_mem inI))
    have alignedJ := usable.aligned _ (inv.region.paging.data_mem (target_mem inJ))
    have pages : pageIndex (add64 b.1 i) = pageIndex (add64 b.1 j) := by
      have own : InPage (pointee offset (h.kernel.leaf offset (pageIndex (add64 b.1 i))))
          (pointee offset (h.kernel.leaf offset (pageIndex (add64 b.1 i)))) :=
        ⟨le_refl _, by omega⟩
      apply inv.region.target_inj usable inI inJ own
      · unfold Aligned at alignedI alignedJ
        unfold InPage
        omega
    rw [pages] at same
    rw [← base] at same pages
    unfold pageIndex add64 at pages
    unfold add64 at same
    omega

end Apart

section Kept

variable {offset : Nat} {pages : List Nat} {leaf₀ : Nat → Nat} {first last : VmmRegion}
  {others : Multiset (Nat × Nat)} {extra : Multiset Nat} {h h' : KernelHeap} {k' : Kernel}
  {mids mids' : List VmmRegion} {free free' : List Nat} {slabs slabs' : List Slab}
  {tables tables' : List (List Nat × Nat)} {b : Nat × Nat} {addr size address : Nat}

theorem KernelInv.kmalloc_words
    (inv : KernelInv offset pages leaf₀ first last others extra h mids free slabs tables)
    (boot : BootFacts offset pages leaf₀ first) (short : size < 2 ^ 31)
    (ran : kmalloc offset size h.kernel = .ok (addr, k')) (member : b ∈ h.blocks)
    (word : BlockWord offset h.kernel b address) : k'.mem address = h.kernel.mem address := by
  have usable := boot.direct.usable
  by_cases small : b.2 < 1024
  · have object := inv.small_word member small word
    unfold kmalloc at ran
    by_cases slab : size < 1024
    · rw [if_pos slab] at ran
      exact kmallocSlab_objects inv.region.paging.heap usable slab ran object
    rw [if_neg slab, vmmRegionAlloc] at ran
    split at ran
    · cases ran
    split at ran
    · cases ran
    obtain ⟨⟨node, k₁⟩, got, ran⟩ := of_bind_ok ran
    obtain ⟨k₂, loop, returned⟩ := of_bind_ok ran
    obtain ⟨-, rfl⟩ := Prod.mk.inj (Except.ok.inj returned)
    rcases allocNode_spec inv.region.paging usable with
      ⟨-, stopped⟩ | ⟨node', k₁', free₁, slabs₁, ran₁, inv₁, live₁, -⟩
    · rw [stopped] at got
      cases got
    obtain ⟨rfl, rfl⟩ := Prod.mk.inj (Except.ok.inj (ran₁.symm.trans got))
    have first : k₁'.mem address = h.kernel.mem address := by
      obtain ⟨⟨x, k₃⟩, served, rest⟩ := of_bind_ok got
      dsimp only at rest
      split at rest
      · cases rest
      · obtain ⟨-, rfl⟩ := Prod.mk.inj (Except.ok.inj rest)
        exact kmallocSlab_objects inv.region.paging.heap usable (by decide) served object
    -- the object is in a slab still
    obtain ⟨s, inSlabs, -, -, lower, upper⟩ : ∃ s ∈ slabs₁, b.1 ∈ s.live ∧ s.cache = cacheFor b.2 ∧
        s.page + 24 ≤ address ∧ address < s.page + 4096 := by
      apply ObjectWord.slab _ inv₁.heap
      refine ⟨?_, object.2⟩
      rw [live₁]
      exact Multiset.mem_cons_of_mem object.1
    obtain ⟨-, -, -, -, count, -⟩ := alignUp_region
      (show alignUp size 4096 ≤ 2 ^ 31 by rw [alignUp_page_of_le (by omega)]; omega)
      (by rw [alignUp_page_of_le (by omega)]; omega)
    rw [← first]
    apply allocPages_slabs (inv₁.setRegions _) boot.direct presentRw_bits _ loop
      (slabPage_mem inSlabs)
    · exact ⟨by omega, upper⟩
    · rw [count, alignUp_page_of_le (by rw [alignUp_page_of_le (by omega)]; omega),
        alignUp_page_of_le (by omega)]
      omega
  · obtain ⟨r, inMids, -, page, inRun, inPage⟩ := inv.large_word member (by omega) word
    have ready : HeapReady offset pages (fun _ _ => True)
        ((targets offset h.kernel (runs mids) : Multiset Nat) + extra) h.kernel := by
      refine ⟨free, slabs, tables, 0, ?_, trivial⟩
      rw [zero_add]
      exact inv.region.paging
    have stable : ∀ c, Stable (fun _ _ => True) c :=
      fun c => ⟨fun _ _ _ _ _ _ => trivial, fun _ _ _ _ _ _ _ => trivial⟩
    have step := ready.kmalloc boot.direct (stable _) (fun _ => stable _) ran
    exact step.same _ (target_mem (List.mem_flatMap.mpr ⟨r, inMids, inRun⟩)) address inPage

theorem KernelInv.kfree_words
    (inv : KernelInv offset pages leaf₀ first last others extra h mids free slabs tables)
    (boot : BootFacts offset pages leaf₀ first) (freed : (addr, size) ∈ h.blocks)
    (ran : kfree offset addr size h.kernel = .ok k') (kept : b ∈ h.blocks.erase (addr, size))
    (word : BlockWord offset h.kernel b address) : k'.mem address = h.kernel.mem address := by
  have usable := boot.direct.usable
  have heap := inv.region.paging.heap
  have member : b ∈ h.blocks := List.mem_of_mem_erase kept
  have listed := List.perm_cons_erase freed
  have header := inv.not_header usable member word
  unfold kfree at ran
  by_cases null : addr = 0
  · rw [if_neg (not_not.mpr null)] at ran
    rw [← Except.ok.inj ran]
  rw [if_pos null] at ran
  by_cases small : size < 1024
  · rw [if_pos small] at ran
    apply free_objects heap usable (inv.small_object freed small) ran _ header
    rintro ⟨-, inside⟩
    apply inv.blocks_apart boot listed kept _ word
    rw [BlockWord, if_pos small]
    exact inside
  rw [if_neg small] at ran
  obtain ⟨r, inMids, base, -⟩ := inv.large (addr, size) freed (by dsimp only; omega)
  dsimp only at base
  obtain ⟨before, after, rfl⟩ := List.append_of_mem inMids
  rw [← base, vmmRegionDealloc_eq inv.region boot.ends] at ran
  have okR := inv.region.region r inMids
  have short := okR.short
  have paging := inv.region.paging.setRegions (first :: (before ++ (after ++ [last])))
  rw [targets_middle, add_assoc] at paging
  have mapped : ∀ page ∈ run r, DataEntry offset (h.kernel.leaf offset page) :=
    fun page inRun => inv.region.mapped page (mem_runs_middle.mpr (Or.inl inRun))
  obtain ⟨inv₁, -, -, -, others₁⟩ := freePages_spec boot.direct
    (show r.length / 4096 ≤ 2 ^ 19 by omega) paging mapped
  have node : (r.addr, cacheFor 32) ∈ liveObjects slabs := by
    rw [inv.region.live, nodes_middle, Multiset.cons_add]
    exact Multiset.mem_cons_self _ _
  by_cases smallB : b.2 < 1024
  · have object := inv.small_word member smallB word
    obtain ⟨s, inSlabs, -, -, lower, upper⟩ := object.slab heap
    have loop := freePages_slabs paging boot.direct (show r.length / 4096 ≤ 2 ^ 19 by omega) mapped
      (slabPage_mem inSlabs) address ⟨by omega, upper⟩
    rw [← show _ = h.kernel.mem address from loop]
    apply free_objects inv₁.heap usable node ran _ header
    intro inNode
    have distinct := live_addresses heap usable
    rw [inv.region.live, nodes_middle, Multiset.cons_add, Multiset.map_cons,
      Multiset.nodup_cons] at distinct
    refine inNode.apart heap usable ?_ object
    intro same
    apply distinct.1
    rw [same]
    apply Multiset.mem_map_of_mem Prod.fst (a := (b.1, cacheFor b.2))
    rw [Multiset.mem_add, Multiset.mem_add]
    exact Or.inr (Or.inr (mem_smallBlocks member smallB))
  · obtain ⟨s, inS, baseS, page, inRun, inPage⟩ := inv.large_word member (by omega) word
    have apart : b.1 ≠ r.base := by
      rw [base]
      exact (inv.large_ne listed kept (by dsimp only; omega) (by omega)).symm
    have outside : page ∈ runs (before ++ after) := by
      apply List.mem_flatMap.mpr ⟨s, _, inRun⟩
      rcases List.mem_append.mp inS with left | right
      · exact List.mem_append_left _ left
      rcases List.mem_cons.mp right with rfl | right
      · exact absurd baseS.symm apart
      · exact List.mem_append_right _ right
    have loop := others₁ _ (target_mem outside) address inPage
    rw [← show _ = h.kernel.mem address from loop]
    apply free_objects inv₁.heap usable node ran _ header
    intro inNode
    obtain ⟨t, inT, -, -, lower, upper⟩ := inNode.slab heap
    exact inv.large_not_slab usable member (by omega) word inT ⟨by omega, upper⟩

theorem KernelInv.bytes_kept {touched : List Nat}
    (inv : KernelInv offset pages leaf₀ first last others extra h mids free slabs tables)
    (inv' : KernelInv offset pages leaf₀ first last others extra h' mids' free' slabs' tables')
    (boot : BootFacts offset pages leaf₀ first)
    (moved : Moved offset extra free touched mids mids' h.kernel h'.kernel) (member : b ∈ h.blocks)
    (member' : b ∈ h'.blocks)
    (words : ∀ address, BlockWord offset h.kernel b address →
      h'.kernel.mem address = h.kernel.mem address) {i : Nat} (inside : i < b.2) :
    blockPlace offset h'.kernel b i = blockPlace offset h.kernel b i ∧
      userByte offset h'.kernel.pml4 h'.kernel.mem (add64 b.1 i) =
        userByte offset h.kernel.pml4 h.kernel.mem (add64 b.1 i) := by
  have place : blockPlace offset h'.kernel b i = blockPlace offset h.kernel b i := by
    unfold blockPlace
    by_cases small : b.2 < 1024
    · rw [if_pos small, if_pos small]
    · have page := inv.block_page member (by omega) inside
      have page' := inv'.block_page member' (by omega) inside
      rw [if_neg small, if_neg small, moved.kept _ page page']
  obtain ⟨lands, word⟩ := inv.translate_place boot member inside
  obtain ⟨lands', -⟩ := inv'.translate_place boot member' inside
  refine ⟨place, ?_⟩
  rw [userByte, userByte, lands, lands', place, Option.map_some, Option.map_some, loadByte, loadByte,
    words _ word]

end Kept

end Nyaux.Mm
