import Nyaux.Mm.RegionInv

/-! `vmm_region_alloc` and `vmm_region_dealloc` keep the list, the page tables and the pages
in step. -/

namespace Nyaux.Mm

open Word Memory Paging

variable {offset : Nat} {pages : List Nat} {leaf₀ : Nat → Nat} {first last : VmmRegion}
  {k : Kernel} {mids : List VmmRegion} {free : List Nat} {slabs : List Slab}
  {tables : List (List Nat × Nat)} {blocks : Multiset (Nat × Nat)} {extra : Multiset Nat}
  {flags size : Nat}

theorem alignUp_region (short : size ≤ 2 ^ 31) (positive : 1 ≤ size) :
    4096 ∣ alignUp size 4096 ∧ 0 < alignUp size 4096 ∧ alignUp size 4096 ≤ 2 ^ 31 ∧
      size ≤ alignUp size 4096 ∧ (numOfPages size).toNat = alignUp size 4096 / 4096 ∧
      add64 (alignUp size 4096) 0x1000 = alignUp size 4096 + 0x1000 := by
  have rounded : alignUp size 4096 = (size + 4095) / 4096 * 4096 :=
    alignUp_page_of_le (by omega)
  have count : numOfPages size = ((alignUp size 4096 / 4096 : Nat) : Int) :=
    toInt32_of_lt (by omega)
  refine ⟨by omega, by omega, by omega, by omega, ?_, add64_of_lt (by omega)⟩
  rw [count, Int.toNat_natCast]

def nextRegion (node size : Nat) (regions : List VmmRegion) : Option VmmRegion :=
  (findGap size regions).bind fun gap => gap.1.getLast?.map (newRegion node size)

theorem nextRegion_eq {size : Nat} {regions front back : List VmmRegion} {prev : VmmRegion}
    (gap : findGap size regions = some (front, back)) (final : front.getLast? = some prev)
    (node : Nat) : nextRegion node size regions = some (newRegion node size prev) := by
  rw [nextRegion, gap, Option.bind_some, final]
  rfl

theorem stop_aligned (ends : Ends offset leaf₀ first) (before : List VmmRegion)
    (ok : ∀ r ∈ before, RegionOk offset leaf₀ first r) :
    4096 ∣ ((first :: before).getLast (List.cons_ne_nil _ _)).stop := by
  cases before using List.reverseRecOn with
  | nil => exact ends.aligned
  | append_singleton before r =>
      have okR := ok r (by simp)
      have base := okR.base
      have whole := okR.pages
      have shown : (first :: (before ++ [r])).getLast (List.cons_ne_nil _ _) = r := by simp
      rw [shown]
      unfold VmmRegion.stop add64
      omega

theorem endPos_le_wall (before : List VmmRegion)
    (ok : ∀ r ∈ before, RegionOk offset leaf₀ first r) :
    endPos first.stop before ≤ wall offset first := by
  cases before using List.reverseRecOn with
  | nil => exact Nat.zero_le _
  | append_singleton before r =>
      have window := (ok r (by simp)).window
      simpa [endPos] using window

theorem RegionInv.add {r : VmmRegion} {before after : List VmmRegion} {k' : Kernel}
    {free' : List Nat} {slabs' : List Slab} {tables' : List (List Nat × Nat)}
    (inv : RegionInv offset pages leaf₀ first last k (before ++ after) free slabs tables blocks
      extra)
    (ends : Ends offset leaf₀ first)
    (layout : Layout first.stop first (before ++ r :: after) last)
    (okR : RegionOk offset leaf₀ first r)
    (paging : KernelPaging offset pages k' free' slabs' tables'
      ((targets offset k' (run r) : Multiset Nat) +
        ((targets offset k (runs (before ++ after)) : Multiset Nat) + extra)))
    (live : liveObjects slabs' = (r.addr, cacheFor 32) ::ₘ liveObjects slabs)
    (list : k'.regions = first :: ((before ++ r :: after) ++ [last]))
    (mapped : ∀ page ∈ run r, DataEntry offset (k'.leaf offset page))
    (others : ∀ page < 2 ^ 36, page ∉ run r → k'.leaf offset page = k.leaf offset page) :
    (∀ page ∈ run r, page ∉ runs (before ++ after)) ∧
      RegionInv offset pages leaf₀ first last k' (before ++ r :: after) free' slabs' tables'
        blocks extra := by
  have region : ∀ x ∈ before ++ r :: after, RegionOk offset leaf₀ first x := by
    intro x member
    rw [List.mem_append, List.mem_cons] at member
    rcases member with left | rfl | right
    · exact inv.region x (List.mem_append_left _ left)
    · exact okR
    · exact inv.region x (List.mem_append_right _ right)
  have separate := runs_separate ends layout region
  have kept : ∀ page ∈ runs (before ++ after), k'.leaf offset page = k.leaf offset page :=
    fun page member =>
      others page (runs_lt member) fun inRun => separate page inRun member
  refine ⟨separate, ?_, ?_, list, layout, region, ?_, ?_⟩
  · rw [targets_middle, targets_congr kept, add_assoc]
    exact paging
  · rw [live, inv.live, nodes_middle, Multiset.cons_add]
  · intro page member
    rcases mem_runs_middle.mp member with new | old
    · exact mapped page new
    · rw [kept page old]
      exact inv.mapped page old
  · intro page bound outside
    rw [mem_runs_middle, not_or] at outside
    rw [others page bound outside.1]
    exact inv.rest page bound outside.2

theorem vmmRegionAlloc_eq {front back : List VmmRegion} {prev : VmmRegion} {node : Nat}
    {k₁ : Kernel} (found : findGap size k.regions = some (front, back))
    (final : front.getLast? = some prev) (ran : allocNode offset k = .ok (node, k₁)) :
    vmmRegionAlloc offset size flags k = (do
      let k ← allocPages offset (newRegion node size prev).base flags (numOfPages size).toNat
        { k₁ with regions := front ++ newRegion node size prev :: back }
      .ok ((newRegion node size prev).base, k)) := by
  unfold vmmRegionAlloc
  rw [found]
  dsimp only
  rw [final]
  dsimp only
  rw [ran, ok_bind]

/-- First fit with its pages. A region that overlaps nothing `vmm_init` mapped joins the list,
and its pages come from the free list. -/
theorem vmmRegionAlloc_spec
    (inv : RegionInv offset pages leaf₀ first last k mids free slabs tables blocks extra)
    (direct : Direct offset pages) (ends : Ends offset leaf₀ first) (bits : FlagBits flags)
    (positive : 1 ≤ size) (short : size ≤ 2 ^ 31) :
    (free.length < 4 * (alignUp size 4096 / 4096) + 1 ∧
        vmmRegionAlloc offset size flags k = .error .outOfMemory) ∨
      (findGap size k.regions = none ∧
        vmmRegionAlloc offset size flags k = .error .noFreeRegions) ∨
      ∃ r k' before after free' slabs' tables',
        vmmRegionAlloc offset size flags k = .ok (r.base, k') ∧
        nextRegion r.addr size k.regions = some r ∧ mids = before ++ after ∧
        k'.regions = first :: ((before ++ r :: after) ++ [last]) ∧
        4096 ∣ r.base ∧ r.length = alignUp size 4096 ∧ Layout first.stop first (before ++ r :: after) last ∧
        (∀ page < 2 ^ 36, page ∉ run r → k'.leaf offset page = k.leaf offset page) ∧
        (∀ page ∈ run r, pointee offset (k'.leaf offset page) ∈ free) ∧
        Extended offset (k.root offset) (run r) k.mem k'.mem ∧ k'.pml4 = k.pml4 ∧
        SameOthers k k' extra ∧
        (Clear leaf₀ r → (∀ page ∈ run r, page ∉ runs mids) ∧
          RegionInv offset pages leaf₀ first last k' (before ++ r :: after) free' slabs' tables'
            blocks extra) := by
  obtain ⟨whole, nonempty, small, -, count, plain⟩ := alignUp_region short positive
  cases found : findGap size k.regions with
  | none =>
      refine Or.inr (Or.inl ⟨rfl, ?_⟩)
      rw [vmmRegionAlloc, found]
  | some parts =>
      obtain ⟨front, back⟩ := parts
      rw [inv.list] at found
      obtain ⟨before, cur, tail, split, rfl, rfl, fit⟩ := findPair_split found
      rw [← inv.list] at found
      have final := List.getLast?_eq_some_getLast (List.cons_ne_nil first before)
      rcases allocNode_spec inv.paging direct.usable with
        ⟨rfl, stopped⟩ |
        ⟨node, k₁, free₁, slabs₁, ran₁, inv₁, live₁, entries₁, vars₁, taken₁, others₁, -⟩
      · refine Or.inl ⟨Nat.succ_pos _, ?_⟩
        rw [vmmRegionAlloc, found]
        dsimp only
        rw [final]
        dsimp only
        rw [stopped, error_bind]
      · generalize new : newRegion node size
          ((first :: before).getLast (List.cons_ne_nil _ _)) = r
        obtain ⟨after, shape, rfl, layout, start, -⟩ :=
          inv.layout.first_fit before tail cur node size split fit plain r new.symm
        have okBefore : ∀ x ∈ before, RegionOk offset leaf₀ first x :=
          fun x member => inv.region x (List.mem_append_left _ member)
        have base : 4096 ∣ r.base := by
          rw [← new]
          exact stop_aligned ends before okBefore
        have length : r.length = alignUp size 4096 := by rw [← new]; rfl
        have addr : node = r.addr := by rw [← new]; rfl
        rw [addr] at live₁
        have list : first :: before ++ r :: cur :: tail =
            first :: ((before ++ r :: after) ++ [last]) := by
          rw [shape]
          simp
        have inv₂ := inv₁.setRegions (first :: before ++ r :: cur :: tail)
        have runLength : (numOfPages size).toNat = r.length / 4096 := by rw [count, length]
        rcases allocPages_spec inv₂ direct bits (show r.length / 4096 ≤ 2 ^ 19 by omega) with
          ⟨few, stopped⟩ |
          ⟨k', free', tables', ran, inv', mapped, others, grown, vars', -, kept⟩
        · have few₁ := taken₁.few
          rw [length] at few
          refine Or.inl ⟨by omega, ?_⟩
          rw [vmmRegionAlloc_eq found final ran₁, new, runLength, stopped, error_bind]
        · have leaf₁ := entries₁.kernel_leaf vars₁
          refine Or.inr (Or.inr ⟨r, k', before, after, free', slabs₁, tables', ?_, ?_, rfl, ?_, base,
            length, layout, ?_, ?_, ?_, vars'.pml4.trans vars₁.pml4, ?_, ?_⟩)
          · rw [vmmRegionAlloc_eq found final ran₁, new, runLength, ran, ok_bind]
          · rw [nextRegion_eq found final, ← addr, new]
          · rw [vars'.regions, ← list]
          · intro page bound outside
            exact (others page bound outside).trans (leaf₁ page)
          · intro page member
            exact taken₁.suffix.subset (mapped page member).2
          · have first := entries₁.extended []
            have second : Extended offset (k₁.root offset) (run r) k₁.mem k'.mem := grown
            rw [vars₁.root] at second
            exact first.trans second
          · intro q member
            have inData : q ∈ (targets offset k (runs (before ++ after)) : Multiset Nat) + extra :=
              Multiset.mem_add.mpr (Or.inr member)
            exact (others₁ q inData).trans (kept q inData)
          · intro clear
            have word := layout.words r (by simp)
            have okR : RegionOk offset leaf₀ first r := by
              refine ⟨base, by rw [length]; exact whole, by omega, by omega, clear, ?_⟩
              apply clear_window ends direct.aligned word base (by omega) (by omega) clear
              rw [start]
              exact endPos_le_wall before okBefore
            apply inv.add ends layout okR inv' live₁
            · rw [vars'.regions, ← list]
            · exact fun page member => (mapped page member).1
            · intro page bound outside
              exact (others page bound outside).trans (leaf₁ page)

/-- `vmm_region_dealloc` finds the region and frees its pages, then its list node. -/
theorem vmmRegionDealloc_eq {r : VmmRegion} {before after : List VmmRegion}
    (inv : RegionInv offset pages leaf₀ first last k (before ++ r :: after) free slabs tables
      blocks extra) (ends : Ends offset leaf₀ first) :
    vmmRegionDealloc offset r.base k = Mm.free r.addr (freePages offset r.base (r.length / 4096)
      { k with regions := first :: (before ++ (after ++ [last])) }) := by
  have okR := inv.region r (by simp)
  have short := okR.short
  have whole := okR.pages
  have headed : first.base ≠ r.base := by
    intro same
    have inRun : pageIndex r.base ∈ run r := by
      apply (mem_pageLoop (by omega)).mpr
      have positive := okR.nonempty
      exact ⟨0, by omega, by unfold pageIndex; omega⟩
    apply okR.clear _ inRun
    rw [← same, ends.base]
    exact ends.mapped
  have absent : ∀ x ∈ before, x.base ≠ r.base := by
    intro x member same
    have nodup := inv.layout.bases_nodup fun y inY => (inv.region y inY).nonempty
    rw [List.map_append, List.map_cons] at nodup
    exact List.disjoint_of_nodup_append nodup (List.mem_map_of_mem member)
      (same ▸ List.mem_cons_self)
  have listed : k.regions = first :: (before ++ r :: (after ++ [last])) := by
    rw [inv.list]
    simp
  have unlinked := removeRegion_middle first before after r last headed absent
  have count : (toInt32 (r.length / 4096)).toNat = r.length / 4096 := by
    rw [toInt32_of_lt (by omega), Int.toNat_natCast]
  rw [vmmRegionDealloc, listed, unlinked]
  dsimp only
  rw [count]

/-- Freeing a region takes it from the list, unmaps its pages and puts them on the free list;
everything else stays as it was. -/
theorem vmmRegionDealloc_spec {r : VmmRegion} {before after : List VmmRegion}
    (inv : RegionInv offset pages leaf₀ first last k (before ++ r :: after) free slabs tables
      blocks extra)
    (direct : Direct offset pages) (ends : Ends offset leaf₀ first) :
    ∃ k' slabs', vmmRegionDealloc offset r.base k = .ok k' ∧
      RegionInv offset pages leaf₀ first last k' (before ++ after)
        ((targets offset k (run r)).reverse ++ free) slabs' tables blocks extra ∧
      (∀ page < 2 ^ 36, k'.leaf offset page =
        if page ∈ run r then 0 else k.leaf offset page) ∧
      Extended offset (k.root offset) [] k.mem k'.mem ∧ k'.pml4 = k.pml4 ∧
      SameOthers k k' extra := by
  have okR := inv.region r (by simp)
  have short := okR.short
  have whole := okR.pages
  have separate := runs_separate ends inv.layout inv.region
  have paging := inv.paging.setRegions (first :: (before ++ (after ++ [last])))
  rw [targets_middle, add_assoc] at paging
  obtain ⟨inv₁, leaf₁, grown₁, vars₁, others₁⟩ := freePages_spec direct
    (show r.length / 4096 ≤ 2 ^ 19 by omega) paging
    (fun page member => inv.mapped page (mem_runs_middle.mpr (Or.inl member)))
  have node : (r.addr, cacheFor 32) ∈ liveObjects slabs := by
    rw [inv.live, nodes_middle, Multiset.cons_add]
    exact Multiset.mem_cons_self _ _
  obtain ⟨k', slabs', ran, inv', removed, entries', vars', others'⟩ :=
    free_paging inv₁ direct.usable node
  have leaf' := entries'.kernel_leaf vars'
  have leaves : ∀ page < 2 ^ 36, k'.leaf offset page =
      if page ∈ run r then 0 else k.leaf offset page :=
    fun page bound => (leaf' page).trans (leaf₁ page bound)
  have kept : ∀ page ∈ runs (before ++ after), k'.leaf offset page = k.leaf offset page := by
    intro page member
    rw [leaves page (runs_lt member), if_neg fun inRun => separate page inRun member]
  refine ⟨k', slabs', ?_, ⟨?_, ?_, ?_, ?_, ?_, ?_, ?_⟩, leaves, ?_, ?_, ?_⟩
  · rw [vmmRegionDealloc_eq inv ends]
    exact ran
  · rw [targets_congr kept]
    exact inv'
  · rw [inv.live, nodes_middle, Multiset.cons_add] at removed
    exact (Multiset.cons_inj_right _).mp removed
  · rw [vars'.regions, vars₁.regions]
    simp
  · exact inv.layout.remove _ ((List.sublist_cons_self r after).append_left before)
  · intro x member
    apply inv.region x
    rw [List.mem_append] at member
    rw [List.mem_append, List.mem_cons]
    exact member.imp_right Or.inr
  · intro page member
    rw [kept page member]
    exact inv.mapped page (mem_runs_middle.mpr (Or.inr member))
  · intro page bound outside
    rw [leaves page bound]
    by_cases inRun : page ∈ run r
    · rw [if_pos inRun]
      exact (ends.blank page bound (okR.clear page inRun)).symm
    · rw [if_neg inRun]
      apply inv.rest page bound
      rw [mem_runs_middle, not_or]
      exact ⟨inRun, outside⟩
  · have given := entries'.extended []
    rw [vars₁.root] at given
    exact grown₁.trans given
  · exact vars'.pml4.trans vars₁.pml4
  · intro q member
    have inData : q ∈ (targets offset k (runs (before ++ after)) : Multiset Nat) + extra :=
      Multiset.mem_add.mpr (Or.inr member)
    exact (others₁ q inData).trans (others' q inData)

end Nyaux.Mm
