import Nyaux.Mm.KernelCalls
import Nyaux.Mm.RegionSteps
import Nyaux.Mm.VmmInit

/-! One allocation call of the kernel: what it does to the regions, the slabs and the page
tables together. -/

namespace Nyaux.Mm

open Word Memory Paging

theorem memcpy_spec {offset pml4 dest src n : Nat} {mem : Mem} (writable : Nat → Prop)
    (reach : ∀ mem', (∀ address, ¬ writable address → mem' address = mem address) → ∀ i < n,
      translate offset mem' pml4 (add64 src i) ≠ none ∧
      ∃ target, translate offset mem' pml4 (add64 dest i) = some target ∧ writable (target / 8 * 8)) :
    ∃ mem', memcpy offset pml4 dest src n mem = .ok mem' ∧
      ∀ address, ¬ writable address → mem' address = mem address := by
  induction n with
  | zero => exact ⟨mem, rfl, fun _ _ => rfl⟩
  | succ n ih =>
      obtain ⟨mem₁, ran, same⟩ := ih fun mem' kept i inside => reach mem' kept i (by omega)
      obtain ⟨readable, target, lands, here⟩ := reach mem₁ same n (Nat.lt_succ_self n)
      obtain ⟨source, found⟩ := Option.ne_none_iff_exists'.mp readable
      refine ⟨storeByte mem₁ target (loadByte mem₁ source), ?_, ?_⟩
      · rw [memcpy, ran, ok_bind, found, lands]
      · intro address outside
        rw [← same address outside]
        apply store_other
        rintro rfl
        exact outside here

section Region

variable {offset : Nat} {pages : List Nat} {leaf₀ : Nat → Nat} {first last : VmmRegion}
  {k k' : Kernel} {mids : List VmmRegion} {free : List Nat} {slabs : List Slab}
  {tables : List (List Nat × Nat)} {blocks : Multiset (Nat × Nat)} {extra : Multiset Nat}

theorem RegionInv.of_entries {free' : List Nat} {slabs' : List Slab}
    {blocks' : Multiset (Nat × Nat)} {extra' : Multiset Nat}
    (inv : RegionInv offset pages leaf₀ first last k mids free slabs tables blocks extra)
    (paging : KernelPaging offset pages k' free' slabs' tables
      ((targets offset k (runs mids) : Multiset Nat) + extra'))
    (live : liveObjects slabs' = nodes mids + blocks')
    (entries : SameEntries offset (k.root offset) 512 k.mem k'.mem) (vars : SameVars k k') :
    RegionInv offset pages leaf₀ first last k' mids free' slabs' tables blocks' extra' := by
  have leaf := entries.kernel_leaf vars
  refine ⟨?_, live, ?_, inv.layout, inv.region, ?_, ?_⟩
  · rw [targets_congr fun page _ => leaf page]
    exact paging
  · rw [vars.regions]
    exact inv.list
  · intro page member
    rw [leaf page]
    exact inv.mapped page member
  · intro page bound outside
    rw [leaf page]
    exact inv.rest page bound outside

theorem RegionInv.allocObject
    (inv : RegionInv offset pages leaf₀ first last k mids free slabs tables blocks extra)
    (usable : Usable pages) {size : Nat} (small : size < 1024) :
    (free = [] ∧ kmallocSlab offset size k = .error .outOfMemory) ∨
      ∃ x k' free' slabs', kmallocSlab offset size k = .ok (x, k') ∧
        RegionInv offset pages leaf₀ first last k' mids free' slabs' tables
          ((x, cacheFor size) ::ₘ blocks) extra ∧
        SameEntries offset (k.root offset) 512 k.mem k'.mem ∧ SameVars k k' ∧
        SameOthers k k' extra := by
  rcases kmallocSlab_paging inv.paging usable small with
    stopped | ⟨x, k', free', slabs', ran, -, paging, live, entries, vars, -, others, -⟩
  · exact Or.inl stopped
  · rw [inv.live, ← Multiset.add_cons] at live
    refine Or.inr ⟨x, k', free', slabs', ran, inv.of_entries paging live entries vars, entries, vars,
      ?_⟩
    exact fun q member => others q (Multiset.mem_add.mpr (Or.inr member))

theorem RegionInv.freeObject {x c : Nat}
    (inv : RegionInv offset pages leaf₀ first last k mids free slabs tables ((x, c) ::ₘ blocks)
      extra) (usable : Usable pages) :
    ∃ k' slabs', Mm.free x k = .ok k' ∧
      RegionInv offset pages leaf₀ first last k' mids free slabs' tables blocks extra ∧
      SameEntries offset (k.root offset) 512 k.mem k'.mem ∧ SameVars k k' ∧
      SameOthers k k' extra := by
  have object : (x, c) ∈ liveObjects slabs := by
    rw [inv.live, Multiset.add_cons]
    exact Multiset.mem_cons_self _ _
  obtain ⟨k', slabs', ran, paging, removed, entries, vars, others⟩ :=
    free_paging inv.paging usable object
  rw [inv.live, Multiset.add_cons] at removed
  have live := (Multiset.cons_inj_right _).mp removed
  refine ⟨k', slabs', ran, inv.of_entries paging live entries vars, entries, vars, ?_⟩
  exact fun q member => others q (Multiset.mem_add.mpr (Or.inr member))

theorem RegionInv.write_object {x c : Nat}
    (inv : RegionInv offset pages leaf₀ first last k mids free slabs tables blocks extra)
    (usable : Usable pages) (member : (x, c) ∈ blocks) {mem' : Mem}
    (outside : ∀ address, ¬ (x ≤ address ∧ address < x + cacheSize c) →
      mem' address = k.mem address) :
    RegionInv offset pages leaf₀ first last { k with mem := mem' } mids free slabs tables blocks
        extra ∧
      SameEntries offset (k.root offset) 512 k.mem mem' ∧
      SameOthers k { k with mem := mem' } extra := by
  have object : (x, c) ∈ liveObjects slabs := by
    rw [inv.live]
    exact Multiset.mem_add.mpr (Or.inr member)
  obtain ⟨heap, same⟩ := inv.paging.heap.write usable object outside
  obtain ⟨paging, entries, others⟩ := PagingInv.heap_step inv.paging heap same
  refine ⟨inv.of_entries paging inv.live entries ⟨rfl, rfl, rfl⟩, entries, ?_⟩
  exact fun q inExtra => others q (Multiset.mem_add.mpr (Or.inr inExtra))

theorem RegionInv.write_pages
    (inv : RegionInv offset pages leaf₀ first last k mids free slabs tables blocks extra)
    (usable : Usable pages) {mem' : Mem}
    (own : ∀ address, mem' address ≠ k.mem address →
      ∃ page ∈ runs mids, InPage (pointee offset (k.leaf offset page)) address) :
    RegionInv offset pages leaf₀ first last { k with mem := mem' } mids free slabs tables blocks
        extra ∧
      SameEntries offset (k.root offset) 512 k.mem mem' ∧
      SameOthers k { k with mem := mem' } extra := by
  have nodup : ((targets offset k (runs mids) : Multiset Nat) + extra).Nodup := by
    have all := usable.nodup
    rw [← Multiset.coe_nodup, ← inv.paging.heap.pages] at all
    exact (Multiset.nodup_add.mp (Multiset.nodup_add.mp all).2.1).2.1
  have target : ∀ page ∈ runs mids, pointee offset (k.leaf offset page) ∈
      (targets offset k (runs mids) : Multiset Nat) + extra := by
    intro page member
    apply Multiset.mem_add.mpr (Or.inl _)
    exact Multiset.mem_coe.mpr (List.mem_map_of_mem member)
  have same : ∀ q, q ∈ free ∨ q ∈ slabPages slabs ∨ q ∈ tablePages tables ∨ q ∈ extra →
      SamePage k.mem mem' q := by
    intro q owned address inQ
    by_contra changed
    obtain ⟨page, inRuns, inside⟩ := own address changed
    have inData := target page inRuns
    obtain ⟨notFree, notSlab, notTable⟩ := inv.paging.apart usable inData
    have notExtra : pointee offset (k.leaf offset page) ∉ extra := by
      apply Multiset.disjoint_left.mp (Multiset.nodup_add.mp nodup).2.2
      exact Multiset.mem_coe.mpr (List.mem_map_of_mem inRuns)
    have inPages : q ∈ pages := inv.paging.heap.mem_pages (by
      rw [Multiset.mem_add, Multiset.mem_add, Multiset.mem_coe]
      tauto)
    have different : q ≠ pointee offset (k.leaf offset page) := by
      rintro rfl
      tauto
    exact page_ne (usable.aligned q inPages) (usable.aligned _ (inv.paging.data_mem inData))
      different inQ inside
  obtain ⟨paging, entries⟩ := inv.paging.frame fun q owned => same q (by tauto)
  refine ⟨inv.of_entries paging inv.live entries ⟨rfl, rfl, rfl⟩, entries, ?_⟩
  exact fun q inExtra => same q (by tauto)

end Region

structure BootFacts (offset : Nat) (pages : List Nat) (leaf₀ : Nat → Nat) (first : VmmRegion) :
    Prop where
  direct : Direct offset pages
  ends : Ends offset leaf₀ first
  present : ∀ p ∈ pages, Present (leaf₀ (pageIndex p))
  leads : ∀ p ∈ pages, pointee offset (leaf₀ (pageIndex p)) = p

def smallBlocks (blocks : List (Nat × Nat)) : Multiset (Nat × Nat) :=
  ((blocks.filter fun b => b.2 < 1024).map fun b => (b.1, cacheFor b.2) : List (Nat × Nat))

/-- The invariant of the kernel's calls. `others` are the slab objects nobody frees: list nodes
of boot and whatever else the kernel keeps. A region at address 0 cannot be freed: its block is
not held any more, but the region stays. -/
structure KernelInv (offset : Nat) (pages : List Nat) (leaf₀ : Nat → Nat) (first last : VmmRegion)
    (others : Multiset (Nat × Nat)) (extra : Multiset Nat) (h : KernelHeap)
    (mids : List VmmRegion) (free : List Nat) (slabs : List Slab)
    (tables : List (List Nat × Nat)) : Prop where
  region : RegionInv offset pages leaf₀ first last h.kernel mids free slabs tables
    (others + smallBlocks h.blocks) extra
  held : (h.held : Multiset Nat) ≤ (mids.map VmmRegion.base : List Nat)
  large : ∀ b ∈ h.blocks, 1024 ≤ b.2 → ∃ r ∈ mids, r.base = b.1 ∧ b.2 ≤ r.length

/-- What a call leaves alone: the entries of the regions it keeps, the upper tables but for
those it links in on the way to `touched`, and the pages in use elsewhere. What it maps anew it
takes from the free list. -/
structure Moved (offset : Nat) (extra : Multiset Nat) (free touched : List Nat)
    (mids mids' : List VmmRegion) (k k' : Kernel) : Prop where
  fresh : ∀ r ∈ mids', r ∉ mids → ∀ page ∈ run r, pointee offset (k'.leaf offset page) ∈ free
  kept : ∀ page ∈ runs mids, page ∈ runs mids' → k'.leaf offset page = k.leaf offset page
  tables : Extended offset (k.root offset) touched k.mem k'.mem
  pml4 : k'.pml4 = k.pml4
  extra : SameOthers k k' extra

/-- How much a call asks `vmm_region_alloc` for. -/
def KernelCall.regionSize : KernelCall → Option Nat
  | .kmalloc size | .krealloc _ _ size => if size < 1024 then none else some (alignUp size 4096)
  | .regionAlloc size _ => some size
  | .kfree _ _ | .regionDealloc _ => none

/-- The region that a call would place. -/
def KernelCall.Places (h : KernelHeap) (call : KernelCall) (r : VmmRegion) : Prop :=
  ∃ node size, call.regionSize = some size ∧ nextRegion node size h.kernel.regions = some r

def BlockWord (offset : Nat) (k : Kernel) (b : Nat × Nat) (address : Nat) : Prop :=
  if b.2 < 1024 then b.1 ≤ address ∧ address < b.1 + cacheSize (cacheFor b.2)
  else ∃ i < b.2, InPage (pointee offset (k.leaf offset (pageIndex (add64 b.1 i)))) address

def blockPlace (offset : Nat) (k : Kernel) (b : Nat × Nat) (i : Nat) : Nat :=
  if b.2 < 1024 then b.1 + i
  else pointee offset (k.leaf offset (pageIndex (add64 b.1 i))) + add64 b.1 i % 4096

theorem BlockWord.congr {offset : Nat} {k k' : Kernel} {b : Nat × Nat} {address : Nat}
    (same : ∀ page, k'.leaf offset page = k.leaf offset page) :
    BlockWord offset k' b address ↔ BlockWord offset k b address := by
  unfold BlockWord
  simp only [same]

theorem RegionInv.start {offset : Nat} {pages : List Nat} {leaf₀ : Nat → Nat}
    {first last : VmmRegion} {k : Kernel} {free : List Nat} {slabs : List Slab}
    {tables : List (List Nat × Nat)} {others : Multiset (Nat × Nat)} {extra : Multiset Nat}
    (inv : RegionInv offset pages leaf₀ first last k [] free slabs tables others extra) :
    KernelInv offset pages leaf₀ first last others extra ⟨k, [], []⟩ [] free slabs tables := by
  refine ⟨?_, le_refl _, fun b member => absurd member List.not_mem_nil⟩
  have none : smallBlocks [] = 0 := rfl
  rw [none, add_zero]
  exact inv

def KernelCall.Within : KernelCall → Prop
  | .kmalloc size => size < 2 ^ 31
  | .krealloc _ oldsz newsz => oldsz ≤ newsz ∧ newsz < 2 ^ 31
  | .regionAlloc size _ => 1 ≤ size ∧ size < 2 ^ 31
  | .kfree _ _ | .regionDealloc _ => True

section Blocks

variable {addr size : Nat} {blocks blocks' : List (Nat × Nat)}

theorem smallBlocks_cons (addr size : Nat) (blocks : List (Nat × Nat)) :
    smallBlocks ((addr, size) :: blocks) =
      if size < 1024 then (addr, cacheFor size) ::ₘ smallBlocks blocks else smallBlocks blocks := by
  unfold smallBlocks
  by_cases small : size < 1024
  · rw [if_pos small, List.filter_cons_of_pos (by simpa using small), List.map_cons,
      Multiset.cons_coe]
  · rw [if_neg small, List.filter_cons_of_neg (by simpa using small)]

theorem smallBlocks_perm (same : blocks.Perm blocks') : smallBlocks blocks = smallBlocks blocks' :=
  Multiset.coe_eq_coe.mpr ((same.filter _).map _)

theorem smallBlocks_erase (member : (addr, size) ∈ blocks) : smallBlocks blocks =
    if size < 1024 then (addr, cacheFor size) ::ₘ smallBlocks (blocks.erase (addr, size))
      else smallBlocks (blocks.erase (addr, size)) := by
  rw [smallBlocks_perm (List.perm_cons_erase member), smallBlocks_cons]

theorem mem_smallBlocks {b : Nat × Nat} (member : b ∈ blocks) (small : b.2 < 1024) :
    (b.1, cacheFor b.2) ∈ smallBlocks blocks :=
  Multiset.mem_coe.mpr (List.mem_map.mpr ⟨b, List.mem_filter.mpr ⟨member, by simpa using small⟩, rfl⟩)

end Blocks

section Calls

variable {offset : Nat} {pages : List Nat} {leaf₀ : Nat → Nat} {first last : VmmRegion}
  {others : Multiset (Nat × Nat)} {extra : Multiset Nat} {k k' : Kernel} {h : KernelHeap}
  {mids mids' : List VmmRegion} {free : List Nat} {slabs : List Slab}
  {tables : List (List Nat × Nat)} {touched : List Nat} {size : Nat}

theorem runs_subset (fewer : mids' ⊆ mids) : runs mids' ⊆ runs mids := by
  intro page member
  obtain ⟨r, inMids, inRun⟩ := List.mem_flatMap.mp member
  exact List.mem_flatMap.mpr ⟨r, fewer inMids, inRun⟩

theorem Moved.of_entries (entries : SameEntries offset (k.root offset) 512 k.mem k'.mem)
    (vars : SameVars k k') (same : SameOthers k k' extra) :
    Moved offset extra free [] mids mids k k' :=
  ⟨fun _ inside outside => absurd inside outside, fun page _ _ => entries.kernel_leaf vars page,
    entries.extended [], vars.pml4, same⟩

theorem Moved.trans {k'' : Kernel} {mids'' : List VmmRegion} {free' touched' : List Nat}
    (left : Moved offset extra free touched mids mids' k k')
    (right : Moved offset extra free' touched' mids' mids'' k' k'')
    (fewer : mids'' ⊆ mids') :
    Moved offset extra free (touched ++ touched') mids mids'' k k'' := by
  have tables := right.tables
  have root : k'.root offset = k.root offset := by rw [Kernel.root, left.pml4, Kernel.root]
  rw [root] at tables
  have subset := runs_subset fewer
  refine ⟨?_, ?_, left.tables.trans tables, right.pml4.trans left.pml4, ?_⟩
  · intro r inMids missing page inRun
    have inRuns : page ∈ runs mids'' := List.mem_flatMap.mpr ⟨r, inMids, inRun⟩
    rw [right.kept page (subset inRuns) inRuns]
    exact left.fresh r (fewer inMids) missing page inRun
  · intro page before after
    rw [right.kept page (subset after) after]
    exact left.kept page before (subset after)
  · exact fun q member => (left.extra q member).trans (right.extra q member)

theorem KernelInv.perm {blocks : List (Nat × Nat)}
    (inv : KernelInv offset pages leaf₀ first last others extra h mids free slabs tables)
    (same : blocks.Perm h.blocks) :
    KernelInv offset pages leaf₀ first last others extra { h with blocks := blocks } mids free slabs
      tables := by
  refine ⟨?_, ?_, ?_⟩
  · rw [smallBlocks_perm same]
    exact inv.region
  · rw [Multiset.coe_eq_coe.mpr (held_perm h.kernel h.bases same)]
    exact inv.held
  · exact fun b member => inv.large b (same.subset member)

/-- `vmm_region_alloc` of a region that keeps clear of what `vmm_init` mapped. -/
theorem KernelInv.regionAlloc_spec {flags : Nat}
    (inv : KernelInv offset pages leaf₀ first last others extra h mids free slabs tables)
    (boot : BootFacts offset pages leaf₀ first) (bits : FlagBits flags) (positive : 1 ≤ size)
    (short : size ≤ 2 ^ 31)
    (clear : ∀ node r, nextRegion node size h.kernel.regions = some r → Clear leaf₀ r) :
    (vmmRegionAlloc offset size flags h.kernel = .error .outOfMemory ∨
        vmmRegionAlloc offset size flags h.kernel = .error .noFreeRegions) ∨
      ∃ r k' mids' free' slabs' tables',
        vmmRegionAlloc offset size flags h.kernel = .ok (r.base, k') ∧
        nextRegion r.addr size h.kernel.regions = some r ∧ r.length = alignUp size 4096 ∧
        mids'.Perm (r :: mids) ∧
        RegionInv offset pages leaf₀ first last k' mids' free' slabs' tables'
          (others + smallBlocks h.blocks) extra ∧
        Moved offset extra free (run r) mids mids' h.kernel k' := by
  rcases vmmRegionAlloc_spec inv.region boot.direct boot.ends bits positive short with
    ⟨-, stopped⟩ | ⟨-, stopped⟩ | ⟨r, k', before, after, free', slabs', tables', ran, next, split,
      -, -, length, -, rest, taken, grown, pml4, same, added⟩
  · exact Or.inl (Or.inl stopped)
  · exact Or.inl (Or.inr stopped)
  · obtain ⟨separate, inv'⟩ := added (clear _ r next)
    refine Or.inr ⟨r, k', before ++ r :: after, free', slabs', tables', ran, next, length, ?_, inv',
      ?_, ?_, grown, pml4, same⟩
    · rw [split]
      exact List.perm_middle
    · intro s inMids missing page inRun
      rw [split, List.mem_append] at missing
      rw [List.mem_append, List.mem_cons] at inMids
      obtain rfl : s = r := by tauto
      exact taken page inRun
    · intro page old _
      exact rest page (runs_lt old) fun inRun => separate page inRun old

/-- `vmm_region_dealloc` of a region that is held. -/
theorem KernelInv.regionDealloc_spec {base : Nat}
    (inv : KernelInv offset pages leaf₀ first last others extra h mids free slabs tables)
    (boot : BootFacts offset pages leaf₀ first) (member : base ∈ h.held) :
    ∃ r k' mids' slabs', r.base = base ∧ r ∈ mids ∧ mids.Perm (r :: mids') ∧
      vmmRegionDealloc offset base h.kernel = .ok k' ∧
      RegionInv offset pages leaf₀ first last k' mids'
        ((targets offset h.kernel (run r)).reverse ++ free) slabs' tables
        (others + smallBlocks h.blocks) extra ∧
      Moved offset extra free [] mids mids' h.kernel k' := by
  obtain ⟨r, inMids, rfl⟩ := List.mem_map.mp (Multiset.mem_of_le inv.held member)
  obtain ⟨before, after, rfl⟩ := List.append_of_mem inMids
  obtain ⟨k', slabs', ran, inv', leaf', grown, pml4, same⟩ :=
    vmmRegionDealloc_spec inv.region boot.direct boot.ends
  have separate := runs_separate boot.ends inv.region.layout inv.region.region
  refine ⟨r, k', before ++ after, slabs', rfl, inMids, List.perm_middle, ran, inv', ?_, ?_, grown,
    pml4, same⟩
  · intro s inMids missing
    apply absurd _ missing
    rw [List.mem_append] at inMids
    rw [List.mem_append, List.mem_cons]
    exact inMids.imp_right Or.inr
  · intro page old kept
    rw [leaf' page (runs_lt old), if_neg fun inRun => separate page inRun kept]

theorem KernelInv.held_add {addr : Nat} {r : VmmRegion} {bases : List Nat}
    (inv : KernelInv offset pages leaf₀ first last others extra h mids free slabs tables)
    (shape : mids'.Perm (r :: mids)) (base : r.base = addr) (same : bases.Perm (addr :: h.held)) :
    (bases : Multiset Nat) ≤ (mids'.map VmmRegion.base : List Nat) := by
  rw [Multiset.coe_eq_coe.mpr same, Multiset.coe_eq_coe.mpr (shape.map VmmRegion.base),
    List.map_cons, base, ← Multiset.cons_coe, ← Multiset.cons_coe]
  exact Multiset.cons_le_cons addr inv.held

theorem KernelInv.kmalloc_spec
    (inv : KernelInv offset pages leaf₀ first last others extra h mids free slabs tables)
    (boot : BootFacts offset pages leaf₀ first) (short : size < 2 ^ 31)
    (clear : ∀ r, (KernelCall.kmalloc size).Places h r → Clear leaf₀ r) :
    (kmalloc offset size h.kernel = .error .outOfMemory ∨
        kmalloc offset size h.kernel = .error .noFreeRegions) ∨
      ∃ addr k' mids' free' slabs' tables' touched, kmalloc offset size h.kernel = .ok (addr, k') ∧
        KernelInv offset pages leaf₀ first last others extra
          ⟨k', (addr, size) :: h.blocks, h.bases⟩ mids' free' slabs' tables' ∧
        Moved offset extra free touched mids mids' h.kernel k' ∧
        (∀ page ∈ touched, ∃ r, (KernelCall.kmalloc size).Places h r ∧ page ∈ run r) := by
  by_cases small : size < 1024
  · rcases inv.region.allocObject boot.direct.usable small with
      ⟨-, stopped⟩ | ⟨x, k', free', slabs', ran, inv', entries, vars, same⟩
    · exact Or.inl (Or.inl (by rw [kmalloc, if_pos small, stopped]))
    · refine Or.inr ⟨x, k', mids, free', slabs', tables, [], ?_, ⟨?_, ?_, ?_⟩,
        Moved.of_entries entries vars same, ?_⟩
      · rw [kmalloc, if_pos small, ran]
      · rw [smallBlocks_cons, if_pos small, Multiset.add_cons]
        exact inv'
      · have same := held_cons k' h.blocks h.bases x size
        rw [if_neg (by omega)] at same
        rw [Multiset.coe_eq_coe.mpr same]
        exact inv.held
      · refine List.forall_mem_cons.mpr ⟨fun large => ?_, inv.large⟩
        dsimp only at large
        omega
      · exact fun page member => absurd member List.not_mem_nil
  · have rounded : alignUp size 4096 = (size + 4095) / 4096 * 4096 :=
      alignUp_page_of_le (by omega)
    have again : alignUp (alignUp size 4096) 4096 = alignUp size 4096 := by
      rw [alignUp_page_of_le (by omega)]
      omega
    have places : ∀ node r, nextRegion node (alignUp size 4096) h.kernel.regions = some r →
        (KernelCall.kmalloc size).Places h r :=
      fun node r next => ⟨node, _, if_neg small, next⟩
    rcases inv.regionAlloc_spec boot presentRw_bits (show 1 ≤ alignUp size 4096 by omega)
        (by omega) (fun node r next => clear r (places node r next)) with
      stopped | ⟨r, k', mids', free', slabs', tables', ran, next, length, shape, inv', moved⟩
    · exact Or.inl (by rwa [kmalloc, if_neg small])
    · rw [again] at length
      refine Or.inr ⟨r.base, k', mids', free', slabs', tables', run r, ?_, ⟨?_, ?_, ?_⟩, moved, ?_⟩
      · rw [kmalloc, if_neg small, ran]
      · rw [smallBlocks_cons, if_neg small]
        exact inv'
      · have same := held_cons k' h.blocks h.bases r.base size
        rw [if_pos (by omega)] at same
        exact inv.held_add shape rfl same
      · refine List.forall_mem_cons.mpr ⟨fun _ => ⟨r, ?_, rfl, ?_⟩, ?_⟩
        · exact shape.symm.subset List.mem_cons_self
        · dsimp only
          omega
        · intro b member large
          obtain ⟨s, inMids, base, fits⟩ := inv.large b member large
          exact ⟨s, shape.symm.subset (List.mem_cons_of_mem r inMids), base, fits⟩
      · exact fun page member => ⟨r, places _ r next, member⟩

theorem KernelInv.remove {r : VmmRegion} {blocks : List (Nat × Nat)} {bases : List Nat}
    (inv : KernelInv offset pages leaf₀ first last others extra h mids free slabs tables)
    (shape : mids.Perm (r :: mids')) (held : (KernelHeap.held ⟨k', blocks, bases⟩).Perm
      (h.held.erase r.base)) (fewer : blocks ⊆ h.blocks) :
    (KernelHeap.held ⟨k', blocks, bases⟩ : Multiset Nat) ≤ (mids'.map VmmRegion.base : List Nat) ∧
      ∀ b ∈ blocks, 1024 ≤ b.2 → ∃ s ∈ mids', s.base = b.1 ∧ b.2 ≤ s.length := by
  have rest : (KernelHeap.held ⟨k', blocks, bases⟩ : Multiset Nat) ≤
      (mids'.map VmmRegion.base : List Nat) := by
    have erased := Multiset.erase_le_erase r.base inv.held
    rw [Multiset.coe_eq_coe.mpr (shape.map VmmRegion.base), List.map_cons, Multiset.coe_erase,
      Multiset.coe_erase, List.erase_cons_head] at erased
    rwa [Multiset.coe_eq_coe.mpr held]
  refine ⟨rest, ?_⟩
  intro b member large
  obtain ⟨s, inMids, base, fits⟩ := inv.large b (fewer member) large
  rcases List.mem_cons.mp (shape.subset inMids) with rfl | other
  · -- the base is not held any more
    have nodup := inv.region.layout.bases_nodup fun x inX => (inv.region.region x inX).nonempty
    rw [(shape.map VmmRegion.base).nodup_iff, List.map_cons, List.nodup_cons] at nodup
    have inHeld : b.1 ∈ KernelHeap.held ⟨k', blocks, bases⟩ := by
      apply List.mem_append_right
      exact List.mem_map_of_mem (List.mem_filter.mpr ⟨member, by simpa using large⟩)
    rw [← base] at inHeld
    exact absurd (Multiset.mem_of_le rest inHeld) nodup.1
  · exact ⟨s, other, base, fits⟩

theorem KernelInv.small_object {b : Nat × Nat}
    (inv : KernelInv offset pages leaf₀ first last others extra h mids free slabs tables)
    (member : b ∈ h.blocks) (small : b.2 < 1024) : (b.1, cacheFor b.2) ∈ liveObjects slabs := by
  rw [inv.region.live, Multiset.mem_add, Multiset.mem_add]
  exact Or.inr (Or.inr (mem_smallBlocks member small))

theorem KernelInv.small_nonzero {addr : Nat}
    (inv : KernelInv offset pages leaf₀ first last others extra h mids free slabs tables)
    (member : (addr, size) ∈ h.blocks) (small : size < 1024) : addr ≠ 0 := by
  obtain ⟨s, inSlabs, live, -⟩ := mem_liveObjects.mp (inv.small_object member small)
  obtain ⟨lower, -, -⟩ := object_bounds ((inv.region.paging.heap.slab s inSlabs).live_mem live)
  omega

theorem KernelInv.block_run {b : Nat × Nat}
    (inv : KernelInv offset pages leaf₀ first last others extra h mids free slabs tables)
    (member : b ∈ h.blocks) (large : 1024 ≤ b.2) : ∃ r ∈ mids, r.base = b.1 ∧ b.2 ≤ r.length ∧
      ∀ i < b.2, pageIndex (add64 b.1 i) ∈ run r := by
  obtain ⟨r, inMids, base, fits⟩ := inv.large b member large
  have ok := inv.region.region r inMids
  have aligned := ok.base
  have whole := ok.pages
  have short := ok.short
  refine ⟨r, inMids, base, fits, fun i inside => ?_⟩
  apply (mem_pageLoop (by omega)).mpr
  rw [← base]
  exact ⟨i / 4096, by omega, by unfold pageIndex add64; omega⟩

theorem KernelInv.block_page {b : Nat × Nat} {i : Nat}
    (inv : KernelInv offset pages leaf₀ first last others extra h mids free slabs tables)
    (member : b ∈ h.blocks) (large : 1024 ≤ b.2) (inside : i < b.2) :
    pageIndex (add64 b.1 i) ∈ runs mids := by
  obtain ⟨r, inMids, -, -, inRun⟩ := inv.block_run member large
  exact List.mem_flatMap.mpr ⟨r, inMids, inRun i inside⟩

theorem KernelInv.leaf_page {p : Nat}
    (inv : KernelInv offset pages leaf₀ first last others extra h mids free slabs tables)
    (boot : BootFacts offset pages leaf₀ first) (member : p ∈ pages) :
    Present (h.kernel.leaf offset (pageIndex p)) ∧
      pointee offset (h.kernel.leaf offset (pageIndex p)) = p := by
  have outside : pageIndex p ∉ runs mids := by
    intro inRuns
    obtain ⟨r, inMids, inRun⟩ := List.mem_flatMap.mp inRuns
    exact (inv.region.region r inMids).clear _ inRun (boot.present p member)
  rw [inv.region.rest _ (pageIndex_lt p) outside]
  exact ⟨boot.present p member, boot.leads p member⟩

theorem target_mem {page : Nat} (member : page ∈ runs mids) : pointee offset (k.leaf offset page) ∈
      (targets offset k (runs mids) : Multiset Nat) + extra := by
  apply Multiset.mem_add.mpr (Or.inl _)
  exact Multiset.mem_coe.mpr (List.mem_map_of_mem member)

theorem KernelInv.translate_place {b : Nat × Nat} {i : Nat}
    (inv : KernelInv offset pages leaf₀ first last others extra h mids free slabs tables)
    (boot : BootFacts offset pages leaf₀ first) (member : b ∈ h.blocks) (inside : i < b.2) :
    translate offset h.kernel.mem h.kernel.pml4 (add64 b.1 i) =
        some (blockPlace offset h.kernel b i) ∧
      BlockWord offset h.kernel b (blockPlace offset h.kernel b i / 8 * 8) := by
  obtain ⟨addr, size⟩ := b
  have usable := boot.direct.usable
  by_cases small : size < 1024
  · have object : (addr, cacheFor size) ∈ liveObjects slabs := inv.small_object member small
    obtain ⟨s, inSlabs, live, cache⟩ := mem_liveObjects.mp object
    have inPages : s.page ∈ pages :=
      inv.region.paging.heap.mem_pages (Or.inr (Or.inl (slabPage_mem inSlabs)))
    have carved := (inv.region.paging.heap.slab s inSlabs).live_mem live
    obtain ⟨lower, upper, -⟩ := object_bounds carved
    have aligned := usable.aligned _ inPages
    have words := object_dvd aligned carved
    have below := usable.below _ inPages
    have fits := (cacheFor_spec size small).2.2
    rw [cache] at upper
    dsimp only at inside ⊢
    obtain ⟨present, leads⟩ := inv.leaf_page boot inPages
    have plain : add64 addr i = addr + i := add64_of_lt (by omega)
    have page : pageIndex (addr + i) = pageIndex s.page := by
      unfold pageIndex Aligned at *
      omega
    rw [blockPlace, if_pos small]
    refine ⟨?_, ?_⟩
    · rw [plain]
      show (if Present (h.kernel.leaf offset (pageIndex (addr + i))) then
        some (pointee offset (h.kernel.leaf offset (pageIndex (addr + i))) + (addr + i) % 4096)
        else none) = some (addr + i)
      rw [page, if_pos present, leads]
      unfold Aligned at aligned
      congr 1
      omega
    · rw [BlockWord, if_pos small]
      dsimp only
      exact ⟨by omega, by omega⟩
  · have page := inv.block_page member (by simpa using small) inside
    have entry := (inv.region.mapped _ page).present
    have aligned := usable.aligned _ (inv.region.paging.data_mem (target_mem page))
    rw [blockPlace, if_neg small]
    dsimp only at *
    refine ⟨if_pos entry, ?_⟩
    rw [BlockWord, if_neg small]
    refine ⟨i, inside, ?_⟩
    unfold InPage
    unfold Aligned at aligned
    dsimp only
    omega

theorem KernelInv.translate_block {b : Nat × Nat} {i : Nat}
    (inv : KernelInv offset pages leaf₀ first last others extra h mids free slabs tables)
    (boot : BootFacts offset pages leaf₀ first) (member : b ∈ h.blocks) (inside : i < b.2) :
    ∃ target, translate offset h.kernel.mem h.kernel.pml4 (add64 b.1 i) = some target ∧
      BlockWord offset h.kernel b (target / 8 * 8) :=
  ⟨_, inv.translate_place boot member inside⟩

theorem KernelInv.write {b : Nat × Nat} {mem' : Mem}
    (inv : KernelInv offset pages leaf₀ first last others extra h mids free slabs tables)
    (boot : BootFacts offset pages leaf₀ first) (member : b ∈ h.blocks)
    (outside : ∀ address, ¬ BlockWord offset h.kernel b address →
      mem' address = h.kernel.mem address) :
    KernelInv offset pages leaf₀ first last others extra
        { h with kernel := { h.kernel with mem := mem' } } mids free slabs tables ∧
      SameEntries offset (h.kernel.root offset) 512 h.kernel.mem mem' ∧
      SameOthers h.kernel { h.kernel with mem := mem' } extra := by
  have usable := boot.direct.usable
  by_cases small : b.2 < 1024
  · have object := Multiset.mem_add.mpr (Or.inr (a := (b.1, cacheFor b.2) ∈ others)
      (mem_smallBlocks member small))
    have own : ∀ address, ¬ (b.1 ≤ address ∧ address < b.1 + cacheSize (cacheFor b.2)) →
        mem' address = h.kernel.mem address := by
      intro address away
      apply outside
      rwa [BlockWord, if_pos small]
    obtain ⟨inv', entries, same⟩ := inv.region.write_object usable object own
    exact ⟨⟨inv', inv.held, inv.large⟩, entries, same⟩
  · have own : ∀ address, mem' address ≠ h.kernel.mem address →
        ∃ page ∈ runs mids, InPage (pointee offset (h.kernel.leaf offset page)) address := by
      intro address changed
      by_contra away
      apply changed
      apply outside
      rw [BlockWord, if_neg small]
      rintro ⟨i, inside, inPage⟩
      exact away ⟨_, inv.block_page member (by omega) inside, inPage⟩
    obtain ⟨inv', entries, same⟩ := inv.region.write_pages usable own
    exact ⟨⟨inv', inv.held, inv.large⟩, entries, same⟩

theorem KernelInv.memcpy_spec {b b' : Nat × Nat} {n : Nat}
    (inv : KernelInv offset pages leaf₀ first last others extra h mids free slabs tables)
    (boot : BootFacts offset pages leaf₀ first) (source : b ∈ h.blocks) (target : b' ∈ h.blocks)
    (fromIt : n ≤ b.2) (intoIt : n ≤ b'.2) :
    ∃ mem', memcpy offset h.kernel.pml4 b'.1 b.1 n h.kernel.mem = .ok mem' ∧
      KernelInv offset pages leaf₀ first last others extra
        { h with kernel := { h.kernel with mem := mem' } } mids free slabs tables ∧
      Moved offset extra free [] mids mids h.kernel { h.kernel with mem := mem' } := by
  have reach : ∀ mem', (∀ address, ¬ BlockWord offset h.kernel b' address →
      mem' address = h.kernel.mem address) → ∀ i < n,
      translate offset mem' h.kernel.pml4 (add64 b.1 i) ≠ none ∧
      ∃ place, translate offset mem' h.kernel.pml4 (add64 b'.1 i) = some place ∧
        BlockWord offset h.kernel b' (place / 8 * 8) := by
    intro mem' kept i inside
    obtain ⟨inv', entries, -⟩ := inv.write boot target kept
    obtain ⟨origin, reads, -⟩ := inv'.translate_block boot source (show i < b.2 by omega)
    obtain ⟨place, lands, here⟩ := inv'.translate_block boot target (show i < b'.2 by omega)
    refine ⟨?_, place, lands, (BlockWord.congr ?_).mp here⟩
    · rw [show translate offset mem' h.kernel.pml4 (add64 b.1 i) = some origin from reads]
      exact Option.some_ne_none origin
    · have vars : SameVars h.kernel { h.kernel with mem := mem' } := ⟨rfl, rfl, rfl⟩
      exact SameEntries.kernel_leaf entries vars
  obtain ⟨mem', ran, same⟩ := Mm.memcpy_spec (BlockWord offset h.kernel b') reach
  obtain ⟨inv', entries, others⟩ := inv.write boot target same
  exact ⟨mem', ran, inv', Moved.of_entries entries ⟨rfl, rfl, rfl⟩ others⟩

theorem KernelInv.kfree_spec {addr : Nat}
    (inv : KernelInv offset pages leaf₀ first last others extra h mids free slabs tables)
    (boot : BootFacts offset pages leaf₀ first) (member : (addr, size) ∈ h.blocks) :
    ∃ k' mids' free' slabs', kfree offset addr size h.kernel = .ok k' ∧
      KernelInv offset pages leaf₀ first last others extra
        ⟨k', h.blocks.erase (addr, size), h.bases⟩ mids' free' slabs' tables ∧
      Moved offset extra free [] mids mids' h.kernel k' ∧ mids' ⊆ mids ∧
      (1024 ≤ size → addr ≠ 0 → ∃ r ∈ mids, r.base = addr ∧
        free' = (targets offset h.kernel (run r)).reverse ++ free) := by
  obtain ⟨listed, held⟩ := held_erase h.kernel h.bases member
  by_cases small : size < 1024
  · have nonzero := inv.small_nonzero member small
    have region := inv.region
    rw [smallBlocks_erase member, if_pos small, Multiset.add_cons] at region
    obtain ⟨k', slabs', ran, inv', entries, vars, same⟩ := region.freeObject boot.direct.usable
    rw [if_neg (by omega)] at held
    refine ⟨k', mids, free, slabs', ?_, ⟨inv', ?_, ?_⟩, Moved.of_entries entries vars same,
      fun r inMids => inMids, fun large => by omega⟩
    · rw [kfree, if_pos nonzero, if_pos small, ran]
    · exact (Multiset.coe_eq_coe.mpr held).le.trans inv.held
    · exact fun b inErased => inv.large b (List.mem_of_mem_erase inErased)
  · rw [if_pos (by omega)] at held
    have others := smallBlocks_erase member
    rw [if_neg small] at others
    by_cases nonzero : addr = 0
    · refine ⟨h.kernel, mids, free, slabs, ?_, ⟨?_, ?_, ?_⟩, ?_, fun r inMids => inMids,
        fun _ contra => absurd nonzero contra⟩
      · rw [kfree, if_neg (not_not.mpr nonzero)]
      · rw [← others]
        exact inv.region
      · rw [Multiset.coe_eq_coe.mpr held, ← Multiset.coe_erase]
        exact (Multiset.erase_le addr _).trans inv.held
      · exact fun b inErased => inv.large b (List.mem_of_mem_erase inErased)
      · exact Moved.of_entries (fun _ _ => rfl) (SameVars.refl h.kernel) fun q _ => SamePage.refl _ q
    · obtain ⟨r, k', mids', slabs', rfl, inMids, shape, ran, inv', moved⟩ :=
        inv.regionDealloc_spec boot (listed (by omega))
      rw [others] at inv'
      have erased : (KernelHeap.held ⟨k', h.blocks.erase (r.base, size), h.bases⟩).Perm
          (h.held.erase r.base) := held
      obtain ⟨held', large'⟩ := inv.remove shape erased List.erase_subset
      refine ⟨k', mids', _, slabs', ?_, ⟨inv', held', large'⟩, moved, ?_,
        fun _ _ => ⟨r, inMids, rfl, rfl⟩⟩
      · rw [kfree, if_pos nonzero, if_neg small, ran]
      · exact fun s kept => shape.symm.subset (List.mem_cons_of_mem r kept)

theorem KernelInv.krealloc_spec {addr oldsz newsz : Nat}
    (inv : KernelInv offset pages leaf₀ first last others extra h mids free slabs tables)
    (boot : BootFacts offset pages leaf₀ first) (grows : oldsz ≤ newsz) (short : newsz < 2 ^ 31)
    (live : addr ≠ 0 ∧ 0 < oldsz → (addr, oldsz) ∈ h.blocks)
    (clear : ∀ r, (KernelCall.kmalloc newsz).Places h r → Clear leaf₀ r) :
    (krealloc offset addr oldsz newsz h.kernel = .error .outOfMemory ∨
        krealloc offset addr oldsz newsz h.kernel = .error .noFreeRegions) ∨
      ∃ newShit k' mids' free' slabs' tables' touched,
        krealloc offset addr oldsz newsz h.kernel = .ok (newShit, k') ∧
        KernelInv offset pages leaf₀ first last others extra
          ⟨k', (newShit, newsz) ::
            (if addr ≠ 0 ∧ 0 < oldsz then h.blocks.erase (addr, oldsz) else h.blocks), h.bases⟩
          mids' free' slabs' tables' ∧
        Moved offset extra free touched mids mids' h.kernel k' ∧
        (∀ page ∈ touched, ∃ r, (KernelCall.kmalloc newsz).Places h r ∧ page ∈ run r) := by
  rcases inv.kmalloc_spec boot short clear with
    stopped | ⟨newShit, k₁, mids₁, free₁, slabs₁, tables₁, touched, ran₁, inv₁, moved₁, placed⟩
  · left
    rcases stopped with stopped | stopped
    · exact Or.inl (by rw [krealloc, stopped, error_bind])
    · exact Or.inr (by rw [krealloc, stopped, error_bind])
  right
  by_cases old : addr ≠ 0 ∧ 0 < oldsz
  · have kept : (addr, oldsz) ∈ (newShit, newsz) :: h.blocks :=
      List.mem_cons_of_mem _ (live old)
    obtain ⟨mem', copied, inv₂, moved₂⟩ := inv₁.memcpy_spec boot kept
      (List.mem_cons_self : (newShit, newsz) ∈ (newShit, newsz) :: h.blocks) (le_refl oldsz) grows
    obtain ⟨k₃, mids₃, free₃, slabs₃, ran₃, inv₃, moved₃, fewer, -⟩ := inv₂.kfree_spec boot kept
    refine ⟨newShit, k₃, mids₃, free₃, slabs₃, tables₁, touched, ?_, ?_, ?_, placed⟩
    · rw [krealloc, ran₁, ok_bind]
      dsimp only
      rw [if_pos old]
      dsimp only at copied ran₃
      rw [copied, ok_bind, ran₃, ok_bind]
    · rw [if_pos old]
      exact inv₃.perm (cons_erase_perm (newShit, newsz) (live old))
    · have moved := (moved₁.trans moved₂ fun page member => member).trans moved₃
        fewer
      rwa [List.append_nil, List.append_nil] at moved
  · refine ⟨newShit, k₁, mids₁, free₁, slabs₁, tables₁, touched, ?_, ?_, moved₁, placed⟩
    · rw [krealloc, ran₁, ok_bind]
      dsimp only
      rw [if_neg old]
    · rw [if_neg old]
      exact inv₁

theorem KernelInv.step {call : KernelCall}
    (inv : KernelInv offset pages leaf₀ first last others extra h mids free slabs tables)
    (boot : BootFacts offset pages leaf₀ first) (within : call.Within)
    (allowed : call.Allowed (fun _ => True) h) (clear : ∀ r, call.Places h r → Clear leaf₀ r) :
    (h.step offset call = .error .outOfMemory ∨ h.step offset call = .error .noFreeRegions) ∨
      ∃ h' mids' free' slabs' tables' touched, h.step offset call = .ok h' ∧
        KernelInv offset pages leaf₀ first last others extra h' mids' free' slabs' tables' ∧
        Moved offset extra free touched mids mids' h.kernel h'.kernel ∧
        ∀ page ∈ touched, ∃ r, call.Places h r ∧ page ∈ run r := by
  cases call with
  | kmalloc size =>
      rcases inv.kmalloc_spec boot within clear with
        stopped | ⟨addr, k', mids', free', slabs', tables', touched, ran, inv', moved, placed⟩
      · left
        rcases stopped with stopped | stopped
        · exact Or.inl (by rw [KernelHeap.step, stopped, error_bind])
        · exact Or.inr (by rw [KernelHeap.step, stopped, error_bind])
      · right
        refine ⟨_, mids', free', slabs', tables', touched, ?_, inv', moved, placed⟩
        rw [KernelHeap.step, ran, ok_bind]
  | kfree addr size =>
      obtain ⟨k', mids', free', slabs', ran, inv', moved, -⟩ := inv.kfree_spec boot allowed
      right
      refine ⟨_, mids', free', slabs', tables, [], ?_, inv', moved, ?_⟩
      · rw [KernelHeap.step, ran, ok_bind]
      · exact fun page member => absurd member List.not_mem_nil
  | krealloc addr oldsz newsz =>
      rcases inv.krealloc_spec boot within.1 within.2 allowed.2 clear with
        stopped | ⟨newShit, k', mids', free', slabs', tables', touched, ran, inv', moved, placed⟩
      · left
        rcases stopped with stopped | stopped
        · exact Or.inl (by rw [KernelHeap.step, stopped, error_bind])
        · exact Or.inr (by rw [KernelHeap.step, stopped, error_bind])
      · right
        refine ⟨_, mids', free', slabs', tables', touched, ?_, inv', moved, placed⟩
        rw [KernelHeap.step, ran, ok_bind]
  | regionAlloc size flags =>
      have places : ∀ node r, nextRegion node size h.kernel.regions = some r →
          (KernelCall.regionAlloc size flags).Places h r :=
        fun node r next => ⟨node, size, rfl, next⟩
      rcases inv.regionAlloc_spec boot allowed.2 within.1 within.2.le
          (fun node r next => clear r (places node r next)) with
        stopped | ⟨r, k', mids', free', slabs', tables', ran, next, length, shape, inv', moved⟩
      · left
        rcases stopped with stopped | stopped
        · exact Or.inl (by rw [KernelHeap.step, stopped, error_bind])
        · exact Or.inr (by rw [KernelHeap.step, stopped, error_bind])
      · right
        refine ⟨⟨k', h.blocks, r.base :: h.bases⟩, mids', free', slabs', tables', run r, ?_,
          ⟨inv', inv.held_add shape rfl (List.Perm.refl _), ?_⟩, moved,
          fun page member => ⟨r, places _ r next, member⟩⟩
        · rw [KernelHeap.step, ran, ok_bind]
        · intro b member large
          obtain ⟨s, inMids, base, fits⟩ := inv.large b member large
          exact ⟨s, shape.symm.subset (List.mem_cons_of_mem r inMids), base, fits⟩
  | regionDealloc base =>
      have member : base ∈ h.bases := allowed
      obtain ⟨r, k', mids', slabs', rfl, inMids, shape, ran, inv', moved⟩ :=
        inv.regionDealloc_spec boot (List.mem_append_left _ member)
      have held : (KernelHeap.held ⟨k', h.blocks, h.bases.erase r.base⟩).Perm
          (h.held.erase r.base) := by
        rw [KernelHeap.held, KernelHeap.held, List.erase_append_left _ member]
      obtain ⟨held', large'⟩ := inv.remove shape held (List.Subset.refl _)
      right
      refine ⟨_, mids', _, slabs', tables, [], ?_, ⟨inv', held', large'⟩, moved, ?_⟩
      · rw [KernelHeap.step, ran, ok_bind]
      · exact fun page inNone => absurd inNone List.not_mem_nil

end Calls

theorem boot_facts (boot : Limine) (image : KernelImage) {first : VmmRegion}
    (ends : Ends boot.offset (bootEntry boot.offset boot.entries image) first) :
    BootFacts boot.offset boot.pages (bootEntry boot.offset boot.entries image) first := by
  have direct := pages_direct boot
  have entry : ∀ p ∈ boot.pages, ∃ z, z < 2 ^ 47 ∧ z / 4096 * 4096 = p - boot.offset ∧
      bootEntry boot.offset boot.entries image (pageIndex p) = z ||| presentRw := by
    intro p member
    obtain ⟨-, aligned, -, near, back⟩ := direct.phys_page member
    obtain ⟨e, usable, inside⟩ := List.mem_flatMap.mp member
    obtain ⟨lower, upper, -⟩ := (mem_entryPages boot usable p).mp inside
    obtain ⟨listed, type⟩ := List.mem_filter.mp usable
    have isUsable := of_decide_eq_true type
    have other : e.type ≠ .badMemory := by
      rw [isUsable]
      decide
    obtain ⟨whole, -⟩ := boot.aligned e listed isUsable
    have room := entry_room boot listed other
    have offsets : p - boot.offset - e.base ∈ directOffsets e :=
      mem_directOffsets (by omega) other (by omega) (by omega)
    have mapped : (add64 boot.offset (p - boot.offset), p - boot.offset) ∈
        hhdmMaps boot.offset boot.entries := by
      apply List.mem_append_left
      apply List.mem_flatMap.mpr ⟨e, listed, _⟩
      apply mem_directMaps (entry_bounds boot listed)
      exact ⟨rfl, _, offsets, by omega⟩
    obtain ⟨z, found, same, inMaps, -⟩ := lastPhys_hhdm boot image near ⟨_, mapped, rfl⟩
    refine ⟨z, (hhdmMaps_shape boot inMaps).2, by omega, ?_⟩
    have swapped : add64 boot.offset (p - boot.offset) = p := by
      rw [add64, Nat.add_comm]
      exact back
    rw [swapped] at found
    rw [bootEntry, found]
  refine ⟨direct, ends, ?_, ?_⟩
  · intro p member
    obtain ⟨z, -, -, value⟩ := entry p member
    rw [value]
    exact present_or presentRw_bits z
  · intro p member
    obtain ⟨z, small, whole, value⟩ := entry p member
    obtain ⟨-, -, -, -, back⟩ := direct.phys_page member
    rw [value, pointee_or presentRw_bits (by omega), whole, back]

end Nyaux.Mm
