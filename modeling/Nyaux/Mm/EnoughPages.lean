import Nyaux.Mm.UserHalf

/-! What the allocations and mappings need to return: free pages, and room in the region list. -/

namespace Nyaux.Mm

open Word Memory Paging

/-- There are `n` free pages, or more. -/
def FreePages (n : Nat) (k : Kernel) : Prop := ∃ free, Chain k.mem 0 k.head free ∧ n ≤ free.length

/-- The region list has gaps for regions of these sizes, one after another. -/
def RoomFor : List Nat → List VmmRegion → Prop
  | [], _ => True
  | size :: later, regions => ∃ front prev back, findGap size regions = some (front, back) ∧
      front.getLast? = some prev ∧ prev.stop ≠ 0 ∧
      ∀ node, RoomFor later (front ++ newRegion node size prev :: back)

/-- The pages a call of `vmm_region_alloc` takes at most. -/
def regionCost (size : Nat) : Nat := 1 + 4 * (numOfPages size).toNat

/-- The pages a call of `kmalloc` takes at most. -/
def kmallocCost (size : Nat) : Nat :=
  if size < 1024 then 1 else regionCost (alignUp size 4096)

/-- The regions a call of `kmalloc` makes. -/
def kmallocRegions (size : Nat) : List Nat := if size < 1024 then [] else [alignUp size 4096]

section

variable {offset : Nat} {pages : List Nat} {stock : Mem → List Slab → Prop} {data : Multiset Nat}
  {root limit n : Nat} {k : Kernel} {free : List Nat} {slabs : List Slab}
  {tables : List (List Nat × Nat)} {flags : Nat}

theorem FreePages.mono {m : Nat} (enough : FreePages n k) (fewer : m ≤ n) : FreePages m k := by
  obtain ⟨free, list, many⟩ := enough
  exact ⟨free, list, fewer.trans many⟩

theorem FreePages.length {ready : Nat} {others : Multiset Nat} (enough : FreePages n k)
    (inv : HeapInv pages ready k free slabs others) : n ≤ free.length := by
  obtain ⟨listed, list, many⟩ := enough
  rwa [list.unique inv.list] at many

theorem HeapInv.freePages {ready : Nat} {others : Multiset Nat} {before : List Nat} {m : Nat}
    (inv : HeapInv pages ready k free slabs others) (taken : Taken m before free)
    (many : n + m ≤ before.length) : FreePages n k := by
  have few := taken.few
  exact ⟨free, inv.list, by omega⟩

theorem PagingInv.mapFreshPage_returns
    (inv : PagingInv offset pages root limit k free slabs tables data) (direct : Direct offset pages)
    (bits : FlagBits flags) {virt : Nat} (under : Under limit (pageIndex virt))
    (enough : FreePages (n + 4) k) :
    ∃ k', mapFreshPage offset root virt flags k = .ok k' ∧ SameVars k k' ∧ FreePages n k' := by
  have many := enough.length inv.heap
  rcases mapFreshPage_spec inv direct bits virt under with
    ⟨few, -⟩ | ⟨p, k', free', tables', ran, -, inv', -, vars, taken, -⟩
  · omega
  · exact ⟨k', ran, vars, inv'.heap.freePages taken many⟩

theorem HeapReady.kmallocSlab_returns (ready : HeapReady offset pages stock data k)
    (usable : Usable pages) {size : Nat} (small : size < 1024) (enough : FreePages (n + 1) k) :
    ∃ x k', Mm.kmallocSlab offset size k = .ok (x, k') ∧ x ≠ 0 ∧ SameVars k k' ∧ FreePages n k' := by
  obtain ⟨free, slabs, tables, new, inv, -⟩ := ready
  have many := enough.length inv.heap
  rcases PagingInv.kmallocSlab_spec inv usable small with
    ⟨empty, -⟩ | ⟨x, k', free', slabs', ran, nonzero, inv', -, -, vars, taken, -⟩
  · rw [empty, List.length_nil] at many
    omega
  · exact ⟨x, k', ran, nonzero, vars, inv'.heap.freePages taken many⟩

theorem HeapReady.allocNode_returns (ready : HeapReady offset pages stock data k)
    (usable : Usable pages) (enough : FreePages (n + 1) k) :
    ∃ node k', Mm.allocNode offset k = .ok (node, k') ∧ SameVars k k' ∧ FreePages n k' := by
  obtain ⟨x, k', ran, nonzero, vars, rest⟩ :=
    ready.kmallocSlab_returns usable (show 32 < 1024 by decide) enough
  refine ⟨x, k', ?_, vars, rest⟩
  rw [Mm.allocNode, ran, ok_bind]
  dsimp only
  rw [if_neg nonzero]

theorem HeapReady.pmmAlloc_returns (ready : HeapReady offset pages stock data k)
    (direct : Direct offset pages) (enough : FreePages (n + 1) k) :
    ∃ page k', Mm.pmmAllocSinglep offset k = .ok (page, k') ∧ SameVars k k' ∧ FreePages n k' := by
  obtain ⟨free, slabs, tables, new, inv, -⟩ := ready
  have many := enough.length inv.heap
  cases free with
  | nil =>
      rw [List.length_nil] at many
      omega
  | cons p free =>
      obtain ⟨taken, owned⟩ := PagingInv.take inv direct
      rw [List.length_cons] at many
      exact ⟨_, _, taken, ⟨rfl, rfl, rfl⟩, free, owned.heap.list, by omega⟩

theorem HeapReady.allocPages_returns (ready : HeapReady offset pages stock data k)
    (direct : Direct offset pages) (nodes : Stable stock (cacheFor 32)) (bits : FlagBits flags)
    (base count : Nat) (enough : FreePages (n + 4 * count) k) :
    ∃ k', Mm.allocPages offset base flags count k = .ok k' ∧ SameVars k k' ∧ FreePages n k' := by
  induction count generalizing n with
  | zero => exact ⟨k, rfl, .refl k, enough⟩
  | succ count ih =>
      have split : n + 4 * (count + 1) = n + 4 + 4 * count := by omega
      obtain ⟨k₁, loop, vars₁, enough₁⟩ := ih (split ▸ enough)
      obtain ⟨free, slabs, tables, new, inv, -⟩ :=
        (ready.allocPages direct nodes bits loop).ready
      obtain ⟨k', last, vars, rest⟩ :=
        PagingInv.mapFreshPage_returns inv direct bits (under_all _) enough₁
      refine ⟨k', ?_, vars₁.trans vars, rest⟩
      rw [allocPages_succ, loop, ok_bind]
      exact last

theorem HeapReady.vmmRegionAlloc_returns (ready : HeapReady offset pages stock data k)
    (direct : Direct offset pages) (nodes : Stable stock (cacheFor 32)) (bits : FlagBits flags)
    {size : Nat} {later : List Nat} (room : RoomFor (size :: later) k.regions)
    (enough : FreePages (n + regionCost size) k) :
    ∃ base k', Mm.vmmRegionAlloc offset size flags k = .ok (base, k') ∧ base ≠ 0 ∧
      k'.pml4 = k.pml4 ∧ RoomFor later k'.regions ∧ FreePages n k' := by
  obtain ⟨front, prev, back, gap, last, nonzero, room'⟩ := room
  have split : n + regionCost size = n + 4 * (numOfPages size).toNat + 1 := by
    unfold regionCost
    omega
  obtain ⟨node, k₁, got, vars₁, enough₁⟩ := ready.allocNode_returns direct.usable (split ▸ enough)
  have ready₁ := (ready.allocNode direct.usable nodes got).ready.setRegions
    (front ++ newRegion node size prev :: back)
  obtain ⟨k', loop, vars, rest⟩ :=
    ready₁.allocPages_returns direct nodes bits (newRegion node size prev).base _ enough₁
  refine ⟨_, k', ?_, nonzero, vars.pml4.trans vars₁.pml4, ?_, rest⟩
  · rw [Mm.vmmRegionAlloc, gap]
    dsimp only
    rw [last]
    dsimp only
    rw [got, ok_bind]
    dsimp only
    rw [loop, ok_bind]
    rfl
  · rw [vars.regions]
    exact room' node

theorem HeapReady.kmalloc_returns (ready : HeapReady offset pages stock data k)
    (direct : Direct offset pages) (nodes : Stable stock (cacheFor 32)) {size : Nat}
    {later : List Nat} (room : RoomFor (kmallocRegions size ++ later) k.regions)
    (enough : FreePages (n + kmallocCost size) k) :
    ∃ x k', Mm.kmalloc offset size k = .ok (x, k') ∧ x ≠ 0 ∧ k'.pml4 = k.pml4 ∧
      RoomFor later k'.regions ∧ FreePages n k' := by
  rw [Mm.kmalloc]
  rw [kmallocCost] at enough
  rw [kmallocRegions] at room
  split
  · rename_i small
    rw [if_pos small] at enough room
    obtain ⟨x, k', ran, nonzero, vars, rest⟩ :=
      ready.kmallocSlab_returns direct.usable small enough
    exact ⟨x, k', ran, nonzero, vars.pml4, by rw [vars.regions]; exact room, rest⟩
  · rename_i large
    rw [if_neg large] at enough room
    exact ready.vmmRegionAlloc_returns direct nodes ⟨by decide, by decide⟩ room enough

theorem kmalloc_small {size : Nat} (small : size < 1024) (regions : List VmmRegion) :
    RoomFor (kmallocRegions size ++ []) regions ∧ kmallocCost size = 1 := by
  rw [kmallocRegions, kmallocCost, if_pos small, if_pos small]
  exact ⟨trivial, rfl⟩

theorem UserHalf.mapFreshPages_returns {pml4 : Nat} {own : Multiset Nat} (direct : Direct offset pages)
    (nodes : Stable stock (cacheFor 32)) (bits : FlagBits flags) (addrs : List Nat)
    (user : UserHalf offset pages stock pml4 k tables own) (low : ∀ virt ∈ addrs, virt < 2 ^ 47)
    (enough : FreePages (n + 4 * addrs.length) k) :
    ∃ k', Mm.mapFreshPages offset (add64 pml4 offset) flags addrs k = .ok k' ∧ SameVars k k' ∧
      FreePages n k' := by
  induction addrs generalizing k tables own with
  | nil => exact ⟨k, rfl, .refl k, enough⟩
  | cons virt rest ih =>
      have split : n + 4 * (virt :: rest).length = n + 4 * rest.length + 4 := by
        rw [List.length_cons]
        omega
      have small := low virt List.mem_cons_self
      obtain ⟨free, slabs, kernelTables, new, -, -, lower⟩ := user.paging
      obtain ⟨k₁, first, vars₁, enough₁⟩ :=
        lower.mapFreshPage_returns direct bits (under_user (pageIndex_user small).2) (split ▸ enough)
      obtain ⟨tables₁, own₁, user₁, -⟩ := user.mapFreshPage direct nodes bits small first
      obtain ⟨k', loop, vars, few⟩ :=
        ih user₁ (fun v member => low v (List.mem_cons_of_mem virt member)) enough₁
      refine ⟨k', ?_, vars₁.trans vars, few⟩
      rw [Mm.mapFreshPages, first, ok_bind]
      exact loop

theorem UserHalf.storeByte_free {pml4 dest target : Nat} {own : Multiset Nat}
    (user : UserHalf offset pages stock pml4 k tables own) (usable : Usable pages)
    (low : dest < 2 ^ 47) (found : translate offset k.mem pml4 dest = some target) (b : Nat)
    (enough : FreePages n k) : FreePages n { k with mem := Memory.storeByte k.mem target b } := by
  obtain ⟨q, inOwn, place⟩ := user.target_own low found
  obtain ⟨free, slabs, kernelTables, new, inv, -⟩ := user.heap
  refine ⟨free, inv.heap.list.frame fun node member => ?_, enough.length inv.heap⟩
  have notFree : q ∉ free := (inv.apart usable
    (Multiset.mem_add.mpr (Or.inr (Multiset.mem_add.mpr (Or.inr inOwn))))).1
  have alignedQ := usable.aligned q (user.ownPage inOwn)
  have alignedNode := usable.aligned node (inv.heap.mem_pages (Or.inl member))
  apply store_other
  intro same
  have equal : node = q := by
    unfold Aligned at alignedQ alignedNode
    omega
  exact notFree (equal ▸ member)

end

end Nyaux.Mm
