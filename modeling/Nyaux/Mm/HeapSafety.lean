import Nyaux.Mm.Vmm

/-! The slab heap under any sequence of small requests and of writes by its clients. -/

namespace Nyaux.Mm

open Word Memory

/-- The kernel and the live blocks, each an address with the size it was requested with. -/
structure HeapState where
  kernel : Kernel
  blocks : List (Nat × Nat)

inductive HeapOp where
  | kmalloc (size : Nat)
  | kfree (addr size : Nat)
  | write (address byte : Nat)

/-- What the clients promise. -/
def HeapOp.Allowed (s : HeapState) : HeapOp → Prop
  | .kmalloc size => size < 1024
  | .kfree addr size => (addr, size) ∈ s.blocks
  | .write address _ => ∃ b ∈ s.blocks, b.1 ≤ address ∧ address < b.1 + b.2

def HeapState.step (offset : Nat) (s : HeapState) : HeapOp → Except Stop HeapState
  | .kmalloc size => do
      let (addr, k) ← kmalloc offset size s.kernel
      .ok { kernel := k, blocks := (addr, size) :: s.blocks }
  | .kfree addr size => do
      let k ← kfree offset addr size s.kernel
      .ok { kernel := k, blocks := s.blocks.erase (addr, size) }
  | .write address byte =>
      .ok { s with kernel := { s.kernel with mem := storeByte s.kernel.mem address byte } }

/-- The states after `pmm_init` and any allowed operations. -/
inductive HeapReached (boot : Limine) : HeapState → Prop
  | start {mem : Mem} {k : Kernel} (ran : pmmInit boot mem = .ok k) : HeapReached boot ⟨k, []⟩
  | step {s s' : HeapState} {op : HeapOp} (before : HeapReached boot s) (allowed : op.Allowed s)
      (next : s.step boot.offset op = .ok s') : HeapReached boot s'

def capacity (mem : Mem) (addr : Nat) : Nat := mem (alignDown addr 4096)

/-- The live blocks are the allocated objects, large enough, behind the header of one slab
page, and apart from each other. -/
structure BlocksOk (mem : Mem) (slabs : List Slab) (blocks : List (Nat × Nat)) : Prop where
  live : (blocks.map Prod.fst).Perm (slabs.flatMap Slab.live)
  capacity : ∀ b ∈ blocks, b.2 ≤ capacity mem b.1
  inside : ∀ b ∈ blocks, ∃ s ∈ slabs, b.1 ∈ s.live ∧ s.page + 24 ≤ b.1 ∧
    b.1 + Mm.capacity mem b.1 ≤ s.page + 4096
  apart : blocks.Pairwise fun a b =>
    a.1 + Mm.capacity mem a.1 ≤ b.1 ∨ b.1 + Mm.capacity mem b.1 ≤ a.1

section Live

variable {pages : List Nat} {ready : Nat} {k : Kernel} {free : List Nat} {slabs : List Slab}
  {others : Multiset Nat}

theorem capacity_eq (inv : HeapInv pages ready k free slabs others) (usable : Usable pages)
    {s : Slab} (member : s ∈ slabs) {x : Nat} (live : x ∈ s.live) :
    capacity k.mem x = cacheSize s.cache := by
  have ok := inv.slab s member
  have owned : s.page ∈ pages := inv.mem_pages (Or.inr (Or.inl (slabPage_mem member)))
  have inPage := object_inPage (ok.live_mem live)
  have below := usable.below _ owned
  have word : x < 2 ^ 64 := by
    unfold InPage at inPage
    omega
  rw [capacity, alignDown_inPage (usable.aligned _ owned) inPage word]
  exact ok.size

theorem live_nodup (inv : HeapInv pages ready k free slabs others) (usable : Usable pages) :
    (slabs.flatMap Slab.live).Nodup := by
  obtain ⟨-, nodup, -, -⟩ := inv.disjoint usable
  apply List.nodup_flatMap.mpr
  refine ⟨fun s member => (inv.slab s member).nodup.of_append_right, ?_⟩
  have separate : slabs.Pairwise fun a b => a.page ≠ b.page := List.pairwise_map.mp nodup
  apply separate.imp_of_mem
  intro a b inA inB different x liveA liveB
  have alignedA := usable.aligned _ (inv.mem_pages (Or.inr (Or.inl (slabPage_mem inA))))
  have alignedB := usable.aligned _ (inv.mem_pages (Or.inr (Or.inl (slabPage_mem inB))))
  apply page_ne alignedA alignedB different (object_inPage ((inv.slab a inA).live_mem liveA))
  exact object_inPage ((inv.slab b inB).live_mem liveB)

theorem live_apart (inv : HeapInv pages ready k free slabs others) (usable : Usable pages)
    {s t : Slab} (inS : s ∈ slabs) (inT : t ∈ slabs) {x y : Nat} (liveX : x ∈ s.live)
    (liveY : y ∈ t.live) (different : x ≠ y) :
    x + capacity k.mem x ≤ y ∨ y + capacity k.mem y ≤ x := by
  rw [capacity_eq inv usable inS liveX, capacity_eq inv usable inT liveY]
  have objectX := (inv.slab s inS).live_mem liveX
  have objectY := (inv.slab t inT).live_mem liveY
  obtain ⟨-, nodup, -, -⟩ := inv.disjoint usable
  by_cases same : s.page = t.page
  · obtain rfl := slab_unique nodup inS inT same
    exact object_apart objectX objectY different
  · have alignedS := usable.aligned _ (inv.mem_pages (Or.inr (Or.inl (slabPage_mem inS))))
    have alignedT := usable.aligned _ (inv.mem_pages (Or.inr (Or.inl (slabPage_mem inT))))
    obtain ⟨lowerX, upperX, -⟩ := object_bounds objectX
    obtain ⟨lowerY, upperY, -⟩ := object_bounds objectY
    unfold Aligned at alignedS alignedT
    omega

end Live

/-- The invariant of the runs: each live block is an allocated object of the cache that serves
its size. -/
structure HeapRunInv (pages : List Nat) (s : HeapState) (free : List Nat) (slabs : List Slab) :
    Prop where
  heap : HeapInv pages 8 s.kernel free slabs 0
  live : liveObjects slabs = (s.blocks.map fun b => (b.1, cacheFor b.2) : List (Nat × Nat))
  small : ∀ b ∈ s.blocks, b.2 < 1024

namespace HeapRunInv

variable {pages : List Nat} {s : HeapState} {free : List Nat} {slabs : List Slab}

theorem block_live (inv : HeapRunInv pages s free slabs) {b : Nat × Nat} (member : b ∈ s.blocks) :
    (b.1, cacheFor b.2) ∈ liveObjects slabs := by
  rw [inv.live]
  exact List.mem_map.mpr ⟨b, member, rfl⟩

theorem live_perm (inv : HeapRunInv pages s free slabs) :
    (s.blocks.map Prod.fst).Perm (slabs.flatMap Slab.live) := by
  have addresses := congrArg (Multiset.map Prod.fst) inv.live
  rw [liveObjects_addresses] at addresses
  simp only [Multiset.map_coe, List.map_map] at addresses
  exact (Multiset.coe_eq_coe.mp addresses).symm

theorem blocksOk (inv : HeapRunInv pages s free slabs) (usable : Usable pages) :
    BlocksOk s.kernel.mem slabs s.blocks := by
  have found : ∀ b ∈ s.blocks, ∃ t ∈ slabs, b.1 ∈ t.live ∧ t.cache = cacheFor b.2 :=
    fun b member => mem_liveObjects.mp (inv.block_live member)
  have addresses : (s.blocks.map Prod.fst).Nodup :=
    inv.live_perm.nodup_iff.mpr (live_nodup inv.heap usable)
  refine ⟨inv.live_perm, ?_, ?_, ?_⟩
  · intro b member
    obtain ⟨t, inT, live, cache⟩ := found b member
    rw [capacity_eq inv.heap usable inT live, cache]
    exact (cacheFor_spec b.2 (inv.small b member)).2.2
  · intro b member
    obtain ⟨t, inT, live, -⟩ := found b member
    obtain ⟨lower, upper, -⟩ := object_bounds ((inv.heap.slab t inT).live_mem live)
    refine ⟨t, inT, live, lower, ?_⟩
    rw [capacity_eq inv.heap usable inT live]
    exact upper
  · apply (List.pairwise_map.mp addresses).imp_of_mem
    intro a b inA inB different
    obtain ⟨t, inT, liveA, -⟩ := found a inA
    obtain ⟨u, inU, liveB, -⟩ := found b inB
    exact live_apart inv.heap usable inT inU liveA liveB different

theorem step (inv : HeapRunInv pages s free slabs) (usable : Usable pages) (offset : Nat)
    {op : HeapOp} (allowed : op.Allowed s) :
    (free = [] ∧ s.step offset op = .error .outOfMemory) ∨
      ∃ s' free' slabs', s.step offset op = .ok s' ∧ HeapRunInv pages s' free' slabs' := by
  cases op with
  | kmalloc size =>
      have small : size < 1024 := allowed
      rcases kmallocSlab_spec inv.heap usable small offset with
        ⟨empty, stopped⟩ | ⟨x, k', free', slabs', returned, heap, live, -, -, -⟩
      · refine Or.inl ⟨empty, ?_⟩
        rw [HeapState.step, kmalloc, if_pos small, stopped]
        rfl
      · refine Or.inr ⟨⟨k', (x, size) :: s.blocks⟩, free', slabs', ?_, heap, ?_, ?_⟩
        · rw [HeapState.step, kmalloc, if_pos small, returned]
          rfl
        · rw [live, inv.live]
          rfl
        · exact List.forall_mem_cons.mpr ⟨small, inv.small⟩
  | kfree addr size =>
      have member : (addr, size) ∈ s.blocks := allowed
      have live := inv.block_live member
      have small : size < 1024 := inv.small _ member
      obtain ⟨t, inT, inLive, -⟩ := mem_liveObjects.mp live
      have nonzero : addr ≠ 0 := by
        obtain ⟨lower, -, -⟩ := object_bounds ((inv.heap.slab t inT).live_mem inLive)
        omega
      obtain ⟨k', slabs', returned, heap, removed, -, -, -⟩ := free_spec inv.heap usable live
      refine Or.inr ⟨⟨k', s.blocks.erase (addr, size)⟩, free, slabs', ?_, heap, ?_, ?_⟩
      · rw [HeapState.step, kfree, if_pos nonzero, if_pos small, returned]
        rfl
      · rw [inv.live] at removed
        have taken := (List.perm_cons_erase member).map fun b => (b.1, cacheFor b.2)
        rw [Multiset.coe_eq_coe.mpr taken, List.map_cons, ← Multiset.cons_coe] at removed
        exact (Multiset.cons_inj_right _).mp removed
      · intro b inErased
        exact inv.small b (List.mem_of_mem_erase inErased)
  | write address byte =>
      obtain ⟨⟨addr, size⟩, member, lower, upper⟩ := allowed
      have live := inv.block_live member
      obtain ⟨t, inT, inLive, cache⟩ := mem_liveObjects.mp live
      have fits := (cacheFor_spec size (inv.small _ member)).2.2
      -- an object starts and ends on a word
      have words : 8 ∣ addr ∧ 8 ∣ cacheSize (cacheFor size) := by
        have aligned := usable.aligned _ (inv.heap.mem_pages (Or.inr (Or.inl (slabPage_mem inT))))
        exact ⟨object_dvd aligned ((inv.heap.slab t inT).live_mem inLive), Dvd.intro _ rfl⟩
      have outside : ∀ other, ¬ (addr ≤ other ∧ other < addr + cacheSize (cacheFor size)) →
          storeByte s.kernel.mem address byte other = s.kernel.mem other := by
        intro other away
        apply store_other
        rintro rfl
        dsimp only at *
        omega
      obtain ⟨heap, -⟩ := inv.heap.write usable live outside
      exact Or.inr ⟨_, free, slabs, rfl, heap, inv.live, inv.small⟩

end HeapRunInv

theorem heapReached_inv {boot : Limine} {s : HeapState} (reached : HeapReached boot s) :
    ∃ free slabs, HeapRunInv boot.pages s free slabs := by
  have usable := pages_usable boot
  induction reached with
  | @start mem k ran =>
      rcases pmmInit_spec boot mem with ⟨-, stopped⟩ | ⟨k', free, slabs, ran', heap, -, live, -, -⟩
      · rw [stopped] at ran
        cases ran
      · obtain rfl : k' = k := Except.ok.inj (ran'.symm.trans ran)
        exact ⟨free, slabs, heap, live, by simp⟩
  | step _ allowed next ih =>
      obtain ⟨free, slabs, inv⟩ := ih
      rcases inv.step usable boot.offset allowed with ⟨-, stopped⟩ | ⟨s'', free', slabs', ran, inv'⟩
      · rw [stopped] at next
        cases next
      · obtain rfl := Except.ok.inj (ran.symm.trans next)
        exact ⟨free', slabs', inv'⟩

/-- In every reachable state each usable page is on the free list or the page of one slab, the
slabs of a cache are the pages of its list, the objects of a slab are those on its free list
and the live blocks in it, each once, and the live blocks are as `BlocksOk` says; the next
operation stops, if at all, for want of a page. -/
theorem slab_heap_safe (boot : Limine) (s : HeapState) (reached : HeapReached boot s) :
    (∃ free slabs, HeapInv boot.pages 8 s.kernel free slabs 0 ∧
      BlocksOk s.kernel.mem slabs s.blocks) ∧
    ∀ op : HeapOp, op.Allowed s → ∀ stop, s.step boot.offset op = .error stop →
      stop = .outOfMemory := by
  have usable := pages_usable boot
  obtain ⟨free, slabs, inv⟩ := heapReached_inv reached
  refine ⟨⟨free, slabs, inv.heap, inv.blocksOk usable⟩, ?_⟩
  intro op allowed stop stopped
  rcases inv.step usable boot.offset allowed with ⟨-, error⟩ | ⟨s', -, -, ran, -⟩
  · rw [error] at stopped
    exact (Except.error.inj stopped).symm
  · rw [ran] at stopped
    cases stopped

def sixteenPages : Limine where
  offset := 0xffff800000000000
  entries := [⟨0x1000, 0x10000, .usable⟩]
  offset_aligned := upperHalf_aligned
  offset_high := upperHalf_high
  offset_word := upperHalf_word
  nonempty := by decide
  aligned := by decide
  not_zero := by decide
  room := by decide
  disjoint := by decide

theorem slab_heap_safe_sixteen_pages : ∃ s : HeapState, s.blocks ≠ [] ∧
    (∃ free slabs, HeapInv sixteenPages.pages 8 s.kernel free slabs 0 ∧
      BlocksOk s.kernel.mem slabs s.blocks) ∧
    ∀ op : HeapOp, op.Allowed s → ∀ stop, s.step sixteenPages.offset op = .error stop →
      stop = .outOfMemory := by
  have usable := pages_usable sixteenPages
  have count : sixteenPages.pages.length = 16 := by decide
  rcases pmmInit_spec sixteenPages (fun _ => 0) with
    ⟨few, -⟩ | ⟨k, free, slabs, ran, heap, more, live, -, -⟩
  · omega
  · have start := HeapReached.start ran
    have inv : HeapRunInv sixteenPages.pages ⟨k, []⟩ free slabs := ⟨heap, live, by simp⟩
    have allowed : (HeapOp.kmalloc 24).Allowed ⟨k, []⟩ := show 24 < 1024 by decide
    rcases inv.step usable sixteenPages.offset allowed with
      ⟨rfl, -⟩ | ⟨s', -, -, next, inv'⟩
    · rw [List.length_nil] at more
      omega
    · refine ⟨s', ?_, slab_heap_safe sixteenPages s' (start.step allowed next)⟩
      rw [HeapState.step] at next
      cases returned : kmalloc sixteenPages.offset 24 k with
      | error stop =>
          rw [returned] at next
          cases next
      | ok result =>
          rw [returned] at next
          rw [← Except.ok.inj next]
          exact List.cons_ne_nil _ _

end Nyaux.Mm
