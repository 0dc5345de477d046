import Nyaux.Mm.HeapCalls
import Nyaux.Mm.KernelRegions

/-! Who owns which physical page, over whole runs of the kernel's allocation calls. -/

namespace Nyaux.Mm

open Word Memory Paging

/-- The regions between the two of `vmm_region_setup`. -/
def Kernel.handedOut (k : Kernel) : List VmmRegion := k.regions.tail.dropLast

/-- Every usable page is in one place, once: on the list of `pmm.c`, a slab on the list of its
cache, a table that the root leads to, or the page behind a leaf of a region. -/
structure PagesOwned (boot : Limine) (k : Kernel) (free : List Nat) (slabs : List Slab)
    (tables : List (List Nat × Nat)) : Prop where
  list : Chain k.mem 0 k.head free
  caches : ∀ c < 8, ∃ h, k.kmallocCache[c]? = some ⟨h, cacheSize c⟩ ∧
    Chain k.mem 8 h (slabPages (ofCache c slabs))
  cached : ∀ s ∈ slabs, s.cache < 8
  tree : Tree boot.offset k.mem (k.root boot.offset) 512 tables
  leaves : ∀ page ∈ runs k.handedOut, Present (k.leaf boot.offset page)
  once : (free ++ slabPages slabs ++ tablePages tables ++
    targets boot.offset k (runs k.handedOut)).Perm boot.pages

def recordTaken (offset : Nat) (before after : Kernel) (taken : VmmRegion → List Nat) :
    VmmRegion → List Nat := fun r =>
  if r ∈ before.handedOut then taken r else targets offset after (run r)

/-- The states after boot, which left `k₀`, and any calls. No region overlaps what `k₀` maps. -/
inductive PagesReached (boot : Limine) (image : KernelImage) (k₀ : Kernel) :
    KernelHeap → (VmmRegion → List Nat) → Prop
  | start {mem : Mem} {k : Kernel} (pmm : pmmInit boot mem = .ok k)
      (vmm : vmmInit boot.offset boot.entries image k = .ok k₀) :
      PagesReached boot image k₀ ⟨k₀, [], []⟩ fun _ => []
  | step {h h' : KernelHeap} {taken : VmmRegion → List Nat} {call : KernelCall}
      (before : PagesReached boot image k₀ h taken) (within : call.Within)
      (allowed : call.Allowed (fun _ => True) h)
      (clear : ∀ r, call.Places h r → Clear (k₀.leaf boot.offset) r)
      (next : h.step boot.offset call = .ok h') :
      PagesReached boot image k₀ h' (recordTaken boot.offset h.kernel h'.kernel taken)

/-- `pmm_alloc_singlep` returns a page of the free list. -/
def NextPageFree (boot : Limine) (k : Kernel) (free : List Nat) : Prop :=
  ∀ page k', pmmAllocSinglep boot.offset k = .ok (page, k') →
    ∃ rest, free = add64 page boot.offset :: rest ∧ Chain k'.mem 0 k'.head rest

/-- `kfree` of a region puts back the pages that its allocation took, and no others. -/
def FreeExact (boot : Limine) (h : KernelHeap) (free : List Nat) (taken : VmmRegion → List Nat) :
    Prop :=
  ∀ b ∈ h.blocks, 1024 ≤ b.2 → b.1 ≠ 0 → ∃ r ∈ h.kernel.handedOut, r.base = b.1 ∧
    ∃ k', kfree boot.offset b.1 b.2 h.kernel = .ok k' ∧
      Chain k'.mem 0 k'.head ((taken r).reverse ++ free)

/-- A call stops only at the two halts of an exhausted machine; a region it adds has its pages
from the free list. -/
def CallsTakeFree (boot : Limine) (k₀ : Kernel) (h : KernelHeap) (free : List Nat) : Prop :=
  ∀ call : KernelCall, call.Within → call.Allowed (fun _ => True) h →
    (∀ r, call.Places h r → Clear (k₀.leaf boot.offset) r) →
    (∀ stop, h.step boot.offset call = .error stop →
      stop = .outOfMemory ∨ stop = .noFreeRegions) ∧
    ∀ h', h.step boot.offset call = .ok h' → ∀ r ∈ h'.kernel.handedOut, r ∉ h.kernel.handedOut →
      ∀ p ∈ targets boot.offset h'.kernel (run r), p ∈ free

section Runs

variable {boot : Limine} {image : KernelImage} {k₀ k : Kernel} {h : KernelHeap}
  {taken : VmmRegion → List Nat} {leaf₀ : Nat → Nat} {first last : VmmRegion}
  {others : Multiset (Nat × Nat)} {mids : List VmmRegion} {free : List Nat} {slabs : List Slab}
  {tables : List (List Nat × Nat)}

theorem RegionInv.handedOut {offset : Nat} {pages : List Nat} {blocks : Multiset (Nat × Nat)}
    {extra : Multiset Nat}
    (inv : RegionInv offset pages leaf₀ first last k mids free slabs tables blocks extra) :
    k.handedOut = mids := by
  rw [Kernel.handedOut, inv.list, List.tail_cons, List.dropLast_concat]

theorem KernelInv.owned
    (inv : KernelInv boot.offset boot.pages leaf₀ first last others 0 h mids free slabs tables) :
    PagesOwned boot h.kernel free slabs tables := by
  have heap := inv.region.paging.heap
  refine ⟨heap.list, ?_, fun s member => (heap.slab s member).cache, inv.region.paging.tree, ?_, ?_⟩
  · intro c small
    obtain ⟨first, cached, -, chain⟩ := heap.caches c small
    exact ⟨first, cached, chain⟩
  · rw [inv.region.handedOut]
    exact fun page member => (inv.region.mapped page member).present
  · rw [inv.region.handedOut]
    apply Multiset.coe_eq_coe.mp
    rw [← heap.pages, add_zero, Multiset.coe_add, Multiset.coe_add, Multiset.coe_add,
      ← List.append_assoc]

theorem KernelInv.nextPageFree
    (inv : KernelInv boot.offset boot.pages leaf₀ first last others 0 h mids free slabs tables) :
    NextPageFree boot h.kernel free := by
  intro page k' ran
  cases free with
  | nil =>
      rw [inv.region.paging.heap.take_none] at ran
      cases ran
  | cons p rest =>
      obtain ⟨took, heap⟩ := inv.region.paging.heap.take (pages_direct boot)
      obtain ⟨rfl, rfl⟩ := Prod.mk.inj (Except.ok.inj (took.symm.trans ran))
      have inPages := inv.region.paging.heap.mem_pages (Or.inl List.mem_cons_self)
      obtain ⟨-, -, -, -, back⟩ := (pages_direct boot).phys_page inPages
      exact ⟨rest, by rw [back], heap.list⟩

structure PagesInv (boot : Limine) (image : KernelImage) (k₀ : Kernel) (first last : VmmRegion)
    (h : KernelHeap) (taken : VmmRegion → List Nat) (mids : List VmmRegion) (free : List Nat)
    (slabs : List Slab) (tables : List (List Nat × Nat)) : Prop where
  ends : Ends boot.offset (bootEntry boot.offset boot.entries image) first
  booted : ∀ page < 2 ^ 36, k₀.leaf boot.offset page =
    bootEntry boot.offset boot.entries image page
  kernel : KernelInv boot.offset boot.pages (bootEntry boot.offset boot.entries image) first last
    (setupNodes first last) 0 h mids free slabs tables
  recorded : ∀ r ∈ mids, taken r = targets boot.offset h.kernel (run r)

theorem PagesInv.clear {r : VmmRegion}
    (inv : PagesInv boot image k₀ first last h taken mids free slabs tables)
    (clear : Clear (k₀.leaf boot.offset) r) :
    Clear (bootEntry boot.offset boot.entries image) r := by
  intro page member
  rw [← inv.booted page (pageLoop_lt member)]
  exact clear page member

theorem PagesInv.step {call : KernelCall}
    (inv : PagesInv boot image k₀ first last h taken mids free slabs tables)
    (within : call.Within) (allowed : call.Allowed (fun _ => True) h)
    (clear : ∀ r, call.Places h r → Clear (k₀.leaf boot.offset) r) :
    (h.step boot.offset call = .error .outOfMemory ∨
        h.step boot.offset call = .error .noFreeRegions) ∨
      ∃ h' mids' free' slabs' tables', h.step boot.offset call = .ok h' ∧
        PagesInv boot image k₀ first last h' (recordTaken boot.offset h.kernel h'.kernel taken) mids'
          free' slabs' tables' ∧
        ∀ r ∈ mids', r ∉ mids → ∀ p ∈ targets boot.offset h'.kernel (run r), p ∈ free := by
  rcases inv.kernel.step (boot_facts boot image inv.ends) within allowed
      (fun r placed => inv.clear (clear r placed)) with
    stopped | ⟨h', mids', free', slabs', tables', touched, ran, inv', moved, -⟩
  · exact Or.inl stopped
  refine Or.inr ⟨h', mids', free', slabs', tables', ran, ⟨inv.ends, inv.booted, inv', ?_⟩, ?_⟩
  · intro r member
    rw [recordTaken, inv.kernel.region.handedOut]
    by_cases old : r ∈ mids
    · rw [if_pos old, inv.recorded r old]
      symm
      apply targets_congr
      intro page inRun
      exact moved.kept page (List.mem_flatMap.mpr ⟨r, old, inRun⟩)
        (List.mem_flatMap.mpr ⟨r, member, inRun⟩)
    · rw [if_neg old]
  · intro r member new p inTargets
    obtain ⟨page, inRun, rfl⟩ := List.mem_map.mp inTargets
    exact moved.fresh r member new page inRun

theorem pagesReached_inv (reached : PagesReached boot image k₀ h taken) :
    ∃ first last mids free slabs tables,
      PagesInv boot image k₀ first last h taken mids free slabs tables := by
  induction reached with
  | start pmm vmm =>
      obtain ⟨first, last, free, slabs, tables, inv, ends, -⟩ := booted_inv pmm vmm
      refine ⟨first, last, [], free, slabs, tables, ends, ?_, inv.start, ?_⟩
      · exact fun page bound => inv.rest page bound List.not_mem_nil
      · exact fun r member => absurd member List.not_mem_nil
  | step _ within allowed clear next ih =>
      obtain ⟨first, last, mids, free, slabs, tables, inv⟩ := ih
      rcases inv.step within allowed clear with
        stopped | ⟨h'', mids', free', slabs', tables', ran, inv', -⟩
      · exact absurd next (not_ok_of_stopped stopped)
      · obtain rfl := Except.ok.inj (ran.symm.trans next)
        exact ⟨first, last, mids', free', slabs', tables', inv'⟩

theorem PagesInv.freeExact
    (inv : PagesInv boot image k₀ first last h taken mids free slabs tables) :
    FreeExact boot h free taken := by
  intro b member large nonzero
  obtain ⟨k', mids', free', slabs', ran, inv', -, -, given⟩ :=
    inv.kernel.kfree_spec (boot_facts boot image inv.ends) member
  obtain ⟨r, inMids, base, rfl⟩ := given large nonzero
  refine ⟨r, ?_, base, k', ran, ?_⟩
  · rw [inv.kernel.region.handedOut]
    exact inMids
  · rw [inv.recorded r inMids]
    exact inv'.region.paging.heap.list

theorem PagesInv.callsTakeFree
    (inv : PagesInv boot image k₀ first last h taken mids free slabs tables) :
    CallsTakeFree boot k₀ h free := by
  intro call within allowed clear
  rcases inv.step within allowed clear with
    stopped | ⟨h', mids', free', slabs', tables', ran, inv', fromFree⟩
  · refine ⟨?_, ?_⟩
    · intro stop error
      rcases stopped with stopped | stopped
      · exact Or.inl (Except.error.inj (error.symm.trans stopped))
      · exact Or.inr (Except.error.inj (error.symm.trans stopped))
    · intro h' next
      exact absurd next (not_ok_of_stopped stopped)
  · refine ⟨?_, ?_⟩
    · intro stop error
      rw [ran] at error
      cases error
    · intro h'' next
      obtain rfl := Except.ok.inj (ran.symm.trans next)
      rw [inv'.kernel.region.handedOut, inv.kernel.region.handedOut]
      exact fromFree

end Runs

/-- In every state of every run each usable page is in exactly one place, the free list has no
cycle and no page in use, and a region is given back with the pages it was made of. -/
theorem physical_pages_owned (boot : Limine) (image : KernelImage) (k₀ : Kernel) (h : KernelHeap)
    (taken : VmmRegion → List Nat) (reached : PagesReached boot image k₀ h taken) :
    boot.pages.Nodup ∧ ∃ free slabs tables, PagesOwned boot h.kernel free slabs tables ∧
      NextPageFree boot h.kernel free ∧ FreeExact boot h free taken ∧
      CallsTakeFree boot k₀ h free := by
  obtain ⟨first, last, mids, free, slabs, tables, inv⟩ := pagesReached_inv reached
  exact ⟨(pages_usable boot).nodup, free, slabs, tables, inv.kernel.owned, inv.kernel.nextPageFree,
    inv.freeExact, inv.callsTakeFree⟩

theorem machine_first_region : ∃ k k₀ first last free slabs tables,
    pmmInit machine (fun _ => 0) = .ok k ∧
    vmmInit machine.offset machine.entries machineImage k = .ok k₀ ∧
    RegionInv machine.offset machine.pages
      (bootEntry machine.offset machine.entries machineImage) first last k₀ [] free slabs tables
      (setupNodes first last) 0 ∧
    Ends machine.offset (bootEntry machine.offset machine.entries machineImage) first ∧
    6000 ≤ free.length ∧
    ∀ node, nextRegion node 4096 k₀.regions = some ⟨node, machine.offset + (2 ^ 32 + 2 ^ 25), 4096⟩ ∧
      Clear (k₀.leaf machine.offset) ⟨node, machine.offset + (2 ^ 32 + 2 ^ 25), 4096⟩ := by
  have paths : machinePaths.length = 2057 := by simp [machinePaths]
  obtain ⟨k, k₀, free, slabs, tables, first, last, pmm, vmm, inv, ends, base, length, final, -,
    many, -⟩ := boot_of_enough machine machineImage (fun _ => 0) machinePaths machine_covers
      (by rw [paths, machine_pages]; decide)
  rw [paths, machine_pages] at many
  have rounded : alignUp 4096 4096 = 4096 := by decide
  have stop : first.stop = machine.offset + (2 ^ 32 + 2 ^ 25) := by
    rw [VmmRegion.stop, base, length, machine_hhdmPages]
    decide
  refine ⟨k, k₀, first, last, free, slabs, tables, pmm, vmm, inv, ends, by omega, ?_⟩
  intro node
  refine ⟨?_, ?_⟩
  · have fit : fits 4096 first last = true := by
      rw [fits, decide_eq_true_eq, rounded, stop, final]
      decide
    rw [nextRegion, inv.list, List.nil_append, findGap, findPair, if_pos fit]
    simp only [Option.bind_some, List.getLast?_singleton, Option.map_some, newRegion, stop, rounded]
  · intro page member
    obtain ⟨i, inside, rfl⟩ := List.mem_map.mp member
    have only : i = 0 := by
      have bound := List.mem_range.mp inside
      dsimp only at bound
      omega
    have place : pageAddr (machine.offset + (2 ^ 32 + 2 ^ 25)) 0 =
        machine.offset + (2 ^ 32 + 2 ^ 25) := by decide
    rw [only]
    dsimp only
    rw [place, inv.rest _ (pageIndex_lt _) (by simp [runs]),
      machine_gap (Nat.add_le_add_left (by decide) _) (by decide)]
    decide

theorem physical_pages_owned_one_region : ∃ (k₀ : Kernel) (h : KernelHeap)
    (taken : VmmRegion → List Nat), h.blocks ≠ [] ∧ machine.pages.Nodup ∧
    ∃ free slabs tables, PagesOwned machine h.kernel free slabs tables ∧
      NextPageFree machine h.kernel free ∧ FreeExact machine h free taken ∧
      CallsTakeFree machine k₀ h free := by
  obtain ⟨k, k₀, first, last, free, slabs, tables, pmm, vmm, inv, ends, many, placed⟩ :=
    machine_first_region
  have rounded : alignUp 4096 4096 = 4096 := by decide
  rcases vmmRegionAlloc_spec inv (pages_direct machine) ends presentRw_bits
      (show 1 ≤ 4096 by decide) (by decide) with
    ⟨few, -⟩ | ⟨full, -⟩ | ⟨r, k', -, -, -, -, -, ran, -⟩
  · rw [rounded] at few
    omega
  · obtain ⟨next, -⟩ := placed 0
    rw [nextRegion, full] at next
    cases next
  · have booted : PagesReached machine machineImage k₀ ⟨k₀, [], []⟩ fun _ => [] := .start pmm vmm
    have next : KernelHeap.step machine.offset ⟨k₀, [], []⟩ (.kmalloc 4096) =
        .ok ⟨k', [(r.base, 4096)], []⟩ := by
      rw [KernelHeap.step, kmalloc, if_neg (by decide), rounded, ran, ok_bind]
    refine ⟨k₀, ⟨k', [(r.base, 4096)], []⟩, _, List.cons_ne_nil _ _,
      physical_pages_owned machine machineImage k₀ _ _ (booted.step ?_ ?_ ?_ next)⟩
    · exact show 4096 < 2 ^ 31 by decide
    · exact trivial
    · rintro s ⟨node, size, asked, place⟩
      have same : size = 4096 := by
        rw [KernelCall.regionSize, if_neg (by decide), rounded] at asked
        exact (Option.some.inj asked).symm
      obtain ⟨first, clear⟩ := placed node
      rw [same, first] at place
      rw [← Option.some.inj place]
      exact clear

end Nyaux.Mm
