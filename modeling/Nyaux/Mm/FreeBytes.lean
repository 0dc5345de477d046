import Nyaux.Mm.EnoughPages
import Nyaux.Mm.Pagemap

/-! The bytes of free memory, and two states of the kernel that differ in these only. -/

namespace Nyaux.Mm

open Word Memory Paging

def Loose (free : List Nat) (slabs : List Slab) (address : Nat) : Prop :=
  (∃ p ∈ free, p < address ∧ address < p + 4096) ∨
    ∃ t ∈ slabs, ∃ x ∈ objects t.page t.cache, x < address ∧ address < x + cacheSize t.cache

structure Agree (free : List Nat) (slabs : List Slab) (k k₂ : Kernel) : Prop where
  vars : SameVars k k₂
  head : k₂.head = k.head
  mem : ∀ address, ¬ Loose free slabs address → k₂.mem address = k.mem address

section Separate

variable {offset : Nat} {pages : List Nat} {ready : Nat} {k k₂ : Kernel} {free : List Nat}
  {slabs : List Slab} {others : Multiset Nat} {tables : List (List Nat × Nat)} {data : Multiset Nat}

theorem loose_page {address : Nat} (loose : Loose free slabs address) :
    (∃ p ∈ free, p < address ∧ address < p + 4096) ∨
      ∃ t ∈ slabs, t.page + 24 < address ∧ address < t.page + 4096 ∧
        ∃ x ∈ objects t.page t.cache, x < address ∧ address < x + cacheSize t.cache := by
  rcases loose with inFree | ⟨t, inT, x, inX, above, below⟩
  · exact Or.inl inFree
  · obtain ⟨lower, upper, -⟩ := object_bounds inX
    exact Or.inr ⟨t, inT, by omega, by omega, x, inX, above, below⟩

theorem HeapInv.not_loose (inv : HeapInv pages ready k free slabs others) (usable : Usable pages)
    {q address : Nat} (inPages : q ∈ pages) (notFree : q ∉ free) (notSlab : q ∉ slabPages slabs)
    (inside : InPage q address) : ¬ Loose free slabs address := by
  intro loose
  have aligned := usable.aligned q inPages
  rcases loose_page loose with ⟨p, inFree, above, below⟩ | ⟨t, inT, above, below, -⟩
  · have alignedP := usable.aligned p (inv.mem_pages (Or.inl inFree))
    have different : q ≠ p := by
      rintro rfl
      exact notFree inFree
    exact page_ne aligned alignedP different inside ⟨above.le, below⟩
  · have alignedT := usable.aligned _ (inv.mem_pages (Or.inr (Or.inl (slabPage_mem inT))))
    have different : q ≠ t.page := by
      rintro rfl
      exact notSlab (slabPage_mem inT)
    exact page_ne aligned alignedT different inside ⟨by omega, below⟩

theorem HeapInv.link_not_loose (inv : HeapInv pages ready k free slabs others)
    (usable : Usable pages) {p : Nat} (inFree : p ∈ free) : ¬ Loose free slabs p := by
  intro loose
  obtain ⟨-, -, apart, -⟩ := inv.disjoint usable
  have aligned := usable.aligned p (inv.mem_pages (Or.inl inFree))
  rcases loose_page loose with ⟨q, inQ, above, below⟩ | ⟨t, inT, above, below, -⟩
  · have alignedQ := usable.aligned q (inv.mem_pages (Or.inl inQ))
    unfold Aligned at aligned alignedQ
    omega
  · have alignedT := usable.aligned _ (inv.mem_pages (Or.inr (Or.inl (slabPage_mem inT))))
    unfold Aligned at aligned alignedT
    omega

theorem HeapInv.slab_not_loose (inv : HeapInv pages ready k free slabs others)
    (usable : Usable pages) {t : Slab} (inT : t ∈ slabs) :
    (∀ i ≤ 24, ¬ Loose free slabs (t.page + i)) ∧
      ∀ x ∈ objects t.page t.cache, ¬ Loose free slabs x := by
  obtain ⟨-, nodup, apart, -⟩ := inv.disjoint usable
  have alignedT := usable.aligned _ (inv.mem_pages (Or.inr (Or.inl (slabPage_mem inT))))
  have own : ∀ address, InPage t.page address → Loose free slabs address →
      t.page + 24 < address ∧ ∃ y ∈ objects t.page t.cache, y < address ∧
        address < y + cacheSize t.cache := by
    intro address inside loose
    rcases loose_page loose with ⟨p, inFree, above, below⟩ | ⟨s, inS, above, below, object⟩
    · have alignedP := usable.aligned p (inv.mem_pages (Or.inl inFree))
      have different : t.page ≠ p := by
        rintro rfl
        exact apart _ inFree (slabPage_mem inT)
      exact absurd ⟨above.le, below⟩ (page_ne alignedT alignedP different inside)
    · have alignedS := usable.aligned _ (inv.mem_pages (Or.inr (Or.inl (slabPage_mem inS))))
      by_cases same : t.page = s.page
      · obtain rfl := slab_unique nodup inT inS same
        exact ⟨above, object⟩
      · exact absurd ⟨by omega, below⟩ (page_ne alignedT alignedS same inside)
  refine ⟨fun i small loose => ?_, fun x inX loose => ?_⟩
  · have above := (own _ ⟨by omega, by omega⟩ loose).1
    omega
  · obtain ⟨-, y, inY, above, below⟩ := own x (object_inPage inX) loose
    have different : x ≠ y := by omega
    rcases object_apart inX inY different with first | second <;> omega

theorem SlabOk.links {mem mem' : Mem} {t : Slab} (ok : SlabOk mem t)
    (header : ∀ i ≤ 24, mem' (t.page + i) = mem (t.page + i))
    (links : ∀ x ∈ objects t.page t.cache, mem' x = mem x) : SlabOk mem' t where
  cache := ok.cache
  size := (header 0 (by decide)).trans ok.size
  freelist := by
    rw [header 16 (by decide)]
    exact ok.freelist.frame fun x member => links x (ok.free_mem member)
  carved := ok.carved

theorem Agree.heap (agree : Agree free slabs k k₂) (usable : Usable pages)
    (inv : HeapInv pages ready k free slabs others) :
    HeapInv pages ready k₂ free slabs others := by
  refine ⟨inv.pages, ?_, ?_, by rw [agree.vars.caches]; exact inv.count, ?_⟩
  · rw [agree.head]
    exact inv.list.frame fun p inFree => agree.mem p (inv.link_not_loose usable inFree)
  · intro t inT
    obtain ⟨header, links⟩ := inv.slab_not_loose usable inT
    exact (inv.slab t inT).links (fun i small => agree.mem _ (header i small))
      fun x inX => agree.mem x (links x inX)
  · intro c inside
    obtain ⟨first, cached, nonempty, chain⟩ := inv.caches c inside
    refine ⟨first, by rw [agree.vars.caches]; exact cached, nonempty, chain.frame fun q inQ => ?_⟩
    obtain ⟨t, inCache, rfl⟩ := List.mem_map.mp inQ
    exact agree.mem _ ((inv.slab_not_loose usable (List.mem_filter.mp inCache).1).1 8 (by decide))

theorem Agree.owned (agree : Agree free slabs k k₂) (usable : Usable pages)
    (inv : HeapInv pages ready k free slabs others) {q : Nat} (member : q ∈ others) :
    SamePage k.mem k₂.mem q := by
  obtain ⟨-, -, -, elsewhere⟩ := inv.disjoint usable
  obtain ⟨notFree, notSlab⟩ := elsewhere q member
  exact fun address inside => agree.mem address
    (inv.not_loose usable (inv.mem_pages (Or.inr (Or.inr member))) notFree notSlab inside)

theorem Agree.paging (agree : Agree free slabs k k₂) (usable : Usable pages)
    (inv : KernelPaging offset pages k free slabs tables data) :
    KernelPaging offset pages k₂ free slabs tables data := by
  refine ⟨agree.heap usable inv.heap, ?_⟩
  rw [agree.vars.root]
  apply inv.tree.frame
  intro t member
  exact agree.owned usable inv.heap
    (Multiset.mem_add.mpr (Or.inl (List.mem_map_of_mem member)))

def clearFree (free : List Nat) (slabs : List Slab) (k : Kernel) : Kernel :=
  { k with mem := fun address =>
      if (∃ p ∈ free, p < address ∧ address < p + 4096) ∨
        ∃ t ∈ slabs, ∃ x ∈ t.free, x < address ∧ address < x + cacheSize t.cache
      then 0 else k.mem address }

theorem agree_clearFree (ok : ∀ t ∈ slabs, SlabOk k.mem t) :
    Agree free slabs k (clearFree free slabs k) := by
  refine ⟨⟨rfl, rfl, rfl⟩, rfl, fun address tight => if_neg ?_⟩
  rintro (inFree | ⟨t, inT, x, inX, inside⟩)
  · exact tight (Or.inl inFree)
  · exact tight (Or.inr ⟨t, inT, x, (ok t inT).free_mem inX, inside⟩)

theorem clearFree_words (free : List Nat) (slabs : List Slab) (k : Kernel) :
    FreeWords (fun _ _ word => word = 0) (clearFree free slabs k).mem slabs := by
  intro t inT x inX d positive inside
  exact if_pos (Or.inr ⟨t, inT, x, inX, by omega, by omega⟩)

end Separate

theorem machine_room {first last : VmmRegion} (base : first.base = machine.offset)
    (length : first.length = hhdmPagesOf machine.entries)
    (end_ : last.base = machineImage.virtualBase) : RoomFor [4096, 8192] [first, last] := by
  have stop : first.stop = 0xffff800102000000 := by
    rw [VmmRegion.stop, base, length, machine_hhdmPages]
    decide
  have fit : fits 4096 first last = true := by
    rw [fits, end_, stop]
    decide
  refine ⟨[first], first, [last], by rw [findGap, findPair, if_pos fit], rfl, by rw [stop]; decide,
    fun node => ?_⟩
  have stop' : (newRegion node 4096 first).stop = 0xffff800102001000 := by
    rw [VmmRegion.stop, newRegion, stop]
    dsimp only
    decide
  have full : ¬fits 8192 first (newRegion node 4096 first) = true := by
    rw [fits, decide_eq_true_eq, newRegion, stop]
    dsimp only
    decide
  have fit' : fits 8192 (newRegion node 4096 first) last = true := by
    rw [fits, end_, stop']
    decide
  refine ⟨[first, newRegion node 4096 first], newRegion node 4096 first, [last], ?_, rfl,
    by rw [stop']; decide, fun _ => trivial⟩
  rw [List.singleton_append, findGap, findPair, if_neg full, findPair, if_pos fit']
  rfl

theorem machine_process : ∃ (k : Kernel) (p : Pagemap),
    UserHalf machine.offset machine.pages (FreeWords fun _ _ word => word = 0) p.pml4 k
      [([], p.root machine.offset)] 0 ∧
    FreePages 5000 k ∧ RoomFor [4096, 8192] k.regions ∧
    ∀ virt < 2 ^ 47, translate machine.offset k.mem p.pml4 virt = none := by
  have direct := pages_direct machine
  have paths : machinePaths.length = 2057 := by simp [machinePaths]
  obtain ⟨-, k₀, free, slabs, tables, first, last, -, -, booted, -, base, length, end_, -, many, -⟩ :=
    boot_of_enough machine machineImage (fun _ => 0) machinePaths machine_covers
      (by rw [paths, machine_pages]; decide)
  rw [paths, machine_pages] at many
  have inv := (sameButFree_wipe free k₀).paging booted.paging direct.usable
  rcases newPagemap_spec inv direct machineEnd with
    ⟨few, -⟩ | ⟨p, k, free', slabs', -, -, -, member, -, inv', -, lower, -, -, vars, taken, -⟩
  · omega
  have few := taken.few
  have agree : Agree free' slabs' k (clearFree free' slabs' k) := agree_clearFree inv'.heap.slab
  have clear := agree.paging direct.usable inv'
  have empty : ∀ i < 256, ¬ Present ((clearFree free' slabs' k).mem
      (slot (p.root machine.offset) i)) := by
    intro i bound
    rw [agree.owned direct.usable inv'.heap
      (Multiset.mem_add.mpr (Or.inr (Multiset.mem_cons_self _ _))) _ (slot_inPage (by omega)),
      lower i bound]
    exact wipe_absent booted.paging direct.usable member (by omega)
  have absent : ∀ page < 2 ^ 35, leafEntry machine.offset (clearFree free' slabs' k).mem
      (p.root machine.offset) page = 0 := fun page small =>
    leafEntry_of_root_absent (empty _ (by omega))
  have rootPage := clear.data_mem (Multiset.mem_cons_self (p.root machine.offset) _)
  have regions : k.regions = [first, last] := by
    rw [vars.regions]
    exact booted.list
  have heap : HeapReady machine.offset machine.pages (FreeWords fun _ _ word => word = 0)
      (tablePages [([], p.root machine.offset)] + 0) (clearFree free' slabs' k) := by
    refine ⟨free', slabs', tables, targets machine.offset k₀ (runs []), ?_, clearFree_words _ _ _⟩
    rw [add_zero, ← Multiset.singleton_add, add_comm] at clear
    rw [add_zero]
    exact clear
  refine ⟨clearFree free' slabs' k, p, ⟨heap, ?_, ?_, ?_⟩, ⟨free', clear.heap.list, by omega⟩, ?_, ?_⟩
  · exact Tree.single (direct.usable.aligned _ rootPage) empty
  · intro page small present
    rw [← Pagemap.root, absent page small] at present
    exact absurd present (by decide)
  · intro page small _ _ present
    rw [← Pagemap.root, absent page small] at present
    exact absurd present (by decide)
  · rw [clearFree, regions]
    exact machine_room base length end_
  · intro virt low
    rw [translate, ← Pagemap.root, absent _ (pageIndex_user low).2]
    rfl

end Nyaux.Mm
