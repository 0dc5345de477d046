import Nyaux.Mm.RegionInv

/-! `vmm_init`: the kernel's pagemap and its first two regions. -/

namespace Nyaux.Mm

open Word Memory Paging

def directOffsets (e : MemmapEntry) : List Nat :=
  match mappedLength e with
  | some length => pageOffsets length
  | none => []

/-- `hhdm_pages` after one loop, and after the entries. -/
def hhdmCount (offsets : List Nat) (hhdmPages : Nat) : Nat :=
  offsets.foldl (fun n j => if j < 0x100000000 then add64 n 0x1000 else n) hhdmPages

def entriesCount (entries : List MemmapEntry) (hhdmPages : Nat) : Nat :=
  entries.foldl (fun n e => hhdmCount (directOffsets e) n) hhdmPages

/-- `hhdm_pages` at the end of `vmm_init`. -/
def hhdmPagesOf (entries : List MemmapEntry) : Nat :=
  hhdmCount (pageOffsets 0x100000000) (entriesCount entries 0)

/-- The `map` calls of the loops: addresses and the physical addresses they are mapped to. -/
def imageMaps (image : KernelImage) (offsets : List Nat) : List (Nat × Nat) :=
  offsets.map fun i => (add64 image.virtualBase i, add64 image.physicalBase i)

def directMaps (offset base : Nat) (offsets : List Nat) : List (Nat × Nat) :=
  offsets.map fun j => (add64 offset (add64 base j), add64 base j)

def entryMaps (offset : Nat) (entries : List MemmapEntry) : List (Nat × Nat) :=
  entries.flatMap fun e => directMaps offset e.base (directOffsets e)

def hhdmMaps (offset : Nat) (entries : List MemmapEntry) : List (Nat × Nat) :=
  entryMaps offset entries ++ directMaps offset 0 (pageOffsets 0x100000000)

/-- All of `vmm_init`, in order. -/
def bootMaps (offset : Nat) (entries : List MemmapEntry) (image : KernelImage) :
    List (Nat × Nat) :=
  imageMaps image (pageOffsets (alignUp image.size 4096)) ++ hhdmMaps offset entries

def mapAll (offset : Nat) : List (Nat × Nat) → Kernel → Except Stop Kernel
  | [], k => .ok k
  | (virt, phys) :: rest, k => do
      let k ← map offset (k.root offset) virt phys presentRw k
      mapAll offset rest k

def lastPhys : List (Nat × Nat) → Nat → Option Nat
  | [], _ => none
  | (virt, phys) :: rest, page =>
      (lastPhys rest page).or (if pageIndex virt = page then some phys else none)

/-- The entry of a page after `vmm_init`. -/
def bootEntry (offset : Nat) (entries : List MemmapEntry) (image : KernelImage) (page : Nat) :
    Nat :=
  match lastPhys (bootMaps offset entries image) page with
  | some phys => phys ||| presentRw
  | none => 0

section Counts

theorem hhdmCount_aligned (offsets : List Nat) {n : Nat} (aligned : 4096 ∣ n) :
    4096 ∣ hhdmCount offsets n := by
  induction offsets generalizing n with
  | nil => exact aligned
  | cons j rest ih =>
      rw [hhdmCount, List.foldl_cons]
      apply ih
      split
      · unfold add64
        omega
      · exact aligned

theorem entriesCount_aligned (entries : List MemmapEntry) {n : Nat} (aligned : 4096 ∣ n) :
    4096 ∣ entriesCount entries n := by
  induction entries generalizing n with
  | nil => exact aligned
  | cons e rest ih =>
      rw [entriesCount, List.foldl_cons]
      exact ih (hhdmCount_aligned _ aligned)

theorem hhdmPagesOf_aligned (entries : List MemmapEntry) : 4096 ∣ hhdmPagesOf entries :=
  hhdmCount_aligned _ (entriesCount_aligned entries (Nat.dvd_zero 4096))

theorem hhdmCount_pageOffsets (length : Nat) {n : Nat} (word : n < 2 ^ 64) :
    hhdmCount (pageOffsets length) n = (n + min ((length + 4095) / 4096) (2 ^ 20) * 4096) % 2 ^ 64 := by
  rw [pageOffsets]
  generalize (length + 4095) / 4096 = count
  induction count with
  | zero =>
      simp only [hhdmCount, List.range_zero, List.map_nil, List.foldl_nil]
      omega
  | succ count ih =>
      rw [hhdmCount] at ih ⊢
      rw [List.range_succ, List.map_append, List.foldl_append, ih, List.map_singleton,
        List.foldl_cons, List.foldl_nil]
      split
      · unfold add64
        omega
      · omega

theorem presentRw_bits : FlagBits presentRw := ⟨by decide, by decide⟩

theorem directOffsets_type {e : MemmapEntry} {j : Nat} (member : j ∈ directOffsets e) :
    e.type ≠ .badMemory := by
  intro bad
  simp [directOffsets, mappedLength, bad] at member

theorem mappedLength_type {e : MemmapEntry} {length : Nat} (mapped : mappedLength e = some length) :
    e.type ≠ .badMemory := by
  intro bad
  rw [mappedLength, bad] at mapped
  cases mapped

theorem mappedLength_le {e : MemmapEntry} {length : Nat} (plain : e.length ≤ 2 ^ 64 - 4096)
    (mapped : mappedLength e = some length) : length ≤ 2 ^ 64 - 4096 := by
  have rounded : alignUp e.length 4096 = (e.length + 4095) / 4096 * 4096 :=
    alignUp_page_of_le plain
  unfold mappedLength at mapped
  cases kind : e.type <;> simp only [kind, Option.some.injEq, reduceCtorEq] at mapped <;> omega

theorem directOffsets_lt {e : MemmapEntry} {j : Nat} (plain : e.length ≤ 2 ^ 64 - 4096)
    (member : j ∈ directOffsets e) : j < e.length ∧ 4096 ∣ j := by
  have rounded : alignUp e.length 4096 = (e.length + 4095) / 4096 * 4096 :=
    alignUp_page_of_le plain
  unfold directOffsets mappedLength at member
  cases type : e.type <;> simp only [type, mem_pageOffsets, List.not_mem_nil] at member <;>
    exact ⟨by omega, by omega⟩

theorem mem_directOffsets {e : MemmapEntry} {j : Nat} (plain : e.length ≤ 2 ^ 64 - 4096)
    (type : e.type ≠ .badMemory) (inside : j < e.length) (aligned : 4096 ∣ j) :
    j ∈ directOffsets e := by
  have rounded : alignUp e.length 4096 = (e.length + 4095) / 4096 * 4096 :=
    alignUp_page_of_le plain
  unfold directOffsets mappedLength
  cases kind : e.type <;> simp only [kind, mem_pageOffsets, ne_eq, not_true_eq_false] at type ⊢ <;>
    exact ⟨by omega, aligned⟩

end Counts

section LastPhys

theorem lastPhys_append (left right : List (Nat × Nat)) (page : Nat) :
    lastPhys (left ++ right) page = (lastPhys right page).or (lastPhys left page) := by
  induction left with
  | nil => simp [lastPhys]
  | cons m rest ih =>
      rw [List.cons_append, lastPhys, ih, Option.or_assoc]
      rfl

theorem lastPhys_mem {maps : List (Nat × Nat)} {page phys : Nat}
    (found : lastPhys maps page = some phys) :
    ∃ virt, (virt, phys) ∈ maps ∧ pageIndex virt = page := by
  induction maps with
  | nil => cases found
  | cons m rest ih =>
      rw [lastPhys] at found
      cases later : lastPhys rest page with
      | some other =>
          rw [later, Option.some_or] at found
          obtain rfl := Option.some.inj found
          obtain ⟨virt, member, same⟩ := ih later
          exact ⟨virt, List.mem_cons_of_mem _ member, same⟩
      | none =>
          rw [later, Option.none_or] at found
          by_cases same : pageIndex m.1 = page
          · rw [if_pos same] at found
            obtain rfl := Option.some.inj found
            exact ⟨m.1, List.mem_cons_self, same⟩
          · rw [if_neg same] at found
            cases found

theorem lastPhys_ne_none {maps : List (Nat × Nat)} {m : Nat × Nat} (member : m ∈ maps) :
    ∃ phys, lastPhys maps (pageIndex m.1) = some phys := by
  induction maps with
  | nil => cases member
  | cons head rest ih =>
      rw [lastPhys]
      rcases List.mem_cons.mp member with rfl | later
      · cases lastPhys rest (pageIndex m.1) with
        | some phys => exact ⟨phys, rfl⟩
        | none => exact ⟨m.2, by rw [Option.none_or, if_pos rfl]⟩
      · obtain ⟨phys, found⟩ := ih later
        exact ⟨phys, by rw [found, Option.some_or]⟩

theorem lastPhys_eq_none {maps : List (Nat × Nat)} {page : Nat}
    (missing : ∀ m ∈ maps, pageIndex m.1 ≠ page) : lastPhys maps page = none := by
  cases found : lastPhys maps page with
  | none => rfl
  | some phys =>
      obtain ⟨virt, member, same⟩ := lastPhys_mem found
      exact absurd same (missing _ member)

theorem direct_pageIndex {offset x y : Nat} (aligned : 4096 ∣ offset) (boundX : x < 2 ^ 47)
    (boundY : y < 2 ^ 47) :
    pageIndex (add64 offset x) = pageIndex (add64 offset y) ↔ x / 4096 = y / 4096 := by
  unfold pageIndex add64
  omega

theorem mem_directMaps {offset base x : Nat} {m : Nat × Nat} {offsets : List Nat}
    (bounds : ∀ j ∈ offsets, base + j < 2 ^ 47) :
    (add64 offset x, x) = m ∧ (∃ j ∈ offsets, x = base + j) → m ∈ directMaps offset base offsets := by
  rintro ⟨rfl, j, member, rfl⟩
  refine List.mem_map.mpr ⟨j, member, ?_⟩
  rw [add64_of_lt (show base + j < 2 ^ 64 by have := bounds j member; omega)]

theorem directMaps_shape {offset base : Nat} {m : Nat × Nat} {offsets : List Nat}
    (bounds : ∀ j ∈ offsets, base + j < 2 ^ 47) (member : m ∈ directMaps offset base offsets) :
    m.1 = add64 offset m.2 ∧ m.2 < 2 ^ 47 ∧ ∃ j ∈ offsets, m.2 = base + j := by
  obtain ⟨j, inOffsets, rfl⟩ := List.mem_map.mp member
  have bound := bounds j inOffsets
  have plain : add64 base j = base + j := add64_of_lt (by omega)
  exact ⟨rfl, by dsimp only; omega, j, inOffsets, plain⟩

end LastPhys

section Loops

variable {offset : Nat} {pages : List Nat} {k : Kernel} {free : List Nat} {slabs : List Slab}
  {tables : List (List Nat × Nat)} {data : Multiset Nat}

theorem mapAll_append (left right : List (Nat × Nat)) (k : Kernel) :
    mapAll offset (left ++ right) k = (do
      let k ← mapAll offset left k
      mapAll offset right k) := by
  induction left generalizing k with
  | nil => rfl
  | cons m rest ih =>
      rw [List.cons_append, mapAll, mapAll]
      cases map offset (k.root offset) m.1 m.2 presentRw k with
      | error stop => rfl
      | ok k => rw [ok_bind, ok_bind, ih]

theorem mapImage_eq (image : KernelImage) (offsets : List Nat) (k : Kernel) :
    mapImage offset image offsets k = mapAll offset (imageMaps image offsets) k := by
  induction offsets generalizing k with
  | nil => rfl
  | cons i rest ih =>
      have same : mapAll offset (imageMaps image (i :: rest)) k = (do
          let k ← map offset (k.root offset) (add64 image.virtualBase i)
            (add64 image.physicalBase i) presentRw k
          mapAll offset (imageMaps image rest) k) := rfl
      rw [mapImage, same, ← Kernel.root]
      cases map offset (k.root offset) (add64 image.virtualBase i) (add64 image.physicalBase i)
          presentRw k with
      | error stop => rfl
      | ok k => rw [ok_bind, ok_bind, ih]

theorem mapDirect_eq (base : Nat) (offsets : List Nat) (k : Kernel) (hhdmPages : Nat) :
    mapDirect offset base offsets (k, hhdmPages) = (do
      let k ← mapAll offset (directMaps offset base offsets) k
      .ok (k, hhdmCount offsets hhdmPages)) := by
  induction offsets generalizing k hhdmPages with
  | nil => rfl
  | cons j rest ih =>
      have same : mapAll offset (directMaps offset base (j :: rest)) k = (do
          let k ← map offset (k.root offset) (add64 offset (add64 base j)) (add64 base j)
            presentRw k
          mapAll offset (directMaps offset base rest) k) := rfl
      rw [mapDirect, same, ← Kernel.root]
      cases map offset (k.root offset) (add64 offset (add64 base j)) (add64 base j) presentRw k with
      | error stop => rfl
      | ok k =>
          rw [ok_bind, ok_bind, ih]
          rfl

theorem mapEntries_eq (entries : List MemmapEntry)
    (plain : ∀ e ∈ entries, ∀ length, mappedLength e = some length → length ≤ 2 ^ 64 - 4096)
    (k : Kernel) (hhdmPages : Nat) :
    mapEntries offset entries (k, hhdmPages) = (do
      let k ← mapAll offset (entryMaps offset entries) k
      .ok (k, entriesCount entries hhdmPages)) := by
  induction entries generalizing k hhdmPages with
  | nil => rfl
  | cons e rest ih =>
      have later := fun e' (member : e' ∈ rest) => plain e' (List.mem_cons_of_mem _ member)
      have counted : entriesCount (e :: rest) hhdmPages =
          entriesCount rest (hhdmCount (directOffsets e) hhdmPages) := List.foldl_cons ..
      have maps : entryMaps offset (e :: rest) =
          directMaps offset e.base (directOffsets e) ++ entryMaps offset rest :=
        List.flatMap_cons
      rw [maps, mapAll_append, counted]
      cases mapped : mappedLength e with
      | none =>
          have offsets : directOffsets e = [] := by rw [directOffsets, mapped]
          rw [mapEntries, mapped]
          dsimp only
          rw [ih later, offsets]
          rfl
      | some length =>
          have offsets : directOffsets e = pageOffsets length := by rw [directOffsets, mapped]
          rw [mapEntries, mapped]
          dsimp only
          rw [if_pos (plain e List.mem_cons_self length mapped), ← offsets, mapDirect_eq]
          cases mapAll offset (directMaps offset e.base (directOffsets e)) k with
          | error stop => rfl
          | ok k => rw [ok_bind, ok_bind, ok_bind, ih later]

theorem mapAll_spec (direct : Direct offset pages) (maps : List (Nat × Nat))
    (inv : KernelPaging offset pages k free slabs tables data) {paths : List Nat → Prop}
    (known : Known paths tables) (covers : ∀ m ∈ maps, Covers paths (pageIndex m.1)) :
    (Exhausted pages slabs paths data ∧ mapAll offset maps k = .error .outOfMemory) ∨
      ∃ k' free' tables', mapAll offset maps k = .ok k' ∧
        KernelPaging offset pages k' free' slabs tables' data ∧ Known paths tables' ∧
        ∀ page < 2 ^ 36, k'.leaf offset page =
          match lastPhys maps page with
          | some phys => phys ||| presentRw
          | none => k.leaf offset page := by
  induction maps generalizing k free tables with
  | nil => exact Or.inr ⟨k, free, tables, rfl, inv, known, fun page _ => rfl⟩
  | cons m rest ih =>
      rcases map_kernel inv direct presentRw_bits m.1 m.2 known (covers m List.mem_cons_self) with
        ⟨-, exhausted, stopped⟩ | ⟨k₁, free₁, tables₁, ran₁, inv₁, known₁, leaf₁, -⟩
      · exact Or.inl ⟨exhausted, by rw [mapAll, stopped, error_bind]⟩
      rcases ih inv₁ known₁ fun m member => covers m (List.mem_cons_of_mem _ member) with
        ⟨exhausted, stopped⟩ | ⟨k', free', tables', ran, inv', known', leaf'⟩
      · exact Or.inl ⟨exhausted, by rw [mapAll, ran₁, ok_bind, stopped]⟩
      · refine Or.inr ⟨k', free', tables', by rw [mapAll, ran₁, ok_bind, ran], inv', known', ?_⟩
        intro page bound
        rw [leaf' page bound, lastPhys]
        cases lastPhys rest page with
        | some phys => rfl
        | none =>
            rw [Option.none_or, leaf₁ page bound]
            by_cases same : page = pageIndex m.1
            · rw [if_pos same, if_pos same.symm]
            · rw [if_neg same, if_neg (Ne.symm same)]

theorem KernelPaging.start {page : Nat} (heap : HeapInv pages 8 k (page :: free) slabs 0)
    (direct : Direct offset pages) :
    KernelPaging offset pages
        { k with head := k.mem page, pml4 := page - offset, mem := zeroPage k.mem page }
        free slabs [([], page)] 0 ∧
      ∀ virtual, Kernel.leaf offset
        { k with head := k.mem page, pml4 := page - offset, mem := zeroPage k.mem page } virtual =
          0 := by
  obtain ⟨-, taken⟩ := heap.take direct
  have inPages : page ∈ pages := heap.mem_pages (Or.inl List.mem_cons_self)
  have aligned := direct.usable.aligned page inPages
  obtain ⟨-, -, -, -, back⟩ := direct.phys_page inPages
  have empty : ∀ i < 512, zeroPage k.mem page (slot page i) = 0 :=
    fun i bound => zeroPage_inside (slot_inPage bound)
  have absent : ∀ i < 512, ¬ Present (zeroPage k.mem page (slot page i)) := by
    intro i bound
    rw [empty i bound]
    decide
  have tree : Tree offset (zeroPage k.mem page) page 512 [([], page)] := by
    refine ⟨List.mem_singleton_self _, by simp, by simp, by simpa using aligned,
      by simpa using ⟨by simp, by simp, by simp⟩, ?_, ?_⟩
    · intro path t i member ok present
      obtain ⟨rfl, rfl⟩ := Prod.mk.inj (List.mem_singleton.mp member)
      exact absurd present (absent i ok.head)
    · intro i path c member
      cases (Prod.mk.inj (List.mem_singleton.mp member)).1
  obtain ⟨-, -, -, elsewhere⟩ := taken.disjoint direct.usable
  have notOwned := elsewhere page (Multiset.mem_cons_self page 0)
  have cleared : HeapInv pages 8 { k with head := k.mem page, mem := zeroPage k.mem page } free
      slabs (page ::ₘ 0) := by
    apply taken.frame
    intro p owned
    apply samePage_zeroPage aligned (direct.usable.aligned p (taken.mem_pages (by tauto)))
    rintro rfl
    tauto
  have root : Kernel.root offset
      { k with head := k.mem page, pml4 := page - offset, mem := zeroPage k.mem page } = page := back
  refine ⟨⟨⟨cleared.pages, cleared.list, cleared.slab, cleared.count, cleared.caches⟩, ?_⟩, ?_⟩
  · rw [root]
    exact tree
  · intro virtual
    rw [Kernel.leaf, root]
    apply tree.leafEntry_of_not_mem (under_all virtual)
    intro t member
    cases (Prod.mk.inj (List.mem_singleton.mp member)).1

end Loops

theorem pages_direct (boot : Limine) : Direct boot.offset boot.pages := by
  have high := boot.offset_high
  have bounds : ∀ p ∈ boot.pages, boot.offset < p ∧ p < boot.offset + 2 ^ 47 := by
    intro p member
    obtain ⟨e, inE, inside⟩ := List.mem_flatMap.mp member
    obtain ⟨lower, upper, -⟩ := (mem_entryPages boot inE p).mp inside
    obtain ⟨listed, type⟩ := List.mem_filter.mp inE
    have usable := of_decide_eq_true type
    have room := boot.usable_room e listed usable
    have positive := boot.not_zero e listed usable
    omega
  exact ⟨pages_usable boot, boot.offset_aligned, fun p member => (bounds p member).1,
    fun p member => (bounds p member).2⟩

section Direct

variable (boot : Limine) (image : KernelImage)

theorem entry_room {e : MemmapEntry} (member : e ∈ boot.entries) (type : e.type ≠ .badMemory) :
    e.base + e.length ≤ 2 ^ 47 := by
  have room := boot.room e member type
  have high := boot.offset_high
  omega

theorem entry_bounds {e : MemmapEntry} (member : e ∈ boot.entries) :
    ∀ j ∈ directOffsets e, e.base + j < 2 ^ 47 := by
  intro j inOffsets
  have room := entry_room boot member (directOffsets_type inOffsets)
  have inside := (directOffsets_lt (by omega) inOffsets).1
  omega

theorem low_bounds : ∀ j ∈ pageOffsets 0x100000000, 0 + j < 2 ^ 47 := by
  intro j member
  have inside := (mem_pageOffsets.mp member).1
  omega

theorem hhdmMaps_shape {m : Nat × Nat} (member : m ∈ hhdmMaps boot.offset boot.entries) :
    m.1 = add64 boot.offset m.2 ∧ m.2 < 2 ^ 47 := by
  rcases List.mem_append.mp member with entry | low
  · obtain ⟨e, listed, inE⟩ := List.mem_flatMap.mp entry
    obtain ⟨place, bound, -⟩ := directMaps_shape (entry_bounds boot listed) inE
    exact ⟨place, bound⟩
  · obtain ⟨place, bound, -⟩ := directMaps_shape low_bounds low
    exact ⟨place, bound⟩

theorem lastPhys_hhdm {x : Nat} (bound : x < 2 ^ 47)
    (mapped : ∃ y, (add64 boot.offset y, y) ∈ hhdmMaps boot.offset boot.entries ∧
      y / 4096 = x / 4096) :
    ∃ z, lastPhys (bootMaps boot.offset boot.entries image) (pageIndex (add64 boot.offset x)) =
        some z ∧ z / 4096 = x / 4096 ∧
      (add64 boot.offset z, z) ∈ hhdmMaps boot.offset boot.entries ∧
      lastPhys (hhdmMaps boot.offset boot.entries) (pageIndex (add64 boot.offset x)) = some z := by
  obtain ⟨y, member, same⟩ := mapped
  have boundY := (hhdmMaps_shape boot member).2
  have index := (direct_pageIndex boot.offset_aligned boundY bound).mpr same
  obtain ⟨z, found⟩ := lastPhys_ne_none member
  dsimp only at found
  rw [index] at found
  obtain ⟨virt, listed, page⟩ := lastPhys_mem found
  obtain ⟨place, boundZ⟩ := hhdmMaps_shape boot listed
  dsimp only at place boundZ
  rw [place] at page listed
  refine ⟨z, ?_, (direct_pageIndex boot.offset_aligned boundZ bound).mp page, listed, found⟩
  rw [bootMaps, lastPhys_append, found, Option.some_or]

end Direct

/-- The two nodes of `vmm_region_setup`. -/
def setupNodes (first last : VmmRegion) : Multiset (Nat × Nat) :=
  {(first.addr, cacheFor 32), (last.addr, cacheFor 32)}

/-- Enough paths for everything `vmm_init` maps. -/
def BootPaths (boot : Limine) (image : KernelImage) (paths : List Nat → Prop) : Prop :=
  paths [] ∧ ∀ m ∈ bootMaps boot.offset boot.entries image, Covers paths (pageIndex m.1)

/-- `vmm_init` as a list of mappings followed by `vmm_region_setup`. -/
theorem vmmInit_eq (boot : Limine) (image : KernelImage) {k k₀ : Kernel} {page : Nat}
    (taken : pmmAllocSinglep boot.offset k = .ok (page - boot.offset, k₀))
    (back : add64 (page - boot.offset) boot.offset = page) :
    vmmInit boot.offset boot.entries image k = (do
      let k ← mapAll boot.offset (bootMaps boot.offset boot.entries image)
        { k₀ with pml4 := page - boot.offset, mem := zeroPage k₀.mem page }
      vmmRegionSetup boot.offset image (hhdmPagesOf boot.entries) k) := by
  have plain : ∀ e ∈ boot.entries, ∀ length, mappedLength e = some length →
      length ≤ 2 ^ 64 - 4096 := by
    intro e member length mapped
    have room := entry_room boot member (mappedLength_type mapped)
    exact mappedLength_le (by omega) mapped
  rw [vmmInit, taken, ok_bind]
  dsimp only
  rw [back, mapImage_eq, bootMaps, hhdmMaps, hhdmPagesOf, mapAll_append]
  generalize pageOffsets 0x100000000 = low
  cases mapAll boot.offset (imageMaps image (pageOffsets (alignUp image.size 4096)))
      { k₀ with pml4 := page - boot.offset, mem := zeroPage k₀.mem page } with
  | error stop => rfl
  | ok k₁ =>
      rw [ok_bind, ok_bind, mapEntries_eq boot.entries plain, mapAll_append]
      cases mapAll boot.offset (entryMaps boot.offset boot.entries) k₁ with
      | error stop => rfl
      | ok k₂ =>
          rw [ok_bind, ok_bind, ok_bind, mapDirect_eq]
          cases mapAll boot.offset (directMaps boot.offset 0 low) k₂ with
          | error stop => rfl
          | ok k₃ => rfl

/-- `vmm_init` stops only for want of a page. After it the entries are those of `bootEntry`
and the region list has its two ends. -/
theorem vmmInit_spec (boot : Limine) (image : KernelImage) {k : Kernel} {free : List Nat}
    {slabs : List Slab} (heap : HeapInv boot.pages 8 k free slabs 0)
    (live : liveObjects slabs = 0) {paths : List Nat → Prop}
    (covers : BootPaths boot image paths) :
    ((∃ slabs', slabs'.length ≤ slabs.length + 1 ∧ Exhausted boot.pages slabs' paths 0) ∧
        vmmInit boot.offset boot.entries image k = .error .outOfMemory) ∨
      ∃ k' free' slabs' tables first last,
        vmmInit boot.offset boot.entries image k = .ok k' ∧
        RegionInv boot.offset boot.pages (bootEntry boot.offset boot.entries image) first last k' []
          free' slabs' tables (setupNodes first last) 0 ∧
        Ends boot.offset (bootEntry boot.offset boot.entries image) first ∧
        first.base = boot.offset ∧ first.length = hhdmPagesOf boot.entries ∧
        last.base = image.virtualBase ∧ last.length = image.size ∧
        slabs'.length ≤ slabs.length + 2 ∧ Known paths tables := by
  have direct := pages_direct boot
  have high := boot.offset_high
  cases free with
  | nil =>
      refine Or.inl ⟨⟨slabs, Nat.le_succ _, [], by simp [Known], by simp, ?_⟩, ?_⟩
      · have count := congrArg Multiset.card heap.pages
        simp only [Multiset.card_add, Multiset.coe_card, slabPages, List.length_map,
          List.length_nil, Multiset.card_zero] at count
        simp only [List.length_nil, Multiset.card_zero]
        omega
      · rw [vmmInit, heap.take_none, error_bind]
  | cons page free =>
  obtain ⟨taken, -⟩ := heap.take direct
  obtain ⟨-, -, -, -, back⟩ :=
    direct.phys_page (heap.mem_pages (Or.inl (List.mem_cons_self : page ∈ page :: free)))
  obtain ⟨inv₀, blank₀⟩ := KernelPaging.start heap direct
  have known₀ : Known paths [([], page)] := by
    intro x member
    rw [List.mem_singleton.mp member]
    exact covers.1
  have counted := hhdmPagesOf_aligned boot.entries
  rw [vmmInit_eq boot image taken back]
  -- the count is a large closed term that nothing below looks into
  generalize hhdmPagesOf boot.entries = hhdmPages at counted ⊢
  rcases mapAll_spec direct _ inv₀ known₀ covers.2 with
    ⟨exhausted, stopped⟩ | ⟨k₃, free₃, tables₃, ran₃, inv₃, known₃, leaf₃⟩
  · exact Or.inl ⟨⟨slabs, Nat.le_succ _, exhausted⟩, by rw [stopped, error_bind]⟩
  rw [ran₃, ok_bind]
  rcases allocNode_spec inv₃ direct.usable with
    ⟨rfl, stopped⟩ | ⟨node, k₄, free₄, slabs₄, ran₄, inv₄, live₄, entries₄, vars₄, taken₄, -⟩
  · exact Or.inl ⟨⟨slabs, Nat.le_succ _, inv₃.exhausted known₃⟩,
      by rw [vmmRegionSetup, stopped, error_bind]⟩
  have total₃ := inv₃.total
  have total₄ := inv₄.total
  have few₄ := taken₄.few
  rcases allocNode_spec inv₄ direct.usable with
    ⟨rfl, stopped⟩ |
    ⟨kernelRegion, k₅, free₅, slabs₅, ran₅, inv₅, live₅, entries₅, vars₅, taken₅, -⟩
  · refine Or.inl ⟨⟨slabs₄, by omega, inv₄.exhausted known₃⟩, ?_⟩
    rw [vmmRegionSetup, ran₄, ok_bind]
    dsimp only
    rw [stopped, error_bind]
  have total₅ := inv₅.total
  have few₅ := taken₅.few
  let first : VmmRegion := ⟨node, boot.offset, hhdmPages⟩
  let last : VmmRegion := ⟨kernelRegion, image.virtualBase, image.size⟩
  let k' : Kernel := { k₅ with regions := [first, last] }
  have leaf : ∀ page < 2 ^ 36, k'.leaf boot.offset page =
      bootEntry boot.offset boot.entries image page := by
    intro virtual bound
    have kept : k'.leaf boot.offset virtual = k₃.leaf boot.offset virtual :=
      (entries₅.kernel_leaf vars₅ virtual).trans (entries₄.kernel_leaf vars₄ virtual)
    rw [kept, leaf₃ virtual bound, bootEntry]
    cases lastPhys (bootMaps boot.offset boot.entries image) virtual with
    | some phys => rfl
    | none => exact blank₀ virtual
  have self : add64 boot.offset 0 = boot.offset := add64_of_lt boot.offset_word
  have layout : Layout first.stop first [] last := by
    refine ⟨rfl, ?_, List.pairwise_singleton _ _⟩
    intro r member
    rw [List.mem_singleton.mp member]
    exact image.word
  have inv : RegionInv boot.offset boot.pages (bootEntry boot.offset boot.entries image) first last
      k' [] free₅ slabs₅ tables₃ (setupNodes first last) 0 := by
    have paging : KernelPaging boot.offset boot.pages k' free₅ slabs₅ tables₃ 0 :=
      inv₅.setRegions [first, last]
    have nodes : liveObjects slabs₅ = setupNodes first last := by
      rw [live₅, live₄, live]
      exact Multiset.cons_swap _ _ _
    exact ⟨paging, nodes, rfl, layout, by simp, by simp [runs], fun page bound _ => leaf page bound⟩
  have ends : Ends boot.offset (bootEntry boot.offset boot.entries image) first := by
    refine ⟨rfl, ?_, ?_, ?_⟩
    · have aligned := boot.offset_aligned
      change 4096 ∣ add64 boot.offset hhdmPages
      unfold add64
      omega
    · have low : (add64 boot.offset 0, 0) ∈ hhdmMaps boot.offset boot.entries := by
        apply List.mem_append_right
        apply mem_directMaps low_bounds
        exact ⟨rfl, 0, mem_pageOffsets.mpr ⟨by omega, Nat.dvd_zero _⟩, rfl⟩
      obtain ⟨z, found, -⟩ := lastPhys_hhdm boot image (Nat.two_pow_pos 47) ⟨0, low, rfl⟩
      rw [self] at found
      rw [bootEntry, found]
      exact present_or presentRw_bits z
    · intro virtual _ absent
      rw [bootEntry] at absent ⊢
      cases found : lastPhys (bootMaps boot.offset boot.entries image) virtual with
      | some phys =>
          rw [found] at absent
          exact absurd (present_or presentRw_bits phys) absent
      | none => rfl
  have ran : vmmRegionSetup boot.offset image hhdmPages k₃ = .ok k' := by
    rw [vmmRegionSetup, ran₄, ok_bind]
    dsimp only
    rw [ran₅, ok_bind]
  exact Or.inr ⟨k', free₅, slabs₅, tables₃, first, last, ran, inv, ends, rfl, rfl, rfl, rfl,
    by omega, known₃⟩

theorem booted_inv {boot : Limine} {image : KernelImage} {mem : Mem} {k₀ k : Kernel}
    (pmm : pmmInit boot mem = .ok k₀) (vmm : vmmInit boot.offset boot.entries image k₀ = .ok k) :
    ∃ first last free slabs tables,
      RegionInv boot.offset boot.pages (bootEntry boot.offset boot.entries image) first last k []
        free slabs tables (setupNodes first last) 0 ∧
      Ends boot.offset (bootEntry boot.offset boot.entries image) first ∧
      first.base = boot.offset ∧ first.length = hhdmPagesOf boot.entries ∧
      last.base = image.virtualBase ∧ last.length = image.size := by
  rcases pmmInit_spec boot mem with ⟨-, stopped⟩ | ⟨k₁, free, slabs, ran, heap, -, live, -, -⟩
  · rw [stopped] at pmm
    cases pmm
  obtain rfl := Except.ok.inj (ran.symm.trans pmm)
  have anywhere : BootPaths boot image fun _ => True := ⟨trivial, fun _ _ _ _ => trivial⟩
  rcases vmmInit_spec boot image heap live anywhere with
    ⟨-, stopped⟩ | ⟨k', free', slabs', tables, first, last, ran', inv, ends, base, length, final,
      size, -⟩
  · rw [stopped] at vmm
    cases vmm
  obtain rfl := Except.ok.inj (ran'.symm.trans vmm)
  exact ⟨first, last, free', slabs', tables, inv, ends, base, length, final, size⟩

/-- Boot runs to its end when there are pages for the slabs and for every table that may be
needed, and leaves the rest on the free list. -/
theorem boot_of_enough (boot : Limine) (image : KernelImage) (mem : Mem) (list : List (List Nat))
    (covers : BootPaths boot image fun path => path ∈ list)
    (enough : list.length + 10 < boot.pages.length) :
    ∃ k₀ k free slabs tables first last, pmmInit boot mem = .ok k₀ ∧
      vmmInit boot.offset boot.entries image k₀ = .ok k ∧
      RegionInv boot.offset boot.pages (bootEntry boot.offset boot.entries image) first last k []
        free slabs tables (setupNodes first last) 0 ∧
      Ends boot.offset (bootEntry boot.offset boot.entries image) first ∧
      first.base = boot.offset ∧ first.length = hhdmPagesOf boot.entries ∧
      last.base = image.virtualBase ∧ last.length = image.size ∧
      boot.pages.length ≤ free.length + list.length + 10 ∧
      Known (fun path => path ∈ list) tables := by
  rcases pmmInit_spec boot mem with ⟨few, -⟩ | ⟨k₀, free₀, slabs₀, ran₀, heap, more, live, -, -⟩
  · omega
  have count := congrArg Multiset.card heap.pages
  simp only [Multiset.card_add, Multiset.coe_card, slabPages, List.length_map,
    Multiset.card_zero] at count
  rcases vmmInit_spec boot image heap live covers with
    ⟨⟨slabs', grown, exhausted⟩, -⟩ |
      ⟨k, free, slabs, tables, first, last, ran, inv, ends, base, length, end_, size, grown, known⟩
  · refine absurd exhausted (not_exhausted list (fun path member => member) ?_)
    rw [Multiset.card_zero]
    omega
  · have total := inv.paging.total
    have subset : tables.map Prod.fst ⊆ list := by
      intro path member
      obtain ⟨x, inTables, rfl⟩ := List.mem_map.mp member
      exact known x inTables
    have few := (inv.paging.tree.paths.subperm subset).length_le
    rw [List.length_map] at few
    simp only [runs, targets, List.flatMap_nil, List.map_nil, Multiset.coe_nil, add_zero,
      Multiset.card_zero] at total
    exact ⟨k₀, k, free, slabs, tables, first, last, ran₀, ran, inv, ends, base, length, end_, size,
      by omega, known⟩

def machine : Limine where
  offset := 0xffff800000000000
  entries := [⟨0x1000, 0x2000000, .usable⟩]
  offset_aligned := upperHalf_aligned
  offset_high := upperHalf_high
  offset_word := upperHalf_word
  nonempty := by decide
  aligned := by decide
  not_zero := by decide
  room := by decide
  disjoint := by decide

def machineImage : KernelImage where
  virtualBase := 0xffffffff80000000
  physicalBase := 0x10000000
  size := 0x1000
  word := by decide

def machinePaths : List (List Nat) :=
  [[], [256], [511], [510, 511], [0, 510, 511]] ++ (List.range 4).map (fun i => [i, 256]) ++
    (List.range 2048).map fun n => [n % 512, n / 512, 256]

theorem machine_pages : machine.pages.length = 8192 := by
  simp [Limine.pages, Limine.usable, machine, entryPages, pageOffsets]

theorem machine_hhdmPages : hhdmPagesOf machine.entries = 2 ^ 32 + 2 ^ 25 := by
  have only (e : MemmapEntry) : entriesCount [e] 0 = hhdmCount (directOffsets e) 0 := rfl
  have entry : entriesCount machine.entries 0 = 2 ^ 25 := by
    rw [machine, only]
    simp only [directOffsets, mappedLength]
    rw [hhdmCount_pageOffsets _ (Nat.two_pow_pos 64)]
    decide
  rw [hhdmPagesOf, entry, hhdmCount_pageOffsets _ (by omega)]
  decide

theorem low_hhdmMaps (boot : Limine) (low : ∀ e ∈ boot.entries, e.base + e.length ≤ 2 ^ 32)
    {m : Nat × Nat} (member : m ∈ hhdmMaps boot.offset boot.entries) :
    m.1 = add64 boot.offset m.2 ∧ m.2 < 2 ^ 32 := by
  rcases List.mem_append.mp member with entry | sweep
  · obtain ⟨e, listed, inE⟩ := List.mem_flatMap.mp entry
    obtain ⟨place, -, j, inOffsets, same⟩ := directMaps_shape (entry_bounds boot listed) inE
    have below := low e listed
    have inside := (directOffsets_lt (by omega) inOffsets).1
    exact ⟨place, by omega⟩
  · obtain ⟨place, -, j, inOffsets, same⟩ := directMaps_shape low_bounds sweep
    have inside := (mem_pageOffsets.mp inOffsets).1
    exact ⟨place, by omega⟩

theorem machine_hhdmMaps {m : Nat × Nat} (member : m ∈ hhdmMaps machine.offset machine.entries) :
    m.1 = add64 machine.offset m.2 ∧ m.2 < 2 ^ 32 := low_hhdmMaps machine (by decide) member

theorem machine_imageMaps {m : Nat × Nat}
    (member : m ∈ imageMaps machineImage (pageOffsets (alignUp machineImage.size 4096))) :
    m = (0xffffffff80000000, 0x10000000) := by
  obtain ⟨i, inOffsets, rfl⟩ := List.mem_map.mp member
  have rounded : alignUp machineImage.size 4096 = 4096 := by decide
  rw [rounded, mem_pageOffsets] at inOffsets
  obtain rfl : i = 0 := by omega
  decide

theorem low_covers {x : Nat} (small : x < 2 ^ 32) :
    Covers (fun path => path ∈ machinePaths) (pageIndex (add64 machine.offset x)) := by
  intro path suffix
  have place : leafPath (pageIndex (add64 machine.offset x)) =
      [x / 2 ^ 21 % 512, x / 2 ^ 30, 256] := by
    simp only [leafPath, pageIndex, add64, machine, List.cons.injEq, and_true]
    omega
  rw [place] at suffix
  simp only [List.suffix_cons_iff, List.suffix_nil] at suffix
  simp only [machinePaths, List.mem_append, List.mem_cons, List.mem_map, List.mem_range,
    List.not_mem_nil, or_false]
  rcases suffix with rfl | rfl | rfl | rfl
  · refine Or.inr ⟨x / 2 ^ 21, by omega, ?_⟩
    simp only [List.cons.injEq, and_true, true_and]
    omega
  · exact Or.inl (Or.inr ⟨x / 2 ^ 30, by omega, rfl⟩)
  · simp
  · simp

theorem image_covers {m : Nat × Nat}
    (member : m ∈ imageMaps machineImage (pageOffsets (alignUp machineImage.size 4096))) :
    Covers (fun path => path ∈ machinePaths) (pageIndex m.1) := by
  rw [machine_imageMaps member]
  have place : leafPath (pageIndex 0xffffffff80000000) = [0, 510, 511] := by decide
  intro path suffix
  dsimp only at suffix
  rw [place] at suffix
  simp only [List.suffix_cons_iff, List.suffix_nil] at suffix
  rcases suffix with rfl | rfl | rfl | rfl <;> simp [machinePaths]

theorem machine_covers : BootPaths machine machineImage fun path => path ∈ machinePaths := by
  refine ⟨by simp [machinePaths], ?_⟩
  intro m member
  rcases List.mem_append.mp member with kernel | direct
  · exact image_covers kernel
  · obtain ⟨place, small⟩ := machine_hhdmMaps direct
    rw [place]
    exact low_covers small

end Nyaux.Mm
