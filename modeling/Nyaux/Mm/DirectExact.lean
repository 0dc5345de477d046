import Nyaux.Mm.DirectMap

/-! The entries of the direct map and of the kernel's image after `vmm_init`. -/

namespace Nyaux.Mm

open Word Memory Paging

/-- All bits of an entry but the address that `get_phys_from_entry` reads. -/
def entryFlags (entry : Nat) : Nat := entry &&& not64 0x0007FFFFFFFFF000

/-- Whether an entry's loop maps the page with number `n`. It starts in the page of the base
and maps as many pages as the length has. -/
def CoversPage (n : Nat) (e : MemmapEntry) : Prop :=
  e.type ≠ .badMemory ∧ e.base / 4096 ≤ n ∧ n < e.base / 4096 + (e.length + 4095) / 4096

instance (n : Nat) (e : MemmapEntry) : Decidable (CoversPage n e) :=
  inferInstanceAs (Decidable (_ ∧ _ ∧ _))

/-- The last entry whose loop maps a page. -/
def lastMapping (n : Nat) : List MemmapEntry → Option MemmapEntry
  | [] => none
  | e :: rest => (lastMapping n rest).or (if CoversPage n e then some e else none)

/-- The sweep over the low 4 GiB, as one more entry. -/
def lowEntry : MemmapEntry := ⟨0, 0x100000000, .usable⟩

/-- The kernel's image lies on whole pages, inside the address spaces. -/
structure ImagePlaced (image : KernelImage) : Prop where
  virtual : 4096 ∣ image.virtualBase
  physical : 4096 ∣ image.physicalBase
  virtualEnd : image.virtualBase + image.size ≤ 2 ^ 64
  physicalEnd : image.physicalBase + image.size ≤ 2 ^ 51

/-- The direct map is the identity on whole pages, for reading and writing, and the image's
addresses lead to the image. -/
structure DirectExact (boot : Limine) (image : KernelImage) (k : Kernel) : Prop where
  phys : ∀ p, DirectMapped boot.entries p →
    virtToPhys boot.offset k.mem (k.root boot.offset) (boot.offset + p) = p / 4096 * 4096
  flags : ∀ p, DirectMapped boot.entries p →
    entryFlags (k.leaf boot.offset (pageIndex (boot.offset + p))) = presentRw
  image : ∀ i < image.size,
    virtToPhys boot.offset k.mem (k.root boot.offset) (image.virtualBase + i) + i % 4096 =
      image.physicalBase + i

section Entries

theorem getPhysFromEntry_eq {x : Nat} (bound : x < 2 ^ 51) :
    getPhysFromEntry x = x / 4096 * 4096 :=
  and_high x 12 51 (by decide) bound

theorem entryFlags_eq {x : Nat} (bound : x < 2 ^ 51) : entryFlags x = x % 4096 := by
  have mask : not64 0x0007FFFFFFFFF000 = (2 ^ 12 - 1) ||| (2 ^ 64 - 2 ^ 51) := by decide
  rw [entryFlags, mask, Nat.and_or_distrib_left, Nat.and_two_pow_sub_one_eq_mod,
    and_high x 51 64 (by decide) (by omega), Nat.div_eq_of_lt bound, Nat.zero_mul, Nat.or_zero]

/-- `phys | PRESENT | RW` keeps the page; its flags are exact when `phys` sets no others. -/
theorem or_presentRw (x : Nat) :
    (x ||| presentRw) / 4096 = x / 4096 ∧
      ((x ||| presentRw) % 4096 = presentRw ↔ x % 4096 ≤ presentRw) := by
  have high : (x ||| presentRw) / 2 ^ 12 = x / 2 ^ 12 := by
    rw [Nat.or_div_two_pow, presentRw, Nat.div_eq_of_lt (show 3 < 2 ^ 12 by decide), Nat.or_zero]
  have low : (x ||| presentRw) / 2 ^ 2 = x / 2 ^ 2 := by
    rw [Nat.or_div_two_pow, presentRw, Nat.div_eq_of_lt (show 3 < 2 ^ 2 by decide), Nat.or_zero]
  have bits : (x ||| presentRw) % 2 ^ 2 = presentRw := by
    rw [Nat.or_mod_two_pow, presentRw, Nat.mod_eq_of_lt (show 3 < 2 ^ 2 by decide)]
    have small : x % 2 ^ 2 < 4 := Nat.mod_lt _ (by decide)
    generalize x % 2 ^ 2 = r at small
    revert r
    decide
  unfold presentRw at *
  refine ⟨high, ?_⟩
  omega

end Entries

section LastMapping

variable {offset : Nat} {entries : List MemmapEntry} {n : Nat}

theorem lastPhys_entry {e : MemmapEntry} (aligned : 4096 ∣ offset) (bound : n * 4096 < 2 ^ 47)
    (room : e.type ≠ .badMemory → e.base + e.length ≤ 2 ^ 47) :
    lastPhys (directMaps offset e.base (directOffsets e)) (pageIndex (add64 offset (n * 4096))) =
      if CoversPage n e then some (n * 4096 + e.base % 4096) else none := by
  have bounds : ∀ j ∈ directOffsets e, e.base + j < 2 ^ 47 := by
    intro j inOffsets
    have fits := room (directOffsets_type inOffsets)
    have inside := (directOffsets_lt (by omega) inOffsets).1
    omega
  cases found : lastPhys (directMaps offset e.base (directOffsets e))
      (pageIndex (add64 offset (n * 4096))) with
  | some phys =>
      obtain ⟨virt, member, page⟩ := lastPhys_mem found
      obtain ⟨place, small, j, inOffsets, rfl⟩ := directMaps_shape bounds member
      have type := directOffsets_type inOffsets
      have fits := room type
      obtain ⟨inside, whole⟩ := directOffsets_lt (by omega) inOffsets
      dsimp only at place small
      rw [place, direct_pageIndex aligned small bound, Nat.mul_div_cancel _ (by decide)] at page
      have covers : CoversPage n e := ⟨type, by omega, by omega⟩
      rw [if_pos covers]
      congr 1
      omega
  | none =>
      by_cases covers : CoversPage n e
      · obtain ⟨type, lower, upper⟩ := covers
        have fits := room type
        have inside : (n - e.base / 4096) * 4096 < e.length := by
          clear bound
          omega
        have inOffsets : (n - e.base / 4096) * 4096 ∈ directOffsets e :=
          mem_directOffsets (by omega) type inside ⟨_, Nat.mul_comm _ _⟩
        have member : (add64 offset (e.base + (n - e.base / 4096) * 4096),
            e.base + (n - e.base / 4096) * 4096) ∈
            directMaps offset e.base (directOffsets e) :=
          mem_directMaps bounds ⟨rfl, _, inOffsets, rfl⟩
        obtain ⟨phys, listed⟩ := lastPhys_ne_none member
        have page : pageIndex (add64 offset (e.base + (n - e.base / 4096) * 4096)) =
            pageIndex (add64 offset (n * 4096)) := by
          rw [direct_pageIndex aligned (bounds _ inOffsets) bound]
          omega
        rw [page, found] at listed
        cases listed
      · rw [if_neg covers]

theorem lastPhys_entries (aligned : 4096 ∣ offset) (bound : n * 4096 < 2 ^ 47)
    (room : ∀ e ∈ entries, e.type ≠ .badMemory → e.base + e.length ≤ 2 ^ 47) :
    lastPhys (entryMaps offset entries) (pageIndex (add64 offset (n * 4096))) =
      (lastMapping n entries).map fun e => n * 4096 + e.base % 4096 := by
  induction entries with
  | nil => rfl
  | cons e rest ih =>
      have later := ih fun e member => room e (List.mem_cons_of_mem _ member)
      have maps : entryMaps offset (e :: rest) =
          directMaps offset e.base (directOffsets e) ++ entryMaps offset rest := List.flatMap_cons
      rw [maps, lastPhys_append, later, lastPhys_entry aligned bound (room e List.mem_cons_self),
        lastMapping]
      cases lastMapping n rest with
      | some f => rfl
      | none => by_cases covers : CoversPage n e <;> simp [covers]

theorem hhdmMaps_eq (offset : Nat) (entries : List MemmapEntry) :
    hhdmMaps offset entries = entryMaps offset (entries ++ [lowEntry]) := by
  have low : directOffsets lowEntry = pageOffsets 0x100000000 := by
    simp only [directOffsets, mappedLength, lowEntry]
  rw [hhdmMaps, entryMaps, entryMaps, List.flatMap_append, List.flatMap_singleton, low, lowEntry]

end LastMapping

section Boot

variable {boot : Limine} {image : KernelImage}

theorem direct_room (fits : DirectFits boot.offset boot.entries image) {p : Nat}
    (mapped : DirectMapped boot.entries p) : boot.offset + p < image.virtualBase ∧ p < 2 ^ 47 := by
  have high := fits.high
  have low := fits.low
  have word := image.word
  rcases mapped with small | ⟨e, member, type, lower, upper⟩
  · omega
  · have below := fits.below e member type
    omega

theorem hhdmMaps_below (fits : DirectFits boot.offset boot.entries image) {m : Nat × Nat}
    (member : m ∈ hhdmMaps boot.offset boot.entries) :
    m.1 = boot.offset + m.2 ∧ m.1 < image.virtualBase := by
  have low := fits.low
  have word := image.word
  rcases List.mem_append.mp member with entry | sweep
  · obtain ⟨e, listed, inE⟩ := List.mem_flatMap.mp entry
    obtain ⟨place, -, j, inOffsets, same⟩ := directMaps_shape (entry_bounds boot listed) inE
    have below := fits.below e listed (directOffsets_type inOffsets)
    have plain := fits.plain e listed (directOffsets_type inOffsets)
    have inside := (directOffsets_lt plain inOffsets).1
    rw [place, add64_of_lt (by omega)]
    exact ⟨rfl, by omega⟩
  · obtain ⟨place, -, j, inOffsets, same⟩ := directMaps_shape low_bounds sweep
    have inside := (mem_pageOffsets.mp inOffsets).1
    rw [place, add64_of_lt (by omega)]
    exact ⟨rfl, by omega⟩

theorem imageMaps_shape (placed : ImagePlaced image) (high : 2 ^ 63 ≤ image.virtualBase)
    {m : Nat × Nat} (member : m ∈ imageMaps image (pageOffsets (alignUp image.size 4096))) :
    ∃ i, 4096 ∣ i ∧ i < image.size ∧ m.1 = image.virtualBase + i ∧ m.2 = image.physicalBase + i := by
  obtain ⟨i, inOffsets, rfl⟩ := List.mem_map.mp member
  have virtualEnd := placed.virtualEnd
  have physicalEnd := placed.physicalEnd
  have rounded : alignUp image.size 4096 = (image.size + 4095) / 4096 * 4096 :=
    alignUp_page_of_le (by omega)
  rw [rounded, mem_pageOffsets] at inOffsets
  have inside : i < image.size := by omega
  exact ⟨i, inOffsets.2, inside, add64_of_lt (by omega), add64_of_lt (by omega)⟩

theorem bootEntry_direct (fits : DirectFits boot.offset boot.entries image)
    (placed : ImagePlaced image) {p : Nat} (mapped : DirectMapped boot.entries p) :
    bootEntry boot.offset boot.entries image (pageIndex (boot.offset + p)) =
      match lastMapping (p / 4096) (boot.entries ++ [lowEntry]) with
      | some f => (p / 4096 * 4096 + f.base % 4096) ||| presentRw
      | none => 0 := by
  obtain ⟨below, small⟩ := direct_room fits mapped
  have word := image.word
  have high := fits.high
  have bound : p / 4096 * 4096 < 2 ^ 47 := by omega
  have plain : boot.offset + p = add64 boot.offset p := (add64_of_lt (by omega)).symm
  have page : pageIndex (boot.offset + p) = pageIndex (add64 boot.offset (p / 4096 * 4096)) := by
    rw [plain, direct_pageIndex boot.offset_aligned small bound,
      Nat.mul_div_cancel _ (show 0 < 4096 by decide)]
  have room : ∀ e ∈ boot.entries ++ [lowEntry], e.type ≠ .badMemory →
      e.base + e.length ≤ 2 ^ 47 := by
    intro e member type
    rcases List.mem_append.mp member with listed | low
    · exact entry_room boot listed type
    · rw [List.mem_singleton.mp low]
      decide
  have direct : lastPhys (hhdmMaps boot.offset boot.entries) (pageIndex (boot.offset + p)) =
      (lastMapping (p / 4096) (boot.entries ++ [lowEntry])).map
        fun e => p / 4096 * 4096 + e.base % 4096 := by
    rw [hhdmMaps_eq, page, lastPhys_entries boot.offset_aligned bound room]
  have apart : lastPhys (imageMaps image (pageOffsets (alignUp image.size 4096)))
      (pageIndex (boot.offset + p)) = none := by
    apply lastPhys_eq_none
    intro m member same
    obtain ⟨i, whole, inside, virt, -⟩ := imageMaps_shape placed (by omega) member
    have aligned := placed.virtual
    have virtualEnd := placed.virtualEnd
    rw [virt] at same
    unfold pageIndex at same
    omega
  rw [bootEntry, bootMaps, lastPhys_append, direct, apart]
  cases lastMapping (p / 4096) (boot.entries ++ [lowEntry]) <;> rfl

theorem bootEntry_image (fits : DirectFits boot.offset boot.entries image)
    (placed : ImagePlaced image) {i : Nat} (inside : i < image.size) :
    bootEntry boot.offset boot.entries image (pageIndex (image.virtualBase + i)) =
      (image.physicalBase + i / 4096 * 4096) ||| presentRw := by
  have high := fits.high
  have low := fits.low
  have aligned := placed.virtual
  have virtualEnd := placed.virtualEnd
  have physicalEnd := placed.physicalEnd
  have rounded : alignUp image.size 4096 = (image.size + 4095) / 4096 * 4096 :=
    alignUp_page_of_le (by omega)
  have apart : lastPhys (hhdmMaps boot.offset boot.entries) (pageIndex (image.virtualBase + i)) =
      none := by
    apply lastPhys_eq_none
    intro m member same
    obtain ⟨place, below⟩ := hhdmMaps_below fits member
    unfold pageIndex at same
    omega
  have member : (add64 image.virtualBase (i / 4096 * 4096), add64 image.physicalBase (i / 4096 * 4096)) ∈
      imageMaps image (pageOffsets (alignUp image.size 4096)) := by
    apply List.mem_map_of_mem
    rw [mem_pageOffsets, rounded]
    exact ⟨by omega, ⟨_, Nat.mul_comm _ _⟩⟩
  obtain ⟨phys, found⟩ := lastPhys_ne_none member
  have page : pageIndex (add64 image.virtualBase (i / 4096 * 4096)) =
      pageIndex (image.virtualBase + i) := by
    rw [add64_of_lt (by omega)]
    unfold pageIndex
    omega
  dsimp only at found
  rw [page] at found
  obtain ⟨virt, listed, same⟩ := lastPhys_mem found
  obtain ⟨j, whole, within, place, target⟩ := imageMaps_shape placed (by omega) listed
  dsimp only at place target
  rw [place] at same
  have index : j = i / 4096 * 4096 := by
    unfold pageIndex at same
    omega
  rw [bootEntry, bootMaps, lastPhys_append, apart, Option.none_or, found, target, index]

end Boot

/-- The direct map is exact where the last loop that maps a page starts from an aligned base,
or from one whose low bits are among the flags. -/
theorem direct_map_exact_iff (boot : Limine) (image : KernelImage) (mem : Mem) (k₀ k : Kernel)
    (fits : DirectFits boot.offset boot.entries image) (placed : ImagePlaced image)
    (pmm : pmmInit boot mem = .ok k₀) (vmm : vmmInit boot.offset boot.entries image k₀ = .ok k) :
    DirectExact boot image k ↔
      ∀ p, DirectMapped boot.entries p →
        ∃ f, lastMapping (p / 4096) (boot.entries ++ [lowEntry]) = some f ∧ f.base % 4096 ≤ 3 := by
  obtain ⟨first, last, free, slabs, tables, inv, -⟩ := booted_inv pmm vmm
  have read (virt : Nat) : virtToPhys boot.offset k.mem (k.root boot.offset) virt =
      getPhysFromEntry (bootEntry boot.offset boot.entries image (pageIndex virt)) := by
    rw [virtToPhys_spec inv.paging (pages_direct boot) virt (under_all _),
      ← inv.rest _ (pageIndex_lt virt) (by simp [runs])]
    rfl
  have entry (virt : Nat) : k.leaf boot.offset (pageIndex virt) =
      bootEntry boot.offset boot.entries image (pageIndex virt) :=
    inv.rest _ (pageIndex_lt virt) (by simp [runs])
  constructor
  · intro exact p mapped
    have phys := exact.phys p mapped
    have flags := exact.flags p mapped
    have small := (direct_room fits mapped).2
    rw [entry, bootEntry_direct fits placed mapped] at flags
    cases found : lastMapping (p / 4096) (boot.entries ++ [lowEntry]) with
    | none =>
        rw [found] at flags
        dsimp only at flags
        exact absurd flags (by decide)
    | some f =>
        obtain ⟨page, low⟩ := or_presentRw (p / 4096 * 4096 + f.base % 4096)
        rw [found] at flags
        dsimp only at flags
        rw [entryFlags_eq (by omega), low] at flags
        refine ⟨f, rfl, ?_⟩
        unfold presentRw at flags
        omega
  · intro covered
    refine ⟨?_, ?_, ?_⟩
    · intro p mapped
      obtain ⟨f, found, -⟩ := covered p mapped
      have small := (direct_room fits mapped).2
      obtain ⟨page, -⟩ := or_presentRw (p / 4096 * 4096 + f.base % 4096)
      rw [read, bootEntry_direct fits placed mapped, found]
      dsimp only
      rw [getPhysFromEntry_eq (by omega)]
      omega
    · intro p mapped
      obtain ⟨f, found, exactBits⟩ := covered p mapped
      have small := (direct_room fits mapped).2
      obtain ⟨page, low⟩ := or_presentRw (p / 4096 * 4096 + f.base % 4096)
      rw [entry, bootEntry_direct fits placed mapped, found]
      dsimp only
      rw [entryFlags_eq (by omega), low]
      unfold presentRw
      omega
    · intro i inside
      have physicalEnd := placed.physicalEnd
      have aligned := placed.physical
      obtain ⟨page, -⟩ := or_presentRw (image.physicalBase + i / 4096 * 4096)
      rw [read, bootEntry_image fits placed inside, getPhysFromEntry_eq (by omega)]
      omega

theorem direct_map_exact_iff_machine : ∃ k : Kernel, k.regions ≠ [] ∧
    DirectExact machine machineImage k := by
  have paths : machinePaths.length = 2057 := by simp [machinePaths]
  obtain ⟨k₀, k, free, slabs, tables, first, last, pmm, vmm, inv, -⟩ := boot_of_enough machine
    machineImage (fun _ => 0) machinePaths machine_covers (by rw [paths, machine_pages]; decide)
  have fits : DirectFits machine.offset machine.entries machineImage :=
    ⟨by decide, by decide, by decide⟩
  have placed : ImagePlaced machineImage := ⟨by decide, by decide, by decide, by decide⟩
  refine ⟨k, by rw [inv.list]; exact List.cons_ne_nil _ _, ?_⟩
  apply (direct_map_exact_iff machine machineImage (fun _ => 0) k₀ k fits placed pmm vmm).mpr
  intro p mapped
  have small : p < 2 ^ 32 := by
    rcases mapped with low | ⟨e, member, -, -, upper⟩
    · exact low
    · obtain rfl := List.mem_singleton.mp member
      dsimp only at upper
      omega
  have covers : CoversPage (p / 4096) lowEntry := by
    unfold CoversPage lowEntry
    dsimp only
    exact ⟨by decide, by omega, by omega⟩
  refine ⟨lowEntry, ?_, by decide⟩
  rw [machine, List.singleton_append, lastMapping, lastMapping, lastMapping, if_pos covers]
  rfl

def oddMachine : Limine where
  offset := machine.offset
  entries := machine.entries ++ [⟨0x100000800, 0x1000, .reserved⟩]
  offset_aligned := machine.offset_aligned
  offset_high := machine.offset_high
  offset_word := machine.offset_word
  nonempty := by decide
  aligned := by decide
  not_zero := by decide
  room := by decide
  disjoint := by decide

theorem direct_map_not_exact : ∃ k₀ k,
    DirectFits oddMachine.offset oddMachine.entries machineImage ∧ ImagePlaced machineImage ∧
    pmmInit oddMachine (fun _ => 0) = .ok k₀ ∧
    vmmInit oddMachine.offset oddMachine.entries machineImage k₀ = .ok k ∧
    ¬ DirectExact oddMachine machineImage k := by
  obtain ⟨k₀, k, pmm, vmm⟩ := extra_boot (show oddMachine.offset = machine.offset from rfl) rfl
    (by decide)
  have fits : DirectFits oddMachine.offset oddMachine.entries machineImage :=
    ⟨by decide, by decide, by decide⟩
  have placed : ImagePlaced machineImage := ⟨by decide, by decide, by decide, by decide⟩
  refine ⟨k₀, k, fits, placed, pmm, vmm, ?_⟩
  intro exact
  have mapped : DirectMapped oddMachine.entries 0x100000800 :=
    Or.inr ⟨⟨0x100000800, 0x1000, .reserved⟩, by decide, by decide, by decide, by decide⟩
  obtain ⟨first, last, free, slabs, tables, inv, -⟩ := booted_inv pmm vmm
  have entry := inv.rest _ (pageIndex_lt (oddMachine.offset + 0x100000800)) (by simp [runs])
  have found : lastMapping (0x100000800 / 4096) (oddMachine.entries ++ [lowEntry]) =
      some ⟨0x100000800, 0x1000, .reserved⟩ := by decide
  have flags := exact.flags _ mapped
  rw [entry, bootEntry_direct fits placed mapped, found] at flags
  exact absurd flags (by decide)

end Nyaux.Mm
