import Nyaux.Mm.KernelCalls
import Nyaux.Mm.KernelRegions

/-! The direct map: whether its region covers it, and whether its entries are exact. -/

namespace Nyaux.Mm

open Word Memory Paging

/-- A physical address `vmm_init` is to map: below 4 GiB, or of an entry of a mapped type. -/
def DirectMapped (entries : List MemmapEntry) (p : Nat) : Prop :=
  p < 2 ^ 32 ∨ ∃ e ∈ entries, e.type ≠ .badMemory ∧ e.base ≤ p ∧ p < e.base + e.length

/-- The direct map ends below the kernel. -/
structure DirectFits (offset : Nat) (entries : List MemmapEntry) (image : KernelImage) : Prop where
  high : 0xffff800000000000 ≤ offset
  low : offset + 2 ^ 32 ≤ image.virtualBase
  below : ∀ e ∈ entries, e.type ≠ .badMemory → offset + e.base + e.length ≤ image.virtualBase

def countedEntry (e : MemmapEntry) : Nat :=
  if e.type = .badMemory then 0 else min ((e.length + 4095) / 4096) (2 ^ 20) * 4096

/-- The count in closed form. The last loop adds 4 GiB. -/
def countedBytes (entries : List MemmapEntry) : Nat :=
  (2 ^ 32 + (entries.map countedEntry).sum) % 2 ^ 64

/-- Every address of the direct map lies in the first region. -/
def Reserved (offset : Nat) (entries : List MemmapEntry) (k : Kernel) : Prop :=
  ∃ first rest, k.regions = first :: rest ∧ first.base = offset ∧
    ∀ p, DirectMapped entries p → Inside first (offset + p)

/-- No region handed out later, whatever callers do, meets the direct map. -/
def NeverHandedOut (offset : Nat) (entries : List MemmapEntry) (k : Kernel) : Prop :=
  ∀ h, KernelRun offset PlainSize ⟨k, [], []⟩ h →
    ∀ size flags base k', PlainSize size →
      vmmRegionAlloc offset size flags h.kernel = .ok (base, k') →
      ∀ i < alignUp size 4096, ∀ p, DirectMapped entries p → add64 base i ≠ offset + p

section Count

variable {offset : Nat} {entries : List MemmapEntry} {image : KernelImage} {k k' : Kernel}

theorem hhdmCount_entry {e : MemmapEntry} (plain : e.type ≠ .badMemory → e.length ≤ 2 ^ 64 - 4096)
    {n : Nat} (word : n < 2 ^ 64) :
    hhdmCount (directOffsets e) n = (n + countedEntry e) % 2 ^ 64 := by
  by_cases bad : e.type = .badMemory
  · have none : directOffsets e = [] := by rw [directOffsets, mappedLength, bad]
    rw [none, countedEntry, if_pos bad, hhdmCount, List.foldl_nil]
    omega
  · have rounded : alignUp e.length 4096 = (e.length + 4095) / 4096 * 4096 :=
      alignUp_page_of_le (plain bad)
    have again : (alignUp e.length 4096 + 4095) / 4096 = (e.length + 4095) / 4096 := by omega
    rw [countedEntry, if_neg bad]
    unfold directOffsets mappedLength
    cases kind : e.type <;> dsimp only <;>
      first
      | exact absurd kind bad
      | rw [hhdmCount_pageOffsets _ word, again]
      | rw [hhdmCount_pageOffsets _ word]

theorem entriesCount_eq (plain : ∀ e ∈ entries, e.type ≠ .badMemory → e.length ≤ 2 ^ 64 - 4096)
    {n : Nat} (word : n < 2 ^ 64) :
    entriesCount entries n = (n + (entries.map countedEntry).sum) % 2 ^ 64 := by
  induction entries generalizing n with
  | nil =>
      rw [entriesCount, List.foldl_nil, List.map_nil, List.sum_nil]
      omega
  | cons e rest ih =>
      have counted := hhdmCount_entry (plain e List.mem_cons_self) word
      have later := ih (fun e member => plain e (List.mem_cons_of_mem _ member))
        (show hhdmCount (directOffsets e) n < 2 ^ 64 by omega)
      calc
        entriesCount (e :: rest) n
        _ = entriesCount rest (hhdmCount (directOffsets e) n) := List.foldl_cons ..
        _ = ((n + countedEntry e) % 2 ^ 64 + (rest.map countedEntry).sum) % 2 ^ 64 := by
          rw [later, counted]
        _ = (n + ((e :: rest).map countedEntry).sum) % 2 ^ 64 := by
          rw [List.map_cons, List.sum_cons]
          omega

theorem DirectFits.plain (fits : DirectFits offset entries image) :
    ∀ e ∈ entries, e.type ≠ .badMemory → e.length ≤ 2 ^ 64 - 4096 := by
  intro e member type
  have high := fits.high
  have below := fits.below e member type
  have word := image.word
  omega

theorem hhdmPagesOf_eq (fits : DirectFits offset entries image) :
    hhdmPagesOf entries = countedBytes entries := by
  rw [hhdmPagesOf, entriesCount_eq fits.plain (Nat.two_pow_pos 64),
    hhdmCount_pageOffsets _ (Nat.mod_lt _ (Nat.two_pow_pos 64)), countedBytes]
  omega

/-- The list that `vmm_init` leaves. -/
theorem vmmInit_regions (fits : DirectFits offset entries image)
    (init : vmmInit offset entries image k = .ok k') :
    ∃ node kernelRegion, k'.regions =
      [⟨node, offset, countedBytes entries⟩, ⟨kernelRegion, image.virtualBase, image.size⟩] := by
  have plain : ∀ e ∈ entries, ∀ length, mappedLength e = some length →
      length ≤ 2 ^ 64 - 4096 := by
    intro e member length mapped
    exact mappedLength_le (fits.plain e member (mappedLength_type mapped)) mapped
  obtain ⟨⟨pml4, k₁⟩, -, started⟩ := of_bind_ok init
  obtain ⟨k₂, -, imaged⟩ := of_bind_ok started
  obtain ⟨s, entered, afterEntries⟩ := of_bind_ok imaged
  obtain ⟨⟨k₃, hhdmPages⟩, swept, setup⟩ := of_bind_ok afterEntries
  rw [mapEntries_eq entries plain] at entered
  obtain ⟨k₄, -, same⟩ := of_bind_ok entered
  obtain rfl := Except.ok.inj same
  rw [mapDirect_eq] at swept
  obtain ⟨k₅, -, total⟩ := of_bind_ok swept
  have counted := (Prod.mk.inj (Except.ok.inj total)).2
  rw [← hhdmPagesOf, hhdmPagesOf_eq fits] at counted
  obtain ⟨⟨node, k₆⟩, -, second⟩ := of_bind_ok setup
  obtain ⟨⟨kernelRegion, k₇⟩, -, final⟩ := of_bind_ok second
  obtain rfl := Except.ok.inj final
  exact ⟨node, kernelRegion, by rw [counted]⟩

theorem reserved_iff {first : VmmRegion} {rest : List VmmRegion}
    (list : k.regions = first :: rest) (base : first.base = offset) :
    Reserved offset entries k ↔ ∀ p, DirectMapped entries p → p < first.length := by
  constructor
  · rintro ⟨first', rest', list', -, inside⟩ p mapped
    obtain ⟨rfl, -⟩ := List.cons.inj (list'.symm.trans list)
    have upper := (inside p mapped).2
    omega
  · intro covered
    refine ⟨first, rest, list, base, ?_⟩
    intro p mapped
    have upper := covered p mapped
    exact ⟨by omega, by omega⟩

theorem directMapped_below (n : Nat) :
    (∀ p, DirectMapped entries p → p < n) ↔
      2 ^ 32 ≤ n ∧ ∀ e ∈ entries, e.type ≠ .badMemory → 0 < e.length → e.base + e.length ≤ n := by
  constructor
  · intro covered
    constructor
    · have last := covered (2 ^ 32 - 1) (Or.inl (by omega))
      omega
    · intro e member type nonempty
      have last := covered (e.base + e.length - 1)
        (Or.inr ⟨e, member, type, by omega, by omega⟩)
      omega
  · rintro ⟨low, ends⟩ p (small | ⟨e, member, type, lower, upper⟩)
    · omega
    · have stop := ends e member type (by omega)
      omega

theorem neverHandedOut (fits : DirectFits offset entries image)
    (init : vmmInit offset entries image k = .ok k')
    (covered : ∀ p, DirectMapped entries p → p < countedBytes entries)
    (room : offset + countedBytes entries ≤ image.virtualBase) :
    NeverHandedOut offset entries k' := by
  obtain ⟨node, kernelRegion, list⟩ := vmmInit_regions fits init
  have word := image.word
  have zero := covered 0 (Or.inl (Nat.two_pow_pos 32))
  have ends : PlainEnds ⟨node, offset, countedBytes entries⟩
      ⟨kernelRegion, image.virtualBase, image.size⟩ := ⟨zero, room, word⟩
  intro h run size flags base k'' plain ran i inside p mapped same
  have start : RegionsHeld ⟨node, offset, countedBytes entries⟩
      ⟨kernelRegion, image.virtualBase, image.size⟩ k'.regions [] := by
    refine ⟨[], list, ⟨rfl, ?_, List.pairwise_singleton _ _⟩, List.Perm.nil⟩
    intro r member
    rw [List.mem_singleton.mp member]
    exact word
  have kept := KernelRun.held run ends start
  obtain ⟨-, q, place, bound⟩ := vmmRegionAlloc_held plain kept ran
  obtain ⟨stop, far⟩ := ends.stop
  have below := covered p mapped
  rw [far] at bound
  dsimp only at stop bound
  rw [place, stop, add64_of_lt (show offset + countedBytes entries + q < 2 ^ 64 by omega),
    add64_of_lt (by omega)] at same
  omega

end Count

/-- The first region covers the direct map exactly when no entry ends beyond the count; then,
if the count does not run into the kernel either, no later region meets it. -/
theorem direct_map_reserved_iff (offset : Nat) (entries : List MemmapEntry) (image : KernelImage)
    (k k' : Kernel) (fits : DirectFits offset entries image)
    (init : vmmInit offset entries image k = .ok k') :
    (Reserved offset entries k' ↔
      2 ^ 32 ≤ countedBytes entries ∧ ∀ e ∈ entries, e.type ≠ .badMemory → 0 < e.length →
        e.base + e.length ≤ countedBytes entries) ∧
    (Reserved offset entries k' → offset + countedBytes entries ≤ image.virtualBase →
      NeverHandedOut offset entries k') := by
  obtain ⟨node, kernelRegion, list⟩ := vmmInit_regions fits init
  have shape : Reserved offset entries k' ↔ _ := reserved_iff list rfl
  refine ⟨shape.trans (directMapped_below _), ?_⟩
  intro reserved room
  exact neverHandedOut fits init (shape.mp reserved) room

theorem direct_map_reserved_iff_machine : ∃ k' : Kernel, k'.regions ≠ [] ∧
    Reserved machine.offset machine.entries k' ∧
    NeverHandedOut machine.offset machine.entries k' := by
  have paths : machinePaths.length = 2057 := by simp [machinePaths]
  obtain ⟨k, k', free, slabs, tables, first, last, -, init, inv, -⟩ := boot_of_enough machine
    machineImage (fun _ => 0) machinePaths machine_covers (by rw [paths, machine_pages]; decide)
  have fits : DirectFits machine.offset machine.entries machineImage :=
    ⟨by decide, by decide, by decide⟩
  obtain ⟨reserved, later⟩ := direct_map_reserved_iff machine.offset machine.entries machineImage
    k k' fits init
  have covered : Reserved machine.offset machine.entries k' := reserved.mpr (by decide)
  refine ⟨k', ?_, covered, later covered (by decide)⟩
  rw [inv.list]
  exact List.cons_ne_nil _ _

/-! The machine with one more entry, of at most a page. -/

section Extra

variable {boot : Limine} {e : MemmapEntry}

theorem extra_hhdmMaps (offset : boot.offset = machine.offset)
    (entries : boot.entries = machine.entries ++ [e]) (short : e.length ≤ 4096) {m : Nat × Nat}
    (member : m ∈ hhdmMaps boot.offset boot.entries) :
    m ∈ hhdmMaps machine.offset machine.entries ∨
      m.1 = add64 machine.offset (add64 e.base 0) := by
  rw [offset, entries] at member
  rcases List.mem_append.mp member with entry | sweep
  · obtain ⟨f, listed, inF⟩ := List.mem_flatMap.mp entry
    rcases List.mem_append.mp listed with near | far
    · exact Or.inl (List.mem_append_left _ (List.mem_flatMap.mpr ⟨f, near, inF⟩))
    · obtain rfl := List.mem_singleton.mp far
      obtain ⟨j, inOffsets, rfl⟩ := List.mem_map.mp inF
      obtain ⟨inside, aligned⟩ := directOffsets_lt (by omega) inOffsets
      obtain rfl : j = 0 := by omega
      exact Or.inr rfl
  · exact Or.inl (List.mem_append_right _ sweep)

def extraPaths (e : MemmapEntry) : List (List Nat) :=
  machinePaths ++ (leafPath (pageIndex (add64 machine.offset (add64 e.base 0)))).tails

theorem extra_covers (offset : boot.offset = machine.offset)
    (entries : boot.entries = machine.entries ++ [e]) (short : e.length ≤ 4096) :
    BootPaths boot machineImage fun path => path ∈ extraPaths e := by
  have more {page : Nat} (covers : Covers (fun path => path ∈ machinePaths) page) :
      Covers (fun path => path ∈ extraPaths e) page :=
    fun path suffix => List.mem_append_left _ (covers path suffix)
  refine ⟨List.mem_append_left _ (by simp [machinePaths]), ?_⟩
  intro m member
  rcases List.mem_append.mp member with kernel | direct
  · exact more (image_covers kernel)
  rcases extra_hhdmMaps offset entries short direct with near | far
  · obtain ⟨place, small⟩ := machine_hhdmMaps near
    rw [place]
    exact more (low_covers small)
  · intro path suffix
    rw [far] at suffix
    exact List.mem_append_right _ ((List.mem_tails _ _).mpr suffix)

theorem extra_boot (offset : boot.offset = machine.offset)
    (entries : boot.entries = machine.entries ++ [e]) (short : e.length ≤ 4096) :
    ∃ k₀ k, pmmInit boot (fun _ => 0) = .ok k₀ ∧
      vmmInit boot.offset boot.entries machineImage k₀ = .ok k := by
  have paths : (extraPaths e).length = 2061 := by
    rw [extraPaths, List.length_append, List.length_tails]
    simp [machinePaths, leafPath]
  have pages : 8192 ≤ boot.pages.length := by
    rw [Limine.pages, Limine.usable, offset, entries, List.filter_append, List.flatMap_append,
      List.length_append, ← Limine.usable, ← Limine.pages, machine_pages]
    exact Nat.le_add_right _ _
  obtain ⟨k₀, k, free, slabs, tables, first, last, pmm, vmm, -⟩ := boot_of_enough boot
    machineImage (fun _ => 0) (extraPaths e) (extra_covers offset entries short) (by omega)
  exact ⟨k₀, k, pmm, vmm⟩

end Extra

def farMachine : Limine where
  offset := machine.offset
  entries := machine.entries ++ [⟨0x200000000, 0x1000, .usable⟩]
  offset_aligned := machine.offset_aligned
  offset_high := machine.offset_high
  offset_word := machine.offset_word
  nonempty := by decide
  aligned := by decide
  not_zero := by decide
  room := by decide
  disjoint := by decide

theorem direct_map_not_reserved : ∃ k k', DirectFits farMachine.offset farMachine.entries machineImage ∧
    (∀ e ∈ farMachine.entries, 4096 ∣ e.base ∧ 4096 ∣ e.length) ∧
    vmmInit farMachine.offset farMachine.entries machineImage k = .ok k' ∧
    ¬ Reserved farMachine.offset farMachine.entries k' := by
  obtain ⟨k, k', -, init⟩ := extra_boot (show farMachine.offset = machine.offset from rfl) rfl
    (by decide)
  have fits : DirectFits farMachine.offset farMachine.entries machineImage :=
    ⟨by decide, by decide, by decide⟩
  refine ⟨k, k', fits, by decide, init, ?_⟩
  obtain ⟨node, kernelRegion, list⟩ := vmmInit_regions fits init
  rw [reserved_iff list rfl]
  intro covered
  have far := covered 0x200000000
    (Or.inr ⟨⟨0x200000000, 0x1000, .usable⟩, by decide, by decide, by decide, by decide⟩)
  have counted : countedBytes farMachine.entries = 0x102001000 := by decide
  dsimp only at far
  rw [counted] at far
  omega

end Nyaux.Mm
