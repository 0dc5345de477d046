import Nyaux.Mm.RegionSteps
import Nyaux.Mm.VmmInit

/-! Runs of `vmm_region_alloc` and `vmm_region_dealloc` in the gap between the direct map and
the kernel. -/

namespace Nyaux.Mm

open Word Memory Paging

/-- The kernel and the bases that were returned and not yet freed. -/
structure KernelRegions where
  kernel : Kernel
  bases : List Nat

inductive KernelRegionOp where
  | alloc (size flags : Nat)
  | dealloc (base : Nat)

def KernelRegionOp.Allowed (s : KernelRegions) : KernelRegionOp → Prop
  | .alloc size flags => 1 ≤ size ∧ size < 2 ^ 31 ∧ FlagBits flags
  | .dealloc base => base ∈ s.bases

def KernelRegions.step (offset : Nat) (s : KernelRegions) : KernelRegionOp → Except Stop KernelRegions
  | .alloc size flags => do
      let (base, k) ← vmmRegionAlloc offset size flags s.kernel
      .ok { kernel := k, bases := base :: s.bases }
  | .dealloc base => do
      let k ← vmmRegionDealloc offset base s.kernel
      .ok { kernel := k, bases := s.bases.erase base }

/-- The processor's translation of an address. -/
def Kernel.translate (offset : Nat) (k : Kernel) (virt : Nat) : Option Nat :=
  Mm.translate offset k.mem k.pml4 virt

def gapStart (boot : Limine) : Nat := boot.offset + hhdmPagesOf boot.entries

structure GapFree (boot : Limine) (image : KernelImage) (k : Kernel) : Prop where
  below : boot.offset < image.virtualBase
  room : gapStart boot ≤ image.virtualBase
  unmapped : ∀ virt, gapStart boot ≤ virt → virt < image.virtualBase →
    k.translate boot.offset virt = none

/-- The states after boot and any allowed operations. -/
inductive KernelRegionsReached (boot : Limine) (image : KernelImage) : KernelRegions → Prop
  | start {mem : Mem} {k₀ k : Kernel} (pmm : pmmInit boot mem = .ok k₀)
      (vmm : vmmInit boot.offset boot.entries image k₀ = .ok k) (gap : GapFree boot image k) :
      KernelRegionsReached boot image ⟨k, []⟩
  | step {s s' : KernelRegions} {op : KernelRegionOp} (before : KernelRegionsReached boot image s)
      (allowed : op.Allowed s) (next : s.step boot.offset op = .ok s') :
      KernelRegionsReached boot image s'

def Inside (r : VmmRegion) (virt : Nat) : Prop := r.base ≤ virt ∧ virt < r.base + r.length

def Canonical (virt : Nat) : Prop := virt < 2 ^ 47 ∨ 2 ^ 64 - 2 ^ 47 ≤ virt ∧ virt < 2 ^ 64

structure Coherent (boot : Limine) (image : KernelImage) (s : KernelRegions)
    (first last : VmmRegion) (mids : List VmmRegion) : Prop where
  list : s.kernel.regions = first :: (mids ++ [last])
  ends : first.base = boot.offset ∧ first.base + first.length = gapStart boot ∧
    last.base = image.virtualBase
  sorted : s.kernel.regions.Pairwise fun a b => a.base < b.base
  disjoint : s.kernel.regions.Pairwise fun a b => a.base + a.length ≤ b.base
  inside : ∀ r ∈ mids, 4096 ∣ r.base ∧ 4096 ∣ r.length ∧ 0 < r.length ∧
    gapStart boot ≤ r.base ∧ r.base + r.length ≤ image.virtualBase
  bases : s.bases.Perm (mids.map VmmRegion.base)
  mapped : ∀ virt, gapStart boot ≤ virt → virt < image.virtualBase →
    (s.kernel.translate boot.offset virt ≠ none ↔ ∃ r ∈ mids, Inside r virt)
  distinct : ∀ v w, 4096 ∣ v → 4096 ∣ w → (∃ r ∈ mids, Inside r v) → (∃ r ∈ mids, Inside r w) →
    s.kernel.translate boot.offset v = s.kernel.translate boot.offset w → v = w

/-- What a deallocation of `base` does: exactly its region goes, with its pages. -/
def DeallocExact (offset base : Nat) (k k' : Kernel) : Prop :=
  ∃ before r after, k.regions = before ++ r :: after ∧ r.base = base ∧
    k'.regions = before ++ after ∧
    ∀ virt, Canonical virt → k'.translate offset virt =
      if r.base ≤ virt ∧ virt < r.base + r.length then none else k.translate offset virt

theorem translate_eq (offset : Nat) (k : Kernel) (virt : Nat) :
    k.translate offset virt =
      if Present (k.leaf offset (pageIndex virt)) then
        some (pointee offset (k.leaf offset (pageIndex virt)) + virt % 4096)
      else none := rfl

theorem translate_none_iff {offset : Nat} {k : Kernel} {virt : Nat} :
    k.translate offset virt = none ↔ ¬ Present (k.leaf offset (pageIndex virt)) := by
  rw [translate_eq]
  split <;> simp_all

theorem mem_run_iff {r : VmmRegion} {virt : Nat} (base : 4096 ∣ r.base) (whole : 4096 ∣ r.length)
    (short : r.length ≤ 2 ^ 31) (high : 2 ^ 64 - 2 ^ 47 ≤ r.base)
    (word : r.base + r.length ≤ 2 ^ 64) (canonical : Canonical virt) :
    pageIndex virt ∈ run r ↔ Inside r virt := by
  rw [run, mem_pageLoop (by omega)]
  unfold pageIndex Inside Canonical at *
  constructor
  · rintro ⟨i, inside, same⟩
    omega
  · intro bounds
    exact ⟨(virt - r.base) / 4096, by omega, by omega⟩

structure RegionRunInv (boot : Limine) (image : KernelImage) (leaf₀ : Nat → Nat)
    (first last : VmmRegion) (s : KernelRegions) (mids : List VmmRegion) (free : List Nat)
    (slabs : List Slab) (tables : List (List Nat × Nat)) : Prop where
  inv : RegionInv boot.offset boot.pages leaf₀ first last s.kernel mids free slabs tables
    (setupNodes first last) 0
  bases : s.bases.Perm (mids.map VmmRegion.base)

structure GapEnds (boot : Limine) (image : KernelImage) (leaf₀ : Nat → Nat)
    (first last : VmmRegion) : Prop where
  ends : Ends boot.offset leaf₀ first
  length : first.base + first.length = gapStart boot
  last : last.base = image.virtualBase
  below : boot.offset < image.virtualBase
  room : gapStart boot ≤ image.virtualBase
  unmapped : ∀ virt, gapStart boot ≤ virt → virt < image.virtualBase →
    ¬ Present (leaf₀ (pageIndex virt))

namespace GapEnds

variable {boot : Limine} {image : KernelImage} {leaf₀ : Nat → Nat} {first last r : VmmRegion}
  {mids : List VmmRegion}

theorem stop (gap : GapEnds boot image leaf₀ first last) : first.stop = gapStart boot := by
  have room := gap.room
  have word := image.word
  rw [← gap.length]
  apply add64_of_lt
  rw [gap.length]
  omega

theorem high (gap : GapEnds boot image leaf₀ first last) : 2 ^ 64 - 2 ^ 47 ≤ gapStart boot := by
  have base := gap.ends.base
  have length := gap.length
  have offset := boot.offset_high
  omega

theorem inside (gap : GapEnds boot image leaf₀ first last)
    (layout : Layout first.stop first mids last) (member : r ∈ mids) :
    gapStart boot ≤ r.base ∧ r.base + r.length ≤ image.virtualBase := by
  have below := (List.pairwise_append.mp layout.sorted).2.2 r member last (List.mem_singleton_self _)
  have start := base_eq_pos first.stop (layout.words r (List.mem_append_left _ member))
  have room := gap.room
  have word := image.word
  have final : pos first.stop last = image.virtualBase - gapStart boot := by
    rw [pos, gap.stop, gap.last]
    exact sub64_of_le room word
  rw [final] at below
  rw [gap.stop] at below start
  rw [add64_of_lt (by omega)] at start
  omega

/-- A region in the gap overlaps nothing `vmm_init` mapped. -/
theorem clear (gap : GapEnds boot image leaf₀ first last)
    (layout : Layout first.stop first mids last) (member : r ∈ mids) (base : 4096 ∣ r.base)
    (short : r.length ≤ 2 ^ 31) : Clear leaf₀ r := by
  obtain ⟨lower, upper⟩ := gap.inside layout member
  intro page inRun
  obtain ⟨i, bound, rfl⟩ := (mem_pageLoop (by omega)).mp inRun
  have place : (r.base / 4096 + i) % 2 ^ 36 = pageIndex (r.base + i * 4096) := by
    unfold pageIndex
    omega
  rw [place]
  exact gap.unmapped _ (by omega) (by omega)

theorem run_iff (gap : GapEnds boot image leaf₀ first last)
    (layout : Layout first.stop first mids last) (member : r ∈ mids)
    (ok : RegionOk boot.offset leaf₀ first r) {virt : Nat} (canonical : Canonical virt) :
    pageIndex virt ∈ run r ↔ Inside r virt := by
  obtain ⟨lower, upper⟩ := gap.inside layout member
  have high := gap.high
  have word := image.word
  exact mem_run_iff ok.base ok.pages ok.short (by omega) (by omega) canonical

theorem runs_iff (gap : GapEnds boot image leaf₀ first last)
    (layout : Layout first.stop first mids last)
    (ok : ∀ r ∈ mids, RegionOk boot.offset leaf₀ first r) {virt : Nat}
    (canonical : Canonical virt) :
    pageIndex virt ∈ runs mids ↔ ∃ r ∈ mids, Inside r virt := by
  rw [runs, List.mem_flatMap]
  constructor
  · rintro ⟨r, member, inRun⟩
    exact ⟨r, member, (gap.run_iff layout member (ok r member) canonical).mp inRun⟩
  · rintro ⟨r, member, inside⟩
    exact ⟨r, member, (gap.run_iff layout member (ok r member) canonical).mpr inside⟩

end GapEnds

theorem KernelPaging.targets_nodup {offset : Nat} {pages : List Nat} {k k' : Kernel}
    {free : List Nat} {slabs : List Slab} {tables : List (List Nat × Nat)} {run : List Nat}
    {extra : Multiset Nat}
    (inv : KernelPaging offset pages k free slabs tables
      ((targets offset k' run : Multiset Nat) + extra))
    (usable : Usable pages) : (targets offset k' run).Nodup := by
  have nodup : ((free : Multiset Nat) + slabPages slabs +
      (tablePages tables + ((targets offset k' run : Multiset Nat) + extra))).Nodup := by
    rw [inv.heap.pages]
    exact usable.nodup
  have data := (Multiset.nodup_add.mp (Multiset.nodup_add.mp nodup).2.1).2.1
  exact (Multiset.nodup_add.mp data).1

section Runs

variable {boot : Limine} {image : KernelImage} {leaf₀ : Nat → Nat} {first last : VmmRegion}
  {s : KernelRegions} {mids : List VmmRegion} {free : List Nat} {slabs : List Slab}
  {tables : List (List Nat × Nat)}

theorem RegionRunInv.coherent
    (run : RegionRunInv boot image leaf₀ first last s mids free slabs tables)
    (gap : GapEnds boot image leaf₀ first last) : Coherent boot image s first last mids := by
  have inv := run.inv
  have layout := inv.layout
  have high := gap.high
  have word := image.word
  have inGap : ∀ virt, gapStart boot ≤ virt → virt < image.virtualBase → Canonical virt :=
    fun virt lower upper => Or.inr ⟨by omega, by omega⟩
  have inRegion : ∀ virt, (∃ r ∈ mids, Inside r virt) →
      gapStart boot ≤ virt ∧ virt < image.virtualBase := by
    rintro virt ⟨r, member, lower, upper⟩
    have bounds := gap.inside layout member
    omega
  have origin : ∀ r ∈ mids, r.base = gapStart boot + pos first.stop r := by
    intro r member
    have bounds := gap.inside layout member
    have base := base_eq_pos first.stop (layout.words r (List.mem_append_left _ member))
    have small := pos_lt first.stop r
    rw [gap.stop] at base small ⊢
    unfold pos at *
    rw [sub64_of_le bounds.1 (by omega)] at *
    omega
  -- the first region ends where the gap starts, and its own start is mapped
  have firstBelow : first.base < gapStart boot := by
    have length := gap.length
    have base := gap.ends.base
    rcases Nat.eq_zero_or_pos first.length with empty | positive
    · exfalso
      apply gap.unmapped boot.offset (by omega) gap.below
      exact gap.ends.mapped
    · omega
  have disjoint : s.kernel.regions.Pairwise fun a b => a.base + a.length ≤ b.base := by
    rw [inv.list, List.pairwise_cons, List.pairwise_append]
    refine ⟨?_, ?_, List.pairwise_singleton _ _, ?_⟩
    · intro r member
      rw [gap.length]
      rcases List.mem_append.mp member with mid | final
      · exact (gap.inside layout mid).1
      · rw [List.mem_singleton.mp final, gap.last]
        exact gap.room
    · apply (List.pairwise_append.mp layout.sorted).1.imp_of_mem
      intro a b inA inB ordered
      rw [origin a inA, origin b inB]
      omega
    · intro a inA b final
      rw [List.mem_singleton.mp final, gap.last]
      exact (gap.inside layout inA).2
  have positive : ∀ r ∈ first :: mids, 0 < r.length := by
    refine List.forall_mem_cons.mpr ⟨?_, fun r member => (inv.region r member).nonempty⟩
    have length := gap.length
    omega
  have sorted : s.kernel.regions.Pairwise fun a b => a.base < b.base := by
    rw [inv.list, ← List.cons_append, List.pairwise_append] at disjoint ⊢
    refine ⟨?_, List.pairwise_singleton _ _, ?_⟩
    · apply disjoint.1.imp_of_mem
      intro a b inA _ ordered
      have := positive a inA
      omega
    · intro a inA b inB
      have := positive a inA
      have := disjoint.2.2 a inA b inB
      omega
  refine ⟨inv.list, ⟨gap.ends.base, gap.length, gap.last⟩, sorted, disjoint, ?_, run.bases, ?_, ?_⟩
  · intro r member
    obtain ⟨lower, upper⟩ := gap.inside layout member
    have ok := inv.region r member
    exact ⟨ok.base, ok.pages, ok.nonempty, lower, upper⟩
  · intro virt lower upper
    rw [← gap.runs_iff layout inv.region (inGap virt lower upper), ne_eq, translate_none_iff,
      not_not]
    constructor
    · intro present
      by_contra outside
      rw [inv.rest _ (pageIndex_lt _) outside] at present
      exact gap.unmapped virt lower upper present
    · intro inRuns
      exact (inv.mapped _ inRuns).present
  · intro v w alignedV alignedW inV inW same
    have boundsV := inRegion v inV
    have boundsW := inRegion w inW
    have canonicalV := inGap v boundsV.1 boundsV.2
    have canonicalW := inGap w boundsW.1 boundsW.2
    have runV := (gap.runs_iff layout inv.region canonicalV).mpr inV
    have runW := (gap.runs_iff layout inv.region canonicalW).mpr inW
    have presentV := (inv.mapped _ runV).present
    have presentW := (inv.mapped _ runW).present
    rw [translate_eq, translate_eq, if_pos presentV, if_pos presentW, Option.some.injEq,
      show v % 4096 = 0 by omega, show w % 4096 = 0 by omega] at same
    have nodup := inv.paging.targets_nodup (pages_usable boot)
    have pages := List.inj_on_of_nodup_map nodup runV runW same
    unfold pageIndex at pages
    omega

/-- One operation: an allocation stops for want of a page or of a gap, a deallocation never
does; both keep the invariant. -/
theorem RegionRunInv.step
    (run : RegionRunInv boot image leaf₀ first last s mids free slabs tables)
    (gap : GapEnds boot image leaf₀ first last) {op : KernelRegionOp} (allowed : op.Allowed s) :
    (s.step boot.offset op = .error .outOfMemory ∨
        s.step boot.offset op = .error .noFreeRegions) ∧ (∃ size flags, op = .alloc size flags) ∨
      ∃ s' mids' free' slabs' tables', s.step boot.offset op = .ok s' ∧
        RegionRunInv boot image leaf₀ first last s' mids' free' slabs' tables' ∧
        ∀ base, op = .dealloc base → DeallocExact boot.offset base s.kernel s'.kernel := by
  have direct := pages_direct boot
  cases op with
  | alloc size flags =>
      obtain ⟨positive, short, bits⟩ := allowed
      rcases vmmRegionAlloc_spec run.inv direct gap.ends bits positive short.le with
        ⟨-, stopped⟩ | ⟨-, stopped⟩ | ⟨r, k', before, after, free', slabs', tables', ran, -, split, -,
          base, length, layout, -, -, -, -, -, added⟩
      · exact Or.inl ⟨Or.inl (by rw [KernelRegions.step, stopped, error_bind]), size, flags, rfl⟩
      · exact Or.inl ⟨Or.inr (by rw [KernelRegions.step, stopped, error_bind]), size, flags, rfl⟩
      · have rounded := (alignUp_region short.le positive).2.2.1
        have clear := gap.clear layout (by simp) base (by omega)
        refine Or.inr ⟨⟨k', r.base :: s.bases⟩, before ++ r :: after, free', slabs', tables', ?_,
          ⟨(added clear).2, ?_⟩, ?_⟩
        · rw [KernelRegions.step, ran, ok_bind]
        · have bases := run.bases
          rw [split, List.map_append] at bases
          rw [List.map_append, List.map_cons]
          exact (bases.cons r.base).trans List.perm_middle.symm
        · intro base' other
          cases other
  | dealloc base =>
      have member : base ∈ s.bases := allowed
      obtain ⟨r, inMids, rfl⟩ := List.mem_map.mp (run.bases.subset member)
      obtain ⟨before, after, rfl⟩ := List.append_of_mem inMids
      obtain ⟨k', slabs', ran, inv', leaf', -⟩ := vmmRegionDealloc_spec run.inv direct gap.ends
      refine Or.inr ⟨⟨k', s.bases.erase r.base⟩, before ++ after, _, slabs', tables, ?_, ⟨inv', ?_⟩,
        ?_⟩
      · rw [KernelRegions.step, ran, ok_bind]
      · have bases := (run.bases.trans ((List.perm_middle).map _)).erase r.base
        rwa [List.map_cons, List.erase_cons_head] at bases
      · intro base' same
        obtain rfl := KernelRegionOp.dealloc.inj same
        refine ⟨first :: before, r, after ++ [last], ?_, rfl, ?_, ?_⟩
        · rw [run.inv.list]
          simp
        · rw [inv'.list]
          simp
        · intro virt canonical
          have inRun := gap.run_iff run.inv.layout inMids (run.inv.region r inMids) canonical
          rw [translate_eq, translate_eq, leaf' _ (pageIndex_lt virt)]
          by_cases inside : r.base ≤ virt ∧ virt < r.base + r.length
          · rw [if_pos (inRun.mpr inside), if_pos inside]
            exact if_neg (by decide)
          · rw [if_neg (fun listed => inside (inRun.mp listed)), if_neg inside]

end Runs

theorem kernelRegionsReached_inv {boot : Limine} {image : KernelImage} {s : KernelRegions}
    (reached : KernelRegionsReached boot image s) :
    ∃ first last mids free slabs tables,
      GapEnds boot image (bootEntry boot.offset boot.entries image) first last ∧
      RegionRunInv boot image (bootEntry boot.offset boot.entries image) first last s mids free slabs
        tables := by
  induction reached with
  | @start mem k₀ k pmm vmm gap =>
      obtain ⟨first, last, free, slabs, tables, inv, ends, base, length, final, -⟩ :=
        booted_inv pmm vmm
      refine ⟨first, last, [], free, slabs, tables, ⟨ends, ?_, final, gap.below, gap.room, ?_⟩,
        inv, List.Perm.nil⟩
      · rw [base, length, gapStart]
      · intro virt lower upper
        have absent := translate_none_iff.mp (gap.unmapped virt lower upper)
        rwa [inv.rest _ (pageIndex_lt virt) (by simp [runs])] at absent
  | step _ allowed next ih =>
      obtain ⟨first, last, mids, free, slabs, tables, gap, run⟩ := ih
      rcases run.step gap allowed with
        ⟨stopped, -⟩ | ⟨s'', mids', free', slabs', tables', ran, run', -⟩
      · exact absurd next (not_ok_of_stopped stopped)
      · obtain rfl := Except.ok.inj (ran.symm.trans next)
        exact ⟨first, last, mids', free', slabs', tables', gap, run'⟩

/-- In every reachable state the list, the page tables and the physical pages agree, and the
next deallocation goes through and takes away exactly its region. -/
theorem kernel_regions_coherent (boot : Limine) (image : KernelImage) (s : KernelRegions)
    (reached : KernelRegionsReached boot image s) :
    (∃ first last mids, Coherent boot image s first last mids) ∧
      ∀ base ∈ s.bases, ∃ s', s.step boot.offset (.dealloc base) = .ok s' ∧
        DeallocExact boot.offset base s.kernel s'.kernel := by
  obtain ⟨first, last, mids, free, slabs, tables, gap, run⟩ := kernelRegionsReached_inv reached
  refine ⟨⟨first, last, mids, run.coherent gap⟩, ?_⟩
  intro base member
  have allowed : (KernelRegionOp.dealloc base).Allowed s := member
  rcases run.step gap allowed with ⟨-, size, flags, other⟩ | ⟨s', -, -, -, -, ran, -, exactly⟩
  · cases other
  · exact ⟨s', ran, exactly base rfl⟩

theorem machine_gap {virt : Nat} (lower : machine.offset + 2 ^ 32 ≤ virt)
    (upper : virt < machineImage.virtualBase) :
    bootEntry machine.offset machine.entries machineImage (pageIndex virt) = 0 := by
  have offset : machine.offset = 0xffff800000000000 := rfl
  have base : machineImage.virtualBase = 0xffffffff80000000 := rfl
  have none : lastPhys (bootMaps machine.offset machine.entries machineImage) (pageIndex virt) =
      none := by
    apply lastPhys_eq_none
    intro m member
    rcases List.mem_append.mp member with kernel | direct
    · rw [machine_imageMaps kernel]
      unfold pageIndex
      omega
    · obtain ⟨place, small⟩ := machine_hhdmMaps direct
      rw [place]
      unfold pageIndex add64
      omega
  rw [bootEntry, none]

theorem kernel_regions_coherent_one_page : ∃ s : KernelRegions, s.bases ≠ [] ∧
    (∃ first last mids, Coherent machine machineImage s first last mids) ∧
    ∀ base ∈ s.bases, ∃ s', s.step machine.offset (.dealloc base) = .ok s' ∧
      DeallocExact machine.offset base s.kernel s'.kernel := by
  have paths : machinePaths.length = 2057 := by simp [machinePaths]
  obtain ⟨k₀, k, free, slabs, tables, first, last, pmm, vmm, inv, ends, base, length, final, -,
    many, -⟩ := boot_of_enough machine machineImage (fun _ => 0) machinePaths machine_covers
      (by rw [paths, machine_pages]; decide)
  rw [paths, machine_pages] at many
  have start : gapStart machine = machine.offset + (2 ^ 32 + 2 ^ 25) := by
    rw [gapStart, machine_hhdmPages]
  have beyond : machine.offset + 2 ^ 32 ≤ gapStart machine := by
    rw [start]
    apply Nat.add_le_add_left (by decide)
  have gap : GapFree machine machineImage k := by
    refine ⟨by decide, by rw [start]; decide, ?_⟩
    intro virt lower upper
    rw [translate_none_iff, inv.rest _ (pageIndex_lt virt) (by simp [runs]),
      machine_gap (beyond.trans lower) upper]
    decide
  have booted := KernelRegionsReached.start pmm vmm gap
  have allowed : (KernelRegionOp.alloc 4096 presentRw).Allowed ⟨k, []⟩ :=
    ⟨by decide, by decide, presentRw_bits⟩
  rcases vmmRegionAlloc_spec inv (pages_direct machine) ends presentRw_bits
      (show 1 ≤ 4096 by decide) (by decide) with
    ⟨few, -⟩ | ⟨full, -⟩ | ⟨r, k', -, -, -, -, -, ran, -⟩
  · have rounded : alignUp 4096 4096 = 4096 := by decide
    rw [rounded] at few
    omega
  · have fit : fits 4096 first last = true := by
      have rounded : alignUp 4096 4096 = 4096 := by decide
      rw [fits, decide_eq_true_eq, rounded, VmmRegion.stop, base, length, final, machine_hhdmPages]
      decide
    rw [inv.list, List.nil_append, findGap, findPair, if_pos fit] at full
    cases full
  · refine ⟨⟨k', [r.base]⟩, List.cons_ne_nil _ _, ?_⟩
    apply kernel_regions_coherent machine machineImage
    apply booted.step allowed
    rw [KernelRegions.step, ran, ok_bind]

end Nyaux.Mm
