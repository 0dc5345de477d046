import Nyaux.Syscall.Mmap
import Nyaux.Mm.UserRegions

/-! When a non-fixed mapping is fresh.

First fit keeps clear of every listed region. It knows nothing of address 0, nor of the pages
that are mapped without being listed: those of the stack, of fixed mappings and of segments
that start inside a region. -/

namespace Nyaux.Syscall

open Word Mm Elf

/-- The regions between the two that `new_pagemap` made. -/
def allocated (u : UserMap) : List VmmRegion := u.regions.tail.dropLast

def Covers (r : VmmRegion) (page : Nat) : Prop :=
  r.base ≤ page * 4096 ∧ page * 4096 < r.base + r.length

def Unlisted (u : UserMap) (page : Nat) : Prop :=
  page ∈ u.mapped ∧ ∀ r ∈ allocated u, ¬ Covers r page

/-- The `size` bytes from `base` leave out address 0 and every page mapped so far. -/
def Fresh (u : UserMap) (base size : Nat) : Prop :=
  ∀ address, base ≤ address → address < base + size →
    address ≠ 0 ∧ pageIndex address ∉ u.mapped

structure SegmentFits (u : UserMap) (base : Nat) (phdr : Elf64Phdr) : Prop where
  aligned : 4096 ∣ base
  userHalf : base + phdr.pVaddr + phdr.pMemsz ≤ 2 ^ 47
  gap : (∀ r ∈ allocated u, ¬ (r.base < segmentBase base phdr ∧
      segmentBase base phdr < r.base + r.length)) →
    ∀ r ∈ allocated u, segmentBase base phdr ≤ r.base →
      segmentBase base phdr + segmentLength phdr ≤ r.base

/-- Every segment fits where the list stands when its turn comes. -/
def SegmentsFit (heap : Nat → Nat) : List (Nat × Elf64Phdr) → Process → Prop
  | [], _ => True
  | (base, phdr) :: rest, p =>
      SegmentFits p.map base phdr ∧
        ∀ q, loadSegment heap base phdr p = some q → SegmentsFit heap rest q

/-- Calls for anonymous memory: a size from one byte to under 2 GiB, and for the fixed ones a
page-aligned hint in the user half. -/
structure AnonymousCall (frame : SyscallFrame) : Prop where
  positive : 0 < frame.rdx.toNat
  small : frame.rdx.toNat < 2 ^ 31
  flags : frame.flags = mapAnonymous ∨
    (frame.flags = (mapAnonymous ||| mapFixed : Nat) ∨
      frame.flags = (mapAnonymous ||| mapFixed ||| mapPrivate : Nat)) ∧
      4096 ∣ frame.rsi.toNat ∧ frame.rsi.toNat < 2 ^ 47

structure ListInv (hhdm kernelHigherHalfSize total : Nat) (p : Process) (mids : List VmmRegion) :
    Prop where
  regions : p.map.regions = sentinel :: (mids ++ [kernelRegion hhdm kernelHigherHalfSize])
  layout : Layout 0 sentinel mids (kernelRegion hhdm kernelHigherHalfSize)
  pages : ∀ r ∈ mids, 4096 ∣ r.base ∧ 4096 ∣ r.length
  low : ∀ r ∈ mids, r.base + r.length ≤ 2 ^ 47 + 4096 * (total - p.frames)
  frames : p.frames ≤ total

theorem allocated_eq {u : UserMap} {first last : VmmRegion} {mids : List VmmRegion}
    (listed : u.regions = first :: (mids ++ [last])) : allocated u = mids := by
  rw [allocated, listed, List.tail_cons, List.dropLast_concat]

theorem take_eq {n : Nat} {p q : Process} (paid : p.take n = some q) :
    n ≤ p.frames ∧ q = { p with frames := p.frames - n } := by
  unfold Process.take at paid
  split at paid
  · exact ⟨‹_›, (Option.some.inj paid).symm⟩
  · contradiction

section Steps

variable {hhdm kernelHigherHalfSize total : Nat}

theorem listInv_start (small : hhdm < 2 ^ 64) (total : Nat) :
    ListInv hhdm kernelHigherHalfSize total ⟨newPagemap hhdm kernelHigherHalfSize, total⟩ [] where
  regions := rfl
  layout := layout_start small 0 0
  pages := by simp
  low := by simp
  frames := le_refl total

theorem ListInv.of_regions {p q : Process} {mids : List VmmRegion}
    (inv : ListInv hhdm kernelHigherHalfSize total p mids) (same : q.map.regions = p.map.regions)
    (fewer : q.frames ≤ p.frames) : ListInv hhdm kernelHigherHalfSize total q mids where
  regions := same.trans inv.regions
  layout := inv.layout
  pages := inv.pages
  low := by
    intro r member
    have := inv.low r member
    have := inv.frames
    omega
  frames := fewer.trans inv.frames

theorem ListInv.enter {p q : Process} {before others : List VmmRegion}
    (inv : ListInv hhdm kernelHigherHalfSize total p (before ++ others)) (r : VmmRegion)
    (regions : q.map.regions =
      sentinel :: ((before ++ r :: others) ++ [kernelRegion hhdm kernelHigherHalfSize]))
    (layout : Layout 0 sentinel (before ++ r :: others) (kernelRegion hhdm kernelHigherHalfSize))
    (fewer : q.frames ≤ p.frames) (aligned : 4096 ∣ r.base ∧ 4096 ∣ r.length)
    (reach : r.base + r.length ≤ 2 ^ 47 + 4096 * (total - q.frames)) :
    ListInv hhdm kernelHigherHalfSize total q (before ++ r :: others) := by
  have known : ∀ x ∈ before ++ r :: others, x = r ∨ x ∈ before ++ others := by
    intro x member
    rcases List.mem_append.mp member with old | new
    · exact Or.inr (List.mem_append_left _ old)
    · rcases List.mem_cons.mp new with same | old
      · exact Or.inl same
      · exact Or.inr (List.mem_append_right _ old)
  refine ⟨regions, layout, ?_, ?_, fewer.trans inv.frames⟩
  · intro x member
    rcases known x member with rfl | old
    · exact aligned
    · exact inv.pages x old
  · intro x member
    rcases known x member with rfl | old
    · exact reach
    · have := inv.low x old
      have := inv.frames
      omega

theorem alignUp_small {size : Nat} (positive : 0 < size) (small : size < 2 ^ 31) :
    4096 ∣ alignUp size 4096 ∧ size ≤ alignUp size 4096 ∧ alignUp size 4096 ≤ 2 ^ 31 ∧
      0 < alignUp size 4096 ∧ (numOfPages size).toNat * 4096 = alignUp size 4096 ∧
      add64 (alignUp size 4096) 0x1000 = alignUp size 4096 + 0x1000 := by
  have rounded := alignUp_page_of_le (show size ≤ 2 ^ 64 - 4096 by omega)
  have multiple : 4096 ∣ alignUp size 4096 := by
    rw [rounded]
    exact Nat.dvd_mul_left _ _
  have bounds : size ≤ alignUp size 4096 ∧ alignUp size 4096 ≤ 2 ^ 31 := by
    rw [rounded]
    omega
  have pages : (numOfPages size).toNat = alignUp size 4096 / 4096 := by
    rw [numOfPages, toInt32_of_lt (by omega), Int.toNat_natCast]
  refine ⟨multiple, bounds.1, bounds.2, by omega, ?_, add64_of_lt (by omega)⟩
  rw [pages, Nat.div_mul_cancel multiple]

theorem listInv_alloc {p q : Process} {mids : List VmmRegion} {node size base : Nat}
    (inv : ListInv hhdm kernelHigherHalfSize total p mids) (positive : 0 < size)
    (small : size < 2 ^ 31) (returned : allocUser node size p = some (base, q)) :
    (∃ mids', ListInv hhdm kernelHigherHalfSize total q mids') ∧
      LowestGap hhdm mids (alignUp size 4096) base ∧
      base + alignUp size 4096 ≤ 2 ^ 47 + 4096 * total := by
  obtain ⟨⟨b, map⟩, found, rest⟩ := Option.bind_eq_some_iff.mp returned
  obtain ⟨paid, enough, same⟩ := Option.bind_eq_some_iff.mp rest
  obtain ⟨rfl, rfl⟩ := Prod.mk.inj (Option.some.inj same)
  obtain ⟨affordable, rfl⟩ := take_eq enough
  obtain ⟨before, cur, after, split, fit, start, regions, -, passed⟩ :=
    vmmRegionAllocUser_eq inv.regions found
  obtain ⟨multiple, -, -, -, pages, plain⟩ := alignUp_small positive small
  obtain ⟨others, tail, mids_eq, layout, position, -⟩ := inv.layout.first_fit before after cur node
    size split fit plain ⟨node, b, alignUp size 4096⟩ (by rw [start]; rfl)
  have word : b < 2 ^ 64 := layout.words ⟨node, b, alignUp size 4096⟩ (by simp)
  have lands : b = endPos 0 before := by rw [← position, pos_zero word]
  have lowest := inv.layout.lowest_gap rfl before after cur size split fit passed plain
  rw [← lands] at lowest
  have frames := inv.frames
  have reach : b ≤ 2 ^ 47 + 4096 * (total - p.frames) ∧ 4096 ∣ b := by
    rcases lowest.1.adjacent with zero | ⟨r, member, meets⟩
    · omega
    · have := inv.low r member
      have := inv.pages r member
      omega
  have cost : 4096 * (numOfPages size).toNat = alignUp size 4096 := by omega
  subst mids_eq
  refine ⟨⟨_, inv.enter ⟨node, b, alignUp size 4096⟩ ?_ layout (Nat.sub_le _ _)
    ⟨reach.2, multiple⟩ ?_⟩, lowest, ?_⟩
  · rw [regions, tail]
    simp
  · rw [← cost]
    generalize (numOfPages size).toNat = n at affordable cost ⊢
    dsimp only
    omega
  · omega

theorem segment_bounds {u : UserMap} {base : Nat} {phdr : Elf64Phdr}
    (fit : SegmentFits u base phdr) :
    4096 ∣ segmentBase base phdr ∧ 4096 ∣ segmentLength phdr ∧
      segmentBase base phdr + segmentLength phdr ≤ 2 ^ 47 := by
  have half := fit.userHalf
  have aligned := fit.aligned
  have plain : add64 base phdr.pVaddr = base + phdr.pVaddr := add64_of_lt (by omega)
  have offset : misaligned phdr = phdr.pVaddr % 4096 := by
    have mask : (4095 : Nat) = 2 ^ 12 - 1 := by norm_num
    rw [misaligned, mask, Nat.and_two_pow_sub_one_eq_mod]
  have first : segmentBase base phdr = (base + phdr.pVaddr) / 4096 * 4096 := by
    rw [segmentBase, plain, alignDown_page (by omega)]
  have length : segmentLength phdr = (phdr.pMemsz + phdr.pVaddr % 4096 + 4095) / 4096 * 4096 := by
    rw [segmentLength, offset, add64_of_lt (by omega), alignUp_page_of_le (by omega)]
  refine ⟨?_, ?_, ?_⟩
  · rw [first]
    exact Nat.dvd_mul_left _ _
  · rw [length]
    exact Nat.dvd_mul_left _ _
  · rw [first, length]
    omega

theorem listInv_segment {p q : Process} {mids : List VmmRegion} {heap : Nat → Nat} {base : Nat}
    {phdr : Elf64Phdr} (inv : ListInv hhdm kernelHigherHalfSize total p mids)
    (high : 2 ^ 47 ≤ hhdm) (fit : SegmentFits p.map base phdr)
    (loaded : loadSegment heap base phdr p = some q) :
    ∃ mids', ListInv hhdm kernelHigherHalfSize total q mids' := by
  rw [loadSegment] at loaded
  obtain ⟨paid, enough, same⟩ := Option.bind_eq_some_iff.mp loaded
  obtain ⟨affordable, rfl⟩ := take_eq enough
  obtain rfl := Option.some.inj same
  obtain ⟨alignedBase, alignedLength, userHalf⟩ := segment_bounds fit
  have frames := inv.frames
  have gap := fit.gap
  rw [allocated_eq inv.regions] at gap
  cases found : findPair (startsBetween (segmentBase base phdr)) p.map.regions with
  | none =>
      refine ⟨mids, inv.of_regions ?_ (Nat.sub_le _ _)⟩
      simp [enterSegment, found]
  | some pair =>
      obtain ⟨front, back⟩ := pair
      rw [inv.regions] at found
      obtain ⟨before, cur, after, split, rfl, rfl, between⟩ := findPair_split found
      rw [← inv.regions] at found
      obtain ⟨others, tail, mids_eq⟩ := split_last split
      obtain ⟨above, below⟩ := of_decide_eq_true between
      obtain ⟨stop, small⟩ := inv.layout.stop_before before (cur :: after) split
        (List.cons_ne_nil _ _)
      rw [stop, add64_of_lt (by omega), Nat.zero_add] at below
      have wordsMids : ∀ r ∈ mids, r.base < 2 ^ 64 :=
        fun r member => inv.layout.words r (List.mem_append_left _ member)
      have under : ∀ r ∈ before, r.base + r.length ≤ segmentBase base phdr := by
        intro r member
        have := inv.layout.below_end before (cur :: after) split r member
        rw [pos_zero (wordsMids r (by rw [mids_eq]; exact List.mem_append_left _ member))] at this
        omega
      have higher : ∀ r ∈ cur :: after, segmentBase base phdr ≤ r.base := by
        intro r member
        rcases List.mem_cons.mp member with rfl | later
        · exact above
        · have sorted := inv.layout.sorted
          rw [split, List.pairwise_append] at sorted
          have := (List.pairwise_cons.mp sorted.2.1).1 r later
          rw [pos_zero (inv.layout.words cur (by rw [split]; simp)),
            pos_zero (inv.layout.words r (by
              rw [split]
              exact List.mem_append_right _ member))] at this
          omega
      have room := gap (by
        intro r member inside
        rw [mids_eq] at member
        rcases List.mem_append.mp member with earlier | later
        · have := under r earlier
          omega
        · have := higher r (by rw [tail]; exact List.mem_append_left _ later)
          omega)
      have word : segmentBase base phdr < 2 ^ 64 := by omega
      have shape : (before ++ ⟨heap p.map.regions.length, segmentBase base phdr,
          segmentLength phdr⟩ :: others) ++ [kernelRegion hhdm kernelHigherHalfSize] =
            before ++ ⟨heap p.map.regions.length, segmentBase base phdr,
              segmentLength phdr⟩ :: (cur :: after) := by
        rw [tail]
        simp
      subst mids_eq
      refine ⟨_, inv.enter ⟨heap p.map.regions.length, segmentBase base phdr,
        segmentLength phdr⟩ ?_ ?_ (Nat.sub_le _ _) ⟨alignedBase, alignedLength⟩
        (userHalf.trans (Nat.le_add_right _ _))⟩
      · simp only [enterSegment, found]
        rw [shape]
        rfl
      · refine inv.layout.link before (cur :: after) ⟨heap p.map.regions.length,
          segmentBase base phdr, segmentLength phdr⟩ split word ?_ ?_ _ shape
        · intro a member
          rw [pos_zero (wordsMids a (List.mem_append_left _ member)),
            pos_zero (r := ⟨_, segmentBase base phdr, segmentLength phdr⟩) word]
          exact under a member
        · intro b member
          rw [pos_zero (r := ⟨_, segmentBase base phdr, segmentLength phdr⟩) word,
            pos_zero (inv.layout.words b (by
              rw [split]
              exact List.mem_append_right _ member))]
          rw [tail] at member
          rcases List.mem_append.mp member with later | final
          · exact room b (List.mem_append_right _ later)
              (higher b (by rw [tail]; exact List.mem_append_left _ later))
          · rw [List.mem_singleton.mp final]
            exact userHalf.trans high

theorem listInv_segments {heap : Nat → Nat} (high : 2 ^ 47 ≤ hhdm)
    (segs : List (Nat × Elf64Phdr)) {p q : Process} {mids : List VmmRegion}
    (inv : ListInv hhdm kernelHigherHalfSize total p mids) (fit : SegmentsFit heap segs p)
    (loaded : loadSegments heap segs p = some q) :
    ∃ mids', ListInv hhdm kernelHigherHalfSize total q mids' := by
  induction segs generalizing p mids with
  | nil =>
      obtain rfl : p = q := Option.some.inj loaded
      exact ⟨mids, inv⟩
  | cons seg rest ih =>
      simp only [loadSegments, List.foldlM_cons] at loaded
      obtain ⟨next, step, later⟩ := Option.bind_eq_some_iff.mp loaded
      obtain ⟨mids', inv'⟩ := listInv_segment inv high fit.1 step
      exact ih inv' (fit.2 next step) later

theorem listInv_mmapFixed {p q : Process} {mids : List VmmRegion} {hint size base : Nat}
    (inv : ListInv hhdm kernelHigherHalfSize total p mids)
    (returned : mmapFixed hint size p = some (base, q)) :
    ListInv hhdm kernelHigherHalfSize total q mids := by
  rw [mmapFixed] at returned
  obtain ⟨⟨b, map⟩, ranged, rest⟩ := Option.bind_eq_some_iff.mp returned
  obtain ⟨paid, enough, same⟩ := Option.bind_eq_some_iff.mp rest
  obtain ⟨rfl, rfl⟩ := Prod.mk.inj (Option.some.inj same)
  obtain ⟨-, rfl⟩ := take_eq enough
  refine inv.of_regions ?_ (Nat.sub_le _ _)
  unfold mmapRange at ranged
  split at ranged
  · cases ranged
  · cases ranged
    rfl

theorem listInv_call {heap : Nat → Nat} {p q : Process} {mids : List VmmRegion}
    {frame frame' : SyscallFrame} (inv : ListInv hhdm kernelHigherHalfSize total p mids)
    (call : AnonymousCall frame) (step : syscallMmap heap frame p = some (frame', q)) :
    ∃ mids', ListInv hhdm kernelHigherHalfSize total q mids' := by
  unfold syscallMmap at step
  split at step
  · obtain ⟨⟨base, r⟩, returned, same⟩ := Option.map_eq_some_iff.mp step
    obtain ⟨-, rfl⟩ := Prod.mk.inj same
    exact (listInv_alloc inv call.positive call.small returned).1
  · split at step
    · obtain ⟨⟨base, r⟩, returned, same⟩ := Option.map_eq_some_iff.mp step
      obtain ⟨-, rfl⟩ := Prod.mk.inj same
      exact ⟨mids, listInv_mmapFixed inv returned⟩
    · obtain ⟨-, rfl⟩ := Prod.mk.inj (Option.some.inj step)
      exact ⟨mids, inv⟩

theorem listInv_calls {heap : Nat → Nat} (frames : List SyscallFrame) {p q : Process}
    {mids : List VmmRegion} (inv : ListInv hhdm kernelHigherHalfSize total p mids)
    (calls : ∀ frame ∈ frames, AnonymousCall frame) (run : mmapCalls heap frames p = some q) :
    ∃ mids', ListInv hhdm kernelHigherHalfSize total q mids' := by
  induction frames generalizing p mids with
  | nil =>
      obtain rfl : p = q := Option.some.inj run
      exact ⟨mids, inv⟩
  | cons frame rest ih =>
      simp only [mmapCalls, List.foldlM_cons] at run
      obtain ⟨next, step, later⟩ := Option.bind_eq_some_iff.mp run
      obtain ⟨⟨frame', r⟩, returned, rfl⟩ := Option.map_eq_some_iff.mp step
      obtain ⟨mids', inv'⟩ := listInv_call inv (calls frame List.mem_cons_self) returned
      exact ih inv' (fun f member => calls f (List.mem_cons_of_mem _ member)) later

end Steps

/-- The lowest gap for the request is not at address 0 and no page mapped behind the list's
back lies in it. -/
def GapIsClear (limit : Nat) (u : UserMap) (size : Nat) : Prop :=
  ∀ start, LowestGap limit (allocated u) (alignUp size 4096) start →
    start ≠ 0 ∧ ∀ page, start ≤ page * 4096 → page * 4096 < start + alignUp size 4096 →
      ¬ Unlisted u page

/-- Below `2 ^ 48` every page has its own place in the tables, so only unlisted pages can be
hit. -/
theorem fresh_iff_clear {hhdm total size base : Nat} {u : UserMap} (positive : 0 < size)
    (small : size < 2 ^ 31) (aligned : ∀ r ∈ allocated u, 4096 ∣ r.base ∧ 4096 ∣ r.length)
    (lowest : LowestGap hhdm (allocated u) (alignUp size 4096) base)
    (memory : total ≤ 2 ^ 35) (reach : base + alignUp size 4096 ≤ 2 ^ 47 + 4096 * total) :
    Fresh u base size ↔ GapIsClear hhdm u size := by
  obtain ⟨multiple, covers, -, -, -, -⟩ := alignUp_small positive small
  have tight : alignUp size 4096 < size + 4096 := by
    rw [alignUp_page_of_le (by omega)]
    omega
  have onPage : 4096 ∣ base := by
    rcases lowest.1.adjacent with zero | ⟨r, member, meets⟩
    · omega
    · have := aligned r member
      omega
  constructor
  · intro fresh start found
    obtain rfl : start = base := found.unique lowest
    refine ⟨(fresh start (le_refl _) (by omega)).1, ?_⟩
    intro page lower upper unlisted
    have missed := (fresh (page * 4096) lower (by omega)).2
    have index : pageIndex (page * 4096) = page := by
      unfold pageIndex
      omega
    rw [index] at missed
    exact missed unlisted.1
  · intro clear address lower upper
    obtain ⟨nonzero, apart⟩ := clear base lowest
    refine ⟨by omega, fun mapped => ?_⟩
    have index : pageIndex address = address / 4096 := by
      unfold pageIndex
      omega
    rw [index] at mapped
    refine apart (address / 4096) (by omega) (by omega) ⟨mapped, ?_⟩
    rintro r member ⟨from_, to_⟩
    rcases lowest.1.apart r member with under | above
    · omega
    · omega

/-- In any process built from a program whose segments fit, after any sequence of anonymous
mappings, a non-fixed mapping that succeeds is fresh exactly when its gap is clear. -/
theorem fresh_mapping_iff (hhdm kernelHigherHalfSize total : Nat) (heap : Nat → Nat)
    (lookup : List UInt8 → Option Fs.Vnode) (scratch : List UInt8) (fuel : Nat) (file : Fs.Vnode)
    (built p : Process) (frames : List SyscallFrame) (frame frame' : SyscallFrame) (q : Process)
    (high : 2 ^ 47 ≤ hhdm) (word : hhdm < 2 ^ 64) (memory : total ≤ 2 ^ 35)
    (loaded : loadElfProgram heap lookup scratch fuel 0 file
      ⟨newPagemap hhdm kernelHigherHalfSize, total⟩ = some built)
    (fit : SegmentsFit heap (segments lookup scratch fuel 0 file)
      ⟨newPagemap hhdm kernelHigherHalfSize, total⟩)
    (calls : ∀ frame ∈ frames, AnonymousCall frame) (run : mmapCalls heap frames built = some p)
    (call : AnonymousCall frame) (nonFixed : frame.flags = mapAnonymous)
    (returned : syscallMmap heap frame p = some (frame', q)) :
    Fresh p.map frame'.rax.toNat frame.rdx.toNat ↔ GapIsClear hhdm p.map frame.rdx.toNat := by
  obtain ⟨segmented, chain, regions, frames_le⟩ :=
    loadElfProgram_eq heap lookup scratch fuel 0 file _ built loaded
  obtain ⟨mids, first⟩ := listInv_segments high _ (listInv_start word total) fit chain
  obtain ⟨mids', inv⟩ := listInv_calls frames (first.of_regions regions frames_le) calls run
  rw [syscallMmap, if_pos nonFixed] at returned
  obtain ⟨⟨base, r⟩, allocation, same⟩ := Option.map_eq_some_iff.mp returned
  obtain ⟨answered, -⟩ := Prod.mk.inj same
  obtain ⟨-, lowest, reach⟩ := listInv_alloc inv call.positive call.small allocation
  have listed := allocated_eq inv.regions
  have result : frame'.rax.toNat = base := by
    rw [← answered]
    exact Nat.mod_eq_of_lt (by omega)
  rw [result]
  rw [← listed] at lowest
  exact fresh_iff_clear call.positive call.small (by rw [listed]; exact inv.pages) lowest memory
    reach

def oneSegment (vaddr : List UInt8) : Fs.Vnode :=
  let image : List UInt8 :=
    [0x7f, 0x45, 0x4c, 0x46, 2, 1, 1, 0, 0, 0, 0, 0, 0, 0, 0, 0, 2, 0, 0x3e, 0, 1, 0, 0, 0] ++
      vaddr ++ [64, 0, 0, 0, 0, 0, 0, 0, 0, 0, 0, 0, 0, 0, 0, 0, 0, 0, 0, 0, 64, 0, 56, 0, 1, 0,
        0, 0, 0, 0, 0, 0, 1, 0, 0, 0, 5, 0, 0, 0, 0, 0, 0, 0, 0, 0, 0, 0] ++
      vaddr ++ vaddr ++ [0x78, 0, 0, 0, 0, 0, 0, 0, 0x78, 0, 0, 0, 0, 0, 0, 0,
        0, 0x10, 0, 0, 0, 0, 0, 0]
  { type := .file, dir := [],
    node := { data := ⟨0xffff800000010000, fun i => (image[i]?).getD 0⟩, size := 120 } }

def mmapFrame (hint size flags : BitVec 64) : SyscallFrame :=
  { rax := 0, rdi := 0, rsi := hint, rdx := size, r10 := flags, r8 := 0, r9 := 0 }

def heapAt (n : Nat) : Nat := 0xffff800000020000 + 32 * n

/-- A machine with 200 free pages, right after `new_pagemap`. -/
def freshProcess : Process := ⟨newPagemap 0xffff800000000000 0xffffffff80100000, 200⟩

def loadOne (vaddr : List UInt8) : Option Process :=
  loadElfProgram heapAt (fun _ => none) [] 1 0 (oneSegment vaddr) freshProcess

theorem mmapFrame_anonymous : AnonymousCall (mmapFrame 0 4096 0x20) :=
  ⟨by decide, by decide, Or.inl (by decide)⟩

/-- Position-independent code at address 0 leaves the first gap right above it. -/
theorem fresh_mapping_iff_one_segment :
    ∃ built frame' q, loadOne [0, 0, 0, 0, 0, 0, 0, 0] = some built ∧
      syscallMmap heapAt (mmapFrame 0 4096 0x20) built = some (frame', q) ∧
      (Fresh built.map frame'.rax.toNat 4096 ↔ GapIsClear 0xffff800000000000 built.map 4096) := by
  have completes : ((loadOne [0, 0, 0, 0, 0, 0, 0, 0]).bind
      (syscallMmap heapAt (mmapFrame 0 4096 0x20))).isSome = true := by decide
  obtain ⟨⟨frame', q⟩, both⟩ := Option.isSome_iff_exists.mp completes
  obtain ⟨built, loaded, returned⟩ := Option.bind_eq_some_iff.mp both
  have fit : SegmentsFit heapAt
      (segments (fun _ => none) [] 1 0 (oneSegment [0, 0, 0, 0, 0, 0, 0, 0])) freshProcess := by
    have shape : segments (fun _ => none) [] 1 0 (oneSegment [0, 0, 0, 0, 0, 0, 0, 0]) =
        [(0, ⟨1, 0, 0, 0x78, 0x78⟩)] := by decide
    rw [shape]
    refine ⟨⟨by decide, by decide, ?_⟩, fun _ _ => trivial⟩
    intro _ r member
    simp [freshProcess, newPagemap, allocated] at member
  exact ⟨built, frame', q, loaded, returned, fresh_mapping_iff 0xffff800000000000
    0xffffffff80100000 200 heapAt (fun _ => none) [] 1 _ built built [] _ frame' q (by decide)
    (by decide) (by decide) loaded fit (by simp) rfl mmapFrame_anonymous (by decide) returned⟩

/-- Code at 0x400000 leaves the first gap at address 0; and a fixed mapping right above
position-independent code is handed out again. -/
theorem mapping_not_fresh :
    (∃ built frame' q, loadOne [0, 0, 0x40, 0, 0, 0, 0, 0] = some built ∧
      syscallMmap heapAt (mmapFrame 0 4096 0x20) built = some (frame', q) ∧
      ¬ Fresh built.map frame'.rax.toNat 4096) ∧
    ∃ built p frame' q, loadOne [0, 0, 0, 0, 0, 0, 0, 0] = some built ∧
      mmapCalls heapAt [mmapFrame 0x1000 4096 0x30] built = some p ∧
      syscallMmap heapAt (mmapFrame 0 4096 0x20) p = some (frame', q) ∧
      ¬ Fresh p.map frame'.rax.toNat 4096 := by
  constructor
  · have run : ((loadOne [0, 0, 0x40, 0, 0, 0, 0, 0]).bind fun built =>
        (syscallMmap heapAt (mmapFrame 0 4096 0x20) built).map fun r => r.1.rax) =
          some 0 := by decide
    obtain ⟨built, loaded, rest⟩ := Option.bind_eq_some_iff.mp run
    obtain ⟨⟨frame', q⟩, returned, zero⟩ := Option.map_eq_some_iff.mp rest
    refine ⟨built, frame', q, loaded, returned, fun fresh => ?_⟩
    dsimp only at zero
    rw [zero] at fresh
    exact (fresh 0 (le_refl _) (by decide)).1 rfl
  · have run : ((loadOne [0, 0, 0, 0, 0, 0, 0, 0]).bind fun built =>
        (mmapCalls heapAt [mmapFrame 0x1000 4096 0x30] built).bind fun p =>
          (syscallMmap heapAt (mmapFrame 0 4096 0x20) p).map fun r =>
            (r.1.rax, decide (pageIndex 0x1000 ∈ p.map.mapped))) = some (0x1000, true) := by
      decide
    obtain ⟨built, loaded, rest⟩ := Option.bind_eq_some_iff.mp run
    obtain ⟨p, mapped, rest⟩ := Option.bind_eq_some_iff.mp rest
    obtain ⟨⟨frame', q⟩, returned, pair⟩ := Option.map_eq_some_iff.mp rest
    obtain ⟨lands, taken⟩ := Prod.mk.inj pair
    refine ⟨built, p, frame', q, loaded, mapped, returned, fun fresh => ?_⟩
    dsimp only at lands
    rw [lands] at fresh
    exact (fresh 0x1000 (by decide) (by decide)).2 (of_decide_eq_true taken)

end Nyaux.Syscall
