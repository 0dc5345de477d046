import Nyaux.Elf.ProcessPages
import Nyaux.Mm.FreshPages
import Nyaux.Syscall.Mmap

/-! The ranges that the allocation functions return, byte by byte. -/

namespace Nyaux.Syscall

open Word Memory Paging Mm Elf

/-- `proto & PROT_EXEC`, from the high half of the fourth register. -/
def SyscallFrame.exec (frame : SyscallFrame) : Bool :=
  (frame.r10.toNat >>> 32) &&& 0xFFFFFFFF &&& 0x04 ≠ 0

/-- `syscall_mmap` for a process that has a pagemap, down to its page tables. -/
def syscallMmapPages (offset : Nat) (frame : SyscallFrame) (userMap : Pagemap) (k : Kernel) :
    Except Stop (SyscallFrame × Pagemap × Kernel) :=
  if frame.flags = mapAnonymous then do
    let (memory, userMap, k) ←
      userMap.vmmRegionAllocUser offset frame.rdx.toNat (userFlags true) k
    .ok (frame.answer memory, userMap, k)
  else if frame.flags = (mapAnonymous ||| mapFixed : Nat) ∨
      frame.flags = (mapAnonymous ||| mapFixed ||| mapPrivate : Nat) then do
    let (memory, k) ←
      userMap.mmapRange offset frame.rsi.toNat frame.rdx.toNat (userFlags frame.exec) k
    .ok (frame.answer memory, userMap, k)
  else .ok ({ frame with rdx := BitVec.ofInt 64 (-1) }, userMap, k)

/-- The first `n` bytes of a `memset` to 0, through the page tables. -/
def memsetZero (offset pml4 dest : Nat) : Nat → Mem → Except Stop Mem
  | 0, mem => .ok mem
  | n + 1, mem => do
      let mem ← memsetZero offset pml4 dest n mem
      match translate offset mem pml4 (add64 dest n) with
      | some target => .ok (storeByte mem target 0)
      | none => .error .pageFault

/-- `count * size` as the processor computes it. -/
def product (count size : Nat) : Nat := count * size % 2 ^ 64

def uacpiKernelCalloc (offset count size : Nat) (k : Kernel) : Except Stop (Nat × Kernel) := do
  let (man, k) ← kmalloc offset (product count size) k
  let mem ← memsetZero offset k.pml4 man (product count size) k.mem
  .ok (man, { k with mem := mem })

/-- The calls that map a range. -/
inductive RangeCall
  | vmmRegionAlloc (size flags : Nat)
  | kmalloc (size : Nat)
  | uacpiKernelCalloc (count size : Nat)
  | vmmRegionAllocUser (userMap : Pagemap) (size flags : Nat)
  | mmapRange (userMap : Pagemap) (hint size flags : Nat)
  | mmap (userMap : Pagemap) (frame : SyscallFrame)

def gapStart (size : Nat) (regions : List VmmRegion) : Nat :=
  (((findGap size regions).bind fun gap => gap.1.getLast?).map VmmRegion.stop).getD 0

namespace RangeCall

/-- The table of the pagemap that the call is for. -/
def root (offset : Nat) (k : Kernel) : RangeCall → Nat
  | .vmmRegionAlloc _ _ => k.root offset
  | .kmalloc _ => k.root offset
  | .uacpiKernelCalloc _ _ => k.root offset
  | .vmmRegionAllocUser userMap _ _ => userMap.root offset
  | .mmapRange userMap _ _ _ => userMap.root offset
  | .mmap userMap _ => userMap.root offset

/-- The bytes the caller asks for. -/
def size : RangeCall → Nat
  | .vmmRegionAlloc size _ => size
  | .kmalloc size => size
  | .uacpiKernelCalloc count size => count * size
  | .vmmRegionAllocUser _ size _ => size
  | .mmapRange _ _ size _ => size
  | .mmap _ frame => frame.rdx.toNat

def flags : RangeCall → Nat
  | .vmmRegionAlloc _ flags => flags
  | .kmalloc _ => presentRw
  | .uacpiKernelCalloc _ _ => presentRw
  | .vmmRegionAllocUser _ _ flags => flags
  | .mmapRange _ _ _ flags => flags
  | .mmap _ frame => if frame.flags = mapAnonymous then userFlags true else userFlags frame.exec

/-- Where the range is to start: at the hint, or where the list of regions has room. -/
def place (k : Kernel) : RangeCall → Nat
  | .vmmRegionAlloc size _ => gapStart size k.regions
  | .kmalloc size => gapStart (alignUp size 4096) k.regions
  | .uacpiKernelCalloc count size => gapStart (alignUp (product count size) 4096) k.regions
  | .vmmRegionAllocUser userMap size _ => gapStart size userMap.head
  | .mmapRange _ hint _ _ => hint
  | .mmap userMap frame =>
      if frame.flags = mapAnonymous then gapStart frame.rdx.toNat userMap.head
      else frame.rsi.toNat

/-- The call comes to one of the page loops. -/
def MapsPages : RangeCall → Prop
  | .vmmRegionAlloc _ _ => True
  | .kmalloc size => 1024 ≤ size
  | .uacpiKernelCalloc count size => 1024 ≤ product count size
  | .vmmRegionAllocUser _ _ _ => True
  | .mmapRange _ _ _ _ => True
  | .mmap _ frame => frame.flags = mapAnonymous ∨
      frame.flags = (mapAnonymous ||| mapFixed : Nat) ∨
      frame.flags = (mapAnonymous ||| mapFixed ||| mapPrivate : Nat)

/-- The returned address, and the state when the mapping function returns: of
`uacpi_kernel_calloc` the part before its `memset`. -/
def run (offset : Nat) (k : Kernel) : RangeCall → Except Stop (Nat × Kernel)
  | .vmmRegionAlloc size flags => Mm.vmmRegionAlloc offset size flags k
  | .kmalloc size => Mm.kmalloc offset size k
  | .uacpiKernelCalloc count size => Mm.kmalloc offset (product count size) k
  | .vmmRegionAllocUser userMap size flags => do
      let (base, _, k) ← userMap.vmmRegionAllocUser offset size flags k
      .ok (base, k)
  | .mmapRange userMap hint size flags => userMap.mmapRange offset hint size flags k
  | .mmap userMap frame => do
      let (frame, _, k) ← syscallMmapPages offset frame userMap k
      .ok (frame.rax.toNat, k)

end RangeCall

/-- Every byte of the range is mapped with the flags to a page taken from the free list and
cleared, different pages of the range to different ones; no other translation has changed. -/
structure MapsFresh (offset root a size flags : Nat) (k k' : Kernel) : Prop where
  fresh : ∀ page, RangePage a size page → ∃ p, OnFreeList k p ∧ ¬OnFreeList k' p ∧
    leafEntry offset k'.mem root page = (p - offset) ||| flags ∧
    ∀ address, InPage p address → k'.mem address = 0
  distinct : ∀ page page', RangePage a size page → RangePage a size page' →
    leafEntry offset k'.mem root page = leafEntry offset k'.mem root page' → page = page'
  others : ∀ page < 2 ^ 36, ¬RangePage a size page →
    leafEntry offset k'.mem root page = leafEntry offset k.mem root page

/-- No page of the range has an entry for a free page already. -/
def NoneFree (offset root a size flags : Nat) (k : Kernel) : Prop :=
  ∀ page, RangePage a size page → ∀ p, OnFreeList k p →
    leafEntry offset k.mem root page ≠ (p - offset) ||| flags

section

variable {offset : Nat} {pages : List Nat} {root flags a size n : Nat} {k k' : Kernel}
  {free : List Nat} {slabs : List Slab} {tables : List (List Nat × Nat)} {data : Multiset Nat}

def Looped (offset : Nat) (pages : List Nat) (root flags : Nat) (k : Kernel) (free : List Nat)
    (a n : Nat) (k' : Kernel) : Prop :=
  ∃ done free' slabs' tables' data',
    LoopInv offset pages root flags k free k' done free' slabs' tables' data' ∧
    ∀ page, page ∈ done ↔ page ∈ pageLoop a n

theorem Looped.mapsFresh (looped : Looped offset pages root flags k free a n k')
    (inv : PagingInv offset pages root 512 k free slabs tables data) (usable : Usable pages)
    (count : size ≤ 2 ^ 31 → n = (size + 4095) / 4096) :
    (Fits a size → MapsFresh offset root a size flags k k') ∧
      (NoneFree offset root a size flags k → MapsFresh offset root a size flags k k' →
        Fits a size) := by
  obtain ⟨done, free', slabs', tables', data', loop, known⟩ := looped
  constructor
  · intro fits
    have turns : n = (size + 4095) / 4096 := by
      rcases fits with empty | ⟨short, -⟩
      · exact count (by omega)
      · exact count short
    have ranged : ∀ page, page ∈ done ↔ RangePage a size page :=
      fun page => (known page).trans (mem_pageLoop_iff fits turns)
    refine ⟨?_, ?_, ?_⟩
    · intro page inside
      obtain ⟨-, p, wasFree, inData, entry, zero⟩ := loop.mapped page ((ranged page).mpr inside)
      refine ⟨p, (onFreeList_iff inv.heap).mpr wasFree, ?_, entry, zero⟩
      rw [onFreeList_iff loop.paging.heap]
      exact (loop.paging.apart usable inData).1
    · intro page page' inside inside'
      exact loop.distinct page ((ranged page).mpr inside) page' ((ranged page').mpr inside')
    · intro page bound outside
      exact loop.rest page bound fun member => outside ((ranged page).mp member)
  · intro none maps
    apply fits_of_covers count
    intro page inside
    by_contra outside
    have bound : page < 2 ^ 36 := by
      obtain ⟨i, -, rfl⟩ := inside
      exact pageIndex_lt _
    obtain ⟨p, wasFree, -, entry, -⟩ := maps.fresh page inside
    rw [loop.rest page bound fun member => outside ((known page).mp member)] at entry
    exact none page inside p wasFree entry

theorem vmmRegionAlloc_looped (inv : KernelPaging offset pages k free slabs tables data)
    (direct : Direct offset pages) (bits : FlagBits flags)
    (ran : vmmRegionAlloc offset size flags k = .ok (a, k')) :
    a = gapStart size k.regions ∧ k'.pml4 = k.pml4 ∧
      Looped offset pages (k.root offset) flags k free a (numOfPages size).toNat k' := by
  cases found : findGap size k.regions with
  | none =>
      rw [vmmRegionAlloc, found] at ran
      cases ran
  | some gap =>
      obtain ⟨front, back⟩ := gap
      cases final : front.getLast? with
      | none =>
          rw [vmmRegionAlloc, found] at ran
          dsimp only at ran
          rw [final] at ran
          cases ran
      | some prev =>
          rcases allocNode_spec inv direct.usable with
            ⟨-, stopped⟩ | ⟨node, k₁, free₁, slabs₁, ran₁, inv₁, -, entries, vars, taken, -⟩
          · rw [vmmRegionAlloc, found] at ran
            dsimp only at ran
            rw [final] at ran
            dsimp only at ran
            rw [stopped, error_bind] at ran
            cases ran
          rw [vmmRegionAlloc_eq found final ran₁] at ran
          obtain ⟨k₂, loop, returned⟩ := of_bind_ok ran
          obtain ⟨rfl, rfl⟩ := Prod.mk.inj (Except.ok.inj returned)
          have inv₂ := inv₁.setRegions (front ++ newRegion node size prev :: back)
          have same : SameEntries offset (k₁.root offset) 512 k.mem k₁.mem := by
            rw [vars.root]
            exact entries
          obtain ⟨root, done, free', tables', data', inv', known⟩ :=
            LoopInv.allocPages direct bits (LoopInv.start inv₂ taken.suffix same) loop
          rw [show Kernel.root offset { k₁ with
            regions := front ++ newRegion node size prev :: back } = k.root offset from vars.root]
            at inv'
          refine ⟨?_, root.trans vars.pml4, done, free', slabs₁, tables', data', inv', known⟩
          rw [gapStart, found, Option.bind_some, final]
          rfl

theorem vmmRegionAllocUser_looped {userMap userMap' : Pagemap}
    (inv : PagingInv offset pages (userMap.root offset) 512 k free slabs tables data)
    (direct : Direct offset pages) (bits : FlagBits flags)
    (ran : userMap.vmmRegionAllocUser offset size flags k = .ok (a, userMap', k')) :
    a = gapStart size userMap.head ∧
      Looped offset pages (userMap.root offset) flags k free a (numOfPages size).toNat k' := by
  rw [Pagemap.vmmRegionAllocUser] at ran
  cases found : findGap size userMap.head with
  | none =>
      rw [found] at ran
      cases ran
  | some gap =>
      obtain ⟨front, back⟩ := gap
      rw [found] at ran
      dsimp only at ran
      cases final : front.getLast? with
      | none =>
          rw [final] at ran
          cases ran
      | some prev =>
          rw [final] at ran
          dsimp only at ran
          obtain ⟨⟨node, k₁⟩, allocated, ran⟩ := of_bind_ok ran
          obtain ⟨k₂, loop, returned⟩ := of_bind_ok ran
          obtain ⟨rfl, same⟩ := Prod.mk.inj (Except.ok.inj returned)
          obtain ⟨-, rfl⟩ := Prod.mk.inj same
          rcases inv.allocNode_spec direct.usable with
            ⟨-, stopped⟩ | ⟨x, k₃, free₁, slabs₁, ran₁, inv₁, -, entries, -, taken, -⟩
          · rw [stopped] at allocated
            cases allocated
          obtain ⟨-, rfl⟩ := Prod.mk.inj (Except.ok.inj (ran₁.symm.trans allocated))
          obtain ⟨done, free', tables', data', inv', known⟩ :=
            LoopInv.mapFreshPages direct bits _ (LoopInv.start inv₁ taken.suffix entries) loop
          refine ⟨?_, done, free', slabs₁, tables', data', inv', fun page => ?_⟩
          · rw [gapStart, found, Option.bind_some, final]
            rfl
          · rw [known page, loopAddrs, List.map_map]
            exact or_iff_right List.not_mem_nil

theorem mmapRange_looped {userMap : Pagemap} {hint : Nat}
    (inv : PagingInv offset pages (userMap.root offset) 512 k free slabs tables data)
    (direct : Direct offset pages) (bits : FlagBits flags)
    (ran : userMap.mmapRange offset hint size flags k = .ok (a, k')) :
    a = hint ∧
      Looped offset pages (userMap.root offset) flags k free a (numOfPages size).toNat k' := by
  rw [Pagemap.mmapRange] at ran
  split at ran
  · cases ran
  · obtain ⟨k₁, loop, returned⟩ := of_bind_ok ran
    obtain ⟨rfl, rfl⟩ := Prod.mk.inj (Except.ok.inj returned)
    have start : LoopInv offset pages (userMap.root offset) flags k free k [] free slabs tables
        data := LoopInv.start inv List.suffix_rfl fun _ _ => rfl
    obtain ⟨done, free', tables', data', inv', known⟩ :=
      LoopInv.mapFreshPages direct bits _ start loop
    refine ⟨rfl, done, free', slabs, tables', data', inv', fun page => ?_⟩
    rw [known page, loopAddrs, List.map_map]
    exact or_iff_right List.not_mem_nil

theorem kmalloc_looped (inv : KernelPaging offset pages k free slabs tables data)
    (direct : Direct offset pages) (large : 1024 ≤ size)
    (ran : kmalloc offset size k = .ok (a, k')) :
    a = gapStart (alignUp size 4096) k.regions ∧ k'.pml4 = k.pml4 ∧
      Looped offset pages (k.root offset) presentRw k free a
        (numOfPages (alignUp size 4096)).toNat k' := by
  rw [kmalloc, if_neg (Nat.not_lt.mpr large)] at ran
  exact vmmRegionAlloc_looped inv direct ⟨by decide, by decide⟩ ran

theorem vmmRegionAllocUser_word {userMap userMap' : Pagemap}
    (ran : userMap.vmmRegionAllocUser offset size flags k = .ok (a, userMap', k')) :
    a < 2 ^ 64 := by
  rw [Pagemap.vmmRegionAllocUser] at ran
  split at ran
  · cases ran
  · split at ran
    · cases ran
    · obtain ⟨allocated, -, ran⟩ := of_bind_ok ran
      obtain ⟨mapped, -, returned⟩ := of_bind_ok ran
      obtain ⟨rfl, -⟩ := Prod.mk.inj (Except.ok.inj returned)
      exact add64_lt _ _

theorem answer_rax (frame : SyscallFrame) {base : Nat} (word : base < 2 ^ 64) :
    (frame.answer base).rax.toNat = base := by
  rw [SyscallFrame.answer, BitVec.toNat_ofNat]
  exact Nat.mod_eq_of_lt word

theorem mmap_run {userMap : Pagemap} {frame : SyscallFrame}
    (ran : (RangeCall.mmap userMap frame).run offset k = .ok (a, k'))
    (maps : (RangeCall.mmap userMap frame).MapsPages) :
    (frame.flags = mapAnonymous ∧ ∃ userMap',
      userMap.vmmRegionAllocUser offset frame.rdx.toNat (userFlags true) k =
        .ok (a, userMap', k')) ∨
    (frame.flags ≠ mapAnonymous ∧
      userMap.mmapRange offset frame.rsi.toNat frame.rdx.toNat (userFlags frame.exec) k =
        .ok (a, k')) := by
  obtain ⟨⟨frame', userMap', k₁⟩, called, returned⟩ := of_bind_ok ran
  obtain ⟨rfl, rfl⟩ := Prod.mk.inj (Except.ok.inj returned)
  rw [syscallMmapPages] at called
  by_cases anonymous : frame.flags = mapAnonymous
  · rw [if_pos anonymous] at called
    obtain ⟨⟨base, map', k₂⟩, allocated, answered⟩ := of_bind_ok called
    obtain ⟨rfl, rest⟩ := Prod.mk.inj (Except.ok.inj answered)
    obtain ⟨rfl, rfl⟩ := Prod.mk.inj rest
    rw [answer_rax frame (vmmRegionAllocUser_word allocated)]
    exact Or.inl ⟨anonymous, map', allocated⟩
  · rw [if_neg anonymous, if_pos (maps.resolve_left anonymous)] at called
    obtain ⟨⟨base, k₂⟩, mapped, answered⟩ := of_bind_ok called
    obtain ⟨rfl, rest⟩ := Prod.mk.inj (Except.ok.inj answered)
    obtain ⟨rfl, rfl⟩ := Prod.mk.inj rest
    have hint : base = frame.rsi.toNat := by
      rw [Pagemap.mmapRange] at mapped
      split at mapped
      · cases mapped
      · obtain ⟨k₃, -, same⟩ := of_bind_ok mapped
        exact (Prod.mk.inj (Except.ok.inj same)).1.symm
    rw [answer_rax frame (hint ▸ frame.rsi.isLt)]
    exact Or.inr ⟨anonymous, mapped⟩

end

namespace RangeCall

variable {offset : Nat} {pages : List Nat} {a : Nat} {k k' : Kernel} {free : List Nat}
  {slabs : List Slab} {tables : List (List Nat × Nat)} {data : Multiset Nat} {call : RangeCall}

/-- Every call runs one of the loops, from the place, and for a range of up to 2 GiB as often as
it has pages. -/
theorem looped (direct : Direct offset pages)
    (inv : PagingInv offset pages (call.root offset k) 512 k free slabs tables data)
    (bits : FlagBits call.flags) (maps : call.MapsPages) (ran : call.run offset k = .ok (a, k')) :
    a = call.place k ∧ ∃ n, Looped offset pages (call.root offset k) call.flags k free a n k' ∧
      (call.size ≤ 2 ^ 31 → n = (call.size + 4095) / 4096) := by
  cases call with
  | vmmRegionAlloc size flags =>
      obtain ⟨place, -, looped⟩ := vmmRegionAlloc_looped inv direct bits ran
      exact ⟨place, _, looped, fun short => (numOfPages_short short).1⟩
  | kmalloc size =>
      obtain ⟨place, -, looped⟩ := kmalloc_looped inv direct maps ran
      exact ⟨place, _, looped, fun short => (numOfPages_short short).2⟩
  | uacpiKernelCalloc count size =>
      obtain ⟨place, -, looped⟩ := kmalloc_looped inv direct maps ran
      refine ⟨place, _, looped, fun short => ?_⟩
      have plain : product count size = count * size :=
        Nat.mod_eq_of_lt (Nat.lt_of_le_of_lt short (by decide))
      rw [plain]
      exact (numOfPages_short short).2
  | vmmRegionAllocUser userMap size flags =>
      obtain ⟨⟨base, map', k₁⟩, allocated, returned⟩ := of_bind_ok ran
      obtain ⟨rfl, rfl⟩ := Prod.mk.inj (Except.ok.inj returned)
      obtain ⟨place, looped⟩ := vmmRegionAllocUser_looped inv direct bits allocated
      exact ⟨place, _, looped, fun short => (numOfPages_short short).1⟩
  | mmapRange userMap hint size flags =>
      obtain ⟨place, looped⟩ := mmapRange_looped inv direct bits ran
      exact ⟨place, _, looped, fun short => (numOfPages_short short).1⟩
  | mmap userMap frame =>
      rcases mmap_run ran maps with ⟨anonymous, map', allocated⟩ | ⟨fixed, mapped⟩
      · rw [flags, if_pos anonymous] at bits ⊢
        rw [place, if_pos anonymous]
        obtain ⟨place, looped⟩ := vmmRegionAllocUser_looped inv direct bits allocated
        exact ⟨place, _, looped, fun short => (numOfPages_short short).1⟩
      · rw [flags, if_neg fixed] at bits ⊢
        rw [place, if_neg fixed]
        obtain ⟨place, looped⟩ := mmapRange_looped inv direct bits mapped
        exact ⟨place, _, looped, fun short => (numOfPages_short short).1⟩

end RangeCall

/-- A call that returns has mapped the whole range afresh exactly when the range is empty, or at
most 2 GiB and within the pages that its size fills. -/
theorem range_mapped_iff (offset : Nat) (pages : List Nat) (k k' : Kernel) (call : RangeCall)
    (a : Nat) (free : List Nat) (slabs : List Slab) (tables : List (List Nat × Nat))
    (data : Multiset Nat) (direct : Direct offset pages)
    (inv : PagingInv offset pages (call.root offset k) 512 k free slabs tables data)
    (bits : FlagBits call.flags) (maps : call.MapsPages)
    (ran : call.run offset k = .ok (a, k')) :
    (Fits (call.place k) call.size →
      MapsFresh offset (call.root offset k) a call.size call.flags k k') ∧
    (NoneFree offset (call.root offset k) a call.size call.flags k →
      MapsFresh offset (call.root offset k) a call.size call.flags k k' →
        Fits (call.place k) call.size) := by
  obtain ⟨rfl, n, looped, count⟩ := RangeCall.looped direct inv bits maps ran
  exact looped.mapsFresh inv direct.usable count

theorem storeByte_zero {mem : Mem} {address : Nat} (zero : mem (address / 8 * 8) = 0) :
    storeByte mem address 0 = mem := by
  have byte : loadByte mem address = 0 := by
    rw [loadByte, zero, Nat.zero_div, Nat.zero_mod]
  rw [storeByte, byte, zero, Nat.zero_mul]
  exact Function.update_eq_iff.mpr ⟨zero.symm, fun _ _ => rfl⟩

theorem pageIndex_add64 (a i : Nat) : pageIndex (add64 a i) = pageIndex (a + i) := by
  unfold pageIndex add64
  omega

section

variable {offset : Nat} {pages : List Nat} {k k' : Kernel} {free : List Nat} {slabs : List Slab}
  {tables : List (List Nat × Nat)} {data : Multiset Nat} {flags a size : Nat}

theorem memsetZero_fresh (direct : Direct offset pages)
    (inv : KernelPaging offset pages k free slabs tables data) (bits : FlagBits flags)
    (maps : MapsFresh offset (k'.root offset) a size flags k k') {n : Nat} (inside : n ≤ size) :
    memsetZero offset k'.pml4 a n k'.mem = .ok k'.mem := by
  induction n with
  | zero => rfl
  | succ n ih =>
      obtain ⟨p, wasFree, -, entry, zero⟩ := maps.fresh (pageIndex (a + n)) ⟨n, by omega, rfl⟩
      have inPages := inv.heap.mem_pages (Or.inl ((onFreeList_iff inv.heap).mp wasFree))
      have aligned : p % 4096 = 0 := direct.usable.aligned p inPages
      have target : Mm.translate offset k'.mem k'.pml4 (add64 a n) = some (p + add64 a n % 4096) := by
        rw [Mm.translate, show add64 k'.pml4 offset = k'.root offset from rfl, pageIndex_add64, entry,
          if_pos (present_or bits _), (dataEntry_or direct bits inPages).2]
      rw [memsetZero, ih (by omega), ok_bind, target]
      dsimp only
      rw [storeByte_zero (zero _ (by unfold InPage; omega))]

/-- Where the range fits, `uacpi_kernel_calloc` ends as its `kmalloc` did. -/
theorem uacpiKernelCalloc_eq (direct : Direct offset pages)
    (inv : KernelPaging offset pages k free slabs tables data) {count : Nat}
    (large : 1024 ≤ product count size) (fits : Fits a (count * size))
    (ran : kmalloc offset (product count size) k = .ok (a, k')) :
    uacpiKernelCalloc offset count size k = .ok (a, k') := by
  have plain : product count size = count * size := by
    unfold product
    rcases fits with empty | ⟨short, -⟩
    · rw [empty]
      rfl
    · exact Nat.mod_eq_of_lt (Nat.lt_of_le_of_lt short (by decide))
  have bits : FlagBits presentRw := ⟨by decide, by decide⟩
  obtain ⟨-, root, looped⟩ := kmalloc_looped inv direct large ran
  have turns : count * size ≤ 2 ^ 31 →
      (numOfPages (alignUp (product count size) 4096)).toNat = (count * size + 4095) / 4096 := by
    intro short
    rw [plain]
    exact (numOfPages_short short).2
  have maps := (looped.mapsFresh inv direct.usable turns).1 fits
  have same : k'.root offset = k.root offset := by
    rw [Kernel.root, root, Kernel.root]
  rw [← same] at maps
  have cleared := memsetZero_fresh direct inv bits maps (le_refl (count * size))
  rw [uacpiKernelCalloc, ran, ok_bind, plain]
  dsimp only
  rw [cleared, ok_bind]

end

/-- One page of the machine's process. -/
theorem range_mapped_iff_page : ∃ k p k',
    (RangeCall.mmapRange p 0x1000 0x1000 (userFlags true)).run machine.offset k =
      .ok (0x1000, k') ∧
    MapsFresh machine.offset (p.root machine.offset) 0x1000 0x1000 (userFlags true) k k' := by
  have direct := pages_direct machine
  obtain ⟨k, p, free, slabs, tables, data, inv, many, -⟩ := machine_pagemap
  rcases mapFreshPage_spec inv direct (userFlags_bits true) 0x1000 (under_all _) with
    ⟨few, -⟩ | ⟨q, k', -, -, first, -⟩
  · omega
  have turns : loopAddrs 0x1000 (numOfPages 0x1000).toNat = [0x1000] := by decide
  have ran : (RangeCall.mmapRange p 0x1000 0x1000 (userFlags true)).run machine.offset k =
      .ok (0x1000, k') := by
    rw [RangeCall.run, Pagemap.mmapRange, if_neg (by decide), turns, mapFreshPages, first, ok_bind,
      mapFreshPages, ok_bind]
  have mapped := range_mapped_iff machine.offset machine.pages k k'
    (.mmapRange p 0x1000 0x1000 (userFlags true)) 0x1000 free slabs tables data direct inv
    (userFlags_bits true) trivial ran
  have fits : Fits 0x1000 0x1000 := Or.inr ⟨by decide, by decide⟩
  exact ⟨k, p, k', ran, mapped.1 fits⟩

/-- A fixed mapping of 2^64 - 1 bytes returns its hint and maps nothing: the size rounds up
to 0. -/
theorem mmap_maps_nothing : ∃ k p frame,
    (∃ free slabs tables data, PagingInv machine.offset machine.pages (p.root machine.offset) 512 k
      free slabs tables data) ∧
    (RangeCall.mmap p frame).MapsPages ∧
    (RangeCall.mmap p frame).run machine.offset k = .ok (0x400000, k) ∧
    ¬MapsFresh machine.offset (p.root machine.offset) 0x400000 (RangeCall.mmap p frame).size
      (RangeCall.mmap p frame).flags k k := by
  obtain ⟨k, p, free, slabs, tables, data, inv, -⟩ := machine_pagemap
  let frame : SyscallFrame := ⟨0, 0, 0x400000, BitVec.ofNat 64 (2 ^ 64 - 1), 0x30, 0, 0⟩
  refine ⟨k, p, frame, ⟨free, slabs, tables, data, inv⟩, Or.inr (Or.inl (by decide)), ?_, ?_⟩
  · have none : (numOfPages frame.rdx.toNat).toNat = 0 := by decide
    rw [RangeCall.run, syscallMmapPages, if_neg (by decide), if_pos (Or.inl (by decide)),
      Pagemap.mmapRange, if_neg (by decide), none]
    rfl
  · intro maps
    have nonempty : 0 < frame.rdx.toNat := by decide
    obtain ⟨q, wasFree, taken, -⟩ := maps.fresh _ ⟨0, nonempty, rfl⟩
    exact taken wasFree

end Nyaux.Syscall
