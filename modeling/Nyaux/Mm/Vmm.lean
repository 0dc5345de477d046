import Nyaux.Lib.Paging
import Nyaux.Mm.PmmInit
import Nyaux.Mm.UserSpace

/-! `vmm.c` for the kernel's pagemap, and the allocation functions of `pmm.c` built on it.

A region node's fields are kept in the region list; its heap block is `addr`. -/

namespace Nyaux.Mm

open Word Memory Paging

/-- `NYA_OS_VMM_PRESENT | NYA_OS_VMM_RW`. -/
def presentRw : Nat := 3

def getPhysFromEntry (pte : Nat) : Nat := pte &&& 0x0007FFFFFFFFF000

def lvlIndex (shift virt : Nat) : Nat := (virt >>> shift) &&& 0x1FF

def getNextTable (offset table index flags : Nat) (k : Kernel) : Except Stop (Nat × Kernel) :=
  if k.mem (slot table index) &&& 1 = 0 then do
    let (newTable, k) ← pmmAllocSinglep offset k
    let mem := store (zeroPage k.mem (add64 newTable offset)) (slot table index) (newTable ||| flags)
    .ok (mem (slot table index) &&& tableMask, { k with mem := mem })
  else .ok (k.mem (slot table index) &&& tableMask, k)

/-- `pml4` is the table's address in the direct map. -/
def map (offset pml4 virt phys flags : Nat) (k : Kernel) : Except Stop Kernel := do
  let (table, k) ← getNextTable offset pml4 (lvlIndex 39 virt) flags k
  let (table, k) ← getNextTable offset (add64 table offset) (lvlIndex 30 virt) flags k
  let (table, k) ← getNextTable offset (add64 table offset) (lvlIndex 21 virt) flags k
  .ok { k with mem := store k.mem (slot (add64 table offset) (lvlIndex 12 virt)) (phys ||| flags) }

/-- 0 is NULL. -/
def getNextTableUnmap (mem : Mem) (table index : Nat) : Nat :=
  if table ≠ 0 then
    if mem (slot table index) &&& 1 = 1 then mem (slot table index) &&& tableMask else 0
  else 0

/-- `cur_table` after the three steps of `virt_to_phys` and `unmap`; 0 is NULL. -/
def lastTable (offset : Nat) (mem : Mem) (pml4 virt : Nat) : Nat :=
  let table := getNextTableUnmap mem pml4 (lvlIndex 39 virt)
  if table = 0 then 0
  else
    let table := getNextTableUnmap mem (add64 table offset) (lvlIndex 30 virt)
    if table = 0 then 0 else getNextTableUnmap mem (add64 table offset) (lvlIndex 21 virt)

def virtToPhys (offset : Nat) (mem : Mem) (pml4 virt : Nat) : Nat :=
  let table := lastTable offset mem pml4 virt
  if table ≠ 0 then getPhysFromEntry (mem (slot (add64 table offset) (lvlIndex 12 virt)))
  else getPhysFromEntry 0

def unmap (offset pml4 virt : Nat) (k : Kernel) : Nat × Kernel :=
  let table := lastTable offset k.mem pml4 virt
  if table ≠ 0 then
    let entry := slot (add64 table offset) (lvlIndex 12 virt)
    (k.mem entry, { k with mem := store k.mem entry 0 })
  else (0, k)

def mapFreshPage (offset pml4 virt flags : Nat) (k : Kernel) : Except Stop Kernel := do
  let (page, k) ← pmmAllocSinglep offset k
  let k := { k with mem := zeroPage k.mem (add64 page offset) }
  map offset pml4 virt page flags k

/-- The page loop of `vmm_region_alloc`, for `i` up to `n`. -/
def allocPages (offset base flags : Nat) : Nat → Kernel → Except Stop Kernel
  | 0, k => .ok k
  | n + 1, k => do
      let k ← allocPages offset base flags n k
      let (page, k) ← pmmAllocSinglep offset k
      let k := { k with mem := zeroPage k.mem (add64 page offset) }
      map offset (add64 k.pml4 offset) (pageAddr base n) page flags k

/-- The page loop of `vmm_region_dealloc`. -/
def freePages (offset base : Nat) : Nat → Kernel → Kernel
  | 0, k => k
  | n + 1, k =>
      let k := freePages offset base n k
      let (phys, k) := unmap offset (add64 k.pml4 offset) (pageAddr base n) k
      pmmFreeSinglep (add64 (getPhysFromEntry phys) offset) k

/-- `sizeof(struct vmm_region)`; the node is always a slab object. -/
def allocNode (offset : Nat) (k : Kernel) : Except Stop (Nat × Kernel) := do
  let (node, k) ← kmallocSlab offset 32 k
  if node = 0 then .error .nullDeref else .ok (node, k)

def vmmRegionAlloc (offset size flags : Nat) (k : Kernel) : Except Stop (Nat × Kernel) :=
  match findGap size k.regions with
  | none => .error .noFreeRegions
  | some (front, back) =>
      match front.getLast? with
      | none => .error .noFreeRegions
      | some prev => do
          let (node, k) ← allocNode offset k
          let newGuy := newRegion node size prev
          let k := { k with regions := front ++ newGuy :: back }
          let k ← allocPages offset newGuy.base flags (numOfPages size).toNat k
          .ok (newGuy.base, k)

def vmmRegionDealloc (offset base : Nat) (k : Kernel) : Except Stop Kernel :=
  match removeRegion base k.regions with
  | .missing => .error .regionMissing
  | .nullDeref => .error .nullDeref
  | .found region regions =>
      let count := (toInt32 (region.length / 4096)).toNat
      free region.addr (freePages offset region.base count { k with regions := regions })

def kmalloc (offset size : Nat) (k : Kernel) : Except Stop (Nat × Kernel) :=
  if size < 1024 then kmallocSlab offset size k
  else vmmRegionAlloc offset (alignUp size 4096) presentRw k

def kfree (offset addr size : Nat) (k : Kernel) : Except Stop Kernel :=
  if addr ≠ 0 then
    if size < 1024 then free addr k else vmmRegionDealloc offset addr k
  else .ok k

/-- Where the processor finds a virtual address, in the direct map. -/
def translate (offset : Nat) (mem : Mem) (pml4 virt : Nat) : Option Nat :=
  let entry := leafEntry offset mem (add64 pml4 offset) (pageIndex virt)
  if Present entry then some (pointee offset entry + virt % 4096) else none

def memcpy (offset pml4 dest src : Nat) : Nat → Mem → Except Stop Mem
  | 0, mem => .ok mem
  | n + 1, mem => do
      let mem ← memcpy offset pml4 dest src n mem
      match translate offset mem pml4 (add64 src n), translate offset mem pml4 (add64 dest n) with
      | some source, some target => .ok (storeByte mem target (loadByte mem source))
      | _, _ => .error .pageFault

def krealloc (offset addr oldsz newsz : Nat) (k : Kernel) : Except Stop (Nat × Kernel) := do
  let (newShit, k) ← kmalloc offset newsz k
  if addr ≠ 0 ∧ 0 < oldsz then
    let mem ← memcpy offset k.pml4 newShit addr oldsz k.mem
    let k ← kfree offset addr oldsz { k with mem := mem }
    .ok (newShit, k)
  else .ok (newShit, k)

/-! `vmm_init`. -/

/-- Where the bootloader put the kernel, and `THE_REAL`, the size of its image. -/
structure KernelImage where
  virtualBase : Nat
  physicalBase : Nat
  size : Nat
  word : virtualBase < 2 ^ 64

def mapImage (offset : Nat) (image : KernelImage) : List Nat → Kernel → Except Stop Kernel
  | [], k => .ok k
  | i :: rest, k => do
      let k ← map offset (add64 k.pml4 offset) (add64 image.virtualBase i)
        (add64 image.physicalBase i) presentRw k
      mapImage offset image rest k

/-- One of the loops that map a range into the direct map, with `hhdm_pages`. -/
def mapDirect (offset base : Nat) : List Nat → Kernel × Nat → Except Stop (Kernel × Nat)
  | [], s => .ok s
  | j :: rest, (k, hhdmPages) => do
      let k ← map offset (add64 k.pml4 offset) (add64 offset (add64 base j)) (add64 base j)
        presentRw k
      mapDirect offset base rest (k, if j < 0x100000000 then add64 hhdmPages 0x1000 else hhdmPages)

/-- The bound of an entry's loop; `none` for the types that are not mapped. -/
def mappedLength (e : MemmapEntry) : Option Nat :=
  match e.type with
  | .usable | .bootloaderReclaimable => some e.length
  | .kernelAndModules | .reserved | .framebuffer | .acpiNvs | .acpiReclaimable =>
      some (alignUp e.length 4096)
  | .badMemory => none

def mapEntries (offset : Nat) : List MemmapEntry → Kernel × Nat → Except Stop (Kernel × Nat)
  | [], s => .ok s
  | e :: rest, s =>
      match mappedLength e with
      | none => mapEntries offset rest s
      | some length =>
          -- beyond this bound `j` wraps around before it reaches the length
          if length ≤ 2 ^ 64 - 4096 then do
            let s ← mapDirect offset e.base (pageOffsets length) s
            mapEntries offset rest s
          else .error .endless

/-- The word for `next` in the last node, which is not set, is assumed to be `NULL`, as
`vmm_region_walk` relies on. -/
def vmmRegionSetup (offset : Nat) (image : KernelImage) (hhdmPages : Nat) (k : Kernel) :
    Except Stop Kernel := do
  let (node, k) ← allocNode offset k
  let (kernelRegion, k) ← allocNode offset k
  .ok { k with regions :=
    [⟨node, offset, hhdmPages⟩, ⟨kernelRegion, image.virtualBase, image.size⟩] }

def vmmInit (offset : Nat) (entries : List MemmapEntry) (image : KernelImage) (k : Kernel) :
    Except Stop Kernel := do
  let (pml4, k) ← pmmAllocSinglep offset k
  let k := { k with pml4 := pml4, mem := zeroPage k.mem (add64 pml4 offset) }
  let k ← mapImage offset image (pageOffsets (alignUp image.size 4096)) k
  let s ← mapEntries offset entries (k, 0)
  let (k, hhdmPages) ← mapDirect offset 0 (pageOffsets 0x100000000) s
  vmmRegionSetup offset image hhdmPages k

end Nyaux.Mm
