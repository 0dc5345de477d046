import Nyaux.Lib.Tlb
import Nyaux.Mm.SharedTables
import Nyaux.Syscall.MappedRanges

/-! The processor's cached entries beside `vmm.c` and `syscall_mmap`.

Entries may be picked up at any time. `map` and `unmap` change one entry each, so that it is
enough to let them be picked up before and after a call, and between the turns of the page
loops. -/

namespace Nyaux.Syscall

open Word Memory Paging Mm

abbrev Vpn := { page : Nat // page < 2 ^ 36 }

def vpn (virt : Nat) : Vpn := ⟨pageIndex virt, pageIndex_lt virt⟩

/-- The kernel, the pagemaps it has made, `cr3`, and the cached entries. `frames` are the pages
that the page loops have mapped and not freed again: no function reads them. -/
structure Cpu where
  kernel : Kernel
  made : List Made
  cr3 : Nat
  tlb : Set (Vpn × Nat)
  frames : List Nat

namespace Cpu

/-- The root table of the active pagemap. -/
def root (offset : Nat) (s : Cpu) : Nat := add64 s.cr3 offset

def view (offset : Nat) (s : Cpu) (page : Vpn) : Nat :=
  leafEntry offset s.kernel.mem (s.root offset) page

/-- No cached entry is stale. -/
def Coherent (offset : Nat) (s : Cpu) : Prop := Tlb.Coherent (s.view offset) s.tlb

def Picked (offset : Nat) (s s' : Cpu) : Prop :=
  ∃ tlb, Tlb.Picks Present (s.view offset) s.tlb tlb ∧ s' = { s with tlb := tlb }

/-- `unmap`, with its `invlpg`. -/
def unmap (offset pml4 virt : Nat) (s : Cpu) : Nat × Cpu :=
  let (old, k) := Mm.unmap offset pml4 virt s.kernel
  if lastTable offset s.kernel.mem pml4 virt ≠ 0 then
    (old, { s with kernel := k, tlb := Tlb.invalidate (vpn virt) s.tlb })
  else (old, { s with kernel := k })

/-- After a turn of a loop that maps pages, which took the first page of the free list. -/
def mapped (k : Kernel) (s : Cpu) : Cpu :=
  { s with kernel := k, frames := s.kernel.head :: s.frames }

/-- A turn of the loop in `vmm_region_dealloc`. -/
def freePage (offset virt : Nat) (s : Cpu) : Cpu :=
  let (phys, s) := s.unmap offset (s.kernel.root offset) virt
  let page := add64 (getPhysFromEntry phys) offset
  { s with kernel := pmmFreeSinglep page s.kernel, frames := s.frames.erase page }

inductive MapTurns (offset pml4 flags : Nat) (s : Cpu) : List Nat → Cpu → Prop
  | none : MapTurns offset pml4 flags s [] s
  | turn {addrs : List Nat} {virt : Nat} {s₁ s₂ : Cpu} {k : Kernel}
      (before : MapTurns offset pml4 flags s addrs s₁) (picked : Picked offset s₁ s₂)
      (ran : mapFreshPage offset pml4 virt flags s₂.kernel = .ok k) :
      MapTurns offset pml4 flags s (addrs ++ [virt]) (s₂.mapped k)

/-- The turns of the loop in `vmm_region_dealloc`. -/
inductive FreeTurns (offset base : Nat) (s : Cpu) : Nat → Cpu → Prop
  | none : FreeTurns offset base s 0 s
  | turn {n : Nat} {s₁ s₂ : Cpu} (before : FreeTurns offset base s n s₁)
      (picked : Picked offset s₁ s₂) :
      FreeTurns offset base s (n + 1) (s₂.freePage offset (pageAddr base n))

/-- `syscall_mmap` of the process with pagemap number `i`. -/
inductive Mmap (offset i : Nat) (m : Made) (frame : SyscallFrame) (s : Cpu) : Cpu → Prop
  | regionAllocUser {front back : List VmmRegion} {prev : VmmRegion} {node : Nat} {k : Kernel}
      {s' : Cpu} (flags : frame.flags = mapAnonymous)
      (gap : findGap frame.rdx.toNat m.pagemap.head = some (front, back))
      (final : front.getLast? = some prev) (got : allocNode offset s.kernel = .ok (node, k))
      (turns : MapTurns offset (m.pagemap.root offset) (userFlags true) { s with kernel := k }
        (loopAddrs (newRegion node frame.rdx.toNat prev).base (numOfPages frame.rdx.toNat).toNat)
        s') :
      Mmap offset i m frame s { s' with
        made := s'.made.set i { m with
          pagemap := { m.pagemap with
            head := front ++ newRegion node frame.rdx.toNat prev :: back } } }
  | mmapRange {s' : Cpu}
      (flags : frame.flags = (mapAnonymous ||| mapFixed : Nat) ∨
        frame.flags = (mapAnonymous ||| mapFixed ||| mapPrivate : Nat))
      (count : 0 ≤ numOfPages frame.rdx.toNat)
      (turns : MapTurns offset (m.pagemap.root offset) (userFlags frame.exec) s
        (loopAddrs frame.rsi.toNat (numOfPages frame.rdx.toNat).toNat) s') :
      Mmap offset i m frame s s'
  | refused (flags : ¬(frame.flags = mapAnonymous ∨
      frame.flags = (mapAnonymous ||| mapFixed : Nat) ∨
      frame.flags = (mapAnonymous ||| mapFixed ||| mapPrivate : Nat))) : Mmap offset i m frame s s

end Cpu

inductive CpuOp
  | pick
  /-- `update_cr3` -/
  | loadCr3 (pml4 : Nat)
  | map (pml4 virt phys flags : Nat)
  | unmap (pml4 virt : Nat)
  | vmmRegionAlloc (size flags : Nat)
  | vmmRegionDealloc (base : Nat)
  | newPagemap
  /-- by the process with pagemap number `i` -/
  | mmap (i : Nat) (frame : SyscallFrame)

namespace Cpu

/-- `pml4` is given as `cr3` and `struct pagemap` have it, as a physical address. -/
inductive Step (offset kernelHigherHalfSize : Nat) (s : Cpu) : CpuOp → Cpu → Prop
  | pick {s' : Cpu} (picked : Picked offset s s') : Step offset kernelHigherHalfSize s .pick s'
  | loadCr3 (pml4 : Nat) :
      Step offset kernelHigherHalfSize s (.loadCr3 pml4) { s with cr3 := pml4, tlb := ∅ }
  | map {pml4 virt phys flags : Nat} {k : Kernel}
      (ran : Mm.map offset (add64 pml4 offset) virt phys flags s.kernel = .ok k) :
      Step offset kernelHigherHalfSize s (.map pml4 virt phys flags) { s with kernel := k }
  | unmap (pml4 virt : Nat) :
      Step offset kernelHigherHalfSize s (.unmap pml4 virt)
        (s.unmap offset (add64 pml4 offset) virt).2
  | vmmRegionAlloc {size flags node : Nat} {front back : List VmmRegion} {prev : VmmRegion}
      {k : Kernel} {s' : Cpu} (gap : findGap size s.kernel.regions = some (front, back))
      (final : front.getLast? = some prev) (got : allocNode offset s.kernel = .ok (node, k))
      (turns : MapTurns offset (k.root offset) flags
        { s with kernel := { k with regions := front ++ newRegion node size prev :: back } }
        (loopAddrs (newRegion node size prev).base (numOfPages size).toNat) s') :
      Step offset kernelHigherHalfSize s (.vmmRegionAlloc size flags) s'
  | vmmRegionDealloc {base : Nat} {region : VmmRegion} {regions : List VmmRegion} {s' : Cpu}
      {k : Kernel} (found : removeRegion base s.kernel.regions = .found region regions)
      (turns : FreeTurns offset region.base
        { s with kernel := { s.kernel with regions := regions } }
        (toInt32 (region.length / 4096)).toNat s')
      (freed : free region.addr s'.kernel = .ok k) :
      Step offset kernelHigherHalfSize s (.vmmRegionDealloc base) { s' with kernel := k }
  | newPagemap {p : Pagemap} {k : Kernel}
      (ran : s.kernel.newPagemap offset kernelHigherHalfSize = .ok (p, k)) :
      Step offset kernelHigherHalfSize s .newPagemap
        { s with kernel := k, made := ⟨p, lowerEmpty offset k.mem p⟩ :: s.made }
  | mmap {i : Nat} {frame : SyscallFrame} {m : Made} {s' : Cpu} (found : s.made[i]? = some m)
      (ran : Mmap offset i m frame s s') : Step offset kernelHigherHalfSize s (.mmap i frame) s'

/-- What the kernel itself does in a step. -/
def run (offset kernelHigherHalfSize : Nat) (s : Cpu) : CpuOp → Except Stop Kernel
  | .pick => .ok s.kernel
  | .loadCr3 _ => .ok s.kernel
  | .map pml4 virt phys flags => Mm.map offset (add64 pml4 offset) virt phys flags s.kernel
  | .unmap pml4 virt => .ok (Mm.unmap offset (add64 pml4 offset) virt s.kernel).2
  | .vmmRegionAlloc size flags => do
      let (_, k) ← Mm.vmmRegionAlloc offset size flags s.kernel
      .ok k
  | .vmmRegionDealloc base => Mm.vmmRegionDealloc offset base s.kernel
  | .newPagemap => do
      let (_, k) ← s.kernel.newPagemap offset kernelHigherHalfSize
      .ok k
  | .mmap i frame =>
      match s.made[i]? with
      | none => .error .nullDeref
      | some m => do
          let (_, _, k) ← syscallMmapPages offset frame m.pagemap s.kernel
          .ok k

section Erasure

variable {offset pml4 flags base n kernelHigherHalfSize : Nat} {s s' : Cpu} {k : Kernel}

theorem Picked.kernel (picked : Picked offset s s') : s'.kernel = s.kernel := by
  obtain ⟨tlb, -, rfl⟩ := picked
  rfl

theorem Picked.refl (offset : Nat) (s : Cpu) : Picked offset s s :=
  ⟨s.tlb, fun _ member => Or.inl member, rfl⟩

theorem unmap_kernel (offset pml4 virt : Nat) (s : Cpu) :
    (s.unmap offset pml4 virt).1 = (Mm.unmap offset pml4 virt s.kernel).1 ∧
      (s.unmap offset pml4 virt).2.kernel = (Mm.unmap offset pml4 virt s.kernel).2 := by
  unfold unmap
  dsimp only
  split
  · exact ⟨rfl, rfl⟩
  · exact ⟨rfl, rfl⟩

theorem mapFreshPages_concat (addrs : List Nat) (virt : Nat) (k : Kernel) :
    mapFreshPages offset pml4 flags (addrs ++ [virt]) k = (do
      let k ← mapFreshPages offset pml4 flags addrs k
      mapFreshPage offset pml4 virt flags k) := by
  induction addrs generalizing k with
  | nil =>
      rw [List.nil_append, mapFreshPages, mapFreshPages, ok_bind]
      cases mapFreshPage offset pml4 virt flags k <;> rfl
  | cons first rest ih =>
      rw [List.cons_append, mapFreshPages, mapFreshPages]
      cases mapFreshPage offset pml4 first flags k with
      | error stop => rfl
      | ok k₁ =>
          rw [ok_bind, ok_bind]
          exact ih k₁

theorem loopAddrs_succ (base n : Nat) :
    loopAddrs base (n + 1) = loopAddrs base n ++ [pageAddr base n] := by
  rw [loopAddrs, List.range_succ, List.map_append]
  rfl

/-- The loop of `vmm_region_alloc` is the one over the addresses. -/
theorem allocPages_eq (offset base flags n : Nat) (k : Kernel) :
    allocPages offset base flags n k =
      mapFreshPages offset (k.root offset) flags (loopAddrs base n) k := by
  induction n with
  | zero => rfl
  | succ n ih =>
      rw [allocPages_succ, loopAddrs_succ, mapFreshPages_concat, ← ih]
      cases ran : allocPages offset base flags n k with
      | error stop => rw [error_bind, error_bind]
      | ok k₁ => rw [ok_bind, ok_bind, (allocPages_vars ran).root]

theorem mapTurns_iff {addrs : List Nat} :
    (∃ s', MapTurns offset pml4 flags s addrs s' ∧ s'.kernel = k) ↔
      mapFreshPages offset pml4 flags addrs s.kernel = .ok k := by
  constructor
  · rintro ⟨s', turns, rfl⟩
    induction turns with
    | none => rfl
    | turn before picked ran ih =>
        rw [mapFreshPages_concat, ih, ok_bind, ← picked.kernel, ran]
        rfl
  · intro ran
    induction addrs using List.reverseRecOn generalizing k with
    | nil => exact ⟨s, .none, Except.ok.inj ran⟩
    | append_singleton addrs virt ih =>
        rw [mapFreshPages_concat] at ran
        obtain ⟨k₁, earlier, last⟩ := of_bind_ok ran
        obtain ⟨s₁, before, rfl⟩ := ih earlier
        exact ⟨s₁.mapped k, .turn before (.refl offset s₁) last, rfl⟩

theorem freePage_kernel (offset virt : Nat) (s : Cpu) :
    (s.freePage offset virt).kernel =
      pmmFreeSinglep (add64 (getPhysFromEntry
        (Mm.unmap offset (s.kernel.root offset) virt s.kernel).1) offset)
        (Mm.unmap offset (s.kernel.root offset) virt s.kernel).2 := by
  obtain ⟨old, rest⟩ := unmap_kernel offset (s.kernel.root offset) virt s
  rw [freePage]
  dsimp only
  rw [old, rest]

theorem freeTurns_iff :
    (∃ s', FreeTurns offset base s n s' ∧ s'.kernel = k) ↔ freePages offset base n s.kernel = k := by
  constructor
  · rintro ⟨s', turns, rfl⟩
    induction turns with
    | none => rfl
    | turn before picked ih =>
        rw [freePages, ih, freePage_kernel, picked.kernel]
        rfl
  · rintro rfl
    induction n with
    | zero => exact ⟨s, .none, rfl⟩
    | succ n ih =>
        obtain ⟨s₁, before, same⟩ := ih
        refine ⟨_, .turn before (.refl offset s₁), ?_⟩
        rw [freePage_kernel, freePages, same]
        rfl

theorem mmap_iff {i : Nat} {m : Made} {frame : SyscallFrame} :
    (∃ s', Mmap offset i m frame s s' ∧ s'.kernel = k) ↔
      ∃ answer p, syscallMmapPages offset frame m.pagemap s.kernel = .ok (answer, p, k) := by
  unfold syscallMmapPages
  constructor
  · rintro ⟨s', call, rfl⟩
    cases call with
    | regionAllocUser flags gap final got turns =>
        have loop := mapTurns_iff.mp ⟨_, turns, rfl⟩
        rw [if_pos flags, Pagemap.vmmRegionAllocUser, gap]
        dsimp only
        rw [final]
        dsimp only
        rw [got, ok_bind]
        dsimp only at loop ⊢
        rw [loop]
        exact ⟨_, _, rfl⟩
    | mmapRange flags count turns =>
        have loop := mapTurns_iff.mp ⟨_, turns, rfl⟩
        have notAnonymous : frame.flags ≠ mapAnonymous := by
          rcases flags with flags | flags <;> rw [flags] <;> decide
        rw [if_neg notAnonymous, if_pos flags, Pagemap.mmapRange, if_neg (by omega), loop]
        exact ⟨_, _, rfl⟩
    | refused flags =>
        rw [not_or] at flags
        rw [if_neg flags.1, if_neg flags.2]
        exact ⟨_, _, rfl⟩
  · rintro ⟨answer, p, ran⟩
    split at ran
    · rename_i flags
      obtain ⟨⟨base, p', k'⟩, alloc, rest⟩ := of_bind_ok ran
      obtain ⟨-, same⟩ := Prod.mk.inj (Except.ok.inj rest)
      obtain ⟨-, rfl⟩ := Prod.mk.inj same
      unfold Pagemap.vmmRegionAllocUser at alloc
      split at alloc
      · cases alloc
      · rename_i front back gap
        split at alloc
        · cases alloc
        · rename_i prev final
          obtain ⟨⟨node, k₁⟩, got, alloc⟩ := of_bind_ok alloc
          obtain ⟨k₂, loop, rest⟩ := of_bind_ok alloc
          obtain ⟨-, same⟩ := Prod.mk.inj (Except.ok.inj rest)
          obtain ⟨-, rfl⟩ := Prod.mk.inj same
          obtain ⟨s', turns, rfl⟩ := (mapTurns_iff (s := { s with kernel := k₁ })).mpr loop
          exact ⟨_, .regionAllocUser flags gap final got turns, rfl⟩
    · rename_i notAnonymous
      split at ran
      · rename_i flags
        obtain ⟨⟨base, k'⟩, range, rest⟩ := of_bind_ok ran
        obtain ⟨-, same⟩ := Prod.mk.inj (Except.ok.inj rest)
        obtain ⟨-, rfl⟩ := Prod.mk.inj same
        unfold Pagemap.mmapRange at range
        split at range
        · cases range
        · rename_i count
          obtain ⟨k₁, loop, rest⟩ := of_bind_ok range
          obtain ⟨-, rfl⟩ := Prod.mk.inj (Except.ok.inj rest)
          obtain ⟨s', turns, rfl⟩ := mapTurns_iff.mpr loop
          exact ⟨s', .mmapRange flags (by omega) turns, rfl⟩
      · rename_i notFixed
        obtain ⟨-, same⟩ := Prod.mk.inj (Except.ok.inj ran)
        obtain ⟨-, rfl⟩ := Prod.mk.inj same
        exact ⟨s, .refused (not_or.mpr ⟨notAnonymous, notFixed⟩), rfl⟩

theorem step_iff_run {op : CpuOp} :
    (∃ s', Step offset kernelHigherHalfSize s op s' ∧ s'.kernel = k) ↔
      s.run offset kernelHigherHalfSize op = .ok k := by
  constructor
  · rintro ⟨s', step, rfl⟩
    cases step with
    | pick picked => exact congrArg Except.ok picked.kernel.symm
    | loadCr3 pml4 => rfl
    | map ran => exact ran
    | unmap pml4 virt => exact congrArg Except.ok (unmap_kernel offset _ virt s).2.symm
    | @vmmRegionAlloc size flags node front back prev k s' gap final got turns =>
        have loop := mapTurns_iff.mp ⟨_, turns, rfl⟩
        rw [run, vmmRegionAlloc_eq gap final got, allocPages_eq]
        dsimp only at loop ⊢
        rw [show Kernel.root offset { k with regions := front ++ newRegion node size prev :: back } =
          k.root offset from rfl, loop]
        rfl
    | vmmRegionDealloc found turns freed =>
        have loop := freeTurns_iff.mp ⟨_, turns, rfl⟩
        dsimp only at loop
        rw [run, Mm.vmmRegionDealloc, found]
        dsimp only
        rw [loop, freed]
    | newPagemap ran =>
        rw [run, ran]
        rfl
    | mmap found call =>
        obtain ⟨answer, p, ran⟩ := mmap_iff.mp ⟨_, call, rfl⟩
        rw [run, found]
        dsimp only
        rw [ran]
        rfl
  · intro ran
    cases op with
    | pick => exact ⟨s, .pick (.refl offset s), Except.ok.inj ran⟩
    | loadCr3 pml4 => exact ⟨_, .loadCr3 pml4, Except.ok.inj ran⟩
    | map pml4 virt phys flags => exact ⟨_, .map ran, rfl⟩
    | unmap pml4 virt =>
        exact ⟨_, .unmap pml4 virt, (unmap_kernel offset _ virt s).2.trans (Except.ok.inj ran)⟩
    | vmmRegionAlloc size flags =>
        obtain ⟨⟨base, k'⟩, alloc, rest⟩ := of_bind_ok ran
        obtain rfl := Except.ok.inj rest
        unfold Mm.vmmRegionAlloc at alloc
        split at alloc
        · cases alloc
        · rename_i front back gap
          split at alloc
          · cases alloc
          · rename_i prev final
            obtain ⟨⟨node, k₁⟩, got, alloc⟩ := of_bind_ok alloc
            obtain ⟨k₂, loop, rest⟩ := of_bind_ok alloc
            obtain ⟨-, rfl⟩ := Prod.mk.inj (Except.ok.inj rest)
            rw [allocPages_eq] at loop
            obtain ⟨s', turns, rfl⟩ := (mapTurns_iff (s := { s with
              kernel := { k₁ with
                regions := front ++ newRegion node size prev :: back } })).mpr loop
            exact ⟨s', .vmmRegionAlloc gap final got turns, rfl⟩
    | vmmRegionDealloc base =>
        rw [run, Mm.vmmRegionDealloc] at ran
        split at ran
        · cases ran
        · cases ran
        · rename_i region regions found
          obtain ⟨s', turns, same⟩ := (freeTurns_iff (s := { s with
            kernel := { s.kernel with regions := regions } })).mpr rfl
          dsimp only at ran
          rw [← same] at ran
          exact ⟨_, .vmmRegionDealloc found turns ran, rfl⟩
    | newPagemap =>
        obtain ⟨⟨p, k'⟩, made, rest⟩ := of_bind_ok ran
        obtain rfl := Except.ok.inj rest
        exact ⟨_, .newPagemap made, rfl⟩
    | mmap i frame =>
        rw [run] at ran
        split at ran
        · cases ran
        · rename_i m found
          obtain ⟨⟨answer, p, k'⟩, call, rest⟩ := of_bind_ok ran
          obtain rfl := Except.ok.inj rest
          obtain ⟨s', step, same⟩ := mmap_iff.mpr ⟨answer, p, call⟩
          exact ⟨s', .mmap found step, same⟩

end Erasure

end Cpu

end Nyaux.Syscall
