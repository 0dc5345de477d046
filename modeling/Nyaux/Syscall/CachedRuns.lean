import Nyaux.Syscall.StaleEntries

/-! The cached entries over whole runs: they stay current when every step meets its condition,
and a process that maps a page twice makes one stale. -/

namespace Nyaux.Syscall

open Word Memory Paging Mm

namespace Cpu

section Runs

variable {offset : Nat} {pages : List Nat} {s s' : Cpu} {k : Kernel} {free : List Nat}
  {slabs : List Slab} {tables : Multiset Nat}

/-- The nodes of the kernel's list are objects of the heap; the list ends with the kernel's own
region. -/
structure RunInv (offset : Nat) (pages : List Nat) (image : KernelImage) (s : Cpu) : Prop where
  cpu : ∃ free slabs tables others, Inv offset pages s free slabs tables ∧
    liveObjects slabs = nodes s.kernel.regions + others
  last : ∃ r, s.kernel.regions.getLast? = some r ∧ r.base = image.virtualBase

theorem Inv.allocNode {others : Multiset (Nat × Nat)} {node : Nat}
    (inv : Inv offset pages s free slabs tables)
    (live : liveObjects slabs = nodes s.kernel.regions + others) (usable : Usable pages)
    (got : Mm.allocNode offset s.kernel = .ok (node, k)) :
    ∃ free' slabs', Inv offset pages { s with kernel := k } free' slabs' tables ∧
      liveObjects slabs' = (node, cacheFor 32) ::ₘ (nodes s.kernel.regions + others) ∧
      SameVars s.kernel k ∧ SamePaths offset (s.roots offset) s.kernel.mem k.mem := by
  obtain ⟨free', slabs', paging, live', vars, same⟩ := inv.paging.allocNode usable got
  exact ⟨free', slabs', inv.untouched vars paging same, by rw [live', live], vars, same⟩

theorem Inv.relist {i : Nat} {m : Made} (inv : Inv offset pages s free slabs tables)
    (found : s.made[i]? = some m) (head : List VmmRegion) :
    Inv offset pages { s with
      made := s.made.set i { m with pagemap := { m.pagemap with head := head } } } free slabs
      tables := by
  have facts : ∀ list : List Made, (list.filter Made.empty).map (fun m => m.pagemap.root offset) =
      ((list.map fun m => (m.empty, m.pagemap.root offset)).filter Prod.fst).map Prod.snd := by
    intro list
    rw [List.filter_map, List.map_map]
    rfl
  obtain ⟨bound, here⟩ := List.getElem?_eq_some_iff.mp found
  have unchanged : (s.made.set i { m with pagemap := { m.pagemap with head := head } }).map
      (fun m => (m.empty, m.pagemap.root offset)) =
        s.made.map fun m => (m.empty, m.pagemap.root offset) := by
    rw [List.map_set]
    apply List.ext_getElem
    · rw [List.length_set]
    · intro j _ inside
      by_cases same : i = j
      · subst same
        rw [List.getElem_set_self, List.getElem_map, here]
        rfl
      · rw [List.getElem_set_ne same]
  have same : Cpu.roots offset { s with
      made := s.made.set i { m with pagemap := { m.pagemap with head := head } } } =
        s.roots offset := by
    rw [roots, roots]
    dsimp only
    rw [facts, facts, unchanged]
  refine ⟨?_, ?_, inv.tlb⟩
  · rw [same]
    exact inv.paging
  · rw [same]
    exact inv.active

/-- `new_pagemap` adds a root when the new table is empty below. -/
theorem Inv.newPagemap {others : Multiset (Nat × Nat)} {size : Nat} {p : Pagemap}
    (inv : Inv offset pages s free slabs tables)
    (live : liveObjects slabs = nodes s.kernel.regions + others) (direct : Direct offset pages)
    (ran : s.kernel.newPagemap offset size = .ok (p, k)) :
    SameVars s.kernel k ∧ ∃ free' slabs' tables' others',
      Inv offset pages
        { s with kernel := k, made := ⟨p, lowerEmpty offset k.mem p⟩ :: s.made } free' slabs'
        tables' ∧
      liveObjects slabs' = nodes s.kernel.regions + others' := by
  obtain ⟨⟨free', slabs', new, paging, live'⟩, vars, same⟩ :=
    inv.paging.newPagemap direct List.mem_cons_self ran
  have root : k.root offset = s.kernel.root offset := vars.root
  have fewer : Cpu.roots offset { s with
      kernel := k, made := ⟨p, lowerEmpty offset k.mem p⟩ :: s.made } ⊆
        (if lowerEmpty offset k.mem p then p.root offset :: s.roots offset else s.roots offset) := by
    unfold roots
    dsimp only
    rw [List.filter_cons, root]
    cases lowerEmpty offset k.mem p with
    | true =>
        dsimp only
        rw [if_pos rfl, if_pos rfl, List.map_cons]
        exact (List.Perm.swap _ _ _).subset
    | false =>
        dsimp only
        rw [if_neg (by decide), if_neg (by decide)]
        exact List.Subset.refl _
  have more : s.roots offset ⊆ Cpu.roots offset { s with
      kernel := k, made := ⟨p, lowerEmpty offset k.mem p⟩ :: s.made } := by
    unfold roots
    dsimp only
    rw [root, List.filter_cons]
    apply List.cons_subset_cons
    split
    · exact List.map_subset _ (List.subset_cons_self _ _)
    · exact List.Subset.refl _
  refine ⟨vars, free', slabs', _, new + others, ⟨⟨paging.heap, paging.shared.subset fewer⟩,
    more inv.active, inv.tlb.keeps (Tlb.Keeps.of_eq fun page => same.leaf _ inv.active page)⟩, ?_⟩
  rw [live', live, add_left_comm]

/-- `vmm_region_alloc` of the kernel. -/
theorem RunInv.vmmRegionAlloc {image : KernelImage} {bytes flags node : Nat}
    {front back : List VmmRegion} {prev : VmmRegion} (inv : RunInv offset pages image s)
    (direct : Direct offset pages) (bits : FlagBits flags)
    (meets : (CpuOp.vmmRegionAlloc bytes flags).Meets offset s)
    (gap : findGap bytes s.kernel.regions = some (front, back)) (ends : front.getLast? = some prev)
    (got : Mm.allocNode offset s.kernel = .ok (node, k))
    (turns : MapTurns offset (k.root offset) flags
      { s with kernel := { k with regions := front ++ newRegion node bytes prev :: back } }
      (loopAddrs (newRegion node bytes prev).base (numOfPages bytes).toNat) s') :
    RunInv offset pages image s' := by
  obtain ⟨⟨free, slabs, tables, others, cpu, live⟩, last, final, base⟩ := inv
  obtain ⟨free₁, slabs₁, inv₁, live₁, vars₁, same₁⟩ := cpu.allocNode live direct.usable got
  have root : k.root offset = s.kernel.root offset := vars₁.root
  have kernelRoot : k.root offset ∈ s.roots offset := root ▸ List.mem_cons_self
  have unmapped :=
    cpu.unmapped_of_same same₁ kernelRoot (root ▸ meets _ (nextRegion_eq gap ends 0))
  have inv₂ := inv₁.setRegions (front ++ newRegion node bytes prev :: back)
  obtain ⟨⟨free', tables', inv'⟩, same, -⟩ :=
    inv₂.mapTurns direct bits List.mem_cons_self unmapped turns
  obtain ⟨split, kept⟩ := findGap_split gap
  refine ⟨⟨free', slabs₁, tables', others, inv', ?_⟩, last, ?_, base⟩
  · rw [same.vars.regions, nodes_middle, live₁, split, Multiset.cons_add]
    rfl
  · rw [same.vars.regions]
    exact (kept _).trans final

/-- `vmm_region_dealloc` of a region that is not the kernel's own. -/
theorem RunInv.vmmRegionDealloc {image : KernelImage} {base : Nat} {region : VmmRegion}
    {regions : List VmmRegion} (inv : RunInv offset pages image s) (direct : Direct offset pages)
    (allowed : (CpuOp.vmmRegionDealloc base).Allowed offset image s)
    (found : removeRegion base s.kernel.regions = .found region regions)
    (turns : FreeTurns offset region.base { s with kernel := { s.kernel with regions := regions } }
      (toInt32 (region.length / 4096)).toNat s') (freed : Mm.free region.addr s'.kernel = .ok k) :
    RunInv offset pages image { s' with kernel := k } := by
  obtain ⟨⟨free, slabs, tables, others, cpu, live⟩, last, final, own⟩ := inv
  obtain ⟨notLast, given⟩ := allowed
  obtain ⟨listed, ends⟩ := removeRegion_found final (own ▸ notLast.symm) found
  have inv₁ := cpu.setRegions regions
  obtain ⟨⟨free₁, tables₁, inv₂⟩, same, -⟩ := inv₁.freeTurns direct (given _ _ found) turns
  rw [listed, Multiset.cons_add] at live
  have node : (region.addr, cacheFor 32) ∈ liveObjects slabs := by
    rw [live]
    exact Multiset.mem_cons_self _ _
  obtain ⟨slabs', paging, removed, vars, paths⟩ :=
    inv₂.paging.freeObject direct.usable node freed
  refine ⟨⟨free₁, slabs', tables₁, others, inv₂.untouched vars paging paths, ?_⟩, last, ?_, own⟩
  · rw [live] at removed
    rw [vars.regions, same.vars.regions]
    exact (Multiset.cons_inj_right _).mp removed
  · rw [vars.regions, same.vars.regions]
    exact ends

theorem RunInv.mmap {image : KernelImage} {i : Nat} {m : Made} {frame : SyscallFrame}
    (inv : RunInv offset pages image s) (direct : Direct offset pages)
    (found : s.made[i]? = some m) (meets : (CpuOp.mmap i frame).Meets offset s)
    (call : Mmap offset i m frame s s') : RunInv offset pages image s' := by
  obtain ⟨⟨free, slabs, tables, others, cpu, live⟩, last, final, base⟩ := inv
  obtain ⟨empty, anonymous, fixed⟩ := meets m found
  have member : m.pagemap.root offset ∈ s.roots offset := by
    apply List.mem_cons_of_mem
    exact List.mem_map_of_mem (List.mem_filter.mpr ⟨List.mem_of_getElem? found, empty⟩)
  cases call with
  | @regionAllocUser front back prev node k s' flags gap ends got turns =>
      obtain ⟨free₁, slabs₁, inv₁, live₁, vars₁, same₁⟩ := cpu.allocNode live direct.usable got
      have unmapped :=
        cpu.unmapped_of_same same₁ member (anonymous flags _ (nextRegion_eq gap ends 0))
      have roots : Cpu.roots offset { s with kernel := k } = s.roots offset :=
        roots_kernel offset vars₁.pml4 s.frames s.tlb
      obtain ⟨⟨free', tables', inv'⟩, same, -⟩ :=
        inv₁.mapTurns direct (userFlags_bits true) (roots ▸ member) unmapped turns
      have still : s'.made[i]? = some m := by
        rw [same.made]
        exact found
      refine ⟨⟨free', slabs₁, tables', (node, cacheFor 32) ::ₘ others, inv'.relist still _, ?_⟩,
        last, ?_, base⟩
      · rw [live₁, Multiset.add_cons]
        dsimp only
        rw [same.vars.regions]
        dsimp only
        rw [vars₁.regions]
      · dsimp only
        rw [same.vars.regions]
        dsimp only
        rw [vars₁.regions, final]
  | mmapRange flags count turns =>
      obtain ⟨⟨free', tables', inv'⟩, same, -⟩ :=
        cpu.mapTurns direct (userFlags_bits frame.exec) member (fixed flags) turns
      exact ⟨⟨free', slabs, tables', others, inv', by rw [same.vars.regions, live]⟩, last,
        by rw [same.vars.regions, final], base⟩
  | refused flags => exact ⟨⟨free, slabs, tables, others, cpu, live⟩, last, final, base⟩

theorem RunInv.step {image : KernelImage} {size : Nat} {op : CpuOp}
    (inv : RunInv offset pages image s) (direct : Direct offset pages)
    (allowed : op.Allowed offset image s) (meets : op.Meets offset s)
    (next : s.Step offset size op s') : RunInv offset pages image s' := by
  have ⟨⟨free, slabs, tables, others, cpu, live⟩, last, final, base⟩ := inv
  cases next with
  | pick picked =>
      refine ⟨⟨free, slabs, tables, others, cpu.pick picked, ?_⟩, last, ?_, base⟩
      · rw [picked.kernel]
        exact live
      · rw [picked.kernel]
        exact final
  | loadCr3 pml4 =>
      exact ⟨⟨free, slabs, tables, others, ⟨cpu.paging, mem_roots allowed meets, .empty⟩, live⟩,
        last, final, base⟩
  | map ran =>
      obtain ⟨⟨free', tables', inv'⟩, vars⟩ :=
        cpu.map direct allowed.2 (mem_roots allowed.1 meets.1) meets.2 ran
      exact ⟨⟨free', slabs, tables', others, inv', by rw [vars.regions, live]⟩, last,
        by rw [vars.regions, final], base⟩
  | unmap pml4 virt =>
      obtain ⟨-, ⟨tables', inv'⟩, same, -⟩ := cpu.unmap direct (mem_roots allowed meets) virt
      exact ⟨⟨free, slabs, tables', others, inv', by rw [same.vars.regions, live]⟩, last,
        by rw [same.vars.regions, final], base⟩
  | vmmRegionAlloc gap ends got turns => exact inv.vmmRegionAlloc direct allowed meets gap ends got turns
  | vmmRegionDealloc found turns freed => exact inv.vmmRegionDealloc direct allowed found turns freed
  | newPagemap ran =>
      obtain ⟨vars, free', slabs', tables', others', inv', live'⟩ := cpu.newPagemap live direct ran
      exact ⟨⟨free', slabs', tables', others', inv', by rw [vars.regions, live']⟩, last,
        by rw [vars.regions, final], base⟩
  | mmap found call => exact inv.mmap direct found meets call

end Runs

end Cpu

theorem reached_inv {boot : Limine} {image : KernelImage} {s : Cpu}
    (reached : CpuReached boot image (CpuOp.Meets boot.offset) s) :
    Cpu.RunInv boot.offset boot.pages image s := by
  induction reached with
  | @start mem k₀ k pmm vmm =>
      obtain ⟨first, last, free, slabs, tables, inv, -, -, -, final, -⟩ := booted_inv pmm vmm
      have owned : ∀ t ∈ tables, t.2 ∈ (tablePages tables : Multiset Nat) :=
        fun t member => List.mem_map_of_mem member
      have heap : HeapInv boot.pages 8 k free slabs (tablePages tables + 0) := inv.paging.heap
      refine ⟨⟨free, slabs, tablePages tables, 0,
        ⟨⟨heap, .of_tree inv.paging.tree owned⟩, List.mem_cons_self, .empty⟩, ?_⟩, last, ?_, final⟩
      · rw [inv.live, inv.list]
        rfl
      · rw [inv.list]
        rfl
  | step _ allowed meets next ih => exact ih.step (pages_direct boot) allowed meets next

/-- In every run whose steps all meet the condition no cached entry is stale. -/
theorem no_stale_entries (boot : Limine) (image : KernelImage) (s : Cpu)
    (reached : CpuReached boot image (CpuOp.Meets boot.offset) s) : s.Coherent boot.offset := by
  obtain ⟨free, slabs, tables, others, inv, -⟩ := (reached_inv reached).cpu
  exact inv.tlb.coherent

theorem CpuReached.pickAll {boot : Limine} {image : KernelImage} {s : Cpu}
    (reached : CpuReached boot image (CpuOp.Meets boot.offset) s) :
    CpuReached boot image (CpuOp.Meets boot.offset)
      { s with tlb := {e | Present e.2 ∧ e.2 = s.view boot.offset e.1} } := by
  have allowed : CpuOp.pick.Allowed boot.offset image s := trivial
  have meets : CpuOp.pick.Meets boot.offset s := trivial
  exact reached.step allowed meets (.pick ⟨_, fun e member => Or.inr member, rfl⟩)

theorem Cpu.unmap_same (offset pml4 virt : Nat) (s : Cpu) :
    (s.unmap offset pml4 virt).2.made = s.made ∧ (s.unmap offset pml4 virt).2.cr3 = s.cr3 := by
  rw [Cpu.unmap]
  dsimp only
  split
  · exact ⟨rfl, rfl⟩
  · exact ⟨rfl, rfl⟩

theorem CpuReached.remap {boot : Limine} {image : KernelImage} {s : Cpu} {flags : Nat}
    {k : Kernel} (reached : CpuReached boot image (CpuOp.Meets boot.offset) s) (virt phys : Nat)
    (none : s.made = []) (active : s.cr3 = s.kernel.pml4) (bits : FlagBits flags)
    (ran : Mm.map boot.offset (s.kernel.root boot.offset) virt phys flags
      (Mm.unmap boot.offset (s.kernel.root boot.offset) virt s.kernel).2 = .ok k)
    (cleared : leafEntry boot.offset
      (Mm.unmap boot.offset (s.kernel.root boot.offset) virt s.kernel).2.mem
      (s.kernel.root boot.offset) (pageIndex virt) = 0) :
    ∃ s', CpuReached boot image (CpuOp.Meets boot.offset) s' ∧ s'.kernel = k ∧
      s'.cr3 = s.kernel.pml4 := by
  have kernel := (Cpu.unmap_kernel boot.offset (s.kernel.root boot.offset) virt s).2
  obtain ⟨made, cr3⟩ := Cpu.unmap_same boot.offset (s.kernel.root boot.offset) virt s
  have vars : SameVars s.kernel (Mm.unmap boot.offset (s.kernel.root boot.offset) virt s.kernel).2 :=
    unmap_vars (s.kernel.root boot.offset) virt s.kernel
  have allowedUnmap : (CpuOp.unmap s.kernel.pml4 virt).Allowed boot.offset image s := Or.inl rfl
  have meetsUnmap : (CpuOp.unmap s.kernel.pml4 virt).Meets boot.offset s := by
    intro m member
    rw [none] at member
    exact absurd member List.not_mem_nil
  have reached₁ := reached.step allowedUnmap meetsUnmap (.unmap s.kernel.pml4 virt)
  change CpuReached boot image (CpuOp.Meets boot.offset)
    (s.unmap boot.offset (s.kernel.root boot.offset) virt).2 at reached₁
  generalize (s.unmap boot.offset (s.kernel.root boot.offset) virt).2 = s₁ at *
  have allowedMap : (CpuOp.map s.kernel.pml4 virt phys flags).Allowed boot.offset image s₁ :=
    ⟨Or.inl (by rw [kernel, vars.pml4]), bits⟩
  have meetsMap : (CpuOp.map s.kernel.pml4 virt phys flags).Meets boot.offset s₁ := by
    constructor
    · intro m member
      rw [made, none] at member
      exact absurd member List.not_mem_nil
    · -- the entry was cleared
      rintro ⟨t, -, -, present⟩
      have root : s₁.root boot.offset = s.kernel.root boot.offset := by
        rw [Cpu.root, cr3, active, Kernel.root]
      rw [root, kernel, cleared] at present
      exact absurd present (by decide)
  rw [← kernel] at ran
  exact ⟨_, reached₁.step allowedMap meetsMap (.map ran), rfl, cr3.trans active⟩

theorem CpuReached.remapDirect {boot : Limine} {image : KernelImage} {k : Kernel}
    {free : List Nat} {slabs : List Slab} {tables : List (List Nat × Nat)} {data : Multiset Nat}
    (reached : CpuReached boot image (CpuOp.Meets boot.offset) ⟨k, [], k.pml4, ∅, []⟩)
    (inv : KernelPaging boot.offset boot.pages k free slabs tables data)
    (enough : 3 ≤ free.length) :
    ∃ s, CpuReached boot image (CpuOp.Meets boot.offset) s ∧ s.tlb ≠ ∅ := by
  have direct := pages_direct boot
  have bits := userFlags_bits false
  obtain ⟨k₁, ran₁, inv₁, leaf₁, -, vars₁, -⟩ := unmap_kernel inv direct boot.offset
  have anywhere : Known (fun _ => True) tables := fun _ _ => trivial
  rcases map_kernel inv₁ direct bits boot.offset 0 anywhere (fun _ _ => trivial) with
    ⟨few, -⟩ | ⟨k₂, free', tables', ran₂, -, -, leaf₂, -, vars₂, -⟩
  · omega
  have cleared := leaf₁ _ (pageIndex_lt boot.offset)
  have written := leaf₂ _ (pageIndex_lt boot.offset)
  rw [if_pos rfl, Kernel.leaf, vars₁.root] at cleared
  rw [if_pos rfl, Kernel.leaf, vars₂.root, vars₁.root] at written
  rw [vars₁.root] at ran₂
  have rest : k₁ = (Mm.unmap boot.offset (k.root boot.offset) boot.offset k).2 :=
    congrArg Prod.snd ran₁.symm
  rw [rest] at ran₂ cleared
  obtain ⟨s, remapped, rfl, cr3⟩ :=
    reached.pickAll.remap boot.offset 0 rfl rfl bits ran₂ cleared
  have viewed : s.view boot.offset (vpn boot.offset) = 0 ||| userFlags false := by
    rw [Cpu.view, Cpu.root, cr3]
    exact written
  refine ⟨_, remapped.pickAll, Set.Nonempty.ne_empty ⟨(vpn boot.offset, 0 ||| userFlags false), ?_⟩⟩
  exact ⟨present_or bits 0, viewed.symm⟩

/-- There the first page of the direct map is unmapped and mapped again. -/
theorem no_stale_entries_remapped : ∃ s : Cpu,
    CpuReached machine machineImage (CpuOp.Meets machine.offset) s ∧ s.tlb ≠ ∅ ∧
    s.Coherent machine.offset := by
  have paths : machinePaths.length = 2057 := by simp [machinePaths]
  obtain ⟨k, k₀, free, slabs, tables, first, last, pmm, vmm, inv, -, -, -, -, -, many, -⟩ :=
    boot_of_enough machine machineImage (fun _ => 0) machinePaths machine_covers
      (by rw [paths, machine_pages]; decide)
  rw [paths, machine_pages] at many
  have booted : CpuReached machine machineImage (CpuOp.Meets machine.offset)
      ⟨k₀, [], k₀.pml4, ∅, []⟩ := .start pmm vmm
  obtain ⟨s, reached, picked⟩ := booted.remapDirect inv.paging (by omega)
  exact ⟨s, reached, picked, no_stale_entries machine machineImage s reached⟩

/-! The machine: a page of the kernel half, mapped twice by a process. -/

section Machine

variable {offset : Nat} {pages : List Nat} {k : Kernel} {free : List Nat} {slabs : List Slab}
  {tables : List (List Nat × Nat)} {data : Multiset Nat} {q virt flags : Nat}

theorem map_of_same_top {root phys : Nat}
    (same : k.mem (slot q (lvlIndex 39 virt)) = k.mem (slot root (lvlIndex 39 virt)))
    (present : Present (k.mem (slot root (lvlIndex 39 virt)))) :
    Mm.map offset q virt phys flags k = Mm.map offset root virt phys flags k := by
  have set : ¬ k.mem (slot root (lvlIndex 39 virt)) &&& 1 = 0 := by
    rw [show k.mem (slot root (lvlIndex 39 virt)) &&& 1 = 1 from present]
    decide
  have step : getNextTable offset q (lvlIndex 39 virt) flags k =
      getNextTable offset root (lvlIndex 39 virt) flags k := by
    rw [getNextTable, getNextTable, same, if_neg set, if_neg set]
  rw [Mm.map, Mm.map, step]

structure SharesTop (offset : Nat) (k : Kernel) (q virt : Nat) : Prop where
  same : k.mem (slot q (lvlIndex 39 virt)) = k.mem (slot (k.root offset) (lvlIndex 39 virt))
  present : Present (k.mem (slot (k.root offset) (lvlIndex 39 virt)))

theorem SharesTop.mapFreshPage (top : SharesTop offset k q virt)
    (inv : KernelPaging offset pages k free slabs tables (q ::ₘ data)) (direct : Direct offset pages)
    (bits : FlagBits flags) (enough : 4 ≤ free.length) :
    ∃ k' p free' tables', Mm.mapFreshPage offset q virt flags k = .ok k' ∧ p ∈ free ∧
      KernelPaging offset pages k' free' slabs tables' (q ::ₘ p ::ₘ data) ∧
      leafEntry offset k'.mem q (pageIndex virt) = (p - offset) ||| flags ∧
      SharesTop offset k' q virt ∧ Taken 4 free free' := by
  have inData : q ∈ q ::ₘ data := Multiset.mem_cons_self q data
  have asKernel : Mm.mapFreshPage offset q virt flags k =
      Mm.mapFreshPage offset (k.root offset) virt flags k := by
    cases free with
    | nil => exact absurd enough (by simp)
    | cons first rest =>
        obtain ⟨took, -⟩ := PagingInv.take inv direct
        have inFree : first ∈ pages := inv.heap.mem_pages (Or.inl List.mem_cons_self)
        have back := (direct.phys_page inFree).2.2.2.2
        rw [Mm.mapFreshPage, Mm.mapFreshPage, took, ok_bind, ok_bind]
        dsimp only
        rw [back]
        have root := tablePage_mem inv.tree.root
        have aligned := direct.usable.aligned
        have kept : ∀ t ∈ pages, t ∉ first :: rest →
            zeroPage k.mem first (slot t (lvlIndex 39 virt)) = k.mem (slot t (lvlIndex 39 virt)) := by
          intro t inPages notFree
          apply samePage_zeroPage (aligned first inFree) (aligned t inPages) _ _
            (slot_inPage (lvlIndex_lt 39 virt))
          rintro rfl
          exact notFree List.mem_cons_self
        have keptQ := kept q (inv.data_mem inData) (inv.apart direct.usable inData).1
        have keptRoot := kept _ (inv.table_mem root)
          ((inv.heap.disjoint direct.usable).2.2.2 _ (Multiset.mem_add.mpr (Or.inl root))).1
        apply map_of_same_top
        · dsimp only
          rw [keptQ, keptRoot, top.same]
        · dsimp only
          rw [keptRoot]
          exact top.present
  rcases mapFreshPage_spec inv direct bits virt (under_all _) with
    ⟨few, -⟩ | ⟨p, k', free', tables', ran, inFree, inv', mapped, vars, taken, others, -⟩
  · omega
  have onWay : [lvlIndex 39 virt] <:+ leafPath (pageIndex virt) := by
    rw [(leafPath_pageIndex virt).1]
    exact ⟨[_, _], rfl⟩
  obtain ⟨-, filled⟩ := mapped.above _ (by simp) onWay
  have word : k'.mem (slot (k.root offset) (lvlIndex 39 virt)) =
      k.mem (slot (k.root offset) (lvlIndex 39 virt)) :=
    filled.resolve_right fun linked => linked.1 top.present
  have top' : SharesTop offset k' q virt := by
    constructor
    · rw [vars.root, word, others q inData _ (slot_inPage (lvlIndex_lt 39 virt))]
      exact top.same
    · rw [vars.root, word]
      exact top.present
  refine ⟨k', p, free', tables', asKernel.trans ran, inFree, ?_, ?_, top', taken⟩
  · rw [KernelPaging, vars.root, Multiset.cons_swap]
    exact inv'
  · have index : pageIndex virt / 2 ^ 27 % 512 = lvlIndex 39 virt := by
      rw [lvlIndex_eq, pageIndex]
      omega
    have sameWord := top'.same
    rw [← index, vars.root] at sameWord
    rw [leafEntry_of_root_word sameWord]
    exact mapped.leaf

end Machine

/-- `mmap` of one page at the start of the direct map, with `MAP_ANONYMOUS | MAP_FIXED` and
`PROT_READ | PROT_WRITE`. -/
def fixedFrame : SyscallFrame := ⟨1, 1, 0xffff800000000000, 4096, 0x300000030, 0, 0⟩

theorem fixedFrame_addrs :
    loopAddrs fixedFrame.rsi.toNat (numOfPages fixedFrame.rdx.toNat).toNat = [machine.offset] := by
  decide

theorem fixedFrame_mmap {s : Cpu} {m : Made} {k : Kernel}
    (ran : Mm.mapFreshPage machine.offset (m.pagemap.root machine.offset) machine.offset
      (userFlags false) s.kernel = .ok k) :
    Cpu.Mmap machine.offset 0 m fixedFrame s (s.mapped k) := by
  have turn : Cpu.MapTurns machine.offset (m.pagemap.root machine.offset) (userFlags false) s
      ([] ++ [machine.offset]) (s.mapped k) := .turn .none (.refl machine.offset s) ran
  apply Cpu.Mmap.mmapRange
  · exact Or.inl (by decide)
  · decide
  · rw [fixedFrame_addrs]
    exact turn

theorem sharesTop_direct {k : Kernel} {q : Nat}
    (mapped : Present (k.leaf machine.offset (pageIndex machine.offset)))
    (upper : k.mem (slot q 256) = k.mem (slot (k.root machine.offset) 256)) :
    SharesTop machine.offset k q machine.offset := by
  have index : lvlIndex 39 machine.offset = 256 := by decide
  constructor
  · rw [index]
    exact upper
  · by_contra absent
    rw [index, show 256 = pageIndex machine.offset / 2 ^ 27 % 512 by decide] at absent
    rw [Kernel.leaf, leafEntry_of_root_absent absent] at mapped
    exact absurd mapped (by decide)

theorem CpuReached.process {k₀ k₁ : Kernel} {p : Pagemap}
    (booted : CpuReached machine machineImage (fun _ _ => True) ⟨k₀, [], k₀.pml4, ∅, []⟩)
    (made : k₀.newPagemap machine.offset (machineImage.virtualBase + machineImage.size) =
      .ok (p, k₁)) :
    CpuReached machine machineImage (fun _ _ => True)
      ⟨k₁, [⟨p, lowerEmpty machine.offset k₁.mem p⟩], p.pml4, ∅, []⟩ := by
  have allowedNew : CpuOp.newPagemap.Allowed machine.offset machineImage
      ⟨k₀, [], k₀.pml4, ∅, []⟩ := trivial
  have reached₀ := booted.step allowedNew trivial (.newPagemap made)
  have allowedLoad : (CpuOp.loadCr3 p.pml4).Allowed machine.offset machineImage
      ⟨k₁, [⟨p, lowerEmpty machine.offset k₁.mem p⟩], k₀.pml4, ∅, []⟩ :=
    Or.inr ⟨_, List.mem_singleton_self _, rfl⟩
  exact reached₀.step allowedLoad trivial (.loadCr3 p.pml4)

theorem CpuReached.mmapTwice {k₁ k₂ k₃ : Kernel} {m : Made}
    (reached : CpuReached machine machineImage (fun _ _ => True) ⟨k₁, [m], m.pagemap.pml4, ∅, []⟩)
    (first : Mm.mapFreshPage machine.offset (m.pagemap.root machine.offset) machine.offset
      (userFlags false) k₁ = .ok k₂)
    (present : Present (leafEntry machine.offset k₂.mem (m.pagemap.root machine.offset)
      (pageIndex machine.offset)))
    (second : Mm.mapFreshPage machine.offset (m.pagemap.root machine.offset) machine.offset
      (userFlags false) k₂ = .ok k₃) :
    ∃ s, CpuReached machine machineImage (fun _ _ => True) s ∧
      (s.Coherent machine.offset →
        leafEntry machine.offset k₂.mem (m.pagemap.root machine.offset) (pageIndex machine.offset) =
          leafEntry machine.offset k₃.mem (m.pagemap.root machine.offset)
            (pageIndex machine.offset)) := by
  let s₁ : Cpu := ⟨k₁, [m], m.pagemap.pml4, ∅, []⟩
  let s₂ : Cpu := ⟨k₂, [m], m.pagemap.pml4, ∅, [k₁.head]⟩
  let cached : Set (Vpn × Nat) := {(vpn machine.offset, s₂.view machine.offset (vpn machine.offset))}
  let s₃ : Cpu := { s₂ with tlb := cached }
  have picked : Cpu.Picked machine.offset s₂ s₃ := by
    refine ⟨cached, ?_, rfl⟩
    rintro e rfl
    exact Or.inr ⟨present, rfl⟩
  have allowedMmap : ∀ s, (CpuOp.mmap 0 fixedFrame).Allowed machine.offset machineImage s :=
    fun _ => trivial
  have allowedPick : CpuOp.pick.Allowed machine.offset machineImage s₂ := trivial
  have next₂ : s₁.Step machine.offset (machineImage.virtualBase + machineImage.size)
      (.mmap 0 fixedFrame) s₂ := .mmap List.getElem?_cons_zero (fixedFrame_mmap first)
  have next₄ : s₃.Step machine.offset (machineImage.virtualBase + machineImage.size)
      (.mmap 0 fixedFrame) (s₃.mapped k₃) := .mmap List.getElem?_cons_zero (fixedFrame_mmap second)
  have reached₃ : CpuReached machine machineImage (fun _ _ => True) s₃ :=
    (reached.step (allowedMmap s₁) trivial next₂).step allowedPick trivial (.pick picked)
  refine ⟨_, reached₃.step (allowedMmap s₃) trivial next₄, ?_⟩
  intro coherent
  exact coherent _ (Set.mem_singleton _)

/-- Its page has another frame then, which the cached entry does not know. -/
theorem mmap_leaves_stale : ∃ s : Cpu,
    CpuReached machine machineImage (fun _ _ => True) s ∧ ¬ s.Coherent machine.offset := by
  have paths : machinePaths.length = 2057 := by simp [machinePaths]
  have direct := pages_direct machine
  have bits := userFlags_bits false
  obtain ⟨k, k₀, free, slabs, tables, first, last, pmm, vmm, inv, ends, -, -, -, -, many, -⟩ :=
    boot_of_enough machine machineImage (fun _ => 0) machinePaths machine_covers
      (by rw [paths, machine_pages]; decide)
  rw [paths, machine_pages] at many
  rcases newPagemap_spec inv.paging direct (machineImage.virtualBase + machineImage.size) with
    ⟨few, -⟩ | ⟨p, k₁, free₁, slabs₁, part, node, ran₁, -, -, inv₁, -, -, upper, entries, vars,
      taken₁, -⟩
  · omega
  have few₁ := taken₁.few
  have mapped : Present (k₁.leaf machine.offset (pageIndex machine.offset)) := by
    rw [entries.kernel_leaf vars, inv.rest _ (pageIndex_lt _) List.not_mem_nil]
    exact ends.mapped
  have top := sharesTop_direct mapped (upper 256 (by decide) (by decide))
  obtain ⟨k₂, x, free₂, tables₂, ran₂, inX, inv₂, entry₂, top₂, taken₂⟩ :=
    top.mapFreshPage inv₁ direct bits (by omega)
  have few₂ := taken₂.few
  obtain ⟨k₃, y, free₃, tables₃, ran₃, inY, inv₃, entry₃, -⟩ :=
    top₂.mapFreshPage inv₂ direct bits (by omega)
  have present : Present (leafEntry machine.offset k₂.mem (p.root machine.offset)
      (pageIndex machine.offset)) := by
    rw [entry₂]
    exact present_or bits _
  have booted : CpuReached machine machineImage (fun _ _ => True) ⟨k₀, [], k₀.pml4, ∅, []⟩ :=
    .start pmm vmm
  obtain ⟨s, reached, stale⟩ := (booted.process ran₁).mmapTwice ran₂ present ran₃
  refine ⟨s, reached, fun coherent => ?_⟩
  have now := stale coherent
  dsimp only at now
  rw [entry₂, entry₃] at now
  have target : ∀ z ∈ machine.pages,
      pointee machine.offset ((z - machine.offset) ||| userFlags false) = z :=
    fun z member => (dataEntry_or direct bits member).2
  have inData : x ∈ p.root machine.offset ::ₘ x ::ₘ
      ((targets machine.offset k₀ (runs []) : Multiset Nat) + 0) := by simp
  have different : x ≠ y := by
    rintro rfl
    exact (inv₂.apart direct.usable inData).1 inY
  apply different
  rw [← target x (inv₂.data_mem inData), now, target y (inv₂.heap.mem_pages (Or.inl inY))]

end Nyaux.Syscall
