import Nyaux.Syscall.CachedEntries

/-! When the cached entries stay current.

`unmap` invalidates the page it clears and `map` invalidates nothing, so that all depends on
whether `map` writes over an entry that may have been picked up. -/

namespace Nyaux.Syscall

open Word Memory Paging Mm

namespace Cpu

def roots (offset : Nat) (s : Cpu) : List Nat :=
  s.kernel.root offset :: (s.made.filter Made.empty).map fun m => m.pagemap.root offset

def Known (s : Cpu) (pml4 : Nat) : Prop :=
  pml4 = s.kernel.pml4 ∨ ∃ m ∈ s.made, m.pagemap.pml4 = pml4

def Clean (s : Cpu) (pml4 : Nat) : Prop := ∀ m ∈ s.made, m.pagemap.pml4 = pml4 → m.empty = true

def Replaces (offset : Nat) (s : Cpu) (root page : Nat) : Prop :=
  ∃ t, tableAt offset s.kernel.mem root (leafPath page) = some t ∧
    tableAt offset s.kernel.mem (s.root offset) (leafPath page) = some t ∧
    Present (leafEntry offset s.kernel.mem (s.root offset) page)

def Unmapped (offset : Nat) (s : Cpu) (root : Nat) (addrs : List Nat) : Prop :=
  (addrs.map pageIndex).Nodup ∧ ∀ virt ∈ addrs, ¬ s.Replaces offset root (pageIndex virt)

/-- The pages that the first `n` turns of `vmm_region_dealloc` give back. -/
def freed (offset : Nat) (k : Kernel) (base n : Nat) : List Nat :=
  (pageLoop base n).map fun page => add64 (getPhysFromEntry (k.leaf offset page)) offset

end Cpu

/-- Callers pass a pagemap of theirs and flags that make an entry present; they give back regions
other than the kernel's own, with pages that a page loop has mapped. -/
def CpuOp.Allowed (offset : Nat) (image : KernelImage) (s : Cpu) : CpuOp → Prop
  | .loadCr3 pml4 | .unmap pml4 _ => s.Known pml4
  | .map pml4 _ _ flags => s.Known pml4 ∧ FlagBits flags
  | .vmmRegionAlloc _ flags => FlagBits flags
  | .vmmRegionDealloc base => base ≠ image.virtualBase ∧
      ∀ region regions, removeRegion base s.kernel.regions = .found region regions →
        (Cpu.freed offset s.kernel region.base (toInt32 (region.length / 4096)).toNat).Subperm
          s.frames
  | .pick | .newPagemap | .mmap _ _ => True

/-- When a step leaves no stale entry: what `map` writes over no present entry of the active
pagemap, unless it is the same one. -/
def CpuOp.Meets (offset : Nat) (s : Cpu) : CpuOp → Prop
  | .loadCr3 pml4 | .unmap pml4 _ => s.Clean pml4
  | .map pml4 virt phys flags => s.Clean pml4 ∧
      (s.Replaces offset (add64 pml4 offset) (pageIndex virt) →
        s.view offset (vpn virt) = phys ||| flags)
  | .vmmRegionAlloc size _ => ∀ r, nextRegion 0 size s.kernel.regions = some r →
      s.Unmapped offset (s.kernel.root offset) (loopAddrs r.base (numOfPages size).toNat)
  | .mmap i frame => ∀ m, s.made[i]? = some m → m.empty = true ∧
      (frame.flags = mapAnonymous →
        ∀ r, nextRegion 0 frame.rdx.toNat m.pagemap.head = some r →
          s.Unmapped offset (m.pagemap.root offset)
            (loopAddrs r.base (numOfPages frame.rdx.toNat).toNat)) ∧
      (frame.flags = (mapAnonymous ||| mapFixed : Nat) ∨
          frame.flags = (mapAnonymous ||| mapFixed ||| mapPrivate : Nat) →
        s.Unmapped offset (m.pagemap.root offset)
          (loopAddrs frame.rsi.toNat (numOfPages frame.rdx.toNat).toNat))
  | .pick | .vmmRegionDealloc _ | .newPagemap => True

/-- The states after boot and any steps that meet `condition`. -/
inductive CpuReached (boot : Limine) (image : KernelImage) (condition : Cpu → CpuOp → Prop) :
    Cpu → Prop
  | start {mem : Mem} {k₀ k : Kernel} (pmm : pmmInit boot mem = .ok k₀)
      (vmm : vmmInit boot.offset boot.entries image k₀ = .ok k) :
      CpuReached boot image condition ⟨k, [], k.pml4, ∅, []⟩
  | step {s s' : Cpu} {op : CpuOp} (before : CpuReached boot image condition s)
      (allowed : op.Allowed boot.offset image s) (meets : condition s op)
      (next : s.Step boot.offset (image.virtualBase + image.size) op s') :
      CpuReached boot image condition s'

namespace Cpu

/-- The pagemaps share their tables, the pages that loops have mapped are in use, and the cached
entries are present ones and current. -/
structure Inv (offset : Nat) (pages : List Nat) (s : Cpu) (free : List Nat) (slabs : List Slab)
    (tables : Multiset Nat) : Prop where
  paging : SharedInv offset pages (s.roots offset) s.kernel free slabs tables s.frames
  active : s.root offset ∈ s.roots offset
  tlb : Tlb.Sound Present (s.view offset) s.tlb

section Steps

variable {offset : Nat} {pages : List Nat} {s s' : Cpu} {k : Kernel} {free : List Nat}
  {slabs : List Slab} {tables : Multiset Nat} {root pml4 virt flags base n : Nat}

theorem mem_roots (known : s.Known pml4) (clean : s.Clean pml4) :
    add64 pml4 offset ∈ s.roots offset := by
  rcases known with rfl | ⟨m, member, rfl⟩
  · exact List.mem_cons_self
  · apply List.mem_cons_of_mem
    exact List.mem_map_of_mem (List.mem_filter.mpr ⟨member, clean m member rfl⟩)

theorem roots_kernel (offset : Nat) (pml4 : k.pml4 = s.kernel.pml4) (frames : List Nat)
    (tlb : Set (Vpn × Nat)) :
    Cpu.roots offset { s with kernel := k, tlb := tlb, frames := frames } = s.roots offset := by
  rw [roots, roots, Kernel.root, pml4]
  rfl

theorem keeps_of_written (written : LeafWritten offset (s.roots offset) root (pageIndex virt) n
      s.kernel.mem k.mem) (active : s.root offset ∈ s.roots offset)
    (kept : s.Replaces offset root (pageIndex virt) → s.view offset (vpn virt) = n) :
    Tlb.Keeps Present (s.view offset) (Cpu.view offset { s with kernel := k }) := by
  intro page present
  rcases written.leaf _ active page.1 page.2 with same | ⟨here, entry, place⟩
  · exact same
  have isPage : page = vpn virt := Subtype.ext here
  subst isPage
  cases found : tableAt offset s.kernel.mem (s.root offset) (leafPath (pageIndex virt)) with
  | none =>
      rw [view, vpn, leafEntry_of_none found] at present
      exact absurd present (by decide)
  | some t =>
      have shared := place.resolve_left (by rw [vpn, found]; exact Option.some_ne_none t)
      exact entry.trans (kept ⟨t, shared.symm.trans found, found, present⟩).symm

namespace Inv

theorem pick (inv : Inv offset pages s free slabs tables) (picked : Picked offset s s') :
    Inv offset pages s' free slabs tables := by
  obtain ⟨tlb, picks, rfl⟩ := picked
  exact ⟨inv.paging, inv.active, inv.tlb.picks picks⟩

theorem change {free' frames : List Nat} {slabs' : List Slab} {tables' : Multiset Nat}
    (inv : Inv offset pages s free slabs tables) (pml4 : k.pml4 = s.kernel.pml4)
    (paging : SharedInv offset pages (s.roots offset) k free' slabs' tables' frames)
    (keeps : Tlb.Keeps Present (s.view offset) (Cpu.view offset { s with kernel := k })) :
    Inv offset pages { s with kernel := k, frames := frames } free' slabs' tables' := by
  have same := roots_kernel offset pml4 frames s.tlb
  refine ⟨?_, ?_, inv.tlb.keeps keeps⟩
  · rw [same]
    exact paging
  · rw [same]
    exact inv.active

theorem untouched {free' : List Nat} {slabs' : List Slab}
    (inv : Inv offset pages s free slabs tables) (vars : SameVars s.kernel k)
    (paging : SharedInv offset pages (s.roots offset) k free' slabs' tables s.frames)
    (same : SamePaths offset (s.roots offset) s.kernel.mem k.mem) :
    Inv offset pages { s with kernel := k } free' slabs' tables :=
  inv.change vars.pml4 paging (Tlb.Keeps.of_eq fun page => same.leaf _ inv.active page)

theorem map {phys : Nat} (inv : Inv offset pages s free slabs tables) (direct : Direct offset pages)
    (bits : FlagBits flags) (member : root ∈ s.roots offset)
    (kept : s.Replaces offset root (pageIndex virt) → s.view offset (vpn virt) = phys ||| flags)
    (ran : Mm.map offset root virt phys flags s.kernel = .ok k) :
    (∃ free' tables', Inv offset pages { s with kernel := k } free' slabs tables') ∧
      SameVars s.kernel k := by
  obtain ⟨⟨free', tables', paging⟩, vars, written⟩ := inv.paging.map direct bits member ran
  exact ⟨⟨free', tables', inv.change vars.pml4 paging (keeps_of_written written inv.active kept)⟩,
    vars⟩

theorem map_coherent_iff {phys : Nat} (inv : Inv offset pages s free slabs tables)
    (direct : Direct offset pages) (bits : FlagBits flags) (member : root ∈ s.roots offset)
    (ran : Mm.map offset root virt phys flags s.kernel = .ok k) :
    (∀ tlb, Tlb.Sound Present (s.view offset) tlb →
        Cpu.Coherent offset { s with kernel := k, tlb := tlb }) ↔
      (s.Replaces offset root (pageIndex virt) → s.view offset (vpn virt) = phys ||| flags) := by
  obtain ⟨-, -, written⟩ := inv.paging.map direct bits member ran
  constructor
  · rintro coherent ⟨t, below, active, present⟩
    have keeps : Tlb.Keeps Present (s.view offset) (Cpu.view offset { s with kernel := k }) :=
      Tlb.keeps_iff.mpr coherent
    have unchanged := keeps (vpn virt) present
    have path := leafPath_ok (under_all (pageIndex virt))
    have there := leafEntry_of_tableAt (written.kept root member _ t path below)
    have here := leafEntry_of_tableAt (written.kept _ inv.active _ t path active)
    exact unchanged.symm.trans (here.trans (there.symm.trans written.written))
  · intro kept tlb sound
    exact (sound.keeps (keeps_of_written written inv.active kept)).coherent

theorem mapFreshPage (inv : Inv offset pages s free slabs tables) (direct : Direct offset pages)
    (bits : FlagBits flags) (member : root ∈ s.roots offset)
    (fresh : ¬ s.Replaces offset root (pageIndex virt))
    (ran : Mm.mapFreshPage offset root virt flags s.kernel = .ok k) :
    (∃ free' tables', Inv offset pages (s.mapped k) free' slabs tables') ∧ SameVars s.kernel k ∧
      ∀ page < 2 ^ 36, page ≠ pageIndex virt → (s.mapped k).Replaces offset root page →
        s.Replaces offset root page := by
  obtain ⟨⟨free', tables', paging⟩, vars, entry, written⟩ :=
    inv.paging.mapFreshPage direct bits member ran
  have keeps := keeps_of_written written inv.active fun replaces => absurd replaces fresh
  rw [Multiset.cons_coe] at paging
  refine ⟨⟨free', tables', inv.change vars.pml4 paging keeps⟩, vars, ?_⟩
  rintro page bound different ⟨t, below, active, present⟩
  have same := (written.leaf _ inv.active page bound).resolve_right fun new => different new.1
  have unchanged : Present (leafEntry offset s.kernel.mem (s.root offset) page) := same ▸ present
  cases found : tableAt offset s.kernel.mem (s.root offset) (leafPath page) with
  | none =>
      rw [leafEntry_of_none found] at unchanged
      exact absurd unchanged (by decide)
  | some u =>
      have shared := written.sharing root member _ inv.active _ u (leafPath_ok (under_all page)) found
        (below.trans active.symm)
      exact ⟨u, shared, found, unchanged⟩

structure SameCpu (s s' : Cpu) : Prop where
  vars : SameVars s.kernel s'.kernel
  made : s'.made = s.made
  cr3 : s'.cr3 = s.cr3

theorem SameCpu.roots (same : SameCpu s s') : s'.roots offset = s.roots offset := by
  rw [Cpu.roots, Cpu.roots, same.vars.root, same.made]

theorem SameCpu.trans {s'' : Cpu} (first : SameCpu s s') (second : SameCpu s' s'') :
    SameCpu s s'' :=
  ⟨first.vars.trans second.vars, second.made.trans first.made, second.cr3.trans first.cr3⟩

theorem sameCpu_of_picked (picked : Picked offset s s') : SameCpu s s' := by
  obtain ⟨tlb, -, rfl⟩ := picked
  exact ⟨.refl _, rfl, rfl⟩

theorem replaces_of_picked (picked : Picked offset s s') {page : Nat} :
    s'.Replaces offset root page ↔ s.Replaces offset root page := by
  obtain ⟨tlb, -, rfl⟩ := picked
  exact Iff.rfl

theorem mapTurns {addrs : List Nat} (inv : Inv offset pages s free slabs tables)
    (direct : Direct offset pages) (bits : FlagBits flags) (member : root ∈ s.roots offset)
    (unmapped : s.Unmapped offset root addrs) (turns : MapTurns offset root flags s addrs s') :
    (∃ free' tables', Inv offset pages s' free' slabs tables') ∧ SameCpu s s' ∧
      ∀ page < 2 ^ 36, page ∉ addrs.map pageIndex → s'.Replaces offset root page →
        s.Replaces offset root page := by
  induction turns with
  | none => exact ⟨⟨free, tables, inv⟩, ⟨.refl _, rfl, rfl⟩, fun _ _ _ replaces => replaces⟩
  | @turn addrs virt s₁ s₂ k before picked ran ih =>
      obtain ⟨once, fresh⟩ := unmapped
      rw [List.map_append, List.map_singleton, List.nodup_append] at once
      obtain ⟨onceBefore, -, apart⟩ := once
      have new : pageIndex virt ∉ addrs.map pageIndex :=
        fun earlier => apart _ earlier _ (List.mem_singleton_self _) rfl
      obtain ⟨⟨free₁, tables₁, inv₁⟩, same₁, back⟩ :=
        ih ⟨onceBefore, fun v inAddrs => fresh v (List.mem_append_left _ inAddrs)⟩
      have inv₂ := inv₁.pick picked
      have same₂ := same₁.trans (sameCpu_of_picked picked)
      have freshNow : ¬ s₂.Replaces offset root (pageIndex virt) := by
        rw [replaces_of_picked picked]
        intro replaces
        exact fresh virt (by simp) (back _ (pageIndex_lt virt) new replaces)
      have member₂ : root ∈ s₂.roots offset := same₂.roots ▸ member
      obtain ⟨inv', vars, back'⟩ := inv₂.mapFreshPage direct bits member₂ freshNow ran
      refine ⟨inv', same₂.trans ⟨vars, rfl, rfl⟩, ?_⟩
      intro page bound outside replaces
      rw [List.map_append, List.mem_append, not_or, List.map_singleton, List.mem_singleton] at outside
      have earlier := back' page bound outside.2 replaces
      rw [replaces_of_picked picked] at earlier
      exact back page bound outside.1 earlier

/-- `unmap` with its `invlpg`. -/
theorem unmap (inv : Inv offset pages s free slabs tables) (direct : Direct offset pages)
    (member : root ∈ s.roots offset) (virt : Nat) :
    (s.unmap offset root virt).1 = leafEntry offset s.kernel.mem root (pageIndex virt) ∧
      (∃ tables', Inv offset pages (s.unmap offset root virt).2 free slabs tables') ∧
      SameCpu s (s.unmap offset root virt).2 ∧
      (s.unmap offset root virt).2.frames = s.frames ∧
      ∀ other < 2 ^ 36, other ≠ pageIndex virt →
        leafEntry offset (s.unmap offset root virt).2.kernel.mem root other =
          leafEntry offset s.kernel.mem root other := by
  obtain ⟨old, ⟨tables', paging⟩, vars, others⟩ := inv.paging.unmap direct member virt
  rw [Cpu.unmap]
  dsimp only
  by_cases found : lastTable offset s.kernel.mem root virt ≠ 0
  · rw [if_pos found]
    refine ⟨old, ⟨tables', ?_⟩, ⟨vars, rfl, rfl⟩, rfl, others root member⟩
    have same := roots_kernel offset vars.pml4 s.frames
      (Tlb.invalidate (vpn virt) s.tlb)
    refine ⟨same.symm ▸ paging, same.symm ▸ inv.active, inv.tlb.invalidate ?_⟩
    intro page different
    apply others _ inv.active page.1 page.2
    exact fun here => different (Subtype.ext here)
  · rw [if_neg found]
    rw [unmap_missing (by omega)] at old paging vars others ⊢
    exact ⟨old, ⟨tables, inv⟩, ⟨vars, rfl, rfl⟩, rfl, others root member⟩

/-- A turn of the loop in `vmm_region_dealloc`, with a page that a loop has mapped. -/
theorem freePage (inv : Inv offset pages s free slabs tables) (direct : Direct offset pages)
    (virt : Nat) {page : Nat}
    (given : add64 (getPhysFromEntry (s.kernel.leaf offset (pageIndex virt))) offset = page)
    (member : page ∈ s.frames) :
    (∃ free' tables', Inv offset pages (s.freePage offset virt) free' slabs tables') ∧
      SameCpu s (s.freePage offset virt) ∧
      (s.freePage offset virt).frames = s.frames.erase page ∧
      ∀ other < 2 ^ 36, other ≠ pageIndex virt →
        (s.freePage offset virt).kernel.leaf offset other = s.kernel.leaf offset other := by
  have kernelRoot : s.kernel.root offset ∈ s.roots offset := List.mem_cons_self
  obtain ⟨old, ⟨tables₁, inv₁⟩, same₁, frames₁, others₁⟩ := inv.unmap direct kernelRoot virt
  rw [Cpu.freePage]
  dsimp only
  rw [old, show leafEntry offset s.kernel.mem (s.kernel.root offset) (pageIndex virt) =
    s.kernel.leaf offset (pageIndex virt) from rfl, given]
  generalize (s.unmap offset (s.kernel.root offset) virt).2 = s₁ at *
  have split : (s₁.frames : Multiset Nat) = page ::ₘ (s₁.frames.erase page : List Nat) := by
    rw [frames₁]
    exact Multiset.coe_eq_coe.mpr (List.perm_cons_erase member)
  have paging := inv₁.paging
  rw [split] at paging
  obtain ⟨given', paths⟩ := paging.give direct.usable
  have inv₂ := inv₁.change (k := pmmFreeSinglep page s₁.kernel) rfl given'
    (Tlb.Keeps.of_eq fun q => paths.leaf _ inv₁.active q)
  have roots₁ : s₁.roots offset = s.roots offset := same₁.roots
  refine ⟨⟨_, _, inv₂⟩, same₁.trans ⟨⟨rfl, rfl, rfl⟩, rfl, rfl⟩, by rw [frames₁], ?_⟩
  intro other bound different
  rw [Kernel.leaf, Kernel.leaf, show (pmmFreeSinglep page s₁.kernel).root offset =
    s.kernel.root offset from same₁.vars.root, ← others₁ other bound different]
  exact paths.leaf _ (roots₁ ▸ kernelRoot) other

/-- The loop of `vmm_region_dealloc`. -/
theorem freeTurns (inv : Inv offset pages s free slabs tables) (direct : Direct offset pages)
    (given : (freed offset s.kernel base n).Subperm s.frames)
    (turns : FreeTurns offset base s n s') :
    (∃ free' tables', Inv offset pages s' free' slabs tables') ∧ SameCpu s s' ∧
      (freed offset s.kernel base n ++ s'.frames).Perm s.frames ∧
      ∀ page < 2 ^ 36, page ∉ pageLoop base n →
        s'.kernel.leaf offset page = s.kernel.leaf offset page := by
  induction turns with
  | none => exact ⟨⟨free, tables, inv⟩, ⟨.refl _, rfl, rfl⟩, .refl _, fun _ _ _ => rfl⟩
  | @turn n s₁ s₂ before picked ih =>
      have last : freed offset s.kernel base (n + 1) = freed offset s.kernel base n ++
          [add64 (getPhysFromEntry (s.kernel.leaf offset (pageIndex (pageAddr base n)))) offset] := by
        rw [freed, pageLoop_succ, List.map_append]
        rfl
      generalize frame : add64 (getPhysFromEntry
        (s.kernel.leaf offset (pageIndex (pageAddr base n)))) offset = page at last
      rw [last] at given ⊢
      have nodup : (freed offset s.kernel base n ++ [page]).Nodup := by
        obtain ⟨sub, perm, sublist⟩ := given
        have frames : s.frames.Nodup :=
          Multiset.coe_nodup.mp (inv.paging.disjoint direct.usable).2.2
        exact perm.nodup_iff.mp (frames.sublist sublist)
      obtain ⟨⟨free₁, tables₁, inv₁⟩, same₁, split, leaf₁⟩ :=
        ih ((List.sublist_append_left _ [page]).subperm.trans given)
      have inv₂ := inv₁.pick picked
      have same₂ := same₁.trans (sameCpu_of_picked picked)
      have kernel₂ := picked.kernel
      have frames₂ : s₂.frames = s₁.frames := by
        obtain ⟨tlb, -, rfl⟩ := picked
        rfl
      have member : page ∈ s₂.frames := by
        have both := given.trans split.symm.subperm
        rw [frames₂]
        exact List.singleton_subperm_iff.mp ((List.subperm_append_left _).mp both)
      -- the page of this turn is not one of the earlier ones
      have outside : pageIndex (pageAddr base n) ∉ pageLoop base n := by
        intro earlier
        have inFreed : page ∈ freed offset s.kernel base n := frame ▸ List.mem_map_of_mem earlier
        exact List.disjoint_of_nodup_append nodup inFreed (List.mem_singleton_self page)
      have now : add64 (getPhysFromEntry
          (s₂.kernel.leaf offset (pageIndex (pageAddr base n)))) offset = page := by
        rw [kernel₂, leaf₁ _ (pageIndex_lt _) outside, frame]
      obtain ⟨inv', same, frames', leaf'⟩ := inv₂.freePage direct _ now member
      refine ⟨inv', same₂.trans same, ?_, ?_⟩
      · rw [frames', frames₂, List.append_assoc, List.singleton_append]
        rw [frames₂] at member
        exact ((List.perm_cons_erase member).symm.append_left _).trans split
      · intro other bound away
        rw [pageLoop_succ, List.mem_append, not_or, List.mem_singleton] at away
        rw [leaf' other bound away.2, kernel₂, leaf₁ other bound away.1]

theorem setRegions (inv : Inv offset pages s free slabs tables) (regions : List VmmRegion) :
    Inv offset pages { s with kernel := { s.kernel with regions := regions } } free slabs tables := by
  have heap := inv.paging.heap
  exact ⟨⟨⟨heap.pages, heap.list, heap.slab, heap.count, heap.caches⟩, inv.paging.shared⟩, inv.active,
    inv.tlb⟩

theorem unmapped_of_same {addrs : List Nat} (inv : Inv offset pages s free slabs tables)
    (same : SamePaths offset (s.roots offset) s.kernel.mem k.mem) (member : root ∈ s.roots offset)
    (unmapped : s.Unmapped offset root addrs) :
    Cpu.Unmapped offset { s with kernel := k } root addrs := by
  refine ⟨unmapped.1, fun virt inAddrs => ?_⟩
  have path := leafPath_ok (under_all (pageIndex virt))
  rintro ⟨t, below, active, present⟩
  dsimp only at below active present
  rw [same.tables root member _ path] at below
  apply unmapped.2 virt inAddrs
  refine ⟨t, below, ?_, ?_⟩
  · rw [← same.tables _ inv.active _ path]
    exact active
  · rw [← same.leaf _ inv.active]
    exact present

end Inv

end Steps

end Cpu

end Nyaux.Syscall
