import Nyaux.Elf.LoadElf
import Nyaux.Mm.UserPages

/-! Where the physical pages of a process are.

`map` writes a leaf entry without a look at the one it replaces. -/

namespace Nyaux.Elf

open Word Memory Paging Mm

/-- A process as `load_elf_program` and `syscall_mmap` see it. -/
structure ProcessState where
  kernel : Kernel
  map : Pagemap

def ProcessState.leaf (offset : Nat) (s : ProcessState) (page : Nat) : Nat :=
  leafEntry offset s.kernel.mem (s.map.root offset) page

def segmentAddrs (base : Nat) (phdr : Elf64Phdr) : List Nat :=
  (List.range (toInt32 (segmentLength phdr / 4096)).toNat).map fun i =>
    alignDown (pageAddr (add64 base phdr.pVaddr) i) 4096

def ProcessState.loadSegment (offset base : Nat) (phdr : Elf64Phdr) (s : ProcessState) :
    Except Stop ProcessState := do
  let k ← mapFreshPages offset (s.map.root offset) (userFlags true) (segmentAddrs base phdr) s.kernel
  match findPair (startsBetween (segmentBase base phdr)) s.map.head with
  | some (front, back) => do
      let (node, k) ← allocNode offset k
      .ok ⟨k, { s.map with
        head := front ++ ⟨node, segmentBase base phdr, segmentLength phdr⟩ :: back }⟩
  | none => .ok ⟨k, s.map⟩

/-- What writes leaf entries for a process: a segment, `mmap_range` (the stack and fixed
mappings), `vmm_region_alloc_user`. In between the process, or a read on its behalf, writes to
its pages. -/
inductive ProcessOp where
  | segment (base : Nat) (phdr : Elf64Phdr)
  | fixed (hint size : Nat) (exec : Bool)
  | anywhere (size : Nat)
  | bytes (mem : Mem)

def ProcessState.step (offset : Nat) (s : ProcessState) : ProcessOp → Except Stop ProcessState
  | .segment base phdr => s.loadSegment offset base phdr
  | .fixed hint size exec => do
      let (_, k) ← s.map.mmapRange offset hint size (userFlags exec) s.kernel
      .ok ⟨k, s.map⟩
  | .anywhere size => do
      let (_, map, k) ← s.map.vmmRegionAllocUser offset size (userFlags true) s.kernel
      .ok ⟨k, map⟩
  | .bytes mem => .ok ⟨{ s.kernel with mem := mem }, s.map⟩

/-- The addresses an operation maps; for `vmm_region_alloc_user` behind the node it stops at. -/
def ProcessOp.addrs (s : ProcessState) : ProcessOp → List Nat
  | .segment base phdr => segmentAddrs base phdr
  | .fixed hint size _ => loopAddrs hint (numOfPages size).toNat
  | .anywhere size =>
      match (findGap size s.map.head).bind fun parts => parts.1.getLast? with
      | some prev => loopAddrs prev.stop (numOfPages size).toNat
      | none => []
  | .bytes _ => []

def OwnPage (offset : Nat) (s₀ s : ProcessState) (page : Nat) : Prop :=
  page < 2 ^ 36 ∧ ¬ Present (s₀.leaf offset page) ∧ Present (s.leaf offset page)

/-- Sizes are below 2 GiB; bytes change in the process's own pages only. -/
def ProcessOp.Allowed (offset : Nat) (s₀ s : ProcessState) : ProcessOp → Prop
  | .segment _ _ => True
  | .fixed _ size _ => size < 2 ^ 31
  | .anywhere size => size < 2 ^ 31
  | .bytes mem => ∀ address, mem address ≠ s.kernel.mem address →
      ∃ page, OwnPage offset s₀ s page ∧ InPage (pointee offset (s.leaf offset page)) address

def ProcessState.Repeats (offset : Nat) (s : ProcessState) (addrs : List Nat) : Prop :=
  ¬ (addrs.map pageIndex).Nodup ∨ ∃ virt ∈ addrs, Present (s.leaf offset (pageIndex virt))

def ProcessOp.Overwrites (offset : Nat) (s : ProcessState) (op : ProcessOp) : Prop :=
  s.Repeats offset (op.addrs s)

/-- The states after some operations that all meet `good`. -/
inductive ProcessReached (offset : Nat) (good : ProcessState → ProcessOp → Prop)
    (s₀ : ProcessState) : ProcessState → Prop
  | start : ProcessReached offset good s₀ s₀
  | step {s s' : ProcessState} {op : ProcessOp} (before : ProcessReached offset good s₀ s)
      (allowed : op.Allowed offset s₀ s) (meets : good s op) (next : s.step offset op = .ok s') :
      ProcessReached offset good s₀ s'

def OnFreeList (k : Kernel) (p : Nat) : Prop := ∃ free, Chain k.mem 0 k.head free ∧ p ∈ free

def OnSlabList (k : Kernel) (p : Nat) : Prop :=
  ∃ c : Nat, ∃ cache slabs, k.kmallocCache[c]? = some cache ∧ Chain k.mem 8 cache.slabs slabs ∧
    p ∈ slabs

/-- A table of the pagemap, or the target of exactly one of the leaf entries made for the
process. -/
def Reachable (offset : Nat) (s₀ s : ProcessState) (p : Nat) : Prop :=
  (∃ path, PathOk 512 path ∧
    tableAt offset s.kernel.mem (s.map.root offset) path = some p) ∨
  ∃! page, OwnPage offset s₀ s page ∧ pointee offset (s.leaf offset page) = p

/-- Every page taken from the free list since `s₀` is a slab or is found from the pagemap. -/
def NoPageLost (offset : Nat) (s₀ s : ProcessState) : Prop :=
  ∀ p, OnFreeList s₀.kernel p → ¬ OnFreeList s.kernel p → ¬ OnSlabList s.kernel p →
    Reachable offset s₀ s p

section Runs

variable {offset : Nat} {pages : List Nat} {data : Multiset Nat} {s₀ s s' : ProcessState}
  {op : ProcessOp} {mapped free : List Nat} {slabs : List Slab} {tables : List (List Nat × Nat)}

theorem onFreeList_iff {others : Multiset Nat} {k : Kernel}
    (heap : HeapInv pages 8 k free slabs others) {p : Nat} : OnFreeList k p ↔ p ∈ free := by
  constructor
  · rintro ⟨other, chain, member⟩
    rwa [chain.unique heap.list] at member
  · exact fun member => ⟨free, heap.list, member⟩

theorem onSlabList_iff {others : Multiset Nat} {k : Kernel}
    (heap : HeapInv pages 8 k free slabs others) {p : Nat} :
    OnSlabList k p ↔ p ∈ slabPages slabs := by
  constructor
  · rintro ⟨c, cache, list, cached, chain, member⟩
    obtain ⟨bound, -⟩ := List.getElem?_eq_some_iff.mp cached
    obtain ⟨first, entry, -, listed⟩ := heap.caches c (by rw [heap.count] at bound; exact bound)
    obtain rfl : ⟨first, cacheSize c⟩ = cache := Option.some.inj (entry.symm.trans cached)
    rw [chain.unique listed] at member
    obtain ⟨t, inCache, rfl⟩ := List.mem_map.mp member
    exact slabPage_mem (List.mem_filter.mp inCache).1
  · intro member
    obtain ⟨t, inSlabs, rfl⟩ := List.mem_map.mp member
    obtain ⟨first, entry, -, listed⟩ := heap.caches t.cache (heap.slab t inSlabs).cache
    refine ⟨t.cache, _, _, entry, listed, ?_⟩
    exact slabPage_mem (List.mem_filter.mpr ⟨inSlabs, decide_eq_true rfl⟩)

def ProcessInv (offset : Nat) (pages : List Nat) (data : Multiset Nat) (s₀ s : ProcessState) :
    Prop :=
  s.map.root offset = s₀.map.root offset ∧ ∃ mapped free slabs tables,
    MappedInv offset pages (s.map.root offset) 512 (s₀.leaf offset) data s.kernel mapped free slabs
      tables

theorem pages_of_good {flags : Nat} {k' : Kernel} (direct : Direct offset pages)
    (bits : FlagBits flags) (addrs : List Nat)
    (inv : MappedInv offset pages (s.map.root offset) 512 (s₀.leaf offset) data s.kernel mapped free
      slabs tables)
    (good : ¬ s.Repeats offset addrs)
    (ran : mapFreshPages offset (s.map.root offset) flags addrs s.kernel = .ok k') :
    ∃ mapped' free' tables', MappedInv offset pages (s.map.root offset) 512 (s₀.leaf offset) data
      k' mapped' free' slabs tables' := by
  rw [ProcessState.Repeats, not_or, not_not] at good
  apply inv.mapFreshPages direct bits addrs (fun virt _ => under_all _) good.1 _ ran
  exact fun virt member present => good.2 ⟨virt, member, present⟩

theorem addrs_segment (base : Nat) (phdr : Elf64Phdr) :
    (ProcessOp.segment base phdr).addrs s = segmentAddrs base phdr := rfl

theorem addrs_fixed (hint size : Nat) (exec : Bool) :
    (ProcessOp.fixed hint size exec).addrs s = loopAddrs hint (numOfPages size).toNat := rfl

theorem addrs_anywhere {size : Nat} {front back : List VmmRegion} {prev : VmmRegion}
    (found : findGap size s.map.head = some (front, back)) (final : front.getLast? = some prev) :
    (ProcessOp.anywhere size).addrs s = loopAddrs prev.stop (numOfPages size).toNat := by
  rw [ProcessOp.addrs, found, Option.bind_some, final]

theorem ProcessInv.step (inv : ProcessInv offset pages data s₀ s) (direct : Direct offset pages)
    (allowed : op.Allowed offset s₀ s) (good : ¬ op.Overwrites offset s)
    (next : s.step offset op = .ok s') : ProcessInv offset pages data s₀ s' := by
  obtain ⟨root, mapped, free, slabs, tables, inv⟩ := inv
  cases op with
  | segment base phdr =>
      rw [ProcessOp.Overwrites, addrs_segment] at good
      obtain ⟨k₁, ran, rest⟩ := of_bind_ok next
      obtain ⟨mapped₁, free₁, tables₁, inv₁⟩ :=
        pages_of_good direct (userFlags_bits true) _ inv good ran
      dsimp only at rest
      split at rest
      · obtain ⟨⟨node, k₂⟩, took, rest⟩ := of_bind_ok rest
        obtain ⟨⟨free₂, slabs₂, inv₂⟩, -⟩ := inv₁.allocNode direct.usable took
        obtain rfl := Except.ok.inj rest
        exact ⟨root, mapped₁, free₂, slabs₂, tables₁, inv₂⟩
      · obtain rfl := Except.ok.inj rest
        exact ⟨root, mapped₁, free₁, slabs, tables₁, inv₁⟩
  | fixed hint size exec =>
      rw [ProcessOp.Overwrites, addrs_fixed] at good
      obtain ⟨⟨base, k₁⟩, ran, rest⟩ := of_bind_ok next
      obtain rfl := Except.ok.inj rest
      unfold Pagemap.mmapRange at ran
      split at ran
      · cases ran
      · obtain ⟨k₂, loop, same⟩ := of_bind_ok ran
        obtain ⟨-, rfl⟩ := Prod.mk.inj (Except.ok.inj same)
        obtain ⟨mapped₁, free₁, tables₁, inv₁⟩ :=
          pages_of_good direct (userFlags_bits exec) _ inv good loop
        exact ⟨root, mapped₁, free₁, slabs, tables₁, inv₁⟩
  | anywhere size =>
      obtain ⟨⟨base, map, k₁⟩, ran, rest⟩ := of_bind_ok next
      obtain rfl := Except.ok.inj rest
      unfold Pagemap.vmmRegionAllocUser at ran
      cases found : findGap size s.map.head with
      | none =>
          rw [found] at ran
          cases ran
      | some parts =>
          obtain ⟨front, back⟩ := parts
          rw [found] at ran
          dsimp only at ran
          cases final : front.getLast? with
          | none =>
              rw [final] at ran
              cases ran
          | some prev =>
              rw [final] at ran
              rw [ProcessOp.Overwrites, addrs_anywhere found final] at good
              obtain ⟨⟨node, k₂⟩, took, more⟩ := of_bind_ok ran
              dsimp only at more
              obtain ⟨k₃, loop, same⟩ := of_bind_ok more
              obtain ⟨-, same⟩ := Prod.mk.inj (Except.ok.inj same)
              obtain ⟨rfl, rfl⟩ := Prod.mk.inj same
              obtain ⟨⟨free₂, slabs₂, inv₂⟩, entries⟩ := inv.allocNode direct.usable took
              let t : ProcessState := ⟨k₂, s.map⟩
              -- the node's slab changes no entry
              have good₂ : ¬ t.Repeats offset (loopAddrs prev.stop (numOfPages size).toNat) := by
                rintro (twice | ⟨virt, member, present⟩)
                · exact good (Or.inl twice)
                · have kept : t.leaf offset (pageIndex virt) = s.leaf offset (pageIndex virt) :=
                    entries.leaf (under_all _)
                  rw [kept] at present
                  exact good (Or.inr ⟨virt, member, present⟩)
              have inv₂' : MappedInv offset pages (t.map.root offset) 512 (s₀.leaf offset) data
                  t.kernel mapped free₂ slabs₂ tables := inv₂
              obtain ⟨mapped₃, free₃, tables₃, inv₃⟩ :=
                pages_of_good direct (userFlags_bits true) _ inv₂' good₂ loop
              exact ⟨root, mapped₃, free₃, slabs₂, tables₃, inv₃⟩
  | bytes mem =>
      obtain rfl := Except.ok.inj next
      refine ⟨root, mapped, free, slabs, tables, inv.write direct.usable ?_⟩
      intro address changed
      obtain ⟨page, ⟨bound, new, present⟩, inside⟩ := allowed address changed
      exact ⟨page, bound, under_all page, new, present, inside⟩

theorem ProcessInv.noPageLost (inv : ProcessInv offset pages data s₀ s) (usable : Usable pages)
    {free₀ : List Nat} {slabs₀ : List Slab} {tables₀ : List (List Nat × Nat)}
    (inv₀ : PagingInv offset pages (s₀.map.root offset) 512 s₀.kernel free₀ slabs₀ tables₀ data) :
    NoPageLost offset s₀ s := by
  obtain ⟨root, mapped, free, slabs, tables, inv⟩ := inv
  intro p wasFree notFree notSlab
  rw [onFreeList_iff inv₀.heap] at wasFree
  rw [onFreeList_iff inv.paging.heap] at notFree
  rw [onSlabList_iff inv.paging.heap] at notSlab
  have notData : p ∉ data := fun inData => (inv₀.apart usable inData).1 wasFree
  have somewhere : p ∈ (pages : Multiset Nat) :=
    Multiset.mem_coe.mpr (inv₀.heap.mem_pages (Or.inl wasFree))
  rw [← inv.paging.heap.pages] at somewhere
  simp only [Multiset.mem_add, Multiset.mem_coe, notFree, notSlab, notData, or_false,
    false_or] at somewhere
  rcases somewhere with inTables | target
  · obtain ⟨⟨path, t⟩, member, rfl⟩ := List.mem_map.mp inTables
    exact Or.inl ⟨path, inv.paging.tree.shape _ member, inv.paging.tree.tableAt_of_mem member⟩
  · obtain ⟨page, member, rfl⟩ := List.mem_map.mp target
    have own : ∀ other, OwnPage offset s₀ s other ↔ other ∈ mapped := by
      intro other
      constructor
      · rintro ⟨bound, new, present⟩
        by_contra outside
        have kept := inv.rest other bound (under_all other) outside
        rw [ProcessState.leaf, kept] at present
        exact new present
      · intro inMapped
        obtain ⟨bound, -, new, present⟩ := inv.new other inMapped
        exact ⟨bound, new, present⟩
    refine Or.inr ⟨page, ⟨(own page).mpr member, rfl⟩, ?_⟩
    rintro other ⟨owned, same⟩
    have nodup : ((free : Multiset Nat) + slabPages slabs + (tablePages tables +
        ((mapped.map fun page => pointee offset (leafEntry offset s.kernel.mem
          (s.map.root offset) page) : List Nat) + data))).Nodup := by
      rw [inv.paging.heap.pages]
      exact usable.nodup
    have targets := (Multiset.nodup_add.mp (Multiset.nodup_add.mp
      (Multiset.nodup_add.mp nodup).2.1).2.1).1
    exact List.inj_on_of_nodup_map targets ((own other).mp owned) member same

theorem lost_of_remapped {flags virt : Nat} (direct : Direct offset pages) (bits : FlagBits flags)
    (inv : MappedInv offset pages (s.map.root offset) 512 (s₀.leaf offset) data s.kernel mapped free
      slabs tables)
    (member : pageIndex virt ∈ mapped) {k' : Kernel}
    (ran : mapFreshPage offset (s.map.root offset) virt flags s.kernel = .ok k') :
    ¬ OnFreeList k' (pointee offset (s.leaf offset (pageIndex virt))) ∧
      ¬ OnSlabList k' (pointee offset (s.leaf offset (pageIndex virt))) ∧
      ¬ Reachable offset s₀ ⟨k', s.map⟩ (pointee offset (s.leaf offset (pageIndex virt))) := by
  have bound := pageIndex_lt virt
  rcases mapFreshPage_spec inv.paging direct bits virt (under_all _) with
    ⟨-, stopped⟩ | ⟨p, k'', free', tables', ran', inFree, paging, made, -, -, -⟩
  · rw [stopped] at ran
    cases ran
  obtain rfl := Except.ok.inj (ran'.symm.trans ran)
  have inData : pointee offset (s.leaf offset (pageIndex virt)) ∈
      ((mapped.map fun page => pointee offset (leafEntry offset s.kernel.mem (s.map.root offset)
        page) : List Nat) : Multiset Nat) + data :=
    Multiset.mem_add.mpr (Or.inl (Multiset.mem_coe.mpr (List.mem_map_of_mem member)))
  obtain ⟨notFree, notSlab, notTable⟩ :=
    paging.apart direct.usable (Multiset.mem_cons_of_mem inData)
  have other : p ≠ pointee offset (s.leaf offset (pageIndex virt)) := by
    rintro rfl
    exact (inv.paging.apart direct.usable inData).1 inFree
  rw [onFreeList_iff paging.heap, onSlabList_iff paging.heap]
  refine ⟨notFree, notSlab, ?_⟩
  rintro (⟨path, ok, found⟩ | ⟨page, ⟨⟨small, new, present⟩, target⟩, -⟩)
  · exact notTable (tablePage_mem (paging.tree.mem_of_tableAt ok found))
  · have entry := made.leafEntry bound small (under_all page)
    change pointee offset (leafEntry offset k''.mem (s.map.root offset) page) = _ at target
    change Present (leafEntry offset k''.mem (s.map.root offset) page) at present
    by_cases same : page = pageIndex virt
    · rw [entry, if_pos same, (dataEntry_or direct bits (inv.paging.heap.mem_pages
        (Or.inl inFree))).2] at target
      exact other target
    · -- any other page of the process kept its own
      rw [entry, if_neg same] at target present
      have inMapped : page ∈ mapped := by
        by_contra outside
        rw [inv.rest page small (under_all page) outside] at present
        exact new present
      have nodup : ((free : Multiset Nat) + slabPages slabs + (tablePages tables +
          ((mapped.map fun page => pointee offset (leafEntry offset s.kernel.mem
            (s.map.root offset) page) : List Nat) + data))).Nodup := by
        rw [inv.paging.heap.pages]
        exact direct.usable.nodup
      have targets := (Multiset.nodup_add.mp (Multiset.nodup_add.mp
        (Multiset.nodup_add.mp nodup).2.1).2.1).1
      exact same (List.inj_on_of_nodup_map targets inMapped member target)

theorem processReached_inv {free₀ : List Nat} {slabs₀ : List Slab}
    {tables₀ : List (List Nat × Nat)} (direct : Direct offset pages)
    (inv₀ : PagingInv offset pages (s₀.map.root offset) 512 s₀.kernel free₀ slabs₀ tables₀ data)
    (reached : ProcessReached offset (fun s op => ¬ op.Overwrites offset s) s₀ s) :
    ProcessInv offset pages data s₀ s := by
  induction reached with
  | start => exact ⟨rfl, [], free₀, slabs₀, tables₀, MappedInv.start inv₀⟩
  | step _ allowed good next ih => exact ih.step direct allowed good next

end Runs

/-- As long as no operation maps a page that is mapped, every page the process took is found
from its pagemap. -/
theorem no_page_lost (offset : Nat) (pages : List Nat) (s₀ s : ProcessState) (free : List Nat)
    (slabs : List Slab) (tables : List (List Nat × Nat)) (data : Multiset Nat)
    (direct : Direct offset pages)
    (inv : PagingInv offset pages (s₀.map.root offset) 512 s₀.kernel free slabs tables data)
    (reached : ProcessReached offset (fun s op => ¬ op.Overwrites offset s) s₀ s) :
    NoPageLost offset s₀ s :=
  (processReached_inv direct inv reached).noPageLost direct.usable inv

def onePage : ProcessOp := .fixed 0x1000 0x1000 true

theorem onePage_addrs (s : ProcessState) : onePage.addrs s = [0x1000] := by
  rw [onePage, addrs_fixed]
  decide

theorem onePage_step {offset : Nat} {s : ProcessState} {k' : Kernel}
    (ran : mapFreshPage offset (s.map.root offset) 0x1000 (userFlags true) s.kernel = .ok k') :
    s.step offset onePage = .ok ⟨k', s.map⟩ := by
  have turns : loopAddrs 0x1000 (numOfPages 0x1000).toNat = [0x1000] := onePage_addrs s
  rw [onePage, ProcessState.step, Pagemap.mmapRange, if_neg (by decide), turns, mapFreshPages, ran,
    ok_bind, mapFreshPages, ok_bind, ok_bind]

theorem machine_onePage : ∃ (s₀ s₁ : ProcessState) (free : List Nat), ∃ slabs tables data,
    PagingInv machine.offset machine.pages (s₀.map.root machine.offset) 512 s₀.kernel free slabs
      tables data ∧
    ¬ onePage.Overwrites machine.offset s₀ ∧ s₀.step machine.offset onePage = .ok s₁ ∧
    s₁.map = s₀.map ∧
    ∃ free₁ tables₁, 4 ≤ free₁.length ∧
      pointee machine.offset (s₁.leaf machine.offset (pageIndex 0x1000)) ∈ free ∧
      MappedInv machine.offset machine.pages (s₁.map.root machine.offset) 512
        (s₀.leaf machine.offset) data s₁.kernel [pageIndex 0x1000] free₁ slabs tables₁ := by
  have direct := pages_direct machine
  obtain ⟨k, p, free, slabs, tables, data, inv, many, empty⟩ := machine_pagemap
  let s₀ : ProcessState := ⟨k, p⟩
  have absent : ¬ Present (s₀.leaf machine.offset (pageIndex 0x1000)) := empty _ (by decide)
  rcases mapFreshPage_spec inv direct (userFlags_bits true) 0x1000 (under_all _) with
    ⟨few, -⟩ | ⟨q, k₁, free₁, tables₁, ran, inFree, inv₁, made, -, taken, -⟩
  · omega
  have few := taken.few
  have entry : leafEntry machine.offset k₁.mem (p.root machine.offset) (pageIndex 0x1000) =
      (q - machine.offset) ||| userFlags true := made.leaf
  have target := (dataEntry_or direct (userFlags_bits true) (inv.heap.mem_pages (Or.inl inFree))).2
  refine ⟨s₀, ⟨k₁, p⟩, free, slabs, tables, data, inv, ?_, onePage_step ran, rfl, free₁, tables₁,
    by omega, ?_, ?_, List.nodup_singleton _, ?_, ?_⟩
  · rintro (twice | ⟨virt, member, present⟩)
    · rw [onePage_addrs] at twice
      exact twice (List.nodup_singleton _)
    · rw [onePage_addrs, List.mem_singleton] at member
      rw [member] at present
      exact absent present
  · change pointee machine.offset (leafEntry machine.offset k₁.mem (p.root machine.offset)
      (pageIndex 0x1000)) ∈ free
    rw [entry, target]
    exact inFree
  · rw [List.map_singleton, entry, target, Multiset.coe_singleton, Multiset.singleton_add]
    exact inv₁
  · intro page member
    rw [List.mem_singleton.mp member, entry]
    exact ⟨pageIndex_lt _, under_all _, absent, present_or (userFlags_bits true) _⟩
  · intro page bound under outside
    rw [List.mem_singleton] at outside
    rw [made.leafEntry (pageIndex_lt _) bound under, if_neg outside]
    rfl

/-- Two fixed mappings at one hint: the first page is lost. -/
theorem page_lost_twice : ∃ s₀ s : ProcessState,
    (∃ free slabs tables data, PagingInv machine.offset machine.pages
      (s₀.map.root machine.offset) 512 s₀.kernel free slabs tables data) ∧
    ProcessReached machine.offset (fun _ op => op = onePage) s₀ s ∧
    ¬ NoPageLost machine.offset s₀ s := by
  have direct := pages_direct machine
  obtain ⟨s₀, s₁, free, slabs, tables, data, inv, -, step₁, -, free₁, tables₁, many, wasFree,
    inv₁⟩ := machine_onePage
  have short : onePage.Allowed machine.offset s₀ s₀ ∧ onePage.Allowed machine.offset s₀ s₁ :=
    ⟨show 0x1000 < 2 ^ 31 by decide, show 0x1000 < 2 ^ 31 by decide⟩
  rcases mapFreshPage_spec inv₁.paging direct (userFlags_bits true) 0x1000 (under_all _) with
    ⟨few, -⟩ | ⟨-, k₂, -, -, ran₂, -⟩
  · omega
  obtain ⟨notFree, notSlab, gone⟩ :=
    lost_of_remapped direct (userFlags_bits true) inv₁ (List.mem_singleton_self _) ran₂
  have first : ProcessReached machine.offset (fun _ op => op = onePage) s₀ s₁ :=
    ProcessReached.start.step short.1 rfl step₁
  refine ⟨s₀, ⟨k₂, s₁.map⟩, ⟨free, slabs, tables, data, inv⟩,
    first.step short.2 rfl (onePage_step ran₂), ?_⟩
  intro kept
  exact gone (kept _ ((onFreeList_iff inv.heap).mpr wasFree) notFree notSlab)

/-- One fixed mapping. -/
theorem no_page_lost_once : ∃ s₀ s : ProcessState, s₀.step machine.offset onePage = .ok s ∧
    NoPageLost machine.offset s₀ s := by
  obtain ⟨s₀, s₁, free, slabs, tables, data, inv, good, step₁, -, -⟩ := machine_onePage
  have short : onePage.Allowed machine.offset s₀ s₀ := show 0x1000 < 2 ^ 31 by decide
  exact ⟨s₀, s₁, step₁, no_page_lost machine.offset machine.pages s₀ s₁ free slabs tables data
    (pages_direct machine) inv (ProcessReached.start.step short good step₁)⟩

end Nyaux.Elf
