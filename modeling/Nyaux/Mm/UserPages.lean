import Nyaux.Mm.Pagemap

/-! The functions of `vmm.c` that map pages for a process, down to the page tables. -/

namespace Nyaux.Mm

open Word Memory Paging

/-- `NYA_OS_VMM_PRESENT | NYA_OS_VMM_USER | NYA_OS_VMM_RW`, without and with `NYA_OS_VMM_XD`. -/
def userFlags (exec : Bool) : Nat := if exec then 7 else 7 ||| 2 ^ 63

def mapFreshPages (offset pml4 flags : Nat) : List Nat → Kernel → Except Stop Kernel
  | [], k => .ok k
  | virt :: rest, k => do
      let k ← mapFreshPage offset pml4 virt flags k
      mapFreshPages offset pml4 flags rest k

def loopAddrs (base count : Nat) : List Nat := (List.range count).map (pageAddr base)

def Pagemap.mmapRange (offset : Nat) (userMap : Pagemap) (baseVirt sizeInBytes flags : Nat)
    (k : Kernel) : Except Stop (Nat × Kernel) :=
  if numOfPages sizeInBytes < 0 then .error .endless
  else do
    let k ← mapFreshPages offset (userMap.root offset) flags
      (loopAddrs baseVirt (numOfPages sizeInBytes).toNat) k
    .ok (baseVirt, k)

def Pagemap.vmmRegionAllocUser (offset : Nat) (userMap : Pagemap) (size flags : Nat) (k : Kernel) :
    Except Stop (Nat × Pagemap × Kernel) :=
  match findGap size userMap.head with
  | none => .error .noFreeRegions
  | some (front, back) =>
      match front.getLast? with
      | none => .error .noFreeRegions
      | some prev => do
          let (node, k) ← allocNode offset k
          let newGuy := newRegion node size prev
          let k ← mapFreshPages offset (userMap.root offset) flags
            (loopAddrs newGuy.base (numOfPages size).toNat) k
          .ok (newGuy.base, { userMap with head := front ++ newGuy :: back }, k)

theorem userFlags_bits (exec : Bool) : FlagBits (userFlags exec) := by
  cases exec
  · exact ⟨by decide, by decide⟩
  · exact ⟨by decide, by decide⟩

/-- The pages mapped since `leaf₀`, each of them to a page of its own; `data` are the pages in
use elsewhere. -/
structure MappedInv (offset : Nat) (pages : List Nat) (root limit : Nat) (leaf₀ : Nat → Nat)
    (data : Multiset Nat) (k : Kernel) (mapped free : List Nat) (slabs : List Slab)
    (tables : List (List Nat × Nat)) : Prop where
  paging : PagingInv offset pages root limit k free slabs tables
    ((mapped.map fun page => pointee offset (leafEntry offset k.mem root page) : List Nat) + data)
  nodup : mapped.Nodup
  new : ∀ page ∈ mapped, page < 2 ^ 36 ∧ Under limit page ∧ ¬ Present (leaf₀ page) ∧
    Present (leafEntry offset k.mem root page)
  rest : ∀ page < 2 ^ 36, Under limit page → page ∉ mapped →
    leafEntry offset k.mem root page = leaf₀ page

namespace MappedInv

variable {offset : Nat} {pages : List Nat} {root limit : Nat} {leaf₀ : Nat → Nat}
  {data : Multiset Nat} {k k' : Kernel} {mapped free : List Nat} {slabs : List Slab}
  {tables : List (List Nat × Nat)} {flags : Nat}

theorem start (inv : PagingInv offset pages root limit k free slabs tables data) :
    MappedInv offset pages root limit (leafEntry offset k.mem root) data k [] free slabs tables := by
  refine ⟨?_, List.nodup_nil, fun page member => absurd member List.not_mem_nil,
    fun _ _ _ _ => rfl⟩
  rw [List.map_nil, Multiset.coe_nil, zero_add]
  exact inv

theorem of_entries {free' : List Nat} {slabs' : List Slab}
    (inv : MappedInv offset pages root limit leaf₀ data k mapped free slabs tables)
    (paging : PagingInv offset pages root limit k' free' slabs' tables
      ((mapped.map fun page => pointee offset (leafEntry offset k.mem root page) : List Nat) + data))
    (entries : SameEntries offset root limit k.mem k'.mem) :
    MappedInv offset pages root limit leaf₀ data k' mapped free' slabs' tables := by
  have leaf : ∀ page ∈ mapped, leafEntry offset k'.mem root page =
      leafEntry offset k.mem root page :=
    fun page member => entries.leaf (inv.new page member).2.1
  refine ⟨?_, inv.nodup, ?_, ?_⟩
  · rw [List.map_congr_left fun page member => congrArg (pointee offset) (leaf page member)]
    exact paging
  · intro page member
    rw [leaf page member]
    exact inv.new page member
  · intro page bound under outside
    rw [entries.leaf under]
    exact inv.rest page bound under outside

theorem mapFreshPage (inv : MappedInv offset pages root limit leaf₀ data k mapped free slabs tables)
    (direct : Direct offset pages) (bits : FlagBits flags) {virt : Nat}
    (under : Under limit (pageIndex virt))
    (absent : ¬ Present (leafEntry offset k.mem root (pageIndex virt)))
    (ran : mapFreshPage offset root virt flags k = .ok k') :
    (∃ free' tables', MappedInv offset pages root limit leaf₀ data k' (pageIndex virt :: mapped)
      free' slabs tables') ∧
    ∀ page < 2 ^ 36, Under limit page → page ≠ pageIndex virt →
      leafEntry offset k'.mem root page = leafEntry offset k.mem root page := by
  have bound := pageIndex_lt virt
  rcases mapFreshPage_spec inv.paging direct bits virt under with
    ⟨-, stopped⟩ | ⟨p, k'', free', tables', ran', inFree, paging, made, -, -, -⟩
  · rw [stopped] at ran
    cases ran
  obtain rfl := Except.ok.inj (ran'.symm.trans ran)
  have others : ∀ page < 2 ^ 36, Under limit page → page ≠ pageIndex virt →
      leafEntry offset k''.mem root page = leafEntry offset k.mem root page := by
    intro page small below different
    rw [made.leafEntry bound small below, if_neg different]
  have entry : leafEntry offset k''.mem root (pageIndex virt) = (p - offset) ||| flags :=
    made.leaf
  have fresh : pageIndex virt ∉ mapped := fun member => absent (inv.new _ member).2.2.2
  have earlier : ∀ page ∈ mapped, leafEntry offset k''.mem root page =
      leafEntry offset k.mem root page := by
    intro page member
    obtain ⟨small, below, -⟩ := inv.new page member
    apply others page small below
    rintro rfl
    exact fresh member
  have inPages := inv.paging.heap.mem_pages (Or.inl inFree)
  obtain ⟨-, aligned, -, near, back⟩ := direct.phys_page inPages
  have target : pointee offset ((p - offset) ||| flags) = p := by
    rw [pointee_or bits (by omega), Nat.div_mul_cancel aligned, back]
  refine ⟨⟨free', tables', ?_, List.nodup_cons.mpr ⟨fresh, inv.nodup⟩, ?_, ?_⟩, others⟩
  · rw [List.map_cons, entry, target,
      List.map_congr_left fun page member => congrArg (pointee offset) (earlier page member),
      ← Multiset.cons_coe, Multiset.cons_add]
    exact paging
  · intro page member
    rcases List.mem_cons.mp member with rfl | old
    · rw [inv.rest _ bound under fresh] at absent
      rw [entry]
      exact ⟨bound, under, absent, present_or bits _⟩
    · rw [earlier page old]
      exact inv.new page old
  · intro page small below outside
    rw [List.mem_cons, not_or] at outside
    rw [others page small below outside.1]
    exact inv.rest page small below outside.2

theorem mapFreshPages (direct : Direct offset pages) (bits : FlagBits flags) (addrs : List Nat)
    (inv : MappedInv offset pages root limit leaf₀ data k mapped free slabs tables)
    (under : ∀ virt ∈ addrs, Under limit (pageIndex virt))
    (once : (addrs.map pageIndex).Nodup)
    (absent : ∀ virt ∈ addrs, ¬ Present (leafEntry offset k.mem root (pageIndex virt)))
    (ran : mapFreshPages offset root flags addrs k = .ok k') :
    ∃ mapped' free' tables',
      MappedInv offset pages root limit leaf₀ data k' mapped' free' slabs tables' := by
  induction addrs generalizing k mapped free tables with
  | nil =>
      obtain rfl := Except.ok.inj ran
      exact ⟨mapped, free, tables, inv⟩
  | cons virt rest ih =>
      obtain ⟨k₁, first, ran⟩ := of_bind_ok ran
      rw [List.map_cons, List.nodup_cons] at once
      have here := List.mem_cons_self (a := virt) (l := rest)
      obtain ⟨⟨free₁, tables₁, inv₁⟩, others⟩ :=
        inv.mapFreshPage direct bits (under virt here) (absent virt here) first
      apply ih inv₁ (fun v member => under v (List.mem_cons_of_mem virt member)) once.2 _ ran
      intro v member
      have different : pageIndex v ≠ pageIndex virt := by
        intro same
        exact once.1 (same ▸ List.mem_map_of_mem member)
      have later := List.mem_cons_of_mem virt member
      rw [others _ (pageIndex_lt v) (under v later) different]
      exact absent v later

theorem allocNode (inv : MappedInv offset pages root limit leaf₀ data k mapped free slabs tables)
    (usable : Usable pages) {node : Nat} (ran : allocNode offset k = .ok (node, k')) :
    (∃ free' slabs', MappedInv offset pages root limit leaf₀ data k' mapped free' slabs' tables) ∧
      SameEntries offset root limit k.mem k'.mem := by
  rcases inv.paging.allocNode_spec usable with
    ⟨-, stopped⟩ | ⟨x, k'', free', slabs', ran', paging, -, entries, -⟩
  · rw [stopped] at ran
    cases ran
  · obtain ⟨rfl, rfl⟩ := Prod.mk.inj (Except.ok.inj (ran'.symm.trans ran))
    exact ⟨⟨free', slabs', inv.of_entries paging entries⟩, entries⟩

theorem write (inv : MappedInv offset pages root limit leaf₀ data k mapped free slabs tables)
    (usable : Usable pages) {mem' : Mem}
    (own : ∀ address, mem' address ≠ k.mem address → ∃ page < 2 ^ 36, Under limit page ∧
      ¬ Present (leaf₀ page) ∧ Present (leafEntry offset k.mem root page) ∧
      InPage (pointee offset (leafEntry offset k.mem root page)) address) :
    MappedInv offset pages root limit leaf₀ data { k with mem := mem' } mapped free slabs
      tables := by
  have same : ∀ q, q ∈ free ∨ q ∈ slabPages slabs ∨ q ∈ tablePages tables →
      SamePage k.mem mem' q := by
    intro q owned address inQ
    by_contra changed
    obtain ⟨page, bound, under, new, present, inside⟩ := own address changed
    have member : page ∈ mapped := by
      by_contra outside
      rw [inv.rest page bound under outside] at present
      exact new present
    have inData : pointee offset (leafEntry offset k.mem root page) ∈
        ((mapped.map fun page => pointee offset (leafEntry offset k.mem root page) : List Nat) :
          Multiset Nat) + data := by
      apply Multiset.mem_add.mpr (Or.inl _)
      exact Multiset.mem_coe.mpr (List.mem_map_of_mem member)
    obtain ⟨notFree, notSlab, notTable⟩ := inv.paging.apart usable inData
    have inPages : q ∈ pages := inv.paging.heap.mem_pages (by
      rw [Multiset.mem_add, Multiset.mem_coe]
      tauto)
    have different : q ≠ pointee offset (leafEntry offset k.mem root page) := by
      rintro rfl
      tauto
    exact page_ne (usable.aligned q inPages) (usable.aligned _ (inv.paging.data_mem inData))
      different inQ inside
  obtain ⟨paging, entries⟩ := inv.paging.frame same
  exact inv.of_entries paging entries

end MappedInv

end Nyaux.Mm
