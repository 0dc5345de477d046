import Nyaux.Mm.TableTree

/-! What `map` and `unmap` do to the page tables, and that they keep to the pages they own. -/

namespace Nyaux.Mm

open Word Memory Paging

/-- The usable pages in a direct map: not physical page 0, and below 2^47. -/
structure Direct (offset : Nat) (pages : List Nat) : Prop where
  usable : Usable pages
  aligned : 4096 ∣ offset
  above : ∀ p ∈ pages, offset < p
  near : ∀ p ∈ pages, p < offset + 2 ^ 47

def Known (paths : List Nat → Prop) (tables : List (List Nat × Nat)) : Prop :=
  ∀ x ∈ tables, paths x.1

/-- The tables that lead to a page are among `paths`. -/
def Covers (paths : List Nat → Prop) (page : Nat) : Prop :=
  ∀ path, path <:+ leafPath page → paths path

def Exhausted (pages : List Nat) (slabs : List Slab) (paths : List Nat → Prop)
    (data : Multiset Nat) : Prop :=
  ∃ tables : List (List Nat × Nat), Known paths tables ∧ (tables.map Prod.fst).Nodup ∧
    pages.length = slabs.length + tables.length + data.card

def SameEntries (offset root limit : Nat) (mem mem' : Mem) : Prop :=
  ∀ path, EntryOk limit path → entryAt offset mem' root path = entryAt offset mem root path

def Extended (offset root : Nat) (touched : List Nat) (mem mem' : Mem) : Prop :=
  ∀ path, EntryOk 512 path → path.length ≤ 3 →
    (Present (entryAt offset mem root path) ∨ ∀ page ∈ touched, ¬ path <:+ leafPath page) →
    entryAt offset mem' root path = entryAt offset mem root path

/-- Every page is free, a slab, a table of the pagemap at `root` or in `data`. -/
structure PagingInv (offset : Nat) (pages : List Nat) (root limit : Nat) (k : Kernel)
    (free : List Nat) (slabs : List Slab) (tables : List (List Nat × Nat)) (data : Multiset Nat) :
    Prop where
  heap : HeapInv pages 8 k free slabs (tablePages tables + data)
  tree : Tree offset k.mem root limit tables

section

variable {offset : Nat} {pages : List Nat} {root limit : Nat} {k : Kernel} {free : List Nat}
  {slabs : List Slab} {tables : List (List Nat × Nat)} {data : Multiset Nat} {path : List Nat}
  {t i flags : Nat}

theorem SameEntries.leaf {mem mem' : Mem} (same : SameEntries offset root limit mem mem') {page : Nat}
    (under : Under limit page) :
    leafEntry offset mem' root page = leafEntry offset mem root page :=
  same _ (entryPath_ok under)

theorem entryOk_of_suffix {page : Nat} (under : Under limit page) (nonempty : path ≠ [])
    (suffix : path <:+ leafPath page) : EntryOk limit path := by
  have ok := leafPath_ok under
  unfold leafPath at ok suffix
  rcases List.suffix_cons_iff.mp suffix with rfl | suffix
  · exact ⟨ok.head, ok.tail⟩
  rcases List.suffix_cons_iff.mp suffix with rfl | suffix
  · exact ⟨ok.tail.head, ok.tail.tail⟩
  rcases List.suffix_cons_iff.mp suffix with rfl | suffix
  · exact ⟨ok.tail.tail.head, ok.tail.tail.tail⟩
  · exact absurd (List.suffix_nil.mp suffix) nonempty

/-- What was done before `map` left the entries alone, and took pages from the same list. -/
theorem Mapped.after {page entry : Nat} {free' : List Nat} {mem₁ mem₂ mem₃ : Mem}
    (mapped : Mapped offset root limit free' flags page entry mem₂ mem₃)
    (same : SameEntries offset root limit mem₁ mem₂) (subset : free' ⊆ free)
    (under : Under limit page) : Mapped offset root limit free flags page entry mem₁ mem₃ := by
  refine ⟨mapped.leaf, ?_, ?_⟩
  · intro path nonempty suffix
    obtain ⟨present, filled⟩ := mapped.above path nonempty suffix
    rw [same path (entryOk_of_suffix under nonempty suffix)] at filled
    exact ⟨present, filled.mono subset⟩
  · intro path ok away
    exact (mapped.others path ok away).trans (same path ok)

theorem SameEntries.extended {mem mem' : Mem} (same : SameEntries offset root 512 mem mem')
    (touched : List Nat) : Extended offset root touched mem mem' :=
  fun path ok _ _ => same path ok

theorem Mapped.extended {page entry : Nat} {mem mem' : Mem}
    (mapped : Mapped offset root 512 free flags page entry mem mem') :
    Extended offset root [page] mem mem' := by
  intro path ok short stays
  by_cases onWay : path <:+ leafPath page
  · have nonempty : path ≠ [] := by
      rintro rfl
      exact ok
    have present := stays.resolve_right fun away => away page List.mem_cons_self onWay
    rcases (mapped.above path nonempty onWay).2 with same | ⟨missing, -⟩
    · exact same
    · exact absurd present missing
  · apply mapped.others path ok
    intro suffix
    rcases List.suffix_cons_iff.mp suffix with rfl | shorter
    · exact absurd short (by simp [leafPath])
    · exact onWay shorter

theorem Extended.trans {mem₁ mem₂ mem₃ : Mem} {left right : List Nat}
    (first : Extended offset root left mem₁ mem₂) (second : Extended offset root right mem₂ mem₃) :
    Extended offset root (left ++ right) mem₁ mem₃ := by
  intro path ok short stays
  have same := first path ok short
    (stays.imp_right fun away page member => away page (List.mem_append_left _ member))
  rw [← same]
  apply second path ok short
  rw [same]
  exact stays.imp_right fun away page member => away page (List.mem_append_right _ member)

theorem Direct.phys_page (direct : Direct offset pages) {p : Nat} (member : p ∈ pages) :
    sub64 p offset = p - offset ∧ 4096 ∣ p - offset ∧ 0 < p - offset ∧ p - offset < 2 ^ 47 ∧
      add64 (p - offset) offset = p := by
  have above := direct.above p member
  have near := direct.near p member
  have below := direct.usable.below p member
  have aligned := direct.usable.aligned p member
  have base := direct.aligned
  unfold Aligned at aligned
  refine ⟨sub64_of_le above.le (by omega), by omega, by omega, by omega, ?_⟩
  rw [add64_of_lt (by omega)]
  omega

theorem HeapInv.take {ready : Nat} {others : Multiset Nat}
    (inv : HeapInv pages ready k (t :: free) slabs others) (direct : Direct offset pages) :
    pmmAllocSinglep offset k = .ok (t - offset, { k with head := k.mem t }) ∧
      HeapInv pages ready { k with head := k.mem t } free slabs (t ::ₘ others) := by
  obtain ⟨head, nonzero, tail⟩ := inv.list
  have member : t ∈ pages := inv.mem_pages (Or.inl List.mem_cons_self)
  refine ⟨?_, ?_, tail, inv.slab, inv.count, inv.caches⟩
  · rw [pmmAllocSinglep, head, if_pos nonzero, (direct.phys_page member).1]
  · rw [← inv.pages, ← Multiset.cons_coe t free, Multiset.add_cons, Multiset.cons_add,
      Multiset.cons_add]

theorem HeapInv.take_none {ready : Nat} {others : Multiset Nat}
    (inv : HeapInv pages ready k [] slabs others) :
    pmmAllocSinglep offset k = .error .outOfMemory := by
  have null : k.head = 0 := inv.list
  rw [pmmAllocSinglep, null]
  rfl

namespace PagingInv

theorem table_mem (inv : PagingInv offset pages root limit k free slabs tables data) {p : Nat}
    (member : p ∈ tablePages tables) : p ∈ pages :=
  inv.heap.mem_pages (Or.inr (Or.inr (Multiset.mem_add.mpr (Or.inl member))))

theorem data_mem (inv : PagingInv offset pages root limit k free slabs tables data) {p : Nat}
    (member : p ∈ data) : p ∈ pages :=
  inv.heap.mem_pages (Or.inr (Or.inr (Multiset.mem_add.mpr (Or.inr member))))

theorem apart (inv : PagingInv offset pages root limit k free slabs tables data) (usable : Usable pages)
    {p : Nat} (member : p ∈ data) :
    p ∉ free ∧ p ∉ slabPages slabs ∧ p ∉ tablePages tables := by
  obtain ⟨-, -, -, elsewhere⟩ := inv.heap.disjoint usable
  obtain ⟨notFree, notSlab⟩ := elsewhere p (Multiset.mem_add.mpr (Or.inr member))
  refine ⟨notFree, notSlab, ?_⟩
  intro inTables
  have nodup : ((free : Multiset Nat) + slabPages slabs + (tablePages tables + data)).Nodup := by
    rw [inv.heap.pages]
    exact usable.nodup
  exact Multiset.disjoint_left.mp (Multiset.nodup_add.mp (Multiset.nodup_add.mp nodup).2.1).2.2
    inTables member

theorem total (inv : PagingInv offset pages root limit k free slabs tables data) :
    free.length + slabs.length + tables.length + data.card = pages.length := by
  have count := congrArg Multiset.card inv.heap.pages
  simp only [Multiset.card_add, Multiset.coe_card, slabPages, tablePages, List.length_map] at count
  omega

theorem exhausted (inv : PagingInv offset pages root limit k [] slabs tables data)
    {paths : List Nat → Prop} (known : Known paths tables) : Exhausted pages slabs paths data := by
  have total := inv.total
  rw [List.length_nil] at total
  exact ⟨tables, known, inv.tree.paths, by omega⟩

theorem frame (inv : PagingInv offset pages root limit k free slabs tables data) {mem' : Mem}
    (same : ∀ p, p ∈ free ∨ p ∈ slabPages slabs ∨ p ∈ tablePages tables →
      SamePage k.mem mem' p) :
    PagingInv offset pages root limit { k with mem := mem' } free slabs tables data ∧
      SameEntries offset root limit k.mem mem' := by
  have tablesSame : ∀ t ∈ tables, SamePage k.mem mem' t.2 :=
    fun t member => same t.2 (Or.inr (Or.inr (List.mem_map_of_mem member)))
  refine ⟨⟨?_, inv.tree.frame tablesSame⟩, fun path => inv.tree.entryAt_frame tablesSame⟩
  apply inv.heap.frame
  intro p member
  exact same p (by tauto)

theorem frame_page (inv : PagingInv offset pages root limit k free slabs tables data) (usable : Usable pages)
    {p : Nat} (member : p ∈ data) {mem' : Mem}
    (outside : ∀ address, ¬ InPage p address → mem' address = k.mem address) :
    PagingInv offset pages root limit { k with mem := mem' } free slabs tables data ∧
      SameEntries offset root limit k.mem mem' := by
  obtain ⟨notFree, notSlab, notTable⟩ := inv.apart usable member
  apply inv.frame
  intro q owned address inQ
  apply outside
  have inPages : q ∈ pages := inv.heap.mem_pages (by
    rw [Multiset.mem_add, Multiset.mem_coe]
    tauto)
  have different : q ≠ p := by
    rintro rfl
    tauto
  exact page_ne (usable.aligned q inPages) (usable.aligned p (inv.data_mem member)) different inQ

theorem others_of_outside (inv : PagingInv offset pages root limit k free slabs tables (t ::ₘ data))
    (usable : Usable pages) {mem' : Mem}
    (outside : ∀ address, ¬ InPage t address → mem' address = k.mem address) :
    ∀ q ∈ data, SamePage k.mem mem' q := by
  intro q member address inQ
  apply outside
  have nodup : ((free : Multiset Nat) + slabPages slabs + (tablePages tables + t ::ₘ data)).Nodup := by
    rw [inv.heap.pages]
    exact usable.nodup
  have fresh := (Multiset.nodup_cons.mp
    (Multiset.nodup_add.mp (Multiset.nodup_add.mp nodup).2.1).2.1).1
  have different : q ≠ t := by
    rintro rfl
    exact fresh member
  exact page_ne (usable.aligned q (inv.data_mem (Multiset.mem_cons_of_mem member)))
    (usable.aligned t (inv.data_mem (Multiset.mem_cons_self t data))) different inQ

theorem samePage_slot (inv : PagingInv offset pages root limit k free slabs tables data)
    (usable : Usable pages) (member : (path, t) ∈ tables) (bound : i < 512) (entry : Nat) :
    ∀ p, p ∈ free ∨ p ∈ slabPages slabs ∨ p ∈ data →
      SamePage k.mem (store k.mem (slot t i) entry) p := by
  intro p owned
  have inPages : p ∈ pages := inv.heap.mem_pages (by
    rw [Multiset.mem_add]
    tauto)
  have inTables : t ∈ (tablePages tables : Multiset Nat) + data :=
    Multiset.mem_add.mpr (Or.inl (tablePage_mem member))
  obtain ⟨-, -, -, elsewhere⟩ := inv.heap.disjoint usable
  apply samePage_store _ (usable.aligned t (inv.table_mem (tablePage_mem member)))
    (usable.aligned p inPages) _ (slot_inPage bound)
  rintro rfl
  have notHeap := elsewhere t inTables
  have notData : t ∉ data := fun inData => (inv.apart usable inData).2.2 (tablePage_mem member)
  tauto

theorem take (inv : PagingInv offset pages root limit k (t :: free) slabs tables data)
    (direct : Direct offset pages) :
    pmmAllocSinglep offset k = .ok (t - offset, { k with head := k.mem t }) ∧
      PagingInv offset pages root limit { k with head := k.mem t } free slabs tables (t ::ₘ data) := by
  obtain ⟨returned, heap⟩ := inv.heap.take direct
  rw [← Multiset.add_cons] at heap
  exact ⟨returned, heap, inv.tree⟩

theorem give (inv : PagingInv offset pages root limit k free slabs tables (t ::ₘ data))
    (usable : Usable pages) :
    PagingInv offset pages root limit (pmmFreeSinglep t k) (t :: free) slabs tables data ∧
      SameEntries offset root limit k.mem (pmmFreeSinglep t k).mem ∧
      SameOthers k (pmmFreeSinglep t k) data := by
  have member : t ∈ t ::ₘ data := Multiset.mem_cons_self t data
  have inside : InPage t t := by unfold InPage; omega
  have outside : ∀ address, ¬ InPage t address → store k.mem t k.head address = k.mem address := by
    intro address away
    apply store_other
    rintro rfl
    exact away inside
  obtain ⟨kept, leaves⟩ := inv.frame_page usable member outside
  have notFree := (inv.apart usable member).1
  have pushed : Chain (store k.mem (t + 0) k.head) 0 t (t :: free) :=
    inv.heap.list.push (usable.nonzero t (inv.data_mem member)) notFree
  refine ⟨⟨⟨?_, pushed, kept.heap.slab, kept.heap.count, kept.heap.caches⟩, kept.tree⟩, leaves, ?_⟩
  · rw [← inv.heap.pages, ← Multiset.cons_coe t free, Multiset.add_cons, Multiset.add_cons,
      Multiset.cons_add, Multiset.cons_add]
  · exact inv.others_of_outside usable outside

theorem own_table (inv : PagingInv offset pages root limit k free slabs tables (t ::ₘ data)) {mem' : Mem}
    {path' : List Nat}
    (same : ∀ p, p ∈ free ∨ p ∈ slabPages slabs → SamePage k.mem mem' p)
    (tree : Tree offset mem' root limit ((path', t) :: tables)) :
    PagingInv offset pages root limit { k with mem := mem' } free slabs ((path', t) :: tables) data := by
  refine ⟨?_, tree⟩
  have moved : (tablePages tables : Multiset Nat) + t ::ₘ data =
      (tablePages ((path', t) :: tables) : Multiset Nat) + data := by
    rw [tablePages, tablePages, List.map_cons, ← Multiset.cons_coe, Multiset.cons_add,
      Multiset.add_cons]
  rw [← moved]
  exact inv.heap.frame same

end PagingInv

theorem not_exhausted {paths : List Nat → Prop} (list : List (List Nat))
    (listed : ∀ path, paths path → path ∈ list)
    (enough : slabs.length + list.length + data.card < pages.length) :
    ¬ Exhausted pages slabs paths data := by
  rintro ⟨tables, known, nodup, total⟩
  have subset : tables.map Prod.fst ⊆ list := by
    intro path member
    obtain ⟨x, inTables, rfl⟩ := List.mem_map.mp member
    exact listed _ (known x inTables)
  have few := (nodup.subperm subset).length_le
  rw [List.length_map] at few
  omega

/-! `get_next_table` and `map`. -/

theorem PagingInv.tableTree (inv : PagingInv offset pages root limit k free slabs tables data)
    (direct : Direct offset pages) : TableTree offset root limit k free tables := by
  obtain ⟨distinct, -, apart, elsewhere⟩ := inv.heap.disjoint direct.usable
  refine ⟨inv.tree, inv.heap.list, distinct, ?_, ?_⟩
  · intro p owned
    have member : p ∈ pages := owned.elim (fun inFree => inv.heap.mem_pages (Or.inl inFree))
      inv.table_mem
    obtain ⟨-, phys, -, near, -⟩ := direct.phys_page member
    exact ⟨direct.usable.aligned p member, direct.above p member, phys, by omega,
      direct.usable.below p member⟩
  · intro p inFree inTables
    exact (elsewhere p (Multiset.mem_add.mpr (Or.inl inTables))).1 inFree

theorem getNextTable_spec (inv : PagingInv offset pages root limit k free slabs tables data)
    (direct : Direct offset pages) (bits : FlagBits flags) (member : (path, t) ∈ tables)
    (ok : PathOk limit (i :: path)) {paths : List Nat → Prop} (known : Known paths tables)
    (covered : paths (i :: path)) :
    (free = [] ∧ getNextTable offset t i flags k = .error .outOfMemory) ∨
      ∃ phys k' free' tables', getNextTable offset t i flags k = .ok (phys, k') ∧
        PagingInv offset pages root limit k' free' slabs tables' data ∧
        (i :: path, add64 phys offset) ∈ tables' ∧ Known paths tables' ∧
        TableLinked offset root limit free flags (i :: path) k.mem k'.mem ∧
        SameVars k k' ∧ Taken 1 free free' ∧ SameOthers k k' data := by
  rcases (inv.tableTree direct).getNextTable_cases bits member ok with
    ⟨present, ran, child⟩ | ⟨-, none, stopped⟩ | ⟨page, rest, missing, rfl, ran, back⟩
  · have linked : TableLinked offset root limit free flags (i :: path) k.mem k.mem :=
      ⟨by rw [inv.tree.entryAt_of_mem member]; exact present, Filled.refl _ _ _ _,
        fun _ _ _ => rfl⟩
    exact Or.inr ⟨_, k, free, tables, ran, inv, child, known, linked, SameVars.refl k,
      Taken.none 1 free, fun q _ => SamePage.refl k.mem q⟩
  · exact Or.inl ⟨none, stopped⟩
  obtain ⟨grown, linked⟩ := (inv.tableTree direct).link bits member ok missing
  obtain ⟨-, owned⟩ := inv.take direct
  have alignedPage := direct.usable.aligned page (inv.heap.mem_pages (Or.inl List.mem_cons_self))
  have alignedT := direct.usable.aligned t (inv.table_mem (tablePage_mem member))
  -- the page and the table are the only ones written
  have kept : ∀ q ∈ pages, q ≠ t → q ≠ page →
      SamePage k.mem (linkPage offset t i flags page k).mem q := fun q inPages notTable notPage =>
    linkPage_outside alignedT ok.head alignedPage (direct.usable.aligned q inPages) notTable notPage
  obtain ⟨notFree, notSlab, -⟩ := owned.apart direct.usable (Multiset.mem_cons_self page data)
  obtain ⟨-, -, -, elsewhere⟩ := inv.heap.disjoint direct.usable
  obtain ⟨tableFree, tableSlab⟩ :=
    elsewhere t (Multiset.mem_add.mpr (Or.inl (tablePage_mem member)))
  refine Or.inr ⟨_, _, rest, _, ran, owned.own_table ?_ grown.tree, ?_,
    List.forall_mem_cons.mpr ⟨covered, known⟩, linked, ⟨rfl, rfl, rfl⟩, Taken.one 0 page rest, ?_⟩
  · intro q heap
    apply kept q
    · exact owned.heap.mem_pages (heap.imp_right Or.inl)
    · rintro rfl
      exact heap.elim (fun inFree => tableFree (List.mem_cons_of_mem _ inFree)) tableSlab
    · rintro rfl
      exact heap.elim notFree notSlab
  · rw [back]
    exact List.mem_cons_self
  · intro q inData
    apply kept q (inv.data_mem inData)
    · rintro rfl
      exact (inv.apart direct.usable inData).2.2 (tablePage_mem member)
    · rintro rfl
      exact (inv.apart direct.usable inData).1 List.mem_cons_self

/-- `map` stops only for want of a table page. -/
theorem map_spec (inv : PagingInv offset pages root limit k free slabs tables data)
    (direct : Direct offset pages) (bits : FlagBits flags) (virt phys : Nat)
    {paths : List Nat → Prop} (known : Known paths tables)
    (covers : Covers paths (pageIndex virt)) (under : Under limit (pageIndex virt)) :
    (free.length < 3 ∧ Exhausted pages slabs paths data ∧
        map offset root virt phys flags k = .error .outOfMemory) ∨
      ∃ k' free' tables', map offset root virt phys flags k = .ok k' ∧
        PagingInv offset pages root limit k' free' slabs tables' data ∧ Known paths tables' ∧
        Mapped offset root limit free flags (pageIndex virt) (phys ||| flags) k.mem k'.mem ∧
        SameVars k k' ∧ Taken 3 free free' ∧ SameOthers k k' data := by
  obtain ⟨indices, -⟩ := leafPath_pageIndex virt
  have full := entryPath_pageIndex virt
  have ok := entryPath_ok under
  rw [full] at ok
  have ok₁ := ok.2
  have ok₂ := ok₁.tail
  have ok₃ := ok₂.tail
  rw [Covers, indices] at covers
  rcases getNextTable_spec inv direct bits inv.tree.root ok₃ known (covers _ ⟨[lvlIndex 21 virt, lvlIndex 30 virt], rfl⟩) with
    ⟨rfl, stopped⟩ | ⟨p₃, k₁, free₁, tables₁, ran₁, inv₁, in₁, known₁, link₁, vars₁, taken₁, others₁⟩
  · refine Or.inl ⟨by decide, inv.exhausted known, ?_⟩
    rw [map, stopped, error_bind]
  have few₁ := taken₁.few
  rcases getNextTable_spec inv₁ direct bits in₁ ok₂ known₁ (covers _ ⟨[lvlIndex 21 virt], rfl⟩) with
    ⟨rfl, stopped⟩ | ⟨p₂, k₂, free₂, tables₂, ran₂, inv₂, in₂, known₂, link₂, vars₂, taken₂, others₂⟩
  · rw [List.length_nil] at few₁
    refine Or.inl ⟨by omega, inv₁.exhausted known₁, ?_⟩
    rw [map, ran₁, ok_bind]
    dsimp only
    rw [stopped, error_bind]
  have few₂ := taken₂.few
  rcases getNextTable_spec inv₂ direct bits in₂ ok₁ known₂ (covers _ List.suffix_rfl) with
    ⟨rfl, stopped⟩ | ⟨p₁, k₃, free₃, tables₃, ran₃, inv₃, in₃, known₃, link₃, vars₃, taken₃, others₃⟩
  · rw [List.length_nil] at few₂
    refine Or.inl ⟨by omega, inv₂.exhausted known₂, ?_⟩
    rw [map, ran₁, ok_bind]
    dsimp only
    rw [ran₂, ok_bind]
    dsimp only
    rw [stopped, error_bind]
  have vars := (vars₁.trans vars₂).trans vars₃
  have bound := lvlIndex_lt 12 virt
  have tree := inv₃.tree.storeLeaf in₃ rfl bound (phys ||| flags)
  have written := fun other (okOther : EntryOk limit other) =>
    inv₃.tree.entryAt_storeLeaf in₃ rfl bound (phys ||| flags) okOther
  have wrote := inv₃.samePage_slot direct.usable in₃ bound (phys ||| flags)
  have heap := inv₃.heap.frame fun p owned => wrote p (by tauto)
  refine Or.inr ⟨_, free₃, tables₃, ?_, ⟨heap, tree⟩, known₃, ?_,
    ⟨vars.caches, vars.regions, vars.pml4⟩, (taken₁.trans taken₂).trans taken₃, ?_⟩
  · rw [map, ran₁, ok_bind]
    dsimp only
    rw [ran₂, ok_bind]
    dsimp only
    rw [ran₃, ok_bind]
  · exact mapped_of_linked full ok link₁ link₂ link₃ written taken₁.suffix.subset
      (taken₁.trans taken₂).suffix.subset
  · intro q inData
    exact ((others₁.trans others₂).trans others₃ q inData).trans
      (wrote q (Or.inr (Or.inr inData)))

/-- The body of the page loops stops only for want of a page, and maps a cleared one from the
free list. -/
theorem mapFreshPage_spec (inv : PagingInv offset pages root limit k free slabs tables data)
    (direct : Direct offset pages) (bits : FlagBits flags) (virt : Nat)
    (under : Under limit (pageIndex virt)) :
    (free.length < 4 ∧ mapFreshPage offset root virt flags k = .error .outOfMemory) ∨
      ∃ p k' free' tables', mapFreshPage offset root virt flags k = .ok k' ∧ p ∈ free ∧
        PagingInv offset pages root limit k' free' slabs tables' (p ::ₘ data) ∧
        Mapped offset root limit free flags (pageIndex virt) ((p - offset) ||| flags) k.mem
          k'.mem ∧
        SameVars k k' ∧ Taken 4 free free' ∧ SameOthers k k' data ∧
        ∀ address, InPage p address → k'.mem address = 0 := by
  cases free with
  | nil => exact Or.inl ⟨by decide, by rw [mapFreshPage, inv.heap.take_none, error_bind]⟩
  | cons p free =>
      have inPages := inv.heap.mem_pages (Or.inl (List.mem_cons_self : p ∈ p :: free))
      obtain ⟨taken, owned⟩ := inv.take direct
      have zeroed : ∀ address, ¬ InPage p address →
          zeroPage k.mem p address = k.mem address := fun address away => if_neg away
      obtain ⟨clean, entries⟩ :=
        owned.frame_page direct.usable (Multiset.mem_cons_self p _) zeroed
      have cleared := owned.others_of_outside direct.usable zeroed
      obtain ⟨-, -, -, -, back⟩ := direct.phys_page inPages
      have step : mapFreshPage offset root virt flags k =
          map offset root virt (p - offset) flags
            { k with head := k.mem p, mem := zeroPage k.mem p } := by
        rw [mapFreshPage, taken, ok_bind]
        dsimp only
        rw [back]
      have anywhere : Known (fun _ => True) tables := fun _ _ => trivial
      rcases map_spec clean direct bits virt (p - offset) anywhere (fun _ _ => trivial) under with
        ⟨few, -, stopped⟩ | ⟨k', free', tables', ran, inv', -, mapped, vars, taken', others⟩
      · exact Or.inl ⟨by rw [List.length_cons]; omega, step.trans stopped⟩
      · refine Or.inr ⟨p, k', free', tables', step.trans ran, List.mem_cons_self, inv', ?_,
          ⟨vars.caches, vars.regions, vars.pml4⟩, (Taken.one 0 p free).trans taken', ?_, ?_⟩
        · exact mapped.after entries (List.subset_cons_self p free) under
        · intro q member
          exact (cleared q member).trans (others q (Multiset.mem_cons_of_mem member))
        · intro address inside
          have kept := others p (Multiset.mem_cons_self p data) address inside
          exact kept.trans (zeroPage_inside inside)

/-! `unmap`. -/

/-- `virt_to_phys` reads the entry of the page. -/
theorem virtToPhys_spec (inv : PagingInv offset pages root limit k free slabs tables data)
    (direct : Direct offset pages) (virt : Nat) (under : Under limit (pageIndex virt)) :
    virtToPhys offset k.mem root virt =
      getPhysFromEntry (leafEntry offset k.mem root (pageIndex virt)) :=
  (inv.tableTree direct).virtToPhys_spec virt under

theorem unmap_spec (inv : PagingInv offset pages root limit k free slabs tables data)
    (direct : Direct offset pages) (virt : Nat) (under : Under limit (pageIndex virt)) :
    ∃ k', unmap offset root virt k = (leafEntry offset k.mem root (pageIndex virt), k') ∧
      PagingInv offset pages root limit k' free slabs tables data ∧
      (∀ path, EntryOk limit path → entryAt offset k'.mem root path =
        if path = entryPath (pageIndex virt) then 0 else entryAt offset k.mem root path) ∧
      SameVars k k' ∧ SameOthers k k' data := by
  obtain ⟨mem', ran, inv', written, kept⟩ := (inv.tableTree direct).unmap_spec virt under
  obtain ⟨-, -, -, elsewhere⟩ := inv.heap.disjoint direct.usable
  have others : ∀ q, q ∈ free ∨ q ∈ slabPages slabs ∨ q ∈ data → SamePage k.mem mem' q := by
    intro q owned
    have inPages : q ∈ pages := inv.heap.mem_pages (by
      rw [Multiset.mem_add]
      tauto)
    apply kept q (direct.usable.aligned q inPages)
    intro inTables
    have notHeap := elsewhere q (Multiset.mem_add.mpr (Or.inl inTables))
    have notData : q ∉ data := fun inData => (inv.apart direct.usable inData).2.2 inTables
    tauto
  have heap := inv.heap.frame fun q owned => others q (by tauto)
  exact ⟨_, ran, ⟨heap, inv'.tree⟩, written, ⟨rfl, rfl, rfl⟩, fun q inData =>
    others q (Or.inr (Or.inr inData))⟩

end

/-! The kernel's own pagemap, all of it. -/

def Kernel.root (offset : Nat) (k : Kernel) : Nat := add64 k.pml4 offset

/-- The entry of a virtual page in the kernel's pagemap. -/
def Kernel.leaf (offset : Nat) (k : Kernel) (page : Nat) : Nat :=
  leafEntry offset k.mem (k.root offset) page

abbrev KernelPaging (offset : Nat) (pages : List Nat) (k : Kernel) (free : List Nat)
    (slabs : List Slab) (tables : List (List Nat × Nat)) (data : Multiset Nat) : Prop :=
  PagingInv offset pages (k.root offset) 512 k free slabs tables data

section Kernel

variable {offset : Nat} {pages : List Nat} {k k' : Kernel} {free : List Nat}
  {slabs : List Slab} {tables : List (List Nat × Nat)} {data : Multiset Nat} {flags : Nat}

theorem SameVars.root (vars : SameVars k k') : k'.root offset = k.root offset := by
  rw [Kernel.root, vars.pml4, Kernel.root]

theorem map_kernel (inv : KernelPaging offset pages k free slabs tables data)
    (direct : Direct offset pages) (bits : FlagBits flags) (virt phys : Nat)
    {paths : List Nat → Prop} (known : Known paths tables)
    (covers : Covers paths (pageIndex virt)) :
    (free.length < 3 ∧ Exhausted pages slabs paths data ∧
        map offset (k.root offset) virt phys flags k = .error .outOfMemory) ∨
      ∃ k' free' tables', map offset (k.root offset) virt phys flags k = .ok k' ∧
        KernelPaging offset pages k' free' slabs tables' data ∧ Known paths tables' ∧
        (∀ page < 2 ^ 36, k'.leaf offset page =
          if page = pageIndex virt then phys ||| flags else k.leaf offset page) ∧
        Mapped offset (k.root offset) 512 free flags (pageIndex virt) (phys ||| flags) k.mem
          k'.mem ∧
        SameVars k k' ∧ Taken 3 free free' ∧ SameOthers k k' data := by
  rcases map_spec inv direct bits virt phys known covers (under_all _) with
    stopped | ⟨k', free', tables', ran, inv', known', mapped, vars, taken, others⟩
  · exact Or.inl stopped
  · refine Or.inr ⟨k', free', tables', ran, ?_, known', ?_, mapped, vars, taken, others⟩
    · rw [KernelPaging, vars.root]
      exact inv'
    · intro page bound
      rw [Kernel.leaf, vars.root]
      exact mapped.leafEntry (pageIndex_lt virt) bound (under_all page)

theorem unmap_kernel (inv : KernelPaging offset pages k free slabs tables data)
    (direct : Direct offset pages) (virt : Nat) :
    ∃ k', unmap offset (k.root offset) virt k = (k.leaf offset (pageIndex virt), k') ∧
      KernelPaging offset pages k' free slabs tables data ∧
      (∀ page < 2 ^ 36, k'.leaf offset page =
        if page = pageIndex virt then 0 else k.leaf offset page) ∧
      (∀ path, EntryOk 512 path → entryAt offset k'.mem (k.root offset) path =
        if path = entryPath (pageIndex virt) then 0
        else entryAt offset k.mem (k.root offset) path) ∧
      SameVars k k' ∧ SameOthers k k' data := by
  obtain ⟨k', ran, inv', entries, vars, others⟩ := unmap_spec inv direct virt (under_all _)
  refine ⟨k', ran, ?_, ?_, entries, vars, others⟩
  · rw [KernelPaging, vars.root]
    exact inv'
  · intro page bound
    rw [Kernel.leaf, vars.root, leafEntry_eq_entryAt, entries _ (entryPath_ok (under_all page))]
    by_cases same : page = pageIndex virt
    · rw [if_pos same, if_pos (congrArg entryPath same)]
    · rw [if_neg same, if_neg fun paths => same (entryPath_injective bound (pageIndex_lt virt) paths)]
      rfl

end Kernel

end Nyaux.Mm
