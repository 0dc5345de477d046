import Nyaux.Lib.SharedPaging
import Nyaux.Mm.KernelHalf

/-! The operations of `vmm.c` beside any number of pagemaps that share tables.

`map` and `unmap` write one entry of a last table. It belongs to every pagemap that leads there. -/

namespace Nyaux.Mm

open Word Memory Paging

structure SharedInv (offset : Nat) (pages roots : List Nat) (k : Kernel) (free : List Nat)
    (slabs : List Slab) (tables data : Multiset Nat) : Prop where
  heap : HeapInv pages 8 k free slabs (tables + data)
  shared : Shared offset k.mem roots tables

structure LeafWritten (offset : Nat) (roots : List Nat) (root page entry : Nat) (mem mem' : Mem) :
    Prop where
  leaf : ∀ s ∈ roots, ∀ other < 2 ^ 36,
    leafEntry offset mem' s other = leafEntry offset mem s other ∨
      other = page ∧ leafEntry offset mem' s other = entry ∧
        (tableAt offset mem s (leafPath other) = none ∨
          tableAt offset mem s (leafPath other) = tableAt offset mem root (leafPath other))
  sharing : ∀ r ∈ roots, ∀ s ∈ roots, ∀ path t, PathOk 512 path →
    tableAt offset mem s path = some t → tableAt offset mem' r path = tableAt offset mem' s path →
    tableAt offset mem r path = some t
  written : leafEntry offset mem' root page = entry
  kept : ∀ s ∈ roots, ∀ path t, PathOk 512 path → tableAt offset mem s path = some t →
    tableAt offset mem' s path = some t

section

variable {offset root : Nat} {pages roots : List Nat} {k k' : Kernel} {free free' : List Nat}
  {slabs : List Slab} {tables data : Multiset Nat} {p flags : Nat}

theorem unmap_missing {virt : Nat} (missing : lastTable offset k.mem root virt = 0) :
    unmap offset root virt k = (0, k) := by
  rw [unmap, missing]
  rfl

namespace SharedInv

theorem mem_pages (inv : SharedInv offset pages roots k free slabs tables data) {q : Nat}
    (member : q ∈ tables + data) : q ∈ pages :=
  inv.heap.mem_pages (Or.inr (Or.inr member))

theorem disjoint (inv : SharedInv offset pages roots k free slabs tables data)
    (usable : Usable pages) : Disjoint tables data ∧ tables.Nodup ∧ data.Nodup := by
  have nodup : ((free : Multiset Nat) + slabPages slabs + (tables + data)).Nodup := by
    rw [inv.heap.pages]
    exact usable.nodup
  obtain ⟨left, right, apart⟩ := Multiset.nodup_add.mp (Multiset.nodup_add.mp nodup).2.1
  exact ⟨apart, left, right⟩

theorem of_heap {free' : List Nat} {slabs' : List Slab} {data' : Multiset Nat}
    (inv : SharedInv offset pages roots k free slabs tables data)
    (heap : HeapInv pages 8 k' free' slabs' (tables + data'))
    (same : ∀ t ∈ tables, SamePage k.mem k'.mem t) :
    SharedInv offset pages roots k' free' slabs' tables data' ∧
      SamePaths offset roots k.mem k'.mem := by
  have slots : ∀ t ∈ tables, ∀ i < 512, k'.mem (slot t i) = k.mem (slot t i) :=
    fun t member i bound => same t member _ (slot_inPage bound)
  have paths := inv.shared.samePaths slots
  exact ⟨⟨heap, inv.shared.of_samePaths paths⟩, paths⟩

theorem write_page (inv : SharedInv offset pages roots k free slabs tables (p ::ₘ data))
    (usable : Usable pages) {mem' : Mem}
    (outside : ∀ address, ¬ InPage p address → mem' address = k.mem address) :
    SharedInv offset pages roots { k with mem := mem' } free slabs tables (p ::ₘ data) ∧
      SamePaths offset roots k.mem mem' := by
  have here : p ∈ tables + p ::ₘ data :=
    Multiset.mem_add.mpr (Or.inr (Multiset.mem_cons_self p data))
  have alignedP := usable.aligned p (inv.mem_pages here)
  have same : ∀ q ∈ pages, q ≠ p → SamePage k.mem mem' q := by
    intro q member different address inside
    exact outside address (page_ne (usable.aligned q member) alignedP different inside)
  obtain ⟨notFree, notSlab⟩ := (inv.heap.disjoint usable).2.2.2 p here
  apply inv.of_heap
  · apply inv.heap.frame
    intro q owned
    apply same q (inv.heap.mem_pages (by tauto))
    rintro rfl
    tauto
  · intro t member
    apply same t (inv.mem_pages (Multiset.mem_add.mpr (Or.inl member)))
    rintro rfl
    exact Multiset.disjoint_left.mp (inv.disjoint usable).1 member (Multiset.mem_cons_self t data)

theorem take (inv : SharedInv offset pages roots k (p :: free) slabs tables data)
    (direct : Direct offset pages) :
    pmmAllocSinglep offset k = .ok (p - offset, { k with head := k.mem p }) ∧ k.head = p ∧
      SharedInv offset pages roots { k with head := k.mem p, mem := zeroPage k.mem p } free slabs
        tables (p ::ₘ data) ∧
      SamePaths offset roots k.mem (zeroPage k.mem p) := by
  obtain ⟨head, -⟩ := inv.heap.list
  obtain ⟨returned, heap⟩ := inv.heap.take direct
  rw [← Multiset.add_cons] at heap
  have taken : SharedInv offset pages roots { k with head := k.mem p } free slabs tables
      (p ::ₘ data) := ⟨heap, inv.shared⟩
  have zeroed : ∀ address, ¬ InPage p address → zeroPage k.mem p address = k.mem address :=
    fun address away => if_neg away
  obtain ⟨cleared, same⟩ := taken.write_page direct.usable zeroed
  exact ⟨returned, head, cleared, same⟩

theorem give (inv : SharedInv offset pages roots k free slabs tables (p ::ₘ data))
    (usable : Usable pages) :
    SharedInv offset pages roots (pmmFreeSinglep p k) (p :: free) slabs tables data ∧
      SamePaths offset roots k.mem (pmmFreeSinglep p k).mem := by
  have here : p ∈ tables + p ::ₘ data :=
    Multiset.mem_add.mpr (Or.inr (Multiset.mem_cons_self p data))
  have outside : ∀ address, ¬ InPage p address → store k.mem p k.head address = k.mem address := by
    intro address away
    apply store_other
    rintro rfl
    exact away (by unfold InPage; omega)
  obtain ⟨kept, same⟩ := inv.write_page usable outside
  have notFree := ((inv.heap.disjoint usable).2.2.2 p here).1
  have pushed : Chain (store k.mem (p + 0) k.head) 0 p (p :: free) :=
    inv.heap.list.push (usable.nonzero p (inv.mem_pages here)) notFree
  refine ⟨⟨⟨?_, pushed, kept.heap.slab, kept.heap.count, kept.heap.caches⟩, kept.shared⟩, same⟩
  rw [← inv.heap.pages, ← Multiset.cons_coe, Multiset.add_cons, Multiset.add_cons,
    Multiset.cons_add, Multiset.cons_add]

theorem kmallocSlab (inv : SharedInv offset pages roots k free slabs tables data)
    (usable : Usable pages) {size x : Nat} (small : size < 1024)
    (ran : kmallocSlab offset size k = .ok (x, k')) :
    ∃ free' slabs', SharedInv offset pages roots k' free' slabs' tables data ∧
      liveObjects slabs' = (x, cacheFor size) ::ₘ liveObjects slabs ∧ SameVars k k' ∧
      SamePaths offset roots k.mem k'.mem := by
  rcases kmallocSlab_spec inv.heap usable small offset with
    ⟨-, stopped⟩ | ⟨y, k'', free', slabs', ran', heap, live, others, vars, -⟩
  · rw [stopped] at ran
    cases ran
  obtain ⟨rfl, rfl⟩ := Prod.mk.inj (Except.ok.inj (ran'.symm.trans ran))
  obtain ⟨inv', same⟩ :=
    inv.of_heap heap fun t member => others t (Multiset.mem_add.mpr (Or.inl member))
  exact ⟨free', slabs', inv', live, vars, same⟩

theorem allocNode (inv : SharedInv offset pages roots k free slabs tables data)
    (usable : Usable pages) {node : Nat} (ran : allocNode offset k = .ok (node, k')) :
    ∃ free' slabs', SharedInv offset pages roots k' free' slabs' tables data ∧
      liveObjects slabs' = (node, cacheFor 32) ::ₘ liveObjects slabs ∧ SameVars k k' ∧
      SamePaths offset roots k.mem k'.mem := by
  obtain ⟨⟨x, k₁⟩, got, rest⟩ := of_bind_ok ran
  dsimp only at rest
  split at rest
  · cases rest
  · obtain ⟨rfl, rfl⟩ := Prod.mk.inj (Except.ok.inj rest)
    exact inv.kmallocSlab usable (by decide) got

theorem freeObject (inv : SharedInv offset pages roots k free slabs tables data) (usable : Usable pages)
    {x c : Nat} (live : (x, c) ∈ liveObjects slabs) (ran : Mm.free x k = .ok k') :
    ∃ slabs', SharedInv offset pages roots k' free slabs' tables data ∧
      (x, c) ::ₘ liveObjects slabs' = liveObjects slabs ∧ SameVars k k' ∧
      SamePaths offset roots k.mem k'.mem := by
  obtain ⟨k'', slabs', ran', heap, removed, others, vars, -⟩ := free_spec inv.heap usable live
  obtain rfl := Except.ok.inj (ran'.symm.trans ran)
  obtain ⟨inv', same⟩ :=
    inv.of_heap heap fun t member => others t (Multiset.mem_add.mpr (Or.inl member))
  exact ⟨slabs', inv', removed, vars, same⟩

/-! One pagemap as a tree, and back. -/

theorem tablePages_le (inv : SharedInv offset pages roots k free slabs tables data)
    (usable : Usable pages) (member : root ∈ roots) :
    Tree offset k.mem root 512 (reach offset k.mem root) ∧
      (tablePages (reach offset k.mem root) : Multiset Nat) ≤ tables := by
  have aligned : ∀ t ∈ tables, Aligned t := fun t inTables =>
    usable.aligned t (inv.mem_pages (Multiset.mem_add.mpr (Or.inl inTables)))
  have tree := inv.shared.tree member aligned
  refine ⟨tree, (Multiset.le_iff_subset (Multiset.coe_nodup.mpr tree.pages)).mpr ?_⟩
  intro t listed
  obtain ⟨⟨path, t⟩, inReach, rfl⟩ := List.mem_map.mp (Multiset.mem_coe.mp listed)
  obtain ⟨ok, found⟩ := mem_reach.mp inReach
  exact inv.shared.owned root member path t ok found

theorem paging (inv : SharedInv offset pages roots k free slabs tables data)
    (usable : Usable pages) (member : root ∈ roots) :
    PagingInv offset pages root 512 k free slabs (reach offset k.mem root)
      (tables - tablePages (reach offset k.mem root) + data) := by
  obtain ⟨tree, fewer⟩ := inv.tablePages_le usable member
  refine ⟨?_, tree⟩
  rw [← add_assoc, add_tsub_cancel_of_le fewer]
  exact inv.heap

theorem rewrite {T : List (List Nat × Nat)} {page : Nat}
    (inv : SharedInv offset pages roots k free slabs tables data) (usable : Usable pages)
    (member : root ∈ roots)
    (after : PagingInv offset pages root 512 k' free' slabs T
      (tables - tablePages (reach offset k.mem root) + data))
    (others : SameOthers k k' (tables - tablePages (reach offset k.mem root) + data))
    (inner : ∀ path, path ≠ [] → PathOk 512 path →
      entryAt offset k'.mem root path = entryAt offset k.mem root path ∨
        ¬ Present (entryAt offset k.mem root path) ∧
          pointee offset (entryAt offset k'.mem root path) ∈ free)
    (leaf : ∀ other < 2 ^ 36, other ≠ page →
      leafEntry offset k'.mem root other = leafEntry offset k.mem root other) :
    ∃ tables', Rewrite offset root page free tables tables' k.mem k'.mem ∧
      SharedInv offset pages roots k' free' slabs tables' data := by
  have before := inv.paging usable member
  obtain ⟨-, fewer⟩ := inv.tablePages_le usable member
  have whole := add_tsub_cancel_of_le fewer
  have reached : ∀ {path t}, PathOk 512 path → tableAt offset k.mem root path = some t →
      t ∈ tablePages (reach offset k.mem root) :=
    fun ok found => tablePage_mem (mem_reach.mpr ⟨ok, found⟩)
  let rest := tables - tablePages (reach offset k.mem root)
  have split : ∀ t ∈ tables, t ∈ tablePages (reach offset k.mem root) ∨ t ∈ rest := by
    intro t inTables
    rw [← whole] at inTables
    exact Multiset.mem_add.mp inTables
  have rewrite : Rewrite offset root page free tables ((tablePages T : Multiset Nat) + rest)
      k.mem k'.mem := by
    refine ⟨inner, leaf, ?_, ?_, ?_, ?_, ?_⟩
    · intro t inTables unreached
      rcases split t inTables with below | inRest
      · obtain ⟨⟨path, t⟩, inReach, rfl⟩ := List.mem_map.mp below
        obtain ⟨ok, found⟩ := mem_reach.mp inReach
        exact absurd found (unreached path ok)
      · exact others t (Multiset.mem_add.mpr (Or.inl inRest))
    · intro p q t okP okQ foundP foundQ
      exact after.tree.page_unique (after.tree.mem_of_tableAt okP foundP)
        (after.tree.mem_of_tableAt okQ foundQ)
    · intro path t ok found
      have inT := tablePage_mem (after.tree.mem_of_tableAt ok found)
      refine ⟨Multiset.mem_add.mpr (Or.inl inT), ?_⟩
      have inPages := after.table_mem inT
      have notSlab := ((after.heap.disjoint usable).2.2.2 t (Multiset.mem_add.mpr (Or.inl inT))).2
      have notRest : t ∉ rest + data := fun inRest => (after.apart usable inRest).2.2 inT
      rw [← Multiset.mem_coe, ← before.heap.pages] at inPages
      simp only [Multiset.mem_add, Multiset.mem_coe] at inPages notRest
      have owner : t ∈ free ∨ t ∈ tablePages (reach offset k.mem root) := by tauto
      refine owner.imp_right fun below => ?_
      obtain ⟨⟨q, t⟩, inReach, rfl⟩ := List.mem_map.mp below
      exact ⟨q, mem_reach.mp inReach⟩
    · intro t inTables
      rcases split t inTables with below | inRest
      · obtain ⟨⟨path, t⟩, inReach, rfl⟩ := List.mem_map.mp below
        obtain ⟨ok, found⟩ := mem_reach.mp inReach
        exact Multiset.mem_add.mpr
          (Or.inl (tablePage_mem (after.tree.mem_of_tableAt ok (tableAt_of_linked inner ok found))))
      · exact Multiset.mem_add.mpr (Or.inr inRest)
    · intro t inFree inTables
      exact ((inv.heap.disjoint usable).2.2.2 t (Multiset.mem_add.mpr (Or.inl inTables))).1 inFree
  refine ⟨_, rewrite, ?_, rewrite.shared inv.shared member⟩
  rw [add_assoc]
  exact after.heap

theorem map {virt phys : Nat} (inv : SharedInv offset pages roots k free slabs tables data)
    (direct : Direct offset pages) (bits : FlagBits flags) (member : root ∈ roots)
    (ran : map offset root virt phys flags k = .ok k') :
    (∃ free' tables', SharedInv offset pages roots k' free' slabs tables' data) ∧ SameVars k k' ∧
      LeafWritten offset roots root (pageIndex virt) (phys ||| flags) k.mem k'.mem := by
  have before := inv.paging direct.usable member
  have anywhere : Known (fun _ => True) (reach offset k.mem root) := fun _ _ => trivial
  rcases map_spec before direct bits virt phys anywhere (fun _ _ => trivial) (under_all _) with
    ⟨-, -, stopped⟩ | ⟨k'', free', T, ran', after, -, mapped, vars, -, others⟩
  · rw [stopped] at ran
    cases ran
  obtain rfl := Except.ok.inj (ran'.symm.trans ran)
  have inner : ∀ path, path ≠ [] → PathOk 512 path →
      entryAt offset k''.mem root path = entryAt offset k.mem root path ∨
        ¬ Present (entryAt offset k.mem root path) ∧
          pointee offset (entryAt offset k''.mem root path) ∈ free := by
    intro path nonempty ok
    by_cases onWay : path <:+ leafPath (pageIndex virt)
    · rcases (mapped.above path nonempty onWay).2 with same | ⟨missing, q, inFree, entry⟩
      · exact Or.inl same
      · refine Or.inr ⟨missing, ?_⟩
        rw [entry, (dataEntry_or direct bits (inv.heap.mem_pages (Or.inl inFree))).2]
        exact inFree
    · left
      apply mapped.others path (ok.entryOk nonempty)
      intro suffix
      rcases List.suffix_cons_iff.mp suffix with whole | shorter
      · exact ok.ne_entryPath _ whole
      · exact onWay shorter
  have leaf := fun other (bound : other < 2 ^ 36) =>
    mapped.leafEntry (pageIndex_lt virt) bound (under_all other)
  obtain ⟨tables', rewrite, inv'⟩ := inv.rewrite direct.usable member after others inner
    fun other bound different => (leaf other bound).trans (if_neg different)
  refine ⟨⟨free', tables', inv'⟩, vars, ?_, ?_, mapped.leaf, ?_⟩
  · intro s inRoots other bound
    refine (rewrite.leafEntry inv.shared member inRoots bound).imp_right ?_
    rintro ⟨here, written, place⟩
    rw [leaf other bound, if_pos here] at written
    exact ⟨here, written, place⟩
  · exact fun r inR s inS path t ok found same =>
      rewrite.sharing inv.shared member inR inS ok found same
  · exact fun s inS path t ok found => rewrite.kept inv.shared member inS ok found

theorem mapFreshPage {virt : Nat} (inv : SharedInv offset pages roots k free slabs tables data)
    (direct : Direct offset pages) (bits : FlagBits flags) (member : root ∈ roots)
    (ran : mapFreshPage offset root virt flags k = .ok k') :
    (∃ free' tables', SharedInv offset pages roots k' free' slabs tables' (k.head ::ₘ data)) ∧
      SameVars k k' ∧ ∃ entry, LeafWritten offset roots root (pageIndex virt) entry k.mem k'.mem := by
  cases free with
  | nil =>
      rw [Mm.mapFreshPage, inv.heap.take_none] at ran
      cases ran
  | cons p rest =>
      obtain ⟨took, head, cleared, same⟩ := inv.take direct
      have back := (direct.phys_page (inv.heap.mem_pages (Or.inl List.mem_cons_self))).2.2.2.2
      rw [Mm.mapFreshPage, took, ok_bind] at ran
      dsimp only at ran
      rw [back] at ran
      obtain ⟨inv', vars, written⟩ := cleared.map direct bits member ran
      refine ⟨?_, ⟨vars.caches, vars.regions, vars.pml4⟩, (p - offset) ||| flags, ?_, ?_,
        written.written, ?_⟩
      · rw [head]
        exact inv'
      · intro s inRoots other bound
        have path := leafPath_ok (under_all other)
        rw [← same.leaf s inRoots other, ← same.tables s inRoots _ path,
          ← same.tables root member _ path]
        exact written.leaf s inRoots other bound
      · intro r inR s inS path t ok found shared
        rw [← same.tables r inR path ok]
        apply written.sharing r inR s inS path t ok _ shared
        exact (same.tables s inS path ok).trans found
      · intro s inS path t ok found
        apply written.kept s inS path t ok
        exact (same.tables s inS path ok).trans found

theorem unmap (inv : SharedInv offset pages roots k free slabs tables data)
    (direct : Direct offset pages) (member : root ∈ roots) (virt : Nat) :
    (unmap offset root virt k).1 = leafEntry offset k.mem root (pageIndex virt) ∧
      (∃ tables', SharedInv offset pages roots (unmap offset root virt k).2 free slabs tables' data) ∧
      SameVars k (unmap offset root virt k).2 ∧
      ∀ s ∈ roots, ∀ other < 2 ^ 36, other ≠ pageIndex virt →
        leafEntry offset (unmap offset root virt k).2.mem s other =
          leafEntry offset k.mem s other := by
  have before := inv.paging direct.usable member
  obtain ⟨k', ran, after, entries, vars, others⟩ := unmap_spec before direct virt (under_all _)
  have inner : ∀ path, path ≠ [] → PathOk 512 path →
      entryAt offset k'.mem root path = entryAt offset k.mem root path ∨
        ¬ Present (entryAt offset k.mem root path) ∧
          pointee offset (entryAt offset k'.mem root path) ∈ free := by
    intro path nonempty ok
    left
    rw [entries path (ok.entryOk nonempty), if_neg (ok.ne_entryPath _)]
  have leaf : ∀ other < 2 ^ 36, other ≠ pageIndex virt →
      leafEntry offset k'.mem root other = leafEntry offset k.mem root other := by
    intro other bound different
    rw [leafEntry_eq_entryAt, entries _ (entryPath_ok (under_all other)), if_neg]
    · rfl
    · exact fun paths => different (entryPath_injective bound (pageIndex_lt virt) paths)
  obtain ⟨tables', rewrite, inv'⟩ := inv.rewrite direct.usable member after others inner leaf
  rw [ran]
  refine ⟨rfl, ⟨tables', inv'⟩, vars, ?_⟩
  intro s inRoots other bound different
  exact (rewrite.leafEntry inv.shared member inRoots bound).resolve_right
    fun written => different written.1

/-- A new pagemap shares the kernel's upper half; it joins the others when its lower half is
empty. -/
theorem newPagemap {size : Nat} {q : Pagemap}
    (inv : SharedInv offset pages roots k free slabs tables data) (direct : Direct offset pages)
    (member : k.root offset ∈ roots) (ran : k.newPagemap offset size = .ok (q, k')) :
    (∃ free' slabs' nodes, SharedInv offset pages
        (if lowerEmpty offset k'.mem q then q.root offset :: roots else roots) k' free' slabs'
        (q.root offset ::ₘ tables) data ∧ liveObjects slabs' = nodes + liveObjects slabs) ∧
      SameVars k k' ∧ SamePaths offset roots k.mem k'.mem := by
  have before := inv.paging direct.usable member
  obtain ⟨tree, fewer⟩ := inv.tablePages_le direct.usable member
  have whole := add_tsub_cancel_of_le fewer
  rcases newPagemap_spec before direct size with
    ⟨-, stopped⟩ | ⟨q', k'', free', slabs', part, node, ran', inFree, -, after, live, -, upper,
      entries, vars, -, others⟩
  · rw [stopped] at ran
    cases ran
  obtain ⟨rfl, rfl⟩ := Prod.mk.inj (Except.ok.inj (ran'.symm.trans ran))
  have heap : HeapInv pages 8 k'' free' slabs' (q'.root offset ::ₘ tables + data) := by
    have moved : q'.root offset ::ₘ tables + data =
        (tablePages (reach offset k.mem (k.root offset)) : Multiset Nat) +
          q'.root offset ::ₘ (tables - tablePages (reach offset k.mem (k.root offset)) + data) := by
      rw [Multiset.add_cons, ← add_assoc, whole, Multiset.cons_add]
    rw [moved]
    exact after.heap
  have slots : ∀ t ∈ tables, ∀ i < 512, k''.mem (slot t i) = k.mem (slot t i) := by
    intro t inTables i bound
    rw [← whole] at inTables
    rcases Multiset.mem_add.mp inTables with below | rest
    · obtain ⟨⟨path, t⟩, inReach, rfl⟩ := List.mem_map.mp (Multiset.mem_coe.mp below)
      have afterTree := after.tree
      rw [vars.root] at afterTree
      have same := entries (i :: path) ⟨bound, (mem_reach.mp inReach).1⟩
      rw [afterTree.entryAt_of_mem inReach, tree.entryAt_of_mem inReach] at same
      exact same
    · exact others t (Multiset.mem_add.mpr (Or.inl rest)) _ (slot_inPage bound)
  have paths := inv.shared.samePaths slots
  have kept := inv.shared.of_samePaths paths
  refine ⟨⟨free', slabs', {(node, cacheFor 32), (part, cacheFor 32), (q'.addr, cacheFor 16)}, ⟨heap, ?_⟩,
    ?_⟩, vars, paths⟩
  · cases empty : lowerEmpty offset k''.mem q' with
    | false =>
        rw [if_neg (by decide)]
        exact kept.mono fun t inTables => Multiset.mem_cons_of_mem inTables
    | true =>
        rw [if_pos rfl]
        apply kept.add member
        · intro inTables
          exact ((inv.heap.disjoint direct.usable).2.2.2 _
            (Multiset.mem_add.mpr (Or.inl inTables))).1 inFree
        · exact lowerEmpty_iff.mp empty
        · intro i high bound
          rw [upper i high bound, vars.root]
  · rw [live]
    rfl

end SharedInv

end

end Nyaux.Mm
