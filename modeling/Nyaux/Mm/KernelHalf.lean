import Nyaux.Mm.HeapCalls
import Nyaux.Mm.KernelRegions
import Nyaux.Mm.UserPages

/-! The kernel half of the address space in every pagemap, over runs of the kernel's calls,
`new_pagemap` and user mappings. -/

namespace Nyaux.Mm

open Word Memory Paging

/-- A pagemap that `new_pagemap` returned, and whether its lower half was empty then. -/
structure Made where
  pagemap : Pagemap
  empty : Bool

structure KernelHalf where
  heap : KernelHeap
  made : List Made

inductive HalfOp where
  | call (c : KernelCall)
  | newPagemap
  /-- on the pagemap number `i` -/
  | mmapRange (i baseVirt sizeInBytes flags : Nat)
  | regionAllocUser (i size flags : Nat)

def lowerEmpty (offset : Nat) (mem : Mem) (p : Pagemap) : Bool :=
  (List.range 256).all fun i => !decide (Present (mem (slot (p.root offset) i)))

def KernelHalf.step (offset kernelHigherHalfSize : Nat) (s : KernelHalf) :
    HalfOp → Except Stop KernelHalf
  | .call c => do
      let h ← s.heap.step offset c
      .ok { s with heap := h }
  | .newPagemap => do
      let (p, k) ← s.heap.kernel.newPagemap offset kernelHigherHalfSize
      .ok { heap := { s.heap with kernel := k }, made := ⟨p, lowerEmpty offset k.mem p⟩ :: s.made }
  | .mmapRange i baseVirt sizeInBytes flags =>
      match s.made[i]? with
      | none => .error .nullDeref
      | some m => do
          let (_, k) ← m.pagemap.mmapRange offset baseVirt sizeInBytes flags s.heap.kernel
          .ok { s with heap := { s.heap with kernel := k } }
  | .regionAllocUser i size flags =>
      match s.made[i]? with
      | none => .error .nullDeref
      | some m => do
          let (_, p, k) ← m.pagemap.vmmRegionAllocUser offset size flags s.heap.kernel
          .ok { heap := { s.heap with kernel := k }, made := s.made.set i { m with pagemap := p } }

/-- Callers give back what they were given, and map user addresses only. -/
def HalfOp.Allowed (s : KernelHalf) : HalfOp → Prop
  | .call c => c.Allowed (fun _ => True) s.heap
  | .newPagemap => True
  | .mmapRange _ baseVirt sizeInBytes flags => FlagBits flags ∧
      ∀ virt ∈ loopAddrs baseVirt (numOfPages sizeInBytes).toNat, virt < 2 ^ 47
  | .regionAllocUser i size flags => FlagBits flags ∧
      ∀ m, s.made[i]? = some m → ∀ r, nextRegion 0 size m.pagemap.head = some r →
        ∀ virt ∈ loopAddrs r.base (numOfPages size).toNat, virt < 2 ^ 47

def SlotsPresent (offset : Nat) (k : Kernel) (r : VmmRegion) : Prop :=
  ∀ page ∈ run r, 256 ≤ page / 2 ^ 27 % 512 →
    Present (k.mem (slot (k.root offset) (page / 2 ^ 27 % 512)))

/-- When a step keeps the halves the same: a region overlaps nothing that boot, which left `k₀`,
mapped, and once there are pagemaps it fits below the top entries there are; user mappings go to
a pagemap that was empty. -/
def HalfOp.Meets (offset : Nat) (k₀ : Kernel) (s : KernelHalf) : HalfOp → Prop
  | .call c => c.Within ∧ ∀ r, c.Places s.heap r →
      Clear (k₀.leaf offset) r ∧ (s.made ≠ [] → SlotsPresent offset s.heap.kernel r)
  | .newPagemap => True
  | .mmapRange i _ _ _ | .regionAllocUser i _ _ => ∀ m, s.made[i]? = some m → m.empty = true

/-- The states after boot, which left `k₀`, and any steps that meet `condition`. -/
inductive HalfReached (boot : Limine) (image : KernelImage)
    (condition : Kernel → KernelHalf → HalfOp → Prop) (k₀ : Kernel) : KernelHalf → Prop
  | start {mem : Mem} {k : Kernel} (pmm : pmmInit boot mem = .ok k)
      (vmm : vmmInit boot.offset boot.entries image k = .ok k₀) :
      HalfReached boot image condition k₀ ⟨⟨k₀, [], []⟩, []⟩
  | step {s s' : KernelHalf} {op : HalfOp} (before : HalfReached boot image condition k₀ s)
      (allowed : op.Allowed s) (meets : condition k₀ s op)
      (next : s.step boot.offset (image.virtualBase + image.size) op = .ok s') :
      HalfReached boot image condition k₀ s'

/-- A kernel-half address is found in the same place in every pagemap, and each mapped byte of
a heap block there is found in all of them. -/
def OneKernelHalf (offset : Nat) (s : KernelHalf) : Prop :=
  ∀ m ∈ s.made,
    (∀ virt, 2 ^ 64 - 2 ^ 47 ≤ virt → virt < 2 ^ 64 →
      translate offset s.heap.kernel.mem m.pagemap.pml4 virt =
        s.heap.kernel.translate offset virt) ∧
    ∀ b ∈ s.heap.blocks, ∀ i < b.2, 2 ^ 64 - 2 ^ 47 ≤ add64 b.1 i →
      translate offset s.heap.kernel.mem m.pagemap.pml4 (add64 b.1 i) ≠ none

structure UserOk (offset : Nat) (k : Kernel) (u : Made × List (List Nat × Nat)) : Prop where
  root : ([], u.1.pagemap.root offset) ∈ u.2
  upper : ∀ i, 256 ≤ i → i < 512 →
    k.mem (slot (u.1.pagemap.root offset) i) = k.mem (slot (k.root offset) i)
  tree : u.1.empty = true → Tree offset k.mem (u.1.pagemap.root offset) 256 u.2

def userPages (users : List (Made × List (List Nat × Nat))) : List Nat :=
  users.flatMap fun u => tablePages u.2

/-- The invariant of the runs: the pagemaps' own tables and the pages mapped for users are pages
the kernel's pagemap does not lead to. -/
structure HalfInv (offset : Nat) (pages : List Nat) (leaf₀ : Nat → Nat) (first last : VmmRegion)
    (s : KernelHalf) (users : List (Made × List (List Nat × Nat))) : Prop where
  kernel : ∃ others data mids free slabs tables,
    KernelInv offset pages leaf₀ first last others ((userPages users : Multiset Nat) + data) s.heap
      mids free slabs tables
  made : s.made = users.map Prod.fst
  users : ∀ u ∈ users, UserOk offset s.heap.kernel u

section Steps

variable {offset : Nat} {pages : List Nat} {leaf₀ : Nat → Nat} {first last : VmmRegion}
  {s : KernelHalf} {k k' : Kernel} {users : List (Made × List (List Nat × Nat))}
  {u : Made × List (List Nat × Nat)}

theorem UserOk.frame (ok : UserOk offset k u)
    (same : ∀ q ∈ tablePages u.2, SamePage k.mem k'.mem q)
    (words : ∀ i, 256 ≤ i → i < 512 →
      k'.mem (slot (k'.root offset) i) = k.mem (slot (k.root offset) i)) : UserOk offset k' u := by
  refine ⟨ok.root, ?_, ?_⟩
  · intro i high bound
    rw [words i high bound, same _ (tablePage_mem ok.root) _ (slot_inPage bound)]
    exact ok.upper i high bound
  · intro empty
    exact (ok.tree empty).frame fun t member => same t.2 (List.mem_map_of_mem member)

theorem mem_userPages {q : Nat} (member : u ∈ users) (inTables : q ∈ tablePages u.2) :
    q ∈ userPages users :=
  List.mem_flatMap.mpr ⟨u, member, inTables⟩

theorem SameEntries.words {mem mem' : Mem} {root i : Nat}
    (same : SameEntries offset root 512 mem mem') (bound : i < 512) :
    mem' (slot root i) = mem (slot root i) :=
  same [i] ⟨bound, by simp, by simp, by simp⟩

theorem top_suffix_iff {i page : Nat} : [i] <:+ leafPath page ↔ i = page / 2 ^ 27 % 512 := by
  simp [leafPath, List.suffix_cons_iff]

theorem UserOk.translate (ok : UserOk offset k u) {virt : Nat} (high : 2 ^ 64 - 2 ^ 47 ≤ virt)
    (word : virt < 2 ^ 64) :
    translate offset k.mem u.1.pagemap.pml4 virt = k.translate offset virt := by
  have upper : 256 ≤ pageIndex virt / 2 ^ 27 % 512 := by
    unfold pageIndex
    omega
  have entry : leafEntry offset k.mem (u.1.pagemap.root offset) (pageIndex virt) =
      leafEntry offset k.mem (k.root offset) (pageIndex virt) :=
    leafEntry_of_root_word (ok.upper _ upper (Nat.mod_lt _ (by decide)))
  rw [Mm.translate, ← Pagemap.root, entry]
  rfl

theorem HalfInv.call {c : KernelCall} {h' : KernelHeap}
    (inv : HalfInv offset pages leaf₀ first last s users) (boot : BootFacts offset pages leaf₀ first)
    (within : c.Within) (allowed : c.Allowed (fun _ => True) s.heap)
    (meets : ∀ r, c.Places s.heap r →
      Clear leaf₀ r ∧ (s.made ≠ [] → SlotsPresent offset s.heap.kernel r))
    (next : s.heap.step offset c = .ok h') :
    HalfInv offset pages leaf₀ first last { s with heap := h' } users := by
  obtain ⟨others, data, mids, free, slabs, tables, kernel⟩ := inv.kernel
  rcases kernel.step boot within allowed (fun r placed => (meets r placed).1) with
    stopped | ⟨h'', mids', free', slabs', tables', touched, ran, kernel', moved, placed⟩
  · exact absurd next (not_ok_of_stopped stopped)
  obtain rfl := Except.ok.inj (ran.symm.trans next)
  refine ⟨⟨others, data, mids', free', slabs', tables', kernel'⟩, inv.made, ?_⟩
  intro u member
  apply (inv.users u member).frame
  · intro q inTables
    exact moved.extra q (Multiset.mem_add.mpr (Or.inl (mem_userPages member inTables)))
  · intro i high bound
    have some : s.made ≠ [] := by
      rw [inv.made]
      exact List.ne_nil_of_mem (List.mem_map_of_mem member)
    rw [Kernel.root, moved.pml4, ← Kernel.root]
    apply moved.tables [i] ⟨bound, by simp, by simp, by simp⟩ (by simp)
    by_cases present : Present (entryAt offset s.heap.kernel.mem (s.heap.kernel.root offset) [i])
    · exact Or.inl present
    · right
      intro page inTouched onWay
      obtain ⟨r, place, inRun⟩ := placed page inTouched
      rw [top_suffix_iff] at onWay
      have slots := (meets r place).2 some page inRun
      rw [← onWay] at slots
      exact present (slots high)

theorem lowerEmpty_iff {mem : Mem} {p : Pagemap} : lowerEmpty offset mem p = true ↔
    ∀ i < 256, ¬ Present (mem (slot (p.root offset) i)) := by
  simp [lowerEmpty]

/-- `new_pagemap` beside the kernel's regions. -/
theorem RegionInv.newPagemap_spec {mids : List VmmRegion} {free : List Nat} {slabs : List Slab}
    {tables : List (List Nat × Nat)} {others blocks : Multiset (Nat × Nat)} {extra : Multiset Nat}
    (inv : RegionInv offset pages leaf₀ first last k mids free slabs tables (others + blocks) extra)
    (direct : Direct offset pages) (size : Nat) :
    (free.length < 4 ∧ k.newPagemap offset size = .error .outOfMemory) ∨
      ∃ p k' free' slabs' others', k.newPagemap offset size = .ok (p, k') ∧
        p.root offset ∈ free ∧
        RegionInv offset pages leaf₀ first last k' mids free' slabs' tables (others' + blocks)
          (p.root offset ::ₘ extra) ∧
        (∀ i, 256 ≤ i → i < 512 →
          k'.mem (slot (p.root offset) i) = k'.mem (slot (k'.root offset) i)) ∧
        SameEntries offset (k.root offset) 512 k.mem k'.mem ∧ SameVars k k' ∧
        Taken 4 free free' ∧ SameOthers k k' extra := by
  rcases Mm.newPagemap_spec inv.paging direct size with
    stopped | ⟨p, k', free', slabs', part, node, ran, inFree, -, paging, live, -, upper, entries,
      vars, taken, same⟩
  · exact Or.inl stopped
  rw [inv.live, ← Multiset.add_cons, ← Multiset.add_cons, ← Multiset.add_cons,
    ← Multiset.cons_add, ← Multiset.cons_add, ← Multiset.cons_add] at live
  rw [← Multiset.add_cons] at paging
  refine Or.inr ⟨p, k', free', slabs', _, ran, inFree, inv.of_entries paging live entries vars, upper,
    entries, vars, taken, ?_⟩
  exact fun q member => same q (Multiset.mem_add.mpr (Or.inr member))

theorem HalfInv.newPagemap {size : Nat} {p : Pagemap}
    (inv : HalfInv offset pages leaf₀ first last s users) (direct : Direct offset pages)
    (next : s.heap.kernel.newPagemap offset size = .ok (p, k')) :
    HalfInv offset pages leaf₀ first last
      ⟨{ s.heap with kernel := k' }, ⟨p, lowerEmpty offset k'.mem p⟩ :: s.made⟩
      ((⟨p, lowerEmpty offset k'.mem p⟩, [([], p.root offset)]) :: users) := by
  obtain ⟨others, data, mids, free, slabs, tables, kernel⟩ := inv.kernel
  have region := kernel.region
  rcases region.newPagemap_spec direct size with
    ⟨-, stopped⟩ | ⟨p', k'', free', slabs', others', ran, inFree, region', upper, entries, vars, -,
      same⟩
  · rw [stopped] at next
    cases next
  obtain ⟨rfl, rfl⟩ := Prod.mk.inj (Except.ok.inj (ran.symm.trans next))
  have aligned := direct.usable.aligned _ (region.paging.heap.mem_pages (Or.inl inFree))
  refine ⟨⟨others', data, mids, free', slabs', tables, ?_, kernel.held, kernel.large⟩, ?_, ?_⟩
  · have moved : (userPages ((⟨p', lowerEmpty offset k''.mem p'⟩, [([], p'.root offset)]) :: users) :
        Multiset Nat) + data = p'.root offset ::ₘ ((userPages users : Multiset Nat) + data) := by
      rw [userPages, List.flatMap_cons, ← Multiset.coe_add, ← userPages, add_assoc]
      rfl
    rw [moved]
    exact region'
  · rw [inv.made]
    rfl
  · refine List.forall_mem_cons.mpr ⟨⟨List.mem_singleton_self _, upper, ?_⟩, ?_⟩
    · exact fun empty => Tree.single aligned (lowerEmpty_iff.mp empty)
    · intro u member
      apply (inv.users u member).frame
      · intro q inTables
        exact same q (Multiset.mem_add.mpr (Or.inl (mem_userPages member inTables)))
      · intro i high bound
        have root : k''.root offset = s.heap.kernel.root offset := vars.root
        rw [root]
        exact entries.words bound

theorem HalfInv.allocNode {node : Nat} (inv : HalfInv offset pages leaf₀ first last s users)
    (usable : Usable pages) (ran : allocNode offset s.heap.kernel = .ok (node, k')) :
    HalfInv offset pages leaf₀ first last { s with heap := { s.heap with kernel := k' } } users := by
  obtain ⟨others, data, mids, free, slabs, tables, kernel⟩ := inv.kernel
  have region := kernel.region
  rcases allocNode_spec region.paging usable with
    ⟨-, stopped⟩ | ⟨x, k'', free', slabs', ran', paging, live, entries, vars, -, same, -⟩
  · rw [stopped] at ran
    cases ran
  obtain ⟨rfl, rfl⟩ := Prod.mk.inj (Except.ok.inj (ran'.symm.trans ran))
  rw [region.live, ← Multiset.add_cons, ← Multiset.cons_add] at live
  have region' := region.of_entries paging live entries vars
  refine ⟨⟨(x, cacheFor 32) ::ₘ others, data, mids, free', slabs', tables, region', kernel.held,
    kernel.large⟩, inv.made, ?_⟩
  intro u member
  apply (inv.users u member).frame
  · intro q inTables
    apply same q
    exact Multiset.mem_add.mpr (Or.inr (Multiset.mem_add.mpr (Or.inl
      (mem_userPages member inTables))))
  · intro i high bound
    rw [vars.root]
    exact entries.words bound

theorem userPages_middle (before after : List (Made × List (List Nat × Nat)))
    (u : Made × List (List Nat × Nat)) : (userPages (before ++ u :: after) : Multiset Nat) =
      (tablePages u.2 : Multiset Nat) + userPages (before ++ after) := by
  rw [Multiset.coe_add]
  apply Multiset.coe_eq_coe.mpr
  simp only [userPages, List.flatMap_append, List.flatMap_cons, ← List.append_assoc]
  exact List.Perm.append_right _ List.perm_append_comm

theorem HalfInv.mapFreshPage {before after : List (Made × List (List Nat × Nat))} {virt flags : Nat}
    (inv : HalfInv offset pages leaf₀ first last s (before ++ u :: after))
    (direct : Direct offset pages) (bits : FlagBits flags) (empty : u.1.empty = true)
    (user : virt < 2 ^ 47)
    (ran : mapFreshPage offset (u.1.pagemap.root offset) virt flags s.heap.kernel = .ok k') :
    ∃ T, HalfInv offset pages leaf₀ first last { s with heap := { s.heap with kernel := k' } }
      (before ++ (u.1, T) :: after) := by
  obtain ⟨others, data, mids, free, slabs, tables, kernel⟩ := inv.kernel
  have region := kernel.region
  have own := inv.users u (by simp)
  have under : Under 256 (pageIndex virt) := by
    unfold Under pageIndex
    omega
  have lower : PagingInv offset pages (u.1.pagemap.root offset) 256 s.heap.kernel free slabs u.2
      (tablePages tables + targets offset s.heap.kernel (runs mids) +
        (userPages (before ++ after) + data)) := by
    refine ⟨?_, own.tree empty⟩
    have heap := region.paging.heap
    rw [userPages_middle] at heap
    have moved : (tablePages u.2 : Multiset Nat) + (tablePages tables +
        targets offset s.heap.kernel (runs mids) + (userPages (before ++ after) + data)) =
        tablePages tables + (targets offset s.heap.kernel (runs mids) +
          (tablePages u.2 + userPages (before ++ after) + data)) := by ac_rfl
    rw [moved]
    exact heap
  rcases mapFreshPage_spec lower direct bits virt under with
    ⟨-, stopped⟩ | ⟨p, k'', free', T, ran', -, paging, mapped, vars, -, same, -⟩
  · rw [stopped] at ran
    cases ran
  obtain rfl := Except.ok.inj (ran'.symm.trans ran)
  -- the kernel's tables are pages like any other here
  have kernelTables : ∀ t ∈ tables, SamePage s.heap.kernel.mem k''.mem t.2 := by
    intro t member
    apply same t.2
    rw [Multiset.mem_add, Multiset.mem_add]
    exact Or.inl (Or.inl (List.mem_map_of_mem member))
  have entries : SameEntries offset (s.heap.kernel.root offset) 512 s.heap.kernel.mem k''.mem :=
    fun path ok => region.paging.tree.entryAt_frame kernelTables ok
  have words : ∀ i, 256 ≤ i → i < 512 → k''.mem (slot (k''.root offset) i) =
      s.heap.kernel.mem (slot (s.heap.kernel.root offset) i) := by
    intro i _ bound
    rw [vars.root]
    exact entries.words bound
  refine ⟨T, ⟨others, p ::ₘ data, mids, free', slabs, tables, ⟨?_, kernel.held, kernel.large⟩⟩, ?_,
    ?_⟩
  · apply region.of_entries _ region.live entries vars
    refine ⟨?_, ?_⟩
    · have heap := paging.heap
      rw [userPages_middle]
      have moved : (tablePages tables : Multiset Nat) + (targets offset s.heap.kernel (runs mids) +
          (tablePages T + userPages (before ++ after) + p ::ₘ data)) =
          tablePages T + p ::ₘ (tablePages tables + targets offset s.heap.kernel (runs mids) +
            (userPages (before ++ after) + data)) := by
        rw [← Multiset.singleton_add, ← Multiset.singleton_add]
        ac_rfl
      rw [moved]
      exact heap
    · rw [vars.root]
      exact region.paging.tree.frame kernelTables
  · rw [inv.made]
    simp
  · intro v member
    rw [List.mem_append, List.mem_cons] at member
    by_cases here : v = (u.1, T)
    · rw [here]
      refine ⟨paging.tree.root, ?_, fun _ => paging.tree⟩
      intro i high bound
      have away : ¬ [i] <:+ entryPath (pageIndex virt) := by
        intro onWay
        rcases List.suffix_cons_iff.mp onWay with short | above
        · exact absurd (congrArg List.length short) (by simp [leafPath])
        · rw [top_suffix_iff] at above
          unfold Under at under
          omega
      have kept := mapped.others [i] ⟨bound, by simp, by simp, by simp⟩ away
      rw [words i high bound, ← own.upper i high bound]
      exact kept
    · have other : v ∈ before ++ after := by
        rw [List.mem_append]
        tauto
      apply (inv.users v (by rw [List.mem_append, List.mem_cons]; tauto)).frame _ words
      intro q inTables
      apply same q
      apply Multiset.mem_add.mpr (Or.inr _)
      exact Multiset.mem_add.mpr (Or.inl (mem_userPages other inTables))

theorem HalfInv.mapFreshPages {before after : List (Made × List (List Nat × Nat))} {flags : Nat}
    (direct : Direct offset pages) (bits : FlagBits flags) (addrs : List Nat)
    (inv : HalfInv offset pages leaf₀ first last s (before ++ u :: after))
    (empty : u.1.empty = true) (user : ∀ virt ∈ addrs, virt < 2 ^ 47)
    (ran : mapFreshPages offset (u.1.pagemap.root offset) flags addrs s.heap.kernel = .ok k') :
    ∃ T, HalfInv offset pages leaf₀ first last { s with heap := { s.heap with kernel := k' } }
      (before ++ (u.1, T) :: after) := by
  induction addrs generalizing s u with
  | nil =>
      obtain rfl := Except.ok.inj ran
      exact ⟨u.2, inv⟩
  | cons virt rest ih =>
      obtain ⟨k₁, ran₁, ran⟩ := of_bind_ok ran
      obtain ⟨T, inv₁⟩ := inv.mapFreshPage direct bits empty (user virt List.mem_cons_self) ran₁
      exact ih (s := { s with heap := { s.heap with kernel := k₁ } }) (u := (u.1, T)) inv₁ empty
        (fun v member => user v (List.mem_cons_of_mem virt member)) ran

theorem HalfInv.split {i : Nat} {m : Made} (inv : HalfInv offset pages leaf₀ first last s users)
    (found : s.made[i]? = some m) : ∃ before u after, users = before ++ u :: after ∧ u.1 = m ∧
      ∀ m', s.made.set i m' = before.map Prod.fst ++ m' :: after.map Prod.fst := by
  rw [inv.made] at found ⊢
  obtain ⟨bound, same⟩ := List.getElem?_eq_some_iff.mp found
  rw [List.length_map] at bound
  refine ⟨users.take i, users[i], users.drop (i + 1), ?_, ?_, ?_⟩
  · rw [List.getElem_cons_drop, List.take_append_drop]
  · rw [← same, List.getElem_map]
  · intro m'
    rw [List.set_eq_take_append_cons_drop, List.length_map, if_pos bound, List.map_take,
      List.map_drop]

theorem HalfInv.relist {before after : List (Made × List (List Nat × Nat))} {m m' : Made}
    {T : List (List Nat × Nat)} (inv : HalfInv offset pages leaf₀ first last s
      (before ++ (m, T) :: after)) (pml4 : m'.pagemap.pml4 = m.pagemap.pml4)
    (empty : m'.empty = m.empty) :
    HalfInv offset pages leaf₀ first last
      { s with made := before.map Prod.fst ++ m' :: after.map Prod.fst }
      (before ++ (m', T) :: after) := by
  have root : m'.pagemap.root offset = m.pagemap.root offset := by
    rw [Pagemap.root, pml4, Pagemap.root]
  refine ⟨?_, by simp, ?_⟩
  · have same : userPages (before ++ (m', T) :: after) = userPages (before ++ (m, T) :: after) := by
      simp [userPages]
    rw [same]
    exact inv.kernel
  · intro v member
    rw [List.mem_append, List.mem_cons] at member
    by_cases here : v = (m', T)
    · have own := inv.users (m, T) (by simp)
      rw [here]
      refine ⟨?_, ?_, ?_⟩
      · rw [root]
        exact own.root
      · rw [root]
        exact own.upper
      · intro wasEmpty
        rw [root]
        exact own.tree (empty.symm.trans wasEmpty)
    · exact inv.users v (by rw [List.mem_append, List.mem_cons]; tauto)

theorem HalfInv.step {k₀ : Kernel} {size : Nat} {op : HalfOp} {s' : KernelHalf}
    (inv : HalfInv offset pages leaf₀ first last s users) (boot : BootFacts offset pages leaf₀ first)
    (booted : ∀ page < 2 ^ 36, k₀.leaf offset page = leaf₀ page) (allowed : op.Allowed s)
    (meets : op.Meets offset k₀ s) (next : s.step offset size op = .ok s') :
    ∃ users', HalfInv offset pages leaf₀ first last s' users' := by
  cases op with
  | call c =>
      obtain ⟨h, ran, rest⟩ := of_bind_ok next
      obtain rfl := Except.ok.inj rest
      obtain ⟨within, meets⟩ := meets
      refine ⟨users, inv.call boot within allowed ?_ ran⟩
      intro r placed
      refine ⟨?_, (meets r placed).2⟩
      intro page member
      rw [← booted page (pageLoop_lt member)]
      exact (meets r placed).1 page member
  | newPagemap =>
      obtain ⟨⟨p, k⟩, ran, rest⟩ := of_bind_ok next
      obtain rfl := Except.ok.inj rest
      exact ⟨_, inv.newPagemap boot.direct ran⟩
  | mmapRange i baseVirt sizeInBytes flags =>
      rw [KernelHalf.step] at next
      cases found : s.made[i]? with
      | none =>
          rw [found] at next
          cases next
      | some m =>
          rw [found] at next
          obtain ⟨⟨base, k⟩, ran, rest⟩ := of_bind_ok next
          obtain rfl := Except.ok.inj rest
          obtain ⟨before, u, after, rfl, rfl, -⟩ := inv.split found
          rw [Pagemap.mmapRange] at ran
          split at ran
          · cases ran
          · obtain ⟨k', mapped, rest⟩ := of_bind_ok ran
            obtain ⟨-, rfl⟩ := Prod.mk.inj (Except.ok.inj rest)
            obtain ⟨T, inv'⟩ := inv.mapFreshPages boot.direct allowed.1 _ (meets _ found) allowed.2
              mapped
            exact ⟨_, inv'⟩
  | regionAllocUser i size flags =>
      rw [KernelHalf.step] at next
      cases found : s.made[i]? with
      | none =>
          rw [found] at next
          cases next
      | some m =>
          rw [found] at next
          obtain ⟨⟨base, p, k⟩, ran, rest⟩ := of_bind_ok next
          obtain rfl := Except.ok.inj rest
          obtain ⟨before, u, after, rfl, rfl, replaced⟩ := inv.split found
          obtain ⟨bits, user⟩ := allowed
          have addresses := user _ found
          rw [Pagemap.vmmRegionAllocUser] at ran
          rw [nextRegion] at addresses
          split at ran
          · cases ran
          · rename_i front back gap
            rw [gap, Option.bind_some] at addresses
            split at ran
            · cases ran
            · rename_i prev final
              rw [final, Option.map_some] at addresses
              obtain ⟨⟨node, k₁⟩, got, ran⟩ := of_bind_ok ran
              obtain ⟨k₂, mapped, rest⟩ := of_bind_ok ran
              obtain ⟨-, same⟩ := Prod.mk.inj (Except.ok.inj rest)
              obtain ⟨rfl, rfl⟩ := Prod.mk.inj same
              have inv₁ := inv.allocNode boot.direct.usable got
              obtain ⟨T, inv₂⟩ := inv₁.mapFreshPages boot.direct bits _ (meets _ found)
                (addresses _ rfl) mapped
              dsimp only at inv₂
              rw [replaced]
              exact ⟨_, inv₂.relist rfl rfl⟩

end Steps

theorem halfReached_inv {boot : Limine} {image : KernelImage} {k₀ : Kernel} {s : KernelHalf}
    (reached : HalfReached boot image (HalfOp.Meets boot.offset) k₀ s) :
    ∃ first last users,
      BootFacts boot.offset boot.pages (bootEntry boot.offset boot.entries image) first ∧
      (∀ page < 2 ^ 36, k₀.leaf boot.offset page =
        bootEntry boot.offset boot.entries image page) ∧
      HalfInv boot.offset boot.pages (bootEntry boot.offset boot.entries image) first last s
        users := by
  induction reached with
  | start pmm vmm =>
      obtain ⟨first, last, free, slabs, tables, inv, ends, -⟩ := booted_inv pmm vmm
      refine ⟨first, last, [], boot_facts boot image ends, ?_, ⟨?_, rfl, ?_⟩⟩
      · exact fun page bound => inv.rest page bound List.not_mem_nil
      · exact ⟨_, 0, [], free, slabs, tables, inv.start⟩
      · exact fun u member => absurd member List.not_mem_nil
  | step _ allowed meets next ih =>
      obtain ⟨first, last, users, boot, booted, inv⟩ := ih
      obtain ⟨users', inv'⟩ := inv.step boot booted allowed meets next
      exact ⟨first, last, users', boot, booted, inv'⟩

/-- Along every run whose steps all meet the condition, there is one kernel half. -/
theorem kernel_half_shared (boot : Limine) (image : KernelImage) (k₀ : Kernel) (s : KernelHalf)
    (reached : HalfReached boot image (HalfOp.Meets boot.offset) k₀ s) :
    OneKernelHalf boot.offset s := by
  obtain ⟨first, last, users, facts, -, inv⟩ := halfReached_inv reached
  intro m member
  rw [inv.made] at member
  obtain ⟨u, inUsers, rfl⟩ := List.mem_map.mp member
  have own := inv.users u inUsers
  refine ⟨fun virt high word => own.translate high word, ?_⟩
  intro b inBlocks i inside high
  obtain ⟨others, data, mids, free, slabs, tables, kernel⟩ := inv.kernel
  obtain ⟨target, found, -⟩ := kernel.translate_block facts inBlocks inside
  rw [own.translate high (add64_lt _ _), Kernel.translate, found]
  exact Option.some_ne_none target

/-- A machine with 1 GiB whose direct map ends, as the loops count it, where the reach of a top
entry ends. -/
def edgeMachine : Limine where
  offset := 0xffff807ec0000000
  entries := [⟨0x40000000, 0x40000000, .usable⟩]
  offset_aligned := by decide
  offset_high := by decide
  offset_word := by decide
  nonempty := by decide
  aligned := by decide
  not_zero := by decide
  room := by decide
  disjoint := by decide

def edgePaths : List (List Nat) :=
  [[], [256], [511], [510, 511], [0, 510, 511]] ++ (List.range 4).map (fun i => [507 + i, 256]) ++
    (List.range 2048).map fun n => [n % 512, 507 + n / 512, 256]

theorem edge_pages : edgeMachine.pages.length = 262144 := by
  simp [Limine.pages, Limine.usable, edgeMachine, entryPages, pageOffsets]

theorem edge_hhdmPages : hhdmPagesOf edgeMachine.entries = 2 ^ 32 + 2 ^ 30 := by
  have only (e : MemmapEntry) : entriesCount [e] 0 = hhdmCount (directOffsets e) 0 := rfl
  have entry : entriesCount edgeMachine.entries 0 = 2 ^ 30 := by
    rw [edgeMachine, only]
    simp only [directOffsets, mappedLength]
    rw [hhdmCount_pageOffsets _ (Nat.two_pow_pos 64)]
    decide
  rw [hhdmPagesOf, entry, hhdmCount_pageOffsets _ (by omega)]
  decide

theorem edge_hhdmMaps {m : Nat × Nat}
    (member : m ∈ hhdmMaps edgeMachine.offset edgeMachine.entries) :
    m.1 = add64 edgeMachine.offset m.2 ∧ m.2 < 2 ^ 32 :=
  low_hhdmMaps edgeMachine (by decide) member

theorem edge_covers : BootPaths edgeMachine machineImage fun path => path ∈ edgePaths := by
  refine ⟨by simp [edgePaths], ?_⟩
  intro m member
  rcases List.mem_append.mp member with kernel | direct
  · rw [machine_imageMaps kernel]
    have place : leafPath (pageIndex 0xffffffff80000000) = [0, 510, 511] := by decide
    intro path suffix
    dsimp only at suffix
    rw [place] at suffix
    simp only [List.suffix_cons_iff, List.suffix_nil] at suffix
    rcases suffix with rfl | rfl | rfl | rfl <;> simp [edgePaths]
  · obtain ⟨at_, small⟩ := edge_hhdmMaps direct
    rw [at_]
    generalize m.2 = x at small ⊢
    intro path suffix
    have place : leafPath (pageIndex (add64 edgeMachine.offset x)) =
        [x / 2 ^ 21 % 512, 507 + x / 2 ^ 30, 256] := by
      simp only [leafPath, pageIndex, add64, edgeMachine, List.cons.injEq, and_true]
      omega
    rw [place] at suffix
    simp only [List.suffix_cons_iff, List.suffix_nil] at suffix
    simp only [edgePaths, List.mem_append, List.mem_cons, List.mem_map, List.mem_range,
      List.not_mem_nil, or_false]
    rcases suffix with rfl | rfl | rfl | rfl
    · refine Or.inr ⟨x / 2 ^ 21, by omega, ?_⟩
      simp only [List.cons.injEq, and_true, true_and]
      omega
    · exact Or.inl (Or.inr ⟨x / 2 ^ 30, by omega, rfl⟩)
    · simp
    · simp

def edgePage : Nat := 0xffff808000000000

theorem edge_clear : bootEntry edgeMachine.offset edgeMachine.entries machineImage
    (pageIndex edgePage) = 0 := by
  have none : lastPhys (bootMaps edgeMachine.offset edgeMachine.entries machineImage)
      (pageIndex edgePage) = none := by
    apply lastPhys_eq_none
    intro m member
    rcases List.mem_append.mp member with kernel | direct
    · rw [machine_imageMaps kernel]
      decide
    · obtain ⟨place, small⟩ := edge_hhdmMaps direct
      rw [place]
      unfold pageIndex add64 edgeMachine edgePage
      dsimp only
      omega
  rw [bootEntry, none]

/-- Boot, a pagemap, and a block of one page: its region needs a new top entry, which the pagemap
does not get. -/
theorem kernel_half_differs : ∃ (k₀ : Kernel) (s : KernelHalf) (m : Made),
    HalfReached edgeMachine machineImage (fun _ _ _ => True) k₀ s ∧ m ∈ s.made ∧
    (edgePage, 4096) ∈ s.heap.blocks ∧
    s.heap.kernel.translate edgeMachine.offset edgePage ≠ none ∧
    translate edgeMachine.offset s.heap.kernel.mem m.pagemap.pml4 edgePage = none ∧
    ¬ OneKernelHalf edgeMachine.offset s := by
  have paths : edgePaths.length = 2057 := by simp [edgePaths]
  have direct := pages_direct edgeMachine
  obtain ⟨k, k₀, free, slabs, tables, first, last, pmm, vmm, inv, ends, base, length, final, -,
    many, known⟩ := boot_of_enough edgeMachine machineImage (fun _ => 0) edgePaths edge_covers
      (by rw [paths, edge_pages]; decide)
  rw [paths, edge_pages] at many
  have stop : first.stop = edgePage := by
    rw [VmmRegion.stop, base, length, edge_hhdmPages]
    decide
  have rounded : alignUp 4096 4096 = 4096 := by decide
  -- the slot of that page is empty after boot
  have slotIndex : pageIndex edgePage / 2 ^ 27 % 512 = 257 := by decide
  have absent : ¬ Present (k₀.mem (slot (k₀.root edgeMachine.offset) 257)) := by
    intro present
    have down := inv.paging.tree.down [] _ 257 inv.paging.tree.root
      ⟨by decide, by decide, by decide⟩ present
    have listed : [257] ∈ edgePaths := known _ down
    simp [edgePaths] at listed
  have start : KernelInv edgeMachine.offset edgeMachine.pages
      (bootEntry edgeMachine.offset edgeMachine.entries machineImage) first last
      (setupNodes first last) 0 ⟨k₀, [], []⟩ [] free slabs tables := inv.start
  rcases start.region.newPagemap_spec direct (machineImage.virtualBase + machineImage.size) with
    ⟨few, -⟩ | ⟨p, k₁, free₁, slabs₁, others₁, ran₁, -, inv₁, upper, entries₁, vars₁, taken₁, -⟩
  · omega
  have fewer := taken₁.few
  rcases vmmRegionAlloc_spec inv₁ direct ends presentRw_bits (show 1 ≤ 4096 by decide) (by decide)
    with ⟨few, -⟩ | ⟨full, -⟩ | ⟨r, k₂, before, after, free₂, slabs₂, tables₂, ran₂, next₂, split,
      -, -, -, -, -, -, -, -, others₂, added⟩
  · rw [rounded] at few
    omega
  · have fit : fits 4096 first last = true := by
      rw [fits, decide_eq_true_eq, rounded, stop, final]
      decide
    rw [vars₁.regions, inv.list, List.nil_append, findGap, findPair, if_pos fit] at full
    cases full
  have fit : fits 4096 first last = true := by
    rw [fits, decide_eq_true_eq, rounded, stop, final]
    decide
  have place : r = ⟨r.addr, edgePage, 4096⟩ := by
    rw [nextRegion, vars₁.regions, inv.list, List.nil_append, findGap, findPair, if_pos fit] at next₂
    simp only [Option.bind_some, List.getLast?_singleton, Option.map_some, newRegion, stop,
      rounded] at next₂
    exact (Option.some.inj next₂).symm
  have shape : run r = [pageIndex edgePage] := by
    rw [place]
    exact show pageLoop edgePage (4096 / 4096) = [pageIndex edgePage] by decide
  have here : pageIndex edgePage ∈ run r := by
    rw [shape]
    exact List.mem_singleton_self _
  have clear : Clear (bootEntry edgeMachine.offset edgeMachine.entries machineImage) r := by
    intro page member
    rw [shape] at member
    rw [List.mem_singleton.mp member, edge_clear]
    decide
  have region := (added clear).2
  have present := (region.mapped _ (mem_runs_middle.mpr (Or.inl here))).present
  have mapped : k₂.translate edgeMachine.offset edgePage ≠ none := by
    rw [ne_eq, translate_none_iff, not_not]
    exact present
  -- the new table kept the word it copied
  have missing : ¬ Present (k₂.mem (slot (p.root edgeMachine.offset)
      (pageIndex edgePage / 2 ^ 27 % 512))) := by
    rw [slotIndex, others₂ _ (Multiset.mem_cons_self _ _) _ (slot_inPage (by decide)),
      upper 257 (by decide) (by decide), vars₁.root]
    have same := entries₁.words (show 257 < 512 by decide)
    rw [same]
    exact absent
  have unmapped : translate edgeMachine.offset k₂.mem p.pml4 edgePage = none := by
    rw [translate, ← Pagemap.root, leafEntry_of_root_absent missing]
    rfl
  have step₁ : KernelHalf.step edgeMachine.offset (machineImage.virtualBase + machineImage.size)
      ⟨⟨k₀, [], []⟩, []⟩ .newPagemap =
      .ok ⟨⟨k₁, [], []⟩, [⟨p, lowerEmpty edgeMachine.offset k₁.mem p⟩]⟩ := by
    rw [KernelHalf.step, ran₁, ok_bind]
  have step₂ : KernelHalf.step edgeMachine.offset (machineImage.virtualBase + machineImage.size)
      ⟨⟨k₁, [], []⟩, [⟨p, lowerEmpty edgeMachine.offset k₁.mem p⟩]⟩ (.call (.kmalloc 4096)) =
      .ok ⟨⟨k₂, [(r.base, 4096)], []⟩, [⟨p, lowerEmpty edgeMachine.offset k₁.mem p⟩]⟩ := by
    rw [KernelHalf.step, KernelHeap.step, kmalloc, if_neg (by decide), rounded, ran₂, ok_bind,
      ok_bind]
  have allowed₁ : HalfOp.newPagemap.Allowed ⟨⟨k₀, [], []⟩, []⟩ := trivial
  have allowed₂ : (HalfOp.call (.kmalloc 4096)).Allowed
      ⟨⟨k₁, [], []⟩, [⟨p, lowerEmpty edgeMachine.offset k₁.mem p⟩]⟩ := trivial
  have booted : HalfReached edgeMachine machineImage (fun _ _ _ => True) k₀ ⟨⟨k₀, [], []⟩, []⟩ :=
    .start pmm vmm
  have reached := (booted.step allowed₁ trivial step₁).step allowed₂ trivial step₂
  have base₂ : r.base = edgePage := by rw [place]
  refine ⟨k₀, _, _, reached, List.mem_singleton_self _, ?_, mapped, unmapped, ?_⟩
  · rw [base₂]
    exact List.mem_singleton_self _
  · intro shared
    obtain ⟨same, -⟩ := shared _ (List.mem_singleton_self _)
    apply mapped
    rw [← same edgePage (by decide) (by decide)]
    exact unmapped

/-- The same on a machine with room below the next top entry: a pagemap and a block. -/
theorem kernel_half_shared_machine : ∃ (k₀ : Kernel) (s : KernelHalf),
    HalfReached machine machineImage (HalfOp.Meets machine.offset) k₀ s ∧ s.made ≠ [] ∧
    s.heap.blocks ≠ [] ∧ OneKernelHalf machine.offset s := by
  have paths : machinePaths.length = 2057 := by simp [machinePaths]
  have direct := pages_direct machine
  obtain ⟨k, k₀, free, slabs, tables, first, last, pmm, vmm, inv, ends, -, -, -, -, many, -⟩ :=
    boot_of_enough machine machineImage (fun _ => 0) machinePaths machine_covers
      (by rw [paths, machine_pages]; decide)
  rw [paths, machine_pages] at many
  have start : KernelInv machine.offset machine.pages
      (bootEntry machine.offset machine.entries machineImage) first last
      (setupNodes first last) 0 ⟨k₀, [], []⟩ [] free slabs tables := inv.start
  rcases start.region.newPagemap_spec direct (machineImage.virtualBase + machineImage.size) with
    ⟨few, -⟩ | ⟨p, k₁, free₁, slabs₁, others₁, ran₁, -, inv₁, -, -, -, taken₁, -⟩
  · omega
  have fewer := taken₁.few
  rcases inv₁.allocObject direct.usable (show 16 < 1024 by decide) with
    ⟨rfl, -⟩ | ⟨x, k₂, free₂, slabs₂, ran₂, -⟩
  · rw [List.length_nil] at fewer
    omega
  have step₁ : KernelHalf.step machine.offset (machineImage.virtualBase + machineImage.size)
      ⟨⟨k₀, [], []⟩, []⟩ .newPagemap =
      .ok ⟨⟨k₁, [], []⟩, [⟨p, lowerEmpty machine.offset k₁.mem p⟩]⟩ := by
    rw [KernelHalf.step, ran₁, ok_bind]
  have step₂ : KernelHalf.step machine.offset (machineImage.virtualBase + machineImage.size)
      ⟨⟨k₁, [], []⟩, [⟨p, lowerEmpty machine.offset k₁.mem p⟩]⟩ (.call (.kmalloc 16)) =
      .ok ⟨⟨k₂, [(x, 16)], []⟩, [⟨p, lowerEmpty machine.offset k₁.mem p⟩]⟩ := by
    rw [KernelHalf.step, KernelHeap.step, kmalloc, if_pos (by decide), ran₂, ok_bind, ok_bind]
  have meets₂ : HalfOp.Meets machine.offset k₀
      ⟨⟨k₁, [], []⟩, [⟨p, lowerEmpty machine.offset k₁.mem p⟩]⟩ (.call (.kmalloc 16)) := by
    refine ⟨show 16 < 2 ^ 31 by decide, ?_⟩
    rintro r ⟨node, size, asked, -⟩
    cases asked
  have allowed₁ : HalfOp.newPagemap.Allowed ⟨⟨k₀, [], []⟩, []⟩ := trivial
  have meets₁ : HalfOp.newPagemap.Meets machine.offset k₀ ⟨⟨k₀, [], []⟩, []⟩ := trivial
  have allowed₂ : (HalfOp.call (.kmalloc 16)).Allowed
      ⟨⟨k₁, [], []⟩, [⟨p, lowerEmpty machine.offset k₁.mem p⟩]⟩ := trivial
  have booted : HalfReached machine machineImage (HalfOp.Meets machine.offset) k₀
      ⟨⟨k₀, [], []⟩, []⟩ := .start pmm vmm
  have reached := (booted.step allowed₁ meets₁ step₁).step allowed₂ meets₂ step₂
  exact ⟨k₀, _, reached, List.cons_ne_nil _ _, List.cons_ne_nil _ _,
    kernel_half_shared machine machineImage k₀ _ reached⟩

end Nyaux.Mm
