import Nyaux.Mm.RegionPages

/-! The kernel's region list, its page tables and the pages of its regions, together.

`leaf₀` is the pagemap as `vmm_init` left it. -/

namespace Nyaux.Mm

open Word Memory Paging

/-- The virtual pages of a region. -/
def run (r : VmmRegion) : List Nat := pageLoop r.base (r.length / 4096)

def runs (regions : List VmmRegion) : List Nat := regions.flatMap run

def nodes (regions : List VmmRegion) : Multiset (Nat × Nat) :=
  (regions.map fun r => (r.addr, cacheFor 32) : List (Nat × Nat))

/-- The two regions of `vmm_region_setup`: the first starts where the direct map does, and
its first page is mapped. -/
structure Ends (offset : Nat) (leaf₀ : Nat → Nat) (first : VmmRegion) : Prop where
  base : first.base = offset
  aligned : 4096 ∣ first.stop
  mapped : Present (leaf₀ (pageIndex offset))
  blank : ∀ page < 2 ^ 36, ¬ Present (leaf₀ page) → leaf₀ page = 0

def wall (offset : Nat) (first : VmmRegion) : Nat := sub64 offset first.stop % 2 ^ 48

/-- A region that does not overlap what `vmm_init` mapped. -/
def Clear (leaf₀ : Nat → Nat) (r : VmmRegion) : Prop := ∀ page ∈ run r, ¬ Present (leaf₀ page)

structure RegionOk (offset : Nat) (leaf₀ : Nat → Nat) (first r : VmmRegion) : Prop where
  base : 4096 ∣ r.base
  pages : 4096 ∣ r.length
  nonempty : 0 < r.length
  short : r.length ≤ 2 ^ 31
  clear : Clear leaf₀ r
  window : pos first.stop r + r.length ≤ wall offset first

/-- `blocks` are the slab objects in use beside the list nodes, `extra` the pages in use that
the kernel's pagemap does not lead to. -/
structure RegionInv (offset : Nat) (pages : List Nat) (leaf₀ : Nat → Nat) (first last : VmmRegion)
    (k : Kernel) (mids : List VmmRegion) (free : List Nat) (slabs : List Slab)
    (tables : List (List Nat × Nat)) (blocks : Multiset (Nat × Nat)) (extra : Multiset Nat) :
    Prop where
  paging : KernelPaging offset pages k free slabs tables
    ((targets offset k (runs mids) : Multiset Nat) + extra)
  live : liveObjects slabs = nodes mids + blocks
  list : k.regions = first :: (mids ++ [last])
  layout : Layout first.stop first mids last
  region : ∀ r ∈ mids, RegionOk offset leaf₀ first r
  mapped : ∀ page ∈ runs mids, DataEntry offset (k.leaf offset page)
  rest : ∀ page < 2 ^ 36, page ∉ runs mids → k.leaf offset page = leaf₀ page

theorem runs_middle (before after : List VmmRegion) (r : VmmRegion) :
    (runs (before ++ r :: after)).Perm (run r ++ runs (before ++ after)) := by
  simp only [runs, List.flatMap_append, List.flatMap_cons, ← List.append_assoc]
  exact List.Perm.append_right _ List.perm_append_comm

theorem mem_runs_middle {before after : List VmmRegion} {r : VmmRegion} {page : Nat} :
    page ∈ runs (before ++ r :: after) ↔ page ∈ run r ∨ page ∈ runs (before ++ after) := by
  rw [(runs_middle before after r).mem_iff, List.mem_append]

theorem runs_lt {regions : List VmmRegion} {page : Nat} (member : page ∈ runs regions) :
    page < 2 ^ 36 := by
  obtain ⟨r, -, inRun⟩ := List.mem_flatMap.mp member
  exact pageLoop_lt inRun

theorem targets_middle (offset : Nat) (k : Kernel) (before after : List VmmRegion)
    (r : VmmRegion) : (targets offset k (runs (before ++ r :: after)) : Multiset Nat) =
      (targets offset k (run r) : Multiset Nat) + targets offset k (runs (before ++ after)) := by
  rw [Multiset.coe_add, ← targets_append]
  exact Multiset.coe_eq_coe.mpr ((runs_middle before after r).map _)

theorem nodes_middle (before after : List VmmRegion) (r : VmmRegion) :
    nodes (before ++ r :: after) = (r.addr, cacheFor 32) ::ₘ nodes (before ++ after) := by
  rw [nodes, nodes, Multiset.cons_coe]
  exact Multiset.coe_eq_coe.mpr (List.perm_middle.map fun x : VmmRegion => (x.addr, cacheFor 32))

theorem removeRegion_found {base : Nat} {r last : VmmRegion} {regions rest : List VmmRegion}
    (final : regions.getLast? = some last) (other : last.base ≠ base)
    (found : removeRegion base regions = .found r rest) :
    nodes regions = (r.addr, cacheFor 32) ::ₘ nodes rest ∧ rest.getLast? = some last := by
  cases regions with
  | nil => cases final
  | cons first tail =>
      rw [removeRegion] at found
      by_cases here : first.base = base
      · rw [if_pos here] at found
        split at found
        · rename_i alone
          rw [alone] at final
          obtain rfl := Option.some.inj final
          exact absurd here other
        · cases found
      · rw [if_neg here] at found
        obtain ⟨perm, ends⟩ := removeAfter_found final other found
        exact ⟨Multiset.coe_eq_coe.mpr (perm.map fun x => (x.addr, cacheFor 32)), ends⟩

section Positions

variable {offset : Nat} {leaf₀ : Nat → Nat} {first last r : VmmRegion}

theorem mem_run {origin page : Nat} (aligned : 4096 ∣ origin) (word : r.base < 2 ^ 64)
    (base : 4096 ∣ r.base) (whole : 4096 ∣ r.length) (short : r.length ≤ 2 ^ 31) :
    page ∈ run r ↔ ∃ q, pos origin r ≤ 4096 * q ∧ 4096 * q < pos origin r + r.length ∧
      page = (origin / 4096 + q) % 2 ^ 36 := by
  have start := base_eq_pos origin word
  rw [run, mem_pageLoop (by omega)]
  generalize pos origin r = p at *
  unfold add64 at start
  constructor
  · rintro ⟨i, inside, rfl⟩
    exact ⟨p / 4096 + i, by omega, by omega, by omega⟩
  · rintro ⟨q, lower, upper, rfl⟩
    exact ⟨q - p / 4096, by omega, by omega⟩

theorem wall_page (ends : Ends offset leaf₀ first) (direct : 4096 ∣ offset) :
    4096 ∣ wall offset first ∧
      (first.stop / 4096 + wall offset first / 4096) % 2 ^ 36 = pageIndex offset := by
  have aligned := ends.aligned
  unfold wall sub64 pageIndex
  omega

theorem clear_window (ends : Ends offset leaf₀ first) (direct : 4096 ∣ offset)
    (word : r.base < 2 ^ 64) (base : 4096 ∣ r.base) (whole : 4096 ∣ r.length)
    (short : r.length ≤ 2 ^ 31) (clear : Clear leaf₀ r)
    (start : pos first.stop r ≤ wall offset first) :
    pos first.stop r + r.length ≤ wall offset first := by
  obtain ⟨whole_wall, here⟩ := wall_page ends direct
  by_contra beyond
  have inRun : pageIndex offset ∈ run r := by
    apply (mem_run ends.aligned word base whole short).mpr
    exact ⟨wall offset first / 4096, by omega, by omega, here.symm⟩
  exact clear _ inRun ends.mapped

theorem runs_separate {before after : List VmmRegion} (ends : Ends offset leaf₀ first)
    (layout : Layout first.stop first (before ++ r :: after) last)
    (ok : ∀ x ∈ before ++ r :: after, RegionOk offset leaf₀ first x) :
    ∀ page ∈ run r, page ∉ runs (before ++ after) := by
  intro page inRun inRuns
  obtain ⟨s, inMids, inOther⟩ := List.mem_flatMap.mp inRuns
  have split := List.mem_append.mp inMids
  have okR := ok r (by simp)
  have okS := ok s (by
    rw [List.mem_append, List.mem_cons]
    tauto)
  have wordR := layout.words r (by simp)
  have wordS := layout.words s (by
    rw [List.mem_append, List.mem_append, List.mem_cons]
    tauto)
  obtain ⟨p, lowerP, upperP, pageP⟩ :=
    (mem_run ends.aligned wordR okR.base okR.pages okR.short).mp inRun
  obtain ⟨q, lowerQ, upperQ, pageQ⟩ :=
    (mem_run ends.aligned wordS okS.base okS.pages okS.short).mp inOther
  have windowR := okR.window
  have windowS := okS.window
  have small : wall offset first < 2 ^ 48 := Nat.mod_lt _ (by decide)
  have ordered : pos first.stop s + s.length ≤ pos first.stop r ∨
      pos first.stop r + r.length ≤ pos first.stop s := by
    have sorted := (List.pairwise_append.mp layout.sorted).1
    rw [List.pairwise_append, List.pairwise_cons] at sorted
    rcases split with left | right
    · exact Or.inl (sorted.2.2 s left r List.mem_cons_self)
    · exact Or.inr (sorted.2.1.1 s right)
  omega

end Positions

section Node

variable {offset : Nat} {pages : List Nat} {k : Kernel} {free : List Nat} {slabs : List Slab}
  {tables : List (List Nat × Nat)} {data : Multiset Nat}

theorem KernelPaging.setRegions (inv : KernelPaging offset pages k free slabs tables data)
    (regions : List VmmRegion) :
    KernelPaging offset pages { k with regions := regions } free slabs tables data :=
  ⟨⟨inv.heap.pages, inv.heap.list, inv.heap.slab, inv.heap.count, inv.heap.caches⟩, inv.tree⟩

theorem SameEntries.kernel_leaf {k k' : Kernel}
    (same : SameEntries offset (k.root offset) 512 k.mem k'.mem) (vars : SameVars k k')
    (page : Nat) : k'.leaf offset page = k.leaf offset page := by
  rw [Kernel.leaf, vars.root]
  exact same.leaf (under_all page)

theorem PagingInv.heap_step {root limit : Nat}
    (inv : PagingInv offset pages root limit k free slabs tables data) {k' : Kernel}
    {free' : List Nat} {slabs' : List Slab}
    (heap : HeapInv pages 8 k' free' slabs' (tablePages tables + data))
    (others : SameOthers k k' (tablePages tables + data)) :
    PagingInv offset pages root limit k' free' slabs' tables data ∧
      SameEntries offset root limit k.mem k'.mem ∧ SameOthers k k' data := by
  have same : ∀ t ∈ tables, SamePage k.mem k'.mem t.2 :=
    fun t member => others t.2 (Multiset.mem_add.mpr (Or.inl (List.mem_map_of_mem member)))
  exact ⟨⟨heap, inv.tree.frame same⟩, fun path ok => inv.tree.entryAt_frame same ok,
    fun q member => others q (Multiset.mem_add.mpr (Or.inr member))⟩

theorem PagingInv.kmallocSlab_spec {root limit : Nat}
    (inv : PagingInv offset pages root limit k free slabs tables data)
    (usable : Usable pages) {size : Nat} (small : size < 1024) :
    (free = [] ∧ kmallocSlab offset size k = .error .outOfMemory) ∨
      ∃ x k' free' slabs', kmallocSlab offset size k = .ok (x, k') ∧ x ≠ 0 ∧
        PagingInv offset pages root limit k' free' slabs' tables data ∧
        liveObjects slabs' = (x, cacheFor size) ::ₘ liveObjects slabs ∧
        SameEntries offset root limit k.mem k'.mem ∧ SameVars k k' ∧
        Taken 1 free free' ∧ SameOthers k k' data ∧ SameOthers k k' (free' : Multiset Nat) ∧
        Handed slabs slabs' k.mem k'.mem (cacheFor size) x := by
  rcases Mm.kmallocSlab_spec inv.heap usable small offset with
    stopped | ⟨x, k', free', slabs', ran, heap, live, others, vars, taken, rest⟩
  · exact Or.inl stopped
  · obtain ⟨inv', entries, kept⟩ := inv.heap_step heap others
    have inLive : (x, cacheFor size) ∈ liveObjects slabs' := by
      rw [live]
      exact Multiset.mem_cons_self _ _
    obtain ⟨s, member, object, -⟩ := mem_liveObjects.mp inLive
    obtain ⟨lower, -, -⟩ := object_bounds ((heap.slab s member).live_mem object)
    exact Or.inr ⟨x, k', free', slabs', ran, by omega, inv', live, entries, vars, taken, kept,
      rest⟩

theorem PagingInv.allocNode_spec {root limit : Nat}
    (inv : PagingInv offset pages root limit k free slabs tables data) (usable : Usable pages) :
    (free = [] ∧ allocNode offset k = .error .outOfMemory) ∨
      ∃ x k' free' slabs', allocNode offset k = .ok (x, k') ∧
        PagingInv offset pages root limit k' free' slabs' tables data ∧
        liveObjects slabs' = (x, cacheFor 32) ::ₘ liveObjects slabs ∧
        SameEntries offset root limit k.mem k'.mem ∧ SameVars k k' ∧
        Taken 1 free free' ∧ SameOthers k k' data ∧ SameOthers k k' (free' : Multiset Nat) ∧
        Handed slabs slabs' k.mem k'.mem (cacheFor 32) x := by
  rcases inv.kmallocSlab_spec usable (show 32 < 1024 by decide) with
    ⟨empty, stopped⟩ | ⟨x, k', free', slabs', ran, nonzero, others⟩
  · exact Or.inl ⟨empty, by rw [allocNode, stopped, error_bind]⟩
  · refine Or.inr ⟨x, k', free', slabs', ?_, others⟩
    rw [allocNode, ran, ok_bind]
    dsimp only
    rw [if_neg nonzero]

theorem kmallocSlab_paging (inv : KernelPaging offset pages k free slabs tables data)
    (usable : Usable pages) {size : Nat} (small : size < 1024) :
    (free = [] ∧ kmallocSlab offset size k = .error .outOfMemory) ∨
      ∃ x k' free' slabs', kmallocSlab offset size k = .ok (x, k') ∧ x ≠ 0 ∧
        KernelPaging offset pages k' free' slabs' tables data ∧
        liveObjects slabs' = (x, cacheFor size) ::ₘ liveObjects slabs ∧
        SameEntries offset (k.root offset) 512 k.mem k'.mem ∧ SameVars k k' ∧
        Taken 1 free free' ∧ SameOthers k k' data ∧ SameOthers k k' (free' : Multiset Nat) := by
  rcases PagingInv.kmallocSlab_spec inv usable small with
    stopped | ⟨x, k', free', slabs', ran, nonzero, inv', live, entries, vars, taken, others, rest, -⟩
  · exact Or.inl stopped
  · rw [← vars.root] at inv'
    exact Or.inr ⟨x, k', free', slabs', ran, nonzero, inv', live, entries, vars, taken, others, rest⟩

theorem allocNode_spec (inv : KernelPaging offset pages k free slabs tables data)
    (usable : Usable pages) :
    (free = [] ∧ allocNode offset k = .error .outOfMemory) ∨
      ∃ x k' free' slabs', allocNode offset k = .ok (x, k') ∧
        KernelPaging offset pages k' free' slabs' tables data ∧
        liveObjects slabs' = (x, cacheFor 32) ::ₘ liveObjects slabs ∧
        SameEntries offset (k.root offset) 512 k.mem k'.mem ∧ SameVars k k' ∧
        Taken 1 free free' ∧ SameOthers k k' data ∧ SameOthers k k' (free' : Multiset Nat) := by
  rcases PagingInv.allocNode_spec inv usable with
    stopped | ⟨x, k', free', slabs', ran, inv', live, entries, vars, taken, others, rest, -⟩
  · exact Or.inl stopped
  · rw [← vars.root] at inv'
    exact Or.inr ⟨x, k', free', slabs', ran, inv', live, entries, vars, taken, others, rest⟩

theorem free_paging (inv : KernelPaging offset pages k free slabs tables data)
    (usable : Usable pages) {x c : Nat} (live : (x, c) ∈ liveObjects slabs) :
    ∃ k' slabs', Mm.free x k = .ok k' ∧ KernelPaging offset pages k' free slabs' tables data ∧
      (x, c) ::ₘ liveObjects slabs' = liveObjects slabs ∧
      SameEntries offset (k.root offset) 512 k.mem k'.mem ∧ SameVars k k' ∧
      SameOthers k k' data := by
  obtain ⟨k', slabs', ran, heap, removed, others, vars, -⟩ := free_spec inv.heap usable live
  obtain ⟨inv', entries, kept⟩ := PagingInv.heap_step inv heap others
  rw [← vars.root] at inv'
  exact ⟨k', slabs', ran, inv', removed, entries, vars, kept⟩

end Node

end Nyaux.Mm
