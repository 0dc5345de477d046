import Nyaux.Lib.ByteImage
import Nyaux.Mm.FreshPages
import Nyaux.Mm.KernelCalls
import Nyaux.Mm.KernelRegions

/-! The user half of one pagemap, beside all that the kernel allocates for itself.

`stock` is what is known of the free blocks of the heap. -/

namespace Nyaux.Mm

open Word Memory Paging

/-- Knowledge of the free blocks that outlasts writes elsewhere, and blocks of cache `c` that are
handed out. -/
structure Stable (stock : Mem → List Slab → Prop) (c : Nat) : Prop where
  frame : ∀ mem mem' slabs, stock mem slabs → (∀ t ∈ slabs, SlabOk mem t) →
    (∀ q ∈ slabPages slabs, SamePage mem mem' q) → stock mem' slabs
  handed : ∀ mem mem' slabs slabs' x, stock mem slabs → Handed slabs slabs' mem mem' c x →
    stock mem' slabs'

def Served (stock : Mem → List Slab → Prop) (mem' : Mem) (c x : Nat) : Prop :=
  ∃ mem slabs, stock mem slabs ∧ Recycled slabs mem mem' c x

def HeapReady (offset : Nat) (pages : List Nat) (stock : Mem → List Slab → Prop)
    (data : Multiset Nat) (k : Kernel) : Prop :=
  ∃ free slabs tables new, KernelPaging offset pages k free slabs tables (new + data) ∧
    stock k.mem slabs

structure KernelStep (offset : Nat) (pages : List Nat) (stock : Mem → List Slab → Prop)
    (data : Multiset Nat) (k k' : Kernel) : Prop where
  ready : HeapReady offset pages stock data k'
  same : SameOthers k k' data
  pml4 : k'.pml4 = k.pml4

section Kernel

variable {offset : Nat} {pages : List Nat} {stock : Mem → List Slab → Prop} {data : Multiset Nat}
  {k k' k'' : Kernel} {flags : Nat}

theorem KernelStep.refl (ready : HeapReady offset pages stock data k) :
    KernelStep offset pages stock data k k :=
  ⟨ready, fun q _ => SamePage.refl k.mem q, rfl⟩

theorem KernelStep.trans (first : KernelStep offset pages stock data k k')
    (second : KernelStep offset pages stock data k' k'') :
    KernelStep offset pages stock data k k'' :=
  ⟨second.ready, first.same.trans second.same, second.pml4.trans first.pml4⟩

theorem HeapReady.mono {stock' : Mem → List Slab → Prop}
    (ready : HeapReady offset pages stock data k)
    (weaker : ∀ mem slabs, stock mem slabs → stock' mem slabs) :
    HeapReady offset pages stock' data k := by
  obtain ⟨free, slabs, tables, new, inv, known⟩ := ready
  exact ⟨free, slabs, tables, new, inv, weaker _ _ known⟩

theorem HeapReady.setRegions (ready : HeapReady offset pages stock data k)
    (regions : List VmmRegion) : HeapReady offset pages stock data { k with regions := regions } := by
  obtain ⟨free, slabs, tables, new, inv, known⟩ := ready
  exact ⟨free, slabs, tables, new, inv.setRegions regions, known⟩

theorem HeapReady.kmallocSlab (ready : HeapReady offset pages stock data k) (usable : Usable pages)
    {size x : Nat} (small : size < 1024) (ran : kmallocSlab offset size k = .ok (x, k')) :
    Served stock k'.mem (cacheFor size) x ∧
      (Stable stock (cacheFor size) → KernelStep offset pages stock data k k') := by
  obtain ⟨free, slabs, tables, new, inv, known⟩ := ready
  rcases PagingInv.kmallocSlab_spec inv usable small with
    ⟨-, stopped⟩ |
    ⟨y, k'', free', slabs', ran', -, inv', -, -, vars, -, same, -, handed⟩
  · rw [stopped] at ran
    cases ran
  obtain ⟨rfl, rfl⟩ := Prod.mk.inj (Except.ok.inj (ran'.symm.trans ran))
  rw [← vars.root] at inv'
  refine ⟨⟨k.mem, slabs, known, handed.block⟩, fun stable => ⟨⟨free', slabs', tables, new, inv', ?_⟩,
    ?_, vars.pml4⟩⟩
  · exact stable.handed _ _ _ _ _ known handed
  · exact fun q member => same q (Multiset.mem_add.mpr (Or.inr member))

theorem HeapReady.allocNode (ready : HeapReady offset pages stock data k) (usable : Usable pages)
    (nodes : Stable stock (cacheFor 32)) {node : Nat}
    (ran : allocNode offset k = .ok (node, k')) : KernelStep offset pages stock data k k' := by
  obtain ⟨⟨x, k₁⟩, got, rest⟩ := of_bind_ok ran
  dsimp only at rest
  split at rest
  · cases rest
  · obtain ⟨-, rfl⟩ := Prod.mk.inj (Except.ok.inj rest)
    exact (ready.kmallocSlab usable (by decide) got).2 nodes

theorem HeapReady.mapFreshPage (ready : HeapReady offset pages stock data k)
    (direct : Direct offset pages) (nodes : Stable stock (cacheFor 32)) (bits : FlagBits flags)
    {virt : Nat}
    (ran : mapFreshPage offset (k.root offset) virt flags k = .ok k') :
    KernelStep offset pages stock data k k' := by
  obtain ⟨free, slabs, tables, new, inv, known⟩ := ready
  have frame := fun q aligned notFree notTable =>
    (PagingInv.tableTree inv direct).mapFreshPage_frame (q := q) bits (under_all _) ran aligned
      notFree notTable
  rcases mapFreshPage_spec inv direct bits virt (under_all _) with
    ⟨-, stopped⟩ | ⟨p, k'', free', tables', ran', -, inv', -, vars, -, same, -⟩
  · rw [stopped] at ran
    cases ran
  obtain rfl := Except.ok.inj (ran'.symm.trans ran)
  obtain ⟨-, -, apart, elsewhere⟩ := inv.heap.disjoint direct.usable
  rw [← vars.root, ← Multiset.cons_add] at inv'
  refine ⟨⟨free', slabs, tables', p ::ₘ new, inv', ?_⟩, ?_, vars.pml4⟩
  · apply nodes.frame _ _ _ known inv.heap.slab
    intro q member
    apply frame q (direct.usable.aligned q (inv.heap.mem_pages (Or.inr (Or.inl member))))
    · exact fun inFree => apart q inFree member
    · exact fun inTables => (elsewhere q (Multiset.mem_add.mpr (Or.inl inTables))).2 member
  · exact fun q member => same q (Multiset.mem_add.mpr (Or.inr member))

theorem HeapReady.allocPages (ready : HeapReady offset pages stock data k)
    (direct : Direct offset pages) (nodes : Stable stock (cacheFor 32)) (bits : FlagBits flags)
    {base n : Nat}
    (ran : allocPages offset base flags n k = .ok k') : KernelStep offset pages stock data k k' := by
  induction n generalizing k' with
  | zero =>
      obtain rfl := Except.ok.inj ran
      exact .refl ready
  | succ n ih =>
      rw [allocPages_succ] at ran
      obtain ⟨k₁, loop, last⟩ := of_bind_ok ran
      have step := ih loop
      exact step.trans (step.ready.mapFreshPage direct nodes bits last)

theorem HeapReady.vmmRegionAlloc (ready : HeapReady offset pages stock data k)
    (direct : Direct offset pages) (nodes : Stable stock (cacheFor 32)) (bits : FlagBits flags)
    {size base : Nat} (ran : vmmRegionAlloc offset size flags k = .ok (base, k')) :
    KernelStep offset pages stock data k k' := by
  rw [Mm.vmmRegionAlloc] at ran
  split at ran
  · cases ran
  · split at ran
    · cases ran
    · obtain ⟨⟨node, k₁⟩, got, ran⟩ := of_bind_ok ran
      obtain ⟨k₂, loop, returned⟩ := of_bind_ok ran
      obtain ⟨-, rfl⟩ := Prod.mk.inj (Except.ok.inj returned)
      have first := ready.allocNode direct.usable nodes got
      have second := (first.ready.setRegions _).allocPages direct nodes bits loop
      exact first.trans ⟨second.ready, second.same, second.pml4⟩

theorem HeapReady.kmalloc (ready : HeapReady offset pages stock data k)
    (direct : Direct offset pages) (nodes : Stable stock (cacheFor 32)) {size x : Nat}
    (stable : size < 1024 → Stable stock (cacheFor size))
    (ran : kmalloc offset size k = .ok (x, k')) : KernelStep offset pages stock data k k' := by
  rw [Mm.kmalloc] at ran
  split at ran
  · rename_i small
    exact (ready.kmallocSlab direct.usable small ran).2 (stable small)
  · exact ready.vmmRegionAlloc direct nodes ⟨by decide, by decide⟩ ran

theorem HeapReady.pmmAlloc (ready : HeapReady offset pages stock data k)
    (direct : Direct offset pages) {page : Nat}
    (ran : pmmAllocSinglep offset k = .ok (page, k')) : KernelStep offset pages stock data k k' := by
  obtain ⟨free, slabs, tables, new, inv, known⟩ := ready
  cases free with
  | nil =>
      rw [inv.heap.take_none] at ran
      cases ran
  | cons p free =>
      obtain ⟨taken, owned⟩ := PagingInv.take inv direct
      obtain ⟨-, rfl⟩ := Prod.mk.inj (Except.ok.inj (taken.symm.trans ran))
      rw [← Multiset.cons_add] at owned
      exact ⟨⟨free, slabs, tables, p ::ₘ new, owned, known⟩, fun q _ => SamePage.refl k.mem q, rfl⟩

end Kernel

/-- Every word of a free object but its link satisfies `held`. -/
def FreeWords (held : Nat → Nat → Nat → Prop) (mem : Mem) (slabs : List Slab) : Prop :=
  ∀ t ∈ slabs, ∀ x ∈ t.free, ∀ d, 0 < d → d < cacheSize t.cache → held t.cache d (mem (x + d))

section Words

variable {held : Nat → Nat → Nat → Prop} {mem mem' : Mem} {slabs : List Slab} {c x : Nat}

theorem Recycled.word (recycled : Recycled slabs mem mem' c x) (words : FreeWords held mem slabs)
    (zero : ∀ c d, held c d 0) {d : Nat} (positive : 0 < d) (inside : d < cacheSize c) :
    held c d (mem' (x + d)) := by
  rcases recycled with ⟨t, inT, rfl, inFree, kept⟩ | ⟨-, cleared⟩
  · rw [kept d positive inside]
    exact words t inT x inFree d positive inside
  · rw [cleared d positive inside]
    exact zero c d

theorem Served.word (served : Served (FreeWords held) mem c x) (zero : ∀ c d, held c d 0) {d : Nat}
    (positive : 0 < d) (inside : d < cacheSize c) : held c d (mem (x + d)) := by
  obtain ⟨before, slabs, words, recycled⟩ := served
  exact recycled.word words zero positive inside

theorem FreeWords.stable (zero : ∀ c d, held c d 0) (c : Nat) : Stable (FreeWords held) c := by
  constructor
  · intro mem mem' slabs words ok same t inT x inFree d positive inside
    obtain ⟨lower, upper, -⟩ := object_bounds ((ok t inT).free_mem inFree)
    rw [same t.page (slabPage_mem inT) _ ⟨by omega, by omega⟩]
    exact words t inT x inFree d positive inside
  · intro mem mem' slabs slabs' x words handed t inT y inFree d positive inside
    rcases handed.free t inT y inFree with ⟨t₀, inT₀, same, wasFree, kept⟩ | ⟨same, recycled⟩
    · rw [kept d positive inside, ← same]
      exact words t₀ inT₀ y wasFree d positive (same ▸ inside)
    · rw [same] at inside ⊢
      exact recycled.word words zero positive inside

end Words

def userByte (offset pml4 : Nat) (mem : Mem) (virt : Nat) : Option UInt8 :=
  (translate offset mem pml4 virt).map fun target => UInt8.ofNat (loadByte mem target)

structure UserHalf (offset : Nat) (pages : List Nat) (stock : Mem → List Slab → Prop)
    (pml4 : Nat) (k : Kernel) (tables : List (List Nat × Nat)) (own : Multiset Nat) : Prop where
  heap : HeapReady offset pages stock (tablePages tables + own) k
  tree : Tree offset k.mem (add64 pml4 offset) 256 tables
  target : ∀ page < 2 ^ 35, Present (leafEntry offset k.mem (add64 pml4 offset) page) →
    pointee offset (leafEntry offset k.mem (add64 pml4 offset) page) ∈ own
  distinct : ∀ page < 2 ^ 35, ∀ page' < 2 ^ 35,
    Present (leafEntry offset k.mem (add64 pml4 offset) page) →
    Present (leafEntry offset k.mem (add64 pml4 offset) page') →
    pointee offset (leafEntry offset k.mem (add64 pml4 offset) page) =
      pointee offset (leafEntry offset k.mem (add64 pml4 offset) page') → page = page'

section User

variable {offset : Nat} {pages : List Nat} {stock : Mem → List Slab → Prop} {pml4 : Nat}
  {k k' : Kernel} {tables : List (List Nat × Nat)} {own : Multiset Nat} {flags : Nat}

theorem pageIndex_user {virt : Nat} (user : virt < 2 ^ 47) :
    pageIndex virt = virt / 4096 ∧ pageIndex virt < 2 ^ 35 := by
  unfold pageIndex
  omega

theorem loadByte_congr {mem mem' : Mem} {page i : Nat} (aligned : Aligned page)
    (same : SamePage mem mem' page) (inside : i < 4096) :
    loadByte mem' (page + i) = loadByte mem (page + i) := by
  unfold Aligned at aligned
  rw [loadByte, loadByte, same _ ⟨by omega, by omega⟩]

namespace UserHalf

theorem mono {stock' : Mem → List Slab → Prop}
    (user : UserHalf offset pages stock pml4 k tables own)
    (weaker : ∀ mem slabs, stock mem slabs → stock' mem slabs) :
    UserHalf offset pages stock' pml4 k tables own :=
  ⟨user.heap.mono weaker, user.tree, user.target, user.distinct⟩

theorem ownPage (user : UserHalf offset pages stock pml4 k tables own) {q : Nat} (member : q ∈ own) :
    q ∈ pages := by
  obtain ⟨free, slabs, kernelTables, new, inv, -⟩ := user.heap
  exact inv.data_mem (Multiset.mem_add.mpr (Or.inr (Multiset.mem_add.mpr (Or.inr member))))

theorem byte_congr (user : UserHalf offset pages stock pml4 k tables own) (usable : Usable pages)
    {mem' : Mem} {virt : Nat} (low : virt < 2 ^ 47)
    (entry : leafEntry offset mem' (add64 pml4 offset) (pageIndex virt) =
      leafEntry offset k.mem (add64 pml4 offset) (pageIndex virt))
    (same : ∀ q ∈ own, SamePage k.mem mem' q) :
    userByte offset pml4 mem' virt = userByte offset pml4 k.mem virt := by
  rw [userByte, userByte, translate, translate, entry]
  by_cases present : Present (leafEntry offset k.mem (add64 pml4 offset) (pageIndex virt))
  · have inOwn := user.target _ (pageIndex_user low).2 present
    rw [if_pos present, Option.map_some, Option.map_some,
      loadByte_congr (usable.aligned _ (user.ownPage inOwn)) (same _ inOwn)
        (Nat.mod_lt _ (by decide))]
  · rw [if_neg present, Option.map_none, Option.map_none]

theorem target_own (user : UserHalf offset pages stock pml4 k tables own) {virt target : Nat}
    (low : virt < 2 ^ 47) (found : translate offset k.mem pml4 virt = some target) :
    ∃ q ∈ own, target = q + virt % 4096 := by
  rw [translate] at found
  split at found
  · rename_i present
    exact ⟨_, user.target _ (pageIndex_user low).2 present, (Option.some.inj found).symm⟩
  · cases found

theorem kernelStep (user : UserHalf offset pages stock pml4 k tables own) (usable : Usable pages)
    (step : KernelStep offset pages stock (tablePages tables + own) k k') :
    UserHalf offset pages stock pml4 k' tables own ∧
      ∀ virt < 2 ^ 47, userByte offset pml4 k'.mem virt = userByte offset pml4 k.mem virt := by
  have tableSame : ∀ t ∈ tables, SamePage k.mem k'.mem t.2 := fun t member =>
    step.same t.2 (Multiset.mem_add.mpr (Or.inl (List.mem_map_of_mem member)))
  have entry : ∀ page < 2 ^ 35, leafEntry offset k'.mem (add64 pml4 offset) page =
      leafEntry offset k.mem (add64 pml4 offset) page := fun page low =>
    user.tree.leafEntry_frame tableSame (under_user low)
  refine ⟨⟨step.ready, user.tree.frame tableSame, ?_, ?_⟩, ?_⟩
  · intro page low
    rw [entry page low]
    exact user.target page low
  · intro page low page' low'
    rw [entry page low, entry page' low']
    exact user.distinct page low page' low'
  · intro virt low
    apply user.byte_congr usable low (entry _ (pageIndex_user low).2)
    exact fun q member => step.same q (Multiset.mem_add.mpr (Or.inr member))

theorem paging (user : UserHalf offset pages stock pml4 k tables own) :
    ∃ free slabs kernelTables new, KernelPaging offset pages k free slabs kernelTables
        (new + (tablePages tables + own)) ∧ stock k.mem slabs ∧
      PagingInv offset pages (add64 pml4 offset) 256 k free slabs tables
        (tablePages kernelTables + (new + own)) := by
  obtain ⟨free, slabs, kernelTables, new, inv, known⟩ := user.heap
  refine ⟨free, slabs, kernelTables, new, inv, known, ?_, user.tree⟩
  have moved : (tablePages tables : Multiset Nat) + (tablePages kernelTables + (new + own)) =
      tablePages kernelTables + (new + (tablePages tables + own)) := by ac_rfl
  rw [moved]
  exact inv.heap

theorem mapFreshPage (user : UserHalf offset pages stock pml4 k tables own)
    (direct : Direct offset pages) (nodes : Stable stock (cacheFor 32)) (bits : FlagBits flags)
    {virt : Nat} (low : virt < 2 ^ 47)
    (ran : mapFreshPage offset (add64 pml4 offset) virt flags k = .ok k') :
    ∃ tables' own', UserHalf offset pages stock pml4 k' tables' own' ∧
      ∀ other < 2 ^ 47, userByte offset pml4 k'.mem other =
        if pageIndex other = pageIndex virt then some 0 else userByte offset pml4 k.mem other := by
  obtain ⟨free, slabs, kernelTables, new, inv, known, lower⟩ := user.paging
  have bound := pageIndex_lt virt
  have under := under_user (pageIndex_user low).2
  have frame := fun q aligned notFree notTable =>
    (lower.tableTree direct).mapFreshPage_frame (q := q) bits under ran aligned notFree notTable
  rcases mapFreshPage_spec lower direct bits virt under with
    ⟨-, stopped⟩ | ⟨p, k'', free', tables', ran', inFree, lower', mapped, vars, -, same, zero⟩
  · rw [stopped] at ran
    cases ran
  obtain rfl := Except.ok.inj (ran'.symm.trans ran)
  have kernelSame : ∀ t ∈ kernelTables, SamePage k.mem k''.mem t.2 := fun t member =>
    same t.2 (Multiset.mem_add.mpr (Or.inl (List.mem_map_of_mem member)))
  have ownSame : ∀ q ∈ own, SamePage k.mem k''.mem q := fun q member =>
    same q (Multiset.mem_add.mpr (Or.inr (Multiset.mem_add.mpr (Or.inr member))))
  have entry : ∀ page < 2 ^ 35, leafEntry offset k''.mem (add64 pml4 offset) page =
      if page = pageIndex virt then (p - offset) ||| flags
      else leafEntry offset k.mem (add64 pml4 offset) page :=
    fun page small => mapped.leafEntry bound (by omega) (under_user small)
  have new_target := (dataEntry_or direct bits (lower.heap.mem_pages (Or.inl inFree))).2
  have fresh : p ∉ own := fun member => by
    have inData : p ∈ (tablePages kernelTables : Multiset Nat) + (new + own) :=
      Multiset.mem_add.mpr (Or.inr (Multiset.mem_add.mpr (Or.inr member)))
    exact (lower.apart direct.usable inData).1 inFree
  refine ⟨tables', p ::ₘ own, ⟨⟨free', slabs, kernelTables, new, ⟨?_, ?_⟩, ?_⟩, lower'.tree, ?_,
    ?_⟩, ?_⟩
  · have heap := lower'.heap
    have moved : (tablePages kernelTables : Multiset Nat) +
        (new + (tablePages tables' + p ::ₘ own)) =
        tablePages tables' + p ::ₘ (tablePages kernelTables + (new + own)) := by
      rw [← Multiset.singleton_add, ← Multiset.singleton_add]
      ac_rfl
    rw [moved]
    exact heap
  · rw [vars.root]
    exact inv.tree.frame kernelSame
  · apply nodes.frame _ _ _ known inv.heap.slab
    obtain ⟨-, -, apart, elsewhere⟩ := lower.heap.disjoint direct.usable
    intro q member
    apply frame q (direct.usable.aligned q (inv.heap.mem_pages (Or.inr (Or.inl member))))
    · exact fun inFree => apart q inFree member
    · exact fun inTables => (elsewhere q (Multiset.mem_add.mpr (Or.inl inTables))).2 member
  · intro page small present
    rw [entry page small] at present ⊢
    split
    · rw [new_target]
      exact Multiset.mem_cons_self p own
    · rename_i different
      rw [if_neg different] at present
      exact Multiset.mem_cons_of_mem (user.target page small present)
  · intro page small page' small' present present' equal
    rw [entry page small] at present equal
    rw [entry page' small'] at present' equal
    by_cases here : page = pageIndex virt
    · by_cases here' : page' = pageIndex virt
      · rw [here, here']
      · rw [if_pos here, if_neg here', new_target] at equal
        rw [if_neg here'] at present'
        exact absurd (equal ▸ user.target page' small' present') fresh
    · rw [if_neg here] at present equal
      by_cases here' : page' = pageIndex virt
      · rw [if_pos here', new_target] at equal
        exact absurd (equal ▸ user.target page small present) fresh
      · rw [if_neg here'] at present' equal
        exact user.distinct page small page' small' present present' equal
  · intro other small
    have read := entry _ (pageIndex_user small).2
    by_cases here : pageIndex other = pageIndex virt
    · rw [if_pos here] at read ⊢
      have aligned := direct.usable.aligned p (lower.heap.mem_pages (Or.inl inFree))
      have inside := Nat.mod_lt other (show 0 < 4096 by decide)
      rw [userByte, translate, read, if_pos (present_or bits _), new_target, Option.map_some,
        loadByte, zero _ (by unfold Aligned at aligned; unfold InPage; omega), Nat.zero_div]
      rfl
    · rw [if_neg here] at read ⊢
      exact user.byte_congr direct.usable small read ownSame

theorem storeByte (user : UserHalf offset pages stock pml4 k tables own) (usable : Usable pages)
    (nodes : Stable stock (cacheFor 32)) {dest target : Nat} (low : dest < 2 ^ 47) (found : translate offset k.mem pml4 dest = some target)
    (b : UInt8) :
    UserHalf offset pages stock pml4 { k with mem := storeByte k.mem target b.toNat } tables own ∧
      ∀ virt < 2 ^ 47, userByte offset pml4 (storeByte k.mem target b.toNat) virt =
        if virt = dest then some b else userByte offset pml4 k.mem virt := by
  obtain ⟨free, slabs, kernelTables, new, inv, known, lower⟩ := user.paging
  obtain ⟨page, destLow⟩ := pageIndex_user low
  generalize entered : leafEntry offset k.mem (add64 pml4 offset) (pageIndex dest) = entry at *
  have present : Present entry := by
    by_contra absent
    rw [translate, entered, if_neg absent] at found
    cases found
  obtain rfl : pointee offset entry + dest % 4096 = target := by
    rw [translate, entered, if_pos present] at found
    exact Option.some.inj found
  have inOwn : pointee offset entry ∈ own := by
    rw [← entered] at present ⊢
    exact user.target _ destLow present
  have inData : pointee offset entry ∈ new + (tablePages tables + own) :=
    Multiset.mem_add.mpr (Or.inr (Multiset.mem_add.mpr (Or.inr inOwn)))
  have inLower : pointee offset entry ∈ (tablePages kernelTables : Multiset Nat) + (new + own) :=
    Multiset.mem_add.mpr (Or.inr (Multiset.mem_add.mpr (Or.inr inOwn)))
  have aligned := usable.aligned _ (user.ownPage inOwn)
  have outside : ∀ address, ¬ InPage (pointee offset entry) address →
      Memory.storeByte k.mem (pointee offset entry + dest % 4096) b.toNat address =
        k.mem address := by
    intro address away
    apply store_other
    rintro rfl
    apply away
    unfold Aligned at aligned
    unfold InPage
    omega
  obtain ⟨inv', -⟩ := PagingInv.frame_page inv usable inData outside
  obtain ⟨lower', entries⟩ := lower.frame_page usable inLower outside
  have same : ∀ page < 2 ^ 35, leafEntry offset
      (Memory.storeByte k.mem (pointee offset entry + dest % 4096) b.toNat) (add64 pml4 offset)
        page = leafEntry offset k.mem (add64 pml4 offset) page :=
    fun page small => entries.leaf (under_user small)
  refine ⟨⟨⟨free, slabs, kernelTables, new, inv', nodes.frame _ _ _ known inv.heap.slab ?_⟩,
    lower'.tree, ?_, ?_⟩, ?_⟩
  · intro q member address inQ
    apply outside
    have different : q ≠ pointee offset entry := by
      rintro rfl
      exact (inv.apart usable inData).2.1 member
    exact page_ne (usable.aligned q (inv.heap.mem_pages (Or.inr (Or.inl member)))) aligned different
      inQ
  · intro page small
    rw [same page small]
    exact user.target page small
  · intro page small page' small'
    rw [same page small, same page' small']
    exact user.distinct page small page' small'
  · intro virt virtLow
    obtain ⟨virtPage, small⟩ := pageIndex_user virtLow
    have byteSmall := b.toNat_lt
    rw [userByte, userByte, translate, translate, same _ small]
    by_cases mapped : Present (leafEntry offset k.mem (add64 pml4 offset) (pageIndex virt))
    · rw [if_pos mapped, Option.map_some, Option.map_some, loadByte_storeByte _ _ _ byteSmall]
      have alignedVirt := usable.aligned _ (user.ownPage (user.target _ small mapped))
      by_cases here : virt = dest
      · rw [if_pos here, here, entered, if_pos rfl, UInt8.ofNat_toNat]
      · rw [if_neg here, if_neg]
        -- equal places are in equal pages, which are mapped once
        intro equal
        apply here
        have pages : pageIndex virt = pageIndex dest := by
          apply user.distinct _ small _ destLow mapped (entered ▸ present)
          rw [entered]
          unfold Aligned at aligned alignedVirt
          omega
        rw [pages, entered] at equal
        omega
    · have different : virt ≠ dest := by
        rintro rfl
        exact mapped (entered ▸ present)
      rw [if_neg mapped, if_neg different]
      rfl

theorem mapFreshPages (direct : Direct offset pages) (nodes : Stable stock (cacheFor 32))
    (bits : FlagBits flags) (addrs : List Nat)
    (user : UserHalf offset pages stock pml4 k tables own) (low : ∀ virt ∈ addrs, virt < 2 ^ 47)
    (ran : mapFreshPages offset (add64 pml4 offset) flags addrs k = .ok k') :
    ∃ tables' own', UserHalf offset pages stock pml4 k' tables' own' ∧
      ∀ other < 2 ^ 47, userByte offset pml4 k'.mem other =
        if pageIndex other ∈ addrs.map pageIndex then some 0
        else userByte offset pml4 k.mem other := by
  induction addrs generalizing k tables own with
  | nil =>
      obtain rfl := Except.ok.inj ran
      exact ⟨tables, own, user, fun other _ => by simp⟩
  | cons virt rest ih =>
      obtain ⟨k₁, first, ran⟩ := of_bind_ok ran
      obtain ⟨tables₁, own₁, user₁, bytes₁⟩ :=
        user.mapFreshPage direct nodes bits (low virt List.mem_cons_self) first
      obtain ⟨tables', own', user', bytes⟩ :=
        ih user₁ (fun v member => low v (List.mem_cons_of_mem virt member)) ran
      refine ⟨tables', own', user', fun other small => ?_⟩
      rw [bytes other small, bytes₁ other small, List.map_cons]
      by_cases later : pageIndex other ∈ rest.map pageIndex
      · rw [if_pos later, if_pos (List.mem_cons_of_mem _ later)]
      · rw [if_neg later]
        by_cases here : pageIndex other = pageIndex virt
        · rw [if_pos here, if_pos (List.mem_cons.mpr (Or.inl here))]
        · rw [if_neg here, if_neg fun member => (List.mem_cons.mp member).elim here later]

end UserHalf

end User

end Nyaux.Mm
