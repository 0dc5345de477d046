import Nyaux.Mm.HeapSpec

/-! `pmm_init`: every usable page goes on the free list, and the eight caches get a slab. -/

namespace Nyaux.Mm

open Word Memory

inductive MemmapType where
  | usable
  | reserved
  | acpiReclaimable
  | acpiNvs
  | badMemory
  | bootloaderReclaimable
  | kernelAndModules
  | framebuffer
  deriving DecidableEq

structure MemmapEntry where
  base : Nat
  length : Nat
  type : MemmapType
  deriving DecidableEq

/-- The offsets of `for (j = 0; j < length; j += 0x1000)`. -/
def pageOffsets (length : Nat) : List Nat :=
  (List.range ((length + 4095) / 4096)).map fun i => i * 4096

/-- What the bootloader hands over. The usable entries are as its protocol promises: not
empty, page-aligned, without overlap, and without physical page 0. Its direct map, in the
higher half, has room for every entry it shows. -/
structure Limine where
  offset : Nat
  entries : List MemmapEntry
  offset_aligned : 4096 ∣ offset
  offset_high : 0xffff800000000000 ≤ offset
  offset_word : offset < 2 ^ 64
  nonempty : ∀ e ∈ entries, e.type = .usable → 0 < e.length
  aligned : ∀ e ∈ entries, e.type = .usable → 4096 ∣ e.base ∧ 4096 ∣ e.length
  not_zero : ∀ e ∈ entries, e.type = .usable → 0 < e.base
  room : ∀ e ∈ entries, e.type ≠ .badMemory → offset + e.base + e.length ≤ 2 ^ 64
  disjoint : (entries.filter fun e => e.type = .usable).Pairwise fun a b =>
    a.base + a.length ≤ b.base ∨ b.base + b.length ≤ a.base

theorem upperHalf_aligned : 4096 ∣ 0xffff800000000000 := by decide

theorem upperHalf_high : 0xffff800000000000 ≤ 0xffff800000000000 := by decide

theorem upperHalf_word : 0xffff800000000000 < 2 ^ 64 := by decide

def Limine.usable (boot : Limine) : List MemmapEntry :=
  boot.entries.filter fun e => e.type = .usable

theorem Limine.usable_room (boot : Limine) (e : MemmapEntry) (member : e ∈ boot.entries)
    (usable : e.type = .usable) : boot.offset + e.base + e.length ≤ 2 ^ 64 := by
  apply boot.room e member
  rw [usable]
  decide

def entryPages (offset : Nat) (e : MemmapEntry) : List Nat :=
  (pageOffsets e.length).map fun j => add64 (add64 e.base j) offset

/-- All usable pages, by their addresses in the direct map. -/
def Limine.pages (boot : Limine) : List Nat := boot.usable.flatMap (entryPages boot.offset)

/-- The node loop: the memory and `prev_node` after it. -/
def linkPages : List Nat → Mem × Nat → Mem × Nat
  | [], s => s
  | curNode :: rest, (mem, prevNode) =>
      linkPages rest (if prevNode ≠ 0 then store mem prevNode curNode else mem, curNode)

/-- The entry loop, with `head` and `prev_node`. -/
def pmmEntries (offset : Nat) :
    List MemmapEntry → Mem → Nat → Nat → Except Stop (Mem × Nat)
  | [], mem, head, _ => .ok (mem, head)
  | e :: rest, mem, head, prevNode =>
      if e.type = .usable then
        let head := if head = 0 then add64 e.base offset else head
        let (mem, prevNode) := linkPages (entryPages offset e) (mem, prevNode)
        if prevNode = 0 then .error .nullDeref
        else pmmEntries offset rest (store mem prevNode 0) head prevNode
      else pmmEntries offset rest mem head prevNode

/-- `init_slabs`: caches of 8 to 1024 bytes. -/
def initSlabs (offset : Nat) (k : Kernel) : Except Stop Kernel :=
  [0, 1, 2, 3, 4, 5, 6, 7].foldlM (fun k i => initCache offset i (cacheSize i) k) k

def pmmInit (boot : Limine) (mem : Mem) : Except Stop Kernel := do
  let (mem, head) ← pmmEntries boot.offset boot.entries mem 0 0
  initSlabs boot.offset
    { mem := mem, head := head, kmallocCache := List.replicate 8 ⟨0, 0⟩, regions := [], pml4 := 0 }

section Pages

variable (boot : Limine)

theorem mem_pageOffsets {length j : Nat} : j ∈ pageOffsets length ↔ j < length ∧ 4096 ∣ j := by
  simp only [pageOffsets, List.mem_map, List.mem_range]
  constructor
  · rintro ⟨i, inside, rfl⟩
    omega
  · rintro ⟨bound, i, rfl⟩
    exact ⟨i, by omega, by omega⟩

theorem mem_entryPages {e : MemmapEntry} (member : e ∈ boot.usable) (p : Nat) :
    p ∈ entryPages boot.offset e ↔
      boot.offset + e.base ≤ p ∧ p < boot.offset + e.base + e.length ∧ Aligned p := by
  obtain ⟨listed, type⟩ := List.mem_filter.mp member
  have usable := of_decide_eq_true type
  have room := boot.usable_room e listed usable
  have aligned := boot.aligned e listed usable
  have offset := boot.offset_aligned
  simp only [entryPages, List.mem_map, mem_pageOffsets, Aligned]
  constructor
  · rintro ⟨j, bounds, rfl⟩
    rw [add64_of_lt (show e.base + j < 2 ^ 64 by omega), add64_of_lt (by omega)]
    omega
  · rintro ⟨lower, upper, page⟩
    refine ⟨p - boot.offset - e.base, by omega, ?_⟩
    rw [add64_of_lt (show e.base + (p - boot.offset - e.base) < 2 ^ 64 by omega),
      add64_of_lt (by omega)]
    omega

theorem entryPages_nodup {e : MemmapEntry} (member : e ∈ boot.usable) :
    (entryPages boot.offset e).Nodup := by
  obtain ⟨listed, type⟩ := List.mem_filter.mp member
  have usable := of_decide_eq_true type
  have room := boot.usable_room e listed usable
  have aligned := boot.aligned e listed usable
  rw [entryPages, pageOffsets, List.map_map]
  apply List.Nodup.map_on _ List.nodup_range
  intro i inI j inJ same
  have boundI := List.mem_range.mp inI
  have boundJ := List.mem_range.mp inJ
  simp only [Function.comp_apply] at same
  rw [add64_of_lt (show e.base + i * 4096 < 2 ^ 64 by omega),
    add64_of_lt (show e.base + j * 4096 < 2 ^ 64 by omega), add64_of_lt (by omega),
    add64_of_lt (by omega)] at same
  omega

theorem pages_usable : Usable boot.pages := by
  have bounds : ∀ p ∈ boot.pages, ∃ e ∈ boot.usable,
      boot.offset + e.base ≤ p ∧ p < boot.offset + e.base + e.length ∧ Aligned p := by
    intro p member
    obtain ⟨e, inE, inside⟩ := List.mem_flatMap.mp member
    exact ⟨e, inE, (mem_entryPages boot inE p).mp inside⟩
  have high := boot.offset_high
  refine ⟨?_, ?_, ?_, ?_⟩
  · rw [Limine.pages, List.nodup_flatMap]
    refine ⟨fun e member => entryPages_nodup boot member, ?_⟩
    apply boot.disjoint.imp_of_mem
    intro a b inA inB apart
    rw [Function.onFun, List.disjoint_left]
    intro p pageA pageB
    have left := (mem_entryPages boot inA p).mp pageA
    have right := (mem_entryPages boot inB p).mp pageB
    omega
  · intro p member
    obtain ⟨e, -, -, -, aligned⟩ := bounds p member
    exact aligned
  · intro p member
    obtain ⟨e, -, lower, -, -⟩ := bounds p member
    omega
  · intro p member
    obtain ⟨e, inE, lower, upper, aligned⟩ := bounds p member
    obtain ⟨listed, type⟩ := List.mem_filter.mp inE
    have room := boot.usable_room e listed (of_decide_eq_true type)
    unfold Aligned at aligned
    omega

end Pages

section FreeList

def Linked (mem : Mem) (head prevNode : Nat) (linked : List Nat) : Prop :=
  (linked = [] ∧ head = 0 ∧ prevNode = 0) ∨
    ∃ front, linked = front ++ [prevNode] ∧ Chain (store mem prevNode 0) 0 head linked

theorem Linked.next {mem : Mem} {head prevNode page : Nat} {front : List Nat}
    (chain : Chain (store mem prevNode 0) 0 head (front ++ [prevNode]))
    (nodup : (front ++ [prevNode, page]).Nodup) (nonzero : page ≠ 0) :
    Chain (store (store mem prevNode page) page 0) 0 head (front ++ [prevNode, page]) := by
  have different : page ≠ prevNode := by
    rintro rfl
    have pair := nodup.of_append_right
    simp at pair
  have fresh : page ∉ front ++ [prevNode] := by
    intro member
    rw [show front ++ [prevNode, page] = (front ++ [prevNode]) ++ [page] by simp,
      List.nodup_append] at nodup
    exact nodup.2.2 page member page (by simp) rfl
  have ended : Chain (store (store mem prevNode 0) page 0) 0 head (front ++ [prevNode]) := by
    apply chain.frame
    intro node member
    apply store_other
    rintro rfl
    exact fresh member
  have appended := ended.append
    (by
      rw [show front ++ [prevNode, page] = (front ++ [prevNode]) ++ [page] by simp] at nodup
      exact nodup.of_append_left)
    nonzero (store_same ..) different
  apply appended.frame
  intro node _
  rcases eq_or_ne node page with rfl | notPage
  · rw [Nat.add_zero, Nat.add_zero, store_same, store_other _ _ _ _ different, store_same]
  · rw [Nat.add_zero, Nat.add_zero, store_other _ _ _ _ notPage]
    rcases eq_or_ne node prevNode with rfl | notPrev
    · rw [store_same, store_same]
    · rw [store_other _ _ _ _ notPrev, store_other _ _ _ _ notPrev, store_other _ _ _ _ notPage,
        store_other _ _ _ _ notPrev]

theorem linkPages_spec (pages : List Nat) (mem : Mem) (head prevNode : Nat) (front : List Nat)
    (chain : Chain (store mem prevNode 0) 0 head (front ++ [prevNode]))
    (nodup : (front ++ prevNode :: pages).Nodup) (nonzero : ∀ p ∈ pages, p ≠ 0) :
    ∃ mem' prevNode' front', linkPages pages (mem, prevNode) = (mem', prevNode') ∧
      front ++ prevNode :: pages = front' ++ [prevNode'] ∧
      Chain (store mem' prevNode' 0) 0 head (front' ++ [prevNode']) := by
  induction pages generalizing mem prevNode front with
  | nil => exact ⟨mem, prevNode, front, rfl, rfl, chain⟩
  | cons page rest ih =>
      have here : prevNode ≠ 0 := chain.nonzero prevNode (by simp)
      have shorter : (front ++ [prevNode, page]).Nodup := by
        apply List.Nodup.sublist _ nodup
        exact List.Sublist.append_left (by simp) front
      have next := Linked.next chain shorter (nonzero page List.mem_cons_self)
      rw [show front ++ prevNode :: page :: rest = (front ++ [prevNode]) ++ page :: rest by simp]
        at nodup ⊢
      rw [show front ++ [prevNode, page] = (front ++ [prevNode]) ++ [page] by simp] at next
      rw [linkPages, if_pos here]
      exact ih _ page _ next nodup fun p member => nonzero p (List.mem_cons_of_mem _ member)

theorem linkEntry_spec (page : Nat) (pages : List Nat) (mem : Mem) (head prevNode : Nat)
    (linked : List Nat) (before : Linked mem head prevNode linked)
    (nodup : (linked ++ page :: pages).Nodup) (nonzero : ∀ p ∈ page :: pages, p ≠ 0) :
    ∃ mem' prevNode', linkPages (page :: pages) (mem, prevNode) = (mem', prevNode') ∧
      prevNode' ≠ 0 ∧ Linked mem' (if head = 0 then page else head) prevNode'
        (linked ++ page :: pages) := by
  have here := nonzero page List.mem_cons_self
  rcases before with ⟨rfl, rfl, rfl⟩ | ⟨front, rfl, chain⟩
  · have single : Chain (store mem page 0) 0 page ([] ++ [page]) := ⟨rfl, here, store_same ..⟩
    obtain ⟨mem', prevNode', front', stepped, shape, chain⟩ := linkPages_spec pages mem page page []
      single nodup fun p member => nonzero p (List.mem_cons_of_mem _ member)
    refine ⟨mem', prevNode', ?_, chain.nonzero prevNode' (by simp), Or.inr ⟨front', shape, ?_⟩⟩
    · rw [linkPages, if_neg (not_not.mpr rfl)]
      exact stepped
    · rw [if_pos rfl, shape]
      exact chain
  · have filled : head ≠ 0 := fun zero =>
      absurd (chain.first_eq_zero_iff.mp zero) (List.append_ne_nil_of_right_ne_nil _ (by simp))
    rw [List.append_assoc, List.singleton_append] at nodup
    obtain ⟨mem', prevNode', front', stepped, shape, chain⟩ := linkPages_spec (page :: pages) mem
      head prevNode front chain nodup nonzero
    refine ⟨mem', prevNode', stepped, chain.nonzero prevNode' (by simp),
      Or.inr ⟨front', ?_, ?_⟩⟩
    · rw [← shape, List.append_assoc, List.singleton_append]
    · rw [if_neg filled, List.append_assoc, List.singleton_append, shape]
      exact chain

theorem pmmEntries_spec (offset : Nat) (entries : List MemmapEntry) (mem : Mem)
    (head prevNode : Nat) (linked : List Nat)
    (before : (linked = [] ∧ head = 0 ∧ prevNode = 0) ∨
      ((∃ front, linked = front ++ [prevNode]) ∧ Chain mem 0 head linked))
    (nodup : (linked ++ (entries.filter fun e => e.type = .usable).flatMap
      (entryPages offset)).Nodup)
    (first : ∀ e ∈ entries, e.type = .usable →
      ∃ pages, entryPages offset e = add64 e.base offset :: pages)
    (nonzero : ∀ e ∈ entries, e.type = .usable → ∀ p ∈ entryPages offset e, p ≠ 0) :
    ∃ mem' head', pmmEntries offset entries mem head prevNode = .ok (mem', head') ∧
      Chain mem' 0 head' (linked ++ (entries.filter fun e => e.type = .usable).flatMap
        (entryPages offset)) := by
  induction entries generalizing mem head prevNode linked with
  | nil =>
      refine ⟨mem, head, rfl, ?_⟩
      rw [List.filter_nil, List.flatMap_nil, List.append_nil]
      rcases before with ⟨rfl, rfl, -⟩ | ⟨-, chain⟩
      · rfl
      · exact chain
  | cons e rest ih =>
      have later := fun e' (member : e' ∈ rest) => first e' (List.mem_cons_of_mem _ member)
      have laterNonzero := fun e' (member : e' ∈ rest) =>
        nonzero e' (List.mem_cons_of_mem _ member)
      rw [pmmEntries]
      by_cases usable : e.type = .usable
      · rw [List.filter_cons, if_pos (decide_eq_true usable), List.flatMap_cons,
          ← List.append_assoc] at nodup ⊢
        obtain ⟨pages, listed⟩ := first e List.mem_cons_self usable
        have pagesNonzero := nonzero e List.mem_cons_self usable
        rw [if_pos usable]
        rw [listed] at nodup pagesNonzero ⊢
        have open_end : Linked mem head prevNode linked := by
          rcases before with empty | ⟨⟨front, rfl⟩, chain⟩
          · exact Or.inl empty
          · refine Or.inr ⟨front, rfl, ?_⟩
            apply chain.frame
            intro node member
            rw [Nat.add_zero]
            rcases eq_or_ne node prevNode with rfl | different
            · rw [store_same]
              exact (chain.last (by simp)).symm
            · exact store_other _ _ _ _ different
        obtain ⟨mem', prevNode', stepped, notNull, linked'⟩ := linkEntry_spec _ pages mem head
          prevNode linked open_end nodup.of_append_left pagesNonzero
        simp only [stepped, if_neg notNull]
        apply ih _ _ _ _ _ nodup later laterNonzero
        rcases linked' with ⟨empty, -⟩ | ⟨front, shape, chain⟩
        · simp at empty
        · exact Or.inr ⟨⟨front, shape⟩, chain⟩
      · rw [List.filter_cons, if_neg (by simpa using usable)] at nodup
        rw [if_neg usable, List.filter_cons, if_neg (by simpa using usable)]
        exact ih mem head prevNode linked before nodup later laterNonzero

end FreeList

section Caches

variable {pages : List Nat} {ready : Nat} {k : Kernel} {page : Nat} {free : List Nat}
  {slabs : List Slab} {others : Multiset Nat}

theorem HeapInv.start (inv : HeapInv pages ready k (page :: free) slabs others)
    (usable : Usable pages) (small : ready < 8) (earlier : ∀ s ∈ slabs, s.cache < ready) :
    HeapInv pages (ready + 1)
      { k with mem := slabMem k.mem page (cacheSize ready), head := k.mem page,
               kmallocCache := k.kmallocCache.set ready ⟨page, cacheSize ready⟩ }
      free (slabs ++ [⟨page, ready, objects page ready, []⟩]) others := by
  obtain ⟨freeNodup, -, -, -⟩ := inv.disjoint usable
  obtain ⟨-, nonzero, -, alignedPage, tail⟩ := inv.first usable
  have none : ofCache ready slabs = [] := by
    apply List.filter_eq_nil_iff.mpr
    intro s member same
    have := earlier s member
    simp only [decide_eq_true_eq] at same
    omega
  have added : ∀ d, ofCache d (slabs ++ [⟨page, ready, objects page ready, []⟩]) =
      ofCache d slabs ++ if ready = d then [⟨page, ready, objects page ready, []⟩] else [] := by
    intro d
    rw [ofCache, List.filter_append, ← ofCache]
    by_cases same : ready = d <;> simp [same]
  refine ⟨?_, ?_, ?_, ?_, ?_⟩
  · have total := inv.pages
    rw [← total, slabPages, slabPages, List.map_append, List.map_singleton,
      ← Multiset.coe_add, Multiset.coe_singleton, ← Multiset.cons_coe page free,
      ← Multiset.singleton_add page]
    abel
  · apply tail.frame
    intro x inFree
    have different : x ≠ page := fun same => (List.nodup_cons.mp freeNodup).1 (same ▸ inFree)
    apply slabMem_outside small
    apply page_ne (usable.aligned x (inv.mem_pages (Or.inl (List.mem_cons_of_mem _ inFree))))
      alignedPage different
    unfold InPage
    omega
  · intro t inT
    rcases List.mem_append.mp inT with old | new
    · exact (inv.slab t old).frame (inv.take_slab usable small t old).1
    · rw [List.mem_singleton.mp new]
      exact slabOk_new small
  · rw [List.length_set]
    exact inv.count
  · intro d belowReady
    rcases Nat.lt_succ_iff_lt_or_eq.mp belowReady with older | rfl
    · obtain ⟨first, cached, nonempty, chain⟩ := inv.caches d older
      refine ⟨first, ?_, ?_, ?_⟩
      · rw [List.getElem?_set_ne (by omega)]
        exact cached
      · rw [added]
        exact List.append_ne_nil_of_left_ne_nil nonempty _
      · rw [added, if_neg (by omega), List.append_nil]
        apply chain.frame
        intro q inQ
        obtain ⟨t, inT, rfl⟩ := List.mem_map.mp inQ
        have old := (List.mem_filter.mp inT).1
        exact (inv.take_slab usable small t old).1 _ (by unfold InPage; omega)
    · refine ⟨page, ?_, ?_, ?_⟩
      · exact List.getElem?_set_self (by rw [inv.count]; exact small)
      · rw [added, if_pos rfl]
        simp
      · rw [added, none, if_pos rfl]
        exact ⟨rfl, nonzero, slabMem_next⟩

/-- `init_cache` stops only when no page is left. -/
theorem initCache_spec (inv : HeapInv pages ready k free slabs others) (usable : Usable pages)
    (small : ready < 8) (earlier : ∀ s ∈ slabs, s.cache < ready) (offset : Nat) :
    (free = [] ∧ initCache offset ready (cacheSize ready) k = .error .outOfMemory) ∨
      ∃ k' free' slabs', initCache offset ready (cacheSize ready) k = .ok k' ∧
        HeapInv pages (ready + 1) k' free' slabs' others ∧ free'.length + 1 = free.length ∧
        (∀ s ∈ slabs', s.cache < ready + 1) ∧ liveObjects slabs' = liveObjects slabs ∧
        k'.regions = k.regions ∧ k'.pml4 = k.pml4 := by
  cases free with
  | nil =>
      have null : k.head = 0 := inv.list
      refine Or.inl ⟨rfl, ?_⟩
      simp [initCache, makeSlab, pmmAllocSinglep, null, bind, Except.bind]
  | cons page free =>
      obtain ⟨listed, nonzero, word, -, -⟩ := inv.first usable
      refine Or.inr ⟨_, free, _, ?_, inv.start usable small earlier, rfl, ?_,
        liveObjects_new _ _ _, rfl, rfl⟩
      · simp only [initCache, makeSlab_eq listed nonzero word, bind, Except.bind]
      · intro s member
        rcases List.mem_append.mp member with old | new
        · exact Nat.lt_succ_of_lt (earlier s old)
        · rw [List.mem_singleton.mp new]
          exact Nat.lt_succ_self ready

theorem initCaches_spec (usable : Usable pages) (offset n : Nat)
    (inv : HeapInv pages ready k free slabs others) (total : ready + n = 8)
    (earlier : ∀ s ∈ slabs, s.cache < ready) :
    (free.length < n ∧
        (List.range' ready n).foldlM (fun k i => initCache offset i (cacheSize i) k) k =
          .error .outOfMemory) ∨
      ∃ k' free' slabs',
        (List.range' ready n).foldlM (fun k i => initCache offset i (cacheSize i) k) k = .ok k' ∧
        HeapInv pages 8 k' free' slabs' others ∧ free'.length + n = free.length ∧
        liveObjects slabs' = liveObjects slabs ∧ k'.regions = k.regions ∧ k'.pml4 = k.pml4 := by
  induction n generalizing ready k free slabs with
  | zero =>
      obtain rfl : ready = 8 := by omega
      exact Or.inr ⟨k, free, slabs, rfl, inv, rfl, rfl, rfl, rfl⟩
  | succ n ih =>
      rw [List.range'_succ, List.foldlM_cons]
      rcases initCache_spec inv usable (by omega) earlier offset with
        ⟨rfl, stopped⟩ | ⟨k', free', slabs', stepped, inv', shorter, earlier', live, regions, pml4⟩
      · rw [stopped]
        exact Or.inl ⟨Nat.succ_pos n, rfl⟩
      · rw [stepped]
        rcases ih inv' (by omega) earlier' with
          ⟨few, stopped⟩ | ⟨k'', free'', slabs'', ran, inv'', fewer, live', regions', pml4'⟩
        · exact Or.inl ⟨by omega, stopped⟩
        · exact Or.inr ⟨k'', free'', slabs'', ran, inv'', by omega, live'.trans live,
            regions'.trans regions, pml4'.trans pml4⟩

end Caches

/-- `pmm_init` runs to its end when there is a page for each of the eight slabs; after it every
usable page is on the free list or the page of one slab, and no object is allocated. -/
theorem pmmInit_spec (boot : Limine) (mem : Mem) :
    (boot.pages.length < 8 ∧ pmmInit boot mem = .error .outOfMemory) ∨
      ∃ k free slabs, pmmInit boot mem = .ok k ∧ HeapInv boot.pages 8 k free slabs 0 ∧
        free.length + 8 = boot.pages.length ∧ liveObjects slabs = 0 ∧ k.regions = [] ∧
        k.pml4 = 0 := by
  have usable := pages_usable boot
  have listed : ∀ e ∈ boot.entries, e.type = .usable → e ∈ boot.usable :=
    fun e member type => List.mem_filter.mpr ⟨member, decide_eq_true type⟩
  have nonzero : ∀ e ∈ boot.entries, e.type = .usable → ∀ p ∈ entryPages boot.offset e, p ≠ 0 :=
    fun e member type p inE =>
      usable.nonzero p (List.mem_flatMap.mpr ⟨e, listed e member type, inE⟩)
  have first : ∀ e ∈ boot.entries, e.type = .usable →
      ∃ pages, entryPages boot.offset e = add64 e.base boot.offset :: pages := by
    intro e member type
    have positive := boot.nonempty e member type
    have room := boot.usable_room e member type
    obtain ⟨n, amount⟩ : ∃ n, (e.length + 4095) / 4096 = n + 1 :=
      ⟨(e.length + 4095) / 4096 - 1, by omega⟩
    have base : add64 e.base 0 = e.base := add64_of_lt (by omega)
    refine ⟨((List.range' 1 n).map fun i => i * 4096).map fun j =>
      add64 (add64 e.base j) boot.offset, ?_⟩
    rw [entryPages, pageOffsets, amount, List.range_eq_range', List.range'_succ, List.map_cons,
      List.map_cons, Nat.zero_mul, base]
  obtain ⟨mem', head, ran, chain⟩ := pmmEntries_spec boot.offset boot.entries mem 0 0 []
    (Or.inl ⟨rfl, rfl, rfl⟩) usable.nodup first nonzero
  have inv : HeapInv boot.pages 0
      { mem := mem', head := head, kmallocCache := List.replicate 8 ⟨0, 0⟩, regions := [],
        pml4 := 0 } boot.pages [] 0 :=
    ⟨by simp [slabPages], chain, by simp, rfl, by simp⟩
  rw [pmmInit, ran]
  exact initCaches_spec usable boot.offset 8 inv rfl (by simp)

end Nyaux.Mm
