import Mathlib.Data.Multiset.AddSub
import Mathlib.Data.Multiset.UnionInter
import Nyaux.Mm.Pmm

/-! Who owns which page: the free list, the slabs, and everything else. -/

namespace Nyaux.Mm

open Word Memory

structure Usable (pages : List Nat) : Prop where
  nodup : pages.Nodup
  aligned : ∀ p ∈ pages, Aligned p
  nonzero : ∀ p ∈ pages, p ≠ 0
  below : ∀ p ∈ pages, p + 4096 ≤ 2 ^ 64

/-- A slab page of cache number `cache`, with its free objects in list order and its
allocated ones. -/
structure Slab where
  page : Nat
  cache : Nat
  free : List Nat
  live : List Nat

def cacheSize (c : Nat) : Nat := 8 * 2 ^ c

def objects (page c : Nat) : List Nat :=
  (List.range (objAmount (cacheSize c))).map fun j => page + 24 + j * cacheSize c

structure SlabOk (mem : Mem) (s : Slab) : Prop where
  cache : s.cache < 8
  size : mem s.page = cacheSize s.cache
  freelist : Chain mem 0 (mem (s.page + 16)) s.free
  carved : (s.free ++ s.live).Perm (objects s.page s.cache)

def ofCache (c : Nat) (slabs : List Slab) : List Slab := slabs.filter fun s => s.cache = c

def slabPages (slabs : List Slab) : List Nat := slabs.map Slab.page

/-- Every page is on the free list, a slab, or among `others`; the first `ready` caches are
set up. -/
structure HeapInv (pages : List Nat) (ready : Nat) (k : Kernel) (free : List Nat)
    (slabs : List Slab) (others : Multiset Nat) : Prop where
  pages : (free : Multiset Nat) + slabPages slabs + others = pages
  list : Chain k.mem 0 k.head free
  slab : ∀ s ∈ slabs, SlabOk k.mem s
  count : k.kmallocCache.length = 8
  caches : ∀ c < ready, ∃ first, k.kmallocCache[c]? = some ⟨first, cacheSize c⟩ ∧
    ofCache c slabs ≠ [] ∧ Chain k.mem 8 first (slabPages (ofCache c slabs))

theorem cacheSize_pos (c : Nat) : 0 < cacheSize c := by
  unfold cacheSize
  positivity

theorem cacheSize_injective {c d : Nat} (same : cacheSize c = cacheSize d) : c = d := by
  unfold cacheSize at same
  exact Nat.pow_right_injective (le_refl 2) (Nat.eq_of_mul_eq_mul_left (by decide) same)

theorem object_bounds {page c x : Nat} (member : x ∈ objects page c) :
    page + 24 ≤ x ∧ x + cacheSize c ≤ page + 4096 ∧ ∃ j, x = page + 24 + j * cacheSize c := by
  obtain ⟨j, inside, rfl⟩ := List.mem_map.mp member
  have fits : (j + 1) * cacheSize c ≤ 4096 - 24 :=
    calc (j + 1) * cacheSize c
        ≤ objAmount (cacheSize c) * cacheSize c :=
          Nat.mul_le_mul_right _ (List.mem_range.mp inside)
      _ ≤ 4096 - 24 := Nat.div_mul_le_self _ _
  rw [Nat.add_mul, Nat.one_mul] at fits
  exact ⟨by omega, by omega, j, rfl⟩

theorem object_dvd {page c x : Nat} (aligned : Aligned page) (member : x ∈ objects page c) :
    8 ∣ x := by
  obtain ⟨-, -, j, rfl⟩ := object_bounds member
  have step : 8 ∣ cacheSize c := Dvd.intro _ rfl
  apply Nat.dvd_add _ (Dvd.dvd.mul_left step j)
  unfold Aligned at aligned
  omega

theorem objects_nodup (page c : Nat) : (objects page c).Nodup := by
  apply List.Nodup.map _ List.nodup_range
  intro i j same
  have positive := cacheSize_pos c
  have cancelled : i * cacheSize c = j * cacheSize c := Nat.add_left_cancel same
  exact Nat.eq_of_mul_eq_mul_right positive cancelled

theorem object_inPage {page c x : Nat} (member : x ∈ objects page c) : InPage page x := by
  obtain ⟨lower, upper, -⟩ := object_bounds member
  have positive := cacheSize_pos c
  unfold InPage
  omega

theorem alignDown_inPage {page x : Nat} (aligned : Aligned page) (inside : InPage page x)
    (word : x < 2 ^ 64) : alignDown x 4096 = page := by
  rw [alignDown_page word]
  unfold Aligned InPage at *
  omega

namespace SlabOk

variable {mem mem' : Mem} {s : Slab}

theorem free_mem (ok : SlabOk mem s) {x : Nat} (member : x ∈ s.free) :
    x ∈ objects s.page s.cache := ok.carved.subset (List.mem_append_left _ member)

theorem live_mem (ok : SlabOk mem s) {x : Nat} (member : x ∈ s.live) :
    x ∈ objects s.page s.cache := ok.carved.subset (List.mem_append_right _ member)

theorem nodup (ok : SlabOk mem s) : (s.free ++ s.live).Nodup :=
  ok.carved.nodup_iff.mpr (objects_nodup _ _)

theorem frame (ok : SlabOk mem s) (same : SamePage mem mem' s.page) : SlabOk mem' s where
  cache := ok.cache
  size := by
    rw [same s.page (by unfold InPage; omega)]
    exact ok.size
  freelist := by
    rw [same (s.page + 16) (by unfold InPage; omega)]
    apply ok.freelist.frame
    intro x member
    exact same x (object_inPage (ok.free_mem member))
  carved := ok.carved

end SlabOk

section Separation

variable {pages : List Nat} {ready : Nat} {k : Kernel} {free : List Nat} {slabs : List Slab}
  {others : Multiset Nat}

theorem HeapInv.disjoint (inv : HeapInv pages ready k free slabs others) (usable : Usable pages) :
    free.Nodup ∧ (slabPages slabs).Nodup ∧ (∀ p ∈ free, p ∉ slabPages slabs) ∧
      (∀ p ∈ others, p ∉ free ∧ p ∉ slabPages slabs) := by
  have nodup : ((free : Multiset Nat) + slabPages slabs + others).Nodup := by
    rw [inv.pages]
    exact usable.nodup
  obtain ⟨inner, -, outer⟩ := Multiset.nodup_add.mp nodup
  obtain ⟨left, right, apart⟩ := Multiset.nodup_add.mp inner
  refine ⟨left, right, ?_, ?_⟩
  · intro p inFree inSlabs
    exact Multiset.disjoint_left.mp apart inFree inSlabs
  · intro p inOthers
    have missing := Multiset.disjoint_right.mp outer inOthers
    rw [Multiset.mem_add, not_or] at missing
    exact missing

theorem HeapInv.mem_pages (inv : HeapInv pages ready k free slabs others) {p : Nat}
    (member : p ∈ free ∨ p ∈ slabPages slabs ∨ p ∈ others) : p ∈ pages := by
  have total : p ∈ ((free : Multiset Nat) + slabPages slabs + others) := by
    rw [Multiset.mem_add, Multiset.mem_add]
    tauto
  rw [inv.pages] at total
  exact total

theorem slab_unique {s t : Slab} (nodup : (slabPages slabs).Nodup) (inS : s ∈ slabs)
    (inT : t ∈ slabs) (same : s.page = t.page) : s = t :=
  List.inj_on_of_nodup_map nodup inS inT same

theorem slabPage_mem {s : Slab} (member : s ∈ slabs) : s.page ∈ slabPages slabs :=
  List.mem_map_of_mem member

theorem Usable.length_lt (usable : Usable pages) : pages.length < slabFuel := by
  have inRange : ∀ p ∈ pages, p / 4096 ∈ Finset.Ico 1 (2 ^ 52) := by
    intro p member
    have aligned := usable.aligned p member
    have nonzero := usable.nonzero p member
    have below := usable.below p member
    rw [Finset.mem_Ico]
    unfold Aligned at aligned
    omega
  have distinct : (pages.map fun p => p / 4096).Nodup := by
    apply List.Nodup.map_on _ usable.nodup
    intro p inP q inQ same
    have alignedP := usable.aligned p inP
    have alignedQ := usable.aligned q inQ
    unfold Aligned at *
    omega
  have subset : (pages.map fun p => p / 4096).toFinset ⊆ Finset.Ico 1 (2 ^ 52) := by
    intro q member
    obtain ⟨p, inside, rfl⟩ := List.mem_map.mp (List.mem_toFinset.mp member)
    exact inRange p inside
  have bound := Finset.card_le_card subset
  rw [List.toFinset_card_of_nodup distinct, List.length_map, Nat.card_Ico] at bound
  unfold slabFuel
  omega

theorem ofCache_length_le (c : Nat) : (ofCache c slabs).length ≤ slabs.length :=
  List.length_filter_le _ _

theorem HeapInv.slabs_lt (inv : HeapInv pages ready k free slabs others) (usable : Usable pages)
    (c : Nat) : (ofCache c slabs).length < slabFuel := by
  have total := congrArg Multiset.card inv.pages
  simp only [Multiset.card_add, Multiset.coe_card, slabPages, List.length_map] at total
  have few := usable.length_lt
  have some : (ofCache c slabs).length ≤ slabs.length := ofCache_length_le c
  omega

theorem HeapInv.frame_links (inv : HeapInv pages ready k free slabs others) {mem' : Mem}
    (links : ∀ p ∈ free, mem' p = k.mem p) (same : ∀ p ∈ slabPages slabs, SamePage k.mem mem' p) :
    HeapInv pages ready { k with mem := mem' } free slabs others := by
  refine ⟨inv.pages, ?_, ?_, inv.count, ?_⟩
  · exact inv.list.frame links
  · intro s member
    exact (inv.slab s member).frame (same _ (slabPage_mem member))
  · intro c inside
    obtain ⟨first, cached, nonempty, chain⟩ := inv.caches c inside
    refine ⟨first, cached, nonempty, ?_⟩
    apply chain.frame
    intro q inQ
    obtain ⟨t, inT, rfl⟩ := List.mem_map.mp inQ
    have member := (List.mem_filter.mp inT).1
    exact same _ (slabPage_mem member) _ (by unfold InPage; omega)

theorem HeapInv.frame (inv : HeapInv pages ready k free slabs others) {mem' : Mem}
    (same : ∀ p, p ∈ free ∨ p ∈ slabPages slabs → SamePage k.mem mem' p) :
    HeapInv pages ready { k with mem := mem' } free slabs others := by
  apply inv.frame_links
  · intro x inFree
    exact same x (Or.inl inFree) _ (by unfold InPage; omega)
  · exact fun p member => same p (Or.inr member)

end Separation

/-! Changing one slab. -/

def replaceSlab (s : Slab) (slabs : List Slab) : List Slab :=
  slabs.map fun t => if t.page = s.page then s else t

section Update

variable {pages : List Nat} {ready : Nat} {k : Kernel} {free : List Nat} {slabs : List Slab}
  {others : Multiset Nat} {s : Slab} {mem' : Mem}

theorem slabPages_replace (slabs : List Slab) (s : Slab) :
    slabPages (replaceSlab s slabs) = slabPages slabs := by
  rw [slabPages, replaceSlab, List.map_map]
  apply List.map_congr_left
  intro t _
  simp only [Function.comp_apply]
  split
  · exact Eq.symm ‹_›
  · rfl

theorem ofCache_replace (s' : Slab) (nodup : (slabPages slabs).Nodup) (member : s ∈ slabs)
    (page : s'.page = s.page) (cache : s'.cache = s.cache) (c : Nat) :
    slabPages (ofCache c (replaceSlab s' slabs)) = slabPages (ofCache c slabs) := by
  have kept : ∀ t ∈ slabs, (if t.page = s'.page then s' else t).cache = t.cache ∧
      (if t.page = s'.page then s' else t).page = t.page := by
    intro t inT
    by_cases same : t.page = s'.page
    · rw [if_pos same]
      have equal := slab_unique nodup inT member (same.trans page)
      rw [equal]
      exact ⟨cache, page⟩
    · rw [if_neg same]
      exact ⟨rfl, rfl⟩
  clear member nodup
  induction slabs with
  | nil => rfl
  | cons t rest ih =>
      obtain ⟨sameCache, samePage⟩ := kept t List.mem_cons_self
      have tail := ih fun u inU => kept u (List.mem_cons_of_mem _ inU)
      simp only [replaceSlab, ofCache, slabPages, List.map_cons, List.filter_cons,
        sameCache] at tail ⊢
      by_cases here : t.cache = c
      · simp only [here, decide_true, if_true, List.map_cons, samePage, tail]
      · simp only [here, decide_false, Bool.false_eq_true, if_false, tail]

theorem mem_replaceSlab {s' t : Slab} (inT : t ∈ replaceSlab s' slabs) :
    t = s' ∨ (t ∈ slabs ∧ t.page ≠ s'.page) := by
  obtain ⟨u, inU, rfl⟩ := List.mem_map.mp inT
  by_cases same : u.page = s'.page
  · exact Or.inl (if_pos same)
  · rw [if_neg same]
    exact Or.inr ⟨inU, same⟩

theorem HeapInv.update (inv : HeapInv pages ready k free slabs others) (usable : Usable pages)
    (s' : Slab) (member : s ∈ slabs) (page : s'.page = s.page) (cache : s'.cache = s.cache)
    (outside : ∀ address, ¬ InPage s.page address → mem' address = k.mem address)
    (next : mem' (s.page + 8) = k.mem (s.page + 8)) (ok : SlabOk mem' s') :
    HeapInv pages ready { k with mem := mem' } free (replaceSlab s' slabs) others := by
  obtain ⟨-, nodup, apart, -⟩ := inv.disjoint usable
  have aligned : ∀ q ∈ pages, Aligned q := usable.aligned
  have alignedS := aligned s.page (inv.mem_pages (Or.inr (Or.inl (slabPage_mem member))))
  have samePage : ∀ q, Aligned q → q ≠ s.page → SamePage k.mem mem' q := by
    intro q alignedQ different address inQ
    exact outside address (page_ne alignedQ alignedS different inQ)
  refine ⟨?_, ?_, ?_, inv.count, ?_⟩
  · rw [slabPages_replace]
    exact inv.pages
  · apply inv.list.frame
    intro x inFree
    have different : x ≠ s.page := fun same => apart x inFree (same ▸ slabPage_mem member)
    exact samePage x (aligned x (inv.mem_pages (Or.inl inFree))) different x
      (by unfold InPage; omega)
  · intro t inT
    rcases mem_replaceSlab inT with rfl | ⟨old, different⟩
    · exact ok
    · apply (inv.slab t old).frame
      exact samePage t.page (aligned _ (inv.mem_pages (Or.inr (Or.inl (slabPage_mem old)))))
        (page ▸ different)
  · intro c inside
    obtain ⟨first, cached, nonempty, chain⟩ := inv.caches c inside
    have samePages := ofCache_replace s' nodup member page cache c
    refine ⟨first, cached, ?_, ?_⟩
    · intro empty
      rw [empty] at samePages
      exact nonempty (List.map_eq_nil_iff.mp samePages.symm)
    · rw [samePages]
      apply chain.frame
      intro q inQ
      obtain ⟨t, inT, rfl⟩ := List.mem_map.mp inQ
      have old := (List.mem_filter.mp inT).1
      by_cases same : t.page = s.page
      · rw [same]
        exact next
      · exact samePage t.page (aligned _ (inv.mem_pages (Or.inr (Or.inl (slabPage_mem old)))))
          same _ (by unfold InPage; omega)

end Update

end Nyaux.Mm
