import Nyaux.Mm.SlabAlloc

/-! One specification for `slab_alloc` and one for `free`, over the pages owned elsewhere. -/

namespace Nyaux.Mm

open Word Memory

def liveObjects (slabs : List Slab) : Multiset (Nat × Nat) :=
  (slabs.flatMap fun s => s.live.map fun x => (x, s.cache) : List (Nat × Nat))

theorem liveObjects_addresses (slabs : List Slab) :
    (liveObjects slabs).map Prod.fst = (slabs.flatMap Slab.live : List Nat) := by
  rw [liveObjects, Multiset.map_coe, List.map_flatMap]
  congr 1
  apply List.flatMap_congr
  intro t _
  rw [List.map_map]
  exact List.map_id _

def SameOthers (k k' : Kernel) (others : Multiset Nat) : Prop :=
  ∀ q ∈ others, SamePage k.mem k'.mem q

structure SameVars (k k' : Kernel) : Prop where
  caches : k'.kmallocCache = k.kmallocCache
  regions : k'.regions = k.regions
  pml4 : k'.pml4 = k.pml4

structure Taken (n : Nat) (free free' : List Nat) : Prop where
  suffix : free' <:+ free
  few : free.length ≤ free'.length + n

theorem Taken.none (n : Nat) (free : List Nat) : Taken n free free :=
  ⟨List.suffix_refl free, Nat.le_add_right _ _⟩

theorem Taken.one (n page : Nat) (free : List Nat) : Taken (n + 1) (page :: free) free :=
  ⟨List.suffix_cons page free, by simp only [List.length_cons]; omega⟩

theorem Taken.trans {m n : Nat} {a b c : List Nat} (first : Taken m a b) (second : Taken n b c) :
    Taken (m + n) a c := by
  have fewer := first.few
  have least := second.few
  exact ⟨second.suffix.trans first.suffix, by omega⟩

theorem SameVars.refl (k : Kernel) : SameVars k k := ⟨rfl, rfl, rfl⟩

theorem SameVars.trans {a b c : Kernel} (first : SameVars a b) (second : SameVars b c) :
    SameVars a c :=
  ⟨second.caches.trans first.caches, second.regions.trans first.regions,
    second.pml4.trans first.pml4⟩

theorem SameOthers.trans {a b c : Kernel} {others : Multiset Nat} (first : SameOthers a b others)
    (second : SameOthers b c others) : SameOthers a c others :=
  fun q member => (first q member).trans (second q member)

section Replace

variable {slabs before after : List Slab} {s : Slab}

theorem replace_split (s' : Slab) (nodup : (slabPages slabs).Nodup) (split : slabs = before ++ s :: after)
    (page : s'.page = s.page) : replaceSlab s' slabs = before ++ s' :: after := by
  subst split
  rw [slabPages, List.map_append, List.map_cons, List.nodup_middle, List.nodup_cons,
    List.mem_append, not_or] at nodup
  have kept : ∀ t ∈ before ++ after, (if t.page = s'.page then s' else t) = t := by
    intro t inT
    apply if_neg
    intro same
    rcases List.mem_append.mp inT with left | right
    · exact nodup.1.1 (List.mem_map.mpr ⟨t, left, same.trans page⟩)
    · exact nodup.1.2 (List.mem_map.mpr ⟨t, right, same.trans page⟩)
  rw [replaceSlab, List.map_append, List.map_cons, if_pos page.symm,
    List.map_congr_left fun t inT => kept t (List.mem_append_left _ inT),
    List.map_congr_left fun t inT => kept t (List.mem_append_right _ inT), List.map_id',
    List.map_id']

theorem liveObjects_split (before after : List Slab) (s : Slab) :
    liveObjects (before ++ s :: after) =
      (s.live.map fun x => (x, s.cache) : List (Nat × Nat)) + liveObjects (before ++ after) := by
  simp only [liveObjects, List.flatMap_append, List.flatMap_cons, ← Multiset.coe_add]
  abel

theorem liveObjects_take (nodup : (slabPages slabs).Nodup) (member : s ∈ slabs) (x : Nat)
    (rest : List Nat) :
    liveObjects (replaceSlab { s with free := rest, live := x :: s.live } slabs) =
      (x, s.cache) ::ₘ liveObjects slabs := by
  obtain ⟨before, after, split⟩ := List.append_of_mem member
  rw [replace_split { s with free := rest, live := x :: s.live } nodup split rfl, split,
    liveObjects_split, liveObjects_split, List.map_cons, ← Multiset.cons_coe, Multiset.cons_add]

theorem liveObjects_new (page c : Nat) (free : List Nat) :
    liveObjects (slabs ++ [⟨page, c, free, []⟩]) = liveObjects slabs := by
  rw [liveObjects_split, List.append_nil]
  simp

theorem mem_liveObjects {x c : Nat} :
    (x, c) ∈ liveObjects slabs ↔ ∃ s ∈ slabs, x ∈ s.live ∧ s.cache = c := by
  simp [liveObjects, List.mem_flatMap]

end Replace

section Walk

variable {mem : Mem}

/-- The walk of `slab_alloc` over the slabs of a cache. -/
theorem findSlab_eq (slabs : List Slab) (first fuel : Nat) (nonempty : slabs ≠ [])
    (chain : Chain mem 8 first (slabPages slabs)) (ok : ∀ s ∈ slabs, SlabOk mem s)
    (enough : slabs.length ≤ fuel) :
    (∃ s ∈ slabs, s.free ≠ [] ∧ findSlab mem fuel first = .ok (true, s.page)) ∨
      ∃ front last, slabs = front ++ [last] ∧ (∀ s ∈ slabs, s.free = []) ∧
        findSlab mem fuel first = .ok (false, last.page) := by
  induction slabs generalizing first fuel with
  | nil => exact absurd rfl nonempty
  | cons s rest ih =>
      obtain ⟨fuel, rfl⟩ : ∃ m, fuel = m + 1 := ⟨fuel - 1, by simp only [List.length_cons] at enough; omega⟩
      obtain ⟨rfl, nonzero, tail⟩ := chain
      have freelist := (ok s List.mem_cons_self).freelist
      rw [findSlab, if_neg nonzero]
      by_cases exhausted : s.free = []
      · have null : mem (s.page + 16) = 0 := freelist.first_eq_zero_iff.mpr exhausted
        rw [if_neg (not_not.mpr null)]
        cases rest with
        | nil =>
            have ends : mem (s.page + 8) = 0 := tail
            refine Or.inr ⟨[], s, rfl, ?_, by rw [if_pos ends]⟩
            intro t inT
            rw [List.mem_singleton.mp inT]
            exact exhausted
        | cons next rest =>
            have more : mem (s.page + 8) ≠ 0 := fun zero =>
              absurd (tail.first_eq_zero_iff.mp zero) (List.cons_ne_nil _ _)
            rw [if_neg more]
            rcases ih _ fuel (List.cons_ne_nil next rest) tail
              (fun t inT => ok t (List.mem_cons_of_mem _ inT))
              (by simp only [List.length_cons] at enough ⊢; omega) with
              ⟨t, inT, some, found⟩ | ⟨front, last, split, none, found⟩
            · exact Or.inl ⟨t, List.mem_cons_of_mem _ inT, some, found⟩
            · refine Or.inr ⟨s :: front, last, by rw [split]; rfl, ?_, found⟩
              intro t inT
              rcases List.mem_cons.mp inT with rfl | later
              · exact exhausted
              · exact none t later
      · have some : mem (s.page + 16) ≠ 0 := fun null =>
          exhausted (freelist.first_eq_zero_iff.mp null)
        exact Or.inl ⟨s, List.mem_cons_self, exhausted, by rw [if_pos some]⟩

/-- The walk of `free` finds a header that is on the list. -/
theorem findHeader_eq (nodes : List Nat) (h first prev fuel : Nat)
    (chain : Chain mem 8 first nodes) (member : h ∈ nodes) (enough : nodes.length ≤ fuel) :
    ∃ before, findHeader mem h fuel prev first = .ok (true, before) := by
  induction nodes generalizing first prev fuel with
  | nil => simp at member
  | cons node rest ih =>
      obtain ⟨fuel, rfl⟩ : ∃ m, fuel = m + 1 := ⟨fuel - 1, by simp only [List.length_cons] at enough; omega⟩
      obtain ⟨rfl, nonzero, tail⟩ := chain
      rw [findHeader, if_neg nonzero]
      by_cases here : first = h
      · exact ⟨prev, if_pos here⟩
      · rw [if_neg here]
        have later : h ∈ rest := (List.mem_cons.mp member).resolve_left (Ne.symm here)
        exact ih _ first fuel tail later (by simp only [List.length_cons] at enough; omega)

end Walk

section Specs

variable {pages : List Nat} {ready : Nat} {k : Kernel} {free : List Nat} {slabs : List Slab}
  {others : Multiset Nat}

theorem sameFree_of_outside (inv : HeapInv pages ready k free slabs others)
    (usable : Usable pages) {p : Nat} (owned : p ∈ slabPages slabs) {mem' : Mem}
    (outside : ∀ address, ¬ InPage p address → mem' address = k.mem address) :
    ∀ q ∈ free, SamePage k.mem mem' q := by
  obtain ⟨-, -, apart, -⟩ := inv.disjoint usable
  intro q inFree address inQ
  apply outside
  have different : q ≠ p := by
    rintro rfl
    exact apart q inFree owned
  exact page_ne (usable.aligned q (inv.mem_pages (Or.inl inFree)))
    (usable.aligned p (inv.mem_pages (Or.inr (Or.inl owned)))) different inQ

theorem sameOthers_of_outside (inv : HeapInv pages ready k free slabs others)
    (usable : Usable pages) {p : Nat} (owned : p ∈ free ∨ p ∈ slabPages slabs) {mem' : Mem}
    (outside : ∀ address, ¬ InPage p address → mem' address = k.mem address) :
    ∀ q ∈ others, SamePage k.mem mem' q := by
  obtain ⟨-, -, -, elsewhere⟩ := inv.disjoint usable
  intro q inOthers address inQ
  apply outside
  have different : q ≠ p := by
    rintro rfl
    rcases owned with inFree | inSlabs
    · exact (elsewhere q inOthers).1 inFree
    · exact (elsewhere q inOthers).2 inSlabs
  exact page_ne (usable.aligned q (inv.mem_pages (Or.inr (Or.inr inOthers))))
    (usable.aligned p (inv.mem_pages (by tauto))) different inQ

theorem takeObject_spec (inv : HeapInv pages ready k free slabs others) (usable : Usable pages)
    {s : Slab} (member : s ∈ slabs) {x : Nat} {rest : List Nat} (listed : s.free = x :: rest) :
    ∃ k', takeObject s.page k = (x, k') ∧
      HeapInv pages ready k' free
        (replaceSlab { s with free := rest, live := x :: s.live } slabs) others ∧
      SameOthers k k' others ∧ SameVars k k' ∧ SameOthers k k' (free : Multiset Nat) := by
  have ok := inv.slab s member
  have chain := ok.freelist
  rw [listed] at chain
  obtain ⟨first, nonzero, tail⟩ := chain
  have header : InPage s.page (s.page + 16) := by unfold InPage; omega
  have outside : ∀ address, ¬ InPage s.page address →
      store k.mem (s.page + 16) (k.mem x) address = k.mem address := by
    intro address away
    apply store_other
    rintro rfl
    exact away header
  have rest_mem : ∀ y ∈ x :: rest, s.page + 24 ≤ y := by
    intro y inY
    exact (object_bounds (ok.free_mem (listed ▸ inY))).1
  refine ⟨{ k with mem := store k.mem (s.page + 16) (k.mem x) }, ?_, ?_, ?_, ⟨rfl, rfl, rfl⟩,
    sameFree_of_outside inv usable (slabPage_mem member) outside⟩
  · rw [takeObject, first]
  · apply inv.update usable { s with free := rest, live := x :: s.live } member rfl rfl outside
    · exact store_other _ _ _ _ (by omega)
    · refine ⟨ok.cache, ?_, ?_, ?_⟩
      · dsimp only
        rw [store_other _ _ _ _ (by omega)]
        exact ok.size
      · dsimp only
        rw [store_same]
        apply tail.frame
        intro y inY
        have := rest_mem y (List.mem_cons_of_mem _ inY)
        exact store_other _ _ _ _ (by omega)
      · have carved := ok.carved
        rw [listed] at carved
        exact List.perm_middle.trans carved
  · exact sameOthers_of_outside inv usable (Or.inr (slabPage_mem member)) outside

/-- An object of cache `c` that was free and keeps its words, all but the link; or a new one, whose
words are 0, because the cache had no free one. -/
def Recycled (slabs : List Slab) (mem mem' : Mem) (c x : Nat) : Prop :=
  (∃ t ∈ slabs, t.cache = c ∧ x ∈ t.free ∧
    ∀ d, 0 < d → d < cacheSize c → mem' (x + d) = mem (x + d)) ∨
  ((∀ t ∈ slabs, t.cache = c → t.free = []) ∧ ∀ d, 0 < d → d < cacheSize c → mem' (x + d) = 0)

structure Handed (slabs slabs' : List Slab) (mem mem' : Mem) (c x : Nat) : Prop where
  block : Recycled slabs mem mem' c x
  free : ∀ t ∈ slabs', ∀ y ∈ t.free, (∃ t₀ ∈ slabs, t₀.cache = t.cache ∧ y ∈ t₀.free ∧
      ∀ d, 0 < d → d < cacheSize t.cache → mem' (y + d) = mem (y + d)) ∨
    t.cache = c ∧ Recycled slabs mem mem' c y

theorem object_word_ne {s t : Slab} (alignedS : Aligned s.page) (alignedT : Aligned t.page) {x d i : Nat}
    (member : x ∈ objects t.page t.cache) (inside : d < cacheSize t.cache) (header : i < 24) :
    x + d ≠ s.page + i := by
  obtain ⟨lower, upper, -⟩ := object_bounds member
  unfold Aligned at alignedS alignedT
  omega

theorem slabMem_word {mem : Mem} {page c x d : Nat} (member : x ∈ objects page c) (positive : 0 < d)
    (inside : d < cacheSize c) : slabMem mem page (cacheSize c) (x + d) = 0 := by
  obtain ⟨lower, upper, j, place⟩ := object_bounds member
  rw [slabMem, linkObjects_other, store_other _ _ _ _ (by omega), store_other _ _ _ _ (by omega)]
  · exact zeroPage_inside ⟨by omega, by omega⟩
  · intro i _ same
    -- a link stands at a multiple of the size
    have multiple : (i : Int) * cacheSize c = j * cacheSize c + d := by
      have cast := congrArg (Nat.cast : Nat → Int) same
      rw [place] at cast
      push_cast at cast
      omega
    have less : (j : Int) < i := by
      by_contra ordered
      nlinarith
    nlinarith

theorem handed_take {s : Slab} {mem mem' : Mem} {x : Nat} {rest : List Nat} (member : s ∈ slabs)
    (aligned : ∀ t ∈ slabs, Aligned t.page) (ok : ∀ t ∈ slabs, SlabOk mem t)
    (listed : s.free = x :: rest)
    (outside : ∀ address, address ≠ s.page + 16 → mem' address = mem address) :
    Handed slabs (replaceSlab { s with free := rest, live := x :: s.live } slabs) mem mem' s.cache
      x := by
  have kept : ∀ t ∈ slabs, ∀ y ∈ t.free, ∀ d, 0 < d → d < cacheSize t.cache →
      mem' (y + d) = mem (y + d) := by
    intro t inT y inY d _ inside
    apply outside
    exact object_word_ne (aligned s member) (aligned t inT) ((ok t inT).free_mem inY) inside
      (by decide)
  have first : x ∈ s.free := by simp [listed]
  refine ⟨Or.inl ⟨s, member, rfl, first, kept s member x first⟩, ?_⟩
  intro t inT y inY
  rcases mem_replaceSlab inT with rfl | ⟨old, -⟩
  · have behind : y ∈ s.free := by
      rw [listed]
      exact List.mem_cons_of_mem x inY
    exact Or.inl ⟨s, member, rfl, behind, kept s member y behind⟩
  · exact Or.inl ⟨t, old, rfl, inY, kept t old y inY⟩

theorem handed_new {mem : Mem} {page c : Nat} {last : Slab} {rest : List Nat}
    (aligned : ∀ t ∈ slabs, Aligned t.page) (alignedPage : Aligned page)
    (away : ∀ t ∈ slabs, t.page ≠ page) (ok : ∀ t ∈ slabs, SlabOk mem t)
    (none : ∀ t ∈ slabs, t.cache = c → t.free = []) (lastIn : last ∈ slabs) (small : c < 8)
    (listed : objects page c = (page + 24) :: rest) (value : Nat) :
    Handed slabs (replaceSlab ⟨page, c, rest, [page + 24]⟩
        (slabs ++ [⟨page, c, (page + 24) :: rest, []⟩])) mem
      (store (store (slabMem mem page (cacheSize c)) (last.page + 8) page) (page + 16) value) c
      (page + 24) := by
  have new : ∀ y ∈ objects page c, Recycled slabs mem
      (store (store (slabMem mem page (cacheSize c)) (last.page + 8) page) (page + 16) value) c
      y := by
    refine fun y inY => Or.inr ⟨none, fun d positive inside => ?_⟩
    have own := object_bounds inY
    have other : y + d ≠ last.page + 8 :=
      object_word_ne (t := ⟨page, c, [], []⟩) (aligned last lastIn) alignedPage inY inside
        (by decide)
    rw [store_other _ _ _ _ (by omega), store_other _ _ _ _ other]
    exact slabMem_word inY positive inside
  refine ⟨new _ (by simp [listed]), ?_⟩
  intro t inT y inY
  rcases mem_replaceSlab inT with rfl | ⟨old, different⟩
  · refine Or.inr ⟨rfl, new y ?_⟩
    rw [listed]
    exact List.mem_cons_of_mem _ inY
  · have inSlabs : t ∈ slabs := by
      rcases List.mem_append.mp old with member | isNew
      · exact member
      · exact absurd (congrArg Slab.page (List.mem_singleton.mp isNew)) different
    refine Or.inl ⟨t, inSlabs, rfl, inY, fun d _ inside => ?_⟩
    have object := (ok t inSlabs).free_mem inY
    obtain ⟨lower, upper, -⟩ := object_bounds object
    have header : y + d ≠ page + 16 :=
      object_word_ne (s := ⟨page, c, [], []⟩) alignedPage (aligned t inSlabs) object inside
        (by decide)
    have link : y + d ≠ last.page + 8 :=
      object_word_ne (aligned last lastIn) (aligned t inSlabs) object inside (by decide)
    rw [store_other _ _ _ _ header, store_other _ _ _ _ link]
    exact slabMem_outside small _ (page_ne (aligned t inSlabs) alignedPage (away t inSlabs)
      ⟨by omega, by omega⟩)

/-- `slab_alloc` stops only when no page is left; otherwise it hands out one more object. -/
theorem slabAlloc_spec (inv : HeapInv pages ready k free slabs others) (usable : Usable pages)
    {c : Nat} (inside : c < ready) (small : c < 8) {cache : Cache}
    (cached : k.kmallocCache[c]? = some cache) (offset : Nat) :
    (free = [] ∧ slabAlloc offset cache k = .error .outOfMemory) ∨
      ∃ x k' free' slabs', slabAlloc offset cache k = .ok (x, k') ∧
        HeapInv pages ready k' free' slabs' others ∧
        liveObjects slabs' = (x, c) ::ₘ liveObjects slabs ∧
        SameOthers k k' others ∧ SameVars k k' ∧ Taken 1 free free' ∧
        SameOthers k k' (free' : Multiset Nat) ∧ Handed slabs slabs' k.mem k'.mem c x := by
  obtain ⟨first, entry, nonempty, chain⟩ := inv.caches c inside
  obtain rfl : ⟨first, cacheSize c⟩ = cache := Option.some.inj (entry.symm.trans cached)
  obtain ⟨-, nodup, -, -⟩ := inv.disjoint usable
  have ofC : ∀ s ∈ ofCache c slabs, s ∈ slabs ∧ s.cache = c := by
    intro s inS
    obtain ⟨member, same⟩ := List.mem_filter.mp inS
    exact ⟨member, of_decide_eq_true same⟩
  have enough := (inv.slabs_lt usable c).le
  rcases findSlab_eq _ first slabFuel nonempty chain
    (fun s inS => inv.slab s (ofC s inS).1) enough with
    ⟨s, inS, some, found⟩ | ⟨front, last, split, full, found⟩
  · obtain ⟨member, same⟩ := ofC s inS
    obtain ⟨x, rest, listed⟩ := List.exists_cons_of_ne_nil some
    obtain ⟨k', taken, inv', others', vars, kept⟩ := takeObject_spec inv usable member listed
    refine Or.inr ⟨x, k', free, _, ?_, inv', ?_, others', vars, Taken.none 1 free, kept, ?_⟩
    · simp only [slabAlloc, found, bind, Except.bind, if_true, taken]
    · rw [liveObjects_take nodup member, same]
    · obtain ⟨-, rfl⟩ := Prod.mk.inj taken
      rw [← same]
      apply handed_take member _ inv.slab listed
      · exact fun address away => store_other _ _ _ _ away
      · exact fun t inT => usable.aligned _ (inv.mem_pages (Or.inr (Or.inl (slabPage_mem inT))))
  · have lastIn := ofC last (by rw [split]; simp)
    cases free with
    | nil =>
        have null : k.head = 0 := inv.list
        refine Or.inl ⟨rfl, ?_⟩
        simp [slabAlloc, found, bind, Except.bind, makeSlab, pmmAllocSinglep, null]
    | cons page free =>
        obtain ⟨listed, nonzero, word, -, -⟩ := inv.first usable
        have grown := inv.append usable inside small split
        obtain ⟨amount, more⟩ : ∃ n, objAmount (cacheSize c) = n + 1 :=
          ⟨objAmount (cacheSize c) - 1, by have := objAmount_pos small; omega⟩
        have objectList : objects page c = (page + 24) ::
            (List.range' 1 amount).map fun j => page + 24 + j * cacheSize c := by
          rw [objects, more, List.range_eq_range', List.range'_succ, List.map_cons, Nat.zero_mul,
            Nat.add_zero]
        have newIn : (⟨page, c, objects page c, []⟩ : Slab) ∈
            slabs ++ [⟨page, c, objects page c, []⟩] := by simp
        obtain ⟨k', taken, inv', others', vars, kept⟩ :=
          takeObject_spec grown usable newIn objectList
        have lastNonzero : last.page ≠ 0 :=
          usable.nonzero _ (inv.mem_pages (Or.inr (Or.inl (slabPage_mem lastIn.1))))
        have header : store (slabMem k.mem page (cacheSize c)) (last.page + 8) page (page + 16) ≠
            0 := by
          have freelist := (grown.slab _ newIn).freelist
          intro null
          have empty := freelist.first_eq_zero_iff.mp null
          rw [objectList] at empty
          exact List.cons_ne_nil _ _ empty
        -- a new slab and its link are written in the new page and in the last slab
        have outside : ∀ q ∈ pages, q ≠ page → q ≠ last.page → SamePage k.mem
            (store (slabMem k.mem page (cacheSize c)) (last.page + 8) page) q := by
          intro q inPages awayNew awayLast address inQ
          have alignedQ := usable.aligned q inPages
          rw [store_other]
          · exact slabMem_outside small _ (page_ne alignedQ
              (usable.aligned page (inv.mem_pages (Or.inl List.mem_cons_self))) awayNew inQ)
          · rintro rfl
            exact page_ne (usable.aligned _ (inv.mem_pages
              (Or.inr (Or.inl (slabPage_mem lastIn.1))))) alignedQ awayLast.symm
              (by unfold InPage; omega) inQ
        obtain ⟨freeNodup, -, apart, elsewhere⟩ := inv.disjoint usable
        refine Or.inr ⟨page + 24, k', free, _, ?_, inv', ?_, ?_,
          ⟨vars.caches, vars.regions, vars.pml4⟩, Taken.one 0 page free, ?_, ?_⟩
        · simp only [slabAlloc, found, bind, Except.bind, Bool.false_eq_true, if_false,
            makeSlab_eq listed nonzero word, if_neg lastNonzero, if_neg header, taken]
        · obtain ⟨-, grownNodup, -, -⟩ := grown.disjoint usable
          rw [liveObjects_take grownNodup newIn, liveObjects_new]
        · intro q inOthers
          obtain ⟨notFree, notSlab⟩ := elsewhere q inOthers
          refine (outside q (inv.mem_pages (Or.inr (Or.inr inOthers))) ?_ ?_).trans
            (others' q inOthers)
          · rintro rfl
            exact notFree List.mem_cons_self
          · rintro rfl
            exact notSlab (slabPage_mem lastIn.1)
        · intro q inFree
          have behind := List.mem_cons_of_mem page inFree
          refine (outside q (inv.mem_pages (Or.inl behind)) ?_ ?_).trans (kept q inFree)
          · rintro rfl
            exact (List.nodup_cons.mp freeNodup).1 inFree
          · rintro rfl
            exact apart _ behind (slabPage_mem lastIn.1)
        · obtain ⟨-, rfl⟩ := Prod.mk.inj taken
          have aligned : ∀ t ∈ slabs, Aligned t.page := fun t inT =>
            usable.aligned _ (inv.mem_pages (Or.inr (Or.inl (slabPage_mem inT))))
          have away : ∀ t ∈ slabs, t.page ≠ page := by
            rintro t inT rfl
            exact apart _ List.mem_cons_self (slabPage_mem inT)
          have none : ∀ t ∈ slabs, t.cache = c → t.free = [] := fun t inT same =>
            full t (List.mem_filter.mpr ⟨inT, decide_eq_true same⟩)
          rw [objectList]
          exact handed_new aligned
            (usable.aligned page (inv.mem_pages (Or.inl List.mem_cons_self))) away inv.slab none
            lastIn.1 small objectList _

theorem rightCache_eq (inv : HeapInv pages 8 k free slabs others) {c : Nat} (small : c < 8)
    {cache : Cache} (cached : k.kmallocCache[c]? = some cache) :
    rightCache (cacheSize c) k.kmallocCache = some cache := by
  have entry : ∀ d, d < 8 → ∃ first, k.kmallocCache[d]? = some ⟨first, cacheSize d⟩ := by
    intro d inside
    obtain ⟨first, listed, -⟩ := inv.caches d inside
    exact ⟨first, listed⟩
  obtain ⟨first, listed⟩ := entry c small
  obtain rfl : ⟨first, cacheSize c⟩ = cache := Option.some.inj (listed.symm.trans cached)
  cases found : rightCache (cacheSize c) k.kmallocCache with
  | none =>
      have missing := List.find?_eq_none.mp found ⟨first, cacheSize c⟩
        (List.mem_reverse.mpr (List.mem_of_getElem? cached))
      simp at missing
  | some other =>
      have size := List.find?_some found
      obtain ⟨d, atD⟩ := List.mem_iff_getElem?.mp
        (List.mem_reverse.mp (List.mem_of_find?_eq_some found))
      obtain ⟨bound, -⟩ := List.getElem?_eq_some_iff.mp atD
      obtain ⟨first', listed'⟩ := entry d (by rw [inv.count] at bound; exact bound)
      obtain rfl : ⟨first', cacheSize d⟩ = other := Option.some.inj (listed'.symm.trans atD)
      have same := cacheSize_injective (of_decide_eq_true size)
      subst same
      exact listed'.symm.trans cached

def freedMem (mem : Mem) (page x : Nat) : Mem :=
  store (store mem x (mem (page + 16))) (page + 16) x

theorem freedMem_outside {mem : Mem} {page c x address : Nat} (member : x ∈ objects page c)
    (away : ¬ InPage page address) : freedMem mem page x address = mem address := by
  have inside := object_inPage member
  rw [freedMem, store_other, store_other]
  · rintro rfl
    exact away inside
  · rintro rfl
    exact away ⟨by omega, by omega⟩

theorem slabOk_freed {mem : Mem} {s : Slab} (ok : SlabOk mem s) {x : Nat} (live : x ∈ s.live)
    (nonzero : x ≠ 0) :
    SlabOk (freedMem mem s.page x) { s with free := x :: s.free, live := s.live.erase x } where
  cache := ok.cache
  size := by
    have bounds := object_bounds (ok.live_mem live)
    dsimp only [freedMem]
    rw [store_other _ _ _ _ (by omega), store_other _ _ _ _ (by omega)]
    exact ok.size
  freelist := by
    have bounds := object_bounds (ok.live_mem live)
    have fresh : x ∉ s.free := fun member =>
      (List.nodup_append.mp ok.nodup).2.2 x member x live rfl
    have pushed : Chain (store mem (x + 0) (mem (s.page + 16))) 0 x (x :: s.free) :=
      ok.freelist.push nonzero fresh
    dsimp only [freedMem]
    rw [store_same]
    apply pushed.frame
    intro y inY
    have lower : s.page + 24 ≤ y := by
      rcases List.mem_cons.mp inY with rfl | inFree
      · exact bounds.1
      · exact (object_bounds (ok.free_mem inFree)).1
    exact store_other _ _ _ _ (by omega)
  carved := by
    have moved : (x :: s.free ++ s.live.erase x).Perm (s.free ++ s.live) := by
      rw [List.cons_append]
      exact List.perm_middle.symm.trans ((List.perm_cons_erase live).symm.append_left s.free)
    exact moved.trans ok.carved

theorem live_header (inv : HeapInv pages 8 k free slabs others) (usable : Usable pages) {s : Slab}
    (member : s ∈ slabs) {x : Nat} (live : x ∈ s.live) : alignDown x 4096 = s.page := by
  have owned : s.page ∈ pages := inv.mem_pages (Or.inr (Or.inl (slabPage_mem member)))
  have inPage := object_inPage ((inv.slab s member).live_mem live)
  have below := usable.below _ owned
  apply alignDown_inPage (usable.aligned _ owned) inPage
  unfold InPage at inPage
  omega

/-- `free` puts a live object on the list of its slab, and finds the slab's header on the list of
its cache. -/
theorem free_eq (inv : HeapInv pages 8 k free slabs others) (usable : Usable pages) {s : Slab}
    (member : s ∈ slabs) {x : Nat} (live : x ∈ s.live) :
    Mm.free x k = .ok { k with mem := freedMem k.mem s.page x } ∧
      HeapInv pages 8 { k with mem := freedMem k.mem s.page x } free
        (replaceSlab { s with free := x :: s.free, live := s.live.erase x } slabs) others := by
  have ok := inv.slab s member
  have small := ok.cache
  have owned : s.page ∈ pages := inv.mem_pages (Or.inr (Or.inl (slabPage_mem member)))
  have aligned := usable.aligned _ owned
  have below := usable.below _ owned
  have object := ok.live_mem live
  obtain ⟨lower, upper, -⟩ := object_bounds object
  have inPage := object_inPage object
  obtain ⟨first, cached, -, chain⟩ := inv.caches s.cache small
  obtain ⟨-, nodup, -, -⟩ := inv.disjoint usable
  have header := live_header inv usable member live
  have found : rightCache (k.mem s.page) k.kmallocCache = some ⟨first, cacheSize s.cache⟩ := by
    rw [ok.size]
    exact rightCache_eq inv small cached
  have kept : freedMem k.mem s.page x (s.page + 8) = k.mem (s.page + 8) := by
    rw [freedMem, store_other _ _ _ _ (by omega), store_other _ _ _ _ (by omega)]
  have inv' := inv.update usable { s with free := x :: s.free, live := s.live.erase x } member rfl
    rfl (fun address away => freedMem_outside object away) kept (slabOk_freed ok live (by omega))
  obtain ⟨first', cached', -, chain'⟩ := inv'.caches s.cache small
  obtain rfl : first = first' :=
    (Cache.mk.inj (Option.some.inj (cached.symm.trans cached'))).1
  have listed : s.page ∈ slabPages (ofCache s.cache
      (replaceSlab { s with free := x :: s.free, live := s.live.erase x } slabs)) := by
    rw [ofCache_replace { s with free := x :: s.free, live := s.live.erase x } nodup member rfl rfl]
    exact slabPage_mem (List.mem_filter.mpr ⟨member, decide_eq_true rfl⟩)
  obtain ⟨before, walked⟩ := findHeader_eq _ s.page first 0 slabFuel chain' listed (by
    rw [slabPages, List.length_map]
    exact (inv'.slabs_lt usable _).le)
  refine ⟨?_, inv'⟩
  rw [Mm.free, if_neg (by omega), header]
  dsimp only
  rw [found]
  dsimp only
  rw [freedMem] at walked
  dsimp only at walked
  rw [walked]
  rfl

theorem free_spec (inv : HeapInv pages 8 k free slabs others) (usable : Usable pages) {x c : Nat}
    (live : (x, c) ∈ liveObjects slabs) :
    ∃ k' slabs', Mm.free x k = .ok k' ∧ HeapInv pages 8 k' free slabs' others ∧
      (x, c) ::ₘ liveObjects slabs' = liveObjects slabs ∧
      SameOthers k k' others ∧ SameVars k k' ∧ k'.head = k.head := by
  obtain ⟨s, member, inLive, cacheC⟩ := mem_liveObjects.mp live
  obtain ⟨ran, inv'⟩ := free_eq inv usable member inLive
  have object := (inv.slab s member).live_mem inLive
  obtain ⟨-, nodup, -, -⟩ := inv.disjoint usable
  refine ⟨_, _, ran, inv', ?_, sameOthers_of_outside inv usable (Or.inr (slabPage_mem member))
    fun address away => freedMem_outside object away, ⟨rfl, rfl, rfl⟩, rfl⟩
  obtain ⟨front, back, split⟩ := List.append_of_mem member
  rw [replace_split { s with free := x :: s.free, live := s.live.erase x } nodup split rfl, split,
    liveObjects_split, liveObjects_split, ← cacheC, ← Multiset.cons_add, Multiset.cons_coe]
  congr 1
  exact Multiset.coe_eq_coe.mpr
    (((List.perm_cons_erase inLive).map fun y => (y, s.cache)).symm)

theorem object_apart {page c x y : Nat} (left : x ∈ objects page c) (right : y ∈ objects page c)
    (different : x ≠ y) : x + cacheSize c ≤ y ∨ y + cacheSize c ≤ x := by
  obtain ⟨-, -, i, rfl⟩ := object_bounds left
  obtain ⟨-, -, j, rfl⟩ := object_bounds right
  rcases Nat.lt_trichotomy i j with less | rfl | greater
  · have next : (i + 1) * cacheSize c ≤ j * cacheSize c := Nat.mul_le_mul_right _ less
    rw [Nat.succ_mul] at next
    omega
  · exact absurd rfl different
  · have next : (j + 1) * cacheSize c ≤ i * cacheSize c := Nat.mul_le_mul_right _ greater
    rw [Nat.succ_mul] at next
    omega

theorem replaceSlab_self {s : Slab} (nodup : (slabPages slabs).Nodup) (member : s ∈ slabs) :
    replaceSlab s slabs = slabs := by
  obtain ⟨before, after, split⟩ := List.append_of_mem member
  exact (replace_split s nodup split rfl).trans split.symm

theorem HeapInv.write (inv : HeapInv pages ready k free slabs others) (usable : Usable pages)
    {x c : Nat} (live : (x, c) ∈ liveObjects slabs) {mem' : Mem}
    (outside : ∀ address, ¬ (x ≤ address ∧ address < x + cacheSize c) →
      mem' address = k.mem address) :
    HeapInv pages ready { k with mem := mem' } free slabs others ∧
      ∀ q ∈ others, SamePage k.mem mem' q := by
  obtain ⟨s, member, inLive, rfl⟩ := mem_liveObjects.mp live
  have ok := inv.slab s member
  have object := ok.live_mem inLive
  obtain ⟨lower, upper, -⟩ := object_bounds object
  obtain ⟨-, nodup, -, -⟩ := inv.disjoint usable
  have otherPages : ∀ address, ¬ InPage s.page address → mem' address = k.mem address := by
    intro address away
    apply outside
    unfold InPage at away
    omega
  have ok' : SlabOk mem' s := by
    refine ⟨ok.cache, ?_, ?_, ok.carved⟩
    · rw [outside s.page (by omega)]
      exact ok.size
    · rw [outside (s.page + 16) (by omega)]
      apply ok.freelist.frame
      intro y inFree
      apply outside
      have different : y ≠ x := by
        rintro rfl
        exact List.disjoint_of_nodup_append ok.nodup inFree inLive
      have apart := object_apart (ok.free_mem inFree) object different
      have positive := cacheSize_pos s.cache
      omega
  have updated := inv.update usable s member rfl rfl otherPages (outside _ (by omega)) ok'
  rw [replaceSlab_self nodup member] at updated
  exact ⟨updated, sameOthers_of_outside inv usable (Or.inr (slabPage_mem member)) otherPages⟩

def cacheFor (size : Nat) : Nat :=
  ((List.range 8).findIdx? fun c => cacheSize c ≥ nextPow2 size).getD 0

theorem nextPow2_spec : ∀ size < 1024, size ≤ nextPow2 size ∧ nextPow2 size ≤ 1024 := by
  decide +kernel

theorem cacheFor_spec (size : Nat) (small : size < 1024) :
    ((List.range 8).findIdx? fun c => cacheSize c ≥ nextPow2 size) = some (cacheFor size) ∧
      cacheFor size < 8 ∧ size ≤ cacheSize (cacheFor size) := by
  obtain ⟨enough, within⟩ := nextPow2_spec size small
  cases found : (List.range 8).findIdx? fun c => cacheSize c ≥ nextPow2 size with
  | none =>
      have large := List.findIdx?_eq_none_iff.mp found 7 (by decide)
      rw [decide_eq_false_iff_not] at large
      exact absurd within large
  | some c =>
      have chosen : cacheFor size = c := by rw [cacheFor, found, Option.getD_some]
      obtain ⟨inside, fits, -⟩ := List.findIdx?_eq_some_iff_getElem.mp found
      rw [List.getElem_range, decide_eq_true_eq] at fits
      rw [List.length_range] at inside
      rw [chosen]
      exact ⟨rfl, inside, enough.trans fits⟩
theorem searchForBigenoughcache_eq (inv : HeapInv pages 8 k free slabs others) {size : Nat}
    (small : size < 1024) :
    searchForBigenoughcache (nextPow2 size) k.kmallocCache = some (cacheFor size) := by
  have sizes : k.kmallocCache.map Cache.size = (List.range 8).map cacheSize := by
    apply List.ext_getElem?
    intro c
    rw [List.getElem?_map, List.getElem?_map]
    by_cases inside : c < 8
    · obtain ⟨first, listed, -⟩ := inv.caches c inside
      rw [listed, List.getElem?_range inside]
      rfl
    · rw [List.getElem?_eq_none (by rw [inv.count]; omega),
        List.getElem?_eq_none (by rw [List.length_range]; omega)]
      rfl
  calc searchForBigenoughcache (nextPow2 size) k.kmallocCache
      = (k.kmallocCache.map Cache.size).findIdx? fun s => s ≥ nextPow2 size := by
        rw [List.findIdx?_map]
        rfl
    _ = (List.range 8).findIdx? fun c => cacheSize c ≥ nextPow2 size := by
        rw [sizes, List.findIdx?_map]
        rfl
    _ = some (cacheFor size) := (cacheFor_spec size small).1

/-- `kmalloc` of less than 1024 bytes. -/
theorem kmallocSlab_spec (inv : HeapInv pages 8 k free slabs others) (usable : Usable pages)
    {size : Nat} (small : size < 1024) (offset : Nat) :
    (free = [] ∧ kmallocSlab offset size k = .error .outOfMemory) ∨
      ∃ x k' free' slabs', kmallocSlab offset size k = .ok (x, k') ∧
        HeapInv pages 8 k' free' slabs' others ∧
        liveObjects slabs' = (x, cacheFor size) ::ₘ liveObjects slabs ∧
        SameOthers k k' others ∧ SameVars k k' ∧ Taken 1 free free' ∧
        SameOthers k k' (free' : Multiset Nat) ∧
        Handed slabs slabs' k.mem k'.mem (cacheFor size) x := by
  obtain ⟨-, bound, -⟩ := cacheFor_spec size small
  obtain ⟨first, cached, -⟩ := inv.caches _ bound
  have same : kmallocSlab offset size k = slabAlloc offset ⟨first, cacheSize (cacheFor size)⟩ k := by
    rw [kmallocSlab, searchForBigenoughcache_eq inv small]
    dsimp only
    rw [cached]
  rw [same]
  exact slabAlloc_spec inv usable bound bound cached offset

end Specs

end Nyaux.Mm
