import Nyaux.Mm.PageMap

/-! The page loops of `vmm_region_alloc` and `vmm_region_dealloc`. -/

namespace Nyaux.Mm

open Word Memory Paging

def targets (offset : Nat) (k : Kernel) (run : List Nat) : List Nat :=
  run.map fun page => pointee offset (k.leaf offset page)

/-- An entry from which `get_phys_from_entry` recovers the page that was mapped. -/
structure DataEntry (offset entry : Nat) : Prop where
  present : Present entry
  phys : add64 (getPhysFromEntry entry) offset = pointee offset entry

section Runs

theorem pageAddr_eq {base i : Nat} (small : i < 2 ^ 19) :
    pageAddr base i = (base + i * 4096) % 2 ^ 64 :=
  Overflow.wraps.pageAddr_eq base small

theorem pageIndex_pageAddr {base i : Nat} (small : i < 2 ^ 19) :
    pageIndex (pageAddr base i) = (base / 4096 + i) % 2 ^ 36 := by
  rw [pageAddr_eq small, pageIndex]
  omega

theorem pageLoop_succ (base n : Nat) :
    pageLoop base (n + 1) = pageLoop base n ++ [pageIndex (pageAddr base n)] := by
  simp [pageLoop, List.range_succ]

theorem mem_pageLoop {base n page : Nat} (short : n ≤ 2 ^ 19) :
    page ∈ pageLoop base n ↔ ∃ i < n, page = (base / 4096 + i) % 2 ^ 36 := by
  simp only [pageLoop, List.mem_map, List.mem_range]
  constructor
  · rintro ⟨i, inside, rfl⟩
    exact ⟨i, inside, pageIndex_pageAddr (by omega)⟩
  · rintro ⟨i, inside, rfl⟩
    exact ⟨i, inside, pageIndex_pageAddr (by omega)⟩

theorem pageLoop_lt {base n page : Nat} (member : page ∈ pageLoop base n) : page < 2 ^ 36 := by
  obtain ⟨i, -, rfl⟩ := List.mem_map.mp member
  exact pageIndex_lt _

theorem pageLoop_fresh {base n : Nat} (short : n < 2 ^ 19) :
    pageIndex (pageAddr base n) ∉ pageLoop base n := by
  rw [mem_pageLoop short.le, pageIndex_pageAddr short]
  rintro ⟨i, inside, same⟩
  omega

end Runs

section Loops

variable {offset : Nat} {pages : List Nat} {k : Kernel} {free : List Nat} {slabs : List Slab}
  {tables : List (List Nat × Nat)} {data : Multiset Nat} {flags base n : Nat}

theorem targets_congr {k k' : Kernel} {run : List Nat}
    (same : ∀ page ∈ run, k'.leaf offset page = k.leaf offset page) :
    targets offset k' run = targets offset k run := by
  apply List.map_congr_left
  intro page member
  rw [same page member]

theorem targets_append (k : Kernel) (left right : List Nat) :
    targets offset k (left ++ right) = targets offset k left ++ targets offset k right :=
  List.map_append

theorem dataEntry_or (direct : Direct offset pages) (bits : FlagBits flags) {p : Nat}
    (member : p ∈ pages) :
    DataEntry offset ((p - offset) ||| flags) ∧ pointee offset ((p - offset) ||| flags) = p := by
  obtain ⟨-, aligned, -, near, back⟩ := direct.phys_page member
  have whole : (p - offset) / 4096 * 4096 = p - offset := Nat.div_mul_cancel aligned
  have page : pointee offset ((p - offset) ||| flags) = p := by
    rw [pointee_or bits (by omega), whole, back]
  refine ⟨⟨present_or bits _, ?_⟩, page⟩
  have mask : (0x0007FFFFFFFFF000 : Nat) = tableMask &&& (2 ^ 51 - 2 ^ 12) := by decide
  rw [page, getPhysFromEntry, mask, ← Nat.and_assoc, or_and_tableMask bits (by omega), whole,
    and_high _ 12 51 (by decide) (by omega),
    Nat.div_mul_cancel (show 2 ^ 12 ∣ p - offset from aligned), back]

theorem allocPages_succ : allocPages offset base flags (n + 1) k = (do
    let k ← allocPages offset base flags n k
    mapFreshPage offset (k.root offset) (pageAddr base n) flags k) := by
  cases ran : allocPages offset base flags n k with
  | error stop => rw [allocPages, ran, error_bind, error_bind]
  | ok k₁ =>
      rw [allocPages, ran, ok_bind, ok_bind, mapFreshPage]
      cases taken : pmmAllocSinglep offset k₁ with
      | error stop => rw [error_bind, error_bind]
      | ok r =>
          obtain ⟨page, k₂⟩ := r
          have same : k₂.pml4 = k₁.pml4 := by
            rw [pmmAllocSinglep] at taken
            split at taken
            · obtain ⟨-, rfl⟩ := Prod.mk.inj (Except.ok.inj taken)
              rfl
            · cases taken
          rw [ok_bind, ok_bind]
          dsimp only
          rw [same, Kernel.root]

/-- The loop of `vmm_region_alloc` maps every page of its run to a page from the free list. -/
theorem allocPages_spec (inv : KernelPaging offset pages k free slabs tables data)
    (direct : Direct offset pages) (bits : FlagBits flags) (short : n ≤ 2 ^ 19) :
    (free.length < 4 * n ∧ allocPages offset base flags n k = .error .outOfMemory) ∨
      ∃ k' free' tables', allocPages offset base flags n k = .ok k' ∧
        KernelPaging offset pages k' free' slabs tables'
          ((targets offset k' (pageLoop base n) : Multiset Nat) + data) ∧
        (∀ page ∈ pageLoop base n, DataEntry offset (k'.leaf offset page) ∧
          pointee offset (k'.leaf offset page) ∈ free) ∧
        (∀ page < 2 ^ 36, page ∉ pageLoop base n → k'.leaf offset page = k.leaf offset page) ∧
        Extended offset (k.root offset) (pageLoop base n) k.mem k'.mem ∧
        SameVars k k' ∧ Taken (4 * n) free free' ∧ SameOthers k k' data := by
  induction n with
  | zero =>
      refine Or.inr ⟨k, free, tables, rfl, ?_, ?_, fun page _ _ => rfl, fun _ _ _ _ => rfl,
        SameVars.refl k, Taken.none _ free, fun q _ => SamePage.refl k.mem q⟩
      · rw [show pageLoop base 0 = [] from rfl, targets, List.map_nil, Multiset.coe_nil, zero_add]
        exact inv
      · intro page member
        exact absurd member List.not_mem_nil
  | succ n ih =>
      rcases ih (by omega) with
        ⟨few, stopped⟩ | ⟨k₁, free₁, tables₁, ran₁, inv₁, mapped₁, rest₁, grown₁, vars₁, taken₁, others₁⟩
      · exact Or.inl ⟨by omega, by rw [allocPages, stopped, error_bind]⟩
      have few₁ := taken₁.few
      have step : allocPages offset base flags (n + 1) k =
          mapFreshPage offset (k₁.root offset) (pageAddr base n) flags k₁ := by
        rw [allocPages_succ, ran₁, ok_bind]
      rcases mapFreshPage_spec inv₁ direct bits (pageAddr base n) (under_all _) with
        ⟨few, stopped⟩ | ⟨p, k', free', tables', ran, inFree₁, inv', mapped', vars', taken',
          others', -⟩
      · exact Or.inl ⟨by omega, step.trans stopped⟩
      · have inPages := inv₁.heap.mem_pages (Or.inl inFree₁)
        have leaf' : ∀ page < 2 ^ 36, k'.leaf offset page =
            if page = pageIndex (pageAddr base n) then (p - offset) ||| flags
            else k₁.leaf offset page := by
          intro page bound
          rw [Kernel.leaf, vars'.root]
          exact mapped'.leafEntry (pageIndex_lt _) bound (under_all page)
        have entry := leaf' _ (pageIndex_lt (pageAddr base n))
        rw [if_pos rfl] at entry
        have others : ∀ page < 2 ^ 36, page ≠ pageIndex (pageAddr base n) →
            k'.leaf offset page = k₁.leaf offset page := by
          intro page bound different
          rw [leaf' page bound, if_neg different]
        have earlier : ∀ page ∈ pageLoop base n, k'.leaf offset page = k₁.leaf offset page := by
          intro page member
          apply others page (pageLoop_lt member)
          rintro rfl
          exact pageLoop_fresh (by omega) member
        obtain ⟨dataEntry, target⟩ := dataEntry_or direct bits inPages
        refine Or.inr ⟨k', free', tables', step.trans ran, ?_, ?_, ?_, ?_, vars₁.trans vars',
          taken₁.trans taken', ?_⟩
        · have last : targets offset k' [pageIndex (pageAddr base n)] = [p] := by
            rw [targets, List.map_singleton, entry, target]
          rw [pageLoop_succ, targets_append, targets_congr earlier, last, ← Multiset.coe_add,
            Multiset.coe_singleton, add_right_comm, add_comm, Multiset.singleton_add, KernelPaging,
            vars'.root]
          exact inv'
        · intro page member
          rw [pageLoop_succ, List.mem_append, List.mem_singleton] at member
          rcases member with old | rfl
          · rw [earlier page old]
            exact mapped₁ page old
          · rw [entry, target]
            exact ⟨dataEntry, taken₁.suffix.subset inFree₁⟩
        · intro page bound outside
          rw [pageLoop_succ, List.mem_append, List.mem_singleton, not_or] at outside
          rw [others page bound outside.2]
          exact rest₁ page bound outside.1
        · rw [pageLoop_succ]
          have grown := mapped'.extended
          rw [vars₁.root] at grown
          exact grown₁.trans grown
        · intro q member
          have inData : q ∈ (targets offset k₁ (pageLoop base n) : Multiset Nat) + data :=
            Multiset.mem_add.mpr (Or.inr member)
          exact (others₁ q member).trans (others' q inData)

/-- The loop of `vmm_region_dealloc` unmaps the run and puts its pages on the free list. -/
theorem freePages_spec (direct : Direct offset pages) (short : n ≤ 2 ^ 19)
    (inv : KernelPaging offset pages k free slabs tables
      ((targets offset k (pageLoop base n) : Multiset Nat) + data))
    (mapped : ∀ page ∈ pageLoop base n, DataEntry offset (k.leaf offset page)) :
    KernelPaging offset pages (freePages offset base n k)
        ((targets offset k (pageLoop base n)).reverse ++ free) slabs tables data ∧
      (∀ page < 2 ^ 36, (freePages offset base n k).leaf offset page =
        if page ∈ pageLoop base n then 0 else k.leaf offset page) ∧
      Extended offset (k.root offset) [] k.mem (freePages offset base n k).mem ∧
      SameVars k (freePages offset base n k) ∧ SameOthers k (freePages offset base n k) data := by
  induction n generalizing data with
  | zero =>
      rw [show pageLoop base 0 = [] from rfl, targets, List.map_nil, Multiset.coe_nil,
        zero_add] at inv
      refine ⟨inv, ?_, fun _ _ _ _ => rfl, SameVars.refl k, fun q _ => SamePage.refl k.mem q⟩
      intro page _
      rw [if_neg (show page ∉ pageLoop base 0 from List.not_mem_nil)]
      rfl
  | succ n ih =>
      rw [pageLoop_succ] at inv mapped ⊢
      have fresh : pageIndex (pageAddr base n) ∉ pageLoop base n := pageLoop_fresh (by omega)
      have dataEntry := mapped (pageIndex (pageAddr base n)) (by simp)
      have split : ((targets offset k (pageLoop base n ++ [pageIndex (pageAddr base n)]) :
          List Nat) : Multiset Nat) + data = (targets offset k (pageLoop base n) : Multiset Nat) +
            pointee offset (k.leaf offset (pageIndex (pageAddr base n))) ::ₘ data := by
        rw [targets_append, ← Multiset.coe_add, add_assoc]
        rfl
      rw [split] at inv
      obtain ⟨inv₁, leaf₁, grown₁, vars₁, others₁⟩ := ih (by omega) inv
        (fun page member => mapped page (List.mem_append_left _ member))
      obtain ⟨k₂, ran, inv₂, leaf₂, entries₂, vars₂, others₂⟩ :=
        unmap_kernel inv₁ direct (pageAddr base n)
      have entry : (freePages offset base n k).leaf offset (pageIndex (pageAddr base n)) =
          k.leaf offset (pageIndex (pageAddr base n)) := by
        rw [leaf₁ _ (pageIndex_lt _), if_neg fresh]
      have step : freePages offset base (n + 1) k =
          pmmFreeSinglep (pointee offset (k.leaf offset (pageIndex (pageAddr base n)))) k₂ := by
        have same : add64 (freePages offset base n k).pml4 offset =
            (freePages offset base n k).root offset := rfl
        rw [freePages]
        dsimp only
        rw [same, ran, entry, ← dataEntry.phys]
      obtain ⟨inv', entries', others'⟩ := inv₂.give direct.usable
      rw [step]
      refine ⟨?_, ?_, ?_, ?_, ?_⟩
      · rw [targets_append, List.reverse_append]
        exact inv'
      · intro page bound
        have given : (pmmFreeSinglep (pointee offset (k.leaf offset
            (pageIndex (pageAddr base n)))) k₂).leaf offset page = k₂.leaf offset page :=
          entries'.leaf (under_all page)
        rw [given, leaf₂ page bound, leaf₁ page bound]
        by_cases last : page = pageIndex (pageAddr base n)
        · simp [last]
        · simp [last]
      · have unmapped : Extended offset (k.root offset) [] (freePages offset base n k).mem k₂.mem := by
          intro path ok short _
          rw [← vars₁.root, entries₂ path ok, if_neg]
          rintro rfl
          exact absurd short (by simp [entryPath, leafPath])
        have given := entries'.extended []
        rw [vars₂.root, vars₁.root] at given
        exact (grown₁.trans unmapped).trans given
      · exact (vars₁.trans vars₂).trans ⟨rfl, rfl, rfl⟩
      · intro q member
        have inData := Multiset.mem_cons_of_mem (a := q)
          (b := pointee offset (k.leaf offset (pageIndex (pageAddr base n)))) member
        exact (others₁ q inData).trans ((others₂ q inData).trans (others' q member))

end Loops

end Nyaux.Mm
