import Nyaux.Mm.RegionSteps
import Nyaux.Mm.UserPages

/-! What the page loops leave behind, whatever address and count they run with. -/

namespace Nyaux.Mm

open Word Memory Paging

/-- The pages in `done` are mapped, each to a cleared page of its own that was free in `k₀`, and
the other pages as they were; `data` are the pages in use outside the heap and the tables. -/
structure LoopInv (offset : Nat) (pages : List Nat) (root flags : Nat) (k₀ : Kernel)
    (free₀ : List Nat) (k : Kernel) (done free : List Nat) (slabs : List Slab)
    (tables : List (List Nat × Nat)) (data : Multiset Nat) : Prop where
  paging : PagingInv offset pages root 512 k free slabs tables data
  taken : free <:+ free₀
  mapped : ∀ page ∈ done, page < 2 ^ 36 ∧ ∃ p ∈ free₀, p ∈ data ∧
    leafEntry offset k.mem root page = (p - offset) ||| flags ∧
    ∀ address, InPage p address → k.mem address = 0
  distinct : ∀ page ∈ done, ∀ page' ∈ done,
    leafEntry offset k.mem root page = leafEntry offset k.mem root page' → page = page'
  rest : ∀ page < 2 ^ 36, page ∉ done →
    leafEntry offset k.mem root page = leafEntry offset k₀.mem root page

namespace LoopInv

variable {offset : Nat} {pages : List Nat} {root flags : Nat} {k₀ k k' : Kernel}
  {free₀ done free : List Nat} {slabs : List Slab} {tables : List (List Nat × Nat)}
  {data : Multiset Nat}

theorem start (inv : PagingInv offset pages root 512 k free slabs tables data)
    (taken : free <:+ free₀) (entries : SameEntries offset root 512 k₀.mem k.mem) :
    LoopInv offset pages root flags k₀ free₀ k [] free slabs tables data where
  paging := inv
  taken := taken
  mapped := fun _ member => absurd member List.not_mem_nil
  distinct := fun _ member => absurd member List.not_mem_nil
  rest := fun page _ _ => entries.leaf (under_all page)

theorem step (inv : LoopInv offset pages root flags k₀ free₀ k done free slabs tables data)
    (direct : Direct offset pages) (bits : FlagBits flags) {virt : Nat}
    (ran : mapFreshPage offset root virt flags k = .ok k') :
    k'.pml4 = k.pml4 ∧ ∃ free' tables' data', LoopInv offset pages root flags k₀ free₀ k'
      (pageIndex virt :: done) free' slabs tables' data' := by
  rcases mapFreshPage_spec inv.paging direct bits virt (under_all _) with
    ⟨-, stopped⟩ |
    ⟨p, k'', free', tables', ran', inFree, paging, made, vars, taken, others, cleared⟩
  · rw [stopped] at ran
    cases ran
  obtain rfl := Except.ok.inj (ran'.symm.trans ran)
  have bound := pageIndex_lt virt
  have entry : leafEntry offset k''.mem root (pageIndex virt) = (p - offset) ||| flags :=
    made.leaf
  have kept : ∀ page < 2 ^ 36, page ≠ pageIndex virt →
      leafEntry offset k''.mem root page = leafEntry offset k.mem root page := by
    intro page small different
    rw [made.leafEntry bound small (under_all page), if_neg different]
  have target : ∀ q ∈ pages, pointee offset ((q - offset) ||| flags) = q :=
    fun q member => (dataEntry_or direct bits member).2
  have inPages := inv.paging.heap.mem_pages (Or.inl inFree)
  -- no page mapped earlier is the new one
  have new : ∀ page ∈ done, page ≠ pageIndex virt →
      leafEntry offset k''.mem root page ≠ (p - offset) ||| flags := by
    intro page member different same
    obtain ⟨small, q, -, inData, mapped, -⟩ := inv.mapped page member
    rw [kept page small different, mapped] at same
    have equal : q = p := by
      calc q = pointee offset ((q - offset) ||| flags) := (target q (inv.paging.data_mem inData)).symm
        _ = pointee offset ((p - offset) ||| flags) := congrArg (pointee offset) same
        _ = p := target p inPages
    rw [equal] at inData
    exact (inv.paging.apart direct.usable inData).1 inFree
  refine ⟨vars.pml4, free', tables', p ::ₘ data, paging, taken.suffix.trans inv.taken, ?_, ?_, ?_⟩
  · intro page member
    by_cases here : page = pageIndex virt
    · rw [here]
      exact ⟨bound, p, inv.taken.subset inFree, Multiset.mem_cons_self p data, entry, cleared⟩
    · have earlier := (List.mem_cons.mp member).resolve_left here
      obtain ⟨small, q, wasFree, inData, mapped, zero⟩ := inv.mapped page earlier
      refine ⟨small, q, wasFree, Multiset.mem_cons_of_mem inData, ?_, ?_⟩
      · rw [kept page small here, mapped]
      · intro address inside
        rw [others q inData address inside]
        exact zero address inside
  · intro page member page' member' same
    by_cases here : page = pageIndex virt
    · by_cases here' : page' = pageIndex virt
      · rw [here, here']
      · rw [here, entry] at same
        exact absurd same.symm (new page' ((List.mem_cons.mp member').resolve_left here') here')
    · have earlier := (List.mem_cons.mp member).resolve_left here
      by_cases here' : page' = pageIndex virt
      · rw [here', entry] at same
        exact absurd same (new page earlier here)
      · have earlier' := (List.mem_cons.mp member').resolve_left here'
        rw [kept page (inv.mapped page earlier).1 here,
          kept page' (inv.mapped page' earlier').1 here'] at same
        exact inv.distinct page earlier page' earlier' same
  · intro page small outside
    rw [List.mem_cons, not_or] at outside
    rw [kept page small outside.1]
    exact inv.rest page small outside.2

theorem mapFreshPages (direct : Direct offset pages) (bits : FlagBits flags) (addrs : List Nat)
    (inv : LoopInv offset pages root flags k₀ free₀ k done free slabs tables data)
    (ran : mapFreshPages offset root flags addrs k = .ok k') :
    ∃ done' free' tables' data',
      LoopInv offset pages root flags k₀ free₀ k' done' free' slabs tables' data' ∧
      ∀ page, page ∈ done' ↔ page ∈ done ∨ page ∈ addrs.map pageIndex := by
  induction addrs generalizing k done free tables data with
  | nil =>
      obtain rfl := Except.ok.inj ran
      exact ⟨done, free, tables, data, inv, fun page => by simp⟩
  | cons virt rest ih =>
      obtain ⟨k₁, first, ran⟩ := of_bind_ok ran
      obtain ⟨-, free₁, tables₁, data₁, inv₁⟩ := inv.step direct bits first
      obtain ⟨done', free', tables', data', inv', known⟩ := ih inv₁ ran
      refine ⟨done', free', tables', data', inv', fun page => ?_⟩
      rw [known page, List.mem_cons, List.map_cons, List.mem_cons]
      tauto

/-- The loop of `vmm_region_alloc`. -/
theorem allocPages (direct : Direct offset pages) (bits : FlagBits flags) {base n : Nat}
    (inv : LoopInv offset pages (k.root offset) flags k₀ free₀ k [] free slabs tables data)
    (ran : allocPages offset base flags n k = .ok k') :
    k'.pml4 = k.pml4 ∧ ∃ done' free' tables' data',
      LoopInv offset pages (k.root offset) flags k₀ free₀ k' done' free' slabs tables' data' ∧
      ∀ page, page ∈ done' ↔ page ∈ pageLoop base n := by
  induction n generalizing k' with
  | zero =>
      obtain rfl := Except.ok.inj ran
      exact ⟨rfl, [], free, tables, data, inv, fun page => Iff.rfl⟩
  | succ n ih =>
      rw [allocPages_succ] at ran
      obtain ⟨k₁, loop, last⟩ := of_bind_ok ran
      obtain ⟨same₁, done₁, free₁, tables₁, data₁, inv₁, known₁⟩ := ih loop
      rw [Kernel.root, same₁] at last
      obtain ⟨same, free', tables', data', inv'⟩ := inv₁.step direct bits last
      refine ⟨same.trans same₁, _, free', tables', data', inv', fun page => ?_⟩
      rw [List.mem_cons, known₁, pageLoop_succ, List.mem_append, List.mem_singleton]
      exact or_comm

end LoopInv

def RangePage (a size page : Nat) : Prop := ∃ i < size, pageIndex (a + i) = page

/-- The loop for `size` bytes maps the pages of the range: an `int` can hold their offsets, and
the range touches no more pages than `size` bytes fill. -/
def Fits (a size : Nat) : Prop :=
  size = 0 ∨ size ≤ 2 ^ 31 ∧ a % 4096 + size ≤ (size + 4095) / 4096 * 4096

section Ranges

variable {a size n page : Nat}

/-- The offset of a page as an `int` is a number of whole pages. -/
theorem toInt32_pages (i : Nat) :
    ∃ s : Nat, s < 2 ^ 20 ∧ toInt32 (i * 0x1000) = 4096 * (s : Int) - 2 ^ 31 := by
  have value : toInt32 (i * 0x1000) = (i * 0x1000 : Int) % 2 ^ 32 ∨
      toInt32 (i * 0x1000) = (i * 0x1000 : Int) % 2 ^ 32 - 2 ^ 32 := by
    unfold toInt32
    rw [Int.bmod_def]
    omega
  have low : -2 ^ 31 ≤ toInt32 (i * 0x1000) := by
    unfold toInt32
    rw [Int.bmod_def]
    omega
  have high : toInt32 (i * 0x1000) < 2 ^ 31 := by
    unfold toInt32
    rw [Int.bmod_def]
    omega
  exact ⟨((toInt32 (i * 0x1000) + 2 ^ 31) / 4096).toNat, by omega, by omega⟩

theorem near_of_mem_pageLoop (member : page ∈ pageLoop a n) :
    ∃ s < 2 ^ 20, (page + 2 ^ 19) % 2 ^ 36 = (a / 4096 + s) % 2 ^ 36 := by
  obtain ⟨i, -, rfl⟩ := List.mem_map.mp member
  obtain ⟨s, small, value⟩ := toInt32_pages i
  refine ⟨s, small, ?_⟩
  rw [pageAddr, Overflow.pageAddr, Overflow.product, value, pageIndex]
  omega

theorem mem_pageLoop_iff (fits : Fits a size) (count : n = (size + 4095) / 4096) :
    page ∈ pageLoop a n ↔ RangePage a size page := by
  rcases fits with rfl | ⟨short, padded⟩
  · subst count
    constructor
    · exact fun member => absurd member List.not_mem_nil
    · rintro ⟨i, inside, -⟩
      exact absurd inside (Nat.not_lt_zero i)
  rw [mem_pageLoop (by omega)]
  unfold RangePage pageIndex
  constructor
  · rintro ⟨j, inside, rfl⟩
    exact ⟨j * 4096 - a % 4096, by omega, by omega⟩
  · rintro ⟨i, inside, rfl⟩
    exact ⟨(a % 4096 + i) / 4096, by omega, by omega⟩

/-- From 2 GiB on, and past the last page of an unaligned range, there are bytes that no turn of
the loop maps. -/
theorem fits_of_covers (count : size ≤ 2 ^ 31 → n = (size + 4095) / 4096)
    (covers : ∀ page, RangePage a size page → page ∈ pageLoop a n) : Fits a size := by
  rcases Nat.eq_zero_or_pos size with empty | positive
  · exact Or.inl empty
  rcases Nat.lt_or_ge (2 ^ 31) size with long | short
  · obtain ⟨s, small, same⟩ := near_of_mem_pageLoop (covers _ ⟨2 ^ 31, long, rfl⟩)
    unfold pageIndex at same
    omega
  · have last := covers _ ⟨size - 1, by omega, rfl⟩
    rw [count short, mem_pageLoop (by omega)] at last
    obtain ⟨j, inside, same⟩ := last
    unfold pageIndex at same
    exact Or.inr ⟨short, by omega⟩

theorem numOfPages_short (short : size ≤ 2 ^ 31) :
    (numOfPages size).toNat = (size + 4095) / 4096 ∧
      (numOfPages (alignUp size 4096)).toNat = (size + 4095) / 4096 := by
  have rounded : alignUp size 4096 = (size + 4095) / 4096 * 4096 := alignUp_page_of_le (by omega)
  have again : alignUp (alignUp size 4096) 4096 = (size + 4095) / 4096 * 4096 := by
    rw [rounded, alignUp_page_of_le (by omega)]
    omega
  have count : toInt32 ((size + 4095) / 4096 * 4096 / 4096) = ((size + 4095) / 4096 : Nat) := by
    rw [Nat.mul_div_cancel _ (by decide)]
    exact toInt32_of_lt (by omega)
  constructor
  · rw [numOfPages, rounded, count, Int.toNat_natCast]
  · rw [numOfPages, again, count, Int.toNat_natCast]

end Ranges

end Nyaux.Mm
