import Nyaux.Mm.Region

/-! The user half of a pagemap, as the functions of `vmm.c` keep it: the region list and
the pages handed to `map`. -/

namespace Nyaux.Mm

open Word

/-- The four table indices that `map` takes from an address, as one number. -/
def pageIndex (virt : Nat) : Nat := virt / 0x1000 % 2 ^ 36

/-- What becomes of the `int` product `i * 0x1000` when it is no `int`, from 2 GiB on. C leaves it
open: a compiler that is told to wrap cuts the product to 32 bits; at the flags of the repository's
own makefile the address is counted up in 64 bits, which is as good as a wider product. -/
inductive Overflow where
  | wraps
  | widens
  deriving DecidableEq

def Overflow.product (o : Overflow) (i : Nat) : Int :=
  match o with
  | .wraps => toInt32 (i * 0x1000)
  | .widens => i * 0x1000

/-- `base + (i * 0x1000)` -/
def Overflow.pageAddr (o : Overflow) (base i : Nat) : Nat :=
  (((base : Int) + o.product i) % 2 ^ 64).toNat

def pageAddr (base i : Nat) : Nat := Overflow.wraps.pageAddr base i

/-- The pages mapped by a loop of `count` turns. -/
def pageLoop (base count : Nat) : List Nat :=
  (List.range count).map fun i => pageIndex (pageAddr base i)

def Overflow.pageLoop (o : Overflow) (base count : Nat) : List Nat :=
  (List.range count).map fun i => pageIndex (o.pageAddr base i)

/-- The most bytes of whole pages that the loop reaches, its counter being an `int` too. -/
def Overflow.limit : Overflow → Nat
  | .wraps => 2 ^ 31
  | .widens => (2 ^ 31 - 1) * 0x1000

theorem Overflow.limit_large (o : Overflow) : 2 ^ 31 ≤ o.limit := by
  cases o <;> decide

/-- `int num_of_pages = align_up(size, 4096) / 4096`. -/
def numOfPages (size : Nat) : Int := toInt32 (alignUp size 4096 / 4096)

structure UserMap where
  regions : List VmmRegion
  mapped : List Nat
  deriving DecidableEq

/-- The two regions `new_pagemap` starts a process with, and no page mapped. It does not set `next` in
the last node: that the list ends there, the word of its block being `NULL`, is an assumption here
and in what is built on this list. `NodeMap.newPagemap` is without it. -/
def newPagemap (hhdm kernelHigherHalfSize : Nat) : UserMap :=
  { regions := [⟨0, 0, 0⟩, ⟨0, hhdm, kernelHigherHalfSize⟩], mapped := [] }

/-- `node` is the block `kmalloc` returns for the list node. `none` is the halt after
"NO FREE REGIONS". -/
def vmmRegionAllocUser (node size : Nat) (u : UserMap) : Option (Nat × UserMap) :=
  match findGap size u.regions with
  | none => none
  | some (front, back) =>
      match front.getLast? with
      | none => none
      | some prev =>
          let newGuy := newRegion node size prev
          some (newGuy.base,
            { regions := front ++ newGuy :: back
              mapped := u.mapped ++ pageLoop newGuy.base (numOfPages size).toNat })

/-- `none` is a write through NULL or the halt after "Region Provided doesn't exist!". -/
def vmmRegionDeallocUser (base : Nat) (u : UserMap) : Option UserMap :=
  match removeRegion base u.regions with
  | .found region regions =>
      let unmapped := pageLoop region.base (toInt32 (region.length / 4096)).toNat
      some { regions := regions, mapped := u.mapped.filter fun page => page ∉ unmapped }
  | _ => none

/-- The loop runs while `i != num_of_pages`; from a negative count it never ends. -/
def mmapRange (baseVirt sizeInBytes : Nat) (u : UserMap) : Option (Nat × UserMap) :=
  if numOfPages sizeInBytes < 0 then none
  else some (baseVirt,
    { u with mapped := u.mapped ++ pageLoop baseVirt (numOfPages sizeInBytes).toNat })

theorem Overflow.widens_pageAddr (base i : Nat) :
    Overflow.widens.pageAddr base i = (base + i * 0x1000) % 2 ^ 64 := by
  unfold Overflow.pageAddr Overflow.product
  dsimp only
  omega

theorem Overflow.pageAddr_eq (o : Overflow) (base : Nat) {i : Nat} (small : i < 2 ^ 19) :
    o.pageAddr base i = (base + i * 0x1000) % 2 ^ 64 := by
  cases o with
  | widens => exact widens_pageAddr base i
  | wraps =>
      unfold Overflow.pageAddr Overflow.product
      dsimp only
      rw [toInt32_of_lt (by omega)]
      omega

theorem pageLoop_wraps_short {base count : Nat} (aligned : 4096 ∣ base) (short : count ≤ 2 ^ 20)
    (covers : ∀ i < count, pageIndex (base + i * 0x1000) ∈ pageLoop base count) :
    count ≤ 2 ^ 19 := by
  obtain ⟨b, rfl⟩ := aligned
  have high : ∀ i, 2 ^ 19 ≤ i → i < 2 ^ 20 →
      pageAddr (4096 * b) i = (4096 * b + i * 0x1000 + (2 ^ 64 - 2 ^ 32)) % 2 ^ 64 := by
    intro i large small
    have wraps : toInt32 (i * 0x1000) = (i * 0x1000 : Int) - 2 ^ 32 := by
      unfold toInt32
      rw [Int.bmod_def]
      omega
    rw [pageAddr, Overflow.pageAddr, Overflow.product, wraps]
    omega
  by_contra long
  obtain ⟨j, member, same⟩ := List.mem_map.mp (covers (2 ^ 19) (by omega))
  have bound := List.mem_range.mp member
  unfold pageIndex at same
  rcases Nat.lt_or_ge j (2 ^ 19) with small | large
  · rw [pageAddr, Overflow.pageAddr_eq _ _ small] at same
    omega
  · rw [high j large (by omega)] at same
    omega

theorem Overflow.pageLoop_covers_iff (o : Overflow) {base count : Nat} (aligned : 4096 ∣ base)
    (word : base + count * 4096 ≤ 2 ^ 64) (short : count ≤ 2 ^ 20) :
    (∀ i < count, pageIndex (base + i * 0x1000) ∈ o.pageLoop base count) ↔
      count * 0x1000 ≤ o.limit := by
  have here : (∀ i < count, o.pageAddr base i = (base + i * 0x1000) % 2 ^ 64) →
      ∀ i < count, pageIndex (base + i * 0x1000) ∈ o.pageLoop base count := by
    intro place i inside
    refine List.mem_map.mpr ⟨i, List.mem_range.mpr inside, ?_⟩
    rw [place i inside, Nat.mod_eq_of_lt (by omega)]
  cases o with
  | wraps =>
      constructor
      · intro covers
        have : count ≤ 2 ^ 19 := pageLoop_wraps_short aligned short covers
        exact Nat.mul_le_mul_right 0x1000 this
      · intro small
        have : count ≤ 2 ^ 19 := Nat.le_of_mul_le_mul_right small (by decide)
        exact here fun i inside => Overflow.wraps.pageAddr_eq base (by omega)
  | widens =>
      refine iff_of_true (here fun i _ => widens_pageAddr base i) ?_
      have : count * 0x1000 ≤ 2 ^ 20 * 0x1000 := Nat.mul_le_mul_right _ short
      exact this.trans (by decide)

/-- First fit, spelled out: where the region goes, what the list becomes, and which
neighbours were passed over. -/
theorem vmmRegionAllocUser_eq {node size b : Nat} {u u' : UserMap} {first : VmmRegion}
    {rest : List VmmRegion} (listed : u.regions = first :: rest)
    (returned : vmmRegionAllocUser node size u = some (b, u')) :
    ∃ before cur after, rest = before ++ cur :: after ∧
      fits size ((first :: before).getLast (List.cons_ne_nil _ _)) cur = true ∧
      b = ((first :: before).getLast (List.cons_ne_nil _ _)).stop ∧
      u'.regions = first :: (before ++ ⟨node, b, alignUp size 4096⟩ :: cur :: after) ∧
      u'.mapped = u.mapped ++ pageLoop b (numOfPages size).toNat ∧
      (first :: before).IsChain fun x y => fits size x y = false := by
  unfold vmmRegionAllocUser at returned
  cases found : findGap size u.regions with
  | none => simp [found] at returned
  | some split =>
      obtain ⟨front, back⟩ := split
      rw [listed] at found
      have passed := findPair_first found
      obtain ⟨before, cur, after, rfl, rfl, rfl, fit⟩ := findPair_split found
      rw [← listed] at found
      simp only [found, List.getLast?_eq_some_getLast
        (List.cons_ne_nil first before), Option.some.injEq, Prod.mk.injEq] at returned
      obtain ⟨rfl, rfl⟩ := returned
      exact ⟨before, cur, after, rfl, fit, rfl, rfl, rfl, passed⟩

end Nyaux.Mm
