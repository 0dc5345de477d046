import Mathlib.Order.Basic
import Mathlib.Tactic

/-! Binary search in a sorted list of disjoint closed intervals. -/

namespace Nyaux.IntervalSearch

structure ClosedInterval (α : Type) where
  first : α
  last : α
  deriving DecidableEq, Repr

variable {α : Type} [LinearOrder α]

/-- Whether an interval of `table` at one of the places `low ≤ i < stop` holds `x`. -/
def search (table : List (ClosedInterval α)) (x : α) : Nat → Nat → Nat → Bool
  | 0, _, _ => false
  | fuel + 1, low, stop =>
      if stop ≤ low then false
      else
        let mid := (low + (stop - 1)) / 2
        match table[mid]? with
        | none => false
        | some interval =>
            if x > interval.last then search table x fuel (mid + 1) stop
            else if x < interval.first then search table x fuel low mid
            else true

structure Sorted (table : List (ClosedInterval α)) : Prop where
  ordered : ∀ interval ∈ table, interval.first ≤ interval.last
  apart : table.Pairwise fun a b => a.last < b.first

/-- `x` is in an interval of the table. -/
def Covers (table : List (ClosedInterval α)) (x : α) : Prop :=
  ∃ interval ∈ table, interval.first ≤ x ∧ x ≤ interval.last

variable {table : List (ClosedInterval α)} {x : α}

theorem Sorted.before (sorted : Sorted table) {i j : Nat} (order : i < j) {a b : ClosedInterval α}
    (left : table[i]? = some a) (right : table[j]? = some b) : a.last < b.first := by
  obtain ⟨inLeft, rfl⟩ := List.getElem?_eq_some_iff.mp left
  obtain ⟨inRight, rfl⟩ := List.getElem?_eq_some_iff.mp right
  exact List.pairwise_iff_getElem.mp sorted.apart i j inLeft inRight order

/-- The search finds `x` exactly when an interval of its range holds it: an interval
whose place is on the side that is dropped lies wholly on the other side of `x`. -/
theorem search_eq_true_iff (sorted : Sorted table) :
    ∀ {fuel low stop : Nat}, stop ≤ table.length → stop - low ≤ fuel →
      (search table x fuel low stop = true ↔
        ∃ i interval, low ≤ i ∧ i < stop ∧ table[i]? = some interval ∧
          interval.first ≤ x ∧ x ≤ interval.last) := by
  intro fuel
  induction fuel with
  | zero =>
      intro low stop _ short
      constructor
      · intro found
        cases found
      · rintro ⟨i, _, above, below, _⟩
        omega
  | succ fuel ih =>
      intro low stop inside short
      rw [search]
      split_ifs with crossed
      · constructor
        · intro found
          cases found
        · rintro ⟨i, _, above, below, _⟩
          omega
      · have place : (low + (stop - 1)) / 2 < table.length := by omega
        have middle : table[(low + (stop - 1)) / 2]? = some table[(low + (stop - 1)) / 2] :=
          List.getElem?_eq_getElem place
        simp only [middle]
        set mid := (low + (stop - 1)) / 2 with midEq
        have ordered := sorted.ordered _ (List.getElem_mem place)
        split_ifs with above below
        · rw [ih inside (by omega)]
          constructor
          · rintro ⟨i, interval, from_, rest⟩
            exact ⟨i, interval, by omega, rest⟩
          · rintro ⟨i, interval, from_, upTo, at_, first, last⟩
            refine ⟨i, interval, ?_, upTo, at_, first, last⟩
            by_contra early
            rcases Nat.lt_or_eq_of_le (show i ≤ mid by omega) with earlier | rfl
            · exact absurd last (not_le.mpr
                (lt_trans (lt_of_lt_of_le (sorted.before earlier at_ middle) ordered) above))
            · rw [middle] at at_
              cases at_
              exact absurd last (not_le.mpr above)
        · rw [ih (by omega) (by omega)]
          constructor
          · rintro ⟨i, interval, from_, upTo, rest⟩
            exact ⟨i, interval, from_, by omega, rest⟩
          · rintro ⟨i, interval, from_, upTo, at_, first, last⟩
            refine ⟨i, interval, from_, ?_, at_, first, last⟩
            by_contra late
            rcases Nat.lt_or_eq_of_le (show mid ≤ i by omega) with later | same
            · exact absurd first (not_le.mpr
                (lt_of_lt_of_le below (le_trans ordered (sorted.before later middle at_).le)))
            · rw [← same, middle] at at_
              cases at_
              exact absurd first (not_le.mpr below)
        · constructor
          · intro _
            exact ⟨mid, _, by omega, by omega, middle, not_lt.mp below, not_lt.mp above⟩
          · intro _
            rfl

theorem search_whole (sorted : Sorted table) :
    search table x table.length 0 table.length = true ↔ Covers table x := by
  rw [search_eq_true_iff sorted le_rfl (by omega)]
  constructor
  · rintro ⟨i, interval, _, _, at_, holds⟩
    exact ⟨interval, List.mem_of_getElem? at_, holds⟩
  · rintro ⟨interval, member, holds⟩
    obtain ⟨i, inside, rfl⟩ := List.getElem_of_mem member
    exact ⟨i, _, Nat.zero_le i, inside, List.getElem?_eq_getElem inside, holds⟩

end Nyaux.IntervalSearch
