import Mathlib.Data.Nat.ModEq
import Mathlib.Tactic

/-! Round robin over private slots, independent of any scheduler.

`n` occupants take turns; turn `k + 1` belongs to occupant `k % n`. The occupant
of a turn leaves a value behind when the next turn begins, and finds its own
last value when its turn comes round again. -/

namespace Nyaux.Turns

variable {Value : Type} (n : Nat) (initial : Nat → Value) (left : Nat → Value)

/-- What occupant `j` would find after `k` turns have begun, when the occupant of
turn `m` leaves `left m` behind as turn `m + 1` begins. -/
def slot : Nat → Nat → Value
  | 0, j => initial j
  | k + 1, j => if 1 ≤ k ∧ j = (k - 1) % n then left k else slot k j

theorem slot_leaving (m : Nat) (begun : 1 ≤ m) :
    slot n initial left (m + 1) ((m - 1) % n) = left m := by
  rw [slot, if_pos ⟨begun, rfl⟩]

theorem slot_waiting (k j : Nat) (waiting : j ≠ (k - 1) % n) :
    slot n initial left (k + 1) j = slot n initial left k j := by
  rw [slot, if_neg (fun held => waiting held.2)]

private theorem turn_distinct {n m d : Nat} (inside : d + 1 < n) :
    m % n ≠ (m + d + 1) % n := by
  intro same
  have divides : n ∣ (m + d + 1) - m :=
    (Nat.modEq_iff_dvd' (by omega)).mp same
  rw [show (m + d + 1) - m = d + 1 by omega] at divides
  exact absurd (Nat.le_of_dvd (by omega) divides) (by omega)

theorem slot_kept (m d : Nat) (begun : 1 ≤ m) (inside : d < n) :
    slot n initial left (m + d + 1) ((m - 1) % n) = left m := by
  induction d with
  | zero => exact slot_leaving n initial left m begun
  | succ d ih =>
      have apart : (m - 1) % n ≠ (m + d + 1 - 1) % n := by
        have := turn_distinct (m := m - 1) inside
        rwa [show m - 1 + d + 1 = m + d + 1 - 1 by omega] at this
      rw [← Nat.add_assoc m d 1, slot_waiting n initial left (m + d + 1) _ apart]
      exact ih (by omega)

/-- The occupant of turn `m + n` is the one of turn `m` and finds what it left then. -/
theorem slot_return (m : Nat) (begun : 1 ≤ m) (some_occupant : 0 < n) :
    slot n initial left (m + n) ((m + n - 1) % n) = left m := by
  have occupant : (m + n - 1) % n = (m - 1) % n := by
    rw [show m + n - 1 = m - 1 + n by omega, Nat.add_mod_right]
  have kept := slot_kept n initial left m (n - 1) begun (by omega)
  rw [show m + (n - 1) + 1 = m + n by omega] at kept
  rw [occupant]
  exact kept

theorem slot_untouched (k j : Nat) (early : k ≤ j + 1) (inside : j < n) :
    slot n initial left k j = initial j := by
  induction k with
  | zero => rfl
  | succ k ih =>
      have small : (k - 1) % n = k - 1 := Nat.mod_eq_of_lt (by omega)
      by_cases held : 1 ≤ k ∧ j = (k - 1) % n
      · omega
      · rw [slot, if_neg held]
        exact ih (by omega)

theorem slot_first (k : Nat) (begun : 1 ≤ k) (first : k ≤ n) :
    slot n initial left k ((k - 1) % n) = initial ((k - 1) % n) := by
  have small : (k - 1) % n = k - 1 := Nat.mod_eq_of_lt (by omega)
  exact slot_untouched n initial left k _ (by omega) (by omega)

end Nyaux.Turns
