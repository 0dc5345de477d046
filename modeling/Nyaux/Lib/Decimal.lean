import Mathlib.Data.List.TakeWhile

/-! Decimal numbers as strings of ASCII digits. -/

namespace Nyaux

def IsDigit (c : UInt8) : Prop := 0x30 ≤ c ∧ c ≤ 0x39

instance (c : UInt8) : Decidable (IsDigit c) := inferInstanceAs (Decidable (_ ∧ _))

/-- The value of a string of digits. -/
def decimal (digits : List UInt8) : Nat := digits.foldl (fun v c => v * 10 + (c.toNat - 0x30)) 0

theorem decimal_concat (digits : List UInt8) (c : UInt8) :
    decimal (digits ++ [c]) = decimal digits * 10 + (c.toNat - 0x30) := by
  unfold decimal
  rw [List.foldl_append, List.foldl_cons, List.foldl_nil]

end Nyaux
