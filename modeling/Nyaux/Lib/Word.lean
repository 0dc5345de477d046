import Mathlib.Data.Nat.Bitwise
import Mathlib.Tactic

/-! Unsigned 64-bit and signed 32-bit arithmetic on `Nat`, with the masks that
select whole pages. -/

namespace Nyaux.Word

def add64 (a b : Nat) : Nat := (a + b) % 2 ^ 64

def sub64 (a b : Nat) : Nat := (a + (2 ^ 64 - b % 2 ^ 64)) % 2 ^ 64

def not64 (x : Nat) : Nat := 2 ^ 64 - 1 - x

/-- The value of an `int` that was assigned the low 32 bits of `n`. -/
def toInt32 (n : Nat) : Int := Int.bmod n (2 ^ 32)

theorem add64_lt (a b : Nat) : add64 a b < 2 ^ 64 := Nat.mod_lt _ (by decide)

theorem sub64_lt (a b : Nat) : sub64 a b < 2 ^ 64 := Nat.mod_lt _ (by decide)

theorem add64_of_lt {a b : Nat} (fits : a + b < 2 ^ 64) : add64 a b = a + b :=
  Nat.mod_eq_of_lt fits

theorem sub64_of_le {a b : Nat} (ordered : b ≤ a) (word : a < 2 ^ 64) : sub64 a b = a - b := by
  unfold sub64
  rw [Nat.mod_eq_of_lt (show b < 2 ^ 64 by omega)]
  omega

theorem sub64_add_left {a i : Nat} (word : a + i < 2 ^ 64) : sub64 (a + i) a = i := by
  rw [sub64_of_le (Nat.le_add_right a i) word, Nat.add_sub_cancel_left]

theorem toInt32_of_lt {n : Nat} (small : n < 2 ^ 31) : toInt32 n = n := by
  unfold toInt32
  exact Int.bmod_eq_of_le_mul_two (by omega) (by omega)

theorem and_shiftLeft (x m k : Nat) : x &&& (m <<< k) = ((x >>> k) &&& m) <<< k := by
  apply Nat.eq_of_testBit_eq
  intro i
  simp only [Nat.testBit_and, Nat.testBit_shiftLeft, Nat.testBit_shiftRight]
  by_cases above : k ≤ i
  · simp [above]
  · simp [above]

theorem and_high (x k w : Nat) (order : k ≤ w) (bound : x < 2 ^ w) :
    x &&& (2 ^ w - 2 ^ k) = x / 2 ^ k * 2 ^ k := by
  have mask : 2 ^ w - 2 ^ k = (2 ^ (w - k) - 1) <<< k := by
    rw [Nat.shiftLeft_eq, Nat.sub_mul, ← pow_add, Nat.sub_add_cancel order, Nat.one_mul]
  have small : x / 2 ^ k < 2 ^ (w - k) := by
    rw [Nat.div_lt_iff_lt_mul (by positivity), ← pow_add, Nat.sub_add_cancel order]
    exact bound
  rw [mask, and_shiftLeft, Nat.shiftRight_eq_div_pow, Nat.and_two_pow_sub_one_eq_mod,
    Nat.mod_eq_of_lt small, Nat.shiftLeft_eq]

/-- `(addr + (page_size - 1)) & ~(page_size - 1)`. -/
def alignUp (addr pageSize : Nat) : Nat := add64 addr (pageSize - 1) &&& not64 (pageSize - 1)

/-- `addr & ~(page_size - 1)`. -/
def alignDown (addr pageSize : Nat) : Nat := addr &&& not64 (pageSize - 1)

theorem alignUp_pow (addr k : Nat) (order : k ≤ 64) :
    alignUp addr (2 ^ k) = add64 addr (2 ^ k - 1) / 2 ^ k * 2 ^ k := by
  have mask : not64 (2 ^ k - 1) = 2 ^ 64 - 2 ^ k := by
    unfold not64
    have := Nat.one_le_two_pow (n := k)
    omega
  rw [alignUp, mask]
  exact and_high _ k 64 order (add64_lt _ _)

theorem alignUp_page (addr : Nat) : alignUp addr 4096 = add64 addr 4095 / 4096 * 4096 :=
  alignUp_pow addr 12 (by decide)

theorem alignDown_page {addr : Nat} (word : addr < 2 ^ 64) :
    alignDown addr 4096 = addr / 4096 * 4096 := by
  have mask : not64 (4096 - 1) = 2 ^ 64 - 2 ^ 12 := by decide
  rw [alignDown, mask]
  exact and_high _ 12 64 (by decide) word

theorem alignUp_page_of_le {addr : Nat} (fits : addr ≤ 2 ^ 64 - 4096) :
    alignUp addr 4096 = (addr + 4095) / 4096 * 4096 := by
  rw [alignUp_page, add64_of_lt (by omega)]

end Nyaux.Word
