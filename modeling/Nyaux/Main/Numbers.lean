import Mathlib.Data.Nat.Digits.Lemmas
import Nyaux.Main.Moves

/-! `itoa` and `itoah` of `main.c`. -/

namespace Nyaux.Main

open Word

structure Radix where
  digits : List UInt8
  two_le : 2 ≤ digits.length
  distinct : digits.Nodup
  plain : 0 ∉ digits

/-- The digits of `itoa`. -/
def radix10 : Radix where
  digits := [48, 49, 50, 51, 52, 53, 54, 55, 56, 57]
  two_le := by decide
  distinct := by decide
  plain := by decide

/-- `digitsh`. -/
def radix16 : Radix where
  digits := [48, 49, 50, 51, 52, 53, 54, 55, 56, 57, 65, 66, 67, 68, 69, 70]
  two_le := by decide
  distinct := by decide
  plain := by decide

namespace Radix

variable (r : Radix)

def base : Nat := r.digits.length

theorem one_lt : 1 < r.base := r.two_le

theorem base_pos : 0 < r.base := Nat.lt_trans Nat.zero_lt_one r.one_lt

/-- `while (number) { number /= 10; x++; }`. -/
def countDigits (number x : Nat) : Nat :=
  if zero : number = 0 then x else countDigits (number / r.base) (x + 1)
termination_by number
decreasing_by exact Nat.div_lt_self (Nat.pos_of_ne_zero zero) r.one_lt

def ilog (number : Nat) : Nat := if number = 0 then 0 else r.countDigits number 0 - 1

/-- `digits[digit]`. -/
def char (number : Nat) : UInt8 := r.digits.get ⟨number % r.base, Nat.mod_lt _ r.base_pos⟩

def storeDigits (buffer digitcnt : Nat) : Nat → Nat × Bytes → Nat × Bytes
  | 0, s => s
  | i + 1, s =>
      let (number, mem) := storeDigits buffer digitcnt i s
      (number / r.base, Function.update mem (add64 buffer (digitcnt - i)) (r.char number))

/-- The string that is left in `buffer`. -/
def itoa (buffer number : Nat) (mem : Bytes) : Bytes :=
  if number = 0 then
    -- the two bytes of "0"
    Function.update (Function.update mem (add64 buffer 0) 48) (add64 buffer 1) 0
  else
    let digitcnt := r.ilog number
    let (_, mem) := r.storeDigits buffer digitcnt (digitcnt + 1) (number, mem)
    Function.update mem (add64 buffer (digitcnt + 1)) 0

end Radix

def ilog10 (number : Nat) : Nat := radix10.ilog number

def ilog16 (number : Nat) : Nat := radix16.ilog number

def itoa (buffer number : Nat) (mem : Bytes) : Bytes := radix10.itoa buffer number mem

def itoah (buffer number : Nat) (mem : Bytes) : Bytes := radix16.itoa buffer number mem

namespace Radix

variable (r : Radix)

/-- The numeral of a number, the most significant digit first. -/
def numeral (number : Nat) : List UInt8 :=
  (if number = 0 then [0] else (Nat.digits r.base number).reverse).map r.char

def value (c : UInt8) : Option Nat := if c ∈ r.digits then some (r.digits.idxOf c) else none

/-- The number that a string of digits stands for. -/
def parse (text : List UInt8) : Option Nat :=
  text.foldlM (fun number c => (r.value c).map (number * r.base + ·)) 0

theorem value_char {digit : Nat} (small : digit < r.base) : r.value (r.char digit) = some digit := by
  have member : r.char digit ∈ r.digits := List.get_mem _ _
  have place : r.digits.idxOf (r.char digit) = digit % r.base := r.distinct.idxOf_getElem _ _
  rw [value, if_pos member, place, Nat.mod_eq_of_lt small]

theorem parse_snoc (text : List UInt8) (c : UInt8) :
    r.parse (text ++ [c]) =
      (r.parse text).bind fun number => (r.value c).map (number * r.base + ·) := by
  rw [parse, List.foldlM_append]
  simp only [List.foldlM_cons, List.foldlM_nil, bind_pure]
  rfl

theorem parse_digits (digits : List Nat) (small : ∀ d ∈ digits, d < r.base) :
    r.parse (digits.reverse.map r.char) = some (Nat.ofDigits r.base digits) := by
  induction digits with
  | nil => rfl
  | cons d rest ih =>
      rw [List.reverse_cons, List.map_append, List.map_singleton, parse_snoc,
        ih fun e member => small e (List.mem_cons_of_mem d member),
        value_char r (small d List.mem_cons_self), Nat.ofDigits_cons, Option.bind_some,
        Option.map_some, Nat.add_comm, Nat.mul_comm]

theorem parse_numeral (number : Nat) : r.parse (r.numeral number) = some number := by
  rw [numeral]
  split
  · rename_i zero
    subst zero
    exact r.parse_digits [0] fun d member => List.mem_singleton.mp member ▸ r.base_pos
  · rw [parse_digits r _ fun d member => Nat.digits_lt_base r.one_lt member, Nat.ofDigits_digits]

structure Canonical (text : List UInt8) : Prop where
  digits : ∀ c ∈ text, c ∈ r.digits
  nonempty : text ≠ []
  leading : text.head? = some (r.char 0) → text = [r.char 0]

theorem char_eq_zero {digit : Nat} (small : digit < r.base) (same : r.char digit = r.char 0) :
    digit = 0 := by
  have values := congrArg r.value same
  rw [r.value_char small, r.value_char r.base_pos] at values
  exact Option.some.inj values

theorem numeral_canonical (number : Nat) : r.Canonical (r.numeral number) := by
  refine ⟨?_, ?_, ?_⟩
  · intro c member
    obtain ⟨d, -, rfl⟩ := List.mem_map.mp member
    exact List.get_mem _ _
  · rw [numeral]
    split
    · exact List.cons_ne_nil _ _
    · rename_i positive
      intro empty
      have none := List.reverse_eq_nil_iff.mp (List.map_eq_nil_iff.mp empty)
      exact positive (Nat.digits_eq_nil_iff_eq_zero.mp none)
  · intro leading
    by_cases zero : number = 0
    · rw [numeral, if_pos zero]
      rfl
    · rw [numeral, if_neg zero, List.head?_map, List.head?_reverse] at leading
      obtain ⟨d, last, same⟩ := Option.map_eq_some_iff.mp leading
      have nonempty := Nat.digits_ne_nil_iff_ne_zero (b := r.base).mpr zero
      rw [List.getLast?_eq_some_getLast nonempty] at last
      obtain rfl := Option.some.inj last
      have small := Nat.digits_lt_base r.one_lt (List.getLast_mem nonempty)
      exact absurd (r.char_eq_zero small same) (Nat.getLast_digit_ne_zero _ zero)

theorem numeral_injective : Function.Injective r.numeral := by
  intro first second same
  have parsed := congrArg r.parse same
  rw [parse_numeral, parse_numeral] at parsed
  exact Option.some.inj parsed

theorem numeral_length {number k : Nat} (positive : 0 < k) (bound : number < r.base ^ k) :
    (r.numeral number).length ≤ k := by
  rw [numeral, List.length_map]
  split
  · exact positive
  · rw [List.length_reverse, Nat.digits_length_le_iff r.one_lt]
    exact bound

theorem countDigits_eq (number x : Nat) :
    r.countDigits number x = x + (Nat.digits r.base number).length := by
  induction number using Nat.strong_induction_on generalizing x with
  | _ number ih =>
      rw [countDigits]
      by_cases zero : number = 0
      · rw [dif_pos zero, zero, Nat.digits_zero, List.length_nil, Nat.add_zero]
      · rw [dif_neg zero, ih _ (Nat.div_lt_self (Nat.pos_of_ne_zero zero) r.one_lt),
          Nat.digits_eq_cons_digits_div r.one_lt zero, List.length_cons]
        omega

theorem ilog_eq {number : Nat} (nonzero : number ≠ 0) :
    r.ilog number + 1 = (Nat.digits r.base number).length := by
  have some := List.length_pos_of_ne_nil (Nat.digits_ne_nil_iff_ne_zero (b := r.base).mpr nonzero)
  rw [ilog, if_neg nonzero, countDigits_eq]
  omega

theorem storeDigits_spec {digitcnt i : Nat} (buffer number : Nat) (mem : Bytes) (fits : digitcnt < 2 ^ 64)
    (turns : i ≤ digitcnt + 1) :
    (r.storeDigits buffer digitcnt i (number, mem)).1 = number / r.base ^ i ∧
    (∀ j < i, (r.storeDigits buffer digitcnt i (number, mem)).2 (add64 buffer (digitcnt - j)) =
      r.char (number / r.base ^ j)) ∧
    ∀ address, (∀ j < i, address ≠ add64 buffer (digitcnt - j)) →
      (r.storeDigits buffer digitcnt i (number, mem)).2 address = mem address := by
  induction i with
  | zero =>
      refine ⟨?_, fun j inside => absurd inside (Nat.not_lt_zero j), fun _ _ => rfl⟩
      rw [pow_zero, Nat.div_one]
      rfl
  | succ i ih =>
      obtain ⟨rest, stored, kept⟩ := ih (by omega)
      rw [storeDigits]
      dsimp only
      refine ⟨?_, ?_, ?_⟩
      · rw [rest, Nat.div_div_eq_div_mul, pow_succ]
      · intro j inside
        rcases Nat.lt_or_eq_of_le (Nat.lt_succ_iff.mp inside) with earlier | rfl
        · rw [Function.update_of_ne (by unfold add64; omega)]
          exact stored j earlier
        · rw [Function.update_self, rest]
      · intro address outside
        rw [Function.update_of_ne (outside i (Nat.lt_succ_self i))]
        exact kept address fun j inside => outside j (by omega)

/-- What a printing of `number` into `room` bytes leaves. -/
structure Printed (room number buffer : Nat) (mem mem' : Bytes) : Prop where
  string : StringAt mem' buffer (r.numeral number)
  canonical : r.Canonical (r.numeral number)
  short : (r.numeral number).length + 1 ≤ room
  outside : ∀ address, (∀ i ≤ (r.numeral number).length, address ≠ add64 buffer i) →
    mem' address = mem address
  parsed : r.parse (r.numeral number) = some number

theorem char_mod (number : Nat) : r.char (number % r.base) = r.char number := by
  simp [char]

theorem length_numeral {number : Nat} (nonzero : number ≠ 0) :
    (r.numeral number).length = r.ilog number + 1 := by
  rw [numeral, if_neg nonzero, List.length_map, List.length_reverse, r.ilog_eq nonzero]

theorem numeral_getElem {number i : Nat} (nonzero : number ≠ 0)
    (inside : i < (r.numeral number).length) :
    (r.numeral number)[i] = r.char (number / r.base ^ (r.ilog number - i)) := by
  have length := r.ilog_eq nonzero
  have digit := Nat.getD_digits (b := r.base) number (r.ilog number - i) r.one_lt
  rw [List.getD_eq_getElem _ _ (by omega)] at digit
  rw [← char_mod, ← digit]
  simp only [numeral, if_neg nonzero, List.getElem_map, List.getElem_reverse, ← length,
    Nat.add_sub_cancel]

theorem itoa_printed {room number buffer : Nat} (mem : Bytes) (pointer : buffer < 2 ^ 64)
    (bound : number < r.base ^ room) (positive : 0 < room) (fits : room < 2 ^ 64)
    (zero : r.char 0 = 48) : r.Printed (room + 1) number buffer mem (r.itoa buffer number mem) := by
  have plain : 0 ∉ r.numeral number := fun member =>
    r.plain ((r.numeral_canonical number).digits 0 member)
  have length := r.numeral_length positive bound
  suffices written : (∀ i (inside : i < (r.numeral number).length),
      r.itoa buffer number mem (add64 buffer i) = (r.numeral number)[i]) ∧
      r.itoa buffer number mem (add64 buffer (r.numeral number).length) = 0 ∧
      ∀ address, (∀ i ≤ (r.numeral number).length, address ≠ add64 buffer i) →
        r.itoa buffer number mem address = mem address from
    ⟨⟨pointer, plain, written.1, written.2.1⟩, r.numeral_canonical number, by omega, written.2.2,
      r.parse_numeral number⟩
  by_cases none : number = 0
  · have text : r.numeral number = [48] := by
      rw [numeral, if_pos none, List.map_singleton, zero]
    have apart : add64 buffer 0 ≠ add64 buffer 1 := by
      unfold add64
      omega
    rw [itoa, if_pos none]
    simp only [text, List.length_singleton]
    refine ⟨?_, Function.update_self .., ?_⟩
    · intro i inside
      obtain rfl : i = 0 := by omega
      rw [Function.update_of_ne apart, Function.update_self]
      rfl
    · intro address outside
      rw [Function.update_of_ne (outside 1 (le_refl 1)),
        Function.update_of_ne (outside 0 (Nat.zero_le 1))]
  · have count := r.length_numeral none
    obtain ⟨-, stored, kept⟩ := r.storeDigits_spec buffer number mem
      (show r.ilog number < 2 ^ 64 by omega) (le_refl (r.ilog number + 1))
    rw [itoa, if_neg none]
    dsimp only
    refine ⟨?_, ?_, ?_⟩
    · intro i inside
      have digit := stored (r.ilog number - i) (by omega)
      rw [show r.ilog number - (r.ilog number - i) = i by omega] at digit
      rw [Function.update_of_ne (by unfold add64; omega), digit, r.numeral_getElem none]
    · rw [count, Function.update_self]
    · intro address outside
      rw [Function.update_of_ne (outside _ (Nat.le_of_eq count.symm))]
      exact kept address fun j _ => outside _ (by omega)

end Radix

/-- `itoa` and `itoah` leave the numeral of any 64-bit number as a string, in at most 21 and 17
bytes; it reads back as the number, so different numbers leave different strings. -/
theorem number_printing (number buffer : Nat) (mem : Bytes) (word : number < 2 ^ 64)
    (pointer : buffer < 2 ^ 64) :
    radix10.Printed 21 number buffer mem (itoa buffer number mem) ∧
    radix16.Printed 17 number buffer mem (itoah buffer number mem) ∧
    ∀ other, other ≠ number → radix10.numeral other ≠ radix10.numeral number ∧
      radix16.numeral other ≠ radix16.numeral number :=
  ⟨radix10.itoa_printed mem pointer (word.trans (by decide)) (by decide) (by decide) rfl,
    radix16.itoa_printed mem pointer (word.trans_eq (by decide)) (by decide) (by decide) rfl,
    fun _ different => ⟨radix10.numeral_injective.ne different,
      radix16.numeral_injective.ne different⟩⟩

/-- The largest number of all. -/
theorem number_printing_last :
    radix10.Printed 21 (2 ^ 64 - 1) 4096 (fun _ => 0) (itoa 4096 (2 ^ 64 - 1) fun _ => 0) ∧
    radix16.Printed 17 (2 ^ 64 - 1) 4096 (fun _ => 0) (itoah 4096 (2 ^ 64 - 1) fun _ => 0) := by
  obtain ⟨decimal, hex, -⟩ :=
    number_printing (2 ^ 64 - 1) 4096 (fun _ => 0) (by decide) (by decide)
  exact ⟨decimal, hex⟩

end Nyaux.Main
