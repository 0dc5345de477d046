import Mathlib.Logic.Function.Basic
import Nyaux.Lib.Word

/-! `memcpy`, `memmove`, `strlen` and `prepend` of `main.c`, on memory as bytes.

The copies return their first argument; the definitions give the memory they leave. -/

namespace Nyaux.Main

open Word

abbrev Bytes := Nat → UInt8

/-- `for (size_t i = 0; i < n; i++) pdest[i] = psrc[i];`. -/
def memcpy (dest src : Nat) : Nat → Bytes → Bytes
  | 0, mem => mem
  | n + 1, mem =>
      let mem := memcpy dest src n mem
      Function.update mem (add64 dest n) (mem (add64 src n))

/-- `for (size_t i = n; i > 0; i--) pdest[i-1] = psrc[i-1];`. -/
def moveDown (dest src : Nat) : Nat → Bytes → Bytes
  | 0, mem => mem
  | i + 1, mem => moveDown dest src i (Function.update mem (add64 dest i) (mem (add64 src i)))

def memmove (dest src n : Nat) (mem : Bytes) : Bytes :=
  if src > dest then memcpy dest src n mem
  else if src < dest then moveDown dest src n mem
  else mem

/-- `none` when no terminator comes up. -/
def strlen (mem : Bytes) : Nat → Nat → Option Nat
  | 0, _ => none
  | fuel + 1, s => if mem s = 0 then some 0 else (strlen mem fuel (add64 s 1)).map (· + 1)

def prepend (fuel s t : Nat) (mem : Bytes) : Option Bytes := do
  let len ← strlen mem fuel t
  let size ← strlen mem fuel s
  let mem := memmove (add64 s len) s (size + 1) mem
  some (memcpy s t len mem)

/-- The string at an address, with its terminator. -/
structure StringAt (mem : Bytes) (s : Nat) (text : List UInt8) : Prop where
  address : s < 2 ^ 64
  plain : 0 ∉ text
  bytes : ∀ i (inside : i < text.length), mem (add64 s i) = text[i]
  ends : mem (add64 s text.length) = 0

def Covers (dest n address : Nat) : Prop := dest ≤ address ∧ address < dest + n

section Copies

variable {dest src n : Nat} {mem : Bytes}

theorem memcpy_outside (destFits : dest + n ≤ 2 ^ 64) {address : Nat}
    (outside : ¬ Covers dest n address) : memcpy dest src n mem address = mem address := by
  induction n with
  | zero => rfl
  | succ n ih =>
      unfold Covers at outside ih
      rw [memcpy, add64_of_lt (by omega), Function.update_of_ne (by omega)]
      exact ih (by omega) (by omega)

theorem memcpy_inside (destFits : dest + n ≤ 2 ^ 64) (srcFits : src + n ≤ 2 ^ 64)
    (order : dest ≤ src ∨ src + n ≤ dest) {i : Nat} (inside : i < n) :
    memcpy dest src n mem (dest + i) = mem (src + i) := by
  induction n with
  | zero => omega
  | succ n ih =>
      rw [memcpy, add64_of_lt (by omega), add64_of_lt (by omega)]
      rcases Nat.lt_or_eq_of_le (Nat.lt_succ_iff.mp inside) with earlier | rfl
      · rw [Function.update_of_ne (by omega)]
        exact ih (by omega) (by omega) (by omega) earlier
      · rw [Function.update_self]
        apply memcpy_outside (by omega)
        unfold Covers
        omega

theorem moveDown_outside (destFits : dest + n ≤ 2 ^ 64) {address : Nat}
    (outside : ¬ Covers dest n address) : moveDown dest src n mem address = mem address := by
  induction n generalizing mem with
  | zero => rfl
  | succ n ih =>
      unfold Covers at outside ih
      rw [moveDown, ih (by omega) (by omega), add64_of_lt (by omega),
        Function.update_of_ne (by omega)]

theorem moveDown_inside (destFits : dest + n ≤ 2 ^ 64) (srcFits : src + n ≤ 2 ^ 64)
    (order : src < dest) {i : Nat} (inside : i < n) :
    moveDown dest src n mem (dest + i) = mem (src + i) := by
  induction n generalizing mem with
  | zero => omega
  | succ n ih =>
      rw [moveDown, add64_of_lt (by omega), add64_of_lt (by omega)]
      rcases Nat.lt_or_eq_of_le (Nat.lt_succ_iff.mp inside) with earlier | rfl
      · rw [ih (by omega) (by omega) earlier, Function.update_of_ne (by omega)]
      · rw [moveDown_outside (by omega) (by unfold Covers; omega), Function.update_self]

theorem memmove_inside (destFits : dest + n ≤ 2 ^ 64) (srcFits : src + n ≤ 2 ^ 64) {i : Nat}
    (inside : i < n) : memmove dest src n mem (dest + i) = mem (src + i) := by
  rw [memmove]
  split
  · exact memcpy_inside destFits srcFits (by omega) inside
  · split
    · exact moveDown_inside destFits srcFits (by assumption) inside
    · rw [show dest = src by omega]

theorem memmove_outside (destFits : dest + n ≤ 2 ^ 64) {address : Nat}
    (outside : ¬ Covers dest n address) : memmove dest src n mem address = mem address := by
  rw [memmove]
  split
  · exact memcpy_outside destFits outside
  · split
    · exact moveDown_outside destFits outside
    · rfl

end Copies

section Strings

variable {mem mem' : Bytes} {s t fuel : Nat} {text front : List UInt8}

theorem StringAt.tail {c : UInt8} (string : StringAt mem s (c :: text)) :
    StringAt mem (add64 s 1) text := by
  have step (i : Nat) : add64 (add64 s 1) i = add64 s (i + 1) := by
    unfold add64
    omega
  refine ⟨add64_lt _ _, fun member => string.plain (List.mem_cons_of_mem c member), ?_, ?_⟩
  · intro i inside
    rw [step]
    exact string.bytes (i + 1) (Nat.succ_lt_succ inside)
  · rw [step]
    exact string.ends

theorem strlen_eq (string : StringAt mem s text) (enough : text.length < fuel) :
    strlen mem fuel s = some text.length := by
  induction text generalizing s fuel with
  | nil =>
      obtain ⟨fuel, rfl⟩ := Nat.exists_eq_add_of_lt enough
      have first := string.ends
      rw [List.length_nil, add64_of_lt string.address, Nat.add_zero] at first
      rw [strlen, if_pos first, List.length_nil]
  | cons c rest ih =>
      obtain ⟨fuel, rfl⟩ := Nat.exists_eq_add_of_lt enough
      have first := string.bytes 0 (Nat.succ_pos _)
      rw [add64_of_lt string.address, Nat.add_zero, List.getElem_cons_zero] at first
      have nonzero : c ≠ 0 := fun zero => string.plain (zero ▸ List.mem_cons_self)
      rw [strlen, first, if_neg nonzero, ih string.tail (by rw [List.length_cons]; omega),
        Option.map_some, List.length_cons]

/-- The buffer of a `prepend`: it has room for both strings, and the characters of `t` stand
outside it or at its start. -/
structure Roomy (s t : Nat) (front text : List UInt8) : Prop where
  fits : s + (front.length + text.length + 1) ≤ 2 ^ 64
  whole : t + front.length ≤ 2 ^ 64
  apart : t = s ∨ ∀ i < front.length, ¬ Covers s (front.length + text.length + 1) (t + i)

theorem Roomy.order (room : Roomy s t front text) (nonempty : 0 < front.length) :
    t = s ∨ t + front.length ≤ s ∨ s + (front.length + text.length + 1) ≤ t := by
  rcases room.apart with same | outside
  · exact Or.inl same
  · have first := outside 0 nonempty
    have start := outside (s - t)
    unfold Covers at first start
    omega

theorem prepend_spec (string : StringAt mem s text) (other : StringAt mem t front)
    (room : Roomy s t front text) (enough : front.length < fuel ∧ text.length < fuel) :
    ∃ mem', prepend fuel s t mem = some mem' ∧ StringAt mem' s (front ++ text) ∧
      ∀ address, ¬ Covers s (front.length + text.length + 1) address →
        mem' address = mem address := by
  have fits := room.fits
  have whole := room.whole
  have moved (i : Nat) (inside : i < text.length + 1) :
      memmove (s + front.length) s (text.length + 1) mem (s + front.length + i) = mem (s + i) :=
    memmove_inside (by omega) (by omega) inside
  have kept (address : Nat) (outside : ¬ Covers (s + front.length) (text.length + 1) address) :
      memmove (s + front.length) s (text.length + 1) mem address = mem address :=
    memmove_outside (by omega) outside
  refine ⟨memcpy s t front.length (memmove (s + front.length) s (text.length + 1) mem), ?_, ?_, ?_⟩
  · have place : add64 s front.length = s + front.length := add64_of_lt (by omega)
    rw [prepend, strlen_eq other enough.1, strlen_eq string enough.2, ← place]
    rfl
  · refine ⟨string.address, ?_, ?_, ?_⟩
    · rw [List.mem_append, not_or]
      exact ⟨other.plain, string.plain⟩
    · intro i inside
      rw [List.length_append] at inside
      rw [add64_of_lt (by omega)]
      by_cases early : i < front.length
      · have order := room.order (by omega)
        rw [List.getElem_append_left early, memcpy_inside (by omega) whole (by omega) early,
          kept _ (by unfold Covers; omega), ← other.bytes i early, add64_of_lt (by omega)]
      · obtain ⟨j, rfl⟩ := Nat.exists_eq_add_of_le (Nat.le_of_not_lt early)
        have later := string.bytes j (by omega)
        rw [add64_of_lt (by omega)] at later
        rw [memcpy_outside (by omega) (by unfold Covers; omega), ← Nat.add_assoc,
          moved j (by omega), later, List.getElem_append_right (by omega)]
        congr 1
        omega
    · have last := string.ends
      rw [add64_of_lt (by omega)] at last
      rw [List.length_append, add64_of_lt (by omega), memcpy_outside (by omega)
        (by unfold Covers; omega), ← Nat.add_assoc, moved text.length (by omega), last]
  · intro address outside
    unfold Covers at outside
    rw [memcpy_outside (by omega) (by unfold Covers; omega), kept _ (by unfold Covers; omega)]

end Strings

/-- `memmove` copies what stood at the source, however the ranges overlap, and nothing else
changes; with it `prepend` puts a string in front of another one. -/
theorem memmove_overlaps (mem : Bytes) (dest src n : Nat) (destFits : dest + n ≤ 2 ^ 64)
    (srcFits : src + n ≤ 2 ^ 64) :
    (∀ i < n, memmove dest src n mem (dest + i) = mem (src + i)) ∧
    (∀ address, ¬ Covers dest n address → memmove dest src n mem address = mem address) ∧
    ∀ s t text front, StringAt mem s text → StringAt mem t front → Roomy s t front text →
      ∀ fuel, front.length < fuel ∧ text.length < fuel →
        ∃ mem', prepend fuel s t mem = some mem' ∧ StringAt mem' s (front ++ text) ∧
          ∀ address, ¬ Covers s (front.length + text.length + 1) address →
            mem' address = mem address :=
  ⟨fun _ inside => memmove_inside destFits srcFits inside,
    fun _ outside => memmove_outside destFits outside,
    fun _ _ _ _ string other room _ enough => prepend_spec string other room enough⟩

def twoStrings : Bytes := fun address =>
  if address = 64 then 97 else if address = 65 then 98
  else if address = 16 then 99 else if address = 17 then 100 else 0

theorem memmove_overlaps_two :
    (∀ i < 3, memmove 17 16 3 twoStrings (17 + i) = twoStrings (16 + i)) ∧
    ∃ mem', prepend 4 16 64 twoStrings = some mem' ∧ StringAt mem' 16 [97, 98, 99, 100] := by
  obtain ⟨moved, -, prepended⟩ := memmove_overlaps twoStrings 17 16 3 (by decide) (by decide)
  have string : StringAt twoStrings 16 [99, 100] := ⟨by decide, by decide, by decide, by decide⟩
  have other : StringAt twoStrings 64 [97, 98] := ⟨by decide, by decide, by decide, by decide⟩
  have room : Roomy 16 64 [97, 98] [99, 100] :=
    ⟨by decide, by decide, Or.inr fun i _ covered => absurd covered.2 (by simp; omega)⟩
  obtain ⟨mem', ran, here, -⟩ := prepended 16 64 _ _ string other room 4 (by decide)
  exact ⟨moved, mem', ran, here⟩

end Nyaux.Main
