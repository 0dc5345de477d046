import Nyaux.Fs.Initramfs

/-! What the loader takes from a header, and what the format puts there. -/

namespace Nyaux.Fs

open Word CString

inductive TarAction
  | directory (path : List UInt8)
  | regular (path : List UInt8) (size : Nat)
  | symlink (path target : List UInt8)
  | skip
  deriving DecidableEq

/-- The branch of the loop, with the strings and the size it uses. -/
def loaderAction (hdr : List UInt8) : TarAction :=
  let name := cstring hdr
  let type := typeString hdr
  if strncmp type [53] type.length = 0 then .directory name
  else if strncmp type [48] type.length = 0 then .regular name (getsize (hdr.drop 124))
  else if hdr.getD 156 0 = 50 then .symlink name (cstring (hdr.drop 157))
  else .skip

/-- How far `hdr_ptr` moves. -/
def loaderStep (hdr : List UInt8) : Nat := 512 + alignUp (getsize (hdr.drop 124)) 512

def ustarText (hdr : List UInt8) (offset width : Nat) : List UInt8 :=
  cstring ((hdr.drop offset).take width)

def ustarPath (hdr : List UInt8) : List UInt8 :=
  if ustarText hdr 345 155 = [] then ustarText hdr 0 100
  else ustarText hdr 345 155 ++ slash :: ustarText hdr 0 100

def ustarSize (hdr : List UInt8) : Nat :=
  ((List.range 11).map fun j => ((hdr.getD (124 + j) 0).toNat - 48) * 8 ^ (10 - j)).sum

def ustarAction (hdr : List UInt8) : TarAction :=
  if hdr.getD 156 0 = 53 then .directory (ustarPath hdr)
  else if hdr.getD 156 0 = 48 ∨ hdr.getD 156 0 = 0 then .regular (ustarPath hdr) (ustarSize hdr)
  else if hdr.getD 156 0 = 50 then .symlink (ustarPath hdr) (ustarText hdr 157 100)
  else .skip

def ustarStep (hdr : List UInt8) : Nat := 512 + (ustarSize hdr + 511) / 512 * 512

def ustarMagic : List UInt8 := [117, 115, 116, 97, 114, 0]

/-- A header of the format at the start of some bytes. -/
structure UstarHeader (hdr : List UInt8) : Prop where
  whole : 512 ≤ hdr.length
  digits : ∀ j < 11, 48 ≤ hdr.getD (124 + j) 0 ∧ hdr.getD (124 + j) 0 < 56
  magic : (hdr.drop 257).take 6 = ustarMagic

/-- The bytes from the name on spell the path: there is no prefix, and the name is ended by a zero,
in its field or right behind it; or the fields behind an unended name happen to complete it. -/
def NameEnds (hdr : List UInt8) : Prop :=
  ustarText hdr 345 155 = [] ∧ (0 ∈ hdr.take 100 ∨ hdr.getD 100 0 = 0) ∨
  ustarText hdr 345 155 ≠ [] ∧ 0 ∉ hdr.take 100 ∧ ustarPath hdr ++ [0] <+: hdr

/-- The size fits 32 bits, the type is not 0, and what the branch of the type reads ends in time:
the type field at a link name that is empty, the name with its field, the link name in its field. -/
structure ReadsRight (hdr : List UInt8) : Prop where
  size : ustarSize hdr < 2 ^ 32
  type : hdr.getD 156 0 ≠ 0
  plain : hdr.getD 156 0 = 53 ∨ hdr.getD 156 0 = 48 → hdr.getD 157 0 = 0
  name : hdr.getD 156 0 = 53 ∨ hdr.getD 156 0 = 48 ∨ hdr.getD 156 0 = 50 → NameEnds hdr
  link : hdr.getD 156 0 = 50 → 0 ∈ (hdr.drop 157).take 100

section Loader

variable {hdr : List UInt8}

theorem strncmp_cons (a b : UInt8) (t u : List UInt8) (n : Nat) :
    strncmp (a :: t) (b :: u) (n + 1) =
      if (a.toNat : Int) - b.toNat ≠ 0 ∨ a = 0 ∨ b = 0 then (a.toNat : Int) - b.toNat
      else strncmp t u n := rfl

theorem difference_ne (a b : UInt8) : (a.toNat : Int) - b.toNat ≠ 0 ↔ a ≠ b := by
  rw [ne_eq, sub_eq_zero, Nat.cast_inj, UInt8.toNat_inj]

theorem strncmp_char {t : List UInt8} {c : UInt8} (nonzero : c ≠ 0) (plain : 0 ∉ t) :
    strncmp t [c] t.length = 0 ↔ t = [] ∨ t = [c] := by
  cases t with
  | nil => simp [strncmp]
  | cons a t =>
      have first : a ≠ 0 := fun zero => plain (zero ▸ List.mem_cons_self)
      rw [List.length_cons, strncmp_cons]
      by_cases same : a = c
      · subst same
        rw [if_neg (by simp [first])]
        cases t with
        | nil => simp [strncmp]
        | cons b t =>
            -- one more character, against the terminator
            have second : b ≠ 0 := fun zero =>
              plain (zero ▸ List.mem_cons_of_mem _ List.mem_cons_self)
            have other := (difference_ne b 0).mpr second
            have rest : strncmp (b :: t) [] (t.length + 1) = (b.toNat : Int) - (0 : UInt8).toNat :=
              if_pos (Or.inl other)
            rw [List.length_cons, rest]
            exact iff_of_false other (by simp)
      · have other := (difference_ne a c).mpr same
        rw [if_pos (Or.inl other)]
        exact iff_of_false other (by simp [same])

theorem typeString_eq (inside : 156 < hdr.length) :
    typeString hdr = if hdr.getD 156 0 = 0 then [] else hdr.getD 156 0 :: cstring (hdr.drop 157) := by
  rw [typeString, List.drop_eq_getElem_cons inside, List.getD_eq_getElem _ _ inside, cstring]
  by_cases zero : hdr[156] = 0
  · rw [if_pos zero, List.takeWhile_cons_of_neg (by simp [zero])]
  · rw [if_neg zero, List.takeWhile_cons_of_pos (by simp [zero])]
    rfl

theorem loaderAction_eq (inside : 157 < hdr.length) :
    loaderAction hdr =
      if hdr.getD 156 0 = 0 then .directory (cstring hdr)
      else if hdr.getD 156 0 = 53 ∧ hdr.getD 157 0 = 0 then .directory (cstring hdr)
      else if hdr.getD 156 0 = 48 ∧ hdr.getD 157 0 = 0 then
        .regular (cstring hdr) (getsize (hdr.drop 124))
      else if hdr.getD 156 0 = 50 then .symlink (cstring hdr) (cstring (hdr.drop 157))
      else .skip := by
  have plain : 0 ∉ typeString hdr := zero_not_mem_cstring _
  have none : cstring (hdr.drop 157) = [] ↔ hdr.getD 157 0 = 0 := by
    rw [List.drop_eq_getElem_cons inside, List.getD_eq_getElem _ _ inside, cstring]
    by_cases zero : hdr[157] = 0
    · rw [List.takeWhile_cons_of_neg (by simp [zero])]
      exact iff_of_true rfl zero
    · rw [List.takeWhile_cons_of_pos (by simp [zero])]
      exact iff_of_false (List.cons_ne_nil _ _) zero
  unfold loaderAction
  dsimp only
  simp only [strncmp_char (show (53 : UInt8) ≠ 0 by decide) plain,
    strncmp_char (show (48 : UInt8) ≠ 0 by decide) plain]
  rw [typeString_eq (Nat.lt_of_succ_lt inside)]
  by_cases zero : hdr.getD 156 0 = 0
  · simp only [if_pos zero, true_or, if_true]
  · simp only [if_neg zero, List.cons_ne_nil, false_or, List.cons.injEq, none]

end Loader

section Fields

variable {hdr : List UInt8}

theorem drop_getD (l : List UInt8) (n j : Nat) : (l.drop n).getD j 0 = l.getD (n + j) 0 := by
  rw [List.getD_eq_getElem?_getD, List.getElem?_drop, List.getD_eq_getElem?_getD]

theorem cstring_plain {l : List UInt8} (plain : 0 ∉ l) : cstring l = l :=
  List.takeWhile_eq_self_iff.mpr fun _ member => decide_eq_true fun zero => plain (zero ▸ member)

theorem cstring_eq_iff {l t : List UInt8} (ends : 0 ∈ l) (plain : 0 ∉ t) :
    cstring l = t ↔ t ++ [0] <+: l := by
  constructor
  · rintro rfl
    induction l with
    | nil => cases ends
    | cons c l ih =>
        by_cases zero : c = 0
        · subst zero
          exact ⟨l, by simp [cstring]⟩
        · have later : 0 ∈ l := (List.mem_cons.mp ends).resolve_left (Ne.symm zero)
          have shape : cstring (c :: l) = c :: cstring l :=
            List.takeWhile_cons_of_pos (by simp [zero])
          rw [shape, List.cons_append, List.cons_prefix_cons]
          exact ⟨rfl, ih later (zero_not_mem_cstring l)⟩
  · rintro ⟨rest, rfl⟩
    rw [List.append_assoc]
    exact cstring_append_zero t rest plain

theorem take_prefix_iff {l : List UInt8} {n : Nat} (inside : n < l.length) :
    l.take n ++ [0] <+: l ↔ l.getD n 0 = 0 := by
  have split : l = l.take n ++ l[n] :: l.drop (n + 1) := by
    rw [← List.drop_eq_getElem_cons inside, List.take_append_drop]
  rw [List.getD_eq_getElem _ _ inside]
  conv_lhs => rhs; rw [split]
  rw [List.prefix_append_right_inj, List.cons_prefix_cons]
  simp [eq_comm]

theorem UstarHeader.zero_mem (valid : UstarHeader hdr) {n : Nat} (before : n ≤ 257) :
    0 ∈ hdr.drop n := by
  have last : (0 : UInt8) ∈ (hdr.drop 257).take 6 := by
    rw [valid.magic]
    decide
  have inMagic := List.mem_of_mem_take last
  rw [show 257 = n + (257 - n) by omega, ← List.drop_drop] at inMagic
  exact List.mem_of_mem_drop inMagic

theorem UstarHeader.after_link (valid : UstarHeader hdr) : hdr.getD 257 0 = 117 := by
  have first := congrArg (fun l => l.getD 0 0) valid.magic
  have inside : 257 < hdr.length := by have := valid.whole; omega
  rw [List.drop_eq_getElem_cons inside] at first
  rw [List.getD_eq_getElem _ _ inside]
  exact first

theorem octal_digit (b : UInt8) (lower : 48 ≤ b) (upper : b < 56) :
    charValue b - 48 = ((b.toNat - 48 : Nat) : Int) := by
  have low : 48 ≤ b.toNat := lower
  have up : b.toNat < 56 := upper
  have same : b = UInt8.ofNat (48 + (b.toNat - 48)) := by
    rw [Nat.add_sub_cancel' low, UInt8.ofNat_toNat]
  have digit := charValue_digit (b.toNat - 48) (by omega)
  rw [← same] at digit
  exact digit

theorem UstarHeader.getsize_eq (valid : UstarHeader hdr) :
    getsize (hdr.drop 124) = ustarSize hdr % 2 ^ 32 := by
  have digits : ∀ j ∈ List.range 11,
      (charValue ((hdr.drop 124).getD j 0) - 48) * 8 ^ (10 - j) =
        ((((hdr.getD (124 + j) 0).toNat - 48) * 8 ^ (10 - j) : Nat) : Int) := by
    intro j member
    obtain ⟨lower, upper⟩ := valid.digits j (List.mem_range.mp member)
    rw [drop_getD, octal_digit _ lower upper]
    push_cast
    rfl
  have total : ((List.range 11).map fun j =>
      ((((hdr.getD (124 + j) 0).toNat - 48) * 8 ^ (10 - j) : Nat) : Int)).sum = (ustarSize hdr : Int) := by
    rw [ustarSize, Nat.cast_list_sum, List.map_map]
    rfl
  rw [getsize, List.map_congr_left digits, total]
  omega

theorem alignUp_block {n : Nat} (small : n < 2 ^ 32) : alignUp n 512 = (n + 511) / 512 * 512 := by
  have rounded := alignUp_pow n 9 (by decide)
  rw [add64_of_lt (by omega)] at rounded
  exact rounded

theorem loaderStep_iff (valid : UstarHeader hdr) :
    loaderStep hdr = ustarStep hdr ↔ ustarSize hdr < 2 ^ 32 := by
  have small := Nat.mod_lt (ustarSize hdr) (show 0 < 2 ^ 32 by decide)
  rw [loaderStep, ustarStep, valid.getsize_eq, alignUp_block small]
  generalize ustarSize hdr = size at *
  constructor
  · intro same
    by_contra large
    have wrapped : size % 2 ^ 32 = 0 ∨ size % 2 ^ 32 < size - 2 ^ 32 + 1 := by omega
    omega
  · intro fits
    rw [Nat.mod_eq_of_lt fits]

theorem loaderPath_iff (valid : UstarHeader hdr) : cstring hdr = ustarPath hdr ↔ NameEnds hdr := by
  have ends : 0 ∈ hdr := valid.zero_mem (Nat.zero_le _)
  have prefixPlain : 0 ∉ ustarText hdr 345 155 := zero_not_mem_cstring _
  have namePlain : 0 ∉ ustarText hdr 0 100 := zero_not_mem_cstring _
  have inside : 100 < hdr.length := by have := valid.whole; omega
  unfold NameEnds
  by_cases ended : 0 ∈ hdr.take 100
  · have name : cstring hdr = ustarText hdr 0 100 := by
      conv_lhs => rw [← List.take_append_drop 100 hdr]
      exact cstring_append _ _ ended
    rw [name, ustarPath]
    by_cases bare : ustarText hdr 345 155 = []
    · rw [if_pos bare]
      exact iff_of_true rfl (Or.inl ⟨bare, Or.inl ended⟩)
    · rw [if_neg bare]
      refine iff_of_false (fun same => ?_) (by simp [bare, ended])
      have lengths := congrArg List.length same
      rw [List.length_append, List.length_cons] at lengths
      omega
  · have name : ustarText hdr 0 100 = hdr.take 100 := cstring_plain ended
    by_cases bare : ustarText hdr 345 155 = []
    · rw [ustarPath, if_pos bare, name, cstring_eq_iff ends ended, take_prefix_iff inside]
      simp [bare, ended]
    · have plain : 0 ∉ ustarPath hdr := by
        rw [ustarPath, if_neg bare]
        simp only [List.mem_append, List.mem_cons, not_or]
        exact ⟨prefixPlain, by decide, namePlain⟩
      rw [cstring_eq_iff ends plain]
      simp [bare, ended]

theorem loaderLink_iff (valid : UstarHeader hdr) :
    cstring (hdr.drop 157) = ustarText hdr 157 100 ↔ 0 ∈ (hdr.drop 157).take 100 := by
  by_cases ended : 0 ∈ (hdr.drop 157).take 100
  · refine iff_of_true ?_ ended
    conv_lhs => rw [← List.take_append_drop 100 (hdr.drop 157)]
    exact cstring_append _ _ ended
  · -- the field is full, and the magic follows it
    have inside : 100 < (hdr.drop 157).length := by
      have := valid.whole
      rw [List.length_drop]
      omega
    refine iff_of_false ?_ ended
    rw [ustarText, cstring_plain ended, cstring_eq_iff (valid.zero_mem (by decide)) ended,
      take_prefix_iff inside, drop_getD, valid.after_link]
    decide

end Fields

section Agreement

variable {hdr : List UInt8}

theorem loaderAction_iff (valid : UstarHeader hdr) (size : ustarSize hdr < 2 ^ 32) :
    loaderAction hdr = ustarAction hdr ↔ ReadsRight hdr := by
  have inside : 157 < hdr.length := by have := valid.whole; omega
  have same : getsize (hdr.drop 124) = ustarSize hdr := by
    rw [valid.getsize_eq, Nat.mod_eq_of_lt size]
  have path := loaderPath_iff valid
  have target := loaderLink_iff valid
  rw [loaderAction_eq inside, ustarAction, same]
  by_cases zero : hdr.getD 156 0 = 0
  · -- the older type of a file, which the loader takes for a directory
    rw [if_pos zero, if_neg (by rw [zero]; decide), if_pos (Or.inr zero)]
    exact iff_of_false TarAction.noConfusion fun right => right.type zero
  rw [if_neg zero]
  by_cases five : hdr.getD 156 0 = 53
  · rw [if_pos five]
    by_cases empty : hdr.getD 157 0 = 0
    · rw [if_pos ⟨five, empty⟩, TarAction.directory.injEq, path]
      refine ⟨fun ends => ⟨size, zero, fun _ => empty, fun _ => ends, fun two => ?_⟩,
        fun right => right.name (Or.inl five)⟩
      cases five.symm.trans two
    · rw [if_neg (fun both => empty both.2),
        if_neg (fun both => absurd (five.symm.trans both.1) (by decide)),
        if_neg (by rw [five]; decide)]
      exact iff_of_false TarAction.noConfusion fun right => empty (right.plain (Or.inl five))
  rw [if_neg (fun both => five both.1), if_neg five]
  by_cases regular : hdr.getD 156 0 = 48
  · rw [if_pos (Or.inl regular)]
    by_cases empty : hdr.getD 157 0 = 0
    · rw [if_pos ⟨regular, empty⟩, TarAction.regular.injEq, and_iff_left rfl, path]
      refine ⟨fun ends => ⟨size, zero, fun _ => empty, fun _ => ends, fun two => ?_⟩,
        fun right => right.name (Or.inr (Or.inl regular))⟩
      cases regular.symm.trans two
    · rw [if_neg (fun both => empty both.2), if_neg (by rw [regular]; decide)]
      exact iff_of_false TarAction.noConfusion fun right => empty (right.plain (Or.inr regular))
  rw [if_neg (fun both => regular both.1), if_neg (not_or.mpr ⟨regular, zero⟩)]
  by_cases two : hdr.getD 156 0 = 50
  · rw [if_pos two, if_pos two, TarAction.symlink.injEq, path, target]
    constructor
    · rintro ⟨ends, linkEnds⟩
      exact ⟨size, zero, fun other => (not_or.mpr ⟨five, regular⟩ other).elim, fun _ => ends,
        fun _ => linkEnds⟩
    · exact fun right => ⟨right.name (Or.inr (Or.inr two)), right.link two⟩
  · rw [if_neg two, if_neg two]
    refine iff_of_true rfl ⟨size, zero, fun other => (not_or.mpr ⟨five, regular⟩ other).elim,
      fun other => ?_, fun other => absurd other two⟩
    rcases other with other | other | other
    · exact absurd other five
    · exact absurd other regular
    · exact absurd other two

end Agreement

/-- The loader does with a header of the format, and moves behind it, as the format says exactly
when the size fits 32 bits and the fields it uses end where it looks for their end. -/
theorem ustar_header_iff (hdr : List UInt8) (valid : UstarHeader hdr) :
    loaderAction hdr = ustarAction hdr ∧ loaderStep hdr = ustarStep hdr ↔ ReadsRight hdr := by
  rw [loaderStep_iff valid]
  constructor
  · rintro ⟨same, size⟩
    exact (loaderAction_iff valid size).mp same
  · intro right
    exact ⟨(loaderAction_iff valid right.size).mpr right, right.size⟩

/-- The header of a file named `a` with three bytes, of the given type. -/
def smallHeader (type : UInt8) : List UInt8 :=
  headerFront 3 ++ type :: (List.replicate 100 0 ++ (ustarMagic ++ List.replicate 249 0))

theorem smallHeader_valid (type : UInt8) : UstarHeader (smallHeader type) := by
  constructor
  · simp only [smallHeader, List.length_append, headerFront_length, List.length_cons,
      List.length_replicate]
    decide
  · intro j inside
    have digits : ∀ j < 11, 48 ≤ (headerFront 3).getD (124 + j) 0 ∧
        (headerFront 3).getD (124 + j) 0 < 56 := by decide
    rw [smallHeader, List.getD_append _ _ _ _ (by rw [headerFront_length]; omega)]
    exact digits j inside
  · have front : (headerFront 3 ++ (type :: List.replicate 100 0)).length = 257 := by
      simp only [List.length_append, headerFront_length, List.length_cons, List.length_replicate]
    have split : smallHeader type = (headerFront 3 ++ (type :: List.replicate 100 0)) ++
        (ustarMagic ++ List.replicate 249 0) := by
      rw [smallHeader, List.append_assoc, List.cons_append]
    rw [split, List.drop_left' front]
    exact List.take_left' rfl

theorem ustar_header_iff_small :
    loaderAction (smallHeader 48) = ustarAction (smallHeader 48) ∧
      loaderStep (smallHeader 48) = ustarStep (smallHeader 48) ↔ ReadsRight (smallHeader 48) :=
  ustar_header_iff (smallHeader 48) (smallHeader_valid 48)

/-- The file of the older type becomes a directory. -/
theorem ustar_header_misread : ¬∀ hdr, UstarHeader hdr →
    loaderAction hdr = ustarAction hdr ∧ loaderStep hdr = ustarStep hdr := by
  intro always
  obtain ⟨same, -⟩ := always (smallHeader 0) (smallHeader_valid 0)
  have size : ustarSize (smallHeader 0) < 2 ^ 32 := by decide
  have right := (loaderAction_iff (smallHeader_valid 0) size).mp same
  exact right.type (by decide)

end Nyaux.Fs
