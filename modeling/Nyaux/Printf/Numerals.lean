import Nyaux.Main.Numbers
import Nyaux.Printf.Vpprintf

/-! The numbers that a conversion prints, and that they read back. -/

namespace Nyaux.Printf

open Word Main

/-! ### Digits -/

def radix8 : Radix where
  digits := [48, 49, 50, 51, 52, 53, 54, 55]
  two_le := by decide
  distinct := by decide
  plain := by decide

def radix16Lower : Radix where
  digits := [48, 49, 50, 51, 52, 53, 54, 55, 56, 57, 97, 98, 99, 100, 101, 102]
  two_le := by decide
  distinct := by decide
  plain := by decide

def Spells (r : Radix) (caseAdj : UInt8) : Prop := ∀ d < r.base, digitChar caseAdj d = r.char d

theorem radix8_spells (caseAdj : UInt8) : Spells radix8 caseAdj := by
  intro d small
  have few : d < 8 := small
  rw [digitChar, if_pos (by omega)]
  interval_cases d <;> rfl

theorem radix10_spells (caseAdj : UInt8) : Spells radix10 caseAdj := by
  intro d small
  have few : d < 10 := small
  rw [digitChar, if_pos few]
  interval_cases d <;> rfl

theorem radix16_spells : Spells radix16 0 := by
  intro d small
  have few : d < 16 := small
  interval_cases d <;> rfl

theorem radix16Lower_spells : Spells radix16Lower 0x20 := by
  intro d small
  have few : d < 16 := small
  interval_cases d <;> rfl

theorem numeral_reverse (r : Radix) {number : Nat} (more : number / r.base ≠ 0) :
    (r.numeral number).reverse =
      r.char (number % r.base) :: (r.numeral (number / r.base)).reverse := by
  have positive : number ≠ 0 := fun zero => more (by rw [zero, Nat.zero_div])
  rw [Radix.numeral, if_neg positive, Radix.numeral, if_neg more,
    Nat.digits_eq_cons_digits_div r.one_lt positive]
  simp

theorem numeral_digit (r : Radix) {number : Nat} (last : number / r.base = 0) :
    r.numeral number = [r.char (number % r.base)] := by
  rw [Radix.numeral]
  split_ifs with zero
  · rw [zero, Nat.zero_mod]
    rfl
  · rw [Nat.digits_eq_cons_digits_div r.one_lt zero, last]
    simp

theorem utoaRev_eq {r : Radix} {caseAdj : UInt8} (spells : Spells r caseAdj) (i : Nat) :
    utoaRev i r.base caseAdj = (r.numeral i).reverse := by
  induction i using Nat.strong_induction_on with
  | _ i ih =>
      rw [utoaRev, spells _ (Nat.mod_lt _ r.base_pos)]
      by_cases last : i / r.base = 0
      · rw [dif_pos (.inr last), numeral_digit r last]
        rfl
      · have more : ¬(r.base < 2 ∨ i / r.base = 0) :=
          fun stop => stop.elim (Nat.not_lt.mpr r.two_le) last
        rw [dif_neg more, ih _ (div_shrinks more), numeral_reverse r last]

theorem itoaLoop_eq {sign : Int} (unit : sign * sign = 1) (n : Nat) :
    itoaLoop sign (sign * n) = (radix10.numeral n).reverse := by
  have units : sign = 1 ∨ sign = -1 := Int.isUnit_iff.mp (IsUnit.of_mul_eq_one _ unit)
  have quotient (m : Nat) : (sign * m).tdiv 10 = sign * (m / 10 : Nat) := by
    rcases units with rfl | rfl
    · simp [Int.tdiv]
    · simp [Int.neg_tdiv]
  have digit (m : Nat) : sign * (sign * m).tmod 10 = (m % 10 : Nat) := by
    rcases units with rfl | rfl
    · rw [Int.one_mul, Int.one_mul]
      rfl
    · rw [Int.neg_one_mul, Int.neg_one_mul, Int.neg_tmod, Int.neg_neg]
      rfl
  induction n using Nat.strong_induction_on with
  | _ n ih =>
      have char : UInt8.ofInt (0x30 + (n % 10 : Nat)) = radix10.char (n % 10) := by
        have small : n % 10 < 10 := Nat.mod_lt n (by decide)
        rw [← radix10_spells 0 (n % 10) small, digitChar, if_pos small]
        generalize n % 10 = d at small
        interval_cases d <;> rfl
      rw [itoaLoop, digit, char, quotient]
      by_cases last : n / 10 = 0
      · have stop : sign * (n / 10 : Nat) = 0 := by rw [last]; simp
        rw [dif_pos stop, numeral_digit radix10 last]
        rfl
      · have more : sign * (n / 10 : Nat) ≠ 0 := by
          intro zero
          rcases units with rfl | rfl <;> omega
        rw [dif_neg more, ih _ (Nat.div_lt_self (by omega) (by decide)), numeral_reverse radix10 last]
        rfl

theorem itoaRev_eq (i : Int) : itoaRev i = (radix10.numeral i.natAbs).reverse := by
  unfold itoaRev
  split_ifs with positive
  · have same : i = 1 * i.natAbs := by omega
    conv_lhs => rw [same]
    exact itoaLoop_eq rfl _
  · have same : i = -1 * i.natAbs := by omega
    conv_lhs => rw [same]
    exact itoaLoop_eq rfl _

theorem parse_zeros (r : Radix) (zeros : Nat) (text : List UInt8) :
    r.parse (List.replicate zeros (r.char 0) ++ text) = r.parse text := by
  induction zeros with
  | zero => rfl
  | succ zeros ih =>
      rw [List.replicate_succ, List.cons_append, Radix.parse, List.foldlM_cons,
        r.value_char r.base_pos]
      simpa [Radix.parse] using ih

/-! ### Layout -/

section

variable (c : Converted)

theorem fieldPad_fills : c.fs.fieldWidth ≤
    c.fieldPad.toNat + c.signText.length + c.prefixText.length + c.precPad.toNat + c.cbuf.length := by
  have sign : (c.signText.length : Int) = if c.signC ≠ 0 then 1 else 0 := by
    unfold Converted.signText
    split_ifs <;> rfl
  have front : (c.prefixText.length : Int) = if c.need0x ≠ 0 then 2 else 0 := by
    unfold Converted.prefixText
    split_ifs <;> rfl
  have pad : c.fs.fieldWidth - c.cbuf.length - c.signText.length - c.prefixText.length - c.precPad ≤
      c.fieldPad := by
    rw [sign, front]
    exact le_max_right _ _
  have zeros : 0 ≤ c.precPad := by
    unfold Converted.precPad
    split_ifs
    · exact le_rfl
    · exact le_max_left _ _
  omega

theorem padC_cases : c.padC = 0 ∨ c.padC = 0x20 ∨ c.padC = 0x30 ∧ c.fs.leadingZeroPad = true := by
  unfold Converted.padC
  split_ifs with _ zero <;> simp_all

/-- The byte that fills a field behind a number. -/
def FormatSpec.Behind (fs : FormatSpec) (pad : UInt8) : Prop :=
  pad = 0x20 ∨ pad = 0x30 ∧ fs.leftJustified ∧ fs.leadingZeroPad

theorem output_number (number : c.fs.convSpec ≠ .string) (one : c.signC = 0 ∨ c.need0x = 0) :
    ∃ left zeros right pad,
      c.output = List.replicate left 0x20 ++ (c.signText ++ c.prefixText) ++
        (List.replicate zeros 0x30 ++ c.cbuf.reverse) ++ List.replicate right pad ∧
      c.fs.Behind pad ∧
      c.fs.prec ≤ zeros + c.cbuf.length ∧
      (c.padC ≠ 0 → c.fs.fieldWidth ≤
        left + (c.signText ++ c.prefixText).length + (zeros + c.cbuf.length) + right) := by
  have plain : c.isString = false := decide_eq_false number
  have swap : c.prefixText ++ c.signText = c.signText ++ c.prefixText := by
    unfold Converted.prefixText Converted.signText
    rcases one with none | none <;> simp [none]
  have prec : c.fs.prec ≤ c.precPad.toNat + c.cbuf.length := by
    have pad : c.fs.prec - c.cbuf.length ≤ c.precPad := by
      unfold Converted.precPad
      rw [plain]
      exact le_max_right _ _
    omega
  have fills := fieldPad_fills c
  have payload : c.payload = List.replicate c.precPad.toNat 0x30 ++ c.cbuf.reverse := by
    rw [Converted.payload, plain]
    rfl
  unfold Converted.output
  rw [plain, payload]
  simp only [Bool.false_eq_true, ↓reduceIte]
  by_cases before : ¬c.fs.leftJustified = true ∧ c.padC ≠ 0
  · rw [if_pos before]
    rcases padC_cases c with none | blank | ⟨zero, -⟩
    · exact absurd none before.2
    · refine ⟨c.fieldPad.toNat, c.precPad.toNat, 0, 0x20, ?_, .inl rfl, prec, fun _ => ?_⟩
      · rw [if_neg (by rw [blank]; decide), Converted.padding, blank, ← swap]
        simp
      · rw [List.length_append]
        omega
    · refine ⟨0, c.fieldPad.toNat + c.precPad.toNat, 0, 0x20, ?_, .inl rfl, by omega, fun _ => ?_⟩
      · rw [if_pos zero, Converted.padding, zero, List.replicate_add]
        simp only [List.replicate_zero, List.nil_append, List.append_nil, List.append_assoc]
      · rw [List.length_append]
        omega
  · rw [if_neg before]
    rcases padC_cases c with none | blank | ⟨zero, leading⟩
    · refine ⟨0, c.precPad.toNat, 0, 0x20, ?_, .inl rfl, prec, fun positive => absurd none positive⟩
      rw [if_neg (by rw [none]; decide), ← swap]
      simp
    · refine ⟨0, c.precPad.toNat, c.fieldPad.toNat, 0x20, ?_, .inl rfl, prec, fun _ => ?_⟩
      · rw [if_pos (by rw [blank]; decide), Converted.padding, blank, ← swap]
        simp
      · rw [List.length_append]
        omega
    · have justified : c.fs.leftJustified = true := by
        by_contra left
        exact before ⟨left, by rw [zero]; decide⟩
      refine ⟨0, c.precPad.toNat, c.fieldPad.toNat, 0x30, ?_, .inr ⟨rfl, justified, leading⟩, prec,
        fun _ => ?_⟩
      · rw [if_pos (by rw [zero]; decide), Converted.padding, zero, ← swap]
        simp
      · rw [List.length_append]
        omega

end

/-! ### Conversions of integers -/

namespace FormatSpec

/-- The integer that a conversion takes. -/
def number (fs : FormatSpec) (slot : Slot) : Option Int :=
  match fs.convSpec with
  | .percent => none
  | .char => none
  | .string => none
  | .signedInt => some (signedArg fs.lengthModifier slot)
  | .octal => some (unsignedArg fs.lengthModifier slot)
  | .hexInt => some (unsignedArg fs.lengthModifier slot)
  | .unsignedInt => some (unsignedArg fs.lengthModifier slot)
  | .pointer => some (slot.word % 2 ^ 64 : Nat)

def radix (fs : FormatSpec) : Radix :=
  match fs.convSpec with
  | .octal => radix8
  | .hexInt => if fs.caseAdjust = 0 then radix16 else radix16Lower
  | .pointer => radix16Lower
  | _ => radix10

/-- What stands in front of the digits: the sign of a signed number, or a prefix. -/
def front (fs : FormatSpec) (val : Int) : List UInt8 :=
  match fs.convSpec with
  | .signedInt =>
      if val < 0 then [0x2d] else if fs.prepend ≠ 0 then [fs.prepend] else []
  | .hexInt => if val ≠ 0 ∧ fs.altForm then [0x30, 0x58 + fs.caseAdjust] else []
  | .pointer => [0x30, 0x78]
  | _ => []

def Cased (fs : FormatSpec) : Prop := fs.caseAdjust = 0 ∨ fs.caseAdjust = 0x20

end FormatSpec

structure Holds (c : Converted) (fs : FormatSpec) (val : Int) : Prop where
  same : c.fs = { fs with prec := c.fs.prec }
  prec : fs.prec ≤ c.fs.prec
  number : fs.convSpec = .signedInt ∨ fs.convSpec = .octal ∨ fs.convSpec = .hexInt ∨
    fs.convSpec = .unsignedInt ∨ fs.convSpec = .pointer
  one : c.signC = 0 ∨ c.need0x = 0
  front : c.signText ++ c.prefixText = fs.front val
  digits : ∀ zeros, fs.radix.parse (List.replicate zeros 0x30 ++ c.cbuf.reverse) = some val.natAbs

theorem char_zero (fs : FormatSpec) : fs.radix.char 0 = 0x30 := by
  unfold FormatSpec.radix
  split
  · rfl
  · split_ifs <;> rfl
  · rfl
  · rfl

theorem parse_padded (fs : FormatSpec) (zeros : Nat) (text : List UInt8) :
    fs.radix.parse (List.replicate zeros 0x30 ++ text) = fs.radix.parse text := by
  rw [← char_zero fs]
  exact parse_zeros fs.radix zeros text

theorem parse_skipped {fs : FormatSpec} {n : Nat} (skips : skipsDigits fs (n = 0)) :
    fs.radix.parse [] = some n := by
  have zero : n = 0 := by
    by_contra positive
    simp [skipsDigits, positive] at skips
  rw [zero]
  rfl

theorem convertSigned_holds {fs : FormatSpec} (signed : fs.convSpec = .signedInt) (val : Int) :
    Holds (convertSigned fs val) fs val where
  same := rfl
  prec := le_rfl
  number := .inl signed
  one := .inr rfl
  front := by
    unfold FormatSpec.front
    rw [signed]
    simp only [Converted.signText, Converted.prefixText, convertSigned]
    by_cases negative : val < 0 <;> simp [negative]
  digits zeros := by
    rw [parse_padded]
    unfold convertSigned
    dsimp only
    have zero : decide (val = 0) = decide (val.natAbs = 0) := by simp
    have table : fs.radix = radix10 := by rw [FormatSpec.radix, signed]
    rw [zero]
    split_ifs with skips
    · exact parse_skipped skips
    · rw [itoaRev_eq, List.reverse_reverse, table]
      exact radix10.parse_numeral _

theorem convertPointer_holds {fs : FormatSpec} (pointer : fs.convSpec = .pointer) (val : Nat) :
    Holds (convertPointer fs val) fs val where
  same := rfl
  prec := le_rfl
  number := by simp [pointer]
  one := .inl rfl
  front := by
    unfold FormatSpec.front
    rw [pointer]
    rfl
  digits zeros := by
    have table : fs.radix = radix16Lower := by rw [FormatSpec.radix, pointer]
    have spelled : utoaRev val 16 0x20 = (radix16Lower.numeral val).reverse :=
      utoaRev_eq radix16Lower_spells val
    rw [parse_padded, convertPointer, spelled, List.reverse_reverse, table]
    exact radix16Lower.parse_numeral _

/-- The base that `npf_vpprintf` passes on. -/
theorem radix_spells {fs : FormatSpec} (cased : fs.Cased) {base : Nat}
    (unsigned : fs.convSpec = .octal ∧ base = 8 ∨ fs.convSpec = .hexInt ∧ base = 16 ∨
      fs.convSpec = .unsignedInt ∧ base = 10) :
    fs.radix.base = base ∧ Spells fs.radix fs.caseAdjust := by
  unfold FormatSpec.radix
  rcases unsigned with ⟨conv, rfl⟩ | ⟨conv, rfl⟩ | ⟨conv, rfl⟩
  · rw [conv]
    exact ⟨rfl, radix8_spells _⟩
  · rw [conv]
    dsimp only
    rcases cased with upper | lower
    · rw [if_pos upper, upper]
      exact ⟨rfl, radix16_spells⟩
    · rw [if_neg (by rw [lower]; decide), lower]
      exact ⟨rfl, radix16Lower_spells⟩
  · rw [conv]
    exact ⟨rfl, radix10_spells _⟩

theorem convertUnsigned_holds {fs : FormatSpec} (cased : fs.Cased) {base : Nat}
    (unsigned : fs.convSpec = .octal ∧ base = 8 ∨ fs.convSpec = .hexInt ∧ base = 16 ∨
      fs.convSpec = .unsignedInt ∧ base = 10) (val : Nat) :
    Holds (convertUnsigned fs base val) fs val where
  same := by
    unfold convertUnsigned
    dsimp only
    split_ifs <;> rfl
  prec := by
    unfold convertUnsigned
    dsimp only
    split_ifs with skips
    · have parts := skips.1
      simp only [skipsDigits, Bool.and_eq_true, decide_eq_true_eq] at parts
      rw [parts.2]
      exact Int.zero_le_ofNat 1
    · exact le_rfl
  number := by
    rcases unsigned with ⟨conv, _⟩ | ⟨conv, _⟩ | ⟨conv, _⟩ <;> simp [conv]
  one := .inl rfl
  front := by
    have letter : 0x58 + fs.caseAdjust ≠ 0 := by
      rcases cased with upper | lower
      · rw [upper]
        decide
      · rw [lower]
        decide
    unfold FormatSpec.front
    rcases unsigned with ⟨conv, _⟩ | ⟨conv, _⟩ | ⟨conv, _⟩
    · simp [Converted.signText, Converted.prefixText, convertUnsigned, conv]
    · by_cases alt : val ≠ 0 ∧ fs.altForm = true <;>
        simp [Converted.signText, Converted.prefixText, convertUnsigned, conv, alt, letter]
    · simp [Converted.signText, Converted.prefixText, convertUnsigned, conv]
  digits zeros := by
    obtain ⟨same, spells⟩ := radix_spells cased unsigned
    rw [parse_padded, convertUnsigned, ← same, utoaRev_eq spells, List.reverse_append]
    have octal (text : List UInt8) : fs.radix.parse
        ((if val ≠ 0 ∧ fs.altForm ∧ fs.convSpec = .octal then [0x30] else []).reverse ++ text) =
          fs.radix.parse text := by
      split_ifs
      · exact parse_padded fs 1 text
      · rfl
    rw [octal]
    split_ifs with skips
    · exact parse_skipped skips
    · rw [List.reverse_reverse]
      exact fs.radix.parse_numeral _

theorem convertArg_holds {fs : FormatSpec} (cased : fs.Cased) {slot : Slot} {val : Int}
    (number : fs.number slot = some val) : Holds (convertArg fs slot) fs val := by
  unfold FormatSpec.number at number
  unfold convertArg
  cases conv : fs.convSpec with
  | percent | char | string =>
      rw [conv] at number
      cases number
  | signedInt =>
      rw [conv] at number
      obtain rfl := Option.some.inj number
      exact convertSigned_holds conv _
  | octal =>
      rw [conv] at number
      obtain rfl := Option.some.inj number
      exact convertUnsigned_holds cased (.inl ⟨conv, rfl⟩) _
  | hexInt =>
      rw [conv] at number
      obtain rfl := Option.some.inj number
      exact convertUnsigned_holds cased (.inr (.inl ⟨conv, rfl⟩)) _
  | unsignedInt =>
      rw [conv] at number
      obtain rfl := Option.some.inj number
      exact convertUnsigned_holds cased (.inr (.inr ⟨conv, rfl⟩)) _
  | pointer =>
      rw [conv] at number
      obtain rfl := Option.some.inj number
      exact convertPointer_holds conv _

theorem Holds.numeric {c : Converted} {fs : FormatSpec} {val : Int} (holds : Holds c fs val) :
    fs.convSpec ≠ .string ∧ fs.convSpec ≠ .char ∧ fs.convSpec ≠ .percent := by
  rcases holds.number with h | h | h | h | h <;> simp [h]

theorem Holds.padded {c : Converted} {fs : FormatSpec} {val : Int} (holds : Holds c fs val)
    (literal : fs.fieldWidthOpt = .literal) : c.padC ≠ 0 := by
  have same := holds.same
  have width : c.fs.fieldWidthOpt = .literal := by rw [same]; exact literal
  have conv : c.fs.convSpec = fs.convSpec := by rw [same]
  have number := holds.numeric
  rw [← conv] at number
  unfold Converted.padC
  rw [if_pos width, if_pos number]
  split_ifs <;> decide

theorem FormatSpec.Cased.withWidth {fs : FormatSpec} (cased : fs.Cased) (fieldWidth : Int) :
    (fs.withWidth fieldWidth).Cased := by
  unfold FormatSpec.withWidth
  split_ifs
  · exact cased
  · exact cased

theorem FormatSpec.Cased.withPrec {fs : FormatSpec} (cased : fs.Cased) (prec : Int) :
    (fs.withPrec prec).Cased := cased

theorem starWidth_cased {spec fs : FormatSpec} {args left : List Slot} (cased : spec.Cased)
    (star : starWidth spec args = some (fs, left)) : fs.Cased := by
  unfold starWidth at star
  split_ifs at star
  · obtain ⟨⟨slot, rest⟩, -, made⟩ := Option.map_eq_some_iff.mp star
    obtain ⟨rfl, -⟩ := Prod.mk.inj made
    exact cased.withWidth _
  · obtain ⟨rfl, -⟩ := Prod.mk.inj (Option.some.inj star)
    exact cased

theorem starPrec_cased {spec fs : FormatSpec} {args left : List Slot} (cased : spec.Cased)
    (star : starPrec spec args = some (fs, left)) : fs.Cased := by
  unfold starPrec at star
  split_ifs at star
  · obtain ⟨⟨slot, rest⟩, -, made⟩ := Option.map_eq_some_iff.mp star
    obtain ⟨rfl, -⟩ := Prod.mk.inj made
    exact cased.withPrec _
  · obtain ⟨rfl, -⟩ := Prod.mk.inj (Option.some.inj star)
    exact cased

theorem starArgs_cased {spec fs : FormatSpec} {args left : List Slot} (cased : spec.Cased)
    (stars : starArgs spec args = some (fs, left)) : fs.Cased := by
  obtain ⟨⟨fs₁, args₁⟩, width, prec⟩ := Option.bind_eq_some_iff.mp stars
  exact starPrec_cased (starWidth_cased cased width) prec

theorem Directive.cased (d : Directive) : d.meaning.Cased := by
  unfold FormatSpec.Cased Directive.meaning
  dsimp only
  split_ifs
  · exact .inl rfl
  · exact .inr rfl

/-! ### All of it -/

/-- An integer is printed as a sign or a prefix and digits that read back as its absolute value.
The precision is kept and the field is filled with blanks, or with zeros in front of the digits.
A minus sign that comes from a star does not clear a zero flag, and only then do zeros stand
behind the digits. -/
theorem number_reads_back (d : Directive) {fs : FormatSpec} {slot : Slot} {args rest : List Slot}
    {val : Int} (stars : starArgs d.meaning args = some (fs, slot :: rest))
    (number : fs.number slot = some val) :
    ∃ left digits right pad,
      vpprintf (0x25 :: d.text) args =
        some (List.replicate left 0x20 ++ fs.front val ++ digits ++ List.replicate right pad) ∧
      fs.Behind pad ∧ fs.radix.parse digits = some val.natAbs ∧ fs.prec ≤ digits.length ∧
      (fs.fieldWidthOpt = .literal →
        fs.fieldWidth ≤ left + (fs.front val).length + digits.length + right) := by
  have holds := convertArg_holds (starArgs_cased d.cased stars) number
  have converted : convert fs (slot :: rest) = some (convertArg fs slot, rest) := by
    rw [convert, if_neg holds.numeric.2.2]
    rfl
  generalize convertArg fs slot = c at holds converted
  have string : c.fs.convSpec ≠ .string := by
    rw [holds.same]
    exact holds.numeric.1
  obtain ⟨left, zeros, right, pad, output, behind, prec, fills⟩ :=
    output_number c string holds.one
  have behind' : fs.Behind pad := by
    rw [holds.same] at behind
    exact behind
  rw [holds.front] at output fills
  refine ⟨left, List.replicate zeros 0x30 ++ c.cbuf.reverse, right, pad, ?_, behind',
    holds.digits zeros, ?_, ?_⟩
  · rw [vpprintf_directive, formatOne, stars]
    simp only [Option.bind_some, converted, Option.map_some, output]
  · have least := holds.prec
    simp only [List.length_append, List.length_replicate, List.length_reverse]
    omega
  · intro literal
    have filled := fills (holds.padded literal)
    have width : c.fs.fieldWidth = fs.fieldWidth := by rw [holds.same]
    simp only [List.length_append, List.length_replicate, List.length_reverse]
    omega

/-- `%#lx` -/
def prefixedHex : Directive where
  flags := [.hash]
  width := .missing
  precision := .missing
  length := .long
  configured := nofun
  letter := .x

theorem number_reads_back_hex : ∃ left digits right pad,
    vpprintf [0x25, 0x23, 0x6c, 0x78] [⟨0xfee00000, []⟩] =
      some (List.replicate left 0x20 ++ [0x30, 0x78] ++ digits ++ List.replicate right pad) ∧
    prefixedHex.meaning.Behind pad ∧ radix16Lower.parse digits = some 0xfee00000 ∧
    0 ≤ (digits.length : Int) ∧
    (prefixedHex.meaning.fieldWidthOpt = .literal →
      prefixedHex.meaning.fieldWidth ≤ left + 2 + digits.length + right) :=
  number_reads_back prefixedHex
    (show starArgs prefixedHex.meaning [⟨0xfee00000, []⟩] =
      some (prefixedHex.meaning, [⟨0xfee00000, []⟩]) from rfl)
    (show prefixedHex.meaning.number ⟨0xfee00000, []⟩ = some 0xfee00000 from rfl)

end Nyaux.Printf
