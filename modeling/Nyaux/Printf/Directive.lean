import Nyaux.Printf.FormatSpec

/-! The grammar of conversion specifications, and that the parser accepts exactly it. -/

namespace Nyaux.Printf

open Word

/-! ### The grammar -/

inductive Flag
  | minus
  | zero
  | plus
  | space
  | hash
  deriving DecidableEq, Repr

def Flag.byte : Flag → UInt8
  | .minus => 0x2d
  | .zero => 0x30
  | .plus => 0x2b
  | .space => 0x20
  | .hash => 0x23

structure WidthDigits where
  text : List UInt8
  digits : ∀ c ∈ text, IsDigit c
  leading : ∃ c rest, text = c :: rest ∧ c ≠ 0x30

inductive Width
  | missing
  | star
  | literal (digits : WidthDigits)

namespace Width

def text : Width → List UInt8
  | .missing => []
  | .star => [0x2a]
  | .literal digits => digits.text

def opt : Width → FmtSpecOpt
  | .missing => .none
  | .star => .star
  | .literal _ => .literal

def value : Width → Int
  | .missing => 0
  | .star => 0
  | .literal digits => toInt32 (decimal digits.text)

end Width

structure Digits where
  text : List UInt8
  digits : ∀ c ∈ text, IsDigit c

inductive Precision
  | missing
  | star
  | literal (digits : Digits)
  | negative (digits : Digits)

namespace Precision

def text : Precision → List UInt8
  | .missing => []
  | .star => [0x2e, 0x2a]
  | .literal digits => 0x2e :: digits.text
  | .negative digits => 0x2e :: 0x2d :: digits.text

def opt : Precision → FmtSpecOpt
  | .missing => .none
  | .star => .star
  | .literal _ => .literal
  | .negative _ => .none

def value : Precision → Int
  | .missing => 0
  | .star => 0
  | .literal digits => toInt32 (decimal digits.text)
  | .negative digits => toInt32 (decimal digits.text)

end Precision

def LengthModifier.text : LengthModifier → List UInt8
  | .none => []
  | .longDouble => []
  | .short => [0x68]
  | .char => [0x68, 0x68]
  | .long => [0x6c]
  | .longLong => [0x6c, 0x6c]
  | .intmax => [0x6a]
  | .sizet => [0x7a]
  | .ptrdifft => [0x74]

inductive Letter
  | percent
  | c
  | s
  | i
  | d
  | o
  | u
  | X
  | x
  | p
  deriving DecidableEq, Repr

namespace Letter

def byte : Letter → UInt8
  | .percent => 0x25
  | .c => 0x63
  | .s => 0x73
  | .i => 0x69
  | .d => 0x64
  | .o => 0x6f
  | .u => 0x75
  | .X => 0x58
  | .x => 0x78
  | .p => 0x70

def conversion : Letter → Conversion
  | .percent => .percent
  | .c => .char
  | .s => .string
  | .i => .signedInt
  | .d => .signedInt
  | .o => .octal
  | .u => .unsignedInt
  | .X => .hexInt
  | .x => .hexInt
  | .p => .pointer

def takesPrecision : Letter → Bool
  | .percent => false
  | .c => false
  | .p => false
  | _ => true

end Letter

/-- A conversion specification without its percent sign. -/
structure Directive where
  flags : List Flag
  width : Width
  precision : Precision
  length : LengthModifier
  configured : length ≠ .longDouble
  letter : Letter

namespace Directive

def text (d : Directive) : List UInt8 :=
  d.flags.map Flag.byte ++ (d.width.text ++ (d.precision.text ++ (d.length.text ++ [d.letter.byte])))

/-- What it asks for. A minus sign wins over a zero and a plus sign over a space, wherever they
stand; numbers are taken as an `int`. -/
def meaning (d : Directive) : FormatSpec where
  prepend := if .plus ∈ d.flags then 0x2b else if .space ∈ d.flags then 0x20 else 0
  altForm := .hash ∈ d.flags
  fieldWidthOpt := d.width.opt
  fieldWidth := d.width.value
  leftJustified := .minus ∈ d.flags
  leadingZeroPad := (.zero ∈ d.flags ∧ .minus ∉ d.flags) ∧ d.letter ≠ .s ∧
    (d.letter.takesPrecision → d.precision.opt = .none)
  precOpt := if d.letter.takesPrecision then d.precision.opt else .none
  prec := d.precision.value
  lengthModifier := d.length
  convSpec := d.letter.conversion
  caseAdjust := if d.letter = .X then 0 else 0x20

end Directive

/-! ### Numbers -/

def NoDigit (cur : List UInt8) : Prop := ∀ c ∈ cur.head?, ¬IsDigit c

theorem parseInt_stops {cur : List UInt8} (stop : NoDigit cur) (n : Int) :
    parseInt cur n = (n, cur) := by
  cases cur with
  | nil => rfl
  | cons c cur => exact if_neg (stop c rfl)

theorem parseInt_digits {cur : List UInt8} (stop : NoDigit cur) (digits : List UInt8)
    (all : ∀ c ∈ digits, IsDigit c) (v : Nat) :
    parseInt (digits ++ cur) (toInt32 v) =
      (toInt32 (digits.foldl (fun v c => v * 10 + (c.toNat - 0x30)) v), cur) := by
  induction digits generalizing v with
  | nil => exact parseInt_stops stop _
  | cons c digits ih =>
      have step : Int.bmod (toInt32 v * 10 + (c.toNat - 0x30 : Nat)) (2 ^ 32) =
          toInt32 (v * 10 + (c.toNat - 0x30)) := by
        unfold toInt32
        rw [← Int.bmod_add_bmod, Int.bmod_mul_bmod, Int.bmod_add_bmod, Nat.cast_add, Nat.cast_mul]
        rfl
      rw [List.cons_append, parseInt, if_pos (all c List.mem_cons_self), step]
      exact ih (fun c member => all c (List.mem_cons_of_mem _ member)) _

theorem startsInt_false {cur : List UInt8} (stop : NoDigit cur) : startsInt cur = false := by
  cases cur with
  | nil => rfl
  | cons c cur => exact decide_eq_false (stop c rfl)

/-! ### The parts -/

def Flag.apply (fs : FormatSpec) : Flag → FormatSpec
  | .minus => { fs with leftJustified := true, leadingZeroPad := false }
  | .zero => { fs with leadingZeroPad := !fs.leftJustified }
  | .plus => { fs with prepend := 0x2b }
  | .space => { fs with prepend := if fs.prepend = 0 then 0x20 else fs.prepend }
  | .hash => { fs with altForm := true }

theorem flag_byte (f : Flag) (fs : FormatSpec) : flag f.byte fs = some (f.apply fs) := by
  cases f <;> rfl

def NoFlag (cur : List UInt8) : Prop := ∀ c ∈ cur.head?, ∀ f : Flag, c ≠ f.byte

theorem flag_none {c : UInt8} (other : ∀ f : Flag, c ≠ f.byte) (fs : FormatSpec) :
    flag c fs = none := by
  have minus : c ≠ 0x2d := other .minus
  have zero : c ≠ 0x30 := other .zero
  have plus : c ≠ 0x2b := other .plus
  have space : c ≠ 0x20 := other .space
  have hash : c ≠ 0x23 := other .hash
  unfold flag
  rw [if_neg minus, if_neg zero, if_neg plus, if_neg space, if_neg hash]

theorem parseFlags_text {cur : List UInt8} (stop : NoFlag cur) (flags : List Flag)
    (fs : FormatSpec) :
    parseFlags (flags.map Flag.byte ++ cur) fs = (flags.foldl Flag.apply fs, cur) := by
  induction flags generalizing fs with
  | nil =>
      cases cur with
      | nil => rfl
      | cons c cur => rw [List.map_nil, List.nil_append, parseFlags, flag_none (stop c rfl)]; rfl
  | cons f flags ih => rw [List.map_cons, List.cons_append, parseFlags, flag_byte]; exact ih _

theorem flags_meaning (flags : List Flag) (fs : FormatSpec) :
    flags.foldl Flag.apply fs =
      { fs with
        prepend := if .plus ∈ flags then 0x2b
          else if fs.prepend = 0 ∧ .space ∈ flags then 0x20 else fs.prepend
        altForm := fs.altForm || decide (.hash ∈ flags)
        leftJustified := fs.leftJustified || decide (.minus ∈ flags)
        leadingZeroPad := if .minus ∈ flags then false
          else if .zero ∈ flags then !fs.leftJustified else fs.leadingZeroPad } := by
  induction flags generalizing fs with
  | nil => simp
  | cons f flags ih =>
      rw [List.foldl_cons, ih]
      cases f with
      | space => by_cases none : fs.prepend = 0 <;> simp [Flag.apply, none]
      | plus => simp [Flag.apply]
      | _ => simp [Flag.apply]; congr

theorem digit_head {c b : UInt8} {cur : List UInt8} (digit : IsDigit c) (other : ¬IsDigit b) :
    (c :: cur).head? ≠ some b := by
  intro same
  exact other (Option.some.inj same ▸ digit)

theorem parseInt_text {cur : List UInt8} (stop : NoDigit cur) {digits : List UInt8}
    (all : ∀ c ∈ digits, IsDigit c) :
    parseInt (digits ++ cur) 0 = (toInt32 (decimal digits), cur) :=
  parseInt_digits stop digits all 0

theorem parseFieldWidth_text {cur : List UInt8} (stop : NoDigit cur)
    (noStar : cur.head? ≠ some 0x2a) (width : Width) {fs : FormatSpec}
    (fresh : fs.fieldWidth = 0) :
    parseFieldWidth (width.text ++ cur) fs =
      ({ fs with fieldWidthOpt := width.opt, fieldWidth := width.value }, cur) := by
  unfold parseFieldWidth
  cases width with
  | star =>
      have star : (Width.star.text ++ cur).head? = some 0x2a := rfl
      rw [if_pos star, Width.opt, Width.value, ← fresh]
      rfl
  | missing =>
      rw [Width.text, List.nil_append, if_neg noStar, parseInt_stops stop, startsInt_false stop]
      rfl
  | literal digits =>
      obtain ⟨text, all, c, rest, rfl, _⟩ := digits
      have digit : IsDigit c := all c List.mem_cons_self
      have starts : startsInt (c :: rest ++ cur) = true := decide_eq_true digit
      have other : (c :: rest ++ cur).head? ≠ some 0x2a := digit_head digit (by decide)
      rw [Width.text, if_neg other, parseInt_text stop all, starts, if_pos rfl, Width.opt, Width.value]

theorem parsePrecision_text {cur : List UInt8} (stop : NoDigit cur)
    (noDot : cur.head? ≠ some 0x2e) (noStar : cur.head? ≠ some 0x2a)
    (noMinus : cur.head? ≠ some 0x2d) (precision : Precision) {fs : FormatSpec}
    (fresh : fs.precOpt = .none ∧ fs.prec = 0) :
    parsePrecision (precision.text ++ cur) fs =
      ({ fs with precOpt := precision.opt, prec := precision.value }, cur) := by
  unfold parsePrecision
  cases precision with
  | missing =>
      rw [Precision.text, List.nil_append, if_neg noDot]
      obtain ⟨opt, prec⟩ := fresh
      cases fs
      cases opt
      cases prec
      rfl
  | star =>
      obtain ⟨_, prec⟩ := fresh
      cases fs
      cases prec
      rfl
  | negative digits =>
      have dot : (0x2e :: 0x2d :: (digits.text ++ cur)).head? = some 0x2e := rfl
      have minus : (0x2d :: (digits.text ++ cur)).head? ≠ some 0x2a := by simp
      rw [Precision.text, List.cons_append, List.cons_append, if_pos dot]
      dsimp only [List.tail_cons]
      rw [if_neg minus, if_pos (List.head?_cons), parseInt_text stop digits.digits, Precision.opt,
        Precision.value]
  | literal digits =>
      have heads : (digits.text ++ cur).head? ≠ some 0x2a ∧ (digits.text ++ cur).head? ≠ some 0x2d := by
        obtain ⟨text, all⟩ := digits
        cases text with
        | nil => exact ⟨noStar, noMinus⟩
        | cons c text =>
            have digit : IsDigit c := all c List.mem_cons_self
            exact ⟨digit_head digit (by decide), digit_head digit (by decide)⟩
      rw [Precision.text, List.cons_append, if_pos List.head?_cons]
      dsimp only [List.tail_cons]
      rw [if_neg heads.1, if_neg heads.2, parseInt_text stop digits.digits, Precision.opt,
        Precision.value]

theorem parseLength_text (length : LengthModifier) (configured : length ≠ .longDouble)
    (letter : Letter) (rest : List UInt8) :
    parseLength (length.text ++ letter.byte :: rest) = (length, letter.byte :: rest) := by
  cases length with
  | longDouble => exact absurd rfl configured
  | _ => cases letter <;> rfl

theorem conversion_letter (letter : Letter) (fs : FormatSpec) :
    conversion letter.byte fs = some { fs with
      convSpec := letter.conversion
      leadingZeroPad := fs.leadingZeroPad && (letter ≠ .s ∧
        (letter.takesPrecision → fs.precOpt = .none))
      precOpt := if letter.takesPrecision then fs.precOpt else .none
      caseAdjust := if letter = .X then 0 else fs.caseAdjust } := by
  cases letter <;> simp [conversion, Letter.byte, Letter.conversion, Letter.takesPrecision,
    FormatSpec.integer, Bool.and_comm]

/-! ### All of it -/

def Late (c : UInt8) : Prop := c = 0x25 ∨ 0x58 ≤ c

instance (c : UInt8) : Decidable (Late c) := inferInstanceAs (Decidable (_ ∨ _))

theorem letter_late (letter : Letter) : Late letter.byte := by
  cases letter <;> decide

theorem length_late (d : Directive) (rest : List UInt8) :
    ∃ c cur, d.length.text ++ d.letter.byte :: rest = c :: cur ∧ Late c := by
  cases d.length with
  | none => exact ⟨_, _, rfl, letter_late _⟩
  | longDouble => exact ⟨_, _, rfl, letter_late _⟩
  | _ => exact ⟨_, _, rfl, .inr (by decide)⟩

theorem late_other {c : UInt8} (late : Late c) :
    ¬IsDigit c ∧ c ≠ 0x2e ∧ c ≠ 0x2a ∧ ∀ f : Flag, c ≠ f.byte := by
  have apart : ∀ {b : UInt8}, ¬Late b → c ≠ b := fun other same => other (same ▸ late)
  refine ⟨fun digit => ?_, apart (by decide), apart (by decide), fun f => ?_⟩
  · obtain ⟨low, high⟩ := digit
    rcases late with rfl | late
    · exact absurd low (by decide)
    · exact absurd (UInt8.le_trans late high) (by decide)
  · cases f <;> exact apart (by decide)

theorem precision_head (precision : Precision) {c : UInt8} (cur : List UInt8) (late : Late c) :
    ∃ b rest, precision.text ++ c :: cur = b :: rest ∧ (b = 0x2e ∨ Late b) := by
  cases precision with
  | missing => exact ⟨c, cur, rfl, .inr late⟩
  | star => exact ⟨_, _, rfl, .inl rfl⟩
  | literal digits => exact ⟨_, _, rfl, .inl rfl⟩
  | negative digits => exact ⟨_, _, rfl, .inl rfl⟩

theorem after_width {b : UInt8} (after : b = 0x2e ∨ Late b) : ¬IsDigit b ∧ b ≠ 0x2a := by
  rcases after with rfl | late
  · decide
  · obtain ⟨digit, _, star, _⟩ := late_other late
    exact ⟨digit, star⟩

theorem digit_no_flag {c : UInt8} (digit : IsDigit c) (leading : c ≠ 0x30) (f : Flag) :
    c ≠ f.byte := by
  have apart : ∀ {b : UInt8}, ¬IsDigit b → c ≠ b := fun other same => other (same ▸ digit)
  cases f with
  | zero => exact leading
  | _ => exact apart (by decide)

theorem width_no_flag (width : Width) {c : UInt8} (cur : List UInt8) (after : c = 0x2e ∨ Late c) :
    NoFlag (width.text ++ c :: cur) := by
  intro b head f
  cases width with
  | missing =>
      obtain rfl := Option.some.inj head
      rcases after with rfl | late
      · cases f <;> decide
      · exact (late_other late).2.2.2 f
  | star =>
      obtain rfl := Option.some.inj head
      cases f <;> decide
  | literal digits =>
      obtain ⟨text, all, first, rest, rfl, leading⟩ := digits
      obtain rfl := Option.some.inj head
      exact digit_no_flag (all _ List.mem_cons_self) leading f

theorem parseFormatSpec_text (d : Directive) (rest : List UInt8) :
    parseFormatSpec (d.text ++ rest) = some (d.meaning, rest) := by
  have text : d.text ++ rest = d.flags.map Flag.byte ++ (d.width.text ++ (d.precision.text ++
      (d.length.text ++ d.letter.byte :: rest))) := by
    simp only [Directive.text, List.append_assoc, List.singleton_append]
  have length := parseLength_text d.length d.configured d.letter rest
  obtain ⟨c, cur, tail, late⟩ := length_late d rest
  obtain ⟨digit, dot, star, noFlag⟩ := late_other late
  have stop : NoDigit (c :: cur) := fun b head => Option.some.inj head ▸ digit
  have heads : ∀ {b : UInt8}, c ≠ b → (c :: cur).head? ≠ some b :=
    fun other same => other (Option.some.inj same)
  obtain ⟨b, cur', after, dotOrLate⟩ := precision_head d.precision cur late
  obtain ⟨digit', star'⟩ := after_width dotOrLate
  have stop' : NoDigit (b :: cur') := fun b' head => Option.some.inj head ▸ digit'
  have noStar' : (b :: cur').head? ≠ some 0x2a := fun same => star' (Option.some.inj same)
  have flags := parseFlags_text (width_no_flag d.width cur' dotOrLate) d.flags .start
  rw [flags_meaning] at flags
  unfold parseFormatSpec
  rw [text, tail, after, flags]
  dsimp only
  rw [parseFieldWidth_text stop' noStar' d.width rfl, ← after]
  dsimp only
  rw [parsePrecision_text stop (heads dot) (heads star) (heads (noFlag .minus)) d.precision
    ⟨rfl, rfl⟩, ← tail]
  dsimp only
  rw [length]
  dsimp only
  rw [conversion_letter, Option.map_some]
  refine congrArg (fun fs => some (fs, rest)) ?_
  have zeros : ((if .minus ∈ d.flags then false else if .zero ∈ d.flags then !false else false) &&
        decide (d.letter ≠ .s ∧ (d.letter.takesPrecision → d.precision.opt = .none))) =
      decide ((.zero ∈ d.flags ∧ .minus ∉ d.flags) ∧ d.letter ≠ .s ∧
        (d.letter.takesPrecision → d.precision.opt = .none)) := by
    by_cases minus : .minus ∈ d.flags <;> by_cases zero : .zero ∈ d.flags <;> simp [minus, zero]
  unfold Directive.meaning
  rw [← zeros]
  simp [FormatSpec.start]

/-! ### Nothing else -/

theorem parseFlags_split (cur : List UInt8) (fs : FormatSpec) :
    ∃ flags : List Flag, cur = flags.map Flag.byte ++ (parseFlags cur fs).2 ∧
      NoFlag (parseFlags cur fs).2 := by
  induction cur generalizing fs with
  | nil => exact ⟨[], rfl, nofun⟩
  | cons c cur ih =>
      by_cases known : ∃ f : Flag, c = f.byte
      · obtain ⟨f, rfl⟩ := known
        obtain ⟨flags, split, stop⟩ := ih (f.apply fs)
        rw [parseFlags, flag_byte]
        exact ⟨f :: flags, congrArg (f.byte :: ·) split, stop⟩
      · have other : ∀ f : Flag, c ≠ f.byte := fun f same => known ⟨f, same⟩
        rw [parseFlags, flag_none other]
        refine ⟨[], rfl, fun b head => ?_⟩
        obtain rfl := Option.some.inj head
        exact other

theorem parseInt_split (cur : List UInt8) (n : Int) :
    ∃ digits, cur = digits ++ (parseInt cur n).2 ∧ ∀ c ∈ digits, IsDigit c := by
  induction cur generalizing n with
  | nil => exact ⟨[], rfl, nofun⟩
  | cons c cur ih =>
      rw [parseInt]
      split_ifs with digit
      · obtain ⟨digits, split, all⟩ := ih (Int.bmod (n * 10 + (c.toNat - 0x30 : Nat)) (2 ^ 32))
        refine ⟨c :: digits, congrArg (c :: ·) split, ?_⟩
        rintro b (_ | ⟨_, member⟩)
        · exact digit
        · exact all b member
      · exact ⟨[], rfl, nofun⟩

theorem eq_cons_tail {c : UInt8} {cur : List UInt8} (head : cur.head? = some c) :
    cur = c :: cur.tail := by
  cases cur with
  | nil => cases head
  | cons b cur =>
      obtain rfl := Option.some.inj head
      rfl

theorem parseFieldWidth_split {cur : List UInt8} (stop : NoFlag cur) (fs : FormatSpec) :
    ∃ width : Width, cur = width.text ++ (parseFieldWidth cur fs).2 := by
  unfold parseFieldWidth
  by_cases star : cur.head? = some 0x2a
  · rw [if_pos star]
    exact ⟨.star, eq_cons_tail star⟩
  · rw [if_neg star]
    obtain ⟨digits, split, all⟩ := parseInt_split cur 0
    cases digits with
    | nil => exact ⟨.missing, split⟩
    | cons c digits =>
        have head : cur.head? = some c := by rw [split]; rfl
        exact ⟨.literal ⟨c :: digits, all, c, digits, rfl, stop c head .zero⟩, split⟩

theorem parsePrecision_split (cur : List UInt8) (fs : FormatSpec) :
    ∃ precision : Precision, cur = precision.text ++ (parsePrecision cur fs).2 := by
  unfold parsePrecision
  by_cases dot : cur.head? = some 0x2e
  · rw [if_pos dot]
    dsimp only
    have front := eq_cons_tail dot
    split_ifs with star minus
    · exact ⟨.star, front.trans (congrArg (0x2e :: ·) (eq_cons_tail star))⟩
    · obtain ⟨digits, split, all⟩ := parseInt_split cur.tail.tail 0
      refine ⟨.negative ⟨digits, all⟩, front.trans (congrArg (0x2e :: ·) ?_)⟩
      exact (eq_cons_tail minus).trans (congrArg (0x2d :: ·) split)
    · obtain ⟨digits, split, all⟩ := parseInt_split cur.tail 0
      exact ⟨.literal ⟨digits, all⟩, front.trans (congrArg (0x2e :: ·) split)⟩
  · rw [if_neg dot]
    exact ⟨.missing, rfl⟩

theorem parseLength_split (cur : List UInt8) :
    (parseLength cur).1 ≠ .longDouble ∧
      cur = (parseLength cur).1.text ++ (parseLength cur).2 := by
  unfold parseLength
  split_ifs with h hh l ll j z t
  · exact ⟨nofun, (eq_cons_tail h).trans (congrArg (0x68 :: ·) (eq_cons_tail hh))⟩
  · exact ⟨nofun, eq_cons_tail h⟩
  · exact ⟨nofun, (eq_cons_tail l).trans (congrArg (0x6c :: ·) (eq_cons_tail ll))⟩
  · exact ⟨nofun, eq_cons_tail l⟩
  · exact ⟨nofun, eq_cons_tail j⟩
  · exact ⟨nofun, eq_cons_tail z⟩
  · exact ⟨nofun, eq_cons_tail t⟩
  · exact ⟨nofun, rfl⟩

theorem conversion_split {c : UInt8} {fs fs' : FormatSpec} (found : conversion c fs = some fs') :
    ∃ letter : Letter, c = letter.byte := by
  unfold conversion at found
  split_ifs at found with percent char string signed octal unsigned upper lower pointer
  · exact ⟨.percent, percent⟩
  · exact ⟨.c, char⟩
  · exact ⟨.s, string⟩
  · rcases signed with i | d
    · exact ⟨.i, i⟩
    · exact ⟨.d, d⟩
  · exact ⟨.o, octal⟩
  · exact ⟨.u, unsigned⟩
  · exact ⟨.X, upper⟩
  · exact ⟨.x, lower⟩
  · exact ⟨.p, pointer⟩

theorem parseFormatSpec_split {cur rest : List UInt8} {fs : FormatSpec}
    (found : parseFormatSpec cur = some (fs, rest)) :
    ∃ d : Directive, cur = d.text ++ rest := by
  unfold parseFormatSpec at found
  dsimp only at found
  obtain ⟨flags, split, stop⟩ := parseFlags_split cur .start
  generalize parseFlags cur .start = state₁ at found split stop
  obtain ⟨width, split₁⟩ := parseFieldWidth_split stop state₁.1
  generalize parseFieldWidth state₁.2 state₁.1 = state₂ at found split₁
  obtain ⟨precision, split₂⟩ := parsePrecision_split state₂.2 state₂.1
  generalize parsePrecision state₂.2 state₂.1 = state₃ at found split₂
  obtain ⟨configured, split₃⟩ := parseLength_split state₃.2
  generalize parseLength state₃.2 = state₄ at found configured split₃
  obtain ⟨length, last⟩ := state₄
  dsimp only at found configured split₃
  cases last with
  | nil => cases found
  | cons c last =>
      obtain ⟨fs', converted, same⟩ := Option.map_eq_some_iff.mp found
      obtain ⟨letter, rfl⟩ := conversion_split converted
      obtain rfl : last = rest := congrArg Prod.snd same
      refine ⟨⟨flags, width, precision, length, configured, letter⟩, ?_⟩
      rw [split, split₁, split₂, split₃]
      simp only [Directive.text, List.append_assoc, List.singleton_append]

/-- The parser accepts exactly the specifications of the grammar, each with its meaning. -/
theorem parseFormatSpec_iff (cur rest : List UInt8) (fs : FormatSpec) :
    parseFormatSpec cur = some (fs, rest) ↔
      ∃ d : Directive, cur = d.text ++ rest ∧ d.meaning = fs := by
  constructor
  · intro found
    obtain ⟨d, rfl⟩ := parseFormatSpec_split found
    rw [parseFormatSpec_text] at found
    exact ⟨d, rfl, congrArg Prod.fst (Option.some.inj found)⟩
  · rintro ⟨d, rfl, rfl⟩
    exact parseFormatSpec_text d rest

end Nyaux.Printf
