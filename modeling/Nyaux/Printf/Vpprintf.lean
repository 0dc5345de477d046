import Nyaux.Printf.Directive

/-! `npf_vpprintf`: the bytes that it hands to `pc`, in their order. Nothing comes back where
the source reads an argument that is not there. -/

namespace Nyaux.Printf

open Word

/-! ### Arguments -/

/-- A slot of a `va_list`: a word and, if this is the address of a string, the string's bytes
before its terminator. -/
structure Slot where
  word : Nat
  text : List UInt8
  deriving DecidableEq, Repr

def vaArg : List Slot → Option (Slot × List Slot)
  | [] => none
  | slot :: args => some (slot, args)

def FormatSpec.withWidth (fs : FormatSpec) (fieldWidth : Int) : FormatSpec :=
  if fieldWidth < 0 then
    { fs with
      fieldWidthOpt := .literal
      fieldWidth := Int.bmod (-fieldWidth) (2 ^ 32)
      leftJustified := true }
  else { fs with fieldWidthOpt := .literal, fieldWidth := fieldWidth }

def FormatSpec.withPrec (fs : FormatSpec) (prec : Int) : FormatSpec :=
  { fs with prec := prec, precOpt := if prec ≥ 0 then .literal else .none }

theorem FormatSpec.withPrec_convSpec (fs : FormatSpec) (prec : Int) :
    (fs.withPrec prec).convSpec = fs.convSpec := rfl

def starWidth (fs : FormatSpec) (args : List Slot) : Option (FormatSpec × List Slot) :=
  if fs.fieldWidthOpt = .star then
    (vaArg args).map fun (slot, args) => (fs.withWidth (toInt32 slot.word), args)
  else some (fs, args)

def starPrec (fs : FormatSpec) (args : List Slot) : Option (FormatSpec × List Slot) :=
  if fs.precOpt = .star then
    (vaArg args).map fun (slot, args) => (fs.withPrec (toInt32 slot.word), args)
  else some (fs, args)

/-- "Extract star-args immediately" -/
def starArgs (fs : FormatSpec) (args : List Slot) : Option (FormatSpec × List Slot) :=
  (starWidth fs args).bind fun (fs, args) => starPrec fs args

/-- The bits of the type that a modifier names. -/
def LengthModifier.bits : LengthModifier → Nat
  | .none => 32
  | .short => 16
  | .longDouble => 32
  | .char => 8
  | .long => 64
  | .longLong => 64
  | .intmax => 64
  | .sizet => 64
  | .ptrdifft => 64

/-- `NPF_EXTRACT` with a signed type -/
def signedArg (length : LengthModifier) (slot : Slot) : Int := Int.bmod slot.word (2 ^ length.bits)

/-- `NPF_EXTRACT` with an unsigned type -/
def unsignedArg (length : LengthModifier) (slot : Slot) : Nat := slot.word % 2 ^ length.bits

/-! ### Digits -/

theorem tdiv_shrinks {i : Int} (more : i.tdiv 10 ≠ 0) : (i.tdiv 10).natAbs < i.natAbs := by
  have positive : 0 < i.natAbs := Int.natAbs_pos.mpr fun zero => more (by rw [zero]; rfl)
  rw [Int.natAbs_tdiv]
  exact Nat.div_lt_self positive (by decide)

/-- The loop of `npf_itoa_rev`, with the sign of the number that it began with. -/
def itoaLoop (sign i : Int) : List UInt8 :=
  UInt8.ofInt (0x30 + sign * i.tmod 10) ::
    if more : i.tdiv 10 = 0 then [] else itoaLoop sign (i.tdiv 10)
termination_by i.natAbs
decreasing_by exact tdiv_shrinks more

def itoaRev (i : Int) : List UInt8 := itoaLoop (if i ≥ 0 then 1 else -1) i

def digitChar (caseAdj : UInt8) (d : Nat) : UInt8 :=
  if d < 10 then UInt8.ofNat (0x30 + d) else UInt8.ofNat (0x41 + caseAdj.toNat + (d - 10))

theorem div_shrinks {i base : Nat} (more : ¬(base < 2 ∨ i / base = 0)) : i / base < i :=
  Nat.div_lt_self (Nat.pos_of_ne_zero fun zero => more (.inr (by rw [zero, Nat.zero_div])))
    (Nat.lt_of_not_le fun small => more (.inl (Nat.lt_succ_of_le small)))

/-- `npf_utoa_rev`. The loop has no end for a base below two, which is never asked for. -/
def utoaRev (i base : Nat) (caseAdj : UInt8) : List UInt8 :=
  digitChar caseAdj (i % base) ::
    if more : base < 2 ∨ i / base = 0 then [] else utoaRev (i / base) base caseAdj
termination_by i
decreasing_by exact div_shrinks more

/-! ### Conversion -/

structure Converted where
  fs : FormatSpec
  signC : UInt8 := 0
  cbuf : List UInt8
  need0x : UInt8 := 0
  zero : Bool := false
  deriving DecidableEq, Repr

def skipsDigits (fs : FormatSpec) (zero : Bool) : Bool :=
  zero && fs.precOpt = .literal && fs.prec = 0

def convertSigned (fs : FormatSpec) (val : Int) : Converted where
  fs := fs
  signC := if val < 0 then 0x2d else fs.prepend
  cbuf := if skipsDigits fs (val = 0) then [] else itoaRev val
  zero := val = 0

def convertUnsigned (fs : FormatSpec) (base val : Nat) : Converted where
  fs :=
    -- "octal special case, print a single '0'"
    if skipsDigits fs (val = 0) ∧ fs.convSpec = .octal ∧ fs.altForm then { fs with prec := 1 }
    else fs
  cbuf :=
    (if skipsDigits fs (val = 0) then [] else utoaRev val base fs.caseAdjust) ++
      if val ≠ 0 ∧ fs.altForm ∧ fs.convSpec = .octal then [0x30] else []
  need0x :=
    if val ≠ 0 ∧ fs.altForm ∧ fs.convSpec = .hexInt then 0x58 + fs.caseAdjust else 0
  zero := val = 0

def convertPointer (fs : FormatSpec) (val : Nat) : Converted where
  fs := fs
  cbuf := utoaRev val 16 0x20
  need0x := 0x78

def convertString (fs : FormatSpec) (text : List UInt8) : Converted where
  fs := fs
  cbuf := if fs.precOpt = .none then text else text.take fs.prec.toNat

def convertArg (fs : FormatSpec) (slot : Slot) : Converted :=
  match fs.convSpec with
  | .percent => { fs := fs, cbuf := [0x25] }
  | .char => { fs := fs, cbuf := [UInt8.ofNat slot.word] }
  | .string => convertString fs slot.text
  | .signedInt => convertSigned fs (signedArg fs.lengthModifier slot)
  | .octal => convertUnsigned fs 8 (unsignedArg fs.lengthModifier slot)
  | .hexInt => convertUnsigned fs 16 (unsignedArg fs.lengthModifier slot)
  | .unsignedInt => convertUnsigned fs 10 (unsignedArg fs.lengthModifier slot)
  | .pointer => convertPointer fs (slot.word % 2 ^ 64)

def convert (fs : FormatSpec) (args : List Slot) : Option (Converted × List Slot) :=
  if fs.convSpec = .percent then some ({ fs := fs, cbuf := [0x25] }, args)
  else (vaArg args).map fun (slot, args) => (convertArg fs slot, args)

/-! ### Output -/

namespace Converted

variable (c : Converted)

def isString : Bool := c.fs.convSpec = .string

def padC : UInt8 :=
  if c.fs.fieldWidthOpt = .literal then
    if c.fs.leadingZeroPad then
      if c.fs.convSpec ≠ .string ∧ c.fs.convSpec ≠ .char ∧ c.fs.convSpec ≠ .percent then
        if c.fs.precOpt = .literal ∧ c.fs.prec = 0 ∧ c.zero then 0x20 else 0x30
      else 0
    else 0x20
  else 0

def precPad : Int := if c.isString then 0 else max 0 (c.fs.prec - c.cbuf.length)

def fieldPad : Int :=
  max 0 (c.fs.fieldWidth - c.cbuf.length - (if c.signC ≠ 0 then 1 else 0) -
    (if c.need0x ≠ 0 then 2 else 0) - c.precPad)

def signText : List UInt8 := if c.signC ≠ 0 then [c.signC] else []

def prefixText : List UInt8 := if c.need0x ≠ 0 then [0x30, c.need0x] else []

def padding : List UInt8 := List.replicate c.fieldPad.toNat c.padC

def payload : List UInt8 :=
  if c.isString then c.cbuf else List.replicate c.precPad.toNat 0x30 ++ c.cbuf.reverse

def output : List UInt8 :=
  let sign := if c.isString then [] else c.signText
  if ¬c.fs.leftJustified ∧ c.padC ≠ 0 then
    if c.padC = 0x30 then
      -- "If leading zeros pad, sign goes first."
      c.signText ++ c.prefixText ++ c.padding ++ c.payload
    else c.padding ++ c.prefixText ++ sign ++ c.payload
  else c.prefixText ++ sign ++ c.payload ++ if c.padC ≠ 0 then c.padding else []

end Converted

def formatOne (fs : FormatSpec) (args : List Slot) : Option (List UInt8 × List Slot) :=
  (starArgs fs args).bind fun (fs, args) =>
    (convert fs args).map fun (converted, args) => (converted.output, args)

theorem parseFormatSpec_shorter {cur rest : List UInt8} {fs : FormatSpec}
    (found : parseFormatSpec cur = some (fs, rest)) : rest.length < cur.length := by
  obtain ⟨d, rfl⟩ := parseFormatSpec_split found
  simp only [Directive.text, List.length_append, List.length_singleton]
  omega

/-- `npf_vpprintf`, on the bytes of the format before its terminator -/
def vpprintf (format : List UInt8) (args : List Slot) : Option (List UInt8) :=
  match format with
  | [] => some []
  | c :: cur =>
      if c = 0x25 then
        match found : parseFormatSpec cur with
        | none => (vpprintf cur args).map (c :: ·)
        | some (fs, rest) =>
            (formatOne fs args).bind fun (out, args) => (vpprintf rest args).map (out ++ ·)
      else (vpprintf cur args).map (c :: ·)
termination_by format.length
decreasing_by
  · exact Nat.lt_succ_self _
  · exact Nat.lt_succ_of_lt (parseFormatSpec_shorter found)
  · exact Nat.lt_succ_self _

theorem vpprintf_nil (args : List Slot) : vpprintf [] args = some [] := by
  rw [vpprintf]

theorem vpprintf_byte {c : UInt8} (plain : c ≠ 0x25) (cur : List UInt8) (args : List Slot) :
    vpprintf (c :: cur) args = (vpprintf cur args).map (c :: ·) := by
  rw [vpprintf, if_neg plain]

theorem vpprintf_text (d : Directive) (cur : List UInt8) (args : List Slot) :
    vpprintf (0x25 :: (d.text ++ cur)) args =
      (formatOne d.meaning args).bind fun (out, args) => (vpprintf cur args).map (out ++ ·) := by
  rw [vpprintf, if_pos rfl]
  split
  · rename_i none
    rw [parseFormatSpec_text] at none
    cases none
  · rename_i fs rest found
    rw [parseFormatSpec_text] at found
    obtain ⟨rfl, rfl⟩ := Prod.mk.inj (Option.some.inj found)
    rfl

theorem vpprintf_directive (d : Directive) (args : List Slot) :
    vpprintf (0x25 :: d.text) args = (formatOne d.meaning args).map Prod.fst := by
  have alone := vpprintf_text d [] args
  rw [List.append_nil] at alone
  rw [alone]
  cases formatOne d.meaning args with
  | none => rfl
  | some result => simp [vpprintf_nil]

/-! ### Arguments in their order -/

def Frames {α : Type} (step : List Slot → Option (α × List Slot)) : Prop :=
  ∀ (args left : List Slot) (a : α), step args = some (a, left) →
    ∀ more, step (args ++ more) = some (a, left ++ more)

theorem vaArg_frames : Frames vaArg := by
  intro args left slot taken more
  cases args with
  | nil => cases taken
  | cons first args =>
      obtain ⟨rfl, rfl⟩ := Prod.mk.inj (Option.some.inj taken)
      rfl

theorem Frames.map {α β : Type} {step : List Slot → Option (α × List Slot)} (frames : Frames step)
    (f : α → β) : Frames fun args => (step args).map fun (a, args) => (f a, args) := by
  intro args left b found more
  obtain ⟨⟨a, rest⟩, taken, made⟩ := Option.map_eq_some_iff.mp found
  obtain ⟨rfl, rfl⟩ := Prod.mk.inj made
  dsimp only
  rw [frames _ _ _ taken more]
  rfl

theorem Frames.bind {α β : Type} {step : List Slot → Option (α × List Slot)}
    {next : α → List Slot → Option (β × List Slot)} (frames : Frames step)
    (each : ∀ a, Frames (next a)) :
    Frames fun args => (step args).bind fun (a, args) => next a args := by
  intro args left b found more
  obtain ⟨⟨a, rest⟩, taken, made⟩ := Option.bind_eq_some_iff.mp found
  dsimp only
  rw [frames _ _ _ taken more]
  exact each a _ _ _ made more

theorem Frames.pure {α : Type} (a : α) : Frames fun args => some (a, args) := by
  intro args left b found more
  obtain ⟨rfl, rfl⟩ := Prod.mk.inj (Option.some.inj found)
  rfl

theorem starWidth_frames (fs : FormatSpec) : Frames (starWidth fs) := by
  unfold starWidth
  split_ifs
  · exact vaArg_frames.map fun slot => fs.withWidth (toInt32 slot.word)
  · exact Frames.pure fs

theorem starPrec_frames (fs : FormatSpec) : Frames (starPrec fs) := by
  unfold starPrec
  split_ifs
  · exact vaArg_frames.map fun slot => fs.withPrec (toInt32 slot.word)
  · exact Frames.pure fs

theorem convert_frames (fs : FormatSpec) : Frames (convert fs) := by
  unfold convert
  split_ifs
  · exact Frames.pure _
  · exact vaArg_frames.map (convertArg fs)

theorem formatOne_frames (fs : FormatSpec) : Frames (formatOne fs) :=
  ((starWidth_frames fs).bind starPrec_frames).bind fun fs => (convert_frames fs).map Converted.output

def FormatSpec.slots (fs : FormatSpec) : Nat :=
  (if fs.fieldWidthOpt = .star then 1 else 0) + ((if fs.precOpt = .star then 1 else 0) +
    if fs.convSpec = .percent then 0 else 1)

theorem vaArg_takes {args : List Slot} {k : Nat} (enough : args.length = 1 + k) :
    ∃ slot left, vaArg args = some (slot, left) ∧ left.length = k := by
  cases args with
  | nil =>
      rw [List.length_nil] at enough
      omega
  | cons slot left =>
      refine ⟨slot, left, rfl, ?_⟩
      rw [List.length_cons] at enough
      omega

theorem starWidth_takes (fs : FormatSpec) {args : List Slot} {k : Nat}
    (enough : args.length = (if fs.fieldWidthOpt = .star then 1 else 0) + k) :
    ∃ fs' left, starWidth fs args = some (fs', left) ∧ left.length = k ∧
      fs'.precOpt = fs.precOpt ∧ fs'.convSpec = fs.convSpec := by
  unfold starWidth
  split_ifs at enough ⊢ with star
  · obtain ⟨slot, left, taken, rest⟩ := vaArg_takes enough
    rw [taken]
    refine ⟨fs.withWidth (toInt32 slot.word), left, rfl, rest, ?_⟩
    unfold FormatSpec.withWidth
    split_ifs
    · exact ⟨rfl, rfl⟩
    · exact ⟨rfl, rfl⟩
  · exact ⟨fs, args, rfl, by rw [enough, Nat.zero_add], rfl, rfl⟩

theorem starPrec_takes (fs : FormatSpec) {args : List Slot} {k : Nat}
    (enough : args.length = (if fs.precOpt = .star then 1 else 0) + k) :
    ∃ fs' left, starPrec fs args = some (fs', left) ∧ left.length = k ∧
      fs'.convSpec = fs.convSpec := by
  unfold starPrec
  split_ifs at enough ⊢ with star
  · obtain ⟨slot, left, taken, rest⟩ := vaArg_takes enough
    rw [taken]
    exact ⟨fs.withPrec (toInt32 slot.word), left, rfl, rest, fs.withPrec_convSpec _⟩
  · exact ⟨fs, args, rfl, by rw [enough, Nat.zero_add], rfl⟩

theorem convert_takes (fs : FormatSpec) {args : List Slot}
    (enough : args.length = if fs.convSpec = .percent then 0 else 1) :
    ∃ c, convert fs args = some (c, []) := by
  unfold convert
  split_ifs at enough ⊢ with percent
  · rw [List.length_eq_zero_iff.mp enough]
    exact ⟨_, rfl⟩
  · obtain ⟨slot, left, taken, rest⟩ := vaArg_takes (k := 0) enough
    rw [taken, List.length_eq_zero_iff.mp rest]
    exact ⟨_, rfl⟩

theorem formatOne_takes {fs : FormatSpec} {args : List Slot} (enough : args.length = fs.slots) :
    ∃ out, formatOne fs args = some (out, []) := by
  obtain ⟨fs₁, left₁, width, length₁, precOpt, conv₁⟩ := starWidth_takes fs enough
  rw [← precOpt] at length₁
  obtain ⟨fs₂, left₂, prec, length₂, conv₂⟩ := starPrec_takes fs₁ length₁
  rw [← conv₁, ← conv₂] at length₂
  obtain ⟨c, converted⟩ := convert_takes fs₂ length₂
  have stars : starArgs fs args = some (fs₂, left₂) := by
    rw [starArgs, width]
    exact prec
  refine ⟨c.output, ?_⟩
  rw [formatOne, stars, Option.bind_some]
  dsimp only
  rw [converted]
  rfl

/-- A part of a format with its own arguments. -/
inductive Part
  | byte (c : UInt8) (plain : c ≠ 0x25)
  | directive (d : Directive) (args : List Slot) (takes : args.length = d.meaning.slots)

namespace Part

def text : Part → List UInt8
  | byte c _ => [c]
  | directive d _ _ => 0x25 :: d.text

def args : Part → List Slot
  | byte _ _ => []
  | directive _ args _ => args

end Part

/-- What is printed for one part and its arguments does not depend on the others: the bytes are
those of the parts alone, one after the other, and arguments left over are not looked at. -/
theorem vpprintf_parts (parts : List Part) (more : List Slot) :
    ∃ outs, List.Forall₂ (fun (p : Part) out => vpprintf p.text p.args = some out) parts outs ∧
      vpprintf (parts.flatMap Part.text) (parts.flatMap Part.args ++ more) = some outs.flatten := by
  induction parts with
  | nil => exact ⟨[], .nil, vpprintf_nil more⟩
  | cons part parts ih =>
      obtain ⟨outs, each, all⟩ := ih
      rw [List.flatMap_cons, List.flatMap_cons, List.append_assoc]
      cases part with
      | byte c plain =>
          have alone : vpprintf [c] [] = some [c] := by
            rw [vpprintf_byte plain, vpprintf_nil]
            rfl
          refine ⟨[c] :: outs, .cons alone each, ?_⟩
          exact (vpprintf_byte plain _ _).trans (congrArg (Option.map (c :: ·)) all)
      | directive d args takes =>
          obtain ⟨out, one⟩ := formatOne_takes takes
          have alone : vpprintf (0x25 :: d.text) args = some out := by
            rw [vpprintf_directive, one]
            rfl
          refine ⟨out :: outs, .cons alone each, ?_⟩
          have framed := formatOne_frames d.meaning _ _ _ one (parts.flatMap Part.args ++ more)
          refine (vpprintf_text d _ _).trans ?_
          rw [Part.args, framed, Option.bind_some]
          dsimp only
          rw [List.nil_append, all]
          rfl

end Nyaux.Printf
