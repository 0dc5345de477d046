import Nyaux.Lib.Decimal
import Nyaux.Lib.Word

/-! The conversion specifications of `nanoprintf.h`, with what `main.c` switches on: field
widths, precisions and large lengths, but no floats, no binary numbers and no write-back. -/

namespace Nyaux.Printf

open Word

/-- `npf_fmt_spec_opt_t` -/
inductive FmtSpecOpt
  | none
  | literal
  | star
  deriving DecidableEq, Repr

/-- `npf_format_spec_length_modifier_t` -/
inductive LengthModifier
  | none
  | short
  | longDouble
  | char
  | long
  | longLong
  | intmax
  | sizet
  | ptrdifft
  deriving DecidableEq, Repr

/-- `npf_format_spec_conversion_t` -/
inductive Conversion
  | percent
  | char
  | string
  | signedInt
  | octal
  | hexInt
  | unsignedInt
  | pointer
  deriving DecidableEq, Repr

/-- `npf_format_spec_t` -/
structure FormatSpec where
  /-- `' '`, `'+'` or zero -/
  prepend : UInt8
  altForm : Bool
  fieldWidthOpt : FmtSpecOpt
  fieldWidth : Int
  leftJustified : Bool
  leadingZeroPad : Bool
  precOpt : FmtSpecOpt
  prec : Int
  lengthModifier : LengthModifier
  convSpec : Conversion
  caseAdjust : UInt8
  deriving DecidableEq, Repr

/-- What `npf_parse_format_spec` starts from: lower case and no options. -/
def FormatSpec.start : FormatSpec where
  prepend := 0
  altForm := false
  fieldWidthOpt := .none
  fieldWidth := 0
  leftJustified := false
  leadingZeroPad := false
  precOpt := .none
  prec := 0
  lengthModifier := .none
  convSpec := .percent
  caseAdjust := 0x20

def flag (c : UInt8) (fs : FormatSpec) : Option FormatSpec :=
  if c = 0x2d then some { fs with leftJustified := true, leadingZeroPad := false }
  else if c = 0x30 then some { fs with leadingZeroPad := !fs.leftJustified }
  else if c = 0x2b then some { fs with prepend := 0x2b }
  else if c = 0x20 then some { fs with prepend := if fs.prepend = 0 then 0x20 else fs.prepend }
  else if c = 0x23 then some { fs with altForm := true }
  else none

def parseFlags : List UInt8 → FormatSpec → FormatSpec × List UInt8
  | [], fs => (fs, [])
  | c :: cur, fs =>
      match flag c fs with
      | some fs => parseFlags cur fs
      | none => (fs, c :: cur)

/-- The loop that reads an `int`; one that overflows wraps around. -/
def parseInt : List UInt8 → Int → Int × List UInt8
  | [], n => (n, [])
  | c :: cur, n =>
      if IsDigit c then parseInt cur (Int.bmod (n * 10 + (c.toNat - 0x30 : Nat)) (2 ^ 32))
      else (n, c :: cur)

def startsInt (cur : List UInt8) : Bool := cur.head?.any fun c => IsDigit c

def parseFieldWidth (cur : List UInt8) (fs : FormatSpec) : FormatSpec × List UInt8 :=
  if cur.head? = some 0x2a then ({ fs with fieldWidthOpt := .star }, cur.tail)
  else
    ({ fs with
        fieldWidthOpt := if startsInt cur then .literal else .none
        fieldWidth := (parseInt cur 0).1 }, (parseInt cur 0).2)

def parsePrecision (cur : List UInt8) (fs : FormatSpec) : FormatSpec × List UInt8 :=
  if cur.head? = some 0x2e then
    let cur := cur.tail
    if cur.head? = some 0x2a then ({ fs with precOpt := .star }, cur.tail)
    else if cur.head? = some 0x2d then
      -- the option stays away, but the number is kept
      ({ fs with precOpt := .none, prec := (parseInt cur.tail 0).1 }, (parseInt cur.tail 0).2)
    else ({ fs with precOpt := .literal, prec := (parseInt cur 0).1 }, (parseInt cur 0).2)
  else (fs, cur)

def parseLength (cur : List UInt8) : LengthModifier × List UInt8 :=
  if cur.head? = some 0x68 then
    if cur.tail.head? = some 0x68 then (.char, cur.tail.tail) else (.short, cur.tail)
  else if cur.head? = some 0x6c then
    if cur.tail.head? = some 0x6c then (.longLong, cur.tail.tail) else (.long, cur.tail)
  else if cur.head? = some 0x6a then (.intmax, cur.tail)
  else if cur.head? = some 0x7a then (.sizet, cur.tail)
  else if cur.head? = some 0x74 then (.ptrdifft, cur.tail)
  else (.none, cur)

/-- The cases from `'i'` to `'x'`, which share their end. -/
def FormatSpec.integer (fs : FormatSpec) (convSpec : Conversion) (caseAdjust : UInt8) :
    FormatSpec :=
  { fs with
    convSpec := convSpec
    caseAdjust := caseAdjust
    leadingZeroPad := if fs.precOpt ≠ .none then false else fs.leadingZeroPad }

def conversion (c : UInt8) (fs : FormatSpec) : Option FormatSpec :=
  if c = 0x25 then some { fs with convSpec := .percent, precOpt := .none }
  else if c = 0x63 then some { fs with convSpec := .char, precOpt := .none }
  else if c = 0x73 then some { fs with convSpec := .string, leadingZeroPad := false }
  else if c = 0x69 ∨ c = 0x64 then some (fs.integer .signedInt fs.caseAdjust)
  else if c = 0x6f then some (fs.integer .octal fs.caseAdjust)
  else if c = 0x75 then some (fs.integer .unsignedInt fs.caseAdjust)
  else if c = 0x58 then some (fs.integer .hexInt 0)
  else if c = 0x78 then some (fs.integer .hexInt fs.caseAdjust)
  else if c = 0x70 then some { fs with convSpec := .pointer, precOpt := .none }
  else none

/-- `npf_parse_format_spec`, from the byte after the percent sign on: the specification and
the bytes behind it, or nothing where the source returns zero. -/
def parseFormatSpec (cur : List UInt8) : Option (FormatSpec × List UInt8) :=
  let (fs, cur) := parseFlags cur .start
  let (fs, cur) := parseFieldWidth cur fs
  let (fs, cur) := parsePrecision cur fs
  let (lengthModifier, cur) := parseLength cur
  match cur with
  | [] => none
  | c :: cur => (conversion c { fs with lengthModifier := lengthModifier }).map (·, cur)

end Nyaux.Printf
