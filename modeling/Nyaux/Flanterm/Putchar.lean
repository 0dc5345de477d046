import Nyaux.Flanterm.Glyphs

/-! One byte of output, in whatever state the bytes before it left the terminal. -/

namespace Nyaux.Flanterm

open Word

def oscParse (c : UInt8) (ctx : Context) : Context :=
  let cleanup : Context := { ctx with oscEscape := false, osc := false, escape := false }
  if ctx.oscEscape ∧ c = 0x5c then cleanup
  else if c = 0x1b then { ctx with oscEscape := true }
  else if c = 0x07 then cleanup
  else { ctx with oscEscape := false }

variable {σ : Type} (B : Backend σ)

def saveState (t : Term σ) : Term σ :=
  (t.act B.saveState).set fun ctx =>
    { ctx with
      savedStateBold := ctx.bold
      savedStateBgBold := ctx.bgBold
      savedStateReverseVideo := ctx.reverseVideo
      savedStateCurrentCharset := ctx.currentCharset
      savedStateCurrentPrimary := ctx.currentPrimary
      savedStateCurrentBg := ctx.currentBg }

def restoreState (t : Term σ) : Term σ :=
  (t.set fun ctx =>
    { ctx with
      bold := ctx.savedStateBold
      bgBold := ctx.savedStateBgBold
      reverseVideo := ctx.savedStateReverseVideo
      currentCharset := ctx.savedStateCurrentCharset
      currentPrimary := ctx.savedStateCurrentPrimary
      currentBg := ctx.savedStateCurrentBg }).act B.restoreState

def lineFeed (x y : Nat) (t : Term σ) : Term σ :=
  if y = t.ctx.scrollBottomMargin - 1 then (t.act B.scroll).act (B.setCursorPos x y)
  else t.act (B.setCursorPos x (y + 1))

def reverseLineFeed (y : Nat) (t : Term σ) : Term σ :=
  if y = t.ctx.scrollTopMargin then (t.act B.revscroll).act (B.setCursorPos 0 y)
  else t.act (B.setCursorPos 0 (sub64 y 1))

/-- `ESC [` -/
def startSequence (ctx : Context) : Context :=
  { ctx with
    escValues := fun i => if i < maxEscValues then 0 else ctx.escValues i
    escValuesI := 0
    rrr := false
    controlSequence := true }

def endEscape (ctx : Context) : Context := { ctx with escape := false }

/-- The switch of `escape_parse`. -/
def escapeSwitch (c : UInt8) (t : Term σ) : Term σ :=
  let (x, y) := B.getCursorPos t.ctx t.back
  match c with
  | 0x5d => t.set fun ctx => { ctx with oscEscape := false, osc := true } -- ']'
  | 0x5b => t.set startSequence -- '['
  | 0x37 => (saveState B t).set endEscape -- '7'
  | 0x38 => (restoreState B t).set endEscape -- '8'
  | 0x63 => ((t.set flantermContextReinit).act (B.clear true)).set endEscape -- 'c'
  | 0x44 => (lineFeed B x y t).set endEscape -- 'D'
  | 0x45 => (lineFeed B 0 y t).set endEscape -- 'E'
  | 0x4d => (reverseLineFeed B y t).set endEscape -- 'M'
  | 0x5a => (t.set (·.report .privateId)).set endEscape -- 'Z'
  | 0x28 => (t.set fun ctx => { ctx with gSelect := 1 }).set endEscape -- '('
  | 0x29 => (t.set fun ctx => { ctx with gSelect := 2 }).set endEscape -- ')'
  | _ => t.set endEscape

def escapeParse (c : UInt8) (t : Term σ) : Term σ :=
  let t := t.set fun ctx => { ctx with escapeOffset := add64 ctx.escapeOffset 1 }
  if t.ctx.osc then t.set (oscParse c)
  else if t.ctx.controlSequence then controlSequenceParse B c t
  else escapeSwitch B c t

def putCodePoint (codePoint : Nat) (t : Term σ) : Term σ :=
  match unicodeToCp437 codePoint with
  | some glyph => t.act (B.rawPutchar glyph)
  | none =>
      let width := mkWcwidth codePoint
      let t := if width > 0 then t.act (B.rawPutchar 0xfe) else t
      repeated (width - 1) (putBlank B) t

/-- The bytes from which `unicode_error` starts a code point, with what they say of it. -/
def leadByte (c : UInt8) : Option (Nat × Nat) :=
  if 0xc0 ≤ c ∧ c ≤ 0xdf then some (1, (c.toNat &&& 0x1f) <<< 6)
  else if 0xe0 ≤ c ∧ c ≤ 0xef then some (2, (c.toNat &&& 0x0f) <<< (6 * 2))
  else if 0xf0 ≤ c ∧ c ≤ 0xf7 then some (3, (c.toNat &&& 0x07) <<< (6 * 3))
  else none

/-- What follows `ESC (` or `ESC )`. -/
def selectCharset (c : UInt8) (ctx : Context) : Context :=
  let g := ctx.gSelect - 1
  let ctx := ctx.touch (g < 2)
  let charsets :=
    if c = 0x42 then Function.update ctx.charsets g .default
    else if c = 0x30 then Function.update ctx.charsets g .decSpecial
    else ctx.charsets
  { ctx with charsets := charsets, gSelect := 0 }

def tabulate (x y : Nat) (t : Term σ) : Term σ :=
  if x / t.ctx.tabSize + 1 ≥ t.ctx.cols then t.act (B.setCursorPos (t.ctx.cols - 1) y)
  else t.act (B.setCursorPos ((x / t.ctx.tabSize + 1) * t.ctx.tabSize) y)

/-- `insert_mode` makes room for one character. -/
def makeRoom (x y : Nat) (t : Term σ) : Term σ :=
  if t.ctx.insertMode then
    downTo (t.ctx.cols - 1) x (fun i t => t.act (B.moveCharacter (i + 1) y i y)) t
  else t

def putByte (c : UInt8) (t : Term σ) : Term σ :=
  let t := t.set fun ctx => ctx.touch (ctx.currentCharset < 2)
  let translated :=
    match t.ctx.charsets t.ctx.currentCharset with
    | .default => none
    | .decSpecial => decSpecial.lookup c
  match translated with
  | some glyph => t.act (B.rawPutchar glyph)
  | none =>
      if 0x20 ≤ c ∧ c ≤ 0x7e then t.act (B.rawPutchar c) else t.act (B.rawPutchar 0xfe)

def groundByte (c : UInt8) (t : Term σ) : Term σ :=
  let (x, y) := B.getCursorPos t.ctx t.back
  match c with
  | 0x00 => t
  | 0x7f => t
  | 0x1b => t.set fun ctx => { ctx with escapeOffset := 0, escape := true }
  | 0x09 => tabulate B x y t
  | 0x0b => lineFeed B (if t.ctx.onlcr then 0 else x) y t
  | 0x0c => lineFeed B (if t.ctx.onlcr then 0 else x) y t
  | 0x0a => lineFeed B (if t.ctx.onlcr then 0 else x) y t
  | 0x08 => t.act (B.setCursorPos (sub64 x 1) y)
  | 0x0d => t.act (B.setCursorPos 0 y)
  | 0x07 => t.set (·.report .bell)
  | 14 => t.set fun ctx => { ctx with currentCharset := 1 }
  | 15 => t.set fun ctx => { ctx with currentCharset := 0 }
  | _ => putByte B c (makeRoom B x y t)

/-- The label `unicode_error`, and all that follows it. -/
def plainByte (c : UInt8) (t : Term σ) : Term σ :=
  match leadByte c with
  | some (remaining, bits) =>
      t.set fun ctx => { ctx with unicodeRemaining := remaining, codePoint := bits }
  | none =>
      if t.ctx.escape then escapeParse B c t
      else if t.ctx.gSelect ≠ 0 then t.set (selectCharset c)
      else groundByte B c t

def continueCodePoint (c : UInt8) (t : Term σ) : Term σ :=
  if c &&& 0xc0 ≠ 0x80 then plainByte B c (t.set fun ctx => { ctx with unicodeRemaining := 0 })
  else
    let t := t.set fun ctx =>
      { ctx with
        unicodeRemaining := ctx.unicodeRemaining - 1
        codePoint :=
          ctx.codePoint ||| ((c.toNat &&& 0x3f) <<< (6 * (ctx.unicodeRemaining - 1))) }
    if t.ctx.unicodeRemaining ≠ 0 then t else putCodePoint B t.ctx.codePoint t

/-- Cancel and substitute, and the byte after `ESC [ [`. -/
def cancel (ctx : Context) : Context :=
  { ctx with
    discardNext := false
    escape := false
    controlSequence := false
    unicodeRemaining := 0
    osc := false
    oscEscape := false
    gSelect := 0 }

def flantermPutchar (c : UInt8) (t : Term σ) : Term σ :=
  if t.ctx.discardNext ∨ c = 0x18 ∨ c = 0x1a then t.set cancel
  else if t.ctx.unicodeRemaining ≠ 0 then continueCodePoint B c t
  else plainByte B c t

def flantermWrite (buf : List UInt8) (t : Term σ) : Term σ :=
  let t := buf.foldl (fun t c => flantermPutchar B c t) t
  if t.ctx.autoflush then t.act B.doubleBufferFlush else t

/-- One `flanterm_write` after the other. -/
def writes (bufs : List (List UInt8)) (t : Term σ) : Term σ :=
  bufs.foldl (fun t buf => flantermWrite B buf t) t

/-- The bytes of a write, before its flush. -/
def putchars (buf : List UInt8) (t : Term σ) : Term σ :=
  buf.foldl (fun t c => flantermPutchar B c t) t

end Nyaux.Flanterm
