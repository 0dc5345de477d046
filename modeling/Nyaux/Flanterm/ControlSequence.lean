import Nyaux.Flanterm.Sgr

/-! Control sequences: `ESC [`, parameters, and the byte that says what to do.

`getCursorPos` answers with a place on the screen, so a difference between such a place
and the screen's size does not wrap; the differences that can wrap are taken on 64 bits. -/

namespace Nyaux.Flanterm

open Word

variable {σ : Type} (B : Backend σ)

/-- `for (i = from; i < to; i++) body` -/
def upTo (first stop : Nat) (body : Nat → Term σ → Term σ) (t : Term σ) : Term σ :=
  (List.range' first (stop - first)).foldl (fun t i => body i t) t

/-- `for (i = last; ; i--) { body; if (i == first) break; }` -/
def downTo (last first : Nat) (body : Nat → Term σ → Term σ) (t : Term σ) : Term σ :=
  (List.range' first (last + 1 - first)).foldr body t

def repeated (count : Nat) (body : Term σ → Term σ) (t : Term σ) : Term σ := body^[count] t

/-- `raw_putchar(ctx, ' ')` -/
def putBlank (t : Term σ) : Term σ := t.act (B.rawPutchar 0x20)

/-- `esc_values[0] > y` moves the cursor to the top; a margin on the way stops it. -/
def cursorUp (x y : Nat) (t : Term σ) : Term σ :=
  let t := if t.ctx.escValues 0 > y then t.set (·.putValue 0 y) else t
  let top := t.ctx.scrollTopMargin
  let bottom := t.ctx.scrollBottomMargin
  let dest := y - t.ctx.escValues 0
  let inRegion := (dest ≤ top ∧ top ≤ y) ∨ (dest ≤ bottom ∧ bottom ≤ y)
  let dest := if inRegion ∧ dest < top then top else dest
  t.act (B.setCursorPos x dest)

def cursorDown (x y : Nat) (t : Term σ) : Term σ :=
  let t :=
    if y + t.ctx.escValues 0 > t.ctx.rows - 1 then t.set (·.putValue 0 (t.ctx.rows - 1 - y)) else t
  let top := t.ctx.scrollTopMargin
  let bottom := t.ctx.scrollBottomMargin
  let dest := y + t.ctx.escValues 0
  let inRegion := (y ≤ top ∧ top ≤ dest) ∨ (y ≤ bottom ∧ bottom ≤ dest)
  let dest := if inRegion ∧ bottom ≤ dest then bottom - 1 else dest
  t.act (B.setCursorPos x dest)

def cursorForward (x y : Nat) (t : Term σ) : Term σ :=
  let t :=
    if x + t.ctx.escValues 0 > t.ctx.cols - 1 then t.set (·.putValue 0 (t.ctx.cols - 1 - x)) else t
  t.act (B.setCursorPos (x + t.ctx.escValues 0) y)

def cursorBack (x y : Nat) (t : Term σ) : Term σ :=
  let t := if t.ctx.escValues 0 > x then t.set (·.putValue 0 x) else t
  t.act (B.setCursorPos (x - t.ctx.escValues 0) y)

/-- `esc_values[0] -= 1; if (esc_values[0] >= limit) esc_values[0] = limit - 1;` -/
def clampValue (limit : Nat) (t : Term σ) : Term σ :=
  let t := t.set fun ctx => ctx.putValue 0 ((ctx.escValues 0 + (2 ^ 32 - 1)) % 2 ^ 32)
  if t.ctx.escValues 0 ≥ limit then t.set (·.putValue 0 (limit - 1)) else t

/-- `d` -/
def cursorToRow (x : Nat) (t : Term σ) : Term σ :=
  let t := clampValue t.ctx.rows t
  t.act (B.setCursorPos x (t.ctx.escValues 0))

/-- `G` -/
def cursorToColumn (y : Nat) (t : Term σ) : Term σ :=
  let t := clampValue t.ctx.cols t
  t.act (B.setCursorPos (t.ctx.escValues 0) y)

/-- `H` -/
def cursorTo (t : Term σ) : Term σ :=
  let t := if t.ctx.escValues 0 ≠ 0 then t.set (·.putValue 0 (t.ctx.escValues 0 - 1)) else t
  let t := if t.ctx.escValues 1 ≠ 0 then t.set (·.putValue 1 (t.ctx.escValues 1 - 1)) else t
  let t := if t.ctx.escValues 1 ≥ t.ctx.cols then t.set (·.putValue 1 (t.ctx.cols - 1)) else t
  let t := if t.ctx.escValues 0 ≥ t.ctx.rows then t.set (·.putValue 0 (t.ctx.rows - 1)) else t
  t.act (B.setCursorPos (t.ctx.escValues 1) (t.ctx.escValues 0))

/-- `M` -/
def deleteLines (t : Term σ) : Term σ :=
  repeated (min (t.ctx.escValues 0) t.ctx.rows) (·.act B.scroll) t

/-- `L` -/
def insertLines (y : Nat) (t : Term σ) : Term σ :=
  let oldTop := t.ctx.scrollTopMargin
  let t := t.set fun ctx => { ctx with scrollTopMargin := y }
  let t := repeated (min (t.ctx.escValues 0) t.ctx.rows) (·.act B.revscroll) t
  t.set fun ctx => { ctx with scrollTopMargin := oldTop }

/-- `n` -/
def deviceStatus (x y : Nat) (t : Term σ) : Term σ :=
  match t.ctx.escValues 0 with
  | 5 => t.set (·.report .statusReport)
  | 6 => t.set (·.report (.posReport (x + 1) (y + 1)))
  | _ => t

/-- The rows and columns of `J` with 1, up to the cursor's place. -/
def eraseUpTo (x y : Nat) : List (Nat × Nat) → Term σ → Term σ
  | [], t => t
  | (xc, yc) :: rest, t =>
      let t := putBlank B t
      if xc = x ∧ yc = y then t.act (B.setCursorPos x y) else eraseUpTo x y rest t

def places (rows cols : Nat) : List (Nat × Nat) :=
  (List.range rows).flatMap fun yc => (List.range cols).map fun xc => (xc, yc)

/-- `J` -/
def eraseDisplay (x y : Nat) (t : Term σ) : Term σ :=
  match t.ctx.escValues 0 with
  | 0 =>
      let rowsRemaining := t.ctx.rows - (y + 1)
      let colsDiff := t.ctx.cols - (x + 1)
      let toClear := rowsRemaining * t.ctx.cols + colsDiff + 1
      (repeated toClear (putBlank B) t).act (B.setCursorPos x y)
  | 1 => eraseUpTo B x y (places t.ctx.rows t.ctx.cols) (t.act (B.setCursorPos 0 0))
  | 2 => t.act (B.clear false)
  | 3 => t.act (B.clear false)
  | _ => t

def insertBlanks (x y : Nat) (t : Term σ) : Term σ :=
  let count := t.ctx.escValues 0
  let t := downTo (t.ctx.cols - 1) x (fun i t =>
    putBlank B ((t.act (B.moveCharacter (i + count) y i y)).act (B.setCursorPos i y))) t
  t.act (B.setCursorPos x y)

/-- `X` -/
def eraseCharacters (x y : Nat) (t : Term σ) : Term σ :=
  let count := min (t.ctx.escValues 0) t.ctx.cols
  (repeated count (putBlank B) t).act (B.setCursorPos x y)

/-- `P` -/
def deleteCharacters (x y : Nat) (t : Term σ) : Term σ :=
  let count := t.ctx.escValues 0
  let t := upTo (x + count) t.ctx.cols (fun i t => t.act (B.moveCharacter (i - count) y i y)) t
  let t := t.act (B.setCursorPos (sub64 t.ctx.cols count) y)
  eraseCharacters B x y t

/-- `s` -/
def saveCursor (t : Term σ) : Term σ :=
  let (x, y) := B.getCursorPos t.ctx t.back
  t.set fun ctx => { ctx with savedCursorX := x, savedCursorY := y }

/-- `u` -/
def restoreCursor (t : Term σ) : Term σ :=
  t.act (B.setCursorPos t.ctx.savedCursorX t.ctx.savedCursorY)

/-- `K` -/
def eraseLine (x y : Nat) (t : Term σ) : Term σ :=
  match t.ctx.escValues 0 with
  | 0 => (repeated (t.ctx.cols - x) (putBlank B) t).act (B.setCursorPos x y)
  | 1 => repeated x (putBlank B) (t.act (B.setCursorPos 0 y))
  | 2 => (repeated t.ctx.cols (putBlank B) (t.act (B.setCursorPos 0 y))).act (B.setCursorPos x y)
  | _ => t

/-- `if (esc_values[i] == 0) esc_values[i] = 1;` -/
def atLeastOne (i : Nat) (ctx : Context) : Context :=
  if ctx.escValues i = 0 then ctx.putValue i 1 else ctx

/-- `r`, apart from the cursor. -/
def setMargins (ctx : Context) : Context :=
  let ctx := atLeastOne 1 (atLeastOne 0 ctx)
  let top := if ctx.escValuesI > 0 then ctx.escValues 0 - 1 else 0
  let bottom := if ctx.escValuesI > 1 then ctx.escValues 1 else ctx.rows
  if top ≥ ctx.rows ∨ bottom > ctx.rows ∨ top ≥ bottom - 1 then
    { ctx with scrollTopMargin := 0, scrollBottomMargin := ctx.rows }
  else { ctx with scrollTopMargin := top, scrollBottomMargin := bottom }

/-- `h` or `l`, and no other byte. -/
def setOrReset : UInt8 → Option Bool
  | 0x68 => some true
  | 0x6c => some false
  | _ => none

def decPrivateParse (c : UInt8) (ctx : Context) : Context :=
  let ctx := { ctx with decPrivate := false }
  if ctx.escValuesI = 0 then ctx
  else
    match setOrReset c with
    | none => ctx
    | some set =>
        if ctx.escValues 0 = 25 then { ctx with cursorEnabled := set }
        else ctx.report (.dec ctx.values c)

def linuxPrivateParse (ctx : Context) : Context :=
  if ctx.escValuesI = 0 then ctx else ctx.report (.linux ctx.values)

def modeToggle (c : UInt8) (ctx : Context) : Context :=
  if ctx.escValuesI = 0 then ctx
  else
    match setOrReset c with
    | none => ctx
    | some set =>
        if ctx.escValues 0 = 4 then { ctx with insertMode := set }
        else ctx.report (.mode ctx.values c)

def dispatch (c : UInt8) (x y : Nat) (t : Term σ) : Term σ :=
  match c with
  | 0x46 => cursorUp B 0 y t -- 'F'
  | 0x41 => cursorUp B x y t -- 'A'
  | 0x45 => cursorDown B 0 y t -- 'E'
  | 0x65 => cursorDown B x y t -- 'e'
  | 0x42 => cursorDown B x y t -- 'B'
  | 0x61 => cursorForward B x y t -- 'a'
  | 0x43 => cursorForward B x y t -- 'C'
  | 0x44 => cursorBack B x y t -- 'D'
  | 0x63 => t.set (·.report .privateId) -- 'c'
  | 0x64 => cursorToRow B x t -- 'd'
  | 0x47 => cursorToColumn B y t -- 'G'
  | 0x60 => cursorToColumn B y t -- backquote
  | 0x48 => cursorTo B t -- 'H'
  | 0x66 => cursorTo B t -- 'f'
  | 0x4d => deleteLines B t -- 'M'
  | 0x4c => insertLines B y t -- 'L'
  | 0x6e => deviceStatus x y t -- 'n'
  | 0x71 => t.set fun ctx => ctx.report (.kbdLeds (ctx.escValues 0)) -- 'q'
  | 0x4a => eraseDisplay B x y t -- 'J'
  | 0x40 => insertBlanks B x y t -- '@'
  | 0x50 => deleteCharacters B x y t -- 'P'
  | 0x58 => eraseCharacters B x y t -- 'X'
  | 0x6d => sgr B t -- 'm'
  | 0x73 => saveCursor B t -- 's'
  | 0x75 => restoreCursor B t -- 'u'
  | 0x4b => eraseLine B x y t -- 'K'
  | 0x72 => (t.set setMargins).act (B.setCursorPos 0 0) -- 'r'
  | 0x6c => t.set (modeToggle c) -- 'l'
  | 0x68 => t.set (modeToggle c) -- 'h'
  | 0x5d => t.set linuxPrivateParse -- ']'
  | _ => t

def dispatchAtCursor (c : UInt8) (t : Term σ) : Term σ :=
  let (x, y) := B.getCursorPos t.ctx t.back
  dispatch B c x y t

/-- `esc_default` for the parameters that were not given. -/
def fillDefaults (c : UInt8) (ctx : Context) : Context :=
  let escDefault := if c = 0x4a ∨ c = 0x4b ∨ c = 0x71 then 0 else 1
  { ctx with escValues := fun i =>
      if ctx.escValuesI ≤ i ∧ i < maxEscValues then escDefault else ctx.escValues i }

/-- The label `cleanup`. -/
def endSequence (ctx : Context) : Context := { ctx with controlSequence := false, escape := false }

/-- A sequence with its parameters read, at the byte that ends it. -/
def finishSequence (c : UInt8) (t : Term σ) : Term σ :=
  let t := t.set (fillDefaults c)
  if t.ctx.decPrivate then (t.set (decPrivateParse c)).set endSequence
  else
    let r := t.ctx.scrollEnabled
    let t := dispatchAtCursor B c (t.set fun ctx => { ctx with scrollEnabled := false })
    (t.set fun ctx => { ctx with scrollEnabled := r }).set endSequence

def pushDigit (c : UInt8) (ctx : Context) : Context :=
  if ctx.escValuesI = maxEscValues then ctx
  else
    let value := ctx.escValues ctx.escValuesI * 10 % 2 ^ 32
    { ctx with rrr := true }.putValue ctx.escValuesI ((value + (c.toNat - 0x30)) % 2 ^ 32)

def controlSequenceParse (c : UInt8) (t : Term σ) : Term σ :=
  if t.ctx.escapeOffset = 2 ∧ c = 0x5b then
    (t.set fun ctx => { ctx with discardNext := true }).set endSequence
  else if t.ctx.escapeOffset = 2 ∧ c = 0x3f then t.set fun ctx => { ctx with decPrivate := true }
  else if 0x30 ≤ c ∧ c ≤ 0x39 then t.set (pushDigit c)
  else if t.ctx.rrr then
    let t := t.set fun ctx => { ctx with escValuesI := ctx.escValuesI + 1, rrr := false }
    if c = 0x3b then t else finishSequence B c t
  else if c = 0x3b then
    if t.ctx.escValuesI = maxEscValues then t
    else t.set fun ctx =>
      { ctx.putValue ctx.escValuesI 0 with escValuesI := ctx.escValuesI + 1 }
  else finishSequence B c t

end Nyaux.Flanterm
