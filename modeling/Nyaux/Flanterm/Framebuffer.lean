import Nyaux.Flanterm.Putchar

/-! The framebuffer backend: a grid of characters, a queue of the cells that changed
since the last flush, and the pixels. -/

namespace Nyaux.Flanterm

open Word

/-- `struct flanterm_fb_char`. Every glyph number that is stored comes from a byte. -/
structure FbChar where
  c : UInt8
  fg : UInt32
  bg : UInt32
  deriving DecidableEq, Repr

structure QueueItem where
  x : Nat
  y : Nat
  c : FbChar
  deriving DecidableEq, Repr

/-- The fields of `struct flanterm_fb_context` that are set by `flanterm_fb_init` for
good. `framebuffer` is the address of the first pixel, in words of four bytes. -/
structure Display where
  fontWidth : Nat
  fontHeight : Nat
  glyphWidth : Nat
  glyphHeight : Nat
  fontScaleX : Nat
  fontScaleY : Nat
  offsetX : Nat
  offsetY : Nat
  framebuffer : Nat
  pitch : Nat
  width : Nat
  height : Nat
  redMaskShift : Nat
  greenMaskShift : Nat
  blueMaskShift : Nat
  fontBool : Nat → Bool
  ansiColours : List UInt32
  ansiBrightColours : List UInt32
  defaultFg : UInt32
  defaultBg : UInt32
  defaultFgBright : UInt32
  defaultBgBright : UInt32
  canvas : Option (Nat → UInt32)

/-- `struct flanterm_fb_context`, with the words of memory that the framebuffer lies in.
A place of `map` holds the number of an item of `queue`, for a pointer to it. -/
structure FbContext where
  disp : Display
  memory : Nat → UInt32
  grid : Nat → FbChar
  queue : Nat → QueueItem
  queueI : Nat
  map : Nat → Option Nat
  textFg : UInt32
  textBg : UInt32
  cursorX : Nat
  cursorY : Nat
  savedStateTextFg : UInt32
  savedStateTextBg : UInt32
  savedStateCursorX : Nat
  savedStateCursorY : Nat
  oldCursorX : Nat
  oldCursorY : Nat
  fault : Bool

/-- The colour that stands for the background below, `0xffffffff`. -/
def transparent : UInt32 := 0xffffffff

def convertColour (d : Display) (colour : UInt32) : UInt32 :=
  let r := (colour >>> 16) &&& 0xff
  let g := (colour >>> 8) &&& 0xff
  let b := colour &&& 0xff
  (r <<< UInt32.ofNat d.redMaskShift) ||| (g <<< UInt32.ofNat d.greenMaskShift) |||
    (b <<< UInt32.ofNat d.blueMaskShift)

def Display.under (d : Display) (px py : Nat) : UInt32 :=
  match d.canvas with
  | some canvas => canvas (px + py * d.width)
  | none => d.defaultBg

/-- The address of a pixel. -/
def Display.address (d : Display) (px py : Nat) : Nat := d.framebuffer + px + py * (d.pitch / 4)

/-- `draw ? fg : bg` -/
def Display.colour (d : Display) (c : FbChar) (draw : Bool) (px py : Nat) : UInt32 :=
  let bg := if c.bg = transparent then d.under px py else c.bg
  let fg := if c.fg = transparent then d.under px py else c.fg
  if draw then fg else bg

/-- The loops of `plot_char`, from the pixel at `x` and `y`. -/
def plotGlyph (d : Display) (c : FbChar) (x y : Nat) (memory : Nat → UInt32) : Nat → UInt32 :=
  (List.range d.glyphHeight).foldl (fun memory gy =>
    let fy := gy / d.fontScaleY % 256
    (List.range d.fontWidth).foldl (fun memory fx =>
      let draw := d.fontBool (c.c.toNat * d.fontHeight * d.fontWidth + fy * d.fontWidth + fx)
      (List.range d.fontScaleX).foldl (fun memory i =>
        let gx := d.fontScaleX * fx + i
        Function.update memory (d.address (x + gx) (y + gy)) (d.colour c draw (x + gx) (y + gy)))
        memory)
      memory)
    memory

/-- The first loops of `flanterm_fb_full_refresh`. -/
def paintBackground (d : Display) (memory : Nat → UInt32) : Nat → UInt32 :=
  (List.range d.height).foldl (fun memory y =>
    (List.range d.width).foldl (fun memory x =>
      Function.update memory (d.address x y) (d.under x y)) memory) memory

namespace FbContext

def touch (inside : Bool) (fb : FbContext) : FbContext := { fb with fault := fb.fault || !inside }

/-- `plot_char` -/
def plotChar (ctx : Context) (c : FbChar) (x y : Nat) (fb : FbContext) : FbContext :=
  if x ≥ ctx.cols ∨ y ≥ ctx.rows then fb
  else
    { fb with
      memory := plotGlyph fb.disp c (fb.disp.offsetX + x * fb.disp.glyphWidth)
        (fb.disp.offsetY + y * fb.disp.glyphHeight) fb.memory }

def charAt (fb : FbContext) (i : Nat) : FbChar :=
  match fb.map i with
  | some q => (fb.queue q).c
  | none => fb.grid i

def pushToQueue (ctx : Context) (c : FbChar) (x y : Nat) (fb : FbContext) : FbContext :=
  if x ≥ ctx.cols ∨ y ≥ ctx.rows then fb
  else
    let i := y * ctx.cols + x
    match fb.map i with
    | some q => { fb with queue := Function.update fb.queue q { fb.queue q with c := c } }
    | none =>
        if fb.grid i = c then fb
        else
          { fb.touch (fb.queueI < ctx.rows * ctx.cols) with
            queue := Function.update fb.queue fb.queueI ⟨x, y, c⟩
            queueI := fb.queueI + 1
            map := Function.update fb.map i (some fb.queueI) }

/-- A space in the current colours. -/
def empty (fb : FbContext) : FbChar := ⟨0x20, fb.textFg, fb.textBg⟩

/-- The last loop of `scroll` and of `revscroll`. -/
def blankRow (ctx : Context) (y : Nat) (fb : FbContext) : FbContext :=
  let empty := fb.empty
  (List.range ctx.cols).foldl (fun fb i => fb.pushToQueue ctx empty i y) fb

def scroll (ctx : Context) (fb : FbContext) : FbContext :=
  let first := (ctx.scrollTopMargin + 1) * ctx.cols
  let moved := (List.range' first (ctx.scrollBottomMargin * ctx.cols - first)).foldl (fun fb i =>
    (fb.touch (i < ctx.rows * ctx.cols)).pushToQueue ctx (fb.charAt i)
      ((i - ctx.cols) % ctx.cols) ((i - ctx.cols) / ctx.cols)) fb
  moved.blankRow ctx (ctx.scrollBottomMargin - 1)

def revscroll (ctx : Context) (fb : FbContext) : FbContext :=
  let first := ctx.scrollTopMargin * ctx.cols
  let moved :=
    (List.range' first ((ctx.scrollBottomMargin - 1) * ctx.cols - first)).foldr (fun i fb =>
      (fb.touch (i < ctx.rows * ctx.cols)).pushToQueue ctx (fb.charAt i)
        ((i + ctx.cols) % ctx.cols) ((i + ctx.cols) / ctx.cols)) fb
  moved.blankRow ctx ctx.scrollTopMargin

/-- `flanterm_fb_clear` -/
def clear (move : Bool) (ctx : Context) (fb : FbContext) : FbContext :=
  let empty := fb.empty
  let cleared := (List.range (ctx.rows * ctx.cols)).foldl (fun fb i =>
    fb.pushToQueue ctx empty (i % ctx.cols) (i / ctx.cols)) fb
  if move then { cleared with cursorX := 0, cursorY := 0 } else cleared

/-- `if (x >= limit) x = (int)x < 0 ? 0 : limit - 1;` -/
def clamp (x limit : Nat) : Nat :=
  if x ≥ limit then if toInt32 x < 0 then 0 else limit - 1 else x

def setCursorPos (x y : Nat) (ctx : Context) (fb : FbContext) : FbContext :=
  { fb with cursorX := clamp x ctx.cols, cursorY := clamp y ctx.rows }

def getCursorPos (ctx : Context) (fb : FbContext) : Nat × Nat :=
  (if fb.cursorX ≥ ctx.cols then ctx.cols - 1 else fb.cursorX,
    if fb.cursorY ≥ ctx.rows then ctx.rows - 1 else fb.cursorY)

def moveCharacter (newX newY oldX oldY : Nat) (ctx : Context) (fb : FbContext) : FbContext :=
  if oldX ≥ ctx.cols ∨ oldY ≥ ctx.rows ∨ newX ≥ ctx.cols ∨ newY ≥ ctx.rows then fb
  else fb.pushToQueue ctx (fb.charAt (oldX + oldY * ctx.cols)) newX newY

/-- `flanterm_fb_set_text_fg`, as its siblings below under the source's names. `ansi_colours`
and `ansi_bright_colours` have eight places. -/
def setTextFg (fg : Nat) (_ : Context) (fb : FbContext) : FbContext :=
  { fb.touch (fg < 8) with textFg := fb.disp.ansiColours.getD fg 0 }

def setTextBg (bg : Nat) (_ : Context) (fb : FbContext) : FbContext :=
  { fb.touch (bg < 8) with textBg := fb.disp.ansiColours.getD bg 0 }

def setTextFgBright (fg : Nat) (_ : Context) (fb : FbContext) : FbContext :=
  { fb.touch (fg < 8) with textFg := fb.disp.ansiBrightColours.getD fg 0 }

def setTextBgBright (bg : Nat) (_ : Context) (fb : FbContext) : FbContext :=
  { fb.touch (bg < 8) with textBg := fb.disp.ansiBrightColours.getD bg 0 }

def setTextFgRgb (fg : UInt32) (_ : Context) (fb : FbContext) : FbContext :=
  { fb with textFg := convertColour fb.disp fg }

def setTextBgRgb (bg : UInt32) (_ : Context) (fb : FbContext) : FbContext :=
  { fb with textBg := convertColour fb.disp bg }

def setTextFgDefault (_ : Context) (fb : FbContext) : FbContext :=
  { fb with textFg := fb.disp.defaultFg }

def setTextBgDefault (_ : Context) (fb : FbContext) : FbContext := { fb with textBg := transparent }

def setTextFgDefaultBright (_ : Context) (fb : FbContext) : FbContext :=
  { fb with textFg := fb.disp.defaultFgBright }

def setTextBgDefaultBright (_ : Context) (fb : FbContext) : FbContext :=
  { fb with textBg := fb.disp.defaultBgBright }

def swapPalette (_ : Context) (fb : FbContext) : FbContext :=
  { fb with textBg := fb.textFg, textFg := fb.textBg }

def saveState (_ : Context) (fb : FbContext) : FbContext :=
  { fb with
    savedStateTextFg := fb.textFg
    savedStateTextBg := fb.textBg
    savedStateCursorX := fb.cursorX
    savedStateCursorY := fb.cursorY }

def restoreState (_ : Context) (fb : FbContext) : FbContext :=
  { fb with
    textFg := fb.savedStateTextFg
    textBg := fb.savedStateTextBg
    cursorX := fb.savedStateCursorX
    cursorY := fb.savedStateCursorY }

/-- The start of `flanterm_fb_raw_putchar`: a cursor beyond the last column goes to the next row. -/
def wrap (ctx : Context) (fb : FbContext) : FbContext :=
  if fb.cursorX ≥ ctx.cols ∧ (fb.cursorY < ctx.scrollBottomMargin - 1 ∨ ctx.scrollEnabled) then
    let fb := { fb with cursorX := 0, cursorY := add64 fb.cursorY 1 }
    let fb :=
      if fb.cursorY = ctx.scrollBottomMargin then
        scroll ctx { fb with cursorY := fb.cursorY - 1 }
      else fb
    -- the row is compared with the number of columns
    if fb.cursorY ≥ ctx.cols then { fb with cursorY := ctx.cols - 1 } else fb
  else fb

def rawPutchar (c : UInt8) (ctx : Context) (fb : FbContext) : FbContext :=
  let fb := fb.wrap ctx
  { fb with cursorX := add64 fb.cursorX 1 }.pushToQueue ctx ⟨c, fb.textFg, fb.textBg⟩
    fb.cursorX fb.cursorY

def invert (c : FbChar) : FbChar := { c with fg := c.bg, bg := c.fg }

def settle (i : Nat) (fb : FbContext) : FbContext :=
  match fb.map i with
  | some q =>
      { fb with
        grid := Function.update fb.grid i (fb.queue q).c
        map := Function.update fb.map i none }
  | none => fb

def drawCursor (ctx : Context) (fb : FbContext) : FbContext :=
  if fb.cursorX ≥ ctx.cols ∨ fb.cursorY ≥ ctx.rows then fb
  else
    let i := fb.cursorX + fb.cursorY * ctx.cols
    (fb.plotChar ctx (invert (fb.charAt i)) fb.cursorX fb.cursorY).settle i

/-- One round of the loop of `double_buffer_flush`. -/
def flushItem (ctx : Context) (fb : FbContext) (j : Nat) : FbContext :=
  let q := fb.queue j
  let offset := q.y * ctx.cols + q.x
  let fb := fb.touch (offset < ctx.rows * ctx.cols)
  match fb.map offset with
  | none => fb
  | some _ =>
      let fb := fb.plotChar ctx q.c q.x q.y
      { fb with
        grid := Function.update fb.grid offset q.c
        map := Function.update fb.map offset none }

def replotOldCursor (ctx : Context) (fb : FbContext) : FbContext :=
  if (fb.oldCursorX ≠ fb.cursorX ∨ fb.oldCursorY ≠ fb.cursorY) ∨ ctx.cursorEnabled = false then
    if fb.oldCursorX < ctx.cols ∧ fb.oldCursorY < ctx.rows then
      fb.plotChar ctx (fb.grid (fb.oldCursorX + fb.oldCursorY * ctx.cols)) fb.oldCursorX
        fb.oldCursorY
    else fb
  else fb

def doubleBufferFlush (ctx : Context) (fb : FbContext) : FbContext :=
  let fb := if ctx.cursorEnabled then fb.drawCursor ctx else fb
  let fb := (List.range fb.queueI).foldl (flushItem ctx) fb
  let fb := fb.replotOldCursor ctx
  { fb with oldCursorX := fb.cursorX, oldCursorY := fb.cursorY, queueI := 0 }

/-- `flanterm_fb_full_refresh` -/
def fullRefresh (ctx : Context) (fb : FbContext) : FbContext :=
  let fb := (List.range (ctx.rows * ctx.cols)).foldl
    (fun fb i => fb.plotChar ctx (fb.grid i) (i % ctx.cols) (i / ctx.cols))
    { fb with memory := paintBackground fb.disp fb.memory }
  if ctx.cursorEnabled then fb.drawCursor ctx else fb

end FbContext

/-- The function pointers that `flanterm_fb_init` sets. -/
def fbBackend : Backend FbContext where
  rawPutchar := FbContext.rawPutchar
  clear := FbContext.clear
  setCursorPos := FbContext.setCursorPos
  getCursorPos := FbContext.getCursorPos
  setTextFg := FbContext.setTextFg
  setTextBg := FbContext.setTextBg
  setTextFgBright := FbContext.setTextFgBright
  setTextBgBright := FbContext.setTextBgBright
  setTextFgRgb := FbContext.setTextFgRgb
  setTextBgRgb := FbContext.setTextBgRgb
  setTextFgDefault := FbContext.setTextFgDefault
  setTextBgDefault := FbContext.setTextBgDefault
  setTextFgDefaultBright := FbContext.setTextFgDefaultBright
  setTextBgDefaultBright := FbContext.setTextBgDefaultBright
  moveCharacter := FbContext.moveCharacter
  scroll := FbContext.scroll
  revscroll := FbContext.revscroll
  swapPalette := FbContext.swapPalette
  saveState := FbContext.saveState
  restoreState := FbContext.restoreState
  doubleBufferFlush := FbContext.doubleBufferFlush

end Nyaux.Flanterm
