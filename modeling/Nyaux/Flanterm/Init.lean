import Nyaux.Flanterm.Framebuffer
import Nyaux.Lib.Paint

/-! `flanterm_fb_init`: the geometry of the screen, the blocks of the pool, the font, and
the first picture. -/

namespace Nyaux.Flanterm

open Word Paint

/-- The arguments of `flanterm_fb_init`, apart from `_malloc` and `_free`, which are `NULL`,
and from `canvas`, which is not used without an allocator. `framebuffer` is in bytes. -/
structure FbArgs where
  framebuffer : Nat
  width : Nat
  height : Nat
  pitch : Nat
  redMaskSize : Nat
  redMaskShift : Nat
  greenMaskSize : Nat
  greenMaskShift : Nat
  blueMaskSize : Nat
  blueMaskShift : Nat
  ansiColours : Option (List UInt32)
  ansiBrightColours : Option (List UInt32)
  defaultBg : Option UInt32
  defaultFg : Option UInt32
  defaultBgBright : Option UInt32
  defaultFgBright : Option UInt32
  font : Option (Nat → UInt8)
  fontWidth : Nat
  fontHeight : Nat
  fontSpacing : Nat
  fontScaleX : Nat
  fontScaleY : Nat
  margin : Nat

/-! ### The pool -/

/-- `FLANTERM_FB_BUMP_ALLOC_POOL_SIZE` -/
def bumpAllocPoolSize : Nat := 873000

/-- `bump_alloc_ptr` and `bump_allocated_instance` -/
structure Bump where
  ptr : Nat
  allocatedInstance : Bool
  deriving DecidableEq, Repr

/-- `bump_alloc`, with the place of the block in the pool and the new `bump_alloc_ptr`. -/
def bumpAlloc (s ptr : Nat) : Option (Nat × Nat) :=
  let nextPtr := add64 ptr s
  if nextPtr > bumpAllocPoolSize then none else some (ptr, nextPtr)

/-- Several calls of `bump_alloc`, one for each size, with the blocks' places. -/
def bumpAllocAll : List Nat → Nat → Option (List Nat × Nat)
  | [], ptr => some ([], ptr)
  | s :: sizes, ptr => do
      let (block, ptr) ← bumpAlloc s ptr
      let (blocks, ptr) ← bumpAllocAll sizes ptr
      return (block :: blocks, ptr)

/-! ### The display -/

def widthLimit : Nat := 1920

def heightLimit : Nat := 1200

def FbArgs.limit (args : FbArgs) : FbArgs :=
  if args.width > widthLimit ∨ args.height > heightLimit then
    let width := if args.width > widthLimit then widthLimit else args.width
    let height := if args.height > heightLimit then heightLimit else args.height
    { args with
      framebuffer := args.framebuffer + ((args.height / 2 - height / 2) * args.pitch +
        (args.width / 2 - width / 2) * 4)
      width := width
      height := height }
  else args

def FbArgs.fontScale (args : FbArgs) : Nat × Nat :=
  if args.fontScaleX = 0 ∨ args.fontScaleY = 0 then
    if args.width ≥ 3840 + 3840 / 3 ∧ args.height ≥ 2160 + 2160 / 3 then (4, 4)
    else if args.width ≥ 1920 + 1920 / 3 ∧ args.height ≥ 1080 + 1080 / 3 then (2, 2)
    else (1, 1)
  else (args.fontScaleX, args.fontScaleY)

/-- One row of a glyph in `font_bool`. Columns above 8 are empty or repeat the last one. -/
def expandRow (glyph offset fontWidth : Nat) (row : UInt8) (fontBool : Nat → Bool) : Nat → Bool :=
  let dots := (List.range 8).foldl (fun fontBool x =>
    Function.update fontBool (offset + x) (row &&& (0x80 >>> UInt8.ofNat x) ≠ 0)) fontBool
  (List.range' 8 (fontWidth - 8)).foldl (fun fontBool x =>
    Function.update fontBool (offset + x)
      (if glyph ≥ 0xc0 ∧ glyph ≤ 0xdf then row &&& 1 ≠ 0 else false)) dots

/-- The loops that fill `font_bool`. -/
def expandFont (fontHeight fontWidth : Nat) (fontBits : Nat → UInt8) : Nat → Bool :=
  (List.range 256).foldl (fun fontBool i =>
    (List.range fontHeight).foldl (fun fontBool y =>
      expandRow i (i * fontHeight * fontWidth + y * fontWidth) fontWidth
        (fontBits (i * fontHeight + y)) fontBool) fontBool) fun _ => false

/-- The colours that are used where `ansi_colours` is `NULL`. -/
def ansiDefaults : List UInt32 :=
  [0x00000000, 0x00aa0000, 0x0000aa00, 0x00aa5500, 0x000000aa, 0x00aa00aa, 0x0000aaaa, 0x00aaaaaa]

/-- The colours that are used where `ansi_bright_colours` is `NULL`. -/
def ansiBrightDefaults : List UInt32 :=
  [0x00555555, 0x00ff5555, 0x0055ff55, 0x00ffff55, 0x005555ff, 0x00ff55ff, 0x0055ffff, 0x00ffffff]

structure Font where
  width : Nat
  height : Nat
  spacing : Nat
  bits : Nat → UInt8

def FbArgs.chosenFont (args : FbArgs) (builtinFont : Nat → UInt8) : Font :=
  match args.font with
  | some bits => ⟨args.fontWidth, args.fontHeight, args.fontSpacing, bits⟩
  | none => ⟨8, 16, 1, builtinFont⟩

def FbArgs.palette (args : FbArgs) : Display :=
  let masks : Display :=
    { fontWidth := 0
      fontHeight := 0
      glyphWidth := 0
      glyphHeight := 0
      fontScaleX := 0
      fontScaleY := 0
      offsetX := 0
      offsetY := 0
      framebuffer := 0
      pitch := 0
      width := 0
      height := 0
      redMaskShift := (args.redMaskShift + (args.redMaskSize - 8)) % 256
      greenMaskShift := (args.greenMaskShift + (args.greenMaskSize - 8)) % 256
      blueMaskShift := (args.blueMaskShift + (args.blueMaskSize - 8)) % 256
      fontBool := fun _ => false
      ansiColours := []
      ansiBrightColours := []
      defaultFg := 0
      defaultBg := 0
      defaultFgBright := 0
      defaultBgBright := 0
      canvas := none }
  let convert := convertColour masks
  { masks with
    ansiColours := (args.ansiColours.getD ansiDefaults).map convert
    ansiBrightColours := (args.ansiBrightColours.getD ansiBrightDefaults).map convert
    defaultBg := (args.defaultBg.map convert).getD 0
    defaultFg := convert (args.defaultFg.getD 0x00aaaaaa)
    defaultBgBright := convert (args.defaultBgBright.getD 0x00555555)
    defaultFgBright := convert (args.defaultFgBright.getD 0x00ffffff) }

/-- `length - margin * 2` -/
def FbArgs.inner (args : FbArgs) (length : Nat) : Nat := sub64 length (args.margin * 2 % 2 ^ 64)

/-- What `flanterm_fb_init` puts into the context for good. -/
def FbArgs.display (args : FbArgs) (builtinFont : Nat → UInt8) : Display :=
  let (scaleX, scaleY) := args.fontScale
  let args := args.limit
  let font := args.chosenFont builtinFont
  let fontWidth := font.width + font.spacing
  let glyphWidth := fontWidth * scaleX
  let glyphHeight := font.height * scaleY
  { args.palette with
    fontWidth := fontWidth
    fontHeight := font.height
    glyphWidth := glyphWidth
    glyphHeight := glyphHeight
    fontScaleX := scaleX
    fontScaleY := scaleY
    offsetX := args.margin + args.inner args.width % glyphWidth / 2
    offsetY := args.margin + args.inner args.height % glyphHeight / 2
    framebuffer := args.framebuffer / 4
    pitch := args.pitch
    width := args.width
    height := args.height
    fontBool := expandFont font.height fontWidth font.bits }

/-- `_ctx->cols` -/
def FbArgs.cols (args : FbArgs) (builtinFont : Nat → UInt8) : Nat :=
  args.limit.inner args.limit.width / (args.display builtinFont).glyphWidth

/-- `_ctx->rows` -/
def FbArgs.rows (args : FbArgs) (builtinFont : Nat → UInt8) : Nat :=
  args.limit.inner args.limit.height / (args.display builtinFont).glyphHeight

/-! ### The context -/

/-- `sizeof(struct flanterm_fb_context)` -/
def fbContextSize : Nat := 792

/-- The sizes that are asked of `_malloc`: the context, the font twice, the grid, the queue
and the map. -/
def FbArgs.sizes (args : FbArgs) (builtinFont : Nat → UInt8) : List Nat :=
  let font := args.limit.chosenFont builtinFont
  let cells := args.rows builtinFont * args.cols builtinFont
  [fbContextSize, font.width * font.height * 256 % 2 ^ 64 / 8,
    256 * font.height * (font.width + font.spacing) % 2 ^ 64, cells * 12 % 2 ^ 64, cells * 32 % 2 ^ 64,
    cells * 8 % 2 ^ 64]

def zeroContext (rows cols : Nat) : Context where
  tabSize := 0
  autoflush := false
  cursorEnabled := false
  scrollEnabled := false
  controlSequence := false
  escape := false
  osc := false
  oscEscape := false
  rrr := false
  discardNext := false
  bold := false
  bgBold := false
  reverseVideo := false
  decPrivate := false
  insertMode := false
  codePoint := 0
  unicodeRemaining := 0
  gSelect := 0
  charsets _ := .default
  currentCharset := 0
  escapeOffset := 0
  escValuesI := 0
  savedCursorX := 0
  savedCursorY := 0
  currentPrimary := some 0
  currentBg := some 0
  scrollTopMargin := 0
  scrollBottomMargin := 0
  escValues _ := 0
  onlcr := false
  savedStateBold := false
  savedStateBgBold := false
  savedStateReverseVideo := false
  savedStateCurrentCharset := 0
  savedStateCurrentPrimary := some 0
  savedStateCurrentBg := some 0
  rows := rows
  cols := cols
  hasCallback := false
  events := []
  fault := false

def freshContext (d : Display) (memory : Nat → UInt32) : FbContext where
  disp := d
  memory := memory
  grid _ := ⟨0x20, d.defaultFg, transparent⟩
  queue _ := ⟨0, 0, ⟨0, 0, 0⟩⟩
  queueI := 0
  map _ := none
  textFg := d.defaultFg
  textBg := transparent
  cursorX := 0
  cursorY := 0
  savedStateTextFg := 0
  savedStateTextBg := 0
  savedStateCursorX := 0
  savedStateCursorY := 0
  oldCursorX := 0
  oldCursorY := 0
  fault := false

/-- What a call of `flanterm_fb_init` leaves: the terminal, or `NULL`, the places of its blocks
in the pool, and the pool's own variables. -/
structure FbInit where
  term : Option (Term FbContext)
  blocks : List Nat
  bump : Bump

def flantermFbInit (args : FbArgs) (builtinFont : Nat → UInt8) (memory : Nat → UInt32)
    (bump : Bump) : FbInit :=
  if args.redMaskSize < 8 ∨ args.redMaskSize ≠ args.greenMaskSize ∨
      args.redMaskSize ≠ args.blueMaskSize then ⟨none, [], bump⟩
  else if bump.allocatedInstance then ⟨none, [], bump⟩
  else
    match bumpAllocAll (args.sizes builtinFont) bump.ptr with
    | none => ⟨none, [], { bump with ptr := 0 }⟩
    | some (blocks, ptr) =>
        let ctx :=
          flantermContextReinit (zeroContext (args.rows builtinFont) (args.cols builtinFont))
        let fb := freshContext (args.display builtinFont) memory
        ⟨some ⟨ctx, fb.fullRefresh ctx⟩, blocks, ⟨ptr, true⟩⟩

/-- The fields of `struct limine_framebuffer` that the kernel reads. -/
structure LimineFramebuffer where
  address : Nat
  width : Nat
  height : Nat
  pitch : Nat
  redMaskSize : Nat
  redMaskShift : Nat
  greenMaskSize : Nat
  greenMaskShift : Nat
  blueMaskSize : Nat
  blueMaskShift : Nat

/-- The call of `flanterm_fb_init` in `_start`. -/
def startArgs (framebuffer : LimineFramebuffer) : FbArgs where
  framebuffer := framebuffer.address
  width := framebuffer.width
  height := framebuffer.height
  pitch := framebuffer.pitch
  redMaskSize := framebuffer.redMaskSize
  redMaskShift := framebuffer.redMaskShift
  greenMaskSize := framebuffer.greenMaskSize
  greenMaskShift := framebuffer.greenMaskShift
  blueMaskSize := framebuffer.blueMaskSize
  blueMaskShift := framebuffer.blueMaskShift
  ansiColours := none
  ansiBrightColours := none
  defaultBg := some 0x000000
  defaultFg := some 0xf0faf6
  defaultBgBright := none
  defaultFgBright := none
  font := none
  fontWidth := 0
  fontHeight := 0
  fontSpacing := 1
  fontScaleX := 0
  fontScaleY := 0
  margin := 0

def fullHd : LimineFramebuffer where
  address := 0xfd000000
  width := 1920
  height := 1080
  pitch := 7680
  redMaskSize := 8
  redMaskShift := 16
  greenMaskSize := 8
  greenMaskShift := 8
  blueMaskSize := 8
  blueMaskShift := 0

def smallTerm : Term FbContext :=
  ⟨flantermContextReinit (zeroContext 25 80),
    freshContext ((startArgs fullHd).display fun _ => 0) fun _ => 0⟩

end Nyaux.Flanterm
