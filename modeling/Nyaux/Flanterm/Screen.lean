import Nyaux.Flanterm.Framebuffer

/-! What a terminal is for: a character at every place of the screen. Nothing is queued,
and scrolling moves whole rows at once. -/

namespace Nyaux.Flanterm

open Word

structure Screen where
  cell : Nat → Nat → FbChar
  textFg : UInt32
  textBg : UInt32
  cursorX : Nat
  cursorY : Nat
  savedTextFg : UInt32
  savedTextBg : UInt32
  savedCursorX : Nat
  savedCursorY : Nat

theorem clamp_inside {x limit : Nat} (inside : x < limit) : FbContext.clamp x limit = x :=
  if_neg (not_le.mpr inside)

namespace Screen

def fresh (d : Display) : Screen where
  cell _ _ := ⟨0x20, d.defaultFg, transparent⟩
  textFg := d.defaultFg
  textBg := transparent
  cursorX := 0
  cursorY := 0
  savedTextFg := 0
  savedTextBg := 0
  savedCursorX := 0
  savedCursorY := 0

/-- A space in the current colours. -/
def empty (s : Screen) : FbChar := ⟨0x20, s.textFg, s.textBg⟩

def put (ctx : Context) (c : FbChar) (x y : Nat) (s : Screen) : Screen :=
  if x ≥ ctx.cols ∨ y ≥ ctx.rows then s
  else { s with cell := fun x' y' => if x' = x ∧ y' = y then c else s.cell x' y' }

def scroll (ctx : Context) (s : Screen) : Screen :=
  { s with cell := fun x y =>
      if y + 1 = ctx.scrollBottomMargin then s.empty
      else if ctx.scrollTopMargin ≤ y ∧ y < ctx.scrollBottomMargin then s.cell x (y + 1)
      else s.cell x y }

def revscroll (ctx : Context) (s : Screen) : Screen :=
  { s with cell := fun x y =>
      if y = ctx.scrollTopMargin then s.empty
      else if ctx.scrollTopMargin < y ∧ y < ctx.scrollBottomMargin then s.cell x (y - 1)
      else s.cell x y }

def clear (move : Bool) (_ : Context) (s : Screen) : Screen :=
  let cleared := { s with cell := fun _ _ => s.empty }
  if move then { cleared with cursorX := 0, cursorY := 0 } else cleared

def setCursorPos (x y : Nat) (ctx : Context) (s : Screen) : Screen :=
  { s with cursorX := FbContext.clamp x ctx.cols, cursorY := FbContext.clamp y ctx.rows }

def getCursorPos (ctx : Context) (s : Screen) : Nat × Nat :=
  (min s.cursorX (ctx.cols - 1), min s.cursorY (ctx.rows - 1))

def moveCharacter (newX newY oldX oldY : Nat) (ctx : Context) (s : Screen) : Screen :=
  if oldX ≥ ctx.cols ∨ oldY ≥ ctx.rows then s else s.put ctx (s.cell oldX oldY) newX newY

def wrap (ctx : Context) (s : Screen) : Screen :=
  if s.cursorX ≥ ctx.cols ∧ (s.cursorY < ctx.scrollBottomMargin - 1 ∨ ctx.scrollEnabled) then
    let s :=
      if add64 s.cursorY 1 = ctx.scrollBottomMargin then
        scroll ctx { s with cursorX := 0, cursorY := add64 s.cursorY 1 - 1 }
      else { s with cursorX := 0, cursorY := add64 s.cursorY 1 }
    if s.cursorY ≥ ctx.cols then { s with cursorY := ctx.cols - 1 } else s
  else s

def rawPutchar (c : UInt8) (ctx : Context) (s : Screen) : Screen :=
  let s := s.wrap ctx
  { s with cursorX := add64 s.cursorX 1 }.put ctx ⟨c, s.textFg, s.textBg⟩ s.cursorX s.cursorY

end Screen

/-- The screen as a backend, with the colours of `d`. -/
def screenBackend (d : Display) : Backend Screen where
  rawPutchar := Screen.rawPutchar
  clear := Screen.clear
  setCursorPos := Screen.setCursorPos
  getCursorPos := Screen.getCursorPos
  setTextFg fg _ s := { s with textFg := d.ansiColours.getD fg 0 }
  setTextBg bg _ s := { s with textBg := d.ansiColours.getD bg 0 }
  setTextFgBright fg _ s := { s with textFg := d.ansiBrightColours.getD fg 0 }
  setTextBgBright bg _ s := { s with textBg := d.ansiBrightColours.getD bg 0 }
  setTextFgRgb fg _ s := { s with textFg := convertColour d fg }
  setTextBgRgb bg _ s := { s with textBg := convertColour d bg }
  setTextFgDefault _ s := { s with textFg := d.defaultFg }
  setTextBgDefault _ s := { s with textBg := transparent }
  setTextFgDefaultBright _ s := { s with textFg := d.defaultFgBright }
  setTextBgDefaultBright _ s := { s with textBg := d.defaultBgBright }
  moveCharacter := Screen.moveCharacter
  scroll := Screen.scroll
  revscroll := Screen.revscroll
  swapPalette _ s := { s with textBg := s.textFg, textFg := s.textBg }
  saveState _ s :=
    { s with
      savedTextFg := s.textFg
      savedTextBg := s.textBg
      savedCursorX := s.cursorX
      savedCursorY := s.cursorY }
  restoreState _ s :=
    { s with
      textFg := s.savedTextFg
      textBg := s.savedTextBg
      cursorX := s.savedCursorX
      cursorY := s.savedCursorY }
  doubleBufferFlush _ s := s

end Nyaux.Flanterm
