import Nyaux.Flanterm.Terminal
import Nyaux.Flanterm.Text

/-! Plain output as endless paper: the screen is a window over its last lines. -/

namespace Nyaux.Flanterm

open Word

/-- Lines without end, and the place where the next character goes. -/
structure Paper where
  cell : Nat → Nat → FbChar
  x : Nat
  line : Nat

namespace Paper

def newline (p : Paper) : Paper := { p with x := 0, line := p.line + 1 }

def put (cols : Nat) (c : FbChar) (p : Paper) : Paper :=
  let p := if p.x ≥ cols then p.newline else p
  { p with
    cell := fun x line => if x = p.x ∧ line = p.line then c else p.cell x line
    x := p.x + 1 }

/-- Printable bytes and line feeds. -/
def write (cols : Nat) (fg bg : UInt32) (text : List UInt8) (p : Paper) : Paper :=
  text.foldl (fun p c => if c = 0x0a then p.newline else p.put cols ⟨c, fg, bg⟩) p

/-- Paper without a character on it. -/
def blank (c : FbChar) : Paper := ⟨fun _ _ => c, 0, 0⟩

end Paper

/-- The rows from `top` to `bottom` show the last lines; the other rows show `outside`. No
line behind those that are shown has been written to. -/
structure Window (top bottom cols : Nat) (fg bg : UInt32) (outside : Nat → Nat → FbChar)
    (p : Paper) (s : Screen) : Prop where
  textFg : s.textFg = fg
  textBg : s.textBg = bg
  cursorX : s.cursorX = p.x
  inLine : p.x ≤ cols
  cursorY : s.cursorY = top + min p.line (bottom - top - 1)
  cell : ∀ {x i}, x < cols → i < bottom - top →
    s.cell x (top + i) = p.cell x (p.line - (bottom - top - 1) + i)
  outside : ∀ {x y}, x < cols → y < top ∨ bottom ≤ y → s.cell x y = outside x y
  behind : ∀ {x line}, x < cols → p.line - (bottom - top - 1) + (bottom - top) ≤ line →
    p.cell x line = ⟨0x20, fg, bg⟩

/-- A printable byte of ASCII, or a line feed. -/
def Plain (c : UInt8) : Prop := c = 0x0a ∨ 0x20 ≤ c ∧ c ≤ 0x7e

/-- A context in which such bytes are put as they are. -/
structure Typing (rows cols top bottom : Nat) (ctx : Context) : Prop where
  sameRows : ctx.rows = rows
  sameCols : ctx.cols = cols
  someCol : 0 < cols
  flat : rows ≤ cols
  word : cols < 2 ^ 31
  awake : ctx.discardNext = false
  complete : ctx.unicodeRemaining = 0
  noEscape : ctx.escape = false
  gSelect : ctx.gSelect = 0
  noInsert : ctx.insertMode = false
  charset : ctx.charsets ctx.currentCharset = .default
  inCharsets : ctx.currentCharset < 2
  onlcr : ctx.onlcr = true
  sameTop : ctx.scrollTopMargin = top
  sameBottom : ctx.scrollBottomMargin = bottom
  region : top < bottom
  inRows : bottom ≤ rows
  scrolls : ctx.scrollEnabled = true

variable {rows cols top bottom : Nat} {outside : Nat → Nat → FbChar} {fg bg : UInt32}
  {ctx : Context} {p : Paper} {s : Screen} {d : Display}

theorem fresh_typing (someRow : 0 < rows) (someCol : 0 < cols) (flat : rows ≤ cols)
    (word : cols < 2 ^ 31) :
    Typing rows cols 0 rows (flantermContextReinit (zeroContext rows cols)) :=
  ⟨rfl, rfl, someCol, flat, word, rfl, rfl, rfl, rfl, rfl, rfl, Nat.two_pos, rfl, rfl, rfl, someRow,
    le_rfl, rfl⟩

/-! ### The next line -/

def Screen.nextLine (ctx : Context) (s : Screen) : Screen :=
  if s.cursorY + 1 = ctx.scrollBottomMargin then { s.scroll ctx with cursorX := 0 }
  else { s with cursorX := 0, cursorY := s.cursorY + 1 }

theorem Window.inRegion (window : Window top bottom cols fg bg outside p s)
    (typing : Typing rows cols top bottom ctx) : top ≤ s.cursorY ∧ s.cursorY < bottom := by
  have region := typing.region
  rw [window.cursorY]
  omega

theorem Window.nextLine (window : Window top bottom cols fg bg outside p s)
    (typing : Typing rows cols top bottom ctx) :
    Window top bottom cols fg bg outside p.newline (s.nextLine ctx) := by
  have cursorY := window.cursorY
  have region := typing.region
  unfold Screen.nextLine
  rw [typing.sameBottom]
  by_cases last : s.cursorY + 1 = bottom
  · -- the window moves down by one line
    rw [if_pos last]
    have scrolled : ∀ x y, (s.scroll ctx).cell x y = if y + 1 = bottom then s.empty
        else if top ≤ y ∧ y < bottom then s.cell x (y + 1) else s.cell x y := by
      intro x y
      rw [← typing.sameTop, ← typing.sameBottom]
      rfl
    refine ⟨window.textFg, window.textBg, rfl, Nat.zero_le _, ?_, fun {x i} inRow inside => ?_,
      fun {x y} inRow off => ?_, fun {x line} inRow under => ?_⟩
    · change s.cursorY = top + min (p.line + 1) (bottom - top - 1)
      omega
    · change (s.scroll ctx).cell x (top + i) = p.cell x (p.line + 1 - (bottom - top - 1) + i)
      rw [scrolled]
      by_cases final : top + i + 1 = bottom
      · rw [if_pos final, window.behind inRow (by omega), Screen.empty, window.textFg, window.textBg]
      · rw [if_neg final, if_pos (by omega), Nat.add_assoc top, window.cell inRow (by omega)]
        exact congrArg (p.cell x) (by omega)
    · refine (scrolled x y).trans ?_
      rw [if_neg (by omega), if_neg (by omega)]
      exact window.outside inRow off
    · exact window.behind inRow (by change p.line + 1 - _ + _ ≤ line at under; omega)
  · rw [if_neg last]
    refine ⟨window.textFg, window.textBg, rfl, Nat.zero_le _, ?_, fun {x i} inRow inside => ?_,
      window.outside, fun {x line} inRow under => ?_⟩
    · change s.cursorY + 1 = top + min (p.line + 1) (bottom - top - 1)
      omega
    · change s.cell x (top + i) = p.cell x (p.line + 1 - (bottom - top - 1) + i)
      rw [window.cell inRow inside]
      exact congrArg (p.cell x) (by omega)
    · exact window.behind inRow (by change p.line + 1 - _ + _ ≤ line at under; omega)

theorem Window.wrap (window : Window top bottom cols fg bg outside p s)
    (typing : Typing rows cols top bottom ctx) :
    Window top bottom cols fg bg outside (if p.x ≥ cols then p.newline else p) (s.wrap ctx) := by
  have inRegion := window.inRegion typing
  have inRows := typing.inRows
  have flat := typing.flat
  have word := typing.word
  unfold Screen.wrap
  rw [typing.sameCols, typing.scrolls, window.cursorX]
  by_cases full : p.x ≥ cols
  · rw [if_pos full, if_pos ⟨full, .inr rfl⟩]
    have next := window.nextLine typing
    have row : add64 s.cursorY 1 = s.cursorY + 1 := add64_of_lt (by omega)
    unfold Screen.nextLine at next
    dsimp only
    rw [row]
    rw [typing.sameBottom] at next ⊢
    by_cases last : s.cursorY + 1 = bottom
    · rw [if_pos last] at next ⊢
      rw [if_neg]
      · exact next
      · change ¬s.cursorY + 1 - 1 ≥ cols
        omega
    · rw [if_neg last] at next ⊢
      rw [if_neg (by dsimp only; omega)]
      exact next
  · rw [if_neg full, if_neg fun both => full both.1]
    exact window

/-! ### One byte -/

theorem Window.rawPutchar (window : Window top bottom cols fg bg outside p s)
    (typing : Typing rows cols top bottom ctx) (c : UInt8) :
    Window top bottom cols fg bg outside (p.put cols ⟨c, fg, bg⟩) (s.rawPutchar c ctx) := by
  have wrapped := window.wrap typing
  have someCol := typing.someCol
  have word := typing.word
  have room : (if p.x ≥ cols then p.newline else p).x < cols := by
    split_ifs with full
    · exact someCol
    · omega
  unfold Screen.rawPutchar Paper.put
  dsimp only
  generalize s.wrap ctx = s at wrapped ⊢
  generalize (if p.x ≥ cols then p.newline else p) = p at wrapped room ⊢
  have inRegion := wrapped.inRegion typing
  have inRows := typing.inRows
  have cursorY := wrapped.cursorY
  have character : (⟨c, s.textFg, s.textBg⟩ : FbChar) = ⟨c, fg, bg⟩ := by
    rw [wrapped.textFg, wrapped.textBg]
  rw [character, wrapped.cursorX]
  unfold Screen.put
  rw [typing.sameCols, typing.sameRows, if_neg (by omega)]
  refine ⟨wrapped.textFg, wrapped.textBg, add64_of_lt (by omega), room, cursorY,
    fun {x i} inRow inside => ?_, fun {x y} inRow off => ?_, fun {x line} inRow under => ?_⟩
  · dsimp only
    rw [wrapped.cell inRow inside]
    refine if_congr (and_congr_right fun _ => ?_) rfl rfl
    omega
  · dsimp only
    rw [if_neg (by omega)]
    exact wrapped.outside inRow off
  · dsimp only at under ⊢
    rw [if_neg (by omega)]
    exact wrapped.behind inRow under

theorem Window.lineFeed (window : Window top bottom cols fg bg outside p s)
    (typing : Typing rows cols top bottom ctx) :
    Flanterm.lineFeed (screenBackend d) 0 (s.getCursorPos ctx).2 ⟨ctx, s⟩ =
      ⟨ctx, s.nextLine ctx⟩ := by
  have inRegion := window.inRegion typing
  have inRows := typing.inRows
  have someCol := typing.someCol
  have row : (s.getCursorPos ctx).2 = s.cursorY := by
    change min s.cursorY (ctx.rows - 1) = s.cursorY
    rw [typing.sameRows]
    omega
  have cursor : ∀ {y} (s : Screen), y < rows → s.setCursorPos 0 y ctx =
      { s with cursorX := 0, cursorY := y } := by
    intro y s inside
    rw [Screen.setCursorPos, typing.sameCols, typing.sameRows, clamp_inside someCol,
      clamp_inside inside]
  unfold Flanterm.lineFeed Screen.nextLine
  rw [row, typing.sameBottom]
  by_cases last : s.cursorY + 1 = bottom
  · rw [if_pos last, if_pos (by omega)]
    exact congrArg (Term.mk ctx) (cursor (s.scroll ctx) (by omega))
  · rw [if_neg last, if_neg (by omega)]
    exact congrArg (Term.mk ctx) (cursor s (by omega))

theorem plain_alone {c : UInt8} (plain : Plain c) :
    ¬(c = 0x18 ∨ c = 0x1a) ∧ leadByte c = none := by
  have all : ∀ n < 256, UInt8.ofNat n = 0x0a ∨ 0x20 ≤ UInt8.ofNat n ∧ UInt8.ofNat n ≤ 0x7e →
      ¬(UInt8.ofNat n = 0x18 ∨ UInt8.ofNat n = 0x1a) ∧ leadByte (UInt8.ofNat n) = none := by
    decide +kernel
  have here := all c.toNat c.toNat_lt
  rw [UInt8.ofNat_toNat] at here
  exact here plain

/-- Such a byte goes to the switch of `flanterm_putchar`. -/
theorem Typing.putchar (typing : Typing rows cols top bottom ctx) {c : UInt8} (plain : Plain c)
    (s : Screen) :
    flantermPutchar (screenBackend d) c ⟨ctx, s⟩ = groundByte (screenBackend d) c ⟨ctx, s⟩ := by
  obtain ⟨noCancel, noLead⟩ := plain_alone plain
  unfold flantermPutchar plainByte
  dsimp only
  rw [typing.awake, if_neg fun bad => noCancel (bad.resolve_left Bool.false_ne_true),
    typing.complete, if_neg (not_not.mpr rfl), noLead]
  dsimp only
  rw [typing.noEscape, if_neg Bool.false_ne_true, typing.gSelect, if_neg (not_not.mpr rfl)]

theorem Typing.putByte (typing : Typing rows cols top bottom ctx) {c : UInt8} (low : 0x20 ≤ c)
    (high : c ≤ 0x7e) (s : Screen) :
    Flanterm.putByte (screenBackend d) c ⟨ctx, s⟩ = ⟨ctx, s.rawPutchar c ctx⟩ := by
  have touched : ctx.touch (ctx.currentCharset < 2) = ctx := by
    simp [Context.touch, typing.inCharsets]
  unfold Flanterm.putByte Term.set
  dsimp only
  rw [touched, typing.charset]
  dsimp only
  rw [if_pos ⟨low, high⟩]
  rfl

theorem Window.putchar (window : Window top bottom cols fg bg outside p s)
    (typing : Typing rows cols top bottom ctx) {c : UInt8} (plain : Plain c) :
    ∃ s', flantermPutchar (screenBackend d) c ⟨ctx, s⟩ = ⟨ctx, s'⟩ ∧
      Window top bottom cols fg bg outside
        (if c = 0x0a then p.newline else p.put cols ⟨c, fg, bg⟩) s' := by
  rw [typing.putchar plain]
  rcases plain with rfl | ⟨low, high⟩
  · refine ⟨s.nextLine ctx, ?_, window.nextLine typing⟩
    unfold groundByte
    dsimp only
    rw [typing.onlcr, if_pos rfl]
    exact window.lineFeed typing
  · have switch : groundByte (screenBackend d) c ⟨ctx, s⟩ = ⟨ctx, s.rawPutchar c ctx⟩ := by
      unfold groundByte
      generalize (screenBackend d).getCursorPos ctx s = place
      obtain ⟨x, y⟩ := place
      dsimp only
      split
      case h_13 =>
        rw [makeRoom, if_neg (by rw [typing.noInsert]; exact Bool.false_ne_true)]
        exact typing.putByte low high s
      all_goals first | exact absurd low (by decide) | exact absurd high (by decide)
    refine ⟨_, switch, ?_⟩
    rw [if_neg (by rintro rfl; exact absurd low (by decide))]
    exact window.rawPutchar typing c

theorem Window.putchars (window : Window top bottom cols fg bg outside p s)
    (typing : Typing rows cols top bottom ctx) {text : List UInt8} (plain : ∀ c ∈ text, Plain c) :
    ∃ s', Flanterm.putchars (screenBackend d) text ⟨ctx, s⟩ = ⟨ctx, s'⟩ ∧
      Window top bottom cols fg bg outside (p.write cols fg bg text) s' := by
  induction text generalizing p s with
  | nil => exact ⟨s, rfl, window⟩
  | cons c text ih =>
      obtain ⟨s₁, first, window₁⟩ := window.putchar (d := d) typing (plain c List.mem_cons_self)
      obtain ⟨s₂, rest, window₂⟩ := ih window₁ fun c member => plain c (List.mem_cons_of_mem _ member)
      refine ⟨s₂, ?_, window₂⟩
      rw [Flanterm.putchars, List.foldl_cons, first]
      exact rest

/-! ### From any screen -/

/-- The rows of a region as paper, with nothing behind them. -/
def Paper.ofRegion (top bottom : Nat) (s : Screen) : Paper where
  cell x line := if line < bottom - top then s.cell x (top + line) else s.empty
  x := s.cursorX
  line := s.cursorY - top

theorem region_window (inRegion : top ≤ s.cursorY ∧ s.cursorY < bottom) (inLine : s.cursorX ≤ cols) :
    Window top bottom cols s.textFg s.textBg s.cell (.ofRegion top bottom s) s where
  textFg := rfl
  textBg := rfl
  cursorX := rfl
  inLine := inLine
  cursorY := by
    change s.cursorY = top + min (s.cursorY - top) (bottom - top - 1)
    omega
  cell {x i} _ inside := by
    have start : s.cursorY - top - (bottom - top - 1) = 0 := by omega
    change _ = if s.cursorY - top - (bottom - top - 1) + i < bottom - top then
      s.cell x (top + (s.cursorY - top - (bottom - top - 1) + i)) else s.empty
    rw [start, Nat.zero_add, if_pos inside]
  outside _ _ := rfl
  behind {x line} _ under := by
    change s.cursorY - top - (bottom - top - 1) + (bottom - top) ≤ line at under
    exact if_neg (by omega)

/-- Plain output with the cursor in the scrolling region: the region goes on showing the last
lines of a paper that began as its rows, the cursor stays in it, and the rows outside stay as
they are. -/
theorem region_shows_paper (typing : Typing rows cols top bottom ctx)
    (inRegion : top ≤ s.cursorY ∧ s.cursorY < bottom) (inLine : s.cursorX ≤ cols)
    (text : List UInt8) (plain : ∀ c ∈ text, Plain c) :
    let p := (Paper.ofRegion top bottom s).write cols s.textFg s.textBg text
    let u := putchars (screenBackend d) text ⟨ctx, s⟩
    u.ctx = ctx ∧ u.back.cursorX = p.x ∧ u.back.cursorY = top + min p.line (bottom - top - 1) ∧
      (∀ x < cols, ∀ y, y < top ∨ bottom ≤ y → u.back.cell x y = s.cell x y) ∧
      ∀ x < cols, ∀ i < bottom - top,
        u.back.cell x (top + i) = p.cell x (p.line - (bottom - top - 1) + i) := by
  obtain ⟨s', run, window⟩ := (region_window inRegion inLine).putchars (d := d) typing plain
  dsimp only
  rw [run]
  exact ⟨rfl, window.cursorX, window.cursorY, fun _ inRow _ off => window.outside inRow off,
    fun _ inRow _ inside => window.cell inRow inside⟩

theorem region_shows_paper_small :
    let s := Screen.fresh ((startArgs fullHd).display fun _ => 0)
    let d := (startArgs fullHd).display fun _ => 0
    let p := (Paper.ofRegion 0 25 s).write 80 s.textFg s.textBg [0x68, 0x69, 0x0a]
    let ctx := flantermContextReinit (zeroContext 25 80)
    let u := putchars (screenBackend d) [0x68, 0x69, 0x0a] ⟨ctx, s⟩
    u.ctx = ctx ∧ u.back.cursorX = p.x ∧ u.back.cursorY = 0 + min p.line (25 - 0 - 1) ∧
      (∀ x < 80, ∀ y, y < 0 ∨ 25 ≤ y → u.back.cell x y = s.cell x y) ∧
      ∀ x < 80, ∀ i < 25 - 0, u.back.cell x (0 + i) = p.cell x (p.line - (25 - 0 - 1) + i) :=
  region_shows_paper (fresh_typing (by decide) (by decide) (by decide) (by decide)) (by decide)
    (by decide) [0x68, 0x69, 0x0a] (by simp [Plain])

/-! ### From the first byte on -/

/-- The last `rows` lines as a screen. -/
def Paper.window (rows : Nat) (fg bg : UInt32) (p : Paper) : Screen where
  cell x y := p.cell x (p.line - (rows - 1) + y)
  textFg := fg
  textBg := bg
  cursorX := p.x
  cursorY := min p.line (rows - 1)
  savedTextFg := 0
  savedTextBg := 0
  savedCursorX := 0
  savedCursorY := 0

theorem Window.pixel (window : Window 0 rows cols fg bg outside p s) (fits : d.Fits rows cols)
    (cursorEnabled : Bool) (px py : Nat) :
    s.pixel d rows cols cursorEnabled px py =
      (p.window rows fg bg).pixel d rows cols cursorEnabled px py := by
  have cursorY := window.cursorY
  rw [Nat.zero_add, Nat.sub_zero] at cursorY
  unfold Screen.pixel
  by_cases inText : InText d rows cols px py
  · obtain ⟨inRow, inCol⟩ := inText_place fits inText
    have cell := window.cell inRow (i := (py - d.offsetY) / d.glyphHeight) (by omega)
    rw [Nat.zero_add, Nat.sub_zero] at cell
    rw [if_pos inText, if_pos inText, Screen.visible, window.cursorX, cursorY, cell]
    rfl
  · rw [if_neg inText, if_neg inText]

theorem fresh_window (rows cols : Nat) (d : Display) : Window 0 rows cols d.defaultFg transparent
    (fun _ _ => ⟨0x20, d.defaultFg, transparent⟩) (.blank ⟨0x20, d.defaultFg, transparent⟩)
    (.fresh d) where
  textFg := rfl
  textBg := rfl
  cursorX := rfl
  inLine := Nat.zero_le _
  cursorY := by rw [Nat.zero_add]; exact (Nat.zero_min _).symm
  cell _ _ := rfl
  outside _ _ := rfl
  behind _ _ := rfl

section

variable {framebuffer : LimineFramebuffer} (builtinFont : Nat → UInt8) (memory : Nat → UInt32)
variable (valid : framebuffer.Valid)

include valid

theorem start_typing
    (flat : startRows framebuffer builtinFont ≤ startCols framebuffer builtinFont) :
    Typing (startRows framebuffer builtinFont) (startCols framebuffer builtinFont) 0
      (startRows framebuffer builtinFont) (startContext framebuffer builtinFont) := by
  obtain ⟨scale, chosen, someScale, scales⟩ := fontScale_cases framebuffer
  have scaled := start_scaled framebuffer builtinFont chosen
  obtain ⟨someRow, someCol⟩ := scaled.someCell valid scales
  have few : startCols framebuffer builtinFont ≤ 75 * 213 :=
    le_trans (Nat.le_mul_of_pos_left _ someRow) (scaled.few someScale)
  exact fresh_typing someRow someCol flat (by omega)

/-- Printable bytes and line feeds, in any writes: the framebuffer shows the last lines of an
endless paper. -/
theorem writes_show_paper
    (flat : startRows framebuffer builtinFont ≤ startCols framebuffer builtinFont)
    (bufs : List (List UInt8)) (plain : ∀ c ∈ bufs.flatten, Plain c) :
    ∃ t, (started framebuffer builtinFont memory).term = some t ∧
      let d := startDisplay framebuffer builtinFont
      let rows := startRows framebuffer builtinFont
      let cols := startCols framebuffer builtinFont
      let p := (Paper.blank ⟨0x20, d.defaultFg, transparent⟩).write cols d.defaultFg transparent
        bufs.flatten
      ∀ px < d.width, ∀ py < d.height,
        (writes fbBackend bufs t).back.memory (d.address px py) =
          (p.window rows d.defaultFg transparent).pixel d rows cols true px py := by
  have typing := start_typing builtinFont valid flat
  obtain ⟨fits, related, shows⟩ := run_related builtinFont memory valid bufs
  have fresh := fresh_window (startRows framebuffer builtinFont)
    (startCols framebuffer builtinFont) (startDisplay framebuffer builtinFont)
  obtain ⟨s, written, window⟩ :=
    fresh.putchars (d := startDisplay framebuffer builtinFont) typing plain
  refine ⟨_, (started_eq builtinFont memory valid.toMasks).1, fun px inWidth py inHeight => ?_⟩
  rw [startScreen, written] at related
  have enabled :
      (writes fbBackend bufs (startTerm framebuffer builtinFont memory)).ctx.cursorEnabled = true := by
    rw [← related.same]
    rfl
  rw [enabled] at shows
  rw [shows.pixel fits related.back inWidth inHeight]
  exact window.pixel fits true px py

omit valid in
theorem writes_show_paper_full_hd :
    ∃ t, (started fullHd (fun _ => 0) fun _ => 0).term = some t ∧
      let d := startDisplay fullHd fun _ => 0
      let rows := startRows fullHd fun _ => 0
      let cols := startCols fullHd fun _ => 0
      let p := (Paper.blank ⟨0x20, d.defaultFg, transparent⟩).write cols d.defaultFg transparent
        [0x68, 0x69, 0x0a]
      ∀ px < d.width, ∀ py < d.height,
        (writes fbBackend [[0x68, 0x69], [0x0a]] t).back.memory (d.address px py) =
          (p.window rows d.defaultFg transparent).pixel d rows cols true px py :=
  writes_show_paper _ _ fullHd_valid (by decide) [[0x68, 0x69], [0x0a]] (by simp [Plain])

end

end Nyaux.Flanterm
