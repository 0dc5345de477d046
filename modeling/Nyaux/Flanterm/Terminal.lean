import Nyaux.Flanterm.Geometry
import Nyaux.Flanterm.Refinement

/-! The terminal over whole runs, from the framebuffer that the loader hands over: any
bytes, in any writes. -/

namespace Nyaux.Flanterm

/-! ### The plain screen -/

def Screen.visible (s : Screen) (cursorEnabled : Bool) (x y : Nat) : FbChar :=
  if cursorEnabled ∧ s.cursorX = x ∧ s.cursorY = y then FbContext.invert (s.cell x y)
  else s.cell x y

/-- The colour of a pixel, from the screen alone. -/
def Screen.pixel (d : Display) (rows cols : Nat) (cursorEnabled : Bool) (s : Screen)
    (px py : Nat) : UInt32 :=
  if InText d rows cols px py then
    glyphColour d
      (s.visible cursorEnabled ((px - d.offsetX) / d.glyphWidth) ((py - d.offsetY) / d.glyphHeight))
      ((px - d.offsetX) % d.glyphWidth) ((py - d.offsetY) % d.glyphHeight) px py
  else d.under px py

theorem writes_screen (d : Display) (bufs : List (List UInt8)) (t : Term Screen) :
    writes (screenBackend d) bufs t = putchars (screenBackend d) bufs.flatten t := by
  induction bufs generalizing t with
  | nil => rfl
  | cons buf bufs ih =>
      have write : flantermWrite (screenBackend d) buf t = putchars (screenBackend d) buf t := by
        unfold flantermWrite
        exact ite_self _
      rw [List.flatten_cons, putchars, List.foldl_append]
      exact (congrArg (writes (screenBackend d) bufs) write).trans (ih _)

/-! ### The first picture -/

variable {rows cols : Nat} {d : Display} {before : Nat → UInt32} {ctx : Context} {fb : FbContext}

structure Shows (rows cols : Nat) (before : Nat → UInt32) (cursorEnabled : Bool) (fb : FbContext) :
    Prop where
  free : ∀ i, fb.map i = none
  pixels : ∃ drawn, Draws fb.disp rows cols before drawn fb.memory ∧ ∀ i < rows * cols,
    drawn i = some (displayed (cursorCell rows cols cursorEnabled fb) fb.charAt i)

theorem fresh_sound (someRow : 0 < rows) (someCol : 0 < cols) :
    Sound rows cols (flantermContextReinit (zeroContext rows cols)) where
  sameRows := rfl
  sameCols := rfl
  someRow := someRow
  someCol := someCol
  margins := someRow
  bottom := le_rfl
  values := Nat.zero_le _
  digits := nofun
  unicode := Nat.zero_le _
  gSelect := Nat.zero_le _
  charset := Nat.two_pos
  savedCharset := Nat.two_pos
  primary := no_colour
  bg := no_colour
  savedPrimary := one_colour (by decide)
  savedBg := one_colour (by decide)
  tab := rfl
  autoflush := rfl
  noFault := rfl

theorem fresh_queued (d : Display) (memory : Nat → UInt32) :
    Queued rows cols (freshContext d memory) :=
  ⟨⟨nofun, nofun⟩, nofun, nofun, rfl⟩

theorem fresh_related (fits : d.Fits rows cols) (someRow : 0 < rows) (someCol : 0 < cols)
    (memory : Nat → UInt32) :
    let ctx := flantermContextReinit (zeroContext rows cols)
    let fb := (freshContext d memory).fullRefresh ctx
    Related rows cols (Represents rows cols d memory) ⟨ctx, fb⟩ ⟨ctx, .fresh d⟩ ∧
      Shows rows cols memory ctx.cursorEnabled fb := by
  have sound := fresh_sound someRow someCol
  dsimp only
  generalize flantermContextReinit (zeroContext rows cols) = ctx at sound
  obtain ⟨memory', drawn, refreshed, draws, shown⟩ :=
    @fullRefresh_draws _ _ _ (freshContext d memory) fits sound.onScreen fun _ => rfl
  rw [refreshed]
  have queued : Queued rows cols (freshContext d memory) := fresh_queued d memory
  refine ⟨⟨rfl, sound, rfl, ⟨queued.valid, nofun, nofun, rfl⟩, ⟨drawn, draws, ?_⟩,
    fun _ _ => rfl, rfl⟩, fun _ => rfl, drawn, draws, shown⟩
  intro i cell _ apart
  have elsewhere : cursorCell rows cols ctx.cursorEnabled (freshContext d memory) ≠ some i := by
    unfold cursorCell
    split_ifs
    · exact apart
    · nofun
  rw [shown i cell, displayed, if_neg elsewhere]

/-! ### Any writes -/

theorem Flushed.shows {fb' : FbContext} {enabled : Bool} {drawn : Nat → Option FbChar}
    (flushed : Flushed rows cols before (cursorCell rows cols enabled fb) fb fb' drawn) :
    Shows rows cols before enabled fb' := by
  have disp : fb'.disp = fb.disp := (congrArg FbContext.disp flushed.frame :)
  have cursor : cursorCell rows cols enabled fb' = cursorCell rows cols enabled fb :=
    (congrArg (cursorCell rows cols enabled) flushed.frame :)
  refine ⟨flushed.free, drawn, by rw [disp]; exact flushed.draws, fun i cell => ?_⟩
  rw [cursor, flushed.cells]
  exact flushed.displays i cell

variable {t : Term FbContext} {u : Term Screen}

theorem write_shows (fits : d.Fits rows cols)
    (related : Related rows cols (Represents rows cols d before) t u) (buf : List UInt8) :
    Shows rows cols before (flantermWrite fbBackend buf t).ctx.cursorEnabled
      (flantermWrite fbBackend buf t).back := by
  have written := putchars_related (fb_simulates rows cols before fits) related buf
  unfold flantermWrite
  dsimp only
  rw [if_pos written.sound.autoflush]
  obtain ⟨drawn, shown⟩ := written.back.shown
  obtain ⟨_, flushed⟩ := doubleBufferFlush_flushed (written.back.disp ▸ fits)
    written.sound.onScreen written.back.queued shown
  exact flushed.shows

theorem writes_related (fits : d.Fits rows cols) (bufs : List (List UInt8))
    (related : Related rows cols (Represents rows cols d before) t u)
    (shows : Shows rows cols before t.ctx.cursorEnabled t.back) :
    Related rows cols (Represents rows cols d before) (writes fbBackend bufs t)
        (putchars (screenBackend d) bufs.flatten u) ∧
      Shows rows cols before (writes fbBackend bufs t).ctx.cursorEnabled
        (writes fbBackend bufs t).back := by
  rw [← writes_screen]
  induction bufs generalizing t u with
  | nil => exact ⟨related, shows⟩
  | cons buf bufs ih =>
      exact ih (flantermWrite_related (fb_simulates rows cols before fits) related buf)
        (write_shows fits related buf)

theorem displayed_visible {s : Screen} (rep : Represents rows cols d before fb s) (enabled : Bool)
    {x y : Nat} (inRow : x < cols) (inCol : y < rows) :
    displayed (cursorCell rows cols enabled fb) fb.charAt (y * cols + x) = s.visible enabled x y := by
  unfold displayed Screen.visible cursorCell cellNumber
  rw [rep.cursorX, rep.cursorY, rep.cell inRow inCol]
  refine if_congr ?_ rfl rfl
  constructor
  · intro here
    split_ifs at here with on inside
    · exact ⟨on, (cell_number inside.1 inRow).mp (Option.some.inj here)⟩
  · rintro ⟨on, rfl, rfl⟩
    rw [if_pos on, if_pos ⟨inRow, inCol⟩]

theorem Shows.pixel {s : Screen} (fits : d.Fits rows cols) {enabled : Bool}
    (shows : Shows rows cols before enabled fb) (rep : Represents rows cols d before fb s)
    {px py : Nat} (inWidth : px < d.width) (inHeight : py < d.height) :
    fb.memory (d.address px py) = s.pixel d rows cols enabled px py := by
  obtain ⟨_, drawn, draws, displays⟩ := shows
  rw [rep.disp] at draws
  rw [draws.inside inWidth inHeight, picture, Screen.pixel]
  by_cases inText : InText d rows cols px py
  · rw [if_pos inText, if_pos inText, displays _ (inText_cell fits inText)]
    obtain ⟨column, row⟩ := inText_place fits inText
    dsimp only
    rw [cellOf, displayed_visible rep enabled column row]
  · rw [if_neg inText, if_neg inText]

theorem Shows.refresh (fits : fb.disp.Fits rows cols) (onScreen : OnScreen rows cols ctx)
    (shows : Shows rows cols before ctx.cursorEnabled fb) : fb.fullRefresh ctx = fb := by
  obtain ⟨free, drawn, draws, displays⟩ := shows
  obtain ⟨memory, drawn', refreshed, draws', displays'⟩ := fullRefresh_draws fits onScreen free
  have now : Draws fb.disp rows cols fb.memory drawn fb.memory :=
    { inside := draws.inside, outside := fun _ => rfl }
  have grid : fb.charAt = fb.grid := funext fun i => charAt_free (free i)
  have same : memory = fb.memory := draws'.unique fits now fun i cell => by
    rw [displays' i cell, displays i cell, grid]
  rw [refreshed, same]

/-! ### From the loader's framebuffer -/

section

variable {framebuffer : LimineFramebuffer} (builtinFont : Nat → UInt8) (memory : Nat → UInt32)

/-- `flanterm_fb_init` as `_start` calls it, with the pool unused. -/
def started (framebuffer : LimineFramebuffer) (builtinFont : Nat → UInt8)
    (memory : Nat → UInt32) : FbInit :=
  flantermFbInit (startArgs framebuffer) builtinFont memory ⟨0, false⟩

def startDisplay (framebuffer : LimineFramebuffer) (builtinFont : Nat → UInt8) : Display :=
  (startArgs framebuffer).display builtinFont

def startRows (framebuffer : LimineFramebuffer) (builtinFont : Nat → UInt8) : Nat :=
  (startArgs framebuffer).rows builtinFont

def startCols (framebuffer : LimineFramebuffer) (builtinFont : Nat → UInt8) : Nat :=
  (startArgs framebuffer).cols builtinFont

/-- The context at the start. -/
def startContext (framebuffer : LimineFramebuffer) (builtinFont : Nat → UInt8) : Context :=
  flantermContextReinit
    (zeroContext (startRows framebuffer builtinFont) (startCols framebuffer builtinFont))

def startTerm (framebuffer : LimineFramebuffer) (builtinFont : Nat → UInt8)
    (memory : Nat → UInt32) : Term FbContext :=
  ⟨startContext framebuffer builtinFont,
    (freshContext (startDisplay framebuffer builtinFont) memory).fullRefresh
      (startContext framebuffer builtinFont)⟩

/-- The plain screen at the start. -/
def startScreen (framebuffer : LimineFramebuffer) (builtinFont : Nat → UInt8) : Term Screen :=
  ⟨startContext framebuffer builtinFont, .fresh (startDisplay framebuffer builtinFont)⟩

/-- The calls of `bump_alloc` at the start, for any framebuffer. -/
theorem start_blocks_fit (framebuffer : LimineFramebuffer) : ∃ ptr,
    bumpAllocAll ((startArgs framebuffer).sizes builtinFont) 0 =
        some (placesFrom 0 ((startArgs framebuffer).sizes builtinFont), ptr) ∧
      0 + ((startArgs framebuffer).sizes builtinFont).sum ≤ bumpAllocPoolSize := by
  obtain ⟨scale, chosen, someScale, _⟩ := fontScale_cases framebuffer
  obtain ⟨cells, few, _, sizes⟩ := start_sizes chosen someScale builtinFont
  have total : ((startArgs framebuffer).sizes builtinFont).sum = 41752 + cells * 52 := by
    rw [sizes]
    simp only [List.sum_cons, List.sum_nil]
    ring
  have pool : bumpAllocPoolSize = 873000 := rfl
  exact ⟨_, bumpAllocAll_fits (by omega), by omega⟩

theorem started_eq (masks : framebuffer.Masks) : (started framebuffer builtinFont memory).term =
      some (startTerm framebuffer builtinFont memory) ∧
    (started framebuffer builtinFont memory).blocks =
      placesFrom 0 ((startArgs framebuffer).sizes builtinFont) ∧
    (started framebuffer builtinFont memory).bump.allocatedInstance = true := by
  obtain ⟨ptr, fits, _⟩ := start_blocks_fit builtinFont framebuffer
  have good : ¬((startArgs framebuffer).redMaskSize < 8 ∨
      (startArgs framebuffer).redMaskSize ≠ (startArgs framebuffer).greenMaskSize ∨
      (startArgs framebuffer).redMaskSize ≠ (startArgs framebuffer).blueMaskSize) := by
    rintro (small | green | blue)
    · exact absurd masks.redMask (not_le.mpr small)
    · exact green masks.greenMask
    · exact blue masks.blueMask
  unfold started flantermFbInit
  rw [if_neg good, if_neg Bool.false_ne_true]
  dsimp only
  rw [fits]
  exact ⟨rfl, rfl, rfl⟩

/-- The pool has room for every screen, and its blocks do not overlap. -/
theorem start_blocks_apart (masks : framebuffer.Masks) :
    (started framebuffer builtinFont memory).blocks.length =
        ((startArgs framebuffer).sizes builtinFont).length ∧
      (((started framebuffer builtinFont memory).blocks.zip
          ((startArgs framebuffer).sizes builtinFont)).Pairwise fun a b => a.1 + a.2 ≤ b.1) ∧
      ∀ block ∈ (started framebuffer builtinFont memory).blocks.zip
          ((startArgs framebuffer).sizes builtinFont), block.1 + block.2 ≤ bumpAllocPoolSize := by
  obtain ⟨_, _, room⟩ := start_blocks_fit builtinFont framebuffer
  rw [(started_eq builtinFont memory masks).2.1]
  refine ⟨placesFrom_length, placesFrom_ordered, fun block member => ?_⟩
  have := (placesFrom_inside member).2
  omega

theorem start_blocks_apart_full_hd :
    (started fullHd (fun _ => 0) fun _ => 0).blocks.length =
        ((startArgs fullHd).sizes fun _ => 0).length ∧
      (((started fullHd (fun _ => 0) fun _ => 0).blocks.zip
          ((startArgs fullHd).sizes fun _ => 0)).Pairwise fun a b => a.1 + a.2 ≤ b.1) ∧
      ∀ block ∈ (started fullHd (fun _ => 0) fun _ => 0).blocks.zip
          ((startArgs fullHd).sizes fun _ => 0), block.1 + block.2 ≤ bumpAllocPoolSize :=
  start_blocks_apart _ _ fullHd_masks

variable (valid : framebuffer.Valid)

include valid

theorem start_related :
    (startDisplay framebuffer builtinFont).Fits (startRows framebuffer builtinFont)
        (startCols framebuffer builtinFont) ∧
      Related (startRows framebuffer builtinFont) (startCols framebuffer builtinFont)
        (Represents (startRows framebuffer builtinFont) (startCols framebuffer builtinFont)
          (startDisplay framebuffer builtinFont) memory)
        (startTerm framebuffer builtinFont memory) (startScreen framebuffer builtinFont) ∧
      Shows (startRows framebuffer builtinFont) (startCols framebuffer builtinFont) memory
        (startTerm framebuffer builtinFont memory).ctx.cursorEnabled
        (startTerm framebuffer builtinFont memory).back := by
  obtain ⟨scale, chosen, someScale, scales⟩ := fontScale_cases framebuffer
  have scaled := start_scaled framebuffer builtinFont chosen
  obtain ⟨someRow, someCol⟩ := scaled.someCell valid scales
  have fits := scaled.fits valid someScale
  exact ⟨fits, fresh_related fits someRow someCol memory⟩

theorem run_related (bufs : List (List UInt8)) :
    (startDisplay framebuffer builtinFont).Fits (startRows framebuffer builtinFont)
        (startCols framebuffer builtinFont) ∧
      Related (startRows framebuffer builtinFont) (startCols framebuffer builtinFont)
        (Represents (startRows framebuffer builtinFont) (startCols framebuffer builtinFont)
          (startDisplay framebuffer builtinFont) memory)
        (writes fbBackend bufs (startTerm framebuffer builtinFont memory))
        (putchars (screenBackend (startDisplay framebuffer builtinFont)) bufs.flatten
          (startScreen framebuffer builtinFont)) ∧
      Shows (startRows framebuffer builtinFont) (startCols framebuffer builtinFont) memory
        (writes fbBackend bufs (startTerm framebuffer builtinFont memory)).ctx.cursorEnabled
        (writes fbBackend bufs (startTerm framebuffer builtinFont memory)).back := by
  obtain ⟨fits, related, shows⟩ := start_related builtinFont memory valid
  exact ⟨fits, writes_related fits bufs related shows⟩

/-- However a stream of bytes is cut into writes, every pixel of the framebuffer is what a
screen without a queue makes of the bytes, and the parser is in the same state. -/
theorem writes_show_screen (bufs : List (List UInt8)) :
    ∃ t, (started framebuffer builtinFont memory).term = some t ∧
      let d := startDisplay framebuffer builtinFont
      let u := putchars (screenBackend d) bufs.flatten (startScreen framebuffer builtinFont)
      (writes fbBackend bufs t).ctx = u.ctx ∧ ∀ px < d.width, ∀ py < d.height,
        (writes fbBackend bufs t).back.memory (d.address px py) =
          u.back.pixel d (startRows framebuffer builtinFont) (startCols framebuffer builtinFont)
            u.ctx.cursorEnabled px py := by
  obtain ⟨fits, related, shows⟩ := run_related builtinFont memory valid bufs
  refine ⟨_, (started_eq builtinFont memory valid.toMasks).1, related.same.symm,
    fun px inWidth py inHeight => ?_⟩
  rw [related.same]
  exact shows.pixel fits related.back inWidth inHeight

omit valid in
theorem writes_show_screen_full_hd :
    ∃ t, (started fullHd (fun _ => 0) fun _ => 0).term = some t ∧
      let d := startDisplay fullHd fun _ => 0
      let u := putchars (screenBackend d) [0x68, 0x69] (startScreen fullHd fun _ => 0)
      (writes fbBackend [[0x68], [0x69]] t).ctx = u.ctx ∧ ∀ px < d.width, ∀ py < d.height,
        (writes fbBackend [[0x68], [0x69]] t).back.memory (d.address px py) =
          u.back.pixel d (startRows fullHd fun _ => 0) (startCols fullHd fun _ => 0)
            u.ctx.cursorEnabled px py :=
  writes_show_screen _ _ fullHd_valid [[0x68], [0x69]]

/-- No write ever leaves the framebuffer that was handed over. -/
theorem writes_inside_framebuffer (bufs : List (List UInt8)) {a : Nat}
    (outside : ¬∃ px < framebuffer.width, ∃ py < framebuffer.height,
      4 * a = framebuffer.address + py * framebuffer.pitch + 4 * px) :
    ∃ t, (started framebuffer builtinFont memory).term = some t ∧
      (writes fbBackend bufs t).back.memory a = memory a := by
  obtain ⟨_, related, _, drawn, draws, _⟩ := run_related builtinFont memory valid bufs
  rw [related.back.disp] at draws
  exact ⟨_, (started_eq builtinFont memory valid.toMasks).1,
    draws.outside fun inside => outside (start_inside valid builtinFont inside)⟩

omit valid in
theorem writes_inside_framebuffer_full_hd :
    ∃ t, (started fullHd (fun _ => 0) fun _ => 0).term = some t ∧
      (writes fbBackend [[0x68], [0x69]] t).back.memory 0 = 0 := by
  refine writes_inside_framebuffer _ _ fullHd_valid [[0x68], [0x69]] ?_
  rintro ⟨px, _, py, _, same⟩
  have address : fullHd.address = 0xfd000000 := rfl
  omega

/-- No bytes make the terminal use an index that is outside its array: not in the queue, the
map or the grid, not in the parameters, the character sets or the colours. -/
theorem writes_no_fault (bufs : List (List UInt8)) :
    ∃ t, (started framebuffer builtinFont memory).term = some t ∧
      (writes fbBackend bufs t).ctx.fault = false ∧
      (writes fbBackend bufs t).back.fault = false := by
  obtain ⟨_, related, _⟩ := run_related builtinFont memory valid bufs
  exact ⟨_, (started_eq builtinFont memory valid.toMasks).1, related.sound.noFault,
    related.back.queued.noFault⟩

omit valid in
theorem writes_no_fault_full_hd :
    ∃ t, (started fullHd (fun _ => 0) fun _ => 0).term = some t ∧
      (writes fbBackend [[0x68], [0x69]] t).ctx.fault = false ∧
      (writes fbBackend [[0x68], [0x69]] t).back.fault = false :=
  writes_no_fault _ _ fullHd_valid [[0x68], [0x69]]

/-- After any writes, `full_refresh` finds every pixel as it would draw it: redrawing only
what was queued loses nothing. -/
theorem writes_refreshed (bufs : List (List UInt8)) :
    ∃ t, (started framebuffer builtinFont memory).term = some t ∧
      (writes fbBackend bufs t).back.fullRefresh (writes fbBackend bufs t).ctx =
        (writes fbBackend bufs t).back := by
  obtain ⟨fits, related, shows⟩ := run_related builtinFont memory valid bufs
  exact ⟨_, (started_eq builtinFont memory valid.toMasks).1,
    shows.refresh (related.back.disp ▸ fits) related.sound.onScreen⟩

omit valid in
theorem writes_refreshed_full_hd :
    ∃ t, (started fullHd (fun _ => 0) fun _ => 0).term = some t ∧
      (writes fbBackend [[0x68], [0x69]] t).back.fullRefresh
          (writes fbBackend [[0x68], [0x69]] t).ctx =
        (writes fbBackend [[0x68], [0x69]] t).back :=
  writes_refreshed _ _ fullHd_valid [[0x68], [0x69]]

/-- `plot_char` puts the dots of the built-in font into the cell, each as a square of pixels,
and touches no other pixel. -/
theorem plotChar_shows_font (c : FbChar) {x y : Nat} (inRow : x < startCols framebuffer builtinFont)
    (inCol : y < startRows framebuffer builtinFont) :
    ∃ scale, (scale = 1 ∨ scale = 2 ∨ scale = 4) ∧
      ∀ fb : FbContext, fb.disp = startDisplay framebuffer builtinFont →
        let left := fb.disp.offsetX + x * (9 * scale)
        let top := fb.disp.offsetY + y * (16 * scale)
        let fb' := fb.plotChar (startContext framebuffer builtinFont) c x y
        (∀ px < fb.disp.width, ∀ py < fb.disp.height, fb'.memory (fb.disp.address px py) =
          if (left ≤ px ∧ px < left + 9 * scale) ∧ top ≤ py ∧ py < top + 16 * scale then
            let row := builtinFont (c.c.toNat * 16 + (py - top) / scale)
            fb.disp.colour c (fontDot c.c.toNat row ((px - left) / scale)) px py
          else fb.memory (fb.disp.address px py)) ∧
        ∀ a, ¬fb.disp.Inside a → fb'.memory a = fb.memory a := by
  obtain ⟨scale, chosen, someScale, scales⟩ := fontScale_cases framebuffer
  have scaled : Scaled (startDisplay framebuffer builtinFont) framebuffer _ _ scale :=
    start_scaled framebuffer builtinFont chosen
  obtain ⟨someRow, someCol⟩ := scaled.someCell valid scales
  have fits := scaled.fits valid someScale
  have onScreen := (fresh_sound someRow someCol).onScreen
  have font : (startDisplay framebuffer builtinFont).fontBool = expandFont 16 9 builtinFont := by
    simp only [startDisplay, FbArgs.display, FbArgs.chosenFont, (limit_rest framebuffer).2.2]
  refine ⟨scale, scales.imp_right And.left, fun fb same => ?_⟩
  rw [← same] at scaled fits font
  have plotted := congrArg FbContext.memory (@plotChar_inside _ _ _ fb onScreen c _ _ inRow inCol)
  dsimp only at plotted ⊢
  refine ⟨fun px inWidth py inHeight => ?_, fun a off => ?_⟩
  · refine (congrFun plotted _).trans ((plotGlyph_pixel fits c y inRow inWidth).trans ?_)
    rw [scaled.glyphWidth, scaled.glyphHeight]
    split_ifs with here
    · exact scaled.glyphColour someScale font c (by omega) (by omega) px py
    · rfl
  · exact (congrFun plotted a).trans (plotGlyph_outside fits c inRow inCol off)

omit valid in
/-- For a font in which every row of a glyph is its number. -/
theorem plotChar_shows_font_full_hd :
    ∃ scale, (scale = 1 ∨ scale = 2 ∨ scale = 4) ∧
      ∀ fb : FbContext, fb.disp = startDisplay fullHd UInt8.ofNat →
        let left := fb.disp.offsetX + 3 * (9 * scale)
        let top := fb.disp.offsetY + 2 * (16 * scale)
        let fb' := fb.plotChar (startContext fullHd UInt8.ofNat) ⟨0x41, 0, 0⟩ 3 2
        (∀ px < fb.disp.width, ∀ py < fb.disp.height, fb'.memory (fb.disp.address px py) =
          if (left ≤ px ∧ px < left + 9 * scale) ∧ top ≤ py ∧ py < top + 16 * scale then
            let row := UInt8.ofNat (0x41 * 16 + (py - top) / scale)
            fb.disp.colour ⟨0x41, 0, 0⟩ (fontDot 0x41 row ((px - left) / scale)) px py
          else fb.memory (fb.disp.address px py)) ∧
        ∀ a, ¬fb.disp.Inside a → fb'.memory a = fb.memory a :=
  plotChar_shows_font _ fullHd_valid ⟨0x41, 0, 0⟩ (by decide) (by decide)

end

end Nyaux.Flanterm
