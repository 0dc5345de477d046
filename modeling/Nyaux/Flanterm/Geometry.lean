import Nyaux.Flanterm.Init
import Nyaux.Flanterm.Pixels

/-! What `flanterm_fb_init` makes of a framebuffer of any size. -/

namespace Nyaux.Flanterm

open Word Paint

/-! ### The font -/

/-- The dot of a glyph in column `x` of one row. -/
def fontDot (glyph : Nat) (row : UInt8) (x : Nat) : Bool :=
  if x < 8 then row &&& (0x80 >>> UInt8.ofNat x) ≠ 0
  else if glyph ≥ 0xc0 ∧ glyph ≤ 0xdf then row &&& 1 ≠ 0 else false

theorem dot_place {fontHeight fontWidth i y x : Nat} (inHeight : y < fontHeight)
    (inWidth : x < fontWidth) :
    (i * fontHeight * fontWidth + y * fontWidth + x) / fontWidth / fontHeight = i ∧
      (i * fontHeight * fontWidth + y * fontWidth + x) / fontWidth % fontHeight = y ∧
      (i * fontHeight * fontWidth + y * fontWidth + x) % fontWidth = x := by
  have line : i * fontHeight * fontWidth + y * fontWidth + x =
      fontWidth * (i * fontHeight + y) + x := by ring
  have row : (fontWidth * (i * fontHeight + y) + x) / fontWidth = fontHeight * i + y := by
    rw [Nat.mul_add_div (by omega), Nat.div_eq_of_lt inWidth, Nat.add_zero, Nat.mul_comm i]
  rw [line, row]
  refine ⟨?_, ?_, ?_⟩
  · rw [Nat.mul_add_div (by omega), Nat.div_eq_of_lt inHeight, Nat.add_zero]
  · rw [Nat.mul_add_mod, Nat.mod_eq_of_lt inHeight]
  · rw [Nat.mul_add_mod, Nat.mod_eq_of_lt inWidth]

/-- What `font_bool` is to hold at a place. -/
def fontPicture (fontHeight fontWidth : Nat) (fontBits : Nat → UInt8) (place : Nat) : Bool :=
  let glyph := place / fontWidth / fontHeight
  fontDot glyph (fontBits (glyph * fontHeight + place / fontWidth % fontHeight)) (place % fontWidth)

theorem expandRow_paints {fontHeight fontWidth i y : Nat} (wide : 8 ≤ fontWidth)
    (inHeight : y < fontHeight) (fontBits : Nat → UInt8) :
    Paints (expandRow i (i * fontHeight * fontWidth + y * fontWidth) fontWidth
        (fontBits (i * fontHeight + y)))
      (fun place => ∃ x < fontWidth, place = i * fontHeight * fontWidth + y * fontWidth + x)
      (fontPicture fontHeight fontWidth fontBits) := by
  have colour : ∀ x < fontWidth, fontPicture fontHeight fontWidth fontBits
      (i * fontHeight * fontWidth + y * fontWidth + x) =
        fontDot i (fontBits (i * fontHeight + y)) x := by
    intro x inWidth
    obtain ⟨glyph, row, column⟩ := dot_place (i := i) inHeight inWidth
    simp only [fontPicture, glyph, row, column]
  have dots : Paints
      (fun fontBool : Nat → Bool => (List.range 8).foldl (fun fontBool x =>
        Function.update fontBool (i * fontHeight * fontWidth + y * fontWidth + x)
          (fontBits (i * fontHeight + y) &&& (0x80 >>> UInt8.ofNat x) ≠ 0)) fontBool)
      (fun place => ∃ x ∈ List.range 8, place = i * fontHeight * fontWidth + y * fontWidth + x)
      (fontPicture fontHeight fontWidth fontBits) := by
    refine Paints.foldl fun x dot => Paints.update ?_
    rw [List.mem_range] at dot
    rw [colour x (by omega), fontDot, if_pos dot]
  have rest : Paints
      (fun fontBool : Nat → Bool => (List.range' 8 (fontWidth - 8)).foldl (fun fontBool x =>
        Function.update fontBool (i * fontHeight * fontWidth + y * fontWidth + x)
          (if i ≥ 0xc0 ∧ i ≤ 0xdf then fontBits (i * fontHeight + y) &&& 1 ≠ 0 else false)) fontBool)
      (fun place => ∃ x ∈ List.range' 8 (fontWidth - 8),
        place = i * fontHeight * fontWidth + y * fontWidth + x)
      (fontPicture fontHeight fontWidth fontBits) := by
    refine Paints.foldl fun x dot => Paints.update ?_
    rw [List.mem_range'_1] at dot
    rw [colour x (by omega), fontDot, if_neg (by omega)]
  refine (dots.comp rest).congr fun place => ?_
  constructor
  · rintro ⟨x, inWidth, rfl⟩
    by_cases dot : x < 8
    · exact .inl ⟨x, List.mem_range.mpr dot, rfl⟩
    · exact .inr ⟨x, List.mem_range'_1.mpr (by omega), rfl⟩
  · rintro (⟨x, dot, rfl⟩ | ⟨x, dot, rfl⟩)
    · exact ⟨x, by rw [List.mem_range] at dot; omega, rfl⟩
    · exact ⟨x, by rw [List.mem_range'_1] at dot; omega, rfl⟩

/-- Every dot of every glyph is in `font_bool` as the font has it. -/
theorem expandFont_dot {fontHeight fontWidth i y x : Nat} (fontBits : Nat → UInt8)
    (wide : 8 ≤ fontWidth) (glyph : i < 256) (inHeight : y < fontHeight) (inWidth : x < fontWidth) :
    expandFont fontHeight fontWidth fontBits (i * fontHeight * fontWidth + y * fontWidth + x) =
      fontDot i (fontBits (i * fontHeight + y)) x := by
  have paints : Paints
      (fun fontBool => (List.range 256).foldl (fun fontBool i =>
        (List.range fontHeight).foldl (fun fontBool y =>
          expandRow i (i * fontHeight * fontWidth + y * fontWidth) fontWidth
            (fontBits (i * fontHeight + y)) fontBool) fontBool) fontBool)
      (fun place => ∃ i ∈ List.range 256, ∃ y ∈ List.range fontHeight, ∃ x < fontWidth,
        place = i * fontHeight * fontWidth + y * fontWidth + x)
      (fontPicture fontHeight fontWidth fontBits) :=
    Paints.foldl fun i _ => Paints.foldl fun y row =>
      expandRow_paints wide (List.mem_range.mp row) fontBits
  obtain ⟨glyph', row, column⟩ := dot_place (i := i) inHeight inWidth
  refine ((paints (fun _ => false) _).1
    ⟨i, List.mem_range.mpr glyph, y, List.mem_range.mpr inHeight, x, inWidth, rfl⟩).trans ?_
  simp only [fontPicture, glyph', row, column]

/-! ### The pool -/

theorem bumpAlloc_fits {s ptr : Nat} (fits : ptr + s ≤ bumpAllocPoolSize) :
    bumpAlloc s ptr = some (ptr, ptr + s) := by
  have word : ptr + s < 2 ^ 64 := lt_of_le_of_lt fits (by decide)
  unfold bumpAlloc
  rw [add64_of_lt word]
  exact if_neg (not_lt.mpr fits)

def placesFrom (ptr : Nat) : List Nat → List Nat
  | [] => []
  | s :: sizes => ptr :: placesFrom (ptr + s) sizes

theorem bumpAllocAll_fits {sizes : List Nat} :
    ∀ {ptr : Nat}, ptr + sizes.sum ≤ bumpAllocPoolSize →
      bumpAllocAll sizes ptr = some (placesFrom ptr sizes, ptr + sizes.sum) := by
  induction sizes with
  | nil => exact fun _ => rfl
  | cons s sizes ih =>
      intro ptr fits
      rw [List.sum_cons, ← Nat.add_assoc] at fits ⊢
      rw [bumpAllocAll, bumpAlloc_fits (by omega)]
      simp only [Option.bind_eq_bind, Option.bind_some]
      rw [ih fits]
      rfl

theorem placesFrom_length {sizes : List Nat} :
    ∀ {ptr : Nat}, (placesFrom ptr sizes).length = sizes.length := by
  induction sizes with
  | nil => exact fun {_} => rfl
  | cons s sizes ih => exact fun {_} => congrArg Nat.succ ih

theorem placesFrom_inside {sizes : List Nat} :
    ∀ {ptr place s : Nat}, (place, s) ∈ (placesFrom ptr sizes).zip sizes →
      ptr ≤ place ∧ place + s ≤ ptr + sizes.sum := by
  induction sizes with
  | nil => exact fun member => nomatch member
  | cons s sizes ih =>
      intro ptr place size member
      rw [List.sum_cons]
      rcases List.mem_cons.mp member with same | member
      · cases same
        omega
      · have := ih member
        omega

theorem placesFrom_ordered {sizes : List Nat} :
    ∀ {ptr : Nat}, ((placesFrom ptr sizes).zip sizes).Pairwise fun a b => a.1 + a.2 ≤ b.1 := by
  induction sizes with
  | nil => exact .nil
  | cons s sizes ih =>
      intro ptr
      exact .cons (fun b member => (placesFrom_inside member).1) ih

/-! ### The screen -/

section

variable (framebuffer : LimineFramebuffer) (builtinFont : Nat → UInt8)

/-- What `flanterm_fb_init` checks. -/
structure LimineFramebuffer.Masks (framebuffer : LimineFramebuffer) : Prop where
  redMask : 8 ≤ framebuffer.redMaskSize
  greenMask : framebuffer.redMaskSize = framebuffer.greenMaskSize
  blueMask : framebuffer.redMaskSize = framebuffer.blueMaskSize

structure LimineFramebuffer.Valid (framebuffer : LimineFramebuffer) : Prop
    extends framebuffer.Masks where
  line : framebuffer.width ≤ framebuffer.pitch / 4
  alignedPitch : 4 ∣ framebuffer.pitch
  alignedAddress : 4 ∣ framebuffer.address
  oneColumn : 9 ≤ framebuffer.width
  oneRow : 16 ≤ framebuffer.height

theorem fullHd_masks : fullHd.Masks := by
  constructor <;> decide

theorem fullHd_valid : fullHd.Valid where
  toMasks := fullHd_masks
  line := by decide
  alignedPitch := by decide
  alignedAddress := by decide
  oneColumn := by decide
  oneRow := by decide

theorem limit_width (args : FbArgs) : args.limit.width = min args.width widthLimit := by
  unfold FbArgs.limit
  by_cases big : args.width > widthLimit ∨ args.height > heightLimit
  · rw [if_pos big]
    dsimp only
    split_ifs <;> omega
  · rw [if_neg big]
    omega

theorem limit_height (args : FbArgs) : args.limit.height = min args.height heightLimit := by
  unfold FbArgs.limit
  by_cases big : args.width > widthLimit ∨ args.height > heightLimit
  · rw [if_pos big]
    dsimp only
    split_ifs <;> omega
  · rw [if_neg big]
    omega

theorem limit_framebuffer (args : FbArgs) : args.limit.framebuffer = args.framebuffer +
    ((args.height / 2 - args.limit.height / 2) * args.pitch +
      (args.width / 2 - args.limit.width / 2) * 4) := by
  rw [limit_width, limit_height]
  unfold FbArgs.limit
  by_cases big : args.width > widthLimit ∨ args.height > heightLimit
  · rw [if_pos big]
    have width : (if args.width > widthLimit then widthLimit else args.width) =
        min args.width widthLimit := by
      split_ifs <;> omega
    have height : (if args.height > heightLimit then heightLimit else args.height) =
        min args.height heightLimit := by
      split_ifs <;> omega
    dsimp only
    rw [width, height]
  · rw [if_neg big, Nat.min_eq_left (by omega), Nat.min_eq_left (by omega), Nat.sub_self,
      Nat.sub_self, Nat.zero_mul, Nat.zero_mul, Nat.add_zero]

theorem limit_rest : (startArgs framebuffer).limit.margin = 0 ∧
    (startArgs framebuffer).limit.pitch = framebuffer.pitch ∧
    (startArgs framebuffer).limit.font = none := by
  unfold FbArgs.limit
  split_ifs <;> exact ⟨rfl, rfl, rfl⟩

theorem fontScale_cases : ∃ scale, (startArgs framebuffer).fontScale = (scale, scale) ∧ 0 < scale ∧
    (scale = 1 ∨ (scale = 2 ∨ scale = 4) ∧ widthLimit ≤ framebuffer.width ∧
      heightLimit ≤ framebuffer.height) := by
  unfold FbArgs.fontScale
  rw [if_pos (.inl rfl)]
  change ∃ scale, (if framebuffer.width ≥ _ ∧ framebuffer.height ≥ _ then _
    else if framebuffer.width ≥ _ ∧ framebuffer.height ≥ _ then _ else _) = _ ∧ _ ∧ _
  have wide : widthLimit = 1920 := rfl
  have high : heightLimit = 1200 := rfl
  split_ifs with huge big
  · exact ⟨4, rfl, by decide, .inr ⟨.inr rfl, by omega, by omega⟩⟩
  · exact ⟨2, rfl, by decide, .inr ⟨.inl rfl, by omega, by omega⟩⟩
  · exact ⟨1, rfl, by decide, .inl rfl⟩

structure Scaled (d : Display) (framebuffer : LimineFramebuffer) (rows cols scale : Nat) :
    Prop where
  fontWidth : d.fontWidth = 9
  fontHeight : d.fontHeight = 16
  scaleX : d.fontScaleX = scale
  scaleY : d.fontScaleY = scale
  glyphWidth : d.glyphWidth = 9 * scale
  glyphHeight : d.glyphHeight = 16 * scale
  width : d.width = min framebuffer.width widthLimit
  height : d.height = min framebuffer.height heightLimit
  pitch : d.pitch = framebuffer.pitch
  offsetX : d.offsetX = d.width % (9 * scale) / 2
  offsetY : d.offsetY = d.height % (16 * scale) / 2
  cols : cols = d.width / (9 * scale)
  rows : rows = d.height / (16 * scale)

theorem inner_length (length : Nat) (small : length < 2 ^ 64) :
    (startArgs framebuffer).limit.inner length = length := by
  rw [FbArgs.inner, (limit_rest framebuffer).1]
  exact sub64_of_le (Nat.zero_le _) small

theorem start_scaled {scale : Nat} (chosen : (startArgs framebuffer).fontScale = (scale, scale)) :
    Scaled ((startArgs framebuffer).display builtinFont) framebuffer
      ((startArgs framebuffer).rows builtinFont) ((startArgs framebuffer).cols builtinFont) scale := by
  obtain ⟨margin, pitch, font⟩ := limit_rest framebuffer
  have width := limit_width (startArgs framebuffer)
  have height := limit_height (startArgs framebuffer)
  have wide : widthLimit = 1920 := rfl
  have high : heightLimit = 1200 := rfl
  have across := inner_length framebuffer (startArgs framebuffer).limit.width (by omega)
  have down := inner_length framebuffer (startArgs framebuffer).limit.height (by omega)
  have glyphWidth : ((startArgs framebuffer).display builtinFont).glyphWidth = 9 * scale := by
    simp only [FbArgs.display, FbArgs.chosenFont, chosen, font]
  have glyphHeight : ((startArgs framebuffer).display builtinFont).glyphHeight = 16 * scale := by
    simp only [FbArgs.display, FbArgs.chosenFont, chosen, font]
  refine ⟨?_, ?_, ?_, ?_, glyphWidth, glyphHeight, width, height, pitch, ?_, ?_, ?_, ?_⟩
  · simp only [FbArgs.display, FbArgs.chosenFont, font]
  · simp only [FbArgs.display, FbArgs.chosenFont, font]
  · simp only [FbArgs.display, chosen]
  · simp only [FbArgs.display, chosen]
  · simp only [FbArgs.display, FbArgs.chosenFont, chosen, font, across, margin, Nat.zero_add]
  · simp only [FbArgs.display, FbArgs.chosenFont, chosen, font, down, margin, Nat.zero_add]
  · rw [FbArgs.cols, glyphWidth, across]
    rfl
  · rw [FbArgs.rows, glyphHeight, down]
    rfl

variable {framebuffer} {d : Display} {rows cols scale : Nat}

theorem Scaled.someCell (scaled : Scaled d framebuffer rows cols scale)
    (valid : framebuffer.Valid)
    (chosen : scale = 1 ∨ (scale = 2 ∨ scale = 4) ∧ widthLimit ≤ framebuffer.width ∧
      heightLimit ≤ framebuffer.height) :
    0 < rows ∧ 0 < cols := by
  have oneColumn := valid.oneColumn
  have oneRow := valid.oneRow
  have width := scaled.width
  have height := scaled.height
  have wide : widthLimit = 1920 := rfl
  have high : heightLimit = 1200 := rfl
  rw [scaled.rows, scaled.cols]
  rcases chosen with rfl | ⟨rfl | rfl, _, _⟩ <;>
    exact ⟨Nat.div_pos (by omega) (by omega), Nat.div_pos (by omega) (by omega)⟩

theorem Scaled.fits (scaled : Scaled d framebuffer rows cols scale) (valid : framebuffer.Valid)
    (someScale : 0 < scale) : d.Fits rows cols := by
  have line := valid.line
  have width := scaled.width
  have across := Nat.div_add_mod' d.width (9 * scale)
  have down := Nat.div_add_mod' d.height (16 * scale)
  rw [← scaled.cols] at across
  rw [← scaled.rows] at down
  refine ⟨?_, ?_, ?_, ?_, ?_, ?_, ?_⟩
  · rw [scaled.scaleX]
    exact someScale
  · rw [scaled.glyphWidth, scaled.fontWidth, scaled.scaleX]
  · rw [scaled.glyphWidth]
    omega
  · rw [scaled.glyphHeight]
    omega
  · rw [scaled.offsetX, scaled.glyphWidth]
    omega
  · rw [scaled.offsetY, scaled.glyphHeight]
    omega
  · rw [scaled.pitch]
    omega

theorem Scaled.glyphColour (scaled : Scaled d framebuffer rows cols scale) (someScale : 0 < scale)
    {fontBits : Nat → UInt8} (font : d.fontBool = expandFont 16 9 fontBits) (c : FbChar)
    {gx gy : Nat} (inWidth : gx < 9 * scale) (inHeight : gy < 16 * scale) (px py : Nat) :
    glyphColour d c gx gy px py =
      d.colour c (fontDot c.c.toNat (fontBits (c.c.toNat * 16 + gy / scale)) (gx / scale)) px py := by
  have row : gy / scale < 16 := (Nat.div_lt_iff_lt_mul someScale).mpr inHeight
  have column : gx / scale < 9 := (Nat.div_lt_iff_lt_mul someScale).mpr inWidth
  rw [Flanterm.glyphColour, scaled.scaleX, scaled.scaleY, scaled.fontWidth, scaled.fontHeight,
    Nat.mod_eq_of_lt (by omega), font,
    expandFont_dot fontBits (by decide) c.c.toNat_lt row column]

theorem Scaled.few (scaled : Scaled d framebuffer rows cols scale) (someScale : 0 < scale) :
    rows * cols ≤ 75 * 213 := by
  have wide : widthLimit = 1920 := rfl
  have high : heightLimit = 1200 := rfl
  have width : d.width ≤ 1920 := by rw [scaled.width]; omega
  have height : d.height ≤ 1200 := by rw [scaled.height]; omega
  refine Nat.mul_le_mul ?_ ?_
  · rw [scaled.rows]
    calc d.height / (16 * scale) ≤ d.height / 16 := Nat.div_le_div_left (by omega) (by decide)
      _ ≤ 75 := by omega
  · rw [scaled.cols]
    calc d.width / (9 * scale) ≤ d.width / 9 := Nat.div_le_div_left (by omega) (by decide)
      _ ≤ 213 := by omega

/-- What `flanterm_fb_init` asks of the pool at the call in `_start`. -/
theorem start_sizes {scale : Nat} (chosen : (startArgs framebuffer).fontScale = (scale, scale))
    (someScale : 0 < scale) (builtinFont : Nat → UInt8) :
    ∃ cells ≤ 75 * 213, cells = (startArgs framebuffer).rows builtinFont *
        (startArgs framebuffer).cols builtinFont ∧
      (startArgs framebuffer).sizes builtinFont =
        [792, 4096, 36864, cells * 12, cells * 32, cells * 8] := by
  have few := (start_scaled framebuffer builtinFont chosen).few someScale
  refine ⟨_, few, rfl, ?_⟩
  simp only [FbArgs.sizes, FbArgs.chosenFont, (limit_rest framebuffer).2.2, fbContextSize]
  generalize
    (startArgs framebuffer).rows builtinFont * (startArgs framebuffer).cols builtinFont = cells at few
  rw [Nat.mod_eq_of_lt (show cells * 12 < 2 ^ 64 by omega),
    Nat.mod_eq_of_lt (show cells * 32 < 2 ^ 64 by omega),
    Nat.mod_eq_of_lt (show cells * 8 < 2 ^ 64 by omega)]
  rfl

theorem start_inside (valid : framebuffer.Valid) (builtinFont : Nat → UInt8) {a : Nat}
    (inside : ((startArgs framebuffer).display builtinFont).Inside a) :
    ∃ px < framebuffer.width, ∃ py < framebuffer.height,
      4 * a = framebuffer.address + py * framebuffer.pitch + 4 * px := by
  obtain ⟨px, inWidth, py, inHeight, rfl⟩ := inside
  obtain ⟨base, address⟩ := valid.alignedAddress
  obtain ⟨line, pitch⟩ := valid.alignedPitch
  have width := limit_width (startArgs framebuffer)
  have height := limit_height (startArgs framebuffer)
  have first := limit_framebuffer (startArgs framebuffer)
  have samePitch := (limit_rest framebuffer).2.1
  change px < (startArgs framebuffer).limit.width at inWidth
  change py < (startArgs framebuffer).limit.height at inHeight
  change (startArgs framebuffer).limit.framebuffer = framebuffer.address +
    ((framebuffer.height / 2 - (startArgs framebuffer).limit.height / 2) * framebuffer.pitch +
      (framebuffer.width / 2 - (startArgs framebuffer).limit.width / 2) * 4) at first
  change (startArgs framebuffer).limit.width = min framebuffer.width widthLimit at width
  change (startArgs framebuffer).limit.height = min framebuffer.height heightLimit at height
  refine ⟨framebuffer.width / 2 - (startArgs framebuffer).limit.width / 2 + px, by omega,
    framebuffer.height / 2 - (startArgs framebuffer).limit.height / 2 + py, by omega, ?_⟩
  change 4 * ((startArgs framebuffer).limit.framebuffer / 4 + px +
    py * ((startArgs framebuffer).limit.pitch / 4)) = _
  generalize framebuffer.height / 2 - (startArgs framebuffer).limit.height / 2 = above at first ⊢
  generalize framebuffer.width / 2 - (startArgs framebuffer).limit.width / 2 = left at first ⊢
  have aligned : (startArgs framebuffer).limit.framebuffer = 4 * (base + above * line + left) := by
    rw [first, address, pitch]
    ring
  rw [aligned, samePitch, pitch, address, Nat.mul_div_cancel_left _ (by decide),
    Nat.mul_div_cancel_left _ (by decide)]
  ring

end

end Nyaux.Flanterm
