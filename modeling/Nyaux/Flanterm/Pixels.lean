import Nyaux.Flanterm.Framebuffer
import Nyaux.Lib.Paint

/-! What the pixels show: the characters of the cells, and the background elsewhere. -/

namespace Nyaux.Flanterm

open Paint

/-- The glyphs of `rows` and `cols` fit into the picture, and its lines into the pitch. -/
structure Display.Fits (d : Display) (rows cols : Nat) : Prop where
  scaleX : 0 < d.fontScaleX
  glyphWidth : d.glyphWidth = d.fontWidth * d.fontScaleX
  someWidth : 0 < d.glyphWidth
  someHeight : 0 < d.glyphHeight
  right : d.offsetX + cols * d.glyphWidth ≤ d.width
  below : d.offsetY + rows * d.glyphHeight ≤ d.height
  stride : d.width ≤ d.pitch / 4

def glyphColour (d : Display) (c : FbChar) (gx gy px py : Nat) : UInt32 :=
  d.colour c (d.fontBool (c.c.toNat * d.fontHeight * d.fontWidth +
    gy / d.fontScaleY % 256 * d.fontWidth + gx / d.fontScaleX)) px py

def InText (d : Display) (rows cols px py : Nat) : Prop :=
  (d.offsetX ≤ px ∧ px < d.offsetX + cols * d.glyphWidth) ∧
    d.offsetY ≤ py ∧ py < d.offsetY + rows * d.glyphHeight

instance (d : Display) (rows cols px py : Nat) : Decidable (InText d rows cols px py) :=
  inferInstanceAs (Decidable (_ ∧ _))

def cellOf (d : Display) (cols px py : Nat) : Nat :=
  (py - d.offsetY) / d.glyphHeight * cols + (px - d.offsetX) / d.glyphWidth

def picture (d : Display) (rows cols : Nat) (cells : Nat → Option FbChar) (px py : Nat) : UInt32 :=
  if InText d rows cols px py then
    match cells (cellOf d cols px py) with
    | some c => glyphColour d c ((px - d.offsetX) % d.glyphWidth)
        ((py - d.offsetY) % d.glyphHeight) px py
    | none => d.under px py
  else d.under px py

/-- An address of the framebuffer's visible part. -/
def Display.Inside (d : Display) (a : Nat) : Prop :=
  ∃ px < d.width, ∃ py < d.height, a = d.address px py

structure Draws (d : Display) (rows cols : Nat) (before : Nat → UInt32)
    (cells : Nat → Option FbChar) (memory : Nat → UInt32) : Prop where
  inside : ∀ {px py}, px < d.width → py < d.height →
    memory (d.address px py) = picture d rows cols cells px py
  outside : ∀ {a}, ¬d.Inside a → memory a = before a

/-! ### Addresses -/

variable {d : Display} {px py : Nat}

def Display.column (d : Display) (a : Nat) : Nat := (a - d.framebuffer) % (d.pitch / 4)

/-- The row of the pixel at an address. -/
def Display.row (d : Display) (a : Nat) : Nat := (a - d.framebuffer) / (d.pitch / 4)

theorem column_address (inLine : px < d.pitch / 4) : d.column (d.address px py) = px := by
  unfold Display.column Display.address
  rw [show d.framebuffer + px + py * (d.pitch / 4) - d.framebuffer = px + py * (d.pitch / 4) by omega,
    Nat.add_mul_mod_self_right, Nat.mod_eq_of_lt inLine]

theorem row_address (inLine : px < d.pitch / 4) : d.row (d.address px py) = py := by
  unfold Display.row Display.address
  rw [show d.framebuffer + px + py * (d.pitch / 4) - d.framebuffer = px + py * (d.pitch / 4) by omega,
    Nat.add_mul_div_right _ _ (by omega), Nat.div_eq_of_lt inLine, Nat.zero_add]

theorem address_eq_iff {px' py' : Nat} (inLine : px < d.pitch / 4) (inLine' : px' < d.pitch / 4) :
    d.address px py = d.address px' py' ↔ px = px' ∧ py = py' := by
  constructor
  · intro same
    have columns := congrArg d.column same
    have rows := congrArg d.row same
    rw [column_address inLine, column_address inLine'] at columns
    rw [row_address inLine, row_address inLine'] at rows
    exact ⟨columns, rows⟩
  · rintro ⟨rfl, rfl⟩
    rfl

/-! ### One glyph -/

def GlyphRegion (d : Display) (x y a : Nat) : Prop :=
  ∃ gy ∈ List.range d.glyphHeight, ∃ fx ∈ List.range d.fontWidth, ∃ i ∈ List.range d.fontScaleX,
    a = d.address (x + (d.fontScaleX * fx + i)) (y + gy)

/-- The colours that `plot_char` gives to the pixels of a glyph at `x` and `y`. -/
def glyphPicture (d : Display) (c : FbChar) (x y a : Nat) : UInt32 :=
  glyphColour d c (d.column a - x) (d.row a - y) (d.column a) (d.row a)

theorem glyph_column {rows cols fx i : Nat} (fits : d.Fits rows cols) (column : fx < d.fontWidth)
    (place : i < d.fontScaleX) : d.fontScaleX * fx + i < d.glyphWidth := by
  rw [fits.glyphWidth]
  calc d.fontScaleX * fx + i < d.fontScaleX * fx + d.fontScaleX := by omega
    _ = (fx + 1) * d.fontScaleX := by ring
    _ ≤ d.fontWidth * d.fontScaleX := Nat.mul_le_mul_right _ column

theorem plotGlyph_paints {rows cols : Nat} (fits : d.Fits rows cols) (c : FbChar) {x y : Nat}
    (line : x + d.glyphWidth ≤ d.pitch / 4) :
    Paints (plotGlyph d c x y) (GlyphRegion d x y) (glyphPicture d c x y) := by
  refine Paints.foldl fun gy _ => Paints.foldl fun fx column => Paints.foldl fun i place => ?_
  rw [List.mem_range] at column place
  have inGlyph := glyph_column fits column place
  refine Paints.update ?_
  unfold glyphPicture
  rw [column_address (by omega), row_address (by omega), Nat.add_sub_cancel_left,
    Nat.add_sub_cancel_left, glyphColour, Nat.mul_add_div fits.scaleX, Nat.div_eq_of_lt place,
    Nat.add_zero]

theorem glyphRegion_address {rows cols : Nat} (fits : d.Fits rows cols) {x y : Nat}
    (line : x + d.glyphWidth ≤ d.pitch / 4) (inLine : px < d.pitch / 4) :
    GlyphRegion d x y (d.address px py) ↔
      (x ≤ px ∧ px < x + d.glyphWidth) ∧ y ≤ py ∧ py < y + d.glyphHeight := by
  constructor
  · rintro ⟨gy, inGy, fx, inFx, i, inI, same⟩
    rw [List.mem_range] at inGy inFx inI
    have inGlyph := glyph_column fits inFx inI
    obtain ⟨rfl, rfl⟩ := (address_eq_iff inLine (by omega)).mp same
    omega
  · rintro ⟨⟨left, right⟩, top, bottom⟩
    have width := fits.glyphWidth
    have column : (px - x) / d.fontScaleX < d.fontWidth := by
      rw [Nat.div_lt_iff_lt_mul fits.scaleX, ← width]
      omega
    refine ⟨py - y, List.mem_range.mpr (by omega), (px - x) / d.fontScaleX,
      List.mem_range.mpr column, (px - x) % d.fontScaleX,
      List.mem_range.mpr (Nat.mod_lt _ fits.scaleX), ?_⟩
    rw [Nat.div_add_mod, Nat.add_sub_cancel' left, Nat.add_sub_cancel' top]

theorem cell_pixel_iff {rows cols x y : Nat} (fits : d.Fits rows cols) (inRow : x < cols)
    (inCol : y < rows) (px py : Nat) :
    ((d.offsetX + x * d.glyphWidth ≤ px ∧ px < d.offsetX + x * d.glyphWidth + d.glyphWidth) ∧
      d.offsetY + y * d.glyphHeight ≤ py ∧ py < d.offsetY + y * d.glyphHeight + d.glyphHeight) ↔
      InText d rows cols px py ∧ (px - d.offsetX) / d.glyphWidth = x ∧
        (py - d.offsetY) / d.glyphHeight = y := by
  have wide : (x + 1) * d.glyphWidth ≤ cols * d.glyphWidth := Nat.mul_le_mul_right _ inRow
  have high : (y + 1) * d.glyphHeight ≤ rows * d.glyphHeight := Nat.mul_le_mul_right _ inCol
  rw [Nat.add_mul, Nat.one_mul] at wide high
  rw [Nat.div_eq_iff fits.someWidth, Nat.div_eq_iff fits.someHeight]
  have width := fits.someWidth
  have height := fits.someHeight
  unfold InText
  constructor
  · rintro ⟨⟨left, right⟩, top, bottom⟩
    refine ⟨⟨⟨?_, ?_⟩, ?_, ?_⟩, ⟨?_, ?_⟩, ?_, ?_⟩ <;> omega
  · rintro ⟨⟨⟨left, right⟩, top, bottom⟩, ⟨column, column'⟩, row, row'⟩
    refine ⟨⟨?_, ?_⟩, ?_, ?_⟩ <;> omega

theorem cell_number {cols x y x' y' : Nat} (inRow : x < cols) (inRow' : x' < cols) :
    y * cols + x = y' * cols + x' ↔ x = x' ∧ y = y' := by
  constructor
  · intro same
    have columns := congrArg (· % cols) same
    have rows := congrArg (· / cols) same
    rw [Nat.mul_comm y, Nat.mul_comm y', Nat.mul_add_mod, Nat.mul_add_mod, Nat.mod_eq_of_lt inRow,
      Nat.mod_eq_of_lt inRow'] at columns
    rw [Nat.mul_comm y, Nat.mul_comm y', Nat.mul_add_div (by omega), Nat.mul_add_div (by omega),
      Nat.div_eq_of_lt inRow, Nat.div_eq_of_lt inRow'] at rows
    exact ⟨columns, by omega⟩
  · rintro ⟨rfl, rfl⟩
    rfl

variable {rows cols : Nat} {before memory : Nat → UInt32} {cells : Nat → Option FbChar}

theorem place_lt {x y : Nat} (inRow : x < cols) (inCol : y < rows) : y * cols + x < rows * cols := by
  calc y * cols + x < (y + 1) * cols := by rw [Nat.add_mul]; omega
    _ ≤ rows * cols := Nat.mul_le_mul_right _ inCol

theorem inText_place (fits : d.Fits rows cols) (inText : InText d rows cols px py) :
    (px - d.offsetX) / d.glyphWidth < cols ∧ (py - d.offsetY) / d.glyphHeight < rows := by
  obtain ⟨⟨left, right⟩, top, bottom⟩ := inText
  rw [Nat.div_lt_iff_lt_mul fits.someWidth, Nat.div_lt_iff_lt_mul fits.someHeight]
  exact ⟨by omega, by omega⟩

theorem inText_cell (fits : d.Fits rows cols) (inText : InText d rows cols px py) :
    cellOf d cols px py < rows * cols :=
  place_lt (inText_place fits inText).1 (inText_place fits inText).2

theorem picture_congr (fits : d.Fits rows cols) {cells cells' : Nat → Option FbChar}
    (same : ∀ i < rows * cols, cells i = cells' i) (px py : Nat) :
    picture d rows cols cells px py = picture d rows cols cells' px py := by
  unfold picture
  split_ifs with inText
  · rw [same _ (inText_cell fits inText)]
  · rfl

theorem glyphRegion_inside (fits : d.Fits rows cols) {x y a : Nat} (inRow : x < cols)
    (inCol : y < rows)
    (here : GlyphRegion d (d.offsetX + x * d.glyphWidth) (d.offsetY + y * d.glyphHeight) a) :
    d.Inside a := by
  obtain ⟨gy, inGy, fx, inFx, i, inI, rfl⟩ := here
  rw [List.mem_range] at inGy inFx inI
  have inGlyph := glyph_column fits inFx inI
  have wide : (x + 1) * d.glyphWidth ≤ cols * d.glyphWidth := Nat.mul_le_mul_right _ inRow
  have high : (y + 1) * d.glyphHeight ≤ rows * d.glyphHeight := Nat.mul_le_mul_right _ inCol
  rw [Nat.add_mul, Nat.one_mul] at wide high
  have right := fits.right
  have below := fits.below
  exact ⟨_, by omega, _, by omega, rfl⟩

theorem cell_line (fits : d.Fits rows cols) {x : Nat} (inRow : x < cols) :
    d.offsetX + x * d.glyphWidth + d.glyphWidth ≤ d.pitch / 4 := by
  have right := fits.right
  have stride := fits.stride
  have wide : (x + 1) * d.glyphWidth ≤ cols * d.glyphWidth := Nat.mul_le_mul_right _ inRow
  rw [Nat.add_mul, Nat.one_mul] at wide
  omega

theorem plotGlyph_pixel (fits : d.Fits rows cols) (c : FbChar) {x : Nat} (y : Nat)
    (inRow : x < cols) (inWidth : px < d.width) :
    plotGlyph d c (d.offsetX + x * d.glyphWidth) (d.offsetY + y * d.glyphHeight) memory
        (d.address px py) =
      if (d.offsetX + x * d.glyphWidth ≤ px ∧ px < d.offsetX + x * d.glyphWidth + d.glyphWidth) ∧
          d.offsetY + y * d.glyphHeight ≤ py ∧ py < d.offsetY + y * d.glyphHeight + d.glyphHeight then
        glyphColour d c (px - (d.offsetX + x * d.glyphWidth)) (py - (d.offsetY + y * d.glyphHeight))
          px py
      else memory (d.address px py) := by
  have line := cell_line fits inRow
  have stride := fits.stride
  have inLine : px < d.pitch / 4 := by omega
  have painted := plotGlyph_paints (y := d.offsetY + y * d.glyphHeight) fits c line memory
    (d.address px py)
  rw [glyphRegion_address fits line inLine, glyphPicture, column_address inLine,
    row_address inLine] at painted
  split_ifs with here
  · exact painted.1 here
  · exact painted.2 here

theorem plotGlyph_outside (fits : d.Fits rows cols) (c : FbChar) {x y a : Nat} (inRow : x < cols)
    (inCol : y < rows) (off : ¬d.Inside a) :
    plotGlyph d c (d.offsetX + x * d.glyphWidth) (d.offsetY + y * d.glyphHeight) memory a =
      memory a :=
  (plotGlyph_paints fits c (cell_line fits inRow) memory a).2
    fun here => off (glyphRegion_inside fits inRow inCol here)

/-- `plot_char` changes what is shown in its cell, and nothing else. -/
theorem Draws.plot (fits : d.Fits rows cols) (draws : Draws d rows cols before cells memory)
    {x y : Nat} (inRow : x < cols) (inCol : y < rows) (c : FbChar) :
    Draws d rows cols before (Function.update cells (y * cols + x) (some c))
      (plotGlyph d c (d.offsetX + x * d.glyphWidth) (d.offsetY + y * d.glyphHeight) memory) := by
  refine ⟨fun {px py} inWidth inHeight => ?_, fun {a} off => ?_⟩
  · rw [plotGlyph_pixel fits c y inRow inWidth]
    have own := cell_pixel_iff fits inRow inCol px py
    by_cases here : InText d rows cols px py ∧ (px - d.offsetX) / d.glyphWidth = x ∧
        (py - d.offsetY) / d.glyphHeight = y
    · rw [if_pos (own.mpr here)]
      obtain ⟨inText, column, row⟩ := here
      have gx : px - (d.offsetX + x * d.glyphWidth) = (px - d.offsetX) % d.glyphWidth := by
        rw [Nat.mod_eq_sub_div_mul, column]
        omega
      have gy : py - (d.offsetY + y * d.glyphHeight) = (py - d.offsetY) % d.glyphHeight := by
        rw [Nat.mod_eq_sub_div_mul, row]
        omega
      rw [picture, if_pos inText, cellOf, column, row, Function.update_self, gx, gy]
    · rw [if_neg fun inCell => here (own.mp inCell), draws.inside inWidth inHeight]
      unfold picture
      split_ifs with inText
      · obtain ⟨column, _⟩ := inText_place fits inText
        rw [Function.update_of_ne]
        intro same
        exact here ⟨inText, (cell_number column inRow).mp same⟩
      · rfl
  · rw [plotGlyph_outside fits c inRow inCol off]
    exact draws.outside off

theorem Draws.unique (fits : d.Fits rows cols) {cells cells' : Nat → Option FbChar}
    {memory memory' : Nat → UInt32} (draws : Draws d rows cols before cells memory)
    (draws' : Draws d rows cols before cells' memory')
    (same : ∀ i < rows * cols, cells i = cells' i) : memory = memory' := by
  funext a
  by_cases inside : d.Inside a
  · obtain ⟨px, inWidth, py, inHeight, rfl⟩ := inside
    rw [draws.inside inWidth inHeight, draws'.inside inWidth inHeight, picture_congr fits same]
  · rw [draws.outside inside, draws'.outside inside]

/-! ### The background -/

/-- The first loops of `full_refresh` leave the background everywhere. -/
theorem paintBackground_draws (fits : d.Fits rows cols) (memory : Nat → UInt32) :
    Draws d rows cols memory (fun _ => none) (paintBackground d memory) := by
  have stride := fits.stride
  have paints : Paints (paintBackground d)
      (fun a => ∃ y ∈ List.range d.height, ∃ x ∈ List.range d.width, a = d.address x y)
      (fun a => d.under (d.column a) (d.row a)) := by
    refine Paints.foldl fun y _ => Paints.foldl fun x inWidth => Paints.update ?_
    rw [List.mem_range] at inWidth
    rw [column_address (by omega), row_address (by omega)]
  refine ⟨fun {px py} inWidth inHeight => ?_, fun {a} off => ?_⟩
  · have painted := (paints memory (d.address px py)).1
      ⟨py, List.mem_range.mpr inHeight, px, List.mem_range.mpr inWidth, rfl⟩
    dsimp only at painted
    rw [painted, column_address (by omega), row_address (by omega), picture]
    split_ifs <;> rfl
  · refine (paints memory a).2 ?_
    rintro ⟨y, inHeight, x, inWidth, rfl⟩
    exact off ⟨x, List.mem_range.mp inWidth, y, List.mem_range.mp inHeight, rfl⟩

end Nyaux.Flanterm
