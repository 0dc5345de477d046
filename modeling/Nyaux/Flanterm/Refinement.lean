import Nyaux.Flanterm.Cells
import Nyaux.Flanterm.Flush
import Nyaux.Flanterm.Lockstep
import Nyaux.Flanterm.Screen

/-! The framebuffer backend refines the plain screen: every one of its functions does to the
cells what the plain screen's does, and a flush shows them. -/

namespace Nyaux.Flanterm

open Word

def FbContext.attributes (fb : FbContext) : Screen where
  cell _ _ := ⟨0, 0, 0⟩
  textFg := fb.textFg
  textBg := fb.textBg
  cursorX := fb.cursorX
  cursorY := fb.cursorY
  savedTextFg := fb.savedStateTextFg
  savedTextBg := fb.savedStateTextBg
  savedCursorX := fb.savedStateCursorX
  savedCursorY := fb.savedStateCursorY

def Screen.attributes (s : Screen) : Screen := { s with cell := fun _ _ => ⟨0, 0, 0⟩ }

def FbContext.storage (fb : FbContext) : FbContext :=
  { fb with
    textFg := 0
    textBg := 0
    cursorX := 0
    cursorY := 0
    savedStateTextFg := 0
    savedStateTextBg := 0
    savedStateCursorX := 0
    savedStateCursorY := 0 }

/-- The framebuffer and its queue stand for a plain screen. `before` is the memory that
the framebuffer's pixels were first drawn over. -/
structure Represents (rows cols : Nat) (d : Display) (before : Nat → UInt32) (fb : FbContext)
    (s : Screen) : Prop where
  disp : fb.disp = d
  queued : Queued rows cols fb
  shown : ∃ drawn, Shown rows cols before fb drawn
  cell : ∀ {x y}, x < cols → y < rows → fb.charAt (y * cols + x) = s.cell x y
  attributes : fb.attributes = s.attributes

variable {rows cols : Nat} {d : Display} {before : Nat → UInt32} {ctx : Context}
variable {fb fb' : FbContext} {s : Screen}

namespace Represents

/-! ### Reading -/

theorem cursorX (rep : Represents rows cols d before fb s) : fb.cursorX = s.cursorX :=
  congrArg Screen.cursorX rep.attributes

theorem cursorY (rep : Represents rows cols d before fb s) : fb.cursorY = s.cursorY :=
  congrArg Screen.cursorY rep.attributes

theorem textFg (rep : Represents rows cols d before fb s) : fb.textFg = s.textFg :=
  congrArg Screen.textFg rep.attributes

theorem textBg (rep : Represents rows cols d before fb s) : fb.textBg = s.textBg :=
  congrArg Screen.textBg rep.attributes

theorem empty (rep : Represents rows cols d before fb s) : fb.empty = s.empty := by
  rw [FbContext.empty, Screen.empty, rep.textFg, rep.textBg]

/-! ### Writing -/

theorem leaves (rep : Represents rows cols d before fb s) {cells : Nat → FbChar}
    (step : Leaves rows cols fb fb' cells) {cell : Nat → Nat → FbChar}
    (same : ∀ {x y}, x < cols → y < rows → cells (y * cols + x) = cell x y) :
    Represents rows cols d before fb' { s with cell := cell } where
  disp := (step.kept.field (·.disp) fun _ => rfl).trans rep.disp
  queued := step.kept.queued
  shown := by
    obtain ⟨drawn, shown⟩ := rep.shown
    exact ⟨drawn, shown.kept step.kept⟩
  cell inRow inCol := (step.cells _).trans (same inRow inCol)
  attributes := (step.kept.field (·.attributes) fun _ => rfl).trans rep.attributes

theorem assign (rep : Represents rows cols d before fb s) (stored : fb'.storage = fb.storage)
    {s' : Screen} (cells : s'.cell = s.cell) (attributes : fb'.attributes = s'.attributes) :
    Represents rows cols d before fb' s' := by
  have same : ∀ {α : Sort _} (f : FbContext → α), (∀ fb, f fb.storage = f fb) → f fb' = f fb := by
    intro α f stays
    rw [← stays fb', stored, stays fb]
  have disp := same (·.disp) fun _ => rfl
  have buffer := same (·.buffer cols) fun _ => rfl
  have queue := same (·.queue) fun _ => rfl
  have queueI := same (·.queueI) fun _ => rfl
  have fault := same (·.fault) fun _ => rfl
  have charAt := same (·.charAt) fun _ => rfl
  have shown := same (fun fb => ∃ drawn, Shown rows cols before fb drawn) fun fb =>
    propext ⟨fun ⟨drawn, shown⟩ => ⟨drawn, shown.draws, shown.settled⟩,
      fun ⟨drawn, shown⟩ => ⟨drawn, shown.draws, shown.settled⟩⟩
  refine ⟨disp.trans rep.disp, ⟨?_, ?_, ?_, ?_⟩, shown.mpr rep.shown, fun {x y} inRow inCol => ?_,
    attributes⟩
  · rw [buffer]
    exact rep.queued.valid
  · rw [queueI, queue]
    exact rep.queued.inRow
  · rw [queueI, queue]
    exact rep.queued.inCol
  · exact fault.trans rep.queued.noFault
  · rw [charAt, cells]
    exact rep.cell inRow inCol

theorem recolour (rep : Represents rows cols d before fb s) (f : Screen → Screen)
    (stored : fb'.storage = fb.storage) (cells : ∀ s, (f s).cell = s.cell)
    (attributes : fb'.attributes = f fb.attributes)
    (both : ∀ s, (f s).attributes = f s.attributes) :
    Represents rows cols d before fb' (f s) :=
  rep.assign stored (cells s) (by rw [attributes, both, rep.attributes])

theorem touch (rep : Represents rows cols d before fb s) {inside : Bool} (true_ : inside = true) :
    Represents rows cols d before (fb.touch inside) s := by
  obtain ⟨drawn, shown⟩ := rep.shown
  have kept := touch_kept rep.queued true_
  exact ⟨rep.disp, kept.queued, ⟨drawn, shown.kept kept⟩, rep.cell, rep.attributes⟩

end Represents

/-! ### Cells and places -/

theorem row_start_le {x : Nat} (inRow : x < cols) (row y : Nat) :
    row * cols ≤ y * cols + x ↔ row ≤ y := by
  constructor
  · intro below
    by_contra above
    have : (y + 1) * cols ≤ row * cols := Nat.mul_le_mul_right _ (by omega)
    rw [Nat.add_mul, Nat.one_mul] at this
    omega
  · intro below
    exact le_trans (Nat.mul_le_mul_right _ below) (Nat.le_add_right _ _)

theorem lt_row_start {x : Nat} (inRow : x < cols) (row y : Nat) :
    y * cols + x < row * cols ↔ y < row := by
  rw [← not_le, row_start_le inRow, not_le]

theorem rowFilled_place {x y row : Nat} (inRow : x < cols) (c : FbChar) (cells : Nat → FbChar) :
    rowFilled cols row cols c cells (y * cols + x) =
      if y = row then c else cells (y * cols + x) := by
  have next := lt_row_start inRow (row + 1) y
  rw [Nat.add_mul, Nat.one_mul] at next
  have start := row_start_le inRow row y
  rw [rowFilled]
  refine if_congr ?_ rfl rfl
  rw [start, next]
  omega

theorem movedUp_place {x y top bottom : Nat} (inRow : x < cols) (cells : Nat → FbChar) :
    movedUp cols ((top + 1) * cols) (bottom * cols - (top + 1) * cols) cells (y * cols + x) =
      if top ≤ y ∧ y + 1 < bottom then cells ((y + 1) * cols + x) else cells (y * cols + x) := by
  have below := row_start_le inRow (top + 1) (y + 1)
  have above := lt_row_start inRow bottom (y + 1)
  rw [Nat.add_mul y, Nat.one_mul] at below above ⊢
  rw [movedUp, show y * cols + x + cols = y * cols + cols + x by omega]
  refine if_congr ?_ rfl rfl
  rw [below]
  constructor
  · rintro ⟨inTop, inBottom⟩
    have := below.mpr inTop
    exact ⟨by omega, above.mp (by omega)⟩
  · rintro ⟨inTop, inBottom⟩
    have := below.mpr (by omega)
    have := above.mpr inBottom
    omega

theorem movedDown_place {x y top bottom : Nat} (inRow : x < cols) (cells : Nat → FbChar) :
    movedDown cols (top * cols) ((bottom - 1) * cols - top * cols) cells (y * cols + x) =
      if top < y ∧ y < bottom then cells ((y - 1) * cols + x) else cells (y * cols + x) := by
  have below := row_start_le inRow (top + 1) y
  have above := lt_row_start inRow (bottom - 1 + 1) y
  rw [Nat.add_mul, Nat.one_mul] at below above
  unfold movedDown
  by_cases inside : top < y ∧ y < bottom
  · have := below.mpr inside.1
    have := above.mpr (by omega)
    rw [if_pos inside, if_pos (by omega)]
    have row : (y - 1 + 1) * cols = y * cols := by rw [Nat.sub_add_cancel (by omega)]
    rw [Nat.add_mul, Nat.one_mul] at row
    exact congrArg cells (by omega)
  · rw [if_neg inside, if_neg]
    rintro ⟨inTop, inBottom⟩
    exact inside ⟨below.mp inTop, by have := above.mp (by omega); omega⟩

/-! ### The functions of the backend -/

variable (onScreen : OnScreen rows cols ctx) (rep : Represents rows cols d before fb s)

include onScreen rep

theorem push_represents (c : FbChar) (x y : Nat) :
    Represents rows cols d before (fb.pushToQueue ctx c x y) (s.put ctx c x y) := by
  unfold Screen.put
  by_cases outside : x ≥ ctx.cols ∨ y ≥ ctx.rows
  · rw [FbContext.pushToQueue, if_pos outside, if_pos outside]
    exact rep
  · rw [if_neg outside]
    rw [onScreen.sameCols, onScreen.sameRows] at outside
    have inRow : x < cols := by omega
    have inCol : y < rows := by omega
    refine rep.leaves (push_leaves onScreen rep.queued c inRow inCol) fun {x' y'} inRow' inCol' => ?_
    rw [Function.update_apply, rep.cell inRow' inCol']
    exact if_congr (cell_number inRow' inRow) rfl rfl

theorem scroll_represents :
    Represents rows cols d before (fb.scroll ctx) (s.scroll ctx) := by
  refine rep.leaves (scroll_leaves onScreen rep.queued) fun {x y} inRow inCol => ?_
  have someBottom := onScreen.someBottom
  rw [rowFilled_place inRow, movedUp_place inRow, rep.empty]
  by_cases last : y + 1 = ctx.scrollBottomMargin
  · rw [if_pos (by omega), if_pos last]
  · rw [if_neg (by omega), if_neg last]
    by_cases inside : ctx.scrollTopMargin ≤ y ∧ y + 1 < ctx.scrollBottomMargin
    · have bottom := onScreen.bottom
      rw [if_pos inside, if_pos (by omega), rep.cell inRow (by omega)]
    · rw [if_neg inside, if_neg (by omega), rep.cell inRow inCol]

theorem revscroll_represents :
    Represents rows cols d before (fb.revscroll ctx) (s.revscroll ctx) := by
  refine rep.leaves (revscroll_leaves onScreen rep.queued) fun {x y} inRow inCol => ?_
  rw [rowFilled_place inRow, movedDown_place inRow, rep.empty]
  by_cases first : y = ctx.scrollTopMargin
  · rw [if_pos first, if_pos first]
  · rw [if_neg first, if_neg first]
    by_cases inside : ctx.scrollTopMargin < y ∧ y < ctx.scrollBottomMargin
    · rw [if_pos inside, if_pos inside, rep.cell inRow (by omega)]
    · rw [if_neg inside, if_neg inside, rep.cell inRow inCol]

theorem clear_represents (move : Bool) :
    Represents rows cols d before (fb.clear move ctx) (s.clear move ctx) := by
  have blanks : ∀ {x y}, x < cols → y < rows →
      (if y * cols + x < rows * cols then fb.empty else fb.charAt (y * cols + x)) = s.empty :=
    fun {x y} inRow inCol => by rw [if_pos (place_lt inRow inCol), rep.empty]
  have cleared := rep.leaves (clear_leaves onScreen rep.queued fb.empty (rows * cols) le_rfl) blanks
  unfold FbContext.clear Screen.clear
  simp only [onScreen.sameRows, onScreen.sameCols]
  cases move with
  | false => exact cleared
  | true =>
      exact cleared.recolour (fun s => { s with cursorX := 0, cursorY := 0 }) rfl (fun _ => rfl) rfl
        fun _ => rfl

omit onScreen in
theorem setCursorPos_represents (x y : Nat) :
    Represents rows cols d before (fb.setCursorPos x y ctx) (s.setCursorPos x y ctx) :=
  rep.recolour (Screen.setCursorPos x y ctx) rfl (fun _ => rfl) rfl fun _ => rfl

theorem getCursorPos_represents : fb.getCursorPos ctx = s.getCursorPos ctx := by
  have someRow := onScreen.someRow
  have someCol := onScreen.someCol
  unfold FbContext.getCursorPos Screen.getCursorPos
  rw [rep.cursorX, rep.cursorY, onScreen.sameRows, onScreen.sameCols]
  refine Prod.ext ?_ ?_
  · dsimp only
    split_ifs <;> omega
  · dsimp only
    split_ifs <;> omega

theorem moveCharacter_represents (newX newY oldX oldY : Nat) :
    Represents rows cols d before (fb.moveCharacter newX newY oldX oldY ctx)
      (s.moveCharacter newX newY oldX oldY ctx) := by
  unfold FbContext.moveCharacter Screen.moveCharacter
  by_cases source : oldX ≥ ctx.cols ∨ oldY ≥ ctx.rows
  · rw [if_pos (by omega), if_pos source]
    exact rep
  · rw [if_neg source]
    by_cases target : newX ≥ ctx.cols ∨ newY ≥ ctx.rows
    · rw [if_pos (by omega), Screen.put, if_pos target]
      exact rep
    · rw [if_neg (by omega)]
      have character : fb.charAt (oldX + oldY * ctx.cols) = s.cell oldX oldY := by
        rw [onScreen.sameCols, onScreen.sameRows] at source
        rw [onScreen.sameCols, Nat.add_comm oldX]
        exact rep.cell (by omega) (by omega)
      rw [character]
      exact push_represents onScreen rep _ newX newY

theorem wrap_represents : Represents rows cols d before (fb.wrap ctx) (s.wrap ctx) := by
  unfold FbContext.wrap Screen.wrap
  rw [rep.cursorX, rep.cursorY]
  by_cases full : s.cursorX ≥ ctx.cols ∧
      (s.cursorY < ctx.scrollBottomMargin - 1 ∨ ctx.scrollEnabled = true)
  · rw [if_pos full, if_pos full]
    have place : ∀ {fb s}, Represents rows cols d before fb s → ∀ x y,
        Represents rows cols d before { fb with cursorX := x, cursorY := y }
          { s with cursorX := x, cursorY := y } := fun rep x y =>
      rep.recolour (fun s => { s with cursorX := x, cursorY := y }) rfl (fun _ => rfl) rfl
        fun _ => rfl
    have lowered : Represents rows cols d before
        (if add64 s.cursorY 1 = ctx.scrollBottomMargin then
          FbContext.scroll ctx
            { fb with cursorX := 0, cursorY := add64 s.cursorY 1 - 1 }
        else { fb with cursorX := 0, cursorY := add64 s.cursorY 1 })
        (if add64 s.cursorY 1 = ctx.scrollBottomMargin then
          Screen.scroll ctx { s with cursorX := 0, cursorY := add64 s.cursorY 1 - 1 }
        else { s with cursorX := 0, cursorY := add64 s.cursorY 1 }) := by
      split_ifs
      · exact scroll_represents onScreen (place rep _ _)
      · exact place rep _ _
    dsimp only
    generalize (if add64 s.cursorY 1 = ctx.scrollBottomMargin then
      FbContext.scroll ctx { fb with cursorX := 0, cursorY := add64 s.cursorY 1 - 1 }
      else { fb with cursorX := 0, cursorY := add64 s.cursorY 1 }) = fb₁ at lowered ⊢
    generalize (if add64 s.cursorY 1 = ctx.scrollBottomMargin then
      Screen.scroll ctx { s with cursorX := 0, cursorY := add64 s.cursorY 1 - 1 }
      else { s with cursorX := 0, cursorY := add64 s.cursorY 1 }) = s₁ at lowered ⊢
    rw [lowered.cursorY]
    split_ifs
    · exact lowered.recolour (fun s => { s with cursorY := ctx.cols - 1 }) rfl (fun _ => rfl) rfl
        fun _ => rfl
    · exact lowered
  · rw [if_neg full, if_neg full]
    exact rep

theorem rawPutchar_represents (c : UInt8) :
    Represents rows cols d before (fb.rawPutchar c ctx) (s.rawPutchar c ctx) := by
  have wrapped := wrap_represents onScreen rep
  unfold FbContext.rawPutchar Screen.rawPutchar
  dsimp only
  generalize fb.wrap ctx = fb at wrapped ⊢
  generalize s.wrap ctx = s at wrapped ⊢
  have moved : Represents rows cols d before { fb with cursorX := add64 fb.cursorX 1 }
      { s with cursorX := add64 s.cursorX 1 } := by
    rw [wrapped.cursorX]
    exact wrapped.recolour (fun s' => { s' with cursorX := add64 s.cursorX 1 }) rfl (fun _ => rfl) rfl
      fun _ => rfl
  have character : (⟨c, fb.textFg, fb.textBg⟩ : FbChar) = ⟨c, s.textFg, s.textBg⟩ := by
    rw [wrapped.textFg, wrapped.textBg]
  rw [character]
  rw [wrapped.cursorX, wrapped.cursorY] at moved ⊢
  exact push_represents onScreen moved _ _ _

theorem flush_represents (fits : d.Fits rows cols) :
    Represents rows cols d before (fb.doubleBufferFlush ctx) s := by
  obtain ⟨drawn, shown⟩ := rep.shown
  obtain ⟨drawn', flushed⟩ := doubleBufferFlush_flushed (rep.disp ▸ fits) onScreen rep.queued shown
  have frame := flushed.frame
  refine ⟨?_, flushed.queued, ⟨drawn', flushed.shown⟩, fun inRow inCol => ?_, ?_⟩
  · exact (congrArg FbContext.disp frame).trans rep.disp
  · rw [flushed.cells]
    exact rep.cell inRow inCol
  · exact (congrArg FbContext.attributes frame).trans rep.attributes

omit onScreen rep in
theorem Represents.table (rep : Represents rows cols d before fb s) {n : Nat} (colour : n < 8) :
    Represents rows cols d before (fb.touch (n < 8)) s :=
  rep.touch (decide_eq_true colour)

omit onScreen rep in
theorem fb_simulates (rows cols : Nat) (before : Nat → UInt32) (fits : d.Fits rows cols) :
    Simulates rows cols (Represents rows cols d before) fbBackend (screenBackend d) where
  rawPutchar c onScreen rep := rawPutchar_represents onScreen rep c
  clear move onScreen rep := clear_represents onScreen rep move
  setCursorPos x y _ rep := setCursorPos_represents rep x y
  getCursorPos onScreen rep := getCursorPos_represents onScreen rep
  cursorX {ctx fb _} onScreen _ := by
    have someCol := onScreen.someCol
    change (fb.getCursorPos ctx).1 < cols
    rw [FbContext.getCursorPos, onScreen.sameCols]
    dsimp only
    split_ifs <;> omega
  cursorY {ctx fb _} onScreen _ := by
    have someRow := onScreen.someRow
    change (fb.getCursorPos ctx).2 < rows
    rw [FbContext.getCursorPos, onScreen.sameRows]
    dsimp only
    split_ifs <;> omega
  setTextFg fg colour rep := (rep.table colour).recolour
    (fun s => { s with textFg := d.ansiColours.getD fg 0 }) rfl (fun _ => rfl)
    (by rw [← rep.disp]; rfl) fun _ => rfl
  setTextBg bg colour rep := (rep.table colour).recolour
    (fun s => { s with textBg := d.ansiColours.getD bg 0 }) rfl (fun _ => rfl)
    (by rw [← rep.disp]; rfl) fun _ => rfl
  setTextFgBright fg colour rep := (rep.table colour).recolour
    (fun s => { s with textFg := d.ansiBrightColours.getD fg 0 }) rfl (fun _ => rfl)
    (by rw [← rep.disp]; rfl) fun _ => rfl
  setTextBgBright bg colour rep := (rep.table colour).recolour
    (fun s => { s with textBg := d.ansiBrightColours.getD bg 0 }) rfl (fun _ => rfl)
    (by rw [← rep.disp]; rfl) fun _ => rfl
  setTextFgRgb fg rep := rep.recolour (fun s => { s with textFg := convertColour d fg }) rfl
    (fun _ => rfl) (by rw [← rep.disp]; rfl) fun _ => rfl
  setTextBgRgb bg rep := rep.recolour (fun s => { s with textBg := convertColour d bg }) rfl
    (fun _ => rfl) (by rw [← rep.disp]; rfl) fun _ => rfl
  setTextFgDefault rep := rep.recolour (fun s => { s with textFg := d.defaultFg }) rfl
    (fun _ => rfl) (by rw [← rep.disp]; rfl) fun _ => rfl
  setTextBgDefault rep := rep.recolour (fun s => { s with textBg := transparent }) rfl
    (fun _ => rfl) rfl fun _ => rfl
  setTextFgDefaultBright rep := rep.recolour (fun s => { s with textFg := d.defaultFgBright }) rfl
    (fun _ => rfl) (by rw [← rep.disp]; rfl) fun _ => rfl
  setTextBgDefaultBright rep := rep.recolour (fun s => { s with textBg := d.defaultBgBright }) rfl
    (fun _ => rfl) (by rw [← rep.disp]; rfl) fun _ => rfl
  moveCharacter newX newY oldX oldY onScreen rep :=
    moveCharacter_represents onScreen rep newX newY oldX oldY
  scroll onScreen rep := scroll_represents onScreen rep
  revscroll onScreen rep := revscroll_represents onScreen rep
  swapPalette rep := rep.recolour (fun s => { s with textBg := s.textFg, textFg := s.textBg }) rfl
    (fun _ => rfl) rfl fun _ => rfl
  saveState {ctx _ _} rep := rep.recolour ((screenBackend d).saveState ctx) rfl (fun _ => rfl) rfl
    fun _ => rfl
  restoreState {ctx _ _} rep := rep.recolour ((screenBackend d).restoreState ctx) rfl (fun _ => rfl)
    rfl fun _ => rfl
  doubleBufferFlush onScreen rep := flush_represents onScreen rep fits

end Nyaux.Flanterm
