import Nyaux.Flanterm.Queue

/-! Flushing: after it the pixels show the cells, with the cursor's colours exchanged. -/

namespace Nyaux.Flanterm

open WriteBack

variable {rows cols : Nat} {ctx : Context} {fb : FbContext} {before : Nat → UInt32}
variable {drawn : Nat → Option FbChar}

def cellNumber (rows cols x y : Nat) : Option Nat :=
  if x < cols ∧ y < rows then some (y * cols + x) else none

def oldCell (rows cols : Nat) (fb : FbContext) : Option Nat :=
  cellNumber rows cols fb.oldCursorX fb.oldCursorY

def cursorCell (rows cols : Nat) (enabled : Bool) (fb : FbContext) : Option Nat :=
  if enabled then cellNumber rows cols fb.cursorX fb.cursorY else none

def displayed (cursor : Option Nat) (cells : Nat → FbChar) (i : Nat) : FbChar :=
  if cursor = some i then FbContext.invert (cells i) else cells i

/-- Between two flushes: a cell without an item shows what the grid holds, apart from the
cell where the cursor was drawn. -/
structure Shown (rows cols : Nat) (before : Nat → UInt32) (fb : FbContext)
    (drawn : Nat → Option FbChar) : Prop where
  draws : Draws fb.disp rows cols before drawn fb.memory
  settled : ∀ {i}, i < rows * cols → fb.map i = none → oldCell rows cols fb ≠ some i →
    drawn i = some (fb.grid i)

theorem Shown.kept {fb' : FbContext} (shown : Shown rows cols before fb drawn)
    (kept : Kept rows cols fb fb') : Shown rows cols before fb' drawn := by
  have disp := kept.field (·.disp) fun _ => rfl
  have memory := kept.field (·.memory) fun _ => rfl
  have grid := kept.field (·.grid) fun _ => rfl
  have old := kept.field (oldCell rows cols) fun _ => rfl
  refine ⟨by rw [disp, memory]; exact shown.draws, fun {i} cell free apart => ?_⟩
  rw [old] at apart
  rw [grid]
  exact shown.settled cell (kept.pending free) apart

structure Flushing (rows cols : Nat) (before : Nat → UInt32) (cursor : Option Nat)
    (fb : FbContext) (drawn : Nat → Option FbChar) : Prop where
  sparse : (fb.buffer cols).Sparse
  inRow : ∀ j < fb.queueI, (fb.queue j).x < cols
  inCol : ∀ j < fb.queueI, (fb.queue j).y < rows
  noFault : fb.fault = false
  draws : Draws fb.disp rows cols before drawn fb.memory
  settled : ∀ {i}, i < rows * cols → fb.map i = none → oldCell rows cols fb ≠ some i →
    cursor ≠ some i → drawn i = some (fb.grid i)
  cursor : ∀ {i}, cursor = some i →
    fb.map i = none ∧ drawn i = some (FbContext.invert (fb.grid i))

/-- What a flush leaves alone until its end. -/
def FbContext.frame (fb : FbContext) : FbContext :=
  { fb.rest with memory := fun _ => 0, grid := fun _ => ⟨0, 0, 0⟩ }

theorem plotChar_inside (onScreen : OnScreen rows cols ctx) (c : FbChar) {x y : Nat}
    (inRow : x < cols) (inCol : y < rows) :
    fb.plotChar ctx c x y =
      { fb with
        memory := plotGlyph fb.disp c (fb.disp.offsetX + x * fb.disp.glyphWidth)
          (fb.disp.offsetY + y * fb.disp.glyphHeight) fb.memory } := by
  unfold FbContext.plotChar
  rw [onScreen.sameCols, onScreen.sameRows, if_neg (by omega)]

theorem settle_buffer (cols i : Nat) (fb : FbContext) :
    (fb.settle i).buffer cols = (fb.buffer cols).settle i := by
  unfold FbContext.settle Buffer.settle
  cases slot : fb.map i with
  | some q =>
      have here : (fb.buffer cols).slot i = some q := slot
      rw [here]
      rfl
  | none =>
      have here : (fb.buffer cols).slot i = none := slot
      rw [here]

theorem settle_eq (cols i : Nat) (fb : FbContext) :
    fb.settle i =
      { fb with
        grid := ((fb.buffer cols).settle i).base
        map := ((fb.buffer cols).settle i).slot } := by
  rw [← settle_buffer]
  unfold FbContext.settle
  cases fb.map i <;> rfl

theorem Flushing.plot (fits : fb.disp.Fits rows cols) {cursor cursor' : Option Nat} {x y : Nat}
    {c : FbChar} (flushing : Flushing rows cols before cursor fb drawn) (inRow : x < cols)
    (inCol : y < rows)
    (kind : (cursor' = cursor ∧ cursor ≠ some (y * cols + x) ∧ c = fb.charAt (y * cols + x)) ∨
      (cursor = none ∧ cursor' = some (y * cols + x) ∧
        c = FbContext.invert (fb.charAt (y * cols + x)))) :
    Flushing rows cols before cursor'
      (FbContext.settle (y * cols + x)
        { fb with
          memory := plotGlyph fb.disp c (fb.disp.offsetX + x * fb.disp.glyphWidth)
            (fb.disp.offsetY + y * fb.disp.glyphHeight) fb.memory })
      (Function.update drawn (y * cols + x) (some c)) := by
  have draws := flushing.draws.plot fits inRow inCol c
  generalize plotGlyph fb.disp c (fb.disp.offsetX + x * fb.disp.glyphWidth)
    (fb.disp.offsetY + y * fb.disp.glyphHeight) fb.memory = memory at draws
  generalize y * cols + x = n at *
  have sparse : ((FbContext.settle n { fb with memory := memory }).buffer cols).Sparse := by
    rw [settle_buffer]
    exact Buffer.settle_sparse flushing.sparse n
  rw [settle_eq cols] at sparse ⊢
  have grid := fun i => Buffer.settle_base n i (fb.buffer cols)
  have map := fun i => Buffer.settle_slot n i (fb.buffer cols)
  rw [charAt_eq fb cols] at kind
  refine ⟨sparse, flushing.inRow, flushing.inCol, flushing.noFault, draws,
    fun {i} cell free apart other => ?_, fun {i} here => ?_⟩
  · have free := (map i).symm.trans free
    refine Eq.trans ?_ (congrArg some (grid i)).symm
    rw [Function.update_apply]
    rcases kind with ⟨rfl, _, rfl⟩ | ⟨rfl, rfl, rfl⟩
    · split_ifs at free ⊢ with target
      · rfl
      · exact flushing.settled cell free apart other
    · have target : i ≠ n := fun same => other (congrArg some same.symm)
      rw [if_neg target] at free
      rw [if_neg target, if_neg target]
      exact flushing.settled cell free apart nofun
  · rcases kind with ⟨rfl, elsewhere, rfl⟩ | ⟨rfl, rfl, rfl⟩
    · have target : i ≠ n := fun same => elsewhere (here.trans (congrArg some same))
      obtain ⟨free, inverted⟩ := flushing.cursor here
      refine ⟨(map i).trans ?_, ?_⟩
      · rw [if_neg target]
        exact free
      · rw [Function.update_of_ne target, inverted]
        refine congrArg (fun c => some (FbContext.invert c)) ((grid i).trans ?_).symm
        rw [if_neg target]
        rfl
    · cases here
      refine ⟨(map n).trans (if_pos rfl), ?_⟩
      rw [Function.update_self]
      exact congrArg (fun c => some (FbContext.invert c)) ((grid n).trans (if_pos rfl)).symm

theorem Shown.flushing (queued : Queued rows cols fb) (shown : Shown rows cols before fb drawn) :
    Flushing rows cols before none fb drawn where
  sparse := queued.valid.sparse
  inRow := queued.inRow
  inCol := queued.inCol
  noFault := queued.noFault
  draws := shown.draws
  settled cell free apart _ := shown.settled cell free apart
  cursor := nofun

structure FlushStep (cols : Nat) (fb fb' : FbContext) (b : Buffer Nat FbChar) : Prop where
  buffer : fb'.buffer cols = b
  frame : fb'.frame = fb.frame

theorem settle_frame (i : Nat) (fb : FbContext) : (fb.settle i).frame = fb.frame := by
  unfold FbContext.settle
  cases fb.map i <;> rfl

theorem frame_field {fb fb' : FbContext} {α : Sort _} (same : fb'.frame = fb.frame)
    (f : FbContext → α) (outside : ∀ fb, f fb.frame = f fb) : f fb' = f fb := by
  rw [← outside fb', same, outside fb]

theorem drawCursor_flushing (fits : fb.disp.Fits rows cols) (onScreen : OnScreen rows cols ctx)
    (flushing : Flushing rows cols before none fb drawn) :
    ∃ drawn' b, Flushing rows cols before (cursorCell rows cols true fb) (fb.drawCursor ctx) drawn' ∧
      FlushStep cols fb (fb.drawCursor ctx) b ∧ b.value = (fb.buffer cols).value ∧
      b.used = fb.queueI := by
  unfold FbContext.drawCursor cursorCell cellNumber
  rw [onScreen.sameCols, onScreen.sameRows, if_pos rfl]
  by_cases inside : fb.cursorX < cols ∧ fb.cursorY < rows
  · obtain ⟨inRow, inCol⟩ := inside
    rw [if_pos (show fb.cursorX < cols ∧ fb.cursorY < rows from ⟨inRow, inCol⟩),
      if_neg (show ¬(fb.cursorX ≥ cols ∨ fb.cursorY ≥ rows) by omega), Nat.add_comm fb.cursorX]
    dsimp only
    rw [plotChar_inside onScreen _ inRow inCol]
    exact ⟨_, _, flushing.plot fits inRow inCol (.inr ⟨rfl, rfl, rfl⟩),
      ⟨settle_buffer cols _ _, settle_frame _ _⟩, Buffer.settle_value _ _, Buffer.settle_used _ _⟩
  · rw [if_neg inside, if_pos (show fb.cursorX ≥ cols ∨ fb.cursorY ≥ rows by omega)]
    exact ⟨drawn, _, flushing, ⟨rfl, rfl⟩, rfl, rfl⟩

theorem flushItem_flushing (fits : fb.disp.Fits rows cols) (onScreen : OnScreen rows cols ctx)
    {cursor : Option Nat} (flushing : Flushing rows cols before cursor fb drawn) {j : Nat}
    (used : j < fb.queueI) :
    ∃ drawn', Flushing rows cols before cursor (fb.flushItem ctx j) drawn' ∧
      FlushStep cols fb (fb.flushItem ctx j)
        ((fb.buffer cols).settle ((fb.buffer cols).log j).1) := by
  have inRow := flushing.inRow j used
  have inCol := flushing.inCol j used
  have inside := place_lt inRow inCol
  have touched : fb.touch ((fb.queue j).y * cols + (fb.queue j).x < rows * cols) = fb := by
    simp [FbContext.touch, inside]
  unfold FbContext.flushItem
  rw [onScreen.sameCols, onScreen.sameRows]
  dsimp only
  rw [touched]
  have settled : (fb.buffer cols).settle ((fb.buffer cols).log j).1 =
      (fb.settle ((fb.queue j).y * cols + (fb.queue j).x)).buffer cols :=
    (settle_buffer cols _ fb).symm
  rw [settled]
  cases slot : fb.map ((fb.queue j).y * cols + (fb.queue j).x) with
  | none =>
      refine ⟨drawn, flushing, ⟨?_, rfl⟩⟩
      rw [FbContext.settle, slot]
  | some q =>
      have own := flushing.sparse.slotted slot
      have same : q = j := flushing.sparse.distinct q own.1 j used own.2
      rw [same] at slot
      have character : fb.charAt ((fb.queue j).y * cols + (fb.queue j).x) = (fb.queue j).c := by
        rw [FbContext.charAt, slot]
      have elsewhere : cursor ≠ some ((fb.queue j).y * cols + (fb.queue j).x) := by
        intro here
        rw [(flushing.cursor here).1] at slot
        cases slot
      have plotted := flushing.plot fits inRow inCol (.inl ⟨rfl, elsewhere, character.symm⟩)
      dsimp only
      rw [plotChar_inside onScreen _ inRow inCol]
      simp only [FbContext.settle, slot] at plotted ⊢
      exact ⟨_, plotted, ⟨rfl, rfl⟩⟩

theorem flushItems_flushing (fits : fb.disp.Fits rows cols) (onScreen : OnScreen rows cols ctx)
    {cursor : Option Nat} (flushing : Flushing rows cols before cursor fb drawn) :
    ∀ n ≤ fb.queueI, ∃ drawn',
      Flushing rows cols before cursor ((List.range n).foldl (FbContext.flushItem ctx) fb) drawn' ∧
        FlushStep cols fb ((List.range n).foldl (FbContext.flushItem ctx) fb)
          ((fb.buffer cols).drain n) := by
  intro n
  induction n with
  | zero =>
      intro _
      exact ⟨drawn, flushing, ⟨rfl, rfl⟩⟩
  | succ n ih =>
      intro inside
      obtain ⟨_, reached, step⟩ := ih (by omega)
      have disp := frame_field step.frame (·.disp) fun _ => rfl
      have used : ((List.range n).foldl (FbContext.flushItem ctx) fb).queueI = fb.queueI := by
        have := congrArg Buffer.used step.buffer
        rw [Buffer.drain_used] at this
        exact this
      rw [List.range_succ, List.foldl_append]
      obtain ⟨drawn', last, lastStep⟩ := flushItem_flushing (by rw [disp]; exact fits) onScreen
        reached (show n < _ by rw [used]; omega)
      refine ⟨drawn', last, ?_, lastStep.frame.trans step.frame⟩
      rw [Buffer.drain_succ, ← step.buffer]
      exact lastStep.buffer

/-- With the queue drained: every cell but the cursor's, and the one where the cursor was,
shows what it is to hold. -/
theorem drained_flushing (fits : fb.disp.Fits rows cols) (onScreen : OnScreen rows cols ctx)
    (queued : Queued rows cols fb) (shown : Shown rows cols before fb drawn) :
    ∃ fb' drawn', (List.range (if ctx.cursorEnabled then fb.drawCursor ctx else fb).queueI).foldl
        (FbContext.flushItem ctx) (if ctx.cursorEnabled then fb.drawCursor ctx else fb) = fb' ∧
      Flushing rows cols before (cursorCell rows cols ctx.cursorEnabled fb) fb' drawn' ∧
      fb'.frame = fb.frame ∧ (∀ i, fb'.map i = none) ∧ fb'.grid = fb.charAt := by
  have first : ∃ drawn' b,
      Flushing rows cols before (cursorCell rows cols ctx.cursorEnabled fb)
        (if ctx.cursorEnabled then fb.drawCursor ctx else fb) drawn' ∧
      FlushStep cols fb (if ctx.cursorEnabled then fb.drawCursor ctx else fb) b ∧
      b.value = (fb.buffer cols).value ∧ b.used = fb.queueI := by
    cases ctx.cursorEnabled with
    | true => exact drawCursor_flushing fits onScreen (shown.flushing queued)
    | false => exact ⟨drawn, _, shown.flushing queued, ⟨rfl, rfl⟩, rfl, rfl⟩
  obtain ⟨drawn₁, b, flushing₁, step₁, value, used⟩ := first
  generalize (if ctx.cursorEnabled then fb.drawCursor ctx else fb) = fb₁ at flushing₁ step₁ ⊢
  have disp := frame_field step₁.frame (·.disp) fun _ => rfl
  obtain ⟨drawn₂, flushing₂, step₂⟩ :=
    flushItems_flushing (by rw [disp]; exact fits) onScreen flushing₁ fb₁.queueI le_rfl
  have all := Buffer.drain_all flushing₁.sparse
  refine ⟨_, drawn₂, rfl, flushing₂, step₂.frame.trans step₁.frame, fun i => ?_, funext fun i => ?_⟩
  · have slot := congrArg (fun b : Buffer Nat FbChar => b.slot i) step₂.buffer
    exact slot.trans (all i).1
  · have base := congrArg (fun b : Buffer Nat FbChar => b.base i) step₂.buffer
    refine (base.trans (all i).2).trans ?_
    rw [step₁.buffer, value, charAt_eq fb cols]

theorem replotOldCursor_draws (fits : fb.disp.Fits rows cols) (onScreen : OnScreen rows cols ctx)
    (free : ∀ i, fb.map i = none)
    (flushing : Flushing rows cols before (cursorCell rows cols ctx.cursorEnabled fb) fb drawn) :
    ∃ memory drawn', fb.replotOldCursor ctx = { fb with memory := memory } ∧
      Draws fb.disp rows cols before drawn' memory ∧
      ∀ i < rows * cols,
        drawn' i = some (displayed (cursorCell rows cols ctx.cursorEnabled fb) fb.grid i) := by
  have other : ∀ {i}, i < rows * cols → oldCell rows cols fb ≠ some i →
      drawn i = some (displayed (cursorCell rows cols ctx.cursorEnabled fb) fb.grid i) := by
    intro i cell apart
    unfold displayed
    split_ifs with here
    · exact (flushing.cursor here).2
    · exact flushing.settled cell (free i) apart here
  unfold FbContext.replotOldCursor
  rw [onScreen.sameCols, onScreen.sameRows]
  split_ifs with moved inside
  · obtain ⟨inRow, inCol⟩ := inside
    rw [plotChar_inside onScreen _ inRow inCol, Nat.add_comm fb.oldCursorX]
    refine ⟨_, _, rfl, flushing.draws.plot fits inRow inCol _, fun i cell => ?_⟩
    rw [Function.update_apply]
    split_ifs with target
    · have elsewhere : cursorCell rows cols ctx.cursorEnabled fb ≠ some i := by
        unfold cursorCell cellNumber
        split_ifs with enabled onScreen
        · intro same
          have number := (Option.some.inj same).trans target
          obtain ⟨sameX, sameY⟩ := (cell_number onScreen.1 inRow).mp number
          rcases moved with (movedX | movedY) | disabled
          · exact movedX sameX.symm
          · exact movedY sameY.symm
          · exact absurd enabled (by rw [disabled]; exact Bool.false_ne_true)
        · nofun
        · nofun
      rw [displayed, if_neg elsewhere, target]
    · refine other cell ?_
      rw [oldCell, cellNumber, if_pos ⟨inRow, inCol⟩]
      exact fun same => target (Option.some.inj same).symm
  · refine ⟨fb.memory, drawn, rfl, flushing.draws, fun i cell => other cell ?_⟩
    rw [oldCell, cellNumber, if_neg inside]
    nofun
  · refine ⟨fb.memory, drawn, rfl, flushing.draws, fun i cell => ?_⟩
    have same : fb.oldCursorX = fb.cursorX ∧ fb.oldCursorY = fb.cursorY := by
      by_contra differ
      exact moved (.inl (by omega))
    have enabled : ctx.cursorEnabled = true := by
      by_contra disabled
      exact moved (.inr (Bool.eq_false_iff.mpr disabled))
    by_cases here : oldCell rows cols fb = some i
    · have cursor : cursorCell rows cols ctx.cursorEnabled fb = some i := by
        rw [cursorCell, enabled, if_pos rfl, ← same.1, ← same.2]
        exact here
      rw [displayed, if_pos cursor]
      exact (flushing.cursor cursor).2
    · exact other cell here

/-- After a flush: nothing is queued, the cells hold what they held, and every cell shows
that, with the cursor's colours exchanged. -/
structure Flushed (rows cols : Nat) (before : Nat → UInt32) (cursor : Option Nat)
    (fb fb' : FbContext) (drawn : Nat → Option FbChar) : Prop where
  queued : Queued rows cols fb'
  free : ∀ i, fb'.map i = none
  cells : fb'.charAt = fb.charAt
  draws : Draws fb.disp rows cols before drawn fb'.memory
  displays : ∀ i < rows * cols, drawn i = some (displayed cursor fb.charAt i)
  frame : fb'.frame = { fb.frame with oldCursorX := fb.cursorX, oldCursorY := fb.cursorY }

/-- `flanterm_fb_double_buffer_flush` -/
theorem doubleBufferFlush_flushed (fits : fb.disp.Fits rows cols)
    (onScreen : OnScreen rows cols ctx) (queued : Queued rows cols fb)
    (shown : Shown rows cols before fb drawn) :
    ∃ drawn', Flushed rows cols before (cursorCell rows cols ctx.cursorEnabled fb) fb
      (fb.doubleBufferFlush ctx) drawn' := by
  obtain ⟨fb', drawn', drained, flushing, frame, free, grid⟩ :=
    drained_flushing fits onScreen queued shown
  have disp := frame_field frame (·.disp) fun _ => rfl
  have cursor := frame_field frame (cursorCell rows cols ctx.cursorEnabled) fun _ => rfl
  have cursorX := frame_field frame (·.cursorX) fun _ => rfl
  have cursorY := frame_field frame (·.cursorY) fun _ => rfl
  obtain ⟨memory, drawn₂, replotted, draws, displays⟩ := replotOldCursor_draws
    (by rw [disp]; exact fits) onScreen free (by rw [cursor]; exact flushing)
  have flush : fb.doubleBufferFlush ctx =
      { fb' with
        memory := memory
        oldCursorX := fb'.cursorX
        oldCursorY := fb'.cursorY
        queueI := 0 } := by
    unfold FbContext.doubleBufferFlush
    dsimp only
    rw [drained, replotted]
  rw [cursor] at displays
  rw [disp] at draws
  rw [flush]
  refine ⟨drawn₂, ⟨⟨nofun, fun {i j} slot => ?_⟩, nofun, nofun, flushing.noFault⟩, free, ?_, draws,
    fun i cell => ?_, ?_⟩
  · exact absurd ((free i).symm.trans slot) nofun
  · funext i
    rw [FbContext.charAt]
    dsimp only
    rw [free i]
    exact congrFun grid i
  · rw [displays i cell, grid]
  · rw [← frame, ← cursorX, ← cursorY]
    rfl

theorem charAt_free {i : Nat} (free : fb.map i = none) : fb.charAt i = fb.grid i := by
  rw [FbContext.charAt, free]

theorem Flushed.shown {enabled : Bool} {fb' : FbContext}
    (flushed : Flushed rows cols before (cursorCell rows cols enabled fb) fb fb' drawn) :
    Shown rows cols before fb' drawn := by
  have disp : fb'.frame.disp = fb.disp := by rw [flushed.frame]; rfl
  have oldX : fb'.frame.oldCursorX = fb.cursorX := by rw [flushed.frame]
  have oldY : fb'.frame.oldCursorY = fb.cursorY := by rw [flushed.frame]
  change fb'.disp = fb.disp at disp
  change fb'.oldCursorX = fb.cursorX at oldX
  change fb'.oldCursorY = fb.cursorY at oldY
  refine ⟨by rw [disp]; exact flushed.draws, fun {i} cell free apart => ?_⟩
  rw [oldCell, oldX, oldY] at apart
  have elsewhere : cursorCell rows cols enabled fb ≠ some i := by
    unfold cursorCell
    split_ifs
    · exact apart
    · nofun
  rw [flushed.displays i cell, displayed, if_neg elsewhere, ← flushed.cells, charAt_free free]

/-! ### Drawing everything -/

/-- The loop of `full_refresh` over the grid. -/
theorem plotGrid_draws (fits : fb.disp.Fits rows cols) (onScreen : OnScreen rows cols ctx) :
    ∀ n ≤ rows * cols, ∃ memory drawn,
      (List.range n).foldl (fun fb i => fb.plotChar ctx (fb.grid i) (i % ctx.cols) (i / ctx.cols))
        { fb with memory := paintBackground fb.disp fb.memory } = { fb with memory := memory } ∧
      Draws fb.disp rows cols fb.memory drawn memory ∧ ∀ i < n, drawn i = some (fb.grid i) := by
  intro n
  induction n with
  | zero =>
      intro _
      exact ⟨_, _, rfl, paintBackground_draws fits fb.memory, nofun⟩
  | succ n ih =>
      intro inside
      obtain ⟨memory, drawn, reached, draws, shown⟩ := ih (by omega)
      have inRow := Nat.mod_lt n onScreen.someCol
      have inCol : n / cols < rows := by
        rw [Nat.div_lt_iff_lt_mul onScreen.someCol]
        omega
      rw [List.range_succ, List.foldl_append, reached, List.foldl_cons, List.foldl_nil,
        onScreen.sameCols, plotChar_inside onScreen _ inRow inCol]
      refine ⟨_, _, rfl, draws.plot fits inRow inCol (fb.grid n), fun i small => ?_⟩
      rw [Nat.div_add_mod', Function.update_apply]
      split_ifs with last
      · rw [last]
      · exact shown i (by omega)

/-- `flanterm_fb_full_refresh` with nothing queued: the background, every cell of the grid,
and the cursor. -/
theorem fullRefresh_draws (fits : fb.disp.Fits rows cols) (onScreen : OnScreen rows cols ctx)
    (free : ∀ i, fb.map i = none) :
    ∃ memory drawn, fb.fullRefresh ctx = { fb with memory := memory } ∧
      Draws fb.disp rows cols fb.memory drawn memory ∧
      ∀ i < rows * cols,
        drawn i = some (displayed (cursorCell rows cols ctx.cursorEnabled fb) fb.grid i) := by
  obtain ⟨memory, drawn, plotted, draws, shown⟩ := plotGrid_draws fits onScreen (rows * cols) le_rfl
  have settled : ∀ i memory, FbContext.settle i { fb with memory := memory } =
      { fb with memory := memory } := by
    intro i memory
    unfold FbContext.settle
    dsimp only
    rw [free i]
  unfold FbContext.fullRefresh
  rw [onScreen.sameRows]
  rw [onScreen.sameCols] at *
  rw [plotted]
  unfold cursorCell cellNumber FbContext.drawCursor
  rw [onScreen.sameRows, onScreen.sameCols]
  dsimp only
  cases ctx.cursorEnabled with
  | false => exact ⟨memory, drawn, rfl, draws, shown⟩
  | true =>
      rw [if_pos rfl, if_pos rfl]
      by_cases inside : fb.cursorX < cols ∧ fb.cursorY < rows
      · obtain ⟨inRow, inCol⟩ := inside
        rw [if_neg (show ¬(fb.cursorX ≥ cols ∨ fb.cursorY ≥ rows) by omega),
          if_pos (show fb.cursorX < cols ∧ fb.cursorY < rows from ⟨inRow, inCol⟩),
          Nat.add_comm fb.cursorX, plotChar_inside onScreen _ inRow inCol]
        dsimp only
        rw [settled]
        refine ⟨_, _, rfl, draws.plot fits inRow inCol _, fun i cell => ?_⟩
        rw [Function.update_apply, displayed]
        by_cases here : fb.cursorY * cols + fb.cursorX = i
        · rw [if_pos here.symm, if_pos (congrArg some here), ← here]
          refine congrArg (fun c => some (FbContext.invert c)) ?_
          exact @charAt_free { fb with memory := memory } _ (free _)
        · rw [if_neg (Ne.symm here), if_neg fun same => here (Option.some.inj same)]
          exact shown i cell
      · rw [if_pos (show fb.cursorX ≥ cols ∨ fb.cursorY ≥ rows by omega), if_neg inside]
        exact ⟨memory, drawn, rfl, draws, shown⟩

end Nyaux.Flanterm
