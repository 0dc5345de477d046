import Nyaux.Flanterm.Erase

/-! Characters that move within the cursor's row, and the cursor itself. -/

namespace Nyaux.Flanterm

open Word

variable {rows cols : Nat} {ctx : Context} {s s' : Screen} {d : Display} {t : Term Screen}

/-! ### Moving one character -/

theorem moveCharacter_cell (editing : Editing rows cols ctx) {source y : Nat} (inRow : source < cols)
    (inCol : y < rows) (target x' y' : Nat) (inRow' : x' < cols) :
    (s.moveCharacter target y source y ctx).cell x' y' =
      if x' = target ∧ y' = y then s.cell source y else s.cell x' y' := by
  unfold Screen.moveCharacter Screen.put
  rw [editing.sameCols, editing.sameRows, if_neg (by omega)]
  by_cases off : target ≥ cols ∨ y ≥ rows
  · rw [if_pos off, if_neg (by omega)]
  · rw [if_neg off]

theorem moveCharacter_frame (newX newY oldX oldY : Nat) (ctx : Context) (s : Screen) :
    (s.moveCharacter newX newY oldX oldY ctx).frame = s.frame := by
  unfold Screen.moveCharacter Screen.put
  split_ifs <;> rfl

/-! ### `P` -/

theorem pullLeft_run (editing : Editing rows cols ctx) {x y : Nat} (count : Nat) (inCol : y < rows) :
    ∀ n, x + count + n ≤ cols →
      ∃ s', (List.range' (x + count) n).foldl (fun (t : Term Screen) i =>
          t.act ((screenBackend d).moveCharacter (i - count) y i y)) ⟨ctx, s⟩ = ⟨ctx, s'⟩ ∧
        s'.frame = s.frame ∧ ∀ {x' y'}, x' < cols → s'.cell x' y' =
          if y' = y ∧ x ≤ x' ∧ x' < x + n then s.cell (x' + count) y else s.cell x' y' := by
  intro n
  induction n with
  | zero =>
      intro _
      refine ⟨s, rfl, rfl, fun {x' y'} _ => ?_⟩
      rw [if_neg (by omega)]
  | succ n ih =>
      intro inside
      obtain ⟨s₁, run, frame, cell⟩ := ih (by omega)
      have source : s₁.cell (x + count + n) y = s.cell (x + count + n) y := by
        rw [cell (by omega), if_neg (by omega)]
      refine ⟨s₁.moveCharacter (x + count + n - count) y (x + count + n) y ctx, ?_,
        (moveCharacter_frame _ _ _ _ ctx s₁).trans frame, fun {x' y'} inRow => ?_⟩
      · rw [List.range'_1_concat, List.foldl_append, run]
        rfl
      · rw [moveCharacter_cell editing (by omega) inCol _ _ _ inRow, source, cell inRow]
        by_cases target : x' = x + n ∧ y' = y
        · obtain ⟨rfl, rfl⟩ := target
          rw [if_pos (by omega), if_pos (by omega)]
          exact congrArg (s.cell · y') (by omega)
        · rw [if_neg (by omega)]
          refine if_congr ?_ rfl rfl
          omega

/-- The blanks at the end of the row, wherever the cursor is. Without any, the cursor would be set
behind the row. -/
theorem fillRow_run (editing : Editing rows cols ctx) {y count : Nat} (inCol : y < rows)
    (fits : count ≤ cols) :
    ∃ s', repeated count (putBlank (screenBackend d))
        ⟨ctx, s.setCursorPos (cols - count) y ctx⟩ = ⟨ctx, s'⟩ ∧
      Erased rows cols (y * cols + (cols - count)) count s s' := by
  rcases Nat.eq_zero_or_pos count with zero | some_
  · rw [zero]
    exact ⟨s.setCursorPos (cols - 0) y ctx, rfl, fun _ _ => (if_neg (by omega)).symm, rfl⟩
  · have word := editing.word
    obtain ⟨s', blanks, _, erased⟩ := At.blanks (d := d) (n := count) editing
      (s := { s with cursorX := cols - count, cursorY := y })
      (by dsimp only; omega) (at_cursor (by omega) inCol s) fun row above below =>
        (no_row_start (y := y) (by omega) (by rw [Nat.add_mul]; omega) above below).elim
    refine ⟨s', ?_, erased.before⟩
    rw [setCursorPos_inside editing (by omega) inCol]
    exact blanks

/-- `P`: the characters behind the cursor's move to it, and the row is filled up with blanks. -/
theorem deleteCharacters_spec (editing : Editing rows cols ctx) (inLine : s.cursorX < cols)
    (inRows : s.cursorY < rows) (fits : s.cursorX + ctx.escValues 0 ≤ cols) :
    ∃ s', deleteCharacters (screenBackend d) s.cursorX s.cursorY ⟨ctx, s⟩ = ⟨ctx, s'⟩ ∧
      s'.cursorX = s.cursorX ∧ s'.cursorY = s.cursorY ∧ s'.frame = s.frame ∧
      ∀ {x y}, x < cols → y < rows → s'.cell x y =
        if y = s.cursorY ∧ s.cursorX ≤ x then
          if x + ctx.escValues 0 < cols then s.cell (x + ctx.escValues 0) y else s.empty
        else s.cell x y := by
  have word := editing.word
  obtain ⟨s₁, pulled, frame₁, cell₁⟩ := pullLeft_run (d := d) (s := s) editing (x := s.cursorX)
    (ctx.escValues 0) inRows (cols - (s.cursorX + ctx.escValues 0)) (by omega)
  have bound : sub64 cols (ctx.escValues 0) = cols - ctx.escValues 0 :=
    sub64_of_le (by omega) (by omega)
  have empty : s₁.empty = s.empty := (congrArg Screen.empty frame₁ :)
  obtain ⟨s₂, blanks, erased⟩ := fillRow_run (d := d) (s := s₁) editing inRows
    (show ctx.escValues 0 ≤ cols by omega)
  refine ⟨{ s₂ with cursorX := s.cursorX, cursorY := s.cursorY }, ?_, rfl, rfl,
    erased.frame.trans frame₁, fun {x y} inRow inCol => ?_⟩
  · have moves : upTo (s.cursorX + ctx.escValues 0) ctx.cols (fun i t =>
        t.act ((screenBackend d).moveCharacter (i - ctx.escValues 0) s.cursorY i s.cursorY))
        ⟨ctx, s⟩ = ⟨ctx, s₁⟩ := by
      rw [upTo, editing.sameCols]
      exact pulled
    have cursor : (⟨ctx, s₁⟩ : Term Screen).act
        ((screenBackend d).setCursorPos (sub64 ctx.cols (ctx.escValues 0)) s.cursorY) =
          ⟨ctx, s₁.setCursorPos (cols - ctx.escValues 0) s.cursorY ctx⟩ := by
      rw [editing.sameCols, bound]
      rfl
    unfold deleteCharacters
    dsimp only
    rw [moves]
    dsimp only
    rw [cursor, eraseCharacters]
    dsimp only
    rw [editing.sameCols, Nat.min_eq_left (by omega), blanks]
    exact congrArg (Term.mk ctx) (setCursorPos_inside editing inLine inRows s₂)
  · have here := erased.cell inRow inCol
    have place := in_row (y := y) s.cursorY (s.cursorY * cols + (cols - ctx.escValues 0))
      (ctx.escValues 0) inRow (by omega)
      (by omega)
    refine here.trans ?_
    by_cases blank : y = s.cursorY ∧ cols ≤ x + ctx.escValues 0
    · rw [if_pos (place.mpr ⟨blank.1, by omega, by omega⟩), if_pos ⟨blank.1, by omega⟩,
        if_neg (by omega)]
      exact empty
    · rw [if_neg fun both => blank ⟨(place.mp both).1, by have := (place.mp both).2; omega⟩]
      refine (cell₁ inRow).trans ?_
      by_cases moved : y = s.cursorY ∧ s.cursorX ≤ x
      · obtain ⟨rfl, right⟩ := moved
        rw [if_pos ⟨rfl, right, by omega⟩, if_pos ⟨rfl, right⟩, if_pos (by omega)]
      · rw [if_neg fun all => moved ⟨all.1, all.2.1⟩, if_neg moved]

/-! ### `@` -/

def pushRight (d : Display) (count y i : Nat) (t : Term Screen) : Term Screen :=
  putBlank (screenBackend d) ((t.act ((screenBackend d).moveCharacter (i + count) y i y)).act
    ((screenBackend d).setCursorPos i y))

theorem pushRight_step (editing : Editing rows cols ctx) {y i : Nat} (count : Nat) (inRow : i < cols)
    (inCol : y < rows) :
    ∃ s', pushRight d count y i ⟨ctx, s⟩ = ⟨ctx, s'⟩ ∧ s'.frame = s.frame ∧
      ∀ {x' y'}, x' < cols → y' < rows → s'.cell x' y' =
        if x' = i ∧ y' = y then s.empty
        else if x' = i + count ∧ y' = y then s.cell i y else s.cell x' y' := by
  have frame := moveCharacter_frame (i + count) y i y ctx s
  have cells := fun x' y' => moveCharacter_cell (s := s) editing inRow inCol (i + count) x' y'
  have moved : pushRight d count y i ⟨ctx, s⟩ =
      ⟨ctx, ((s.moveCharacter (i + count) y i y ctx).setCursorPos i y ctx).rawPutchar 0x20 ctx⟩ := rfl
  rw [moved, setCursorPos_inside editing inRow inCol]
  generalize s.moveCharacter (i + count) y i y ctx = m at frame cells ⊢
  have empty : m.empty = s.empty := (congrArg Screen.empty frame :)
  obtain ⟨_, erased⟩ := (at_cursor inRow inCol m).blank editing (.inl inRow)
  refine ⟨_, rfl, erased.frame.trans frame, fun {x' y'} inRow' inCol' => ?_⟩
  refine (erased.cell inRow' inCol').trans ?_
  have place : y * cols + i ≤ y' * cols + x' ∧ y' * cols + x' < y * cols + i + 1 ↔
      x' = i ∧ y' = y := by
    rw [← cell_number inRow' inRow]
    omega
  exact if_congr place empty (cells x' y' inRow')

/-- The cells of row `y` from `x` on, `n` of them, with `count` blanks before them. Characters that
do not move get blanks put over them. -/
theorem pushRight_run (editing : Editing rows cols ctx) {y count : Nat} (inCol : y < rows) :
    ∀ n x, x + n = cols →
      ∃ s', (List.range' x n).foldr (pushRight d count y) ⟨ctx, s⟩ = ⟨ctx, s'⟩ ∧
        s'.frame = s.frame ∧ ∀ {x' y'}, x' < cols → y' < rows → s'.cell x' y' =
          if y' = y ∧ x ≤ x' then
            if x' < x + count ∨ count = 0 then s.empty else s.cell (x' - count) y
          else s.cell x' y' := by
  intro n
  induction n with
  | zero =>
      intro x whole
      refine ⟨s, rfl, rfl, fun {x' y'} _ _ => ?_⟩
      rw [if_neg (by omega)]
  | succ n ih =>
      intro x whole
      obtain ⟨s₁, run, frame, cell⟩ := ih (x + 1) (by omega)
      obtain ⟨s₂, step, frame₂, cell₂⟩ :=
        pushRight_step (d := d) (s := s₁) (i := x) editing count (by omega) inCol
      have empty : s₁.empty = s.empty := (congrArg Screen.empty frame :)
      refine ⟨s₂, ?_, frame₂.trans frame, fun {x' y'} inRow' inCol' => ?_⟩
      · rw [List.range'_succ, List.foldr_cons, run]
        exact step
      · have source : s₁.cell x y = s.cell x y := by
          rw [cell (by omega) inCol, if_neg (by omega)]
        rw [cell₂ inRow' inCol', source, empty, cell inRow' inCol']
        by_cases row : y' = y
        · rw [row]
          by_cases here : x' = x
          · have blank : x' < x + count ∨ count = 0 := by omega
            rw [if_pos ⟨here, rfl⟩, if_pos ⟨rfl, here.ge⟩, if_pos blank]
          · rw [if_neg fun both => here both.1]
            by_cases target : x' = x + count
            · rw [if_pos ⟨target, rfl⟩, if_pos ⟨rfl, by omega⟩, if_neg (by omega), target,
                Nat.add_sub_cancel]
            · rw [if_neg fun both => target both.1]
              split_ifs <;> first | rfl | omega
        · rw [if_neg fun both => row both.2, if_neg fun both => row both.2,
            if_neg fun both => row both.1, if_neg fun both => row both.1]

/-- `@`: the characters from the cursor's on move to the right, and blanks come before them. With
zero columns to move, the row ends in blanks. -/
theorem insertBlanks_spec (editing : Editing rows cols ctx) (inLine : s.cursorX < cols)
    (inRows : s.cursorY < rows) :
    ∃ s', insertBlanks (screenBackend d) s.cursorX s.cursorY ⟨ctx, s⟩ = ⟨ctx, s'⟩ ∧
      s'.cursorX = s.cursorX ∧ s'.cursorY = s.cursorY ∧ s'.frame = s.frame ∧
      ∀ {x y}, x < cols → y < rows → s'.cell x y =
        if y = s.cursorY ∧ s.cursorX ≤ x then
          if x < s.cursorX + ctx.escValues 0 ∨ ctx.escValues 0 = 0 then s.empty
          else s.cell (x - ctx.escValues 0) y
        else s.cell x y := by
  obtain ⟨s₁, run, frame, cell⟩ := pushRight_run (d := d) (s := s) editing inRows
    (cols - s.cursorX) s.cursorX (by omega)
  refine ⟨{ s₁ with cursorX := s.cursorX, cursorY := s.cursorY }, ?_, rfl, rfl, frame,
    fun {x y} inRow inCol => ?_⟩
  · have loop : downTo (ctx.cols - 1) s.cursorX (pushRight d (ctx.escValues 0) s.cursorY) ⟨ctx, s⟩ =
        ⟨ctx, s₁⟩ := by
      rw [downTo, editing.sameCols, show cols - 1 + 1 - s.cursorX = cols - s.cursorX by omega]
      exact run
    change (downTo (ctx.cols - 1) s.cursorX (pushRight d (ctx.escValues 0) s.cursorY) ⟨ctx, s⟩).act
      ((screenBackend d).setCursorPos s.cursorX s.cursorY) = _
    rw [loop]
    exact congrArg (Term.mk ctx) (setCursorPos_inside editing inLine inRows s₁)
  · refine (cell inRow inCol).trans ?_
    by_cases row : y = s.cursorY ∧ s.cursorX ≤ x
    · rw [if_pos row, if_pos row, row.1]
    · rw [if_neg row, if_neg row]

/-! ### From the bytes on -/

/-- The parameter of a sequence whose default is one. -/
def countOf (digits : List UInt8) : Nat := if digits = [] then 1 else decimal digits % 2 ^ 32

/-- `ESC [ count P` within the row. -/
theorem delete_characters (waiting : Waiting rows cols t.ctx) (inLine : t.back.cursorX < cols)
    (inRows : t.back.cursorY < rows) (digits : List UInt8)
    (all : ∀ c ∈ digits, 0x30 ≤ c ∧ c ≤ 0x39)
    (fits : t.back.cursorX + countOf digits ≤ cols) :
    let s := t.back
    let s' := (putchars (screenBackend d) (oneParameter digits 0x50) t).back
    s'.cursorX = s.cursorX ∧ s'.cursorY = s.cursorY ∧ s'.frame = s.frame ∧
      ∀ {x y}, x < cols → y < rows → s'.cell x y =
        if y = s.cursorY ∧ s.cursorX ≤ x then
          if x + countOf digits < cols then s.cell (x + countOf digits) y else s.empty
        else s.cell x y := by
  obtain ⟨ctx, run, editing, _, _, value⟩ := oneParameter_back (d := d) waiting all (c := 0x50)
    ⟨by decide, by decide, by decide⟩
  have count : ctx.escValues 0 = countOf digits := value
  rw [← count] at fits ⊢
  obtain ⟨s', step, spec⟩ := deleteCharacters_spec (d := d) editing inLine inRows fits
  have here : dispatch (screenBackend d) 0x50 t.back.cursorX t.back.cursorY ⟨ctx, t.back⟩ =
      ⟨ctx, s'⟩ := step
  dsimp only
  rw [run, dispatch_inside editing inLine inRows, here]
  exact spec

theorem delete_characters_small :
    let s := smallScreen.back
    let d := (startArgs fullHd).display fun _ => 0
    let s' := (putchars (screenBackend d) [0x1b, 0x5b, 0x33, 0x50] smallScreen).back
    s'.cursorX = s.cursorX ∧ s'.cursorY = s.cursorY ∧ s'.frame = s.frame ∧
      ∀ {x y}, x < 80 → y < 25 → s'.cell x y =
        if y = 0 ∧ 0 ≤ x then if x + 3 < 80 then s.cell (x + 3) y else s.empty else s.cell x y :=
  delete_characters smallScreen_waiting (by decide) (by decide) [0x33] (by simp)
    (by decide)

/-- `ESC [ count @`. A count of zero blanks the rest of the row. -/
theorem insert_characters (waiting : Waiting rows cols t.ctx) (inLine : t.back.cursorX < cols)
    (inRows : t.back.cursorY < rows) (digits : List UInt8)
    (all : ∀ c ∈ digits, 0x30 ≤ c ∧ c ≤ 0x39) :
    let s := t.back
    let s' := (putchars (screenBackend d) (oneParameter digits 0x40) t).back
    s'.cursorX = s.cursorX ∧ s'.cursorY = s.cursorY ∧ s'.frame = s.frame ∧
      ∀ {x y}, x < cols → y < rows → s'.cell x y =
        if y = s.cursorY ∧ s.cursorX ≤ x then
          if x < s.cursorX + countOf digits ∨ countOf digits = 0 then s.empty
          else s.cell (x - countOf digits) y
        else s.cell x y := by
  obtain ⟨ctx, run, editing, _, _, value⟩ := oneParameter_back (d := d) waiting all (c := 0x40)
    ⟨by decide, by decide, by decide⟩
  have count : ctx.escValues 0 = countOf digits := value
  rw [← count]
  obtain ⟨s', step, spec⟩ := insertBlanks_spec (d := d) editing inLine inRows
  have here : dispatch (screenBackend d) 0x40 t.back.cursorX t.back.cursorY ⟨ctx, t.back⟩ =
      ⟨ctx, s'⟩ := step
  dsimp only
  rw [run, dispatch_inside editing inLine inRows, here]
  exact spec

theorem insert_characters_small :
    let s := smallScreen.back
    let d := (startArgs fullHd).display fun _ => 0
    let s' := (putchars (screenBackend d) [0x1b, 0x5b, 0x40] smallScreen).back
    s'.cursorX = s.cursorX ∧ s'.cursorY = s.cursorY ∧ s'.frame = s.frame ∧
      ∀ {x y}, x < 80 → y < 25 → s'.cell x y =
        if y = 0 ∧ 0 ≤ x then if x < 0 + 1 ∨ 1 = 0 then s.empty else s.cell (x - 1) y
        else s.cell x y :=
  insert_characters smallScreen_waiting (by decide) (by decide) [] (by simp)

/-! ### The cursor's position -/

/-- The column or row that a parameter stands for: from one on, and at most the last. -/
def positionOf (value limit : Nat) : Nat := min (value - 1) (limit - 1)

/-- The first two parameters, and what else `H` reads. -/
structure Holds (rows cols row column : Nat) (s : Screen) (t : Term Screen) : Prop where
  row : t.ctx.escValues 0 = row
  column : t.ctx.escValues 1 = column
  sameRows : t.ctx.rows = rows
  sameCols : t.ctx.cols = cols
  back : t.back = s

theorem putValue_self (i value : Nat) (ctx : Context) : (ctx.putValue i value).escValues i = value := by
  simp [Context.putValue]

theorem Holds.putRow {row column : Nat} (holds : Holds rows cols row column s t) (p : Prop)
    [Decidable p] (value : Nat) :
    Holds rows cols (if p then value else row) column s
      (if p then t.set (·.putValue 0 value) else t) := by
  split_ifs
  · exact ⟨putValue_self 0 value t.ctx, holds.column, holds.sameRows, holds.sameCols, holds.back⟩
  · exact holds

theorem Holds.putColumn {row column : Nat} (holds : Holds rows cols row column s t) (p : Prop)
    [Decidable p] (value : Nat) :
    Holds rows cols row (if p then value else column) s
      (if p then t.set (·.putValue 1 value) else t) := by
  split_ifs
  · exact ⟨holds.row, putValue_self 1 value t.ctx, holds.sameRows, holds.sameCols, holds.back⟩
  · exact holds

theorem cursorTo_spec (editing : Editing rows cols ctx) {row column : Nat}
    (start : Holds rows cols row column s t) :
    (cursorTo (screenBackend d) t).back =
      { s with cursorX := positionOf column cols, cursorY := positionOf row rows } := by
  have someRow := editing.someRow
  have someCol := editing.someCol
  unfold cursorTo
  have first := start.putRow (t.ctx.escValues 0 ≠ 0) (t.ctx.escValues 0 - 1)
  dsimp only
  generalize
    (if t.ctx.escValues 0 ≠ 0 then t.set (·.putValue 0 (t.ctx.escValues 0 - 1)) else t) = t₁
    at first ⊢
  have second := first.putColumn (t₁.ctx.escValues 1 ≠ 0) (t₁.ctx.escValues 1 - 1)
  generalize
    (if t₁.ctx.escValues 1 ≠ 0 then t₁.set (·.putValue 1 (t₁.ctx.escValues 1 - 1)) else t₁) = t₂
    at second ⊢
  have third := second.putColumn (t₂.ctx.escValues 1 ≥ t₂.ctx.cols) (t₂.ctx.cols - 1)
  generalize
    (if t₂.ctx.escValues 1 ≥ t₂.ctx.cols then t₂.set (·.putValue 1 (t₂.ctx.cols - 1)) else t₂) = t₃
    at third ⊢
  have fourth := third.putRow (t₃.ctx.escValues 0 ≥ t₃.ctx.rows) (t₃.ctx.rows - 1)
  generalize
    (if t₃.ctx.escValues 0 ≥ t₃.ctx.rows then t₃.set (·.putValue 0 (t₃.ctx.rows - 1)) else t₃) = t₄
    at fourth ⊢
  have x : positionOf column cols < cols := by unfold positionOf; omega
  have y : positionOf row rows < rows := by unfold positionOf; omega
  have columns : t₄.ctx.escValues 1 = positionOf column cols := by
    rw [fourth.column, second.sameCols, second.column, first.column, positionOf]
    split_ifs <;> omega
  have rows_ : t₄.ctx.escValues 0 = positionOf row rows := by
    rw [fourth.row, third.sameRows, third.row, start.row, positionOf]
    split_ifs <;> omega
  rw [columns, rows_]
  change t₄.back.setCursorPos _ _ t₄.ctx = _
  rw [fourth.back, Screen.setCursorPos, fourth.sameRows, fourth.sameCols, clamp_inside x,
    clamp_inside y]

/-- `ESC [ row ; column H`, with any parameters: the cursor goes there, or to the last row or
column, and nothing else changes on the screen. -/
theorem cursor_position (waiting : Waiting rows cols t.ctx) (first : List UInt8)
    (rest : List (List UInt8)) (all : ∀ digits ∈ first :: rest, ∀ c ∈ digits, 0x30 ≤ c ∧ c ≤ 0x39) :
    (putchars (screenBackend d) (0x1b :: 0x5b :: (groupBytes first rest ++ [0x48])) t).back =
      { t.back with
        cursorX := positionOf ((given first rest).getD 1 1) cols
        cursorY := positionOf ((given first rest).getD 0 1) rows } := by
  obtain ⟨offset, run⟩ := sequence_back (B := screenBackend d) waiting.toIdle waiting.noPrivate
    first rest all (c := 0x48) ⟨by decide, by decide, by decide⟩
  have value : ∀ i, i < maxEscValues → (ready 0x48 offset ((given first rest).take maxEscValues)
      t.ctx).escValues i = (given first rest).getD i 1 := by
    intro i inside
    rw [ready_value inside, List.getD_eq_getElem?_getD, List.getElem?_take_of_lt inside,
      ← List.getD_eq_getElem?_getD]
    rfl
  rw [run]
  exact cursorTo_spec (waiting.ready 0x48 offset ((given first rest).take maxEscValues))
    ⟨value 0 (by decide), value 1 (by decide), waiting.sameRows, waiting.sameCols, rfl⟩

theorem cursor_position_small :
    let d := (startArgs fullHd).display fun _ => 0
    (putchars (screenBackend d) [0x1b, 0x5b, 0x32, 0x3b, 0x31, 0x30, 0x48] smallScreen).back =
      { smallScreen.back with cursorX := positionOf 10 80, cursorY := positionOf 2 25 } :=
  cursor_position smallScreen_waiting [0x32] [[0x31, 0x30]] (by simp)

end Nyaux.Flanterm
