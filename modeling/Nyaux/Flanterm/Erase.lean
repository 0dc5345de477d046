import Nyaux.Flanterm.Params
import Nyaux.Flanterm.Pixels
import Nyaux.Flanterm.Screen

/-! Erasing: blanks are put from a place on, in reading order, and the cursor goes back. -/

namespace Nyaux.Flanterm

open Word

structure Editing (rows cols : Nat) (ctx : Context) : Prop where
  sameRows : ctx.rows = rows
  sameCols : ctx.cols = cols
  someRow : 0 < rows
  someCol : 0 < cols
  word : cols < 2 ^ 31
  bottom : ctx.scrollBottomMargin ≤ rows
  still : ctx.scrollEnabled = false

/-- The next character goes to place `q` of the screen, counted row by row. A cursor behind
the last column stands for the first one of the next row. -/
structure At (rows cols q : Nat) (s : Screen) : Prop where
  inLine : s.cursorX ≤ cols
  inRows : s.cursorY < rows
  place : s.cursorY * cols + s.cursorX = q

/-- All but the characters and the cursor. -/
def Screen.frame (s : Screen) : Screen :=
  { s with cell := fun _ _ => ⟨0, 0, 0⟩, cursorX := 0, cursorY := 0 }

structure Erased (rows cols first n : Nat) (s s' : Screen) : Prop where
  cell : ∀ {x y}, x < cols → y < rows → s'.cell x y =
    if first ≤ y * cols + x ∧ y * cols + x < first + n then s.empty else s.cell x y
  frame : s'.frame = s.frame

variable {rows cols : Nat} {ctx : Context} {s s' : Screen} {d : Display} {q : Nat}

theorem Erased.empty {first n : Nat} (erased : Erased rows cols first n s s') :
    s'.empty = s.empty := by
  have fg : s'.textFg = s.textFg := (congrArg Screen.textFg erased.frame :)
  have bg : s'.textBg = s.textBg := (congrArg Screen.textBg erased.frame :)
  rw [Screen.empty, Screen.empty, fg, bg]

/-- The next character needs no scrolling. The wrap compares the row of the cursor with the number
of columns, so it is in place only on a screen with no more rows than columns. -/
def Goes (rows cols : Nat) (ctx : Context) (s : Screen) : Prop :=
  s.cursorX < cols ∨ rows ≤ cols ∧ s.cursorY + 1 < ctx.scrollBottomMargin

theorem At.wrap (at_ : At rows cols q s) (editing : Editing rows cols ctx)
    (go : Goes rows cols ctx s) :
    At rows cols q (s.wrap ctx) ∧ (s.wrap ctx).cursorX < cols ∧
      (s.wrap ctx).cell = s.cell ∧ (s.wrap ctx).empty = s.empty ∧
      (s.wrap ctx).frame = s.frame := by
  have word := editing.word
  have bottom := editing.bottom
  have inRows := at_.inRows
  unfold Screen.wrap
  rw [editing.sameCols, editing.still]
  by_cases inside : s.cursorX < cols
  · rw [if_neg (by omega)]
    exact ⟨at_, inside, rfl, rfl, rfl⟩
  · obtain ⟨flat, below⟩ : rows ≤ cols ∧ s.cursorY + 1 < ctx.scrollBottomMargin :=
      go.resolve_left inside
    have column : s.cursorX = cols := Nat.le_antisymm at_.inLine (not_lt.mp inside)
    have row : add64 s.cursorY 1 = s.cursorY + 1 := add64_of_lt (by omega)
    rw [if_pos ⟨not_lt.mp inside, .inl (by omega)⟩, row]
    rw [if_neg (show ¬s.cursorY + 1 = ctx.scrollBottomMargin by omega)]
    dsimp only
    rw [if_neg (show ¬s.cursorY + 1 ≥ cols by omega)]
    refine ⟨⟨Nat.zero_le _, by dsimp only; omega, ?_⟩, editing.someCol, rfl, rfl, rfl⟩
    have place := at_.place
    rw [column] at place
    dsimp only
    rw [Nat.add_mul]
    omega

theorem At.blank (at_ : At rows cols q s) (editing : Editing rows cols ctx)
    (go : Goes rows cols ctx s) :
    At rows cols (q + 1) (s.rawPutchar 0x20 ctx) ∧
      Erased rows cols q 1 s (s.rawPutchar 0x20 ctx) := by
  obtain ⟨wrapped, inside, cells, empty, frame⟩ := at_.wrap editing go
  have word := editing.word
  have inRows := wrapped.inRows
  unfold Screen.rawPutchar
  dsimp only
  generalize s.wrap ctx = w at wrapped inside inRows cells empty frame ⊢
  have next : add64 w.cursorX 1 = w.cursorX + 1 := add64_of_lt (by omega)
  unfold Screen.put
  rw [editing.sameCols, editing.sameRows, if_neg (by omega), next]
  refine ⟨⟨by dsimp only; omega, inRows, ?_⟩, fun {x y} inRow inCol => ?_, ?_⟩
  · have place := wrapped.place
    dsimp only
    omega
  · dsimp only
    rw [cells]
    refine if_congr ?_ empty rfl
    rw [← cell_number inRow inside, wrapped.place]
    omega
  · exact frame

theorem At.blanks {first : Nat} (editing : Editing rows cols ctx) (n : Nat)
    (inside : s.cursorX < cols) (at_ : At rows cols first s)
    (region : ∀ row, first < row * cols → row * cols < first + n →
      rows ≤ cols ∧ row < ctx.scrollBottomMargin) :
    ∃ s', repeated n (putBlank (screenBackend d)) ⟨ctx, s⟩ = ⟨ctx, s'⟩ ∧
      At rows cols (first + n) s' ∧ Erased rows cols first n s s' := by
  induction n with
  | zero =>
      refine ⟨s, rfl, at_, fun {x y} _ _ => ?_, rfl⟩
      rw [if_neg (by omega)]
  | succ n ih =>
      obtain ⟨s₁, run, at₁, erased⟩ := ih fun row above below => region row above (by omega)
      have go : Goes rows cols ctx s₁ := by
        by_contra stuck
        obtain ⟨outside, still⟩ := not_or.mp stuck
        have column : s₁.cursorX = cols := Nat.le_antisymm at₁.inLine (not_lt.mp outside)
        have place := at₁.place
        rw [column] at place
        have row : (s₁.cursorY + 1) * cols = first + n := by rw [Nat.add_mul]; omega
        cases n with
        | zero =>
            cases run
            omega
        | succ n => exact still (region (s₁.cursorY + 1) (by omega) (by omega))
      obtain ⟨at₂, last⟩ := at₁.blank editing go
      refine ⟨s₁.rawPutchar 0x20 ctx, ?_, at₂, fun {x y} inRow inCol => ?_,
        last.frame.trans erased.frame⟩
      · rw [repeated, Function.iterate_succ_apply']
        rw [repeated] at run
        rw [run]
        rfl
      · rw [last.cell inRow inCol, erased.cell inRow inCol, erased.empty]
        split_ifs <;> first | rfl | omega

/-! ### The cursor -/

theorem At.unique {x y : Nat} (at_ : At rows cols (y * cols + x) s) (some_ : 0 < x)
    (inRow : x < cols) :
    s.cursorX = x ∧ s.cursorY = y := by
  by_cases inside : s.cursorX < cols
  · exact (cell_number inside inRow).mp at_.place
  · have column : s.cursorX = cols := Nat.le_antisymm at_.inLine (not_lt.mp inside)
    have place := at_.place
    rw [column] at place
    have row : (s.cursorY + 1) * cols + 0 = y * cols + x := by rw [Nat.add_mul]; omega
    have := ((cell_number (show 0 < cols by omega) inRow).mp row).1
    omega

theorem at_cursor {x y : Nat} (inRow : x < cols) (inCol : y < rows) (s : Screen) :
    At rows cols (y * cols + x) { s with cursorX := x, cursorY := y } :=
  ⟨inRow.le, inCol, rfl⟩

theorem setCursorPos_inside (editing : Editing rows cols ctx) {x y : Nat} (inRow : x < cols)
    (inCol : y < rows) (s : Screen) :
    s.setCursorPos x y ctx = { s with cursorX := x, cursorY := y } := by
  rw [Screen.setCursorPos, editing.sameCols, editing.sameRows, clamp_inside inRow,
    clamp_inside inCol]

theorem Erased.cursor {first n : Nat} (erased : Erased rows cols first n s s') (x y : Nat) :
    Erased rows cols first n s { s' with cursorX := x, cursorY := y } :=
  ⟨erased.cell, erased.frame⟩

theorem Erased.before {first n x y : Nat}
    (erased : Erased rows cols first n { s with cursorX := x, cursorY := y } s') :
    Erased rows cols first n s s' :=
  ⟨erased.cell, erased.frame⟩

/-! ### `J` -/

/-- The loop of `J` with 1 puts a blank for every place up to the cursor's. -/
theorem eraseUpTo_eq {x y k : Nat} {l : List (Nat × Nat)} :
    ∀ (t : Term Screen), l[k]? = some (x, y) → (∀ j < k, l[j]? ≠ some (x, y)) →
      eraseUpTo (screenBackend d) x y l t =
        (repeated (k + 1) (putBlank (screenBackend d)) t).act
          ((screenBackend d).setCursorPos x y) := by
  induction l generalizing k with
  | nil =>
      intro _ here
      cases here
  | cons p l ih =>
      intro t here early
      cases k with
      | zero =>
          cases here
          exact if_pos ⟨rfl, rfl⟩
      | succ k =>
          have other : ¬(p.1 = x ∧ p.2 = y) := by
            rintro ⟨rfl, rfl⟩
            exact early 0 (Nat.succ_pos k) rfl
          refine (if_neg other).trans ((ih (putBlank (screenBackend d) t) here fun j small => ?_).trans ?_)
          · exact early (j + 1) (Nat.succ_lt_succ small)
          · rfl

theorem places_length (rows cols : Nat) : (places rows cols).length = rows * cols := by
  simp [places]

theorem places_getElem {i : Nat} (inside : i < rows * cols) :
    (places rows cols)[i]? = some (i % cols, i / cols) := by
  induction rows with
  | zero => omega
  | succ rows ih =>
      have split_ : places (rows + 1) cols =
          places rows cols ++ (List.range cols).map fun xc => (xc, rows) := by
        simp [places, List.range_succ, List.flatMap_append]
      rw [split_]
      by_cases early : i < rows * cols
      · rw [List.getElem?_append_left (by rw [places_length]; exact early)]
        exact ih early
      · rw [Nat.add_mul, Nat.one_mul] at inside
        have last : i = rows * cols + (i - rows * cols) := by omega
        have column : i % cols = i - rows * cols := by
          rw [last, Nat.add_comm, Nat.add_mul_mod_self_right, Nat.mod_eq_of_lt (by omega)]
          omega
        have row : i / cols = rows := by
          rw [last, Nat.add_comm, Nat.add_mul_div_right _ _ (by omega), Nat.div_eq_of_lt (by omega)]
          omega
        rw [List.getElem?_append_right (by rw [places_length]; omega), places_length, column, row,
          List.getElem?_map, List.getElem?_range (by omega)]
        rfl

/-- What `J` erases, with the places counted row by row and the cursor at `place`. -/
def ErasedDisplay (mode place i : Nat) : Prop :=
  match mode with
  | 0 => place ≤ i
  | 1 => i ≤ place
  | 2 => True
  | 3 => True
  | _ => False

/-- `J` without margins, on a screen with no more rows than columns: exactly the places of its
mode, and the cursor stays. -/
theorem eraseDisplay_spec (editing : Editing rows cols ctx) (flat : rows ≤ cols)
    (full : ctx.scrollBottomMargin = rows) (inLine : s.cursorX < cols) (inRows : s.cursorY < rows) :
    ∃ s', eraseDisplay (screenBackend d) s.cursorX s.cursorY ⟨ctx, s⟩ = ⟨ctx, s'⟩ ∧
      s'.cursorX = s.cursorX ∧ s'.cursorY = s.cursorY ∧ s'.frame = s.frame ∧
      ∀ {x y}, x < cols → y < rows →
        (ErasedDisplay (ctx.escValues 0) (s.cursorY * cols + s.cursorX) (y * cols + x) →
          s'.cell x y = s.empty) ∧
        (¬ErasedDisplay (ctx.escValues 0) (s.cursorY * cols + s.cursorX) (y * cols + x) →
          s'.cell x y = s.cell x y) := by
  have inside := place_lt inLine inRows
  have region : ∀ row, row * cols < rows * cols → rows ≤ cols ∧ row < ctx.scrollBottomMargin :=
    fun row below => by
      rw [full]
      exact ⟨flat, Nat.lt_of_mul_lt_mul_right below⟩
  have back : ∀ s', (⟨ctx, s'⟩ : Term Screen).act
      ((screenBackend d).setCursorPos s.cursorX s.cursorY) =
        ⟨ctx, { s' with cursorX := s.cursorX, cursorY := s.cursorY }⟩ := fun s' =>
    congrArg (Term.mk ctx) (setCursorPos_inside editing inLine inRows s')
  have everything : ∃ s', (⟨ctx, s⟩ : Term Screen).act ((screenBackend d).clear false) = ⟨ctx, s'⟩ ∧
      s'.cursorX = s.cursorX ∧ s'.cursorY = s.cursorY ∧ s'.frame = s.frame ∧
      ∀ {x y}, x < cols → y < rows → s'.cell x y = s.empty :=
    ⟨_, rfl, rfl, rfl, rfl, fun _ _ => rfl⟩
  unfold eraseDisplay
  dsimp only
  generalize ctx.escValues 0 = mode
  match mode with
  | 0 =>
      have count : (ctx.rows - (s.cursorY + 1)) * ctx.cols + (ctx.cols - (s.cursorX + 1)) + 1 =
          rows * cols - (s.cursorY * cols + s.cursorX) := by
        rw [editing.sameRows, editing.sameCols, Nat.sub_mul, Nat.add_mul]
        have : (s.cursorY + 1) * cols ≤ rows * cols := Nat.mul_le_mul_right _ inRows
        rw [Nat.add_mul] at this
        omega
      obtain ⟨s', run, _, erased⟩ := At.blanks (d := d) editing
        (rows * cols - (s.cursorY * cols + s.cursorX)) inLine
        ⟨inLine.le, inRows, rfl⟩ fun row _ below => region row (by omega)
      rw [count, run, back]
      refine ⟨_, rfl, rfl, rfl, erased.frame, fun {x y} inRow inCol => ?_⟩
      have place := place_lt inRow inCol
      refine ⟨fun here => (erased.cell inRow inCol).trans (if_pos ⟨here, by omega⟩), fun off => ?_⟩
      exact (erased.cell inRow inCol).trans (if_neg fun both => off both.1)
  | 1 =>
      have first := setCursorPos_inside (x := 0) (y := 0) editing editing.someCol editing.someRow s
      have at_ := at_cursor (x := 0) (y := 0) editing.someCol
        editing.someRow s
      rw [Nat.zero_mul, Nat.zero_add] at at_
      obtain ⟨s', run, _, erased⟩ := At.blanks (d := d) editing (s.cursorY * cols + s.cursorX + 1)
        (s := { s with cursorX := 0, cursorY := 0 }) editing.someCol at_
        fun row _ below => region row (by omega)
      have loop := eraseUpTo_eq (d := d) (x := s.cursorX) (y := s.cursorY)
        (k := s.cursorY * cols + s.cursorX) (l := places rows cols)
        ⟨ctx, { s with cursorX := 0, cursorY := 0 }⟩ (by
          rw [places_getElem inside, Nat.add_comm, Nat.add_mul_mod_self_right,
            Nat.mod_eq_of_lt inLine, Nat.add_mul_div_right _ _ editing.someCol,
            Nat.div_eq_of_lt inLine, Nat.zero_add]) fun j small => by
          rw [places_getElem (by omega)]
          intro same
          have pair := Prod.mk.inj (Option.some.inj same)
          have := Nat.div_add_mod' j cols
          rw [pair.1, pair.2] at this
          omega
      rw [editing.sameRows, editing.sameCols]
      have start : (⟨ctx, s⟩ : Term Screen).act ((screenBackend d).setCursorPos 0 0) =
          ⟨ctx, { s with cursorX := 0, cursorY := 0 }⟩ := congrArg (Term.mk ctx) first
      rw [start, loop, run, back]
      refine ⟨_, rfl, rfl, rfl, erased.frame, fun {x y} inRow inCol => ?_⟩
      refine ⟨fun here => ?_, fun off => ?_⟩
      · have here : y * cols + x ≤ s.cursorY * cols + s.cursorX := here
        exact (erased.cell inRow inCol).trans (if_pos (by omega))
      · have off : ¬y * cols + x ≤ s.cursorY * cols + s.cursorX := off
        exact (erased.cell inRow inCol).trans (if_neg (by omega))
  | 2 =>
      obtain ⟨s', run, x', y', frame, cell⟩ := everything
      exact ⟨s', run, x', y', frame, fun inRow inCol =>
        ⟨fun _ => cell inRow inCol, fun off => absurd trivial off⟩⟩
  | 3 =>
      obtain ⟨s', run, x', y', frame, cell⟩ := everything
      exact ⟨s', run, x', y', frame, fun inRow inCol =>
        ⟨fun _ => cell inRow inCol, fun off => absurd trivial off⟩⟩
  | mode + 4 =>
      exact ⟨s, rfl, rfl, rfl, rfl, fun _ _ => ⟨fun here => here.elim, fun _ => rfl⟩⟩

/-! ### `K` -/

/-- What `K` erases of the cursor's row. -/
def ErasedLine (mode cursorX x : Nat) : Prop :=
  match mode with
  | 0 => cursorX ≤ x
  | 1 => x < cursorX
  | 2 => True
  | _ => False

theorem no_row_start {first n y row : Nat} (start : y * cols ≤ first)
    (within : first + n ≤ (y + 1) * cols) (above : first < row * cols)
    (below : row * cols < first + n) : False := by
  have late : y < row := Nat.lt_of_mul_lt_mul_right (lt_of_le_of_lt start above)
  have early : row < y + 1 := Nat.lt_of_mul_lt_mul_right (lt_of_lt_of_le below within)
  omega

theorem in_row {x y : Nat} (row first n : Nat) (inRow : x < cols) (above : row * cols ≤ first)
    (below : first + n ≤ row * cols + cols) :
    first ≤ y * cols + x ∧ y * cols + x < first + n ↔
      y = row ∧ first ≤ row * cols + x ∧ row * cols + x < first + n := by
  constructor
  · rintro ⟨low, high⟩
    have same : y = row := by
      by_contra other
      rcases Nat.lt_or_gt_of_ne other with up | down
      · have : (y + 1) * cols ≤ row * cols := Nat.mul_le_mul_right _ up
        rw [Nat.add_mul, Nat.one_mul] at this
        omega
      · have : (row + 1) * cols ≤ y * cols := Nat.mul_le_mul_right _ down
        rw [Nat.add_mul, Nat.one_mul] at this
        omega
    rw [same] at low high
    exact ⟨same, low, high⟩
  · rintro ⟨rfl, low, high⟩
    exact ⟨low, high⟩

/-- `K` with any margins: exactly the places of its mode in the cursor's row, and the cursor
stays. -/
theorem eraseLine_spec (editing : Editing rows cols ctx) (inLine : s.cursorX < cols)
    (inRows : s.cursorY < rows) :
    ∃ s', eraseLine (screenBackend d) s.cursorX s.cursorY ⟨ctx, s⟩ = ⟨ctx, s'⟩ ∧
      s'.cursorX = s.cursorX ∧ s'.cursorY = s.cursorY ∧ s'.frame = s.frame ∧
      ∀ {x y}, x < cols → y < rows →
        (y = s.cursorY ∧ ErasedLine (ctx.escValues 0) s.cursorX x → s'.cell x y = s.empty) ∧
        (¬(y = s.cursorY ∧ ErasedLine (ctx.escValues 0) s.cursorX x) →
          s'.cell x y = s.cell x y) := by
  have next : (s.cursorY + 1) * cols = s.cursorY * cols + cols := by rw [Nat.add_mul, Nat.one_mul]
  have back : ∀ s', (⟨ctx, s'⟩ : Term Screen).act
      ((screenBackend d).setCursorPos s.cursorX s.cursorY) =
        ⟨ctx, { s' with cursorX := s.cursorX, cursorY := s.cursorY }⟩ := fun s' =>
    congrArg (Term.mk ctx) (setCursorPos_inside editing inLine inRows s')
  have start : (⟨ctx, s⟩ : Term Screen).act ((screenBackend d).setCursorPos 0 s.cursorY) =
      ⟨ctx, { s with cursorX := 0 }⟩ :=
    congrArg (Term.mk ctx) (setCursorPos_inside editing editing.someCol inRows s)
  have atStart : At rows cols (s.cursorY * cols) { s with cursorX := 0 } :=
    ⟨Nat.zero_le _, inRows, rfl⟩
  unfold eraseLine
  dsimp only
  generalize ctx.escValues 0 = mode
  match mode with
  | 0 =>
      obtain ⟨s', run, _, erased⟩ := At.blanks (d := d) editing (cols - s.cursorX) inLine
        ⟨inLine.le, inRows, rfl⟩ fun row above below =>
          (no_row_start (y := s.cursorY) (by omega) (by omega) above below).elim
      rw [editing.sameCols, run, back]
      refine ⟨_, rfl, rfl, rfl, erased.frame, fun {x y} inRow inCol => ?_⟩
      have place := in_row (y := y) s.cursorY (s.cursorY * cols + s.cursorX)
        (cols - s.cursorX) inRow (by omega) (by omega)
      refine ⟨fun here => (erased.cell inRow inCol).trans (if_pos (place.mpr ⟨here.1, ?_⟩)),
        fun off => (erased.cell inRow inCol).trans (if_neg fun both => off ?_)⟩
      · have right : s.cursorX ≤ x := here.2
        omega
      · obtain ⟨same, low, _⟩ := place.mp both
        have right : s.cursorX ≤ x := by omega
        exact ⟨same, right⟩
  | 1 =>
      obtain ⟨s', run, at_, erased⟩ := At.blanks (d := d) editing s.cursorX
        (s := { s with cursorX := 0 }) editing.someCol atStart fun row above below =>
          (no_row_start (y := s.cursorY) le_rfl (by omega) above below).elim
      have cursor : s'.cursorX = s.cursorX ∧ s'.cursorY = s.cursorY := by
        rcases Nat.eq_zero_or_pos s.cursorX with zero | some_
        · rw [zero] at run ⊢
          cases run
          exact ⟨rfl, rfl⟩
        · exact at_.unique some_ inLine
      rw [start, run]
      refine ⟨_, rfl, cursor.1, cursor.2, erased.frame, fun {x y} inRow inCol => ?_⟩
      have place := in_row (y := y) s.cursorY (s.cursorY * cols) s.cursorX inRow le_rfl (by omega)
      refine ⟨fun here => (erased.cell inRow inCol).trans (if_pos (place.mpr ⟨here.1, ?_⟩)),
        fun off => (erased.cell inRow inCol).trans (if_neg fun both => off ?_)⟩
      · have left : x < s.cursorX := here.2
        omega
      · obtain ⟨same, _, high⟩ := place.mp both
        have left : x < s.cursorX := by omega
        exact ⟨same, left⟩
  | 2 =>
      obtain ⟨s', run, _, erased⟩ := At.blanks (d := d) editing cols
        (s := { s with cursorX := 0 }) editing.someCol atStart fun row above below =>
          (no_row_start (y := s.cursorY) le_rfl (by omega) above below).elim
      rw [editing.sameCols, start, run, back]
      refine ⟨_, rfl, rfl, rfl, erased.frame, fun {x y} inRow inCol => ?_⟩
      have place := in_row (y := y) s.cursorY (s.cursorY * cols) cols inRow le_rfl le_rfl
      refine ⟨fun here => (erased.cell inRow inCol).trans (if_pos (place.mpr ⟨here.1, ?_⟩)),
        fun off => (erased.cell inRow inCol).trans (if_neg fun both => off ?_)⟩
      · omega
      · exact ⟨(place.mp both).1, trivial⟩
  | mode + 3 =>
      exact ⟨s, rfl, rfl, rfl, rfl, fun _ _ => ⟨fun here => here.2.elim, fun _ => rfl⟩⟩

/-! ### From the bytes on -/

/-- A terminal that waits for a sequence: what `Editing` asks for, apart from scrolling. -/
structure Waiting (rows cols : Nat) (ctx : Context) : Prop extends Idle ctx where
  noPrivate : ctx.decPrivate = false
  sameRows : ctx.rows = rows
  sameCols : ctx.cols = cols
  someRow : 0 < rows
  someCol : 0 < cols
  word : cols < 2 ^ 31
  bottom : ctx.scrollBottomMargin ≤ rows

theorem Waiting.ready (waiting : Waiting rows cols ctx) (c : UInt8) (offset : Nat)
    (values : List Nat) : Editing rows cols (ready c offset values ctx) where
  sameRows := waiting.sameRows
  sameCols := waiting.sameCols
  someRow := waiting.someRow
  someCol := waiting.someCol
  word := waiting.word
  bottom := waiting.bottom
  still := rfl

variable {t : Term Screen}

def smallScreen : Term Screen :=
  ⟨flantermContextReinit (zeroContext 25 80), .fresh ((startArgs fullHd).display fun _ => 0)⟩

theorem smallScreen_waiting : Waiting 25 80 smallScreen.ctx where
  noEscape := rfl
  awake := rfl
  complete := rfl
  gSelect := rfl
  noSequence := rfl
  noOsc := rfl
  noPrivate := rfl
  sameRows := rfl
  sameCols := rfl
  someRow := by decide
  someCol := by decide
  word := by decide
  bottom := le_rfl

/-- The bytes of a sequence with one parameter. -/
def oneParameter (digits : List UInt8) (c : UInt8) : List UInt8 :=
  0x1b :: 0x5b :: (groupBytes digits [] ++ [c])

theorem oneParameter_back (waiting : Waiting rows cols t.ctx) {digits : List UInt8}
    (all : ∀ c ∈ digits, 0x30 ≤ c ∧ c ≤ 0x39) {c : UInt8} (final : Final c) :
    ∃ ctx, (putchars (screenBackend d) (oneParameter digits c) t).back =
        (dispatchAtCursor (screenBackend d) c ⟨ctx, t.back⟩).back ∧
      Editing rows cols ctx ∧ ctx.scrollTopMargin = t.ctx.scrollTopMargin ∧
      ctx.scrollBottomMargin = t.ctx.scrollBottomMargin ∧
      ctx.escValues 0 = if digits = [] then escDefault c else decimal digits % 2 ^ 32 := by
  obtain ⟨offset, run⟩ := sequence_back (B := screenBackend d) waiting.toIdle waiting.noPrivate
    digits [] (fun group member => by rw [List.mem_singleton.mp member]; exact all) final
  refine ⟨_, run, waiting.ready c offset _, rfl, rfl, ?_⟩
  rw [ready_value (by decide)]
  unfold given
  split_ifs <;> rfl

theorem dispatch_inside (editing : Editing rows cols ctx) {c : UInt8} (inLine : s.cursorX < cols)
    (inRows : s.cursorY < rows) :
    dispatchAtCursor (screenBackend d) c ⟨ctx, s⟩ =
      dispatch (screenBackend d) c s.cursorX s.cursorY ⟨ctx, s⟩ := by
  have cursor : (screenBackend d).getCursorPos ctx s = (s.cursorX, s.cursorY) := by
    change s.getCursorPos ctx = _
    rw [Screen.getCursorPos, editing.sameRows, editing.sameCols, Nat.min_eq_left (by omega),
      Nat.min_eq_left (by omega)]
  unfold dispatchAtCursor
  rw [cursor]

/-- The mode of `J` or `K`, which is zero if it is left out. -/
theorem mode_value {digits : List UInt8} {c : UInt8} (zero : escDefault c = 0) :
    (if digits = [] then escDefault c else decimal digits % 2 ^ 32) = decimal digits % 2 ^ 32 := by
  split_ifs with missing
  · rw [missing, zero]
    rfl
  · rfl

/-- `ESC [ mode J`, for a mode that is written in any way or left out, without margins and on a
screen with no more rows than columns. -/
theorem erase_display (waiting : Waiting rows cols t.ctx) (flat : rows ≤ cols)
    (full : t.ctx.scrollBottomMargin = rows) (inLine : t.back.cursorX < cols)
    (inRows : t.back.cursorY < rows) (digits : List UInt8)
    (all : ∀ c ∈ digits, 0x30 ≤ c ∧ c ≤ 0x39) :
    let s := t.back
    let s' := (putchars (screenBackend d) (oneParameter digits 0x4a) t).back
    let erased := ErasedDisplay (decimal digits % 2 ^ 32) (s.cursorY * cols + s.cursorX)
    s'.cursorX = s.cursorX ∧ s'.cursorY = s.cursorY ∧ s'.frame = s.frame ∧
      ∀ {x y}, x < cols → y < rows →
        (erased (y * cols + x) → s'.cell x y = s.empty) ∧
        (¬erased (y * cols + x) → s'.cell x y = s.cell x y) := by
  obtain ⟨ctx, run, editing, _, bottom, value⟩ := oneParameter_back (d := d) waiting all
    (c := 0x4a) ⟨by decide, by decide, by decide⟩
  obtain ⟨s', erase, spec⟩ := eraseDisplay_spec (d := d) editing flat (bottom.trans full) inLine
    inRows
  have here : dispatch (screenBackend d) 0x4a t.back.cursorX t.back.cursorY ⟨ctx, t.back⟩ =
      ⟨ctx, s'⟩ := erase
  rw [value, mode_value rfl] at spec
  dsimp only
  rw [run, dispatch_inside editing inLine inRows, here]
  exact spec

theorem erase_display_small :
    let s := smallScreen.back
    let d := (startArgs fullHd).display fun _ => 0
    let s' := (putchars (screenBackend d) [0x1b, 0x5b, 0x32, 0x4a] smallScreen).back
    s'.cursorX = s.cursorX ∧ s'.cursorY = s.cursorY ∧ s'.frame = s.frame ∧
      ∀ {x y}, x < 80 → y < 25 →
        (ErasedDisplay 2 0 (y * 80 + x) → s'.cell x y = s.empty) ∧
        (¬ErasedDisplay 2 0 (y * 80 + x) → s'.cell x y = s.cell x y) :=
  erase_display smallScreen_waiting (by decide) rfl (by decide) (by decide) [0x32] (by simp)

/-- `ESC [ mode K`, likewise. -/
theorem erase_line (waiting : Waiting rows cols t.ctx) (inLine : t.back.cursorX < cols)
    (inRows : t.back.cursorY < rows) (digits : List UInt8)
    (all : ∀ c ∈ digits, 0x30 ≤ c ∧ c ≤ 0x39) :
    let s := t.back
    let s' := (putchars (screenBackend d) (oneParameter digits 0x4b) t).back
    let erased := fun x y => y = s.cursorY ∧ ErasedLine (decimal digits % 2 ^ 32) s.cursorX x
    s'.cursorX = s.cursorX ∧ s'.cursorY = s.cursorY ∧ s'.frame = s.frame ∧
      ∀ {x y}, x < cols → y < rows →
        (erased x y → s'.cell x y = s.empty) ∧ (¬erased x y → s'.cell x y = s.cell x y) := by
  obtain ⟨ctx, run, editing, _, _, value⟩ := oneParameter_back (d := d) waiting all
    (c := 0x4b) ⟨by decide, by decide, by decide⟩
  obtain ⟨s', erase, spec⟩ := eraseLine_spec (d := d) editing inLine inRows
  have here : dispatch (screenBackend d) 0x4b t.back.cursorX t.back.cursorY ⟨ctx, t.back⟩ =
      ⟨ctx, s'⟩ := erase
  rw [value, mode_value rfl] at spec
  dsimp only
  rw [run, dispatch_inside editing inLine inRows, here]
  exact spec

theorem erase_line_small :
    let s := smallScreen.back
    let d := (startArgs fullHd).display fun _ => 0
    let s' := (putchars (screenBackend d) [0x1b, 0x5b, 0x4b] smallScreen).back
    s'.cursorX = s.cursorX ∧ s'.cursorY = s.cursorY ∧ s'.frame = s.frame ∧
      ∀ {x y}, x < 80 → y < 25 →
        (y = 0 ∧ ErasedLine 0 0 x → s'.cell x y = s.empty) ∧
        (¬(y = 0 ∧ ErasedLine 0 0 x) → s'.cell x y = s.cell x y) :=
  erase_line smallScreen_waiting (by decide) (by decide) [] (by simp)

end Nyaux.Flanterm
