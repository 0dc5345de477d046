import Nyaux.Flanterm.Queue

/-! The loops of the framebuffer backend, by what they leave in the cells. -/

namespace Nyaux.Flanterm

open WriteBack

variable {rows cols : Nat} {ctx : Context} {fb : FbContext}
variable (onScreen : OnScreen rows cols ctx)

structure Leaves (rows cols : Nat) (fb fb' : FbContext) (cells : Nat → FbChar) : Prop where
  kept : Kept rows cols fb fb'
  cells : ∀ i, fb'.charAt i = cells i

include onScreen

theorem push_leaves (queued : Queued rows cols fb) (c : FbChar) {x y : Nat} (inRow : x < cols)
    (inCol : y < rows) :
    Leaves rows cols fb (fb.pushToQueue ctx c x y) (Function.update fb.charAt (y * cols + x) c) :=
  ⟨push_kept onScreen queued c x y,
    fun i => congrFun (push_charAt onScreen queued c inRow inCol) i⟩

theorem push_number_leaves (queued : Queued rows cols fb) (c : FbChar) {i : Nat}
    (cell : i < rows * cols) :
    Leaves rows cols fb (fb.pushToQueue ctx c (i % cols) (i / cols))
      (Function.update fb.charAt i c) := by
  have inCol : i / cols < rows := by
    rw [Nat.div_lt_iff_lt_mul onScreen.someCol]
    exact cell
  have leaves := push_leaves onScreen queued c (Nat.mod_lt i onScreen.someCol) inCol
  rwa [Nat.div_add_mod'] at leaves

/-- One round of `scroll` and of `revscroll`: a cell's character goes to another cell. -/
theorem copy_leaves (queued : Queued rows cols fb) {source target : Nat}
    (inSource : source < rows * cols) (inTarget : target < rows * cols) :
    Leaves rows cols fb
      ((fb.touch (source < rows * cols)).pushToQueue ctx (fb.charAt source) (target % cols)
        (target / cols))
      (Function.update fb.charAt target (fb.charAt source)) := by
  have touched := touch_kept queued (decide_eq_true inSource)
  have pushed := push_number_leaves onScreen touched.queued (fb.charAt source) inTarget
  exact ⟨touched.trans pushed.kept, pushed.cells⟩

/-! ### Rows -/

def rowFilled (cols y n : Nat) (c : FbChar) (cells : Nat → FbChar) (i : Nat) : FbChar :=
  if y * cols ≤ i ∧ i < y * cols + n then c else cells i

theorem fill_leaves (queued : Queued rows cols fb) (c : FbChar) {y : Nat} (inCol : y < rows) :
    ∀ n ≤ cols, Leaves rows cols fb
      ((List.range n).foldl (fun fb i => fb.pushToQueue ctx c i y) fb)
      (rowFilled cols y n c fb.charAt) := by
  intro n
  induction n with
  | zero =>
      intro _
      refine ⟨.refl queued, fun i => ?_⟩
      rw [rowFilled, if_neg (by omega)]
      rfl
  | succ n ih =>
      intro small
      have before := ih (by omega)
      rw [List.range_succ, List.foldl_append]
      have last := push_leaves onScreen before.kept.queued c (show n < cols by omega) inCol
      refine ⟨before.kept.trans last.kept, fun i => ?_⟩
      refine (last.cells i).trans ?_
      rw [Function.update_apply, before.cells i, rowFilled, rowFilled]
      split_ifs <;> first | rfl | omega

theorem blankRow_leaves (queued : Queued rows cols fb) {y : Nat} (inCol : y < rows) :
    Leaves rows cols fb (fb.blankRow ctx y) (rowFilled cols y cols fb.empty fb.charAt) := by
  unfold FbContext.blankRow
  rw [onScreen.sameCols]
  exact fill_leaves onScreen queued fb.empty inCol cols le_rfl

/-! ### Scrolling -/

def movedUp (cols first n : Nat) (cells : Nat → FbChar) (i : Nat) : FbChar :=
  if first ≤ i + cols ∧ i + cols < first + n then cells (i + cols) else cells i

theorem moveUp_leaves (queued : Queued rows cols fb) {first : Nat} (below : cols ≤ first) :
    ∀ n, first + n ≤ rows * cols → Leaves rows cols fb
      ((List.range' first n).foldl (fun fb i =>
        (fb.touch (i < rows * cols)).pushToQueue ctx (fb.charAt i) ((i - cols) % cols)
          ((i - cols) / cols)) fb)
      (movedUp cols first n fb.charAt) := by
  intro n
  induction n with
  | zero =>
      intro _
      refine ⟨.refl queued, fun i => ?_⟩
      rw [movedUp, if_neg (by omega)]
      rfl
  | succ n ih =>
      intro inside
      have before := ih (by omega)
      rw [List.range'_1_concat, List.foldl_append]
      have last := copy_leaves onScreen before.kept.queued
        (show first + n < rows * cols by omega) (show first + n - cols < rows * cols by omega)
      refine ⟨before.kept.trans last.kept, fun i => ?_⟩
      refine (last.cells i).trans ?_
      -- the source has not been written yet: its row is below every row written so far
      have source := before.cells (first + n)
      rw [movedUp, if_neg (by have := onScreen.someCol; omega)] at source
      rw [Function.update_apply, source, before.cells i, movedUp, movedUp]
      split_ifs with target
      · rw [target, Nat.sub_add_cancel (by omega)]
      · omega
      · rfl
      · omega
      · omega
      · rfl

def movedDown (cols first n : Nat) (cells : Nat → FbChar) (i : Nat) : FbChar :=
  if first + cols ≤ i ∧ i < first + cols + n then cells (i - cols) else cells i

theorem moveDown_leaves (queued : Queued rows cols fb) :
    ∀ n first, first + n + cols ≤ rows * cols → Leaves rows cols fb
      ((List.range' first n).foldr (fun i fb =>
        (fb.touch (i < rows * cols)).pushToQueue ctx (fb.charAt i) ((i + cols) % cols)
          ((i + cols) / cols)) fb)
      (movedDown cols first n fb.charAt) := by
  intro n
  induction n with
  | zero =>
      intro first _
      refine ⟨.refl queued, fun i => ?_⟩
      rw [movedDown, if_neg (by omega)]
      rfl
  | succ n ih =>
      intro first inside
      have before := ih (first + 1) (by omega)
      rw [List.range'_succ, List.foldr_cons]
      have last := copy_leaves onScreen before.kept.queued
        (show first < rows * cols by omega) (show first + cols < rows * cols by omega)
      refine ⟨before.kept.trans last.kept, fun i => ?_⟩
      refine (last.cells i).trans ?_
      have source := before.cells first
      rw [movedDown, if_neg (by have := onScreen.someCol; omega)] at source
      rw [Function.update_apply, source, before.cells i, movedDown, movedDown]
      split_ifs with target
      · rw [target, Nat.add_sub_cancel]
      · omega
      · rfl
      · omega
      · omega
      · rfl

omit onScreen in
theorem Kept.empty {fb' : FbContext} (kept : Kept rows cols fb fb') : fb'.empty = fb.empty :=
  kept.field FbContext.empty fun _ => rfl

/-- `flanterm_fb_scroll` -/
theorem scroll_leaves (queued : Queued rows cols fb) :
    Leaves rows cols fb (fb.scroll ctx)
      (rowFilled cols (ctx.scrollBottomMargin - 1) cols fb.empty
        (movedUp cols ((ctx.scrollTopMargin + 1) * cols)
          (ctx.scrollBottomMargin * cols - (ctx.scrollTopMargin + 1) * cols) fb.charAt)) := by
  have someBottom := onScreen.someBottom
  have bottom := onScreen.bottom
  have inside : ctx.scrollBottomMargin * cols ≤ rows * cols := Nat.mul_le_mul_right _ bottom
  have top : (ctx.scrollTopMargin + 1) * cols ≤ rows * cols :=
    Nat.mul_le_mul_right _ onScreen.top
  have moved := moveUp_leaves onScreen queued
    (show cols ≤ (ctx.scrollTopMargin + 1) * cols from Nat.le_mul_of_pos_left _ (Nat.succ_pos _))
    (ctx.scrollBottomMargin * cols - (ctx.scrollTopMargin + 1) * cols) (by omega)
  have blanked := blankRow_leaves onScreen moved.kept.queued
    (show ctx.scrollBottomMargin - 1 < rows by omega)
  unfold FbContext.scroll
  simp only [onScreen.sameCols, onScreen.sameRows]
  refine ⟨moved.kept.trans blanked.kept, fun i => (blanked.cells i).trans ?_⟩
  rw [moved.kept.empty, rowFilled, rowFilled, moved.cells i]

/-- `flanterm_fb_revscroll` -/
theorem revscroll_leaves (queued : Queued rows cols fb) :
    Leaves rows cols fb (fb.revscroll ctx)
      (rowFilled cols ctx.scrollTopMargin cols fb.empty
        (movedDown cols (ctx.scrollTopMargin * cols)
          ((ctx.scrollBottomMargin - 1) * cols - ctx.scrollTopMargin * cols) fb.charAt)) := by
  have someBottom := onScreen.someBottom
  have inside : (ctx.scrollBottomMargin - 1 + 1) * cols ≤ rows * cols :=
    Nat.mul_le_mul_right _ (by have := onScreen.bottom; omega)
  have top : (ctx.scrollTopMargin + 1) * cols ≤ rows * cols :=
    Nat.mul_le_mul_right _ onScreen.top
  rw [Nat.add_mul, Nat.one_mul] at inside top
  have moved := moveDown_leaves onScreen queued
    ((ctx.scrollBottomMargin - 1) * cols - ctx.scrollTopMargin * cols)
    (ctx.scrollTopMargin * cols) (by omega)
  have blanked := blankRow_leaves onScreen moved.kept.queued onScreen.top
  unfold FbContext.revscroll
  simp only [onScreen.sameCols, onScreen.sameRows]
  refine ⟨moved.kept.trans blanked.kept, fun i => (blanked.cells i).trans ?_⟩
  rw [moved.kept.empty, rowFilled, rowFilled, moved.cells i]

/-- The loop of `flanterm_fb_clear`. -/
theorem clear_leaves (queued : Queued rows cols fb) (c : FbChar) :
    ∀ n ≤ rows * cols, Leaves rows cols fb
      ((List.range n).foldl (fun fb i => fb.pushToQueue ctx c (i % cols) (i / cols)) fb)
      (fun i => if i < n then c else fb.charAt i) := by
  intro n
  induction n with
  | zero =>
      intro _
      exact ⟨.refl queued, fun i => by rw [if_neg (Nat.not_lt_zero i)]; rfl⟩
  | succ n ih =>
      intro inside
      have before := ih (by omega)
      rw [List.range_succ, List.foldl_append]
      have last := push_number_leaves onScreen before.kept.queued c (show n < rows * cols by omega)
      refine ⟨before.kept.trans last.kept, fun i => ?_⟩
      refine (last.cells i).trans ?_
      rw [Function.update_apply, before.cells i]
      split_ifs <;> first | rfl | omega

end Nyaux.Flanterm
