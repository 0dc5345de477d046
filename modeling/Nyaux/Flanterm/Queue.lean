import Nyaux.Flanterm.Pixels
import Nyaux.Flanterm.Simulation
import Nyaux.Lib.WriteBack

/-! The queue of changed cells as a write-back buffer over the grid: every cell has at
most one item, so the queue never holds more items than the screen has cells. -/

namespace Nyaux.Flanterm

open WriteBack

namespace FbContext

/-- The grid, the map and the queue, with cells under their numbers. -/
def buffer (fb : FbContext) (cols : Nat) : Buffer Nat FbChar where
  base := fb.grid
  slot := fb.map
  log j := ((fb.queue j).y * cols + (fb.queue j).x, (fb.queue j).c)
  used := fb.queueI

/-- All that pushing to the queue leaves alone. -/
def rest (fb : FbContext) : FbContext :=
  { fb with queue := fun _ => ⟨0, 0, ⟨0, 0, 0⟩⟩, queueI := 0, map := fun _ => none, fault := false }

end FbContext

structure Queued (rows cols : Nat) (fb : FbContext) : Prop where
  valid : (fb.buffer cols).Valid
  inRow : ∀ j < fb.queueI, (fb.queue j).x < cols
  inCol : ∀ j < fb.queueI, (fb.queue j).y < rows
  noFault : fb.fault = false

/-- What pushing to the queue does to everything but the cells' characters. -/
structure Kept (rows cols : Nat) (fb fb' : FbContext) : Prop where
  queued : Queued rows cols fb'
  rest : fb'.rest = fb.rest
  pending : ∀ {i}, fb'.map i = none → fb.map i = none

theorem Kept.refl {rows cols : Nat} {fb : FbContext} (queued : Queued rows cols fb) :
    Kept rows cols fb fb := ⟨queued, rfl, id⟩

theorem Kept.trans {rows cols : Nat} {a b c : FbContext} (first : Kept rows cols a b)
    (second : Kept rows cols b c) : Kept rows cols a c :=
  ⟨second.queued, second.rest.trans first.rest, fun free => first.pending (second.pending free)⟩

theorem Kept.field {rows cols : Nat} {fb fb' : FbContext} {α : Sort _} (kept : Kept rows cols fb fb')
    (f : FbContext → α) (outside : ∀ fb, f fb.rest = f fb) : f fb' = f fb := by
  rw [← outside fb', kept.rest, outside fb]

variable {rows cols : Nat} {ctx : Context} {fb : FbContext}

theorem charAt_eq (fb : FbContext) (cols : Nat) : fb.charAt = (fb.buffer cols).value := by
  funext i
  cases slot : fb.map i with
  | none =>
      have here : (fb.buffer cols).slot i = none := slot
      have held : fb.charAt i = fb.grid i := by rw [FbContext.charAt, slot]
      rw [held, Buffer.value, here]
      exact rfl
  | some q =>
      have here : (fb.buffer cols).slot i = some q := slot
      have held : fb.charAt i = (fb.queue q).c := by rw [FbContext.charAt, slot]
      rw [held, Buffer.value, here]
      exact rfl

theorem Queued.inside (queued : Queued rows cols fb) (j : Nat) (used : j < fb.queueI) :
    ((fb.buffer cols).log j).1 ∈ Finset.range (rows * cols) :=
  Finset.mem_range.mpr (place_lt (queued.inRow j used) (queued.inCol j used))

/-- `&ctx->queue[ctx->queue_i]` is inside the queue while some cell has no item. -/
theorem Queued.room (queued : Queued rows cols fb) {i : Nat} (cell : i < rows * cols)
    (free : fb.map i = none) : fb.queueI < rows * cols := by
  have few := Buffer.used_lt_card queued.valid queued.inside (Finset.mem_range.mpr cell) free
  rwa [Finset.card_range] at few

theorem touch_kept (queued : Queued rows cols fb) {inside : Bool} (true_ : inside = true) :
    Kept rows cols fb (fb.touch inside) :=
  ⟨{ queued with noFault := by simp [FbContext.touch, queued.noFault, true_] }, rfl, id⟩

theorem log_update (queue : Nat → QueueItem) (cols q : Nat) (item : QueueItem) :
    (fun j => ((Function.update queue q item j).y * cols + (Function.update queue q item j).x,
      (Function.update queue q item j).c)) =
      Function.update (fun j => ((queue j).y * cols + (queue j).x, (queue j).c)) q
        (item.y * cols + item.x, item.c) := by
  funext j
  by_cases same : j = q
  · rw [same, Function.update_self, Function.update_self]
  · rw [Function.update_of_ne same, Function.update_of_ne same]

section

variable (onScreen : OnScreen rows cols ctx) {c : FbChar} {x y : Nat} (inRow : x < cols)
  (inCol : y < rows)

include onScreen inRow inCol

theorem push_hit {q : Nat} (slot : fb.map (y * cols + x) = some q) :
    fb.pushToQueue ctx c x y =
      { fb with queue := Function.update fb.queue q { fb.queue q with c := c } } := by
  unfold FbContext.pushToQueue
  rw [onScreen.sameCols, onScreen.sameRows, if_neg (by omega)]
  dsimp only
  rw [slot]

theorem push_same (slot : fb.map (y * cols + x) = none) (same : fb.grid (y * cols + x) = c) :
    fb.pushToQueue ctx c x y = fb := by
  unfold FbContext.pushToQueue
  rw [onScreen.sameCols, onScreen.sameRows, if_neg (by omega)]
  dsimp only
  rw [slot]
  exact if_pos same

theorem push_miss (slot : fb.map (y * cols + x) = none) (other : fb.grid (y * cols + x) ≠ c) :
    fb.pushToQueue ctx c x y =
      { fb.touch (fb.queueI < rows * cols) with
        queue := Function.update fb.queue fb.queueI ⟨x, y, c⟩
        queueI := fb.queueI + 1
        map := Function.update fb.map (y * cols + x) (some fb.queueI) } := by
  unfold FbContext.pushToQueue
  rw [onScreen.sameCols, onScreen.sameRows, if_neg (by omega)]
  dsimp only
  rw [slot]
  exact if_neg other

theorem push_buffer :
    (fb.pushToQueue ctx c x y).buffer cols = (fb.buffer cols).put (y * cols + x) c := by
  cases slot : fb.map (y * cols + x) with
  | some q =>
      rw [push_hit onScreen inRow inCol slot, Buffer.put_hit (b := fb.buffer cols) slot]
      exact congrArg (Buffer.mk fb.grid fb.map · fb.queueI) (log_update fb.queue cols q _)
  | none =>
      by_cases same : fb.grid (y * cols + x) = c
      · rw [push_same onScreen inRow inCol slot same,
          Buffer.put_same (b := fb.buffer cols) slot same]
      · rw [push_miss onScreen inRow inCol slot same,
          Buffer.put_miss (b := fb.buffer cols) slot same]
        exact congrArg (Buffer.mk fb.grid _ · _) (log_update fb.queue cols fb.queueI ⟨x, y, c⟩)

theorem push_inside_kept (queued : Queued rows cols fb) :
    Kept rows cols fb (fb.pushToQueue ctx c x y) := by
  have valid := Buffer.put_valid queued.valid (y * cols + x) c
  rw [← push_buffer onScreen inRow inCol] at valid
  cases slot : fb.map (y * cols + x) with
  | some q =>
      have used := (queued.valid.slotted slot).1
      rw [push_hit onScreen inRow inCol slot] at valid ⊢
      refine ⟨⟨valid, fun j inside => ?_, fun j inside => ?_, queued.noFault⟩, rfl, id⟩
      · dsimp only at inside ⊢
        rw [Function.update_apply]
        split_ifs
        · exact queued.inRow q used
        · exact queued.inRow j inside
      · dsimp only at inside ⊢
        rw [Function.update_apply]
        split_ifs
        · exact queued.inCol q used
        · exact queued.inCol j inside
  | none =>
      by_cases same : fb.grid (y * cols + x) = c
      · rw [push_same onScreen inRow inCol slot same]
        exact .refl queued
      · have room := queued.room (place_lt inRow inCol) slot
        rw [push_miss onScreen inRow inCol slot same] at valid ⊢
        refine ⟨⟨valid, fun j inside => ?_, fun j inside => ?_, ?_⟩, rfl, fun {i} free => ?_⟩
        · dsimp only at inside ⊢
          rw [Function.update_apply]
          split_ifs
          · exact inRow
          · exact queued.inRow j (by omega)
        · dsimp only at inside ⊢
          rw [Function.update_apply]
          split_ifs
          · exact inCol
          · exact queued.inCol j (by omega)
        · simp [FbContext.touch, queued.noFault, room]
        · by_cases target : i = y * cols + x
          · rw [target]
            exact slot
          · exact (Function.update_of_ne target _ fb.map).symm.trans free

end

theorem push_kept (onScreen : OnScreen rows cols ctx) (queued : Queued rows cols fb) (c : FbChar)
    (x y : Nat) : Kept rows cols fb (fb.pushToQueue ctx c x y) := by
  by_cases outside : x ≥ ctx.cols ∨ y ≥ ctx.rows
  · rw [FbContext.pushToQueue, if_pos outside]
    exact .refl queued
  · rw [onScreen.sameCols, onScreen.sameRows] at outside
    exact push_inside_kept onScreen (by omega) (by omega) queued

theorem push_charAt (onScreen : OnScreen rows cols ctx) (queued : Queued rows cols fb) (c : FbChar)
    {x y : Nat} (inRow : x < cols) (inCol : y < rows) :
    (fb.pushToQueue ctx c x y).charAt = Function.update fb.charAt (y * cols + x) c := by
  rw [charAt_eq _ cols, charAt_eq _ cols, push_buffer onScreen inRow inCol,
    Buffer.put_value queued.valid]

end Nyaux.Flanterm
