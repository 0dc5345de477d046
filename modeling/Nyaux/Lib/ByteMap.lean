import Mathlib.Data.List.Induction
import Mathlib.Tactic

/-! Byte-map semantics of positioned writes: the last write covering a position wins. -/

namespace Nyaux.ByteMap

structure Write where
  offset : Nat
  bytes : List UInt8
  deriving DecidableEq

def Write.stop (w : Write) : Nat := w.offset + w.bytes.length

def Write.at (w : Write) (p : Nat) : Option UInt8 :=
  if w.offset ≤ p then w.bytes[p - w.offset]? else none

def lastByte : List Write → Nat → Option UInt8
  | [], _ => none
  | w :: later, p => (lastByte later p).or (w.at p)

def extent : List Write → Nat
  | [] => 0
  | w :: later => max w.stop (extent later)

theorem lastByte_append (earlier later : List Write) (p : Nat) :
    lastByte (earlier ++ later) p = (lastByte later p).or (lastByte earlier p) := by
  induction earlier with
  | nil => simp [lastByte]
  | cons w rest ih => simp [lastByte, ih, Option.or_assoc]

theorem lastByte_snoc (earlier : List Write) (w : Write) (p : Nat) :
    lastByte (earlier ++ [w]) p = (w.at p).or (lastByte earlier p) := by
  simp [lastByte_append, lastByte]

theorem extent_append (earlier later : List Write) :
    extent (earlier ++ later) = max (extent earlier) (extent later) := by
  induction earlier with
  | nil => simp [extent]
  | cons w rest ih => simp [extent, ih, max_assoc]

theorem extent_snoc (earlier : List Write) (w : Write) :
    extent (earlier ++ [w]) = max (extent earlier) w.stop := by
  simp [extent_append, extent]

theorem at_of_outside (w : Write) (p : Nat) (outside : ¬(w.offset ≤ p ∧ p < w.stop)) :
    w.at p = none := by
  unfold Write.at
  split
  · rename_i lower
    apply List.getElem?_eq_none
    unfold Write.stop at outside
    omega
  · rfl

theorem lastByte_beyond (ws : List Write) (p : Nat) (beyond : extent ws ≤ p) :
    lastByte ws p = none := by
  induction ws with
  | nil => rfl
  | cons w rest ih =>
      have first : w.stop ≤ p := le_trans (le_max_left _ _) beyond
      have others : extent rest ≤ p := le_trans (le_max_right _ _) beyond
      rw [lastByte, ih others, at_of_outside w p (by omega)]
      rfl

end Nyaux.ByteMap
