import Nyaux.Mm.Region

/-! What the allocation loop looks for in a list counted from address 0. -/

namespace Nyaux.Mm

open Word

structure GapAt (limit : Nat) (regions : List VmmRegion) (length start : Nat) : Prop where
  adjacent : start = 0 ∨ ∃ r ∈ regions, r.base + r.length = start
  apart : ∀ r ∈ regions, r.base + r.length ≤ start ∨ start + length + 0x1000 ≤ r.base
  below : start + length + 0x1000 ≤ limit

def LowestGap (limit : Nat) (regions : List VmmRegion) (length start : Nat) : Prop :=
  GapAt limit regions length start ∧ ∀ other, GapAt limit regions length other → start ≤ other

theorem LowestGap.unique {limit length a b : Nat} {regions : List VmmRegion}
    (left : LowestGap limit regions length a) (right : LowestGap limit regions length b) : a = b :=
  Nat.le_antisymm (left.2 b right.1) (right.2 a left.1)

theorem pos_zero {r : VmmRegion} (word : r.base < 2 ^ 64) : pos 0 r = r.base := by
  unfold pos sub64
  omega

theorem passed_le {size other : Nat} (plain : add64 (alignUp size 4096) 0x1000 =
      alignUp size 4096 + 0x1000) (a : VmmRegion) (rest : List VmmRegion)
    (passed : (a :: rest).IsChain fun x y => fits size x y = false)
    (words : ∀ r ∈ rest, r.base < 2 ^ 64)
    (apart : ∀ r ∈ rest, r.base + r.length ≤ other ∨
      other + alignUp size 4096 + 0x1000 ≤ r.base)
    (start : a.base + a.length ≤ other) :
    ((a :: rest).getLast (List.cons_ne_nil _ _)).base +
      ((a :: rest).getLast (List.cons_ne_nil _ _)).length ≤ other := by
  induction rest generalizing a with
  | nil => exact start
  | cons b rest ih =>
      obtain ⟨refused, passed⟩ := List.isChain_cons_cons.mp passed
      have word := words b List.mem_cons_self
      rw [List.getLast_cons (List.cons_ne_nil b rest)]
      rcases apart b List.mem_cons_self with lower | upper
      · exact ih b passed (fun r member => words r (List.mem_cons_of_mem _ member))
          (fun r member => apart r (List.mem_cons_of_mem _ member)) lower
      · have stop : a.stop = a.base + a.length := add64_of_lt (by omega)
        have gap := of_decide_eq_false refused
        rw [stop, plain, sub64_of_le (by omega) word] at gap
        omega

theorem endPos_eq {before : List VmmRegion} (words : ∀ r ∈ before, r.base < 2 ^ 64)
    (first : VmmRegion) (zero : first.base + first.length = 0) :
    endPos 0 before = ((first :: before).getLast (List.cons_ne_nil _ _)).base +
      ((first :: before).getLast (List.cons_ne_nil _ _)).length := by
  cases before using List.reverseRecOn with
  | nil => simp [endPos, zero]
  | append_singleton before r =>
      have word := pos_zero (words r (by simp))
      have shown : (first :: (before ++ [r])).getLast (List.cons_ne_nil _ _) = r := by simp
      simp [endPos, word, shown]

namespace Layout

variable {first last : VmmRegion} {mids : List VmmRegion}

theorem lowest_gap (layout : Layout 0 first mids last) (empty : first.base + first.length = 0)
    (before after : List VmmRegion) (cur : VmmRegion) (size : Nat)
    (split : mids ++ [last] = before ++ cur :: after)
    (fit : fits size ((first :: before).getLast (List.cons_ne_nil _ _)) cur = true)
    (passed : (first :: before).IsChain fun x y => fits size x y = false)
    (plain : add64 (alignUp size 4096) 0x1000 = alignUp size 4096 + 0x1000) :
    LowestGap last.base mids (alignUp size 4096) (endPos 0 before) := by
  obtain ⟨rest, tail, mids_eq, -, position, room⟩ := layout.first_fit before after cur 0 size
    split fit plain _ rfl
  have words : ∀ r ∈ mids, r.base < 2 ^ 64 :=
    fun r member => layout.words r (List.mem_append_left _ member)
  have wordsBefore : ∀ r ∈ before, r.base < 2 ^ 64 :=
    fun r member => words r (by rw [mids_eq]; exact List.mem_append_left _ member)
  have below : ∀ r ∈ before, r.base + r.length ≤ endPos 0 before := by
    intro r member
    have := layout.below_end before (cur :: after) split r member
    rwa [pos_zero (wordsBefore r member)] at this
  have above : ∀ r ∈ rest ++ [last],
      endPos 0 before + alignUp size 4096 + 0x1000 ≤ r.base := by
    intro r member
    have := room r member
    rw [position, pos_zero (layout.words r (by
      rw [split, tail]
      exact List.mem_append_right _ member))] at this
    exact this
  refine ⟨⟨?_, ?_, above last (by simp)⟩, ?_⟩
  · cases before using List.reverseRecOn with
    | nil => exact Or.inl rfl
    | append_singleton before r =>
        refine Or.inr ⟨r, by rw [mids_eq]; simp, ?_⟩
        have word := pos_zero (wordsBefore r (by simp))
        simp [endPos, word]
  · intro r member
    rw [mids_eq] at member
    rcases List.mem_append.mp member with earlier | later
    · exact Or.inl (below r earlier)
    · exact Or.inr (above r (List.mem_append_left _ later))
  · intro other gap
    have reached := passed_le plain first before passed wordsBefore
      (fun r member => gap.apart r (by rw [mids_eq]; exact List.mem_append_left _ member))
      (by omega)
    rwa [← endPos_eq wordsBefore first empty] at reached

end Layout

end Nyaux.Mm
