import Nyaux.Flanterm.Glyphs

/-! The columns that a character takes, apart from how its table is searched. -/

namespace Nyaux.Flanterm

open IntervalSearch

theorem combining_sorted : Sorted combining where
  ordered := by decide +kernel
  apart := by decide +kernel

theorem combining_from : ∀ interval ∈ combining, 0x0300 ≤ interval.first := by decide +kernel

theorem combining_to : ∀ interval ∈ combining, interval.last ≤ 0xE01EF := by decide +kernel

theorem bisearch_eq (ucs : Nat) : bisearch ucs combining =
    if ucs < 0x0300 ∨ ucs > 0xE01EF then false
    else search combining ucs combining.length 0 combining.length := rfl

theorem bisearch_iff (ucs : Nat) : bisearch ucs combining = true ↔ Covers combining ucs := by
  rw [bisearch_eq]
  split_ifs with outside
  · constructor
    · intro found
      cases found
    · rintro ⟨interval, member, first, last⟩
      have low := combining_from interval member
      have high := combining_to interval member
      omega
  · exact search_whole combining_sorted

theorem wide_from {ucs : Nat} (big : wide ucs = true) : 0x1100 ≤ ucs := by
  unfold wide at big
  exact (of_decide_eq_true big).1

/-- A character takes no column exactly if it is zero or in the table, and two exactly if it
is in one of the wide ranges and not in the table. -/
theorem mkWcwidth_iff (ucs : Nat) :
    (mkWcwidth ucs = 0 ↔ ucs = 0 ∨ Covers combining ucs) ∧
      (mkWcwidth ucs = 2 ↔ wide ucs = true ∧ ¬Covers combining ucs) ∧ mkWcwidth ucs ≤ 2 := by
  have early : ucs < 0x0300 → ¬Covers combining ucs := by
    rintro small ⟨interval, member, first, _⟩
    have := combining_from interval member
    omega
  have narrow : ucs < 0x0300 → ¬wide ucs = true := by
    intro small big
    have := wide_from big
    omega
  unfold mkWcwidth
  by_cases zero : ucs = 0
  · rw [if_pos zero]
    have small : ucs < 0x0300 := by omega
    exact ⟨⟨fun _ => .inl zero, fun _ => rfl⟩,
      ⟨fun two => absurd two (by decide), fun both => absurd both.1 (narrow small)⟩, by decide⟩
  rw [if_neg zero]
  by_cases control : ucs < 32 ∨ (ucs ≥ 0x7f ∧ ucs < 0xa0)
  · rw [if_pos control]
    have small : ucs < 0x0300 := by omega
    refine ⟨⟨fun one => absurd one (by decide), ?_⟩,
      ⟨fun two => absurd two (by decide), fun both => absurd both.1 (narrow small)⟩, by decide⟩
    rintro (rfl | covers)
    · exact absurd rfl zero
    · exact absurd covers (early small)
  rw [if_neg control]
  by_cases covers : Covers combining ucs
  · rw [if_pos ((bisearch_iff ucs).mpr covers)]
    exact ⟨⟨fun _ => .inr covers, fun _ => rfl⟩,
      ⟨fun two => absurd two (by decide), fun both => absurd covers both.2⟩, by decide⟩
  · rw [if_neg fun found => covers ((bisearch_iff ucs).mp found)]
    cases big : wide ucs with
    | true =>
        refine ⟨⟨fun two => absurd two (by decide), ?_⟩, ⟨fun _ => ⟨rfl, covers⟩, fun _ => rfl⟩,
          by decide⟩
        rintro (rfl | inTable)
        · exact absurd rfl zero
        · exact absurd inTable covers
    | false =>
        refine ⟨⟨fun one => absurd one (by decide), ?_⟩,
          ⟨fun one => absurd one (by decide), fun both => absurd both.1 (by decide)⟩, by decide⟩
        rintro (rfl | inTable)
        · exact absurd rfl zero
        · exact absurd inTable covers

end Nyaux.Flanterm
