import Mathlib.Data.Finset.Card
import Mathlib.Tactic

/-! The states a partial step function passes through.

Over finitely many states a run stops exactly when it reaches no state that leads back to
itself. -/

namespace Nyaux.Orbit

variable {State : Type} (next : State → Option State)

def iterate : Nat → State → Option State
  | 0, s => some s
  | n + 1, s => (next s).bind (iterate n)

def Reaches (s t : State) : Prop := ∃ n, iterate next n s = some t

/-- The state comes round again. -/
def Recurs (s : State) : Prop := ∃ n, iterate next (n + 1) s = some s

variable {next}

theorem iterate_add (m n : Nat) (s : State) :
    iterate next (m + n) s = (iterate next m s).bind (iterate next n) := by
  induction m generalizing s with
  | zero => rw [Nat.zero_add]; rfl
  | succ m ih =>
      rw [Nat.succ_add, iterate, iterate, Option.bind_assoc]
      exact congrArg (next s).bind (funext ih)

theorem iterate_none {m n : Nat} {s : State} (stopped : iterate next m s = none) (later : m ≤ n) :
    iterate next n s = none := by
  obtain ⟨more, rfl⟩ := Nat.exists_eq_add_of_le later
  rw [iterate_add, stopped]
  rfl

variable {states : Finset State}

theorem iterate_mem (closed : ∀ s t, next s = some t → t ∈ states) {n : Nat} {s t : State}
    (start : s ∈ states) (reached : iterate next n s = some t) : t ∈ states := by
  induction n generalizing s with
  | zero => exact Option.some.inj reached ▸ start
  | succ n ih =>
      obtain ⟨u, step, onward⟩ := Option.bind_eq_some_iff.mp reached
      exact ih (closed s u step) onward

theorem stops_of_not_recurs (closed : ∀ s t, next s = some t → t ∈ states) {s : State}
    (start : s ∈ states) (acyclic : ∀ t, Reaches next s t → ¬Recurs next t) :
    iterate next states.card s = none := by
  by_contra going
  have alive : ∀ n ≤ states.card, ∃ t, iterate next n s = some t := by
    intro n early
    rw [← Option.isSome_iff_exists, Option.isSome_iff_ne_none]
    exact fun stopped => going (iterate_none stopped early)
  let visit : Nat → State := fun n => (iterate next n s).getD s
  have visited : ∀ n ≤ states.card, iterate next n s = some (visit n) := by
    intro n early
    obtain ⟨t, reached⟩ := alive n early
    simp only [visit, reached, Option.getD_some]
  have maps : Set.MapsTo visit (Finset.range (states.card + 1)) states := by
    intro n inRange
    have early : n ≤ states.card := by
      have := Finset.mem_range.mp inRange
      omega
    exact iterate_mem closed start (visited n early)
  obtain ⟨m, inM, n, inN, different, same⟩ :=
    Finset.exists_ne_map_eq_of_card_lt_of_maps_to (by simp) maps
  have earlyM : m ≤ states.card := Nat.lt_succ_iff.mp (Finset.mem_range.mp inM)
  have earlyN : n ≤ states.card := Nat.lt_succ_iff.mp (Finset.mem_range.mp inN)
  -- the later of the two visits is a round trip from the earlier one
  have round : ∀ i j, i < j → j ≤ states.card → visit i = visit j → False := by
    intro i j before late equal
    obtain ⟨more, rfl⟩ := Nat.exists_eq_add_of_lt before
    have there := visited i (by omega)
    refine acyclic (visit i) ⟨i, there⟩ ⟨more, ?_⟩
    have again := visited (i + more + 1) late
    rw [Nat.add_assoc, iterate_add, there, ← Nat.add_assoc, ← equal] at again
    exact again
  rcases Nat.lt_or_gt_of_ne different with before | after
  · exact round m n before earlyN same
  · exact round n m after earlyM same.symm

end Nyaux.Orbit
