import Mathlib.Logic.Function.Basic
import Mathlib.Tactic

/-! Loops that write cells of a memory, where no two writes of one cell disagree. -/

namespace Nyaux.Paint

variable {ι α κ : Type}

def Paints (f : (ι → α) → ι → α) (region : ι → Prop) (picture : ι → α) : Prop :=
  ∀ memory cell, (region cell → f memory cell = picture cell) ∧
    (¬region cell → f memory cell = memory cell)

theorem Paints.update [DecidableEq ι] {picture : ι → α} {target : ι} {value : α}
    (colour : picture target = value) :
    Paints (fun memory => Function.update memory target value) (· = target) picture := by
  intro memory cell
  constructor
  · rintro rfl
    dsimp only
    rw [Function.update_self, colour]
  · intro other
    exact Function.update_of_ne other _ _

theorem Paints.congr {f : (ι → α) → ι → α} {region region' : ι → Prop} {picture : ι → α}
    (paints : Paints f region picture) (same : ∀ cell, region' cell ↔ region cell) :
    Paints f region' picture := by
  intro memory cell
  rw [same cell]
  exact paints memory cell

theorem Paints.comp {f g : (ι → α) → ι → α} {region region' : ι → Prop} {picture : ι → α}
    (first : Paints f region picture) (second : Paints g region' picture) :
    Paints (fun memory => g (f memory)) (fun cell => region cell ∨ region' cell) picture := by
  intro memory cell
  have later := second (f memory) cell
  by_cases again : region' cell
  · exact ⟨fun _ => later.1 again, fun none_ => absurd (.inr again) none_⟩
  · dsimp only
    rw [later.2 again]
    exact ⟨fun here => (first memory cell).1 (here.resolve_right again),
      fun none_ => (first memory cell).2 fun here => none_ (.inl here)⟩

theorem Paints.foldl {body : (ι → α) → κ → ι → α} {region : κ → ι → Prop} {picture : ι → α}
    {rounds : List κ} (each : ∀ k ∈ rounds, Paints (body · k) (region k) picture) :
    Paints (fun memory => rounds.foldl body memory) (fun cell => ∃ k ∈ rounds, region k cell)
      picture := by
  induction rounds with
  | nil =>
      intro memory cell
      exact ⟨fun ⟨_, member, _⟩ => absurd member List.not_mem_nil, fun _ => rfl⟩
  | cons k rounds ih =>
      intro memory cell
      have later := ih (fun k member => each k (List.mem_cons_of_mem _ member)) (body memory k) cell
      have first := each k List.mem_cons_self memory cell
      dsimp only at later first ⊢
      rw [List.foldl_cons]
      by_cases again : ∃ k ∈ rounds, region k cell
      · refine ⟨fun _ => later.1 again, fun none_ => ?_⟩
        obtain ⟨k', member, here⟩ := again
        exact absurd ⟨k', List.mem_cons_of_mem _ member, here⟩ none_
      · rw [later.2 again]
        constructor
        · rintro ⟨k', member, here⟩
          rcases List.mem_cons.mp member with rfl | member
          · exact first.1 here
          · exact absurd ⟨k', member, here⟩ again
        · intro none_
          exact first.2 fun here => none_ ⟨k, List.mem_cons_self, here⟩

end Nyaux.Paint
