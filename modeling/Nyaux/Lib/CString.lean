import Mathlib.Data.List.TakeWhile
import Mathlib.Tactic

/-! Zero-terminated byte strings, and the components of a path. -/

namespace Nyaux.CString

def cstring (memory : List UInt8) : List UInt8 := memory.takeWhile (· ≠ 0)

/-- `strncmp`; a byte past the end of a list is the terminator. -/
def strncmp (a b : List UInt8) : Nat → Int
  | 0 => 0
  | n + 1 =>
      let ret : Int := (a.headD 0).toNat - (b.headD 0).toNat
      if ret ≠ 0 ∨ a.headD 0 = 0 ∨ b.headD 0 = 0 then ret else strncmp a.tail b.tail n

theorem cstring_append_zero (text rest : List UInt8) (plain : 0 ∉ text) :
    cstring (text ++ 0 :: rest) = text := by
  have kept : ∀ c ∈ text, decide (c ≠ 0) = true :=
    fun c member => decide_eq_true (fun zero => plain (zero ▸ member))
  rw [cstring, List.takeWhile_append_of_pos kept]
  simp

theorem zero_not_mem_cstring (memory : List UInt8) : 0 ∉ cstring memory := by
  intro member
  have := List.mem_takeWhile_imp member
  simp at this

theorem cstring_append (memory rest : List UInt8) (ends : 0 ∈ memory) :
    cstring (memory ++ rest) = cstring memory := by
  induction memory with
  | nil => simp at ends
  | cons c memory ih =>
      by_cases zero : c = 0
      · simp [cstring, zero]
      · have later : 0 ∈ memory := (List.mem_cons.mp ends).resolve_left (Ne.symm zero)
        have same := ih later
        simp only [cstring, ne_eq, decide_not] at same ⊢
        simp [zero, same]

variable {α : Type} [DecidableEq α]

/-- The non-empty pieces between separators. -/
def components (sep : α) (path : List α) : List (List α) :=
  (path.splitOn sep).filter (· ≠ [])

theorem components_nil (sep : α) : components sep ([] : List α) = [] := by
  simp [components, List.splitOn_nil]

theorem components_sep (sep : α) (path : List α) :
    components sep (sep :: path) = components sep path := by
  simp [components, List.splitOn_cons_eq_if_modifyHead]

theorem components_word (sep : α) (word : List α) (nonempty : word ≠ []) (plain : sep ∉ word) :
    components sep word = [word] := by
  simp [components, List.splitOn_eq_singleton plain, nonempty]

theorem components_word_sep (sep : α) (word path : List α) (nonempty : word ≠ [])
    (plain : sep ∉ word) :
    components sep (word ++ sep :: path) = word :: components sep path := by
  simp [components, List.splitOn_append_cons_self, List.splitOn_eq_singleton plain, nonempty]

theorem word_split (sep : α) (c : α) (path : List α) (other : c ≠ sep) :
    ∃ word rest, c :: path = word ++ rest ∧ word ≠ [] ∧ sep ∉ word ∧
      (rest = [] ∨ ∃ more, rest = sep :: more) := by
  refine ⟨(c :: path).takeWhile (· ≠ sep), (c :: path).dropWhile (· ≠ sep),
    List.takeWhile_append_dropWhile.symm, by simp [other], ?_, ?_⟩
  · intro member
    have := List.mem_takeWhile_imp member
    simp at this
  · cases tail : (c :: path).dropWhile (· ≠ sep) with
    | nil => exact Or.inl rfl
    | cons d more =>
        have stopped := List.head?_dropWhile_not (· ≠ sep) (c :: path)
        rw [tail] at stopped
        refine Or.inr ⟨more, ?_⟩
        simpa using stopped

theorem components_head (sep : α) (word rest : List α) (nonempty : word ≠ []) (plain : sep ∉ word)
    (ending : rest = [] ∨ ∃ more, rest = sep :: more) :
    components sep (word ++ rest) = word :: components sep rest := by
  rcases ending with rfl | ⟨more, rfl⟩
  · rw [List.append_nil, components_word sep word nonempty plain, components_nil]
  · rw [components_word_sep sep word more nonempty plain, components_sep]

theorem mem_components (sep : α) {path word : List α} (member : word ∈ components sep path) :
    word ≠ [] ∧ sep ∉ word ∧ word.length ≤ path.length ∧ ∀ c ∈ word, c ∈ path := by
  induction hn : path.length using Nat.strong_induction_on generalizing path with
  | _ n ih =>
      cases path with
      | nil =>
          rw [components_nil] at member
          cases member
      | cons x q =>
          rw [List.length_cons] at hn
          by_cases same : x = sep
          · subst same
            rw [components_sep] at member
            obtain ⟨nonempty, plain, short, bytes⟩ := ih q.length (by omega) member rfl
            exact ⟨nonempty, plain, by omega, fun c inWord => List.mem_cons_of_mem _ (bytes c inWord)⟩
          · obtain ⟨first, rest, split, nonempty, plain, ending⟩ := word_split sep x q same
            have length := congrArg List.length split
            rw [List.length_cons, List.length_append] at length
            rw [split, components_head sep first rest nonempty plain ending] at member
            rw [split]
            rcases List.mem_cons.mp member with rfl | later
            · exact ⟨nonempty, plain, by omega, fun c inWord => List.mem_append_left _ inWord⟩
            · have positive := List.length_pos_of_ne_nil nonempty
              obtain ⟨nonempty', plain', short, bytes⟩ := ih rest.length (by omega) later rfl
              exact ⟨nonempty', plain', by omega, fun c inWord =>
                List.mem_append_right _ (bytes c inWord)⟩

end Nyaux.CString
