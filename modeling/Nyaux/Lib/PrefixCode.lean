import Mathlib.Data.List.Infix
import Mathlib.Tactic

/-! Streams of symbols cut into the words of a code.

A decoder keeps the symbols of a word it has not seen the end of. Over a prefix-free
code the cut is unique, and symbols that contradict every word are never resolved. -/

namespace Nyaux.PrefixCode

variable {α : Type} {Code : List α → Prop}

/-- The stream is a run of words, the last one possibly cut short. -/
def Framed (Code : List α → Prop) (stream : List α) : Prop :=
  ∃ words : List (List α), (∀ word ∈ words, Code word) ∧ stream <+: words.flatten

def Cut (Code : List α → Prop) (stream pending : List α) : Prop :=
  ∃ words : List (List α), (∀ word ∈ words, Code word) ∧ stream = words.flatten ++ pending

def Astray (Code : List α → Prop) (pending : List α) : Prop :=
  ∀ word, Code word → ¬pending <+: word ∧ ¬word <+: pending

def PrefixFree (Code : List α → Prop) : Prop :=
  ∀ u v, Code u → Code v → u <+: v → u = v

theorem cut_nil : Cut Code [] [] := ⟨[], by simp, rfl⟩

theorem Cut.snoc {stream pending : List α} (cut : Cut Code stream pending) (a : α) :
    Cut Code (stream ++ [a]) (pending ++ [a]) := by
  obtain ⟨words, known, same⟩ := cut
  exact ⟨words, known, by rw [same, List.append_assoc]⟩

theorem Cut.close {stream word : List α} (cut : Cut Code stream word) (complete : Code word) :
    Cut Code stream [] := by
  obtain ⟨words, known, same⟩ := cut
  have allKnown : ∀ w ∈ words ++ [word], Code w :=
    List.forall_mem_append.mpr ⟨known, List.forall_mem_singleton.mpr complete⟩
  exact ⟨words ++ [word], allKnown, by simp [same]⟩

theorem Cut.framed {stream pending word : List α} (cut : Cut Code stream pending)
    (complete : Code word) (start : pending <+: word) : Framed Code stream := by
  obtain ⟨words, known, same⟩ := cut
  have allKnown : ∀ w ∈ words ++ [word], Code w :=
    List.forall_mem_append.mpr ⟨known, List.forall_mem_singleton.mpr complete⟩
  have inside : words.flatten ++ pending <+: (words ++ [word]).flatten := by
    simpa using (List.prefix_append_right_inj words.flatten).mpr start
  exact ⟨words ++ [word], allKnown, same ▸ inside⟩

theorem Cut.framed_of_nil {stream : List α} (cut : Cut Code stream []) : Framed Code stream := by
  obtain ⟨words, known, same⟩ := cut
  exact ⟨words, known, by simp [same]⟩

theorem Framed.of_prefix {seen stream : List α} (framed : Framed Code stream)
    (earlier : seen <+: stream) : Framed Code seen := by
  obtain ⟨words, known, start⟩ := framed
  exact ⟨words, known, earlier.trans start⟩

theorem Astray.snoc {pending : List α} (astray : Astray Code pending) (a : α) :
    Astray Code (pending ++ [a]) := by
  intro word complete
  obtain ⟨short, long⟩ := astray word complete
  refine ⟨fun start => short ((List.prefix_append pending [a]).trans start), fun start => ?_⟩
  rcases List.prefix_concat_iff.mp start with whole | inside
  · exact short (whole ▸ List.prefix_append pending [a])
  · exact long inside

theorem prefix_snoc_cases {word pending : List α} {a : α}
    (both : ∃ whole, word <+: whole ∧ pending ++ [a] <+: whole) :
    pending ++ [a] <+: word ∨ word <+: pending := by
  obtain ⟨whole, first, second⟩ := both
  rcases List.prefix_or_prefix_of_prefix second first with shorter | longer
  · exact .inl shorter
  · rcases List.prefix_concat_iff.mp longer with same | inside
    · exact .inl (same ▸ List.prefix_rfl)
    · exact .inr inside

theorem Framed.continues {words : List (List α)} {pending : List α} {a : α}
    (unique : PrefixFree Code) (known : ∀ word ∈ words, Code word)
    (open_ : ∀ word, Code word → ¬word <+: pending)
    (framed : Framed Code (words.flatten ++ (pending ++ [a]))) :
    ∃ word, Code word ∧ pending ++ [a] <+: word := by
  obtain ⟨others, othersKnown, start⟩ := framed
  induction words generalizing others with
  | nil =>
      cases others with
      | nil => simp at start
      | cons word rest =>
          have complete := othersKnown word List.mem_cons_self
          have both : ∃ whole, word <+: whole ∧ pending ++ [a] <+: whole :=
            ⟨(word :: rest).flatten, by simp, by simpa using start⟩
          rcases prefix_snoc_cases both with inside | whole
          · exact ⟨word, complete, inside⟩
          · exact absurd whole (open_ word complete)
  | cons word rest ih =>
      cases others with
      | nil => simp at start
      | cons other more =>
          have first : word <+: other ++ more.flatten :=
            (List.prefix_append word _).trans (by simpa using start)
          have second : other <+: other ++ more.flatten := List.prefix_append other _
          have complete := known word List.mem_cons_self
          have otherComplete := othersKnown other List.mem_cons_self
          have same : word = other := by
            rcases List.prefix_or_prefix_of_prefix first second with shorter | longer
            · exact unique word other complete otherComplete shorter
            · exact (unique other word otherComplete complete longer).symm
          have shifted : rest.flatten ++ (pending ++ [a]) <+: more.flatten := by
            rw [← List.prefix_append_right_inj word]
            simpa [same] using start
          exact ih (fun w member => known w (List.mem_cons_of_mem _ member)) more
            (fun w member => othersKnown w (List.mem_cons_of_mem _ member)) shifted

end Nyaux.PrefixCode
