import Mathlib.Data.Set.Basic

/-! A cache of translations over a table that changes under it.

`view` is the current entry of each page, and `valid` says which entries may be cached. -/

namespace Nyaux.Tlb

variable {Page Entry : Type} {valid : Entry → Prop} {view view' : Page → Entry}
  {cache cache' : Set (Page × Entry)} {page : Page}

/-- Every cached entry is the current one of its page. -/
def Coherent (view : Page → Entry) (cache : Set (Page × Entry)) : Prop :=
  ∀ e ∈ cache, e.2 = view e.1

def Picks (valid : Entry → Prop) (view : Page → Entry) (cache cache' : Set (Page × Entry)) : Prop :=
  ∀ e ∈ cache', e ∈ cache ∨ valid e.2 ∧ e.2 = view e.1

def invalidate (page : Page) (cache : Set (Page × Entry)) : Set (Page × Entry) :=
  {e ∈ cache | e.1 ≠ page}

structure Sound (valid : Entry → Prop) (view : Page → Entry) (cache : Set (Page × Entry)) :
    Prop where
  valid : ∀ e ∈ cache, valid e.2
  coherent : Coherent view cache

def Keeps (valid : Entry → Prop) (view view' : Page → Entry) : Prop :=
  ∀ page, valid (view page) → view' page = view page

theorem Keeps.of_eq (same : ∀ page, view' page = view page) : Keeps valid view view' :=
  fun page _ => same page

namespace Sound

theorem empty : Sound valid view ∅ :=
  ⟨fun _ member => absurd member (Set.notMem_empty _),
    fun _ member => absurd member (Set.notMem_empty _)⟩

theorem picks (sound : Sound valid view cache) (picked : Picks valid view cache cache') :
    Sound valid view cache' := by
  constructor
  · intro e member
    rcases picked e member with old | ⟨isValid, -⟩
    · exact sound.valid e old
    · exact isValid
  · intro e member
    rcases picked e member with old | ⟨-, current⟩
    · exact sound.coherent e old
    · exact current

theorem keeps (sound : Sound valid view cache) (keeps : Keeps valid view view') :
    Sound valid view' cache := by
  refine ⟨sound.valid, fun e member => ?_⟩
  have current := sound.coherent e member
  have isValid := sound.valid e member
  rw [current] at isValid
  exact current.trans (keeps e.1 isValid).symm

theorem invalidate (sound : Sound valid view cache)
    (others : ∀ other, other ≠ page → view' other = view other) :
    Sound valid view' (invalidate page cache) := by
  constructor
  · exact fun e member => sound.valid e member.1
  · intro e member
    exact (sound.coherent e member.1).trans (others e.1 member.2).symm

end Sound

theorem keeps_iff : Keeps valid view view' ↔
    ∀ cache, Sound valid view cache → Coherent view' cache := by
  constructor
  · exact fun keeps cache sound => (sound.keeps keeps).coherent
  · intro coherent page isValid
    have sound : Sound valid view {(page, view page)} := by
      constructor
      · rintro e rfl
        exact isValid
      · rintro e rfl
        rfl
    exact (coherent _ sound (page, view page) rfl).symm

end Nyaux.Tlb
