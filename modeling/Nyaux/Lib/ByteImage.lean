import Nyaux.Lib.ByteMap
import Nyaux.Lib.Memory

/-! Memory by its bytes, and images of it that are built in layers: a layer clears some
positions and then writes a run of bytes. -/

namespace Nyaux.Memory

theorem digit_below (low q r x : Nat) (divides : r * 256 ∣ q) :
    (low + q * x) / r % 256 = low / r % 256 := by
  obtain ⟨t, rfl⟩ := divides
  have split : low + r * 256 * t * x = low + r * (256 * (t * x)) := by ring
  rcases Nat.eq_zero_or_pos r with rfl | positive
  · simp
  · rw [split, Nat.add_mul_div_left _ _ positive, Nat.add_mul_mod_self_left]

theorem digit_above (low q d high t : Nat) (bound : low < q) (small : d < 256) :
    (low + q * (d + 256 * high)) / (q * 256 * t) = high / t := by
  have positive : 0 < q := by omega
  rw [← Nat.div_div_eq_div_mul, ← Nat.div_div_eq_div_mul, Nat.add_mul_div_left _ _ positive,
    Nat.div_eq_of_lt bound, Nat.zero_add, Nat.add_mul_div_left _ _ (by decide),
    Nat.div_eq_of_lt small, Nat.zero_add]

theorem replace_digit (w i j : Nat) {b : Nat} (small : b < 256) :
    (w - w / 2 ^ (8 * i) % 256 * 2 ^ (8 * i) + b * 2 ^ (8 * i)) / 2 ^ (8 * j) % 256 =
      if j = i then b else w / 2 ^ (8 * j) % 256 := by
  have positive : 0 < 2 ^ (8 * i) := Nat.two_pow_pos _
  have digit : w / 2 ^ (8 * i) % 256 < 256 := Nat.mod_lt _ (by decide)
  obtain ⟨low, d, high, bound, small', old, here⟩ : ∃ low d high, low < 2 ^ (8 * i) ∧ d < 256 ∧
      w = low + 2 ^ (8 * i) * (d + 256 * high) ∧ w / 2 ^ (8 * i) % 256 = d := by
    refine ⟨w % 2 ^ (8 * i), _, w / 2 ^ (8 * i) / 256, Nat.mod_lt _ positive, digit, ?_, rfl⟩
    rw [Nat.mod_add_div, Nat.mod_add_div]
  have new : w - d * 2 ^ (8 * i) + b * 2 ^ (8 * i) = low + 2 ^ (8 * i) * (b + 256 * high) := by
    rw [old, Nat.mul_add, Nat.mul_add, Nat.mul_comm d, Nat.mul_comm b]
    omega
  have power (m n : Nat) : 2 ^ (8 * (m + n + 1)) = 2 ^ (8 * m) * 256 * 2 ^ (8 * n) := by
    rw [show 8 * (m + n + 1) = 8 * m + 8 + 8 * n by omega, pow_add, pow_add]
    rfl
  rw [here, new]
  rcases Nat.lt_trichotomy j i with less | rfl | greater
  · obtain ⟨n, rfl⟩ := Nat.exists_eq_add_of_lt less
    have divides : 2 ^ (8 * j) * 256 ∣ 2 ^ (8 * (j + n + 1)) := ⟨_, power j n⟩
    rw [if_neg (by omega), digit_below _ _ _ _ divides, old, digit_below _ _ _ _ divides]
  · rw [if_pos rfl, Nat.add_mul_div_left _ _ positive, Nat.div_eq_of_lt bound, Nat.zero_add,
      Nat.add_mul_mod_self_left, Nat.mod_eq_of_lt small]
  · obtain ⟨n, rfl⟩ := Nat.exists_eq_add_of_lt greater
    rw [if_neg (by omega), power i n, digit_above _ _ _ _ _ bound small, old,
      digit_above _ _ _ _ _ bound small']

theorem loadByte_storeByte (mem : Mem) (address other : Nat) {byte : Nat} (small : byte < 256) :
    loadByte (storeByte mem address byte) other =
      if other = address then byte else loadByte mem other := by
  unfold loadByte storeByte
  by_cases word : other / 8 * 8 = address / 8 * 8
  · rw [word, store_same]
    have digit := replace_digit (mem (address / 8 * 8)) (address % 8) (other % 8) small
    unfold loadByte
    rw [digit]
    by_cases same : other % 8 = address % 8
    · rw [if_pos same, if_pos (by omega)]
    · rw [if_neg same, if_neg (by omega)]
  · rw [store_other _ _ _ _ word, if_neg]
    rintro rfl
    exact word rfl

end Nyaux.Memory

namespace Nyaux.ByteImage

open ByteMap

abbrev Image := Nat → Option UInt8

structure Layer where
  range : Nat → Prop
  cleared : Nat → Prop
  write : Write

open Classical in
noncomputable def Layer.over (l : Layer) (image : Image) : Image := fun p =>
  (l.write.at p).or (if l.cleared p then some 0 else image p)

noncomputable def build (image : Image) (layers : List Layer) : Image :=
  layers.foldl (fun image l => l.over image) image

def Intact (layers : List Layer) : Prop :=
  layers.Pairwise fun l later => ∀ p b, l.write.at p = some b → later.cleared p → b = 0

variable {image : Image} {layers : List Layer} {p : Nat}

theorem over_congr (l : Layer) {image' : Image} (same : image p = image' p) :
    l.over image p = l.over image' p := by
  rw [Layer.over, Layer.over, same]

theorem over_cleared (image : Image) {l : Layer} (unwritten : l.write.at p = none)
    (cleared : l.cleared p) : l.over image p = some 0 := by
  rw [Layer.over, unwritten, Option.none_or, if_pos cleared]

theorem build_congr {image' : Image} (layers : List Layer) (same : image p = image' p) :
    build image layers p = build image' layers p := by
  induction layers generalizing image image' with
  | nil => exact same
  | cons l later ih => exact ih (over_congr l same)

theorem build_append (image : Image) (first second : List Layer) :
    build image (first ++ second) = build (build image first) second := List.foldl_append

theorem build_cons (image : Image) (l : Layer) (later : List Layer) :
    build image (l :: later) = build (l.over image) later := rfl

theorem build_unwritten (image : Image) (unwritten : ∀ l ∈ layers, l.write.at p = none) :
    ((∃ l ∈ layers, l.cleared p) → build image layers p = some 0) ∧
      ((¬∃ l ∈ layers, l.cleared p) → build image layers p = image p) := by
  induction layers generalizing image with
  | nil => exact ⟨fun ⟨l, member, _⟩ => absurd member List.not_mem_nil, fun _ => rfl⟩
  | cons l later ih =>
      have here := unwritten l List.mem_cons_self
      obtain ⟨cleared, kept⟩ := ih (l.over image)
        fun l' member => unwritten l' (List.mem_cons_of_mem l member)
      rw [build_cons]
      by_cases again : ∃ l' ∈ later, l'.cleared p
      · refine ⟨fun _ => cleared again, fun none => absurd ?_ none⟩
        obtain ⟨l', member, clears⟩ := again
        exact ⟨l', List.mem_cons_of_mem l member, clears⟩
      · rw [kept again, Layer.over, here, Option.none_or]
        constructor
        · rintro ⟨l', member, clears⟩
          rcases List.mem_cons.mp member with rfl | inLater
          · exact if_pos clears
          · exact absurd ⟨l', inLater, clears⟩ again
        · exact fun none => if_neg fun clears => none ⟨l, List.mem_cons_self, clears⟩

theorem build_written {before after : List Layer} {l : Layer} {b : UInt8}
    (written : l.write.at p = some b) (later : ∀ l' ∈ after, l'.write.at p = none) :
    build image (before ++ l :: after) p = some b ↔
      ∀ l' ∈ after, l'.cleared p → b = 0 := by
  rw [build_append, build_cons]
  obtain ⟨cleared, kept⟩ := build_unwritten (l.over (build image before)) later
  by_cases again : ∃ l' ∈ after, l'.cleared p
  · rw [cleared again]
    obtain ⟨l', member, clears⟩ := again
    constructor
    · exact fun same _ _ _ => (Option.some.inj same).symm
    · exact fun zero => congrArg some (zero l' member clears).symm
  · rw [kept again, Layer.over, written, Option.some_or]
    constructor
    · exact fun _ l' member clears => absurd ⟨l', member, clears⟩ again
    · exact fun _ => rfl

theorem pairwise_of_splits {α : Type} {R : α → α → Prop} {list : List α}
    (splits : ∀ before a after, list = before ++ a :: after → ∀ b ∈ after, R a b) :
    list.Pairwise R := by
  induction list with
  | nil => exact List.Pairwise.nil
  | cons a rest ih =>
      refine List.pairwise_cons.mpr ⟨splits [] a rest rfl, ih ?_⟩
      intro before b after split
      exact splits (a :: before) b after (congrArg (a :: ·) split)

/-- Layers that write into ranges of their own: every range holds what its layer wrote, and 0
elsewhere, exactly when each unwritten position is cleared and the layers leave each other's
bytes intact. -/
theorem build_exact_iff (inside : ∀ l ∈ layers, ∀ p b, l.write.at p = some b → l.range p)
    (apart : layers.Pairwise fun l later => ∀ p, l.range p → ¬ later.range p)
    (empty : ∀ l ∈ layers, ∀ p, l.range p → image p = none) :
    (∀ l ∈ layers, ∀ p, l.range p → build image layers p = some ((l.write.at p).getD 0)) ↔
      (∀ l ∈ layers, ∀ p, l.range p → l.write.at p = none → ∃ l' ∈ layers, l'.cleared p) ∧
        Intact layers := by
  -- a position of one layer's range is written by no other layer
  have alone : ∀ before l after, layers = before ++ l :: after → ∀ p, l.range p →
      (∀ l' ∈ before, l'.write.at p = none) ∧ ∀ l' ∈ after, l'.write.at p = none := by
    intro before l after split p inRange
    rw [split, List.pairwise_append, List.pairwise_cons] at apart
    obtain ⟨-, ⟨behind, -⟩, across⟩ := apart
    constructor
    · intro l' member
      by_contra written
      obtain ⟨b, at_⟩ := Option.ne_none_iff_exists'.mp written
      exact across l' member l List.mem_cons_self p
        (inside l' (by simp [split, member]) p b at_) inRange
    · intro l' member
      by_contra written
      obtain ⟨b, at_⟩ := Option.ne_none_iff_exists'.mp written
      exact behind l' member p inRange (inside l' (by simp [split, member]) p b at_)
  have value : ∀ before l after, layers = before ++ l :: after → ∀ p b, l.write.at p = some b →
      (build image layers p = some b ↔ ∀ l' ∈ after, l'.cleared p → b = 0) := by
    intro before l after split p b written
    have inRange := inside l (by simp [split]) p b written
    obtain ⟨-, later⟩ := alone before l after split p inRange
    rw [split]
    exact build_written written later
  have hole : ∀ l ∈ layers, ∀ p, l.range p → l.write.at p = none →
      (build image layers p = some 0 ↔ ∃ l' ∈ layers, l'.cleared p) := by
    intro l member p inRange unwritten
    obtain ⟨before, after, split⟩ := List.append_of_mem member
    obtain ⟨earlier, later⟩ := alone before l after split p inRange
    have nowhere : ∀ l' ∈ layers, l'.write.at p = none := by
      intro l' inLayers
      rw [split, List.mem_append, List.mem_cons] at inLayers
      rcases inLayers with inBefore | rfl | inAfter
      · exact earlier l' inBefore
      · exact unwritten
      · exact later l' inAfter
    obtain ⟨cleared, kept⟩ := build_unwritten image nowhere
    constructor
    · intro zero
      by_contra none
      rw [kept none, empty l member p inRange] at zero
      cases zero
    · exact cleared
  constructor
  · intro exact_
    constructor
    · intro l member p inRange unwritten
      have zero := exact_ l member p inRange
      rw [unwritten, Option.getD_none] at zero
      exact (hole l member p inRange unwritten).mp zero
    · apply pairwise_of_splits
      intro before l after split l' inAfter p b written clears
      have member : l ∈ layers := by simp [split]
      have kept := exact_ l member p (inside l member p b written)
      rw [written, Option.getD_some, value before l after split p b written] at kept
      exact kept l' inAfter clears
  · rintro ⟨holes, intact⟩ l member p inRange
    cases written : l.write.at p with
    | none =>
        rw [Option.getD_none]
        exact (hole l member p inRange written).mpr (holes l member p inRange written)
    | some b =>
        obtain ⟨before, after, split⟩ := List.append_of_mem member
        rw [Option.getD_some, value before l after split p b written]
        intro l' inAfter clears
        rw [Intact, split, List.pairwise_append, List.pairwise_cons] at intact
        exact intact.2.1.1 l' inAfter p b written clears

end Nyaux.ByteImage
