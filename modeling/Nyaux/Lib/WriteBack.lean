import Mathlib.Data.Finset.Card
import Mathlib.Data.Finset.Image
import Mathlib.Logic.Function.Basic
import Mathlib.Tactic

/-! A store with a log of the places that were written since they were last settled.
Each place has at most one entry of the log, which holds what was written last. -/

namespace Nyaux.WriteBack

/-- `slot i` is the entry of the log that is for `i`, and `used` the log's length. -/
structure Buffer (ι α : Type) where
  base : ι → α
  slot : ι → Option Nat
  log : Nat → ι × α
  used : Nat

namespace Buffer

variable {ι α : Type}

def value (b : Buffer ι α) (i : ι) : α :=
  match b.slot i with
  | some j => (b.log j).2
  | none => b.base i

def put [DecidableEq ι] [DecidableEq α] (i : ι) (v : α) (b : Buffer ι α) : Buffer ι α :=
  match b.slot i with
  | some j => { b with log := Function.update b.log j ((b.log j).1, v) }
  | none =>
      if b.base i = v then b
      else
        { b with
          slot := Function.update b.slot i (some b.used)
          log := Function.update b.log b.used (i, v)
          used := b.used + 1 }

def settle [DecidableEq ι] (i : ι) (b : Buffer ι α) : Buffer ι α :=
  match b.slot i with
  | some j =>
      { b with base := Function.update b.base i (b.log j).2, slot := Function.update b.slot i none }
  | none => b

structure Sparse (b : Buffer ι α) : Prop where
  distinct : ∀ j < b.used, ∀ k < b.used, (b.log j).1 = (b.log k).1 → j = k
  slotted : ∀ {i j}, b.slot i = some j → j < b.used ∧ (b.log j).1 = i

structure Valid (b : Buffer ι α) : Prop where
  logged : ∀ j < b.used, b.slot (b.log j).1 = some j
  slotted : ∀ {i j}, b.slot i = some j → j < b.used ∧ (b.log j).1 = i

theorem Valid.sparse {b : Buffer ι α} (valid : Valid b) : Sparse b where
  distinct j inJ k inK same := by
    have here := valid.logged j inJ
    rw [same, valid.logged k inK] at here
    exact (Option.some.inj here).symm
  slotted := valid.slotted

variable [DecidableEq ι]

/-! ### Writes -/

theorem put_hit [DecidableEq α] {b : Buffer ι α} {i : ι} {j : Nat} (slot : b.slot i = some j)
    (v : α) : b.put i v = { b with log := Function.update b.log j ((b.log j).1, v) } := by
  rw [put, slot]

theorem put_same [DecidableEq α] {b : Buffer ι α} {i : ι} {v : α} (slot : b.slot i = none)
    (same : b.base i = v) : b.put i v = b := by
  rw [put, slot]
  exact if_pos same

theorem put_miss [DecidableEq α] {b : Buffer ι α} {i : ι} {v : α} (slot : b.slot i = none)
    (other : b.base i ≠ v) :
    b.put i v =
      { b with
        slot := Function.update b.slot i (some b.used)
        log := Function.update b.log b.used (i, v)
        used := b.used + 1 } := by
  rw [put, slot]
  exact if_neg other

theorem put_valid [DecidableEq α] {b : Buffer ι α} (valid : Valid b) (i : ι) (v : α) :
    Valid (b.put i v) := by
  unfold put
  cases here : b.slot i with
  | some j =>
      have keys : ∀ k, (Function.update b.log j ((b.log j).1, v) k).1 = (b.log k).1 := by
        intro k
        by_cases same : k = j
        · rw [same, Function.update_self]
        · rw [Function.update_of_ne same]
      exact { logged := fun k inside => by rw [keys k]; exact valid.logged k inside
              slotted := fun {i' k} slot => by rw [keys k]; exact valid.slotted slot }
  | none =>
      dsimp only
      split_ifs with same
      · exact valid
      · have fresh : ∀ k < b.used, (b.log k).1 ≠ i := by
          rintro k inside rfl
          rw [valid.logged k inside] at here
          cases here
        refine ⟨fun k inside => ?_, fun {i' k} slot => ?_⟩
        · dsimp only at inside ⊢
          by_cases last : k = b.used
          · rw [last, Function.update_self, Function.update_self]
          · have earlier : k < b.used := by omega
            rw [Function.update_of_ne last, Function.update_of_ne (fresh k earlier)]
            exact valid.logged k earlier
        · dsimp only at slot ⊢
          by_cases target : i' = i
          · rw [target, Function.update_self] at slot
            cases slot
            rw [Function.update_self, target]
            exact ⟨Nat.lt_succ_self _, rfl⟩
          · rw [Function.update_of_ne target] at slot
            obtain ⟨inside, key⟩ := valid.slotted slot
            rw [Function.update_of_ne (by omega)]
            exact ⟨by omega, key⟩

theorem put_value [DecidableEq α] {b : Buffer ι α} (valid : Valid b) (i : ι) (v : α) :
    (b.put i v).value = Function.update b.value i v := by
  funext i'
  unfold put
  cases here : b.slot i with
  | some j =>
      by_cases target : i' = i
      · simp only [target, value, here, Function.update_self]
      · rw [Function.update_of_ne target]
        cases slot : b.slot i' with
        | none => simp only [value, slot]
        | some k =>
            have other : k ≠ j := by
              rintro rfl
              exact target ((valid.slotted slot).2.symm.trans (valid.slotted here).2)
            simp only [value, slot, Function.update_of_ne other]
  | none =>
      dsimp only
      split_ifs with same
      · by_cases target : i' = i
        · simp only [target, value, here, Function.update_self, same]
        · rw [Function.update_of_ne target]
      · by_cases target : i' = i
        · simp only [target, value, Function.update_self]
        · cases slot : b.slot i' with
          | none => simp only [value, Function.update_of_ne target, slot]
          | some k =>
              have earlier : k ≠ b.used := Nat.ne_of_lt (valid.slotted slot).1
              simp only [value, Function.update_of_ne target, slot,
                Function.update_of_ne earlier]

def keys (b : Buffer ι α) : Finset ι := (Finset.range b.used).image fun j => (b.log j).1

theorem used_le_card {b : Buffer ι α} (sparse : Sparse b) {places : Finset ι}
    (inside : ∀ j < b.used, (b.log j).1 ∈ places) : b.used ≤ places.card := by
  have injective : Set.InjOn (fun j => (b.log j).1) (Finset.range b.used : Set Nat) := by
    intro j inJ k inK same
    exact sparse.distinct j (Finset.mem_range.mp inJ) k (Finset.mem_range.mp inK) same
  calc b.used = b.keys.card := by rw [keys, Finset.card_image_of_injOn injective, Finset.card_range]
    _ ≤ places.card := by
        refine Finset.card_le_card fun i member => ?_
        obtain ⟨j, range, rfl⟩ := Finset.mem_image.mp member
        exact inside j (Finset.mem_range.mp range)

theorem used_lt_card {b : Buffer ι α} (valid : Valid b) {places : Finset ι}
    (inside : ∀ j < b.used, (b.log j).1 ∈ places) {i : ι} (place : i ∈ places)
    (free : b.slot i = none) : b.used < places.card := by
  have rest : ∀ j < b.used, (b.log j).1 ∈ places.erase i := by
    intro j inJ
    refine Finset.mem_erase.mpr ⟨?_, inside j inJ⟩
    rintro rfl
    rw [valid.logged j inJ] at free
    cases free
  have few := used_le_card valid.sparse rest
  have some_ : 0 < places.card := Finset.card_pos.mpr ⟨i, place⟩
  rw [Finset.card_erase_of_mem place] at few
  omega

/-! ### Settling -/

theorem settle_value (i : ι) (b : Buffer ι α) : (b.settle i).value = b.value := by
  funext i'
  unfold settle
  cases here : b.slot i with
  | none => rfl
  | some j =>
      by_cases target : i' = i
      · simp only [target, value, here, Function.update_self]
      · simp only [value, Function.update_of_ne target]

theorem settle_slot (i i' : ι) (b : Buffer ι α) :
    (b.settle i).slot i' = if i' = i then none else b.slot i' := by
  unfold settle
  cases here : b.slot i with
  | none =>
      split_ifs with target
      · rw [target, here]
      · rfl
  | some j =>
      dsimp only
      rw [Function.update_apply]

theorem settle_base (i i' : ι) (b : Buffer ι α) :
    (b.settle i).base i' = if i' = i then b.value i else b.base i' := by
  unfold settle value
  cases here : b.slot i with
  | none =>
      dsimp only
      split_ifs with target
      · rw [target]
      · rfl
  | some j =>
      dsimp only
      rw [Function.update_apply]

theorem settle_log (i : ι) (b : Buffer ι α) : (b.settle i).log = b.log := by
  unfold settle
  cases b.slot i <;> rfl

theorem settle_used (i : ι) (b : Buffer ι α) : (b.settle i).used = b.used := by
  unfold settle
  cases b.slot i <;> rfl

theorem settle_sparse {b : Buffer ι α} (sparse : Sparse b) (i : ι) : Sparse (b.settle i) where
  distinct := by
    rw [settle_log, settle_used]
    exact sparse.distinct
  slotted {i' j} slot := by
    rw [settle_slot] at slot
    rw [settle_log, settle_used]
    split_ifs at slot
    exact sparse.slotted slot

def drain (n : Nat) (b : Buffer ι α) : Buffer ι α :=
  (List.range n).foldl (fun b j => b.settle (b.log j).1) b

theorem drain_succ (n : Nat) (b : Buffer ι α) :
    b.drain (n + 1) = (b.drain n).settle ((b.drain n).log n).1 := by
  unfold drain
  rw [List.range_succ, List.foldl_append]
  rfl

theorem drain_log (n : Nat) (b : Buffer ι α) : (b.drain n).log = b.log := by
  induction n with
  | zero => rfl
  | succ n ih => rw [drain_succ, settle_log, ih]

theorem drain_used (n : Nat) (b : Buffer ι α) : (b.drain n).used = b.used := by
  induction n with
  | zero => rfl
  | succ n ih => rw [drain_succ, settle_used, ih]

theorem drain_value (n : Nat) (b : Buffer ι α) : (b.drain n).value = b.value := by
  induction n with
  | zero => rfl
  | succ n ih => rw [drain_succ, settle_value, ih]

theorem drain_slot {b : Buffer ι α} (sparse : Sparse b) {n : Nat} {i : ι} {j : Nat}
    (left : (b.drain n).slot i = some j) : b.slot i = some j ∧ n ≤ j := by
  induction n with
  | zero => exact ⟨left, Nat.zero_le j⟩
  | succ n ih =>
      rw [drain_succ, settle_slot] at left
      split_ifs at left with target
      obtain ⟨slot, later⟩ := ih left
      refine ⟨slot, Nat.lt_of_le_of_ne later ?_⟩
      rintro rfl
      rw [drain_log] at target
      exact target (sparse.slotted slot).2.symm

theorem drain_all {b : Buffer ι α} (sparse : Sparse b) (i : ι) :
    (b.drain b.used).slot i = none ∧ (b.drain b.used).base i = b.value i := by
  have free : (b.drain b.used).slot i = none := by
    cases left : (b.drain b.used).slot i with
    | none => rfl
    | some j =>
        obtain ⟨slot, later⟩ := drain_slot sparse left
        exact absurd (sparse.slotted slot).1 (by omega)
  refine ⟨free, ?_⟩
  have same := congrFun (drain_value b.used b) i
  rw [value, free] at same
  exact same

end Buffer

end Nyaux.WriteBack
