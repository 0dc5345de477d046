import Mathlib.Data.List.Nodup
import Mathlib.Logic.Function.Basic
import Mathlib.Tactic

/-! Memory as 64-bit words, pages of it, and lists linked through it.

A word is found under its address; addresses that are not multiples of 8 are never used. -/

namespace Nyaux.Memory

abbrev Mem := Nat → Nat

def store (mem : Mem) (address value : Nat) : Mem := Function.update mem address value

@[simp] theorem store_same (mem : Mem) (address value : Nat) :
    store mem address value address = value := Function.update_self ..

theorem store_other (mem : Mem) (address value other : Nat) (different : other ≠ address) :
    store mem address value other = mem other := Function.update_of_ne different ..

/-- `memset(page, 0, 4096)`. -/
def zeroPage (mem : Mem) (page : Nat) : Mem :=
  fun address => if page ≤ address ∧ address < page + 4096 then 0 else mem address

def loadByte (mem : Mem) (address : Nat) : Nat :=
  mem (address / 8 * 8) / 2 ^ (8 * (address % 8)) % 256

def storeByte (mem : Mem) (address byte : Nat) : Mem :=
  store mem (address / 8 * 8)
    (mem (address / 8 * 8) - loadByte mem address * 2 ^ (8 * (address % 8)) +
      byte * 2 ^ (8 * (address % 8)))

def InPage (page address : Nat) : Prop := page ≤ address ∧ address < page + 4096

def SamePage (before after : Mem) (page : Nat) : Prop :=
  ∀ address, InPage page address → after address = before address

def Aligned (page : Nat) : Prop := page % 4096 = 0

theorem SamePage.refl (mem : Mem) (page : Nat) : SamePage mem mem page := fun _ _ => rfl

theorem SamePage.trans {a b c : Mem} {page : Nat} (first : SamePage a b page)
    (second : SamePage b c page) : SamePage a c page :=
  fun address inside => (second address inside).trans (first address inside)

theorem page_ne {p q address : Nat} (alignedP : Aligned p) (alignedQ : Aligned q)
    (different : p ≠ q) (inside : InPage p address) : ¬ InPage q address := by
  unfold Aligned InPage at *
  omega

theorem samePage_store {mem : Mem} {p q address : Nat} (value : Nat) (alignedP : Aligned p)
    (alignedQ : Aligned q) (different : p ≠ q) (inside : InPage p address) :
    SamePage mem (store mem address value) q := by
  intro other inQ
  apply store_other
  rintro rfl
  exact page_ne alignedP alignedQ different inside inQ

theorem samePage_zeroPage {mem : Mem} {p q : Nat} (alignedP : Aligned p) (alignedQ : Aligned q)
    (different : p ≠ q) : SamePage mem (zeroPage mem p) q := by
  intro other inQ
  apply if_neg
  intro inP
  exact page_ne alignedP alignedQ different inP inQ

theorem zeroPage_inside {mem : Mem} {page address : Nat} (inside : InPage page address) :
    zeroPage mem page address = 0 := if_pos inside

/-- The nodes of a null-terminated list from `first` on, linked by the word `offset` bytes
into each node. -/
def Chain (mem : Mem) (offset : Nat) : Nat → List Nat → Prop
  | first, [] => first = 0
  | first, node :: rest => first = node ∧ node ≠ 0 ∧ Chain mem offset (mem (node + offset)) rest

namespace Chain

variable {mem mem' : Mem} {offset first : Nat} {nodes : List Nat}

theorem frame (chain : Chain mem offset first nodes)
    (same : ∀ node ∈ nodes, mem' (node + offset) = mem (node + offset)) :
    Chain mem' offset first nodes := by
  induction nodes generalizing first with
  | nil => exact chain
  | cons node rest ih =>
      obtain ⟨head, nonzero, tail⟩ := chain
      refine ⟨head, nonzero, ?_⟩
      rw [same node List.mem_cons_self]
      exact ih tail fun other member => same other (List.mem_cons_of_mem _ member)

theorem nonzero (chain : Chain mem offset first nodes) : ∀ node ∈ nodes, node ≠ 0 := by
  induction nodes generalizing first with
  | nil => simp
  | cons node rest ih =>
      obtain ⟨-, here, tail⟩ := chain
      exact List.forall_mem_cons.mpr ⟨here, ih tail⟩

theorem first_eq_zero_iff (chain : Chain mem offset first nodes) : first = 0 ↔ nodes = [] := by
  cases nodes with
  | nil => exact ⟨fun _ => rfl, fun _ => chain⟩
  | cons node rest =>
      obtain ⟨rfl, nonzero, -⟩ := chain
      simp [nonzero]

theorem unique {other : List Nat} (left : Chain mem offset first nodes)
    (right : Chain mem offset first other) : nodes = other := by
  induction nodes generalizing first other with
  | nil => exact (right.first_eq_zero_iff.mp left).symm
  | cons node rest ih =>
      obtain ⟨rfl, nonzero, tail⟩ := left
      cases other with
      | nil => exact absurd right nonzero
      | cons node' rest' =>
          obtain ⟨rfl, -, tail'⟩ := right
          rw [ih tail tail']

theorem link {node : Nat} {before after : List Nat} (chain : Chain mem offset first nodes)
    (split : nodes = before ++ node :: after) : mem (node + offset) = after.headD 0 := by
  subst split
  induction before generalizing first with
  | nil =>
      obtain ⟨rfl, -, tail⟩ := chain
      cases after with
      | nil => exact tail
      | cons next rest => exact tail.1
  | cons head rest ih =>
      obtain ⟨rfl, -, tail⟩ := chain
      exact ih tail

theorem last {node : Nat} (chain : Chain mem offset first nodes)
    (final : nodes.getLast? = some node) : mem (node + offset) = 0 := by
  induction nodes generalizing first with
  | nil => simp at final
  | cons head rest ih =>
      obtain ⟨rfl, -, tail⟩ := chain
      cases rest with
      | nil =>
          obtain rfl : first = node := Option.some.inj final
          exact tail
      | cons next rest =>
          rw [List.getLast?_cons_cons] at final
          exact ih tail final

theorem push (chain : Chain mem offset first nodes) {node : Nat} (nonzero : node ≠ 0)
    (fresh : node ∉ nodes) :
    Chain (store mem (node + offset) first) offset node (node :: nodes) := by
  refine ⟨rfl, nonzero, ?_⟩
  rw [store_same]
  apply chain.frame
  intro other member
  apply store_other
  intro same
  exact fresh (Nat.add_right_cancel same ▸ member)

theorem append {last node : Nat} {front : List Nat}
    (chain : Chain mem offset first (front ++ [last])) (nodup : (front ++ [last]).Nodup)
    (nonzero : node ≠ 0) (ends : mem (node + offset) = 0) (fresh : node ≠ last) :
    Chain (store mem (last + offset) node) offset first (front ++ [last, node]) := by
  induction front generalizing first with
  | nil =>
      obtain ⟨rfl, here, -⟩ := chain
      refine ⟨rfl, here, ?_⟩
      rw [store_same]
      refine ⟨rfl, nonzero, ?_⟩
      rw [store_other _ _ _ _ (fun same => fresh (Nat.add_right_cancel same))]
      exact ends
  | cons head rest ih =>
      obtain ⟨rfl, here, tail⟩ := chain
      have different : first ≠ last := by
        rintro rfl
        exact (List.nodup_cons.mp nodup).1 (by simp)
      refine ⟨rfl, here, ?_⟩
      rw [store_other _ _ _ _ (fun same => different (Nat.add_right_cancel same))]
      exact ih tail (List.nodup_cons.mp nodup).2

end Chain

end Nyaux.Memory
