import Nyaux.Mm.Pagemap

/-! What `map` and `unmap` leave alone, and what `virt_to_phys` reads back. -/

namespace Nyaux.Mm

open Word Memory Paging

/-- A set of flags with `NYA_OS_VMM_PRESENT`, and `NYA_OS_VMM_RW`, `NYA_OS_VMM_USER` and
`NYA_OS_VMM_XD` as chosen. -/
def vmmFlags (rw user xd : Bool) : Nat :=
  1 ||| (if rw then 2 else 0) ||| (if user then 4 else 0) ||| (if xd then 2 ^ 63 else 0)

theorem vmmFlags_bits (rw user xd : Bool) : FlagBits (vmmFlags rw user xd) := by
  cases rw <;> cases user <;> cases xd <;> exact ⟨by decide, by decide⟩

/-- The tables of a whole pagemap, and the free list. -/
def WholeTree (offset root : Nat) (k : Kernel) : Prop :=
  ∃ free tables, TableTree offset root 512 k free tables

/-- The entries of all other pages are the same. -/
def SameElsewhere (offset root virt : Nat) (mem mem' : Mem) : Prop :=
  ∀ other, pageIndex other ≠ pageIndex virt →
    leafEntry offset mem' root (pageIndex other) = leafEntry offset mem root (pageIndex other)

section

variable {offset root : Nat} {k k' : Kernel} {rw user xd : Bool} {virt phys : Nat}

theorem map_whole (whole : WholeTree offset root k)
    (ran : map offset root virt phys (vmmFlags rw user xd) k = .ok k') :
    WholeTree offset root k' ∧ SameElsewhere offset root virt k.mem k'.mem ∧
      leafEntry offset k'.mem root (pageIndex virt) = phys ||| vmmFlags rw user xd := by
  obtain ⟨free, tables, inv⟩ := whole
  rcases inv.map_spec (vmmFlags_bits rw user xd) virt phys (under_all _) with
    ⟨-, stopped⟩ | ⟨k₁, free', tables', ran', inv', mapped, -⟩
  · rw [stopped] at ran
    cases ran
  · obtain rfl : k₁ = k' := Except.ok.inj (ran'.symm.trans ran)
    refine ⟨⟨free', tables', inv'⟩, ?_, mapped.leaf⟩
    intro other different
    rw [mapped.leafEntry (pageIndex_lt virt) (pageIndex_lt other) (under_all _), if_neg different]

theorem unmap_whole (whole : WholeTree offset root k) (virt : Nat) :
    (unmap offset root virt k).1 = leafEntry offset k.mem root (pageIndex virt) ∧
      WholeTree offset root (unmap offset root virt k).2 ∧
      SameElsewhere offset root virt k.mem (unmap offset root virt k).2.mem ∧
      leafEntry offset (unmap offset root virt k).2.mem root (pageIndex virt) = 0 := by
  obtain ⟨free, tables, inv⟩ := whole
  obtain ⟨mem', ran, inv', written, -⟩ := inv.unmap_spec virt (under_all _)
  rw [ran]
  refine ⟨rfl, ⟨free, tables, inv'⟩, ?_, ?_⟩
  · intro other different
    rw [leafEntry_eq_entryAt, written _ (entryPath_ok (under_all _)), if_neg]
    · rfl
    · intro paths
      exact different (entryPath_injective (pageIndex_lt other) (pageIndex_lt virt) paths)
  · rw [leafEntry_eq_entryAt, written _ (entryPath_ok (under_all _)), if_pos rfl]

/-- `map` and `unmap` change the entry of one page only, `map` keeps the tables distinct pages
that are not free, and `unmap` returns what was stored. -/
theorem map_unmap_frame (whole : WholeTree offset root k) (rw user xd : Bool) (virt phys : Nat) :
    (∀ k', map offset root virt phys (vmmFlags rw user xd) k = .ok k' →
      WholeTree offset root k' ∧ SameElsewhere offset root virt k.mem k'.mem ∧
        (unmap offset root virt k').1 = phys ||| vmmFlags rw user xd) ∧
    SameElsewhere offset root virt k.mem (unmap offset root virt k).2.mem ∧
    WholeTree offset root (unmap offset root virt k).2 ∧
    (unmap offset root virt k).1 = leafEntry offset k.mem root (pageIndex virt) := by
  obtain ⟨entry, whole', frame, -⟩ := unmap_whole whole virt
  refine ⟨?_, frame, whole', entry⟩
  intro k' ran
  obtain ⟨mapped, others, leaf⟩ := map_whole whole ran
  exact ⟨mapped, others, (unmap_whole mapped virt).1.trans leaf⟩

/-- The four reads that give back the address `map` was called with. -/
structure UndoesMap (offset root virt phys flags : Nat) (k' : Kernel) : Prop where
  reads : ∀ other, pageIndex other = pageIndex virt → virtToPhys offset k'.mem root other = phys
  unmapped : getPhysFromEntry (unmap offset root virt k').1 = phys
  gone : ∀ other, pageIndex other = pageIndex virt →
    virtToPhys offset (unmap offset root virt k').2.mem root other = 0
  masks : getPhysFromEntry (phys ||| flags) = (phys ||| flags) &&& tableMask

theorem getPhysFromEntry_lt (pte : Nat) : getPhysFromEntry pte < 2 ^ 51 :=
  Nat.lt_of_le_of_lt Nat.and_le_right (by decide)

theorem getPhysFromEntry_or (rw user xd : Bool) (aligned : 4096 ∣ phys) (bound : phys < 2 ^ 51) :
    getPhysFromEntry (phys ||| vmmFlags rw user xd) = phys := by
  have mask : 0x0007FFFFFFFFF000 = 2 ^ 51 - 2 ^ 12 := by decide
  have apart : vmmFlags rw user xd &&& 0x0007FFFFFFFFF000 = 0 := by
    cases rw <;> cases user <;> cases xd <;> decide
  rw [getPhysFromEntry, Nat.and_or_distrib_right, apart, Nat.or_zero, mask,
    and_high phys 12 51 (by decide) bound]
  exact Nat.div_mul_cancel aligned

theorem WholeTree.virtToPhys (whole : WholeTree offset root k) (virt : Nat) :
    virtToPhys offset k.mem root virt =
      getPhysFromEntry (leafEntry offset k.mem root (pageIndex virt)) := by
  obtain ⟨free, tables, inv⟩ := whole
  exact inv.virtToPhys_spec virt (under_all _)

/-- The address comes back exactly when it has no bit 51, which the leaf mask drops. -/
theorem translate_undoes_map (whole : WholeTree offset root k) (rw user xd : Bool) (virt phys : Nat)
    (aligned : 4096 ∣ phys) (bound : phys < 2 ^ 52)
    (ran : map offset root virt phys (vmmFlags rw user xd) k = .ok k') :
    UndoesMap offset root virt phys (vmmFlags rw user xd) k' ↔ phys < 2 ^ 51 := by
  obtain ⟨mapped, -, leaf⟩ := map_whole whole ran
  obtain ⟨entry, unmapped, -, cleared⟩ := unmap_whole mapped virt
  constructor
  · intro undoes
    have := getPhysFromEntry_lt (unmap offset root virt k').1
    rwa [undoes.unmapped] at this
  · intro low
    have phys_eq := getPhysFromEntry_or rw user xd aligned low
    refine ⟨?_, ?_, ?_, ?_⟩
    · intro other same
      rw [mapped.virtToPhys, same, leaf, phys_eq]
    · rw [entry, leaf, phys_eq]
    · intro other same
      rw [unmapped.virtToPhys, same, cleared]
      rfl
    · rw [phys_eq, or_and_tableMask (vmmFlags_bits rw user xd) bound,
        Nat.div_mul_cancel aligned]

end

theorem machine_wholeTree : ∃ k, WholeTree machine.offset (k.root machine.offset) k ∧
    ∀ virt phys flags, FlagBits flags →
      ∃ k', map machine.offset (k.root machine.offset) virt phys flags k = .ok k' := by
  obtain ⟨k, free, slabs, tables, first, last, booted, -, many⟩ := machine_booted
  have inv := booted.paging.tableTree (pages_direct machine)
  refine ⟨k, ⟨free, tables, inv⟩, fun virt phys flags bits => ?_⟩
  rcases inv.map_spec bits virt phys (under_all _) with ⟨few, -⟩ | ⟨k', -, -, ran, -⟩
  · omega
  · exact ⟨k', ran⟩

/-- A page of the user half on the machine. -/
theorem map_unmap_frame_machine : ∃ k k',
    map machine.offset (k.root machine.offset) 0x400000 0x7000 (vmmFlags true true false) k =
      .ok k' ∧
    (unmap machine.offset (k.root machine.offset) 0x400000 k').1 = 0x7007 := by
  obtain ⟨k, whole, total⟩ := machine_wholeTree
  obtain ⟨k', ran⟩ := total 0x400000 0x7000 _ (vmmFlags_bits true true false)
  obtain ⟨maps, -⟩ := map_unmap_frame whole true true false 0x400000 0x7000
  exact ⟨k, k', ran, (maps k' ran).2.2⟩

theorem translate_undoes_map_machine : ∃ k k',
    map machine.offset (k.root machine.offset) 0x400000 0x7000 (vmmFlags true true false) k =
      .ok k' ∧
    UndoesMap machine.offset (k.root machine.offset) 0x400000 0x7000 (vmmFlags true true false)
      k' := by
  obtain ⟨k, whole, total⟩ := machine_wholeTree
  obtain ⟨k', ran⟩ := total 0x400000 0x7000 _ (vmmFlags_bits true true false)
  exact ⟨k, k', ran, (translate_undoes_map whole true true false 0x400000 0x7000 (by decide)
    (by decide) ran).mpr (by decide)⟩

/-- A page of a device at 2^51: the address that comes back is 0. -/
theorem translate_drops_bit : ∃ k k',
    map machine.offset (k.root machine.offset) 0x400000 (2 ^ 51) (vmmFlags true false false) k =
      .ok k' ∧
    virtToPhys machine.offset k'.mem (k.root machine.offset) 0x400000 = 0 ∧
    ¬UndoesMap machine.offset (k.root machine.offset) 0x400000 (2 ^ 51)
      (vmmFlags true false false) k' := by
  obtain ⟨k, whole, total⟩ := machine_wholeTree
  obtain ⟨k', ran⟩ := total 0x400000 (2 ^ 51) _ (vmmFlags_bits true false false)
  obtain ⟨mapped, -, leaf⟩ := map_whole whole ran
  have read : virtToPhys machine.offset k'.mem (k.root machine.offset) 0x400000 = 0 := by
    rw [mapped.virtToPhys, leaf]
    decide
  refine ⟨k, k', ran, read, fun undoes => ?_⟩
  have back := undoes.reads 0x400000 rfl
  rw [read] at back
  exact absurd back (by decide)

end Nyaux.Mm
