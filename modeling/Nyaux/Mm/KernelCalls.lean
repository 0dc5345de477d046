import Nyaux.Mm.HeapSpec
import Nyaux.Mm.Vmm

/-! Runs of the kernel's allocation calls, and what they do to the region list whatever else
happens. -/

namespace Nyaux.Mm

open Word Memory

/-- The kernel, the blocks that `kmalloc` and `krealloc` returned, with the sizes they were
asked for, and the bases that `vmm_region_alloc` returned. -/
structure KernelHeap where
  kernel : Kernel
  blocks : List (Nat × Nat)
  bases : List Nat

inductive KernelCall where
  | kmalloc (size : Nat)
  | kfree (addr size : Nat)
  | krealloc (addr oldsz newsz : Nat)
  | regionAlloc (size flags : Nat)
  | regionDealloc (base : Nat)

/-- Callers give back what they were given, and ask for sizes that are `ok`. -/
def KernelCall.Allowed (ok : Nat → Prop) (h : KernelHeap) : KernelCall → Prop
  | .kmalloc size => ok size
  | .kfree addr size => (addr, size) ∈ h.blocks
  | .krealloc addr oldsz newsz => ok newsz ∧ (addr ≠ 0 ∧ 0 < oldsz → (addr, oldsz) ∈ h.blocks)
  | .regionAlloc size flags => ok size ∧ Paging.FlagBits flags
  | .regionDealloc base => base ∈ h.bases

def KernelHeap.step (offset : Nat) (h : KernelHeap) : KernelCall → Except Stop KernelHeap
  | .kmalloc size => do
      let (addr, k) ← kmalloc offset size h.kernel
      .ok { h with kernel := k, blocks := (addr, size) :: h.blocks }
  | .kfree addr size => do
      let k ← kfree offset addr size h.kernel
      .ok { h with kernel := k, blocks := h.blocks.erase (addr, size) }
  | .krealloc addr oldsz newsz => do
      let (newShit, k) ← krealloc offset addr oldsz newsz h.kernel
      let kept := if addr ≠ 0 ∧ 0 < oldsz then h.blocks.erase (addr, oldsz) else h.blocks
      .ok { h with kernel := k, blocks := (newShit, newsz) :: kept }
  | .regionAlloc size flags => do
      let (base, k) ← vmmRegionAlloc offset size flags h.kernel
      .ok { h with kernel := k, bases := base :: h.bases }
  | .regionDealloc base => do
      let k ← vmmRegionDealloc offset base h.kernel
      .ok { h with kernel := k, bases := h.bases.erase base }

def KernelHeap.held (h : KernelHeap) : List Nat :=
  h.bases ++ (h.blocks.filter fun b => 1024 ≤ b.2).map Prod.fst

section Vars

variable {offset : Nat} {k k' : Kernel}

theorem pmmAllocSinglep_vars {page : Nat} (ran : pmmAllocSinglep offset k = .ok (page, k')) :
    SameVars k k' := by
  unfold pmmAllocSinglep at ran
  split at ran
  · obtain ⟨-, rfl⟩ := Prod.mk.inj (Except.ok.inj ran)
    exact ⟨rfl, rfl, rfl⟩
  · cases ran

theorem makeSlab_vars {size h : Nat} (ran : makeSlab offset size k = .ok (h, k')) :
    SameVars k k' := by
  obtain ⟨⟨page, k₁⟩, taken, rest⟩ := of_bind_ok ran
  obtain ⟨-, rfl⟩ := Prod.mk.inj (Except.ok.inj rest)
  exact (pmmAllocSinglep_vars taken).trans ⟨rfl, rfl, rfl⟩

theorem slabAlloc_vars {cache : Cache} {addr : Nat}
    (ran : slabAlloc offset cache k = .ok (addr, k')) : SameVars k k' := by
  obtain ⟨⟨found, h⟩, -, rest⟩ := of_bind_ok ran
  dsimp only at rest
  split at rest
  · obtain ⟨-, rfl⟩ := Prod.mk.inj (Except.ok.inj rest)
    exact ⟨rfl, rfl, rfl⟩
  · obtain ⟨⟨newSlab, k₁⟩, made, rest⟩ := of_bind_ok rest
    dsimp only at rest
    split at rest
    · cases rest
    · split at rest
      · cases rest
      · obtain ⟨-, rfl⟩ := Prod.mk.inj (Except.ok.inj rest)
        exact (makeSlab_vars made).trans ⟨rfl, rfl, rfl⟩

theorem kmallocSlab_vars {size addr : Nat} (ran : kmallocSlab offset size k = .ok (addr, k')) :
    SameVars k k' := by
  unfold kmallocSlab at ran
  split at ran
  · obtain ⟨-, rfl⟩ := Prod.mk.inj (Except.ok.inj ran)
    exact .refl k
  · split at ran
    · obtain ⟨-, rfl⟩ := Prod.mk.inj (Except.ok.inj ran)
      exact .refl k
    · exact slabAlloc_vars ran

theorem free_vars {addr : Nat} (ran : free addr k = .ok k') : SameVars k k' := by
  unfold free at ran
  split at ran
  · obtain rfl := Except.ok.inj ran
    exact .refl k
  · dsimp only at ran
    split at ran
    · obtain rfl := Except.ok.inj ran
      exact .refl k
    · split at ran
      · cases ran
      · obtain rfl := Except.ok.inj ran
        exact ⟨rfl, rfl, rfl⟩
      · split at ran
        · cases ran
        · obtain rfl := Except.ok.inj ran
          exact ⟨rfl, rfl, rfl⟩

theorem getNextTable_vars {table index flags next : Nat}
    (ran : getNextTable offset table index flags k = .ok (next, k')) : SameVars k k' := by
  unfold getNextTable at ran
  split at ran
  · obtain ⟨⟨page, k₁⟩, taken, rest⟩ := of_bind_ok ran
    obtain ⟨-, rfl⟩ := Prod.mk.inj (Except.ok.inj rest)
    exact (pmmAllocSinglep_vars taken).trans ⟨rfl, rfl, rfl⟩
  · obtain ⟨-, rfl⟩ := Prod.mk.inj (Except.ok.inj ran)
    exact .refl k

theorem map_vars {pml4 virt phys flags : Nat} (ran : map offset pml4 virt phys flags k = .ok k') :
    SameVars k k' := by
  obtain ⟨⟨table₁, k₁⟩, ran₁, rest⟩ := of_bind_ok ran
  obtain ⟨⟨table₂, k₂⟩, ran₂, rest⟩ := of_bind_ok rest
  obtain ⟨⟨table₃, k₃⟩, ran₃, rest⟩ := of_bind_ok rest
  obtain rfl := Except.ok.inj rest
  exact (getNextTable_vars ran₁).trans
    ((getNextTable_vars ran₂).trans ((getNextTable_vars ran₃).trans ⟨rfl, rfl, rfl⟩))

theorem allocPages_vars {base flags n : Nat} (ran : allocPages offset base flags n k = .ok k') :
    SameVars k k' := by
  induction n generalizing k' with
  | zero =>
      obtain rfl := Except.ok.inj ran
      exact .refl k
  | succ n ih =>
      obtain ⟨k₁, ran₁, rest⟩ := of_bind_ok ran
      obtain ⟨⟨page, k₂⟩, taken, rest⟩ := of_bind_ok rest
      have cleared : SameVars k₂ { k₂ with mem := zeroPage k₂.mem (add64 page offset) } :=
        ⟨rfl, rfl, rfl⟩
      exact (ih ran₁).trans ((pmmAllocSinglep_vars taken).trans (cleared.trans (map_vars rest)))

theorem unmap_vars (pml4 virt : Nat) (k : Kernel) : SameVars k (unmap offset pml4 virt k).2 := by
  unfold unmap
  dsimp only
  split
  · exact ⟨rfl, rfl, rfl⟩
  · exact .refl k

theorem freePages_vars (base n : Nat) (k : Kernel) : SameVars k (freePages offset base n k) := by
  induction n with
  | zero => exact .refl k
  | succ n ih =>
      apply ih.trans
      apply (unmap_vars (add64 (freePages offset base n k).pml4 offset) (pageAddr base n) _).trans
      exact ⟨rfl, rfl, rfl⟩

end Vars

def RegionsHeld (first last : VmmRegion) (regions : List VmmRegion) (held : List Nat) : Prop :=
  ∃ mids, regions = first :: (mids ++ [last]) ∧ Layout first.stop first mids last ∧
    held.Perm (mids.map VmmRegion.base)

def PlainSize (size : Nat) : Prop := size ≤ 2 ^ 64 - 0x2000

section Held

variable {offset : Nat} {k k' : Kernel} {first last : VmmRegion} {held : List Nat}

theorem vmmRegionAlloc_held {size flags base : Nat} (plain : PlainSize size)
    (kept : RegionsHeld first last k.regions held)
    (ran : vmmRegionAlloc offset size flags k = .ok (base, k')) :
    RegionsHeld first last k'.regions (base :: held) ∧
      ∃ q, base = add64 first.stop q ∧ q + alignUp size 4096 + 0x1000 ≤ pos first.stop last := by
  obtain ⟨mids, list, layout, bases⟩ := kept
  have rounded : alignUp size 4096 = (size + 4095) / 4096 * 4096 :=
    alignUp_page_of_le (by unfold PlainSize at plain; omega)
  have noWrap : add64 (alignUp size 4096) 0x1000 = alignUp size 4096 + 0x1000 :=
    add64_of_lt (by unfold PlainSize at plain; omega)
  unfold vmmRegionAlloc at ran
  rw [list] at ran
  split at ran
  · cases ran
  · rename_i front back found
    obtain ⟨before, cur, after, split, rfl, rfl, fit⟩ := findPair_split found
    rw [List.getLast?_eq_getLast_of_ne_nil (List.cons_ne_nil first before)] at ran
    dsimp only at ran
    obtain ⟨⟨node, k₁⟩, -, rest⟩ := of_bind_ok ran
    obtain ⟨k₂, allocated, rest⟩ := of_bind_ok rest
    obtain ⟨rfl, rfl⟩ := Prod.mk.inj (Except.ok.inj rest)
    obtain ⟨tail, final, rfl, layout', position, room⟩ :=
      layout.first_fit before after cur node size split fit noWrap _ rfl
    have regions := (allocPages_vars allocated).regions
    have word : (newRegion node size ((first :: before).getLast (List.cons_ne_nil _ _))).base <
        2 ^ 64 := add64_lt _ _
    refine ⟨⟨_, ?_, layout', ?_⟩, _, base_eq_pos first.stop word, room last (by simp)⟩
    · rw [regions, final]
      simp
    · rw [List.map_append, List.map_cons]
      rw [List.map_append] at bases
      exact (bases.cons _).trans List.perm_middle.symm

theorem split_base {base : Nat} {mids : List VmmRegion} (member : base ∈ mids.map VmmRegion.base) :
    ∃ before r after, mids = before ++ r :: after ∧ r.base = base ∧
      ∀ x ∈ before, x.base ≠ base := by
  induction mids with
  | nil => cases member
  | cons x rest ih =>
      by_cases here : x.base = base
      · exact ⟨[], x, rest, rfl, here, fun y listed => by cases listed⟩
      · have later : base ∈ rest.map VmmRegion.base := by
          rcases List.mem_cons.mp member with same | later
          · exact absurd same.symm here
          · exact later
        obtain ⟨before, r, after, rfl, same, absent⟩ := ih later
        refine ⟨x :: before, r, after, rfl, same, ?_⟩
        intro y listed
        rcases List.mem_cons.mp listed with rfl | inBefore
        · exact here
        · exact absent y inBefore

theorem vmmRegionDealloc_held {base : Nat} (kept : RegionsHeld first last k.regions held)
    (member : base ∈ held) (other : first.base ≠ base)
    (ran : vmmRegionDealloc offset base k = .ok k') :
    RegionsHeld first last k'.regions (held.erase base) := by
  obtain ⟨mids, list, layout, bases⟩ := kept
  obtain ⟨before, r, after, rfl, rfl, absent⟩ := split_base (bases.subset member)
  have removed := removeRegion_middle first before after r last other absent
  have shape : first :: ((before ++ r :: after) ++ [last]) =
      first :: (before ++ r :: (after ++ [last])) := by simp
  unfold vmmRegionDealloc at ran
  rw [list, shape, removed] at ran
  have regions := (free_vars ran).regions
  rw [(freePages_vars r.base _ _).regions] at regions
  refine ⟨before ++ after, ?_, layout.remove _ ?_, ?_⟩
  · rw [regions, List.append_assoc]
  · exact (List.Sublist.refl before).append (List.sublist_cons_self r after)
  · have rest := (bases.trans (List.perm_middle.map _)).erase r.base
    rwa [List.map_cons, List.erase_cons_head] at rest

theorem RegionsHeld.perm {regions : List VmmRegion} {held' : List Nat}
    (kept : RegionsHeld first last regions held) (same : held'.Perm held) :
    RegionsHeld first last regions held' := by
  obtain ⟨mids, list, layout, bases⟩ := kept
  exact ⟨mids, list, layout, same.trans bases⟩

theorem kmalloc_held {size addr : Nat} (plain : PlainSize size)
    (kept : RegionsHeld first last k.regions held) (ran : kmalloc offset size k = .ok (addr, k')) :
    RegionsHeld first last k'.regions (if 1024 ≤ size then addr :: held else held) := by
  unfold kmalloc at ran
  by_cases small : size < 1024
  · rw [if_pos small] at ran
    rw [if_neg (by omega), (kmallocSlab_vars ran).regions]
    exact kept
  · rw [if_neg small] at ran
    rw [if_pos (by omega)]
    have rounded : alignUp size 4096 = (size + 4095) / 4096 * 4096 :=
      alignUp_page_of_le (by unfold PlainSize at plain; omega)
    exact (vmmRegionAlloc_held (by unfold PlainSize at *; omega) kept ran).1

structure PlainEnds (first last : VmmRegion) : Prop where
  nonempty : 0 < first.length
  plain : first.base + first.length ≤ last.base
  word : last.base < 2 ^ 64

theorem PlainEnds.stop (ends : PlainEnds first last) :
    first.stop = first.base + first.length ∧ pos first.stop last = last.base - first.stop := by
  have plain := ends.plain
  have word := ends.word
  have stop : first.stop = first.base + first.length := add64_of_lt (by omega)
  exact ⟨stop, sub64_of_le (by omega) word⟩

theorem RegionsHeld.above {regions : List VmmRegion} (kept : RegionsHeld first last regions held)
    (ends : PlainEnds first last) {base : Nat} (member : base ∈ held) : first.base < base := by
  obtain ⟨mids, -, layout, bases⟩ := kept
  obtain ⟨r, inMids, rfl⟩ := List.mem_map.mp (bases.subset member)
  obtain ⟨stop, far⟩ := ends.stop
  have nonempty := ends.nonempty
  have plain := ends.plain
  have word := ends.word
  have ordered := (List.pairwise_append.mp layout.sorted).2.2 r inMids last (by simp)
  rw [base_eq_pos first.stop (layout.words r (List.mem_append_left _ inMids)),
    add64_of_lt (by omega)]
  omega

theorem kfree_held {addr size : Nat} (ends : PlainEnds first last)
    (kept : RegionsHeld first last k.regions held) (member : 1024 ≤ size → addr ∈ held)
    (ran : kfree offset addr size k = .ok k') :
    RegionsHeld first last k'.regions (if 1024 ≤ size then held.erase addr else held) := by
  unfold kfree at ran
  by_cases small : size < 1024
  · rw [if_neg (by omega)]
    by_cases nonzero : addr ≠ 0
    · rw [if_pos nonzero, if_pos small] at ran
      rw [(free_vars ran).regions]
      exact kept
    · rw [if_neg nonzero] at ran
      obtain rfl := Except.ok.inj ran
      exact kept
  · have above := kept.above ends (member (by omega))
    rw [if_pos (by omega : addr ≠ 0), if_neg small] at ran
    rw [if_pos (by omega)]
    exact vmmRegionDealloc_held kept (member (by omega)) (by omega) ran

end Held

section Runs

variable {offset : Nat} {first last : VmmRegion}

theorem held_cons (k : Kernel) (blocks : List (Nat × Nat)) (bases : List Nat) (addr size : Nat) :
    (KernelHeap.held ⟨k, (addr, size) :: blocks, bases⟩).Perm
      (if 1024 ≤ size then addr :: KernelHeap.held ⟨k, blocks, bases⟩
        else KernelHeap.held ⟨k, blocks, bases⟩) := by
  unfold KernelHeap.held
  by_cases large : 1024 ≤ size
  · rw [if_pos large]
    dsimp only
    rw [List.filter_cons_of_pos (by simpa using large), List.map_cons]
    exact List.perm_middle
  · rw [if_neg large]
    dsimp only
    rw [List.filter_cons_of_neg (by simpa using large)]

theorem held_erase (k : Kernel) {blocks : List (Nat × Nat)} (bases : List Nat) {addr size : Nat}
    (member : (addr, size) ∈ blocks) :
    (1024 ≤ size → addr ∈ KernelHeap.held ⟨k, blocks, bases⟩) ∧
      (KernelHeap.held ⟨k, blocks.erase (addr, size), bases⟩).Perm
        (if 1024 ≤ size then (KernelHeap.held ⟨k, blocks, bases⟩).erase addr
          else KernelHeap.held ⟨k, blocks, bases⟩) := by
  have split : (KernelHeap.held ⟨k, blocks, bases⟩).Perm
      (KernelHeap.held ⟨k, (addr, size) :: blocks.erase (addr, size), bases⟩) := by
    apply List.Perm.append_left
    exact ((List.perm_cons_erase member).filter _).map _
  have shape := split.trans (held_cons k (blocks.erase (addr, size)) bases addr size)
  by_cases large : 1024 ≤ size
  · rw [if_pos large] at shape ⊢
    refine ⟨fun _ => shape.symm.subset List.mem_cons_self, ?_⟩
    have rest := shape.erase addr
    rw [List.erase_cons_head] at rest
    exact rest.symm
  · rw [if_neg large] at shape ⊢
    exact ⟨fun contra => absurd contra large, shape.symm⟩

theorem held_perm (k : Kernel) {blocks blocks' : List (Nat × Nat)} (bases : List Nat)
    (same : blocks.Perm blocks') :
    (KernelHeap.held ⟨k, blocks, bases⟩).Perm (KernelHeap.held ⟨k, blocks', bases⟩) := by
  apply List.Perm.append_left
  exact (same.filter _).map _

theorem cons_erase_perm {α : Type} [BEq α] [LawfulBEq α] (x : α) {y : α} {list : List α}
    (member : y ∈ list) : (x :: list.erase y).Perm ((x :: list).erase y) := by
  apply List.Perm.cons_inv (a := y)
  calc
    (y :: x :: list.erase y).Perm (x :: y :: list.erase y) := List.Perm.swap _ _ _
    _ |>.Perm (x :: list) := (List.perm_cons_erase member).symm.cons x
    _ |>.Perm (y :: (x :: list).erase y) := List.perm_cons_erase (List.mem_cons_of_mem x member)

theorem KernelHeap.step_held {h h' : KernelHeap} {call : KernelCall} (ends : PlainEnds first last)
    (kept : RegionsHeld first last h.kernel.regions h.held) (allowed : call.Allowed PlainSize h)
    (next : h.step offset call = .ok h') : RegionsHeld first last h'.kernel.regions h'.held := by
  obtain ⟨k, blocks, bases⟩ := h
  cases call with
  | kmalloc size =>
      obtain ⟨⟨addr, k₁⟩, ran, rest⟩ := of_bind_ok next
      obtain rfl := Except.ok.inj rest
      exact (kmalloc_held allowed kept ran).perm (held_cons k₁ blocks bases addr size)
  | kfree addr size =>
      obtain ⟨k₁, ran, rest⟩ := of_bind_ok next
      obtain rfl := Except.ok.inj rest
      obtain ⟨member, same⟩ := held_erase k bases allowed
      exact (kfree_held ends kept member ran).perm same
  | krealloc addr oldsz newsz =>
      obtain ⟨⟨newShit, k₃⟩, ran, rest⟩ := of_bind_ok next
      obtain rfl := Except.ok.inj rest
      obtain ⟨plain, member⟩ := allowed
      obtain ⟨⟨block, k₁⟩, got, copied⟩ := of_bind_ok ran
      have grown := kmalloc_held plain kept got
      dsimp only at copied
      by_cases old : addr ≠ 0 ∧ 0 < oldsz
      · rw [if_pos old] at copied ⊢
        obtain ⟨mem, -, freed⟩ := of_bind_ok copied
        obtain ⟨k₂, ran₂, same⟩ := of_bind_ok freed
        obtain ⟨rfl, rfl⟩ := Prod.mk.inj (Except.ok.inj same)
        have inBlocks : (addr, oldsz) ∈ (block, newsz) :: blocks :=
          List.mem_cons_of_mem _ (member old)
        obtain ⟨listed, same⟩ := held_erase k₁ bases inBlocks
        have before : RegionsHeld first last { k₁ with mem := mem }.regions
            (KernelHeap.held ⟨k₁, (block, newsz) :: blocks, bases⟩) :=
          grown.perm (held_cons k₁ blocks bases block newsz)
        have freedHeld := (kfree_held ends before listed ran₂).perm same
        apply freedHeld.perm
        exact held_perm k₂ bases (cons_erase_perm (block, newsz) (member old))
      · rw [if_neg old] at copied ⊢
        obtain ⟨rfl, rfl⟩ := Prod.mk.inj (Except.ok.inj copied)
        exact grown.perm (held_cons k₁ blocks bases block newsz)
  | regionAlloc size flags =>
      obtain ⟨⟨base, k₁⟩, ran, rest⟩ := of_bind_ok next
      obtain rfl := Except.ok.inj rest
      exact (vmmRegionAlloc_held allowed.1 kept ran).1
  | regionDealloc base =>
      obtain ⟨k₁, ran, rest⟩ := of_bind_ok next
      obtain rfl := Except.ok.inj rest
      have member : base ∈ KernelHeap.held ⟨k, blocks, bases⟩ := List.mem_append_left _ allowed
      have above := kept.above ends member
      have freed := vmmRegionDealloc_held kept member (by omega) ran
      apply freed.perm
      have erased : (KernelHeap.held ⟨k, blocks, bases⟩).erase base =
          KernelHeap.held ⟨k₁, blocks, bases.erase base⟩ := List.erase_append_left _ allowed
      rw [erased]

end Runs

inductive KernelRun (offset : Nat) (ok : Nat → Prop) (start : KernelHeap) : KernelHeap → Prop
  | none : KernelRun offset ok start start
  | step {h h' : KernelHeap} {call : KernelCall} (before : KernelRun offset ok start h)
      (allowed : call.Allowed ok h) (next : h.step offset call = .ok h') :
      KernelRun offset ok start h'

theorem KernelRun.held {offset : Nat} {first last : VmmRegion} {start h : KernelHeap}
    (run : KernelRun offset PlainSize start h) (ends : PlainEnds first last)
    (kept : RegionsHeld first last start.kernel.regions start.held) :
    RegionsHeld first last h.kernel.regions h.held := by
  induction run with
  | none => exact kept
  | step _ allowed next ih => exact KernelHeap.step_held ends ih allowed next

end Nyaux.Mm
