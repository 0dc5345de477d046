import Nyaux.Mm.BlockBytes
import Nyaux.Mm.PageOwnership

/-! `krealloc` over whole runs: which calls keep the block's bytes and those of all other blocks,
and give the old block back. -/

namespace Nyaux.Mm

open Word Memory Paging

/-- `memcpy` with the addresses it stores to. -/
def memcpyStores (offset pml4 dest src : Nat) : Nat → Mem → Except Stop (Mem × List Nat)
  | 0, mem => .ok (mem, [])
  | n + 1, mem => do
      let (mem, stores) ← memcpyStores offset pml4 dest src n mem
      match translate offset mem pml4 (add64 src n), translate offset mem pml4 (add64 dest n) with
      | some source, some target =>
          .ok (storeByte mem target (loadByte mem source), stores ++ [add64 dest n])
      | _, _ => .error .pageFault

/-- `krealloc` with the addresses that its copy stores to. -/
def kreallocStores (offset addr oldsz newsz : Nat) (k : Kernel) :
    Except Stop ((Nat × Kernel) × List Nat) := do
  let (newShit, k) ← kmalloc offset newsz k
  if addr ≠ 0 ∧ 0 < oldsz then
    let (mem, stores) ← memcpyStores offset k.pml4 newShit addr oldsz k.mem
    let k ← kfree offset addr oldsz { k with mem := mem }
    .ok ((newShit, k), stores)
  else .ok ((newShit, k), [])

section Stores

variable {offset pml4 dest src addr oldsz newsz : Nat}

theorem memcpyStores_eq (n : Nat) (mem : Mem) : memcpyStores offset pml4 dest src n mem =
    (memcpy offset pml4 dest src n mem).map fun mem' => (mem', (List.range n).map (add64 dest)) := by
  induction n with
  | zero => rfl
  | succ n ih =>
      rw [memcpyStores, memcpy, ih]
      cases memcpy offset pml4 dest src n mem with
      | error stop => rfl
      | ok mem' =>
          simp only [Except.map, ok_bind, List.range_succ, List.map_append, List.map_singleton]
          cases translate offset mem' pml4 (add64 src n) with
          | none => rfl
          | some source => cases translate offset mem' pml4 (add64 dest n) <;> rfl

theorem kreallocStores_eq (k : Kernel) : kreallocStores offset addr oldsz newsz k =
    (krealloc offset addr oldsz newsz k).map fun result => (result,
      if addr ≠ 0 ∧ 0 < oldsz then (List.range oldsz).map (add64 result.1) else []) := by
  rw [kreallocStores, krealloc]
  cases kmalloc offset newsz k with
  | error stop => rfl
  | ok got =>
      obtain ⟨newShit, k₁⟩ := got
      rw [ok_bind, ok_bind]
      dsimp only
      by_cases old : addr ≠ 0 ∧ 0 < oldsz
      · simp only [if_pos old, memcpyStores_eq]
        cases memcpy offset k₁.pml4 newShit addr oldsz k₁.mem with
        | error stop => rfl
        | ok mem' =>
            simp only [Except.map, ok_bind]
            cases kfree offset addr oldsz { k₁ with mem := mem' } <;> rfl
      · simp only [if_neg old]
        rfl

end Stores

/-- The block is on the list of its slab once, or its region is gone and its pages are on the list
of free pages once. -/
def Released (offset : Nat) (k k' : Kernel) (addr size : Nat) : Prop :=
  if size < 1024 then
    ∃ list, Chain k'.mem 0 (k'.mem (alignDown addr 4096 + 16)) list ∧ list.count addr = 1
  else
    (∀ r ∈ k'.handedOut, r.base ≠ addr) ∧ ∃ list, Chain k'.mem 0 k'.head list ∧
      ∀ i < size, ∃ place, translate offset k.mem k.pml4 (add64 addr i) = some place ∧
        list.count (place / 4096 * 4096) = 1

def SameByte (offset : Nat) (k k' : Kernel) (virt virt' : Nat) : Prop :=
  ∃ byte, userByte offset k.pml4 k.mem virt = some byte ∧
    userByte offset k'.pml4 k'.mem virt' = some byte

structure Reallocated (offset : Nat) (h : KernelHeap) (addr oldsz newsz newShit : Nat) (k' : Kernel)
    (stores : List Nat) : Prop where
  copied : ∀ i < min oldsz newsz, SameByte offset h.kernel k' (add64 addr i) (add64 newShit i)
  inside : ∀ virt ∈ stores, ∃ i < newsz, virt = add64 newShit i
  others : ∀ b ∈ h.blocks.erase (addr, oldsz), ∀ i < b.2,
    SameByte offset h.kernel k' (add64 b.1 i) (add64 b.1 i)
  released : Released offset h.kernel k' addr oldsz

def Reallocates (offset : Nat) (h : KernelHeap) (addr oldsz newsz : Nat) : Prop :=
  ∃ newShit k' stores,
    kreallocStores offset addr oldsz newsz h.kernel = .ok ((newShit, k'), stores) ∧
      Reallocated offset h addr oldsz newsz newShit k' stores

theorem memcpy_bytes {offset pml4 dest src n : Nat} {mem : Mem} (writable : Nat → Prop)
    {origin place : Nat → Nat}
    (reach : ∀ mem', (∀ address, ¬ writable address → mem' address = mem address) → ∀ i < n,
      translate offset mem' pml4 (add64 src i) = some (origin i) ∧
        translate offset mem' pml4 (add64 dest i) = some (place i))
    (inside : ∀ i < n, writable (place i / 8 * 8)) (away : ∀ i < n, ¬ writable (origin i / 8 * 8))
    (distinct : ∀ i < n, ∀ j < n, place i = place j → i = j) :
    ∃ mem', memcpy offset pml4 dest src n mem = .ok mem' ∧
      (∀ address, ¬ writable address → mem' address = mem address) ∧
      ∀ i < n, loadByte mem' (place i) = loadByte mem (origin i) := by
  induction n with
  | zero => exact ⟨mem, rfl, fun _ _ => rfl, fun i none => absurd none (Nat.not_lt_zero i)⟩
  | succ n ih =>
      obtain ⟨mem₁, ran, same, copied⟩ := ih (fun mem' kept i less => reach mem' kept i (by omega))
        (fun i less => inside i (by omega)) (fun i less => away i (by omega))
        (fun i lessI j lessJ => distinct i (by omega) j (by omega))
      obtain ⟨reads, lands⟩ := reach mem₁ same n (Nat.lt_succ_self n)
      refine ⟨storeByte mem₁ (place n) (loadByte mem₁ (origin n)), ?_, ?_, ?_⟩
      · rw [memcpy, ran, ok_bind, reads, lands]
      · intro address outside
        rw [← same address outside]
        apply store_other
        rintro rfl
        exact outside (inside n (Nat.lt_succ_self n))
      · intro i less
        have byte : loadByte mem₁ (origin n) < 256 := Nat.mod_lt _ (by decide)
        rw [loadByte_storeByte _ _ _ byte]
        by_cases last : place i = place n
        · obtain rfl := distinct i less n (Nat.lt_succ_self n) last
          rw [if_pos rfl, loadByte, loadByte, same _ (away i less)]
        · have earlier : i ≠ n := fun equal => last (congrArg place equal)
          rw [if_neg last]
          exact copied i (by omega)

section Calls

variable {offset : Nat} {pages : List Nat} {leaf₀ : Nat → Nat} {first last : VmmRegion}
  {others : Multiset (Nat × Nat)} {extra : Multiset Nat} {h : KernelHeap} {k₁ k' : Kernel}
  {mids : List VmmRegion} {free : List Nat} {slabs : List Slab} {tables : List (List Nat × Nat)}
  {addr size oldsz newsz newShit : Nat}

theorem KernelInv.memcpy_bytes {b b' : Nat × Nat} {rest : List (Nat × Nat)} {n : Nat}
    (inv : KernelInv offset pages leaf₀ first last others extra h mids free slabs tables)
    (boot : BootFacts offset pages leaf₀ first) (listed : h.blocks.Perm (b' :: rest))
    (source : b ∈ rest) (fromIt : n ≤ b.2) (intoIt : n ≤ b'.2) :
    ∃ mem', memcpy offset h.kernel.pml4 b'.1 b.1 n h.kernel.mem = .ok mem' ∧
      (∀ address, ¬ BlockWord offset h.kernel b' address →
        mem' address = h.kernel.mem address) ∧
      ∀ i < n, userByte offset h.kernel.pml4 mem' (add64 b'.1 i) =
        userByte offset h.kernel.pml4 h.kernel.mem (add64 b.1 i) := by
  have member' : b' ∈ h.blocks := listed.symm.subset List.mem_cons_self
  have member : b ∈ h.blocks := listed.symm.subset (List.mem_cons_of_mem b' source)
  have reach : ∀ mem', (∀ address, ¬ BlockWord offset h.kernel b' address →
      mem' address = h.kernel.mem address) → ∀ i < n,
      translate offset mem' h.kernel.pml4 (add64 b.1 i) = some (blockPlace offset h.kernel b i) ∧
      translate offset mem' h.kernel.pml4 (add64 b'.1 i) =
        some (blockPlace offset h.kernel b' i) := by
    intro mem' kept i less
    obtain ⟨inv', entries, -⟩ := inv.write boot member' kept
    have leaf : ∀ page, Kernel.leaf offset { h.kernel with mem := mem' } page =
        h.kernel.leaf offset page :=
      SameEntries.kernel_leaf entries ⟨rfl, rfl, rfl⟩
    have places : ∀ c, blockPlace offset { h.kernel with mem := mem' } c i =
        blockPlace offset h.kernel c i := by
      intro c
      unfold blockPlace
      rw [leaf]
    obtain ⟨reads, -⟩ := inv'.translate_place boot member (show i < b.2 by omega)
    obtain ⟨lands, -⟩ := inv'.translate_place boot member' (show i < b'.2 by omega)
    exact ⟨reads.trans (congrArg some (places b)), lands.trans (congrArg some (places b'))⟩
  obtain ⟨mem', ran, same, copied⟩ := Mm.memcpy_bytes (BlockWord offset h.kernel b') reach
    (fun i less => (inv.translate_place boot member' (show i < b'.2 by omega)).2)
    (fun i less word => inv.blocks_apart boot listed source word
      (inv.translate_place boot member (show i < b.2 by omega)).2)
    (fun i lessI j lessJ => inv.place_inj boot.direct.usable member' (by omega) (by omega))
  refine ⟨mem', ran, same, fun i less => ?_⟩
  obtain ⟨reads, -⟩ := inv.translate_place boot member (show i < b.2 by omega)
  rw [userByte, userByte, (reach mem' same i less).2, reads, Option.map_some, Option.map_some,
    copied i less]

theorem KernelInv.kfree_released
    (inv : KernelInv offset pages leaf₀ first last others extra h mids free slabs tables)
    (boot : BootFacts offset pages leaf₀ first) (member : (addr, size) ∈ h.blocks)
    (nonzero : addr ≠ 0) (ran : kfree offset addr size h.kernel = .ok k') :
    Released offset h.kernel k' addr size := by
  have usable := boot.direct.usable
  have heap := inv.region.paging.heap
  unfold Released
  unfold kfree at ran
  rw [if_pos nonzero] at ran
  by_cases small : size < 1024
  · rw [if_pos small] at ran ⊢
    obtain ⟨s, inSlabs, live, -⟩ := mem_liveObjects.mp (inv.small_object member small)
    dsimp only at live
    obtain ⟨freed, inv'⟩ := free_eq heap usable inSlabs live
    obtain rfl := Except.ok.inj (freed.symm.trans ran)
    have ok := heap.slab s inSlabs
    have header := live_header heap usable inSlabs live
    refine ⟨addr :: s.free, ?_, ?_⟩
    · rw [header]
      exact (slabOk_freed ok live nonzero).freelist
    · have absent : addr ∉ s.free := fun inFree =>
        List.disjoint_of_nodup_append ok.nodup inFree live
      rw [List.count_cons_self, List.count_eq_zero.mpr absent]
  · rw [if_neg small] at ran ⊢
    have listed : addr ∈ h.held := (held_erase h.kernel h.bases member).1 (by omega)
    obtain ⟨r, k'', mids', slabs', rfl, inMids, shape, ran', inv', -⟩ :=
      inv.regionDealloc_spec boot listed
    obtain rfl := Except.ok.inj (ran'.symm.trans ran)
    refine ⟨?_, _, inv'.paging.heap.list, ?_⟩
    · intro s inS same
      rw [inv'.handedOut] at inS
      have distinct := inv.region.layout.bases_nodup fun x inX => (inv.region.region x inX).nonempty
      rw [(shape.map VmmRegion.base).nodup_iff, List.map_cons, List.nodup_cons] at distinct
      apply distinct.1
      rw [← same]
      exact List.mem_map_of_mem inS
    · intro i less
      obtain ⟨s, inS, base, -, inRun⟩ := inv.block_run member (show 1024 ≤ size by omega)
      obtain rfl := inv.region.base_inj inS inMids base
      obtain ⟨lands, -⟩ := inv.translate_place boot member less
      refine ⟨_, lands, ?_⟩
      have page := List.mem_flatMap.mpr ⟨s, inS, inRun i less⟩
      have aligned := usable.aligned _ (inv.region.paging.data_mem (target_mem page))
      have whole : blockPlace offset h.kernel (s.base, size) i / 4096 * 4096 =
          pointee offset (h.kernel.leaf offset (pageIndex (add64 s.base i))) := by
        rw [blockPlace, if_neg (by exact small)]
        unfold Aligned at aligned
        dsimp only at aligned ⊢
        omega
      rw [whole]
      apply List.count_eq_one_of_mem (inv'.paging.heap.disjoint usable).1
      apply List.mem_append_left
      exact List.mem_reverse.mpr (List.mem_map_of_mem (inRun i less))

theorem KernelInv.not_released {k : Kernel}
    (inv : KernelInv offset pages leaf₀ first last others extra h mids free slabs tables)
    (usable : Usable pages) (member : (addr, size) ∈ h.blocks) :
    ¬ Released offset k h.kernel addr size := by
  have heap := inv.region.paging.heap
  unfold Released
  by_cases small : size < 1024
  · rw [if_pos small]
    rintro ⟨list, chain, once⟩
    obtain ⟨s, inSlabs, live, -⟩ := mem_liveObjects.mp (inv.small_object member small)
    dsimp only at live
    have ok := heap.slab s inSlabs
    rw [live_header heap usable inSlabs live] at chain
    obtain rfl := chain.unique ok.freelist
    have inFree : addr ∈ s.free := List.count_pos_iff.mp (by omega)
    exact List.disjoint_of_nodup_append ok.nodup inFree live
  · rw [if_neg small]
    rintro ⟨gone, -⟩
    obtain ⟨r, inMids, base, -⟩ := inv.large (addr, size) member (by dsimp only; omega)
    exact gone r (by rw [inv.region.handedOut]; exact inMids) base

theorem KernelInv.byte_some {b : Nat × Nat} {i : Nat}
    (inv : KernelInv offset pages leaf₀ first last others extra h mids free slabs tables)
    (boot : BootFacts offset pages leaf₀ first) (member : b ∈ h.blocks) (inside : i < b.2) :
    ∃ byte, userByte offset h.kernel.pml4 h.kernel.mem (add64 b.1 i) = some byte := by
  obtain ⟨lands, -⟩ := inv.translate_place boot member inside
  exact ⟨_, by rw [userByte, lands, Option.map_some]⟩

/-- `krealloc` of a block to a size that is not less. -/
theorem KernelInv.krealloc_keeps
    (inv : KernelInv offset pages leaf₀ first last others extra h mids free slabs tables)
    (boot : BootFacts offset pages leaf₀ first) (live : (addr, oldsz) ∈ h.blocks)
    (nonzero : addr ≠ 0) (positive : 0 < oldsz) (grows : oldsz ≤ newsz) (short : newsz < 2 ^ 31)
    (clear : ∀ r, (KernelCall.kmalloc newsz).Places h r → Clear leaf₀ r)
    (served : kmalloc offset newsz h.kernel = .ok (newShit, k₁)) :
    Reallocates offset h addr oldsz newsz := by
  rcases inv.kmalloc_spec boot short clear with
    stopped | ⟨x, k, mids₁, free₁, slabs₁, tables₁, touched, ran₁, inv₁, moved₁, -⟩
  · exact absurd served (not_ok_of_stopped stopped)
  obtain ⟨rfl, rfl⟩ := Prod.mk.inj (Except.ok.inj (ran₁.symm.trans served))
  obtain ⟨mem', copied, frame, bytes⟩ :=
    inv₁.memcpy_bytes boot (List.Perm.refl _) live (le_refl oldsz) grows
  have old : (addr, oldsz) ∈ (x, newsz) :: h.blocks := List.mem_cons_of_mem _ live
  obtain ⟨mem'', copied', inv₂, moved₂⟩ := inv₁.memcpy_spec boot old List.mem_cons_self
    (le_refl oldsz) grows
  obtain rfl := Except.ok.inj (copied'.symm.trans copied)
  obtain ⟨k₃, mids₃, free₃, slabs₃, ran₃, inv₃, moved₃, -⟩ := inv₂.kfree_spec boot old
  have rest := cons_erase_perm (x, newsz) live
  -- what the blocks held before the copy, after it, and after the old one is gone
  have first₁ : ∀ b ∈ h.blocks, ∀ i < b.2,
      blockPlace offset k b i = blockPlace offset h.kernel b i ∧
        userByte offset k.pml4 k.mem (add64 b.1 i) =
          userByte offset h.kernel.pml4 h.kernel.mem (add64 b.1 i) := fun b member i inside =>
    inv.bytes_kept inv₁ boot moved₁ member (List.mem_cons_of_mem _ member)
      (fun address word => inv.kmalloc_words boot short ran₁ member word) inside
  have second : ∀ b ∈ h.blocks, ∀ i < b.2,
      blockPlace offset { k with mem := mem'' } b i = blockPlace offset k b i ∧
        userByte offset k.pml4 mem'' (add64 b.1 i) =
          userByte offset k.pml4 k.mem (add64 b.1 i) := fun b member i inside =>
    inv₁.bytes_kept inv₂ boot moved₂ (List.mem_cons_of_mem _ member)
      (List.mem_cons_of_mem _ member)
      (fun address word => frame address fun target =>
        inv₁.blocks_apart boot (List.Perm.refl _) member target word) inside
  have third : ∀ b ∈ (x, newsz) :: h.blocks.erase (addr, oldsz), ∀ i < b.2,
      userByte offset k₃.pml4 k₃.mem (add64 b.1 i) = userByte offset k.pml4 mem'' (add64 b.1 i) := by
    intro b member i inside
    have inRest := rest.subset member
    exact (inv₂.bytes_kept inv₃ boot moved₃ (List.mem_of_mem_erase inRest) inRest
      (fun address word => inv₂.kfree_words boot old ran₃ inRest word) inside).2
  have ran : krealloc offset addr oldsz newsz h.kernel = .ok (x, k₃) := by
    rw [krealloc, ran₁, ok_bind]
    dsimp only at copied ran₃ ⊢
    rw [if_pos ⟨nonzero, positive⟩, copied, ok_bind, ran₃, ok_bind]
  refine ⟨x, k₃, (List.range oldsz).map (add64 x), ?_, ?_, ?_, ?_, ?_⟩
  · rw [kreallocStores_eq, ran, Except.map, if_pos ⟨nonzero, positive⟩]
  · intro i less
    have inside : i < oldsz := by omega
    obtain ⟨byte, found⟩ := inv.byte_some boot live inside
    refine ⟨byte, found, ?_⟩
    calc userByte offset k₃.pml4 k₃.mem (add64 x i)
        = userByte offset k.pml4 mem'' (add64 x i) :=
          third (x, newsz) List.mem_cons_self i (by dsimp only; omega)
      _ = userByte offset k.pml4 k.mem (add64 addr i) := bytes i inside
      _ = userByte offset h.kernel.pml4 h.kernel.mem (add64 addr i) :=
          (first₁ (addr, oldsz) live i inside).2
      _ = some byte := found
  · intro virt stored
    obtain ⟨i, less, rfl⟩ := List.mem_map.mp stored
    have bound := List.mem_range.mp less
    exact ⟨i, by omega, rfl⟩
  · intro b member i inside
    have inBlocks := List.mem_of_mem_erase member
    obtain ⟨byte, found⟩ := inv.byte_some boot inBlocks inside
    refine ⟨byte, found, ?_⟩
    rw [third b (List.mem_cons_of_mem _ member) i inside, (second b inBlocks i inside).2,
      (first₁ b inBlocks i inside).2, found]
  · have released := inv₂.kfree_released boot old nonzero ran₃
    unfold Released at released ⊢
    by_cases small : oldsz < 1024
    · rw [if_pos small] at released ⊢
      exact released
    · rw [if_neg small] at released ⊢
      obtain ⟨gone, list, chain, once⟩ := released
      refine ⟨gone, list, chain, fun i inside => ?_⟩
      obtain ⟨place, lands, count⟩ := once i inside
      obtain ⟨lands₂, -⟩ := inv₂.translate_place boot old inside
      obtain ⟨landsBefore, -⟩ := inv.translate_place boot live inside
      refine ⟨_, landsBefore, ?_⟩
      rw [← (first₁ _ live i inside).1, ← (second _ live i inside).1]
      rw [lands] at lands₂
      rwa [Option.some.inj lands₂] at count

theorem KernelInv.reallocates_fits
    (inv : KernelInv offset pages leaf₀ first last others extra h mids free slabs tables)
    (boot : BootFacts offset pages leaf₀ first) (live : (addr, oldsz) ∈ h.blocks)
    (short : newsz < 2 ^ 31)
    (clear : ∀ r, (KernelCall.kmalloc newsz).Places h r → Clear leaf₀ r)
    (done : Reallocates offset h addr oldsz newsz) : addr ≠ 0 ∧ 0 < oldsz ∧ oldsz ≤ newsz := by
  obtain ⟨x, k', stores, ran, done⟩ := done
  rw [kreallocStores_eq] at ran
  cases returned : krealloc offset addr oldsz newsz h.kernel with
  | error stop =>
      rw [returned] at ran
      cases ran
  | ok result =>
      rw [returned] at ran
      obtain ⟨rfl, rfl⟩ := Prod.mk.inj (Except.ok.inj ran)
      by_cases old : addr ≠ 0 ∧ 0 < oldsz
      · refine ⟨old.1, old.2, ?_⟩
        by_contra shrinks
        -- the copy stores to the first byte behind the new block
        have stored : add64 x newsz ∈ (List.range oldsz).map (add64 x) :=
          List.mem_map_of_mem (List.mem_range.mpr (by omega))
        obtain ⟨i, less, same⟩ := done.inside (add64 x newsz) (by rw [if_pos old]; exact stored)
        unfold add64 at same
        omega
      · obtain ⟨⟨y, k₁⟩, served, rest⟩ := of_bind_ok returned
        dsimp only at rest
        rw [if_neg old] at rest
        obtain ⟨rfl, rfl⟩ := Prod.mk.inj (Except.ok.inj rest)
        rcases inv.kmalloc_spec boot short clear with
          stopped | ⟨z, k₂, mids₁, free₁, slabs₁, tables₁, touched, ran₁, inv₁, -⟩
        · exact absurd served (not_ok_of_stopped stopped)
        obtain ⟨rfl, rfl⟩ := Prod.mk.inj (Except.ok.inj (ran₁.symm.trans served))
        exact absurd done.released
          (inv₁.not_released boot.direct.usable (List.mem_cons_of_mem _ live))

end Calls

/-- The states after boot, any calls, and any bytes that callers store in their blocks. -/
inductive ReallocReached (boot : Limine) (image : KernelImage) (k₀ : Kernel) : KernelHeap → Prop
  | start {mem : Mem} {k : Kernel} (pmm : pmmInit boot mem = .ok k)
      (vmm : vmmInit boot.offset boot.entries image k = .ok k₀) :
      ReallocReached boot image k₀ ⟨k₀, [], []⟩
  | step {h h' : KernelHeap} {call : KernelCall} (before : ReallocReached boot image k₀ h)
      (within : call.Within) (allowed : call.Allowed (fun _ => True) h)
      (clear : ∀ r, call.Places h r → Clear (k₀.leaf boot.offset) r)
      (next : h.step boot.offset call = .ok h') : ReallocReached boot image k₀ h'
  | write {h : KernelHeap} {b : Nat × Nat} {i target : Nat} {byte : UInt8}
      (before : ReallocReached boot image k₀ h) (member : b ∈ h.blocks) (inside : i < b.2)
      (lands : translate boot.offset h.kernel.mem h.kernel.pml4 (add64 b.1 i) = some target) :
      ReallocReached boot image k₀
        { h with kernel := { h.kernel with mem := storeByte h.kernel.mem target byte.toNat } }

section Runs

variable {boot : Limine} {image : KernelImage} {k₀ : Kernel} {h : KernelHeap}

def takenNow (boot : Limine) (h : KernelHeap) : VmmRegion → List Nat := fun r =>
  targets boot.offset h.kernel (run r)

theorem reallocReached_inv (reached : ReallocReached boot image k₀ h) :
    ∃ first last mids free slabs tables,
      PagesInv boot image k₀ first last h (takenNow boot h) mids free slabs tables := by
  induction reached with
  | start pmm vmm =>
      obtain ⟨first, last, mids, free, slabs, tables, inv⟩ := pagesReached_inv (.start pmm vmm)
      exact ⟨first, last, mids, free, slabs, tables, inv.ends, inv.booted, inv.kernel,
        fun _ _ => rfl⟩
  | step _ within allowed clear next ih =>
      obtain ⟨first, last, mids, free, slabs, tables, inv⟩ := ih
      rcases inv.step within allowed clear with
        stopped | ⟨h'', mids', free', slabs', tables', ran, inv', -⟩
      · exact absurd next (not_ok_of_stopped stopped)
      · obtain rfl := Except.ok.inj (ran.symm.trans next)
        exact ⟨first, last, mids', free', slabs', tables', inv'.ends, inv'.booted, inv'.kernel,
          fun _ _ => rfl⟩
  | @write h b i target byte _ member inside lands ih =>
      obtain ⟨first, last, mids, free, slabs, tables, inv⟩ := ih
      have facts := boot_facts boot image inv.ends
      obtain ⟨place, word⟩ := inv.kernel.translate_place facts member inside
      obtain rfl := Option.some.inj (place.symm.trans lands)
      have others : ∀ address, ¬ BlockWord boot.offset h.kernel b address →
          storeByte h.kernel.mem (blockPlace boot.offset h.kernel b i) byte.toNat address =
            h.kernel.mem address := by
        intro address outside
        apply store_other
        rintro rfl
        exact outside word
      obtain ⟨kept, -⟩ := inv.kernel.write facts member others
      exact ⟨first, last, mids, free, slabs, tables, inv.ends, inv.booted, kept, fun _ _ => rfl⟩

end Runs

/-- In every state of every run, a reallocation of a live block that is served does what it is for
exactly when the block has an address and a size, and does not shrink. -/
theorem reallocation_preserves_iff (boot : Limine) (image : KernelImage) (k₀ : Kernel)
    (h : KernelHeap) (reached : ReallocReached boot image k₀ h) (addr oldsz newsz : Nat)
    (live : (addr, oldsz) ∈ h.blocks) (short : newsz < 2 ^ 31)
    (clear : ∀ r, (KernelCall.kmalloc newsz).Places h r → Clear (k₀.leaf boot.offset) r) :
    (∃ stop, (stop = .outOfMemory ∨ stop = .noFreeRegions) ∧
        kmalloc boot.offset newsz h.kernel = .error stop ∧
        krealloc boot.offset addr oldsz newsz h.kernel = .error stop) ∨
      (Reallocates boot.offset h addr oldsz newsz ↔ addr ≠ 0 ∧ 0 < oldsz ∧ oldsz ≤ newsz) := by
  obtain ⟨first, last, mids, free, slabs, tables, inv⟩ := reallocReached_inv reached
  have facts := boot_facts boot image inv.ends
  have clear' := fun r placed => inv.clear (clear r placed)
  rcases inv.kernel.kmalloc_spec facts short clear' with
    stopped | ⟨x, k₁, -, -, -, -, -, served, -⟩
  · left
    rcases stopped with stopped | stopped
    · exact ⟨_, Or.inl rfl, stopped, by rw [krealloc, stopped, error_bind]⟩
    · exact ⟨_, Or.inr rfl, stopped, by rw [krealloc, stopped, error_bind]⟩
  · refine Or.inr ⟨inv.kernel.reallocates_fits facts live short clear', ?_⟩
    rintro ⟨nonzero, positive, grows⟩
    exact inv.kernel.krealloc_keeps facts live nonzero positive grows short clear' served

theorem machine_small_block (size : Nat) (small : size < 1024) : ∃ (k₀ : Kernel) (h : KernelHeap)
    (addr : Nat), ReallocReached machine machineImage k₀ h ∧ (addr, size) ∈ h.blocks ∧
      ∀ more < 1024, ∃ got, kmalloc machine.offset more h.kernel = .ok got := by
  obtain ⟨k, k₀, first, last, free, slabs, tables, pmm, vmm, inv, -, many, -⟩ := machine_first_region
  have usable := pages_usable machine
  rcases kmallocSlab_paging inv.paging usable small with
    ⟨rfl, -⟩ | ⟨x, k', free', slabs', ran, -, inv', -, -, -, taken, -⟩
  · exact absurd many (by decide)
  have next : KernelHeap.step machine.offset ⟨k₀, [], []⟩ (.kmalloc size) =
      .ok ⟨k', [(x, size)], []⟩ := by
    rw [KernelHeap.step, kmalloc, if_pos small, ran, ok_bind]
  refine ⟨k₀, ⟨k', [(x, size)], []⟩, x, (ReallocReached.start pmm vmm).step ?_ ?_ ?_ next,
    List.mem_cons_self, ?_⟩
  · exact show size < 2 ^ 31 by omega
  · exact trivial
  · rintro r ⟨node, asked, wanted, -⟩
    rw [KernelCall.regionSize, if_pos small] at wanted
    cases wanted
  · intro more less
    have few := taken.few
    rcases kmallocSlab_paging inv' usable less with ⟨rfl, -⟩ | ⟨y, k'', -, -, served, -⟩
    · rw [List.length_nil] at few
      omega
    · exact ⟨(y, k''), by rw [kmalloc, if_pos less, served]⟩

theorem reallocation_preserves_iff_grown : ∃ (k₀ : Kernel) (h : KernelHeap) (addr : Nat),
    (addr, 64) ∈ h.blocks ∧ ReallocReached machine machineImage k₀ h ∧
    ((∃ stop, (stop = .outOfMemory ∨ stop = .noFreeRegions) ∧
        kmalloc machine.offset 128 h.kernel = .error stop ∧
        krealloc machine.offset addr 64 128 h.kernel = .error stop) ∨
      (Reallocates machine.offset h addr 64 128 ↔ addr ≠ 0 ∧ 0 < 64 ∧ 64 ≤ 128)) := by
  obtain ⟨k₀, h, addr, reached, live, -⟩ := machine_small_block 64 (by decide)
  refine ⟨k₀, h, addr, live, reached,
    reallocation_preserves_iff machine machineImage k₀ h reached addr 64 128 live (by decide) ?_⟩
  rintro r ⟨node, asked, wanted, -⟩
  cases wanted

/-- 64 bytes are copied into a block of 8. -/
theorem shrinking_writes_outside : ∃ (k₀ : Kernel) (h : KernelHeap) (addr : Nat),
    ReallocReached machine machineImage k₀ h ∧ (addr, 64) ∈ h.blocks ∧
    (∃ got, kmalloc machine.offset 8 h.kernel = .ok got) ∧
    ¬ Reallocates machine.offset h addr 64 8 := by
  obtain ⟨k₀, h, addr, reached, live, served⟩ := machine_small_block 64 (by decide)
  refine ⟨k₀, h, addr, reached, live, served 8 (by decide), ?_⟩
  intro done
  obtain ⟨first, last, mids, free, slabs, tables, inv⟩ := reallocReached_inv reached
  obtain ⟨-, -, grows⟩ := inv.kernel.reallocates_fits (boot_facts machine machineImage inv.ends) live
    (by decide) (by rintro r ⟨node, asked, wanted, -⟩; cases wanted) done
  exact absurd grows (by decide)

end Nyaux.Mm
