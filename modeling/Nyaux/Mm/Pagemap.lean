import Nyaux.Mm.VmmInit

/-! `new_pagemap`, down to the words of the new table. -/

namespace Nyaux.Mm

open Word Memory Paging

/-- `struct pagemap`, with its region list; its heap block is `addr`. -/
structure Pagemap where
  addr : Nat
  pml4 : Nat
  head : List VmmRegion

/-- `memcpy(dest + 256, src + 256, 0x1000 / 2)` on tables. -/
def copyUpper (mem : Mem) (dest src : Nat) : Mem := fun address =>
  if dest + 2048 ≤ address ∧ address < dest + 4096 then mem (address - dest + src) else mem address

/-- The lower half of the new table keeps what the page held. The word for `next` in the last node is
not set either; it is assumed to be `NULL`. -/
def Kernel.newPagemap (offset kernelHigherHalfSize : Nat) (k : Kernel) :
    Except Stop (Pagemap × Kernel) := do
  let (newGuy, k) ← kmalloc offset 16 k
  if newGuy = 0 then .error .nullDeref
  else
    let (pml4, k) ← pmmAllocSinglep offset k
    let k := { k with mem := copyUpper k.mem (add64 pml4 offset) (add64 k.pml4 offset) }
    let (part, k) ← allocNode offset k
    let (kernel, k) ← allocNode offset k
    .ok (⟨newGuy, pml4, [⟨part, 0, 0⟩, ⟨kernel, offset, kernelHigherHalfSize⟩]⟩, k)

def Pagemap.root (offset : Nat) (p : Pagemap) : Nat := add64 p.pml4 offset

/-- Only the contents of free pages differ, and not the links of the list. -/
structure SameButFree (free : List Nat) (k k' : Kernel) : Prop where
  vars : SameVars k k'
  head : k'.head = k.head
  mem : ∀ address, (∀ p ∈ free, ¬ (p < address ∧ address < p + 4096)) →
    k'.mem address = k.mem address

section Spec

variable {offset : Nat} {pages : List Nat} {k : Kernel} {free : List Nat} {slabs : List Slab}
  {tables : List (List Nat × Nat)} {data : Multiset Nat}

theorem copyUpper_lower {mem : Mem} {dest src i : Nat} (lower : i < 256) :
    copyUpper mem dest src (slot dest i) = mem (slot dest i) := by
  apply if_neg
  unfold slot
  omega

theorem copyUpper_upper {mem : Mem} {dest src i : Nat} (upper : 256 ≤ i) (bound : i < 512) :
    copyUpper mem dest src (slot dest i) = mem (slot src i) := by
  unfold slot
  rw [copyUpper, if_pos (by omega)]
  congr 1
  omega

theorem copyUpper_outside {mem : Mem} {dest src address : Nat} (away : ¬ InPage dest address) :
    copyUpper mem dest src address = mem address := by
  apply if_neg
  unfold InPage at away
  omega

def tableFilled (offset q : Nat) (k : Kernel) : Kernel :=
  { k with head := k.mem q, mem := copyUpper k.mem q (k.root offset) }

theorem newPagemap_eq {x q : Nat} {k₁ : Kernel} {rest : List Nat}
    (ran : kmallocSlab offset 16 k = .ok (x, k₁)) (nonzero : x ≠ 0)
    (inv : KernelPaging offset pages k₁ (q :: rest) slabs tables data)
    (direct : Direct offset pages) (size : Nat) :
    k.newPagemap offset size = (do
      let (part, k) ← allocNode offset (tableFilled offset q k₁)
      let (kernel, k) ← allocNode offset k
      .ok (⟨x, q - offset, [⟨part, 0, 0⟩, ⟨kernel, offset, size⟩]⟩, k)) := by
  obtain ⟨took, -⟩ := PagingInv.take inv direct
  obtain ⟨-, -, -, -, back⟩ :=
    direct.phys_page (inv.heap.mem_pages (Or.inl (List.mem_cons_self : q ∈ q :: rest)))
  rw [Kernel.newPagemap, kmalloc, if_pos (by decide), ran, ok_bind]
  dsimp only
  rw [if_neg nonzero, took, ok_bind]
  dsimp only
  rw [back]
  rfl

theorem tableFilled_spec {q : Nat} {rest : List Nat}
    (inv : KernelPaging offset pages k (q :: rest) slabs tables data) (direct : Direct offset pages) :
    KernelPaging offset pages (tableFilled offset q k) rest slabs tables (q ::ₘ data) ∧
      SameEntries offset (k.root offset) 512 k.mem (tableFilled offset q k).mem ∧
      SameOthers k (tableFilled offset q k) data := by
  obtain ⟨-, owned⟩ := PagingInv.take inv direct
  have written : ∀ address, ¬ InPage q address →
      copyUpper k.mem q (k.root offset) address = k.mem address :=
    fun address away => copyUpper_outside away
  obtain ⟨inv', entries⟩ := owned.frame_page direct.usable (Multiset.mem_cons_self q data) written
  exact ⟨inv', entries, owned.others_of_outside direct.usable written⟩

theorem SameVars.entries {k' k'' : Kernel} (vars : SameVars k k')
    (first : SameEntries offset (k.root offset) 512 k.mem k'.mem)
    (second : SameEntries offset (k'.root offset) 512 k'.mem k''.mem) :
    SameEntries offset (k.root offset) 512 k.mem k''.mem := by
  rw [vars.root] at second
  exact fun path ok => (second path ok).trans (first path ok)

/-- `new_pagemap` stops only for want of a page. Its table is a page of the free list: the
upper words are the kernel's, the lower ones are those the page held. -/
theorem newPagemap_spec (inv : KernelPaging offset pages k free slabs tables data)
    (direct : Direct offset pages) (size : Nat) :
    (free.length < 4 ∧ k.newPagemap offset size = .error .outOfMemory) ∨
      ∃ p k' free' slabs' part kernel, k.newPagemap offset size = .ok (p, k') ∧
        p.root offset ∈ free ∧ p.head = [⟨part, 0, 0⟩, ⟨kernel, offset, size⟩] ∧
        KernelPaging offset pages k' free' slabs' tables (p.root offset ::ₘ data) ∧
        liveObjects slabs' = (kernel, cacheFor 32) ::ₘ (part, cacheFor 32) ::ₘ
          (p.addr, cacheFor 16) ::ₘ liveObjects slabs ∧
        (∀ i < 256, k'.mem (slot (p.root offset) i) = k.mem (slot (p.root offset) i)) ∧
        (∀ i, 256 ≤ i → i < 512 →
          k'.mem (slot (p.root offset) i) = k'.mem (slot (k'.root offset) i)) ∧
        SameEntries offset (k.root offset) 512 k.mem k'.mem ∧ SameVars k k' ∧
        Taken 4 free free' ∧ SameOthers k k' data := by
  have usable := direct.usable
  rcases kmallocSlab_paging inv usable (show 16 < 1024 by decide) with
    ⟨rfl, stopped⟩ | ⟨x, k₁, free₁, slabs₁, ran₁, nonzero, inv₁, live₁, entries₁, vars₁, taken₁,
      others₁, rest₁⟩
  · refine Or.inl ⟨by simp, ?_⟩
    rw [Kernel.newPagemap, kmalloc, if_pos (by decide), stopped, error_bind]
  have few₁ := taken₁.few
  cases free₁ with
  | nil =>
      rw [List.length_nil] at few₁
      refine Or.inl ⟨by omega, ?_⟩
      rw [Kernel.newPagemap, kmalloc, if_pos (by decide), ran₁, ok_bind]
      dsimp only
      rw [if_neg nonzero, inv₁.heap.take_none, error_bind]
  | cons q free₁ =>
  have step := newPagemap_eq ran₁ nonzero inv₁ direct size
  have inPages := inv₁.heap.mem_pages (Or.inl (List.mem_cons_self : q ∈ q :: free₁))
  obtain ⟨-, -, -, -, back⟩ := direct.phys_page inPages
  obtain ⟨inv₂, entries₂, others₂⟩ := tableFilled_spec inv₁ direct
  have taken₂ := taken₁.trans (Taken.one 0 q free₁)
  rcases allocNode_spec inv₂ usable with
    ⟨rfl, stopped⟩ | ⟨part, k₃, free₃, slabs₃, ran₃, inv₃, live₃, entries₃, vars₃, taken₃,
      others₃, -⟩
  · have few₂ := taken₂.few
    rw [List.length_nil] at few₂
    refine Or.inl ⟨by omega, ?_⟩
    rw [step, stopped, error_bind]
  have few₃ := (taken₂.trans taken₃).few
  rcases allocNode_spec inv₃ usable with
    ⟨rfl, stopped⟩ | ⟨kernel, k₄, free₄, slabs₄, ran₄, inv₄, live₄, entries₄, vars₄, taken₄,
      others₄, -⟩
  · rw [List.length_nil] at few₃
    refine Or.inl ⟨by omega, ?_⟩
    rw [step, ran₃, ok_bind]
    dsimp only
    rw [stopped, error_bind]
  -- the pages that changed are not the new table any more
  have own : SamePage (tableFilled offset q k₁).mem k₄.mem q :=
    (others₃ q (Multiset.mem_cons_self q data)).trans (others₄ q (Multiset.mem_cons_self q data))
  have vars₂ : SameVars k₁ (tableFilled offset q k₁) := ⟨rfl, rfl, rfl⟩
  have vars := ((vars₁.trans vars₂).trans vars₃).trans vars₄
  have entries := vars₁.entries entries₁ (vars₂.entries entries₂ (vars₃.entries entries₃ entries₄))
  let p : Pagemap := ⟨x, q - offset, [⟨part, 0, 0⟩, ⟨kernel, offset, size⟩]⟩
  have root : p.root offset = q := back
  refine Or.inr ⟨p, k₄, free₄, slabs₄, part, kernel, ?_, ?_, rfl, ?_, ?_, ?_, ?_, entries, vars,
    (taken₂.trans taken₃).trans taken₄, ?_⟩
  · rw [step, ran₃, ok_bind]
    dsimp only
    rw [ran₄, ok_bind]
  · rw [root]
    exact taken₁.suffix.subset List.mem_cons_self
  · rw [root]
    exact inv₄
  · rw [live₄, live₃, live₁]
  · intro i lower
    rw [root, own _ (slot_inPage (by omega))]
    exact (copyUpper_lower lower).trans (rest₁ q List.mem_cons_self _ (slot_inPage (by omega)))
  · intro i lower upper
    have ok : EntryOk 512 [i] := ⟨upper, by simp, by simp, by simp⟩
    have before : k₁.mem (slot (k.root offset) i) = k.mem (slot (k.root offset) i) := entries₁ [i] ok
    have after : k₄.mem (slot (k.root offset) i) = k.mem (slot (k.root offset) i) := entries [i] ok
    rw [root, own _ (slot_inPage upper), vars.root, after, ← before, ← vars₁.root]
    exact copyUpper_upper lower upper
  · intro y member
    have inData := Multiset.mem_cons_of_mem (b := q) member
    exact (others₁ y member).trans ((others₂ y member).trans
      ((others₃ y inData).trans (others₄ y inData)))

/-- A pagemap whose lower half is empty, with the kernel's tables it shares. The kernel's own
table and those of its lower half become pages like any other. -/
theorem paging_share {q : Nat} (inv : KernelPaging offset pages k free slabs tables (q ::ₘ data))
    (direct : Direct offset pages) (empty : ∀ i < 256, ¬ Present (k.mem (slot q i)))
    (same : ∀ i, 256 ≤ i → i < 512 → k.mem (slot q i) = k.mem (slot (k.root offset) i)) :
    PagingInv offset pages q 512 k free slabs (([], q) :: Tree.upper tables)
      ((tablePages tables : Multiset Nat) - tablePages (Tree.upper tables) + data) := by
  have inData := Multiset.mem_cons_self q data
  have aligned := direct.usable.aligned q (inv.data_mem inData)
  have fresh := (inv.apart direct.usable inData).2.2
  have fewer : (tablePages (Tree.upper tables) : Multiset Nat) ≤ tablePages tables := by
    apply Multiset.coe_le.mpr
    exact ((List.filter_sublist).map Prod.snd).subperm
  refine ⟨?_, inv.tree.share aligned fresh empty same⟩
  have moved : (tablePages (([], q) :: Tree.upper tables) : Multiset Nat) +
      ((tablePages tables : Multiset Nat) - tablePages (Tree.upper tables) + data) =
        tablePages tables + q ::ₘ data := by
    rw [tablePages, List.map_cons, ← Multiset.cons_coe, ← add_assoc, Multiset.cons_add,
      ← tablePages, Multiset.cons_add, Multiset.add_cons, add_tsub_cancel_of_le fewer]
  rw [moved]
  exact inv.heap

end Spec

/-! What the new table depends on. -/

def patch (free : List Nat) (word : Nat → Nat) (k : Kernel) : Kernel :=
  { k with mem := fun address =>
      if 8 ≤ address ∧ address - 8 ∈ free then word (address - 8) else k.mem address }

/-- The pagemap maps nothing in the user half, and would not with other bytes in the free pages
either; nor does anything else in it depend on them. -/
structure FreshPagemap (offset size : Nat) (free : List Nat) (k k' : Kernel) (p : Pagemap) :
    Prop where
  empty : ∀ virt < 2 ^ 47, translate offset k'.mem p.pml4 virt = none
  independent : ∀ k₂, SameButFree free k k₂ → ∃ p₂ k₂', k₂.newPagemap offset size = .ok (p₂, k₂') ∧
    ∀ virt < 2 ^ 64, translate offset k₂'.mem p₂.pml4 virt = translate offset k'.mem p.pml4 virt

def selfAddress : Nat := (2 ^ 27 + 2 ^ 18 + 2 ^ 9 + 1) * 4096

section Fresh

variable {offset size : Nat} {pages : List Nat} {k k' : Kernel} {p : Pagemap} {free : List Nat}
  {slabs : List Slab} {tables : List (List Nat × Nat)} {data : Multiset Nat} {word : Nat → Nat}

theorem sameButFree_patch (free : List Nat) (word : Nat → Nat) (k : Kernel) :
    SameButFree free k (patch free word k) := by
  refine ⟨⟨rfl, rfl, rfl⟩, rfl, ?_⟩
  intro address outside
  apply if_neg
  rintro ⟨above, member⟩
  exact outside _ member ⟨by omega, by omega⟩

theorem patch_word {q : Nat} (member : q ∈ free) : (patch free word k).mem (slot q 1) = word q := by
  have back : slot q 1 - 8 = q := by
    unfold slot
    omega
  have above : 8 ≤ slot q 1 := by
    unfold slot
    omega
  simp only [patch, back, above, member, and_self, if_true]

theorem SameButFree.paging {k₂ : Kernel} (same : SameButFree free k k₂)
    (inv : KernelPaging offset pages k free slabs tables data) (usable : Usable pages) :
    KernelPaging offset pages k₂ free slabs tables data := by
  have listed : free ⊆ pages := fun q member => inv.heap.mem_pages (Or.inl member)
  obtain ⟨-, -, apart, elsewhere⟩ := inv.heap.disjoint usable
  have links : ∀ q ∈ free, k₂.mem q = k.mem q := by
    intro q member
    apply same.mem
    rintro p inFree ⟨above, below⟩
    have aligned := usable.aligned q (listed member)
    have alignedP := usable.aligned p (listed inFree)
    unfold Aligned at aligned alignedP
    omega
  have kept : ∀ t ∈ pages, t ∉ free → SamePage k.mem k₂.mem t := by
    intro t inPages notFree address inT
    apply same.mem
    rintro p inFree ⟨above, below⟩
    have different : t ≠ p := by
      rintro rfl
      exact notFree inFree
    exact page_ne (usable.aligned t inPages) (usable.aligned p (listed inFree)) different inT
      ⟨above.le, below⟩
  have heap : HeapInv pages 8 { k with mem := k₂.mem } free slabs (tablePages tables + data) := by
    apply inv.heap.frame_links links
    exact fun t member => kept t (inv.heap.mem_pages (Or.inr (Or.inl member)))
      fun inFree => apart t inFree member
  have vars := same.vars
  refine ⟨⟨heap.pages, ?_, heap.slab, ?_, ?_⟩, ?_⟩
  · rw [same.head]
    exact heap.list
  · rw [vars.caches]
    exact heap.count
  · rw [vars.caches]
    exact heap.caches
  · rw [vars.root]
    apply inv.tree.frame
    intro t member
    have inTables : t.2 ∈ tablePages tables := List.mem_map_of_mem member
    exact kept t.2 (inv.table_mem inTables)
      (elsewhere t.2 (Multiset.mem_add.mpr (Or.inl inTables))).1

theorem KernelPaging.patch (inv : KernelPaging offset pages k free slabs tables data)
    (usable : Usable pages) (word : Nat → Nat) :
    KernelPaging offset pages (patch free word k) free slabs tables data :=
  (sameButFree_patch free word k).paging inv usable

theorem selfAddress_page : pageIndex selfAddress = 1 * (2 ^ 27 + 2 ^ 18 + 2 ^ 9 + 1) := by decide

theorem translate_patched (inv : KernelPaging offset pages k free slabs tables data)
    (direct : Direct offset pages)
    (ran : (patch free word k).newPagemap offset size = .ok (p, k')) :
    k'.mem (slot (p.root offset) 1) = word (p.root offset) ∧ p.root offset ∈ free := by
  rcases newPagemap_spec (inv.patch direct.usable word) direct size with
    ⟨-, stopped⟩ | ⟨p', k'', free', slabs', part, kernel, ran', member, -, -, -, lower, -⟩
  · rw [stopped] at ran
    cases ran
  · obtain ⟨rfl, rfl⟩ := Prod.mk.inj (Except.ok.inj (ran'.symm.trans ran))
    exact ⟨(lower 1 (by decide)).trans (patch_word member), member⟩

theorem translate_cleared (inv : KernelPaging offset pages k free slabs tables data)
    (direct : Direct offset pages)
    (ran : (patch free (fun _ => 0) k).newPagemap offset size = .ok (p, k')) :
    translate offset k'.mem p.pml4 selfAddress = none := by
  obtain ⟨held, -⟩ := translate_patched inv direct ran
  have absent : ¬ Present (k'.mem (slot (p.root offset) (pageIndex selfAddress / 2 ^ 27 % 512))) := by
    rw [show pageIndex selfAddress / 2 ^ 27 % 512 = 1 by decide, held]
    decide
  rw [translate, ← Pagemap.root, leafEntry_of_root_absent absent]
  rfl

def selfWord (offset q : Nat) : Nat := (q - offset) ||| 1

theorem translate_self (inv : KernelPaging offset pages k free slabs tables data)
    (direct : Direct offset pages)
    (ran : (patch free (selfWord offset) k).newPagemap offset size = .ok (p, k')) :
    translate offset k'.mem p.pml4 selfAddress ≠ none := by
  obtain ⟨held, member⟩ := translate_patched inv direct ran
  have bits : FlagBits 1 := ⟨by decide, by decide⟩
  obtain ⟨-, aligned, -, near, back⟩ := direct.phys_page (inv.heap.mem_pages (Or.inl member))
  have present := present_or bits (p.root offset - offset)
  have leads : pointee offset (selfWord offset (p.root offset)) = p.root offset := by
    rw [selfWord, pointee_or bits (by omega), Nat.div_mul_cancel aligned, back]
  have entry : leafEntry offset k'.mem (p.root offset) (pageIndex selfAddress) =
      selfWord offset (p.root offset) := by
    rw [← held] at leads ⊢
    rw [selfAddress_page]
    apply leafEntry_self (by decide) _ leads
    rw [held]
    exact present
  rw [translate, ← Pagemap.root, entry]
  rw [if_pos (show Present (selfWord offset (p.root offset)) from present)]
  exact Option.some_ne_none _

/-- No call of `new_pagemap` meets the specification. What it does guarantee: the user half
is empty when no free page holds a word that looks like a present entry. -/
theorem new_pagemap_not_fresh (offset size : Nat) (pages : List Nat) (k k' : Kernel) (p : Pagemap)
    (free : List Nat) (slabs : List Slab) (tables : List (List Nat × Nat)) (data : Multiset Nat)
    (direct : Direct offset pages) (inv : KernelPaging offset pages k free slabs tables data)
    (ran : k.newPagemap offset size = .ok (p, k')) :
    ¬ FreshPagemap offset size free k k' p ∧
      ((∀ q ∈ free, ∀ i < 256, ¬ Present (k.mem (slot q i))) →
        ∀ virt < 2 ^ 47, translate offset k'.mem p.pml4 virt = none) ∧
      (4 ≤ free.length → ∃ k₂ p₂ k₂', SameButFree free k k₂ ∧
        k₂.newPagemap offset size = .ok (p₂, k₂') ∧
        ∃ virt < 2 ^ 47, translate offset k₂'.mem p₂.pml4 virt ≠ none) := by
  have user : selfAddress < 2 ^ 47 := by decide
  refine ⟨?_, ?_, ?_⟩
  · intro fresh
    obtain ⟨p₂, k₂, ran₂, same⟩ := fresh.independent _ (sameButFree_patch free (selfWord offset) k)
    apply translate_self inv direct ran₂
    rw [same selfAddress (by decide)]
    exact fresh.empty selfAddress user
  · intro clean virt lower
    rcases newPagemap_spec inv direct size with
      ⟨-, stopped⟩ | ⟨p', k'', free', slabs', part, kernel, ran', member, -, -, -, kept, -⟩
    · rw [stopped] at ran
      cases ran
    · obtain ⟨rfl, rfl⟩ := Prod.mk.inj (Except.ok.inj (ran'.symm.trans ran))
      have index : pageIndex virt / 2 ^ 27 % 512 < 256 := by
        unfold pageIndex
        omega
      have absent : ¬ Present (k''.mem (slot (p'.root offset) (pageIndex virt / 2 ^ 27 % 512))) := by
        rw [kept _ index]
        exact clean _ member _ index
      rw [translate, ← Pagemap.root, leafEntry_of_root_absent absent]
      rfl
  · intro enough
    rcases newPagemap_spec (inv.patch direct.usable (selfWord offset)) direct size with
      ⟨few, -⟩ | ⟨p₂, k₂, -, -, -, -, ran₂, -⟩
    · omega
    · exact ⟨_, p₂, k₂, sameButFree_patch free (selfWord offset) k, ran₂, selfAddress, user,
        translate_self inv direct ran₂⟩

end Fresh

theorem machine_booted : ∃ k free slabs tables, ∃ first last : VmmRegion,
    RegionInv machine.offset machine.pages
      (bootEntry machine.offset machine.entries machineImage) first last k [] free slabs tables
      (setupNodes first last) 0 ∧
    Ends machine.offset (bootEntry machine.offset machine.entries machineImage) first ∧
    6000 ≤ free.length := by
  have paths : machinePaths.length = 2057 := by simp [machinePaths]
  obtain ⟨k₀, k, free, slabs, tables, first, last, -, -, inv, ends, -, -, -, -, many, -⟩ :=
    boot_of_enough machine machineImage (fun _ => 0) machinePaths machine_covers
      (by rw [paths, machine_pages]; decide)
  rw [paths, machine_pages] at many
  exact ⟨k, free, slabs, tables, first, last, inv, ends, by omega⟩

/-- `kerneL_higher_half_size` on the machine. -/
def machineEnd : Nat := machineImage.virtualBase + machineImage.size

def wipe (free : List Nat) (k : Kernel) : Kernel :=
  { k with mem := fun address =>
      if ∃ p ∈ free, p < address ∧ address < p + 4096 then 0 else k.mem address }

theorem sameButFree_wipe (free : List Nat) (k : Kernel) : SameButFree free k (wipe free k) := by
  refine ⟨⟨rfl, rfl, rfl⟩, rfl, ?_⟩
  intro address outside
  apply if_neg
  rintro ⟨p, member, inside⟩
  exact outside p member inside

theorem wipe_absent {offset : Nat} {pages : List Nat} {k : Kernel} {free : List Nat}
    {slabs : List Slab} {tables : List (List Nat × Nat)} {data : Multiset Nat}
    (inv : KernelPaging offset pages k free slabs tables data) (usable : Usable pages) {q i : Nat}
    (member : q ∈ free) (bound : i < 512) : ¬ Present ((wipe free k).mem (slot q i)) := by
  cases i with
  | zero =>
      have clean := (sameButFree_wipe free k).paging inv usable
      obtain ⟨before, after, split⟩ := List.append_of_mem member
      have listed : ∀ p ∈ free, Aligned p :=
        fun p inFree => usable.aligned p (inv.heap.mem_pages (Or.inl inFree))
      have chain := clean.heap.list
      have link := chain.link split
      rw [show slot q 0 = q + 0 from rfl, link]
      cases after with
      | nil => decide
      | cons next rest =>
          have aligned := listed next (by rw [split]; simp)
          rw [List.headD_cons, Present, Nat.and_one_is_mod]
          unfold Aligned at aligned
          omega
  | succ i =>
      have zero : (wipe free k).mem (slot q (i + 1)) = 0 := by
        apply if_pos
        refine ⟨q, member, ?_⟩
        unfold slot
        omega
      rw [zero]
      decide

theorem machine_pagemap : ∃ (k : Kernel) (p : Pagemap) (free : List Nat), ∃ slabs tables data,
    PagingInv machine.offset machine.pages (p.root machine.offset) 512 k free slabs tables data ∧
    5000 ≤ free.length ∧
    ∀ page < 2 ^ 35, ¬ Present (leafEntry machine.offset k.mem (p.root machine.offset) page) := by
  have direct := pages_direct machine
  obtain ⟨k₀, free, slabs, tables, first, last, booted, -, many⟩ := machine_booted
  have inv := (sameButFree_wipe free k₀).paging booted.paging direct.usable
  rcases newPagemap_spec inv direct machineEnd with
    ⟨few, -⟩ | ⟨p, k, free', slabs', -, -, -, member, -, inv', -, lower, upper, -, -, taken, -⟩
  · omega
  have few := taken.few
  have empty : ∀ i < 256, ¬ Present (k.mem (slot (p.root machine.offset) i)) := by
    intro i bound
    rw [lower i bound]
    exact wipe_absent booted.paging direct.usable member (by omega)
  refine ⟨k, p, free', slabs', _, _, paging_share inv' direct empty upper, by omega, ?_⟩
  intro page bound
  have index : page / 2 ^ 27 % 512 < 256 := by omega
  rw [leafEntry_of_root_absent (empty _ index)]
  decide

/-- Two states that differ in free pages only: the one pagemap maps `selfAddress`, the other
does not. -/
theorem new_pagemap_leaks : ∃ k k₂ free slabs tables data p k' p₂ k₂',
    KernelPaging machine.offset machine.pages k free slabs tables data ∧
    SameButFree free k k₂ ∧ k.newPagemap machine.offset machineEnd = .ok (p, k') ∧
    k₂.newPagemap machine.offset machineEnd = .ok (p₂, k₂') ∧ selfAddress < 2 ^ 47 ∧
    translate machine.offset k'.mem p.pml4 selfAddress = none ∧
    translate machine.offset k₂'.mem p₂.pml4 selfAddress ≠ none ∧
    ¬ FreshPagemap machine.offset machineEnd free k k' p := by
  have direct := pages_direct machine
  obtain ⟨k₀, free, slabs, tables, first, last, booted, -, many⟩ := machine_booted
  have inv := booted.paging.patch direct.usable fun _ => 0
  rcases newPagemap_spec inv direct machineEnd with
    ⟨few, -⟩ | ⟨p, k', -, -, -, -, ran, -⟩
  · omega
  rcases newPagemap_spec (inv.patch direct.usable (selfWord machine.offset)) direct machineEnd with
    ⟨few, -⟩ | ⟨p₂, k₂, -, -, -, -, ran₂, -⟩
  · omega
  have same := sameButFree_patch free (selfWord machine.offset) (patch free (fun _ => 0) k₀)
  have maps := translate_self inv direct ran₂
  refine ⟨_, _, free, slabs, tables, _, p, k', p₂, k₂, inv, same, ran, ran₂, by decide,
    translate_cleared booted.paging direct ran, maps, ?_⟩
  intro fresh
  obtain ⟨p₃, k₃, ran₃, equal⟩ := fresh.independent _ same
  obtain ⟨rfl, rfl⟩ := Prod.mk.inj (Except.ok.inj (ran₃.symm.trans ran₂))
  apply maps
  rw [equal selfAddress (by decide)]
  exact fresh.empty selfAddress (by decide)

/-- The call on the machine after boot. -/
theorem new_pagemap_not_fresh_machine : ∃ k free p k', 4 ≤ free.length ∧
    k.newPagemap machine.offset machineEnd = .ok (p, k') ∧
    ¬ FreshPagemap machine.offset machineEnd free k k' p := by
  have direct := pages_direct machine
  obtain ⟨k, free, slabs, tables, first, last, booted, -, many⟩ := machine_booted
  rcases newPagemap_spec booted.paging direct machineEnd with
    ⟨few, -⟩ | ⟨p, k', -, -, -, -, ran, -⟩
  · omega
  exact ⟨k, free, p, k', by omega, ran,
    (new_pagemap_not_fresh machine.offset machineEnd machine.pages k k' p free slabs tables _ direct
      booted.paging ran).1⟩

end Nyaux.Mm
