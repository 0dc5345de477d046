import Nyaux.Mm.Vmm

/-! What `map` and `unmap` do to a tree of page tables, whatever else the memory holds. -/

namespace Nyaux.Mm

open Word Memory Paging

def tablePages (tables : List (List Nat × Nat)) : List Nat := tables.map Prod.snd

structure DirectPage (offset p : Nat) : Prop where
  aligned : Aligned p
  above : offset < p
  phys : 4096 ∣ p - offset
  mask : p - offset < 2 ^ 52
  below : p + 4096 ≤ 2 ^ 64

structure TableTree (offset root limit : Nat) (k : Kernel) (free : List Nat)
    (tables : List (List Nat × Nat)) : Prop where
  tree : Tree offset k.mem root limit tables
  list : Chain k.mem 0 k.head free
  distinct : free.Nodup
  direct : ∀ p, p ∈ free ∨ p ∈ tablePages tables → DirectPage offset p
  apart : ∀ p ∈ free, p ∉ tablePages tables

def Filled (offset : Nat) (free : List Nat) (flags old new : Nat) : Prop :=
  new = old ∨ ¬ Present old ∧ ∃ page ∈ free, new = (page - offset) ||| flags

/-- What `get_next_table` does to the entry at `path`. -/
structure TableLinked (offset root limit : Nat) (free : List Nat) (flags : Nat) (path : List Nat)
    (mem mem' : Mem) : Prop where
  present : Present (entryAt offset mem' root path)
  filled : Filled offset free flags (entryAt offset mem root path) (entryAt offset mem' root path)
  others : ∀ other, EntryOk limit other → other ≠ path →
    entryAt offset mem' root other = entryAt offset mem root other

/-- What `map` does to the entries: the one of the page is written, those above it are linked. -/
structure Mapped (offset root limit : Nat) (free : List Nat) (flags page entry : Nat)
    (mem mem' : Mem) : Prop where
  leaf : entryAt offset mem' root (entryPath page) = entry
  above : ∀ path, path ≠ [] → path <:+ leafPath page →
    Present (entryAt offset mem' root path) ∧
      Filled offset free flags (entryAt offset mem root path) (entryAt offset mem' root path)
  others : ∀ path, EntryOk limit path → ¬ path <:+ entryPath page →
    entryAt offset mem' root path = entryAt offset mem root path

structure Grown (free : List Nat) (tables tables' : List (List Nat × Nat)) (mem mem' : Mem) : Prop where
  source : ∀ q ∈ tablePages tables', q ∈ free ∨ q ∈ tablePages tables
  frame : ∀ q, Aligned q → q ∉ free → q ∉ tablePages tables → SamePage mem mem' q

def linkPage (offset t i flags page : Nat) (k : Kernel) : Kernel :=
  { k with
    head := k.mem page
    mem := store (zeroPage k.mem page) (slot t i) ((page - offset) ||| flags) }

section

variable {offset root limit : Nat} {k : Kernel} {free : List Nat}
  {tables : List (List Nat × Nat)} {path : List Nat} {t i flags : Nat}

theorem Filled.refl (offset : Nat) (free : List Nat) (flags old : Nat) :
    Filled offset free flags old old := Or.inl rfl

theorem Filled.mono {free' : List Nat} {old new : Nat} (filled : Filled offset free' flags old new)
    (subset : free' ⊆ free) : Filled offset free flags old new := by
  rcases filled with same | ⟨missing, page, member, value⟩
  · exact Or.inl same
  · exact Or.inr ⟨missing, page, subset member, value⟩

theorem Mapped.leafEntry {page entry : Nat} {mem mem' : Mem}
    (mapped : Mapped offset root limit free flags page entry mem mem') (bound : page < 2 ^ 36)
    {other : Nat} (boundOther : other < 2 ^ 36) (under : Under limit other) :
    Paging.leafEntry offset mem' root other =
      if other = page then entry else Paging.leafEntry offset mem root other := by
  by_cases same : other = page
  · rw [if_pos same, same]
    exact mapped.leaf
  · rw [if_neg same]
    apply mapped.others _ (entryPath_ok under)
    intro suffix
    exact same (entryPath_injective boundOther bound (suffix.eq_of_length rfl))

theorem tablePage_mem (member : (path, t) ∈ tables) : t ∈ tablePages tables :=
  List.mem_map_of_mem member

theorem Grown.refl (free : List Nat) (tables : List (List Nat × Nat)) (mem : Mem) :
    Grown free tables tables mem mem :=
  ⟨fun _ member => Or.inr member, fun q _ _ _ => SamePage.refl mem q⟩

theorem Grown.trans {free' : List Nat} {tables' tables'' : List (List Nat × Nat)}
    {mem mem' mem'' : Mem} (first : Grown free tables tables' mem mem')
    (second : Grown free' tables' tables'' mem' mem'') (subset : free' ⊆ free) :
    Grown free tables tables'' mem mem'' := by
  constructor
  · intro q member
    rcases second.source q member with inFree | inTables
    · exact Or.inl (subset inFree)
    · exact first.source q inTables
  · intro q aligned notFree notTable
    have notTable' : q ∉ tablePages tables' := fun member =>
      (first.source q member).elim notFree notTable
    exact (first.frame q aligned notFree notTable).trans
      (second.frame q aligned (fun member => notFree (subset member)) notTable')

theorem lvlIndex_eq (shift virt : Nat) : lvlIndex shift virt = virt / 2 ^ shift % 512 := by
  rw [lvlIndex, Nat.shiftRight_eq_div_pow]
  exact Nat.and_two_pow_sub_one_eq_mod _ 9

theorem lvlIndex_lt (shift virt : Nat) : lvlIndex shift virt < 512 := by
  rw [lvlIndex_eq]
  exact Nat.mod_lt _ (by decide)

theorem leafPath_pageIndex (virt : Nat) :
    leafPath (pageIndex virt) = [lvlIndex 21 virt, lvlIndex 30 virt, lvlIndex 39 virt] ∧
      pageIndex virt % 512 = lvlIndex 12 virt := by
  simp only [leafPath, lvlIndex_eq, pageIndex, List.cons.injEq, and_true]
  omega

theorem entryPath_pageIndex (virt : Nat) : entryPath (pageIndex virt) =
    [lvlIndex 12 virt, lvlIndex 21 virt, lvlIndex 30 virt, lvlIndex 39 virt] := by
  obtain ⟨indices, last⟩ := leafPath_pageIndex virt
  rw [entryPath, indices, last]

theorem pageIndex_lt (virt : Nat) : pageIndex virt < 2 ^ 36 := Nat.mod_lt _ (by decide)

theorem mapped_of_linked {mem₁ mem₂ mem₃ mem₄ mem : Mem} {page entry a b c l : Nat}
    {free₁ free₂ : List Nat} (full : entryPath page = [l, a, b, c])
    (ok : EntryOk limit [l, a, b, c])
    (first : TableLinked offset root limit free flags [c] mem mem₁)
    (second : TableLinked offset root limit free₁ flags [b, c] mem₁ mem₂)
    (third : TableLinked offset root limit free₂ flags [a, b, c] mem₂ mem₃)
    (written : ∀ other, EntryOk limit other → entryAt offset mem₄ root other =
      if other = [l, a, b, c] then entry else entryAt offset mem₃ root other)
    (subset₁ : free₁ ⊆ free) (subset₂ : free₂ ⊆ free) :
    Mapped offset root limit free flags page entry mem mem₄ := by
  have path : leafPath page = [a, b, c] := (List.cons.inj full).2
  have okA : EntryOk limit [a, b, c] := ⟨ok.2.head, ok.2.tail⟩
  have okB : EntryOk limit [b, c] := ⟨okA.2.head, okA.2.tail⟩
  have okC : EntryOk limit [c] := ⟨okB.2.head, okB.2.tail⟩
  have unwritten : ∀ other, EntryOk limit other → other.length ≠ 4 →
      entryAt offset mem₄ root other = entryAt offset mem₃ root other := by
    intro other okOther length
    rw [written other okOther, if_neg]
    rintro rfl
    exact length rfl
  constructor
  · rw [full, written _ ok, if_pos rfl]
  · intro other nonempty suffix
    rw [path] at suffix
    rcases List.suffix_cons_iff.mp suffix with rfl | suffix
    · have before := (second.others _ okA (by simp)).trans (first.others _ okA (by simp))
      rw [unwritten _ okA (by simp), ← before]
      exact ⟨third.present, third.filled.mono subset₂⟩
    rcases List.suffix_cons_iff.mp suffix with rfl | suffix
    · have before := first.others _ okB (by simp)
      rw [unwritten _ okB (by simp), third.others _ okB (by simp), ← before]
      exact ⟨second.present, second.filled.mono subset₁⟩
    rcases List.suffix_cons_iff.mp suffix with rfl | suffix
    · rw [unwritten _ okC (by simp), third.others _ okC (by simp), second.others _ okC (by simp)]
      exact ⟨first.present, first.filled⟩
    · exact absurd (List.suffix_nil.mp suffix) nonempty
  · intro other okOther away
    rw [full] at away
    have ne : ∀ {suffix : List Nat}, suffix <:+ [l, a, b, c] → other ≠ suffix := by
      rintro suffix holds rfl
      exact away holds
    calc entryAt offset mem₄ root other
        = entryAt offset mem₃ root other := by
          rw [written other okOther, if_neg (ne List.suffix_rfl)]
      _ = entryAt offset mem₂ root other := third.others other okOther (ne ⟨[l], rfl⟩)
      _ = entryAt offset mem₁ root other := second.others other okOther (ne ⟨[l, a], rfl⟩)
      _ = entryAt offset mem root other := first.others other okOther (ne ⟨[l, a, b], rfl⟩)

theorem DirectPage.phys_page {p : Nat} (direct : DirectPage offset p) :
    sub64 p offset = p - offset ∧ 0 < p - offset ∧ add64 (p - offset) offset = p := by
  obtain ⟨-, above, -, -, below⟩ := direct
  refine ⟨sub64_of_le above.le (by omega), by omega, ?_⟩
  rw [add64_of_lt (by omega)]
  omega

theorem DirectPage.pointee {p : Nat} (direct : DirectPage offset p) (bits : FlagBits flags) :
    Paging.pointee offset ((p - offset) ||| flags) = p := by
  rw [pointee_or bits direct.mask, Nat.div_mul_cancel direct.phys, direct.phys_page.2.2]

theorem linkPage_outside {page : Nat} (alignedT : Aligned t) (bound : i < 512) {q : Nat}
    (alignedPage : Aligned page) (aligned : Aligned q) (notTable : q ≠ t) (notPage : q ≠ page) :
    SamePage k.mem (linkPage offset t i flags page k).mem q :=
  (samePage_zeroPage alignedPage aligned notPage.symm).trans
    (samePage_store _ alignedT aligned notTable.symm (slot_inPage bound))

namespace TableTree

theorem direct_table (inv : TableTree offset root limit k free tables)
    (member : (path, t) ∈ tables) : DirectPage offset t :=
  inv.direct t (Or.inr (tablePage_mem member))

theorem take (inv : TableTree offset root limit k (t :: free) tables) :
    pmmAllocSinglep offset k = .ok (t - offset, { k with head := k.mem t }) := by
  obtain ⟨head, nonzero, -⟩ := inv.list
  rw [pmmAllocSinglep, head, if_pos nonzero, (inv.direct t (Or.inl List.mem_cons_self)).phys_page.1]

theorem take_none (inv : TableTree offset root limit k [] tables) :
    pmmAllocSinglep offset k = .error .outOfMemory := by
  have null : k.head = 0 := inv.list
  rw [pmmAllocSinglep, null]
  rfl

theorem clear (inv : TableTree offset root limit k (t :: free) tables) :
    Tree offset (zeroPage k.mem t) root limit tables ∧
      ∀ path, EntryOk limit path →
        entryAt offset (zeroPage k.mem t) root path = entryAt offset k.mem root path := by
  have same : ∀ x ∈ tables, SamePage k.mem (zeroPage k.mem t) x.2 := by
    intro x member
    have inTables : x.2 ∈ tablePages tables := List.mem_map_of_mem member
    have free := inv.direct t (Or.inl List.mem_cons_self)
    apply samePage_zeroPage free.aligned (inv.direct x.2 (Or.inr inTables)).aligned
    intro same
    exact inv.apart t List.mem_cons_self (same ▸ inTables)
  exact ⟨inv.tree.frame same, fun path => inv.tree.entryAt_frame same⟩

theorem link {page : Nat} (inv : TableTree offset root limit k (page :: free) tables)
    (bits : FlagBits flags) (member : (path, t) ∈ tables) (ok : PathOk limit (i :: path))
    (missing : ¬ Present (k.mem (slot t i))) :
    TableTree offset root limit (linkPage offset t i flags page k) free
        ((i :: path, page) :: tables) ∧
      TableLinked offset root limit (page :: free) flags (i :: path) k.mem
        (linkPage offset t i flags page k).mem := by
  have bound := ok.head
  have directT := inv.direct_table member
  have directPage := inv.direct page (Or.inl List.mem_cons_self)
  have notTable := inv.apart page List.mem_cons_self
  obtain ⟨fresh, distinct⟩ := List.nodup_cons.mp inv.distinct
  obtain ⟨-, -, list⟩ := inv.list
  have different : t ≠ page := by
    rintro rfl
    exact notTable (tablePage_mem member)
  obtain ⟨cleared, entries⟩ := inv.clear
  have kept : zeroPage k.mem page (slot t i) = k.mem (slot t i) :=
    samePage_zeroPage directPage.aligned directT.aligned different.symm _ (slot_inPage bound)
  have absent : ¬ Present (zeroPage k.mem page (slot t i)) := by
    rw [kept]
    exact missing
  have empty : ∀ j < 512, zeroPage k.mem page (slot page j) = 0 :=
    fun j small => zeroPage_inside (slot_inPage small)
  have entryPresent := present_or bits (page - offset)
  have tree := cleared.addTable member ok absent empty directPage.aligned notTable entryPresent
    (directPage.pointee bits)
  have linked := fun other (okOther : EntryOk limit other) =>
    cleared.entryAt_addTable member ok absent empty directPage.aligned notTable entryPresent
      (directPage.pointee bits) okOther
  have value := linked (i :: path) ⟨bound, ok.tail⟩
  rw [if_pos rfl] at value
  refine ⟨⟨tree, ?_, distinct, ?_, ?_⟩, ?_, ?_, ?_⟩
  · apply list.frame
    intro node inFree
    have directNode := inv.direct node (Or.inl (List.mem_cons_of_mem _ inFree))
    have nodeNotTable : node ≠ t := by
      rintro rfl
      exact inv.apart node (List.mem_cons_of_mem _ inFree) (tablePage_mem member)
    have nodeNotPage : node ≠ page := by
      rintro rfl
      exact fresh inFree
    exact linkPage_outside directT.aligned bound directPage.aligned directNode.aligned nodeNotTable
      nodeNotPage _ (by unfold InPage; omega)
  · intro p owned
    apply inv.direct
    rcases owned with inFree | inTables
    · exact Or.inl (List.mem_cons_of_mem _ inFree)
    · rcases List.mem_cons.mp inTables with rfl | old
      · exact Or.inl List.mem_cons_self
      · exact Or.inr old
  · intro p inFree inTables
    rcases List.mem_cons.mp inTables with rfl | old
    · exact fresh inFree
    · exact inv.apart p (List.mem_cons_of_mem _ inFree) old
  · rw [linkPage, value]
    exact entryPresent
  · rw [linkPage, value, inv.tree.entryAt_of_mem member]
    exact Or.inr ⟨missing, page, List.mem_cons_self, rfl⟩
  · intro other okOther away
    rw [linkPage, linked other okOther, if_neg away]
    exact entries other okOther

/-- `get_next_table` follows a present entry and links a free page in where there is none. -/
theorem getNextTable_cases (inv : TableTree offset root limit k free tables)
    (bits : FlagBits flags) (member : (path, t) ∈ tables) (ok : PathOk limit (i :: path)) :
    (Present (k.mem (slot t i)) ∧
        getNextTable offset t i flags k = .ok (k.mem (slot t i) &&& tableMask, k) ∧
        (i :: path, add64 (k.mem (slot t i) &&& tableMask) offset) ∈ tables) ∨
      (¬ Present (k.mem (slot t i)) ∧ free = [] ∧
        getNextTable offset t i flags k = .error .outOfMemory) ∨
      ∃ page rest, ¬ Present (k.mem (slot t i)) ∧ free = page :: rest ∧
        getNextTable offset t i flags k = .ok (page - offset, linkPage offset t i flags page k) ∧
        add64 (page - offset) offset = page := by
  by_cases present : Present (k.mem (slot t i))
  · have set : ¬ k.mem (slot t i) &&& 1 = 0 := by
      rw [show k.mem (slot t i) &&& 1 = 1 from present]
      decide
    exact Or.inl ⟨present, by rw [getNextTable, if_neg set],
      inv.tree.down path t i member ok present⟩
  have clear : k.mem (slot t i) &&& 1 = 0 := by
    unfold Present at present
    rw [Nat.and_one_is_mod] at present ⊢
    omega
  cases free with
  | nil =>
      refine Or.inr (Or.inl ⟨present, rfl, ?_⟩)
      rw [getNextTable, if_pos clear, inv.take_none]
      rfl
  | cons page rest =>
      have direct := inv.direct page (Or.inl List.mem_cons_self)
      obtain ⟨-, -, back⟩ := direct.phys_page
      refine Or.inr (Or.inr ⟨page, rest, present, rfl, ?_, back⟩)
      rw [getNextTable, if_pos clear, inv.take]
      simp only [bind, Except.bind, back, store_same]
      rw [or_and_tableMask bits direct.mask, Nat.div_mul_cancel direct.phys]
      rfl

/-- A step of `map` down the tree. -/
theorem getNextTable_spec (inv : TableTree offset root limit k free tables)
    (bits : FlagBits flags) (member : (path, t) ∈ tables) (ok : PathOk limit (i :: path)) :
    (free = [] ∧ getNextTable offset t i flags k = .error .outOfMemory) ∨
      ∃ phys k' free' tables', getNextTable offset t i flags k = .ok (phys, k') ∧
        TableTree offset root limit k' free' tables' ∧ (i :: path, add64 phys offset) ∈ tables' ∧
        TableLinked offset root limit free flags (i :: path) k.mem k'.mem ∧
        Taken 1 free free' ∧ Grown free tables tables' k.mem k'.mem := by
  rcases inv.getNextTable_cases bits member ok with
    ⟨present, ran, child⟩ | ⟨-, none, stopped⟩ | ⟨page, rest, missing, rfl, ran, back⟩
  · have linked : TableLinked offset root limit free flags (i :: path) k.mem k.mem :=
      ⟨by rw [inv.tree.entryAt_of_mem member]; exact present, Filled.refl _ _ _ _,
        fun _ _ _ => rfl⟩
    exact Or.inr ⟨_, k, free, tables, ran, inv, child, linked, Taken.none 1 free,
      Grown.refl free tables k.mem⟩
  · exact Or.inl ⟨none, stopped⟩
  · obtain ⟨grown, linked⟩ := inv.link bits member ok missing
    refine Or.inr ⟨_, _, rest, _, ran, grown, ?_, linked, Taken.one 0 page rest, ?_, ?_⟩
    · rw [back]
      exact List.mem_cons_self
    · intro q inTables
      rcases List.mem_cons.mp inTables with rfl | old
      · exact Or.inl List.mem_cons_self
      · exact Or.inr old
    · intro q aligned notFree notTable
      apply linkPage_outside (inv.direct_table member).aligned ok.head
        (inv.direct page (Or.inl List.mem_cons_self)).aligned aligned
      · rintro rfl
        exact notTable (tablePage_mem member)
      · rintro rfl
        exact notFree List.mem_cons_self

theorem writeLeaf (inv : TableTree offset root limit k free tables) (member : (path, t) ∈ tables)
    (deep : path.length = 3) (bound : i < 512) (entry : Nat) :
    TableTree offset root limit { k with mem := store k.mem (slot t i) entry } free tables := by
  refine ⟨inv.tree.storeLeaf member deep bound entry, ?_, inv.distinct, inv.direct, inv.apart⟩
  apply inv.list.frame
  intro node inFree
  have different : t ≠ node := by
    rintro rfl
    exact inv.apart t inFree (tablePage_mem member)
  exact samePage_store entry (inv.direct_table member).aligned
    (inv.direct node (Or.inl inFree)).aligned different (slot_inPage bound) _
    (by unfold InPage; omega)

theorem map_spec (inv : TableTree offset root limit k free tables) (bits : FlagBits flags)
    (virt phys : Nat) (under : Under limit (pageIndex virt)) :
    (free.length < 3 ∧ map offset root virt phys flags k = .error .outOfMemory) ∨
      ∃ k' free' tables', map offset root virt phys flags k = .ok k' ∧
        TableTree offset root limit k' free' tables' ∧
        Mapped offset root limit free flags (pageIndex virt) (phys ||| flags) k.mem k'.mem ∧
        Taken 3 free free' ∧ Grown free tables tables' k.mem k'.mem := by
  have ok := entryPath_ok under
  rw [entryPath_pageIndex] at ok
  have ok₁ := ok.2
  have ok₂ := ok₁.tail
  have ok₃ := ok₂.tail
  rcases inv.getNextTable_spec bits inv.tree.root ok₃ with
    ⟨rfl, stopped⟩ | ⟨p₃, k₁, free₁, tables₁, ran₁, inv₁, in₁, link₁, taken₁, grown₁⟩
  · refine Or.inl ⟨by decide, ?_⟩
    rw [map, stopped, error_bind]
  have few₁ := taken₁.few
  rcases inv₁.getNextTable_spec bits in₁ ok₂ with
    ⟨rfl, stopped⟩ | ⟨p₂, k₂, free₂, tables₂, ran₂, inv₂, in₂, link₂, taken₂, grown₂⟩
  · rw [List.length_nil] at few₁
    refine Or.inl ⟨by omega, ?_⟩
    rw [map, ran₁, ok_bind]
    dsimp only
    rw [stopped, error_bind]
  have few₂ := taken₂.few
  rcases inv₂.getNextTable_spec bits in₂ ok₁ with
    ⟨rfl, stopped⟩ | ⟨p₁, k₃, free₃, tables₃, ran₃, inv₃, in₃, link₃, taken₃, grown₃⟩
  · rw [List.length_nil] at few₂
    refine Or.inl ⟨by omega, ?_⟩
    rw [map, ran₁, ok_bind]
    dsimp only
    rw [ran₂, ok_bind]
    dsimp only
    rw [stopped, error_bind]
  have bound := lvlIndex_lt 12 virt
  have written := fun other (okOther : EntryOk limit other) =>
    inv₃.tree.entryAt_storeLeaf in₃ rfl bound (phys ||| flags) okOther
  have grown := (grown₁.trans grown₂ taken₁.suffix.subset).trans grown₃
    (taken₁.trans taken₂).suffix.subset
  refine Or.inr ⟨_, free₃, tables₃, ?_, inv₃.writeLeaf in₃ rfl bound (phys ||| flags), ?_,
    (taken₁.trans taken₂).trans taken₃, grown.source, ?_⟩
  · rw [map, ran₁, ok_bind]
    dsimp only
    rw [ran₂, ok_bind]
    dsimp only
    rw [ran₃, ok_bind]
  · exact mapped_of_linked (entryPath_pageIndex virt) ok link₁ link₂ link₃ written
      taken₁.suffix.subset (taken₁.trans taken₂).suffix.subset
  · intro q aligned notFree notTable
    apply (grown.frame q aligned notFree notTable).trans
    apply samePage_store _ (inv₃.direct_table in₃).aligned aligned _ (slot_inPage bound)
    rintro rfl
    exact (grown.source _ (tablePage_mem in₃)).elim notFree notTable

theorem takeCleared (inv : TableTree offset root limit k (t :: free) tables) :
    TableTree offset root limit { k with head := k.mem t, mem := zeroPage k.mem t } free tables := by
  obtain ⟨tree, -⟩ := inv.clear
  obtain ⟨-, -, list⟩ := inv.list
  obtain ⟨fresh, distinct⟩ := List.nodup_cons.mp inv.distinct
  have aligned : ∀ q ∈ t :: free, Aligned q := fun q member => (inv.direct q (Or.inl member)).aligned
  refine ⟨tree, ?_, distinct, ?_, ?_⟩
  · apply list.frame
    intro node inFree
    have different : t ≠ node := by
      rintro rfl
      exact fresh inFree
    exact samePage_zeroPage (aligned t List.mem_cons_self)
      (aligned node (List.mem_cons_of_mem t inFree)) different _ (by unfold InPage; omega)
  · exact fun p owned => inv.direct p (owned.imp_left (List.mem_cons_of_mem t))
  · exact fun p inFree => inv.apart p (List.mem_cons_of_mem t inFree)

theorem mapFreshPage_frame (inv : TableTree offset root limit k free tables) (bits : FlagBits flags)
    {virt : Nat} (under : Under limit (pageIndex virt)) {k' : Kernel}
    (ran : mapFreshPage offset root virt flags k = .ok k') {q : Nat} (aligned : Aligned q)
    (notFree : q ∉ free) (notTable : q ∉ tablePages tables) : SamePage k.mem k'.mem q := by
  cases free with
  | nil =>
      rw [mapFreshPage, inv.take_none] at ran
      cases ran
  | cons page rest =>
      have direct := inv.direct page (Or.inl List.mem_cons_self)
      obtain ⟨-, -, back⟩ := direct.phys_page
      rw [mapFreshPage, inv.take, ok_bind] at ran
      dsimp only at ran
      rw [back] at ran
      have different : page ≠ q := by
        rintro rfl
        exact notFree List.mem_cons_self
      have cleared : SamePage k.mem (zeroPage k.mem page) q :=
        samePage_zeroPage direct.aligned aligned different
      rcases inv.takeCleared.map_spec bits virt (page - offset) under with
        ⟨-, stopped⟩ | ⟨k'', free', tables', ran', -, -, -, grown⟩
      · rw [stopped] at ran
        cases ran
      · obtain rfl := Except.ok.inj (ran'.symm.trans ran)
        have notRest : q ∉ rest := fun member => notFree (List.mem_cons_of_mem page member)
        exact cleared.trans (grown.frame q aligned notRest notTable)

/-- A step down in `unmap` and `virt_to_phys`. -/
theorem getNextTableUnmap_spec (inv : TableTree offset root limit k free tables)
    (member : (path, t) ∈ tables) (ok : PathOk limit (i :: path)) :
    (getNextTableUnmap k.mem t i = 0 ∧ ∀ c, (i :: path, c) ∉ tables) ∨
      (getNextTableUnmap k.mem t i ≠ 0 ∧
        (i :: path, add64 (getNextTableUnmap k.mem t i) offset) ∈ tables) := by
  have above := (inv.direct_table member).above
  have nonzero : t ≠ 0 := by omega
  by_cases present : Present (k.mem (slot t i))
  · have step : getNextTableUnmap k.mem t i = k.mem (slot t i) &&& tableMask := by
      rw [getNextTableUnmap, if_pos nonzero]
      exact if_pos present
    have child := inv.tree.down path t i member ok present
    rw [step]
    refine Or.inr ⟨?_, child⟩
    intro null
    have above := (inv.direct_table child).above
    rw [pointee, null] at above
    unfold add64 at above
    omega
  · have step : getNextTableUnmap k.mem t i = 0 := by
      rw [getNextTableUnmap, if_pos nonzero]
      exact if_neg present
    exact Or.inl ⟨step, inv.tree.absent member present⟩

/-- The walk of `unmap` ends at the table that holds the entry, if there is one. -/
theorem lastTable_spec (inv : TableTree offset root limit k free tables) (virt : Nat)
    (under : Under limit (pageIndex virt)) :
    (lastTable offset k.mem root virt = 0 ∧
        ∀ c, (leafPath (pageIndex virt), c) ∉ tables) ∨
      (lastTable offset k.mem root virt ≠ 0 ∧
        (leafPath (pageIndex virt), add64 (lastTable offset k.mem root virt) offset) ∈
          tables) := by
  have ok₁ := leafPath_ok under
  rw [(leafPath_pageIndex virt).1] at ok₁ ⊢
  have ok₂ := ok₁.tail
  rcases inv.getNextTableUnmap_spec inv.tree.root ok₂.tail with ⟨null, none⟩ | ⟨found₃, in₃⟩
  · refine Or.inl ⟨by rw [lastTable, if_pos null], ?_⟩
    intro c inTables
    obtain ⟨t₂, parent₂, -⟩ := inv.tree.up _ _ _ inTables
    obtain ⟨t₃, parent₃, -⟩ := inv.tree.up _ _ _ parent₂
    exact none t₃ parent₃
  rcases inv.getNextTableUnmap_spec in₃ ok₂ with ⟨null, none⟩ | ⟨found₂, in₂⟩
  · refine Or.inl ⟨by rw [lastTable, if_neg found₃, if_pos null], ?_⟩
    intro c inTables
    obtain ⟨t₂, parent₂, -⟩ := inv.tree.up _ _ _ inTables
    exact none t₂ parent₂
  rw [lastTable, if_neg found₃, if_neg found₂]
  exact inv.getNextTableUnmap_spec in₂ ok₁

/-- `virt_to_phys` reads the entry of the page. -/
theorem virtToPhys_spec (inv : TableTree offset root limit k free tables) (virt : Nat)
    (under : Under limit (pageIndex virt)) :
    virtToPhys offset k.mem root virt =
      getPhysFromEntry (leafEntry offset k.mem root (pageIndex virt)) := by
  rcases inv.lastTable_spec virt under with ⟨null, none⟩ | ⟨found, member⟩
  · rw [virtToPhys, null, inv.tree.leafEntry_of_not_mem under none]
    rfl
  · have read := inv.tree.leafEntry_of_mem member
    rw [(leafPath_pageIndex virt).2] at read
    rw [virtToPhys, if_pos found, read]

theorem unmap_spec (inv : TableTree offset root limit k free tables) (virt : Nat)
    (under : Under limit (pageIndex virt)) :
    ∃ mem', unmap offset root virt k =
        (leafEntry offset k.mem root (pageIndex virt), { k with mem := mem' }) ∧
      TableTree offset root limit { k with mem := mem' } free tables ∧
      (∀ path, EntryOk limit path → entryAt offset mem' root path =
        if path = entryPath (pageIndex virt) then 0 else entryAt offset k.mem root path) ∧
      ∀ q, Aligned q → q ∉ tablePages tables → SamePage k.mem mem' q := by
  have last := (leafPath_pageIndex virt).2
  rcases inv.lastTable_spec virt under with ⟨null, none⟩ | ⟨found, member⟩
  · have zero : leafEntry offset k.mem root (pageIndex virt) = 0 :=
      inv.tree.leafEntry_of_not_mem under none
    refine ⟨k.mem, ?_, inv, ?_, fun q _ _ => SamePage.refl k.mem q⟩
    · rw [unmap, null, zero]
      rfl
    · intro path _
      by_cases same : path = entryPath (pageIndex virt)
      · rw [if_pos same, same]
        exact zero
      · rw [if_neg same]
  · have read := inv.tree.leafEntry_of_mem member
    rw [last] at read
    have bound := lvlIndex_lt 12 virt
    have written := fun path (ok : EntryOk limit path) =>
      inv.tree.entryAt_storeLeaf member rfl bound 0 ok
    have step : unmap offset root virt k = (leafEntry offset k.mem root (pageIndex virt),
        { k with mem := store k.mem (slot (add64 (lastTable offset k.mem root virt)
          offset) (lvlIndex 12 virt)) 0 }) := by
      rw [unmap, if_pos found, read]
    refine ⟨_, step, inv.writeLeaf member rfl bound 0, ?_, ?_⟩
    · intro path ok
      rw [entryPath, last]
      exact written path ok
    · intro q aligned notTable
      apply samePage_store 0 (inv.direct_table member).aligned aligned _ (slot_inPage bound)
      rintro rfl
      exact notTable (tablePage_mem member)

end TableTree

end

end Nyaux.Mm
