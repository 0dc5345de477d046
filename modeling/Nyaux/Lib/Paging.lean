import Nyaux.Lib.Memory
import Nyaux.Lib.Word

/-! Four-level page tables, as the processor reads them.

Tables are named by their addresses in a direct map that starts at `offset`; the path of a
table lists the indices that lead to it from the root, the last one first. Virtual pages
are numbered by the 36 bits the four indices are taken from. `limit` bounds the indices of
the root that are looked at: 512 for all of it, 256 for the lower half. -/

namespace Nyaux.Paging

open Word Memory

def tableMask : Nat := 0x000FFFFFFFFFF000

def slot (table index : Nat) : Nat := table + index * 8

def Present (entry : Nat) : Prop := entry &&& 1 = 1

instance (entry : Nat) : Decidable (Present entry) := inferInstanceAs (Decidable (_ = _))

def pointee (offset entry : Nat) : Nat := add64 (entry &&& tableMask) offset

def tableAt (offset : Nat) (mem : Mem) (root : Nat) : List Nat → Option Nat
  | [] => some root
  | i :: path =>
      (tableAt offset mem root path).bind fun t =>
        if Present (mem (slot t i)) then some (pointee offset (mem (slot t i))) else none

def leafPath (page : Nat) : List Nat :=
  [page / 2 ^ 9 % 512, page / 2 ^ 18 % 512, page / 2 ^ 27 % 512]

/-- The entry of a virtual page; 0 where a table is missing. -/
def leafEntry (offset : Nat) (mem : Mem) (root page : Nat) : Nat :=
  match tableAt offset mem root (leafPath page) with
  | some t => mem (slot t (page % 512))
  | none => 0

def entryAt (offset : Nat) (mem : Mem) (root : Nat) : List Nat → Nat
  | [] => 0
  | i :: path =>
      match tableAt offset mem root path with
      | some t => mem (slot t i)
      | none => 0

def entryPath (page : Nat) : List Nat := page % 512 :: leafPath page

def Under (limit page : Nat) : Prop := page / 2 ^ 27 % 512 < limit

structure PathOk (limit : Nat) (path : List Nat) : Prop where
  length : path.length ≤ 3
  bounds : ∀ i ∈ path, i < 512
  first : ∀ i, path.getLast? = some i → i < limit

structure Tree (offset : Nat) (mem : Mem) (root limit : Nat) (tables : List (List Nat × Nat)) :
    Prop where
  root : ([], root) ∈ tables
  paths : (tables.map Prod.fst).Nodup
  pages : (tables.map Prod.snd).Nodup
  aligned : ∀ t ∈ tables, Aligned t.2
  shape : ∀ t ∈ tables, PathOk limit t.1
  down : ∀ path t i, (path, t) ∈ tables → PathOk limit (i :: path) → Present (mem (slot t i)) →
    (i :: path, pointee offset (mem (slot t i))) ∈ tables
  up : ∀ i path c, (i :: path, c) ∈ tables →
    ∃ t, (path, t) ∈ tables ∧ Present (mem (slot t i)) ∧ pointee offset (mem (slot t i)) = c

def EntryOk (limit : Nat) : List Nat → Prop
  | [] => False
  | i :: path => i < 512 ∧ PathOk limit path

/-- Flag bits that mark an entry present and leave the page address alone. -/
structure FlagBits (flags : Nat) : Prop where
  present : Present flags
  apart : flags &&& tableMask = 0

theorem present_or {flags : Nat} (bits : FlagBits flags) (phys : Nat) : Present (phys ||| flags) := by
  have set := bits.present
  unfold Present at *
  rw [Nat.and_or_distrib_right, set, Nat.and_one_is_mod]
  rcases Nat.mod_two_eq_zero_or_one phys with low | low <;> rw [low] <;> rfl

theorem or_and_tableMask {phys flags : Nat} (bits : FlagBits flags) (bound : phys < 2 ^ 52) :
    (phys ||| flags) &&& tableMask = phys / 4096 * 4096 := by
  have mask : tableMask = 2 ^ 52 - 2 ^ 12 := by decide
  rw [Nat.and_or_distrib_right, bits.apart, Nat.or_zero, mask]
  exact and_high phys 12 52 (by decide) bound

theorem pointee_or {offset phys flags : Nat} (bits : FlagBits flags) (bound : phys < 2 ^ 52) :
    pointee offset (phys ||| flags) = add64 (phys / 4096 * 4096) offset := by
  rw [pointee, or_and_tableMask bits bound]

theorem slot_inPage {table index : Nat} (bound : index < 512) : InPage table (slot table index) := by
  unfold InPage slot
  omega

theorem slot_injective {table i j : Nat} (same : slot table i = slot table j) : i = j := by
  unfold slot at same
  omega

theorem under_all (page : Nat) : Under 512 page := Nat.mod_lt _ (by decide)

theorem under_user {page : Nat} (bound : page < 2 ^ 35) : Under 256 page := by
  unfold Under
  omega

theorem leafPath_ok {limit page : Nat} (under : Under limit page) :
    PathOk limit (leafPath page) := by
  refine ⟨le_refl 3, ?_, ?_⟩
  · intro i member
    simp only [leafPath, List.mem_cons, List.not_mem_nil, or_false] at member
    omega
  · intro i last
    obtain rfl : page / 2 ^ 27 % 512 = i := Option.some.inj last
    exact under

theorem PathOk.tail {limit i : Nat} {path : List Nat} (ok : PathOk limit (i :: path)) :
    PathOk limit path := by
  refine ⟨Nat.le_of_succ_le ok.length, fun j member => ok.bounds j (List.mem_cons_of_mem _ member),
    ?_⟩
  intro j last
  apply ok.first j
  cases path with
  | nil => cases last
  | cons next rest => rwa [List.getLast?_cons_cons]

theorem PathOk.head {limit i : Nat} {path : List Nat} (ok : PathOk limit (i :: path)) : i < 512 :=
  ok.bounds i List.mem_cons_self

theorem PathOk.entryOk {limit : Nat} {path : List Nat} (ok : PathOk limit path)
    (nonempty : path ≠ []) : EntryOk limit path := by
  cases path with
  | nil => exact absurd rfl nonempty
  | cons i path => exact ⟨ok.head, ok.tail⟩

theorem PathOk.ne_entryPath {limit : Nat} {path : List Nat} (ok : PathOk limit path) (page : Nat) :
    path ≠ entryPath page := by
  rintro rfl
  exact absurd ok.length (by simp [entryPath, leafPath])

theorem leafPath_injective {p q : Nat} (left : p < 2 ^ 36) (right : q < 2 ^ 36)
    (path : leafPath p = leafPath q) (last : p % 512 = q % 512) : p = q := by
  simp only [leafPath, List.cons.injEq, and_true] at path
  omega

theorem entryPath_ok {limit page : Nat} (under : Under limit page) : EntryOk limit (entryPath page) :=
  ⟨Nat.mod_lt _ (by decide), leafPath_ok under⟩

theorem leafEntry_eq_entryAt (offset : Nat) (mem : Mem) (root page : Nat) :
    leafEntry offset mem root page = entryAt offset mem root (entryPath page) := rfl

theorem entryPath_injective {p q : Nat} (left : p < 2 ^ 36) (right : q < 2 ^ 36)
    (same : entryPath p = entryPath q) : p = q := by
  obtain ⟨last, path⟩ := List.cons.inj same
  exact leafPath_injective left right path last

theorem leafEntry_of_root_absent {offset root page : Nat} {mem : Mem}
    (absent : ¬ Present (mem (slot root (page / 2 ^ 27 % 512)))) :
    leafEntry offset mem root page = 0 := by
  simp only [leafEntry, leafPath, tableAt, Option.bind_some, if_neg absent, Option.bind_none]

theorem leafEntry_of_root_word {offset root other page : Nat} {mem : Mem}
    (same : mem (slot root (page / 2 ^ 27 % 512)) = mem (slot other (page / 2 ^ 27 % 512))) :
    leafEntry offset mem root page = leafEntry offset mem other page := by
  simp only [leafEntry, leafPath, tableAt, Option.bind_some, same]

theorem leafEntry_self {offset root i : Nat} {mem : Mem} (bound : i < 512)
    (present : Present (mem (slot root i))) (back : pointee offset (mem (slot root i)) = root) :
    leafEntry offset mem root (i * (2 ^ 27 + 2 ^ 18 + 2 ^ 9 + 1)) = mem (slot root i) := by
  have indices : leafPath (i * (2 ^ 27 + 2 ^ 18 + 2 ^ 9 + 1)) = [i, i, i] ∧
      i * (2 ^ 27 + 2 ^ 18 + 2 ^ 9 + 1) % 512 = i := by
    have digits : i * (2 ^ 27 + 2 ^ 18 + 2 ^ 9 + 1) = 512 * (512 * (512 * i + i) + i) + i := by ring
    generalize i * (2 ^ 27 + 2 ^ 18 + 2 ^ 9 + 1) = page at digits ⊢
    have third : page / 2 ^ 9 = 512 * (512 * i + i) + i := by omega
    have second : page / 2 ^ 18 = 512 * i + i := by omega
    have first : page / 2 ^ 27 = i := by omega
    simp only [leafPath, first, second, third, List.cons.injEq, and_true]
    omega
  simp only [leafEntry, indices.1, indices.2, tableAt, Option.bind_some, if_pos present, back]

namespace Tree

variable {offset root limit : Nat} {mem mem' : Mem} {tables : List (List Nat × Nat)}

theorem path_unique (tree : Tree offset mem root limit tables) {path : List Nat} {s t : Nat}
    (left : (path, s) ∈ tables) (right : (path, t) ∈ tables) : s = t :=
  congrArg Prod.snd (List.inj_on_of_nodup_map tree.paths left right rfl)

theorem page_unique (tree : Tree offset mem root limit tables) {p q : List Nat} {t : Nat}
    (left : (p, t) ∈ tables) (right : (q, t) ∈ tables) : p = q :=
  congrArg Prod.fst (List.inj_on_of_nodup_map tree.pages left right rfl)

theorem slot_ne (tree : Tree offset mem root limit tables) {p q : List Nat} {s t i j : Nat}
    (left : (p, s) ∈ tables) (right : (q, t) ∈ tables) (different : p ≠ q) (boundI : i < 512)
    (boundJ : j < 512) : slot s i ≠ slot t j := by
  intro same
  have pages : s ≠ t := by
    rintro rfl
    exact different (tree.page_unique left right)
  apply page_ne (tree.aligned _ left) (tree.aligned _ right) pages (slot_inPage boundI)
  rw [same]
  exact slot_inPage boundJ

theorem tableAt_of_mem (tree : Tree offset mem root limit tables) {path : List Nat} {t : Nat}
    (member : (path, t) ∈ tables) : tableAt offset mem root path = some t := by
  induction path generalizing t with
  | nil =>
      rw [tableAt, tree.path_unique member tree.root]
  | cons i path ih =>
      obtain ⟨parent, inTables, present, rfl⟩ := tree.up i path t member
      rw [tableAt, ih inTables, Option.bind_some, if_pos present]

theorem mem_of_tableAt (tree : Tree offset mem root limit tables) {path : List Nat} {t : Nat}
    (ok : PathOk limit path) (found : tableAt offset mem root path = some t) :
    (path, t) ∈ tables := by
  induction path generalizing t with
  | nil =>
      obtain rfl : root = t := Option.some.inj found
      exact tree.root
  | cons i path ih =>
      obtain ⟨parent, reached, step⟩ := Option.bind_eq_some_iff.mp found
      by_cases present : Present (mem (slot parent i))
      · rw [if_pos present] at step
        obtain rfl := Option.some.inj step
        exact tree.down path parent i (ih ok.tail reached) ok present
      · rw [if_neg present] at step
        cases step

theorem entryAt_of_mem (tree : Tree offset mem root limit tables) {path : List Nat} {t : Nat}
    (member : (path, t) ∈ tables) (i : Nat) :
    entryAt offset mem root (i :: path) = mem (slot t i) := by
  rw [entryAt, tree.tableAt_of_mem member]

theorem entryAt_of_not_mem (tree : Tree offset mem root limit tables) {path : List Nat}
    (ok : PathOk limit path) (missing : ∀ t, (path, t) ∉ tables) (i : Nat) :
    entryAt offset mem root (i :: path) = 0 := by
  cases found : tableAt offset mem root path with
  | none => rw [entryAt, found]
  | some t => exact absurd (tree.mem_of_tableAt ok found) (missing t)

theorem leafEntry_of_mem (tree : Tree offset mem root limit tables) {page t : Nat}
    (member : (leafPath page, t) ∈ tables) :
    leafEntry offset mem root page = mem (slot t (page % 512)) :=
  tree.entryAt_of_mem member _

theorem leafEntry_of_not_mem (tree : Tree offset mem root limit tables) {page : Nat}
    (under : Under limit page) (missing : ∀ t, (leafPath page, t) ∉ tables) :
    leafEntry offset mem root page = 0 :=
  tree.entryAt_of_not_mem (leafPath_ok under) missing _

theorem frame (tree : Tree offset mem root limit tables)
    (same : ∀ t ∈ tables, SamePage mem mem' t.2) : Tree offset mem' root limit tables := by
  have slots : ∀ path t i, (path, t) ∈ tables → i < 512 → mem' (slot t i) = mem (slot t i) :=
    fun path t i member bound => same (path, t) member _ (slot_inPage bound)
  refine ⟨tree.root, tree.paths, tree.pages, tree.aligned, tree.shape, ?_, ?_⟩
  · intro path t i member ok present
    rw [slots path t i member ok.head] at present ⊢
    exact tree.down path t i member ok present
  · intro i path c member
    obtain ⟨t, parent, present, entry⟩ := tree.up i path c member
    have bound := (tree.shape _ member).head
    refine ⟨t, parent, ?_, ?_⟩
    · rw [slots path t i parent bound]
      exact present
    · rw [slots path t i parent bound]
      exact entry

theorem entryAt_congr {mem' : Mem} {tables' : List (List Nat × Nat)}
    (tree : Tree offset mem root limit tables) (tree' : Tree offset mem' root limit tables')
    {i : Nat} {path : List Nat} (ok : PathOk limit path)
    (old : ∀ t, (path, t) ∈ tables → (path, t) ∈ tables' ∧ mem' (slot t i) = mem (slot t i))
    (new : ∀ t, (path, t) ∈ tables' → (∀ s, (path, s) ∉ tables) → mem' (slot t i) = 0) :
    entryAt offset mem' root (i :: path) = entryAt offset mem root (i :: path) := by
  by_cases known : ∃ t, (path, t) ∈ tables
  · obtain ⟨t, member⟩ := known
    obtain ⟨member', same⟩ := old t member
    rw [tree.entryAt_of_mem member, tree'.entryAt_of_mem member', same]
  · have missing : ∀ t, (path, t) ∉ tables := fun t member => known ⟨t, member⟩
    rw [tree.entryAt_of_not_mem ok missing]
    by_cases made : ∃ t, (path, t) ∈ tables'
    · obtain ⟨t, member'⟩ := made
      rw [tree'.entryAt_of_mem member']
      exact new t member' missing
    · exact tree'.entryAt_of_not_mem ok (fun t member' => made ⟨t, member'⟩) i

theorem entryAt_frame (tree : Tree offset mem root limit tables)
    (same : ∀ t ∈ tables, SamePage mem mem' t.2) {path : List Nat} (ok : EntryOk limit path) :
    entryAt offset mem' root path = entryAt offset mem root path := by
  cases path with
  | nil => rfl
  | cons i path =>
      apply tree.entryAt_congr (tree.frame same) ok.2
      · exact fun t member => ⟨member, same _ member _ (slot_inPage ok.1)⟩
      · exact fun t member missing => absurd member (missing t)

theorem leafEntry_frame (tree : Tree offset mem root limit tables)
    (same : ∀ t ∈ tables, SamePage mem mem' t.2) {page : Nat} (under : Under limit page) :
    leafEntry offset mem' root page = leafEntry offset mem root page :=
  tree.entryAt_frame same (entryPath_ok under)

section StoreLeaf

variable {path : List Nat} {t i : Nat}

theorem storeLeaf (tree : Tree offset mem root limit tables) (member : (path, t) ∈ tables)
    (deep : path.length = 3) (bound : i < 512) (entry : Nat) :
    Tree offset (store mem (slot t i) entry) root limit tables := by
  have inner : ∀ q s j, (q, s) ∈ tables → PathOk limit (j :: q) →
      store mem (slot t i) entry (slot s j) = mem (slot s j) := by
    intro q s j inTables ok
    apply store_other
    apply tree.slot_ne inTables member _ ok.head bound
    rintro rfl
    have length := ok.length
    rw [List.length_cons] at length
    omega
  refine ⟨tree.root, tree.paths, tree.pages, tree.aligned, tree.shape, ?_, ?_⟩
  · intro q s j inTables ok present
    rw [inner q s j inTables ok] at present ⊢
    exact tree.down q s j inTables ok present
  · intro j q c inTables
    obtain ⟨s, parent, present, value⟩ := tree.up j q c inTables
    have kept := inner q s j parent (tree.shape _ inTables)
    refine ⟨s, parent, ?_, ?_⟩
    · rw [kept]
      exact present
    · rw [kept]
      exact value

theorem entryAt_storeLeaf (tree : Tree offset mem root limit tables) (member : (path, t) ∈ tables)
    (deep : path.length = 3) (bound : i < 512) (entry : Nat) {other : List Nat}
    (ok : EntryOk limit other) :
    entryAt offset (store mem (slot t i) entry) root other =
      if other = i :: path then entry else entryAt offset mem root other := by
  have tree' := tree.storeLeaf member deep bound entry
  by_cases same : other = i :: path
  · rw [if_pos same, same, tree'.entryAt_of_mem member, store_same]
  · rw [if_neg same]
    cases other with
    | nil => rfl
    | cons j q =>
        apply tree.entryAt_congr tree' ok.2
        · intro s inTables
          refine ⟨inTables, store_other _ _ _ _ ?_⟩
          by_cases here : q = path
          · subst here
            obtain rfl := tree.path_unique inTables member
            intro slots
            exact same (by rw [slot_injective slots])
          · exact tree.slot_ne inTables member here ok.1 bound
        · exact fun s inTables missing => absurd inTables (missing s)

end StoreLeaf

section AddTable

variable {path : List Nat} {t i c entry : Nat}

theorem absent (tree : Tree offset mem root limit tables) (member : (path, t) ∈ tables)
    (missing : ¬ Present (mem (slot t i))) (c : Nat) : (i :: path, c) ∉ tables := by
  intro inTables
  obtain ⟨s, parent, present, -⟩ := tree.up i path c inTables
  rw [tree.path_unique parent member] at present
  exact missing present

theorem addTable (tree : Tree offset mem root limit tables) (member : (path, t) ∈ tables)
    (ok : PathOk limit (i :: path)) (missing : ¬ Present (mem (slot t i)))
    (empty : ∀ j < 512, mem (slot c j) = 0) (aligned : Aligned c)
    (fresh : c ∉ tables.map Prod.snd) (present : Present entry) (entry_eq : pointee offset entry = c) :
    Tree offset (store mem (slot t i) entry) root limit ((i :: path, c) :: tables) := by
  have absent := tree.absent member missing
  have bound := ok.head
  have apart : t ≠ c := by
    rintro rfl
    exact fresh (List.mem_map_of_mem member)
  have inNew : ∀ j < 512, store mem (slot t i) entry (slot c j) = 0 := by
    intro j small
    rw [store_other]
    · exact empty j small
    · intro same
      apply page_ne aligned (tree.aligned _ member) apart.symm (slot_inPage small)
      rw [same]
      exact slot_inPage bound
  have elsewhere : ∀ q s j, (q, s) ∈ tables → j < 512 → j :: q ≠ i :: path →
      store mem (slot t i) entry (slot s j) = mem (slot s j) := by
    intro q s j inTables small different
    apply store_other
    by_cases same : q = path
    · subst same
      rw [tree.path_unique inTables member]
      intro slots
      exact different (by rw [slot_injective slots])
    · exact tree.slot_ne inTables member same small bound
  refine ⟨List.mem_cons_of_mem _ tree.root, ?_, ?_, ?_, ?_, ?_, ?_⟩
  · rw [List.map_cons, List.nodup_cons]
    refine ⟨?_, tree.paths⟩
    intro listed
    obtain ⟨⟨q, s⟩, inTables, rfl⟩ := List.mem_map.mp listed
    exact absent s inTables
  · rw [List.map_cons, List.nodup_cons]
    exact ⟨fresh, tree.pages⟩
  · exact List.forall_mem_cons.mpr ⟨aligned, tree.aligned⟩
  · exact List.forall_mem_cons.mpr ⟨ok, tree.shape⟩
  · intro q s j inTables okJ isPresent
    rcases List.mem_cons.mp inTables with new | old
    · obtain ⟨rfl, rfl⟩ := Prod.mk.inj new
      rw [inNew j okJ.head] at isPresent
      exact absurd isPresent (by decide)
    · by_cases same : j :: q = i :: path
      · obtain ⟨rfl, rfl⟩ := List.cons.inj same
        obtain rfl := tree.path_unique old member
        rw [store_same, entry_eq]
        exact List.mem_cons_self
      · rw [elsewhere q s j old okJ.head same] at isPresent ⊢
        exact List.mem_cons_of_mem _ (tree.down q s j old okJ isPresent)
  · intro j q d inTables
    rcases List.mem_cons.mp inTables with new | old
    · obtain ⟨same, rfl⟩ := Prod.mk.inj new
      obtain ⟨rfl, rfl⟩ := List.cons.inj same
      refine ⟨t, List.mem_cons_of_mem _ member, ?_, ?_⟩
      · rw [store_same]
        exact present
      · rw [store_same]
        exact entry_eq
    · obtain ⟨s, parent, isPresent, value⟩ := tree.up j q d old
      have small := (tree.shape _ old).head
      have different : j :: q ≠ i :: path := fun same => absent d (same ▸ old)
      have kept := elsewhere q s j parent small different
      refine ⟨s, List.mem_cons_of_mem _ parent, ?_, ?_⟩
      · rw [kept]
        exact isPresent
      · rw [kept]
        exact value

theorem entryAt_addTable (tree : Tree offset mem root limit tables) (member : (path, t) ∈ tables)
    (ok : PathOk limit (i :: path)) (missing : ¬ Present (mem (slot t i)))
    (empty : ∀ j < 512, mem (slot c j) = 0) (aligned : Aligned c)
    (fresh : c ∉ tables.map Prod.snd) (present : Present entry) (entry_eq : pointee offset entry = c)
    {other : List Nat} (okOther : EntryOk limit other) :
    entryAt offset (store mem (slot t i) entry) root other =
      if other = i :: path then entry else entryAt offset mem root other := by
  have tree' := tree.addTable member ok missing empty aligned fresh present entry_eq
  by_cases same : other = i :: path
  · rw [if_pos same, same, tree'.entryAt_of_mem (List.mem_cons_of_mem _ member), store_same]
  · rw [if_neg same]
    cases other with
    | nil => rfl
    | cons j q =>
        apply tree.entryAt_congr tree' okOther.2
        · intro s inTables
          refine ⟨List.mem_cons_of_mem _ inTables, store_other _ _ _ _ ?_⟩
          by_cases here : q = path
          · subst here
            obtain rfl := tree.path_unique inTables member
            intro slots
            exact same (by rw [slot_injective slots])
          · exact tree.slot_ne inTables member here okOther.1 ok.head
        · -- the new table is empty
          intro s inTables absent
          rcases List.mem_cons.mp inTables with here | old
          · obtain ⟨-, rfl⟩ := Prod.mk.inj here
            rw [store_other]
            · exact empty j okOther.1
            · have apart : t ≠ s := by
                rintro rfl
                exact fresh (List.mem_map_of_mem member)
              intro slots
              apply page_ne aligned (tree.aligned _ member) apart.symm (slot_inPage okOther.1)
              rw [slots]
              exact slot_inPage ok.head
          · exact absurd old (absent s)

end AddTable

section Share

variable {q : Nat}

def upper (tables : List (List Nat × Nat)) : List (List Nat × Nat) :=
  tables.filter fun t => t.1.getLast?.any fun i => decide (256 ≤ i)

theorem mem_upper {t : List Nat × Nat} :
    t ∈ upper tables ↔ t ∈ tables ∧ ∃ i, t.1.getLast? = some i ∧ 256 ≤ i := by
  rw [upper, List.mem_filter, Option.any_eq_true]
  simp only [decide_eq_true_eq]

theorem share (tree : Tree offset mem root 512 tables) (aligned : Aligned q)
    (fresh : q ∉ tables.map Prod.snd) (empty : ∀ i < 256, ¬ Present (mem (slot q i)))
    (same : ∀ i, 256 ≤ i → i < 512 → mem (slot q i) = mem (slot root i)) :
    Tree offset mem q 512 (([], q) :: upper tables) := by
  have sublist : (upper tables).Sublist tables := List.filter_sublist
  have headed : ∀ t, ([], t) ∉ upper tables := by
    intro t member
    obtain ⟨-, i, last, -⟩ := mem_upper.mp member
    cases last
  refine ⟨List.mem_cons_self, ?_, ?_, ?_, ?_, ?_, ?_⟩
  · rw [List.map_cons, List.nodup_cons]
    refine ⟨?_, tree.paths.sublist (sublist.map _)⟩
    intro listed
    obtain ⟨⟨path, t⟩, member, rfl⟩ := List.mem_map.mp listed
    exact headed t member
  · rw [List.map_cons, List.nodup_cons]
    exact ⟨fun listed => fresh ((sublist.map Prod.snd).subset listed),
      tree.pages.sublist (sublist.map _)⟩
  · exact List.forall_mem_cons.mpr ⟨aligned, fun t member => tree.aligned t (sublist.subset member)⟩
  · refine List.forall_mem_cons.mpr ⟨⟨by simp, by simp, by simp⟩, ?_⟩
    exact fun t member => tree.shape t (sublist.subset member)
  · intro path t i member ok present
    apply List.mem_cons_of_mem
    rcases List.mem_cons.mp member with here | below
    · obtain ⟨rfl, rfl⟩ := Prod.mk.inj here
      have high : 256 ≤ i := by
        by_contra low
        exact empty i (by omega) present
      rw [same i high ok.head] at present ⊢
      exact mem_upper.mpr ⟨tree.down [] root i tree.root ok present, i, rfl, high⟩
    · obtain ⟨inTables, j, last, high⟩ := mem_upper.mp below
      refine mem_upper.mpr ⟨tree.down path t i inTables ok present, j, ?_, high⟩
      rw [List.getLast?_cons, last]
      rfl
  · intro i path c member
    have below := (List.mem_cons.mp member).resolve_left (by simp)
    obtain ⟨inTables, j, last, high⟩ := mem_upper.mp below
    obtain ⟨t, parent, present, child⟩ := tree.up i path c inTables
    have bound := (tree.shape _ inTables).head
    cases path with
    | nil =>
        obtain rfl : i = j := Option.some.inj last
        obtain rfl := tree.path_unique parent tree.root
        refine ⟨q, List.mem_cons_self, ?_, ?_⟩
        · rw [same i high bound]
          exact present
        · rw [same i high bound]
          exact child
    | cons next rest =>
        rw [List.getLast?_cons_cons] at last
        exact ⟨t, List.mem_cons_of_mem _ (mem_upper.mpr ⟨parent, j, last, high⟩), present, child⟩

theorem single (aligned : Aligned q) (empty : ∀ i < 256, ¬ Present (mem (slot q i))) :
    Tree offset mem q 256 [([], q)] := by
  refine ⟨List.mem_cons_self, by simp, by simp, by simpa using aligned,
    by simpa using ⟨by simp, by simp, by simp⟩, ?_, ?_⟩
  · intro path t i member ok present
    obtain ⟨rfl, rfl⟩ := Prod.mk.inj (List.mem_singleton.mp member)
    exact absurd present (empty i (ok.first i rfl))
  · intro i path c member
    cases (Prod.mk.inj (List.mem_singleton.mp member)).1

end Share

end Tree

/-! What the processor allows at a page. -/

structure Access where
  write : Bool
  user : Bool
  execute : Bool
  deriving DecidableEq

def walk (offset : Nat) (mem : Mem) (root : Nat) : List Nat → List Nat
  | [] => []
  | i :: path => entryAt offset mem root (i :: path) :: walk offset mem root path

/-- A page is writable and open to the user where every entry on the way has the bit, and
executable where none has bit 63. -/
def access (offset : Nat) (mem : Mem) (root page : Nat) : Option Access :=
  let entries := walk offset mem root (entryPath page)
  if ∀ entry ∈ entries, Present entry then
    some ⟨entries.all (Nat.testBit · 1), entries.all (Nat.testBit · 2),
      entries.all fun entry => !entry.testBit 63⟩
  else none

theorem drop_entryPath_iff {p q n : Nat} (left : p < 2 ^ 36) (right : q < 2 ^ 36) (level : n ≤ 3) :
    (entryPath p).drop n = (entryPath q).drop n ↔ p / 2 ^ (9 * n) = q / 2 ^ (9 * n) := by
  unfold entryPath leafPath
  interval_cases n <;> simp <;> omega

theorem mem_walk_entryPath {offset root page entry : Nat} {mem : Mem} :
    entry ∈ walk offset mem root (entryPath page) ↔
      ∃ n ≤ 3, entry = entryAt offset mem root ((entryPath page).drop n) := by
  simp only [entryPath, leafPath, walk, List.mem_cons, List.not_mem_nil, or_false]
  constructor
  · rintro (rfl | rfl | rfl | rfl)
    · exact ⟨0, by decide, rfl⟩
    · exact ⟨1, by decide, rfl⟩
    · exact ⟨2, by decide, rfl⟩
    · exact ⟨3, by decide, rfl⟩
  · rintro ⟨n, level, rfl⟩
    interval_cases n <;> simp

end Nyaux.Paging
