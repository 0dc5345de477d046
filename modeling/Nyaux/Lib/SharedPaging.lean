import Mathlib.Data.List.Flatten
import Mathlib.Data.Multiset.AddSub
import Nyaux.Lib.Paging

/-! Several roots over one stock of page tables. -/

namespace Nyaux.Paging

open Word Memory

def pathsOf : Nat → List (List Nat)
  | 0 => [[]]
  | n + 1 => (pathsOf n).flatMap fun path => (List.range 512).map (· :: path)

def tablePaths : List (List Nat) := (List.range 4).flatMap pathsOf

def reach (offset : Nat) (mem : Mem) (root : Nat) : List (List Nat × Nat) :=
  tablePaths.filterMap fun path => (tableAt offset mem root path).map (path, ·)

structure Shared (offset : Nat) (mem : Mem) (roots : List Nat) (tables : Multiset Nat) : Prop where
  owned : ∀ root ∈ roots, ∀ path t, PathOk 512 path → tableAt offset mem root path = some t →
    t ∈ tables
  label : ∀ r ∈ roots, ∀ s ∈ roots, ∀ p q t, PathOk 512 p → PathOk 512 q →
    tableAt offset mem r p = some t → tableAt offset mem s q = some t → p = q

structure SamePaths (offset : Nat) (roots : List Nat) (mem mem' : Mem) : Prop where
  tables : ∀ s ∈ roots, ∀ path, PathOk 512 path →
    tableAt offset mem' s path = tableAt offset mem s path
  leaf : ∀ s ∈ roots, ∀ page, leafEntry offset mem' s page = leafEntry offset mem s page

/-- The memory after the entry of `page` below `root` was written. Where tables were missing on
the way, pages of `fresh` were linked in. -/
structure Rewrite (offset root page : Nat) (fresh : List Nat) (tables tables' : Multiset Nat)
    (mem mem' : Mem) : Prop where
  inner : ∀ path, path ≠ [] → PathOk 512 path →
    entryAt offset mem' root path = entryAt offset mem root path ∨
      ¬ Present (entryAt offset mem root path) ∧
        pointee offset (entryAt offset mem' root path) ∈ fresh
  leaf : ∀ other < 2 ^ 36, other ≠ page →
    leafEntry offset mem' root other = leafEntry offset mem root other
  frame : ∀ t ∈ tables, (∀ path, PathOk 512 path → tableAt offset mem root path ≠ some t) →
    SamePage mem mem' t
  unique : ∀ p q t, PathOk 512 p → PathOk 512 q → tableAt offset mem' root p = some t →
    tableAt offset mem' root q = some t → p = q
  source : ∀ path t, PathOk 512 path → tableAt offset mem' root path = some t →
    t ∈ tables' ∧ (t ∈ fresh ∨ ∃ q, PathOk 512 q ∧ tableAt offset mem root q = some t)
  grown : ∀ t ∈ tables, t ∈ tables'
  apart : ∀ t ∈ fresh, t ∉ tables

section Reach

variable {offset root n : Nat} {mem mem' : Mem} {path : List Nat} {i t : Nat}

theorem tableAt_cons : tableAt offset mem root (i :: path) = some t ↔
    ∃ s, tableAt offset mem root path = some s ∧ Present (mem (slot s i)) ∧
      pointee offset (mem (slot s i)) = t := by
  rw [tableAt, Option.bind_eq_some_iff]
  constructor
  · rintro ⟨s, reached, step⟩
    by_cases present : Present (mem (slot s i))
    · rw [if_pos present] at step
      exact ⟨s, reached, present, Option.some.inj step⟩
    · rw [if_neg present] at step
      cases step
  · rintro ⟨s, reached, present, rfl⟩
    exact ⟨s, reached, if_pos present⟩

theorem entryAt_of_tableAt (reached : tableAt offset mem root path = some t) (i : Nat) :
    entryAt offset mem root (i :: path) = mem (slot t i) := by
  rw [entryAt, reached]

theorem leafEntry_of_tableAt {page : Nat} (reached : tableAt offset mem root (leafPath page) = some t) :
    leafEntry offset mem root page = mem (slot t (page % 512)) :=
  entryAt_of_tableAt reached _

theorem leafEntry_of_none {page : Nat} (missing : tableAt offset mem root (leafPath page) = none) :
    leafEntry offset mem root page = 0 := by
  rw [leafEntry, missing]

theorem mem_pathsOf : path ∈ pathsOf n ↔ path.length = n ∧ ∀ i ∈ path, i < 512 := by
  induction n generalizing path with
  | zero => simp +contextual [pathsOf, List.length_eq_zero_iff]
  | succ n ih =>
      simp only [pathsOf, List.mem_flatMap, List.mem_map, List.mem_range]
      constructor
      · rintro ⟨rest, member, i, bound, rfl⟩
        obtain ⟨length, small⟩ := ih.mp member
        exact ⟨by rw [List.length_cons, length], List.forall_mem_cons.mpr ⟨bound, small⟩⟩
      · rintro ⟨length, small⟩
        cases path with
        | nil => cases length
        | cons i rest =>
            obtain ⟨bound, others⟩ := List.forall_mem_cons.mp small
            exact ⟨rest, ih.mpr ⟨Nat.succ.inj length, others⟩, i, bound, rfl⟩

theorem pathsOf_nodup (n : Nat) : (pathsOf n).Nodup := by
  induction n with
  | zero => exact List.nodup_singleton []
  | succ n ih =>
      refine List.nodup_flatMap.mpr ⟨?_, ih.imp ?_⟩
      · intro path _
        exact List.nodup_range.map fun i j same => (List.cons.inj same).1
      · intro p q different path inP inQ
        obtain ⟨i, -, rfl⟩ := List.mem_map.mp inP
        obtain ⟨j, -, same⟩ := List.mem_map.mp inQ
        exact different (List.cons.inj same).2.symm

theorem mem_tablePaths : path ∈ tablePaths ↔ PathOk 512 path := by
  simp only [tablePaths, List.mem_flatMap, List.mem_range, mem_pathsOf]
  constructor
  · rintro ⟨n, short, length, small⟩
    exact ⟨by omega, small, fun i last => small i (List.mem_of_getLast? last)⟩
  · intro ok
    exact ⟨path.length, Nat.lt_succ_of_le ok.length, rfl, ok.bounds⟩

theorem tablePaths_nodup : tablePaths.Nodup := by
  refine List.nodup_flatMap.mpr ⟨fun n _ => pathsOf_nodup n, List.nodup_range.imp ?_⟩
  intro m n different path inM inN
  exact different ((mem_pathsOf.mp inM).1.symm.trans (mem_pathsOf.mp inN).1)

theorem mem_reach : (path, t) ∈ reach offset mem root ↔
    PathOk 512 path ∧ tableAt offset mem root path = some t := by
  simp only [reach, List.mem_filterMap, Option.map_eq_some_iff, Prod.mk.injEq]
  constructor
  · rintro ⟨p, listed, s, found, rfl, rfl⟩
    exact ⟨mem_tablePaths.mp listed, found⟩
  · rintro ⟨ok, found⟩
    exact ⟨path, mem_tablePaths.mpr ok, t, found, rfl, rfl⟩

theorem reach_paths_nodup (offset : Nat) (mem : Mem) (root : Nat) :
    ((reach offset mem root).map Prod.fst).Nodup := by
  have sublist : ∀ list : List (List Nat), ((list.filterMap fun path =>
      (tableAt offset mem root path).map (path, ·)).map Prod.fst).Sublist list := by
    intro list
    induction list with
    | nil => exact List.Sublist.slnil
    | cons path rest ih =>
        cases found : tableAt offset mem root path with
        | none =>
            rw [List.filterMap_cons, found]
            exact ih.cons path
        | some t =>
            rw [List.filterMap_cons, found]
            exact ih.cons_cons path
  exact tablePaths_nodup.sublist (sublist tablePaths)

end Reach

namespace Shared

variable {offset root : Nat} {mem mem' : Mem} {roots : List Nat} {tables : Multiset Nat}

theorem tree (shared : Shared offset mem roots tables) (member : root ∈ roots)
    (aligned : ∀ t ∈ tables, Aligned t) : Tree offset mem root 512 (reach offset mem root) := by
  refine ⟨?_, reach_paths_nodup offset mem root, ?_, ?_, ?_, ?_, ?_⟩
  · exact mem_reach.mpr ⟨⟨by simp, by simp, by simp⟩, rfl⟩
  · apply List.Nodup.map_on _ (List.Nodup.of_map _ (reach_paths_nodup offset mem root))
    rintro ⟨p, s⟩ inP ⟨q, t⟩ inQ rfl
    obtain ⟨okP, foundP⟩ := mem_reach.mp inP
    obtain ⟨okQ, foundQ⟩ := mem_reach.mp inQ
    exact Prod.ext (shared.label root member root member p q s okP okQ foundP foundQ) rfl
  · rintro ⟨path, t⟩ listed
    obtain ⟨ok, found⟩ := mem_reach.mp listed
    exact aligned t (shared.owned root member path t ok found)
  · rintro ⟨path, t⟩ listed
    exact (mem_reach.mp listed).1
  · intro path t i listed ok present
    obtain ⟨-, found⟩ := mem_reach.mp listed
    exact mem_reach.mpr ⟨ok, tableAt_cons.mpr ⟨t, found, present, rfl⟩⟩
  · intro i path c listed
    obtain ⟨ok, found⟩ := mem_reach.mp listed
    obtain ⟨t, parent, present, entry⟩ := tableAt_cons.mp found
    exact ⟨t, mem_reach.mpr ⟨ok.tail, parent⟩, present, entry⟩

theorem of_tree {list : List (List Nat × Nat)} (tree : Tree offset mem root 512 list)
    (listed : ∀ t ∈ list, t.2 ∈ tables) : Shared offset mem [root] tables := by
  constructor
  · intro r member path t ok found
    obtain rfl := List.mem_singleton.mp member
    exact listed (path, t) (tree.mem_of_tableAt ok found)
  · intro r memberR s memberS p q t okP okQ foundP foundQ
    obtain rfl := List.mem_singleton.mp memberR
    obtain rfl := List.mem_singleton.mp memberS
    exact tree.page_unique (tree.mem_of_tableAt okP foundP) (tree.mem_of_tableAt okQ foundQ)

theorem samePaths (shared : Shared offset mem roots tables)
    (same : ∀ t ∈ tables, ∀ i < 512, mem' (slot t i) = mem (slot t i)) :
    SamePaths offset roots mem mem' := by
  have paths : ∀ s ∈ roots, ∀ path, PathOk 512 path →
      tableAt offset mem' s path = tableAt offset mem s path := by
    intro s member path ok
    induction path with
    | nil => rfl
    | cons i path ih =>
        rw [tableAt, tableAt, ih ok.tail]
        cases found : tableAt offset mem s path with
        | none => rfl
        | some t =>
            have inTables := shared.owned s member path t ok.tail found
            rw [Option.bind_some, Option.bind_some, same t inTables i ok.head]
  refine ⟨paths, fun s member page => ?_⟩
  have path := leafPath_ok (under_all page)
  rw [leafEntry, leafEntry, paths s member _ path]
  cases found : tableAt offset mem s (leafPath page) with
  | none => rfl
  | some t => exact same t (shared.owned s member _ t path found) _ (Nat.mod_lt _ (by decide))

theorem of_samePaths (shared : Shared offset mem roots tables)
    (same : SamePaths offset roots mem mem') : Shared offset mem' roots tables := by
  constructor
  · intro r member path t ok found
    rw [same.tables r member path ok] at found
    exact shared.owned r member path t ok found
  · intro r memberR s memberS p q t okP okQ foundP foundQ
    rw [same.tables r memberR p okP] at foundP
    rw [same.tables s memberS q okQ] at foundQ
    exact shared.label r memberR s memberS p q t okP okQ foundP foundQ

theorem subset {roots' : List Nat} (shared : Shared offset mem roots tables)
    (fewer : roots' ⊆ roots) : Shared offset mem roots' tables :=
  ⟨fun r member => shared.owned r (fewer member),
    fun r inR s inS => shared.label r (fewer inR) s (fewer inS)⟩

theorem mono {tables' : Multiset Nat} (shared : Shared offset mem roots tables)
    (subset : ∀ t ∈ tables, t ∈ tables') : Shared offset mem roots tables' :=
  ⟨fun r member path t ok found => subset t (shared.owned r member path t ok found), shared.label⟩

/-- A root with the upper half of another one and nothing in the lower half leads where that
one does. -/
theorem tableAt_of_upper {q : Nat} (empty : ∀ i < 256, ¬ Present (mem (slot q i)))
    (same : ∀ i, 256 ≤ i → i < 512 → mem (slot q i) = mem (slot root i)) {path : List Nat} {t : Nat}
    (nonempty : path ≠ []) (ok : PathOk 512 path) (found : tableAt offset mem q path = some t) :
    tableAt offset mem root path = some t := by
  induction path generalizing t with
  | nil => exact absurd rfl nonempty
  | cons i path ih =>
      obtain ⟨s, parent, present, entry⟩ := tableAt_cons.mp found
      cases path with
      | nil =>
          obtain rfl : q = s := Option.some.inj parent
          have high : 256 ≤ i := by
            by_contra low
            exact empty i (by omega) present
          rw [same i high ok.head] at present entry
          exact tableAt_cons.mpr ⟨root, rfl, present, entry⟩
      | cons j rest =>
          exact tableAt_cons.mpr ⟨s, ih (by simp) ok.tail parent, present, entry⟩

theorem add {q : Nat} (shared : Shared offset mem roots tables) (member : root ∈ roots)
    (fresh : q ∉ tables) (empty : ∀ i < 256, ¬ Present (mem (slot q i)))
    (same : ∀ i, 256 ≤ i → i < 512 → mem (slot q i) = mem (slot root i)) :
    Shared offset mem (q :: roots) (q ::ₘ tables) := by
  -- below the new root itself lies what lies below the old one
  have below : ∀ r ∈ q :: roots, ∀ path t, PathOk 512 path → tableAt offset mem r path = some t →
      path = [] ∧ t = q ∨ ∃ s ∈ roots, tableAt offset mem s path = some t := by
    intro r inRoots path t ok found
    rcases List.mem_cons.mp inRoots with rfl | old
    · by_cases top : path = []
      · subst top
        exact Or.inl ⟨rfl, (Option.some.inj found).symm⟩
      · exact Or.inr ⟨root, member, tableAt_of_upper empty same top ok found⟩
    · exact Or.inr ⟨r, old, found⟩
  constructor
  · intro r inRoots path t ok found
    rcases below r inRoots path t ok found with ⟨-, rfl⟩ | ⟨s, old, found⟩
    · exact Multiset.mem_cons_self t tables
    · exact Multiset.mem_cons_of_mem (shared.owned s old path t ok found)
  · intro r inR s inS p q' t okP okQ foundP foundQ
    rcases below r inR p t okP foundP with ⟨rfl, rfl⟩ | ⟨u, oldU, foundU⟩
    · rcases below s inS q' t okQ foundQ with ⟨rfl, -⟩ | ⟨v, oldV, foundV⟩
      · rfl
      · exact absurd (shared.owned v oldV q' t okQ foundV) fresh
    · rcases below s inS q' t okQ foundQ with ⟨-, rfl⟩ | ⟨v, oldV, foundV⟩
      · exact absurd (shared.owned u oldU p t okP foundU) fresh
      · exact shared.label u oldU v oldV p q' t okP okQ foundU foundV

end Shared

theorem tableAt_of_linked {offset root : Nat} {fresh : List Nat} {mem mem' : Mem}
    (linked : ∀ path, path ≠ [] → PathOk 512 path →
      entryAt offset mem' root path = entryAt offset mem root path ∨
        ¬ Present (entryAt offset mem root path) ∧
          pointee offset (entryAt offset mem' root path) ∈ fresh)
    {path : List Nat} {t : Nat} (ok : PathOk 512 path)
    (found : tableAt offset mem root path = some t) : tableAt offset mem' root path = some t := by
  induction path generalizing t with
  | nil => exact found
  | cons i path ih =>
      obtain ⟨s, parent, present, entry⟩ := tableAt_cons.mp found
      have parent' := ih ok.tail parent
      have same : mem' (slot s i) = mem (slot s i) := by
        rw [← entryAt_of_tableAt parent i] at present
        rw [← entryAt_of_tableAt parent i, ← entryAt_of_tableAt parent' i]
        exact (linked (i :: path) (by simp) ok).resolve_right fun new => new.1 present
      rw [← same] at present entry
      exact tableAt_cons.mpr ⟨s, parent', present, entry⟩

namespace Rewrite

variable {offset root page : Nat} {fresh : List Nat} {roots : List Nat}
  {tables tables' : Multiset Nat} {mem mem' : Mem}

theorem kept_root (rewrite : Rewrite offset root page fresh tables tables' mem mem')
    {path : List Nat} {t : Nat} (ok : PathOk 512 path)
    (found : tableAt offset mem root path = some t) : tableAt offset mem' root path = some t :=
  tableAt_of_linked rewrite.inner ok found

/-- A page of the stock that the root leads to by some path is found there by any root's path
for it; the others are untouched. -/
theorem untouched_or_found (rewrite : Rewrite offset root page fresh tables tables' mem mem')
    (shared : Shared offset mem roots tables) (member : root ∈ roots) {s t : Nat} {path : List Nat}
    (other : s ∈ roots) (ok : PathOk 512 path) (found : tableAt offset mem s path = some t) :
    SamePage mem mem' t ∨ tableAt offset mem root path = some t := by
  by_cases reached : ∃ q, PathOk 512 q ∧ tableAt offset mem root q = some t
  · obtain ⟨q, okQ, foundQ⟩ := reached
    have same := shared.label root member s other q path t okQ ok foundQ found
    exact Or.inr (same ▸ foundQ)
  · apply Or.inl
    apply rewrite.frame t (shared.owned s other path t ok found)
    exact fun q okQ foundQ => reached ⟨q, okQ, foundQ⟩

theorem inner_slot (rewrite : Rewrite offset root page fresh tables tables' mem mem')
    (shared : Shared offset mem roots tables) (member : root ∈ roots) {s t i : Nat}
    {path : List Nat} (other : s ∈ roots) (ok : PathOk 512 (i :: path))
    (found : tableAt offset mem s path = some t) :
    mem' (slot t i) = mem (slot t i) ∨
      tableAt offset mem root path = some t ∧ ¬ Present (mem (slot t i)) ∧
        pointee offset (mem' (slot t i)) ∈ fresh := by
  rcases rewrite.untouched_or_found shared member other ok.tail found with same | here
  · exact Or.inl (same _ (slot_inPage ok.head))
  · have after := rewrite.kept_root ok.tail here
    have entry := rewrite.inner (i :: path) (by simp) ok
    rw [entryAt_of_tableAt here, entryAt_of_tableAt after] at entry
    exact entry.imp_right fun linked => ⟨here, linked⟩

theorem kept (rewrite : Rewrite offset root page fresh tables tables' mem mem')
    (shared : Shared offset mem roots tables) (member : root ∈ roots) {s t : Nat} {path : List Nat}
    (other : s ∈ roots) (ok : PathOk 512 path) (found : tableAt offset mem s path = some t) :
    tableAt offset mem' s path = some t := by
  induction path generalizing t with
  | nil => exact found
  | cons i path ih =>
      obtain ⟨parent, above, present, entry⟩ := tableAt_cons.mp found
      have same : mem' (slot parent i) = mem (slot parent i) :=
        (rewrite.inner_slot shared member other ok above).resolve_right
          fun linked => linked.2.1 present
      rw [← same] at present entry
      exact tableAt_cons.mpr ⟨parent, ih ok.tail above, present, entry⟩

theorem origin (rewrite : Rewrite offset root page fresh tables tables' mem mem')
    (shared : Shared offset mem roots tables) (member : root ∈ roots) {s t : Nat} {path : List Nat}
    (other : s ∈ roots) (ok : PathOk 512 path) (found : tableAt offset mem' s path = some t) :
    tableAt offset mem s path = some t ∨
      t ∈ fresh ∧ tableAt offset mem' root path = some t := by
  induction path generalizing t with
  | nil => exact Or.inl found
  | cons i path ih =>
      obtain ⟨parent, above, present, entry⟩ := tableAt_cons.mp found
      rcases ih ok.tail above with old | ⟨new, below⟩
      · rcases rewrite.inner_slot shared member other ok old with same | ⟨here, -, linked⟩
        · rw [same] at present entry
          exact Or.inl (tableAt_cons.mpr ⟨parent, old, present, entry⟩)
        · have after := rewrite.kept_root ok.tail here
          rw [entry] at linked
          exact Or.inr ⟨linked, tableAt_cons.mpr ⟨parent, after, present, entry⟩⟩
      · have reached := tableAt_cons.mpr ⟨parent, below, present, entry⟩
        refine Or.inr ⟨?_, reached⟩
        rcases (rewrite.source _ t ok reached).2 with isFresh | ⟨q, okQ, foundQ⟩
        · exact isFresh
        · -- an old table below a new one would have been there before
          have same := rewrite.unique q (i :: path) t okQ ok (rewrite.kept_root okQ foundQ) reached
          rw [same] at foundQ
          obtain ⟨before, was, -, -⟩ := tableAt_cons.mp foundQ
          have equal := (rewrite.kept_root ok.tail was).symm.trans below
          obtain rfl := Option.some.inj equal
          exact absurd (shared.owned root member path before ok.tail was) (rewrite.apart before new)

theorem shared (rewrite : Rewrite offset root page fresh tables tables' mem mem')
    (shared : Shared offset mem roots tables) (member : root ∈ roots) :
    Shared offset mem' roots tables' := by
  constructor
  · intro r memberR path t ok found
    rcases rewrite.origin shared member memberR ok found with old | ⟨-, below⟩
    · exact rewrite.grown t (shared.owned r memberR path t ok old)
    · exact (rewrite.source path t ok below).1
  · intro r memberR s memberS p q t okP okQ foundP foundQ
    rcases rewrite.origin shared member memberR okP foundP with oldP | ⟨newP, belowP⟩
    · rcases rewrite.origin shared member memberS okQ foundQ with oldQ | ⟨newQ, -⟩
      · exact shared.label r memberR s memberS p q t okP okQ oldP oldQ
      · exact absurd (shared.owned r memberR p t okP oldP) (rewrite.apart t newQ)
    · rcases rewrite.origin shared member memberS okQ foundQ with oldQ | ⟨-, belowQ⟩
      · exact absurd (shared.owned s memberS q t okQ oldQ) (rewrite.apart t newP)
      · exact rewrite.unique p q t okP okQ belowP belowQ

theorem sharing (rewrite : Rewrite offset root page fresh tables tables' mem mem')
    (shared : Shared offset mem roots tables) (member : root ∈ roots) {r s t : Nat} {path : List Nat}
    (inR : r ∈ roots) (inS : s ∈ roots) (ok : PathOk 512 path)
    (found : tableAt offset mem s path = some t)
    (same : tableAt offset mem' r path = tableAt offset mem' s path) :
    tableAt offset mem r path = some t := by
  rw [rewrite.kept shared member inS ok found] at same
  rcases rewrite.origin shared member inR ok same with old | ⟨new, -⟩
  · exact old
  · exact absurd (shared.owned s inS path t ok found) (rewrite.apart t new)

/-- The entry of a page below any root: unchanged, or the one that was written. In that case
there was no table for it or it is the table the write went to. -/
theorem leafEntry (rewrite : Rewrite offset root page fresh tables tables' mem mem')
    (shared : Shared offset mem roots tables) (member : root ∈ roots) {s other : Nat}
    (inRoots : s ∈ roots) (bound : other < 2 ^ 36) :
    Paging.leafEntry offset mem' s other = Paging.leafEntry offset mem s other ∨
      other = page ∧
        Paging.leafEntry offset mem' s other = Paging.leafEntry offset mem' root other ∧
        (tableAt offset mem s (leafPath other) = none ∨
          tableAt offset mem s (leafPath other) = tableAt offset mem root (leafPath other)) := by
  have path := leafPath_ok (under_all other)
  cases found : tableAt offset mem s (leafPath other) with
  | some t =>
      have after := rewrite.kept shared member inRoots path found
      rw [leafEntry_of_tableAt found, leafEntry_of_tableAt after]
      rcases rewrite.untouched_or_found shared member inRoots path found with same | here
      · exact Or.inl (same _ (slot_inPage (Nat.mod_lt _ (by decide))))
      · have below := rewrite.kept_root path here
        rw [← leafEntry_of_tableAt here, ← leafEntry_of_tableAt below]
        by_cases isPage : other = page
        · exact Or.inr ⟨isPage, rfl, Or.inr here.symm⟩
        · exact Or.inl (rewrite.leaf other bound isPage)
  | none =>
      rw [leafEntry_of_none found]
      cases after : tableAt offset mem' s (leafPath other) with
      | none => exact Or.inl (leafEntry_of_none after)
      | some t =>
          rcases rewrite.origin shared member inRoots path after with old | ⟨new, below⟩
          · rw [found] at old
            cases old
          rw [leafEntry_of_tableAt after, ← leafEntry_of_tableAt below]
          by_cases isPage : other = page
          · exact Or.inr ⟨isPage, rfl, Or.inl rfl⟩
          · -- the new table is empty but for the written entry
            rw [rewrite.leaf other bound isPage]
            cases before : tableAt offset mem root (leafPath other) with
            | none => exact Or.inl (leafEntry_of_none before)
            | some u =>
                have equal := (rewrite.kept_root path before).symm.trans below
                obtain rfl := Option.some.inj equal
                exact absurd (shared.owned root member _ u path before) (rewrite.apart u new)

end Rewrite

end Nyaux.Paging
