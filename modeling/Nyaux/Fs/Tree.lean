import Nyaux.Fs.PathWalk

/-! Directory trees given by a list of entries, each listed after its parent. -/

namespace Nyaux.Fs

open CString

inductive Kind where
  | directory
  | regular (content : List UInt8)
  | symlink (target : List UInt8)
  deriving DecidableEq

structure Entry where
  name : List UInt8
  kind : Kind
  deriving DecidableEq

def Entry.path (e : Entry) : List (List UInt8) := components slash e.name

def TmpfsNode.Contains (node : TmpfsNode) (bytes : List UInt8) : Prop :=
  node.size = bytes.length ∧ ∀ i c, bytes[i]? = some c → node.data.bytes i = c

def Vnode.Holds (vnode : Vnode) : Kind → Prop
  | .directory => vnode.type = .dir
  | .regular content => vnode.type = .file ∧ vnode.node.Contains content
  | .symlink target => vnode.type = .symlink ∧ vnode.node.Contains (target ++ [0])

structure Listed (entries : List Entry) : Prop where
  named : ∀ e ∈ entries, e.path ≠ []
  once : (entries.map Entry.path).Nodup
  parents : ∀ before e after, entries = before ++ e :: after →
    e.path.dropLast = [] ∨ ∃ d ∈ before, d.path = e.path.dropLast ∧ d.kind = .directory

structure IsTree (fs : Tmpfs) (entries : List Entry) : Prop where
  root : IsDir fs 0
  present : ∀ e ∈ entries, ∃ v vnode, resolve fs 0 e.path = some v ∧
    fs.vnodes[v]? = some vnode ∧ vnode.Holds e.kind
  only : ∀ path v, resolve fs 0 path = some v → path = [] ∨ ∃ e ∈ entries, e.path = path
  names : ∀ vnode : Vnode, vnode ∈ fs.vnodes → (vnode.dir.map DirEntry.name).Nodup
  count : fs.vnodes.length = entries.length + 1
  apart : ∀ p q v, resolve fs 0 p = some v → resolve fs 0 q = some v → p = q

def paths (entries : List Entry) : List (List (List UInt8)) := [] :: entries.map Entry.path

theorem Listed.prefix {entries later : List Entry} (listed : Listed (entries ++ later)) :
    Listed entries := by
  refine ⟨fun d member => listed.named d (List.mem_append_left _ member), ?_, ?_⟩
  · have := listed.once
    rw [List.map_append, List.nodup_append] at this
    exact this.1
  · intro before d after split
    exact listed.parents before d (after ++ later) (by rw [split]; simp)

theorem Listed.paths_nodup {entries : List Entry} (listed : Listed entries) :
    (paths entries).Nodup := by
  refine List.nodup_cons.mpr ⟨?_, listed.once⟩
  intro member
  obtain ⟨e, listedHere, empty⟩ := List.mem_map.mp member
  exact listed.named e listedHere empty

theorem paths_snoc (entries : List Entry) (e : Entry) :
    paths (entries ++ [e]) = paths entries ++ [e.path] := by
  simp [paths]

/-- The state after the entries: vnode `k + 1` is made for entry `k`, and a directory links
exactly the vnodes one component below it. -/
structure TreeInv (fs : Tmpfs) (entries : List Entry) : Prop where
  count : fs.vnodes.length = entries.length + 1
  root : IsDir fs 0
  kinds : ∀ k e, entries[k]? = some e → ∃ vnode, fs.vnodes[k + 1]? = some vnode ∧
    vnode.Holds e.kind
  links : ∀ (v : Nat) (vnode : Vnode), fs.vnodes[v]? = some vnode → ∀ c w, (⟨c, w⟩ : DirEntry) ∈ vnode.dir ↔
    ∃ p, (paths entries)[v]? = some p ∧ (paths entries)[w]? = some (p ++ [c])
  names : ∀ vnode : Vnode, vnode ∈ fs.vnodes → (vnode.dir.map DirEntry.name).Nodup

section Inv

variable {fs : Tmpfs} {entries : List Entry}

theorem nodup_index {α : Type} {l : List α} (nodup : l.Nodup) {i j : Nat} {x : α}
    (left : l[i]? = some x) (right : l[j]? = some x) : i = j := by
  obtain ⟨inside, rfl⟩ := List.getElem?_eq_some_iff.mp left
  obtain ⟨inside', same⟩ := List.getElem?_eq_some_iff.mp right
  exact (nodup.getElem_inj_iff.mp same).symm

theorem lookup_iff (inv : TreeInv fs entries) {v w : Nat} {c : List UInt8} :
    vnodeLookup fs v c = some w ↔
      IsDir fs v ∧ ∃ p, (paths entries)[v]? = some p ∧ (paths entries)[w]? = some (p ++ [c]) := by
  constructor
  · intro found
    refine ⟨isDir_of_lookup found, ?_⟩
    obtain ⟨vnode, present, rest⟩ := Option.bind_eq_some_iff.mp found
    split at rest
    · obtain ⟨entry, first, rfl⟩ := Option.map_eq_some_iff.mp rest
      have named := List.find?_some first
      have member := List.mem_of_find?_eq_some first
      simp only [decide_eq_true_eq] at named
      subst named
      exact (inv.links v vnode present _ _).mp member
    · contradiction
  · rintro ⟨⟨vnode, present, type⟩, p, atV, atW⟩
    have member := (inv.links v vnode present c w).mpr ⟨p, atV, atW⟩
    have nodup := inv.names vnode (List.mem_of_getElem? present)
    cases first : vnode.dir.find? fun entry => entry.name = c with
    | none =>
        have missed := List.find?_eq_none.mp first _ member
        simp at missed
    | some entry =>
        have named := List.find?_some first
        have present' := List.mem_of_find?_eq_some first
        simp only [decide_eq_true_eq] at named
        have same : entry = ⟨c, w⟩ :=
          List.inj_on_of_nodup_map nodup present' member named
        simp [vnodeLookup, present, type, first, same]

theorem resolve_iff (inv : TreeInv fs entries) (listed : Listed entries)
    (path : List (List UInt8)) (v : Nat) :
    resolve fs 0 path = some v ↔ (paths entries)[v]? = some path := by
  have zero : (paths entries)[0]? = some [] := rfl
  induction path using List.reverseRecOn generalizing v with
  | nil =>
      constructor
      · intro found
        obtain rfl : 0 = v := Option.some.inj found
        exact zero
      · intro found
        rw [nodup_index listed.paths_nodup found zero]
        rfl
  | append_singleton p c ih =>
      rw [resolve_append]
      constructor
      · intro found
        obtain ⟨u, before, last⟩ := Option.bind_eq_some_iff.mp found
        obtain ⟨w, looked, final⟩ := Option.bind_eq_some_iff.mp last
        obtain rfl : w = v := Option.some.inj final
        obtain ⟨-, p', atU, atW⟩ := (lookup_iff inv).mp looked
        have same := (ih u).mp before
        rw [atU] at same
        rw [← Option.some.inj same]
        exact atW
      · intro found
        obtain ⟨k, e, rfl, atK, path⟩ : ∃ k e, v = k + 1 ∧ entries[k]? = some e ∧
            e.path = p ++ [c] := by
          cases v with
          | zero =>
              rw [zero] at found
              exact absurd (Option.some.inj found).symm (List.append_ne_nil_of_right_ne_nil _
                (List.cons_ne_nil c []))
          | succ k =>
              rw [paths, List.getElem?_cons_succ, List.getElem?_map,
                Option.map_eq_some_iff] at found
              obtain ⟨e, atK, path⟩ := found
              exact ⟨k, e, rfl, atK, path⟩
        -- the parent is a directory listed before
        have parent : ∃ u, (paths entries)[u]? = some p ∧ IsDir fs u := by
          obtain ⟨inside, here⟩ := List.getElem?_eq_some_iff.mp atK
          have split : entries = entries.take k ++ e :: entries.drop (k + 1) := by
            rw [← here, List.getElem_cons_drop, List.take_append_drop]
          rcases listed.parents _ e _ split with top | ⟨d, earlier, parent, directory⟩
          · rw [path, List.dropLast_concat] at top
            exact ⟨0, by rw [top]; rfl, inv.root⟩
          · rw [path, List.dropLast_concat] at parent
            obtain ⟨j, atJ⟩ := List.mem_iff_getElem?.mp (List.mem_of_mem_take earlier)
            obtain ⟨vnode, present, holds⟩ := inv.kinds j d atJ
            rw [directory] at holds
            refine ⟨j + 1, ?_, vnode, present, holds⟩
            rw [paths, List.getElem?_cons_succ, List.getElem?_map, atJ, ← parent]
            rfl
        obtain ⟨u, atU, directory⟩ := parent
        have looked := (lookup_iff inv).mpr ⟨directory, p, atU, found⟩
        rw [(ih u).mpr atU]
        simp [resolve, looked]

theorem isTree_of_inv (inv : TreeInv fs entries) (listed : Listed entries) :
    IsTree fs entries := by
  refine ⟨inv.root, ?_, ?_, inv.names, inv.count, ?_⟩
  · intro e member
    obtain ⟨k, atK⟩ := List.mem_iff_getElem?.mp member
    obtain ⟨vnode, present, holds⟩ := inv.kinds k e atK
    refine ⟨k + 1, vnode, (resolve_iff inv listed _ _).mpr ?_, present, holds⟩
    rw [paths, List.getElem?_cons_succ, List.getElem?_map, atK]
    rfl
  · intro path v found
    have member := List.mem_of_getElem? ((resolve_iff inv listed path v).mp found)
    rcases List.mem_cons.mp member with top | below
    · exact Or.inl top
    · obtain ⟨e, here, same⟩ := List.mem_map.mp below
      exact Or.inr ⟨e, here, same⟩
  · intro p q v left right
    have left' := (resolve_iff inv listed p v).mp left
    have right' := (resolve_iff inv listed q v).mp right
    exact Option.some.inj (left'.symm.trans right')

end Inv

/-! One more vnode below a directory. -/

def linkTo (fs : Tmpfs) (parent : Vnode) (c : List UInt8) : Vnode :=
  { parent with dir := ⟨c, fs.vnodes.length⟩ :: parent.dir }

def grow (fs : Tmpfs) (par : Nat) (parent : Vnode) (c : List UInt8) (new : Vnode) : Tmpfs :=
  { vnodes := fs.vnodes.set par (linkTo fs parent c) ++ [new] }

theorem addEntry_grow {fs : Tmpfs} {par : Nat} {parent : Vnode} {c : List UInt8} (new : Vnode)
    (present : fs.vnodes[par]? = some parent) (directory : parent.type = .dir) :
    addEntry fs par c new = some (grow fs par parent c new, fs.vnodes.length) := by
  simp [addEntry, present, directory, grow, linkTo]

section Grow

variable {fs : Tmpfs} {par : Nat} {parent new : Vnode} {c : List UInt8}

theorem grow_par (inside : par < fs.vnodes.length) :
    (grow fs par parent c new).vnodes[par]? = some (linkTo fs parent c) := by
  rw [grow, List.getElem?_append_left (by rw [List.length_set]; exact inside),
    List.getElem?_set_self inside]

theorem grow_old {v : Nat} (other : v ≠ par) (inside : v < fs.vnodes.length) :
    (grow fs par parent c new).vnodes[v]? = fs.vnodes[v]? := by
  rw [grow, List.getElem?_append_left (by rw [List.length_set]; exact inside),
    List.getElem?_set_ne (Ne.symm other)]

theorem grow_new : (grow fs par parent c new).vnodes[fs.vnodes.length]? = some new := by
  simp [grow]

theorem grow_cases {v : Nat} {vnode : Vnode} (inside : par < fs.vnodes.length)
    (found : (grow fs par parent c new).vnodes[v]? = some vnode) :
    (v = par ∧ vnode = linkTo fs parent c) ∨
      (v ≠ par ∧ v < fs.vnodes.length ∧ fs.vnodes[v]? = some vnode) ∨
      (v = fs.vnodes.length ∧ vnode = new) := by
  rcases Nat.lt_trichotomy v fs.vnodes.length with below | rfl | above
  · by_cases same : v = par
    · subst same
      rw [grow_par inside] at found
      exact Or.inl ⟨rfl, (Option.some.inj found).symm⟩
    · rw [grow_old same below] at found
      exact Or.inr (Or.inl ⟨same, below, found⟩)
  · rw [grow_new] at found
    exact Or.inr (Or.inr ⟨rfl, (Option.some.inj found).symm⟩)
  · obtain ⟨bound, -⟩ := List.getElem?_eq_some_iff.mp found
    simp only [grow, List.length_append, List.length_set, List.length_singleton] at bound
    omega

end Grow

section Add

variable {fs : Tmpfs} {entries : List Entry} {e : Entry} {par : Nat} {parent new : Vnode}
  {p : List (List UInt8)} {c : List UInt8}

theorem paths_length (inv : TreeInv fs entries) : (paths entries).length = fs.vnodes.length := by
  rw [inv.count]
  simp [paths]

theorem paths_old (inv : TreeInv fs entries) {v : Nat} (inside : v < fs.vnodes.length) :
    (paths (entries ++ [e]))[v]? = (paths entries)[v]? := by
  rw [paths_snoc, List.getElem?_append_left (by rw [paths_length inv]; exact inside)]

theorem paths_new (inv : TreeInv fs entries) :
    (paths (entries ++ [e]))[fs.vnodes.length]? = some e.path := by
  rw [paths_snoc, ← paths_length inv, List.getElem?_concat_length]

theorem paths_inside (inv : TreeInv fs entries) {v : Nat} {q : List (List UInt8)}
    (found : (paths entries)[v]? = some q) : v < fs.vnodes.length := by
  obtain ⟨inside, -⟩ := List.getElem?_eq_some_iff.mp found
  rw [← paths_length inv]
  exact inside

theorem paths_cases (inv : TreeInv fs entries) {v : Nat} {q : List (List UInt8)}
    (found : (paths (entries ++ [e]))[v]? = some q) :
    (v < fs.vnodes.length ∧ (paths entries)[v]? = some q) ∨
      (v = fs.vnodes.length ∧ q = e.path) := by
  obtain ⟨bound, -⟩ := List.getElem?_eq_some_iff.mp found
  rw [paths_snoc, List.length_append, List.length_singleton, paths_length inv] at bound
  by_cases inside : v < fs.vnodes.length
  · exact Or.inl ⟨inside, (paths_old inv inside).symm.trans found⟩
  · obtain rfl : v = fs.vnodes.length := by omega
    exact Or.inr ⟨rfl, Option.some.inj (found.symm.trans (paths_new inv))⟩

theorem nothing_below (listed : Listed (entries ++ [e])) (c : List UInt8) :
    e.path ++ [c] ∉ paths (entries ++ [e]) := by
  intro member
  rcases List.mem_cons.mp member with top | lower
  · simp at top
  · obtain ⟨d, here, deep⟩ := List.mem_map.mp lower
    rcases List.mem_append.mp here with earlier | final
    · obtain ⟨before, after, split⟩ := List.append_of_mem earlier
      have parents := listed.prefix.parents before d after split
      rw [deep, List.dropLast_concat] at parents
      have once := listed.once
      rw [List.map_append, List.nodup_append] at once
      rcases parents with top | ⟨d', first, same, -⟩
      · exact listed.named e (by simp) top
      · refine once.2.2 d'.path (List.mem_map_of_mem ?_) e.path (by simp) same
        rw [split]
        exact List.mem_append_left _ first
    · rw [List.mem_singleton.mp final] at deep
      simp at deep

theorem links_add (inv : TreeInv fs entries) (listed : Listed (entries ++ [e]))
    (path : e.path = p ++ [c]) (atPar : (paths entries)[par]? = some p)
    (present : fs.vnodes[par]? = some parent) (empty : new.dir = []) {v : Nat} {vnode : Vnode}
    (found : (grow fs par parent c new).vnodes[v]? = some vnode) (c' : List UInt8) (w : Nat) :
    (⟨c', w⟩ : DirEntry) ∈ vnode.dir ↔
      ∃ q, (paths (entries ++ [e]))[v]? = some q ∧
        (paths (entries ++ [e]))[w]? = some (q ++ [c']) := by
  obtain ⟨parInside, -⟩ := List.getElem?_eq_some_iff.mp present
  rcases grow_cases parInside found with ⟨rfl, rfl⟩ | ⟨other, inside, old⟩ | ⟨rfl, rfl⟩
  · rw [linkTo, List.mem_cons, inv.links v parent present c' w, paths_old inv parInside]
    constructor
    · rintro (made | ⟨q, atV, atW⟩)
      · obtain ⟨rfl, rfl⟩ := DirEntry.mk.inj made
        exact ⟨p, atPar, by rw [paths_new inv, path]⟩
      · exact ⟨q, atV, by rw [paths_old inv (paths_inside inv atW)]; exact atW⟩
    · rintro ⟨q, atV, atW⟩
      obtain rfl : p = q := Option.some.inj (atPar.symm.trans atV)
      rcases paths_cases inv atW with ⟨-, old⟩ | ⟨rfl, same⟩
      · exact Or.inr ⟨p, atPar, old⟩
      · rw [path] at same
        exact Or.inl (by rw [(List.cons.inj (List.append_cancel_left same)).1])
  · rw [inv.links v vnode old c' w, paths_old inv inside]
    constructor
    · rintro ⟨q, atV, atW⟩
      exact ⟨q, atV, by rw [paths_old inv (paths_inside inv atW)]; exact atW⟩
    · rintro ⟨q, atV, atW⟩
      rcases paths_cases inv atW with ⟨-, old⟩ | ⟨rfl, same⟩
      · exact ⟨q, atV, old⟩
      · rw [path] at same
        rw [List.append_inj_left' same rfl] at atV
        exact absurd (nodup_index listed.prefix.paths_nodup atV atPar) other
  · rw [empty]
    constructor
    · intro member
      simp at member
    · rintro ⟨q, atV, atW⟩
      obtain rfl : e.path = q := Option.some.inj ((paths_new inv).symm.trans atV)
      exact absurd (List.mem_of_getElem? atW) (nothing_below listed c')

theorem inv_add (inv : TreeInv fs entries) (listed : Listed (entries ++ [e]))
    (path : e.path = p ++ [c]) (atPar : (paths entries)[par]? = some p)
    (present : fs.vnodes[par]? = some parent) (directory : parent.type = .dir)
    (empty : new.dir = []) (holds : new.Holds e.kind) :
    TreeInv (grow fs par parent c new) (entries ++ [e]) := by
  have count := inv.count
  obtain ⟨parInside, -⟩ := List.getElem?_eq_some_iff.mp present
  refine ⟨by simp [grow, count], ?_, ?_, fun v vnode found c' w =>
    links_add inv listed path atPar present empty found c' w, ?_⟩
  · obtain ⟨vnode, atRoot, type⟩ := inv.root
    by_cases same : 0 = par
    · subst same
      exact ⟨_, grow_par parInside, directory⟩
    · exact ⟨vnode, (grow_old same (by omega)).trans atRoot, type⟩
  · intro k d atK
    by_cases old : k < entries.length
    · rw [List.getElem?_append_left old] at atK
      obtain ⟨vnode, atOld, holdsOld⟩ := inv.kinds k d atK
      by_cases same : k + 1 = par
      · subst same
        obtain rfl : parent = vnode := Option.some.inj (present.symm.trans atOld)
        refine ⟨_, grow_par parInside, ?_⟩
        cases kind : d.kind <;> rw [kind] at holdsOld <;> exact holdsOld
      · exact ⟨vnode, (grow_old same (by omega)).trans atOld, holdsOld⟩
    · obtain ⟨bound, here⟩ := List.getElem?_eq_some_iff.mp atK
      rw [List.length_append, List.length_singleton] at bound
      obtain rfl : k = entries.length := by omega
      rw [List.getElem_concat_length rfl] at here
      subst here
      refine ⟨new, ?_, holds⟩
      rw [← count]
      exact grow_new
  · intro vnode member
    obtain ⟨v, found⟩ := List.mem_iff_getElem?.mp member
    rcases grow_cases parInside found with ⟨rfl, rfl⟩ | ⟨-, -, old⟩ | ⟨-, rfl⟩
    · rw [linkTo, List.map_cons, List.nodup_cons]
      refine ⟨?_, inv.names parent (List.mem_of_getElem? present)⟩
      intro taken
      obtain ⟨⟨name, w⟩, here, rfl⟩ := List.mem_map.mp taken
      obtain ⟨q, atPar', atW⟩ := (inv.links v parent present name w).mp here
      obtain rfl : p = q := Option.some.inj (atPar.symm.trans atPar')
      have inside := paths_inside inv atW
      have same := nodup_index listed.paths_nodup ((paths_old inv inside).trans atW)
        ((paths_new inv).trans (congrArg some path))
      omega
    · exact inv.names vnode (List.mem_of_getElem? old)
    · rw [empty]
      exact List.nodup_nil

end Add

end Nyaux.Fs
