import Nyaux.Fs.Tree

/-! What a path leads to, symlinks included, and how one more entry changes it. -/

namespace Nyaux.Fs

open CString

def IsSymlink (fs : Tmpfs) (v : Nat) : Prop :=
  ∃ vnode, fs.vnodes[v]? = some vnode ∧ vnode.type = .symlink

/-- Entries lead to vnodes made later than the directory. -/
structure TmpfsTree (fs : Tmpfs) : Prop where
  root : IsDir fs 0
  links : ∀ (v : Nat) (vnode : Vnode), fs.vnodes[v]? = some vnode → ∀ e ∈ vnode.dir,
    v < e.ptrToVnode ∧ e.ptrToVnode < fs.vnodes.length

def startOf (cur : Nat) (path : List UInt8) : Nat := if path.head? = some slash then 0 else cur

def follow (fs : Tmpfs) (links : Nat → List UInt8 → Option (Option Nat)) :
    Nat → List (List UInt8) → Option (Option Nat)
  | cur, [] => some (some cur)
  | cur, c :: rest =>
      match vnodeLookup fs cur c with
      | some res =>
          match (fs.vnodes[res]?).map Vnode.type with
          | some .dir => follow fs links res rest
          | some .symlink => links cur (walk.link fs res)
          | _ => some (some res)
      | none => some none

/-- `vnode_path_lookup` without `getparent`; `depth` bounds the symlinks followed. -/
def leadsTo (fs : Tmpfs) : Nat → Nat → List UInt8 → Option (Option Nat)
  | 0, _, _ => none
  | depth + 1, cur, path => follow fs (leadsTo fs depth) (startOf cur path) (components slash path)

section LeadsTo

variable {fs : Tmpfs}

theorem zero_not_mem_link (res : Nat) : 0 ∉ walk.link fs res := by
  unfold walk.link
  split
  · exact zero_not_mem_cstring _
  · exact List.not_mem_nil

theorem steps_follow (links links' : Nat → List UInt8 → Option (Option Nat)) (flag : Bool)
    (same : ∀ cur res, links cur (walk.link fs res) = links' cur (walk.link fs res)) (cur : Nat)
    (cs : List (List UInt8)) (last : List UInt8) :
    (steps fs links false flag cur cs last).map Found.vnode = follow fs links' cur cs := by
  induction cs generalizing cur with
  | nil => rfl
  | cons c rest ih =>
      rw [steps, if_neg (by simp), follow]
      cases vnodeLookup fs cur c with
      | none => rfl
      | some res =>
          dsimp only
          cases (fs.vnodes[res]?).map Vnode.type with
          | none => rfl
          | some type =>
              cases type with
              | dir => exact ih res
              | file => rfl
              | symlink =>
                  dsimp only
                  rw [← same cur res, Option.map_map]
                  exact Option.map_id'

theorem vnodePathLookup_leadsTo (scratch : Scratch) (depth cur : Nat) (path last : List UInt8)
    (plain : 0 ∉ path) :
    (vnodePathLookup fs scratch depth cur path false last).map Found.vnode =
      leadsTo fs depth cur path := by
  induction depth generalizing cur path last with
  | zero => rfl
  | succ depth ih =>
      rw [vnodePathLookup_eq fs scratch depth cur path false last plain, leadsTo]
      apply steps_follow
      intro cur res
      exact ih cur (walk.link fs res) [] (zero_not_mem_link res)

end LeadsTo

section Tree

variable {fs : Tmpfs}

theorem TmpfsTree.lookup (tree : TmpfsTree fs) {v w : Nat} {c : List UInt8}
    (found : vnodeLookup fs v c = some w) : v < w ∧ w < fs.vnodes.length := by
  obtain ⟨vnode, present, rest⟩ := Option.bind_eq_some_iff.mp found
  split at rest
  · obtain ⟨entry, first, rfl⟩ := Option.map_eq_some_iff.mp rest
    exact tree.links v vnode present entry (List.mem_of_find?_eq_some first)
  · cases rest

theorem TmpfsTree.present (tree : TmpfsTree fs) {v w : Nat} {c : List UInt8}
    (found : vnodeLookup fs v c = some w) : ∃ vnode, fs.vnodes[w]? = some vnode :=
  ⟨_, List.getElem?_eq_getElem (tree.lookup found).2⟩

theorem isDir_of_type {v : Nat} (type : (fs.vnodes[v]?).map Vnode.type = some .dir) : IsDir fs v := by
  obtain ⟨vnode, present, directory⟩ := Option.map_eq_some_iff.mp type
  exact ⟨vnode, present, directory⟩

theorem isSymlink_of_type {v : Nat} (type : (fs.vnodes[v]?).map Vnode.type = some .symlink) :
    IsSymlink fs v := by
  obtain ⟨vnode, present, symlink⟩ := Option.map_eq_some_iff.mp type
  exact ⟨vnode, present, symlink⟩

theorem type_of_isDir {v : Nat} (directory : IsDir fs v) :
    (fs.vnodes[v]?).map Vnode.type = some .dir := by
  obtain ⟨vnode, present, type⟩ := directory
  rw [present, Option.map_some, type]

theorem type_of_isSymlink {v : Nat} (symlink : IsSymlink fs v) :
    (fs.vnodes[v]?).map Vnode.type = some .symlink := by
  obtain ⟨vnode, present, type⟩ := symlink
  rw [present, Option.map_some, type]

theorem isDir_lt {v : Nat} (directory : IsDir fs v) : v < fs.vnodes.length := by
  obtain ⟨vnode, present, -⟩ := directory
  exact (List.getElem?_eq_some_iff.mp present).1

theorem TmpfsTree.follow_lt (tree : TmpfsTree fs) {links : Nat → List UInt8 → Option (Option Nat)}
    (below : ∀ cur res v, cur < fs.vnodes.length → links cur (walk.link fs res) = some (some v) →
      v < fs.vnodes.length)
    {cur v : Nat} {cs : List (List UInt8)} (inside : cur < fs.vnodes.length)
    (leads : follow fs links cur cs = some (some v)) : v < fs.vnodes.length := by
  induction cs generalizing cur with
  | nil =>
      obtain rfl := Option.some.inj (Option.some.inj leads)
      exact inside
  | cons c rest ih =>
      rw [follow] at leads
      cases found : vnodeLookup fs cur c with
      | none =>
          rw [found] at leads
          cases Option.some.inj leads
      | some res =>
          have later := (tree.lookup found).2
          rw [found] at leads
          dsimp only at leads
          split at leads
          · exact ih later leads
          · exact below cur res v inside leads
          · obtain rfl := Option.some.inj (Option.some.inj leads)
            exact later

theorem TmpfsTree.leadsTo_lt (tree : TmpfsTree fs) {depth cur v : Nat} {path : List UInt8}
    (inside : cur < fs.vnodes.length) (leads : leadsTo fs depth cur path = some (some v)) :
    v < fs.vnodes.length := by
  induction depth generalizing cur path v with
  | zero => cases leads
  | succ depth ih =>
      have start : startOf cur path < fs.vnodes.length := by
        unfold startOf
        split
        · exact isDir_lt tree.root
        · exact inside
      exact tree.follow_lt (fun cur res v bound found => ih bound found) start leads

end Tree

section Grow

variable {fs : Tmpfs} {par : Nat} {parent new : Vnode} {name : List UInt8}

theorem grow_type (present : fs.vnodes[par]? = some parent) {v : Nat} (inside : v < fs.vnodes.length) :
    ((grow fs par parent name new).vnodes[v]?).map Vnode.type = (fs.vnodes[v]?).map Vnode.type := by
  by_cases same : v = par
  · subst same
    rw [grow_par inside, present]
    rfl
  · rw [grow_old same inside]

theorem grow_link (present : fs.vnodes[par]? = some parent) {v : Nat} (inside : v < fs.vnodes.length) :
    walk.link (grow fs par parent name new) v = walk.link fs v := by
  unfold walk.link
  by_cases same : v = par
  · subst same
    rw [grow_par inside, present]
    rfl
  · rw [grow_old same inside]

theorem lookup_grow (present : fs.vnodes[par]? = some parent) (directory : parent.type = .dir)
    {v : Nat} (inside : v < fs.vnodes.length) (c : List UInt8) :
    vnodeLookup (grow fs par parent name new) v c =
      if v = par ∧ c = name then some fs.vnodes.length else vnodeLookup fs v c := by
  by_cases same : v = par
  · subst same
    unfold vnodeLookup
    rw [grow_par inside, present]
    by_cases here : c = name
    · subst here
      simp [linkTo, directory]
    · simp [linkTo, directory, here, Ne.symm here]
  · rw [if_neg (fun both => same both.1)]
    unfold vnodeLookup
    rw [grow_old same inside]

theorem lookup_grow_new (empty : new.dir = []) (c : List UInt8) :
    vnodeLookup (grow fs par parent name new) fs.vnodes.length c = none := by
  unfold vnodeLookup
  rw [grow_new]
  simp [empty]

end Grow

end Nyaux.Fs
