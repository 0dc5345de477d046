import Nyaux.Fs.Lookup
import Nyaux.Fs.Tar

/-! `vfs_create`, and what the path walk finds afterwards. -/

namespace Nyaux.Fs

open CString

def madeVnode (type : Nat) : Vnode := newVnode (if type = 0 then .dir else .file)

section Outcomes

variable {fs : Tmpfs} {scratch : Scratch} {depth indir type : Nat} {path name : List UInt8}

theorem vfsCreate_eq (kind : type = 0 ∨ type = 1) (nonempty : path ≠ []) :
    vfsCreate fs scratch depth indir path type =
      (vnodePathLookup fs scratch depth indir path true (cstring scratch.component)).bind fun found =>
        match found.vnode with
        | none => some (-1, fs, none)
        | some ourPar =>
            match addEntry fs ourPar found.componentlast (madeVnode type) with
            | some (fs, created) => some (0, fs, some created)
            | none => some (0, fs, none) := by
  rw [vfsCreate, if_neg nonempty]
  rcases kind with rfl | rfl <;> rfl

theorem create_in {par : Nat} {parent : Vnode} (kind : type = 0 ∨ type = 1) (nonempty : path ≠ [])
    (found : vnodePathLookup fs scratch depth indir path true (cstring scratch.component) =
      some ⟨some par, name⟩)
    (present : fs.vnodes[par]? = some parent) (directory : parent.type = .dir) :
    vfsCreate fs scratch depth indir path type =
      some (0, grow fs par parent name (madeVnode type), some fs.vnodes.length) := by
  rw [vfsCreate_eq kind nonempty, found, Option.bind_some]
  dsimp only
  rw [addEntry_grow _ present directory]

theorem create_null {par : Nat} (kind : type = 0 ∨ type = 1) (nonempty : path ≠ [])
    (found : vnodePathLookup fs scratch depth indir path true (cstring scratch.component) =
      some ⟨some par, name⟩)
    (other : ¬ IsDir fs par) :
    vfsCreate fs scratch depth indir path type = some (0, fs, none) := by
  have refused : addEntry fs par name (madeVnode type) = none := by
    unfold addEntry
    cases present : fs.vnodes[par]? with
    | none => rfl
    | some vnode => exact if_neg fun directory => other ⟨vnode, present, directory⟩
  rw [vfsCreate_eq kind nonempty, found, Option.bind_some]
  dsimp only
  rw [refused]

theorem create_refused (kind : type = 0 ∨ type = 1) (nonempty : path ≠ [])
    (found : vnodePathLookup fs scratch depth indir path true (cstring scratch.component) =
      some ⟨none, name⟩) :
    vfsCreate fs scratch depth indir path type = some (-1, fs, none) := by
  rw [vfsCreate_eq kind nonempty, found, Option.bind_some]

end Outcomes

section Follow

variable {fs : Tmpfs} {links links' : Nat → List UInt8 → Option (Option Nat)} {par : Nat}
  {parent new : Vnode} {name : List UInt8}

end Follow

/-! The trees that the kernel builds. -/

section Built

variable {fs fs' : Tmpfs}

theorem TmpfsTree.grow (tree : TmpfsTree fs) {par : Nat} {parent new : Vnode} {name : List UInt8}
    (present : fs.vnodes[par]? = some parent) (empty : new.dir = []) : TmpfsTree (grow fs par parent name new) := by
  have inside := (List.getElem?_eq_some_iff.mp present).1
  have length : (Fs.grow fs par parent name new).vnodes.length = fs.vnodes.length + 1 := by
    simp [Fs.grow]
  constructor
  · apply isDir_of_type
    rw [grow_type present (isDir_lt tree.root), type_of_isDir tree.root]
  · intro v vnode found e member
    rw [length]
    rcases grow_cases inside found with ⟨rfl, rfl⟩ | ⟨-, -, old⟩ | ⟨-, rfl⟩
    · rw [linkTo, List.mem_cons] at member
      rcases member with rfl | earlier
      · exact ⟨inside, Nat.lt_succ_self _⟩
      · obtain ⟨above, below⟩ := tree.links v parent present e earlier
        exact ⟨above, Nat.lt_succ_of_lt below⟩
    · obtain ⟨above, below⟩ := tree.links v vnode old e member
      exact ⟨above, Nat.lt_succ_of_lt below⟩
    · rw [empty] at member
      cases member

theorem addEntry_tree (tree : TmpfsTree fs) {v made : Nat} {name : List UInt8} {new : Vnode}
    (empty : new.dir = []) (added : addEntry fs v name new = some (fs', made)) :
    TmpfsTree fs' ∧ made = fs.vnodes.length ∧ fs'.vnodes[made]? = some new := by
  obtain ⟨vnode, present, rest⟩ := Option.bind_eq_some_iff.mp added
  by_cases directory : vnode.type = .dir
  · rw [addEntry_grow new present directory] at added
    obtain ⟨rfl, rfl⟩ := Prod.mk.inj (Option.some.inj added)
    exact ⟨tree.grow present empty, rfl, grow_new⟩
  · rw [if_neg directory] at rest
    cases rest

theorem vfsCreate_tree (tree : TmpfsTree fs) {scratch : Scratch} {depth indir type : Nat}
    {path : List UInt8} {ret : Int} {res : Option Nat} (kind : type = 0 ∨ type = 1)
    (ran : vfsCreate fs scratch depth indir path type = some (ret, fs', res)) :
    TmpfsTree fs' ∧ ∀ v, res = some v → 0 < v ∧ fs'.vnodes[v]? = some (madeVnode type) := by
  by_cases nonempty : path = []
  · rw [vfsCreate, if_pos nonempty] at ran
    obtain ⟨rfl, rfl⟩ := Prod.mk.inj (Prod.mk.inj (Option.some.inj ran)).2
    exact ⟨tree, fun v made => by cases made⟩
  rw [vfsCreate_eq kind nonempty] at ran
  obtain ⟨⟨vnode, name⟩, -, rest⟩ := Option.bind_eq_some_iff.mp ran
  cases vnode with
  | none =>
      obtain ⟨rfl, rfl⟩ := Prod.mk.inj (Prod.mk.inj (Option.some.inj rest)).2
      exact ⟨tree, fun v made => by cases made⟩
  | some par =>
      dsimp only at rest
      cases added : addEntry fs par name (madeVnode type) with
      | none =>
          rw [added] at rest
          obtain ⟨rfl, rfl⟩ := Prod.mk.inj (Prod.mk.inj (Option.some.inj rest)).2
          exact ⟨tree, fun v made => by cases made⟩
      | some made =>
          rw [added] at rest
          obtain ⟨rfl, rfl⟩ := Prod.mk.inj (Prod.mk.inj (Option.some.inj rest)).2
          obtain ⟨grown, number, there⟩ := addEntry_tree tree rfl added
          refine ⟨grown, ?_⟩
          intro v same
          obtain rfl := Option.some.inj same
          rw [number]
          exact ⟨(Nat.zero_le 0).trans_lt (isDir_lt tree.root), number ▸ there⟩

theorem vnodeRdwrWrite_dir {overflow : Mm.Overflow} {v v' : Vnode} {buf : List UInt8} {offset : Nat}
    {fresh : Block} {ret : Int}
    (ran : vnodeRdwrWrite overflow v buf offset fresh = some (ret, v')) : v'.dir = v.dir := by
  unfold vnodeRdwrWrite at ran
  split at ran
  · dsimp only at ran
    split at ran
    · obtain ⟨data, -, rest⟩ := Option.bind_eq_some_iff.mp ran
      obtain ⟨-, rfl⟩ := Prod.mk.inj (Option.some.inj rest)
      rfl
    · split at ran
      · obtain ⟨data, -, rest⟩ := Option.bind_eq_some_iff.mp ran
        obtain ⟨-, rfl⟩ := Prod.mk.inj (Option.some.inj rest)
        rfl
      · obtain ⟨-, rfl⟩ := Prod.mk.inj (Option.some.inj ran)
        rfl
  · obtain ⟨-, rfl⟩ := Prod.mk.inj (Option.some.inj ran)
    rfl

theorem writeNew_tree (tree : TmpfsTree fs) {heap : Heap} {v type : Nat} {buf : List UInt8}
    {final : VnodeType} (positive : 0 < v) (there : fs.vnodes[v]? = some (madeVnode type))
    (ran : writeNew heap fs v buf final = some fs') : TmpfsTree fs' := by
  obtain ⟨vnode, present, rest⟩ := Option.bind_eq_some_iff.mp ran
  obtain ⟨⟨ret, written⟩, wrote, same⟩ := Option.bind_eq_some_iff.mp rest
  obtain rfl := Option.some.inj same
  have empty : written.dir = [] := by
    obtain rfl := Option.some.inj (present.symm.trans there)
    exact vnodeRdwrWrite_dir wrote
  constructor
  · obtain ⟨root, atRoot, directory⟩ := tree.root
    exact ⟨root, (List.getElem?_set_ne (by omega)).trans atRoot, directory⟩
  · intro w vnode' found e member
    dsimp only at found
    rw [List.length_set]
    by_cases here : v = w
    · subst here
      rw [List.getElem?_set_self (List.getElem?_eq_some_iff.mp there).1] at found
      obtain rfl := Option.some.inj found
      rw [empty] at member
      cases member
    · rw [List.getElem?_set_ne here] at found
      exact tree.links w vnode' found e member

theorem createAndWrite_tree (tree : TmpfsTree fs) {heap : Heap} {depth : Nat} {hdr buf : List UInt8}
    {final : VnodeType} {ret : Int} {fs₁ : Tmpfs} {made : Option Nat}
    (wrote : (match made with
      | some v => writeNew heap fs₁ v buf final
      | none => some fs₁) = some fs')
    (created : vfsCreate fs (heap.scratch fs.vnodes.length) depth 0 (cstring hdr) 1 =
      some (ret, fs₁, made)) : TmpfsTree fs' := by
  obtain ⟨grown, there⟩ := vfsCreate_tree tree (Or.inr rfl) created
  cases made with
  | none =>
      obtain rfl := Option.some.inj wrote
      exact grown
  | some v =>
      obtain ⟨positive, atV⟩ := there v rfl
      exact writeNew_tree grown positive atV wrote

theorem populate_tree (tree : TmpfsTree fs) {heap : Heap} {depth : Nat} {hdr : List UInt8}
    (ran : populate heap depth hdr fs = some fs') : TmpfsTree fs' := by
  unfold populate at ran
  dsimp only at ran
  split at ran
  · obtain ⟨⟨ret, fs₁, made⟩, created, same⟩ := Option.bind_eq_some_iff.mp ran
    obtain rfl := Option.some.inj same
    exact (vfsCreate_tree tree (Or.inl rfl) created).1
  · split at ran
    · obtain ⟨⟨ret, fs₁, made⟩, created, wrote⟩ := Option.bind_eq_some_iff.mp ran
      exact createAndWrite_tree tree wrote created
    · split at ran
      · obtain ⟨⟨ret, fs₁, made⟩, created, wrote⟩ := Option.bind_eq_some_iff.mp ran
        exact createAndWrite_tree tree wrote created
      · obtain rfl := Option.some.inj ran
        exact tree

theorem parseTar_tree (tree : TmpfsTree fs) {heap : Heap} {depth : Nat} {hdr : List UInt8}
    (ran : parseTar heap depth hdr fs = some fs') : TmpfsTree fs' := by
  induction hn : hdr.length using Nat.strong_induction_on generalizing hdr fs with
  | _ n ih =>
      rw [parseTar] at ran
      split at ran
      · rename_i more
        obtain ⟨fs₁, first, rest⟩ := Option.bind_eq_some_iff.mp ran
        exact ih _ (hn ▸ nextHeader_shorter hdr more) (populate_tree tree first) rest rfl
      · obtain rfl := Option.some.inj ran
        exact tree

end Built

section Create

variable {fs fs' : Tmpfs} {scratch : Scratch} {depth indir par type : Nat}
  {path last : List UInt8} {cs rest : List (List UInt8)} {c : List UInt8} {ret : Int}
  {res : Option Nat}

end Create

end Nyaux.Fs
