import Nyaux.Fs.Create

/-! What `vfs_create` does to the paths that were there before. -/

namespace Nyaux.Fs

open CString

/-- Where `vfs_create` is to put its entry. -/
def createdAt (fs : Tmpfs) (scratch : Scratch) (depth indir : Nat) (path : List UInt8) :
    Option (Nat × List UInt8) :=
  if path = [] then none
  else
    match vnodePathLookup fs scratch depth indir path true (cstring scratch.component) with
    | some ⟨some ourPar, component⟩ => some (ourPar, component)
    | _ => none

inductive Denotes (fs : Tmpfs) (par : Nat) (name : List UInt8) : Nat → List (List UInt8) → Prop
  | here : Denotes fs par name par [name]
  | down {v w : Nat} {c : List UInt8} {rest : List (List UInt8)}
      (found : vnodeLookup fs v c = some w) (directory : IsDir fs w)
      (more : Denotes fs par name w rest) : Denotes fs par name v (c :: rest)
  | link {v w : Nat} {c : List UInt8} {rest : List (List UInt8)}
      (found : vnodeLookup fs v c = some w) (symlink : IsSymlink fs w)
      (more : Denotes fs par name (startOf v (walk.link fs w)) (components slash (walk.link fs w))) :
      Denotes fs par name v (c :: rest)

def SameContents (fs fs' : Tmpfs) (v : Nat) : Prop :=
  ∀ vnode, fs.vnodes[v]? = some vnode → ∃ vnode', fs'.vnodes[v]? = some vnode' ∧
    vnode'.type = vnode.type ∧ vnode'.node = vnode.node ∧ vnode.dir <:+ vnode'.dir

/-- Every path that led to a vnode, and does not denote the created path, still leads to it. -/
def CreateKeeps (fs : Tmpfs) (scratch : Scratch) (depth indir : Nat) (path : List UInt8)
    (type : Nat) : Prop :=
  ∀ ret fs' res, vfsCreate fs scratch depth indir path type = some (ret, fs', res) →
    ∀ start q depth' v, 0 ∉ q → leadsTo fs depth' start q = some (some v) →
      (∀ par name, createdAt fs scratch depth indir path = some (par, name) →
        ¬ Denotes fs par name (startOf start q) (components slash q)) →
      leadsTo fs' depth' start q = some (some v) ∧ SameContents fs fs' v

def Spelled (name : List UInt8) : Prop := name ≠ [] ∧ slash ∉ name ∧ 0 ∉ name

def Dead (fs : Tmpfs) (par : Nat) (name : List UInt8) (v w : Nat) : Prop :=
  IsSymlink fs w ∧ ((∀ depth x, leadsTo fs depth v (walk.link fs w) ≠ some (some x)) ∨
    Denotes fs par name (startOf v (walk.link fs w)) (components slash (walk.link fs w)))

/-- Nothing is lost behind the entry that a new one of its name hides: it is a dead symlink, or
a directory that holds nothing else. -/
def Harmless (fs : Tmpfs) (par : Nat) (name : List UInt8) : Prop :=
  ∀ u, vnodeLookup fs par name = some u → Spelled name →
    Dead fs par name par u ∨
      IsDir fs u ∧ ∀ c w, Spelled c → vnodeLookup fs u c = some w → Dead fs par name u w

theorem SameContents.refl (fs : Tmpfs) (v : Nat) : SameContents fs fs v :=
  fun vnode there => ⟨vnode, there, rfl, rfl, List.suffix_refl _⟩

section Keep

variable {fs : Tmpfs} {par : Nat} {parent new : Vnode} {name : List UInt8}

theorem follow_symlink {links : Nat → List UInt8 → Option (Option Nat)} {v w : Nat}
    {c : List UInt8} (rest : List (List UInt8)) (found : vnodeLookup fs v c = some w)
    (symlink : IsSymlink fs w) :
    follow fs links v (c :: rest) = links v (walk.link fs w) := by
  rw [follow, found]
  dsimp only
  rw [type_of_isSymlink symlink]

theorem follow_dir {links : Nat → List UInt8 → Option (Option Nat)} {v w : Nat}
    {c : List UInt8} (rest : List (List UInt8)) (found : vnodeLookup fs v c = some w)
    (directory : IsDir fs w) :
    follow fs links v (c :: rest) = follow fs links w rest := by
  rw [follow, found]
  dsimp only
  rw [type_of_isDir directory]

theorem Dead.denotes {v w depth x : Nat} {c : List UInt8} {rest : List (List UInt8)}
    (dead : Dead fs par name v w) (found : vnodeLookup fs v c = some w)
    (leads : follow fs (leadsTo fs depth) v (c :: rest) = some (some x)) :
    Denotes fs par name v (c :: rest) := by
  obtain ⟨symlink, nowhere | back⟩ := dead
  · rw [follow_symlink rest found symlink] at leads
    exact absurd leads (nowhere depth x)
  · exact .link found symlink back

theorem follow_kept (tree : TmpfsTree fs) (present : fs.vnodes[par]? = some parent)
    (directory : parent.type = .dir) (harmless : Harmless fs par name) (depth : Nat) {x : Nat}
    (linked : ∀ cur target, 0 ∉ target → leadsTo fs depth cur target = some (some x) →
      ¬ Denotes fs par name (startOf cur target) (components slash target) →
      leadsTo (grow fs par parent name new) depth cur target = some (some x))
    {cs : List (List UInt8)} (spelled : ∀ c ∈ cs, Spelled c) {cur : Nat}
    (leads : follow fs (leadsTo fs depth) cur cs = some (some x))
    (other : ¬ Denotes fs par name cur cs) :
    follow (grow fs par parent name new) (leadsTo (grow fs par parent name new) depth) cur cs =
      some (some x) := by
  induction cs generalizing cur with
  | nil => exact leads
  | cons c rest ih =>
      have spelledRest := fun d member => spelled d (List.mem_cons_of_mem c member)
      cases found : vnodeLookup fs cur c with
      | none =>
          rw [follow, found] at leads
          cases Option.some.inj leads
      | some res =>
          have later := (tree.lookup found).2
          by_cases place : cur = par ∧ c = name
          · obtain ⟨rfl, rfl⟩ := place
            apply absurd _ other
            rcases harmless res found (spelled c List.mem_cons_self) with dead | ⟨dir, hidden⟩
            · exact dead.denotes found leads
            · rw [follow_dir rest found dir] at leads
              cases rest with
              | nil => exact .here
              | cons d rest =>
                  apply Denotes.down found dir
                  cases below : vnodeLookup fs res d with
                  | none =>
                      rw [follow, below] at leads
                      cases Option.some.inj leads
                  | some w =>
                      have dead := hidden d w (spelledRest d List.mem_cons_self) below
                      exact dead.denotes below leads
          · have inside := isDir_lt (isDir_of_lookup found)
            rw [follow, found] at leads
            rw [follow, lookup_grow present directory inside, if_neg place, found]
            dsimp only at leads ⊢
            rw [grow_type present later, grow_link present later]
            cases type : (fs.vnodes[res]?).map Vnode.type with
            | none =>
                rw [type] at leads
                exact leads
            | some kind =>
                rw [type] at leads
                cases kind with
                | dir =>
                    exact ih spelledRest leads fun more =>
                      other (.down found (isDir_of_type type) more)
                | file => exact leads
                | symlink =>
                    exact linked cur _ (zero_not_mem_link res) leads fun more =>
                      other (.link found (isSymlink_of_type type) more)

theorem components_spelled {q : List UInt8} (plain : 0 ∉ q) :
    ∀ c ∈ components slash q, Spelled c := by
  intro c member
  obtain ⟨nonempty, noSlash, -, bytes⟩ := mem_components slash member
  exact ⟨nonempty, noSlash, fun zero => plain (bytes 0 zero)⟩

theorem leadsTo_kept (tree : TmpfsTree fs) (present : fs.vnodes[par]? = some parent)
    (directory : parent.type = .dir) (harmless : Harmless fs par name) (depth : Nat) {start x : Nat}
    {q : List UInt8} (plain : 0 ∉ q) (leads : leadsTo fs depth start q = some (some x))
    (other : ¬ Denotes fs par name (startOf start q) (components slash q)) :
    leadsTo (grow fs par parent name new) depth start q = some (some x) := by
  induction depth generalizing start q with
  | zero => cases leads
  | succ depth ih =>
      rw [leadsTo] at leads ⊢
      apply follow_kept tree present directory harmless depth _ (components_spelled plain) leads other
      intro cur target plain' leads' other'
      exact ih plain' leads' other'

theorem sameContents_grow (present : fs.vnodes[par]? = some parent) (v : Nat) :
    SameContents fs (grow fs par parent name new) v := by
  intro vnode found
  have inside := (List.getElem?_eq_some_iff.mp found).1
  by_cases same : v = par
  · subst same
    obtain rfl := Option.some.inj (present.symm.trans found)
    exact ⟨linkTo fs parent name, grow_par inside, rfl, rfl, List.suffix_cons _ _⟩
  · exact ⟨vnode, (grow_old same inside).trans found, rfl, rfl, List.suffix_refl _⟩

end Keep

section Hide

variable {fs : Tmpfs} {scratch : Scratch} {depth indir par type : Nat} {path name : List UInt8}
  {parent : Vnode}

theorem components_two {name c : List UInt8} (left : Spelled name) (right : Spelled c) :
    components slash (name ++ slash :: c) = [name, c] ∧ 0 ∉ name ++ slash :: c ∧
      ∀ start, startOf start (name ++ slash :: c) = start := by
  obtain ⟨nonempty, noSlash, noZero⟩ := left
  obtain ⟨nonempty', noSlash', noZero'⟩ := right
  refine ⟨?_, ?_, ?_⟩
  · rw [components_head slash name _ nonempty noSlash (Or.inr ⟨c, rfl⟩), components_sep,
      components_word slash c nonempty' noSlash']
  · rw [List.mem_append, List.mem_cons, not_or, not_or]
    exact ⟨noZero, by decide, noZero'⟩
  · intro start
    obtain ⟨b, rest, rfl⟩ := List.exists_cons_of_ne_nil nonempty
    apply if_neg
    intro same
    obtain rfl : b = slash := Option.some.inj same
    exact noSlash List.mem_cons_self

theorem createdAt_some (at' : createdAt fs scratch depth indir path = some (par, name)) :
    path ≠ [] ∧ vnodePathLookup fs scratch depth indir path true (cstring scratch.component) =
      some ⟨some par, name⟩ := by
  unfold createdAt at at'
  split at at'
  · cases at'
  · rename_i nonempty
    refine ⟨nonempty, ?_⟩
    split at at'
    · rename_i ourPar component found
      obtain ⟨rfl, rfl⟩ := Prod.mk.inj (Option.some.inj at')
      exact found
    · cases at'

theorem hidden_lost (tree : TmpfsTree fs) (kind : type = 0 ∨ type = 1)
    (at' : createdAt fs scratch depth indir path = some (par, name))
    (present : fs.vnodes[par]? = some parent) (directory : parent.type = .dir)
    (keeps : CreateKeeps fs scratch depth indir path type) {c : List UInt8} (depth' x : Nat)
    (left : Spelled name) (right : Spelled c)
    (leads : follow fs (leadsTo fs depth') par [name, c] = some (some x))
    (other : ¬ Denotes fs par name par [name, c]) : False := by
  obtain ⟨names, plain, start⟩ := components_two left right
  have inside := (List.getElem?_eq_some_iff.mp present).1
  have before : leadsTo fs (depth' + 1) par (name ++ slash :: c) = some (some x) := by
    rw [leadsTo, start, names]
    exact leads
  obtain ⟨nonempty, walked⟩ := createdAt_some at'
  have ran := create_in kind nonempty walked present directory
  obtain ⟨after, -⟩ := keeps _ _ _ ran par _ (depth' + 1) x plain before <| by
    intro par' name' same
    obtain ⟨rfl, rfl⟩ := Prod.mk.inj (Option.some.inj (at'.symm.trans same))
    rw [start, names]
    exact other
  have bound := tree.leadsTo_lt inside before
  rw [leadsTo, start, names, follow, lookup_grow present directory inside, if_pos ⟨rfl, rfl⟩] at after
  dsimp only at after
  rw [grow_new, Option.map_some, madeVnode] at after
  by_cases zero : type = 0
  · rw [if_pos zero, newVnode] at after
    dsimp only at after
    rw [follow, lookup_grow_new rfl] at after
    cases Option.some.inj after
  · rw [if_neg zero, newVnode] at after
    have same := Option.some.inj (Option.some.inj after)
    omega

theorem Denotes.cases_head {v u : Nat} {c : List UInt8} {rest : List (List UInt8)}
    (denotes : Denotes fs par name v (c :: rest)) (found : vnodeLookup fs v c = some u) :
    (v = par ∧ rest = []) ∨ (IsDir fs u ∧ Denotes fs par name u rest) ∨
      (IsSymlink fs u ∧ Denotes fs par name (startOf v (walk.link fs u))
        (components slash (walk.link fs u))) := by
  cases denotes with
  | here => exact Or.inl ⟨rfl, rfl⟩
  | down found' directory more =>
      obtain rfl := Option.some.inj (found.symm.trans found')
      exact Or.inr (Or.inl ⟨directory, more⟩)
  | link found' symlink more =>
      obtain rfl := Option.some.inj (found.symm.trans found')
      exact Or.inr (Or.inr ⟨symlink, more⟩)

theorem leads_of_not_dead {v w : Nat} (symlink : IsSymlink fs w) (alive : ¬ Dead fs par name v w) :
    (∃ depth' x, leadsTo fs depth' v (walk.link fs w) = some (some x)) ∧
      ¬ Denotes fs par name (startOf v (walk.link fs w)) (components slash (walk.link fs w)) := by
  constructor
  · by_contra nowhere
    push Not at nowhere
    exact alive ⟨symlink, Or.inl nowhere⟩
  · intro back
    exact alive ⟨symlink, Or.inr back⟩

theorem type_unique {v : Nat} {a b : VnodeType} (different : a ≠ b)
    (left : (fs.vnodes[v]?).map Vnode.type = some a)
    (right : (fs.vnodes[v]?).map Vnode.type = some b) : False :=
  different (Option.some.inj (left.symm.trans right))

theorem harmless_of_keeps (tree : TmpfsTree fs) (kind : type = 0 ∨ type = 1)
    (keeps : CreateKeeps fs scratch depth indir path type)
    (at' : createdAt fs scratch depth indir path = some (par, name)) (directory : IsDir fs par) :
    Harmless fs par name := by
  obtain ⟨parent, present, dirType⟩ := directory
  intro u found left
  have lost {c : List UInt8} (right : Spelled c) (depth' x : Nat) :=
    hidden_lost tree kind at' present dirType keeps depth' x left right
  have one : Spelled [1] := ⟨by decide, by decide, by decide⟩
  obtain ⟨vnode, there⟩ := tree.present found
  by_contra bad
  rw [not_or] at bad
  have uType : (fs.vnodes[u]?).map Vnode.type = some vnode.type := by rw [there, Option.map_some]
  cases kindU : vnode.type with
  | file =>
      rw [kindU] at uType
      refine lost one 0 u ?_ ?_
      · rw [follow, found]
        dsimp only
        rw [uType]
      · intro denotes
        rcases denotes.cases_head found with ⟨-, more⟩ | ⟨dir, -⟩ | ⟨symlink, -⟩
        · cases more
        · exact type_unique (by decide) uType (type_of_isDir dir)
        · exact type_unique (by decide) uType (type_of_isSymlink symlink)
  | symlink =>
      rw [kindU] at uType
      obtain ⟨⟨depth', x, leads⟩, away⟩ := leads_of_not_dead (isSymlink_of_type uType) bad.1
      refine lost one depth' x ?_ ?_
      · rw [follow_symlink _ found (isSymlink_of_type uType)]
        exact leads
      · intro denotes
        rcases denotes.cases_head found with ⟨-, more⟩ | ⟨dir, -⟩ | ⟨-, back⟩
        · cases more
        · exact type_unique (by decide) uType (type_of_isDir dir)
        · exact away back
  | dir =>
      rw [kindU] at uType
      have dirU := isDir_of_type uType
      have alive : ∃ c w, Spelled c ∧ vnodeLookup fs u c = some w ∧ ¬ Dead fs par name u w := by
        by_contra none
        push Not at none
        exact bad.2 ⟨dirU, none⟩
      obtain ⟨c, w, right, below, alive⟩ := alive
      obtain ⟨child, thereW⟩ := tree.present below
      have wType : (fs.vnodes[w]?).map Vnode.type = some child.type := by
        rw [thereW, Option.map_some]
      -- the path denotes the created entry only if its second component is a link back
      have inner (denotes : Denotes fs par name par [name, c]) : Denotes fs par name u [c] := by
        rcases denotes.cases_head found with ⟨-, more⟩ | ⟨-, more⟩ | ⟨symlink, -⟩
        · cases more
        · exact more
        · exact (type_unique (by decide) uType (type_of_isSymlink symlink)).elim
      have deeper := (tree.lookup found).1
      cases kindW : child.type with
      | dir =>
          rw [kindW] at wType
          refine lost right 0 w ?_ ?_
          · rw [follow_dir _ found dirU, follow_dir _ below (isDir_of_type wType), follow]
          · intro denotes
            rcases (inner denotes).cases_head below with ⟨same, -⟩ | ⟨-, more⟩ | ⟨symlink, -⟩
            · omega
            · cases more
            · exact type_unique (by decide) wType (type_of_isSymlink symlink)
      | file =>
          rw [kindW] at wType
          refine lost right 0 w ?_ ?_
          · rw [follow_dir _ found dirU, follow, below]
            dsimp only
            rw [wType]
          · intro denotes
            rcases (inner denotes).cases_head below with ⟨same, -⟩ | ⟨dir, -⟩ | ⟨symlink, -⟩
            · omega
            · exact type_unique (by decide) wType (type_of_isDir dir)
            · exact type_unique (by decide) wType (type_of_isSymlink symlink)
      | symlink =>
          rw [kindW] at wType
          obtain ⟨⟨depth', x, leads⟩, away⟩ := leads_of_not_dead (isSymlink_of_type wType) alive
          refine lost right depth' x ?_ ?_
          · rw [follow_dir _ found dirU, follow_symlink _ below (isSymlink_of_type wType)]
            exact leads
          · intro denotes
            rcases (inner denotes).cases_head below with ⟨same, -⟩ | ⟨-, more⟩ | ⟨-, back⟩
            · omega
            · cases more
            · exact away back

end Hide

/-- Creating keeps every other path exactly when it hides nothing. -/
theorem create_keeps_iff (fs : Tmpfs) (scratch : Scratch) (depth indir : Nat) (path : List UInt8)
    (type : Nat) (tree : TmpfsTree fs) (kind : type = 0 ∨ type = 1) :
    CreateKeeps fs scratch depth indir path type ↔
      ∀ par name, createdAt fs scratch depth indir path = some (par, name) → IsDir fs par →
        Harmless fs par name := by
  constructor
  · intro keeps par name at' directory
    exact harmless_of_keeps tree kind keeps at' directory
  · intro harmless ret fs' res ran start q depth' v plain leads other
    by_cases nonempty : path = []
    · rw [vfsCreate, if_pos nonempty] at ran
      obtain ⟨rfl, -⟩ := Prod.mk.inj (Prod.mk.inj (Option.some.inj ran)).2
      exact ⟨leads, SameContents.refl fs v⟩
    have walked := ran
    rw [vfsCreate_eq kind nonempty] at walked
    obtain ⟨⟨vnode, name⟩, found, -⟩ := Option.bind_eq_some_iff.mp walked
    cases vnode with
    | none =>
        rw [create_refused kind nonempty found] at ran
        obtain ⟨rfl, -⟩ := Prod.mk.inj (Prod.mk.inj (Option.some.inj ran)).2
        exact ⟨leads, SameContents.refl fs v⟩
    | some par =>
        have at' : createdAt fs scratch depth indir path = some (par, name) := by
          rw [createdAt, if_neg nonempty, found]
        by_cases directory : IsDir fs par
        · have spared := harmless par name at' directory
          obtain ⟨parent, present, dirType⟩ := directory
          rw [create_in kind nonempty found present dirType] at ran
          obtain ⟨rfl, -⟩ := Prod.mk.inj (Prod.mk.inj (Option.some.inj ran)).2
          exact ⟨leadsTo_kept tree present dirType spared depth' plain leads (other par name at'),
            sameContents_grow present v⟩
        · rw [create_null kind nonempty found directory] at ran
          obtain ⟨rfl, -⟩ := Prod.mk.inj (Prod.mk.inj (Option.some.inj ran)).2
          exact ⟨leads, SameContents.refl fs v⟩

/-- A root with a directory `d` that holds a file `f`. -/
def smallTree : Tmpfs where
  vnodes :=
    [{ newVnode .dir with dir := [⟨[100], 1⟩] }, { newVnode .dir with dir := [⟨[102], 2⟩] },
      newVnode .file]

theorem smallTree_tree : TmpfsTree smallTree := by
  refine ⟨⟨_, rfl, rfl⟩, ?_⟩
  intro v vnode present e member
  match v, present with
  | 0, rfl =>
      obtain rfl := List.mem_singleton.mp member
      exact ⟨by decide, by decide⟩
  | 1, rfl =>
      obtain rfl := List.mem_singleton.mp member
      exact ⟨by decide, by decide⟩
  | 2, rfl => cases member

theorem create_keeps_iff_new_name : CreateKeeps smallTree ⟨[], []⟩ 1 0 [101] 0 := by
  apply (create_keeps_iff smallTree ⟨[], []⟩ 1 0 [101] 0 smallTree_tree (Or.inl rfl)).mpr
  intro par name at' _ u found
  have place : createdAt smallTree ⟨[], []⟩ 1 0 [101] = some (0, [101]) := by decide
  obtain ⟨rfl, rfl⟩ := Prod.mk.inj (Option.some.inj (place.symm.trans at'))
  cases found

/-- Making `d` again hides `d/f`. -/
theorem create_hides_children : ¬ ∀ fs scratch depth indir path type, TmpfsTree fs → IsDir fs indir →
    0 ∉ path → type = 0 ∨ type = 1 → CreateKeeps fs scratch depth indir path type := by
  intro always
  have keeps := always smallTree ⟨[], []⟩ 1 0 [100] 0 smallTree_tree smallTree_tree.root (by decide)
    (Or.inl rfl)
  have place : createdAt smallTree ⟨[], []⟩ 1 0 [100] = some (0, [100]) := by decide
  have harmless := harmless_of_keeps smallTree_tree (Or.inl rfl) keeps place
    smallTree_tree.root
  rcases harmless 1 rfl ⟨by decide, by decide, by decide⟩ with ⟨⟨d, atD, symlink⟩, -⟩ | ⟨-, hidden⟩
  · obtain rfl := Option.some.inj atD
    cases symlink
  · obtain ⟨⟨f, atF, symlink⟩, -⟩ := hidden [102] 2 ⟨by decide, by decide, by decide⟩ rfl
    obtain rfl := Option.some.inj atF
    cases symlink

end Nyaux.Fs
