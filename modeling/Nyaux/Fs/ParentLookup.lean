import Nyaux.Fs.PathCompose

/-! When get-parent lookup depends on the path alone.

The flag for the last component comes from a scan over the zeros behind a component, which does
not stop at the end of the path. -/

namespace Nyaux.Fs

open CString

/-- The vnode and the string in `component` are the same whatever the heap and that buffer held. -/
def Independent (fs : Tmpfs) (dir : Nat) (path : List UInt8) : Prop :=
  ∀ depth scratch scratch' last last',
    vnodePathLookup fs scratch depth dir path true last =
      vnodePathLookup fs scratch' depth dir path true last'

/-- The indices that the scan of `islast` reads from `j` on. -/
def scanReads : Nat → List UInt8 → List Nat
  | j, [] => [j]
  | j, c :: rest => j :: if c = 0 then scanReads (j + 1) rest else []

def islastReads (work : List UInt8) (pathlen i lenOfComp : Nat) : List Nat :=
  if i + lenOfComp = pathlen then [] else scanReads (i + lenOfComp) (work.drop (i + lenOfComp))

section Reads

variable (fs : Tmpfs) (work : List UInt8) (pathlen : Nat)

/-- What the scans of `walk` in get-parent mode read. -/
def walkReads : Nat → Nat → Nat → List Nat
  | 0, _, _ => []
  | fuel + 1, i, cur =>
      if i < pathlen then
        if work.getD i 0 = 0 then walkReads fuel (i + 1) cur
        else
          let component := cstring (work.drop i)
          islastReads work pathlen i component.length ++
            if islast work pathlen i component.length then []
            else
              match vnodeLookup fs cur component with
              | some res =>
                  if (fs.vnodes[res]?).map Vnode.type = some .dir then
                    walkReads fuel (i + component.length + 1) res
                  else []
              | none => []
      else []

end Reads

/-- No scan over the private copy of the path reads behind its terminator. -/
def ScansInside (fs : Tmpfs) (dir : Nat) (path : List UInt8) : Prop :=
  ∀ scratch : Scratch, ∀ j ∈ walkReads fs (workBuffer path scratch.garbage) path.length
    (path.length + 1) 0 (startOf dir path), j ≤ path.length

/-- A path that ends in a slash, and whose last component is reached from `cur`. -/
def RunsOver (fs : Tmpfs) (cur : Nat) (q : List UInt8) : Prop :=
  q.getLast? = some slash ∧ components slash q ≠ [] ∧
    ∃ par, ending fs cur (components slash q).dropLast = .directory par

/-- There is a component; the walk reaches the last one in a directory, and it ends the path or is
not there; or an earlier one is missing, or a symlink that does not lead back. -/
def PathDecides (fs : Tmpfs) (dir : Nat) (path : List UInt8) : Prop :=
  ∃ front c, components slash path = front ++ [c] ∧
    match ending fs (startOf dir path) front with
    | .directory par => path.getLast? ≠ some slash ∨ vnodeLookup fs par c = none
    | .missing => True
    | .file _ => False
    | .link d s => ∀ result, ¬Resolves fs d (walk.link fs s) result

section Steps

theorem steps_more (fs : Tmpfs) (links : Nat → List UInt8 → Option (Option Nat)) (flag : Bool)
    (cur : Nat) (b : List UInt8) (front : List (List UInt8)) (c last : List UInt8) :
    steps fs links true flag cur (b :: front ++ [c]) last =
      match vnodeLookup fs cur b with
      | some res =>
          match (fs.vnodes[res]?).map Vnode.type with
          | some .dir => steps fs links true flag res (front ++ [c]) last
          | some .symlink => (links cur (walk.link fs res)).map fun vnode => ⟨vnode, last⟩
          | _ => some ⟨some res, last⟩
      | none => some ⟨some cur, b⟩ := by
  rw [List.cons_append, steps, if_neg (by simp)]
  rfl

theorem steps_front (fs : Tmpfs) (cur : Nat) (front : List (List UInt8)) (c : List UInt8) :
    match ending fs cur front with
    | .directory par => ∀ links flag last,
        steps fs links true flag cur (front ++ [c]) last = steps fs links true flag par [c] last
    | .missing => ∃ found, ∀ links flag last,
        steps fs links true flag cur (front ++ [c]) last = some found
    | .file v => ∀ links flag last,
        steps fs links true flag cur (front ++ [c]) last = some ⟨some v, last⟩
    | .link d s => ∀ links flag last,
        steps fs links true flag cur (front ++ [c]) last =
          (links d (walk.link fs s)).map fun vnode => ⟨vnode, last⟩ := by
  induction front generalizing cur with
  | nil => exact fun _ _ _ => rfl
  | cons b front ih =>
      simp only [steps_more, ending]
      cases vnodeLookup fs cur b with
      | none => exact ⟨_, fun _ _ _ => rfl⟩
      | some res =>
          dsimp only
          cases (fs.vnodes[res]?).map Vnode.type with
          | none => exact fun _ _ _ => rfl
          | some type =>
              cases type with
              | dir => exact ih res
              | file => exact fun _ _ _ => rfl
              | symlink => exact fun _ _ _ => rfl

theorem steps_last (fs : Tmpfs) (links : Nat → List UInt8 → Option (Option Nat)) (flag : Bool)
    (par : Nat) (c last : List UInt8) :
    steps fs links true flag par [c] last =
      if flag = true then some ⟨some par, c⟩
      else
        match vnodeLookup fs par c with
        | some res =>
            match (fs.vnodes[res]?).map Vnode.type with
            | some .symlink => (links par (walk.link fs res)).map fun vnode => ⟨vnode, last⟩
            | _ => some ⟨some res, last⟩
        | none => some ⟨some par, c⟩ := by
  rw [steps]
  cases flag with
  | true => rfl
  | false =>
      simp only [Bool.false_eq_true, false_and, and_false, if_false, if_true]
      cases vnodeLookup fs par c with
      | none => rfl
      | some res =>
          dsimp only
          cases (fs.vnodes[res]?).map Vnode.type with
          | none => rfl
          | some type =>
              cases type with
              | dir => rfl
              | file => rfl
              | symlink => rfl

end Steps

section Independence

variable {fs : Tmpfs} {dir : Nat} {path : List UInt8}

def linksOf (fs : Tmpfs) (scratch : Scratch) (depth cur : Nat) (target : List UInt8) :
    Option (Option Nat) :=
  (vnodePathLookup fs scratch depth cur target false []).map Found.vnode

theorem vnodePathLookup_steps (scratch : Scratch) (depth : Nat) (last : List UInt8)
    (plain : 0 ∉ path) :
    vnodePathLookup fs scratch (depth + 1) dir path true last =
      steps fs (linksOf fs scratch depth) true (lastFlag path scratch.garbage) (startOf dir path)
        (components slash path) last :=
  vnodePathLookup_eq fs scratch depth dir path true last plain

theorem linksOf_link (scratch : Scratch) (depth cur res : Nat) :
    linksOf fs scratch depth cur (walk.link fs res) = leadsTo fs depth cur (walk.link fs res) :=
  vnodePathLookup_leadsTo scratch depth cur _ [] (zero_not_mem_link res)

theorem leadsTo_none {cur : Nat} {target : List UInt8} (dead : ∀ result, ¬Resolves fs cur target result)
    (depth : Nat) : leadsTo fs depth cur target = none := by
  cases leads : leadsTo fs depth cur target with
  | none => rfl
  | some result => exact absurd (resolves_of_leadsTo leads) (dead result)

theorem independent_of_decides (plain : 0 ∉ path) (decides : PathDecides fs dir path) :
    Independent fs dir path := by
  obtain ⟨front, c, names, law⟩ := decides
  intro depth scratch scratch' last last'
  cases depth with
  | zero => rfl
  | succ depth =>
      rw [vnodePathLookup_steps scratch depth last plain,
        vnodePathLookup_steps scratch' depth last' plain, names]
      have way := steps_front fs (startOf dir path) front c
      cases ends : ending fs (startOf dir path) front with
      | directory par =>
          rw [ends] at way law
          rw [way, way, steps_last, steps_last]
          rcases law with whole | absent
          · rw [lastFlag, lastFlag, decide_eq_true whole]
            simp
          · simp only [absent, ite_self]
      | missing =>
          rw [ends] at way
          obtain ⟨found, same⟩ := way
          rw [same, same]
      | file v =>
          rw [ends] at law
          exact law.elim
      | link d s =>
          rw [ends] at way law
          rw [way, way, linksOf_link, linksOf_link, leadsTo_none law]
          rfl

theorem found_last_ne {vnode vnode' : Option Nat} :
    (⟨vnode, []⟩ : Found) ≠ ⟨vnode', [1]⟩ := by
  intro same
  cases congrArg Found.componentlast same

theorem decides_of_independent (plain : 0 ∉ path) (independent : Independent fs dir path) :
    PathDecides fs dir path := by
  have differs (depth : Nat) (scratch : Scratch) :
      steps fs (linksOf fs scratch depth) true (lastFlag path scratch.garbage) (startOf dir path)
        (components slash path) [] =
      steps fs (linksOf fs scratch depth) true (lastFlag path scratch.garbage) (startOf dir path)
        (components slash path) [1] := by
    rw [← vnodePathLookup_steps scratch depth [] plain, ← vnodePathLookup_steps scratch depth [1] plain]
    exact independent (depth + 1) scratch scratch [] [1]
  rcases List.eq_nil_or_concat' (components slash path) with none | ⟨front, c, names⟩
  · have same := differs 0 ⟨[], []⟩
    rw [none] at same
    exact absurd (Option.some.inj same) found_last_ne
  · refine ⟨front, c, names, ?_⟩
    have way := steps_front fs (startOf dir path) front c
    rw [names] at differs
    cases ends : ending fs (startOf dir path) front with
    | directory par =>
        rw [ends] at way
        dsimp only
        by_contra neither
        push Not at neither
        obtain ⟨slashed, there⟩ := neither
        -- with a zero behind the copy of the path the flag is down, and the buffer may hold `c 1`
        have same := independent 1 ⟨[], []⟩ ⟨[0], []⟩ [] (c ++ [1])
        have up : lastFlag path [] = true := by
          rw [lastFlag, decide_eq_true (p := ([] : List UInt8).head? ≠ some 0) (by decide), Bool.or_true]
        have down : lastFlag path [0] = false := by
          rw [lastFlag, slashed]
          decide
        rw [vnodePathLookup_steps _ 0 _ plain, vnodePathLookup_steps _ 0 _ plain, names, way, way,
          steps_last, steps_last, up, down, if_pos rfl, if_neg (by decide)] at same
        obtain ⟨res, found⟩ := Option.ne_none_iff_exists'.mp there
        have longer : c ≠ c ++ [1] := by simp
        rw [found] at same
        dsimp only at same
        split at same
        · rw [linksOf_link] at same
          cases same
        · exact longer (congrArg Found.componentlast (Option.some.inj same))
    | missing => trivial
    | file v =>
        rw [ends] at way
        have same := differs 0 ⟨[], []⟩
        rw [way, way] at same
        exact absurd (Option.some.inj same) found_last_ne
    | link d s =>
        rw [ends] at way
        intro result resolves
        obtain ⟨depth, leads⟩ := resolves.leadsTo
        have same := differs depth ⟨[], []⟩
        rw [way, way, linksOf_link, leads] at same
        exact absurd (Option.some.inj same) found_last_ne

end Independence

section Reads

variable {fs : Tmpfs} {follow : Nat → List UInt8 → Option (Option Nat)} {path : List UInt8}
  {pathlen : Nat}

theorem scanReads_le (j : Nat) (bytes : List UInt8) : ∀ k ∈ scanReads j bytes, j ≤ k := by
  induction bytes generalizing j with
  | nil =>
      intro k member
      rw [List.mem_singleton.mp member]
  | cons c rest ih =>
      intro k member
      rcases List.mem_cons.mp member with rfl | later
      · exact le_refl k
      · split at later
        · exact (Nat.le_succ j).trans (ih (j + 1) k later)
        · cases later

theorem scanZeros_congr (j : Nat) (bytes bytes' : List UInt8) (flag : Bool)
    (same : ∀ k ∈ scanReads j bytes, bytes[k - j]? = bytes'[k - j]?) :
    scanZeros pathlen j bytes flag = scanZeros pathlen j bytes' flag := by
  induction bytes generalizing j bytes' flag with
  | nil =>
      have here := same j List.mem_cons_self
      rw [Nat.sub_self, List.getElem?_nil] at here
      rw [List.eq_nil_of_length_eq_zero (Nat.le_zero.mp (List.getElem?_eq_none_iff.mp here.symm))]
  | cons c rest ih =>
      have here := same j List.mem_cons_self
      rw [Nat.sub_self, List.getElem?_cons_zero] at here
      cases bytes' with
      | nil => cases here
      | cons c' rest' =>
          obtain rfl : c = c' := Option.some.inj here
          rw [scanZeros, scanZeros]
          split
          · rename_i zero
            apply ih
            intro k member
            have later := scanReads_le _ _ k member
            have further := same k (by
              rw [scanReads, if_pos zero]
              exact List.mem_cons_of_mem _ member)
            rwa [show k - j = k - (j + 1) + 1 by omega, List.getElem?_cons_succ,
              List.getElem?_cons_succ] at further
          · rfl

theorem islast_congr {work work' : List UInt8} {i lenOfComp : Nat}
    (same : ∀ k ∈ islastReads work pathlen i lenOfComp, work[k]? = work'[k]?) :
    islast work pathlen i lenOfComp = islast work' pathlen i lenOfComp := by
  rw [islast, islast]
  split
  · rfl
  · rename_i inside
    rw [islastReads, if_neg inside] at same
    apply scanZeros_congr
    intro k member
    have later := scanReads_le _ _ k member
    rw [List.getElem?_drop, List.getElem?_drop, Nat.add_sub_cancel' later]
    exact same k member

theorem walk_congr (garbage garbage' : List UInt8) (fuel i cur : Nat) (last : List UInt8)
    (same : ∀ k ∈ walkReads fs (workBuffer path garbage) path.length fuel i cur,
      (workBuffer path garbage)[k]? = (workBuffer path garbage')[k]?) :
    walk fs follow true (workBuffer path garbage) path.length fuel i cur last =
      walk fs follow true (workBuffer path garbage') path.length fuel i cur last := by
  induction fuel generalizing i cur with
  | zero => rfl
  | succ fuel ih =>
      rw [walkReads] at same
      rw [walk, walk]
      split
      · rename_i inside
        rw [if_pos inside] at same
        have mapped : i < (path.map fun c => if c = slash then 0 else c).length := by
          rwa [List.length_map]
        have byte : (workBuffer path garbage).getD i 0 = (workBuffer path garbage').getD i 0 := by
          rw [workBuffer, workBuffer, List.getD_append _ _ _ _ mapped,
            List.getD_append _ _ _ _ mapped]
        have component : cstring ((workBuffer path garbage).drop i) =
            cstring ((workBuffer path garbage').drop i) := by
          have split (heap : List UInt8) : (workBuffer path heap).drop i =
              ((path.map fun c => if c = slash then 0 else c).drop i ++ [0]) ++ heap := by
            rw [workBuffer, List.drop_append_of_le_length mapped.le, List.append_assoc]
            rfl
          rw [split, split]
          exact (cstring_append _ _ (by simp)).trans (cstring_append _ _ (by simp)).symm
        rw [← byte, ← component]
        split
        · rename_i zero
          rw [if_pos zero] at same
          exact ih (i + 1) cur same
        · rename_i nonzero
          rw [if_neg nonzero] at same
          dsimp only at same ⊢
          have flag := islast_congr fun k member => same k (List.mem_append_left _ member)
          rw [← flag, Bool.and_true]
          by_cases final : islast (workBuffer path garbage) path.length i
              (cstring ((workBuffer path garbage).drop i)).length = true
          · rw [if_pos final, if_pos final]
          · rw [if_neg final] at same
            rw [if_neg final, if_neg final]
            cases found : vnodeLookup fs cur (cstring ((workBuffer path garbage).drop i)) with
            | none => rfl
            | some res =>
                rw [found] at same
                dsimp only at same ⊢
                cases kind : (fs.vnodes[res]?).map Vnode.type with
                | none => rfl
                | some type =>
                    cases type with
                    | dir =>
                        rw [if_pos kind] at same
                        exact ih _ res fun k member => same k (List.mem_append_right _ member)
                    | file => rfl
                    | symlink => rfl
      · rfl

end Reads

section Scans

theorem scanReads_inside (q rest : List UInt8) (j : Nat) (more : components slash q ≠ [])
    (plain : 0 ∉ q) : ∀ k ∈ scanReads j (q.map terminate ++ rest), k < j + q.length := by
  induction q generalizing j with
  | nil => exact absurd (components_nil slash) more
  | cons c q ih =>
      intro k member
      rw [List.map_cons, List.cons_append, scanReads] at member
      rw [List.length_cons]
      rcases List.mem_cons.mp member with rfl | later
      · omega
      · split at later
        · rename_i zero
          have same : c = slash := by
            by_contra other
            have byte : terminate c = c := if_neg other
            rw [byte] at zero
            exact plain (zero ▸ List.mem_cons_self)
          subst same
          rw [components_sep] at more
          have inside := ih (j + 1) more (fun member => plain (List.mem_cons_of_mem _ member)) k later
          omega
        · cases later

theorem scanReads_behind (q garbage : List UInt8) (j : Nat) (none : components slash q = []) :
    j + q.length + 1 ∈ scanReads j (q.map terminate ++ 0 :: garbage) := by
  induction q generalizing j with
  | nil =>
      rw [List.map_nil, List.nil_append, scanReads, if_pos rfl, List.length_nil]
      refine List.mem_cons_of_mem _ ?_
      cases garbage with
      | nil => exact List.mem_cons_self
      | cons b garbage => exact List.mem_cons_self
  | cons c q ih =>
      obtain rfl := slashes_only _ none c List.mem_cons_self
      rw [components_sep] at none
      have later := ih (j + 1) none
      rw [List.map_cons, List.cons_append, scanReads, if_pos (by simp [terminate]), List.length_cons]
      refine List.mem_cons_of_mem _ ?_
      rwa [show j + (q.length + 1) + 1 = j + 1 + q.length + 1 by omega]

variable {fs : Tmpfs} {work garbage : List UInt8} {pathlen : Nat}

theorem not_runsOver_nothing {cur : Nat} {q : List UInt8} (none : components slash q = []) :
    ¬RunsOver fs cur q := fun runsOver => runsOver.2.1 none

theorem runsOver_word {cur : Nat} {word more : List UInt8} (nonempty : word ≠ [])
    (wordPlain : slash ∉ word) (onward : components slash more ≠ []) :
    RunsOver fs cur (word ++ slash :: more) ↔ ∃ res, vnodeLookup fs cur word = some res ∧
      (fs.vnodes[res]?).map Vnode.type = some .dir ∧ RunsOver fs res more := by
  have some_ : more ≠ [] := by
    rintro rfl
    exact onward (components_nil slash)
  unfold RunsOver
  rw [components_word_sep slash word more nonempty wordPlain,
    List.getLast?_append_of_ne_nil _ (List.cons_ne_nil slash more), List.getLast?_cons_of_ne_nil some_,
    List.dropLast_cons_of_ne_nil onward, ending]
  cases vnodeLookup fs cur word with
  | none => simp
  | some res =>
      simp only [Option.some.injEq, exists_eq_left']
      generalize (fs.vnodes[res]?).map Vnode.type = type
      cases type with
      | none => simp
      | some type =>
          cases type with
          | dir => simp [onward]
          | file => simp
          | symlink => simp

theorem walkReads_inside_iff (fs : Tmpfs) (q : List UInt8) (plain : 0 ∉ q) (fuel i cur : Nat)
    (enough : q.length < fuel) (position : i + q.length = pathlen)
    (buffer : work.drop i = q.map terminate ++ 0 :: garbage) :
    (∀ j ∈ walkReads fs work pathlen fuel i cur, j ≤ pathlen) ↔ ¬RunsOver fs cur q := by
  induction hn : q.length using Nat.strong_induction_on generalizing q fuel i cur with
  | _ n ih =>
      obtain ⟨fuel, rfl⟩ : ∃ m, fuel = m + 1 := ⟨fuel - 1, by omega⟩
      cases q with
      | nil =>
          rw [List.length_nil] at position
          rw [walkReads, if_neg (by omega)]
          exact iff_of_true (fun _ member => absurd member List.not_mem_nil)
            (not_runsOver_nothing (components_nil slash))
      | cons x q =>
          have inside : i < pathlen := by
            simp only [List.length_cons] at position
            omega
          have byte : work.getD i 0 = terminate x := by
            have := congrArg (fun l => l.getD 0 0) buffer
            simpa [List.getD_eq_getElem?_getD, List.getElem?_drop] using this
          rw [walkReads, if_pos inside, byte]
          by_cases same : x = slash
          · subst same
            simp only [List.length_cons] at hn enough position
            rw [if_pos (by simp [terminate])]
            have later := ih q.length (by omega) q (fun member => plain (List.mem_cons_of_mem _ member))
              fuel (i + 1) cur (by omega) (by omega) (by rw [← List.drop_drop, buffer]; rfl) rfl
            rw [later, RunsOver, RunsOver, components_sep]
            cases q with
            | nil => simp [components_nil]
            | cons y q => rw [List.getLast?_cons_cons]
          · have nonzero : x ≠ 0 := fun zero => plain (zero ▸ List.mem_cons_self)
            rw [if_neg (by simpa [terminate, same] using nonzero)]
            obtain ⟨word, rest, split, nonempty, wordPlain, ending⟩ := word_split slash x q same
            rw [split] at plain buffer position enough hn ⊢
            have wordBytes : 0 ∉ word := fun member => plain (List.mem_append_left _ member)
            have component : cstring (work.drop i) = word := by
              rw [buffer, List.map_append, map_terminate word wordPlain, List.append_assoc]
              rcases ending with rfl | ⟨more, rfl⟩
              · exact cstring_append_zero word garbage wordBytes
              · exact cstring_append_zero word _ wordBytes
            have final := islast_eq (lastFlag (word ++ rest) garbage) work garbage pathlen word rest i
              wordPlain plain position buffer ending rfl
            have behind : work.drop (i + word.length) = rest.map terminate ++ 0 :: garbage := by
              rw [← List.drop_drop, buffer, List.map_append, map_terminate word wordPlain,
                List.append_assoc, List.drop_left]
            rw [component]
            dsimp only
            rw [List.length_append] at position enough hn
            rcases ending with rfl | ⟨more, rfl⟩
            · -- the component ends the path
              have last : islast work pathlen i word.length = true := by
                rw [islast, if_pos (by simpa using position)]
              rw [last, if_pos rfl, islastReads, if_pos (by simpa using position)]
              refine iff_of_true (fun _ member => absurd member List.not_mem_nil) ?_
              intro runsOver
              rw [List.append_nil] at runsOver
              exact wordPlain (List.mem_of_getLast? runsOver.1)
            · have long : 0 < word.length := List.length_pos_of_ne_nil nonempty
              rw [List.length_cons] at position enough hn
              have reads : islastReads work pathlen i word.length =
                  scanReads (i + word.length) ((slash :: more).map terminate ++ 0 :: garbage) := by
                rw [islastReads, if_neg (by omega), behind]
              by_cases onward : components slash more = []
              · -- the scan runs over the slashes behind the last component
                have none : components slash (slash :: more) = [] := by rwa [components_sep]
                have late := scanReads_behind (slash :: more) garbage (i + word.length) none
                rw [List.length_cons] at late
                refine iff_of_false (fun bounded => ?_) (not_not.mpr ⟨?_, ?_, cur, ?_⟩)
                · have bound := bounded _ (List.mem_append_left _ (reads ▸ late))
                  omega
                · have final := List.getLast?_eq_getLast_of_ne_nil (List.cons_ne_nil slash more)
                  rw [List.getLast?_append_of_ne_nil _ (List.cons_ne_nil slash more), final,
                    slashes_only _ none _ (List.getLast_mem _)]
                · rw [components_word_sep slash word more nonempty wordPlain]
                  exact List.cons_ne_nil _ _
                · rw [components_word_sep slash word more nonempty wordPlain, onward]
                  rfl
              · have some_ : components slash (slash :: more) ≠ [] := by rwa [components_sep]
                have restPlain : 0 ∉ slash :: more := fun member =>
                  plain (List.mem_append_right _ member)
                have early := scanReads_inside (slash :: more) (0 :: garbage) (i + word.length) some_
                  restPlain
                rw [List.length_cons] at early
                have notLast : islast work pathlen i word.length = false := by
                  rw [← Bool.not_eq_true, final]
                  exact fun both => some_ both.1
                rw [runsOver_word nonempty wordPlain onward, notLast, if_neg Bool.false_ne_true, reads]
                have short : ∀ j ∈ scanReads (i + word.length)
                    ((slash :: more).map terminate ++ 0 :: garbage), j ≤ pathlen := by
                  intro j member
                  have := early j member
                  omega
                rw [List.forall_mem_append, and_iff_right short]
                cases vnodeLookup fs cur word with
                | none => simp
                | some res =>
                    dsimp only
                    by_cases directory : (fs.vnodes[res]?).map Vnode.type = some .dir
                    · rw [if_pos directory]
                      have later := ih more.length (by omega) more (fun member => restPlain
                        (List.mem_cons_of_mem _ member)) fuel (i + word.length + 1) res (by omega)
                        (by omega) (by rw [← List.drop_drop, behind]; rfl) rfl
                      rw [later]
                      simp only [Option.some.injEq, exists_eq_left', directory, true_and]
                    · rw [if_neg directory]
                      simp only [Option.some.injEq, exists_eq_left', directory, false_and,
                        not_false_eq_true, List.not_mem_nil, false_imp_iff, implies_true]

end Scans

/-- Get-parent lookup depends only on the path exactly when the path decides it, and the scans stay
inside the copy exactly when the walk does not come to a last component with slashes behind it. -/
theorem parent_lookup_iff (fs : Tmpfs) (dir : Nat) (path : List UInt8) (plain : 0 ∉ path) :
    (Independent fs dir path ↔ PathDecides fs dir path) ∧
      (ScansInside fs dir path ↔ ¬RunsOver fs (startOf dir path) path) := by
  constructor
  · exact ⟨decides_of_independent plain, independent_of_decides plain⟩
  · have scans (scratch : Scratch) := walkReads_inside_iff fs path plain (path.length + 1) 0
      (startOf dir path) (Nat.lt_succ_self _) (Nat.zero_add _)
      (show (workBuffer path scratch.garbage).drop 0 = _ from rfl)
    exact ⟨fun inside => (scans ⟨[], []⟩).mp (inside ⟨[], []⟩), fun stays scratch =>
      (scans scratch).mpr stays⟩

/-- `d/x` -/
theorem parent_lookup_iff_small :
    (Independent smallTree 0 [100, slash, 120] ↔ PathDecides smallTree 0 [100, slash, 120]) ∧
      (ScansInside smallTree 0 [100, slash, 120] ↔
        ¬RunsOver smallTree (startOf 0 [100, slash, 120]) [100, slash, 120]) :=
  parent_lookup_iff smallTree 0 [100, slash, 120] (by decide)

/-- For `d/` it depends on the heap whether the root is returned, or `d`. -/
theorem parent_lookup_reads_heap : ¬∀ fs dir path, TmpfsTree fs → NoLinkCycle fs → IsDir fs dir →
    0 ∉ path → Independent fs dir path ∧ ScansInside fs dir path := by
  intro always
  obtain ⟨independent, -⟩ := always smallTree 0 [100, slash] smallTree_tree smallTree_noLinkCycle
    smallTree_tree.root (by decide)
  obtain ⟨front, c, names, law⟩ := decides_of_independent (by decide) independent
  have named : components slash [100, slash] = [] ++ [[100]] := by decide
  obtain ⟨rfl, last⟩ := List.append_inj' (names.symm.trans named) rfl
  obtain rfl : c = [100] := by simpa using last
  have there : vnodeLookup smallTree 0 [100] = some 1 := rfl
  rcases law with whole | absent
  · exact whole rfl
  · cases there.symm.trans absent

end Nyaux.Fs
