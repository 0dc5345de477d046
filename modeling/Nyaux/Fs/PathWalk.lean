import Nyaux.Fs.Vfs

/-! The path walk in get-parent mode ends in the directory a path leads to, with the last
component in hand, whether or not slashes follow it. -/

namespace Nyaux.Fs

open CString

def resolve (fs : Tmpfs) : Nat → List (List UInt8) → Option Nat
  | v, [] => some v
  | v, c :: rest => (vnodeLookup fs v c).bind fun w => resolve fs w rest

theorem resolve_append (fs : Tmpfs) (v : Nat) (front back : List (List UInt8)) :
    resolve fs v (front ++ back) = (resolve fs v front).bind fun w => resolve fs w back := by
  induction front generalizing v with
  | nil => rfl
  | cons c rest ih =>
      cases found : vnodeLookup fs v c with
      | none => simp [resolve, found]
      | some w => simp [resolve, found, ih]

def IsDir (fs : Tmpfs) (v : Nat) : Prop := ∃ vnode, fs.vnodes[v]? = some vnode ∧ vnode.type = .dir

theorem isDir_of_lookup {fs : Tmpfs} {v w : Nat} {part : List UInt8}
    (found : vnodeLookup fs v part = some w) : IsDir fs v := by
  obtain ⟨vnode, present, rest⟩ := Option.bind_eq_some_iff.mp found
  by_cases directory : vnode.type = .dir
  · exact ⟨vnode, present, directory⟩
  · simp [directory] at rest

theorem isDir_of_resolve {fs : Tmpfs} {v w : Nat} {path : List (List UInt8)} (last : IsDir fs w)
    (found : resolve fs v path = some w) : IsDir fs v := by
  cases path with
  | nil =>
      obtain rfl : v = w := Option.some.inj found
      exact last
  | cons c rest =>
      obtain ⟨next, first, -⟩ := Option.bind_eq_some_iff.mp found
      exact isDir_of_lookup first

def terminate (c : UInt8) : UInt8 := if c = slash then 0 else c

theorem map_terminate (word : List UInt8) (plain : slash ∉ word) :
    word.map terminate = word := by
  have kept : ∀ c ∈ word, terminate c = id c :=
    fun c member => if_neg fun (same : c = slash) => plain (same ▸ member)
  rw [List.map_congr_left kept, List.map_id]

theorem scanZeros_false (pathlen : Nat) (q rest : List UInt8) (j : Nat)
    (length : j + q.length = pathlen) (more : components slash q ≠ []) (plain : 0 ∉ q) :
    scanZeros pathlen j (q.map terminate ++ rest) false = false := by
  induction q generalizing j with
  | nil => simp [components_nil] at more
  | cons c q ih =>
      simp only [List.length_cons] at length
      by_cases same : c = slash
      · subst same
        rw [components_sep] at more
        have early : (j == pathlen) = false := by
          rw [beq_eq_false_iff_ne]
          omega
        have next := ih (j + 1) (by omega) more fun member => plain (List.mem_cons_of_mem _ member)
        simpa [scanZeros, terminate, early] using next
      · have byte : c ≠ 0 := fun zero => plain (zero ▸ List.mem_cons_self)
        simp [scanZeros, terminate, same, byte]

theorem slashes_only (q : List UInt8) (none : components slash q = []) : ∀ c ∈ q, c = slash := by
  induction q with
  | nil => simp
  | cons c q ih =>
      by_cases same : c = slash
      · subst same
        rw [components_sep] at none
        intro d member
        rcases List.mem_cons.mp member with rfl | later
        · rfl
        · exact ih none d later
      · obtain ⟨word, rest, split, nonempty, wordPlain, ending⟩ := word_split slash c q same
        rw [split, components_head slash word rest nonempty wordPlain ending] at none
        cases none

theorem scanZeros_behind (pathlen : Nat) (rest : List UInt8) (j : Nat) (behind : pathlen < j) :
    scanZeros pathlen j rest false = false := by
  induction rest generalizing j with
  | nil => rfl
  | cons c rest ih =>
      by_cases zero : c = 0
      · have late : (j == pathlen) = false := by
          rw [beq_eq_false_iff_ne]
          omega
        rw [scanZeros, if_pos zero, late]
        exact ih (j + 1) (by omega)
      · rw [scanZeros, if_neg zero]

theorem scanZeros_end (pathlen : Nat) (q garbage : List UInt8) (j : Nat) (before : Bool)
    (length : j + q.length = pathlen) (none : components slash q = []) :
    scanZeros pathlen j (q.map terminate ++ 0 :: garbage) before =
      decide (garbage.head? ≠ some 0) := by
  induction q generalizing j before with
  | nil =>
      rw [List.length_nil, Nat.add_zero] at length
      subst length
      rw [List.map_nil, List.nil_append, scanZeros, if_pos rfl, beq_self_eq_true]
      cases garbage with
      | nil => rfl
      | cons c rest =>
          by_cases zero : c = 0
          · have late : (j + 1 == j) = false := by
              rw [beq_eq_false_iff_ne]
              omega
            rw [scanZeros, if_pos zero, late, scanZeros_behind _ _ _ (by omega)]
            simp [zero]
          · rw [scanZeros, if_neg zero]
            simp [zero]
  | cons c q ih =>
      obtain rfl := slashes_only _ none c List.mem_cons_self
      rw [components_sep] at none
      simp only [List.length_cons] at length
      rw [List.map_cons, List.cons_append, scanZeros, if_pos (by simp [terminate])]
      exact ih (j + 1) _ (by omega) none

def lastFlag (path garbage : List UInt8) : Bool :=
  decide (path.getLast? ≠ some slash) || decide (garbage.head? ≠ some 0)

def steps (fs : Tmpfs) (follow : Nat → List UInt8 → Option (Option Nat)) (getparent flag : Bool) :
    Nat → List (List UInt8) → List UInt8 → Option Found
  | cur, [], last => some ⟨some cur, last⟩
  | cur, c :: rest, last =>
      if rest = [] ∧ flag = true ∧ getparent = true then some ⟨some cur, c⟩
      else
        match vnodeLookup fs cur c with
        | some res =>
            match (fs.vnodes[res]?).map Vnode.type with
            | some .dir => steps fs follow getparent flag res rest last
            | some .symlink => (follow cur (walk.link fs res)).map fun vnode => ⟨vnode, last⟩
            | _ => some ⟨some res, last⟩
        | none => some ⟨if getparent then some cur else none, c⟩

section Steps

variable (fs : Tmpfs) (follow : Nat → List UInt8 → Option (Option Nat)) (getparent flag : Bool)
  (work garbage : List UInt8) (pathlen : Nat)

theorem islast_eq (word rest : List UInt8) (i : Nat)
    (wordPlain : slash ∉ word) (plain : 0 ∉ word ++ rest)
    (position : i + (word ++ rest).length = pathlen)
    (buffer : work.drop i = (word ++ rest).map terminate ++ 0 :: garbage)
    (ending : rest = [] ∨ ∃ more, rest = slash :: more)
    (flagged : flag = lastFlag (word ++ rest) garbage) :
    islast work pathlen i word.length = true ↔ components slash rest = [] ∧ flag = true := by
  rw [List.length_append] at position
  have behind : work.drop (i + word.length) = rest.map terminate ++ 0 :: garbage := by
    rw [← List.drop_drop, buffer, List.map_append, map_terminate word wordPlain,
      List.append_assoc, List.drop_left]
  rcases ending with rfl | ⟨more, rfl⟩
  · have final : (word ++ []).getLast? ≠ some slash := by
      rw [List.append_nil]
      intro same
      exact wordPlain (List.mem_of_getLast? same)
    have raised : flag = true := by rw [flagged, lastFlag, decide_eq_true final, Bool.true_or]
    rw [islast, if_pos (by simpa using position), components_nil, raised]
    simp
  · have longer : i + word.length ≠ pathlen := by
      simp only [List.length_cons] at position
      omega
    rw [islast, if_neg longer, behind]
    by_cases more' : components slash (slash :: more) = []
    · have allSlashes : (word ++ slash :: more).getLast? = some slash := by
        have final := List.getLast?_eq_getLast_of_ne_nil (List.cons_ne_nil slash more)
        rw [List.getLast?_append_of_ne_nil _ (List.cons_ne_nil slash more), final,
          slashes_only _ more' _ (List.getLast_mem _)]
      rw [scanZeros_end pathlen _ garbage _ false (by omega) more', flagged, lastFlag, allSlashes]
      simp [more']
    · have restBytes : 0 ∉ slash :: more := fun member => plain (List.mem_append_right _ member)
      rw [scanZeros_false pathlen _ _ _ (by omega) more' restBytes]
      simp [more']

theorem walk_eq (q : List UInt8) (plain : 0 ∉ q) (fuel i cur : Nat) (last : List UInt8)
    (enough : q.length < fuel) (position : i + q.length = pathlen)
    (buffer : work.drop i = q.map terminate ++ 0 :: garbage)
    (flagged : q ≠ [] → flag = lastFlag q garbage) :
    walk fs follow getparent work pathlen fuel i cur last =
      steps fs follow getparent flag cur (components slash q) last := by
  induction hn : q.length using Nat.strong_induction_on generalizing q fuel i cur last with
  | _ n ih =>
      obtain ⟨fuel, rfl⟩ : ∃ m, fuel = m + 1 := ⟨fuel - 1, by omega⟩
      cases q with
      | nil =>
          rw [List.length_nil] at position
          rw [components_nil, walk, if_neg (by omega), steps]
      | cons x q =>
          have inside : i < pathlen := by
            simp only [List.length_cons] at position
            omega
          have byte : work.getD i 0 = terminate x := by
            have := congrArg (fun l => l.getD 0 0) buffer
            simpa [List.getD_eq_getElem?_getD, List.getElem?_drop] using this
          have flagged' := flagged (List.cons_ne_nil x q)
          rw [walk, if_pos inside, byte]
          by_cases same : x = slash
          · subst same
            simp only [List.length_cons] at hn enough position
            rw [if_pos (by simp [terminate]), components_sep]
            apply ih q.length (by omega) q (fun member => plain (List.mem_cons_of_mem _ member)) fuel
              (i + 1) cur last (by omega) (by omega) ?_ ?_ rfl
            · rw [← List.drop_drop, buffer]
              rfl
            · intro more
              rw [flagged', lastFlag, lastFlag, List.getLast?_cons_of_ne_nil more]
          · have nonzero : x ≠ 0 := fun zero => plain (zero ▸ List.mem_cons_self)
            rw [if_neg (by simpa [terminate, same] using nonzero)]
            obtain ⟨word, rest, split, nonempty, wordPlain, ending⟩ := word_split slash x q same
            rw [split] at plain buffer position enough hn flagged' ⊢
            have wordBytes : 0 ∉ word := fun member => plain (List.mem_append_left _ member)
            have component : cstring (work.drop i) = word := by
              rw [buffer, List.map_append, map_terminate word wordPlain, List.append_assoc]
              rcases ending with rfl | ⟨more, rfl⟩
              · exact cstring_append_zero word garbage wordBytes
              · exact cstring_append_zero word _ wordBytes
            have names := components_head slash word rest nonempty wordPlain ending
            have final := islast_eq flag work garbage pathlen word rest i wordPlain plain
              position buffer ending flagged'
            rw [component, names, steps]
            dsimp only
            by_cases here : components slash rest = [] ∧ flag = true ∧ getparent = true
            · rw [if_pos here, final.mpr ⟨here.1, here.2.1⟩, here.2.2]
              rfl
            · have on : (islast work pathlen i word.length && getparent) = false := by
                rw [Bool.and_eq_false_iff]
                by_cases parent : getparent = true
                · left
                  rw [← Bool.not_eq_true, final]
                  exact fun both => here ⟨both.1, both.2, parent⟩
                · right
                  simpa using parent
              rw [if_neg here, on]
              simp only [Bool.false_eq_true, if_false]
              cases vnodeLookup fs cur word with
              | none => rfl
              | some res =>
                  dsimp only
                  cases (fs.vnodes[res]?).map Vnode.type with
                  | none => rfl
                  | some type =>
                      cases type with
                      | file => rfl
                      | symlink => rfl
                      | dir =>
                          dsimp only
                          rcases ending with rfl | ⟨more, rfl⟩
                          · rw [List.append_nil] at position
                            rw [components_nil, steps]
                            cases fuel with
                            | zero => rfl
                            | succ fuel => rw [walk, if_neg (by omega)]
                          · have long : 0 < word.length := List.length_pos_of_ne_nil nonempty
                            rw [List.length_append, List.length_cons] at position enough hn
                            rw [components_sep]
                            apply ih more.length (by omega) more (fun member => plain
                              (List.mem_append_right _ (List.mem_cons_of_mem _ member))) fuel
                              (i + word.length + 1) res last (by omega) (by omega) ?_ ?_ rfl
                            · rw [← List.drop_drop, ← List.drop_drop, buffer, List.map_append,
                                map_terminate word wordPlain, List.append_assoc, List.drop_left]
                              rfl
                            · intro onward
                              rw [flagged', lastFlag, lastFlag,
                                List.getLast?_append_of_ne_nil _ (List.cons_ne_nil slash more),
                                List.getLast?_cons_of_ne_nil onward]

end Steps

theorem steps_append (fs : Tmpfs) (follow : Nat → List UInt8 → Option (Option Nat))
    (getparent flag : Bool) (cs : List (List UInt8)) {c : List UInt8} {rest : List (List UInt8)}
    {cur par : Nat} (last : List UInt8) (directory : IsDir fs par)
    (leads : resolve fs cur cs = some par) :
    steps fs follow getparent flag cur (cs ++ c :: rest) last =
      steps fs follow getparent flag par (c :: rest) last := by
  induction cs generalizing cur with
  | nil =>
      obtain rfl : cur = par := Option.some.inj leads
      rfl
  | cons b cs ih =>
      obtain ⟨res, found, onward⟩ := Option.bind_eq_some_iff.mp leads
      obtain ⟨vnode, present, type⟩ := isDir_of_resolve directory onward
      rw [List.cons_append, steps, if_neg (by simp), found]
      dsimp only
      rw [present, Option.map_some, type]
      exact ih onward

/-- `vnode_path_lookup` over the components of a path. -/
theorem vnodePathLookup_eq (fs : Tmpfs) (scratch : Scratch) (depth cur : Nat) (path : List UInt8)
    (getparent : Bool) (last : List UInt8) (plain : 0 ∉ path) :
    vnodePathLookup fs scratch (depth + 1) cur path getparent last =
      steps fs (fun cur target =>
          (vnodePathLookup fs scratch depth cur target false []).map Found.vnode)
        getparent (lastFlag path scratch.garbage) (if path.head? = some slash then 0 else cur)
        (components slash path) last := by
  rw [vnodePathLookup]
  exact walk_eq fs _ getparent (lastFlag path scratch.garbage) (workBuffer path scratch.garbage)
    scratch.garbage path.length path plain (path.length + 1) 0 _ last (Nat.lt_succ_self _)
    (Nat.zero_add _) rfl fun _ => rfl

/-- `vnode_path_lookup` in get-parent mode, for a relative path to a name not yet taken. -/
theorem vnodePathLookup_parent (fs : Tmpfs) (scratch : Scratch) (depth par : Nat)
    (path : List UInt8) (last : List UInt8) (cs : List (List UInt8)) (c : List UInt8)
    (plain : 0 ∉ path) (relative : path.head? ≠ some slash) (directory : IsDir fs par)
    (absent : vnodeLookup fs par c = none) (names : components slash path = cs ++ [c])
    (leads : resolve fs 0 cs = some par) :
    vnodePathLookup fs scratch (depth + 1) 0 path true last = some ⟨some par, c⟩ := by
  rw [vnodePathLookup_eq fs scratch depth 0 path true last plain, if_neg relative, names,
    steps_append fs _ true _ cs last directory leads, steps, absent]
  -- both ways out of the test agree
  split
  · rfl
  · rfl

end Nyaux.Fs
