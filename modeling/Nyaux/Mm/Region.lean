import Nyaux.Lib.Word

/-! The ordered region list of a pagemap: first-fit search and removal.

The list of `struct vmm_region` nodes is a Lean list; `addr` is the heap block of a node.
All arithmetic on bases and lengths is the source's unsigned 64-bit arithmetic. -/

namespace Nyaux.Mm

open Word

structure VmmRegion where
  addr : Nat
  base : Nat
  length : Nat
  deriving DecidableEq

/-- `base + length`. -/
def VmmRegion.stop (r : VmmRegion) : Nat := add64 r.base r.length

/-- The test of both allocation loops, for the nodes `prev_node` and `cur_node`. -/
def fits (size : Nat) (prev cur : VmmRegion) : Bool :=
  decide (sub64 cur.base prev.stop ≥ add64 (alignUp size 4096) 0x1000)

/-- A walk over the list that stops at the first neighbours accepted by `admits`: the nodes
up to `prev_node` and the nodes from `cur_node` on, `none` when it runs off the end. -/
def findPair {α : Type} (admits : α → α → Bool) : List α → Option (List α × List α)
  | prev :: cur :: rest =>
      if admits prev cur then some ([prev], cur :: rest)
      else (findPair admits (cur :: rest)).map fun (front, back) => (prev :: front, back)
  | _ => none

def findGap (size : Nat) (regions : List VmmRegion) : Option (List VmmRegion × List VmmRegion) :=
  findPair (fits size) regions

/-- `new_guy`, placed right after `prev_node`. -/
def newRegion (node size : Nat) (prev : VmmRegion) : VmmRegion :=
  { addr := node, base := prev.stop, length := alignUp size 4096 }

section Pairs

variable {α : Type} {admits : α → α → Bool}

theorem findPair_split {prev : α} {rest front back : List α}
    (found : findPair admits (prev :: rest) = some (front, back)) :
    ∃ before cur after, rest = before ++ cur :: after ∧ front = prev :: before ∧
      back = cur :: after ∧
      admits ((prev :: before).getLast (List.cons_ne_nil _ _)) cur = true := by
  induction rest generalizing prev front back with
  | nil => simp [findPair] at found
  | cons cur rest ih =>
      by_cases here : admits prev cur = true
      · simp only [findPair, here, if_true, Option.some.injEq, Prod.mk.injEq] at found
        obtain ⟨rfl, rfl⟩ := found
        exact ⟨[], cur, rest, rfl, rfl, rfl, here⟩
      · simp only [findPair, here, Bool.false_eq_true, if_false, Option.map_eq_some_iff] at found
        obtain ⟨⟨front', back'⟩, later, same⟩ := found
        obtain ⟨before, cur', after, rfl, rfl, rfl, fit⟩ := ih later
        obtain ⟨rfl, rfl⟩ := Prod.mk.inj same
        refine ⟨cur :: before, cur', after, rfl, rfl, rfl, ?_⟩
        simpa only [List.getLast_cons (List.cons_ne_nil cur before)] using fit

theorem findPair_first {regions front back : List α}
    (found : findPair admits regions = some (front, back)) :
    front.IsChain fun a b => admits a b = false := by
  induction regions generalizing front back with
  | nil => simp [findPair] at found
  | cons prev rest ih =>
      cases rest with
      | nil => simp [findPair] at found
      | cons cur rest =>
          by_cases here : admits prev cur = true
          · simp only [findPair, here, if_true, Option.some.injEq, Prod.mk.injEq] at found
            rw [← found.1]
            exact List.isChain_singleton prev
          · simp only [findPair, here, Bool.false_eq_true, if_false,
              Option.map_eq_some_iff] at found
            obtain ⟨⟨front', back'⟩, later, same⟩ := found
            obtain ⟨rfl, rfl⟩ := Prod.mk.inj same
            have passed := ih later
            obtain ⟨before, _, _, _, rfl, _, _⟩ := findPair_split later
            exact List.isChain_cons_cons.mpr ⟨Bool.eq_false_iff.mpr here, passed⟩

theorem findPair_map {β : Type} (f : β → α) (nodes : List β) :
    findPair admits (nodes.map f) = (findPair (fun a b => admits (f a) (f b)) nodes).map
      fun parts => (parts.1.map f, parts.2.map f) := by
  induction nodes with
  | nil => rfl
  | cons prev rest ih =>
      cases rest with
      | nil => rfl
      | cons cur rest =>
          rw [List.map_cons, List.map_cons, findPair, findPair, ← List.map_cons, ih]
          split_ifs
          · rfl
          · rw [Option.map_map, Option.map_map]
            rfl

end Pairs

inductive Removal where
  | found (region : VmmRegion) (regions : List VmmRegion)
  /-- the node was the first of the list: `prev_prev_node->next` is a write through NULL -/
  | nullDeref
  | missing
  deriving DecidableEq

def removeAfter (base : Nat) : VmmRegion → List VmmRegion → Removal
  | _, [] => .missing
  | prev, cur :: rest =>
      if cur.base = base then .found cur (if rest = [] then [prev, cur] else prev :: rest)
      else
        match removeAfter base cur rest with
        | .found region regions => .found region (prev :: regions)
        | other => other

def removeRegion (base : Nat) : List VmmRegion → Removal
  | [] => .missing
  | first :: rest =>
      if first.base = base then
        if rest = [] then .found first [first] else .nullDeref
      else removeAfter base first rest

theorem removeAfter_middle (prev : VmmRegion) (before after : List VmmRegion) (r last : VmmRegion)
    (absent : ∀ x ∈ before, x.base ≠ r.base) :
    removeAfter r.base prev (before ++ r :: (after ++ [last])) =
      .found r (prev :: (before ++ (after ++ [last]))) := by
  induction before generalizing prev with
  | nil => simp [removeAfter]
  | cons cur before ih =>
      have other : cur.base ≠ r.base := absent cur (by simp)
      have rest := ih cur (fun x member => absent x (List.mem_cons_of_mem _ member))
      simp [removeAfter, other, rest]

theorem removeRegion_middle (first : VmmRegion) (before after : List VmmRegion)
    (r last : VmmRegion) (headed : first.base ≠ r.base) (absent : ∀ x ∈ before, x.base ≠ r.base) :
    removeRegion r.base (first :: (before ++ r :: (after ++ [last]))) =
      .found r (first :: (before ++ (after ++ [last]))) := by
  rw [removeRegion, if_neg headed]
  exact removeAfter_middle first before after r last absent

/-- `vmm_region_dealloc` takes the node it finds from the list, unless that is the last one. -/
theorem removeAfter_found {base : Nat} {prev r last : VmmRegion} {regions rest : List VmmRegion}
    (final : (prev :: regions).getLast? = some last) (other : last.base ≠ base)
    (found : removeAfter base prev regions = .found r rest) :
    (prev :: regions).Perm (r :: rest) ∧ rest.getLast? = some last := by
  induction regions generalizing prev rest with
  | nil => cases found
  | cons cur tail ih =>
      rw [List.getLast?_cons_cons] at final
      rw [removeAfter] at found
      by_cases here : cur.base = base
      · rw [if_pos here] at found
        obtain ⟨rfl, rfl⟩ := Removal.found.inj found
        cases tail with
        | nil =>
            obtain rfl := Option.some.inj final
            exact absurd here other
        | cons next tail =>
            rw [if_neg (List.cons_ne_nil _ _), List.getLast?_cons_cons]
            rw [List.getLast?_cons_cons] at final
            exact ⟨List.Perm.swap _ _ _, final⟩
      · rw [if_neg here] at found
        cases later : removeAfter base cur tail with
        | found region regions =>
            rw [later] at found
            obtain ⟨rfl, rfl⟩ := Removal.found.inj found
            obtain ⟨perm, ends⟩ := ih final later
            refine ⟨(perm.cons prev).trans (List.Perm.swap _ _ _), ?_⟩
            rw [List.getLast?_cons, ends]
            rfl
        | nullDeref =>
            rw [later] at found
            cases found
        | missing =>
            rw [later] at found
            cases found

theorem findGap_split {size : Nat} {regions front back : List VmmRegion}
    (gap : findGap size regions = some (front, back)) :
    regions = front ++ back ∧ ∀ r, (front ++ r :: back).getLast? = regions.getLast? := by
  cases regions with
  | nil => cases gap
  | cons first rest =>
      obtain ⟨before, cur, after, rfl, rfl, rfl, -⟩ := findPair_split gap
      refine ⟨rfl, fun r => ?_⟩
      rw [List.getLast?_append_cons, List.getLast?_cons_cons, ← List.cons_append,
        List.getLast?_append_cons]

/-! Positions relative to the end of the first region. They turn the wrapping
differences of the loops into plain ones. -/

def pos (origin : Nat) (r : VmmRegion) : Nat := sub64 r.base origin

theorem pos_lt (origin : Nat) (r : VmmRegion) : pos origin r < 2 ^ 64 := sub64_lt _ _

theorem base_eq_pos (origin : Nat) {r : VmmRegion} (word : r.base < 2 ^ 64) :
    r.base = add64 origin (pos origin r) := by
  unfold pos add64 sub64
  omega

/-- The regions between the first and the last, and the last, in ascending order without
overlap, all above `origin`, the end of the first. -/
structure Layout (origin : Nat) (first : VmmRegion) (mids : List VmmRegion) (last : VmmRegion) :
    Prop where
  origin_eq : first.stop = origin
  words : ∀ r ∈ mids ++ [last], r.base < 2 ^ 64
  sorted : (mids ++ [last]).Pairwise fun a b => pos origin a + a.length ≤ pos origin b

def endPos (origin : Nat) (mids : List VmmRegion) : Nat :=
  match mids.getLast? with
  | none => 0
  | some r => pos origin r + r.length

theorem pairwise_insert {α : Type} {R : α → α → Prop} {front back : List α} {x : α}
    (sorted : (front ++ back).Pairwise R) (below : ∀ a ∈ front, R a x) (above : ∀ b ∈ back, R x b) :
    (front ++ x :: back).Pairwise R := by
  rw [List.pairwise_append] at sorted ⊢
  obtain ⟨ordered, upper, across⟩ := sorted
  refine ⟨ordered, List.pairwise_cons.mpr ⟨above, upper⟩, ?_⟩
  intro a inFront b inBack
  rcases List.mem_cons.mp inBack with rfl | inBack
  · exact below a inFront
  · exact across a inFront b inBack

theorem split_last {α : Type} {mids before after : List α} {cur last : α}
    (split : mids ++ [last] = before ++ cur :: after) :
    ∃ rest, cur :: after = rest ++ [last] ∧ mids = before ++ rest := by
  obtain ⟨rest, final, shape⟩ :=
    (List.eq_nil_or_concat' (cur :: after)).resolve_left (List.cons_ne_nil _ _)
  rw [shape, ← List.append_assoc] at split
  have same : last = final := by
    have := congrArg List.getLast? split
    simpa using this
  subst same
  exact ⟨rest, shape, List.append_cancel_right split⟩

namespace Layout

variable {origin : Nat} {first last : VmmRegion} {mids : List VmmRegion}

theorem origin_lt (layout : Layout origin first mids last) : origin < 2 ^ 64 := by
  rw [← layout.origin_eq]
  exact add64_lt _ _

theorem stop_before (layout : Layout origin first mids last) (before after : List VmmRegion)
    (split : mids ++ [last] = before ++ after) (nonempty : after ≠ []) :
    ((first :: before).getLast (List.cons_ne_nil _ _)).stop =
      add64 origin (endPos origin before) ∧ endPos origin before < 2 ^ 64 := by
  have bound := layout.origin_lt
  cases before using List.reverseRecOn with
  | nil =>
      constructor
      · simp only [List.getLast_singleton, endPos, List.getLast?_nil]
        rw [layout.origin_eq]
        unfold add64
        omega
      · exact Nat.two_pow_pos 64
  | append_singleton before r =>
      have member : r ∈ mids ++ [last] := by rw [split]; simp
      have word := layout.words r member
      have exact_end : endPos origin (before ++ [r]) = pos origin r + r.length := by
        simp [endPos]
      have next : pos origin r + r.length < 2 ^ 64 := by
        obtain ⟨b, rest, rfl⟩ := List.exists_cons_of_ne_nil nonempty
        have sorted := layout.sorted
        rw [split, List.pairwise_append] at sorted
        have ordered := sorted.2.2 r (by simp) b (by simp)
        have := pos_lt origin b
        omega
      have start := base_eq_pos origin word
      have shown : (first :: (before ++ [r])).getLast (List.cons_ne_nil _ _) = r := by simp
      rw [shown, exact_end]
      refine ⟨?_, next⟩
      unfold VmmRegion.stop
      rw [start]
      unfold add64
      omega

theorem gap_eq (layout : Layout origin first mids last) (before after : List VmmRegion)
    (cur : VmmRegion) (split : mids ++ [last] = before ++ cur :: after) :
    sub64 cur.base ((first :: before).getLast (List.cons_ne_nil _ _)).stop =
      pos origin cur - endPos origin before ∧ endPos origin before ≤ pos origin cur := by
  obtain ⟨stop, small⟩ := layout.stop_before before (cur :: after) split (List.cons_ne_nil _ _)
  have word := layout.words cur (by rw [split]; simp)
  have bound := layout.origin_lt
  have ordered : endPos origin before ≤ pos origin cur := by
    cases before using List.reverseRecOn with
    | nil => simp [endPos]
    | append_singleton before r =>
        have sorted := layout.sorted
        rw [split, List.pairwise_append] at sorted
        simpa [endPos] using sorted.2.2 r (by simp) cur (by simp)
  refine ⟨?_, ordered⟩
  have start := base_eq_pos origin word
  have far := pos_lt origin cur
  rw [stop, start]
  generalize pos origin cur = q at *
  generalize endPos origin before = p at *
  unfold sub64 add64
  omega

theorem below_end (layout : Layout origin first mids last) (before after : List VmmRegion)
    (split : mids ++ [last] = before ++ after) (r : VmmRegion) (member : r ∈ before) :
    pos origin r + r.length ≤ endPos origin before := by
  cases before using List.reverseRecOn with
  | nil => simp at member
  | append_singleton before x =>
      have exact_end : endPos origin (before ++ [x]) = pos origin x + x.length := by simp [endPos]
      rw [exact_end]
      rcases List.mem_append.mp member with earlier | final
      · have sorted := layout.sorted
        rw [split, List.append_assoc, List.pairwise_append] at sorted
        have := sorted.2.2 r earlier x (by simp)
        omega
      · rw [List.mem_singleton.mp final]

theorem link (layout : Layout origin first mids last) (before after : List VmmRegion)
    (r : VmmRegion) (split : mids ++ [last] = before ++ after) (word : r.base < 2 ^ 64)
    (below : ∀ a ∈ before, pos origin a + a.length ≤ pos origin r)
    (above : ∀ b ∈ after, pos origin r + r.length ≤ pos origin b)
    (mids' : List VmmRegion) (result : mids' ++ [last] = before ++ r :: after) :
    Layout origin first mids' last := by
  refine ⟨layout.origin_eq, ?_, ?_⟩
  · intro x member
    rw [result, List.mem_append, List.mem_cons] at member
    rcases member with old | rfl | old
    · exact layout.words x (by rw [split]; exact List.mem_append_left _ old)
    · exact word
    · exact layout.words x (by rw [split]; exact List.mem_append_right _ old)
  · rw [result]
    apply pairwise_insert
    · rw [← split]
      exact layout.sorted
    · exact below
    · exact above

theorem insert (layout : Layout origin first mids last) (before after : List VmmRegion)
    (node length : Nat) (split : mids ++ [last] = before ++ after) (nonempty : after ≠ [])
    (room : ∀ b ∈ after, endPos origin before + length ≤ pos origin b)
    (mids' : List VmmRegion)
    (result : mids' ++ [last] =
      before ++ ⟨node, add64 origin (endPos origin before), length⟩ :: after) :
    Layout origin first mids' last ∧
      pos origin ⟨node, add64 origin (endPos origin before), length⟩ = endPos origin before := by
  obtain ⟨-, small⟩ := layout.stop_before before after split nonempty
  have bound := layout.origin_lt
  have placed : pos origin ⟨node, add64 origin (endPos origin before), length⟩ =
      endPos origin before := by
    generalize endPos origin before = p at *
    unfold pos sub64 add64
    dsimp only
    omega
  refine ⟨layout.link before after _ split (add64_lt _ _) ?_ ?_ mids' result, placed⟩
  · intro a member
    rw [placed]
    exact layout.below_end before after split a member
  · intro b member
    rw [placed]
    exact room b member

/-- First fit inside an ordered list: the new region takes the start of the gap, and the
list keeps its shape. `plain` says that the requested size does not wrap. -/
theorem first_fit (layout : Layout origin first mids last) (before after : List VmmRegion)
    (cur : VmmRegion) (node size : Nat) (split : mids ++ [last] = before ++ cur :: after)
    (fit : fits size ((first :: before).getLast (List.cons_ne_nil _ _)) cur = true)
    (plain : add64 (alignUp size 4096) 0x1000 = alignUp size 4096 + 0x1000)
    (r : VmmRegion)
    (new : r = newRegion node size ((first :: before).getLast (List.cons_ne_nil _ _))) :
    ∃ rest, cur :: after = rest ++ [last] ∧ mids = before ++ rest ∧
      Layout origin first (before ++ r :: rest) last ∧ pos origin r = endPos origin before ∧
      ∀ b ∈ rest ++ [last], pos origin r + r.length + 0x1000 ≤ pos origin b := by
  obtain ⟨rest, tail, mids_eq⟩ := split_last split
  obtain ⟨gap, ordered⟩ := layout.gap_eq before after cur split
  obtain ⟨stop, -⟩ := layout.stop_before before (cur :: after) split (List.cons_ne_nil _ _)
  have placed : r = ⟨node, add64 origin (endPos origin before), alignUp size 4096⟩ := by
    rw [new, newRegion, stop]
  have room : ∀ b ∈ cur :: after,
      endPos origin before + alignUp size 4096 + 0x1000 ≤ pos origin b := by
    have enough := of_decide_eq_true fit
    rw [gap, plain] at enough
    have upper := layout.sorted
    rw [split, List.pairwise_append] at upper
    intro b member
    rcases List.mem_cons.mp member with rfl | later
    · omega
    · have := (List.pairwise_cons.mp upper.2.1).1 b later
      omega
  have shape : (before ++ r :: rest) ++ [last] = before ++ r :: (cur :: after) := by
    rw [tail]
    simp
  obtain ⟨layout', position⟩ := layout.insert before (cur :: after) node (alignUp size 4096) split
    (List.cons_ne_nil _ _) (fun b member => by have := room b member; omega)
    (before ++ r :: rest) (by rw [shape, placed])
  refine ⟨rest, tail, mids_eq, layout', by rw [placed, position], ?_⟩
  intro b member
  have := room b (by rw [tail]; exact member)
  rw [placed, position]
  exact this

theorem bases_nodup (layout : Layout origin first mids last) (nonempty : ∀ r ∈ mids, 0 < r.length) :
    (mids.map VmmRegion.base).Nodup := by
  apply List.pairwise_map.mpr
  apply ((List.pairwise_append.mp layout.sorted).1).imp_of_mem
  intro a b member _ ordered same
  have positive := nonempty a member
  have position : pos origin a = pos origin b := by unfold pos; rw [same]
  omega

theorem remove (layout : Layout origin first mids last) (mids' : List VmmRegion)
    (sub : mids'.Sublist mids) : Layout origin first mids' last := by
  have sub' : (mids' ++ [last]).Sublist (mids ++ [last]) := sub.append (List.Sublist.refl _)
  exact ⟨layout.origin_eq, fun r member => layout.words r (sub'.subset member),
    layout.sorted.sublist sub'⟩

end Layout

end Nyaux.Mm
