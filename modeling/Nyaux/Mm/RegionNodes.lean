import Nyaux.Lib.NodePath
import Nyaux.Mm.UserSpace

/-! The region list of a process as its nodes lie in memory.

`new_pagemap` does not set `next` in the last node. The word keeps what its block held before, and
a walk that gets there goes on wherever it leads. -/

namespace Nyaux.Mm

open Word Memory

/-- A `struct pagemap` with the memory its nodes are in. The words of a `struct vmm_region` are
`base`, `length`, `flags` and `next`. -/
structure NodeMap where
  head : Nat
  mem : Mem
  mapped : List Nat

def nodeRegion (mem : Mem) (node : Nat) : VmmRegion := ⟨node, mem node, mem (node + 8)⟩

/-- `part` and `kernel` are the blocks `kmalloc` returns, in a memory of any contents. -/
def NodeMap.newPagemap (hhdm kernelHigherHalfSize part kernel : Nat) (mem : Mem) : NodeMap :=
  let mem := store (store (store mem part 0) (part + 8) 0) (part + 16) 7
  let mem := store (store mem kernel hhdm) (kernel + 8) kernelHigherHalfSize
  { head := part, mem := store mem (part + 24) kernel, mapped := [] }

/-- The loop of `vmm_region_alloc_user` from the second node on, up to the neighbours it takes.
`none` is the halt after "NO FREE REGIONS", or a walk over more than `fuel` nodes. -/
def gapWalk (mem : Mem) (size : Nat) : Nat → Nat → Nat → Option (Nat × Nat)
  | 0, _, _ => none
  | fuel + 1, prevNode, curNode =>
      if curNode = 0 then none
      else if fits size (nodeRegion mem prevNode) (nodeRegion mem curNode) then
        some (prevNode, curNode)
      else gapWalk mem size fuel curNode (mem (curNode + 24))

/-- The four stores for `new_guy`. -/
def linkNode (mem : Mem) (newGuy : VmmRegion) (prevNode curNode : Nat) : Mem :=
  let mem := store (store mem newGuy.addr newGuy.base) (newGuy.addr + 8) newGuy.length
  store (store mem (prevNode + 24) newGuy.addr) (newGuy.addr + 24) curNode

def NodeMap.vmmRegionAllocUser (fuel node size : Nat) (u : NodeMap) : Option (Nat × NodeMap) :=
  if u.head = 0 then none
  else (gapWalk u.mem size fuel u.head (u.mem (u.head + 24))).map fun (prevNode, curNode) =>
    let newGuy := newRegion node size (nodeRegion u.mem prevNode)
    (newGuy.base,
      { u with
        mem := linkNode u.mem newGuy prevNode curNode
        mapped := u.mapped ++ pageLoop newGuy.base (numOfPages size).toNat })

/-- The loop of `vmm_region_dealloc_user`, up to the node it finds. -/
def nodeWalk (mem : Mem) (base : Nat) : Nat → Nat → Nat → Option (Nat × Nat)
  | 0, _, _ => none
  | fuel + 1, prevPrevNode, curNode =>
      if curNode = 0 then none
      else if mem curNode = base then some (prevPrevNode, curNode)
      else nodeWalk mem base fuel curNode (mem (curNode + 24))

/-- Returns the block that goes to `free`, too. `none` is a write through NULL, the halt after
"Region Provided doesn't exist!", or a walk over more than `fuel` nodes. -/
def NodeMap.vmmRegionDeallocUser (fuel base : Nat) (u : NodeMap) : Option (Nat × NodeMap) :=
  match nodeWalk u.mem base fuel 0 u.head with
  | none => none
  | some (prevPrevNode, curNode) =>
      let region := nodeRegion u.mem curNode
      let unmapped := pageLoop region.base (toInt32 (region.length / 4096)).toNat
      let u' := { u with mapped := u.mapped.filter fun page => page ∉ unmapped }
      let next := u.mem (curNode + 24)
      if next = 0 then some (curNode, u')
      else if prevPrevNode = 0 then none
      else some (curNode, { u' with mem := store u.mem (prevPrevNode + 24) next })

/-- Two blocks of `sizeof(struct vmm_region)` bytes share none. -/
def BlocksApart (a b : Nat) : Prop := a + 32 ≤ b ∨ b + 32 ≤ a

instance (a b : Nat) : Decidable (BlocksApart a b) := inferInstanceAs (Decidable (_ ∨ _))

theorem BlocksApart.symm {a b : Nat} (apart : BlocksApart a b) : BlocksApart b a := Or.symm apart

theorem BlocksApart.ne {a b : Nat} (apart : BlocksApart a b) : a ≠ b := by
  unfold BlocksApart at apart
  omega

/-- The nodes from the head to the last one, whose `next` is `stop`. -/
structure NodeList (mem : Mem) (head : Nat) (nodes : List Nat) (stop : Nat) : Prop where
  path : NodePath mem 24 head nodes stop
  nonzero : ∀ node ∈ nodes, node ≠ 0
  apart : nodes.Pairwise BlocksApart

theorem newPagemap_list (hhdm kernelHigherHalfSize : Nat) (mem : Mem) {part kernel : Nat}
    (part_nonzero : part ≠ 0) (kernel_nonzero : kernel ≠ 0) (apart : BlocksApart part kernel) :
    let u := NodeMap.newPagemap hhdm kernelHigherHalfSize part kernel mem
    NodeList u.mem u.head [part, kernel] (mem (kernel + 24)) ∧
      [part, kernel].map (nodeRegion u.mem) =
        [⟨part, 0, 0⟩, ⟨kernel, hhdm, kernelHigherHalfSize⟩] := by
  have separate := apart
  unfold BlocksApart at separate
  intro u
  have next : u.mem (part + 24) = kernel := store_same ..
  have behind : u.mem (kernel + 24) = mem (kernel + 24) := by
    simp only [u, NodeMap.newPagemap]
    rw [store_other _ _ _ _ (by omega), store_other _ _ _ _ (by omega),
      store_other _ _ _ _ (by omega), store_other _ _ _ _ (by omega),
      store_other _ _ _ _ (by omega), store_other _ _ _ _ (by omega)]
  have first : u.mem part = 0 ∧ u.mem (part + 8) = 0 := by
    simp only [u, NodeMap.newPagemap]
    constructor
    · rw [store_other _ _ _ _ (by omega), store_other _ _ _ _ (by omega),
        store_other _ _ _ _ (by omega), store_other _ _ _ _ (by omega),
        store_other _ _ _ _ (by omega), store_same]
    · rw [store_other _ _ _ _ (by omega), store_other _ _ _ _ (by omega),
        store_other _ _ _ _ (by omega), store_other _ _ _ _ (by omega), store_same]
  have last : u.mem kernel = hhdm ∧ u.mem (kernel + 8) = kernelHigherHalfSize := by
    simp only [u, NodeMap.newPagemap]
    constructor
    · rw [store_other _ _ _ _ (by omega), store_other _ _ _ _ (by omega), store_same]
    · rw [store_other _ _ _ _ (by omega), store_same]
  refine ⟨⟨⟨rfl, next, behind⟩, ?_, List.pairwise_pair.mpr apart⟩, ?_⟩
  · simp [part_nonzero, kernel_nonzero]
  · simp [nodeRegion, first, last]

section Walks

variable {mem : Mem} {size base fuel prev cur p c node stop : Nat} {nodes front back : List Nat}

theorem gapWalk_fits (walk : gapWalk mem size fuel prev (mem (prev + 24)) = some (p, c)) :
    fits size (nodeRegion mem p) (nodeRegion mem c) = true ∧ mem (p + 24) = c := by
  induction fuel generalizing prev with
  | zero => cases walk
  | succ fuel ih =>
      rw [gapWalk] at walk
      split_ifs at walk with ends fit
      · obtain ⟨rfl, rfl⟩ := Prod.mk.inj (Option.some.inj walk)
        exact ⟨fit, rfl⟩
      · exact ih walk

theorem gapWalk_front (path : NodePath mem 24 cur nodes stop) (nonzero : ∀ n ∈ nodes, n ≠ 0)
    (found : findPair (fun a b => fits size (nodeRegion mem a) (nodeRegion mem b)) (prev :: nodes) =
      some (front, back))
    (walk : gapWalk mem size fuel prev cur = some (p, c)) :
    (∃ before, front = before ++ [p]) ∧ ∃ after, back = c :: after := by
  induction nodes generalizing prev cur fuel front with
  | nil => cases found
  | cons node rest ih =>
      obtain ⟨rfl, tail⟩ := path
      cases fuel with
      | zero => cases walk
      | succ fuel =>
          rw [gapWalk, if_neg (nonzero cur List.mem_cons_self)] at walk
          rw [findPair] at found
          split_ifs at walk found
          · obtain ⟨rfl, rfl⟩ := Prod.mk.inj (Option.some.inj walk)
            obtain ⟨rfl, rfl⟩ := Prod.mk.inj (Option.some.inj found)
            exact ⟨⟨[], rfl⟩, rest, rfl⟩
          · obtain ⟨⟨front', back'⟩, later, same⟩ := Option.map_eq_some_iff.mp found
            obtain ⟨rfl, rfl⟩ := Prod.mk.inj same
            obtain ⟨⟨before, rfl⟩, after⟩ :=
              ih tail (fun n member => nonzero n (List.mem_cons_of_mem _ member)) later walk
            exact ⟨⟨prev :: before, rfl⟩, after⟩

/-- Where the list ends in `NULL` and has no place, the walk ends in the halt. -/
theorem gapWalk_ended (path : NodePath mem 24 cur nodes 0) (nonzero : ∀ n ∈ nodes, n ≠ 0)
    (full : findPair (fun a b => fits size (nodeRegion mem a) (nodeRegion mem b)) (prev :: nodes) =
      none) : gapWalk mem size fuel prev cur = none := by
  induction nodes generalizing prev cur fuel with
  | nil =>
      cases fuel with
      | zero => rfl
      | succ fuel => rw [gapWalk, if_pos (show cur = 0 from path)]
  | cons node rest ih =>
      obtain ⟨rfl, tail⟩ := path
      cases fuel with
      | zero => rfl
      | succ fuel =>
          rw [findPair] at full
          split_ifs at full with fit
          rw [gapWalk, if_neg (nonzero cur List.mem_cons_self), if_neg fit]
          exact ih tail (fun n member => nonzero n (List.mem_cons_of_mem _ member))
            (Option.map_eq_none_iff.mp full)

theorem findPair_none {α : Type} {admits : α → α → Bool} {nodes : List α}
    (full : findPair admits nodes = none) : nodes.IsChain fun a b => admits a b = false := by
  induction nodes with
  | nil => exact .nil
  | cons prev rest ih =>
      cases rest with
      | nil => exact .singleton prev
      | cons cur rest =>
          rw [findPair] at full
          split_ifs at full with fit
          rw [List.isChain_cons_cons]
          exact ⟨Bool.eq_false_iff.mpr fit, ih (Option.map_eq_none_iff.mp full)⟩

theorem nodeWalk_front (front : List Nat)
    (path : NodePath mem 24 cur (front ++ node :: back) stop)
    (nonzero : ∀ n ∈ front ++ node :: back, n ≠ 0) (absent : ∀ n ∈ front, mem n ≠ base)
    (here : mem node = base) (walk : nodeWalk mem base fuel prev cur = some (p, c)) :
    (prev :: front).getLast (List.cons_ne_nil _ _) = p ∧ c = node := by
  induction front generalizing prev cur fuel with
  | nil =>
      obtain ⟨rfl, -⟩ := path
      cases fuel with
      | zero => cases walk
      | succ fuel =>
          rw [nodeWalk, if_neg (nonzero cur List.mem_cons_self), if_pos here] at walk
          obtain ⟨rfl, rfl⟩ := Prod.mk.inj (Option.some.inj walk)
          exact ⟨rfl, rfl⟩
  | cons first rest ih =>
      obtain ⟨rfl, tail⟩ := path
      cases fuel with
      | zero => cases walk
      | succ fuel =>
          rw [nodeWalk, if_neg (nonzero cur List.mem_cons_self),
            if_neg (absent cur List.mem_cons_self)] at walk
          rw [List.getLast_cons (List.cons_ne_nil _ _)]
          exact ih tail (fun n member => nonzero n (List.mem_cons_of_mem _ member))
            (fun n member => absent n (List.mem_cons_of_mem _ member)) walk

end Walks

section Link

variable {mem : Mem} {new : VmmRegion} {head prev cur node stop : Nat} {before after : List Nat}

theorem linkNode_new : linkNode mem new prev cur (new.addr + 24) = cur := store_same ..

theorem linkNode_prev (apart : BlocksApart prev new.addr) :
    linkNode mem new prev cur (prev + 24) = new.addr := by
  unfold BlocksApart at apart
  rw [linkNode, store_other _ _ _ _ (by omega), store_same]

theorem linkNode_next (apart : BlocksApart node new.addr) (other : node ≠ prev) :
    linkNode mem new prev cur (node + 24) = mem (node + 24) := by
  unfold BlocksApart at apart
  rw [linkNode, store_other _ _ _ _ (by omega), store_other _ _ _ _ (by omega),
    store_other _ _ _ _ (by omega), store_other _ _ _ _ (by omega)]

theorem nodeRegion_linkNode_new (apart : BlocksApart prev new.addr) :
    nodeRegion (linkNode mem new prev cur) new.addr = new := by
  unfold BlocksApart at apart
  have base : linkNode mem new prev cur new.addr = new.base := by
    rw [linkNode, store_other _ _ _ _ (by omega), store_other _ _ _ _ (by omega),
      store_other _ _ _ _ (by omega), store_same]
  have length : linkNode mem new prev cur (new.addr + 8) = new.length := by
    rw [linkNode, store_other _ _ _ _ (by omega), store_other _ _ _ _ (by omega), store_same]
  rw [nodeRegion, base, length]

/-- The regions of the other nodes stay, that of `prev_node` too. -/
theorem nodeRegion_linkNode (apart : BlocksApart node new.addr)
    (same_or : node = prev ∨ BlocksApart node prev) :
    nodeRegion (linkNode mem new prev cur) node = nodeRegion mem node := by
  unfold BlocksApart at apart same_or
  have kept : ∀ word ≤ 8, linkNode mem new prev cur (node + word) = mem (node + word) := by
    intro word small
    rw [linkNode, store_other _ _ _ _ (by omega), store_other _ _ _ _ (by omega),
      store_other _ _ _ _ (by omega), store_other _ _ _ _ (by omega)]
  rw [nodeRegion, nodeRegion, kept 8 (le_refl 8), show linkNode mem new prev cur node = mem node
    from kept 0 (Nat.zero_le 8)]

theorem apart_others (apart : (before ++ prev :: after).Pairwise BlocksApart) :
    ∀ n ∈ before ++ after, BlocksApart n prev := by
  have split := List.pairwise_append.mp apart
  intro n member
  rcases List.mem_append.mp member with lower | upper
  · exact split.2.2 n lower prev List.mem_cons_self
  · exact ((List.pairwise_cons.mp split.2.1).1 n upper).symm

theorem NodeList.link (list : NodeList mem head (before ++ prev :: cur :: after) stop)
    (new : VmmRegion) (nonzero : new.addr ≠ 0)
    (fresh : ∀ n ∈ before ++ prev :: cur :: after, BlocksApart n new.addr) :
    NodeList (linkNode mem new prev cur) head (before ++ prev :: new.addr :: cur :: after) stop ∧
      (before ++ prev :: new.addr :: cur :: after).map (nodeRegion (linkNode mem new prev cur)) =
        (before ++ [prev]).map (nodeRegion mem) ++
          new :: (cur :: after).map (nodeRegion mem) := by
  have others : ∀ n ∈ before ++ cur :: after, BlocksApart n prev := apart_others list.apart
  have listed : ∀ n ∈ before ++ cur :: after, n ∈ before ++ prev :: cur :: after := by
    intro n member
    simp only [List.mem_append, List.mem_cons] at member ⊢
    tauto
  have kept : ∀ n ∈ before ++ cur :: after,
      nodeRegion (linkNode mem new prev cur) n = nodeRegion mem n :=
    fun n member => nodeRegion_linkNode (fresh n (listed n member)) (.inr (others n member))
  have apart_prev : BlocksApart prev new.addr := fresh prev (by simp)
  refine ⟨⟨?_, ?_, ?_⟩, ?_⟩
  · apply list.path.insert (linkNode_prev apart_prev)
    · rw [list.path.link]
      exact linkNode_new
    · exact fun n member => linkNode_next (fresh n (listed n member)) (others n member).ne
  · intro n member
    rcases List.mem_append.mp member with lower | upper
    · exact list.nonzero n (List.mem_append_left _ lower)
    · rcases List.mem_cons.mp upper with rfl | upper
      · exact list.nonzero n (by simp)
      · rcases List.mem_cons.mp upper with rfl | upper
        · exact nonzero
        · exact list.nonzero n (listed n (List.mem_append_right _ upper))
  · have sorted := list.apart
    rw [List.append_cons] at sorted fresh ⊢
    apply pairwise_insert sorted
    · exact fun n member => fresh n (List.mem_append_left _ member)
    · exact fun n member => (fresh n (List.mem_append_right _ member)).symm
  · have front : (before ++ [prev]).map (nodeRegion (linkNode mem new prev cur)) =
        (before ++ [prev]).map (nodeRegion mem) := by
      apply List.map_congr_left
      intro n member
      rcases List.mem_append.mp member with lower | last
      · exact kept n (List.mem_append_left _ lower)
      · rw [List.mem_singleton.mp last]
        exact nodeRegion_linkNode apart_prev (.inl rfl)
    have back : (cur :: after).map (nodeRegion (linkNode mem new prev cur)) =
        (cur :: after).map (nodeRegion mem) :=
      List.map_congr_left fun n member => kept n (List.mem_append_right _ member)
    rw [List.append_cons, List.map_append, front, List.map_cons,
      nodeRegion_linkNode_new apart_prev, back]

/-- A node is taken out by the `next` of the one before it alone. -/
theorem NodeList.unlink (list : NodeList mem head (before ++ prev :: node :: after) stop) :
    NodeList (store mem (prev + 24) (mem (node + 24))) head (before ++ prev :: after) stop ∧
      ∀ n ∈ before ++ prev :: after,
        nodeRegion (store mem (prev + 24) (mem (node + 24))) n = nodeRegion mem n := by
  have sub : (before ++ prev :: after).Sublist (before ++ prev :: node :: after) :=
    ((List.sublist_cons_self node after).cons_cons prev).append_left before
  have others : ∀ n ∈ before ++ after, BlocksApart n prev := apart_others (list.apart.sublist sub)
  refine ⟨⟨?_, fun n member => list.nonzero n (sub.subset member), list.apart.sublist sub⟩, ?_⟩
  · apply list.path.remove (store_same ..)
    intro n member
    have := (others n member).ne
    exact store_other _ _ _ _ (by omega)
  · intro n member
    have apart : n = prev ∨ BlocksApart n prev := by
      rcases List.mem_append.mp member with lower | upper
      · exact .inr (others n (List.mem_append_left _ lower))
      · exact (List.mem_cons.mp upper).imp_right fun later =>
          others n (List.mem_append_right _ later)
    unfold BlocksApart at apart
    rw [nodeRegion, nodeRegion, store_other _ _ _ _ (by omega), store_other _ _ _ _ (by omega)]

end Link

section Refinement

variable {u u' : NodeMap} {fuel node size base stop : Nat} {own : List Nat}

/-- As long as there is a place between two nodes of the list, the call does to the list in memory
what it does to the list of regions. -/
theorem NodeList.alloc (list : NodeList u.mem u.head own stop) (nonzero : node ≠ 0)
    (fresh : ∀ n ∈ own, BlocksApart n node)
    (room : (findGap size (own.map (nodeRegion u.mem))).isSome)
    (returned : u.vmmRegionAllocUser fuel node size = some (base, u')) :
    ∃ own', NodeList u'.mem u'.head own' stop ∧ own'.Perm (node :: own) ∧
      Mm.vmmRegionAllocUser node size ⟨own.map (nodeRegion u.mem), u.mapped⟩ =
        some (base, ⟨own'.map (nodeRegion u'.mem), u'.mapped⟩) := by
  obtain ⟨parts, gap⟩ := Option.isSome_iff_exists.mp room
  have listed := gap
  rw [findGap, findPair_map, Option.map_eq_some_iff] at gap
  obtain ⟨⟨front, back⟩, found, rfl⟩ := gap
  cases own with
  | nil => cases found
  | cons first rest =>
      obtain ⟨head, tail⟩ := list.path
      unfold NodeMap.vmmRegionAllocUser at returned
      rw [if_neg (by rw [head]; exact list.nonzero first List.mem_cons_self), head] at returned
      obtain ⟨⟨p, c⟩, walk, same⟩ := Option.map_eq_some_iff.mp returned
      obtain ⟨⟨before, rfl⟩, after, rfl⟩ := gapWalk_front tail
        (fun n member => list.nonzero n (List.mem_cons_of_mem _ member)) found walk
      obtain ⟨before', cur', after', rfl, front_eq, back_eq, -⟩ := findPair_split found
      have shape : first :: (before' ++ cur' :: after') = before ++ p :: c :: after := by
        rw [← List.cons_append, ← front_eq, ← back_eq, List.append_assoc, List.singleton_append]
      rw [shape] at list fresh listed ⊢
      obtain ⟨rfl, rfl⟩ := Prod.mk.inj same
      obtain ⟨list', regions⟩ := list.link
        (newRegion node size (nodeRegion u.mem p)) nonzero fresh
      refine ⟨before ++ p :: node :: c :: after, by rwa [← head], ?_, ?_⟩
      · rw [List.append_cons, List.append_cons before p (c :: after)]
        exact List.perm_middle
      · have last : ((before ++ [p]).map (nodeRegion u.mem)).getLast? =
            some (nodeRegion u.mem p) := by simp
        simp only [Mm.vmmRegionAllocUser, listed, last]
        rw [← regions]
        rfl

/-- Where the list ends in `NULL`, no other place is found. -/
theorem NodeList.alloc_ended (list : NodeList u.mem u.head own 0)
    (full : findGap size (own.map (nodeRegion u.mem)) = none) :
    u.vmmRegionAllocUser fuel node size = none := by
  rw [findGap, findPair_map, Option.map_eq_none_iff] at full
  cases own with
  | nil => rw [NodeMap.vmmRegionAllocUser, if_pos (show u.head = 0 from list.path)]
  | cons first rest =>
      obtain ⟨head, tail⟩ := list.path
      have halts : gapWalk u.mem size fuel first (u.mem (first + 24)) = none :=
        gapWalk_ended tail (fun n member => list.nonzero n (List.mem_cons_of_mem _ member)) full
      rw [NodeMap.vmmRegionAllocUser, head, halts, Option.map_none, ite_self]

/-- Without such a place, a call that returns leaves the links of the list alone, but for that of
its last node. -/
theorem NodeList.alloc_behind {last : Nat} {front : List Nat}
    (list : NodeList u.mem u.head (front ++ [last]) stop)
    (fresh : ∀ n ∈ front ++ [last], BlocksApart n node)
    (full : findGap size ((front ++ [last]).map (nodeRegion u.mem)) = none)
    (returned : u.vmmRegionAllocUser fuel node size = some (base, u')) :
    NodePath u'.mem 24 u'.head (front ++ [last]) (u'.mem (last + 24)) := by
  rw [findGap, findPair_map, Option.map_eq_none_iff] at full
  have refused := findPair_none full
  unfold NodeMap.vmmRegionAllocUser at returned
  split_ifs at returned
  obtain ⟨⟨p, c⟩, walk, same⟩ := Option.map_eq_some_iff.mp returned
  obtain ⟨-, rfl⟩ := Prod.mk.inj same
  obtain ⟨fit, next⟩ := gapWalk_fits walk
  have behind : p ∉ front := by
    intro listed
    obtain ⟨before, after, rfl⟩ := List.append_of_mem listed
    obtain ⟨follower, rest, shape⟩ := List.exists_cons_of_ne_nil (show after ++ [last] ≠ [] by simp)
    have path := list.path
    rw [List.append_assoc, List.cons_append, shape] at path refused
    have refuses := (List.isChain_append_cons_cons.mp refused).2.1
    rw [← path.link, next, fit] at refuses
    cases refuses
  exact list.path.redirect fun n listed => linkNode_next (fresh n (List.mem_append_left _ listed))
    (fun same => behind (same ▸ listed))

theorem NodeList.dealloc {first last freed : Nat} {before after : List Nat}
    (list : NodeList u.mem u.head (first :: (before ++ node :: (after ++ [last]))) stop)
    (absent : ∀ n ∈ first :: before, u.mem n ≠ base) (here : u.mem node = base)
    (returned : u.vmmRegionDeallocUser fuel base = some (freed, u')) :
    freed = node ∧ NodeList u'.mem u'.head (first :: (before ++ (after ++ [last]))) stop ∧
      Mm.vmmRegionDeallocUser base
          ⟨(first :: (before ++ node :: (after ++ [last]))).map (nodeRegion u.mem), u.mapped⟩ =
        some ⟨(first :: (before ++ (after ++ [last]))).map (nodeRegion u'.mem), u'.mapped⟩ := by
  have removed := removeRegion_middle (nodeRegion u.mem first) (before.map (nodeRegion u.mem))
    (after.map (nodeRegion u.mem)) (nodeRegion u.mem node) (nodeRegion u.mem last)
    (fun same => absent first List.mem_cons_self (same.trans here))
    (by
      intro r member same
      obtain ⟨n, listed, rfl⟩ := List.mem_map.mp member
      exact absent n (List.mem_cons_of_mem _ listed) (same.trans here))
  obtain ⟨front, prev, shape⟩ :=
    (List.eq_nil_or_concat' (first :: before)).resolve_left (List.cons_ne_nil _ _)
  obtain ⟨next, rest, behind⟩ := List.exists_cons_of_ne_nil
    (show after ++ [last] ≠ [] by simp)
  have whole : ∀ tail : List Nat, first :: (before ++ tail) = front ++ prev :: tail := by
    intro tail
    rw [← List.cons_append, shape, List.append_assoc, List.singleton_append]
  have linked : u.mem (node + 24) = next := by
    have path := list.path
    rw [← List.cons_append, behind] at path
    exact path.link
  have follows : u.mem (node + 24) ≠ 0 := by
    rw [linked]
    exact list.nonzero next (by rw [behind]; simp)
  have precedes : prev ≠ 0 := list.nonzero prev (by rw [whole]; simp)
  unfold NodeMap.vmmRegionDeallocUser at returned
  cases walk : nodeWalk u.mem base fuel 0 u.head with
  | none =>
      rw [walk] at returned
      cases returned
  | some found =>
      obtain ⟨p, c⟩ := found
      obtain ⟨p_eq, rfl⟩ := nodeWalk_front (first :: before) list.path list.nonzero absent here
        walk
      obtain rfl : prev = p := by
        rw [← p_eq, List.getLast_cons (List.cons_ne_nil _ _)]
        simp only [shape, List.getLast_append_singleton]
      simp only [walk, if_neg follows, if_neg precedes] at returned
      obtain ⟨rfl, rfl⟩ := Prod.mk.inj (Option.some.inj returned)
      obtain ⟨list', regions⟩ := (whole _ ▸ list).unlink
      refine ⟨rfl, whole _ ▸ list', ?_⟩
      have kept := List.map_congr_left regions
      rw [← whole] at kept
      rw [show (nodeRegion u.mem c).base = base from here] at removed
      rw [List.map_cons, List.map_append, List.map_cons, List.map_append, List.map_singleton,
        kept, List.map_cons, List.map_append, List.map_append, List.map_singleton]
      simp only [Mm.vmmRegionDeallocUser, removed]

end Refinement

end Nyaux.Mm
