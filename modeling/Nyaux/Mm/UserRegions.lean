import Nyaux.Mm.FirstFit
import Nyaux.Mm.RegionNodes

/-! Which calls keep a user region list well formed.

`syscall_mmap` passes its size register on unchecked. `align_up(size, 4096)` wraps to
zero above `2 ^ 64 - 0x1000`, and adding `0x1000` to it wraps for sizes above
`2 ^ 64 - 0x2000`; in between lie the sizes for which first fit is exact. A size for which there is
no place in the list may still be served behind it, since the walk goes on from its last node. -/

namespace Nyaux.Mm

open Word Memory

inductive RegionOp where
  | alloc (size : BitVec 64) (node : Nat)
  | dealloc (base : Nat)
  | store (address value : Nat)
  deriving DecidableEq

structure UserRun where
  map : NodeMap
  nodes : List Nat
  live : List Nat

/-- `node` is the block `kmalloc` returns for the list node; other code keeps off the nodes. A call
that does not return within `fuel` nodes is no step. -/
def regionStep (fuel : Nat) (s : UserRun) : RegionOp → Option UserRun
  | .alloc size node =>
      if node ≠ 0 ∧ ∀ n ∈ s.nodes, BlocksApart n node then
        (s.map.vmmRegionAllocUser fuel node size.toNat).map fun (base, map) =>
          ⟨map, node :: s.nodes, base :: s.live⟩
      else none
  | .dealloc base =>
      if base ∈ s.live then
        (s.map.vmmRegionDeallocUser fuel base).map fun (node, map) =>
          ⟨map, s.nodes.erase node, s.live.erase base⟩
      else none
  | .store address value =>
      if ∀ n ∈ s.nodes, address < n ∨ n + 32 ≤ address then
        some { s with map := { s.map with mem := store s.map.mem address value } }
      else none

def regionRun (fuel : Nat) (s : UserRun) (ops : List RegionOp) : Option UserRun :=
  ops.foldlM (regionStep fuel) s

/-- The blocks `kmalloc` returns for the nodes `new_pagemap` makes. -/
structure FirstNodes where
  part : Nat
  kernel : Nat
  part_nonzero : part ≠ 0
  kernel_nonzero : kernel ≠ 0
  apart : BlocksApart part kernel

def sentinel : VmmRegion := ⟨0, 0, 0⟩

def kernelRegion (hhdm kernelHigherHalfSize : Nat) : VmmRegion := ⟨0, hhdm, kernelHigherHalfSize⟩

def FirstNodes.partRegion (first : FirstNodes) : VmmRegion := { sentinel with addr := first.part }

def FirstNodes.lastRegion (first : FirstNodes) (hhdm kernelHigherHalfSize : Nat) : VmmRegion :=
  { kernelRegion hhdm kernelHigherHalfSize with addr := first.kernel }

/-- The map `new_pagemap` makes where the memory holds `mem`. -/
def regionStart (hhdm kernelHigherHalfSize : Nat) (first : FirstNodes) (mem : Mem) : UserRun :=
  { map := NodeMap.newPagemap hhdm kernelHigherHalfSize first.part first.kernel mem
    nodes := [first.part, first.kernel]
    live := [] }

/-- The list: the map's own nodes from the head on, each once. -/
def UserRun.regions (s : UserRun) : List VmmRegion :=
  (follow s.map.mem 24 (fun node => node ∈ s.nodes) s.nodes.length s.map.head).map
    (nodeRegion s.map.mem)

def Below (a b : VmmRegion) : Prop := a.base + a.length ≤ b.base

/-- All nodes in use are in the list, sorted, disjoint, non-empty, without wrap-around and below the
kernel's region, the allocated regions having distinct bases. -/
def UserWellFormed (hhdm kernelHigherHalfSize : Nat) (first : FirstNodes) (s : UserRun) : Prop :=
  ∃ mids, s.regions = first.partRegion :: (mids ++ [first.lastRegion hhdm kernelHigherHalfSize]) ∧
    (s.regions.map VmmRegion.addr).Perm s.nodes ∧
    (∀ r ∈ mids, 0 < r.length ∧ r.base + r.length < 2 ^ 64 ∧ r.base + r.length ≤ hhdm) ∧
    s.regions.Pairwise Below ∧
    (mids.map VmmRegion.base).Nodup

/-- The sizes for which none of the three additions wraps and a page is mapped. -/
def InRange (size : Nat) : Prop := 1 ≤ size ∧ size ≤ 2 ^ 64 - 0x2000

instance (size : Nat) : Decidable (InRange size) := inferInstanceAs (Decidable (_ ∧ _))

/-- There is a place for it between two regions of the list. -/
def InFront (size : Nat) (s : UserRun) : Prop := (findGap size s.regions).isSome

instance (size : Nat) (s : UserRun) : Decidable (InFront size s) :=
  inferInstanceAs (Decidable (_ = true))

section Steps

variable {hhdm kernelHigherHalfSize : Nat} {first : FirstNodes} {fuel stop : Nat} {s t : UserRun}
  {own : List Nat} {mids : List VmmRegion}

structure UserInv (hhdm kernelHigherHalfSize : Nat) (first : FirstNodes) (stop : Nat) (s : UserRun)
    (own : List Nat) (mids : List VmmRegion) : Prop where
  list : NodeList s.map.mem s.map.head own stop
  nodes : own.Perm s.nodes
  regions : own.map (nodeRegion s.map.mem) =
    first.partRegion :: (mids ++ [first.lastRegion hhdm kernelHigherHalfSize])
  layout : Layout 0 first.partRegion mids (first.lastRegion hhdm kernelHigherHalfSize)
  nonempty : ∀ r ∈ mids, 0 < r.length
  live : s.live.Perm (mids.map VmmRegion.base)

theorem alignUp_inRange {size : Nat} (range : InRange size) :
    0 < alignUp size 4096 ∧ alignUp size 4096 ≤ 2 ^ 64 - 0x2000 ∧ size ≤ alignUp size 4096 ∧
      add64 (alignUp size 4096) 0x1000 = alignUp size 4096 + 0x1000 := by
  obtain ⟨positive, small⟩ := range
  have rounded := alignUp_page_of_le (show size ≤ 2 ^ 64 - 4096 by omega)
  have bounds : 0 < alignUp size 4096 ∧ alignUp size 4096 ≤ 2 ^ 64 - 0x2000 ∧
      size ≤ alignUp size 4096 := by
    rw [rounded]
    omega
  exact ⟨bounds.1, bounds.2.1, bounds.2.2, add64_of_lt (by omega)⟩

theorem alignUp_outOfRange {size : Nat} (word : size < 2 ^ 64) (outside : ¬ InRange size) :
    alignUp size 4096 = 0 ∨ alignUp size 4096 = 2 ^ 64 - 0x1000 := by
  unfold InRange at outside
  rw [alignUp_page]
  unfold add64
  omega

theorem layout_start (small : hhdm < 2 ^ 64) (part kernel : Nat) :
    Layout 0 ⟨part, 0, 0⟩ [] ⟨kernel, hhdm, kernelHigherHalfSize⟩ where
  origin_eq := rfl
  words := by
    intro r member
    rw [List.nil_append, List.mem_singleton] at member
    rw [member]
    exact small
  sorted := List.pairwise_singleton _ _

theorem regions_eq (list : NodeList s.map.mem s.map.head own stop) (nodes : own.Perm s.nodes) :
    s.regions = own.map (nodeRegion s.map.mem) := by
  have followed := list.path.follow_eq (fun node => node ∈ s.nodes)
    (fun node member => decide_eq_true (nodes.subset member)) 0
  rw [Nat.add_zero, follow, List.append_nil, nodes.length_eq] at followed
  rw [UserRun.regions, followed]

theorem nodeRegion_addr (mem : Mem) (nodes : List Nat) :
    (nodes.map (nodeRegion mem)).map VmmRegion.addr = nodes := by
  rw [List.map_map]
  exact List.map_id _

theorem UserInv.regions_eq (inv : UserInv hhdm kernelHigherHalfSize first stop s own mids) :
    s.regions = first.partRegion :: (mids ++ [first.lastRegion hhdm kernelHigherHalfSize]) :=
  (Mm.regions_eq inv.list inv.nodes).trans inv.regions

theorem UserInv.own_eq (inv : UserInv hhdm kernelHigherHalfSize first stop s own mids) :
    own = first.part :: (mids.map VmmRegion.addr ++ [first.kernel]) := by
  rw [← nodeRegion_addr s.map.mem own, inv.regions, List.map_cons, List.map_append]
  rfl

/-- The node of a region in the list holds this region. -/
theorem UserInv.region_at (inv : UserInv hhdm kernelHigherHalfSize first stop s own mids) :
    ∀ r ∈ first.partRegion :: (mids ++ [first.lastRegion hhdm kernelHigherHalfSize]),
      nodeRegion s.map.mem r.addr = r := by
  intro r listed
  rw [← inv.regions] at listed
  obtain ⟨n, -, rfl⟩ := List.mem_map.mp listed
  rfl

theorem wellFormed_of_inv (small : hhdm < 2 ^ 64)
    (inv : UserInv hhdm kernelHigherHalfSize first stop s own mids) :
    UserWellFormed hhdm kernelHigherHalfSize first s := by
  have layout := inv.layout
  have plain : (mids ++ [first.lastRegion hhdm kernelHigherHalfSize]).Pairwise Below := by
    apply layout.sorted.imp_of_mem
    intro a b memberA memberB ordered
    unfold Below
    rwa [pos_zero (layout.words a memberA), pos_zero (layout.words b memberB)] at ordered
  have below : ∀ r ∈ mids, r.base + r.length ≤ hhdm := by
    intro r member
    exact (List.pairwise_append.mp plain).2.2 r member _ (List.mem_singleton.mpr rfl)
  refine ⟨mids, inv.regions_eq, ?_, ?_, ?_, ?_⟩
  · rw [Mm.regions_eq inv.list inv.nodes, nodeRegion_addr]
    exact inv.nodes
  · intro r member
    have := below r member
    exact ⟨inv.nonempty r member, by omega, this⟩
  · rw [inv.regions_eq]
    refine List.pairwise_cons.mpr ⟨?_, plain⟩
    intro b _
    exact Nat.zero_le _
  · exact layout.bases_nodup inv.nonempty

theorem inv_start (small : hhdm < 2 ^ 64) (first : FirstNodes) (mem : Mem) :
    UserInv hhdm kernelHigherHalfSize first (mem (first.kernel + 24))
      (regionStart hhdm kernelHigherHalfSize first mem) [first.part, first.kernel] [] := by
  obtain ⟨list, regions⟩ := newPagemap_list hhdm kernelHigherHalfSize mem first.part_nonzero
    first.kernel_nonzero first.apart
  exact ⟨list, List.Perm.refl _, regions, layout_start small _ _, by simp,
    List.Perm.refl _⟩

theorem step_alloc {size : BitVec 64} {node : Nat}
    (step : regionStep fuel s (.alloc size node) = some t) :
    node ≠ 0 ∧ (∀ n ∈ s.nodes, BlocksApart n node) ∧ ∃ base map,
      s.map.vmmRegionAllocUser fuel node size.toNat = some (base, map) ∧
        t = ⟨map, node :: s.nodes, base :: s.live⟩ := by
  rw [regionStep] at step
  split_ifs at step with fresh
  obtain ⟨⟨base, map⟩, returned, same⟩ := Option.map_eq_some_iff.mp step
  exact ⟨fresh.1, fresh.2, base, map, returned, same.symm⟩

/-- What a call does that has a place between two nodes of the list. -/
theorem UserInv.served {size : BitVec 64} {node : Nat}
    (inv : UserInv hhdm kernelHigherHalfSize first stop s own mids)
    (place : InFront size.toNat s) (step : regionStep fuel s (.alloc size node) = some t) :
    ∃ own' before cur after base, NodeList t.map.mem t.map.head own' stop ∧
      own'.Perm t.nodes ∧ t.live = base :: s.live ∧
      mids ++ [first.lastRegion hhdm kernelHigherHalfSize] = before ++ cur :: after ∧
      fits size.toNat ((first.partRegion :: before).getLast (List.cons_ne_nil _ _)) cur = true ∧
      base = ((first.partRegion :: before).getLast (List.cons_ne_nil _ _)).stop ∧
      own'.map (nodeRegion t.map.mem) =
        first.partRegion :: (before ++ ⟨node, base, alignUp size.toNat 4096⟩ :: cur :: after) := by
  obtain ⟨nonzero, fresh, base, map, returned, rfl⟩ := step_alloc step
  rw [InFront, Mm.regions_eq inv.list inv.nodes] at place
  obtain ⟨own', list, perm, listed⟩ := inv.list.alloc nonzero
    (fun n member => fresh n (inv.nodes.subset member)) place returned
  obtain ⟨before, cur, after, split, fit, start, regions, -⟩ :=
    vmmRegionAllocUser_eq inv.regions listed
  exact ⟨own', before, cur, after, base, list, perm.trans (inv.nodes.cons node), rfl, split, fit, start,
    regions⟩

theorem inv_alloc {size : BitVec 64} {node : Nat}
    (inv : UserInv hhdm kernelHigherHalfSize first stop s own mids) (range : InRange size.toNat)
    (place : InFront size.toNat s) (step : regionStep fuel s (.alloc size node) = some t) :
    ∃ own' mids', UserInv hhdm kernelHigherHalfSize first stop t own' mids' := by
  obtain ⟨own', before, cur, after, base, list, nodes, live, split, fit, start, regions⟩ :=
    inv.served place step
  obtain ⟨positive, -, -, plain⟩ := alignUp_inRange range
  obtain ⟨rest, tail, rfl, layout, -, -⟩ := inv.layout.first_fit before after cur node size.toNat
    split fit plain ⟨node, base, alignUp size.toNat 4096⟩ (by rw [start]; rfl)
  refine ⟨own', before ++ ⟨node, base, alignUp size.toNat 4096⟩ :: rest, list, nodes, ?_, layout,
    ?_, ?_⟩
  · rw [regions, tail]
    simp
  · intro r member
    rcases List.mem_append.mp member with old | new
    · exact inv.nonempty r (List.mem_append_left _ old)
    · rcases List.mem_cons.mp new with rfl | old
      · exact positive
      · exact inv.nonempty r (List.mem_append_right _ old)
  · rw [live, List.map_append, List.map_cons]
    have held := inv.live.cons base
    rw [List.map_append] at held
    exact held.trans List.perm_middle.symm

theorem inv_dealloc {base : Nat}
    (inv : UserInv hhdm kernelHigherHalfSize first stop s own mids) (nonzero : base ≠ 0)
    (step : regionStep fuel s (.dealloc base) = some t) :
    ∃ own' mids', UserInv hhdm kernelHigherHalfSize first stop t own' mids' := by
  rw [regionStep] at step
  split_ifs at step with owned
  obtain ⟨⟨freed, map⟩, returned, rfl⟩ := Option.map_eq_some_iff.mp step
  obtain ⟨r, member, rfl⟩ := List.mem_map.mp (inv.live.subset owned)
  obtain ⟨before, after, rfl⟩ := List.append_of_mem member
  have bases := inv.layout.bases_nodup inv.nonempty
  have absent : ∀ x ∈ before, x.base ≠ r.base := by
    intro x earlier same
    rw [List.map_append, List.map_cons, List.nodup_append] at bases
    exact bases.2.2 x.base (List.mem_map_of_mem earlier) r.base List.mem_cons_self same
  have shape : own = first.part :: (before.map VmmRegion.addr ++ r.addr ::
      (after.map VmmRegion.addr ++ [first.kernel])) := by
    rw [inv.own_eq, List.map_append, List.map_cons, List.append_assoc, List.cons_append]
  subst shape
  obtain ⟨rfl, list, listed⟩ := inv.list.dealloc
    (by
      intro n earlier
      rcases List.mem_cons.mp earlier with rfl | earlier
      · have := congrArg VmmRegion.base (inv.region_at first.partRegion List.mem_cons_self)
        exact fun same => nonzero (same.symm.trans this)
      · obtain ⟨x, inside, rfl⟩ := List.mem_map.mp earlier
        have := congrArg VmmRegion.base (inv.region_at x (by simp [inside]))
        exact fun same => absent x inside (this.symm.trans same))
    (congrArg VmmRegion.base (inv.region_at r (by simp))) returned
  have removed := removeRegion_middle first.partRegion before after r
    (first.lastRegion hhdm kernelHigherHalfSize) (fun same => nonzero same.symm) absent
  have regions := inv.regions
  rw [List.append_assoc, List.cons_append] at regions
  rw [regions, vmmRegionDeallocUser] at listed
  simp only [removed, Option.some.injEq, UserMap.mk.injEq] at listed
  have sub : (before ++ after).Sublist (before ++ r :: after) :=
    (List.sublist_cons_self r after).append_left before
  refine ⟨_, before ++ after, list, ?_, ?_, inv.layout.remove _ sub,
    fun x kept => inv.nonempty x (sub.subset kept), ?_⟩
  · have perm := inv.nodes
    rw [← List.cons_append] at perm ⊢
    simpa using (List.perm_middle.symm.trans perm).erase r.addr
  · rw [← listed.1, List.append_assoc]
  · have live := inv.live
    rw [List.map_append, List.map_cons] at live
    rw [List.map_append]
    simpa using (live.trans List.perm_middle).erase r.base

theorem inv_store {address value : Nat}
    (inv : UserInv hhdm kernelHigherHalfSize first stop s own mids)
    (step : regionStep fuel s (.store address value) = some t) :
    UserInv hhdm kernelHigherHalfSize first stop t own mids := by
  rw [regionStep] at step
  split_ifs at step with clear
  obtain rfl := Option.some.inj step
  have kept : ∀ n ∈ own, ∀ word < 32, store s.map.mem address value (n + word) =
      s.map.mem (n + word) := by
    intro n member word small
    have := clear n (inv.nodes.subset member)
    exact store_other _ _ _ _ (by omega)
  refine ⟨⟨inv.list.path.frame fun n member => kept n member 24 (by decide), inv.list.nonzero,
    inv.list.apart⟩, inv.nodes, ?_, inv.layout, inv.nonempty, inv.live⟩
  rw [← inv.regions]
  apply List.map_congr_left
  intro n member
  exact congrArg₂ (VmmRegion.mk n) (kept n member 0 (by decide)) (kept n member 8 (by decide))

theorem spoiled_size {size : BitVec 64} {node : Nat} (low : hhdm < 2 ^ 64 - 2 ^ 31)
    (inv : UserInv hhdm kernelHigherHalfSize first stop s own mids)
    (place : InFront size.toNat s) (outside : ¬ InRange size.toNat)
    (step : regionStep fuel s (.alloc size node) = some t) :
    ¬ UserWellFormed hhdm kernelHigherHalfSize first t := by
  obtain ⟨own', before, cur, after, base, list, nodes, -, split, -, -, regions⟩ :=
    inv.served place step
  rintro ⟨mids', shape, -, good, -, -⟩
  rw [Mm.regions_eq list nodes] at shape
  have same := regions.symm.trans shape
  obtain ⟨rest, tail, -⟩ := split_last split
  rw [List.cons.injEq, tail, ← List.cons_append, ← List.append_assoc] at same
  have member : (⟨node, base, alignUp size.toNat 4096⟩ : VmmRegion) ∈ mids' := by
    rw [← List.append_cancel_right same.2]
    exact List.mem_append_right _ List.mem_cons_self
  obtain ⟨positive, -, below⟩ := good _ member
  dsimp only at positive below
  rcases alignUp_outOfRange size.isLt outside with zero | huge
  · omega
  · omega

theorem spoiled_place {size : BitVec 64} {node : Nat}
    (inv : UserInv hhdm kernelHigherHalfSize first stop s own mids)
    (full : ¬ InFront size.toNat s) (step : regionStep fuel s (.alloc size node) = some t) :
    ¬ UserWellFormed hhdm kernelHigherHalfSize first t := by
  obtain ⟨-, fresh, base, map, returned, rfl⟩ := step_alloc step
  have own_fresh : ∀ n ∈ own, BlocksApart n node := fun n member => fresh n (inv.nodes.subset member)
  have shape : own = (first.partRegion :: mids).map VmmRegion.addr ++ [first.kernel] := by
    rw [inv.own_eq]
    rfl
  rw [InFront, Mm.regions_eq inv.list inv.nodes, Bool.not_eq_true, Option.isSome_eq_false_iff,
    Option.isNone_iff_eq_none] at full
  have path := (shape ▸ inv.list).alloc_behind (shape ▸ own_fresh) (shape ▸ full) returned
  rw [← shape] at path
  have followed := path.follow_eq (fun n => n ∈ node :: s.nodes)
    (fun n member => decide_eq_true (List.mem_cons_of_mem _ (inv.nodes.subset member))) 1
  have nodup : (node :: s.nodes).Nodup := by
    refine List.nodup_cons.mpr ⟨fun listed => (fresh node listed).ne rfl, ?_⟩
    exact inv.nodes.nodup_iff.mp (inv.list.apart.imp BlocksApart.ne)
  rintro ⟨mids', regions, perm, -⟩
  have addrs := congrArg (List.map VmmRegion.addr) regions
  have length : (node :: s.nodes).length = own.length + 1 := by
    rw [List.length_cons, inv.nodes.length_eq]
  simp only [UserRun.regions, nodeRegion_addr, length, followed] at addrs perm
  obtain ⟨x, one⟩ : ∃ x, follow map.mem 24 (fun n => n ∈ node :: s.nodes) 1
      (map.mem (first.kernel + 24)) = [x] := by
    have counted := perm.length_eq
    rw [List.length_append, length] at counted
    exact List.length_eq_one_iff.mp (Nat.add_left_cancel counted)
  rw [one] at addrs perm
  rw [← List.cons_append, List.map_append, List.map_singleton] at addrs
  obtain rfl : x = first.kernel := List.singleton_inj.mp (List.append_inj_right' addrs rfl)
  have listed : first.kernel ∈ own := by
    rw [shape]
    simp
  exact (List.nodup_append.mp (perm.nodup_iff.mpr nodup)).2.2 _ listed _ (by simp) rfl

/-- Where the list ends in `NULL`, only a size with a place in it is served. -/
theorem inFront_of_ended {size : BitVec 64} {node : Nat}
    (inv : UserInv hhdm kernelHigherHalfSize first 0 s own mids)
    (step : regionStep fuel s (.alloc size node) = some t) : InFront size.toNat s := by
  obtain ⟨-, -, base, map, returned, rfl⟩ := step_alloc step
  rw [InFront, Mm.regions_eq inv.list inv.nodes, Option.isSome_iff_ne_none]
  intro full
  rw [inv.list.alloc_ended full] at returned
  cases returned

end Steps

theorem regionRun_snoc (fuel : Nat) (s : UserRun) (ops : List RegionOp) (op : RegionOp) :
    regionRun fuel s (ops ++ [op]) =
      (regionRun fuel s ops).bind fun s' => regionStep fuel s' op := by
  rw [regionRun, List.foldlM_append]
  simp only [List.foldlM_cons, List.foldlM_nil, bind_pure]
  rfl

/-- A call in a run that returned, with the state it was made in. -/
def Accepted (start : UserRun) (ops : List RegionOp) (s : UserRun) (size : BitVec 64) : Prop :=
  ∃ fuel pre node t, pre ++ [.alloc size node] <+: ops ∧ regionRun fuel start pre = some s ∧
    regionStep fuel s (.alloc size node) = some t

theorem Accepted.longer {start s : UserRun} {ops ops' : List RegionOp} {size : BitVec 64}
    (accepted : Accepted start ops s size) (longer : ops <+: ops') : Accepted start ops' s size := by
  obtain ⟨fuel, pre, node, t, inside, rest⟩ := accepted
  exact ⟨fuel, pre, node, t, inside.trans longer, rest⟩

/-- What holds of a call when it holds of all before it holds of every call in a run. -/
theorem Accepted.induction {start : UserRun} {ops : List RegionOp}
    {P : UserRun → BitVec 64 → Prop}
    (call : ∀ fuel pre node s size t, pre ++ [.alloc size node] <+: ops →
      regionRun fuel start pre = some s → regionStep fuel s (.alloc size node) = some t →
      (∀ s' size', Accepted start pre s' size' → P s' size') → P s size) :
    ∀ s size, Accepted start ops s size → P s size := by
  rintro s size ⟨fuel, pre, node, t, inside, run, step⟩
  -- on the position of the call
  induction hn : pre.length using Nat.strong_induction_on generalizing fuel pre s size node t with
  | _ n ih =>
      apply call fuel pre node s size t inside run step
      rintro s' size' ⟨fuel', pre', node', t', inside', run', step'⟩
      have shorter : pre'.length < n := by
        have := inside'.length_le
        simp only [List.length_append, List.length_singleton] at this
        omega
      have prefixed : pre <+: ops := (List.prefix_append pre _).trans inside
      exact ih pre'.length shorter s' size' fuel' pre' node' t' (inside'.trans prefixed) run' step'
        rfl

section Runs

variable (hhdm kernelHigherHalfSize : Nat) (first : FirstNodes) (mem : Mem) (ops : List RegionOp)

/-- The property the list should keep, in every state a run goes through. -/
def StaysWellFormed : Prop :=
  ∀ fuel pre s, pre <+: ops →
    regionRun fuel (regionStart hhdm kernelHigherHalfSize first mem) pre = some s →
    UserWellFormed hhdm kernelHigherHalfSize first s

/-- The same for the bases of the whole list, its empty first region included. -/
def StaysDistinct : Prop :=
  ∀ fuel pre s, pre <+: ops →
    regionRun fuel (regionStart hhdm kernelHigherHalfSize first mem) pre = some s →
    (s.regions.map VmmRegion.base).Nodup

def AllFit : Prop :=
  ∀ s size, Accepted (regionStart hhdm kernelHigherHalfSize first mem) ops s size →
    InRange size.toNat ∧ InFront size.toNat s

variable {hhdm kernelHigherHalfSize first mem ops}

theorem inv_run (small : hhdm < 2 ^ 64) (keepsSentinel : .dealloc 0 ∉ ops)
    (range : ∀ s size, Accepted (regionStart hhdm kernelHigherHalfSize first mem) ops s size →
      InRange size.toNat)
    (place : ∀ s size, Accepted (regionStart hhdm kernelHigherHalfSize first mem) ops s size →
      InFront size.toNat s ∨ mem (first.kernel + 24) = 0)
    {fuel : Nat} {s : UserRun}
    (run : regionRun fuel (regionStart hhdm kernelHigherHalfSize first mem) ops = some s) :
    ∃ own mids, UserInv hhdm kernelHigherHalfSize first (mem (first.kernel + 24)) s own mids := by
  induction ops using List.reverseRecOn generalizing s with
  | nil =>
      obtain rfl : regionStart hhdm kernelHigherHalfSize first mem = s := Option.some.inj run
      exact ⟨_, _, inv_start small first mem⟩
  | append_singleton ops op ih =>
      rw [regionRun_snoc, Option.bind_eq_some_iff] at run
      obtain ⟨before, earlier, step⟩ := run
      have prefixed : ops <+: ops ++ [op] := List.prefix_append ops [op]
      obtain ⟨own, mids, inv⟩ := ih (fun listed => keepsSentinel (List.mem_append_left _ listed))
        (fun s size accepted => range s size (accepted.longer prefixed))
        (fun s size accepted => place s size (accepted.longer prefixed)) earlier
      cases op with
      | alloc size node =>
          have accepted : Accepted _ (ops ++ [.alloc size node]) before size :=
            ⟨fuel, ops, node, s, List.prefix_refl _, earlier, step⟩
          refine inv_alloc inv (range before size accepted) ?_ step
          rcases place before size accepted with front | ended
          · exact front
          · exact inFront_of_ended (ended ▸ inv) step
      | dealloc base =>
          refine inv_dealloc inv ?_ step
          rintro rfl
          exact keepsSentinel (List.mem_append_right _ (List.mem_singleton.mpr rfl))
      | store address value => exact ⟨own, mids, inv_store inv step⟩

/-- A list that stays well formed has only taken what fits: the first other call would have
spoiled it. -/
theorem allFit_of_stays (low : hhdm < 2 ^ 64 - 2 ^ 31) (keepsSentinel : .dealloc 0 ∉ ops)
    (stays : StaysWellFormed hhdm kernelHigherHalfSize first mem ops) :
    AllFit hhdm kernelHigherHalfSize first mem ops := by
  apply Accepted.induction
  intro fuel pre node s size t inside run step fit
  have prefixed : pre <+: ops := (List.prefix_append pre _).trans inside
  obtain ⟨own, mids, inv⟩ := inv_run (by omega)
    (fun listed => keepsSentinel (prefixed.subset listed))
    (fun s size accepted => (fit s size accepted).1)
    (fun s size accepted => .inl (fit s size accepted).2) run
  have kept : UserWellFormed hhdm kernelHigherHalfSize first t := by
    apply stays fuel _ t inside
    rw [regionRun_snoc, run]
    exact step
  by_cases place : InFront size.toNat s
  · by_contra other
    exact spoiled_size low inv place (fun range => other ⟨range, place⟩) step kept
  · exact absurd kept (spoiled_place inv place step)

theorem stays_of_allFit (small : hhdm < 2 ^ 64) (keepsSentinel : .dealloc 0 ∉ ops)
    (fit : AllFit hhdm kernelHigherHalfSize first mem ops) :
    StaysWellFormed hhdm kernelHigherHalfSize first mem ops := by
  intro fuel pre s prefixed run
  obtain ⟨own, mids, inv⟩ := inv_run small (fun listed => keepsSentinel (prefixed.subset listed))
    (fun s size accepted => (fit s size (accepted.longer prefixed)).1)
    (fun s size accepted => .inl (fit s size (accepted.longer prefixed)).2) run
  exact wellFormed_of_inv small inv

theorem live_nil {fuel : Nat} {s : UserRun}
    (refused : ∀ s size, ¬ Accepted (regionStart hhdm kernelHigherHalfSize first mem) ops s size)
    (run : regionRun fuel (regionStart hhdm kernelHigherHalfSize first mem) ops = some s) :
    s.live = [] := by
  induction ops using List.reverseRecOn generalizing s with
  | nil =>
      obtain rfl : regionStart hhdm kernelHigherHalfSize first mem = s := Option.some.inj run
      rfl
  | append_singleton ops op ih =>
      rw [regionRun_snoc, Option.bind_eq_some_iff] at run
      obtain ⟨before, earlier, step⟩ := run
      have none_live := ih
        (fun s size accepted => refused s size (accepted.longer (List.prefix_append ops [op])))
        earlier
      cases op with
      | alloc size node =>
          exact absurd ⟨fuel, ops, node, s, List.prefix_refl _, earlier, step⟩ (refused before size)
      | dealloc base =>
          rw [regionStep, none_live, if_neg List.not_mem_nil] at step
          cases step
      | store address value =>
          rw [regionStep] at step
          split_ifs at step
          rw [← Option.some.inj step]
          exact none_live

theorem refused_of_distinct (small : hhdm < 2 ^ 64) (keepsSentinel : .dealloc 0 ∉ ops)
    (fit : AllFit hhdm kernelHigherHalfSize first mem ops)
    (distinct : StaysDistinct hhdm kernelHigherHalfSize first mem ops) :
    ∀ s size, ¬ Accepted (regionStart hhdm kernelHigherHalfSize first mem) ops s size := by
  apply Accepted.induction
  intro fuel pre node s size t inside run step refused
  have prefixed : pre <+: ops := (List.prefix_append pre _).trans inside
  have live : s.live = [] := live_nil refused run
  obtain ⟨own, mids, inv⟩ := inv_run small (fun listed => keepsSentinel (prefixed.subset listed))
    (fun s size accepted => (fit s size (accepted.longer prefixed)).1)
    (fun s size accepted => .inl (fit s size (accepted.longer prefixed)).2) run
  have place := (fit s size ⟨fuel, pre, node, t, inside, run, step⟩).2
  obtain rfl : mids = [] := by
    have := inv.live
    rw [live] at this
    exact List.map_eq_nil_iff.mp this.nil_eq.symm
  have nodup := distinct fuel _ t inside (by rw [regionRun_snoc, run]; exact step)
  obtain ⟨own', before, cur, after, base, list, nodes, -, split, -, start, regions⟩ :=
    inv.served place step
  obtain rfl : before = [] := by
    have := congrArg List.length split
    simp only [List.nil_append, List.length_append, List.length_cons, List.length_nil] at this
    exact List.eq_nil_of_length_eq_zero (by omega)
  have zero : base = 0 := start
  rw [Mm.regions_eq list nodes, regions, zero] at nodup
  simp [FirstNodes.partRegion, sentinel] at nodup

theorem distinct_of_refused (small : hhdm < 2 ^ 64) (nonzero : 0 < hhdm)
    (keepsSentinel : .dealloc 0 ∉ ops)
    (refused : ∀ s size, ¬ Accepted (regionStart hhdm kernelHigherHalfSize first mem) ops s size) :
    StaysDistinct hhdm kernelHigherHalfSize first mem ops := by
  intro fuel pre s prefixed run
  have never : ∀ s size,
      ¬ Accepted (regionStart hhdm kernelHigherHalfSize first mem) pre s size :=
    fun s size accepted => refused s size (accepted.longer prefixed)
  obtain ⟨own, mids, inv⟩ := inv_run small (fun listed => keepsSentinel (prefixed.subset listed))
    (fun s size accepted => absurd accepted (never s size))
    (fun s size accepted => absurd accepted (never s size)) run
  obtain rfl : mids = [] := by
    have := inv.live
    rw [live_nil never run] at this
    exact List.map_eq_nil_iff.mp this.nil_eq.symm
  rw [inv.regions_eq]
  simp [FirstNodes.partRegion, FirstNodes.lastRegion, sentinel, kernelRegion, nonzero.ne]

end Runs

/-- In every run that never frees base 0, all states gone through are well formed exactly when every
size served is at least 1, at most `2 ^ 64 - 0x2000`, and has its place between two regions of the
list. Counting the empty first region, the bases stay distinct as well exactly when nothing is ever
served. -/
theorem user_regions_iff (hhdm kernelHigherHalfSize : Nat) (low : hhdm < 2 ^ 64 - 2 ^ 31)
    (nonzero : 0 < hhdm) (first : FirstNodes) (mem : Mem) (ops : List RegionOp)
    (keepsSentinel : .dealloc 0 ∉ ops) :
    (StaysWellFormed hhdm kernelHigherHalfSize first mem ops ↔
      ∀ s size, Accepted (regionStart hhdm kernelHigherHalfSize first mem) ops s size →
        InRange size.toNat ∧ InFront size.toNat s) ∧
    (StaysWellFormed hhdm kernelHigherHalfSize first mem ops ∧
        StaysDistinct hhdm kernelHigherHalfSize first mem ops ↔
      ∀ s size, ¬ Accepted (regionStart hhdm kernelHigherHalfSize first mem) ops s size) := by
  have small : hhdm < 2 ^ 64 := by omega
  refine ⟨⟨allFit_of_stays low keepsSentinel, stays_of_allFit small keepsSentinel⟩, ?_, ?_⟩
  · rintro ⟨stays, distinct⟩
    exact refused_of_distinct small keepsSentinel (allFit_of_stays low keepsSentinel stays) distinct
  · intro refused
    exact ⟨stays_of_allFit small keepsSentinel fun s size accepted =>
      absurd accepted (refused s size), distinct_of_refused small nonzero keepsSentinel refused⟩

/-- Two blocks that held nodes before: the one now taken for the last node still leads to the one
taken for the first. -/
def recycledNodes : FirstNodes where
  part := 0xffff800000102040
  kernel := 0xffff800000102020
  part_nonzero := by decide
  kernel_nonzero := by decide
  apart := by decide

def recycledMem : Mem := fun address =>
  if address = 0xffff800000102038 then 0xffff800000102040 else 0

theorem user_regions_iff_recycled :
    .dealloc 0 ∉ [RegionOp.alloc 4096 0x1000, .alloc 8192 0x1020, .dealloc 4096] ∧
      ((StaysWellFormed 0xffff800000000000 0xffffffff80100000 recycledNodes recycledMem
          [.alloc 4096 0x1000, .alloc 8192 0x1020, .dealloc 4096] ↔
        ∀ s size, Accepted (regionStart 0xffff800000000000 0xffffffff80100000 recycledNodes
            recycledMem) [.alloc 4096 0x1000, .alloc 8192 0x1020, .dealloc 4096] s size →
          InRange size.toNat ∧ InFront size.toNat s) ∧
      (StaysWellFormed 0xffff800000000000 0xffffffff80100000 recycledNodes recycledMem
            [.alloc 4096 0x1000, .alloc 8192 0x1020, .dealloc 4096] ∧
          StaysDistinct 0xffff800000000000 0xffffffff80100000 recycledNodes recycledMem
            [.alloc 4096 0x1000, .alloc 8192 0x1020, .dealloc 4096] ↔
        ∀ s size, ¬ Accepted (regionStart 0xffff800000000000 0xffffffff80100000 recycledNodes
          recycledMem) [.alloc 4096 0x1000, .alloc 8192 0x1020, .dealloc 4096] s size)) :=
  ⟨by decide, user_regions_iff 0xffff800000000000 0xffffffff80100000 (by norm_num) (by norm_num)
    recycledNodes recycledMem [.alloc 4096 0x1000, .alloc 8192 0x1020, .dealloc 4096] (by decide)⟩

/-- Zero bytes make an empty region, and a size one page short of the whole address space makes one
that covers the kernel's. Of two sizes in range, the second finds no place in front of the kernel's
region and is served behind it. -/
theorem user_regions_spoiled :
    ¬ StaysWellFormed 0xffff800000000000 0xffffffff80100000 recycledNodes (fun _ => 0)
        [.alloc 0 0x1000] ∧
      ¬ StaysWellFormed 0xffff800000000000 0xffffffff80100000 recycledNodes (fun _ => 0)
        [.alloc 0xfffffffffffff000 0x1000] ∧
      ¬ StaysWellFormed 0xffff800000000000 0xffffffff80100000 recycledNodes recycledMem
        [.alloc 0xffff7fffffffe000 0x1000, .alloc 0x2000 0x1020] := by
  refine ⟨fun stays => ?_, fun stays => ?_, fun stays => ?_⟩
  · have fit := allFit_of_stays (by norm_num) (by decide) stays _ _
      ⟨4, [], 0x1000, _, List.prefix_refl _, rfl, rfl⟩
    exact absurd fit.1 (by decide)
  · have fit := allFit_of_stays (by norm_num) (by decide) stays _ _
      ⟨4, [], 0x1000, _, List.prefix_refl _, rfl, rfl⟩
    exact absurd fit.1 (by decide)
  · have fit := allFit_of_stays (by norm_num) (by decide) stays _ _
      ⟨4, [.alloc 0xffff7fffffffe000 0x1000], 0x1020, _, List.prefix_refl _, rfl, rfl⟩
    exact absurd fit.2 (by decide)

/-- Where the word behind the last node is `NULL`, the sizes alone decide. -/
theorem user_regions_ended_iff (hhdm kernelHigherHalfSize : Nat) (low : hhdm < 2 ^ 64 - 2 ^ 31)
    (first : FirstNodes) (mem : Mem) (ended : mem (first.kernel + 24) = 0) (ops : List RegionOp)
    (keepsSentinel : .dealloc 0 ∉ ops) :
    StaysWellFormed hhdm kernelHigherHalfSize first mem ops ↔
      ∀ s size, Accepted (regionStart hhdm kernelHigherHalfSize first mem) ops s size →
        InRange size.toNat := by
  have small : hhdm < 2 ^ 64 := by omega
  constructor
  · exact fun stays s size accepted => (allFit_of_stays low keepsSentinel stays s size accepted).1
  · intro range fuel pre s prefixed run
    obtain ⟨own, mids, inv⟩ := inv_run small (fun listed => keepsSentinel (prefixed.subset listed))
      (fun s size accepted => range s size (accepted.longer prefixed)) (fun _ _ _ => .inr ended) run
    exact wellFormed_of_inv small inv

end Nyaux.Mm
