import Nyaux.Lib.Memory

/-! Lists linked through memory whose last link goes anywhere. -/

namespace Nyaux.Memory

/-- The nodes met from the link `first` on, up to where the link is `stop`. -/
def NodePath (mem : Mem) (offset : Nat) : Nat → List Nat → Nat → Prop
  | first, [], stop => first = stop
  | first, node :: rest, stop => first = node ∧ NodePath mem offset (mem (node + offset)) rest stop

/-- The nodes met from `link` on, as long as they are `listed`. -/
def follow (mem : Mem) (offset : Nat) (listed : Nat → Bool) : Nat → Nat → List Nat
  | 0, _ => []
  | count + 1, link =>
      if listed link then link :: follow mem offset listed count (mem (link + offset)) else []

namespace NodePath

variable {mem mem' : Mem} {offset first stop : Nat} {nodes front back : List Nat}

theorem append : NodePath mem offset first (front ++ back) stop ↔
    ∃ link, NodePath mem offset first front link ∧ NodePath mem offset link back stop := by
  induction front generalizing first with
  | nil => simp [NodePath]
  | cons node rest ih =>
      rw [List.cons_append, NodePath, ih]
      simp only [NodePath, and_assoc, exists_and_left]

theorem frame (path : NodePath mem offset first nodes stop)
    (same : ∀ node ∈ nodes, mem' (node + offset) = mem (node + offset)) :
    NodePath mem' offset first nodes stop := by
  induction nodes generalizing first with
  | nil => exact path
  | cons node rest ih =>
      obtain ⟨rfl, tail⟩ := path
      refine ⟨rfl, ?_⟩
      rw [same first List.mem_cons_self]
      exact ih tail fun other member => same other (List.mem_cons_of_mem _ member)

theorem link {a b : Nat} (path : NodePath mem offset first (front ++ a :: b :: back) stop) :
    mem (a + offset) = b := by
  obtain ⟨_, -, rfl, same, -⟩ := append.mp path
  exact same

theorem redirect {last : Nat} (path : NodePath mem offset first (front ++ [last]) stop)
    (same : ∀ node ∈ front, mem' (node + offset) = mem (node + offset)) :
    NodePath mem' offset first (front ++ [last]) (mem' (last + offset)) := by
  obtain ⟨link, before, rfl, -⟩ := append.mp path
  exact append.mpr ⟨link, before.frame same, rfl, rfl⟩

theorem insert {prev new : Nat} (path : NodePath mem offset first (front ++ prev :: back) stop)
    (atPrev : mem' (prev + offset) = new) (atNew : mem' (new + offset) = mem (prev + offset))
    (same : ∀ node ∈ front ++ back, mem' (node + offset) = mem (node + offset)) :
    NodePath mem' offset first (front ++ prev :: new :: back) stop := by
  obtain ⟨link, before, rfl, after⟩ := append.mp path
  refine append.mpr ⟨link, before.frame fun node member => same node (by simp [member]), rfl, ?_⟩
  refine ⟨atPrev, ?_⟩
  rw [atNew]
  exact after.frame fun node member => same node (by simp [member])

theorem remove {prev node : Nat}
    (path : NodePath mem offset first (front ++ prev :: node :: back) stop)
    (atPrev : mem' (prev + offset) = mem (node + offset))
    (same : ∀ other ∈ front ++ back, mem' (other + offset) = mem (other + offset)) :
    NodePath mem' offset first (front ++ prev :: back) stop := by
  obtain ⟨link, before, rfl, -, after⟩ := append.mp path
  refine append.mpr ⟨link, before.frame fun other member => same other (by simp [member]), rfl, ?_⟩
  rw [atPrev]
  exact after.frame fun other member => same other (by simp [member])

theorem follow_eq (path : NodePath mem offset first nodes stop) (listed : Nat → Bool)
    (all : ∀ node ∈ nodes, listed node) (more : Nat) :
    follow mem offset listed (nodes.length + more) first =
      nodes ++ follow mem offset listed more stop := by
  induction nodes generalizing first with
  | nil =>
      rw [show first = stop from path, List.length_nil, Nat.zero_add, List.nil_append]
  | cons node rest ih =>
      obtain ⟨rfl, tail⟩ := path
      rw [List.length_cons, Nat.add_right_comm, follow, if_pos (all first List.mem_cons_self),
        ih tail fun other member => all other (List.mem_cons_of_mem _ member), List.cons_append]

end NodePath

end Nyaux.Memory
