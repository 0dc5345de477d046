import Nyaux.Fs.Create
import Nyaux.Fs.Initramfs
import Nyaux.Lib.Orbit

/-! The symlinks a path walk goes through, and when it ends. -/

namespace Nyaux.Fs

open CString Orbit

inductive Ending
  | directory (v : Nat)
  | missing
  | file (v : Nat)
  | link (dir symlink : Nat)

def ending (fs : Tmpfs) : Nat → List (List UInt8) → Ending
  | cur, [] => .directory cur
  | cur, c :: rest =>
      match vnodeLookup fs cur c with
      | some res =>
          match (fs.vnodes[res]?).map Vnode.type with
          | some .dir => ending fs res rest
          | some .symlink => .link cur res
          | _ => .file res
      | none => .missing

def Ending.met : Ending → Option (Nat × Nat)
  | .link dir symlink => some (dir, symlink)
  | _ => none

/-- From a symlink met in a directory, the symlink that its target meets first. -/
def nextLink (fs : Tmpfs) (s : Nat × Nat) : Option (Nat × Nat) :=
  (ending fs (startOf s.1 (walk.link fs s.2)) (components slash (walk.link fs s.2))).met

/-- The components that are looked up: in get-parent mode not the last one, if it is taken
for the last. -/
def walked (getparent flag : Bool) (cs : List (List UInt8)) : List (List UInt8) :=
  if flag = true ∧ getparent = true then cs.dropLast else cs

/-- The symlink that a call of `vnode_path_lookup` meets first. -/
def firstLink (fs : Tmpfs) (scratch : Scratch) (cur : Nat) (path : List UInt8)
    (getparent : Bool) : Option (Nat × Nat) :=
  (ending fs (startOf cur path)
    (walked getparent (lastFlag path scratch.garbage) (components slash path))).met

section

variable {fs : Tmpfs} {links : Nat → List UInt8 → Option (Option Nat)}

theorem follow_eq (cur : Nat) (cs : List (List UInt8)) :
    follow fs links cur cs = match ending fs cur cs with
      | .directory v => some (some v)
      | .missing => some none
      | .file v => some (some v)
      | .link dir symlink => links dir (walk.link fs symlink) := by
  induction cs generalizing cur with
  | nil => rfl
  | cons c rest ih =>
      rw [follow, ending]
      cases vnodeLookup fs cur c with
      | none => rfl
      | some res =>
          dsimp only
          cases (fs.vnodes[res]?).map Vnode.type with
          | none => rfl
          | some type =>
              cases type with
              | dir => exact ih res
              | file => rfl
              | symlink => rfl

theorem steps_isSome (getparent flag : Bool) (cur : Nat) (cs : List (List UInt8))
    (last : List UInt8) :
    (steps fs links getparent flag cur cs last).isSome ↔
      ∀ s, (ending fs cur (walked getparent flag cs)).met = some s →
        (links s.1 (walk.link fs s.2)).isSome := by
  induction cs generalizing cur with
  | nil =>
      unfold walked
      split <;> simp [steps, ending, Ending.met]
  | cons c rest ih =>
      rw [steps]
      by_cases here : rest = [] ∧ flag = true ∧ getparent = true
      · rw [if_pos here, walked, if_pos here.2, here.1]
        simp [ending, Ending.met]
      · rw [if_neg here]
        have shape : walked getparent flag (c :: rest) = c :: walked getparent flag rest := by
          unfold walked
          by_cases parent : flag = true ∧ getparent = true
          · rw [if_pos parent, if_pos parent, List.dropLast_cons_of_ne_nil]
            exact fun none => here ⟨none, parent⟩
          · rw [if_neg parent, if_neg parent]
        rw [shape, ending]
        cases vnodeLookup fs cur c with
        | none => simp [Ending.met]
        | some res =>
            dsimp only
            cases (fs.vnodes[res]?).map Vnode.type with
            | none => simp [Ending.met]
            | some type =>
                cases type with
                | dir => exact ih res
                | file => simp [Ending.met]
                | symlink => simp [Ending.met]

theorem leadsTo_isSome (depth : Nat) (s : Nat × Nat) :
    (leadsTo fs depth s.1 (walk.link fs s.2)).isSome ↔ iterate (nextLink fs) depth s = none := by
  induction depth generalizing s with
  | zero => simp [leadsTo, iterate]
  | succ depth ih =>
      rw [leadsTo, follow_eq, iterate, nextLink]
      cases ending fs (startOf s.1 (walk.link fs s.2)) (components slash (walk.link fs s.2)) with
      | directory v => simp [Ending.met]
      | missing => simp [Ending.met]
      | file v => simp [Ending.met]
      | link dir symlink => exact ih (dir, symlink)

/-- What the vnode is that a walk ends at. -/
def Ending.Kept (fs : Tmpfs) : Ending → Prop
  | .directory v => IsDir fs v
  | .missing => True
  | .file v => ¬IsDir fs v
  | .link dir symlink => IsDir fs dir ∧ IsSymlink fs symlink

theorem ending_kept {cur : Nat} {cs : List (List UInt8)} (walks : cs ≠ [] ∨ IsDir fs cur) :
    (ending fs cur cs).Kept fs := by
  induction cs generalizing cur with
  | nil => exact walks.resolve_left fun nonempty => nonempty rfl
  | cons c rest ih =>
      rw [ending]
      cases found : vnodeLookup fs cur c with
      | none => trivial
      | some res =>
          dsimp only
          cases type : (fs.vnodes[res]?).map Vnode.type with
          | none =>
              intro directory
              cases type.symm.trans (type_of_isDir directory)
          | some kind =>
              cases kind with
              | dir => exact ih (Or.inr (isDir_of_type type))
              | file =>
                  intro directory
                  cases type.symm.trans (type_of_isDir directory)
              | symlink => exact ⟨isDir_of_lookup found, isSymlink_of_type type⟩

theorem ending_link {cur dir symlink : Nat} {cs : List (List UInt8)}
    (met : ending fs cur cs = .link dir symlink) : IsDir fs dir ∧ IsSymlink fs symlink := by
  have walks : cs ≠ [] := by
    rintro rfl
    cases met
  have kept : (ending fs cur cs).Kept fs := ending_kept (Or.inl walks)
  rw [met] at kept
  exact kept

theorem isSymlink_lt {v : Nat} (symlink : IsSymlink fs v) : v < fs.vnodes.length := by
  obtain ⟨vnode, present, -⟩ := symlink
  exact (List.getElem?_eq_some_iff.mp present).1

def linkStates (fs : Tmpfs) : Finset (Nat × Nat) :=
  Finset.range fs.vnodes.length ×ˢ Finset.range fs.vnodes.length

theorem link_of_met {cur : Nat} {cs : List (List UInt8)} {s : Nat × Nat}
    (met : (ending fs cur cs).met = some s) : IsDir fs s.1 ∧ IsSymlink fs s.2 := by
  cases ends : ending fs cur cs with
  | link dir symlink =>
      rw [ends] at met
      obtain rfl := Option.some.inj met
      exact ending_link ends
  | directory v => rw [ends] at met; cases met
  | missing => rw [ends] at met; cases met
  | file v => rw [ends] at met; cases met

theorem met_mem {cur : Nat} {cs : List (List UInt8)} {s : Nat × Nat}
    (met : (ending fs cur cs).met = some s) : s ∈ linkStates fs := by
  obtain ⟨directory, symlink⟩ := link_of_met met
  apply Finset.mem_product.mpr
  exact ⟨Finset.mem_range.mpr (isDir_lt directory), Finset.mem_range.mpr (isSymlink_lt symlink)⟩

theorem nextLink_closed (s t : Nat × Nat) (step : nextLink fs s = some t) : t ∈ linkStates fs :=
  met_mem step

end

/-- The call returns after finitely many recursive calls. -/
def Returns (fs : Tmpfs) (scratch : Scratch) (cur : Nat) (path : List UInt8) (getparent : Bool)
    (last : List UInt8) : Prop :=
  ∃ depth, (vnodePathLookup fs scratch depth cur path getparent last).isSome

section Returns

variable {fs : Tmpfs} {scratch : Scratch} {cur : Nat} {path last : List UInt8} {getparent : Bool}

theorem vnodePathLookup_isSome (plain : 0 ∉ path) (depth : Nat) :
    (vnodePathLookup fs scratch (depth + 1) cur path getparent last).isSome ↔
      ∀ s, firstLink fs scratch cur path getparent = some s →
        iterate (nextLink fs) depth s = none := by
  rw [vnodePathLookup_eq fs scratch depth cur path getparent last plain, steps_isSome]
  refine forall₂_congr fun s met => ?_
  rw [vnodePathLookup_leadsTo scratch depth s.1 _ [] (zero_not_mem_link s.2)]
  exact leadsTo_isSome depth s

theorem returns_of_acyclic (plain : 0 ∉ path)
    (acyclic : ∀ s, firstLink fs scratch cur path getparent = some s →
      ∀ t, Reaches (nextLink fs) s t → ¬Recurs (nextLink fs) t) :
    Returns fs scratch cur path getparent last := by
  refine ⟨(linkStates fs).card + 1, (vnodePathLookup_isSome plain _).mpr fun s first => ?_⟩
  exact stops_of_not_recurs nextLink_closed (met_mem first) (acyclic s first)

end Returns

end Nyaux.Fs
