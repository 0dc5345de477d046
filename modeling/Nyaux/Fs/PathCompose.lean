import Nyaux.Fs.LinkWalk
import Nyaux.Fs.Shadow

/-! Looking a path up in two parts. -/

namespace Nyaux.Fs

open CString Orbit

inductive Resolves (fs : Tmpfs) : Nat → List UInt8 → Option Nat → Prop
  | directory {cur v : Nat} {path : List UInt8}
      (ends : ending fs (startOf cur path) (components slash path) = .directory v) :
      Resolves fs cur path (some v)
  | file {cur v : Nat} {path : List UInt8}
      (ends : ending fs (startOf cur path) (components slash path) = .file v) :
      Resolves fs cur path (some v)
  | missing {cur : Nat} {path : List UInt8}
      (ends : ending fs (startOf cur path) (components slash path) = .missing) :
      Resolves fs cur path none
  | link {cur dir symlink : Nat} {path : List UInt8} {result : Option Nat}
      (ends : ending fs (startOf cur path) (components slash path) = .link dir symlink)
      (onward : Resolves fs dir (walk.link fs symlink) result) : Resolves fs cur path result

def NoLinkCycle (fs : Tmpfs) : Prop := ∀ s, ¬Recurs (nextLink fs) s

section

variable {fs : Tmpfs} {cur d : Nat} {path p q : List UInt8}

theorem resolves_of_leadsTo {depth : Nat} {result : Option Nat}
    (leads : leadsTo fs depth cur path = some result) : Resolves fs cur path result := by
  induction depth generalizing cur path with
  | zero => cases leads
  | succ depth ih =>
      rw [leadsTo, follow_eq] at leads
      cases ends : ending fs (startOf cur path) (components slash path) with
      | directory v =>
          rw [ends] at leads
          exact Option.some.inj leads ▸ .directory ends
      | missing =>
          rw [ends] at leads
          exact Option.some.inj leads ▸ .missing ends
      | file v =>
          rw [ends] at leads
          exact Option.some.inj leads ▸ .file ends
      | link dir symlink =>
          rw [ends] at leads
          exact .link ends (ih leads)

theorem Resolves.leadsTo {result : Option Nat} (resolves : Resolves fs cur path result) :
    ∃ depth, Fs.leadsTo fs depth cur path = some result := by
  induction resolves with
  | directory ends => exact ⟨1, by rw [Fs.leadsTo, follow_eq, ends]⟩
  | file ends => exact ⟨1, by rw [Fs.leadsTo, follow_eq, ends]⟩
  | missing ends => exact ⟨1, by rw [Fs.leadsTo, follow_eq, ends]⟩
  | link ends onward ih =>
      obtain ⟨depth, leads⟩ := ih
      exact ⟨depth + 1, by rw [Fs.leadsTo, follow_eq, ends]; exact leads⟩

theorem Resolves.unique {first second : Option Nat} (left : Resolves fs cur path first)
    (right : Resolves fs cur path second) : first = second := by
  induction left with
  | directory ends =>
      cases right with
      | directory ends' => rw [Ending.directory.inj (ends.symm.trans ends')]
      | file ends' => cases ends.symm.trans ends'
      | missing ends' => cases ends.symm.trans ends'
      | link ends' onward => cases ends.symm.trans ends'
  | file ends =>
      cases right with
      | directory ends' => cases ends.symm.trans ends'
      | file ends' => rw [Ending.file.inj (ends.symm.trans ends')]
      | missing ends' => cases ends.symm.trans ends'
      | link ends' onward => cases ends.symm.trans ends'
  | missing ends =>
      cases right with
      | directory ends' => cases ends.symm.trans ends'
      | file ends' => cases ends.symm.trans ends'
      | missing ends' => rfl
      | link ends' onward => cases ends.symm.trans ends'
  | link ends onward ih =>
      cases right with
      | directory ends' => cases ends.symm.trans ends'
      | file ends' => cases ends.symm.trans ends'
      | missing ends' => cases ends.symm.trans ends'
      | link ends' onward' =>
          obtain ⟨rfl, rfl⟩ := Ending.link.inj (ends.symm.trans ends')
          exact ih onward'

theorem NoLinkCycle.resolves (acyclic : NoLinkCycle fs) (cur : Nat) (path : List UInt8)
    (plain : 0 ∉ path) : ∃ result, Resolves fs cur path result := by
  have returns : Returns fs ⟨[], []⟩ cur path false [] :=
    returns_of_acyclic plain fun _ _ t _ => acyclic t
  obtain ⟨depth, returned⟩ := returns
  obtain ⟨found, ran⟩ := Option.isSome_iff_exists.mp returned
  have leads : (vnodePathLookup fs ⟨[], []⟩ depth cur path false []).map Found.vnode =
      leadsTo fs depth cur path := vnodePathLookup_leadsTo ⟨[], []⟩ depth cur path [] plain
  rw [ran] at leads
  exact ⟨found.vnode, resolves_of_leadsTo leads.symm⟩

end

theorem smallTree_noLinkCycle : NoLinkCycle smallTree := by
  rintro s ⟨n, round⟩
  obtain ⟨t, step, -⟩ := Option.bind_eq_some_iff.mp round
  obtain ⟨-, vnode, present, symlink⟩ := link_of_met step
  match t.2, present with
  | 0, rfl => cases symlink
  | 1, rfl => cases symlink
  | 2, rfl => cases symlink

end Nyaux.Fs
