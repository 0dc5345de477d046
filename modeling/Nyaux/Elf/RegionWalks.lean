import Nyaux.Elf.LoadedImage

/-! The loader's walks over the region list.

`new_pagemap` does not set `next` in the last node of the list: it is what the node's block held
before. A walk that finds no place between two nodes of the list goes on from there. -/

namespace Nyaux.Elf

open Word Memory Paging Fs Mm

/-- The blocks a walk takes for nodes behind the last one of the list, up to a `NULL` or else up to an
address without memory or the first block that it has come by before, and that one. -/
structure Behind where
  blocks : List VmmRegion
  ended : Bool

/-- What the loader comes upon while it runs: the addresses with memory behind them, apart from the
blocks of the files, and what is behind the list when it walks for a header of a file of the chain. -/
structure Surroundings where
  mapped : Nat → Bool
  behind : Nat → Nat → Behind

def Surroundings.later (around : Surroundings) : Surroundings :=
  { around with behind := fun k => around.behind (k + 1) }

/-- A node whichever block it is in. -/
def bare (r : VmmRegion) : VmmRegion := { r with addr := 0 }

/-- There is a place for the segment between two nodes, or the list ends in `NULL`; from a block met
before, the walk goes round. -/
def WalkReturns (behind : Behind) (base : Nat) (phdr : Elf64Phdr) (regions : List VmmRegion) : Prop :=
  (findPair (startsBetween (segmentBase base phdr)) (regions ++ behind.blocks)).isSome ∨ behind.ended

instance (behind : Behind) (base : Nat) (phdr : Elf64Phdr) (regions : List VmmRegion) :
    Decidable (WalkReturns behind base phdr regions) :=
  inferInstanceAs (Decidable (_ ∨ _))

def enterHeader (base : Nat) (regions : List VmmRegion) (phdr : Elf64Phdr) : List VmmRegion :=
  if phdr.pType = 1 then enterSegment 0 base phdr regions else regions

/-- All walks of some turns come back. -/
def HeaderWalks (behind : Nat → Behind) (base : Nat) (file : Vnode) :
    List Nat → List VmmRegion → Prop
  | [], _ => True
  | i :: turns, regions =>
      let phdr := readPhdr file (readHdr file) i
      (phdr.pType = 1 → WalkReturns (behind i) base phdr regions) ∧
        HeaderWalks behind base file turns (enterHeader base regions phdr)

section Lists

variable {base offset : Nat} {file : Vnode} {phdr : Elf64Phdr} {regions : List VmmRegion}

theorem findPair_bare (f : Nat) (regions : List VmmRegion) :
    findPair (startsBetween f) (regions.map bare) =
      (findPair (startsBetween f) regions).map fun parts => (parts.1.map bare, parts.2.map bare) :=
  findPair_map bare regions

theorem enterSegment_bare (node : Nat) : (enterSegment node base phdr regions).map bare =
    enterSegment 0 base phdr (regions.map bare) := by
  unfold enterSegment
  rw [findPair_bare]
  cases findPair (startsBetween (segmentBase base phdr)) regions with
  | none => rfl
  | some parts => simp [bare]

theorem walkReturns_bare {behind : Behind} :
    WalkReturns behind base phdr (regions.map bare) ↔ WalkReturns behind base phdr regions := by
  have same : ((regions.map bare) ++ behind.blocks).map bare = (regions ++ behind.blocks).map bare := by
    rw [List.map_append, List.map_append, List.map_map]
    rfl
  have found := congrArg (fun nodes =>
    (findPair (startsBetween (segmentBase base phdr)) nodes).isSome) same
  simp only [findPair_bare, Option.isSome_map] at found
  rw [WalkReturns, WalkReturns, found]

theorem loadSegment_list {s s' : ProcessState} (ran : s.loadSegment offset base phdr = .ok s') :
    ∃ node, s'.map.head = enterSegment node base phdr s.map.head := by
  obtain ⟨k₁, -, rest⟩ := of_bind_ok ran
  cases found : findPair (startsBetween (segmentBase base phdr)) s.map.head with
  | none =>
      simp only [found] at rest
      obtain rfl := Except.ok.inj rest
      exact ⟨0, by rw [enterSegment, found]⟩
  | some parts =>
      obtain ⟨front, back⟩ := parts
      simp only [found] at rest
      obtain ⟨⟨node, k₂⟩, -, rest⟩ := of_bind_ok rest
      obtain rfl := Except.ok.inj rest
      exact ⟨node, by rw [enterSegment, found]⟩

theorem Headers.step_list {h h' : Headers} (step : h.step offset base file phdr = .ok h') :
    h'.process.map.head.map bare = enterHeader base (h.process.map.head.map bare) phdr := by
  unfold enterHeader
  by_cases load : phdr.pType = 1
  · obtain ⟨-, process, read, rfl⟩ : phdr.pType = 1 ∧ ∃ process,
        h.process.readSegment offset base file phdr = .ok process ∧
          h' = ⟨process, h.stored, h.interp, h.path⟩ := by
      rcases h.step_cases step with loads | ⟨table, -⟩ | ⟨interp, -⟩ | ⟨other, -⟩
      · exact loads
      · exact absurd (load.symm.trans table) (by decide)
      · exact absurd (load.symm.trans interp) (by decide)
      · exact absurd load other
    obtain ⟨s₁, loaded, rest⟩ := of_bind_ok read
    obtain ⟨mem, -, rest⟩ := of_bind_ok rest
    obtain rfl := Except.ok.inj rest
    obtain ⟨node, list⟩ := loadSegment_list loaded
    rw [if_pos load, list, enterSegment_bare]
  · rw [if_neg load, h.step_process step load]

end Lists

/-! `Elf.loadElfProgram`, which keeps regions and page counts only, follows the loader down to memory:
the same headers, the same chain of files, the same list. -/

section Processes

variable {offset xsaveSize base : Nat} {file : Vnode} {phdr : Elf64Phdr} {heap : Nat → Nat}
  {lookup : List UInt8 → Option Vnode} {stored : Nat} {scratch : List UInt8} {p : Process}

def Alike (p : Process) (s : ProcessState) : Prop := p.map.regions.map bare = s.map.head.map bare

def amountOfPages (phdr : Elf64Phdr) : Nat := (toInt32 (segmentLength phdr / 4096)).toNat

theorem loadSegment_enough (heap : Nat → Nat) (base : Nat)
    (enough : amountOfPages phdr ≤ p.frames) :
    ∃ q, loadSegment heap base phdr p = some q ∧
      q.map.regions.map bare = enterSegment 0 base phdr (p.map.regions.map bare) ∧
      q.frames = p.frames - amountOfPages phdr := by
  have taken : p.take (toInt32 (segmentLength phdr / 4096)).toNat =
      some { p with frames := p.frames - amountOfPages phdr } := if_pos enough
  rw [loadSegment, taken]
  exact ⟨_, rfl, enterSegment_bare _, rfl⟩

theorem loadPhdr_other (heap : Nat → Nat) (load : phdr.pType ≠ 1) (interp : phdr.pType ≠ 3)
    (s : Process × Bool × List UInt8) : loadPhdr heap base file s phdr = some s := by
  unfold loadPhdr
  split
  · rename_i same
    exact absurd same load
  · rename_i same
    exact absurd same interp
  · rfl

theorem loadPhdr_alike (heap : Nat → Nat) {h h' : Headers} (alike : Alike p h.process)
    (enough : amountOfPages phdr ≤ p.frames) (step : h.step offset base file phdr = .ok h') :
    ∃ p', loadPhdr heap base file (p, h.interp, h.path) phdr = some (p', h'.interp, h'.path) ∧
      Alike p' h'.process ∧ p.frames ≤ p'.frames + amountOfPages phdr := by
  have list := h.step_list step
  rw [← show p.map.regions.map bare = _ from alike, enterHeader] at list
  have within : p.frames ≤ p.frames + amountOfPages phdr := Nat.le_add_right _ _
  rcases h.step_cases step with ⟨load, process, -, rfl⟩ | ⟨table, rfl⟩ | ⟨interp, path, read, rfl⟩ |
    ⟨load, -, interp, rfl⟩
  · obtain ⟨q, loaded, regions, left⟩ := loadSegment_enough heap base enough
    rw [if_pos load, ← regions] at list
    exact ⟨q, by simp only [loadPhdr, load, loaded, Option.map_some], list.symm, by omega⟩
  · exact ⟨p, loadPhdr_other heap (by omega) (by omega) _, alike, within⟩
  · exact ⟨p, by simp only [loadPhdr, interp, read, Option.map_some], alike, within⟩
  · exact ⟨p, loadPhdr_other heap load interp _, alike, within⟩

theorem headers_alike (heap : Nat → Nat) (headers : List Elf64Phdr) {h h' : Headers}
    (alike : Alike p h.process) (enough : (headers.map amountOfPages).sum ≤ p.frames)
    (ran : headers.foldlM (Headers.step offset base file) h = .ok h') :
    ∃ p', headers.foldlM (loadPhdr heap base file) (p, h.interp, h.path) =
        some (p', h'.interp, h'.path) ∧
      Alike p' h'.process ∧ p.frames ≤ p'.frames + (headers.map amountOfPages).sum := by
  induction headers generalizing h p with
  | nil =>
      obtain rfl := Except.ok.inj ran
      exact ⟨p, rfl, alike, Nat.le_refl _⟩
  | cons phdr rest ih =>
      rw [List.foldlM_cons] at ran
      obtain ⟨h₁, turn, ran⟩ := of_bind_ok ran
      rw [List.map_cons, List.sum_cons] at enough ⊢
      obtain ⟨p₁, loaded, alike₁, left₁⟩ := loadPhdr_alike heap alike (by omega) turn
      obtain ⟨p', others, alike', left'⟩ := ih alike₁ (by omega) ran
      refine ⟨p', ?_, alike', by omega⟩
      rw [List.foldlM_cons, loaded]
      exact others

theorem startThread_list {s s' : ProcessState} {entry : Nat} {args : ElfArgs} {thread : NewThread}
    (ran : s.startThread offset xsaveSize entry args = .ok (thread, s')) : s'.map = s.map := by
  obtain ⟨_, -, rest⟩ := of_bind_ok ran
  obtain ⟨_, -, rest⟩ := of_bind_ok rest
  obtain ⟨_, -, rest⟩ := of_bind_ok rest
  obtain ⟨_, -, rest⟩ := of_bind_ok rest
  obtain ⟨_, -, rest⟩ := of_bind_ok rest
  obtain ⟨_, -, rest⟩ := of_bind_ok rest
  obtain ⟨_, -, rest⟩ := of_bind_ok rest
  obtain ⟨_, -, rest⟩ := of_bind_ok rest
  rw [← (Prod.mk.inj (Except.ok.inj rest)).2]

/-- Where the loader down to memory makes a thread, the other one makes a process with the same
regions, given pages enough. -/
theorem ProcessState.loadElfProgram_alike (heap : Nat → Nat) {fuel : Nat} {args : ElfArgs}
    {s s' : ProcessState} {thread : NewThread}
    (ran : s.loadElfProgram offset xsaveSize lookup stored scratch fuel base file args =
      .ok (some thread, s')) :
    ∃ need, ∀ p : Process, Alike p s → need ≤ p.frames →
      ∃ r, Elf.loadElfProgram heap lookup scratch fuel base file p = some r ∧ Alike r s' := by
  induction fuel generalizing base file args s with
  | zero => cases ran
  | succ fuel ih =>
      rw [ProcessState.loadElfProgram] at ran
      by_cases accepted : Accepted file
      · rw [if_pos accepted] at ran
        obtain ⟨h, headers, ran⟩ := of_bind_ok ran
        have header : (readHdr file).eType = 2 ∨ (readHdr file).eType = 3 ∨
          (readHdr file).eIdent7 = 0 := accepted
        dsimp only at ran
        split_ifs at ran with interp
        · cases found : lookup h.path with
          | none =>
              rw [found] at ran
              cases ran
          | some file' =>
              rw [found] at ran
              obtain ⟨need, rest⟩ := ih ran
              refine ⟨need + ((phdrs file).map amountOfPages).sum, fun p alike enough => ?_⟩
              obtain ⟨q, loaded, alike', left⟩ := headers_alike heap (phdrs file)
                (h := ⟨s, stored, false, scratch⟩) alike (by omega) headers
              obtain ⟨r, again, same⟩ := rest q alike' (by omega)
              refine ⟨r, ?_, same⟩
              rw [Elf.loadElfProgram]
              dsimp only
              rw [if_pos header, loaded, interp]
              simp only [Option.bind_eq_bind, Option.bind_some, if_true, found]
              exact again
        · refine ⟨(numOfPages 512000).toNat + ((phdrs file).map amountOfPages).sum,
            fun p alike enough => ?_⟩
          obtain ⟨q, loaded, alike', left⟩ := headers_alike heap (phdrs file)
            (h := ⟨s, stored, false, scratch⟩) alike (by omega) headers
          obtain ⟨⟨_, s₂⟩, started, ran⟩ := of_bind_ok ran
          obtain ⟨-, rfl⟩ := Prod.mk.inj (Except.ok.inj ran)
          have taken : q.take (numOfPages 512000).toNat =
              some { q with frames := q.frames - (numOfPages 512000).toNat } :=
            if_pos (by omega)
          let mapped := q.map.mapped ++ pageLoop newThreadStack (numOfPages 512000).toNat
          refine ⟨⟨⟨q.map.regions, mapped⟩, q.frames - (numOfPages 512000).toNat⟩, ?_, ?_⟩
          · rw [Elf.loadElfProgram]
            dsimp only
            rw [if_pos header, loaded]
            simp only [Option.bind_eq_bind, Option.bind_some, interp, Bool.false_eq_true, if_false,
              taken, mmapRange]
            rfl
          · rw [Alike, startThread_list started]
            exact alike'
      · rw [if_neg accepted] at ran
        cases ran

end Processes

end Nyaux.Elf
