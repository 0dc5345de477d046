import Nyaux.Elf.InitialStack
import Nyaux.Elf.RegionWalks
import Nyaux.Fs.TarSafety
import Nyaux.Fs.TmpfsReads

/-! `load_elf_program` on arbitrary files, with a watch on every use of what the files say.

A turn of the header loop is watched before it is made. Where nothing is to be said against it, it is
the turn of `ProcessState.loadElfProgram`. -/

namespace Nyaux.Elf

open Word Memory Paging Fs Mm ByteMap CString

inductive Harm where
  | nullVnode
  | longPath
  | openPath
  | mapsOutside
  | writesOutside
  | stop (stop : Stop)
  deriving DecidableEq

def Readable (mapped : Nat → Bool) (file : Vnode) (size at_ : Nat) : Prop :=
  ∀ i < (vnodeRdwrRead file size at_).2.length,
    sub64 ((readRange file.node size at_).1 + i) file.node.data.addr < file.node.size ∨
      mapped ((readRange file.node size at_).1 + i)

instance (mapped : Nat → Bool) (file : Vnode) (size at_ : Nat) :
    Decidable (Readable mapped file size at_) :=
  inferInstanceAs (Decidable (∀ i < _, _))

def MapsInside (base : Nat) (phdr : Elf64Phdr) : Prop :=
  ∀ virt ∈ segmentAddrs base phdr, virt < 2 ^ 47

instance (base : Nat) (phdr : Elf64Phdr) : Decidable (MapsInside base phdr) :=
  inferInstanceAs (Decidable (∀ virt ∈ _, _))

def WritesInside (base : Nat) (file : Vnode) (phdr : Elf64Phdr) : Prop :=
  ∀ i < (vnodeRdwrRead file phdr.pFilesz phdr.pOffset).2.length,
    alignDown (add64 (add64 base phdr.pVaddr) i) 4096 ∈ segmentAddrs base phdr

instance (base : Nat) (file : Vnode) (phdr : Elf64Phdr) : Decidable (WritesInside base file phdr) :=
  inferInstanceAs (Decidable (∀ i < _, _))

/-- What a program header makes the loader do wrong. -/
def phdrHarm (mapped : Nat → Bool) (behind : Behind) (regions : List VmmRegion) (base : Nat)
    (file : Vnode) (phdr : Elf64Phdr) : Option Harm :=
  match phdr.pType with
  | 1 =>
      if ¬MapsInside base phdr then some .mapsOutside
      else if ¬WalkReturns behind base phdr regions then some (.stop .endless)
      else if ¬Readable mapped file phdr.pFilesz phdr.pOffset then some (.stop .pageFault)
      else if ¬WritesInside base file phdr then some .writesOutside
      else none
  | 3 =>
      if ¬Readable mapped file phdr.pFilesz phdr.pOffset then some (.stop .pageFault)
      else if 128 < (vnodeRdwrRead file phdr.pFilesz phdr.pOffset).2.length then some .longPath
      else none
  | _ => none

def unwatched {α : Type} : Except Stop α → Except Harm α
  | .ok a => .ok a
  | .error stop => .error (.stop stop)

def Headers.watched (around : Surroundings) (offset base : Nat) (file : Vnode) (h : Headers)
    (i : Nat) : Except Harm Headers :=
  if ¬Readable around.mapped file 56 (phdrOffset (readHdr file) i) then .error (.stop .pageFault)
  else
    match phdrHarm around.mapped (around.behind 0 i) h.process.map.head base file
      (readPhdr file (readHdr file) i) with
    | some harm => .error harm
    | none => unwatched (h.step offset base file (readPhdr file (readHdr file) i))

/-- What `load_elf_program` returns, and CR3 then. -/
structure Loaded where
  thread : Option NewThread
  process : ProcessState
  cr3 : Nat

/-- `load_elf_program`; `lookup` is `none` where `vnode_path_lookup` does not return. -/
def watchedLoad (offset xsaveSize kernelPml4 : Nat) (lookup : List UInt8 → Option (Option Vnode))
    (stored : Nat) (scratch : List UInt8) :
    Nat → Surroundings → Nat → Option Vnode → ElfArgs → ProcessState → Except Harm Loaded
  | 0, _, _, _, _, _ => .error (.stop .endless)
  | _ + 1, _, _, none, _, _ => .error .nullVnode
  | fuel + 1, around, base, some file, args, s =>
      if Accepted file then do
        let h ← (List.range (readHdr file).ePhnum).foldlM (Headers.watched around offset base file)
          ⟨s, stored, false, scratch⟩
        if h.interp then
          if 0 ∈ h.path then
            match lookup h.path with
            | some interp =>
                watchedLoad offset xsaveSize kernelPml4 lookup stored scratch fuel around.later
                  0x40000000 interp
                  { args with
                    entry := add64 base (entryPoint file)
                    phdrVirt := h.stored
                    phent := (readHdr file).ePhentsize
                    phnum := (readHdr file).ePhnum } h.process
            | none => .error (.stop .endless)
          else .error .openPath
        else do
          let (thread, s) ← unwatched
            (h.process.startThread offset xsaveSize (add64 base (entryPoint file)) args)
          .ok ⟨some thread, s, s.map.pml4⟩
      -- `update_cr3((uint64_t)kernel_pagemap.pml4)`
      else .ok ⟨none, s, kernelPml4⟩

structure PhdrFits (mapped : Nat → Bool) (base : Nat) (file : Vnode) (phdr : Elf64Phdr) : Prop where
  segment : phdr.pType = 1 → MapsInside base phdr ∧
    Readable mapped file phdr.pFilesz phdr.pOffset ∧ WritesInside base file phdr
  interp : phdr.pType = 3 → Readable mapped file phdr.pFilesz phdr.pOffset ∧
    (vnodeRdwrRead file phdr.pFilesz phdr.pOffset).2.length ≤ 128

/-- The headers can be read, and the loader copes with each. -/
def FileFits (mapped : Nat → Bool) (base : Nat) (file : Vnode) : Prop :=
  ∀ i < (readHdr file).ePhnum, Readable mapped file 56 (phdrOffset (readHdr file) i) ∧
    PhdrFits mapped base file (readPhdr file (readHdr file) i)

section Watch

variable {around : Surroundings} {mapped : Nat → Bool} {behind : Behind} {regions : List VmmRegion}
  {offset base : Nat} {file : Vnode} {phdr : Elf64Phdr} {h h' : Headers}

theorem unwatched_ok {α : Type} {x : Except Stop α} {a : α} : unwatched x = .ok a ↔ x = .ok a := by
  cases x with
  | ok b =>
      constructor
      · intro same
        rw [Except.ok.inj same]
      · intro same
        rw [Except.ok.inj same]
        rfl
  | error stop =>
      constructor
      · intro same
        cases same
      · intro same
        cases same

theorem phdrHarm_eq_none : phdrHarm mapped behind regions base file phdr = none ↔
    PhdrFits mapped base file phdr ∧ (phdr.pType = 1 → WalkReturns behind base phdr regions) := by
  unfold phdrHarm
  constructor
  · intro harmless
    by_cases load : phdr.pType = 1
    · simp only [load] at harmless
      split_ifs at harmless with maps walks reads writes
      exact ⟨⟨fun _ => ⟨maps, reads, writes⟩,
        fun interp => absurd (load.symm.trans interp) (by decide)⟩, fun _ => walks⟩
    · refine ⟨⟨fun other => absurd other load, fun interp => ?_⟩, fun other => absurd other load⟩
      simp only [interp] at harmless
      split_ifs at harmless with reads long
      exact ⟨reads, Nat.le_of_not_lt long⟩
  · rintro ⟨fits, walks⟩
    split
    · rename_i load
      obtain ⟨maps, reads, writes⟩ := fits.segment load
      rw [if_neg (not_not.mpr maps), if_neg (not_not.mpr (walks load)),
        if_neg (not_not.mpr reads), if_neg (not_not.mpr writes)]
    · rename_i interp
      obtain ⟨reads, short⟩ := fits.interp interp
      rw [if_neg (not_not.mpr reads), if_neg (Nat.not_lt.mpr short)]
    · rfl

theorem watched_ok {i : Nat} : h.watched around offset base file i = .ok h' ↔
    (Readable around.mapped file 56 (phdrOffset (readHdr file) i) ∧
      PhdrFits around.mapped base file (readPhdr file (readHdr file) i)) ∧
      ((readPhdr file (readHdr file) i).pType = 1 → WalkReturns (around.behind 0 i) base
        (readPhdr file (readHdr file) i) (h.process.map.head.map bare)) ∧
      h.step offset base file (readPhdr file (readHdr file) i) = .ok h' := by
  rw [Headers.watched, and_assoc, ← and_assoc (b := _ → _), walkReturns_bare, ← phdrHarm_eq_none]
  by_cases reads : Readable around.mapped file 56 (phdrOffset (readHdr file) i)
  · rw [if_neg (not_not.mpr reads)]
    cases harm : phdrHarm around.mapped (around.behind 0 i) h.process.map.head base file
        (readPhdr file (readHdr file) i) with
    | none =>
        rw [unwatched_ok]
        exact ⟨fun step => ⟨reads, rfl, step⟩, fun all => all.2.2⟩
    | some harm =>
        constructor
        · intro ran
          cases ran
        · rintro ⟨-, none, -⟩
          cases none
  · rw [if_pos reads]
    constructor
    · intro ran
      cases ran
    · exact fun all => absurd all.1 reads

theorem watched_bind {α β : Type} {x : Except Harm α} {f : α → Except Harm β} {b : β}
    (ran : (x >>= f) = .ok b) : ∃ a, x = .ok a ∧ f a = .ok b := by
  cases x with
  | error harm => cases ran
  | ok a => exact ⟨a, rfl, ran⟩

theorem foldlM_watched (turns : List Nat) :
    turns.foldlM (Headers.watched around offset base file) h = .ok h' ↔
      (∀ i ∈ turns, Readable around.mapped file 56 (phdrOffset (readHdr file) i) ∧
        PhdrFits around.mapped base file (readPhdr file (readHdr file) i)) ∧
      HeaderWalks (around.behind 0) base file turns (h.process.map.head.map bare) ∧
      (turns.map (readPhdr file (readHdr file))).foldlM (Headers.step offset base file) h =
        .ok h' := by
  induction turns generalizing h with
  | nil =>
      constructor
      · intro ran
        rw [Except.ok.inj ran]
        exact ⟨fun i member => absurd member List.not_mem_nil, trivial, rfl⟩
      · rintro ⟨-, -, ran⟩
        rw [Except.ok.inj ran]
        rfl
  | cons i rest ih =>
      rw [List.foldlM_cons, List.map_cons, List.foldlM_cons, List.forall_mem_cons, HeaderWalks]
      constructor
      · intro ran
        obtain ⟨h₁, turn, ran⟩ := watched_bind ran
        obtain ⟨fits, walk, step⟩ := watched_ok.mp turn
        obtain ⟨others, walks, later⟩ := ih.mp ran
        rw [h.step_list step] at walks
        rw [step, ok_bind]
        exact ⟨⟨fits, others⟩, ⟨walk, walks⟩, later⟩
      · rintro ⟨⟨fits, others⟩, ⟨walk, walks⟩, ran⟩
        obtain ⟨h₁, step, ran⟩ := of_bind_ok ran
        rw [← h.step_list step] at walks
        rw [watched_ok.mpr ⟨fits, walk, step⟩]
        exact ih.mpr ⟨others, walks, ran⟩

/-- The header loop does no harm exactly when the file fits and the walks come back; then it is the
loader's. -/
theorem headers_watched : (List.range (readHdr file).ePhnum).foldlM
      (Headers.watched around offset base file) h = .ok h' ↔
    FileFits around.mapped base file ∧
      HeaderWalks (around.behind 0) base file (List.range (readHdr file).ePhnum)
        (h.process.map.head.map bare) ∧
      (phdrs file).foldlM (Headers.step offset base file) h = .ok h' := by
  rw [foldlM_watched, phdrs]
  simp only [List.mem_range, FileFits]

end Watch

section Runs

variable {offset xsaveSize kernelPml4 : Nat} {lookup : List UInt8 → Option (Option Vnode)}
  {fs : Tmpfs} {words : Scratch} {stored : Nat} {scratch : List UInt8} {around : Surroundings}
  {fuel depth base : Nat} {file : Vnode} {args : ElfArgs} {s : ProcessState} {loaded : Loaded}

theorem watchedLoad_faithful
    (ran : watchedLoad offset xsaveSize kernelPml4 lookup stored scratch fuel around base (some file)
      args s = .ok loaded) :
    s.loadElfProgram offset xsaveSize (fun path => (lookup path).join) stored scratch fuel base file
      args = .ok (loaded.thread, loaded.process) := by
  induction fuel generalizing around base file args s with
  | zero => cases ran
  | succ fuel ih =>
      rw [watchedLoad] at ran
      rw [ProcessState.loadElfProgram]
      split at ran
      · rename_i accepts
        obtain ⟨h, headers, ran⟩ := watched_bind ran
        rw [if_pos accepts, (headers_watched.mp headers).2.2, ok_bind]
        split at ran
        · rename_i interp
          rw [if_pos interp]
          split at ran
          · cases found : lookup h.path with
            | none =>
                rw [found] at ran
                cases ran
            | some next =>
                rw [found] at ran
                cases next with
                | none =>
                    cases fuel with
                    | zero => cases ran
                    | succ fuel => cases ran
                | some interp => exact ih ran
          · cases ran
        · rename_i plain
          rw [if_neg plain]
          obtain ⟨⟨thread, s'⟩, started, returned⟩ := watched_bind ran
          obtain rfl := Except.ok.inj returned
          rw [unwatched_ok.mp started, ok_bind]
      · rename_i rejects
        obtain rfl := Except.ok.inj ran
        rw [if_neg rejects]

end Runs

/-! Files that fit are loaded when there are pages for them. -/

section Memory

variable {offset base n : Nat} {pages : List Nat} {stock : Mem → List Slab → Prop} {file : Vnode}
  {phdr : Elf64Phdr} {s : ProcessState}

theorem userSegment_of_inside (maps : MapsInside base phdr) (writes : WritesInside base file phdr)
    (some : 0 < (vnodeRdwrRead file phdr.pFilesz phdr.pOffset).2.length) :
    UserSegment base file phdr ∧ SegmentCovered base file phdr := by
  have place : add64 base phdr.pVaddr < 2 ^ 64 := Nat.mod_lt _ (by decide)
  have low : ∀ i < (vnodeRdwrRead file phdr.pFilesz phdr.pOffset).2.length,
      add64 (add64 base phdr.pVaddr) i < 2 ^ 47 := by
    intro i inside
    have page := maps _ (writes i inside)
    have word : add64 (add64 base phdr.pVaddr) i < 2 ^ 64 := Nat.mod_lt _ (by decide)
    rw [alignDown_page word] at page
    omega
  have straight : ∀ i < (vnodeRdwrRead file phdr.pFilesz phdr.pOffset).2.length,
      add64 base phdr.pVaddr + i < 2 ^ 47 := by
    intro i
    induction i with
    | zero =>
        intro inside
        have here := low 0 inside
        rwa [add64_of_lt place] at here
    | succ i ih =>
        intro inside
        have before := ih (by omega)
        have here := low (i + 1) inside
        rwa [add64_of_lt (by omega)] at here
  constructor
  · constructor
    · exact maps
    · have end_ := straight ((vnodeRdwrRead file phdr.pFilesz phdr.pOffset).2.length - 1) (by omega)
      omega
  · intro i inside
    have here := straight i inside
    have page := writes i inside
    rw [add64_of_lt (by omega), alignDown_page (by omega)] at page
    refine List.mem_map.mpr ⟨_, page, ?_⟩
    unfold pageIndex
    omega

/-- Of a short segment below the stack, the file may fill the pages that hold `p_memsz` bytes. -/
theorem fits_of_short (aligned : 4096 ∣ base)
    (low : base + phdr.pVaddr + phdr.pMemsz ≤ newThreadStack)
    (short : phdr.pMemsz + 8192 ≤ 2 ^ 31) :
    MapsInside base phdr ∧ (WritesInside base file phdr ↔
      (vnodeRdwrRead file phdr.pFilesz phdr.pOffset).2 = [] ∨
        phdr.pVaddr % 4096 + (vnodeRdwrRead file phdr.pFilesz phdr.pOffset).2.length ≤
          (phdr.pVaddr % 4096 + phdr.pMemsz + 4095) / 4096 * 4096) := by
  have mapped := segmentAddrs_short aligned low short
  have maps : MapsInside base phdr := fun virt member =>
    ((belowStack_of_short aligned low short).pages virt member).trans (by decide)
  have place : add64 base phdr.pVaddr = base + phdr.pVaddr := by
    unfold newThreadStack at low
    exact add64_of_lt (by omega)
  unfold newThreadStack at low
  refine ⟨maps, fun writes => ?_, fun room i inside => ?_⟩
  · by_cases none : (vnodeRdwrRead file phdr.pFilesz phdr.pOffset).2 = []
    · exact Or.inl none
    · have some := List.length_pos_iff.mpr none
      have bytes := (userSegment_of_inside maps writes some).1.bytes
      have last := writes ((vnodeRdwrRead file phdr.pFilesz phdr.pOffset).2.length - 1) (by omega)
      rw [place] at bytes last
      rw [add64_of_lt (by omega), alignDown_page (by omega)] at last
      obtain ⟨i, inside, same⟩ := (mapped _).mp last
      exact Or.inr (by omega)
  · have length := List.length_pos_iff.mp (Nat.zero_lt_of_lt inside)
    have bound := room.resolve_left length
    rw [place, add64_of_lt (by omega), alignDown_page (by omega)]
    exact (mapped _).mpr ⟨(phdr.pVaddr % 4096 + i) / 4096, by omega, by omega⟩

end Memory

section Loads

variable {offset : Nat} {pages : List Nat} {fs : Tmpfs} {words : Scratch} {scratch : List UInt8}
  {around : Surroundings} {depth depth' base : Nat} {file : Vnode} {chain : List (Nat × Vnode)}

end Loads

end Nyaux.Elf
