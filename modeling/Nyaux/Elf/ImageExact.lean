import Nyaux.Elf.LoadReturns
import Nyaux.Mm.FreeBytes

/-! When `load_elf_program` loads a program byte for byte.

The thread's block is not cleared: what `parameter_window_size` adds to is whatever the block held,
so the parameters have room in the stack only when free blocks hold little there. -/

namespace Nyaux.Elf

open Word Memory Paging Fs Mm ByteMap ByteImage

/-- The place in a thread's block that `load_elf_program` adds to has room for the parameters. -/
def WindowFits (args : ElfArgs) (cache place word : Nat) : Prop :=
  cache = cacheFor 88 → place = 80 → word + pushedSize args.pushes ≤ 512000

theorem leBytes_length (n value : Nat) : (leBytes n value).length = n := by
  induction n generalizing value with
  | zero => rfl
  | succ n ih => rw [leBytes, List.length_cons, ih]

theorem pushedSize_append (first second : List (List UInt8)) :
    pushedSize (first ++ second) = pushedSize first + pushedSize second := by
  rw [pushedSize, List.map_append, List.sum_append]
  rfl

theorem pushedSize_le (args : ElfArgs) : pushedSize args.pushes ≤ 120 := by
  have optional : ∀ (c : Prop) [Decidable c] (bytes : List UInt8),
      pushedSize (if c then [bytes] else []) ≤ bytes.length := by
    intro c _ bytes
    split
    · exact le_refl _
    · exact Nat.zero_le _
  have entry := optional (args.entry ≠ 0) (auxvec 9 args.entry)
  have envp := optional (args.envp ≠ 0) (leBytes 8 args.envp)
  have argv := optional (args.argv ≠ 0) (leBytes 8 args.argv)
  simp only [auxvec, List.length_append, leBytes_length] at entry envp argv
  simp only [ElfArgs.pushes, pushedSize_append]
  simp only [pushedSize, List.map_cons, List.map_nil, List.sum_cons, List.sum_nil, auxvec,
    List.length_append, leBytes_length] at entry envp argv ⊢
  omega

theorem windowFits_zero (args : ElfArgs) (cache place : Nat) : WindowFits args cache place 0 := by
  intro _ _
  have size := pushedSize_le args
  omega

theorem window_inside : 80 < cacheSize (cacheFor 88) := by
  have large := (cacheFor_spec 88 (by decide)).2.2
  omega

section Image

variable {offset xsaveSize : Nat} {pages : List Nat} {lookup : List UInt8 → Option Vnode}
  {stored : Nat} {scratch : List UInt8} {fuel base : Nat} {file : Vnode} {args : ElfArgs}
  {s s' : ProcessState} {thread : NewThread}

theorem loadElfProgram_image (direct : Direct offset pages)
    (user : s.User offset pages (FreeWords (WindowFits args))) (program : Program base file)
    (ran : s.loadElfProgram offset xsaveSize lookup stored scratch fuel base file args =
      .ok (some thread, s')) :
    ∀ phdr ∈ loadHeaders (phdrs file), ∀ i < phdr.pMemsz, s'.byte offset (base + phdr.pVaddr + i) =
      build (s.byte offset) ((loadHeaders (phdrs file)).map (segmentLayer base file))
        (base + phdr.pVaddr + i) := by
  cases fuel with
  | zero => cases ran
  | succ fuel =>
      rw [ProcessState.loadElfProgram] at ran
      split at ran
      · obtain ⟨h, headers, ran⟩ := of_bind_ok ran
        rw [headers_interp _ program.plain headers, if_neg Bool.false_ne_true] at ran
        obtain ⟨⟨thread', s''⟩, started, returned⟩ := of_bind_ok ran
        obtain ⟨-, rfl⟩ := Prod.mk.inj (Except.ok.inj returned)
        have zero := windowFits_zero args
        have stable := FreeWords.stable zero
        obtain ⟨root, user₁, built⟩ := headers_spec direct (stable _) (phdrs file)
          (fun phdr member => program.segment member) user headers
        obtain ⟨map, -, kept⟩ := startThread_spec user₁ direct stable
          (fun mem block served => served.word zero (by decide) window_inside rfl rfl) started
        intro phdr member i inside
        have below := (program.below phdr member).bytes
        rw [kept _ (by omega), built _ (by unfold newThreadStack at below; omega)]
      · cases ran

end Image

/-- The image is that of the file exactly when no segment maps a page over bytes of an earlier
one, and the bytes behind those of the file are in pages that are mapped. -/
theorem elf_image_iff (offset xsaveSize : Nat) (pages : List Nat)
    (lookup : List UInt8 → Option Vnode) (stored : Nat) (scratch : List UInt8) (fuel base : Nat)
    (file : Vnode) (args : ElfArgs) (s s' : ProcessState) (thread : NewThread)
    (direct : Direct offset pages) (user : s.User offset pages (FreeWords (WindowFits args)))
    (empty : ∀ virt < 2 ^ 47, s.byte offset virt = none) (program : Program base file)
    (ran : s.loadElfProgram offset xsaveSize lookup stored scratch fuel base file args =
      .ok (some thread, s')) :
    ImageLoaded offset base file s' ↔ Backed base file ∧ Undisturbed base file := by
  have same := loadElfProgram_image direct user program ran
  rw [← program.exact empty]
  constructor
  · intro loaded phdr member i inside
    rw [← same phdr member i inside]
    exact loaded phdr member i inside
  · intro loaded phdr member i inside
    rw [same phdr member i inside]
    exact loaded phdr member i inside

def phdrBytes (phdr : Elf64Phdr) : List UInt8 :=
  leBytes 4 phdr.pType ++ leBytes 4 5 ++ leBytes 8 phdr.pOffset ++ leBytes 8 phdr.pVaddr ++
    leBytes 8 phdr.pVaddr ++ leBytes 8 phdr.pFilesz ++ leBytes 8 phdr.pMemsz ++ leBytes 8 4096

def headersOnly (headers : List Elf64Phdr) : Vnode :=
  let image : List UInt8 := [0x7f, 0x45, 0x4c, 0x46, 2, 1, 1, 0] ++ leBytes 8 0 ++ leBytes 2 2 ++
    leBytes 2 0x3e ++ leBytes 4 1 ++ leBytes 8 0x1000 ++ leBytes 8 64 ++ leBytes 8 0 ++ leBytes 4 0 ++
    leBytes 2 64 ++ leBytes 2 56 ++ leBytes 2 headers.length ++ leBytes 6 0 ++
    headers.flatMap phdrBytes
  { type := .file, dir := [],
    node := { data := ⟨0xffff800000010000, fun i => (image[i]?).getD 0⟩, size := image.length } }

structure ShortHeaders (headers : List Elf64Phdr) : Prop where
  known : phdrs (headersOnly headers) = headers
  plain : ∀ phdr ∈ headers, phdr.pType ≠ 3
  low : ∀ phdr ∈ loadHeaders headers, 0 + phdr.pVaddr + phdr.pMemsz ≤ newThreadStack
  short : ∀ phdr ∈ loadHeaders headers, phdr.pMemsz + 8192 ≤ 2 ^ 31
  sizes : ∀ phdr ∈ loadHeaders headers, phdr.pFilesz ≤ phdr.pMemsz
  inFile : ∀ phdr ∈ loadHeaders headers, phdr.pOffset + phdr.pFilesz ≤
    (headersOnly headers).node.size
  stored : (headersOnly headers).node.size < 2 ^ 32
  accepted : Accepted (headersOnly headers)

section Machine

variable {headers : List Elf64Phdr}

theorem ShortHeaders.program (ok : ShortHeaders headers) (disjoint : (loadHeaders headers).Pairwise
    fun phdr later => ∀ virt, segmentRange phdr virt → ¬segmentRange later virt) :
    Program 0 (headersOnly headers) := by
  have listed := ok.known
  constructor
  · rfl
  · have small := ok.stored
    have place : (headersOnly headers).node.data.addr = 0xffff800000010000 := rfl
    omega
  · rw [listed]
    exact ok.plain
  · rw [listed]
    exact fun phdr member =>
      belowStack_of_short (Nat.dvd_zero 4096) (ok.low phdr member) (ok.short phdr member)
  · rw [listed]
    exact ok.sizes
  · rw [listed]
    exact ok.inFile
  · rw [listed]
    exact disjoint

theorem machine_loads (ok : ShortHeaders headers) (program : Program 0 (headersOnly headers))
    (cost : threadCost 832 + headersCost 0 headers ≤ 5000) (args : ElfArgs) :
    ∃ (s s' : ProcessState) (thread : NewThread),
      s.User machine.offset machine.pages (FreeWords (WindowFits args)) ∧
      (∀ virt < 2 ^ 47, s.byte machine.offset virt = none) ∧
      s.loadElfProgram machine.offset 832 (fun _ => none) 0 [] 1 0 (headersOnly headers) args =
        .ok (some thread, s') := by
  obtain ⟨k, p, user, enough, room, empty⟩ := machine_process
  have zero := windowFits_zero args
  have stable := FreeWords.stable zero
  have fits : ProcessState.User machine.offset machine.pages (FreeWords (WindowFits args)) ⟨k, p⟩ :=
    ⟨_, _, user.mono fun mem slabs words t inT x inX d positive inside => by
      rw [words t inT x inX d positive inside]
      exact zero _ _⟩
  have segments : ∀ phdr ∈ loadHeaders (phdrs (headersOnly headers)),
      UserSegment 0 (headersOnly headers) phdr ∧ SegmentCovered 0 (headersOnly headers) phdr := by
    intro phdr member
    refine ⟨program.segment member, fun i inside => ?_⟩
    rw [program.read member, List.length_map, List.length_range] at inside
    rw [program.place member]
    have size := program.sizes phdr member
    rw [ok.known] at member
    exact segmentPages_short (Nat.dvd_zero 4096) (ok.low phdr member) (ok.short phdr member)
      (by omega)
  have loads := loadElfProgram_returns (pages_direct machine) stable fits
    (fun mem block served => served.word zero (by decide) window_inside rfl rfl) ok.accepted
    program.plain segments 832 (fun _ => none) 0 [] 0 (by exact room) (enough.mono (by
      rw [ok.known]
      exact cost))
  obtain ⟨thread, s', ran⟩ := loads
  refine ⟨⟨k, p⟩, s', thread, fits, fun virt low => ?_, ran⟩
  rw [ProcessState.byte, userByte, empty virt low]
  rfl

end Machine

def zeroFilled : List Elf64Phdr := [⟨1, 0, 0x1000, 120, 0x1800⟩]

def sharedPage : List Elf64Phdr := [⟨1, 0, 0x1000, 120, 120⟩, ⟨1, 0, 0x1800, 120, 120⟩]

theorem zeroFilled_short : ShortHeaders zeroFilled := by
  constructor <;> decide +kernel

theorem sharedPage_short : ShortHeaders sharedPage := by
  constructor <;> decide +kernel

theorem zeroFilled_program : Program 0 (headersOnly zeroFilled) :=
  zeroFilled_short.program (List.pairwise_singleton _ _)

theorem sharedPage_program : Program 0 (headersOnly sharedPage) := by
  apply sharedPage_short.program
  have segments : loadHeaders sharedPage = sharedPage := by decide
  rw [segments, sharedPage, List.pairwise_pair]
  rintro virt ⟨-, upper⟩ ⟨lower, -⟩
  dsimp only at upper lower
  omega

def noArgs : ElfArgs := ⟨0, 0, 0, 0, 0, 0, 0⟩

theorem elf_image_iff_zero_filled : ∃ (s s' : ProcessState) (thread : NewThread),
    s.loadElfProgram machine.offset 832 (fun _ => none) 0 [] 1 0 (headersOnly zeroFilled) noArgs =
      .ok (some thread, s') ∧
    ImageLoaded machine.offset 0 (headersOnly zeroFilled) s' := by
  obtain ⟨s, s', thread, user, empty, ran⟩ :=
    machine_loads zeroFilled_short zeroFilled_program (by decide +kernel) noArgs
  refine ⟨s, s', thread, ran, (elf_image_iff machine.offset 832 machine.pages (fun _ => none) 0 [] 1
    0 (headersOnly zeroFilled) noArgs s s' thread (pages_direct machine) user empty
    zeroFilled_program ran).mpr ⟨?_, ?_⟩⟩
  · apply backed_of_short (Nat.dvd_zero 4096)
    rw [zeroFilled_short.known]
    exact fun phdr member => ⟨zeroFilled_short.low phdr member, zeroFilled_short.short phdr member⟩
  · rw [Undisturbed, zeroFilled_short.known]
    exact List.pairwise_singleton _ _

/-- Two segments in one page: the second one clears the bytes of the first. -/
theorem elf_image_cleared : ∃ (s s' : ProcessState) (thread : NewThread),
    Program 0 (headersOnly sharedPage) ∧ (∀ virt < 2 ^ 47, s.byte machine.offset virt = none) ∧
    s.loadElfProgram machine.offset 832 (fun _ => none) 0 [] 1 0 (headersOnly sharedPage) noArgs =
      .ok (some thread, s') ∧
    s'.byte machine.offset 0x1000 = some 0 ∧ (headersOnly sharedPage).node.data.bytes 0 = 0x7f ∧
    ¬ImageLoaded machine.offset 0 (headersOnly sharedPage) s' := by
  obtain ⟨s, s', thread, user, empty, ran⟩ :=
    machine_loads sharedPage_short sharedPage_program (by decide +kernel) noArgs
  have program := sharedPage_program
  have first : (⟨1, 0, 0x1000, 120, 120⟩ : Elf64Phdr) ∈ loadHeaders (phdrs (headersOnly sharedPage)) :=
    by decide +kernel
  have image : (headersOnly sharedPage).node.data.bytes 0 = 0x7f := by decide +kernel
  have cleared : s'.byte machine.offset 0x1000 = some 0 := by
    have built := loadElfProgram_image (pages_direct machine) user program ran _ first 0 (by decide)
    have order : loadHeaders (phdrs (headersOnly sharedPage)) = sharedPage := by decide +kernel
    have place : pageIndex 0x1000 ∈ segmentPages 0 ⟨1, 0, 0x1800, 120, 120⟩ := by decide
    have unwritten : (segmentLayer 0 (headersOnly sharedPage) ⟨1, 0, 0x1800, 120, 120⟩).write.at
        0x1000 = none := by
      rw [Write.at, if_neg]
      decide
    rw [order] at built
    exact built.trans (over_cleared _ unwritten place)
  refine ⟨s, s', thread, program, empty, ran, cleared, image, fun loaded => ?_⟩
  have same := (loaded _ first 0 (by decide)).symm.trans cleared
  dsimp only at same
  rw [if_pos (by decide), image] at same
  exact absurd (Option.some.inj same) (by decide)

end Nyaux.Elf
