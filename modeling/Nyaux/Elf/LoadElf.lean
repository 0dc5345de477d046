import Nyaux.Fs.Tmpfs
import Nyaux.Mm.UserSpace

/-! `load_elf_program`: which pages a program file gets mapped, and which regions it
leaves in the list of its pagemap. The bytes copied into the pages are not kept. -/

namespace Nyaux.Elf

open Word Fs Mm

/-- A pagemap and the number of physical pages still free. -/
structure Process where
  map : UserMap
  frames : Nat

/-- `none` when the page allocator runs dry. -/
def Process.take (n : Nat) (p : Process) : Option Process :=
  if n ≤ p.frames then some { p with frames := p.frames - n } else none

def leValue : List UInt8 → Nat
  | [] => 0
  | b :: rest => b.toNat + 256 * leValue rest

/-- The little-endian field of `width` bytes at `offset`; the structure is zero where the
file was too short to fill it. -/
def leField (bytes : List UInt8) (offset width : Nat) : Nat :=
  leValue ((bytes.drop offset).take width)

/-- The fields of `Elf64_ElfHdr` the loader looks at. -/
structure Elf64ElfHdr where
  eIdent7 : Nat
  eType : Nat
  ePhoff : Nat
  ePhentsize : Nat
  ePhnum : Nat
  deriving DecidableEq

structure Elf64Phdr where
  pType : Nat
  pOffset : Nat
  pVaddr : Nat
  pFilesz : Nat
  pMemsz : Nat
  deriving DecidableEq

def readHdr (file : Vnode) : Elf64ElfHdr :=
  let bytes := (vnodeRdwrRead file 64 0).2
  { eIdent7 := leField bytes 7 1, eType := leField bytes 16 2, ePhoff := leField bytes 32 8,
    ePhentsize := leField bytes 54 2, ePhnum := leField bytes 56 2 }

/-- `hdr.e_phoff + (i * hdr.e_phentsize)`, the product being an `int`. -/
def phdrOffset (hdr : Elf64ElfHdr) (i : Nat) : Nat :=
  (((hdr.ePhoff : Int) + toInt32 (i * hdr.ePhentsize)) % 2 ^ 64).toNat

def readPhdr (file : Vnode) (hdr : Elf64ElfHdr) (i : Nat) : Elf64Phdr :=
  let bytes := (vnodeRdwrRead file 56 (phdrOffset hdr i)).2
  { pType := leField bytes 0 4, pOffset := leField bytes 8 8, pVaddr := leField bytes 16 8,
    pFilesz := leField bytes 32 8, pMemsz := leField bytes 40 8 }

def misaligned (phdr : Elf64Phdr) : Nat := phdr.pVaddr &&& 4095

def segmentBase (base : Nat) (phdr : Elf64Phdr) : Nat := alignDown (add64 base phdr.pVaddr) 4096

def segmentLength (phdr : Elf64Phdr) : Nat := alignUp (add64 phdr.pMemsz (misaligned phdr)) 4096

def startsBetween (f : Nat) (prev cur : VmmRegion) : Bool := decide (cur.base ≥ f ∧ prev.stop ≤ f)

/-- The list after the walk, which gives up without a word when `f` lies inside a region. -/
def enterSegment (node base : Nat) (phdr : Elf64Phdr) (regions : List VmmRegion) :
    List VmmRegion :=
  match findPair (startsBetween (segmentBase base phdr)) regions with
  | some (front, back) => front ++ ⟨node, segmentBase base phdr, segmentLength phdr⟩ :: back
  | none => regions

/-- A program header of type 1. `heap` numbers the blocks handed out for list nodes. -/
def loadSegment (heap : Nat → Nat) (base : Nat) (phdr : Elf64Phdr) (p : Process) :
    Option Process := do
  let amountOfPages := (toInt32 (segmentLength phdr / 4096)).toNat
  let q ← p.take amountOfPages
  some { q with map :=
    { regions := enterSegment (heap p.map.regions.length) base phdr p.map.regions
      mapped := p.map.mapped ++ (List.range amountOfPages).map fun i =>
        pageIndex (alignDown (pageAddr (add64 base phdr.pVaddr) i) 4096) } }

/-- `path[128]`, once a header of type 3 was seen. `none` when the read runs over the
buffer's end. -/
def readInterp (file : Vnode) (phdr : Elf64Phdr) (path : List UInt8) : Option (List UInt8) :=
  let bytes := (vnodeRdwrRead file phdr.pFilesz phdr.pOffset).2
  if bytes.length ≤ 128 then some (bytes ++ path.drop bytes.length) else none

/-- One turn of the header loop; the state is the process, `interp` and `path`. -/
def loadPhdr (heap : Nat → Nat) (base : Nat) (file : Vnode) (s : Process × Bool × List UInt8)
    (phdr : Elf64Phdr) : Option (Process × Bool × List UInt8) :=
  match phdr.pType with
  | 1 => (loadSegment heap base phdr s.1).map fun p => (p, s.2)
  | 3 => (readInterp file phdr s.2.2).map fun path => (s.1, true, path)
  | _ => some s

def phdrs (file : Vnode) : List Elf64Phdr :=
  (List.range (readHdr file).ePhnum).map (readPhdr file (readHdr file))

def newThreadStack : Nat := 0x70000000000

/-- `load_elf_program(maps, base, file, ..)`, with `vnode_path_lookup(root->list, path, ..)` as
a function and `scratch` for the bytes `path` holds before the loop. `none` stands for every
way of not coming back with a thread: a rejected file, a missing interpreter, no memory. -/
def loadElfProgram (heap : Nat → Nat) (lookup : List UInt8 → Option Vnode)
    (scratch : List UInt8) : Nat → Nat → Vnode → Process → Option Process
  | 0, _, _, _ => none
  | fuel + 1, base, file, p =>
      let hdr := readHdr file
      if hdr.eType = 2 ∨ hdr.eType = 3 ∨ hdr.eIdent7 = 0 then do
        let (p, interp, path) ← (phdrs file).foldlM (loadPhdr heap base file) (p, false, scratch)
        if interp then
          let file ← lookup path
          loadElfProgram heap lookup scratch fuel 0x40000000 file p
        else
          let q ← p.take (numOfPages 512000).toNat
          let (_, map) ← mmapRange newThreadStack 512000 p.map
          some { q with map := map }
      else none

/-- The bytes `path` holds after the header loop, if some header is of type 3. -/
def interpPath (file : Vnode) : List Elf64Phdr → Bool × List UInt8 → Option (Bool × List UInt8)
  | [], s => some s
  | phdr :: rest, s =>
      if phdr.pType = 3 then
        (readInterp file phdr s.2).bind fun path => interpPath file rest (true, path)
      else interpPath file rest s

/-- The segments of a program and of its chain of interpreters, in the order they are
loaded, each with its load base. -/
def segments (lookup : List UInt8 → Option Vnode) (scratch : List UInt8) :
    Nat → Nat → Vnode → List (Nat × Elf64Phdr)
  | 0, _, _ => []
  | fuel + 1, base, file =>
      let own := ((phdrs file).filter fun phdr => phdr.pType = 1).map fun phdr => (base, phdr)
      match interpPath file (phdrs file) (false, scratch) with
      | some (true, path) =>
          match lookup path with
          | some file => own ++ segments lookup scratch fuel 0x40000000 file
          | none => own
      | _ => own

def loadSegments (heap : Nat → Nat) (segs : List (Nat × Elf64Phdr)) (p : Process) :
    Option Process :=
  segs.foldlM (fun p seg => loadSegment heap seg.1 seg.2 p) p

theorem loadSegments_append (heap : Nat → Nat) (first second : List (Nat × Elf64Phdr))
    (p : Process) :
    loadSegments heap (first ++ second) p =
      (loadSegments heap first p).bind fun q => loadSegments heap second q :=
  List.foldlM_append

theorem foldlM_loadPhdr (heap : Nat → Nat) (base : Nat) (file : Vnode) (headers : List Elf64Phdr)
    (s t : Process × Bool × List UInt8)
    (run : headers.foldlM (loadPhdr heap base file) s = some t) :
    loadSegments heap ((headers.filter fun phdr => phdr.pType = 1).map fun phdr => (base, phdr))
        s.1 = some t.1 ∧
      interpPath file headers s.2 = some t.2 := by
  induction headers generalizing s with
  | nil =>
      obtain rfl : s = t := Option.some.inj run
      exact ⟨rfl, rfl⟩
  | cons phdr rest ih =>
      simp only [List.foldlM_cons] at run
      obtain ⟨u, step, later⟩ := Option.bind_eq_some_iff.mp run
      obtain ⟨loaded, path⟩ := ih u later
      by_cases segment : phdr.pType = 1
      · simp only [loadPhdr, segment, Option.map_eq_some_iff] at step
        obtain ⟨p, entered, rfl⟩ := step
        refine ⟨?_, by simpa only [interpPath, segment, OfNat.one_ne_ofNat, if_false] using path⟩
        simp only [segment, decide_true, List.filter_cons_of_pos, List.map_cons, loadSegments,
          List.foldlM_cons, entered]
        exact loaded
      · have skipped : (phdr :: rest).filter (fun phdr => phdr.pType = 1) =
            rest.filter fun phdr => phdr.pType = 1 :=
          List.filter_cons_of_neg (by simpa using segment)
        rw [skipped]
        by_cases interp : phdr.pType = 3
        · simp only [loadPhdr, interp, Option.map_eq_some_iff] at step
          obtain ⟨bytes, read, rfl⟩ := step
          refine ⟨loaded, ?_⟩
          simp only [interpPath, interp, if_true, read, Option.bind_some]
          exact path
        · have same : loadPhdr heap base file s phdr = some s := by
            unfold loadPhdr
            split
            · contradiction
            · contradiction
            · rfl
          obtain rfl : s = u := Option.some.inj (same.symm.trans step)
          exact ⟨loaded, by simpa only [interpPath, interp, if_false] using path⟩

theorem loadElfProgram_eq (heap : Nat → Nat) (lookup : List UInt8 → Option Vnode)
    (scratch : List UInt8) (fuel base : Nat) (file : Vnode) (p r : Process)
    (built : loadElfProgram heap lookup scratch fuel base file p = some r) :
    ∃ q, loadSegments heap (segments lookup scratch fuel base file) p = some q ∧
      r.map.regions = q.map.regions ∧ r.frames ≤ q.frames := by
  induction fuel generalizing base file p with
  | zero => simp [loadElfProgram] at built
  | succ fuel ih =>
      rw [loadElfProgram] at built
      dsimp only at built
      split at built
      case isFalse => contradiction
      obtain ⟨⟨q, interp, path⟩, run, rest⟩ := Option.bind_eq_some_iff.mp built
      obtain ⟨loaded, found⟩ := foldlM_loadPhdr heap base file _ _ _ run
      dsimp only at loaded found
      cases interp with
      | true =>
          obtain ⟨next, named, again⟩ := Option.bind_eq_some_iff.mp rest
          obtain ⟨final, chain, result⟩ := ih 0x40000000 next q again
          refine ⟨final, ?_, result⟩
          simp only [segments, found, named, loadSegments_append, loaded, Option.bind_some]
          exact chain
      | false =>
          simp only [Bool.false_eq_true, if_false] at rest
          obtain ⟨paid, enough, rest⟩ := Option.bind_eq_some_iff.mp rest
          obtain ⟨⟨_, map⟩, stacked, rest⟩ := Option.bind_eq_some_iff.mp rest
          obtain rfl := Option.some.inj rest
          refine ⟨q, by simpa only [segments, found] using loaded, ?_, ?_⟩
          · unfold mmapRange at stacked
            split at stacked
            · contradiction
            · obtain ⟨-, rfl⟩ := Prod.mk.inj (Option.some.inj stacked)
              rfl
          · unfold Process.take at enough
            split at enough
            · obtain rfl := Option.some.inj enough
              exact Nat.sub_le _ _
            · contradiction

end Nyaux.Elf
