import Nyaux.Elf.LoadElf

/-! `syscall_mmap` and runs of anonymous mappings. -/

namespace Nyaux.Syscall

open Word Mm Elf

/-- The registers of `struct syscall_frame` that carry arguments and results. -/
structure SyscallFrame where
  rax : BitVec 64
  rdi : BitVec 64
  rsi : BitVec 64
  rdx : BitVec 64
  r10 : BitVec 64
  r8 : BitVec 64
  r9 : BitVec 64
  deriving DecidableEq

def mapPrivate : Nat := 0x02
def mapFixed : Nat := 0x10
def mapAnonymous : Nat := 0x20

/-- `int flags = stuff & 0xFFFFFFFF`, the low half of the fourth register. -/
def SyscallFrame.flags (frame : SyscallFrame) : Int := toInt32 (frame.r10.toNat &&& 0xFFFFFFFF)

/-- `vmm_region_alloc_user`, paid for in physical pages. -/
def allocUser (node size : Nat) (p : Process) : Option (Nat × Process) := do
  let (base, map) ← vmmRegionAllocUser node size p.map
  let q ← p.take (numOfPages size).toNat
  some (base, { q with map := map })

/-- `mmap_range`, paid for likewise. -/
def mmapFixed (hint size : Nat) (p : Process) : Option (Nat × Process) := do
  let (base, map) ← mmapRange hint size p.map
  let q ← p.take (numOfPages size).toNat
  some (base, { q with map := map })

/-- The answer in `rax` and `rdx` after success. -/
def SyscallFrame.answer (frame : SyscallFrame) (base : Nat) : SyscallFrame :=
  { frame with rax := BitVec.ofNat 64 base, rdx := 0 }

/-- `syscall_mmap` for a process that has a pagemap. The two fixed branches on `PROT_EXEC`
differ in a page flag only. -/
def syscallMmap (heap : Nat → Nat) (frame : SyscallFrame) (p : Process) :
    Option (SyscallFrame × Process) :=
  if frame.flags = mapAnonymous then
    (allocUser (heap p.map.regions.length) frame.rdx.toNat p).map fun (base, q) =>
      (frame.answer base, q)
  else if frame.flags = (mapAnonymous ||| mapFixed : Nat) ∨
      frame.flags = (mapAnonymous ||| mapFixed ||| mapPrivate : Nat) then
    (mmapFixed frame.rsi.toNat frame.rdx.toNat p).map fun (base, q) => (frame.answer base, q)
  else some ({ frame with rdx := BitVec.ofInt 64 (-1) }, p)

def mmapCalls (heap : Nat → Nat) (frames : List SyscallFrame) (p : Process) : Option Process :=
  frames.foldlM (fun p frame => (syscallMmap heap frame p).map Prod.snd) p

end Nyaux.Syscall
