import Nyaux.Elf.ProcessPages
import Nyaux.Mm.KernelRegions
import Nyaux.Sched.SwitchTask

/-! `load_elf_program` down to the kernel's memory: the bytes of the segments, the new thread and
its first stack.

A structure from the heap holds what its block held until its fields are written. What is in the
FPU area and in the `process_info` is not kept. -/

namespace Nyaux.Elf

open Word Memory Paging Fs Mm

instance (virt : Nat) : Decidable (Canonical virt) := inferInstanceAs (Decidable (_ ∨ _))

/-- Where the kernel finds a virtual address after `update_cr3`. -/
def access (offset pml4 : Nat) (mem : Mem) (virt : Nat) : Option Nat :=
  if Canonical virt then Mm.translate offset mem pml4 virt else none

/-- `memcpy` to a virtual address. -/
def writeBytes (offset pml4 : Nat) : Nat → List UInt8 → Mem → Except Stop Mem
  | _, [], mem => .ok mem
  | dest, b :: rest, mem =>
      match access offset pml4 mem dest with
      | some target => writeBytes offset pml4 (add64 dest 1) rest (storeByte mem target b.toNat)
      | none => .error .pageFault

def readBytes (offset pml4 : Nat) (mem : Mem) : Nat → Nat → Except Stop (List UInt8)
  | _, 0 => .ok []
  | src, n + 1 =>
      match access offset pml4 mem src with
      | some source => do
          let rest ← readBytes offset pml4 mem (add64 src 1) n
          .ok (UInt8.ofNat (loadByte mem source) :: rest)
      | none => .error .pageFault

def memmove (offset pml4 dest src n : Nat) (mem : Mem) : Except Stop Mem := do
  let bytes ← readBytes offset pml4 mem src n
  writeBytes offset pml4 dest bytes mem

def ProcessState.readSegment (offset base : Nat) (file : Vnode) (phdr : Elf64Phdr)
    (s : ProcessState) : Except Stop ProcessState := do
  let s ← s.loadSegment offset base phdr
  let mem ← writeBytes offset s.map.pml4 (add64 base phdr.pVaddr)
    (vnodeRdwrRead file phdr.pFilesz phdr.pOffset).2 s.kernel.mem
  .ok { s with kernel := { s.kernel with mem := mem } }

/-- `stored`, `interp` and `path`, next to the process. -/
structure Headers where
  process : ProcessState
  stored : Nat
  interp : Bool
  path : List UInt8

/-- One turn of the header loop. -/
def Headers.step (offset base : Nat) (file : Vnode) (h : Headers) (phdr : Elf64Phdr) :
    Except Stop Headers :=
  match phdr.pType with
  | 1 => do
      let process ← h.process.readSegment offset base file phdr
      .ok { h with process := process }
  | 6 => .ok { h with stored := add64 base phdr.pVaddr }
  | 3 =>
      match readInterp file phdr h.path with
      | some path => .ok { h with interp := true, path := path }
      | none => .error .pageFault
  | _ => .ok h

/-! `sched.c`: the structures of a new thread. -/

def allocBlock (offset size : Nat) (k : Kernel) : Except Stop (Nat × Kernel) := do
  let (block, k) ← Mm.kmalloc offset size k
  if block = 0 then .error .nullDeref else .ok (block, k)

/-- The words of a block as a `struct StackFrame`. -/
def frameAt (mem : Mem) (x : Nat) : Sched.StackFrame where
  intnum := BitVec.ofNat 64 (mem x)
  r15 := BitVec.ofNat 64 (mem (x + 8))
  r14 := BitVec.ofNat 64 (mem (x + 16))
  r13 := BitVec.ofNat 64 (mem (x + 24))
  r12 := BitVec.ofNat 64 (mem (x + 32))
  r11 := BitVec.ofNat 64 (mem (x + 40))
  r10 := BitVec.ofNat 64 (mem (x + 48))
  r9 := BitVec.ofNat 64 (mem (x + 56))
  r8 := BitVec.ofNat 64 (mem (x + 64))
  rdi := BitVec.ofNat 64 (mem (x + 72))
  rsi := BitVec.ofNat 64 (mem (x + 80))
  rdx := BitVec.ofNat 64 (mem (x + 88))
  rcx := BitVec.ofNat 64 (mem (x + 96))
  rbx := BitVec.ofNat 64 (mem (x + 104))
  rax := BitVec.ofNat 64 (mem (x + 112))
  rbp := BitVec.ofNat 64 (mem (x + 120))
  errorCode := BitVec.ofNat 64 (mem (x + 128))
  rip := BitVec.ofNat 64 (mem (x + 136))
  cs := BitVec.ofNat 64 (mem (x + 144))
  rflags := BitVec.ofNat 64 (mem (x + 152))
  rsp := BitVec.ofNat 64 (mem (x + 160))
  ss := BitVec.ofNat 64 (mem (x + 168))

/-- `struct cpu_context_t`; its heap block is `addr`. -/
structure NewContext where
  addr : Nat
  frame : Sched.StackFrame
  fpuState : Nat

def newContext (offset xsaveSize entryFunc rsp : Nat) (user : Bool) (k : Kernel) :
    Except Stop (NewContext × Kernel) := do
  let (newGuy, k) ← allocBlock offset 184 k
  let frame := { frameAt k.mem newGuy with
    rip := BitVec.ofNat 64 entryFunc
    rsp := BitVec.ofNat 64 rsp
    rbp := BitVec.ofNat 64 rsp
    rflags := 0x202
    cs := if user then 0x40 ||| 3 else 0x28
    ss := if user then 0x38 ||| 3 else 0x30 }
  let (fpuState, k) ← allocBlock offset (alignUp xsaveSize 4096) k
  .ok (⟨newGuy, frame, fpuState⟩, k)

/-- `struct per_thread_cpu_info_t`. -/
structure GsBlock where
  kernelStackPtr : Nat
  userStackPtr : Nat
  ptr : Nat
  deriving DecidableEq

/-- What `load_elf_program` fills in of a `struct thread_t`, and what it reads; `addr` is its
heap block. -/
structure NewThread where
  addr : Nat
  context : NewContext
  info : Nat
  fs : Nat
  gsBase : Nat
  gs : GsBlock
  parameterWindowSize : Nat

/-- The arguments that end up on the stack. -/
structure ElfArgs where
  argc : Int
  argv : Nat
  envp : Nat
  entry : Nat
  phdrVirt : Nat
  phent : Nat
  phnum : Nat

def leBytes : Nat → Nat → List UInt8
  | 0, _ => []
  | n + 1, value => UInt8.ofNat value :: leBytes n (value / 256)

/-- An `Elf64_auxvec`: an `int`, its padding and a `long`. -/
def auxvec (aType aVal : Nat) : List UInt8 := leBytes 8 aType ++ leBytes 8 aVal

def ElfArgs.pushes (args : ElfArgs) : List (List UInt8) :=
  [auxvec 0 0] ++ (if args.entry ≠ 0 then [auxvec 9 args.entry] else []) ++
    [auxvec 3 args.phdrVirt, auxvec 4 args.phent, auxvec 5 args.phnum, leBytes 8 0] ++
    (if args.envp ≠ 0 then [leBytes 8 args.envp] else []) ++ [leBytes 8 0] ++
    (if args.argv ≠ 0 then [leBytes 8 args.argv] else []) ++
    [leBytes 8 (args.argc % 2 ^ 64).toNat]

/-- `parameter_window_size += sizeof(..)` and the store below `user_stack_ptr`. -/
def pushAll (offset pml4 stack : Nat) : List (List UInt8) → Nat → Mem → Except Stop (Nat × Mem)
  | [], window, mem => .ok (window, mem)
  | bytes :: rest, window, mem => do
      let window := add64 window bytes.length
      let mem ← writeBytes offset pml4 (sub64 stack window) bytes mem
      pushAll offset pml4 stack rest window mem

def alignWindow (offset pml4 stack window : Nat) (mem : Mem) : Except Stop (Nat × Mem) :=
  if window % 16 ≠ 0 then do
    let old := window
    let window := add64 window (16 - window % 16)
    let mem ← memmove offset pml4 (sub64 stack window) (sub64 stack old) old mem
    .ok (window, mem)
  else .ok (window, mem)

def stackTop : Nat := newThreadStack + 512000

/-- `load_elf_program` from the mapping of the stack on. -/
def ProcessState.startThread (offset xsaveSize entryFunc : Nat) (args : ElfArgs)
    (s : ProcessState) : Except Stop (NewThread × ProcessState) := do
  let (_, k) ← s.map.mmapRange offset newThreadStack 512000 (userFlags true) s.kernel
  let (context, k) ← newContext offset xsaveSize entryFunc stackTop true k
  let (info, k) ← allocBlock offset 4416 k
  let (thread, k) ← allocBlock offset 88 k
  -- `create_thread` sets `context` and `next`; these two are what the block held
  let fs := k.mem (thread + 64)
  let window := k.mem (thread + 80)
  let (gsBase, k) ← allocBlock offset 24 k
  let (page, k) ← pmmAllocSinglep offset k
  let (window, mem) ← pushAll offset s.map.pml4 stackTop args.pushes window k.mem
  let (window, mem) ← alignWindow offset s.map.pml4 stackTop window mem
  let frame := { context.frame with rsp := context.frame.rsp - BitVec.ofNat 64 window }
  let gs : GsBlock := ⟨add64 (add64 page offset) 4096, sub64 stackTop window, gsBase⟩
  .ok (⟨thread, { context with frame := frame }, info, fs, gsBase, gs, window⟩,
    { s with kernel := { k with mem := mem } })

/-- `hdr.e_entry`. -/
def entryPoint (file : Vnode) : Nat := leField (vnodeRdwrRead file 64 0).2 24 8

/-- The test on the header. -/
def Accepted (file : Vnode) : Prop :=
  (readHdr file).eType = 2 ∨ (readHdr file).eType = 3 ∨ (readHdr file).eIdent7 = 0

instance (file : Vnode) : Decidable (Accepted file) := inferInstanceAs (Decidable (_ ∨ _))

/-- `load_elf_program`. `lookup` is `vnode_path_lookup(root->list, path, ..)`; `stored` and
`scratch` are what the variables `stored` and `path` hold before they are set. -/
def ProcessState.loadElfProgram (offset xsaveSize : Nat) (lookup : List UInt8 → Option Vnode)
    (stored : Nat) (scratch : List UInt8) :
    Nat → Nat → Vnode → ElfArgs → ProcessState → Except Stop (Option NewThread × ProcessState)
  | 0, _, _, _, _ => .error .endless
  | fuel + 1, base, file, args, s =>
      if Accepted file then do
        let h ← (phdrs file).foldlM (Headers.step offset base file) ⟨s, stored, false, scratch⟩
        if h.interp then
          match lookup h.path with
          | some interp =>
              loadElfProgram offset xsaveSize lookup stored scratch fuel 0x40000000 interp
                { args with
                  entry := add64 base (entryPoint file)
                  phdrVirt := h.stored
                  phent := (readHdr file).ePhentsize
                  phnum := (readHdr file).ePhnum } h.process
          | none => .error .nullDeref
        else do
          let (thread, s) ←
            h.process.startThread offset xsaveSize (add64 base (entryPoint file)) args
          .ok (some thread, s)
      else .ok (none, s)

end Nyaux.Elf
