import Nyaux.Fs.Vfs
import Nyaux.Syscall.Mmap

/-! The descriptor table of a process and the system calls that use it.

A descriptor whose `ptr` is NULL has `none` there. None of these calls changes the file tree. -/

namespace Nyaux.Syscall

open Word Fs

structure FileDescriptor where
  ptr : Option Nat
  offset : Nat

structure ProcessInfo where
  curWorkingDirectory : Nat
  descriptors : Nat → FileDescriptor
  descriptorBitmap : Nat → UInt8

/-- `make_process_info`. The block is larger than every slab, so its pages were cleared. -/
def makeProcessInfo : ProcessInfo :=
  { curWorkingDirectory := 0, descriptors := fun _ => ⟨none, 0⟩, descriptorBitmap := fun _ => 0 }

def reserve (bitmap : Nat → UInt8) : Nat → UInt8 :=
  if bitmap 0 = 0 ∧ bitmap 1 = 0 then Function.update (Function.update bitmap 0 1) 1 1
  else bitmap

/-- `none` when the loop ends: the function then ends without a `return`. -/
def allocateFdFromBitmap (bitmap : Nat → UInt8) (size : Nat) : Option Nat × (Nat → UInt8) :=
  let bitmap := reserve bitmap
  match (List.range size).find? fun i => bitmap i = 0 with
  | some i => (some i, Function.update bitmap i 1)
  | none => (none, bitmap)

def deallocateFdFromBitmap (bitmap : Nat → UInt8) (fd : Nat) : Nat → UInt8 :=
  if bitmap fd = 1 then Function.update bitmap fd 0 else bitmap

/-- The element of a table of 256; `none` is memory outside it. -/
def tableIndex (fd : Int) : Option Nat := if 0 ≤ fd ∧ fd < 256 then some fd.toNat else none

def ProcessInfo.set (p : ProcessInfo) (fd : Nat) (d : FileDescriptor) : ProcessInfo :=
  { p with descriptors := Function.update p.descriptors fd d }

/-- An `int` added to an unsigned 64-bit value. -/
def addInt (a : Nat) (b : Int) : Nat := ((a + b) % 2 ^ 64).toNat

def SyscallFrame.fail (frame : SyscallFrame) : SyscallFrame :=
  { frame with rdx := BitVec.ofInt 64 (-1) }

def SyscallFrame.succeed (frame : SyscallFrame) (result : Int) : SyscallFrame :=
  { frame with rax := BitVec.ofInt 64 result, rdx := 0 }

section Calls

variable (fs : Tmpfs) (depth : Nat)

/-- `pathname` is the string the second argument points to. `leftover` is what the caller
finds in the result register when `allocate_fd_from_bitmap` returns nothing. Another `dirfd`
than -100 ends in `kpanic`. -/
def syscallOpenat (scratch : Scratch) (pathname : List UInt8) (leftover : Int)
    (frame : SyscallFrame) (p : ProcessInfo) : Option (SyscallFrame × ProcessInfo) :=
  if toInt32 frame.rsi.toNat = -100 then
    (vnodePathLookup fs scratch depth p.curWorkingDirectory pathname false []).bind fun found =>
      match found.vnode with
      | some v =>
          let (result, bitmap) := allocateFdFromBitmap p.descriptorBitmap 256
          let fd : Int := match result with
            | some i => i
            | none => leftover
          (tableIndex fd).map fun i =>
            (frame.succeed fd, { p with descriptorBitmap := bitmap }.set i ⟨some v, 0⟩)
      | none => some (frame.fail, p)
  else none

/-- The frame, the bytes stored to the buffer, and the process after the call. -/
def syscallRead (frame : SyscallFrame) (p : ProcessInfo) :
    Option (SyscallFrame × List UInt8 × ProcessInfo) :=
  let fd := toInt32 frame.rsi.toNat
  let sizeOfBuf := frame.r10.toNat
  -- the standard input is always at a line's end
  if fd = 0 ∧ sizeOfBuf > 1 then some (frame.succeed 1, [10], p)
  else (tableIndex fd).bind fun i =>
    let d := p.descriptors i
    match d.ptr with
    | some v => (fs.vnodes[v]?).map fun vnode =>
        let (hm, bytes) := vnodeRdwrRead vnode sizeOfBuf d.offset
        if hm ≠ -1 then
          (frame.succeed hm, bytes, p.set i { d with offset := addInt d.offset hm })
        else (frame.fail, bytes, p)
    | none => some (frame.fail, [], p)

def syscallClose (frame : SyscallFrame) (p : ProcessInfo) : Option (SyscallFrame × ProcessInfo) :=
  (tableIndex (toInt32 frame.rsi.toNat)).map fun i =>
    ({ frame with rdx := 0 },
      { p with descriptorBitmap := deallocateFdFromBitmap p.descriptorBitmap i }.set i ⟨none, 0⟩)

def seekTo (frame : SyscallFrame) (p : ProcessInfo) (fd offset : Nat) :
    SyscallFrame × ProcessInfo :=
  (frame.succeed offset, p.set fd { p.descriptors fd with offset := offset })

/-- An offset from the end needs an open descriptor; the access through NULL faults. -/
def syscallSeek (frame : SyscallFrame) (p : ProcessInfo) : Option (SyscallFrame × ProcessInfo) :=
  (tableIndex (toInt32 frame.rsi.toNat)).bind fun i =>
    let d := p.descriptors i
    let offset := toInt32 frame.rdx.toNat
    match toInt32 frame.r10.toNat with
    | 0 => some (seekTo frame p i (addInt 0 offset))
    | 1 => some (seekTo frame p i (addInt d.offset offset))
    | 2 => (d.ptr.bind fun v => fs.vnodes[v]?).map fun vnode =>
        seekTo frame p i (addInt 0 ((toInt32 (vnodeFilesz vnode) + offset).bmod (2 ^ 32)))
    | _ => some (frame.fail, p)

inductive FileCall where
  | openat (scratch : Scratch) (pathname : List UInt8) (leftover : Int) (frame : SyscallFrame)
  | read (frame : SyscallFrame)
  | close (frame : SyscallFrame)
  | seek (frame : SyscallFrame)

def FileCall.run (p : ProcessInfo) : FileCall → Option (SyscallFrame × List UInt8 × ProcessInfo)
  | .openat scratch pathname leftover frame =>
      (syscallOpenat fs depth scratch pathname leftover frame p).map fun (frame, p) => (frame, [], p)
  | .read frame => syscallRead fs frame p
  | .close frame => (syscallClose frame p).map fun (frame, p) => (frame, [], p)
  | .seek frame => (syscallSeek fs frame p).map fun (frame, p) => (frame, [], p)

def fileCalls (calls : List FileCall) (p : ProcessInfo) : Option ProcessInfo :=
  calls.foldlM (fun p call => (FileCall.run fs depth p call).map fun (_, _, p) => p) p

end Calls

end Nyaux.Syscall
