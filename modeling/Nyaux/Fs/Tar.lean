import Nyaux.Fs.Vfs

/-! `parse_tar_and_populate_tmpfs`. The archive is given by the bytes from the current
header to its end. -/

namespace Nyaux.Fs

open Word CString

/-- The value of a `char`. -/
def charValue (c : UInt8) : Int := Int.bmod c.toNat 256

/-- The sum is an `unsigned int`. -/
def getsize (field : List UInt8) : Nat :=
  (((List.range 11).map fun j => (charValue (field.getD j 0) - 48) * 8 ^ (10 - j)).sum
    % 2 ^ 32).toNat

/-- The blocks and bytes the heap holds when the vnode of a given number is made, and how it was
compiled. -/
structure Heap where
  overflow : Mm.Overflow
  data : Nat → Block
  scratch : Nat → Scratch

/-- `v_rdwr(notneeded, .., 0, buf, 1)`, and then the new type. -/
def writeNew (heap : Heap) (fs : Tmpfs) (v : Nat) (buf : List UInt8) (type : VnodeType) :
    Option Tmpfs := do
  let vnode ← fs.vnodes[v]?
  let (_, vnode) ← vnodeRdwrWrite heap.overflow vnode buf 0 (heap.data v)
  some { vnodes := fs.vnodes.set v { vnode with type := type } }

def emptyRoot : Tmpfs := { vnodes := [newVnode .dir] }

def nextHeader (hdr : List UInt8) : List UInt8 :=
  hdr.drop (512 + alignUp (getsize (hdr.drop 124)) 512)

/-- The string that `strlen(hdr_ptr->type)` measures: the field has no terminator. -/
def typeString (hdr : List UInt8) : List UInt8 := cstring (hdr.drop 156)

theorem nextHeader_shorter (hdr : List UInt8) (more : 1024 < hdr.length) :
    (nextHeader hdr).length < hdr.length := by
  rw [nextHeader, List.length_drop]
  omega

def populate (heap : Heap) (depth : Nat) (hdr : List UInt8) (fs : Tmpfs) : Option Tmpfs :=
  let name := cstring hdr
  let scratch := heap.scratch fs.vnodes.length
  let type := typeString hdr
  if strncmp type [53] type.length = 0 then do
    let (_, fs, _) ← vfsCreate fs scratch depth 0 name 0
    some fs
  else if strncmp type [48] type.length = 0 then do
    let (_, fs, notneeded) ← vfsCreate fs scratch depth 0 name 1
    match notneeded with
    | some v => writeNew heap fs v ((hdr.drop 512).take (getsize (hdr.drop 124))) .file
    | none => some fs
  else if hdr.getD 156 0 = 50 then do
    let (_, fs, notneeded) ← vfsCreate fs scratch depth 0 name 1
    match notneeded with
    | some v => writeNew heap fs v (cstring (hdr.drop 157) ++ [0]) .symlink
    | none => some fs
  else some fs

/-- The loop runs while more than two blocks are left. `none` is a fault in the write of a
file's content, or a chain of symlinks longer than `depth`. -/
def parseTar (heap : Heap) (depth : Nat) (hdr : List UInt8) (fs : Tmpfs) : Option Tmpfs :=
  if more : 1024 < hdr.length then
    (populate heap depth hdr fs).bind fun fs =>
      have := nextHeader_shorter hdr more
      parseTar heap depth (nextHeader hdr) fs
  else some fs
termination_by hdr.length

def parseTarAndPopulateTmpfs (heap : Heap) (depth : Nat) (archive : List UInt8) : Option Tmpfs :=
  parseTar heap depth archive emptyRoot

end Nyaux.Fs
