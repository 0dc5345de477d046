import Nyaux.Mm.UserSpace

/-! tmpfs nodes and `vnode_rdwr`.

A heap block is its address together with its bytes, numbered from the start of the
block; the number of a byte in front of it wraps around. The bytes of a block fresh from the heap
are whatever the heap held there, and so are those around it. -/

namespace Nyaux.Fs

open Word

open Mm (Overflow)

structure Block where
  addr : Nat
  bytes : Nat → UInt8

/-- `kmalloc` as the file system sees it. `vmm_region_alloc` computes page offsets in an
`int`, so a request over the limit is not backed by memory and the first access beyond the
limit faults; up to the limit the caller gets the block. -/
def kmalloc (overflow : Overflow) (fresh : Block) (size : Nat) : Option Block :=
  if size ≤ overflow.limit then some fresh else none

theorem kmalloc_isSome_iff (overflow : Overflow) (fresh : Block) (size : Nat)
    (aligned : 4096 ∣ fresh.addr) (small : size ≤ 2 ^ 32)
    (word : fresh.addr + alignUp size 4096 ≤ 2 ^ 64) :
    (kmalloc overflow fresh size).isSome ↔ ∀ i < (Mm.numOfPages size).toNat,
      Mm.pageIndex (fresh.addr + i * 0x1000) ∈
        overflow.pageLoop fresh.addr (Mm.numOfPages size).toNat := by
  have rounded := alignUp_page_of_le (show size ≤ 2 ^ 64 - 4096 by omega)
  have pages : (Mm.numOfPages size).toNat = (size + 4095) / 4096 := by
    rw [Mm.numOfPages, rounded, toInt32_of_lt (by omega), Int.toNat_natCast]
    omega
  have whole : 0x1000 ∣ overflow.limit := by cases overflow <;> decide
  rw [pages, overflow.pageLoop_covers_iff aligned (by omega) (by omega), kmalloc]
  split
  · simp only [Option.isSome_some, true_iff]
    omega
  · simp only [Option.isSome_none, Bool.false_eq_true, false_iff]
    omega

def memset (block : Block) (c : UInt8) (n : Nat) : Block :=
  { block with bytes := fun i => if i < n then c else block.bytes i }

/-- `memcpy(block + offset, buf, n)` with `n` the length of `buf`. -/
def memcpyAt (block : Block) (offset : Nat) (buf : List UInt8) : Block :=
  { block with bytes := fun i =>
      if offset ≤ i then (buf[i - offset]?).getD (block.bytes i) else block.bytes i }

def krealloc (overflow : Overflow) (fresh : Block) (block : Block) (oldsz newsz : Nat) :
    Option Block := do
  let newShit ← kmalloc overflow fresh newsz
  if block.addr ≠ 0 ∧ oldsz > 0 then
    some { newShit with bytes := fun i => if i < oldsz then block.bytes i else newShit.bytes i }
  else some newShit

structure TmpfsNode where
  data : Block
  size : Nat

inductive VnodeType where
  | dir
  | file
  | symlink
  deriving DecidableEq

/-- An entry of a `tmpfs_dir`; vnodes are referred to by number. -/
structure DirEntry where
  name : List UInt8
  ptrToVnode : Nat
  deriving DecidableEq

/-- The two readings of `data`: the entry list of a directory, the node of a file or link. -/
structure Vnode where
  type : VnodeType
  dir : List DirEntry
  node : TmpfsNode

/-- The branch `rw == 0` of `vnode_rdwr`: the result and the bytes copied to `buf`. -/
def vnodeRdwrRead (v : Vnode) (sizeOfBuf offset : Nat) : Int × List UInt8 :=
  if v.type = .file then
    let file := v.node
    if file.size = 0 then (-1, [])
    else
      let start := add64 file.data.addr offset
      let stop := add64 start sizeOfBuf
      let last := add64 file.data.addr file.size
      let stop := if stop > last then last else stop
      let start := if start > stop then stop else start
      (toInt32 (stop - start), (List.range (stop - start)).map fun i =>
        file.data.bytes (sub64 (start + i) file.data.addr))
  else (-1, [])

/-- The branch `rw == 1` of `vnode_rdwr`. `fresh` is the block the heap would hand out. -/
def vnodeRdwrWrite (overflow : Overflow) (v : Vnode) (buf : List UInt8) (offset : Nat)
    (fresh : Block) : Option (Int × Vnode) :=
  if v.type = .file then do
    let file := v.node
    let sizeOfBuf := buf.length
    let file ←
      if file.size = 0 then do
        let data ← kmalloc overflow fresh (add64 sizeOfBuf offset)
        let size := add64 sizeOfBuf offset
        some { data := memset data 0 size, size := size : TmpfsNode }
      else if add64 sizeOfBuf offset > file.size then do
        let data ← krealloc overflow fresh file.data file.size (add64 sizeOfBuf offset)
        some { data := data, size := add64 sizeOfBuf offset : TmpfsNode }
      else some file
    some (0, { v with node := { file with data := memcpyAt file.data offset buf } })
  else some (-1, v)

def vnodeFilesz (v : Vnode) : Nat := v.node.size

theorem vnodeRdwrRead_byte (v : Vnode) (p : Nat) (file : v.type = .file)
    (inside : p < v.node.size) (space : v.node.data.addr + v.node.size < 2 ^ 64) :
    vnodeRdwrRead v 1 p = (1, [v.node.data.bytes p]) := by
  have start : add64 v.node.data.addr p = v.node.data.addr + p := add64_of_lt (by omega)
  have stop : add64 (v.node.data.addr + p) 1 = v.node.data.addr + p + 1 :=
    add64_of_lt (by omega)
  have last : add64 v.node.data.addr v.node.size = v.node.data.addr + v.node.size :=
    add64_of_lt space
  have whole : ¬ v.node.data.addr + p + 1 > v.node.data.addr + v.node.size := by omega
  have ordered : ¬ v.node.data.addr + p > v.node.data.addr + p + 1 := by omega
  have one : v.node.data.addr + p + 1 - (v.node.data.addr + p) = 1 := by omega
  have index : sub64 (v.node.data.addr + p) v.node.data.addr = p := sub64_add_left (by omega)
  simp only [vnodeRdwrRead, if_pos file, if_neg (show ¬ v.node.size = 0 by omega), start, stop,
    last, if_neg whole, if_neg ordered, one]
  rw [toInt32_of_lt (by decide)]
  simp [List.range_succ, index]

end Nyaux.Fs
