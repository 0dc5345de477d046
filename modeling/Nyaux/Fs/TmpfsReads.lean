import Nyaux.Fs.Tmpfs

/-! The bytes a read of a tmpfs file touches, for any offset and any size. -/

namespace Nyaux.Fs

open Word

/-- The addresses `memcpy` reads from: from the first one up to the second. -/
def readRange (file : TmpfsNode) (sizeOfBuf offset : Nat) : Nat × Nat :=
  let start := add64 file.data.addr offset
  let stop := add64 start sizeOfBuf
  let last := add64 file.data.addr file.size
  let stop := if stop > last then last else stop
  (if start > stop then stop else start, stop)

/-- A regular file with contents in a block that does not wrap around. -/
structure NonemptyFile (v : Vnode) : Prop where
  file : v.type = .file
  some : 0 < v.node.size
  block : v.node.data.addr + v.node.size ≤ 2 ^ 64

def readLength (v : Vnode) (sizeOfBuf offset : Nat) : Nat :=
  min sizeOfBuf (v.node.size - min offset v.node.size)

/-- A read delivers the bytes of the file at the offset and touches nothing else. -/
structure ReadsFile (v : Vnode) (sizeOfBuf offset : Nat) : Prop where
  result : (vnodeRdwrRead v sizeOfBuf offset).1 = readLength v sizeOfBuf offset
  bytes : (vnodeRdwrRead v sizeOfBuf offset).2 =
    (List.range (readLength v sizeOfBuf offset)).map fun i => v.node.data.bytes (offset + i)
  inside : ∀ address, (readRange v.node sizeOfBuf offset).1 ≤ address →
    address < (readRange v.node sizeOfBuf offset).2 →
    v.node.data.addr ≤ address ∧ address < v.node.data.addr + v.node.size

/-- When the sums behind the pointers are harmless: those of a read that delivers something
do not wrap, and those that start behind the end of memory deliver nothing. -/
structure PointersFit (v : Vnode) (sizeOfBuf offset : Nat) : Prop where
  short : readLength v sizeOfBuf offset < 2 ^ 31
  some : 0 < readLength v sizeOfBuf offset →
    v.node.data.addr + v.node.size < 2 ^ 64 ∧ v.node.data.addr + offset + sizeOfBuf < 2 ^ 64
  wrapped : 2 ^ 64 ≤ v.node.data.addr + offset →
    sizeOfBuf = 0 ∨ 2 * 2 ^ 64 ≤ v.node.data.addr + offset + sizeOfBuf ∨
      v.node.data.addr + v.node.size = 2 ^ 64

section

variable {v : Vnode} {sizeOfBuf offset : Nat}

theorem vnodeRdwrRead_range (nonempty : NonemptyFile v) :
    vnodeRdwrRead v sizeOfBuf offset =
      (toInt32 ((readRange v.node sizeOfBuf offset).2 - (readRange v.node sizeOfBuf offset).1),
        (List.range ((readRange v.node sizeOfBuf offset).2 -
          (readRange v.node sizeOfBuf offset).1)).map fun i =>
            v.node.data.bytes (sub64 ((readRange v.node sizeOfBuf offset).1 + i)
              v.node.data.addr)) := by
  have some := nonempty.some
  rw [vnodeRdwrRead, if_pos nonempty.file, if_neg (by omega)]
  rfl

theorem ite_gt_eq_min (a b : Nat) : (if a > b then b else a) = min a b := by
  by_cases greater : a > b
  · rw [if_pos greater, min_eq_right (Nat.le_of_lt greater)]
  · rw [if_neg greater, min_eq_left (Nat.not_lt.mp greater)]

theorem readRange_eq (file : TmpfsNode) (sizeOfBuf offset : Nat) :
    readRange file sizeOfBuf offset =
      let stop := min (add64 (add64 file.data.addr offset) sizeOfBuf)
        (add64 file.data.addr file.size)
      (min (add64 file.data.addr offset) stop, stop) := by
  simp only [readRange, ite_gt_eq_min]

theorem add64_wrap {a b : Nat} (left : a < 2 ^ 64) (right : b < 2 ^ 64) (wraps : 2 ^ 64 ≤ a + b) :
    add64 a b = a + b - 2 ^ 64 := by
  unfold add64
  omega

theorem readRange_spec (nonempty : NonemptyFile v) (size : sizeOfBuf < 2 ^ 64)
    (word : offset < 2 ^ 64) :
    (readRange v.node sizeOfBuf offset).2 - (readRange v.node sizeOfBuf offset).1 =
        readLength v sizeOfBuf offset ↔
      (0 < readLength v sizeOfBuf offset → v.node.data.addr + v.node.size < 2 ^ 64 ∧
        v.node.data.addr + offset + sizeOfBuf < 2 ^ 64) ∧
      (2 ^ 64 ≤ v.node.data.addr + offset →
        sizeOfBuf = 0 ∨ 2 * 2 ^ 64 ≤ v.node.data.addr + offset + sizeOfBuf ∨
          v.node.data.addr + v.node.size = 2 ^ 64) := by
  obtain ⟨-, some, block⟩ := nonempty
  rw [readRange_eq]
  simp only [readLength]
  generalize v.node.data.addr = base at *
  generalize v.node.size = length at *
  have last : add64 base length = base + length ∧ base + length < 2 ^ 64 ∨
      add64 base length = 0 ∧ base + length = 2 ^ 64 := by
    unfold add64
    omega
  -- each of the two sums behind the end pointer wraps around at most once
  by_cases low : base + offset < 2 ^ 64
  · rw [add64_of_lt low]
    by_cases near : base + offset + sizeOfBuf < 2 ^ 64
    · rw [add64_of_lt near]
      generalize 2 ^ 64 = memory at *
      omega
    · rw [add64_wrap low size (Nat.not_lt.mp near)]
      generalize 2 ^ 64 = memory at *
      omega
  · rw [add64_wrap (by omega) word (Nat.not_lt.mp low)]
    by_cases near : base + offset - 2 ^ 64 + sizeOfBuf < 2 ^ 64
    · rw [add64_of_lt near]
      generalize 2 ^ 64 = memory at *
      omega
    · rw [add64_wrap (by omega) size (Nat.not_lt.mp near)]
      generalize 2 ^ 64 = memory at *
      omega

theorem readRange_start (nonempty : NonemptyFile v)
    (count : (readRange v.node sizeOfBuf offset).2 - (readRange v.node sizeOfBuf offset).1 =
      readLength v sizeOfBuf offset) (some : 0 < readLength v sizeOfBuf offset) :
    (readRange v.node sizeOfBuf offset).1 = v.node.data.addr + offset := by
  have block := nonempty.block
  have inside : offset < v.node.size := by
    unfold readLength at some
    omega
  have sum : add64 v.node.data.addr offset = v.node.data.addr + offset := add64_of_lt (by omega)
  rw [readRange_eq, sum] at count ⊢
  dsimp only at count ⊢
  omega

theorem lt_of_toInt32 {n : Nat} (same : toInt32 n = n) : n < 2 ^ 31 := by
  have below : toInt32 n < (2 ^ 32 + 1) / 2 := Int.bmod_lt (by decide)
  rw [same] at below
  omega

/-- A read is exact when the pointers fit, and only then. -/
theorem vnode_rdwr_reads_file (nonempty : NonemptyFile v) (size : sizeOfBuf < 2 ^ 64)
    (word : offset < 2 ^ 64) : ReadsFile v sizeOfBuf offset ↔ PointersFit v sizeOfBuf offset := by
  have whole := readRange_spec nonempty size word
  have read : vnodeRdwrRead v sizeOfBuf offset = _ := vnodeRdwrRead_range nonempty
  constructor
  · rintro ⟨result, bytes, -⟩
    have count := congrArg List.length bytes
    rw [read] at count result
    simp only [List.length_map, List.length_range] at count
    obtain ⟨some, wrapped⟩ := whole.mp count
    rw [count] at result
    dsimp only at result
    exact ⟨lt_of_toInt32 result, some, wrapped⟩
  · rintro ⟨short, some, wrapped⟩
    have count := whole.mpr ⟨some, wrapped⟩
    refine ⟨?_, ?_, ?_⟩
    · have reported := congrArg Prod.fst read
      rw [count] at reported
      dsimp only at reported
      exact reported.trans (toInt32_of_lt short)
    · have copied := congrArg Prod.snd read
      rw [count] at copied
      rw [copied]
      apply List.map_congr_left
      intro i member
      have some := Nat.lt_of_le_of_lt (Nat.zero_le i) (List.mem_range.mp member)
      have first := readRange_start nonempty count some
      have last : i < readLength v sizeOfBuf offset := List.mem_range.mp member
      have inFile : readLength v sizeOfBuf offset ≤ v.node.size - offset := by
        unfold readLength
        omega
      have block := nonempty.block
      rw [first, Nat.add_assoc, sub64_add_left (by omega)]
    · intro address above below
      have first := readRange_start nonempty count (by omega)
      have inFile : readLength v sizeOfBuf offset ≤ v.node.size - offset := by
        unfold readLength
        omega
      omega

end

def threeBytes : Vnode := ⟨.file, [], ⟨⟨0xffff800000100000, fun _ => 65⟩, 3⟩⟩

theorem nonempty_threeBytes : NonemptyFile threeBytes := ⟨rfl, by decide, by decide⟩

theorem vnode_rdwr_reads_file_two : ReadsFile threeBytes 2 1 := by
  refine (vnode_rdwr_reads_file nonempty_threeBytes (by decide) (by decide)).mpr ⟨?_, ?_, ?_⟩
  · decide
  · decide
  · intro wraps
    exact absurd wraps (by decide)

/-- One byte at the offset -1 is the heap byte before the file; a buffer of 2^64 - 1 bytes gets
nothing. -/
theorem vnode_rdwr_misreads_file :
    ¬ReadsFile threeBytes 1 (2 ^ 64 - 1) ∧ ¬ReadsFile threeBytes (2 ^ 64 - 1) 0 := by
  refine ⟨fun reads => ?_, fun reads => ?_⟩
  · have result := reads.result
    exact absurd result (by decide)
  · have result := reads.result
    exact absurd result (by decide)

end Nyaux.Fs
