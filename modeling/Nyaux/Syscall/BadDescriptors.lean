import Nyaux.Lib.ByteImage
import Nyaux.Syscall.Descriptors

/-! Descriptor numbers that name nothing.

The calls index the table and the bitmap with an `int` that they do not check, so they are
followed here to the words of memory they reach. -/

namespace Nyaux.Syscall

open Word Memory Fs

/-- A vnode with the address of its `data`. -/
structure VnodeAt where
  vnode : Vnode
  data : Nat

/-- `&pro->Descriptors[fd]` -/
def descriptorAt (pro : Nat) (fd : Int) : Nat := ((pro + 64 + 16 * fd) % 2 ^ 64).toNat

/-- `&pro->descriptor_bitmap[fd]` -/
def bitmapAt (pro : Nat) (fd : Int) : Nat := ((pro + 4160 + fd) % 2 ^ 64).toNat

def offsetAt (d : Nat) : Nat := add64 d 8

def deallocateFdAt (mem : Mem) (address : Nat) : Mem :=
  if loadByte mem address = 1 then storeByte mem address 0 else mem

/-- The bytes that `v_filesz` reads behind the vnode: the second word of its data. -/
def vnodeFileszReads (v : VnodeAt) : Set Nat :=
  { a | v.data ≠ 0 ∧ v.data + 8 ≤ a ∧ a < v.data + 16 }

/-- A directory is one pointer. -/
def tmpfsDirData (v : VnodeAt) : Set Nat := { a | v.data ≤ a ∧ a < v.data + 8 }

/-- The flags of `seek`: from the start, from the offset, from the end. -/
abbrev SeekFlag (flag : Int) : Prop := flag = 0 ∨ flag = 1 ∨ flag = 2

section Calls

/- A descriptor lies in one page. What is no vnode is not followed: the call jumps
wherever the word that stands for `ops` leads. -/
variable (mapped : Nat → Bool) (vnodeAt : Nat → Option VnodeAt) (pro : Nat)

/-- The frame, the bytes stored to the buffer, and the memory of the kernel. -/
def syscallReadAt (frame : SyscallFrame) (mem : Mem) :
    Option (SyscallFrame × List UInt8 × Mem) :=
  let fd := toInt32 frame.rsi.toNat
  let sizeOfBuf := frame.r10.toNat
  if fd = 0 ∧ sizeOfBuf > 1 then some (frame.succeed 1, [10], mem)
  else
    let d := descriptorAt pro fd
    if d = 0 then some (frame.fail, [], mem)
    else if mapped d then
      if mem d = 0 then some (frame.fail, [], mem)
      else (vnodeAt (mem d)).map fun v =>
        let (hm, bytes) := vnodeRdwrRead v.vnode sizeOfBuf (mem (offsetAt d))
        if hm ≠ -1 then
          (frame.succeed hm, bytes, store mem (offsetAt d) (addInt (mem (offsetAt d)) hm))
        else (frame.fail, bytes, mem)
    else none

def syscallCloseAt (frame : SyscallFrame) (mem : Mem) : Option (SyscallFrame × List UInt8 × Mem) :=
  let fd := toInt32 frame.rsi.toNat
  let d := descriptorAt pro fd
  if mapped (bitmapAt pro fd) ∧ mapped d then
    some ({ frame with rdx := 0 }, [],
      store (store (deallocateFdAt mem (bitmapAt pro fd)) d 0) (offsetAt d) 0)
  else none

def seekAt (frame : SyscallFrame) (mem : Mem) (d offset : Nat) :
    SyscallFrame × List UInt8 × Mem :=
  (frame.succeed offset, [], store mem (offsetAt d) offset)

def syscallSeekAt (frame : SyscallFrame) (mem : Mem) : Option (SyscallFrame × List UInt8 × Mem) :=
  let d := descriptorAt pro (toInt32 frame.rsi.toNat)
  let offset := toInt32 frame.rdx.toNat
  let flag := toInt32 frame.r10.toNat
  if SeekFlag flag then
    if d = 0 then some (frame.fail, [], mem)
    else if mapped d then
      if flag = 0 then some (seekAt frame mem d (addInt 0 offset))
      else if flag = 1 then some (seekAt frame mem d (addInt (mem (offsetAt d)) offset))
      else (vnodeAt (mem d)).map fun v =>
        seekAt frame mem d (addInt 0 ((toInt32 (vnodeFilesz v.vnode) + offset).bmod (2 ^ 32)))
    else none
  else some (frame.fail, [], mem)

/-- What a seek from the end reads behind the vnode. -/
def seekEndReads (frame : SyscallFrame) (mem : Mem) : Set Nat :=
  { a | toInt32 frame.r10.toNat = 2 ∧
    ∃ v ∈ vnodeAt (mem (descriptorAt pro (toInt32 frame.rsi.toNat))), a ∈ vnodeFileszReads v }

end Calls

/-- The call fails and changes nothing. -/
def Rejected (mem : Mem) (result : Option (SyscallFrame × List UInt8 × Mem)) : Prop :=
  ∃ answer : SyscallFrame, result = some (answer, [], mem) ∧ answer.rdx = BitVec.ofInt 64 (-1)

/-- Outside the table, or not open. -/
def BadDescriptor (pro : Nat) (mem : Mem) (fd : Int) : Prop :=
  fd < 0 ∨ 256 ≤ fd ∨ mem (descriptorAt pro fd) = 0

/-- What lies at the address of a descriptor is taken for one that is not open, or for one of a
vnode that cannot be read. -/
def ReadsNothing (mapped : Nat → Bool) (vnodeAt : Nat → Option VnodeAt) (mem : Mem) (d : Nat) :
    Prop :=
  d = 0 ∨ mapped d ∧ (mem d = 0 ∨
    ∃ v, vnodeAt (mem d) = some v ∧ (v.vnode.type ≠ .file ∨ v.vnode.node.size = 0))

/-- The block of `make_process_info`. -/
structure InfoBlock (mapped : Nat → Bool) (pro : Nat) : Prop where
  aligned : pro % 8 = 0
  nonzero : 0 < pro
  space : pro + 4416 ≤ 2 ^ 64
  mapped : ∀ a, pro ≤ a → a < pro + 4416 → mapped a

structure Represents (vnodeAt : Nat → Option VnodeAt) (place : Nat → Nat) (pro : Nat) (fs : Tmpfs)
    (p : ProcessInfo) (mem : Mem) : Prop where
  ptr : ∀ fd < 256, mem (pro + 64 + 16 * fd) = ((p.descriptors fd).ptr.map place).getD 0
  offset : ∀ fd < 256, mem (pro + 64 + 16 * fd + 8) = (p.descriptors fd).offset
  bitmap : ∀ fd < 256, loadByte mem (pro + 4160 + fd) = (p.descriptorBitmap fd).toNat
  vnodes : ∀ v vnode, fs.vnodes[v]? = some vnode →
    place v ≠ 0 ∧ ∃ data, data ≠ 0 ∧ vnodeAt (place v) = some ⟨vnode, data⟩

section Table

variable {mapped : Nat → Bool} {vnodeAt : Nat → Option VnodeAt} {pro fd : Nat}

theorem InfoBlock.descriptorAt (block : InfoBlock mapped pro) (inside : fd < 256) :
    descriptorAt pro fd = pro + 64 + 16 * fd := by
  have space := block.space
  unfold Syscall.descriptorAt
  omega

theorem InfoBlock.bitmapAt (block : InfoBlock mapped pro) (inside : fd < 256) :
    bitmapAt pro fd = pro + 4160 + fd := by
  have space := block.space
  unfold Syscall.bitmapAt
  omega

theorem InfoBlock.offsetAt (block : InfoBlock mapped pro) (inside : fd < 256) :
    offsetAt (pro + 64 + 16 * fd) = pro + 64 + 16 * fd + 8 := by
  have space := block.space
  exact add64_of_lt (by omega)

theorem loadByte_store {mem : Mem} {address value other : Nat} (apart : other / 8 * 8 ≠ address) :
    loadByte (store mem address value) other = loadByte mem other := by
  unfold loadByte
  rw [store_other _ _ _ _ apart]

theorem storeByte_other {mem : Mem} {address byte other : Nat} (apart : other ≠ address / 8 * 8) :
    storeByte mem address byte other = mem other :=
  store_other _ _ _ _ apart

theorem deallocateFdAt_other {mem : Mem} {address other : Nat} (apart : other ≠ address / 8 * 8) :
    deallocateFdAt mem address other = mem other := by
  unfold deallocateFdAt
  split
  · exact storeByte_other apart
  · rfl

theorem loadByte_deallocateFdAt (mem : Mem) (address other : Nat) :
    loadByte (deallocateFdAt mem address) other =
      if other = address ∧ loadByte mem address = 1 then 0 else loadByte mem other := by
  unfold deallocateFdAt
  by_cases held : loadByte mem address = 1
  · rw [if_pos held, loadByte_storeByte _ _ _ (by decide)]
    simp only [held, and_true]
  · rw [if_neg held, if_neg (fun both => held both.2)]

end Table

section Refinement

variable {mapped : Nat → Bool} {vnodeAt : Nat → Option VnodeAt} {place : Nat → Nat} {pro i : Nat}
  {fs : Tmpfs} {p q : ProcessInfo} {mem : Mem} {frame answer : SyscallFrame} {bytes : List UInt8}

theorem set_apply (p : ProcessInfo) (i : Nat) (d : FileDescriptor) (j : Nat) :
    (p.set i d).descriptors j = if j = i then d else p.descriptors j := by
  rw [ProcessInfo.set]
  exact Function.update_apply ..

theorem Represents.setPtr (represents : Represents vnodeAt place pro fs p mem)
    (aligned : pro % 8 = 0) (inside : i < 256) :
    Represents vnodeAt place pro fs (p.set i ⟨none, (p.descriptors i).offset⟩)
      (store mem (pro + 64 + 16 * i) 0) := by
  constructor
  · intro fd low
    rw [set_apply]
    by_cases same : fd = i
    · rw [if_pos same, same, store_same]
      rfl
    · rw [if_neg same, store_other _ _ _ _ (by omega)]
      exact represents.ptr fd low
  · intro fd low
    rw [set_apply, store_other _ _ _ _ (by omega), represents.offset fd low]
    by_cases same : fd = i
    · rw [if_pos same, same]
    · rw [if_neg same]
  · intro fd low
    rw [loadByte_store (by omega)]
    exact represents.bitmap fd low
  · exact represents.vnodes

theorem Represents.setOffset (represents : Represents vnodeAt place pro fs p mem)
    (aligned : pro % 8 = 0) (inside : i < 256) (offset : Nat) :
    Represents vnodeAt place pro fs (p.set i ⟨(p.descriptors i).ptr, offset⟩)
      (store mem (pro + 64 + 16 * i + 8) offset) := by
  constructor
  · intro fd low
    rw [set_apply, store_other _ _ _ _ (by omega), represents.ptr fd low]
    by_cases same : fd = i
    · rw [if_pos same, same]
    · rw [if_neg same]
  · intro fd low
    rw [set_apply]
    by_cases same : fd = i
    · rw [if_pos same, same, store_same]
    · rw [if_neg same, store_other _ _ _ _ (by omega)]
      exact represents.offset fd low
  · intro fd low
    rw [loadByte_store (by omega)]
    exact represents.bitmap fd low
  · exact represents.vnodes

theorem Represents.deallocate (represents : Represents vnodeAt place pro fs p mem)
    (aligned : pro % 8 = 0) (inside : i < 256) :
    Represents vnodeAt place pro fs
      { p with descriptorBitmap := deallocateFdFromBitmap p.descriptorBitmap i }
      (deallocateFdAt mem (pro + 4160 + i)) := by
  constructor
  · intro fd low
    rw [deallocateFdAt_other (by omega)]
    exact represents.ptr fd low
  · intro fd low
    rw [deallocateFdAt_other (by omega)]
    exact represents.offset fd low
  · intro fd low
    have one : loadByte mem (pro + 4160 + i) = 1 ↔ p.descriptorBitmap i = 1 := by
      rw [represents.bitmap i inside]
      exact UInt8.toNat_inj (b := 1)
    rw [loadByte_deallocateFdAt, represents.bitmap fd low]
    simp only [one, deallocateFdFromBitmap]
    by_cases held : p.descriptorBitmap i = 1
    · simp only [held, and_true, if_true, Nat.add_left_cancel_iff, Function.update_apply]
      split <;> rfl
    · simp only [held, and_false, if_false]
  · exact represents.vnodes

theorem Represents.bad (represents : Represents vnodeAt place pro fs p mem)
    (block : InfoBlock mapped pro) (inside : i < 256) (closed : ¬p.Open i) :
    BadDescriptor pro mem i := by
  have null : (p.descriptors i).ptr = none := not_not.mp closed
  refine .inr (.inr ?_)
  rw [block.descriptorAt inside, represents.ptr i inside, null]
  rfl

theorem syscallRead_represented (block : InfoBlock mapped pro)
    (represents : Represents vnodeAt place pro fs p mem)
    (ran : syscallRead fs frame p = some (answer, bytes, q)) :
    ∃ after, syscallReadAt mapped vnodeAt pro frame mem = some (answer, bytes, after) ∧
      Represents vnodeAt place pro fs q after := by
  unfold syscallRead at ran
  unfold syscallReadAt
  dsimp only at ran ⊢
  by_cases console : toInt32 frame.rsi.toNat = 0 ∧ frame.r10.toNat > 1
  · rw [if_pos console] at ran ⊢
    cases ran
    exact ⟨mem, rfl, represents⟩
  · rw [if_neg console] at ran ⊢
    obtain ⟨i, index, reading⟩ := Option.bind_eq_some_iff.mp ran
    obtain ⟨reads, inside⟩ := tableIndex_eq_some.mp index
    have here := represents.ptr i inside
    have nonzero := block.nonzero
    rw [reads, block.descriptorAt inside, if_neg (by omega),
      if_pos (block.mapped _ (by omega) (by omega)), block.offsetAt inside,
      represents.offset i inside]
    cases ptr : (p.descriptors i).ptr with
    | none =>
        rw [ptr] at here reading
        cases reading
        rw [here]
        exact ⟨mem, rfl, represents⟩
    | some v =>
        rw [ptr] at here reading
        obtain ⟨vnode, present, result⟩ := Option.map_eq_some_iff.mp reading
        obtain ⟨somewhere, data, -, found⟩ := represents.vnodes v vnode present
        rw [show mem (pro + 64 + 16 * i) = place v from here, if_neg somewhere, found,
          Option.map_some]
        split at result
        · cases result
          rename_i moved
          rw [if_pos moved]
          have next := represents.setOffset block.aligned inside (addInt (p.descriptors i).offset
            (vnodeRdwrRead vnode frame.r10.toNat (p.descriptors i).offset).1)
          rw [ptr] at next
          exact ⟨_, rfl, next⟩
        · cases result
          rename_i failed
          rw [if_neg failed]
          exact ⟨mem, rfl, represents⟩

theorem syscallClose_represented (block : InfoBlock mapped pro)
    (represents : Represents vnodeAt place pro fs p mem)
    (ran : syscallClose frame p = some (answer, q)) :
    ∃ after, syscallCloseAt mapped pro frame mem = some (answer, [], after) ∧
      Represents vnodeAt place pro fs q after := by
  obtain ⟨i, index, result⟩ := Option.map_eq_some_iff.mp ran
  obtain ⟨reads, inside⟩ := tableIndex_eq_some.mp index
  have space := block.space
  cases result
  unfold syscallCloseAt
  dsimp only
  rw [reads, block.descriptorAt inside, block.bitmapAt inside, block.offsetAt inside,
    if_pos ⟨block.mapped _ (by omega) (by omega), block.mapped _ (by omega) (by omega)⟩]
  refine ⟨_, rfl, ?_⟩
  have cleared := ((represents.deallocate block.aligned inside).setPtr block.aligned inside).setOffset
    block.aligned inside 0
  simpa [ProcessInfo.set] using cleared

theorem syscallSeek_represented (block : InfoBlock mapped pro)
    (represents : Represents vnodeAt place pro fs p mem)
    (ran : syscallSeek fs frame p = some (answer, q)) :
    ∃ after, syscallSeekAt mapped vnodeAt pro frame mem = some (answer, [], after) ∧
      Represents vnodeAt place pro fs q after := by
  obtain ⟨i, index, seeking⟩ := Option.bind_eq_some_iff.mp ran
  obtain ⟨reads, inside⟩ := tableIndex_eq_some.mp index
  have nonzero := block.nonzero
  have moved := fun offset => represents.setOffset block.aligned inside offset
  have there : mapped (pro + 64 + 16 * i) := block.mapped _ (by omega) (by omega)
  have somewhere : ¬pro + 64 + 16 * i = 0 := by omega
  simp only [syscallSeekAt, reads, block.descriptorAt inside, if_neg somewhere, if_pos there, seekAt,
    block.offsetAt inside, represents.ptr i inside, represents.offset i inside]
  dsimp only at seeking
  by_cases set : toInt32 frame.r10.toNat = 0
  · simp only [set, if_true] at seeking ⊢
    obtain ⟨rfl, rfl⟩ := Prod.mk.inj (Option.some.inj seeking)
    exact ⟨_, rfl, moved _⟩
  by_cases cur : toInt32 frame.r10.toNat = 1
  · simp only [cur, one_ne_zero, if_true, if_false] at seeking ⊢
    obtain ⟨rfl, rfl⟩ := Prod.mk.inj (Option.some.inj seeking)
    exact ⟨_, rfl, moved _⟩
  by_cases end_ : toInt32 frame.r10.toNat = 2
  · simp only [end_, two_ne_zero, OfNat.ofNat_ne_one, if_false] at seeking ⊢
    obtain ⟨vnode, present, result⟩ := Option.map_eq_some_iff.mp seeking
    obtain ⟨v, ptr, present⟩ := Option.bind_eq_some_iff.mp present
    obtain ⟨-, data, -, found⟩ := represents.vnodes v vnode present
    obtain ⟨rfl, rfl⟩ := Prod.mk.inj result
    rw [ptr, Option.map_some, Option.getD_some, found]
    exact ⟨_, rfl, moved _⟩
  · rw [if_neg (not_or.mpr ⟨set, not_or.mpr ⟨cur, end_⟩⟩)]
    have failed : some (frame.fail, p) = some (answer, q) := by
      rw [← seeking]
      split <;> simp_all
    cases failed
    exact ⟨mem, rfl, represents⟩

end Refinement

section Rejection

variable {mapped : Nat → Bool} {vnodeAt : Nat → Option VnodeAt} {pro : Nat} {mem : Mem}
  {frame : SyscallFrame} {fd : Int}

theorem rejected_fail : Rejected mem (some (frame.fail, [], mem)) := ⟨frame.fail, rfl, rfl⟩

theorem not_rejected {answer : SyscallFrame} {bytes : List UInt8} {after : Mem}
    (success : answer.rdx = 0) : ¬Rejected mem (some (answer, bytes, after)) := by
  rintro ⟨answer', same, failure⟩
  obtain ⟨rfl, -⟩ := Prod.mk.inj (Option.some.inj same)
  rw [success] at failure
  exact absurd failure (by decide)

theorem not_rejected_none : ¬Rejected mem none := by
  rintro ⟨answer, same, -⟩
  cases same

theorem vnodeRdwrRead_fails_iff (v : Vnode) (sizeOfBuf offset : Nat) :
    (vnodeRdwrRead v sizeOfBuf offset).1 = -1 ∧ (vnodeRdwrRead v sizeOfBuf offset).2 = [] ↔
      v.type ≠ .file ∨ v.node.size = 0 := by
  unfold vnodeRdwrRead
  by_cases file : v.type = .file
  · by_cases empty : v.node.size = 0
    · simp [file, empty]
    · rw [if_pos file, if_neg empty]
      simp only [file, ne_eq, not_true_eq_false, empty, or_self, iff_false, not_and]
      intro failed nothing
      rw [List.map_eq_nil_iff, List.range_eq_nil] at nothing
      rw [nothing] at failed
      exact absurd failed (by decide)
  · simp [file]

theorem syscallReadAt_rejected_iff (reads : toInt32 frame.rsi.toNat = fd) (notStdin : fd ≠ 0) :
    Rejected mem (syscallReadAt mapped vnodeAt pro frame mem) ↔
      ReadsNothing mapped vnodeAt mem (descriptorAt pro fd) := by
  have noConsole : ¬(fd = 0 ∧ frame.r10.toNat > 1) := fun both => notStdin both.1
  unfold syscallReadAt ReadsNothing
  dsimp only
  rw [reads, if_neg noConsole]
  by_cases null : descriptorAt pro fd = 0
  · rw [if_pos null]
    exact iff_of_true rejected_fail (.inl null)
  rw [if_neg null]
  by_cases there : mapped (descriptorAt pro fd)
  · rw [if_pos there]
    by_cases closed : mem (descriptorAt pro fd) = 0
    · rw [if_pos closed]
      exact iff_of_true rejected_fail (.inr ⟨there, .inl closed⟩)
    rw [if_neg closed]
    cases found : vnodeAt (mem (descriptorAt pro fd)) with
    | none =>
        refine iff_of_false not_rejected_none ?_
        simp [null, closed]
    | some v =>
        have fails := vnodeRdwrRead_fails_iff v.vnode frame.r10.toNat
          (mem (offsetAt (descriptorAt pro fd)))
        rw [Option.map_some]
        simp only [null, there, closed, false_or, true_and, Option.some.injEq, exists_eq_left']
        rw [← fails]
        split
        · rename_i moved
          exact iff_of_false (not_rejected rfl) fun both => moved both.1
        · rename_i failed
          rw [not_not] at failed
          simp only [failed, true_and]
          constructor
          · rintro ⟨answer, same, -⟩
            exact (Prod.mk.inj (Prod.mk.inj (Option.some.inj same)).2).1
          · intro nothing
            rw [nothing]
            exact rejected_fail
  · rw [if_neg there]
    refine iff_of_false not_rejected_none ?_
    simp [null, there]

theorem syscallSeekAt_rejected_iff (reads : toInt32 frame.rsi.toNat = fd) :
    Rejected mem (syscallSeekAt mapped vnodeAt pro frame mem) ↔
      ¬SeekFlag (toInt32 frame.r10.toNat) ∨ descriptorAt pro fd = 0 := by
  unfold syscallSeekAt
  dsimp only
  rw [reads]
  by_cases known : SeekFlag (toInt32 frame.r10.toNat)
  · rw [if_pos known, or_iff_right (not_not.mpr known)]
    by_cases null : descriptorAt pro fd = 0
    · rw [if_pos null]
      exact iff_of_true rejected_fail null
    · rw [if_neg null]
      refine iff_of_false ?_ null
      split
      · split
        · exact not_rejected rfl
        · split
          · exact not_rejected rfl
          · cases vnodeAt (mem (descriptorAt pro fd)) with
            | none => exact not_rejected_none
            | some v => exact not_rejected rfl
      · exact not_rejected_none
  · rw [if_neg known]
    exact iff_of_true rejected_fail (.inl known)

theorem syscallCloseAt_not_rejected : ¬Rejected mem (syscallCloseAt mapped pro frame mem) := by
  unfold syscallCloseAt
  dsimp only
  split
  · exact not_rejected rfl
  · exact not_rejected_none

theorem readsNothing_closed (block : InfoBlock mapped pro) (bad : BadDescriptor pro mem fd)
    (lower : 0 ≤ fd) (upper : fd < 256) :
    ReadsNothing mapped vnodeAt mem (descriptorAt pro fd) := by
  obtain ⟨i, rfl⟩ := Int.eq_ofNat_of_zero_le lower
  have inside : i < 256 := by omega
  rcases bad with negative | large | closed
  · omega
  · omega
  · refine .inr ⟨?_, .inl closed⟩
    rw [block.descriptorAt inside]
    exact block.mapped _ (by omega) (by omega)

theorem seekEndReads_inside_iff {v : VnodeAt} (reads : toInt32 frame.rsi.toNat = fd)
    (fromEnd : toInt32 frame.r10.toNat = 2) (found : vnodeAt (mem (descriptorAt pro fd)) = some v) :
    seekEndReads vnodeAt pro frame mem ⊆ tmpfsDirData v ↔ v.data = 0 := by
  have behind : seekEndReads vnodeAt pro frame mem = vnodeFileszReads v := by
    unfold seekEndReads
    rw [reads, found]
    simp [fromEnd]
  rw [behind]
  constructor
  · intro inside
    by_contra nonzero
    have second : v.data + 8 ∈ vnodeFileszReads v := ⟨nonzero, le_rfl, by omega⟩
    exact absurd (inside second).2 (by omega)
  · rintro null a ⟨nonzero, -⟩
    exact absurd null nonzero

end Rejection

/-- Whatever the kernel's memory holds: a bad number is rejected by `read` exactly inside the table
or when nothing readable lies at its address, by `seek` exactly with an unknown flag (or at address
0), by `close` never. A seek from the end of a directory stays inside its data only without any. -/
theorem bad_descriptors_iff (mapped : Nat → Bool) (vnodeAt : Nat → Option VnodeAt) (pro : Nat)
    (mem : Mem) (block : InfoBlock mapped pro) (frame : SyscallFrame) (fd : Int)
    (reads : toInt32 frame.rsi.toNat = fd) :
    (BadDescriptor pro mem fd →
      (fd ≠ 0 → (Rejected mem (syscallReadAt mapped vnodeAt pro frame mem) ↔
        0 ≤ fd ∧ fd < 256 ∨ ReadsNothing mapped vnodeAt mem (descriptorAt pro fd))) ∧
      (Rejected mem (syscallSeekAt mapped vnodeAt pro frame mem) ↔
        ¬SeekFlag (toInt32 frame.r10.toNat) ∨ descriptorAt pro fd = 0) ∧
      ¬Rejected mem (syscallCloseAt mapped pro frame mem)) ∧
    ∀ v, toInt32 frame.r10.toNat = 2 → vnodeAt (mem (descriptorAt pro fd)) = some v →
      v.vnode.type = .dir →
      (seekEndReads vnodeAt pro frame mem ⊆ tmpfsDirData v ↔ v.data = 0) := by
  refine ⟨fun bad => ⟨fun notStdin => ?_, syscallSeekAt_rejected_iff reads,
    syscallCloseAt_not_rejected⟩, fun v fromEnd found _ =>
    seekEndReads_inside_iff reads fromEnd found⟩
  rw [syscallReadAt_rejected_iff reads notStdin]
  constructor
  · exact .inr
  · rintro (⟨lower, upper⟩ | nothing)
    · exact readsNothing_closed block bad lower upper
    · exact nothing

section NewProcess

def infoAddress : Nat := 0xffff800000100000

def rootAddress : Nat := 0xffff800000200000

def rootAt (address : Nat) : Option VnodeAt :=
  if address = rootAddress then some ⟨newVnode .dir, 0xffff800000300000⟩ else none

theorem infoAddress_block : InfoBlock (fun _ => true) infoAddress :=
  ⟨by decide, by decide, by decide, fun _ _ _ => rfl⟩

theorem makeProcessInfo_represents : Represents rootAt (fun _ => rootAddress) infoAddress emptyRoot
    makeProcessInfo (fun _ => 0) := by
  constructor
  · exact fun _ _ => rfl
  · exact fun _ _ => rfl
  · intro fd _
    unfold loadByte
    rw [Nat.zero_div]
    rfl
  · intro v vnode present
    obtain rfl : newVnode .dir = vnode := List.mem_singleton.mp (List.mem_of_getElem? present) ▸ rfl
    exact ⟨by decide, 0xffff800000300000, by decide, if_pos rfl⟩

def closeFrame : SyscallFrame := ⟨3, 0, 5, 0, 0, 0, 0⟩

theorem closeFrame_fd : toInt32 closeFrame.rsi.toNat = 5 := by decide

/-- The same number read, moved and closed. -/
theorem bad_descriptors_iff_five :
    (BadDescriptor infoAddress (fun _ => 0) 5 →
      ((5 : Int) ≠ 0 →
        (Rejected (fun _ => 0) (syscallReadAt (fun _ => true) rootAt infoAddress closeFrame fun _ => 0) ↔
          (0 : Int) ≤ 5 ∧ (5 : Int) < 256 ∨
            ReadsNothing (fun _ => true) rootAt (fun _ => 0) (descriptorAt infoAddress 5))) ∧
      (Rejected (fun _ => 0) (syscallSeekAt (fun _ => true) rootAt infoAddress closeFrame fun _ => 0) ↔
        ¬SeekFlag (toInt32 closeFrame.r10.toNat) ∨ descriptorAt infoAddress 5 = 0) ∧
      ¬Rejected (fun _ => 0) (syscallCloseAt (fun _ => true) infoAddress closeFrame fun _ => 0)) ∧
    ∀ v, toInt32 closeFrame.r10.toNat = 2 →
      rootAt ((fun _ => 0) (descriptorAt infoAddress 5)) = some v → v.vnode.type = .dir →
      (seekEndReads rootAt infoAddress closeFrame (fun _ => 0) ⊆ tmpfsDirData v ↔ v.data = 0) :=
  bad_descriptors_iff (fun _ => true) rootAt infoAddress (fun _ => 0) infoAddress_block closeFrame 5
    closeFrame_fd

/-- A new process closes a number that it never opened, and is told that it did. -/
theorem closed_descriptor_closes : ¬∀ (fs : Tmpfs) (depth : Nat) (p : ProcessInfo)
    (mapped : Nat → Bool) (vnodeAt : Nat → Option VnodeAt) (place : Nat → Nat) (pro : Nat) (mem : Mem)
    (frame : SyscallFrame), Reached fs depth p → InfoBlock mapped pro →
    Represents vnodeAt place pro fs p mem → BadDescriptor pro mem (toInt32 frame.rsi.toNat) →
    (toInt32 frame.rsi.toNat ≠ 0 → Rejected mem (syscallReadAt mapped vnodeAt pro frame mem)) ∧
      Rejected mem (syscallSeekAt mapped vnodeAt pro frame mem) ∧
      Rejected mem (syscallCloseAt mapped pro frame mem) := by
  intro rejects
  have bad : BadDescriptor infoAddress (fun _ => 0) (5 : Nat) :=
    makeProcessInfo_represents.bad infoAddress_block (by decide) (not_not.mpr rfl)
  have closes := (rejects emptyRoot 1 makeProcessInfo (fun _ => true) rootAt (fun _ => rootAddress)
    infoAddress (fun _ => 0) closeFrame ⟨[], rfl⟩ infoAddress_block makeProcessInfo_represents
    (closeFrame_fd ▸ bad)).2.2
  exact syscallCloseAt_not_rejected closes

end NewProcess

end Nyaux.Syscall
