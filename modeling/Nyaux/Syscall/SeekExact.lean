import Nyaux.Syscall.SequentialReads

/-! Where `seek` puts the offset of an open file.

Offset and file size pass through an `int`. -/

namespace Nyaux.Syscall

open Word Fs

/-- What an offset is counted from. -/
def seekBase (whence : Int) (size offset : Nat) : Nat :=
  if whence = 0 then 0 else if whence = 1 then offset else size

/-- `target` is stored and returned if it is an offset; otherwise the call fails. -/
def SeekExact (fs : Tmpfs) (frame : SyscallFrame) (p : ProcessInfo) (fd : Nat) (target : Int) :
    Prop :=
  ∃ answer q, syscallSeek fs frame p = some (answer, q) ∧
    if 0 ≤ target ∧ target < 2 ^ 63 then
      answer.rdx = 0 ∧ (answer.rax.toNat : Int) = target ∧ ((q.descriptors fd).offset : Int) = target
    else
      answer.rdx = BitVec.ofInt 64 (-1) ∧ (q.descriptors fd).offset = (p.descriptors fd).offset

/-- The target is an offset, and what passes through an `int` fits. -/
def SeekFits (whence distance : Int) (size offset : Nat) : Prop :=
  whence = 0 ∧ 0 ≤ distance ∧ distance < 2 ^ 31 ∨
  whence = 1 ∧ -2 ^ 31 ≤ distance ∧ distance < 2 ^ 31 ∧
    0 ≤ offset + distance ∧ offset + distance < 2 ^ 63 ∨
  whence = 2 ∧ 0 ≤ size + distance ∧ size + distance < 2 ^ 31

/-- A read of a small file from an address that does not wrap, or of less than 2 GiB with room
left for the offset. -/
def ReadFits (vnode : Vnode) (count offset : Nat) : Prop :=
  vnode.node.data.addr + offset < 2 ^ 64 ∧ vnode.node.data.addr + vnode.node.size < 2 ^ 64 ∧
    vnode.node.size < 2 ^ 31 ∨
  count < 2 ^ 31 ∧ offset + count < 2 ^ 63

/-- A seek or read, with the condition on those of `fd`. -/
def FileCall.Fits (fd : Nat) (vnode : Vnode) (p : ProcessInfo) : FileCall → Prop
  | .seek frame => toInt32 frame.rsi.toNat = fd →
      toInt32 frame.r10.toNat ∈ ({0, 1, 2} : Set Int) →
      SeekFits (toInt32 frame.r10.toNat) frame.rdx.toInt vnode.node.size (p.descriptors fd).offset
  | .read frame => toInt32 frame.rsi.toNat = fd →
      ReadFits vnode frame.r10.toNat (p.descriptors fd).offset
  | _ => False

/-- A run all of whose calls meet the condition. -/
def RunFits (fs : Tmpfs) (depth fd : Nat) (vnode : Vnode) : List FileCall → ProcessInfo → Prop
  | [], _ => True
  | call :: calls, p => call.Fits fd vnode p ∧
      ∀ result, call.run fs depth p = some result → RunFits fs depth fd vnode calls result.2.2

section Word

theorem bmod_range (x : Int) : -2 ^ 31 ≤ x.bmod (2 ^ 32) ∧ x.bmod (2 ^ 32) < 2 ^ 31 ∧
    x.bmod (2 ^ 32) % 2 ^ 32 = x % 2 ^ 32 :=
  ⟨Int.le_bmod (by decide), Int.bmod_lt (by decide), Int.bmod_emod⟩

theorem toInt32_range (n : Nat) :
    -2 ^ 31 ≤ toInt32 n ∧ toInt32 n < 2 ^ 31 ∧ toInt32 n % 2 ^ 32 = n % 2 ^ 32 :=
  bmod_range n

/-- The low half of a register as an `int`. -/
theorem toInt_register (r : BitVec 64) :
    -2 ^ 63 ≤ r.toInt ∧ r.toInt < 2 ^ 63 ∧ toInt32 r.toNat % 2 ^ 32 = r.toInt % 2 ^ 32 := by
  have whole : r.toInt % 2 ^ 64 = r.toNat % 2 ^ 64 := by
    rw [BitVec.toInt_eq_toNat_bmod]
    exact Int.bmod_emod
  have low := (toInt32_range r.toNat).2.2
  refine ⟨BitVec.le_toInt r, BitVec.toInt_lt, ?_⟩
  omega

theorem addInt_eq (a : Nat) (b : Int) : (addInt a b : Int) = (a + b) % 2 ^ 64 := by
  unfold addInt
  omega

theorem succeed_nat {frame : SyscallFrame} {offset : Nat} (word : offset < 2 ^ 64) :
    (frame.succeed offset).rax.toNat = offset := by
  simp only [SyscallFrame.succeed, BitVec.ofInt_natCast, BitVec.toNat_ofNat]
  exact Nat.mod_eq_of_lt word

theorem addInt_lt (a : Nat) (b : Int) : addInt a b < 2 ^ 64 := by
  unfold addInt
  omega

end Word

section Seek

variable {fs : Tmpfs} {frame : SyscallFrame} {p : ProcessInfo} {fd offset v : Nat} {vnode : Vnode}

theorem seekExact_stored {stored : Nat} {target : Int} (word : stored < 2 ^ 64)
    (ran : syscallSeek fs frame p = some (seekTo frame p fd stored)) :
    SeekExact fs frame p fd target ↔ 0 ≤ target ∧ target < 2 ^ 63 ∧ (stored : Int) = target := by
  have failure : BitVec.ofInt 64 (-1) ≠ 0 := by decide
  constructor
  · rintro ⟨answer, q, ran', law⟩
    obtain ⟨rfl, rfl⟩ := Prod.mk.inj (Option.some.inj (ran.symm.trans ran'))
    split at law
    · rename_i range
      have placed := law.2.2
      rw [set_same] at placed
      exact ⟨range.1, range.2, placed⟩
    · exact absurd law.1.symm failure
  · rintro ⟨lower, upper, same⟩
    refine ⟨_, _, ran, ?_⟩
    rw [if_pos ⟨lower, upper⟩, succeed_nat word, set_same]
    exact ⟨rfl, same, same⟩

theorem syscallSeek_stored (inside : fd < 256) (here : p.descriptors fd = ⟨some v, offset⟩)
    (present : fs.vnodes[v]? = some vnode) (reads : toInt32 frame.rsi.toNat = fd) :
    (toInt32 frame.r10.toNat = 0 → syscallSeek fs frame p =
      some (seekTo frame p fd (addInt 0 (toInt32 frame.rdx.toNat)))) ∧
    (toInt32 frame.r10.toNat = 1 → syscallSeek fs frame p =
      some (seekTo frame p fd (addInt offset (toInt32 frame.rdx.toNat)))) ∧
    (toInt32 frame.r10.toNat = 2 → syscallSeek fs frame p =
      some (seekTo frame p fd (addInt 0
        ((toInt32 vnode.node.size + toInt32 frame.rdx.toNat).bmod (2 ^ 32))))) := by
  have index : tableIndex (fd : Int) = some fd := tableIndex_eq_some.mpr ⟨rfl, inside⟩
  refine ⟨fun set => ?_, fun cur => ?_, fun end_ => ?_⟩
  · simp only [syscallSeek, reads, index, Option.bind_some, set]
  · simp only [syscallSeek, reads, index, Option.bind_some, cur, here]
  · simp only [syscallSeek, reads, index, Option.bind_some, end_, here, present, Option.map_some,
      vnodeFilesz]

theorem seekExact_iff (inside : fd < 256) (here : p.descriptors fd = ⟨some v, offset⟩)
    (present : fs.vnodes[v]? = some vnode) (reads : toInt32 frame.rsi.toNat = fd)
    (whence : toInt32 frame.r10.toNat ∈ ({0, 1, 2} : Set Int)) :
    SeekExact fs frame p fd
        (seekBase (toInt32 frame.r10.toNat) vnode.node.size offset + frame.rdx.toInt) ↔
      SeekFits (toInt32 frame.r10.toNat) frame.rdx.toInt vnode.node.size offset := by
  obtain ⟨set, cur, end_⟩ := syscallSeek_stored inside here present reads
  obtain ⟨low, up, -⟩ := toInt32_range frame.rdx.toNat
  obtain ⟨least, most, half⟩ := toInt_register frame.rdx
  rcases whence with zero | one | two
  · rw [seekExact_stored (addInt_lt _ _) (set zero), addInt_eq, zero, SeekFits, seekBase,
      if_pos rfl]
    omega
  · rw [seekExact_stored (addInt_lt _ _) (cur one), addInt_eq, one, SeekFits, seekBase,
      if_neg (by decide), if_pos rfl]
    omega
  · have whence : toInt32 frame.r10.toNat = 2 := two
    obtain ⟨-, -, sizeHalf⟩ := toInt32_range vnode.node.size
    obtain ⟨lower, upper, same⟩ := bmod_range (toInt32 vnode.node.size + toInt32 frame.rdx.toNat)
    have stored := end_ whence
    generalize Int.bmod _ (2 ^ 32) = sum at stored lower upper same
    have base : seekBase 2 vnode.node.size offset = vnode.node.size := rfl
    have total : sum % 2 ^ 32 = (vnode.node.size + frame.rdx.toInt) % 2 ^ 32 := by
      rw [same, Int.add_emod, sizeHalf, half, ← Int.add_emod]
    have fits : SeekFits 2 frame.rdx.toInt vnode.node.size offset ↔
        0 ≤ vnode.node.size + frame.rdx.toInt ∧ vnode.node.size + frame.rdx.toInt < 2 ^ 31 := by
      simp [SeekFits]
    rw [seekExact_stored (addInt_lt _ _) stored, addInt_eq, whence, fits, base]
    generalize (vnode.node.size : Int) + frame.rdx.toInt = target at total
    clear * - lower upper total
    omega

theorem vnodeRdwrRead_moves {count : Nat} (fits : ReadFits vnode count offset)
    (small : offset < 2 ^ 63) (success : (vnodeRdwrRead vnode count offset).1 ≠ -1) :
    addInt offset (vnodeRdwrRead vnode count offset).1 < 2 ^ 63 := by
  by_cases file : vnode.type = .file
  case neg => exact absurd (by rw [vnodeRdwrRead, if_neg file]) success
  by_cases empty : vnode.node.size = 0
  case pos =>
    refine absurd ?_ success
    rw [vnodeRdwrRead, if_pos file]
    dsimp only
    rw [if_pos empty]
  rw [vnodeRdwrRead, if_pos file]
  dsimp only
  rw [if_neg empty]
  dsimp only
  clear success empty
  unfold ReadFits at fits
  generalize vnode.node.data.addr = addr at fits
  generalize vnode.node.size = size at fits
  -- how many bytes are copied, whatever wraps
  have amount : ∀ start stop last : Nat,
      (if stop > last then last else stop) -
        (if start > (if stop > last then last else stop) then
          (if stop > last then last else stop) else start) = min stop last - start := by
    intro start stop last
    split <;> split <;> omega
  rw [amount]
  have reach : min (add64 (add64 addr offset) count) (add64 addr size) - add64 addr offset < 2 ^ 31 ∧
      offset + (min (add64 (add64 addr offset) count) (add64 addr size) - add64 addr offset) <
        2 ^ 63 := by
    rcases fits with ⟨start, last, short⟩ | ⟨short, room⟩
    · rw [add64_of_lt start, add64_of_lt last]
      omega
    · have behind : add64 (add64 addr offset) count ≤ add64 addr offset + count := Nat.mod_le _ _
      omega
  rw [toInt32_of_lt reach.1]
  unfold addInt
  omega

end Seek

section Run

variable {fs : Tmpfs} {depth fd v offset : Nat} {vnode : Vnode} {p q : ProcessInfo}

theorem syscallRead_fits {frame answer : SyscallFrame} {bytes : List UInt8}
    (present : fs.vnodes[v]? = some vnode) (here : p.descriptors fd = ⟨some v, offset⟩)
    (small : offset < 2 ^ 63) (inside : fd < 256) (reads : toInt32 frame.rsi.toNat = fd)
    (fits : ReadFits vnode frame.r10.toNat offset)
    (done : syscallRead fs frame p = some (answer, bytes, q)) :
    ∃ next, q.descriptors fd = ⟨some v, next⟩ ∧ next < 2 ^ 63 := by
  unfold syscallRead at done
  dsimp only at done
  split at done
  · cases done
    exact ⟨offset, here, small⟩
  · have index : tableIndex (fd : Int) = some fd := tableIndex_eq_some.mpr ⟨rfl, inside⟩
    simp only [reads, index, Option.bind_some, here, present, Option.map_some] at done
    split at done
    · rename_i success
      cases done
      exact ⟨_, set_same _ _ _, vnodeRdwrRead_moves fits small success⟩
    · cases done
      exact ⟨offset, here, small⟩

theorem SeekExact.bounded {frame answer : SyscallFrame} {target : Int}
    (exact_ : SeekExact fs frame p fd target) (small : (p.descriptors fd).offset < 2 ^ 63)
    (done : syscallSeek fs frame p = some (answer, q)) : (q.descriptors fd).offset < 2 ^ 63 := by
  obtain ⟨answer', q', ran, law⟩ := exact_
  obtain ⟨-, rfl⟩ := Prod.mk.inj (Option.some.inj (ran.symm.trans done))
  split at law
  · rename_i range
    have placed := law.2.2
    omega
  · rw [law.2]
    exact small

theorem syscallSeek_ptr {frame answer : SyscallFrame}
    (done : syscallSeek fs frame p = some (answer, q)) :
    (q.descriptors fd).ptr = (p.descriptors fd).ptr := by
  by_cases on : toInt32 frame.rsi.toNat = fd
  · obtain ⟨i, index, seeking⟩ := Option.bind_eq_some_iff.mp done
    obtain rfl : fd = i := Int.natCast_inj.mp (on.symm.trans (tableIndex_eq_some.mp index).1)
    have kept : ∀ target, ((seekTo frame p fd target).2.descriptors fd).ptr =
        (p.descriptors fd).ptr := fun target => by rw [seekTo, set_same]
    dsimp only at seeking
    split at seeking
    · rw [← kept _, Option.some.inj seeking]
    · rw [← kept _, Option.some.inj seeking]
    · obtain ⟨vnode, -, result⟩ := Option.map_eq_some_iff.mp seeking
      rw [← kept _, result]
    · cases seeking
      rfl
  · rw [syscallSeek_elsewhere on done]

theorem syscallSeek_other {frame : SyscallFrame} (inside : fd < 256)
    (reads : toInt32 frame.rsi.toNat = fd) (zero : toInt32 frame.r10.toNat ≠ 0)
    (one : toInt32 frame.r10.toNat ≠ 1) (two : toInt32 frame.r10.toNat ≠ 2) :
    syscallSeek fs frame p = some (frame.fail, p) := by
  have index : tableIndex (fd : Int) = some fd := tableIndex_eq_some.mpr ⟨rfl, inside⟩
  simp only [syscallSeek, reads, index, Option.bind_some]

theorem syscallSeek_fits {frame answer : SyscallFrame} (inside : fd < 256)
    (present : fs.vnodes[v]? = some vnode) (here : p.descriptors fd = ⟨some v, offset⟩)
    (small : offset < 2 ^ 63) (reads : toInt32 frame.rsi.toNat = fd)
    (fits : toInt32 frame.r10.toNat ∈ ({0, 1, 2} : Set Int) →
      SeekFits (toInt32 frame.r10.toNat) frame.rdx.toInt vnode.node.size offset)
    (done : syscallSeek fs frame p = some (answer, q)) :
    ∃ next, q.descriptors fd = ⟨some v, next⟩ ∧ next < 2 ^ 63 := by
  have kept : (q.descriptors fd).ptr = some v := by rw [syscallSeek_ptr done, here]
  refine ⟨(q.descriptors fd).offset, by rw [← kept], ?_⟩
  by_cases whence : toInt32 frame.r10.toNat ∈ ({0, 1, 2} : Set Int)
  · have law := (seekExact_iff inside here present reads whence).mpr (fits whence)
    exact law.bounded (by rw [here]; exact small) done
  · simp only [Set.mem_insert_iff, Set.mem_singleton_iff, not_or] at whence
    obtain ⟨zero, one, two⟩ := whence
    obtain ⟨-, rfl⟩ := Prod.mk.inj (Option.some.inj
      ((syscallSeek_other inside reads zero one two).symm.trans done))
    rw [here]
    exact small

theorem FileCall.run_fits {call : FileCall} {result : SyscallFrame × List UInt8 × ProcessInfo}
    (inside : fd < 256) (present : fs.vnodes[v]? = some vnode)
    (here : p.descriptors fd = ⟨some v, offset⟩) (small : offset < 2 ^ 63)
    (fits : call.Fits fd vnode p) (done : call.run fs depth p = some result) :
    ∃ next, result.2.2.descriptors fd = ⟨some v, next⟩ ∧ next < 2 ^ 63 := by
  cases call with
  | seek frame =>
      rw [FileCall.run] at done
      obtain ⟨⟨answer, q⟩, moved, rfl⟩ := Option.map_eq_some_iff.mp done
      by_cases on : toInt32 frame.rsi.toNat = fd
      · rw [FileCall.Fits, here] at fits
        exact syscallSeek_fits inside present here small on (fits on) moved
      · exact ⟨offset, (syscallSeek_elsewhere on moved).trans here, small⟩
  | read frame =>
      rw [FileCall.run] at done
      by_cases on : toInt32 frame.rsi.toNat = fd
      · rw [FileCall.Fits, here] at fits
        exact syscallRead_fits present here small inside on (fits on) done
      · exact ⟨offset, (syscallRead_elsewhere on done).trans here, small⟩
  | openat => exact fits.elim
  | close => exact fits.elim

theorem fileCalls_fits {calls : List FileCall} (inside : fd < 256)
    (present : fs.vnodes[v]? = some vnode) (here : p.descriptors fd = ⟨some v, offset⟩)
    (small : offset < 2 ^ 63) (fits : RunFits fs depth fd vnode calls p)
    (done : fileCalls fs depth calls p = some q) :
    ∃ next, q.descriptors fd = ⟨some v, next⟩ ∧ next < 2 ^ 63 := by
  induction calls generalizing p offset with
  | nil =>
      cases done
      exact ⟨offset, here, small⟩
  | cons call calls ih =>
      obtain ⟨next, first, rest⟩ := Option.bind_eq_some_iff.mp done
      obtain ⟨result, ran, rfl⟩ := Option.map_eq_some_iff.mp first
      obtain ⟨later, there, bounded⟩ := FileCall.run_fits inside present here small fits.1 ran
      exact ih there bounded (fits.2 result ran) rest

end Run

/-- A seek of an open file is exact when what passes through an `int` fits; and a run of seeks and
reads that fit never leaves a negative offset. -/
theorem seek_exact_iff (fs : Tmpfs) (depth fd v : Nat) (vnode : Vnode) (inside : fd < 256)
    (present : fs.vnodes[v]? = some vnode) :
    (∀ (p : ProcessInfo) (offset : Nat) (frame : SyscallFrame),
      p.descriptors fd = ⟨some v, offset⟩ → toInt32 frame.rsi.toNat = fd →
      toInt32 frame.r10.toNat ∈ ({0, 1, 2} : Set Int) →
      (SeekExact fs frame p fd
          (seekBase (toInt32 frame.r10.toNat) vnode.node.size offset + frame.rdx.toInt) ↔
        SeekFits (toInt32 frame.r10.toNat) frame.rdx.toInt vnode.node.size offset)) ∧
    ∀ (p q : ProcessInfo) (offset : Nat) (calls : List FileCall),
      p.descriptors fd = ⟨some v, offset⟩ → offset < 2 ^ 63 →
      RunFits fs depth fd vnode calls p → fileCalls fs depth calls p = some q →
      (q.descriptors fd).offset < 2 ^ 63 := by
  constructor
  · intro p offset frame here reads whence
    exact seekExact_iff inside here present reads whence
  · intro p q offset calls here small fits done
    obtain ⟨next, there, bounded⟩ := fileCalls_fits inside present here small fits done
    rw [there]
    exact bounded

instance (whence distance : Int) (size offset : Nat) :
    Decidable (SeekFits whence distance size offset) := inferInstanceAs (Decidable (_ ∨ _ ∨ _))

def seekFrame : SyscallFrame := ⟨5, 5, 2, 1, 2, 0, 0⟩

theorem openedProcess_descriptor : openedProcess.descriptors 2 = ⟨some 1, 0⟩ := set_same _ _ _

theorem seekFrame_fits : RunFits oneFile 1 2 threeBytes [.seek seekFrame] openedProcess := by
  refine ⟨fun _ _ => ?_, fun _ _ => trivial⟩
  rw [openedProcess_descriptor]
  decide

theorem oneFile_present : oneFile.vnodes[1]? = some threeBytes := rfl

/-- A seek in a file of three bytes, for itself and as a run. -/
theorem seek_exact_iff_three :
    (SeekExact oneFile seekFrame openedProcess 2
        (seekBase (toInt32 seekFrame.r10.toNat) threeBytes.node.size 0 + seekFrame.rdx.toInt) ↔
      SeekFits (toInt32 seekFrame.r10.toNat) seekFrame.rdx.toInt threeBytes.node.size 0) ∧
    ∃ q, fileCalls oneFile 1 [.seek seekFrame] openedProcess = some q ∧
      (q.descriptors 2).offset < 2 ^ 63 := by
  have law := seek_exact_iff oneFile 1 2 1 threeBytes (by decide) oneFile_present
  have fd : toInt32 seekFrame.rsi.toNat = (2 : Nat) := by decide
  have whence : toInt32 seekFrame.r10.toNat ∈ ({0, 1, 2} : Set Int) := Or.inr (Or.inr (by decide))
  have moves : ∃ target, syscallSeek oneFile seekFrame openedProcess =
      some (seekTo seekFrame openedProcess 2 target) :=
    ⟨_, (syscallSeek_stored (by decide) openedProcess_descriptor oneFile_present fd).2.2 (by decide)⟩
  obtain ⟨target, moved⟩ := moves
  have ran : fileCalls oneFile 1 [.seek seekFrame] openedProcess =
      some (seekTo seekFrame openedProcess 2 target).2 := by
    simp only [fileCalls, List.foldlM_cons, List.foldlM_nil, FileCall.run, moved, Option.map_some,
      Option.pure_def, Option.bind_eq_bind, Option.bind_some]
  exact ⟨law.1 openedProcess 0 seekFrame openedProcess_descriptor fd whence, _, ran,
    law.2 openedProcess _ 0 [.seek seekFrame] openedProcess_descriptor (by decide) seekFrame_fits ran⟩

def farFrame : SyscallFrame := ⟨5, 5, 2, 0x80000000, 0, 0, 0⟩

/-- The offset that is stored for it is negative. -/
theorem seek_not_exact : ¬∀ (fs : Tmpfs) (fd v offset : Nat) (vnode : Vnode) (p : ProcessInfo)
    (frame : SyscallFrame), fd < 256 → fs.vnodes[v]? = some vnode → vnode.type = .file →
    p.descriptors fd = ⟨some v, offset⟩ → toInt32 frame.rsi.toNat = fd →
    toInt32 frame.r10.toNat ∈ ({0, 1, 2} : Set Int) → SeekExact fs frame p fd
      (seekBase (toInt32 frame.r10.toNat) vnode.node.size offset + frame.rdx.toInt) := by
  intro always
  have whence : toInt32 farFrame.r10.toNat ∈ ({0, 1, 2} : Set Int) := Or.inl (by decide)
  have exact_ := always oneFile 2 1 0 threeBytes openedProcess farFrame (by decide) rfl rfl
    openedProcess_descriptor (by decide) whence
  exact absurd ((seekExact_iff (by decide) openedProcess_descriptor rfl (by decide) whence).mp exact_)
    (by decide)

end Nyaux.Syscall
