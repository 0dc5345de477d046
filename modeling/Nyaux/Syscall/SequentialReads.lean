import Nyaux.Syscall.Descriptors

/-! Reads of an open file, one after another.

Between two reads of a descriptor any calls on other descriptors may run. Each read goes on
where the one before it ended, so the pieces join to a prefix of the file. -/

namespace Nyaux.Syscall

open Word Fs

/-- A file whose contents lie in one block of the heap, below the kernel image. -/
structure StoredFile (fs : Tmpfs) (v : Nat) (vnode : Vnode) : Prop where
  present : fs.vnodes[v]? = some vnode
  file : vnode.type = .file
  nonempty : 0 < vnode.node.size
  small : vnode.node.size < 2 ^ 31
  below : vnode.node.data.addr + vnode.node.size ≤ 0xffffffff80000000

/-- `n` bytes of the file from `offset` on. -/
def stored (vnode : Vnode) (offset n : Nat) : List UInt8 :=
  (List.range n).map fun i => vnode.node.data.bytes (offset + i)

def FileCall.asks (fd : Nat) : FileCall → Option Nat
  | .read frame => if toInt32 frame.rsi.toNat = fd then some frame.r10.toNat else none
  | _ => none

/-- A read of `fd` that asks for less than 2 GiB, or a call on another descriptor. -/
def FileCall.Permitted (fd : Nat) : FileCall → Prop
  | .openat _ _ leftover _ => leftover ≠ fd
  | .read frame => toInt32 frame.rsi.toNat = fd → frame.r10.toNat < 2 ^ 31
  | .close frame => toInt32 frame.rsi.toNat ≠ fd
  | .seek frame => toInt32 frame.rsi.toNat ≠ fd

/-- The sum of the sizes asked for. -/
def requested (fd : Nat) (calls : List FileCall) : Nat :=
  (calls.map fun call => (call.asks fd).getD 0).sum

/-- A run of calls, with all bytes delivered from `fd` in their order. -/
def readAll (fs : Tmpfs) (depth fd : Nat) : List FileCall → ProcessInfo →
    Option (List UInt8 × ProcessInfo)
  | [], p => some ([], p)
  | call :: calls, p =>
      (call.run fs depth p).bind fun (_, bytes, p) =>
        (readAll fs depth fd calls p).map fun (later, p) =>
          ((if (call.asks fd).isSome then bytes else []) ++ later, p)

section Slices

variable {fs : Tmpfs} {v : Nat} {vnode : Vnode}

theorem stored_append (vnode : Vnode) (offset m n : Nat) :
    stored vnode offset m ++ stored vnode (offset + m) n = stored vnode offset (m + n) := by
  unfold stored
  rw [List.range_add, List.map_append, List.map_map]
  simp only [Function.comp_def, Nat.add_assoc]

theorem vnodeRdwrRead_stored (file : StoredFile fs v vnode) (size offset : Nat)
    (request : size < 2 ^ 31) (inside : offset ≤ vnode.node.size) :
    vnodeRdwrRead vnode size offset =
      (((min size (vnode.node.size - offset) : Nat) : Int),
        stored vnode offset (min size (vnode.node.size - offset))) := by
  have small := file.small
  have below := file.below
  have start : add64 vnode.node.data.addr offset = vnode.node.data.addr + offset :=
    add64_of_lt (by omega)
  have stop : add64 (vnode.node.data.addr + offset) size = vnode.node.data.addr + offset + size :=
    add64_of_lt (by omega)
  have last : add64 vnode.node.data.addr vnode.node.size =
      vnode.node.data.addr + vnode.node.size := add64_of_lt (by omega)
  have clamped : (if vnode.node.data.addr + offset + size >
      vnode.node.data.addr + vnode.node.size then vnode.node.data.addr + vnode.node.size
      else vnode.node.data.addr + offset + size) =
      vnode.node.data.addr + offset + min size (vnode.node.size - offset) := by
    split <;> omega
  have ordered : ¬ vnode.node.data.addr + offset >
      vnode.node.data.addr + offset + min size (vnode.node.size - offset) := by omega
  simp only [vnodeRdwrRead, if_pos file.file, if_neg (Nat.ne_of_gt file.nonempty), start, stop,
    last, clamped, if_neg ordered, Nat.add_sub_cancel_left]
  rw [toInt32_of_lt (by omega)]
  congr 1
  apply List.map_congr_left
  intro i member
  have inFile := List.mem_range.mp member
  rw [Nat.add_assoc, sub64_add_left (by omega)]

end Slices

section Reads

variable {fs : Tmpfs} {depth v fd offset : Nat} {vnode : Vnode} {p q : ProcessInfo}
  {frame frame' : SyscallFrame} {bytes : List UInt8}

theorem syscallRead_stored (file : StoredFile fs v vnode) (input : fd ≠ 0) (inside : fd < 256)
    (here : p.descriptors fd = ⟨some v, offset⟩) (within : offset ≤ vnode.node.size)
    (reads : toInt32 frame.rsi.toNat = fd) (request : frame.r10.toNat < 2 ^ 31) :
    syscallRead fs frame p =
      some (frame.succeed (min frame.r10.toNat (vnode.node.size - offset) : Nat),
        stored vnode offset (min frame.r10.toNat (vnode.node.size - offset)),
        p.set fd ⟨some v, min (offset + frame.r10.toNat) vnode.node.size⟩) := by
  have small := file.small
  have index : tableIndex (fd : Int) = some fd := tableIndex_eq_some.mpr ⟨rfl, inside⟩
  have later : ¬ ((fd : Int) = 0 ∧ frame.r10.toNat > 1) := fun terminal =>
    input (Int.natCast_eq_zero.mp terminal.1)
  have counted : ((min frame.r10.toNat (vnode.node.size - offset) : Nat) : Int) ≠ -1 := by omega
  have moved : addInt offset (min frame.r10.toNat (vnode.node.size - offset) : Nat) =
      min (offset + frame.r10.toNat) vnode.node.size := by
    unfold addInt
    omega
  unfold syscallRead
  simp only [reads, if_neg later, index, Option.bind_some, here, file.present, Option.map_some]
  rw [vnodeRdwrRead_stored file _ _ request within]
  simp only [if_pos counted, moved]

theorem syscallOpenat_elsewhere {scratch : Scratch} {pathname : List UInt8} {leftover : Int}
    (tracked : Tracked p) (held : p.Open fd) (other : leftover ≠ fd)
    (done : syscallOpenat fs depth scratch pathname leftover frame p = some (frame', q)) :
    q.descriptors fd = p.descriptors fd := by
  by_cases atFdcwd : toInt32 frame.rsi.toNat = -100
  · cases walked : vnodePathLookup fs scratch depth p.curWorkingDirectory pathname false [] with
    | none =>
        rw [syscallOpenat, if_pos atFdcwd, walked] at done
        cases done
    | some found =>
        cases here : found.vnode with
        | none =>
            rw [openat_missing atFdcwd walked here] at done
            cases done
            rfl
        | some w =>
            rcases allocateFd_cases p.descriptorBitmap 256 with
              ⟨i, inside, free, lowest, -⟩ | ⟨full, -⟩
            · rw [openat_free atFdcwd walked here inside free lowest] at done
              cases done
              have apart : fd ≠ i := by
                rintro rfl
                exact ((tracked.free_iff fd).mpr free).1 held
              rw [set_other _ _ _ _ apart]
            · rw [openat_full atFdcwd walked here full] at done
              obtain ⟨i, index, result⟩ := Option.map_eq_some_iff.mp done
              cases result
              have apart : fd ≠ i := by
                rintro rfl
                exact other (tableIndex_eq_some.mp index).1
              rw [set_other _ _ _ _ apart]
  · rw [syscallOpenat, if_neg atFdcwd] at done
    cases done

theorem syscallRead_elsewhere (other : toInt32 frame.rsi.toNat ≠ fd)
    (done : syscallRead fs frame p = some (frame', bytes, q)) :
    q.descriptors fd = p.descriptors fd := by
  unfold syscallRead at done
  dsimp only at done
  split at done
  · cases done
    rfl
  · obtain ⟨i, index, reading⟩ := Option.bind_eq_some_iff.mp done
    have apart : fd ≠ i := by
      rintro rfl
      exact other (tableIndex_eq_some.mp index).1
    split at reading
    · obtain ⟨w, -, result⟩ := Option.map_eq_some_iff.mp reading
      split at result
      · cases result
        exact set_other _ _ _ _ apart
      · cases result
        rfl
    · cases reading
      rfl

theorem syscallClose_elsewhere (other : toInt32 frame.rsi.toNat ≠ fd)
    (done : syscallClose frame p = some (frame', q)) : q.descriptors fd = p.descriptors fd := by
  obtain ⟨i, index, result⟩ := Option.map_eq_some_iff.mp done
  cases result
  have apart : fd ≠ i := by
    rintro rfl
    exact other (tableIndex_eq_some.mp index).1
  rw [set_other _ _ _ _ apart]

theorem seekTo_elsewhere {i : Nat} {result : SyscallFrame × ProcessInfo} (apart : fd ≠ i)
    (target : Nat) (same : seekTo frame p i target = result) :
    result.2.descriptors fd = p.descriptors fd := by
  rw [← same]
  exact set_other _ _ _ _ apart

theorem syscallSeek_elsewhere (other : toInt32 frame.rsi.toNat ≠ fd)
    (done : syscallSeek fs frame p = some (frame', q)) : q.descriptors fd = p.descriptors fd := by
  obtain ⟨i, index, seeking⟩ := Option.bind_eq_some_iff.mp done
  have apart : fd ≠ i := by
    rintro rfl
    exact other (tableIndex_eq_some.mp index).1
  dsimp only at seeking
  split at seeking
  · exact seekTo_elsewhere apart _ (Option.some.inj seeking)
  · exact seekTo_elsewhere apart _ (Option.some.inj seeking)
  · obtain ⟨w, -, result⟩ := Option.map_eq_some_iff.mp seeking
    exact seekTo_elsewhere apart _ result
  · have same : p = q := congrArg Prod.snd (Option.some.inj seeking)
    rw [same]

theorem FileCall.run_elsewhere {call : FileCall} (tracked : Tracked p) (held : p.Open fd)
    (permitted : call.Permitted fd) (other : call.asks fd = none)
    (done : call.run fs depth p = some (frame', bytes, q)) :
    q.descriptors fd = p.descriptors fd := by
  cases call with
  | openat scratch pathname leftover frame =>
      rw [FileCall.run] at done
      obtain ⟨⟨answer, r⟩, opened, result⟩ := Option.map_eq_some_iff.mp done
      cases result
      exact syscallOpenat_elsewhere tracked held permitted opened
  | read frame =>
      rw [FileCall.run] at done
      have apart : toInt32 frame.rsi.toNat ≠ fd := fun here => by simp [FileCall.asks, here] at other
      exact syscallRead_elsewhere apart done
  | close frame =>
      rw [FileCall.run] at done
      obtain ⟨⟨answer, r⟩, closed, result⟩ := Option.map_eq_some_iff.mp done
      cases result
      exact syscallClose_elsewhere permitted closed
  | seek frame =>
      rw [FileCall.run] at done
      obtain ⟨⟨answer, r⟩, moved, result⟩ := Option.map_eq_some_iff.mp done
      cases result
      exact syscallSeek_elsewhere permitted moved

theorem FileCall.asks_eq_some {call : FileCall} {n : Nat} (asks : call.asks fd = some n) :
    ∃ frame, call = .read frame ∧ toInt32 frame.rsi.toNat = fd ∧ frame.r10.toNat = n := by
  cases call with
  | read frame =>
      by_cases here : toInt32 frame.rsi.toNat = fd
      · rw [FileCall.asks, if_pos here] at asks
        exact ⟨frame, rfl, here, Option.some.inj asks⟩
      · rw [FileCall.asks, if_neg here] at asks
        cases asks
  | openat => cases asks
  | close => cases asks
  | seek => cases asks

theorem FileCall.run_stored {call : FileCall} (file : StoredFile fs v vnode) (input : fd ≠ 0)
    (inside : fd < 256) (tracked : Tracked p) (here : p.descriptors fd = ⟨some v, offset⟩)
    (within : offset ≤ vnode.node.size) (permitted : call.Permitted fd)
    (done : call.run fs depth p = some (frame', bytes, q)) :
    Tracked q ∧
      q.descriptors fd = ⟨some v, min (offset + (call.asks fd).getD 0) vnode.node.size⟩ ∧
      (if (call.asks fd).isSome then bytes else []) =
        stored vnode offset (min (offset + (call.asks fd).getD 0) vnode.node.size - offset) := by
  have kept := FileCall.run_tracked tracked done
  cases asks : call.asks fd with
  | none =>
      have held : p.Open fd := by
        rw [ProcessInfo.Open, here]
        exact Option.some_ne_none v
      have same := FileCall.run_elsewhere tracked held permitted asks done
      refine ⟨kept, ?_, ?_⟩
      · rw [same, here, Option.getD_none, Nat.add_zero, Nat.min_eq_left within]
      · simp [stored, Nat.min_eq_left within]
  | some n =>
      obtain ⟨frame, rfl, reads, rfl⟩ := FileCall.asks_eq_some asks
      have request := permitted reads
      rw [FileCall.run, syscallRead_stored file input inside here within reads request] at done
      simp only [Option.some.injEq, Prod.mk.injEq] at done
      obtain ⟨-, rfl, rfl⟩ := done
      refine ⟨kept, set_same _ _ _, ?_⟩
      have amount : min frame.r10.toNat (vnode.node.size - offset) =
          min (offset + frame.r10.toNat) vnode.node.size - offset := by omega
      simp only [Option.isSome_some, if_true, Option.getD_some, amount]

theorem readAll_stored (file : StoredFile fs v vnode) (input : fd ≠ 0) (inside : fd < 256)
    {calls : List FileCall} (tracked : Tracked p) (here : p.descriptors fd = ⟨some v, offset⟩)
    (within : offset ≤ vnode.node.size) (permitted : ∀ call ∈ calls, call.Permitted fd)
    (done : readAll fs depth fd calls p = some (bytes, q)) :
    q.descriptors fd = ⟨some v, min (offset + requested fd calls) vnode.node.size⟩ ∧
      bytes = stored vnode offset
        (min (offset + requested fd calls) vnode.node.size - offset) := by
  induction calls generalizing p offset bytes with
  | nil =>
      cases done
      simp [requested, here, stored, Nat.min_eq_left within]
  | cons call calls ih =>
      rw [readAll] at done
      obtain ⟨⟨answer, first, next⟩, ran, rest⟩ := Option.bind_eq_some_iff.mp done
      obtain ⟨⟨later, last⟩, goneOn, result⟩ := Option.map_eq_some_iff.mp rest
      cases result
      obtain ⟨nextTracked, nextHere, delivered⟩ := FileCall.run_stored file input inside tracked here
        within (permitted call List.mem_cons_self) ran
      have ⟨lastHere, joined⟩ := ih nextTracked nextHere (Nat.min_le_right _ _)
        (fun c member => permitted c (List.mem_cons_of_mem _ member)) goneOn
      have total : requested fd (call :: calls) =
          (call.asks fd).getD 0 + requested fd calls := by
        simp [requested]
      have target : min (min (offset + (call.asks fd).getD 0) vnode.node.size +
          requested fd calls) vnode.node.size =
          min (offset + requested fd (call :: calls)) vnode.node.size := by omega
      rw [target] at lastHere joined
      refine ⟨lastHere, ?_⟩
      have start : offset + (min (offset + (call.asks fd).getD 0) vnode.node.size - offset) =
          min (offset + (call.asks fd).getD 0) vnode.node.size := by omega
      calc (if (call.asks fd).isSome then first else []) ++ later
          = stored vnode offset (min (offset + (call.asks fd).getD 0) vnode.node.size - offset) ++
              stored vnode (offset + (min (offset + (call.asks fd).getD 0) vnode.node.size - offset))
                (min (offset + requested fd (call :: calls)) vnode.node.size -
                  min (offset + (call.asks fd).getD 0) vnode.node.size) := by
            rw [delivered, joined, start]
        _ = stored vnode offset
              (min (offset + requested fd (call :: calls)) vnode.node.size - offset) := by
            rw [stored_append]
            congr 1
            omega

theorem syscallOpenat_opened {scratch : Scratch} {pathname : List UInt8} {leftover : Int}
    {found : Found}
    (walked : vnodePathLookup fs scratch depth p.curWorkingDirectory pathname false [] = some found)
    (leads : found.vnode = some v)
    (done : syscallOpenat fs depth scratch pathname leftover frame p = some (frame', q)) :
    frame'.rax.toNat < 256 ∧ q.descriptors frame'.rax.toNat = ⟨some v, 0⟩ := by
  by_cases atFdcwd : toInt32 frame.rsi.toNat = -100
  · rcases allocateFd_cases p.descriptorBitmap 256 with ⟨i, inside, free, lowest, -⟩ | ⟨full, -⟩
    · rw [openat_free atFdcwd walked leads inside free lowest] at done
      cases done
      rw [succeed_rax i inside]
      exact ⟨inside, set_same _ _ _⟩
    · rw [openat_full atFdcwd walked leads full] at done
      obtain ⟨i, index, result⟩ := Option.map_eq_some_iff.mp done
      obtain ⟨rfl, inside⟩ := tableIndex_eq_some.mp index
      cases result
      rw [succeed_rax i inside]
      exact ⟨inside, set_same _ _ _⟩
  · rw [syscallOpenat, if_neg atFdcwd] at done
    cases done

end Reads

/-- Whatever runs on other descriptors in between, the reads of an opened file deliver its
prefix of the length asked for, and the next read goes on there. -/
theorem reads_reassemble (fs : Tmpfs) (depth v : Nat) (vnode : Vnode)
    (file : StoredFile fs v vnode) (p opened : ProcessInfo) (reached : Reached fs depth p)
    (scratch : Scratch) (pathname : List UInt8) (leftover : Int) (frame answer : SyscallFrame)
    (found : Found)
    (walked : vnodePathLookup fs scratch depth p.curWorkingDirectory pathname false [] = some found)
    (leads : found.vnode = some v)
    (done : syscallOpenat fs depth scratch pathname leftover frame p = some (answer, opened))
    (input : answer.rax.toNat ≠ 0) (calls : List FileCall)
    (permitted : ∀ call ∈ calls, call.Permitted answer.rax.toNat) (bytes : List UInt8)
    (q : ProcessInfo) (ran : readAll fs depth answer.rax.toNat calls opened = some (bytes, q)) :
    bytes = stored vnode 0 (min (requested answer.rax.toNat calls) vnode.node.size) ∧
      ∀ next : SyscallFrame, toInt32 next.rsi.toNat = answer.rax.toNat →
        next.r10.toNat < 2 ^ 31 →
        ∃ result r, syscallRead fs next q = some (result,
            stored vnode (min (requested answer.rax.toNat calls) vnode.node.size)
              result.rax.toNat, r) ∧
          result.rdx = 0 ∧
          result.rax.toNat = min next.r10.toNat
            (vnode.node.size - min (requested answer.rax.toNat calls) vnode.node.size) := by
  have ⟨inside, here⟩ := syscallOpenat_opened walked leads done
  have tracked := syscallOpenat_tracked reached.tracked done
  have ⟨last, delivered⟩ := readAll_stored file input inside tracked here (Nat.zero_le _) permitted ran
  rw [Nat.zero_add] at last delivered
  refine ⟨delivered, fun next reads request => ?_⟩
  have small := file.small
  have read := syscallRead_stored file input inside last (Nat.min_le_right _ _) reads request
  have amount : (next.succeed (min next.r10.toNat
      (vnode.node.size - min (requested answer.rax.toNat calls) vnode.node.size) : Nat)).rax.toNat =
      min next.r10.toNat
        (vnode.node.size - min (requested answer.rax.toNat calls) vnode.node.size) := by
    simp only [SyscallFrame.succeed, BitVec.toNat_ofInt]
    omega
  let d : FileDescriptor := ⟨some v, min (min (requested answer.rax.toNat calls) vnode.node.size +
    next.r10.toNat) vnode.node.size⟩
  refine ⟨_, q.set answer.rax.toNat d, ?_, rfl, amount⟩
  rw [amount]
  exact read

section Example

def threeBytes : Vnode :=
  { newVnode .file with node := ⟨⟨0x1000, fun i => UInt8.ofNat (i + 1)⟩, 3⟩ }

def oneFile : Tmpfs := ⟨[{ newVnode .dir with dir := [⟨[97], 1⟩] }, threeBytes]⟩

theorem oneFile_stored : StoredFile oneFile 1 threeBytes :=
  ⟨rfl, rfl, by decide, by decide, by decide⟩

def readFrame : SyscallFrame := ⟨3, 3, 2, 0x400000, 2, 0, 0⟩

def openedProcess : ProcessInfo :=
  { makeProcessInfo with
    descriptorBitmap := Function.update (reserve makeProcessInfo.descriptorBitmap) 2 1 }.set 2
      ⟨some 1, 0⟩

/-- Opening the file and reading two bytes of it. -/
theorem reads_reassemble_two : ∃ q,
    readAll oneFile 1 2 [.read readFrame] openedProcess = some (stored threeBytes 0 2, q) ∧
      [1, 2] = stored threeBytes 0 (min (requested 2 [.read readFrame]) 3) := by
  have walked : vnodePathLookup oneFile ⟨[], []⟩ 1 makeProcessInfo.curWorkingDirectory [97] false
      [] = some ⟨some 1, []⟩ := rfl
  have opening : syscallOpenat oneFile 1 ⟨[], []⟩ [97] 0 rootFrame makeProcessInfo =
      some (rootFrame.succeed 2, openedProcess) :=
    openat_free (by decide) walked rfl (by decide) rfl (by decide)
  have delivered : syscallRead oneFile readFrame openedProcess = _ :=
    syscallRead_stored oneFile_stored (by decide) (by decide) (set_same _ _ _) (Nat.zero_le _)
      (by decide) (by decide)
  have reading : readAll oneFile 1 2 [.read readFrame] openedProcess =
      some (stored threeBytes 0 2, openedProcess.set 2 ⟨some 1, 2⟩) := by
    rw [readAll, FileCall.run, delivered]
    rfl
  have permitted : ∀ call ∈ [FileCall.read readFrame], call.Permitted 2 := by
    intro call member
    obtain rfl := List.mem_singleton.mp member
    exact fun _ => by decide
  exact ⟨_, reading, (reads_reassemble oneFile 1 1 threeBytes oneFile_stored makeProcessInfo
    openedProcess ⟨[], rfl⟩ ⟨[], []⟩ [97] 0 rootFrame _ ⟨some 1, []⟩ walked rfl opening (by decide)
    [.read readFrame] permitted [1, 2] _ reading).1⟩

end Example

end Nyaux.Syscall
