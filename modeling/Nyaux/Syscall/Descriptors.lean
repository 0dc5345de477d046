import Nyaux.Syscall.Files

/-! Descriptors handed out by `openat`.

The bitmap and the table agree after every run, the first two entries apart. The lowest free
descriptor is found when there is one; a full table is not reported. -/

namespace Nyaux.Syscall

open Word Fs

def ProcessInfo.Open (p : ProcessInfo) (fd : Nat) : Prop := (p.descriptors fd).ptr ≠ none

/-- One of the first two descriptors: about to be set again, or set and not open. -/
def ProcessInfo.Reserved (p : ProcessInfo) (fd : Nat) : Prop :=
  fd < 2 ∧ (p.descriptorBitmap 0 = 0 ∧ p.descriptorBitmap 1 = 0 ∨
    p.descriptorBitmap fd ≠ 0 ∧ ¬ p.Open fd)

def ProcessInfo.Free (p : ProcessInfo) (fd : Nat) : Prop := ¬ p.Open fd ∧ ¬ p.Reserved fd

def ProcessInfo.Full (p : ProcessInfo) : Prop := ∀ fd < 256, p.descriptorBitmap fd ≠ 0

structure Granted (p q : ProcessInfo) (v fd : Nat) : Prop where
  inside : fd < 256
  free : p.Free fd
  lowest : ∀ j < fd, ¬ p.Free j
  fresh : q.descriptors fd = ⟨some v, 0⟩
  others : ∀ j, j ≠ fd → q.descriptors j = p.descriptors j

/-- What `openat` promises about descriptors when the walk found `vnode`. -/
def OpenatKeeps (p : ProcessInfo) (vnode : Option Nat)
    (result : Option (SyscallFrame × ProcessInfo)) : Prop :=
  ∃ frame q, result = some (frame, q) ∧
    (frame.rdx = 0 → ∃ v, vnode = some v ∧ Granted p q v frame.rax.toNat) ∧
    (p.Full → frame.rdx = BitVec.ofInt 64 (-1) ∧ q = p)

structure Tracked (p : ProcessInfo) : Prop where
  binary : ∀ fd, p.descriptorBitmap fd = 0 ∨ p.descriptorBitmap fd = 1
  counted : ∀ fd, p.Open fd → p.descriptorBitmap fd ≠ 0
  taken : ∀ fd, 2 ≤ fd → p.descriptorBitmap fd ≠ 0 → p.Open fd

@[simp] theorem set_bitmap (p : ProcessInfo) (fd : Nat) (d : FileDescriptor) :
    (p.set fd d).descriptorBitmap = p.descriptorBitmap := rfl

@[simp] theorem set_same (p : ProcessInfo) (fd : Nat) (d : FileDescriptor) :
    (p.set fd d).descriptors fd = d := by
  simp [ProcessInfo.set]

@[simp] theorem set_other (p : ProcessInfo) (fd : Nat) (d : FileDescriptor) (j : Nat)
    (other : j ≠ fd) : (p.set fd d).descriptors j = p.descriptors j := by
  simp [ProcessInfo.set, other]

theorem tableIndex_eq_some {fd : Int} {i : Nat} : tableIndex fd = some i ↔ fd = i ∧ i < 256 := by
  unfold tableIndex
  split
  · rw [Option.some.injEq]
    omega
  · simp only [reduceCtorEq, false_iff]
    omega

section Bitmap

variable (bitmap : Nat → UInt8)

theorem reserve_low (clear : bitmap 0 = 0 ∧ bitmap 1 = 0) (fd : Nat) (low : fd < 2) :
    reserve bitmap fd = 1 := by
  rw [reserve, if_pos clear]
  have cases : fd = 0 ∨ fd = 1 := by omega
  rcases cases with rfl | rfl <;> simp [Function.update]

theorem reserve_high (fd : Nat) (high : 2 ≤ fd) : reserve bitmap fd = bitmap fd := by
  have apart : fd ≠ 0 ∧ fd ≠ 1 := by omega
  unfold reserve
  split
  · rw [Function.update_of_ne apart.2, Function.update_of_ne apart.1]
  · rfl

theorem reserve_kept (held : ¬ (bitmap 0 = 0 ∧ bitmap 1 = 0)) : reserve bitmap = bitmap :=
  if_neg held

theorem allocateFd_lowest (size fd : Nat) (inside : fd < size) (free : reserve bitmap fd = 0)
    (lowest : ∀ j < fd, reserve bitmap j ≠ 0) :
    allocateFdFromBitmap bitmap size = (some fd, Function.update (reserve bitmap) fd 1) := by
  have first : ((List.range size).find? fun i => reserve bitmap i = 0) = some fd := by
    apply List.find?_range_eq_some.mpr
    exact ⟨decide_eq_true free, List.mem_range.mpr inside, fun j before => by simp [lowest j before]⟩
  simp only [allocateFdFromBitmap, first]

theorem allocateFd_full (size : Nat) (full : ∀ j < size, reserve bitmap j ≠ 0) :
    allocateFdFromBitmap bitmap size = (none, reserve bitmap) := by
  have nothing : ((List.range size).find? fun i => reserve bitmap i = 0) = none :=
    List.find?_range_eq_none.mpr fun j inside => by simp [full j inside]
  simp only [allocateFdFromBitmap, nothing]

theorem allocateFd_cases (size : Nat) :
    (∃ fd < size, reserve bitmap fd = 0 ∧ (∀ j < fd, reserve bitmap j ≠ 0) ∧
      allocateFdFromBitmap bitmap size = (some fd, Function.update (reserve bitmap) fd 1)) ∨
    ((∀ j < size, reserve bitmap j ≠ 0) ∧
      allocateFdFromBitmap bitmap size = (none, reserve bitmap)) := by
  by_cases some_free : ∃ fd, fd < size ∧ reserve bitmap fd = 0
  · left
    have here := Nat.find_spec some_free
    have lowest : ∀ j < Nat.find some_free, reserve bitmap j ≠ 0 := fun j before free =>
      Nat.find_min some_free before ⟨before.trans here.1, free⟩
    exact ⟨_, here.1, here.2, lowest, allocateFd_lowest bitmap size _ here.1 here.2 lowest⟩
  · right
    have full : ∀ j < size, reserve bitmap j ≠ 0 := fun j inside free =>
      some_free ⟨j, inside, free⟩
    exact ⟨full, allocateFd_full bitmap size full⟩

end Bitmap

section Tracked

variable {p : ProcessInfo}

theorem makeProcessInfo_tracked : Tracked makeProcessInfo :=
  ⟨fun _ => .inl rfl, fun _ held => absurd rfl held, fun _ _ held => absurd rfl held⟩

theorem Tracked.set (tracked : Tracked p) (bitmap : Nat → UInt8) (fd : Nat) (d : FileDescriptor)
    (others : ∀ j, j ≠ fd → bitmap j = p.descriptorBitmap j)
    (binary : bitmap fd = 0 ∨ bitmap fd = 1) (counted : d.ptr ≠ none → bitmap fd ≠ 0)
    (taken : 2 ≤ fd → bitmap fd ≠ 0 → d.ptr ≠ none) :
    Tracked ({ p with descriptorBitmap := bitmap }.set fd d) := by
  constructor
  · intro j
    by_cases here : j = fd
    · exact here ▸ binary
    · simp only [set_bitmap, others j here]
      exact tracked.binary j
  · intro j held
    by_cases here : j = fd
    · subst here
      rw [ProcessInfo.Open, set_same] at held
      exact counted held
    · rw [ProcessInfo.Open, set_other _ _ _ _ here] at held
      simp only [set_bitmap, others j here]
      exact tracked.counted j held
  · intro j high held
    by_cases here : j = fd
    · subst here
      rw [ProcessInfo.Open, set_same]
      exact taken high held
    · simp only [set_bitmap, others j here] at held
      rw [ProcessInfo.Open, set_other _ _ _ _ here]
      exact tracked.taken j high held

theorem Tracked.reserved (tracked : Tracked p) :
    Tracked { p with descriptorBitmap := reserve p.descriptorBitmap } := by
  by_cases clear : p.descriptorBitmap 0 = 0 ∧ p.descriptorBitmap 1 = 0
  · constructor
    · intro fd
      change reserve p.descriptorBitmap fd = 0 ∨ reserve p.descriptorBitmap fd = 1
      by_cases low : fd < 2
      · exact .inr (reserve_low _ clear fd low)
      · rw [reserve_high _ fd (Nat.not_lt.mp low)]
        exact tracked.binary fd
    · intro fd held
      change reserve p.descriptorBitmap fd ≠ 0
      by_cases low : fd < 2
      · simp [reserve_low _ clear fd low]
      · rw [reserve_high _ fd (Nat.not_lt.mp low)]
        exact tracked.counted fd held
    · intro fd high held
      change reserve p.descriptorBitmap fd ≠ 0 at held
      rw [reserve_high _ fd high] at held
      exact tracked.taken fd high held
  · rw [reserve_kept _ clear]
    exact tracked

theorem Tracked.setOffset (tracked : Tracked p) (fd offset : Nat) :
    Tracked (p.set fd { p.descriptors fd with offset := offset }) :=
  tracked.set p.descriptorBitmap fd _ (fun _ _ => rfl) (tracked.binary fd) (tracked.counted fd)
    (tracked.taken fd)

theorem Tracked.free_iff (tracked : Tracked p) (fd : Nat) :
    p.Free fd ↔ reserve p.descriptorBitmap fd = 0 := by
  by_cases low : fd < 2
  · by_cases clear : p.descriptorBitmap 0 = 0 ∧ p.descriptorBitmap 1 = 0
    · have reserved : p.Reserved fd := ⟨low, .inl clear⟩
      simp [ProcessInfo.Free, reserved, reserve_low _ clear fd low]
    · have counted := tracked.counted fd
      rw [reserve_kept _ clear, ProcessInfo.Free, ProcessInfo.Reserved]
      tauto
  · have high := Nat.not_lt.mp low
    have counted := tracked.counted fd
    have taken := tracked.taken fd high
    rw [reserve_high _ fd high, ProcessInfo.Free, ProcessInfo.Reserved]
    tauto

end Tracked

section Calls

variable {fs : Tmpfs} {depth : Nat} {scratch : Scratch} {pathname : List UInt8} {leftover : Int}
  {frame : SyscallFrame} {p : ProcessInfo}

theorem openat_missing {found : Found} (atFdcwd : toInt32 frame.rsi.toNat = -100)
    (walked : vnodePathLookup fs scratch depth p.curWorkingDirectory pathname false [] = some found)
    (missing : found.vnode = none) :
    syscallOpenat fs depth scratch pathname leftover frame p = some (frame.fail, p) := by
  rw [syscallOpenat, if_pos atFdcwd, walked]
  simp only [Option.bind_some, missing]

theorem openat_free {found : Found} {v fd : Nat} (atFdcwd : toInt32 frame.rsi.toNat = -100)
    (walked : vnodePathLookup fs scratch depth p.curWorkingDirectory pathname false [] = some found)
    (here : found.vnode = some v) (inside : fd < 256) (free : reserve p.descriptorBitmap fd = 0)
    (lowest : ∀ j < fd, reserve p.descriptorBitmap j ≠ 0) :
    syscallOpenat fs depth scratch pathname leftover frame p =
      some (frame.succeed fd,
        { p with descriptorBitmap := Function.update (reserve p.descriptorBitmap) fd 1 }.set fd
          ⟨some v, 0⟩) := by
  have index : tableIndex (fd : Int) = some fd := tableIndex_eq_some.mpr ⟨rfl, inside⟩
  rw [syscallOpenat, if_pos atFdcwd, walked]
  simp only [Option.bind_some, here, allocateFd_lowest _ 256 fd inside free lowest, index,
    Option.map_some]

theorem openat_full {found : Found} {v : Nat} (atFdcwd : toInt32 frame.rsi.toNat = -100)
    (walked : vnodePathLookup fs scratch depth p.curWorkingDirectory pathname false [] = some found)
    (here : found.vnode = some v) (full : ∀ j < 256, reserve p.descriptorBitmap j ≠ 0) :
    syscallOpenat fs depth scratch pathname leftover frame p =
      (tableIndex leftover).map fun i => (frame.succeed leftover,
        { p with descriptorBitmap := reserve p.descriptorBitmap }.set i ⟨some v, 0⟩) := by
  rw [syscallOpenat, if_pos atFdcwd, walked]
  simp only [Option.bind_some, here, allocateFd_full _ 256 full]

theorem succeed_rax (fd : Nat) (inside : fd < 256) : (frame.succeed fd).rax.toNat = fd := by
  have word : fd < 2 ^ 64 := by omega
  simp [SyscallFrame.succeed]
  omega

theorem syscallOpenat_tracked {frame' : SyscallFrame} {q : ProcessInfo} (tracked : Tracked p)
    (done : syscallOpenat fs depth scratch pathname leftover frame p = some (frame', q)) :
    Tracked q := by
  by_cases atFdcwd : toInt32 frame.rsi.toNat = -100
  · cases walked : vnodePathLookup fs scratch depth p.curWorkingDirectory pathname false [] with
    | none =>
        rw [syscallOpenat, if_pos atFdcwd, walked] at done
        cases done
    | some found =>
        cases here : found.vnode with
        | none =>
            rw [openat_missing atFdcwd walked here] at done
            cases done
            exact tracked
        | some v =>
            rcases allocateFd_cases p.descriptorBitmap 256 with
              ⟨fd, inside, free, lowest, -⟩ | ⟨full, -⟩
            · rw [openat_free atFdcwd walked here inside free lowest] at done
              cases done
              have next := tracked.reserved.set (Function.update (reserve p.descriptorBitmap) fd 1)
                fd ⟨some v, 0⟩ (fun j other => Function.update_of_ne other _ _)
              exact next (.inr (Function.update_self ..)) (fun _ => by simp) (fun _ _ => by simp)
            · rw [openat_full atFdcwd walked here full] at done
              obtain ⟨i, index, result⟩ := Option.map_eq_some_iff.mp done
              cases result
              have inside := (tableIndex_eq_some.mp index).2
              exact tracked.reserved.set _ i ⟨some v, 0⟩ (fun _ _ => rfl)
                (tracked.reserved.binary i) (fun _ => full i inside) (fun _ _ => by simp)
  · rw [syscallOpenat, if_neg atFdcwd] at done
    cases done

theorem syscallRead_tracked {frame' : SyscallFrame} {bytes : List UInt8} {q : ProcessInfo}
    (tracked : Tracked p) (done : syscallRead fs frame p = some (frame', bytes, q)) :
    Tracked q := by
  unfold syscallRead at done
  dsimp only at done
  split at done
  · cases done
    exact tracked
  · obtain ⟨fd, -, reading⟩ := Option.bind_eq_some_iff.mp done
    split at reading
    · obtain ⟨vnode, -, result⟩ := Option.map_eq_some_iff.mp reading
      split at result
      · cases result
        exact tracked.setOffset fd _
      · cases result
        exact tracked
    · cases reading
      exact tracked

theorem syscallClose_tracked {frame' : SyscallFrame} {q : ProcessInfo} (tracked : Tracked p)
    (done : syscallClose frame p = some (frame', q)) : Tracked q := by
  obtain ⟨fd, -, result⟩ := Option.map_eq_some_iff.mp done
  cases result
  -- every entry that is set holds 1, so the entry is cleared
  have cleared : deallocateFdFromBitmap p.descriptorBitmap fd fd = 0 := by
    unfold deallocateFdFromBitmap
    rcases tracked.binary fd with clear | held
    · simp [clear]
    · simp [held]
  have others : ∀ j, j ≠ fd →
      deallocateFdFromBitmap p.descriptorBitmap fd j = p.descriptorBitmap j := by
    intro j other
    unfold deallocateFdFromBitmap
    split
    · exact Function.update_of_ne other _ _
    · rfl
  exact tracked.set _ fd ⟨none, 0⟩ others (.inl cleared) (fun held => absurd rfl held)
    fun _ held => absurd cleared held

theorem seekTo_tracked (tracked : Tracked p) (fd offset : Nat) :
    Tracked (seekTo frame p fd offset).2 :=
  tracked.setOffset fd offset

theorem tracked_of_result {result : SyscallFrame × ProcessInfo} {frame' : SyscallFrame}
    {q : ProcessInfo} (kept : Tracked result.2) (same : result = (frame', q)) : Tracked q := by
  rw [same] at kept
  exact kept

theorem syscallSeek_tracked {frame' : SyscallFrame} {q : ProcessInfo} (tracked : Tracked p)
    (done : syscallSeek fs frame p = some (frame', q)) : Tracked q := by
  obtain ⟨fd, -, seeking⟩ := Option.bind_eq_some_iff.mp done
  dsimp only at seeking
  -- three ways to move the offset, and a flag that names none of them
  split at seeking
  · exact tracked_of_result (seekTo_tracked tracked fd _) (Option.some.inj seeking)
  · exact tracked_of_result (seekTo_tracked tracked fd _) (Option.some.inj seeking)
  · obtain ⟨vnode, -, result⟩ := Option.map_eq_some_iff.mp seeking
    exact tracked_of_result (seekTo_tracked tracked fd _) result
  · exact tracked_of_result tracked (Option.some.inj seeking)

theorem FileCall.run_tracked {call : FileCall} {result : SyscallFrame × List UInt8 × ProcessInfo}
    (tracked : Tracked p) (done : FileCall.run fs depth p call = some result) :
    Tracked result.2.2 := by
  cases call with
  | openat scratch pathname leftover frame =>
      rw [FileCall.run] at done
      obtain ⟨⟨frame', q⟩, opened, rfl⟩ := Option.map_eq_some_iff.mp done
      exact syscallOpenat_tracked tracked opened
  | read frame =>
      rw [FileCall.run] at done
      exact syscallRead_tracked tracked done
  | close frame =>
      rw [FileCall.run] at done
      obtain ⟨⟨frame', q⟩, closed, rfl⟩ := Option.map_eq_some_iff.mp done
      exact syscallClose_tracked tracked closed
  | seek frame =>
      rw [FileCall.run] at done
      obtain ⟨⟨frame', q⟩, moved, rfl⟩ := Option.map_eq_some_iff.mp done
      exact syscallSeek_tracked tracked moved

theorem fileCalls_tracked {calls : List FileCall} {q : ProcessInfo} (tracked : Tracked p)
    (done : fileCalls fs depth calls p = some q) : Tracked q := by
  induction calls generalizing p with
  | nil =>
      cases done
      exact tracked
  | cons call calls ih =>
      obtain ⟨next, first, rest⟩ := Option.bind_eq_some_iff.mp done
      obtain ⟨result, ran, rfl⟩ := Option.map_eq_some_iff.mp first
      exact ih (FileCall.run_tracked tracked ran) rest

/-- States of a process between its calls. -/
def Reached (fs : Tmpfs) (depth : Nat) (p : ProcessInfo) : Prop :=
  ∃ calls, fileCalls fs depth calls makeProcessInfo = some p

theorem Reached.tracked (reached : Reached fs depth p) : Tracked p := by
  obtain ⟨calls, done⟩ := reached
  exact fileCalls_tracked makeProcessInfo_tracked done

theorem openatKeeps_missing (p : ProcessInfo) (frame : SyscallFrame) :
    OpenatKeeps p none (some (frame.fail, p)) := by
  refine ⟨frame.fail, p, rfl, fun success => ?_, fun _ => ⟨rfl, rfl⟩⟩
  have failure : BitVec.ofInt 64 (-1) = 0 := success
  exact absurd failure (by decide)

theorem openatKeeps_free {v fd : Nat} (tracked : Tracked p) (inside : fd < 256)
    (free : reserve p.descriptorBitmap fd = 0)
    (lowest : ∀ j < fd, reserve p.descriptorBitmap j ≠ 0) :
    OpenatKeeps p (some v) (some (frame.succeed fd,
      { p with descriptorBitmap := Function.update (reserve p.descriptorBitmap) fd 1 }.set fd
        ⟨some v, 0⟩)) := by
  refine ⟨_, _, rfl, fun _ => ⟨v, rfl, ?_⟩, fun full => ?_⟩
  · rw [succeed_rax fd inside]
    constructor
    · exact inside
    · exact (tracked.free_iff fd).mpr free
    · intro j before held
      exact lowest j before ((tracked.free_iff j).mp held)
    · exact set_same _ _ _
    · exact fun j other => set_other _ _ _ _ other
  · -- an entry that is clear after the reservation was clear before it
    have held : ¬ (p.descriptorBitmap 0 = 0 ∧ p.descriptorBitmap 1 = 0) := fun clear =>
      full 0 (by decide) clear.1
    rw [reserve_kept _ held] at free
    exact absurd free (full fd inside)

theorem not_openatKeeps_full {v : Nat} (tracked : Tracked p)
    (full : ∀ j < 256, reserve p.descriptorBitmap j ≠ 0) :
    ¬ OpenatKeeps p (some v) ((tableIndex leftover).map fun i => (frame.succeed leftover,
      { p with descriptorBitmap := reserve p.descriptorBitmap }.set i ⟨some v, 0⟩)) := by
  rintro ⟨frame', q, result, success, -⟩
  obtain ⟨i, -, written⟩ := Option.map_eq_some_iff.mp result
  obtain ⟨w, -, granted⟩ := success (congrArg (fun r => r.1.rdx) written).symm
  exact full _ granted.inside ((tracked.free_iff _).mp granted.free)

theorem exists_free_iff (tracked : Tracked p) :
    (∃ fd < 256, p.Free fd) ↔ ¬ ∀ j < 256, reserve p.descriptorBitmap j ≠ 0 := by
  simp only [tracked.free_iff]
  push Not
  rfl

/-- After any run, `openat` keeps its promise exactly when the path leads nowhere or some
descriptor is neither open nor reserved. -/
theorem openat_lowest_iff (fs : Tmpfs) (depth : Nat) (p : ProcessInfo) (reached : Reached fs depth p)
    (scratch : Scratch) (pathname : List UInt8) (leftover : Int) (frame : SyscallFrame)
    (found : Found) (atFdcwd : toInt32 frame.rsi.toNat = -100)
    (walked : vnodePathLookup fs scratch depth p.curWorkingDirectory pathname false [] =
      some found) :
    OpenatKeeps p found.vnode (syscallOpenat fs depth scratch pathname leftover frame p) ↔
      found.vnode = none ∨ ∃ fd < 256, p.Free fd := by
  have tracked := reached.tracked
  rw [exists_free_iff tracked]
  cases here : found.vnode with
  | none =>
      rw [openat_missing atFdcwd walked here]
      simp only [openatKeeps_missing, true_or]
  | some v =>
      rcases allocateFd_cases p.descriptorBitmap 256 with ⟨fd, inside, free, lowest, -⟩ | ⟨full, -⟩
      · rw [openat_free atFdcwd walked here inside free lowest]
        apply iff_of_true (openatKeeps_free tracked inside free lowest)
        exact .inr fun full => full fd inside free
      · rw [openat_full atFdcwd walked here full]
        apply iff_of_false (not_openatKeeps_full tracked full)
        rintro (nothing | free)
        · cases nothing
        · exact free full

end Calls

section FullTable

def rootFrame : SyscallFrame := ⟨2, 2, BitVec.ofInt 64 (-100), 0, 0, 0, 0⟩

def emptyRoot : Tmpfs := ⟨[newVnode .dir]⟩

def openRoot : FileCall := .openat ⟨[], []⟩ [slash] 0 rootFrame

theorem root_walked (p : ProcessInfo) :
    vnodePathLookup emptyRoot ⟨[], []⟩ 1 p.curWorkingDirectory [slash] false [] =
      some ⟨some 0, []⟩ := rfl

def TakenBelow (k : Nat) (p : ProcessInfo) : Prop :=
  ∀ fd, reserve p.descriptorBitmap fd = 0 ↔ k ≤ fd

theorem makeProcessInfo_takenBelow : TakenBelow 2 makeProcessInfo := by
  intro fd
  by_cases low : fd < 2
  · rw [reserve_low _ ⟨rfl, rfl⟩ fd low]
    simp [Nat.not_le.mpr low]
  · rw [reserve_high _ fd (Nat.not_lt.mp low)]
    simp [makeProcessInfo, Nat.not_lt.mp low]

theorem openRoot_takenBelow {k : Nat} {p : ProcessInfo} (taken : TakenBelow k p) (two : 2 ≤ k)
    (room : k < 256) :
    ∃ frame q, FileCall.run emptyRoot 1 p openRoot = some (frame, [], q) ∧ TakenBelow (k + 1) q := by
  have free : reserve p.descriptorBitmap k = 0 := (taken k).mpr le_rfl
  have lowest : ∀ j < k, reserve p.descriptorBitmap j ≠ 0 := fun j before held =>
    absurd ((taken j).mp held) (Nat.not_le.mpr before)
  have opened : syscallOpenat emptyRoot 1 ⟨[], []⟩ [slash] 0 rootFrame p = _ :=
    openat_free (by decide) (root_walked p) rfl room free lowest
  rw [openRoot, FileCall.run, opened]
  refine ⟨_, _, rfl, fun fd => ?_⟩
  rw [set_bitmap]
  dsimp only
  have held : ¬ (Function.update (reserve p.descriptorBitmap) k 1 0 = 0 ∧
      Function.update (reserve p.descriptorBitmap) k 1 1 = 0) := by
    rw [Function.update_of_ne (by omega)]
    exact fun clear => lowest 0 (by omega) clear.1
  rw [reserve_kept _ held]
  by_cases here : fd = k
  · subst here
    simp
  · rw [Function.update_of_ne here, taken fd]
    omega

theorem openRoots_takenBelow (n : Nat) {k : Nat} {p : ProcessInfo} (taken : TakenBelow k p)
    (two : 2 ≤ k) (room : k + n ≤ 256) :
    ∃ q, fileCalls emptyRoot 1 (List.replicate n openRoot) p = some q ∧ TakenBelow (k + n) q := by
  induction n generalizing k p with
  | zero => exact ⟨p, rfl, taken⟩
  | succ n ih =>
      obtain ⟨frame, next, ran, nextTaken⟩ := openRoot_takenBelow taken two (by omega)
      obtain ⟨q, rest, last⟩ := ih nextTaken (by omega) (by omega)
      refine ⟨q, ?_, ?_⟩
      · rw [List.replicate_succ, fileCalls, List.foldlM_cons, ran]
        exact rest
      · rwa [show k + (n + 1) = k + 1 + n by omega]

theorem full_table_reached : ∃ p, Reached emptyRoot 1 p ∧ ∀ j < 256, reserve p.descriptorBitmap j ≠ 0 := by
  obtain ⟨p, ran, taken⟩ := openRoots_takenBelow 254 makeProcessInfo_takenBelow le_rfl (by decide)
  refine ⟨p, ⟨_, ran⟩, fun j inside clear => ?_⟩
  have above := (taken j).mp clear
  omega

theorem openat_full_table : ¬ ∀ (fs : Tmpfs) (depth : Nat) (p : ProcessInfo), Reached fs depth p →
    ∀ (scratch : Scratch) (pathname : List UInt8) (leftover : Int) (frame : SyscallFrame)
      (found : Found), toInt32 frame.rsi.toNat = -100 →
      vnodePathLookup fs scratch depth p.curWorkingDirectory pathname false [] = some found →
      OpenatKeeps p found.vnode (syscallOpenat fs depth scratch pathname leftover frame p) := by
  intro promise
  obtain ⟨p, reached, full⟩ := full_table_reached
  have keeps := promise emptyRoot 1 p reached ⟨[], []⟩ [slash] 0 rootFrame ⟨some 0, []⟩ (by decide)
    (root_walked p)
  rw [openat_full (by decide) (root_walked p) rfl full] at keeps
  exact not_openatKeeps_full reached.tracked full keeps

/-- The first call of a process. -/
theorem openat_lowest_first :
    OpenatKeeps makeProcessInfo (some 0)
        (syscallOpenat emptyRoot 1 ⟨[], []⟩ [slash] 0 rootFrame makeProcessInfo) ↔
      some 0 = none ∨ ∃ fd < 256, makeProcessInfo.Free fd :=
  openat_lowest_iff emptyRoot 1 makeProcessInfo ⟨[], rfl⟩ ⟨[], []⟩ [slash] 0 rootFrame
    ⟨some 0, []⟩ (by decide) (root_walked makeProcessInfo)

end FullTable

end Nyaux.Syscall
