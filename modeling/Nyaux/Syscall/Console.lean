import Nyaux.Syscall.Descriptors

/-! The numbers that stand for the console, and those that `openat` hands out. -/

namespace Nyaux.Syscall

open Word Fs

/-- `syscall_write`: the frame, and the bytes of the buffer that go to the terminal. -/
def syscallWrite (frame : SyscallFrame) (buf : List UInt8) : SyscallFrame × List UInt8 :=
  let fd := toInt32 frame.rsi.toNat
  let count := frame.r10.toNat
  if fd = 1 then ({ frame with rdx := 0, rax := frame.r10 }, buf.take count)
  else if fd = 2 then ({ frame with rdx := 0, rax := frame.r10 }, buf.take count)
  else (frame.fail, [])

/-- A number that `read` or `write` takes for the console. -/
def Console (fd : Int) : Prop := fd = 0 ∨ fd = 1 ∨ fd = 2

/-- `openat`, or `close` of a number of the table. -/
def FileCall.OpensOrCloses : FileCall → Prop
  | .openat _ _ _ _ => True
  | .close frame => 0 ≤ toInt32 frame.rsi.toNat ∧ toInt32 frame.rsi.toNat < 256
  | _ => False

/-- The path of an `openat` leads to something, from the directory every process is in. -/
def FileCall.Finds (fs : Tmpfs) (depth : Nat) : FileCall → Prop
  | .openat scratch pathname _ _ => ∃ found v,
      vnodePathLookup fs scratch depth 0 pathname false [] = some found ∧ found.vnode = some v
  | _ => False

def FileCall.handedOut (answer : SyscallFrame) : FileCall → List Nat
  | .openat _ _ _ _ => if answer.rdx = 0 then [answer.rax.toNat] else []
  | _ => []

/-- The numbers that a run hands out, in their order. -/
def opened (fs : Tmpfs) (depth : Nat) : List FileCall → ProcessInfo → Option (List Nat)
  | [], _ => some []
  | call :: calls, p =>
      (call.run fs depth p).bind fun (answer, _, q) =>
        (opened fs depth calls q).map fun later => call.handedOut answer ++ later

theorem console_two : Console (2 : Nat) := .inr (.inr (by norm_num))

theorem succeed_rdx (frame : SyscallFrame) (result : Int) : (frame.succeed result).rdx = 0 := by
  rw [SyscallFrame.succeed]

section

variable {fs : Tmpfs} {depth : Nat} {frame : SyscallFrame} {p : ProcessInfo}

def Untouched (p : ProcessInfo) : Prop :=
  p.curWorkingDirectory = 0 ∧ ∀ fd, p.descriptorBitmap fd = 0

theorem makeProcessInfo_untouched : Untouched makeProcessInfo := ⟨rfl, fun _ => rfl⟩

theorem syscallClose_untouched {frame' : SyscallFrame} {q : ProcessInfo} (untouched : Untouched p)
    (done : syscallClose frame p = some (frame', q)) : Untouched q := by
  obtain ⟨fd, -, result⟩ := Option.map_eq_some_iff.mp done
  cases result
  have kept : deallocateFdFromBitmap p.descriptorBitmap fd = p.descriptorBitmap := by
    rw [deallocateFdFromBitmap, untouched.2 fd, if_neg (by decide)]
  refine ⟨untouched.1, fun i => ?_⟩
  rw [set_bitmap]
  dsimp only
  rw [kept, untouched.2 i]

theorem openat_first {scratch : Scratch} {pathname : List UInt8} {leftover : Int} {found : Found}
    {v : Nat} (untouched : Untouched p) (atFdcwd : toInt32 frame.rsi.toNat = -100)
    (walked : vnodePathLookup fs scratch depth 0 pathname false [] = some found)
    (here : found.vnode = some v) :
    ∃ q, syscallOpenat fs depth scratch pathname leftover frame p = some (frame.succeed (2 : Nat), q) := by
  have clear : p.descriptorBitmap 0 = 0 ∧ p.descriptorBitmap 1 = 0 :=
    ⟨untouched.2 0, untouched.2 1⟩
  have free : reserve p.descriptorBitmap 2 = 0 := by
    rw [reserve_high _ 2 le_rfl]
    exact untouched.2 2
  have lowest : ∀ j < 2, reserve p.descriptorBitmap j ≠ 0 := by
    intro j low
    rw [reserve_low _ clear j low]
    decide
  rw [← untouched.1] at walked
  exact ⟨_, openat_free atFdcwd walked here (by decide) free lowest⟩

theorem openat_unfound {scratch : Scratch} {pathname : List UInt8} {leftover : Int}
    {frame' : SyscallFrame} {q : ProcessInfo} (untouched : Untouched p)
    (unfound : ¬FileCall.Finds fs depth (.openat scratch pathname leftover frame))
    (done : syscallOpenat fs depth scratch pathname leftover frame p = some (frame', q)) :
    q = p ∧ frame'.rdx ≠ 0 := by
  by_cases atFdcwd : toInt32 frame.rsi.toNat = -100
  · cases walked : vnodePathLookup fs scratch depth p.curWorkingDirectory pathname false [] with
    | none =>
        rw [syscallOpenat, if_pos atFdcwd, walked] at done
        cases done
    | some found =>
        cases here : found.vnode with
        | none =>
            rw [openat_missing atFdcwd walked here] at done
            cases done
            exact ⟨rfl, show BitVec.ofInt 64 (-1) ≠ 0 by decide⟩
        | some v =>
            rw [untouched.1] at walked
            exact absurd ⟨found, v, walked, here⟩ unfound
  · rw [syscallOpenat, if_neg atFdcwd] at done
    cases done

theorem opened_console_iff {calls : List FileCall} (kinds : ∀ call ∈ calls, call.OpensOrCloses)
    (untouched : Untouched p) {numbers : List Nat} (ran : opened fs depth calls p = some numbers) :
    (∀ fd ∈ numbers, ¬Console fd) ↔ ∀ call ∈ calls, ¬call.Finds fs depth := by
  induction calls generalizing p numbers with
  | nil =>
      obtain rfl := Option.some.inj ran
      simp
  | cons call calls ih =>
      obtain ⟨⟨answer, bytes, q⟩, first, rest⟩ := Option.bind_eq_some_iff.mp ran
      obtain ⟨later, goneOn, rfl⟩ := Option.map_eq_some_iff.mp rest
      have onward := fun kept : Untouched q =>
        ih (fun other member => kinds other (List.mem_cons_of_mem call member)) kept goneOn
      rw [List.forall_mem_cons]
      cases call with
      | close frame =>
          rw [FileCall.run] at first
          obtain ⟨⟨frame', q'⟩, closed, same⟩ := Option.map_eq_some_iff.mp first
          cases same
          simpa [FileCall.handedOut, FileCall.Finds] using
            onward (syscallClose_untouched untouched closed)
      | openat scratch pathname leftover frame =>
          rw [FileCall.run] at first
          obtain ⟨⟨frame', q'⟩, ended, same⟩ := Option.map_eq_some_iff.mp first
          cases same
          by_cases finds : FileCall.Finds fs depth (.openat scratch pathname leftover frame)
          · -- the number is 2
            obtain ⟨found, v, walked, here⟩ := finds
            have atFdcwd : toInt32 frame.rsi.toNat = -100 := by
              by_contra other
              rw [syscallOpenat, if_neg other] at ended
              cases ended
            obtain ⟨q'', success⟩ := openat_first untouched atFdcwd walked here
            obtain ⟨rfl, -⟩ := Prod.mk.inj (Option.some.inj (success.symm.trans ended))
            have two : (frame.succeed (2 : Nat)).rax.toNat = 2 := succeed_rax 2 (by decide)
            refine iff_of_false (fun quiet => ?_) fun none => none.1 ⟨found, v, walked, here⟩
            refine quiet 2 ?_ console_two
            rw [FileCall.handedOut, if_pos (succeed_rdx frame _), two]
            exact List.mem_cons_self
          · obtain ⟨rfl, failed⟩ := openat_unfound untouched finds ended
            rw [FileCall.handedOut, if_neg failed, List.nil_append, onward untouched]
            simp [finds]
      | read frame => exact (kinds _ List.mem_cons_self).elim
      | seek frame => exact (kinds _ List.mem_cons_self).elim

end

/-- A run of a new process that opens and closes is handed no console number exactly when no path
it opens is found: the first number is 2. -/
theorem console_numbers_iff (fs : Tmpfs) (depth : Nat) (calls : List FileCall) (numbers : List Nat)
    (kinds : ∀ call ∈ calls, call.OpensOrCloses)
    (ran : opened fs depth calls makeProcessInfo = some numbers) :
    (∀ fd ∈ numbers, ¬Console fd) ↔ ∀ call ∈ calls, ¬call.Finds fs depth :=
  opened_console_iff kinds makeProcessInfo_untouched ran

def missingFile : FileCall := .openat ⟨[], []⟩ [97] 0 rootFrame

/-- A path that is not there. -/
theorem console_numbers_iff_missing : (∀ fd ∈ ([] : List Nat), ¬Console fd) ↔
    ∀ call ∈ [missingFile], ¬call.Finds emptyRoot 1 := by
  refine console_numbers_iff emptyRoot 1 [missingFile] [] ?_ (by decide)
  intro call member
  rw [List.mem_singleton.mp member]
  trivial

/-- The root directory, opened first, gets the number of the standard error. -/
theorem console_number_opened : ¬∀ (fs : Tmpfs) (depth : Nat) (calls : List FileCall)
    (numbers : List Nat), (∀ call ∈ calls, call.OpensOrCloses) →
    opened fs depth calls makeProcessInfo = some numbers → ∀ fd ∈ numbers, ¬Console fd := by
  intro quiet
  have first : ∃ q, syscallOpenat emptyRoot 1 ⟨[], []⟩ [slash] 0 rootFrame makeProcessInfo =
      some (rootFrame.succeed (2 : Nat), q) :=
    openat_first makeProcessInfo_untouched (by decide) (root_walked makeProcessInfo) rfl
  obtain ⟨q, opens⟩ := first
  have ran : opened emptyRoot 1 [openRoot] makeProcessInfo = some [2] := by
    simp only [opened, openRoot, FileCall.run, opens, Option.map_some, Option.bind_some,
      FileCall.handedOut, if_pos (succeed_rdx rootFrame _), succeed_rax 2 (by decide),
      List.append_nil]
  refine quiet emptyRoot 1 [openRoot] [2] ?_ ran 2 List.mem_cons_self console_two
  intro call member
  rw [List.mem_singleton.mp member]
  trivial

end Nyaux.Syscall
