import Nyaux.Sched.RoundRobin

/-! The two GS bases over entries into the kernel, exits from it and thread switches.

The stubs of `idtstub.asm` run `swapgs` when the code selector in the frame is that of user
code, on entry and once more on exit; `switch_task` may have replaced the frame in between. -/

namespace Nyaux.Sched

variable {Fpu : Type}

/-- `struct per_thread_cpu_info_t`, found through the GS base. -/
structure PerThreadCpuInfo where
  kernelStackPtr : Word
  userStackPtr : Word
  deriving DecidableEq

/-- What the processor is at. In a handler the frame is the one the stub will return with;
`stack` is the stack pointer a system call runs on. -/
inductive Mode where
  | running
  | timer (frame : StackFrame)
  | handler (frame : StackFrame)
  | syscall (frame : Registers) (stack : Word)

/-- `sched.cpu.regs` are the registers of the code outside handlers. -/
structure Machine (Fpu : Type) where
  sched : Scheduler Fpu
  blocks : Word → PerThreadCpuInfo
  mode : Mode
  interruptFlag : Bool

def interruptFlag (rflags : Word) : Bool := rflags.getLsbD 9

/-- The mask the kernel writes to `0xC0000084`. -/
def sfmask : Word := 1 <<< 9

/-- The selector `sysret` loads, from the user field of `0xC0000081`. -/
def sysretCs : Word := (0x30 + 16) ||| 3

def sysretSs : Word := (0x30 + 8) ||| 3

inductive Event (Fpu : Type) where
  | run (burst : Burst Fpu) (gsBase : Word)
  | tick
  | device (vector : Word)
  | schedule
  | iret
  | syscall
  | serve (rax rdx fsBase : Word)
  | sysret

def interrupt (vector : Word) (mode : StackFrame → Mode) (m : Machine Fpu) :
    Option (Machine Fpu) :=
  if m.interruptFlag then
    let frame := { isrEntry m.sched.cpu.regs with intnum := vector }
    some { m with sched := swapgsFor frame m.sched, mode := mode frame, interruptFlag := false }
  else none

def runCode (burst : Burst Fpu) (gsBase : Word) (m : Machine Fpu) : Machine Fpu :=
  let s := execute burst m.sched
  let s := if s.cpu.regs.cs = userCs then { s with cpu := { s.cpu with gsBase := gsBase } } else s
  { m with sched := s, interruptFlag := interruptFlag s.cpu.regs.rflags }

/-- `syscall_handler` up to its call: the stack pointer goes to `[gs:8]`, the one in `[gs:0]`
is loaded. The instruction itself has put `rip` and `rflags` in `rcx` and `r11`. -/
def syscallEntry (m : Machine Fpu) : Machine Fpu :=
  let user := m.sched.cpu.regs
  let s := swapgs m.sched
  let block := m.blocks s.cpu.gsBase
  { sched := s
    blocks := Function.update m.blocks s.cpu.gsBase { block with userStackPtr := user.rsp }
    mode := .syscall { user with rcx := user.rip, r11 := user.rflags } block.kernelStackPtr
    interruptFlag := interruptFlag (user.rflags &&& ~~~sfmask) }

/-- `syscall_handler` after its call. -/
def syscallExit (frame : Registers) (m : Machine Fpu) : Machine Fpu :=
  let rsp := (m.blocks m.sched.cpu.gsBase).userStackPtr
  let s := swapgs m.sched
  let regs := { frame with
    rsp := rsp, rip := frame.rcx, rflags := frame.r11, cs := sysretCs, ss := sysretSs }
  { m with
    sched := { s with cpu := { s.cpu with regs := regs } }
    mode := .running
    interruptFlag := interruptFlag frame.r11 }

/-- One event; `none` where it cannot happen. -/
def Event.step (m : Machine Fpu) : Event Fpu → Option (Machine Fpu)
  | .run burst gsBase =>
      match m.mode with
      | .running => some (runCode burst gsBase m)
      | _ => none
  | .tick => interrupt 32 .timer m
  | .device vector => interrupt vector .handler m
  | .schedule =>
      match m.mode with
      | .timer frame =>
          let (frame, s) := switchTask frame m.sched
          some { m with sched := s, mode := .handler frame }
      | _ => none
  | .iret =>
      match m.mode with
      | .handler frame =>
          let s := swapgsFor frame m.sched
          some { m with
            sched := { s with cpu := { s.cpu with regs := isrExit frame } }
            mode := .running
            interruptFlag := interruptFlag frame.rflags }
      | _ => none
  | .syscall =>
      match m.mode with
      | .running => if m.sched.cpu.regs.cs = userCs then some (syscallEntry m) else none
      | _ => none
  | .serve rax rdx fsBase =>
      match m.mode with
      | .syscall frame stack =>
          some { m with
            sched := { m.sched with cpu := { m.sched.cpu with fsBase := fsBase } }
            mode := .syscall { frame with rax := rax, rdx := rdx } stack }
      | _ => none
  | .sysret =>
      match m.mode with
      | .syscall frame _ => some (syscallExit frame m)
      | _ => none

def runEvents (events : List (Event Fpu)) (m : Machine Fpu) : Option (Machine Fpu) :=
  events.foldlM Event.step m

/-- The code of the boot processor before the first tick, which is kernel code. -/
structure Booted (q : Queue Fpu) (m : Machine Fpu) : Prop where
  sched : m.sched = q.boot
  mode : m.mode = .running
  kernel : m.sched.cpu.regs.cs ≠ userCs

def Queue.gsBase (q : Queue Fpu) (t : Nat) : Word := (q.boot.threads t).gsBase

def Queue.IsUser (q : Queue Fpu) (t : Nat) : Prop := (q.boot.threads t).context.frame.cs = userCs

/-- The block of each thread is its own. -/
def Queue.OwnBlocks (q : Queue Fpu) : Prop :=
  ∀ t ∈ q.threads, ∀ u ∈ q.threads, q.gsBase t = q.gsBase u → t = u

def OnBehalf (q : Queue Fpu) (m : Machine Fpu) (base : Word) : Prop :=
  ∃ t ∈ q.threads, q.IsUser t ∧ m.sched.currentThread = some t ∧ base = q.gsBase t

/-- The discipline of the two bases at state `m` of a run that began at `start`. -/
structure Disciplined (q : Queue Fpu) (start m : Machine Fpu) : Prop where
  unchanged : ∀ t, (m.sched.threads t).gsBase = q.gsBase t
  user : m.mode = .running → m.sched.cpu.regs.cs = userCs →
    OnBehalf q m m.sched.cpu.kernelGsBase
  handler : ∀ frame, m.mode = .timer frame ∨ m.mode = .handler frame → frame.cs = userCs →
    OnBehalf q m m.sched.cpu.gsBase
  syscall : ∀ frame stack, m.mode = .syscall frame stack →
    OnBehalf q m m.sched.cpu.gsBase ∧
      stack = (start.blocks m.sched.cpu.gsBase).kernelStackPtr ∧
      (m.blocks m.sched.cpu.gsBase).userStackPtr = frame.rsp
  own : ∀ (e : Event Fpu) (m' : Machine Fpu), e.step m = some m' → ∀ t ∈ q.threads,
    m'.blocks (q.gsBase t) ≠ m.blocks (q.gsBase t) → m.sched.currentThread = some t

section Switch

variable {q : Queue Fpu} {s s' : Scheduler Fpu} {frame : StackFrame}

/-- `cs` is the selector of the code that entered the kernel, `base` the base of the current
thread's block, should that be a user thread. -/
structure Serves (q : Queue Fpu) (s : Scheduler Fpu) (cs base : Word) : Prop where
  user : cs = userCs →
    ∃ t ∈ q.threads, q.IsUser t ∧ s.currentThread = some t ∧ base = q.gsBase t
  kernel : cs ≠ userCs → ∀ t, s.currentThread = some t → ¬ q.IsUser t

structure Records (q : Queue Fpu) (s : Scheduler Fpu) : Prop where
  next : ∀ t, (s.threads t).next = (q.boot.threads t).next
  startOfQueue : s.startOfQueue = q.boot.startOfQueue
  current : ∀ t, s.currentThread = some t → t ∈ q.threads
  kind : ∀ t, (s.threads t).context.frame.cs = userCs ↔ q.IsUser t
  gsBase : ∀ t, (s.threads t).gsBase = q.gsBase t

theorem Records.of_same (records : Records q s) (threads : s'.threads = s.threads)
    (start : s'.startOfQueue = s.startOfQueue) (current : s'.currentThread = s.currentThread) :
    Records q s' := by
  constructor
  · intro t
    rw [threads]
    exact records.next t
  · exact start.trans records.startOfQueue
  · intro t now
    exact records.current t (current ▸ now)
  · intro t
    rw [threads]
    exact records.kind t
  · intro t
    rw [threads]
    exact records.gsBase t

theorem Serves.of_same {cs base : Word} (serves : Serves q s cs base)
    (current : s'.currentThread = s.currentThread) : Serves q s' cs base := by
  constructor
  · rw [current]
    exact serves.user
  · rw [current]
    exact serves.kernel

theorem Records.swapgsFor (records : Records q s) (frame : StackFrame) :
    Records q (swapgsFor frame s) :=
  records.of_same (swapgsFor_threads frame s) (swapgsFor_startOfQueue frame s)
    (swapgsFor_currentThread frame s)

theorem swapgsFor_gsBase (user : frame.cs = userCs) :
    (swapgsFor frame s).cpu.gsBase = s.cpu.kernelGsBase := by
  rw [swapgsFor, if_pos user]
  rfl

theorem swapgsFor_kernelGsBase (user : frame.cs = userCs) :
    (swapgsFor frame s).cpu.kernelGsBase = s.cpu.gsBase := by
  rw [swapgsFor, if_pos user]
  rfl

theorem Serves.enter (serves : Serves q s frame.cs s.cpu.kernelGsBase) :
    Serves q (swapgsFor frame s) frame.cs (swapgsFor frame s).cpu.gsBase := by
  constructor
  · intro user
    rw [swapgsFor_gsBase user, swapgsFor_currentThread]
    exact serves.user user
  · rw [swapgsFor_currentThread]
    exact serves.kernel

theorem Serves.leave (serves : Serves q s frame.cs s.cpu.gsBase) :
    Serves q (swapgsFor frame s) frame.cs (swapgsFor frame s).cpu.kernelGsBase := by
  constructor
  · intro user
    rw [swapgsFor_kernelGsBase user, swapgsFor_currentThread]
    exact serves.user user
  · rw [swapgsFor_currentThread]
    exact serves.kernel

theorem Records.upNext (records : Records q s) : ∃ t ∈ q.threads, Sched.upNext s = some t := by
  have nonempty := q.nonempty
  have start : s.startOfQueue = some q.threads[0] := by
    rw [records.startOfQueue, q.head, List.getElem?_eq_getElem q.nonempty]
  have first : q.threads[0] ∈ q.threads := List.getElem_mem q.nonempty
  cases current : s.currentThread with
  | none => exact ⟨_, first, by simp [Sched.upNext, current, start]⟩
  | some c =>
      obtain ⟨i, inside, rfl⟩ := List.mem_iff_getElem.mp (records.current c current)
      have next : (s.threads q.threads[i]).next = q.threads[i + 1]? := by
        rw [records.next, q.links i inside]
      by_cases last : i + 1 < q.threads.length
      · refine ⟨q.threads[i + 1], List.getElem_mem last, ?_⟩
        simp [Sched.upNext, current, next, List.getElem?_eq_getElem last]
      · refine ⟨_, first, ?_⟩
        simp [Sched.upNext, current, next, List.getElem?_eq_none (Nat.not_lt.mp last), start]

theorem leave_gsBase (frame : StackFrame) (t : Nat) (s : Scheduler Fpu)
    (current : s.currentThread = some t) :
    ((leave frame s).threads t).gsBase =
      if (s.threads t).context.frame.cs = userCs then s.cpu.gsBase else (s.threads t).gsBase := by
  by_cases user : (s.threads t).context.frame.cs = userCs
  · simp [leave, current, saveContext, readBases, setThread, user]
  · simp [leave, current, saveContext, readBases, setThread, user]

theorem Records.saved (records : Records q s) (serves : Serves q s frame.cs s.cpu.gsBase) (t : Nat) :
    (((leave frame s).threads t).context.frame.cs = userCs ↔ q.IsUser t) ∧
      ((leave frame s).threads t).gsBase = q.gsBase t := by
  by_cases current : s.currentThread = some t
  · have saved : ((leave frame s).threads t).context.frame = frame :=
      congrArg CpuContext.frame (leave_self frame t s current).1
    rw [saved, leave_gsBase frame t s current]
    by_cases user : frame.cs = userCs
    · obtain ⟨u, -, isUser, same, base⟩ := serves.user user
      obtain rfl : t = u := Option.some.inj (current.symm.trans same)
      rw [if_pos ((records.kind t).mpr isUser)]
      exact ⟨iff_of_true user isUser, base⟩
    · have notUser := serves.kernel user t current
      rw [if_neg (mt (records.kind t).mp notUser)]
      exact ⟨iff_of_false user notUser, records.gsBase t⟩
  · rw [leave_other frame t s current]
    exact ⟨records.kind t, records.gsBase t⟩

theorem resume_gsBase (t : Nat) (s : Scheduler Fpu)
    (user : (s.threads t).context.frame.cs = userCs) :
    (resume t s).2.cpu.gsBase = (s.threads t).gsBase := by
  simp [resume, switchContext, writeBases, updateCr3, user]

/-- `switch_task` hands over to the next thread with that thread's frame and base. -/
theorem switchTask_serves (records : Records q s) (serves : Serves q s frame.cs s.cpu.gsBase) :
    Records q (switchTask frame s).2 ∧
      Serves q (switchTask frame s).2 (switchTask frame s).1.cs
        (switchTask frame s).2.cpu.gsBase := by
  obtain ⟨t, member, next⟩ := records.upNext
  rw [switchTask_upNext frame s t next]
  obtain ⟨loaded, running⟩ := resume_resumes t (Sched.leave frame s)
  have kept := records.saved serves
  constructor
  · constructor
    · intro u
      rw [running.threads, (leave_links frame u s).1]
      exact records.next u
    · rw [running.startOfQueue, leave_startOfQueue]
      exact records.startOfQueue
    · intro u now
      rw [running.current] at now
      exact Option.some.inj now ▸ member
    · intro u
      rw [running.threads]
      exact (kept u).1
    · intro u
      rw [running.threads]
      exact (kept u).2
  · rw [loaded]
    constructor
    · intro user
      refine ⟨t, member, (kept t).1.mp user, running.current, ?_⟩
      rw [resume_gsBase t _ user]
      exact (kept t).2
    · intro kernel u now
      rw [running.current] at now
      obtain rfl := Option.some.inj now
      exact mt (kept t).1.mpr kernel

end Switch

section Events

variable {q : Queue Fpu} {start m m' : Machine Fpu}

def InMode (q : Queue Fpu) (start m : Machine Fpu) : Mode → Prop
  | .running => Serves q m.sched m.sched.cpu.regs.cs m.sched.cpu.kernelGsBase
  | .timer frame => Serves q m.sched frame.cs m.sched.cpu.gsBase ∧ m.interruptFlag = false
  | .handler frame => Serves q m.sched frame.cs m.sched.cpu.gsBase ∧ m.interruptFlag = false
  | .syscall frame stack =>
      Serves q m.sched userCs m.sched.cpu.gsBase ∧ m.interruptFlag = false ∧
        stack = (start.blocks m.sched.cpu.gsBase).kernelStackPtr ∧
        (m.blocks m.sched.cpu.gsBase).userStackPtr = frame.rsp

structure GsInv (q : Queue Fpu) (start m : Machine Fpu) : Prop where
  records : Records q m.sched
  kernelStacks : ∀ g, (m.blocks g).kernelStackPtr = (start.blocks g).kernelStackPtr
  mode : InMode q start m m.mode

theorem interruptFlag_masked (rflags : Word) : interruptFlag (rflags &&& ~~~sfmask) = false := by
  simp [interruptFlag, sfmask]

theorem sysretCs_user : sysretCs = userCs := by decide

theorem booted_inv (booted : Booted q start) : GsInv q start start := by
  have nobody : ∀ t, start.sched.currentThread ≠ some t := by
    intro t now
    rw [booted.sched, q.idle] at now
    cases now
  have records : Records q start.sched := by
    rw [booted.sched]
    refine ⟨fun _ => rfl, rfl, fun t now => ?_, fun _ => Iff.rfl, fun _ => rfl⟩
    exact absurd (booted.sched ▸ now) (nobody t)
  have serves : Serves q start.sched start.sched.cpu.regs.cs start.sched.cpu.kernelGsBase :=
    ⟨fun user => absurd user booted.kernel, fun _ t now => absurd now (nobody t)⟩
  refine ⟨records, fun _ => rfl, ?_⟩
  rw [booted.mode]
  exact serves

theorem runCode_inv (inv : GsInv q start m) (running : m.mode = .running) (burst : Burst Fpu)
    (gsBase : Word) : GsInv q start (runCode burst gsBase m) := by
  have serves : Serves q m.sched m.sched.cpu.regs.cs m.sched.cpu.kernelGsBase := by
    have now := inv.mode
    rwa [running] at now
  have level := execute_privilege burst m.sched
  have sched : (runCode burst gsBase m).sched.threads = m.sched.threads ∧
      (runCode burst gsBase m).sched.startOfQueue = m.sched.startOfQueue ∧
      (runCode burst gsBase m).sched.currentThread = m.sched.currentThread ∧
      (runCode burst gsBase m).sched.cpu.regs = (execute burst m.sched).cpu.regs ∧
      (runCode burst gsBase m).sched.cpu.kernelGsBase = m.sched.cpu.kernelGsBase := by
    simp only [runCode]
    split <;> exact ⟨rfl, rfl, rfl, rfl, rfl⟩
  obtain ⟨threads, queue, current, regs, base⟩ := sched
  refine ⟨inv.records.of_same threads queue current, inv.kernelStacks, ?_⟩
  have still : (runCode burst gsBase m).mode = .running := running
  rw [still]
  constructor
  · rw [regs, base, current]
    exact fun user => serves.user (level.mp user)
  · rw [regs, current]
    exact fun kernel => serves.kernel (mt level.mpr kernel)

theorem interrupt_running (inv : GsInv q start m) (enabled : m.interruptFlag = true) :
    m.mode = .running := by
  have now := inv.mode
  cases mode : m.mode with
  | running => rfl
  | timer frame =>
      rw [mode] at now
      exact absurd enabled (by simp [now.2])
  | handler frame =>
      rw [mode] at now
      exact absurd enabled (by simp [now.2])
  | syscall frame stack =>
      rw [mode] at now
      exact absurd enabled (by simp [now.2.1])

theorem interrupt_inv (inv : GsInv q start m) (vector : Word) (mode : StackFrame → Mode)
    (kind : mode = .timer ∨ mode = .handler) (done : interrupt vector mode m = some m') :
    GsInv q start m' := by
  unfold interrupt at done
  split at done
  next enabled =>
    cases done
    have now := inv.mode
    rw [interrupt_running inv enabled] at now
    refine ⟨inv.records.swapgsFor _, inv.kernelStacks, ?_⟩
    rcases kind with rfl | rfl
    · exact ⟨Serves.enter now, rfl⟩
    · exact ⟨Serves.enter now, rfl⟩
  next => cases done

theorem syscallEntry_inv (inv : GsInv q start m) (running : m.mode = .running)
    (user : m.sched.cpu.regs.cs = userCs) : GsInv q start (syscallEntry m) := by
  have now := inv.mode
  rw [running] at now
  constructor
  · exact inv.records.of_same rfl rfl rfl
  · intro g
    by_cases here : g = m.sched.cpu.kernelGsBase
    · subst here
      simp [syscallEntry, swapgs, inv.kernelStacks]
    · simp [syscallEntry, swapgs, here, inv.kernelStacks]
  · refine ⟨⟨fun _ => now.user user, fun kernel => absurd rfl kernel⟩, ?_, ?_, ?_⟩
    · exact interruptFlag_masked _
    · exact inv.kernelStacks _
    · simp [syscallEntry, swapgs]

theorem syscallExit_inv (inv : GsInv q start m) {frame : Registers} {stack : Word}
    (mode : m.mode = .syscall frame stack) : GsInv q start (syscallExit frame m) := by
  have now := inv.mode
  rw [mode] at now
  refine ⟨inv.records.of_same rfl rfl rfl, inv.kernelStacks, ?_⟩
  have serves := now.1
  exact ⟨fun _ => serves.user rfl, fun kernel => absurd sysretCs_user kernel⟩

theorem Event.step_inv {e : Event Fpu} (inv : GsInv q start m) (done : e.step m = some m') :
    GsInv q start m' := by
  have now := inv.mode
  cases e with
  | run burst gsBase =>
      cases mode : m.mode with
      | running =>
          simp only [Event.step, mode, Option.some.injEq] at done
          exact done ▸ runCode_inv inv mode burst gsBase
      | _ => simp [Event.step, mode] at done
  | tick => exact interrupt_inv inv 32 .timer (.inl rfl) done
  | device vector => exact interrupt_inv inv vector .handler (.inr rfl) done
  | schedule =>
      cases mode : m.mode with
      | timer frame =>
          simp only [Event.step, mode, Option.some.injEq] at done
          subst done
          rw [mode] at now
          obtain ⟨records, serves⟩ := switchTask_serves inv.records now.1
          exact ⟨records, inv.kernelStacks, serves, now.2⟩
      | _ => simp [Event.step, mode] at done
  | iret =>
      cases mode : m.mode with
      | handler frame =>
          simp only [Event.step, mode, Option.some.injEq] at done
          subst done
          rw [mode] at now
          have left := now.1.leave
          have records := inv.records.swapgsFor frame
          exact ⟨records.of_same rfl rfl rfl, inv.kernelStacks, left.user, left.kernel⟩
      | _ => simp [Event.step, mode] at done
  | syscall =>
      cases mode : m.mode with
      | running =>
          by_cases user : m.sched.cpu.regs.cs = userCs
          · simp only [Event.step, mode, if_pos user, Option.some.injEq] at done
            exact done ▸ syscallEntry_inv inv mode user
          · simp [Event.step, mode, user] at done
      | _ => simp [Event.step, mode] at done
  | serve rax rdx fsBase =>
      cases mode : m.mode with
      | syscall frame stack =>
          simp only [Event.step, mode, Option.some.injEq] at done
          subst done
          rw [mode] at now
          obtain ⟨serves, masked, loaded, stored⟩ := now
          exact ⟨inv.records.of_same rfl rfl rfl, inv.kernelStacks, serves.of_same rfl, masked, loaded,
            stored⟩
      | _ => simp [Event.step, mode] at done
  | sysret =>
      cases mode : m.mode with
      | syscall frame stack =>
          simp only [Event.step, mode, Option.some.injEq] at done
          exact done ▸ syscallExit_inv inv mode
      | _ => simp [Event.step, mode] at done

theorem runEvents_inv (events : List (Event Fpu)) (inv : GsInv q start m)
    (done : runEvents events m = some m') : GsInv q start m' := by
  induction events generalizing m with
  | nil =>
      cases done
      exact inv
  | cons e events ih =>
      obtain ⟨next, first, rest⟩ := Option.bind_eq_some_iff.mp done
      exact ih (Event.step_inv inv first) rest

theorem Event.step_blocks {e : Event Fpu} (done : e.step m = some m') :
    m'.blocks = m.blocks ∨ m.mode = .running ∧ m.sched.cpu.regs.cs = userCs ∧
      ∃ block, m'.blocks = Function.update m.blocks m.sched.cpu.kernelGsBase block := by
  cases e with
  | run burst gsBase =>
      cases mode : m.mode with
      | running =>
          simp only [Event.step, mode, Option.some.injEq] at done
          exact .inl (done ▸ rfl)
      | _ => simp [Event.step, mode] at done
  | tick =>
      simp only [Event.step, interrupt] at done
      split at done
      · cases done
        exact .inl rfl
      · cases done
  | device vector =>
      simp only [Event.step, interrupt] at done
      split at done
      · cases done
        exact .inl rfl
      · cases done
  | schedule =>
      cases mode : m.mode with
      | timer frame =>
          simp only [Event.step, mode, Option.some.injEq] at done
          exact .inl (done ▸ rfl)
      | _ => simp [Event.step, mode] at done
  | iret =>
      cases mode : m.mode with
      | handler frame =>
          simp only [Event.step, mode, Option.some.injEq] at done
          exact .inl (done ▸ rfl)
      | _ => simp [Event.step, mode] at done
  | syscall =>
      cases mode : m.mode with
      | running =>
          by_cases user : m.sched.cpu.regs.cs = userCs
          · simp only [Event.step, mode, if_pos user, Option.some.injEq] at done
            subst done
            exact .inr ⟨rfl, user, _, rfl⟩
          · simp [Event.step, mode, user] at done
      | _ => simp [Event.step, mode] at done
  | serve rax rdx fsBase =>
      cases mode : m.mode with
      | syscall frame stack =>
          simp only [Event.step, mode, Option.some.injEq] at done
          exact .inl (done ▸ rfl)
      | _ => simp [Event.step, mode] at done
  | sysret =>
      cases mode : m.mode with
      | syscall frame stack =>
          simp only [Event.step, mode, Option.some.injEq] at done
          exact .inl (done ▸ rfl)
      | _ => simp [Event.step, mode] at done

theorem GsInv.own (inv : GsInv q start m) (ownBlocks : q.OwnBlocks) {e : Event Fpu}
    (done : e.step m = some m') {t : Nat} (member : t ∈ q.threads)
    (changed : m'.blocks (q.gsBase t) ≠ m.blocks (q.gsBase t)) :
    m.sched.currentThread = some t := by
  rcases Event.step_blocks done with same | ⟨running, user, block, written⟩
  · exact absurd (congrFun same _) changed
  · have now := inv.mode
    rw [running] at now
    obtain ⟨u, listed, -, current, base⟩ := now.user user
    have here : q.gsBase t = q.gsBase u := by
      by_contra apart
      rw [written, base, Function.update_of_ne apart] at changed
      exact changed rfl
    rw [ownBlocks t member u listed here]
    exact current

end Events

/-- Whatever the order of system calls, ticks and device interrupts: user code runs with its
thread's block behind the second GS base, and handlers run with it behind the first. -/
theorem gs_base_discipline (q : Queue Fpu) (ownBlocks : q.OwnBlocks) (start : Machine Fpu)
    (booted : Booted q start) (events : List (Event Fpu)) (m : Machine Fpu)
    (done : runEvents events start = some m) : Disciplined q start m := by
  have inv := runEvents_inv events (booted_inv booted) done
  have now := inv.mode
  constructor
  · exact inv.records.gsBase
  · intro running user
    rw [running] at now
    exact now.user user
  · intro frame mode user
    rcases mode with mode | mode
    · rw [mode] at now
      exact now.1.user user
    · rw [mode] at now
      exact now.1.user user
  · intro frame stack mode
    rw [mode] at now
    exact ⟨now.1.user rfl, now.2.2⟩
  · intro e m' step t member changed
    exact inv.own ownBlocks step member changed

theorem tick_events (m : Machine Fpu) (enabled : m.interruptFlag = true) :
    ∃ m', runEvents [.tick, .schedule, .iret] m = some m' ∧ m'.sched = timerTick m.sched ∧
      m'.mode = .running := by
  have vector : ({ isrEntry m.sched.cpu.regs with intnum := 32 } : StackFrame) =
      isrEntry m.sched.cpu.regs := rfl
  simp only [runEvents, List.foldlM_cons, List.foldlM_nil, Event.step, interrupt, if_pos enabled,
    vector, Option.bind_eq_bind, Option.bind_some]
  exact ⟨_, rfl, rfl, rfl⟩

section Example

def registersAt (cs : Word) : Registers :=
  { r15 := 0, r14 := 0, r13 := 0, r12 := 0, r11 := 0, r10 := 0, r9 := 0, r8 := 0, rdi := 0
    rsi := 0, rdx := 0, rcx := 0, rbx := 0, rax := 0, rbp := 0, rip := 0x400000, cs := cs
    rflags := 0x202, rsp := 0x7000, ss := 0 }

/-- A user thread with a kernel thread behind it, as `sched_init` queues them. -/
def twoThreads : Scheduler Unit where
  threads t :=
    if t = 0 then ⟨⟨isrEntry (registersAt 0x43), ()⟩, some 1, ⟨0x5000⟩, 0, 0x1000⟩
    else ⟨⟨isrEntry (registersAt 0x28), ()⟩, none, ⟨0x6000⟩, 0, 0x2000⟩
  startOfQueue := some 0
  currentThread := none
  cpu := ⟨registersAt 0x28, (), 0, 0, 0, 0x4000⟩

def twoQueue : Queue Unit where
  boot := twoThreads
  threads := [0, 1]
  nonempty := by decide
  distinct := by decide
  head := rfl
  links i inside := by
    have cases : i = 0 ∨ i = 1 := by
      simp only [List.length_cons, List.length_nil] at inside
      omega
    rcases cases with rfl | rfl <;> rfl
  idle := rfl

def bootMachine : Machine Unit := ⟨twoThreads, fun g => ⟨g + 0x800, 0⟩, .running, true⟩

theorem bootMachine_booted : Booted twoQueue bootMachine := ⟨rfl, rfl, by decide⟩

theorem twoQueue_ownBlocks : twoQueue.OwnBlocks := by
  have apart : ∀ t ∈ [0, 1], ∀ u ∈ [0, 1], twoQueue.gsBase t = twoQueue.gsBase u → t = u := by decide
  exact apart

def twoSwitches : List (Event Unit) :=
  [.tick, .schedule, .iret, .syscall, .serve 0 0 0, .sysret, .tick, .schedule]

theorem gs_base_discipline_two : ∃ m,
    runEvents twoSwitches bootMachine = some m ∧ Disciplined twoQueue bootMachine m := by
  have runs : (runEvents twoSwitches bootMachine).isSome := by decide
  obtain ⟨m, done⟩ := Option.isSome_iff_exists.mp runs
  exact ⟨m, done, gs_base_discipline twoQueue twoQueue_ownBlocks bootMachine bootMachine_booted
    twoSwitches m done⟩

end Example

end Nyaux.Sched
