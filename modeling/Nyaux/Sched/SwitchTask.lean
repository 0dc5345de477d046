import Mathlib.Logic.Function.Basic
import Mathlib.Tactic

/-! The timer path of the scheduler: `isr_stub_32`, `sched_meow` and `switch_task`.

The contents of an XSAVE area are a parameter `Fpu`: `xsaveq` stores the processor's
extended state there and `xrstorq` loads it back. Threads are kept by address. -/

namespace Nyaux.Sched

abbrev Word := BitVec 64

/-- `struct StackFrame`, as `isr_stub_32` and the processor push it. -/
structure StackFrame where
  intnum : Word
  r15 : Word
  r14 : Word
  r13 : Word
  r12 : Word
  r11 : Word
  r10 : Word
  r9 : Word
  r8 : Word
  rdi : Word
  rsi : Word
  rdx : Word
  rcx : Word
  rbx : Word
  rax : Word
  rbp : Word
  errorCode : Word
  rip : Word
  cs : Word
  rflags : Word
  rsp : Word
  ss : Word
  deriving DecidableEq

/-- The registers of the running code, the part of a frame that `iretq` reloads. -/
structure Registers where
  r15 : Word
  r14 : Word
  r13 : Word
  r12 : Word
  r11 : Word
  r10 : Word
  r9 : Word
  r8 : Word
  rdi : Word
  rsi : Word
  rdx : Word
  rcx : Word
  rbx : Word
  rax : Word
  rbp : Word
  rip : Word
  cs : Word
  rflags : Word
  rsp : Word
  ss : Word
  deriving DecidableEq

/-- `0x40 | 3`, the code selector of user threads. -/
def userCs : Word := 0x43

structure CpuContext (Fpu : Type) where
  frame : StackFrame
  fpuState : Fpu
  deriving DecidableEq

/-- What the timer path reads of `info->pagemap`. -/
structure ProcessInfo where
  pml4 : Word
  deriving DecidableEq

structure Thread (Fpu : Type) where
  context : CpuContext Fpu
  next : Option Nat
  info : ProcessInfo
  fs : Word
  gsBase : Word

/-- Register file, extended state and the model-specific registers
`0xC0000100`, `0xC0000101` and `0xC0000102`. -/
structure Cpu (Fpu : Type) where
  regs : Registers
  fpu : Fpu
  fsBase : Word
  gsBase : Word
  kernelGsBase : Word
  cr3 : Word

structure Scheduler (Fpu : Type) where
  threads : Nat → Thread Fpu
  startOfQueue : Option Nat
  currentThread : Option Nat
  cpu : Cpu Fpu

variable {Fpu : Type}

def isrEntry (regs : Registers) : StackFrame :=
  { intnum := 32, errorCode := 0
    r15 := regs.r15, r14 := regs.r14, r13 := regs.r13, r12 := regs.r12
    r11 := regs.r11, r10 := regs.r10, r9 := regs.r9, r8 := regs.r8
    rdi := regs.rdi, rsi := regs.rsi, rdx := regs.rdx, rcx := regs.rcx
    rbx := regs.rbx, rax := regs.rax, rbp := regs.rbp, rip := regs.rip
    cs := regs.cs, rflags := regs.rflags, rsp := regs.rsp, ss := regs.ss }

def isrExit (frame : StackFrame) : Registers :=
  { r15 := frame.r15, r14 := frame.r14, r13 := frame.r13, r12 := frame.r12
    r11 := frame.r11, r10 := frame.r10, r9 := frame.r9, r8 := frame.r8
    rdi := frame.rdi, rsi := frame.rsi, rdx := frame.rdx, rcx := frame.rcx
    rbx := frame.rbx, rax := frame.rax, rbp := frame.rbp, rip := frame.rip
    cs := frame.cs, rflags := frame.rflags, rsp := frame.rsp, ss := frame.ss }

@[simp] theorem isrExit_isrEntry (regs : Registers) : isrExit (isrEntry regs) = regs := rfl

@[simp] theorem isrEntry_cs (regs : Registers) : (isrEntry regs).cs = regs.cs := rfl

@[simp] theorem isrExit_cs (frame : StackFrame) : (isrExit frame).cs = frame.cs := rfl

def setThread (t : Nat) (thread : Thread Fpu) (s : Scheduler Fpu) : Scheduler Fpu :=
  { s with threads := Function.update s.threads t thread }

def swapgs (s : Scheduler Fpu) : Scheduler Fpu :=
  { s with cpu := { s.cpu with gsBase := s.cpu.kernelGsBase, kernelGsBase := s.cpu.gsBase } }

def switchContext (context : CpuContext Fpu) (s : Scheduler Fpu) : StackFrame × Scheduler Fpu :=
  (context.frame, { s with cpu := { s.cpu with fpu := context.fpuState } })

def saveContext (frame : StackFrame) (t : Nat) (s : Scheduler Fpu) : Scheduler Fpu :=
  setThread t { s.threads t with context := ⟨frame, s.cpu.fpu⟩ } s

/-- The two `readmsr` calls, made when the frame saved last was a user frame. -/
def readBases (t : Nat) (s : Scheduler Fpu) : Scheduler Fpu :=
  if (s.threads t).context.frame.cs = userCs then
    setThread t { s.threads t with gsBase := s.cpu.gsBase, fs := s.cpu.fsBase } s
  else s

/-- The two `writemsr` calls, made when the resumed frame is a user frame. -/
def writeBases (t : Nat) (s : Scheduler Fpu) : Scheduler Fpu :=
  if (s.threads t).context.frame.cs = userCs then
    { s with cpu := { s.cpu with gsBase := (s.threads t).gsBase, fsBase := (s.threads t).fs } }
  else s

def updateCr3 (value : Word) (s : Scheduler Fpu) : Scheduler Fpu :=
  { s with cpu := { s.cpu with cr3 := value } }

/-- The part of `switch_task` that follows `current_thread = t`. -/
def resume (t : Nat) (s : Scheduler Fpu) : StackFrame × Scheduler Fpu :=
  let s := { s with currentThread := some t }
  let (frame, s) := switchContext (s.threads t).context s
  let s := writeBases t s
  (frame, updateCr3 (s.threads t).info.pml4 s)

def switchTask (frame : StackFrame) (s : Scheduler Fpu) : StackFrame × Scheduler Fpu :=
  match s.currentThread with
  | some t =>
      match (s.threads t).next with
      | some next => resume next (saveContext frame t (readBases t s))
      | none =>
          match s.startOfQueue with
          | some start => resume start (saveContext frame t (readBases t s))
          | none => (frame, s)
  | none =>
      match s.startOfQueue with
      | some start => resume start s
      | none => (frame, s)

/-- The `swapgs` that the stub guards by `cmp qword [..], 0x43`. -/
def swapgsFor (frame : StackFrame) (s : Scheduler Fpu) : Scheduler Fpu :=
  if frame.cs = userCs then swapgs s else s

def timerTick (s : Scheduler Fpu) : Scheduler Fpu :=
  let frame := isrEntry s.cpu.regs
  let (frame, s) := switchTask frame (swapgsFor frame s)
  let s := swapgsFor frame s
  { s with cpu := { s.cpu with regs := isrExit frame } }

/-! What one tick does, field by field. -/

def leave (frame : StackFrame) (s : Scheduler Fpu) : Scheduler Fpu :=
  match s.currentThread with
  | some t => saveContext frame t (readBases t s)
  | none => s

/-- The thread that runs next: the `next` of the running one, else the queue's start. -/
def upNext (s : Scheduler Fpu) : Option Nat :=
  match s.currentThread with
  | some t => (s.threads t).next.or s.startOfQueue
  | none => s.startOfQueue

theorem switchTask_upNext (frame : StackFrame) (s : Scheduler Fpu) (t : Nat)
    (next : upNext s = some t) : switchTask frame s = resume t (leave frame s) := by
  cases current : s.currentThread with
  | none =>
      have start : s.startOfQueue = some t := by simpa [upNext, current] using next
      simp [switchTask, leave, current, start]
  | some c =>
      cases linked : (s.threads c).next with
      | none =>
          have start : s.startOfQueue = some t := by simpa [upNext, current, linked] using next
          simp [switchTask, leave, current, linked, start]
      | some n =>
          have same : n = t := by simpa [upNext, current, linked] using next
          simp [switchTask, leave, current, linked, same]

theorem leave_other (frame : StackFrame) (t : Nat) (s : Scheduler Fpu)
    (apart : s.currentThread ≠ some t) : (leave frame s).threads t = s.threads t := by
  cases current : s.currentThread with
  | none => simp [leave, current]
  | some c =>
      have different : t ≠ c := fun same => apart (by rw [current, same])
      simp only [leave, current, saveContext, readBases, setThread]
      split <;> simp [Function.update_of_ne different]

theorem leave_self (frame : StackFrame) (t : Nat) (s : Scheduler Fpu)
    (current : s.currentThread = some t) :
    ((leave frame s).threads t).context = ⟨frame, s.cpu.fpu⟩ ∧
      ((s.threads t).context.frame.cs = userCs →
        ((leave frame s).threads t).fs = s.cpu.fsBase) ∧
      ((leave frame s).threads t).next = (s.threads t).next ∧
      ((leave frame s).threads t).info = (s.threads t).info := by
  by_cases user : (s.threads t).context.frame.cs = userCs
  · simp [leave, current, saveContext, readBases, setThread, user]
  · simp [leave, current, saveContext, readBases, setThread, user]

theorem leave_links (frame : StackFrame) (t : Nat) (s : Scheduler Fpu) :
    ((leave frame s).threads t).next = (s.threads t).next ∧
      ((leave frame s).threads t).info = (s.threads t).info := by
  by_cases current : s.currentThread = some t
  · exact (leave_self frame t s current).2.2
  · rw [leave_other frame t s current]
    exact ⟨rfl, rfl⟩

@[simp] theorem leave_startOfQueue (frame : StackFrame) (s : Scheduler Fpu) :
    (leave frame s).startOfQueue = s.startOfQueue := by
  cases current : s.currentThread with
  | none => simp [leave, current]
  | some c =>
      simp only [leave, current, saveContext, readBases, setThread]
      split <;> rfl

structure Resumes (t : Nat) (s s' : Scheduler Fpu) : Prop where
  threads : s'.threads = s.threads
  startOfQueue : s'.startOfQueue = s.startOfQueue
  current : s'.currentThread = some t
  fpu : s'.cpu.fpu = (s.threads t).context.fpuState
  cr3 : s'.cpu.cr3 = (s.threads t).info.pml4
  fsBase : (s.threads t).context.frame.cs = userCs → s'.cpu.fsBase = (s.threads t).fs

theorem resume_resumes (t : Nat) (s : Scheduler Fpu) :
    (resume t s).1 = (s.threads t).context.frame ∧ Resumes t s (resume t s).2 := by
  refine ⟨rfl, ?_⟩
  by_cases user : (s.threads t).context.frame.cs = userCs
  · constructor <;> simp [resume, switchContext, writeBases, updateCr3, user]
  · constructor <;> simp [resume, switchContext, writeBases, updateCr3, user]

theorem swapgsFor_resumes (frame : StackFrame) (t : Nat) (s s' : Scheduler Fpu)
    (running : Resumes t s s') : Resumes t s (swapgsFor frame s') := by
  unfold swapgsFor
  split
  · exact ⟨running.threads, running.startOfQueue, running.current, running.fpu, running.cr3,
      running.fsBase⟩
  · exact running

@[simp] theorem swapgsFor_threads (frame : StackFrame) (s : Scheduler Fpu) :
    (swapgsFor frame s).threads = s.threads := by
  unfold swapgsFor
  split <;> rfl

@[simp] theorem swapgsFor_startOfQueue (frame : StackFrame) (s : Scheduler Fpu) :
    (swapgsFor frame s).startOfQueue = s.startOfQueue := by
  unfold swapgsFor
  split <;> rfl

@[simp] theorem swapgsFor_currentThread (frame : StackFrame) (s : Scheduler Fpu) :
    (swapgsFor frame s).currentThread = s.currentThread := by
  unfold swapgsFor
  split <;> rfl

@[simp] theorem swapgsFor_fpu (frame : StackFrame) (s : Scheduler Fpu) :
    (swapgsFor frame s).cpu.fpu = s.cpu.fpu := by
  unfold swapgsFor
  split <;> rfl

@[simp] theorem swapgsFor_fsBase (frame : StackFrame) (s : Scheduler Fpu) :
    (swapgsFor frame s).cpu.fsBase = s.cpu.fsBase := by
  unfold swapgsFor
  split <;> rfl

def interrupted (s : Scheduler Fpu) : Scheduler Fpu :=
  leave (isrEntry s.cpu.regs) (swapgsFor (isrEntry s.cpu.regs) s)

theorem timerTick_resumes (s : Scheduler Fpu) (t : Nat) (next : upNext s = some t) :
    Resumes t (interrupted s) (timerTick s) ∧
      (timerTick s).cpu.regs = isrExit ((interrupted s).threads t).context.frame := by
  have swapped : upNext (swapgsFor (isrEntry s.cpu.regs) s) = some t := by
    simpa [upNext] using next
  have switched := switchTask_upNext (isrEntry s.cpu.regs) _ t swapped
  obtain ⟨loaded, running⟩ := resume_resumes t (interrupted s)
  have exit := swapgsFor_resumes (resume t (interrupted s)).1 t _ _ running
  simp only [timerTick, switched]
  exact ⟨⟨exit.threads, exit.startOfQueue, exit.current, exit.fpu, exit.cr3, exit.fsBase⟩,
    congrArg isrExit loaded⟩

end Nyaux.Sched
