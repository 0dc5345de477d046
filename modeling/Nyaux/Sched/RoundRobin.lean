import Nyaux.Lib.Turns
import Nyaux.Sched.SwitchTask

/-! The scheduler as a round robin over private machine states.

The abstract machine is `Turns.slot`: one private state for each thread of the queue,
exchanged with the processor at each tick. `Tracks` relates it to the thread records. -/

namespace Nyaux.Sched

variable {Fpu : Type}

/-- What the running code does to the processor between two ticks. -/
structure Burst (Fpu : Type) where
  regs : Registers
  fpu : Fpu
  fsBase : Word

/-- Any registers and extended state, at the same privilege level; only user code is
followed in its changes of the FS base. -/
def execute (burst : Burst Fpu) (s : Scheduler Fpu) : Scheduler Fpu :=
  let sameLevel := burst.regs.cs = userCs ↔ s.cpu.regs.cs = userCs
  { s with cpu := { s.cpu with
      regs := { burst.regs with cs := if sameLevel then burst.regs.cs else s.cpu.regs.cs }
      fpu := burst.fpu
      fsBase := if s.cpu.regs.cs = userCs then burst.fsBase else s.cpu.fsBase } }

/-- A finite queue of distinct threads, linked as `sched_init` leaves it, before any tick. -/
structure Queue (Fpu : Type) where
  boot : Scheduler Fpu
  threads : List Nat
  nonempty : 0 < threads.length
  distinct : threads.Nodup
  head : boot.startOfQueue = threads[0]?
  links : ∀ i (inside : i < threads.length), (boot.threads threads[i]).next = threads[i + 1]?
  idle : boot.currentThread = none

/-- The state after `k` ticks, the code running `bursts i` before tick `i + 1`. -/
def resumed (q : Queue Fpu) (bursts : Nat → Burst Fpu) : Nat → Scheduler Fpu
  | 0 => q.boot
  | k + 1 => timerTick (execute (bursts k) (resumed q bursts k))

/-- The state that tick `k + 1` interrupts. -/
def preempted (q : Queue Fpu) (bursts : Nat → Burst Fpu) (k : Nat) : Scheduler Fpu :=
  execute (bursts k) (resumed q bursts k)

structure Private (Fpu : Type) where
  frame : StackFrame
  fpu : Fpu
  fsBase : Word

def initialState (q : Queue Fpu) (j : Nat) : Private Fpu :=
  let thread := q.boot.threads (q.threads[j]?.getD 0)
  ⟨thread.context.frame, thread.context.fpuState, thread.fs⟩

def leftState (q : Queue Fpu) (bursts : Nat → Burst Fpu) (k : Nat) : Private Fpu :=
  let cpu := (preempted q bursts k).cpu
  ⟨isrEntry cpu.regs, cpu.fpu, cpu.fsBase⟩

def slots (q : Queue Fpu) (bursts : Nat → Burst Fpu) : Nat → Nat → Private Fpu :=
  Turns.slot q.threads.length (initialState q) (leftState q bursts)

def Saved (thread : Thread Fpu) (state : Private Fpu) : Prop :=
  thread.context = ⟨state.frame, state.fpu⟩ ∧
    (state.frame.cs = userCs → thread.fs = state.fsBase)

def Loaded (cpu : Cpu Fpu) (state : Private Fpu) : Prop :=
  cpu.regs = isrExit state.frame ∧ cpu.fpu = state.fpu ∧
    (state.frame.cs = userCs → cpu.fsBase = state.fsBase)

structure Tracks (q : Queue Fpu) (bursts : Nat → Burst Fpu) (k : Nat) : Prop where
  startOfQueue : (resumed q bursts k).startOfQueue = q.boot.startOfQueue
  next : ∀ t, ((resumed q bursts k).threads t).next = (q.boot.threads t).next
  info : ∀ t, ((resumed q bursts k).threads t).info = (q.boot.threads t).info
  saved : ∀ j (inside : j < q.threads.length),
    Saved ((resumed q bursts k).threads q.threads[j]) (slots q bursts k j)
  current : (resumed q bursts k).currentThread =
    if k = 0 then none else q.threads[(k - 1) % q.threads.length]?
  loaded : 0 < k → Loaded (resumed q bursts k).cpu
    (slots q bursts k ((k - 1) % q.threads.length))
  cr3 : ∀ t, (resumed q bursts k).currentThread = some t →
    (resumed q bursts k).cpu.cr3 = (q.boot.threads t).info.pml4

@[simp] theorem execute_threads (burst : Burst Fpu) (s : Scheduler Fpu) :
    (execute burst s).threads = s.threads := rfl

@[simp] theorem execute_startOfQueue (burst : Burst Fpu) (s : Scheduler Fpu) :
    (execute burst s).startOfQueue = s.startOfQueue := rfl

@[simp] theorem execute_currentThread (burst : Burst Fpu) (s : Scheduler Fpu) :
    (execute burst s).currentThread = s.currentThread := rfl

theorem execute_privilege (burst : Burst Fpu) (s : Scheduler Fpu) :
    (execute burst s).cpu.regs.cs = userCs ↔ s.cpu.regs.cs = userCs := by
  by_cases sameLevel : burst.regs.cs = userCs ↔ s.cpu.regs.cs = userCs
  · simp [execute, sameLevel]
  · simp [execute, sameLevel]

theorem tracks_boot (q : Queue Fpu) (bursts : Nat → Burst Fpu) : Tracks q bursts 0 where
  startOfQueue := rfl
  next := fun _ => rfl
  info := fun _ => rfl
  saved := by
    intro j inside
    simp [Saved, slots, Turns.slot, initialState, resumed, List.getElem?_eq_getElem inside]
  current := q.idle
  loaded := fun impossible => absurd impossible (Nat.lt_irrefl 0)
  cr3 := by
    intro t running
    have idle : (resumed q bursts 0).currentThread = none := q.idle
    rw [idle] at running
    cases running

theorem upNext_turn (q : Queue Fpu) (bursts : Nat → Burst Fpu) (k : Nat)
    (tracks : Tracks q bursts k) :
    upNext (preempted q bursts k) = q.threads[k % q.threads.length]? := by
  have count := q.nonempty
  cases k with
  | zero =>
      have idle : (preempted q bursts 0).currentThread = none := q.idle
      have start : (preempted q bursts 0).startOfQueue = q.threads[0]? := q.head
      simp [upNext, idle, start]
  | succ k =>
      have inside : k % q.threads.length < q.threads.length := Nat.mod_lt _ count
      have current : (preempted q bursts (k + 1)).currentThread =
          some q.threads[k % q.threads.length] :=
        tracks.current.trans (by simp [List.getElem?_eq_getElem inside])
      have linked : ((preempted q bursts (k + 1)).threads
          q.threads[k % q.threads.length]).next = q.threads[k % q.threads.length + 1]? :=
        (tracks.next _).trans (q.links _ inside)
      have start : (preempted q bursts (k + 1)).startOfQueue = q.threads[0]? :=
        tracks.startOfQueue.trans q.head
      simp only [upNext, current, linked, start]
      by_cases last : k % q.threads.length + 1 = q.threads.length
      · have wraps : (k + 1) % q.threads.length = 0 := by
          rw [← Nat.mod_add_mod, last, Nat.mod_self]
        rw [wraps, last]
        simp
      · have steps : (k + 1) % q.threads.length = k % q.threads.length + 1 := by
          rw [← Nat.mod_add_mod, Nat.mod_eq_of_lt (by omega)]
        rw [steps, List.getElem?_eq_getElem (by omega)]
        rfl

theorem interrupted_saved (q : Queue Fpu) (bursts : Nat → Burst Fpu) (k : Nat)
    (tracks : Tracks q bursts k) (j : Nat) (inside : j < q.threads.length) :
    Saved ((interrupted (preempted q bursts k)).threads q.threads[j])
      (slots q bursts (k + 1) j) := by
  have before := tracks.saved j inside
  by_cases turn : 1 ≤ k ∧ j = (k - 1) % q.threads.length
  · obtain ⟨begun, rfl⟩ := turn
    have current : (preempted q bursts k).currentThread =
        some q.threads[(k - 1) % q.threads.length] := by
      have := tracks.current
      simpa [preempted, show k ≠ 0 by omega, List.getElem?_eq_getElem inside] using this
    have level : (preempted q bursts k).cpu.regs.cs = userCs →
        (((preempted q bursts k).threads
          q.threads[(k - 1) % q.threads.length]).context.frame.cs = userCs) := by
      intro user
      have running := (execute_privilege _ _).mp user
      rw [(tracks.loaded (by omega)).1] at running
      simpa [preempted, before.1] using running
    have saved := leave_self (isrEntry (preempted q bursts k).cpu.regs)
      q.threads[(k - 1) % q.threads.length]
      (swapgsFor (isrEntry (preempted q bursts k).cpu.regs) (preempted q bursts k))
      (by simpa using current)
    have slot : slots q bursts (k + 1) ((k - 1) % q.threads.length) = leftState q bursts k :=
      Turns.slot_leaving _ _ _ k begun
    rw [slot]
    refine ⟨by simpa [interrupted, leftState] using saved.1, ?_⟩
    intro user
    have := saved.2.1 (by simpa using level user)
    simpa [interrupted, leftState] using this
  · have slot : slots q bursts (k + 1) j = slots q bursts k j := by
      rw [slots, Turns.slot, if_neg turn]
    have elsewhere : (preempted q bursts k).currentThread ≠ some q.threads[j] := by
      intro running
      have current := tracks.current
      rw [show (resumed q bursts k).currentThread = some q.threads[j] from running] at current
      by_cases zero : k = 0
      · simp [zero] at current
      · rw [if_neg zero, List.getElem?_eq_getElem (Nat.mod_lt _ q.nonempty)] at current
        have same := (List.Nodup.getElem_inj_iff q.distinct).mp (Option.some.inj current)
        exact turn ⟨by omega, same⟩
    rw [slot, interrupted, leave_other _ _ _ (by simpa using elsewhere), swapgsFor_threads]
    exact before

theorem tracks_tick (q : Queue Fpu) (bursts : Nat → Burst Fpu) (k : Nat)
    (tracks : Tracks q bursts k) : Tracks q bursts (k + 1) := by
  have turn : k % q.threads.length < q.threads.length := Nat.mod_lt _ q.nonempty
  have next : upNext (preempted q bursts k) = some q.threads[k % q.threads.length] :=
    (upNext_turn q bursts k tracks).trans (List.getElem?_eq_getElem turn)
  obtain ⟨resumes, exits⟩ := timerTick_resumes _ _ next
  have saved := interrupted_saved q bursts k tracks
  have mine := saved _ turn
  have links : ∀ t, ((interrupted (preempted q bursts k)).threads t).next =
      (q.boot.threads t).next ∧
      ((interrupted (preempted q bursts k)).threads t).info = (q.boot.threads t).info := by
    intro t
    have kept := leave_links (isrEntry (preempted q bursts k).cpu.regs) t
      (swapgsFor (isrEntry (preempted q bursts k).cpu.regs) (preempted q bursts k))
    exact ⟨kept.1.trans (by simpa [preempted] using tracks.next t),
      kept.2.trans (by simpa [preempted] using tracks.info t)⟩
  refine ⟨?_, ?_, ?_, ?_, ?_, ?_, ?_⟩
  · have same := resumes.startOfQueue
    simp only [interrupted, leave_startOfQueue, swapgsFor_startOfQueue] at same
    exact same.trans tracks.startOfQueue
  · intro t
    exact (congrArg (fun f => (f t).next) resumes.threads).trans (links t).1
  · intro t
    exact (congrArg (fun f => (f t).info) resumes.threads).trans (links t).2
  · intro j inside
    have same : (resumed q bursts (k + 1)).threads =
        (interrupted (preempted q bursts k)).threads := resumes.threads
    rw [same]
    exact saved j inside
  · exact resumes.current.trans (by simp [List.getElem?_eq_getElem turn])
  · intro _
    have context := mine.1
    refine ⟨?_, ?_, ?_⟩
    · have := exits
      rw [context] at this
      exact this
    · have := resumes.fpu
      rw [context] at this
      exact this
    · intro user
      have framed := resumes.fsBase
      rw [context] at framed
      exact (framed user).trans (mine.2 user)
  · intro t running
    have same : q.threads[k % q.threads.length] = t :=
      Option.some.inj (resumes.current.symm.trans running)
    have loaded := resumes.cr3
    rw [(links _).2, same] at loaded
    exact loaded

theorem tracks_run (q : Queue Fpu) (bursts : Nat → Burst Fpu) (k : Nat) : Tracks q bursts k := by
  induction k with
  | zero => exact tracks_boot q bursts
  | succ k ih => exact tracks_tick q bursts k ih

theorem loaded_first (q : Queue Fpu) (bursts : Nat → Burst Fpu) (k : Nat) (begun : 1 ≤ k)
    (first : k ≤ q.threads.length) :
    Loaded (resumed q bursts k).cpu (initialState q ((k - 1) % q.threads.length)) := by
  have loaded := (tracks_run q bursts k).loaded begun
  rwa [slots, Turns.slot_first _ _ _ k begun first] at loaded

theorem loaded_return (q : Queue Fpu) (bursts : Nat → Burst Fpu) (m : Nat) (begun : 1 ≤ m) :
    Loaded (resumed q bursts (m + q.threads.length)).cpu (leftState q bursts m) := by
  have loaded := (tracks_run q bursts (m + q.threads.length)).loaded (by omega)
  rwa [slots, Turns.slot_return _ _ _ m begun q.nonempty] at loaded

theorem tick_frame (q : Queue Fpu) (bursts : Nat → Burst Fpu) (k t : Nat)
    (elsewhere : (preempted q bursts k).currentThread ≠ some t) :
    (resumed q bursts (k + 1)).threads t = (resumed q bursts k).threads t := by
  have turn : k % q.threads.length < q.threads.length := Nat.mod_lt _ q.nonempty
  have next : upNext (preempted q bursts k) = some q.threads[k % q.threads.length] :=
    (upNext_turn q bursts k (tracks_run q bursts k)).trans (List.getElem?_eq_getElem turn)
  calc
    (resumed q bursts (k + 1)).threads t =
        (interrupted (preempted q bursts k)).threads t :=
      congrFun (timerTick_resumes _ _ next).1.threads t
    _ = (swapgsFor (isrEntry (preempted q bursts k).cpu.regs)
          (preempted q bursts k)).threads t := leave_other _ _ _ (by simpa using elsewhere)
    _ = (resumed q bursts k).threads t := by rw [swapgsFor_threads]; rfl

/-- `switch_task` is a round robin over private machine states, for every queue and
every behaviour of its threads. Tick `m + 1` preempts the thread that tick `m` resumed,
and tick `m + n` is the next one to resume it. -/
theorem switchTask_round_robin (q : Queue Fpu) (bursts : Nat → Burst Fpu) :
    (resumed q bursts 1).currentThread = q.threads.head? ∧
    (∀ k, 1 ≤ k →
      (resumed q bursts k).currentThread = q.threads[(k - 1) % q.threads.length]?) ∧
    (∀ k t, 1 ≤ k → k ≤ q.threads.length → (resumed q bursts k).currentThread = some t →
      (resumed q bursts k).cpu.regs = isrExit (q.boot.threads t).context.frame ∧
      (resumed q bursts k).cpu.fpu = (q.boot.threads t).context.fpuState ∧
      ((q.boot.threads t).context.frame.cs = userCs →
        (resumed q bursts k).cpu.fsBase = (q.boot.threads t).fs)) ∧
    (∀ m, 1 ≤ m →
      (resumed q bursts (m + q.threads.length)).currentThread =
        (preempted q bursts m).currentThread ∧
      (resumed q bursts (m + q.threads.length)).cpu.regs = (preempted q bursts m).cpu.regs ∧
      (resumed q bursts (m + q.threads.length)).cpu.fpu = (preempted q bursts m).cpu.fpu ∧
      ((preempted q bursts m).cpu.regs.cs = userCs →
        (resumed q bursts (m + q.threads.length)).cpu.fsBase =
          (preempted q bursts m).cpu.fsBase)) ∧
    (∀ k t, (resumed q bursts k).currentThread = some t →
      (resumed q bursts k).cpu.cr3 = (q.boot.threads t).info.pml4) ∧
    (∀ k t, (preempted q bursts k).currentThread ≠ some t →
      (resumed q bursts (k + 1)).threads t = (resumed q bursts k).threads t) := by
  have turn : ∀ k, 1 ≤ k →
      (resumed q bursts k).currentThread = q.threads[(k - 1) % q.threads.length]? := by
    intro k begun
    have current := (tracks_run q bursts k).current
    rwa [if_neg (by omega)] at current
  refine ⟨?_, turn, ?_, ?_, fun k => (tracks_run q bursts k).cr3, tick_frame q bursts⟩
  · rw [turn 1 (Nat.le_refl 1)]
    simp [List.head?_eq_getElem?]
  · intro k t begun first running
    have named : q.threads[(k - 1) % q.threads.length]? = some t :=
      (turn k begun).symm.trans running
    have loaded := loaded_first q bursts k begun first
    simpa [Loaded, initialState, named] using loaded
  · intro m begun
    have occupant : (m + q.threads.length - 1) % q.threads.length =
        (m - 1) % q.threads.length := by
      rw [show m + q.threads.length - 1 = m - 1 + q.threads.length by omega, Nat.add_mod_right]
    have loaded := loaded_return q bursts m begun
    refine ⟨?_, loaded.1, loaded.2.1, loaded.2.2⟩
    exact (turn _ (by omega)).trans (occupant ▸ (turn m begun).symm)

end Nyaux.Sched
