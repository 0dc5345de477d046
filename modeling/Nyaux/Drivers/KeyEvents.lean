import Nyaux.Drivers.Ps2

/-! The keyboard events between the interrupt and the kernel thread that takes them. -/

namespace Nyaux.Drivers

/-- Where `kthread_start` is in its loop. -/
inductive Consumer
  | test
  | load
  | store (count : Nat)
  | take

/-- The shared globals, with the events stored and the events taken so far. -/
structure Keyboard where
  ps2 : Ps2
  consumer : Consumer
  produced : List KeyboardEvent
  taken : List KeyboardEvent

def Keyboard.boot : Keyboard := ⟨.boot, .test, [], []⟩

inductive ConsumerStep : Keyboard → Keyboard → Prop
  | empty (m : Keyboard) (at_ : m.consumer = .test) (none : ¬0 < m.ps2.eventCount) :
      ConsumerStep m m
  | some (m : Keyboard) (at_ : m.consumer = .test) (some : 0 < m.ps2.eventCount) :
      ConsumerStep m { m with consumer := .load }
  | load (m : Keyboard) (at_ : m.consumer = .load) :
      ConsumerStep m { m with consumer := .store m.ps2.eventCount }
  | store (m : Keyboard) (count : Nat) (at_ : m.consumer = .store count) :
      ConsumerStep m { m with ps2 := { m.ps2 with eventCount := count - 1 }, consumer := .take }
  | take (m : Keyboard) (at_ : m.consumer = .take) (inside : m.ps2.eventCount < 32) :
      ConsumerStep m { m with
        consumer := .test
        taken := m.taken ++ [m.ps2.events[m.ps2.eventCount]] }

def added (before after : Ps2) : List KeyboardEvent := (queued after).drop before.eventCount

inductive InterruptStep (ourGuy : UInt8) : Keyboard → Keyboard → Prop
  | run (m : Keyboard) (ps2 : Ps2) (ran : ps2Handler ourGuy m.ps2 = .ok ps2)
      (below : ps2.eventCount < 32) :
      InterruptStep ourGuy m { m with ps2 := ps2, produced := m.produced ++ added m.ps2 ps2 }

/-- Any interleaving whose interrupts meet the condition. -/
inductive Interleaved (meets : Keyboard → UInt8 → Prop) : Keyboard → Prop
  | boot : Interleaved meets .boot
  | consumer {m m' : Keyboard} (before : Interleaved meets m) (step : ConsumerStep m m') :
      Interleaved meets m'
  | interrupt {m m' : Keyboard} {ourGuy : UInt8} (before : Interleaved meets m)
      (allowed : meets m ourGuy) (step : InterruptStep ourGuy m m') : Interleaved meets m'

def outstanding (m : Keyboard) : Nat :=
  match m.consumer with
  | .take => m.ps2.eventCount + 1
  | _ => m.ps2.eventCount

/-- The events are taken in the order they came, and none is lost. -/
structure InOrder (m : Keyboard) : Prop where
  order : m.taken <+: m.produced
  kept : m.produced.length = m.taken.length + outstanding m

/-- A byte that completes a code comes when nothing is queued and the consumer is at its
test, and the code makes one event. -/
def OneAtATime (m : Keyboard) (ourGuy : UInt8) : Prop :=
  let code := m.ps2.keyBuf.toList.take m.ps2.keyBufCount ++ [ourGuy]
  ScanCode code → m.consumer = .test ∧ m.ps2.eventCount = 0 ∧ code ≠ pausePressed

def Handover (m : Keyboard) : Prop :=
  match m.consumer with
  | .test => m.ps2.eventCount ≤ 1 ∧ m.produced = m.taken ++ queued m.ps2
  | .load => m.ps2.eventCount = 1 ∧ m.produced = m.taken ++ queued m.ps2
  | .store count => count = 1 ∧ m.ps2.eventCount = 1 ∧ m.produced = m.taken ++ queued m.ps2
  | .take => m.ps2.eventCount = 0 ∧ m.produced = m.taken ++ [m.ps2.events[0]]

def Orderly (m : Keyboard) : Prop :=
  (∃ pending, Holding m.ps2 pending ∧ Waiting pending) ∧ Handover m

theorem queued_length (s : Ps2) (inside : s.eventCount ≤ 32) :
    (queued s).length = s.eventCount := by
  rw [queued, List.length_take, Vector.length_toList, min_eq_left inside]

theorem queued_one {s : Ps2} (one : s.eventCount = 1) : queued s = [s.events[0]] := by
  rw [queued, one, List.take_one]
  have present : s.events.toList[0]? = some s.events[0] := by simp
  rw [List.head?_eq_getElem?, present]
  rfl

theorem Emitted.added {s s' : Ps2} {events : List KeyboardEvent} (emitted : Emitted s s' events)
    (inside : s.eventCount ≤ 32) : added s s' = events := by
  rw [Drivers.added, emitted.2.1, List.drop_append_of_le_length (by rw [queued_length s inside])]
  rw [List.drop_of_length_le (by rw [queued_length s inside]), List.nil_append]

theorem orderly_boot : Orderly .boot :=
  ⟨⟨[], holding_boot, waiting_nil⟩, Nat.zero_le 1, rfl⟩

theorem Orderly.consumerStep {m m' : Keyboard} (orderly : Orderly m) (step : ConsumerStep m m') :
    Orderly m' := by
  obtain ⟨⟨pending, holding, waiting⟩, handover⟩ := orderly
  have buffer : ∃ pending, Holding m.ps2 pending ∧ Waiting pending := ⟨pending, holding, waiting⟩
  cases step with
  | empty at_ none => exact ⟨buffer, handover⟩
  | some at_ some =>
      simp only [Handover, at_] at handover
      have one : m.ps2.eventCount = 1 := by omega
      exact ⟨buffer, one, handover.2⟩
  | load at_ =>
      simp only [Handover, at_] at handover
      exact ⟨buffer, handover.1, handover⟩
  | store count at_ =>
      simp only [Handover, at_] at handover
      obtain ⟨one, single, order⟩ := handover
      exact ⟨buffer, by simp [one], by rw [order, queued_one single]⟩
  | take at_ inside =>
      simp only [Handover, at_] at handover
      obtain ⟨none, order⟩ := handover
      refine ⟨buffer, by simp [none], ?_⟩
      simp [order, queued, none]

theorem Orderly.interruptStep {m m' : Keyboard} {ourGuy : UInt8} (orderly : Orderly m)
    (allowed : OneAtATime m ourGuy) (step : InterruptStep ourGuy m m') : Orderly m' := by
  obtain ⟨⟨pending, holding, waiting⟩, handover⟩ := orderly
  have buffer : m.ps2.keyBuf.toList.take m.ps2.keyBufCount = pending := holding.1 ▸ holding.2
  simp only [OneAtATime, buffer] at allowed
  have room : ScanCode (pending ++ [ourGuy]) →
      m.ps2.eventCount + (typed (pending ++ [ourGuy])).length ≤ 32 := by
    intro complete
    obtain ⟨-, none, single⟩ := allowed complete
    rw [none, typed_one complete single]
    decide
  obtain ⟨ps2, ran, below⟩ := step
  rcases handler_cases holding waiting room ran with
    ⟨complete, next, same, emitted⟩ | ⟨kept, -, next, same, held, events, counted⟩ |
      ⟨-, fault, same⟩
  · cases same
    obtain ⟨at_, none, single⟩ := allowed complete
    have one : ps2.eventCount = 1 := by
      rw [emitted.2.2, none, typed_one complete single]
    simp only [Handover, at_] at handover
    have before : queued m.ps2 = [] := by simp [queued, none]
    refine ⟨⟨[], emitted.1, waiting_nil⟩, ?_⟩
    simp only [Handover, at_]
    refine ⟨by omega, ?_⟩
    rw [emitted.added (by omega), handover.2, emitted.2.1, before, List.append_nil,
      List.nil_append]
  · cases same
    have sameQueue : queued ps2 = queued m.ps2 := by rw [queued, events, counted, queued]
    have quiet : added m.ps2 ps2 = [] := by
      rw [added, sameQueue, List.drop_eq_nil_iff, queued, List.length_take]
      exact Nat.min_le_left _ _
    refine ⟨⟨_, held, kept⟩, ?_⟩
    have order := handover
    simp only [Handover, quiet, List.append_nil, events, counted, sameQueue] at order ⊢
    exact order
  · cases same

theorem Orderly.inOrder {m : Keyboard} (orderly : Orderly m) : InOrder m := by
  obtain ⟨-, handover⟩ := orderly
  cases at_ : m.consumer with
  | test =>
      simp only [Handover, at_] at handover
      refine ⟨⟨_, handover.2.symm⟩, ?_⟩
      rw [handover.2, List.length_append, queued_length _ (by omega), outstanding, at_]
  | load =>
      simp only [Handover, at_] at handover
      refine ⟨⟨_, handover.2.symm⟩, ?_⟩
      rw [handover.2, List.length_append, queued_length _ (by omega), outstanding, at_]
  | store count =>
      simp only [Handover, at_] at handover
      refine ⟨⟨_, handover.2.2.symm⟩, ?_⟩
      rw [handover.2.2, List.length_append, queued_length _ (by omega), outstanding, at_]
  | take =>
      simp only [Handover, at_] at handover
      refine ⟨⟨_, handover.2.symm⟩, ?_⟩
      rw [handover.2, List.length_append, outstanding, at_, handover.1]
      rfl

theorem orderly_of_interleaved {m : Keyboard} (run : Interleaved OneAtATime m) : Orderly m := by
  induction run with
  | boot => exact orderly_boot
  | consumer before step ih => exact ih.consumerStep step
  | interrupt before allowed step ih => exact ih.interruptStep allowed step

/-- Events that come one at a time are each taken once and in order. -/
theorem key_events_in_order {m : Keyboard} (run : Interleaved OneAtATime m) : InOrder m :=
  (orderly_of_interleaved run).inOrder

def keyA : KeyboardEvent := ⟨65, .unknown, false⟩

def keyB : KeyboardEvent := ⟨66, .unknown, false⟩

theorem keyBuf_first : 0 < 8 := by decide

def pressedA : Ps2 :=
  { Ps2.boot with
    keyBuf := Ps2.boot.keyBuf.set 0 0x1E keyBuf_first
    events := Ps2.boot.events.set 0 keyA
    eventCount := 1 }

def pressedAB : Ps2 :=
  { Ps2.boot with
    keyBuf := Ps2.boot.keyBuf.set 0 0x30 keyBuf_first
    events := (Ps2.boot.events.set 0 keyA).set 1 keyB
    eventCount := 2 }

theorem handler_pressedA : ps2Handler 0x1E .boot = .ok pressedA := by rfl

theorem handler_pressedAB : ps2Handler 0x30 pressedA = .ok pressedAB := by rfl

def takenA : Keyboard :=
  ⟨{ pressedA with eventCount := 0 }, .test, [keyA], [keyA]⟩

theorem key_events_in_order_one : InOrder takenA := by
  have pressed : InterruptStep 0x1E .boot ⟨pressedA, .test, [keyA], []⟩ :=
    .run .boot pressedA handler_pressedA (by decide)
  have allowed : OneAtATime .boot 0x1E := fun _ => ⟨rfl, rfl, by decide⟩
  have waiting := Interleaved.interrupt .boot allowed pressed
  have seen := waiting.consumer (.some _ rfl (by decide))
  have loaded := seen.consumer (.load _ rfl)
  have stored := loaded.consumer (.store _ 1 rfl)
  have taken := stored.consumer (.take _ rfl (by decide))
  exact key_events_in_order taken

/-- A and B typed before the thread runs: it takes B and A is left behind it. -/
theorem key_events_out_of_order :
    ¬∀ m, Interleaved (fun _ _ => True) m → InOrder m := by
  intro inOrder
  have first : InterruptStep 0x1E .boot ⟨pressedA, .test, [keyA], []⟩ :=
    .run .boot pressedA handler_pressedA (by decide)
  have second : InterruptStep 0x30 ⟨pressedA, .test, [keyA], []⟩
      ⟨pressedAB, .test, [keyA, keyB], []⟩ :=
    .run _ pressedAB handler_pressedAB (by decide)
  have start : Interleaved (fun _ _ => True) .boot := .boot
  have waiting := (start.interrupt trivial first).interrupt trivial second
  have seen := waiting.consumer (.some _ rfl (by decide))
  have loaded := seen.consumer (.load _ rfl)
  have stored := loaded.consumer (.store _ 2 rfl)
  have taken := stored.consumer (.take _ rfl (by decide))
  have order : [keyB] <+: [keyA, keyB] := (inOrder _ taken).order
  exact absurd order (by decide)

end Nyaux.Drivers
