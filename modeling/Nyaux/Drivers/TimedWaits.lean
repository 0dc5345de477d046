import Nyaux.Lib.Word

/-! `ksleep` and `uacpi_kernel_stall`, which poll the HPET's main counter. -/

namespace Nyaux.Drivers

open Word

/-- The capabilities register: the upper half is the period of the main counter in
femtoseconds. -/
structure Hpet where
  capabilities : Nat
  word : capabilities < 2 ^ 64

namespace Hpet

def period (hpet : Hpet) : Nat := (hpet.capabilities >>> 32) &&& 0xFFFFFFFF

/-- `time_per_tick_hpet`, in nanoseconds. -/
def timePerTick (hpet : Hpet) : Nat := hpet.period / 1000000

end Hpet

/-- What the reads of the main counter find: the ticks gone by since the first read, with at
most `lag` of them between two reads. -/
structure Reads (lag : Nat) where
  start : Nat
  ticks : Nat → Nat
  first : ticks 0 = 0
  forward : ∀ k, ticks k ≤ ticks (k + 1)
  close : ∀ k, ticks (k + 1) ≤ ticks k + lag
  runs : ∀ n, ∃ k, n ≤ ticks k

def Reads.counter {lag : Nat} (reads : Reads lag) (k : Nat) : Nat :=
  (reads.start + reads.ticks k) % 2 ^ 64

/-- `(*poll_cur - poll_start) * time_per_tick_hpet < ms * 1000000`, at read `k`. -/
def Waits (timePerTick ms : Nat) (counter : Nat → Nat) (k : Nat) : Prop :=
  sub64 (counter k) (counter 0) * timePerTick % 2 ^ 64 < ms * 1000000 % 2 ^ 64

instance (timePerTick ms : Nat) (counter : Nat → Nat) (k : Nat) :
    Decidable (Waits timePerTick ms counter k) := inferInstanceAs (Decidable (_ < _))

/-- The loop of `ksleep` from read `k` on; it ends with the read that it returned at. -/
def pollCounter (timePerTick ms : Nat) (counter : Nat → Nat) : Nat → Nat → Option Nat
  | 0, _ => none
  | fuel + 1, k =>
      if Waits timePerTick ms counter k then pollCounter timePerTick ms counter fuel (k + 1)
      else some k

/-- Read 0 is `poll_start`. -/
def ksleep (hpet : Hpet) (ms : Nat) (counter : Nat → Nat) (fuel : Nat) : Option Nat :=
  pollCounter hpet.timePerTick ms counter fuel 1

def uacpiKernelStall (hpet : Hpet) (usec : UInt8) (counter : Nat → Nat) (fuel : Nat) :
    Option Nat := ksleep hpet (usec.toNat * 1000) counter fuel

section Loop

variable {timePerTick ms fuel k d : Nat} {counter : Nat → Nat}

theorem pollCounter_stops (waits : ∀ j < d, Waits timePerTick ms counter (k + j))
    (ends : ¬ Waits timePerTick ms counter (k + d)) :
    pollCounter timePerTick ms counter (d + 1) k = some (k + d) := by
  induction d generalizing k with
  | zero =>
      rw [Nat.add_zero] at ends
      rw [pollCounter, if_neg ends, Nat.add_zero]
  | succ d ih =>
      have first : Waits timePerTick ms counter k := waits 0 (Nat.succ_pos d)
      rw [pollCounter, if_pos first]
      rw [show k + (d + 1) = k + 1 + d by omega] at ends ⊢
      apply ih _ ends
      intro j inside
      rw [show k + 1 + j = k + (j + 1) by omega]
      exact waits (j + 1) (by omega)

theorem pollCounter_stopped (stopped : pollCounter timePerTick ms counter fuel k = some d) :
    ¬ Waits timePerTick ms counter d := by
  induction fuel generalizing k with
  | zero => cases stopped
  | succ fuel ih =>
      rw [pollCounter] at stopped
      split at stopped
      · exact ih stopped
      · rename_i ends
        exact Option.some.inj stopped ▸ ends

end Loop

section Time

variable {lag : Nat} {reads : Reads lag} {timePerTick ms k : Nat}

theorem Reads.passed (reads : Reads lag) (k : Nat) :
    sub64 (reads.counter k) (reads.counter 0) = reads.ticks k % 2 ^ 64 := by
  unfold Reads.counter sub64
  rw [reads.first]
  omega

theorem Reads.late (short : ms < 2 ^ 44) (ends : ¬ Waits timePerTick ms reads.counter k) :
    ms * 1000000 ≤ reads.ticks k * timePerTick := by
  have fits : ms * 1000000 % 2 ^ 64 = ms * 1000000 := Nat.mod_eq_of_lt (by omega)
  rw [Waits, fits, reads.passed, Nat.not_lt] at ends
  calc ms * 1000000
      ≤ reads.ticks k % 2 ^ 64 * timePerTick % 2 ^ 64 := ends
    _ ≤ reads.ticks k % 2 ^ 64 * timePerTick := Nat.mod_le _ _
    _ ≤ reads.ticks k * timePerTick := Nat.mul_le_mul_right _ (Nat.mod_le _ _)

theorem Reads.waits_iff (short : ms < 2 ^ 44) (positive : 1 ≤ timePerTick)
    (below : reads.ticks k * timePerTick < 2 ^ 64) :
    Waits timePerTick ms reads.counter k ↔ reads.ticks k * timePerTick < ms * 1000000 := by
  have few : reads.ticks k < 2 ^ 64 :=
    Nat.lt_of_le_of_lt (Nat.le_mul_of_pos_right _ positive) below
  rw [Waits, reads.passed, Nat.mod_eq_of_lt few, Nat.mod_eq_of_lt below,
    Nat.mod_eq_of_lt (show ms * 1000000 < 2 ^ 64 by omega)]

theorem Reads.wait_ends (reads : Reads lag) (short : ms < 2 ^ 44) (positive : 1 ≤ timePerTick)
    (coarse : timePerTick ≤ 100) (close : lag ≤ 2 ^ 52) :
    ∃ d, pollCounter timePerTick ms reads.counter (d + 1) 1 = some (1 + d) := by
  have reached : ∃ d, ms * 1000000 ≤ reads.ticks (1 + d) * timePerTick := by
    obtain ⟨k, far⟩ := reads.runs (ms * 1000000)
    refine ⟨k, (far.trans ?_).trans (Nat.le_mul_of_pos_right _ positive)⟩
    rw [Nat.add_comm]
    exact reads.forward k
  have before : ∀ j < Nat.find reached, reads.ticks (1 + j) * timePerTick < ms * 1000000 :=
    fun j earlier => Nat.not_le.mp (Nat.find_min reached earlier)
  refine ⟨Nat.find reached, pollCounter_stops ?_ ?_⟩
  · intro j earlier
    have low := before j earlier
    exact (Reads.waits_iff short positive (by omega)).mpr low
  · have last : reads.ticks (Nat.find reached) * timePerTick ≤ ms * 1000000 := by
      cases here : Nat.find reached with
      | zero => rw [reads.first, Nat.zero_mul]; exact Nat.zero_le _
      | succ d =>
          have low := before d (by omega)
          rw [Nat.add_comm] at low
          exact low.le
    have step : reads.ticks (1 + Nat.find reached) * timePerTick ≤
        reads.ticks (Nat.find reached) * timePerTick + 2 ^ 52 * 100 := by
      rw [Nat.add_comm 1]
      calc reads.ticks (Nat.find reached + 1) * timePerTick
          ≤ (reads.ticks (Nat.find reached) + lag) * timePerTick :=
            Nat.mul_le_mul_right _ (reads.close _)
        _ = reads.ticks (Nat.find reached) * timePerTick + lag * timePerTick := Nat.add_mul _ _ _
        _ ≤ _ := Nat.add_le_add_left (Nat.mul_le_mul close coarse) _
    rw [Reads.waits_iff short positive (by omega), Nat.not_lt]
    exact Nat.find_spec reached

theorem waits_forever (short : ms < 2 ^ 44) (positive : 0 < ms) (counter : Nat → Nat) (k : Nat) :
    Waits 0 ms counter k := by
  rw [Waits, Nat.mul_zero, Nat.zero_mod, Nat.mod_eq_of_lt (by omega)]
  omega

end Time

section Waits

variable {lag : Nat} {hpet : Hpet} {reads : Reads lag} {ms fuel k : Nat}

theorem ksleep_late (short : ms < 2 ^ 44)
    (returned : ksleep hpet ms reads.counter fuel = some k) :
    ms * 10 ^ 12 ≤ reads.ticks k * hpet.period := by
  have counted := Reads.late short (pollCounter_stopped returned)
  have rounded : hpet.timePerTick * 1000000 ≤ hpet.period := Nat.div_mul_le_self _ _
  calc ms * 10 ^ 12
      = ms * 1000000 * 1000000 := by omega
    _ ≤ reads.ticks k * hpet.timePerTick * 1000000 := Nat.mul_le_mul_right _ counted
    _ = reads.ticks k * (hpet.timePerTick * 1000000) := Nat.mul_assoc _ _ _
    _ ≤ reads.ticks k * hpet.period := Nat.mul_le_mul_left _ rounded

theorem ksleep_zero (hpet : Hpet) (counter : Nat → Nat) : ksleep hpet 0 counter 1 = some 1 := by
  have ends : ¬ Waits hpet.timePerTick 0 counter 1 := by
    rw [Waits, Nat.zero_mul, Nat.zero_mod]
    exact Nat.not_lt_zero _
  rw [ksleep, pollCounter, if_neg ends]

theorem ksleep_endless (short : ms < 2 ^ 44) (positive : 0 < ms) (fine : hpet.period < 1000000) :
    ksleep hpet ms reads.counter fuel ≠ some k := by
  intro returned
  have none : hpet.timePerTick = 0 := Nat.div_eq_of_lt fine
  apply pollCounter_stopped returned
  rw [none]
  exact waits_forever short positive _ k

end Waits

/-- The two requests. -/
inductive TimedWait
  | ksleep (ms : Nat)
  | stall (usec : UInt8)

namespace TimedWait

def InRange : TimedWait → Prop
  | .ksleep ms => ms < 2 ^ 44
  | .stall _ => True

/-- How many ticks may go by between two reads. The bound of a stall asks for a close watch. -/
def lag : TimedWait → Nat
  | .ksleep _ => 2 ^ 52
  | .stall _ => 2

/-- The wait returns and has taken the time it should, in femtoseconds of counter time. -/
def Kept (hpet : Hpet) {lag : Nat} (reads : Reads lag) : TimedWait → Prop
  | .ksleep ms => ∃ fuel k, Drivers.ksleep hpet ms reads.counter fuel = some k ∧
      ms * 10 ^ 12 ≤ reads.ticks k * hpet.period
  | .stall usec => ∃ fuel k, uacpiKernelStall hpet usec reads.counter fuel = some k ∧
      usec.toNat * 10 ^ 9 ≤ reads.ticks k * hpet.period ∧
      reads.ticks k * hpet.period ≤ 2 * (usec.toNat * 10 ^ 9) + 2 * hpet.period

/-- When it does: sleeps need a period of a nanosecond at least, and no stall is short enough. -/
def Works (hpet : Hpet) : TimedWait → Prop
  | .ksleep ms => ms = 0 ∨ 1000000 ≤ hpet.period
  | .stall usec => usec = 0

end TimedWait

section Kept

variable {lag : Nat} {hpet : Hpet}

theorem ksleep_kept_iff {ms : Nat} (reads : Reads lag) (slow : hpet.period ≤ 100000000)
    (close : lag ≤ 2 ^ 52) (short : ms < 2 ^ 44) :
    (TimedWait.ksleep ms).Kept hpet reads ↔ ms = 0 ∨ 1000000 ≤ hpet.period := by
  constructor
  · rintro ⟨fuel, k, returned, -⟩
    by_contra neither
    exact ksleep_endless short (by omega) (by omega) returned
  · rintro (rfl | coarse)
    · exact ⟨1, 1, ksleep_zero hpet _, by rw [Nat.zero_mul]; exact Nat.zero_le _⟩
    · have positive : 1 ≤ hpet.timePerTick := Nat.div_pos coarse (by decide)
      have small : hpet.timePerTick ≤ 100 := Nat.div_le_of_le_mul slow
      obtain ⟨d, returned⟩ := reads.wait_ends short positive small close
      exact ⟨d + 1, 1 + d, returned, ksleep_late short returned⟩

theorem stall_late {usec : UInt8} {reads : Reads lag} {fuel k : Nat}
    (returned : uacpiKernelStall hpet usec reads.counter fuel = some k) :
    usec.toNat * 1000 * 10 ^ 12 ≤ reads.ticks k * hpet.period := by
  have bound := usec.toNat_lt
  exact ksleep_late (by omega) returned

theorem stall_kept_iff {usec : UInt8} (reads : Reads lag) (slow : hpet.period ≤ 100000000)
    (close : lag ≤ 2) : (TimedWait.stall usec).Kept hpet reads ↔ usec = 0 := by
  constructor
  · rintro ⟨fuel, k, returned, -, short⟩
    have long := stall_late returned
    apply UInt8.toNat_inj.mp
    rw [show (0 : UInt8).toNat = 0 from rfl]
    omega
  · rintro rfl
    have soon : reads.ticks 1 ≤ 2 := (reads.close 0).trans (by rw [reads.first]; omega)
    refine ⟨1, 1, ksleep_zero hpet _, Nat.zero_le _, ?_⟩
    exact (Nat.mul_le_mul_right hpet.period soon).trans (Nat.le_add_left _ _)

end Kept

/-- Sleeps last long enough and end unless the counter's period is below a nanosecond; a stall
takes a million times too long. -/
theorem timed_waits_iff (hpet : Hpet) (request : TimedWait) (reads : Reads request.lag)
    (period : 1 ≤ hpet.period ∧ hpet.period ≤ 100000000) (range : request.InRange) :
    request.Kept hpet reads ↔ request.Works hpet := by
  cases request with
  | ksleep ms => exact ksleep_kept_iff reads period.2 (le_refl _) range
  | stall usec => exact stall_kept_iff reads period.2 (le_refl _)

def commonHpet : Hpet := ⟨100000000 * 2 ^ 32, by decide⟩

def everyTick (lag : Nat) (some : 1 ≤ lag) : Reads lag where
  start := 0
  ticks := id
  first := rfl
  forward k := Nat.le_succ k
  close k := Nat.add_le_add_left some k
  runs n := ⟨n, le_refl n⟩

theorem timed_waits_iff_common :
    (TimedWait.ksleep 10).Kept commonHpet (everyTick (2 ^ 52) (by decide)) :=
  (timed_waits_iff commonHpet (.ksleep 10) (everyTick (2 ^ 52) (by decide)) (by decide)
    (show 10 < 2 ^ 44 by decide)).mpr (Or.inr (by decide))

def fineHpet : Hpet := ⟨500000 * 2 ^ 32, by decide⟩

/-- A stall of one microsecond lasts a second, and a sleep on a fine counter does not end. -/
theorem waits_not_kept :
    ¬ (TimedWait.stall 1).Kept commonHpet (everyTick 2 (by decide)) ∧
    ¬ (TimedWait.ksleep 1).Kept fineHpet (everyTick (2 ^ 52) (by decide)) := by
  refine ⟨?_, ?_⟩
  · rintro ⟨fuel, k, returned, -, short⟩
    have long := stall_late returned
    have period : commonHpet.period = 100000000 := by decide
    rw [period] at long short
    rw [show (1 : UInt8).toNat = 1 from rfl] at long short
    omega
  · rintro ⟨fuel, k, returned, -⟩
    exact ksleep_endless (by decide) (by decide) (by decide) returned

end Nyaux.Drivers
