import Nyaux.Drivers.Madt

/-! `route_irq`: the stores it makes to the I/O APICs, and the redirection entry they write. -/

namespace Nyaux.Drivers

open Word

structure Store where
  address : Nat
  value : Nat
  deriving DecidableEq

namespace IoApic

def selection (offset : Nat) (theioapic : IoApic) : Nat :=
  add64 theioapic.info.address.toNat offset

/-- The read and write register. -/
def window (offset : Nat) (theioapic : IoApic) : Nat :=
  add64 (theioapic.info.address + 0x10).toNat offset

end IoApic

/-- `select_ioapic_register`; the register's number is a `uint8_t`. -/
def selectIoapicRegister (offset : Nat) (theioapic : IoApic) (ioapicReg : Nat) : Store :=
  ⟨theioapic.selection offset, ioapicReg % 256⟩

/-- `write_ioapic_selectedregister`; the data are a `uint32_t`. -/
def writeIoapicSelectedregister (offset : Nat) (theioapic : IoApic) (data : Nat) : Store :=
  ⟨theioapic.window offset, data % 2 ^ 32⟩

/-- What `apic_init` leaves behind. -/
structure Apic where
  ioapics : List IoApic
  isos : UInt8 → Option AcpiMadtInterruptSourceOverride

def IoApic.Takes (gsi : Nat) (e : IoApic) : Prop :=
  e.info.gsiBase.toNat ≤ gsi ∧ e.info.gsiBase.toNat + e.maxGsi.toNat > gsi

instance (gsi : Nat) (e : IoApic) : Decidable (e.Takes gsi) := inferInstanceAs (Decidable (_ ∧ _))

/-- `he` after the loop. -/
def findIoapic (ioapics : List IoApic) (gsi : Nat) : Option IoApic :=
  ioapics.foldl (fun he e => if e.Takes gsi then some e else he) none

/-- `meow`. -/
def redirection (vec : UInt8) (flags : UInt16) (lapicId : UInt32) : Nat :=
  let meow := vec.toNat ||| (0b000 <<< 8) ||| (0 <<< 11)
  let meow := if flags.toNat &&& 0b11 = 0b11 then meow ||| (1 <<< 13) else meow
  let meow := if (flags.toNat >>> 2) &&& 0b11 = 0b11 then meow ||| (1 <<< 15) else meow
  meow ||| (lapicId.toNat <<< 56 % 2 ^ 64)

/-- `uint8_t gsi`, after the overrides. -/
def Apic.gsi (s : Apic) (irq : UInt8) : UInt8 :=
  match s.isos irq with
  | some iso => iso.gsi.toUInt8
  | none => irq

def Apic.flags (s : Apic) (irq : UInt8) : UInt16 :=
  match s.isos irq with
  | some iso => iso.flags
  | none => 0

/-- The stores of `route_irq`: each half of `meow` goes to a register of its own. -/
def pinStores (offset : Nat) (he : IoApic) (reg meow : Nat) : List Store :=
  [selectIoapicRegister offset he reg, writeIoapicSelectedregister offset he meow,
    selectIoapicRegister offset he (reg + 1), writeIoapicSelectedregister offset he (meow >>> 32)]

def routeIrq (offset : Nat) (s : Apic) (irq : UInt8) (lapicId : UInt32) (vec : UInt8) :
    Bool × List Store :=
  let gsi := (s.gsi irq).toNat
  match findIoapic s.ioapics gsi with
  | none => (false, [])
  | some he =>
      (true, pinStores offset he (0x10 + (gsi - he.info.gsiBase.toNat) * 0x02)
        (redirection vec (s.flags irq) lapicId))

/-- The registers that an I/O APIC writes, with their values; its selection register, which holds
`selected`, has eight bits. -/
def IoApic.registerWrites (offset : Nat) (e : IoApic) : Nat → List Store → List (Nat × Nat)
  | _, [] => []
  | selected, store :: rest =>
      if store.address = e.selection offset then e.registerWrites offset (store.value % 256) rest
      else if store.address = e.window offset then
        (selected, store.value) :: e.registerWrites offset selected rest
      else e.registerWrites offset selected rest

structure WritesPin (offset : Nat) (e : IoApic) (pin entry : Nat) (stores : List Store) : Prop where
  registers : ∀ selected, e.registerWrites offset selected stores =
    [(0x10 + 2 * pin, entry % 2 ^ 32), (0x10 + 2 * pin + 1, entry / 2 ^ 32)]
  nowhere : ∀ store ∈ stores, store.address = e.selection offset ∨ store.address = e.window offset

structure Redirects (vec : UInt8) (flags : UInt16) (lapicId : UInt32) (entry : Nat) : Prop where
  vector : entry % 2 ^ 8 = vec.toNat
  fixed : entry / 2 ^ 8 % 2 ^ 5 = 0
  activeLow : entry / 2 ^ 13 % 2 = 1 ↔ flags.toNat % 4 = 3
  level : entry / 2 ^ 15 % 2 = 1 ↔ flags.toNat / 4 % 4 = 3
  unmasked : entry / 2 ^ 16 % 2 = 0
  reserved : entry / 2 ^ 17 % 2 ^ 39 = 0
  destination : entry / 2 ^ 56 = lapicId.toNat

def Apic.overridden (s : Apic) (irq : UInt8) : Nat :=
  match s.isos irq with
  | some iso => iso.gsi.toNat
  | none => irq.toNat

def IoApic.Contains (gsi : Nat) (e : IoApic) : Prop :=
  e.info.gsiBase.toNat ≤ gsi ∧ gsi ≤ e.info.gsiBase.toNat + e.maxGsi.toNat

/-- The I/O APICs of a machine, each with interrupts and an address of its own. -/
structure Apic.Registered (s : Apic) : Prop where
  few : s.ioapics.length ≤ 16
  disjoint : s.ioapics.Pairwise fun a b => ∀ gsi, ¬ (a.Contains gsi ∧ b.Contains gsi)
  apart : s.ioapics.Pairwise fun a b => a.info.address ≠ b.info.address

/-- The interrupt goes to the pin that it belongs to. -/
def RightPin (offset : Nat) (s : Apic) (irq : UInt8) (lapicId : UInt32) (vec : UInt8) : Prop :=
  (∀ e ∈ s.ioapics, e.Contains (s.overridden irq) →
    (routeIrq offset s irq lapicId vec).1 = true ∧
    ∃ entry, Redirects vec (s.flags irq) lapicId entry ∧
      WritesPin offset e (s.overridden irq - e.info.gsiBase.toNat) entry
        (routeIrq offset s irq lapicId vec).2) ∧
  ((∀ e ∈ s.ioapics, ¬ e.Contains (s.overridden irq)) →
    routeIrq offset s irq lapicId vec = (false, []))

/-- When it does: the interrupt's number fits eight bits, its pin is not the last one, and the
registers of the pin have numbers. One that belongs nowhere must not seem to belong somewhere
with its number cut off. -/
def ReachesPin (s : Apic) (irq : UInt8) : Prop :=
  (∀ e ∈ s.ioapics, e.Contains (s.overridden irq) →
    s.overridden irq < 256 ∧ s.overridden irq < e.info.gsiBase.toNat + e.maxGsi.toNat ∧
    s.overridden irq - e.info.gsiBase.toNat < 120) ∧
  ((∀ e ∈ s.ioapics, ¬ e.Contains (s.overridden irq)) →
    ∀ e ∈ s.ioapics, ¬ e.Takes (s.overridden irq % 256))

section Entry

variable {vec : UInt8} {flags : UInt16} {lapicId : UInt32}

theorem or_shifted (y : Nat) {x i : Nat} (below : x < 2 ^ i) : x ||| y <<< i = x + y * 2 ^ i := by
  rw [Nat.shiftLeft_eq, Nat.or_comm, Nat.mul_comm, ← Nat.two_pow_add_eq_or_of_lt below,
    Nat.add_comm]

theorem or_flag (flag : Prop) [Decidable flag] {x i : Nat} (below : x < 2 ^ i) :
    (if flag then x ||| 1 <<< i else x) = x + if flag then 2 ^ i else 0 := by
  split
  · rw [or_shifted 1 below, Nat.one_mul]
  · rfl

theorem redirection_eq (small : lapicId.toNat < 256) : redirection vec flags lapicId =
    vec.toNat + (if flags.toNat % 4 = 3 then 2 ^ 13 else 0) +
      (if flags.toNat / 4 % 4 = 3 then 2 ^ 15 else 0) + lapicId.toNat * 2 ^ 56 := by
  have low := vec.toNat_lt
  have mask (x : Nat) : x &&& 0b11 = x % 4 := Nat.and_two_pow_sub_one_eq_mod x 2
  have whole : lapicId.toNat <<< 56 % 2 ^ 64 = lapicId.toNat <<< 56 := by
    rw [Nat.shiftLeft_eq]
    exact Nat.mod_eq_of_lt (by omega)
  have plain : vec.toNat ||| (0b000 <<< 8) ||| (0 <<< 11) = vec.toNat := by simp
  unfold redirection
  rw [plain, whole, mask, mask, Nat.shiftRight_eq_div_pow]
  dsimp only
  rw [or_flag _ (show vec.toNat < 2 ^ 13 by omega), or_flag _ (by split <;> omega),
    or_shifted _ (by split <;> split <;> omega)]

theorem redirects (small : lapicId.toNat < 256) :
    Redirects vec flags lapicId (redirection vec flags lapicId) := by
  have low := vec.toNat_lt
  have entry : redirection vec flags lapicId = _ := redirection_eq small
  generalize redirection vec flags lapicId = meow at entry
  by_cases polarity : flags.toNat % 4 = 3
  · by_cases trigger : flags.toNat / 4 % 4 = 3
    · rw [if_pos polarity, if_pos trigger] at entry
      constructor <;> omega
    · rw [if_pos polarity, if_neg trigger] at entry
      constructor <;> omega
  · by_cases trigger : flags.toNat / 4 % 4 = 3
    · rw [if_neg polarity, if_pos trigger] at entry
      constructor <;> omega
    · rw [if_neg polarity, if_neg trigger] at entry
      constructor <;> omega

end Entry

section Route

variable {offset : Nat} {s : Apic} {irq vec : UInt8} {lapicId : UInt32} {e he : IoApic}
  {ioapics : List IoApic} {gsi pin : Nat}

theorem findIoapic_spec (ioapics : List IoApic) (gsi : Nat) :
    match findIoapic ioapics gsi with
    | some he => he ∈ ioapics ∧ he.Takes gsi
    | none => ∀ e ∈ ioapics, ¬ e.Takes gsi := by
  induction ioapics using List.reverseRecOn with
  | nil => exact fun e member => absurd member List.not_mem_nil
  | append_singleton front e ih =>
      rw [findIoapic, List.foldl_append, List.foldl_cons, List.foldl_nil]
      by_cases takes : e.Takes gsi
      · rw [if_pos takes]
        exact ⟨List.mem_append_right _ (List.mem_singleton_self e), takes⟩
      · rw [if_neg takes]
        rw [findIoapic] at ih
        split at ih
        · exact ⟨List.mem_append_left _ ih.1, ih.2⟩
        · intro other member
          rcases List.mem_append.mp member with earlier | last
          · exact ih other earlier
          · rwa [List.mem_singleton.mp last]

theorem IoApic.Takes.contains (takes : e.Takes gsi) : e.Contains gsi :=
  ⟨takes.1, takes.2.le⟩

theorem Apic.Registered.unique (registered : s.Registered) (inE : e ∈ s.ioapics)
    (inHe : he ∈ s.ioapics) (first : e.Contains gsi) (second : he.Contains gsi) : e = he := by
  by_contra different
  have symmetric : Std.Symm fun a b : IoApic => ∀ gsi, ¬ (a.Contains gsi ∧ b.Contains gsi) :=
    ⟨fun a b apart gsi both => apart gsi both.symm⟩
  exact registered.disjoint.forall inE inHe different gsi ⟨first, second⟩

theorem Apic.Registered.address (registered : s.Registered) (inE : e ∈ s.ioapics)
    (inHe : he ∈ s.ioapics) (same : e.info.address = he.info.address) : e = he := by
  by_contra different
  have symmetric : Std.Symm fun a b : IoApic => a.info.address ≠ b.info.address :=
    ⟨fun a b apart => Ne.symm apart⟩
  exact registered.apart.forall inE inHe different same

theorem gsi_eq (s : Apic) (irq : UInt8) : (s.gsi irq).toNat = s.overridden irq % 256 := by
  unfold Apic.gsi Apic.overridden
  cases s.isos irq with
  | none => exact (Nat.mod_eq_of_lt irq.toNat_lt).symm
  | some iso => exact UInt32.toNat_toUInt8 iso.gsi

theorem selection_ne_window (offset : Nat) (e : IoApic) : e.selection offset ≠ e.window offset := by
  have word := e.info.address.toNat_lt
  unfold IoApic.selection IoApic.window
  rw [UInt32.toNat_add]
  unfold add64
  rw [show (0x10 : UInt32).toNat = 16 from rfl]
  omega

theorem routeIrq_none (s : Apic) (lapicId : UInt32) (vec : UInt8)
    (none : findIoapic s.ioapics (s.gsi irq).toNat = none) :
    routeIrq offset s irq lapicId vec = (false, []) := by
  rw [routeIrq]
  simp only [none]

theorem routeIrq_some (s : Apic) (lapicId : UInt32) (vec : UInt8)
    (found : findIoapic s.ioapics (s.gsi irq).toNat = some he) :
    routeIrq offset s irq lapicId vec = (true, pinStores offset he
      (0x10 + ((s.gsi irq).toNat - he.info.gsiBase.toNat) * 0x02)
      (redirection vec (s.flags irq) lapicId)) := by
  rw [routeIrq]
  simp only [found]

theorem pinStores_writesPin (offset : Nat) (e : IoApic) {pin entry : Nat} (few : pin < 120)
    (word : entry < 2 ^ 64) : WritesPin offset e pin entry (pinStores offset e (0x10 + pin * 0x02) entry) := by
  have other := selection_ne_window offset e
  refine ⟨fun selected => ?_, ?_⟩
  · simp only [pinStores, selectIoapicRegister, writeIoapicSelectedregister,
      IoApic.registerWrites, if_true, if_neg other.symm]
    rw [Nat.shiftRight_eq_div_pow, Nat.mod_mod, Nat.mod_mod,
      Nat.mod_eq_of_lt (show 16 + pin * 2 < 256 by omega),
      Nat.mod_eq_of_lt (show 16 + pin * 2 + 1 < 256 by omega),
      Nat.mod_eq_of_lt (show entry / 2 ^ 32 < 2 ^ 32 by omega), Nat.mul_comm pin]
  · intro store member
    simp only [pinStores, selectIoapicRegister, writeIoapicSelectedregister, List.mem_cons,
      List.not_mem_nil, or_false] at member
    rcases member with rfl | rfl | rfl | rfl
    · exact Or.inl rfl
    · exact Or.inr rfl
    · exact Or.inl rfl
    · exact Or.inr rfl

theorem WritesPin.of_pinStores {reg meow entry : Nat}
    (writes : WritesPin offset e pin entry (pinStores offset he reg meow)) :
    e.info.address = he.info.address ∧ 0x10 + 2 * pin + 1 < 256 := by
  have first := writes.nowhere (selectIoapicRegister offset he reg) List.mem_cons_self
  have second := writes.nowhere (writeIoapicSelectedregister offset he meow)
    (List.mem_cons_of_mem _ List.mem_cons_self)
  have address : e.info.address = he.info.address := by
    have word := e.info.address.toNat_lt
    have word' := he.info.address.toNat_lt
    apply UInt32.toNat_inj.mp
    simp only [selectIoapicRegister, writeIoapicSelectedregister, IoApic.selection, IoApic.window,
      UInt32.toNat_add, UInt32.reduceToNat, add64] at first second
    omega
  have selection : he.selection offset = e.selection offset := by
    rw [IoApic.selection, IoApic.selection, address]
  have window : he.window offset = e.window offset := by
    rw [IoApic.window, IoApic.window, address]
  have other := selection_ne_window offset e
  have registers := writes.registers 0
  simp only [pinStores, selectIoapicRegister, writeIoapicSelectedregister, selection, window,
    IoApic.registerWrites, if_true, if_neg other.symm, List.cons.injEq, Prod.mk.injEq] at registers
  exact ⟨address, by omega⟩

theorem redirection_lt {vec : UInt8} {flags : UInt16} (small : lapicId.toNat < 256) :
    redirection vec flags lapicId < 2 ^ 64 := by
  have low := vec.toNat_lt
  rw [redirection_eq small]
  split <;> split <;> omega

theorem findIoapic_eq (registered : s.Registered) (inE : e ∈ s.ioapics) (takes : e.Takes gsi) :
    findIoapic s.ioapics gsi = some e := by
  have spec := findIoapic_spec s.ioapics gsi
  split at spec
  · rename_i he found
    rw [found, registered.unique inE spec.1 takes.contains spec.2.contains]
  · exact absurd takes (spec e inE)

theorem rightPin_of_reaches (registered : s.Registered) (small : lapicId.toNat < 256)
    (reaches : ReachesPin s irq) : RightPin offset s irq lapicId vec := by
  obtain ⟨onPin, nowhere⟩ := reaches
  refine ⟨?_, ?_⟩
  · intro e inE contains
    obtain ⟨short, before, few⟩ := onPin e inE contains
    have gsi : (s.gsi irq).toNat = s.overridden irq := by
      rw [gsi_eq, Nat.mod_eq_of_lt short]
    have found := findIoapic_eq registered inE ⟨contains.1, before⟩
    rw [← gsi] at found
    rw [routeIrq_some s lapicId vec found, gsi]
    exact ⟨rfl, _, redirects small, pinStores_writesPin offset e few (redirection_lt small)⟩
  · intro none
    have spec := findIoapic_spec s.ioapics (s.gsi irq).toNat
    split at spec
    · rename_i he found
      rw [gsi_eq] at spec
      exact absurd spec.2 (nowhere none he spec.1)
    · rename_i found
      exact routeIrq_none s lapicId vec found

theorem reaches_of_rightPin (registered : s.Registered)
    (right : RightPin offset s irq lapicId vec) : ReachesPin s irq := by
  obtain ⟨onPin, nowhere⟩ := right
  have spec := findIoapic_spec s.ioapics (s.gsi irq).toNat
  refine ⟨?_, ?_⟩
  · intro e inE contains
    obtain ⟨routed, entry, -, writes⟩ := onPin e inE contains
    split at spec
    · rename_i he found
      rw [routeIrq_some s lapicId vec found] at writes
      obtain ⟨address, few⟩ := writes.of_pinStores
      obtain rfl := registered.address inE spec.1 address
      have takes := spec.2
      rw [gsi_eq] at takes
      have most := e.maxGsi.toNat_lt
      obtain ⟨lower, upper⟩ := contains
      obtain ⟨above, below⟩ := takes
      omega
    · rename_i found
      rw [routeIrq_none s lapicId vec found] at routed
      cases routed
  · intro none e inE takes
    rw [← gsi_eq] at takes
    rw [routeIrq_some s lapicId vec (findIoapic_eq registered inE takes)] at nowhere
    have routed := congrArg Prod.fst (nowhere none)
    cases routed

end Route

/-- An interrupt is routed to the pin that it belongs to just when its number fits eight bits, the
pin is neither the last of its I/O APIC nor beyond the numbered registers, and no number is cut
off into the range of an I/O APIC. -/
theorem route_irq_iff (offset : Nat) (s : Apic) (irq : UInt8) (lapicId : UInt32) (vec : UInt8)
    (registered : s.Registered) (small : lapicId.toNat < 256) :
    RightPin offset s irq lapicId vec ↔ ReachesPin s irq :=
  ⟨reaches_of_rightPin registered, rightPin_of_reaches registered small⟩

def oneIoapic : Apic := ⟨[⟨⟨0xFEC00000, 0⟩, 23⟩], fun _ => none⟩

theorem oneIoapic_registered : oneIoapic.Registered :=
  ⟨by decide, List.pairwise_singleton _ _, List.pairwise_singleton _ _⟩

theorem route_irq_iff_keyboard : RightPin 0 oneIoapic 1 0 33 := by
  refine (route_irq_iff 0 oneIoapic 1 0 33 oneIoapic_registered (by decide)).mpr ⟨?_, ?_⟩
  · intro e member contains
    obtain rfl := List.mem_singleton.mp member
    exact ⟨by decide, by decide, by decide⟩
  · intro none
    exact absurd ⟨by decide, by decide⟩ (none _ (List.mem_singleton_self _))

/-- The last of its pins is never routed. -/
theorem last_pin_not_routed : ¬ RightPin 0 oneIoapic 23 0 33 := by
  rintro ⟨onPin, -⟩
  obtain ⟨routed, -⟩ := onPin _ (List.mem_singleton_self _) ⟨by decide, by decide⟩
  exact absurd routed (by decide)

end Nyaux.Drivers
