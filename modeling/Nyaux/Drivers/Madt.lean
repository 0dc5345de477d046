import Mathlib.Data.List.Basic
import Mathlib.Logic.Function.Basic
import Nyaux.Lib.Word

/-! The walk of `apic_init` over the MADT.

A table is the memory from its first byte on; its own bytes end where the length field of its
header says. The pointers that the walk keeps lead into the table, which nobody writes to, so the
structures they point at are kept in their place. -/

namespace Nyaux.Drivers

open Word

abbrev Table := Nat → UInt8

def Table.field (table : Table) (place : Nat) : Nat → Nat
  | 0 => 0
  | n + 1 => (table place).toNat + 256 * table.field (place + 1) n

/-- `madt->hdr.length`. -/
def Table.length (table : Table) : Nat := table.field 4 4

/-- `sizeof(struct acpi_madt)`, where the entries start. -/
def madtSize : Nat := 44

def Table.entries (table : Table) : Table := fun offset => table (madtSize + offset)

/-- `madt->hdr.length - sizeof(*madt)`. -/
def lengthOfEntries (table : Table) : Nat := sub64 table.length madtSize

structure AcpiMadtIoapic where
  address : UInt32
  gsiBase : UInt32
  deriving DecidableEq

structure AcpiMadtInterruptSourceOverride where
  source : UInt8
  gsi : UInt32
  flags : UInt16
  deriving DecidableEq

/-- A slot of `ioapics`. -/
structure IoApic where
  info : AcpiMadtIoapic
  maxGsi : UInt8
  deriving DecidableEq

def readIoapic (entries : Table) (ent : Nat) : AcpiMadtIoapic where
  address := UInt32.ofNat (entries.field (ent + 4) 4)
  gsiBase := UInt32.ofNat (entries.field (ent + 8) 4)

def readOverride (entries : Table) (ent : Nat) : AcpiMadtInterruptSourceOverride where
  source := entries (ent + 3)
  gsi := UInt32.ofNat (entries.field (ent + 4) 4)
  flags := UInt16.ofNat (entries.field (ent + 8) 2)

/-- `get_ioapic_maxgsi`; `version` is what register 1 of the I/O APIC at an address holds. -/
def getIoapicMaxgsi (version : UInt32 → UInt32) (e : AcpiMadtIoapic) : UInt8 :=
  ((version e.address >>> 16) &&& 0xff).toUInt8

def typeIoapic : UInt8 := 1

def typeInterruptSourceOverride : UInt8 := 2

def typeLapicNmi : UInt8 := 4

/-- `offset`, `ioapics` up to `ioapiccount` and `isos`, with the entries that were inspected so
far. -/
structure MadtWalk where
  offset : Nat
  ioapics : List IoApic
  isos : UInt8 → Option AcpiMadtInterruptSourceOverride
  inspected : List Nat

def MadtWalk.start : MadtWalk := ⟨0, [], fun _ => none, []⟩

def MadtWalk.record (version : UInt32 → UInt32) (entries : Table) (s : MadtWalk) : MadtWalk :=
  let ent := s.offset
  if entries ent = typeInterruptSourceOverride then
    let ohcool := readOverride entries ent
    { s with isos := Function.update s.isos ohcool.source (some ohcool) }
  else if entries ent = typeIoapic then
    let blah := readIoapic entries ent
    { s with ioapics := s.ioapics ++ [⟨blah, getIoapicMaxgsi version blah⟩] }
  else s

/-- One turn of the loop. -/
def MadtWalk.step (version : UInt32 → UInt32) (entries : Table) (s : MadtWalk) : MadtWalk :=
  { s.record version entries with
    offset := add64 s.offset (entries (s.offset + 1)).toNat
    inspected := s.inspected ++ [s.offset] }

/-- `while (offset < length_of_entries)`. -/
def madtLoop (version : UInt32 → UInt32) (table : Table) : Nat → MadtWalk → Option MadtWalk
  | 0, _ => none
  | fuel + 1, s =>
      if s.offset < lengthOfEntries table then
        madtLoop version table fuel (s.step version table.entries)
      else some s

def entrySize (type : UInt8) : Nat :=
  if type = typeInterruptSourceOverride then 10
  else if type = typeIoapic then 12
  else if type = typeLapicNmi then 6
  else 2

def Table.EntryInside (table : Table) (ent : Nat) : Prop :=
  madtSize + ent + max (table.entries (ent + 1)).toNat (entrySize (table.entries ent)) ≤
    table.length

/-- From `ent` on the entries follow each other to the table's end. -/
inductive Entries (table : Table) : Nat → List Nat → Prop
  | done {ent : Nat} (last : madtSize + ent = table.length) : Entries table ent []
  | entry {ent : Nat} {rest : List Nat} (inside : table.EntryInside ent)
      (long : 1 ≤ (table.entries (ent + 1)).toNat)
      (later : Entries table (ent + (table.entries (ent + 1)).toNat) rest) :
      Entries table ent (ent :: rest)

def WellFormed (table : Table) (ents : List Nat) : Prop :=
  Entries table 0 ents ∧
    ∀ ent ∈ ents, entrySize (table.entries ent) ≤ (table.entries (ent + 1)).toNat

/-- The I/O APICs among the entries. -/
def ioapicEntries (table : Table) (ents : List Nat) : List Nat :=
  ents.filter fun ent => table.entries ent = typeIoapic

def foundIoapics (version : UInt32 → UInt32) (table : Table) (ents : List Nat) : List IoApic :=
  (ioapicEntries table ents).map fun ent =>
    ⟨readIoapic table.entries ent, getIoapicMaxgsi version (readIoapic table.entries ent)⟩

def foundOverrides (table : Table) (ents : List Nat) : List AcpiMadtInterruptSourceOverride :=
  (ents.filter fun ent => table.entries ent = typeInterruptSourceOverride).map fun ent =>
    readOverride table.entries ent

def lastOverride (overrides : List AcpiMadtInterruptSourceOverride) (source : UInt8) :
    Option AcpiMadtInterruptSourceOverride :=
  overrides.reverse.find? fun iso => iso.source = source

/-- The walk ends, looks at nothing behind the table, fills the 16 slots at most, and records what
a well-formed table lists. -/
def MadtWalked (version : UInt32 → UInt32) (table : Table) : Prop :=
  ∃ fuel s, madtLoop version table fuel .start = some s ∧
    (∀ ent ∈ s.inspected, table.EntryInside ent) ∧ s.ioapics.length ≤ 16 ∧
    ∀ ents, WellFormed table ents → s.ioapics = foundIoapics version table ents ∧
      ∀ source, s.isos source = lastOverride (foundOverrides table ents) source

section Walk

variable {version : UInt32 → UInt32} {table : Table} {s s' : MadtWalk} {ents later : List Nat}
  {ent fuel : Nat}

theorem Table.field_lt (table : Table) (place n : Nat) : table.field place n < 256 ^ n := by
  induction n generalizing place with
  | zero => exact Nat.one_pos
  | succ n ih =>
      have low := (table place).toNat_lt
      have high := ih (place + 1)
      rw [Table.field, pow_succ]
      omega

theorem Table.length_lt (table : Table) : table.length < 2 ^ 32 := table.field_lt 4 4

theorem lengthOfEntries_eq (header : madtSize ≤ table.length) :
    lengthOfEntries table = table.length - madtSize :=
  sub64_of_le header (table.length_lt.trans (by decide))

theorem two_le_entrySize (type : UInt8) : 2 ≤ entrySize type := by
  unfold entrySize
  split
  · decide
  · split
    · decide
    · split
      · decide
      · exact le_refl 2

theorem Table.EntryInside.bounds (inside : table.EntryInside ent) :
    madtSize + ent + (table.entries (ent + 1)).toNat ≤ table.length ∧
      madtSize + ent + 2 ≤ table.length := by
  have size := two_le_entrySize (table.entries ent)
  unfold Table.EntryInside at inside
  omega

theorem Entries.unique (first : Entries table ent ents) (second : Entries table ent later) :
    ents = later := by
  induction first generalizing later with
  | done last =>
      cases second with
      | done _ => rfl
      | entry inside _ _ =>
          have bounds := inside.bounds
          omega
  | entry inside _ _ ih =>
      cases second with
      | done last =>
          have bounds := inside.bounds
          omega
      | entry _ _ rest => rw [ih rest]

structure Recorded (version : UInt32 → UInt32) (table : Table) (ents : List Nat) (s : MadtWalk) :
    Prop where
  inspected : s.inspected = ents
  ioapics : s.ioapics = foundIoapics version table ents
  isos : ∀ source, s.isos source = lastOverride (foundOverrides table ents) source

theorem recorded_start (version : UInt32 → UInt32) (table : Table) :
    Recorded version table [] .start := ⟨rfl, rfl, fun _ => rfl⟩

theorem lastOverride_snoc (overrides : List AcpiMadtInterruptSourceOverride)
    (iso : AcpiMadtInterruptSourceOverride) :
    lastOverride (overrides ++ [iso]) =
      Function.update (lastOverride overrides) iso.source (some iso) := by
  funext source
  rw [lastOverride, List.reverse_append, List.reverse_singleton, List.singleton_append,
    List.find?_cons]
  by_cases same : iso.source = source
  · subst same
    rw [Function.update_self, decide_eq_true rfl]
  · rw [Function.update_of_ne (Ne.symm same), decide_eq_false same]
    rfl

theorem Recorded.step (recorded : Recorded version table ents s) :
    Recorded version table (ents ++ [s.offset]) (s.step version table.entries) := by
  have isos := funext recorded.isos
  by_cases override : table.entries s.offset = typeInterruptSourceOverride
  · have other : ¬ table.entries s.offset = typeIoapic := by
      rw [override]
      decide
    refine ⟨by rw [MadtWalk.step, recorded.inspected], ?_, fun source => ?_⟩
    · rw [foundIoapics, ioapicEntries, List.filter_append,
        List.filter_cons_of_neg (by simpa using other), List.filter_nil, List.append_nil]
      simp only [MadtWalk.step, MadtWalk.record, if_pos override]
      exact recorded.ioapics
    · rw [foundOverrides, List.filter_append, List.filter_cons_of_pos (by simpa using override),
        List.filter_nil, List.map_append, List.map_singleton, lastOverride_snoc]
      simp only [MadtWalk.step, MadtWalk.record, if_pos override, isos]
      rfl
  · refine ⟨by rw [MadtWalk.step, recorded.inspected], ?_, fun source => ?_⟩
    · by_cases ioapic : table.entries s.offset = typeIoapic
      · rw [foundIoapics, ioapicEntries, List.filter_append,
          List.filter_cons_of_pos (by simpa using ioapic), List.filter_nil, List.map_append]
        simp only [MadtWalk.step, MadtWalk.record, if_neg override, if_pos ioapic,
          recorded.ioapics]
        rfl
      · rw [foundIoapics, ioapicEntries, List.filter_append,
          List.filter_cons_of_neg (by simpa using ioapic), List.filter_nil, List.append_nil]
        simp only [MadtWalk.step, MadtWalk.record, if_neg override, if_neg ioapic]
        exact recorded.ioapics
    · rw [foundOverrides, List.filter_append, List.filter_cons_of_neg (by simpa using override),
        List.filter_nil, List.append_nil]
      have kept : (s.step version table.entries).isos = s.isos := by
        simp only [MadtWalk.step, MadtWalk.record, if_neg override]
        split <;> rfl
      rw [kept]
      exact recorded.isos source

theorem Entries.walked (chain : Entries table ent later) (here : s.offset = ent)
    (recorded : Recorded version table ents s) :
    ∃ fuel s', madtLoop version table fuel s = some s' ∧
      Recorded version table (ents ++ later) s' := by
  induction chain generalizing s ents with
  | done last =>
      have size : lengthOfEntries table = _ := lengthOfEntries_eq (by omega)
      refine ⟨1, s, ?_, by rwa [List.append_nil]⟩
      rw [madtLoop, if_neg (by omega)]
  | @entry ent rest inside long later ih =>
      have bounds := inside.bounds
      have short := table.length_lt
      have size : lengthOfEntries table = _ := lengthOfEntries_eq (by omega)
      have next : (s.step version table.entries).offset =
          ent + (table.entries (ent + 1)).toNat := by
        rw [MadtWalk.step, here]
        exact add64_of_lt (by omega)
      obtain ⟨fuel, s', ran, recorded'⟩ := ih next recorded.step
      refine ⟨fuel + 1, s', ?_, ?_⟩
      · rw [madtLoop, if_pos (by omega), ran]
      · rwa [List.append_assoc, List.singleton_append, here] at recorded'

theorem madtLoop_stuck (more : s.offset < lengthOfEntries table)
    (zero : (table.entries (s.offset + 1)).toNat = 0) :
    madtLoop version table fuel s = none := by
  induction fuel generalizing s with
  | zero => rfl
  | succ fuel ih =>
      have stays : (s.step version table.entries).offset = s.offset := by
        have word := add64_lt s.offset 0
        have bound : lengthOfEntries table < 2 ^ 64 := sub64_lt _ _
        rw [MadtWalk.step, zero]
        exact add64_of_lt (by omega)
      rw [madtLoop, if_pos more]
      exact ih (by rwa [stays]) (by rwa [stays])

theorem madtLoop_inspected (ran : madtLoop version table fuel s = some s') :
    s.inspected ⊆ s'.inspected := by
  induction fuel generalizing s with
  | zero => cases ran
  | succ fuel ih =>
      rw [madtLoop] at ran
      split at ran
      · have grown : s.inspected ⊆ (s.step version table.entries).inspected :=
          List.subset_append_left _ _
        exact List.Subset.trans grown (ih ran)
      · obtain rfl := Option.some.inj ran
        exact List.Subset.refl _

theorem entries_of_walked (ran : madtLoop version table fuel s = some s')
    (recorded : Recorded version table ents s) (header : madtSize ≤ table.length)
    (below : madtSize + s.offset ≤ table.length)
    (inside : ∀ ent ∈ s'.inspected, table.EntryInside ent) :
    ∃ later, Entries table s.offset later ∧ Recorded version table (ents ++ later) s' := by
  induction fuel generalizing s ents with
  | zero => cases ran
  | succ fuel ih =>
      have size := lengthOfEntries_eq header
      rw [madtLoop] at ran
      split at ran
      · rename_i more
        have member : s.offset ∈ s'.inspected :=
          madtLoop_inspected ran (List.mem_append_right _ (List.mem_singleton_self _))
        have bounds := (inside s.offset member).bounds
        have short := table.length_lt
        have next : (s.step version table.entries).offset =
            s.offset + (table.entries (s.offset + 1)).toNat := add64_of_lt (by omega)
        have long : 1 ≤ (table.entries (s.offset + 1)).toNat := by
          by_contra zero
          have again : madtLoop version table (fuel + 1) s = none := madtLoop_stuck more (by omega)
          rw [madtLoop, if_pos more, ran] at again
          cases again
        obtain ⟨later, chain, recorded'⟩ := ih ran recorded.step (by omega)
        rw [next] at chain
        rw [List.append_assoc] at recorded'
        exact ⟨s.offset :: later, .entry (inside s.offset member) long chain, recorded'⟩
      · rename_i ends
        obtain rfl := Option.some.inj ran
        exact ⟨[], .done (by omega), by rwa [List.append_nil]⟩

theorem Entries.inside (chain : Entries table ent ents) : ∀ e ∈ ents, table.EntryInside e := by
  induction chain with
  | done _ => exact fun e member => absurd member List.not_mem_nil
  | entry inside _ _ ih => exact List.forall_mem_cons.mpr ⟨inside, ih⟩

theorem header_of_walked (ran : madtLoop version table fuel .start = some s')
    (inside : ∀ ent ∈ s'.inspected, table.EntryInside ent) : madtSize ≤ table.length := by
  by_contra short
  have few := table.length_lt
  have wraps : MadtWalk.start.offset < lengthOfEntries table := by
    unfold lengthOfEntries sub64
    unfold madtSize at *
    rw [show MadtWalk.start.offset = 0 from rfl]
    omega
  cases fuel with
  | zero => cases ran
  | succ fuel =>
      rw [madtLoop, if_pos wraps] at ran
      have bounds := (inside 0 (madtLoop_inspected ran (List.mem_singleton_self 0))).bounds
      omega

end Walk

/-- The walk does what it should on the tables that entries of one byte at least make up to their
end, each with its structure inside, and with 16 I/O APICs at most. -/
theorem madt_walked_iff (version : UInt32 → UInt32) (table : Table) :
    MadtWalked version table ↔
      ∃ ents, Entries table 0 ents ∧ (ioapicEntries table ents).length ≤ 16 := by
  constructor
  · rintro ⟨fuel, s, ran, inside, few, -⟩
    have header := header_of_walked ran inside
    obtain ⟨ents, chain, recorded⟩ := entries_of_walked ran (recorded_start version table) header header inside
    rw [recorded.ioapics, List.nil_append, foundIoapics, List.length_map] at few
    exact ⟨ents, chain, few⟩
  · rintro ⟨ents, chain, few⟩
    obtain ⟨fuel, s, ran, recorded⟩ := chain.walked rfl (recorded_start version table)
    rw [List.nil_append] at recorded
    refine ⟨fuel, s, ran, ?_, ?_, ?_⟩
    · rw [recorded.inspected]
      exact chain.inside
    · rw [recorded.ioapics, foundIoapics, List.length_map]
      exact few
    · rintro others ⟨same, -⟩
      obtain rfl := chain.unique same
      exact ⟨recorded.ioapics, recorded.isos⟩

def zeroLengthEntry : Table := fun place => if place = 4 then 46 else 0

/-- The walk never leaves that entry. -/
theorem zero_length_walks_on : ¬ MadtWalked (fun _ => 0) zeroLengthEntry := by
  rintro ⟨fuel, s, ran, -⟩
  rw [madtLoop_stuck (by decide) (by decide)] at ran
  cases ran

end Nyaux.Drivers
