import Nyaux.Elf.ImageExact

/-! The words that `load_elf_program` leaves on the stack of a new thread. -/

namespace Nyaux.Elf

open Word Memory Paging Fs Mm ByteMap

def Holds (offset pml4 : Nat) (mem : Mem) (addr : Nat) (bytes : List UInt8) : Prop :=
  ∀ i b, bytes[i]? = some b → userByte offset pml4 mem (addr + i) = some b

section Holds

variable {offset : Nat} {pages : List Nat} {stock : Mem → List Slab → Prop} {pml4 : Nat}
  {k : Kernel} {tables : List (List Nat × Nat)} {own : Multiset Nat} {mem mem' : Mem}
  {addr dest n : Nat} {bytes first second : List UInt8}

theorem Holds.nil : Holds offset pml4 mem addr [] := by
  intro i b found
  cases found

theorem Holds.cons_iff {b : UInt8} : Holds offset pml4 mem addr (b :: bytes) ↔
    userByte offset pml4 mem addr = some b ∧ Holds offset pml4 mem (addr + 1) bytes := by
  constructor
  · intro holds
    refine ⟨holds 0 b rfl, fun i c found => ?_⟩
    rw [show addr + 1 + i = addr + (i + 1) by omega]
    exact holds (i + 1) c found
  · rintro ⟨head, tail⟩ i c found
    cases i with
    | zero =>
        obtain rfl := Option.some.inj found
        exact head
    | succ i =>
        rw [show addr + (i + 1) = addr + 1 + i by omega]
        exact tail i c found

theorem Holds.append_iff : Holds offset pml4 mem addr (first ++ second) ↔
    Holds offset pml4 mem addr first ∧ Holds offset pml4 mem (addr + first.length) second := by
  induction first generalizing addr with
  | nil => exact ⟨fun holds => ⟨Holds.nil, holds⟩, fun both => both.2⟩
  | cons b rest ih =>
      rw [List.cons_append, Holds.cons_iff, Holds.cons_iff, ih, and_assoc, List.length_cons,
        show addr + 1 + rest.length = addr + (rest.length + 1) by omega]

theorem writeBytes_holds (user : UserHalf offset pages stock pml4 k tables own)
    (usable : Usable pages) (nodes : Stable stock (cacheFor 32)) (low : dest + bytes.length ≤ 2 ^ 47)
    (ran : writeBytes offset pml4 dest bytes k.mem = .ok mem') :
    Holds offset pml4 mem' dest bytes := by
  intro i b found
  obtain ⟨inside, -⟩ := List.getElem?_eq_some_iff.mp found
  rw [(writeBytes_spec user usable nodes low ran).2 (dest + i) (by omega), Write.at,
    if_pos (Nat.le_add_right _ _), Nat.add_sub_cancel_left, found]
  rfl

theorem writeBytes_keeps (user : UserHalf offset pages stock pml4 k tables own)
    (usable : Usable pages) (nodes : Stable stock (cacheFor 32)) (low : dest + bytes.length ≤ 2 ^ 47)
    (ran : writeBytes offset pml4 dest bytes k.mem = .ok mem') (behind : dest + bytes.length ≤ addr)
    (top : addr + second.length ≤ 2 ^ 47) (holds : Holds offset pml4 k.mem addr second) :
    Holds offset pml4 mem' addr second := by
  intro i b found
  obtain ⟨inside, -⟩ := List.getElem?_eq_some_iff.mp found
  rw [(writeBytes_spec user usable nodes low ran).2 (addr + i) (by omega),
    at_of_outside _ _ fun covered => by
      have stop := covered.2
      unfold Write.stop at stop
      dsimp only at stop
      omega,
    Option.none_or]
  exact holds i b found

theorem readBytes_holds (low : addr + n ≤ 2 ^ 47)
    (ran : readBytes offset pml4 mem addr n = .ok bytes) : Holds offset pml4 mem addr bytes := by
  induction n generalizing addr bytes with
  | zero =>
      obtain rfl := Except.ok.inj ran
      exact Holds.nil
  | succ n ih =>
      rw [readBytes, access_user (by omega)] at ran
      cases found : Mm.translate offset mem pml4 addr with
      | none =>
          rw [found] at ran
          cases ran
      | some source =>
          rw [found] at ran
          obtain ⟨rest, read, same⟩ := of_bind_ok ran
          obtain rfl := Except.ok.inj same
          rw [add64_of_lt (by omega)] at read
          refine Holds.cons_iff.mpr ⟨?_, ih (by omega) read⟩
          rw [userByte, found]
          rfl

theorem Holds.starts (holds : Holds offset pml4 mem addr first)
    (other : Holds offset pml4 mem addr second) (short : first.length ≤ second.length) :
    first <+: second := by
  rw [List.prefix_iff_getElem?]
  intro i inside
  have found : second[i]? = some (second.get ⟨i, by omega⟩) := List.getElem?_eq_getElem (by omega)
  have here := holds i first[i] (List.getElem?_eq_getElem inside)
  rw [other i _ found] at here
  rw [found, Option.some.inj here]

theorem pushAll_holds {pushes : List (List UInt8)} {window window' : Nat} {old : List UInt8}
    (user : UserHalf offset pages stock pml4 k tables own) (usable : Usable pages)
    (nodes : Stable stock (cacheFor 32)) (fits : window + pushedSize pushes ≤ 512000)
    (size : old.length ≤ window) (holds : Holds offset pml4 k.mem (stackTop - window) old)
    (ran : pushAll offset pml4 stackTop pushes window k.mem = .ok (window', mem')) :
    Holds offset pml4 mem' (stackTop - window') (pushes.reverse.flatten ++ old) := by
  have top := stackTop_eq
  induction pushes generalizing k window old with
  | nil =>
      obtain ⟨rfl, rfl⟩ := Prod.mk.inj (Except.ok.inj ran)
      exact holds
  | cons bytes rest ih =>
      rw [pushedSize_cons] at fits
      obtain ⟨mem₁, wrote, ran⟩ := of_bind_ok ran
      rw [add64_of_lt (by omega)] at wrote ran
      obtain ⟨place, above, low⟩ := push_place (window + bytes.length) (by omega)
      rw [place] at wrote
      obtain ⟨user₁, -⟩ := writeBytes_stack user usable nodes above (by omega) wrote
      have next : stackTop - (window + bytes.length) + bytes.length = stackTop - window := by omega
      have pushed : Holds offset pml4 mem₁ (stackTop - (window + bytes.length)) (bytes ++ old) := by
        refine Holds.append_iff.mpr
          ⟨writeBytes_holds user usable nodes (by omega) wrote, ?_⟩
        rw [next]
        exact writeBytes_keeps user usable nodes (by omega) wrote (Nat.le_of_eq next) (by omega) holds
      have later := ih user₁ (by omega) (by rw [List.length_append]; omega) pushed ran
      rw [List.reverse_cons, List.flatten_append, List.flatten_singleton, List.append_assoc]
      exact later

theorem alignWindow_holds {window window' : Nat}
    (user : UserHalf offset pages stock pml4 k tables own) (usable : Usable pages)
    (nodes : Stable stock (cacheFor 32)) (fits : window ≤ 512000) (size : bytes.length ≤ window)
    (holds : Holds offset pml4 k.mem (stackTop - window) bytes)
    (ran : alignWindow offset pml4 stackTop window k.mem = .ok (window', mem')) :
    window ≤ window' ∧ window' ≤ 512000 ∧ window' % 16 = 0 ∧
      Holds offset pml4 mem' (stackTop - window') bytes := by
  have top := stackTop_eq
  rw [alignWindow] at ran
  split at ran
  · obtain ⟨mem₁, moved, returned⟩ := of_bind_ok ran
    obtain ⟨rfl, rfl⟩ := Prod.mk.inj (Except.ok.inj returned)
    obtain ⟨copied, read, wrote⟩ := of_bind_ok moved
    have length := readBytes_length read
    obtain ⟨source, -, -⟩ := push_place window fits
    rw [source] at read
    rw [add64_of_lt (by omega)] at wrote ⊢
    obtain ⟨place, above, low⟩ := push_place (window + (16 - window % 16)) (by omega)
    rw [place] at wrote
    refine ⟨by omega, by omega, by omega, ?_⟩
    obtain ⟨rest, rfl⟩ := holds.starts (readBytes_holds (by omega) read) (by omega)
    exact (Holds.append_iff.mp (writeBytes_holds user usable nodes (by omega) wrote)).1
  · obtain ⟨rfl, rfl⟩ := Prod.mk.inj (Except.ok.inj ran)
    exact ⟨le_refl _, fits, by omega, holds⟩

end Holds

/-- `n` bytes from an address on. -/
def ProcessState.bytes (offset : Nat) (s : ProcessState) : Nat → Nat → Option (List UInt8)
  | _, 0 => some []
  | virt, n + 1 => do
      let b ← s.byte offset virt
      let rest ← ProcessState.bytes offset s (virt + 1) n
      some (b :: rest)

/-- The word at an address, as the process reads it. -/
def ProcessState.word (offset : Nat) (s : ProcessState) (virt : Nat) : Option Nat :=
  (s.bytes offset virt 8).map leValue

theorem leValue_leBytes (n value : Nat) : leValue (leBytes n value) = value % 256 ^ n := by
  induction n generalizing value with
  | zero => rw [pow_zero, Nat.mod_one]; rfl
  | succ n ih =>
      rw [leBytes, leValue, ih, pow_succ, Nat.mul_comm (256 ^ n), Nat.mod_mul,
        show (UInt8.ofNat value).toNat = value % 256 from UInt8.toNat_ofNat']

section Words

variable {offset : Nat} {s : ProcessState} {addr : Nat}

theorem bytes_of_holds {bytes : List UInt8}
    (holds : Holds offset s.map.pml4 s.kernel.mem addr bytes) :
    s.bytes offset addr bytes.length = some bytes := by
  induction bytes generalizing addr with
  | nil => rfl
  | cons b rest ih =>
      obtain ⟨head, tail⟩ := Holds.cons_iff.mp holds
      rw [List.length_cons, ProcessState.bytes, ProcessState.byte, head, ih tail]
      rfl

theorem words_of_holds {words : List Nat} (small : ∀ w ∈ words, w < 2 ^ 64)
    (holds : Holds offset s.map.pml4 s.kernel.mem addr (words.flatMap (leBytes 8))) (i w : Nat)
    (found : words[i]? = some w) : s.word offset (addr + 8 * i) = some w := by
  induction words generalizing addr i with
  | nil => cases found
  | cons value rest ih =>
      rw [List.flatMap_cons, Holds.append_iff, leBytes_length] at holds
      obtain ⟨head, tail⟩ := holds
      cases i with
      | zero =>
          obtain rfl := Option.some.inj found
          have read := bytes_of_holds head
          rw [leBytes_length] at read
          rw [Nat.mul_zero, Nat.add_zero, ProcessState.word, read, Option.map_some, leValue_leBytes,
            Nat.mod_eq_of_lt ((small value List.mem_cons_self).trans_le (by decide))]
      | succ i =>
          rw [show addr + 8 * (i + 1) = addr + 8 + 8 * i by omega]
          exact ih (fun w member => small w (List.mem_cons_of_mem value member)) tail i found

end Words

end Nyaux.Elf
