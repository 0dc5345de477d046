import Nyaux.Elf.LoadProgram
import Nyaux.Mm.UserHalf

/-! What the copies of `load_elf_program` do to the bytes that the process finds. -/

namespace Nyaux.Elf

open Word Memory Paging Fs Mm ByteMap

variable {offset : Nat} {pages : List Nat} {stock : Mem → List Slab → Prop} {pml4 : Nat}
  {k : Kernel} {tables : List (List Nat × Nat)} {own : Multiset Nat} {mem mem' : Mem}
  {dest src n : Nat} {bytes : List UInt8}

theorem access_user {virt : Nat} (low : virt < 2 ^ 47) :
    access offset pml4 mem virt = Mm.translate offset mem pml4 virt := if_pos (Or.inl low)

theorem userByte_isSome {virt : Nat} (low : virt < 2 ^ 47)
    (mapped : userByte offset pml4 mem virt ≠ none) :
    ∃ target, access offset pml4 mem virt = some target := by
  rw [access_user low]
  cases found : Mm.translate offset mem pml4 virt with
  | none =>
      rw [userByte, found] at mapped
      exact absurd rfl mapped
  | some target => exact ⟨target, rfl⟩

theorem at_cons (dest : Nat) (b : UInt8) (rest : List UInt8) (p : Nat) :
    Write.at ⟨dest, b :: rest⟩ p = if p = dest then some b else Write.at ⟨dest + 1, rest⟩ p := by
  unfold Write.at
  dsimp only
  by_cases here : p = dest
  · rw [if_pos here, if_pos (Nat.le_of_eq here.symm), here, Nat.sub_self, List.getElem?_cons_zero]
  · rw [if_neg here]
    by_cases behind : dest ≤ p
    · obtain ⟨j, rfl⟩ := Nat.exists_eq_add_of_lt (Nat.lt_of_le_of_ne behind (Ne.symm here))
      rw [if_pos behind, if_pos (by omega), show dest + j + 1 - dest = j + 1 by omega,
        List.getElem?_cons_succ, show dest + j + 1 - (dest + 1) = j by omega]
    · rw [if_neg behind, if_neg (by omega)]

/-- `memcpy` to user addresses: the bytes stand where they were copied, and no others change. -/
theorem writeBytes_spec (user : UserHalf offset pages stock pml4 k tables own)
    (usable : Usable pages) (nodes : Stable stock (cacheFor 32)) (low : dest + bytes.length ≤ 2 ^ 47)
    (ran : writeBytes offset pml4 dest bytes k.mem = .ok mem') :
    UserHalf offset pages stock pml4 { k with mem := mem' } tables own ∧
      ∀ virt < 2 ^ 47, userByte offset pml4 mem' virt =
        (Write.at ⟨dest, bytes⟩ virt).or (userByte offset pml4 k.mem virt) := by
  induction bytes generalizing k dest with
  | nil =>
      obtain rfl := Except.ok.inj ran
      refine ⟨user, fun virt _ => ?_⟩
      rw [at_of_outside _ _ fun inside => absurd inside.2 (Nat.not_lt.mpr inside.1), Option.none_or]
  | cons b rest ih =>
      rw [List.length_cons] at low
      have small : dest < 2 ^ 47 := by omega
      rw [writeBytes, access_user small] at ran
      cases found : Mm.translate offset k.mem pml4 dest with
      | none =>
          rw [found] at ran
          cases ran
      | some target =>
          rw [found, add64_of_lt (by omega)] at ran
          obtain ⟨user₁, bytes₁⟩ := user.storeByte usable nodes small found b
          obtain ⟨user', bytes'⟩ := ih user₁ (by omega) ran
          refine ⟨user', fun virt virtLow => ?_⟩
          rw [bytes' virt virtLow, bytes₁ virt virtLow, at_cons]
          by_cases here : virt = dest
          · rw [if_pos here, if_pos here, at_of_outside _ _ fun inside => by dsimp only at inside; omega]
            rfl
          · rw [if_neg here, if_neg here]

theorem writeBytes_exists (user : UserHalf offset pages stock pml4 k tables own)
    (usable : Usable pages) (nodes : Stable stock (cacheFor 32)) (low : dest + bytes.length ≤ 2 ^ 47)
    (mapped : ∀ virt, dest ≤ virt → virt < dest + bytes.length →
      userByte offset pml4 k.mem virt ≠ none) :
    ∃ mem', writeBytes offset pml4 dest bytes k.mem = .ok mem' := by
  induction bytes generalizing k dest with
  | nil => exact ⟨k.mem, rfl⟩
  | cons b rest ih =>
      rw [List.length_cons] at low mapped
      have small : dest < 2 ^ 47 := by omega
      obtain ⟨target, found⟩ := userByte_isSome small (mapped dest (le_refl _) (by omega))
      rw [writeBytes, found]
      dsimp only
      rw [add64_of_lt (by omega)]
      rw [access_user small] at found
      obtain ⟨user₁, bytes₁⟩ := user.storeByte usable nodes small found b
      apply ih user₁ (by omega)
      intro virt above below
      rw [bytes₁ virt (by omega), if_neg (by omega)]
      exact mapped virt (by omega) (by omega)

theorem readBytes_length (ran : readBytes offset pml4 mem src n = .ok bytes) : bytes.length = n := by
  induction n generalizing src bytes with
  | zero =>
      obtain rfl := Except.ok.inj ran
      rfl
  | succ n ih =>
      rw [readBytes] at ran
      split at ran
      · obtain ⟨rest, read, same⟩ := of_bind_ok ran
        obtain rfl := Except.ok.inj same
        rw [List.length_cons, ih read]
      · cases ran

theorem readBytes_exists (low : src + n ≤ 2 ^ 47)
    (mapped : ∀ virt, src ≤ virt → virt < src + n → userByte offset pml4 mem virt ≠ none) :
    ∃ bytes, readBytes offset pml4 mem src n = .ok bytes := by
  induction n generalizing src with
  | zero => exact ⟨[], rfl⟩
  | succ n ih =>
      obtain ⟨source, found⟩ :=
        userByte_isSome (by omega) (mapped src (le_refl _) (by omega))
      have later : ∃ bytes, readBytes offset pml4 mem (src + 1) n = .ok bytes :=
        ih (by omega) fun virt above below => mapped virt (by omega) (by omega)
      obtain ⟨rest, read⟩ := later
      refine ⟨UInt8.ofNat (loadByte mem source) :: rest, ?_⟩
      rw [readBytes, found]
      dsimp only
      rw [add64_of_lt (by omega), read, ok_bind]

structure StackWrite (offset pml4 : Nat) (mem mem' : Mem) : Prop where
  below : ∀ virt < newThreadStack, userByte offset pml4 mem' virt = userByte offset pml4 mem virt
  mapped : ∀ virt < 2 ^ 47, userByte offset pml4 mem virt ≠ none →
    userByte offset pml4 mem' virt ≠ none

theorem StackWrite.refl (offset pml4 : Nat) (mem : Mem) : StackWrite offset pml4 mem mem :=
  ⟨fun _ _ => rfl, fun _ _ mapped => mapped⟩

theorem StackWrite.trans {mem'' : Mem} (first : StackWrite offset pml4 mem mem')
    (second : StackWrite offset pml4 mem' mem'') : StackWrite offset pml4 mem mem'' :=
  ⟨fun virt small => (second.below virt small).trans (first.below virt small),
    fun virt low mapped => second.mapped virt low (first.mapped virt low mapped)⟩

theorem writeBytes_stack (user : UserHalf offset pages stock pml4 k tables own)
    (usable : Usable pages) (nodes : Stable stock (cacheFor 32)) (above : newThreadStack ≤ dest)
    (low : dest + bytes.length ≤ 2 ^ 47)
    (ran : writeBytes offset pml4 dest bytes k.mem = .ok mem') :
    UserHalf offset pages stock pml4 { k with mem := mem' } tables own ∧
      StackWrite offset pml4 k.mem mem' := by
  obtain ⟨user', written⟩ := writeBytes_spec user usable nodes low ran
  refine ⟨user', ?_, ?_⟩
  · intro virt small
    have reach : newThreadStack < 2 ^ 47 := by decide
    rw [written virt (by omega), at_of_outside _ _ fun inside => by dsimp only at inside; omega,
      Option.none_or]
  · intro virt virtLow mapped
    rw [written virt virtLow]
    cases Write.at ⟨dest, bytes⟩ virt with
    | none => exact mapped
    | some b => exact Option.some_ne_none b

def pushedSize (pushes : List (List UInt8)) : Nat := (pushes.map List.length).sum

theorem pushedSize_cons (bytes : List UInt8) (rest : List (List UInt8)) :
    pushedSize (bytes :: rest) = bytes.length + pushedSize rest := rfl

theorem stackTop_eq : stackTop = 0x7000007D000 := by decide

theorem push_place (window : Nat) (fits : window ≤ 512000) :
    sub64 stackTop window = stackTop - window ∧ newThreadStack ≤ stackTop - window ∧
      stackTop - window + window ≤ 2 ^ 47 := by
  have top := stackTop_eq
  have bottom : newThreadStack = 0x70000000000 := rfl
  refine ⟨sub64_of_le (by omega) (by omega), by omega, by omega⟩

theorem pushAll_spec {pushes : List (List UInt8)} {window window' : Nat}
    (user : UserHalf offset pages stock pml4 k tables own) (usable : Usable pages)
    (nodes : Stable stock (cacheFor 32))
    (fits : window + pushedSize pushes ≤ 512000)
    (ran : pushAll offset pml4 stackTop pushes window k.mem = .ok (window', mem')) :
    window' = window + pushedSize pushes ∧
      UserHalf offset pages stock pml4 { k with mem := mem' } tables own ∧
      StackWrite offset pml4 k.mem mem' := by
  induction pushes generalizing k window with
  | nil =>
      obtain ⟨rfl, rfl⟩ := Prod.mk.inj (Except.ok.inj ran)
      exact ⟨rfl, user, StackWrite.refl offset pml4 k.mem⟩
  | cons bytes rest ih =>
      rw [pushedSize_cons] at fits ⊢
      obtain ⟨mem₁, wrote, ran⟩ := of_bind_ok ran
      rw [add64_of_lt (by omega)] at wrote ran
      obtain ⟨place, above, low⟩ := push_place (window + bytes.length) (by omega)
      rw [place] at wrote
      obtain ⟨user₁, write₁⟩ := writeBytes_stack user usable nodes above (by omega) wrote
      obtain ⟨size, user', write'⟩ := ih user₁ (by omega) ran
      exact ⟨by omega, user', write₁.trans write'⟩

theorem pushAll_exists {pushes : List (List UInt8)} {window : Nat}
    (user : UserHalf offset pages stock pml4 k tables own) (usable : Usable pages)
    (nodes : Stable stock (cacheFor 32))
    (fits : window + pushedSize pushes ≤ 512000)
    (mapped : ∀ virt, newThreadStack ≤ virt → virt < stackTop →
      userByte offset pml4 k.mem virt ≠ none) :
    ∃ window' mem', pushAll offset pml4 stackTop pushes window k.mem = .ok (window', mem') := by
  have top := stackTop_eq
  induction pushes generalizing k window with
  | nil => exact ⟨window, k.mem, rfl⟩
  | cons bytes rest ih =>
      rw [pushedSize_cons] at fits
      obtain ⟨place, above, low⟩ := push_place (window + bytes.length) (by omega)
      have written : ∃ mem', writeBytes offset pml4 (stackTop - (window + bytes.length)) bytes k.mem =
          .ok mem' :=
        writeBytes_exists user usable nodes (by omega) fun virt from_ upTo =>
          mapped virt (by omega) (by omega)
      obtain ⟨mem₁, wrote⟩ := written
      obtain ⟨user₁, write₁⟩ := writeBytes_stack user usable nodes above (by omega) wrote
      have later : ∃ window' mem', pushAll offset pml4 stackTop rest (window + bytes.length) mem₁ =
          .ok (window', mem') :=
        ih user₁ (by omega) fun virt from_ upTo =>
          write₁.mapped virt (by omega) (mapped virt from_ upTo)
      obtain ⟨window', mem', ran⟩ := later
      refine ⟨window', mem', ?_⟩
      rw [pushAll, add64_of_lt (by omega), place, wrote, ok_bind]
      exact ran

theorem alignWindow_spec {window window' : Nat}
    (user : UserHalf offset pages stock pml4 k tables own) (usable : Usable pages)
    (nodes : Stable stock (cacheFor 32))
    (fits : window ≤ 512000)
    (ran : alignWindow offset pml4 stackTop window k.mem = .ok (window', mem')) :
    UserHalf offset pages stock pml4 { k with mem := mem' } tables own ∧
      StackWrite offset pml4 k.mem mem' := by
  rw [alignWindow] at ran
  split at ran
  · obtain ⟨mem₁, moved, returned⟩ := of_bind_ok ran
    obtain ⟨-, rfl⟩ := Prod.mk.inj (Except.ok.inj returned)
    obtain ⟨bytes, read, wrote⟩ := of_bind_ok moved
    have length := readBytes_length read
    rw [add64_of_lt (by omega)] at wrote
    obtain ⟨place, above, low⟩ := push_place (window + (16 - window % 16)) (by omega)
    rw [place] at wrote
    exact writeBytes_stack user usable nodes above (by omega) wrote
  · obtain ⟨-, rfl⟩ := Prod.mk.inj (Except.ok.inj ran)
    exact ⟨user, StackWrite.refl offset pml4 k.mem⟩

theorem alignWindow_exists {window : Nat} (user : UserHalf offset pages stock pml4 k tables own)
    (usable : Usable pages) (nodes : Stable stock (cacheFor 32)) (fits : window ≤ 512000)
    (mapped : ∀ virt, newThreadStack ≤ virt → virt < stackTop →
      userByte offset pml4 k.mem virt ≠ none) :
    ∃ window' mem', alignWindow offset pml4 stackTop window k.mem = .ok (window', mem') := by
  have top := stackTop_eq
  rw [alignWindow]
  split
  · obtain ⟨place, above, low⟩ := push_place (window + (16 - window % 16)) (by omega)
    obtain ⟨old, aboveOld, lowOld⟩ := push_place window fits
    have readable : ∃ bytes, readBytes offset pml4 k.mem (stackTop - window) window = .ok bytes :=
      readBytes_exists (by omega) fun virt from_ upTo => mapped virt (by omega) (by omega)
    obtain ⟨bytes, read⟩ := readable
    have length := readBytes_length read
    have written : ∃ mem', writeBytes offset pml4 (stackTop - (window + (16 - window % 16))) bytes
        k.mem = .ok mem' :=
      writeBytes_exists user usable nodes (by omega) fun virt from_ upTo =>
        mapped virt (by omega) (by omega)
    obtain ⟨mem', wrote⟩ := written
    refine ⟨window + (16 - window % 16), mem', ?_⟩
    dsimp only
    rw [add64_of_lt (by omega), memmove, old, place, read, ok_bind, wrote, ok_bind]
  · exact ⟨window, k.mem, rfl⟩

end Nyaux.Elf
