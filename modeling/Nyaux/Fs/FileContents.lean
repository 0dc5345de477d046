import Nyaux.Fs.Tmpfs
import Nyaux.Lib.ByteMap

/-! The contents of a tmpfs file after any history of writes.

Growing a written file copies the old bytes into a fresh block and leaves the rest of
that block as the heap handed it out; only the first block is cleared. So a position
between the old end and the offset of a growing write keeps the heap's byte until some
write covers it. -/

namespace Nyaux.Fs

open Word ByteMap

open Mm (Overflow)

structure HeapBlock extends Block where
  nonnull : addr ≠ 0
  below : addr < 0xffffffff80000000

/-- One write call with the block the heap hands out, should the call ask for one. -/
structure WriteCall where
  write : Write
  fresh : HeapBlock
  inRange : write.stop < 2 ^ 31

def emptyFile (data : Block) : Vnode := ⟨.file, [], ⟨data, 0⟩⟩

def writeOne (overflow : Overflow) (v : Vnode) (call : WriteCall) : Option Vnode :=
  (vnodeRdwrWrite overflow v call.write.bytes call.write.offset call.fresh.toBlock).map Prod.snd

def writeAll (overflow : Overflow) (v : Vnode) (calls : List WriteCall) : Option Vnode :=
  calls.foldlM (writeOne overflow) v

def writes (calls : List WriteCall) : List Write := calls.map WriteCall.write

/-- The byte that lies under position `p` before any write covers it: zero when the
first block brought `p` into the file, else the byte of the block that did. `size` is the
file size so far. -/
def under (size : Nat) : List WriteCall → Nat → UInt8
  | [], _ => 0
  | call :: later, p =>
      if p < max size call.write.stop then
        if size = 0 then 0 else call.fresh.bytes p
      else under (max size call.write.stop) later p

/-- Size and bytes are those of the byte map of the writes, zero where nothing was written. -/
def Faithful (overflow : Overflow) (data : Block) (calls : List WriteCall) : Prop :=
  ∃ v, writeAll overflow (emptyFile data) calls = some v ∧
    v.node.size = extent (writes calls) ∧
    ∀ p, p < v.node.size →
      vnodeRdwrRead v 1 p = (1, [(lastByte (writes calls) p).getD 0])

/-- Every position of the file that no write covers was cleared or held zero already. -/
def HolesZero (calls : List WriteCall) : Prop :=
  ∀ p, p < extent (writes calls) → lastByte (writes calls) p = none → under 0 calls p = 0

structure Contents (v : Vnode) (calls : List WriteCall) : Prop where
  file : v.type = .file
  size : v.node.size = extent (writes calls)
  bytes : ∀ p, p < extent (writes calls) →
    v.node.data.bytes p = (lastByte (writes calls) p).getD (under 0 calls p)
  block : 0 < extent (writes calls) →
    v.node.data.addr ≠ 0 ∧ v.node.data.addr < 0xffffffff80000000

theorem writes_snoc (calls : List WriteCall) (call : WriteCall) :
    writes (calls ++ [call]) = writes calls ++ [call.write] := by
  simp [writes]

theorem extent_inRange (calls : List WriteCall) : extent (writes calls) < 2 ^ 31 := by
  induction calls with
  | nil => decide
  | cons call later ih => exact max_lt call.inRange ih

theorem under_snoc (calls : List WriteCall) (call : WriteCall) (size p : Nat)
    (beyond : size ≤ p) :
    under size (calls ++ [call]) p =
      if p < max size (extent (writes calls)) then under size calls p
      else if p < max (max size (extent (writes calls))) call.write.stop then
        if max size (extent (writes calls)) = 0 then 0 else call.fresh.bytes p
      else 0 := by
  induction calls generalizing size with
  | nil => simp [under, writes, extent, Nat.not_lt.mpr beyond]
  | cons first later ih =>
      have joined : max size (extent (writes (first :: later))) =
          max (max size first.write.stop) (extent (writes later)) := by
        simp [writes, extent, max_assoc]
      simp only [List.cons_append, under, joined]
      by_cases now : p < max size first.write.stop
      · rw [if_pos now, if_pos (lt_of_lt_of_le now (le_max_left _ _))]
        exact (if_pos now).symm
      · rw [if_neg now, if_neg now]
        exact ih (max size first.write.stop) (Nat.not_lt.mp now)

theorem memcpyAt_bytes (block : Block) (w : Write) (p : Nat) :
    (memcpyAt block w.offset w.bytes).bytes p = (w.at p).getD (block.bytes p) := by
  simp only [memcpyAt, Write.at]
  split <;> rfl

theorem lastByte_getD_snoc (calls : List WriteCall) (call : WriteCall) (p : Nat) (d : UInt8) :
    (lastByte (writes (calls ++ [call])) p).getD d =
      (call.write.at p).getD ((lastByte (writes calls) p).getD d) := by
  rw [writes_snoc, lastByte_snoc]
  cases call.write.at p <;> rfl

theorem contents_first (overflow : Overflow) (v : Vnode) (calls : List WriteCall) (call : WriteCall)
    (contents : Contents v calls) (empty : v.node.size = 0) :
    ∃ v', writeOne overflow v call = some v' ∧ Contents v' (calls ++ [call]) := by
  have none_yet : extent (writes calls) = 0 := contents.size.symm.trans empty
  have range := call.inRange
  have length : add64 call.write.bytes.length call.write.offset = call.write.stop := by
    rw [add64_of_lt] <;> unfold Write.stop at * <;> omega
  have served : kmalloc overflow call.fresh.toBlock call.write.stop = some call.fresh.toBlock :=
    if_pos (range.le.trans overflow.limit_large)
  have grown : extent (writes (calls ++ [call])) = call.write.stop := by
    rw [writes_snoc, extent_snoc, none_yet, Nat.zero_max]
  let data := memcpyAt (memset call.fresh.toBlock 0 call.write.stop) call.write.offset
    call.write.bytes
  have written : writeOne overflow v call = some { v with node := ⟨data, call.write.stop⟩ } := by
    simp [writeOne, vnodeRdwrWrite, contents.file, empty, length, served, data]
  refine ⟨_, written, contents.file, grown.symm, ?_, fun _ => ⟨call.fresh.nonnull, call.fresh.below⟩⟩
  intro p inside
  rw [grown] at inside
  have cleared : under 0 (calls ++ [call]) p = 0 := by
    rw [under_snoc calls call 0 p (Nat.zero_le p)]
    simp [none_yet]
  rw [lastByte_getD_snoc, lastByte_beyond (writes calls) p (by omega), cleared,
    memcpyAt_bytes]
  simp [memset, inside]

theorem contents_grow (overflow : Overflow) (v : Vnode) (calls : List WriteCall) (call : WriteCall)
    (contents : Contents v calls) (started : v.node.size ≠ 0)
    (past : v.node.size < call.write.stop) :
    ∃ v', writeOne overflow v call = some v' ∧ Contents v' (calls ++ [call]) := by
  have size := contents.size
  have range := call.inRange
  have length : add64 call.write.bytes.length call.write.offset = call.write.stop := by
    rw [add64_of_lt] <;> unfold Write.stop at * <;> omega
  have served : kmalloc overflow call.fresh.toBlock call.write.stop = some call.fresh.toBlock :=
    if_pos (range.le.trans overflow.limit_large)
  have nonnull := (contents.block (by omega)).1
  have grown : extent (writes (calls ++ [call])) = call.write.stop := by
    rw [writes_snoc, extent_snoc, ← size]
    omega
  let copied : Block :=
    { call.fresh.toBlock with
      bytes := fun i => if i < v.node.size then v.node.data.bytes i else call.fresh.bytes i }
  let data := memcpyAt copied call.write.offset call.write.bytes
  have written : writeOne overflow v call = some { v with node := ⟨data, call.write.stop⟩ } := by
    simp [writeOne, vnodeRdwrWrite, contents.file, started, length, past, krealloc, served,
      nonnull, Nat.pos_of_ne_zero started, data, copied]
  refine ⟨_, written, contents.file, grown.symm, ?_, fun _ => ⟨call.fresh.nonnull, call.fresh.below⟩⟩
  intro p inside
  rw [grown] at inside
  rw [lastByte_getD_snoc, memcpyAt_bytes, under_snoc calls call 0 p (Nat.zero_le p)]
  simp only [Nat.zero_max, ← size]
  by_cases old : p < v.node.size
  · have kept : copied.bytes p = v.node.data.bytes p := if_pos old
    rw [if_pos old, kept, contents.bytes p (by omega)]
  · have stale : copied.bytes p = call.fresh.bytes p := if_neg old
    rw [if_neg old, if_pos (lt_max_of_lt_right inside), if_neg started, stale,
      lastByte_beyond (writes calls) p (by omega)]
    rfl

theorem contents_inside (overflow : Overflow) (v : Vnode) (calls : List WriteCall)
    (call : WriteCall) (contents : Contents v calls) (started : v.node.size ≠ 0)
    (within : call.write.stop ≤ v.node.size) :
    ∃ v', writeOne overflow v call = some v' ∧ Contents v' (calls ++ [call]) := by
  have size := contents.size
  have range := call.inRange
  have length : add64 call.write.bytes.length call.write.offset = call.write.stop := by
    rw [add64_of_lt] <;> unfold Write.stop at * <;> omega
  have kept : extent (writes (calls ++ [call])) = extent (writes calls) := by
    rw [writes_snoc, extent_snoc]
    omega
  let data := memcpyAt v.node.data call.write.offset call.write.bytes
  have written : writeOne overflow v call = some { v with node := { v.node with data := data } } := by
    simp [writeOne, vnodeRdwrWrite, contents.file, started, length, Nat.not_lt.mpr within, data]
  refine ⟨_, written, contents.file, size.trans kept.symm, ?_, ?_⟩
  · intro p inside
    rw [kept] at inside
    rw [lastByte_getD_snoc, memcpyAt_bytes, under_snoc calls call 0 p (Nat.zero_le p)]
    simp only [Nat.zero_max, if_pos inside]
    rw [contents.bytes p inside]
  · intro positive
    exact contents.block (by omega)

theorem contents_step (overflow : Overflow) (v : Vnode) (calls : List WriteCall) (call : WriteCall)
    (contents : Contents v calls) :
    ∃ v', writeOne overflow v call = some v' ∧ Contents v' (calls ++ [call]) := by
  by_cases empty : v.node.size = 0
  · exact contents_first overflow v calls call contents empty
  · by_cases past : v.node.size < call.write.stop
    · exact contents_grow overflow v calls call contents empty past
    · exact contents_inside overflow v calls call contents empty (Nat.not_lt.mp past)

theorem contents_run (overflow : Overflow) (data : Block) (calls : List WriteCall) :
    ∃ v, writeAll overflow (emptyFile data) calls = some v ∧ Contents v calls := by
  induction calls using List.reverseRecOn with
  | nil =>
      refine ⟨emptyFile data, rfl, rfl, rfl, ?_, ?_⟩
      · intro p inside
        exact absurd inside (Nat.not_lt_zero p)
      · intro positive
        exact absurd positive (Nat.lt_irrefl 0)
  | append_singleton calls call ih =>
      obtain ⟨v, written, contents⟩ := ih
      obtain ⟨v', one, next⟩ := contents_step overflow v calls call contents
      refine ⟨v', ?_, next⟩
      rw [writeAll, List.foldlM_append, ← writeAll, written]
      simp [one]

theorem contents_read (v : Vnode) (calls : List WriteCall) (contents : Contents v calls)
    (p : Nat) (inside : p < extent (writes calls)) :
    vnodeRdwrRead v 1 p = (1, [(lastByte (writes calls) p).getD (under 0 calls p)]) := by
  have bound := extent_inRange calls
  have low := (contents.block (by omega)).2
  rw [vnodeRdwrRead_byte v p contents.file (by rw [contents.size]; exact inside)
    (by rw [contents.size]; omega), contents.bytes p inside]

theorem holesZero_of_faithful (overflow : Overflow) (data : Block) (calls : List WriteCall)
    (faithful : Faithful overflow data calls) : HolesZero calls := by
  obtain ⟨v, written, contents⟩ := contents_run overflow data calls
  obtain ⟨v', written', size, reads⟩ := faithful
  obtain rfl : v' = v := Option.some.inj (written'.symm.trans written)
  intro p inside uncovered
  have read := reads p (by rw [size]; exact inside)
  rw [contents_read v' calls contents p inside, uncovered] at read
  simpa using read

theorem faithful_of_holesZero (overflow : Overflow) (data : Block) (calls : List WriteCall)
    (zero : HolesZero calls) : Faithful overflow data calls := by
  obtain ⟨v, written, contents⟩ := contents_run overflow data calls
  refine ⟨v, written, contents.size, ?_⟩
  intro p inside
  rw [contents.size] at inside
  rw [contents_read v calls contents p inside]
  cases covered : lastByte (writes calls) p with
  | none => simp [zero p inside covered]
  | some byte => rfl

/-- For every write history and every heap, however it was compiled, the file reads as the byte
map of its writes exactly when no uncovered position kept a byte of a recycled block. -/
theorem file_faithful_iff (overflow : Overflow) (data : Block) (calls : List WriteCall) :
    Faithful overflow data calls ↔ HolesZero calls :=
  ⟨holesZero_of_faithful overflow data calls, faithful_of_holesZero overflow data calls⟩

def staleBlock : HeapBlock :=
  { addr := 0xffff800000100000, bytes := fun _ => 0xAA, nonnull := by decide, below := by decide }

def holeCalls : List WriteCall :=
  [⟨⟨0, [1]⟩, staleBlock, by decide⟩, ⟨⟨4, [2]⟩, staleBlock, by decide⟩]

theorem file_hole_stale : ¬ Faithful .widens staleBlock.toBlock holeCalls := by
  intro faithful
  have stale := holesZero_of_faithful _ _ _ faithful 1 (by decide) (by decide)
  exact absurd stale (by decide)

end Nyaux.Fs
