import Nyaux.Printf.Vpprintf

/-! `npf_vsnprintf`, and the log lines that pass through its buffer. -/

namespace Nyaux.Printf

/-- `npf_bufputc_ctx_t`. The bytes are numbered from the start of the buffer on, and what lies
behind it is there too. -/
structure BufputcCtx where
  dst : Nat → UInt8
  len : Nat
  cur : Nat

def bufputc (ctx : BufputcCtx) (c : UInt8) : BufputcCtx :=
  if ctx.cur < ctx.len then
    { ctx with dst := Function.update ctx.dst ctx.cur c, cur := ctx.cur + 1 }
  else ctx

/-- `npf_vsnprintf` with a buffer: its bytes, and the result. -/
def vsnprintf (buffer : Nat → UInt8) (bufsz : Nat) (format : List UInt8) (args : List Slot) :
    Option ((Nat → UInt8) × Nat) :=
  (vpprintf format args).map fun out =>
    let ctx := bufputc (out.foldl bufputc ⟨buffer, bufsz, 0⟩) 0
    (if bufsz ≠ 0 then Function.update ctx.dst (bufsz - 1) 0 else ctx.dst, out.length)

/-- `serial_print`, which ends at a zero byte. -/
def serialPrint (str : Nat → UInt8) : Nat → Nat → Option (List UInt8)
  | 0, _ => none
  | fuel + 1, i => if str i = 0 then some [] else (serialPrint str fuel (i + 1)).map (str i :: ·)

/-- `uacpi_kernel_vlog`, which uses no prefix. It gets the bytes that lie in `buff` before. -/
def uacpiKernelVlog (buff : Nat → UInt8) (fuel : Nat) (format : List UInt8) (args : List Slot) :
    Option (List UInt8) :=
  (vsnprintf buff 128 format args).bind fun (buff, _) => serialPrint buff fuel 0

/-! ### The buffer -/

theorem bufputc_dst (ctx : BufputcCtx) (c : UInt8) (i : Nat) :
    (bufputc ctx c).dst i = if i = ctx.cur ∧ i < ctx.len then c else ctx.dst i := by
  unfold bufputc
  by_cases room : ctx.cur < ctx.len
  · rw [if_pos room]
    dsimp only
    by_cases here : i = ctx.cur
    · rw [here, Function.update_self, if_pos ⟨rfl, room⟩]
    · rw [Function.update_of_ne here, if_neg fun both => here both.1]
  · rw [if_neg room, if_neg]
    rintro ⟨rfl, inside⟩
    exact room inside

theorem bufputc_len (ctx : BufputcCtx) (c : UInt8) : (bufputc ctx c).len = ctx.len := by
  unfold bufputc
  split_ifs <;> rfl

theorem bufputc_cur {ctx : BufputcCtx} (inside : ctx.cur ≤ ctx.len) (c : UInt8) :
    (bufputc ctx c).cur = min (ctx.cur + 1) ctx.len := by
  unfold bufputc
  split_ifs with room
  · exact (Nat.min_eq_left room).symm
  · omega

theorem bufputc_run (text : List UInt8) {ctx : BufputcCtx} (inside : ctx.cur ≤ ctx.len) :
    (text.foldl bufputc ctx).len = ctx.len ∧
      (text.foldl bufputc ctx).cur = min (ctx.cur + text.length) ctx.len ∧
      ∀ i, (text.foldl bufputc ctx).dst i =
        if ctx.cur ≤ i ∧ i < min (ctx.cur + text.length) ctx.len then text.getD (i - ctx.cur) 0
        else ctx.dst i := by
  induction text generalizing ctx with
  | nil =>
      refine ⟨rfl, (Nat.min_eq_left inside).symm, fun i => ?_⟩
      rw [if_neg]
      · rfl
      · rw [List.length_nil]
        omega
  | cons c text ih =>
      have cur := bufputc_cur inside c
      have len := bufputc_len ctx c
      have inside' : (bufputc ctx c).cur ≤ (bufputc ctx c).len := by omega
      obtain ⟨len', cur', stored⟩ := ih inside'
      rw [List.foldl_cons, List.length_cons]
      refine ⟨len'.trans len, by omega, fun i => ?_⟩
      rw [stored i, cur, len, bufputc_dst]
      rcases Nat.lt_trichotomy i ctx.cur with before | here | after
      · rw [if_neg (by omega), if_neg (by omega), if_neg (by omega)]
      · by_cases room : i < ctx.len
        · rw [if_neg (by omega), if_pos ⟨here, room⟩, if_pos (by omega), here, Nat.sub_self]
          rfl
        · rw [if_neg (by omega), if_neg (by omega), if_neg (by omega)]
      · by_cases room : i < min (ctx.cur + (text.length + 1)) ctx.len
        · have next : i - ctx.cur = i - min (ctx.cur + 1) ctx.len + 1 := by omega
          rw [if_pos (by omega), if_pos ⟨by omega, room⟩, next]
          rfl
        · rw [if_neg (by omega), if_neg (by omega), if_neg (by omega)]

theorem vsnprintf_spec {format : List UInt8} {args : List Slot} {out : List UInt8}
    (printed : vpprintf format args = some out) (buffer : Nat → UInt8) {bufsz : Nat}
    (room : 0 < bufsz) :
    ∃ mem, vsnprintf buffer bufsz format args = some (mem, out.length) ∧
      (∀ i < min out.length (bufsz - 1), mem i = out.getD i 0) ∧
      mem (min out.length (bufsz - 1)) = 0 ∧ ∀ i, bufsz ≤ i → mem i = buffer i := by
  have inside : (BufputcCtx.mk buffer bufsz 0).cur ≤ (BufputcCtx.mk buffer bufsz 0).len :=
    Nat.zero_le _
  obtain ⟨len, cur, stored⟩ := bufputc_run out inside
  dsimp only at len cur stored
  rw [vsnprintf, printed, Option.map_some]
  refine ⟨_, rfl, fun i inside => ?_, ?_, fun i outside => ?_⟩
  · rw [if_pos (Nat.pos_iff_ne_zero.mp room), Function.update_of_ne (by omega), bufputc_dst,
      if_neg (by omega), stored, if_pos (by omega), Nat.sub_zero]
  · rw [if_pos (Nat.pos_iff_ne_zero.mp room)]
    by_cases whole : out.length < bufsz - 1
    · rw [Nat.min_eq_left (Nat.le_of_lt whole), Function.update_of_ne (by omega), bufputc_dst,
        if_pos (by omega)]
    · rw [Nat.min_eq_right (by omega), Function.update_self]
  · rw [if_pos (Nat.pos_iff_ne_zero.mp room), Function.update_of_ne (by omega), bufputc_dst,
      if_neg (by omega), stored, if_neg (by omega)]

/-! ### Log lines -/

theorem serialPrint_text {str : Nat → UInt8} (text : List UInt8) {fuel i : Nat}
    (enough : text.length < fuel) (holds : ∀ j < text.length, str (i + j) = text.getD j 0)
    (ends : str (i + text.length) = 0) :
    serialPrint str fuel i = some (text.takeWhile (· ≠ 0)) := by
  induction text generalizing fuel i with
  | nil =>
      obtain ⟨fuel, rfl⟩ : ∃ k, fuel = k + 1 := ⟨fuel - 1, by rw [List.length_nil] at enough; omega⟩
      have zero : str i = 0 := ends
      rw [serialPrint, if_pos zero]
      rfl
  | cons c text ih =>
      rw [List.length_cons] at enough holds ends
      obtain ⟨fuel, rfl⟩ : ∃ k, fuel = k + 1 := ⟨fuel - 1, by omega⟩
      have first : str i = c := holds 0 (by omega)
      rw [serialPrint, first]
      by_cases zero : c = 0
      · rw [if_pos zero, zero]
        rfl
      · have rest := ih (i := i + 1) (Nat.lt_of_succ_lt_succ enough)
          (fun j inside => by
            rw [Nat.add_assoc, Nat.add_comm 1 j]
            exact holds (j + 1) (by omega))
          (by rw [Nat.add_assoc, Nat.add_comm 1]; exact ends)
        rw [if_neg zero, rest, List.takeWhile_cons_of_pos (by simpa using zero)]
        rfl

/-- A log line is what was formatted, cut behind 127 bytes or before a zero byte, and no byte
outside the buffer is looked at. -/
theorem vlog_prints (buff : Nat → UInt8) (format : List UInt8) (args : List Slot) :
    uacpiKernelVlog buff 128 format args =
      (vpprintf format args).map fun out => (out.take 127).takeWhile (· ≠ 0) := by
  cases printed : vpprintf format args with
  | none =>
      rw [uacpiKernelVlog, vsnprintf, printed]
      rfl
  | some out =>
      have room : 0 < 128 := by decide
      obtain ⟨mem, made, stored, ends, _⟩ := vsnprintf_spec printed buff room
      have length : (out.take 127).length = min out.length 127 := by
        rw [List.length_take, Nat.min_comm]
      rw [uacpiKernelVlog, made]
      refine serialPrint_text (out.take 127) (by omega) (fun j inside => ?_) ?_
      · rw [length] at inside
        rw [Nat.zero_add, stored j inside, List.getD_eq_getElem?_getD, List.getD_eq_getElem?_getD,
          List.getElem?_take_of_lt (by omega)]
      · rw [length, Nat.zero_add]
        exact ends

end Nyaux.Printf
