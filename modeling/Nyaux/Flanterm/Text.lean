import Nyaux.Flanterm.Init

/-! Text in UTF-8: the bytes of a character are one character again, whatever came before. -/

namespace Nyaux.Flanterm

variable {σ : Type} (B : Backend σ)

/-- A character of a text. -/
def putScalar (c : Char) (t : Term σ) : Term σ :=
  if c.val.toNat ≤ 0x7f then flantermPutchar B (UInt8.ofNat c.val.toNat) t
  else putCodePoint B c.val.toNat (t.set fun ctx =>
    { ctx with unicodeRemaining := 0, codePoint := c.val.toNat })

/-! ### Bytes -/

theorem leadByte_two : ∀ n < 32, leadByte (UInt8.ofNat (n + 0xc0)) = some (1, n <<< 6) := by decide

theorem leadByte_three : ∀ n < 16, leadByte (UInt8.ofNat (n + 0xe0)) = some (2, n <<< 12) := by
  decide

theorem leadByte_four : ∀ n < 8, leadByte (UInt8.ofNat (n + 0xf0)) = some (3, n <<< 18) := by decide

theorem leadByte_alone {c : UInt8} {remaining bits : Nat}
    (lead : leadByte c = some (remaining, bits)) :
    ¬(c = 0x18 ∨ c = 0x1a) ∧ c &&& 0xc0 ≠ 0x80 := by
  have all : ∀ n < 256, (leadByte (UInt8.ofNat n)).isSome →
      ¬(UInt8.ofNat n = 0x18 ∨ UInt8.ofNat n = 0x1a) ∧ UInt8.ofNat n &&& 0xc0 ≠ 0x80 := by
    decide +kernel
  have here := all c.toNat c.toNat_lt
  rw [UInt8.ofNat_toNat, lead] at here
  exact here rfl

theorem continuation : ∀ n < 64,
    UInt8.ofNat (n + 0x80) &&& 0xc0 = 0x80 ∧ (UInt8.ofNat (n + 0x80)).toNat &&& 0x3f = n ∧
      ¬(UInt8.ofNat (n + 0x80) = 0x18 ∨ UInt8.ofNat (n + 0x80) = 0x1a) := by decide

variable {B} {t : Term σ}

theorem putchar_lead {c : UInt8} {remaining bits : Nat} (awake : t.ctx.discardNext = false)
    (lead : leadByte c = some (remaining, bits)) :
    flantermPutchar B c t = t.set fun ctx =>
      { ctx with unicodeRemaining := remaining, codePoint := bits } := by
  obtain ⟨noCancel, alone⟩ := leadByte_alone lead
  unfold flantermPutchar
  rw [awake, if_neg fun bad => noCancel (bad.resolve_left Bool.false_ne_true)]
  split_ifs with pending
  · rw [continueCodePoint, if_pos alone, plainByte, lead]
    rfl
  · rw [plainByte, lead]

theorem putchar_continue {n k bits : Nat} (awake : t.ctx.discardNext = false) (small : n < 64) :
    flantermPutchar B (UInt8.ofNat (n + 0x80))
        (t.set fun ctx => { ctx with unicodeRemaining := k + 2, codePoint := bits }) =
      t.set fun ctx =>
        { ctx with unicodeRemaining := k + 1, codePoint := bits ||| n <<< (6 * (k + 1)) } := by
  obtain ⟨continues, value, noCancel⟩ := continuation n small
  unfold flantermPutchar
  simp only [Term.set_ctx, awake]
  rw [if_neg fun bad => noCancel (bad.resolve_left Bool.false_ne_true), if_pos (by omega),
    continueCodePoint, if_neg (not_not.mpr continues), value]
  exact if_pos (Nat.succ_ne_zero k)

theorem putchar_last {n bits : Nat} (awake : t.ctx.discardNext = false) (small : n < 64) :
    flantermPutchar B (UInt8.ofNat (n + 0x80))
        (t.set fun ctx => { ctx with unicodeRemaining := 1, codePoint := bits }) =
      putCodePoint B (bits ||| n) (t.set fun ctx =>
        { ctx with unicodeRemaining := 0, codePoint := bits ||| n }) := by
  obtain ⟨continues, value, noCancel⟩ := continuation n small
  unfold flantermPutchar
  simp only [Term.set_ctx, awake]
  rw [if_neg fun bad => noCancel (bad.resolve_left Bool.false_ne_true), if_pos (by omega),
    continueCodePoint, if_neg (not_not.mpr continues), value]
  exact if_neg (not_not.mpr rfl)

/-! ### Code points -/

theorem two_parts {v : Nat} (small : v ≤ 0x7ff) : (v / 64 % 0x20) <<< 6 ||| v % 0x40 = v := by
  rw [← Nat.shiftLeft_add_eq_or_of_lt (show v % 0x40 < 2 ^ 6 by omega), Nat.shiftLeft_eq]
  omega

theorem three_parts {v : Nat} (small : v ≤ 0xffff) :
    (v / 4096 % 0x10) <<< 12 ||| (v / 64 % 0x40) <<< (6 * 1) ||| v % 0x40 = v := by
  have high : (v / 4096 % 0x10) <<< 12 ||| (v / 64 % 0x40) <<< (6 * 1) = (v / 64) <<< 6 := by
    rw [show (v / 4096 % 0x10) <<< 12 = ((v / 4096 % 0x10) <<< 6) <<< 6 from Nat.shiftLeft_add _ 6 6,
      ← Nat.shiftLeft_or_distrib, ← Nat.shiftLeft_add_eq_or_of_lt (show v / 64 % 0x40 < 2 ^ 6 by omega),
      Nat.shiftLeft_eq (v / 4096 % 0x10)]
    exact congrArg (· <<< 6) (by omega)
  rw [high, ← Nat.shiftLeft_add_eq_or_of_lt (show v % 0x40 < 2 ^ 6 by omega), Nat.shiftLeft_eq]
  omega

theorem four_parts {v : Nat} (small : v < 0x110000) :
    (v / 262144 % 0x08) <<< 18 ||| (v / 4096 % 0x40) <<< (6 * 2) ||| (v / 64 % 0x40) <<< (6 * 1) |||
      v % 0x40 = v := by
  have high : (v / 262144 % 0x08) <<< 18 ||| (v / 4096 % 0x40) <<< (6 * 2) = (v / 4096) <<< 12 := by
    rw [show (v / 262144 % 0x08) <<< 18 = ((v / 262144 % 0x08) <<< 6) <<< 12 from
        Nat.shiftLeft_add _ 6 12,
      ← Nat.shiftLeft_or_distrib,
      ← Nat.shiftLeft_add_eq_or_of_lt (show v / 4096 % 0x40 < 2 ^ 6 by omega),
      Nat.shiftLeft_eq (v / 262144 % 0x08)]
    exact congrArg (· <<< 12) (by omega)
  have middle : (v / 4096) <<< 12 ||| (v / 64 % 0x40) <<< (6 * 1) = (v / 64) <<< 6 := by
    rw [show (v / 4096) <<< 12 = ((v / 4096) <<< 6) <<< 6 from Nat.shiftLeft_add _ 6 6,
      ← Nat.shiftLeft_or_distrib, ← Nat.shiftLeft_add_eq_or_of_lt (show v / 64 % 0x40 < 2 ^ 6 by omega),
      Nat.shiftLeft_eq (v / 4096)]
    exact congrArg (· <<< 6) (by omega)
  rw [high, middle, ← Nat.shiftLeft_add_eq_or_of_lt (show v % 0x40 < 2 ^ 6 by omega),
    Nat.shiftLeft_eq]
  omega

theorem putchars_scalar (awake : t.ctx.discardNext = false) (c : Char) :
    putchars B (String.utf8EncodeChar c) t = putScalar B c t := by
  unfold String.utf8EncodeChar putScalar
  have valid : c.val.toNat < 0x110000 := by
    rcases c.valid with low | ⟨_, high⟩
    · exact lt_trans low (by decide)
    · exact high
  generalize c.val.toNat = v at valid ⊢
  dsimp only
  split_ifs with ascii two three
  · rfl
  · rw [putchars, List.foldl_cons, List.foldl_cons, List.foldl_nil,
      putchar_lead awake (leadByte_two _ (Nat.mod_lt _ (by decide))),
      putchar_last awake (Nat.mod_lt _ (by decide)), two_parts two]
  · rw [putchars, List.foldl_cons, List.foldl_cons, List.foldl_cons, List.foldl_nil,
      putchar_lead awake (leadByte_three _ (Nat.mod_lt _ (by decide))),
      putchar_continue awake (Nat.mod_lt _ (by decide)),
      putchar_last awake (Nat.mod_lt _ (by decide)), three_parts three]
  · rw [putchars, List.foldl_cons, List.foldl_cons, List.foldl_cons, List.foldl_cons, List.foldl_nil,
      putchar_lead awake (leadByte_four _ (Nat.mod_lt _ (by decide))),
      putchar_continue awake (Nat.mod_lt _ (by decide)),
      putchar_continue awake (Nat.mod_lt _ (by decide)),
      putchar_last awake (Nat.mod_lt _ (by decide)), four_parts valid]

/-! ### What leaves the context alone -/

theorem repeated_ctx (body : Term σ → Term σ) (quiet : ∀ t, (body t).ctx = t.ctx) (count : Nat)
    (t : Term σ) : (repeated count body t).ctx = t.ctx := by
  unfold repeated
  induction count generalizing t with
  | zero => rfl
  | succ count ih => exact (ih (body t)).trans (quiet t)

theorem downTo_ctx (body : Nat → Term σ → Term σ) (quiet : ∀ i t, (body i t).ctx = t.ctx)
    (last first : Nat) (t : Term σ) : (downTo last first body t).ctx = t.ctx := by
  unfold downTo
  induction List.range' first (last + 1 - first) with
  | nil => rfl
  | cons i rest ih => exact (quiet i _).trans ih

theorem putCodePoint_ctx (codePoint : Nat) (t : Term σ) :
    (putCodePoint B codePoint t).ctx = t.ctx := by
  unfold putCodePoint
  split
  · rfl
  · refine (repeated_ctx (putBlank B) (fun _ => rfl) _ _).trans ?_
    split_ifs <;> rfl

theorem lineFeed_ctx (x y : Nat) (t : Term σ) : (lineFeed B x y t).ctx = t.ctx := by
  unfold lineFeed
  split_ifs <;> rfl

theorem tabulate_ctx (x y : Nat) (t : Term σ) : (tabulate B x y t).ctx = t.ctx := by
  unfold tabulate
  split_ifs <;> rfl

theorem makeRoom_ctx (x y : Nat) (t : Term σ) : (makeRoom B x y t).ctx = t.ctx := by
  unfold makeRoom
  split_ifs
  · exact downTo_ctx (fun i t => t.act (B.moveCharacter (i + 1) y i y)) (fun _ _ => rfl) _ _ t
  · rfl

theorem putByte_ctx (c : UInt8) (t : Term σ) :
    (putByte B c t).ctx = t.ctx.touch (t.ctx.currentCharset < 2) := by
  unfold putByte
  simp only [Term.set_ctx]
  split
  · rfl
  · split_ifs <;> rfl

/-! ### Texts -/

/-- Outside every escape sequence, and nothing is to be discarded. -/
structure Ground (ctx : Context) : Prop where
  noEscape : ctx.escape = false
  awake : ctx.discardNext = false

theorem groundByte_ground {c : UInt8} (noEscape : c ≠ 0x1b) (ground : Ground t.ctx) :
    Ground (groundByte B c t).ctx := by
  unfold groundByte
  generalize B.getCursorPos t.ctx t.back = place
  obtain ⟨x, y⟩ := place
  dsimp only
  split
  · exact ground
  · exact ground
  · exact absurd rfl noEscape
  · rw [tabulate_ctx]
    exact ground
  · rw [lineFeed_ctx]
    exact ground
  · rw [lineFeed_ctx]
    exact ground
  · rw [lineFeed_ctx]
    exact ground
  · exact ground
  · exact ground
  · unfold Term.set Context.report
    dsimp only
    split_ifs <;> exact ⟨ground.noEscape, ground.awake⟩
  · exact ⟨ground.noEscape, ground.awake⟩
  · exact ⟨ground.noEscape, ground.awake⟩
  · rw [putByte_ctx, makeRoom_ctx]
    exact ⟨ground.noEscape, ground.awake⟩

theorem plainByte_ground {c : UInt8} (noEscape : c ≠ 0x1b) (ground : Ground t.ctx) :
    Ground (plainByte B c t).ctx := by
  unfold plainByte
  split
  · exact ⟨ground.noEscape, ground.awake⟩
  · rw [if_neg (by rw [ground.noEscape]; exact Bool.false_ne_true)]
    split_ifs
    · exact ⟨ground.noEscape, ground.awake⟩
    · exact groundByte_ground noEscape ground

theorem putchar_ground {c : UInt8} (noEscape : c ≠ 0x1b) (ground : Ground t.ctx) :
    Ground (flantermPutchar B c t).ctx := by
  unfold flantermPutchar
  split_ifs
  · exact ⟨rfl, rfl⟩
  · unfold continueCodePoint
    split_ifs
    · exact plainByte_ground noEscape ⟨ground.noEscape, ground.awake⟩
    · dsimp only
      split_ifs
      · exact ⟨ground.noEscape, ground.awake⟩
      · rw [putCodePoint_ctx]
        exact ⟨ground.noEscape, ground.awake⟩
  · exact plainByte_ground noEscape ground

theorem putScalar_ground {c : Char} (noEscape : c ≠ '\x1b') (ground : Ground t.ctx) :
    Ground (putScalar B c t).ctx := by
  unfold putScalar
  split_ifs with ascii
  · refine putchar_ground (fun same => noEscape ?_) ground
    have value := congrArg UInt8.toNat same
    rw [UInt8.toNat_ofNat', Nat.mod_eq_of_lt (by omega)] at value
    exact Char.ext (UInt32.toNat_inj.mp value)
  · rw [putCodePoint_ctx]
    exact ⟨ground.noEscape, ground.awake⟩

/-- The bytes of a text are put as its characters, one after the other, even if a code point
was broken off right before them. -/
theorem putchars_text (text : List Char) (noEscape : '\x1b' ∉ text) (ground : Ground t.ctx) :
    putchars B (text.flatMap String.utf8EncodeChar) t = text.foldl (fun t c => putScalar B c t) t := by
  induction text generalizing t with
  | nil => rfl
  | cons c text ih =>
      have other : c ≠ '\x1b' := fun same => noEscape (same ▸ List.mem_cons_self)
      rw [List.flatMap_cons, putchars, List.foldl_append]
      have first := putchars_scalar (B := B) ground.awake c
      rw [putchars] at first
      rw [first, List.foldl_cons]
      exact ih (fun member => noEscape (List.mem_cons_of_mem _ member)) (putScalar_ground other ground)

theorem putchars_text_small :
    putchars fbBackend (['é', '€'].flatMap String.utf8EncodeChar) smallTerm =
      ['é', '€'].foldl (fun t c => putScalar fbBackend c t) smallTerm :=
  putchars_text _ (by decide) ⟨rfl, rfl⟩

end Nyaux.Flanterm
