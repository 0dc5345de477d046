import Nyaux.Flanterm.Text
import Nyaux.Lib.Decimal

/-! The parameters of a control sequence: decimal numbers between semicolons. -/

namespace Nyaux.Flanterm

open Word

variable {σ : Type} {B : Backend σ} {t : Term σ} {ctx : Context}

/-- The numbers that are given by `first` and the groups after it. An empty group counts as
zero, unless it is the last one. -/
def given : List UInt8 → List (List UInt8) → List Nat
  | first, [] => if first = [] then [] else [decimal first % 2 ^ 32]
  | first, next :: rest => decimal first % 2 ^ 32 :: given next rest

/-- The bytes of `first` and the groups after it, with semicolons between them. -/
def groupBytes (first : List UInt8) (rest : List (List UInt8)) : List UInt8 :=
  first ++ rest.flatMap (0x3b :: ·)

/-- Outside every sequence. -/
structure Idle (ctx : Context) : Prop extends Ground ctx where
  complete : ctx.unicodeRemaining = 0
  gSelect : ctx.gSelect = 0
  noSequence : ctx.controlSequence = false
  noOsc : ctx.osc = false

/-- The context in a control sequence: the values that are complete, and the one that is
being read. -/
def inSequence (offset : Nat) (done : List Nat) (reading : Option Nat) (ctx : Context) : Context :=
  { ctx with
    escape := true
    controlSequence := true
    escapeOffset := offset
    rrr := reading.isSome
    escValuesI := done.length
    escValues := fun i =>
      if i < maxEscValues then (done ++ reading.toList).getD i 0 else ctx.escValues i }

/-! ### One byte -/

def Inner (c : UInt8) : Prop := 0x20 ≤ c ∧ c ≤ 0x7e

theorem inner_alone {c : UInt8} (inner : Inner c) :
    ¬(c = 0x18 ∨ c = 0x1a) ∧ leadByte c = none := by
  have all : ∀ n < 256, 0x20 ≤ UInt8.ofNat n ∧ UInt8.ofNat n ≤ 0x7e →
      ¬(UInt8.ofNat n = 0x18 ∨ UInt8.ofNat n = 0x1a) ∧ leadByte (UInt8.ofNat n) = none := by
    decide +kernel
  have here := all c.toNat c.toNat_lt
  rw [UInt8.ofNat_toNat] at here
  exact here inner

theorem plainByte_escape {c : UInt8} (inner : Inner c) (awake : t.ctx.discardNext = false)
    (complete : t.ctx.unicodeRemaining = 0) (escape : t.ctx.escape = true) :
    flantermPutchar B c t = escapeParse B c t := by
  obtain ⟨noCancel, noLead⟩ := inner_alone inner
  unfold flantermPutchar plainByte
  rw [awake, if_neg fun bad => noCancel (bad.resolve_left Bool.false_ne_true), complete,
    if_neg (not_not.mpr rfl), noLead]
  exact if_pos escape

theorem sequence_putchar (idle : Idle t.ctx) {c : UInt8} (inner : Inner c) (offset : Nat)
    (done : List Nat) (reading : Option Nat) :
    flantermPutchar B c (t.set (inSequence offset done reading)) =
      controlSequenceParse B c (t.set (inSequence (add64 offset 1) done reading)) := by
  rw [plainByte_escape (t := t.set (inSequence offset done reading)) inner idle.awake
    idle.complete rfl]
  unfold escapeParse
  dsimp only
  rw [if_neg, if_pos]
  · rfl
  · rfl
  · change ¬t.ctx.osc = true
    rw [idle.noOsc]
    exact Bool.false_ne_true

theorem digit_inner {c : UInt8} (digit : 0x30 ≤ c ∧ c ≤ 0x39) : Inner c :=
  ⟨UInt8.le_trans (by decide) digit.1, UInt8.le_trans digit.2 (by decide)⟩

theorem inSequence_put (offset : Nat) (done : List Nat) (reading : Option Nat) (value : Nat)
    (ctx : Context) (room : done.length < maxEscValues) :
    { inSequence offset done reading ctx with rrr := true }.putValue done.length value =
      inSequence offset done (some value) ctx := by
  have values : Function.update (inSequence offset done reading ctx).escValues done.length value =
      (inSequence offset done (some value) ctx).escValues := by
    funext i
    unfold inSequence
    rw [Function.update_apply]
    dsimp only
    by_cases here : i = done.length
    · rw [if_pos here, here, if_pos room]
      simp
    · rw [if_neg here]
      by_cases early : i < done.length
      · rw [List.getD_append _ _ _ _ early, List.getD_append _ _ _ _ early]
      · refine if_congr Iff.rfl ?_ rfl
        rw [List.getD_eq_default, List.getD_eq_default]
        · rw [List.length_append]
          change done.length + 1 ≤ i
          omega
        · rw [List.length_append]
          have : reading.toList.length ≤ 1 := by cases reading <;> simp
          omega
  unfold Context.putValue Context.touch
  rw [decide_eq_true room]
  simp only [Bool.not_true, Bool.or_false]
  exact congrArg (fun values => { inSequence offset done (some value) ctx with escValues := values })
    values

theorem inSequence_value (offset : Nat) (done : List Nat) (reading : Option Nat) (ctx : Context)
    (room : done.length < maxEscValues) :
    (inSequence offset done reading ctx).escValues done.length = reading.getD 0 := by
  refine (if_pos room).trans ?_
  cases reading <;> simp

theorem digit_step (idle : Idle t.ctx) {c : UInt8} (digit : 0x30 ≤ c ∧ c ≤ 0x39) (offset : Nat)
    {done : List Nat} {reading : Option Nat} (room : done.length < maxEscValues) :
    flantermPutchar B c (t.set (inSequence offset done reading)) =
      t.set (inSequence (add64 offset 1) done
        (some ((reading.getD 0 * 10 % 2 ^ 32 + (c.toNat - 0x30)) % 2 ^ 32))) := by
  rw [sequence_putchar idle (digit_inner digit)]
  unfold controlSequenceParse
  rw [if_neg (by rintro ⟨_, rfl⟩; exact absurd digit.2 (by decide)),
    if_neg (by rintro ⟨_, rfl⟩; exact absurd digit.2 (by decide)), if_pos digit]
  refine congrArg (Term.mk · t.back) ?_
  have value := inSequence_value (add64 offset 1) done reading t.ctx room
  have put := inSequence_put (add64 offset 1) done reading
    ((reading.getD 0 * 10 % 2 ^ 32 + (c.toNat - 0x30)) % 2 ^ 32) t.ctx room
  rw [← value] at put ⊢
  exact (if_neg (Nat.ne_of_lt room)).trans put

theorem digit_ignored (idle : Idle t.ctx) {c : UInt8} (digit : 0x30 ≤ c ∧ c ≤ 0x39) (offset : Nat)
    {done : List Nat} (full : done.length = maxEscValues) :
    flantermPutchar B c (t.set (inSequence offset done none)) =
      t.set (inSequence (add64 offset 1) done none) := by
  rw [sequence_putchar idle (digit_inner digit)]
  unfold controlSequenceParse
  rw [if_neg (by rintro ⟨_, rfl⟩; exact absurd digit.2 (by decide)),
    if_neg (by rintro ⟨_, rfl⟩; exact absurd digit.2 (by decide)), if_pos digit]
  exact congrArg (Term.mk · t.back) (if_pos full)

def separated (done : List Nat) : Option Nat → List Nat
  | some value => done ++ [value]
  | none => if done.length = maxEscValues then done else done ++ [0]

theorem inSequence_some (offset : Nat) (done : List Nat) (value : Nat) (ctx : Context) :
    { inSequence offset done (some value) ctx with escValuesI := done.length + 1, rrr := false } =
      inSequence offset (done ++ [value]) none ctx := by
  unfold inSequence
  simp

theorem semicolon_step (idle : Idle t.ctx) (offset : Nat) {done : List Nat} (reading : Option Nat)
    (room : done.length ≤ maxEscValues) :
    flantermPutchar B 0x3b (t.set (inSequence offset done reading)) =
      t.set (inSequence (add64 offset 1) (separated done reading) none) := by
  rw [sequence_putchar idle ⟨by decide, by decide⟩]
  unfold controlSequenceParse
  rw [if_neg (by rintro ⟨_, wrong⟩; exact absurd wrong (by decide)),
    if_neg (by rintro ⟨_, wrong⟩; exact absurd wrong (by decide)), if_neg (by decide)]
  cases reading with
  | some value =>
      refine (if_pos rfl).trans ((if_pos rfl).trans ?_)
      exact congrArg (Term.mk · t.back) (inSequence_some _ done value t.ctx)
  | none =>
      refine (if_neg Bool.false_ne_true).trans ((if_pos rfl).trans ?_)
      unfold separated
      by_cases full : done.length = maxEscValues
      · rw [if_pos full]
        exact if_pos full
      · rw [if_neg full]
        refine (if_neg full).trans (congrArg (Term.mk · t.back) ?_)
        have put := inSequence_put (add64 offset 1) done none 0 t.ctx (by omega)
        have next := inSequence_some (add64 offset 1) done 0 t.ctx
        rw [← next, ← put]
        rfl

/-! ### Groups -/

def afterGroup (done : List Nat) (digits : List UInt8) : Option Nat :=
  if digits = [] ∨ done.length = maxEscValues then none else some (decimal digits % 2 ^ 32)

theorem group_run (idle : Idle t.ctx) {digits : List UInt8}
    (all : ∀ c ∈ digits, 0x30 ≤ c ∧ c ≤ 0x39) (offset : Nat) {done : List Nat}
    (room : done.length ≤ maxEscValues) :
    ∃ offset', putchars B digits (t.set (inSequence offset done none)) =
      t.set (inSequence offset' done (afterGroup done digits)) := by
  induction digits using List.reverseRecOn with
  | nil => exact ⟨offset, rfl⟩
  | append_singleton digits c ih =>
      obtain ⟨offset', read⟩ := ih fun c member => all c (List.mem_append_left _ member)
      have digit := all c (List.mem_append_right _ (List.mem_singleton_self c))
      refine ⟨add64 offset' 1, ?_⟩
      have here : putchars B (digits ++ [c]) (t.set (inSequence offset done none)) =
          flantermPutchar B c (putchars B digits (t.set (inSequence offset done none))) := by
        rw [putchars, List.foldl_append]
        rfl
      rw [here, read]
      have some_ : digits ++ [c] ≠ [] := List.append_ne_nil_of_right_ne_nil _ (List.cons_ne_nil _ _)
      by_cases full : done.length = maxEscValues
      · rw [afterGroup, afterGroup, if_pos (.inr full), if_pos (.inr full)]
        exact digit_ignored idle digit offset' full
      · have now : afterGroup done (digits ++ [c]) = some (decimal (digits ++ [c]) % 2 ^ 32) :=
          if_neg fun either => either.elim some_ full
        rw [digit_step idle digit offset' (by omega), now, decimal_concat]
        refine congrArg (fun value => t.set (inSequence (add64 offset' 1) done (some value))) ?_
        by_cases first : digits = []
        · rw [first]
          rfl
        · have before : afterGroup done digits = some (decimal digits % 2 ^ 32) :=
            if_neg fun either => either.elim first full
          rw [before, Option.getD_some]
          omega

def closed (done : List Nat) (reading : Option Nat) : List Nat := done ++ reading.toList

theorem separated_room {done : List Nat} (digits : List UInt8) (room : done.length ≤ maxEscValues) :
    separated done (afterGroup done digits) = (done ++ [decimal digits % 2 ^ 32]).take maxEscValues := by
  unfold afterGroup separated
  by_cases full : done.length = maxEscValues
  · rw [if_pos (.inr full), if_pos full, List.take_append_of_le_length (by omega),
      List.take_of_length_le (by omega)]
  · have fits : (done ++ [decimal digits % 2 ^ 32]).length ≤ maxEscValues := by
      rw [List.length_append, List.length_singleton]
      omega
    rw [List.take_of_length_le fits]
    by_cases first : digits = []
    · rw [if_pos (.inl first), if_neg full, first]
      rfl
    · rw [if_neg fun either => either.elim first full]

theorem closed_room {done : List Nat} (digits : List UInt8) (room : done.length ≤ maxEscValues) :
    closed done (afterGroup done digits) = (done ++ given digits []).take maxEscValues := by
  unfold closed afterGroup given
  by_cases full : done.length = maxEscValues
  · rw [if_pos (.inr full), List.take_append_of_le_length (by omega),
      List.take_of_length_le (by omega)]
    exact List.append_nil done
  · by_cases first : digits = []
    · rw [if_pos (.inl first), if_pos first, List.take_of_length_le (by rw [List.append_nil]; omega)]
      rfl
    · rw [if_neg fun either => either.elim first full, if_neg first, List.take_of_length_le]
      · rfl
      · rw [List.length_append, List.length_singleton]
        omega

theorem take_append_take (l m : List Nat) (n : Nat) : (l.take n ++ m).take n = (l ++ m).take n := by
  rcases le_total l.length n with short | long
  · rw [List.take_of_length_le short]
  · have exact_ : (l.take n).length = n := by rw [List.length_take, Nat.min_eq_left long]
    rw [List.take_append_of_le_length exact_.ge, List.take_take, Nat.min_self,
      List.take_append_of_le_length long]

theorem groups_run (idle : Idle t.ctx) {rest : List (List UInt8)} :
    ∀ (first : List UInt8) (done : List Nat) (offset : Nat),
      (∀ digits ∈ first :: rest, ∀ c ∈ digits, 0x30 ≤ c ∧ c ≤ 0x39) →
      done.length ≤ maxEscValues →
      ∃ offset' done' reading,
        putchars B (groupBytes first rest) (t.set (inSequence offset done none)) =
            t.set (inSequence offset' done' reading) ∧
          closed done' reading = (done ++ given first rest).take maxEscValues := by
  induction rest with
  | nil =>
      intro first done offset all room
      obtain ⟨offset', read⟩ := group_run (B := B) idle (all first List.mem_cons_self) offset room
      refine ⟨offset', done, afterGroup done first, ?_, closed_room first room⟩
      rw [groupBytes, List.flatMap_nil, List.append_nil]
      exact read
  | cons next rest ih =>
      intro first done offset all room
      obtain ⟨offset₁, read⟩ := group_run (B := B) idle (all first List.mem_cons_self) offset room
      have separate := semicolon_step (B := B) idle offset₁ (afterGroup done first) room
      have shorter : (separated done (afterGroup done first)).length ≤ maxEscValues := by
        rw [separated_room first room, List.length_take]
        exact Nat.min_le_left _ _
      obtain ⟨offset₂, done₂, reading₂, run, value⟩ := ih next
        (separated done (afterGroup done first)) (add64 offset₁ 1)
        (fun digits member => all digits (List.mem_cons_of_mem _ member)) shorter
      refine ⟨offset₂, done₂, reading₂, ?_, ?_⟩
      · rw [groupBytes, List.flatMap_cons, putchars, List.foldl_append, List.cons_append,
          List.foldl_cons]
        rw [putchars] at read
        rw [read, separate]
        exact run
      · rw [value, separated_room first room, given, take_append_take, List.append_assoc]
        rfl

/-! ### Whole sequences -/

/-- A byte that ends a control sequence, wherever it stands. -/
def Final (c : UInt8) : Prop := 0x40 ≤ c ∧ c ≤ 0x7e ∧ c ≠ 0x5b

theorem final_step (idle : Idle t.ctx) {c : UInt8} (final : Final c) (offset : Nat) (done : List Nat)
    (reading : Option Nat) :
    flantermPutchar B c (t.set (inSequence offset done reading)) =
      finishSequence B c (t.set (inSequence (add64 offset 1) (closed done reading) none)) := by
  obtain ⟨low, high, other⟩ := final
  have inner : Inner c := ⟨UInt8.le_trans (by decide) low, high⟩
  have noMark : c ≠ 0x3f := by rintro rfl; exact absurd low (by decide)
  have noDigit : ¬(0x30 ≤ c ∧ c ≤ 0x39) := fun digit =>
    absurd (UInt8.le_trans low digit.2) (by decide)
  have noSemicolon : c ≠ 0x3b := by rintro rfl; exact absurd low (by decide)
  rw [sequence_putchar idle inner]
  unfold controlSequenceParse
  rw [if_neg fun both => other both.2, if_neg fun both => noMark both.2, if_neg noDigit]
  cases reading with
  | some value =>
      refine (if_pos rfl).trans ((if_neg noSemicolon).trans ?_)
      refine congrArg (fun ctx => finishSequence B c ⟨ctx, t.back⟩) ?_
      exact inSequence_some _ done value t.ctx
  | none =>
      refine (if_neg Bool.false_ne_true).trans ((if_neg noSemicolon).trans ?_)
      rw [closed, Option.toList_none, List.append_nil]

theorem escape_step (idle : Idle t.ctx) :
    flantermPutchar B 0x1b t = t.set fun ctx => { ctx with escapeOffset := 0, escape := true } := by
  have noLead : leadByte 0x1b = none := by decide
  unfold flantermPutchar plainByte groundByte
  rw [idle.awake, if_neg (by decide), idle.complete, if_neg (not_not.mpr rfl), noLead]
  dsimp only
  rw [idle.noEscape, if_neg Bool.false_ne_true, idle.gSelect, if_neg (not_not.mpr rfl)]
  rfl

theorem bracket_step (idle : Idle t.ctx) :
    flantermPutchar B 0x5b (t.set fun ctx => { ctx with escapeOffset := 0, escape := true }) =
      t.set (inSequence 1 [] none) := by
  rw [plainByte_escape (t := t.set fun ctx => { ctx with escapeOffset := 0, escape := true })
    ⟨by decide, by decide⟩ idle.awake idle.complete rfl]
  unfold escapeParse
  dsimp only
  rw [if_neg, if_neg]
  · rfl
  · change ¬t.ctx.controlSequence = true
    rw [idle.noSequence]
    exact Bool.false_ne_true
  · change ¬t.ctx.osc = true
    rw [idle.noOsc]
    exact Bool.false_ne_true

/-- Every way of writing down parameters is read back: the byte at the end finds the values of
the first sixteen, and the rest of the context as it was. -/
theorem sequence_parameters (idle : Idle t.ctx) (first : List UInt8) (rest : List (List UInt8))
    (all : ∀ digits ∈ first :: rest, ∀ c ∈ digits, 0x30 ≤ c ∧ c ≤ 0x39) {c : UInt8}
    (final : Final c) :
    ∃ offset, putchars B (0x1b :: 0x5b :: (groupBytes first rest ++ [c])) t =
      finishSequence B c
        (t.set (inSequence offset ((given first rest).take maxEscValues) none)) := by
  obtain ⟨offset, done, reading, run, values⟩ :=
    groups_run (B := B) idle first [] 1 all (Nat.zero_le maxEscValues)
  refine ⟨add64 offset 1, ?_⟩
  rw [List.nil_append] at values
  rw [putchars, List.foldl_cons, List.foldl_cons, escape_step idle, bracket_step idle,
    List.foldl_append]
  rw [putchars] at run
  rw [run, ← values]
  exact final_step idle final offset done reading

theorem sequence_parameters_small :
    ∃ offset, putchars fbBackend [0x1b, 0x5b, 0x32, 0x3b, 0x31, 0x30, 0x48] smallTerm =
      finishSequence fbBackend 0x48 (smallTerm.set (inSequence offset [2, 10] none)) :=
  sequence_parameters ⟨⟨rfl, rfl⟩, rfl, rfl, rfl, rfl⟩ [0x32] [[0x31, 0x30]] (by simp)
    ⟨by decide, by decide, by decide⟩

/-! ### What the sequence does -/

def escDefault (c : UInt8) : Nat := if c = 0x4a ∨ c = 0x4b ∨ c = 0x71 then 0 else 1

def ready (c : UInt8) (offset : Nat) (values : List Nat) (ctx : Context) : Context :=
  { fillDefaults c (inSequence offset values none ctx) with scrollEnabled := false }

theorem ready_value {c : UInt8} {offset i : Nat} {values : List Nat} (inside : i < maxEscValues) :
    (ready c offset values ctx).escValues i = values.getD i (escDefault c) := by
  change (if values.length ≤ i ∧ i < maxEscValues then escDefault c
    else if i < maxEscValues then (values ++ []).getD i 0 else ctx.escValues i) = _
  by_cases beyond : values.length ≤ i
  · rw [if_pos ⟨beyond, inside⟩, List.getD_eq_default _ _ beyond]
  · rw [if_neg fun both => beyond both.1, if_pos inside, List.append_nil,
      List.getD_eq_getElem _ _ (by omega), List.getD_eq_getElem _ _ (by omega)]

theorem sequence_back (idle : Idle t.ctx) (noPrivate : t.ctx.decPrivate = false)
    (first : List UInt8) (rest : List (List UInt8))
    (all : ∀ digits ∈ first :: rest, ∀ c ∈ digits, 0x30 ≤ c ∧ c ≤ 0x39) {c : UInt8}
    (final : Final c) :
    ∃ offset, (putchars B (0x1b :: 0x5b :: (groupBytes first rest ++ [c])) t).back =
      (dispatchAtCursor B c (t.set (ready c offset ((given first rest).take maxEscValues)))).back := by
  obtain ⟨offset, run⟩ := sequence_parameters (B := B) idle first rest all final
  refine ⟨offset, ?_⟩
  rw [run]
  unfold finishSequence
  dsimp only
  rw [if_neg]
  · rfl
  · change ¬t.ctx.decPrivate = true
    rw [noPrivate]
    exact Bool.false_ne_true

end Nyaux.Flanterm
