import Nyaux.Flanterm.Putchar

/-! What every byte keeps true of the context, and two backends under the same bytes. -/

namespace Nyaux.Flanterm

structure OnScreen (rows cols : Nat) (ctx : Context) : Prop where
  sameRows : ctx.rows = rows
  sameCols : ctx.cols = cols
  someRow : 0 < rows
  someCol : 0 < cols
  top : ctx.scrollTopMargin < rows
  someBottom : 0 < ctx.scrollBottomMargin
  bottom : ctx.scrollBottomMargin ≤ rows

structure Sound (rows cols : Nat) (ctx : Context) : Prop where
  sameRows : ctx.rows = rows
  sameCols : ctx.cols = cols
  someRow : 0 < rows
  someCol : 0 < cols
  margins : ctx.scrollTopMargin < ctx.scrollBottomMargin
  bottom : ctx.scrollBottomMargin ≤ rows
  values : ctx.escValuesI ≤ maxEscValues
  digits : ctx.rrr = true → ctx.escValuesI < maxEscValues
  unicode : ctx.unicodeRemaining ≤ 3
  gSelect : ctx.gSelect ≤ 2
  charset : ctx.currentCharset < 2
  savedCharset : ctx.savedStateCurrentCharset < 2
  primary : ∀ colour ∈ ctx.currentPrimary, colour < 8
  bg : ∀ colour ∈ ctx.currentBg, colour < 8
  savedPrimary : ∀ colour ∈ ctx.savedStateCurrentPrimary, colour < 8
  savedBg : ∀ colour ∈ ctx.savedStateCurrentBg, colour < 8
  tab : ctx.tabSize = 8
  autoflush : ctx.autoflush = true
  noFault : ctx.fault = false

variable {rows cols : Nat} {ctx : Context}

theorem Sound.onScreen (sound : Sound rows cols ctx) : OnScreen rows cols ctx :=
  { sameRows := sound.sameRows, sameCols := sound.sameCols, someRow := sound.someRow, someCol := sound.someCol,
    top := lt_of_lt_of_le sound.margins sound.bottom, someBottom := by have := sound.margins; omega,
    bottom := sound.bottom }

/-! ### Assignments that keep the invariant -/

theorem Sound.touch (sound : Sound rows cols ctx) {inside : Bool} (true_ : inside = true) :
    Sound rows cols (ctx.touch inside) :=
  { sound with noFault := by simp [Context.touch, sound.noFault, true_] }

theorem Sound.report (sound : Sound rows cols ctx) (event : Event) :
    Sound rows cols (ctx.report event) := by
  unfold Context.report
  split_ifs
  · exact { sound with }
  · exact sound

theorem Sound.putValue (sound : Sound rows cols ctx) {i : Nat} (value : Nat)
    (inside : i < maxEscValues) : Sound rows cols (ctx.putValue i value) :=
  { sound.touch (decide_eq_true inside) with }

theorem Sound.reinit (sound : Sound rows cols ctx) : Sound rows cols (flantermContextReinit ctx) :=
  { sameRows := sound.sameRows
    sameCols := sound.sameCols
    someRow := sound.someRow
    someCol := sound.someCol
    margins := by simp only [flantermContextReinit, sound.sameRows]; exact sound.someRow
    bottom := by simp only [flantermContextReinit, sound.sameRows]; exact le_rfl
    values := Nat.zero_le _
    digits := by intro on; cases on
    unicode := by simp only [flantermContextReinit]; omega
    gSelect := by simp only [flantermContextReinit]; omega
    charset := by simp only [flantermContextReinit]; omega
    savedCharset := sound.savedCharset
    primary := by intro _ member; cases member
    bg := by intro _ member; cases member
    savedPrimary := sound.savedPrimary
    savedBg := sound.savedBg
    tab := rfl
    autoflush := rfl
    noFault := sound.noFault }

theorem Sound.atLeastOne (sound : Sound rows cols ctx) {i : Nat} (inside : i < maxEscValues) :
    Sound rows cols (atLeastOne i ctx) := by
  unfold Flanterm.atLeastOne
  split_ifs
  · exact sound.putValue 1 inside
  · exact sound

theorem Sound.setMargins (sound : Sound rows cols ctx) : Sound rows cols (setMargins ctx) := by
  have sound := (sound.atLeastOne (i := 0) (by decide)).atLeastOne (i := 1) (by decide)
  unfold Flanterm.setMargins
  generalize Flanterm.atLeastOne 1 (Flanterm.atLeastOne 0 ctx) = ctx at sound
  have size := sound.sameRows
  dsimp only
  generalize (if ctx.escValuesI > 0 then ctx.escValues 0 - 1 else 0) = top
  generalize (if ctx.escValuesI > 1 then ctx.escValues 1 else ctx.rows) = bottom
  split_ifs with outside
  · exact { sound with
      margins := by simp only [size]; exact sound.someRow
      bottom := by simp only [size]; exact le_rfl }
  · exact { sound with
      margins := by dsimp only; omega
      bottom := by dsimp only; omega }

theorem Sound.startSequence (sound : Sound rows cols ctx) :
    Sound rows cols (startSequence ctx) :=
  { sound with values := Nat.zero_le _, digits := by intro on; cases on }

theorem Sound.pushDigit (sound : Sound rows cols ctx) (c : UInt8) :
    Sound rows cols (pushDigit c ctx) := by
  unfold Flanterm.pushDigit
  split_ifs with full
  · exact sound
  · have room : ctx.escValuesI < maxEscValues := lt_of_le_of_ne sound.values full
    have reading : Sound rows cols { ctx with rrr := true } :=
      { sound with digits := fun _ => room }
    exact reading.putValue _ room

theorem Sound.selectCharset (sound : Sound rows cols ctx) (c : UInt8) :
    Sound rows cols (selectCharset c ctx) := by
  have inside : ctx.gSelect - 1 < 2 := by have := sound.gSelect; omega
  exact { sound.touch (decide_eq_true inside) with gSelect := Nat.zero_le 2 }

theorem Sound.modeToggle (sound : Sound rows cols ctx) (c : UInt8) :
    Sound rows cols (modeToggle c ctx) := by
  unfold Flanterm.modeToggle
  split
  · exact sound
  · cases setOrReset c with
    | none => exact sound
    | some set =>
        dsimp only
        split
        · exact { sound with }
        · exact sound.report _

theorem Sound.linuxPrivateParse (sound : Sound rows cols ctx) :
    Sound rows cols (linuxPrivateParse ctx) := by
  unfold Flanterm.linuxPrivateParse
  split_ifs
  · exact sound
  · exact sound.report _

theorem Sound.decPrivateParse (sound : Sound rows cols ctx) (c : UInt8) :
    Sound rows cols (decPrivateParse c ctx) := by
  have cleared : Sound rows cols { ctx with decPrivate := false } := { sound with }
  unfold Flanterm.decPrivateParse
  dsimp only
  split
  · exact cleared
  · cases setOrReset c with
    | none => exact cleared
    | some set =>
        dsimp only
        split
        · exact { sound with }
        · exact cleared.report _

theorem Sound.oscParse (sound : Sound rows cols ctx) (c : UInt8) :
    Sound rows cols (oscParse c ctx) := by
  unfold Flanterm.oscParse
  dsimp only
  split_ifs <;> exact { sound with }

/-! ### Two backends -/

section

variable {σ τ : Type}

structure Simulates (rows cols : Nat) (R : σ → τ → Prop) (B : Backend σ) (C : Backend τ) :
    Prop where
  rawPutchar {ctx s u} (c : UInt8) : OnScreen rows cols ctx → R s u →
    R (B.rawPutchar c ctx s) (C.rawPutchar c ctx u)
  clear {ctx s u} (move : Bool) : OnScreen rows cols ctx → R s u →
    R (B.clear move ctx s) (C.clear move ctx u)
  setCursorPos {ctx s u} (x y : Nat) : OnScreen rows cols ctx → R s u →
    R (B.setCursorPos x y ctx s) (C.setCursorPos x y ctx u)
  getCursorPos {ctx s u} : OnScreen rows cols ctx → R s u →
    B.getCursorPos ctx s = C.getCursorPos ctx u
  cursorX {ctx s u} : OnScreen rows cols ctx → R s u → (B.getCursorPos ctx s).1 < cols
  cursorY {ctx s u} : OnScreen rows cols ctx → R s u → (B.getCursorPos ctx s).2 < rows
  setTextFg {ctx s u} (fg : Nat) : fg < 8 → R s u →
    R (B.setTextFg fg ctx s) (C.setTextFg fg ctx u)
  setTextBg {ctx s u} (bg : Nat) : bg < 8 → R s u →
    R (B.setTextBg bg ctx s) (C.setTextBg bg ctx u)
  setTextFgBright {ctx s u} (fg : Nat) : fg < 8 → R s u →
    R (B.setTextFgBright fg ctx s) (C.setTextFgBright fg ctx u)
  setTextBgBright {ctx s u} (bg : Nat) : bg < 8 → R s u →
    R (B.setTextBgBright bg ctx s) (C.setTextBgBright bg ctx u)
  setTextFgRgb {ctx s u} (fg : UInt32) : R s u →
    R (B.setTextFgRgb fg ctx s) (C.setTextFgRgb fg ctx u)
  setTextBgRgb {ctx s u} (bg : UInt32) : R s u →
    R (B.setTextBgRgb bg ctx s) (C.setTextBgRgb bg ctx u)
  setTextFgDefault {ctx s u} : R s u → R (B.setTextFgDefault ctx s) (C.setTextFgDefault ctx u)
  setTextBgDefault {ctx s u} : R s u → R (B.setTextBgDefault ctx s) (C.setTextBgDefault ctx u)
  setTextFgDefaultBright {ctx s u} : R s u →
    R (B.setTextFgDefaultBright ctx s) (C.setTextFgDefaultBright ctx u)
  setTextBgDefaultBright {ctx s u} : R s u →
    R (B.setTextBgDefaultBright ctx s) (C.setTextBgDefaultBright ctx u)
  moveCharacter {ctx s u} (newX newY oldX oldY : Nat) : OnScreen rows cols ctx → R s u →
    R (B.moveCharacter newX newY oldX oldY ctx s) (C.moveCharacter newX newY oldX oldY ctx u)
  scroll {ctx s u} : OnScreen rows cols ctx → R s u → R (B.scroll ctx s) (C.scroll ctx u)
  revscroll {ctx s u} : OnScreen rows cols ctx → R s u → R (B.revscroll ctx s) (C.revscroll ctx u)
  swapPalette {ctx s u} : R s u → R (B.swapPalette ctx s) (C.swapPalette ctx u)
  saveState {ctx s u} : R s u → R (B.saveState ctx s) (C.saveState ctx u)
  restoreState {ctx s u} : R s u → R (B.restoreState ctx s) (C.restoreState ctx u)
  doubleBufferFlush {ctx s u} : OnScreen rows cols ctx → R s u →
    R (B.doubleBufferFlush ctx s) (C.doubleBufferFlush ctx u)

structure Related (rows cols : Nat) (R : σ → τ → Prop) (t : Term σ) (u : Term τ) : Prop where
  same : u.ctx = t.ctx
  sound : Sound rows cols t.ctx
  back : R t.back u.back

variable {R : σ → τ → Prop} {B : Backend σ} {C : Backend τ} {t : Term σ} {u : Term τ}

theorem Related.set (related : Related rows cols R t u) {assign : Context → Context}
    (keeps : Sound rows cols (assign t.ctx)) : Related rows cols R (t.set assign) (u.set assign) :=
  ⟨congrArg assign related.same, keeps, related.back⟩

theorem Related.act (related : Related rows cols R t u) {f : Context → σ → σ} {g : Context → τ → τ}
    (step : R t.back u.back → R (f t.ctx t.back) (g t.ctx u.back)) :
    Related rows cols R (t.act f) (u.act g) := by
  refine ⟨related.same, related.sound, ?_⟩
  rw [Term.act_back, Term.act_back, related.same]
  exact step related.back

theorem Related.repeated (related : Related rows cols R t u) {f : Term σ → Term σ}
    {g : Term τ → Term τ}
    (step : ∀ {t u}, Related rows cols R t u → Related rows cols R (f t) (g u)) (count : Nat) :
    Related rows cols R (repeated count f t) (repeated count g u) := by
  unfold Flanterm.repeated
  induction count generalizing t u with
  | zero => exact related
  | succ count ih => exact ih (step related)

theorem Related.upTo (related : Related rows cols R t u) {f : Nat → Term σ → Term σ}
    {g : Nat → Term τ → Term τ}
    (step : ∀ i {t u}, Related rows cols R t u → Related rows cols R (f i t) (g i u))
    (first stop : Nat) :
    Related rows cols R (upTo first stop f t) (upTo first stop g u) := by
  unfold Flanterm.upTo
  induction List.range' first (stop - first) generalizing t u with
  | nil => exact related
  | cons i rest ih => exact ih (step i related)

theorem Related.downTo (related : Related rows cols R t u) {f : Nat → Term σ → Term σ}
    {g : Nat → Term τ → Term τ}
    (step : ∀ i {t u}, Related rows cols R t u → Related rows cols R (f i t) (g i u))
    (last first : Nat) :
    Related rows cols R (downTo last first f t) (downTo last first g u) := by
  unfold Flanterm.downTo
  induction List.range' first (last + 1 - first) with
  | nil => exact related
  | cons i rest ih => exact step i ih

end

end Nyaux.Flanterm
