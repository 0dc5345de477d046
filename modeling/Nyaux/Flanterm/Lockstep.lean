import Nyaux.Flanterm.Simulation

/-! Two terminals whose backends simulate one another stay together under every byte. -/

namespace Nyaux.Flanterm

theorem no_colour : ∀ colour ∈ (none : Option Nat), colour < 8 := by
  intro _ member
  cases member

theorem one_colour {n : Nat} (small : n < 8) : ∀ colour ∈ some n, colour < 8 := by
  intro _ member
  cases member
  exact small

theorem zero_value : 0 < maxEscValues := by decide

theorem one_value : 1 < maxEscValues := by decide

variable {σ τ : Type} {rows cols : Nat} {R : σ → τ → Prop} {B : Backend σ} {C : Backend τ}
variable (sim : Simulates rows cols R B C) {t : Term σ} {u : Term τ}
variable (related : Related rows cols R t u)

theorem Related.choose (related : Related rows cols R t u) {p : Prop} [Decidable p]
    {f f' : Context → σ → σ} {g g' : Context → τ → τ}
    (yes : R t.back u.back → R (f t.ctx t.back) (g t.ctx u.back))
    (no : R t.back u.back → R (f' t.ctx t.back) (g' t.ctx u.back)) :
    Related rows cols R (t.act (if p then f else f')) (u.act (if p then g else g')) := by
  split
  · exact related.act yes
  · exact related.act no

theorem Related.ite {p : Prop} [Decidable p] {t t' : Term σ} {u u' : Term τ}
    (yes : p → Related rows cols R t u) (no : ¬p → Related rows cols R t' u') :
    Related rows cols R (if p then t else t') (if p then u else u') := by
  split
  · exact yes ‹_›
  · exact no ‹_›

include sim related

/-! ### Colours -/

theorem sgrReverse_related (on : Bool) :
    Related rows cols R (sgrReverse B on t) (sgrReverse C on u) := by
  unfold sgrReverse
  rw [related.same]
  split
  · exact related
  · exact (related.set { related.sound with }).act sim.swapPalette

theorem sgrReset_related : Related rows cols R (sgrReset B t) (sgrReset C u) := by
  have plain := sgrReverse_related sim related false
  exact ((plain.set { plain.sound with primary := no_colour, bg := no_colour }).act
    sim.setTextBgDefault).act sim.setTextFgDefault

omit sim in
theorem sgrIntensity_related {colour : Option Nat} (small : ∀ n ∈ colour, n < 8)
    {set setReversed : Nat → Context → σ → σ} {setDefault setDefaultReversed : Context → σ → σ}
    {set' setReversed' : Nat → Context → τ → τ} {setDefault' setDefaultReversed' : Context → τ → τ}
    (first : ∀ n {ctx s u}, n < 8 → R s u → R (set n ctx s) (set' n ctx u))
    (second : ∀ n {ctx s u}, n < 8 → R s u → R (setReversed n ctx s) (setReversed' n ctx u))
    (third : ∀ {ctx s u}, R s u → R (setDefault ctx s) (setDefault' ctx u))
    (fourth : ∀ {ctx s u}, R s u → R (setDefaultReversed ctx s) (setDefaultReversed' ctx u)) :
    Related rows cols R (sgrIntensity colour set setReversed setDefault setDefaultReversed t)
      (sgrIntensity colour set' setReversed' setDefault' setDefaultReversed' u) := by
  unfold sgrIntensity
  rw [related.same]
  cases colour with
  | some n => exact related.choose (second n (small n rfl)) (first n (small n rfl))
  | none => exact related.choose fourth third

theorem sgrBold_related : Related rows cols R (sgrBold B t) (sgrBold C u) := by
  unfold sgrBold
  simp only [Term.set_ctx, related.same]
  exact sgrIntensity_related (related.set { related.sound with }) related.sound.primary
    (fun n => sim.setTextFgBright n) (fun n => sim.setTextBgBright n) sim.setTextFgDefaultBright
    sim.setTextBgDefaultBright

theorem sgrBgBold_related : Related rows cols R (sgrBgBold B t) (sgrBgBold C u) := by
  unfold sgrBgBold
  simp only [Term.set_ctx, related.same]
  exact sgrIntensity_related (related.set { related.sound with }) related.sound.bg
    (fun n => sim.setTextBgBright n) (fun n => sim.setTextFgBright n) sim.setTextBgDefaultBright
    sim.setTextFgDefaultBright

theorem sgrNotBold_related : Related rows cols R (sgrNotBold B t) (sgrNotBold C u) := by
  unfold sgrNotBold
  simp only [Term.set_ctx, related.same]
  exact sgrIntensity_related (related.set { related.sound with }) related.sound.primary
    (fun n => sim.setTextFg n) (fun n => sim.setTextBg n) sim.setTextFgDefault sim.setTextBgDefault

theorem sgrNotBgBold_related : Related rows cols R (sgrNotBgBold B t) (sgrNotBgBold C u) := by
  unfold sgrNotBgBold
  simp only [Term.set_ctx, related.same]
  exact sgrIntensity_related (related.set { related.sound with }) related.sound.bg
    (fun n => sim.setTextBg n) (fun n => sim.setTextFg n) sim.setTextBgDefault sim.setTextFgDefault

theorem sgrSetFg_related {n : Nat} (small : n < 8) :
    Related rows cols R (sgrSetFg B n t) (sgrSetFg C n u) := by
  unfold sgrSetFg
  rw [related.same]
  exact related.choose (sim.setTextFgBright n small) (sim.setTextFg n small)

theorem sgrSetBg_related {n : Nat} (small : n < 8) :
    Related rows cols R (sgrSetBg B n t) (sgrSetBg C n u) := by
  unfold sgrSetBg
  rw [related.same]
  exact related.choose (sim.setTextBgBright n small) (sim.setTextBg n small)

theorem unreversed_related {f : Context → σ → σ} {g : Context → τ → τ}
    (call : ∀ {ctx s u}, R s u → R (f ctx s) (g ctx u)) :
    Related rows cols R (unreversed B f t) (unreversed C g u) := by
  unfold unreversed
  rw [related.same]
  split
  · exact ((related.act sim.swapPalette).act call).act sim.swapPalette
  · exact related.act call

theorem sgrDefaultFg_related : Related rows cols R (sgrDefaultFg B t) (sgrDefaultFg C u) := by
  unfold sgrDefaultFg
  simp only [Term.set_ctx, related.same]
  refine .ite (fun _ => ?_) fun _ => ?_
  · exact unreversed_related sim (related.set { related.sound with primary := no_colour })
      sim.setTextFgDefaultBright
  · exact unreversed_related sim (related.set { related.sound with primary := no_colour })
      sim.setTextFgDefault

theorem sgrDefaultBg_related : Related rows cols R (sgrDefaultBg B t) (sgrDefaultBg C u) := by
  unfold sgrDefaultBg
  simp only [Term.set_ctx, related.same]
  refine .ite (fun _ => ?_) fun _ => ?_
  · exact unreversed_related sim (related.set { related.sound with bg := no_colour })
      sim.setTextBgDefaultBright
  · exact unreversed_related sim (related.set { related.sound with bg := no_colour })
      sim.setTextBgDefault

theorem sgrValue_related (value : Nat) :
    Related rows cols R (sgrValue B value t) (sgrValue C value u) := by
  have primary : ∀ {n}, n < 8 → Related rows cols R
      (t.set fun ctx => { ctx with currentPrimary := some n })
      (u.set fun ctx => { ctx with currentPrimary := some n }) := fun small =>
    related.set { related.sound with primary := one_colour small }
  have bg : ∀ {n}, n < 8 → Related rows cols R
      (t.set fun ctx => { ctx with currentBg := some n })
      (u.set fun ctx => { ctx with currentBg := some n }) := fun small =>
    related.set { related.sound with bg := one_colour small }
  unfold sgrValue
  refine .ite (fun _ => sgrReset_related sim related) fun _ => ?_
  refine .ite (fun _ => sgrBold_related sim related) fun _ => ?_
  refine .ite (fun _ => sgrBgBold_related sim related) fun _ => ?_
  refine .ite (fun _ => sgrNotBold_related sim related) fun _ => ?_
  refine .ite (fun _ => sgrNotBgBold_related sim related) fun _ => ?_
  refine .ite (fun range => ?_) fun _ => ?_
  · have small : value - 30 < 8 := by omega
    dsimp only
    rw [(primary small).same]
    exact .ite (fun _ => sgrSetBg_related sim (primary small) small)
      fun _ => sgrSetFg_related sim (primary small) small
  refine .ite (fun range => ?_) fun _ => ?_
  · have small : value - 40 < 8 := by omega
    dsimp only
    rw [(bg small).same]
    exact .ite (fun _ => sgrSetFg_related sim (bg small) small)
      fun _ => sgrSetBg_related sim (bg small) small
  refine .ite (fun range => ?_) fun _ => ?_
  · have small : value - 90 < 8 := by omega
    dsimp only
    rw [(primary small).same]
    exact (primary small).choose (sim.setTextBgBright _ small) (sim.setTextFgBright _ small)
  refine .ite (fun range => ?_) fun _ => ?_
  · have small : value - 100 < 8 := by omega
    dsimp only
    rw [(bg small).same]
    exact (bg small).choose (sim.setTextFgBright _ small) (sim.setTextBgBright _ small)
  refine .ite (fun _ => sgrDefaultFg_related sim related) fun _ => ?_
  refine .ite (fun _ => sgrDefaultBg_related sim related) fun _ => ?_
  refine .ite (fun _ => sgrReverse_related sim related true) fun _ => ?_
  exact .ite (fun _ => sgrReverse_related sim related false) fun _ => related

theorem sgrRgb_related (fg : Bool) (rgb : UInt32) :
    Related rows cols R (sgrRgb B fg rgb t) (sgrRgb C fg rgb u) :=
  related.choose (sim.setTextFgRgb rgb) (sim.setTextBgRgb rgb)

theorem sgr256_related (fg : Bool) (col : Nat) :
    Related rows cols R (sgr256 B fg col t) (sgr256 C fg col u) := by
  unfold sgr256
  split
  · rename_i small
    exact related.choose (sim.setTextFg col small) (sim.setTextBg col small)
  · split
    · exact related.choose (sim.setTextFgBright _ (by omega)) (sim.setTextBgBright _ (by omega))
    · split
      · have inside : col - 16 < col256.length := by
          rw [col256_length]
          omega
        exact sgrRgb_related sim (related.set (related.sound.touch (decide_eq_true inside))) fg _
      · exact related

omit related in
theorem sgrLoop_related : ∀ (n : Nat) {values : List Nat} {t : Term σ} {u : Term τ},
    values.length ≤ n → Related rows cols R t u →
      Related rows cols R (sgrLoop B values t) (sgrLoop C values u) := by
  intro n
  induction n with
  | zero =>
      intro values t u short related
      cases List.length_eq_zero_iff.mp (Nat.le_zero.mp short)
      exact related
  | succ n ih =>
      intro values t u short related
      cases values with
      | nil => exact related
      | cons value rest =>
          simp only [List.length_cons] at short
          unfold sgrLoop
          refine .ite (fun _ => ?_) fun _ => ?_
          · cases rest with
            | nil => exact related
            | cons kind rest =>
                simp only [List.length_cons] at short
                refine .ite (fun _ => ?_) fun _ => .ite (fun _ => ?_) fun _ => ?_
                · rcases rest with _ | ⟨r, _ | ⟨g, _ | ⟨b, rest⟩⟩⟩
                  · exact related
                  · exact related
                  · exact related
                  · simp only [List.length_cons] at short
                    exact ih (by omega) (sgrRgb_related sim related _ _)
                · cases rest with
                  | nil => exact related
                  | cons col rest =>
                      simp only [List.length_cons] at short
                      exact ih (by omega) (sgr256_related sim related _ _)
                · exact ih (by omega) related
          · exact ih (by omega) (sgrValue_related sim related value)

theorem sgr_related : Related rows cols R (sgr B t) (sgr C u) := by
  unfold sgr
  simp only [related.same]
  refine .ite (fun _ => sgrReset_related sim related) fun _ => ?_
  exact sgrLoop_related sim _ le_rfl
    (related.set (related.sound.touch (decide_eq_true related.sound.values)))

/-! ### Control sequences -/

theorem setCursor_related (x y : Nat) :
    Related rows cols R (t.act (B.setCursorPos x y)) (u.act (C.setCursorPos x y)) :=
  related.act (sim.setCursorPos x y related.sound.onScreen)

theorem putBlank_related : Related rows cols R (putBlank B t) (putBlank C u) :=
  related.act (sim.rawPutchar 0x20 related.sound.onScreen)

theorem putBlanks_related (count : Nat) :
    Related rows cols R (repeated count (putBlank B) t) (repeated count (putBlank C) u) :=
  related.repeated (putBlank_related sim) count

omit sim in
theorem cut_related {i : Nat} (inside : i < maxEscValues) {p : Context → Prop} [DecidablePred p]
    (value : Context → Nat) :
    Related rows cols R (if p t.ctx then t.set (·.putValue i (value t.ctx)) else t)
      (if p u.ctx then u.set (·.putValue i (value u.ctx)) else u) := by
  rw [related.same]
  exact .ite (fun _ => related.set (related.sound.putValue _ inside)) fun _ => related

theorem cursorUp_related (x y : Nat) :
    Related rows cols R (cursorUp B x y t) (cursorUp C x y u) := by
  have cut := cut_related related (p := fun ctx => ctx.escValues 0 > y) zero_value fun _ => y
  unfold cursorUp
  dsimp only at cut ⊢
  rw [cut.same]
  exact setCursor_related sim cut _ _

theorem cursorDown_related (x y : Nat) :
    Related rows cols R (cursorDown B x y t) (cursorDown C x y u) := by
  have cut := cut_related related (p := fun ctx => y + ctx.escValues 0 > ctx.rows - 1) zero_value
    fun ctx => ctx.rows - 1 - y
  unfold cursorDown
  dsimp only at cut ⊢
  rw [cut.same]
  exact setCursor_related sim cut _ _

theorem cursorForward_related (x y : Nat) :
    Related rows cols R (cursorForward B x y t) (cursorForward C x y u) := by
  have cut := cut_related related (p := fun ctx => x + ctx.escValues 0 > ctx.cols - 1) zero_value
    fun ctx => ctx.cols - 1 - x
  unfold cursorForward
  dsimp only at cut ⊢
  rw [cut.same]
  exact setCursor_related sim cut _ _

theorem cursorBack_related (x y : Nat) :
    Related rows cols R (cursorBack B x y t) (cursorBack C x y u) := by
  have cut := cut_related related (p := fun ctx => ctx.escValues 0 > x) zero_value fun _ => x
  unfold cursorBack
  dsimp only at cut ⊢
  rw [cut.same]
  exact setCursor_related sim cut _ _

omit sim in
theorem clampValue_related (limit : Nat) :
    Related rows cols R (clampValue limit t) (clampValue limit u) := by
  have lowered : Related rows cols R
      (t.set fun ctx => ctx.putValue 0 ((ctx.escValues 0 + (2 ^ 32 - 1)) % 2 ^ 32))
      (u.set fun ctx => ctx.putValue 0 ((ctx.escValues 0 + (2 ^ 32 - 1)) % 2 ^ 32)) :=
    related.set (related.sound.putValue _ zero_value)
  exact cut_related lowered (p := fun ctx => ctx.escValues 0 ≥ limit) zero_value fun _ => limit - 1

theorem cursorToRow_related (x : Nat) :
    Related rows cols R (cursorToRow B x t) (cursorToRow C x u) := by
  have clamped := clampValue_related related t.ctx.rows
  unfold cursorToRow
  dsimp only
  rw [related.same, clamped.same]
  exact setCursor_related sim clamped _ _

theorem cursorToColumn_related (y : Nat) :
    Related rows cols R (cursorToColumn B y t) (cursorToColumn C y u) := by
  have clamped := clampValue_related related t.ctx.cols
  unfold cursorToColumn
  dsimp only
  rw [related.same, clamped.same]
  exact setCursor_related sim clamped _ _

theorem cursorTo_related : Related rows cols R (cursorTo B t) (cursorTo C u) := by
  have cut₁ := cut_related related (p := fun ctx => ctx.escValues 0 ≠ 0) zero_value
    fun ctx => ctx.escValues 0 - 1
  have cut₂ := cut_related cut₁ (p := fun ctx => ctx.escValues 1 ≠ 0) one_value
    fun ctx => ctx.escValues 1 - 1
  have cut₃ := cut_related cut₂ (p := fun ctx => ctx.escValues 1 ≥ ctx.cols) one_value
    fun ctx => ctx.cols - 1
  have cut₄ := cut_related cut₃ (p := fun ctx => ctx.escValues 0 ≥ ctx.rows) zero_value
    fun ctx => ctx.rows - 1
  unfold cursorTo
  dsimp only at cut₄ ⊢
  rw [cut₄.same]
  exact setCursor_related sim cut₄ _ _

theorem deleteLines_related : Related rows cols R (deleteLines B t) (deleteLines C u) := by
  unfold deleteLines
  rw [related.same]
  exact related.repeated (fun related => related.act (sim.scroll related.sound.onScreen)) _

omit related in
/-- `L` lets the region start at the cursor's row for a while, whatever its last row is. -/
theorem revscrolls_related {ctx : Context} (inside : OnScreen rows cols ctx) (count : Nat) {s : σ}
    {r : τ} (same : R s r) : R ((B.revscroll ctx)^[count] s) ((C.revscroll ctx)^[count] r) := by
  induction count generalizing s r with
  | zero => exact same
  | succ count ih => exact ih (sim.revscroll inside same)

omit sim related in
theorem repeated_act (count : Nat) (f : Context → σ → σ) (t : Term σ) :
    repeated count (·.act f) t = ⟨t.ctx, (f t.ctx)^[count] t.back⟩ := by
  unfold repeated
  induction count generalizing t with
  | zero => rfl
  | succ count ih => exact ih (t.act f)

theorem insertLines_related {y : Nat} (inside : y < rows) :
    Related rows cols R (insertLines B y t) (insertLines C y u) := by
  have region : OnScreen rows cols { t.ctx with scrollTopMargin := y } :=
    { related.sound.onScreen with top := inside }
  unfold insertLines
  simp only [repeated_act, Term.set, related.same]
  exact ⟨rfl, related.sound, revscrolls_related sim region _ related.back⟩

omit sim in
theorem deviceStatus_related (x y : Nat) :
    Related rows cols R (deviceStatus x y t) (deviceStatus x y u) := by
  unfold deviceStatus
  rw [related.same]
  split
  · exact related.set (related.sound.report _)
  · exact related.set (related.sound.report _)
  · exact related

theorem eraseUpTo_related (x y : Nat) (left : List (Nat × Nat)) :
    Related rows cols R (eraseUpTo B x y left t) (eraseUpTo C x y left u) := by
  induction left generalizing t u with
  | nil => exact related
  | cons place left ih =>
      have blank := putBlank_related sim related
      exact .ite (fun _ => setCursor_related sim blank x y) fun _ => ih blank

theorem eraseDisplay_related (x y : Nat) :
    Related rows cols R (eraseDisplay B x y t) (eraseDisplay C x y u) := by
  unfold eraseDisplay
  rw [related.same]
  split
  · exact setCursor_related sim (putBlanks_related sim related _) x y
  · exact eraseUpTo_related sim (setCursor_related sim related 0 0) x y _
  · exact related.act (sim.clear false related.sound.onScreen)
  · exact related.act (sim.clear false related.sound.onScreen)
  · exact related

theorem moveCharacter_related (newX newY oldX oldY : Nat) :
    Related rows cols R (t.act (B.moveCharacter newX newY oldX oldY))
      (u.act (C.moveCharacter newX newY oldX oldY)) :=
  related.act (sim.moveCharacter newX newY oldX oldY related.sound.onScreen)

theorem insertBlanks_related (x y : Nat) :
    Related rows cols R (insertBlanks B x y t) (insertBlanks C x y u) := by
  unfold insertBlanks
  dsimp only
  rw [related.same]
  refine setCursor_related sim (related.downTo (fun i _ _ related => ?_) _ x) x y
  exact putBlank_related sim
    (setCursor_related sim (moveCharacter_related sim related _ _ _ _) i y)

theorem eraseCharacters_related (x y : Nat) :
    Related rows cols R (eraseCharacters B x y t) (eraseCharacters C x y u) := by
  unfold eraseCharacters
  dsimp only
  rw [related.same]
  exact setCursor_related sim (putBlanks_related sim related _) x y

theorem deleteCharacters_related (x y : Nat) :
    Related rows cols R (deleteCharacters B x y t) (deleteCharacters C x y u) := by
  have moved := related.upTo
    (fun i _ _ related => moveCharacter_related sim related (i - t.ctx.escValues 0) y i y)
    (x + t.ctx.escValues 0) t.ctx.cols
  unfold deleteCharacters
  dsimp only
  rw [related.same, moved.same]
  exact eraseCharacters_related sim (setCursor_related sim moved _ y) x y

theorem saveCursor_related : Related rows cols R (saveCursor B t) (saveCursor C u) := by
  have cursor := sim.getCursorPos related.sound.onScreen related.back
  unfold saveCursor
  rw [related.same, ← cursor]
  exact related.set { related.sound with }

theorem restoreCursor_related : Related rows cols R (restoreCursor B t) (restoreCursor C u) := by
  unfold restoreCursor
  rw [related.same]
  exact setCursor_related sim related _ _

theorem eraseLine_related (x y : Nat) :
    Related rows cols R (eraseLine B x y t) (eraseLine C x y u) := by
  unfold eraseLine
  rw [related.same]
  split
  · exact setCursor_related sim (putBlanks_related sim related _) x y
  · exact putBlanks_related sim (setCursor_related sim related 0 y) x
  · exact setCursor_related sim
      (putBlanks_related sim (setCursor_related sim related 0 y) _) x y
  · exact related

theorem dispatch_related (c : UInt8) (x : Nat) {y : Nat} (inside : y < rows) :
    Related rows cols R (dispatch B c x y t) (dispatch C c x y u) := by
  unfold dispatch
  split
  · exact cursorUp_related sim related 0 y
  · exact cursorUp_related sim related x y
  · exact cursorDown_related sim related 0 y
  · exact cursorDown_related sim related x y
  · exact cursorDown_related sim related x y
  · exact cursorForward_related sim related x y
  · exact cursorForward_related sim related x y
  · exact cursorBack_related sim related x y
  · exact related.set (related.sound.report _)
  · exact cursorToRow_related sim related x
  · exact cursorToColumn_related sim related y
  · exact cursorToColumn_related sim related y
  · exact cursorTo_related sim related
  · exact cursorTo_related sim related
  · exact deleteLines_related sim related
  · exact insertLines_related sim related inside
  · exact deviceStatus_related related x y
  · exact related.set (related.sound.report _)
  · exact eraseDisplay_related sim related x y
  · exact insertBlanks_related sim related x y
  · exact deleteCharacters_related sim related x y
  · exact eraseCharacters_related sim related x y
  · exact sgr_related sim related
  · exact saveCursor_related sim related
  · exact restoreCursor_related sim related
  · exact eraseLine_related sim related x y
  · exact setCursor_related sim (related.set related.sound.setMargins) 0 0
  · exact related.set (related.sound.modeToggle _)
  · exact related.set (related.sound.modeToggle _)
  · exact related.set related.sound.linuxPrivateParse
  · exact related

theorem dispatchAtCursor_related (c : UInt8) :
    Related rows cols R (dispatchAtCursor B c t) (dispatchAtCursor C c u) := by
  have cursor := sim.getCursorPos related.sound.onScreen related.back
  have inside := sim.cursorY related.sound.onScreen related.back
  unfold dispatchAtCursor
  rw [related.same, ← cursor]
  exact dispatch_related sim related c _ inside

theorem finishSequence_related (c : UInt8) :
    Related rows cols R (finishSequence B c t) (finishSequence C c u) := by
  have filled : Related rows cols R (t.set (fillDefaults c)) (u.set (fillDefaults c)) :=
    related.set { related.sound with }
  unfold finishSequence
  dsimp only
  rw [filled.same]
  refine .ite (fun _ => ?_) fun _ => ?_
  · have parsed := filled.sound.decPrivateParse c
    exact (filled.set parsed).set { parsed with }
  · have still : Related rows cols R
        ((t.set (fillDefaults c)).set fun ctx => { ctx with scrollEnabled := false })
        ((u.set (fillDefaults c)).set fun ctx => { ctx with scrollEnabled := false }) :=
      filled.set { filled.sound with }
    have done := dispatchAtCursor_related sim still c
    exact (done.set { done.sound with }).set { done.sound with }

theorem controlSequenceParse_related (c : UInt8) :
    Related rows cols R (controlSequenceParse B c t) (controlSequenceParse C c u) := by
  unfold controlSequenceParse
  rw [related.same]
  refine .ite (fun _ => ?_) fun _ => ?_
  · exact (related.set { related.sound with }).set { related.sound with }
  refine .ite (fun _ => related.set { related.sound with }) fun _ => ?_
  refine .ite (fun _ => related.set (related.sound.pushDigit c)) fun _ => ?_
  refine .ite (fun given => ?_) fun _ => ?_
  · have room := related.sound.digits given
    have next : Related rows cols R
        (t.set fun ctx => { ctx with escValuesI := ctx.escValuesI + 1, rrr := false })
        (u.set fun ctx => { ctx with escValuesI := ctx.escValuesI + 1, rrr := false }) :=
      related.set { related.sound with
        values := Nat.succ_le_of_lt room, digits := by intro on; cases on }
    exact .ite (fun _ => next) fun _ => finishSequence_related sim next c
  refine .ite (fun _ => ?_) fun _ => finishSequence_related sim related c
  refine .ite (fun _ => related) fun full => ?_
  have room : t.ctx.escValuesI < maxEscValues := lt_of_le_of_ne related.sound.values full
  have zero := related.sound.putValue 0 room
  exact related.set { zero with
    values := Nat.succ_le_of_lt room, digits := by intro on; exact absurd on ‹_› }

/-! ### Bytes -/

theorem lineFeed_related (x y : Nat) :
    Related rows cols R (lineFeed B x y t) (lineFeed C x y u) := by
  unfold lineFeed
  rw [related.same]
  refine .ite (fun _ => ?_) fun _ => setCursor_related sim related x (y + 1)
  exact setCursor_related sim (related.act (sim.scroll related.sound.onScreen)) x y

theorem reverseLineFeed_related (y : Nat) :
    Related rows cols R (reverseLineFeed B y t) (reverseLineFeed C y u) := by
  unfold reverseLineFeed
  rw [related.same]
  refine .ite (fun _ => ?_) fun _ => setCursor_related sim related 0 _
  exact setCursor_related sim (related.act (sim.revscroll related.sound.onScreen)) 0 y

theorem saveState_related : Related rows cols R (saveState B t) (saveState C u) :=
  (related.act sim.saveState).set { related.sound with
    savedCharset := related.sound.charset
    savedPrimary := related.sound.primary
    savedBg := related.sound.bg }

theorem restoreState_related : Related rows cols R (restoreState B t) (restoreState C u) :=
  (related.set { related.sound with
    charset := related.sound.savedCharset
    primary := related.sound.savedPrimary
    bg := related.sound.savedBg }).act sim.restoreState

omit sim in
theorem endEscape_related :
    Related rows cols R (t.set endEscape) (u.set endEscape) :=
  related.set { related.sound with }

theorem escapeSwitch_related (c : UInt8) :
    Related rows cols R (escapeSwitch B c t) (escapeSwitch C c u) := by
  have cursor := sim.getCursorPos related.sound.onScreen related.back
  unfold escapeSwitch
  rw [related.same, ← cursor]
  generalize B.getCursorPos t.ctx t.back = place
  obtain ⟨x, y⟩ := place
  dsimp only
  split
  · exact related.set { related.sound with }
  · exact related.set related.sound.startSequence
  · exact endEscape_related (saveState_related sim related)
  · exact endEscape_related (restoreState_related sim related)
  · have reset := related.set related.sound.reinit
    exact endEscape_related (reset.act (sim.clear true reset.sound.onScreen))
  · exact endEscape_related (lineFeed_related sim related _ _)
  · exact endEscape_related (lineFeed_related sim related _ _)
  · exact endEscape_related (reverseLineFeed_related sim related _)
  · exact endEscape_related (related.set (related.sound.report _))
  · exact endEscape_related (related.set { related.sound with gSelect := one_le_two })
  · exact endEscape_related (related.set { related.sound with gSelect := le_refl 2 })
  · exact endEscape_related related

theorem escapeParse_related (c : UInt8) :
    Related rows cols R (escapeParse B c t) (escapeParse C c u) := by
  have counted : Related rows cols R
      (t.set fun ctx => { ctx with escapeOffset := Word.add64 ctx.escapeOffset 1 })
      (u.set fun ctx => { ctx with escapeOffset := Word.add64 ctx.escapeOffset 1 }) :=
    related.set { related.sound with }
  unfold escapeParse
  dsimp only
  rw [counted.same]
  refine .ite (fun _ => counted.set (counted.sound.oscParse c)) fun _ => ?_
  exact .ite (fun _ => controlSequenceParse_related sim counted c)
    fun _ => escapeSwitch_related sim counted c

theorem putCodePoint_related (codePoint : Nat) :
    Related rows cols R (putCodePoint B codePoint t) (putCodePoint C codePoint u) := by
  unfold putCodePoint
  split
  · exact related.act (sim.rawPutchar _ related.sound.onScreen)
  · refine putBlanks_related sim (.ite (fun _ => ?_) fun _ => related) _
    exact related.act (sim.rawPutchar 0xfe related.sound.onScreen)

theorem tabulate_related (x y : Nat) :
    Related rows cols R (tabulate B x y t) (tabulate C x y u) := by
  unfold tabulate
  rw [related.same]
  exact .ite (fun _ => setCursor_related sim related _ y) fun _ => setCursor_related sim related _ y

theorem makeRoom_related (x y : Nat) :
    Related rows cols R (makeRoom B x y t) (makeRoom C x y u) := by
  unfold makeRoom
  rw [related.same]
  refine .ite (fun _ => ?_) fun _ => related
  exact related.downTo (fun i _ _ related => moveCharacter_related sim related (i + 1) y i y) _ x

theorem putByte_related (c : UInt8) : Related rows cols R (putByte B c t) (putByte C c u) := by
  have checked : Related rows cols R (t.set fun ctx => ctx.touch (ctx.currentCharset < 2))
      (u.set fun ctx => ctx.touch (ctx.currentCharset < 2)) :=
    related.set (related.sound.touch (decide_eq_true related.sound.charset))
  have put : ∀ glyph, Related rows cols R
      ((t.set fun ctx => ctx.touch (ctx.currentCharset < 2)).act (B.rawPutchar glyph))
      ((u.set fun ctx => ctx.touch (ctx.currentCharset < 2)).act (C.rawPutchar glyph)) :=
    fun glyph => checked.act (sim.rawPutchar glyph checked.sound.onScreen)
  unfold putByte
  simp only [Term.set_ctx, related.same]
  split
  · exact put _
  · exact .ite (fun _ => put c) fun _ => put 0xfe

theorem groundByte_related (c : UInt8) :
    Related rows cols R (groundByte B c t) (groundByte C c u) := by
  have cursor := sim.getCursorPos related.sound.onScreen related.back
  unfold groundByte
  rw [related.same, ← cursor]
  generalize B.getCursorPos t.ctx t.back = place
  obtain ⟨x, y⟩ := place
  dsimp only
  split
  · exact related
  · exact related
  · exact related.set { related.sound with }
  · exact tabulate_related sim related _ _
  · exact lineFeed_related sim related _ _
  · exact lineFeed_related sim related _ _
  · exact lineFeed_related sim related _ _
  · exact setCursor_related sim related _ _
  · exact setCursor_related sim related _ _
  · exact related.set (related.sound.report _)
  · exact related.set { related.sound with charset := Nat.one_lt_two }
  · exact related.set { related.sound with charset := Nat.two_pos }
  · exact putByte_related sim (makeRoom_related sim related _ _) c

omit sim related in
theorem leadByte_small {c : UInt8} {remaining bits : Nat}
    (lead : leadByte c = some (remaining, bits)) : remaining ≤ 3 := by
  unfold leadByte at lead
  split_ifs at lead <;> · cases lead; decide

theorem plainByte_related (c : UInt8) :
    Related rows cols R (plainByte B c t) (plainByte C c u) := by
  unfold plainByte
  rw [related.same]
  split
  · rename_i remaining bits lead
    exact related.set { related.sound with unicode := leadByte_small lead }
  · refine .ite (fun _ => escapeParse_related sim related c) fun _ => ?_
    exact .ite (fun _ => related.set (related.sound.selectCharset c))
      fun _ => groundByte_related sim related c

theorem continueCodePoint_related (c : UInt8) :
    Related rows cols R (continueCodePoint B c t) (continueCodePoint C c u) := by
  unfold continueCodePoint
  refine .ite (fun _ => ?_) fun _ => ?_
  · exact plainByte_related sim (related.set { related.sound with unicode := Nat.zero_le 3 }) c
  · have few : t.ctx.unicodeRemaining - 1 ≤ 3 := by have := related.sound.unicode; omega
    have next : Related rows cols R
        (t.set fun ctx =>
          { ctx with
            unicodeRemaining := ctx.unicodeRemaining - 1
            codePoint :=
              ctx.codePoint ||| ((c.toNat &&& 0x3f) <<< (6 * (ctx.unicodeRemaining - 1))) })
        (u.set fun ctx =>
          { ctx with
            unicodeRemaining := ctx.unicodeRemaining - 1
            codePoint :=
              ctx.codePoint ||| ((c.toNat &&& 0x3f) <<< (6 * (ctx.unicodeRemaining - 1))) }) :=
      related.set { related.sound with unicode := few }
    dsimp only
    rw [next.same]
    exact .ite (fun _ => next) fun _ => putCodePoint_related sim next _

theorem flantermPutchar_related (c : UInt8) :
    Related rows cols R (flantermPutchar B c t) (flantermPutchar C c u) := by
  unfold flantermPutchar
  rw [related.same]
  refine .ite (fun _ => ?_) fun _ => ?_
  · exact related.set { related.sound with unicode := Nat.zero_le 3, gSelect := Nat.zero_le 2 }
  · exact .ite (fun _ => continueCodePoint_related sim related c)
      fun _ => plainByte_related sim related c

theorem putchars_related (buf : List UInt8) :
    Related rows cols R (buf.foldl (fun t c => flantermPutchar B c t) t)
      (buf.foldl (fun u c => flantermPutchar C c u) u) := by
  induction buf generalizing t u with
  | nil => exact related
  | cons c buf ih => exact ih (flantermPutchar_related sim related c)

theorem flantermWrite_related (buf : List UInt8) :
    Related rows cols R (flantermWrite B buf t) (flantermWrite C buf u) := by
  have written := putchars_related sim related buf
  unfold flantermWrite
  dsimp only
  rw [written.same]
  exact .ite (fun _ => written.act (sim.doubleBufferFlush written.sound.onScreen)) fun _ => written

end Nyaux.Flanterm
