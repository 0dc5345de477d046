import Nyaux.Lib.Word

/-! The terminal's context, and the functions that a backend puts into it. -/

namespace Nyaux.Flanterm

open Word

/-- `FLANTERM_MAX_ESC_VALUES` -/
def maxEscValues : Nat := 16

/-- `CHARSET_DEFAULT` and `CHARSET_DEC_SPECIAL`. -/
inductive Charset
  | default | decSpecial
  deriving DecidableEq, Repr

/-- What `callback` is called with, apart from the values. -/
inductive Event
  | dec (values : List Nat) (c : UInt8)
  | bell
  | privateId
  | statusReport
  | posReport (x y : Nat)
  | kbdLeds (value : Nat)
  | mode (values : List Nat) (c : UInt8)
  | linux (values : List Nat)
  deriving DecidableEq, Repr

/-- `struct flanterm_context`, less its function pointers. A colour number that is
`(size_t)-1` is `none`. `events` is what `callback` was called with, and `fault` says
that an index was outside its array. -/
structure Context where
  tabSize : Nat
  autoflush : Bool
  cursorEnabled : Bool
  scrollEnabled : Bool
  controlSequence : Bool
  escape : Bool
  osc : Bool
  oscEscape : Bool
  rrr : Bool
  discardNext : Bool
  bold : Bool
  bgBold : Bool
  reverseVideo : Bool
  decPrivate : Bool
  insertMode : Bool
  codePoint : Nat
  unicodeRemaining : Nat
  gSelect : Nat
  charsets : Nat → Charset
  currentCharset : Nat
  escapeOffset : Nat
  escValuesI : Nat
  savedCursorX : Nat
  savedCursorY : Nat
  currentPrimary : Option Nat
  currentBg : Option Nat
  scrollTopMargin : Nat
  scrollBottomMargin : Nat
  escValues : Nat → Nat
  /-- `oob_output & FLANTERM_OOB_OUTPUT_ONLCR` -/
  onlcr : Bool
  savedStateBold : Bool
  savedStateBgBold : Bool
  savedStateReverseVideo : Bool
  savedStateCurrentCharset : Nat
  savedStateCurrentPrimary : Option Nat
  savedStateCurrentBg : Option Nat
  rows : Nat
  cols : Nat
  /-- `callback != NULL` -/
  hasCallback : Bool
  events : List Event
  fault : Bool

def flantermContextReinit (ctx : Context) : Context :=
  { ctx with
    tabSize := 8
    autoflush := true
    cursorEnabled := true
    scrollEnabled := true
    controlSequence := false
    escape := false
    osc := false
    oscEscape := false
    rrr := false
    discardNext := false
    bold := false
    bgBold := false
    reverseVideo := false
    decPrivate := false
    insertMode := false
    unicodeRemaining := 0
    gSelect := 0
    charsets := fun i => if i = 0 then .default else if i = 1 then .decSpecial else ctx.charsets i
    currentCharset := 0
    escapeOffset := 0
    escValuesI := 0
    savedCursorX := 0
    savedCursorY := 0
    currentPrimary := none
    currentBg := none
    scrollTopMargin := 0
    scrollBottomMargin := ctx.rows
    onlcr := true }

structure Backend (σ : Type) where
  rawPutchar : UInt8 → Context → σ → σ
  clear : Bool → Context → σ → σ
  setCursorPos : Nat → Nat → Context → σ → σ
  getCursorPos : Context → σ → Nat × Nat
  setTextFg : Nat → Context → σ → σ
  setTextBg : Nat → Context → σ → σ
  setTextFgBright : Nat → Context → σ → σ
  setTextBgBright : Nat → Context → σ → σ
  setTextFgRgb : UInt32 → Context → σ → σ
  setTextBgRgb : UInt32 → Context → σ → σ
  setTextFgDefault : Context → σ → σ
  setTextBgDefault : Context → σ → σ
  setTextFgDefaultBright : Context → σ → σ
  setTextBgDefaultBright : Context → σ → σ
  moveCharacter : Nat → Nat → Nat → Nat → Context → σ → σ
  scroll : Context → σ → σ
  revscroll : Context → σ → σ
  swapPalette : Context → σ → σ
  saveState : Context → σ → σ
  restoreState : Context → σ → σ
  doubleBufferFlush : Context → σ → σ

structure Term (σ : Type) where
  ctx : Context
  back : σ

namespace Term

variable {σ : Type}

def act (t : Term σ) (call : Context → σ → σ) : Term σ := { t with back := call t.ctx t.back }

/-- An assignment to fields of the context. -/
def set (t : Term σ) (assign : Context → Context) : Term σ := { t with ctx := assign t.ctx }

@[simp] theorem act_ctx (t : Term σ) (call : Context → σ → σ) : (t.act call).ctx = t.ctx := rfl

@[simp] theorem act_back (t : Term σ) (call : Context → σ → σ) :
    (t.act call).back = call t.ctx t.back := rfl

@[simp] theorem set_ctx (t : Term σ) (assign : Context → Context) :
    (t.set assign).ctx = assign t.ctx := rfl

@[simp] theorem set_back (t : Term σ) (assign : Context → Context) :
    (t.set assign).back = t.back := rfl

end Term

namespace Context

def touch (inside : Bool) (ctx : Context) : Context := { ctx with fault := ctx.fault || !inside }

/-- `if (callback != NULL) callback(...)` -/
def report (event : Event) (ctx : Context) : Context :=
  if ctx.hasCallback then { ctx with events := ctx.events ++ [event] } else ctx

/-- `esc_values[0 .. esc_values_i - 1]` -/
def values (ctx : Context) : List Nat := (List.range ctx.escValuesI).map ctx.escValues

/-- `esc_values[i] = value` -/
def putValue (i value : Nat) (ctx : Context) : Context :=
  { ctx.touch (i < maxEscValues) with escValues := Function.update ctx.escValues i value }

end Context

end Nyaux.Flanterm
