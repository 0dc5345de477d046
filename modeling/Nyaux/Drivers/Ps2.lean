import Nyaux.Lib.PrefixCode

/-! The keyboard interrupt: scan-code bytes buffered until they make a code. -/

namespace Nyaux.Drivers

/-- `enum KEYKEY`. -/
inductive Keykey
  | escape | backspace | tab | enter | lctrl | lshift | rshift | lalt | capslock
  | f1 | f2 | f3 | f4 | f5 | f6 | f7 | f8 | f9 | f10 | f11 | f12 | numlock | scrllock
  | keypad7 | keypad8 | keypad9 | keypadMinus | keypad4 | keypad5 | keypad6 | keypadPlus
  | keypad1 | keypad2 | keypad3 | keypad0 | keypadDot | keypadEnter
  | printscrn | pause | unknown
  deriving DecidableEq, Repr

structure KeyboardEvent where
  printable : UInt8
  key : Keykey
  released : Bool
  deriving DecidableEq, Repr

def usQwertyKeyboard : List UInt8 :=
  [0, 0, 49, 50, 51, 52, 53, 54, 55, 56, 57, 48, 45, 61, 0, 0,
    81, 87, 69, 82, 84, 89, 85, 73, 79, 80, 91, 93, 0,
    0, 65, 83, 68, 70, 71, 72, 74, 75, 76, 59, 39, 96, 0, 92,
    90, 88, 67, 86, 66, 78, 77, 44, 46, 47, 0, 42, 0, 0, 0, 0,
    0, 0, 0, 0, 0, 0, 0, 0, 0, 0, 0, 0, 0, 0, 0, 0, 0, 0, 0, 0, 0, 0, 0, 0,
    0, 0, 0, 0, 0]

/-- The globals of the driver. Neither count is ever decremented below zero. -/
structure Ps2 where
  keyBuf : Vector UInt8 8
  keyBufCount : Nat
  events : Vector KeyboardEvent 32
  eventCount : Nat

def Ps2.boot : Ps2 := ⟨.replicate 8 0, 0, .replicate 32 ⟨0, .escape, false⟩, 0⟩

inductive Fault
  | keyBuf (index : Nat)
  | usQwertyKeyboard (index : Nat)
  | events (index : Nat)
  | kassert
  deriving DecidableEq, Repr

def kassert (condition : Bool) : Except Fault Unit :=
  if condition then .ok () else .error .kassert

/-- `key_buf[key_buf_count++] = our_guy`. -/
def storeByte (ourGuy : UInt8) (s : Ps2) : Except Fault Ps2 :=
  if inside : s.keyBufCount < 8 then
    .ok { s with keyBuf := s.keyBuf.set s.keyBufCount ourGuy, keyBufCount := s.keyBufCount + 1 }
  else .error (.keyBuf s.keyBufCount)

/-- `events[event_count++] = event`. -/
def storeEvent (event : KeyboardEvent) (s : Ps2) : Except Fault Ps2 :=
  if inside : s.eventCount < 32 then
    .ok { s with events := s.events.set s.eventCount event, eventCount := s.eventCount + 1 }
  else .error (.events s.eventCount)

/-- `us_qwerty_keyboard[index]`. -/
def keyboardChar (index : Nat) : Except Fault UInt8 :=
  if inside : index < usQwertyKeyboard.length then .ok usQwertyKeyboard[index]
  else .error (.usQwertyKeyboard index)

def consume (count : Nat) (s : Ps2) : Ps2 := { s with keyBufCount := s.keyBufCount - count }

def printScreenPressed : List UInt8 := [0xE0, 0x2A, 0xE0, 0x37]

def printScreenReleased : List UInt8 := [0xE0, 0xB7, 0xE0, 0xAA]

def pausePressed : List UInt8 := [0xE1, 0x1D, 0x45, 0xE1, 0x9D, 0xC5]

/-- `key_buf_count > code.length - 1 && memcmp(key_buf, code, code.length) == 0`. -/
def buffered (code : List UInt8) (s : Ps2) : Bool :=
  code.length ≤ s.keyBufCount ∧ s.keyBuf.toList.take code.length = code

def keyOf (code : Nat) : Keykey :=
  match code with
  | 0x01 => .escape
  | 0x0E => .backspace
  | 0x0F => .tab
  | 0x1C => .enter
  | 0x1D => .lctrl
  | 0x2A => .lshift
  | 0x36 => .rshift
  | _ => .unknown

/-- `ps2_handler` after it has stored the byte. -/
def dispatch (s : Ps2) : Except Fault Ps2 :=
  if s.keyBuf[0] = 0xE0 then
    if 1 < s.keyBufCount then
      if s.keyBuf[1] = 0x2A then
        if buffered printScreenPressed s then do
          kassert (s.eventCount < 32)
          storeEvent ⟨0, .printscrn, false⟩ (consume 4 s)
        else .ok s
      else if s.keyBuf[1] = 0xB7 then
        if buffered printScreenReleased s then do
          kassert (s.eventCount < 32)
          storeEvent ⟨0, .printscrn, true⟩ (consume 4 s)
        else .ok s
      else do
        kassert (s.eventCount < 32)
        storeEvent ⟨0, .unknown, s.keyBuf[1] &&& 0x80 ≠ 0⟩ (consume 2 s)
    else .ok s
  else if s.keyBuf[0] = 0xE1 then
    if buffered pausePressed s then do
      kassert (s.eventCount + 1 < 32)
      let s ← storeEvent ⟨0, .pause, false⟩ (consume 6 s)
      storeEvent ⟨0, .pause, true⟩ s
    else .ok s
  else do
    kassert (s.eventCount < 32)
    let code := (s.keyBuf[0] &&& 0x7F).toNat
    let ch ← keyboardChar code
    storeEvent ⟨ch, if ch = 0 then keyOf code else .unknown, s.keyBuf[0] &&& 0x80 ≠ 0⟩
      (consume 1 s)

def ps2Handler (ourGuy : UInt8) (s : Ps2) : Except Fault Ps2 := storeByte ourGuy s >>= dispatch

/-- The byte sequences the handler turns into events. -/
inductive ScanCode : List UInt8 → Prop
  | plain (b : UInt8) (extended : b ≠ 0xE0) (paused : b ≠ 0xE1)
      (known : (b &&& 0x7F).toNat < usQwertyKeyboard.length) : ScanCode [b]
  | extended (b : UInt8) (pressed : b ≠ 0x2A) (released : b ≠ 0xB7) : ScanCode [0xE0, b]
  | printScreenPressed : ScanCode printScreenPressed
  | printScreenReleased : ScanCode printScreenReleased
  | pausePressed : ScanCode pausePressed

def Holding (s : Ps2) (pending : List UInt8) : Prop :=
  s.keyBufCount = pending.length ∧ s.keyBuf.toList.take pending.length = pending

def queued (s : Ps2) : List KeyboardEvent := s.events.toList.take s.eventCount

def plainEvent (b : UInt8) : KeyboardEvent :=
  let code := (b &&& 0x7F).toNat
  let ch := usQwertyKeyboard.getD code 0
  ⟨ch, if ch = 0 then keyOf code else .unknown, b &&& 0x80 ≠ 0⟩

/-- The events of a complete code. -/
def typed (code : List UInt8) : List KeyboardEvent :=
  if code = printScreenPressed then [⟨0, .printscrn, false⟩]
  else if code = printScreenReleased then [⟨0, .printscrn, true⟩]
  else if code = pausePressed then [⟨0, .pause, false⟩, ⟨0, .pause, true⟩]
  else match code with
    | [b] => [plainEvent b]
    | [_, b] => [⟨0, .unknown, b &&& 0x80 ≠ 0⟩]
    | _ => []

def Lead (pending : List UInt8) : Prop :=
  [0xE0, 0x2A] <+: pending ∨ [0xE0, 0xB7] <+: pending ∨ [0xE1] <+: pending

/-- What stays in the buffer between two bytes; it may already contradict every code. -/
def Waiting (pending : List UInt8) : Prop :=
  (pending = [] ∨ pending = [0xE0] ∨ Lead pending) ∧ ∀ code, ScanCode code → ¬code <+: pending

theorem holding_boot : Holding .boot [] := ⟨rfl, rfl⟩

theorem Holding.getElem {s : Ps2} {pending : List UInt8} (holding : Holding s pending) (i : Nat)
    (inside : i < pending.length) (within : i < 8) : s.keyBuf[i] = pending[i] := by
  have same : pending[i]? = s.keyBuf.toList[i]? := by
    conv_lhs => rw [← holding.2]
    rw [List.getElem?_take_of_lt inside]
  rw [List.getElem?_eq_getElem inside, List.getElem?_eq_getElem (by simpa using within)] at same
  simpa using (Option.some.inj same).symm

theorem buffered_iff {s : Ps2} {pending : List UInt8} (holding : Holding s pending)
    (code : List UInt8) : buffered code s = true ↔ code <+: pending := by
  simp only [buffered, decide_eq_true_eq, holding.1]
  constructor
  · rintro ⟨shorter, same⟩
    rw [List.prefix_iff_eq_take, ← holding.2, List.take_take, min_eq_left shorter]
    exact same.symm
  · intro start
    have shorter := start.length_le
    refine ⟨shorter, ?_⟩
    have same := List.prefix_iff_eq_take.mp start
    rw [← holding.2, List.take_take, min_eq_left shorter] at same
    exact same.symm

theorem take_succ_set {α : Type} (l : List α) (n : Nat) (a : α) (inside : n < l.length) :
    (l.set n a).take (n + 1) = l.take n ++ [a] := by
  rw [List.take_add_one, List.take_set_of_le (Nat.le_refl n), List.getElem?_set_self inside]
  rfl

theorem storeByte_spec {s : Ps2} {pending : List UInt8} (holding : Holding s pending)
    (b : UInt8) (room : pending.length < 8) :
    ∃ s', storeByte b s = .ok s' ∧ Holding s' (pending ++ [b]) ∧ s'.events = s.events ∧
      s'.eventCount = s.eventCount := by
  have inside : s.keyBufCount < 8 := holding.1 ▸ room
  have buffer : (s.keyBuf.set s.keyBufCount b).toList.take (pending ++ [b]).length =
      pending ++ [b] := by
    rw [Vector.toList_set, List.length_append, List.length_singleton, ← holding.1,
      take_succ_set _ _ _ (by simpa using inside), holding.1, holding.2]
  let s' : Ps2 :=
    { s with keyBuf := s.keyBuf.set s.keyBufCount b, keyBufCount := s.keyBufCount + 1 }
  have ran : storeByte b s = .ok s' := dif_pos inside
  exact ⟨s', ran, ⟨by simp [s', holding.1], buffer⟩, rfl, rfl⟩

theorem storeEvent_spec (s : Ps2) (event : KeyboardEvent) (room : s.eventCount < 32) :
    ∃ s', storeEvent event s = .ok s' ∧ s'.keyBuf = s.keyBuf ∧ s'.keyBufCount = s.keyBufCount ∧
      s'.eventCount = s.eventCount + 1 ∧ queued s' = queued s ++ [event] := by
  let s' : Ps2 :=
    { s with events := s.events.set s.eventCount event, eventCount := s.eventCount + 1 }
  have ran : storeEvent event s = .ok s' := dif_pos room
  have stored : queued s' = queued s ++ [event] := by
    simp only [queued, s', Vector.toList_set]
    exact take_succ_set _ _ _ (by simpa using room)
  exact ⟨s', ran, rfl, rfl, rfl, stored⟩

theorem keyboardChar_known {index : Nat} (known : index < usQwertyKeyboard.length) :
    keyboardChar index = .ok (usQwertyKeyboard.getD index 0) := by
  rw [keyboardChar, dif_pos known, List.getD, List.getElem?_eq_getElem known]
  rfl

theorem kassert_holds {condition : Bool} (holds : condition = true) :
    kassert condition = .ok () := if_pos holds

theorem typed_plain (b : UInt8) : typed [b] = [plainEvent b] := by
  simp [typed, printScreenPressed, printScreenReleased, pausePressed]

theorem typed_extended (b : UInt8) :
    typed [0xE0, b] = [⟨0, .unknown, b &&& 0x80 ≠ 0⟩] := by
  simp [typed, printScreenPressed, printScreenReleased, pausePressed]

def Emitted (s s' : Ps2) (events : List KeyboardEvent) : Prop :=
  Holding s' [] ∧ queued s' = queued s ++ events ∧ s'.eventCount = s.eventCount + events.length

theorem storeEvent_consume {s : Ps2} {code : List UInt8} (holding : Holding s code) (n : Nat)
    (whole : code.length = n) (event : KeyboardEvent) (room : s.eventCount < 32) :
    ∃ s', storeEvent event (consume n s) = .ok s' ∧ Emitted s s' [event] := by
  obtain ⟨s', ran, -, emptied, counted, stored⟩ := storeEvent_spec (consume n s) event room
  have none : s'.keyBufCount = 0 := by
    rw [emptied, consume, holding.1, whole, Nat.sub_self]
  exact ⟨s', ran, ⟨none, rfl⟩, stored, counted⟩

theorem dispatch_completes {s : Ps2} {code : List UInt8} (holding : Holding s code)
    (complete : ScanCode code) (room : s.eventCount + (typed code).length ≤ 32) :
    ∃ s', dispatch s = .ok s' ∧ Emitted s s' (typed code) := by
  have first := holding.getElem 0
  have second := holding.getElem 1
  have count := holding.1
  cases complete with
  | plain b extended paused known =>
      rw [typed_plain] at room ⊢
      have space : s.eventCount < 32 := room
      have here : s.keyBuf[0] = b := first (by simp) (by decide)
      obtain ⟨s', ran, emitted⟩ := storeEvent_consume holding 1 rfl (plainEvent b) space
      refine ⟨s', ?_, emitted⟩
      rw [dispatch, here, if_neg extended, if_neg paused, kassert_holds (decide_eq_true space)]
      simp only [bind, Except.bind, keyboardChar_known known]
      exact ran
  | extended b pressed released =>
      rw [typed_extended] at room ⊢
      have space : s.eventCount < 32 := room
      have here : s.keyBuf[0] = 0xE0 := first (by simp) (by decide)
      have next : s.keyBuf[1] = b := second (by simp) (by decide)
      obtain ⟨s', ran, emitted⟩ := storeEvent_consume holding 2 rfl _ space
      refine ⟨s', ?_, emitted⟩
      rw [dispatch, if_pos here, if_pos (by simp [count]), next, if_neg pressed, if_neg released,
        kassert_holds (decide_eq_true space)]
      exact ran
  | printScreenPressed =>
      have space : s.eventCount < 32 := room
      have here : s.keyBuf[0] = 0xE0 := first (by decide) (by decide)
      have next : s.keyBuf[1] = 0x2A := second (by decide) (by decide)
      obtain ⟨s', ran, emitted⟩ :=
        storeEvent_consume holding 4 rfl ⟨0, .printscrn, false⟩ space
      refine ⟨s', ?_, emitted⟩
      rw [dispatch, if_pos here, if_pos (by simp [count, printScreenPressed]), if_pos next,
        if_pos ((buffered_iff holding _).mpr List.prefix_rfl),
        kassert_holds (decide_eq_true space)]
      exact ran
  | printScreenReleased =>
      have space : s.eventCount < 32 := room
      have here : s.keyBuf[0] = 0xE0 := first (by decide) (by decide)
      have next : s.keyBuf[1] = 0xB7 := second (by decide) (by decide)
      obtain ⟨s', ran, emitted⟩ := storeEvent_consume holding 4 rfl ⟨0, .printscrn, true⟩ space
      refine ⟨s', ?_, emitted⟩
      rw [dispatch, if_pos here, if_pos (by simp [count, printScreenReleased]), next,
        if_neg (by decide), if_pos rfl, if_pos ((buffered_iff holding _).mpr List.prefix_rfl),
        kassert_holds (decide_eq_true space)]
      exact ran
  | pausePressed =>
      have two : s.eventCount + 1 < 32 := room
      have space : s.eventCount < 32 := Nat.lt_of_succ_lt two
      have here : s.keyBuf[0] = 0xE1 := first (by decide) (by decide)
      obtain ⟨s₁, pressed, ⟨none, stored, counted⟩⟩ :=
        storeEvent_consume holding 6 rfl ⟨0, .pause, false⟩ space
      have counts : s₁.eventCount = s.eventCount + 1 := counted
      obtain ⟨s', released, -, emptied, again, both⟩ :=
        storeEvent_spec s₁ ⟨0, .pause, true⟩ (by omega)
      have events : queued s' = queued s ++ typed pausePressed := by
        rw [both, stored, List.append_assoc]
        rfl
      refine ⟨s', ?_, ⟨emptied.trans none.1, rfl⟩, events, by rw [again, counts]; rfl⟩
      rw [dispatch, here, if_neg (by decide), if_pos rfl,
        if_pos ((buffered_iff holding _).mpr List.prefix_rfl), kassert_holds (decide_eq_true two)]
      simp only [bind, Except.bind, pressed]
      exact released

theorem Lead.snoc {pending : List UInt8} (lead : Lead pending) (b : UInt8) :
    Lead (pending ++ [b]) := by
  have longer : pending <+: pending ++ [b] := List.prefix_append pending [b]
  rcases lead with pressed | released | paused
  · exact .inl (pressed.trans longer)
  · exact .inr (.inl (released.trans longer))
  · exact .inr (.inr (paused.trans longer))

theorem dispatch_waits {s : Ps2} {pending : List UInt8} (holding : Holding s pending)
    (waiting : Waiting pending) (some_ : pending ≠ []) : dispatch s = .ok s := by
  obtain ⟨shape, whole⟩ := waiting
  have unmatched : ∀ code, ScanCode code → ¬buffered code s = true :=
    fun code complete => (buffered_iff holding code).not.mpr (whole code complete)
  rcases shape with none | short | lead
  · exact absurd none some_
  · have here : s.keyBuf[0] = 0xE0 := (holding.getElem 0 (by simp [short]) (by decide)).trans
      (by simp [short])
    rw [dispatch, if_pos here, if_neg (by simp [holding.1, short])]
  · rcases lead with ⟨rest, rfl⟩ | ⟨rest, rfl⟩ | ⟨rest, rfl⟩
    · have here : s.keyBuf[0] = 0xE0 := holding.getElem 0 (by simp) (by decide)
      have next : s.keyBuf[1] = 0x2A := holding.getElem 1 (by simp) (by decide)
      rw [dispatch, if_pos here, if_pos (by simp [holding.1]), if_pos next,
        if_neg (unmatched _ .printScreenPressed)]
    · have here : s.keyBuf[0] = 0xE0 := holding.getElem 0 (by simp) (by decide)
      have next : s.keyBuf[1] = 0xB7 := holding.getElem 1 (by simp) (by decide)
      rw [dispatch, if_pos here, if_pos (by simp [holding.1]), next, if_neg (by decide),
        if_pos rfl, if_neg (unmatched _ .printScreenReleased)]
    · have here : s.keyBuf[0] = 0xE1 := holding.getElem 0 (by simp) (by decide)
      rw [dispatch, here, if_neg (by decide), if_pos rfl,
        if_neg (unmatched _ .pausePressed)]

def Unlisted (b : UInt8) : Prop :=
  b ≠ 0xE0 ∧ b ≠ 0xE1 ∧ usQwertyKeyboard.length ≤ (b &&& 0x7F).toNat

theorem dispatch_unlisted {s : Ps2} {b : UInt8} (holding : Holding s [b])
    (unlisted : Unlisted b) : ∃ fault, dispatch s = .error fault := by
  obtain ⟨extended, paused, beyond⟩ := unlisted
  have here : s.keyBuf[0] = b := holding.getElem 0 (by simp) (by decide)
  by_cases room : s.eventCount < 32
  · refine ⟨.usQwertyKeyboard (b &&& 0x7F).toNat, ?_⟩
    rw [dispatch, here, if_neg extended, if_neg paused, kassert_holds (decide_eq_true room)]
    simp only [bind, Except.bind]
    rw [keyboardChar, dif_neg (by omega)]
  · refine ⟨.kassert, ?_⟩
    rw [dispatch, here, if_neg extended, if_neg paused, kassert,
      if_neg (by simpa using room)]
    rfl

theorem ScanCode.length {code : List UInt8} (complete : ScanCode code) :
    1 ≤ code.length ∧ code.length ≤ 6 ∧ (typed code).length ≤ 2 := by
  cases complete with
  | plain b _ _ _ => simp [typed_plain]
  | extended b _ _ => simp [typed_extended]
  | printScreenPressed => decide
  | printScreenReleased => decide
  | pausePressed => decide

theorem typed_one {code : List UInt8} (complete : ScanCode code) (single : code ≠ pausePressed) :
    (typed code).length = 1 := by
  cases complete with
  | plain b _ _ _ => rw [typed_plain]; rfl
  | extended b _ _ => rw [typed_extended]; rfl
  | printScreenPressed => rfl
  | printScreenReleased => rfl
  | pausePressed => exact absurd rfl single

theorem prefixFree_scanCode : PrefixCode.PrefixFree ScanCode := by
  intro u v first second start
  cases first with
  | plain b extended paused _ =>
      cases second with
      | plain c _ _ _ => simpa using start
      | extended c _ _ => simp [extended] at start
      | printScreenPressed => simp [printScreenPressed, extended] at start
      | printScreenReleased => simp [printScreenReleased, extended] at start
      | pausePressed => simp [pausePressed, paused] at start
  | extended b pressed released =>
      cases second with
      | plain c _ _ _ => simp at start
      | extended c _ _ => simpa using start
      | printScreenPressed => simp [printScreenPressed, pressed] at start
      | printScreenReleased => simp [printScreenReleased, released] at start
      | pausePressed => simp [pausePressed] at start
  | printScreenPressed =>
      cases second with
      | plain c _ _ _ => simp [printScreenPressed] at start
      | extended c _ _ => simp [printScreenPressed] at start
      | printScreenPressed => rfl
      | printScreenReleased => simp [printScreenPressed, printScreenReleased] at start
      | pausePressed => simp [printScreenPressed, pausePressed] at start
  | printScreenReleased =>
      cases second with
      | plain c _ _ _ => simp [printScreenReleased] at start
      | extended c _ _ => simp [printScreenReleased] at start
      | printScreenPressed => simp [printScreenPressed, printScreenReleased] at start
      | printScreenReleased => rfl
      | pausePressed => simp [printScreenReleased, pausePressed] at start
  | pausePressed =>
      cases second with
      | plain c _ _ _ => simp [pausePressed] at start
      | extended c _ _ => simp [pausePressed] at start
      | printScreenPressed => simp [printScreenPressed, pausePressed] at start
      | printScreenReleased => simp [pausePressed, printScreenReleased] at start
      | pausePressed => rfl

theorem waiting_nil : Waiting [] := by
  refine ⟨.inl rfl, fun code complete start => ?_⟩
  have := complete.length
  rw [List.prefix_nil.mp start] at this
  simp at this

theorem waiting_snoc {pending : List UInt8} (waiting : Waiting pending) (b : UInt8) :
    ScanCode (pending ++ [b]) ∨ Waiting (pending ++ [b]) ∨ pending = [] ∧ Unlisted b := by
  by_cases complete : ScanCode (pending ++ [b])
  · exact .inl complete
  have whole : ∀ code, ScanCode code → ¬code <+: pending ++ [b] := by
    intro code known start
    rcases List.prefix_concat_iff.mp start with same | inside
    · exact complete (same ▸ known)
    · exact waiting.2 code known inside
  rcases waiting.1 with rfl | rfl | lead
  · by_cases extended : b = 0xE0
    · exact .inr (.inl ⟨.inr (.inl (by rw [extended]; rfl)), whole⟩)
    by_cases paused : b = 0xE1
    · exact .inr (.inl ⟨.inr (.inr (.inr (.inr (by simp [paused])))), whole⟩)
    by_cases known : (b &&& 0x7F).toNat < usQwertyKeyboard.length
    · exact absurd (.plain b extended paused known) complete
    · exact .inr (.inr ⟨rfl, extended, paused, Nat.le_of_not_lt known⟩)
  · by_cases pressed : b = 0x2A
    · exact .inr (.inl ⟨.inr (.inr (.inl (by simp [pressed]))), whole⟩)
    by_cases released : b = 0xB7
    · exact .inr (.inl ⟨.inr (.inr (.inr (.inl (by simp [released])))), whole⟩)
    · exact absurd (.extended b pressed released) complete
  · exact .inr (.inl ⟨.inr (.inr (lead.snoc b)), whole⟩)

theorem handler_completes {s : Ps2} {pending : List UInt8} {b : UInt8}
    (holding : Holding s pending) (complete : ScanCode (pending ++ [b]))
    (room : s.eventCount + (typed (pending ++ [b])).length ≤ 32) :
    ∃ s', ps2Handler b s = .ok s' ∧ Emitted s s' (typed (pending ++ [b])) := by
  have short : pending.length < 8 := by
    have := complete.length
    simp only [List.length_append, List.length_singleton] at this
    omega
  obtain ⟨s₁, stored, held, events, counted⟩ := storeByte_spec holding b short
  obtain ⟨s', ran, emptied, queue, count⟩ := dispatch_completes held complete (counted ▸ room)
  have same : queued s₁ = queued s := by rw [queued, events, counted, queued]
  exact ⟨s', by rw [ps2Handler, stored]; exact ran, emptied, same ▸ queue, counted ▸ count⟩

theorem handler_waits {s : Ps2} {pending : List UInt8} {b : UInt8}
    (holding : Holding s pending) (waiting : Waiting (pending ++ [b])) (short : pending.length < 8) :
    ∃ s', ps2Handler b s = .ok s' ∧ Holding s' (pending ++ [b]) ∧ s'.events = s.events ∧
      s'.eventCount = s.eventCount := by
  obtain ⟨s', stored, held, events, counted⟩ := storeByte_spec holding b short
  have ran : ps2Handler b s = .ok s' := by
    rw [ps2Handler, stored]
    exact dispatch_waits held waiting (by simp)
  exact ⟨s', ran, held, events, counted⟩

theorem handler_unlisted {s : Ps2} {b : UInt8} (holding : Holding s []) (unlisted : Unlisted b) :
    ∃ fault, ps2Handler b s = .error fault := by
  obtain ⟨s', stored, held, -⟩ := storeByte_spec holding b (by decide)
  obtain ⟨fault, stopped⟩ := dispatch_unlisted held unlisted
  exact ⟨fault, by rw [ps2Handler, stored]; exact stopped⟩

theorem handler_full {s : Ps2} {pending : List UInt8} (holding : Holding s pending)
    (full : ¬pending.length < 8) (b : UInt8) : ∃ fault, ps2Handler b s = .error fault := by
  refine ⟨.keyBuf s.keyBufCount, ?_⟩
  rw [ps2Handler, storeByte, dif_neg (holding.1 ▸ full)]
  rfl

theorem handler_cases {s : Ps2} {pending : List UInt8} {b : UInt8} {outcome : Except Fault Ps2}
    (holding : Holding s pending) (waiting : Waiting pending)
    (room : ScanCode (pending ++ [b]) → s.eventCount + (typed (pending ++ [b])).length ≤ 32)
    (ran : ps2Handler b s = outcome) :
    (ScanCode (pending ++ [b]) ∧ ∃ s', outcome = .ok s' ∧ Emitted s s' (typed (pending ++ [b]))) ∨
    (Waiting (pending ++ [b]) ∧ pending.length < 8 ∧ ∃ s', outcome = .ok s' ∧
      Holding s' (pending ++ [b]) ∧ s'.events = s.events ∧ s'.eventCount = s.eventCount) ∨
    ((¬pending.length < 8 ∧ Waiting (pending ++ [b]) ∨ pending = [] ∧ Unlisted b) ∧
      ∃ fault, outcome = .error fault) := by
  rcases waiting_snoc waiting b with complete | kept | ⟨rfl, unlisted⟩
  · obtain ⟨s', same, emitted⟩ := handler_completes holding complete (room complete)
    exact .inl ⟨complete, s', ran ▸ same, emitted⟩
  · by_cases short : pending.length < 8
    · obtain ⟨s', same, held⟩ := handler_waits holding kept short
      exact .inr (.inl ⟨kept, short, s', ran ▸ same, held⟩)
    · obtain ⟨fault, same⟩ := handler_full holding short b
      exact .inr (.inr ⟨.inl ⟨short, kept⟩, fault, ran ▸ same⟩)
  · obtain ⟨fault, same⟩ := handler_unlisted holding unlisted
    exact .inr (.inr ⟨.inr ⟨rfl, unlisted⟩, fault, ran ▸ same⟩)

end Nyaux.Drivers
