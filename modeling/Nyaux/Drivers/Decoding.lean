import Nyaux.Drivers.Ps2

/-! Scan codes fed to the keyboard interrupt one after another. -/

namespace Nyaux.Drivers

def feed : List UInt8 → Ps2 → Except Fault Ps2
  | [], s => .ok s
  | ourGuy :: rest, s => do
      let s ← ps2Handler ourGuy s
      feed rest s

/-- The events of each item, the queue being drained before the next one. -/
def decode : List (List UInt8) → Ps2 → Except Fault (List (List KeyboardEvent) × Ps2)
  | [], s => .ok ([], s)
  | item :: items, s => do
      let after ← feed item { s with eventCount := 0 }
      let (later, last) ← decode items after
      .ok (queued after :: later, last)

theorem waiting_short {code front : List UInt8} {b : UInt8} {rest : List UInt8}
    (complete : ScanCode code) (split : code = front ++ b :: rest) : Waiting front := by
  have whole : ∀ other, ScanCode other → ¬other <+: front := by
    intro other known start
    have same := prefixFree_scanCode other code known complete
      (start.trans ⟨b :: rest, split.symm⟩)
    have shorter := start.length_le
    rw [same, split, List.length_append, List.length_cons] at shorter
    omega
  refine ⟨?_, whole⟩
  have below := congrArg List.length split
  rw [List.length_append, List.length_cons] at below
  cases complete with
  | plain c _ _ _ =>
      rw [List.length_singleton] at below
      exact .inl (List.eq_nil_of_length_eq_zero (by omega))
  | extended c _ _ =>
      match front, split with
      | [], _ => exact .inl rfl
      | [x], split => exact .inr (.inl (by rw [(List.cons.inj split).1]))
      | _ :: _ :: _, _ => simp only [List.length_cons, List.length_nil] at below; omega
  | printScreenPressed =>
      match front, split with
      | [], _ => exact .inl rfl
      | [x], split => exact .inr (.inl (by rw [(List.cons.inj split).1]))
      | x :: y :: more, split =>
          have first : 0xE0 = x := (List.cons.inj split).1
          obtain rfl := (List.cons.inj (List.cons.inj split).2).1
          subst first
          exact .inr (.inr (.inl ⟨more, rfl⟩))
  | printScreenReleased =>
      match front, split with
      | [], _ => exact .inl rfl
      | [x], split => exact .inr (.inl (by rw [(List.cons.inj split).1]))
      | x :: y :: more, split =>
          have first : 0xE0 = x := (List.cons.inj split).1
          obtain rfl := (List.cons.inj (List.cons.inj split).2).1
          subst first
          exact .inr (.inr (.inr (.inl ⟨more, rfl⟩)))
  | pausePressed =>
      match front, split with
      | [], _ => exact .inl rfl
      | x :: more, split =>
          obtain ⟨rfl, -⟩ := List.cons.inj split
          exact .inr (.inr (.inr (.inr ⟨more, rfl⟩)))

theorem feed_completes {code : List UInt8} (complete : ScanCode code) (rest : List UInt8) {s : Ps2}
    {front : List UInt8} (split : code = front ++ rest) (more : rest ≠ [])
    (holding : Holding s front) (room : s.eventCount + (typed code).length ≤ 32) :
    ∃ s', feed rest s = .ok s' ∧ Emitted s s' (typed code) := by
  induction rest generalizing s front with
  | nil => exact absurd rfl more
  | cons b rest ih =>
      have longer : code = (front ++ [b]) ++ rest := by rw [split, List.append_assoc]; rfl
      cases rest with
      | nil =>
          rw [List.append_nil] at longer
          obtain ⟨s', ran, emitted⟩ := handler_completes holding (longer ▸ complete) (longer ▸ room)
          rw [← longer] at emitted
          exact ⟨s', by rw [feed, ran]; rfl, emitted⟩
      | cons c rest =>
          have length := complete.length.2.1
          have parts := congrArg List.length longer
          simp only [List.length_append, List.length_cons, List.length_nil] at parts
          obtain ⟨s₁, ran, held, events, counted⟩ :=
            handler_waits holding (waiting_short complete longer) (by omega)
          have later : ∃ s', feed (c :: rest) s₁ = .ok s' ∧ Emitted s₁ s' (typed code) :=
            ih longer (List.cons_ne_nil c rest) held (counted ▸ room)
          obtain ⟨s', fed, emptied, queue, count⟩ := later
          have same : queued s₁ = queued s := by rw [queued, events, counted, queued]
          exact ⟨s', by rw [feed, ran]; exact fed, emptied, same ▸ queue, counted ▸ count⟩

theorem feed_item {item : List UInt8} (complete : ScanCode item) {s : Ps2}
    (empty : s.keyBufCount = 0) :
    ∃ s', feed item { s with eventCount := 0 } = .ok s' ∧ s'.keyBufCount = 0 ∧
      queued s' = typed item := by
  have length := complete.length
  have some_ : item ≠ [] := by
    rintro rfl
    simp at length
  have holding : Holding { s with eventCount := 0 } [] := ⟨empty, rfl⟩
  obtain ⟨s', ran, emptied, queue, -⟩ :=
    feed_completes complete item rfl some_ holding (by dsimp only; omega)
  exact ⟨s', ran, emptied.1, queue⟩

theorem decode_items (items : List (List UInt8)) (complete : ∀ item ∈ items, ScanCode item) {s : Ps2}
    (empty : s.keyBufCount = 0) :
    ∃ s', decode items s = .ok (items.map typed, s') ∧ s'.keyBufCount = 0 := by
  induction items generalizing s with
  | nil => exact ⟨s, rfl, empty⟩
  | cons item items ih =>
      obtain ⟨after, fed, emptied, queue⟩ := feed_item (complete item List.mem_cons_self) empty
      obtain ⟨s', rest, last⟩ :=
        ih (fun other member => complete other (List.mem_cons_of_mem item member)) emptied
      refine ⟨s', ?_, last⟩
      rw [decode, fed]
      simp only [bind, Except.bind, rest]
      rw [queue, List.map_cons]

/-- One event, or for the pause key its press and its release. -/
def OneEach (item : List UInt8) : Prop :=
  (item ≠ pausePressed ∧ ∃ event, typed item = [event]) ∨
    (item = pausePressed ∧ typed item = [⟨0, .pause, false⟩, ⟨0, .pause, true⟩])

/-- Whole codes are decoded one by one: after each of them the buffer is empty, and the events
are those of the code alone. -/
theorem scan_codes_decode (items : List (List UInt8)) (complete : ∀ item ∈ items, ScanCode item)
    (s : Ps2) (empty : s.keyBufCount = 0) :
    (∀ seen, seen <+: items →
      ∃ s', decode seen s = .ok (seen.map typed, s') ∧ s'.keyBufCount = 0) ∧
    ∀ item ∈ items, OneEach item := by
  constructor
  · intro seen start
    exact decode_items seen (fun item member => complete item (start.subset member)) empty
  · intro item member
    by_cases paused : item = pausePressed
    · subst paused
      exact .inr ⟨rfl, rfl⟩
    · exact .inl ⟨paused, List.length_eq_one_iff.mp (typed_one (complete item member) paused)⟩

/-- Print screen, A, pause. -/
theorem scan_codes_decode_three :
    (∀ seen, seen <+: [printScreenPressed, [0x1E], pausePressed] →
      ∃ s', decode seen .boot = .ok (seen.map typed, s') ∧ s'.keyBufCount = 0) ∧
    ∀ item ∈ [printScreenPressed, [0x1E], pausePressed], OneEach item := by
  apply scan_codes_decode _ _ .boot rfl
  simp only [List.forall_mem_cons, List.not_mem_nil, false_implies, implies_true, and_true]
  exact ⟨.printScreenPressed, .plain 0x1E (by decide) (by decide) (by decide), .pausePressed⟩

end Nyaux.Drivers
