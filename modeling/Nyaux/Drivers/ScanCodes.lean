import Nyaux.Drivers.Ps2

/-! The keyboard interrupt over whole streams of scan-code bytes. -/

namespace Nyaux.Drivers

open PrefixCode

inductive Receives : Ps2 → List UInt8 → Except Fault Ps2 → Prop
  | done (s : Ps2) : Receives s [] (.ok s)
  | byte {s s' : Ps2} {ourGuy : UInt8} {bytes : List UInt8} {outcome : Except Fault Ps2}
      (left : Nat) (drained : left ≤ s.eventCount) (room : left < 31)
      (ran : ps2Handler ourGuy { s with eventCount := left } = .ok s')
      (rest : Receives s' bytes outcome) : Receives s (ourGuy :: bytes) outcome
  | fault {s : Ps2} {ourGuy : UInt8} {bytes : List UInt8} {fault : Fault}
      (left : Nat) (drained : left ≤ s.eventCount) (room : left < 31)
      (ran : ps2Handler ourGuy { s with eventCount := left } = .error fault) :
      Receives s (ourGuy :: bytes) (.error fault)

/-- No index leaves its array, and the buffer can always be emptied by at most five bytes. -/
structure StaysInBounds (bytes : List UInt8) : Prop where
  inside : ∀ fault, ¬Receives .boot bytes (.error fault)
  empties : ∀ seen, seen <+: bytes → ∀ s, Receives .boot seen (.ok s) →
    ∃ more : List UInt8, more.length ≤ 5 ∧
      ∀ outcome, Receives s more outcome → ∃ s', outcome = .ok s' ∧ s'.keyBufCount = 0

theorem Holding.drained {s : Ps2} {pending : List UInt8} (holding : Holding s pending)
    (left : Nat) : Holding { s with eventCount := left } pending := holding

def Tracks (seen : List UInt8) (s : Ps2) (pending : List UInt8) : Prop :=
  Holding s pending ∧ Waiting pending ∧ Cut ScanCode seen pending

theorem tracks_boot : Tracks [] .boot [] := ⟨holding_boot, waiting_nil, cut_nil⟩

theorem room_of_left {left : Nat} (room : left < 31) (code : List UInt8)
    (complete : ScanCode code) : left + (typed code).length ≤ 32 := by
  have := complete.length
  omega

theorem Tracks.step {seen : List UInt8} {s s' : Ps2} {pending : List UInt8} {b : UInt8}
    {left : Nat} (tracks : Tracks seen s pending) (room : left < 31)
    (ran : ps2Handler b { s with eventCount := left } = .ok s') :
    ∃ later, Tracks (seen ++ [b]) s' later := by
  obtain ⟨holding, waiting, cut⟩ := tracks
  rcases handler_cases (holding.drained left) waiting (room_of_left room _) ran with
    ⟨complete, next, same, emitted⟩ | ⟨kept, -, next, same, held, -⟩ | ⟨-, fault, same⟩
  · cases same
    exact ⟨[], emitted.1, waiting_nil, (cut.snoc b).close complete⟩
  · cases same
    exact ⟨pending ++ [b], held, kept, cut.snoc b⟩
  · cases same

theorem Tracks.run {seen bytes : List UInt8} {s s' : Ps2} {pending : List UInt8}
    (tracks : Tracks seen s pending) (run : Receives s bytes (.ok s')) :
    ∃ later, Tracks (seen ++ bytes) s' later := by
  generalize ends : Except.ok s' = outcome at run
  induction run generalizing seen pending with
  | done s =>
      cases ends
      exact ⟨pending, by rw [List.append_nil]; exact tracks⟩
  | byte left drained room ran rest ih =>
      obtain ⟨next, stepped⟩ := tracks.step room ran
      obtain ⟨later, reached⟩ := ih stepped ends
      exact ⟨later, by rw [List.append_cons]; exact reached⟩
  | fault left drained room ran => cases ends

theorem Tracks.continues {seen : List UInt8} {s : Ps2} {pending : List UInt8} {b : UInt8}
    (tracks : Tracks seen s pending) (framed : Framed ScanCode (seen ++ [b])) :
    ∃ code, ScanCode code ∧ pending ++ [b] <+: code := by
  obtain ⟨-, waiting, words, known, same⟩ := tracks
  rw [same, List.append_assoc] at framed
  exact framed.continues prefixFree_scanCode known waiting.2

theorem handler_inside {s : Ps2} {pending code : List UInt8} {b : UInt8} {fault : Fault}
    {left : Nat} (holding : Holding s pending) (waiting : Waiting pending) (room : left < 31)
    (complete : ScanCode code) (start : pending ++ [b] <+: code) :
    ps2Handler b { s with eventCount := left } ≠ .error fault := by
  intro ran
  have length := start.length_le
  have bound := complete.length
  simp only [List.length_append, List.length_singleton] at length
  rcases handler_cases (holding.drained left) waiting (room_of_left room _) ran with
    ⟨-, s', same, -⟩ | ⟨-, -, s', same, -⟩ | ⟨stuck, -⟩
  · cases same
  · cases same
  · rcases stuck with ⟨full, -⟩ | ⟨rfl, extended, paused, beyond⟩
    · omega
    · cases complete with
      | plain c _ _ known =>
          have same : b = c := by simpa using start
          exact absurd known (by rw [← same]; omega)
      | extended c _ _ => exact extended (by simpa using start)
      | printScreenPressed => exact extended (by simpa [printScreenPressed] using start)
      | printScreenReleased => exact extended (by simpa [printScreenReleased] using start)
      | pausePressed => exact paused (by simpa [pausePressed] using start)

theorem Tracks.inside {seen bytes : List UInt8} {s : Ps2} {pending : List UInt8} {fault : Fault}
    (tracks : Tracks seen s pending) (framed : Framed ScanCode (seen ++ bytes)) :
    ¬Receives s bytes (.error fault) := by
  intro run
  generalize ends : Except.error fault = outcome at run
  induction run generalizing seen pending with
  | done s => cases ends
  | byte left drained room ran rest ih =>
      rw [List.append_cons] at framed
      obtain ⟨next, stepped⟩ := tracks.step room ran
      exact ih stepped framed ends
  | @fault s b bytes stop left drained room ran =>
      have first : seen ++ [b] <+: seen ++ b :: bytes := by
        rw [List.append_cons seen b bytes]
        exact List.prefix_append _ _
      obtain ⟨code, complete, start⟩ := tracks.continues (framed.of_prefix first)
      exact handler_inside tracks.1 tracks.2.1 room complete start ran

theorem receives_rest {s : Ps2} {pending more : List UInt8} {outcome : Except Fault Ps2}
    (holding : Holding s pending) (waiting : Waiting pending)
    (complete : ScanCode (pending ++ more)) (run : Receives s more outcome) :
    ∃ s', outcome = .ok s' ∧ s'.keyBufCount = 0 := by
  induction run generalizing pending with
  | done s =>
      rw [List.append_nil] at complete
      exact absurd List.prefix_rfl (waiting.2 pending complete)
  | @byte s s' b bytes outcome left drained room ran rest ih =>
      rw [List.append_cons] at complete
      rcases handler_cases (holding.drained left) waiting (room_of_left room _) ran with
        ⟨whole, next, same, emitted⟩ | ⟨kept, -, next, same, held, -⟩ | ⟨-, fault, same⟩
      · have ended : bytes = [] := by
          have same := prefixFree_scanCode _ _ whole complete (List.prefix_append _ _)
          simpa using same
        subst ended
        cases rest
        cases same
        exact ⟨s', rfl, emitted.1.1⟩
      · cases same
        exact ih held kept complete
      · cases same
  | @fault s b bytes stop left drained room ran =>
      rw [List.append_cons] at complete
      exact absurd ran (handler_inside holding waiting room complete (List.prefix_append _ _))

theorem astray_snoc {pending : List UInt8} (astray : Astray ScanCode pending)
    (waiting : Waiting pending) (some_ : pending ≠ []) (b : UInt8) :
    Waiting (pending ++ [b]) := by
  rcases waiting_snoc waiting b with complete | kept | ⟨none, -⟩
  · exact absurd (List.prefix_append pending [b]) (astray _ complete).1
  · exact kept
  · exact absurd none some_

theorem receives_astray {s s' : Ps2} {pending more : List UInt8} (holding : Holding s pending)
    (waiting : Waiting pending) (astray : Astray ScanCode pending) (some_ : pending ≠ [])
    (run : Receives s more (.ok s')) : s'.keyBufCount ≠ 0 := by
  generalize ends : Except.ok s' = outcome at run
  induction run generalizing pending with
  | done s =>
      cases ends
      rw [holding.1]
      exact fun none => some_ (List.length_eq_zero_iff.mp none)
  | @byte s next b bytes outcome left drained room ran rest ih =>
      have kept := astray_snoc astray waiting some_ b
      rcases handler_cases (holding.drained left) waiting (room_of_left room _) ran with
        ⟨whole, -⟩ | ⟨-, -, after, same, held, -⟩ | ⟨-, fault, same⟩
      · exact absurd (List.prefix_append pending [b]) (astray _ whole).1
      · cases same
        exact ih held kept (astray.snoc b) (by simp) ends
      · cases same
  | fault left drained room ran => cases ends

theorem receives_exists (s : Ps2) (bytes : List UInt8) : ∃ outcome, Receives s bytes outcome := by
  induction bytes generalizing s with
  | nil => exact ⟨.ok s, .done s⟩
  | cons b bytes ih =>
      cases ran : ps2Handler b { s with eventCount := 0 } with
      | error fault => exact ⟨.error fault, .fault 0 (Nat.zero_le _) (by decide) ran⟩
      | ok s' =>
          obtain ⟨outcome, rest⟩ := ih s'
          exact ⟨outcome, .byte 0 (Nat.zero_le _) (by decide) ran rest⟩

theorem Tracks.empties {seen : List UInt8} {s : Ps2} {pending : List UInt8}
    (tracks : Tracks seen s pending) (framed : Framed ScanCode seen) :
    ∃ more : List UInt8, more.length ≤ 5 ∧
      ∀ outcome, Receives s more outcome → ∃ s', outcome = .ok s' ∧ s'.keyBufCount = 0 := by
  obtain ⟨holding, waiting, words, known, same⟩ := tracks
  rcases List.eq_nil_or_concat' pending with rfl | ⟨front, b, rfl⟩
  · refine ⟨[], by simp, fun outcome run => ?_⟩
    cases run
    exact ⟨s, rfl, holding.1⟩
  · have open_ : ∀ code, ScanCode code → ¬code <+: front :=
      fun code complete start => waiting.2 code complete (start.trans (List.prefix_append _ _))
    rw [same] at framed
    obtain ⟨code, complete, more, rfl⟩ := framed.continues prefixFree_scanCode known open_
    have length := complete.length
    simp only [List.length_append, List.length_singleton] at length
    exact ⟨more, by omega, fun outcome run => receives_rest holding waiting complete run⟩

theorem framed_of_staysInBounds {bytes : List UInt8} (stays : StaysInBounds bytes) :
    Framed ScanCode bytes := by
  obtain ⟨outcome, run⟩ := receives_exists .boot bytes
  cases outcome with
  | error fault => exact absurd run (stays.inside fault)
  | ok s =>
      obtain ⟨pending, holding, waiting, cut⟩ := tracks_boot.run run
      rw [List.nil_append] at cut
      by_cases none : pending = []
      · exact (none ▸ cut).framed_of_nil
      by_contra unframed
      have astray : Astray ScanCode pending := fun code complete =>
        ⟨fun start => unframed (cut.framed complete start), waiting.2 code complete⟩
      obtain ⟨more, -, emptied⟩ := stays.empties bytes List.prefix_rfl s run
      obtain ⟨outcome, rest⟩ := receives_exists s more
      obtain ⟨s', rfl, empty⟩ := emptied outcome rest
      exact receives_astray holding waiting astray none rest empty

/-- The handler stays in bounds exactly on streams of the codes it knows. -/
theorem ps2_stays_in_bounds (bytes : List UInt8) :
    StaysInBounds bytes ↔ Framed ScanCode bytes := by
  constructor
  · exact framed_of_staysInBounds
  · intro framed
    refine ⟨fun fault => tracks_boot.inside framed, fun seen earlier s run => ?_⟩
    obtain ⟨pending, tracks⟩ := tracks_boot.run run
    exact tracks.empties (framed.of_prefix earlier)

theorem not_framed_fakeShift : ¬Framed ScanCode [0xE0, 0x2A, 0xE0, 0x52] := by
  rintro ⟨words, known, start⟩
  cases words with
  | nil => simp at start
  | cons word rest =>
      cases known word List.mem_cons_self with
      | plain b extended _ _ => simp [Ne.symm extended] at start
      | extended b pressed _ => simp [Ne.symm pressed] at start
      | printScreenPressed => simp [printScreenPressed] at start
      | printScreenReleased => simp [printScreenReleased] at start
      | pausePressed => simp [pausePressed] at start

/-- The left Windows key without its prefix, and Insert with the fake shift before it. -/
theorem ps2_leaves_bounds :
    ¬StaysInBounds [0x5B] ∧ ¬StaysInBounds [0xE0, 0x2A, 0xE0, 0x52] := by
  refine ⟨fun stays => ?_, fun stays => not_framed_fakeShift (framed_of_staysInBounds stays)⟩
  have ran : ps2Handler 0x5B { Ps2.boot with eventCount := 0 } =
      .error (.usQwertyKeyboard 0x5B) := rfl
  exact stays.inside _ (.fault 0 (Nat.zero_le 0) (by decide) ran)

end Nyaux.Drivers
