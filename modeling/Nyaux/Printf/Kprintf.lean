import Nyaux.Flanterm.Terminal
import Nyaux.Printf.Numerals

/-! `kprintf` of `main.c`: what it formats is what the framebuffer shows. -/

namespace Nyaux.Printf

open Flanterm

section

variable {σ : Type} (B : Backend σ)

/-- `kputc`, without the serial port -/
def kputc (t : Term σ) (ch : UInt8) : Term σ := flantermWrite B [ch] t

def kprintf (format : List UInt8) (args : List Slot) (t : Term σ) : Option (Term σ) :=
  (vpprintf format args).map fun out => out.foldl (kputc B) t

theorem kputc_writes (out : List UInt8) (t : Term σ) :
    out.foldl (kputc B) t = writes B (out.map fun c => [c]) t := by
  rw [writes, List.foldl_map]
  rfl

theorem writes_append (bufs bufs' : List (List UInt8)) (t : Term σ) :
    writes B (bufs ++ bufs') t = writes B bufs' (writes B bufs t) := by
  unfold writes
  exact List.foldl_append

end

variable {framebuffer : LimineFramebuffer} (builtinFont : Nat → UInt8) (memory : Nat → UInt32)
variable (valid : framebuffer.Valid)

include valid

/-- After any writes, `kprintf` prints each part of its format with the part's own arguments, and
every pixel of the framebuffer is what a plain screen makes of all these bytes. -/
theorem kprintf_shows (bufs : List (List UInt8)) (parts : List Part) (more : List Slot) :
    ∃ outs, List.Forall₂ (fun (p : Part) out => vpprintf p.text p.args = some out) parts outs ∧
      ∃ t t', (started framebuffer builtinFont memory).term = some t ∧
        kprintf fbBackend (parts.flatMap Part.text) (parts.flatMap Part.args ++ more)
          (writes fbBackend bufs t) = some t' ∧
        let d := startDisplay framebuffer builtinFont
        let u := putchars (screenBackend d) (bufs.flatten ++ outs.flatten)
          (startScreen framebuffer builtinFont)
        t'.ctx = u.ctx ∧ ∀ px < d.width, ∀ py < d.height,
          t'.back.memory (d.address px py) =
            u.back.pixel d (startRows framebuffer builtinFont) (startCols framebuffer builtinFont)
              u.ctx.cursorEnabled px py := by
  obtain ⟨outs, each, printed⟩ := vpprintf_parts parts more
  have started := (started_eq builtinFont memory valid.toMasks).1
  obtain ⟨fits, related, shows⟩ :=
    run_related builtinFont memory valid (bufs ++ outs.flatten.map fun c => [c])
  have bytes : (bufs ++ outs.flatten.map fun c => [c]).flatten = bufs.flatten ++ outs.flatten := by
    rw [List.flatten_append, ← List.flatMap_def, List.flatMap_singleton']
  rw [bytes] at related
  refine ⟨outs, each, _, _, started, ?_, related.same.symm, fun px inWidth py inHeight => ?_⟩
  · rw [kprintf, printed, Option.map_some, kputc_writes, ← writes_append]
  · rw [related.same]
    exact shows.pixel fits related.back inWidth inHeight

omit valid in
theorem kprintf_shows_full_hd :
    ∃ outs, List.Forall₂ (fun (p : Part) out => vpprintf p.text p.args = some out)
        [.byte 0x3d (by decide), .directive prefixedHex [⟨255, []⟩] rfl] outs ∧
      ∃ t t', (started fullHd (fun _ => 0) fun _ => 0).term = some t ∧
        kprintf fbBackend [0x3d, 0x25, 0x23, 0x6c, 0x78] [⟨255, []⟩] (writes fbBackend [[0x68]] t) =
          some t' ∧
        let d := startDisplay fullHd fun _ => 0
        let u := putchars (screenBackend d) ([0x68] ++ outs.flatten) (startScreen fullHd fun _ => 0)
        t'.ctx = u.ctx ∧ ∀ px < d.width, ∀ py < d.height,
          t'.back.memory (d.address px py) =
            u.back.pixel d (startRows fullHd fun _ => 0) (startCols fullHd fun _ => 0)
              u.ctx.cursorEnabled px py :=
  kprintf_shows _ _ fullHd_valid [[0x68]] [.byte 0x3d (by decide), .directive prefixedHex [⟨255, []⟩] rfl]
    []

end Nyaux.Printf
