import Mos.Debugf
import Mos.Print

/-!
# Formatted debug output

`vdebugf` of `user/lib/debugf.c`, with `vprintfmt` calling `debug_output`: what reaches
the console is the expansion of the format.
-/

namespace Mos

/-- What the arrays of `print_num` and the buffer of the context begin with. -/
structure PrintStack where
  array : (n : Nat) → Buffer n Byte
  buf : Nat → Byte

variable {va : Word} {stack : PrintStack} {fmt text : List Byte} {ap : List Arg} {fuel : Nat}

/-- `vdebugf` with its context at `va`: the buffers that it prints. -/
def vdebugf (va : Word) (fuel : Nat) (stack : PrintStack) (fmt : List Byte) (ap : List Arg) :
    Option (List (List Byte)) := do
  let chunks ← vprintfmt stack.array fmt ap fuel
  let ctx ← (DebugCtx.start stack.buf).outputs va fuel chunks
  let ctx ← ctx.flush va
  return ctx.printed

/-- With enough fuel, whatever is on the stack, `vdebugf` prints `text`. -/
def Debugs (va : Word) (fmt : List Byte) (ap : List Arg) (text : List Byte) : Prop :=
  ∃ least, ∀ fuel stack, least ≤ fuel →
    ∃ printed, vdebugf va fuel stack fmt ap = some printed ∧ printed.flatten = text

/-- `vdebugf` prints the expansion of its format exactly when the width of each number
leaves room in the array of `print_num`: buffers are cut where they are full, and the
pieces add up. -/
theorem vdebugf_prints_iff (placed : va.toNat + bufLen ≤ utop.toNat) (string : (0 : Byte) ∉ fmt)
    (matching : expand fmt ap = some text) (short : ∀ d ∈ directives fmt, d.width < 2 ^ 31)
    (apart : text.length + bufLen < 2 ^ 32) :
    Debugs va fmt ap text ↔ ∀ d ∈ directives fmt, d.Fits := by
  constructor
  · rintro ⟨least, debugs⟩
    by_contra wide
    obtain ⟨printed, run, -⟩ :=
      debugs (least + fmt.length + 1) ⟨fun _ _ => 0, fun _ => 0⟩ (by omega)
    have enough : fmt.length < least + fmt.length + 1 := by omega
    rw [vdebugf, (vprintfmt_prints string matching short enough).2 wide] at run
    cases run
  · intro fits
    refine ⟨fmt.length + 2 * text.length + 2, fun fuel stack enough => ?_⟩
    have inFormat : fmt.length < fuel := by omega
    obtain ⟨chunks, run, whole⟩ : ∃ chunks,
        vprintfmt stack.array fmt ap fuel = some ([] ++ chunks) ∧ chunks.flatten = text :=
      (vprintfmt_prints string matching short inFormat).1 fits
    have length : ∀ s ∈ chunks, s.length ≤ text.length := fun s mem => by
      rw [← whole]
      exact (List.sublist_flatten_of_mem mem).length_le
    obtain ⟨ctx, output, adds⟩ := @DebugCtx.outputs_adds (.start stack.buf) va fuel chunks placed
      (Nat.zero_le _) (fun s mem => by have := length s mem; omega)
      fun s mem => by have := length s mem; omega
    obtain ⟨ctx', flushed, -, printed⟩ := ctx.flush_eq placed adds.inside
    refine ⟨ctx'.printed, ?_, ?_⟩
    · rw [List.nil_append] at run
      show (vprintfmt stack.array fmt ap fuel).bind (fun chunks =>
        ((DebugCtx.start stack.buf).outputs va fuel chunks).bind fun ctx =>
          (ctx.flush va).bind fun ctx => some ctx.printed) = _
      rw [run, Option.bind_some, output, Option.bind_some, flushed, Option.bind_some]
    · rw [printed]
      exact adds.written.trans whole

/-- `%5d`. -/
theorem vdebugf_prints_iff_d : Debugs 0x7f3fd000 [0x25, 0x35, 0x64] [.int 7]
    [0x20, 0x20, 0x20, 0x20, 0x37] ↔ ∀ d ∈ directives [0x25, 0x35, 0x64], d.Fits :=
  vdebugf_prints_iff (by decide) (by decide) (by decide +kernel) (by decide +kernel)
    (by decide)

end Mos
