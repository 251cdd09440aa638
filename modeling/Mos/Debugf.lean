import Mos.SyscallReturn

/-!
# Buffered debug output

`debug_output` and `debug_flush` of `user/lib/debugf.c`. The buffer goes to
`syscall_print_cons` when a chunk does not fit in it, and once more at the end.
-/

namespace Mos

/-- `BUF_LEN` -/
def bufLen : Nat := 1024

/-- A `struct debug_ctx` and the buffers that were printed so far. A store outside of
`buf` has no result. -/
structure DebugCtx where
  buf : Nat → Byte
  pos : Word
  printed : List (List Byte)

namespace DebugCtx

/-- The bytes that wait in the buffer. -/
def pending (ctx : DebugCtx) : List Byte := (List.range ctx.pos.toNat).map ctx.buf

/-- `memcpy(ctx->buf + ctx->pos, s, n)` and the new `ctx->pos`. -/
def append (ctx : DebugCtx) (s : List Byte) (n : Word) : Option DebugCtx :=
  if bufLen < ctx.pos.toNat + n.toNat then none
  else some { ctx with
    buf := fun i =>
      if ctx.pos.toNat ≤ i ∧ i < ctx.pos.toNat + n.toNat then s.getD (i - ctx.pos.toNat) 0
      else ctx.buf i
    pos := ctx.pos + n }

/-- `debug_flush` of the context at `va`. It does not return from `user_panic`. -/
def flush (va : Word) (ctx : DebugCtx) : Option DebugCtx :=
  if ctx.pos = 0 then some ctx
  else if sysPrintCons va ctx.pos ≠ .ok 0 then none
  else some { ctx with printed := ctx.printed ++ [ctx.pending], pos := 0 }

/-- The loop of `debug_output`, with `l` bytes left from `s` on. -/
def outputLoop (va : Word) : Nat → DebugCtx → List Byte → Word →
    Option (DebugCtx × List Byte × Word)
  | 0, _, _, _ => none
  | fuel + 1, ctx, s, l =>
      if BitVec.ofNat 32 bufLen < ctx.pos + l then do
        let n := BitVec.ofNat 32 bufLen - ctx.pos
        -- `ctx->pos` is `BUF_LEN` now
        let ctx ← ctx.append s n
        let ctx ← ctx.flush va
        outputLoop va fuel ctx (s.drop n.toNat) (l - n)
      else some (ctx, s, l)

/-- `debug_output` -/
def output (va : Word) (fuel : Nat) (ctx : DebugCtx) (s : List Byte) : Option DebugCtx := do
  let (ctx, s, l) ← outputLoop va fuel ctx s (BitVec.ofNat 32 s.length)
  ctx.append s l

/-- A context as `vdebugf` begins with it. -/
def start (buf : Nat → Byte) : DebugCtx := ⟨buf, 0, []⟩

variable {ctx ctx' : DebugCtx} {va l n : Word} {s : List Byte} {fuel : Nat}

theorem append_eq (fits : ctx.pos.toNat + n.toNat ≤ bufLen) (inside : n.toNat ≤ s.length) :
    ∃ ctx', ctx.append s n = some ctx' ∧ ctx'.pos = ctx.pos + n ∧ ctx'.printed = ctx.printed ∧
      ctx'.pending = ctx.pending ++ s.take n.toNat := by
  have small : (ctx.pos + n).toNat = ctx.pos.toNat + n.toNat := by
    unfold bufLen at fits
    rw [BitVec.toNat_add]
    omega
  refine ⟨_, if_neg (Nat.not_lt.mpr fits), rfl, rfl, ?_⟩
  apply List.ext_getElem
  · simp [pending, small]
    omega
  · intro i low high
    simp only [pending, List.length_map, List.length_range, small] at low
    simp only [pending, List.getElem_map, List.getElem_range, List.getElem_append,
      List.length_map, List.length_range, List.getElem_take]
    by_cases before : i < ctx.pos.toNat
    · rw [if_neg (by omega), dif_pos before]
    · rw [if_pos ⟨Nat.not_lt.mp before, low⟩, dif_neg before, List.getD_eq_getElem?_getD,
        List.getElem?_eq_getElem (by omega), Option.getD_some]

/-- A context in user memory is flushed. -/
theorem flush_eq (placed : va.toNat + bufLen ≤ utop.toNat) (fits : ctx.pos.toNat ≤ bufLen) :
    ∃ ctx', ctx.flush va = some ctx' ∧ ctx'.pos = 0 ∧
      ctx'.printed.flatten = ctx.printed.flatten ++ ctx.pending := by
  unfold bufLen at placed fits
  have top : utop.toNat = 0x7f400000 := rfl
  by_cases empty : ctx.pos = 0
  · refine ⟨ctx, if_pos empty, empty, ?_⟩
    rw [pending, empty]
    exact (List.append_nil _).symm
  · have pos : 0 < ctx.pos.toNat := by
      refine Nat.pos_of_ne_zero fun zero => empty (BitVec.eq_of_toNat_eq zero)
    have sum : (va + ctx.pos).toNat = va.toNat + ctx.pos.toNat := by
      rw [BitVec.toNat_add]
      omega
    have legal : ¬printConsIllegal va ctx.pos := by
      rintro (above | above | wraps)
      · rw [BitVec.lt_def, sum] at above
        omega
      · rw [BitVec.le_def] at above
        omega
      · rw [BitVec.lt_def, sum] at wraps
        omega
    refine ⟨{ ctx with printed := ctx.printed ++ [ctx.pending], pos := 0 }, ?_, rfl, ?_⟩
    · rw [flush, if_neg empty, sysPrintCons, if_neg legal, if_neg (not_not_intro rfl)]
    · simp

/-- What has been output: the printed buffers, and what waits. -/
def written (ctx : DebugCtx) : List Byte := ctx.printed.flatten ++ ctx.pending

/-- The context after `s`: nothing is lost, and `pos` is in the buffer. -/
structure Adds (ctx : DebugCtx) (s : List Byte) (ctx' : DebugCtx) : Prop where
  inside : ctx'.pos.toNat ≤ bufLen
  written : ctx'.written = ctx.written ++ s

/-- The loop ends with what is left fitting in the buffer: a turn either copies
something, or the buffer was full and is empty now. -/
theorem outputLoop_ends (placed : va.toNat + bufLen ≤ utop.toNat) (fits : ctx.pos.toNat ≤ bufLen)
    (length : l.toNat = s.length) (apart : s.length + bufLen < 2 ^ 32)
    (enough : 2 * s.length + ctx.pos.toNat / bufLen < fuel) :
    ∃ ctx' s' l' done, outputLoop va fuel ctx s l = some (ctx', s', l') ∧ l'.toNat = s'.length ∧
      ctx'.pos.toNat + l'.toNat ≤ bufLen ∧ s = done ++ s' ∧ ctx.Adds done ctx' := by
  induction fuel generalizing ctx s l with
  | zero => exact absurd enough (Nat.not_lt_zero _)
  | succ fuel ih =>
      unfold bufLen at fits apart enough
      have sum : (ctx.pos + l).toNat = ctx.pos.toNat + l.toNat := by
        rw [BitVec.toNat_add]
        omega
      have full : (BitVec.ofNat 32 bufLen).toNat = 1024 := rfl
      rw [outputLoop]
      by_cases more : BitVec.ofNat 32 bufLen < ctx.pos + l
      · rw [if_pos more]
        rw [BitVec.lt_def, sum, full] at more
        generalize room : BitVec.ofNat 32 bufLen - ctx.pos = n
        have n_eq : n.toNat = 1024 - ctx.pos.toNat := by
          rw [← room, BitVec.toNat_sub, full]
          omega
        obtain ⟨ctx₁, copied, pos₁, printed₁, pending₁⟩ :=
          ctx.append_eq (s := s) (n := n) (by unfold bufLen; omega) (by omega)
        have fits₁ : ctx₁.pos.toNat = 1024 := by
          rw [pos₁, BitVec.toNat_add, n_eq]
          omega
        obtain ⟨ctx₂, flushed, pos₂, printed₂⟩ :=
          ctx₁.flush_eq placed (by unfold bufLen; omega)
        have left : (l - n).toNat = (s.drop n.toNat).length := by
          rw [BitVec.toNat_sub, List.length_drop]
          omega
        have empty : ctx₂.pos.toNat = 0 := by rw [pos₂]; rfl
        obtain ⟨ctx', s', l', done, run, length', fits', split, adds⟩ :=
          @ih ctx₂ (l - n) (s.drop n.toNat) (by omega) left
            (by rw [List.length_drop]; unfold bufLen; omega)
            (by rw [List.length_drop, empty]; unfold bufLen; omega)
        refine ⟨ctx', s', l', s.take n.toNat ++ done, ?_, length', fits', ?_, adds.inside, ?_⟩
        · simp only [copied, flushed, Option.bind_eq_bind, Option.bind_some, run]
        · rw [List.append_assoc, ← split, List.take_append_drop]
        · have nothing : ctx₂.pending = [] := by rw [pending, empty]; rfl
          have before : ctx₂.written = ctx.written ++ s.take n.toNat := by
            rw [written, printed₂, printed₁, pending₁, nothing, List.append_nil, written,
              List.append_assoc]
          rw [adds.written, before, List.append_assoc]
      · rw [if_neg more]
        rw [BitVec.lt_def, sum, full] at more
        exact ⟨ctx, s, l, [], rfl, length, by unfold bufLen; omega, rfl,
          by unfold bufLen; omega, (List.append_nil _).symm⟩

/-- A chunk is added as a whole. -/
theorem output_adds (placed : va.toNat + bufLen ≤ utop.toNat) (fits : ctx.pos.toNat ≤ bufLen)
    (apart : s.length + bufLen < 2 ^ 32) (enough : 2 * s.length + 1 < fuel) :
    ∃ ctx', ctx.output va fuel s = some ctx' ∧ ctx.Adds s ctx' := by
  have length : (BitVec.ofNat 32 s.length).toNat = s.length := by
    rw [BitVec.toNat_ofNat]
    omega
  have turns : ctx.pos.toNat / bufLen ≤ 1 := Nat.div_le_of_le_mul (by omega)
  obtain ⟨ctx₁, s', l, done, run, length', fits', split, adds⟩ :=
    @outputLoop_ends _ _ _ _ fuel placed fits length apart (by omega)
  obtain ⟨ctx', copied, pos, printed, pending⟩ := ctx₁.append_eq fits' (Nat.le_of_eq length')
  refine ⟨ctx', ?_, ?_, ?_⟩
  · rw [output, run]
    exact copied
  · unfold bufLen at fits' ⊢
    rw [pos, BitVec.toNat_add]
    omega
  · rw [written, printed, pending, length', List.take_length, ← List.append_assoc, ← written,
      adds.written, split, List.append_assoc]

/-- The chunks one after the other. -/
def outputs (va : Word) (fuel : Nat) (ctx : DebugCtx) (chunks : List (List Byte)) :
    Option DebugCtx :=
  chunks.foldlM (output va fuel) ctx

theorem outputs_adds {chunks : List (List Byte)} (placed : va.toNat + bufLen ≤ utop.toNat)
    (fits : ctx.pos.toNat ≤ bufLen) (apart : ∀ s ∈ chunks, s.length + bufLen < 2 ^ 32)
    (enough : ∀ s ∈ chunks, 2 * s.length + 1 < fuel) :
    ∃ ctx', ctx.outputs va fuel chunks = some ctx' ∧ ctx.Adds chunks.flatten ctx' := by
  induction chunks generalizing ctx with
  | nil => exact ⟨ctx, rfl, fits, (List.append_nil _).symm⟩
  | cons s chunks ih =>
      obtain ⟨ctx₁, run, adds⟩ := output_adds placed fits (apart s List.mem_cons_self)
        (enough s List.mem_cons_self)
      obtain ⟨ctx', rest, all⟩ := ih adds.inside
        (fun s mem => apart s (List.mem_cons_of_mem _ mem))
        fun s mem => enough s (List.mem_cons_of_mem _ mem)
      refine ⟨ctx', ?_, all.inside, ?_⟩
      · rw [outputs, List.foldlM_cons, run]
        exact rest
      · rw [all.written, adds.written, List.flatten_cons, List.append_assoc]

end DebugCtx

/-- The chunks that were output are printed whole and in order, and `pos` stays within the
buffer. A chunk and the context are apart in the address space. -/
theorem debug_output_lossless (va : Word) (placed : va.toNat + bufLen ≤ utop.toNat)
    (buf : Nat → Byte) (chunks : List (List Byte))
    (apart : ∀ s ∈ chunks, s.length + bufLen < 2 ^ 32) :
    ∃ fuel ctx ctx', (DebugCtx.start buf).outputs va fuel chunks = some ctx ∧
      ctx.pos.toNat ≤ bufLen ∧ ctx.flush va = some ctx' ∧ ctx'.pos = 0 ∧
      ctx'.printed.flatten = chunks.flatten := by
  obtain ⟨fuel, enough⟩ : ∃ fuel, ∀ s ∈ chunks, 2 * s.length + 1 < fuel := by
    refine ⟨2 * chunks.flatten.length + 2, fun s mem => ?_⟩
    have := (List.sublist_flatten_of_mem mem).length_le
    omega
  obtain ⟨ctx, run, adds⟩ := @DebugCtx.outputs_adds (.start buf) _ _ _ placed (Nat.zero_le _)
    apart enough
  obtain ⟨ctx', flushed, pos, printed⟩ := ctx.flush_eq placed adds.inside
  exact ⟨fuel, ctx, ctx', run, adds.inside, flushed, pos, printed.trans adds.written⟩

/-- Two buffers full, the second one split. -/
theorem debug_output_lossless_full : ∃ fuel ctx ctx',
    (DebugCtx.start fun _ => 0).outputs 0x7f3fd000 fuel
      [List.replicate 1024 0x61, List.replicate 1024 0x62] = some ctx ∧
      ctx.pos.toNat ≤ bufLen ∧ ctx.flush 0x7f3fd000 = some ctx' ∧ ctx'.pos = 0 ∧
      ctx'.printed.flatten = [List.replicate 1024 0x61, List.replicate 1024 0x62].flatten := by
  refine debug_output_lossless 0x7f3fd000 (by decide) _ _ fun s mem => ?_
  obtain rfl | rfl := List.mem_pair.mp mem
  · rw [List.length_replicate]
    decide
  · rw [List.length_replicate]
    decide

end Mos
