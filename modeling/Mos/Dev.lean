import Mos.Pipe
import Mos.Syscall

/-!
# Device access

`sys_write_dev` and `sys_read_dev` of `kern/syscall_all.c`, with the `memcpy` of
`lib/string.c` that they run. Memory is the address space as the kernel sees it
while the caller runs: the caller's pages, and the devices from `KSEG1` on. What a
device does when it is read or written is not modelled.

The kernel adds `pa` and `len` in 32 bits. Both calls do what they should exactly
when this sum does not come out below the end of a device because it wrapped
(`dev_confined_iff`).
-/

namespace Mos.Dev

abbrev Memory := Word → Byte

/-- `KSEG1`: physical memory, uncached. -/
def kseg1 : Word := 0xa0000000#32

/-! ## `memcpy` -/

/-- The loops of `memcpy`: memory and the two pointers. -/
structure Copy where
  mem : Memory
  dst : Word
  src : Word

/-- One iteration: `w` bytes are loaded, then stored. -/
def Copy.move (w : Nat) (c : Copy) : Copy where
  mem := fun a => if (a - c.dst).toNat < w then c.mem (c.src + (a - c.dst)) else c.mem a
  dst := c.dst + BitVec.ofNat 32 w
  src := c.src + BitVec.ofNat 32 w

/-- How far `dst` is below `max`. -/
def Copy.left (c : Copy) (max : Word) : Nat := max.toNat - c.dst.toNat

/-- `while (dst < max)`, by chars. -/
def Copy.chars (c : Copy) (max : Word) : Copy := (Copy.move 1)^[c.left max] c

/-- `while ((dst & 3) && dst < max)`, by chars. -/
def Copy.align (c : Copy) (max : Word) : Copy :=
  (Copy.move 1)^[min (c.left max) ((0 - c.dst) &&& 3).toNat] c

/-- `while (dst + 4 <= max)`, by words. -/
def Copy.words (c : Copy) (max : Word) : Copy := (Copy.move 4)^[c.left max / 4] c

/-- `memcpy` -/
def memcpy (mem : Memory) (dst src n : Word) : Memory :=
  let max := dst + n
  let c : Copy := ⟨mem, dst, src⟩
  if src &&& 3 ≠ dst &&& 3 then (c.chars max).mem
  else (((c.align max).words max).chars max).mem

/-- `k` bytes from `src` on are now at `dst`, and the rest is as it was. -/
def Copied (mem mem' : Memory) (dst src : Word) (k : Nat) : Prop :=
  ∀ a, mem' a = if (a - dst).toNat < k then mem (src + (a - dst)) else mem a

/-- No byte from `src` on lies where one goes. -/
def Apart (dst src : Word) (n : Nat) : Prop :=
  ∀ a : Word, (a - dst).toNat < n → n ≤ (src + (a - dst) - dst).toNat

/-- The loops after `k` bytes. -/
structure Copy.Done (mem : Memory) (dst src : Word) (k : Nat) (c : Copy) : Prop where
  copied : Copied mem c.mem dst src k
  dst_eq : c.dst = dst + BitVec.ofNat 32 k
  src_eq : c.src = src + BitVec.ofNat 32 k

variable {mem mem' : Memory} {dst src va pa len max : Word} {k m n w : Nat} {c : Copy}

theorem Copy.Done.start : Copy.Done mem dst src 0 ⟨mem, dst, src⟩ :=
  ⟨fun a => by rw [if_neg (Nat.not_lt_zero _)], by simp, by simp⟩

/-- An iteration copies the next `w` bytes. -/
theorem Copy.Done.move (done : c.Done mem dst src k) (apart : Apart dst src n)
    (room : k + w ≤ n) (small : n < 2 ^ 32) : (c.move w).Done mem dst src (k + w) := by
  obtain ⟨copied, dst_eq, src_eq⟩ := done
  have next : ∀ p : Word, p + BitVec.ofNat 32 k + BitVec.ofNat 32 w = p + BitVec.ofNat 32 (k + w) :=
    fun p => by rw [BitVec.add_assoc, BitVec.ofNat_add]
  refine ⟨fun a => ?_, by rw [← next, ← dst_eq]; rfl, by rw [← next, ← src_eq]; rfl⟩
  -- the distance from the moving pointer is what is left of that from `dst`
  have from_dst : a - c.dst = a - dst - BitVec.ofNat 32 k := by
    rw [dst_eq]
    bv_omega
  have moved : (c.move w).mem a =
      if (a - c.dst).toNat < w then c.mem (c.src + (a - c.dst)) else c.mem a := rfl
  have loaded : c.src + (a - c.dst) = src + (a - dst) := by
    rw [from_dst, src_eq]
    bv_omega
  have small' : k < 2 ^ 32 := by omega
  have back : (a - dst - BitVec.ofNat 32 k).toNat < w ↔
      k ≤ (a - dst).toNat ∧ (a - dst).toNat < k + w := by
    generalize a - dst = d
    bv_omega
  rw [moved, loaded, from_dst]
  by_cases inside : (a - dst - BitVec.ofNat 32 k).toNat < w
  · obtain ⟨-, upper⟩ := back.mp inside
    have away := apart a (by omega)
    rw [if_pos inside, if_pos upper, copied, if_neg (by omega)]
  · rw [if_neg inside, copied]
    by_cases before : (a - dst).toNat < k
    · rw [if_pos before, if_pos (by omega)]
    · rw [if_neg before, if_neg]
      intro upper
      exact inside (back.mpr ⟨by omega, upper⟩)

/-- A loop of `m` iterations copies the next `m * w` bytes. -/
theorem Copy.Done.iterate (done : c.Done mem dst src k) (apart : Apart dst src n)
    (room : k + m * w ≤ n) (small : n < 2 ^ 32) :
    ((Copy.move w)^[m] c).Done mem dst src (k + m * w) := by
  induction m with
  | zero => simpa using done
  | succ m ih =>
      rw [Nat.succ_mul] at room ⊢
      rw [Function.iterate_succ_apply', ← Nat.add_assoc]
      exact (ih (by omega)).move apart (by omega) small

/-- Where the destination does not wrap, `dst` is below `max` by what is not copied. -/
theorem Copy.Done.left (done : c.Done mem dst src k) (le : k ≤ n)
    (below : dst.toNat + n < 2 ^ 32) : c.left (dst + BitVec.ofNat 32 n) = n - k := by
  rw [Copy.left, done.dst_eq]
  bv_omega

theorem memcpy_copied (apart : Apart dst src len.toNat) (below : dst.toNat + len.toNat < 2 ^ 32) :
    Copied mem (memcpy mem dst src len) dst src len.toNat := by
  have small : len.toNat < 2 ^ 32 := len.isLt
  have chars : ∀ {c : Copy} {k : Nat}, k ≤ len.toNat → c.Done mem dst src k →
      Copied mem (c.chars (dst + len)).mem dst src len.toNat := by
    intro c k le done
    have left := done.left le below
    rw [BitVec.ofNat_toNat, BitVec.setWidth_eq] at left
    have all := done.iterate (m := len.toNat - k) (w := 1) apart (by omega) small
    rw [Copy.chars, left]
    rw [show k + (len.toNat - k) * 1 = len.toNat by omega] at all
    exact all.copied
  unfold memcpy
  by_cases odd : src &&& 3 ≠ dst &&& 3
  · rw [if_pos odd]
    exact chars (Nat.zero_le _) .start
  · rw [if_neg odd]
    have start : Copy.Done mem dst src 0 ⟨mem, dst, src⟩ := .start
    have left := start.left (Nat.zero_le len.toNat) below
    rw [BitVec.ofNat_toNat, BitVec.setWidth_eq] at left
    obtain ⟨h, short, aligned⟩ : ∃ h, h ≤ len.toNat ∧
        (Copy.align ⟨mem, dst, src⟩ (dst + len)).Done mem dst src h := by
      let h := min (len.toNat - 0) ((0 - dst) &&& 3).toNat
      have head := start.iterate (m := h) (w := 1) apart (by omega) small
      rw [Nat.zero_add, Nat.mul_one] at head
      refine ⟨h, by omega, ?_⟩
      rw [Copy.align, left]
      exact head
    have left' := aligned.left short below
    rw [BitVec.ofNat_toNat, BitVec.setWidth_eq] at left'
    have body := aligned.iterate (m := (len.toNat - h) / 4) (w := 4) apart (by omega) small
    rw [← left'] at body
    refine chars ?_ body
    rw [left']
    omega

/-- The iterations of a loop that end at `stop` at the latest store below it. -/
theorem copy_keeps {a : Word} {c : Copy} (stop : Word) (width i : Nat)
    (room : i = 0 ∨ c.dst.toNat + i * width ≤ stop.toNat)
    (outside : a.toNat < c.dst.toNat ∨ stop.toNat ≤ a.toNat) :
    ((Copy.move width)^[i] c).mem a = c.mem a ∧
      ((Copy.move width)^[i] c).dst.toNat = c.dst.toNat + i * width := by
  induction i with
  | zero => simp
  | succ i ih =>
      have room' := room.resolve_left (Nat.succ_ne_zero i)
      rw [Nat.succ_mul, ← Nat.add_assoc] at room' ⊢
      obtain ⟨kept, at_dst⟩ := ih (Or.inr (by omega))
      have bound := stop.isLt
      rw [Function.iterate_succ_apply']
      generalize (Copy.move width)^[i] c = c' at kept at_dst
      refine ⟨?_, ?_⟩
      · rw [← kept]
        apply if_neg
        rw [BitVec.toNat_sub]
        have low := c'.dst.isLt
        have high := a.isLt
        omega
      · rw [← at_dst, Copy.move, BitVec.toNat_add, BitVec.toNat_ofNat]
        omega

/-- `memcpy` stores between `dst` and `dst + n` only. -/
theorem memcpy_outside {a : Word} (outside : a.toNat < dst.toNat ∨ (dst + len).toNat ≤ a.toNat) :
    memcpy mem dst src len a = mem a := by
  unfold memcpy
  generalize dst + len = stop at outside
  have chars : ∀ c : Copy, a.toNat < c.dst.toNat ∨ stop.toNat ≤ a.toNat →
      (c.chars stop).mem a = c.mem a := fun c outside =>
    (copy_keeps stop 1 (c.left stop) (by unfold Copy.left; omega) outside).1
  split
  · exact chars ⟨mem, dst, src⟩ outside
  · let c : Copy := ⟨mem, dst, src⟩
    obtain ⟨aligned, at_head⟩ := @copy_keeps a c stop 1
      (min (c.left stop) ((0 - c.dst) &&& 3).toNat) (by unfold Copy.left; omega) outside
    have from_head : dst.toNat ≤ (c.align stop).dst.toNat := by
      have head : (c.align stop).dst.toNat = _ := at_head
      rw [head]
      exact Nat.le_add_right _ _
    have outside₁ : a.toNat < (c.align stop).dst.toNat ∨ stop.toNat ≤ a.toNat := by omega
    obtain ⟨worded, at_body⟩ := @copy_keeps a (c.align stop) stop 4 ((c.align stop).left stop / 4)
      (by unfold Copy.left; omega) outside₁
    have outside₂ : a.toNat < ((c.align stop).words stop).dst.toNat ∨ stop.toNat ≤ a.toNat := by
      have body : ((c.align stop).words stop).dst.toNat = _ := at_body
      omega
    exact (chars _ outside₂).trans (worded.trans aligned)

/-! ## The calls -/

/-- Start and length of the console, the disk and the clock. -/
def devices : List (Nat × Nat) :=
  [(0x10000000, 0x20), (0x13000000, 0x4200), (0x15000000, 0x200)]

/-- The check on `pa`, in the arithmetic of the machine. -/
def IsDevRange (pa len : Word) : Prop :=
  (0x10000000#32 ≤ pa ∧ pa + len ≤ 0x10000020#32) ∨
  (0x13000000#32 ≤ pa ∧ pa + len ≤ 0x13004200#32) ∨
  (0x15000000#32 ≤ pa ∧ pa + len ≤ 0x15000200#32)

instance (pa len : Word) : Decidable (IsDevRange pa len) := inferInstanceAs (Decidable (_ ∨ _))

def sysWriteDev (mem : Memory) (va pa len : Word) : Memory × Ret :=
  if isIllegalVaRange va len then (mem, .error .inval)
  else if ¬ IsDevRange pa len then (mem, .error .inval)
  else (memcpy mem (pa + kseg1) va len, .ok 0)

def sysReadDev (mem : Memory) (va pa len : Word) : Memory × Ret :=
  if isIllegalVaRange va len then (mem, .error .inval)
  else if ¬ IsDevRange pa len then (mem, .error .inval)
  else (memcpy mem va (pa + kseg1) len, .ok 0)

inductive DevCall
  | write
  | read
  deriving DecidableEq

def DevCall.exec : DevCall → Memory → Word → Word → Word → Memory × Ret
  | .write => sysWriteDev
  | .read => sysReadDev

/-- Where the bytes go. -/
def DevCall.dest (va pa : Word) : DevCall → Word
  | .write => pa + kseg1
  | .read => va

/-- Where the bytes come from. -/
def DevCall.source (va pa : Word) : DevCall → Word
  | .write => va
  | .read => pa + kseg1

/-- Without wrapping, the `len` bytes at `va` are the user's and those at `pa` belong
to one of the devices. -/
def Allowed (va pa len : Word) : Prop :=
  (len = 0 ∨ (utemp.toNat ≤ va.toNat ∧ va.toNat + len.toNat ≤ utop.toNat)) ∧
  ∃ d ∈ devices, d.1 ≤ pa.toNat ∧ pa.toNat + len.toNat ≤ d.1 + d.2

/-- An allowed call copies the bytes and returns 0, and any other one returns
`-E_INVAL` and copies nothing. -/
structure DevCall.Confined (call : DevCall) (mem : Memory) (va pa len : Word) : Prop where
  allowed : Allowed va pa len → (call.exec mem va pa len).2 = .ok 0 ∧
    Copied mem (call.exec mem va pa len).1 (call.dest va pa) (call.source va pa) len.toNat
  refused : ¬ Allowed va pa len → call.exec mem va pa len = (mem, .error .inval)

/-- The sum of `pa` and `len` wraps, to the end of the last device at most. -/
def WrapsBelow (va pa len : Word) : Prop :=
  ¬ isIllegalVaRange va len ∧ 2 ^ 32 ≤ pa.toNat + len.toNat ∧
    pa.toNat + len.toNat ≤ 2 ^ 32 + 0x15000200

theorem legal_range_iff : ¬ isIllegalVaRange va len ↔
    len = 0 ∨ (utemp.toNat ≤ va.toNat ∧ va.toNat + len.toNat ≤ utop.toNat) := by
  have zero : len = 0 ↔ len.toNat = 0 := by bv_omega
  have below := utop_toNat
  have above := utemp_toNat
  rw [isIllegalVaRange, ne_eq, zero]
  simp only [BitVec.lt_def, BitVec.toNat_add]
  omega

/-- The check accepts the ranges of the devices, and those that wrap. -/
theorem isDevRange_iff (legal : ¬ isIllegalVaRange va len) : IsDevRange pa len ↔
    (∃ d ∈ devices, d.1 ≤ pa.toNat ∧ pa.toNat + len.toNat ≤ d.1 + d.2) ∨
      (2 ^ 32 ≤ pa.toNat + len.toNat ∧ pa.toNat + len.toNat ≤ 2 ^ 32 + 0x15000200) := by
  have short : len.toNat ≤ 0x7f002000 := by
    have below := utop_toNat
    have above := utemp_toNat
    rcases legal_range_iff.mp legal with rfl | ⟨_, _⟩
    · exact Nat.zero_le _
    · omega
  have lt := pa.isLt
  simp only [IsDevRange, devices, List.mem_cons, List.not_mem_nil, or_false, exists_eq_or_imp,
    exists_eq_left, BitVec.le_def, BitVec.toNat_add, BitVec.toNat_ofNat]
  omega

theorem DevCall.exec_refused (call : DevCall)
    (h : isIllegalVaRange va len ∨ ¬ IsDevRange pa len) :
    call.exec mem va pa len = (mem, .error .inval) := by
  by_cases illegal : isIllegalVaRange va len
  · cases call <;> exact if_pos illegal
  · have device := h.resolve_left illegal
    cases call <;> exact (if_neg illegal).trans (if_pos device)

theorem DevCall.exec_accepted (call : DevCall) (legal : ¬ isIllegalVaRange va len)
    (device : IsDevRange pa len) :
    call.exec mem va pa len = (memcpy mem (call.dest va pa) (call.source va pa) len, .ok 0) := by
  cases call with
  | write => rw [DevCall.exec, sysWriteDev, if_neg legal, if_neg (not_not_intro device)]; rfl
  | read => rw [DevCall.exec, sysReadDev, if_neg legal, if_neg (not_not_intro device)]; rfl

/-- The user's pages and the devices are apart. -/
theorem DevCall.apart (call : DevCall) (allowed : Allowed va pa len) :
    Apart (call.dest va pa) (call.source va pa) len.toNat ∧
      (call.dest va pa).toNat + len.toNat < 2 ^ 32 := by
  obtain ⟨user, d, mem, above, below⟩ := allowed
  have hutop := utop_toNat
  have hutemp := utemp_toNat
  have device : 0x10000000 ≤ pa.toNat ∧ pa.toNat + len.toNat ≤ 0x15000200 := by
    simp only [devices, List.mem_cons, List.not_mem_nil, or_false] at mem
    rcases mem with rfl | rfl | rfl <;> simp only at above below <;> omega
  have uncached : (pa + kseg1).toNat = pa.toNat + 0xa0000000 := by
    rw [BitVec.toNat_add, kseg1]
    simp only [BitVec.toNat_ofNat]
    omega
  rcases user with rfl | user
  · exact ⟨fun a h => (Nat.not_lt_zero _ h).elim, (call.dest va pa).isLt⟩
  · cases call <;> simp only [DevCall.dest, DevCall.source, Apart]
    · refine ⟨fun a h => ?_, by omega⟩
      generalize a - (pa + kseg1) = d at h
      bv_omega
    · refine ⟨fun a h => ?_, by omega⟩
      generalize a - va = d at h
      bv_omega

/-- A range that wraps below is no device's and is not refused. -/
theorem DevCall.Confined.fits {call : DevCall} (confined : call.Confined mem va pa len) :
    ¬ WrapsBelow va pa len := by
  rintro ⟨legal, wraps, low⟩
  have outside : ¬ Allowed va pa len := by
    rintro ⟨-, d, mem, -, below⟩
    simp only [devices, List.mem_cons, List.not_mem_nil, or_false] at mem
    rcases mem with rfl | rfl | rfl <;> simp only at below <;> omega
  have refused := confined.refused outside
  rw [call.exec_accepted legal ((isDevRange_iff legal).mpr (.inr ⟨wraps, low⟩))] at refused
  cases congrArg Prod.snd refused

/-- Device access is confined to the devices exactly where `pa + len` does not wrap
to a sum that the check takes for one within a device. -/
theorem dev_confined_iff (call : DevCall) (mem : Memory) (va pa len : Word) :
    call.Confined mem va pa len ↔ ¬ WrapsBelow va pa len := by
  constructor
  · exact DevCall.Confined.fits
  · intro fits
    have checked : Allowed va pa len ↔ ¬ isIllegalVaRange va len ∧ IsDevRange pa len := by
      constructor
      · rintro ⟨user, device⟩
        have legal := legal_range_iff.mpr user
        exact ⟨legal, (isDevRange_iff legal).mpr (.inl device)⟩
      · rintro ⟨legal, device⟩
        rcases (isDevRange_iff legal).mp device with device | ⟨wraps, low⟩
        · exact ⟨legal_range_iff.mp legal, device⟩
        · exact (fits ⟨legal, wraps, low⟩).elim
    refine ⟨fun allowed => ?_, fun outside => call.exec_refused ?_⟩
    · obtain ⟨legal, device⟩ := checked.mp allowed
      obtain ⟨apart, below⟩ := call.apart allowed
      rw [call.exec_accepted legal device]
      exact ⟨rfl, memcpy_copied apart below⟩
    · by_contra passes
      rw [not_or, not_not] at passes
      exact outside (checked.mpr passes)

/-- A single byte at the end of the address space is taken for one of a device. -/
theorem dev_not_confined : ¬ ∀ (call : DevCall) (mem : Memory) (va pa len : Word),
    call.Confined mem va pa len := by
  intro always
  exact (always .write (fun _ => 0) 0x400000 0xffffffff 1).fits
    ⟨by decide, by decide, by decide⟩

end Mos.Dev
