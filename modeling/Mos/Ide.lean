import Mos.Syscall

/-!
# The disk driver of the file system server

`ide_read` and `ide_write` of `fs/ide.c` move whole sectors between the memory of the
server and the disk, through the registers and the buffer of the disk device, which they
reach with `syscall_read_dev` and `syscall_write_dev`. Memory, buffer and disk are arrays
of words here; the loops count bytes in 32 bits, as the source does.

Where the sectors are on the disk and the bytes do not wrap, `ide_read` shows the sectors
at the destination and `ide_write` leaves the words of the source in them, with nothing
else changed (`ideRead_spec`, `ideWrite_spec`), also where the loop is cut short
(`ideWrite_crash`).
-/

namespace Mos

/-- `BY2SECT` -/
def BY2SECT : Word := 512

/-- `DEV_DISK_OPERATION_READ` -/
def DEV_DISK_OPERATION_READ : Word := 0

/-- `DEV_DISK_OPERATION_WRITE` -/
def DEV_DISK_OPERATION_WRITE : Word := 1

/-! ## The device -/

/-- The disk device of the machine: its registers `DEV_DISK_ID`, `DEV_DISK_OFFSET` and
`DEV_DISK_STATUS`, its buffer of one sector, and the image behind it, of `size` bytes. -/
structure DiskDev where
  id : Word
  offset : Word
  status : Word
  buffer : Nat → Word
  image : Nat → Word
  size : Nat

namespace DiskDev

/-- The operation finds its disk and its sector. -/
def Ready (d : DiskDev) : Prop := d.id = 0 ∧ d.offset.toNat + 512 ≤ d.size

instance (d : DiskDev) : Decidable d.Ready := inferInstanceAs (Decidable (_ ∧ _))

/-- A store to `DEV_DISK_START_OPERATION`: a sector goes to the buffer or comes from it,
and the status tells whether it did. -/
def start (d : DiskDev) (op : Word) : DiskDev :=
  if ¬ d.Ready then { d with status := 0 }
  else if op = DEV_DISK_OPERATION_READ then
    { d with status := 1, buffer := fun i => d.image (d.offset.toNat / 4 + i) }
  else if op = DEV_DISK_OPERATION_WRITE then
    { d with
      status := 1
      image := fun a =>
        if d.offset.toNat / 4 ≤ a ∧ a < d.offset.toNat / 4 + 128 then
          d.buffer (a - d.offset.toNat / 4)
        else d.image a }
  else { d with status := 0 }

variable {d : DiskDev}

theorem start_read (ready : d.Ready) : d.start DEV_DISK_OPERATION_READ =
    { d with status := 1, buffer := fun i => d.image (d.offset.toNat / 4 + i) } := by
  rw [start, if_neg (not_not_intro ready), if_pos rfl]

theorem start_write (ready : d.Ready) : d.start DEV_DISK_OPERATION_WRITE =
    { d with
      status := 1
      image := fun a =>
        if d.offset.toNat / 4 ≤ a ∧ a < d.offset.toNat / 4 + 128 then
          d.buffer (a - d.offset.toNat / 4)
        else d.image a } := by
  rw [start, if_neg (not_not_intro ready), if_neg (by decide), if_pos rfl]

end DiskDev

/-- The server's memory, by words, and the disk. -/
structure Ide where
  mem : Nat → Word
  dev : DiskDev

namespace Ide

/-! ## The driver -/

/-- The body of the loop of `ide_read`; `none` is a panic. -/
def readSector (s : Ide) (diskno begin off dst : Word) : Option Ide :=
  let dev := { s.dev with id := diskno, offset := begin + off }.start DEV_DISK_OPERATION_READ
  if dev.status = 0 then none
  else if isIllegalVaRange (dst + off) BY2SECT then none
  else
    let base := (dst + off).toNat / 4
    some { dev, mem := fun a => if base ≤ a ∧ a < base + 128 then dev.buffer (a - base) else s.mem a }

/-- The body of the loop of `ide_write`. -/
def writeSector (s : Ide) (diskno begin off src : Word) : Option Ide :=
  if isIllegalVaRange (src + off) BY2SECT then none
  else
    let dev := { s.dev with
      id := diskno
      buffer := fun i => s.mem ((src + off).toNat / 4 + i) }
    let dev := { dev with offset := begin + off }.start DEV_DISK_OPERATION_WRITE
    if dev.status = 0 then none
    else some { s with dev }

/-- How often `for (off = 0; begin + off < end; off += BY2SECT)` goes round. -/
def turns (begin stop : Word) : Nat :=
  if begin < stop then (stop - begin).toNat / 512 else 0

def readLoop (diskno begin dst : Word) : Nat → Word → Ide → Option Ide
  | 0, _, s => some s
  | left + 1, off, s =>
      match s.readSector diskno begin off dst with
      | none => none
      | some s => readLoop diskno begin dst left (off + BY2SECT) s

def writeLoop (diskno begin src : Word) : Nat → Word → Ide → Option Ide
  | 0, _, s => some s
  | left + 1, off, s =>
      match s.writeSector diskno begin off src with
      | none => none
      | some s => writeLoop diskno begin src left (off + BY2SECT) s

/-- `ide_read` -/
def ideRead (s : Ide) (diskno secno dst nsecs : Word) : Option Ide :=
  let begin := secno * BY2SECT
  readLoop diskno begin dst (turns begin (begin + nsecs * BY2SECT)) 0 s

/-- `ide_write` -/
def ideWrite (s : Ide) (diskno secno src nsecs : Word) : Option Ide :=
  let begin := secno * BY2SECT
  writeLoop diskno begin src (turns begin (begin + nsecs * BY2SECT)) 0 s

/-! ## One sector -/

variable {s s' : Ide} {begin off dst src secno nsecs : Word} {bytes left k : Nat}

/-- Where the transfer may go: the words of memory are the user's, and the sectors are on
the disk. -/
structure Fits (s : Ide) (begin addr : Word) (bytes : Nat) : Prop where
  aligned : addr.toNat % 4 = 0
  sector : begin.toNat % 512 = 0
  low : 0x3fe000 ≤ addr.toNat
  high : addr.toNat + bytes ≤ 0x7f400000
  onDisk : begin.toNat + bytes ≤ s.dev.size
  noWrap : begin.toNat + bytes < 2 ^ 32

/-- The words from `base` on are those of `words`, the others those of `before`. -/
def Blit (before after words : Nat → Word) (base count : Nat) : Prop :=
  ∀ a, after a = if base ≤ a ∧ a < base + count then words (a - base) else before a

theorem Blit.zero (before words : Nat → Word) (base : Nat) : Blit before before words base 0 := by
  intro a
  rw [if_neg (by omega)]

/-- Two transfers one after the other are one. -/
theorem Blit.append {before middle after words : Nat → Word} {base count more : Nat}
    (first : Blit before middle words base count)
    (second : Blit middle after (fun i => words (count + i)) (base + count) more) :
    Blit before after words base (count + more) := by
  intro a
  rw [second a]
  by_cases late : base + count ≤ a ∧ a < base + count + more
  · have index : count + (a - (base + count)) = a - base := by omega
    simp only [if_pos late, index]
    rw [if_pos (by omega)]
  · rw [if_neg late, first a]
    by_cases early : base ≤ a ∧ a < base + count
    · rw [if_pos early, if_pos (by omega)]
    · rw [if_neg early, if_neg (by omega)]

/-- The sources may be exchanged for ones that agree where they are read. -/
theorem Blit.congr {before after words words' : Nat → Word} {base count : Nat}
    (blit : Blit before after words base count) (same : ∀ i < count, words i = words' i) :
    Blit before after words' base count := by
  intro a
  rw [blit a]
  split
  · next inside => exact same _ (by omega)
  · rfl

theorem toNat_add_off (noWrap : begin.toNat + off.toNat < 2 ^ 32) :
    (begin + off).toNat = begin.toNat + off.toNat := by
  rw [BitVec.toNat_add, Nat.mod_eq_of_lt noWrap]

theorem toNat_next (noWrap : off.toNat + 512 < 2 ^ 32) :
    (off + BY2SECT).toNat = off.toNat + 512 := by
  have size : BY2SECT.toNat = 512 := rfl
  rw [← size] at noWrap ⊢
  exact toNat_add_off noWrap

theorem legal_sector {addr : Word} (low : 0x3fe000 ≤ addr.toNat)
    (high : addr.toNat + 512 ≤ 0x7f400000) : ¬ isIllegalVaRange addr BY2SECT := by
  have sum : (addr + BY2SECT).toNat = addr.toNat + 512 := toNat_next (by omega)
  simp only [isIllegalVaRange, BitVec.lt_def, sum, utemp_toNat, utop_toNat]
  omega

/-- One turn of `ide_read`. -/
theorem readSector_spec (fits : s.Fits begin dst bytes) (turn : off.toNat % 512 = 0)
    (room : off.toNat + 512 ≤ bytes) :
    ∃ s', s.readSector 0 begin off dst = some s' ∧ s'.dev.image = s.dev.image ∧
      s'.dev.size = s.dev.size ∧
      Blit s.mem s'.mem (fun i => s.dev.image (begin.toNat / 4 + (off.toNat / 4 + i)))
        (dst.toNat / 4 + off.toNat / 4) 128 := by
  obtain ⟨aligned, sector, low, high, onDisk, noWrap⟩ := fits
  have diskOff : (begin + off).toNat = begin.toNat + off.toNat := toNat_add_off (by omega)
  have memOff : (dst + off).toNat = dst.toNat + off.toNat := toNat_add_off (by omega)
  have ready : DiskDev.Ready { s.dev with id := 0, offset := begin + off } := by
    refine ⟨rfl, ?_⟩
    show (begin + off).toNat + 512 ≤ s.dev.size
    omega
  have legal : ¬ isIllegalVaRange (dst + off) BY2SECT := legal_sector (by omega) (by omega)
  have one : ¬ (1 : Word) = 0 := by decide
  have base : (dst + off).toNat / 4 = dst.toNat / 4 + off.toNat / 4 := by omega
  have place : (begin + off).toNat / 4 = begin.toNat / 4 + off.toNat / 4 := by omega
  unfold readSector
  simp only [DiskDev.start_read ready, if_neg one, if_neg legal]
  refine ⟨_, rfl, rfl, rfl, fun a => ?_⟩
  simp only [base, place, Nat.add_assoc]

/-- One turn of `ide_write`. -/
theorem writeSector_spec (fits : s.Fits begin src bytes) (turn : off.toNat % 512 = 0)
    (room : off.toNat + 512 ≤ bytes) :
    ∃ s', s.writeSector 0 begin off src = some s' ∧ s'.mem = s.mem ∧
      s'.dev.size = s.dev.size ∧
      Blit s.dev.image s'.dev.image (fun i => s.mem (src.toNat / 4 + (off.toNat / 4 + i)))
        (begin.toNat / 4 + off.toNat / 4) 128 := by
  obtain ⟨aligned, sector, low, high, onDisk, noWrap⟩ := fits
  have diskOff : (begin + off).toNat = begin.toNat + off.toNat := toNat_add_off (by omega)
  have memOff : (src + off).toNat = src.toNat + off.toNat := toNat_add_off (by omega)
  have legal : ¬ isIllegalVaRange (src + off) BY2SECT := legal_sector (by omega) (by omega)
  have ready : DiskDev.Ready { s.dev with
      id := 0
      buffer := fun i => s.mem ((src + off).toNat / 4 + i)
      offset := begin + off } := by
    refine ⟨rfl, ?_⟩
    show (begin + off).toNat + 512 ≤ s.dev.size
    omega
  have one : ¬ (1 : Word) = 0 := by decide
  have base : (src + off).toNat / 4 = src.toNat / 4 + off.toNat / 4 := by omega
  have place : (begin + off).toNat / 4 = begin.toNat / 4 + off.toNat / 4 := by omega
  unfold writeSector
  simp only [DiskDev.start_write ready, if_neg one, if_neg legal]
  refine ⟨_, rfl, rfl, rfl, fun a => ?_⟩
  simp only [base, place, Nat.add_assoc]

/-! ## The loops -/

theorem Fits.of_size (fits : s.Fits begin dst bytes) (size : s'.dev.size = s.dev.size) :
    s'.Fits begin dst bytes :=
  ⟨fits.aligned, fits.sector, fits.low, fits.high, size ▸ fits.onDisk, fits.noWrap⟩

/-- Where the next turn goes. -/
theorem next_turn (turn : off.toNat % 512 = 0) (noWrap : off.toNat + 512 < 2 ^ 32) :
    (off + BY2SECT).toNat % 512 = 0 ∧ (off + BY2SECT).toNat / 4 = off.toNat / 4 + 128 := by
  rw [toNat_next noWrap]
  omega

theorem readLoop_spec (left : Nat) : ∀ (off : Word) (s : Ide), s.Fits begin dst bytes →
    off.toNat % 512 = 0 → off.toNat + 512 * left ≤ bytes →
    ∃ s', readLoop 0 begin dst left off s = some s' ∧ s'.dev.image = s.dev.image ∧
      s'.dev.size = s.dev.size ∧
      Blit s.mem s'.mem (fun i => s.dev.image (begin.toNat / 4 + (off.toNat / 4 + i)))
        (dst.toNat / 4 + off.toNat / 4) (128 * left) := by
  induction left with
  | zero => exact fun off s _ _ _ => ⟨s, rfl, rfl, rfl, Blit.zero _ _ _⟩
  | succ left ih =>
      intro off s fits turn room
      have noWrap := fits.noWrap
      rw [Nat.mul_succ, ← Nat.add_assoc] at room
      obtain ⟨s₁, step, image₁, size₁, blit₁⟩ := readSector_spec fits turn (by omega)
      obtain ⟨turn', place⟩ := next_turn turn (by omega)
      have later : (off + BY2SECT).toNat = off.toNat + 512 := toNat_next (by omega)
      obtain ⟨s₂, rest, image₂, size₂, blit₂⟩ := ih (off + BY2SECT) s₁ (fits.of_size size₁) turn'
        (by omega)
      refine ⟨s₂, by rw [readLoop, step]; exact rest, image₂.trans image₁, size₂.trans size₁, ?_⟩
      have count : 128 * (left + 1) = 128 + 128 * left := by omega
      rw [place, image₁, ← Nat.add_assoc] at blit₂
      rw [count]
      apply blit₁.append
      apply blit₂.congr
      intro i _
      rw [Nat.add_assoc (off.toNat / 4)]

theorem writeLoop_spec (left : Nat) : ∀ (off : Word) (s : Ide), s.Fits begin src bytes →
    off.toNat % 512 = 0 → off.toNat + 512 * left ≤ bytes →
    ∃ s', writeLoop 0 begin src left off s = some s' ∧ s'.mem = s.mem ∧
      s'.dev.size = s.dev.size ∧
      Blit s.dev.image s'.dev.image (fun i => s.mem (src.toNat / 4 + (off.toNat / 4 + i)))
        (begin.toNat / 4 + off.toNat / 4) (128 * left) := by
  induction left with
  | zero => exact fun off s _ _ _ => ⟨s, rfl, rfl, rfl, Blit.zero _ _ _⟩
  | succ left ih =>
      intro off s fits turn room
      have noWrap := fits.noWrap
      rw [Nat.mul_succ, ← Nat.add_assoc] at room
      obtain ⟨s₁, step, mem₁, size₁, blit₁⟩ := writeSector_spec fits turn (by omega)
      obtain ⟨turn', place⟩ := next_turn turn (by omega)
      have later : (off + BY2SECT).toNat = off.toNat + 512 := toNat_next (by omega)
      obtain ⟨s₂, rest, mem₂, size₂, blit₂⟩ := ih (off + BY2SECT) s₁ (fits.of_size size₁) turn'
        (by omega)
      refine ⟨s₂, by rw [writeLoop, step]; exact rest, mem₂.trans mem₁, size₂.trans size₁, ?_⟩
      have count : 128 * (left + 1) = 128 + 128 * left := by omega
      rw [place, mem₁, ← Nat.add_assoc] at blit₂
      rw [count]
      apply blit₁.append
      apply blit₂.congr
      intro i _
      rw [Nat.add_assoc (off.toNat / 4)]

/-! ## Whole transfers -/

theorem sector_start (secno : Word) : (secno * BY2SECT).toNat % 512 = 0 := by
  have size : BY2SECT.toNat = 512 := rfl
  rw [BitVec.toNat_mul, size]
  omega

/-- A loop over `n` sectors goes round `n` times. -/
theorem turns_eq (noWrap : begin.toNat + 512 * nsecs.toNat < 2 ^ 32) :
    turns begin (begin + nsecs * BY2SECT) = nsecs.toNat := by
  have size : BY2SECT.toNat = 512 := rfl
  have bytes : (nsecs * BY2SECT).toNat = 512 * nsecs.toNat := by
    rw [BitVec.toNat_mul, size, Nat.mul_comm, Nat.mod_eq_of_lt (by omega)]
  have stop : (begin + nsecs * BY2SECT).toNat = begin.toNat + 512 * nsecs.toNat := by
    rw [← bytes] at noWrap ⊢
    exact toNat_add_off noWrap
  unfold turns
  split
  case isTrue below =>
    rw [BitVec.lt_def, stop] at below
    have length : (begin + nsecs * BY2SECT - begin).toNat = 512 * nsecs.toNat := by
      rw [BitVec.add_comm, BitVec.add_sub_cancel, bytes]
    rw [length]
    omega
  case isFalse empty =>
    rw [BitVec.lt_def, stop] at empty
    omega

/-- What `ide_read` does: the words of the sectors are at `dst`. -/
theorem ideRead_spec (fits : s.Fits (secno * BY2SECT) dst (512 * nsecs.toNat)) :
    ∃ s', s.ideRead 0 secno dst nsecs = some s' ∧ s'.dev.image = s.dev.image ∧
      s'.dev.size = s.dev.size ∧
      Blit s.mem s'.mem (fun i => s.dev.image ((secno * BY2SECT).toNat / 4 + i)) (dst.toNat / 4)
        (128 * nsecs.toNat) := by
  obtain ⟨s', run, image, size, blit⟩ := readLoop_spec nsecs.toNat 0 s fits rfl (by simp)
  refine ⟨s', ?_, image, size, ?_⟩
  · rw [ideRead, turns_eq fits.noWrap]
    exact run
  · simpa using blit

/-- What `ide_write` does: the words at `src` are in the sectors. -/
theorem ideWrite_spec (fits : s.Fits (secno * BY2SECT) src (512 * nsecs.toNat)) :
    ∃ s', s.ideWrite 0 secno src nsecs = some s' ∧ s'.mem = s.mem ∧
      s'.dev.size = s.dev.size ∧
      Blit s.dev.image s'.dev.image (fun i => s.mem (src.toNat / 4 + i))
        ((secno * BY2SECT).toNat / 4) (128 * nsecs.toNat) := by
  obtain ⟨s', run, mem, size, blit⟩ := writeLoop_spec nsecs.toNat 0 s fits rfl (by simp)
  refine ⟨s', ?_, mem, size, ?_⟩
  · rw [ideWrite, turns_eq fits.noWrap]
    exact run
  · simpa using blit

/-- Sectors that are written to the disk and read again are what they were, wherever they
are read to; no other word of memory or of the disk changes. A machine that stops on the
way, after `k` sectors, has the first `k` sectors of the new words on the disk and the
old words behind them. -/
theorem ide_round_trip (fits : s.Fits (secno * BY2SECT) src (512 * nsecs.toNat))
    (fits' : s.Fits (secno * BY2SECT) dst (512 * nsecs.toNat)) :
    (∃ s₁ s₂, s.ideWrite 0 secno src nsecs = some s₁ ∧ s₁.ideRead 0 secno dst nsecs = some s₂ ∧
      Blit s.mem s₂.mem (fun i => s.mem (src.toNat / 4 + i)) (dst.toNat / 4) (128 * nsecs.toNat) ∧
      Blit s.dev.image s₂.dev.image (fun i => s.mem (src.toNat / 4 + i))
        ((secno * BY2SECT).toNat / 4) (128 * nsecs.toNat)) ∧
    ∀ k ≤ nsecs.toNat, ∃ s', writeLoop 0 (secno * BY2SECT) src k 0 s = some s' ∧
      Blit s.dev.image s'.dev.image (fun i => s.mem (src.toNat / 4 + i))
        ((secno * BY2SECT).toNat / 4) (128 * k) := by
  constructor
  · obtain ⟨s₁, written, mem₁, size₁, blit₁⟩ := ideWrite_spec fits
    obtain ⟨s₂, read, image₂, -, blit₂⟩ := ideRead_spec (fits'.of_size size₁)
    refine ⟨s₁, s₂, written, read, ?_, image₂ ▸ blit₁⟩
    rw [mem₁] at blit₂
    apply blit₂.congr
    intro i inside
    rw [blit₁, if_pos (by omega), Nat.add_sub_cancel_left]
  · intro k le
    have room : (0#32).toNat + 512 * k ≤ 512 * nsecs.toNat := by
      rw [BitVec.toNat_zero, Nat.zero_add]
      exact Nat.mul_le_mul_left 512 le
    obtain ⟨s', run, -, -, blit⟩ := writeLoop_spec k 0 s fits rfl room
    refine ⟨s', run, ?_⟩
    simpa using blit

/-- Block 1 of the disk, from `0x10001000` to `0x10002000`. -/
theorem ide_round_trip_block : ∃ s₁ s₂ : Ide,
    (⟨fun a => .ofNat 32 a, ⟨0, 0, 0, fun _ => 0, fun _ => 0, 0x400000⟩⟩ : Ide).ideWrite 0 8
      0x10001000 8 = some s₁ ∧ s₁.ideRead 0 8 0x10002000 8 = some s₂ ∧
    s₂.mem 0x4000801 = 0x4000401 := by
  have fits : ∀ addr : Word, addr = 0x10001000 ∨ addr = 0x10002000 →
      Fits ⟨fun a => .ofNat 32 a, ⟨0, 0, 0, fun _ => 0, fun _ => 0, 0x400000⟩⟩ (8 * BY2SECT) addr
        (512 * (8 : Word).toNat) := by
    intro addr which
    obtain rfl | rfl := which <;>
      exact ⟨by decide, by decide, by decide, by decide, by decide, by decide⟩
  obtain ⟨⟨s₁, s₂, written, read, copied, -⟩, -⟩ :=
    ide_round_trip (fits _ (.inl rfl)) (fits _ (.inr rfl))
  refine ⟨s₁, s₂, written, read, ?_⟩
  rw [copied, if_pos (by decide)]
  decide

end Ide

end Mos
