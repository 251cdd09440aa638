import Mos.FsFile
import Mos.Ide

/-!
# The block cache of the file system server

The server maps block `b` of the disk at `diskaddr(b)` of its own address space; what
is mapped there is the cache. `BlockCache` has the memory of the server and the disk
behind its driver, and the functions of `fs/fs.c` that load blocks, allocate them and
write them back, on those.

* `blockCache_refines`: file operations need not know about any of this. What they see
  is `Fs`, one array of words for every block, whatever is in the cache and whatever has
  been written back.
* `sync_durable`: what is on the disk after `fs_sync`.
-/

namespace Mos

/-- `DISKMAP` -/
def DISKMAP : Nat := 0x10000000

/-- `diskaddr` -/
def diskaddr (blockno : Nat) : Word := .ofNat 32 (DISKMAP + blockno * 4096)

/-- `SECT2BLK` -/
def SECT2BLK : Nat := 8

/-- The first word of the page of block `blockno`. -/
def blockBase (blockno : Nat) : Nat := (diskaddr blockno).toNat / 4

/-- The server's memory and the disk, what is mapped at the addresses of the blocks, and
which of those pages have `PTE_DIRTY`. `answers` are the results of the calls of
`syscall_mem_alloc` to come, as in `Fs`. -/
structure BlockCache where
  ide : Ide
  nblocks : Nat
  mapped : Nat → Bool
  dirty : Nat → Bool
  answers : List (Except Err Unit)

namespace BlockCache

open Fs (nbitmap)

/-! ## The functions -/

/-- The words at `bitmap`, which is `diskaddr(2)`. -/
def bitmap (c : BlockCache) (i : Nat) : Word := c.ide.mem (blockBase 2 + i)

def setWord (c : BlockCache) (a : Nat) (w : Word) : BlockCache :=
  { c with ide := { c.ide with mem := Function.update c.ide.mem a w } }

def zeroPage (mem : Nat → Word) (base a : Nat) : Word :=
  if base ≤ a ∧ a < base + 1024 then 0 else mem a

/-- A new page at the address of a block: it is filled with zeros. -/
def newPage (c : BlockCache) (blockno : Nat) : BlockCache :=
  { c with
    mapped := Function.update c.mapped blockno true
    dirty := Function.update c.dirty blockno false
    ide := { c.ide with mem := zeroPage c.ide.mem (blockBase blockno) } }

def blockIsDirty (c : BlockCache) (blockno : Nat) : Bool := c.mapped blockno && c.dirty blockno

def blockIsFree (c : BlockCache) (blockno : Nat) : Bool :=
  if c.nblocks ≤ blockno then false else PackedBits.test c.bitmap blockno

/-- `dirty_block`; a page that is mapped can be mapped again. -/
def dirtyBlock (c : BlockCache) (blockno : Nat) : Except FsErr Unit × BlockCache :=
  if ¬ c.mapped blockno then (.error .notFound, c)
  else if c.dirty blockno then (.ok (), c)
  else (.ok (), { c with dirty := Function.update c.dirty blockno true })

def writeBlock (c : BlockCache) (blockno : Nat) : Except FsErr Unit × BlockCache :=
  if ¬ c.mapped blockno then (.error .panic, c)
  else match c.ide.ideWrite 0 (.ofNat 32 (blockno * SECT2BLK)) (diskaddr blockno)
      (.ofNat 32 SECT2BLK) with
    | none => (.error .panic, c)
    | some ide => (.ok (), { c with ide })

/-- `read_block`; there is memory for the page, for the server stops without. -/
def readBlock (c : BlockCache) (blockno : Nat) : Except FsErr Unit × BlockCache :=
  if c.nblocks ≤ blockno then (.error .panic, c)
  else if c.blockIsFree blockno then (.error .panic, c)
  else if c.mapped blockno then (.ok (), c)
  else
    let c := c.newPage blockno
    match c.ide.ideRead 0 (.ofNat 32 (blockno * SECT2BLK)) (diskaddr blockno)
        (.ofNat 32 SECT2BLK) with
    | none => (.error .panic, c)
    | some ide => (.ok (), { c with ide })

def mapBlock (c : BlockCache) (blockno : Nat) : Except FsErr Unit × BlockCache :=
  if c.mapped blockno then (.ok (), c)
  else match c.answers with
    | .error e :: rest => (.error (.sys e), { c with answers := rest })
    | answers => (.ok (), { c.newPage blockno with answers := answers.tail })

def freeBlock (c : BlockCache) (blockno : Nat) : BlockCache :=
  if blockno = 0 ∨ c.nblocks ≤ blockno then c
  else c.setWord (blockBase 2 + blockno / 32)
    (c.bitmap (blockno / 32) ||| (1#32 <<< (blockno % 32)))

/-- The loop of `alloc_block_num` from `blockno` on, with the blocks left to look at. -/
def allocBlockNumFrom (c : BlockCache) : Nat → Nat → Except FsErr Nat × BlockCache
  | _, 0 => (.error .noDisk, c)
  | blockno, left + 1 =>
      if PackedBits.test c.bitmap blockno then
        match (c.setWord (blockBase 2 + blockno / 32)
            (c.bitmap (blockno / 32) &&& ~~~(1#32 <<< (blockno % 32)))).writeBlock
              (blockno / BIT2BLK + 2) with
        | (.error e, c) => (.error e, c)
        | (.ok (), c) => (.ok blockno, c)
      else c.allocBlockNumFrom (blockno + 1) left

def allocBlockNum (c : BlockCache) : Except FsErr Nat × BlockCache :=
  c.allocBlockNumFrom 3 (c.nblocks - 3)

def allocBlock (c : BlockCache) : Except FsErr Nat × BlockCache :=
  match c.allocBlockNum with
  | (.error e, c) => (.error e, c)
  | (.ok bno, c) =>
      match c.mapBlock bno with
      | (.error e, c) => (.error e, c.freeBlock bno)
      | (.ok (), c) => (.ok bno, c)

/-- One turn of the loops of `file_flush` and `fs_sync`. -/
def flushBlock (c : BlockCache) (blockno : Nat) : Except FsErr Unit × BlockCache :=
  if c.blockIsDirty blockno then c.writeBlock blockno else (.ok (), c)

/-- The loop of `fs_sync` over the blocks below `n`; a panic ends it. -/
def syncBelow (c : BlockCache) : Nat → Except FsErr Unit × BlockCache
  | 0 => (.ok (), c)
  | n + 1 =>
      match c.syncBelow n with
      | (.error e, c) => (.error e, c)
      | (.ok (), c) => c.flushBlock n

def fsSync (c : BlockCache) : Except FsErr Unit × BlockCache := c.syncBelow c.nblocks

/-! ## Pages and blocks -/

variable {c c' : BlockCache} {s s' : Fs} {b b' n i j : Nat} {w : Word}

/-- The words of the cache page of a block. -/
def cached (c : BlockCache) (b i : Nat) : Word := c.ide.mem (blockBase b + i)

/-- The words of a block on the disk. -/
def onDisk (c : BlockCache) (b i : Nat) : Word := c.ide.dev.image (b * 1024 + i)

/-- What `read_block` shows of a block. -/
def view (c : BlockCache) (b i : Nat) : Word := if c.mapped b then c.cached b i else c.onDisk b i

/-- The blocks of the bitmap. -/
def IsBitmap (c : BlockCache) (b : Nat) : Prop := 2 ≤ b ∧ b < 2 + nbitmap c.nblocks

/-- A disk that is as large as its super-block says, with its bitmap in the cache and no
page of it marked dirty; only blocks of the disk are in the cache. -/
structure Good (c : BlockCache) : Prop where
  size : c.nblocks * 4096 ≤ c.ide.dev.size
  most : c.nblocks ≤ DISKMAX_BLOCKS
  room : 2 + nbitmap c.nblocks ≤ c.nblocks
  bitmapMapped : ∀ b, c.IsBitmap b → c.mapped b = true ∧ c.dirty b = false
  inside : ∀ b, c.mapped b = true → b < c.nblocks

theorem blockBase_eq (small : b < 2 ^ 18) : blockBase b = 0x4000000 + b * 1024 := by
  have place : (diskaddr b).toNat = 0x10000000 + b * 4096 := by
    unfold diskaddr DISKMAP
    rw [BitVec.toNat_ofNat, Nat.mod_eq_of_lt (by omega)]
  rw [blockBase, place]
  omega

theorem Good.small (good : c.Good) (inside : b < c.nblocks) : b < 2 ^ 18 :=
  Nat.lt_of_lt_of_le inside (Nat.le_trans good.most (by decide))

/-- A word of one page is no word of another. -/
theorem blockBase_apart (small : b < 2 ^ 18) (small' : b' < 2 ^ 18) (other : b ≠ b')
    (lt : i < 1024) : ¬ (blockBase b' ≤ blockBase b + i ∧ blockBase b + i < blockBase b' + 1024) := by
  rw [blockBase_eq small, blockBase_eq small']
  omega

theorem sector_byte (small : b < 2 ^ 18) :
    (BitVec.ofNat 32 (b * SECT2BLK) * BY2SECT).toNat = b * 4096 := by
  have size : BY2SECT.toNat = 512 := rfl
  unfold SECT2BLK
  rw [BitVec.toNat_mul, BitVec.toNat_ofNat, size, Nat.mod_eq_of_lt (by omega : b * 8 < 2 ^ 32),
    Nat.mul_assoc, Nat.mod_eq_of_lt (by omega)]

/-- The transfer of a block fits. -/
theorem fits_of_room (ide : Ide) (small : b < 2 ^ 18) (room : (b + 1) * 4096 ≤ ide.dev.size) :
    ide.Fits (.ofNat 32 (b * SECT2BLK) * BY2SECT) (diskaddr b)
      (512 * (BitVec.ofNat 32 SECT2BLK).toNat) := by
  have eight : 512 * (BitVec.ofNat 32 SECT2BLK).toNat = 4096 := by decide
  have sect := sector_byte small
  have place : (diskaddr b).toNat = 0x10000000 + b * 4096 := by
    unfold diskaddr DISKMAP
    rw [BitVec.toNat_ofNat, Nat.mod_eq_of_lt (by omega)]
  refine ⟨?_, ?_, ?_, ?_, ?_, ?_⟩
  · rw [place]; omega
  · rw [sect]; omega
  · rw [place]; omega
  · rw [place, eight]; omega
  · rw [sect, eight]; omega
  · rw [sect, eight]; omega

theorem Good.fits (good : c.Good) (inside : b < c.nblocks) {ide : Ide}
    (size : ide.dev.size = c.ide.dev.size) :
    ide.Fits (.ofNat 32 (b * SECT2BLK) * BY2SECT) (diskaddr b)
      (512 * (BitVec.ofNat 32 SECT2BLK).toNat) := by
  apply fits_of_room ide (good.small inside)
  rw [size]
  exact Nat.le_trans (Nat.mul_le_mul_right 4096 inside) good.size

theorem sector_word (small : b < 2 ^ 18) :
    (BitVec.ofNat 32 (b * SECT2BLK) * BY2SECT).toNat / 4 = b * 1024 := by
  rw [sector_byte small]
  omega

/-- `write_block` puts the page on the disk, and does nothing else. -/
theorem writeBlock_spec (good : c.Good) (inside : b < c.nblocks) (here : c.mapped b = true) :
    ∃ ide, c.writeBlock b = (.ok (), { c with ide }) ∧ ide.mem = c.ide.mem ∧
      ide.dev.size = c.ide.dev.size ∧
      ∀ b' i, i < 1024 → ide.dev.image (b' * 1024 + i) =
        if b' = b then c.cached b i else c.onDisk b' i := by
  obtain ⟨ide, run, mem, size, blit⟩ := Ide.ideWrite_spec (good.fits inside rfl)
  refine ⟨ide, ?_, mem, size, fun b' i lt => ?_⟩
  · rw [writeBlock, if_neg (not_not_intro here), run]
  · have count : 128 * (BitVec.ofNat 32 SECT2BLK).toNat = 1024 := by decide
    rw [blit, sector_word (good.small inside), count]
    by_cases same : b' = b
    · rw [if_pos (by omega), if_pos same, same, Nat.add_sub_cancel_left]
      rfl
    · rw [if_neg (by omega), if_neg same]
      rfl

/-- `read_block` of a block that is in use. -/
theorem readBlock_spec (good : c.Good) (inside : b < c.nblocks) (used : c.blockIsFree b = false)
    (away : c.mapped b = false) :
    ∃ ide, c.readBlock b = (.ok (), { c.newPage b with ide }) ∧ ide.dev.image = c.ide.dev.image ∧
      ide.dev.size = c.ide.dev.size ∧ (∀ i < 1024, ide.mem (blockBase b + i) = c.onDisk b i) ∧
      ∀ a, ¬ (blockBase b ≤ a ∧ a < blockBase b + 1024) → ide.mem a = c.ide.mem a := by
  have size : (c.newPage b).ide.dev.size = c.ide.dev.size := rfl
  have fits := good.fits inside size
  obtain ⟨ide, run, image, size, blit⟩ := Ide.ideRead_spec fits
  have count : 128 * (BitVec.ofNat 32 SECT2BLK).toNat = 1024 := by decide
  rw [sector_word (good.small inside), count] at blit
  refine ⟨ide, ?_, image, size, fun i lt => ?_, fun a outside => ?_⟩
  · rw [readBlock, if_neg (Nat.not_le.mpr inside), if_neg (by simp [used]), if_neg (by simp [away])]
    simp only [run]
  · rw [blit]
    unfold blockBase
    rw [if_pos (by omega), Nat.add_sub_cancel_left]
    rfl
  · rw [blit]
    unfold blockBase at outside
    exact (if_neg outside).trans (if_neg outside)

/-! ## What file operations see -/

/-- The words of the bitmap on the disk. -/
def diskBitmap (c : BlockCache) (i : Nat) : Word := c.ide.dev.image (2 * 1024 + i)

/-- `s` is what file operations see of `c`. -/
structure Refines (c : BlockCache) (s : Fs) : Prop where
  nblocks : s.nblocks = c.nblocks
  mapped : s.mapped = c.mapped
  answers : s.answers = c.answers
  bitmap : ∀ j < 1024 * nbitmap c.nblocks, s.bitmap j = c.bitmap j
  diskBitmap : ∀ j < 1024 * nbitmap c.nblocks, s.diskBitmap j = c.diskBitmap j
  blk : ∀ b < c.nblocks, ¬ c.IsBitmap b → ∀ i < 1024, s.blk b i = c.view b i

/-- A word of the bitmap lies in the page of a block of it. -/
theorem bitmap_word (good : c.Good) (lt : j < 1024 * nbitmap c.nblocks) :
    c.IsBitmap (2 + j / 1024) ∧ blockBase 2 + j = blockBase (2 + j / 1024) + j % 1024 ∧
      2 * 1024 + j = (2 + j / 1024) * 1024 + j % 1024 := by
  have room := good.room
  have index : 2 + j / 1024 < 2 + nbitmap c.nblocks := by omega
  have small := good.small (Nat.lt_of_lt_of_le index room)
  rw [blockBase_eq (by decide), blockBase_eq small]
  refine ⟨⟨by omega, index⟩, ?_, ?_⟩ <;> omega

/-- The word that has the bit of a block. -/
theorem bitmap_index (inside : b < c.nblocks) : b / 32 < 1024 * nbitmap c.nblocks := by
  unfold nbitmap BIT2BLK
  omega

theorem Refines.test (ref : c.Refines s) (inside : b < c.nblocks) :
    PackedBits.test s.bitmap b = PackedBits.test c.bitmap b := by
  unfold PackedBits.test
  rw [ref.bitmap _ (bitmap_index inside)]

theorem Refines.blockIsFree (ref : c.Refines s) : s.blockIsFree b = c.blockIsFree b := by
  unfold Fs.blockIsFree BlockCache.blockIsFree Fs.bit
  rw [ref.nblocks]
  split
  · rfl
  · next inside => exact ref.test (Nat.not_le.mp inside)

/-- A change of one page that is not of the bitmap, which is in the cache after it. -/
structure PageStep (c c' : BlockCache) (b : Nat) : Prop where
  nblocks : c'.nblocks = c.nblocks
  size : c'.ide.dev.size = c.ide.dev.size
  image : c'.ide.dev.image = c.ide.dev.image
  mapped : c'.mapped = Function.update c.mapped b true
  dirty : ∀ b', b' ≠ b → c'.dirty b' = c.dirty b'
  outside : ∀ a, ¬ (blockBase b ≤ a ∧ a < blockBase b + 1024) → c'.ide.mem a = c.ide.mem a

/-- The words of other pages are as they were. -/
theorem PageStep.cached (step : c.PageStep c' b) (small : b < 2 ^ 18) (small' : b' < 2 ^ 18)
    (other : b' ≠ b) (lt : i < 1024) : c'.cached b' i = c.cached b' i :=
  step.outside _ (blockBase_apart small' small other lt)

theorem PageStep.good (step : c.PageStep c' b) (good : c.Good) (inside : b < c.nblocks)
    (plain : ¬ c.IsBitmap b) : c'.Good := by
  refine ⟨?_, ?_, ?_, fun b' isBitmap => ?_, fun b' here => ?_⟩
  · rw [step.nblocks, step.size]
    exact good.size
  · rw [step.nblocks]
    exact good.most
  · rw [step.nblocks]
    exact good.room
  · unfold IsBitmap at isBitmap
    rw [step.nblocks] at isBitmap
    have other : b' ≠ b := fun same => plain (same ▸ isBitmap)
    rw [step.mapped, Function.update_of_ne other, step.dirty b' other]
    exact good.bitmapMapped b' isBitmap
  · rw [step.nblocks]
    by_cases same : b' = b
    · exact same ▸ inside
    · rw [step.mapped, Function.update_of_ne same] at here
      exact good.inside b' here

/-- File operations see the change of that page only. -/
theorem PageStep.refines (step : c.PageStep c' b) (good : c.Good) (inside : b < c.nblocks)
    (plain : ¬ c.IsBitmap b) (ref : c.Refines s) {blk : Nat → Nat → Word}
    (answers : s'.answers = c'.answers) (after : s' = { s with
      mapped := Function.update s.mapped b true, blk, answers := s'.answers })
    (page : ∀ i < 1024, blk b i = c'.cached b i)
    (pages : ∀ b' < c.nblocks, b' ≠ b → ∀ i < 1024, blk b' i = s.blk b' i) :
    c'.Refines s' := by
  have small := good.small inside
  have bits : ∀ j < 1024 * nbitmap c.nblocks, c'.bitmap j = c.bitmap j := by
    intro j lt
    obtain ⟨isBitmap, place, -⟩ := bitmap_word good lt
    have other : 2 + j / 1024 ≠ b := fun same => plain (same ▸ isBitmap)
    have small' := good.small (Nat.lt_of_lt_of_le isBitmap.2 good.room)
    unfold BlockCache.bitmap
    rw [place]
    exact step.cached small small' other (Nat.mod_lt _ (by decide))
  refine ⟨?_, ?_, answers, fun j lt => ?_, fun j lt => ?_, fun b' inside' plain' i lt => ?_⟩
  · rw [after, step.nblocks]
    exact ref.nblocks
  · rw [after, step.mapped, ← ref.mapped]
  · rw [step.nblocks] at lt
    rw [after, bits j lt]
    exact ref.bitmap j lt
  · rw [step.nblocks] at lt
    rw [after]
    unfold BlockCache.diskBitmap
    rw [step.image]
    exact ref.diskBitmap j lt
  · unfold IsBitmap at plain'
    rw [step.nblocks] at inside' plain'
    rw [after]
    show blk b' i = _
    unfold view onDisk
    rw [step.mapped, step.image]
    by_cases same : b' = b
    · subst same
      rw [Function.update_self, if_pos rfl]
      exact page i lt
    · rw [Function.update_of_ne same, pages b' inside' same i lt, ref.blk b' inside' plain' i lt,
        step.cached small (good.small inside') same lt]
      rfl

/-! ## Reading, mapping and storing -/

/-- `read_block` is the same on both levels. -/
theorem Refines.readBlock (ref : c.Refines s) (good : c.Good) :
    (c.readBlock b).1 = (s.readBlock b).1 ∧ (c.readBlock b).2.Good ∧
      (c.readBlock b).2.Refines (s.readBlock b).2 := by
  by_cases outside : c.nblocks ≤ b
  · rw [BlockCache.readBlock, if_pos outside, Fs.readBlock, if_pos (ref.nblocks ▸ outside)]
    exact ⟨rfl, good, ref⟩
  have inside := Nat.not_le.mp outside
  by_cases free : c.blockIsFree b = true
  · rw [BlockCache.readBlock, if_neg outside, if_pos free, Fs.readBlock,
      if_neg (ref.nblocks ▸ outside), if_pos (ref.blockIsFree.trans free)]
    exact ⟨rfl, good, ref⟩
  have abstract' : s.readBlock b =
      (.ok (), { s with mapped := Function.update s.mapped b true }) := by
    rw [Fs.readBlock, if_neg (ref.nblocks ▸ outside), ref.blockIsFree, if_neg free]
  rw [abstract']
  cases here : c.mapped b with
  | true =>
      have same : Function.update s.mapped b true = s.mapped := by
        rw [ref.mapped, ← here, Function.update_eq_self]
      rw [BlockCache.readBlock, if_neg outside, if_neg free, if_pos here, same]
      exact ⟨rfl, good, ref⟩
  | false =>
      have plain : ¬ c.IsBitmap b := by
        intro isBitmap
        rw [(good.bitmapMapped b isBitmap).1] at here
        cases here
      obtain ⟨ide, run, image, size, page, outside'⟩ :=
        readBlock_spec good inside (Bool.not_eq_true _ ▸ free) here
      have step : c.PageStep { c.newPage b with ide } b :=
        ⟨rfl, size, image, rfl, fun b' other => Function.update_of_ne other _ _, outside'⟩
      rw [run]
      refine ⟨rfl, step.good good inside plain, ?_⟩
      refine step.refines good inside plain ref ref.answers rfl (fun i lt => ?_)
        fun b' _ _ i _ => rfl
      rw [ref.blk b inside plain i lt, view, here]
      exact (page i lt).symm

/-- `map_block` is the same on both levels. -/
theorem Refines.mapBlock (ref : c.Refines s) (good : c.Good) (inside : b < c.nblocks) :
    (c.mapBlock b).1 = (s.mapBlock b).1 ∧ (c.mapBlock b).2.Good ∧
      (c.mapBlock b).2.nblocks = c.nblocks ∧ (c.mapBlock b).2.Refines (s.mapBlock b).2 := by
  cases here : c.mapped b with
  | true =>
      rw [BlockCache.mapBlock, if_pos here, Fs.mapBlock, if_pos (ref.mapped ▸ here)]
      exact ⟨rfl, good, rfl, ref⟩
  | false =>
      have plain : ¬ c.IsBitmap b := by
        intro isBitmap
        rw [(good.bitmapMapped b isBitmap).1] at here
        cases here
      have away : ¬ c.mapped b = true := by simp [here]
      have away' : ¬ s.mapped b = true := ref.mapped ▸ away
      rw [BlockCache.mapBlock, if_neg away, Fs.mapBlock, if_neg away', Fs.sysMemAllocBlock,
        ref.answers]
      have step : ∀ answers, c.PageStep { c.newPage b with answers } b := fun answers =>
        ⟨rfl, rfl, rfl, rfl, fun b' other => Function.update_of_ne other _ _,
          fun a outside => if_neg outside⟩
      have zero : ∀ i < 1024, (c.newPage b).cached b i = 0 := fun i lt => if_pos (by omega)
      have mapped' : ∀ answers, ({ c.newPage b with answers } : BlockCache).Refines { s with
          answers
          mapped := Function.update s.mapped b true
          blk := Function.update s.blk b fun _ => 0 } := by
        intro answers
        refine (step answers).refines good inside plain ref rfl rfl (fun i lt => ?_)
          fun b' _ other i _ => by rw [Function.update_of_ne other]
        rw [Function.update_self]
        exact (zero i lt).symm
      rcases known : c.answers with _ | ⟨answer, rest⟩
      · exact ⟨rfl, (step _).good good inside plain, rfl, mapped' _⟩
      · cases answer with
        | ok _ => exact ⟨rfl, (step _).good good inside plain, rfl, mapped' _⟩
        | error e =>
            exact ⟨rfl, ⟨good.size, good.most, good.room, good.bitmapMapped, good.inside⟩, rfl,
              ⟨ref.nblocks, ref.mapped, rfl, ref.bitmap, ref.diskBitmap, ref.blk⟩⟩

/-- A store to a page of the cache. -/
theorem Refines.setWord (ref : c.Refines s) (good : c.Good) (here : c.mapped b = true)
    (plain : ¬ c.IsBitmap b) (lt : i < 1024) :
    (c.setWord (blockBase b + i) w).Good ∧
      (c.setWord (blockBase b + i) w).Refines (s.setWord (b, i) w) := by
  have inside := good.inside b here
  have small := good.small inside
  have same : Function.update c.mapped b true = c.mapped := by rw [← here, Function.update_eq_self]
  have same' : Function.update s.mapped b true = s.mapped := by rw [ref.mapped, same]
  have step : c.PageStep (c.setWord (blockBase b + i) w) b := by
    refine ⟨rfl, rfl, rfl, same.symm, fun _ _ => rfl, fun a outside => ?_⟩
    apply Function.update_of_ne
    omega
  refine ⟨step.good good inside plain, ?_⟩
  have after : s.setWord (b, i) w = { s with
      mapped := Function.update s.mapped b true
      blk := (s.setWord (b, i) w).blk
      answers := (s.setWord (b, i) w).answers } := by
    rw [same']
    rfl
  refine step.refines good inside plain ref ref.answers after (fun k ltk => ?_)
    fun b' _ other k _ => if_neg fun both => other both.1
  · show (if b = b ∧ k = i then w else s.blk b k) = Function.update c.ide.mem _ w _
    by_cases word : k = i
    · rw [if_pos ⟨rfl, word⟩, word, Function.update_self]
    · rw [if_neg fun both => word both.2, Function.update_of_ne (by omega),
        ref.blk b inside plain k ltk, view, if_pos here]
      rfl

/-! ## The bitmap -/

/-- A store to the bitmap. -/
theorem Refines.setBitmap (ref : c.Refines s) (good : c.Good) (lt : j < 1024 * nbitmap c.nblocks) :
    (c.setWord (blockBase 2 + j) w).Good ∧
      (c.setWord (blockBase 2 + j) w).Refines { s with bitmap := Function.update s.bitmap j w } := by
  obtain ⟨isBitmap, place, -⟩ := bitmap_word good lt
  have small := good.small (Nat.lt_of_lt_of_le isBitmap.2 good.room)
  refine ⟨⟨good.size, good.most, good.room, good.bitmapMapped, good.inside⟩,
    ref.nblocks, ref.mapped, ref.answers, fun k ltk => ?_, ref.diskBitmap,
    fun b inside plain i lti => ?_⟩
  · show Function.update s.bitmap j w k = Function.update c.ide.mem (blockBase 2 + j) w _
    by_cases same : k = j
    · rw [same, Function.update_self, Function.update_self]
    · rw [Function.update_of_ne same, Function.update_of_ne (by omega)]
      exact ref.bitmap k ltk
  · have other : b ≠ 2 + j / 1024 := fun same => plain (same ▸ isBitmap)
    have apart := blockBase_apart (good.small inside) small other lti
    have kept : (c.setWord (blockBase 2 + j) w).cached b i = c.cached b i := by
      unfold cached BlockCache.setWord
      dsimp only
      rw [Function.update_of_ne]
      intro same
      rw [same, place] at apart
      exact apart ⟨Nat.le_add_right _ _, Nat.add_lt_add_left (Nat.mod_lt _ (by decide)) _⟩
    refine (ref.blk b inside plain i lti).trans ?_
    unfold view
    rw [kept]
    rfl

/-- `free_block` is the same on both levels. -/
theorem Refines.freeBlock (ref : c.Refines s) (good : c.Good) :
    (c.freeBlock b).Good ∧ (c.freeBlock b).Refines (s.freeBlock b) := by
  unfold BlockCache.freeBlock Fs.freeBlock
  by_cases invalid : b = 0 ∨ c.nblocks ≤ b
  · rw [if_pos invalid, if_pos (ref.nblocks ▸ invalid)]
    exact ⟨good, ref⟩
  · rw [if_neg invalid, if_neg (ref.nblocks ▸ invalid)]
    have lt := bitmap_index (c := c) (b := b) (by omega)
    rw [PackedBits.set, ref.bitmap _ lt]
    exact ref.setBitmap good lt

/-- Writing a page to the disk changes only what is on the disk of it. -/
theorem Good.writeBlock (good : c.Good) (here : c.mapped b = true) :
    ∃ ide, c.writeBlock b = (.ok (), { c with ide }) ∧ ide.mem = c.ide.mem ∧
      ({ c with ide } : BlockCache).Good ∧
      ∀ b' i, i < 1024 → ({ c with ide } : BlockCache).onDisk b' i =
        if b' = b then c.cached b i else c.onDisk b' i := by
  obtain ⟨ide, run, mem, size, disk⟩ := writeBlock_spec good (good.inside b here) here
  exact ⟨ide, run, mem, ⟨size ▸ good.size, good.most, good.room, good.bitmapMapped, good.inside⟩,
    disk⟩

/-- `write_block` of a block of the bitmap is the same on both levels. -/
theorem Refines.writeBitmapBlock (ref : c.Refines s) (good : c.Good)
    (lt : i < nbitmap c.nblocks) :
    (c.writeBlock (i + 2)).1 = (s.writeBitmapBlock i).1 ∧ (c.writeBlock (i + 2)).2.Good ∧
      (c.writeBlock (i + 2)).2.nblocks = c.nblocks ∧
      (c.writeBlock (i + 2)).2.Refines (s.writeBitmapBlock i).2 := by
  have isBitmap : c.IsBitmap (i + 2) := ⟨by omega, by omega⟩
  have here := (good.bitmapMapped _ isBitmap).1
  obtain ⟨ide, run, mem, good', disk⟩ := good.writeBlock here
  rw [run, Fs.writeBitmapBlock, if_pos (ref.mapped ▸ here)]
  refine ⟨rfl, good', rfl, ref.nblocks, ref.mapped, ref.answers, fun k ltk => ?_, fun k ltk => ?_,
    fun b inside plain k ltk => ?_⟩
  · refine (ref.bitmap k ltk).trans ?_
    unfold BlockCache.bitmap
    rw [mem]
  · obtain ⟨-, place, diskPlace⟩ := bitmap_word good ltk
    have word := disk (2 + k / 1024) (k % 1024) (Nat.mod_lt _ (by decide))
    unfold onDisk at word
    unfold BlockCache.diskBitmap
    rw [diskPlace]
    refine Eq.trans ?_ word.symm
    show (if k / 1024 = i then s.bitmap k else s.diskBitmap k) = _
    by_cases same : k / 1024 = i
    · have same' : 2 + k / 1024 = i + 2 := by omega
      rw [if_pos same, if_pos same', ref.bitmap k ltk, ← same']
      unfold BlockCache.bitmap cached
      rw [place]
    · rw [if_neg same, if_neg (by omega), ← diskPlace]
      exact ref.diskBitmap k ltk
  · have other : b ≠ i + 2 := fun same => plain (same ▸ isBitmap)
    refine (ref.blk b inside plain k ltk).trans ?_
    unfold view cached
    rw [disk b k ltk, if_neg other, mem]

/-- The loop of `alloc_block_num` is the same on both levels. -/
theorem Refines.allocBlockNumFrom (left : Nat) : ∀ (c : BlockCache) (s : Fs) (b : Nat),
    c.Refines s → c.Good → b + left ≤ c.nblocks →
    (c.allocBlockNumFrom b left).1 = (s.allocBlockNumFrom b left).1 ∧
      (c.allocBlockNumFrom b left).2.Good ∧ (c.allocBlockNumFrom b left).2.nblocks = c.nblocks ∧
      (c.allocBlockNumFrom b left).2.Refines (s.allocBlockNumFrom b left).2 ∧
      ∀ r, (c.allocBlockNumFrom b left).1 = .ok r → r < c.nblocks := by
  induction left with
  | zero =>
      intro c s b ref good _
      exact ⟨rfl, good, rfl, ref, fun r h => by cases h⟩
  | succ left ih =>
      intro c s b ref good bound
      have inside : b < c.nblocks := by omega
      rw [BlockCache.allocBlockNumFrom, Fs.allocBlockNumFrom, Fs.bit, ref.test inside]
      split
      · have lt := bitmap_index (c := c) inside
        have block : b / BIT2BLK < nbitmap c.nblocks :=
          Nat.lt_succ_of_le (Nat.div_le_div_right (Nat.le_of_lt inside))
        have cleared := ref.setBitmap (w := c.bitmap (b / 32) &&& ~~~(1#32 <<< (b % 32))) good lt
        rw [← ref.bitmap _ lt] at cleared
        obtain ⟨good₁, ref₁⟩ := cleared
        obtain ⟨same, good₂, size₂, ref₂⟩ := ref₁.writeBitmapBlock good₁ block
        rw [PackedBits.clear, ← ref.bitmap _ lt]
        rcases written : BlockCache.writeBlock _ (b / BIT2BLK + 2) with ⟨r, c₂⟩
        rw [written] at same good₂ size₂ ref₂
        rcases written' : Fs.writeBitmapBlock _ (b / BIT2BLK) with ⟨r', s₂⟩
        rw [written'] at same ref₂
        dsimp only at same
        subst same
        cases r with
        | error e => exact ⟨rfl, good₂, size₂, ref₂, fun r h => by cases h⟩
        | ok _ => exact ⟨rfl, good₂, size₂, ref₂, fun r h => by cases h; exact inside⟩
      · exact ih c s (b + 1) ref good (by omega)

/-- `alloc_block` is the same on both levels. -/
theorem Refines.allocBlock (ref : c.Refines s) (good : c.Good) :
    (c.allocBlock).1 = (s.allocBlock).1 ∧ (c.allocBlock).2.Good ∧
      (c.allocBlock).2.Refines (s.allocBlock).2 := by
  have room := good.room
  have some_block : 1 ≤ nbitmap c.nblocks := Nat.le_add_left 1 _
  have least : 3 + (c.nblocks - 3) ≤ c.nblocks := by omega
  obtain ⟨same, good₁, size₁, ref₁, inside⟩ :=
    Refines.allocBlockNumFrom (c.nblocks - 3) c s 3 ref good least
  unfold BlockCache.allocBlock Fs.allocBlock BlockCache.allocBlockNum Fs.allocBlockNum
  rw [ref.nblocks]
  rcases taken : c.allocBlockNumFrom 3 (c.nblocks - 3) with ⟨r, c₁⟩
  rw [taken] at same good₁ size₁ ref₁ inside
  rcases taken' : s.allocBlockNumFrom 3 (c.nblocks - 3) with ⟨r', s₁⟩
  rw [taken'] at same ref₁
  dsimp only at same
  subst same
  cases r with
  | error e => exact ⟨rfl, good₁, ref₁⟩
  | ok bno =>
      have below : bno < c₁.nblocks := size₁ ▸ inside bno rfl
      obtain ⟨same, good₂, -, ref₂⟩ := ref₁.mapBlock good₁ below
      dsimp only
      rcases mapped' : c₁.mapBlock bno with ⟨r, c₂⟩
      rw [mapped'] at same good₂ ref₂
      rcases mapped'' : s₁.mapBlock bno with ⟨r', s₂⟩
      rw [mapped''] at same ref₂
      dsimp only at same
      subst same
      cases r with
      | ok _ => exact ⟨rfl, good₂, ref₂⟩
      | error e =>
          obtain ⟨good₃, ref₃⟩ := ref₂.freeBlock (b := bno) good₂
          exact ⟨rfl, good₃, ref₃⟩

/-! ## Writing back -/

/-- `dirty_block` is not seen by file operations. -/
theorem Refines.dirtyBlock (ref : c.Refines s) (good : c.Good) (plain : ¬ c.IsBitmap b) :
    (c.dirtyBlock b).1 = (if s.mapped b then .ok () else .error .notFound) ∧
      (c.dirtyBlock b).2.Good ∧ (c.dirtyBlock b).2.Refines s := by
  unfold BlockCache.dirtyBlock
  rw [ref.mapped]
  cases here : c.mapped b with
  | false => exact ⟨rfl, good, ref⟩
  | true =>
      cases known : c.dirty b with
      | true => exact ⟨rfl, good, ref⟩
      | false =>
          refine ⟨rfl, ⟨good.size, good.most, good.room, fun b' isBitmap => ?_, good.inside⟩,
            ⟨ref.nblocks, ref.mapped, ref.answers, ref.bitmap, ref.diskBitmap, ref.blk⟩⟩
          have other : b' ≠ b := fun same => plain (same ▸ isBitmap)
          obtain ⟨mapped', clean⟩ := good.bitmapMapped b' isBitmap
          exact ⟨mapped', (Function.update_of_ne other _ _).trans clean⟩

/-- What the loops of `file_flush` and `fs_sync` do with one block. -/
theorem flushBlock_spec (good : c.Good) :
    ∃ ide, c.flushBlock b = (.ok (), { c with ide }) ∧ ide.mem = c.ide.mem ∧
      ({ c with ide } : BlockCache).Good ∧
      ∀ b' i, i < 1024 → ({ c with ide } : BlockCache).onDisk b' i =
        if b' = b ∧ c.blockIsDirty b then c.cached b i else c.onDisk b' i := by
  unfold flushBlock
  cases known : c.blockIsDirty b with
  | false => exact ⟨c.ide, rfl, rfl, good, fun b' i _ => (if_neg (by simp)).symm⟩
  | true =>
      have here : c.mapped b = true := (Bool.and_eq_true_iff.mp known).1
      obtain ⟨ide, run, mem, good', disk⟩ := good.writeBlock here
      refine ⟨ide, by rw [if_pos rfl, run], mem, good', fun b' i lt => ?_⟩
      rw [disk b' i lt]
      simp

/-- A write of dirty pages is not seen by file operations. -/
theorem Refines.flushed (ref : c.Refines s) (good : c.Good) {ide : Ide} (mem : ide.mem = c.ide.mem)
    (disk : ∀ b i, i < 1024 → c.blockIsDirty b = false →
      ({ c with ide } : BlockCache).onDisk b i = c.onDisk b i) :
    ({ c with ide } : BlockCache).Refines s := by
  refine ⟨ref.nblocks, ref.mapped, ref.answers, fun j lt => ?_, fun j lt => ?_,
    fun b inside plain i lt => ?_⟩
  · refine (ref.bitmap j lt).trans ?_
    unfold BlockCache.bitmap
    rw [mem]
  · obtain ⟨isBitmap, -, diskPlace⟩ := bitmap_word good lt
    have clean : c.blockIsDirty (2 + j / 1024) = false := by
      simp [blockIsDirty, (good.bitmapMapped _ isBitmap).2]
    have word := disk (2 + j / 1024) (j % 1024) (Nat.mod_lt _ (by decide)) clean
    refine (ref.diskBitmap j lt).trans ?_
    unfold BlockCache.diskBitmap
    rw [diskPlace]
    exact word.symm
  · refine (ref.blk b inside plain i lt).trans ?_
    unfold view
    have page : ({ c with ide } : BlockCache).cached b i = c.cached b i := by
      unfold cached
      rw [mem]
    rw [page]
    cases here : c.mapped b with
    | true => rfl
    | false => exact (disk b i lt (by simp [blockIsDirty, here])).symm

/-- The loop of `fs_sync` puts the dirty pages of the blocks below `n` on the disk. -/
theorem syncBelow_spec (good : c.Good) (n : Nat) :
    ∃ ide, c.syncBelow n = (.ok (), { c with ide }) ∧ ide.mem = c.ide.mem ∧
      ({ c with ide } : BlockCache).Good ∧
      ∀ b i, i < 1024 → ({ c with ide } : BlockCache).onDisk b i =
        if b < n ∧ c.blockIsDirty b then c.cached b i else c.onDisk b i := by
  induction n with
  | zero => exact ⟨c.ide, rfl, rfl, good, fun b i _ => (if_neg (by simp)).symm⟩
  | succ n ih =>
      obtain ⟨ide₁, run₁, mem₁, good₁, disk₁⟩ := ih
      obtain ⟨ide₂, run₂, mem₂, good₂, disk₂⟩ := flushBlock_spec (b := n) good₁
      have page : ({ c with ide := ide₁ } : BlockCache).cached n = c.cached n := by
        unfold cached
        rw [mem₁]
      refine ⟨ide₂, by rw [syncBelow, run₁]; exact run₂, mem₂.trans mem₁, good₂, fun b i lt => ?_⟩
      refine (disk₂ b i lt).trans ?_
      rw [page, disk₁ b i lt]
      have same : ({ c with ide := ide₁ } : BlockCache).blockIsDirty n = c.blockIsDirty n := rfl
      rw [same]
      by_cases last : b = n
      · subst last
        by_cases dirty : c.blockIsDirty b = true
        · rw [if_pos ⟨rfl, dirty⟩, if_pos ⟨Nat.lt_succ_self _, dirty⟩]
        · rw [if_neg fun both => dirty both.2, if_neg fun both => dirty both.2,
            if_neg fun both => dirty both.2]
      · rw [if_neg fun both => last both.1]
        have below : b < n + 1 ↔ b < n := by omega
        simp only [below]

/-! ## Runs -/

end BlockCache

/-- What the file system does with blocks. -/
inductive BlockOp
  | read (b : Nat)
  | alloc
  | free (b : Nat)
  | store (b i : Nat) (w : Word)
  | dirty (b : Nat)
  | flush (b : Nat)
  | sync

/-- The result of a call that returns nothing. -/
def noValue (r : Except FsErr Unit) : Except FsErr Nat := r.map fun _ => 0

def BlockCache.exec (c : BlockCache) : BlockOp → Except FsErr Nat × BlockCache
  | .read b => (noValue (c.readBlock b).1, (c.readBlock b).2)
  | .alloc => c.allocBlock
  | .free b => (.ok 0, c.freeBlock b)
  | .store b i w => (.ok 0, c.setWord (blockBase b + i) w)
  | .dirty b => (noValue (c.dirtyBlock b).1, (c.dirtyBlock b).2)
  | .flush b => (noValue (c.flushBlock b).1, (c.flushBlock b).2)
  | .sync => (noValue c.fsSync.1, c.fsSync.2)

/-- The same, where there is one array of words for every block. -/
def Fs.exec (s : Fs) : BlockOp → Except FsErr Nat × Fs
  | .read b => (noValue (s.readBlock b).1, (s.readBlock b).2)
  | .alloc => s.allocBlock
  | .free b => (.ok 0, s.freeBlock b)
  | .store b i w => (.ok 0, s.setWord (b, i) w)
  | .dirty b => (if s.mapped b then .ok 0 else .error .notFound, s)
  | .flush _ => (.ok 0, s)
  | .sync => (.ok 0, s)

/-- Stores go to pages in the cache; the bitmap is left to the functions for it, and the super
block's `s_magic` and `s_nblocks` to `fsformat`. -/
def BlockOp.Enabled (c : BlockCache) : BlockOp → Prop
  | .store b i _ => c.mapped b = true ∧ ¬ c.IsBitmap b ∧ i < 1024 ∧ (b = 1 → 2 ≤ i)
  | .dirty b => ¬ c.IsBitmap b
  | _ => True

namespace BlockCache

open Fs (nbitmap)

variable {c c' c₀ : BlockCache} {s s' : Fs} {b b' i j : Nat} {w : Word}
  {evs : List (BlockOp × Except FsErr Nat)}

/-- One call, with its result. -/
def Step (c : BlockCache) (ev : BlockOp × Except FsErr Nat) (c' : BlockCache) : Prop :=
  ev.1.Enabled c ∧ c.exec ev.1 = (ev.2, c')

theorem Refines.step {ev : BlockOp × Except FsErr Nat} (ref : c.Refines s) (good : c.Good)
    (step : c.Step ev c') : c'.Good ∧ ∃ s', s.exec ev.1 = (ev.2, s') ∧ c'.Refines s' := by
  obtain ⟨op, r⟩ := ev
  obtain ⟨enabled, run⟩ := step
  dsimp only at enabled run ⊢
  cases op with
  | read b =>
      obtain ⟨same, good', ref'⟩ := ref.readBlock (b := b) good
      cases run
      exact ⟨good', _, by rw [Fs.exec, same], ref'⟩
  | alloc =>
      obtain ⟨same, good', ref'⟩ := ref.allocBlock good
      have after : c.allocBlock = (r, c') := run
      rw [after] at same good' ref'
      exact ⟨good', s.allocBlock.2, Prod.ext same.symm rfl, ref'⟩
  | free b =>
      obtain ⟨good', ref'⟩ := ref.freeBlock (b := b) good
      cases run
      exact ⟨good', _, rfl, ref'⟩
  | store b i w =>
      obtain ⟨here, plain, lt, -⟩ := enabled
      obtain ⟨good', ref'⟩ := ref.setWord (w := w) good here plain lt
      cases run
      exact ⟨good', _, rfl, ref'⟩
  | dirty b =>
      obtain ⟨same, good', ref'⟩ := ref.dirtyBlock good enabled
      cases run
      refine ⟨good', s, ?_, ref'⟩
      rw [Fs.exec, same]
      split <;> rfl
  | flush b =>
      obtain ⟨ide, flushed, mem, good', disk⟩ := flushBlock_spec (b := b) good
      rw [exec, flushed] at run
      cases run
      refine ⟨good', s, rfl, ref.flushed good mem fun b' i lt clean => ?_⟩
      rw [disk b' i lt, if_neg]
      intro both
      rw [← both.1, clean] at both
      cases both.2
  | sync =>
      obtain ⟨ide, synced, mem, good', disk⟩ := syncBelow_spec good c.nblocks
      rw [exec, fsSync, synced] at run
      cases run
      refine ⟨good', s, rfl, ref.flushed good mem fun b' i lt clean => ?_⟩
      rw [disk b' i lt, if_neg]
      intro both
      rw [clean] at both
      cases both.2

/-- The cache and the disk behind it are one array of blocks: whatever is loaded,
allocated, freed, stored, marked dirty and written back, in any order, every call has
the result that it has on `Fs`, and every block shows the words that it has there. -/
theorem blockCache_refines (good : c₀.Good) (ref : c₀.Refines s) (run : Run Step c₀ evs c) :
    c.Good ∧ ∃ s', Run (fun s ev s' => s.exec ev.1 = (ev.2, s')) s evs s' ∧ c.Refines s' := by
  apply run.history fun evs c =>
    c.Good ∧ ∃ s', Run (fun s ev s' => s.exec ev.1 = (ev.2, s')) s evs s' ∧ c.Refines s'
  · exact ⟨good, s, .refl s, ref⟩
  · intro evs c₁ ev c₂ before step
    obtain ⟨good₁, s₁, run₁, ref₁⟩ := before
    obtain ⟨good₂, s₂, last, ref₂⟩ := ref₁.step good₁ step
    exact ⟨good₂, s₂, run₁.snoc last, ref₂⟩

/-! ## What a sync saves -/

/-- The page of a block, if it is in the cache, is on the disk or marked for it. -/
def Tracked (c : BlockCache) (b : Nat) : Prop :=
  c.mapped b = true → c.dirty b = true ∨ ∀ i < 1024, c.cached b i = c.onDisk b i

/-- What a step may do to one block: it is marked dirty, or its page changed, only if the
step is one that does so, and it is written to the disk only if it is marked. -/
structure Tame (c c' : BlockCache) (b : Nat) (marks changes : Prop) : Prop where
  kept : c.mapped b = true → c'.mapped b = true ∧ (c.dirty b = true → c'.dirty b = true)
  clean : ¬ marks → c.dirty b = false → c'.dirty b = false
  disk : c.dirty b = false → ∀ i < 1024, c'.onDisk b i = c.onDisk b i
  tracked : ¬ changes → c.Tracked b → c'.Tracked b

/-- Nothing happened to the block. -/
theorem Tame.of_same (mapped : c'.mapped b = c.mapped b) (dirty : c'.dirty b = c.dirty b)
    (page : ∀ i < 1024, c'.cached b i = c.cached b i)
    (disk : ∀ i < 1024, c'.onDisk b i = c.onDisk b i) {marks changes : Prop} :
    c.Tame c' b marks changes where
  kept here := ⟨mapped.trans here, fun known => dirty.trans known⟩
  clean _ known := dirty.trans known
  disk _ := disk
  tracked _ tracked here := by
    rw [mapped] at here
    rw [dirty]
    refine (tracked here).imp_right fun same i lt => ?_
    rw [page i lt, disk i lt, same i lt]

theorem Tame.refl (c : BlockCache) (b : Nat) {marks changes : Prop} : c.Tame c b marks changes :=
  .of_same rfl rfl (fun _ _ => rfl) fun _ _ => rfl

theorem Tame.trans {c'' : BlockCache} {marks changes : Prop}
    (first : c.Tame c' b False changes) (second : c'.Tame c'' b marks changes) :
    c.Tame c'' b marks changes where
  kept here := by
    obtain ⟨here', dirty'⟩ := first.kept here
    obtain ⟨here'', dirty''⟩ := second.kept here'
    exact ⟨here'', fun known => dirty'' (dirty' known)⟩
  clean not known := second.clean not (first.clean id known)
  disk known i lt := (second.disk (first.clean id known) i lt).trans (first.disk known i lt)
  tracked not tracked := second.tracked not (first.tracked not tracked)

theorem Tame.mono {marks changes marks' changes' : Prop} (tame : c.Tame c' b marks changes)
    (more : marks → marks') (more' : changes → changes') : c.Tame c' b marks' changes' where
  kept := tame.kept
  clean not := tame.clean fun yes => not (more yes)
  disk := tame.disk
  tracked not := tame.tracked fun yes => not (more' yes)

/-- A change of another page. -/
theorem PageStep.tame (step : c.PageStep c' b') (small : b' < 2 ^ 18) (small' : b < 2 ^ 18)
    (other : b ≠ b') {marks changes : Prop} : c.Tame c' b marks changes := by
  refine .of_same ?_ (step.dirty b other) (fun i lt => step.cached small small' other lt)
    fun i _ => ?_
  · rw [step.mapped, Function.update_of_ne other]
  · unfold onDisk
    rw [step.image]

/-- A store to another page, or to the bitmap. -/
theorem tame_setWord {a : Nat} (outside : ¬ (blockBase b ≤ a ∧ a < blockBase b + 1024))
    {marks changes : Prop} : c.Tame (c.setWord a w) b marks changes := by
  have mapped : (c.setWord a w).mapped b = c.mapped b := rfl
  refine .of_same mapped rfl (fun i lt => ?_) fun _ _ => rfl
  unfold cached setWord
  dsimp only
  rw [Function.update_of_ne]
  intro same
  rw [← same] at outside
  exact outside ⟨Nat.le_add_right _ _, Nat.add_lt_add_left lt _⟩

theorem tame_setBitmap (good : c.Good) (inside : b < c.nblocks) (plain : ¬ c.IsBitmap b)
    (lt : j < 1024 * nbitmap c.nblocks) {marks changes : Prop} :
    c.Tame (c.setWord (blockBase 2 + j) w) b marks changes := by
  obtain ⟨isBitmap, place, -⟩ := bitmap_word good lt
  have small := good.small (Nat.lt_of_lt_of_le isBitmap.2 good.room)
  have other : 2 + j / 1024 ≠ b := fun same => plain (same ▸ isBitmap)
  apply tame_setWord
  rw [place]
  exact blockBase_apart small (good.small inside) other (Nat.mod_lt _ (by decide))

/-- A write to the disk of blocks that are marked dirty, or of another block. -/
theorem tame_written {ide : Ide} (mem : ide.mem = c.ide.mem)
    (disk : ∀ i < 1024, ({ c with ide } : BlockCache).onDisk b i = c.onDisk b i ∨
      c.blockIsDirty b = true ∧ ({ c with ide } : BlockCache).onDisk b i = c.cached b i)
    {marks changes : Prop} : c.Tame { c with ide } b marks changes := by
  have page : ∀ i, ({ c with ide } : BlockCache).cached b i = c.cached b i := by
    intro i
    unfold cached
    rw [mem]
  refine ⟨fun here => ⟨here, id⟩, fun _ => id, fun clean i lt => ?_, fun _ tracked here => ?_⟩
  · obtain same | ⟨dirty, -⟩ := disk i lt
    · exact same
    · rw [blockIsDirty, clean, Bool.and_false] at dirty
      cases dirty
  · refine (tracked here).imp_right fun same i lt => ?_
    rw [page]
    obtain same' | ⟨-, new⟩ := disk i lt
    · rw [same', same i lt]
    · exact new.symm

theorem tame_newPage (inside : b' < c.nblocks) (good : c.Good) (away : c.mapped b' = false)
    (insideB : b < c.nblocks) {answers : List (Except Err Unit)} {marks changes : Prop}
    (changed : b = b' → changes) : c.Tame { c.newPage b' with answers } b marks changes := by
  by_cases same : b = b'
  · subst same
    refine ⟨fun here => ?_, fun _ _ => Function.update_self _ _ _, fun _ i _ => rfl,
      fun not => absurd (changed rfl) not⟩
    rw [away] at here
    cases here
  · have step : c.PageStep { c.newPage b' with answers } b' :=
      ⟨rfl, rfl, rfl, rfl, fun _ other => Function.update_of_ne other _ _,
        fun a outside => if_neg outside⟩
    exact step.tame (good.small inside) (good.small insideB) same

/-! ### One call -/

theorem tame_readBlock (good : c.Good) (inside : b < c.nblocks) {marks changes : Prop} :
    c.Tame (c.readBlock b').2 b marks changes := by
  by_cases outside : c.nblocks ≤ b'
  · rw [readBlock, if_pos outside]
    exact .refl c b
  by_cases free : c.blockIsFree b' = true
  · rw [readBlock, if_neg outside, if_pos free]
    exact .refl c b
  cases here : c.mapped b' with
  | true =>
      rw [readBlock, if_neg outside, if_neg free, if_pos here]
      exact .refl c b
  | false =>
      have inside' := Nat.not_le.mp outside
      obtain ⟨ide, run, image, size, page, outside'⟩ :=
        readBlock_spec good inside' (Bool.not_eq_true _ ▸ free) here
      rw [run]
      by_cases same : b = b'
      · subst same
        refine ⟨fun mapped => ?_, fun _ _ => Function.update_self _ _ _, fun _ i _ => ?_,
          fun _ _ _ => .inr fun i lt => ?_⟩
        · rw [here] at mapped
          cases mapped
        · unfold onDisk
          rw [image]
        · refine (page i lt).trans ?_
          unfold onDisk
          rw [image]
      · have step : c.PageStep { c.newPage b' with ide } b' :=
          ⟨rfl, size, image, rfl, fun _ other => Function.update_of_ne other _ _, outside'⟩
        exact step.tame (good.small inside') (good.small inside) same

theorem tame_mapBlock (good : c.Good) (inside' : b' < c.nblocks) (inside : b < c.nblocks)
    {marks changes : Prop} (changed : (c.mapBlock b').1 = .ok () → b = b' → changes) :
    c.Tame (c.mapBlock b').2 b marks changes := by
  cases here : c.mapped b' with
  | true =>
      rw [mapBlock, if_pos here]
      exact .refl c b
  | false =>
      have away : ¬ c.mapped b' = true := by simp [here]
      rw [mapBlock, if_neg away] at changed ⊢
      rcases known : c.answers with _ | ⟨answer, rest⟩
      · rw [known] at changed
        exact tame_newPage inside' good here inside (changed rfl)
      · rw [known] at changed
        cases answer with
        | ok _ => exact tame_newPage inside' good here inside (changed rfl)
        | error e =>
            have mapped : ({ c with answers := rest } : BlockCache).mapped b = c.mapped b := rfl
            exact .of_same mapped rfl (fun _ _ => rfl) fun _ _ => rfl

theorem tame_freeBlock (good : c.Good) (inside : b < c.nblocks) (plain : ¬ c.IsBitmap b)
    {marks changes : Prop} : c.Tame (c.freeBlock b') b marks changes := by
  unfold freeBlock
  split
  · exact .refl c b
  · next valid => exact tame_setBitmap good inside plain (bitmap_index (by omega))

/-- A map request that fails leaves everything as it was. -/
theorem mapBlock_failed {e : FsErr} (failed : (c.mapBlock b).1 = .error e) :
    ∃ rest, (c.mapBlock b).2 = { c with answers := rest } := by
  unfold mapBlock at failed ⊢
  split
  · next here =>
      rw [if_pos here] at failed
      cases failed
  · next here =>
      rw [if_neg here] at failed
      rcases known : c.answers with _ | ⟨answer, rest⟩
      · rw [known] at failed
        cases failed
      · rw [known] at failed
        cases answer with
        | ok _ => cases failed
        | error e => exact ⟨rest, rfl⟩

theorem Good.setBitmap (good : c.Good) {a : Nat} : (c.setWord a w).Good :=
  ⟨good.size, good.most, good.room, good.bitmapMapped, good.inside⟩

theorem tame_allocBlockNumFrom (left : Nat) : ∀ (c : BlockCache) (n : Nat), c.Good →
    n + left ≤ c.nblocks →
    (c.allocBlockNumFrom n left).2.Good ∧ (c.allocBlockNumFrom n left).2.nblocks = c.nblocks ∧
      (∀ r, (c.allocBlockNumFrom n left).1 = .ok r → r < c.nblocks) ∧
      ∀ b < c.nblocks, ¬ c.IsBitmap b → ∀ changes,
        c.Tame (c.allocBlockNumFrom n left).2 b False changes := by
  induction left with
  | zero => exact fun c n good _ => ⟨good, rfl, fun r h => (by cases h), fun b _ _ _ => .refl c b⟩
  | succ left ih =>
      intro c n good bound
      have inside : n < c.nblocks := by omega
      rw [allocBlockNumFrom]
      split
      · have lt := bitmap_index (c := c) inside
        have block : n / BIT2BLK < nbitmap c.nblocks :=
          Nat.lt_succ_of_le (Nat.div_le_div_right (Nat.le_of_lt inside))
        have isBitmap : c.IsBitmap (n / BIT2BLK + 2) := ⟨Nat.le_add_left 2 _, by omega⟩
        have good₁ := good.setBitmap (w := c.bitmap (n / 32) &&& ~~~(1#32 <<< (n % 32)))
          (a := blockBase 2 + n / 32)
        obtain ⟨ide, run, mem, good₂, disk⟩ :=
          good₁.writeBlock (b := n / BIT2BLK + 2) (good.bitmapMapped _ isBitmap).1
        rw [run]
        refine ⟨good₂, rfl, fun r h => by cases h; exact inside, fun b insideB plain changes => ?_⟩
        refine (tame_setBitmap good insideB plain lt).trans (tame_written mem fun i lti => .inl ?_)
        have other : b ≠ n / BIT2BLK + 2 := fun same => plain (same ▸ isBitmap)
        rw [disk b i lti, if_neg other]
      · exact ih c (n + 1) good (by omega)

theorem tame_allocBlock (good : c.Good) (inside : b < c.nblocks) (plain : ¬ c.IsBitmap b)
    {marks changes : Prop} (changed : c.allocBlock.1 = .ok b → changes) :
    c.Tame c.allocBlock.2 b marks changes := by
  have some_block : 1 ≤ nbitmap c.nblocks := Nat.le_add_left 1 _
  have room := good.room
  obtain ⟨good₁, size₁, inside₁, tame₁⟩ :=
    tame_allocBlockNumFrom (c.nblocks - 3) c 3 good (by omega)
  have first := tame₁ b inside plain changes
  unfold allocBlock allocBlockNum at changed ⊢
  rcases taken : c.allocBlockNumFrom 3 (c.nblocks - 3) with ⟨r, c₁⟩
  rw [taken] at good₁ size₁ inside₁ first changed
  cases r with
  | error e => exact first.mono (fun no => no.elim) id
  | ok bno =>
      dsimp only at changed size₁ first ⊢
      have below : bno < c₁.nblocks := size₁ ▸ inside₁ bno rfl
      have inside' : b < c₁.nblocks := size₁ ▸ inside
      have plain' : ¬ c₁.IsBitmap b := by
        unfold IsBitmap
        rw [size₁]
        exact plain
      have second : c₁.Tame (c₁.mapBlock bno).2 b False changes := by
        refine tame_mapBlock good₁ below inside' fun mapped' same => changed ?_
        rcases run : c₁.mapBlock bno with ⟨r, c₂⟩
        rw [run] at mapped'
        dsimp only at mapped'
        rw [mapped', same]
      rcases run : c₁.mapBlock bno with ⟨r, c₂⟩
      rw [run] at second
      cases r with
      | ok _ => exact (first.trans second).mono (fun no => no.elim) id
      | error e =>
          obtain ⟨rest, same⟩ := mapBlock_failed (by rw [run])
          rw [run] at same
          dsimp only at same second ⊢
          subst same
          have good₂ : ({ c₁ with answers := rest } : BlockCache).Good :=
            ⟨good₁.size, good₁.most, good₁.room, good₁.bitmapMapped, good₁.inside⟩
          exact (first.trans second).trans (tame_freeBlock good₂ inside' plain')

/-- `alloc_block` leaves the size of the disk alone. -/
theorem nblocks_allocBlock (good : c.Good) : c.allocBlock.2.nblocks = c.nblocks := by
  have some_block : 1 ≤ nbitmap c.nblocks := Nat.le_add_left 1 _
  have room := good.room
  obtain ⟨-, size₁, -, -⟩ := tame_allocBlockNumFrom (c.nblocks - 3) c 3 good (by omega)
  unfold allocBlock allocBlockNum
  rcases taken : c.allocBlockNumFrom 3 (c.nblocks - 3) with ⟨r, c₁⟩
  rw [taken] at size₁
  cases r with
  | error e => exact size₁
  | ok bno =>
      dsimp only at size₁ ⊢
      have size₂ : (c₁.mapBlock bno).2.nblocks = c₁.nblocks := by
        unfold mapBlock
        split
        · rfl
        · split <;> rfl
      rcases mapped' : c₁.mapBlock bno with ⟨r, c₂⟩
      rw [mapped'] at size₂
      cases r with
      | ok _ => exact size₂.trans size₁
      | error e =>
          have size₃ : (c₂.freeBlock bno).nblocks = c₂.nblocks := by
            unfold freeBlock
            split <;> rfl
          exact size₃.trans (size₂.trans size₁)

/-- The calls that change the words of a page of the cache: stores, and allocations, which
clear the page of the block they hand out. -/
def Changes (ev : BlockOp × Except FsErr Nat) (b : Nat) : Prop :=
  (∃ i w r, ev = (.store b i w, r)) ∨ ev = (.alloc, .ok b)

/-- The call marks the page of the block dirty. -/
def Marks (ev : BlockOp × Except FsErr Nat) (b : Nat) : Prop := ev = (.dirty b, .ok 0)

theorem Step.nblocks {ev : BlockOp × Except FsErr Nat} (step : c.Step ev c') (good : c.Good) :
    c'.nblocks = c.nblocks := by
  obtain ⟨op, r⟩ := ev
  obtain ⟨-, run⟩ := step
  dsimp only at run
  cases op with
  | read b =>
      cases run
      simp only [readBlock]
      split_ifs
      · rfl
      · rfl
      · rfl
      · split <;> rfl
  | alloc =>
      have after : c.allocBlock = (r, c') := run
      have size := nblocks_allocBlock good
      rwa [after] at size
  | free b =>
      cases run
      unfold freeBlock
      split <;> rfl
  | store b i w =>
      cases run
      rfl
  | dirty b =>
      cases run
      simp only [dirtyBlock]
      split_ifs <;> rfl
  | flush b =>
      obtain ⟨ide, flushed, -⟩ := flushBlock_spec (b := b) good
      rw [exec, flushed] at run
      cases run
      rfl
  | sync =>
      obtain ⟨ide, synced, -⟩ := syncBelow_spec good c.nblocks
      rw [exec, fsSync, synced] at run
      cases run
      rfl

/-- What one call does to one block. -/
theorem Step.tame {ev : BlockOp × Except FsErr Nat} (step : c.Step ev c') (good : c.Good)
    (inside : b < c.nblocks) (plain : ¬ c.IsBitmap b) :
    c.Tame c' b (Marks ev b) (Changes ev b) ∧
      (Marks ev b → c'.mapped b = true ∧ c'.dirty b = true) := by
  obtain ⟨op, r⟩ := ev
  obtain ⟨enabled, run⟩ := step
  dsimp only at enabled run
  cases op with
  | read b' =>
      cases run
      exact ⟨tame_readBlock good inside, fun marks => by cases marks⟩
  | alloc =>
      have after : c.allocBlock = (r, c') := run
      have changed : c.allocBlock.1 = .ok b → Changes (.alloc, r) b := by
        intro taken
        rw [after] at taken
        dsimp only at taken
        rw [taken]
        exact .inr rfl
      have tame : c.Tame c.allocBlock.2 b (Marks (.alloc, r) b) (Changes (.alloc, r) b) :=
        tame_allocBlock good inside plain changed
      rw [after] at tame
      exact ⟨tame, fun marks => by cases marks⟩
  | free b' =>
      cases run
      exact ⟨tame_freeBlock good inside plain, fun marks => by cases marks⟩
  | store b' i w =>
      obtain ⟨here, plain', lt, -⟩ := enabled
      cases run
      refine ⟨?_, fun marks => by cases marks⟩
      by_cases same : b = b'
      · subst same
        exact ⟨fun here => ⟨here, id⟩, fun _ => id, fun _ _ _ => rfl,
          fun not => absurd (.inl ⟨i, w, _, rfl⟩) not⟩
      · apply tame_setWord
        exact blockBase_apart (good.small (good.inside b' here)) (good.small inside)
          (fun same' => same same'.symm) lt
  | dirty b' =>
      rw [exec] at run
      unfold dirtyBlock at run
      cases here : c.mapped b' with
      | false =>
          rw [if_pos (by simp [here])] at run
          cases run
          exact ⟨.refl c b, fun marks => by cases marks⟩
      | true =>
          rw [if_neg (by simp [here])] at run
          by_cases same : b = b'
          · subst same
            cases known : c.dirty b with
            | true =>
                rw [if_pos known] at run
                cases run
                exact ⟨.refl c b, fun _ => ⟨here, known⟩⟩
            | false =>
                rw [if_neg (by simp [known])] at run
                cases run
                refine ⟨⟨fun here => ⟨here, fun _ => Function.update_self _ _ _⟩,
                  fun not => absurd rfl not, fun _ _ _ => rfl,
                  fun _ _ _ => .inl (Function.update_self _ _ _)⟩,
                  fun _ => ⟨here, Function.update_self _ _ _⟩⟩
          · split at run
            · cases run
              exact ⟨.refl c b, fun marks => by cases marks; exact absurd rfl same⟩
            · cases run
              refine ⟨?_, fun marks => by cases marks; exact absurd rfl same⟩
              have mapped : ({ c with dirty := Function.update c.dirty b' true } :
                  BlockCache).mapped b = c.mapped b := rfl
              exact .of_same mapped (Function.update_of_ne same _ _) (fun _ _ => rfl) fun _ _ => rfl
  | flush b' =>
      obtain ⟨ide, flushed, mem, -, disk⟩ := flushBlock_spec (b := b') good
      rw [exec, flushed] at run
      cases run
      refine ⟨tame_written mem fun i lt => ?_, fun marks => by cases marks⟩
      rw [disk b i lt]
      split
      · next both =>
          obtain ⟨rfl, dirty⟩ := both
          exact .inr ⟨dirty, rfl⟩
      · exact .inl rfl
  | sync =>
      obtain ⟨ide, synced, mem, -, disk⟩ := syncBelow_spec good c.nblocks
      rw [exec, fsSync, synced] at run
      cases run
      refine ⟨tame_written mem fun i lt => ?_, fun marks => by cases marks⟩
      rw [disk b i lt]
      split
      · next both => exact .inr ⟨both.2, rfl⟩
      · exact .inl rfl

/-! ### Whole runs -/

/-- What the calls so far have made of a block, which was in the state it has in `c₀`. -/
structure Kept (c₀ : BlockCache) (evs : List (BlockOp × Except FsErr Nat)) (c : BlockCache)
    (b : Nat) : Prop where
  marked : (∃ ev ∈ evs, Marks ev b) → c.mapped b = true ∧ c.dirty b = true
  tracked : (¬ ∃ ev ∈ evs, Changes ev b) → c₀.Tracked b → c.Tracked b
  unmarked : (¬ ∃ ev ∈ evs, Marks ev b) → c₀.dirty b = false →
    c.dirty b = false ∧ ∀ i < 1024, c.onDisk b i = c₀.onDisk b i

theorem Kept.snoc {ev : BlockOp × Except FsErr Nat} (kept : Kept c₀ evs c b)
    (tame : c.Tame c' b (Marks ev b) (Changes ev b))
    (now : Marks ev b → c'.mapped b = true ∧ c'.dirty b = true) :
    Kept c₀ (evs ++ [ev]) c' b where
  marked some_mark := by
    obtain ⟨ev', occurs, marks⟩ := some_mark
    rcases List.mem_append.mp occurs with before | last
    · obtain ⟨here, dirty⟩ := kept.marked ⟨ev', before, marks⟩
      obtain ⟨here', dirty'⟩ := tame.kept here
      exact ⟨here', dirty' dirty⟩
    · rw [List.mem_singleton.mp last] at marks
      exact now marks
  tracked none tracked := by
    have before : ¬ ∃ ev ∈ evs, Changes ev b := by
      intro earlier
      obtain ⟨ev', occurs, changes⟩ := earlier
      exact none ⟨ev', List.mem_append_left _ occurs, changes⟩
    have last : ¬ Changes ev b := fun changes => none ⟨ev, by simp, changes⟩
    exact tame.tracked last (kept.tracked before tracked)
  unmarked none clean := by
    have before : ¬ ∃ ev ∈ evs, Marks ev b := by
      intro earlier
      obtain ⟨ev', occurs, marks⟩ := earlier
      exact none ⟨ev', List.mem_append_left _ occurs, marks⟩
    have last : ¬ Marks ev b := fun marks => none ⟨ev, by simp, marks⟩
    obtain ⟨clean', disk⟩ := kept.unmarked before clean
    refine ⟨tame.clean last clean', fun i lt => ?_⟩
    rw [tame.disk clean' i lt, disk i lt]

/-- What is on the disk after a sync that ends a run of calls: of a block that was marked
dirty, or that nobody changed, the words it shows; of a block that nobody marked, whatever
was stored to it, the words that were there at the start. -/
theorem sync_durable (good : c₀.Good) (ref : c₀.Refines s) (run : Run Step c₀ evs c) :
    c.fsSync.1 = .ok () ∧ ∀ b < c₀.nblocks, ¬ c₀.IsBitmap b →
      ((∃ ev ∈ evs, Marks ev b) ∨ (¬ ∃ ev ∈ evs, Changes ev b) ∧ c₀.Tracked b →
        ∀ i < 1024, c.fsSync.2.onDisk b i = c.view b i) ∧
      ((¬ ∃ ev ∈ evs, Marks ev b) → c₀.dirty b = false →
        ∀ i < 1024, c.fsSync.2.onDisk b i = c₀.onDisk b i) := by
  obtain ⟨good', size, kept, -⟩ : c.Good ∧ c.nblocks = c₀.nblocks ∧
      (∀ b < c₀.nblocks, ¬ c₀.IsBitmap b → Kept c₀ evs c b) ∧ ∃ s, c.Refines s := by
    apply run.history fun evs c => c.Good ∧ c.nblocks = c₀.nblocks ∧
      (∀ b < c₀.nblocks, ¬ c₀.IsBitmap b → Kept c₀ evs c b) ∧ ∃ s, c.Refines s
    · exact ⟨good, rfl, fun b _ _ => ⟨fun none => (by simp at none), fun _ => id,
        fun _ clean => ⟨clean, fun _ _ => rfl⟩⟩, s, ref⟩
    · intro evs c₁ ev c₂ before step
      obtain ⟨good₁, size₁, kept₁, s₁, ref₁⟩ := before
      obtain ⟨good₂, s₂, -, ref₂⟩ := ref₁.step good₁ step
      refine ⟨good₂, (step.nblocks good₁).trans size₁, fun b inside plain => ?_, s₂, ref₂⟩
      have plain₁ : ¬ c₁.IsBitmap b := by
        unfold IsBitmap
        rw [size₁]
        exact plain
      obtain ⟨tame, now⟩ := step.tame good₁ (size₁ ▸ inside) plain₁
      exact (kept₁ b inside plain).snoc tame now
  obtain ⟨ide, synced, mem, -, disk⟩ := syncBelow_spec good' c.nblocks
  rw [fsSync, synced]
  refine ⟨rfl, fun b inside plain => ⟨fun saved i lt => ?_, fun none clean i lt => ?_⟩⟩
  · refine (disk b i lt).trans ?_
    have tracked : c.Tracked b := by
      rcases saved with marked | ⟨unchanged, tracked⟩
      · exact fun _ => .inl ((kept b inside plain).marked marked).2
      · exact (kept b inside plain).tracked unchanged tracked
    unfold view
    cases here : c.mapped b with
    | false =>
        rw [if_neg fun both => by simp [blockIsDirty, here] at both]
        rfl
    | true =>
        rcases tracked here with dirty | same
        · rw [if_pos ⟨size ▸ inside, by simp [blockIsDirty, here, dirty]⟩]
          rfl
        · split
          · rfl
          · exact (same i lt).symm
  · obtain ⟨clean', same⟩ := (kept b inside plain).unmarked none clean
    refine (disk b i lt).trans ?_
    rw [if_neg fun both => by simp [blockIsDirty, clean'] at both]
    exact same i lt

/-! ### A run -/

/-- What file operations see of the cache. -/
def fs (c : BlockCache) : Fs where
  nblocks := c.nblocks
  bitmap := c.bitmap
  diskBitmap := c.diskBitmap
  blk := c.view
  mapped := c.mapped
  answers := c.answers

theorem refines_fs (c : BlockCache) : c.Refines c.fs :=
  ⟨rfl, rfl, rfl, fun _ _ => rfl, fun _ _ => rfl, fun _ _ _ _ _ => rfl⟩

/-- A disk of eight blocks, with the first three in the cache; block 4 is in use, too. -/
def eightBlocks : BlockCache where
  ide := {
    mem := fun a => if a = blockBase 2 then 0xE8 else 0
    dev := ⟨0, 0, 0, fun _ => 0,
      fun a => if a = 2 * 1024 then 0xE8 else if a = 4 * 1024 then 9 else 0, 8 * 4096⟩ }
  nblocks := 8
  mapped := fun b => decide (b < 3)
  dirty := fun _ => false
  answers := []

theorem eightBlocks_good : eightBlocks.Good where
  size := Nat.le_refl _
  most := by decide
  room := by decide
  bitmapMapped b isBitmap := by
    have bound : b < 2 + nbitmap 8 := isBitmap.2
    have one : nbitmap 8 = 1 := rfl
    rw [one] at bound
    exact ⟨decide_eq_true bound, rfl⟩
  inside b here := by
    have low : b < 3 := of_decide_eq_true here
    exact Nat.lt_trans low (by decide)

/-- What a call does, told by the file system that it refines. -/
theorem Refines.next {op : BlockOp} {r : Except FsErr Nat} (ref : c.Refines s) (good : c.Good)
    (enabled : op.Enabled c) (result : (s.exec op).1 = r) :
    ∃ c', c.Step (op, r) c' ∧ c'.Good ∧ c'.Refines (s.exec op).2 := by
  have step : c.Step (op, (c.exec op).1) (c.exec op).2 := ⟨enabled, rfl⟩
  obtain ⟨good', s', same, ref'⟩ := ref.step good step
  rw [same] at result ⊢
  exact ⟨_, result ▸ step, good', ref'⟩

/-- A block is allocated, another read from the disk; both are written to, and the first is
marked. -/
def eightOps : List (BlockOp × Except FsErr Nat) :=
  [(.alloc, .ok 3), (.read 4, .ok 0), (.store 4 0 5, .ok 0), (.store 3 0 7, .ok 0),
    (.dirty 3, .ok 0), (.sync, .ok 0)]

theorem Refines.plain_of_size (ref : c.Refines s) (size : s.nblocks = 8) (high : 3 ≤ b) :
    ¬ c.IsBitmap b := by
  rintro ⟨-, below⟩
  rw [← ref.nblocks, size, show nbitmap 8 = 1 from rfl] at below
  omega

theorem eightBlocks_run : ∃ c, Run Step eightBlocks eightOps c ∧ c.view 3 0 = 7 ∧
    c.view 4 0 = 5 := by
  obtain ⟨c₁, alloc, good₁, ref₁⟩ :=
    @Refines.next _ _ .alloc (.ok 3) (refines_fs eightBlocks) eightBlocks_good trivial (by decide)
  obtain ⟨c₂, read, good₂, ref₂⟩ :=
    @Refines.next _ _ (.read 4) (.ok 0) ref₁ good₁ trivial (by decide)
  have here₂ : c₂.mapped 4 = true := by
    rw [← ref₂.mapped]
    decide
  obtain ⟨c₃, store, good₃, ref₃⟩ := @Refines.next _ _ (.store 4 0 5) (.ok 0) ref₂ good₂
    ⟨here₂, ref₂.plain_of_size rfl (by decide), by decide, by decide⟩ rfl
  have here₃ : c₃.mapped 3 = true := by
    rw [← ref₃.mapped]
    decide
  obtain ⟨c₄, store', good₄, ref₄⟩ := @Refines.next _ _ (.store 3 0 7) (.ok 0) ref₃ good₃
    ⟨here₃, ref₃.plain_of_size rfl (by decide), by decide, by decide⟩ rfl
  obtain ⟨c₅, dirty, good₅, ref₅⟩ :=
    @Refines.next _ _ (.dirty 3) (.ok 0) ref₄ good₄ (ref₄.plain_of_size rfl (by decide)) (by decide)
  obtain ⟨c₆, sync, -, ref₆⟩ := @Refines.next _ _ .sync (.ok 0) ref₅ good₅ trivial rfl
  have size : c₆.nblocks = 8 := ref₆.nblocks.symm
  refine ⟨c₆, (((((Run.single alloc).snoc read).snoc store).snoc store').snoc dirty).snoc sync,
    ?_, ?_⟩
  · rw [← ref₆.blk 3 (by omega) (ref₆.plain_of_size rfl (by decide)) 0 (by decide)]
    rfl
  · rw [← ref₆.blk 4 (by omega) (ref₆.plain_of_size rfl (by decide)) 0 (by decide)]
    rfl

theorem blockCache_refines_eightBlocks : ∃ c s, Run Step eightBlocks eightOps c ∧
    Run (fun (s : Fs) ev s' => s.exec ev.1 = (ev.2, s')) eightBlocks.fs eightOps s ∧
    c.Refines s := by
  obtain ⟨c, run, -⟩ := eightBlocks_run
  obtain ⟨-, s, same, ref⟩ := blockCache_refines eightBlocks_good (refines_fs _) run
  exact ⟨c, s, run, same, ref⟩

/-- The block that is marked is on the disk; the other one is as it was there. -/
theorem sync_durable_eightBlocks : ∃ c, Run Step eightBlocks eightOps c ∧
    c.fsSync.2.onDisk 3 0 = 7 ∧ c.view 4 0 = 5 ∧ c.fsSync.2.onDisk 4 0 = 9 := by
  obtain ⟨c, run, three, four⟩ := eightBlocks_run
  obtain ⟨-, blocks⟩ := sync_durable eightBlocks_good (refines_fs _) run
  have plain : ∀ b, 3 ≤ b → ¬ eightBlocks.IsBitmap b := fun b high =>
    (refines_fs eightBlocks).plain_of_size rfl high
  have saved := (blocks 3 (by decide) (plain 3 (by decide))).1 (.inl ⟨_, by simp [eightOps], rfl⟩)
    0 (by decide)
  have unmarked : ¬ ∃ ev ∈ eightOps, Marks ev 4 := by
    simp [eightOps, Marks]
  have left := (blocks 4 (by decide) (plain 4 (by decide))).2 unmarked rfl 0 (by decide)
  exact ⟨c, run, saved.trans three, four, left⟩

end BlockCache

end Mos
