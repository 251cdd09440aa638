import Mos.Lib.PackedBits
import Mos.Lib.Run
import Mos.Mmu

/-!
# The block allocator of the file system server

The server keeps the bitmap of the disk in its cache, a set bit for a free
block. `alloc_block_num` takes the lowest free block from 3 on and writes the
bitmap block it changed through to the disk; `free_block` changes the cached
bitmap only, also when `alloc_block` uses it to give back a block it could not
map.
-/

namespace Mos

/-! ## The server's state -/

/-- The error codes the file system functions return. Those of a system call
are passed on as they are; `panic` stands for `user_panic`, from which no
function returns. -/
inductive FsErr
  | sys (e : Err)
  | noDisk
  | badPath
  | fileExists
  | notFound
  | panic
  deriving DecidableEq, Repr

/-- `BIT2BLK`: the blocks that one block of the bitmap describes. -/
def BIT2BLK : Nat := 32768

/-- `DISKMAX / BY2BLK`. -/
def DISKMAX_BLOCKS : Nat := 0x40000000 / 4096

/-- `FS_MAGIC`. -/
def FS_MAGIC : Word := 0x68286097

/-- The disk and its cache. `blk b` are the words of block `b` as
`read_block` shows them: those of the cache page while there is one, else those
on the disk. The bitmap, which starts at block 2, is one array of words, and so
is its copy on the disk. `answers` are the results of the calls of
`syscall_mem_alloc` to come; a call beyond them succeeds. -/
structure Fs where
  nblocks : Nat
  bitmap : Nat → Word
  diskBitmap : Nat → Word
  blk : Nat → Nat → Word
  mapped : Nat → Bool
  answers : List (Except Err Unit)

namespace Fs

variable {s s' : Fs} {b c : Nat}

/-- `bitmap[blockno / 32] & (1 << (blockno % 32))` -/
def bit (s : Fs) (blockno : Nat) : Bool := PackedBits.test s.bitmap blockno

def diskBit (s : Fs) (blockno : Nat) : Bool := PackedBits.test s.diskBitmap blockno

def blockIsFree (s : Fs) (blockno : Nat) : Bool :=
  if s.nblocks ≤ blockno then false
  else s.bit blockno

/-- The bitmap marks the block as used. -/
def InUse (s : Fs) (blockno : Nat) : Prop := blockno < s.nblocks ∧ s.blockIsFree blockno = false

/-- The bitmap on the disk marks the block as used. -/
def InUseOnDisk (s : Fs) (blockno : Nat) : Prop :=
  blockno < s.nblocks ∧ s.diskBit blockno = false

def freeBlock (s : Fs) (blockno : Nat) : Fs :=
  if blockno = 0 ∨ s.nblocks ≤ blockno then s
  else { s with bitmap := PackedBits.set s.bitmap blockno }

/-- `syscall_mem_alloc(0, diskaddr(blockno), PTE_D | PTE_V)`: the page it maps
is filled with zeros. -/
def sysMemAllocBlock (s : Fs) (blockno : Nat) : Except FsErr Unit × Fs :=
  match s.answers with
  | .error e :: rest => (.error (.sys e), { s with answers := rest })
  | answers =>
      (.ok (), { s with
        answers := answers.tail
        mapped := Function.update s.mapped blockno true
        blk := Function.update s.blk blockno fun _ => 0 })

def mapBlock (s : Fs) (blockno : Nat) : Except FsErr Unit × Fs :=
  if s.mapped blockno then (.ok (), s)
  else s.sysMemAllocBlock blockno

/-- `write_block(bitmapBlock + 2)`: the words of one block of the bitmap go to
the disk. -/
def writeBitmapBlock (s : Fs) (bitmapBlock : Nat) : Except FsErr Unit × Fs :=
  if s.mapped (bitmapBlock + 2) then
    (.ok (), { s with
      diskBitmap := fun i =>
        if i / 1024 = bitmapBlock then s.bitmap i else s.diskBitmap i })
  else (.error .panic, s)

/-- The loop of `alloc_block_num` from `blockno` on, with the blocks left to
look at. -/
def allocBlockNumFrom (s : Fs) : Nat → Nat → Except FsErr Nat × Fs
  | _, 0 => (.error .noDisk, s)
  | blockno, left + 1 =>
      if s.bit blockno then
        match { s with bitmap := PackedBits.clear s.bitmap blockno }.writeBitmapBlock
            (blockno / BIT2BLK) with
        | (.error e, s) => (.error e, s)
        | (.ok (), s) => (.ok blockno, s)
      else s.allocBlockNumFrom (blockno + 1) left

def allocBlockNum (s : Fs) : Except FsErr Nat × Fs := s.allocBlockNumFrom 3 (s.nblocks - 3)

def allocBlock (s : Fs) : Except FsErr Nat × Fs :=
  match s.allocBlockNum with
  | (.error e, s) => (.error e, s)
  | (.ok bno, s) =>
      match s.mapBlock bno with
      | (.error e, s) => (.error e, s.freeBlock bno)
      | (.ok (), s) => (.ok bno, s)

/-! ## Mounting -/

/-- The blocks of the bitmap, `s_nblocks / BIT2BLK + 1`. -/
def nbitmap (nblocks : Nat) : Nat := nblocks / BIT2BLK + 1

/-- `read_super`, on the first two words of block 1; `none` is a panic. -/
def readSuper (magic nblocks : Word) : Option Nat :=
  if magic ≠ FS_MAGIC then none
  else if DISKMAX_BLOCKS < nblocks.toNat then none
  else some nblocks.toNat

/-- `read_bitmap`, after `check_write_block` has left blocks 0 and 1 in the
cache. `none` is a panic: of `read_block`, on a bitmap block that is not on the
disk, or of an assertion. -/
def readBitmap (nblocks : Nat) (diskBitmap : Nat → Word) (blk : Nat → Nat → Word)
    (answers : List (Except Err Unit)) : Option Fs :=
  let s : Fs :=
    { nblocks, bitmap := diskBitmap, diskBitmap, blk, answers
      mapped := fun b => decide (b < nbitmap nblocks + 2) }
  if nblocks ≤ nbitmap nblocks - 1 + 2 then none
  else if s.blockIsFree 0 || s.blockIsFree 1 then none
  else if (List.range (nbitmap nblocks)).any fun i => s.blockIsFree (i + 2) then none
  else some s

/-! ## What one call does -/

@[simp] theorem blockIsFree_of_lt (inside : b < s.nblocks) : s.blockIsFree b = s.bit b :=
  if_neg (Nat.not_le.mpr inside)

@[simp] theorem blockIsFree_of_le (outside : s.nblocks ≤ b) : s.blockIsFree b = false :=
  if_pos outside

theorem lt_of_blockIsFree (free : s.blockIsFree b = true) : b < s.nblocks := by
  by_contra outside
  rw [blockIsFree_of_le (Nat.not_lt.mp outside)] at free
  cases free

/-- The bitmap blocks stay in the cache, and a block that the cached bitmap
calls used is used on the disk. -/
structure Synced (s : Fs) : Prop where
  bitmapMapped : ∀ i < nbitmap s.nblocks, s.mapped (i + 2) = true
  writtenThrough : ∀ b < s.nblocks, s.bit b = false → s.diskBit b = false

/-- The state after block `b` has been marked used, in memory and on the disk. -/
def takeBlock (s : Fs) (b : Nat) : Fs :=
  { s with
    bitmap := PackedBits.clear s.bitmap b
    diskBitmap := fun i =>
      if i / 1024 = b / BIT2BLK then PackedBits.clear s.bitmap b i else s.diskBitmap i }

@[simp] theorem bit_takeBlock : (s.takeBlock b).bit c = (!decide (c = b) && s.bit c) :=
  PackedBits.test_clear (by decide)

@[simp] theorem blockIsFree_takeBlock :
    (s.takeBlock b).blockIsFree c = (!decide (c = b) && s.blockIsFree c) := by
  by_cases outside : s.nblocks ≤ c
  · simp [blockIsFree, takeBlock, outside]
  · have after : (s.takeBlock b).nblocks = s.nblocks := rfl
    simp [blockIsFree, after, outside]

/-- The bits of one bitmap block are those of the words written through. -/
theorem diskBit_takeBlock : (s.takeBlock b).diskBit c =
    if c / BIT2BLK = b / BIT2BLK then (s.takeBlock b).bit c else s.diskBit c := by
  have words : c / 32 / 1024 = c / BIT2BLK := by
    rw [Nat.div_div_eq_div_mul]
    rfl
  simp only [diskBit, bit, PackedBits.test, takeBlock, words]
  split <;> rfl

theorem Synced.takeBlock (sync : s.Synced) : (s.takeBlock b).Synced := by
  refine ⟨sync.bitmapMapped, fun c inside used => ?_⟩
  rw [diskBit_takeBlock]
  split
  · exact used
  · next other =>
      have differ : c ≠ b := fun same => other (by rw [same])
      apply sync.writtenThrough c inside
      simpa [differ] using used

/-- Under the invariant the loop finds the lowest free block from its start on,
or none is free. -/
theorem allocBlockNumFrom_spec (sync : s.Synced) (left : Nat) :
    ∀ blockno, blockno + left ≤ s.nblocks →
      (s.allocBlockNumFrom blockno left = (.error .noDisk, s) ∧
        ∀ b, blockno ≤ b → b < blockno + left → s.bit b = false) ∨
      ∃ b, blockno ≤ b ∧ b < blockno + left ∧ s.bit b = true ∧
        (∀ c, blockno ≤ c → c < b → s.bit c = false) ∧
        s.allocBlockNumFrom blockno left = (.ok b, s.takeBlock b) := by
  induction left with
  | zero =>
      intro blockno _
      exact Or.inl ⟨rfl, fun b low high => absurd low (by omega)⟩
  | succ left ih =>
      intro blockno bound
      cases here : s.bit blockno with
      | true =>
          refine Or.inr ⟨blockno, Nat.le_refl _, by omega, here, fun c low high => ?_, ?_⟩
          · omega
          have index : blockno / BIT2BLK < nbitmap s.nblocks :=
            Nat.lt_succ_of_le (Nat.div_le_div_right (by omega))
          have cached := sync.bitmapMapped _ index
          simp only [allocBlockNumFrom, here, if_true, writeBitmapBlock, cached]
          rfl
      | false =>
          simp only [allocBlockNumFrom, here, Bool.false_eq_true, if_false]
          have from_here : ∀ c, blockno ≤ c → c = blockno ∨ blockno + 1 ≤ c := fun c low =>
            (Nat.eq_or_lt_of_le low).imp_left Eq.symm
          obtain ⟨full, none⟩ | ⟨b, low, high, free, lowest, run⟩ := ih (blockno + 1) (by omega)
          · refine Or.inl ⟨full, fun b low high => ?_⟩
            obtain rfl | above := from_here b low
            · exact here
            · exact none b above (by omega)
          · refine Or.inr ⟨b, by omega, by omega, free, fun c low' below => ?_, run⟩
            obtain rfl | above := from_here c low'
            · exact here
            · exact lowest c above below

/-- The lowest free block from 3 on. -/
def LowestFree (s : Fs) (b : Nat) : Prop :=
  3 ≤ b ∧ s.blockIsFree b = true ∧ ∀ c, 3 ≤ c → c < b → s.blockIsFree c = false

/-- `alloc_block_num` takes the lowest free block from 3 on, and there is none when
it reports a full disk. -/
theorem allocBlockNum_spec (sync : s.Synced) :
    (s.allocBlockNum = (.error .noDisk, s) ∧ ∀ b, 3 ≤ b → s.blockIsFree b = false) ∨
      ∃ b, s.LowestFree b ∧ s.allocBlockNum = (.ok b, s.takeBlock b) := by
  by_cases small : s.nblocks ≤ 3
  · refine Or.inl ⟨?_, fun b low => blockIsFree_of_le (by omega)⟩
    have empty : s.nblocks - 3 = 0 := by omega
    rw [allocBlockNum, empty]
    rfl
  · obtain ⟨full, none⟩ | ⟨b, low, high, free, lowest, run⟩ :=
      allocBlockNumFrom_spec sync (s.nblocks - 3) 3 (by omega)
    · refine Or.inl ⟨full, fun b low => ?_⟩
      by_cases inside : b < s.nblocks
      · rw [blockIsFree_of_lt inside]
        exact none b low (by omega)
      · exact blockIsFree_of_le (by omega)
    · refine Or.inr ⟨b, ⟨low, ?_, fun c low' below => ?_⟩, run⟩
      · rw [blockIsFree_of_lt (by omega)]
        exact free
      · rw [blockIsFree_of_lt (by omega)]
        exact lowest c low' below

/-- What a map request leaves alone: everything but the cache. -/
theorem mapBlock_keeps (s : Fs) (b : Nat) :
    (s.mapBlock b).2.nblocks = s.nblocks ∧ (s.mapBlock b).2.bitmap = s.bitmap ∧
      (s.mapBlock b).2.diskBitmap = s.diskBitmap ∧
      ∀ c, s.mapped c = true → (s.mapBlock b).2.mapped c = true := by
  unfold mapBlock
  split
  · exact ⟨rfl, rfl, rfl, fun c cached => cached⟩
  · unfold sysMemAllocBlock
    split
    · exact ⟨rfl, rfl, rfl, fun c cached => cached⟩
    · refine ⟨rfl, rfl, rfl, fun c cached => ?_⟩
      by_cases same : c = b
      · rw [same]
        exact Function.update_self ..
      · rw [← cached]
        exact Function.update_of_ne same ..

/-- A map request fails with the error of the system call only. -/
theorem mapBlock_error {e : FsErr} (fails : (s.mapBlock b).1 = .error e) : ∃ e', e = .sys e' := by
  unfold mapBlock at fails
  split at fails
  · cases fails
  · unfold sysMemAllocBlock at fails
    split at fails
    · cases fails
      exact ⟨_, rfl⟩
    · cases fails

theorem Synced.mapBlock (sync : s.Synced) : (s.mapBlock b).2.Synced := by
  obtain ⟨size, cachedBits, diskBits, kept⟩ := mapBlock_keeps s b
  refine ⟨fun i low => kept _ (sync.bitmapMapped i (size ▸ low)), fun c inside used => ?_⟩
  unfold diskBit
  rw [diskBits]
  unfold bit at used
  rw [cachedBits] at used
  exact sync.writtenThrough c (size ▸ inside) used

@[simp] theorem blockIsFree_mapBlock : (s.mapBlock b).2.blockIsFree c = s.blockIsFree c := by
  obtain ⟨size, cachedBits, -, -⟩ := mapBlock_keeps s b
  unfold blockIsFree bit
  rw [size, cachedBits]

theorem bit_freeBlock (low : b ≠ 0) (inside : b < s.nblocks) :
    (s.freeBlock b).bit c = (decide (c = b) || s.bit c) := by
  unfold freeBlock
  rw [if_neg (by omega)]
  exact PackedBits.test_set (by decide)

@[simp] theorem nblocks_freeBlock : (s.freeBlock b).nblocks = s.nblocks := by
  unfold freeBlock
  split <;> rfl

/-- `free_block` makes exactly that block free. -/
theorem blockIsFree_freeBlock (low : b ≠ 0) (inside : b < s.nblocks) :
    (s.freeBlock b).blockIsFree c = (decide (c = b) || s.blockIsFree c) := by
  by_cases outside : s.nblocks ≤ c
  · have differ : c ≠ b := by omega
    simp [blockIsFree, outside, differ]
  · simp [blockIsFree, outside, bit_freeBlock low inside]

theorem Synced.freeBlock (sync : s.Synced) (low : b ≠ 0) (inside : b < s.nblocks) :
    (s.freeBlock b).Synced := by
  have fields : (s.freeBlock b).mapped = s.mapped ∧ (s.freeBlock b).diskBitmap = s.diskBitmap := by
    unfold Fs.freeBlock
    split <;> exact ⟨rfl, rfl⟩
  refine ⟨?_, fun c insideC used => ?_⟩
  · rw [fields.1, nblocks_freeBlock]
    exact sync.bitmapMapped
  · unfold diskBit
    rw [fields.2]
    rw [bit_freeBlock low inside] at used
    rw [nblocks_freeBlock] at insideC
    exact sync.writtenThrough c insideC (Bool.or_eq_false_iff.mp used).2

/-- The three ways `alloc_block` returns: with a block that was free, on a full
disk, or with the error of the map request after giving the block back. -/
theorem allocBlock_spec (sync : s.Synced) :
    (s.allocBlock = (.error .noDisk, s) ∧ ∀ b, 3 ≤ b → s.blockIsFree b = false) ∨
      ∃ b, s.LowestFree b ∧
        ((s.allocBlock = (.ok b, ((s.takeBlock b).mapBlock b).2) ∧
            ((s.takeBlock b).mapBlock b).1 = .ok ()) ∨
          ∃ e, s.allocBlock =
              (.error (.sys e), (((s.takeBlock b).mapBlock b).2.freeBlock b)) ∧
            ((s.takeBlock b).mapBlock b).1 = .error (.sys e)) := by
  obtain ⟨full, none⟩ | ⟨b, lowest, run⟩ := allocBlockNum_spec sync
  · refine Or.inl ⟨?_, none⟩
    rw [allocBlock, full]
  · refine Or.inr ⟨b, lowest, ?_⟩
    rw [allocBlock, run]
    rcases mapped : (s.takeBlock b).mapBlock b with ⟨result, after⟩
    cases result with
    | ok _ => exact Or.inl ⟨by simp only [mapped], rfl⟩
    | error e =>
        obtain ⟨e', rfl⟩ := mapBlock_error (s := s.takeBlock b) (b := b) (e := e) (by rw [mapped])
        exact Or.inr ⟨e', by simp [mapped], rfl⟩

/-! ## Runs of the allocator -/

/-- A call and, for an allocation, its result. -/
inductive AllocEvent
  | alloc (r : Except FsErr Nat)
  | free (blockno : Nat)

/-- One call; `free_block` is applied to blocks in use only. -/
inductive AllocStep : Fs → AllocEvent → Fs → Prop
  | alloc (s : Fs) : AllocStep s (.alloc s.allocBlock.1) s.allocBlock.2
  | free {s : Fs} {b : Nat} : b ≠ 0 → s.InUse b → AllocStep s (.free b) (s.freeBlock b)

/-- The blocks that calls have handed out and that were not freed since. -/
def held : List AllocEvent → Nat → Bool
  | [], _ => false
  | .alloc (.ok b) :: rest, c => decide (c = b) || held rest c
  | .alloc (.error _) :: rest, c => held rest c
  | .free b :: rest, c => !decide (c = b) && held rest c

theorem Synced.of_readBitmap {nblocks : Nat} {diskBitmap : Nat → Word} {blk : Nat → Nat → Word}
    {answers : List (Except Err Unit)}
    (mounted : readBitmap nblocks diskBitmap blk answers = some s) :
    s.Synced ∧ s.nblocks = nblocks := by
  unfold readBitmap at mounted
  dsimp only at mounted
  split at mounted
  · cases mounted
  split at mounted
  · cases mounted
  split at mounted
  · cases mounted
  cases mounted
  refine ⟨⟨fun i low => ?_, fun _ _ used => used⟩, rfl⟩
  exact decide_eq_true (Nat.add_lt_add_right low 2)

/-- What one allocation does to the set of free blocks. -/
structure AllocEffect (s : Fs) (r : Except FsErr Nat) (s' : Fs) : Prop where
  nblocks : s'.nblocks = s.nblocks
  /-- A block handed out was free, and is the only one that changed. -/
  taken : ∀ b, r = .ok b → 3 ≤ b ∧ b < s.nblocks ∧ s.blockIsFree b = true ∧
    ∀ c, s'.blockIsFree c = (!decide (c = b) && s.blockIsFree c)
  full : r = .error .noDisk ↔ ∀ b, 3 ≤ b → s.blockIsFree b = false
  /-- A full disk or the error of the map request, which both leave the set as
  it was. -/
  failed : ∀ e, r = .error e → (e = .noDisk ∨ ∃ e', e = .sys e') ∧
    ∀ c, s'.blockIsFree c = s.blockIsFree c

theorem allocBlock_effect (sync : s.Synced) :
    AllocEffect s s.allocBlock.1 s.allocBlock.2 ∧ s.allocBlock.2.Synced := by
  obtain ⟨run, none⟩ | ⟨b, ⟨low, free, -⟩, ⟨run, -⟩ | ⟨e, run, -⟩⟩ := allocBlock_spec sync
  · rw [run]
    refine ⟨⟨rfl, fun b given => (by cases given), ⟨fun _ => none, fun _ => rfl⟩, ?_⟩, sync⟩
    intro e error
    cases error
    exact ⟨Or.inl rfl, fun _ => rfl⟩
  · rw [run]
    have inside := lt_of_blockIsFree free
    refine ⟨⟨(mapBlock_keeps _ b).1, ?_, ⟨fun full => (by cases full), ?_⟩, ?_⟩,
      sync.takeBlock.mapBlock⟩
    · intro c given
      cases given
      exact ⟨low, inside, free, fun c => by simp⟩
    · intro none
      rw [none b low] at free
      cases free
    · intro e error
      cases error
  · rw [run]
    have inside := lt_of_blockIsFree free
    have size := (mapBlock_keeps (s.takeBlock b) b).1
    have inside' : b < ((s.takeBlock b).mapBlock b).2.nblocks := size ▸ inside
    have nonzero : b ≠ 0 := by omega
    refine ⟨⟨?_, fun c given => (by cases given), ⟨fun full => (by cases full), ?_⟩, ?_⟩,
      sync.takeBlock.mapBlock.freeBlock nonzero inside'⟩
    · rw [nblocks_freeBlock, size]
      rfl
    · intro none
      rw [none b low] at free
      cases free
    · intro e' error
      cases error
      refine ⟨Or.inr ⟨e, rfl⟩, fun c => ?_⟩
      rw [blockIsFree_freeBlock nonzero inside', blockIsFree_mapBlock, blockIsFree_takeBlock]
      by_cases same : c = b
      · simp [same, free]
      · simp [same]

theorem AllocStep.synced {e : AllocEvent} (step : AllocStep s e s') (sync : s.Synced) :
    s'.Synced ∧ s'.nblocks = s.nblocks := by
  cases step with
  | alloc => exact ⟨(allocBlock_effect sync).2, (allocBlock_effect sync).1.nblocks⟩
  | free nonzero used => exact ⟨sync.freeBlock nonzero used.1, nblocks_freeBlock⟩

theorem synced_of_run {es : List AllocEvent} (run : Run AllocStep s es s') (sync : s.Synced) :
    s'.Synced ∧ s'.nblocks = s.nblocks := by
  refine run.invariant (fun t => t.Synced ∧ t.nblocks = s.nblocks) ⟨sync, rfl⟩ ?_
  intro s₁ e s₂ inv step
  obtain ⟨sync', size⟩ := step.synced inv.1
  exact ⟨sync', size.trans inv.2⟩

/-- The blocks handed out and not freed since are marked used. -/
theorem inUse_of_held {es : List AllocEvent} (run : Run AllocStep s es s') (sync : s.Synced) :
    ∀ c, held es.reverse c = true → s'.InUse c := by
  induction run with
  | refl => exact fun c none => by cases none
  | @snoc s₁ s₂ es e first step ih =>
      have sync₁ := (synced_of_run first sync).1
      intro c
      rw [List.reverse_append]
      cases step with
      | alloc =>
          obtain ⟨effect, -⟩ := allocBlock_effect sync₁
          cases result : s₁.allocBlock.1 with
          | ok b =>
              obtain ⟨low, inside, free, after⟩ := effect.taken b result
              intro taken
              have cases : c = b ∨ held es.reverse c = true := by
                simpa [held, result] using taken
              refine ⟨?_, ?_⟩
              · rw [effect.nblocks]
                obtain rfl | before := cases
                · exact inside
                · exact (ih c before).1
              · rw [after c]
                obtain rfl | before := cases
                · simp
                · simp [(ih c before).2]
          | error e =>
              intro before
              have used := ih c (by simpa [held, result] using before)
              exact ⟨effect.nblocks ▸ used.1, ((effect.failed e result).2 c).trans used.2⟩
      | @free b nonzero used =>
          intro before
          have both : c ≠ b ∧ held es.reverse c = true := by simpa [held] using before
          have kept := ih c both.2
          refine ⟨nblocks_freeBlock.symm ▸ kept.1, ?_⟩
          rw [blockIsFree_freeBlock nonzero used.1, kept.2]
          simp [both.1]

/-- The block allocator, on every disk that mounts and after any sequence of
its calls: what an allocation returns, what a release does, and that the bitmap
on the disk calls no used block free. -/
theorem block_allocator (magic size : Word) (nblocks : Nat) (diskBitmap : Nat → Word)
    (blk : Nat → Nat → Word) (answers : List (Except Err Unit)) (s₀ s : Fs)
    (es : List AllocEvent) (super : readSuper magic size = some nblocks)
    (mounted : readBitmap nblocks diskBitmap blk answers = some s₀)
    (run : Run AllocStep s₀ es s) :
    s.nblocks = size.toNat ∧
    AllocEffect s s.allocBlock.1 s.allocBlock.2 ∧
    (∀ b, s.allocBlock.1 = .ok b → held es.reverse b = false) ∧
    (∀ b, b ≠ 0 → s.InUse b →
      ∀ c, (s.freeBlock b).blockIsFree c = (decide (c = b) || s.blockIsFree c)) ∧
    ∀ b, s.InUse b → s.InUseOnDisk b := by
  obtain ⟨sync₀, size₀⟩ := Synced.of_readBitmap mounted
  obtain ⟨sync, same⟩ := synced_of_run run sync₀
  obtain ⟨effect, -⟩ := allocBlock_effect sync
  have accepted : nblocks = size.toNat := by
    unfold readSuper at super
    split at super
    · cases super
    split at super
    · cases super
    exact (Option.some.inj super).symm
  refine ⟨same.trans (size₀.trans accepted), effect, fun b given => ?_,
    fun b nonzero used c => blockIsFree_freeBlock nonzero used.1, fun b used => ?_⟩
  · obtain ⟨-, -, free, -⟩ := effect.taken b given
    cases taken : held es.reverse b
    · rfl
    · have used := (inUse_of_held run sync₀ b taken).2
      rw [free] at used
      cases used
  · refine ⟨used.1, sync.writtenThrough b used.1 ?_⟩
    rw [← blockIsFree_of_lt used.1]
    exact used.2

/-- A disk of eight blocks, of which those from 3 on are free. -/
def eightBlocks : Fs where
  nblocks := 8
  bitmap := fun _ => 0xF8
  diskBitmap := fun _ => 0xF8
  blk := fun _ _ => 0
  mapped := fun b => decide (b < nbitmap 8 + 2)
  answers := []

/-- The same, with memory for the pages of two more blocks. -/
def scantBlocks : Fs := { eightBlocks with answers := [.ok (), .ok (), .error .noMem] }

/-- Blocks 3 and 4 are handed out, 3 is freed and handed out again, and there is no page for
block 5, which goes back. -/
theorem block_allocator_scantBlocks :
    ∃ s, Run AllocStep scantBlocks [.alloc (.ok 3), .alloc (.ok 4), .free 3, .alloc (.ok 3),
      .alloc (.error (.sys .noMem))] s ∧ AllocEffect s s.allocBlock.1 s.allocBlock.2 ∧
      s.blockIsFree 5 = true ∧ ∀ b, s.InUse b → s.InUseOnDisk b := by
  have first : AllocStep scantBlocks (.alloc (.ok 3)) _ := .alloc _
  have second : AllocStep scantBlocks.allocBlock.2 (.alloc (.ok 4)) _ := .alloc _
  have third : AllocStep scantBlocks.allocBlock.2.allocBlock.2 (.free 3) _ :=
    .free (by decide) ⟨by decide, by decide⟩
  have fourth : AllocStep (scantBlocks.allocBlock.2.allocBlock.2.freeBlock 3) (.alloc (.ok 3)) _ :=
    .alloc _
  have fifth : AllocStep (scantBlocks.allocBlock.2.allocBlock.2.freeBlock 3).allocBlock.2
      (.alloc (.error (.sys .noMem))) _ := .alloc _
  have run := ((((Run.single first).snoc second).snoc third).snoc fourth).snoc fifth
  obtain ⟨-, effect, -, -, written⟩ := block_allocator FS_MAGIC 8 8 (fun _ => 0xF8)
    (fun _ _ => 0) scantBlocks.answers scantBlocks _ _ (by decide) rfl run
  exact ⟨_, run, effect, by decide, written⟩

end Fs

end Mos
