import Mos.BlockCache
import Mos.Fsformat

/-!
# What a close leaves on the disk

A client that closes a file first asks the server, page by page, to mark the file's
blocks dirty, and then to close it, upon which the server writes the marked blocks of
the file and of its directory. The pages that the client wrote to are those of the
cache: after `file_close` of `user/lib/file.c` the disk has the file as the
client left it (`close_writes_back`).
-/

namespace Mos

namespace BlockCache

variable {c c' c'' : BlockCache} {f d : FilePtr} {b i k n left : Nat}

/-! ## The functions -/

/-- A word in the page of a block. -/
def word (c : BlockCache) (ptr : Nat × Nat) : Word := c.ide.mem (blockBase ptr.1 + ptr.2)

/-- `file_block_walk` with `alloc` 0, for a structure in the cache. -/
def fileBlockWalk (c : BlockCache) (f : FilePtr) (filebno : Nat) :
    Except FsErr (Nat × Nat) × BlockCache :=
  if filebno < NDIRECT then (.ok (f.1, f.2 + 34 + filebno), c)
  else if filebno < NINDIRECT then
    let index := (c.word (Fs.indirectPtr f)).toNat
    if index = 0 then (.error .notFound, c)
    else match c.readBlock index with
      | (.error e, c) => (.error e, c)
      | (.ok (), c) => (.ok (index, filebno), c)
  else (.error (.sys .inval), c)

/-- `file_map_block` with `alloc` 0. -/
def fileMapBlock (c : BlockCache) (f : FilePtr) (filebno : Nat) : Except FsErr Nat × BlockCache :=
  match c.fileBlockWalk f filebno with
  | (.error e, c) => (.error e, c)
  | (.ok ptr, c) =>
      if c.word ptr = 0 then (.error .notFound, c) else (.ok (c.word ptr).toNat, c)

/-- `file_dirty` -/
def fileDirty (c : BlockCache) (f : FilePtr) (offset : Nat) : Except FsErr Unit × BlockCache :=
  match c.fileMapBlock f (offset / 4096) with
  | (.error e, c) => (.error e, c)
  | (.ok diskbno, c) => c.dirtyBlock diskbno

/-- The loop of `file_flush` over `left` blocks from `bno` on. -/
def flushLoop (c : BlockCache) (f : FilePtr) : Nat → Nat → Except FsErr Unit × BlockCache
  | _, 0 => (.ok (), c)
  | bno, left + 1 =>
      match c.fileMapBlock f bno with
      | (.error .panic, c) => (.error .panic, c)
      | (.error _, c) => c.flushLoop f (bno + 1) left
      | (.ok diskno, c) =>
          match c.flushBlock diskno with
          | (.error e, c) => (.error e, c)
          | (.ok (), c) => c.flushLoop f (bno + 1) left

/-- `file_flush` -/
def fileFlush (c : BlockCache) (f : FilePtr) : Except FsErr Unit × BlockCache :=
  c.flushLoop f 0 ((c.word (Fs.sizePtr f)).toNat / 4096 + 1)

/-- `file_close` of the server; `dir` is `f->f_dir`. -/
def fileClose (c : BlockCache) (f : FilePtr) (dir : Option FilePtr) :
    Except FsErr Unit × BlockCache :=
  match c.fileFlush f with
  | (.error e, c) => (.error e, c)
  | (.ok (), c) =>
      match dir with
      | none => (.ok (), c)
      | some d => c.fileFlush d

/-- The calls of `fsipc_dirty` in `file_close` of the client, from the offset `i` on, which is
a `u_int`; there is no result if the loop does not end within `fuel` rounds. It does not look
at what the calls return; a server that has stopped answers none. -/
def dirtyLoop (c : BlockCache) (f : FilePtr) (size : Word) :
    Nat → Word → Option (Except FsErr Unit × BlockCache)
  | 0, _ => none
  | fuel + 1, i =>
      if i < size then
        match c.fileDirty f i.toNat with
        | (.error .panic, c) => some (.error .panic, c)
        | (_, c) => c.dirtyLoop f size fuel (i + 4096)
      else some (.ok (), c)

/-- `file_close` of the client, for its copy `size` of the file's size, up to what
`fsipc_close` returns. -/
def closeFile (c : BlockCache) (f : FilePtr) (dir : Option FilePtr) (size : Word) (fuel : Nat) :
    Option (Except FsErr Unit × BlockCache) :=
  match c.dirtyLoop f size fuel 0 with
  | none => none
  | some (.error e, c) => some (.error e, c)
  | some (.ok (), c) => some (c.fileClose f dir)

/-! ## Steps that change nothing but the disk -/

/-- What the server sees stays as it is; a block on the disk stays, or becomes what the
server sees. -/
structure Steady (c c' : BlockCache) : Prop where
  nblocks : c'.nblocks = c.nblocks
  good : c'.Good
  mapped : ∀ b, c.mapped b = true → c'.mapped b = true
  dirty : ∀ b, c.blockIsDirty b = true → c'.blockIsDirty b = true
  view : ∀ b < c.nblocks, ¬ c.IsBitmap b → ∀ i < 1024, c'.view b i = c.view b i
  free : ∀ b, c'.blockIsFree b = c.blockIsFree b
  disk : ∀ b < c.nblocks, ¬ c.IsBitmap b → (∀ i < 1024, c'.onDisk b i = c.onDisk b i) ∨
    ∀ i < 1024, c'.onDisk b i = c.view b i

/-- The block is marked dirty, or on the disk as the server sees it. -/
def Marked (c : BlockCache) (b : Nat) : Prop :=
  c.blockIsDirty b = true ∨ ∀ i < 1024, c.onDisk b i = c.view b i

theorem Steady.refl (good : c.Good) : c.Steady c :=
  ⟨rfl, good, fun _ => id, fun _ => id, fun _ _ _ _ _ => rfl, fun _ => rfl,
    fun _ _ _ => .inl fun _ _ => rfl⟩

theorem Steady.bitmap (steady : c.Steady c') : c'.IsBitmap b ↔ c.IsBitmap b := by
  unfold IsBitmap
  rw [steady.nblocks]

theorem Steady.trans (first : c.Steady c') (second : c'.Steady c'') : c.Steady c'' := by
  refine ⟨second.nblocks.trans first.nblocks, second.good,
    fun b here => second.mapped b (first.mapped b here),
    fun b known => second.dirty b (first.dirty b known), fun b inside plain i lt => ?_,
    fun b => (second.free b).trans (first.free b), fun b inside plain => ?_⟩
  · rw [second.view b (first.nblocks ▸ inside) (mt first.bitmap.mp plain) i lt,
      first.view b inside plain i lt]
  · have inside' : b < c'.nblocks := first.nblocks ▸ inside
    have plain' := mt first.bitmap.mp plain
    rcases second.disk b inside' plain' with same | shown
    · rcases first.disk b inside plain with same' | shown'
      · exact .inl fun i lt => (same i lt).trans (same' i lt)
      · exact .inr fun i lt => (same i lt).trans (shown' i lt)
    · exact .inr fun i lt => (shown i lt).trans (first.view b inside plain i lt)

/-- What is on the disk as the server sees it stays so. -/
theorem Steady.saved (steady : c.Steady c') (inside : b < c.nblocks) (plain : ¬ c.IsBitmap b)
    (saved : ∀ i < 1024, c.onDisk b i = c.view b i) : ∀ i < 1024, c'.onDisk b i = c'.view b i := by
  intro i lt
  rw [steady.view b inside plain i lt]
  rcases steady.disk b inside plain with same | shown
  · exact (same i lt).trans (saved i lt)
  · exact shown i lt

theorem Steady.marked (steady : c.Steady c') (inside : b < c.nblocks) (plain : ¬ c.IsBitmap b)
    (marked : c.Marked b) : c'.Marked b :=
  marked.imp (steady.dirty b) (steady.saved inside plain)

/-- Where the server sees what it saw before. -/
theorem same_of_refines {m : Nat → Bool} (ref : c'.Refines (c.fs.withMapped m)) :
    c'.nblocks = c.nblocks ∧
      (∀ b < c.nblocks, ¬ c.IsBitmap b → ∀ i < 1024, c'.view b i = c.view b i) ∧
      ∀ b, c'.blockIsFree b = c.blockIsFree b := by
  have size : c'.nblocks = c.nblocks := ref.nblocks.symm
  refine ⟨size, fun b inside plain i lt => ?_, fun b => ?_⟩
  · refine (ref.blk b (size ▸ inside) ?_ i lt).symm
    unfold IsBitmap
    rw [size]
    exact plain
  · rw [← ref.blockIsFree, ← (refines_fs c).blockIsFree]
    rfl

theorem image_readBlock (good : c.Good) (used : c.fs.InUse b) :
    (c.readBlock b).2.ide.dev.image = c.ide.dev.image := by
  have inside : ¬ c.nblocks ≤ b := Nat.not_le.mpr used.1
  have taken : c.blockIsFree b = false := (refines_fs c).blockIsFree.symm.trans used.2
  cases here : c.mapped b with
  | true => rw [readBlock, if_neg inside, if_neg (by simp [taken]), if_pos here]
  | false =>
      obtain ⟨ide, run, image, -, -, -⟩ := readBlock_spec good used.1 taken here
      rw [run]
      exact image

theorem readBlock_steady (good : c.Good) (used : c.fs.InUse b) :
    (c.readBlock b).1 = .ok () ∧ c.Steady (c.readBlock b).2 ∧
      (c.readBlock b).2.mapped b = true := by
  obtain ⟨result, good', ref⟩ := (refines_fs c).readBlock (b := b) good
  rw [Fs.readBlock_used used] at result ref
  have ref : (c.readBlock b).2.Refines (c.fs.withMapped (Function.update c.mapped b true)) := ref
  obtain ⟨size, view, free⟩ := same_of_refines ref
  have inside : b < c.nblocks := used.1
  refine ⟨result, ⟨size, good', fun b' here => ?_, fun b' known => ?_, view, free,
    fun b' inside' _ => .inl fun i _ => ?_⟩, ?_⟩
  · rw [← ref.mapped]
    show Function.update c.mapped b true b' = true
    by_cases same : b' = b
    · rw [same, Function.update_self]
    · rw [Function.update_of_ne same]
      exact here
  · obtain ⟨here, dirty⟩ := Bool.and_eq_true_iff.mp known
    have tame : c.Tame (c.readBlock b).2 b' False False := tame_readBlock good (good.inside b' here)
    obtain ⟨here', dirty'⟩ := tame.kept here
    exact Bool.and_eq_true_iff.mpr ⟨here', dirty' dirty⟩
  · unfold onDisk
    rw [image_readBlock good used]
  · rw [← ref.mapped]
    exact Function.update_self ..

theorem image_dirtyBlock (c : BlockCache) (b : Nat) :
    (c.dirtyBlock b).2.ide = c.ide := by
  unfold dirtyBlock
  split
  · rfl
  · split
    · rfl
    · rfl

theorem dirtyBlock_steady (good : c.Good) (plain : ¬ c.IsBitmap b) :
    ((c.dirtyBlock b).1 = .ok () ∨ (c.dirtyBlock b).1 = .error .notFound) ∧
      c.Steady (c.dirtyBlock b).2 ∧ (c.dirtyBlock b).2.Marked b := by
  obtain ⟨result, good', ref⟩ := (refines_fs c).dirtyBlock good plain
  obtain ⟨size, view, free⟩ := same_of_refines (m := c.mapped) ref
  have kept : (c.dirtyBlock b).2.mapped = c.mapped ∧ (c.dirtyBlock b).2.ide = c.ide ∧
      (∀ b', c.dirty b' = true → (c.dirtyBlock b).2.dirty b' = true) ∧
      (c.mapped b = true → (c.dirtyBlock b).2.dirty b = true) := by
    unfold dirtyBlock
    cases here : c.mapped b with
    | false => exact ⟨rfl, rfl, fun _ => id, fun no => by cases no⟩
    | true =>
        cases known : c.dirty b with
        | true => exact ⟨rfl, rfl, fun _ => id, fun _ => known⟩
        | false =>
            refine ⟨rfl, rfl, fun b' dirty => ?_, fun _ => Function.update_self ..⟩
            show Function.update c.dirty b true b' = true
            by_cases same : b' = b
            · rw [same, Function.update_self]
            · rw [Function.update_of_ne same]
              exact dirty
  obtain ⟨mapped, ide, dirty, marked⟩ := kept
  have shown : ∀ b' i, (c.dirtyBlock b).2.onDisk b' i = c.onDisk b' i := by
    intro b' i
    unfold onDisk
    rw [ide]
  refine ⟨?_, ⟨size, good', fun b' here => ?_, fun b' known => ?_, view, free,
    fun b' _ _ => .inl fun i _ => shown b' i⟩, ?_⟩
  · rw [result]
    split
    · exact .inl rfl
    · exact .inr rfl
  · rw [mapped]
    exact here
  · obtain ⟨here, known⟩ := Bool.and_eq_true_iff.mp known
    exact Bool.and_eq_true_iff.mpr ⟨by rw [mapped]; exact here, dirty b' known⟩
  · cases here : c.mapped b with
    | true => exact .inl (Bool.and_eq_true_iff.mpr ⟨by rw [mapped]; exact here, marked here⟩)
    | false =>
        refine .inr fun i _ => ?_
        unfold BlockCache.view
        rw [mapped, here]
        rfl

/-- A block that is marked is on the disk then as the server sees it. -/
theorem flushBlock_steady (good : c.Good) :
    (c.flushBlock b).1 = .ok () ∧ c.Steady (c.flushBlock b).2 ∧
      (c.Marked b → ∀ i < 1024, (c.flushBlock b).2.onDisk b i = (c.flushBlock b).2.view b i) := by
  obtain ⟨ide, run, mem, good', disk⟩ := flushBlock_spec (b := b) good
  rw [run]
  have clean : ∀ b' i, i < 1024 → c.blockIsDirty b' = false →
      ({ c with ide } : BlockCache).onDisk b' i = c.onDisk b' i := by
    intro b' i lt known
    rw [disk b' i lt, if_neg]
    rintro ⟨rfl, dirty⟩
    rw [dirty] at known
    cases known
  have ref := (refines_fs c).flushed good mem clean
  obtain ⟨size, view, free⟩ := same_of_refines (m := c.mapped) ref
  have page : c.blockIsDirty b = true → ∀ i, c.cached b i = c.view b i := by
    intro known i
    rw [BlockCache.view, if_pos (Bool.and_eq_true_iff.mp known).1]
  refine ⟨rfl, ⟨size, good', fun _ => id, fun _ => id, view, free, fun b' inside plain => ?_⟩,
    fun marked i lt => ?_⟩
  · by_cases known : b' = b ∧ c.blockIsDirty b = true
    · obtain ⟨rfl, dirty⟩ := known
      refine .inr fun i lt => ?_
      rw [disk b' i lt, if_pos ⟨rfl, dirty⟩, page dirty]
    · refine .inl fun i lt => ?_
      rw [disk b' i lt, if_neg known]
  · have same : ({ c with ide } : BlockCache).cached b i = c.cached b i := by
      unfold cached
      rw [mem]
    have seen : ({ c with ide } : BlockCache).view b i =
        if c.mapped b then c.cached b i else ({ c with ide } : BlockCache).onDisk b i := by
      rw [← same]
      rfl
    rw [seen, disk b i lt]
    by_cases known : c.blockIsDirty b = true
    · rw [if_pos ⟨rfl, known⟩, if_pos (Bool.and_eq_true_iff.mp known).1]
    · rw [if_neg fun both => known both.2]
      have saved := (marked.resolve_left known) i lt
      unfold BlockCache.view at saved
      split at saved
      · next here => rw [if_pos here, saved]
      · next away => rw [if_neg away]

/-! ## A file whose structure is in the cache -/

/-- The blocks of the file can be read, and are not of the bitmap. -/
structure Placed (c : BlockCache) (f : FilePtr) : Prop where
  here : c.mapped f.1 = true
  plain : ¬ c.IsBitmap f.1
  room : f.2 + 64 ≤ 1024
  slots : ∀ k < NINDIRECT, c.fs.fileSlot f k ≠ 0 →
    c.fs.InUse (c.fs.fileSlot f k) ∧ ¬ c.IsBitmap (c.fs.fileSlot f k)
  index : c.fs.fIndirect f ≠ 0 → c.fs.InUse (c.fs.fIndirect f) ∧ ¬ c.IsBitmap (c.fs.fIndirect f)

/-- A word of the structure. -/
theorem Placed.word (placed : c.Placed f) (w : Nat) :
    c.word (f.1, f.2 + w) = c.fs.blk f.1 (f.2 + w) := by
  show c.cached f.1 (f.2 + w) = c.view f.1 (f.2 + w)
  rw [view, if_pos placed.here]

theorem Placed.fileSlot_steady (placed : c.Placed f) (steady : c.Steady c') (good : c.Good) :
    (∀ k, c'.fs.fileSlot f k = c.fs.fileSlot f k) ∧ c'.fs.fIndirect f = c.fs.fIndirect f ∧
      c'.fs.fSize f = c.fs.fSize f := by
  have ten : NDIRECT = 10 := rfl
  have all : NINDIRECT = 1024 := rfl
  have room := placed.room
  have fields : ∀ w < 64, c'.fs.blk f.1 (f.2 + w) = c.fs.blk f.1 (f.2 + w) := fun w lt =>
    steady.view f.1 (good.inside _ placed.here) placed.plain _ (by omega)
  have index : c'.fs.fIndirect f = c.fs.fIndirect f := by
    unfold Fs.fIndirect
    rw [fields 44 (by omega)]
  refine ⟨fun k => ?_, index, fields 32 (by omega)⟩
  by_cases direct : k < NDIRECT
  · rw [Fs.fileSlot_direct direct, Fs.fileSlot_direct direct, Nat.add_assoc,
      fields _ (by omega)]
  · by_cases none : c.fs.fIndirect f = 0
    · rw [Fs.fileSlot_no_indirect (Nat.not_lt.mp direct) none,
        Fs.fileSlot_no_indirect (Nat.not_lt.mp direct) (index.trans none)]
    · by_cases inside : k < NINDIRECT
      · obtain ⟨used, plain⟩ := placed.index none
        rw [Fs.fileSlot_index (Nat.not_lt.mp direct) inside none,
          Fs.fileSlot_index (Nat.not_lt.mp direct) inside
            (fun zero => none (index.symm.trans zero)), index]
        exact congrArg _ (steady.view _ used.1 plain k (by omega))
      · unfold Fs.fileSlot Fs.slotPtr
        rw [if_neg direct, if_neg fun both => inside both.1, if_neg direct,
          if_neg fun both => inside both.1]

theorem Steady.inUse (steady : c.Steady c') (used : c.fs.InUse b) : c'.fs.InUse b := by
  refine ⟨?_, ?_⟩
  · show b < c'.nblocks
    rw [steady.nblocks]
    exact used.1
  · rw [(refines_fs c').blockIsFree, steady.free, ← (refines_fs c).blockIsFree]
    exact used.2

theorem Placed.steady (placed : c.Placed f) (steady : c.Steady c') (good : c.Good) :
    c'.Placed f := by
  obtain ⟨slots, index, -⟩ := placed.fileSlot_steady steady good
  refine ⟨steady.mapped _ placed.here, mt steady.bitmap.mp placed.plain, placed.room,
    fun k lt holds => ?_, fun holds => ?_⟩
  · rw [slots] at holds ⊢
    obtain ⟨used, plain⟩ := placed.slots k lt holds
    exact ⟨steady.inUse used, mt steady.bitmap.mp plain⟩
  · rw [index] at holds ⊢
    obtain ⟨used, plain⟩ := placed.index holds
    exact ⟨steady.inUse used, mt steady.bitmap.mp plain⟩

/-- `file_map_block` finds the block of the slot. -/
theorem Placed.fileMapBlock (placed : c.Placed f) (good : c.Good) (k : Nat) :
    c.Steady (c.fileMapBlock f k).2 ∧
      (c.fs.fileSlot f k ≠ 0 ∧ k < NINDIRECT ∧
          (c.fileMapBlock f k).1 = .ok (c.fs.fileSlot f k) ∨
        c.fs.fileSlot f k = 0 ∧ ∃ e, e ≠ .panic ∧ (c.fileMapBlock f k).1 = .error e) := by
  have ten : NDIRECT = 10 := rfl
  have all : NINDIRECT = 1024 := rfl
  have finish : ∀ (ptr : Nat × Nat) (c₁ : BlockCache), c.fileBlockWalk f k = (.ok ptr, c₁) →
      c.Steady c₁ → k < NINDIRECT → (c₁.word ptr).toNat = c.fs.fileSlot f k →
      c.Steady (c.fileMapBlock f k).2 ∧
        (c.fs.fileSlot f k ≠ 0 ∧ k < NINDIRECT ∧
            (c.fileMapBlock f k).1 = .ok (c.fs.fileSlot f k) ∨
          c.fs.fileSlot f k = 0 ∧ ∃ e, e ≠ .panic ∧ (c.fileMapBlock f k).1 = .error e) := by
    intro ptr c₁ walk steady inside value
    unfold BlockCache.fileMapBlock
    rw [walk]
    dsimp only
    by_cases zero : c₁.word ptr = 0
    · rw [if_pos zero]
      rw [zero] at value
      exact ⟨steady, .inr ⟨value.symm, .notFound, by decide, rfl⟩⟩
    · rw [if_neg zero, value]
      refine ⟨steady, .inl ⟨fun none => zero ?_, inside, rfl⟩⟩
      exact BitVec.eq_of_toNat_eq (value.trans none)
  have index : c.word (Fs.indirectPtr f) = c.fs.blk f.1 (f.2 + 44) := placed.word 44
  by_cases direct : k < NDIRECT
  · refine finish (f.1, f.2 + 34 + k) c (by rw [fileBlockWalk, if_pos direct]) (.refl good)
      (by omega) ?_
    rw [Fs.fileSlot_direct direct, Nat.add_assoc, placed.word]
  · by_cases inside : k < NINDIRECT
    · by_cases none : c.fs.fIndirect f = 0
      · have slot := Fs.fileSlot_no_indirect (Nat.not_lt.mp direct) none
        have zero : (c.word (Fs.indirectPtr f)).toNat = 0 := by
          rw [index]
          exact none
        unfold BlockCache.fileMapBlock fileBlockWalk
        rw [if_neg direct, if_pos inside]
        dsimp only
        rw [if_pos zero]
        exact ⟨.refl good, .inr ⟨slot, .notFound, by decide, rfl⟩⟩
      · obtain ⟨used, plain⟩ := placed.index none
        obtain ⟨result, steady, mapped⟩ := readBlock_steady good used
        have same : (c.word (Fs.indirectPtr f)).toNat = c.fs.fIndirect f := by
          rw [index]
          rfl
        refine finish (c.fs.fIndirect f, k) (c.readBlock (c.fs.fIndirect f)).2 ?_ steady inside ?_
        · rw [fileBlockWalk, if_neg direct, if_pos inside, same]
          dsimp only
          rw [if_neg none]
          rcases read : c.readBlock (c.fs.fIndirect f) with ⟨r, c₁⟩
          rw [read] at result
          dsimp only at result
          rw [result]
        · rw [Fs.fileSlot_index (Nat.not_lt.mp direct) inside none]
          refine congrArg _ ((?_ : _ = (c.readBlock (c.fs.fIndirect f)).2.view _ k).trans
            (steady.view _ used.1 plain k (by omega)))
          rw [view, if_pos mapped]
          rfl
    · unfold BlockCache.fileMapBlock fileBlockWalk
      rw [if_neg direct, if_neg inside]
      refine ⟨.refl good, .inr ⟨?_, .sys .inval, by decide, rfl⟩⟩
      unfold Fs.fileSlot Fs.slotPtr
      rw [if_neg direct, if_neg fun both => inside both.1]

theorem Placed.image_fileMapBlock (placed : c.Placed f) (good : c.Good) (k : Nat) :
    (c.fileMapBlock f k).2.ide.dev.image = c.ide.dev.image := by
  have walk : (c.fileBlockWalk f k).2.ide.dev.image = c.ide.dev.image := by
    have index : c.word (Fs.indirectPtr f) = c.fs.blk f.1 (f.2 + 44) := placed.word 44
    unfold fileBlockWalk
    split
    · rfl
    · split
      · dsimp only
        split
        · rfl
        · next holds =>
            rw [index] at holds ⊢
            have image := image_readBlock good (placed.index holds).1
            split
            · next same => exact (congrArg (·.2.ide.dev.image) same).symm.trans image
            · next same => exact (congrArg (·.2.ide.dev.image) same).symm.trans image
      · rfl
  unfold BlockCache.fileMapBlock
  split
  · next same => exact (congrArg (·.2.ide.dev.image) same).symm.trans walk
  · next same =>
      have image := (congrArg (·.2.ide.dev.image) same).symm.trans walk
      split
      · exact image
      · exact image

/-! ## The loops of a close -/

theorem Placed.fileDirty (placed : c.Placed f) (good : c.Good) (k : Nat) :
    (c.fileDirty f (4096 * k)).1 ≠ .error .panic ∧ c.Steady (c.fileDirty f (4096 * k)).2 ∧
      (c.fileDirty f (4096 * k)).2.ide.dev.image = c.ide.dev.image ∧
      (c.fs.fileSlot f k ≠ 0 → (c.fileDirty f (4096 * k)).2.Marked (c.fs.fileSlot f k)) := by
  have page : 4096 * k / 4096 = k := Nat.mul_div_cancel_left k (by decide)
  obtain ⟨steady, result⟩ := placed.fileMapBlock good k
  have image := placed.image_fileMapBlock good k
  unfold BlockCache.fileDirty
  rw [page]
  rcases run : c.fileMapBlock f k with ⟨r, c₁⟩
  rw [run] at steady result image
  dsimp only at steady result image ⊢
  rcases result with ⟨holds, inside, found⟩ | ⟨hole, e, ordinary, failed⟩
  · obtain ⟨-, plain⟩ := placed.slots k inside holds
    obtain ⟨result, dirtied, marked⟩ :=
      dirtyBlock_steady steady.good (mt steady.bitmap.mp plain)
    rw [found]
    have kept : (c₁.dirtyBlock (c.fs.fileSlot f k)).2.ide.dev.image = c₁.ide.dev.image := by
      rw [image_dirtyBlock]
    refine ⟨fun panic => ?_, steady.trans dirtied, kept.trans image, fun _ => marked⟩
    rcases result with done | missing
    · cases done.symm.trans panic
    · cases missing.symm.trans panic
  · rw [failed]
    exact ⟨fun panic => ordinary (Except.error.inj panic), steady, image,
      fun holds => absurd hole holds⟩

/-- Mark `left` pages from page `i` on. -/
def dirtyPages (c : BlockCache) (f : FilePtr) : Nat → Nat → BlockCache
  | _, 0 => c
  | i, left + 1 => (c.fileDirty f (4096 * i)).2.dirtyPages f (i + 1) left

/-- The blocks of these pages are marked. -/
theorem Placed.dirtyPages (placed : c.Placed f) (good : c.Good) :
    c.Steady (c.dirtyPages f i left) ∧
      (c.dirtyPages f i left).ide.dev.image = c.ide.dev.image ∧
      ∀ k, i ≤ k → k < i + left → k < NINDIRECT → c.fs.fileSlot f k ≠ 0 →
        (c.dirtyPages f i left).Marked (c.fs.fileSlot f k) := by
  induction left generalizing c i with
  | zero => exact ⟨.refl good, rfl, fun k low high => absurd high (Nat.not_lt.mpr low)⟩
  | succ left ih =>
      obtain ⟨-, steady, image, marked⟩ := placed.fileDirty good i
      obtain ⟨slots, -, -⟩ := placed.fileSlot_steady steady good
      obtain ⟨rest, image', others⟩ := ih (placed.steady steady good) steady.good (i := i + 1)
      rw [BlockCache.dirtyPages]
      refine ⟨steady.trans rest, image'.trans image, fun k low high inside holds => ?_⟩
      rcases Nat.eq_or_lt_of_le low with same | later
      · subst same
        obtain ⟨used, plain⟩ := placed.slots i inside holds
        exact rest.marked (steady.inUse used).1 (mt steady.bitmap.mp plain) (marked holds)
      · rw [← slots] at holds ⊢
        exact others k later (by omega) inside holds

/-- One round of the loop. -/
theorem Placed.dirtyLoop_succ {size i : Word} {fuel : Nat} (placed : c.Placed f) (good : c.Good)
    (aligned : i.toNat % 4096 = 0) (more : i < size) :
    c.dirtyLoop f size (fuel + 1) i =
      (c.fileDirty f i.toNat).2.dirtyLoop f size fuel (i + 4096) := by
  obtain ⟨ordinary, -⟩ := placed.fileDirty good (i.toNat / 4096)
  rw [show 4096 * (i.toNat / 4096) = i.toNat by omega] at ordinary
  rw [dirtyLoop, if_pos more]
  rcases run : c.fileDirty f i.toNat with ⟨r, c₁⟩
  rw [run] at ordinary
  cases r with
  | ok _ => rfl
  | error e =>
      cases e with
      | panic => exact absurd rfl ordinary
      | _ => rfl

/-- Where the offset does not wrap, the loop marks the pages one after the other. -/
theorem Placed.dirtyLoop {size : Word} {fuel : Nat} (placed : c.Placed f) (good : c.Good)
    (small : size ≤ 0xfffff000) (pages : i + left = (size.toNat + 4095) / 4096)
    (enough : left < fuel) :
    c.dirtyLoop f size fuel (.ofNat 32 (4096 * i)) = some (.ok (), c.dirtyPages f i left) := by
  have bound : size.toNat ≤ 0xfffff000 := BitVec.le_def.mp small
  have here : (BitVec.ofNat 32 (4096 * i)).toNat = 4096 * i := by
    rw [BitVec.toNat_ofNat]
    omega
  induction left generalizing c i fuel with
  | zero =>
      obtain ⟨fuel, rfl⟩ := Nat.exists_eq_add_one_of_ne_zero (Nat.ne_of_gt enough)
      have done : ¬ BitVec.ofNat 32 (4096 * i) < size := by
        rw [BitVec.lt_def, here]
        omega
      rw [BlockCache.dirtyLoop, if_neg done, BlockCache.dirtyPages]
  | succ left ih =>
      obtain ⟨fuel, rfl⟩ := Nat.exists_eq_add_one_of_ne_zero (Nat.ne_zero_of_lt enough)
      obtain ⟨-, steady, -⟩ := placed.fileDirty good i
      have more : BitVec.ofNat 32 (4096 * i) < size := by
        rw [BitVec.lt_def, here]
        omega
      have after : BitVec.ofNat 32 (4096 * i) + 4096 = .ofNat 32 (4096 * (i + 1)) := by
        rw [Nat.mul_succ, BitVec.ofNat_add]
        rfl
      rw [placed.dirtyLoop_succ good (by omega) more, here, after, BlockCache.dirtyPages]
      refine ih (placed.steady steady good) steady.good (by omega) (by omega) ?_
      rw [BitVec.toNat_ofNat]
      omega

/-- A size from which the offset wraps is never reached. -/
theorem Placed.dirtyLoop_none {size i : Word} (placed : c.Placed f) (good : c.Good)
    (large : 0xfffff000 < size) (aligned : i.toNat % 4096 = 0) (fuel : Nat) :
    c.dirtyLoop f size fuel i = none := by
  induction fuel generalizing c i with
  | zero => rfl
  | succ fuel ih =>
      have more : i < size := by
        rw [BitVec.lt_def, show (0xfffff000 : Word).toNat = 0xfffff000 from rfl] at large
        rw [BitVec.lt_def]
        omega
      obtain ⟨-, steady, -⟩ := placed.fileDirty good (i.toNat / 4096)
      rw [show 4096 * (i.toNat / 4096) = i.toNat by omega] at steady
      rw [placed.dirtyLoop_succ good aligned more]
      refine ih (placed.steady steady good) steady.good ?_
      rw [BitVec.toNat_add, show (4096 : Word).toNat = 4096 from rfl]
      omega

/-- The blocks that are marked get to the disk. -/
theorem Placed.flushLoop (placed : c.Placed f) (good : c.Good) :
    (c.flushLoop f n left).1 = .ok () ∧ c.Steady (c.flushLoop f n left).2 ∧
      (∀ b, (∀ k, n ≤ k → k < n + left → c.fs.fileSlot f k ≠ b) → ∀ i < 1024,
        (c.flushLoop f n left).2.onDisk b i = c.onDisk b i) ∧
      ∀ k, n ≤ k → k < n + left → k < NINDIRECT → c.fs.fileSlot f k ≠ 0 →
        c.Marked (c.fs.fileSlot f k) → ∀ i < 1024,
          (c.flushLoop f n left).2.onDisk (c.fs.fileSlot f k) i =
            (c.flushLoop f n left).2.view (c.fs.fileSlot f k) i := by
  induction left generalizing c n with
  | zero =>
      exact ⟨rfl, .refl good, fun _ _ _ _ => rfl,
        fun k low high => absurd high (Nat.not_lt.mpr low)⟩
  | succ left ih =>
      -- one turn, whatever the slot holds
      have turn : ∃ c₁, c.flushLoop f n (left + 1) = c₁.flushLoop f (n + 1) left ∧ c.Steady c₁ ∧
          (∀ b, c.fs.fileSlot f n ≠ b → ∀ i < 1024, c₁.onDisk b i = c.onDisk b i) ∧
          (n < NINDIRECT → c.fs.fileSlot f n ≠ 0 → c.Marked (c.fs.fileSlot f n) →
            ∀ i < 1024, c₁.onDisk (c.fs.fileSlot f n) i = c₁.view (c.fs.fileSlot f n) i) := by
        obtain ⟨steady, result⟩ := placed.fileMapBlock good n
        have image := placed.image_fileMapBlock good n
        rcases run : c.fileMapBlock f n with ⟨r, c₁⟩
        rw [run] at steady result image
        dsimp only at steady result image
        have kept : ∀ b i, c₁.onDisk b i = c.onDisk b i := fun b i =>
          congrFun image (b * 1024 + i)
        rcases result with ⟨holds, inside, rfl⟩ | ⟨hole, e, ordinary, rfl⟩
        · obtain ⟨used, plain⟩ := placed.slots n inside holds
          obtain ⟨done, flushed, saved⟩ :=
            flushBlock_steady (b := c.fs.fileSlot f n) steady.good
          refine ⟨(c₁.flushBlock (c.fs.fileSlot f n)).2, ?_, steady.trans flushed,
            fun b other i lt => ?_, fun _ _ marked => saved (steady.marked used.1 plain marked)⟩
          · rw [BlockCache.flushLoop, run]
            dsimp only
            rcases flush : c₁.flushBlock (c.fs.fileSlot f n) with ⟨r, c₂⟩
            rw [flush] at done
            dsimp only at done
            rw [done]
          · obtain ⟨ide, flush, -, -, disk⟩ := flushBlock_spec (b := c.fs.fileSlot f n) steady.good
            rw [flush, disk b i lt, if_neg fun both => other both.1.symm]
            exact kept b i
        · refine ⟨c₁, ?_, steady, fun b _ i _ => kept b i, fun _ holds => absurd hole holds⟩
          rw [BlockCache.flushLoop, run]
          cases e with
          | panic => exact absurd rfl ordinary
          | _ => rfl
      obtain ⟨c₁, next, steady, frame, first⟩ := turn
      obtain ⟨slots, -, -⟩ := placed.fileSlot_steady steady good
      obtain ⟨done, rest, frame', others⟩ := ih (placed.steady steady good) steady.good (n := n + 1)
      rw [next]
      refine ⟨done, steady.trans rest, fun b none i lt => ?_,
        fun k low high inside holds marked => ?_⟩
      · rw [frame' b (fun k low high => ?_) i lt,
          frame b (none n (Nat.le_refl n) (by omega)) i lt]
        rw [slots]
        exact none k (by omega) (by omega)
      obtain ⟨used, plain⟩ := placed.slots k inside holds
      rcases Nat.eq_or_lt_of_le low with same | later
      · subst same
        exact rest.saved (steady.inUse used).1 (mt steady.bitmap.mp plain)
          (first inside holds marked)
      · have marked' := steady.marked used.1 plain marked
        rw [← slots] at holds marked' ⊢
        exact others k later (by omega) inside holds marked'

theorem Placed.fileFlush (placed : c.Placed f) (good : c.Good) :
    (c.fileFlush f).1 = .ok () ∧ c.Steady (c.fileFlush f).2 ∧
      (∀ b, (∀ k ≤ (c.fs.fSize f).toNat / 4096, c.fs.fileSlot f k ≠ b) → ∀ i < 1024,
        (c.fileFlush f).2.onDisk b i = c.onDisk b i) ∧
      ∀ k ≤ (c.fs.fSize f).toNat / 4096, k < NINDIRECT → c.fs.fileSlot f k ≠ 0 →
        c.Marked (c.fs.fileSlot f k) → ∀ i < 1024,
          (c.fileFlush f).2.onDisk (c.fs.fileSlot f k) i =
            (c.fileFlush f).2.view (c.fs.fileSlot f k) i := by
  have size : c.word (Fs.sizePtr f) = c.fs.fSize f := placed.word 32
  unfold BlockCache.fileFlush
  rw [size]
  obtain ⟨done, steady, frame, saved⟩ :=
    @Placed.flushLoop c f 0 ((c.fs.fSize f).toNat / 4096 + 1) placed good
  exact ⟨done, steady, fun b none => frame b fun k _ high => none k (by omega),
    fun k most => saved k (Nat.zero_le k) (by omega)⟩

/-! ## The close -/

/-- A file of a sound tree, once the block that its structure is in is in the cache. -/
theorem placed_of_under (sound : c.fs.Sound) (under : c.fs.Under Fs.root f)
    (here : c.mapped f.1 = true) : c.Placed f := by
  have reserved : ∀ b, ¬ c.fs.Reserved b → ¬ c.IsBitmap b := fun b outside isBitmap =>
    outside (show b < Fs.nbitmap c.nblocks + 2 from by
      have bound := isBitmap.2
      omega)
  have block : ∀ b, c.fs.FileBlock f b → c.fs.InUse b ∧ ¬ c.IsBitmap b := fun b owned =>
    ⟨sound.inUse f b under owned, reserved b (sound.notReserved f b under owned)⟩
  have place : ¬ c.IsBitmap f.1 ∧ f.2 + 64 ≤ 1024 := by
    rcases under.placed with rfl | ⟨d, above, isDir, inDir⟩
    · exact ⟨fun isBitmap => absurd isBitmap.1 (by decide), by decide⟩
    · obtain ⟨k, -, j, lt, rfl⟩ := Fs.mem_entries.mp inDir
      have sixteen : FILE2BLK = 16 := rfl
      exact ⟨reserved _ (sound.notReserved d _ above (sound.entryBlock above isDir inDir).1),
        by dsimp only; omega⟩
  exact ⟨here, place.1, place.2, fun k inside holds => block _ ⟨holds, .inr ⟨k, inside, rfl⟩⟩,
    fun holds => block _ ⟨holds, .inl rfl⟩⟩

theorem inside_of_slot (holds : c.fs.fileSlot f k ≠ 0) : k < NINDIRECT := by
  have ten : NDIRECT = 10 := rfl
  have all : NINDIRECT = 1024 := rfl
  by_contra outside
  refine holds ?_
  unfold Fs.fileSlot Fs.slotPtr
  rw [if_neg (by omega), if_neg fun both => outside both.1]

/-- What the close of the server leaves on the disk, once `n` pages of the file are marked. -/
theorem fileClose_writes_back {n : Nat} {dir : Option FilePtr} (good : c.Good)
    (sound : c.fs.Sound) (file : c.fs.Under Fs.root f) (here : c.mapped f.1 = true)
    (parent : ∀ d ∈ dir, c.fs.Under Fs.root d ∧ c.mapped d.1 = true) :
    ∃ c', (c.dirtyPages f 0 n).fileClose f dir = (.ok (), c') ∧
      (∀ b < c.nblocks, ¬ c.IsBitmap b → ∀ i < 1024, c'.view b i = c.view b i) ∧
      (∀ g, g = f ∨ g ∈ dir → ∀ k ≤ (c.fs.fSize g).toNat / 4096, c.fs.fileSlot g k ≠ 0 →
        g = f ∧ k < n ∨ c.blockIsDirty (c.fs.fileSlot g k) = true →
          ∀ i < 1024, c'.onDisk (c.fs.fileSlot g k) i = c.view (c.fs.fileSlot g k) i) ∧
      ∀ b, (∀ g, g = f ∨ g ∈ dir → ∀ k ≤ (c.fs.fSize g).toNat / 4096, c.fs.fileSlot g k ≠ b) →
        ∀ i < 1024, c'.onDisk b i = c.onDisk b i := by
  have placed := placed_of_under sound file here
  obtain ⟨dirtied, image, marked⟩ := @Placed.dirtyPages c f 0 n placed good
  generalize c.dirtyPages f 0 n = c₁ at dirtied image marked
  obtain ⟨slots, -, length⟩ := placed.fileSlot_steady dirtied good
  obtain ⟨done, flushed, frame, saved⟩ := (placed.steady dirtied good).fileFlush dirtied.good
  unfold fileClose
  rcases second : c₁.fileFlush f with ⟨r, c₂⟩
  rw [second] at done flushed frame saved
  dsimp only at done flushed frame saved ⊢
  rw [done]
  dsimp only
  simp only [slots, length] at frame saved
  have steady := dirtied.trans flushed
  -- the blocks of the file after its own flush
  have written : ∀ k ≤ (c.fs.fSize f).toNat / 4096, c.fs.fileSlot f k ≠ 0 →
      k < n ∨ c.blockIsDirty (c.fs.fileSlot f k) = true →
      ∀ i < 1024, c₂.onDisk (c.fs.fileSlot f k) i = c.view (c.fs.fileSlot f k) i := by
    intro k most holds covered i lt
    have inside := inside_of_slot holds
    obtain ⟨used, plain⟩ := placed.slots k inside holds
    have now : c₁.Marked (c.fs.fileSlot f k) := by
      rcases covered with low | dirty
      · exact marked k (Nat.zero_le k) (by omega) inside holds
      · exact .inl (dirtied.dirty _ dirty)
    rw [saved k most inside holds now i lt]
    exact steady.view _ used.1 plain i lt
  have untouched : ∀ b, (∀ k ≤ (c.fs.fSize f).toNat / 4096, c.fs.fileSlot f k ≠ b) →
      ∀ i < 1024, c₂.onDisk b i = c.onDisk b i := fun b none i lt =>
    (frame b none i lt).trans (congrFun image (b * 1024 + i))
  cases dir with
  | none =>
      refine ⟨c₂, rfl, steady.view, fun g own k most holds covered => ?_,
        fun b none => untouched b (none f (.inl rfl))⟩
      obtain rfl := own.resolve_right fun mem => by cases mem
      exact written k most holds (covered.imp And.right id)
  | some d =>
      obtain ⟨above, here'⟩ := parent d rfl
      have dirPlaced := placed_of_under sound above here'
      obtain ⟨slots', -, length'⟩ := dirPlaced.fileSlot_steady steady good
      obtain ⟨done, last, frame', saved'⟩ := (dirPlaced.steady steady good).fileFlush steady.good
      simp only [slots', length'] at frame' saved'
      dsimp only
      have kept : ∀ k ≤ (c.fs.fSize f).toNat / 4096, c.fs.fileSlot f k ≠ 0 →
          k < n ∨ c.blockIsDirty (c.fs.fileSlot f k) = true → ∀ i < 1024,
            (c₂.fileFlush d).2.onDisk (c.fs.fileSlot f k) i = c.view (c.fs.fileSlot f k) i := by
        intro k most holds covered i lt
        obtain ⟨used, plain⟩ := placed.slots k (inside_of_slot holds) holds
        have before : ∀ i < 1024, c₂.onDisk (c.fs.fileSlot f k) i =
            c₂.view (c.fs.fileSlot f k) i := fun i lt =>
          (written k most holds covered i lt).trans (steady.view _ used.1 plain i lt).symm
        rw [last.saved (steady.inUse used).1 (mt steady.bitmap.mp plain) before i lt]
        exact (steady.trans last).view _ used.1 plain i lt
      refine ⟨_, Prod.ext done rfl, (steady.trans last).view,
        fun g own k most holds covered i lt => ?_, fun b none i lt => ?_⟩
      · by_cases same : g = f
        · rw [same] at most holds covered ⊢
          exact kept k most holds (covered.imp And.right id) i lt
        · obtain rfl := Option.mem_some_iff.mp (own.resolve_left same)
          have inside := inside_of_slot holds
          obtain ⟨used, plain⟩ := dirPlaced.slots k inside holds
          have dirty := covered.resolve_left fun both => same both.1
          rw [saved' k most inside holds (.inl (steady.dirty _ dirty)) i lt]
          exact (steady.trans last).view _ used.1 plain i lt
      · rw [frame' b (none d (.inr rfl)) i lt]
        exact untouched b (none f (.inl rfl)) i lt

/-- What `file_close` leaves on the disk, for a size from which the offset does not wrap. Of
the blocks that the server's size covers, every one that the client's size covers too is there
as the client sees it, and so is every block of the file or of its directory that is marked. No
other block is written: not the index block of the file. From a larger size there is no
return. -/
theorem close_writes_back {size : Word} {dir : Option FilePtr} (good : c.Good)
    (sound : c.fs.Sound) (file : c.fs.Under Fs.root f) (here : c.mapped f.1 = true)
    (parent : ∀ d ∈ dir, c.fs.Under Fs.root d ∧ c.mapped d.1 = true) :
    (size ≤ 0xfffff000 → ∀ fuel, 2 ^ 20 ≤ fuel → ∃ c',
      c.closeFile f dir size fuel = some (.ok (), c') ∧
      (∀ b < c.nblocks, ¬ c.IsBitmap b → ∀ i < 1024, c'.view b i = c.view b i) ∧
      (∀ g, g = f ∨ g ∈ dir → ∀ k ≤ (c.fs.fSize g).toNat / 4096, c.fs.fileSlot g k ≠ 0 →
        g = f ∧ 4096 * k < size.toNat ∨ c.blockIsDirty (c.fs.fileSlot g k) = true →
          ∀ i < 1024, c'.onDisk (c.fs.fileSlot g k) i = c.view (c.fs.fileSlot g k) i) ∧
      ∀ b, (∀ g, g = f ∨ g ∈ dir → ∀ k ≤ (c.fs.fSize g).toNat / 4096, c.fs.fileSlot g k ≠ b) →
        ∀ i < 1024, c'.onDisk b i = c.onDisk b i) ∧
    (0xfffff000 < size → ∀ fuel, c.closeFile f dir size fuel = none) := by
  have placed := placed_of_under sound file here
  constructor
  · intro small fuel enough
    obtain ⟨c', closed, views, saved, frame⟩ :=
      @fileClose_writes_back c f ((size.toNat + 4095) / 4096) dir good sound file here parent
    have bound : size.toNat ≤ 0xfffff000 := BitVec.le_def.mp small
    have loop := @Placed.dirtyLoop c f 0 _ size fuel placed good small (Nat.zero_add _) (by omega)
    refine ⟨c', ?_, views, fun g own k most holds covered => ?_, frame⟩
    · rw [closeFile, show (0 : Word) = .ofNat 32 (4096 * 0) from rfl, loop]
      exact congrArg some closed
    · exact saved g own k most holds (covered.imp (And.imp id fun low => by omega) id)
  · intro large fuel
    rw [closeFile, placed.dirtyLoop_none good large rfl]

/-! ### The root with one block -/

/-- A disk of eight blocks, of which block 3 belongs to the root. A word of its page has
been stored to. -/
def rootBlock : BlockCache where
  ide := {
    mem := fun a => if a = blockBase 1 + 34 then 4096 else if a = blockBase 1 + 35 then 1
      else if a = blockBase 1 + 36 then 3 else if a = blockBase 2 then 0xF0
      else if a = blockBase 3 + 1023 then 7 else 0
    dev := ⟨0, 0, 0, fun _ => 0, fun _ => 0, 8 * 4096⟩ }
  nblocks := 8
  mapped := fun b => decide (b < 4)
  dirty := fun _ => false
  answers := []

theorem rootBlock_good : rootBlock.Good where
  size := Nat.le_refl _
  most := by decide
  room := by decide
  bitmapMapped b isBitmap := by
    have bound : b < 2 + Fs.nbitmap 8 := isBitmap.2
    have one : Fs.nbitmap 8 = 1 := rfl
    rw [one] at bound
    exact ⟨decide_eq_true (by omega), rfl⟩
  inside b here := by
    have low : b < 4 := of_decide_eq_true here
    exact Nat.lt_trans low (by decide)

theorem rootBlock_blk (lt : i < 1024) : rootBlock.fs.blk 1 i =
      (if i = 34 then 4096 else if i = 35 then 1 else if i = 36 then 3 else 0) ∧
    rootBlock.fs.blk 3 i = if i = 1023 then 7 else 0 := by
  have base : ∀ b < 4, blockBase b = 0x4000000 + b * 1024 := fun b low =>
    blockBase_eq (Nat.lt_trans low (by decide))
  have shown : ∀ b, rootBlock.mapped b = true →
      rootBlock.fs.blk b i = rootBlock.ide.mem (blockBase b + i) := fun b here => if_pos here
  have root := shown 1 rfl
  have block := shown 3 rfl
  rw [root, block]
  unfold rootBlock
  dsimp only
  rw [base 1 (by decide), base 2 (by decide), base 3 (by decide)]
  constructor
  · split_ifs <;> first | rfl | omega
  · split_ifs <;> first | rfl | omega

theorem rootBlock_slot (k : Nat) :
    rootBlock.fs.fileSlot Fs.root k = if k = 0 then 3 else 0 := by
  have ten : NDIRECT = 10 := rfl
  have none : rootBlock.fs.fIndirect Fs.root = 0 := congrArg BitVec.toNat
    (rootBlock_blk (i := 2 + 44) (by decide)).1
  by_cases direct : k < NDIRECT
  · have word : (Fs.root.2 + 34 + k) = 36 + k := rfl
    have value := (rootBlock_blk (i := 36 + k) (by omega)).1
    rw [if_neg (by omega), if_neg (by omega)] at value
    rw [Fs.fileSlot_direct direct, word]
    refine (congrArg BitVec.toNat value).trans ?_
    by_cases first : k = 0
    · rw [if_pos (by omega), if_pos first]
      rfl
    · rw [if_neg (by omega), if_neg first]
      rfl
  · rw [Fs.fileSlot_no_indirect (Nat.not_lt.mp direct) none, if_neg (by omega)]

theorem rootBlock_size : rootBlock.fs.fSize Fs.root = 4096 :=
  (rootBlock_blk (i := 34) (by decide)).1

theorem rootBlock_free (inDir : f ∈ rootBlock.fs.entries Fs.root) : ¬ rootBlock.fs.Named f := by
  obtain ⟨k, low, j, lt, rfl⟩ := Fs.mem_entries.mp inDir
  have sixteen : FILE2BLK = 16 := rfl
  rw [rootBlock_size] at low
  have zero : k = 0 := Nat.lt_one_iff.mp low
  have name := (rootBlock_blk (i := 64 * j) (by omega)).2
  rw [if_neg (by omega)] at name
  have free : rootBlock.fs.isFreeEntry (3, 64 * j) = true := by
    unfold Fs.isFreeEntry Fs.nameByte
    dsimp only
    rw [Nat.zero_div, Nat.add_zero, name]
    rfl
  rw [rootBlock_slot, if_pos zero, Fs.Named, free]
  exact Bool.noConfusion

theorem rootBlock_under (under : rootBlock.fs.Under Fs.root f) : f = Fs.root := by
  induction under with
  | refl => rfl
  | entry above isDir inDir named ih =>
      subst ih
      exact absurd named (rootBlock_free inDir)

theorem rootBlock_block (block : rootBlock.fs.FileBlock Fs.root b) : b = 3 := by
  obtain ⟨holds, index | ⟨k, -, slot⟩⟩ := block
  · have none : rootBlock.fs.fIndirect Fs.root = 0 := congrArg BitVec.toNat
      (rootBlock_blk (i := 2 + 44) (by decide)).1
    exact absurd (index.symm.trans none) holds
  · rw [rootBlock_slot] at slot
    split at slot
    · exact slot.symm
    · exact absurd slot.symm holds

theorem rootBlock_used : rootBlock.fs.InUse 3 := ⟨by decide, by decide +kernel⟩

theorem rootBlock_sound : rootBlock.fs.Sound where
  present d under isDir i low := by
    obtain rfl := rootBlock_under under
    rw [rootBlock_size] at low
    have zero : i = 0 := Nat.lt_one_iff.mp low
    have ten : NDIRECT = 10 := rfl
    have all : NINDIRECT = 1024 := rfl
    rw [rootBlock_slot, if_pos zero]
    exact ⟨by omega, by decide, rootBlock_used, fun high => absurd high (by omega)⟩
  owner f g _ under under' _ _ := (rootBlock_under under).trans (rootBlock_under under').symm
  once f under i _ j _ holds same := by
    obtain rfl := rootBlock_under under
    rw [rootBlock_slot] at holds same
    rw [rootBlock_slot] at same
    by_cases zero : i = 0
    · rw [if_pos zero] at same
      by_cases zero' : j = 0
      · exact zero.trans zero'.symm
      · rw [if_neg zero'] at same
        cases same
    · exact absurd (if_neg zero) holds
  indirectOther f under i _ holds := by
    obtain rfl := rootBlock_under under
    exact absurd (congrArg BitVec.toNat (rootBlock_blk (i := 2 + 44) (by decide)).1) holds
  notReserved f b under block := by
    obtain rfl := rootBlock_under under
    rw [rootBlock_block block]
    exact fun low => absurd (show 3 < 3 from low) (Nat.lt_irrefl 3)
  names d under _ f inDir _ _ _ named := by
    obtain rfl := rootBlock_under under
    exact absurd named (rootBlock_free inDir)
  inUse f b under block := by
    obtain rfl := rootBlock_under under
    rw [rootBlock_block block]
    exact rootBlock_used
  ends d under isDir i _ behind := by
    obtain rfl := rootBlock_under under
    rw [rootBlock_size] at behind
    have some : 1 ≤ i := behind
    rw [rootBlock_slot, if_neg (by omega)]

theorem close_writes_back_rootBlock : ∃ c',
    rootBlock.closeFile Fs.root none 4096 (2 ^ 20) = some (.ok (), c') ∧ c'.onDisk 3 1023 = 7 := by
  obtain ⟨c', closed, -, written, -⟩ := (@close_writes_back rootBlock Fs.root 4096 none
    rootBlock_good rootBlock_sound .refl rfl (fun d mem => by cases mem)).1 (by decide) _ le_rfl
  have slot := rootBlock_slot 0
  rw [if_pos rfl] at slot
  have word : ∀ i < 1024, i = 1023 → rootBlock.view 3 i = 7 := fun i lt last =>
    (rootBlock_blk lt).2.trans (if_pos last)
  have covers : 4096 * 0 < (4096 : Word).toNat := by decide
  have holds : rootBlock.fs.fileSlot Fs.root 0 ≠ 0 := by
    rw [slot]
    decide
  have shown := written Fs.root (.inl rfl) 0 (Nat.zero_le _) holds (.inl ⟨rfl, covers⟩) 1023
    (by decide)
  rw [slot] at shown
  exact ⟨c', closed, shown.trans (word 1023 (by decide) rfl)⟩

end BlockCache

end Mos
