import Mos.FsNewFile

/-!
# The image builder

`tools/fsformat.c` lays files and directories of the host out on a disk: blocks are
taken in order from `nextbno` on and never given back, a file's number going into
its structure before the next block is taken. The host and the machine have the same
byte order, so that `reverse_block`, and the type of a block that it looks at, are
left out. `super` is kept in block 1, where `finish_fs` copies it.

What the finished disk looks like is said by recursion on the files that were
written (`Laid`): where each block went follows from the number that was next.
-/

namespace Mos

/-- `NBLOCK` -/
def NBLOCK : Nat := 1024

/-- `FTYPE_REG` -/
def FTYPE_REG : Word := 0

/-- Files of the host, in the order in which they are written: regular ones with what
`read` returns, and directories. -/
inductive HostFiles
  | nil
  | reg (name : FsName) (content : List Byte) (next : HostFiles)
  | dir (name : FsName) (kids next : HostFiles)

namespace HostFiles

/-- How many they are, without those inside. -/
def count : HostFiles → Nat
  | nil => 0
  | reg _ _ next | dir _ _ next => next.count + 1

def names : HostFiles → List FsName
  | nil => []
  | reg name _ next | dir name _ next => name :: next.names

/-- Names that a file can have, and none twice in a directory. -/
def Proper : HostFiles → Prop
  | nil => True
  | reg name _ next => Fs.PathName name ∧ name.length < MAXNAMELEN ∧ name ∉ next.names ∧ next.Proper
  | dir name kids next =>
      Fs.PathName name ∧ name.length < MAXNAMELEN ∧ name ∉ next.names ∧ kids.Proper ∧ next.Proper

end HostFiles

/-- `disk` and `nextbno`. Of `disk`, only the blocks and the bitmap are used. -/
structure Image where
  disk : Fs
  nextbno : Nat

namespace Image

/-- `next_block`; behind the last block `disk` ends. -/
def nextBlock (img : Image) : Option (Nat × Image) :=
  if img.nextbno < NBLOCK then some (img.nextbno, { img with nextbno := img.nextbno + 1 }) else none

def setWord (img : Image) (ptr : Nat × Nat) (w : Word) : Image :=
  { img with disk := img.disk.setWord ptr w }

/-- `save_block_link`; `none` is its assertion. -/
def saveBlockLink (img : Image) (f : FilePtr) (nblk bno : Nat) : Option Image :=
  if nblk < NINDIRECT then
    if nblk < NDIRECT then some (img.setWord (f.1, f.2 + 34 + nblk) (.ofNat 32 bno))
    else if img.disk.fIndirect f = 0 then
      img.nextBlock.map fun (index, img) =>
        (img.setWord (Fs.indirectPtr f) (.ofNat 32 index)).setWord (index, nblk) (.ofNat 32 bno)
    else some (img.setWord (img.disk.fIndirect f, nblk) (.ofNat 32 bno))
  else none

/-- `make_link_block` -/
def makeLinkBlock (img : Image) (dirf : FilePtr) (nblk : Nat) : Option (Nat × Image) :=
  img.nextBlock.bind fun (bno, img) =>
    (img.saveBlockLink dirf nblk bno).map fun img =>
      (bno, img.setWord (Fs.sizePtr dirf) (img.disk.fSize dirf + 4096))

/-- The block that `create_file` finds under number `i`. -/
def linkOf (img : Image) (dirf : FilePtr) (i : Nat) : Nat :=
  if i < NDIRECT then (img.disk.word (dirf.1, dirf.2 + 34 + i)).toNat
  else (img.disk.word (img.disk.fIndirect dirf, i)).toNat

/-- `create_file` -/
def createFile (img : Image) (dirf : FilePtr) : Option (FilePtr × Image) :=
  let nblk := (img.disk.fSize dirf).toNat / 4096
  match (List.range nblk).findSome? fun i =>
      (Fs.filesOf (img.linkOf dirf i)).find? img.disk.isFreeEntry with
  | some f => some (f, img)
  | none => (img.makeLinkBlock dirf nblk).map fun (bno, img) => ((bno, 0), img)

/-- Bytes stored one after the other, from byte `k` of `f` on. -/
def setBytes (s : Fs) (f : FilePtr) : Nat → List Byte → Fs
  | _, [] => s
  | k, c :: bytes => setBytes (s.setNameByte f k c) f (k + 1) bytes

/-- What `read` returns of a file, 4096 bytes at a time. -/
def chunks (content : List Byte) : List (List Byte) :=
  (List.range ((content.length + 4095) / 4096)).map fun i => (content.drop (4096 * i)).take 4096

/-- The loop of `write_file`, with block `iblk` next. -/
def writeBlocks (img : Image) (target : FilePtr) : Nat → List (List Byte) → Option Image
  | _, [] => some img
  | iblk, chunk :: rest =>
      if img.nextbno < NBLOCK then
        ({ img with disk := setBytes img.disk (img.nextbno, 0) 0 chunk }.nextBlock.bind
          fun (bno, img) => img.saveBlockLink target iblk bno).bind
            fun img => img.writeBlocks target (iblk + 1) rest
      else none

/-- `write_file`, once the file has its structure. -/
def fillFile (img : Image) (target : FilePtr) (name : FsName) (content : List Byte) :
    Option Image :=
  let img := { img with disk := img.disk.setNameFrom target 0 name }
  let img := img.setWord (Fs.sizePtr target) (.ofNat 32 content.length)
  let img := img.setWord (target.1, target.2 + 33) FTYPE_REG
  img.writeBlocks target 0 (chunks content)

/-- `write_file` -/
def writeFile (img : Image) (dirf : FilePtr) (name : FsName) (content : List Byte) :
    Option Image :=
  (img.createFile dirf).bind fun (target, img) => img.fillFile target name content

/-- The name and the type of a new directory. `strncpy` copies 127 characters at most
and fills up with zeros; what it leaves in the last one is checked. -/
def fillDir (img : Image) (pdir : FilePtr) (name : FsName) : Option Image :=
  let name := name.take (MAXNAMELEN - 1)
  let padding := List.replicate (MAXNAMELEN - 1 - name.length) 0
  let img := { img with disk := setBytes img.disk pdir 0 (name ++ padding) }
  if img.disk.nameByte pdir (MAXNAMELEN - 1) ≠ 0 then none
  else some (img.setWord (pdir.1, pdir.2 + 33) FTYPE_DIR)

/-- `write_file` and `write_directory` for each of the files: the loop over the
arguments, and that of `write_directory` over what `readdir` returns. -/
def writeAll (img : Image) (dirf : FilePtr) : HostFiles → Option Image
  | .nil => some img
  | .reg name content next =>
      (img.writeFile dirf name content).bind fun img => img.writeAll dirf next
  | .dir name kids next =>
      (img.createFile dirf).bind fun (pdir, img) =>
        ((img.fillDir pdir name).bind fun img => img.writeAll pdir kids).bind fun img =>
          img.writeAll dirf next

/-- `init_disk`: the bitmap has a set bit for each of the `NBLOCK` blocks, and the super
block its two words and the root. -/
def initDisk : Image where
  disk :=
    { nblocks := NBLOCK
      bitmap := fun i => if i < 32 then BitVec.allOnes 32 else 0
      diskBitmap := fun _ => 0
      blk := fun b w => if b ≠ 1 then 0
        else if w = 0 then FS_MAGIC
        else if w = 1 then .ofNat 32 NBLOCK
        else if w = 2 then slash.setWidth 32
        else if w = 2 + 33 then FTYPE_DIR
        else 0
      mapped := fun _ => false
      answers := [] }
  nextbno := 3

/-- `flush_bitmap` -/
def flushBitmap (img : Image) : Image :=
  { img with disk := { img.disk with
      bitmap := (List.range img.nextbno).foldl PackedBits.clear img.disk.bitmap } }

/-- `main` -/
def fsformat (files : HostFiles) : Option Image :=
  (initDisk.writeAll Fs.root files).map flushBitmap

/-- The server mounts the disk. -/
def mount (img : Image) (answers : List (Except Err Unit)) : Option Fs :=
  (Fs.readSuper (img.disk.blk 1 0) (img.disk.blk 1 1)).bind fun nblocks =>
    Fs.readBitmap nblocks img.disk.bitmap img.disk.blk answers

end Image

variable {s t : Fs} {d f : FilePtr} {b c i j k lo hi m n next w : Nat} {name : FsName}
  {content : List Byte}

/-! ## Slots and bytes -/

namespace Fs

/-- The slots lie in the structure and in the indirect block. -/
theorem fileSlot_congr
    (fields : ∀ w, 34 ≤ w → w ≤ 44 → t.blk f.1 (f.2 + w) = s.blk f.1 (f.2 + w))
    (index : s.fIndirect f ≠ 0 → ∀ w, t.blk (s.fIndirect f) w = s.blk (s.fIndirect f) w) :
    (∀ k, t.fileSlot f k = s.fileSlot f k) ∧ t.fIndirect f = s.fIndirect f := by
  have there : t.fIndirect f = s.fIndirect f := by
    unfold fIndirect
    rw [fields 44 (by omega) (by omega)]
  refine ⟨fun k => ?_, there⟩
  by_cases direct : k < NDIRECT
  · have ten : NDIRECT = 10 := rfl
    rw [fileSlot_direct direct, fileSlot_direct direct, Nat.add_assoc,
      fields (34 + k) (by omega) (by omega)]
  · unfold fileSlot slotPtr
    rw [if_neg direct, if_neg direct, there]
    split
    · next ptr some =>
        split at some
        · next both =>
            cases some
            exact congrArg _ (index both.2 k)
        · cases some
    · rfl

theorem fileSlot_index (beyond : NDIRECT ≤ k) (inside : k < NINDIRECT)
    (there : s.fIndirect f ≠ 0) : s.fileSlot f k = (s.blk (s.fIndirect f) k).toNat := by
  rw [fileSlot, slotPtr, if_neg (Nat.not_lt.mpr beyond), if_pos ⟨inside, there⟩]
  rfl

end Fs

namespace Image

variable {img img' : Image} {bno : Nat} {bytes : List Byte}

/-- Bytes that are stored change the words they lie in and nothing else. -/
theorem blk_setBytes_outside
    (outside : ¬ (b = f.1 ∧ f.2 ≤ w ∧ 4 * w < 4 * f.2 + (k + bytes.length))) :
    (setBytes s f k bytes).blk b w = s.blk b w := by
  induction bytes generalizing s k with
  | nil => rfl
  | cons c bytes ih =>
      rw [List.length_cons] at outside
      rw [setBytes, ih fun inside => outside ⟨inside.1, inside.2.1, by omega⟩,
        Fs.blk_setNameByte_of_ne]
      rintro ⟨rfl, rfl⟩
      exact outside ⟨rfl, by omega, by omega⟩

theorem blk_setBytes (other : b ≠ f.1) : (setBytes s f k bytes).blk b w = s.blk b w :=
  blk_setBytes_outside fun inside => other inside.1

theorem nameByte_setBytes_before (before : j < k) :
    (setBytes s f k bytes).nameByte f j = s.nameByte f j := by
  induction bytes generalizing s k with
  | nil => rfl
  | cons c bytes ih =>
      rw [setBytes, ih (by omega), Fs.nameByte_setNameByte, if_neg (by omega)]

theorem nameByte_setBytes (inside : j < bytes.length) :
    (setBytes s f k bytes).nameByte f (k + j) = bytes[j] := by
  induction bytes generalizing s k j with
  | nil => cases inside
  | cons c bytes ih =>
      cases j with
      | zero =>
          show (setBytes (s.setNameByte f k c) f (k + 1) bytes).nameByte f k = c
          rw [nameByte_setBytes_before (Nat.lt_succ_self k), Fs.nameByte_setNameByte, if_pos rfl]
      | succ j =>
          rw [setBytes, ← Nat.add_assoc, Nat.add_right_comm, ih (Nat.lt_of_succ_lt_succ inside)]
          rfl

/-- `strcpy` stores the name and its terminator. -/
theorem setNameFrom_eq : s.setNameFrom f k name = setBytes s f k (name ++ [0]) := by
  induction name generalizing s k with
  | nil => rfl
  | cons c name ih =>
      rw [Fs.setNameFrom, ih]
      rfl

/-! ## A block is linked -/

/-- Nothing was stored behind the blocks taken. -/
def Blank (img : Image) : Prop := ∀ b, img.nextbno ≤ b → ∀ w, img.disk.blk b w = 0

/-- The slots before `m` are taken; the structure and the indirect block are. -/
structure Tail (img : Image) (f : FilePtr) (m : Nat) : Prop where
  indirect : img.disk.fIndirect f = 0 ↔ m ≤ 10
  inside : f.1 ≠ 0 ∧ f.1 < img.nextbno
  below : img.disk.fIndirect f < img.nextbno
  apart : img.disk.fIndirect f ≠ f.1

/-- Slot `m` has become `bno`. -/
structure Links (img : Image) (f : FilePtr) (m bno : Nat) (img' : Image) : Prop where
  most : m < 1024
  blank : img'.Blank
  next : img'.nextbno = img.nextbno + if m = 10 then 1 else 0
  bound : img'.nextbno ≤ NBLOCK
  slot : ∀ k < 1024, img'.disk.fileSlot f k = if k = m then bno else img.disk.fileSlot f k
  indirect : img'.disk.fIndirect f = if m = 10 then img.nextbno else img.disk.fIndirect f
  other : ∀ b w, ¬ (b = f.1 ∧ f.2 + 34 ≤ w ∧ w ≤ f.2 + 44) → ¬ (b ≠ 0 ∧ b = img'.disk.fIndirect f) →
    img'.disk.blk b w = img.disk.blk b w

theorem toNat_block (bound : b ≤ NBLOCK) : (BitVec.ofNat 32 b).toNat = b := by
  have size : NBLOCK = 1024 := rfl
  rw [BitVec.toNat_ofNat, Nat.mod_eq_of_lt (by omega)]

theorem nextBlock_eq {x : Nat × Image} (run : img.nextBlock = some x) :
    img.nextbno < NBLOCK ∧ x = (img.nextbno, { img with nextbno := img.nextbno + 1 }) := by
  unfold nextBlock at run
  split at run
  · next room => exact ⟨room, (Option.some.inj run).symm⟩
  · cases run

theorem saveBlockLink_spec (run : img.saveBlockLink f m bno = some img') (blank : img.Blank)
    (tail : img.Tail f m) (room : img.nextbno ≤ NBLOCK) (small : bno ≤ NBLOCK) :
    img.Links f m bno img' := by
  have ten : NDIRECT = 10 := rfl
  have all : NINDIRECT = 1024 := rfl
  obtain ⟨indirect, ⟨nonzero, inside⟩, below, apart⟩ := tail
  unfold saveBlockLink at run
  split at run
  swap
  · cases run
  next most =>
  split at run
  case isTrue direct =>
    have none : img.disk.fIndirect f = 0 := indirect.mpr (by omega)
    have there : (img.disk.setWord (f.1, f.2 + 34 + m) (.ofNat 32 bno)).fIndirect f =
        img.disk.fIndirect f := by
      unfold Fs.fIndirect
      rw [Fs.blk_setWord, if_neg]
      rintro ⟨-, same⟩
      dsimp only at same
      omega
    cases run
    refine ⟨by omega, fun b behind w => ?_, by rw [if_neg (by omega)]; rfl, room, fun k lt => ?_,
      by rw [if_neg (by omega)]; exact there, fun b w outside _ => ?_⟩
    · refine Eq.trans (if_neg ?_) (blank b behind w)
      rintro ⟨rfl, -⟩
      exact absurd behind (Nat.not_le.mpr inside)
    · by_cases first : k < NDIRECT
      · show (img.disk.setWord _ _).fileSlot f k = _
        rw [Fs.fileSlot_direct first, Fs.fileSlot_direct first, Fs.blk_setWord]
        by_cases same : k = m
        · rw [if_pos ⟨rfl, by rw [same]⟩, if_pos same, toNat_block small]
        · rw [if_neg, if_neg same]
          rintro ⟨-, equal⟩
          dsimp only at equal
          omega
      · show (img.disk.setWord _ _).fileSlot f k = _
        rw [if_neg (by omega), Fs.fileSlot_no_indirect (Nat.not_lt.mp first) none,
          Fs.fileSlot_no_indirect (Nat.not_lt.mp first) (there.trans none)]
    · refine if_neg ?_
      rintro ⟨rfl, rfl⟩
      exact outside ⟨rfl, by dsimp only; omega, by dsimp only; omega⟩
  case isFalse direct =>
    split at run
    case isTrue none =>
      have last : m = 10 := by have := indirect.mp none; omega
      obtain ⟨⟨index, img₁⟩, taken, rest⟩ := Option.map_eq_some_iff.mp run
      obtain ⟨free, same⟩ := nextBlock_eq taken
      cases same
      have away : img.nextbno ≠ f.1 := by omega
      have blk : ∀ b w, img'.disk.blk b w = if b = img.nextbno ∧ w = m then .ofNat 32 bno
          else if b = f.1 ∧ w = f.2 + 44 then .ofNat 32 img.nextbno else img.disk.blk b w := by
        intro b w
        rw [← rest]
        rfl
      have there : img'.disk.fIndirect f = img.nextbno := by
        unfold Fs.fIndirect
        rw [blk, if_neg fun both => away both.1.symm, if_pos ⟨rfl, rfl⟩, toNat_block room]
      have next : img'.nextbno = img.nextbno + 1 := by rw [← rest]; rfl
      refine ⟨by omega, fun b behind w => ?_, by rw [if_pos last, next], by omega, fun k lt => ?_,
        by rw [if_pos last, there], fun b w outside notIndex => ?_⟩
      · rw [blk, if_neg (by omega), if_neg (by omega)]
        exact blank b (by omega) w
      · by_cases first : k < NDIRECT
        · rw [Fs.fileSlot_direct first, Fs.fileSlot_direct first, blk,
            if_neg fun both => away both.1.symm, if_neg (by omega), if_neg (by omega)]
        · rw [Fs.fileSlot_index (by omega) (by omega) (by omega), there, blk,
            Fs.fileSlot_no_indirect (Nat.not_lt.mp first) none]
          by_cases same : k = m
          · rw [if_pos ⟨rfl, same⟩, if_pos same, toNat_block small]
          · rw [if_neg fun both => same both.2, if_neg fun both => away both.1, if_neg same,
              blank _ (Nat.le_refl _)]
            rfl
      · rw [there] at notIndex
        rw [blk, if_neg (by omega), if_neg]
        rintro ⟨rfl, rfl⟩
        exact outside ⟨rfl, by omega, by omega⟩
    case isFalse some =>
      have last : m ≠ 10 := fun same => some (indirect.mpr (by omega))
      have there : (img.disk.setWord (img.disk.fIndirect f, m) (.ofNat 32 bno)).fIndirect f =
          img.disk.fIndirect f := by
        unfold Fs.fIndirect
        rw [Fs.blk_setWord, if_neg]
        rintro ⟨same, -⟩
        exact apart same.symm
      cases run
      refine ⟨by omega, fun b behind w => ?_, by rw [if_neg last]; rfl, room, fun k lt => ?_,
        by rw [if_neg last]; exact there, fun b w _ notIndex => ?_⟩
      · refine Eq.trans (if_neg ?_) (blank b behind w)
        rintro ⟨rfl, -⟩
        exact absurd behind (Nat.not_le.mpr below)
      · show (img.disk.setWord _ _).fileSlot f k = _
        by_cases first : k < NDIRECT
        · rw [Fs.fileSlot_direct first, Fs.fileSlot_direct first, Fs.blk_setWord,
            if_neg fun both => apart both.1.symm, if_neg (by omega)]
        · rw [Fs.fileSlot_index (by omega) (by omega) (by rw [there]; exact some),
            Fs.fileSlot_index (by omega) (by omega) some, there, Fs.blk_setWord]
          by_cases same : k = m
          · rw [if_pos ⟨rfl, same⟩, if_pos same, toNat_block small]
          · rw [if_neg fun both => same both.2, if_neg same]
      · refine if_neg ?_
        rintro ⟨rfl, -⟩
        exact notIndex ⟨some, there.symm⟩

/-! ## The blocks of a regular file -/

/-- Block `k` of a file whose first one is block `m`: the indirect block is taken right
after block 10. -/
def filePos (m k : Nat) : Nat := m + k + if 10 < k then 1 else 0

theorem filePos_cases (m k : Nat) :
    filePos m k = m + k ∧ k ≤ 10 ∨ filePos m k = m + k + 1 ∧ 10 < k := by
  unfold filePos
  split <;> omega

end Image

open Image in
/-- The file has `c` blocks, from block `m` on. -/
structure Fs.FileBlocks (s : Fs) (f : FilePtr) (m c : Nat) : Prop where
  most : c ≤ 1024
  slot : ∀ k < c, s.fileSlot f k = filePos m k
  noSlot : ∀ k, c ≤ k → k < 1024 → s.fileSlot f k = 0
  indirect : s.fIndirect f = if 10 < c then m + 11 else 0

namespace Image

variable {img img' : Image} {bno : Nat} {bytes : List Byte}

/-- The rest of a file has been written, from block `c` of it on. -/
structure Filled (img : Image) (f : FilePtr) (m c : Nat) (rest : List (List Byte))
    (img' : Image) : Prop where
  blocks : img'.disk.FileBlocks f m (c + rest.length)
  next : img'.nextbno = filePos m (c + rest.length)
  blank : img'.Blank
  bound : img'.nextbno ≤ NBLOCK
  other : ∀ b w, b < img.nextbno → b ≠ m + 11 → ¬ (b = f.1 ∧ f.2 + 34 ≤ w ∧ w ≤ f.2 + 44) →
    img'.disk.blk b w = img.disk.blk b w
  data : ∀ k (lt : k < rest.length) j (inside : j < rest[k].length),
    img'.disk.nameByte (filePos m (c + k), 0) j = rest[k][j]

theorem writeBlocks_cons {chunk : List Byte} {rest : List (List Byte)}
    (run : img.writeBlocks f c (chunk :: rest) = some img') :
    ∃ img₂, Image.saveBlockLink ⟨setBytes img.disk (img.nextbno, 0) 0 chunk, img.nextbno + 1⟩
        f c img.nextbno = some img₂ ∧
      img.nextbno < NBLOCK ∧ img₂.writeBlocks f (c + 1) rest = some img' := by
  rw [writeBlocks] at run
  split at run
  · next room =>
      obtain ⟨img₂, linked, later⟩ := Option.bind_eq_some_iff.mp run
      obtain ⟨x, taken, linked⟩ := Option.bind_eq_some_iff.mp linked
      obtain ⟨-, rfl⟩ := nextBlock_eq taken
      exact ⟨img₂, linked, room, later⟩
  · cases run

/-- One more block. -/
theorem fileBlocks_append (blocks : img.disk.FileBlocks f m c) (at_next : img.nextbno = filePos m c)
    (blank : img.Blank) (inside : f.1 ≠ 0 ∧ f.1 < m) (room : img.nextbno < NBLOCK)
    (run : Image.saveBlockLink ⟨setBytes img.disk (img.nextbno, 0) 0 bytes, img.nextbno + 1⟩
      f c img.nextbno = some img') :
    img'.disk.FileBlocks f m (c + 1) ∧ img'.nextbno = filePos m (c + 1) ∧ img'.Blank ∧
      img'.nextbno ≤ NBLOCK ∧
      ∀ b w, b ≠ m + 11 → ¬ (b = f.1 ∧ f.2 + 34 ≤ w ∧ w ≤ f.2 + 44) →
        img'.disk.blk b w = (setBytes img.disk (img.nextbno, 0) 0 bytes).blk b w := by
  have place_next := filePos_cases m c
  rw [← at_next] at place_next
  have away : f.1 ≠ img.nextbno := by omega
  have old := blocks.indirect
  have place : img.disk.fIndirect f ≠ 0 → img.disk.fIndirect f = m + 11 ∧ 10 < c := by
    intro there
    split at old
    · next big => exact ⟨old, big⟩
    · exact absurd old there
  obtain ⟨slots, index⟩ := Fs.fileSlot_congr (t := setBytes img.disk (img.nextbno, 0) 0 bytes)
    (fun w _ _ => blk_setBytes away) fun there w => blk_setBytes (by
      have here := place there
      omega)
  have links := saveBlockLink_spec run (fun b behind w => (blk_setBytes (by
      have later : img.nextbno + 1 ≤ b := behind
      exact Nat.ne_of_gt later)).trans (blank b (Nat.le_of_succ_le behind) w))
    ⟨by
      show (setBytes img.disk (img.nextbno, 0) 0 bytes).fIndirect f = 0 ↔ _
      rw [index, old]
      split <;> omega,
    ⟨inside.1, by
      show f.1 < img.nextbno + 1
      omega⟩, by
      show (setBytes img.disk (img.nextbno, 0) 0 bytes).fIndirect f < img.nextbno + 1
      rw [index, old]
      split <;> omega, by
      show (setBytes img.disk (img.nextbno, 0) 0 bytes).fIndirect f ≠ f.1
      rw [index, old]
      split <;> omega⟩ room (Nat.le_of_lt room)
  have most := links.most
  have there : img'.disk.fIndirect f = if 10 < c + 1 then m + 11 else 0 := by
    rw [links.indirect]
    show (if c = 10 then img.nextbno + 1 else
      (setBytes img.disk (img.nextbno, 0) 0 bytes).fIndirect f) = _
    rw [index, old]
    by_cases last : c = 10
    · rw [if_pos last, if_pos (by omega)]
      omega
    · rw [if_neg last]
      split <;> split <;> omega
  refine ⟨⟨most, fun k lt => ?_, fun k behind lt => ?_, there⟩, ?_, links.blank, links.bound,
    fun b w notIndex outside => links.other b w outside ?_⟩
  · rw [links.slot k (by omega)]
    split
    · next same => rw [same, at_next, filePos]
    · exact (slots k).trans (blocks.slot k (by omega))
  · rw [links.slot k lt, if_neg (by omega)]
    exact (slots k).trans (blocks.noSlot k (by omega) lt)
  · rw [links.next]
    have place_later := filePos_cases m (c + 1)
    show img.nextbno + 1 + (if c = 10 then 1 else 0) = _
    split <;> omega
  · rintro ⟨nonzero, same⟩
    rw [there] at same
    split at same <;> omega

theorem writeBlocks_spec {rest : List (List Byte)} (inside : f.1 ≠ 0 ∧ f.1 < m) :
    ∀ {c : Nat} {img : Image}, img.writeBlocks f c rest = some img' →
      img.disk.FileBlocks f m c → img.nextbno = filePos m c → img.Blank → img.nextbno ≤ NBLOCK →
      img.Filled f m c rest img' := by
  induction rest with
  | nil =>
      intro c img run blocks next blank bound
      cases run
      exact ⟨blocks, next, blank, bound, fun _ _ _ _ _ => rfl, fun _ lt => absurd lt (by simp)⟩
  | cons chunk rest ih =>
      intro c img run blocks next blank bound
      obtain ⟨img₂, linked, room, later⟩ := writeBlocks_cons run
      obtain ⟨blocks₂, next₂, blank₂, bound₂, other₂⟩ :=
        fileBlocks_append blocks next blank inside room linked
      have filled := ih later blocks₂ next₂ blank₂ bound₂
      have count : c + (chunk :: rest).length = c + 1 + rest.length := by
        rw [List.length_cons]
        omega
      have grew : img.nextbno < img₂.nextbno := by
        have before := filePos_cases m c
        have after := filePos_cases m (c + 1)
        omega
      refine ⟨count ▸ filled.blocks, count ▸ filled.next, filled.blank, filled.bound,
        fun b w below notIndex outside => ?_, fun k lt j short => ?_⟩
      · rw [filled.other b w (by omega) notIndex outside, other₂ b w notIndex outside,
          blk_setBytes (Nat.ne_of_lt below)]
      · cases k with
        | zero =>
            have here : filePos m (c + 0) = img.nextbno := next.symm
            have notIndex : img.nextbno ≠ m + 11 := by
              have place := filePos_cases m c
              omega
            have outside : ∀ w, ¬ (img.nextbno = f.1 ∧ f.2 + 34 ≤ w ∧ w ≤ f.2 + 44) := by
              rintro w ⟨same, -⟩
              have place := filePos_cases m c
              omega
            have byte := nameByte_setBytes (s := img.disk) (f := (img.nextbno, 0)) (k := 0) short
            rw [Nat.zero_add] at byte
            rw [here, ← byte, Fs.nameByte, Fs.nameByte, filled.other _ _ grew notIndex (outside _),
              other₂ _ _ notIndex (outside _)]
            rfl
        | succ k =>
            have data := filled.data k (Nat.lt_of_succ_lt_succ lt) j short
            rw [Nat.add_assoc, Nat.add_comm 1 k] at data
            exact data

end Image

/-! ## Directories -/

namespace Fs

/-- Where entry `j` of a directory is. -/
def entryAt (s : Fs) (d : FilePtr) (j : Nat) : FilePtr := (s.fileSlot d (j / 16), 64 * (j % 16))

/-- A directory with `m` blocks, all between `lo` and `hi`, and `n` entries in use: those
behind are empty. -/
structure DirAt (s : Fs) (d : FilePtr) (n m lo hi : Nat) : Prop where
  most : m ≤ 1024
  fits : n ≤ 16 * m
  size : s.fSize d = .ofNat 32 (4096 * m)
  slot : ∀ k < m, lo ≤ s.fileSlot d k ∧ s.fileSlot d k < hi
  once : ∀ k < m, ∀ k' < m, s.fileSlot d k = s.fileSlot d k' → k = k'
  noSlot : ∀ k, m ≤ k → k < 1024 → s.fileSlot d k = 0
  indirect : s.fIndirect d = 0 ↔ m ≤ 10
  index : 10 < m → lo ≤ s.fIndirect d ∧ s.fIndirect d < hi ∧
    ∀ k < m, s.fileSlot d k ≠ s.fIndirect d
  named : ∀ j < n, s.isFreeEntry (s.entryAt d j) = false
  empty : ∀ j, n ≤ j → j < 16 * m → ∀ w < 64,
    s.blk (s.entryAt d j).1 ((s.entryAt d j).2 + w) = 0

/-- A word of entry `j`. -/
def InEntry (s : Fs) (d : FilePtr) (j b w : Nat) : Prop :=
  b = (s.entryAt d j).1 ∧ (s.entryAt d j).2 ≤ w ∧ w < (s.entryAt d j).2 + 64

/-- A word that is written when a block is added to the directory. -/
def InStruct (d : FilePtr) (b w : Nat) : Prop :=
  b = d.1 ∧ (w = d.2 + 32 ∨ d.2 + 34 ≤ w ∧ w ≤ d.2 + 44)

/-- What changed below `next` while a directory got the entries from `n` on, and its
blocks from `m` on. -/
structure Grows (s : Fs) (d : FilePtr) (n m next : Nat) (t : Fs) : Prop where
  slots : ∀ k < m, t.fileSlot d k = s.fileSlot d k
  newSlots : ∀ k, m ≤ k → k < 1024 → t.fileSlot d k = 0 ∨ next ≤ t.fileSlot d k
  index : t.fIndirect d = s.fIndirect d ∨ s.fIndirect d = 0 ∧ next ≤ t.fIndirect d
  other : ∀ b w, b < next → ¬ InStruct d b w → ¬ (b ≠ 0 ∧ b = s.fIndirect d) →
    (∀ j, n ≤ j → j < 16 * m → ¬ s.InEntry d j b w) → t.blk b w = s.blk b w

/-- Blocks for entry `i` of a directory have been taken from `lo` on. -/
def Linked (s : Fs) (d : FilePtr) (i lo m : Nat) : Prop :=
  m = lo + (if i % 16 = 0 then if i / 16 = 10 then 2 else 1 else 0) ∧
    (i % 16 = 0 → s.fileSlot d (i / 16) = lo) ∧ (i = 160 → s.fIndirect d = lo + 1)

variable {m' n' next' : Nat} {u : Fs} {e : FilePtr}

theorem entryAt_block (short : j < 16) : s.entryAt d (16 * i + j) = (s.fileSlot d i, 64 * j) := by
  rw [entryAt, Nat.mul_add_div (by omega), Nat.div_eq_of_lt short, Nat.add_zero, Nat.mul_add_mod,
    Nat.mod_eq_of_lt short]

theorem entryAt_congr (same : t.fileSlot d (j / 16) = s.fileSlot d (j / 16)) :
    t.entryAt d j = s.entryAt d j := by
  rw [entryAt, entryAt, same]

/-- Entries of one directory are apart. -/
theorem DirAt.entry_inj (dir : s.DirAt d n m lo hi) (first : i < 16 * m) (second : j < 16 * m)
    (inFirst : s.InEntry d i b w) (inSecond : s.InEntry d j b w) : i = j := by
  obtain ⟨at_i, low, high⟩ := inFirst
  obtain ⟨at_j, low', high'⟩ := inSecond
  have block : i / 16 = j / 16 := dir.once _ (by omega) _ (by omega) (at_i.symm.trans at_j)
  unfold entryAt at low high low' high'
  dsimp only at low high low' high'
  omega

/-- Entries lie neither in the structure nor in the indirect block. -/
theorem DirAt.entry_apart (dir : s.DirAt d n m lo hi) (below : d.1 < lo) (inside : j < 16 * m) :
    lo ≤ (s.entryAt d j).1 ∧ (s.entryAt d j).1 < hi ∧ (s.entryAt d j).1 ≠ d.1 ∧
      ¬ ((s.entryAt d j).1 ≠ 0 ∧ (s.entryAt d j).1 = s.fIndirect d) := by
  have slot : (s.entryAt d j).1 = s.fileSlot d (j / 16) := rfl
  obtain ⟨low, high⟩ := dir.slot (j / 16) (by omega)
  rw [slot]
  refine ⟨low, high, by omega, fun both => ?_⟩
  by_cases big : 10 < m
  · exact (dir.index big).2.2 _ (by omega) both.2
  · have none := dir.indirect.mpr (by omega)
    omega

theorem isFreeEntry_congr (same : t.blk f.1 f.2 = s.blk f.1 f.2) :
    t.isFreeEntry f = s.isFreeEntry f := by
  unfold isFreeEntry nameByte
  rw [Nat.zero_div, Nat.add_zero, same]

/-- The words of a directory have not changed. -/
theorem DirAt.congr (dir : s.DirAt d n m lo hi)
    (fields : ∀ w, 32 ≤ w → w ≤ 44 → t.blk d.1 (d.2 + w) = s.blk d.1 (d.2 + w))
    (inside : ∀ b, lo ≤ b → b < hi → ∀ w, t.blk b w = s.blk b w) :
    t.DirAt d n m lo hi ∧ (∀ k, t.fileSlot d k = s.fileSlot d k) ∧
      t.fIndirect d = s.fIndirect d := by
  obtain ⟨slots, index⟩ := fileSlot_congr (t := t) (s := s) (f := d)
    (fun w low high => fields w (by omega) high) fun there w => by
      have big : 10 < m := Nat.lt_of_not_le fun small => there (dir.indirect.mpr small)
      obtain ⟨low, high, -⟩ := dir.index big
      exact inside _ low high w
  have entries : ∀ j, t.entryAt d j = s.entryAt d j := fun j => entryAt_congr (slots _)
  have words : ∀ j < 16 * m, ∀ w, t.blk (s.entryAt d j).1 w = s.blk (s.entryAt d j).1 w := by
    intro j lt w
    obtain ⟨low, high⟩ := dir.slot (j / 16) (by omega)
    exact inside _ low high w
  refine ⟨⟨dir.most, dir.fits, ?_, ?_, ?_, ?_, ?_, ?_, fun j lt => ?_, fun j low high w lt => ?_⟩,
    slots, index⟩
  · exact (fields 32 (by omega) (by omega)).trans dir.size
  · simpa only [slots] using dir.slot
  · simpa only [slots] using dir.once
  · simpa only [slots] using dir.noSlot
  · rw [index]
    exact dir.indirect
  · simpa only [slots, index] using dir.index
  · rw [entries, isFreeEntry_congr (words j (Nat.lt_of_lt_of_le lt dir.fits) _)]
    exact dir.named j lt
  · rw [entries, words j high]
    exact dir.empty j low high w lt

/-- One growth after another. -/
theorem Grows.trans (first : s.Grows d n m next t) (second : t.Grows d n' m' next' u)
    (entries : n ≤ n') (blocks : m ≤ m') (more : next ≤ next')
    (placed : ∀ k, m ≤ k → k < m' → next ≤ t.fileSlot d k) : s.Grows d n m next u := by
  refine ⟨fun k lt => ?_, fun k behind lt => ?_, ?_, fun b w low struct index entry => ?_⟩
  · rw [second.slots k (by omega), first.slots k lt]
  · by_cases old : k < m'
    · rw [second.slots k old]
      exact .inr (placed k behind old)
    · rcases second.newSlots k (by omega) lt with none | high
      · exact .inl none
      · exact .inr (more.trans high)
  · rcases second.index with same | ⟨none, high⟩
    · rcases first.index with same' | ⟨none, high⟩
      · exact .inl (same.trans same')
      · exact .inr ⟨none, same ▸ high⟩
    · rcases first.index with same' | ⟨none', high'⟩
      · exact .inr ⟨same'.symm.trans none, more.trans high⟩
      · exact .inr ⟨none', more.trans high⟩
  · have before := first.other b w low struct index entry
    refine (second.other b w (by omega) struct ?_ ?_).trans before
    · rintro ⟨nonzero, same⟩
      rcases first.index with same' | ⟨none, high⟩
      · exact index ⟨nonzero, same.trans same'⟩
      · omega
    · intro j late lt inEntry
      by_cases old : j < 16 * m
      · have place : t.entryAt d j = s.entryAt d j := entryAt_congr (first.slots _ (by omega))
        apply entry j (by omega) old
        unfold InEntry at inEntry ⊢
        rw [← place]
        exact inEntry
      · have high := placed (j / 16) (by omega) (by omega)
        have at_slot : b = t.fileSlot d (j / 16) := inEntry.1
        omega

/-- The entry behind those in use has been filled. -/
theorem DirAt.fill (dir : s.DirAt d n m lo next) (below : d.1 < lo) (room : n < 16 * m)
    (later : next ≤ next')
    (other : ∀ b w, b < next → ¬ s.InEntry d n b w → t.blk b w = s.blk b w)
    (named : t.isFreeEntry (s.entryAt d n) = false) :
    t.DirAt d (n + 1) m lo next' ∧ s.Grows d n m next t ∧
      (∀ k, t.fileSlot d k = s.fileSlot d k) ∧ t.fIndirect d = s.fIndirect d := by
  obtain ⟨low, high, away, notIndex⟩ := dir.entry_apart below room
  have struct : ∀ w, t.blk d.1 w = s.blk d.1 w := fun w =>
    other _ w (by omega) fun inEntry => away inEntry.1.symm
  obtain ⟨slots, index⟩ := fileSlot_congr (t := t) (s := s) (f := d) (fun w _ _ => struct _)
    fun there w => by
      have big : 10 < m := Nat.lt_of_not_le fun small => there (dir.indirect.mpr small)
      refine other _ w (dir.index big).2.1 fun inEntry => notIndex ⟨?_, inEntry.1.symm⟩
      rw [← inEntry.1]
      exact there
  have entries : ∀ j, t.entryAt d j = s.entryAt d j := fun j => entryAt_congr (slots _)
  have words : ∀ j < 16 * m, j ≠ n → ∀ w < 64,
      t.blk (s.entryAt d j).1 ((s.entryAt d j).2 + w) =
        s.blk (s.entryAt d j).1 ((s.entryAt d j).2 + w) := by
    intro j lt differ w short
    refine other _ _ (dir.slot _ (by omega)).2 fun inEntry => differ ?_
    exact dir.entry_inj lt room ⟨rfl, by omega, by omega⟩ inEntry
  refine ⟨⟨dir.most, room, ?_, ?_, ?_, ?_, ?_, ?_, fun j lt => ?_, fun j behind lt w short => ?_⟩,
    ⟨fun k _ => slots k, fun k behind lt => .inl ((slots k).trans (dir.noSlot k behind lt)),
      .inl index, fun b w low _ _ entry => other b w low (entry n (Nat.le_refl n) room)⟩,
    slots, index⟩
  · exact (struct _).trans dir.size
  · intro k lt
    rw [slots]
    have place := dir.slot k lt
    omega
  · simpa only [slots] using dir.once
  · simpa only [slots] using dir.noSlot
  · rw [index]
    exact dir.indirect
  · intro big
    obtain ⟨low, high, differ⟩ := dir.index big
    rw [index]
    exact ⟨low, by omega, fun k lt => slots k ▸ differ k lt⟩
  · rw [entries]
    by_cases last : j = n
    · rw [last]
      exact named
    · rw [isFreeEntry_congr (words j (by omega) last 0 (by omega))]
      exact dir.named j (by omega)
  · rw [entries, words j lt (by omega) w short]
    exact dir.empty j (by omega) lt w short

/-- What was written before the directory grew again. -/
theorem Grows.keeps (grows : t.Grows d (n + 1) m next' u) (dir : t.DirAt d (n + 1) m lo next')
    (before : s.DirAt d n m lo next) (slots : ∀ k, t.fileSlot d k = s.fileSlot d k)
    (index : t.fIndirect d = s.fIndirect d) (below : d.1 < lo) (low : lo ≤ next)
    (room : n < 16 * m) :
    (∀ w < 64, u.blk (s.entryAt d n).1 ((s.entryAt d n).2 + w) =
      t.blk (s.entryAt d n).1 ((s.entryAt d n).2 + w)) ∧
      ∀ b, next ≤ b → b < next' → ∀ w, u.blk b w = t.blk b w := by
  have entries : ∀ j, t.entryAt d j = s.entryAt d j := fun j => entryAt_congr (slots _)
  refine ⟨fun w short => ?_, fun b high lt w => ?_⟩
  · obtain ⟨placed, inside, away, notIndex⟩ := dir.entry_apart below (j := n) room
    rw [← entries]
    refine grows.other _ _ inside (fun struct => away struct.1) notIndex fun j late lt inEntry => ?_
    have same := dir.entry_inj (i := n) room lt ⟨rfl, by omega, by omega⟩ inEntry
    omega
  · refine grows.other b w lt (fun struct => ?_) ?_ fun j _ inside inEntry => ?_
    · have at_d := struct.1
      omega
    · rintro ⟨nonzero, same⟩
      rw [index] at same
      have big : 10 < m := Nat.lt_of_not_le fun small =>
        nonzero (same.trans (before.indirect.mpr small))
      have high' := (before.index big).2.1
      omega
    · have at_slot : b = t.fileSlot d (j / 16) := inEntry.1
      have high' := (before.slot (j / 16) (by omega)).2
      rw [slots] at at_slot
      omega

end Fs

namespace Image

variable {img img' : Image} {m' : Nat}

open Fs

theorem size_of_blocks (bound : m ≤ 1024) : (BitVec.ofNat 32 (4096 * m)).toNat / 4096 = m := by
  rw [BitVec.toNat_ofNat, Nat.mod_eq_of_lt (by omega), Nat.mul_div_cancel_left m (by omega)]

theorem linkOf_eq (dir : img.disk.DirAt d n m lo hi) (inside : i < m) :
    img.linkOf d i = img.disk.fileSlot d i := by
  have most := dir.most
  have ten : NDIRECT = 10 := rfl
  have all : NINDIRECT = 1024 := rfl
  unfold linkOf
  split
  · next direct => rw [fileSlot_direct direct]; rfl
  · next beyond =>
      have there : img.disk.fIndirect d ≠ 0 := fun none => by
        have := dir.indirect.mp none
        omega
      rw [fileSlot_index (by omega) (by omega) there]
      rfl

theorem findSome?_congr_mem {α β : Type} {p q : α → Option β} {l : List α}
    (same : ∀ a ∈ l, p a = q a) : l.findSome? p = l.findSome? q := by
  induction l with
  | nil => rfl
  | cons a l ih =>
      rw [List.findSome?_cons, List.findSome?_cons, same a List.mem_cons_self,
        ih fun b inList => same b (List.mem_cons_of_mem a inList)]

/-- A block whose entries are all in use. -/
theorem find?_full (dir : s.DirAt d n m lo hi) (full : 16 * i + 16 ≤ n) :
    (filesOf (s.fileSlot d i)).find? s.isFreeEntry = none := by
  rw [List.find?_eq_none]
  intro f inBlock
  obtain ⟨j, lt, rfl⟩ := List.mem_map.mp inBlock
  have short : j < 16 := List.mem_range.mp lt
  have named := dir.named (16 * i + j) (by omega)
  rw [entryAt_block short] at named
  simp [named]

/-- The first free entry is the one behind those in use. -/
theorem find?_entry (dir : s.DirAt d n ((n + 15) / 16) lo hi) :
    (List.range ((n + 15) / 16)).findSome? (fun i => (filesOf (s.fileSlot d i)).find?
      s.isFreeEntry) = if n % 16 = 0 then none else some (s.entryAt d n) := by
  split
  case isTrue whole =>
    rw [List.findSome?_eq_none_iff]
    intro i inRange
    have lt := List.mem_range.mp inRange
    exact find?_full dir (by omega)
  case isFalse part =>
    have last : (n + 15) / 16 = n / 16 + 1 := by omega
    have before : (List.range (n / 16)).findSome? (fun i => (filesOf (s.fileSlot d i)).find?
        s.isFreeEntry) = none := by
      rw [List.findSome?_eq_none_iff]
      intro i inRange
      have lt := List.mem_range.mp inRange
      exact find?_full dir (by omega)
    have here : (filesOf (s.fileSlot d (n / 16))).find? s.isFreeEntry =
        some (s.entryAt d n) := by
      have free : s.isFreeEntry (s.entryAt d n) = true := by
        have zero := dir.empty n (Nat.le_refl n) (by omega) 0 (by omega)
        rw [Nat.add_zero] at zero
        unfold isFreeEntry nameByte
        rw [Nat.zero_div, Nat.add_zero, zero]
        rfl
      have found : (List.range FILE2BLK).find? (s.isFreeEntry ∘ fun j =>
          (s.fileSlot d (n / 16), 64 * j)) = some (n % 16) := by
        rw [List.find?_range_eq_some]
        refine ⟨free, List.mem_range.mpr (Nat.mod_lt n (by decide)), fun j lt => ?_⟩
        have named := dir.named (16 * (n / 16) + j) (by omega)
        rw [entryAt_block (by omega)] at named
        simp [named]
      rw [filesOf, List.find?_map, found]
      rfl
    rw [last, List.range_succ, List.findSome?_append, before, Option.none_or,
      List.findSome?_singleton, here]

theorem makeLinkBlock_eq (run : (img.makeLinkBlock d m).map (fun (bno, img) => ((bno, 0), img)) =
    some (f, img')) : ∃ img₁,
      Image.saveBlockLink ⟨img.disk, img.nextbno + 1⟩ d m img.nextbno = some img₁ ∧
        img.nextbno < NBLOCK ∧ f = (img.nextbno, 0) ∧
        img' = img₁.setWord (sizePtr d) (img₁.disk.fSize d + 4096) := by
  obtain ⟨made, run, same⟩ := Option.map_eq_some_iff.mp run
  obtain ⟨x, taken, run⟩ := Option.bind_eq_some_iff.mp run
  obtain ⟨room, rfl⟩ := nextBlock_eq taken
  obtain ⟨img₁, linked, rfl⟩ := Option.map_eq_some_iff.mp run
  cases same
  exact ⟨img₁, linked, room, rfl, rfl⟩

/-- A directory whose entries are all in use gets one more block. -/
theorem addBlock_spec {img₁ : Image} (dir : img.disk.DirAt d (16 * m) m lo img.nextbno)
    (blank : img.Blank) (room : img.nextbno < NBLOCK) (below : d.1 < lo)
    (low : lo ≤ img.nextbno) (nonzero : d.1 ≠ 0)
    (linked : Image.saveBlockLink ⟨img.disk, img.nextbno + 1⟩ d m img.nextbno = some img₁) :
    let img' := img₁.setWord (sizePtr d) (img₁.disk.fSize d + 4096)
    img'.disk.DirAt d (16 * m) (m + 1) lo img'.nextbno ∧
      img.disk.Grows d (16 * m) m img.nextbno img'.disk ∧ img'.Blank ∧ img'.nextbno ≤ NBLOCK ∧
      img'.nextbno = img.nextbno + 1 + (if m = 10 then 1 else 0) ∧
      img'.disk.fileSlot d m = img.nextbno ∧
      (m = 10 → img'.disk.fIndirect d = img.nextbno + 1) := by
  intro img'
  have none : m ≤ 10 → img.disk.fIndirect d = 0 := dir.indirect.mpr
  have some : 10 < m → lo ≤ img.disk.fIndirect d ∧ img.disk.fIndirect d < img.nextbno :=
    fun big => ⟨(dir.index big).1, (dir.index big).2.1⟩
  have place : img.disk.fIndirect d = 0 ∨
      lo ≤ img.disk.fIndirect d ∧ img.disk.fIndirect d < img.nextbno := by
    by_cases big : 10 < m
    · exact .inr (some big)
    · exact .inl (none (by omega))
  have links := saveBlockLink_spec linked (fun b behind w => blank b (Nat.le_of_succ_le behind) w)
    ⟨dir.indirect, ⟨nonzero, by
      show d.1 < img.nextbno + 1
      omega⟩, by
      show img.disk.fIndirect d < img.nextbno + 1
      omega, by
      show img.disk.fIndirect d ≠ d.1
      omega⟩ room (Nat.le_of_lt room)
  have index₁ : img₁.disk.fIndirect d =
      if m = 10 then img.nextbno + 1 else img.disk.fIndirect d := links.indirect
  have next₁ : img₁.nextbno = img.nextbno + 1 + if m = 10 then 1 else 0 := links.next
  have away : img₁.disk.fIndirect d ≠ d.1 := by
    rw [index₁]
    split <;> omega
  have blk : ∀ b w, img'.disk.blk b w = if b = d.1 ∧ w = d.2 + 32 then img₁.disk.fSize d + 4096
      else img₁.disk.blk b w := fun _ _ => rfl
  obtain ⟨slots', index'⟩ := fileSlot_congr (t := img'.disk) (s := img₁.disk) (f := d)
    (fun w low high => by rw [blk, if_neg (by omega)]) fun _ w => by
      rw [blk, if_neg fun both => away both.1]
  have slots : ∀ k < 1024, img'.disk.fileSlot d k =
      if k = m then img.nextbno else img.disk.fileSlot d k := fun k lt => by
    rw [slots', links.slot k lt]
  have index : img'.disk.fIndirect d =
      if m = 10 then img.nextbno + 1 else img.disk.fIndirect d := by
    rw [index', index₁]
  have most := links.most
  have other : ∀ b w, ¬ InStruct d b w → ¬ (b ≠ 0 ∧ b = img'.disk.fIndirect d) →
      img'.disk.blk b w = img.disk.blk b w := by
    intro b w struct notIndex
    rw [blk, if_neg fun both => struct ⟨both.1, .inl both.2⟩]
    exact links.other b w (fun h => struct ⟨h.1, .inr h.2⟩) (by rw [← index']; exact notIndex)
  have old : ∀ k < m, img'.disk.fileSlot d k = img.disk.fileSlot d k := fun k lt => by
    rw [slots k (by omega), if_neg (by omega)]
  have here : img'.disk.fileSlot d m = img.nextbno := by rw [slots m most, if_pos rfl]
  have entryWords : ∀ j < 16 * m, ∀ w,
      img'.disk.blk (img.disk.entryAt d j).1 w = img.disk.blk (img.disk.entryAt d j).1 w := by
    intro j lt w
    obtain ⟨low, high, notStruct, notIndex⟩ := dir.entry_apart below lt
    refine other _ w (fun struct => notStruct struct.1) fun both => notIndex ⟨both.1, ?_⟩
    have same := both.2
    rw [index] at same
    split at same
    · omega
    · exact same
  have next : img'.nextbno = img.nextbno + 1 + if m = 10 then 1 else 0 := next₁
  refine ⟨⟨by omega, by omega, ?_, fun k lt => ?_, fun k lt k' lt' same => ?_,
    fun k behind lt => ?_, ?_, fun big => ?_, fun j lt => ?_, fun j behind lt w short => ?_⟩,
    ⟨old, fun k behind lt => ?_, ?_, fun b w low struct notIndex _ => other b w struct ?_⟩, ?_,
    links.bound, next, here, fun last => by rw [index, if_pos last]⟩
  · show img'.disk.blk d.1 (d.2 + 32) = _
    have size : img₁.disk.fSize d = img.disk.fSize d :=
      links.other _ _ (by omega) fun both => away both.2.symm
    rw [blk, if_pos ⟨rfl, rfl⟩, size, dir.size]
    rw [Nat.mul_add, BitVec.ofNat_add]
    rfl
  · by_cases last : k = m
    · rw [last, here]
      omega
    · rw [old k (by omega)]
      have := dir.slot k (by omega)
      omega
  · by_cases last : k = m <;> by_cases last' : k' = m
    · omega
    · rw [last, here, old k' (by omega)] at same
      have := dir.slot k' (by omega)
      omega
    · rw [last', here, old k (by omega)] at same
      have := dir.slot k (by omega)
      omega
    · rw [old k (by omega), old k' (by omega)] at same
      exact dir.once k (by omega) k' (by omega) same
  · rw [slots k lt, if_neg (by omega)]
    exact dir.noSlot k (by omega) lt
  · rw [index]
    split
    · omega
    · have := dir.indirect
      omega
  · rw [index]
    by_cases last : m = 10
    · rw [if_pos last]
      refine ⟨by omega, by rw [next, if_pos last]; omega, fun k lt => ?_⟩
      by_cases same : k = m
      · rw [same, here]
        omega
      · rw [old k (by omega)]
        have := dir.slot k (by omega)
        omega
    · rw [if_neg last]
      obtain ⟨low', high', differ⟩ := dir.index (by omega)
      refine ⟨low', by omega, fun k lt => ?_⟩
      by_cases same : k = m
      · rw [same, here]
        omega
      · rw [old k (by omega)]
        exact differ k (by omega)
  · rw [entryAt_congr (old (j / 16) (by omega)), isFreeEntry_congr (entryWords j lt _)]
    exact dir.named j lt
  · have block : j / 16 = m := by omega
    have at_next : (img'.disk.entryAt d j).1 = img.nextbno := by
      rw [← here, ← block]
      rfl
    rw [at_next, other _ _ (fun struct => by have := struct.1; omega)]
    · exact blank _ (Nat.le_refl _) _
    · rintro ⟨-, same⟩
      rw [index] at same
      split at same <;> omega
  · by_cases last : k = m
    · rw [last, here]
      exact .inr (Nat.le_refl _)
    · rw [slots k lt, if_neg last]
      exact .inl (dir.noSlot k behind lt)
  · rw [index]
    split
    · exact .inr ⟨none (by omega), by omega⟩
    · exact .inl rfl
  · rintro ⟨b_ne, same⟩
    rw [index] at same
    split at same
    · omega
    · exact notIndex ⟨b_ne, same⟩
  · intro b behind w
    have away' : ¬ (b = d.1 ∧ w = d.2 + 32) := by
      have : img₁.nextbno ≤ b := behind
      omega
    rw [blk, if_neg away']
    exact links.blank b behind w

/-- What `create_file` leaves. -/
structure Creates (img : Image) (d : FilePtr) (n lo : Nat) (f : FilePtr) (img' : Image) : Prop where
  place : f = img'.disk.entryAt d n
  dir : img'.disk.DirAt d n (n / 16 + 1) lo img'.nextbno
  grows : img.disk.Grows d n ((n + 15) / 16) img.nextbno img'.disk
  linked : img'.disk.Linked d n img.nextbno img'.nextbno
  blank : img'.Blank
  bound : img'.nextbno ≤ NBLOCK
  more : img.nextbno ≤ img'.nextbno
  placed : ∀ k, (n + 15) / 16 ≤ k → k < n / 16 + 1 → img.nextbno ≤ img'.disk.fileSlot d k

theorem createFile_spec (run : img.createFile d = some (f, img'))
    (dir : img.disk.DirAt d n ((n + 15) / 16) lo img.nextbno) (blank : img.Blank)
    (bound : img.nextbno ≤ NBLOCK) (below : d.1 < lo) (low : lo ≤ img.nextbno)
    (nonzero : d.1 ≠ 0) : img.Creates d n lo f img' := by
  have most := dir.most
  have links : (List.range ((n + 15) / 16)).findSome? (fun i => (filesOf (img.linkOf d i)).find?
      img.disk.isFreeEntry) = if n % 16 = 0 then none else some (img.disk.entryAt d n) := by
    rw [← find?_entry dir]
    exact findSome?_congr_mem fun i inRange => by rw [linkOf_eq dir (List.mem_range.mp inRange)]
  unfold createFile at run
  rw [dir.size, size_of_blocks most] at run
  dsimp only at run
  rw [links] at run
  by_cases whole : n % 16 = 0
  case neg =>
    rw [if_neg whole] at run
    cases run
    have last : (n + 15) / 16 = n / 16 + 1 := by omega
    refine ⟨rfl, last ▸ dir, ?_, ?_, blank, bound, Nat.le_refl _, fun k high lt => by omega⟩
    · exact ⟨fun _ _ => rfl, fun k behind lt => .inl (dir.noSlot k behind lt), .inl rfl,
        fun _ _ _ _ _ _ => rfl⟩
    · exact ⟨by rw [if_neg whole]; rfl, fun zero => absurd zero whole, fun h => by omega⟩
  case pos =>
    rw [if_pos whole] at run
    have blocks : (n + 15) / 16 = n / 16 := by omega
    have sixteen : n = 16 * (n / 16) := by omega
    rw [blocks] at run dir
    have full : img.disk.DirAt d (16 * (n / 16)) (n / 16) lo img.nextbno := sixteen ▸ dir
    obtain ⟨img₁, linked, room, rfl, rfl⟩ := makeLinkBlock_eq run
    obtain ⟨dir', grows, blank', bound', next, slot, index⟩ :=
      addBlock_spec full blank room below low nonzero linked
    rw [← sixteen] at dir' grows
    refine ⟨?_, dir', blocks ▸ grows, ⟨?_, fun _ => slot, fun last => index (by omega)⟩, blank',
      bound', by omega, fun k behind lt => ?_⟩
    · rw [entryAt, slot, whole]
    · rw [next, if_pos whole]
      split <;> omega
    · have last : k = n / 16 := by omega
      rw [last, slot]

end Image

/-! ## What was written -/

namespace Fs

/-- The name of the structure, with its terminator. -/
def NameAt (s : Fs) (f : FilePtr) (name : FsName) : Prop :=
  (∀ j (lt : j < name.length), s.nameByte f j = name[j]) ∧ s.nameByte f name.length = 0

/-- A regular file with its blocks from `m` on, below `hi`. -/
structure FileAt (s : Fs) (f : FilePtr) (name : FsName) (content : List Byte) (m hi : Nat) :
    Prop where
  name : s.NameAt f name
  type : s.fType f = FTYPE_REG
  size : s.fSize f = .ofNat 32 content.length
  blocks : s.FileBlocks f m ((content.length + 4095) / 4096)
  bytes : ∀ j (lt : j < content.length),
    s.nameByte (Image.filePos m (j / 4096), 0) (j % 4096) = content[j]
  finish : hi = Image.filePos m ((content.length + 4095) / 4096)

/-- The files lie in the directory from entry `i` on, and in the blocks from `lo` on. -/
def Laid (s : Fs) (d : FilePtr) : Nat → HostFiles → Nat → Nat → Prop
  | _, .nil, lo, hi => lo = hi
  | i, .reg name content next, lo, hi =>
      ∃ m k, s.Linked d i lo m ∧ s.FileAt (s.entryAt d i) name content m k ∧
        Laid s d (i + 1) next k hi
  | i, .dir name kids next, lo, hi =>
      ∃ m k, s.Linked d i lo m ∧ s.NameAt (s.entryAt d i) name ∧
        s.fType (s.entryAt d i) = FTYPE_DIR ∧
        s.DirAt (s.entryAt d i) kids.count ((kids.count + 15) / 16) m k ∧
        Laid s (s.entryAt d i) 0 kids m k ∧ Laid s d (i + 1) next k hi

variable {files kids : HostFiles}

theorem Linked.le (linked : s.Linked d i lo m) : lo ≤ m := by
  have := linked.1
  omega

theorem FileAt.le (file : s.FileAt f name content m hi) : m ≤ hi := by
  have place := Image.filePos_cases m ((content.length + 4095) / 4096)
  have := file.finish
  omega

theorem Laid.le (laid : s.Laid d i files lo hi) : lo ≤ hi := by
  induction files generalizing d i lo hi with
  | nil => exact Nat.le_of_eq laid
  | reg name content next ih =>
      obtain ⟨m, k, linked, file, rest⟩ := laid
      exact linked.le.trans (file.le.trans (ih rest))
  | dir name kids next ihKids ihNext =>
      obtain ⟨m, k, linked, -, -, -, inner, rest⟩ := laid
      exact linked.le.trans ((ihKids inner).trans (ihNext rest))

theorem nameByte_congr (same : t.blk f.1 (f.2 + j / 4) = s.blk f.1 (f.2 + j / 4)) :
    t.nameByte f j = s.nameByte f j := by
  rw [nameByte, nameByte, same]

theorem NameAt.congr (at_name : s.NameAt f name) (short : name.length < 128)
    (same : ∀ w < 32, t.blk f.1 (f.2 + w) = s.blk f.1 (f.2 + w)) : t.NameAt f name := by
  refine ⟨fun j lt => ?_, ?_⟩
  · rw [nameByte_congr (same _ (by omega))]
    exact at_name.1 j lt
  · rw [nameByte_congr (same _ (by omega))]
    exact at_name.2

theorem FileBlocks.congr (blocks : s.FileBlocks f m c)
    (fields : ∀ w, 34 ≤ w → w ≤ 44 → t.blk f.1 (f.2 + w) = s.blk f.1 (f.2 + w))
    (inside : ∀ b, m ≤ b → b < Image.filePos m c → ∀ w, t.blk b w = s.blk b w) :
    t.FileBlocks f m c := by
  have place := Image.filePos_cases m c
  obtain ⟨slots, index⟩ := fileSlot_congr fields fun there w => by
    have old := blocks.indirect
    split at old
    · exact inside _ (by omega) (by omega) w
    · exact absurd old there
  exact ⟨blocks.most, fun k lt => (slots k).trans (blocks.slot k lt),
    fun k behind lt => (slots k).trans (blocks.noSlot k behind lt), index.trans blocks.indirect⟩

theorem FileAt.congr (file : s.FileAt f name content m hi) (short : name.length < 128)
    (fields : ∀ w < 64, t.blk f.1 (f.2 + w) = s.blk f.1 (f.2 + w))
    (inside : ∀ b, m ≤ b → b < hi → ∀ w, t.blk b w = s.blk b w) :
    t.FileAt f name content m hi := by
  have finish := file.finish
  refine ⟨file.name.congr short fun w lt => fields w (by omega), ?_, ?_, ?_, fun j lt => ?_, finish⟩
  · exact (fields 33 (by omega)).trans file.type
  · exact (fields 32 (by omega)).trans file.size
  · exact file.blocks.congr (fun w _ high => fields w (by omega)) (finish ▸ inside)
  · have here := Image.filePos_cases m (j / 4096)
    have last := Image.filePos_cases m ((content.length + 4095) / 4096)
    rw [← file.bytes j lt]
    exact nameByte_congr (inside _ (by omega) (by omega) _)

theorem Linked.congr (linked : s.Linked d i lo m)
    (slot : t.fileSlot d (i / 16) = s.fileSlot d (i / 16))
    (index : i = 160 → t.fIndirect d = s.fIndirect d) : t.Linked d i lo m :=
  ⟨linked.1, fun first => slot.trans (linked.2.1 first),
    fun last => (index last).trans (linked.2.2 last)⟩

/-- The words of the entries, and the blocks, have not changed. -/
theorem Laid.congr (proper : files.Proper) (laid : s.Laid d i files lo hi)
    (slots : ∀ k, t.fileSlot d k = s.fileSlot d k) (index : t.fIndirect d = s.fIndirect d)
    (entries : ∀ j, i ≤ j → j < i + files.count → ∀ w < 64,
      t.blk (s.entryAt d j).1 ((s.entryAt d j).2 + w) =
        s.blk (s.entryAt d j).1 ((s.entryAt d j).2 + w))
    (inside : ∀ b, lo ≤ b → b < hi → ∀ w, t.blk b w = s.blk b w) : t.Laid d i files lo hi := by
  induction files generalizing d i lo hi with
  | nil => exact laid
  | reg name content next ih =>
      obtain ⟨m, k, linked, file, rest⟩ := laid
      obtain ⟨-, short, -, proper⟩ := proper
      have below := linked.le
      have middle := file.le
      have above := rest.le
      have count : (HostFiles.reg name content next).count = next.count + 1 := rfl
      refine ⟨m, k, linked.congr (slots _) fun _ => index, ?_, ih proper rest slots index
        (fun j low lt => entries j (by omega) (by omega)) fun b low high =>
          inside b (by omega) high⟩
      rw [entryAt_congr (slots _)]
      exact file.congr short (entries i (Nat.le_refl i) (by omega)) fun b low high =>
        inside b (by omega) (by omega)
  | dir name kids next ihKids ihNext =>
      obtain ⟨m, k, linked, at_name, type, dir, inner, rest⟩ := laid
      obtain ⟨-, short, -, properKids, proper⟩ := proper
      have below := linked.le
      have middle := inner.le
      have above := rest.le
      have count : (HostFiles.dir name kids next).count = next.count + 1 := rfl
      have words := entries i (Nat.le_refl i) (by omega)
      have blocks : ∀ b, m ≤ b → b < k → ∀ w, t.blk b w = s.blk b w := fun b low high =>
        inside b (by omega) (by omega)
      obtain ⟨dir', slots', index'⟩ :=
        dir.congr (fun w _ high => words w (by omega)) blocks
      refine ⟨m, k, linked.congr (slots _) fun _ => index, ?_, ?_, ?_, ?_, ihNext proper rest slots
        index (fun j low lt => entries j (by omega) (by omega)) fun b low high =>
          inside b (by omega) high⟩
      · rw [entryAt_congr (slots _)]
        exact at_name.congr short fun w lt => words w (by omega)
      · rw [entryAt_congr (slots _)]
        exact (words 33 (by omega)).trans type
      · rw [entryAt_congr (slots _)]
        exact dir'
      · rw [entryAt_congr (slots _)]
        refine ihKids properKids inner slots' index' (fun j _ lt w _ => ?_) blocks
        obtain ⟨low, high⟩ := dir.slot (j / 16) (by omega)
        exact blocks _ low high _

end Fs

namespace Image

open Fs

variable {img img' : Image} {files kids : HostFiles} {bytes : List Byte}

theorem nameByte_setBytes_after (after : k + bytes.length ≤ j) :
    (setBytes s f k bytes).nameByte f j = s.nameByte f j := by
  induction bytes generalizing s k with
  | nil => rfl
  | cons c bytes ih =>
      rw [List.length_cons] at after
      rw [setBytes, ih (by omega), nameByte_setNameByte, if_neg (by omega)]

/-- A structure without blocks. -/
theorem fileSlot_empty (empty : ∀ w, 34 ≤ w → w ≤ 44 → s.blk f.1 (f.2 + w) = 0) :
    s.fIndirect f = 0 ∧ ∀ k, s.fileSlot f k = 0 := by
  have none : s.fIndirect f = 0 := by
    rw [fIndirect, empty 44 (by omega) (by omega)]
    rfl
  refine ⟨none, fun k => ?_⟩
  by_cases direct : k < NDIRECT
  · have ten : NDIRECT = 10 := rfl
    rw [fileSlot_direct direct, Nat.add_assoc, empty _ (by omega) (by omega)]
    rfl
  · exact fileSlot_no_indirect (Nat.not_lt.mp direct) none

theorem length_chunks : (chunks content).length = (content.length + 4095) / 4096 := by
  rw [chunks, List.length_map, List.length_range]

theorem getElem_chunks (lt : k < (chunks content).length) :
    (chunks content)[k] = (content.drop (4096 * k)).take 4096 := by
  simp only [chunks, List.getElem_map, List.getElem_range]

/-- What a step that fills the structure `f` leaves. -/
structure Fills (img : Image) (f : FilePtr) (img' : Image) : Prop where
  other : ∀ b w, b < img.nextbno → ¬ (b = f.1 ∧ f.2 ≤ w ∧ w < f.2 + 64) →
    img'.disk.blk b w = img.disk.blk b w
  blank : img'.Blank
  bound : img'.nextbno ≤ NBLOCK
  more : img.nextbno ≤ img'.nextbno

theorem fillFile_spec (run : img.fillFile f name content = some img') (blank : img.Blank)
    (bound : img.nextbno ≤ NBLOCK) (inside : f.1 ≠ 0 ∧ f.1 < img.nextbno)
    (empty : ∀ w < 64, img.disk.blk f.1 (f.2 + w) = 0) (short : name.length < 128) :
    img.Fills f img' ∧ img'.disk.FileAt f name content img.nextbno img'.nextbno := by
  have run : Image.writeBlocks ⟨((img.disk.setNameFrom f 0 name).setWord (sizePtr f)
    (.ofNat 32 content.length)).setWord (f.1, f.2 + 33) FTYPE_REG, img.nextbno⟩ f 0
      (chunks content) = some img' := run
  generalize named : img.disk.setNameFrom f 0 name = s at run
  generalize started : (s.setWord (sizePtr f) (.ofNat 32 content.length)).setWord (f.1, f.2 + 33)
    FTYPE_REG = t at run
  have length : (name ++ [0]).length = name.length + 1 := by simp
  have blk_s : ∀ b w, ¬ (b = f.1 ∧ f.2 ≤ w ∧ w < f.2 + 32) → s.blk b w = img.disk.blk b w := by
    intro b w outside
    rw [← named, setNameFrom_eq]
    exact blk_setBytes_outside fun both => outside ⟨both.1, both.2.1, by omega⟩
  have blk_t : ∀ b w, t.blk b w = if b = f.1 ∧ w = f.2 + 33 then FTYPE_REG
      else if b = f.1 ∧ w = f.2 + 32 then .ofNat 32 content.length else s.blk b w := by
    intro b w
    rw [← started]
    rfl
  have away : ∀ b w, ¬ (b = f.1 ∧ f.2 ≤ w ∧ w < f.2 + 34) → t.blk b w = img.disk.blk b w := by
    intro b w outside
    rw [blk_t, if_neg (by omega), if_neg (by omega), blk_s b w (by omega)]
  obtain ⟨none, noSlot⟩ := fileSlot_empty (s := t) (f := f) fun w low high => by
    rw [away _ _ (by omega)]
    exact empty w (by omega)
  have filled := writeBlocks_spec inside run ⟨by omega, fun k lt => absurd lt (Nat.not_lt_zero k),
    fun k _ _ => noSlot k, none⟩ rfl (fun b behind w => by
      have low : img.nextbno ≤ b := behind
      show t.blk b w = 0
      rw [away b w (by omega)]
      exact blank b low w) bound
  have blocks := filled.blocks
  have next := filled.next
  rw [Nat.zero_add, length_chunks] at blocks next
  have words : ∀ w < 34, img'.disk.blk f.1 (f.2 + w) = t.blk f.1 (f.2 + w) := fun w lt =>
    filled.other _ _ inside.2 (by omega) (by omega)
  have byte : ∀ j (lt : j < (name ++ [0]).length),
      img'.disk.nameByte f j = (name ++ [0])[j] := by
    intro j lt
    have stored : (setBytes img.disk f 0 (name ++ [0])).nameByte f (0 + j) = (name ++ [0])[j] :=
      nameByte_setBytes lt
    rw [Nat.zero_add, ← setNameFrom_eq, named] at stored
    rw [nameByte_congr (words _ (by omega)), ← stored]
    apply nameByte_congr
    rw [blk_t, if_neg (by omega), if_neg (by omega)]
  refine ⟨⟨fun b w low outside => ?_, filled.blank, filled.bound, ?_⟩,
    ⟨⟨fun j lt => ?_, ?_⟩, ?_, ?_, blocks, fun j lt => ?_, next⟩⟩
  · rw [filled.other b w low (by
      have low : b < img.nextbno := low
      omega) (by omega), away b w (by omega)]
  · have place := filePos_cases img.nextbno ((content.length + 4095) / 4096)
    omega
  · rw [byte j (by omega), List.getElem_append_left lt]
  · rw [byte name.length (by omega), List.getElem_append_right (Nat.le_refl _)]
    simp
  · exact (words 33 (by omega)).trans (by rw [blk_t, if_pos ⟨rfl, rfl⟩])
  · exact (words 32 (by omega)).trans (by rw [blk_t, if_neg (by omega), if_pos ⟨rfl, rfl⟩])
  · have chunk : j / 4096 < (chunks content).length := by
      rw [length_chunks]
      omega
    have found := getElem_chunks chunk
    have data := filled.data (j / 4096) chunk (j % 4096) (by
      rw [found, List.length_take, List.length_drop]
      omega)
    rw [Nat.zero_add] at data
    rw [data]
    simp only [found, List.getElem_take, List.getElem_drop]
    congr 1
    omega

theorem fillDir_spec (run : img.fillDir f name = some img') (blank : img.Blank)
    (bound : img.nextbno ≤ NBLOCK) (inside : f.1 ≠ 0 ∧ f.1 < img.nextbno)
    (empty : ∀ w < 64, img.disk.blk f.1 (f.2 + w) = 0) (short : name.length < 128) :
    img.Fills f img' ∧ img'.nextbno = img.nextbno ∧ img'.disk.NameAt f name ∧
      img'.disk.fType f = FTYPE_DIR ∧ img'.disk.DirAt f 0 0 img.nextbno img.nextbno := by
  have all : name.take (MAXNAMELEN - 1) = name := List.take_of_length_le (by
    have size : MAXNAMELEN = 128 := rfl
    omega)
  have run : (if (setBytes img.disk f 0 (name ++ List.replicate (MAXNAMELEN - 1 - name.length)
      0)).nameByte f (MAXNAMELEN - 1) ≠ 0 then none
      else some (Image.setWord ⟨setBytes img.disk f 0 (name ++ List.replicate
        (MAXNAMELEN - 1 - name.length) 0), img.nextbno⟩ (f.1, f.2 + 33) FTYPE_DIR)) =
        some img' := by
    unfold fillDir at run
    rw [all] at run
    exact run
  have length : (name ++ List.replicate (MAXNAMELEN - 1 - name.length) (0 : Byte)).length =
      127 := by
    have size : MAXNAMELEN = 128 := rfl
    rw [List.length_append, List.length_replicate]
    omega
  generalize padded : name ++ List.replicate (MAXNAMELEN - 1 - name.length) (0 : Byte) = bytes
    at run length
  split at run
  · cases run
  cases run
  have blk : ∀ b w, (setBytes img.disk f 0 bytes |>.setWord (f.1, f.2 + 33) FTYPE_DIR).blk b w =
      if b = f.1 ∧ w = f.2 + 33 then FTYPE_DIR else (setBytes img.disk f 0 bytes).blk b w :=
    fun _ _ => rfl
  have away : ∀ b w, ¬ (b = f.1 ∧ f.2 ≤ w ∧ w < f.2 + 34) →
      (setBytes img.disk f 0 bytes |>.setWord (f.1, f.2 + 33) FTYPE_DIR).blk b w =
        img.disk.blk b w := by
    intro b w outside
    rw [blk, if_neg (by omega), blk_setBytes_outside (by omega)]
  have name_blk : ∀ j < 128,
      (setBytes img.disk f 0 bytes |>.setWord (f.1, f.2 + 33) FTYPE_DIR).nameByte f j =
        (setBytes img.disk f 0 bytes).nameByte f j := fun j lt =>
    nameByte_congr (by rw [blk, if_neg (by omega)])
  have byte : ∀ j (lt : j < bytes.length),
      (setBytes img.disk f 0 bytes |>.setWord (f.1, f.2 + 33) FTYPE_DIR).nameByte f j =
        bytes[j] := by
    intro j lt
    have stored := nameByte_setBytes (s := img.disk) (f := f) (k := 0) lt
    rw [Nat.zero_add] at stored
    rw [name_blk j (by omega), stored]
  obtain ⟨none, noSlot⟩ := fileSlot_empty
    (s := setBytes img.disk f 0 bytes |>.setWord (f.1, f.2 + 33) FTYPE_DIR) (f := f)
    fun w low high => by
      rw [away _ _ (by omega)]
      exact empty w (by omega)
  refine ⟨⟨fun b w _ outside => away b w (by omega), fun b behind w => ?_, bound, Nat.le_refl _⟩,
    rfl, ⟨fun j lt => ?_, ?_⟩, ?_, ?_⟩
  · have low : img.nextbno ≤ b := behind
    exact (away b w (by omega)).trans (blank b low w)
  · have inBytes : j < bytes.length := by omega
    refine (byte j inBytes).trans ?_
    simp only [← padded]
    exact List.getElem_append_left lt
  · by_cases last : name.length = 127
    · refine (name_blk _ short).trans ?_
      rw [nameByte_setBytes_after (by omega), nameByte, empty _ (by omega)]
      simp
    · have inBytes : name.length < bytes.length := by omega
      refine (byte _ inBytes).trans ?_
      simp only [← padded]
      rw [List.getElem_append_right (Nat.le_refl _), List.getElem_replicate]
  · exact if_pos ⟨rfl, rfl⟩
  · refine ⟨by omega, by omega, ?_, fun k lt => by omega, fun k lt => by omega,
      fun k _ _ => noSlot k, ⟨fun _ => by omega, fun _ => none⟩, fun big => by omega,
      fun j lt => by omega, fun j _ lt => by omega⟩
    refine (blk f.1 (f.2 + 32)).trans ?_
    rw [if_neg (by omega), blk_setBytes_outside (by omega)]
    exact empty 32 (by omega)

/-- What writing files into a directory with `n` entries leaves. -/
structure Wrote (img : Image) (d : FilePtr) (n lo : Nat) (files : HostFiles) (img' : Image) :
    Prop where
  dir : img'.disk.DirAt d (n + files.count) ((n + files.count + 15) / 16) lo img'.nextbno
  grows : img.disk.Grows d n ((n + 15) / 16) img.nextbno img'.disk
  laid : img'.disk.Laid d n files img.nextbno img'.nextbno
  blank : img'.Blank
  bound : img'.nextbno ≤ NBLOCK
  more : img.nextbno ≤ img'.nextbno

variable {img₁ img₂ : Image} {next : HostFiles}

/-- The new entry has a structure of its own, which is filled. -/
theorem Creates.fill (creates : img.Creates d n lo f img₁) (below : d.1 < lo)
    (fills : img₁.Fills f img₂) (named : img₂.disk.isFreeEntry f = false) :
    img₂.disk.DirAt d (n + 1) ((n + 1 + 15) / 16) lo img₂.nextbno ∧
      img.disk.Grows d n ((n + 15) / 16) img.nextbno img₂.disk ∧
      (∀ k, img₂.disk.fileSlot d k = img₁.disk.fileSlot d k) ∧
      img₂.disk.fIndirect d = img₁.disk.fIndirect d := by
  obtain ⟨rfl, dir, grows, -, -, -, more, placed⟩ := creates
  have blocks : (n + 1 + 15) / 16 = n / 16 + 1 := by omega
  obtain ⟨dir₂, grows₂, slots, index⟩ :=
    dir.fill below (by omega) fills.more (fun b w lt outside => fills.other b w lt outside) named
  rw [blocks]
  exact ⟨dir₂, grows.trans grows₂ (Nat.le_refl n) (by omega) more placed, slots, index⟩

/-- The files behind a new entry leave it, and what was stored for it, as they are. -/
theorem Creates.cons (creates : img.Creates d n lo f img₁) (below : d.1 < lo)
    (low : lo ≤ img.nextbno) (fills : img₁.Fills f img₂)
    (named : img₂.disk.isFreeEntry f = false) (wrote : img₂.Wrote d (n + 1) lo next img') :
    img.disk.Grows d n ((n + 15) / 16) img.nextbno img'.disk ∧
      img'.disk.Linked d n img.nextbno img₁.nextbno ∧ img'.disk.entryAt d n = f ∧
      (∀ w < 64, img'.disk.blk f.1 (f.2 + w) = img₂.disk.blk f.1 (f.2 + w)) ∧
      ∀ b, img₁.nextbno ≤ b → b < img₂.nextbno → ∀ w, img'.disk.blk b w = img₂.disk.blk b w := by
  obtain ⟨dir₂, grows₂, slots, index⟩ := creates.fill below fills named
  obtain ⟨rfl, dir, grows, linked, -, -, more, placed⟩ := creates
  have blocks : (n + 1 + 15) / 16 = n / 16 + 1 := by omega
  have later := wrote.grows
  rw [blocks] at dir₂ later
  have slot : img'.disk.fileSlot d (n / 16) = img₁.disk.fileSlot d (n / 16) :=
    (later.slots _ (Nat.lt_succ_self _)).trans (slots _)
  obtain ⟨fields, inside⟩ :=
    later.keeps dir₂ dir slots index below (low.trans more) (by omega)
  refine ⟨grows₂.trans later (Nat.le_succ n) (by omega) (more.trans fills.more)
    fun k behind lt => ?_, linked.congr slot fun last => ?_, entryAt_congr slot, fields, inside⟩
  · rw [slots]
    exact placed k behind lt
  · rcases later.index with same | ⟨none, -⟩
    · exact same.trans index
    · rw [index, linked.2.2 last] at none
      omega

theorem isFreeEntry_of_name (at_name : s.NameAt f name) (proper : PathName name) :
    s.isFreeEntry f = false := by
  obtain ⟨nonempty, clean⟩ := proper.proper
  have first : 0 < name.length := List.length_pos_iff.mpr nonempty
  rw [isFreeEntry, at_name.1 0 first, beq_eq_false_iff_ne]
  exact clean _ (List.getElem_mem first)

theorem writeAll_spec (proper : files.Proper) (run : img.writeAll d files = some img')
    (dir : img.disk.DirAt d n ((n + 15) / 16) lo img.nextbno) (blank : img.Blank)
    (bound : img.nextbno ≤ NBLOCK) (below : d.1 < lo) (low : lo ≤ img.nextbno)
    (nonzero : d.1 ≠ 0) : img.Wrote d n lo files img' := by
  induction files generalizing img img' d n lo with
  | nil =>
      cases run
      refine ⟨dir, ⟨fun _ _ => rfl, fun k behind lt => .inl (dir.noSlot k behind lt), .inl rfl,
        fun _ _ _ _ _ _ => rfl⟩, rfl, blank, bound, Nat.le_refl _⟩
  | reg name content next ih =>
      obtain ⟨properName, short, -, properNext⟩ := proper
      obtain ⟨img₂, written, run⟩ := Option.bind_eq_some_iff.mp run
      obtain ⟨⟨f, img₁⟩, created, filled⟩ := Option.bind_eq_some_iff.mp written
      have creates := createFile_spec created dir blank bound below low nonzero
      have room : n < 16 * (n / 16 + 1) := by omega
      obtain ⟨placed, inside, away, -⟩ := creates.dir.entry_apart below room
      rw [← creates.place] at placed inside away
      obtain ⟨fills, file⟩ := fillFile_spec filled creates.blank creates.bound
        ⟨by omega, inside⟩ (by
          have empty := creates.dir.empty n (Nat.le_refl n) room
          rw [← creates.place] at empty
          exact empty) short
      have named := isFreeEntry_of_name file.name properName
      obtain ⟨dir₂, -, -, -⟩ := creates.fill below fills named
      have wrote := ih properNext run dir₂ fills.blank fills.bound below
        (low.trans (creates.more.trans fills.more)) nonzero
      obtain ⟨grows, linked, entry, fields, data⟩ := creates.cons below low fills named wrote
      have count : n + (HostFiles.reg name content next).count = n + 1 + next.count := by
        rw [HostFiles.count]
        omega
      refine ⟨count ▸ wrote.dir, grows, ⟨_, _, linked, ?_, wrote.laid⟩, wrote.blank, wrote.bound,
        creates.more.trans (fills.more.trans wrote.more)⟩
      rw [entry]
      exact file.congr short fields data
  | dir name kids next ihKids ihNext =>
      obtain ⟨properName, short, -, properKids, properNext⟩ := proper
      obtain ⟨⟨f, img₁⟩, created, run⟩ := Option.bind_eq_some_iff.mp run
      obtain ⟨img₂, inner, run⟩ := Option.bind_eq_some_iff.mp run
      obtain ⟨imgA, filled, inner⟩ := Option.bind_eq_some_iff.mp inner
      have creates := createFile_spec created dir blank bound below low nonzero
      have room : n < 16 * (n / 16 + 1) := by omega
      obtain ⟨placed, inside, away, -⟩ := creates.dir.entry_apart below room
      rw [← creates.place] at placed inside away
      obtain ⟨fillsA, nextA, nameA, typeA, dirA⟩ := fillDir_spec filled creates.blank
        creates.bound ⟨by omega, inside⟩ (by
          have empty := creates.dir.empty n (Nat.le_refl n) room
          rw [← creates.place] at empty
          exact empty) short
      have dirA' : imgA.disk.DirAt f 0 ((0 + 15) / 16) img₁.nextbno imgA.nextbno := nextA ▸ dirA
      have wroteKids := ihKids properKids inner dirA' fillsA.blank fillsA.bound inside
        (Nat.le_of_eq nextA.symm) (by omega)
      have growsKids := wroteKids.grows
      have laidKids := wroteKids.laid
      have dirKids := wroteKids.dir
      rw [nextA] at growsKids laidKids
      rw [Nat.zero_add] at dirKids
      have noIndex : imgA.disk.fIndirect f = 0 := dirA.indirect.mpr (by omega)
      have other : ∀ b w, b < img₁.nextbno → ¬ InStruct f b w →
          img₂.disk.blk b w = imgA.disk.blk b w := fun b w lt struct =>
        growsKids.other b w lt struct (by omega) fun j _ none => by omega
      have fields : ∀ w < 32, img₂.disk.blk f.1 (f.2 + w) = imgA.disk.blk f.1 (f.2 + w) :=
        fun w lt => other _ _ inside fun struct => by
          have := struct.2
          omega
      have fills : img₁.Fills f img₂ := by
        refine ⟨fun b w lt outside => ?_, wroteKids.blank, wroteKids.bound,
          nextA ▸ wroteKids.more⟩
        rw [other b w lt fun struct => outside ⟨struct.1, by have := struct.2; omega⟩]
        exact fillsA.other b w lt outside
      have atName := nameA.congr short fields
      have named := isFreeEntry_of_name atName properName
      obtain ⟨dir₂, -, -, -⟩ := creates.fill below fills named
      have wrote := ihNext properNext run dir₂ fills.blank fills.bound below
        (low.trans (creates.more.trans fills.more)) nonzero
      obtain ⟨grows, linked, entry, fields', data⟩ := creates.cons below low fills named wrote
      have count : n + (HostFiles.dir name kids next).count = n + 1 + next.count := by
        rw [HostFiles.count]
        omega
      obtain ⟨dir', slots', index'⟩ := dirKids.congr (fun w _ high => fields' w (by omega)) data
      refine ⟨count ▸ wrote.dir, grows, ⟨_, _, linked, ?_, ?_, ?_, ?_, wrote.laid⟩, wrote.blank,
        wrote.bound, creates.more.trans (fills.more.trans wrote.more)⟩
      · rw [entry]
        exact atName.congr short fun w lt => fields' w (by omega)
      · rw [entry]
        refine (fields' 33 (by omega)).trans ((other _ _ inside fun struct => ?_).trans typeA)
        have := struct.2
        omega
      · rw [entry]
        exact dir'
      · rw [entry]
        refine laidKids.congr properKids slots' index' (fun j _ lt w _ => ?_) data
        obtain ⟨low, high⟩ := dirKids.slot (j / 16) (by omega)
        exact data _ low high _

end Image

end Mos
