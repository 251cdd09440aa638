import Mos.Fsformat

/-!
# A formatted disk, mounted

The disk that `fsformat` leaves is a sound file system for the server: what the
theorems about removing and creating files ask for holds of it, and every path
leads to what the host had there. Both are read off its layout: each block from 3 on
that was taken belongs to one file (`owns_iff`), and the directories list the files
that were written, in their order.
-/

namespace Mos

/-- A file of the host. -/
inductive HostFile
  | reg (content : List Byte)
  | dir (kids : HostFiles)

namespace HostFiles

/-- The file of that name. -/
def get (name : FsName) : HostFiles → Option HostFile
  | nil => none
  | reg name' content next => if name' = name then some (.reg content) else next.get name
  | dir name' kids next => if name' = name then some (.dir kids) else next.get name

/-- What the names lead to. -/
def resolve (files : HostFiles) : List FsName → Option HostFile
  | [] => some (.dir files)
  | name :: rest =>
      match files.get name with
      | some (.dir kids) => kids.resolve rest
      | some (.reg content) => if rest = [] then some (.reg content) else none
      | none => none

end HostFiles

namespace Fs

open Image

variable {s t : Fs} {d e f g : FilePtr} {b c i j k lo hi m n w : Nat} {name : FsName}
  {content : List Byte} {files kids : HostFiles}

/-- The server has mounted a disk with these files, of which the blocks below `hi` have
been taken. -/
structure Formatted (s : Fs) (files : HostFiles) (hi : Nat) : Prop where
  nblocks : s.nblocks = NBLOCK
  dir : s.DirAt root files.count ((files.count + 15) / 16) 3 hi
  type : s.fType root = FTYPE_DIR
  laid : s.Laid root 0 files 3 hi
  proper : files.Proper
  bound : hi ≤ NBLOCK
  used : ∀ b, s.InUse b ↔ b < hi
  mounted : s.Mounted

/-! ## Mounting -/

theorem initDisk_dir : initDisk.disk.DirAt root 0 0 3 3 := by
  obtain ⟨none, noSlot⟩ := fileSlot_empty (s := initDisk.disk) (f := root) fun w low high => by
    show (if (1 : Nat) ≠ 1 then (0 : Word) else if 2 + w = 0 then FS_MAGIC
      else if 2 + w = 1 then .ofNat 32 NBLOCK else if 2 + w = 2 then slash.setWidth 32
      else if 2 + w = 2 + 33 then FTYPE_DIR else 0) = 0
    rw [if_neg (by omega), if_neg (by omega), if_neg (by omega), if_neg (by omega),
      if_neg (by omega)]
  exact ⟨by omega, by omega, rfl, fun k lt => by omega, fun k lt => by omega,
    fun k _ _ => noSlot k, ⟨fun _ => by omega, fun _ => none⟩, fun big => by omega,
    fun j lt => by omega, fun j _ lt => by omega⟩

theorem initDisk_blank : initDisk.Blank := by
  intro b behind w
  have high : 3 ≤ b := behind
  exact if_pos (by omega)

/-- A set bit for each block of the disk. -/
theorem initDisk_bit : PackedBits.test initDisk.disk.bitmap b = decide (b < NBLOCK) := by
  have size : NBLOCK = 1024 := rfl
  rw [PackedBits.test_eq (by decide)]
  show (if b / 32 < 32 then BitVec.allOnes 32 else (0 : Word)).getLsbD (b % 32) = _
  split
  · rw [BitVec.getLsbD_allOnes, decide_eq_true (Nat.mod_lt b (by decide)),
      decide_eq_true (by omega)]
  · rw [decide_eq_false (by omega)]
    exact BitVec.getLsbD_zero

theorem test_clearAll (n : Nat) (a : Nat → Word) :
    PackedBits.test ((List.range n).foldl PackedBits.clear a) b =
      (!decide (b < n) && PackedBits.test a b) := by
  induction n with
  | zero => simp
  | succ n ih =>
      rw [List.range_succ, List.foldl_append, List.foldl_cons, List.foldl_nil,
        PackedBits.test_clear (by decide), ih]
      by_cases last : b = n
      · simp [last]
      · have same : b < n + 1 ↔ b < n := by omega
        simp [last, same]

section Bitmap

variable {img img' : Image} {bno : Nat}

theorem bitmap_setBytes (bytes : List Byte) :
    (setBytes s f k bytes).bitmap = s.bitmap := by
  induction bytes generalizing s k with
  | nil => rfl
  | cons c bytes ih => exact ih

theorem bitmap_saveBlockLink (run : img.saveBlockLink f m bno = some img') :
    img'.disk.bitmap = img.disk.bitmap := by
  unfold saveBlockLink at run
  split at run
  · split at run
    · cases run
      rfl
    · split at run
      · obtain ⟨x, taken, rfl⟩ := Option.map_eq_some_iff.mp run
        obtain ⟨-, rfl⟩ := nextBlock_eq taken
        rfl
      · cases run
        rfl
  · cases run

theorem bitmap_createFile (run : img.createFile d = some (f, img')) :
    img'.disk.bitmap = img.disk.bitmap := by
  unfold createFile at run
  dsimp only at run
  split at run
  · cases run
    rfl
  · obtain ⟨img₁, linked, -, -, rfl⟩ := makeLinkBlock_eq run
    have same := bitmap_saveBlockLink linked
    exact same

theorem bitmap_writeBlocks {rest : List (List Byte)}
    (run : img.writeBlocks f c rest = some img') : img'.disk.bitmap = img.disk.bitmap := by
  induction rest generalizing img c with
  | nil =>
      cases run
      rfl
  | cons chunk rest ih =>
      obtain ⟨img₂, linked, -, later⟩ := writeBlocks_cons run
      rw [ih later, bitmap_saveBlockLink linked]
      exact bitmap_setBytes chunk

theorem bitmap_fillFile (run : img.fillFile f name content = some img') :
    img'.disk.bitmap = img.disk.bitmap := by
  rw [bitmap_writeBlocks run]
  show (img.disk.setNameFrom f 0 name).bitmap = _
  rw [setNameFrom_eq, bitmap_setBytes]

theorem bitmap_fillDir (run : img.fillDir f name = some img') :
    img'.disk.bitmap = img.disk.bitmap := by
  unfold fillDir at run
  dsimp only at run
  split at run
  · cases run
  · cases run
    exact bitmap_setBytes _

theorem bitmap_writeAll (run : img.writeAll d files = some img') :
    img'.disk.bitmap = img.disk.bitmap := by
  induction files generalizing img img' d with
  | nil =>
      cases run
      rfl
  | reg name content next ih =>
      obtain ⟨img₂, written, run⟩ := Option.bind_eq_some_iff.mp run
      obtain ⟨⟨f, img₁⟩, created, filled⟩ := Option.bind_eq_some_iff.mp written
      rw [ih run, bitmap_fillFile filled, bitmap_createFile created]
  | dir name kids next ihKids ihNext =>
      obtain ⟨⟨f, img₁⟩, created, run⟩ := Option.bind_eq_some_iff.mp run
      obtain ⟨img₂, inner, run⟩ := Option.bind_eq_some_iff.mp run
      obtain ⟨imgA, filled, inner⟩ := Option.bind_eq_some_iff.mp inner
      rw [ihNext run, ihKids inner, bitmap_fillDir filled, bitmap_createFile created]

end Bitmap

/-- The disk that was formatted can be mounted, and holds the files. -/
theorem formatted_mount {img : Image} (proper : files.Proper) (format : fsformat files = some img)
    (answers : List (Except Err Unit)) :
    ∃ s, img.mount answers = some s ∧ s.Formatted files img.nextbno := by
  obtain ⟨img', run, rfl⟩ := Option.map_eq_some_iff.mp format
  have wrote : initDisk.Wrote root 0 3 files img' := writeAll_spec proper run initDisk_dir
    initDisk_blank (by decide) (by decide) (Nat.le_refl 3) (by decide)
  have size : NBLOCK = 1024 := rfl
  have noIndex : initDisk.disk.fIndirect root = 0 := initDisk_dir.indirect.mpr (by omega)
  have super : ∀ w, ¬ InStruct root 1 w → img'.disk.blk 1 w = initDisk.disk.blk 1 w := by
    intro w struct
    refine wrote.grows.other 1 w (by decide) struct (fun both => ?_) fun j _ none => by omega
    rw [noIndex] at both
    exact absurd both.2 (by decide)
  have magic : img'.disk.blk 1 0 = FS_MAGIC := super 0 (by unfold InStruct root; omega)
  have count : img'.disk.blk 1 1 = .ofNat 32 NBLOCK := super 1 (by unfold InStruct root; omega)
  have type : img'.disk.fType root = FTYPE_DIR := super 35 (by unfold InStruct root; omega)
  have bit : ∀ b, PackedBits.test img'.flushBitmap.disk.bitmap b =
      (!decide (b < img'.nextbno) && decide (b < NBLOCK)) := by
    intro b
    show PackedBits.test ((List.range img'.nextbno).foldl PackedBits.clear img'.disk.bitmap) b = _
    rw [test_clearAll, bitmap_writeAll run, initDisk_bit]
  have three : 3 ≤ img'.nextbno := wrote.more
  have bound : img'.nextbno ≤ NBLOCK := wrote.bound
  have super_ok : readSuper (img'.flushBitmap.disk.blk 1 0) (img'.flushBitmap.disk.blk 1 1) =
      some NBLOCK := by
    show readSuper (img'.disk.blk 1 0) (img'.disk.blk 1 1) = some NBLOCK
    rw [magic, count]
    decide
  have one : nbitmap NBLOCK = 1 := by decide
  obtain ⟨s, mounted, here⟩ : ∃ s, readBitmap NBLOCK img'.flushBitmap.disk.bitmap
      img'.flushBitmap.disk.blk answers = some s ∧ s = ⟨NBLOCK, img'.flushBitmap.disk.bitmap,
        img'.flushBitmap.disk.bitmap, img'.disk.blk, fun b => decide (b < nbitmap NBLOCK + 2),
        answers⟩ := by
    refine ⟨_, ?_, rfl⟩
    have taken : ∀ b < 3, Fs.blockIsFree ⟨NBLOCK, img'.flushBitmap.disk.bitmap,
        img'.flushBitmap.disk.bitmap, img'.disk.blk, fun b => decide (b < nbitmap NBLOCK + 2),
        answers⟩ b = false := by
      intro b low
      rw [blockIsFree]
      split
      · rfl
      · show PackedBits.test img'.flushBitmap.disk.bitmap b = false
        rw [bit, decide_eq_true (by omega)]
        rfl
    have any : (List.range (nbitmap NBLOCK)).any (fun i => Fs.blockIsFree ⟨NBLOCK,
        img'.flushBitmap.disk.bitmap, img'.flushBitmap.disk.bitmap, img'.disk.blk,
        fun b => decide (b < nbitmap NBLOCK + 2), answers⟩ (i + 2)) = false := by
      rw [List.any_eq_false]
      intro i inRange
      have lt := List.mem_range.mp inRange
      simp [taken (i + 2) (by omega)]
    unfold readBitmap
    dsimp only
    rw [if_neg (by rw [one, size]; omega), if_neg, if_neg]
    · rfl
    · exact Bool.eq_false_iff.mp any
    · have zero := taken 0 (by omega)
      have first := taken 1 (by omega)
      exact Bool.eq_false_iff.mp (by
        rw [Bool.or_eq_false_iff]
        exact ⟨zero, first⟩)
  have synced := Synced.of_readBitmap mounted
  refine ⟨s, ?_, ?_⟩
  · rw [mount, super_ok]
    exact mounted
  · have blk : s.blk = img'.disk.blk := by rw [here]
    have nblocks : s.nblocks = NBLOCK := by rw [here]
    have dir := wrote.dir
    rw [Nat.zero_add] at dir
    obtain ⟨dir', slots, index⟩ := DirAt.congr (t := s) dir (fun w _ _ => by rw [blk])
      fun b _ _ w => by rw [blk]
    refine ⟨nblocks, dir', (congrFun (congrFun blk 1) 35).trans type,
      wrote.laid.congr proper slots index (fun j _ _ w _ => by rw [blk]) fun b _ _ w => by rw [blk],
      proper, bound, fun b => ?_, ⟨synced.1, by rw [nblocks]; decide⟩⟩
    subst here
    constructor
    · rintro ⟨inside, used⟩
      rw [blockIsFree_of_lt inside] at used
      have used : PackedBits.test img'.flushBitmap.disk.bitmap b = false := used
      rw [bit, Bool.and_eq_false_iff, Bool.not_eq_false', decide_eq_true_iff,
        decide_eq_false_iff_not] at used
      rcases used with low | high
      · exact low
      · exact absurd inside high
    · intro low
      have low : b < img'.nextbno := low
      have inside : b < NBLOCK := by omega
      refine ⟨inside, ?_⟩
      rw [blockIsFree_of_lt inside]
      show PackedBits.test img'.flushBitmap.disk.bitmap b = false
      rw [bit, decide_eq_true low]
      rfl

/-! ## Whose a block is -/

/-- Block `b` was linked into the directory for its entry `j`. -/
def LinkedFor (s : Fs) (d : FilePtr) (j b : Nat) : Prop :=
  j % 16 = 0 ∧ (s.fileSlot d (j / 16) = b ∨ j = 160 ∧ s.fIndirect d = b)

/-- The structures of the files, those inside directories included. -/
def filesAt (s : Fs) (d : FilePtr) : Nat → HostFiles → List FilePtr
  | _, .nil => []
  | i, .reg _ _ next => s.entryAt d i :: filesAt s d (i + 1) next
  | i, .dir _ kids next =>
      s.entryAt d i :: (filesAt s (s.entryAt d i) 0 kids ++ filesAt s d (i + 1) next)

/-- Block `b` was taken for `g`: in the directory `d` itself, or below it. -/
def Owns (s : Fs) (d : FilePtr) (b : Nat) (g : FilePtr) : Nat → HostFiles → Prop
  | _, .nil => False
  | i, .reg _ _ next =>
      g = d ∧ s.LinkedFor d i b ∨ g = s.entryAt d i ∧ s.FileBlock (s.entryAt d i) b ∨
        Owns s d b g (i + 1) next
  | i, .dir _ kids next =>
      g = d ∧ s.LinkedFor d i b ∨ Owns s (s.entryAt d i) b g 0 kids ∨ Owns s d b g (i + 1) next

theorem Linked.linkedFor_iff (linked : s.Linked d i lo m) : s.LinkedFor d i b ↔ lo ≤ b ∧ b < m := by
  obtain ⟨stop, slot, index⟩ := linked
  unfold LinkedFor
  by_cases whole : i % 16 = 0
  · rw [if_pos whole] at stop
    rw [slot whole]
    by_cases last : i = 160
    · rw [if_pos (by omega)] at stop
      rw [index last]
      omega
    · rw [if_neg (by omega)] at stop
      omega
  · rw [if_neg whole] at stop
    omega

/-- The blocks of a regular file lie together. -/
theorem FileBlocks.fileBlock_iff (blocks : s.FileBlocks f m c) (low : 0 < m) :
    s.FileBlock f b ↔ m ≤ b ∧ b < filePos m c := by
  have all : NINDIRECT = 1024 := rfl
  have most := blocks.most
  have index := blocks.indirect
  have stop := filePos_cases m c
  constructor
  · rintro ⟨nonzero, here | ⟨k, inside, here⟩⟩
    · rw [here] at index
      split at index <;> omega
    · by_cases there : k < c
      · rw [blocks.slot k there] at here
        have place := filePos_cases m k
        omega
      · rw [blocks.noSlot k (by omega) (by omega)] at here
        exact absurd here.symm nonzero
  · rintro ⟨low', high⟩
    refine ⟨by omega, ?_⟩
    by_cases isIndex : b = m + 11
    · left
      rw [index, if_pos (by omega), isIndex]
    · right
      by_cases early : b < m + 11
      · refine ⟨b - m, by omega, ?_⟩
        rw [blocks.slot _ (by omega)]
        have place := filePos_cases m (b - m)
        omega
      · refine ⟨b - m - 1, by omega, ?_⟩
        rw [blocks.slot _ (by omega)]
        have place := filePos_cases m (b - m - 1)
        omega

/-- Those of a directory were linked for its entries. -/
theorem DirAt.fileBlock_iff (dir : s.DirAt d n ((n + 15) / 16) lo hi) (low : 0 < lo) :
    s.FileBlock d b ↔ ∃ j < n, s.LinkedFor d j b := by
  have all : NINDIRECT = 1024 := rfl
  have most := dir.most
  constructor
  · rintro ⟨nonzero, here | ⟨k, inside, here⟩⟩
    · have big : ¬ (n + 15) / 16 ≤ 10 := fun small => by
        have none := dir.indirect.mpr small
        omega
      exact ⟨160, by omega, by decide, .inr ⟨rfl, here⟩⟩
    · by_cases there : k < (n + 15) / 16
      · refine ⟨16 * k, by omega, by omega, .inl ?_⟩
        rw [Nat.mul_div_cancel_left k (by omega)]
        exact here
      · rw [dir.noSlot k (by omega) (by omega)] at here
        exact absurd here.symm nonzero
  · rintro ⟨j, lt, whole, here | ⟨last, here⟩⟩
    · have slot := dir.slot (j / 16) (by omega)
      exact ⟨by omega, .inr ⟨j / 16, by omega, here⟩⟩
    · have index := dir.index (by omega)
      exact ⟨by omega, .inl here⟩

/-- Each block between `lo` and `hi` has one owner, and no other block has any. -/
theorem Laid.owner (laid : s.Laid d i files lo hi) (low : 0 < lo) (b : Nat) :
    ((∃ g, s.Owns d b g i files) ↔ lo ≤ b ∧ b < hi) ∧
      ∀ g g', s.Owns d b g i files → s.Owns d b g' i files → g = g' := by
  induction files generalizing d i lo hi with
  | nil =>
      have same : lo = hi := laid
      refine ⟨⟨fun some => some.elim fun _ none => none.elim, fun both => by omega⟩,
        fun _ _ none => none.elim⟩
  | reg name content next ih =>
      obtain ⟨m, k, linked, file, rest⟩ := laid
      have first := linked.linkedFor_iff (b := b)
      have second := file.blocks.fileBlock_iff (b := b) (by have := linked.le; omega)
      rw [← file.finish] at second
      obtain ⟨third, unique⟩ := ih rest (by have := linked.le; have := file.le; omega)
      have below := linked.le
      have middle := file.le
      have above := rest.le
      constructor
      · constructor
        · rintro ⟨g, ⟨-, here⟩ | ⟨-, here⟩ | here⟩
          · have := first.mp here
            omega
          · have := second.mp here
            omega
          · have := third.mp ⟨g, here⟩
            omega
        · intro inside
          by_cases one : b < m
          · exact ⟨d, .inl ⟨rfl, first.mpr ⟨inside.1, one⟩⟩⟩
          · by_cases two : b < k
            · exact ⟨_, .inr (.inl ⟨rfl, second.mpr ⟨by omega, two⟩⟩)⟩
            · obtain ⟨g, owns⟩ := third.mpr ⟨by omega, inside.2⟩
              exact ⟨g, .inr (.inr owns)⟩
      · rintro g g' (⟨rfl, here⟩ | ⟨rfl, here⟩ | here) (⟨rfl, here'⟩ | ⟨rfl, here'⟩ | here')
        · rfl
        · have := first.mp here; have := second.mp here'; omega
        · have := first.mp here; have := third.mp ⟨_, here'⟩; omega
        · have := second.mp here; have := first.mp here'; omega
        · rfl
        · have := second.mp here; have := third.mp ⟨_, here'⟩; omega
        · have := third.mp ⟨_, here⟩; have := first.mp here'; omega
        · have := third.mp ⟨_, here⟩; have := second.mp here'; omega
        · exact unique _ _ here here'
  | dir name kids next ihKids ihNext =>
      obtain ⟨m, k, linked, -, -, -, inner, rest⟩ := laid
      have first := linked.linkedFor_iff (b := b)
      have below := linked.le
      have middle := inner.le
      have above := rest.le
      obtain ⟨second, unique⟩ := ihKids inner (by omega)
      obtain ⟨third, unique'⟩ := ihNext rest (by omega)
      constructor
      · constructor
        · rintro ⟨g, ⟨-, here⟩ | here | here⟩
          · have := first.mp here
            omega
          · have := second.mp ⟨g, here⟩
            omega
          · have := third.mp ⟨g, here⟩
            omega
        · intro inside
          by_cases one : b < m
          · exact ⟨d, .inl ⟨rfl, first.mpr ⟨inside.1, one⟩⟩⟩
          · by_cases two : b < k
            · obtain ⟨g, owns⟩ := second.mpr ⟨by omega, two⟩
              exact ⟨g, .inr (.inl owns)⟩
            · obtain ⟨g, owns⟩ := third.mpr ⟨by omega, inside.2⟩
              exact ⟨g, .inr (.inr owns)⟩
      · rintro g g' (⟨rfl, here⟩ | here | here) (⟨rfl, here'⟩ | here' | here')
        · rfl
        · have := first.mp here; have := second.mp ⟨_, here'⟩; omega
        · have := first.mp here; have := third.mp ⟨_, here'⟩; omega
        · have := second.mp ⟨_, here⟩; have := first.mp here'; omega
        · exact unique _ _ here here'
        · have := second.mp ⟨_, here⟩; have := third.mp ⟨_, here'⟩; omega
        · have := third.mp ⟨_, here⟩; have := first.mp here'; omega
        · have := third.mp ⟨_, here⟩; have := second.mp ⟨_, here'⟩; omega
        · exact unique' _ _ here here'

/-- A file owns the blocks that its slots and its indirect pointer lead to. -/
theorem Laid.owns_iff (laid : s.Laid d i files lo hi) (low : 0 < lo) (b : Nat) (g : FilePtr) :
    s.Owns d b g i files ↔ (g = d ∧ ∃ j, i ≤ j ∧ j < i + files.count ∧ s.LinkedFor d j b) ∨
      g ∈ s.filesAt d i files ∧ s.FileBlock g b := by
  induction files generalizing d i lo hi with
  | nil =>
      simp only [Owns, filesAt, HostFiles.count, List.not_mem_nil, false_and, or_false, false_iff]
      rintro ⟨-, j, low, high, -⟩
      omega
  | reg name content next ih =>
      obtain ⟨m, k, linked, file, rest⟩ := laid
      have below := linked.le
      have middle := file.le
      have count : (HostFiles.reg name content next).count = next.count + 1 := rfl
      rw [Owns, ih rest (by omega), filesAt, List.mem_cons, count]
      constructor
      · rintro (⟨same, here⟩ | ⟨rfl, here⟩ | ⟨same, j, low, high, here⟩ | ⟨inFiles, here⟩)
        · exact .inl ⟨same, i, Nat.le_refl i, by omega, here⟩
        · exact .inr ⟨.inl rfl, here⟩
        · exact .inl ⟨same, j, by omega, by omega, here⟩
        · exact .inr ⟨.inr inFiles, here⟩
      · rintro (⟨same, j, low, high, here⟩ | ⟨rfl | inFiles, here⟩)
        · by_cases first : j = i
          · exact .inl ⟨same, first ▸ here⟩
          · exact .inr (.inr (.inl ⟨same, j, by omega, by omega, here⟩))
        · exact .inr (.inl ⟨rfl, here⟩)
        · exact .inr (.inr (.inr ⟨inFiles, here⟩))
  | dir name kids next ihKids ihNext =>
      obtain ⟨m, k, linked, -, -, dir, inner, rest⟩ := laid
      have below := linked.le
      have middle := inner.le
      have count : (HostFiles.dir name kids next).count = next.count + 1 := rfl
      have own : (∃ j, 0 ≤ j ∧ j < 0 + kids.count ∧ s.LinkedFor (s.entryAt d i) j b) ↔
          s.FileBlock (s.entryAt d i) b := by
        rw [dir.fileBlock_iff (by omega)]
        simp
      rw [Owns, ihKids inner (by omega), ihNext rest (by omega), filesAt, List.mem_cons,
        List.mem_append, count, own]
      constructor
      · rintro (⟨same, here⟩ | (⟨rfl, here⟩ | ⟨inFiles, here⟩) | ⟨same, j, low, high, here⟩ |
          ⟨inFiles, here⟩)
        · exact .inl ⟨same, i, Nat.le_refl i, by omega, here⟩
        · exact .inr ⟨.inl rfl, here⟩
        · exact .inr ⟨.inr (.inl inFiles), here⟩
        · exact .inl ⟨same, j, by omega, by omega, here⟩
        · exact .inr ⟨.inr (.inr inFiles), here⟩
      · rintro (⟨same, j, low, high, here⟩ | ⟨rfl | inFiles | inFiles, here⟩)
        · by_cases first : j = i
          · exact .inl ⟨same, first ▸ here⟩
          · exact .inr (.inr (.inl ⟨same, j, by omega, by omega, here⟩))
        · exact .inr (.inl (.inl ⟨rfl, here⟩))
        · exact .inr (.inl (.inr ⟨inFiles, here⟩))
        · exact .inr (.inr (.inr ⟨inFiles, here⟩))

/-! ## The files of the tree -/

theorem entry_mem_filesAt (lt : j < files.count) : s.entryAt d (i + j) ∈ s.filesAt d i files := by
  induction files generalizing i j with
  | nil => cases lt
  | reg name content next ih =>
      rw [filesAt, List.mem_cons]
      cases j with
      | zero => exact .inl rfl
      | succ j =>
          right
          rw [← Nat.add_assoc, Nat.add_right_comm]
          exact ih (Nat.lt_of_succ_lt_succ lt)
  | dir name kids next _ ih =>
      rw [filesAt, List.mem_cons, List.mem_append]
      cases j with
      | zero => exact .inl rfl
      | succ j =>
          right
          right
          rw [← Nat.add_assoc, Nat.add_right_comm]
          exact ih (Nat.lt_of_succ_lt_succ lt)

theorem count_eq (files : HostFiles) : files.count = files.names.length := by
  induction files with
  | nil => rfl
  | reg name content next ih | dir name kids next _ ih =>
      rw [HostFiles.count, HostFiles.names, List.length_cons, ih]

theorem proper_names (proper : files.Proper) : files.names.Nodup ∧
    ∀ name ∈ files.names, PathName name ∧ name.length < MAXNAMELEN := by
  induction files with
  | nil => exact ⟨List.nodup_nil, fun _ none => absurd none List.not_mem_nil⟩
  | reg name content next ih =>
      obtain ⟨path, short, new, rest⟩ := proper
      obtain ⟨nodup, all⟩ := ih rest
      exact ⟨List.nodup_cons.mpr ⟨new, nodup⟩, List.forall_mem_cons.mpr ⟨⟨path, short⟩, all⟩⟩
  | dir name kids next _ ih =>
      obtain ⟨path, short, new, -, rest⟩ := proper
      obtain ⟨nodup, all⟩ := ih rest
      exact ⟨List.nodup_cons.mpr ⟨new, nodup⟩, List.forall_mem_cons.mpr ⟨⟨path, short⟩, all⟩⟩

/-- The entries have the names of the files, in their order. -/
theorem Laid.nameAt (laid : s.Laid d i files lo hi) (lt : j < files.names.length) :
    s.NameAt (s.entryAt d (i + j)) files.names[j] := by
  induction files generalizing i j lo hi with
  | nil => cases lt
  | reg name content next ih =>
      obtain ⟨m, k, -, file, rest⟩ := laid
      cases j with
      | zero => exact file.name
      | succ j =>
          rw [← Nat.add_assoc, Nat.add_right_comm]
          exact ih rest (Nat.lt_of_succ_lt_succ lt)
  | dir name kids next _ ih =>
      obtain ⟨m, k, -, at_name, -, -, -, rest⟩ := laid
      cases j with
      | zero => exact at_name
      | succ j =>
          rw [← Nat.add_assoc, Nat.add_right_comm]
          exact ih rest (Nat.lt_of_succ_lt_succ lt)

/-- What is laid out below a directory of the tree. -/
def Inner (s : Fs) (d f : FilePtr) (i : Nat) (files : HostFiles) (lo hi : Nat) : Prop :=
  ∃ kids m k, lo ≤ m ∧ k ≤ hi ∧ kids.Proper ∧
    s.DirAt f kids.count ((kids.count + 15) / 16) m k ∧ s.Laid f 0 kids m k ∧
    ∀ g ∈ s.filesAt f 0 kids, g ∈ s.filesAt d i files

theorem Laid.inner (laid : s.Laid d i files lo hi) (proper : files.Proper)
    (inFiles : f ∈ s.filesAt d i files) (isDir : s.fType f = FTYPE_DIR) :
    s.Inner d f i files lo hi := by
  induction files generalizing d i lo hi with
  | nil => cases inFiles
  | reg name content next ih =>
      obtain ⟨m, k, linked, file, rest⟩ := laid
      obtain ⟨-, -, -, properNext⟩ := proper
      have below := linked.le
      have middle := file.le
      rcases List.mem_cons.mp inFiles with rfl | later
      · exact absurd (isDir.symm.trans file.type) (by decide)
      · obtain ⟨kids, m', k', low, high, properKids, dir, inner, all⟩ := ih rest properNext later
        exact ⟨kids, m', k', by omega, high, properKids, dir, inner, fun g inKids =>
          List.mem_cons_of_mem _ (all g inKids)⟩
  | dir name kids next ihKids ihNext =>
      obtain ⟨m, k, linked, -, -, dir, inner, rest⟩ := laid
      obtain ⟨-, -, -, properKids, properNext⟩ := proper
      have below := linked.le
      have middle := inner.le
      have above := rest.le
      rcases List.mem_cons.mp inFiles with rfl | later
      · exact ⟨kids, m, k, below, above, properKids, dir, inner, fun g inKids =>
          List.mem_cons_of_mem _ (List.mem_append_left _ inKids)⟩
      · rcases List.mem_append.mp later with inKids | inNext
        · obtain ⟨kids', m', k', low, high, properKids', dir', inner', all⟩ :=
            ihKids inner properKids inKids
          exact ⟨kids', m', k', by omega, by omega, properKids', dir', inner', fun g inside =>
            List.mem_cons_of_mem _ (List.mem_append_left _ (all g inside))⟩
        · obtain ⟨kids', m', k', low, high, properKids', dir', inner', all⟩ :=
            ihNext rest properNext inNext
          exact ⟨kids', m', k', by omega, high, properKids', dir', inner', fun g inside =>
            List.mem_cons_of_mem _ (List.mem_append_right _ (all g inside))⟩

/-- The slots of a file are apart from one another and from the indirect block. -/
structure SlotsApart (s : Fs) (f : FilePtr) : Prop where
  once : ∀ i < NINDIRECT, ∀ j < NINDIRECT, s.fileSlot f i ≠ 0 → s.fileSlot f i = s.fileSlot f j →
    i = j
  index : ∀ i < NINDIRECT, s.fIndirect f ≠ 0 → s.fileSlot f i ≠ s.fIndirect f

theorem FileBlocks.apart (blocks : s.FileBlocks f m c) (low : 0 < m) : s.SlotsApart f := by
  have all : NINDIRECT = 1024 := rfl
  have slot : ∀ i < 1024, s.fileSlot f i = 0 ∨ s.fileSlot f i = filePos m i := by
    intro i inside
    by_cases there : i < c
    · exact .inr (blocks.slot i there)
    · exact .inl (blocks.noSlot i (by omega) inside)
  refine ⟨fun i inside j inside' nonzero same => ?_, fun i inside nonzero same => ?_⟩
  · have here := slot i (by omega)
    have there := slot j (by omega)
    have place := filePos_cases m i
    have place' := filePos_cases m j
    omega
  · have here := slot i (by omega)
    have place := filePos_cases m i
    have index := blocks.indirect
    split at index <;> omega

theorem DirAt.apart (dir : s.DirAt d n m lo hi) : s.SlotsApart d := by
  have all : NINDIRECT = 1024 := rfl
  have there : ∀ i < NINDIRECT, s.fileSlot d i ≠ 0 → i < m := by
    intro i inside nonzero
    by_contra behind
    exact nonzero (dir.noSlot i (by omega) (by omega))
  refine ⟨fun i inside j inside' nonzero same => ?_, fun i inside nonzero same => ?_⟩
  · exact dir.once i (there i inside nonzero) j (there j inside' (same ▸ nonzero)) same
  · have big : 10 < m := Nat.lt_of_not_le fun small => nonzero (dir.indirect.mpr small)
    obtain ⟨-, -, differ⟩ := dir.index big
    exact differ i (there i inside (same ▸ nonzero)) same

theorem Laid.apart (laid : s.Laid d i files lo hi) (low : 0 < lo)
    (inFiles : f ∈ s.filesAt d i files) : s.SlotsApart f := by
  induction files generalizing d i lo hi with
  | nil => cases inFiles
  | reg name content next ih =>
      obtain ⟨m, k, linked, file, rest⟩ := laid
      have below := linked.le
      have middle := file.le
      rcases List.mem_cons.mp inFiles with rfl | later
      · exact file.blocks.apart (by omega)
      · exact ih rest (by omega) later
  | dir name kids next ihKids ihNext =>
      obtain ⟨m, k, linked, -, -, dir, inner, rest⟩ := laid
      have below := linked.le
      have middle := inner.le
      rcases List.mem_cons.mp inFiles with rfl | later
      · exact dir.apart
      · rcases List.mem_append.mp later with inKids | inNext
        · exact ihKids inner (by omega) inKids
        · exact ihNext rest (by omega) inNext

theorem DirAt.size_eq (dir : s.DirAt d n m lo hi) : (s.fSize d).toNat / 4096 = m := by
  rw [dir.size]
  exact size_of_blocks dir.most

/-- The entries of the blocks, in use or not. -/
theorem DirAt.mem_entries (dir : s.DirAt d n m lo hi) :
    f ∈ s.entries d ↔ ∃ j < 16 * m, f = s.entryAt d j := by
  have sixteen : FILE2BLK = 16 := rfl
  rw [Fs.mem_entries, dir.size_eq]
  constructor
  · rintro ⟨k, lt, j, short, rfl⟩
    exact ⟨16 * k + j, by omega, (entryAt_block (by omega)).symm⟩
  · rintro ⟨j, lt, rfl⟩
    exact ⟨j / 16, by omega, j % 16, by omega, rfl⟩

theorem DirAt.mem_named (dir : s.DirAt d n m lo hi) :
    f ∈ s.entries d ∧ s.Named f ↔ ∃ j < n, f = s.entryAt d j := by
  rw [dir.mem_entries]
  constructor
  · rintro ⟨⟨j, lt, rfl⟩, named⟩
    refine ⟨j, ?_, rfl⟩
    by_contra behind
    have zero := dir.empty j (by omega) lt 0 (by omega)
    rw [Named, isFreeEntry, nameByte, Nat.zero_div, zero] at named
    exact absurd named (by decide)
  · rintro ⟨j, lt, rfl⟩
    exact ⟨⟨j, Nat.lt_of_lt_of_le lt dir.fits, rfl⟩, dir.named j lt⟩

/-- The files of the tree are below the directory. -/
theorem Laid.under {a : FilePtr} (laid : s.Laid d i files lo hi) (above : s.Under a d)
    (isDir : s.fType d = FTYPE_DIR)
    (entries : ∀ j, i ≤ j → j < i + files.count → s.entryAt d j ∈ s.entries d ∧
      s.Named (s.entryAt d j)) (inFiles : f ∈ s.filesAt d i files) : s.Under a f := by
  induction files generalizing d i lo hi with
  | nil => cases inFiles
  | reg name content next ih =>
      obtain ⟨m, k, -, -, rest⟩ := laid
      have count : (HostFiles.reg name content next).count = next.count + 1 := rfl
      rcases List.mem_cons.mp inFiles with rfl | later
      · obtain ⟨inDir, named⟩ := entries i (Nat.le_refl i) (by omega)
        exact above.entry isDir inDir named
      · exact ih rest above isDir (fun j low lt => entries j (by omega) (by omega)) later
  | dir name kids next ihKids ihNext =>
      obtain ⟨m, k, -, -, type, dir, inner, rest⟩ := laid
      have count : (HostFiles.dir name kids next).count = next.count + 1 := rfl
      obtain ⟨inDir, named⟩ := entries i (Nat.le_refl i) (by omega)
      have here := above.entry isDir inDir named
      rcases List.mem_cons.mp inFiles with rfl | later
      · exact here
      · rcases List.mem_append.mp later with inKids | inNext
        · exact ihKids inner here type (fun j _ lt => dir.mem_named.mpr ⟨j, by omega, rfl⟩) inKids
        · exact ihNext rest above isDir (fun j low lt => entries j (by omega) (by omega)) inNext

theorem Formatted.inner (formatted : s.Formatted files hi)
    (inTree : f = root ∨ f ∈ s.filesAt root 0 files) (isDir : s.fType f = FTYPE_DIR) :
    s.Inner root f 0 files 3 hi := by
  rcases inTree with rfl | inFiles
  · exact ⟨files, 3, hi, Nat.le_refl 3, Nat.le_refl hi, formatted.proper, formatted.dir,
      formatted.laid, fun _ inside => inside⟩
  · exact formatted.laid.inner formatted.proper inFiles isDir

/-- The files below the root are those that were written. -/
theorem Formatted.under_iff (formatted : s.Formatted files hi) :
    s.Under root f ↔ f = root ∨ f ∈ s.filesAt root 0 files := by
  constructor
  · intro under
    induction under with
    | refl => exact .inl rfl
    | @entry d f above isDir inDir named ih =>
        obtain ⟨kids, m, k, -, -, -, dir, -, all⟩ := formatted.inner ih isDir
        obtain ⟨j, lt, rfl⟩ := dir.mem_named.mp ⟨inDir, named⟩
        have inKids := entry_mem_filesAt (s := s) (d := d) (i := 0) lt
        rw [Nat.zero_add] at inKids
        exact .inr (all _ inKids)
  · rintro (rfl | inFiles)
    · exact .refl
    · exact formatted.laid.under .refl formatted.type
        (fun j _ lt => formatted.dir.mem_named.mpr ⟨j, by omega, rfl⟩) inFiles

/-- The owner of a block is the file below the root that has it. -/
theorem Formatted.owns_iff (formatted : s.Formatted files hi) :
    s.Under root f ∧ s.FileBlock f b ↔ s.Owns root b f 0 files := by
  rw [formatted.laid.owns_iff (by decide), formatted.under_iff]
  have own : (∃ j, 0 ≤ j ∧ j < 0 + files.count ∧ s.LinkedFor root j b) ↔ s.FileBlock root b := by
    rw [formatted.dir.fileBlock_iff (by decide)]
    simp
  rw [own]
  constructor
  · rintro ⟨rfl | inFiles, block⟩
    · exact .inl ⟨rfl, block⟩
    · exact .inr ⟨inFiles, block⟩
  · rintro (⟨rfl, block⟩ | ⟨inFiles, block⟩)
    · exact ⟨.inl rfl, block⟩
    · exact ⟨.inr inFiles, block⟩

/-! ## Names -/

theorem sameNameFrom_iff : s.sameNameFrom f k name = true ↔
    (∀ j (lt : j < name.length), s.nameByte f (k + j) = name[j]) ∧
      s.nameByte f (k + name.length) = 0 := by
  induction name generalizing k with
  | nil => simp [sameNameFrom]
  | cons c name ih =>
      have last : k + (c :: name).length = k + 1 + name.length := by
        rw [List.length_cons]
        omega
      rw [sameNameFrom, Bool.and_eq_true, ih, beq_iff_eq, last]
      constructor
      · rintro ⟨first, rest, stop⟩
        refine ⟨fun j lt => ?_, stop⟩
        cases j with
        | zero => exact first
        | succ j =>
            rw [← Nat.add_assoc, Nat.add_right_comm]
            exact rest j (Nat.lt_of_succ_lt_succ lt)
      · rintro ⟨all, stop⟩
        refine ⟨all 0 (Nat.succ_pos _), fun j lt => ?_, stop⟩
        have later := all (j + 1) (Nat.succ_lt_succ lt)
        rw [← Nat.add_assoc, Nat.add_right_comm] at later
        exact later

theorem NameAt.sameName (at_name : s.NameAt f name) : s.sameName f name = true := by
  rw [Fs.sameName, sameNameFrom_iff]
  simp only [Nat.zero_add]
  exact at_name

/-- Structures that compare equal to one string have the same name. -/
theorem NameAt.unique {name' str : FsName} (at_name : s.NameAt f name)
    (at_name' : s.NameAt g name') (clean : ∀ c ∈ name, c ≠ 0) (clean' : ∀ c ∈ name', c ≠ 0)
    (same : s.sameName f str = true) (same' : s.sameName g str = true) : name = name' := by
  rw [Fs.sameName, sameNameFrom_iff] at same same'
  simp only [Nat.zero_add] at same same'
  have short : ∀ {h : FilePtr} {nm : FsName}, s.NameAt h nm → (∀ c ∈ nm, c ≠ 0) →
      s.nameByte h str.length = 0 → nm.length ≤ str.length := by
    intro h nm named clean stop
    by_contra long
    have byte := named.1 str.length (by omega)
    rw [stop] at byte
    exact clean _ (List.getElem_mem (by omega)) byte.symm
  have le := short at_name clean same.2
  have le' := short at_name' clean' same'.2
  have bytes : ∀ j ≤ str.length, s.nameByte f j = s.nameByte g j := by
    intro j bound
    by_cases last : j = str.length
    · rw [last, same.2, same'.2]
    · rw [same.1 j (by omega), same'.1 j (by omega)]
  have left := at_name.sameName
  have right : s.sameName f name' = true := by
    rw [Fs.sameName, sameNameFrom_iff]
    simp only [Nat.zero_add]
    exact ⟨fun j lt => (bytes j (by omega)).trans (at_name'.1 j lt),
      (bytes _ le').trans at_name'.2⟩
  exact sameNameFrom_inj name name' 0 clean clean' left right

/-- Entries of a directory that compare equal to one string are one entry. -/
theorem DirAt.names (dir : s.DirAt d files.count m lo hi) (laid : s.Laid d 0 files lo hi)
    (proper : files.Proper) (inDir : f ∈ s.entries d) (inDir' : g ∈ s.entries d)
    (named : s.Named f) (same : s.sameName f name = true) (same' : s.sameName g name = true) :
    f = g := by
  obtain ⟨j, lt, rfl⟩ := dir.mem_named.mp ⟨inDir, named⟩
  obtain ⟨j', lt', rfl⟩ := dir.mem_named.mp ⟨inDir', named_of_same named same same'⟩
  obtain ⟨nodup, all⟩ := proper_names proper
  rw [count_eq] at lt lt'
  have at_name := laid.nameAt lt
  have at_name' := laid.nameAt lt'
  rw [Nat.zero_add] at at_name at_name'
  have equal := at_name.unique at_name' (all _ (List.getElem_mem lt)).1.proper.2
    (all _ (List.getElem_mem lt')).1.proper.2 same same'
  rw [(List.Nodup.getElem_inj_iff nodup).mp equal]

/-! ## The disk is sound -/

theorem Formatted.present (formatted : s.Formatted files hi) (under : s.Under root d)
    (isDir : s.fType d = FTYPE_DIR) : s.DirPresent d := by
  have ten : NDIRECT = 10 := rfl
  have all : NINDIRECT = 1024 := rfl
  obtain ⟨kids, m, k, low, high, -, dir, -, -⟩ :=
    formatted.inner (formatted.under_iff.mp under) isDir
  intro i lt
  rw [dir.size_eq] at lt
  have most := dir.most
  have slot := dir.slot i lt
  refine ⟨by omega, by omega, (formatted.used _).mpr (by omega), fun beyond => ?_⟩
  exact (formatted.used _).mpr (by
    have index := dir.index (by omega)
    omega)

theorem Formatted.block_bounds (formatted : s.Formatted files hi) (under : s.Under root f)
    (block : s.FileBlock f b) : 3 ≤ b ∧ b < hi :=
  (formatted.laid.owner (by decide) b).1.mp ⟨f, formatted.owns_iff.mp ⟨under, block⟩⟩

theorem Formatted.reserved_iff (formatted : s.Formatted files hi) : s.Reserved b ↔ b < 3 := by
  have one : nbitmap NBLOCK = 1 := by decide
  rw [Reserved, formatted.nblocks, one]

theorem Formatted.sound (formatted : s.Formatted files hi) : s.Sound where
  present _ := formatted.present
  owner f g b under under' block block' :=
    (formatted.laid.owner (by decide) b).2 f g (formatted.owns_iff.mp ⟨under, block⟩)
      (formatted.owns_iff.mp ⟨under', block'⟩)
  once f under := by
    rcases formatted.under_iff.mp under with rfl | inFiles
    · exact formatted.dir.apart.once
    · exact (formatted.laid.apart (by decide) inFiles).once
  indirectOther f under := by
    rcases formatted.under_iff.mp under with rfl | inFiles
    · exact formatted.dir.apart.index
    · exact (formatted.laid.apart (by decide) inFiles).index
  notReserved f b under block := by
    rw [formatted.reserved_iff]
    have := formatted.block_bounds under block
    omega
  names d under isDir f inDir g inDir' name named same same' := by
    obtain ⟨kids, m, k, -, -, proper, dir, laid, -⟩ :=
      formatted.inner (formatted.under_iff.mp under) isDir
    exact dir.names laid proper inDir inDir' named same same'
  inUse f b under block := (formatted.used b).mpr (formatted.block_bounds under block).2
  ends d under isDir i inside behind := by
    obtain ⟨kids, m, k, -, -, -, dir, -, -⟩ :=
      formatted.inner (formatted.under_iff.mp under) isDir
    rw [dir.size_eq] at behind
    exact dir.noSlot i behind inside

theorem Formatted.balanced (formatted : s.Formatted files hi) : s.Balanced := by
  intro b
  rw [formatted.used, formatted.reserved_iff]
  have owner := (formatted.laid.owner (by decide) b).1
  constructor
  · intro low
    by_cases reserved : b < 3
    · exact .inl reserved
    · obtain ⟨f, owns⟩ := owner.mpr ⟨by omega, low⟩
      exact .inr ⟨f, formatted.owns_iff.mpr owns⟩
  · have three := formatted.laid.le
    rintro (reserved | ⟨f, under, block⟩)
    · omega
    · exact (formatted.block_bounds under block).2

/-! ## What the paths lead to -/

/-- The structure holds the file of the host, in blocks below `hi`. -/
def Holds (s : Fs) (f : FilePtr) (hi : Nat) : HostFile → Prop
  | .reg content => ∃ name m k, 3 ≤ m ∧ k ≤ hi ∧ s.FileAt f name content m k
  | .dir kids => s.fType f = FTYPE_DIR ∧ ∃ m k, 3 ≤ m ∧ k ≤ hi ∧ kids.Proper ∧
      s.DirAt f kids.count ((kids.count + 15) / 16) m k ∧ s.Laid f 0 kids m k

/-- The path shows what the host has in that place: a file's bytes, block by block, and
a directory's names. -/
def ShowsFile (s : Fs) (path : FsName) : Option HostFile → Prop
  | none => ¬ s.Resolves path
  | some (.reg content) => ∃ dir f m,
      s.walkPath path = (⟨.ok (), dir, some f, none⟩, s.withMapped m) ∧ s.fType f = FTYPE_REG ∧
        (s.fSize f).toNat = content.length ∧ ∀ k (lt : k < content.length), ∃ b m',
          (s.withMapped m).fileGetBlock f (k / 4096) = (.ok b, s.withMapped m') ∧
            s.nameByte (b, 0) (k % 4096) = content[k]
  | some (.dir kids) => ∃ dir f m,
      s.walkPath path = (⟨.ok (), dir, some f, none⟩, s.withMapped m) ∧ s.fType f = FTYPE_DIR ∧
        ∀ name, Fs.Proper name → ((s.lookup f name).isSome ↔ name ∈ kids.names)

variable {names : List FsName} {dir : Option FilePtr} {h : HostFile} {top : Nat}

/-- Each entry holds the file of its name. -/
theorem Laid.get (laid : s.Laid d i files lo hi) (proper : files.Proper) (low : 3 ≤ lo)
    (high : hi ≤ top) (lt : j < files.names.length) :
    ∃ h, files.get files.names[j] = some h ∧ s.Holds (s.entryAt d (i + j)) top h := by
  induction files generalizing i j lo with
  | nil => cases lt
  | reg name content next ih =>
      obtain ⟨m, k, linked, file, rest⟩ := laid
      obtain ⟨-, -, new, properNext⟩ := proper
      have below := linked.le
      have middle := file.le
      have above := rest.le
      cases j with
      | zero => exact ⟨.reg content, if_pos rfl, name, m, k, by omega, by omega, file⟩
      | succ j =>
          obtain ⟨h, found, holds⟩ := ih rest properNext (by omega) (Nat.lt_of_succ_lt_succ lt)
          refine ⟨h, (if_neg fun same => new ?_).trans found, ?_⟩
          · rw [same]
            exact List.getElem_mem _
          · rw [← Nat.add_assoc, Nat.add_right_comm]
            exact holds
  | dir name kids next _ ih =>
      obtain ⟨m, k, linked, -, type, dir, inner, rest⟩ := laid
      obtain ⟨-, -, new, properKids, properNext⟩ := proper
      have below := linked.le
      have middle := inner.le
      have above := rest.le
      cases j with
      | zero =>
          exact ⟨.dir kids, if_pos rfl, type, m, k, by omega, by omega, properKids, dir, inner⟩
      | succ j =>
          obtain ⟨h, found, holds⟩ := ih rest properNext (by omega) (Nat.lt_of_succ_lt_succ lt)
          refine ⟨h, (if_neg fun same => new ?_).trans found, ?_⟩
          · rw [same]
            exact List.getElem_mem _
          · rw [← Nat.add_assoc, Nat.add_right_comm]
            exact holds

theorem get_none (missing : name ∉ files.names) : files.get name = none := by
  induction files with
  | nil => rfl
  | reg name' content next ih | dir name' kids next _ ih =>
      obtain ⟨other, later⟩ := not_or.mp (mt List.mem_cons.mpr missing)
      rw [HostFiles.get, if_neg fun same => other same.symm]
      exact ih later

/-- A lookup in a directory finds what the host has under that name. -/
theorem DirAt.lookup_get (dir : s.DirAt d files.count m lo hi) (laid : s.Laid d 0 files lo hi)
    (properFiles : files.Proper) (low : 3 ≤ lo) (high : hi ≤ top) (proper : Fs.Proper name) :
    (s.lookup d name = none ∧ name ∉ files.names) ∨
      name ∈ files.names ∧
        ∃ f h, s.lookup d name = some f ∧ files.get name = some h ∧ s.Holds f top h := by
  have entries : s.lookup d name = (s.entries d).find? fun f => s.sameName f name := rfl
  obtain ⟨-, all⟩ := proper_names properFiles
  cases found : s.lookup d name with
  | none =>
      rw [entries, List.find?_eq_none] at found
      refine .inl ⟨rfl, fun inNames => ?_⟩
      obtain ⟨j, lt, same⟩ := List.mem_iff_getElem.mp inNames
      have at_name := laid.nameAt lt
      rw [Nat.zero_add, same] at at_name
      have inDir := (dir.mem_named.mpr ⟨j, by rw [count_eq]; exact lt, rfl⟩).1
      exact found _ inDir at_name.sameName
  | some f =>
      rw [entries] at found
      have inDir := List.mem_of_find?_eq_some found
      have same := List.find?_some found
      obtain ⟨j, lt, rfl⟩ := dir.mem_named.mp ⟨inDir, named_of_sameName proper same⟩
      rw [count_eq] at lt
      have at_name := laid.nameAt lt
      obtain ⟨h, here, holds⟩ := laid.get properFiles low high lt
      rw [Nat.zero_add] at at_name holds
      have equal : files.names[j] = name :=
        sameNameFrom_inj _ _ 0 (all _ (List.getElem_mem lt)).1.proper.2 proper.2 at_name.sameName
          same
      rw [equal] at here
      exact .inr ⟨equal ▸ List.getElem_mem lt, _, h, rfl, here, holds⟩

theorem resolve_snoc : files.resolve (names ++ [name]) = some h ↔
    ∃ kids, files.resolve names = some (.dir kids) ∧ kids.get name = some h := by
  induction names generalizing files with
  | nil =>
      have one : files.resolve [name] = files.get name := by
        rw [HostFiles.resolve]
        cases files.get name with
        | none => rfl
        | some h => cases h <;> rfl
      rw [List.nil_append, one]
      constructor
      · exact fun found => ⟨files, rfl, found⟩
      · rintro ⟨kids, same, found⟩
        cases same
        exact found
  | cons first names ih =>
      rw [List.cons_append, HostFiles.resolve, HostFiles.resolve]
      cases files.get first with
      | none => simp
      | some g =>
          cases g with
          | dir kids => exact ih
          | reg content =>
              have more : names ++ [name] ≠ [] := List.append_ne_nil_of_right_ne_nil _ (by simp)
              dsimp only
              rw [if_neg more]
              constructor
              · intro none
                cases none
              · rintro ⟨kids, file, -⟩
                split at file <;> cases file

/-- What the names of a path lead to is the file of the host. -/
theorem Formatted.resolved_holds (formatted : s.Formatted files hi)
    (resolved : s.Resolved names dir f) (proper : ∀ name ∈ names, Fs.Proper name) :
    ∃ h, files.resolve names = some h ∧ s.Holds f hi h := by
  induction resolved with
  | root =>
      exact ⟨.dir files, rfl, formatted.type, 3, hi, Nat.le_refl 3, Nat.le_refl hi,
        formatted.proper, formatted.dir, formatted.laid⟩
  | @down names name dir d f before short isDir found ih =>
      obtain ⟨h, here, holds⟩ := ih fun name inNames => proper name (List.mem_append_left _ inNames)
      cases h with
      | reg content =>
          obtain ⟨_, _, _, -, -, file⟩ := holds
          exact absurd (isDir.symm.trans file.type) (by decide)
      | dir kids =>
          obtain ⟨-, m, k, low, high, properKids, dirAt, laid⟩ := holds
          have last := proper name (List.mem_append_right _ List.mem_cons_self)
          rcases dirAt.lookup_get laid properKids low high last with ⟨none, -⟩ |
            ⟨-, g, h, some, get, holds⟩
          · rw [none] at found
            cases found
          · rw [some] at found
            cases found
            exact ⟨h, resolve_snoc.mpr ⟨kids, here, get⟩, holds⟩

theorem Formatted.holds_resolved (formatted : s.Formatted files hi)
    (here : files.resolve names = some h) (proper : ∀ name ∈ names, Fs.Proper name) :
    ∃ dir f, s.Resolved names dir f ∧ s.Holds f hi h := by
  induction names using List.reverseRecOn generalizing h with
  | nil =>
      cases here
      exact ⟨none, root, .root, formatted.type, 3, hi, Nat.le_refl 3, Nat.le_refl hi,
        formatted.proper, formatted.dir, formatted.laid⟩
  | append_singleton names name ih =>
      obtain ⟨kids, before, get⟩ := resolve_snoc.mp here
      obtain ⟨dir, d, resolved, isDir, m, k, low, high, properKids, dirAt, laid⟩ :=
        ih before fun name inNames => proper name (List.mem_append_left _ inNames)
      have last := proper name (List.mem_append_right _ List.mem_cons_self)
      rcases dirAt.lookup_get laid properKids low high last with ⟨-, missing⟩ |
        ⟨inNames, f, h', found, get', holds⟩
      · rw [get_none missing] at get
        cases get
      · rw [get'] at get
        cases get
        have short := ((proper_names properKids).2 name inNames).2
        exact ⟨some d, f, resolved.down short isDir found, holds⟩

/-- The bytes of a regular file, read block by block. -/
theorem Formatted.reads (formatted : s.Formatted files hi) (low : 3 ≤ m) (high : k ≤ hi)
    (file : s.FileAt f name content m k) (lt : j < content.length) (mapped : Nat → Bool) :
    ∃ b m', (s.withMapped mapped).fileGetBlock f (j / 4096) = (.ok b, s.withMapped m') ∧
      s.nameByte (b, 0) (j % 4096) = content[j] := by
  have ten : NDIRECT = 10 := rfl
  have all : NINDIRECT = 1024 := rfl
  have most := file.blocks.most
  have finish := file.finish
  have stop := filePos_cases m ((content.length + 4095) / 4096)
  have place := filePos_cases m (j / 4096)
  have slot := file.blocks.slot (j / 4096) (by omega)
  obtain ⟨m', run, -⟩ := fileGetBlock_slot (s := s) (d := f) (m := mapped) (i := j / 4096)
    (by omega) (by omega) ((formatted.used _).mpr (by omega)) fun beyond => by
      rw [file.blocks.indirect, if_pos (by omega)]
      exact (formatted.used _).mpr (by omega)
  exact ⟨_, m', run, slot ▸ file.bytes j lt⟩

theorem Formatted.showsFile (formatted : s.Formatted files hi) {path : FsName}
    (clean : ∀ c ∈ path, c ≠ 0) : s.ShowsFile path (files.resolve (components path)) := by
  have proper : ∀ name ∈ components path, Fs.Proper name := fun name inPath =>
    proper_of_mem clean inPath
  have present := formatted.sound.toTree.presentFor
  cases here : files.resolve (components path) with
  | none =>
      intro resolves
      obtain ⟨dir, g, resolved⟩ := (resolves_iff present proper).mp resolves
      obtain ⟨h, some, -⟩ := formatted.resolved_holds resolved proper
      rw [here] at some
      cases some
  | some h =>
      obtain ⟨dir, f, resolved, holds⟩ := formatted.holds_resolved here proper
      obtain ⟨m, run, -⟩ := walkNames_append present resolved proper [] s.mapped
      rw [List.append_nil] at run
      have walk : s.walkPath path = (⟨.ok (), dir, some f, none⟩, s.withMapped m) :=
        (walkPath_eq s path).trans run
      cases h with
      | reg content =>
          obtain ⟨name, lo, k, low, high, file⟩ := holds
          refine ⟨dir, f, m, walk, file.type, ?_, fun j lt =>
            formatted.reads low high file lt m⟩
          have most := file.blocks.most
          rw [file.size, BitVec.toNat_ofNat, Nat.mod_eq_of_lt (by omega)]
      | dir kids =>
          obtain ⟨isDir, lo, k, low, high, properKids, dirAt, laid⟩ := holds
          refine ⟨dir, f, m, walk, isDir, fun name properName => ?_⟩
          rcases dirAt.lookup_get laid properKids low high properName with ⟨none, missing⟩ |
            ⟨inNames, g, h, found, -⟩
          · rw [none]
            simp [missing]
          · rw [found]
            simp [inNames]

end Fs

namespace Image

open Fs

variable {files : HostFiles} {img : Image}

/-- The disk that `fsformat` leaves can be mounted, and is sound: each block has one
owner, the bitmap marks those taken and no others, and no directory has two files of
one name. -/
theorem fsformat_sound (proper : files.Proper) (format : fsformat files = some img)
    (answers : List (Except Err Unit)) :
    ∃ s, img.mount answers = some s ∧ s.Mounted ∧ s.Sound ∧ s.Balanced := by
  obtain ⟨s, mount, formatted⟩ := formatted_mount proper format answers
  exact ⟨s, mount, formatted.mounted, formatted.sound, formatted.balanced⟩

/-- The server finds under each path what the host had there, and nothing under the
others. -/
theorem fsformat_round_trip (proper : files.Proper) (format : fsformat files = some img)
    (answers : List (Except Err Unit)) : ∃ s, img.mount answers = some s ∧
      ∀ path : FsName, (∀ c ∈ path, c ≠ 0) →
        s.ShowsFile path (files.resolve (components path)) := by
  obtain ⟨s, mount, formatted⟩ := formatted_mount proper format answers
  exact ⟨s, mount, fun path clean => formatted.showsFile clean⟩

/-- The file `a`, and the directory `b` with the file `c`. -/
def twoFiles : HostFiles :=
  .reg [0x61] [0x68, 0x69] (.dir [0x62] (.reg [0x63] [] .nil) .nil)

theorem proper_twoFiles : twoFiles.Proper := by
  have name : ∀ c : Byte, c ≠ 0 → c ≠ slash → PathName [c] := by
    intro c nonzero noSlash
    refine ⟨⟨List.cons_ne_nil _ _, fun b inName => ?_⟩, fun b inName => ?_⟩
    · rw [List.mem_singleton.mp inName]
      exact nonzero
    · rw [List.mem_singleton.mp inName]
      exact noSlash
  exact ⟨name _ (by decide) (by decide), by decide, by decide,
    name _ (by decide) (by decide), by decide, by decide,
    ⟨name _ (by decide) (by decide), by decide, by decide, trivial⟩, trivial⟩

theorem fsformat_twoFiles : (fsformat twoFiles).isSome := by decide +kernel

theorem fsformat_sound_twoFiles : ∃ img s, fsformat twoFiles = some img ∧
    img.mount [] = some s ∧ s.Mounted ∧ s.Sound ∧ s.Balanced := by
  obtain ⟨img, format⟩ := Option.isSome_iff_exists.mp fsformat_twoFiles
  obtain ⟨s, sound⟩ := fsformat_sound proper_twoFiles format []
  exact ⟨img, s, format, sound⟩

theorem fsformat_round_trip_twoFiles : ∃ img s, fsformat twoFiles = some img ∧
    img.mount [] = some s ∧ s.ShowsFile [slash, 0x61] (some (.reg [0x68, 0x69])) := by
  obtain ⟨img, format⟩ := Option.isSome_iff_exists.mp fsformat_twoFiles
  obtain ⟨s, mount, shows'⟩ := fsformat_round_trip proper_twoFiles format []
  exact ⟨img, s, format, mount, shows' [slash, 0x61] (by decide)⟩

end Image

end Mos
