import Mos.FsAlloc
import Mos.Pipe

/-!
# Files, directories and paths of the file system server

A `struct File` is found by the block it lies in and its first word there. Its
slots, ten in the structure and the others in the indirect block, hold the
numbers of its blocks; a directory is a file whose blocks hold 16 files each. The
field `f_dir`, a pointer for flushing, is left out.
-/

namespace Mos

/-- A `struct File *`: a block, and a word of it. -/
abbrev FilePtr := Nat × Nat

/-- `FTYPE_DIR` -/
def FTYPE_DIR : Word := 1

/-- `MAXNAMELEN` -/
def MAXNAMELEN : Nat := 128

/-- `FILE2BLK` -/
def FILE2BLK : Nat := 16

/-- `NDIRECT` -/
def NDIRECT : Nat := 10

/-- `NINDIRECT` -/
def NINDIRECT : Nat := 1024

/-- `'/'` -/
def slash : Byte := 0x2f

/-- A name, or a path, without its terminator. -/
abbrev FsName := List Byte

namespace Fs

/-- `&super->s_root` -/
def root : FilePtr := (1, 2)

/-- `*ptr = w` -/
def setWord (s : Fs) (ptr : Nat × Nat) (w : Word) : Fs :=
  { s with blk := fun b i => if b = ptr.1 ∧ i = ptr.2 then w else s.blk b i }

def word (s : Fs) (ptr : Nat × Nat) : Word := s.blk ptr.1 ptr.2

def fSize (s : Fs) (f : FilePtr) : Word := s.blk f.1 (f.2 + 32)

def fType (s : Fs) (f : FilePtr) : Word := s.blk f.1 (f.2 + 33)

def fIndirect (s : Fs) (f : FilePtr) : Nat := (s.blk f.1 (f.2 + 44)).toNat

/-- `&f->f_size` -/
def sizePtr (f : FilePtr) : Nat × Nat := (f.1, f.2 + 32)

/-- `&f->f_indirect` -/
def indirectPtr (f : FilePtr) : Nat × Nat := (f.1, f.2 + 44)

/-- `f->f_name[k]`; a name that is not terminated runs on into the fields. -/
def nameByte (s : Fs) (f : FilePtr) (k : Nat) : Byte :=
  (s.blk f.1 (f.2 + k / 4) >>> (8 * (k % 4))).setWidth 8

/-- `f->f_name[k] = c` -/
def setNameByte (s : Fs) (f : FilePtr) (k : Nat) (c : Byte) : Fs :=
  let w := s.blk f.1 (f.2 + k / 4)
  s.setWord (f.1, f.2 + k / 4)
    (w &&& ~~~(0xff#32 <<< (8 * (k % 4))) ||| (c.setWidth 32 <<< (8 * (k % 4))))

/-- `read_block`. The page it maps shows the block as it is on the disk; there is
memory for it, for the server stops without. -/
def readBlock (s : Fs) (blockno : Nat) : Except FsErr Unit × Fs :=
  if s.nblocks ≤ blockno then (.error .panic, s)
  else if s.blockIsFree blockno then (.error .panic, s)
  else (.ok (), { s with mapped := Function.update s.mapped blockno true })

/-- `file_block_walk` with the indirect block there. -/
def indirectWalk (s : Fs) (f : FilePtr) (filebno : Nat) : Except FsErr (Nat × Nat) × Fs :=
  match s.readBlock (s.fIndirect f) with
  | (.error e, s) => (.error e, s)
  | (.ok (), s) => (.ok (s.fIndirect f, filebno), s)

/-- `file_block_walk`: the slot of block `filebno`. -/
def fileBlockWalk (s : Fs) (f : FilePtr) (filebno : Nat) (alloc : Bool) :
    Except FsErr (Nat × Nat) × Fs :=
  if filebno < NDIRECT then (.ok (f.1, f.2 + 34 + filebno), s)
  else if filebno < NINDIRECT then
    if s.fIndirect f = 0 then
      if alloc = false then (.error .notFound, s)
      else match s.allocBlock with
        | (.error e, s) => (.error e, s)
        | (.ok r, s) => (s.setWord (indirectPtr f) (BitVec.ofNat 32 r)).indirectWalk f filebno
    else s.indirectWalk f filebno
  else (.error (.sys .inval), s)

/-- `file_map_block`: the block of the disk that is block `filebno` of the file. -/
def fileMapBlock (s : Fs) (f : FilePtr) (filebno : Nat) (alloc : Bool) :
    Except FsErr Nat × Fs :=
  match s.fileBlockWalk f filebno alloc with
  | (.error e, s) => (.error e, s)
  | (.ok ptr, s) =>
      if s.word ptr = 0 then
        if alloc = false then (.error .notFound, s)
        else match s.allocBlock with
          | (.error e, s) => (.error e, s)
          | (.ok r, s) => (.ok r, s.setWord ptr (BitVec.ofNat 32 r))
      else (.ok (s.word ptr).toNat, s)

/-- `file_clear_block` -/
def fileClearBlock (s : Fs) (f : FilePtr) (filebno : Nat) : Except FsErr Unit × Fs :=
  match s.fileBlockWalk f filebno false with
  | (.error e, s) => (.error e, s)
  | (.ok ptr, s) =>
      if s.word ptr = 0 then (.ok (), s)
      else (.ok (), (s.freeBlock (s.word ptr).toNat).setWord ptr 0)

/-- `file_get_block` -/
def fileGetBlock (s : Fs) (f : FilePtr) (filebno : Nat) : Except FsErr Nat × Fs :=
  match s.fileMapBlock f filebno true with
  | (.error e, s) => (.error e, s)
  | (.ok diskbno, s) =>
      match s.readBlock diskbno with
      | (.error e, s) => (.error e, s)
      | (.ok (), s) => (.ok diskbno, s)

/-! ## Truncation -/

/-- The loop of `file_truncate` over `left` blocks from `bno` on: an error of
`file_clear_block` is ignored, a panic is not. -/
def truncateLoop (s : Fs) (f : FilePtr) : Nat → Nat → Except FsErr Unit × Fs
  | _, 0 => (.ok (), s)
  | bno, left + 1 =>
      match s.fileClearBlock f bno with
      | (.error .panic, s) => (.error .panic, s)
      | (_, s) => s.truncateLoop f (bno + 1) left

/-- The blocks a file of that size keeps when it is truncated. -/
def newNblocks (newsize : Word) : Nat := if newsize = 0 then 0 else newsize.toNat / 4096 + 1

/-- `file_truncate` -/
def fileTruncate (s : Fs) (f : FilePtr) (newsize : Word) : Except FsErr Unit × Fs :=
  let oldNblocks := (s.fSize f).toNat / 4096 + 1
  let n := newNblocks newsize
  match s.truncateLoop f n (oldNblocks - n) with
  | (.error e, s) => (.error e, s)
  | (.ok (), s) =>
      let s :=
        if n ≤ NDIRECT ∧ s.fIndirect f ≠ 0 then
          (s.freeBlock (s.fIndirect f)).setWord (indirectPtr f) 0
        else s
      (.ok (), s.setWord (sizePtr f) newsize)

/-! ## Directories -/

/-- `strcmp(name, f->f_name) == 0`, from character `k` on. -/
def sameNameFrom (s : Fs) (f : FilePtr) : Nat → FsName → Bool
  | k, [] => s.nameByte f k == 0
  | k, c :: name => s.nameByte f k == c && s.sameNameFrom f (k + 1) name

def sameName (s : Fs) (f : FilePtr) (name : FsName) : Bool := s.sameNameFrom f 0 name

/-- The 16 files of a directory block. -/
def filesOf (blockno : Nat) : List FilePtr :=
  (List.range FILE2BLK).map fun j => (blockno, 64 * j)

/-- The loop of `dir_lookup` over `left` blocks from `i` on. -/
def dirLookupFrom (s : Fs) (dir : FilePtr) (name : FsName) :
    Nat → Nat → Except FsErr FilePtr × Fs
  | _, 0 => (.error .notFound, s)
  | i, left + 1 =>
      match s.fileGetBlock dir i with
      | (.error e, s) => (.error e, s)
      | (.ok blk, s) =>
          match (filesOf blk).find? fun f => s.sameName f name with
          | some f => (.ok f, s)
          | none => s.dirLookupFrom dir name (i + 1) left

def dirLookup (s : Fs) (dir : FilePtr) (name : FsName) : Except FsErr FilePtr × Fs :=
  s.dirLookupFrom dir name 0 ((s.fSize dir).toNat / 4096)

/-! ## Paths -/

def skipSlash : FsName → FsName
  | [] => []
  | c :: p => if c = slash then skipSlash p else c :: p

theorem length_skipSlash_le (p : FsName) : (skipSlash p).length ≤ p.length := by
  induction p with
  | nil => exact Nat.le_refl _
  | cons c p ih =>
      rw [skipSlash]
      split
      · exact Nat.le_succ_of_le ih
      · exact Nat.le_refl _

/-- `while (*path != '/' && *path != '\\0') path++` -/
def scanName (p : FsName) : FsName := p.takeWhile fun c => c != slash

def restOf (p : FsName) : FsName := p.dropWhile fun c => c != slash

theorem length_rest_lt (c : Byte) (p : FsName) :
    (skipSlash (restOf (c :: p))).length < (c :: p).length := by
  rw [restOf, List.dropWhile_cons]
  split
  · refine Nat.lt_succ_of_le ((length_skipSlash_le _).trans ?_)
    exact (List.dropWhile_sublist _).length_le
  · next isSlash =>
      have same : c = slash := by simpa using isSlash
      rw [skipSlash, if_pos same]
      exact Nat.lt_succ_of_le (length_skipSlash_le p)

/-- What `walk_path` returns, and what it stores: `*pdir` and `*pfile`, null
before, and `lastelem`, if it is written. -/
structure Walk where
  r : Except FsErr Unit
  pdir : Option FilePtr
  pfile : Option FilePtr
  lastelem : Option FsName
  deriving DecidableEq

/-- An error before anything was found. -/
def Walk.failed (e : FsErr) : Walk := ⟨.error e, none, none, none⟩

/-- The loop of `walk_path`, at `path`, with `file` found so far in `dir`. -/
def walkFrom (s : Fs) (dir : Option FilePtr) (file : FilePtr) : FsName → Walk × Fs
  | [] => (⟨.ok (), dir, some file, none⟩, s)
  | c :: path =>
      let name := scanName (c :: path)
      let rest := skipSlash (restOf (c :: path))
      if MAXNAMELEN ≤ name.length then (.failed .badPath, s)
      else if s.fType file ≠ FTYPE_DIR then (.failed .notFound, s)
      else match s.dirLookup file name with
        | (.ok found, s) => s.walkFrom (some file) found rest
        | (.error e, s) =>
            if e = .notFound ∧ rest = [] then (⟨.error e, some file, none, some name⟩, s)
            else (.failed e, s)
  termination_by path => path.length
  decreasing_by exact length_rest_lt c path

/-- `walk_path` -/
def walkPath (s : Fs) (path : FsName) : Walk × Fs := s.walkFrom none root (skipSlash path)

end Fs

end Mos
