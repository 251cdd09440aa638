import Mos.Pipe
import Mos.Syscall

/-!
# The two ELF loaders

`elf_load_seg` of `lib/elfloader.c`, and the two programs that run it for the program
headers of an executable: `load_icode` of `kern/env.c`, on an image in memory, and
`spawn` of `user/lib/spawn.c`, on a file that it reads through a descriptor. There is
always a free page, so a page table is a map from page numbers.
-/

namespace Mos.Elf

variable {σ : Type}

/-! ## The image -/

/-- A little endian `Elf32_Half`. -/
def half (m : Nat → Byte) (a : Nat) : BitVec 16 := m (a + 1) ++ m a

/-- A little endian word. -/
def word (m : Nat → Byte) (a : Nat) : Word := half m (a + 2) ++ half m a

/-- Fields of the `Elf32_Ehdr` at address 0. -/
def eType (m : Nat → Byte) : BitVec 16 := half m 16
def ePhoff (m : Nat → Byte) : Word := word m 28
def ePhentsize (m : Nat → Byte) : BitVec 16 := half m 42
def ePhnum (m : Nat → Byte) : BitVec 16 := half m 44

/-- `sizeof(Elf32_Ehdr)` -/
def sizeofEhdr : Nat := 52

/-- `elf_from` returns the header: the magic number and the type are right. -/
def elfFrom (m : Nat → Byte) (size : Nat) : Prop :=
  sizeofEhdr ≤ size ∧ m 0 = 0x7f ∧ m 1 = 0x45 ∧ m 2 = 0x4c ∧ m 3 = 0x46 ∧ eType m = 2

instance (m : Nat → Byte) (size : Nat) : Decidable (elfFrom m size) :=
  inferInstanceAs (Decidable (_ ∧ _))

/-- The fields of an `Elf32_Phdr` that the loaders use. -/
structure Phdr where
  pType : Word
  pOffset : Word
  pVaddr : Word
  pFilesz : Word
  pMemsz : Word
  pFlags : Word
  deriving DecidableEq

/-- `sizeof(Elf32_Phdr)` -/
def sizeofPhdr : Nat := 32

/-- The `Elf32_Phdr` at address `a`. -/
def phdr (m : Nat → Byte) (a : Nat) : Phdr where
  pType := word m a
  pOffset := word m (a + 4)
  pVaddr := word m (a + 8)
  pFilesz := word m (a + 16)
  pMemsz := word m (a + 20)
  pFlags := word m (a + 24)

def ptLoad : Word := 1
def pfW : Word := 2

/-! ## `elf_load_seg` -/

/-- How loading fails. -/
inductive LoadErr
  | err (e : Err)
  | noDisk
  | notExec
  /-- `readn` writes past the end of `elfbuf`. -/
  | overrun
  /-- The counter of `elf_load_seg` wraps around and the loop goes on for ever. -/
  | endless

/-- An `elf_mapper_t`: `va`, `offset`, `perm`, `src` (if it is not `NULL`) and `len`. -/
abbrev Mapper (σ : Type) := σ → Word → Nat → Word → Option Nat → Nat → Except LoadErr σ

/-- `i += BY2PG` starts again from 0. -/
def Wraps (i : Nat) : Prop := 2 ^ 32 ≤ i + 4096

instance (i : Nat) : Decidable (Wraps i) := inferInstanceAs (Decidable (_ ≤ _))

/-- The first loop: the bytes of the file. -/
def loadBin (mapPage : Mapper σ) (ph : Phdr) (perm : Word) (bin i : Nat) (s : σ) :
    Except LoadErr (Nat × σ) :=
  if i < ph.pFilesz.toNat then do
    let s ← mapPage s (ph.pVaddr + .ofNat 32 i) 0 perm (some (bin + i))
      (min (ph.pFilesz.toNat - i) 4096)
    if Wraps i then .error .endless else loadBin mapPage ph perm bin (i + 4096) s
  else .ok (i, s)
termination_by ph.pFilesz.toNat - i
decreasing_by omega

/-- The second loop: the pages that are left up to `p_memsz`. The length that it
passes is that of no copy. -/
def loadZero (mapPage : Mapper σ) (ph : Phdr) (perm : Word) (i : Nat) (s : σ) : Except LoadErr σ :=
  if i < ph.pMemsz.toNat then do
    let s ← mapPage s (ph.pVaddr + .ofNat 32 i) 0 perm none
      (min (ph.pFilesz - .ofNat 32 i).toNat 4096)
    if Wraps i then .error .endless else loadZero mapPage ph perm (i + 4096) s
  else .ok s
termination_by ph.pMemsz.toNat - i
decreasing_by omega

def Phdr.perm (ph : Phdr) : Word := if ph.pFlags.Has pfW then pteV ||| pteD else pteV

/-- `va - ROUNDDOWN(va, BY2PG)` -/
def Phdr.offset (ph : Phdr) : Nat := (ph.pVaddr - (ph.pVaddr &&& ~~~(by2pg - 1))).toNat

/-- The bytes of the segment that its first page takes, if it does not start a page. -/
def Phdr.head (ph : Phdr) : Nat := min ph.pFilesz.toNat (4096 - ph.offset)

def elfLoadSeg (mapPage : Mapper σ) (ph : Phdr) (bin : Nat) (s : σ) : Except LoadErr σ := do
  let s ← if ph.offset ≠ 0 then mapPage s ph.pVaddr ph.offset ph.perm (some bin) ph.head else .ok s
  let (i, s) ← loadBin mapPage ph ph.perm bin (if ph.offset ≠ 0 then ph.head else 0) s
  loadZero mapPage ph ph.perm i s

/-! ## Pages -/

/-- The physical pages: from `next` on they are free. -/
structure Ram where
  page : Nat → Nat → Byte
  next : Nat

/-- `page_alloc`: the page is cleared. -/
def Ram.pageAlloc (r : Ram) : Nat × Ram :=
  (r.next, { page := Function.update r.page r.next fun _ => 0, next := r.next + 1 })

/-- `memcpy` of `len` bytes, at `offset` of page `p`. -/
def Ram.memcpy (r : Ram) (p offset : Nat) (src : Nat → Byte) (len : Nat) : Ram :=
  { r with
    page := Function.update r.page p fun j =>
      if offset ≤ j ∧ j < offset + len then src (j - offset) else r.page p j }

/-- Page table entries by virtual page number: the physical page and the permission. -/
abbrev Space := Nat → Option (Nat × Word)

/-- `page_insert` -/
def Space.insert (space : Space) (va : Word) (p : Nat) (perm : Word) : Space :=
  Function.update space (ppn va) (some (p, perm ||| pteV))

/-- The byte at an address, if a page is mapped there. -/
def Space.byte (space : Space) (r : Ram) (a : Nat) : Option Byte :=
  (space (a / 4096)).map fun pte => r.page pte.1 (a % 4096)

/-! ## `load_icode` -/

/-- The new env, in the kernel. -/
structure Loaded where
  ram : Ram
  space : Space

/-- `load_icode_mapper`. An address `src` is counted from `binary` on. -/
def loadIcodeMapper (binary : Nat → Byte) : Mapper Loaded := fun s va offset perm src len =>
  let (p, ram) := s.ram.pageAlloc
  let ram := match src with
    | some src => ram.memcpy p offset (fun j => binary (src + j)) len
    | none => ram
  .ok ⟨ram, s.space.insert va p perm⟩

/-- A program header that a loader has processed: where it is in the file, and what
`elf_load_seg` was called with if it is that of a segment to load. -/
structure Visit where
  phOff : Word
  seg : Option (Phdr × List Byte)

/-- The bytes of a segment, from address `bin` on. -/
def segBytes (m : Nat → Byte) (bin : Nat) (ph : Phdr) : List Byte :=
  (List.range ph.pFilesz.toNat).map fun j => m (bin + j)

/-- `ELF_FOREACH_PHDR_OFF` of `load_icode`, from header `idx` on. -/
def loadIcodeLoop (binary : Nat → Byte) (idx : Nat) (phOff : Word) (s : Loaded) :
    Except LoadErr (List Visit × Loaded) :=
  if idx < (ePhnum binary).toNat then do
    let next := phOff + (ePhentsize binary).setWidth 32
    let ph := phdr binary phOff.toNat
    if ph.pType = ptLoad then
      let bin := ph.pOffset.toNat
      let s ← elfLoadSeg (loadIcodeMapper binary) ph bin s
      let (visits, s) ← loadIcodeLoop binary (idx + 1) next s
      .ok (⟨phOff, some (ph, segBytes binary bin ph)⟩ :: visits, s)
    else
      let (visits, s) ← loadIcodeLoop binary (idx + 1) next s
      .ok (⟨phOff, none⟩ :: visits, s)
  else .ok ([], s)
termination_by (ePhnum binary).toNat - idx

/-- `load_icode`, for an image that `elf_from` accepts. -/
def loadIcode (binary : Nat → Byte) (ram : Ram) : Except LoadErr (List Visit × Loaded) :=
  loadIcodeLoop binary 0 (ePhoff binary) ⟨ram, fun _ => none⟩

/-! ## `spawn` -/

/-- The caller of `spawn` and its child. -/
structure Spawner where
  ram : Ram
  parent : Space
  child : Space

/-- A byte of the caller. Where nothing is mapped the kernel puts a cleared page. -/
def Spawner.load (s : Spawner) (a : Nat) : Byte := (s.parent.byte s.ram a).getD 0

/-- `syscall_mem_alloc(child, va, perm)` -/
def Spawner.memAlloc (s : Spawner) (va perm : Word) : Except LoadErr Spawner :=
  if isIllegalVa va then .error (.err .inval)
  else
    let (p, ram) := s.ram.pageAlloc
    .ok { s with ram, child := s.child.insert va p perm }

/-- `syscall_mem_map(child, srcva, 0, dstva, perm)` -/
def Spawner.memMap (s : Spawner) (srcva dstva perm : Word) : Except LoadErr Spawner :=
  if isIllegalVa srcva ∨ isIllegalVa dstva then .error (.err .inval)
  else
    match s.child (ppn srcva) with
    | none => .error (.err .inval)
    | some (p, _) => .ok { s with parent := s.parent.insert dstva p perm }

/-- `syscall_mem_unmap(0, va)` -/
def Spawner.memUnmap (s : Spawner) (va : Word) : Except LoadErr Spawner :=
  if isIllegalVa va then .error (.err .inval)
  else .ok { s with parent := Function.update s.parent (ppn va) none }

/-- `memcpy` to `offset` of the page at `va`. -/
def Spawner.memcpy (s : Spawner) (va : Word) (offset src len : Nat) : Spawner :=
  match s.parent (ppn va) with
  | some (p, _) => { s with ram := s.ram.memcpy p offset (fun j => s.load (src + j)) len }
  | none => s

/-- `spawn_mapper`. When it fails `spawn` destroys the child. -/
def spawnMapper : Mapper Spawner := fun s va offset perm src len => do
  let s ← s.memAlloc va perm
  match src with
  | some src =>
      let s ← s.memMap va utemp (perm ||| pteD)
      (s.memcpy utemp offset src len).memUnmap utemp
  | none => .ok s

/-- The open file: its descriptor and its size. -/
structure File where
  fdno : Fin 31
  size : Nat

/-- `fd2data`: where the pages of the file are mapped. -/
def File.data (f : File) : Nat := 0x60000000 + f.fdno * 0x400000

/-- `MAXFILESIZE` -/
def maxFileSize : Nat := 0x400000

/-- How many bytes `file_read` copies. -/
def File.readLen (f : File) (n offset : Nat) : Nat :=
  if f.size < offset then 0 else if f.size < offset + n then f.size - offset else n

/-- `readn` of `n` bytes into `elfbuf[512]`, with `tot` bytes read, at `offset` of
the file. -/
def readn (s : Spawner) (f : File) (elfbuf : Nat → Byte) (offset n tot : Nat) :
    Except LoadErr ((Nat → Byte) × Nat) :=
  if tot < n then
    let m := f.readLen (n - tot) offset
    if 512 < tot + m then .error .overrun
    else
      let elfbuf := fun j =>
        if tot ≤ j ∧ j < tot + m then s.load (f.data + offset + (j - tot)) else elfbuf j
      if m = 0 then .ok (elfbuf, tot) else readn s f elfbuf (offset + m) n (tot + m)
  else .ok (elfbuf, tot)
termination_by n - tot

/-- `read_map` -/
def readMap (s : Spawner) (f : File) (offset : Nat) : Except LoadErr Nat :=
  if maxFileSize ≤ offset then .error .noDisk
  else if s.parent ((f.data + offset) / 4096) = none then .error .noDisk
  else .ok (f.data + offset)

/-- `ELF_FOREACH_PHDR_OFF` of `spawn`, from header `idx` on. The ELF header and the
program header are both in `elfbuf`. -/
def spawnLoop (f : File) (elfbuf : Nat → Byte) (idx : Nat) (phOff : Word) (s : Spawner) :
    Except LoadErr (List Visit × Spawner) :=
  if idx < (ePhnum elfbuf).toNat then do
    let (elfbuf, _) ← readn s f elfbuf phOff.toNat (ePhentsize elfbuf).toNat 0
    let next := phOff + (ePhentsize elfbuf).setWidth 32
    let ph := phdr elfbuf 0
    if ph.pType = ptLoad then
      let bin ← readMap s f ph.pOffset.toNat
      let bytes := segBytes s.load bin ph
      let s ← elfLoadSeg spawnMapper ph bin s
      let (visits, s) ← spawnLoop f elfbuf (idx + 1) next s
      .ok (⟨phOff, some (ph, bytes)⟩ :: visits, s)
    else
      let (visits, s) ← spawnLoop f elfbuf (idx + 1) next s
      .ok (⟨phOff, none⟩ :: visits, s)
  else .ok ([], s)
termination_by 65536 - idx
decreasing_by all_goals omega

/-- `spawn`, from reading the ELF header to the end of the loop. `elfbuf` holds anything
at first. -/
def spawn (f : File) (elfbuf : Nat → Byte) (s : Spawner) :
    Except LoadErr (List Visit × Spawner) := do
  let (elfbuf, r) ← readn s f elfbuf 0 sizeofEhdr 0
  if r = sizeofEhdr ∧ elfFrom elfbuf sizeofEhdr then
    spawnLoop f elfbuf 0 (ePhoff elfbuf) s
  else .error .notExec

end Mos.Elf
