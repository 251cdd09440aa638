import Mos.Mmu
import Mathlib.Logic.Function.Basic

/-!
# Physical pages and page tables

The memory manager of `kern/pmap.c`. Page directories and page tables live in
physical memory, as the words of the pages they occupy, so a store to one page
can change what another address space sees. A kernel pointer to a page is its
page number, a `Pte *` is a page number with a word index, and `NULL` is
`none`. A panic ends the run.
-/

namespace Mos

/-- A TLB entry: the page number and address space it was written for, and
`EntryLo`. -/
structure TlbEntry where
  vpn : Nat
  asid : Word
  lo : Word
  deriving DecidableEq

/-- An access that sets `EntryHi` to `entryhi` hits the entry. -/
def TlbEntry.Matches (e : TlbEntry) (entryhi : Word) : Prop :=
  e.vpn = ppn entryhi ∧ (e.lo.Has pteG ∨ e.asid = (entryhi >>> 6) &&& 0x3f#32)

instance (e : TlbEntry) (entryhi : Word) : Decidable (e.Matches entryhi) :=
  inferInstanceAs (Decidable (_ ∧ _))

/-- Physical memory, the `pages` array and the TLB. -/
structure Pmap where
  npage : Nat
  /-- Word `k` of physical page `p` is `mem p k`. -/
  mem : Nat → Nat → Word
  ppRef : Nat → BitVec 16
  pageFreeList : List Nat
  tlb : List TlbEntry

/-- A `Pte *`: a page and the index of a word in it. -/
abbrev PtePtr := Nat × Nat

namespace Pmap

/-- The word behind a `Pte *`. -/
def word (s : Pmap) (pte : PtePtr) : Word := s.mem pte.1 pte.2

/-- `*pte = w`. -/
def setWord (s : Pmap) (pte : PtePtr) (w : Word) : Pmap :=
  { s with mem := Function.update s.mem pte.1 (Function.update (s.mem pte.1) pte.2 w) }

/-- `memset(page2kva(pp), 0, BY2PG)`. -/
def zeroPage (s : Pmap) (pp : Nat) : Pmap :=
  { s with mem := Function.update s.mem pp fun _ => 0 }

/-- `pp->pp_ref = n`. -/
def setRef (s : Pmap) (pp : Nat) (n : BitVec 16) : Pmap :=
  { s with ppRef := Function.update s.ppRef pp n }

/-- `KADDR`, for the address of a page. -/
def kaddr (s : Pmap) (pa : Word) : Except Panic Nat :=
  if ppn pa < s.npage then .ok (ppn pa) else .error .kaddr

def pa2page (s : Pmap) (pa : Word) : Except Panic Nat :=
  if ppn pa < s.npage then .ok (ppn pa) else .error .pa2page

def page2kva (s : Pmap) (pp : Nat) : Except Panic Nat := s.kaddr (page2pa pp)

/-- Delete the entries an access with `entryhi` would hit. -/
def tlbOut (s : Pmap) (entryhi : Word) : Pmap :=
  { s with tlb := s.tlb.filter fun e => ¬ e.Matches entryhi }

def tlbInvalidate (s : Pmap) (asid va : Word) : Pmap :=
  s.tlbOut (pteAddr va ||| (asid <<< 6))

end Pmap

/-- `page_alloc`: a zeroed page off the free list, its count not touched. -/
def pageAlloc (s : Pmap) : Except Panic (Pmap × Except Err Nat) :=
  match s.pageFreeList with
  | [] => .ok (s, .error .noMem)
  | pp :: rest => do
      let kva ← s.page2kva pp
      .ok (({ s with pageFreeList := rest } : Pmap).zeroPage kva, .ok pp)

def pageFree (s : Pmap) (pp : Nat) : Except Panic Pmap :=
  if s.ppRef pp = 0 then .ok { s with pageFreeList := pp :: s.pageFreeList }
  else .error .pageFree

/-- Steps 1 and 3 of `pgdir_walk`, for a valid directory entry. -/
def pgdirEntry (s : Pmap) (pgdir : Nat) (va : Word) :
    Except Panic (Pmap × Except Err (Option PtePtr)) := do
  let pt ← s.kaddr (pteAddr (s.mem pgdir (pdx va)))
  .ok (s, .ok (some (pt, ptx va)))

/-- `pgdir_walk`. The new page table is installed with `PTE_D | PTE_V`. -/
def pgdirWalk (s : Pmap) (pgdir : Nat) (va : Word) (create : Bool) :
    Except Panic (Pmap × Except Err (Option PtePtr)) :=
  if (s.mem pgdir (pdx va)).Has pteV then pgdirEntry s pgdir va
  else if create then do
    match ← pageAlloc s with
    | (s, .error e) => .ok (s, .error e)
    | (s, .ok pp) =>
        let s := s.setWord (pgdir, pdx va) (page2pa pp ||| pteD ||| pteV)
        pgdirEntry (s.setRef pp (s.ppRef pp + 1)) pgdir va
  else .ok (s, .ok none)

/-- `page_lookup`: the page mapped at `va` and its page table entry. -/
def pageLookup (s : Pmap) (pgdir : Nat) (va : Word) : Except Panic (Option (Nat × PtePtr)) := do
  match ← pgdirWalk s pgdir va false with
  | (_, .ok (some pte)) =>
      if (s.word pte).Has pteV then do
        let pp ← s.pa2page (s.word pte)
        .ok (some (pp, pte))
      else .ok none
  | _ => .ok none

def pageDecref (s : Pmap) (pp : Nat) : Except Panic Pmap :=
  if 0 < s.ppRef pp then
    let s := s.setRef pp (s.ppRef pp - 1)
    if s.ppRef pp = 0 then pageFree s pp else .ok s
  else .error .pageDecref

def pageRemove (s : Pmap) (pgdir : Nat) (asid va : Word) : Except Panic Pmap := do
  match ← pageLookup s pgdir va with
  | none => .ok s
  | some (pp, pte) => do
      let s ← pageDecref s pp
      .ok ((s.setWord pte 0).tlbInvalidate asid va)

/-- Steps 2 to 4 of `page_insert`, where `va` is not mapped. -/
def pageInsertNew (s : Pmap) (pgdir : Nat) (asid : Word) (pp : Nat) (va perm : Word) :
    Except Panic (Pmap × Except Err Unit) := do
  match ← pgdirWalk (s.tlbInvalidate asid va) pgdir va true with
  | (s, .error e) => .ok (s, .error e)
  | (_, .ok none) => .error .nullPointer
  | (s, .ok (some pte)) =>
      let s := s.setWord pte (page2pa pp ||| perm ||| pteV)
      .ok (s.setRef pp (s.ppRef pp + 1), .ok ())

/-- `page_insert`. A page mapped at `va` already only has its permission
changed; another page mapped there is removed first. -/
def pageInsert (s : Pmap) (pgdir : Nat) (asid : Word) (pp : Nat) (va perm : Word) :
    Except Panic (Pmap × Except Err Unit) := do
  match ← pgdirWalk s pgdir va false with
  | (s, .ok (some pte)) =>
      if (s.word pte).Has pteV then do
        if (← s.pa2page (s.word pte)) ≠ pp then do
          let s ← pageRemove s pgdir asid va
          pageInsertNew s pgdir asid pp va perm
        else
          let s := s.tlbInvalidate asid va
          .ok (s.setWord pte (page2pa pp ||| perm ||| pteV), .ok ())
      else pageInsertNew s pgdir asid pp va perm
  | (s, _) => pageInsertNew s pgdir asid pp va perm

/-- `va2pa`, with `~0` for an unmapped address. -/
def va2pa (s : Pmap) (pgdir : Nat) (va : Word) : Except Panic Word :=
  if (s.mem pgdir (pdx va)).Has pteV then do
    let pt ← s.kaddr (pteAddr (s.mem pgdir (pdx va)))
    if (s.mem pt (ptx va)).Has pteV then .ok (pteAddr (s.mem pt (ptx va))) else .ok (~~~0)
  else .ok (~~~0)

/-! ## Boot memory -/

/-- `sizeof(struct Page)`. -/
def sizeofPage : Nat := 12

/-- `sizeof(struct Env)`. -/
def sizeofEnv : Nat := 1244

/-- `NENV`: the number of env slots. -/
abbrev nenv : Nat := 1024

/-- What the machine and the linker decide before `mips_init` runs: the memory
size, where the kernel image ends and where its `envs` array lies. The other
fields are what the link and the panic in `alloc` guarantee. -/
structure Boot where
  npage : Nat
  /-- The physical address of `end`. -/
  kernEnd : Nat
  /-- The physical address of `envs`. -/
  envsPa : Nat
  /-- What physical memory holds. -/
  mem : Nat → Nat → Word
  /-- The `pages` array fits in `PDMAP` bytes. -/
  array_le : npage * sizeofPage ≤ 2 ^ 22
  envs_aligned : envsPa % 4096 = 0
  envs_below : envsPa + nenv * sizeofEnv ≤ kernEnd
  pages_fit : (kernEnd + 4095) / 4096 * 4096 + npage * sizeofPage < npage * 4096

namespace Boot

/-- The `envs` of the boots that are run lie at a page. -/
theorem envs_at_page : 4096 % 4096 = 0 := rfl

theorem npage_le (b : Boot) : b.npage ≤ 2 ^ 19 := by
  have le := b.array_le
  simp only [sizeofPage] at le
  omega

/-- The physical address of `pages`, which `mips_vm_init` allocates. -/
def pagesPa (b : Boot) : Nat := (b.kernEnd + 4095) / 4096 * 4096

/-- The number of pages below `freemem` when `page_init` runs. -/
def bootPages (b : Boot) : Nat := (b.pagesPa + b.npage * sizeofPage + 4095) / 4096

end Boot

/-- `mips_vm_init` and `page_init`: the pages below `freemem` are in use, the
others are pushed on the free list in turn. -/
def pageInit (b : Boot) : Pmap where
  npage := b.npage
  mem := b.mem
  ppRef pp := if pp < b.bootPages then 1 else 0
  pageFreeList := (List.range' b.bootPages (b.npage - b.bootPages)).foldl (fun l pp => pp :: l) []
  tlb := []

end Mos
