import Mos.Dev
import Mos.Fd
import Mos.FsRequest

/-!
# Files of a client

`ftruncate`, `file_read` and `file_write` of `user/lib/file.c`. The `Filefd` of an
open file has its own copy of the size, and the pages of the file are mapped one
by one in the window of the descriptor. The answers of the file server to the
requests of the client are given in the order in which the requests are made.
-/

namespace Mos

open Dev (Memory memcpy Apart)

/-- A descriptor number within the table. -/
abbrev FdIx := Fin 32

/-- `MAXFILESIZE` -/
def maxFileSize : Nat := 0x400000

/-- The error codes of `include/error.h` that are returned here. -/
inductive FileErr where
  /-- `-E_NO_DISK` -/
  | noDisk
  /-- `-E_INVAL` -/
  | inval
  /-- `-E_MAX_OPEN` -/
  | maxOpen
  /-- `-E_BAD_PATH` -/
  | badPath
  /-- Any error in a reply of the server. -/
  | server (code : Nat)
  deriving DecidableEq

/-- The fields of `struct Filefd` that `file.c` and `fd.c` use. -/
structure Filefd where
  fdDevId : Word
  fdOffset : Word
  fdOmode : Word
  fFileid : Word
  fSize : Word
  deriving DecidableEq

/-- `devfile.dev_id`, `'f'` -/
def devfileId : Word := 0x66

/-- The file server as a client sees it: how it answers its requests, the bytes of
each page of a file, and the `Filefd` that comes with an answer to `FSREQ_OPEN`. -/
structure FileServer where
  reply : Nat → Except FileErr Unit
  block : Word → Word → Nat → Byte
  opened : Nat → Filefd

/-- A client, and what the server has for the sizes of its files. -/
structure Client where
  mem : Memory
  /-- The `Fd` pages that are mapped. -/
  fds : FdIx → Option Filefd
  /-- The pages that are mapped, by page number. -/
  pages : Nat → Bool
  /-- `f_size` of the server's `struct File`, by file id. -/
  fsSize : Word → Word
  /-- How many requests were made. -/
  asked : Nat

variable {sv : FileServer} {c c' : Client} {k : FdIx} {f : Filefd} {e : FileErr}
  {va size n offset buf fileid : Word} {a i m : Nat}

namespace Client

/-- `fd2data` -/
def fd2data (k : FdIx) : Word := index2data (BitVec.ofNat 32 k.val)

def setFd (c : Client) (k : FdIx) (f : Option Filefd) : Client :=
  { c with fds := Function.update c.fds k f }

/-- `syscall_mem_unmap(0, va)` -/
def memUnmap (c : Client) (va : Word) : Client :=
  { c with pages := Function.update c.pages (ppn va) false }

/-- `fsipc_set_size(fileid, size)` -/
def fsipcSetSize (sv : FileServer) (c : Client) (fileid size : Word) :
    Except FileErr Unit × Client :=
  let asked := { c with asked := c.asked + 1 }
  match sv.reply c.asked with
  | .error e => (.error e, asked)
  | .ok _ => (.ok (), { asked with fsSize := Function.update c.fsSize fileid size })

/-- `fsipc_map(fileid, offset, va)` -/
def fsipcMap (sv : FileServer) (c : Client) (fileid offset va : Word) :
    Except FileErr Unit × Client :=
  let asked := { c with asked := c.asked + 1 }
  match sv.reply c.asked with
  | .error e => (.error e, asked)
  | .ok _ =>
      let mem : Memory := fun x =>
        if (x - va).toNat < 4096 then sv.block fileid offset (x - va).toNat else c.mem x
      (.ok (), { asked with mem := mem, pages := Function.update c.pages (ppn va) true })

/-- `fsipc_map(fileid, i, va + i)` for `m` pages from page `i` on, up to the first error. -/
def mapPages (sv : FileServer) (c : Client) (fileid va : Word) (i : Nat) :
    Nat → Except FileErr Unit × Client
  | 0 => (.ok (), c)
  | m + 1 =>
      let offset := BitVec.ofNat 32 (4096 * i)
      match fsipcMap sv c fileid offset (va + offset) with
      | (.error e, c) => (.error e, c)
      | (.ok _, c) => mapPages sv c fileid va (i + 1) m

/-- `syscall_mem_unmap(0, va + i)` for `m` pages from page `i` on. -/
def unmapPages (c : Client) (va : Word) (i : Nat) : Nat → Client
  | 0 => c
  | m + 1 => unmapPages (c.memUnmap (va + BitVec.ofNat 32 (4096 * i))) va (i + 1) m

/-- `ROUND(size, BY2PG)`, in pages. -/
def roundPages (size : Word) : Nat := (size + 4095).toNat / 4096

/-- `ftruncate` from the lookup on. -/
def truncateFd (sv : FileServer) (c : Client) (k : FdIx) (f : Filefd) (size : Word) :
    Except FileErr Unit × Client :=
  let c := c.setFd k (some { f with fSize := size })
  match fsipcSetSize sv c f.fFileid size with
  | (.error e, c) => (.error e, c)
  | (.ok _, c) =>
      let old := roundPages f.fSize
      let new := roundPages size
      match mapPages sv c f.fFileid (fd2data k) old (new - old) with
      | (.error e, c) => (.error e, (fsipcSetSize sv c f.fFileid f.fSize).2)
      | (.ok _, c) => (.ok (), unmapPages c (fd2data k) new (old - new))

/-- `ftruncate(fdnum, size)` -/
def ftruncate (sv : FileServer) (c : Client) (k : FdIx) (size : Word) :
    Except FileErr Unit × Client :=
  if maxFileSize < size.toNat then (.error .noDisk, c)
  else
    match c.fds k with
    | none => (.error .inval, c)
    | some f =>
        if f.fdDevId ≠ devfileId then (.error .inval, c) else truncateFd sv c k f size

/-- `file_read(fd, buf, n, offset)`: the count it returns, and memory. -/
def fileRead (c : Client) (k : FdIx) (f : Filefd) (buf n offset : Word) : Word × Memory :=
  let size := f.fSize
  if size < offset then (0, c.mem)
  else
    let n := if size < offset + n then size - offset else n
    (n, memcpy c.mem buf (fd2data k + offset) n)

/-- The file is made longer if it has to be. -/
def grow (sv : FileServer) (c : Client) (k : FdIx) (f : Filefd) (tot : Word) :
    Except FileErr Unit × Client :=
  if f.fSize < tot then ftruncate sv c k tot else (.ok (), c)

/-- `file_write(fd, buf, n, offset)` -/
def fileWrite (sv : FileServer) (c : Client) (k : FdIx) (f : Filefd) (buf n offset : Word) :
    Except FileErr Word × Client :=
  let tot := offset + n
  if maxFileSize < tot.toNat then (.error .noDisk, c)
  else
    match grow sv c k f tot with
    | (.error e, c) => (.error e, c)
    | (.ok _, c) => (.ok n, { c with mem := memcpy c.mem (fd2data k + offset) buf n })

/-- The server grants the `m` requests after the first `a`. -/
def Grants (sv : FileServer) (a m : Nat) : Prop :=
  ∀ t < m, sv.reply (a + t) = .ok ()

theorem grants_succ : Grants sv a (m + 1) ↔ sv.reply a = .ok () ∧ Grants sv (a + 1) m := by
  constructor
  · intro all
    refine ⟨all 0 (Nat.succ_pos m), fun t ht => ?_⟩
    rw [Nat.add_assoc, Nat.add_comm 1]
    exact all (t + 1) (by omega)
  · intro all t ht
    cases t with
    | zero => exact all.1
    | succ t =>
        rw [Nat.add_comm t 1, ← Nat.add_assoc]
        exact all.2 t (by omega)

/-- A request to map a page: its answer, and what it leaves alone. -/
theorem fsipcMap_spec (sv : FileServer) (c : Client) (fileid offset va : Word) :
    (fsipcMap sv c fileid offset va).1 = sv.reply c.asked ∧
      (fsipcMap sv c fileid offset va).2.fds = c.fds ∧
      (fsipcMap sv c fileid offset va).2.fsSize = c.fsSize ∧
      (fsipcMap sv c fileid offset va).2.asked = c.asked + 1 := by
  unfold fsipcMap
  cases sv.reply c.asked with
  | error e => exact ⟨rfl, rfl, rfl, rfl⟩
  | ok u => exact ⟨rfl, rfl, rfl, rfl⟩

theorem mapPages_succ (sv : FileServer) (c : Client) (fileid va : Word) (i m : Nat) :
    mapPages sv c fileid va i (m + 1) =
      match fsipcMap sv c fileid (BitVec.ofNat 32 (4096 * i)) (va + BitVec.ofNat 32 (4096 * i)) with
      | (.error e, c) => (.error e, c)
      | (.ok _, c) => mapPages sv c fileid va (i + 1) m := rfl

theorem mapPages_spec (sv : FileServer) (c : Client) (fileid va : Word) (i m : Nat) :
    ((mapPages sv c fileid va i m).1 = .ok () ↔ Grants sv c.asked m) ∧
      (mapPages sv c fileid va i m).2.fds = c.fds ∧
      (mapPages sv c fileid va i m).2.fsSize = c.fsSize := by
  induction m generalizing c i with
  | zero => exact ⟨iff_of_true rfl fun t ht => absurd ht (Nat.not_lt_zero t), rfl, rfl⟩
  | succ m ih =>
      obtain ⟨answer, fds, sizes, asked⟩ := fsipcMap_spec sv c fileid
        (BitVec.ofNat 32 (4096 * i)) (va + BitVec.ofNat 32 (4096 * i))
      rw [mapPages_succ, grants_succ]
      generalize fsipcMap sv c fileid _ _ = r at *
      obtain ⟨res, c₁⟩ := r
      simp only at answer fds sizes asked
      cases res with
      | error e =>
          rw [← answer]
          exact ⟨iff_of_false (fun no => by cases no) (fun no => by cases no.1), fds, sizes⟩
      | ok u =>
          obtain ⟨iff, fds', sizes'⟩ := ih c₁ (i + 1)
          rw [asked] at iff
          exact ⟨iff.trans (and_iff_right answer.symm).symm, fds'.trans fds, sizes'.trans sizes⟩

/-- Where no page is asked for, nothing but the answer matters. -/
theorem fsipcSetSize_spec (sv : FileServer) (c : Client) (fileid size : Word) :
    (fsipcSetSize sv c fileid size).1 = sv.reply c.asked ∧
      (fsipcSetSize sv c fileid size).2.fds = c.fds ∧
      (fsipcSetSize sv c fileid size).2.pages = c.pages ∧
      (fsipcSetSize sv c fileid size).2.asked = c.asked + 1 ∧
      (sv.reply c.asked ≠ .ok () → (fsipcSetSize sv c fileid size).2.fsSize = c.fsSize) := by
  unfold fsipcSetSize
  cases sv.reply c.asked with
  | error e => exact ⟨rfl, rfl, rfl, rfl, fun _ => rfl⟩
  | ok u => exact ⟨rfl, rfl, rfl, rfl, fun no => absurd rfl no⟩

/-- The server grants what `ftruncate` to `size` asks for. -/
def GrantsResize (sv : FileServer) (a : Nat) (old size : Word) : Prop :=
  Grants sv a (1 + (roundPages size - roundPages old))

theorem truncateFd_spec (sv : FileServer) (c : Client) (k : FdIx) (f : Filefd) (size : Word) :
    (GrantsResize sv c.asked f.fSize size ∧ (truncateFd sv c k f size).1 = .ok ()) ∨
      (¬GrantsResize sv c.asked f.fSize size ∧ ∃ e, (truncateFd sv c k f size).1 = .error e ∧
        (truncateFd sv c k f size).2.fds k = some { f with fSize := size } ∧
        (size = f.fSize → (truncateFd sv c k f size).2.fsSize = c.fsSize ∧
          (truncateFd sv c k f size).2.pages = c.pages)) := by
  have grants : GrantsResize sv c.asked f.fSize size ↔ sv.reply c.asked = .ok () ∧
      Grants sv (c.asked + 1) (roundPages size - roundPages f.fSize) := by
    rw [GrantsResize, Nat.add_comm 1, grants_succ]
  rw [grants]
  generalize start : c.setFd k (some { f with fSize := size }) = c₀
  have fds₀ : c₀.fds k = some { f with fSize := size } := by
    rw [← start]
    exact Function.update_self ..
  have rest₀ : c₀.asked = c.asked ∧ c₀.fsSize = c.fsSize ∧ c₀.pages = c.pages := by
    rw [← start]
    exact ⟨rfl, rfl, rfl⟩
  obtain ⟨answer, fds, pages, asked, kept⟩ := fsipcSetSize_spec sv c₀ f.fFileid size
  simp only [truncateFd, start]
  generalize fsipcSetSize sv c₀ f.fFileid size = r at *
  obtain ⟨res, c₁⟩ := r
  simp only at answer fds pages asked kept
  rw [rest₀.1] at answer asked kept
  cases res with
  | error e =>
      right
      have refused : sv.reply c.asked ≠ .ok () := by
        rw [← answer]
        exact fun no => by cases no
      refine ⟨fun no => refused no.1, e, rfl, (congrFun fds k).trans fds₀, fun _ => ?_⟩
      exact ⟨(kept refused).trans rest₀.2.1, pages.trans rest₀.2.2⟩
  | ok u =>
      obtain ⟨iff, fds', -⟩ := mapPages_spec sv c₁ f.fFileid (fd2data k) (roundPages f.fSize)
        (roundPages size - roundPages f.fSize)
      have none_asked : size = f.fSize → Grants sv c₁.asked
          (roundPages size - roundPages f.fSize) := by
        intro same t ht
        rw [same, Nat.sub_self] at ht
        exact absurd ht (Nat.not_lt_zero t)
      rw [asked] at iff none_asked
      dsimp only
      generalize mapPages sv c₁ f.fFileid _ _ _ = r at *
      obtain ⟨res, c₂⟩ := r
      simp only at iff fds'
      cases res with
      | error e =>
          right
          have refused : ¬Grants sv (c.asked + 1) (roundPages size - roundPages f.fSize) :=
            fun all => by cases iff.mpr all
          refine ⟨fun all => refused all.2, e, rfl, ?_,
            fun same => absurd (none_asked same) refused⟩
          rw [(fsipcSetSize_spec ..).2.1, fds', fds, fds₀]
      | ok v => exact .inl ⟨⟨answer.symm, iff.mp rfl⟩, rfl⟩

/-! ## `ftruncate` -/

/-- The page number of page `j` of the window. -/
def windowPage (k : FdIx) (j : Nat) : Nat := ppn (fd2data k + BitVec.ofNat 32 (4096 * j))

/-- A failed call left the size in the descriptor, that of the server's file, and the
pages in the window as they were. -/
def Atomic (c : Client) (k : FdIx) (fileid : Word) (res : Except FileErr Unit × Client) : Prop :=
  ∀ e, res.1 = .error e →
    (res.2.fds k).map Filefd.fSize = (c.fds k).map Filefd.fSize ∧
      res.2.fsSize fileid = c.fsSize fileid ∧
      ∀ j < 1024, res.2.pages (windowPage k j) = c.pages (windowPage k j)

/-- `ftruncate` of an open descriptor undoes nothing: it is atomic exactly if it is
refused before the first request, does not change the size, or gets all it asks for. -/
theorem ftruncate_atomic_iff (sv : FileServer) (c : Client) (k : FdIx) (size : Word)
    (opened : c.fds k = some f) :
    Atomic c k f.fFileid (ftruncate sv c k size) ↔
      maxFileSize < size.toNat ∨ f.fdDevId ≠ devfileId ∨ size = f.fSize ∨
        GrantsResize sv c.asked f.fSize size := by
  have unchanged : ∀ e : FileErr, Atomic c k f.fFileid (.error e, c) :=
    fun e _ _ => ⟨rfl, rfl, fun _ _ => rfl⟩
  unfold ftruncate
  by_cases large : maxFileSize < size.toNat
  · rw [if_pos large]
    exact iff_of_true (unchanged .noDisk) (.inl large)
  rw [if_neg large, opened]
  by_cases other : f.fdDevId ≠ devfileId
  · simp only [if_pos other]
    exact iff_of_true (unchanged .inval) (.inr (.inl other))
  simp only [if_neg other]
  obtain ⟨granted, ok⟩ | ⟨refused, e, failed, fds, same⟩ := truncateFd_spec sv c k f size
  · refine iff_of_true ?_ (.inr (.inr (.inr granted)))
    intro e no
    rw [ok] at no
    cases no
  · constructor
    · intro atomic
      have old := (atomic e failed).1
      rw [fds, opened] at old
      exact .inr (.inr (.inl (Option.some.inj old)))
    · intro safe e' _
      obtain no | no | eq | no := safe
      · exact absurd no large
      · exact absurd no other
      · obtain ⟨sizes, pages⟩ := same eq
        refine ⟨?_, by rw [sizes], fun j _ => by rw [pages]⟩
        rw [fds, opened, eq]
      · exact absurd no refused

/-- A file of no bytes, open as every descriptor. -/
def emptyFile : Filefd := ⟨devfileId, 0, 2, 1024, 0⟩

def emptyClient : Client where
  mem := fun _ => 0
  fds := fun _ => some emptyFile
  pages := fun _ => false
  fsSize := fun _ => 0
  asked := 0

/-- A server that refuses every request. -/
def refusing : FileServer where
  reply := fun _ => .error (.server 3)
  block := fun _ _ _ => 0
  opened := fun _ => emptyFile

/-- A file of three bytes, open as descriptor 3 with its page in the window. -/
def shortFile : Filefd := ⟨devfileId, 0, 2, 1024, 3⟩

def shortClient : Client where
  mem := fun a => if a = 0x60c00000 then 0x61 else if a = 0x60c00001 then 0x62 else
    if a = 0x60c00002 then 0x63 else 0
  fds := fun k => if k = 3 then some shortFile else none
  pages := fun i => i = windowPage 3 0
  fsSize := fun fileid => if fileid = 1024 then 3 else 0
  asked := 0

/-- A server that grants the first `n` requests. -/
def granting (n : Nat) : FileServer where
  reply := fun i => if i < n then .ok () else .error (.server 3)
  block := fun _ _ _ => 0
  opened := fun _ => shortFile

/-- The new page of the file can be mapped or not. -/
theorem ftruncate_atomic_iff_short :
    Atomic shortClient 3 1024 (ftruncate (granting 2) shortClient 3 5000) ∧
      ¬Atomic shortClient 3 1024 (ftruncate (granting 1) shortClient 3 5000) := by
  constructor
  · apply (ftruncate_atomic_iff (f := shortFile) (granting 2) shortClient 3 5000 rfl).mpr
    exact .inr (.inr (.inr fun t two => if_pos ((Nat.zero_add t).symm ▸ two)))
  · intro atomic
    rcases (ftruncate_atomic_iff (f := shortFile) (granting 1) shortClient 3 5000 rfl).mp atomic
      with large | other | same | grants
    · exact absurd large (by decide)
    · exact absurd rfl other
    · exact absurd same (by decide)
    · cases grants 1 (by decide)

/-- The descriptor says 5000 bytes after the request was refused. -/
theorem ftruncate_not_atomic :
    ¬Atomic emptyClient 3 1024 (ftruncate refusing emptyClient 3 5000) := by
  intro atomic
  have sizes := (atomic (.server 3) rfl).1
  exact absurd sizes (by decide)

/-! ## `file_read` and `file_write` -/

/-- The `n` bytes at `src` are stored at `dst`, and nothing else is changed. -/
structure Stores (mem mem' : Memory) (dst src n : Word) : Prop where
  outside : ∀ x, n.toNat ≤ (x - dst).toNat → mem' x = mem x
  inside : Apart dst src n.toNat → dst.toNat + n.toNat < 2 ^ 32 →
    ∀ j < n.toNat, mem' (dst + BitVec.ofNat 32 j) = mem (src + BitVec.ofNat 32 j)

theorem stores_memcpy (mem : Memory) (dst src n : Word) :
    Stores mem (memcpy mem dst src n) dst src n := by
  constructor
  · intro x away
    apply Dev.memcpy_outside
    have low := x.isLt
    have high := dst.isLt
    have count := n.isLt
    rw [BitVec.toNat_sub] at away
    rw [BitVec.toNat_add]
    omega
  · intro apart below j hj
    have count := n.isLt
    have offset : (dst + BitVec.ofNat 32 j - dst).toNat = j := by
      rw [add_sub_cancel_left, BitVec.toNat_ofNat, Nat.mod_eq_of_lt (by omega)]
    rw [Dev.memcpy_copied apart below, offset, if_pos hj, add_sub_cancel_left]

/-- `file_read` returns how many of `n` bytes there are from `offset` on, and copies
these. -/
def ReadExact (c : Client) (k : FdIx) (f : Filefd) (buf n offset : Word) : Prop :=
  if f.fSize.toNat < offset.toNat then fileRead c k f buf n offset = (0, c.mem)
  else
    (fileRead c k f buf n offset).1.toNat = min n.toNat (f.fSize.toNat - offset.toNat) ∧
      Stores c.mem (fileRead c k f buf n offset).2 buf (fd2data k + offset)
        (fileRead c k f buf n offset).1

/-- `file_write` refuses what does not fit in a file, and stores the rest in the part
of the window it is meant for, in the state that growing the file left. -/
def WriteExact (sv : FileServer) (c : Client) (k : FdIx) (f : Filefd) (buf n offset : Word) :
    Prop :=
  if maxFileSize < offset.toNat + n.toNat then
    fileWrite sv c k f buf n offset = (.error .noDisk, c)
  else
    (fileWrite sv c k f buf n offset).1 = .ok n ∧
      ∃ c₁ mem, grow sv c k f (offset + n) = (.ok (), c₁) ∧
        (fileWrite sv c k f buf n offset).2 = { c₁ with mem := mem } ∧
        Stores c₁.mem mem (fd2data k + offset) buf n

theorem readExact_iff (c : Client) (k : FdIx) (f : Filefd) (buf n offset : Word) :
    ReadExact c k f buf n offset ↔
      f.fSize.toNat < offset.toNat ∨ offset.toNat + n.toNat < 2 ^ 32 := by
  have high := f.fSize.isLt
  have low := n.isLt
  have place := offset.isLt
  unfold ReadExact
  by_cases beyond : f.fSize.toNat < offset.toNat
  · rw [if_pos beyond]
    refine iff_of_true ?_ (.inl beyond)
    simp only [fileRead, BitVec.lt_def, if_pos beyond]
  · rw [if_neg beyond, or_iff_right beyond]
    simp only [fileRead, BitVec.lt_def, if_neg beyond]
    rw [and_iff_left (stores_memcpy ..)]
    by_cases clamp : f.fSize.toNat < (offset + n).toNat
    · rw [if_pos clamp]
      rw [BitVec.toNat_add] at clamp
      rw [BitVec.toNat_sub]
      omega
    · rw [if_neg clamp]
      rw [BitVec.toNat_add] at clamp
      omega

/-- What makes a write exact: a sum that is not too large in 32 bits either, or room
in the file, or in the server. -/
def WriteSafe (sv : FileServer) (c : Client) (f : Filefd) (n offset : Word) : Prop :=
  if maxFileSize < offset.toNat + n.toNat then maxFileSize < (offset + n).toNat
  else offset.toNat + n.toNat ≤ f.fSize.toNat ∨ GrantsResize sv c.asked f.fSize (offset + n)

/-- Making an open file longer, within the limit. -/
theorem grow_spec (sv : FileServer) (opened : c.fds k = some f) (file : f.fdDevId = devfileId)
    {tot : Word} (small : ¬maxFileSize < tot.toNat) :
    (tot.toNat ≤ f.fSize.toNat ∧ grow sv c k f tot = (.ok (), c)) ∨
      (f.fSize.toNat < tot.toNat ∧
        ((GrantsResize sv c.asked f.fSize tot ∧ (grow sv c k f tot).1 = .ok ()) ∨
          (¬GrantsResize sv c.asked f.fSize tot ∧ ∃ e, (grow sv c k f tot).1 = .error e ∧
            (grow sv c k f tot).2 ≠ c))) := by
  by_cases long : f.fSize.toNat < tot.toNat
  · right
    refine ⟨long, ?_⟩
    have known : f.fdDevId = devfileId := file
    simp only [grow, BitVec.lt_def, if_pos long, ftruncate, if_neg small, opened, ne_eq, known,
      not_true_eq_false, if_false]
    obtain ⟨granted, ok⟩ | ⟨refused, e, failed, fds, -⟩ := truncateFd_spec sv c k f tot
    · exact .inl ⟨granted, ok⟩
    · refine .inr ⟨refused, e, failed, ?_⟩
      intro same
      rw [same, opened] at fds
      have sizes := congrArg Filefd.fSize (Option.some.inj fds)
      have longer := congrArg BitVec.toNat sizes
      change f.fSize.toNat = tot.toNat at longer
      omega
  · left
    refine ⟨by omega, ?_⟩
    simp only [grow, BitVec.lt_def, if_neg long]

theorem writeExact_iff (sv : FileServer) (buf n offset : Word) (opened : c.fds k = some f)
    (file : f.fdDevId = devfileId) :
    WriteExact sv c k f buf n offset ↔ WriteSafe sv c f n offset := by
  unfold WriteExact WriteSafe
  have sum : (offset + n).toNat = (offset.toNat + n.toNat) % 2 ^ 32 := BitVec.toNat_add ..
  by_cases large : maxFileSize < (offset + n).toNat
  · have exceeds : maxFileSize < offset.toNat + n.toNat := by
      have := Nat.mod_le (offset.toNat + n.toNat) (2 ^ 32)
      omega
    rw [if_pos exceeds, if_pos exceeds]
    refine iff_of_true ?_ large
    simp only [fileWrite, if_pos large]
  have grown := grow_spec sv opened file large
  have written : fileWrite sv c k f buf n offset =
      match grow sv c k f (offset + n) with
      | (.error e, c) => (.error e, c)
      | (.ok _, c) => (.ok n, { c with mem := memcpy c.mem (fd2data k + offset) buf n }) := by
    simp only [fileWrite, if_neg large]
  rw [written]
  generalize grow sv c k f (offset + n) = r at *
  obtain ⟨res, c₁⟩ := r
  by_cases exceeds : maxFileSize < offset.toNat + n.toNat
  · rw [if_pos exceeds, if_pos exceeds]
    refine iff_of_false ?_ large
    intro eq
    cases res with
    | ok u =>
        have first := congrArg Prod.fst eq
        cases first
    | error e =>
        have second := congrArg Prod.snd eq
        obtain ⟨-, ok⟩ | ⟨-, ⟨-, ok⟩ | ⟨-, e', -, changed⟩⟩ := grown
        · cases ok
        · cases ok
        · exact changed second
  · rw [if_neg exceeds, if_neg exceeds]
    have exact_sum : (offset + n).toNat = offset.toNat + n.toNat := by
      unfold maxFileSize at exceeds
      omega
    rw [exact_sum] at grown
    cases res with
    | ok u =>
        refine iff_of_true ⟨rfl, c₁, _, rfl, rfl, stores_memcpy ..⟩ ?_
        obtain ⟨short, -⟩ | ⟨-, ⟨granted, -⟩ | ⟨-, e', no, -⟩⟩ := grown
        · exact .inl short
        · exact .inr granted
        · cases no
    | error e =>
        refine iff_of_false (fun no => by cases no.1) ?_
        obtain ⟨-, no⟩ | ⟨long, ⟨-, no⟩ | ⟨refused, -⟩⟩ := grown
        · cases no
        · cases no
        · intro safe
          obtain short | granted := safe
          · omega
          · exact refused granted

/-- Reads and writes stay inside the file exactly if the sum of offset and count is
one in 32 bits as well, as far as the code looks at it. -/
theorem file_io_iff (sv : FileServer) (buf n offset : Word) (opened : c.fds k = some f)
    (file : f.fdDevId = devfileId) :
    (ReadExact c k f buf n offset ↔
        f.fSize.toNat < offset.toNat ∨ offset.toNat + n.toNat < 2 ^ 32) ∧
      (WriteExact sv c k f buf n offset ↔ WriteSafe sv c f n offset) :=
  ⟨readExact_iff c k f buf n offset, writeExact_iff sv buf n offset opened file⟩

/-- 16 bytes from offset 1 on: two are read, and a write makes the file longer. -/
theorem file_io_iff_short :
    (ReadExact shortClient 3 shortFile 0x500000 16 1 ∧
      (fileRead shortClient 3 shortFile 0x500000 16 1).1 = 2) ∧
    WriteExact (granting 1) shortClient 3 shortFile 0x500000 16 1 := by
  have exact_io := @file_io_iff shortClient 3 shortFile (granting 1) 0x500000 16 1 rfl rfl
  refine ⟨⟨exact_io.1.mpr (.inr (by decide)), by decide⟩, exact_io.2.mpr ?_⟩
  rw [WriteSafe, if_neg (by decide)]
  exact .inr fun t one => if_pos ((Nat.zero_add t).symm ▸ one)

/-- A write of 32 bytes at offset -16: the sum is 16 in 32 bits, and would fit in a
file of 16 bytes. -/
theorem file_io_not_inside :
    ¬∀ (sv : FileServer) (c : Client) (k : FdIx) (f : Filefd) (buf n offset : Word),
      c.fds k = some f → f.fdDevId = devfileId →
        ReadExact c k f buf n offset ∧ WriteExact sv c k f buf n offset := by
  intro all
  let file : Filefd := { emptyFile with fSize := 16 }
  have exact_io := all refusing { emptyClient with fds := fun _ => some file } 3 file 0x500000
    32 0xfffffff0 rfl rfl
  have safe := (writeExact_iff refusing _ _ _ rfl rfl).mp exact_io.2
  rw [WriteSafe, if_pos (by decide)] at safe
  exact absurd safe (by decide)

/-! ## `open` -/

/-- `fd_alloc`: the last descriptor is never looked at. -/
def fdAlloc (c : Client) : Option FdIx :=
  (List.finRange 32).find? fun k => k.val < 31 ∧ (c.fds k).isNone

/-- `fsipc_open`, for a path of `len` characters. -/
def fsipcOpen (sv : FileServer) (c : Client) (len : Nat) (k : FdIx) :
    Except FileErr Unit × Client :=
  if MAXPATHLEN ≤ len then (.error .badPath, c)
  else
    let asked := { c with asked := c.asked + 1 }
    match sv.reply c.asked with
    | .error e => (.error e, asked)
    | .ok _ => (.ok (), asked.setFd k (some (sv.opened c.asked)))

/-- The loop of `open`. -/
def openLoop (sv : FileServer) (c : Client) (fileid va size i : Word) :
    Nat → Option (Except FileErr Unit × Client)
  | 0 => none
  | fuel + 1 =>
      if i < size then
        match fsipcMap sv c fileid i (va + i) with
        | (.error e, c) => some (.error e, c)
        | (.ok _, c) => openLoop sv c fileid va size (i + 4096) fuel
      else some (.ok (), c)

/-- `open(path, mode)`: the descriptor number, or the error. -/
def openFile (sv : FileServer) (c : Client) (len fuel : Nat) :
    Option (Except FileErr Nat × Client) :=
  match fdAlloc c with
  | none => some (.error .maxOpen, c)
  | some k =>
      match fsipcOpen sv c len k with
      | (.error e, c) => some (.error e, c)
      | (.ok _, c₁) =>
          let f := sv.opened c.asked
          match openLoop sv c₁ f.fFileid (fd2data k) f.fSize 0 fuel with
          | none => none
          -- `return 0`
          | some (.error _, c₂) => some (.ok 0, c₂)
          | some (.ok _, c₂) => some (.ok k.val, c₂)

/-- The pages of a file of this size. -/
def pageCount (size : Word) : Nat := (size.toNat + 4095) / 4096

/-- Page `t` of the file is mapped at its place in the window at `va`. -/
structure ShowsPage (sv : FileServer) (c : Client) (va fileid : Word) (t : Nat) : Prop where
  mapped : c.pages (ppn (va + BitVec.ofNat 32 (4096 * t))) = true
  bytes : ∀ b < 4096, c.mem (va + BitVec.ofNat 32 (4096 * t + b)) =
    sv.block fileid (BitVec.ofNat 32 (4096 * t)) b

/-- A descriptor is free, the server opens the file, which fits in a window, and it
grants all its pages. -/
def CanOpen (sv : FileServer) (c : Client) (len : Nat) : Prop :=
  (fdAlloc c).isSome ∧ len < MAXPATHLEN ∧ (sv.opened c.asked).fSize.toNat ≤ maxFileSize ∧
    Grants sv c.asked (1 + pageCount (sv.opened c.asked).fSize)

/-- `open` returns, with a number only if this descriptor was free and now has the whole
file, and with an error if it cannot do that; the descriptor it chose is free then. -/
def OpensTruthfully (sv : FileServer) (c : Client) (len : Nat) : Prop :=
  ∃ fuel res c', openFile sv c len fuel = some (res, c') ∧
    (∀ r, res = .ok r → ∃ k f, k.val = r ∧ c.fds k = none ∧ c'.fds k = some f ∧
      ∀ t < pageCount f.fSize, ShowsPage sv c' (fd2data k) f.fFileid t) ∧
    (¬CanOpen sv c len →
      (∃ e, res = .error e) ∧ ∀ k, fdAlloc c = some k → c'.fds k = none)

theorem fdAlloc_free (alloc : fdAlloc c = some k) : c.fds k = none := by
  have found := List.find?_some alloc
  simp only [decide_eq_true_eq] at found
  exact Option.isNone_iff_eq_none.mp found.2

theorem page_apart (va : Word) {t i b : Nat} (ht : t ≤ 1024) (hi : i ≤ 1024) (hb : b < 4096)
    (ne : t ≠ i) :
    ¬(va + BitVec.ofNat 32 (4096 * t + b) - (va + BitVec.ofNat 32 (4096 * i))).toNat < 4096 := by
  rw [add_sub_add_left_eq_sub, BitVec.toNat_sub, BitVec.toNat_ofNat, BitVec.toNat_ofNat]
  omega

theorem page_here (va : Word) (i : Nat) {b : Nat} (hb : b < 4096) :
    (va + BitVec.ofNat 32 (4096 * i + b) - (va + BitVec.ofNat 32 (4096 * i))).toNat = b := by
  rw [add_sub_add_left_eq_sub, BitVec.toNat_sub, BitVec.toNat_ofNat, BitVec.toNat_ofNat]
  omega

/-- A page request that was granted. -/
theorem fsipcMap_ok (granted : sv.reply c.asked = .ok ()) (fileid va : Word) (hi : i ≤ 1024) :
    ∃ c', fsipcMap sv c fileid (BitVec.ofNat 32 (4096 * i)) (va + BitVec.ofNat 32 (4096 * i)) =
        (.ok (), c') ∧ c'.fds = c.fds ∧ c'.asked = c.asked + 1 ∧ ShowsPage sv c' va fileid i ∧
        ∀ t ≤ 1024, ShowsPage sv c va fileid t → ShowsPage sv c' va fileid t := by
  simp only [fsipcMap, granted]
  refine ⟨_, rfl, rfl, rfl, ⟨Function.update_self .., ?_⟩, ?_⟩
  · intro b hb
    have here := page_here va i hb
    simp only [here, if_pos hb]
  · intro t ht shows
    refine ⟨?_, ?_⟩
    · by_cases same : ppn (va + BitVec.ofNat 32 (4096 * t)) = ppn (va + BitVec.ofNat 32 (4096 * i))
      · rw [same]
        exact Function.update_self ..
      · exact (Function.update_of_ne same ..).trans shows.mapped
    · intro b hb
      by_cases same : t = i
      · subst same
        have here := page_here va t hb
        simp only [here, if_pos hb]
      · have apart := page_apart va ht hi hb same
        simp only [if_neg apart]
        exact shows.bytes b hb

/-- The loop, with `m` pages to go, all of them granted. -/
theorem openLoop_ok (fileid va : Word) (limit : size.toNat ≤ maxFileSize)
    (rest : pageCount size = i + m) (granted : Grants sv c.asked m)
    (before : ∀ t < i, ShowsPage sv c va fileid t) {fuel : Nat} (enough : m < fuel) :
    ∃ c', openLoop sv c fileid va size (BitVec.ofNat 32 (4096 * i)) fuel = some (.ok (), c') ∧
      c'.fds = c.fds ∧ ∀ t < pageCount size, ShowsPage sv c' va fileid t := by
  unfold maxFileSize at limit
  unfold pageCount at rest
  have offset : (BitVec.ofNat 32 (4096 * i)).toNat = 4096 * i := by
    rw [BitVec.toNat_ofNat]
    omega
  induction fuel generalizing c i m with
  | zero => omega
  | succ fuel ih =>
      cases m with
      | zero =>
          refine ⟨c, ?_, rfl, fun t ht => before t ?_⟩
          · rw [openLoop, if_neg]
            rw [BitVec.lt_def, offset]
            omega
          · unfold pageCount at ht
            omega
      | succ m =>
          obtain ⟨first, others⟩ := grants_succ.mp granted
          obtain ⟨c₁, mapped, fds, asked, shows, kept⟩ :=
            fsipcMap_ok first fileid va (show i ≤ 1024 by omega)
          have next : BitVec.ofNat 32 (4096 * i) + 4096 = BitVec.ofNat 32 (4096 * (i + 1)) := by
            rw [Nat.mul_succ, BitVec.ofNat_add]
            rfl
          have below : BitVec.ofNat 32 (4096 * i) < size := by
            rw [BitVec.lt_def, offset]
            omega
          rw [← asked] at others
          obtain ⟨c', run, fds', all⟩ := ih (i := i + 1) (by omega) others
            (fun t ht => by
              obtain rfl | lt := Nat.eq_or_lt_of_le (Nat.le_of_lt_succ ht)
              · exact shows
              · exact kept t (by omega) (before t lt))
            (by omega) (by rw [BitVec.toNat_ofNat]; omega)
          refine ⟨c', ?_, fds'.trans fds, all⟩
          rw [openLoop, if_pos below, mapped, next]
          exact run

/-- Once the server has opened the file, `open` returns no error any more. -/
theorem openFile_ok (alloc : fdAlloc c = some k) {len fuel : Nat} (short : ¬MAXPATHLEN ≤ len)
    (granted : sv.reply c.asked = .ok ()) {res : Except FileErr Nat}
    (run : openFile sv c len fuel = some (res, c')) : ∃ r, res = .ok r := by
  simp only [openFile, alloc, fsipcOpen, if_neg short, granted] at run
  split at run
  · cases run
  · cases run
    exact ⟨0, rfl⟩
  · cases run
    exact ⟨k.val, rfl⟩

/-- A request to open that fails, and leaves the descriptor free, is reported. -/
theorem open_truthful_of_error (alloc : fdAlloc c = some k) {len : Nat} {e : FileErr}
    (run : fsipcOpen sv c len k = (.error e, c')) (still : c'.fds k = none) :
    OpensTruthfully sv c len := by
  refine ⟨0, .error e, c', ?_, ?_, ?_⟩
  · rw [openFile, alloc]
    simp only [run]
  · intro r no
    cases no
  · refine fun _ => ⟨⟨e, rfl⟩, ?_⟩
    rw [alloc]
    intro j same
    cases same
    exact still

/-- Once the server has opened the file, it is its size and the other requests that count. -/
theorem canOpen_iff (alloc : fdAlloc c = some k) {len : Nat} (short : ¬MAXPATHLEN ≤ len)
    (granted : sv.reply c.asked = .ok ()) :
    CanOpen sv c len ↔ (sv.opened c.asked).fSize.toNat ≤ maxFileSize ∧
      Grants sv (c.asked + 1) (pageCount (sv.opened c.asked).fSize) := by
  rw [CanOpen, alloc, Nat.add_comm 1, grants_succ]
  simp only [Option.isSome_some, true_and, Nat.not_le.mp short, granted]

/-- A file that can be opened is opened, and shown page by page. -/
theorem open_truthful_of_canOpen (alloc : fdAlloc c = some k) {len : Nat}
    (short : ¬MAXPATHLEN ≤ len) (granted : sv.reply c.asked = .ok ()) (can : CanOpen sv c len) :
    OpensTruthfully sv c len := by
  obtain ⟨limit, pages⟩ := (canOpen_iff alloc short granted).mp can
  generalize file : sv.opened c.asked = f at limit pages
  let c₁ := ({ c with asked := c.asked + 1 } : Client).setFd k (some f)
  have fds₁ : c₁.fds k = some f := Function.update_self ..
  have opened : fsipcOpen sv c len k = (.ok (), c₁) := by
    simp only [fsipcOpen, if_neg short, granted, file]
    rfl
  obtain ⟨c', looped, fds, shows⟩ := openLoop_ok (c := c₁) (i := 0) f.fFileid (fd2data k) limit
    (Nat.zero_add _).symm pages (fun t ht => absurd ht (Nat.not_lt_zero t)) (Nat.lt_succ_self _)
  refine ⟨(pageCount f.fSize).succ, .ok k.val, c', ?_, ?_, fun no => absurd can no⟩
  · simp only [openFile, alloc, opened, file]
    rw [show (0 : Word) = BitVec.ofNat 32 (4096 * 0) from rfl, looped]
  · intro r same
    cases same
    exact ⟨k, f, rfl, fdAlloc_free alloc, (congrFun fds k).trans fds₁, shows⟩

/-- Once the server has opened the file, `open` is only truthful if it can be opened. -/
theorem canOpen_of_truthful (alloc : fdAlloc c = some k) {len : Nat}
    (short : ¬MAXPATHLEN ≤ len) (granted : sv.reply c.asked = .ok ())
    (truthful : OpensTruthfully sv c len) : CanOpen sv c len := by
  by_contra cannot
  obtain ⟨fuel, res, c', ran, -, fails⟩ := truthful
  obtain ⟨e, failed⟩ := (fails cannot).1
  obtain ⟨r, ok⟩ := openFile_ok alloc short granted ran
  rw [ok] at failed
  cases failed

/-- The outcome of `open` is truthful exactly if there is no free descriptor, the
path or the request to open is refused, or no request to map a page is. -/
theorem open_truthful_iff (sv : FileServer) (c : Client) (len : Nat) :
    OpensTruthfully sv c len ↔
      fdAlloc c = none ∨ MAXPATHLEN ≤ len ∨ sv.reply c.asked ≠ .ok () ∨
        (sv.opened c.asked).fSize.toNat ≤ maxFileSize ∧
          Grants sv (c.asked + 1) (pageCount (sv.opened c.asked).fSize) := by
  cases alloc : fdAlloc c with
  | none =>
      refine iff_of_true ⟨0, .error .maxOpen, c, ?_, ?_, ?_⟩ (.inl rfl)
      · rw [openFile, alloc]
      · intro r no
        cases no
      · refine fun _ => ⟨⟨_, rfl⟩, ?_⟩
        rw [alloc]
        intro k no
        cases no
  | some k =>
      have free := fdAlloc_free alloc
      by_cases long : MAXPATHLEN ≤ len
      · exact iff_of_true (open_truthful_of_error alloc (if_pos long) free) (.inr (.inl long))
      cases answer : sv.reply c.asked with
      | error e =>
          have run : fsipcOpen sv c len k = (.error e, { c with asked := c.asked + 1 }) := by
            simp only [fsipcOpen, if_neg long, answer]
          exact iff_of_true (open_truthful_of_error alloc run free)
            (.inr (.inr (.inl fun no => by cases no)))
      | ok u =>
          have can := canOpen_iff alloc long answer
          constructor
          · intro truthful
            exact .inr (.inr (.inr (can.mp (canOpen_of_truthful alloc long answer truthful))))
          · intro safe
            obtain no | no | no | whole := safe
            · cases no
            · exact absurd no long
            · exact absurd rfl no
            · exact open_truthful_of_canOpen alloc long answer (can.mpr whole)

/-- No descriptor in use. -/
def idleClient : Client := { emptyClient with fds := fun _ => none }

/-- A server that opens a file of one page, and refuses to map it. -/
def openOnly : FileServer where
  reply := fun n => if n = 0 then .ok () else .error .noDisk
  block := fun _ _ _ => 0
  opened := fun _ => { emptyFile with fSize := 1 }

/-- `open` returns 0 for a file whose page could not be mapped. -/
theorem open_not_truthful : ¬OpensTruthfully openOnly idleClient 4 := by
  intro truthful
  obtain ⟨fuel, res, c', run, -, fails⟩ := truthful
  have alloc : fdAlloc idleClient = some 0 := by decide
  obtain ⟨r, ok⟩ := openFile_ok alloc (by decide) rfl run
  have cannot : ¬CanOpen openOnly idleClient 4 := by
    intro can
    cases can.2.2.2 1 (by decide)
  obtain ⟨e, failed⟩ := (fails cannot).1
  rw [ok] at failed
  cases failed

end Client

end Mos
