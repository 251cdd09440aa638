import Mos.FileIo
import Mos.PipeRefs

/-!
# `close` and `dup`

`close` and `dup` of `user/lib/fd.c` with the `close` of all three devices, in one
address space. What a descriptor refers to is the page its `Fd` is on and the pages
in its window; `dup` closes the new number first and then maps what the old one has.
-/

namespace Mos

/-- Some bytes from an address on. -/
structure Access where
  va : Word
  len : Nat

/-- The pages of a process with the permission bits of their entries, by virtual page
number, and what each page holds when it is read as a `struct Filefd`. -/
structure Space where
  pte : Nat → Option (Nat × Word)
  fd : Nat → Filefd
  /-- What was read, written, mapped or unmapped, apart from the page tables, the own data
  of the library and the buffer of the caller. -/
  touched : List Access

/-- `devcons.dev_id`, `'c'` -/
def devconsId : Word := 0x63

/-- `devpipe.dev_id`, `'p'` -/
def devpipeId : Word := 0x70

/-- `PTE_D | PTE_LIBRARY` -/
def sharedBits : Word := pteD ||| pteLibrary

namespace Space

def touch (x : Space) (va : Word) (len : Nat) : Space :=
  { x with touched := ⟨va, len⟩ :: x.touched }

/-- `syscall_mem_unmap(0, va)`; an error changes nothing. -/
def memUnmap (x : Space) (va : Word) : Space :=
  if isIllegalVa va then x
  else { x.touch va 4096 with pte := Function.update x.pte (ppn va) none }

/-- `syscall_mem_map(0, srcva, 0, dstva, perm)`, with memory for page tables. -/
def memMap (x : Space) (srcva dstva perm : Word) : Option Space :=
  if isIllegalVa srcva ∨ isIllegalVa dstva then none
  else
    match x.pte (ppn srcva) with
    | none => none
    | some page =>
        some { (x.touch srcva 4096).touch dstva 4096 with
          pte := Function.update x.pte (ppn dstva) (some (page.1, perm ||| pteV)) }

/-- The `Fd` at `va`. -/
def fdAt (x : Space) (va : Word) : Option Filefd := (x.pte (ppn va)).map fun page => x.fd page.1

/-- `fd_lookup`; the number is an int. -/
def fdLookup (x : Space) (fdnum : Word) : Option Word :=
  if (maxfd : Int) ≤ fdnum.toInt then none
  else if (x.pte (ppn (index2fd fdnum))).isSome then some (index2fd fdnum) else none

/-- `fd2num` -/
def fd2num (fd : Word) : Word := (fd - fdtable) >>> 12

/-- `fd2data` -/
def fd2data (fd : Word) : Word := index2data (fd2num fd)

/-- The loop that unmaps the window: `m` pages from page `i` on. -/
def unmapWindow (x : Space) (va : Word) (i : Nat) : Nat → Except FileErr Unit × Space
  | 0 => (.ok (), x)
  | m + 1 =>
      let a := va + BitVec.ofNat 32 (i * 4096)
      if isIllegalVa a then (.error .inval, x)
      else unmapWindow (x.memUnmap a) va (i + 1) m

/-- `file_close`, if the server answers to `FSREQ_CLOSE` as `granted` says. Before that
it is told about every page; that loop does not end if the size is so large that the
counter of the loop wraps before it gets there. -/
def fileClose (x : Space) (fd : Word) (f : Filefd) (granted : Bool) :
    Option (Except FileErr Unit × Space) :=
  if 0xfffff000 < f.fSize.toNat then none
  else if granted then some (unmapWindow x (fd2data fd) 0 (Client.pageCount f.fSize))
  else some (.error (.server 3), x)

/-- `pipe_close` -/
def pipeClose (x : Space) (fd : Word) : Space := (x.memUnmap fd).memUnmap (fd2data fd)

/-- `close`; nothing if it does not return. -/
def close (x : Space) (fdnum : Word) (granted : Bool) : Option (Except FileErr Unit × Space) :=
  match x.fdLookup fdnum with
  | none => some (.error .inval, x)
  | some fd =>
      match x.fdAt fd with
      | none => some (.error .inval, x)
      | some f =>
          let x := x.touch fd 4096
          if f.fdDevId = devfileId then
            match x.fileClose fd f granted with
            | none => none
            | some closed => some (closed.1, closed.2.memUnmap fd)
          else if f.fdDevId = devconsId then some (.ok (), x.memUnmap fd)
          else if f.fdDevId = devpipeId then some (.ok (), (x.pipeClose fd).memUnmap fd)
          else some (.error .inval, x)

/-- The loop of `dup`: `m` pages from page `j` on, up to the first error. -/
def dupPages (x : Space) (ova nva : Word) (j : Nat) : Nat → Bool × Space
  | 0 => (true, x)
  | m + 1 =>
      let offset := BitVec.ofNat 32 (j * 4096)
      match x.pte (ppn (ova + offset)) with
      | none => dupPages x ova nva (j + 1) m
      | some page =>
          match x.memMap (ova + offset) (nva + offset) (page.2 &&& sharedBits) with
          | none => (false, x)
          | some x => dupPages x ova nva (j + 1) m

/-- What `dup` does after an error: `m` pages from page `j` on are unmapped. -/
def undupPages (x : Space) (nva : Word) (j : Nat) : Nat → Space
  | 0 => x
  | m + 1 => undupPages (x.memUnmap (nva + BitVec.ofNat 32 (j * 4096))) nva (j + 1) m

/-- `dup` -/
def dup (x : Space) (oldfdnum newfdnum : Word) (granted : Bool) :
    Option (Except FileErr Word × Space) :=
  match x.fdLookup oldfdnum with
  | none => some (.error .inval, x)
  | some oldfd =>
      match x.close newfdnum granted with
      | none => none
      | some closed =>
          let newfd := index2fd newfdnum
          let nva := fd2data newfd
          let mapped := closed.2.dupPages (fd2data oldfd) nva 0 1024
          let failed := undupPages (mapped.2.memUnmap newfd) nva 0 1024
          if mapped.1 then
            match mapped.2.pte (ppn oldfd) with
            | none => some (.error .inval, failed)
            | some page =>
                match mapped.2.memMap oldfd newfd (page.2 &&& sharedBits) with
                | none => some (.error .inval, failed)
                | some x => some (.ok newfdnum, x)
          else some (.error .inval, failed)

/-! ## What they should do -/

/-- The page mapped at `v`, and which of the bits that `dup` passes on are set. -/
def shared (x : Space) (v : Nat) : Option (Nat × Word) :=
  (x.pte v).map fun page => (page.1, page.2 &&& sharedBits)

/-- The descriptor is open: its `Fd` is mapped and names a device. -/
def IsOpen (x : Space) (n : Word) : Prop :=
  ∃ f, x.fdAt (index2fd n) = some f ∧ f.fdDevId ∈ [devfileId, devconsId, devpipeId]

/-- What `dup` maps of a page. -/
def passed (page : Nat × Word) : Nat × Word := (page.1, page.2 &&& sharedBits ||| pteV)

/-- `old` and `new` stand for the same, and no other descriptor has changed. -/
structure Shares (x x' : Space) (old new : Word) : Prop where
  opened : (x'.pte (fdPg old)).isSome
  fd : x'.shared (fdPg new) = x'.shared (fdPg old)
  data : ∀ j < 1024, x'.shared (dataPg new j) = x'.shared (dataPg old j)
  others : ∀ d, IsSlot d → d ≠ new → x'.pte (fdPg d) = x.pte (fdPg d) ∧
    ∀ j < 1024, x'.pte (dataPg d j) = x.pte (dataPg d j)

/-- `dup` returns the new number, which then shares what the old one has. -/
def DupShares (x : Space) (old new : Word) (granted : Bool) : Prop :=
  ∃ x', x.dup old new granted = some (.ok new, x') ∧ Shares x x' old new

/-- Page `v` is one that closing descriptor `n` unmaps, apart from its `Fd`: the pages
that a file has by its size, if the server answers, up to the end of the address space;
the first page of the window of a pipe. -/
def Closes (x : Space) (n : Word) (granted : Bool) (v : Nat) : Prop :=
  ∃ f, x.fdAt (index2fd n) = some f ∧
    (f.fdDevId = devfileId ∧ granted = true ∧ dataPg n 0 ≤ v ∧
        v < dataPg n 0 + Client.pageCount f.fSize ∧ v < 0x7f400 ∨
      f.fdDevId = devpipeId ∧ v = dataPg n 0)

/-- Closing descriptor `n` comes to an end. -/
def CloseEnds (x : Space) (n : Word) : Prop :=
  ∀ f, x.fdAt (index2fd n) = some f → f.fdDevId = devfileId → f.fSize.toNat ≤ 0xfffff000

/-- No page stays in the window of `new` where the one of `old` has none. -/
def NoneLeft (x : Space) (old new : Word) (granted : Bool) : Prop :=
  ∀ j < 1024, x.pte (dataPg new j) ≠ none →
    x.pte (dataPg old j) ≠ none ∨ Closes x new granted (dataPg new j)

/-- Closing `n` takes no page out of the window of another descriptor. -/
def NoneTaken (x : Space) (n : Word) (granted : Bool) : Prop :=
  ∀ d, IsSlot d → d ≠ n → ∀ j < 1024, Closes x n granted (dataPg d j) →
    x.pte (dataPg d j) = none

/-! ## `close` -/

variable {x x' : Space} {n old new va : Word} {granted : Bool} {i j m v : Nat} {f : Filefd}

theorem fdLookup_slot (slot : IsSlot n) :
    x.fdLookup n = if (x.pte (fdPg n)).isSome then some (index2fd n) else none := by
  have lt : n.toNat < 32 := slot
  have small : ¬(maxfd : Int) ≤ n.toInt := by
    rw [BitVec.toInt_eq_toNat_cond]
    unfold maxfd
    omega
  rw [fdLookup, if_neg small]
  rfl

theorem fd2num_toNat (fd : Word) :
    (fd2num fd).toNat = (2 ^ 32 - 0x5fc00000 + fd.toNat) % 2 ^ 32 / 2 ^ 12 := by
  rw [fd2num, BitVec.toNat_ushiftRight, BitVec.toNat_sub, fdtable_toNat,
    Nat.shiftRight_eq_div_pow]

theorem fd2num_index2fd (slot : IsSlot n) : fd2num (index2fd n) = n := by
  have lt : n.toNat < 32 := slot
  apply BitVec.eq_of_toNat_eq
  rw [fd2num_toNat, index2fd_toNat slot]
  omega

theorem fd2data_index2fd (slot : IsSlot n) : fd2data (index2fd n) = index2data n := by
  rw [fd2data, fd2num_index2fd slot]

theorem memUnmap_pte (legal : ¬isIllegalVa va) :
    (x.memUnmap va).pte = Function.update x.pte (ppn va) none := by
  rw [memUnmap, if_neg legal]

theorem memUnmap_fd (slot : IsSlot n) (x : Space) :
    (x.memUnmap (index2fd n)).pte = Function.update x.pte (fdPg n) none :=
  memUnmap_pte (legal_fd slot)

theorem memUnmap_data (slot : IsSlot n) (x : Space) :
    (x.memUnmap (index2data n)).pte = Function.update x.pte (dataPg n 0) none := by
  have first : dataVa n 0 = index2data n := by
    rw [dataVa, Nat.zero_mul]
    exact BitVec.add_zero _
  rw [dataPg, ← first]
  exact memUnmap_pte (legal_data slot (by omega))

theorem data_addr (slot : IsSlot n) (below : dataPg n 0 + i ≤ 0x7f400) :
    (index2data n + BitVec.ofNat 32 (i * 4096)).toNat = (dataPg n 0 + i) * 4096 := by
  have first := dataVa_toNat slot (Nat.zero_lt_of_lt (show 0 < 1024 by omega))
  rw [dataVa, Nat.zero_mul, Nat.add_zero] at first
  have start : index2data n + BitVec.ofNat 32 0 = index2data n := BitVec.add_zero _
  rw [start] at first
  rw [dataPg_eq slot (by omega)] at below ⊢
  have lt : n.toNat < 32 := slot
  rw [BitVec.toNat_add, BitVec.toNat_ofNat, first]
  omega

/-- The loop unmaps its pages up to the end of the address space. -/
theorem unmapWindow_pte (slot : IsSlot n) (below : dataPg n 0 + i ≤ 0x7f400) (v : Nat) :
    (x.unmapWindow (index2data n) i m).2.pte v =
      if dataPg n 0 + i ≤ v ∧ v < dataPg n 0 + i + m ∧ v < 0x7f400 then none else x.pte v := by
  induction m generalizing x i with
  | zero => rw [if_neg (by omega)]; rfl
  | succ m ih =>
      have addr := data_addr slot below
      have base := dataPg_eq slot (show 0 < 1024 by omega)
      rw [unmapWindow]
      by_cases illegal : isIllegalVa (index2data n + BitVec.ofNat 32 (i * 4096))
      · have last : dataPg n 0 + i = 0x7f400 := by
          by_contra earlier
          exact legal_of_toNat (by omega) (by omega) illegal
        rw [if_pos illegal, if_neg (by omega)]
      · have room : dataPg n 0 + (i + 1) ≤ 0x7f400 := by
          by_contra full
          apply illegal
          right
          rw [BitVec.le_def, addr, utop_toNat]
          omega
        have page : ppn (index2data n + BitVec.ofNat 32 (i * 4096)) = dataPg n 0 + i := by
          rw [ppn_eq_div, addr]
          omega
        rw [if_neg illegal, ih room, memUnmap_pte illegal, page]
        by_cases here : v = dataPg n 0 + i
        · subst here
          rw [Function.update_self, if_neg (by omega), if_pos (by omega)]
        · rw [Function.update_of_ne here]
          split_ifs <;> first | rfl | omega

theorem fd_unique {g : Filefd} (found : x.fdAt va = some f) (same : x.fdAt va = some g) :
    g = f := by
  rw [found] at same
  exact (Option.some.inj same).symm

theorem mapped_of_fdAt (found : x.fdAt (index2fd n) = some f) : (x.pte (fdPg n)).isSome := by
  rw [fdAt] at found
  obtain ⟨page, mapped, -⟩ := Option.map_eq_some_iff.mp found
  exact Option.isSome_of_eq_some mapped

theorem cons_ne_file : devconsId ≠ devfileId := by decide

theorem pipe_ne_file : devpipeId ≠ devfileId := by decide

theorem pipe_ne_cons : devpipeId ≠ devconsId := by decide

theorem closes_iff (found : x.fdAt (index2fd n) = some f) :
    Closes x n granted v ↔
      f.fdDevId = devfileId ∧ granted = true ∧ dataPg n 0 ≤ v ∧
          v < dataPg n 0 + Client.pageCount f.fSize ∧ v < 0x7f400 ∨
        f.fdDevId = devpipeId ∧ v = dataPg n 0 := by
  constructor
  · rintro ⟨g, same, closes⟩
    rw [fd_unique found same] at closes
    exact closes
  · exact fun closes => ⟨f, found, closes⟩

/-- What closing `n` should leave of the pages besides its `Fd`. -/
def LeavesPages (x y : Space) (n : Word) (granted : Bool) : Prop :=
  ∀ v, v ≠ fdPg n → (Closes x n granted v → y.pte v = none) ∧
    (¬Closes x n granted v → y.pte v = x.pte v)

theorem LeavesPages.idle {y : Space} (same : y.pte = x.pte) (idle : ∀ v, ¬Closes x n granted v) :
    LeavesPages x y n granted :=
  fun v _ => ⟨fun closes => absurd closes (idle v), fun _ => congrFun same v⟩

/-- `fd_close` comes last. -/
theorem LeavesPages.fdClose {y : Space} (leaves : LeavesPages x y n granted) (slot : IsSlot n) :
    LeavesPages x (y.memUnmap (index2fd n)) n granted ∧
      (y.memUnmap (index2fd n)).pte (fdPg n) = none := by
  rw [LeavesPages, memUnmap_fd slot]
  refine ⟨fun v other => ?_, Function.update_self ..⟩
  rw [Function.update_of_ne other]
  exact leaves v other

theorem leaves_file (slot : IsSlot n) (found : x.fdAt (index2fd n) = some f)
    (file : f.fdDevId = devfileId) :
    LeavesPages x ((x.touch va 4096).unmapWindow (index2data n) 0 (Client.pageCount f.fSize)).2
      n true := by
  have not_pipe : f.fdDevId ≠ devpipeId := by
    rw [file]
    exact pipe_ne_file.symm
  have base := dataPg_eq slot (show 0 < 1024 by omega)
  have lt : n.toNat < 32 := slot
  intro v other
  rw [closes_iff found, unmapWindow_pte slot (by omega), Nat.add_zero, and_iff_right file,
    and_iff_right rfl, or_iff_left fun pipe => not_pipe pipe.1]
  exact ⟨fun inside => if_pos inside, fun outside => if_neg outside⟩

theorem leaves_pipe (slot : IsSlot n) (found : x.fdAt (index2fd n) = some f)
    (pipe : f.fdDevId = devpipeId) :
    LeavesPages x ((x.touch va 4096).pipeClose (index2fd n)) n granted := by
  have not_file : f.fdDevId ≠ devfileId := by
    rw [pipe]
    exact pipe_ne_file
  intro v other
  rw [closes_iff found, and_iff_right pipe, or_iff_right fun file => not_file file.1, pipeClose,
    fd2data_index2fd slot, memUnmap_data slot, memUnmap_fd slot]
  refine ⟨fun at_data => ?_, fun away => ?_⟩
  · rw [at_data]
    exact Function.update_self ..
  · rw [Function.update_of_ne away, Function.update_of_ne other]
    rfl

/-- What `close` does to a slot, for each device. -/
theorem close_spec (slot : IsSlot n) (ends : CloseEnds x n) (granted : Bool) :
    ∃ r x', x.close n granted = some (r, x') ∧ LeavesPages x x' n granted ∧
      (IsOpen x n → x'.pte (fdPg n) = none) := by
  have lookup := fdLookup_slot (x := x) slot
  have here : ppn (index2fd n) = fdPg n := rfl
  cases found : x.pte (fdPg n) with
  | none =>
      have no_fd : x.fdAt (index2fd n) = none := by
        rw [fdAt, here, found]
        rfl
      refine ⟨.error .inval, x, ?_, .idle rfl fun v closes => ?_, fun _ => found⟩
      · rw [close, lookup, found]
        rfl
      · obtain ⟨f, some, -⟩ := closes
        rw [no_fd] at some
        cases some
  | some page =>
      have the_fd : x.fdAt (index2fd n) = some (x.fd page.1) := by
        rw [fdAt, here, found]
        rfl
      generalize x.fd page.1 = f at the_fd
      have nothing : f.fdDevId ≠ devfileId → f.fdDevId ≠ devpipeId →
          ∀ v, ¬Closes x n granted v := by
        intro not_file not_pipe v
        rw [closes_iff the_fd]
        rintro (⟨file, -⟩ | ⟨pipe, -⟩)
        · exact not_file file
        · exact not_pipe pipe
      rw [close, lookup, found]
      simp only [Option.isSome_some, if_true, the_fd]
      by_cases file : f.fdDevId = devfileId
      · have small := ends f the_fd file
        rw [if_pos file, fileClose, if_neg (by omega), fd2data_index2fd slot]
        cases granted with
        | false =>
            have idle : ∀ v, ¬Closes x n false v := by
              rintro v ⟨g, same, ⟨-, refused, -⟩ | ⟨pipe, -⟩⟩
              · cases refused
              · rw [fd_unique the_fd same, file] at pipe
                exact pipe_ne_file pipe.symm
            obtain ⟨leaves, gone⟩ :=
              LeavesPages.fdClose (.idle (y := x.touch (index2fd n) 4096) rfl idle) slot
            exact ⟨_, _, rfl, leaves, fun _ => gone⟩
        | true =>
            obtain ⟨leaves, gone⟩ := (leaves_file slot the_fd file).fdClose slot
            exact ⟨_, _, rfl, leaves, fun _ => gone⟩
      · rw [if_neg file]
        by_cases cons : f.fdDevId = devconsId
        · have idle := nothing file fun pipe => pipe_ne_cons (pipe.symm.trans cons)
          obtain ⟨leaves, gone⟩ :=
            LeavesPages.fdClose (.idle (y := x.touch (index2fd n) 4096) rfl idle) slot
          rw [if_pos cons]
          exact ⟨_, _, rfl, leaves, fun _ => gone⟩
        · rw [if_neg cons]
          by_cases pipe : f.fdDevId = devpipeId
          · obtain ⟨leaves, gone⟩ :=
              (leaves_pipe slot the_fd pipe).fdClose slot
            rw [if_pos pipe]
            exact ⟨_, _, rfl, leaves, fun _ => gone⟩
          · rw [if_neg pipe]
            refine ⟨_, _, rfl, .idle rfl (nothing file pipe), fun opened => ?_⟩
            obtain ⟨g, same, device⟩ := opened
            rw [fd_unique the_fd same] at device
            simp only [List.mem_cons, List.not_mem_nil, file, cons, pipe, or_self] at device

/-- A size that the counter never reaches. -/
theorem close_never (slot : IsSlot n) (endless : ¬CloseEnds x n) :
    x.close n granted = none := by
  unfold CloseEnds at endless
  push Not at endless
  obtain ⟨f, found, file, large⟩ := endless
  rw [close, fdLookup_slot slot, if_pos (mapped_of_fdAt found)]
  simp only [found, if_pos file, fileClose, if_pos large]

theorem Closes.window (closes : Closes x n granted v) : dataPg n 0 ≤ v := by
  obtain ⟨f, -, ⟨-, -, from_start, -⟩ | ⟨-, at_start⟩⟩ := closes
  · exact from_start
  · exact at_start.ge

theorem not_closes_fd {d : Word} (slot : IsSlot n) (other : IsSlot d) :
    ¬Closes x n granted (fdPg d) := by
  intro closes
  have above := closes.window
  have at_d := fdPg_eq other
  have start := dataPg_eq slot (show 0 < 1024 by omega)
  have lt : d.toNat < 32 := other
  omega

/-! ## `dup` -/

theorem passed_bits (bits : Word) :
    (bits &&& sharedBits ||| pteV) &&& sharedBits = bits &&& sharedBits := by
  have apart : pteV &&& sharedBits = 0 := by decide
  rw [BitVec.and_or_distrib_right, apart, BitVec.and_assoc, BitVec.and_self]
  exact BitVec.or_zero

theorem memMap_mapped {src dst : Word} {page : Nat × Word} (from_legal : ¬isIllegalVa src)
    (to_legal : ¬isIllegalVa dst) (mapped : x.pte (ppn src) = some page) :
    ∃ y, x.memMap src dst (page.2 &&& sharedBits) = some y ∧
      y.pte = Function.update x.pte (ppn dst) (some (passed page)) := by
  rw [memMap, if_neg (not_or.mpr ⟨from_legal, to_legal⟩), mapped]
  exact ⟨_, rfl, rfl⟩

/-- The loop maps pages in the new window only, and does not fail. -/
theorem dupPages_frame (old_slot : IsSlot old) (slot : IsSlot new) (inside : j + m ≤ 1024) :
    (x.dupPages (index2data old) (index2data new) j m).1 = true ∧
      ∀ v, (∀ k, j ≤ k → k < j + m → v ≠ dataPg new k) →
        (x.dupPages (index2data old) (index2data new) j m).2.pte v = x.pte v := by
  induction m generalizing x j with
  | zero => exact ⟨rfl, fun _ _ => rfl⟩
  | succ m ih =>
      have page_old : ppn (index2data old + BitVec.ofNat 32 (j * 4096)) = dataPg old j := rfl
      rw [dupPages]
      cases found : x.pte (dataPg old j) with
      | none =>
          simp only [page_old, found]
          obtain ⟨done, same⟩ := ih (x := x) (j := j + 1) (by omega)
          exact ⟨done, fun v away => same v fun k low high => away k (by omega) (by omega)⟩
      | some page =>
          obtain ⟨y, maps, mapped⟩ := memMap_mapped (legal_data old_slot (show j < 1024 by omega))
            (legal_data slot (show j < 1024 by omega)) found
          rw [dataVa, dataVa] at maps
          simp only [page_old, found, maps]
          obtain ⟨done, same⟩ := ih (x := y) (j := j + 1) (by omega)
          refine ⟨done, fun v away => ?_⟩
          rw [same v fun k low high => away k (by omega) (by omega), mapped]
          exact Function.update_of_ne (away j (Nat.le_refl j) (by omega)) _ _

/-- What it maps: whatever the old window has. -/
theorem dupPages_copy (old_slot : IsSlot old) (slot : IsSlot new) (ne : old ≠ new)
    (inside : j + m ≤ 1024) {k : Nat} (low : j ≤ k) (high : k < j + m) :
    (x.dupPages (index2data old) (index2data new) j m).2.pte (dataPg new k) =
      ((x.pte (dataPg old k)).map passed).or (x.pte (dataPg new k)) := by
  induction m generalizing x j with
  | zero => omega
  | succ m ih =>
      have page_old : ppn (index2data old + BitVec.ofNat 32 (j * 4096)) = dataPg old j := rfl
      have later : ∀ i, j + 1 ≤ i → i < j + 1 + m → dataPg new j ≠ dataPg new i := by
        intro i after below same
        have := (dataPg_inj slot slot (by omega) (by omega) same).2
        omega
      rw [dupPages]
      cases found : x.pte (dataPg old j) with
      | none =>
          simp only [page_old, found]
          rcases Nat.eq_or_lt_of_le low with rfl | after
          · rw [(dupPages_frame old_slot slot (by omega)).2 _ later, found]
            rfl
          · exact ih (by omega) after (by omega)
      | some page =>
          obtain ⟨y, maps, mapped⟩ := memMap_mapped (legal_data old_slot (show j < 1024 by omega))
            (legal_data slot (show j < 1024 by omega)) found
          rw [dataVa, dataVa] at maps
          simp only [page_old, found, maps]
          rcases Nat.eq_or_lt_of_le low with rfl | after
          · rw [(dupPages_frame old_slot slot (by omega)).2 _ later, mapped, found]
            exact Function.update_self ..
          · rw [ih (by omega) after (by omega), mapped]
            have old_kept : dataPg old k ≠ dataPg new j := by
              intro same
              exact ne (dataPg_inj old_slot slot (by omega) (by omega) same).1
            have new_kept : dataPg new k ≠ dataPg new j := by
              intro same
              have := (dataPg_inj slot slot (by omega) (by omega) same).2
              omega
            have page_new : ppn (dataVa new j) = dataPg new j := rfl
            rw [page_new, Function.update_of_ne old_kept, Function.update_of_ne new_kept]

/-- What `dup` leaves behind if the two numbers differ; `x'` is what `close` leaves. -/
structure Dups (x x' x'' : Space) (old new : Word) : Prop where
  fd : x''.pte (fdPg new) = (x.pte (fdPg old)).map passed
  data : ∀ j < 1024,
    x''.pte (dataPg new j) = ((x'.pte (dataPg old j)).map passed).or (x'.pte (dataPg new j))
  others : ∀ d, IsSlot d → d ≠ new → x''.pte (fdPg d) = x.pte (fdPg d) ∧
    ∀ j < 1024, x''.pte (dataPg d j) = x'.pte (dataPg d j)

/-- `x'` is what closing `n` leaves of the windows. -/
def Closed (x x' : Space) (n : Word) (granted : Bool) : Prop :=
  ∀ d, IsSlot d → ∀ j < 1024, (Closes x n granted (dataPg d j) → x'.pte (dataPg d j) = none) ∧
    (¬Closes x n granted (dataPg d j) → x'.pte (dataPg d j) = x.pte (dataPg d j))

theorem IsOpen.mapped (opened : IsOpen x n) : (x.pte (fdPg n)).isSome := by
  obtain ⟨f, found, -⟩ := opened
  exact mapped_of_fdAt found

theorem dup_spec (old_slot : IsSlot old) (slot : IsSlot new) (ne : old ≠ new)
    (opened : IsOpen x old) (ends : CloseEnds x new) (granted : Bool) :
    ∃ x' x'', x.dup old new granted = some (.ok new, x'') ∧ Closed x x' new granted ∧
      Dups x x' x'' old new := by
  obtain ⟨r, x', closes, pages, -⟩ := close_spec slot ends granted
  have fd_ne : ∀ d, IsSlot d → d ≠ new → fdPg d ≠ fdPg new :=
    fun d other differs same => differs (fdPg_inj other slot same)
  have fd_kept : ∀ d, IsSlot d → d ≠ new → x'.pte (fdPg d) = x.pte (fdPg d) :=
    fun d other differs => (pages _ (fd_ne d other differs)).2 (not_closes_fd slot other)
  obtain ⟨page, at_old⟩ := Option.isSome_iff_exists.mp opened.mapped
  have looked : x.fdLookup old = some (index2fd old) := by
    rw [fdLookup_slot old_slot, if_pos opened.mapped]
  obtain ⟨done, frame⟩ := dupPages_frame (x := x') old_slot slot (show 0 + 1024 ≤ 1024 by omega)
  have copied := fun k (high : k < 1024) =>
    dupPages_copy (x := x') old_slot slot ne (show 0 + 1024 ≤ 1024 by omega) (Nat.zero_le k)
      (show k < 0 + 1024 by omega)
  obtain ⟨mapped, maps⟩ : ∃ y, x'.dupPages (index2data old) (index2data new) 0 1024 = y := ⟨_, rfl⟩
  rw [maps] at done frame copied
  have still : mapped.2.pte (fdPg old) = some page := by
    rw [frame _ fun k _ high => fdPg_ne_dataPg old_slot slot (by omega)]
    exact (fd_kept old old_slot ne).trans at_old
  obtain ⟨y, fd_maps, after⟩ := memMap_mapped (legal_fd old_slot) (legal_fd slot) still
  have there : ppn (index2fd new) = fdPg new := rfl
  rw [there] at after
  refine ⟨x', y, ?_, fun d other j below => pages _ (fdPg_ne_dataPg slot other below).symm, ?_,
    fun j below => ?_, fun d other differs => ⟨?_, fun j below => ?_⟩⟩
  · have here : ppn (index2fd old) = fdPg old := rfl
    rw [dup, looked, closes]
    simp only [fd2data_index2fd old_slot, fd2data_index2fd slot, maps, if_pos done, here, still,
      fd_maps]
  · rw [after, Function.update_self, at_old]
    rfl
  · rw [after, Function.update_of_ne (fdPg_ne_dataPg slot slot below).symm, copied j below]
  · rw [after, Function.update_of_ne (fd_ne d other differs),
      frame _ fun k _ high => fdPg_ne_dataPg other slot (by omega)]
    exact fd_kept d other differs
  · rw [after, Function.update_of_ne (fdPg_ne_dataPg slot other below).symm]
    exact frame _ fun k _ high same =>
      differs (dataPg_inj other slot below (show k < 1024 by omega) same).1

/-- Nothing is left to map once a descriptor has been closed for itself. -/
theorem dup_same_fails (slot : IsSlot n) (opened : IsOpen x n) : ¬DupShares x n n granted := by
  rintro ⟨x', returns, -⟩
  have looked : x.fdLookup n = some (index2fd n) := by
    rw [fdLookup_slot slot, if_pos opened.mapped]
  rw [dup, looked] at returns
  by_cases ends : CloseEnds x n
  · obtain ⟨r, y, closes, -, gone⟩ := close_spec slot ends granted
    obtain ⟨mapped, maps⟩ :
        ∃ z, y.dupPages (index2data n) (index2data n) 0 1024 = z := ⟨_, rfl⟩
    obtain ⟨done, frame⟩ := dupPages_frame (x := y) slot slot (show 0 + 1024 ≤ 1024 by omega)
    rw [maps] at done frame
    have still : mapped.2.pte (fdPg n) = none := by
      rw [frame _ fun k _ high => fdPg_ne_dataPg slot slot (by omega)]
      exact gone opened
    have here : ppn (index2fd n) = fdPg n := rfl
    rw [closes] at returns
    simp only [fd2data_index2fd slot, maps, if_pos done, here, still, Option.some.injEq,
      Prod.mk.injEq, reduceCtorEq, false_and] at returns
  · rw [close_never slot ends] at returns
    cases returns

theorem shared_passed {y : Space} {v w : Nat} (copy : y.pte v = (y.pte w).map passed) :
    y.shared v = y.shared w := by
  rw [shared, shared, copy, Option.map_map]
  congr 1
  funext page
  exact congrArg (Prod.mk page.1) (passed_bits page.2)

/-- The pages shared after a `dup` are those of the old number if no page was left in the
new window, and the other windows are as before if no page was taken out of them. -/
theorem shares_iff {x'' : Space} (old_slot : IsSlot old) (slot : IsSlot new) (ne : old ≠ new)
    (opened : IsOpen x old) (closed : Closed x x' new granted) (dups : Dups x x' x'' old new) :
    Shares x x'' old new ↔ NoneLeft x old new granted ∧ NoneTaken x new granted := by
  obtain ⟨old_fd, old_data⟩ := dups.others old old_slot ne
  constructor
  · intro shares
    refine ⟨fun j below at_new => ?_, fun d other differs j below closes => ?_⟩
    · by_contra neither
      push Not at neither
      obtain ⟨no_old, stays⟩ := neither
      have copied := dups.data j below
      have same := shares.data j below
      have kept := (shares.others old old_slot ne).2 j below
      rw [no_old] at kept
      rw [← old_data j below, kept, (closed new slot j below).2 stays, Option.map_none,
        Option.none_or] at copied
      rw [shared, shared, kept, Option.map_none, copied] at same
      exact at_new (Option.map_eq_none_iff.mp same)
    · rw [← ((shares.others d other differs).2 j below), (dups.others d other differs).2 j below]
      exact (closed d other j below).1 closes
  · rintro ⟨left, taken⟩
    have window : ∀ d, IsSlot d → d ≠ new → ∀ j < 1024,
        x'.pte (dataPg d j) = x.pte (dataPg d j) := by
      intro d other differs j below
      by_cases closes : Closes x new granted (dataPg d j)
      · rw [taken d other differs j below closes]
        exact (closed d other j below).1 closes
      · exact (closed d other j below).2 closes
    refine ⟨?_, ?_, fun j below => ?_, fun d other differs => ⟨?_, fun j below => ?_⟩⟩
    · rw [old_fd]
      exact opened.mapped
    · apply shared_passed
      rw [dups.fd, old_fd]
    · apply shared_passed
      rw [dups.data j below, old_data j below]
      cases at_old : x'.pte (dataPg old j) with
      | some page => rfl
      | none =>
          rw [Option.map_none, Option.none_or]
          by_cases closes : Closes x new granted (dataPg new j)
          · exact (closed new slot j below).1 closes
          · rw [(closed new slot j below).2 closes]
            by_contra at_new
            rw [window old old_slot ne j below] at at_old
            exact (left j below at_new).elim (fun some => some at_old) closes
    · exact (dups.others d other differs).1
    · rw [(dups.others d other differs).2 j below]
      exact window d other differs j below

theorem dup_shares_iff (old_slot : IsSlot old) (slot : IsSlot new) (opened : IsOpen x old) :
    DupShares x old new granted ↔
      old ≠ new ∧ CloseEnds x new ∧ NoneLeft x old new granted ∧ NoneTaken x new granted := by
  constructor
  · intro dups
    have ne : old ≠ new := by
      rintro rfl
      exact dup_same_fails slot opened dups
    obtain ⟨x₂, returns, shares⟩ := dups
    have ends : CloseEnds x new := by
      by_contra endless
      rw [dup, fdLookup_slot old_slot, if_pos opened.mapped, close_never slot endless] at returns
      cases returns
    obtain ⟨x', x'', result, closed, copied⟩ :=
      dup_spec old_slot slot ne opened ends granted
    rw [result] at returns
    cases returns
    exact ⟨ne, ends, (shares_iff old_slot slot ne opened closed copied).mp shares⟩
  · rintro ⟨ne, ends, kept⟩
    obtain ⟨x', x'', result, closed, copied⟩ :=
      dup_spec old_slot slot ne opened ends granted
    exact ⟨x'', result, (shares_iff old_slot slot ne opened closed copied).mpr kept⟩

/-- Only the console is open, as descriptor 0. -/
def consoleOnly : Space where
  pte v := if v = fdPg 0 then some (7, sharedBits ||| pteV) else none
  fd _ := { fdDevId := devconsId, fdOffset := 0, fdOmode := 2, fFileid := 0, fSize := 0 }
  touched := []

theorem consoleOnly_pte (v : Nat) :
    consoleOnly.pte v = if v = fdPg 0 then some (7, sharedBits ||| pteV) else none := rfl

theorem consoleOnly_open : IsOpen consoleOnly 0 := by
  refine ⟨consoleOnly.fd 7, ?_, ?_⟩
  · have here : consoleOnly.pte (fdPg 0) = some (7, sharedBits ||| pteV) := by
      rw [consoleOnly_pte, if_pos rfl]
    exact congrArg (Option.map fun page => consoleOnly.fd page.1) here
  · simp [consoleOnly]

theorem slot_of_lt {i : Nat} (below : i < 32) : IsSlot (BitVec.ofNat 32 i) := by
  rw [IsSlot, BitVec.toNat_ofNat]
  unfold maxfd
  omega

/-- The two ends of one pipe are open, as descriptors 0 and 2, and another is as 1. -/
def pipesOpen : Space where
  pte v :=
    if v = fdPg 0 then some (7, sharedBits ||| pteV) else
    if v = fdPg 1 then some (8, sharedBits ||| pteV) else
    if v = fdPg 2 then some (9, sharedBits ||| pteV) else
    if v = dataPg 0 0 ∨ v = dataPg 2 0 then some (10, sharedBits ||| pteV) else
    if v = dataPg 1 0 then some (11, sharedBits ||| pteV) else none
  fd _ := { fdDevId := devpipeId, fdOffset := 0, fdOmode := 2, fFileid := 0, fSize := 0 }
  touched := []

/-- Descriptor 1 is closed and becomes the first end of the pipe. -/
theorem dup_shares_pipe : DupShares pipesOpen 0 1 true := by
  have zero : IsSlot 0 := slot_of_lt (i := 0) (by omega)
  have one : IsSlot 1 := slot_of_lt (i := 1) (by omega)
  have two : IsSlot 2 := slot_of_lt (i := 2) (by omega)
  have pipe : ∀ n f, pipesOpen.fdAt (index2fd n) = some f → f.fdDevId = devpipeId := by
    intro n f found
    obtain ⟨page, -, rfl⟩ := Option.map_eq_some_iff.mp found
    rfl
  have other : devpipeId ≠ devfileId := by decide
  have opened : IsOpen pipesOpen 0 := by
    have here : pipesOpen.pte (fdPg 0) = some (7, sharedBits ||| pteV) := by simp [pipesOpen]
    exact ⟨pipesOpen.fd 7, congrArg (Option.map fun page => pipesOpen.fd page.1) here,
      List.mem_cons_of_mem _ (List.mem_cons_of_mem _ List.mem_cons_self)⟩
  have window : ∀ j < 1024, j ≠ 0 → pipesOpen.pte (dataPg 1 j) = none := by
    intro j below later
    have apart : ∀ n, IsSlot n → dataPg 1 j ≠ dataPg n 0 := fun n slot same =>
      later (dataPg_inj one slot below (Nat.succ_pos _) same).2
    simp only [pipesOpen, (fdPg_ne_dataPg zero one below).symm, (fdPg_ne_dataPg one one below).symm,
      (fdPg_ne_dataPg two one below).symm, apart 0 zero, apart 1 one, apart 2 two, if_false,
      or_false]
  have closes : ∀ v, Closes pipesOpen 1 true v → v = dataPg 1 0 := by
    rintro v ⟨f, found, ⟨file, -⟩ | ⟨-, first⟩⟩
    · exact absurd ((pipe 1 f found).symm.trans file) other
    · exact first
  refine (dup_shares_iff zero one opened).mpr ⟨by decide, ?_, ?_, ?_⟩
  · exact fun f found file => absurd ((pipe 1 f found).symm.trans file) other
  · intro j below mapped
    by_cases first : j = 0
    · refine .inr ⟨pipesOpen.fd 8, ?_, .inr ⟨rfl, by rw [first]⟩⟩
      have here : pipesOpen.pte (fdPg 1) = some (8, sharedBits ||| pteV) := by
        have apart : fdPg 1 ≠ fdPg 0 := fun same => absurd (fdPg_inj one zero same) (by decide)
        simp only [pipesOpen, apart, if_false, if_true]
      exact congrArg (Option.map fun page => pipesOpen.fd page.1) here
    · exact absurd (window j below first) mapped
  · intro d slot ne j below closed
    exact absurd (dataPg_inj slot one below (Nat.succ_pos _) (closes _ closed)).1 ne

theorem dup_not_shared : ¬∀ (x : Space) (old new : Word) (granted : Bool),
    IsSlot old → IsSlot new → IsOpen x old → DupShares x old new granted := by
  intro all
  have zero : IsSlot 0 := slot_of_lt (i := 0) (by omega)
  exact dup_same_fails zero consoleOnly_open (all consoleOnly 0 0 true zero zero consoleOnly_open)

end Space

end Mos
