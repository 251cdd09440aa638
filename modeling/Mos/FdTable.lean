import Mos.FdDup

/-!
# Numbers that are not descriptors

`read`, `write`, `seek` and `fstat` of `user/lib/fd.c` and what they call in the three
devices, in one address space; `close` and `dup` are in the module before. A number is
looked up once, by `fd_lookup`, which compares it with `MAXFD` as a signed number and
then asks whether the page its `Fd` would have is mapped.
-/

namespace Mos

/-- `O_ACCMODE` -/
def oAccmode : Word := 3

/-- `O_RDONLY` -/
def oRdonly : Word := 0

/-- `O_WRONLY` -/
def oWronly : Word := 1

/-- `devtab`, by `dev_id`. -/
def devtab : List Word := [devfileId, devconsId, devpipeId]

/-- What comes from outside of the process. -/
structure Outside where
  /-- What the console returns. -/
  cons : Except FileErr Word
  /-- How many bytes a pipe takes or gives. -/
  pipe : Word
  /-- Whether the file server grants `FSREQ_SET_SIZE`. -/
  granted : Bool
  /-- The page that the server sends for a page of the file; `none` is an error. -/
  block : Nat → Option Nat

namespace Space

/-! ## `fd.c` -/

/-- The `Fd` at `va` is written. -/
def setFd (x : Space) (va : Word) (f : Filefd) : Space :=
  match x.pte (ppn va) with
  | none => x
  | some page => { x.touch va 4096 with fd := Function.update x.fd page.1 f }

/-- The `n` of `file_read` after it has been cut to the file. -/
def readLen (f : Filefd) (n offset : Word) : Word :=
  if f.fSize < offset + n then f.fSize - offset else n

/-- `file_read`, but for the bytes. -/
def fileRead (x : Space) (fd : Word) (f : Filefd) (n offset : Word) : Except FileErr Word × Space :=
  if f.fSize < offset then (.ok 0, x)
  else (.ok (readLen f n offset), x.touch (fd2data fd + offset) (readLen f n offset).toNat)

/-- The pages the server sends for the window: `m` pages from page `i` on, up to the
first error. -/
def mapWindow (x : Space) (va : Word) (w : Outside) (i : Nat) : Nat → Bool × Space
  | 0 => (true, x)
  | m + 1 =>
      let a := va + BitVec.ofNat 32 (i * 4096)
      match w.block i with
      | none => (false, x)
      | some p =>
          mapWindow { x.touch a 4096 with
            pte := Function.update x.pte (ppn a) (some (p, sharedBits ||| pteV)) } va w (i + 1) m

/-- `ftruncate`; an error of its last loop stands for the panic. -/
def ftruncate (x : Space) (fdnum size : Word) (w : Outside) : Except FileErr Unit × Space :=
  if maxFileSize < size.toNat then (.error .noDisk, x)
  else
    match x.fdLookup fdnum with
    | none => (.error .inval, x)
    | some fd =>
        match x.fdAt fd with
        | none => (.error .inval, x)
        | some f =>
            if f.fdDevId ≠ devfileId then (.error .inval, x.touch fd 4096)
            else
              let x := x.setFd fd { f with fSize := size }
              let old := Client.roundPages f.fSize
              let new := Client.roundPages size
              if w.granted = false then (.error (.server 3), x)
              else
                let mapped := x.mapWindow (fd2data fd) w old (new - old)
                if mapped.1 = false then (.error (.server 3), mapped.2)
                else mapped.2.unmapWindow (fd2data fd) new (old - new)

/-- `file_write`, but for the bytes. -/
def fileWrite (x : Space) (fd : Word) (f : Filefd) (n offset : Word) (w : Outside) :
    Except FileErr Word × Space :=
  let tot := offset + n
  if maxFileSize < tot.toNat then (.error .noDisk, x)
  else
    let grown := if f.fSize < tot then x.ftruncate (fd2num fd) tot w else (.ok (), x)
    match grown.1 with
    | .error e => (.error e, grown.2)
    | .ok _ => (.ok n, grown.2.touch (fd2data fd + offset) n.toNat)

/-- `pipe_read` and `pipe_write` look at nothing but the `Pipe`. -/
def pipeMove (x : Space) (fd n : Word) (w : Outside) : Except FileErr Word × Space :=
  if n = 0 then (.ok 0, x) else (.ok w.pipe, x.touch (fd2data fd) 4096)

/-- `dev->dev_read` -/
def devRead (x : Space) (fd : Word) (f : Filefd) (n : Word) (w : Outside) :
    Except FileErr Word × Space :=
  if f.fdDevId = devfileId then x.fileRead fd f n f.fdOffset
  else if f.fdDevId = devconsId then (w.cons, x)
  else x.pipeMove fd n w

/-- `dev->dev_write` -/
def devWrite (x : Space) (fd : Word) (f : Filefd) (n : Word) (w : Outside) :
    Except FileErr Word × Space :=
  if f.fdDevId = devfileId then x.fileWrite fd f n f.fdOffset w
  else if f.fdDevId = devconsId then (w.cons, x)
  else x.pipeMove fd n w

/-- `if (r > 0) fd->fd_offset += r` -/
def advance (x : Space) (fd : Word) (r : Except FileErr Word) : Space :=
  match r with
  | .error _ => x
  | .ok got =>
      match x.fdAt fd with
      | none => x
      | some f => if 0 < got.toInt then x.setFd fd { f with fdOffset := f.fdOffset + got } else x

/-- What `read` and `write` have in common: `move` is the function of the device, and
`refused` the mode in which it is not called. -/
def transfer (x : Space) (fdnum refused : Word)
    (move : Space → Word → Filefd → Except FileErr Word × Space) : Except FileErr Word × Space :=
  match x.fdLookup fdnum with
  | none => (.error .inval, x)
  | some fd =>
      match x.fdAt fd with
      | none => (.error .inval, x)
      | some f =>
          let x := x.touch fd 4096
          if f.fdDevId ∉ devtab then (.error .inval, x)
          else if f.fdOmode &&& oAccmode = refused then (.error .inval, x)
          else
            let moved := move x fd f
            (moved.1, moved.2.advance fd moved.1)

/-- `read` -/
def read (x : Space) (fdnum n : Word) (w : Outside) : Except FileErr Word × Space :=
  x.transfer fdnum oWronly fun x fd f => x.devRead fd f n w

/-- `write` -/
def write (x : Space) (fdnum n : Word) (w : Outside) : Except FileErr Word × Space :=
  x.transfer fdnum oRdonly fun x fd f => x.devWrite fd f n w

/-- `seek` -/
def seek (x : Space) (fdnum offset : Word) : Except FileErr Word × Space :=
  match x.fdLookup fdnum with
  | none => (.error .inval, x)
  | some fd =>
      match x.fdAt fd with
      | none => (.error .inval, x)
      | some f => (.ok 0, x.setFd fd { f with fdOffset := offset })

/-- How many bytes `strcpy(dst, src)` has copied after at most `fuel` of them. -/
def strcpyCopies (mem : Dev.Memory) (dst src : Word) : Nat → Nat
  | 0 => 0
  | fuel + 1 =>
      if mem src = 0 then 1
      else strcpyCopies (Function.update mem dst (mem src)) (dst + 1) (src + 1) fuel + 1

/-- `sizeof(struct Stat)`; the name is its first field. -/
def statSize : Nat := 140

/-- `fstat` into the `struct Stat` at `stat`, up to byte `fuel` of the name of a file. The
memory is the one that `strcpy` finds; what it stores behind the struct is recorded too. -/
def fstat (x : Space) (fdnum stat : Word) (mem : Dev.Memory) (fuel : Nat) :
    Except FileErr Unit × Space :=
  match x.fdLookup fdnum with
  | none => (.error .inval, x)
  | some fd =>
      match x.fdAt fd with
      | none => (.error .inval, x)
      | some f =>
          let x := x.touch fd 4096
          if f.fdDevId ∉ devtab then (.error .inval, x)
          else if f.fdDevId = devfileId then
            let copied := strcpyCopies mem stat (fd + 16) fuel
            (.ok (), (x.touch (fd + 16) copied).touch (stat + 140) (copied - statSize))
          else (.ok (), x)

/-! ## What they should do -/

/-- A byte of the descriptor table or of a window. -/
def InArea (a : Word) : Prop :=
  0x5fc00000 ≤ a.toNat ∧ a.toNat < 0x5fc20000 ∨ 0x60000000 ≤ a.toNat ∧ a.toNat < 0x68000000

/-- All of `len` bytes from `va` on are. -/
def RangeInside (va : Word) (len : Nat) : Prop := ∀ i < len, InArea (va + BitVec.ofNat 32 i)

/-- Nothing else was touched. -/
def Inside (x : Space) : Prop := ∀ a ∈ x.touched, RangeInside a.va a.len

/-- A call is confined: it gives an error unless its numbers are `known` to the table, and
it touches nothing but the table and the windows. -/
def Confined {α : Type} (known : Prop) (result : Except FileErr α × Space) : Prop :=
  (¬known → ∃ e, result.1 = .error e) ∧ Inside result.2

/-- The same for a call that may not return; it has looked at its `Fd` only then. -/
def ConfinedIf {α : Type} (known : Prop) (result : Option (Except FileErr α × Space)) : Prop :=
  (result = none → known) ∧ ∀ r, result = some r → Confined known r

/-- `fd_lookup` takes the number for a descriptor. -/
def Accepts (x : Space) (n : Word) : Prop :=
  n.toInt < (maxfd : Int) ∧ (x.pte (fdPg n)).isSome

/-! ## The area -/

variable {x x' : Space} {n m va offset : Word} {granted : Bool} {w : Outside} {f : Filefd}
  {i j k len : Nat} {mem : Dev.Memory} {stat : Word}

theorem rangeInside_of_toNat (first : va.toNat = k)
    (area : 0x5fc00000 ≤ k ∧ k + len ≤ 0x5fc20000 ∨ 0x60000000 ≤ k ∧ k + len ≤ 0x68000000) :
    RangeInside va len := by
  intro i below
  rw [InArea, BitVec.toNat_add, BitVec.toNat_ofNat, first]
  omega

theorem InArea.of_range (inside : RangeInside va len) (some : 0 < len) : InArea va := by
  have first := inside 0 some
  have same : va + BitVec.ofNat 32 0 = va := BitVec.add_zero _
  rwa [same] at first

theorem fd_inside (slot : IsSlot n) : RangeInside (index2fd n) 4096 := by
  have lt : n.toNat < 32 := slot
  exact rangeInside_of_toNat (index2fd_toNat slot) (.inl (by omega))

theorem data_inside (slot : IsSlot n) (below : j < 1024) : RangeInside (dataVa n j) 4096 := by
  have lt : n.toNat < 32 := slot
  exact rangeInside_of_toNat (dataVa_toNat slot below) (.inr (by omega))

/-- Page `i` counted from the start of the window of `n`, in some window. -/
theorem window_inside (slot : IsSlot n) (below : n.toNat * 1024 + i < 32768) :
    RangeInside (index2data n + BitVec.ofNat 32 (i * 4096)) 4096 := by
  have base := dataPg_eq slot (show 0 < 1024 by omega)
  exact rangeInside_of_toNat (data_addr slot (by omega)) (.inr (by omega))

theorem inside_cons (touched : x'.touched = ⟨va, len⟩ :: x.touched) :
    Inside x' ↔ RangeInside va len ∧ Inside x := by
  rw [Inside, touched]
  exact List.forall_mem_cons

theorem inside_touch : Inside (x.touch va len) ↔ RangeInside va len ∧ Inside x :=
  inside_cons rfl

theorem inside_memUnmap (legal : ¬isIllegalVa va) :
    Inside (x.memUnmap va) ↔ RangeInside va 4096 ∧ Inside x := by
  rw [memUnmap, if_neg legal]
  exact inside_cons rfl

theorem Inside.of_memUnmap (inside : Inside (x.memUnmap va)) : Inside x := by
  by_cases illegal : isIllegalVa va
  · rwa [memUnmap, if_pos illegal] at inside
  · exact ((inside_memUnmap illegal).mp inside).2

theorem inside_memUnmap_fd (slot : IsSlot n) : Inside (x.memUnmap (index2fd n)) ↔ Inside x := by
  rw [inside_memUnmap (legal_fd slot)]
  exact and_iff_right (fd_inside slot)

theorem inside_setFd (slot : IsSlot n) : Inside (x.setFd (index2fd n) f) ↔ Inside x := by
  rw [setFd]
  split
  · exact Iff.rfl
  · exact (inside_cons rfl).trans (and_iff_right (fd_inside slot))

theorem Inside.of_unmapWindow (inside : Inside (x.unmapWindow va i k).2) : Inside x := by
  induction k generalizing x i with
  | zero => exact inside
  | succ k ih =>
      rw [unmapWindow] at inside
      split at inside
      · exact inside
      · exact (ih inside).of_memUnmap

/-- The loop stays in the windows if it stops before the end of the last one. -/
theorem inside_unmapWindow (slot : IsSlot n) (start : n.toNat * 1024 + i ≤ 32768) :
    Inside (x.unmapWindow (index2data n) i k).2 ↔
      Inside x ∧ n.toNat * 1024 + i + k ≤ 32768 := by
  induction k generalizing x i with
  | zero =>
      rw [Nat.add_zero]
      exact (and_iff_left start).symm
  | succ k ih =>
      have next : n.toNat * 1024 + (i + 1) + k = n.toNat * 1024 + i + (k + 1) := by omega
      have base := dataPg_eq slot (show 0 < 1024 by omega)
      have addr := data_addr slot (show dataPg n 0 + i ≤ 0x7f400 by omega)
      have legal : ¬isIllegalVa (index2data n + BitVec.ofNat 32 (i * 4096)) :=
        legal_of_toNat (by omega) (by omega)
      rw [unmapWindow, if_neg legal]
      rcases Nat.lt_or_ge (n.toNat * 1024 + i) 32768 with room | full
      · rw [ih (by omega), inside_memUnmap legal, next, and_iff_right (window_inside slot room)]
      · constructor
        · intro inside
          have here := ((inside_memUnmap legal).mp inside.of_unmapWindow).1
          have out := InArea.of_range here (by omega)
          rw [InArea, addr] at out
          omega
        · rintro ⟨-, fits⟩
          omega

/-- What `fd_lookup` finds, and that there is an `Fd` then. -/
theorem lookup_cases (x : Space) (n : Word) :
    ¬Accepts x n ∧ x.fdLookup n = none ∨
      Accepts x n ∧ x.fdLookup n = some (index2fd n) ∧ ∃ f, x.fdAt (index2fd n) = some f := by
  have here : ppn (index2fd n) = fdPg n := rfl
  rw [Accepts, fdLookup, here]
  by_cases large : (maxfd : Int) ≤ n.toInt
  · left
    exact ⟨fun accepts => by omega, if_pos large⟩
  · rw [if_neg large]
    cases found : x.pte (fdPg n) with
    | none =>
        left
        exact ⟨fun accepts => Bool.false_ne_true accepts.2, rfl⟩
    | some page =>
        right
        refine ⟨⟨by omega, rfl⟩, rfl, x.fd page.1, ?_⟩
        rw [fdAt, here, found]
        rfl

/-! ## When they do -/

/-- The pages of a file that `close` unmaps end within the last window. -/
def CloseFits (x : Space) (n : Word) (granted : Bool) : Prop :=
  ∀ f, x.fdAt (index2fd n) = some f → f.fdDevId = devfileId → f.fSize.toNat ≤ 0xfffff000 →
    granted = true → n.toNat * 1024 + Client.pageCount f.fSize ≤ 32768

/-- `close` gives an error although it has found an `Fd`: for the device, because the
server refuses, or because there can be no window. -/
def CloseFails (x : Space) (n : Word) (granted : Bool) : Prop :=
  ∃ f, x.fdAt (index2fd n) = some f ∧ (f.fdDevId ∉ devtab ∨
    f.fdDevId = devfileId ∧ f.fSize.toNat ≤ 0xfffff000 ∧
      (granted = false ∨ f.fSize ≠ 0 ∧ isIllegalVa (fd2data (index2fd n))))

/-- `read` takes the bytes of a file from the windows. -/
def ReadFits (x : Space) (n len : Word) : Prop :=
  ∀ f, x.fdAt (index2fd n) = some f → f.fdDevId = devfileId → f.fdOmode &&& oAccmode ≠ oWronly →
    f.fdOffset ≤ f.fSize →
      RangeInside (index2data n + f.fdOffset) (readLen f len f.fdOffset).toNat

/-- `read` gives an error although it has found an `Fd`. -/
def ReadFails (x : Space) (n : Word) (w : Outside) : Prop :=
  ∃ f, x.fdAt (index2fd n) = some f ∧ (f.fdDevId ∉ devtab ∨ f.fdOmode &&& oAccmode = oWronly ∨
    f.fdDevId = devconsId ∧ ∃ e, w.cons = .error e)

/-- The server lets the file of `f` grow to `tot` bytes if it is shorter. -/
def Grows (f : Filefd) (tot : Word) (w : Outside) : Prop :=
  w.granted = true ∧
    ∀ i, Client.roundPages f.fSize ≤ i → i < Client.roundPages tot → (w.block i).isSome

/-- `write` puts the bytes of a file into the windows. -/
def WriteFits (x : Space) (n len : Word) (w : Outside) : Prop :=
  ∀ f, x.fdAt (index2fd n) = some f → f.fdDevId = devfileId → f.fdOmode &&& oAccmode ≠ oRdonly →
    (f.fdOffset + len).toNat ≤ maxFileSize →
    (f.fSize < f.fdOffset + len → Grows f (f.fdOffset + len) w) →
      RangeInside (index2data n + f.fdOffset) len.toNat

/-- `write` gives an error although it has found an `Fd`. -/
def WriteFails (x : Space) (n len : Word) (w : Outside) : Prop :=
  ∃ f, x.fdAt (index2fd n) = some f ∧ (f.fdDevId ∉ devtab ∨ f.fdOmode &&& oAccmode = oRdonly ∨
    f.fdDevId = devconsId ∧ (∃ e, w.cons = .error e) ∨
    f.fdDevId = devfileId ∧ (maxFileSize < (f.fdOffset + len).toNat ∨
      f.fSize < f.fdOffset + len ∧
        (¬IsSlot (fd2num (index2fd n)) ∨ ¬Grows f (f.fdOffset + len) w)))

/-- The name that a file has from `src` on ends within the table. It also ends before the
caller's struct, if that begins further on in it, and what goes behind the struct lies in
the table or in a window. -/
def NameFits (n stat src : Word) (mem : Dev.Memory) : Prop :=
  ∃ i, n.toNat * 4096 + 16 + i < 0x20000 ∧ mem (src + BitVec.ofNat 32 i) = 0 ∧
    ¬(0 < (stat - src).toNat ∧ (stat - src).toNat ≤ i) ∧
    RangeInside (stat + 140) (i + 1 - statSize)

/-- `fstat` reads no more than the table, and writes no more than the struct. -/
def FstatFits (x : Space) (n stat : Word) (mem : Dev.Memory) : Prop :=
  ∀ f, x.fdAt (index2fd n) = some f → f.fdDevId = devfileId →
    NameFits n stat (index2fd n + 16) mem

/-- `fstat` gives an error although it has found an `Fd`. -/
def FstatFails (x : Space) (n : Word) : Prop :=
  ∃ f, x.fdAt (index2fd n) = some f ∧ f.fdDevId ∉ devtab

/-- `fd_lookup` refuses the number; or it is in the table, and the device stays in the
windows; or it is not, but its `Fd` would be in the table or in a window, and the call
fails for another reason. -/
def Keeps (x : Space) (n : Word) (fits fails : Prop) : Prop :=
  ¬Accepts x n ∨ IsSlot n ∧ fits ∨ ¬IsSlot n ∧ InArea (index2fd n) ∧ fails

/-! ## One number -/

theorem index2fd_aligned (n : Word) : (index2fd n).toNat % 4096 = 0 := by
  rw [index2fd_mod]
  omega

theorem fd_area : RangeInside (index2fd n) 4096 ↔ InArea (index2fd n) := by
  constructor
  · exact fun inside => InArea.of_range inside (by omega)
  · intro area
    have aligned := index2fd_aligned n
    rw [InArea] at area
    exact rangeInside_of_toNat rfl (by omega)

theorem Confined.of_fresh {α : Type} {known : Prop} {e : FileErr} (fresh : x.touched = []) :
    Confined known ((.error e, x) : Except FileErr α × Space) := by
  refine ⟨fun _ => ⟨e, rfl⟩, fun a among => ?_⟩
  rw [fresh] at among
  cases among

theorem inside_fresh (fresh : x.touched = []) : Inside x := by
  intro a among
  rw [fresh] at among
  cases among

/-- What is left to show of a call whose number has been found. -/
theorem keeps_iff {fits fails : Prop} {c : Prop} (accepts : Accepts x n)
    (slot : IsSlot n → (c ↔ fits)) (other : ¬IsSlot n → (c ↔ InArea (index2fd n) ∧ fails)) :
    c ↔ Keeps x n fits fails := by
  rw [Keeps, or_iff_right (not_not_intro accepts)]
  by_cases known : IsSlot n
  · rw [slot known]
    constructor
    · exact fun fit => .inl ⟨known, fit⟩
    · rintro (⟨-, fit⟩ | ⟨unknown, -⟩)
      · exact fit
      · exact absurd known unknown
  · rw [other known]
    constructor
    · exact fun fail => .inr ⟨known, fail⟩
    · rintro (⟨slot, -⟩ | ⟨-, fail⟩)
      · exact absurd slot known
      · exact fail

theorem keeps_slot {fits fails : Prop} (slot : IsSlot n) :
    Keeps x n fits fails ↔ (Accepts x n → fits) := by
  rw [imp_iff_not_or]
  apply or_congr_right
  constructor
  · rintro (⟨-, fit⟩ | ⟨unknown, -⟩)
    · exact fit
    · exact absurd slot unknown
  · exact fun fit => .inl ⟨slot, fit⟩

theorem seek_confined (fresh : x.touched = []) :
    Confined (IsSlot n) (x.seek n offset) ↔ Keeps x n True False := by
  rcases lookup_cases x n with ⟨refused, none⟩ | ⟨accepts, looked, f, found⟩
  · rw [seek, none]
    exact iff_of_true (Confined.of_fresh fresh) (.inl refused)
  · rw [seek, looked]
    simp only [found]
    apply keeps_iff accepts
    · intro slot
      refine iff_of_true ⟨fun no => absurd slot no, ?_⟩ trivial
      exact (inside_setFd slot).mpr (inside_fresh fresh)
    · intro unknown
      rw [and_false, iff_false]
      rintro ⟨error, -⟩
      obtain ⟨e, wrong⟩ := error unknown
      cases wrong

theorem Inside.touched_fd (fresh : x.touched = []) :
    Inside (x.touch (index2fd n) 4096) ↔ InArea (index2fd n) := by
  rw [inside_touch, fd_area]
  exact and_iff_left (inside_fresh fresh)

/-- Unmapping the `Fd` once more adds nothing. -/
theorem inside_unmap_again (here : RangeInside va 4096) : Inside (x.memUnmap va) ↔ Inside x := by
  by_cases illegal : isIllegalVa va
  · rw [memUnmap, if_pos illegal]
  · rw [inside_memUnmap illegal]
    exact and_iff_right here

theorem InArea.legal {a : Word} (area : InArea a) : ¬isIllegalVa (a + 4096) := by
  rw [InArea] at area
  have page : (4096 : Word).toNat = 4096 := rfl
  have next : (a + 4096).toNat = a.toNat + 4096 := by
    rw [BitVec.toNat_add, page]
    omega
  exact legal_of_toNat (by omega) (by omega)

/-- Between the last page of the area and the first illegal one there are others. -/
theorem unmapWindow_fails {e : FileErr} (error : (x.unmapWindow va i k).1 = .error e)
    (inside : Inside (x.unmapWindow va i k).2) :
    k ≠ 0 ∧ isIllegalVa (va + BitVec.ofNat 32 (i * 4096)) := by
  induction k generalizing x i with
  | zero => cases error
  | succ k ih =>
      refine ⟨Nat.succ_ne_zero k, ?_⟩
      rw [unmapWindow] at error inside
      by_contra legal
      rw [if_neg legal] at error inside
      have later := (ih error inside).2
      have before := ((inside_memUnmap legal).mp inside.of_unmapWindow).1
      have area := InArea.of_range before (by omega)
      have next : va + BitVec.ofNat 32 ((i + 1) * 4096) =
          va + BitVec.ofNat 32 (i * 4096) + 4096 := by
        rw [Nat.add_mul, BitVec.ofNat_add, ← BitVec.add_assoc]
        rfl
      rw [next] at later
      exact area.legal later

theorem pageCount_ne_zero : Client.pageCount f.fSize ≠ 0 ↔ f.fSize ≠ 0 := by
  rw [Client.pageCount, Ne, Ne, not_iff_not]
  constructor
  · intro none
    apply BitVec.eq_of_toNat_eq
    rw [show (0 : Word).toNat = 0 from rfl]
    omega
  · intro empty
    rw [empty]
    rfl

theorem confinedIf_some {α : Type} {known : Prop} {r : Except FileErr α × Space} :
    ConfinedIf known (some r) ↔ Confined known r := by
  constructor
  · exact fun confined => confined.2 r rfl
  · refine fun confined => ⟨fun never => absurd never (Option.some_ne_none r), fun s same => ?_⟩
    rw [← Option.some.inj same]
    exact confined

/-- Of a call that gives an error only the accesses matter. -/
theorem confined_error {α : Type} {known : Prop} {e : FileErr} :
    Confined known ((.error e, x) : Except FileErr α × Space) ↔ Inside x :=
  and_iff_right fun _ => ⟨e, rfl⟩

theorem confined_known {α : Type} {known : Prop} {r : Except FileErr α × Space} (yes : known) :
    Confined known r ↔ Inside r.2 :=
  and_iff_right fun no => absurd yes no

theorem not_confined_ok {α : Type} {known : Prop} {a : α} (no : ¬known) :
    ¬Confined known ((.ok a, x) : Except FileErr α × Space) := by
  rintro ⟨error, -⟩
  obtain ⟨e, wrong⟩ := error no
  cases wrong

theorem inside_closed_fd (fresh : x.touched = []) :
    Inside ((x.touch (index2fd n) 4096).memUnmap (index2fd n)) ↔ InArea (index2fd n) := by
  rw [← Inside.touched_fd fresh]
  constructor
  · exact Inside.of_memUnmap
  · intro inside
    exact (inside_unmap_again (inside_touch.mp inside).1).mpr inside

theorem devtab_iff {id : Word} :
    id ∈ devtab ↔ id = devfileId ∨ id = devconsId ∨ id = devpipeId := by
  simp [devtab]

theorem close_slot (fresh : x.touched = []) (slot : IsSlot n)
    (accepts : x.fdLookup n = some (index2fd n)) (found : x.fdAt (index2fd n) = some f) :
    ConfinedIf (IsSlot n) (x.close n granted) ↔ CloseFits x n granted := by
  have area := InArea.of_range (fd_inside slot) (by omega)
  have opened := (inside_closed_fd fresh).mpr area
  have looked := (Inside.touched_fd fresh).mpr area
  have no_file : f.fdDevId ≠ devfileId → CloseFits x n granted := by
    intro other g same file
    rw [fd_unique found same] at file
    exact absurd file other
  rw [close, accepts]
  simp only [found]
  by_cases file : f.fdDevId = devfileId
  · rw [if_pos file, fileClose]
    have fits_iff : CloseFits x n granted ↔ (f.fSize.toNat ≤ 0xfffff000 → granted = true →
        n.toNat * 1024 + Client.pageCount f.fSize ≤ 32768) := by
      constructor
      · exact fun fits => fits f found file
      · intro fits g same _
        rw [fd_unique found same]
        exact fits
    rw [fits_iff]
    by_cases large : 0xfffff000 < f.fSize.toNat
    · rw [if_pos large]
      refine iff_of_true ⟨fun _ => slot, fun r none => by cases none⟩ fun small => ?_
      omega
    · rw [if_neg large]
      cases granted with
      | false =>
          refine iff_of_true (confinedIf_some.mpr (confined_error.mpr opened)) fun _ no => ?_
          cases no
      | true =>
          have start : n.toNat * 1024 + 0 ≤ 32768 := by
            have lt : n.toNat < 32 := slot
            omega
          simp only [if_true, confinedIf_some]
          rw [confined_known slot, inside_memUnmap_fd slot, fd2data_index2fd slot,
            inside_unmapWindow slot start, and_iff_right looked, Nat.add_zero]
          constructor
          · exact fun fits _ _ => fits
          · exact fun fits => fits (by omega) trivial
  · rw [if_neg file]
    refine iff_of_true ?_ (no_file file)
    by_cases cons : f.fdDevId = devconsId
    · rw [if_pos cons, confinedIf_some, confined_known slot]
      exact opened
    · rw [if_neg cons]
      by_cases pipe : f.fdDevId = devpipeId
      · rw [if_pos pipe, confinedIf_some, confined_known slot, pipeClose]
        have data := data_inside slot (show 0 < 1024 by omega)
        rw [inside_memUnmap_fd slot, fd2data_index2fd slot, index2data_eq, inside_unmap_again data]
        exact opened
      · rw [if_neg pipe, confinedIf_some]
        exact confined_error.mpr looked

theorem close_other (fresh : x.touched = []) (unknown : ¬IsSlot n)
    (accepts : x.fdLookup n = some (index2fd n)) (found : x.fdAt (index2fd n) = some f) :
    ConfinedIf (IsSlot n) (x.close n granted) ↔ InArea (index2fd n) ∧ CloseFails x n granted := by
  have fails_iff : CloseFails x n granted ↔ f.fdDevId ∉ devtab ∨
      f.fdDevId = devfileId ∧ f.fSize.toNat ≤ 0xfffff000 ∧
        (granted = false ∨ f.fSize ≠ 0 ∧ isIllegalVa (fd2data (index2fd n))) := by
    constructor
    · rintro ⟨g, same, fails⟩
      rw [fd_unique found same] at fails
      exact fails
    · exact fun fails => ⟨f, found, fails⟩
  rw [fails_iff, close, accepts]
  simp only [found]
  by_cases file : f.fdDevId = devfileId
  · have listed : ¬f.fdDevId ∉ devtab := not_not_intro (devtab_iff.mpr (.inl file))
    rw [if_pos file, fileClose, or_iff_right listed, and_iff_right file]
    by_cases large : 0xfffff000 < f.fSize.toNat
    · rw [if_pos large]
      refine iff_of_false (fun confined => unknown (confined.1 rfl)) ?_
      rintro ⟨-, small, -⟩
      omega
    · rw [if_neg large, and_iff_right (show f.fSize.toNat ≤ 0xfffff000 by omega)]
      cases granted with
      | false =>
          simp only [Bool.false_eq_true, if_false, confinedIf_some, true_or, and_true]
          rw [confined_error, inside_closed_fd fresh]
      | true =>
          simp only [if_true, confinedIf_some, Bool.true_eq_false, false_or]
          have start : fd2data (index2fd n) + BitVec.ofNat 32 (0 * 4096) = fd2data (index2fd n) :=
            BitVec.add_zero _
          constructor
          · rintro ⟨error, inside⟩
            obtain ⟨e, error⟩ := error unknown
            have window := inside.of_memUnmap
            obtain ⟨some, illegal⟩ := unmapWindow_fails error window
            rw [start] at illegal
            exact ⟨(Inside.touched_fd fresh).mp window.of_unmapWindow, pageCount_ne_zero.mp some,
              illegal⟩
          · rintro ⟨area, some, illegal⟩
            obtain ⟨m, count⟩ := Nat.exists_eq_succ_of_ne_zero (pageCount_ne_zero.mpr some)
            rw [count, unmapWindow, start, if_pos illegal]
            exact confined_error.mpr ((inside_closed_fd fresh).mpr area)
  · rw [if_neg file]
    by_cases cons : f.fdDevId = devconsId
    · rw [if_pos cons, confinedIf_some]
      refine iff_of_false (not_confined_ok unknown) ?_
      rintro ⟨-, unlisted | ⟨dev, -⟩⟩
      · exact unlisted (devtab_iff.mpr (.inr (.inl cons)))
      · exact file dev
    · rw [if_neg cons]
      by_cases pipe : f.fdDevId = devpipeId
      · rw [if_pos pipe, confinedIf_some]
        refine iff_of_false (not_confined_ok unknown) ?_
        rintro ⟨-, unlisted | ⟨dev, -⟩⟩
        · exact unlisted (devtab_iff.mpr (.inr (.inr pipe)))
        · exact file dev
      · have unlisted : f.fdDevId ∉ devtab := by
          rw [devtab_iff]
          rintro (dev | dev | dev)
          · exact file dev
          · exact cons dev
          · exact pipe dev
        rw [if_neg pipe, confinedIf_some, confined_error, Inside.touched_fd fresh]
        exact (and_iff_left (.inl unlisted)).symm

theorem close_confined (fresh : x.touched = []) :
    ConfinedIf (IsSlot n) (x.close n granted) ↔
      Keeps x n (CloseFits x n granted) (CloseFails x n granted) := by
  rcases lookup_cases x n with ⟨refused, none⟩ | ⟨accepts, looked, f, found⟩
  · rw [close, none, confinedIf_some]
    exact iff_of_true (Confined.of_fresh fresh) (.inl refused)
  · exact keeps_iff accepts (fun slot => close_slot fresh slot looked found)
      (fun unknown => close_other fresh unknown looked found)

/-! ## `read` and `write` -/

section Transfer

variable {refused len : Word} {move : Space → Word → Filefd → Except FileErr Word × Space}

theorem inside_advance (slot : IsSlot n) (r : Except FileErr Word) :
    Inside (x.advance (index2fd n) r) ↔ Inside x := by
  cases r with
  | error e => exact Iff.rfl
  | ok got =>
      rw [advance]
      split
      · exact Iff.rfl
      · split
        · exact inside_setFd slot
        · exact Iff.rfl

theorem transfer_slot (fresh : x.touched = []) (slot : IsSlot n)
    (looked : x.fdLookup n = some (index2fd n)) (found : x.fdAt (index2fd n) = some f) :
    Confined (IsSlot n) (x.transfer n refused move) ↔
      (f.fdDevId ∈ devtab → f.fdOmode &&& oAccmode ≠ refused →
        Inside (move (x.touch (index2fd n) 4096) (index2fd n) f).2) := by
  have area := InArea.of_range (fd_inside slot) (by omega)
  have touched := (Inside.touched_fd fresh).mpr area
  rw [transfer, looked, confined_known slot]
  simp only [found]
  by_cases listed : f.fdDevId ∈ devtab
  · rw [if_neg (not_not_intro listed)]
    by_cases mode : f.fdOmode &&& oAccmode = refused
    · rw [if_pos mode]
      exact iff_of_true touched fun _ other => absurd mode other
    · rw [if_neg mode, inside_advance slot]
      exact ⟨fun inside _ _ => inside, fun inside => inside listed mode⟩
  · rw [if_pos listed]
    exact iff_of_true touched fun other => absurd other listed

theorem transfer_other (fresh : x.touched = []) (unknown : ¬IsSlot n)
    (looked : x.fdLookup n = some (index2fd n)) (found : x.fdAt (index2fd n) = some f) :
    Confined (IsSlot n) (x.transfer n refused move) ↔
      if f.fdDevId ∉ devtab ∨ f.fdOmode &&& oAccmode = refused then InArea (index2fd n)
      else Confined (IsSlot n) (move (x.touch (index2fd n) 4096) (index2fd n) f) := by
  have touched := Inside.touched_fd (n := n) fresh
  rw [transfer, looked]
  simp only [found]
  by_cases unlisted : f.fdDevId ∉ devtab
  · rw [if_pos unlisted, if_pos (.inl unlisted), confined_error]
    exact touched
  · rw [if_neg unlisted]
    by_cases mode : f.fdOmode &&& oAccmode = refused
    · rw [if_pos mode, if_pos (.inr mode), confined_error]
      exact touched
    · rw [if_neg mode, if_neg (not_or.mpr ⟨unlisted, mode⟩)]
      generalize move (x.touch (index2fd n) 4096) (index2fd n) f = moved
      obtain ⟨_ | r, y⟩ := moved
      · exact Iff.rfl
      · exact iff_of_false (not_confined_ok unknown) (not_confined_ok unknown)

/-- The pages are in the window of the descriptor. -/
theorem inside_mapWindow (slot : IsSlot n) (inside : i + k ≤ 1024) :
    Inside (x.mapWindow (index2data n) w i k).2 ↔ Inside x := by
  induction k generalizing x i with
  | zero => exact Iff.rfl
  | succ k ih =>
      rw [mapWindow]
      split
      · exact Iff.rfl
      · rw [ih (by omega)]
        exact (inside_cons rfl).trans (and_iff_right (data_inside slot (show i < 1024 by omega)))

theorem mapWindow_done :
    (x.mapWindow va w i k).1 = true ↔ ∀ j, i ≤ j → j < i + k → (w.block j).isSome := by
  induction k generalizing x i with
  | zero => exact iff_of_true rfl fun j low high => by omega
  | succ k ih =>
      rw [mapWindow]
      cases sent : w.block i with
      | none =>
          refine iff_of_false Bool.false_ne_true fun all => ?_
          have here := all i (Nat.le_refl i) (by omega)
          rw [sent] at here
          cases here
      | some p =>
          refine ih.trans ⟨fun all j low high => ?_,
            fun all j low high => all j (by omega) (by omega)⟩
          rcases Nat.eq_or_lt_of_le low with rfl | after
          · rw [sent]
            rfl
          · exact all j after (by omega)

theorem roundPages_le {old size : Word} (grows : old < size) (bounded : size.toNat ≤ maxFileSize) :
    Client.roundPages old ≤ Client.roundPages size ∧ Client.roundPages size ≤ 1024 := by
  have less : old.toNat < size.toNat := BitVec.lt_def.mp grows
  have page : (4095 : Word).toNat = 4095 := rfl
  unfold maxFileSize at bounded
  rw [Client.roundPages, Client.roundPages, BitVec.toNat_add, BitVec.toNat_add, page]
  omega

/-- A file that grows within the maximal size only touches its own window. -/
theorem ftruncate_grows {size : Word} (slot : IsSlot n) (found : x.fdAt (index2fd n) = some f)
    (file : f.fdDevId = devfileId) (grows : f.fSize < size) (bounded : size.toNat ≤ maxFileSize) :
    (Inside (x.ftruncate n size w).2 ↔ Inside x) ∧
      (Grows f size w → (x.ftruncate n size w).1 = .ok ()) ∧
      (¬Grows f size w → ∃ e, (x.ftruncate n size w).1 = .error e) := by
  obtain ⟨order, last⟩ := roundPages_le grows bounded
  have looked : x.fdLookup n = some (index2fd n) := by
    rw [fdLookup_slot slot, if_pos (mapped_of_fdAt found)]
  have upto : Client.roundPages f.fSize + (Client.roundPages size - Client.roundPages f.fSize) =
      Client.roundPages size := by omega
  rw [ftruncate, if_neg (by omega), looked]
  simp only [found]
  rw [if_neg (not_not_intro file), Grows]
  cases w.granted with
  | false =>
      rw [if_pos rfl]
      exact ⟨inside_setFd slot, fun both => absurd both.1 Bool.false_ne_true, fun _ => ⟨_, rfl⟩⟩
  | true =>
      have window := inside_mapWindow (x := x.setFd (index2fd n) { f with fSize := size }) (w := w)
        slot (upto.trans_le last)
      have done : ((x.setFd (index2fd n) { f with fSize := size }).mapWindow (index2data n) w
          (Client.roundPages f.fSize) (Client.roundPages size - Client.roundPages f.fSize)).1 =
            true ↔ _ := mapWindow_done
      rw [if_neg Bool.false_ne_true.symm, fd2data_index2fd slot]
      rw [upto] at done
      rw [inside_setFd slot] at window
      rw [and_iff_right rfl, ← done, Nat.sub_eq_zero_of_le order]
      generalize mapWindow _ (index2data n) w _ _ = result at window
      obtain ⟨_ | _, y⟩ := result
      · exact ⟨window, fun no => absurd no Bool.false_ne_true, fun _ => ⟨_, rfl⟩⟩
      · exact ⟨window, fun _ => rfl, fun no => absurd rfl no⟩

theorem inside_pipeMove (slot : IsSlot n) :
    Inside (x.pipeMove (index2fd n) len w).2 ↔ Inside x := by
  rw [pipeMove]
  split
  · exact Iff.rfl
  · rw [fd2data_index2fd slot, index2data_eq]
    exact inside_touch.trans (and_iff_right (data_inside slot (by omega)))

theorem not_confined_pipeMove {known : Prop} (no : ¬known) :
    ¬Confined known (x.pipeMove va len w) := by
  rw [pipeMove]
  split
  · exact not_confined_ok no
  · exact not_confined_ok no

theorem confined_cons (fresh : x.touched = []) (unknown : ¬IsSlot n) :
    Confined (IsSlot n) (w.cons, x.touch (index2fd n) 4096) ↔
      InArea (index2fd n) ∧ ∃ e, w.cons = .error e := by
  rw [and_comm]
  exact and_congr ⟨fun error => error unknown, fun error _ => error⟩ (Inside.touched_fd fresh)

theorem read_slot (fresh : x.touched = []) (slot : IsSlot n)
    (looked : x.fdLookup n = some (index2fd n)) (found : x.fdAt (index2fd n) = some f) :
    Confined (IsSlot n) (x.read n len w) ↔ ReadFits x n len := by
  have area := InArea.of_range (fd_inside slot) (by omega)
  have touched := (Inside.touched_fd fresh).mpr area
  rw [read, transfer_slot fresh slot looked found]
  by_cases file : f.fdDevId = devfileId
  · have fits_iff : ReadFits x n len ↔ (f.fdOmode &&& oAccmode ≠ oWronly →
        f.fdOffset ≤ f.fSize →
          RangeInside (index2data n + f.fdOffset) (readLen f len f.fdOffset).toNat) := by
      constructor
      · exact fun fits => fits f found file
      · intro fits g same _
        rw [fd_unique found same]
        exact fits
    rw [fits_iff, imp_iff_right (devtab_iff.mpr (.inl file))]
    apply imp_congr_right
    intro _
    rw [devRead, if_pos file, fileRead]
    by_cases past : f.fSize < f.fdOffset
    · rw [if_pos past]
      exact iff_of_true touched fun within => absurd past (BitVec.not_lt.mpr within)
    · rw [if_neg past, imp_iff_right (BitVec.not_lt.mp past), inside_touch, and_iff_left touched,
        fd2data_index2fd slot]
  · refine iff_of_true (fun _ _ => ?_) fun g same dev => ?_
    · rw [devRead, if_neg file]
      split
      · exact touched
      · exact (inside_pipeMove slot).mpr touched
    · rw [fd_unique found same] at dev
      exact absurd dev file

theorem read_other (fresh : x.touched = []) (unknown : ¬IsSlot n)
    (looked : x.fdLookup n = some (index2fd n)) (found : x.fdAt (index2fd n) = some f) :
    Confined (IsSlot n) (x.read n len w) ↔ InArea (index2fd n) ∧ ReadFails x n w := by
  have fails_iff : ReadFails x n w ↔ (f.fdDevId ∉ devtab ∨ f.fdOmode &&& oAccmode = oWronly) ∨
      f.fdDevId = devconsId ∧ ∃ e, w.cons = .error e := by
    rw [or_assoc]
    constructor
    · rintro ⟨g, same, fails⟩
      rw [fd_unique found same] at fails
      exact fails
    · exact fun fails => ⟨f, found, fails⟩
  rw [read, transfer_other fresh unknown looked found, fails_iff]
  by_cases early : f.fdDevId ∉ devtab ∨ f.fdOmode &&& oAccmode = oWronly
  · rw [if_pos early]
    exact (and_iff_left (.inl early)).symm
  · rw [if_neg early, or_iff_right early, devRead]
    by_cases file : f.fdDevId = devfileId
    · have not_cons : f.fdDevId ≠ devconsId := by
        rw [file]
        exact cons_ne_file.symm
      rw [if_pos file, fileRead]
      refine iff_of_false ?_ fun both => not_cons both.2.1
      split
      · exact not_confined_ok unknown
      · exact not_confined_ok unknown
    · rw [if_neg file]
      by_cases cons : f.fdDevId = devconsId
      · rw [if_pos cons, and_iff_right cons]
        exact confined_cons fresh unknown
      · rw [if_neg cons]
        exact iff_of_false (not_confined_pipeMove unknown) fun both => cons both.2.1

theorem write_slot (fresh : x.touched = []) (slot : IsSlot n)
    (looked : x.fdLookup n = some (index2fd n)) (found : x.fdAt (index2fd n) = some f) :
    Confined (IsSlot n) (x.write n len w) ↔ WriteFits x n len w := by
  have area := InArea.of_range (fd_inside slot) (by omega)
  have touched := (Inside.touched_fd fresh).mpr area
  rw [write, transfer_slot fresh slot looked found]
  by_cases file : f.fdDevId = devfileId
  · have fits_iff : WriteFits x n len w ↔ (f.fdOmode &&& oAccmode ≠ oRdonly →
        (f.fdOffset + len).toNat ≤ maxFileSize →
        (f.fSize < f.fdOffset + len → Grows f (f.fdOffset + len) w) →
          RangeInside (index2data n + f.fdOffset) len.toNat) := by
      constructor
      · exact fun fits => fits f found file
      · intro fits g same _
        rw [fd_unique found same]
        exact fits
    rw [fits_iff, imp_iff_right (devtab_iff.mpr (.inl file))]
    apply imp_congr_right
    intro _
    rw [devWrite, if_pos file, fileWrite, fd2num_index2fd slot, fd2data_index2fd slot]
    by_cases large : maxFileSize < (f.fdOffset + len).toNat
    · rw [if_pos large]
      exact iff_of_true touched fun small => absurd large (Nat.not_lt.mpr small)
    · rw [if_neg large, imp_iff_right (Nat.not_lt.mp large)]
      by_cases longer : f.fSize < f.fdOffset + len
      · rw [if_pos longer, imp_iff_right longer]
        obtain ⟨inside, grown, refused⟩ :=
          ftruncate_grows (x := x.touch (index2fd n) 4096) (w := w) slot found file longer
            (Nat.not_lt.mp large)
        by_cases grows : Grows f (f.fdOffset + len) w
        · simp only [grown grows]
          rw [inside_touch, and_iff_left (inside.mpr touched), imp_iff_right grows]
        · obtain ⟨e, error⟩ := refused grows
          simp only [error]
          exact iff_of_true (inside.mpr touched) fun may => absurd may grows
      · rw [if_neg longer, imp_iff_right fun yes => absurd yes longer]
        exact inside_touch.trans (and_iff_left touched)
  · refine iff_of_true (fun _ _ => ?_) fun g same dev => ?_
    · rw [devWrite, if_neg file]
      split
      · exact touched
      · exact (inside_pipeMove slot).mpr touched
    · rw [fd_unique found same] at dev
      exact absurd dev file

/-- The number an `Fd` has is at most 20 bits long, and leads back to it. -/
theorem fd2num_index2fd_lt (n : Word) : (fd2num (index2fd n)).toNat < 2 ^ 20 := by
  rw [fd2num_toNat]
  omega

theorem index2fd_fd2num (n : Word) : index2fd (fd2num (index2fd n)) = index2fd n := by
  apply BitVec.eq_of_toNat_eq
  rw [index2fd_mod, fd2num_toNat, index2fd_mod]
  omega

/-- Beyond the table `ftruncate` refuses the number that `fd2num` gives it. -/
theorem fdLookup_fd2num (beyond : ¬IsSlot (fd2num (index2fd n))) :
    x.fdLookup (fd2num (index2fd n)) = none := by
  have short := fd2num_index2fd_lt n
  rw [IsSlot] at beyond
  have large : (maxfd : Int) ≤ (fd2num (index2fd n)).toInt := by
    rw [BitVec.toInt_eq_toNat_cond]
    unfold maxfd at *
    omega
  rw [fdLookup, if_pos large]

theorem fileWrite_other (fresh : x.touched = []) (unknown : ¬IsSlot n)
    (found : x.fdAt (index2fd n) = some f) (file : f.fdDevId = devfileId) :
    Confined (IsSlot n) ((x.touch (index2fd n) 4096).fileWrite (index2fd n) f len offset w) ↔
      InArea (index2fd n) ∧ (maxFileSize < (offset + len).toNat ∨ f.fSize < offset + len ∧
        (¬IsSlot (fd2num (index2fd n)) ∨ ¬Grows f (offset + len) w)) := by
  have touched := Inside.touched_fd (n := n) fresh
  rw [fileWrite]
  by_cases large : maxFileSize < (offset + len).toNat
  · rw [if_pos large, confined_error, touched]
    exact (and_iff_left (.inl large)).symm
  · rw [if_neg large, or_iff_right large]
    by_cases longer : f.fSize < offset + len
    · rw [if_pos longer, and_iff_right longer]
      by_cases known : IsSlot (fd2num (index2fd n))
      · have back := index2fd_fd2num n
        rw [← back] at found
        obtain ⟨inside, grown, refused⟩ :=
          ftruncate_grows (x := x.touch (index2fd n) 4096) (w := w) known found file longer
            (Nat.not_lt.mp large)
        rw [or_iff_right (not_not_intro known)]
        by_cases grows : Grows f (offset + len) w
        · simp only [grown grows]
          exact iff_of_false (not_confined_ok unknown) fun both => both.2 grows
        · obtain ⟨e, error⟩ := refused grows
          simp only [error]
          rw [confined_error, inside, touched]
          exact (and_iff_left grows).symm
      · have refuses :
            (x.touch (index2fd n) 4096).ftruncate (fd2num (index2fd n)) (offset + len) w =
              (.error .inval, x.touch (index2fd n) 4096) := by
          rw [ftruncate, if_neg large, fdLookup_fd2num known]
        simp only [refuses]
        rw [confined_error, touched]
        exact (and_iff_left (.inl known)).symm
    · rw [if_neg longer]
      exact iff_of_false (not_confined_ok unknown) fun both => longer both.2.1

theorem write_other (fresh : x.touched = []) (unknown : ¬IsSlot n)
    (looked : x.fdLookup n = some (index2fd n)) (found : x.fdAt (index2fd n) = some f) :
    Confined (IsSlot n) (x.write n len w) ↔ InArea (index2fd n) ∧ WriteFails x n len w := by
  have fails_iff : WriteFails x n len w ↔
      (f.fdDevId ∉ devtab ∨ f.fdOmode &&& oAccmode = oRdonly) ∨
      (f.fdDevId = devconsId ∧ (∃ e, w.cons = .error e) ∨
      f.fdDevId = devfileId ∧ (maxFileSize < (f.fdOffset + len).toNat ∨
        f.fSize < f.fdOffset + len ∧
          (¬IsSlot (fd2num (index2fd n)) ∨ ¬Grows f (f.fdOffset + len) w))) := by
    rw [or_assoc]
    constructor
    · rintro ⟨g, same, fails⟩
      rw [fd_unique found same] at fails
      exact fails
    · exact fun fails => ⟨f, found, fails⟩
  rw [write, transfer_other fresh unknown looked found, fails_iff]
  by_cases early : f.fdDevId ∉ devtab ∨ f.fdOmode &&& oAccmode = oRdonly
  · rw [if_pos early]
    exact (and_iff_left (.inl early)).symm
  · rw [if_neg early, or_iff_right early, devWrite]
    by_cases file : f.fdDevId = devfileId
    · have not_cons : f.fdDevId ≠ devconsId := by
        rw [file]
        exact cons_ne_file.symm
      rw [if_pos file, and_iff_right file, or_iff_right fun both => not_cons both.1]
      exact fileWrite_other fresh unknown found file
    · rw [if_neg file, or_iff_left fun both => file both.1]
      by_cases cons : f.fdDevId = devconsId
      · rw [if_pos cons, and_iff_right cons]
        exact confined_cons fresh unknown
      · rw [if_neg cons]
        exact iff_of_false (not_confined_pipeMove unknown) fun both => cons both.2.1

theorem write_confined (fresh : x.touched = []) :
    Confined (IsSlot n) (x.write n len w) ↔
      Keeps x n (WriteFits x n len w) (WriteFails x n len w) := by
  rcases lookup_cases x n with ⟨refused, none⟩ | ⟨accepts, looked, f, found⟩
  · rw [write, transfer, none]
    exact iff_of_true (Confined.of_fresh fresh) (.inl refused)
  · exact keeps_iff accepts (fun slot => write_slot fresh slot looked found)
      (fun unknown => write_other fresh unknown looked found)

theorem read_confined (fresh : x.touched = []) :
    Confined (IsSlot n) (x.read n len w) ↔ Keeps x n (ReadFits x n len) (ReadFails x n w) := by
  rcases lookup_cases x n with ⟨refused, none⟩ | ⟨accepts, looked, f, found⟩
  · rw [read, transfer, none]
    exact iff_of_true (Confined.of_fresh fresh) (.inl refused)
  · exact keeps_iff accepts (fun slot => read_slot fresh slot looked found)
      (fun unknown => read_other fresh unknown looked found)

end Transfer

/-! ## `fstat` -/

theorem next_byte (src : Word) (i : Nat) :
    src + 1 + BitVec.ofNat 32 i = src + BitVec.ofNat 32 (i + 1) := by
  rw [Nat.add_comm i, BitVec.ofNat_add, ← BitVec.add_assoc]
  rfl

/-- A copy that does not run into what it has written ends with the string. -/
theorem strcpyCopies_le {dst src : Word} {fuel : Nat} (small : i < 2 ^ 32)
    (ends : mem (src + BitVec.ofNat 32 i) = 0)
    (apart : ¬(0 < (dst - src).toNat ∧ (dst - src).toNat ≤ i)) :
    strcpyCopies mem dst src fuel ≤ i + 1 := by
  induction i generalizing mem dst src fuel with
  | zero =>
      have same : src + BitVec.ofNat 32 0 = src := BitVec.add_zero _
      rw [same] at ends
      cases fuel with
      | zero => exact Nat.zero_le _
      | succ fuel => rw [strcpyCopies, if_pos ends]
  | succ i ih =>
      cases fuel with
      | zero => exact Nat.zero_le _
      | succ fuel =>
          rw [strcpyCopies]
          split
          · omega
          · have shift : dst + 1 - (src + 1) = dst - src := by bv_omega
            have kept : src + BitVec.ofNat 32 (i + 1) ≠ dst := by
              rintro rfl
              have dist : (src + BitVec.ofNat 32 (i + 1) - src).toNat = i + 1 := by
                rw [BitVec.add_comm, BitVec.add_sub_cancel, BitVec.toNat_ofNat,
                  Nat.mod_eq_of_lt small]
              exact apart (by omega)
            apply Nat.succ_le_succ
            apply ih (Nat.lt_of_succ_lt small)
            · rw [next_byte, Function.update_of_ne kept]
              exact ends
            · rw [shift]
              omega

/-- Whatever it runs into, it copies as many bytes as the string has and one more. -/
theorem strcpyCopies_next {dst src : Word} (goes_on : ∀ i < k, mem (src + BitVec.ofNat 32 i) ≠ 0) :
    strcpyCopies mem dst src (k + 1) = k + 1 := by
  induction k generalizing mem dst src with
  | zero => rw [strcpyCopies, strcpyCopies, ite_self]
  | succ k ih =>
      have same : src + BitVec.ofNat 32 0 = src := BitVec.add_zero _
      have first := goes_on 0 (by omega)
      rw [same] at first
      rw [strcpyCopies, if_neg first, ih]
      intro i below
      rw [next_byte, Function.update_apply]
      split
      · exact first
      · exact goes_on (i + 1) (by omega)

/-- A copy into the string itself, further on, never ends. -/
theorem strcpyCopies_overlap {src : Word} {fuel : Nat} (pos : 0 < k)
    (goes_on : ∀ i < k, mem (src + BitVec.ofNat 32 i) ≠ 0) :
    strcpyCopies mem (src + BitVec.ofNat 32 k) src fuel = fuel := by
  induction fuel generalizing mem src with
  | zero => rfl
  | succ fuel ih =>
      have same : src + BitVec.ofNat 32 0 = src := BitVec.add_zero _
      have first := goes_on 0 pos
      rw [same] at first
      have next : src + BitVec.ofNat 32 k + 1 = src + 1 + BitVec.ofNat 32 k := by
        rw [BitVec.add_assoc, BitVec.add_assoc, BitVec.add_comm (BitVec.ofNat 32 k)]
      rw [strcpyCopies, if_neg first, next, ih]
      intro i below
      rw [next_byte, Function.update_apply]
      split
      · exact first
      · case isFalse other =>
          rcases Nat.lt_or_ge (i + 1) k with lower | last
          · exact goes_on (i + 1) lower
          · exact absurd (by rw [show i + 1 = k by omega]) other

theorem RangeInside.mono {len' : Nat} (inside : RangeInside va len) (le : len' ≤ len) :
    RangeInside va len' := fun i below => inside i (Nat.lt_of_lt_of_le below le)

theorem name_addr (slot : IsSlot n) :
    (index2fd n + 16).toNat = 0x5fc00000 + n.toNat * 4096 + 16 := by
  have lt : n.toNat < 32 := slot
  have head : (16 : Word).toNat = 16 := rfl
  rw [BitVec.toNat_add, index2fd_toNat slot, head]
  omega

/-- The whole copy stays in the table and in the struct just if the name fits. -/
theorem name_inside (slot : IsSlot n) :
    (∀ fuel, RangeInside (index2fd n + 16) (strcpyCopies mem stat (index2fd n + 16) fuel) ∧
      RangeInside (stat + 140) (strcpyCopies mem stat (index2fd n + 16) fuel - statSize)) ↔
      NameFits n stat (index2fd n + 16) mem := by
  have lt : n.toNat < 32 := slot
  have addr := name_addr slot
  obtain ⟨left, length⟩ : ∃ left, n.toNat * 4096 + 16 + left = 0x20000 :=
    ⟨0x20000 - (n.toNat * 4096 + 16), by omega⟩
  constructor
  · intro inside
    -- the first byte behind the table is never read
    have stops : strcpyCopies mem stat (index2fd n + 16) (left + 1) ≠ left + 1 := by
      intro reads
      have behind := (inside (left + 1)).1 left (by omega)
      rw [InArea, BitVec.toNat_add, BitVec.toNat_ofNat, addr] at behind
      omega
    have ends : ∃ i, i < left ∧ mem (index2fd n + 16 + BitVec.ofNat 32 i) = 0 := by
      by_contra never
      push Not at never
      exact stops (strcpyCopies_next never)
    obtain ⟨within, zero⟩ := Nat.find_spec ends
    have chars : ∀ i < Nat.find ends, mem (index2fd n + 16 + BitVec.ofNat 32 i) ≠ 0 := by
      intro i below zero
      exact Nat.find_min ends below ⟨below.trans within, zero⟩
    refine ⟨Nat.find ends, by omega, zero, ?_, ?_⟩
    · rintro ⟨ahead, near⟩
      have at_dist : index2fd n + 16 + BitVec.ofNat 32 (stat - (index2fd n + 16)).toNat = stat := by
        rw [BitVec.ofNat_toNat, BitVec.setWidth_eq, BitVec.add_comm, BitVec.sub_add_cancel]
      apply stops
      have forever := @strcpyCopies_overlap _ mem (index2fd n + 16) (left + 1) ahead fun i below =>
        chars i (Nat.lt_of_lt_of_le below near)
      rwa [at_dist] at forever
    · have copied := (inside (Nat.find ends + 1)).2
      rwa [strcpyCopies_next chars] at copied
  · rintro ⟨i, within, ends, apart, behind⟩ fuel
    have copies : strcpyCopies mem stat (index2fd n + 16) fuel ≤ i + 1 :=
      strcpyCopies_le (by omega) ends apart
    exact ⟨rangeInside_of_toNat addr (.inl (by omega)),
      behind.mono (Nat.sub_le_sub_right copies _)⟩

theorem fstat_slot (fresh : x.touched = []) (slot : IsSlot n)
    (looked : x.fdLookup n = some (index2fd n)) (found : x.fdAt (index2fd n) = some f) :
    (∀ fuel, Confined (IsSlot n) (x.fstat n stat mem fuel)) ↔ FstatFits x n stat mem := by
  have area := InArea.of_range (fd_inside slot) (by omega)
  have touched := (Inside.touched_fd fresh).mpr area
  simp only [confined_known slot, fstat, looked, found]
  by_cases file : f.fdDevId = devfileId
  · have fits_iff : FstatFits x n stat mem ↔ NameFits n stat (index2fd n + 16) mem := by
      constructor
      · exact fun fits => fits f found file
      · exact fun fits _ _ _ => fits
    rw [fits_iff, ← name_inside slot]
    apply forall_congr'
    intro fuel
    rw [if_neg (not_not_intro (devtab_iff.mpr (.inl file))), if_pos file, inside_touch,
      inside_touch, and_iff_left touched]
    exact and_comm
  · refine iff_of_true (fun fuel => ?_) fun g same dev => ?_
    · split
      · exact touched
      · exact touched
    · rw [fd_unique found same] at dev
      exact absurd dev file

theorem fstat_other (fresh : x.touched = []) (unknown : ¬IsSlot n)
    (looked : x.fdLookup n = some (index2fd n)) (found : x.fdAt (index2fd n) = some f) :
    (∀ fuel, Confined (IsSlot n) (x.fstat n stat mem fuel)) ↔
      InArea (index2fd n) ∧ FstatFails x n := by
  have fails_iff : FstatFails x n ↔ f.fdDevId ∉ devtab := by
    constructor
    · rintro ⟨g, same, fails⟩
      rw [fd_unique found same] at fails
      exact fails
    · exact fun fails => ⟨f, found, fails⟩
  simp only [fails_iff, fstat, looked, found]
  by_cases unlisted : f.fdDevId ∉ devtab
  · simp only [if_pos unlisted, confined_error, Inside.touched_fd fresh, and_iff_left unlisted,
      forall_const]
  · refine iff_of_false (fun confined => ?_) fun both => unlisted both.2
    have once := confined 0
    rw [if_neg unlisted] at once
    split at once
    · exact not_confined_ok unknown once
    · exact not_confined_ok unknown once

theorem fstat_confined (fresh : x.touched = []) :
    (∀ fuel, Confined (IsSlot n) (x.fstat n stat mem fuel)) ↔
      Keeps x n (FstatFits x n stat mem) (FstatFails x n) := by
  rcases lookup_cases x n with ⟨refused, none⟩ | ⟨accepts, looked, f, found⟩
  · refine iff_of_true (fun fuel => ?_) (.inl refused)
    rw [fstat, none]
    exact Confined.of_fresh fresh
  · exact keeps_iff accepts (fun slot => fstat_slot fresh slot looked found)
      (fun unknown => fstat_other fresh unknown looked found)

/-! ## `dup` -/

section Dup

variable {old new : Word}

theorem inside_memMap {src dst perm : Word} {y : Space} (maps : x.memMap src dst perm = some y)
    (from_here : RangeInside src 4096) (to_here : RangeInside dst 4096) :
    Inside y ↔ Inside x := by
  rw [memMap] at maps
  split at maps
  · cases maps
  · split at maps
    · cases maps
    · rw [← Option.some.inj maps]
      refine (inside_cons (x := x.touch src 4096) rfl).trans ?_
      rw [and_iff_right to_here, inside_touch, and_iff_right from_here]

theorem memMap_touches {src dst perm : Word} {y : Space} (maps : x.memMap src dst perm = some y)
    (inside : Inside y) : RangeInside dst 4096 := by
  rw [memMap] at maps
  split at maps
  · cases maps
  · split at maps
    · cases maps
    · rw [← Option.some.inj maps] at inside
      exact ((inside_cons (x := x.touch src 4096) rfl).mp inside).1

theorem inside_dupPages (old_slot : IsSlot old) (slot : IsSlot new) (inside : j + k ≤ 1024) :
    Inside (x.dupPages (index2data old) (index2data new) j k).2 ↔ Inside x := by
  induction k generalizing x j with
  | zero => exact Iff.rfl
  | succ k ih =>
      rw [dupPages]
      split
      · exact ih (by omega)
      · split
        · exact Iff.rfl
        · rename_i maps
          rw [ih (by omega)]
          exact inside_memMap maps (data_inside old_slot (show j < 1024 by omega))
            (data_inside slot (show j < 1024 by omega))

theorem inside_undupPages (slot : IsSlot new) (inside : j + k ≤ 1024) :
    Inside (x.undupPages (index2data new) j k) ↔ Inside x := by
  induction k generalizing x j with
  | zero => exact Iff.rfl
  | succ k ih =>
      rw [undupPages, ih (by omega)]
      exact inside_unmap_again (data_inside slot (show j < 1024 by omega))

/-- `dup` accepts two numbers of the table, and closing the new one stays in the windows. -/
def DupKeeps (x : Space) (old new : Word) (granted : Bool) : Prop :=
  ¬Accepts x old ∨ IsSlot old ∧ IsSlot new ∧ (Accepts x new → CloseFits x new granted)

theorem dup_slots (old_slot : IsSlot old) (slot : IsSlot new)
    (looked : x.fdLookup old = some (index2fd old)) :
    ConfinedIf (IsSlot old ∧ IsSlot new) (x.dup old new granted) ↔
      ConfinedIf (IsSlot new) (x.close new granted) := by
  rw [dup, looked]
  cases x.close new granted with
  | none =>
      refine iff_of_true ⟨fun _ => ⟨old_slot, slot⟩, fun r no => ?_⟩ ⟨fun _ => slot, fun r no => ?_⟩
      · cases no
      · cases no
  | some closed =>
      rw [confinedIf_some, confined_known slot]
      have pages := inside_dupPages (x := closed.2) old_slot slot (show 0 + 1024 ≤ 1024 by omega)
      simp only [fd2data_index2fd old_slot, fd2data_index2fd slot]
      generalize closed.2.dupPages (index2data old) (index2data new) 0 1024 = mapped at pages
      have failed : Inside (undupPages (mapped.2.memUnmap (index2fd new)) (index2data new) 0 1024) ↔
          Inside closed.2 := by
        rw [inside_undupPages slot (by omega), inside_memUnmap_fd slot, pages]
      generalize undupPages (mapped.2.memUnmap (index2fd new)) (index2data new) 0 1024 = undone
        at failed
      split
      · split
        · rw [confinedIf_some, confined_known ⟨old_slot, slot⟩]
          exact failed
        · split
          · rw [confinedIf_some, confined_known ⟨old_slot, slot⟩]
            exact failed
          · rename_i maps
            rw [confinedIf_some, confined_known ⟨old_slot, slot⟩, ← pages]
            exact inside_memMap maps (fd_inside old_slot) (fd_inside slot)
      · rw [confinedIf_some, confined_known ⟨old_slot, slot⟩]
        exact failed

theorem Inside.of_undupPages (inside : Inside (x.undupPages va j k)) : Inside x := by
  induction k generalizing x j with
  | zero => exact inside
  | succ k ih =>
      rw [undupPages] at inside
      exact (ih inside).of_memUnmap

/-- Whether it succeeds or not, `dup` touches the page of the new `Fd`, if there can be one. -/
theorem dup_touches {r : Except FileErr Word × Space}
    (looked : x.fdLookup old = some (index2fd old))
    (result : x.dup old new granted = some r) (inside : Inside r.2) :
    isIllegalVa (index2fd new) ∨ InArea (index2fd new) := by
  by_cases illegal : isIllegalVa (index2fd new)
  · exact .inl illegal
  right
  rw [← fd_area]
  rw [dup, looked] at result
  cases closes : x.close new granted with
  | none =>
      rw [closes] at result
      cases result
  | some closed =>
      rw [closes] at result
      simp only at result
      generalize closed.2.dupPages (fd2data (index2fd old)) (fd2data (index2fd new)) 0 1024 = mapped
        at result
      have failed : Inside (undupPages (mapped.2.memUnmap (index2fd new))
          (fd2data (index2fd new)) 0 1024) → RangeInside (index2fd new) 4096 :=
        fun undone => ((inside_memUnmap illegal).mp undone.of_undupPages).1
      generalize undupPages (mapped.2.memUnmap (index2fd new)) (fd2data (index2fd new)) 0 1024 =
        undone at result failed
      split at result
      · split at result
        · rw [← Option.some.inj result] at inside
          exact failed inside
        · split at result
          · rw [← Option.some.inj result] at inside
            exact failed inside
          · rename_i maps
            rw [← Option.some.inj result] at inside
            exact memMap_touches maps inside
      · rw [← Option.some.inj result] at inside
        exact failed inside

/-- `dup` is confined if both numbers are in the table and closing the new one is. Another
call can be so only if it fails, and has no page for the new `Fd` to be unmapped outside. -/
theorem dup_confined (fresh : x.touched = []) :
    (DupKeeps x old new granted → ConfinedIf (IsSlot old ∧ IsSlot new) (x.dup old new granted)) ∧
      (ConfinedIf (IsSlot old ∧ IsSlot new) (x.dup old new granted) → DupKeeps x old new granted ∨
        ¬(IsSlot old ∧ IsSlot new) ∧ (∃ e y, x.dup old new granted = some (.error e, y)) ∧
          (isIllegalVa (index2fd new) ∨ InArea (index2fd new))) := by
  rcases lookup_cases x old with ⟨refused, none⟩ | ⟨accepts, looked, -⟩
  · refine ⟨fun _ => ?_, fun _ => .inl (.inl refused)⟩
    rw [dup, none, confinedIf_some]
    exact Confined.of_fresh fresh
  · have new_iff : IsSlot new → (ConfinedIf (IsSlot new) (x.close new granted) ↔
        (Accepts x new → CloseFits x new granted)) := by
      intro slot
      rw [close_confined fresh, keeps_slot slot]
    rw [DupKeeps, or_iff_right (not_not_intro accepts)]
    constructor
    · rintro ⟨old_slot, slot, fits⟩
      exact (dup_slots old_slot slot looked).mpr ((new_iff slot).mpr fits)
    · intro confined
      by_cases known : IsSlot old ∧ IsSlot new
      · obtain ⟨old_slot, slot⟩ := known
        exact .inl ⟨old_slot, slot,
          (new_iff slot).mp ((dup_slots old_slot slot looked).mp confined)⟩
      · right
        refine ⟨known, ?_⟩
        cases result : x.dup old new granted with
        | none => exact absurd (confined.1 result) known
        | some r =>
            obtain ⟨e, error⟩ := (confined.2 r result).1 known
            exact ⟨⟨e, r.2, congrArg some (Prod.ext error rfl)⟩,
              dup_touches looked result (confined.2 r result).2⟩

end Dup

/-- Every call of one number is confined just if it is `Keeps`, and `dup` if it is
`DupKeeps`; a `dup` that is not can be confined only if it fails by itself and the page of
the new `Fd` is no user page, or is in the table or a window. -/
theorem descriptors_confined_iff (fresh : x.touched = []) :
    (∀ n granted, ConfinedIf (IsSlot n) (x.close n granted) ↔
      Keeps x n (CloseFits x n granted) (CloseFails x n granted)) ∧
    (∀ n len w, Confined (IsSlot n) (x.read n len w) ↔
      Keeps x n (ReadFits x n len) (ReadFails x n w)) ∧
    (∀ n len w, Confined (IsSlot n) (x.write n len w) ↔
      Keeps x n (WriteFits x n len w) (WriteFails x n len w)) ∧
    (∀ n offset, Confined (IsSlot n) (x.seek n offset) ↔ Keeps x n True False) ∧
    (∀ n stat mem, (∀ fuel, Confined (IsSlot n) (x.fstat n stat mem fuel)) ↔
      Keeps x n (FstatFits x n stat mem) (FstatFails x n)) ∧
    ∀ old new granted,
      (DupKeeps x old new granted →
        ConfinedIf (IsSlot old ∧ IsSlot new) (x.dup old new granted)) ∧
      (ConfinedIf (IsSlot old ∧ IsSlot new) (x.dup old new granted) →
        DupKeeps x old new granted ∨
        ¬(IsSlot old ∧ IsSlot new) ∧ (∃ e y, x.dup old new granted = some (.error e, y)) ∧
          (isIllegalVa (index2fd new) ∨ InArea (index2fd new))) :=
  ⟨fun _ _ => close_confined fresh, fun _ _ _ => read_confined fresh,
    fun _ _ _ => write_confined fresh, fun _ _ => seek_confined fresh,
    fun _ _ _ => fstat_confined fresh, fun _ _ _ => dup_confined fresh⟩

/-- What the console answers in the next run. -/
def keyPressed : Outside where
  cons := .ok 1
  pipe := 0
  granted := true
  block := fun _ => none

/-- A process seeks, reads, writes and asks for the status of its console, copies it to
descriptor 1 and closes it. -/
theorem descriptors_confined_console : Confined (IsSlot 0) (consoleOnly.seek 0 16) ∧
    Confined (IsSlot 0) (consoleOnly.read 0 1 keyPressed) ∧
    Confined (IsSlot 0) (consoleOnly.write 0 1 keyPressed) ∧
    (∀ fuel, Confined (IsSlot 0) (consoleOnly.fstat 0 0x7f3fd000 (fun _ => 1) fuel)) ∧
    ConfinedIf (IsSlot 0 ∧ IsSlot 1) (consoleOnly.dup 0 1 true) ∧
    ConfinedIf (IsSlot 0) (consoleOnly.close 0 true) := by
  have zero : IsSlot 0 := slot_of_lt (i := 0) (by omega)
  have one : IsSlot 1 := slot_of_lt (i := 1) (by omega)
  have fresh : consoleOnly.touched = [] := rfl
  have console : ∀ n f, consoleOnly.fdAt (index2fd n) = some f → f.fdDevId ≠ devfileId := by
    intro n f found
    obtain ⟨page, -, rfl⟩ := Option.map_eq_some_iff.mp found
    show devconsId ≠ devfileId
    decide
  obtain ⟨close, read, write, seek, fstat, dup⟩ := descriptors_confined_iff fresh
  refine ⟨(seek 0 16).mpr (.inr (.inl ⟨zero, trivial⟩)), (read 0 1 keyPressed).mpr ?_,
    (write 0 1 keyPressed).mpr ?_, (fstat 0 0x7f3fd000 fun _ => 1).mpr ?_,
    (dup 0 1 true).1 (.inr ⟨zero, one, fun _ f found file => ?_⟩), (close 0 true).mpr ?_⟩
  · exact .inr (.inl ⟨zero, fun f found file => absurd file (console 0 f found)⟩)
  · exact .inr (.inl ⟨zero, fun f found file => absurd file (console 0 f found)⟩)
  · exact .inr (.inl ⟨zero, fun f found file => absurd file (console 0 f found)⟩)
  · exact absurd file (console 1 f found)
  · exact .inr (.inl ⟨zero, fun f found file => absurd file (console 0 f found)⟩)

/-- All six calls are confined, for whatever numbers. -/
def AllConfined (x : Space) : Prop :=
  (∀ n granted, ConfinedIf (IsSlot n) (x.close n granted)) ∧
  (∀ n len w, Confined (IsSlot n) (x.read n len w)) ∧
  (∀ n len w, Confined (IsSlot n) (x.write n len w)) ∧
  (∀ n offset, Confined (IsSlot n) (x.seek n offset)) ∧
  (∀ n stat mem fuel, Confined (IsSlot n) (x.fstat n stat mem fuel)) ∧
  ∀ old new granted, ConfinedIf (IsSlot old ∧ IsSlot new) (x.dup old new granted)

/-- There is a page where the `Fd` of number -1 would be, just below the table. -/
def belowTable : Space where
  pte v := if v = fdPg (-1) then some (7, sharedBits ||| pteV) else none
  fd _ := { fdDevId := 0, fdOffset := 0, fdOmode := 0, fFileid := 0, fSize := 0 }
  touched := []

theorem belowTable_pte (v : Nat) :
    belowTable.pte v = if v = fdPg (-1) then some (7, sharedBits ||| pteV) else none := rfl

theorem seek_below_table : ¬Confined (IsSlot (-1)) (belowTable.seek (-1) 0) := by
  have fresh : belowTable.touched = [] := rfl
  have unknown : ¬IsSlot (-1) := by
    intro slot
    have lt : (-1 : Word).toNat < 32 := slot
    exact absurd lt (by decide)
  have accepts : Accepts belowTable (-1) := by
    have mapped : belowTable.pte (fdPg (-1)) = some (7, sharedBits ||| pteV) := by
      rw [belowTable_pte, if_pos rfl]
    exact ⟨by decide, Option.isSome_of_eq_some mapped⟩
  rw [seek_confined fresh]
  rintro (refused | ⟨slot, -⟩ | ⟨-, -, no⟩)
  · exact refused accepts
  · exact unknown slot
  · exact no

theorem descriptors_not_confined : ¬∀ x : Space, x.touched = [] → AllConfined x := by
  intro all
  have fresh : belowTable.touched = [] := rfl
  exact seek_below_table ((all belowTable fresh).2.2.2.1 (-1) 0)

end Space

end Mos
