import Mos.Syscall
import Mos.Lib.RefStore
import Mathlib.Data.Fintype.Prod

/-!
# File descriptors

`dup` and `close` of `user/lib/fd.c` and `exit` of `user/lib/libos.c`, cut into the
system calls they make, and `pipe` and `_pipe_is_closed` of `user/lib/pipe.c`. A
descriptor is a page in the table at `FDTABLE`, and a window of `PDMAP` bytes for what
it refers to. Between two of its system calls a process can be preempted; nothing else
it does is seen by another one.
-/

namespace Mos

/-! ## Layout -/

/-- `MAXFD`. -/
def maxfd : Nat := 32

def filebase : Word := 0x60000000#32
def fdtable : Word := filebase - pdmap

/-- `INDEX2FD`. -/
def index2fd (i : Word) : Word := fdtable + by2pg * i

/-- `INDEX2DATA`. -/
def index2data (i : Word) : Word := filebase + pdmap * i

/-- The address of page `k` of the window of descriptor `i`. -/
def dataVa (i : Word) (k : Nat) : Word := index2data i + BitVec.ofNat 32 (k * 4096)

/-- The page number of the `Fd`. -/
def fdPg (i : Word) : Nat := ppn (index2fd i)

def dataPg (i : Word) (k : Nat) : Nat := ppn (dataVa i k)

/-! ## A process -/

/-- What `fd_dev_id` says. -/
inductive Dev
  | pipe
  /-- `devfile` and `devcons`. -/
  | other
  | unknown
  deriving DecidableEq

/-- What is left to do after a `close`. -/
inductive After
  | done
  | dup (old new : Word)
  | exit (i : Nat)
  deriving DecidableEq

/-- What a process is doing, by the system call it makes next. -/
inductive Task
  | idle
  /-- `pipe_close` unmaps the `Fd`. -/
  | unmapFd (n : Word) (after : After)
  /-- `pipe_close` unmaps the `Pipe`. -/
  | unmapData (n : Word) (after : After)
  /-- `file_close` unmaps these pages of the window. -/
  | unmapPages (n : Word) (todo : List (Fin 1024)) (after : After)
  /-- `fd_close` unmaps the `Fd`. -/
  | closeFd (n : Word) (after : After)
  /-- `dup` is at page `k` of the window. -/
  | dupPages (old new : Word) (k : Nat)
  /-- `dup` maps the `Fd`. -/
  | dupFd (old new : Word)
  /-- `dup` has failed and unmaps the new `Fd`. -/
  | undupFd (new : Word)
  /-- `dup` has failed and is at page `k` of the new window. -/
  | undupPages (new : Word) (k : Nat)
  /-- `close_all` is at descriptor `i`. -/
  | exit (i : Nat)
  | dead
  deriving DecidableEq

/-- The pages a process has mapped, by virtual page number, with the permission bits
of their entries, and what it is doing. -/
structure Proc where
  page : Nat → Option Nat
  perm : Nat → Word
  task : Task

namespace Proc

variable (x : Proc)

/-- `syscall_mem_unmap(0, va)`. -/
def memUnmap (va : Word) : Proc :=
  if isIllegalVa va then x else { x with page := Function.update x.page (ppn va) none }

/-- `syscall_mem_map(0, srcva, 0, dstva, perm)`; `none` is an error. `mem` tells whether
there is memory for a page table. -/
def memMap (srcva dstva perm : Word) (mem : Bool) : Option Proc :=
  if isIllegalVa srcva ∨ isIllegalVa dstva then none
  else
    match x.page (ppn srcva) with
    | none => none
    | some pp =>
        if mem then
          some { x with
            page := Function.update x.page (ppn dstva) (some pp)
            perm := Function.update x.perm (ppn dstva) perm }
        else none

/-- `syscall_mem_alloc(0, va, perm)`; `pp` is what `page_alloc` gives. -/
def memAlloc (va perm : Word) (pp : Option Nat) : Option Proc :=
  if isIllegalVa va then none
  else
    match pp with
    | none => none
    | some pp =>
        some { x with
          page := Function.update x.page (ppn va) (some pp)
          perm := Function.update x.perm (ppn va) perm }

/-- `fd_alloc`; it leaves the last descriptor out. -/
def fdAlloc : Option Word :=
  ((List.range (maxfd - 1)).map (BitVec.ofNat 32)).find? fun fdno => (x.page (fdPg fdno)).isNone

/-- `fd_lookup`; `fdnum` is an `int`. -/
def fdLookup (fdnum : Word) : Option Nat :=
  if fdnum.slt (BitVec.ofNat 32 maxfd) then x.page (fdPg fdnum) else none

/-- Step 2 of `pipe`, which maps the `Pipe` in both windows. -/
def pipeData (fd0 fd1 : Word) (pp : Option Nat) (mem : Bool) : Proc × Option (Word × Word) :=
  match x.memAlloc (index2data fd0) (pteD ||| pteLibrary) pp with
  | none => ((x.memUnmap (index2fd fd1)).memUnmap (index2fd fd0), none)
  | some x =>
      match x.memMap (index2data fd0) (index2data fd1) (pteD ||| pteLibrary) mem with
      | none =>
          (((x.memUnmap (index2data fd0)).memUnmap (index2fd fd1)).memUnmap (index2fd fd0), none)
      | some x => (x, some (fd0, fd1))

/-- `pipe`; nobody else has the new pages before it returns. The allocations get `pp0`, `pp1`
and `pp`, and `mem` is for the page table of the second window. -/
def pipe (pp0 pp1 pp : Option Nat) (mem : Bool) : Proc × Option (Word × Word) :=
  match x.fdAlloc with
  | none => (x, none)
  | some fd0 =>
      match x.memAlloc (index2fd fd0) (pteD ||| pteLibrary) pp0 with
      | none => (x, none)
      | some x =>
          match x.fdAlloc with
          | none => (x.memUnmap (index2fd fd0), none)
          | some fd1 =>
              match x.memAlloc (index2fd fd1) (pteD ||| pteLibrary) pp1 with
              | none => (x.memUnmap (index2fd fd0), none)
              | some x => x.pipeData fd0 fd1 pp mem

end Proc

/-- What a process goes on with. -/
def After.task : After → Task
  | .done => .idle
  | .dup old new => .dupPages old new 0
  | .exit i => .exit (i + 1)

/-- The process goes on with `task`. -/
def Proc.goto (x : Proc) (task : Task) : Proc := { x with task := task }

/-- `close(fdnum)` up to its first system call. `dev` is what the `Fd` in a page says, and
`todo` the pages a file closed here has to unmap. -/
def Proc.close (dev : Nat → Dev) (x : Proc) (fdnum : Word) (todo : List (Fin 1024))
    (after : After) : Proc :=
  match x.fdLookup fdnum with
  | none => x.goto after.task
  | some fd =>
      match dev fd with
      | .pipe => x.goto (.unmapFd fdnum after)
      | .other => x.goto (.unmapPages fdnum todo after)
      | .unknown => x.goto after.task

/-- The functions a program can call. -/
inductive Call
  | close (fdnum : Word)
  | dup (oldfdnum newfdnum : Word)
  | exit

/-- A call up to its first system call. -/
def Proc.call (dev : Nat → Dev) (x : Proc) (todo : List (Fin 1024)) : Call → Proc
  | .close fdnum => x.close dev fdnum todo .done
  | .dup old new =>
      match x.fdLookup old with
      | none => x
      | some _ => x.close dev new todo (.dup old new)
  | .exit => x.goto (.exit 0)

/-- `pte & (PTE_D | PTE_LIBRARY)`. -/
def dupPerm (perm : Word) : Word := perm &&& (pteD ||| pteLibrary)

/-- The next system call of a process, and what it does up to the one after. -/
def Proc.go (dev : Nat → Dev) (x : Proc) (mem : Bool) (todo : List (Fin 1024)) : Proc :=
  match x.task with
  | .idle => x
  | .unmapFd n after => (x.memUnmap (index2fd n)).goto (.unmapData n after)
  | .unmapData n after => (x.memUnmap (index2data n)).goto (.closeFd n after)
  | .unmapPages n [] after => x.goto (.closeFd n after)
  | .unmapPages n (k :: todo) after => (x.memUnmap (dataVa n k)).goto (.unmapPages n todo after)
  | .closeFd n after => (x.memUnmap (index2fd n)).goto after.task
  | .dupPages old new k =>
      if k < 1024 then
        if (x.page (dataPg old k)).isSome then
          match x.memMap (dataVa old k) (dataVa new k) (dupPerm (x.perm (dataPg old k))) mem with
          | some x => x.goto (.dupPages old new (k + 1))
          | none => x.goto (.undupFd new)
        else x.goto (.dupPages old new (k + 1))
      else x.goto (.dupFd old new)
  | .dupFd old new =>
      match x.memMap (index2fd old) (index2fd new) (dupPerm (x.perm (fdPg old))) mem with
      | some x => x.goto .idle
      | none => x.goto (.undupFd new)
  | .undupFd new => (x.memUnmap (index2fd new)).goto (.undupPages new 0)
  | .undupPages new k =>
      if k < 1024 then (x.memUnmap (dataVa new k)).goto (.undupPages new (k + 1))
      else x.goto .idle
  | .exit i =>
      if i < maxfd then x.close dev (BitVec.ofNat 32 i) todo (.exit i)
      else { x with page := fun _ => none, task := .dead }
  | .dead => x

/-! ## Processes together -/

/-- A process makes a call, or goes on with one. -/
inductive FdAct (P : Type)
  | call (p : P) (todo : List (Fin 1024)) (call : Call)
  | go (p : P) (mem : Bool) (todo : List (Fin 1024))

def fdStep {P : Type} [DecidableEq P] (dev : Nat → Dev) (s : P → Proc) :
    FdAct P → Option (P → Proc)
  | .call p todo call =>
      if (s p).task = .idle then some (Function.update s p ((s p).call dev todo call)) else none
  | .go p mem todo => some (Function.update s p ((s p).go dev mem todo))

/-- What every virtual page maps. -/
def mappings {P : Type} (s : P → Proc) (r : P × Fin (2 ^ 20)) : Option Nat := (s r.1).page r.2

/-- `pageref` of the virtual page `v` of process `p`; `pp_ref` is a `u_short`. -/
def pageref {P : Type} [Fintype P] (s : P → Proc) (p : P) (v : Nat) : Nat :=
  match (s p).page v with
  | none => 0
  | some pp => refs (mappings s) pp % 2 ^ 16

/-- `_pipe_is_closed`, both counts read in one slice. -/
def pipeIsClosed {P : Type} [Fintype P] (s : P → Proc) (p : P) (fdnum : Word) : Bool :=
  pageref s p (fdPg fdnum) == pageref s p (dataPg fdnum 0)

end Mos
