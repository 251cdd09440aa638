import Mos.Fd

/-!
# The shell

`parsecmd` and `runcmd` of `user/sh.c` on the tokens of a command line. A `fork`
splits the process in two that go on with the same tokens, `argv` and descriptors,
so `parsecmd` returns once in every process. The results are listed in the order in
which the commands stand on the line.
-/

namespace Mos

inductive Join
  /-- `|` -/
  | pipe
  /-- `;` -/
  | semi
  /-- `&` -/
  | amp
  deriving DecidableEq

/-- What `gettoken` returns. -/
inductive Token
  | word (t : String)
  /-- `<` -/
  | less
  /-- `>` -/
  | greater
  | join (j : Join)
  deriving DecidableEq

inductive Omode
  | rdonly
  | wronly
  deriving DecidableEq

/-- What a descriptor stands for. What the line itself opens is told apart by the
number of tokens that are left then. -/
inductive Desc
  /-- The shell's own standard input. -/
  | shellIn
  /-- The shell's own standard output. -/
  | shellOut
  | file (left : Nat) (path : String) (omode : Omode)
  | pipeRead (left : Nat)
  | pipeWrite (left : Nat)
  deriving DecidableEq

/-- Which calls succeed, by the number of tokens that are left then. -/
structure Os where
  opens : Nat → Bool
  creates : Nat → Bool
  /-- The `open` of a file that was created for it. -/
  reopens : Nat → Bool
  forks : Nat → Bool
  /-- What `get_path` makes of a file name. -/
  getPath : String → String

/-! ## Descriptors -/

abbrev FdTable := Nat → Option Desc

namespace FdTable

/-- `fd_alloc`, which does not try the last one. -/
def alloc (fds : FdTable) : Option Nat :=
  (List.range (maxfd - 1)).find? fun n => fds n = none

/-- `open`, when the file server answers `ok`. -/
def openFile (fds : FdTable) (ok : Bool) (d : Desc) : Option (Nat × FdTable) := do
  let n ← fds.alloc
  if ok then some (n, Function.update fds n (some d)) else none

def close (fds : FdTable) (n : Nat) : FdTable := Function.update fds n none

/-- `dup` closes the new descriptor first. -/
def dup (fds : FdTable) (old new : Nat) : FdTable :=
  match fds old with
  | none => fds
  | some d => Function.update (fds.close new) new (some d)

/-- `pipe`, with its read end and its write end. -/
def pipe (fds : FdTable) (left : Nat) : Option (Nat × Nat × FdTable) := do
  let r ← fds.alloc
  let fds : FdTable := Function.update fds r (some (.pipeRead left))
  let w ← fds.alloc
  some (r, w, Function.update fds w (some (.pipeWrite left)))

end FdTable

/-! ## The processes -/

/-- `MAXARGS`. -/
def maxargs : Nat := 128

/-- The state of a process in `parsecmd`. -/
structure Shell where
  fds : FdTable
  argv : Nat → Option String
  argc : Nat

/-- Why a process ends before it spawns. -/
inductive Stop
  /-- `exit`, after a message. -/
  | exit
  /-- `user_panic`. -/
  | panic
  /-- It used `p` before `pipe` set it, or wrote to `argv[MAXARGS]`. -/
  | undefined
  deriving DecidableEq

/-- A redirection of descriptor `fd` to the file `t`: both operators create a missing
file and open it for writing. -/
def Os.redirect (os : Os) (left : Nat) (t : String) (omode : Omode) (fd : Nat)
    (fds : FdTable) : Except Stop FdTable :=
  match fds.openFile (os.opens left) (.file left t omode) with
  | some (n, fds) => .ok ((fds.dup n fd).close n)
  | none =>
      if os.creates left then
        match fds.openFile (os.reopens left) (.file left (os.getPath t) .wronly) with
        | some (n, fds) => .ok ((fds.dup n fd).close n)
        -- `dup` and `close` refuse the error code.
        | none => .ok fds
      else .error .panic

/-- The child of `|`, which reads from the pipe. -/
def FdTable.right (fds : FdTable) (r w : Nat) : FdTable := ((fds.dup r 0).close r).close w

/-- The parent of `|`, which writes to the pipe. -/
def FdTable.left (fds : FdTable) (r w : Nat) : FdTable := ((fds.dup w 1).close w).close r

/-- `parsecmd` in a process and in all that it forks. The process that goes on calls
`parsecmd` anew, with `argc` back at 0. Its `wait` changes nothing. -/
def parsecmd (os : Os) : List Token → Shell → List (Except Stop Shell)
  | [], sh => [.ok sh]
  | .word t :: rest, sh =>
      if maxargs ≤ sh.argc then [.error .exit]
      else parsecmd os rest
        { sh with argv := Function.update sh.argv sh.argc (some t), argc := sh.argc + 1 }
  | .less :: .word t :: rest, sh =>
      match os.redirect rest.length t .rdonly 0 sh.fds with
      | .ok fds => parsecmd os rest { sh with fds := fds }
      | .error stop => [.error stop]
  | .less :: _, _ => [.error .exit]
  | .greater :: .word t :: rest, sh =>
      match os.redirect rest.length t .wronly 1 sh.fds with
      | .ok fds => parsecmd os rest { sh with fds := fds }
      | .error stop => [.error stop]
  | .greater :: _, _ => [.error .exit]
  | .join .pipe :: rest, sh =>
      match sh.fds.pipe rest.length with
      | none => [.error .undefined]
      | some (r, w, fds) =>
          .ok { sh with fds := fds.left r w } ::
            if os.forks rest.length then
              parsecmd os rest { sh with fds := fds.right r w, argc := 0 }
            else []
  | .join .semi :: rest, sh | .join .amp :: rest, sh =>
      let more := parsecmd os rest { sh with argc := 0 }
      if os.forks rest.length then .ok sh :: more else more

/-- A program as `spawn` starts it. -/
structure Spawned where
  argv : List String
  stdin : Option Desc
  stdout : Option Desc
  deriving DecidableEq

/-- The arguments up to the null pointer. -/
def words (argv : Nat → Option String) : Nat → List String
  | 0 => []
  | n + 1 =>
      match argv 0 with
      | none => []
      | some t => t :: words (fun i => argv (i + 1)) n

/-- `runcmd` after `parsecmd`. -/
def Shell.run (sh : Shell) : Except Stop (Option Spawned) :=
  if sh.argc = 0 then .ok none
  else if sh.argc < maxargs then
    let argv := Function.update sh.argv sh.argc none
    .ok (some ⟨words argv maxargs, sh.fds 0, sh.fds 1⟩)
  else .error .undefined

/-- What becomes of all the processes of a line. -/
def runcmd (os : Os) (line : List Token) (fds : FdTable) (argv : Nat → Option String) :
    List (Except Stop (Option Spawned)) :=
  (parsecmd os line ⟨fds, argv, 0⟩).map (Except.bind · Shell.run)

/-- The programs that are spawned. -/
def spawns (results : List (Except Stop (Option Spawned))) : List Spawned :=
  results.filterMap fun r => r.toOption.join

/-- The descriptors of a shell: its standard input and output. -/
def FdTable.two (stdin stdout : Desc) : FdTable :=
  fun n => if n = 0 then some stdin else if n = 1 then some stdout else none

/-! ## What a line means -/

/-- A redirection. -/
structure Redir where
  left : Nat
  file : String

/-- A command of the line, with its redirections, the last one first, and what joins it
to the commands before and after it. -/
structure Cmd where
  words : List String
  ins : List Redir
  outs : List Redir
  before : Option (Join × Nat)
  after : Option (Join × Nat)

/-- A command that is just beginning. -/
def Cmd.fresh (before : Option (Join × Nat)) : Cmd := ⟨[], [], [], before, none⟩

/-- The commands of the line, of which `c` is being read. -/
def commandsFrom (c : Cmd) : List Token → List Cmd
  | [] => [c]
  | .word t :: rest => commandsFrom { c with words := c.words ++ [t] } rest
  | .less :: .word t :: rest =>
      commandsFrom { c with ins := ⟨rest.length, t⟩ :: c.ins } rest
  | .less :: _ => [c]
  | .greater :: .word t :: rest =>
      commandsFrom { c with outs := ⟨rest.length, t⟩ :: c.outs } rest
  | .greater :: _ => [c]
  | .join j :: rest =>
      { c with after := some (j, rest.length) } ::
        commandsFrom (.fresh (some (j, rest.length))) rest

def commands (line : List Token) : List Cmd := commandsFrom (.fresh none) line

/-- Each redirection is followed by a word. -/
def RedirsNamed : List Token → Prop
  | [] => True
  | .less :: .word _ :: rest | .greater :: .word _ :: rest => RedirsNamed rest
  | .less :: _ | .greater :: _ => False
  | .word _ :: rest | .join _ :: rest => RedirsNamed rest

/-- A command line: each command has a word, each redirection a file. -/
structure IsLine (line : List Token) : Prop where
  named : RedirsNamed line
  nonempty : ∀ c ∈ commands line, c.words ≠ []

/-- The file a redirection writes to, which may have to be created. -/
def Os.output (os : Os) (r : Redir) : Desc :=
  .file r.left (if os.opens r.left then r.file else os.getPath r.file) .wronly

namespace Cmd

/-- Its own redirection, else the pipe before it, else the input of the shell. -/
def stdin (c : Cmd) : Desc :=
  match c.ins, c.before with
  | r :: _, _ => .file r.left r.file .rdonly
  | [], some (.pipe, k) => .pipeRead k
  | [], _ => .shellIn

/-- Its own redirection, else the pipe after it, else the output of the shell. -/
def stdout (os : Os) (c : Cmd) : Desc :=
  match c.outs, c.after with
  | r :: _, _ => os.output r
  | [], some (.pipe, k) => .pipeWrite k
  | [], _ => .shellOut

/-- The program that the command stands for. -/
def meaning (os : Os) (c : Cmd) : Spawned := ⟨c.words, some c.stdin, some (c.stdout os)⟩

/-- It has an input that is not the shell's. -/
def OwnInput (c : Cmd) : Prop := c.ins ≠ [] ∨ ∃ k, c.before = some (.pipe, k)

/-- It has an output that is not the shell's. -/
def OwnOutput (c : Cmd) : Prop := c.outs ≠ [] ∨ ∃ k, c.after = some (.pipe, k)

end Cmd

end Mos
