import Mos.ShellLine

/-!
# Room for the null pointer

`runcmd` ends the arguments that `parsecmd` has collected with a null pointer. The
test in `parsecmd` lets `MAXARGS` words into `argv`, which leaves no room for it.
-/

namespace Mos

variable {os : Os} {i o : Desc} {c : Cmd} {line rest : List Token} {sh sh' : Shell}

/-- Whatever the calls return, each process that comes out of `parsecmd` has room for the
null pointer of `runcmd`. -/
def ArgsFit (line : List Token) : Prop :=
  ∀ (os : Os) (fds : FdTable) (argv : Nat → Option String) (sh : Shell),
    .ok sh ∈ parsecmd os line ⟨fds, argv, 0⟩ →
      sh.argc < maxargs ∧ sh.run ≠ .error .undefined

/-- No command has `MAXARGS` words, up to the first one with more. The last command does
not count unless it is `complete`. -/
def NoneFull (complete : Prop) : List Cmd → Prop
  | [] => True
  | [c] => complete → c.words.length ≠ maxargs
  | c :: cs => c.words.length ≠ maxargs ∧ (c.words.length < maxargs → NoneFull complete cs)

theorem commandsFrom_ne_nil (c : Cmd) (line : List Token) : commandsFrom c line ≠ [] := by
  obtain ⟨d, ds, eq, -⟩ := commandsFrom_eq_cons c line
  rw [eq]
  exact List.cons_ne_nil _ _

theorem noneFull_cons {complete : Prop} {cs : List Cmd} (more : cs ≠ []) :
    NoneFull complete (c :: cs) ↔
      c.words.length ≠ maxargs ∧ (c.words.length < maxargs → NoneFull complete cs) := by
  cases cs with
  | nil => exact absurd rfl more
  | cons d ds => rfl

/-- A command that is too long already stops the line. -/
theorem noneFull_of_long {complete : Prop} (long : maxargs < c.words.length) (line : List Token) :
    NoneFull complete (commandsFrom c line) := by
  obtain ⟨d, ds, eq, -, words, -⟩ := commandsFrom_eq_cons c line
  have longer : maxargs < d.words.length := Nat.lt_of_lt_of_le long words
  rw [eq]
  cases ds with
  | nil => exact fun _ => Nat.ne_of_gt longer
  | cons e es => exact ⟨Nat.ne_of_gt longer, fun short => absurd short (Nat.lt_asymm longer)⟩

/-- A redirection without a file ends the process. -/
theorem parsecmd_unnamed (unnamed : ∀ t more, rest = .word t :: more → False) :
    parsecmd os (.less :: rest) sh = [.error .exit] ∧
      parsecmd os (.greater :: rest) sh = [.error .exit] := by
  cases rest with
  | nil => exact ⟨rfl, rfl⟩
  | cons tok more =>
      cases tok with
      | word t => exact (unnamed t more rfl).elim
      | _ => exact ⟨rfl, rfl⟩

theorem unnamed_not_named (unnamed : ∀ t more, rest = .word t :: more → False) :
    ¬RedirsNamed (.less :: rest) ∧ ¬RedirsNamed (.greater :: rest) := by
  constructor
  · intro named
    obtain ⟨t, more, eq⟩ := RedirsNamed.word (.inl named)
    exact unnamed t more eq
  · intro named
    obtain ⟨t, more, eq⟩ := RedirsNamed.word (.inr named)
    exact unnamed t more eq

/-- What a process has counted when it comes out of `parsecmd`. -/
theorem argc_lt (room : NoneFull (RedirsNamed line) (commandsFrom c line))
    (count : sh.argc = c.words.length) (fits : c.words.length ≤ maxargs)
    (returned : .ok sh' ∈ parsecmd os line sh) : sh'.argc < maxargs := by
  induction c, line using commandsFrom.induct generalizing sh with
  | case1 c =>
      obtain rfl : sh' = sh := by simpa [parsecmd] using returned
      have ne := room trivial
      omega
  | case2 c t rest ih =>
      rw [parsecmd] at returned
      split at returned
      · simp at returned
      · next short => exact ih room (by simp [count]) (by simp; omega) returned
  | case3 c t rest ih =>
      rw [parsecmd] at returned
      split at returned
      · refine ih room ?_ fits returned
        exact count
      · simp at returned
  | case4 c rest unnamed =>
      rw [(parsecmd_unnamed unnamed).1] at returned
      simp at returned
  | case5 c t rest ih =>
      rw [parsecmd] at returned
      split at returned
      · refine ih room ?_ fits returned
        exact count
      · simp at returned
  | case6 c rest unnamed =>
      rw [(parsecmd_unnamed unnamed).2] at returned
      simp at returned
  | case7 c j rest ih =>
      obtain ⟨ne, next⟩ := (noneFull_cons (commandsFrom_ne_nil _ _)).mp room
      have short : c.words.length < maxargs := Nat.lt_of_le_of_ne fits ne
      have later : ∀ {fds : FdTable}, .ok sh' ∈ parsecmd os rest ⟨fds, sh.argv, 0⟩ →
          sh'.argc < maxargs := fun mem => ih (next short) rfl (Nat.zero_le _) mem
      have here : ∀ {fds : FdTable}, sh' = { sh with fds := fds } → sh'.argc < maxargs := by
        rintro fds rfl
        exact count ▸ short
      cases j with
      | pipe =>
          rw [parsecmd] at returned
          split at returned
          · simp at returned
          · rcases List.mem_cons.mp returned with same | mem
            · exact here (Except.ok.inj same)
            · split at mem
              · exact later mem
              · simp at mem
      | semi | amp =>
          rw [parsecmd] at returned
          split at returned
          · rcases List.mem_cons.mp returned with same | mem
            · exact here (Except.ok.inj same)
            · exact later mem
          · exact later returned

/-- With calls that all succeed, each command up to the first that is too long comes out of
`parsecmd`. -/
theorem noneFull_of_fits (fits : c.words.length ≤ maxargs) (count : sh.argc = c.words.length)
    (fds : sh.fds = .two i o)
    (room : ∀ sh', .ok sh' ∈ parsecmd obliging line sh → sh'.argc < maxargs) :
    NoneFull (RedirsNamed line) (commandsFrom c line) := by
  induction c, line using commandsFrom.induct generalizing sh i o with
  | case1 c =>
      have short := room sh (by simp [parsecmd])
      exact fun _ => by omega
  | case2 c t rest ih =>
      rw [parsecmd] at room
      by_cases full : maxargs ≤ sh.argc
      · exact noneFull_of_long (by simp; omega) rest
      · rw [if_neg full] at room
        refine ih (i := i) (o := o) ?_ ?_ ?_ room
        · simp
          omega
        · simp [count]
        · exact fds
  | case3 c t rest ih =>
      have redirect := obliging.redirect_input ⟨rest.length, t⟩ i o
      rw [if_pos (show obliging.Finds _ from .inl rfl)] at redirect
      rw [parsecmd, fds, redirect] at room
      refine ih fits ?_ rfl room
      exact count
  | case4 c rest unnamed =>
      rw [commandsFrom]
      · exact fun named => ((unnamed_not_named unnamed).1 named).elim
      · exact unnamed
  | case5 c t rest ih =>
      have redirect := obliging.redirect_output ⟨rest.length, t⟩ i o
      rw [if_pos (show obliging.Finds _ from .inl rfl)] at redirect
      rw [parsecmd, fds, redirect] at room
      refine ih fits ?_ rfl room
      exact count
  | case6 c rest unnamed =>
      rw [commandsFrom]
      · exact fun named => ((unnamed_not_named unnamed).2 named).elim
      · exact unnamed
  | case7 c j rest ih =>
      rw [commandsFrom, noneFull_cons (commandsFrom_ne_nil _ _)]
      cases j with
      | pipe =>
          rw [parsecmd, fds, FdTable.pipe_two] at room
          have short := room _ List.mem_cons_self
          refine ⟨Nat.ne_of_lt (count ▸ short), fun _ =>
            @ih (.pipeRead rest.length) o
              ⟨(FdTable.piped i o rest.length).right 2 3, sh.argv, 0⟩ (Nat.zero_le _) ?_ ?_
              fun sh' mem => room sh' (List.mem_cons_of_mem _ mem)⟩
          · rfl
          · exact FdTable.right_piped i o rest.length
      | semi | amp =>
          rw [parsecmd] at room
          have short := room sh List.mem_cons_self
          refine ⟨Nat.ne_of_lt (count ▸ short), fun _ => ih (i := i) (o := o) (Nat.zero_le _) ?_ ?_
            fun sh' mem => room sh' (List.mem_cons_of_mem _ mem)⟩
          · rfl
          · exact fds

theorem ArgsFit.noneFull (fit : ArgsFit line) :
    NoneFull (RedirsNamed line) (commands line) := by
  refine @noneFull_of_fits .shellIn .shellOut _ _
    ⟨.two .shellIn .shellOut, fun _ => none, 0⟩ (Nat.zero_le _) ?_ rfl
    fun sh' mem => (fit _ _ _ _ mem).1
  rfl

/-- `parsecmd` leaves room for the null pointer in every process unless a command has just
`MAXARGS` words and the ones before it have fewer. -/
theorem args_fit_iff (line : List Token) :
    ArgsFit line ↔ NoneFull (RedirsNamed line) (commands line) := by
  constructor
  · exact ArgsFit.noneFull
  · intro room os fds argv sh mem
    have short := argc_lt room rfl (Nat.zero_le _) mem
    refine ⟨short, fun undefined => ?_⟩
    rw [Shell.run, if_pos short] at undefined
    split at undefined <;> cases undefined

theorem commandsFrom_words (c : Cmd) (n : Nat) (t : String) :
    commandsFrom c (List.replicate n (.word t)) =
      [{ c with words := c.words ++ List.replicate n t }] ∧
      RedirsNamed (List.replicate n (.word t)) := by
  induction n generalizing c with
  | zero => exact ⟨by simp [commandsFrom], trivial⟩
  | succ n ih =>
      rw [List.replicate_succ, commandsFrom, (ih _).1]
      exact ⟨by simp [List.replicate_succ], (ih c).2⟩

/-- A command of `MAXARGS` words: `argv[MAXARGS]` is written to. -/
theorem args_not_fit : ¬∀ line, ArgsFit line := by
  intro all
  obtain ⟨words, named⟩ := commandsFrom_words (.fresh none) maxargs "a"
  have room := (all (List.replicate maxargs (.word "a"))).noneFull
  rw [commands, words] at room
  exact room named (by simp [Cmd.fresh])

end Mos
