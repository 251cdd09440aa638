import Mos.Shell

/-!
# What the shell makes of a line

`parsecmd` refines `cmdsRun`, which takes the line command by command: the process
that goes on has, besides its tokens, only the two descriptors that the commands
before have left it. From it follows when every command runs as the line says.
-/

namespace Mos

variable {os : Os} {i o : Desc} {k : Nat}

/-! ## Descriptors -/

namespace FdTable

theorem alloc_two (i o : Desc) : (two i o).alloc = some 2 := by
  simp [alloc, maxfd, List.range, List.range.loop, two]

/-- The table while a file is open for a redirection. -/
def opened (i o d : Desc) : FdTable := Function.update (two i o) 2 (some d)

theorem openFile_two (i o d : Desc) (ok : Bool) :
    (two i o).openFile ok d = if ok then some (2, opened i o d) else none := by
  simp [openFile, alloc_two, opened]

theorem dup_input (i o d : Desc) : ((opened i o d).dup 2 0).close 2 = two d o := by
  funext n
  rcases n with _ | _ | _ | n <;> simp [opened, dup, close, two, Function.update]

theorem dup_output (i o d : Desc) : ((opened i o d).dup 2 1).close 2 = two i d := by
  funext n
  rcases n with _ | _ | _ | n <;> simp [opened, dup, close, two, Function.update]

/-- The table while both ends of a pipe are open. -/
def piped (i o : Desc) (k : Nat) : FdTable :=
  Function.update (Function.update (two i o) 2 (some (.pipeRead k))) 3 (some (.pipeWrite k))

theorem pipe_two (i o : Desc) (k : Nat) : (two i o).pipe k = some (2, 3, piped i o k) := by
  simp only [pipe, alloc_two, Option.bind_eq_bind, Option.bind_some]
  have next : alloc (Function.update (two i o) 2 (some (.pipeRead k))) = some 3 := by
    simp [alloc, maxfd, List.range, List.range.loop, two, Function.update]
  rw [next]
  rfl

theorem left_piped (i o : Desc) (k : Nat) : (piped i o k).left 2 3 = two i (.pipeWrite k) := by
  funext n
  rcases n with _ | _ | _ | _ | n <;> simp [left, piped, dup, close, two, Function.update]

theorem right_piped (i o : Desc) (k : Nat) : (piped i o k).right 2 3 = two (.pipeRead k) o := by
  funext n
  rcases n with _ | _ | _ | _ | n <;> simp [right, piped, dup, close, two, Function.update]

end FdTable

/-- What a descriptor is after a redirection. -/
def Os.effect (os : Os) (omode : Omode) (r : Redir) (d : Desc) : Desc :=
  if os.opens r.left then .file r.left r.file omode
  else if os.reopens r.left then .file r.left (os.getPath r.file) .wronly
  else d

/-- The file of a redirection is there or can be created. -/
def Os.Finds (os : Os) (r : Redir) : Prop := os.opens r.left ∨ os.creates r.left

instance (r : Redir) : Decidable (os.Finds r) := inferInstanceAs (Decidable (_ ∨ _))

theorem Os.redirect_input (os : Os) (r : Redir) (i o : Desc) :
    os.redirect r.left r.file .rdonly 0 (.two i o) =
      if os.Finds r then .ok (.two (os.effect .rdonly r i) o) else .error .panic := by
  unfold Os.redirect Os.Finds Os.effect
  by_cases opens : os.opens r.left
  · simp [FdTable.openFile_two, opens, FdTable.dup_input]
  by_cases creates : os.creates r.left
  · by_cases reopens : os.reopens r.left <;>
      simp [FdTable.openFile_two, opens, creates, reopens, FdTable.dup_input]
  · simp [FdTable.openFile_two, opens, creates]

theorem Os.redirect_output (os : Os) (r : Redir) (i o : Desc) :
    os.redirect r.left r.file .wronly 1 (.two i o) =
      if os.Finds r then .ok (.two i (os.effect .wronly r o)) else .error .panic := by
  unfold Os.redirect Os.Finds Os.effect
  by_cases opens : os.opens r.left
  · simp [FdTable.openFile_two, opens, FdTable.dup_output]
  by_cases creates : os.creates r.left
  · by_cases reopens : os.reopens r.left <;>
      simp [FdTable.openFile_two, opens, creates, reopens, FdTable.dup_output]
  · simp [FdTable.openFile_two, opens, creates]

/-! ## Arguments -/

/-- The words collected so far stand at the beginning of `argv`. -/
def Fills (argv : Nat → Option String) (ws : List String) : Prop :=
  ∀ i, i < ws.length → argv i = ws[i]?

theorem Fills.nil (argv : Nat → Option String) : Fills argv [] := fun _ lt => absurd lt (by simp)

theorem Fills.snoc {argv : Nat → Option String} {ws : List String} (fills : Fills argv ws)
    (t : String) : Fills (Function.update argv ws.length (some t)) (ws ++ [t]) := by
  intro i lt
  rw [List.length_append, List.length_singleton] at lt
  rcases Nat.lt_succ_iff_lt_or_eq.mp lt with lt | rfl
  · rw [Function.update_of_ne (Nat.ne_of_lt lt), fills i lt, List.getElem?_append_left lt]
  · rw [Function.update_self, List.getElem?_concat_length]

theorem Fills.words_eq {argv : Nat → Option String} {ws : List String} {n : Nat}
    (fills : Fills argv ws) (ends : argv ws.length = none) (lt : ws.length < n) :
    words argv n = ws := by
  induction ws generalizing argv n with
  | nil =>
      obtain ⟨n, rfl⟩ := Nat.exists_eq_succ_of_ne_zero (Nat.ne_of_gt lt)
      simp only [List.length_nil] at ends
      simp [words, ends]
  | cons t ws ih =>
      obtain ⟨n, rfl⟩ := Nat.exists_eq_succ_of_ne_zero (Nat.ne_of_gt (Nat.zero_lt_of_lt lt))
      have head : argv 0 = some t := fills 0 (by simp)
      simp only [words, head]
      have tail : Fills (fun i => argv (i + 1)) ws := by
        intro i lt
        simpa using fills (i + 1) (by simpa using lt)
      rw [ih tail ends (Nat.lt_of_succ_lt_succ lt)]

/-! ## Command by command -/

namespace Cmd

/-- The process that reads the command does not end before it has. -/
def Lives (os : Os) (c : Cmd) : Prop :=
  c.words.length ≤ maxargs ∧ (∀ r ∈ c.ins, os.Finds r) ∧ ∀ r ∈ c.outs, os.Finds r

instance (c : Cmd) : Decidable (c.Lives os) := inferInstanceAs (Decidable (_ ∧ _))

/-- The input once its redirections are made. -/
def input (os : Os) (c : Cmd) (i : Desc) : Desc := c.ins.foldr (os.effect .rdonly) i

def output (os : Os) (c : Cmd) (o : Desc) : Desc := c.outs.foldr (os.effect .wronly) o

/-- What the process that runs the command spawns. -/
def spawned (c : Cmd) (i o : Desc) : List Spawned :=
  if c.words ≠ [] ∧ c.words.length < maxargs then [⟨c.words, some i, some o⟩] else []

end Cmd

/-- The commands of a process that has the input `i` and the output `o`. -/
def cmdsRun (os : Os) (i o : Desc) : List Cmd → List Spawned
  | [] => []
  | c :: cs =>
      if c.Lives os then
        match c.after with
        | none => c.spawned (c.input os i) (c.output os o)
        | some (.pipe, k) =>
            c.spawned (c.input os i) (.pipeWrite k) ++
              if os.forks k then cmdsRun os (.pipeRead k) (c.output os o) cs else []
        | some (_, k) =>
            (if os.forks k then c.spawned (c.input os i) (c.output os o) else []) ++
              cmdsRun os (c.input os i) (c.output os o) cs
      else []

/-- The command that is being read goes on as it began. -/
theorem commandsFrom_eq_cons (c : Cmd) (line : List Token) :
    ∃ d ds, commandsFrom c line = d :: ds ∧ d.before = c.before ∧
      c.words.length ≤ d.words.length ∧ c.ins ⊆ d.ins ∧ c.outs ⊆ d.outs := by
  induction c, line using commandsFrom.induct with
  | case2 c t rest ih =>
      obtain ⟨d, ds, eq, before, words, ins, outs⟩ := ih
      refine ⟨d, ds, eq, before, ?_, ins, outs⟩
      simp only [List.length_append, List.length_singleton] at words
      omega
  | case3 c t rest ih =>
      obtain ⟨d, ds, eq, before, words, ins, outs⟩ := ih
      exact ⟨d, ds, eq, before, words, fun r hr => ins (List.mem_cons_of_mem _ hr), outs⟩
  | case5 c t rest ih =>
      obtain ⟨d, ds, eq, before, words, ins, outs⟩ := ih
      exact ⟨d, ds, eq, before, words, ins, fun r hr => outs (List.mem_cons_of_mem _ hr)⟩
  | case1 c => exact ⟨c, [], rfl, rfl, Nat.le_refl _, List.Subset.refl _, List.Subset.refl _⟩
  | case4 c rest h =>
      refine ⟨c, [], ?_, rfl, Nat.le_refl _, List.Subset.refl _, List.Subset.refl _⟩
      rw [commandsFrom]
      exact h
  | case6 c rest h =>
      refine ⟨c, [], ?_, rfl, Nat.le_refl _, List.Subset.refl _, List.Subset.refl _⟩
      rw [commandsFrom]
      exact h
  | case7 c j rest ih =>
      exact ⟨_, _, rfl, rfl, Nat.le_refl _, List.Subset.refl _, List.Subset.refl _⟩

theorem cmdsRun_dead {d : Cmd} {ds : List Cmd} (dead : ¬ d.Lives os) :
    cmdsRun os i o (d :: ds) = [] := by
  rw [cmdsRun, if_neg dead]

/-- What a process with these tokens left, and all that it forks, will spawn. -/
def Shell.spawnsOf (os : Os) (line : List Token) (sh : Shell) : List Spawned :=
  spawns ((parsecmd os line sh).map (Except.bind · Shell.run))

/-- The state of a process that is reading `c`. -/
def Cmd.shell (os : Os) (c : Cmd) (i o : Desc) (argv : Nat → Option String) : Shell :=
  ⟨.two (c.input os i) (c.output os o), argv, c.words.length⟩

theorem Shell.run_returned {ws : List String} {argv : Nat → Option String} (fills : Fills argv ws)
    (nonempty : ws ≠ []) (short : ws.length < maxargs) (i o : Desc) :
    Shell.run ⟨.two i o, argv, ws.length⟩ = .ok (some ⟨ws, some i, some o⟩) := by
  have kept : Fills (Function.update argv ws.length none) ws := fun i lt => by
    rw [Function.update_of_ne (Nat.ne_of_lt lt)]
    exact fills i lt
  have args := kept.words_eq (Function.update_self ..) short
  rw [Shell.run, if_neg fun zero => nonempty (List.length_eq_zero_iff.mp zero), if_pos short]
  show Except.ok (some (Spawned.mk (words (Function.update argv ws.length none) maxargs) _ _)) = _
  rw [args]
  rfl

theorem spawns_returned {c : Cmd} {argv : Nat → Option String} (fills : Fills argv c.words)
    (i o : Desc) (more : List (Except Stop Shell)) :
    spawns ((.ok ⟨.two i o, argv, c.words.length⟩ :: more).map (Except.bind · Shell.run)) =
      c.spawned i o ++ spawns (more.map (Except.bind · Shell.run)) := by
  rw [List.map_cons, Except.bind, Cmd.spawned]
  by_cases empty : c.words = []
  · simp [Shell.run, spawns, empty, Except.toOption]
  by_cases short : c.words.length < maxargs
  · rw [Shell.run_returned fills empty short, if_pos ⟨empty, short⟩]
    rfl
  · rw [Shell.run, if_neg fun zero => empty (List.length_eq_zero_iff.mp zero), if_neg short,
      if_neg fun h => short h.2]
    rfl

/-- A redirection at the end of the line has no file. -/
theorem RedirsNamed.word {rest : List Token}
    (named : RedirsNamed (.less :: rest) ∨ RedirsNamed (.greater :: rest)) :
    ∃ t more, rest = .word t :: more := by
  cases rest with
  | nil => exact named.elim False.elim False.elim
  | cons tok more =>
      cases tok with
      | word t => exact ⟨t, more, rfl⟩
      | _ => exact named.elim False.elim False.elim

/-- The processes of the shell spawn what the commands of the line say, each with the
descriptors that the commands before it have left. -/
theorem parsecmd_refines (c : Cmd) (line : List Token) (named : RedirsNamed line)
    (open' : c.after = none) (lives : c.Lives os) (argv : Nat → Option String)
    (fills : Fills argv c.words) (i o : Desc) :
    Shell.spawnsOf os line (c.shell os i o argv) = cmdsRun os i o (commandsFrom c line) := by
  induction c, line using commandsFrom.induct generalizing argv i o with
  | case1 c =>
      rw [Shell.spawnsOf, parsecmd, commandsFrom, cmdsRun, if_pos lives, open']
      exact (spawns_returned fills _ _ []).trans (List.append_nil _)
  | case2 c t rest ih =>
      rw [Shell.spawnsOf, parsecmd, commandsFrom]
      by_cases full : maxargs ≤ c.words.length
      · obtain ⟨d, ds, eq, -, words, -⟩ :=
          commandsFrom_eq_cons { c with words := c.words ++ [t] } rest
        rw [if_pos (show maxargs ≤ (c.shell os i o argv).argc from full), eq,
          cmdsRun_dead fun lives => ?_]
        · rfl
        · have le := lives.1
          simp only [List.length_append, List.length_singleton] at words
          omega
      · rw [if_neg (show ¬ maxargs ≤ (c.shell os i o argv).argc from full)]
        have grown : Cmd.Lives os { c with words := c.words ++ [t] } := by
          refine ⟨?_, lives.2⟩
          simp only [List.length_append, List.length_singleton]
          omega
        have more := ih named open' grown _ (fills.snoc t) i o
        simp only [Cmd.shell, List.length_append, List.length_singleton] at more
        exact more
  | case3 c t rest ih =>
      rw [Shell.spawnsOf, parsecmd, commandsFrom]
      have redirect := os.redirect_input ⟨rest.length, t⟩ (c.input os i) (c.output os o)
      simp only at redirect
      simp only [Cmd.shell, redirect]
      by_cases finds : os.Finds ⟨rest.length, t⟩
      · rw [if_pos finds]
        refine ih named open' ⟨lives.1, fun r hr => ?_, lives.2.2⟩ argv fills i o
        rcases List.mem_cons.mp hr with rfl | hr
        · exact finds
        · exact lives.2.1 r hr
      · obtain ⟨d, ds, eq, -, -, ins, -⟩ :=
          commandsFrom_eq_cons { c with ins := ⟨rest.length, t⟩ :: c.ins } rest
        rw [if_neg finds, eq, cmdsRun_dead fun lives => finds (lives.2.1 _ (ins List.mem_cons_self))]
        rfl
  | case4 c rest h =>
      obtain ⟨t, more, eq⟩ := RedirsNamed.word (.inl named)
      exact absurd eq (h t more)
  | case5 c t rest ih =>
      rw [Shell.spawnsOf, parsecmd, commandsFrom]
      have redirect := os.redirect_output ⟨rest.length, t⟩ (c.input os i) (c.output os o)
      simp only at redirect
      simp only [Cmd.shell, redirect]
      by_cases finds : os.Finds ⟨rest.length, t⟩
      · rw [if_pos finds]
        refine ih named open' ⟨lives.1, lives.2.1, fun r hr => ?_⟩ argv fills i o
        rcases List.mem_cons.mp hr with rfl | hr
        · exact finds
        · exact lives.2.2 r hr
      · obtain ⟨d, ds, eq, -, -, -, outs⟩ :=
          commandsFrom_eq_cons { c with outs := ⟨rest.length, t⟩ :: c.outs } rest
        rw [if_neg finds, eq, cmdsRun_dead fun lives => finds (lives.2.2 _ (outs List.mem_cons_self))]
        rfl
  | case6 c rest h =>
      obtain ⟨t, more, eq⟩ := RedirsNamed.word (.inr named)
      exact absurd eq (h t more)
  | case7 c j rest ih =>
      have lives' : Cmd.Lives os { c with after := some (j, rest.length) } := lives
      have fresh : ∀ i o, Shell.spawnsOf os rest ⟨.two i o, argv, 0⟩ =
          cmdsRun os i o (commandsFrom (.fresh (some (j, rest.length))) rest) := fun i o =>
        ih named rfl ⟨Nat.zero_le _, by simp [Cmd.fresh], by simp [Cmd.fresh]⟩ argv (.nil argv) i o
      rw [Shell.spawnsOf, commandsFrom, cmdsRun, if_pos lives']
      cases j with
      | pipe =>
          simp only [parsecmd, Cmd.shell, FdTable.pipe_two, FdTable.left_piped,
            FdTable.right_piped]
          rw [spawns_returned fills]
          refine congrArg (c.spawned _ _ ++ ·) ?_
          split
          · exact fresh _ _
          · rfl
      | semi =>
          simp only [parsecmd, Cmd.shell]
          rw [← fresh]
          split
          · exact spawns_returned fills _ _ _
          · rfl
      | amp =>
          simp only [parsecmd, Cmd.shell]
          rw [← fresh]
          split
          · exact spawns_returned fills _ _ _
          · rfl

/-- `runcmd` on a whole line. -/
theorem runcmd_refines (os : Os) {line : List Token} (named : RedirsNamed line) (i o : Desc)
    (argv : Nat → Option String) :
    spawns (runcmd os line (.two i o) argv) = cmdsRun os i o (commands line) :=
  parsecmd_refines (.fresh none) line named rfl ⟨Nat.zero_le _, by simp [Cmd.fresh],
    by simp [Cmd.fresh]⟩ argv (.nil argv) i o

/-! ## How the commands lie on the line -/

/-- Redirections made between `hi` and `lo` tokens from the end, the last one first. -/
def Placed (lo hi : Nat) (rs : List Redir) : Prop :=
  (∀ r ∈ rs, lo ≤ r.left ∧ r.left < hi) ∧ rs.Pairwise fun r r' => r.left < r'.left

/-- Commands that are joined to each other, with `n` tokens left before the first one. -/
inductive Chain : Nat → Option (Join × Nat) → List Cmd → Prop
  | last {n : Nat} {before : Option (Join × Nat)} {c : Cmd} (begins : c.before = before)
      (ins : Placed 0 n c.ins) (outs : Placed 0 n c.outs) (after : c.after = none) :
      Chain n before [c]
  | join {n k : Nat} {j : Join} {before : Option (Join × Nat)} {c : Cmd} {cs : List Cmd}
      (begins : c.before = before) (le : k ≤ n) (ins : Placed k n c.ins)
      (outs : Placed k n c.outs) (after : c.after = some (j, k)) (more : Chain k (some (j, k)) cs) :
      Chain n before (c :: cs)

theorem Placed.mono {lo lo' hi : Nat} {rs : List Redir} (placed : Placed lo hi rs)
    (le : lo' ≤ lo) : Placed lo' hi rs :=
  ⟨fun r hr => ⟨Nat.le_trans le (placed.1 r hr).1, (placed.1 r hr).2⟩, placed.2⟩

theorem Placed.nil (lo hi : Nat) : Placed lo hi [] := ⟨by simp, .nil⟩

theorem Placed.cons {lo hi : Nat} {rs : List Redir} (placed : Placed (lo + 1) hi rs)
    (lt : lo < hi) (t : String) : Placed lo hi (⟨lo, t⟩ :: rs) := by
  refine ⟨fun r hr => ?_, List.pairwise_cons.mpr ⟨fun r hr => (placed.1 r hr).1, placed.2⟩⟩
  rcases List.mem_cons.mp hr with rfl | hr
  · exact ⟨Nat.le_refl _, lt⟩
  · exact (placed.mono (Nat.le_succ lo)).1 r hr

theorem chain_commandsFrom (c : Cmd) (line : List Token) (n : Nat) (fits : line.length ≤ n)
    (open' : c.after = none) (ins : Placed line.length n c.ins)
    (outs : Placed line.length n c.outs) : Chain n c.before (commandsFrom c line) := by
  induction c, line using commandsFrom.induct generalizing n with
  | case1 c => exact .last rfl ins outs open'
  | case2 c t rest ih =>
      simp only [List.length_cons] at fits ins outs
      exact ih n (by omega) open' (ins.mono (by omega)) (outs.mono (by omega))
  | case3 c t rest ih =>
      simp only [List.length_cons] at fits ins outs
      exact ih n (by omega) open' ((ins.mono (by omega)).cons (by omega) t) (outs.mono (by omega))
  | case4 c rest h =>
      rw [commandsFrom]
      · exact .last rfl (ins.mono (Nat.zero_le _)) (outs.mono (Nat.zero_le _)) open'
      · exact h
  | case5 c t rest ih =>
      simp only [List.length_cons] at fits ins outs
      exact ih n (by omega) open' (ins.mono (by omega)) ((outs.mono (by omega)).cons (by omega) t)
  | case6 c rest h =>
      rw [commandsFrom]
      · exact .last rfl (ins.mono (Nat.zero_le _)) (outs.mono (Nat.zero_le _)) open'
      · exact h
  | case7 c j rest ih =>
      simp only [List.length_cons] at fits ins outs
      rw [commandsFrom]
      exact .join (c := { c with after := some (j, rest.length) }) rfl (by omega)
        (ins.mono (by omega)) (outs.mono (by omega)) rfl
          (ih rest.length (Nat.le_refl _) rfl (.nil _ _) (.nil _ _))

/-- The descriptor is none that is opened with fewer than `n` tokens left. -/
def Desc.Before (n : Nat) (d : Desc) : Prop :=
  ∀ left path omode, d = .file left path omode → n ≤ left

theorem Os.effect_before {omode : Omode} {r : Redir} {d : Desc} {n : Nat} (before : d.Before n)
    (le : n ≤ r.left) : (os.effect omode r d).Before n := by
  unfold Os.effect
  split
  · intro left path omode eq
    cases eq
    exact le
  split
  · intro left path omode eq
    cases eq
    exact le
  · exact before

theorem Placed.before {omode : Omode} {lo hi : Nat} {rs : List Redir} {d : Desc}
    (placed : Placed lo hi rs) (le : lo ≤ hi) (before : d.Before hi) :
    (rs.foldr (os.effect omode) d).Before lo := by
  induction rs with
  | nil => exact fun left path omode eq => Nat.le_trans le (before left path omode eq)
  | cons r rs ih =>
      have rest : Placed lo hi rs :=
        ⟨fun r' hr' => placed.1 r' (List.mem_cons_of_mem _ hr'), (List.pairwise_cons.mp placed.2).2⟩
      exact Os.effect_before (ih rest) (placed.1 r List.mem_cons_self).1

/-- What the earlier redirections of a command left is not what the last one opens. -/
theorem Placed.tail_before {omode : Omode} {lo hi : Nat} {r : Redir} {rs : List Redir} {d : Desc}
    (placed : Placed lo hi (r :: rs)) (before : d.Before hi) :
    (rs.foldr (os.effect omode) d).Before (r.left + 1) := by
  obtain ⟨later, sorted⟩ := List.pairwise_cons.mp placed.2
  have tail : Placed (r.left + 1) hi rs :=
    ⟨fun r' hr' => ⟨later r' hr', (placed.1 r' (List.mem_cons_of_mem _ hr')).2⟩, sorted⟩
  exact tail.before (placed.1 r List.mem_cons_self).2 before

theorem Os.effect_eq_input {r : Redir} {d : Desc} (before : d.Before (r.left + 1)) :
    os.effect .rdonly r d = .file r.left r.file .rdonly ↔ os.opens r.left := by
  unfold Os.effect
  by_cases opens : os.opens r.left
  · simp [opens]
  by_cases reopens : os.reopens r.left
  · simp [opens, reopens]
  · simp only [opens, reopens]
    refine iff_of_false (fun eq => ?_) (by simp)
    exact absurd (before _ _ _ eq) (by omega)

theorem Os.effect_eq_output {r : Redir} {d : Desc} (before : d.Before (r.left + 1)) :
    os.effect .wronly r d = os.output r ↔ os.opens r.left ∨ os.reopens r.left := by
  unfold Os.effect Os.output
  by_cases opens : os.opens r.left
  · simp [opens]
  by_cases reopens : os.reopens r.left
  · simp [opens, reopens]
  · simp only [opens, reopens]
    refine iff_of_false (fun eq => ?_) (by simp)
    exact absurd (before _ _ _ eq) (by omega)

/-! ## When the line means what it says -/

/-- What the command itself needs: not too many words, files that are there, for `<` even
before the shell creates them, no output besides its pipe, and a process of its own. -/
structure Cmd.Fits (os : Os) (c : Cmd) : Prop where
  short : c.words.length < maxargs
  ins : ∀ r ∈ c.ins, os.Finds r
  outs : ∀ r ∈ c.outs, os.Finds r
  input : ∀ r ∈ c.ins.head?, os.opens r.left
  output : ∀ r ∈ c.outs.head?, os.opens r.left ∨ os.reopens r.left
  piped : ∀ k, c.after = some (.pipe, k) → c.outs = []
  forked : ∀ j k, c.after = some (j, k) → os.forks k

/-- Each command has what it needs, and once a command had an input of its own, or a
redirected output, so has each command after it. -/
def RunsAsSaid (os : Os) (cs : List Cmd) : Prop :=
  (∀ c ∈ cs, c.Fits os) ∧
    cs.Pairwise fun c d => (c.OwnInput → d.OwnInput) ∧ (c.outs ≠ [] → d.OwnOutput)

section Meaning

variable {c : Cmd} {cs : List Cmd} {n : Nat} {before : Option (Join × Nat)}

theorem Cmd.input_eq_stdin (placed : Placed k n c.ins) (fresh : i.Before n)
    (piped : ∀ k, c.before = some (.pipe, k) → i = .pipeRead k) :
    c.input os i = c.stdin ↔
      (∀ r ∈ c.ins.head?, os.opens r.left) ∧ (c.OwnInput ∨ i = .shellIn) := by
  unfold input stdin OwnInput
  cases hins : c.ins with
  | cons r rs =>
      rw [hins] at placed
      simp [os.effect_eq_input (placed.tail_before fresh)]
  | nil =>
      rcases hbefore : c.before with _ | ⟨_ | _ | _, k⟩
      · simp
      · simp [piped k hbefore]
      · simp
      · simp

theorem Cmd.output_eq_stdout (placed : Placed k n c.outs) (fresh : o.Before n)
    (unpiped : ∀ k, c.after ≠ some (.pipe, k)) :
    c.output os o = c.stdout os ↔
      (∀ r ∈ c.outs.head?, os.opens r.left ∨ os.reopens r.left) ∧
        (c.OwnOutput ∨ o = .shellOut) := by
  unfold output stdout OwnOutput
  cases houts : c.outs with
  | cons r rs =>
      rw [houts] at placed
      simp [os.effect_eq_output (placed.tail_before fresh)]
  | nil =>
      rcases hafter : c.after with _ | ⟨_ | _ | _, k⟩
      · simp
      · exact absurd hafter (unpiped k)
      · simp
      · simp

theorem Cmd.pipeWrite_eq_stdout (after : c.after = some (.pipe, k)) :
    .pipeWrite k = c.stdout os ↔ c.outs = [] := by
  unfold stdout
  cases c.outs with
  | cons r rs => simp [Os.output]
  | nil => simp [after]

/-- What the next command inherits, once the input is what the line says. -/
theorem Cmd.input_ne_shellIn (opens : ∀ r ∈ c.ins.head?, os.opens r.left)
    (piped : ∀ k, c.before = some (.pipe, k) → i = .pipeRead k) :
    c.input os i ≠ .shellIn ↔ c.OwnInput ∨ i ≠ .shellIn := by
  unfold input OwnInput
  cases hins : c.ins with
  | cons r rs =>
      rw [hins] at opens
      simp [Os.effect, opens r rfl]
  | nil =>
      simp only [List.foldr_nil, ne_eq, not_true_eq_false, false_or]
      constructor
      · exact .inr
      · intro own
        rcases own with ⟨k, before⟩ | changed
        · simp [piped k before]
        · exact changed

theorem Cmd.output_ne_shellOut
    (opens : ∀ r ∈ c.outs.head?, os.opens r.left ∨ os.reopens r.left) :
    c.output os o ≠ .shellOut ↔ c.outs ≠ [] ∨ o ≠ .shellOut := by
  unfold output
  cases houts : c.outs with
  | cons r rs =>
      rw [houts] at opens
      rcases opens r rfl with opens | reopens
      · simp [Os.effect, opens]
      · by_cases opens : os.opens r.left <;> simp [Os.effect, opens, reopens]
  | nil => simp

theorem cmdsRun_length (i o : Desc) : (cmdsRun os i o cs).length ≤ cs.length := by
  have one : ∀ (c : Cmd) (i o : Desc), (c.spawned i o).length ≤ 1 := fun c i o => by
    unfold Cmd.spawned
    split <;> simp
  induction cs generalizing i o with
  | nil => simp [cmdsRun]
  | cons c cs ih =>
      have first := one c (c.input os i)
      have next := fun i => ih i (c.output os o)
      rw [cmdsRun, List.length_cons]
      split
      · split
        · exact Nat.le_trans (first _) (by omega)
        · rw [List.length_append]
          have := first (.pipeWrite ‹Nat›)
          have := next (.pipeRead ‹Nat›)
          split
          · omega
          · rw [List.length_nil]
            omega
        · rw [List.length_append]
          have := first (c.output os o)
          have := next (c.input os i)
          split
          · omega
          · rw [List.length_nil]
            omega
      · exact Nat.zero_le _

/-- The first process is that of the first command. -/
theorem Cmd.spawned_append_eq (nonempty : c.words ≠ []) {more meant : List Spawned}
    (le : more.length ≤ meant.length) :
    c.spawned i o ++ more = c.meaning os :: meant ↔
      c.words.length < maxargs ∧ i = c.stdin ∧ o = c.stdout os ∧ more = meant := by
  unfold spawned meaning
  by_cases short : c.words.length < maxargs
  · simp [nonempty, short, and_assoc]
  · rw [if_neg fun h => short h.2, List.nil_append]
    refine iff_of_false (fun eq => ?_) fun h => short h.1
    rw [eq, List.length_cons] at le
    omega

/-- What the commands need when they inherit `i` and `o`. -/
def RunsFrom (os : Os) (i o : Desc) (cs : List Cmd) : Prop :=
  RunsAsSaid os cs ∧ (i ≠ .shellIn → ∀ d ∈ cs, d.OwnInput) ∧
    (o ≠ .shellOut → ∀ d ∈ cs, d.OwnOutput)

theorem runsFrom_cons : RunsFrom os i o (c :: cs) ↔
    c.Fits os ∧ (c.OwnInput ∨ i = .shellIn) ∧ (c.OwnOutput ∨ o = .shellOut) ∧
      RunsAsSaid os cs ∧ (c.OwnInput ∨ i ≠ .shellIn → ∀ d ∈ cs, d.OwnInput) ∧
      (c.outs ≠ [] ∨ o ≠ .shellOut → ∀ d ∈ cs, d.OwnOutput) := by
  simp only [RunsFrom, RunsAsSaid, List.forall_mem_cons, List.pairwise_cons]
  constructor
  · intro h
    obtain ⟨⟨⟨fits, all⟩, first, sorted⟩, input, output⟩ := h
    refine ⟨fits, ?_, ?_, ⟨all, sorted⟩, fun own d hd => ?_, fun own d hd => ?_⟩
    · by_cases same : i = .shellIn
      · exact .inr same
      · exact .inl (input same).1
    · by_cases same : o = .shellOut
      · exact .inr same
      · exact .inl (output same).1
    · exact own.elim (first d hd).1 fun ne => (input ne).2 d hd
    · exact own.elim (first d hd).2 fun ne => (output ne).2 d hd
  · intro h
    obtain ⟨fits, input, output, ⟨all, sorted⟩, ins, outs⟩ := h
    exact ⟨⟨⟨fits, all⟩, fun d hd => ⟨fun own => ins (.inl own) d hd, fun own => outs (.inl own) d hd⟩,
      sorted⟩, fun ne => ⟨input.resolve_right ne, ins (.inr ne)⟩,
      fun ne => ⟨output.resolve_right ne, outs (.inr ne)⟩⟩

theorem Chain.ne_nil (chain : Chain n before cs) : cs ≠ [] := by
  cases chain <;> exact List.cons_ne_nil _ _

theorem Cmd.Fits.lives (fits : c.Fits os) : c.Lives os :=
  ⟨Nat.le_of_lt fits.short, fits.ins, fits.outs⟩

/-- Behind a pipe every command needs an input of its own. -/
theorem Chain.ownInput (chain : Chain n (some (.pipe, k)) cs) (said : RunsAsSaid os cs) :
    ∀ d ∈ cs, d.OwnInput := by
  have sorted := said.2
  cases chain with
  | last begins =>
      intro d hd
      cases List.mem_singleton.mp hd
      exact .inr ⟨k, begins⟩
  | join begins =>
      have first : Cmd.OwnInput _ := .inr ⟨k, begins⟩
      intro d hd
      rcases List.mem_cons.mp hd with rfl | hd
      · exact first
      · exact ((List.pairwise_cons.mp sorted).1 d hd).1 first

/-- One step at `|`: the parent writes to the pipe, the child goes on reading from it. -/
theorem cmdsRun_pipe_iff (nonempty : c.words ≠ []) (ins : Placed k n c.ins)
    (after : c.after = some (.pipe, k)) (chain : Chain k (some (.pipe, k)) cs)
    (fresh : i.Before n) (piped : ∀ k, c.before = some (.pipe, k) → i = .pipeRead k)
    (ih : cmdsRun os (.pipeRead k) (c.output os o) cs = cs.map (Cmd.meaning os) ↔
      RunsFrom os (.pipeRead k) (c.output os o) cs) :
    cmdsRun os i o (c :: cs) = (c :: cs).map (Cmd.meaning os) ↔ RunsFrom os i o (c :: cs) := by
  have input := @Cmd.input_eq_stdin os _ _ c _ ins fresh piped
  have le : (if os.forks k then cmdsRun os (.pipeRead k) (c.output os o) cs else []).length ≤
      (cs.map (Cmd.meaning os)).length := by
    rw [List.length_map]
    split
    · exact cmdsRun_length _ _
    · exact Nat.zero_le _
  have first := @Cmd.spawned_append_eq os (c.input os i) (.pipeWrite k) c nonempty _ _ le
  rw [runsFrom_cons, cmdsRun, after, List.map_cons]
  constructor
  · intro eq
    by_cases lives : c.Lives os
    · rw [if_pos lives] at eq
      obtain ⟨short, hin, hout, rest⟩ := first.mp eq
      obtain ⟨headIn, ownIn⟩ := input.mp hin
      have unredirected := (Cmd.pipeWrite_eq_stdout after).mp hout
      have forks : os.forks k := by
        by_contra fails
        rw [if_neg fails] at rest
        exact chain.ne_nil (List.map_eq_nil_iff.mp rest.symm)
      rw [if_pos forks] at rest
      obtain ⟨said, ownInput, ownOutput⟩ := ih.mp rest
      have same : c.output os o = o := by rw [Cmd.output, unredirected, List.foldr_nil]
      rw [same] at ownOutput
      refine ⟨⟨short, lives.2.1, lives.2.2, headIn, by simp [unredirected],
        fun _ _ => unredirected, fun j k' same => ?_⟩, ownIn, .inl (.inr ⟨k, after⟩), said,
        fun _ => ownInput (by simp),
          fun own => ownOutput (own.resolve_left fun h => h unredirected)⟩
      rw [after] at same
      cases same
      exact forks
    · rw [if_neg lives] at eq
      cases eq
  · intro h
    obtain ⟨fits, ownIn, -, said, -, outs⟩ := h
    have unredirected := fits.piped k after
    have same : c.output os o = o := by rw [Cmd.output, unredirected, List.foldr_nil]
    rw [if_pos fits.lives]
    refine first.mpr ⟨fits.short, input.mpr ⟨fits.input, ownIn⟩,
      (Cmd.pipeWrite_eq_stdout after).mpr unredirected, ?_⟩
    rw [if_pos (fits.forked _ k after)]
    refine ih.mpr ⟨said, fun _ => chain.ownInput said, fun ne => outs (.inr ?_)⟩
    rwa [same] at ne

/-- One step at `;` or `&`: the parent goes on with the descriptors of the child. -/
theorem cmdsRun_seq_iff {j : Join} (nonempty : c.words ≠ []) (ins : Placed k n c.ins)
    (outs : Placed k n c.outs) (after : c.after = some (j, k)) (seq : j ≠ .pipe)
    (freshIn : i.Before n) (freshOut : o.Before n)
    (piped : ∀ k, c.before = some (.pipe, k) → i = .pipeRead k)
    (ih : cmdsRun os (c.input os i) (c.output os o) cs = cs.map (Cmd.meaning os) ↔
      RunsFrom os (c.input os i) (c.output os o) cs) :
    cmdsRun os i o (c :: cs) = (c :: cs).map (Cmd.meaning os) ↔ RunsFrom os i o (c :: cs) := by
  have unpiped : ∀ k, c.after ≠ some (.pipe, k) := fun k' same => by
    rw [after] at same
    cases same
    exact seq rfl
  have input := @Cmd.input_eq_stdin os _ _ c _ ins freshIn piped
  have output := @Cmd.output_eq_stdout os _ _ c _ outs freshOut unpiped
  have le : (cmdsRun os (c.input os i) (c.output os o) cs).length ≤
      (cs.map (Cmd.meaning os)).length := by
    rw [List.length_map]
    exact cmdsRun_length _ _
  have first := @Cmd.spawned_append_eq os (c.input os i) (c.output os o) c nonempty _ _ le
  have run : cmdsRun os i o (c :: cs) = if c.Lives os then
      (if os.forks k then c.spawned (c.input os i) (c.output os o) else []) ++
        cmdsRun os (c.input os i) (c.output os o) cs else [] := by
    rw [cmdsRun, after]
    cases j with
    | pipe => exact absurd rfl seq
    | semi => rfl
    | amp => rfl
  rw [runsFrom_cons, run, List.map_cons]
  constructor
  · intro eq
    by_cases lives : c.Lives os
    · rw [if_pos lives] at eq
      have forks : os.forks k := by
        by_contra fails
        rw [if_neg fails, List.nil_append] at eq
        rw [eq, List.length_cons] at le
        omega
      rw [if_pos forks] at eq
      obtain ⟨short, hin, hout, rest⟩ := first.mp eq
      obtain ⟨headIn, ownIn⟩ := input.mp hin
      obtain ⟨headOut, ownOut⟩ := output.mp hout
      obtain ⟨said, ownInput, ownOutput⟩ := ih.mp rest
      rw [Cmd.input_ne_shellIn headIn piped] at ownInput
      rw [Cmd.output_ne_shellOut headOut] at ownOutput
      refine ⟨⟨short, lives.2.1, lives.2.2, headIn, headOut, fun k' same => absurd same (unpiped k'),
        fun j' k' same => ?_⟩, ownIn, ownOut, said, ownInput, ownOutput⟩
      rw [after] at same
      cases same
      exact forks
    · rw [if_neg lives] at eq
      cases eq
  · intro h
    obtain ⟨fits, ownIn, ownOut, said, ownInput, ownOutput⟩ := h
    rw [if_pos fits.lives, if_pos (fits.forked _ k after)]
    refine first.mpr ⟨fits.short, input.mpr ⟨fits.input, ownIn⟩,
      output.mpr ⟨fits.output, ownOut⟩, ih.mpr ⟨said, ?_, ?_⟩⟩
    · rwa [Cmd.input_ne_shellIn fits.input piped]
    · rwa [Cmd.output_ne_shellOut fits.output]

/-- The last command of the line. -/
theorem cmdsRun_last_iff (nonempty : c.words ≠ []) (ins : Placed 0 n c.ins)
    (outs : Placed 0 n c.outs) (after : c.after = none) (freshIn : i.Before n)
    (freshOut : o.Before n) (piped : ∀ k, c.before = some (.pipe, k) → i = .pipeRead k) :
    cmdsRun os i o [c] = [c].map (Cmd.meaning os) ↔ RunsFrom os i o [c] := by
  have input := @Cmd.input_eq_stdin os _ _ c _ ins freshIn piped
  have output := @Cmd.output_eq_stdout os _ _ c _ outs freshOut (by simp [after])
  have first := @Cmd.spawned_append_eq os (c.input os i) (c.output os o) c nonempty _ _
    (Nat.le_refl ([] : List Spawned).length)
  rw [List.append_nil] at first
  rw [runsFrom_cons, cmdsRun, after, List.map_cons, List.map_nil]
  constructor
  · intro eq
    by_cases lives : c.Lives os
    · rw [if_pos lives] at eq
      obtain ⟨short, hin, hout, -⟩ := first.mp eq
      obtain ⟨headIn, ownIn⟩ := input.mp hin
      obtain ⟨headOut, ownOut⟩ := output.mp hout
      exact ⟨⟨short, lives.2.1, lives.2.2, headIn, headOut, by simp [after], by simp [after]⟩,
        ownIn, ownOut, ⟨by simp, .nil⟩, by simp, by simp⟩
    · rw [if_neg lives] at eq
      cases eq
  · intro h
    obtain ⟨fits, ownIn, ownOut, -⟩ := h
    rw [if_pos fits.lives]
    exact first.mpr ⟨fits.short, input.mpr ⟨fits.input, ownIn⟩,
      output.mpr ⟨fits.output, ownOut⟩, rfl⟩

/-- Commands that start with the descriptors `i` and `o` run as the line says, exactly
when they have what they need. -/
theorem cmdsRun_eq_iff (chain : Chain n before cs) (nonempty : ∀ c ∈ cs, c.words ≠ [])
    (freshIn : i.Before n) (freshOut : o.Before n)
    (piped : ∀ k, before = some (.pipe, k) → i = .pipeRead k) :
    cmdsRun os i o cs = cs.map (Cmd.meaning os) ↔ RunsFrom os i o cs := by
  induction chain generalizing i o with
  | last begins ins outs after =>
      subst begins
      exact cmdsRun_last_iff (nonempty _ List.mem_cons_self) ins outs after freshIn freshOut piped
  | @join n k j before c cs begins le ins outs after more ih =>
      subst begins
      have first := nonempty c List.mem_cons_self
      have rest : ∀ c ∈ cs, c.words ≠ [] := fun c hc => nonempty c (List.mem_cons_of_mem _ hc)
      have input : (c.input os i).Before k := ins.before le freshIn
      have output : (c.output os o).Before k := outs.before le freshOut
      by_cases seq : j = .pipe
      · subst seq
        refine cmdsRun_pipe_iff first ins after more freshIn piped (ih rest ?_ output ?_)
        · intro left path omode eq
          cases eq
        · intro k' same
          cases same
          rfl
      · refine cmdsRun_seq_iff first ins outs after seq freshIn freshOut piped
          (ih rest input output ?_)
        intro k' same
        cases same
        exact absurd rfl seq

end Meaning

/-- The programs that the processes of a shell spawn are the commands of the line, each
with its own input and output, exactly when every command has what it needs. -/
theorem shell_line_iff {line : List Token} (isLine : IsLine line) (argv : Nat → Option String) :
    spawns (runcmd os line (.two .shellIn .shellOut) argv) =
        (commands line).map (Cmd.meaning os) ↔ RunsAsSaid os (commands line) := by
  have fresh : ∀ d : Desc, d = .shellIn ∨ d = .shellOut → d.Before line.length := by
    intro d shell left path omode eq
    rw [eq] at shell
    simp at shell
  have chain := chain_commandsFrom (.fresh none) line line.length (Nat.le_refl _) rfl (.nil _ _)
    (.nil _ _)
  rw [runcmd_refines os isLine.named, commands,
    cmdsRun_eq_iff chain isLine.nonempty (fresh _ (.inl rfl)) (fresh _ (.inr rfl))
      (by simp [Cmd.fresh])]
  exact ⟨fun h => h.1, fun said => ⟨said, by simp, by simp⟩⟩

/-- `ls | wc` -/
def pipeline : List Token := [.word "ls", .join .pipe, .word "wc"]

/-- A machine on which every call succeeds. -/
def obliging : Os := ⟨fun _ => true, fun _ => true, fun _ => true, fun _ => true, id⟩

theorem shell_line_iff_pipeline :
    spawns (runcmd obliging pipeline (.two .shellIn .shellOut) fun _ => none) =
        [⟨["ls"], some .shellIn, some (.pipeWrite 1)⟩,
          ⟨["wc"], some (.pipeRead 1), some .shellOut⟩] ↔
      RunsAsSaid obliging (commands pipeline) :=
  @shell_line_iff obliging pipeline
    ⟨by simp [pipeline, RedirsNamed], by simp [pipeline, commands, commandsFrom, Cmd.fresh]⟩ _

/-- In `ls > f ; wc` the output of `wc` goes to the file. -/
theorem shell_line_not : ¬ ∀ (os : Os) (line : List Token) (argv : Nat → Option String),
    IsLine line → spawns (runcmd os line (.two .shellIn .shellOut) argv) =
      (commands line).map (Cmd.meaning os) := by
  intro always
  have same := always obliging [.word "ls", .greater, .word "f", .join .semi, .word "wc"]
    (fun _ => none) ⟨by simp [RedirsNamed], by simp [commands, commandsFrom, Cmd.fresh]⟩
  revert same
  decide

end Mos
