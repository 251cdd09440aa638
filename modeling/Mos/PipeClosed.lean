import Mos.PipeRefs

/-!
# What `_pipe_is_closed` answers

`ProcOk` holds of every process after `pipe` has returned, through any
interleaving of the system calls of `dup`, `close` and `exit` whose descriptor
numbers are in range. Counting then compares the two reference counts. `dup` does
not check `newfdnum`: from `MAXFD` on, its `INDEX2FD` is a page of some window.
-/

namespace Mos

section Start

variable {π : PipePages} {x : Proc}

/-- The process has descriptors of the pipe, and is in none of the calls. -/
structure HoldsPipe (π : PipePages) (x : Proc) : Prop where
  idle : x.task = .idle
  fd_at : ∀ v q, π.IsFd q → x.page v = some q →
    ∃ n, IsSlot n ∧ v = fdPg n ∧ DataAt π x.page n
  data_at : ∀ v, x.page v = some π.data → ∃ n, IsSlot n ∧ v = dataPg n 0 ∧ FdAt π x.page n
  library : ∀ v q, π.Has q → x.page v = some q → (x.perm v).Has pteLibrary

/-- The descriptors a task is about are in the table. -/
def Task.InRange : Task → Prop
  | .unmapFd n after | .unmapData n after | .unmapPages n _ after | .closeFd n after =>
      IsSlot n ∧ after.Ok n
  | .dupPages old new _ | .dupFd old new => IsSlot old ∧ IsSlot new
  | .undupFd new | .undupPages new _ => IsSlot new
  | _ => True

/-- The process has no page of the pipe, whatever it is doing. -/
structure LacksPipe (π : PipePages) (x : Proc) : Prop where
  none : ∀ v q, π.Has q → x.page v ≠ some q
  task : x.task.InRange

theorem HoldsPipe.procOk (h : HoldsPipe π x) : ProcOk π x where
  fd_at := h.fd_at
  data_at v mapped := by
    obtain ⟨n, hn, eq, fd⟩ := h.data_at v mapped
    exact ⟨n, hn, eq, .inl fd⟩
  library := h.library
  task := by
    rw [h.idle]
    trivial

theorem LacksPipe.procOk (h : LacksPipe π x) : ProcOk π x := by
  have noFd : ∀ n, ¬ FdAt π x.page n := by
    intro n fd
    obtain ⟨q, isFd, mapped⟩ := fd
    exact h.none _ q (.inl isFd) mapped
  have noData : ∀ n, ¬ DataAt π x.page n := fun n => h.none _ _ (.inr rfl)
  refine ⟨fun v q isFd mapped => absurd mapped (h.none v q (.inl isFd)),
    fun v mapped => absurd mapped (h.none v _ (.inr rfl)),
    fun v q has mapped => absurd mapped (h.none v q has), ?_⟩
  have inRange := h.task
  cases task : x.task with
  | idle | exit | dead => trivial
  | unmapFd n after => rwa [task] at inRange
  | unmapData n after =>
      rw [task] at inRange
      exact ⟨inRange.1, noFd n, inRange.2⟩
  | unmapPages n pages after =>
      rw [task] at inRange
      exact ⟨inRange.1, noData n, inRange.2⟩
  | closeFd n after =>
      rw [task] at inRange
      exact ⟨inRange.1, noData n, inRange.2⟩
  | dupPages old new k =>
      rw [task] at inRange
      exact ⟨inRange.1, inRange.2, noFd new, iff_of_false (noData new) fun h => noFd old h.2⟩
  | dupFd old new =>
      rw [task] at inRange
      exact ⟨inRange.1, inRange.2, noFd new, iff_of_false (noData new) (noFd old)⟩
  | undupFd new =>
      rw [task] at inRange
      exact ⟨inRange, noFd new⟩
  | undupPages new k =>
      rw [task] at inRange
      exact ⟨inRange, noFd new, fun _ => noData new⟩

theorem fdAlloc_some {n : Word} (h : x.fdAlloc = some n) :
    IsSlot n ∧ x.page (fdPg n) = none := by
  have free := List.find?_some h
  obtain ⟨i, mem, rfl⟩ := List.mem_map.mp (List.mem_of_find?_eq_some h)
  rw [List.mem_range] at mem
  unfold maxfd at mem
  refine ⟨?_, Option.isNone_iff_eq_none.mp free⟩
  rw [IsSlot, BitVec.toNat_ofNat]
  unfold maxfd
  omega

theorem memAlloc_some {va perm : Word} {pp : Option Nat} {x' : Proc}
    (h : x.memAlloc va perm pp = some x') :
    ∃ q, pp = some q ∧
      x' = { x with
        page := Function.update x.page (ppn va) (some q)
        perm := Function.update x.perm (ppn va) perm } := by
  unfold Proc.memAlloc at h
  split at h
  · cases h
  · split at h
    · cases h
    · cases h
      exact ⟨_, rfl, rfl⟩

/-- The four pages `pipe` maps for descriptors `n0` and `n1`. -/
def onPipe {α : Type} (f : Nat → α) (n0 n1 : Word) (a b c : α) : Nat → α :=
  Function.update (Function.update (Function.update (Function.update f (fdPg n0) a) (fdPg n1) b)
    (dataPg n0 0) c) (dataPg n1 0) c

section OnPipe

variable {α : Type} {f : Nat → α} {n0 n1 : Word} {a b c : α} (h0 : IsSlot n0) (h1 : IsSlot n1)
  (apart : n0 ≠ n1)

theorem onPipe_data1 : onPipe f n0 n1 a b c (dataPg n1 0) = c := Function.update_self ..

theorem onPipe_other {v : Nat} (h : v ≠ fdPg n0 ∧ v ≠ fdPg n1 ∧ v ≠ dataPg n0 0 ∧ v ≠ dataPg n1 0) :
    onPipe f n0 n1 a b c v = f v := by
  rw [onPipe, Function.update_of_ne h.2.2.2, Function.update_of_ne h.2.2.1,
    Function.update_of_ne h.2.1, Function.update_of_ne h.1]

include h0 h1

theorem onPipe_fd1 : onPipe f n0 n1 a b c (fdPg n1) = b := by
  rw [onPipe, Function.update_of_ne (fdPg_ne_dataPg h1 h1 (by decide)),
    Function.update_of_ne (fdPg_ne_dataPg h1 h0 (by decide)), Function.update_self]

include apart

theorem onPipe_data0 : onPipe f n0 n1 a b c (dataPg n0 0) = c := by
  have ne : dataPg n0 0 ≠ dataPg n1 0 := fun same =>
    apart (dataPg_inj h0 h1 (by decide) (by decide) same).1
  rw [onPipe, Function.update_of_ne ne, Function.update_self]

theorem onPipe_fd0 : onPipe f n0 n1 a b c (fdPg n0) = a := by
  have ne : fdPg n0 ≠ fdPg n1 := fun same => apart (fdPg_inj h0 h1 same)
  rw [onPipe, Function.update_of_ne (fdPg_ne_dataPg h0 h1 (by decide)),
    Function.update_of_ne (fdPg_ne_dataPg h0 h0 (by decide)), Function.update_of_ne ne,
    Function.update_self]

end OnPipe

theorem pipe_failed {x' : Proc} {n : Word × Word} (h : (x, none) = (x', some n)) : False :=
  nomatch (Prod.mk.inj h).2

theorem pipeData_some {m0 m1 n0 n1 : Word} {pp : Option Nat} {mem : Bool} {x' : Proc}
    (done : x.pipeData m0 m1 pp mem = (x', some (n0, n1))) :
    m0 = n0 ∧ m1 = n1 ∧ ∃ q, pp = some q ∧ x' = { x with
      page := Function.update (Function.update x.page (dataPg m0 0) (some q)) (dataPg m1 0) (some q)
      perm := Function.update (Function.update x.perm (dataPg m0 0) (pteD ||| pteLibrary))
        (dataPg m1 0) (pteD ||| pteLibrary) } := by
  unfold Proc.pipeData at done
  split at done
  · exact (pipe_failed done).elim
  rename_i x1 mapped
  obtain ⟨q, rfl, rfl⟩ := memAlloc_some mapped
  split at done
  · exact (pipe_failed done).elim
  rename_i x2 both
  obtain ⟨q', source, rfl⟩ := memMap_some both
  obtain ⟨rfl, both⟩ := Prod.mk.inj done
  obtain ⟨rfl, rfl⟩ := Prod.mk.inj (Option.some.inj both)
  have same : q' = q := by
    dsimp only at source
    rw [Function.update_self] at source
    exact (Option.some.inj source).symm
  subst same
  refine ⟨rfl, rfl, q', rfl, ?_⟩
  simp only [index2data_eq, dataPg]

/-- What `pipe` has mapped when it returns. -/
theorem pipe_pages {pp0 pp1 pp : Option Nat} {mem : Bool} {n0 n1 : Word} {x' : Proc}
    (done : x.pipe pp0 pp1 pp mem = (x', some (n0, n1))) :
    ∃ q0 q1 q, pp0 = some q0 ∧ pp1 = some q1 ∧ pp = some q ∧ IsSlot n0 ∧ IsSlot n1 ∧ n0 ≠ n1 ∧
      x'.task = x.task ∧ x'.page = onPipe x.page n0 n1 (some q0) (some q1) (some q) ∧
      x'.perm = onPipe x.perm n0 n1 (pteD ||| pteLibrary) (pteD ||| pteLibrary)
        (pteD ||| pteLibrary) := by
  unfold Proc.pipe at done
  split at done
  · exact (pipe_failed done).elim
  rename_i m0 alloc0
  split at done
  · exact (pipe_failed done).elim
  rename_i x1 mapped0
  split at done
  · exact (pipe_failed done).elim
  rename_i m1 alloc1
  split at done
  · exact (pipe_failed done).elim
  rename_i x2 mapped1
  obtain ⟨slot0, -⟩ := fdAlloc_some alloc0
  obtain ⟨slot1, free1⟩ := fdAlloc_some alloc1
  obtain ⟨q0, rfl, rfl⟩ := memAlloc_some mapped0
  obtain ⟨q1, rfl, rfl⟩ := memAlloc_some mapped1
  obtain ⟨rfl, rfl, q, rfl, rfl⟩ := pipeData_some done
  have apart : m0 ≠ m1 := by
    intro same
    dsimp only at free1
    rw [← same, fdPg, Function.update_self] at free1
    simp only [reduceCtorEq] at free1
  refine ⟨q0, q1, q, rfl, rfl, rfl, slot0, slot1, apart, rfl, ?_, ?_⟩
  all_goals simp only [onPipe, fdPg]

/-- When `pipe` returns, the process holds a pipe of the pages it was given. -/
theorem pipe_holds {pp0 pp1 pp : Option Nat} {mem : Bool} {n0 n1 : Word} {x' : Proc}
    (idle : x.task = .idle) (fresh : ∀ v q, π.Has q → x.page v ≠ some q)
    (given : pp0 = some π.fd0 ∧ pp1 = some π.fd1 ∧ pp = some π.data)
    (done : x.pipe pp0 pp1 pp mem = (x', some (n0, n1))) : HoldsPipe π x' := by
  obtain ⟨q0, q1, q, h0, h1, h, slot0, slot1, apart, task, page, perm⟩ := pipe_pages done
  obtain ⟨rfl, rfl, rfl⟩ := given
  simp only [Option.some.injEq] at h0 h1 h
  subst h0 h1 h
  -- A page of the pipe is at one of the four addresses, for it was nowhere before.
  have only : ∀ v q, π.Has q → x'.page v = some q →
      v = fdPg n0 ∨ v = fdPg n1 ∨ v = dataPg n0 0 ∨ v = dataPg n1 0 := by
    intro v q has mapped
    by_contra h
    simp only [not_or] at h
    rw [page, onPipe_other h] at mapped
    exact fresh v q has mapped
  have fd0 : x'.page (fdPg n0) = some π.fd0 := by rw [page, onPipe_fd0 slot0 slot1 apart]
  have fd1 : x'.page (fdPg n1) = some π.fd1 := by rw [page, onPipe_fd1 slot0 slot1]
  have data0 : x'.page (dataPg n0 0) = some π.data := by rw [page, onPipe_data0 slot0 slot1 apart]
  have data1 : x'.page (dataPg n1 0) = some π.data := by rw [page, onPipe_data1]
  refine ⟨task.trans idle, ?_, ?_, ?_⟩
  · intro v q isFd mapped
    rcases only v q (.inl isFd) mapped with rfl | rfl | rfl | rfl
    · exact ⟨n0, slot0, rfl, data0⟩
    · exact ⟨n1, slot1, rfl, data1⟩
    · rw [data0, Option.some.injEq] at mapped
      exact absurd (mapped ▸ isFd) π.not_isFd_data
    · rw [data1, Option.some.injEq] at mapped
      exact absurd (mapped ▸ isFd) π.not_isFd_data
  · intro v mapped
    rcases only v _ (.inr rfl) mapped with rfl | rfl | rfl | rfl
    · rw [fd0, Option.some.injEq] at mapped
      exact absurd mapped π.fd0_ne
    · rw [fd1, Option.some.injEq] at mapped
      exact absurd mapped π.fd1_ne
    · exact ⟨n0, slot0, rfl, _, .inl rfl, fd0⟩
    · exact ⟨n1, slot1, rfl, _, .inr rfl, fd1⟩
  · intro v q has mapped
    have library : (pteD ||| pteLibrary).Has pteLibrary := by decide
    rw [perm]
    rcases only v q has mapped with rfl | rfl | rfl | rfl
    · rwa [onPipe_fd0 slot0 slot1 apart]
    · rwa [onPipe_fd1 slot0 slot1]
    · rwa [onPipe_data0 slot0 slot1 apart]
    · rwa [onPipe_data1]

end Start

/-! ## Runs -/

section Runs

variable {P : Type} [DecidableEq P] {dev : Nat → Dev} {π : PipePages} {s s' s₀ : P → Proc}

def FdAct.InRange : FdAct P → Prop
  | .call _ _ c => Call.InRange c
  | .go _ _ _ => True

/-- A step whose descriptor numbers are in range. -/
def InRangeStep (dev : Nat → Dev) (s : P → Proc) (act : FdAct P) (s' : P → Proc) : Prop :=
  act.InRange ∧ fdStep dev s act = some s'

theorem procOk_step (marked : π.Marked dev) (ok : ∀ p, ProcOk π (s p)) {act : FdAct P}
    (step : InRangeStep dev s act s') : ∀ p, ProcOk π (s' p) := by
  obtain ⟨inRange, step⟩ := step
  intro p
  cases act with
  | call q todo call =>
      simp only [fdStep, Option.ite_none_right_eq_some, Option.some.injEq] at step
      obtain ⟨idle, rfl⟩ := step
      rcases eq_or_ne p q with rfl | hne
      · rw [Function.update_self]
        exact (ok p).call marked idle inRange todo
      · rw [Function.update_of_ne hne]
        exact ok p
  | go q mem todo =>
      simp only [fdStep, Option.some.injEq] at step
      subst step
      rcases eq_or_ne p q with rfl | hne
      · rw [Function.update_self]
        exact (ok p).go marked mem todo
      · rw [Function.update_of_ne hne]
        exact ok p

theorem procOk_run (marked : π.Marked dev) (start : ∀ p, ProcOk π (s₀ p))
    {acts : List (FdAct P)} (run : Run (InRangeStep dev) s₀ acts s) : ∀ p, ProcOk π (s p) := by
  apply run.invariant (fun s => ∀ p, ProcOk π (s p)) start
  intro s₁ act s₂ ok step
  exact procOk_step marked ok step

end Runs

/-! ## Counting -/

variable {P : Type} {π : PipePages} {s : P → Proc}

/-- A virtual page number. -/
def vpnOf (v : Nat) : Fin (2 ^ 20) := ⟨v % 2 ^ 20, Nat.mod_lt _ (by decide)⟩

theorem fdPg_lt {n : Word} (hn : IsSlot n) : fdPg n < 2 ^ 20 := by
  have lt : n.toNat < 32 := hn
  rw [fdPg_eq hn]
  omega

theorem dataPg_lt {n : Word} (hn : IsSlot n) : dataPg n 0 < 2 ^ 20 := by
  have lt : n.toNat < 32 := hn
  rw [dataPg_eq hn (by decide)]
  omega

theorem vpnOf_val {v : Nat} (h : v < 2 ^ 20) : (vpnOf v : Nat) = v := Nat.mod_eq_of_lt h

/-- Page 0 of the window of the slot whose `Fd` is at `r`. -/
def windowOf (r : P × Fin (2 ^ 20)) : P × Fin (2 ^ 20) :=
  (r.1, vpnOf (0x60000 + (r.2 - 0x5fc00) * 1024))

/-- The `Fd` of the slot whose window starts at `r`. -/
def fdOf (r : P × Fin (2 ^ 20)) : P × Fin (2 ^ 20) :=
  (r.1, vpnOf (0x5fc00 + (r.2 - 0x60000) / 1024))

theorem windowOf_fdPg (p : P) {n : Word} (hn : IsSlot n) :
    windowOf (p, vpnOf (fdPg n)) = (p, vpnOf (dataPg n 0)) := by
  have val : 0x60000 + (fdPg n - 0x5fc00) * 1024 = dataPg n 0 := by
    rw [fdPg_eq hn, dataPg_eq hn (by decide)]
    omega
  rw [windowOf, vpnOf_val (fdPg_lt hn), val]

theorem fdOf_dataPg (p : P) {n : Word} (hn : IsSlot n) :
    fdOf (p, vpnOf (dataPg n 0)) = (p, vpnOf (fdPg n)) := by
  have val : 0x5fc00 + (dataPg n 0 - 0x60000) / 1024 = fdPg n := by
    rw [fdPg_eq hn, dataPg_eq hn (by decide)]
    omega
  rw [fdOf, vpnOf_val (dataPg_lt hn), val]

theorem eq_vpnOf {r : P × Fin (2 ^ 20)} {v : Nat} (h : (r.2 : Nat) = v) : r = (r.1, vpnOf v) := by
  have fits : vpnOf v = r.2 := Fin.ext (by rw [vpnOf_val (h ▸ r.2.isLt), h])
  rw [fits]

section Counts

variable (ok : ∀ p, ProcOk π (s p))

include ok

/-- An end is mapped in slots only. -/
theorem fd_ref {q : Nat} (isFd : π.IsFd q) {r : P × Fin (2 ^ 20)}
    (h : mappings s r = some q) : ∃ n, IsSlot n ∧ r = (r.1, vpnOf (fdPg n)) ∧
      DataAt π (s r.1).page n := by
  obtain ⟨n, hn, eq, data⟩ := (ok r.1).fd_at _ q isFd h
  exact ⟨n, hn, eq_vpnOf eq, data⟩

theorem data_ref {r : P × Fin (2 ^ 20)} (h : mappings s r = some π.data) :
    ∃ n, IsSlot n ∧ r = (r.1, vpnOf (dataPg n 0)) ∧
      (FdAt π (s r.1).page n ∨ (s r.1).task.Pending n) := by
  obtain ⟨n, hn, eq, or⟩ := (ok r.1).data_at _ h
  exact ⟨n, hn, eq_vpnOf eq, or⟩

variable [Fintype P]

/-- Every reference to an end has one to the `Pipe` beside it. -/
theorem refs_ends_le : refs (mappings s) π.fd0 + refs (mappings s) π.fd1 ≤
    refs (mappings s) π.data := by
  have slot : ∀ r, mappings s r = some π.fd0 ∨ mappings s r = some π.fd1 →
      ∃ n, IsSlot n ∧ r = (r.1, vpnOf (fdPg n)) ∧ DataAt π (s r.1).page n := by
    intro r h
    rcases h with h | h
    · exact fd_ref ok (.inl rfl) h
    · exact fd_ref ok (.inr rfl) h
  apply refs_add_le π.ne windowOf
  · intro r h
    obtain ⟨n, hn, eq, data⟩ := slot r h
    rw [eq, windowOf_fdPg _ hn, mappings, vpnOf_val (dataPg_lt hn)]
    exact data
  · intro r r' h h' same
    obtain ⟨n, hn, eq, -⟩ := slot r h
    obtain ⟨n', hn', eq', -⟩ := slot r' h'
    rw [eq, eq', windowOf_fdPg _ hn, windowOf_fdPg _ hn', Prod.mk.injEq] at same
    have val := congrArg Fin.val same.2
    rw [vpnOf_val (dataPg_lt hn), vpnOf_val (dataPg_lt hn')] at val
    rw [eq, eq', same.1, (dataPg_inj hn hn' (by decide) (by decide) val).1]

/-- When every window with the `Pipe` has this end in its slot, there are no more of the
one than of the other. -/
theorem refs_data_le {q : Nat}
    (beside : ∀ p n, IsSlot n → DataAt π (s p).page n → (s p).page (fdPg n) = some q) :
    refs (mappings s) π.data ≤ refs (mappings s) q := by
  apply refs_le_of_injOn fdOf
  · intro r h
    obtain ⟨n, hn, eq, -⟩ := data_ref ok h
    rw [eq] at h ⊢
    rw [fdOf_dataPg _ hn, mappings, vpnOf_val (fdPg_lt hn)]
    apply beside _ n hn
    rwa [mappings, vpnOf_val (dataPg_lt hn)] at h
  · intro r r' h h' same
    obtain ⟨n, hn, eq, -⟩ := data_ref ok h
    obtain ⟨n', hn', eq', -⟩ := data_ref ok h'
    rw [eq, eq', fdOf_dataPg _ hn, fdOf_dataPg _ hn', Prod.mk.injEq] at same
    have val := congrArg Fin.val same.2
    rw [vpnOf_val (fdPg_lt hn), vpnOf_val (fdPg_lt hn')] at val
    rw [eq, eq', same.1, fdPg_inj hn hn' val]

/-- `pp_ref` does not wrap: there are `MAXFD` slots in each of at most `NENV` processes. -/
theorem refs_data_lt (few : Fintype.card P ≤ nenv) : refs (mappings s) π.data < 2 ^ 16 := by
  have slots : refs (mappings s) π.data ≤ Fintype.card (P × Fin 32) := by
    apply refs_le_card fun r : P × Fin (2 ^ 20) => (r.1, Fin.ofNat 32 ((r.2 - 0x60000) / 1024))
    intro r r' h h' same
    obtain ⟨n, hn, eq, -⟩ := data_ref ok h
    obtain ⟨n', hn', eq', -⟩ := data_ref ok h'
    have lt : n.toNat < 32 := hn
    have lt' : n'.toNat < 32 := hn'
    rw [Prod.mk.injEq] at same
    have val := congrArg Fin.val same.2
    have at_r := congrArg (fun r => (r.2 : Nat)) eq
    have at_r' := congrArg (fun r => (r.2 : Nat)) eq'
    dsimp only at at_r at_r'
    rw [vpnOf_val (dataPg_lt hn), dataPg_eq hn (by decide)] at at_r
    rw [vpnOf_val (dataPg_lt hn'), dataPg_eq hn' (by decide)] at at_r'
    simp only [Fin.ofNat] at val
    exact Prod.ext same.1 (Fin.ext (by omega))
  have total : Fintype.card (P × Fin 32) = Fintype.card P * 32 := by
    rw [Fintype.card_prod, Fintype.card_fin]
  unfold nenv at few
  omega

end Counts

/-! ## The answer -/

/-- `q` is one end of the pipe and `q'` the other. -/
def PipePages.Ends (π : PipePages) (q q' : Nat) : Prop :=
  q = π.fd0 ∧ q' = π.fd1 ∨ q = π.fd1 ∧ q' = π.fd0

/-- A process has the end `q` open. -/
def HasOpen (s : P → Proc) (q : Nat) (p : P) : Prop :=
  ∃ n, IsSlot n ∧ (s p).page (fdPg n) = some q

/-- A task is about slot `n`. -/
def Task.Touches (n : Word) : Task → Prop
  | .unmapFd m _ | .unmapData m _ | .unmapPages m _ _ | .closeFd m _ => m = n
  | .dupPages old new _ | .dupFd old new => old = n ∨ new = n
  | .undupFd new | .undupPages new _ => new = n
  | _ => False

/-- A `dup` or `close` of a descriptor of the pipe is under way. -/
def PipeBusy (π : PipePages) (x : Proc) : Prop :=
  ∃ n, IsSlot n ∧ x.task.Touches n ∧ (FdAt π x.page n ∨ DataAt π x.page n)

theorem Task.Pending.touches {n : Word} {t : Task} (h : t.Pending n) : t.Touches n := by
  cases t with
  | unmapData | undupFd => exact h
  | dupPages | dupFd => exact .inr h
  | undupPages => exact h.1
  | idle | unmapFd | unmapPages | closeFd | exit | dead => exact h.elim

section Answer

variable {q q' : Nat} [Fintype P] (few : Fintype.card P ≤ nenv) (ok : ∀ p, ProcOk π (s p))

include few ok

/-- The two counts are compared as they are. -/
theorem pipeIsClosed_iff (ends : π.Ends q q') {p : P} {n : Word} (hn : IsSlot n)
    (here : (s p).page (fdPg n) = some q) :
    pipeIsClosed s p n = true ↔ refs (mappings s) q = refs (mappings s) π.data := by
  have isFd : π.IsFd q := ends.imp And.left And.left
  have data : (s p).page (dataPg n 0) = some π.data := (ok p).dataAt_of_fdAt hn ⟨q, isFd, here⟩
  have le := refs_ends_le ok
  have lt := refs_data_lt ok few
  have fits : refs (mappings s) q < 2 ^ 16 := by
    rcases isFd with rfl | rfl
    all_goals omega
  rw [pipeIsClosed, pageref, pageref, here, data]
  dsimp only
  rw [Nat.mod_eq_of_lt fits, Nat.mod_eq_of_lt lt, beq_iff_eq]

theorem not_hasOpen_of_closed (ends : π.Ends q q') {p : P} {n : Word} (hn : IsSlot n)
    (here : (s p).page (fdPg n) = some q) (closed : pipeIsClosed s p n = true) (p' : P) :
    ¬ HasOpen s q' p' := by
  have same := (pipeIsClosed_iff few ok ends hn here).mp closed
  have le := refs_ends_le ok
  have none_left : refs (mappings s) q' = 0 := by
    rcases ends with ⟨rfl, rfl⟩ | ⟨rfl, rfl⟩
    all_goals omega
  intro has
  obtain ⟨m, hm, mapped⟩ := has
  apply refs_eq_zero_iff.mp none_left (p', vpnOf (fdPg m))
  rwa [mappings, vpnOf_val (fdPg_lt hm)]

theorem closed_of_not_hasOpen (ends : π.Ends q q') {p : P} {n : Word} (hn : IsSlot n)
    (here : (s p).page (fdPg n) = some q) (shut : ∀ p', ¬ HasOpen s q' p')
    (quiet : ∀ p', ¬ PipeBusy π (s p')) : pipeIsClosed s p n = true := by
  rw [pipeIsClosed_iff few ok ends hn here]
  have most : refs (mappings s) q ≤ refs (mappings s) π.data := by
    have le := refs_ends_le ok
    rcases ends with ⟨rfl, -⟩ | ⟨rfl, -⟩
    all_goals omega
  apply most.antisymm
  apply refs_data_le ok
  intro p' m hm data
  obtain ⟨x, isFd, mapped⟩ := ((ok p').fdAt_of_dataAt hm data).resolve_right fun waits =>
    quiet p' ⟨m, hm, waits.touches, .inr data⟩
  have notOther : x ≠ q' := fun same => shut p' ⟨m, hm, same ▸ mapped⟩
  have this : x = q := by
    rcases ends with ⟨rfl, rfl⟩ | ⟨rfl, rfl⟩
    · exact isFd.resolve_right notOther
    · exact isFd.resolve_left notOther
  rw [mapped, this]

end Answer

variable [Fintype P] [DecidableEq P] {dev : Nat → Dev} {s₀ : P → Proc} {acts : List (FdAct P)}

/-- After `pipe`, while descriptors are duplicated and closed with numbers in range, an end
in a slot has the `Pipe` in its window, and the answer for an end is right. -/
theorem pipe_closed_exact (few : Fintype.card P ≤ nenv) (marked : π.Marked dev)
    (start : ∀ p, HoldsPipe π (s₀ p) ∨ LacksPipe π (s₀ p))
    (run : Run (InRangeStep dev) s₀ acts s) :
    (∀ p n, IsSlot n → FdAt π (s p).page n → DataAt π (s p).page n) ∧
      refs (mappings s) π.fd0 + refs (mappings s) π.fd1 ≤ refs (mappings s) π.data ∧
      ∀ q q' p n, π.Ends q q' → IsSlot n → (s p).page (fdPg n) = some q →
        (pipeIsClosed s p n = true → ∀ p', ¬ HasOpen s q' p') ∧
        ((∀ p', ¬ HasOpen s q' p') → (∀ p', ¬ PipeBusy π (s p')) →
          pipeIsClosed s p n = true) := by
  have ok : ∀ p, ProcOk π (s p) :=
    procOk_run marked (fun p => (start p).elim HoldsPipe.procOk LacksPipe.procOk) run
  refine ⟨fun p n hn => (ok p).dataAt_of_fdAt hn, refs_ends_le ok, ?_⟩
  intro q q' p n ends hn here
  exact ⟨not_hasOpen_of_closed few ok ends hn here, closed_of_not_hasOpen few ok ends hn here⟩

/-- A step of any descriptor numbers. -/
def FdRel (dev : Nat → Dev) (s : P → Proc) (act : FdAct P) (s' : P → Proc) : Prop :=
  fdStep dev s act = some s'

omit [Fintype P] in
/-- A run of system calls in range. -/
theorem Run.inRange {s s' : P → Proc} {acts : List (FdAct P)} (run : Run (FdRel dev) s acts s')
    (inRange : ∀ act ∈ acts, act.InRange) : Run (InRangeStep dev) s acts s' := by
  induction run with
  | refl => exact .refl _
  | snoc first last ih =>
      rw [List.forall_mem_append] at inRange
      exact (ih inRange.1).snoc ⟨inRange.2 _ (List.mem_singleton_self _), last⟩

/-- `dup` goes over the pages of a window that are not mapped. -/
theorem dupPages_skip (x : Proc) (old new : Word) {i : Nat} (j : Nat) (le : i + j ≤ 1024)
    (unmapped : ∀ k, i ≤ k → k < 1024 → x.page (dataPg old k) = none) :
    Run (FdRel dev) (fun _ : Unit => x.goto (.dupPages old new i))
      (List.replicate j (.go () true [])) (fun _ => x.goto (.dupPages old new (i + j))) := by
  induction j with
  | zero => exact Run.refl _
  | succ j ih =>
      rw [List.replicate_succ']
      refine (ih (by omega)).snoc ?_
      have here : x.page (dataPg old (i + j)) = none := unmapped _ (by omega) (by omega)
      rw [FdRel, fdStep, Option.some.injEq]
      funext u
      simp only [Function.update_self, Proc.go, Proc.goto, here, Option.isSome_none,
        Bool.false_eq_true, if_false, if_pos (show i + j < 1024 by omega), Nat.add_assoc]

def newPipe : PipePages := ⟨10, 11, 12, by decide, by decide, by decide⟩

def emptyProc : Proc := { page := fun _ => none, perm := fun _ => 0, task := .idle }

/-- A process after its first `pipe`. -/
def pipeProc : Proc where
  page := onPipe emptyProc.page 0#32 1#32 (some 10) (some 11) (some 12)
  perm := onPipe emptyProc.perm 0#32 1#32 (pteD ||| pteLibrary) (pteD ||| pteLibrary)
    (pteD ||| pteLibrary)
  task := .idle

theorem emptyProc_pipe :
    emptyProc.pipe (some 10) (some 11) (some 12) true = (pipeProc, some (0#32, 1#32)) :=
  rfl

theorem pipeProc_holds : HoldsPipe newPipe pipeProc :=
  pipe_holds rfl (fun _ _ _ => (Option.some_ne_none _).symm) ⟨rfl, rfl, rfl⟩ emptyProc_pipe

theorem pipeProc_unmapped {v : Nat}
    (h : v ≠ fdPg 0#32 ∧ v ≠ fdPg 1#32 ∧ v ≠ dataPg 0#32 0 ∧ v ≠ dataPg 1#32 0) :
    pipeProc.page v = none := by
  unfold pipeProc
  dsimp only
  rw [onPipe_other h]
  rfl

theorem slot_five : IsSlot 5#32 := (by decide : 5 < 32)

/-- The process when `dup(1, new)` has mapped the `Pipe` and is at page `k`. -/
def dupProc (new : Word) (k : Nat) : Proc where
  page := Function.update pipeProc.page (dataPg new 0) (some 12)
  perm := Function.update pipeProc.perm (dataPg new 0) (pteD ||| pteLibrary)
  task := .dupPages 1#32 new k

/-- The process when `dup(1, new)` has returned. -/
def dupedProc (new : Word) : Proc where
  page := Function.update (dupProc new 0).page (fdPg new) (some 11)
  perm := Function.update (dupProc new 0).perm (fdPg new) (pteD ||| pteLibrary)
  task := .idle

/-- `dup(1, new)` and its system calls. -/
def dupActs (new : Word) : List (FdAct Unit) :=
  [.call () [] (.dup 1#32 new)] ++ [.go () true []] ++ List.replicate 1023 (.go () true []) ++
    [.go () true []] ++ [.go () true []]

theorem dupActs_run {new : Word} (which : new = 5#32 ∨ new = 1024#32) :
    Run (FdRel fun _ => .pipe) (fun _ => pipeProc) (dupActs new) (fun _ => dupedProc new) := by
  have begun : Run (FdRel fun _ => .pipe) (fun _ : Unit => pipeProc)
      [.call () [] (.dup 1#32 new)] (fun _ => pipeProc.goto (.dupPages 1#32 new 0)) := by
    obtain rfl | rfl := which
    · exact .single rfl
    · exact .single rfl
  have first : FdRel (fun _ => .pipe) (fun _ : Unit => pipeProc.goto (.dupPages 1#32 new 0))
      (.go () true []) (fun _ => dupProc new 1) := by
    rw [FdRel, fdStep, Option.some.injEq]
    funext u
    rw [Function.update_self]
    obtain rfl | rfl := which
    · rfl
    · rfl
  have unmapped : ∀ k, 1 ≤ k → k < 1024 → (dupProc new 1).page (dataPg 1#32 k) = none := by
    intro k pos hk
    have one : IsSlot 1#32 := (by decide : 1 < 32)
    have at_k : dataPg 1#32 k = 0x60400 + k := dataPg_eq one hk
    have ne : dataPg 1#32 k ≠ dataPg new 0 := by
      have five : dataPg 5#32 0 = 0x61400 := by decide
      have wrapped : dataPg 1024#32 0 = 0x60000 := by decide
      obtain rfl | rfl := which <;> omega
    have other : dataPg 1#32 k ≠ fdPg 0#32 ∧ dataPg 1#32 k ≠ fdPg 1#32 ∧
        dataPg 1#32 k ≠ dataPg 0#32 0 ∧ dataPg 1#32 k ≠ dataPg 1#32 0 := by
      have fd0 : fdPg 0#32 = 0x5fc00 := by decide
      have fd1 : fdPg 1#32 = 0x5fc01 := by decide
      have data0 : dataPg 0#32 0 = 0x60000 := by decide
      have data1 : dataPg 1#32 0 = 0x60400 := by decide
      omega
    change Function.update pipeProc.page (dataPg new 0) (some 12) (dataPg 1#32 k) = none
    rw [Function.update_of_ne ne]
    exact pipeProc_unmapped other
  have skipped : Run (FdRel fun _ => .pipe) (fun _ : Unit => dupProc new 1)
      (List.replicate 1023 (.go () true [])) (fun _ => dupProc new 1024) :=
    dupPages_skip (dupProc new 1) 1#32 new 1023 (by decide) unmapped
  have last : FdRel (fun _ => .pipe) (fun _ : Unit => dupProc new 1024) (.go () true [])
      (fun _ => (dupProc new 1024).goto (.dupFd 1#32 new)) := by
    rw [FdRel, fdStep, Option.some.injEq]
    funext u
    rw [Function.update_self]
    rfl
  have mapped : FdRel (fun _ => .pipe)
      (fun _ : Unit => (dupProc new 1024).goto (.dupFd 1#32 new)) (.go () true [])
      (fun _ => dupedProc new) := by
    rw [FdRel, fdStep, Option.some.injEq]
    funext u
    rw [Function.update_self]
    obtain rfl | rfl := which
    · rfl
    · rfl
  exact (((begun.snoc first).trans skipped).snoc last).snoc mapped

/-- The write end is duplicated, and then closed where it was; the pipe is still open. -/
theorem pipe_closed_exact_dup : ∃ s : Unit → Proc,
    Run (InRangeStep fun _ => .pipe) (fun _ => pipeProc)
      (dupActs 5#32 ++ .call () [] (.close 1#32) :: List.replicate 3 (.go () true [])) s ∧
    (s ()).page (fdPg 1#32) = none ∧ pipeIsClosed s () 0#32 = false := by
  have inRange : ∀ act ∈ dupActs 5#32, act.InRange := by
    intro act mem
    simp only [dupActs, List.mem_append, List.mem_singleton, List.mem_replicate] at mem
    obtain (((rfl | rfl) | ⟨-, rfl⟩) | rfl) | rfl := mem
    · exact ⟨by decide, slot_five⟩
    all_goals trivial
  have duped := (dupActs_run (.inl rfl)).inRange inRange
  obtain ⟨s, closed, gone, here, fd0⟩ : ∃ s : Unit → Proc,
      Run (InRangeStep fun _ => .pipe) (fun _ => dupedProc 5#32)
        (.call () [] (.close 1#32) :: List.replicate 3 (.go () true [])) s ∧
      (s ()).page (fdPg 1#32) = none ∧ (s ()).page (fdPg 5#32) = some 11 ∧
      (s ()).page (fdPg 0#32) = some 10 :=
    ⟨_, (((Run.single ⟨show 1 < 2 ^ 31 by decide, rfl⟩).snoc ⟨trivial, rfl⟩).snoc ⟨trivial, rfl⟩).snoc
      ⟨trivial, rfl⟩, rfl, rfl, rfl⟩
  have run := duped.trans closed
  obtain ⟨-, -, answer⟩ := pipe_closed_exact (by decide) (fun _ _ => rfl)
    (fun _ => .inl pipeProc_holds) run
  refine ⟨s, run, gone, Bool.eq_false_iff.mpr fun reads => ?_⟩
  exact (answer 10 11 () 0#32 (.inl ⟨rfl, rfl⟩) (by decide : 0 < 32) fd0).1 reads ()
    ⟨5#32, slot_five, here⟩

/-- `dup(1, 1024)` maps the write end over the window of slot 0. -/
theorem pipe_closed_not_exact : ¬ ∀ (s₀ s : Unit → Proc) (acts : List (FdAct Unit)),
    (∀ p, HoldsPipe newPipe (s₀ p)) → Run (FdRel fun _ => .pipe) s₀ acts s →
    ∀ p n, IsSlot n → FdAt newPipe (s p).page n → DataAt newPipe (s p).page n := by
  intro h
  have data : (some 11 : Option Nat) = some 12 :=
    h _ _ _ (fun _ => pipeProc_holds) (dupActs_run (.inr rfl)) () 0#32 (by decide : 0 < 32)
      ⟨10, .inl rfl, rfl⟩
  exact absurd data (by decide)

end Mos
