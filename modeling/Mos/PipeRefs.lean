import Mos.Fd
import Mos.Lib.RefStore
import Mos.Lib.Run

/-!
# When a pipe is closed

`_pipe_is_closed` compares two reference counts. It works because every process
that has an end of the pipe in a descriptor also has the `Pipe` in the window of
that descriptor: `dup` maps the window first and the `Fd` last, `close` unmaps the
`Fd` first. `ProcOk` is what holds of a process between two of its system calls.
-/

namespace Mos

/-! ## The descriptor table and the windows -/

/-- A descriptor number below `MAXFD`. -/
def IsSlot (n : Word) : Prop := n.toNat < maxfd

theorem fdtable_toNat : fdtable.toNat = 0x5fc00000 := rfl

/-- `INDEX2FD` of any number. -/
theorem index2fd_mod (n : Word) : (index2fd n).toNat = (0x5fc00000 + n.toNat * 4096) % 2 ^ 32 := by
  rw [index2fd, BitVec.toNat_add, BitVec.toNat_mul, fdtable_toNat, by2pg_toNat]
  omega

theorem index2fd_toNat {n : Word} (h : IsSlot n) :
    (index2fd n).toNat = 0x5fc00000 + n.toNat * 4096 := by
  have lt : n.toNat < 32 := h
  rw [index2fd_mod]
  omega

theorem dataVa_toNat {n : Word} (h : IsSlot n) {k : Nat} (hk : k < 1024) :
    (dataVa n k).toNat = 0x60000000 + n.toNat * 0x400000 + k * 4096 := by
  have lt : n.toNat < 32 := h
  have base : filebase.toNat = 0x60000000 := by decide
  have window : pdmap.toNat = 0x400000 := by decide
  rw [dataVa, index2data, BitVec.toNat_add, BitVec.toNat_add, BitVec.toNat_mul, BitVec.toNat_ofNat,
    base, window]
  omega

theorem fdPg_eq {n : Word} (h : IsSlot n) : fdPg n = 0x5fc00 + n.toNat := by
  rw [fdPg, ppn_eq_div, index2fd_toNat h]
  omega

theorem dataPg_eq {n : Word} (h : IsSlot n) {k : Nat} (hk : k < 1024) :
    dataPg n k = 0x60000 + n.toNat * 1024 + k := by
  rw [dataPg, ppn_eq_div, dataVa_toNat h hk]
  omega

theorem legal_of_toNat {va : Word} (lo : 0x5fc00000 ≤ va.toNat) (hi : va.toNat < 0x7f400000) :
    ¬ isIllegalVa va := by
  rw [isIllegalVa, BitVec.lt_def, BitVec.le_def, utemp_toNat, utop_toNat]
  omega

theorem legal_fd {n : Word} (h : IsSlot n) : ¬ isIllegalVa (index2fd n) := by
  have lt : n.toNat < 32 := h
  exact legal_of_toNat (by rw [index2fd_toNat h]; omega) (by rw [index2fd_toNat h]; omega)

theorem legal_data {n : Word} (h : IsSlot n) {k : Nat} (hk : k < 1024) :
    ¬ isIllegalVa (dataVa n k) := by
  have lt : n.toNat < 32 := h
  exact legal_of_toNat (by rw [dataVa_toNat h hk]; omega) (by rw [dataVa_toNat h hk]; omega)

section Layout

variable {m n : Word} (hm : IsSlot m) (hn : IsSlot n)

include hm hn

theorem fdPg_inj (h : fdPg m = fdPg n) : m = n := by
  rw [fdPg_eq hm, fdPg_eq hn] at h
  exact BitVec.eq_of_toNat_eq (by omega)

theorem fdPg_ne_dataPg {k : Nat} (hk : k < 1024) : fdPg m ≠ dataPg n k := by
  have lt : m.toNat < 32 := hm
  rw [fdPg_eq hm, dataPg_eq hn hk]
  omega

theorem dataPg_inj {j k : Nat} (hj : j < 1024) (hk : k < 1024) (h : dataPg m j = dataPg n k) :
    m = n ∧ j = k := by
  rw [dataPg_eq hm hj, dataPg_eq hn hk] at h
  exact ⟨BitVec.eq_of_toNat_eq (by omega), by omega⟩

end Layout

/-! ## The pages of a pipe -/

/-- The pages `pipe` has allocated: the `Fd` of the read end, that of the write end,
and the `Pipe`. -/
structure PipePages where
  fd0 : Nat
  fd1 : Nat
  data : Nat
  ne : fd0 ≠ fd1
  fd0_ne : fd0 ≠ data
  fd1_ne : fd1 ≠ data

namespace PipePages

def IsFd (π : PipePages) (q : Nat) : Prop := q = π.fd0 ∨ q = π.fd1

/-- `q` is one of the three pages. -/
def Has (π : PipePages) (q : Nat) : Prop := π.IsFd q ∨ q = π.data

theorem not_isFd_data (π : PipePages) : ¬ π.IsFd π.data := by
  rintro (h | h)
  · exact π.fd0_ne h.symm
  · exact π.fd1_ne h.symm

end PipePages

section Process

variable {π : PipePages} {x : Proc} {dev : Nat → Dev}

/-- An end of the pipe is mapped in slot `n`. -/
def FdAt (π : PipePages) (page : Nat → Option Nat) (n : Word) : Prop :=
  ∃ q, π.IsFd q ∧ page (fdPg n) = some q

/-- The `Pipe` is mapped in the window of slot `n`. -/
def DataAt (π : PipePages) (page : Nat → Option Nat) (n : Word) : Prop :=
  page (dataPg n 0) = some π.data

/-- The window of slot `n` may be mapped without its `Fd`: it is about to be unmapped,
or the `Fd` to be mapped. -/
def Task.Pending (n : Word) : Task → Prop
  | .unmapData m _ => m = n
  | .dupPages _ new _ => new = n
  | .dupFd _ new => new = n
  | .undupFd new => new = n
  | .undupPages new k => new = n ∧ k = 0
  | _ => False

/-- A `close` made by `dup` is that of the new descriptor. -/
def After.Ok (n : Word) : After → Prop
  | .dup old new => IsSlot old ∧ new = n
  | _ => True

/-- How far a task has come with the pages of the pipe. -/
def TaskOk (π : PipePages) (page : Nat → Option Nat) : Task → Prop
  | .unmapFd n after => IsSlot n ∧ after.Ok n
  | .unmapData n after => IsSlot n ∧ ¬ FdAt π page n ∧ after.Ok n
  | .unmapPages n _ after => IsSlot n ∧ ¬ DataAt π page n ∧ after.Ok n
  | .closeFd n after => IsSlot n ∧ ¬ DataAt π page n ∧ after.Ok n
  | .dupPages old new k => IsSlot old ∧ IsSlot new ∧ ¬ FdAt π page new ∧
      (DataAt π page new ↔ 0 < k ∧ FdAt π page old)
  | .dupFd old new => IsSlot old ∧ IsSlot new ∧ ¬ FdAt π page new ∧
      (DataAt π page new ↔ FdAt π page old)
  | .undupFd new => IsSlot new ∧ ¬ FdAt π page new
  | .undupPages new k => IsSlot new ∧ ¬ FdAt π page new ∧ (0 < k → ¬ DataAt π page new)
  | _ => True

structure ProcOk (π : PipePages) (x : Proc) : Prop where
  fd_at : ∀ v q, π.IsFd q → x.page v = some q →
    ∃ n, IsSlot n ∧ v = fdPg n ∧ DataAt π x.page n
  data_at : ∀ v, x.page v = some π.data →
    ∃ n, IsSlot n ∧ v = dataPg n 0 ∧ (FdAt π x.page n ∨ x.task.Pending n)
  library : ∀ v q, π.Has q → x.page v = some q → (x.perm v).Has pteLibrary
  task : TaskOk π x.page x.task

/-! ## What the invariant says about an address -/

theorem ProcOk.dataAt_of_fdAt (ok : ProcOk π x) {n : Word} (hn : IsSlot n)
    (h : FdAt π x.page n) : DataAt π x.page n := by
  obtain ⟨q, isFd, mapped⟩ := h
  obtain ⟨m, hm, same, data⟩ := ok.fd_at _ q isFd mapped
  rw [fdPg_inj hn hm same]
  exact data

theorem ProcOk.fdAt_of_dataAt (ok : ProcOk π x) {n : Word} (hn : IsSlot n)
    (h : DataAt π x.page n) : FdAt π x.page n ∨ x.task.Pending n := by
  obtain ⟨m, hm, same, or⟩ := ok.data_at _ h
  rw [(dataPg_inj hn hm (by decide) (by decide) same).1]
  exact or

/-- In a slot that is in no task the `Fd` and the `Pipe` come together. -/
theorem ProcOk.fdAt_iff (ok : ProcOk π x) {n : Word} (hn : IsSlot n)
    (idle : ¬ x.task.Pending n) : FdAt π x.page n ↔ DataAt π x.page n :=
  ⟨ok.dataAt_of_fdAt hn, fun h => (ok.fdAt_of_dataAt hn h).resolve_right idle⟩

/-! ## One slot at a time -/

theorem FdAt.of_unmap {page : Nat → Option Nat} {v : Nat} {n : Word}
    (h : FdAt π (Function.update page v none) n) : FdAt π page n := by
  obtain ⟨q, isFd, mapped⟩ := h
  rcases eq_or_ne (fdPg n) v with rfl | hne
  · rw [Function.update_self] at mapped
    cases mapped
  · rw [Function.update_of_ne hne] at mapped
    exact ⟨q, isFd, mapped⟩

theorem DataAt.of_unmap {page : Nat → Option Nat} {v : Nat} {n : Word}
    (h : DataAt π (Function.update page v none) n) : DataAt π page n := by
  unfold DataAt at h ⊢
  rcases eq_or_ne (dataPg n 0) v with rfl | hne
  · rw [Function.update_self] at h
    cases h
  · rwa [Function.update_of_ne hne] at h

theorem not_fdAt_unmap {page : Nat → Option Nat} {n : Word} :
    ¬ FdAt π (Function.update page (fdPg n) none) n := by
  intro h
  obtain ⟨q, -, mapped⟩ := h
  rw [Function.update_self] at mapped
  cases mapped

theorem not_dataAt_unmap {page : Nat → Option Nat} {n : Word} :
    ¬ DataAt π (Function.update page (dataPg n 0) none) n := by
  intro h
  rw [DataAt, Function.update_self] at h
  cases h

theorem fdAt_update {page : Nat → Option Nat} {v : Nat} {t : Option Nat} {n : Word}
    (hne : fdPg n ≠ v) : FdAt π (Function.update page v t) n ↔ FdAt π page n := by
  unfold FdAt
  rw [Function.update_of_ne hne]

theorem dataAt_update {page : Nat → Option Nat} {v : Nat} {t : Option Nat} {n : Word}
    (hne : dataPg n 0 ≠ v) : DataAt π (Function.update page v t) n ↔ DataAt π page n := by
  unfold DataAt
  rw [Function.update_of_ne hne]

/-- A page of slot `m`: its `Fd`, or one of its window. -/
def PageOf (m : Word) (v : Nat) : Prop := v = fdPg m ∨ ∃ k < 1024, v = dataPg m k

theorem PageOf.fdPg_ne {m n : Word} {v : Nat} (of : PageOf m v) (hm : IsSlot m) (hn : IsSlot n)
    (hne : n ≠ m) : fdPg n ≠ v := by
  rcases of with rfl | ⟨k, hk, rfl⟩
  · exact fun h => hne (fdPg_inj hn hm h)
  · exact fdPg_ne_dataPg hn hm hk

theorem PageOf.dataPg_ne {m n : Word} {v : Nat} (of : PageOf m v) (hm : IsSlot m) (hn : IsSlot n)
    (hne : n ≠ m) : dataPg n 0 ≠ v := by
  rcases of with rfl | ⟨k, hk, rfl⟩
  · exact (fdPg_ne_dataPg hm hn (by decide)).symm
  · exact fun h => hne (dataPg_inj hn hm (by decide) hk h).1

/-- One page of slot `m` is mapped or unmapped by a task that is at work there. -/
theorem ProcOk.update (ok : ProcOk π x) {m : Word} (hm : IsSlot m) {v : Nat} (of : PageOf m v)
    (only : ∀ n, x.task.Pending n → n = m) {t : Option Nat} {perm : Nat → Word} {task : Task}
    (others : ∀ w, w ≠ v → perm w = x.perm w)
    (isFd : ∀ q, π.IsFd q → t = some q → v = fdPg m)
    (isData : t = some π.data → v = dataPg m 0)
    (library : ∀ q, π.Has q → t = some q → (perm v).Has pteLibrary)
    (fd : FdAt π (Function.update x.page v t) m → DataAt π (Function.update x.page v t) m)
    (data : DataAt π (Function.update x.page v t) m →
      FdAt π (Function.update x.page v t) m ∨ task.Pending m)
    (taskOk : TaskOk π (Function.update x.page v t) task) :
    ProcOk π { page := Function.update x.page v t, perm := perm, task := task } where
  fd_at w q hq h := by
    dsimp only at h ⊢
    rcases eq_or_ne w v with rfl | hne
    · rw [Function.update_self] at h
      obtain rfl := isFd q hq h
      exact ⟨m, hm, rfl, fd ⟨q, hq, by rw [Function.update_self, h]⟩⟩
    · rw [Function.update_of_ne hne] at h
      obtain ⟨n, hn, rfl, slot⟩ := ok.fd_at w q hq h
      rcases eq_or_ne n m with rfl | other
      · exact ⟨n, hn, rfl, fd ⟨q, hq, by rw [Function.update_of_ne hne, h]⟩⟩
      · exact ⟨n, hn, rfl, (dataAt_update (of.dataPg_ne hm hn other)).mpr slot⟩
  data_at w h := by
    dsimp only at h ⊢
    rcases eq_or_ne w v with rfl | hne
    · rw [Function.update_self] at h
      obtain rfl := isData h
      exact ⟨m, hm, rfl, data (by rw [DataAt, Function.update_self, h])⟩
    · rw [Function.update_of_ne hne] at h
      obtain ⟨n, hn, rfl, slot⟩ := ok.data_at w h
      rcases eq_or_ne n m with rfl | other
      · exact ⟨n, hn, rfl, data (by rw [DataAt, Function.update_of_ne hne, h])⟩
      · have waits := slot.resolve_right fun h => other (only n h)
        exact ⟨n, hn, rfl, .inl ((fdAt_update (of.fdPg_ne hm hn other)).mpr waits)⟩
  library w q hq h := by
    dsimp only at h ⊢
    rcases eq_or_ne w v with rfl | hne
    · rw [Function.update_self] at h
      exact library q hq h
    · rw [Function.update_of_ne hne] at h
      rw [others w hne]
      exact ok.library w q hq h
  task := taskOk

/-- Nothing is unmapped that its slot still needs. -/
theorem ProcOk.unmap (ok : ProcOk π x) {m : Word} (hm : IsSlot m) {v : Nat} (of : PageOf m v)
    (only : ∀ n, x.task.Pending n → n = m) {task : Task}
    (fd : ¬ FdAt π (Function.update x.page v none) m)
    (data : DataAt π (Function.update x.page v none) m → task.Pending m)
    (taskOk : TaskOk π (Function.update x.page v none) task) :
    ProcOk π { page := Function.update x.page v none, perm := x.perm, task := task } :=
  ok.update hm of only (fun _ _ => rfl) nofun nofun nofun (absurd · fd) (fun h => .inr (data h))
    taskOk

theorem ProcOk.goto (ok : ProcOk π x) {task : Task}
    (pending : ∀ n, IsSlot n → DataAt π x.page n → x.task.Pending n →
      FdAt π x.page n ∨ task.Pending n)
    (taskOk : TaskOk π x.page task) : ProcOk π (x.goto task) where
  fd_at := ok.fd_at
  data_at v h := by
    obtain ⟨n, hn, rfl, or⟩ := ok.data_at v h
    exact ⟨n, hn, rfl, or.elim .inl (pending n hn h)⟩
  library := ok.library
  task := taskOk

/-! ## The system calls on a slot -/

theorem memUnmap_fd {n : Word} (hn : IsSlot n) :
    x.memUnmap (index2fd n) = { x with page := Function.update x.page (fdPg n) none } :=
  if_neg (legal_fd hn)

theorem memUnmap_data {n : Word} (hn : IsSlot n) {k : Nat} (hk : k < 1024) :
    x.memUnmap (dataVa n k) = { x with page := Function.update x.page (dataPg n k) none } :=
  if_neg (legal_data hn hk)

theorem index2data_eq (n : Word) : index2data n = dataVa n 0 := by
  simp [dataVa]

theorem memMap_some {src dst perm : Word} {mem : Bool} {x' : Proc}
    (h : x.memMap src dst perm mem = some x') :
    ∃ q, x.page (ppn src) = some q ∧
      x' = { x with
        page := Function.update x.page (ppn dst) (some q)
        perm := Function.update x.perm (ppn dst) perm } := by
  unfold Proc.memMap at h
  split at h
  · cases h
  · split at h
    · cases h
    · rename_i q mapped
      split at h
      · cases h
        exact ⟨q, mapped, rfl⟩
      · cases h

theorem fdLookup_some {n : Word} (small : n.toNat < 2 ^ 31) {q : Nat}
    (h : x.fdLookup n = some q) : IsSlot n ∧ x.page (fdPg n) = some q := by
  unfold Proc.fdLookup at h
  split at h
  · rename_i lt
    refine ⟨?_, h⟩
    rw [BitVec.slt_eq_decide, decide_eq_true_eq, BitVec.toInt_eq_toNat_of_lt (by omega)] at lt
    have bound : (BitVec.ofNat 32 maxfd).toInt = 32 := by decide
    rw [bound] at lt
    show n.toNat < 32
    omega
  · cases h

theorem fdLookup_none {n : Word} (hn : IsSlot n) (h : x.fdLookup n = none) :
    x.page (fdPg n) = none := by
  unfold Proc.fdLookup at h
  have lt : n.toNat < 32 := hn
  have bound : (BitVec.ofNat 32 maxfd).toInt = 32 := by decide
  rwa [if_pos] at h
  rw [BitVec.slt_eq_decide, decide_eq_true_eq, BitVec.toInt_eq_toNat_of_lt (by omega), bound]
  omega

theorem dupPerm_library {perm : Word} (h : perm.Has pteLibrary) :
    (dupPerm perm).Has pteLibrary := by
  have kept : (pteD ||| pteLibrary) &&& pteLibrary = pteLibrary := by decide
  rwa [Word.Has, dupPerm, BitVec.and_assoc, kept]

/-! ## What one step does to a process -/

/-- The numbers `close` and `dup` are written for: no negative one, and for the new
descriptor none from `MAXFD` on. -/
def Call.InRange : Call → Prop
  | .close fdnum => fdnum.toNat < 2 ^ 31
  | .dup old new => old.toNat < 2 ^ 31 ∧ IsSlot new
  | .exit => True

/-- The `Fd` pages of a pipe say so. -/
def PipePages.Marked (π : PipePages) (dev : Nat → Dev) : Prop := ∀ q, π.IsFd q → dev q = .pipe

/-- After a `close` there is nothing of the pipe in the slot. -/
theorem taskOk_after {n : Word} (hn : IsSlot n) {after : After} (h : after.Ok n)
    {page : Nat → Option Nat} (fd : ¬ FdAt π page n) (data : ¬ DataAt π page n) :
    TaskOk π page after.task := by
  cases after with
  | done => trivial
  | dup old new =>
      obtain ⟨hold, rfl⟩ := h
      exact ⟨hold, hn, fd, fun h => absurd h data, fun h => absurd h.1 (Nat.lt_irrefl 0)⟩
  | exit i => trivial

/-- `close` in a process that is in no task on a slot. -/
theorem ProcOk.close (ok : ProcOk π x) (marked : π.Marked dev) {n : Word} {after : After}
    (small : n.toNat < 2 ^ 31) (h : after.Ok n) (slot : after = .done ∨ IsSlot n)
    (idle : ∀ m, ¬ x.task.Pending m) (todo : List (Fin 1024)) :
    ProcOk π (x.close dev n todo after) := by
  have goto : ∀ task, TaskOk π x.page task → ProcOk π (x.goto task) := fun task =>
    ok.goto fun m _ _ waits => absurd waits (idle m)
  have gone : (IsSlot n → ¬ FdAt π x.page n) → ProcOk π (x.goto after.task) := by
    intro fd
    apply goto
    rcases slot with rfl | hn
    · trivial
    · exact taskOk_after hn h (fd hn) fun data => fd hn ((ok.fdAt_iff hn (idle n)).mpr data)
  unfold Proc.close
  cases found : x.fdLookup n with
  | none =>
      apply gone
      intro hn fd
      obtain ⟨q, -, mapped⟩ := fd
      rw [fdLookup_none hn found] at mapped
      cases mapped
  | some q =>
      obtain ⟨hn, mapped⟩ := fdLookup_some small found
      have other : dev q ≠ .pipe → ¬ FdAt π x.page n := by
        intro hne fd
        obtain ⟨q', isFd, mapped'⟩ := fd
        rw [mapped, Option.some.injEq] at mapped'
        exact hne (mapped' ▸ marked q' isFd)
      dsimp only
      cases kind : dev q with
      | pipe => exact goto _ ⟨hn, h⟩
      | other =>
          have fd := other (by rw [kind]; decide)
          exact goto _ ⟨hn, fun data => fd ((ok.fdAt_iff hn (idle n)).mpr data), h⟩
      | unknown => exact gone fun _ => other (by rw [kind]; decide)

theorem ProcOk.call (ok : ProcOk π x) (marked : π.Marked dev) (idle : x.task = .idle)
    {call : Call} (inRange : call.InRange) (todo : List (Fin 1024)) :
    ProcOk π (x.call dev todo call) := by
  have free : ∀ m, ¬ x.task.Pending m := by
    intro m
    rw [idle]
    exact id
  cases call with
  | close n =>
      have h : After.Ok n .done := trivial
      exact ok.close marked inRange h (.inl rfl) free todo
  | dup old new =>
      obtain ⟨small, hn⟩ := inRange
      unfold Proc.call
      dsimp only
      cases found : x.fdLookup old with
      | none => exact ok
      | some q =>
          have lt : new.toNat < 32 := hn
          have h : After.Ok new (.dup old new) := ⟨(fdLookup_some small found).1, rfl⟩
          exact ok.close marked (by omega) h (.inr hn) free todo
  | exit => exact ok.goto (fun m _ _ waits => absurd waits (free m)) trivial

theorem pending_of {t : Task} (task : x.task = t) {n : Word} (h : x.task.Pending n) :
    t.Pending n := task ▸ h

/-- One page of the window is duplicated. -/
theorem ProcOk.dupPage (ok : ProcOk π x) {old new : Word} {k : Nat} (hk : k < 1024)
    (task : x.task = .dupPages old new k) {mem : Bool} {x' : Proc}
    (mapped : x.memMap (dataVa old k) (dataVa new k) (dupPerm (x.perm (dataPg old k))) mem =
      some x') : ProcOk π (x'.goto (.dupPages old new (k + 1))) := by
  have atTask := ok.task
  rw [task] at atTask
  obtain ⟨hold, hnew, noFd, sofar⟩ := atTask
  obtain ⟨q, at_old, rfl⟩ := memMap_some mapped
  change x.page (dataPg old k) = some q at at_old
  have kept : FdAt π (Function.update x.page (dataPg new k) (some q)) new ↔ FdAt π x.page new :=
    fdAt_update (fdPg_ne_dataPg hnew hnew hk)
  have keptOld : FdAt π (Function.update x.page (dataPg new k) (some q)) old ↔ FdAt π x.page old :=
    fdAt_update (fdPg_ne_dataPg hold hnew hk)
  refine ok.update hnew (.inr ⟨k, hk, rfl⟩) ?_ (fun w hne => Function.update_of_ne hne _ _)
    ?_ ?_ ?_ (fun h => absurd (kept.mp h) noFd) (fun _ => .inr rfl) ⟨hold, hnew, ?_, ?_⟩
  · exact fun n h => (pending_of task h).symm
  · intro q' isFd same
    rw [Option.some.injEq] at same
    obtain ⟨n, hn, eq, -⟩ := ok.fd_at _ q' isFd (same ▸ at_old)
    exact absurd eq (fdPg_ne_dataPg hn hold hk).symm
  · intro same
    rw [Option.some.injEq] at same
    obtain ⟨n, hn, eq, -⟩ := ok.data_at _ (same ▸ at_old)
    rw [(dataPg_inj hold hn hk (by decide) eq).2]
  · intro q' has same
    rw [Option.some.injEq] at same
    show Word.Has (Function.update x.perm (dataPg new k) _ (dataPg new k)) pteLibrary
    rw [Function.update_self]
    exact dupPerm_library (ok.library _ q' has (same ▸ at_old))
  · exact fun h => noFd (kept.mp h)
  · rw [keptOld]
    rcases Nat.eq_zero_or_pos k with rfl | pos
    · -- Page 0 decides: it is the `Pipe` just when the old slot has an end.
      have here : DataAt π (Function.update x.page (dataPg new 0) (some q)) new ↔
          DataAt π x.page old := by
        rw [DataAt, DataAt, Function.update_self, at_old]
      rw [here]
      refine ⟨fun data => ⟨Nat.one_pos, ?_⟩, fun h => ok.dataAt_of_fdAt hold h.2⟩
      rcases ok.fdAt_of_dataAt hold data with fd | waits
      · exact fd
      · have same : new = old := pending_of task waits
        exact absurd (sofar.mp (same ▸ data)).1 (Nat.lt_irrefl 0)
    · have apart : dataPg new 0 ≠ dataPg new k := by
        intro h
        have := (dataPg_inj hnew hnew (by decide) hk h).2
        omega
      rw [dataAt_update apart, sofar]
      exact ⟨fun h => ⟨by omega, h.2⟩, fun h => ⟨pos, h.2⟩⟩

/-- The `Fd` is duplicated. -/
theorem ProcOk.dupFd (ok : ProcOk π x) {old new : Word} (task : x.task = .dupFd old new)
    {mem : Bool} {x' : Proc}
    (mapped : x.memMap (index2fd old) (index2fd new) (dupPerm (x.perm (fdPg old))) mem =
      some x') : ProcOk π (x'.goto .idle) := by
  have atTask := ok.task
  rw [task] at atTask
  obtain ⟨hold, hnew, noFd, together⟩ := atTask
  obtain ⟨q, at_old, rfl⟩ := memMap_some mapped
  change x.page (fdPg old) = some q at at_old
  have kept : DataAt π (Function.update x.page (fdPg new) (some q)) new ↔ DataAt π x.page new :=
    dataAt_update (fdPg_ne_dataPg hnew hnew (by decide)).symm
  have fd_iff : FdAt π (Function.update x.page (fdPg new) (some q)) new ↔ FdAt π x.page old := by
    unfold FdAt
    rw [Function.update_self, at_old]
  refine ok.update hnew (.inl rfl) ?_ (fun w hne => Function.update_of_ne hne _ _)
    (fun _ _ _ => rfl) ?_ ?_ (fun h => kept.mpr (together.mpr (fd_iff.mp h)))
    (fun h => .inl (fd_iff.mpr (together.mp (kept.mp h)))) trivial
  · exact fun n h => (pending_of task h).symm
  · intro same
    rw [Option.some.injEq] at same
    obtain ⟨n, hn, eq, -⟩ := ok.data_at _ (same ▸ at_old)
    exact absurd eq (fdPg_ne_dataPg hold hn (by decide))
  · intro q' has same
    rw [Option.some.injEq] at same
    show Word.Has (Function.update x.perm (fdPg new) _ (fdPg new)) pteLibrary
    rw [Function.update_self]
    exact dupPerm_library (ok.library _ q' has (same ▸ at_old))

theorem ProcOk.go (ok : ProcOk π x) (marked : π.Marked dev) (mem : Bool)
    (todo : List (Fin 1024)) : ProcOk π (x.go dev mem todo) := by
  have atTask := ok.task
  unfold Proc.go
  cases task : x.task with
  | idle => exact ok
  | unmapFd n after =>
      rw [task] at atTask
      obtain ⟨hn, h⟩ := atTask
      dsimp only
      rw [memUnmap_fd hn]
      exact ok.unmap hn (.inl rfl) (fun _ h => (pending_of task h).elim)
        not_fdAt_unmap (fun _ => rfl) ⟨hn, not_fdAt_unmap, h⟩
  | unmapData n after =>
      rw [task] at atTask
      obtain ⟨hn, noFd, h⟩ := atTask
      dsimp only
      rw [index2data_eq, memUnmap_data hn (by decide)]
      exact ok.unmap hn (.inr ⟨0, by decide, rfl⟩)
        (fun _ h => (pending_of task h).symm) (fun fd => noFd fd.of_unmap)
        (absurd · not_dataAt_unmap) ⟨hn, not_dataAt_unmap, h⟩
  | unmapPages n pages after =>
      rw [task] at atTask
      obtain ⟨hn, noData, h⟩ := atTask
      cases pages with
      | nil =>
          exact ok.goto (fun _ _ _ h => (pending_of task h).elim)
            ⟨hn, noData, h⟩
      | cons k rest =>
          dsimp only
          rw [memUnmap_data hn k.isLt]
          exact ok.unmap hn (.inr ⟨k, k.isLt, rfl⟩)
            (fun _ h => (pending_of task h).elim)
            (fun fd => noData (ok.dataAt_of_fdAt hn fd.of_unmap))
            (fun data => absurd data.of_unmap noData) ⟨hn, fun data => noData data.of_unmap, h⟩
  | closeFd n after =>
      rw [task] at atTask
      obtain ⟨hn, noData, h⟩ := atTask
      dsimp only
      rw [memUnmap_fd hn]
      exact ok.unmap hn (.inl rfl) (fun _ h => (pending_of task h).elim)
        not_fdAt_unmap (fun data => absurd data.of_unmap noData)
        (taskOk_after hn h not_fdAt_unmap fun data => noData data.of_unmap)
  | dupPages old new k =>
      rw [task] at atTask
      obtain ⟨hold, hnew, noFd, sofar⟩ := atTask
      dsimp only
      split
      · rename_i hk
        split
        · split
          · exact ok.dupPage hk task ‹_›
          · exact ok.goto (fun _ _ _ h => .inr (pending_of task h))
              ⟨hnew, noFd⟩
        · rename_i unmapped
          refine ok.goto (fun _ _ _ h => .inr (pending_of task h))
            ⟨hold, hnew, noFd, fun data => ⟨by omega, (sofar.mp data).2⟩, fun h => ?_⟩
          rcases Nat.eq_zero_or_pos k with rfl | pos
          · have data : x.page (dataPg old 0) = some π.data := ok.dataAt_of_fdAt hold h.2
            rw [data] at unmapped
            exact absurd rfl unmapped
          · exact sofar.mpr ⟨pos, h.2⟩
      · exact ok.goto (fun _ _ _ h => .inr (pending_of task h))
          ⟨hold, hnew, noFd, fun data => (sofar.mp data).2, fun fd => sofar.mpr ⟨by omega, fd⟩⟩
  | dupFd old new =>
      rw [task] at atTask
      obtain ⟨-, hnew, noFd, -⟩ := atTask
      dsimp only
      split
      · exact ok.dupFd task ‹_›
      · exact ok.goto (fun _ _ _ h => .inr (pending_of task h)) ⟨hnew, noFd⟩
  | undupFd new =>
      rw [task] at atTask
      obtain ⟨hn, noFd⟩ := atTask
      dsimp only
      rw [memUnmap_fd hn]
      exact ok.unmap hn (.inl rfl) (fun _ h => (pending_of task h).symm)
        not_fdAt_unmap (fun _ => ⟨rfl, rfl⟩)
        ⟨hn, not_fdAt_unmap, fun h => absurd h (Nat.lt_irrefl 0)⟩
  | undupPages new k =>
      rw [task] at atTask
      obtain ⟨hn, noFd, noData⟩ := atTask
      dsimp only
      split
      · rename_i hk
        have gone : ¬ DataAt π (Function.update x.page (dataPg new k) none) new := by
          rcases Nat.eq_zero_or_pos k with rfl | pos
          · exact not_dataAt_unmap
          · exact fun data => noData pos data.of_unmap
        rw [memUnmap_data hn hk]
        exact ok.unmap hn (.inr ⟨k, hk, rfl⟩)
          (fun _ h => (pending_of task h).1.symm)
          (fun fd => noFd fd.of_unmap) (absurd · gone) ⟨hn, fun fd => noFd fd.of_unmap,
            fun _ => gone⟩
      · refine ok.goto (fun m _ _ waits => ?_) trivial
        have start := (pending_of task waits).2
        omega
  | exit i =>
      dsimp only
      split
      · rename_i hi
        have small : (BitVec.ofNat 32 i).toNat = i := by
          rw [BitVec.toNat_ofNat]
          unfold maxfd at hi
          omega
        have hn : IsSlot (BitVec.ofNat 32 i) := by rwa [IsSlot, small]
        have h : After.Ok (BitVec.ofNat 32 i) (.exit i) := trivial
        refine ok.close marked ?_ h (.inr hn) (fun _ => pending_of task) todo
        unfold maxfd at hi
        omega
      · exact ⟨nofun, nofun, nofun, trivial⟩
  | dead => exact ok

end Process

end Mos
