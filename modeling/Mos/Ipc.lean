import Mos.EnvInv
import Mos.Syscall
import Mos.SchedStep

/-!
# What the IPC calls do

Each call either returns an error and changes nothing, or it takes the one step
described here: a receiver is set to wait and gives up the processor, a sender
delivers its value and wakes the receiver.
-/

namespace Mos

variable {s s' : Kernel} {cur e : EnvIx}

/-- The kernel in which `cur` waits for a message and is off the queue `q`. -/
def Kernel.await (s : Kernel) (cur : EnvIx) (dstva : Word) (q : Tailq EnvIx) : Kernel :=
  { ipcAwait s cur dstva with
    envSchedList := q
    kstackTf := { s.kstackTf with regs := Function.update s.kstackTf.regs 2 0 } }

theorem sysIpcRecv_ok {dstva : Word} {r : Ret} (h : sysIpcRecv s dstva = .ok (s', r)) :
    (dstva ≠ 0 ∧ isIllegalVa dstva ∧ s' = s ∧ r = .error .inval) ∨
    (¬ (dstva ≠ 0 ∧ isIllegalVa dstva) ∧ r = .ok 0 ∧ ∃ cur q, s.curenv = some cur ∧
      s.envSchedList.remove cur = some q ∧ schedule (s.await cur dstva q) true = .ok s') := by
  unfold sysIpcRecv at h
  by_cases illegal : dstva ≠ 0 ∧ isIllegalVa dstva
  · rw [if_pos illegal] at h
    cases h
    exact .inl ⟨illegal.1, illegal.2, rfl, rfl⟩
  · rw [if_neg illegal] at h
    obtain ⟨cur, hcur, h⟩ := bind_eq_ok.mp h
    obtain ⟨s₁, removed, h⟩ := bind_eq_ok.mp h
    obtain ⟨q, remove, rfl⟩ := schedRemove_ok removed
    obtain ⟨s₂, scheduled, h⟩ := bind_eq_ok.mp h
    cases h
    exact .inr ⟨illegal, rfl, cur, q, Kernel.current_ok hcur, remove, scheduled⟩

theorem ipcTransfer_ok {srcva perm : Word} {r : Ret}
    (h : ipcTransfer s cur e srcva perm = .ok (s', r)) :
    ∃ pm, s' = s.withPm pm ∧ (srcva = 0 → pm = s.pm ∧ r = .ok 0) := by
  unfold ipcTransfer at h
  by_cases zero : srcva = 0
  · rw [if_pos zero] at h
    cases h
    exact ⟨s.pm, rfl, fun _ => ⟨rfl, rfl⟩⟩
  · rw [if_neg zero] at h
    obtain ⟨found, -, h⟩ := bind_eq_ok.mp h
    cases found with
    | none =>
        cases h
        exact ⟨s.pm, rfl, fun eq => absurd eq zero⟩
    | some page =>
        obtain ⟨⟨pm, r'⟩, -, h⟩ := bind_eq_ok.mp h
        cases h
        exact ⟨pm, rfl, fun eq => absurd eq zero⟩

/-- A call that finds no receiver changes nothing. -/
inductive Rejected (s : Kernel) (envid srcva : Word) : Err → Prop
  | illegal : srcva ≠ 0 → isIllegalVa srcva → Rejected s envid srcva .inval
  | badEnv : envid2env s envid false = .ok (.error .badEnv) → Rejected s envid srcva .badEnv
  | notRecv {e : EnvIx} : envid2env s envid false = .ok (.ok e) → (s.envs e).envIpcRecving = 0 →
      Rejected s envid srcva .ipcNotRecv

theorem sysIpcTrySend_ok {envid value srcva perm : Word} {r : Ret}
    (h : sysIpcTrySend s envid value srcva perm = .ok (s', r)) :
    (∃ err, Rejected s envid srcva err ∧ s' = s ∧ r = .error err) ∨
    (∃ e cur pm, ¬ (srcva ≠ 0 ∧ isIllegalVa srcva) ∧ envid2env s envid false = .ok (.ok e) ∧
      (s.envs e).envIpcRecving ≠ 0 ∧ s.curenv = some cur ∧
      ipcTransfer (ipcDeliver s cur e value perm) cur e srcva perm = .ok (s', r) ∧
      s' = (ipcDeliver s cur e value perm).withPm pm ∧
      (srcva = 0 → pm = s.pm ∧ r = .ok 0)) := by
  unfold sysIpcTrySend at h
  by_cases illegal : srcva ≠ 0 ∧ isIllegalVa srcva
  · rw [if_pos illegal] at h
    cases h
    exact .inl ⟨_, .illegal illegal.1 illegal.2, rfl, rfl⟩
  · rw [if_neg illegal] at h
    obtain ⟨found, lookup, h⟩ := bind_eq_ok.mp h
    cases found with
    | error err =>
        cases envid2env_error lookup
        cases h
        exact .inl ⟨_, .badEnv lookup, rfl, rfl⟩
    | ok e =>
        simp only [tryRet] at h
        by_cases idle : (s.envs e).envIpcRecving = 0
        · rw [if_pos idle] at h
          cases h
          exact .inl ⟨_, .notRecv lookup idle, rfl, rfl⟩
        · rw [if_neg idle] at h
          obtain ⟨cur, hcur, h⟩ := bind_eq_ok.mp h
          obtain ⟨pm, eq, noPage⟩ := ipcTransfer_ok h
          exact .inr ⟨e, cur, pm, illegal, lookup, idle, Kernel.current_ok hcur, h, eq, noPage⟩

/-! ## The envs after a message -/

theorem Kernel.await_env (s : Kernel) (cur : EnvIx) (dstva : Word) (q : Tailq EnvIx) (x : EnvIx) :
    (s.await cur dstva q).envs x = if x = cur then { s.envs x with
      envIpcRecving := 1, envIpcDstva := dstva, envStatus := .notRunnable } else s.envs x := by
  rcases eq_or_ne x cur with rfl | hne
  · simp [await, ipcAwait, setEnv]
  · simp [await, ipcAwait, setEnv, hne]

theorem ipcDeliver_env (s : Kernel) (cur e : EnvIx) (value perm : Word) (x : EnvIx) :
    (ipcDeliver s cur e value perm).envs x = if x = e then { s.envs x with
      envIpcValue := value, envIpcFrom := (s.envs cur).envId, envIpcPerm := pteV ||| perm,
      envIpcRecving := 0, envStatus := .runnable } else s.envs x := by
  rcases eq_or_ne x e with rfl | hne
  · simp [ipcDeliver, Kernel.schedInsertTail, Kernel.setEnv]
  · simp [ipcDeliver, Kernel.schedInsertTail, Kernel.setEnv, hne]

end Mos
