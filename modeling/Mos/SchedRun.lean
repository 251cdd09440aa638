import Mos.SchedInv

/-!
# The queue along a run

What the boot code, the envs and the timer do to the queue, in any order. The
queue holds exactly the runnable envs as long as every step is `Orderly`; one env
that wakes a receiver with `sys_set_env_status` is enough to break it.
-/

namespace Mos

inductive SchedOp
  /-- A trap saves the registers of the env it interrupts. -/
  | trap (tf : Trapframe)
  | envCreate (binary : Icode) (priority : Word)
  | exofork
  | setEnvStatus (envid status : Word)
  | ipcRecv (dstva : Word)
  | ipcTrySend (envid value srcva perm : Word)
  | yield
  | tick

/-- The operation, whatever result it returns. -/
def SchedOp.exec (s : Kernel) : SchedOp → Except Panic Kernel
  | .trap tf => .ok { s with kstackTf := tf }
  | .envCreate binary priority => (Mos.envCreate s binary priority).map (·.1)
  | .exofork => (sysExofork s).map (·.1)
  | .setEnvStatus envid status => (sysSetEnvStatus s envid status).map (·.1)
  | .ipcRecv dstva => (sysIpcRecv s dstva).map (·.1)
  | .ipcTrySend envid value srcva perm => (sysIpcTrySend s envid value srcva perm).map (·.1)
  | .yield => sysYield s
  | .tick => schedule s false

def schedStep (s : Kernel) (op : SchedOp) (s' : Kernel) : Prop := op.exec s = .ok s'

/-- A message wakes a receiver that still sleeps, and the current env gives up
the processor with links that agree with the queue. -/
def SchedOp.Orderly (s : Kernel) : SchedOp → Prop
  | .ipcTrySend envid _ _ _ => ∀ e, envid2env s envid false = .ok (.ok e) →
      (s.envs e).envIpcRecving ≠ 0 → (s.envs e).envStatus ≠ .runnable
  | .ipcRecv _ => s.CurrentUnlinkable
  | .yield => s.CurrentUnlinkable
  | .tick => s.CurrentUnlinkable
  | _ => True

def orderlyStep (s : Kernel) (op : SchedOp) (s' : Kernel) : Prop :=
  op.Orderly s ∧ schedStep s op s'

variable {s s' s'' : Kernel} {op : SchedOp} {ops : List SchedOp} {b : Boot}

/-- What one orderly step preserves. -/
theorem SchedInv.step (inv : SchedInv s) (step : orderlyStep s op s') : SchedInv s' := by
  obtain ⟨orderly, run⟩ := step
  have returned : ∀ {α : Type} {x : Except Panic (Kernel × α)},
      x.map (·.1) = .ok s' → ∃ r, x = .ok (s', r) := by
    intro α x h
    cases x with
    | error panic => cases h
    | ok y =>
        cases h
        exact ⟨y.2, rfl⟩
  cases op with
  | trap tf =>
      cases run
      exact inv.of_same ⟨rfl, rfl, fun _ => rfl⟩ rfl
  | envCreate binary priority =>
      obtain ⟨e, run⟩ := returned run
      exact inv.envCreate run
  | exofork =>
      obtain ⟨r, run⟩ := returned run
      exact inv.sysExofork run
  | setEnvStatus envid status =>
      obtain ⟨r, run⟩ := returned run
      exact inv.sysSetEnvStatus run
  | ipcRecv dstva =>
      obtain ⟨r, run⟩ := returned run
      exact inv.sysIpcRecv orderly run
  | ipcTrySend envid value srcva perm =>
      obtain ⟨r, run⟩ := returned run
      exact inv.sysIpcTrySend orderly run
  | yield => exact inv.schedule orderly run
  | tick => exact inv.schedule orderly run

theorem schedInv_kernelInit (pm : Pmap) (base : Nat) : SchedInv (kernelInit pm base) where
  queue := ⟨[], Tailq.repr_init, fun e => by simp [kernelInit, Env.zero]⟩
  free_nodup := nodup_slots
  free_status _ _ := rfl
  current _ h := by cases h

theorem SchedInv.of_envInit (h : envInit b = .ok s) : SchedInv s := by
  obtain ⟨pm, p, rfl⟩ := envInit_ok h
  exact schedInv_kernelInit pm p

/-- From boot on, the queue is well formed and holds exactly the runnable envs, as
long as every step is orderly. -/
theorem sched_list_runnable (boot : envInit b = .ok s) (run : Run orderlyStep s ops s') :
    QueueInv s' :=
  (run.invariant SchedInv (.of_envInit boot) fun _ _ _ => SchedInv.step).queue

set_option maxRecDepth 2000 in
/-- The two envs of `smallBoot`, of which the second runs and then waits for a
message. -/
theorem twoEnvs_recv (pm : Pmap) : ∃ s₁ s₂, schedStep (twoEnvs pm) .tick s₁ ∧
    s₁.curenv = some 1 ∧ (s₁.envs 1).envStatus = .runnable ∧ schedStep s₁ (.ipcRecv 0) s₂ ∧
    s₂.curenv = some 0 ∧ (s₂.envs 1).envStatus = .notRunnable ∧ (s₂.envs 1).envIpcRecving = 1 ∧
    (s₂.envs 1).envId = ((twoEnvs pm).envs 1).envId :=
  ⟨_, _, rfl, rfl, rfl, rfl, rfl, rfl, rfl, rfl⟩

/-- Boot `smallBoot`, create two envs, run the second and let it wait. -/
def recvOps : List SchedOp := [.envCreate ⟨[], 0⟩ 1, .envCreate ⟨[], 0⟩ 1, .tick, .ipcRecv 0]

theorem recvOps_run : ∃ s s', envInit smallBoot = .ok s ∧ Run orderlyStep s recvOps s' ∧
    s'.curenv = some 0 ∧ (s'.envs 1).envStatus = .notRunnable ∧
    (s'.envs 1).envIpcRecving = 1 ∧ (s'.envs 1).envId = 4097 := by
  obtain ⟨pm, s₁, boot, create₁, create₂, -, -⟩ := twoEnvs_boot
  obtain ⟨s₂, s₃, tick, current, runnable, recv, last⟩ := twoEnvs_recv pm
  obtain ⟨current', blocked, recving, sameId⟩ := last
  have first : orderlyStep (kernelInit pm 335) (.envCreate ⟨[], 0⟩ 1) s₁ := by
    refine ⟨trivial, ?_⟩
    rw [schedStep, SchedOp.exec, create₁]
    rfl
  have second : orderlyStep s₁ (.envCreate ⟨[], 0⟩ 1) (twoEnvs pm) := by
    refine ⟨trivial, ?_⟩
    rw [schedStep, SchedOp.exec, create₂]
    rfl
  have third : orderlyStep (twoEnvs pm) .tick s₂ := ⟨fun e he => (by cases he), tick⟩
  have fourth : orderlyStep s₂ (.ipcRecv 0) s₃ := by
    refine ⟨fun e he blocked => ?_, recv⟩
    rw [current] at he
    cases he
    exact absurd runnable blocked
  exact ⟨_, _, boot, (((Run.single first).snoc second).snoc third).snoc fourth, current', blocked,
    recving, sameId.trans (twoEnvs_envId pm).2⟩

theorem sched_list_runnable_recv : ∃ s s', envInit smallBoot = .ok s ∧
    Run orderlyStep s recvOps s' ∧ QueueInv s' := by
  obtain ⟨s, s', boot, run, -⟩ := recvOps_run
  exact ⟨s, s', boot, run, sched_list_runnable boot run⟩

/-- An env that `sys_set_env_status` wakes while it waits for a message is put on
the queue again by the message, and the queue no longer ends. -/
theorem double_wake {e cur : EnvIx} {envid : Word} (hcur : s.curenv = some cur)
    (named : envid ≠ 0) (slot : envx envid = e) (id : (s.envs e).envId = envid)
    (blocked : (s.envs e).envStatus = .notRunnable) (recving : (s.envs e).envIpcRecving ≠ 0) :
    ∃ s₁ s₂, schedStep s (.setEnvStatus envid 1) s₁ ∧
      schedStep s₁ (.ipcTrySend envid 0 0 0) s₂ ∧ ¬ QueueInv s₂ := by
  let s₁ : Kernel := s.move e .runnable (s.envSchedList.insertTail e)
  have wake : sysSetEnvStatus s envid 1 = .ok (s₁, .ok 0) := by
    simp only [sysSetEnvStatus, userEnvStatus, if_true,
      envid2env_eq named slot (by rw [blocked]; simp) id,
      tryRet, requeue, blocked, Bind.bind, Except.bind]
    rfl
  have env₁ : s₁.envs e = { s.envs e with envStatus := .runnable } := Function.update_self ..
  have send : ∃ s₂, sysIpcTrySend s₁ envid 0 0 0 = .ok (s₂, .ok 0) ∧
      s₂.envSchedList = (s.envSchedList.insertTail e).insertTail e := by
    refine ⟨ipcDeliver s₁ cur e 0 0, ?_, rfl⟩
    have current : s₁.current = .ok cur := by
      rw [Kernel.current, show s₁.curenv = some cur from hcur]
    have waiting : (s₁.envs e).envIpcRecving ≠ 0 := by
      rw [env₁]
      exact recving
    have found : envid2env s₁ envid false = .ok (.ok e) :=
      envid2env_eq named slot (by rw [env₁]; simp) (by rw [env₁]; exact id)
    simp only [sysIpcTrySend, found, tryRet, current, Bind.bind, Except.bind, if_neg waiting]
    rfl
  obtain ⟨s₂, send, queue⟩ := send
  refine ⟨s₁, s₂, ?_, ?_, ?_⟩
  · rw [schedStep, SchedOp.exec, wake]
    rfl
  · rw [schedStep, SchedOp.exec, send]
    rfl
  · rintro ⟨l, repr, -⟩
    rw [queue] at repr
    exact Tailq.not_repr_insertTail_twice _ _ repr

/-- Without the condition on the steps the queue does not stay well formed. -/
theorem sched_list_not_runnable : ¬ ∀ (b : Boot) (s : Kernel) (ops : List SchedOp) (s' : Kernel),
    envInit b = .ok s → Run schedStep s ops s' → QueueInv s' := by
  intro always
  obtain ⟨s, s₁, boot, run, current, blocked, recving, id⟩ := recvOps_run
  obtain ⟨s₂, s₃, wake, send, broken⟩ := double_wake (e := 1) current
    (by decide) (by decide) id blocked (by rw [recving]; decide)
  exact broken (always _ _ _ _ boot (((run.mono fun _ _ _ h => h.2).snoc wake).snoc send))

end Mos
