import Mos.SchedRun
import Mos.Lib.Run

/-!
# Messages are delivered exactly once

Any number of envs that receive, send values to each other, yield and are
interrupted. A receiver that has called `sys_ipc_recv` is blocked with its flag
set until one sender delivers to it; whoever sends to it later is refused until
it has run and received again.
-/

namespace Mos

inductive IpcOp
  | trap (tf : Trapframe)
  | recv (dstva : Word)
  | trySend (envid value perm : Word)
  | yield
  | tick

/-- A send carries no page. -/
def IpcOp.exec (s : Kernel) : IpcOp → Except Panic (Kernel × Ret)
  | .trap tf => .ok ({ s with kstackTf := tf }, .ok 0)
  | .recv dstva => sysIpcRecv s dstva
  | .trySend envid value perm => sysIpcTrySend s envid value 0 perm
  | .yield => (sysYield s).map fun s => (s, .ok 0)
  | .tick => (schedule s false).map fun s => (s, .ok 0)

/-- The env a send is addressed to. -/
def IpcOp.target (s : Kernel) : IpcOp → Option EnvIx
  | .trySend envid _ _ =>
      match envid2env s envid false with
      | .ok (.ok e) => some e
      | _ => none
  | _ => none

/-- What happens in a step: who did what to whom, what it returned, and which env
runs afterwards. -/
structure IpcEvent where
  op : IpcOp
  caller : Option EnvIx
  target : Option EnvIx
  ret : Ret
  next : Option EnvIx

def ipcStep (s : Kernel) (ev : IpcEvent) (s' : Kernel) : Prop :=
  ev.op.exec s = .ok (s', ev.ret) ∧ ev.caller = s.curenv ∧ ev.target = ev.op.target s ∧
    ev.next = s'.curenv

namespace IpcEvent

/-- `e` blocks in `sys_ipc_recv`. -/
def Recvs (ev : IpcEvent) (e : EnvIx) : Prop :=
  ∃ dstva, ev.op = .recv dstva ∧ ev.caller = some e ∧ ev.ret = .ok 0

/-- A `sys_ipc_try_send` to `e`. -/
def SendsTo (ev : IpcEvent) (e : EnvIx) : Prop := ev.target = some e

/-- A `sys_ipc_try_send` of `value` to `e` by `sender` returns 0. -/
def Delivers (ev : IpcEvent) (e : EnvIx) (value : Word) (sender : EnvIx) : Prop :=
  ev.SendsTo e ∧ ev.ret = .ok 0 ∧ ev.caller = some sender ∧
    ∃ envid perm, ev.op = .trySend envid value perm

/-- `e` neither blocks nor is sent a message. -/
def Quiet (ev : IpcEvent) (e : EnvIx) : Prop :=
  ¬ ev.Recvs e ∧ ∀ value sender, ¬ ev.Delivers e value sender

theorem Delivers.unique {ev : IpcEvent} {e sender sender' : EnvIx} {value value' : Word}
    (h : ev.Delivers e value sender) (h' : ev.Delivers e value' sender') :
    value' = value ∧ sender' = sender := by
  obtain ⟨-, -, caller, envid, perm, op⟩ := h
  obtain ⟨-, -, caller', envid', perm', op'⟩ := h'
  rw [op] at op'
  rw [caller] at caller'
  cases op'
  cases caller'
  exact ⟨rfl, rfl⟩

theorem Delivers.not_recvs {ev : IpcEvent} {e x sender : EnvIx} {value : Word}
    (h : ev.Delivers e value sender) : ¬ ev.Recvs x := by
  rintro ⟨dstva, op', -⟩
  obtain ⟨-, -, -, envid, perm, op⟩ := h
  rw [op] at op'
  cases op'

end IpcEvent

variable {s s' s₀ : Kernel} {e sender : EnvIx} {ev : IpcEvent} {evs : List IpcEvent}
  {value : Word}

/-- An env waits for a message only while it is blocked, and the current env is
not. -/
structure IpcInv (s : Kernel) : Prop where
  queue : QueueInv s
  current : ∀ e, s.curenv = some e → (s.envs e).envStatus = .runnable
  waiting : ∀ e, (s.envs e).envIpcRecving ≠ 0 →
    (s.envs e).envIpcRecving = 1 ∧ (s.envs e).envStatus = .notRunnable

/-- The message `e` holds is that of `sender`. -/
def Kernel.Holds (s : Kernel) (e : EnvIx) (value : Word) (sender : EnvIx) : Prop :=
  (s.envs e).envIpcValue = value ∧ (s.envs e).envIpcFrom = (s.envs sender).envId

/-- What a step does to the message and the flag of `e`. -/
inductive IpcEffect (s : Kernel) (ev : IpcEvent) (s' : Kernel) (e : EnvIx) : Prop
  | waits : ev.Recvs e → (s'.envs e).envIpcRecving = 1 → IpcEffect s ev s' e
  | takes {value : Word} {sender : EnvIx} : ev.Delivers e value sender →
      (s.envs e).envIpcRecving ≠ 0 → (s'.envs e).envIpcRecving = 0 → s'.Holds e value sender →
      IpcEffect s ev s' e
  | keeps : ev.Quiet e →
      (s'.envs e).envIpcRecving = (s.envs e).envIpcRecving →
      (s'.envs e).envIpcValue = (s.envs e).envIpcValue →
      (s'.envs e).envIpcFrom = (s.envs e).envIpcFrom → IpcEffect s ev s' e

/-- The step keeps the invariant, no env changes its id, and the message of each
env changes as described. -/
structure IpcSpec (s : Kernel) (ev : IpcEvent) (s' : Kernel) : Prop where
  inv : IpcInv s'
  id : ∀ e, (s'.envs e).envId = (s.envs e).envId
  effect : ∀ e, IpcEffect s ev s' e

/-! ## Steps -/

theorem IpcInv.unlinkable (inv : IpcInv s) : s.CurrentUnlinkable :=
  fun e hcur blocked => absurd (inv.current e hcur) blocked

theorem IpcInv.not_current (inv : IpcInv s) (waiting : (s.envs e).envIpcRecving ≠ 0) :
    s.curenv ≠ some e := by
  intro hcur
  have runnable := inv.current e hcur
  rw [(inv.waiting e waiting).2] at runnable
  cases runnable

theorem IpcInv.of_resumed (queue : QueueInv s') (resumed : Resumed s s')
    (waiting : ∀ e, (s.envs e).envIpcRecving ≠ 0 →
      (s.envs e).envIpcRecving = 1 ∧ (s.envs e).envStatus = .notRunnable) : IpcInv s' := by
  refine ⟨queue, fun e hcur => ?_, fun e he => ?_⟩
  · obtain ⟨e', current, runnable, -⟩ := resumed.current
    rw [current] at hcur
    cases hcur
    rw [resumed.status]
    exact runnable
  · rw [resumed.field Env.envIpcRecving fun _ _ _ => rfl] at he ⊢
    rw [resumed.status]
    exact waiting e he

/-- Only the processor changes hands. -/
theorem IpcInv.reschedule {yield : Bool} (inv : IpcInv s)
    (h : Mos.schedule s yield = .ok s') (quiet : ∀ e, ev.Quiet e) : IpcSpec s ev s' := by
  have resumed := (schedule_ok h).1
  exact ⟨.of_resumed (inv.queue.schedule inv.unlinkable h) resumed inv.waiting,
    resumed.field Env.envId fun _ _ _ => rfl, fun e => .keeps (quiet e)
      (resumed.field Env.envIpcRecving (fun _ _ _ => rfl) e)
      (resumed.field Env.envIpcValue (fun _ _ _ => rfl) e)
      (resumed.field Env.envIpcFrom (fun _ _ _ => rfl) e)⟩

/-- A step in which nobody is rescheduled and no message moves. -/
theorem IpcInv.idle (inv : IpcInv s) (quiet : ∀ e, ev.Quiet e) : IpcSpec s ev s :=
  ⟨inv, fun _ => rfl, fun e => .keeps (quiet e) rfl rfl rfl⟩

/-- A receiver blocks. -/
theorem IpcInv.recv {cur : EnvIx} {dstva : Word} {q : Tailq EnvIx} (inv : IpcInv s)
    (hcur : s.curenv = some cur) (remove : s.envSchedList.remove cur = some q)
    (scheduled : Mos.schedule (s.await cur dstva q) true = .ok s') (recvs : ev.Recvs cur)
    (quiet : ∀ e, e ≠ cur → ev.Quiet e) : IpcSpec s ev s' := by
  have unlinkable := s.currentUnlinkable_await dstva hcur remove
  have waiting : ∀ e, ((s.await cur dstva q).envs e).envIpcRecving ≠ 0 →
      ((s.await cur dstva q).envs e).envIpcRecving = 1 ∧
        ((s.await cur dstva q).envs e).envStatus = .notRunnable := by
    intro e
    rw [Kernel.await_env]
    split
    · exact fun _ => ⟨rfl, rfl⟩
    · exact inv.waiting e
  have resumed := (schedule_ok scheduled).1
  refine ⟨.of_resumed ((inv.queue.await inv.unlinkable hcur remove).schedule unlinkable scheduled)
    resumed waiting, fun e => ?_, fun e => ?_⟩
  · rw [resumed.field Env.envId fun _ _ _ => rfl, Kernel.await_env]
    split <;> rfl
  · rcases eq_or_ne e cur with rfl | hne
    · refine .waits recvs ?_
      rw [resumed.field Env.envIpcRecving fun _ _ _ => rfl, Kernel.await_env, if_pos rfl]
    · have same : (s.await cur dstva q).envs e = s.envs e := by
        rw [Kernel.await_env, if_neg hne]
      refine .keeps (quiet e hne) ?_ ?_ ?_
      · rw [resumed.field Env.envIpcRecving fun _ _ _ => rfl, same]
      · rw [resumed.field Env.envIpcValue fun _ _ _ => rfl, same]
      · rw [resumed.field Env.envIpcFrom fun _ _ _ => rfl, same]

/-- A message is delivered to a blocked receiver. -/
theorem IpcInv.deliver {cur : EnvIx} {perm : Word} {x : EnvIx} (inv : IpcInv s)
    (waiting : (s.envs x).envIpcRecving ≠ 0) (delivers : ev.Delivers x value cur) :
    IpcSpec s ev (ipcDeliver s cur x value perm) := by
  have blocked := (inv.waiting x waiting).2
  have hid : ∀ e, ((ipcDeliver s cur x value perm).envs e).envId = (s.envs e).envId := by
    intro e
    rw [ipcDeliver_env]
    split <;> rfl
  refine ⟨⟨inv.queue.ipcDeliver (by rw [blocked]; simp), fun e hcur => ?_, fun e => ?_⟩, hid,
    fun e => ?_⟩
  · rw [ipcDeliver_env]
    split
    · rfl
    · exact inv.current e hcur
  · rw [ipcDeliver_env]
    split
    · exact fun h => absurd rfl h
    · exact inv.waiting e
  · rcases eq_or_ne e x with rfl | hne
    · refine .takes delivers waiting ?_ ⟨?_, ?_⟩
      · rw [ipcDeliver_env, if_pos rfl]
      · rw [ipcDeliver_env, if_pos rfl]
      · rw [hid, ipcDeliver_env, if_pos rfl]
    · refine .keeps ⟨delivers.not_recvs, fun _ _ h => hne ?_⟩ ?_ ?_ ?_
      · exact Option.some.inj (h.1.symm.trans delivers.1)
      · rw [ipcDeliver_env, if_neg hne]
      · rw [ipcDeliver_env, if_neg hne]
      · rw [ipcDeliver_env, if_neg hne]

/-- A send returns 0 and is delivered, or it is refused and changes nothing. -/
theorem ipcStep_send (step : ipcStep s ev s') (sends : ev.SendsTo e) :
    ((s.envs e).envIpcRecving ≠ 0 ∧ (∃ value cur perm, ev.Delivers e value cur ∧
      s' = ipcDeliver s cur e value perm)) ∨
    ((s.envs e).envIpcRecving = 0 ∧ ev.ret = .error .ipcNotRecv ∧ s' = s) := by
  obtain ⟨run, caller, target, -⟩ := step
  have aimed : ev.op.target s = some e := target.symm.trans sends
  cases hop : ev.op with
  | trySend envid value perm =>
      rw [hop] at run aimed
      have lookup : envid2env s envid false = .ok (.ok e) := by
        simp only [IpcOp.target] at aimed
        split at aimed
        · next e' found =>
            cases aimed
            exact found
        · cases aimed
      rcases sysIpcTrySend_ok run with ⟨err, rejected, rfl, failed⟩ |
        ⟨e', cur, pm, -, lookup', waiting, hcur, -, rfl, noPage⟩
      · cases rejected with
        | illegal carries => exact absurd rfl carries
        | badEnv lookup' =>
            rw [lookup] at lookup'
            cases lookup'
        | notRecv lookup' flag =>
            rw [lookup] at lookup'
            cases lookup'
            exact .inr ⟨flag, failed, rfl⟩
      · rw [lookup] at lookup'
        cases lookup'
        obtain ⟨rfl, ret⟩ := noPage rfl
        exact .inl ⟨waiting, value, cur, perm,
          ⟨sends, ret, caller.trans hcur, envid, perm, hop⟩, rfl⟩
  | trap tf => rw [hop] at aimed; cases aimed
  | recv dstva => rw [hop] at aimed; cases aimed
  | yield => rw [hop] at aimed; cases aimed
  | tick => rw [hop] at aimed; cases aimed

/-- What one step does. -/
theorem IpcInv.step (inv : IpcInv s) (step : ipcStep s ev s') : IpcSpec s ev s' := by
  obtain ⟨run, caller, target, next⟩ := id step
  have untargeted : ev.op.target s = none → ∀ e value sender, ¬ ev.Delivers e value sender := by
    intro none e value sender delivers
    have aimed : ev.target = some e := delivers.1
    rw [target, none] at aimed
    cases aimed
  have active : (∀ dstva, ev.op ≠ .recv dstva) → ∀ e, ¬ ev.Recvs e :=
    fun other e ⟨dstva, op, _⟩ => other dstva op
  cases hop : ev.op with
  | trap tf =>
      rw [hop] at run untargeted active
      simp only [IpcOp.exec, Except.ok.injEq, Prod.mk.injEq] at run
      obtain ⟨rfl, -⟩ := run
      exact ⟨⟨inv.queue, inv.current, inv.waiting⟩, fun _ => rfl,
        fun e => .keeps ⟨active (by simp) e, untargeted rfl e⟩ rfl rfl rfl⟩
  | recv dstva =>
      rw [hop] at run untargeted
      rcases sysIpcRecv_ok run with
        ⟨-, -, rfl, failed⟩ | ⟨-, ret, cur, q, hcur, remove, scheduled⟩
      · refine inv.idle fun e => ⟨fun recvs => ?_, untargeted rfl e⟩
        obtain ⟨-, -, -, returned⟩ := recvs
        rw [failed] at returned
        cases returned
      · refine inv.recv hcur remove scheduled ⟨dstva, hop, caller.trans hcur, ret⟩
          fun e hne => ⟨fun recvs => hne ?_, untargeted rfl e⟩
        obtain ⟨-, -, self, -⟩ := recvs
        exact Option.some.inj (self.symm.trans (caller.trans hcur))
  | trySend envid value perm =>
      have active' := active (by simp [hop])
      cases haim : ev.target with
      | none =>
          have quiet : ∀ e, ev.Quiet e := by
            refine fun e => ⟨active' e, fun _ _ delivers => ?_⟩
            have aimed : ev.target = some e := delivers.1
            rw [haim] at aimed
            cases aimed
          rw [hop] at run target
          rcases sysIpcTrySend_ok run with ⟨-, -, rfl, -⟩ | ⟨e, cur, pm, -, lookup, -⟩
          · exact inv.idle quiet
          · exfalso
            simp only [IpcOp.target, lookup, haim] at target
            cases target
      | some e =>
          rcases ipcStep_send step haim with
            ⟨waiting, value, cur, perm, delivers, rfl⟩ | ⟨-, refused, rfl⟩
          · exact inv.deliver waiting delivers
          · refine inv.idle fun x => ⟨active' x, fun _ _ delivers => ?_⟩
            have returned := delivers.2.1
            rw [refused] at returned
            cases returned
  | yield =>
      rw [hop] at run untargeted active
      obtain ⟨s₁, yielded, eq⟩ := map_eq_ok.mp run
      obtain ⟨rfl, -⟩ := Prod.mk.inj eq
      exact inv.reschedule yielded fun e => ⟨active (by simp) e, untargeted rfl e⟩
  | tick =>
      rw [hop] at run untargeted active
      obtain ⟨s₁, ticked, eq⟩ := map_eq_ok.mp run
      obtain ⟨rfl, -⟩ := Prod.mk.inj eq
      exact inv.reschedule ticked fun e => ⟨active (by simp) e, untargeted rfl e⟩

/-! ## Runs -/

theorem ipcRun_inv (inv : IpcInv s) (run : Run ipcStep s evs s') : IpcInv s' :=
  run.invariant IpcInv inv fun _ _ _ inv step => (inv.step step).inv

theorem Kernel.Holds.keep (holds : s.Holds e value sender)
    (id : ∀ e, (s'.envs e).envId = (s.envs e).envId)
    (value' : (s'.envs e).envIpcValue = (s.envs e).envIpcValue)
    (from' : (s'.envs e).envIpcFrom = (s.envs e).envIpcFrom) : s'.Holds e value sender :=
  ⟨value'.trans holds.1, from'.trans (holds.2.trans (id sender).symm)⟩

/-- What has happened in the events `evs` to `e`, which was blocked before them. -/
inductive Served (s : Kernel) (e : EnvIx) (evs : List IpcEvent) : Prop
  | waiting : (s.envs e).envIpcRecving ≠ 0 → (∀ x ∈ evs, ¬ x.SendsTo e) → Served s e evs
  | served {before after : List IpcEvent} {sent : IpcEvent} {value : Word} {sender : EnvIx} :
      evs = before ++ sent :: after → sent.Delivers e value sender →
      (∀ x ∈ before, ¬ x.SendsTo e) → (∀ x ∈ after, x.SendsTo e → x.ret = .error .ipcNotRecv) →
      (s.envs e).envIpcRecving = 0 → s.Holds e value sender → Served s e evs

/-- As long as `e` does not run, the first send to it is delivered and the others are
refused. -/
theorem Served.step (served : Served s e evs) (inv : IpcInv s) (asleep : s.curenv ≠ some e)
    (step : ipcStep s ev s') : Served s' e (evs ++ [ev]) := by
  have spec := inv.step step
  have blocked : ¬ ev.Recvs e := by
    rintro ⟨-, -, caller, -⟩
    exact asleep (step.2.1.symm.trans caller)
  cases served with
  | waiting flag unsent =>
      by_cases sends : ev.SendsTo e
      · rcases ipcStep_send step sends with ⟨-, value, cur, perm, delivers, -⟩ | ⟨idle, -⟩
        · cases spec.effect e with
          | waits recvs => exact absurd recvs blocked
          | takes delivers' _ cleared holds =>
              exact .served rfl delivers' unsent (by simp) cleared holds
          | keeps quiet => exact absurd delivers (quiet.2 _ _)
        · exact absurd idle flag
      · cases spec.effect e with
        | waits recvs => exact absurd recvs blocked
        | takes delivers => exact absurd delivers.1 sends
        | keeps _ flag' =>
            refine .waiting (by rw [flag']; exact flag) fun x hx => ?_
            rcases List.mem_append.mp hx with hx | hx
            · exact unsent x hx
            · cases List.mem_singleton.mp hx
              exact sends
  | @served before after sent value sender split delivers unsent refused cleared holds =>
      cases spec.effect e with
      | waits recvs => exact absurd recvs blocked
      | takes _ flag => exact absurd cleared flag
      | keeps _ flag' value' from' =>
          refine @Served.served _ _ _ before (after ++ [ev]) _ _ _ (by simp [split]) delivers
            unsent (fun x hx sends => ?_) (flag'.trans cleared) (holds.keep spec.id value' from')
          rcases List.mem_append.mp hx with hx | hx
          · exact refused x hx sends
          · cases List.mem_singleton.mp hx
            rcases ipcStep_send step sends with ⟨flag, -⟩ | ⟨-, refused, -⟩
            · exact absurd cleared flag
            · exact refused

theorem IpcInv.served (inv : IpcInv s) (waiting : (s.envs e).envIpcRecving ≠ 0)
    (run : Run ipcStep s evs s') (asleep : ∀ x ∈ evs, x.next ≠ some e) :
    IpcInv s' ∧ s'.curenv ≠ some e ∧ Served s' e evs := by
  refine run.history (fun evs s' => (∀ x ∈ evs, x.next ≠ some e) →
    IpcInv s' ∧ s'.curenv ≠ some e ∧ Served s' e evs) ?_ ?_ asleep
  · exact fun _ => ⟨inv, inv.not_current waiting, .waiting waiting (by simp)⟩
  · intro evs s₁ ev s₂ ih step asleep
    obtain ⟨inv₁, notCurrent, served⟩ := ih fun x hx => asleep x (List.mem_append_left _ hx)
    refine ⟨(inv₁.step step).inv, fun current => ?_, served.step inv₁ notCurrent step⟩
    exact asleep ev (by simp) (step.2.2.2.trans current)

/-- A message stays until its receiver receives again. -/
theorem IpcInv.holds (inv : IpcInv s) (cleared : (s.envs e).envIpcRecving = 0)
    (holds : s.Holds e value sender) (run : Run ipcStep s evs s')
    (unasked : ∀ x ∈ evs, ¬ x.Recvs e) : s'.Holds e value sender := by
  have kept := run.history (fun evs s' => (∀ x ∈ evs, ¬ x.Recvs e) →
    IpcInv s' ∧ (s'.envs e).envIpcRecving = 0 ∧ s'.Holds e value sender)
    (fun _ => ⟨inv, cleared, holds⟩) (fun evs s₁ ev s₂ ih step unasked => ?_) unasked
  · exact kept.2.2
  · obtain ⟨inv₁, cleared₁, holds₁⟩ := ih fun x hx => unasked x (List.mem_append_left _ hx)
    have spec := inv₁.step step
    cases spec.effect e with
    | waits recvs => exact absurd recvs (unasked ev (by simp))
    | takes _ flag => exact absurd cleared₁ flag
    | keeps _ flag value' from' =>
        exact ⟨spec.inv, flag.trans cleared₁, holds₁.keep spec.id value' from'⟩

/-- What has been sent to `e` since it blocked. -/
theorem IpcInv.window {pre mid : List IpcEvent} {recv : IpcEvent} (inv : IpcInv s₀)
    (run : Run ipcStep s₀ (pre ++ recv :: mid) s) (recvs : recv.Recvs e)
    (asleep : ∀ x ∈ mid, x.next ≠ some e) :
    IpcInv s ∧ s.curenv ≠ some e ∧ Served s e mid := by
  obtain ⟨s₁, run₁, rest⟩ := run.split
  obtain ⟨s₂, step₁, run₂⟩ := rest.cons_inv
  have spec₁ := (ipcRun_inv inv run₁).step step₁
  have waiting : (s₂.envs e).envIpcRecving ≠ 0 := by
    cases spec₁.effect e with
    | waits _ flag => rw [flag]; decide
    | takes delivers => exact absurd recvs delivers.not_recvs
    | keeps quiet => exact absurd recvs quiet.1
  exact spec₁.inv.served waiting run₂ asleep

/-- Between blocking in `sys_ipc_recv` and running again an env is sent exactly one
message. -/
theorem IpcInv.one_message {pre mid : List IpcEvent} {recv last : IpcEvent} (inv : IpcInv s₀)
    (run : Run ipcStep s₀ (pre ++ recv :: mid ++ [last]) s) (recvs : recv.Recvs e)
    (asleep : ∀ x ∈ mid, x.next ≠ some e) (scheduled : last.next = some e) :
    ∃ before sent after value sender, mid = before ++ sent :: after ∧
      sent.Delivers e value sender ∧
      (∀ x ∈ before ++ after ++ [last], x.SendsTo e → x.ret = .error .ipcNotRecv) ∧
      s.Holds e value sender := by
  obtain ⟨s₃, run₃, step₃⟩ := run.snoc_inv
  obtain ⟨inv₃, notCurrent, served⟩ := inv.window run₃ recvs asleep
  have spec := inv₃.step step₃
  have current : s.curenv = some e := step₃.2.2.2.symm.trans scheduled
  -- whoever sends goes on running, so the event that lets `e` run is not a send to it
  have unsent : ¬ last.SendsTo e := by
    intro sends
    rcases ipcStep_send step₃ sends with ⟨-, value, cur, perm, -, rfl⟩ | ⟨-, -, rfl⟩
    · exact notCurrent current
    · exact notCurrent current
  cases spec.effect e with
  | waits recvs => exact absurd (step₃.2.1.symm.trans recvs.choose_spec.2.1) notCurrent
  | takes delivers => exact absurd delivers.1 unsent
  | keeps _ flag value' from' =>
      cases served with
      | waiting waiting => exact absurd current (spec.inv.not_current (by rwa [flag]))
      | @served before after sent value sender split delivers first refused cleared holds =>
          refine ⟨before, sent, after, value, sender, split, delivers, fun x hx sends => ?_,
            holds.keep spec.id value' from'⟩
          rcases List.mem_append.mp hx with hx | hx
          · rcases List.mem_append.mp hx with hx | hx
            · exact absurd sends (first x hx)
            · exact refused x hx sends
          · cases List.mem_singleton.mp hx
            exact absurd sends unsent

/-- The message of a delivery is there until its receiver receives again. -/
theorem IpcInv.not_lost {pre mid : List IpcEvent} {sent : IpcEvent} (inv : IpcInv s₀)
    (run : Run ipcStep s₀ (pre ++ sent :: mid) s) (delivers : sent.Delivers e value sender)
    (unasked : ∀ x ∈ mid, ¬ x.Recvs e) : s.Holds e value sender := by
  obtain ⟨s₁, run₁, rest⟩ := run.split
  obtain ⟨s₂, step₁, run₂⟩ := rest.cons_inv
  have spec₁ := (ipcRun_inv inv run₁).step step₁
  cases spec₁.effect e with
  | waits recvs => exact absurd recvs delivers.not_recvs
  | takes delivers' _ cleared holds =>
      obtain ⟨rfl, rfl⟩ := delivers.unique delivers'
      exact spec₁.inv.holds cleared holds run₂ unasked
  | keeps quiet => exact absurd delivers (quiet.2 _ _)

/-- Messages are delivered exactly once, whatever the envs do in whatever order. -/
theorem ipc_exactly_once (queue : QueueInv s₀)
    (current : ∀ e, s₀.curenv = some e → (s₀.envs e).envStatus = .runnable)
    (idle : ∀ e, (s₀.envs e).envIpcRecving = 0) (run : Run ipcStep s₀ evs s) :
    (∀ e, (s.envs e).envIpcRecving = 1 → (s.envs e).envStatus = .notRunnable ∧
      ∃ l, s.envSchedList.Repr l ∧ e ∉ l) ∧
    (∀ e ev s', ipcStep s ev s' → ev.SendsTo e →
      (∃ value sender, ev.Delivers e value sender) ∨ ev.ret = .error .ipcNotRecv ∧ s' = s) ∧
    (∀ e pre recv mid, evs = pre ++ recv :: mid → recv.Recvs e →
      (∀ x ∈ mid, x.next ≠ some e) → Served s e mid) ∧
    (∀ e pre recv mid last, evs = pre ++ recv :: mid ++ [last] → recv.Recvs e →
      (∀ x ∈ mid, x.next ≠ some e) → last.next = some e →
      ∃ before sent after value sender, mid = before ++ sent :: after ∧
        sent.Delivers e value sender ∧
        (∀ x ∈ before ++ after ++ [last], x.SendsTo e → x.ret = .error .ipcNotRecv) ∧
        s.Holds e value sender) ∧
    (∀ e pre sent mid value sender, evs = pre ++ sent :: mid → sent.Delivers e value sender →
      (∀ x ∈ mid, ¬ x.Recvs e) → s.Holds e value sender) := by
  have inv₀ : IpcInv s₀ := ⟨queue, current, fun e waiting => absurd (idle e) waiting⟩
  have inv := ipcRun_inv inv₀ run
  refine ⟨fun e waiting => ?_, fun e ev s' step sends => ?_,
    fun e pre recv mid split recvs asleep => ?_,
      fun e pre recv mid last split recvs asleep scheduled => ?_,
    fun e pre sent mid value sender split delivers unasked => ?_⟩
  · have blocked := (inv.waiting e (by rw [waiting]; decide)).2
    obtain ⟨l, repr, iff⟩ := inv.queue
    refine ⟨blocked, l, repr, fun mem => ?_⟩
    have runnable := (iff e).mp mem
    rw [blocked] at runnable
    cases runnable
  · rcases ipcStep_send step sends with ⟨-, value, cur, -, delivers, -⟩ | ⟨-, refused, same⟩
    · exact .inl ⟨value, cur, delivers⟩
    · exact .inr ⟨refused, same⟩
  · exact (inv₀.window (split ▸ run) recvs asleep).2.2
  · exact inv₀.one_message (split ▸ run) recvs asleep scheduled
  · exact inv₀.not_lost (split ▸ run) delivers unasked

/-- The second env of `smallBoot` waits for a message and the first sends it 7. -/
def messageEvents : List IpcEvent := [⟨.tick, none, none, .ok 0, some 1⟩,
  ⟨.recv 0, some 1, none, .ok 0, some 0⟩, ⟨.trySend 4097 7 0, some 0, some 1, .ok 0, some 0⟩]

theorem messageEvents_run (pm : Pmap) : ∃ s, Run ipcStep (twoEnvs pm) messageEvents s := by
  obtain ⟨s₁, s₂, tick, current, -, recv, current', blocked, recving, sameId⟩ := twoEnvs_recv pm
  have step₁ : ipcStep (twoEnvs pm) ⟨.tick, none, none, .ok 0, some 1⟩ s₁ := by
    refine ⟨?_, rfl, rfl, current.symm⟩
    rw [schedStep, SchedOp.exec] at tick
    simp only [IpcOp.exec, tick]
    rfl
  have step₂ : ipcStep s₁ ⟨.recv 0, some 1, none, .ok 0, some 0⟩ s₂ := by
    refine ⟨?_, current.symm, rfl, current'.symm⟩
    rw [schedStep, SchedOp.exec] at recv
    cases received : sysIpcRecv s₁ 0 with
    | error panic =>
        rw [received] at recv
        cases recv
    | ok result =>
        obtain ⟨s', r⟩ := result
        rw [received] at recv
        cases recv
        rcases sysIpcRecv_ok received with ⟨zero, -⟩ | ⟨-, rfl, -⟩
        · exact absurd rfl zero
        · exact received
  have found : envid2env s₂ 4097 false = .ok (.ok 1) :=
    envid2env_eq (by decide) rfl (by rw [blocked]; simp)
      (sameId.trans (twoEnvs_envId pm).2)
  have step₃ : ipcStep s₂ ⟨.trySend 4097 7 0, some 0, some 1, .ok 0, some 0⟩
      (ipcDeliver s₂ 0 1 7 0) := by
    have cur : s₂.current = .ok 0 := by rw [Kernel.current, current']
    have waiting : (s₂.envs 1).envIpcRecving ≠ 0 := by
      rw [recving]
      decide
    refine ⟨?_, current'.symm, ?_, current'.symm⟩
    · simp only [IpcOp.exec, sysIpcTrySend, found, tryRet, cur, Bind.bind, Except.bind,
        if_neg waiting]
      rfl
    · simp only [IpcOp.target, found]
  exact ⟨_, ((Run.single step₁).snoc step₂).snoc step₃⟩

theorem ipc_exactly_once_message : ∃ pm s, Run ipcStep (twoEnvs pm) messageEvents s ∧
    s.Holds 1 7 0 := by
  obtain ⟨pm, s₁, boot, create₁, create₂, -⟩ := twoEnvs_boot
  obtain ⟨s, run⟩ := messageEvents_run pm
  have queue := ((SchedInv.of_envInit boot).envCreate create₁).envCreate create₂
  have idle : ∀ e, ((twoEnvs pm).envs e).envIpcRecving = 0 := by
    intro e
    rcases eq_or_ne e 1 with rfl | h₁
    · rfl
    · rcases eq_or_ne e 0 with rfl | h₀
      · rfl
      · simp [twoEnvs, Kernel.spawn, Kernel.newEnv, Kernel.setupEnv, Kernel.admitEnv,
          Kernel.setEnv, kernelInit, Env.zero, h₁, h₀]
  have once := ipc_exactly_once queue.queue (fun e he => by cases he) idle run
  exact ⟨pm, s, run, once.2.2.2.2 1 (messageEvents.take 2) _ [] 7 0 rfl
    ⟨rfl, rfl, rfl, 4097, 0, rfl⟩ (by simp)⟩

end Mos
