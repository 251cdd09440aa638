import Mos.Ipc
import Mos.EnvFree
import Mos.KernelRun
import Mos.SchedRun

/-!
# Messages reach only those who asked

Envs come and go: slots are allocated, freed and allocated again while messages
are sent. Nothing resets `env_ipc_recving` in between, so a slot whose last env
died waiting for a message passes the flag on. As long as no such slot is taken
again, a message is only delivered to an env that has asked for it.
-/

namespace Mos

inductive AskOp
  | trap (tf : Trapframe)
  | envCreate (binary : Icode) (priority : Word)
  | envAlloc (parentId : Word)
  | exofork
  | envDestroy (e : EnvIx)
  | sysEnvDestroy (envid : Word)
  | setEnvStatus (envid status : Word)
  | ipcRecv (dstva : Word)
  | ipcTrySend (envid value srcva perm : Word)
  | yield
  | tick

/-- The operation; one that returns nothing returns 0. -/
def AskOp.exec (s : Kernel) : AskOp → Except Panic (Kernel × Ret)
  | .trap tf => .ok ({ s with kstackTf := tf }, .ok 0)
  | .envCreate binary priority => (Mos.envCreate s binary priority).map fun (s, _) => (s, .ok 0)
  | .envAlloc parentId => (Mos.envAlloc s parentId).map fun (s, r) => (s, r.map fun _ => 0)
  | .exofork => sysExofork s
  | .envDestroy e => (Mos.envDestroy s e).map fun s => (s, .ok 0)
  | .sysEnvDestroy envid => Mos.sysEnvDestroy s envid
  | .setEnvStatus envid status => sysSetEnvStatus s envid status
  | .ipcRecv dstva => sysIpcRecv s dstva
  | .ipcTrySend envid value srcva perm => sysIpcTrySend s envid value srcva perm
  | .yield => (sysYield s).map fun s => (s, .ok 0)
  | .tick => (schedule s false).map fun s => (s, .ok 0)

/-- The kernel destroys envs in use only. -/
def AskOp.Enabled (s : Kernel) : AskOp → Prop
  | .envDestroy e => e ∉ s.envFreeList
  | _ => True

/-- An operation, what it returned, and the kernel before and after it. -/
structure AskEvent where
  pre : Kernel
  op : AskOp
  ret : Ret
  post : Kernel

def askStep (s : Kernel) (ev : AskEvent) (s' : Kernel) : Prop :=
  ev.pre = s ∧ ev.post = s' ∧ ev.op.Enabled s ∧ ev.op.exec s = .ok (s', ev.ret)

namespace AskEvent

/-- The env in slot `e` calls `sys_ipc_recv` and waits. -/
def Recvs (ev : AskEvent) (e : EnvIx) : Prop :=
  ∃ dstva, ev.op = .ipcRecv dstva ∧ ev.pre.curenv = some e ∧ ev.ret = .ok 0

/-- The slot `e` is given to a new env. -/
def Allocs (ev : AskEvent) (e : EnvIx) : Prop :=
  e ∈ ev.pre.envFreeList ∧ e ∉ ev.post.envFreeList

/-- A `sys_ipc_try_send` to the env in slot `e` returns 0. -/
def DeliversTo (ev : AskEvent) (e : EnvIx) : Prop :=
  ∃ envid value srcva perm, ev.op = .ipcTrySend envid value srcva perm ∧ ev.ret = .ok 0 ∧
    envid2env ev.pre envid false = .ok (.ok e)

/-- The slot `env_alloc` takes, if it takes one, was not left with a receiver
waiting in it. -/
def Clean (ev : AskEvent) : Prop :=
  ∀ e, ev.Allocs e → (ev.pre.envs e).envIpcRecving = 0

end AskEvent

/-- The env in slot `e`, whose id is `id`, has called `sys_ipc_recv`, and since then
nothing was delivered to it and the slot was not allocated. -/
def Asked (evs : List AskEvent) (e : EnvIx) (id : Word) : Prop :=
  ∃ before recv after, evs = before ++ recv :: after ∧ recv.Recvs e ∧
    (recv.pre.envs e).envId = id ∧ ∀ x ∈ after, ¬ x.Allocs e ∧ ¬ x.DeliversTo e

variable {s s' s'' : Kernel} {e cur : EnvIx} {ev : AskEvent} {evs : List AskEvent} {id : Word}
  {b : Boot}

/-- What is asked stays asked. -/
theorem Asked.snoc (asked : Asked evs e id) (unallocated : ¬ ev.Allocs e)
    (undelivered : ¬ ev.DeliversTo e) : Asked (evs ++ [ev]) e id := by
  obtain ⟨before, recv, after, rfl, recvs, same, since⟩ := asked
  refine ⟨before, recv, after ++ [ev], by simp, recvs, same, fun x hx => ?_⟩
  rcases List.mem_append.mp hx with hx | hx
  · exact since x hx
  · cases List.mem_singleton.mp hx
    exact ⟨unallocated, undelivered⟩

/-! ## The slots -/

structure SlotInv (s : Kernel) : Prop where
  free_nodup : s.envFreeList.Nodup
  free_status : ∀ e ∈ s.envFreeList, (s.envs e).envStatus = .free
  current : ∀ e, s.curenv = some e → e ∉ s.envFreeList

/-- The slots wait as they did, and those in use keep their ids. -/
structure SlotStep (s s' : Kernel) : Prop where
  inv : SlotInv s'
  recving : ∀ e, (s'.envs e).envIpcRecving = (s.envs e).envIpcRecving
  id : ∀ e, e ∉ s'.envFreeList → e ∉ s.envFreeList → (s'.envs e).envId = (s.envs e).envId

theorem SlotInv.refl (inv : SlotInv s) : SlotStep s s := ⟨inv, fun _ => rfl, fun _ _ _ => rfl⟩

theorem SlotInv.envid2env (inv : SlotInv s) {envid : Word} {checkperm : Bool}
    (h : Mos.envid2env s envid checkperm = .ok (.ok e)) : e ∉ s.envFreeList := by
  rcases envid2env_ok h with ⟨-, current⟩ | ⟨-, -, status, -⟩
  · exact inv.current e current
  · exact fun mem => status (inv.free_status e mem)

/-- Neither the memory nor the queue matters to the slots. -/
theorem SlotStep.congr (step : SlotStep s s') (free : s''.envFreeList = s'.envFreeList)
    (envs : s''.envs = s'.envs)
    (current : ∀ e, s''.curenv = some e → e ∉ s''.envFreeList) : SlotStep s s'' where
  inv :=
    { free_nodup := by rw [free]; exact step.inv.free_nodup
      free_status := by rw [free, envs]; exact step.inv.free_status
      current := current }
  recving e := by
    rw [envs]
    exact step.recving e
  id e he old := by
    rw [envs]
    exact step.id e (free ▸ he) old

theorem SlotStep.resumed (step : SlotStep s s') (resumed : Resumed s' s'') : SlotStep s s'' where
  inv := by
    refine ⟨by rw [resumed.free]; exact step.inv.free_nodup, fun e he => ?_, fun e he mem => ?_⟩
    · rw [resumed.status]
      exact step.inv.free_status e (resumed.free ▸ he)
    · obtain ⟨e', current, runnable, -⟩ := resumed.current
      rw [current] at he
      cases he
      have free := step.inv.free_status e (resumed.free ▸ mem)
      rw [runnable] at free
      cases free
  recving e := by
    rw [resumed.field Env.envIpcRecving fun _ _ _ => rfl]
    exact step.recving e
  id e he old := by
    rw [resumed.field Env.envId fun _ _ _ => rfl]
    exact step.id e (resumed.free ▸ he) old

/-- An env in use is changed, but for what IPC looks at. -/
theorem SlotStep.setEnv {f : Env → Env} (step : SlotStep s s') (inUse : e ∉ s'.envFreeList)
    (recving : (f (s'.envs e)).envIpcRecving = (s'.envs e).envIpcRecving)
    (sameId : (f (s'.envs e)).envId = (s'.envs e).envId) : SlotStep s (s'.setEnv e f) where
  inv := by
    refine ⟨step.inv.free_nodup, fun x hx => ?_, step.inv.current⟩
    have hne : x ≠ e := fun eq => inUse (eq ▸ hx)
    simpa [Kernel.setEnv, hne] using step.inv.free_status x hx
  recving x := by
    rw [Kernel.setEnv_field Env.envIpcRecving recving]
    exact step.recving x
  id x hx old := by
    rw [Kernel.setEnv_field Env.envId sameId]
    exact step.id x hx old

/-- `env_alloc` takes the first free slot, if any. -/
theorem SlotInv.envAlloc {parentId : Word} {r : Except Err EnvIx} (inv : SlotInv s)
    (h : Mos.envAlloc s parentId = .ok (s', r)) :
    SlotStep s s' ∧ ∀ e, r = .ok e → e ∉ s'.envFreeList := by
  rcases envAlloc_ok h with ⟨pm, err, rfl, rfl⟩ | ⟨e, rest, p, pm, err, hfree, rfl, rfl⟩ |
    ⟨e, rest, p, pm, i, hfree, -, rfl, rfl⟩
  · exact ⟨inv.refl.congr rfl rfl inv.current, fun _ h => by cases h⟩
  · have isFree : e ∈ s.envFreeList := by rw [hfree]; exact List.mem_cons_self
    refine ⟨⟨⟨inv.free_nodup, fun x hx => ?_, inv.current⟩, fun x => ?_, fun x hx old => ?_⟩,
      fun _ h => by cases h⟩
    · rcases eq_or_ne x e with rfl | hne
      · simpa [Kernel.setupEnv] using inv.free_status x hx
      · simpa [Kernel.setupEnv, hne] using inv.free_status x hx
    · rcases eq_or_ne x e with rfl | hne
      · simp [Kernel.setupEnv]
      · simp [Kernel.setupEnv, hne]
    · have hne : x ≠ e := fun eq => hx (eq ▸ isFree)
      simp [Kernel.setupEnv, hne]
  · have isFree : e ∈ s.envFreeList := by rw [hfree]; exact List.mem_cons_self
    have nodup := inv.free_nodup
    rw [hfree, List.nodup_cons] at nodup
    have sub : ∀ x ∈ rest, x ∈ s.envFreeList := fun x hx => by
      rw [hfree]
      exact List.mem_cons_of_mem _ hx
    refine ⟨⟨⟨nodup.2, fun x hx => ?_, fun x hx mem => inv.current x hx (sub x mem)⟩,
      fun x => ?_, fun x hx old => ?_⟩, fun x h => ?_⟩
    · have hne : x ≠ e := fun eq => nodup.1 (eq ▸ hx)
      simpa [Kernel.admitEnv, Kernel.setupEnv, hne] using inv.free_status x (sub x hx)
    · rcases eq_or_ne x e with rfl | hne
      · simp [Kernel.admitEnv, Kernel.setupEnv]
      · simp [Kernel.admitEnv, Kernel.setupEnv, hne]
    · have hne : x ≠ e := fun eq => old (eq ▸ isFree)
      simp [Kernel.admitEnv, Kernel.setupEnv, hne]
    · cases h
      exact nodup.1

theorem SlotInv.envCreate {binary : Icode} {priority : Word} (inv : SlotInv s)
    (h : Mos.envCreate s binary priority = .ok (s', e)) : SlotStep s s' := by
  obtain ⟨s₁, s₂, alloc, pages, rfl⟩ := envCreate_ok h
  obtain ⟨step, fresh⟩ := inv.envAlloc alloc
  obtain ⟨pm, rfl⟩ := loadPages_ok pages
  have started := step.setEnv (f := fun env =>
    { env with envPri := priority, envStatus := .runnable }) (fresh e rfl) rfl rfl
  have filled : SlotStep s ((s₁.setEnv e fun env =>
      { env with envPri := priority, envStatus := .runnable }).withPm pm) :=
    started.congr rfl rfl started.inv.current
  have loaded := filled.setEnv
    (f := fun env => { env with envTf := { env.envTf with cp0Epc := binary.entry } })
    (fresh e rfl) rfl rfl
  exact loaded.congr rfl rfl loaded.inv.current

theorem SlotInv.sysExofork {r : Ret} (inv : SlotInv s) (h : Mos.sysExofork s = .ok (s', r)) :
    SlotStep s s' := by
  obtain ⟨cur, ⟨err, alloc⟩ | ⟨s₁, e, alloc, rfl⟩⟩ := sysExofork_ok h
  · exact (inv.envAlloc alloc).1
  · obtain ⟨step, fresh⟩ := inv.envAlloc alloc
    exact step.setEnv (fresh e rfl) rfl rfl

theorem SlotInv.envDestroy (inv : SlotInv s) (inUse : e ∉ s.envFreeList)
    (h : Mos.envDestroy s e = .ok s') : SlotStep s s' := by
  unfold Mos.envDestroy at h
  obtain ⟨s₁, freed, h⟩ := bind_eq_ok.mp h
  obtain ⟨pm, q, -, rfl, -⟩ := envFree_ok freed
  have other : ∀ x, x ≠ e → (s.reclaim e pm).envs x = s.envs x := fun x hne =>
    Function.update_of_ne hne _ _
  have recving := Kernel.setEnv_field (s := asidFree s (s.envs e).envAsid) (e := e)
    (f := fun env => { env with envStatus := .free }) Env.envIpcRecving rfl
  have ne : ∀ x, x ∉ (s.reclaim e pm).envFreeList → x ≠ e := fun x hx eq =>
    hx (by rw [eq]; exact List.mem_cons_self)
  have status : ∀ x ∈ (s.reclaim e pm).envFreeList,
    ((s.reclaim e pm).envs x).envStatus = .free := by
    intro x hx
    rcases eq_or_ne x e with rfl | hne
    · simp [Kernel.reclaim, Kernel.setEnv]
    · rw [other x hne]
      exact inv.free_status x ((List.mem_cons.mp hx).resolve_left hne)
  have step : ∀ c, (∀ x, c = some x → x ∉ (s.reclaim e pm).envFreeList) →
      SlotStep s { s.reclaim e pm with envSchedList := q, curenv := c } := by
    refine fun c current => ⟨⟨List.nodup_cons.mpr ⟨inUse, inv.free_nodup⟩, status, current⟩,
      recving,
      fun x hx _ => congrArg Env.envId (other x (ne x hx))⟩
  by_cases self : s.curenv = some e
  · rw [if_pos (show (s.reclaim e pm).curenv = some e from self)] at h
    exact (step none (by simp)).resumed (schedule_ok h).1
  · rw [if_neg (show ¬ (s.reclaim e pm).curenv = some e from self)] at h
    cases h
    refine step s.curenv fun x hx mem => ?_
    have hne : x ≠ e := fun eq => self (eq ▸ hx)
    exact inv.current x hx ((List.mem_cons.mp mem).resolve_left hne)

theorem SlotInv.sysSetEnvStatus {envid status : Word} {r : Ret} (inv : SlotInv s)
    (h : Mos.sysSetEnvStatus s envid status = .ok (s', r)) : SlotStep s s' := by
  rcases sysSetEnvStatus_ok h with rfl | ⟨new, e, q, -, lookup, rfl⟩
  · exact inv.refl
  · have queued : SlotStep s { s with envSchedList := q } := inv.refl.congr rfl rfl inv.current
    exact queued.setEnv (inv.envid2env lookup) rfl rfl

/-! ## Waiting and being woken -/

/-- A receiver blocks, and nobody else waits afterwards who did not before. -/
theorem SlotInv.sysIpcRecv {dstva : Word} {r : Ret} (inv : SlotInv s)
    (h : Mos.sysIpcRecv s dstva = .ok (s', r)) :
    s' = s ∧ r = .error .inval ∨ r = .ok 0 ∧ SlotInv s' ∧ s'.envFreeList = s.envFreeList ∧
      ∃ cur, s.curenv = some cur ∧ (∀ e, (s'.envs e).envId = (s.envs e).envId) ∧
        ∀ e, e ≠ cur → (s'.envs e).envIpcRecving = (s.envs e).envIpcRecving := by
  rcases sysIpcRecv_ok h with ⟨-, -, rfl, failed⟩ | ⟨-, ret, cur, q, hcur, -, scheduled⟩
  · exact .inl ⟨rfl, failed⟩
  · have inUse := inv.current cur hcur
    have waiting : SlotInv (s.await cur dstva q) := by
      refine ⟨inv.free_nodup, fun x hx => ?_, inv.current⟩
      have hne : x ≠ cur := fun eq => inUse (eq ▸ hx)
      rw [Kernel.await_env, if_neg hne]
      exact inv.free_status x hx
    have resumed := (schedule_ok scheduled).1
    refine .inr ⟨ret, (waiting.refl.resumed resumed).inv, resumed.free, cur, hcur, fun x => ?_,
      fun x hne => ?_⟩
    · rw [resumed.field Env.envId fun _ _ _ => rfl, Kernel.await_env]
      split <;> rfl
    · rw [resumed.field Env.envIpcRecving fun _ _ _ => rfl, Kernel.await_env, if_neg hne]

/-- A message is refused, or it is delivered to an env that waits for it and then
waits no longer. -/
theorem SlotInv.sysIpcTrySend {envid value srcva perm : Word} {r : Ret} (inv : SlotInv s)
    (h : Mos.sysIpcTrySend s envid value srcva perm = .ok (s', r)) :
    s' = s ∧ r ≠ .ok 0 ∨ SlotInv s' ∧ s'.envFreeList = s.envFreeList ∧
      ∃ e, Mos.envid2env s envid false = .ok (.ok e) ∧ (s.envs e).envIpcRecving ≠ 0 ∧
        (s'.envs e).envIpcRecving = 0 ∧ (∀ x, (s'.envs x).envId = (s.envs x).envId) ∧
        ∀ x, x ≠ e → (s'.envs x).envIpcRecving = (s.envs x).envIpcRecving := by
  rcases sysIpcTrySend_ok h with ⟨err, -, rfl, rfl⟩ |
    ⟨e, cur, pm, -, lookup, waiting, -, -, rfl, -⟩
  · exact .inl ⟨rfl, by simp⟩
  · have inUse := inv.envid2env lookup
    have env : ∀ x, ((ipcDeliver s cur e value perm).withPm pm).envs x =
        (ipcDeliver s cur e value perm).envs x := fun _ => rfl
    refine .inr ⟨⟨inv.free_nodup, fun x hx => ?_, inv.current⟩, rfl, e, lookup, waiting, ?_,
      fun x => ?_, fun x hne => ?_⟩
    · have hne : x ≠ e := fun eq => inUse (eq ▸ hx)
      rw [env, ipcDeliver_env, if_neg hne]
      exact inv.free_status x hx
    · rw [env, ipcDeliver_env, if_pos rfl]
    · rw [env, ipcDeliver_env]
      split <;> rfl
    · rw [env, ipcDeliver_env, if_neg hne]

/-! ## Runs -/

/-- Every env that waits for a message has asked for it. -/
structure AskInv (evs : List AskEvent) (s : Kernel) : Prop where
  slots : SlotInv s
  asked : ∀ e, e ∉ s.envFreeList → (s.envs e).envIpcRecving ≠ 0 → Asked evs e (s.envs e).envId

/-- An operation that is no IPC. -/
theorem AskInv.quiet (inv : AskInv evs s) (step : SlotStep s s') (pre : ev.pre = s)
    (post : ev.post = s') (clean : ev.Clean) (other : ∀ e, ¬ ev.DeliversTo e) :
    AskInv (evs ++ [ev]) s' := by
  refine ⟨step.inv, fun e inUse waits => ?_⟩
  have waited : (s.envs e).envIpcRecving ≠ 0 := by rwa [← step.recving e]
  by_cases isFree : e ∈ s.envFreeList
  · exact absurd (pre ▸ clean e ⟨pre ▸ isFree, post ▸ inUse⟩) waited
  · rw [step.id e inUse isFree]
    exact (inv.asked e isFree waited).snoc (fun allocs => isFree (pre ▸ allocs.1)) (other e)

/-- An operation that is no IPC leaves the fields of the other envs. -/
theorem SlotInv.exec {op : AskOp} {r : Ret} (inv : SlotInv s) (enabled : op.Enabled s)
    (run : op.exec s = .ok (s', r)) (noRecv : ∀ dstva, op ≠ .ipcRecv dstva)
    (noSend : ∀ envid value srcva perm, op ≠ .ipcTrySend envid value srcva perm) :
    SlotStep s s' := by
  cases op with
  | trap tf =>
      cases run
      exact inv.refl.congr rfl rfl inv.current
  | envCreate binary priority =>
      obtain ⟨⟨s₁, r₁⟩, created, eq⟩ := map_eq_ok.mp run
      cases eq
      exact inv.envCreate created
  | envAlloc parentId =>
      obtain ⟨⟨s₁, r₁⟩, allocated, eq⟩ := map_eq_ok.mp run
      cases eq
      exact (inv.envAlloc allocated).1
  | exofork => exact inv.sysExofork run
  | envDestroy e =>
      obtain ⟨s₁, destroyed, eq⟩ := map_eq_ok.mp run
      cases eq
      exact inv.envDestroy enabled destroyed
  | sysEnvDestroy envid =>
      rcases sysEnvDestroy_ok run with rfl | ⟨e, lookup, destroyed⟩
      · exact inv.refl
      · exact inv.envDestroy (inv.envid2env lookup) destroyed
  | setEnvStatus envid status => exact inv.sysSetEnvStatus run
  | ipcRecv dstva => exact absurd rfl (noRecv dstva)
  | ipcTrySend envid value srcva perm => exact absurd rfl (noSend envid value srcva perm)
  | yield =>
      obtain ⟨s₁, yielded, eq⟩ := map_eq_ok.mp run
      cases eq
      exact inv.refl.resumed (schedule_ok yielded).1
  | tick =>
      obtain ⟨s₁, ticked, eq⟩ := map_eq_ok.mp run
      cases eq
      exact inv.refl.resumed (schedule_ok ticked).1

theorem AskInv.recv {dstva : Word} (inv : AskInv evs s) (step : askStep s ev s')
    (clean : ev.Clean) (hop : ev.op = .ipcRecv dstva) : AskInv (evs ++ [ev]) s' := by
  obtain ⟨pre, post, -, run⟩ := step
  have other : ∀ e, ¬ ev.DeliversTo e := by
    rintro e ⟨envid, value, srcva, perm, op, -⟩
    rw [hop] at op
    cases op
  rw [hop] at run
  rcases inv.slots.sysIpcRecv run with
    ⟨rfl, -⟩ | ⟨ret, slots, free, cur, hcur, sameId, others⟩
  · exact inv.quiet inv.slots.refl pre post clean other
  · refine ⟨slots, fun e inUse waits => ?_⟩
    rw [sameId]
    rcases eq_or_ne e cur with rfl | hne
    · exact ⟨evs, ev, [], rfl, ⟨dstva, hop, pre ▸ hcur, ret⟩, by rw [pre], by simp⟩
    · rw [others e hne] at waits
      rw [free] at inUse
      exact (inv.asked e inUse waits).snoc (fun allocs => inUse (pre ▸ allocs.1)) (other e)

theorem AskInv.send {envid value srcva perm : Word} (inv : AskInv evs s) (step : askStep s ev s')
    (clean : ev.Clean) (hop : ev.op = .ipcTrySend envid value srcva perm) :
    AskInv (evs ++ [ev]) s' := by
  obtain ⟨pre, post, -, run⟩ := step
  rw [hop] at run
  rcases inv.slots.sysIpcTrySend run with
    ⟨rfl, failed⟩ | ⟨slots, free, e, lookup, -, cleared, sameId, others⟩
  · refine inv.quiet inv.slots.refl pre post clean fun e delivers => ?_
    obtain ⟨-, -, -, -, -, ret, -⟩ := delivers
    exact failed ret
  · refine ⟨slots, fun x inUse waits => ?_⟩
    have hne : x ≠ e := by
      rintro rfl
      exact waits cleared
    rw [others x hne] at waits
    rw [free] at inUse
    rw [sameId]
    refine (inv.asked x inUse waits).snoc (fun allocs => inUse (pre ▸ allocs.1)) ?_
    rintro ⟨envid', value', srcva', perm', op, -, lookup'⟩
    rw [hop] at op
    cases op
    rw [pre, lookup] at lookup'
    cases lookup'
    exact hne rfl

theorem AskInv.step (inv : AskInv evs s) (clean : ev.Clean) (step : askStep s ev s') :
    AskInv (evs ++ [ev]) s' := by
  by_cases recv : ∃ dstva, ev.op = .ipcRecv dstva
  · obtain ⟨dstva, hop⟩ := recv
    exact inv.recv step clean hop
  by_cases send : ∃ envid value srcva perm, ev.op = .ipcTrySend envid value srcva perm
  · obtain ⟨envid, value, srcva, perm, hop⟩ := send
    exact inv.send step clean hop
  obtain ⟨pre, post, enabled, run⟩ := step
  refine inv.quiet (inv.slots.exec enabled run ?_ ?_) pre post clean ?_
  · exact fun dstva hop => recv ⟨dstva, hop⟩
  · exact fun envid value srcva perm hop => send ⟨envid, value, srcva, perm, hop⟩
  · rintro e ⟨envid, value, srcva, perm, hop, -⟩
    exact send ⟨envid, value, srcva, perm, hop⟩

theorem AskInv.of_envInit (h : envInit b = .ok s) : AskInv [] s := by
  obtain ⟨pm, p, rfl⟩ := envInit_ok h
  exact ⟨⟨nodup_slots, fun _ _ => rfl, fun _ hcur => by cases hcur⟩,
    fun e inUse => absurd (mem_slots e) inUse⟩

theorem askRun_inv (boot : envInit b = .ok s) (run : Run askStep s evs s')
    (clean : ∀ x ∈ evs, x.Clean) : AskInv evs s' := by
  refine run.history (fun evs s => (∀ x ∈ evs, x.Clean) → AskInv evs s)
    (fun _ => .of_envInit boot) (fun evs s₁ ev s₂ ih step clean => ?_) clean
  exact (ih fun x hx => clean x (List.mem_append_left _ hx)).step (clean ev (by simp)) step

/-- As long as no slot is allocated in which a receiver was left waiting, a message
is only delivered to an env that has asked for it. -/
theorem ipc_only_asked {envid value srcva perm : Word} (boot : envInit b = .ok s)
    (run : Run askStep s (evs ++ [ev]) s') (clean : ∀ x ∈ evs ++ [ev], x.Clean)
    (sent : ev.op = .ipcTrySend envid value srcva perm) (ret : ev.ret = .ok 0) :
    ∃ e, envid2env ev.pre envid false = .ok (.ok e) ∧
      (envid ≠ 0 → (ev.pre.envs e).envId = envid) ∧ Asked evs e (ev.pre.envs e).envId := by
  obtain ⟨s₁, run, pre, post, -, exec⟩ := run.snoc_inv
  have inv := askRun_inv boot run fun x hx => clean x (List.mem_append_left _ hx)
  rw [sent] at exec
  rcases inv.slots.sysIpcTrySend exec with ⟨-, failed⟩ | ⟨-, -, e, lookup, waiting, -⟩
  · exact absurd ret failed
  · have inUse := inv.slots.envid2env lookup
    rw [pre]
    refine ⟨e, lookup, fun named => ?_, inv.asked e inUse waiting⟩
    rcases envid2env_ok lookup with ⟨zero, -⟩ | ⟨-, -, -, same, -⟩
    · exact absurd zero named
    · exact same

/-- An operation done in `s`. -/
theorem AskOp.exec_step {op : AskOp} {r : Ret} (enabled : op.Enabled s)
    (h : op.exec s = .ok (s', r)) : askStep s ⟨s, op, r, s'⟩ s' :=
  ⟨rfl, rfl, enabled, h⟩

set_option maxRecDepth 2000 in
/-- The second env of `smallBoot` waits for a message. -/
theorem twoEnvs_waiting (pm : Pmap) : ∃ s₁ s₂ q, schedule (twoEnvs pm) false = .ok s₁ ∧
    s₁.curenv = some 1 ∧ sysIpcRecv s₁ 0 = .ok (s₂, .ok 0) ∧ s₂.curenv = some 0 ∧
    s₂.envSchedList.remove 1 = some q ∧ s₂.asidBitmap = (twoEnvs pm).asidBitmap :=
  ⟨_, _, _, rfl, rfl, rfl, rfl, rfl, rfl⟩

/-- `smallBoot` gets to a state in which the second env waits for a message. -/
theorem askRun_waiting : ∃ s s' q evs, envInit smallBoot = .ok s ∧ Run askStep s evs s' ∧
    (∀ x ∈ evs, x.Clean) ∧ KernelInv s' ∧ Bounded s' ∧ s'.curenv = some 0 ∧
    s'.envSchedList.remove 1 = some q ∧ (s'.envs 1).envIpcRecving = 1 ∧
    (s'.envs 1).envStatus = .notRunnable ∧ (s'.envs 1).envId = 4097 ∧ (1 : EnvIx) ∉ s'.envFreeList ∧
    (313 : Nat) ∈ s'.pm.pageFreeList ∧
    ∃ i, freeAsid (asidFree s' (s'.envs 1).envAsid).asidBitmap = some i := by
  obtain ⟨pm, s₁, boot, create₁, create₂, bounded₁, inv, bounded⟩ := twoEnvs_boot
  obtain ⟨s₂, s₃, q, tick, current₂, recv, current₃, remove, asids⟩ := twoEnvs_waiting pm
  have slots := (AskInv.of_envInit boot).slots
  have step₁ := slots.envCreate create₁
  have step₂ := step₁.inv.envCreate create₂
  have recving₁ : ∀ e, (s₁.envs e).envIpcRecving = 0 := fun e => step₁.recving e
  have resumed₁ := (schedule_ok tick).1
  rcases sysIpcRecv_ok recv with ⟨zero, -⟩ | ⟨-, -, cur, q₁, hcur, -, scheduled⟩
  · exact absurd rfl zero
  rw [current₂] at hcur
  cases hcur
  have resumed₂ := (schedule_ok scheduled).1
  have free : s₃.envFreeList = (twoEnvs pm).envFreeList := resumed₂.free.trans resumed₁.free
  have env : (s₃.envs 1).envIpcRecving = 1 ∧ (s₃.envs 1).envStatus = .notRunnable ∧
      (s₃.envs 1).envId = 4097 ∧ (s₃.envs 1).envAsid = 1 := by
    refine ⟨?_, ?_, ?_, ?_⟩
    · rw [resumed₂.field Env.envIpcRecving fun _ _ _ => rfl, Kernel.await_env, if_pos rfl]
    · rw [resumed₂.status, Kernel.await_env, if_pos rfl]
    · rw [resumed₂.field Env.envId fun _ _ _ => rfl, Kernel.await_env, if_pos rfl]
      exact (resumed₁.field Env.envId (fun _ _ _ => rfl) 1).trans (twoEnvs_envId pm).2
    · rw [resumed₂.field Env.envAsid fun _ _ _ => rfl, Kernel.await_env, if_pos rfl]
      exact (resumed₁.field Env.envAsid (fun _ _ _ => rfl) 1).trans (by
        simp [twoEnvs, Kernel.spawn, Kernel.newEnv, Kernel.setupEnv, Kernel.admitEnv,
          Kernel.setEnv])
  obtain ⟨recving, status, envId, asid⟩ := env
  obtain ⟨live, bounded₀⟩ := LiveInv.of_envInit boot
  have live₁ := live.envCreate bounded₀ (by simp) create₁
  have live₂ := live₁.envCreate bounded₁ (by simp) create₂
  have live₃ := (live₂.schedule tick).sysIpcRecv recv
  have bounded₃ : Bounded s₃ := by
    have bounded₂ := bounded.resumed resumed₁
    refine Bounded.resumed (s := s₂.await 1 0 q₁) (fun p => ?_) resumed₂
    have dirs : (s₂.await 1 0 q₁).dirs = s₂.dirs := by
      refine Kernel.dirs_congr rfl fun x => ?_
      rw [Kernel.await_env]
      split <;> rfl
    rw [dirs]
    exact bounded₂ p
  have event₁ : askStep (kernelInit pm 335) ⟨_, .envCreate ⟨[], 0⟩ 1, .ok 0, s₁⟩ s₁ :=
    AskOp.exec_step trivial (by rw [AskOp.exec, create₁]; rfl)
  have event₂ : askStep s₁ ⟨_, .envCreate ⟨[], 0⟩ 1, .ok 0, twoEnvs pm⟩ (twoEnvs pm) :=
    AskOp.exec_step trivial (by rw [AskOp.exec, create₂]; rfl)
  have event₃ : askStep (twoEnvs pm) ⟨_, .tick, .ok 0, s₂⟩ s₂ :=
    AskOp.exec_step trivial (by rw [AskOp.exec, tick]; rfl)
  have event₄ : askStep s₂ ⟨_, .ipcRecv 0, .ok 0, s₃⟩ s₃ := AskOp.exec_step trivial recv
  refine ⟨_, s₃, q, _, boot, (((Run.single event₁).snoc event₂).snoc event₃).snoc event₄, ?_,
    live₃.inv, bounded₃, current₃, remove, recving, status, envId, ?_, ?_, ?_⟩
  · intro x hx e allocs
    rcases List.mem_append.mp hx with hx | hx
    · rcases List.mem_append.mp hx with hx | hx
      · rcases List.mem_append.mp hx with hx | hx
        · cases List.mem_singleton.mp hx
          rfl
        · cases List.mem_singleton.mp hx
          exact recving₁ e
      · cases List.mem_singleton.mp hx
        exact absurd (resumed₁.free ▸ allocs.1) allocs.2
    · cases List.mem_singleton.mp hx
      exact absurd (resumed₂.free ▸ allocs.1) allocs.2
  · rw [free]
    intro mem
    have nodup := nodup_slots
    rw [slots_eq, List.nodup_cons, List.nodup_cons] at nodup
    exact nodup.2.1 mem
  · have pages : s₃.pm.pageFreeList = sparePages :=
      congrArg Pmap.pageFreeList (resumed₂.pm.trans resumed₁.pm)
    rw [pages]
    decide
  · have bitmap : (twoEnvs pm).asidBitmap = Function.update
        (Function.update (fun _ => 0) 0 (0 ||| asidBit 0)) 0 (0 ||| asidBit 0 ||| asidBit 1) := rfl
    have freed : freeAsid (Function.update s₃.asidBitmap ((1 : Word).toNat / 32)
        (s₃.asidBitmap ((1 : Word).toNat / 32) &&& ~~~asidBit (1 : Word).toNat)) = some 1 := by
      rw [asids, bitmap]
      decide
    exact ⟨1, by rw [asid]; exact freed⟩

/-- Destroy an env that waits for a message, and its slot passes the flag on to the
next env: a message is delivered to it although it has never run. -/
theorem stale_flag {q : Tailq EnvIx} {p i : Nat} (inv : KernelInv s) (bounded : Bounded s)
    (hcur : s.curenv = some cur) (hne : cur ≠ e) (inUse : e ∉ s.envFreeList)
    (linked : s.envSchedList.remove e = some q) (page : p ∈ s.pm.pageFreeList)
    (asid : freeAsid (asidFree s (s.envs e).envAsid).asidBitmap = some i)
    (waits : (s.envs e).envIpcRecving ≠ 0) (later : e ≠ 0) :
    ∃ s₁ s₂ s₃ id, askStep s ⟨s, .envDestroy e, .ok 0, s₁⟩ s₁ ∧
      askStep s₁ ⟨s₁, .exofork, .ok id, s₂⟩ s₂ ∧
      askStep s₂ ⟨s₂, .ipcTrySend id 0 0 0, .ok 0, s₃⟩ s₃ ∧
      e ∈ s₁.envFreeList ∧ e ∉ s₂.envFreeList ∧ envid2env s₂ id false = .ok (.ok e) := by
  obtain ⟨pm, freed, -, inv₁⟩ := inv.envFreeVm bounded inUse
  let s₁ : Kernel := { s.reclaim e pm with envSchedList := q }
  have free : Mos.envFree s e = .ok s₁ := by
    have unlinked : (s.reclaim e pm).envSchedList.remove e = some q := linked
    simp only [Mos.envFree, freed, Bind.bind, Except.bind, Kernel.schedRemove, unlinked]
    rfl
  have destroyed : Mos.envDestroy s e = .ok s₁ := by
    have other : s₁.curenv ≠ some e := by
      intro same
      exact hne (Option.some.inj (hcur.symm.trans same))
    simp only [Mos.envDestroy, free, Bind.bind, Except.bind, if_neg other]
  obtain ⟨pm', q', linked', same, grows⟩ := envFree_ok free
  have samePm : pm' = pm := (congrArg Kernel.pm same).symm
  obtain ⟨p₁, pages, hpages⟩ := List.exists_cons_of_ne_nil
    (List.ne_nil_of_mem (samePm ▸ grows p page))
  have inv₂ : KernelInv s₁ :=
    ⟨inv₁.pm, inv₁.template, inv₁.free_nodup, inv₁.free_status, inv₁.dstva_lt⟩
  have alloc := @KernelInv.envAlloc_eq s₁ e p₁ pages s.envFreeList inv₂ i (s₁.envs cur).envId rfl
    hpages asid
  let s₂ : Kernel := ((s₁.newEnv e p₁ pages).admitEnv e s.envFreeList i (s₁.envs cur).envId).setEnv
    e fun env =>
      { env with
        envTf := { s₁.kstackTf with regs := Function.update s₁.kstackTf.regs 2 0 }
        envStatus := .notRunnable
        envPri := (((s₁.newEnv e p₁ pages).admitEnv e s.envFreeList i
          (s₁.envs cur).envId).envs cur).envPri }
  have current₁ : s₁.current = .ok cur := by
    rw [Kernel.current, show s₁.curenv = some cur from hcur]
  have forked : sysExofork s₁ = .ok (s₂, .ok (s₂.envs e).envId) := by
    simp only [sysExofork, current₁, Bind.bind, Except.bind, alloc, tryRet]
    rfl
  have env₂ : (s₂.envs e).envIpcRecving = (s.envs e).envIpcRecving ∧
      (s₂.envs e).envStatus = .notRunnable ∧
      (s₂.envs e).envId = ((s₁.mkenvidCount + 1) <<< 11) ||| BitVec.ofNat 32 e := by
    simp [s₂, s₁, Kernel.admitEnv, Kernel.newEnv, Kernel.setupEnv, Kernel.setEnv, Kernel.reclaim,
      asidFree]
  obtain ⟨recving, status, made⟩ := env₂
  have slot : envx (s₂.envs e).envId = e := by
    rw [made]
    exact envx_mkenvid _ e
  have named : (s₂.envs e).envId ≠ 0 := by
    intro zero
    rw [zero] at slot
    exact later slot.symm
  have found : envid2env s₂ (s₂.envs e).envId false = .ok (.ok e) :=
    envid2env_eq named slot (by rw [status]; simp) rfl
  have sent : sysIpcTrySend s₂ (s₂.envs e).envId 0 0 0 = .ok (ipcDeliver s₂ cur e 0 0, .ok 0) := by
    have current₂ : s₂.current = .ok cur := by
      rw [Kernel.current, show s₂.curenv = some cur from hcur]
    have waiting : (s₂.envs e).envIpcRecving ≠ 0 := by
      rw [recving]
      exact waits
    simp only [sysIpcTrySend, found, tryRet, current₂, Bind.bind, Except.bind, if_neg waiting]
    rfl
  exact ⟨s₁, s₂, _, _, AskOp.exec_step inUse (by rw [AskOp.exec, destroyed]; rfl),
    AskOp.exec_step trivial forked, AskOp.exec_step trivial sent, List.mem_cons_self, inUse, found⟩

theorem ipc_only_asked_recv : ∃ s s' evs ev, envInit smallBoot = .ok s ∧
    Run askStep s (evs ++ [ev]) s' ∧ ∃ e, Asked evs e (ev.pre.envs e).envId := by
  obtain ⟨s, s', q, evs, boot, run, clean, -, -, hcur, -, recving, status, id, -⟩ := askRun_waiting
  have found : envid2env s' 4097 false = .ok (.ok 1) :=
    envid2env_eq (by decide) rfl (by rw [status]; simp) id
  have sent : sysIpcTrySend s' 4097 0 0 0 = .ok (ipcDeliver s' 0 1 0 0, .ok 0) := by
    have current : s'.current = .ok 0 := by rw [Kernel.current, hcur]
    have waiting : (s'.envs 1).envIpcRecving ≠ 0 := by
      rw [recving]
      decide
    simp only [sysIpcTrySend, found, tryRet, current, Bind.bind, Except.bind, if_neg waiting]
    rfl
  let ev : AskEvent := ⟨s', .ipcTrySend 4097 0 0 0, .ok 0, ipcDeliver s' 0 1 0 0⟩
  have step : askStep s' ev (ipcDeliver s' 0 1 0 0) := AskOp.exec_step trivial sent
  have clean' : ∀ x ∈ evs ++ [ev], x.Clean := by
    intro x hx
    rcases List.mem_append.mp hx with hx | hx
    · exact clean x hx
    · cases List.mem_singleton.mp hx
      exact fun e allocs => absurd allocs.1 allocs.2
  obtain ⟨e, -, -, asked⟩ := ipc_only_asked boot (run.snoc step) clean' rfl rfl
  exact ⟨s, _, evs, ev, boot, run.snoc step, e, asked⟩

/-- Without the condition a message can be delivered to an env that has never asked. -/
theorem ipc_not_only_asked : ¬ ∀ (b : Boot) (s s' : Kernel) (evs : List AskEvent) (ev : AskEvent)
    (envid value srcva perm : Word), envInit b = .ok s → Run askStep s (evs ++ [ev]) s' →
      ev.op = .ipcTrySend envid value srcva perm → ev.ret = .ok 0 →
      ∃ e, envid2env ev.pre envid false = .ok (.ok e) ∧
        (envid ≠ 0 → (ev.pre.envs e).envId = envid) ∧ Asked evs e (ev.pre.envs e).envId := by
  intro always
  obtain ⟨s, s', q, evs, boot, run, -, inv, bounded, hcur, linked, recving, -, -, inUse, page, i,
    asid⟩ := askRun_waiting
  obtain ⟨s₁, s₂, s₃, id, destroyed, forked, sent, isFree, taken, found⟩ :=
    stale_flag (e := 1) inv bounded hcur (by decide) inUse linked page asid
      (by rw [recving]; decide) (by decide)
  obtain ⟨e, lookup, -, before, recv, after, split, recvs, -, since⟩ :=
    always _ _ _ _ _ id 0 0 0 boot (((run.snoc destroyed).snoc forked).snoc sent) rfl rfl
  have same : e = 1 := by
    rw [show envid2env s₂ id false = _ from lookup] at found
    cases found
    rfl
  subst same
  cases after using List.reverseRecOn with
  | nil =>
      obtain ⟨-, last⟩ := List.append_inj' split rfl
      obtain ⟨dstva, op, -⟩ := recvs
      cases last
      cases op
  | append_singleton after x =>
      rw [← List.cons_append, ← List.append_assoc] at split
      obtain ⟨-, last⟩ := List.append_inj' split rfl
      cases last
      exact (since _ (List.mem_append_right _ List.mem_cons_self)).1 ⟨isFree, taken⟩

end Mos
