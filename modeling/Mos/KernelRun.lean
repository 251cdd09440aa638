import Mos.Ipc
import Mos.LiveInv
import Mos.TlbexInv
import Mos.EnvInit
import Mos.Lib.Run

/-!
# Runs of the kernel

The ways into the kernel: a trap saves the registers of the current env, which
may make a system call or fault on an address, the timer fires, and the boot code
creates envs. `kernelRun_inv` is the invariant of all of them, in any order.
-/

namespace Mos

/-- The system calls on an env that has to be the caller or its child. -/
inductive EnvCall
  | envDestroy (envid : Word)
  | setTlbModEntry (envid func : Word)
  | memAlloc (envid va perm : Word)
  | memMap (srcid srcva dstid dstva perm : Word)
  | memUnmap (envid va : Word)
  | setEnvStatus (envid status : Word)
  | setTrapframe (envid va : Word) (tf : Trapframe)

inductive SysCall
  | env (call : EnvCall)
  | yield
  | exofork
  | ipcRecv (dstva : Word)
  | ipcTrySend (envid value srcva perm : Word)

def EnvCall.exec (s : Kernel) : EnvCall → Except Panic (Kernel × Ret)
  | .envDestroy envid => sysEnvDestroy s envid
  | .setTlbModEntry envid func => sysSetTlbModEntry s envid func
  | .memAlloc envid va perm => sysMemAlloc s envid va perm
  | .memMap srcid srcva dstid dstva perm => sysMemMap s srcid srcva dstid dstva perm
  | .memUnmap envid va => sysMemUnmap s envid va
  | .setEnvStatus envid status => sysSetEnvStatus s envid status
  | .setTrapframe envid va tf => sysSetTrapframe s envid va tf

def SysCall.exec (s : Kernel) : SysCall → Except Panic (Kernel × Ret)
  | .env call => call.exec s
  | .yield => (sysYield s).map fun s => (s, .ok 0)
  | .exofork => sysExofork s
  | .ipcRecv dstva => sysIpcRecv s dstva
  | .ipcTrySend envid value srcva perm => sysIpcTrySend s envid value srcva perm

inductive KernelOp
  | trap (tf : Trapframe)
  | envCreate (binary : Icode) (priority : Word)
  | tick
  | sys (call : SysCall)
  | fault (va asid : Word)

/-- The operation, whatever it returns. -/
def KernelOp.exec (s s' : Kernel) : KernelOp → Prop
  | .trap tf => s' = { s with kstackTf := tf }
  | .envCreate binary priority => ∃ e, Mos.envCreate s binary priority = .ok (s', e)
  | .tick => schedule s false = .ok s'
  | .sys call => ∃ r, call.exec s = .ok (s', r)
  | .fault va asid => ∃ fuel pte, doTlbRefill s va asid fuel = .ok (some (s', pte))

/-- The permission a call passes to `page_insert` is made of flags. -/
def SysCall.PermLegal : SysCall → Prop
  | .env (.memAlloc _ _ perm) => perm < 0x1000#32
  | .env (.memMap _ _ _ _ perm) => perm < 0x1000#32
  | .ipcTrySend _ _ _ perm => perm < 0x1000#32
  | _ => True

/-- System calls are made by an env, with flags for permissions, images are made of
legal segments, and the addresses that miss the TLB lie below the kernel. -/
def KernelOp.Enabled (s : Kernel) : KernelOp → Prop
  | .envCreate binary _ => ∀ page ∈ binary.pages, page.Legal
  | .sys call => (∃ cur, s.curenv = some cur) ∧ call.PermLegal
  | .fault va _ => (∃ cur, s.curenv = some cur) ∧ va < ulim
  | _ => True

/-- One operation, after which no page has more references than `pp_ref` can
tell. -/
def kernelStep (s : Kernel) (op : KernelOp) (s' : Kernel) : Prop :=
  op.Enabled s ∧ op.exec s s' ∧ Bounded s'

variable {s s' : Kernel} {cur e : EnvIx} {op : KernelOp} {ops : List KernelOp} {b : Boot}

/-! ## System calls -/

section Calls

variable (inv : LiveInv s)

include inv

theorem LiveInv.schedule {yield : Bool} (h : Mos.schedule s yield = .ok s') : LiveInv s' :=
  inv.resumed (schedule_ok h).1

theorem LiveInv.envDestroy (bounded : Bounded s) (he : e ∉ s.envFreeList)
    (h : Mos.envDestroy s e = .ok s') : LiveInv s' := by
  obtain ⟨pm, q, -, inv₁, next⟩ := inv.inv.envDestroy_cases bounded he h
  have other : ∀ x, x ≠ e → (s.reclaim e pm).envs x = s.envs x := fun x hne =>
    Function.update_of_ne hne _ _
  have ids : ∀ x, x ∉ (s.reclaim e pm).envFreeList → envx ((s.reclaim e pm).envs x).envId = x := by
    intro x hx
    have hne : x ≠ e := fun eq => hx (by rw [eq]; exact List.mem_cons_self)
    rw [other x hne]
    exact inv.ids x fun mem => hx (List.mem_cons_of_mem _ mem)
  have inv₂ : ∀ c, KernelInv { s.reclaim e pm with envSchedList := q, curenv := c } := fun c =>
    inv₁.congr rfl rfl rfl (fun _ => rfl) inv₁.free_status inv₁.dstva_lt
  rcases next with ⟨-, resumed⟩ | ⟨self, rfl⟩
  · exact .of_resumed (inv₂ none) ids resumed
  · refine ⟨inv₂ s.curenv, ids, fun cur hcur => ?_⟩
    have hcur' : s.curenv = some cur := hcur
    have hne : cur ≠ e := fun eq => self (eq ▸ hcur')
    obtain ⟨inUse, pgdir⟩ := inv.current cur hcur'
    refine ⟨fun mem => inUse ((List.mem_cons.mp mem).resolve_left hne), ?_⟩
    show s.curPgdir = some ((s.reclaim e pm).envs cur).envPgdir
    rw [other cur hne]
    exact pgdir

theorem LiveInv.sysExofork {r : Ret} (h : Mos.sysExofork s = .ok (s', r)) : LiveInv s' := by
  obtain ⟨cur, ⟨err, alloc⟩ | ⟨s₁, e, alloc, rfl⟩⟩ := sysExofork_ok h
  · exact (inv.envAlloc alloc).1
  · obtain ⟨inv₁, -, fresh⟩ := inv.envAlloc alloc
    exact inv₁.setEnv (fresh e rfl) rfl rfl (inv₁.inv.dstva_lt e)

theorem LiveInv.sysSetEnvStatus {envid status : Word} {r : Ret}
    (h : Mos.sysSetEnvStatus s envid status = .ok (s', r)) : LiveInv s' := by
  rcases sysSetEnvStatus_ok h with rfl | ⟨new, e, q, -, lookup, rfl⟩
  · exact inv
  · exact (inv.requeue q s.kstackTf).setEnv (inv.envid2env lookup) rfl rfl (inv.inv.dstva_lt e)

theorem LiveInv.sysSetTlbModEntry {envid func : Word} {r : Ret}
    (h : Mos.sysSetTlbModEntry s envid func = .ok (s', r)) : LiveInv s' := by
  rcases sysSetTlbModEntry_ok h with rfl | ⟨e, lookup, rfl⟩
  · exact inv
  · exact inv.setEnv (inv.envid2env lookup) rfl rfl (inv.inv.dstva_lt e)

theorem LiveInv.sysSetTrapframe {envid va : Word} {tf : Trapframe} {r : Ret}
    (h : Mos.sysSetTrapframe s envid va tf = .ok (s', r)) : LiveInv s' := by
  rcases sysSetTrapframe_ok h with rfl | ⟨e, -, lookup, ⟨-, rfl, -⟩ | ⟨-, rfl⟩⟩
  · exact inv
  · exact inv.requeue s.envSchedList tf
  · exact inv.setEnv (inv.envid2env lookup) rfl rfl (inv.inv.dstva_lt e)

theorem LiveInv.sysIpcRecv {dstva : Word} {r : Ret} (h : Mos.sysIpcRecv s dstva = .ok (s', r)) :
    LiveInv s' := by
  rcases sysIpcRecv_ok h with ⟨-, -, rfl, -⟩ | ⟨legal, -, cur, q, current, -, scheduled⟩
  · exact inv
  · have below : dstva < utop := lt_utop_of_carries legal
    have awaiting : LiveInv (ipcAwait s cur dstva) :=
      inv.setEnv (inv.current cur current).1 rfl rfl below
    exact (awaiting.requeue q _).schedule scheduled

omit inv in
theorem ipcDeliver_dirs (s : Kernel) (cur e : EnvIx) (value perm : Word) :
    (Mos.ipcDeliver s cur e value perm).dirs = s.dirs := by
  refine Kernel.dirs_congr rfl fun x => ?_
  rcases eq_or_ne x e with rfl | hne
  · simp [Mos.ipcDeliver, Kernel.schedInsertTail, Kernel.setEnv]
  · simp [Mos.ipcDeliver, Kernel.schedInsertTail, Kernel.setEnv, hne]

theorem LiveInv.ipcDeliver (cur : EnvIx) (inUse : e ∉ s.envFreeList) (value perm : Word) :
    LiveInv (Mos.ipcDeliver s cur e value perm) :=
  (inv.setEnv inUse rfl rfl (inv.inv.dstva_lt e)).requeue _ s.kstackTf

theorem LiveInv.sysIpcTrySend {envid value srcva perm : Word} {r : Ret} (bounded : Bounded s)
    (hperm : perm < 0x1000#32) (h : Mos.sysIpcTrySend s envid value srcva perm = .ok (s', r)) :
    LiveInv s' := by
  rcases sysIpcTrySend_ok h with
    ⟨err, -, rfl, -⟩ | ⟨e, cur, pm, legal, lookup, -, current, sent, -⟩
  · exact inv
  · have inUse := inv.envid2env lookup
    have below : srcva < utop := lt_utop_of_carries legal
    have delivered := inv.ipcDeliver cur inUse value perm
    have bounded' : Bounded (Mos.ipcDeliver s cur e value perm) := by
      intro p
      rw [ipcDeliver_dirs]
      exact bounded p
    obtain ⟨pm', r', run, step⟩ := delivered.inv.ipcTransfer bounded'
      (inv.current cur current).1 inUse below hperm
    rw [run] at sent
    cases sent
    exact delivered.memStep step

theorem LiveInv.sys {call : SysCall} {r : Ret} (bounded : Bounded s)
    (hcur : s.curenv = some cur) (legal : call.PermLegal)
    (h : call.exec s = .ok (s', r)) : LiveInv s' := by
  have allocated := (inv.current cur hcur).1
  cases call with
  | env call =>
      cases call with
      | envDestroy envid =>
          rcases sysEnvDestroy_ok h with rfl | ⟨e, lookup, destroyed⟩
          · exact inv
          · exact inv.envDestroy bounded (inv.envid2env lookup) destroyed
      | setTlbModEntry envid func => exact inv.sysSetTlbModEntry h
      | memAlloc envid va perm =>
          obtain ⟨e, pm, r', run, step⟩ := inv.inv.sysMemAlloc bounded hcur allocated legal
          rw [show sysMemAlloc s envid va perm = _ from h] at run
          cases run
          exact inv.memStep step
      | memMap srcid srcva dstid dstva perm =>
          obtain ⟨e, pm, r', run, step⟩ := inv.inv.sysMemMap bounded hcur allocated legal
          rw [show sysMemMap s srcid srcva dstid dstva perm = _ from h] at run
          cases run
          exact inv.memStep step
      | memUnmap envid va =>
          obtain ⟨e, pm, r', run, step⟩ := inv.inv.sysMemUnmap bounded hcur allocated
          rw [show sysMemUnmap s envid va = _ from h] at run
          cases run
          exact inv.memStep step
      | setEnvStatus envid status => exact inv.sysSetEnvStatus h
      | setTrapframe envid va tf => exact inv.sysSetTrapframe h
  | yield =>
      obtain ⟨s₁, run, eq⟩ := map_eq_ok.mp h
      cases eq
      exact inv.schedule run
  | exofork => exact inv.sysExofork h
  | ipcRecv dstva => exact inv.sysIpcRecv h
  | ipcTrySend envid value srcva perm => exact inv.sysIpcTrySend bounded legal h

end Calls

/-! ## The other ways into the kernel -/

theorem LiveInv.undisturbed {pm : Pmap} (inv : LiveInv s) (h : Undisturbed s.dirs s.pm pm) :
    LiveInv (s.withPm pm) :=
  ⟨inv.inv.undisturbed h, inv.ids, inv.current⟩

/-- The env that `env_alloc` gave, with its priority, is ready to be loaded. -/
theorem LiveInv.started (inv : LiveInv s) (bounded : Bounded s)
    (alloc : Mos.envAlloc s 0 = .ok (s₁, .ok e)) (priority : Word) : e ∉ s₁.envFreeList ∧
      LiveInv (s₁.setEnv e fun env => { env with envPri := priority, envStatus := .runnable }) ∧
      Bounded (s₁.setEnv e fun env => { env with envPri := priority, envStatus := .runnable }) := by
  obtain ⟨inv₁, -, fresh⟩ := inv.envAlloc alloc
  have inUse := fresh e rfl
  refine ⟨inUse, inv₁.setEnv inUse rfl rfl (inv₁.inv.dstva_lt e), fun p => ?_⟩
  rw [Kernel.dirs_setEnv rfl]
  exact inv.inv.bounded_envAlloc bounded alloc p

theorem LiveInv.envCreate {binary : Icode} {priority : Word} (inv : LiveInv s)
    (bounded : Bounded s) (legal : ∀ page ∈ binary.pages, page.Legal)
    (h : Mos.envCreate s binary priority = .ok (s', e)) : LiveInv s' := by
  obtain ⟨s₁, s₂, alloc, pages, rfl⟩ := envCreate_ok h
  obtain ⟨inUse, started, startedBounded⟩ := inv.started bounded alloc priority
  obtain ⟨pm, rfl, step⟩ := started.inv.loadPages startedBounded inUse legal pages
  have loaded := started.memStep step
  exact (loaded.setEnv inUse rfl rfl (loaded.inv.dstva_lt e)).requeue _ s₁.kstackTf

/-- A TLB refill for the current env keeps the invariant, and returns the entry its
page tables hold. -/
theorem LiveInv.doTlbRefill {va asid pte : Word} {fuel : Nat} (inv : LiveInv s)
    (bounded : Bounded s) (hcur : s.curenv = some cur) (hva : va < ulim)
    (h : Mos.doTlbRefill s va asid fuel = .ok (some (s', pte))) :
    LiveInv s' ∧ ∃ pm p t, s' = s.withPm pm ∧
      lookup pm.mem (s.envs cur).envPgdir va = some (p, t) ∧ pte = pm.word t := by
  obtain ⟨inUse, pgdir⟩ := inv.current cur hcur
  unfold Mos.doTlbRefill at h
  simp only [pgdir] at h
  obtain ⟨r, run, h⟩ := bind_eq_ok.mp h
  cases r with
  | none => cases h
  | some r =>
      obtain ⟨pm, word⟩ := r
      cases h
      obtain ⟨step, p, t, found, word⟩ := inv.inv.pm.tlbRefillLoop (Kernel.dirs_of_notMem inUse)
        (fun q => Nat.lt_succ_of_le (bounded q)) hva run
      exact ⟨inv.undisturbed step, pm, p, t, rfl, found, word⟩

theorem LiveInv.of_envInit (h : envInit b = .ok s) : LiveInv s ∧ Bounded s := by
  obtain ⟨inv, bounded⟩ := KernelInv.of_envInit h
  obtain ⟨pm, p, rfl⟩ := envInit_ok h
  exact ⟨⟨inv, fun e he => absurd (mem_slots e) he, fun _ hcur => by cases hcur⟩, bounded⟩

/-! ## Runs -/

/-- What one operation preserves. -/
theorem kernelStep_preserves (inv : LiveInv s ∧ Bounded s) (step : kernelStep s op s') :
    LiveInv s' ∧ Bounded s' := by
  obtain ⟨enabled, run, bounded⟩ := step
  obtain ⟨inv, bounded₀⟩ := inv
  refine ⟨?_, bounded⟩
  cases op with
  | trap tf =>
      cases run
      exact inv.requeue s.envSchedList tf
  | envCreate binary priority =>
      obtain ⟨e, run⟩ := run
      exact inv.envCreate bounded₀ enabled run
  | tick => exact inv.schedule run
  | sys call =>
      obtain ⟨r, run⟩ := run
      obtain ⟨⟨cur, hcur⟩, legal⟩ := enabled
      exact inv.sys bounded₀ hcur legal run
  | fault va asid =>
      obtain ⟨fuel, pte, run⟩ := run
      obtain ⟨⟨cur, hcur⟩, hva⟩ := enabled
      exact (inv.doTlbRefill bounded₀ hcur hva run).1

/-- From boot on, the invariant holds in every state the kernel reaches. -/
theorem kernelRun_inv (boot : envInit b = .ok s) (run : Run kernelStep s ops s') :
    LiveInv s' ∧ Bounded s' :=
  run.invariant (fun s => LiveInv s ∧ Bounded s) (LiveInv.of_envInit boot)
    fun _ _ _ => kernelStep_preserves

/-- Boot `smallBoot`, create two envs and run the second. -/
def tickOps : List KernelOp := [.envCreate ⟨[], 0⟩ 1, .envCreate ⟨[], 0⟩ 1, .tick]

theorem AtMost.resumed {k : Nat} (most : AtMost k s) (resumed : Resumed s s') : AtMost k s' := by
  intro p
  rw [Kernel.dirs_congr resumed.free (resumed.field Env.envPgdir fun _ _ _ => rfl), resumed.pm]
  exact most p

theorem Bounded.resumed (bounded : Bounded s) (resumed : Resumed s s') : Bounded s' :=
  AtMost.resumed bounded resumed

set_option maxRecDepth 2000 in
theorem twoEnvs_tick (pm : Pmap) :
    ∃ s, schedule (twoEnvs pm) false = .ok s ∧ s.curenv = some 1 :=
  ⟨_, rfl, rfl⟩

theorem tickOps_run : ∃ s s', envInit smallBoot = .ok s ∧ Run kernelStep s tickOps s' ∧
    s'.curenv = some 1 ∧ (s'.envs 0).envId = 2048 ∧ (s'.envs 1).envId = 4097 ∧
    (s'.envs 0).envParentId = 0 ∧ (s'.envs 0).envStatus = .runnable ∧
    s'.pm.pageFreeList = sparePages := by
  obtain ⟨pm, s₁, boot, create₁, create₂, bounded₁, -, bounded₂⟩ := twoEnvs_boot
  obtain ⟨s₂, tick, current⟩ := twoEnvs_tick pm
  have resumed := (schedule_ok tick).1
  obtain ⟨id₀, id₁⟩ := twoEnvs_envId pm
  obtain ⟨parent, status⟩ := twoEnvs_env pm
  have first : kernelStep (kernelInit pm 335) (.envCreate ⟨[], 0⟩ 1) s₁ :=
    ⟨by simp [KernelOp.Enabled], ⟨_, create₁⟩, bounded₁⟩
  have second : kernelStep s₁ (.envCreate ⟨[], 0⟩ 1) (twoEnvs pm) :=
    ⟨by simp [KernelOp.Enabled], ⟨_, create₂⟩, bounded₂⟩
  have third : kernelStep (twoEnvs pm) .tick s₂ :=
    ⟨trivial, tick, bounded₂.resumed resumed⟩
  refine ⟨_, s₂, boot, ((Run.single first).snoc second).snoc third, current, ?_, ?_, ?_, ?_,
    congrArg Pmap.pageFreeList resumed.pm⟩
  · exact (resumed.field Env.envId (fun _ _ _ => rfl) 0).trans id₀
  · exact (resumed.field Env.envId (fun _ _ _ => rfl) 1).trans id₁
  · exact (resumed.field Env.envParentId (fun _ _ _ => rfl) 0).trans parent
  · exact (resumed.status 0).trans status

/-! ## A kernel with one env -/

/-- The kernel with one env, whose page directory is `p`. -/
def oneEnv (pm : Pmap) (base p : Nat) (pages : List Nat) : Kernel :=
  (kernelInit pm base).spawn 0 (1 :: laterSlots) p pages 0

set_option maxRecDepth 2000 in
theorem oneEnv_tick (pm : Pmap) (base p : Nat) (pages : List Nat) :
    ∃ s, schedule (oneEnv pm base p pages) false = .ok s ∧ s.curenv = some 0 ∧
      s.envSchedList.tqePrev 1 = none ∧
      s.asidBitmap = Function.update (fun _ => 0) 0 (0 ||| asidBit 0) :=
  ⟨_, rfl, rfl, rfl, rfl⟩

/-- Create an env and run it. -/
def startOps : List KernelOp := [.envCreate ⟨[], 0⟩ 1, .tick]

/-- On any machine an env can be created and run, which maps nothing yet; its page directory is
the fourth page. -/
theorem startOps_boot {base w w' p : Nat} {pages : List Nat}
    (hfree : (pageInit b).pageFreeList = base :: w :: w' :: p :: pages) :
    ∃ s s', envInit b = .ok s ∧ Run kernelStep s startOps s' ∧ (s'.envs 0).envPgdir = p ∧
      s'.curenv = some 0 ∧ (s'.envs 0).envId = 2048 ∧ s'.envFreeList = 1 :: laterSlots ∧
      s'.pm.pageFreeList = pages ∧
      (∀ i, i < 509 → entry (s'.pm.mem (s'.envs 0).envPgdir i) = none) ∧
      s'.envSchedList.tqePrev 1 = none ∧ freeAsid s'.asidBitmap = some 1 ∧ AtMost 1 s' := by
  obtain ⟨pm, boot, booting, free⟩ := envInit_spec hfree
  have inv := booting.kernelInv
  have most : AtMost 1 (oneEnv pm base p pages) :=
    inv.atMost_spawn (i := 0) slots_eq free (atMost_kernelInit pm base 1) Nat.one_pos
  have bounded := most.bounded (by decide)
  obtain ⟨s₂, tick, current, unlinked, bitmap⟩ := oneEnv_tick pm base p pages
  have resumed := (schedule_ok tick).1
  have first : kernelStep (kernelInit pm base) (.envCreate ⟨[], 0⟩ 1) (oneEnv pm base p pages) :=
    ⟨by simp [KernelOp.Enabled], ⟨_, inv.envCreate_eq slots_eq free freeAsid_init⟩, bounded⟩
  have second : kernelStep (oneEnv pm base p pages) .tick s₂ :=
    ⟨trivial, tick, bounded.resumed resumed⟩
  have pgdir : ((oneEnv pm base p pages).envs 0).envPgdir = p := by
    simp [oneEnv, Kernel.spawn, Kernel.newEnv, Kernel.setupEnv, Kernel.admitEnv, Kernel.setEnv]
  have id : ((oneEnv pm base p pages).envs 0).envId = 2048 := by
    simp [oneEnv, Kernel.spawn, Kernel.newEnv, Kernel.setupEnv, Kernel.admitEnv, Kernel.setEnv,
      kernelInit]
  refine ⟨_, s₂, boot, (Run.single first).snoc second,
    (resumed.field Env.envPgdir (fun _ _ _ => rfl) 0).trans pgdir, current,
    (resumed.field Env.envId (fun _ _ _ => rfl) 0).trans id, resumed.free,
    congrArg Pmap.pageFreeList resumed.pm, fun i hi => ?_, unlinked, by rw [bitmap]; decide,
    most.resumed resumed⟩
  rw [resumed.field Env.envPgdir (fun _ _ _ => rfl) 0, pgdir, resumed.pm]
  have contents : (oneEnv pm base p pages).pm.mem p =
      pgdirWords ((kernelInit pm base).pm.mem base) p := Function.update_self ..
  rw [contents, pgdirWords_user _ _ (.inl hi)]
  exact entry_zero

theorem startOps_run {base w w' p : Nat} {pages : List Nat}
    (hfree : (pageInit b).pageFreeList = base :: w :: w' :: p :: pages) :
    ∃ s s', envInit b = .ok s ∧ Run kernelStep s startOps s' ∧ s'.curenv = some 0 ∧
      (s'.envs 0).envId = 2048 ∧ s'.envFreeList = 1 :: laterSlots ∧
      s'.pm.pageFreeList = pages ∧
      (∀ i, i < 509 → entry (s'.pm.mem (s'.envs 0).envPgdir i) = none) ∧
      s'.envSchedList.tqePrev 1 = none ∧ freeAsid s'.asidBitmap = some 1 ∧ AtMost 1 s' := by
  obtain ⟨s, s', boot, run, -, rest⟩ := startOps_boot hfree
  exact ⟨s, s', boot, run, rest⟩

end Mos
