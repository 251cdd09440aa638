import Mos.Ipc
import Mos.EnvInit
import Mos.Lib.Run

/-!
# The queue of runnable envs

`SchedInv` is the invariant `kern/env.c` states beside `env_sched_list`: an env is
on the queue exactly when it is runnable. `env_alloc`, `env_create` and the
system calls that block, wake or switch envs keep it, as long as nobody sends to
a receiver that is runnable already and the links of a current env that is off
the queue still agree with it when it is unlinked once more.
-/

namespace Mos

variable {s s' s'' : Kernel} {e cur : EnvIx} {b : Boot}

/-- The queue is well formed and holds exactly the runnable envs. -/
def QueueInv (s : Kernel) : Prop :=
  ∃ l, s.envSchedList.Repr l ∧ ∀ e, e ∈ l ↔ (s.envs e).envStatus = .runnable

structure SchedInv (s : Kernel) : Prop where
  queue : QueueInv s
  free_nodup : s.envFreeList.Nodup
  free_status : ∀ e ∈ s.envFreeList, (s.envs e).envStatus = .free
  current : ∀ e, s.curenv = some e → (s.envs e).envStatus ≠ .free

/-- Nothing that the queue depends on has changed. -/
structure SameSched (s s' : Kernel) : Prop where
  queue : s'.envSchedList = s.envSchedList
  free : s'.envFreeList = s.envFreeList
  status : ∀ e, (s'.envs e).envStatus = (s.envs e).envStatus

theorem SameSched.refl (s : Kernel) : SameSched s s := ⟨rfl, rfl, fun _ => rfl⟩

theorem SameSched.trans (first : SameSched s s') (second : SameSched s' s'') : SameSched s s'' :=
  ⟨second.queue.trans first.queue, second.free.trans first.free,
    fun e => (second.status e).trans (first.status e)⟩

theorem SameSched.setEnv {f : Env → Env} (h : (f (s.envs e)).envStatus = (s.envs e).envStatus) :
    SameSched s (s.setEnv e f) :=
  ⟨rfl, rfl, Kernel.setEnv_field Env.envStatus h⟩

theorem SameSched.withPm (s : Kernel) (pm : Pmap) : SameSched s (s.withPm pm) :=
  ⟨rfl, rfl, fun _ => rfl⟩

theorem QueueInv.congr (inv : QueueInv s) (queue : s'.envSchedList = s.envSchedList)
    (status : ∀ e, (s'.envs e).envStatus = (s.envs e).envStatus) : QueueInv s' := by
  obtain ⟨l, repr, iff⟩ := inv
  exact ⟨l, by rw [queue]; exact repr, fun e => by rw [status]; exact iff e⟩

theorem SchedInv.of_same (inv : SchedInv s) (same : SameSched s s')
    (curenv : s'.curenv = s.curenv) : SchedInv s' where
  queue := inv.queue.congr same.queue same.status
  free_nodup := by rw [same.free]; exact inv.free_nodup
  free_status e he := by
    rw [same.free] at he
    rw [same.status]
    exact inv.free_status e he
  current e he := by
    rw [same.status]
    exact inv.current e (curenv ▸ he)

/-! ## Changing the status of an env -/

/-- `e` is given the status `status`, and the queue is `q`. -/
def Kernel.move (s : Kernel) (e : EnvIx) (status : EnvStatus) (q : Tailq EnvIx) : Kernel :=
  { s.setEnv e fun env => { env with envStatus := status } with envSchedList := q }

theorem Kernel.move_status (s : Kernel) (e e' : EnvIx) (status : EnvStatus) (q : Tailq EnvIx) :
    ((s.move e status q).envs e').envStatus =
      if e' = e then status else (s.envs e').envStatus := by
  rcases eq_or_ne e' e with rfl | hne
  · simp [move, setEnv]
  · simp [move, setEnv, hne]

/-- Moving an env in use to another status keeps the rest of the invariant. -/
theorem SchedInv.move {status : EnvStatus} {q : Tailq EnvIx} (inv : SchedInv s)
    (queue : QueueInv (s.move e status q)) (inUse : e ∉ s.envFreeList) (valid : status ≠ .free) :
    SchedInv (s.move e status q) where
  queue := queue
  free_nodup := inv.free_nodup
  free_status x hx := by
    have hne : x ≠ e := fun eq => inUse (eq ▸ hx)
    rw [Kernel.move_status, if_neg hne]
    exact inv.free_status x hx
  current x hx := by
    rw [Kernel.move_status]
    split
    · exact valid
    · exact inv.current x hx

/-- An env that is off the queue stays off it. -/
theorem QueueInv.stay (inv : QueueInv s) (was : (s.envs e).envStatus ≠ .runnable)
    (status : EnvStatus) (off : status ≠ .runnable) :
    QueueInv (s.move e status s.envSchedList) := by
  obtain ⟨l, repr, iff⟩ := inv
  refine ⟨l, repr, fun e' => ?_⟩
  rw [Kernel.move_status, iff]
  rcases eq_or_ne e' e with rfl | hne
  · simp [off, was]
  · simp [hne]

/-- An env that is off the queue becomes runnable at its tail. -/
theorem QueueInv.wake (inv : QueueInv s) (off : (s.envs e).envStatus ≠ .runnable) :
    QueueInv (s.move e .runnable (s.envSchedList.insertTail e)) := by
  obtain ⟨l, repr, iff⟩ := inv
  refine ⟨l ++ [e], repr.insertTail fun mem => off ((iff e).mp mem), fun e' => ?_⟩
  rw [Kernel.move_status, List.mem_append, List.mem_singleton]
  rcases eq_or_ne e' e with rfl | hne
  · simp
  · simp [hne, iff]

/-- An env that is off the queue becomes runnable at its head. -/
theorem QueueInv.wakeHead (inv : QueueInv s) (off : (s.envs e).envStatus ≠ .runnable) :
    QueueInv (s.move e .runnable (s.envSchedList.insertHead e)) := by
  obtain ⟨l, repr, iff⟩ := inv
  refine ⟨e :: l, repr.insertHead fun mem => off ((iff e).mp mem), fun e' => ?_⟩
  rw [Kernel.move_status, List.mem_cons]
  rcases eq_or_ne e' e with rfl | hne
  · simp
  · simp [hne, iff]

/-- A runnable env leaves the queue. -/
theorem QueueInv.block (inv : QueueInv s) (on : (s.envs e).envStatus = .runnable)
    (status : EnvStatus) (off : status ≠ .runnable) :
    ∃ q, s.envSchedList.remove e = some q ∧ QueueInv (s.move e status q) := by
  obtain ⟨l, repr, iff⟩ := inv
  obtain ⟨q, remove, repr'⟩ := repr.remove ((iff e).mpr on)
  refine ⟨q, remove, l.erase e, repr', fun e' => ?_⟩
  rw [Kernel.move_status, repr.nodup.mem_erase_iff, iff]
  rcases eq_or_ne e' e with rfl | hne
  · simp [off]
  · simp [hne]

/-- The links of `e`, which is off the queue, agree with it. -/
def Kernel.Unlinkable (s : Kernel) (e : EnvIx) : Prop :=
  ∃ c, s.envSchedList.Harmless (fun x => (s.envs x).envStatus = .runnable) e c

/-- An env that is off the queue and whose links agree with it can be unlinked
again. -/
theorem QueueInv.unlink (inv : QueueInv s) (unlinkable : s.Unlinkable e)
    (was : (s.envs e).envStatus ≠ .runnable) (status : EnvStatus) (off : status ≠ .runnable) :
    ∃ q, s.envSchedList.remove e = some q ∧ QueueInv (s.move e status q) := by
  obtain ⟨l, repr, iff⟩ := inv
  obtain ⟨c, back, load, next, last⟩ := unlinkable
  obtain ⟨q, remove, repr'⟩ := repr.remove_harmless (a := e) (c := c)
    ⟨back, fun h => load fun b hb => (iff b).mp (h b hb),
      fun b hb mem => next b hb ((iff b).mp mem), last⟩
  refine ⟨q, remove, l, repr', fun e' => ?_⟩
  rw [Kernel.move_status, iff]
  rcases eq_or_ne e' e with rfl | hne
  · simp [off, was]
  · simp [hne]

/-! ## Running an env -/

/-- The current env, if it is off the queue, can be unlinked again. -/
def Kernel.CurrentUnlinkable (s : Kernel) : Prop :=
  ∀ e, s.curenv = some e → (s.envs e).envStatus ≠ .runnable → s.Unlinkable e

theorem QueueInv.rotated {q : Tailq EnvIx} (inv : QueueInv s) (unlinkable : s.CurrentUnlinkable)
    (rotated : Rotated s q) : QueueInv { s with envSchedList := q } := by
  cases rotated with
  | same => exact inv
  | @moved e q hcur runnable remove =>
      obtain ⟨q', remove', blocked⟩ := inv.block runnable .notRunnable (by simp)
      rw [remove] at remove'
      cases remove'
      have off : ((s.move e .notRunnable q).envs e).envStatus ≠ .runnable := by
        rw [Kernel.move_status, if_pos rfl]
        simp
      refine (blocked.wake off).congr rfl fun x => ?_
      rw [Kernel.move_status, Kernel.move_status]
      rcases eq_or_ne x e with rfl | hne
      · simp [runnable]
      · simp [hne]
  | @unlinked e q hcur blocked remove =>
      obtain ⟨q', remove', inv'⟩ := inv.unlink (unlinkable e hcur blocked) blocked _ blocked
      rw [remove] at remove'
      cases remove'
      refine inv'.congr rfl fun x => ?_
      rw [Kernel.move_status]
      rcases eq_or_ne x e with rfl | hne
      · simp
      · simp [hne]

theorem QueueInv.schedule {yield : Bool} (inv : QueueInv s) (unlinkable : s.CurrentUnlinkable)
    (h : Mos.schedule s yield = .ok s') : QueueInv s' := by
  obtain ⟨resumed, rotated⟩ := schedule_ok h
  exact (inv.rotated unlinkable rotated).congr rfl resumed.status

theorem SchedInv.schedule {yield : Bool} (inv : SchedInv s) (unlinkable : s.CurrentUnlinkable)
    (h : Mos.schedule s yield = .ok s') : SchedInv s' := by
  have resumed := (schedule_ok h).1
  obtain ⟨e, current, runnable, -⟩ := resumed.current
  refine ⟨inv.queue.schedule unlinkable h, ?_, fun x hx => ?_, fun x hx => ?_⟩
  · rw [resumed.free]
    exact inv.free_nodup
  · rw [resumed.free] at hx
    rw [resumed.status]
    exact inv.free_status x hx
  · rw [current] at hx
    cases hx
    rw [resumed.status, runnable]
    simp

/-! ## New envs -/

/-- An env that leaves the free list is off the queue and can take any status. -/
theorem SchedInv.envAlloc {parentId : Word} {r : Except Err EnvIx} (inv : SchedInv s)
    (h : Mos.envAlloc s parentId = .ok (s', r)) :
    SchedInv s' ∧ s'.curenv = s.curenv ∧
      ∀ e, r = .ok e → (s'.envs e).envStatus = .free ∧ e ∉ s'.envFreeList := by
  rcases envAlloc_ok h with ⟨pm, err, rfl, rfl⟩ | ⟨e, rest, p, pm, err, hfree, rfl, rfl⟩ |
    ⟨e, rest, p, pm, i, hfree, -, rfl, rfl⟩
  · exact ⟨inv.of_same (.withPm s pm) rfl, rfl, by simp⟩
  · refine ⟨inv.of_same ⟨rfl, rfl, fun x => ?_⟩ rfl, rfl, by simp⟩
    rcases eq_or_ne x e with rfl | hne
    · simp [Kernel.setupEnv]
    · simp [Kernel.setupEnv, hne]
  · have status : ∀ x, (((s.setupEnv e p pm).admitEnv e rest i parentId).envs x).envStatus =
        (s.envs x).envStatus := by
      intro x
      rcases eq_or_ne x e with rfl | hne
      · simp [Kernel.setupEnv, Kernel.admitEnv]
      · simp [Kernel.setupEnv, Kernel.admitEnv, hne]
    have nodup := inv.free_nodup
    rw [hfree, List.nodup_cons] at nodup
    have sub : ∀ x ∈ rest, x ∈ s.envFreeList := fun x hx => by
      rw [hfree]
      exact List.mem_cons_of_mem _ hx
    refine ⟨⟨?_, nodup.2, fun x hx => ?_, fun x hx => ?_⟩, rfl, fun x hx => ?_⟩
    · exact inv.queue.congr rfl status
    · rw [status]
      exact inv.free_status x (sub x hx)
    · rw [status]
      exact inv.current x hx
    · cases hx
      rw [status]
      exact ⟨inv.free_status e (by rw [hfree]; exact List.mem_cons_self), nodup.1⟩

theorem SchedInv.sysExofork {r : Ret} (inv : SchedInv s) (h : Mos.sysExofork s = .ok (s', r)) :
    SchedInv s' := by
  unfold Mos.sysExofork at h
  obtain ⟨cur, -, h⟩ := bind_eq_ok.mp h
  obtain ⟨⟨s₁, found⟩, alloc, h⟩ := bind_eq_ok.mp h
  obtain ⟨inv₁, -, fresh⟩ := inv.envAlloc alloc
  cases found with
  | error err =>
      cases h
      exact inv₁
  | ok e =>
      obtain ⟨free, notMem⟩ := fresh e rfl
      cases h
      have stayed := inv₁.move (e := e)
        (inv₁.queue.stay (by rw [free]; simp) .notRunnable (by simp)) notMem (by simp)
      refine stayed.of_same ⟨rfl, rfl, fun x => ?_⟩ rfl
      rw [Kernel.move_status]
      rcases eq_or_ne x e with rfl | hne
      · simp [Kernel.setEnv]
      · simp [Kernel.setEnv, hne]

theorem loadIcodeMapper_ok {page : IcodePage} {r : Except Err Unit}
    (h : loadIcodeMapper s e page = .ok (s', r)) : ∃ pm, s' = s.withPm pm := by
  unfold loadIcodeMapper at h
  obtain ⟨⟨pm, found⟩, -, h⟩ := bind_eq_ok.mp h
  cases found with
  | error err => cases h
  | ok p =>
      obtain ⟨kva, -, h⟩ := bind_eq_ok.mp h
      obtain ⟨⟨pm', r'⟩, -, h⟩ := bind_eq_ok.mp h
      cases h
      exact ⟨pm', rfl⟩

/-- Loading an image changes the memory only. -/
theorem loadPages_ok {pages : List IcodePage} (h : loadPages s e pages = .ok s') :
    ∃ pm, s' = s.withPm pm := by
  induction pages generalizing s with
  | nil =>
      cases h
      exact ⟨_, rfl⟩
  | cons page pages ih =>
      obtain ⟨⟨s₁, r⟩, load, h⟩ := bind_eq_ok.mp h
      obtain ⟨pm, rfl⟩ := loadIcodeMapper_ok load
      cases r with
      | error err => cases h
      | ok _ =>
          obtain ⟨pm', rfl⟩ := ih h
          exact ⟨pm', rfl⟩

theorem SchedInv.envCreate {binary : Icode} {priority : Word} (inv : SchedInv s)
    (h : Mos.envCreate s binary priority = .ok (s', e)) : SchedInv s' := by
  obtain ⟨s₁, s₂, alloc, pages, rfl⟩ := envCreate_ok h
  obtain ⟨inv₁, -, fresh⟩ := inv.envAlloc alloc
  obtain ⟨free, notMem⟩ := fresh e rfl
  obtain ⟨pm, rfl⟩ := loadPages_ok pages
  have woken := inv₁.move (e := e)
    (inv₁.queue.wakeHead (by rw [free]; simp)) notMem (by simp)
  refine woken.of_same ⟨rfl, rfl, fun x => ?_⟩ rfl
  rw [Kernel.move_status]
  rcases eq_or_ne x e with rfl | hne
  · simp [Kernel.setEnv, Kernel.withPm]
  · simp [Kernel.setEnv, Kernel.withPm, hne]

/-! ## System calls -/

/-- The env a call names is in use. -/
theorem SchedInv.envid2env {envid : Word} {checkperm : Bool} (inv : SchedInv s)
    (h : Mos.envid2env s envid checkperm = .ok (.ok e)) :
    (s.envs e).envStatus ≠ .free ∧ e ∉ s.envFreeList := by
  have status : (s.envs e).envStatus ≠ .free := by
    rcases envid2env_ok h with ⟨-, current⟩ | ⟨-, -, status, -⟩
    · exact inv.current e current
    · exact status
  exact ⟨status, fun mem => status (inv.free_status e mem)⟩

theorem SchedInv.sysSetEnvStatus {envid status : Word} {r : Ret} (inv : SchedInv s)
    (h : Mos.sysSetEnvStatus s envid status = .ok (s', r)) : SchedInv s' := by
  unfold Mos.sysSetEnvStatus at h
  cases user : userEnvStatus status with
  | none =>
      simp only [user] at h
      cases h
      exact inv
  | some new =>
      have valid : new ≠ .free := by
        unfold userEnvStatus at user
        split_ifs at user <;> cases user <;> simp
      simp only [user] at h
      obtain ⟨found, lookup, h⟩ := bind_eq_ok.mp h
      cases found with
      | error err =>
          cases h
          exact inv
      | ok e =>
          obtain ⟨status, inUse⟩ := inv.envid2env lookup
          obtain ⟨s₁, moved, h⟩ := bind_eq_ok.mp h
          cases h
          unfold requeue at moved
          by_cases wake : new = .runnable ∧ (s.envs e).envStatus = .notRunnable
          · obtain ⟨rfl, off⟩ := wake
            simp only [off, and_self, if_true, reduceCtorEq, false_and, if_false] at moved
            cases moved
            exact inv.move (inv.queue.wake (by rw [off]; simp)) inUse valid
          · simp only [if_neg wake] at moved
            by_cases block : new = .notRunnable ∧ (s.envs e).envStatus = .runnable
            · rw [if_pos block] at moved
              obtain ⟨rfl, on⟩ := block
              obtain ⟨q, remove, rfl⟩ := schedRemove_ok moved
              obtain ⟨q', remove', blocked⟩ := inv.queue.block on .notRunnable (by simp)
              rw [remove] at remove'
              cases remove'
              exact inv.move blocked inUse valid
            · rw [if_neg block] at moved
              cases moved
              have same : (s.envs e).envStatus = new := by
                cases new <;> cases hs : (s.envs e).envStatus <;> simp_all
              exact inv.of_same (.setEnv same.symm) rfl

/-- The receiver leaves the queue, unless it has left it before. -/
theorem QueueInv.await {q : Tailq EnvIx} {dstva : Word} (inv : QueueInv s)
    (unlinkable : s.CurrentUnlinkable) (hcur : s.curenv = some cur)
    (remove : s.envSchedList.remove cur = some q) : QueueInv (s.await cur dstva q) := by
  have blocked : QueueInv (s.move cur .notRunnable q) := by
    by_cases on : (s.envs cur).envStatus = .runnable
    · obtain ⟨q', remove', blocked⟩ := inv.block on .notRunnable (by simp)
      rw [remove] at remove'
      cases remove'
      exact blocked
    · obtain ⟨q', remove', blocked⟩ :=
        inv.unlink (unlinkable cur hcur on) on .notRunnable (by simp)
      rw [remove] at remove'
      cases remove'
      exact blocked
  refine blocked.congr rfl fun x => ?_
  rw [Kernel.await_env, Kernel.move_status]
  split <;> rfl

/-- A receiver just taken off the queue can be unlinked again. -/
theorem Kernel.currentUnlinkable_await {q : Tailq EnvIx} (dstva : Word)
    (hcur : s.curenv = some cur) (remove : s.envSchedList.remove cur = some q) :
    (s.await cur dstva q).CurrentUnlinkable := by
  intro e he _
  have eq : e = cur := by
    have : s.curenv = some e := he
    rw [hcur] at this
    cases this
    rfl
  rw [eq]
  obtain ⟨c, back, unlinked⟩ := Option.map_eq_some_iff.mp remove
  have harmless := Tailq.harmless_unlink (q := s.envSchedList) (a := cur) back
  rw [show s.envSchedList.unlink cur c = q from unlinked] at harmless
  exact ⟨c, harmless _⟩

/-- A blocked receiver is off the queue, once and for all. -/
theorem SchedInv.sysIpcRecv {dstva : Word} {r : Ret} (inv : SchedInv s)
    (unlinkable : s.CurrentUnlinkable) (h : Mos.sysIpcRecv s dstva = .ok (s', r)) :
    SchedInv s' := by
  rcases sysIpcRecv_ok h with ⟨-, -, rfl, -⟩ | ⟨-, -, cur, q, hcur, remove, scheduled⟩
  · exact inv
  · have inUse : cur ∉ s.envFreeList := fun mem => inv.current cur hcur (inv.free_status cur mem)
    have status : ∀ x, x ≠ cur →
        ((s.await cur dstva q).envs x).envStatus = (s.envs x).envStatus := by
      intro x hne
      rw [Kernel.await_env, if_neg hne]
    refine SchedInv.schedule ⟨inv.queue.await unlinkable hcur remove, inv.free_nodup,
      fun x hx => ?_, fun x hx => ?_⟩ (s.currentUnlinkable_await dstva hcur remove) scheduled
    · rw [status x fun eq => inUse (eq ▸ hx)]
      exact inv.free_status x hx
    · have eq : s.curenv = some x := hx
      rw [hcur] at eq
      cases eq
      rw [Kernel.await_env, if_pos rfl]
      simp

theorem QueueInv.ipcDeliver {value perm : Word} (inv : QueueInv s)
    (asleep : (s.envs e).envStatus ≠ .runnable) :
    QueueInv (Mos.ipcDeliver s cur e value perm) := by
  refine (inv.wake asleep).congr rfl fun x => ?_
  rw [ipcDeliver_env, Kernel.move_status]
  split <;> rfl

theorem SchedInv.sysIpcTrySend {envid value srcva perm : Word} {r : Ret} (inv : SchedInv s)
    (asleep : ∀ e, Mos.envid2env s envid false = .ok (.ok e) → (s.envs e).envIpcRecving ≠ 0 →
      (s.envs e).envStatus ≠ .runnable)
    (h : Mos.sysIpcTrySend s envid value srcva perm = .ok (s', r)) : SchedInv s' := by
  rcases sysIpcTrySend_ok h with ⟨-, -, rfl, -⟩ |
    ⟨e, cur, pm, -, lookup, recving, -, -, rfl, -⟩
  · exact inv
  · have inUse := (inv.envid2env lookup).2
    have delivered : SchedInv (Mos.ipcDeliver s cur e value perm) := by
      refine ⟨inv.queue.ipcDeliver (asleep e lookup recving), inv.free_nodup, fun x hx => ?_,
        fun x hx => ?_⟩
      · rw [ipcDeliver_env, if_neg (fun eq : x = e => inUse (eq ▸ hx))]
        exact inv.free_status x hx
      · rw [ipcDeliver_env]
        split
        · simp
        · exact inv.current x hx
    exact delivered.of_same (.withPm _ pm) rfl

end Mos
