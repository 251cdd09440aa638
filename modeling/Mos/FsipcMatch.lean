import Mos.Fsipc
import Mos.IpcSend
import Mos.RoundRobin
import Mos.UserMode

/-!
# Answers reach those who asked

Until another env's message reaches the waiting client, whatever the server is
doing for the client is for its last request, so the message the client takes is
the answer to it.
-/

namespace Mos

variable {k k' : Kernel} {c e x : EnvIx} {r : Ret} {w w' : FsWorld} {move : FsMove}
  {moves : List FsMove} {b : Boot}

/-! ## What a system call does to the messages of an env -/

/-- What `e` has of IPC is left as it was. -/
structure SameIpc (k k' : Kernel) (e : EnvIx) : Prop where
  recving : (k'.envs e).envIpcRecving = (k.envs e).envIpcRecving
  value : (k'.envs e).envIpcValue = (k.envs e).envIpcValue
  sender : (k'.envs e).envIpcFrom = (k.envs e).envIpcFrom
  perm : (k'.envs e).envIpcPerm = (k.envs e).envIpcPerm
  dstva : (k'.envs e).envIpcDstva = (k.envs e).envIpcDstva
  status : (k'.envs e).envStatus = (k.envs e).envStatus

/-- The envs keep their ids and directories, and none comes or goes. -/
structure SameEnvs (k k' : Kernel) : Prop where
  free : k'.envFreeList = k.envFreeList
  id : ∀ e, (k'.envs e).envId = (k.envs e).envId
  pgdir : ∀ e, (k'.envs e).envPgdir = (k.envs e).envPgdir

theorem SameIpc.refl (k : Kernel) (e : EnvIx) : SameIpc k k e := ⟨rfl, rfl, rfl, rfl, rfl, rfl⟩

theorem SameIpc.of_env (same : k'.envs e = k.envs e) : SameIpc k k' e := by
  constructor <;> rw [same]

theorem SameIpc.not_delivers (same : SameIpc k k' e) : ¬ Delivers k k' e := fun took =>
  took.1 (same.recving.symm.trans took.2)

theorem Resumed.sameIpc (resumed : Resumed k k') (e : EnvIx) : SameIpc k k' e where
  recving := resumed.field Env.envIpcRecving (fun _ _ _ => rfl) e
  value := resumed.field Env.envIpcValue (fun _ _ _ => rfl) e
  sender := resumed.field Env.envIpcFrom (fun _ _ _ => rfl) e
  perm := resumed.field Env.envIpcPerm (fun _ _ _ => rfl) e
  dstva := resumed.field Env.envIpcDstva (fun _ _ _ => rfl) e
  status := resumed.status e

theorem Resumed.sameEnvs (resumed : Resumed k k') : SameEnvs k k' :=
  ⟨resumed.free, resumed.field Env.envId fun _ _ _ => rfl,
    resumed.field Env.envPgdir fun _ _ _ => rfl⟩

/-- A runnable env has the processor. -/
def Kernel.RunsRunnable (k : Kernel) : Prop :=
  ∃ x, k.curenv = some x ∧ (k.envs x).envStatus = .runnable

theorem Resumed.runs (resumed : Resumed k k') : k'.RunsRunnable := by
  obtain ⟨x, current, runnable, -⟩ := resumed.current
  exact ⟨x, current, (resumed.status x).trans runnable⟩

/-- What `sys_ipc_recv` does. -/
structure Receives (k k' : Kernel) (x : EnvIx) (dstva : Word) : Prop where
  envs : SameEnvs k k'
  pm : k'.pm = k.pm
  others : ∀ e, e ≠ x → SameIpc k k' e
  recving : (k'.envs x).envIpcRecving ≠ 0
  status : (k'.envs x).envStatus = .notRunnable
  runs : k'.RunsRunnable

theorem sysIpcRecv_receives {dstva : Word} (current : k.curenv = some x)
    (exec : sysIpcRecv k dstva = .ok (k', r)) :
    k' = k ∧ r ≠ .ok 0 ∨ r = .ok 0 ∧ Receives k k' x dstva := by
  rcases sysIpcRecv_ok exec with ⟨-, -, rfl, rfl⟩ | ⟨-, ok, cur, q, hcur, -, scheduled⟩
  · exact .inl ⟨rfl, by simp⟩
  · rw [current, Option.some.injEq] at hcur
    subst hcur
    have resumed := (schedule_ok scheduled).1
    have field : ∀ {α : Type} (f : Env → α), (∀ env tf runs,
        f { env with envTf := tf, envRuns := runs } = f env) →
        (∀ env n va s, f { env with envIpcRecving := n, envIpcDstva := va, envStatus := s } =
          f env) → ∀ e, f (k'.envs e) = f (k.envs e) := by
      intro α f scheduling waiting e
      rw [resumed.field f scheduling, Kernel.await_env]
      split
      · exact waiting _ _ _ _
      · rfl
    refine .inr ⟨ok, ⟨resumed.free, field Env.envId (fun _ _ _ => rfl) fun _ _ _ _ => rfl,
      field Env.envPgdir (fun _ _ _ => rfl) fun _ _ _ _ => rfl⟩, resumed.pm, fun e hne => ?_, ?_,
      ?_, resumed.runs⟩
    · have same : (k.await x dstva q).envs e = k.envs e := by
        rw [Kernel.await_env, if_neg hne]
      have ipc := resumed.sameIpc e
      constructor
      · exact ipc.recving.trans (by rw [same])
      · exact ipc.value.trans (by rw [same])
      · exact ipc.sender.trans (by rw [same])
      · exact ipc.perm.trans (by rw [same])
      · exact ipc.dstva.trans (by rw [same])
      · exact ipc.status.trans (by rw [same])
    · rw [(resumed.sameIpc x).recving, Kernel.await_env, if_pos rfl]
      exact (by decide : (1 : Word) ≠ 0)
    · rw [resumed.status, Kernel.await_env, if_pos rfl]

theorem Receives.bounded {dstva : Word} (receives : Receives k k' x dstva) (bounded : Bounded k) :
    Bounded k' := by
  intro p
  rw [Kernel.dirs_congr receives.envs.free receives.envs.pgdir, receives.pm]
  exact bounded p

/-- What `sys_ipc_try_send` does to a bystander, and to the env that takes the message. -/
structure Sends (k k' : Kernel) (x : EnvIx) (envid value perm : Word) : Prop where
  envs : SameEnvs k k'
  curenv : k'.curenv = k.curenv
  others : ∀ e, ¬ Delivers k k' e → SameIpc k k' e
  space : ∀ e, ¬ Delivers k k' e → e ∉ k.envFreeList →
    SameSpace k.pm.mem k'.pm.mem (k.envs e).envPgdir
  taken : ∀ e, Delivers k k' e → envid2env k envid false = .ok (.ok e) ∧
    (k'.envs e).envIpcValue = value ∧ (k'.envs e).envIpcFrom = (k.envs x).envId ∧
    (k'.envs e).envIpcPerm = pteV ||| perm

theorem Calls.sends {envid value srcva perm : Word} (inv : LiveInv k) (bounded : Bounded k)
    (sys : Calls k x (.ipcTrySend envid value srcva perm) k' r) :
    Sends k k' x envid value perm := by
  have exec : sysIpcTrySend k envid value srcva perm = .ok (k', r) := sys.exec
  rcases sysIpcTrySend_ok exec with
    ⟨err, -, rfl, -⟩ | ⟨t, cur, pm, legal, lookup, waits, hcur, transfer, -⟩
  · exact ⟨⟨rfl, fun _ => rfl, fun _ => rfl⟩, rfl, fun e _ => .refl k' e, fun _ _ _ => .refl _ _,
      fun e took => absurd took (SameIpc.refl k' e).not_delivers⟩
  rw [sys.current, Option.some.injEq] at hcur
  subst hcur
  have inUse := inv.envid2env lookup
  -- Both with and without a page the envs are those after the delivery.
  have after : k'.envFreeList = k.envFreeList ∧ k'.curenv = k.curenv ∧
      k'.envs = (ipcDeliver k x t value perm).envs ∧ ∀ e, e ≠ t → e ∉ k.envFreeList →
        SameSpace k.pm.mem k'.pm.mem (k.envs e).envPgdir := by
    rcases ipcTransfer_insert legal transfer with rfl | ⟨pp, pte, pm, res, -, -, -, insert, rfl⟩
    · exact ⟨rfl, rfl, rfl, fun _ _ _ => .refl _ _⟩
    · exact ⟨rfl, rfl, rfl, fun e hne used =>
        (inv.untouched_pageInsert bounded inUse (inv.inv.dstva_lt t) insert hne).space used⟩
  obtain ⟨free, curenv, envs, space⟩ := after
  have env : ∀ e, k'.envs e = _ := fun e =>
    (congrFun envs e).trans (ipcDeliver_env k x t value perm e)
  have taker : ∀ e, Delivers k k' e → e = t := fun e took => by
    by_contra hne
    exact (SameIpc.of_env ((env e).trans (if_neg hne))).not_delivers took
  have takes : Delivers k k' t := ⟨waits, by rw [env, if_pos rfl]⟩
  have other : ∀ e, ¬ Delivers k k' e → e ≠ t := fun e kept eq => kept (eq ▸ takes)
  refine ⟨⟨free, fun e => ?_, fun e => ?_⟩, curenv, fun e kept =>
    .of_env ((env e).trans (if_neg (other e kept))), fun e kept => space e (other e kept),
    fun e took => ?_⟩
  · rw [env]
    split <;> rfl
  · rw [env]
    split <;> rfl
  · cases taker e took
    refine ⟨lookup, ?_, ?_, ?_⟩ <;> rw [env, if_pos rfl]

/-- Calls on the memory leave the messages alone, and the space of a stranger. -/
theorem Calls.onMemory {call : EnvCall} (inv : LiveInv k) (bounded : Bounded k)
    (onMemory : call.OnMemory) (sys : Calls k x (.env call) k' r) :
    (∃ pm, k' = k.withPm pm) ∧ ∀ e, ¬ k.Family e → e ∉ k.envFreeList →
      SameSpace k.pm.mem k'.pm.mem (k.envs e).envPgdir := by
  have exec : call.exec k = .ok (k', r) := sys.exec
  cases call with
  | memAlloc envid va perm =>
      exact ⟨sysMemAlloc_ok exec, fun e stranger =>
        (inv.untouched_sysMemAlloc bounded exec stranger).space⟩
  | memMap srcid srcva dstid dstva perm =>
      exact ⟨sysMemMap_ok exec, fun e stranger =>
        (inv.untouched_sysMemMap bounded exec stranger).space⟩
  | memUnmap envid va =>
      exact ⟨sysMemUnmap_ok exec, fun e stranger =>
        (inv.untouched_sysMemUnmap bounded exec stranger).space⟩
  | _ => exact onMemory.elim

theorem Calls.yields (sys : Calls k x .yield k' r) : Resumed k k' := by
  have exec : (sysYield k).map (fun k => (k, Except.ok 0)) = .ok (k', r) := sys.exec
  obtain ⟨k₁, scheduled, eq⟩ := map_eq_ok.mp exec
  cases eq
  exact (schedule_ok scheduled).1

theorem Calls.live {call : SysCall} (inv : LiveInv k) (bounded : Bounded k)
    (sys : Calls k x call k' r) : LiveInv k' :=
  (@kernelStep_preserves _ _ (.sys call) ⟨inv, bounded⟩
    ⟨⟨⟨x, sys.current⟩, sys.legal⟩, ⟨r, sys.exec⟩, sys.bounded⟩).1

/-! ## The invariant -/

/-- Whom the server is serving, and for which request of the client. -/
def ServePc.serves : ServePc → Option (Word × Option Nat)
  | .reply whom request _ | .yield whom request _ => some (whom, request)
  | _ => none

/-- Only a blocked env waits for a message. -/
def Asleep (k : Kernel) (e : EnvIx) : Prop :=
  (k.envs e).envIpcRecving ≠ 0 → (k.envs e).envStatus = .notRunnable ∧ k.curenv ≠ some e

structure FsInv (c : EnvIx) (w : FsWorld) : Prop where
  live : LiveInv w.kernel
  bounded : Bounded w.kernel
  notServer : c ≠ fsEnv
  clientUsed : c ∉ w.kernel.envFreeList
  serverUsed : fsEnv ∉ w.kernel.envFreeList
  clientAsleep : Asleep w.kernel c
  serverAsleep : Asleep w.kernel fsEnv
  clientIdle : (∀ rq, w.client ≠ .wait rq) → (w.kernel.envs c).envIpcRecving = 0
  serverIdle : w.server ≠ .wait → (w.kernel.envs fsEnv).envIpcRecving = 0
  /-- What the server does for the client is for its last request. -/
  serving : ∀ whom request, w.server.serves = some (whom, request) →
    whom = (w.kernel.envs c).envId → request = some w.asked
  hears : w.server = .wait → (w.kernel.envs fsEnv).envIpcRecving = 0 →
    (w.kernel.envs fsEnv).envIpcFrom = (w.kernel.envs c).envId → w.heard = some w.asked
  answered : ∀ rq, w.client = .wait rq → (w.kernel.envs c).envIpcRecving = 0 → Answered c w

theorem LiveInv.envid_ne (inv : LiveInv k) {e x : EnvIx} (he : e ∉ k.envFreeList)
    (hx : x ∉ k.envFreeList) (hne : e ≠ x) : (k.envs e).envId ≠ (k.envs x).envId := fun same =>
  hne ((inv.ids e he).symm.trans (by rw [same]; exact inv.ids x hx))

theorem Asleep.next (asleep : Asleep k e) (same : SameIpc k k' e)
    (curenv : k'.curenv = k.curenv ∨ k'.RunsRunnable) : Asleep k' e := by
  intro waits
  rw [same.recving] at waits
  obtain ⟨blocked, notCurrent⟩ := asleep waits
  refine ⟨same.status.trans blocked, fun current => ?_⟩
  rcases curenv with kept | ⟨x, current', runnable⟩
  · exact notCurrent (kept.symm.trans current)
  · rw [current, Option.some.injEq] at current'
    subst current'
    rw [same.status, blocked] at runnable
    cases runnable

theorem Receives.asleep {dstva : Word} (receives : Receives k k' x dstva) : Asleep k' x := by
  refine fun _ => ⟨receives.status, fun current => ?_⟩
  obtain ⟨y, current', runnable⟩ := receives.runs
  rw [current, Option.some.injEq] at current'
  subst current'
  rw [receives.status] at runnable
  cases runnable

/-- The kernel goes on without a message to the client or the server. -/
theorem FsInv.quiet (inv : FsInv c w) {note : Note} (live : LiveInv k') (bounded : Bounded k')
    (envs : SameEnvs w.kernel k') (client : SameIpc w.kernel k' c)
    (server : SameIpc w.kernel k' fsEnv)
    (curenv : k'.curenv = w.kernel.curenv ∨ k'.RunsRunnable)
    (space : w.client = .idle ∨
      SameSpace w.kernel.pm.mem k'.pm.mem (w.kernel.envs c).envPgdir) :
    FsInv c (w.next k' note) := by
  have took : ∀ e, SameIpc w.kernel k' e → (w.next k' note).took e = w.took e := fun e same =>
    if_neg same.not_delivers
  refine ⟨live, bounded, inv.notServer, ?_, ?_, inv.clientAsleep.next client curenv,
    inv.serverAsleep.next server curenv, fun idle => ?_, fun idle => ?_,
      fun whom request h same => ?_,
    fun waits cleared same => ?_, fun rq waits cleared => ?_⟩
  · rw [show (w.next k' note).kernel.envFreeList = k'.envFreeList from rfl, envs.free]
    exact inv.clientUsed
  · rw [show (w.next k' note).kernel.envFreeList = k'.envFreeList from rfl, envs.free]
    exact inv.serverUsed
  · exact client.recving.trans (inv.clientIdle idle)
  · exact server.recving.trans (inv.serverIdle idle)
  · exact inv.serving whom request h (same.trans (envs.id c))
  · have heard := inv.hears waits (server.recving.symm.trans cleared)
      (server.sender.symm.trans (same.trans (envs.id c)))
    unfold FsWorld.heard
    rw [took fsEnv server]
    exact heard
  · obtain ⟨reply, entry, note', value, sender, perm, mapped⟩ :=
      inv.answered rq waits (client.recving.symm.trans cleared)
    refine ⟨reply, entry, (took c client).trans note', client.value.trans value,
      client.sender.trans (sender.trans (envs.id fsEnv).symm), client.perm.trans perm, ?_⟩
    have kept : SameSpace w.kernel.pm.mem k'.pm.mem (w.kernel.envs c).envPgdir :=
      space.resolve_left fun idle => by cases idle.symm.trans waits
    show pteAt k'.pm.mem (k'.envs c).envPgdir (k'.envs c).envIpcDstva = entry
    rw [envs.pgdir, client.dstva, kept.pteAt]
    exact mapped

/-- The client goes on in `fsipc`, but does not wait. -/
theorem FsInv.withClient (inv : FsInv c w) {pc : FsipcPc} (busy : ∀ rq, pc ≠ .wait rq)
    (idle : (w.kernel.envs c).envIpcRecving = 0) : FsInv c { w with client := pc } :=
  { inv with
    clientIdle := fun _ => idle
    answered := fun rq waits => absurd waits (busy rq) }

/-- The server goes on, but does not wait. -/
theorem FsInv.withServer (inv : FsInv c w) {pc : ServePc} (busy : pc ≠ .wait)
    (idle : (w.kernel.envs fsEnv).envIpcRecving = 0)
    (serving : ∀ whom request, pc.serves = some (whom, request) →
      whom = (w.kernel.envs c).envId → request = some w.asked) :
    FsInv c { w with server := pc } :=
  { inv with
    serverIdle := fun _ => idle
    serving := serving
    hears := fun waits => absurd waits busy }

section Messages

variable {envid value srcva perm : Word} {note : Note}

/-- The server takes a message; if it is the client's, it is its last request. -/
theorem FsInv.serverTakes (inv : FsInv c w) {pc : FsipcPc} {n : Nat} (live : LiveInv k')
    (bounded : Bounded k') (hx : x ∉ w.kernel.envFreeList)
    (sends : Sends w.kernel k' x envid value perm) (taken : Delivers w.kernel k' fsEnv)
    (runnable : (k'.envs fsEnv).envIpcRecving = 0) (spared : ¬ Delivers w.kernel k' c)
    (own : x = c → note = .request n)
    (idle : (∀ rq, pc ≠ .wait rq) → (w.kernel.envs c).envIpcRecving = 0)
    (kept : ∀ rq, pc = .wait rq → w.client = .wait rq ∧ n = w.asked) :
    FsInv c { w.next k' note with client := pc, asked := n } := by
  have waiting : w.server = .wait := by
    by_contra busy
    exact taken.1 (inv.serverIdle busy)
  have client := sends.others c spared
  refine ⟨live, bounded, inv.notServer, ?_, ?_, fun waits => ?_, fun waits => ?_, fun busy => ?_,
    fun _ => runnable, fun whom request h => ?_, fun _ _ same => ?_, fun rq waits cleared => ?_⟩
  · exact sends.envs.free ▸ inv.clientUsed
  · exact sends.envs.free ▸ inv.serverUsed
  · obtain ⟨blocked, notCurrent⟩ := inv.clientAsleep (client.recving ▸ waits)
    exact ⟨client.status.trans blocked, fun current => notCurrent (sends.curenv ▸ current)⟩
  · exact absurd runnable waits
  · exact client.recving.trans (idle busy)
  · rw [show ({ w.next k' note with client := pc, asked := n } : FsWorld).server = w.server from rfl,
      waiting] at h
    cases h
  · have sender : (k'.envs fsEnv).envIpcFrom = (w.kernel.envs x).envId :=
      (sends.taken fsEnv taken).2.2.1
    have mine : x = c := by
      by_contra hne
      exact inv.live.envid_ne hx inv.clientUsed hne
        (sender.symm.trans (same.trans (sends.envs.id c)))
    unfold FsWorld.heard
    rw [show ({ w.next k' note with client := pc, asked := n } : FsWorld).took fsEnv =
      ⟨note, k'.ipcEntry fsEnv⟩ from if_pos taken, own mine]
  · obtain ⟨waited, rfl⟩ := kept rq waits
    obtain ⟨reply, entry, took, value, sender, perm, mapped⟩ :=
      inv.answered rq waited (client.recving.symm.trans cleared)
    refine ⟨reply, entry, (if_neg spared).trans took, client.value.trans value,
      client.sender.trans (sender.trans (sends.envs.id fsEnv).symm), client.perm.trans perm, ?_⟩
    show pteAt k'.pm.mem (k'.envs c).envPgdir (k'.envs c).envIpcDstva = entry
    rw [sends.envs.pgdir, client.dstva, (sends.space c spared inv.clientUsed).pteAt]
    exact mapped

/-- The client takes a message of the server, which is serving it. -/
theorem FsInv.clientTakes (inv : FsInv c w) {request : Option Nat} {reply : FsReply}
    (live : LiveInv k') (bounded : Bounded k')
    (sends : Sends w.kernel k' fsEnv envid reply.value reply.perm)
    (current : w.kernel.curenv = some fsEnv)
    (serves : w.server.serves = some (envid, request)) (taken : Delivers w.kernel k' c)
    (spared : ¬ Delivers w.kernel k' fsEnv) :
    FsInv c (w.next k' (.answer request reply)) := by
  obtain ⟨lookup, value, sender, perm⟩ := sends.taken c taken
  have whom : envid = (w.kernel.envs c).envId := by
    rcases envid2env_ok lookup with ⟨-, self⟩ | ⟨-, -, -, named, -⟩
    · rw [current, Option.some.injEq] at self
      exact absurd self.symm inv.notServer
    · exact named.symm
  have last := inv.serving _ _ serves whom
  have server := sends.others fsEnv spared
  refine ⟨live, bounded, inv.notServer, ?_, ?_, fun waits => absurd taken.2 waits, fun waits => ?_,
    fun _ => taken.2, fun busy => server.recving.trans (inv.serverIdle busy),
    fun whom request h same => inv.serving whom request h (same.trans (sends.envs.id c)),
    fun waits => ?_, fun rq waits cleared => ?_⟩
  · exact sends.envs.free ▸ inv.clientUsed
  · exact sends.envs.free ▸ inv.serverUsed
  · obtain ⟨blocked, notCurrent⟩ := inv.serverAsleep (server.recving ▸ waits)
    exact ⟨server.status.trans blocked, fun current => notCurrent (sends.curenv ▸ current)⟩
  · rw [show (w.next k' (.answer request reply)).server = w.server from rfl] at waits
    rw [waits] at serves
    cases serves
  · exact ⟨reply, k'.ipcEntry c, (if_pos taken).trans (by rw [last]; rfl), value,
      sender.trans (sends.envs.id fsEnv).symm, perm, rfl⟩

/-- A message to neither of them. -/
theorem FsInv.elsewhere (inv : FsInv c w) (live : LiveInv k') (bounded : Bounded k')
    (sends : Sends w.kernel k' x envid value perm) (client : ¬ Delivers w.kernel k' c)
    (server : ¬ Delivers w.kernel k' fsEnv) : FsInv c (w.next k' note) :=
  inv.quiet live bounded sends.envs (sends.others c client) (sends.others fsEnv server)
    (.inl sends.curenv) (.inr (sends.space c client inv.clientUsed))

end Messages

/-! ## Runs -/

theorem FsInv.resumed (inv : FsInv c w) {note : Note} (live : LiveInv k') (bounded : Bounded k')
    (resumed : Resumed w.kernel k') : FsInv c (w.next k' note) :=
  inv.quiet live bounded resumed.sameEnvs (resumed.sameIpc c) (resumed.sameIpc fsEnv)
    (.inr resumed.runs) (.inr (by rw [resumed.pm]; exact .refl _ _))

/-- Some env waits for a message, and the others are left as they were. -/
theorem FsInv.received {dstva : Word} (inv : FsInv c w) (live : LiveInv k') (bounded : Bounded k')
    (receives : Receives w.kernel k' x dstva) {note : Note} (hc : x ≠ c) (hs : x ≠ fsEnv) :
    FsInv c (w.next k' note) :=
  inv.quiet live bounded receives.envs (receives.others c hc.symm)
    (receives.others fsEnv hs.symm) (.inr receives.runs)
      (.inr (by rw [receives.pm]; exact .refl _ _))

theorem FsInv.still (inv : FsInv c w) (note : Note) : FsInv c (w.next w.kernel note) :=
  inv.quiet inv.live inv.bounded ⟨rfl, fun _ => rfl, fun _ => rfl⟩ (.refl _ _) (.refl _ _)
    (.inl rfl) (.inr (.refl _ _))

/-- The client blocks in `ipc_recv`. -/
theorem FsInv.clientWaits {dstva : Word} {rq : FsRequest} (inv : FsInv c w) (live : LiveInv k')
    (bounded : Bounded k') (receives : Receives w.kernel k' c dstva) {note : Note} :
    FsInv c { w.next k' note with client := .wait rq } := by
  have server := receives.others fsEnv inv.notServer.symm
  refine ⟨live, bounded, inv.notServer, ?_, ?_, receives.asleep,
    inv.serverAsleep.next server (.inr receives.runs), fun idle => absurd rfl (idle rq),
    fun idle => server.recving.trans (inv.serverIdle idle),
    fun whom request h same => inv.serving whom request h (same.trans (receives.envs.id c)),
    fun waits cleared same => ?_, fun _ _ cleared => absurd cleared receives.recving⟩
  · exact receives.envs.free ▸ inv.clientUsed
  · exact receives.envs.free ▸ inv.serverUsed
  · have heard := inv.hears waits (server.recving.symm.trans cleared)
      (server.sender.symm.trans (same.trans (receives.envs.id c)))
    unfold FsWorld.heard
    rw [show ({ w.next k' note with client := .wait rq } : FsWorld).took fsEnv = w.took fsEnv from
      if_neg server.not_delivers]
    exact heard

/-- The server blocks in `ipc_recv`. -/
theorem FsInv.serverWaits {dstva : Word} (inv : FsInv c w) (live : LiveInv k')
    (bounded : Bounded k') (receives : Receives w.kernel k' fsEnv dstva) {note : Note} :
    FsInv c { w.next k' note with server := .wait } := by
  have client := receives.others c inv.notServer
  refine ⟨live, bounded, inv.notServer, ?_, ?_, inv.clientAsleep.next client (.inr receives.runs),
    receives.asleep, fun idle => client.recving.trans (inv.clientIdle idle),
    fun idle => absurd rfl idle, fun whom request h => (by cases h),
    fun _ cleared => absurd cleared receives.recving, fun rq waits cleared => ?_⟩
  · exact receives.envs.free ▸ inv.clientUsed
  · exact receives.envs.free ▸ inv.serverUsed
  · obtain ⟨reply, entry, took, value, sender, perm, mapped⟩ :=
      inv.answered rq waits (client.recving.symm.trans cleared)
    refine ⟨reply, entry, (if_neg client.not_delivers).trans took, client.value.trans value,
      client.sender.trans (sender.trans (receives.envs.id fsEnv).symm), client.perm.trans perm, ?_⟩
    show pteAt k'.pm.mem (k'.envs c).envPgdir (k'.envs c).envIpcDstva = entry
    rw [receives.envs.pgdir, client.dstva, receives.pm]
    exact mapped

/-- What one move preserves. -/
theorem FsInv.step (inv : FsInv c w) (step : fsStep c w move w') (private' : ¬ move.Intrudes c) :
    FsInv c w' := by
  have used : ∀ {x}, w.kernel.curenv = some x → x ∉ w.kernel.envFreeList := fun current =>
    (inv.live.current _ current).1
  cases step with
  | trap tf =>
      have after := @kernelStep_preserves _ { w.kernel with kstackTf := tf } (.trap tf)
        ⟨inv.live, inv.bounded⟩ ⟨trivial, rfl, inv.bounded⟩
      exact inv.quiet after.1 after.2 ⟨rfl, fun _ => rfl, fun _ => rfl⟩ (.of_env rfl) (.of_env rfl)
        (.inl rfl) (.inr (.refl _ _))
  | tick exec bounded =>
      exact inv.resumed (inv.live.schedule exec) bounded (schedule_ok exec).1
  | call pc => exact inv.withClient (by simp) (inv.clientIdle (by simp [pc]))
  | @clientSend k' r rq pc sys =>
      have sends := sys.sends inv.live inv.bounded
      have live := sys.live inv.live inv.bounded
      have idle := inv.clientIdle (by simp [pc])
      have spared : ¬ Delivers w.kernel k' c := fun took => took.1 idle
      have busy : ∀ rq', FsipcPc.sent rq r ≠ .wait rq' := by
        intro rq'
        unfold FsipcPc.sent
        split <;> simp
      by_cases taken : Delivers w.kernel k' fsEnv
      · rw [if_pos taken]
        exact inv.serverTakes live sys.bounded (used sys.current) sends taken taken.2 spared
          (fun _ => rfl) (fun _ => idle) fun rq' waits => absurd waits (busy rq')
      · rw [if_neg taken]
        exact (inv.elsewhere live sys.bounded sends spared taken).withClient busy
          ((sends.others c spared).recving.trans idle)
  | @clientYield k' r rq pc sys =>
      have resumed := sys.yields
      have idle := inv.clientIdle (by simp [pc])
      exact (inv.resumed (sys.live inv.live inv.bounded) sys.bounded resumed).withClient (by simp)
        ((resumed.sameIpc c).recving.trans idle)
  | @clientRecv k' r rq pc sys =>
      have idle := inv.clientIdle (by simp [pc])
      rcases sysIpcRecv_receives sys.current sys.exec with ⟨rfl, failed⟩ | ⟨ok, receives⟩
      · rw [if_neg failed]
        exact (inv.still .stray).withClient (by simp) idle
      · rw [if_pos ok]
        exact inv.clientWaits (sys.live inv.live inv.bounded) sys.bounded receives
  | clientReturn pc current =>
      refine inv.withClient (by simp) ?_
      by_contra waits
      exact (inv.clientAsleep waits).2 current
  | @serverRecv k' r pc sys =>
      have idle := inv.serverIdle (by simp [pc])
      rcases sysIpcRecv_receives sys.current sys.exec with ⟨rfl, failed⟩ | ⟨ok, receives⟩
      · rw [if_neg failed]
        exact (inv.still .stray).withServer (by simp) idle (by simp [ServePc.serves])
      · rw [if_pos ok]
        exact inv.serverWaits (sys.live inv.live inv.bounded) sys.bounded receives
  | hear replies pc current =>
      have cleared : (w.kernel.envs fsEnv).envIpcRecving = 0 := by
        by_contra waits
        exact (inv.serverAsleep waits).2 current
      refine inv.withServer (by simp) cleared fun whom request serves same => ?_
      cases serves
      exact inv.hears pc cleared same
  | @serverSend k' r whom request reply replies pc sys =>
      have sends := sys.sends inv.live inv.bounded
      have live := sys.live inv.live inv.bounded
      have idle := inv.serverIdle (by simp [pc])
      have spared : ¬ Delivers w.kernel k' fsEnv := fun took => took.1 idle
      have after : FsInv c (w.next k' (.answer request reply)) := by
        by_cases taken : Delivers w.kernel k' c
        · exact inv.clientTakes live sys.bounded sends sys.current (by rw [pc]; rfl) taken spared
        · exact inv.elsewhere live sys.bounded sends taken spared
      refine after.withServer ?_ ((sends.others fsEnv spared).recving.trans idle)
        fun whom' request' serves same => ?_
      · unfold ServePc.sent
        split <;> simp
      · refine inv.serving whom' request' ?_ (same.trans (sends.envs.id c))
        rw [pc]
        revert serves
        unfold ServePc.sent
        split <;> simp [ServePc.serves]
  | @serverYield k' r whom request replies pc sys =>
      have resumed := sys.yields
      have idle := inv.serverIdle (by simp [pc])
      refine (inv.resumed (sys.live inv.live inv.bounded) sys.bounded resumed).withServer (by simp)
        ((resumed.sameIpc fsEnv).recving.trans idle) fun whom' request' serves same => ?_
      refine inv.serving whom' request' ?_ (same.trans (resumed.sameEnvs.id c))
      rw [pc]
      exact serves
  | done pc =>
      exact inv.withServer (by simp) (inv.serverIdle (by simp [pc])) (by simp [ServePc.serves])
  | @send k' r x whom value srcva perm taker other sys takes =>
      have sends := sys.sends inv.live inv.bounded
      have live := sys.live inv.live inv.bounded
      have client : ¬ Delivers w.kernel k' c := fun took => private' ((takes c).mpr took)
      by_cases taken : Delivers w.kernel k' fsEnv
      · exact inv.serverTakes live sys.bounded (used sys.current) sends taken taken.2 client
          (fun eq => absurd eq other.1) inv.clientIdle fun rq waits => ⟨waits, rfl⟩
      · exact inv.elsewhere live sys.bounded sends client taken
  | @recv k' r x dstva other sys =>
      rcases sysIpcRecv_receives sys.current sys.exec with ⟨rfl, -⟩ | ⟨-, receives⟩
      · exact inv.still .stray
      · exact inv.received (sys.live inv.live inv.bounded) sys.bounded receives other.1 other.2
  | @yield k' r x other sys =>
      exact inv.resumed (sys.live inv.live inv.bounded) sys.bounded sys.yields
  | @memory k' r x call onMemory stranger sys =>
      obtain ⟨⟨pm, rfl⟩, space⟩ := sys.onMemory inv.live inv.bounded onMemory
      exact inv.quiet (sys.live inv.live inv.bounded) sys.bounded ⟨rfl, fun _ => rfl, fun _ => rfl⟩
        (.of_env rfl) (.of_env rfl) (.inl rfl)
        (stranger.imp_right fun h => space c h inv.clientUsed)

theorem FsInv.of_begins (live : LiveInv w.kernel) (bounded : Bounded w.kernel)
    (begins : FsBegins c w) : FsInv c w where
  live := live
  bounded := bounded
  notServer := begins.notServer
  clientUsed := begins.clientUsed
  serverUsed := begins.serverUsed
  clientAsleep waits := absurd begins.clientIdle waits
  serverAsleep waits := by
    rcases begins.server with ⟨-, idle⟩ | ⟨-, -, blocked, notCurrent⟩
    · exact absurd idle waits
    · exact ⟨blocked, notCurrent⟩
  clientIdle _ := begins.clientIdle
  serverIdle busy := by
    rcases begins.server with ⟨-, idle⟩ | ⟨waits, -⟩
    · exact idle
    · exact absurd waits busy
  serving whom request serves := by
    rcases begins.server with ⟨pc, -⟩ | ⟨pc, -⟩
    all_goals rw [pc] at serves; cases serves
  hears waits cleared := by
    rcases begins.server with ⟨pc, -⟩ | ⟨-, waiting, -⟩
    · rw [pc] at waits
      cases waits
    · exact absurd cleared waiting
  answered rq waits := by
    rw [begins.client] at waits
    cases waits

/-- As long as no message of another env reaches the client, it goes on once a message is
there, and that is what the server sent in answer to its request. -/
theorem fsipc_answered {s₀ : Kernel} {ops : List KernelOp} (boot : envInit b = .ok s₀)
    (before : Run kernelStep s₀ ops w.kernel) (begins : FsBegins c w)
    (run : Run (fsStep c) w moves w') (undisturbed : ∀ move ∈ moves, ¬ move.Intrudes c) :
    ∀ rq, w'.client = .wait rq →
      (w'.kernel.curenv = some c → (w'.kernel.envs c).envIpcRecving = 0) ∧
        ((w'.kernel.envs c).envIpcRecving = 0 → Answered c w') := by
  obtain ⟨live, bounded⟩ := kernelRun_inv boot before
  have inv : FsInv c w' := by
    induction run with
    | refl => exact .of_begins live bounded begins
    | snoc run step ih =>
        exact (ih fun move h => undisturbed move (List.mem_append_left _ h)).step step
          (undisturbed _ (List.mem_append_right _
            List.mem_cons_self))
  refine fun rq waits => ⟨fun current => ?_, inv.answered rq waits⟩
  by_contra waiting
  exact (inv.clientAsleep waiting).2 current

/-! ## On `smallBoot` -/

/-- `sys_ipc_recv` gives the processor to the first env that is left on the queue. -/
theorem sysIpcRecv_eq {s : Kernel} {cur : EnvIx} {q q' : Tailq EnvIx} {dstva : Word}
    (legal : ¬ (dstva ≠ 0 ∧ isIllegalVa dstva)) (hcur : s.curenv = some cur)
    (removed : s.envSchedList.remove cur = some q) (left : q.tqhFirst = some x)
    (again : q.remove cur = some q') (first : q'.tqhFirst = some x) (hne : x ≠ cur)
    (runnable : (s.envs x).envStatus = .runnable) :
    ∃ s', sysIpcRecv s dstva = .ok (s', .ok 0) ∧ s'.curenv = some x := by
  have current : s.current = .ok cur := by rw [Kernel.current, hcur]
  have off : ((s.await cur dstva q).envs cur).envStatus = .notRunnable := by
    rw [Kernel.await_env, if_pos rfl]
  have on : ((s.await cur dstva q).envs x).envStatus = .runnable := by
    rw [Kernel.await_env, if_neg hne]
    exact runnable
  obtain ⟨s', run, current', -⟩ := envRun_runnable (s := { s.await cur dstva q with
    curenv := some cur, schedCount := ((s.await cur dstva q).envs x).envPri,
    envSchedList := q' }) on
  have scheduled : Mos.schedule (s.await cur dstva q) true = .ok s' := by
    have isCur : (s.await cur dstva q).curenv = some cur := hcur
    have queue : (s.await cur dstva q).envSchedList = q := rfl
    simp only [Mos.schedule, isCur, queue, left, true_or, if_true, Option.some_ne_none, if_false,
      off, Kernel.schedRemove, again, Bind.bind, Except.bind, runFirst, first, reduceCtorEq]
    exact run
  refine ⟨s', ?_, current'⟩
  have queue : (ipcAwait s cur dstva).envSchedList = s.envSchedList := rfl
  simp only [sysIpcRecv, if_neg legal, current, Bind.bind, Except.bind, Kernel.schedRemove, queue,
    removed]
  split
  case h_1 panic failed => cases scheduled.symm.trans failed
  case h_2 s'' run' =>
      cases scheduled.symm.trans run'
      rfl

set_option maxRecDepth 2000 in
/-- The second env of `smallBoot` waits for a request, and the first one runs. -/
theorem twoEnvs_serving (pm : Pmap) : ∃ s₁ s₂, schedule (twoEnvs pm) false = .ok s₁ ∧
    s₁.curenv = some 1 ∧ sysIpcRecv s₁ reqva = .ok (s₂, .ok 0) ∧ s₂.curenv = some 0 ∧
    s₂.asidBitmap = (twoEnvs pm).asidBitmap ∧ s₂.envFreeList = laterSlots ∧
    s₂.pm = (twoEnvs pm).pm ∧ (s₂.envs 1).envIpcRecving = 1 ∧
    (s₂.envs 1).envStatus = .notRunnable ∧ (s₂.envs 1).envId = ((twoEnvs pm).envs 1).envId ∧
    (s₂.envs 0).envIpcRecving = 0 ∧ (s₂.envs 0).envStatus = .runnable ∧
    (s₂.envs 0).envId = ((twoEnvs pm).envs 0).envId ∧
    (∃ q q', (s₂.envSchedList.insertTail 1).remove 0 = some q ∧ q.tqhFirst = some 1 ∧
      q.remove 0 = some q' ∧ q'.tqhFirst = some 1) ∧
    ∃ q q', ((s₂.envSchedList.insertHead 2).insertTail 1).remove 0 = some q ∧
      q.tqhFirst = some 2 ∧ q.remove 0 = some q' ∧ q'.tqhFirst = some 2 :=
  ⟨_, _, rfl, rfl, rfl, rfl, rfl, rfl, rfl, rfl, rfl, rfl, rfl, rfl, rfl,
    ⟨_, _, rfl, rfl, rfl, rfl⟩, _, _, rfl, rfl, rfl, rfl⟩

/-- `smallBoot` gets there. -/
theorem serving_run : ∃ pm s₀ s, envInit smallBoot = .ok s₀ ∧
    Run kernelStep s₀ (tickOps ++ [.sys (.ipcRecv reqva)]) s ∧ s.pm = (twoEnvs pm).pm ∧
    s.curenv = some 0 ∧ s.asidBitmap = (twoEnvs pm).asidBitmap ∧ s.envFreeList = laterSlots ∧
    (s.envs 1).envIpcRecving = 1 ∧ (s.envs 1).envStatus = .notRunnable ∧
    (s.envs 1).envId = 4097 ∧ (s.envs 0).envIpcRecving = 0 ∧ (s.envs 0).envStatus = .runnable ∧
    (s.envs 0).envId = 2048 ∧
    (∃ q q', (s.envSchedList.insertTail 1).remove 0 = some q ∧ q.tqhFirst = some 1 ∧
      q.remove 0 = some q' ∧ q'.tqhFirst = some 1) ∧
    ∃ q q', ((s.envSchedList.insertHead 2).insertTail 1).remove 0 = some q ∧
      q.tqhFirst = some 2 ∧ q.remove 0 = some q' ∧ q'.tqhFirst = some 2 := by
  obtain ⟨pm, s₁, boot, create₁, create₂, bounded₁, -, bounded₂⟩ := twoEnvs_boot
  obtain ⟨s₂, s₃, tick, current₂, recv, current₃, asids, free, memory, recving, blocked, id₁,
    idle, runnable, id₀, queues⟩ := twoEnvs_serving pm
  have resumed := (schedule_ok tick).1
  have bounded₃ := bounded₂.resumed resumed
  have bounded₄ : Bounded s₃ := by
    rcases sysIpcRecv_receives current₂ recv with ⟨-, failed⟩ | ⟨-, receives⟩
    · exact absurd rfl failed
    · exact receives.bounded bounded₃
  have first : kernelStep (kernelInit pm 335) (.envCreate ⟨[], 0⟩ 1) s₁ :=
    ⟨by simp [KernelOp.Enabled], ⟨_, create₁⟩, bounded₁⟩
  have second : kernelStep s₁ (.envCreate ⟨[], 0⟩ 1) (twoEnvs pm) :=
    ⟨by simp [KernelOp.Enabled], ⟨_, create₂⟩, bounded₂⟩
  have third : kernelStep (twoEnvs pm) .tick s₂ := ⟨trivial, tick, bounded₃⟩
  have fourth : kernelStep s₂ (.sys (.ipcRecv reqva)) s₃ :=
    ⟨⟨⟨_, current₂⟩, trivial⟩, ⟨_, recv⟩, bounded₄⟩
  exact ⟨pm, _, s₃, boot, (((Run.single first).snoc second).snoc third).snoc fourth, memory,
    current₃, asids, free, recving, blocked, id₁.trans (twoEnvs_envId pm).2, idle, runnable,
    id₀.trans (twoEnvs_envId pm).1, queues⟩

/-- `fsipc_sync`, without its page. -/
def syncRequest : FsRequest := ⟨7, 0, 0⟩

/-- A message without a page is delivered. -/
theorem calls_send {s : Kernel} {cur t : EnvIx} {envid value perm : Word} (bounded : Bounded s)
    (hcur : s.curenv = some cur) (lookup : envid2env s envid false = .ok (.ok t))
    (waits : (s.envs t).envIpcRecving ≠ 0) (legal : perm < 0x1000#32) :
    Calls s cur (.ipcTrySend envid value 0 perm) (ipcDeliver s cur t value perm) (.ok 0) where
  current := hcur
  legal := legal
  exec := by
    have current : s.current = .ok cur := by rw [Kernel.current, hcur]
    simp only [SysCall.exec, sysIpcTrySend, lookup, tryRet, current, Bind.bind, Except.bind,
      if_neg waits]
    rfl
  bounded p := by
    rw [ipcDeliver_dirs]
    exact bounded p

theorem delivers_ipcDeliver {s : Kernel} {cur t : EnvIx} {value perm : Word}
    (waits : (s.envs t).envIpcRecving ≠ 0) : Delivers s (ipcDeliver s cur t value perm) t :=
  ⟨waits, by rw [ipcDeliver_env, if_pos rfl]⟩

/-- The first env asks the second one, which waits for a request, and waits for the
answer; `x` runs next. -/
theorem sync_waits {s : Kernel} (bounded : Bounded s) (took : EnvIx → Took)
    (hcur : s.curenv = some 0) (lookup : envid2env s (s.envs 1).envId false = .ok (.ok 1))
    (waits : (s.envs 1).envIpcRecving ≠ 0)
    (queue : ∃ q q', (s.envSchedList.insertTail 1).remove 0 = some q ∧ q.tqhFirst = some x ∧
      q.remove 0 = some q' ∧ q'.tqhFirst = some x)
    (hne : x ≠ 0) (runnable : x = 1 ∨ (s.envs x).envStatus = .runnable) :
    ∃ w, Run (fsStep 0) ⟨s, .idle, .wait, 0, took⟩ [.call syncRequest, .client, .client] w ∧
      w.client = .wait syncRequest ∧ w.server = .wait ∧ w.asked = 1 ∧
      (w.took 1).note = .request 1 ∧ w.kernel.curenv = some x ∧
      Receives (ipcDeliver s 0 1 7 pteD) w.kernel 0 0 ∧ Bounded w.kernel := by
  have taken : Delivers s (ipcDeliver s 0 1 7 pteD) 1 := delivers_ipcDeliver waits
  have sends := @calls_send _ _ _ _ 7 pteD bounded hcur lookup waits (by decide)
  obtain ⟨q, q', removed, left, again, first⟩ := queue
  have on : ((ipcDeliver s 0 1 7 pteD).envs x).envStatus = .runnable := by
    rw [ipcDeliver_env]
    split
    · rfl
    · exact runnable.resolve_left (by assumption)
  have hcur' : (ipcDeliver s 0 1 7 pteD).curenv = some 0 := hcur
  obtain ⟨k₂, recv, current⟩ := @sysIpcRecv_eq _ _ _ _ _ 0 (by simp) hcur' removed left again first
    hne on
  rcases sysIpcRecv_receives hcur' recv with ⟨-, failed⟩ | ⟨-, receives⟩
  · exact absurd rfl failed
  have bounded₂ := receives.bounded sends.bounded
  have call := @fsStep.call 0 ⟨s, .idle, .wait, 0, took⟩ syncRequest rfl
  have ask := @fsStep.clientSend 0 ⟨s, .send syncRequest, .wait, 0, took⟩ _ _ _ rfl sends
  rw [if_pos taken] at ask
  have wait := @fsStep.clientRecv 0
    { FsWorld.next ⟨s, .send syncRequest, .wait, 0, took⟩ (ipcDeliver s 0 1 7 pteD) (.request 1)
      with client := .recv syncRequest, asked := 1 } _ _ syncRequest rfl ⟨hcur', trivial, recv,
        bounded₂⟩
  refine ⟨_, ((Run.single call).snoc ask).snoc wait, rfl, rfl, rfl, ?_, current, receives, bounded₂⟩
  have kept : ¬ Delivers (ipcDeliver s 0 1 7 pteD) k₂ 1 :=
    (receives.others 1 (by decide)).not_delivers
  simp only [FsWorld.next, if_neg kept, if_pos taken]

/-- The first env is a client, the second one the server. -/
theorem serving_begins {s : Kernel} (live : LiveInv s) (hcur : s.curenv = some 0)
    (waits : (s.envs 1).envIpcRecving ≠ 0) (blocked : (s.envs 1).envStatus = .notRunnable)
    (found : envid2env s (s.envs 1).envId false = .ok (.ok 1))
    (idle : (s.envs 0).envIpcRecving = 0) (took : EnvIx → Took) :
    FsBegins 0 ⟨s, .idle, .wait, 0, took⟩ where
  client := rfl
  notServer := by decide
  clientUsed := (live.current 0 hcur).1
  serverUsed := live.envid2env found
  clientIdle := idle
  server := .inr ⟨rfl, waits, blocked, fun current => by
    rw [show s.curenv = _ from current, Option.some.injEq] at hcur
    exact absurd hcur (by decide)⟩

/-- The server answers, and the client has the answer. -/
theorem fsipc_answered_sync : ∃ (s₀ : Kernel) (ops : List KernelOp) (w w' : FsWorld)
    (moves : List FsMove), envInit smallBoot = .ok s₀ ∧ Run kernelStep s₀ ops w.kernel ∧
    FsBegins 0 w ∧ Run (fsStep 0) w moves w' ∧ w'.client = .wait syncRequest ∧ Answered 0 w' := by
  obtain ⟨pm, s₀, s, boot, before, -, hcur, -, free, recving, blocked, id₁, idle, runnable, id₀,
    queue, -⟩ := serving_run
  obtain ⟨live, bounded⟩ := kernelRun_inv boot before
  have waits : (s.envs 1).envIpcRecving ≠ 0 := by
    rw [recving]
    decide
  have found : envid2env s (s.envs 1).envId false = .ok (.ok 1) := by
    rw [id₁]
    exact envid2env_eq (by decide) rfl (by rw [blocked]; simp) id₁
  obtain ⟨w, run, pc, server, asked, note, current, receives, bounded'⟩ :=
    sync_waits bounded (fun _ => ⟨.stray, none⟩) hcur found waits queue (by decide) (.inl rfl)
  have hear := fsStep.hear (c := 0) [⟨0, 0, 0⟩] server current
  have sender : (w.kernel.envs 1).envIpcFrom = 2048 := by
    rw [(receives.others 1 (by decide)).sender, ipcDeliver_env, if_pos rfl]
    exact id₀
  have client : (w.kernel.envs 0).envId = 2048 := by
    rw [receives.envs.id, ipcDeliver_env, if_neg (by decide)]
    exact id₀
  have lookup : envid2env w.kernel (w.kernel.envs 1).envIpcFrom false = .ok (.ok 0) := by
    rw [sender]
    exact envid2env_eq (by decide) rfl (by rw [receives.status]; simp) client
  have sends := @calls_send _ _ _ _ 0 0 bounded' current lookup receives.recving
    (by decide)
  have answer := @fsStep.serverSend 0 { w with
    server := .reply (w.kernel.envs fsEnv).envIpcFrom w.heard [⟨0, 0, 0⟩] } _ _ _ _ _ _ rfl sends
  have begins := serving_begins live hcur waits blocked found idle fun _ => ⟨.stray, none⟩
  have whole := (run.snoc hear).snoc answer
  have private' : ∀ move ∈ [FsMove.call syncRequest, .client, .client] ++ [.hear [⟨0, 0, 0⟩]] ++
      [.server], ¬ move.Intrudes 0 := by simp [FsMove.Intrudes]
  have cleared : ((ipcDeliver w.kernel 1 0 0 0).envs 0).envIpcRecving = 0 :=
    (delivers_ipcDeliver receives.recving).2
  exact ⟨s₀, _, _, _, _, boot, before, begins, whole, pc,
    (fsipc_answered boot before begins whole private' syncRequest pc).2 cleared⟩

theorem freeAsid_third (pm : Pmap) : freeAsid (twoEnvs pm).asidBitmap = some 2 := by
  have first : ((kernelInit pm 335).spawn 0 (1 :: laterSlots) 332 (331 :: sparePages) 0).asidBitmap =
      Function.update (fun _ => 0) 0 (0 ||| asidBit 0) := rfl
  have second : (twoEnvs pm).asidBitmap = Function.update
      ((kernelInit pm 335).spawn 0 (1 :: laterSlots) 332 (331 :: sparePages) 0).asidBitmap 0
        (((kernelInit pm 335).spawn 0 (1 :: laterSlots) 332 (331 :: sparePages) 0).asidBitmap 0 |||
          asidBit 1) := rfl
  rw [second, first]
  decide

theorem laterSlots_eq_cons : ∃ rest, laterSlots = 2 :: rest := by
  unfold laterSlots
  rw [List.finRange_succ, List.map_cons, List.map_cons]
  exact ⟨_, rfl⟩

/-- Without the condition the client can take the message of a third env for the answer. -/
theorem fsipc_not_answered : ¬ ∀ (b : Boot) (s₀ : Kernel) (ops : List KernelOp) (c : EnvIx)
    (w w' : FsWorld) (moves : List FsMove), envInit b = .ok s₀ → Run kernelStep s₀ ops w.kernel →
    FsBegins c w → Run (fsStep c) w moves w' → ∀ rq, w'.client = .wait rq →
      (w'.kernel.curenv = some c → (w'.kernel.envs c).envIpcRecving = 0) ∧
        ((w'.kernel.envs c).envIpcRecving = 0 → Answered c w') := by
  intro always
  obtain ⟨pm, s₀, s, boot, before, memory, hcur, asids, free, recving, blocked, id₁, idle, runnable,
    id₀, -, queue⟩ := serving_run
  obtain ⟨live, bounded⟩ := kernelRun_inv boot before
  obtain ⟨rest, slots⟩ := laterSlots_eq_cons
  have hfree : s.envFreeList = 2 :: rest := free.trans slots
  have pages : s.pm.pageFreeList = 330 :: 329 :: (List.range' 313 16).reverse := by
    rw [memory]
    show sparePages = _
    decide
  have third : freeAsid s.asidBitmap = some 2 := by
    rw [asids]
    exact freeAsid_third pm
  have created : kernelStep s (.envCreate ⟨[], 0⟩ 1) (s.spawn 2 rest 330 _ 2) :=
    ⟨by simp [KernelOp.Enabled], ⟨2, live.inv.envCreate_eq hfree pages third⟩,
      live.inv.bounded_spawn hfree pages bounded⟩
  have before' := before.snoc created
  obtain ⟨live', bounded'⟩ := kernelRun_inv boot before'
  generalize (329 :: (List.range' 313 16).reverse) = spare at before' live' bounded'
  have kept : ∀ e, e ≠ 2 → (s.spawn 2 rest 330 spare 2).envs e = s.envs e := by
    intro e hne
    simp [Kernel.spawn, Kernel.newEnv, Kernel.setupEnv, Kernel.admitEnv, Kernel.setEnv, hne]
  have on : ((s.spawn 2 rest 330 spare 2).envs 2).envStatus = .runnable := by
    simp [Kernel.spawn, Kernel.setEnv]
  have zero := kept 0 (by decide)
  have one := kept 1 (by decide)
  have waits : ((s.spawn 2 rest 330 spare 2).envs 1).envIpcRecving ≠ 0 := by
    rw [one, recving]
    decide
  have found : envid2env (s.spawn 2 rest 330 spare 2) ((s.spawn 2 rest 330 spare 2).envs 1).envId
      false = .ok (.ok 1) := by
    rw [one, id₁]
    exact envid2env_eq (by decide) rfl (by rw [one, blocked]; simp) (by rw [one, id₁])
  obtain ⟨w, run, pc, server, asked, note, current, receives, bounded₂⟩ :=
    sync_waits bounded' (fun _ => ⟨.stray, none⟩) hcur found waits queue (by decide) (.inr on)
  have client : (w.kernel.envs 0).envId = 2048 := by
    rw [receives.envs.id, ipcDeliver_env, if_neg (by decide), zero]
    exact id₀
  have lookup : envid2env w.kernel 2048 false = .ok (.ok 0) :=
    envid2env_eq (by decide) rfl (by rw [receives.status]; simp) client
  have sends := @calls_send _ _ _ _ 42 0 bounded₂ current lookup receives.recving
    (by decide)
  have taken : Delivers w.kernel (ipcDeliver w.kernel 2 0 42 0) 0 :=
    delivers_ipcDeliver receives.recving
  have intrude := @fsStep.send 0 w _ _ _ _ _ _ _ (some 0) ⟨by decide, by decide⟩ sends
    fun e => by
      constructor
      · intro same
        cases same
        exact taken
      · intro took
        by_contra other
        refine SameIpc.not_delivers (.of_env ?_) took
        rw [ipcDeliver_env, if_neg fun same => other (by rw [same])]
  have begins := serving_begins live' hcur waits (by rw [one, blocked]) found
    (by rw [zero, idle]) fun _ => ⟨.stray, none⟩
  obtain ⟨reply, entry, answered, -⟩ :=
    (always _ _ _ 0 _ _ _ boot before' begins (run.snoc intrude) syncRequest pc).2 taken.2
  have stray : (w.next (ipcDeliver w.kernel 2 0 42 0) .stray).took 0 = ⟨.stray, _⟩ := if_pos taken
  rw [stray] at answered
  cases answered

end Mos
