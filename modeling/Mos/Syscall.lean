import Mos.Sched

/-!
# System calls

The system calls of `kern/syscall_all.c` that act on envs and their memory. A
call returns the new state with its result; for one that gives up the processor
the result is what the caller finds in `$v0` when it runs again.
-/

namespace Mos

/-- What a system call returns: `-E_*` or the value in `$v0`. -/
abbrev Ret := Except Err Word

/-- `try`: go on with the result, or return the error. -/
def tryRet {α β : Type} (r : Except Err α) (s : Kernel)
    (k : α → Except Panic (Kernel × Except Err β)) : Except Panic (Kernel × Except Err β) :=
  match r with
  | .ok a => k a
  | .error err => .ok (s, .error err)

/-- A call that returns 0 on success. -/
def zeroRet (r : Except Err Unit) : Ret := r.map fun _ => 0

def isIllegalVa (va : Word) : Prop := va < utemp ∨ utop ≤ va

instance (va : Word) : Decidable (isIllegalVa va) := inferInstanceAs (Decidable (_ ∨ _))

def isIllegalVaRange (va len : Word) : Prop :=
  len ≠ 0 ∧ (va + len < va ∨ va < utemp ∨ utop < va + len)

instance (va len : Word) : Decidable (isIllegalVaRange va len) :=
  inferInstanceAs (Decidable (_ ∧ _))

def sysYield (s : Kernel) : Except Panic Kernel := schedule s true

def sysEnvDestroy (s : Kernel) (envid : Word) : Except Panic (Kernel × Ret) := do
  tryRet (← envid2env s envid true) s fun e => do
    let s ← envDestroy s e
    .ok (s, .ok 0)

def sysSetTlbModEntry (s : Kernel) (envid func : Word) : Except Panic (Kernel × Ret) := do
  tryRet (← envid2env s envid false) s fun e =>
    .ok (s.setEnv e fun env => { env with envUserTlbModEntry := func }, .ok 0)

def sysMemAlloc (s : Kernel) (envid va perm : Word) : Except Panic (Kernel × Ret) :=
  if isIllegalVa va then .ok (s, .error .inval)
  else do
    match ← envid2env s envid true with
    | .error _ => .ok (s, .error .badEnv)
    | .ok e => do
        let (pm, r) ← pageAlloc s.pm
        tryRet r (s.withPm pm) fun pp => do
          let (pm, r) ← pageInsert pm (s.envs e).envPgdir (s.envs e).envAsid pp va perm
          .ok (s.withPm pm, zeroRet r)

def sysMemMap (s : Kernel) (srcid srcva dstid dstva perm : Word) : Except Panic (Kernel × Ret) :=
  if isIllegalVa srcva ∨ isIllegalVa dstva then .ok (s, .error .inval)
  else do
    match ← envid2env s srcid true with
    | .error _ => .ok (s, .error .badEnv)
    | .ok srcenv => do
        match ← envid2env s dstid true with
        | .error _ => .ok (s, .error .badEnv)
        | .ok dstenv => do
            match ← pageLookup s.pm (s.envs srcenv).envPgdir srcva with
            | none => .ok (s, .error .inval)
            | some (pp, _) => do
                let (pm, r) ←
                  pageInsert s.pm (s.envs dstenv).envPgdir (s.envs dstenv).envAsid pp dstva perm
                .ok (s.withPm pm, zeroRet r)

def sysMemUnmap (s : Kernel) (envid va : Word) : Except Panic (Kernel × Ret) :=
  if isIllegalVa va then .ok (s, .error .inval)
  else do
    match ← envid2env s envid true with
    | .error _ => .ok (s, .error .badEnv)
    | .ok e => do
        let pm ← pageRemove s.pm (s.envs e).envPgdir (s.envs e).envAsid va
        .ok (s.withPm pm, .ok 0)

def sysExofork (s : Kernel) : Except Panic (Kernel × Ret) := do
  let cur ← s.current
  let (s, r) ← envAlloc s (s.envs cur).envId
  tryRet r s fun e =>
    let s := s.setEnv e fun env =>
      { env with
        envTf := { s.kstackTf with regs := Function.update s.kstackTf.regs 2 0 }
        envStatus := .notRunnable
        envPri := (s.envs cur).envPri }
    .ok (s, .ok (s.envs e).envId)

/-- The status a user names, if it is one it can set. -/
def userEnvStatus (status : Word) : Option EnvStatus :=
  if status = 1 then some .runnable else if status = 2 then some .notRunnable else none

/-- Step 3 of `sys_set_env_status`: update the queue if the status changes. -/
def requeue (s : Kernel) (e : EnvIx) (status : EnvStatus) : Except Panic Kernel :=
  let s := if status = .runnable ∧ (s.envs e).envStatus = .notRunnable then s.schedInsertTail e
    else s
  if status = .notRunnable ∧ (s.envs e).envStatus = .runnable then s.schedRemove e else .ok s

def sysSetEnvStatus (s : Kernel) (envid status : Word) : Except Panic (Kernel × Ret) :=
  match userEnvStatus status with
  | none => .ok (s, .error .inval)
  | some status => do
      tryRet (← envid2env s envid false) s fun e => do
        let s ← requeue s e status
        .ok (s.setEnv e fun env => { env with envStatus := status }, .ok 0)

/-- `sizeof(struct Trapframe)`. -/
def sizeofTrapframe : Word := 152#32

/-- `sys_set_trapframe`, where `tf` is what the caller's memory holds at `va`. -/
def sysSetTrapframe (s : Kernel) (envid va : Word) (tf : Trapframe) :
    Except Panic (Kernel × Ret) :=
  if isIllegalVaRange va sizeofTrapframe then .ok (s, .error .inval)
  else do
    tryRet (← envid2env s envid true) s fun e =>
      if s.curenv = some e then .ok ({ s with kstackTf := tf }, .ok (tf.regs 2))
      else .ok (s.setEnv e fun env => { env with envTf := tf }, .ok 0)

/-- The fields of `curenv` that `sys_ipc_recv` sets in its steps 2 to 4. -/
def ipcAwait (s : Kernel) (cur : EnvIx) (dstva : Word) : Kernel :=
  s.setEnv cur fun env =>
    { env with envIpcRecving := 1, envIpcDstva := dstva, envStatus := .notRunnable }

/-- `sys_ipc_recv`. The caller blocks, and finds 0 in `$v0` when it runs again. -/
def sysIpcRecv (s : Kernel) (dstva : Word) : Except Panic (Kernel × Ret) :=
  if dstva ≠ 0 ∧ isIllegalVa dstva then .ok (s, .error .inval)
  else do
    let cur ← s.current
    let s ← (ipcAwait s cur dstva).schedRemove cur
    let s := { s with kstackTf :=
      { s.kstackTf with regs := Function.update s.kstackTf.regs 2 0 } }
    let s ← schedule s true
    .ok (s, .ok 0)

/-- Step 6 of `sys_ipc_try_send`: the page at `srcva` of `curenv`, if any is
sent, is mapped where the receiver `e` asked for it. -/
def ipcTransfer (s : Kernel) (cur e : EnvIx) (srcva perm : Word) : Except Panic (Kernel × Ret) :=
  if srcva = 0 then .ok (s, .ok 0)
  else do
    match ← pageLookup s.pm (s.envs cur).envPgdir srcva with
    | none => .ok (s, .error .inval)
    | some (p, _) => do
        let (pm, _) ← pageInsert s.pm (s.envs e).envPgdir (s.envs e).envAsid p
          (s.envs e).envIpcDstva perm
        .ok (s.withPm pm, .ok 0)

/-- Steps 4 and 5 of `sys_ipc_try_send`: `e` takes the message and wakes up. -/
def ipcDeliver (s : Kernel) (cur e : EnvIx) (value perm : Word) : Kernel :=
  (s.setEnv e fun env =>
    { env with
      envIpcValue := value
      envIpcFrom := (s.envs cur).envId
      envIpcPerm := pteV ||| perm
      envIpcRecving := 0
      envStatus := .runnable }).schedInsertTail e

def sysIpcTrySend (s : Kernel) (envid value srcva perm : Word) : Except Panic (Kernel × Ret) :=
  if srcva ≠ 0 ∧ isIllegalVa srcva then .ok (s, .error .inval)
  else do
    tryRet (← envid2env s envid false) s fun e => do
      if (s.envs e).envIpcRecving = 0 then .ok (s, .error .ipcNotRecv)
      else do
        let cur ← s.current
        ipcTransfer (ipcDeliver s cur e value perm) cur e srcva perm

end Mos
