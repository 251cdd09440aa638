import Mos.Env

/-!
# Scheduling

`env_run` of `kern/env.c`, `schedule` of `kern/sched.c` and `env_destroy`. None
of them returns to its caller once an env is picked; the state they are given
here is the one in which that env goes on in user mode.
-/

namespace Mos

/-- Step 1 of `env_run`: `curenv` is saved from the kernel stack. -/
def Kernel.saveTf (s : Kernel) : Kernel :=
  match s.curenv with
  | some cur => s.setEnv cur fun env => { env with envTf := s.kstackTf }
  | none => s

/-- `env_run`. -/
def envRun (s : Kernel) (e : EnvIx) : Except Panic Kernel :=
  if (s.envs e).envStatus ≠ .runnable then .error .envRun
  else
    let s := s.saveTf.setEnv e fun env => { env with envRuns := env.envRuns + 1 }
    .ok { s with curenv := some e, curPgdir := some (s.envs e).envPgdir }

/-- Run the first env of the queue, for as many ticks as its priority. -/
def runFirst (s : Kernel) : Except Panic Kernel :=
  match s.envSchedList.tqhFirst with
  | some e => envRun { s with schedCount := (s.envs e).envPri } e
  | none => .error .nullPointer

/-- `schedule`. -/
def schedule (s : Kernel) (yield : Bool) : Except Panic Kernel :=
  let s := { s with schedCount := s.schedCount - 1 }
  match s.curenv with
  | none => if s.envSchedList.tqhFirst = none then .error .noRunnableEnvs else runFirst s
  | some e =>
      if yield ∨ s.schedCount = 0 ∨ (s.envs e).envStatus ≠ .runnable then
        if s.envSchedList.tqhFirst = none then .error .noRunnableEnvs
        else if (s.envs e).envStatus = .runnable then do
          let s ← s.schedRemove e
          runFirst (s.schedInsertTail e)
        else do
          let s ← s.schedRemove e
          runFirst s
      else envRun s e

def envDestroy (s : Kernel) (e : EnvIx) : Except Panic Kernel := do
  let s ← envFree s e
  if s.curenv = some e then schedule { s with curenv := none } true else .ok s

end Mos
