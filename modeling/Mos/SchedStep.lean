import Mos.Sched
import Mos.Lib.Tailq

/-!
# What `schedule` changes

`schedule` moves or unlinks at most the current env and lets the first env of the
queue go on. Beside the queue and the counters it only saves the trap frame of
the env it leaves.
-/

namespace Mos

variable {s s' s'' : Kernel} {e : EnvIx}

/-- Between `s` and `s'` the processor was given to a runnable env. -/
structure Resumed (s s' : Kernel) : Prop where
  pm : s'.pm = s.pm
  free : s'.envFreeList = s.envFreeList
  basePgdir : s'.basePgdir = s.basePgdir
  env : ∀ e, ∃ tf runs, s'.envs e = { s.envs e with envTf := tf, envRuns := runs }
  envTf : ∀ e, s.curenv ≠ some e → (s'.envs e).envTf = (s.envs e).envTf
  current : ∃ e, s'.curenv = some e ∧ (s.envs e).envStatus = .runnable ∧
    s'.curPgdir = some (s.envs e).envPgdir

/-- A field that scheduling does not touch. -/
theorem Resumed.field {α : Type} (resumed : Resumed s s') (field : Env → α)
    (h : ∀ env tf runs, field { env with envTf := tf, envRuns := runs } = field env) (e : EnvIx) :
    field (s'.envs e) = field (s.envs e) := by
  obtain ⟨tf, runs, env⟩ := resumed.env e
  rw [env]
  exact h _ _ _

theorem Resumed.status (resumed : Resumed s s') (e : EnvIx) :
    (s'.envs e).envStatus = (s.envs e).envStatus :=
  resumed.field Env.envStatus (fun _ _ _ => rfl) e

/-- The queue and the counters do not matter. -/
theorem Resumed.congr (resumed : Resumed s s') (pm : s.pm = s''.pm)
    (free : s.envFreeList = s''.envFreeList) (base : s.basePgdir = s''.basePgdir)
    (envs : s.envs = s''.envs) (curenv : s.curenv = s''.curenv) : Resumed s'' s' where
  pm := resumed.pm.trans pm
  free := resumed.free.trans free
  basePgdir := resumed.basePgdir.trans base
  env e := by rw [← envs]; exact resumed.env e
  envTf e h := by rw [← envs]; exact resumed.envTf e (by rw [curenv]; exact h)
  current := by rw [← envs]; exact resumed.current

/-- Saving the trap frame touches nothing else. -/
theorem Kernel.saveTf_env (s : Kernel) (x : EnvIx) :
    ∃ tf, s.saveTf.envs x = { s.envs x with envTf := tf } ∧
      (s.curenv ≠ some x → tf = (s.envs x).envTf) := by
  unfold saveTf
  cases hcur : s.curenv with
  | none => exact ⟨(s.envs x).envTf, rfl, fun _ => rfl⟩
  | some cur =>
      rcases eq_or_ne x cur with rfl | hne
      · exact ⟨s.kstackTf, by simp [setEnv], fun h => absurd rfl h⟩
      · exact ⟨(s.envs x).envTf, by simp [setEnv, hne], fun _ => rfl⟩

theorem Kernel.saveTf_rest (s : Kernel) : s.saveTf.pm = s.pm ∧
    s.saveTf.envFreeList = s.envFreeList ∧ s.saveTf.basePgdir = s.basePgdir ∧
    s.saveTf.envSchedList = s.envSchedList := by
  unfold saveTf
  cases s.curenv <;> exact ⟨rfl, rfl, rfl, rfl⟩

theorem envRun_ok (h : envRun s e = .ok s') :
    Resumed s s' ∧ s'.envSchedList = s.envSchedList ∧ s'.curenv = some e := by
  unfold envRun at h
  by_cases runnable : (s.envs e).envStatus = .runnable
  · rw [if_neg (not_not_intro runnable)] at h
    cases h
    obtain ⟨pm, free, base, queue⟩ := s.saveTf_rest
    have env : ∀ x, ∃ tf runs, (s.saveTf.setEnv e fun env =>
        { env with envRuns := env.envRuns + 1 }).envs x =
          { s.envs x with envTf := tf, envRuns := runs } ∧
        (s.curenv ≠ some x → tf = (s.envs x).envTf) := by
      intro x
      obtain ⟨tf, env, same⟩ := s.saveTf_env x
      rcases eq_or_ne x e with rfl | hne
      · exact ⟨tf, (s.envs x).envRuns + 1, by simp [Kernel.setEnv, env], same⟩
      · exact ⟨tf, (s.envs x).envRuns, by simp [Kernel.setEnv, hne, env], same⟩
    refine ⟨⟨pm, free, base, fun x => ?_, fun x hx => ?_, e, rfl, runnable, ?_⟩, queue, rfl⟩
    · obtain ⟨tf, runs, env, -⟩ := env x
      exact ⟨tf, runs, env⟩
    · obtain ⟨tf, runs, env, same⟩ := env x
      exact (congrArg Env.envTf env).trans (same hx)
    · obtain ⟨tf, runs, env, -⟩ := env e
      exact congrArg (fun env => some env.envPgdir) env
  · rw [if_pos runnable] at h
    cases h

theorem runFirst_ok (h : runFirst s = .ok s') :
    Resumed s s' ∧ s'.envSchedList = s.envSchedList ∧
      ∃ e, s.envSchedList.tqhFirst = some e ∧ s'.curenv = some e := by
  unfold runFirst at h
  cases first : s.envSchedList.tqhFirst with
  | none =>
      simp only [first] at h
      cases h
  | some e =>
      simp only [first] at h
      obtain ⟨resumed, queue, current⟩ := envRun_ok h
      exact ⟨resumed.congr rfl rfl rfl rfl rfl, queue, e, rfl, current⟩

theorem schedRemove_ok (h : s.schedRemove e = .ok s') :
    ∃ q, s.envSchedList.remove e = some q ∧ s' = { s with envSchedList := q } := by
  unfold Kernel.schedRemove at h
  cases remove : s.envSchedList.remove e with
  | none =>
      simp only [remove] at h
      cases h
  | some q =>
      simp only [remove] at h
      cases h
      exact ⟨q, rfl, rfl⟩

/-- The queue `schedule` picks from. -/
inductive Rotated (s : Kernel) : Tailq EnvIx → Prop
  | same : Rotated s s.envSchedList
  | moved {e : EnvIx} {q : Tailq EnvIx} : s.curenv = some e →
      (s.envs e).envStatus = .runnable → s.envSchedList.remove e = some q →
      Rotated s (q.insertTail e)
  | unlinked {e : EnvIx} {q : Tailq EnvIx} : s.curenv = some e →
      (s.envs e).envStatus ≠ .runnable → s.envSchedList.remove e = some q → Rotated s q

/-- `schedule` changes the queue at most by moving the current env to its tail or
by unlinking it. -/
theorem schedule_ok {yield : Bool} (h : schedule s yield = .ok s') :
    Resumed s s' ∧ Rotated s s'.envSchedList := by
  have pick : ∀ (q : Tailq EnvIx) (n : Word) (s' : Kernel),
      runFirst { s with envSchedList := q, schedCount := n } = .ok s' →
      Resumed s s' ∧ s'.envSchedList = q := by
    intro q n s' run
    obtain ⟨resumed, queue, -⟩ := runFirst_ok run
    exact ⟨resumed.congr rfl rfl rfl rfl rfl, queue⟩
  unfold schedule at h
  cases hcur : s.curenv with
  | none =>
      simp only [hcur] at h
      split at h
      · cases h
      · obtain ⟨resumed, queue⟩ := pick s.envSchedList (s.schedCount - 1) s' (by rw [hcur]; exact h)
        exact ⟨resumed, queue ▸ .same⟩
  | some e =>
      simp only [hcur] at h
      split at h
      case isFalse =>
          obtain ⟨resumed, queue, -⟩ := envRun_ok h
          refine ⟨resumed.congr rfl rfl rfl rfl hcur.symm, ?_⟩
          rw [queue]
          exact .same
      case isTrue =>
          split at h
          · cases h
          · split at h
            case isTrue runnable =>
                obtain ⟨s₁, removed, h⟩ := bind_eq_ok.mp h
                obtain ⟨q, remove, rfl⟩ := schedRemove_ok removed
                obtain ⟨resumed, queue⟩ := pick (q.insertTail e) (s.schedCount - 1) s'
                  (by rw [hcur]; exact h)
                exact ⟨resumed, queue ▸ .moved hcur runnable remove⟩
            case isFalse blocked =>
                obtain ⟨s₁, removed, h⟩ := bind_eq_ok.mp h
                obtain ⟨q, remove, rfl⟩ := schedRemove_ok removed
                obtain ⟨resumed, queue⟩ := pick q (s.schedCount - 1) s' (by rw [hcur]; exact h)
                exact ⟨resumed, queue ▸ .unlinked hcur blocked remove⟩

end Mos
