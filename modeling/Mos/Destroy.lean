import Mos.KernelRun

/-!
# What destroying an env does to the scheduler's queue

`env_free` unlinks the env from `env_sched_list` whether it is on the queue or not.
The queue of the others stays intact exactly when the env is on it, or when the links
that the env was left with agree with the queue (`env_free_keeps_queue_iff`). An env that
never was on the queue has no links at all: the kernel follows a null pointer.
-/

namespace Mos

variable {s s' : Kernel} {cur e : EnvIx} {envid : Word}

/-- `env_free` returns, and the queue is that of the other envs, in the same order. -/
def KeepsQueue (s : Kernel) (e : EnvIx) : Prop :=
  ∃ l s', s.envSchedList.Repr l ∧ envFree s e = .ok s' ∧ s'.envSchedList.Repr (l.erase e)

/-- The env is on the queue, or its links agree with the queue. -/
def Unlinkable (s : Kernel) (e : EnvIx) : Prop :=
  ∃ l, s.envSchedList.Repr l ∧ (e ∈ l ∨ ∃ c, s.envSchedList.Harmless (· ∈ l) e c)

/-- Freeing an env that may be destroyed fails only in `TAILQ_REMOVE`. -/
theorem LiveInv.envFree_eq (inv : LiveInv s) (bounded : Bounded s) (inUse : e ∉ s.envFreeList) :
    ∃ pm, Mos.envFree s e = (s.reclaim e pm).schedRemove e := by
  obtain ⟨pm, freed, -⟩ := inv.inv.envFreeVm bounded inUse
  exact ⟨pm, by rw [Mos.envFree, freed]; rfl⟩

/-- Destroying an env keeps the queue of the others exactly when the env is on the
queue or has links that agree with it. -/
theorem env_free_keeps_queue_iff (inv : LiveInv s) (bounded : Bounded s)
    (named : envid2env s envid true = .ok (.ok e)) : KeepsQueue s e ↔ Unlinkable s e := by
  obtain ⟨pm, freed⟩ := inv.envFree_eq bounded (inv.envid2env named)
  constructor
  · rintro ⟨l, s', repr, free, kept⟩
    refine ⟨l, repr, ?_⟩
    rw [freed] at free
    obtain ⟨q, removed, rfl⟩ := schedRemove_ok free
    obtain ⟨c, back, rfl⟩ := Option.map_eq_some_iff.mp removed
    by_cases mem : e ∈ l
    · exact .inl mem
    · rw [List.erase_of_not_mem mem] at kept
      exact .inr ⟨c, repr.harmless_of_unlink back kept⟩
  · rintro ⟨l, repr, linked⟩
    have removed : ∃ q, s.envSchedList.remove e = some q ∧ q.Repr (l.erase e) := by
      by_cases mem : e ∈ l
      · exact repr.remove mem
      · obtain ⟨c, harmless⟩ := linked.resolve_left mem
        rw [List.erase_of_not_mem mem]
        exact repr.remove_harmless harmless
    obtain ⟨q, removed, kept⟩ := removed
    have unlinked : (s.reclaim e pm).envSchedList.remove e = some q := removed
    refine ⟨l, { s.reclaim e pm with envSchedList := q }, repr, ?_, kept⟩
    rw [freed, Kernel.schedRemove, unlinked]

/-- `startOps`, and then the env makes a child. -/
def childOps : List KernelOp := startOps ++ [.sys .exofork]

/-- An env can make a child. The child has no links yet if its slot had none. -/
theorem LiveInv.exofork_step {rest : List EnvIx} {p : Nat} {pages : List Nat} {i : Nat}
    (inv : LiveInv s) (bounded : Bounded s) (hcur : s.curenv = some cur)
    (hfree : s.envFreeList = e :: rest) (hpages : s.pm.pageFreeList = p :: pages)
    (hasid : freeAsid s.asidBitmap = some i) (hne : cur ≠ e) (later : e ≠ 0) :
    ∃ s', kernelStep s (.sys .exofork) s' ∧ s'.curenv = some cur ∧
      Mos.envid2env s' (s'.envs e).envId true = .ok (.ok e) ∧
      s'.envSchedList = s.envSchedList ∧ s'.pm.pageFreeList = pages ∧
      ∀ k, 0 < k → AtMost k s → AtMost k s' := by
  have alloc := @KernelInv.envAlloc_eq s e p pages rest inv.inv i
    (s.envs cur).envId hfree hpages hasid
  let s₁ := (s.newEnv e p pages).admitEnv e rest i (s.envs cur).envId
  let s' : Kernel := s₁.setEnv e fun env =>
    { env with
      envTf := { s₁.kstackTf with regs := Function.update s₁.kstackTf.regs 2 0 }
      envStatus := .notRunnable
      envPri := (s₁.envs cur).envPri }
  have current : s.current = .ok cur := by rw [Kernel.current, hcur]
  have forked : Mos.sysExofork s = .ok (s', .ok (s'.envs e).envId) := by
    simp only [Mos.sysExofork, current, Bind.bind, Except.bind, alloc, tryRet]
    rfl
  have atMost : ∀ k, 0 < k → AtMost k s → AtMost k s' := by
    intro k pos most q
    have same : s'.dirs = s₁.dirs := Kernel.dirs_congr rfl fun x => Kernel.setEnv_field _ rfl x
    rw [same]
    exact inv.inv.atMost_admitEnv most pos hfree hpages i (s.envs cur).envId q
  have bounded' : Bounded s' := atMost 65535 (by decide) bounded
  have parent : s'.envs cur = s.envs cur := by
    simp [s', s₁, Kernel.admitEnv, Kernel.newEnv, Kernel.setupEnv, Kernel.setEnv, hne]
  have child : (s'.envs e).envParentId = (s.envs cur).envId ∧
      (s'.envs e).envStatus = .notRunnable ∧
      (s'.envs e).envId = ((s.mkenvidCount + 1) <<< 11) ||| BitVec.ofNat 32 e := by
    simp [s', s₁, Kernel.admitEnv, Kernel.newEnv, Kernel.setupEnv, Kernel.setEnv]
  obtain ⟨parentId, status, made⟩ := child
  have slot : envx (s'.envs e).envId = e := by
    rw [made]
    exact envx_mkenvid _ e
  have named : (s'.envs e).envId ≠ 0 := by
    intro zero
    rw [zero] at slot
    exact later slot.symm
  have current' : s'.curenv = some cur := hcur
  refine ⟨s', ⟨⟨⟨cur, hcur⟩, trivial⟩, ⟨_, forked⟩, bounded'⟩, current', ?_, rfl, rfl, atMost⟩
  have found := envid2env_eq named slot (by rw [status]; simp) rfl
  rw [Mos.envid2env, if_neg named] at found ⊢
  simp [slot, status, Kernel.current, current', parentId, parent, Bind.bind, Except.bind]

/-- The child is not on the queue and never was. -/
theorem childOps_run : ∃ s₀ s, envInit smallBoot = .ok s₀ ∧ Run kernelStep s₀ childOps s ∧
    envid2env s (s.envs 1).envId true = .ok (.ok 1) ∧ s.envSchedList.tqePrev 1 = none := by
  obtain ⟨s₀, s, boot, run, hcur, -, hfree, hpages, -, unlinked, hasid, -⟩ :=
    startOps_run smallBoot_free
  obtain ⟨inv, bounded⟩ := kernelRun_inv boot run
  obtain ⟨s', step, -, named, same, -⟩ :=
    inv.exofork_step bounded hcur hfree hpages hasid (by decide) (by decide)
  exact ⟨s₀, s', boot, run.snoc step, named, by rw [same, unlinked]⟩

theorem env_free_keeps_queue_iff_child : ∃ s, LiveInv s ∧ Bounded s ∧
    (KeepsQueue s 1 ↔ Unlinkable s 1) := by
  obtain ⟨s₀, s, boot, run, named, -⟩ := childOps_run
  obtain ⟨inv, bounded⟩ := kernelRun_inv boot run
  exact ⟨s, inv, bounded, env_free_keeps_queue_iff inv bounded named⟩

/-- The child that was never made runnable cannot be destroyed. -/
theorem env_free_loses_queue : ¬ ∀ (b : Boot) (s₀ s : Kernel) (ops : List KernelOp) (envid : Word)
    (e : EnvIx), envInit b = .ok s₀ → Run kernelStep s₀ ops s →
      envid2env s envid true = .ok (.ok e) → KeepsQueue s e := by
  intro always
  obtain ⟨s₀, s, boot, run, named, unlinked⟩ := childOps_run
  obtain ⟨l, s', -, free, -⟩ := always _ _ _ _ _ _ boot run named
  obtain ⟨pm, q, removed, -⟩ := envFree_ok free
  rw [Tailq.remove, unlinked] at removed
  cases removed

end Mos
