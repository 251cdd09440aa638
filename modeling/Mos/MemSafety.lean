import Mos.Counts

/-!
# No page in use is handed out again

The operations that allocate, map, share and free pages, in any order and by any
env in use. The scheduler queue has no part in them: a system call is made by
the env it names, `env_free` stops short of the queue, and of the IPC calls only
the address a receiver waits at and the transfer of the page count.
-/

namespace Mos

inductive MemOp
  | envAlloc (parentId : Word)
  | memAlloc (cur : EnvIx) (envid va perm : Word)
  | memMap (cur : EnvIx) (srcid srcva dstid dstva perm : Word)
  | memUnmap (cur : EnvIx) (envid va : Word)
  | ipcRecv (cur : EnvIx) (dstva : Word)
  | ipcTransfer (cur e : EnvIx) (srcva perm : Word)
  | passiveAlloc (e : EnvIx) (va : Word)
  | envFree (e : EnvIx)

/-- The kernel as `cur` enters it. -/
def Kernel.enter (s : Kernel) (cur : EnvIx) : Kernel := { s with curenv := some cur }

/-- The address passes the check both IPC calls start with. -/
def ipcVa (va : Word) : Prop := va = 0 ∨ ¬ isIllegalVa va

/-- Envs in use act on envs in use, with permission bits below `0x1000`. The page
table window only faults where it shows nothing. -/
def MemOp.Enabled (s : Kernel) : MemOp → Prop
  | .envAlloc _ => True
  | .memAlloc cur _ _ perm => cur ∉ s.envFreeList ∧ perm < 0x1000#32
  | .memMap cur _ _ _ _ perm => cur ∉ s.envFreeList ∧ perm < 0x1000#32
  | .memUnmap cur _ _ => cur ∉ s.envFreeList
  | .ipcRecv cur dstva => cur ∉ s.envFreeList ∧ ipcVa dstva
  | .ipcTransfer cur e srcva perm =>
      cur ∉ s.envFreeList ∧ e ∉ s.envFreeList ∧ ipcVa srcva ∧ perm < 0x1000#32
  | .passiveAlloc e va => e ∉ s.envFreeList ∧
      (uvpt ≤ va → lookup s.pm.mem (s.envs e).envPgdir va = none)
  | .envFree e => e ∉ s.envFreeList

/-- The operation, whatever result it returns. -/
def MemOp.exec (s : Kernel) : MemOp → Except Panic Kernel
  | .envAlloc parentId => (Mos.envAlloc s parentId).map (·.1)
  | .memAlloc cur envid va perm => (sysMemAlloc (s.enter cur) envid va perm).map (·.1)
  | .memMap cur srcid srcva dstid dstva perm =>
      (sysMemMap (s.enter cur) srcid srcva dstid dstva perm).map (·.1)
  | .memUnmap cur envid va => (sysMemUnmap (s.enter cur) envid va).map (·.1)
  | .ipcRecv cur dstva => .ok (ipcAwait s cur dstva)
  | .ipcTransfer cur e srcva perm => (Mos.ipcTransfer s cur e srcva perm).map (·.1)
  | .passiveAlloc e va =>
      (Mos.passiveAlloc s.pm va (s.envs e).envPgdir (s.envs e).envAsid).map s.withPm
  | .envFree e => envFreeVm s e

/-- One operation, after which no page has more references than `pp_ref` can
tell. -/
def memStep (s : Kernel) (op : MemOp) (s' : Kernel) : Prop :=
  op.Enabled s ∧ op.exec s = .ok s' ∧ Bounded s'

variable {s s' : Kernel} {cur e : EnvIx} {op : MemOp} {ops : List MemOp} {b : Boot}

theorem KernelInv.enter (inv : KernelInv s) (cur : EnvIx) : KernelInv (s.enter cur) :=
  ⟨inv.pm, inv.template, inv.free_nodup, inv.free_status, inv.dstva_lt⟩

theorem lt_utop_of_ipcVa {va : Word} (h : ipcVa va) : va < utop := by
  rcases h with rfl | legal
  · rw [BitVec.lt_def, utop_toNat]
    exact Nat.zero_lt_succ _
  · exact lt_utop_of_legal legal

theorem KernelInv.ipcAwait (inv : KernelInv s) (allocated : cur ∉ s.envFreeList) {dstva : Word}
    (legal : ipcVa dstva) : KernelInv (Mos.ipcAwait s cur dstva) :=
  inv.setEnv rfl (fun isFree => absurd isFree allocated) (lt_utop_of_ipcVa legal)

/-- An operation keeps the invariant, or it is a page fault that panics for
another reason than a page count. -/
theorem KernelInv.exec (inv : KernelInv s) (bounded : Bounded s) (enabled : op.Enabled s) :
    (∃ s', op.exec s = .ok s' ∧ KernelInv s') ∨
    (∃ panic, op.exec s = .error panic ∧ panic ≠ .pageFree ∧ panic ≠ .pageDecref) := by
  cases op with
  | envAlloc parentId =>
      obtain ⟨s', r, run, inv'⟩ := inv.envAlloc parentId
      exact .inl ⟨s', by rw [MemOp.exec, run]; rfl, inv'⟩
  | memAlloc cur envid va perm =>
      obtain ⟨allocated, hperm⟩ := enabled
      obtain ⟨e, pm, r, run, step⟩ := (inv.enter cur).sysMemAlloc bounded rfl allocated hperm
      exact .inl ⟨_, by rw [MemOp.exec, run]; rfl, (inv.enter cur).memStep step⟩
  | memMap cur srcid srcva dstid dstva perm =>
      obtain ⟨allocated, hperm⟩ := enabled
      obtain ⟨e, pm, r, run, step⟩ := (inv.enter cur).sysMemMap bounded rfl allocated hperm
      exact .inl ⟨_, by rw [MemOp.exec, run]; rfl, (inv.enter cur).memStep step⟩
  | memUnmap cur envid va =>
      obtain ⟨e, pm, r, run, step⟩ := (inv.enter cur).sysMemUnmap bounded rfl enabled
      exact .inl ⟨_, by rw [MemOp.exec, run]; rfl, (inv.enter cur).memStep step⟩
  | ipcRecv cur dstva => exact .inl ⟨_, rfl, inv.ipcAwait enabled.1 enabled.2⟩
  | ipcTransfer cur e srcva perm =>
      obtain ⟨hcur, he, legal, hperm⟩ := enabled
      obtain ⟨pm, r, run, step⟩ :=
        inv.ipcTransfer bounded hcur he (lt_utop_of_ipcVa legal) hperm
      exact .inl ⟨_, by rw [MemOp.exec, run]; rfl, inv.memStep step⟩
  | passiveAlloc e va =>
      obtain ⟨he, fault⟩ := enabled
      rcases inv.pm.passiveAlloc (Kernel.dirs_of_notMem he)
          (fun q => Nat.lt_succ_of_le (bounded q)) fault (s.envs e).envAsid with
        ⟨panic, run, notFree, notDecref⟩ | ⟨pm, run, step⟩
      · exact .inr ⟨panic, by rw [MemOp.exec, run]; rfl, notFree, notDecref⟩
      · exact .inl ⟨_, by rw [MemOp.exec, run]; rfl, inv.undisturbed step⟩
  | envFree e =>
      obtain ⟨pm, run, -, inv'⟩ := inv.envFreeVm bounded enabled
      exact .inl ⟨_, run, inv'⟩

/-- What one operation preserves. -/
theorem memStep_preserves (inv : KernelInv s ∧ Bounded s) (step : memStep s op s') :
    KernelInv s' ∧ Bounded s' := by
  obtain ⟨enabled, run, bounded⟩ := step
  rcases inv.1.exec inv.2 enabled with ⟨s₁, run₁, inv₁⟩ | ⟨panic, failed, -⟩
  · rw [run] at run₁
    cases run₁
    exact ⟨inv₁, bounded⟩
  · rw [run] at failed
    cases failed

/-- From boot on, the invariant holds in every state the operations reach. -/
theorem memRun_inv (boot : envInit b = .ok s) (run : Run memStep s ops s') :
    KernelInv s' ∧ Bounded s' :=
  run.invariant (fun s => KernelInv s ∧ Bounded s) (KernelInv.of_envInit boot)
    fun _ _ _ => memStep_preserves

/-- The count of a page covers the references to it. -/
theorem KernelInv.refs_le_count (inv : KernelInv s) (bounded : Bounded s) (p : Nat) :
    refs (target s.dirs s.pm.mem) p ≤ (s.pm.ppRef p).toNat := by
  by_cases named : ∃ r, target s.dirs s.pm.mem r = some p
  · obtain ⟨r, hr⟩ := named
    exact Nat.le_of_eq
      (RefStore.Inv.count_toNat (r := r) inv.pm.store hr (Nat.lt_succ_of_le (bounded p))).symm
  · rw [refs_eq_zero_iff.mpr (not_exists.mp named)]
    exact Nat.zero_le _

/-- No page in use is ever handed out again: in every state reached from boot a
free page is on the list once, has no count, and is named by no env in use; each
count covers the references to its page; and no operation trips over a count. -/
theorem free_pages_unused (boot : envInit b = .ok s) (run : Run memStep s ops s') :
    s'.pm.pageFreeList.Nodup ∧
    (∀ p ∈ s'.pm.pageFreeList, s'.pm.ppRef p = 0 ∧
      ∀ e, e ∉ s'.envFreeList → (s'.envs e).envPgdir ≠ p ∧
        ∀ i, i < 509 → entry (s'.pm.mem (s'.envs e).envPgdir i) ≠ some p ∧
          ∀ t, entry (s'.pm.mem (s'.envs e).envPgdir i) = some t →
            ∀ j, j < 1024 → entry (s'.pm.mem t j) ≠ some p) ∧
    (∀ p, refs (target s'.dirs s'.pm.mem) p ≤ (s'.pm.ppRef p).toNat) ∧
    ∀ op : MemOp, op.Enabled s' → op.exec s' ≠ .error .pageFree ∧
      op.exec s' ≠ .error .pageDecref := by
  obtain ⟨inv, bounded⟩ := memRun_inv boot run
  refine ⟨inv.pm.store.nodup, fun p hp => ⟨inv.pm.store.free_count p hp, fun e he => ?_⟩,
    inv.refs_le_count bounded, fun op enabled => ?_⟩
  · have unnamed : ∀ r, target s'.dirs s'.pm.mem r ≠ some p := inv.pm.store.free_untargeted p hp
    have hd := Kernel.dirs_of_notMem he
    refine ⟨fun eq => unnamed (.dir e) (hd.trans (by rw [eq])), fun i hi => ⟨fun hi' => ?_, ?_⟩⟩
    · exact unnamed (.pde e ⟨i, hi⟩) ((target_pde hd).trans hi')
    · intro t ht j hj hj'
      exact unnamed (.pte e ⟨i, hi⟩ ⟨j, hj⟩) ((target_pte hd ht).trans hj')
  · rcases inv.exec bounded enabled with ⟨s₁, ok, -⟩ | ⟨panic, failed, notFree, notDecref⟩
    · rw [ok]
      exact ⟨by simp, by simp⟩
    · rw [failed]
      exact ⟨by simpa using notFree, by simpa using notDecref⟩

theorem Kernel.enter_self (hcur : s.curenv = some cur) : s.enter cur = s := by
  rw [Kernel.enter, ← hcur]

theorem memStep_of_map {srcid srcva dstid dstva perm : Word} {r : Ret} (hcur : s.curenv = some cur)
    (inUse : cur ∉ s.envFreeList) (flags : perm < 0x1000#32)
    (run : sysMemMap s srcid srcva dstid dstva perm = .ok (s', r)) (bounded : Bounded s') :
    memStep s (.memMap cur srcid srcva dstid dstva perm) s' :=
  ⟨⟨inUse, flags⟩, by rw [MemOp.exec, Kernel.enter_self hcur, run]; rfl, bounded⟩

theorem KernelInv.memStep_unmap (inv : KernelInv s) (bounded : Bounded s)
    (hcur : s.curenv = some cur) (inUse : cur ∉ s.envFreeList) (envid va : Word) :
    ∃ pm, Mos.memStep s (.memUnmap cur envid va) (s.withPm pm) ∧ KernelInv (s.withPm pm) := by
  obtain ⟨e, pm, r, run, step⟩ := inv.sysMemUnmap bounded hcur inUse
  refine ⟨pm, ⟨inUse, by rw [MemOp.exec, Kernel.enter_self hcur, run]; rfl, fun q => ?_⟩,
    inv.memStep step⟩
  rcases sysMemUnmap_cases run with ⟨same, -⟩ | ⟨x, pm', legal, named, removed, same, -⟩
  · rw [same]
    exact bounded q
  · have hd := Kernel.dirs_of_notMem (inv.envid2env hcur inUse named)
    have user := pdx_lt_of_lt_utop (lt_utop_of_legal legal)
    rw [same]
    exact (inv.pm.refs_pageRemove hd user removed q).trans (bounded q)

/-- The only env is freed. -/
theorem KernelInv.memStep_free (inv : KernelInv s) (bounded : Bounded s)
    (free : s.envFreeList = 1 :: laterSlots) :
    ∃ s', Mos.memStep s (.envFree 0) s' ∧ s'.envFreeList = slots := by
  have inUse : 0 ∉ s.envFreeList := by
    rw [free]
    exact zero_notMem_later
  obtain ⟨pm, run, -, -⟩ := inv.envFreeVm bounded inUse
  have all : (s.reclaim 0 pm).envFreeList = slots := by
    show 0 :: s.envFreeList = slots
    rw [free, slots_eq]
  exact ⟨_, ⟨inUse, run, bounded_of_noEnvs all⟩, all⟩

/-- An env gets a page, shares it with itself, gives up the first mapping and is freed. -/
theorem free_pages_unused_freed : ∃ s s', envInit smallBoot = .ok s ∧
    Run memStep s [.envAlloc 0, .memAlloc 0 0 0x400000 pteD, .memMap 0 0 0x400000 0 0x500000 pteD,
      .memUnmap 0 0 0x400000, .envFree 0] s' ∧
    s'.pm.pageFreeList.Nodup ∧ s'.envFreeList = slots := by
  obtain ⟨pm, boot, booting, hfree⟩ := envInit_spec smallBoot_free
  have inv := booting.kernelInv
  have most₁ := inv.atMost_admitEnv (atMost_kernelInit pm 335 1) Nat.one_pos slots_eq hfree 0 0
  have inv₁ := inv.admitEnv slots_eq hfree 0 0
  have step₁ : memStep (kernelInit pm 335) (.envAlloc 0) _ :=
    ⟨trivial, by rw [MemOp.exec, inv.envAlloc_eq slots_eq hfree freeAsid_init]; rfl,
      most₁.bounded (by decide)⟩
  obtain ⟨_, pm₂, pp, alloc, taken, most₂, left, page⟩ :=
    @KernelInv.sysMemAlloc_room _ 0 0x400000 pteD 5 1 (inv₁.enter 0) most₁
      (show 7 ≤ (331 :: sparePages).length by decide) Nat.one_pos (by decide) rfl
      zero_notMem_later (by decide) (by decide)
  have inv₂ := (inv₁.enter 0).memStep taken
  have step₂ : memStep _ (.memAlloc 0 0 0x400000 pteD) _ :=
    ⟨⟨zero_notMem_later, by decide⟩, by rw [MemOp.exec, alloc]; rfl, most₂.bounded (by decide)⟩
  obtain ⟨_, pm₃, map, mapped, most₃, -⟩ :=
    @KernelInv.sysMemMap_room _ 0 0 0x400000 0x500000 0 pteD _ 4 2 inv₂ most₂ left (by decide)
      (by decide) rfl zero_notMem_later (by decide) (by decide) (by decide)
      (envid2env_self rfl) page
  have inv₃ := inv₂.memStep mapped
  have bounded₃ := most₃.bounded (by decide)
  have step₃ := memStep_of_map rfl zero_notMem_later (by decide) map bounded₃
  obtain ⟨pm₄, step₄, inv₄⟩ := @KernelInv.memStep_unmap _ 0 inv₃ bounded₃ rfl zero_notMem_later 0
    0x400000
  obtain ⟨s', step₅, none_left⟩ := inv₄.memStep_free step₄.2.2 rfl
  have run := ((((Run.single step₁).snoc step₂).snoc step₃).snoc step₄).snoc step₅
  exact ⟨_, s', boot, run, (free_pages_unused boot run).1, none_left⟩

end Mos
