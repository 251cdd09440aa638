import Mos.EnvFree
import Mos.Syscall
import Mos.Tlbex

/-!
# What the memory system calls preserve

Each call that changes a user mapping returns a kernel that differs from the old
one in its memory only, and in that by no more than a `Frame` for the env it
acts on.
-/

namespace Mos

variable {s s' : Kernel} {cur e : EnvIx} {envid srcid dstid va srcva dstva perm : Word}

/-- The kernel may go on in a memory that keeps the frame of some env in use. -/
structure MemStep (s : Kernel) (e : EnvIx) (pm : Pmap) : Prop where
  inv : PmapInv s.dirs pm
  frame : Frame s.dirs e noPage s.pm pm

theorem MemStep.refl (inv : KernelInv s) (e : EnvIx) : MemStep s e s.pm :=
  ⟨inv.pm, .refl _ _ _ _⟩

theorem KernelInv.memStep {pm : Pmap} (inv : KernelInv s) (h : MemStep s e pm) :
    KernelInv (s.withPm pm) :=
  inv.withPm h.inv h.frame

theorem lt_utop_of_legal (h : ¬ isIllegalVa va) : va < utop := by
  simp only [isIllegalVa, not_or] at h
  exact BitVec.not_le.mp h.2

/-- The address of an IPC call is 0 or a user address. -/
theorem lt_utop_of_carries (h : ¬ (va ≠ 0 ∧ isIllegalVa va)) : va < utop := by
  by_cases zero : va = 0
  · rw [zero, BitVec.lt_def, utop_toNat]
    exact Nat.zero_lt_succ _
  · exact lt_utop_of_legal fun illegal => h ⟨zero, illegal⟩

theorem lt_ulim_of_lt_utop (h : va < utop) : va < ulim := by
  rw [BitVec.lt_def, utop_toNat] at h
  rw [BitVec.lt_def, ulim_toNat]
  omega

/-! ## What a call that returned has done -/

/-- Step 3 of `sys_set_env_status` changes the queue only. -/
theorem requeue_ok {status : EnvStatus} (h : requeue s e status = .ok s') :
    ∃ q, s' = { s with envSchedList := q } := by
  unfold requeue at h
  by_cases wake : status = .runnable ∧ (s.envs e).envStatus = .notRunnable
  · simp only [if_pos wake] at h
    rw [if_neg (by simp [wake.1])] at h
    cases h
    exact ⟨_, rfl⟩
  · simp only [if_neg wake] at h
    split at h
    · unfold Kernel.schedRemove at h
      split at h
      · cases h
        exact ⟨_, rfl⟩
      · cases h
    · cases h
      exact ⟨_, rfl⟩

/-- What `sys_set_env_status` does: nothing, or one env gets a status a user can name. -/
theorem sysSetEnvStatus_ok {status : Word} {r : Ret}
    (h : sysSetEnvStatus s envid status = .ok (s', r)) :
    s' = s ∨ ∃ new e q, userEnvStatus status = some new ∧ envid2env s envid false = .ok (.ok e) ∧
      s' = ({ s with envSchedList := q } : Kernel).setEnv e fun env =>
        { env with envStatus := new } := by
  unfold sysSetEnvStatus at h
  cases user : userEnvStatus status with
  | none =>
      simp only [user] at h
      cases h
      exact .inl rfl
  | some new =>
      simp only [user] at h
      obtain ⟨found, lookup, h⟩ := bind_eq_ok.mp h
      cases found with
      | error err =>
          cases h
          exact .inl rfl
      | ok e =>
          obtain ⟨s₁, moved, h⟩ := bind_eq_ok.mp h
          cases h
          obtain ⟨q, rfl⟩ := requeue_ok moved
          exact .inr ⟨new, e, q, rfl, lookup, rfl⟩

/-- What `sys_exofork` does with the env it has made, if it could make one. -/
theorem sysExofork_ok {r : Ret} (h : sysExofork s = .ok (s', r)) :
    ∃ cur, (∃ err, envAlloc s (s.envs cur).envId = .ok (s', .error err)) ∨
      ∃ s₁ e, envAlloc s (s.envs cur).envId = .ok (s₁, .ok e) ∧
        s' = s₁.setEnv e fun env =>
          { env with
            envTf := { s₁.kstackTf with regs := Function.update s₁.kstackTf.regs 2 0 }
            envStatus := .notRunnable
            envPri := (s₁.envs cur).envPri } := by
  obtain ⟨cur, -, h⟩ := bind_eq_ok.mp h
  obtain ⟨⟨s₁, found⟩, alloc, h⟩ := bind_eq_ok.mp h
  cases found with
  | error err =>
      cases h
      exact ⟨cur, .inl ⟨err, alloc⟩⟩
  | ok e =>
      cases h
      exact ⟨cur, .inr ⟨s₁, e, alloc, rfl⟩⟩

theorem sysSetTlbModEntry_ok {func : Word} {r : Ret}
    (h : sysSetTlbModEntry s envid func = .ok (s', r)) :
    s' = s ∨ ∃ e, envid2env s envid false = .ok (.ok e) ∧
      s' = s.setEnv e fun env => { env with envUserTlbModEntry := func } := by
  obtain ⟨found, lookup, h⟩ := bind_eq_ok.mp h
  cases found with
  | error err =>
      cases h
      exact .inl rfl
  | ok e =>
      cases h
      exact .inr ⟨e, lookup, rfl⟩

theorem sysEnvDestroy_ok {r : Ret} (h : sysEnvDestroy s envid = .ok (s', r)) :
    s' = s ∨ ∃ e, envid2env s envid true = .ok (.ok e) ∧ envDestroy s e = .ok s' := by
  obtain ⟨found, lookup, h⟩ := bind_eq_ok.mp h
  cases found with
  | error err =>
      cases h
      exact .inl rfl
  | ok e =>
      obtain ⟨s₁, destroyed, h⟩ := bind_eq_ok.mp h
      cases h
      exact .inr ⟨e, lookup, destroyed⟩

/-- `sys_set_trapframe` sets the frame the caller goes on with, or that of another env. -/
theorem sysSetTrapframe_ok {tf : Trapframe} {r : Ret}
    (h : sysSetTrapframe s envid va tf = .ok (s', r)) :
    s' = s ∨ ∃ e, ¬ isIllegalVaRange va sizeofTrapframe ∧ envid2env s envid true = .ok (.ok e) ∧
      ((s.curenv = some e ∧ s' = { s with kstackTf := tf } ∧ r = .ok (tf.regs 2)) ∨
        (s.curenv ≠ some e ∧ s' = s.setEnv e fun env => { env with envTf := tf })) := by
  unfold sysSetTrapframe at h
  split at h
  · cases h
    exact .inl rfl
  case isFalse legal =>
    obtain ⟨found, lookup, h⟩ := bind_eq_ok.mp h
    cases found with
    | error err =>
        cases h
        exact .inl rfl
    | ok e =>
        refine .inr ⟨e, legal, lookup, ?_⟩
        simp only [tryRet] at h
        split at h
        case isTrue self =>
          cases h
          exact .inl ⟨self, rfl, rfl⟩
        case isFalse other =>
          cases h
          exact .inr ⟨other, rfl⟩

/-- What `sys_mem_map` does: it fails and changes nothing, or it inserts the page found. -/
theorem sysMemMap_cases {r : Ret} (h : sysMemMap s srcid srcva dstid dstva perm = .ok (s', r)) :
    (s' = s ∧ ∃ err, r = .error err) ∨ ∃ srcenv dstenv pp pte pm res, ¬ isIllegalVa srcva ∧
      ¬ isIllegalVa dstva ∧ envid2env s srcid true = .ok (.ok srcenv) ∧
      envid2env s dstid true = .ok (.ok dstenv) ∧
      pageLookup s.pm (s.envs srcenv).envPgdir srcva = .ok (some (pp, pte)) ∧
      pageInsert s.pm (s.envs dstenv).envPgdir (s.envs dstenv).envAsid pp dstva perm =
        .ok (pm, res) ∧ s' = s.withPm pm ∧ r = zeroRet res := by
  unfold sysMemMap at h
  split at h
  · cases h
    exact .inl ⟨rfl, _, rfl⟩
  case isFalse legal =>
    push Not at legal
    obtain ⟨src, source, h⟩ := bind_eq_ok.mp h
    cases src with
    | error err =>
        cases h
        exact .inl ⟨rfl, _, rfl⟩
    | ok srcenv =>
        obtain ⟨dst, lookup, h⟩ := bind_eq_ok.mp h
        cases dst with
        | error err =>
            cases h
            exact .inl ⟨rfl, _, rfl⟩
        | ok dstenv =>
            obtain ⟨found, page, h⟩ := bind_eq_ok.mp h
            cases found with
            | none =>
                cases h
                exact .inl ⟨rfl, _, rfl⟩
            | some found =>
                obtain ⟨⟨pm, res⟩, run, h⟩ := bind_eq_ok.mp h
                cases h
                exact .inr ⟨srcenv, dstenv, found.1, found.2, pm, res, legal.1, legal.2, source,
                  lookup, page, run, rfl, rfl⟩

theorem sysMemUnmap_cases {r : Ret} (h : sysMemUnmap s envid va = .ok (s', r)) :
    (s' = s ∧ ∃ err, r = .error err) ∨ ∃ e pm, ¬ isIllegalVa va ∧
      envid2env s envid true = .ok (.ok e) ∧
      pageRemove s.pm (s.envs e).envPgdir (s.envs e).envAsid va = .ok pm ∧ s' = s.withPm pm ∧
      r = .ok 0 := by
  unfold sysMemUnmap at h
  split at h
  · cases h
    exact .inl ⟨rfl, _, rfl⟩
  case isFalse legal =>
    obtain ⟨found, lookup, h⟩ := bind_eq_ok.mp h
    cases found with
    | error err =>
        cases h
        exact .inl ⟨rfl, _, rfl⟩
    | ok e =>
        obtain ⟨pm, run, h⟩ := bind_eq_ok.mp h
        cases h
        exact .inr ⟨e, pm, legal, lookup, run, rfl, rfl⟩

/-- `sys_mem_alloc` inserts the first free page, cleared. -/
theorem KernelInv.sysMemAlloc_cases {r : Ret} (inv : KernelInv s)
    (h : Mos.sysMemAlloc s envid va perm = .ok (s', r)) :
    s' = s ∨ ∃ e p rest pm res, ¬ isIllegalVa va ∧ Mos.envid2env s envid true = .ok (.ok e) ∧
      s.pm.pageFreeList = p :: rest ∧
      Mos.pageInsert (s.pm.take p rest) (s.envs e).envPgdir (s.envs e).envAsid p va perm =
        .ok (pm, res) ∧ s' = s.withPm pm := by
  unfold Mos.sysMemAlloc at h
  split at h
  · cases h
    exact .inl rfl
  case isFalse legal =>
    obtain ⟨found, lookup, h⟩ := bind_eq_ok.mp h
    cases found with
    | error err =>
        cases h
        exact .inl rfl
    | ok e =>
        obtain ⟨⟨pm₁, got⟩, alloc, h⟩ := bind_eq_ok.mp h
        cases hfree : s.pm.pageFreeList with
        | nil =>
            rw [pageAlloc_nil hfree] at alloc
            cases alloc
            cases h
            exact .inl rfl
        | cons p rest =>
            rw [inv.pm.pageAlloc_cons hfree] at alloc
            cases alloc
            obtain ⟨⟨pm, res⟩, run, h⟩ := bind_eq_ok.mp h
            cases h
            exact .inr ⟨e, p, rest, pm, res, legal, lookup, rfl, run, rfl⟩

/-! ## The memory calls in a kernel that keeps the invariant -/

section MemCalls

variable (inv : KernelInv s) (bounded : Bounded s)

include inv bounded

/-- The page found by a lookup in `cur` is mapped at `va` in `e`. -/
theorem KernelInv.mapFound {p : Nat} {pte : PtePtr} (hcur : cur ∉ s.envFreeList)
    (he : e ∉ s.envFreeList) (hsrc : srcva < utop) (hva : va < utop)
    (hperm : perm < 0x1000#32) (found : lookup s.pm.mem (s.envs cur).envPgdir srcva = some (p, pte))
    (asid : Word) :
    ∃ pm r, pageInsert s.pm (s.envs e).envPgdir asid p va perm = .ok (pm, r) ∧
      MemStep s e pm := by
  obtain ⟨t, ht, hp, -⟩ := lookup_eq_some_iff.mp found
  have mapped : target s.dirs s.pm.mem
      (.pte cur ⟨_, pdx_lt_of_lt_utop hsrc⟩ ⟨_, ptx_lt srcva⟩) = some p :=
    (target_pte (Kernel.dirs_of_notMem hcur) ht).trans hp
  obtain ⟨pm, r, run, inv', frame⟩ := inv.pm.pageInsert_mapped
    (fun q => Nat.lt_succ_of_le (bounded q)) (Kernel.dirs_of_notMem he) (pdx_lt_of_lt_utop hva)
    hperm (Ref.not_isTable_pte _ _ _) mapped asid
  exact ⟨pm, r, run, inv', frame⟩

theorem KernelInv.sysMemAlloc (hcur : s.curenv = some cur) (allocated : cur ∉ s.envFreeList)
    (hperm : perm < 0x1000#32) :
    ∃ e pm r, Mos.sysMemAlloc s envid va perm = .ok (s.withPm pm, r) ∧ MemStep s e pm := by
  unfold Mos.sysMemAlloc
  by_cases legal : isIllegalVa va
  · exact ⟨cur, s.pm, .error .inval, by rw [if_pos legal]; rfl, .refl inv cur⟩
  rw [if_neg legal]
  obtain ⟨found, lookup⟩ := envid2env_total hcur envid true
  cases found with
  | error err => exact ⟨cur, s.pm, .error .badEnv, by rw [lookup]; rfl, .refl inv cur⟩
  | ok e =>
      have he := inv.envid2env hcur allocated lookup
      simp only [lookup, Bind.bind, Except.bind]
      cases hfree : s.pm.pageFreeList with
      | nil =>
          rw [pageAlloc_nil hfree]
          exact ⟨cur, s.pm, .error .noMem, rfl, .refl inv cur⟩
      | cons p rest =>
          obtain ⟨pm, r, run, inv', frame⟩ := inv.pm.pageInsert_taken
            (fun q => Nat.lt_succ_of_le (bounded q)) (Kernel.dirs_of_notMem he)
            (pdx_lt_of_lt_utop (lt_utop_of_legal legal)) hperm hfree (s.envs e).envAsid
          simp only [inv.pm.pageAlloc_cons hfree, tryRet, run]
          exact ⟨e, pm, zeroRet r, rfl, inv', frame⟩

theorem KernelInv.sysMemMap (hcur : s.curenv = some cur) (allocated : cur ∉ s.envFreeList)
    (hperm : perm < 0x1000#32) :
    ∃ e pm r, Mos.sysMemMap s srcid srcva dstid dstva perm = .ok (s.withPm pm, r) ∧
      MemStep s e pm := by
  unfold Mos.sysMemMap
  by_cases legal : isIllegalVa srcva ∨ isIllegalVa dstva
  · exact ⟨cur, s.pm, .error .inval, by rw [if_pos legal]; rfl, .refl inv cur⟩
  rw [if_neg legal]
  push Not at legal
  obtain ⟨src, hsrc⟩ := envid2env_total hcur srcid true
  obtain ⟨dst, hdst⟩ := envid2env_total hcur dstid true
  cases src with
  | error err => exact ⟨cur, s.pm, .error .badEnv, by rw [hsrc]; rfl, .refl inv cur⟩
  | ok srcenv =>
      have allocSrc := inv.envid2env hcur allocated hsrc
      simp only [hsrc, Bind.bind, Except.bind]
      cases dst with
      | error err => exact ⟨cur, s.pm, .error .badEnv, by rw [hdst]; rfl, .refl inv cur⟩
      | ok dstenv =>
          have allocDst := inv.envid2env hcur allocated hdst
          have below := lt_utop_of_legal legal.1
          simp only [hdst, pageLookup_eq (inv.pm.inMemory (Kernel.dirs_of_notMem allocSrc)
            (lt_ulim_of_lt_utop below))]
          cases found : lookup s.pm.mem (s.envs srcenv).envPgdir srcva with
          | none => exact ⟨cur, s.pm, .error .inval, rfl, .refl inv cur⟩
          | some page =>
              obtain ⟨p, pte⟩ := page
              obtain ⟨pm, r, run, step⟩ := inv.mapFound bounded allocSrc allocDst below
                (lt_utop_of_legal legal.2) hperm found (s.envs dstenv).envAsid
              simp only [run]
              exact ⟨dstenv, pm, zeroRet r, rfl, step⟩

theorem KernelInv.pageRemove (he : e ∉ s.envFreeList) (hva : va < utop) (asid : Word) :
    ∃ pm, Mos.pageRemove s.pm (s.envs e).envPgdir asid va = .ok pm ∧ MemStep s e pm := by
  have hd := Kernel.dirs_of_notMem he
  have below := lt_ulim_of_lt_utop hva
  have user := pdx_lt_of_lt_utop hva
  cases found : lookup s.pm.mem (s.envs e).envPgdir va with
  | none => exact ⟨s.pm, inv.pm.pageRemove_none hd below found, .refl inv e⟩
  | some page =>
      obtain ⟨p, pte⟩ := page
      obtain ⟨t, ht, hp, -⟩ := lookup_eq_some_iff.mp found
      have bound := Nat.lt_succ_of_le (bounded p)
      obtain ⟨inv', frame⟩ :=
        inv.pm.unmap (i := ⟨_, user⟩) (j := ⟨_, ptx_lt va⟩) hd ht hp bound
      exact ⟨_, inv.pm.pageRemove_some hd below user ht hp bound, inv'.tlbInvalidate asid va,
        frame.trans (.tlbInvalidate s.dirs e _ asid va)⟩

theorem KernelInv.sysMemUnmap (hcur : s.curenv = some cur) (allocated : cur ∉ s.envFreeList) :
    ∃ e pm r, Mos.sysMemUnmap s envid va = .ok (s.withPm pm, r) ∧ MemStep s e pm := by
  unfold Mos.sysMemUnmap
  by_cases legal : isIllegalVa va
  · exact ⟨cur, s.pm, .error .inval, by rw [if_pos legal]; rfl, .refl inv cur⟩
  rw [if_neg legal]
  obtain ⟨found, lookup⟩ := envid2env_total hcur envid true
  cases found with
  | error err => exact ⟨cur, s.pm, .error .badEnv, by rw [lookup]; rfl, .refl inv cur⟩
  | ok e =>
      have he := inv.envid2env hcur allocated lookup
      obtain ⟨pm, run, step⟩ :=
        inv.pageRemove bounded he (lt_utop_of_legal legal) (s.envs e).envAsid
      simp only [lookup, Bind.bind, Except.bind, run]
      exact ⟨e, pm, .ok 0, rfl, step⟩

theorem KernelInv.ipcTransfer (hcur : cur ∉ s.envFreeList) (he : e ∉ s.envFreeList)
    (hsrc : srcva < utop) (hperm : perm < 0x1000#32) :
    ∃ pm r, Mos.ipcTransfer s cur e srcva perm = .ok (s.withPm pm, r) ∧ MemStep s e pm := by
  unfold Mos.ipcTransfer
  by_cases zero : srcva = 0
  · exact ⟨s.pm, .ok 0, by rw [if_pos zero]; rfl, .refl inv e⟩
  rw [if_neg zero, pageLookup_eq (inv.pm.inMemory (Kernel.dirs_of_notMem hcur)
    (lt_ulim_of_lt_utop hsrc))]
  cases found : lookup s.pm.mem (s.envs cur).envPgdir srcva with
  | none => exact ⟨s.pm, .error .inval, rfl, .refl inv e⟩
  | some page =>
      obtain ⟨p, pte⟩ := page
      obtain ⟨pm, r, run, step⟩ := inv.mapFound bounded hcur he hsrc (inv.dstva_lt e) hperm found
        (s.envs e).envAsid
      simp only [Bind.bind, Except.bind, run]
      exact ⟨pm, .ok 0, rfl, step⟩

end MemCalls

end Mos
