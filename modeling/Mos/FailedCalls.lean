import Mos.Translation
import Mos.Isolation
import Mos.Asids

/-!
# Calls that fail

What a failed call leaves behind. The memory calls undo nothing, but only
`sys_mem_alloc` can fail after it has taken a page; `env_alloc` takes a page for the
page directory before it looks for an ASID.
-/

namespace Mos

variable {s s' : Kernel} {e : EnvIx} {pm pm' : Pmap} {d pp : Nat} {asid va perm : Word}

/-! ## The memory calls -/

inductive MemCall
  | alloc (envid va perm : Word)
  | map (srcid srcva dstid dstva perm : Word)
  | unmap (envid va : Word)

def MemCall.exec (s : Kernel) : MemCall → Except Panic (Kernel × Ret)
  | .alloc envid va perm => sysMemAlloc s envid va perm
  | .map srcid srcva dstid dstva perm => sysMemMap s srcid srcva dstid dstva perm
  | .unmap envid va => sysMemUnmap s envid va

/-- The free pages, the counts and the page tables of the envs in use are as before. -/
structure SameMemory (s s' : Kernel) : Prop where
  free : ∀ p, p ∈ s'.pm.pageFreeList ↔ p ∈ s.pm.pageFreeList
  refs : s'.pm.ppRef = s.pm.ppRef
  tables : ∀ e, e ∉ s.envFreeList → (s'.envs e).envPgdir = (s.envs e).envPgdir ∧
    SameSpace s.pm.mem s'.pm.mem (s.envs e).envPgdir

/-- The call allocates the last free page, and mapping it takes another one for a page
table. -/
def MemCall.TakesLast (s : Kernel) : MemCall → Prop
  | .alloc envid va _ => ∃ e p, envid2env s envid true = .ok (.ok e) ∧ ¬ isIllegalVa va ∧
      s.pm.pageFreeList = [p] ∧ entry (s.pm.mem (s.envs e).envPgdir (pdx va)) = none
  | _ => False

theorem SameMemory.refl (s : Kernel) : SameMemory s s :=
  ⟨fun _ => Iff.rfl, rfl, fun _ _ => ⟨rfl, rfl, fun _ _ _ _ => rfl⟩⟩

/-- Nothing but the TLB has changed. -/
theorem SameMemory.tlbInvalidate (s : Kernel) (asid va : Word) :
    SameMemory s (s.withPm (s.pm.tlbInvalidate asid va)) :=
  ⟨fun _ => Iff.rfl, rfl, fun _ _ => ⟨rfl, rfl, fun _ _ _ _ => rfl⟩⟩

/-- `page_insert` fails before it has changed anything. -/
theorem Addressable.pageInsert_error {err : Err} (sane : Addressable pm d va)
    (h : Mos.pageInsert pm d asid pp va perm = .ok (pm', .error err)) :
    entry (pm.mem d (pdx va)) = none ∧ pm.pageFreeList = [] ∧ pm' = pm.tlbInvalidate asid va := by
  rcases sane.pageInsert h with ⟨vacant, full, same, -⟩ | ⟨-, failed, -⟩
  · exact ⟨vacant, full, same⟩
  · cases failed

theorem zeroRet_error {r : Except Err Unit} {err : Err} (h : zeroRet r = .error err) :
    r = .error err := by
  cases r with
  | error _ =>
      cases h
      rfl
  | ok _ => cases h

/-- `sys_mem_alloc` fails without a page, or with the only page there is. -/
theorem sysMemAlloc_error {envid : Word} {err : Err} (inv : LiveInv s)
    (h : sysMemAlloc s envid va perm = .ok (s', .error err)) :
    (s' = s ∧ ¬ (MemCall.alloc envid va perm).TakesLast s) ∨
    ((MemCall.alloc envid va perm).TakesLast s ∧ s'.pm.pageFreeList = []) := by
  unfold sysMemAlloc at h
  split at h
  · rename_i illegal
    cases h
    exact .inl ⟨rfl, fun ⟨_, _, _, legal, _⟩ => legal illegal⟩
  · rename_i legal
    obtain ⟨found, lookup, h⟩ := bind_eq_ok.mp h
    cases found with
    | error _ =>
        cases h
        refine .inl ⟨rfl, fun ⟨e, _, lookup', _⟩ => ?_⟩
        rw [lookup] at lookup'
        cases lookup'
    | ok e =>
        obtain ⟨⟨pm₁, r⟩, alloc, h⟩ := bind_eq_ok.mp h
        rcases pageAlloc_ok alloc with ⟨full, rfl, rfl⟩ | ⟨p, rest, hfree, rfl, rfl⟩
        · cases h
          refine .inl ⟨rfl, fun ⟨_, p, _, _, last, _⟩ => ?_⟩
          rw [full] at last
          cases last
        · obtain ⟨⟨pm₂, r⟩, inserted, h⟩ := bind_eq_ok.mp h
          have isFree : p ∈ s.pm.pageFreeList := by rw [hfree]; exact List.mem_cons_self
          have inUse := inv.envid2env lookup
          have below : va < utop := BitVec.not_le.mp (not_or.mp legal).2
          obtain ⟨sane, notFree⟩ := @LiveInv.addressable _ _ va inv inUse below
          have name : ppn (page2pa p) = p :=
            ppn_page2pa (Nat.lt_of_lt_of_le (sane.free_lt p isFree) sane.npage_le)
          rw [name] at inserted
          have hne : (s.envs e).envPgdir ≠ p := fun eq => notFree (eq ▸ isFree)
          have same : (({ s.pm with pageFreeList := rest } : Pmap).zeroPage p).mem
              (s.envs e).envPgdir = s.pm.mem (s.envs e).envPgdir := Function.update_of_ne hne _ _
          have sub : ∀ q ∈ rest, q ∈ s.pm.pageFreeList := fun q hq => by
            rw [hfree]
            exact List.mem_cons_of_mem _ hq
          have sane₁ : Addressable (({ s.pm with pageFreeList := rest } : Pmap).zeroPage p)
              (s.envs e).envPgdir va :=
            ⟨by rw [same]; exact sane.table_ne, sane.npage_le,
              fun q hq => sane.free_lt q (sub q hq), fun _ hq => notFree (sub _ hq)⟩
          simp only [Except.ok.injEq, Prod.mk.injEq] at h
          obtain ⟨rfl, hr⟩ := h
          cases zeroRet_error hr
          obtain ⟨vacant, full, rfl⟩ := sane₁.pageInsert_error inserted
          have last : rest = [] := full
          refine .inr ⟨⟨e, p, lookup, legal, by rw [hfree, last], ?_⟩, full⟩
          rw [same] at vacant
          exact vacant

/-- `sys_mem_map` and `sys_mem_unmap` fail before they have changed anything. -/
theorem sysMemMap_error {srcid srcva dstid : Word} {err : Err} (inv : LiveInv s)
    (h : sysMemMap s srcid srcva dstid va perm = .ok (s', .error err)) : SameMemory s s' := by
  rcases sysMemMap_cases h with
    ⟨rfl, -⟩ | ⟨src, dst, pp, pte, pm₁, r, -, legal, -, lookup, -, inserted, rfl, hr⟩
  · exact .refl _
  · cases zeroRet_error hr.symm
    obtain ⟨sane, -⟩ := @LiveInv.addressable _ _ va inv (inv.envid2env lookup)
      (lt_utop_of_legal legal)
    obtain ⟨-, -, rfl⟩ := sane.pageInsert_error inserted
    exact .tlbInvalidate s _ _

theorem sysMemUnmap_error {envid : Word} {err : Err}
    (h : sysMemUnmap s envid va = .ok (s', .error err)) : s' = s := by
  rcases sysMemUnmap_cases h with ⟨same, -⟩ | ⟨-, -, -, -, -, -, done⟩
  · exact same
  · cases done

/-- A memory call that fails leaves the memory as it was, unless it took the last page
for a mapping that needs another one. -/
theorem failed_mem_call_iff {call : MemCall} {err : Err} (inv : LiveInv s)
    (h : call.exec s = .ok (s', .error err)) : SameMemory s s' ↔ ¬ call.TakesLast s := by
  cases call with
  | alloc envid va perm =>
      rcases sysMemAlloc_error inv h with ⟨rfl, room⟩ | ⟨last, none⟩
      · exact iff_of_true (.refl _) room
      · refine iff_of_false (fun same => ?_) (not_not_intro last)
        obtain ⟨e, p, -, -, only, -⟩ := last
        have kept := (same.free p).mpr (by rw [only]; exact List.mem_cons_self)
        rw [none] at kept
        cases kept
  | map srcid srcva dstid dstva perm => exact iff_of_true (sysMemMap_error inv h) id
  | unmap envid va =>
      cases sysMemUnmap_error h
      exact iff_of_true (.refl _) id

/-- A machine that has one page left for the first env. -/
def tightBoot : Boot where
  npage := 336
  kernEnd := 330 * 4096
  envsPa := 4096
  mem := fun _ _ => 0
  array_le := Boot.array_fits
  envs_aligned := Boot.envs_at_page
  envs_below := by decide
  pages_fit := by decide

theorem tightBoot_free : (pageInit tightBoot).pageFreeList = [335, 334, 333, 332, 331] := by
  rw [pageInit_free]
  decide

/-- With a single page left nothing can be mapped where there is no page table. -/
theorem LiveInv.sysMemAlloc_last {p : Nat} {envid : Word} (inv : LiveInv s)
    (named : Mos.envid2env s envid true = .ok (.ok e)) (legal : ¬ isIllegalVa va)
    (hfree : s.pm.pageFreeList = [p])
    (vacant : entry (s.pm.mem (s.envs e).envPgdir (pdx va)) = none) (perm : Word) :
    ∃ s', Mos.sysMemAlloc s envid va perm = .ok (s', .error .noMem) := by
  have inUse := inv.envid2env named
  have hd := Kernel.dirs_of_notMem inUse
  have user := pdx_lt_of_lt_utop (BitVec.not_le.mp (not_or.mp legal).2)
  obtain ⟨taken, -, fresh⟩ := inv.inv.pm.take (e := e) hfree
  have hne : (s.envs e).envPgdir ≠ p := by
    intro eq
    exact fresh.untargeted (.dir e) (hd.trans (congrArg some eq))
  have vacant' : entry ((s.pm.take p []).mem (s.envs e).envPgdir (pdx va)) = none := by
    rw [show (s.pm.take p []).mem (s.envs e).envPgdir = s.pm.mem (s.envs e).envPgdir from
      Function.update_of_ne hne _ _]
    exact vacant
  have nowhere : Mos.lookup (s.pm.take p []).mem (s.envs e).envPgdir va = none := by
    simp [Mos.lookup, vacant']
  have counted : Counted s.dirs (s.pm.take p []) (s.envs e).envPgdir va := fun q pte found => by
    rw [nowhere] at found
    cases found
  have failed : pageInsert (s.pm.take p []) (s.envs e).envPgdir (s.envs e).envAsid p va perm =
      .ok ((s.pm.take p []).tlbInvalidate (s.envs e).envAsid va, .error .noMem) := by
    rcases taken.pageInsert_cases hd user counted p (s.envs e).envAsid perm with
      ⟨t, ht, -⟩ | ⟨s₁, t, prep, -⟩ | ⟨-, -, run⟩
    · rw [vacant'] at ht
      cases ht
    · cases prep with
      | table ht _ =>
          rw [vacant'] at ht
          cases ht
      | newTable _ more => cases more
      | removed ht _ =>
          rw [vacant'] at ht
          cases ht
    · exact run
  refine ⟨s.withPm ((s.pm.take p []).tlbInvalidate (s.envs e).envAsid va), ?_⟩
  simp only [Mos.sysMemAlloc, if_neg legal, named, inv.inv.pm.pageAlloc_cons hfree, tryRet, failed,
    Bind.bind, Except.bind]
  rfl

/-- On `tightBoot` the first env runs out of memory with a page in hand. -/
theorem tight_run : ∃ s₀ s s', envInit tightBoot = .ok s₀ ∧ Run kernelStep s₀ startOps s ∧
    (MemCall.alloc 0 0x400000 pteD).exec s = .ok (s', .error .noMem) ∧
    (MemCall.alloc 0 0x400000 pteD).TakesLast s := by
  obtain ⟨s₀, s, boot, run, hcur, -, -, hfree, vacant, -⟩ := startOps_run tightBoot_free
  obtain ⟨inv, -⟩ := kernelRun_inv boot run
  have lookup : envid2env s 0 true = .ok (.ok 0) := by
    simp [envid2env, Kernel.current, hcur, Bind.bind, Except.bind]
  have empty : entry (s.pm.mem (s.envs 0).envPgdir (pdx 0x400000)) = none := vacant _ (by decide)
  obtain ⟨s', failed⟩ := inv.sysMemAlloc_last lookup (by decide) hfree empty pteD
  exact ⟨s₀, s, s', boot, run, failed, 0, 331, lookup, by decide, hfree, empty⟩

theorem failed_mem_call_iff_tight : ∃ s s', LiveInv s ∧
    (MemCall.alloc 0 0x400000 pteD).exec s = .ok (s', .error .noMem) ∧
    (SameMemory s s' ↔ ¬ (MemCall.alloc 0 0x400000 pteD).TakesLast s) := by
  obtain ⟨s₀, s, s', boot, run, failed, -⟩ := tight_run
  have inv := (kernelRun_inv boot run).1
  exact ⟨s, s', inv, failed, failed_mem_call_iff inv failed⟩

/-- The page that `sys_mem_alloc` took is lost. -/
theorem failed_mem_call_leaks : ¬ ∀ (b : Boot) (s₀ s s' : Kernel) (ops : List KernelOp)
    (call : MemCall) (err : Err), envInit b = .ok s₀ → Run kernelStep s₀ ops s →
    call.exec s = .ok (s', .error err) → SameMemory s s' := by
  intro always
  obtain ⟨s₀, s, s', boot, run, failed, last⟩ := tight_run
  have same := always _ _ _ _ _ _ _ boot run failed
  rcases sysMemAlloc_error (kernelRun_inv boot run).1 failed with ⟨-, room⟩ | ⟨-, none⟩
  · exact room last
  · obtain ⟨e, p, -, -, only, -⟩ := last
    have kept := (same.free p).mpr (by rw [only]; exact List.mem_cons_self)
    rw [none] at kept
    cases kept

/-! ## Creating an env -/

/-- What `env_alloc` takes is back in place. -/
structure Undone (s s' : Kernel) : Prop where
  free : s'.pm.pageFreeList = s.pm.pageFreeList
  refs : s'.pm.ppRef = s.pm.ppRef
  envs : s'.envFreeList = s.envFreeList
  asids : s'.asidBitmap = s.asidBitmap

/-- There is a slot and a page for a new env, but no ASID. -/
def Kernel.AsidsRunOut (s : Kernel) : Prop :=
  s.envFreeList ≠ [] ∧ s.pm.pageFreeList ≠ [] ∧ freeAsid s.asidBitmap = none

theorem Undone.refl (s : Kernel) : Undone s s := ⟨rfl, rfl, rfl, rfl⟩

/-- `env_alloc` fails before it takes anything, or with the page of the directory. -/
theorem envAlloc_error {parentId : Word} {err : Err}
    (h : envAlloc s parentId = .ok (s', .error err)) :
    (s' = s ∧ ¬ s.AsidsRunOut) ∨
    (s.AsidsRunOut ∧ s'.pm.pageFreeList.length + 1 = s.pm.pageFreeList.length) := by
  unfold envAlloc at h
  cases hfree : s.envFreeList with
  | nil =>
      simp only [hfree] at h
      cases h
      exact .inl ⟨rfl, fun out => out.1 hfree⟩
  | cons e rest =>
      simp only [hfree] at h
      obtain ⟨⟨s₁, done⟩, setup, h⟩ := bind_eq_ok.mp h
      unfold envSetupVm at setup
      obtain ⟨⟨pm₁, page⟩, alloc, setup⟩ := bind_eq_ok.mp setup
      rcases pageAlloc_ok alloc with ⟨full, rfl, rfl⟩ | ⟨p, pages, pages_eq, rfl, rfl⟩
      · cases setup
        cases h
        exact .inl ⟨rfl, fun out => out.2.1 full⟩
      · obtain ⟨pgdir, -, setup⟩ := bind_eq_ok.mp setup
        cases setup
        simp only [mkenvid] at h
        unfold asidAlloc at h
        cases hasid : freeAsid s.asidBitmap with
        | some i =>
            simp only [Kernel.setEnv, Kernel.withPm, hasid] at h
            cases h
        | none =>
            simp only [Kernel.setEnv, Kernel.withPm, hasid] at h
            cases h
            refine .inr ⟨⟨by simp [hfree], by simp [pages_eq], hasid⟩, ?_⟩
            rw [pages_eq]
            rfl

theorem Undone.iff_of_error {err : Err} {parentId : Word}
    (h : envAlloc s parentId = .ok (s', .error err)) : Undone s s' ↔ ¬ s.AsidsRunOut := by
  rcases envAlloc_error h with ⟨rfl, room⟩ | ⟨out, lost⟩
  · exact iff_of_true (.refl _) room
  · refine iff_of_false (fun undone => ?_) (not_not_intro out)
    rw [undone.free] at lost
    omega

inductive CreateCall
  | envAlloc (parentId : Word)
  | exofork

/-- `env_alloc` or `sys_exofork` fails. -/
def CreateCall.Fails (s s' : Kernel) : CreateCall → Prop
  | .envAlloc parentId => ∃ err, Mos.envAlloc s parentId = .ok (s', .error err)
  | .exofork => ∃ err, sysExofork s = .ok (s', .error err)

/-- A failed attempt to create an env is undone unless it is the ASIDs that ran out. -/
theorem failed_creation_undone_iff {call : CreateCall} (h : call.Fails s s') :
    Undone s s' ↔ ¬ s.AsidsRunOut := by
  cases call with
  | envAlloc parentId =>
      obtain ⟨err, h⟩ := h
      exact Undone.iff_of_error h
  | exofork =>
      obtain ⟨err, h⟩ := h
      obtain ⟨cur, -, h⟩ := bind_eq_ok.mp h
      obtain ⟨⟨s₁, r⟩, alloc, h⟩ := bind_eq_ok.mp h
      cases r with
      | error err =>
          cases h
          exact Undone.iff_of_error alloc
      | ok e => cases h

/-- A machine with pages for more envs than there are ASIDs. -/
def roomyBoot : Boot where
  npage := 512
  kernEnd := 312 * 4096
  envsPa := 4096
  mem := fun _ _ => 0
  array_le := by decide
  envs_aligned := Boot.envs_at_page
  envs_below := Boot.envs_fit
  pages_fit := by decide

theorem roomyBoot_free : ∃ p pages, (pageInit roomyBoot).pageFreeList = p :: pages ∧
    pages.length = 197 := by
  have length : (pageInit roomyBoot).pageFreeList.length = 198 := by
    rw [pageInit_free, List.length_reverse, List.length_range']
    decide
  cases h : (pageInit roomyBoot).pageFreeList with
  | nil =>
      rw [h] at length
      cases length
  | cons p pages =>
      rw [h] at length
      exact ⟨p, pages, rfl, Nat.succ.inj length⟩

/-- After `n` envs were created one after another. -/
structure Crowd (n : Nat) (s : Kernel) : Prop where
  inv : KernelInv s
  free : s.envFreeList = slots.drop n
  pages : s.pm.pageFreeList.length + n = 195
  used : ∀ j, j < nasid → (asidUsed s.asidBitmap j ↔ j < n)

theorem Crowd.slot {n : Nat} (crowd : Crowd n s) (le : n ≤ 64) :
    ∃ e rest, s.envFreeList = e :: rest ∧ rest = slots.drop (n + 1) := by
  have lt : n < slots.length := by
    rw [slots_length]
    unfold nenv
    omega
  exact ⟨slots[n], _, crowd.free.trans (List.drop_eq_getElem_cons lt), rfl⟩

theorem Crowd.page {n : Nat} (crowd : Crowd n s) (le : n ≤ 64) :
    ∃ p pages, s.pm.pageFreeList = p :: pages := by
  have length := crowd.pages
  cases h : s.pm.pageFreeList with
  | nil =>
      rw [h, List.length_nil] at length
      omega
  | cons p pages => exact ⟨p, pages, rfl⟩

theorem Crowd.next {n : Nat} (crowd : Crowd n s) (lt : n < 64) :
    ∃ s', asidStep s (.alloc 0) s' ∧ Crowd (n + 1) s' := by
  obtain ⟨e, rest, hfree, rest_eq⟩ := crowd.slot (Nat.le_of_lt lt)
  obtain ⟨p, pages, hpages⟩ := crowd.page (Nat.le_of_lt lt)
  have hasid : freeAsid s.asidBitmap = some n := by
    rw [freeAsid_eq crowd.used]
    exact if_pos lt
  refine ⟨_, .alloc (crowd.inv.envAlloc_eq hfree hpages hasid),
    crowd.inv.admitEnv hfree hpages n 0, rest_eq, ?_, fun j hj => ?_⟩
  · have length := crowd.pages
    rw [hpages, List.length_cons] at length
    show pages.length + (n + 1) = 195
    omega
  · show asidUsed (Function.update s.asidBitmap (n / 32) (s.asidBitmap (n / 32) ||| asidBit n)) j ↔ _
    rw [asidUsed_set, crowd.used j hj]
    omega

/-- With 64 envs the ASIDs run out. -/
theorem crowd_run : ∃ s₀ s evs, envInit roomyBoot = .ok s₀ ∧ Run asidStep s₀ evs s ∧
    Crowd 64 s := by
  obtain ⟨p, pages, hfree, length⟩ := roomyBoot_free
  obtain ⟨pm, boot, booting, free⟩ := envInit_spec hfree
  have start : Crowd 0 (kernelInit pm p) := by
    refine ⟨booting.kernelInv, rfl, ?_, fun j _ => ?_⟩
    · show pm.pageFreeList.length + 0 = 195
      rw [free, List.length_drop, length]
    · rw [asidUsed_iff]
      simp [kernelInit]
  have grow : ∀ n, n ≤ 64 → ∃ evs s, Run asidStep (kernelInit pm p) evs s ∧ Crowd n s := by
    intro n
    induction n with
    | zero => exact fun _ => ⟨[], _, .refl _, start⟩
    | succ n ih =>
        intro le
        obtain ⟨evs, s, run, crowd⟩ := ih (Nat.le_of_succ_le le)
        obtain ⟨s', step, crowd'⟩ := crowd.next le
        exact ⟨_, s', run.snoc step, crowd'⟩
  obtain ⟨evs, s, run, crowd⟩ := grow 64 (Nat.le_refl _)
  exact ⟨_, s, evs, boot, run, crowd⟩

theorem crowd_fails : ∃ s₀ s s' evs, envInit roomyBoot = .ok s₀ ∧ Run asidStep s₀ evs s ∧
    (CreateCall.envAlloc 0).Fails s s' ∧ s.AsidsRunOut := by
  obtain ⟨s₀, s, evs, boot, run, crowd⟩ := crowd_run
  obtain ⟨e, rest, hfree, -⟩ := crowd.slot (Nat.le_refl _)
  obtain ⟨p, pages, hpages⟩ := crowd.page (Nat.le_refl _)
  have hasid : freeAsid s.asidBitmap = none := by
    rw [freeAsid_eq crowd.used, if_neg (by decide)]
  refine ⟨s₀, s, s.newEnv e p pages, evs, boot, run, ⟨.noFreeEnv, ?_⟩, by simp [hfree],
    by simp [hpages], hasid⟩
  rcases crowd.inv.envAlloc_cases 0 with ⟨nil, -⟩ | ⟨_, _, -, nil, -⟩ |
    ⟨e', rest', p', pages', hfree', hpages', -, failed⟩ | ⟨_, _, _, _, _, -, -, some, -⟩
  · rw [nil] at hfree
    cases hfree
  · rw [nil] at hpages
    cases hpages
  · rw [hfree] at hfree'
    rw [hpages] at hpages'
    cases hfree'
    cases hpages'
    exact failed
  · rw [hasid] at some
    cases some

theorem failed_creation_undone_iff_crowd : ∃ s s', (CreateCall.envAlloc 0).Fails s s' ∧
    (Undone s s' ↔ ¬ s.AsidsRunOut) := by
  obtain ⟨s₀, s, s', evs, -, -, fails, -⟩ := crowd_fails
  exact ⟨s, s', fails, failed_creation_undone_iff fails⟩

/-- The page of the directory is lost. -/
theorem failed_creation_leaks : ¬ ∀ (b : Boot) (s₀ s s' : Kernel) (evs : List AsidEv)
    (call : CreateCall), envInit b = .ok s₀ → Run asidStep s₀ evs s → call.Fails s s' →
    Undone s s' := by
  intro always
  obtain ⟨s₀, s, s', evs, boot, run, fails, out⟩ := crowd_fails
  have undone := always _ _ _ _ _ _ boot run fails
  obtain ⟨err, failed⟩ := fails
  exact (Undone.iff_of_error failed).mp undone out

end Mos
