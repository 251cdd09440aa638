import Mos.Translation
import Mos.IpcAsked

/-!
# What `sys_ipc_try_send` promises its two sides

The call delivers the value and wakes the receiver before it looks the page up, and
does not look at what `page_insert` returns. So an error does not always mean that
nothing happened, and a success not always that the page has arrived.
-/

namespace Mos

/-- A page is offered that the sender has not mapped, to an env that waits. -/
def SendsUnmapped (s : Kernel) (envid srcva : Word) : Prop :=
  srcva ≠ 0 ∧ ¬ isIllegalVa srcva ∧ ∃ e cur, envid2env s envid false = .ok (.ok e) ∧
    (s.envs e).envIpcRecving ≠ 0 ∧ s.curenv = some cur ∧
      pageLookup s.pm (s.envs cur).envPgdir srcva = .ok none

section Send

variable {s s' : Kernel} {e cur : EnvIx} {envid value srcva perm : Word} {pp : Nat} {pte : PtePtr}

/-- The message changes no page directory, ASID or destination. -/
theorem ipcDeliver_field {α : Type} (field : Env → α) (h : ∀ env value id perm, field { env with
      envIpcValue := value, envIpcFrom := id, envIpcPerm := perm, envIpcRecving := 0,
      envStatus := .runnable } = field env) (x : EnvIx) :
    field ((ipcDeliver s cur e value perm).envs x) = field (s.envs x) := by
  rw [ipcDeliver_env]
  split
  · exact h _ _ _ _
  · rfl

theorem ipcDeliver_pgdir (x : EnvIx) :
    ((ipcDeliver s cur e value perm).envs x).envPgdir = (s.envs x).envPgdir :=
  ipcDeliver_field Env.envPgdir (fun _ _ _ _ => rfl) x

theorem ipcDeliver_asid (x : EnvIx) :
    ((ipcDeliver s cur e value perm).envs x).envAsid = (s.envs x).envAsid :=
  ipcDeliver_field Env.envAsid (fun _ _ _ _ => rfl) x

theorem ipcDeliver_dstva (x : EnvIx) :
    ((ipcDeliver s cur e value perm).envs x).envIpcDstva = (s.envs x).envIpcDstva :=
  ipcDeliver_field Env.envIpcDstva (fun _ _ _ _ => rfl) x

theorem ipcDeliver_ne (waits : (s.envs e).envIpcRecving ≠ 0) :
    ipcDeliver s cur e value perm ≠ s := by
  intro same
  apply waits
  rw [← same, ipcDeliver_env, if_pos rfl]

/-- The call when the target waits and no page is found at `srcva`. -/
theorem sysIpcTrySend_unmapped (h : SendsUnmapped s envid srcva) (value perm : Word) :
    ∃ e cur, (s.envs e).envIpcRecving ≠ 0 ∧
      sysIpcTrySend s envid value srcva perm =
        .ok (ipcDeliver s cur e value perm, .error .inval) := by
  obtain ⟨carries, legal, e, cur, lookup, waits, hcur, unmapped⟩ := h
  have current : s.current = .ok cur := by rw [Kernel.current, hcur]
  refine ⟨e, cur, waits, ?_⟩
  have transfer : ipcTransfer (ipcDeliver s cur e value perm) cur e srcva perm =
      .ok (ipcDeliver s cur e value perm, .error .inval) := by
    unfold ipcTransfer
    rw [if_neg carries, ipcDeliver_pgdir]
    simp only [show (ipcDeliver s cur e value perm).pm = s.pm from rfl, unmapped, Bind.bind,
      Except.bind]
  simp only [sysIpcTrySend, if_neg (not_and_of_not_right _ legal), lookup, tryRet, if_neg waits,
    current, Bind.bind, Except.bind, transfer]

/-- After the message is delivered, the only error is that of the page. -/
theorem sendsUnmapped_of_error {err : Err} (legal : ¬ (srcva ≠ 0 ∧ isIllegalVa srcva))
    (lookup : envid2env s envid false = .ok (.ok e)) (waits : (s.envs e).envIpcRecving ≠ 0)
    (hcur : s.curenv = some cur)
    (h : ipcTransfer (ipcDeliver s cur e value perm) cur e srcva perm = .ok (s', .error err)) :
    SendsUnmapped s envid srcva := by
  unfold ipcTransfer at h
  by_cases zero : srcva = 0
  · rw [if_pos zero] at h
    cases h
  rw [if_neg zero, ipcDeliver_pgdir] at h
  obtain ⟨found, page, h⟩ := bind_eq_ok.mp h
  cases found with
  | none => exact ⟨zero, fun illegal => legal ⟨zero, illegal⟩, e, cur, lookup, waits, hcur, page⟩
  | some page =>
      obtain ⟨inserted, -, h⟩ := bind_eq_ok.mp h
      cases h

/-- An error leaves the kernel as it was, unless the sender offers a page it has not
mapped to an env that waits. -/
theorem send_all_or_nothing (s : Kernel) (envid value srcva perm : Word) :
    (∀ s' err, sysIpcTrySend s envid value srcva perm = .ok (s', .error err) → s' = s) ↔
      ¬ SendsUnmapped s envid srcva := by
  refine ⟨fun h unmapped => ?_, fun mapped s' err h => ?_⟩
  · obtain ⟨e, cur, waits, sent⟩ := sysIpcTrySend_unmapped unmapped value perm
    exact ipcDeliver_ne waits (h _ _ sent)
  · rcases sysIpcTrySend_ok h with ⟨-, -, same, -⟩ | ⟨e, cur, pm, legal, lookup, waits, hcur, sent, -⟩
    · exact same
    · exact absurd (sendsUnmapped_of_error legal lookup waits hcur sent) mapped

/-! ## A successful send -/

/-- The entry for `va` names page `pp`, with the flags of `perm` and `PTE_V`. -/
def MapsPage (pm : Pmap) (d : Nat) (va : Word) (pp : Nat) (perm : Word) : Prop :=
  ∃ w, Maps pm d va w ∧ pteAddr w = page2pa pp ∧ w &&& 0xfff#32 = (perm ||| pteV) &&& 0xfff#32

/-- The page the sender had at `srcva` is where the receiver asked for it. -/
def PageArrived (s s' : Kernel) (cur e : EnvIx) (srcva perm : Word) : Prop :=
  srcva ≠ 0 ∧ ∃ pp pte, pageLookup s.pm (s.envs cur).envPgdir srcva = .ok (some (pp, pte)) ∧
    MapsPage s'.pm (s'.envs e).envPgdir (s'.envs e).envIpcDstva pp perm

/-- What a send that returns 0 stands for. -/
def SendMeans (s s' : Kernel) (cur e : EnvIx) (srcva perm : Word) : Prop :=
  (srcva ≠ 0 → PageArrived s s' cur e srcva perm) ∧
    ((s'.envs e).envIpcPerm.Has pteV ↔ PageArrived s s' cur e srcva perm)

/-- A page is sent, the permission brings no address bits that are not those of the page,
and a page is left if the receiver needs a page table. -/
def SendsWell (s : Kernel) (cur e : EnvIx) (srcva perm : Word) : Prop :=
  srcva ≠ 0 ∧ (∀ pp pte, pageLookup s.pm (s.envs cur).envPgdir srcva = .ok (some (pp, pte)) →
    page2pa pp ||| pteAddr perm = page2pa pp) ∧
  (entry (s.pm.mem (s.envs e).envPgdir (pdx (s.envs e).envIpcDstva)) = none →
    s.pm.pageFreeList ≠ [])

theorem page2pa_low (pp : Nat) : page2pa pp &&& 0xfff#32 = 0#32 := by
  rw [← pteAddr_page2pa, pteAddr, BitVec.and_assoc]
  have apart : ~~~0xfff#32 &&& 0xfff#32 = 0#32 := by decide
  rw [apart, BitVec.and_zero]

theorem entry_flags (pp : Nat) (perm : Word) :
    (page2pa pp ||| perm ||| pteV) &&& 0xfff#32 = (perm ||| pteV) &&& 0xfff#32 := by
  rw [BitVec.or_assoc, BitVec.and_or_distrib_right, page2pa_low, BitVec.zero_or]

theorem Maps.unique {pm : Pmap} {d : Nat} {va w w' : Word} (h : Maps pm d va w)
    (h' : Maps pm d va w') : w = w' := by
  obtain ⟨t, ht, -, word⟩ := h
  obtain ⟨t', ht', -, word'⟩ := h'
  rw [ht, Option.some.injEq] at ht'
  rw [← word, ← word', ht']

theorem Maps.mapsPage_iff {pm : Pmap} {d : Nat} {va : Word}
    (maps : Maps pm d va (page2pa pp ||| perm ||| pteV)) :
    MapsPage pm d va pp perm ↔ page2pa pp ||| pteAddr perm = page2pa pp := by
  rw [← pteAddr_entry]
  constructor
  · intro h
    obtain ⟨w, maps', page, -⟩ := h
    rwa [maps.unique maps']
  · exact fun exact' => ⟨_, maps, exact', entry_flags pp perm⟩

/-- The page has arrived exactly when the send was a good one. -/
theorem pageArrived_iff
    (sane : Addressable s.pm (s.envs e).envPgdir (s.envs e).envIpcDstva)
    (h : ipcTransfer (ipcDeliver s cur e value perm) cur e srcva perm = .ok (s', .ok 0)) :
    PageArrived s s' cur e srcva perm ↔ SendsWell s cur e srcva perm := by
  by_cases zero : srcva = 0
  · exact iff_of_false (fun h => h.1 zero) (fun h => h.1 zero)
  unfold ipcTransfer at h
  rw [if_neg zero, ipcDeliver_pgdir, ipcDeliver_pgdir, ipcDeliver_asid, ipcDeliver_dstva] at h
  obtain ⟨found, page, h⟩ := bind_eq_ok.mp h
  change pageLookup s.pm (s.envs cur).envPgdir srcva = .ok found at page
  cases found with
  | none => cases h
  | some found =>
      obtain ⟨pp, pte⟩ := found
      obtain ⟨⟨pm, r⟩, insert, h⟩ := bind_eq_ok.mp h
      cases h
      change pageInsert s.pm _ _ _ _ _ = _ at insert
      have only : ∀ pp' pte', pageLookup s.pm (s.envs cur).envPgdir srcva =
          .ok (some (pp', pte')) → pp' = pp := by
        intro pp' pte' found
        rw [page] at found
        cases found
        rfl
      have arrived : PageArrived s ((ipcDeliver s cur e value perm).withPm pm) cur e srcva perm ↔
          MapsPage pm (s.envs e).envPgdir (s.envs e).envIpcDstva pp perm := by
        show _ ∧ (∃ pp pte, _ ∧ MapsPage pm ((ipcDeliver s cur e value perm).envs e).envPgdir
          ((ipcDeliver s cur e value perm).envs e).envIpcDstva pp perm) ↔ _
        rw [ipcDeliver_pgdir, ipcDeliver_dstva]
        constructor
        · intro h
          obtain ⟨-, pp', pte', found, maps⟩ := h
          rwa [only pp' pte' found] at maps
        · exact fun maps => ⟨zero, pp, pte, page, maps⟩
      rw [arrived]
      rcases sane.pageInsert insert with ⟨vacant, full, same, -⟩ | ⟨room, -, maps⟩
      · refine iff_of_false (fun h => ?_) fun h => h.2.2 vacant full
        obtain ⟨w, ⟨t, ht, -⟩, -⟩ := h
        rw [same] at ht
        cases vacant.symm.trans ht
      · rw [maps.mapsPage_iff]
        constructor
        · intro exact'
          refine ⟨zero, fun pp' pte' found => ?_, room⟩
          rwa [only pp' pte' found]
        · exact fun h => h.2.1 pp pte page

/-- A send that returns 0 means what it should exactly when it was a good one. -/
theorem send_means_iff (lookup : envid2env s envid false = .ok (.ok e))
    (hcur : s.curenv = some cur)
    (sane : Addressable s.pm (s.envs e).envPgdir (s.envs e).envIpcDstva)
    (h : sysIpcTrySend s envid value srcva perm = .ok (s', .ok 0)) :
    SendMeans s s' cur e srcva perm ↔ SendsWell s cur e srcva perm := by
  rcases sysIpcTrySend_ok h with ⟨err, -, -, failed⟩ |
      ⟨e', cur', pm, -, lookup', -, hcur', sent, rfl, -⟩
  · cases failed
  rw [lookup, Except.ok.injEq, Except.ok.injEq] at lookup'
  rw [hcur, Option.some.injEq] at hcur'
  subst lookup' hcur'
  have valid : ((((ipcDeliver s cur e value perm).withPm pm).envs e).envIpcPerm).Has pteV := by
    show ((ipcDeliver s cur e value perm).envs e).envIpcPerm.Has pteV
    rw [ipcDeliver_env, if_pos rfl]
    exact (Word.has_or _ _ _).mpr (.inl (by decide))
  rw [← pageArrived_iff sane sent]
  exact ⟨fun means => means.2.mp valid,
    fun arrived => ⟨fun _ => arrived, iff_of_true valid arrived⟩⟩

end Send

/-! ## A receiver that waits -/

/-- The directory of the first env of `smallBoot` maps nothing below 8 MB. -/
theorem twoEnvs_unmapped (pm : Pmap) :
    entry ((twoEnvs pm).pm.mem ((twoEnvs pm).envs 0).envPgdir 1) = none ∧
      entry ((twoEnvs pm).pm.mem ((twoEnvs pm).envs 1).envPgdir 0) = none := by
  have first : (twoEnvs pm).pm.mem ((twoEnvs pm).envs 0).envPgdir 1 = 0 := rfl
  have second : (twoEnvs pm).pm.mem ((twoEnvs pm).envs 1).envPgdir 0 = 0 := rfl
  rw [first, second]
  exact ⟨rfl, rfl⟩

/-- The second env of `smallBoot` waits for a message, and the first one runs. -/
theorem waiting_run : ∃ s₀ s, envInit smallBoot = .ok s₀ ∧
    Run kernelStep s₀ (tickOps ++ [.sys (.ipcRecv 0)]) s ∧ s.curenv = some 0 ∧
    envid2env s 4097 false = .ok (.ok 1) ∧ (s.envs 1).envIpcRecving ≠ 0 ∧
    entry (s.pm.mem (s.envs 0).envPgdir 1) = none ∧ (s.envs 1).envIpcDstva = 0 ∧
    s.pm.pageFreeList = sparePages ∧ entry (s.pm.mem (s.envs 1).envPgdir 0) = none := by
  obtain ⟨pm, s₁, boot, create₁, create₂, bounded₁, -, bounded₂⟩ := twoEnvs_boot
  obtain ⟨s₂, s₃, q, tick, current₂, recv, current₃, -, -⟩ := twoEnvs_waiting pm
  have resumed₁ := (schedule_ok tick).1
  rcases sysIpcRecv_ok recv with ⟨zero, -⟩ | ⟨-, -, cur, q₁, hcur, -, scheduled⟩
  · exact absurd rfl zero
  rw [current₂, Option.some.injEq] at hcur
  subst hcur
  have resumed₂ := (schedule_ok scheduled).1
  have bounded₃ := bounded₂.resumed resumed₁
  have bounded₄ : Bounded s₃ := by
    refine Bounded.resumed (s := s₂.await 1 0 q₁) (fun p => ?_) resumed₂
    have dirs : (s₂.await 1 0 q₁).dirs = s₂.dirs := by
      refine Kernel.dirs_congr rfl fun x => ?_
      rw [Kernel.await_env]
      split <;> rfl
    rw [dirs]
    exact bounded₃ p
  have first : kernelStep (kernelInit pm 335) (.envCreate ⟨[], 0⟩ 1) s₁ :=
    ⟨by simp [KernelOp.Enabled], ⟨_, create₁⟩, bounded₁⟩
  have second : kernelStep s₁ (.envCreate ⟨[], 0⟩ 1) (twoEnvs pm) :=
    ⟨by simp [KernelOp.Enabled], ⟨_, create₂⟩, bounded₂⟩
  have third : kernelStep (twoEnvs pm) .tick s₂ := ⟨trivial, tick, bounded₃⟩
  have fourth : kernelStep s₂ (.sys (.ipcRecv 0)) s₃ :=
    ⟨⟨⟨_, current₂⟩, trivial⟩, ⟨_, recv⟩, bounded₄⟩
  have waits : (s₃.envs 1).envIpcRecving = 1 ∧ (s₃.envs 1).envIpcDstva = 0 := by
    rw [resumed₂.field Env.envIpcRecving fun _ _ _ => rfl,
      resumed₂.field Env.envIpcDstva fun _ _ _ => rfl, Kernel.await_env, if_pos rfl]
    exact ⟨rfl, rfl⟩
  have asleep : (s₃.envs 1).envStatus = .notRunnable := by
    rw [resumed₂.status, Kernel.await_env, if_pos rfl]
  have named : (s₃.envs 1).envId = 4097 := by
    rw [resumed₂.field Env.envId fun _ _ _ => rfl, Kernel.await_env, if_pos rfl]
    exact (resumed₁.field Env.envId (fun _ _ _ => rfl) 1).trans (twoEnvs_envId pm).2
  have pgdir : ∀ x, (s₃.envs x).envPgdir = ((twoEnvs pm).envs x).envPgdir := by
    intro x
    rw [resumed₂.field Env.envPgdir fun _ _ _ => rfl, Kernel.await_env]
    refine Eq.trans ?_ (resumed₁.field Env.envPgdir (fun _ _ _ => rfl) x)
    split <;> rfl
  have memory : s₃.pm = (twoEnvs pm).pm := resumed₂.pm.trans resumed₁.pm
  refine ⟨_, s₃, boot, (((Run.single first).snoc second).snoc third).snoc fourth, current₃,
    envid2env_eq (by decide) rfl (by rw [asleep]; simp) named, by rw [waits.1]; decide, ?_, waits.2,
    congrArg Pmap.pageFreeList memory, ?_⟩
  all_goals rw [memory, pgdir]
  · exact (twoEnvs_unmapped pm).1
  · exact (twoEnvs_unmapped pm).2

/-- The message without a page is delivered. -/
theorem waiting_send : ∃ s₀ s, envInit smallBoot = .ok s₀ ∧
    Run kernelStep s₀ (tickOps ++ [.sys (.ipcRecv 0)]) s ∧ s.curenv = some 0 ∧
    envid2env s 4097 false = .ok (.ok 1) ∧
    Addressable s.pm (s.envs 1).envPgdir (s.envs 1).envIpcDstva ∧
    sysIpcTrySend s 4097 7 0 0 = .ok (ipcDeliver s 0 1 7 0, .ok 0) := by
  obtain ⟨s₀, s, boot, run, hcur, lookup, waits, -, dstva, -⟩ := waiting_run
  obtain ⟨inv, -⟩ := kernelRun_inv boot run
  have sane := @LiveInv.addressable _ _ 0 inv (inv.envid2env lookup) (by decide)
  have current : s.current = .ok 0 := by rw [Kernel.current, hcur]
  refine ⟨s₀, s, boot, run, hcur, lookup, by rw [dstva]; exact sane.1, ?_⟩
  simp only [sysIpcTrySend, lookup, tryRet, current, Bind.bind, Except.bind, if_neg waits]
  rfl

/-- The receiver of a message without a page is told that there is one. -/
theorem send_not_means : ¬ ∀ (b : Boot) (s₀ s s' : Kernel) (ops : List KernelOp) (e cur : EnvIx)
    (envid value srcva perm : Word), envInit b = .ok s₀ → Run kernelStep s₀ ops s →
      envid2env s envid false = .ok (.ok e) → s.curenv = some cur →
      sysIpcTrySend s envid value srcva perm = .ok (s', .ok 0) →
        SendMeans s s' cur e srcva perm := by
  intro always
  obtain ⟨s₀, s, boot, run, hcur, lookup, -, sent⟩ := waiting_send
  have means := always _ _ _ _ _ _ _ _ _ _ _ boot run lookup hcur sent
  have valid : (((ipcDeliver s 0 1 7 0).envs 1).envIpcPerm).Has pteV := by
    have flag : (pteV ||| 0#32).Has pteV := by decide
    rw [ipcDeliver_env, if_pos rfl]
    exact flag
  exact (means.2.mp valid).1 rfl

/-- The receiver is woken by a send that returns an error. -/
theorem send_not_all_or_nothing : ¬ ∀ (b : Boot) (s₀ s s' : Kernel) (ops : List KernelOp)
    (envid value srcva perm : Word) (err : Err), envInit b = .ok s₀ → Run kernelStep s₀ ops s →
      sysIpcTrySend s envid value srcva perm = .ok (s', .error err) → s' = s := by
  intro always
  obtain ⟨s₀, s, boot, run, hcur, lookup, waits, unmapped, -⟩ := waiting_run
  have nothing : pageLookup s.pm (s.envs 0).envPgdir 0x400000 = .ok none := by
    have invalid : ¬ (s.pm.mem (s.envs 0).envPgdir (pdx 0x400000)).Has pteV :=
      entry_eq_none_iff.mp unmapped
    simp only [pageLookup, pgdirWalk, if_neg invalid, Bind.bind, Except.bind]
    rfl
  obtain ⟨e, cur, asked, sent⟩ := sysIpcTrySend_unmapped
    ⟨by decide, by decide, 1, 0, lookup, waits, hcur, nothing⟩ 0 0
  exact ipcDeliver_ne asked (always _ _ _ _ _ _ _ _ _ _ boot run sent)

end Mos
