import Mos.KernelRun

/-!
# System calls act on the caller and its children

A call that passes `checkperm` to `envid2env` leaves every other env as it was:
its status, its trap frame, its TLB handler, and every page directory and page
table of its address space. `sys_set_tlb_mod_entry` and `sys_set_env_status` do
not pass it, and are isolated only when the env they name happens to be related.
-/

namespace Mos

variable {s s' : Kernel} {cur e : EnvIx} {envid : Word}

/-- The caller and its immediate children. -/
def Kernel.Family (s : Kernel) (e : EnvIx) : Prop :=
  ∃ cur, s.curenv = some cur ∧ (e = cur ∨ (s.envs e).envParentId = (s.envs cur).envId)

/-- The id names the caller or one of its children. -/
def Kernel.Related (s : Kernel) (envid : Word) : Prop :=
  ∃ e, s.Family e ∧ envid2env s envid false = .ok (.ok e)

/-- The address space of the directory `d` is what it was. -/
structure SameSpace (mem mem' : Nat → Nat → Word) (d : Nat) : Prop where
  dir : mem' d = mem d
  tables : ∀ k t, k < 1024 → entry (mem d k) = some t → mem' t = mem t

/-- Nothing that belongs to `e` has changed. -/
structure Untouched (s s' : Kernel) (e : EnvIx) : Prop where
  status : (s'.envs e).envStatus = (s.envs e).envStatus
  tf : (s'.envs e).envTf = (s.envs e).envTf
  tlbModEntry : (s'.envs e).envUserTlbModEntry = (s.envs e).envUserTlbModEntry
  pgdir : (s'.envs e).envPgdir = (s.envs e).envPgdir
  space : e ∉ s.envFreeList → SameSpace s.pm.mem s'.pm.mem (s.envs e).envPgdir

/-- The env ids a call is given. -/
def EnvCall.envids : EnvCall → List Word
  | .envDestroy envid => [envid]
  | .setTlbModEntry envid _ => [envid]
  | .memAlloc envid _ _ => [envid]
  | .memMap srcid _ dstid _ _ => [srcid, dstid]
  | .memUnmap envid _ => [envid]
  | .setEnvStatus envid _ => [envid]
  | .setTrapframe envid _ _ => [envid]

/-- The call changes nothing of an env outside the family, and is refused when it
names one. -/
def EnvCall.Isolated (s : Kernel) (call : EnvCall) : Prop :=
  (∀ s' r, call.exec s = .ok (s', r) → ∀ e, ¬ s.Family e → Untouched s s' e) ∧
  ∀ envid ∈ call.envids, ¬ s.Related envid → ∃ err, call.exec s = .ok (s, .error err)

/-- The calls that do not check the env they name are given one of the family. -/
def EnvCall.Checked (s : Kernel) : EnvCall → Prop
  | .setTlbModEntry envid _ => ∀ e, envid2env s envid false = .ok (.ok e) → s.Family e
  | .setEnvStatus envid status => userEnvStatus status ≠ none →
      ∀ e, envid2env s envid false = .ok (.ok e) → s.Family e
  | _ => True

/-! ## Address spaces -/

section Spaces

variable {ε : Type} [Fintype ε] {dirs : ε → Option Nat} {pm pm' : Pmap} {x y : ε}
  {d d' t : Nat}

theorem SameSpace.refl (mem : Nat → Nat → Word) (d : Nat) :
    SameSpace mem mem d := ⟨rfl, fun _ _ _ _ => rfl⟩

theorem SameSpace.trans {mem mem' mem'' : Nat → Nat → Word} (first : SameSpace mem mem' d)
    (second : SameSpace mem' mem'' d) : SameSpace mem mem'' d where
  dir := second.dir.trans first.dir
  tables k t hk ht :=
    (second.tables k t hk (by rw [first.dir]; exact ht)).trans (first.tables k t hk ht)

/-- Whatever leaves the directory, the user tables and the bystanders alone leaves
the address space alone. -/
theorem PmapInv.sameSpace (inv : PmapInv dirs pm) (hd : dirs x = some d)
    (dir : pm'.mem d = pm.mem d)
    (tables : ∀ (i : Fin 509) t, entry (pm.mem d i) = some t → pm'.mem t = pm.mem t)
    (kept : ∀ q, Bystander dirs pm q → pm'.mem q = pm.mem q) : SameSpace pm.mem pm'.mem d := by
  refine ⟨dir, fun k t hk ht => ?_⟩
  rcases Nat.lt_or_ge k 509 with user | kernel
  · exact tables ⟨k, user⟩ t ht
  · rcases eq_or_ne k 511 with rfl | hne
    · have lt := inv.page_lt (inv.target_lt (.dir x) d hd)
      rw [inv.selfMap x d hd, entry_selfMap lt] at ht
      cases ht
      exact dir
    · obtain ⟨valid, rfl⟩ := entry_eq_some_iff.mp ht
      exact kept _ (inv.window x d k hd kernel hk hne valid).bystander

theorem PmapInv.sameSpace_of_frame (inv : PmapInv dirs pm) (frame : Frame dirs x noPage pm pm')
    (hd : dirs y = some d) (hne : y ≠ x) : SameSpace pm.mem pm'.mem d :=
  inv.sameSpace hd (frame.others y d hd hne).1 (frame.others y d hd hne).2
    fun q hq => (frame.bystander q hq id).2.1

/-- A store to a page table of another address space. -/
theorem PmapInv.sameSpace_writeWord (inv : PmapInv dirs pm) (hx : dirs x = some d) {i : Fin 509}
    (ht : entry (pm.mem d i) = some t) (hy : dirs y = some d') (hne : y ≠ x) (k : Nat) (w : Word) :
    SameSpace pm.mem (writeWord pm.mem t k w) d' := by
  obtain ⟨dir, tables⟩ := others_writeLeaf (k := k) (w := w) inv.excl hx ht y d' hy hne
  refine @PmapInv.sameSpace _ _ _ pm (pm.setWord (t, k) w) _ _ inv hy dir tables fun q hq => ?_
  have hqt : q ≠ t := by
    rintro rfl
    exact hq.untargeted (.pde x i) ((target_pde hx).trans ht)
  exact writeWord_of_page_ne hqt

variable [DecidableEq ε] {pp : Nat} {va asid perm : Word} {r : Except Err Unit}

/-- `page_insert` leaves the other address spaces alone, whatever permission it is
given. -/
theorem PmapInv.sameSpace_pageInsert (inv : PmapInv dirs pm) (hx : dirs x = some d)
    (user : pdx va < 509) (counted : Counted dirs pm d va)
    (run : Mos.pageInsert pm d asid pp va perm = .ok (pm', r)) (hy : dirs y = some d')
    (hne : y ≠ x) : SameSpace pm.mem pm'.mem d' := by
  rcases inv.pageInsert_cases hx user counted pp asid perm with
    ⟨t, ht, -, run'⟩ | ⟨pm₁, t, prep, -, run'⟩ | ⟨-, -, run'⟩
  all_goals rw [run] at run'; cases run'
  · exact (inv.tlbInvalidate asid va).sameSpace_writeWord (i := ⟨_, user⟩) hx ht hy hne _ _
  · obtain ⟨inv₁, frame, ht, -⟩ := prep.spec inv hx user counted
    exact (inv.sameSpace_of_frame frame hy hne).trans
      (inv₁.sameSpace_writeWord (i := ⟨_, user⟩) hx ht hy hne _ _)
  · exact .refl pm.mem d'

end Spaces

/-! ## Envs outside the family -/

theorem Untouched.refl (s : Kernel) (e : EnvIx) : Untouched s s e :=
  ⟨rfl, rfl, rfl, rfl, fun _ => .refl _ _⟩

theorem Untouched.setEnv {x : EnvIx} (hne : e ≠ x) (f : Env → Env) :
    Untouched s (s.setEnv x f) e := by
  have same : (s.setEnv x f).envs e = s.envs e := Function.update_of_ne hne _ _
  exact ⟨by rw [same], by rw [same], by rw [same], by rw [same], fun _ => .refl _ _⟩

theorem Untouched.withPm {pm : Pmap}
    (space : e ∉ s.envFreeList → SameSpace s.pm.mem pm.mem (s.envs e).envPgdir) :
    Untouched s (s.withPm pm) e :=
  ⟨rfl, rfl, rfl, rfl, space⟩

theorem untouched_sysSetTlbModEntry {func : Word} {r : Ret}
    (checked : (EnvCall.setTlbModEntry envid func).Checked s)
    (h : sysSetTlbModEntry s envid func = .ok (s', r)) (outside : ¬ s.Family e) :
    Untouched s s' e := by
  rcases sysSetTlbModEntry_ok h with rfl | ⟨x, lookup, rfl⟩
  · exact .refl _ e
  · refine .setEnv (fun same => ?_) _
    subst same
    exact outside (checked e lookup)

theorem untouched_sysSetEnvStatus {status : Word} {r : Ret}
    (checked : (EnvCall.setEnvStatus envid status).Checked s)
    (h : sysSetEnvStatus s envid status = .ok (s', r)) (outside : ¬ s.Family e) :
    Untouched s s' e := by
  rcases sysSetEnvStatus_ok h with rfl | ⟨new, x, q, user, lookup, rfl⟩
  · exact .refl _ e
  · have hne : e ≠ x := by
      rintro rfl
      exact outside (checked (by simp [user]) e lookup)
    have same : (({ s with envSchedList := q } : Kernel).setEnv x fun env =>
        { env with envStatus := new }).envs e = s.envs e := Function.update_of_ne hne _ _
    exact ⟨by rw [same], by rw [same], by rw [same], by rw [same], fun _ => .refl _ _⟩

section Live

variable (inv : LiveInv s)

include inv

/-- With `checkperm` set the env found belongs to the family. -/
theorem LiveInv.family (h : Mos.envid2env s envid true = .ok (.ok e)) : s.Family e := by
  rcases envid2env_ok h with ⟨-, current⟩ | ⟨-, slot, -, id, allowed⟩
  · exact ⟨e, current, .inl rfl⟩
  · obtain ⟨cur, hcur, same | child⟩ := allowed rfl
    · refine ⟨cur, hcur, .inl ?_⟩
      rw [slot, ← id, same]
      exact inv.ids cur (inv.current cur hcur).1
    · exact ⟨cur, hcur, .inr child⟩

/-- An id that names no env of the family is refused. -/
theorem LiveInv.refused (hcur : s.curenv = some cur) (unrelated : ¬ s.Related envid) :
    Mos.envid2env s envid true = .ok (.error .badEnv) := by
  obtain ⟨found, lookup⟩ := envid2env_total hcur envid true
  cases found with
  | ok e => exact absurd ⟨e, inv.family lookup, envid2env_unchecked lookup⟩ unrelated
  | error err => rw [lookup, envid2env_error lookup]

/-- An env outside the family is not the one the call acts on. -/
theorem LiveInv.ne_of_lookup {x : EnvIx} (h : Mos.envid2env s envid true = .ok (.ok x))
    (outside : ¬ s.Family e) : e ≠ x := by
  rintro rfl
  exact outside (inv.family h)

theorem LiveInv.untouched_pageInsert {x : EnvIx} {p : Nat} {va perm : Word} {pm : Pmap}
    {r : Except Err Unit} (bounded : Bounded s) (hx : x ∉ s.envFreeList) (hva : va < utop)
    (run : pageInsert s.pm (s.envs x).envPgdir (s.envs x).envAsid p va perm = .ok (pm, r))
    (hne : e ≠ x) : Untouched s (s.withPm pm) e :=
  .withPm fun he => inv.inv.pm.sameSpace_pageInsert (Kernel.dirs_of_notMem hx)
    (pdx_lt_of_lt_utop hva) (fun q _ _ => Nat.lt_succ_of_le (bounded q)) run
    (Kernel.dirs_of_notMem he) hne

theorem LiveInv.untouched_memStep {x : EnvIx} {pm : Pmap} (step : MemStep s x pm) (hne : e ≠ x) :
    Untouched s (s.withPm pm) e :=
  .withPm fun he => inv.inv.pm.sameSpace_of_frame step.frame (Kernel.dirs_of_notMem he) hne

theorem LiveInv.untouched_sysMemAlloc {va perm : Word} {r : Ret} (bounded : Bounded s)
    (h : Mos.sysMemAlloc s envid va perm = .ok (s', r)) (outside : ¬ s.Family e) :
    Untouched s s' e := by
  rcases inv.inv.sysMemAlloc_cases h with
    rfl | ⟨x, p, rest, pm, res, legal, lookup, hfree, run, rfl⟩
  · exact .refl _ e
  · have hne := inv.ne_of_lookup lookup outside
    have hx := Kernel.dirs_of_notMem (inv.envid2env lookup)
    obtain ⟨taken, frame, -⟩ := inv.inv.pm.take (e := x) hfree
    have counted : Counted s.dirs (s.pm.take p rest) (s.envs x).envPgdir va := by
      intro q _ _
      rw [inv.inv.pm.target_take hfree]
      exact Nat.lt_succ_of_le (bounded q)
    exact .withPm fun he => (inv.inv.pm.sameSpace_of_frame frame
      (Kernel.dirs_of_notMem he) hne).trans (taken.sameSpace_pageInsert hx
        (pdx_lt_of_lt_utop (lt_utop_of_legal legal)) counted run
        (Kernel.dirs_of_notMem he) hne)

theorem LiveInv.untouched_sysMemMap {srcid srcva dstid dstva perm : Word} {r : Ret}
    (bounded : Bounded s) (h : Mos.sysMemMap s srcid srcva dstid dstva perm = .ok (s', r))
    (outside : ¬ s.Family e) : Untouched s s' e := by
  rcases sysMemMap_cases h with
    ⟨rfl, -⟩ | ⟨srcenv, dstenv, pp, pte, pm, res, -, legal, -, lookup, -, run, rfl, -⟩
  · exact .refl _ e
  · exact inv.untouched_pageInsert bounded (inv.envid2env lookup) (lt_utop_of_legal legal) run
      (inv.ne_of_lookup lookup outside)

theorem LiveInv.untouched_sysMemUnmap {va : Word} {r : Ret} (bounded : Bounded s)
    (h : Mos.sysMemUnmap s envid va = .ok (s', r)) (outside : ¬ s.Family e) :
    Untouched s s' e := by
  rcases sysMemUnmap_cases h with ⟨rfl, -⟩ | ⟨x, pm, legal, lookup, run, rfl, -⟩
  · exact .refl _ e
  · obtain ⟨pm', run', step⟩ := inv.inv.pageRemove bounded (inv.envid2env lookup)
      (lt_utop_of_legal legal) (s.envs x).envAsid
    rw [run] at run'
    cases run'
    exact inv.untouched_memStep step (inv.ne_of_lookup lookup outside)

theorem LiveInv.untouched_sysSetTrapframe {va : Word} {tf : Trapframe} {r : Ret}
    (h : Mos.sysSetTrapframe s envid va tf = .ok (s', r)) (outside : ¬ s.Family e) :
    Untouched s s' e := by
  rcases sysSetTrapframe_ok h with rfl | ⟨x, -, lookup, ⟨-, rfl, -⟩ | ⟨-, rfl⟩⟩
  · exact .refl _ e
  · exact ⟨rfl, rfl, rfl, rfl, fun _ => .refl _ _⟩
  · exact .setEnv (inv.ne_of_lookup lookup outside) _

/-- Destroying an env of the family leaves the others alone; the one that runs next
is only counted. -/
theorem LiveInv.untouched_sysEnvDestroy {r : Ret} (bounded : Bounded s)
    (h : Mos.sysEnvDestroy s envid = .ok (s', r)) (outside : ¬ s.Family e) :
    Untouched s s' e := by
  rcases sysEnvDestroy_ok h with rfl | ⟨x, lookup, destroyed⟩
  · exact .refl _ e
  · have hne := inv.ne_of_lookup lookup outside
    obtain ⟨pm, q, frame, -, next⟩ :=
      inv.inv.envDestroy_cases bounded (inv.envid2env lookup) destroyed
    have same : (s.reclaim x pm).envs e = s.envs e := Function.update_of_ne hne _ _
    have space : e ∉ s.envFreeList → SameSpace s.pm.mem pm.mem (s.envs e).envPgdir := fun he =>
      inv.inv.pm.sameSpace_of_frame frame (Kernel.dirs_of_notMem he) hne
    rcases next with ⟨-, resumed⟩ | ⟨-, rfl⟩
    · refine ⟨?_, ?_, ?_, ?_, fun he => ?_⟩
      · exact (resumed.status e).trans (congrArg Env.envStatus same)
      · exact (resumed.envTf e (by simp)).trans (congrArg Env.envTf same)
      · exact (resumed.field Env.envUserTlbModEntry (fun _ _ _ => rfl) e).trans
          (congrArg Env.envUserTlbModEntry same)
      · exact (resumed.field Env.envPgdir (fun _ _ _ => rfl) e).trans
          (congrArg Env.envPgdir same)
      · rw [resumed.pm]
        exact space he
    · exact ⟨congrArg Env.envStatus same, congrArg Env.envTf same,
        congrArg Env.envUserTlbModEntry same, congrArg Env.envPgdir same, space⟩

/-- A checked call touches its family only. -/
theorem LiveInv.untouched {call : EnvCall} {r : Ret} (bounded : Bounded s)
    (checked : call.Checked s) (h : call.exec s = .ok (s', r)) (outside : ¬ s.Family e) :
    Untouched s s' e := by
  cases call with
  | envDestroy envid => exact inv.untouched_sysEnvDestroy bounded h outside
  | setTlbModEntry envid func => exact untouched_sysSetTlbModEntry checked h outside
  | memAlloc envid va perm => exact inv.untouched_sysMemAlloc bounded h outside
  | memMap srcid srcva dstid dstva perm => exact inv.untouched_sysMemMap bounded h outside
  | memUnmap envid va => exact inv.untouched_sysMemUnmap bounded h outside
  | setEnvStatus envid status => exact untouched_sysSetEnvStatus checked h outside
  | setTrapframe envid va tf => exact inv.untouched_sysSetTrapframe h outside

/-- A checked call is refused when it names an env outside the family. -/
theorem LiveInv.refused_call {call : EnvCall} (hcur : s.curenv = some cur)
    (checked : call.Checked s) (named : envid ∈ call.envids) (unrelated : ¬ s.Related envid) :
    ∃ err, call.exec s = .ok (s, .error err) := by
  have refused := inv.refused hcur unrelated
  -- without the check the id may only name a dead env
  have dead : (∀ e, Mos.envid2env s envid false = .ok (.ok e) → s.Family e) →
      ∃ err, Mos.envid2env s envid false = .ok (.error err) := by
    intro checked
    obtain ⟨found, lookup⟩ := envid2env_total hcur envid false
    cases found with
    | ok e => exact absurd ⟨e, checked e lookup, lookup⟩ unrelated
    | error err => exact ⟨err, lookup⟩
  cases call with
  | envDestroy id =>
      cases List.mem_singleton.mp named
      exact ⟨.badEnv, by simp only [EnvCall.exec, Mos.sysEnvDestroy, refused]; rfl⟩
  | setTlbModEntry id func =>
      cases List.mem_singleton.mp named
      obtain ⟨err, lookup⟩ := dead checked
      exact ⟨err, by simp only [EnvCall.exec, Mos.sysSetTlbModEntry, lookup]; rfl⟩
  | memAlloc id va perm =>
      cases List.mem_singleton.mp named
      simp only [EnvCall.exec, Mos.sysMemAlloc, refused]
      split
      · exact ⟨.inval, rfl⟩
      · exact ⟨.badEnv, rfl⟩
  | memMap srcid srcva dstid dstva perm =>
      simp only [EnvCall.exec, Mos.sysMemMap]
      split
      · exact ⟨.inval, rfl⟩
      · rcases List.mem_pair.mp named with rfl | rfl
        · exact ⟨.badEnv, by rw [refused]; rfl⟩
        · obtain ⟨src, lookup⟩ := envid2env_total hcur srcid true
          rw [lookup, refused]
          cases src with
          | error err => exact ⟨.badEnv, rfl⟩
          | ok srcenv => exact ⟨.badEnv, rfl⟩
  | memUnmap id va =>
      cases List.mem_singleton.mp named
      simp only [EnvCall.exec, Mos.sysMemUnmap, refused]
      split
      · exact ⟨.inval, rfl⟩
      · exact ⟨.badEnv, rfl⟩
  | setEnvStatus id status =>
      cases List.mem_singleton.mp named
      simp only [EnvCall.exec, Mos.sysSetEnvStatus]
      cases user : userEnvStatus status with
      | none => exact ⟨.inval, rfl⟩
      | some new =>
          obtain ⟨err, lookup⟩ := dead (checked (by simp [user]))
          exact ⟨err, by simp only [lookup]; rfl⟩
  | setTrapframe id va tf =>
      cases List.mem_singleton.mp named
      simp only [EnvCall.exec, Mos.sysSetTrapframe, refused]
      split
      · exact ⟨.inval, rfl⟩
      · exact ⟨.badEnv, rfl⟩

end Live

/-- The env an unchecked call finds is the only one its id could be related by. -/
theorem Kernel.not_related (found : envid2env s envid false = .ok (.ok e))
    (outside : ¬ s.Family e) : ¬ s.Related envid := by
  rintro ⟨e', family, found'⟩
  rw [found] at found'
  cases found'
  exact outside family

/-- An isolated call is a checked one: the two calls that look an env up without
`checkperm` succeed on any env. -/
theorem EnvCall.Isolated.checked {call : EnvCall} (isolated : call.Isolated s) :
    call.Checked s := by
  cases call with
  | setTlbModEntry envid func =>
      intro e found
      by_contra outside
      obtain ⟨err, run⟩ := isolated.2 envid (by simp [envids]) (s.not_related found outside)
      simp [exec, sysSetTlbModEntry, found, tryRet, Bind.bind, Except.bind] at run
  | setEnvStatus envid status =>
      intro user e found
      by_contra outside
      obtain ⟨err, run⟩ := isolated.2 envid (by simp [envids]) (s.not_related found outside)
      obtain ⟨new, user⟩ := Option.ne_none_iff_exists'.mp user
      simp only [exec, sysSetEnvStatus, user, found, tryRet, Bind.bind, Except.bind] at run
      split at run
      · cases run
      · cases run
  | envDestroy envid => trivial
  | memAlloc envid va perm => trivial
  | memMap srcid srcva dstid dstva perm => trivial
  | memUnmap envid va => trivial
  | setTrapframe envid va tf => trivial

/-- In a kernel whose invariant holds, a system call is isolated exactly when it
checks the env it names, or names one of the family. -/
theorem sys_call_isolated (inv : LiveInv s) (bounded : Bounded s) (hcur : s.curenv = some cur)
    (call : EnvCall) : call.Isolated s ↔ call.Checked s :=
  ⟨EnvCall.Isolated.checked,
    fun checked => ⟨fun _ _ h _ outside => inv.untouched bounded checked h outside,
    fun _ named unrelated => inv.refused_call hcur checked named unrelated⟩⟩

theorem sys_call_isolated_memAlloc : ∃ s s', envInit smallBoot = .ok s ∧
    Run kernelStep s tickOps s' ∧ (EnvCall.memAlloc 2048 0x400000 0).Isolated s' := by
  obtain ⟨s, s', boot, run, current, -⟩ := tickOps_run
  obtain ⟨inv, bounded⟩ := kernelRun_inv boot run
  exact ⟨s, s', boot, run, (sys_call_isolated inv bounded current _).mpr trivial⟩

/-- An env can redirect the TLB handler of one that is not its child. -/
theorem sys_call_not_isolated : ¬ ∀ (b : Boot) (s s' : Kernel) (ops : List KernelOp) (cur : EnvIx)
    (call : EnvCall), envInit b = .ok s → Run kernelStep s ops s' → s'.curenv = some cur →
      call.Isolated s' := by
  intro always
  obtain ⟨s, s', boot, run, current, id₀, id₁, parent, status, -⟩ := tickOps_run
  have checked := (always _ _ _ _ _ (.setTlbModEntry 2048 0x400000) boot run current).checked
  have found : envid2env s' 2048 false = .ok (.ok 0) :=
    envid2env_eq (by decide) rfl (by rw [status]; simp) id₀
  obtain ⟨cur, hcur, same | child⟩ := checked 0 found
  · rw [current] at hcur
    cases hcur
    cases same
  · rw [current] at hcur
    cases hcur
    rw [parent, id₁] at child
    cases child

end Mos
