import Mos.Ipc
import Mos.KernelRun
import Mos.Translation

/-!
# The kernel window is shared

Every page directory has the template's entries for the `envs` and `pages`
windows, so all of them share the tables that `map_segment` filled at boot. No
operation writes these tables or the entries for them: they are no pages of any
address space, and `page_insert` and `passive_alloc` never replace a valid entry
above `UTOP`.
-/

namespace Mos

variable {s s' : Kernel} {cur e : EnvIx} {b : Boot} {op : KernelOp} {ops : List KernelOp}

section Memory

variable {ε : Type} [Fintype ε] [DecidableEq ε] {dirs : ε → Option Nat} {pm pm' pm'' : Pmap}
  {x : ε} {d : Nat} {va asid : Word}

/-- What lies above `UTOP` is left alone, but for entries that were not valid. -/
structure KeepsWindow (dirs : ε → Option Nat) (pm pm' : Pmap) : Prop where
  npage : pm'.npage = pm.npage
  bystander : ∀ q, Bystander dirs pm q → pm'.mem q = pm.mem q
  entry : ∀ e d k, dirs e = some d → 509 ≤ k → (pm.mem d k).Has pteV → pm'.mem d k = pm.mem d k

omit [Fintype ε] [DecidableEq ε] in
theorem KeepsWindow.refl (dirs : ε → Option Nat) (pm : Pmap) : KeepsWindow dirs pm pm :=
  ⟨rfl, fun _ _ => rfl, fun _ _ _ _ _ _ => rfl⟩

omit [Fintype ε] [DecidableEq ε] in
theorem KeepsWindow.of_frame (frame : Frame dirs x noPage pm pm') : KeepsWindow dirs pm pm' where
  npage := frame.npage
  bystander q hq := (frame.bystander q hq id).2.1
  entry e d k he hk _ := frame.kernelPart e d k he hk

/-- A fault does not replace a valid entry. -/
theorem PmapInv.passiveAlloc_keeps (inv : PmapInv dirs pm) (he : dirs x = some d)
    (bounded : ∀ q, refs (target dirs pm.mem) q < 2 ^ 16)
    (fault : uvpt ≤ va → lookup pm.mem d va = none)
    (h : Mos.passiveAlloc pm va d asid = .ok pm') : KeepsWindow dirs pm pm' := by
  by_cases window : uvpt ≤ va ∧ va < ulim
  · obtain ⟨lo, hi⟩ := window
    have vacant := (inv.lookup_window_eq_none he lo hi).mp (fault lo)
    cases hfree : pm.pageFreeList with
    | nil =>
        unfold Mos.passiveAlloc at h
        rw [pageAlloc_nil hfree] at h
        split_ifs at h
        cases h
    | cons p rest =>
        rw [inv.passiveAlloc_window he lo hi vacant hfree] at h
        cases h
        obtain ⟨-, npage, kept⟩ := @PmapInv.faultIn _ _ _ _ _ _ _ va _ inv he vacant _ hfree asid
        refine ⟨npage, fun q hq => (kept q hq).2, fun e' d' k he' _ valid => ?_⟩
        have isFree : p ∈ pm.pageFreeList := by rw [hfree]; exact List.mem_cons_self
        have taken : d' ≠ p := fun eq =>
          inv.store.free_untargeted p isFree (.dir e') (he'.trans (by rw [eq]))
        have same : (pm.take p rest).mem d' = pm.mem d' := Function.update_of_ne taken _ _
        by_cases here : d' = d ∧ k = ptx va
        · obtain ⟨rfl, rfl⟩ := here
          exact absurd valid (entry_eq_none_iff.mp vacant)
        · refine Eq.trans ?_ (congrFun same k)
          rcases not_and_or.mp here with page | index
          · exact congrFun (writeWord_of_page_ne page) k
          · rcases eq_or_ne d' d with rfl | page
            · exact writeWord_of_index_ne index
            · exact congrFun (writeWord_of_page_ne page) k
  · unfold Mos.passiveAlloc at h
    split_ifs at h with low guard envs pages kernel
    have user := pdx_pteAddr_lt_of_guards window envs pages kernel
    cases hfree : pm.pageFreeList with
    | nil =>
        rw [pageAlloc_nil hfree] at h
        cases h
    | cons p rest =>
        obtain ⟨pm₁, res, run, -, frame⟩ :=
          inv.pageInsert_taken bounded he user (by decide : pteD < 0x1000#32) hfree asid
        simp only [inv.pageAlloc_cons hfree, Bind.bind, Except.bind, run] at h
        cases res with
        | error err => cases h
        | ok _ =>
            cases h
            exact .of_frame frame

theorem PmapInv.tlbRefillLoop_keeps {pte : Word} {fuel : Nat} (inv : PmapInv dirs pm)
    (he : dirs x = some d) (bounded : ∀ q, refs (target dirs pm.mem) q < 2 ^ 16) (hva : va < ulim)
    (h : Mos.tlbRefillLoop d va asid fuel pm = .ok (some (pm', pte))) :
    KeepsWindow dirs pm pm' := by
  have more := tlbRefillLoop_mono (tlbRefillLoop_mono h)
  cases found : lookup pm.mem d va with
  | some page =>
      simp only [Mos.tlbRefillLoop, pageLookup_eq (inv.inMemory he hva), found, Bind.bind,
        Except.bind] at more
      cases more
      exact .refl dirs pm
  | none =>
      rcases inv.tlbRefillLoop_cases he bounded hva asid fuel with
        ⟨pm₁, p, t, run, -, rfl | ⟨alloc, -⟩⟩ | ⟨panic, run, -⟩
      all_goals rw [run] at more; cases more
      · exact .refl dirs _
      · exact inv.passiveAlloc_keeps he bounded (fun _ => found) alloc

end Memory

/-! ## The windows of all envs -/

/-- The template maps both arrays, and every env in use has its entries. -/
structure SharedWindow (b : Boot) (s : Kernel) : Prop where
  pages : MapsArray s.pm s.basePgdir 510 b.pagesPa (roundPage (b.npage * sizeofPage) / 4096)
  envs : MapsArray s.pm s.basePgdir 509 b.envsPa (roundPage (nenv * sizeofEnv) / 4096)
  copied : ∀ e, e ∉ s.envFreeList → ∀ k, 509 ≤ k → k < 511 →
    s.pm.mem (s.envs e).envPgdir k = s.pm.mem s.basePgdir k

theorem MapsArray.keeps {pm : Pmap} {k pa count : Nat} (inv : KernelInv s)
    (maps : MapsArray s.pm s.basePgdir k pa count) (lo : 509 ≤ k) (hi : k < 511)
    (keeps : KeepsWindow s.dirs s.pm pm) : MapsArray pm s.basePgdir k pa count := by
  obtain ⟨t, ht, words⟩ := maps
  obtain ⟨valid, rfl⟩ := entry_eq_some_iff.mp ht
  have table := inv.template.window k lo hi valid
  refine ⟨_, by rwa [keeps.bystander _ inv.template.bystander], fun j hj => ?_⟩
  rw [keeps.bystander _ table.bystander]
  exact words j hj

theorem MapsArray.valid {pm : Pmap} {base k pa count : Nat} (maps : MapsArray pm base k pa count) :
    (pm.mem base k).Has pteV := by
  obtain ⟨t, ht, -⟩ := maps
  exact (entry_eq_some_iff.mp ht).1

theorem SharedWindow.valid (shared : SharedWindow b s) {k : Nat} (lo : 509 ≤ k) (hi : k < 511) :
    (s.pm.mem s.basePgdir k).Has pteV := by
  obtain rfl | rfl : k = 509 ∨ k = 510 := by omega
  · exact shared.envs.valid
  · exact shared.pages.valid

section Shared

variable (shared : SharedWindow b s)

include shared

/-- An operation on the memory that keeps the windows. -/
theorem SharedWindow.keeps {pm : Pmap} (inv : KernelInv s) (keeps : KeepsWindow s.dirs s.pm pm) :
    SharedWindow b (s.withPm pm) where
  pages := MapsArray.keeps (s := s) inv shared.pages (by omega) (by omega) keeps
  envs := MapsArray.keeps (s := s) inv shared.envs (by omega) (by omega) keeps
  copied e inUse k lo hi := by
    have same := shared.copied e inUse k lo hi
    have valid : (s.pm.mem (s.envs e).envPgdir k).Has pteV := by
      rw [same]
      exact shared.valid lo hi
    show pm.mem (s.envs e).envPgdir k = pm.mem s.basePgdir k
    rw [keeps.bystander _ inv.template.bystander,
      keeps.entry e _ k (Kernel.dirs_of_notMem inUse) lo valid]
    exact same

theorem SharedWindow.congr (pm : s'.pm = s.pm) (free : s'.envFreeList = s.envFreeList)
    (base : s'.basePgdir = s.basePgdir)
    (pgdir : ∀ e, (s'.envs e).envPgdir = (s.envs e).envPgdir) : SharedWindow b s' where
  pages := by
    rw [pm, base]
    exact shared.pages
  envs := by
    rw [pm, base]
    exact shared.envs
  copied e inUse := by
    rw [pm, base, pgdir]
    exact shared.copied e (free ▸ inUse)

theorem SharedWindow.resumed (resumed : Resumed s s') : SharedWindow b s' :=
  shared.congr resumed.pm resumed.free resumed.basePgdir
    (resumed.field Env.envPgdir fun _ _ _ => rfl)

/-- An env is changed, but for its page directory. -/
theorem SharedWindow.setEnv {f : Env → Env}
    (pgdir : (f (s.envs e)).envPgdir = (s.envs e).envPgdir) : SharedWindow b (s.setEnv e f) :=
  shared.congr rfl rfl rfl (Kernel.setEnv_field Env.envPgdir pgdir)

theorem SharedWindow.requeue (q : Tailq EnvIx) (tf : Trapframe) :
    SharedWindow b { s with envSchedList := q, kstackTf := tf } :=
  ⟨shared.pages, shared.envs, shared.copied⟩

/-- A new page directory gets the entries of the template. -/
theorem SharedWindow.envAlloc {parentId : Word} {r : Except Err EnvIx} (inv : KernelInv s)
    (h : Mos.envAlloc s parentId = .ok (s', r)) : SharedWindow b s' := by
  rcases inv.envAlloc_cases parentId with ⟨-, run⟩ | ⟨e, rest, -, -, run⟩ |
    ⟨e, rest, p, pages, hfree, hpages, -, run⟩ | ⟨e, rest, p, pages, i, hfree, hpages, -, run⟩
  all_goals rw [run] at h; cases h
  · exact shared
  · exact shared
  all_goals
    have isFree : p ∈ s.pm.pageFreeList := by rw [hpages]; exact List.mem_cons_self
    obtain ⟨-, frame, -⟩ := inv.pm.newPgdir (x := e) inv.template hpages
    have kept := shared.keeps inv (.of_frame frame)
    have filled : (s.pm.newPgdir s.basePgdir p pages).mem p =
        pgdirWords (s.pm.mem s.basePgdir) p := Function.update_self ..
    have base : (s.pm.newPgdir s.basePgdir p pages).mem s.basePgdir = s.pm.mem s.basePgdir :=
      (frame.bystander _ inv.template.bystander id).2.1
    refine ⟨kept.pages, kept.envs, fun x inUse k lo hi => ?_⟩
  · have hne : x ≠ e := fun eq => inUse (by
      rw [eq, show (s.newEnv e p pages).envFreeList = s.envFreeList from rfl, hfree]
      exact List.mem_cons_self)
    rw [show (s.newEnv e p pages).envs x = s.envs x from Function.update_of_ne hne _ _]
    exact kept.copied x inUse k lo hi
  · rcases eq_or_ne x e with rfl | hne
    · have pgdir : (((s.newEnv x p pages).admitEnv x rest i parentId).envs x).envPgdir = p := by
        simp [Kernel.admitEnv, Kernel.newEnv, Kernel.setupEnv]
      rw [pgdir]
      show (s.pm.newPgdir s.basePgdir p pages).mem p k =
        (s.pm.newPgdir s.basePgdir p pages).mem s.basePgdir k
      rw [filled, base, pgdirWords_window _ _ lo hi]
    · have used : x ∉ s.envFreeList := by
        rw [hfree]
        exact List.not_mem_cons_of_ne_of_not_mem hne inUse
      have same : ((s.newEnv e p pages).admitEnv e rest i parentId).envs x = s.envs x := by
        simp [Kernel.admitEnv, Kernel.newEnv, Kernel.setupEnv, hne]
      rw [same]
      exact kept.copied x used k lo hi

theorem SharedWindow.memStep {pm : Pmap} (inv : KernelInv s) (step : MemStep s e pm) :
    SharedWindow b (s.withPm pm) :=
  shared.keeps inv (.of_frame step.frame)

theorem SharedWindow.envDestroy (inv : KernelInv s) (bounded : Bounded s)
    (inUse : e ∉ s.envFreeList) (h : Mos.envDestroy s e = .ok s') : SharedWindow b s' := by
  obtain ⟨pm, q, frame, -, next⟩ := inv.envDestroy_cases bounded inUse h
  have kept := shared.keeps inv (.of_frame frame)
  have reclaimed : ∀ c, SharedWindow b { s.reclaim e pm with envSchedList := q, curenv := c } := by
    refine fun c => ⟨kept.pages, kept.envs, fun x used => ?_⟩
    have hne : x ≠ e := fun eq => used (by rw [eq]; exact List.mem_cons_self)
    have same : (s.reclaim e pm).envs x = s.envs x := Function.update_of_ne hne _ _
    show ∀ k, _ → _ → pm.mem ((s.reclaim e pm).envs x).envPgdir k = pm.mem s.basePgdir k
    rw [same]
    exact kept.copied x fun mem => used (List.mem_cons_of_mem _ mem)
  rcases next with ⟨-, resumed⟩ | ⟨-, rfl⟩
  · exact (reclaimed none).resumed resumed
  · exact reclaimed s.curenv

theorem SharedWindow.envCall {call : EnvCall} {r : Ret} (inv : LiveInv s) (bounded : Bounded s)
    (hcur : s.curenv = some cur) (legal : (SysCall.env call).PermLegal)
    (h : call.exec s = .ok (s', r)) : SharedWindow b s' := by
  have allocated := (inv.current cur hcur).1
  cases call with
  | envDestroy envid =>
      rcases sysEnvDestroy_ok h with rfl | ⟨e, lookup, destroyed⟩
      · exact shared
      · exact shared.envDestroy inv.inv bounded (inv.envid2env lookup) destroyed
  | setTlbModEntry envid func =>
      rcases sysSetTlbModEntry_ok h with rfl | ⟨e, -, rfl⟩
      · exact shared
      · exact shared.setEnv rfl
  | memAlloc envid va perm =>
      obtain ⟨e, pm, r', run, step⟩ := inv.inv.sysMemAlloc bounded hcur allocated legal
      rw [show sysMemAlloc s envid va perm = _ from h] at run
      cases run
      exact shared.memStep inv.inv step
  | memMap srcid srcva dstid dstva perm =>
      obtain ⟨e, pm, r', run, step⟩ := inv.inv.sysMemMap bounded hcur allocated legal
      rw [show sysMemMap s srcid srcva dstid dstva perm = _ from h] at run
      cases run
      exact shared.memStep inv.inv step
  | memUnmap envid va =>
      obtain ⟨e, pm, r', run, step⟩ := inv.inv.sysMemUnmap bounded hcur allocated
      rw [show sysMemUnmap s envid va = _ from h] at run
      cases run
      exact shared.memStep inv.inv step
  | setEnvStatus envid status =>
      rcases sysSetEnvStatus_ok h with rfl | ⟨new, e, q, -, -, rfl⟩
      · exact shared
      · exact (shared.requeue q s.kstackTf).setEnv rfl
  | setTrapframe envid va tf =>
      rcases sysSetTrapframe_ok h with rfl | ⟨e, -, -, ⟨-, rfl, -⟩ | ⟨-, rfl⟩⟩
      · exact shared
      · exact shared.requeue s.envSchedList tf
      · exact shared.setEnv rfl

theorem SharedWindow.sysIpcTrySend {envid value srcva perm : Word} {r : Ret} (inv : LiveInv s)
    (bounded : Bounded s) (hperm : perm < 0x1000#32)
    (h : Mos.sysIpcTrySend s envid value srcva perm = .ok (s', r)) : SharedWindow b s' := by
  rcases sysIpcTrySend_ok h with
    ⟨err, -, rfl, -⟩ | ⟨e, cur, pm, legal, lookup, -, hcur, transfer, -⟩
  · exact shared
  · have below : srcva < utop := lt_utop_of_carries legal
    have inUse := inv.envid2env lookup
    have delivered := inv.ipcDeliver cur inUse value perm
    have bounded' : Bounded (ipcDeliver s cur e value perm) := by
      intro p
      rw [ipcDeliver_dirs]
      exact bounded p
    obtain ⟨pm', r', run, step⟩ := delivered.inv.ipcTransfer bounded' (inv.current cur hcur).1 inUse
      below hperm
    rw [run] at transfer
    cases transfer
    have woken : SharedWindow b (ipcDeliver s cur e value perm) :=
      (shared.setEnv (e := e) rfl).requeue _ s.kstackTf
    exact woken.memStep delivered.inv step

/-- No system call touches the windows. -/
theorem SharedWindow.sys {call : SysCall} {r : Ret} (inv : LiveInv s) (bounded : Bounded s)
    (hcur : s.curenv = some cur) (legal : call.PermLegal) (h : call.exec s = .ok (s', r)) :
    SharedWindow b s' := by
  cases call with
  | env call => exact shared.envCall inv bounded hcur legal h
  | yield =>
      obtain ⟨s₁, scheduled, eq⟩ := map_eq_ok.mp h
      cases eq
      exact shared.resumed (schedule_ok scheduled).1
  | exofork =>
      obtain ⟨cur, ⟨err, alloc⟩ | ⟨s₁, e, alloc, rfl⟩⟩ := sysExofork_ok h
      · exact shared.envAlloc inv.inv alloc
      · exact (shared.envAlloc inv.inv alloc).setEnv rfl
  | ipcRecv dstva =>
      rcases sysIpcRecv_ok h with ⟨-, -, rfl, -⟩ | ⟨-, -, cur, q, -, -, scheduled⟩
      · exact shared
      · have waiting : SharedWindow b (ipcAwait s cur dstva) := shared.setEnv rfl
        exact SharedWindow.resumed (waiting.requeue q _) (schedule_ok scheduled).1
  | ipcTrySend envid value srcva perm => exact shared.sysIpcTrySend inv bounded legal h

theorem SharedWindow.envCreate {binary : Icode} {priority : Word} (inv : LiveInv s)
    (bounded : Bounded s) (legal : ∀ page ∈ binary.pages, page.Legal)
    (h : Mos.envCreate s binary priority = .ok (s', e)) : SharedWindow b s' := by
  obtain ⟨s₁, s₂, alloc, pages, rfl⟩ := envCreate_ok h
  have shared₁ := shared.envAlloc inv.inv alloc
  obtain ⟨inUse, started, startedBounded⟩ := inv.started bounded alloc priority
  obtain ⟨pm, rfl, step⟩ := started.inv.loadPages startedBounded inUse legal pages
  have loaded := SharedWindow.memStep (shared₁.setEnv rfl) started.inv step
  exact (loaded.setEnv rfl).requeue _ s₁.kstackTf

end Shared

/-! ## Operations -/

/-- After a boot that left no memory for the windows, no env can be created. -/
def Starved (s : Kernel) : Prop := s.pm.pageFreeList = [] ∧ s.envFreeList = slots

/-- What one operation preserves. -/
theorem SharedWindow.step (inv : LiveInv s) (bounded : Bounded s)
    (shared : SharedWindow b s ∨ Starved s) (step : kernelStep s op s') :
    SharedWindow b s' ∨ Starved s' := by
  obtain ⟨enabled, run, -⟩ := step
  rcases shared with shared | ⟨nomem, unused⟩
  · refine .inl ?_
    cases op with
    | trap tf =>
        cases run
        exact shared.requeue s.envSchedList tf
    | envCreate binary priority =>
        obtain ⟨e, run⟩ := run
        exact shared.envCreate inv bounded enabled run
    | tick => exact shared.resumed (schedule_ok run).1
    | sys call =>
        obtain ⟨r, run⟩ := run
        obtain ⟨⟨cur, hcur⟩, legal⟩ := enabled
        exact shared.sys inv bounded hcur legal run
    | fault va asid =>
        obtain ⟨fuel, pte, run⟩ := run
        obtain ⟨⟨cur, hcur⟩, hva⟩ := enabled
        obtain ⟨inUse, pgdir⟩ := inv.current cur hcur
        unfold doTlbRefill at run
        simp only [pgdir] at run
        obtain ⟨r, refill, run⟩ := bind_eq_ok.mp run
        cases r with
        | none => cases run
        | some r =>
            obtain ⟨pm, word⟩ := r
            cases run
            exact shared.keeps inv.inv (inv.inv.pm.tlbRefillLoop_keeps (Kernel.dirs_of_notMem inUse)
              (fun q => Nat.lt_succ_of_le (bounded q)) hva refill)
  · refine .inr ?_
    have idle : ∀ cur, s.curenv ≠ some cur := fun cur hcur =>
      (inv.current cur hcur).1 (by rw [unused]; exact mem_slots cur)
    cases op with
    | trap tf =>
        cases run
        exact ⟨nomem, unused⟩
    | envCreate binary priority =>
        obtain ⟨e, run⟩ := run
        have noMem : Mos.envAlloc s 0 = .ok (s, .error .noMem) := by
          unfold Mos.envAlloc
          simp only [unused, slots_eq, envSetupVm, pageAlloc_nil nomem, Bind.bind, Except.bind]
          rfl
        obtain ⟨s₁, s₂, alloc, -⟩ := envCreate_ok run
        rw [noMem] at alloc
        cases alloc
    | tick =>
        obtain ⟨resumed, -⟩ := schedule_ok run
        exact ⟨by rw [resumed.pm]; exact nomem, resumed.free.trans unused⟩
    | sys call => exact absurd enabled.1.choose_spec (idle _)
    | fault va asid => exact absurd enabled.1.choose_spec (idle _)

theorem SharedWindow.of_envInit (boot : envInit b = .ok s) : SharedWindow b s ∨ Starved s := by
  cases hfree : (pageInit b).pageFreeList with
  | nil =>
      rw [envInit_noMem hfree] at boot
      cases boot
  | cons p pages =>
      obtain ⟨pm, run, -, free, maps⟩ := envInit_windows hfree
      rw [boot] at run
      cases run
      rcases Nat.lt_or_ge pages.length 2 with few | enough
      · exact .inr ⟨by rw [show (kernelInit pm p).pm.pageFreeList = pm.pageFreeList from rfl, free,
          List.drop_eq_nil_iff]; omega, rfl⟩
      · obtain ⟨pages, envs⟩ := maps enough
        exact .inl ⟨pages, envs, fun e inUse => absurd (mem_slots e) inUse⟩

/-! ## What `va2pa` reads -/

/-- `va2pa` finds the `size` bytes at the physical address `pa` from `lo` on. -/
def WindowAt (pm : Pmap) (d : Nat) (lo : Word) (pa size : Nat) : Prop :=
  ∀ k, k % 4096 = 0 → k < roundPage size →
    va2pa pm d (lo + BitVec.ofNat 32 k) = .ok (BitVec.ofNat 32 (pa + k))

theorem page2pa_eq_ofNat {pa : Nat} (aligned : pa % 4096 = 0) (fits : pa < 2 ^ 32) :
    page2pa (pa / 4096) = BitVec.ofNat 32 pa := by
  apply BitVec.eq_of_toNat_eq
  rw [page2pa_toNat (by omega), BitVec.toNat_ofNat]
  omega

/-- A directory with the template's entry sees the array. -/
theorem MapsArray.windowAt {pm : Pmap} {base k pa size d : Nat} {lo : Word}
    (maps : MapsArray pm base k pa (roundPage size / 4096)) (same : pm.mem d k = pm.mem base k)
    (inside : ppn (pm.mem base k) < pm.npage) (hlo : lo.toNat = k * 2 ^ 22)
    (small : size ≤ 2 ^ 22) (aligned : pa % 4096 = 0) (fits : pa + roundPage size < 2 ^ 32) :
    WindowAt pm d lo pa size := by
  obtain ⟨t, ht, words⟩ := maps
  obtain ⟨valid, rfl⟩ := entry_eq_some_iff.mp ht
  intro i hi lt
  have window : roundPage size ≤ 2 ^ 22 := by
    rw [roundPage]
    omega
  have address : (lo + BitVec.ofNat 32 i).toNat = k * 2 ^ 22 + i := by
    rw [BitVec.toNat_add, BitVec.toNat_ofNat, hlo]
    omega
  have row : pdx (lo + BitVec.ofNat 32 i) = k := by
    rw [pdx_eq_div, address]
    omega
  have column : ptx (lo + BitVec.ofNat 32 i) = i / 4096 := by
    rw [ptx_eq_mod, address]
    omega
  have below : i / 4096 < roundPage size / 4096 := by
    rw [roundPage] at lt ⊢
    omega
  have word := words (i / 4096) below
  have page : pa / 4096 + i / 4096 = (pa + i) / 4096 := by omega
  unfold va2pa
  rw [row, same, if_pos valid, kaddr_pteAddr inside]
  simp only [Bind.bind, Except.bind]
  rw [column, word, windowWord, if_pos (entry_valid _ _), pteAddr_entry, page,
    page2pa_eq_ofNat (by omega) (by omega), show pteAddr pteG = 0#32 from rfl, BitVec.or_zero]

/-- An env in use sees the `pages` and the `envs` array in their windows, and its own page
tables. -/
theorem SharedWindow.sees (shared : SharedWindow b s) (inv : LiveInv s)
    (inUse : e ∉ s.envFreeList) :
    WindowAt s.pm (s.envs e).envPgdir upages b.pagesPa (b.npage * sizeofPage) ∧
      WindowAt s.pm (s.envs e).envPgdir uenvs b.envsPa (nenv * sizeofEnv) ∧
      s.pm.mem (s.envs e).envPgdir (pdx uvpt) = page2pa (s.envs e).envPgdir ||| pteV := by
  have le := b.npage_le
  obtain ⟨pagesEnd, envsEnd, bootLe⟩ := b.arrays_below
  have inside : ∀ k, 509 ≤ k → k < 511 → ppn (s.pm.mem s.basePgdir k) < s.pm.npage :=
    fun k lo hi => (inv.inv.template.window k lo hi (shared.valid lo hi)).lt
  refine ⟨shared.pages.windowAt (shared.copied e inUse 510 (by omega) (by omega))
    (inside 510 (by omega) (by omega)) upages_toNat b.array_le ?_ (by omega),
    shared.envs.windowAt (shared.copied e inUse 509 (by omega) (by omega))
    (inside 509 (by omega) (by omega)) uenvs_toNat (by decide) b.envs_aligned (by omega),
    inv.inv.pm.selfMap e _ (Kernel.dirs_of_notMem inUse)⟩
  rw [Boot.pagesPa]
  omega

end Mos
