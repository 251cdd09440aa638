import Mos.CopyCalls

/-!
# The windows, under all system calls

A call that acts on envs or their memory leaves the kernel's part of an address space
alone, and so do the calls that copy memory, as long as their bytes go to user memory or to a
device. `sys_get_path` to the directory of the caller is one that does not.
-/

namespace Mos

variable {s s₀ s' : Kernel} {m m' : System} {pwd va : Word} {e cur : EnvIx} {b : Boot}

/-! ## One call -/

/-- A system call; `other` stands for those that neither act on envs nor copy. -/
inductive UserCall
  | sys (call : SysCall)
  | copy (call : CopyCall)
  | other

/-- The call is made, and the kernel leaves it. -/
inductive UserCall.Runs (pwd : Word) (m : System) : UserCall → System → Prop
  | sys {call : SysCall} {s' : Kernel} {r : Ret} : call.exec m.kernel = .ok (s', r) →
      Runs pwd m (.sys call) ⟨s', m.pwd⟩
  | copy {call : CopyCall} {acts : List CopyAct} {m' : System} : call.Returns pwd m acts m' →
      Runs pwd m (.copy call) m'
  | other : Runs pwd m .other m

/-- The call is no send to a low address, and copies to user memory or a device. -/
def UserCall.Windowed (pwd : Word) (m : System) : UserCall → Prop
  | .sys call => call.Windowed m.kernel
  | .copy call => call.Fits pwd m
  | .other => True

/-- The call changes page table entries for addresses in `[UTEMP, UTOP)` only. -/
def UserCall.InWindow (pwd : Word) (m : System) (call : UserCall) : Prop :=
  ∀ m', call.Runs pwd m m' → ChangesOnly m.kernel m'.kernel fun _ va => ¬ isIllegalVa va

theorem CopyKeeps.changesOnly (kept : CopyKeeps s s') :
    ChangesOnly s s' fun _ va => ¬ isIllegalVa va := by
  obtain ⟨⟨pm, rfl⟩, entries⟩ := kept
  intro y inUse _ va notSelf illegal
  rcases entries y inUse va notSelf with same | ⟨legal, -⟩
  · exact same
  · exact absurd legal illegal

/-- A system call that is windowed changes entries in `[UTEMP, UTOP)` only, and one that
acts on envs or their memory does so in no other case. -/
theorem user_window_iff (inv : LiveInv m.kernel) (bounded : Bounded m.kernel) (pwd : Word) :
    (∀ call : UserCall, call.Windowed pwd m → call.InWindow pwd m) ∧
      ∀ call : SysCall, (UserCall.sys call).InWindow pwd m →
        (UserCall.sys call).Windowed pwd m := by
  constructor
  · intro call windowed m' run
    cases run with
    | sys run => exact (inv.windowed_iff bounded).mpr windowed _ _ run
    | copy returns =>
        obtain ⟨-, -, kept, -⟩ := @CopyCall.Fits.keeps _ _ _ _ _ smallBoot windowed inv bounded
          returns
        exact kept.changesOnly
    | other => exact .refl _ _
  · intro call inWindow
    exact (inv.windowed_iff bounded).mp fun s' r run => inWindow ⟨s', m.pwd⟩ (.sys run)

/-- The first address of user memory. -/
def pageVa : Word := 0x400000

/-- `sys_get_path` of an empty `pwd`, to a page that the caller can write to. -/
theorem LiveInv.getPath_returns {w : Word} (inv : LiveInv s) (bounded : Bounded s)
    (hcur : s.curenv = some cur) (page : pteAt s.pm.mem (s.envs cur).envPgdir pageVa = some w)
    (writable : w.Has pteD) :
    (CopyCall.getPath pageVa).Fits pwd ⟨s, []⟩ ∧
      ∃ acts m', (CopyCall.getPath pageVa).Returns pwd ⟨s, []⟩ acts m' := by
  have stores : (CopyCall.getPath pageVa).stores pwd ⟨s, []⟩ = [(pageVa, 0x2f), (pageVa + 1, 0)] :=
    rfl
  have there : ∀ mem d, pteAt mem d (pageVa + 1) = pteAt mem d pageVa := fun mem d =>
    pteAt_samePage ⟨by decide, by decide⟩
  have fits : ∀ a, ¬ isIllegalVa a → pteAt s.pm.mem (s.envs cur).envPgdir a = some w →
      StoreFits s a := by
    intro a legal entry
    refine .inr ⟨legal, fun cur' w' hcur' entry' => ?_⟩
    obtain rfl : cur = cur' := Option.some.inj (hcur.symm.trans hcur')
    obtain rfl : w = w' := Option.some.inj (entry.symm.trans entry')
    exact writable
  constructor
  · intro e stored
    rw [stores] at stored
    rcases List.mem_cons.mp stored with rfl | stored
    · exact fits _ (by decide) page
    · rw [List.mem_singleton.mp stored]
      exact fits _ (by decide) ((there _ _).trans page)
  · obtain ⟨-, -, keeps⟩ := @LiveInv.copyStep_user s pageVa w 0x2f cur inv bounded
      (pageVa.toNat % 4096) hcur (by decide) page
    have first : copyStep s (.store pageVa 0x2f)
        (s.withPm (s.pm.setByte (ppn w) (pageVa.toNat % 4096) 0x2f)) :=
      .user (by decide) hcur page writable
    generalize s.withPm (s.pm.setByte (ppn w) (pageVa.toNat % 4096) 0x2f) = s₁ at keeps first
    have hcur₁ : s₁.curenv = some cur := by
      obtain ⟨pm, rfl⟩ := keeps.memory
      exact hcur
    have pgdir : (s₁.envs cur).envPgdir = (s.envs cur).envPgdir := by
      obtain ⟨pm, rfl⟩ := keeps.memory
      rfl
    obtain ⟨w', page', writable'⟩ : ∃ w',
        pteAt s₁.pm.mem (s₁.envs cur).envPgdir (pageVa + 1) = some w' ∧ w'.Has pteD := by
      rw [pgdir]
      rcases keeps.entries cur (inv.current cur hcur).1 (pageVa + 1) (by decide) with
        same | ⟨-, w', entry⟩
      · exact ⟨w, same.trans ((there _ _).trans page), writable⟩
      · exact ⟨w', entry⟩
    have run := (Run.single first).snoc (.user (c := 0) (by decide) hcur₁ page' writable')
    exact ⟨[.store pageVa 0x2f, .store (pageVa + 1) 0], ⟨_, [0x2f]⟩, stores.symm, run, rfl⟩

/-- An env that has a page unmaps it, or asks for the path there. -/
theorem user_window_iff_page : ∃ s m m', LiveInv s ∧
    (UserCall.sys (.env (.memUnmap 0 pageVa))).Runs 0x80100000 ⟨s, []⟩ m ∧
    ChangesOnly s m.kernel (fun _ va => ¬ isIllegalVa va) ∧
    (UserCall.copy (.getPath pageVa)).Runs 0x80100000 ⟨s, []⟩ m' ∧
    ChangesOnly s m'.kernel (fun _ va => ¬ isIllegalVa va) := by
  obtain ⟨s₀, s, boot, run, roomy, hcur, -, pp, page⟩ := @forkOps_run pteD (by decide)
  obtain ⟨inv, bounded⟩ := kernelRun_inv boot run
  have window := (@user_window_iff ⟨s, []⟩ inv bounded 0x80100000).1
  obtain ⟨e, pm, r, unmap, -⟩ : ∃ e pm r, sysMemUnmap s 0 pageVa = .ok (s.withPm pm, r) ∧
      MemStep s e pm := inv.inv.sysMemUnmap bounded hcur (inv.current 0 hcur).1
  have gone : (UserCall.sys (.env (.memUnmap 0 pageVa))).Runs 0x80100000 ⟨s, []⟩
      ⟨s.withPm pm, []⟩ := .sys unmap
  obtain ⟨fits, acts, m', returns⟩ :=
    @LiveInv.getPath_returns s 0x80100000 0 _ inv bounded hcur page (entry_hasD pp)
  exact ⟨s, _, m', inv, gone, window (.sys (.env (.memUnmap 0 pageVa))) trivial _ gone,
    .copy returns, window (.copy (.getPath pageVa)) fits _ (.copy returns)⟩

/-! ## Runs -/

/-- An operation of the kernel, or a call that copies. -/
inductive SystemOp
  | kernel (op : KernelOp)
  | copy (call : CopyCall)

def systemStep (pwd : Word) (m : System) (op : SystemOp) (m' : System) : Prop :=
  match op with
  | .kernel op => kernelStep m.kernel op m'.kernel ∧ m'.pwd = m.pwd
  | .copy call => (∃ cur, m.kernel.curenv = some cur) ∧ ∃ acts, call.Returns pwd m acts m'

/-- A step whose call, if it copies, fits. -/
def fitStep (pwd : Word) (m : System) (op : SystemOp) (m' : System) : Prop :=
  (∀ call, op = .copy call → call.Fits pwd m) ∧ systemStep pwd m op m'

/-- What holds between two operations. -/
structure SystemInv (b : Boot) (s : Kernel) : Prop where
  live : LiveInv s
  bounded : Bounded s
  shared : SharedWindow b s ∨ Starved s

theorem SystemInv.step {op : SystemOp} (inv : SystemInv b m.kernel) (step : fitStep pwd m op m') :
    SystemInv b m'.kernel := by
  obtain ⟨fits, step⟩ := step
  cases op with
  | kernel op =>
      obtain ⟨live, bounded⟩ := kernelStep_preserves ⟨inv.live, inv.bounded⟩ step.1
      exact ⟨live, bounded, SharedWindow.step inv.live inv.bounded inv.shared step.1⟩
  | copy call =>
      obtain ⟨⟨cur, hcur⟩, acts, returns⟩ := step
      obtain ⟨live, bounded, -, kept⟩ := (fits call rfl).keeps inv.live inv.bounded returns
      rcases inv.shared with shared | ⟨-, unused⟩
      · exact ⟨live, bounded, .inl (kept shared)⟩
      · have listed : cur ∈ m.kernel.envFreeList := by
          rw [unused]
          exact mem_slots cur
        exact absurd listed (inv.live.current cur hcur).1

theorem systemRun_inv {ops : List SystemOp} (boot : envInit b = .ok s)
    (run : Run (fitStep pwd) ⟨s, []⟩ ops m) : SystemInv b m.kernel := by
  obtain ⟨live, bounded⟩ := LiveInv.of_envInit boot
  have start : SystemInv b s := ⟨live, bounded, SharedWindow.of_envInit boot⟩
  exact run.invariant (fun m => SystemInv b m.kernel) start fun _ _ _ inv step => inv.step step

/-- The window at `UPAGES`, the one at `UENVS` and the self-map of an env. -/
def SeesKernel (b : Boot) (s : Kernel) (e : EnvIx) : Prop :=
  WindowAt s.pm (s.envs e).envPgdir upages b.pagesPa (b.npage * sizeofPage) ∧
    WindowAt s.pm (s.envs e).envPgdir uenvs b.envsPa (nenv * sizeofEnv) ∧
    s.pm.mem (s.envs e).envPgdir (pdx uvpt) = page2pa (s.envs e).envPgdir ||| pteV

/-- In a run whose calls copy to user memory and devices only, all envs see the `pages` and
the `envs` array in their windows, and each sees its own page tables. -/
theorem kernel_window_shared {ops : List SystemOp} (boot : envInit b = .ok s)
    (run : Run (fitStep pwd) ⟨s, []⟩ ops m) : ∀ e, e ∉ m.kernel.envFreeList →
      SeesKernel b m.kernel e := by
  intro e inUse
  obtain ⟨live, -, shared | ⟨-, unused⟩⟩ := systemRun_inv boot run
  · exact shared.sees live inUse
  · exact absurd (by rw [unused]; exact mem_slots e) inUse

/-- Without calls that copy, a run of the kernel is one of the system. -/
theorem fitStep_of_kernelStep {ops : List KernelOp} {path : List Byte}
    (run : Run kernelStep s₀ ops s) :
    Run (fitStep pwd) ⟨s₀, path⟩ (ops.map .kernel) ⟨s, path⟩ := by
  refine run.map (fun s => System.mk s path) SystemOp.kernel fun _ _ _ step => ?_
  refine ⟨fun _ same => ?_, ⟨step, rfl⟩⟩
  cases same

/-- The first env of a machine asks for the path at its page. -/
theorem kernel_window_shared_getPath : ∃ s ops m, envInit smallBoot = .ok s ∧
    Run (fitStep 0x80100000) ⟨s, []⟩ (ops ++ [.copy (.getPath pageVa)]) m ∧
    1 ∉ m.kernel.envFreeList ∧ SeesKernel smallBoot m.kernel 1 := by
  obtain ⟨s₀, s, boot, run, roomy, hcur, child, pp, page⟩ := @forkOps_run pteD (by decide)
  obtain ⟨inv, bounded⟩ := kernelRun_inv boot run
  obtain ⟨fits, acts, m', returns⟩ :=
    @LiveInv.getPath_returns s 0x80100000 0 _ inv bounded hcur page (entry_hasD pp)
  have last : fitStep 0x80100000 ⟨s, []⟩ (.copy (.getPath pageVa)) m' := by
    refine ⟨fun call same => ?_, ⟨0, hcur⟩, acts, returns⟩
    cases same
    exact fits
  have whole := (fitStep_of_kernelStep run).snoc last
  have inUse : 1 ∉ m'.kernel.envFreeList := by
    obtain ⟨-, -, ⟨⟨pm, same⟩, -⟩, -⟩ := @CopyCall.Fits.keeps _ _ _ _ _ smallBoot fits inv bounded
      returns
    rw [same]
    exact inv.envid2env child
  exact ⟨s₀, _, m', boot, whole, inUse, kernel_window_shared boot whole 1 inUse⟩

/-! ## A call that does not fit -/

/-- The byte that terminates a string clears the valid bit. -/
theorem insertByte_invalid (w : Word) : ¬ (insertByte w 1 0).Has pteV := by
  rw [Word.Has, not_not, insertByte, show (0 : Byte).setWidth 32 <<< (8 * 1) = 0#32 by decide,
    BitVec.or_zero, BitVec.and_assoc, show ~~~(0xff#32 <<< (8 * 1)) &&& pteV = 0#32 by decide,
    BitVec.and_zero]
  rfl

/-- Where `KSEG0` shows the entry for `UPAGES` of the directory that the first env of
`smallBoot` gets. -/
def upagesEntry : Word := 0x8014c7f8

theorem copyStep_upagesEntry {place : Word} {i : Nat} (inUse : 0 ∉ s.envFreeList)
    (pgdir : (s.envs 0).envPgdir = 332) (shown : physical place = some (332 * 4096 + (2040 + i)))
    (small : i < 4) (other : ¬ IsDevice place) (c : Byte) :
    copyStep s (.store place c) (s.withPm (s.pm.setByte 332 (2040 + i) c)) := by
  have page : (332 * 4096 + (2040 + i)) / 4096 = 332 := by omega
  have step := @copyStep.page s _ c _ (.dir 0) other shown
    (((Kernel.dirs_of_notMem inUse).trans (congrArg some pgdir)).trans (congrArg some page.symm))
  rwa [page, show (332 * 4096 + (2040 + i)) % 4096 = 2040 + i by omega] at step

/-- `sys_get_path` to its own directory takes the window at `UPAGES` from an env. -/
theorem kernel_window_not : ¬ ∀ (b : Boot) (pwd : Word) (s : Kernel) (m : System)
    (ops : List SystemOp), envInit b = .ok s → Run (systemStep pwd) ⟨s, []⟩ ops m →
      ∀ e, e ∉ m.kernel.envFreeList → SeesKernel b m.kernel e := by
  intro claim
  obtain ⟨s₀, s, boot, run, pgdir, hcur, -⟩ := startOps_boot smallBoot_free
  have inUse := ((kernelRun_inv boot run).1.current 0 hcur).1
  have first := @copyStep_upagesEntry s upagesEntry 0 inUse pgdir rfl (by decide)
    (by unfold IsDevice; decide) 0x2f
  have second := @copyStep_upagesEntry (s.withPm (s.pm.setByte 332 2040 0x2f)) (upagesEntry + 1) 1
    inUse pgdir rfl (by decide) (by unfold IsDevice; decide) 0
  have started : Run (systemStep 0x80100000) ⟨s₀, []⟩ _ ⟨s, []⟩ :=
    (fitStep_of_kernelStep run).mono fun _ _ _ step => step.2
  have last : systemStep 0x80100000 ⟨s, []⟩ (.copy (.getPath upagesEntry))
      ⟨(s.withPm (s.pm.setByte 332 2040 0x2f)).withPm
        ((s.pm.setByte 332 2040 0x2f).setByte 332 2041 0), [0x2f]⟩ :=
    ⟨⟨0, hcur⟩, [.store upagesEntry 0x2f, .store (upagesEntry + 1) 0], rfl,
      (Run.single first).snoc second, rfl⟩
  obtain ⟨window, -⟩ := claim _ _ _ _ _ boot (started.snoc last) 0 inUse
  have invalid : ¬ (((s.pm.setByte 332 2040 0x2f).setByte 332 2041 0).mem 332 510).Has pteV := by
    rw [Pmap.setByte_mem _ 332 2041]
    exact insertByte_invalid _
  have here := window 0 rfl (by decide)
  rw [va2pa, if_neg (show ¬ _ from pgdir ▸ invalid)] at here
  exact absurd (Except.ok.inj here) (by decide)

end Mos
