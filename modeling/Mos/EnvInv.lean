import Mos.PmapDir
import Mos.Env

/-!
# What creating and freeing envs preserves

The address spaces of the kernel are those of the envs off the free list.
`KernelInv` adds to `PmapInv` what the env table and the template page directory
have to satisfy for an env to be set up from them.
-/

namespace Mos

/-- The page directories in use: those of the envs off the free list. -/
def Kernel.dirs (s : Kernel) (e : EnvIx) : Option Nat :=
  if e ∈ s.envFreeList then none else some (s.envs e).envPgdir

/-- Page `b` is a page directory nobody uses, whose `envs` and `pages` windows
can be copied into others. -/
structure Template {ε : Type} (dirs : ε → Option Nat) (s : Pmap) (b : Nat) : Prop where
  bystander : Bystander dirs s b
  window : ∀ k, 509 ≤ k → k < 511 → (s.mem b k).Has pteV → WindowTable dirs s k (s.mem b k)

structure KernelInv (s : Kernel) : Prop where
  pm : PmapInv s.dirs s.pm
  template : Template s.dirs s.pm s.basePgdir
  free_nodup : s.envFreeList.Nodup
  free_status : ∀ e ∈ s.envFreeList, (s.envs e).envStatus = .free
  dstva_lt : ∀ e, (s.envs e).envIpcDstva < utop

/-- No page has more references than its count can tell. -/
def Bounded (s : Kernel) : Prop := ∀ p, refs (target s.dirs s.pm.mem) p ≤ 65535

/-- No page has more than `k` references. -/
def AtMost (k : Nat) (s : Kernel) : Prop := ∀ p, refs (target s.dirs s.pm.mem) p ≤ k

theorem AtMost.bounded {k : Nat} {s : Kernel} (most : AtMost k s) (le : k ≤ 65535) : Bounded s :=
  fun p => (most p).trans le

variable {s s' : Kernel} {e : EnvIx} {cur : EnvIx} {d p b : Nat} {pages : List Nat}
  {rest : List EnvIx}

/-! ## The directories in use -/

theorem Kernel.dirs_of_mem (h : e ∈ s.envFreeList) : s.dirs e = none := if_pos h

theorem Kernel.dirs_of_notMem (h : e ∉ s.envFreeList) :
    s.dirs e = some (s.envs e).envPgdir := if_neg h

theorem Kernel.dirs_congr (free : s'.envFreeList = s.envFreeList)
    (pgdir : ∀ e, (s'.envs e).envPgdir = (s.envs e).envPgdir) : s'.dirs = s.dirs := by
  funext e
  simp only [Kernel.dirs, free, pgdir]

/-- An env keeps its page directory, unless the change says otherwise. -/
theorem Kernel.setEnv_pgdir {f : Env → Env} (h : (f (s.envs e)).envPgdir = (s.envs e).envPgdir)
    (e' : EnvIx) : ((s.setEnv e f).envs e').envPgdir = (s.envs e').envPgdir := by
  simp only [Kernel.setEnv]
  rcases eq_or_ne e' e with rfl | hne
  · rw [Function.update_self]
    exact h
  · rw [Function.update_of_ne hne]

theorem Kernel.dirs_setEnv {f : Env → Env} (h : (f (s.envs e)).envPgdir = (s.envs e).envPgdir) :
    (s.setEnv e f).dirs = s.dirs :=
  dirs_congr rfl (setEnv_pgdir h)

/-! ## The template -/

section Template

variable {ε : Type} {dirs dirs' : ε → Option Nat} {pm pm' : Pmap}

theorem Template.of_kept (template : Template dirs pm b) (npage : pm'.npage = pm.npage)
    (kept : ∀ q, Bystander dirs pm q → Bystander dirs' pm' q ∧ pm'.mem q = pm.mem q) :
    Template dirs' pm' b := by
  obtain ⟨bystander, mem⟩ := kept b template.bystander
  refine ⟨bystander, fun k lo hi => ?_⟩
  rw [mem]
  intro valid
  have table := template.window k lo hi valid
  obtain ⟨bystander', mem'⟩ := kept _ table.bystander
  exact ⟨table.writable, by rw [npage]; exact table.lt, bystander',
    by rw [mem']; exact table.readOnly, by rw [mem', npage]; exact table.inside⟩

theorem Template.of_frame {e : ε} (template : Template dirs pm b)
    (frame : Frame dirs e noPage pm pm') :
    Template dirs pm' b :=
  template.of_kept frame.npage fun q hq =>
    ⟨(frame.bystander q hq id).1, (frame.bystander q hq id).2.1⟩

end Template

/-- An operation on the memory of one env keeps the invariant of the kernel. -/
theorem KernelInv.withPm {pm : Pmap} (inv : KernelInv s) (inv' : PmapInv s.dirs pm)
    (frame : Frame s.dirs e noPage s.pm pm) : KernelInv (s.withPm pm) where
  pm := inv'
  template := inv.template.of_frame frame
  free_nodup := inv.free_nodup
  free_status := inv.free_status
  dstva_lt := inv.dstva_lt

/-- The invariant does not depend on the other fields of an env. -/
theorem KernelInv.setEnv {f : Env → Env} (inv : KernelInv s)
    (pgdir : (f (s.envs e)).envPgdir = (s.envs e).envPgdir)
    (status : e ∈ s.envFreeList → (f (s.envs e)).envStatus = .free)
    (dstva : (f (s.envs e)).envIpcDstva < utop) : KernelInv (s.setEnv e f) where
  pm := by
    rw [Kernel.dirs_setEnv pgdir]
    exact inv.pm
  template := by
    rw [Kernel.dirs_setEnv pgdir]
    exact inv.template
  free_nodup := inv.free_nodup
  free_status e' he' := by
    rcases eq_or_ne e' e with rfl | hne
    · simpa [Kernel.setEnv] using status he'
    · simpa [Kernel.setEnv, hne] using inv.free_status e' he'
  dstva_lt e' := by
    rcases eq_or_ne e' e with rfl | hne
    · simpa [Kernel.setEnv] using dstva
    · simpa [Kernel.setEnv, hne] using inv.dstva_lt e'

/-! ## Looking up an env -/

/-- What it takes for `envid2env` to return `e`. -/
theorem envid2env_ok {envid : Word} {checkperm : Bool}
    (h : envid2env s envid checkperm = .ok (.ok e)) :
    (envid = 0 ∧ s.curenv = some e) ∨
    (envid ≠ 0 ∧ e = envx envid ∧ (s.envs e).envStatus ≠ .free ∧ (s.envs e).envId = envid ∧
      (checkperm → ∃ cur, s.curenv = some cur ∧
        ((s.envs e).envId = (s.envs cur).envId ∨
          (s.envs e).envParentId = (s.envs cur).envId))) := by
  unfold envid2env at h
  by_cases zero : envid = 0
  · rw [if_pos zero] at h
    refine .inl ⟨zero, ?_⟩
    cases hcur : s.curenv with
    | none => simp [Kernel.current, hcur, Bind.bind, Except.bind] at h
    | some cur => simpa [Kernel.current, hcur, Bind.bind, Except.bind] using h
  · rw [if_neg zero] at h
    refine .inr ⟨zero, ?_⟩
    by_cases bad : (s.envs (envx envid)).envStatus = .free ∨ (s.envs (envx envid)).envId ≠ envid
    · simp [bad] at h
    · simp only [if_neg bad] at h
      push Not at bad
      cases checkperm with
      | false =>
          simp only [Bool.false_eq_true, if_false, Except.ok.injEq] at h
          subst h
          exact ⟨rfl, bad.1, bad.2, by simp⟩
      | true =>
          cases hcur : s.curenv with
          | none => simp [Kernel.current, hcur, Bind.bind, Except.bind] at h
          | some cur =>
              simp only [if_true, Kernel.current, hcur, Bind.bind, Except.bind] at h
              split at h
              case isTrue related =>
                  simp only [Except.ok.injEq] at h
                  subst h
                  exact ⟨rfl, bad.1, bad.2, fun _ => ⟨cur, rfl, related⟩⟩
              case isFalse => simp at h

theorem Kernel.current_ok (h : s.current = .ok cur) : s.curenv = some cur := by
  unfold Kernel.current at h
  cases hcur : s.curenv with
  | none =>
      rw [hcur] at h
      cases h
  | some e =>
      rw [hcur] at h
      cases h
      rfl

/-- With a current env `envid2env` does not follow a null pointer. -/
theorem envid2env_total (hcur : s.curenv = some cur) (envid : Word) (checkperm : Bool) :
    ∃ r, envid2env s envid checkperm = .ok r := by
  simp only [envid2env, Kernel.current, hcur, Bind.bind, Except.bind]
  split
  · exact ⟨_, rfl⟩
  · split
    · exact ⟨_, rfl⟩
    · split
      · split <;> exact ⟨_, rfl⟩
      · exact ⟨_, rfl⟩

/-- The id of a live env finds it. -/
theorem envid2env_eq {envid : Word} (named : envid ≠ 0) (slot : envx envid = e)
    (status : (s.envs e).envStatus ≠ .free) (id : (s.envs e).envId = envid) :
    envid2env s envid false = .ok (.ok e) := by
  subst slot
  rw [envid2env, if_neg named]
  simp [status, id]

/-- Dropping the check does not change what is found. -/
theorem envid2env_unchecked {envid : Word} (h : envid2env s envid true = .ok (.ok e)) :
    envid2env s envid false = .ok (.ok e) := by
  rcases envid2env_ok h with ⟨rfl, current⟩ | ⟨named, rfl, status, id, -⟩
  · simp only [envid2env, if_true, Kernel.current, current]
    rfl
  · exact envid2env_eq named rfl status id

theorem envid2env_error {envid : Word} {checkperm : Bool} {err : Err}
    (h : envid2env s envid checkperm = .ok (.error err)) : err = .badEnv := by
  unfold envid2env at h
  by_cases zero : envid = 0
  · rw [if_pos zero] at h
    obtain ⟨cur, -, h⟩ := bind_eq_ok.mp h
    cases h
  · rw [if_neg zero] at h
    by_cases bad : (s.envs (envx envid)).envStatus = .free ∨ (s.envs (envx envid)).envId ≠ envid
    · simp only [if_pos bad, Except.ok.injEq, Except.error.injEq] at h
      exact h.symm
    · simp only [if_neg bad] at h
      cases checkperm with
      | false => cases h
      | true =>
          obtain ⟨cur, -, h⟩ := bind_eq_ok.mp h
          split at h
          · cases h
          · cases h
            rfl

/-- The env looked up is in use, as the current one is. -/
theorem KernelInv.envid2env (inv : KernelInv s) (hcur : s.curenv = some cur)
    (allocated : cur ∉ s.envFreeList) {envid : Word} {checkperm : Bool}
    (h : Mos.envid2env s envid checkperm = .ok (.ok e)) : e ∉ s.envFreeList := by
  rcases envid2env_ok h with ⟨-, he⟩ | ⟨-, -, status, -, -⟩
  · rw [hcur] at he
    cases he
    exact allocated
  · exact fun mem => status (inv.free_status e mem)

/-! ## Setting up an env -/

/-- The page directory of a new env: the template entries and its own address. -/
def pgdirWords (base : Nat → Word) (p : Nat) : Nat → Word :=
  Function.update (Function.update (Function.update (fun _ => 0) 509 (base 509)) 510 (base 510))
    511 (page2pa p ||| pteV)

/-- The memory after `p` is taken off the free list for a page directory. -/
def Pmap.newPgdir (pm : Pmap) (b p : Nat) (pages : List Nat) : Pmap :=
  (pm.take p pages).fill p (pgdirWords (pm.mem b) p) (pm.ppRef p + 1)

theorem fillPgdir_eq {pm : Pmap} (hne : b ≠ p) :
    fillPgdir ((pm.take p pages).setRef p (pm.ppRef p + 1)) b p = pm.newPgdir b p pages := by
  simp [fillPgdir, Pmap.setWord, Pmap.setRef, Pmap.take, Pmap.zeroPage, Pmap.newPgdir, Pmap.fill,
    pgdirWords, hne]

theorem pgdirWords_user (base : Nat → Word) (p : Nat) {k : Nat} (h : k < 509 ∨ 511 < k) :
    pgdirWords base p k = 0 := by
  unfold pgdirWords
  rw [Function.update_of_ne (by omega), Function.update_of_ne (by omega),
    Function.update_of_ne (by omega)]

theorem pgdirWords_window (base : Nat → Word) (p : Nat) {k : Nat} (lo : 509 ≤ k) (hi : k < 511) :
    pgdirWords base p k = base k := by
  unfold pgdirWords
  rw [Function.update_of_ne (by omega)]
  obtain rfl | rfl : k = 509 ∨ k = 510 := by omega
  · rw [Function.update_of_ne (by omega), Function.update_self]
  · rw [Function.update_self]

section NewPgdir

variable {ε : Type} [Fintype ε] {dirs : ε → Option Nat} {pm : Pmap} {x : ε}

/-- The page taken for a page directory is fit to be one. -/
theorem PmapInv.newPgdir (inv : PmapInv dirs pm) (template : Template dirs pm b)
    (h : pm.pageFreeList = p :: pages) :
    PmapInv dirs (pm.newPgdir b p pages) ∧ Frame dirs x noPage pm (pm.newPgdir b p pages) ∧
      Bystander dirs (pm.newPgdir b p pages) p ∧ NotKernelTable dirs (pm.newPgdir b p pages) p ∧
      Directory dirs (pm.newPgdir b p pages) p := by
  have isFree : p ∈ pm.pageFreeList := by rw [h]; exact List.mem_cons_self
  obtain ⟨taken, frame, fresh⟩ := inv.take (e := x) h
  obtain ⟨inv', filled, bystander, notKernel⟩ :=
    taken.fill (e := x) fresh.toBystander fresh.notKernel (pgdirWords (pm.mem b) p) (pm.ppRef p + 1)
  have frame' : Frame dirs x noPage pm (pm.newPgdir b p pages) :=
    frame.trans_excepting filled fun h => h.notFree isFree
  have contents : (pm.newPgdir b p pages).mem p = pgdirWords (pm.mem b) p :=
    Function.update_self ..
  refine ⟨inv', frame', bystander, notKernel, fresh.lt, ?_, fun i => ?_, ?_, ?_⟩
  · have count : (pm.newPgdir b p pages).ppRef p = pm.ppRef p + 1 := Function.update_self ..
    have zero : pm.ppRef p = 0 := fresh.count
    rw [count, zero]
    rfl
  · rw [contents, pgdirWords_user _ _ (.inl i.isLt)]
    exact entry_zero
  · rw [contents]
    exact Function.update_self ..
  · intro k lo hi hne valid
    rw [contents] at valid ⊢
    by_cases window : k < 511
    · rw [pgdirWords_window _ _ lo window] at valid ⊢
      have moved := (template.of_frame frame').window k lo window
      rw [(frame'.bystander b template.bystander id).2.1] at moved
      exact ⟨moved valid,
        fun eq => (template.window k lo window valid).bystander.notFree (eq ▸ isFree)⟩
    · rw [pgdirWords_user _ _ (.inr (by omega))] at valid
      exact absurd valid (by decide)

end NewPgdir

/-- The kernel after `env_setup_vm` and `mkenvid` for the env `e`, in memory `pm`
with the page directory `p`. -/
def Kernel.setupEnv (s : Kernel) (e : EnvIx) (p : Nat) (pm : Pmap) : Kernel :=
  { s with
    pm := pm
    envs := Function.update s.envs e
      { s.envs e with
        envPgdir := p
        envUserTlbModEntry := 0
        envRuns := 0
        envId := ((s.mkenvidCount + 1) <<< 11) ||| BitVec.ofNat 32 e }
    mkenvidCount := s.mkenvidCount + 1 }

/-- The env `e` is set up with the free page `p`. -/
def Kernel.newEnv (s : Kernel) (e : EnvIx) (p : Nat) (pages : List Nat) : Kernel :=
  s.setupEnv e p (s.pm.newPgdir s.basePgdir p pages)

/-- The kernel after the env `e` is given ASID `i` and leaves the free list. -/
def Kernel.admitEnv (s : Kernel) (e : EnvIx) (rest : List EnvIx) (i : Nat) (parentId : Word) :
    Kernel :=
  { s with
    asidBitmap := Function.update s.asidBitmap (i / 32) (s.asidBitmap (i / 32) ||| asidBit i)
    envs := Function.update s.envs e
      { s.envs e with
        envAsid := BitVec.ofNat 32 i
        envParentId := parentId
        envTf :=
          { (s.envs e).envTf with
            cp0Status := userStatus
            regs := Function.update (s.envs e).envTf.regs 29 (ustacktop - 8) } }
    envFreeList := rest }

theorem envSetupVm_ok {r : Except Err Unit} (h : envSetupVm s e = .ok (s', r)) :
    (∃ pm err, r = .error err ∧ s' = s.withPm pm) ∨
    (∃ pm p, r = .ok () ∧ s' = (s.setEnv e fun env => { env with envPgdir := p }).withPm pm) := by
  unfold envSetupVm at h
  obtain ⟨⟨pm, found⟩, -, h⟩ := bind_eq_ok.mp h
  cases found with
  | error err =>
      cases h
      exact .inl ⟨pm, err, rfl, rfl⟩
  | ok p =>
      obtain ⟨pgdir, -, h⟩ := bind_eq_ok.mp h
      cases h
      exact .inr ⟨_, pgdir, rfl, rfl⟩

/-- Whatever the memory looks like, `env_alloc` only touches the first free env. -/
theorem envAlloc_ok {parentId : Word} {r : Except Err EnvIx}
    (h : Mos.envAlloc s parentId = .ok (s', r)) :
    (∃ pm err, r = .error err ∧ s' = s.withPm pm) ∨
    (∃ e rest p pm err, s.envFreeList = e :: rest ∧ r = .error err ∧ s' = s.setupEnv e p pm) ∨
    (∃ e rest p pm i, s.envFreeList = e :: rest ∧ freeAsid s.asidBitmap = some i ∧ r = .ok e ∧
      s' = (s.setupEnv e p pm).admitEnv e rest i parentId) := by
  unfold Mos.envAlloc at h
  cases hfree : s.envFreeList with
  | nil =>
      simp only [hfree] at h
      cases h
      exact .inl ⟨s.pm, .noFreeEnv, rfl, rfl⟩
  | cons e rest =>
      simp only [hfree] at h
      obtain ⟨⟨s₁, done⟩, setup, h⟩ := bind_eq_ok.mp h
      rcases envSetupVm_ok setup with ⟨pm, err, rfl, rfl⟩ | ⟨pm, p, rfl, rfl⟩
      · cases h
        exact .inl ⟨pm, err, rfl, rfl⟩
      · cases hasid : freeAsid s.asidBitmap with
        | none =>
            simp only [mkenvid, Kernel.setEnv, Kernel.withPm, asidAlloc, hasid,
              Function.update_idem, Function.update_self, Except.ok.injEq, Prod.mk.injEq] at h
            obtain ⟨rfl, rfl⟩ := h
            exact .inr (.inl ⟨e, rest, p, pm, .noFreeEnv, rfl, rfl, rfl⟩)
        | some i =>
            simp only [mkenvid, Kernel.setEnv, Kernel.withPm, asidAlloc, hasid,
              Function.update_idem, Function.update_self, Except.ok.injEq, Prod.mk.injEq] at h
            obtain ⟨rfl, rfl⟩ := h
            refine .inr (.inr ⟨e, rest, p, pm, i, rfl, rfl, rfl, ?_⟩)
            simp only [Kernel.setupEnv, Kernel.admitEnv, Function.update_idem,
              Function.update_self]

/-- `env_alloc` finds no slot, no page or no ASID, or it admits an env. -/
theorem KernelInv.envAlloc_cases (inv : KernelInv s) (parentId : Word) :
    (s.envFreeList = [] ∧ envAlloc s parentId = .ok (s, .error .noFreeEnv)) ∨
    (∃ e rest, s.envFreeList = e :: rest ∧ s.pm.pageFreeList = [] ∧
      envAlloc s parentId = .ok (s, .error .noMem)) ∨
    (∃ e rest p pages, s.envFreeList = e :: rest ∧ s.pm.pageFreeList = p :: pages ∧
      freeAsid s.asidBitmap = none ∧
      envAlloc s parentId = .ok (s.newEnv e p pages, .error .noFreeEnv)) ∨
    (∃ e rest p pages i, s.envFreeList = e :: rest ∧ s.pm.pageFreeList = p :: pages ∧
      freeAsid s.asidBitmap = some i ∧
      envAlloc s parentId = .ok ((s.newEnv e p pages).admitEnv e rest i parentId, .ok e)) := by
  cases hfree : s.envFreeList with
  | nil => exact .inl ⟨rfl, by simp [envAlloc, hfree]⟩
  | cons e rest =>
      cases hpages : s.pm.pageFreeList with
      | nil =>
          refine .inr (.inl ⟨e, rest, rfl, rfl, ?_⟩)
          simp only [envAlloc, hfree, envSetupVm, pageAlloc_nil hpages, Bind.bind, Except.bind]
          rfl
      | cons p pages =>
          have isFree : p ∈ s.pm.pageFreeList := by rw [hpages]; exact List.mem_cons_self
          have lt := inv.pm.free_lt p isFree
          have hne : s.basePgdir ≠ p := fun eq => inv.template.bystander.notFree (eq ▸ isFree)
          have kva : ((s.pm.take p pages).setRef p (s.pm.ppRef p + 1)).page2kva p = .ok p :=
            page2kva_eq inv.pm.npage_le lt
          have setup : envSetupVm s e = .ok
              ((s.setEnv e fun env => { env with envPgdir := p }).withPm
                (s.pm.newPgdir s.basePgdir p pages), .ok ()) := by
            unfold envSetupVm
            simp only [inv.pm.pageAlloc_cons hpages, Bind.bind, Except.bind]
            rw [show (s.pm.take p pages).ppRef p = s.pm.ppRef p from rfl, kva]
            simp only [← fillPgdir_eq hne]
            rfl
          cases hasid : freeAsid s.asidBitmap with
          | none =>
              refine .inr (.inr (.inl ⟨e, rest, p, pages, rfl, rfl, rfl, ?_⟩))
              simp only [envAlloc, hfree, setup, Bind.bind, Except.bind, asidAlloc, mkenvid,
                Kernel.setEnv, Kernel.withPm, hasid, Function.update_idem, Function.update_self,
                Kernel.newEnv, Kernel.setupEnv]
          | some i =>
              refine .inr (.inr (.inr ⟨e, rest, p, pages, i, rfl, rfl, rfl, ?_⟩))
              simp only [envAlloc, hfree, setup, Bind.bind, Except.bind, asidAlloc, mkenvid,
                Kernel.setEnv, Kernel.withPm, hasid, Function.update_idem, Function.update_self,
                Kernel.newEnv, Kernel.setupEnv, Kernel.admitEnv]

/-- The directory of an env on the free list does not count. -/
theorem Kernel.dirs_newEnv (isFree : e ∈ s.envFreeList) : (s.newEnv e p pages).dirs = s.dirs := by
  funext e'
  rcases eq_or_ne e' e with rfl | hne
  · have still : e' ∈ (s.newEnv e' p pages).envFreeList := isFree
    rw [Kernel.dirs_of_mem isFree, Kernel.dirs_of_mem still]
  · simp only [Kernel.dirs, Kernel.newEnv, Kernel.setupEnv, Function.update_of_ne hne]

/-- An env still on the free list may be given a page directory. -/
theorem KernelInv.newEnv (inv : KernelInv s) (isFree : e ∈ s.envFreeList)
    (h : s.pm.pageFreeList = p :: pages) : KernelInv (s.newEnv e p pages) := by
  have dirs : (s.newEnv e p pages).dirs = s.dirs := Kernel.dirs_newEnv isFree
  obtain ⟨inv', frame, -⟩ := inv.pm.newPgdir (x := e) inv.template h
  have same : ∀ e', ((s.newEnv e p pages).envs e').envStatus = (s.envs e').envStatus ∧
      ((s.newEnv e p pages).envs e').envIpcDstva = (s.envs e').envIpcDstva := by
    intro e'
    rcases eq_or_ne e' e with rfl | hne
    · simp [Kernel.newEnv, Kernel.setupEnv]
    · simp [Kernel.newEnv, Kernel.setupEnv, hne]
  refine ⟨by rw [dirs]; exact inv', by rw [dirs]; exact inv.template.of_frame frame,
    inv.free_nodup, fun e' he' => ?_, fun e' => ?_⟩
  · rw [(same e').1]
    exact inv.free_status e' he'
  · rw [(same e').2]
    exact inv.dstva_lt e'

/-- Leaving the free list adds the new page directory to those in use. -/
theorem Kernel.dirs_admitEnv (p : Nat) (pages : List Nat) (i : Nat) (parentId : Word)
    (nodup : s.envFreeList.Nodup) (hfree : s.envFreeList = e :: rest) :
    ((s.newEnv e p pages).admitEnv e rest i parentId).dirs =
      Function.update s.dirs e (some p) := by
  rw [hfree, List.nodup_cons] at nodup
  funext e'
  rcases eq_or_ne e' e with rfl | hne
  · simp [Kernel.dirs, Kernel.admitEnv, Kernel.newEnv, Kernel.setupEnv, nodup.1]
  · simp [Kernel.dirs, Kernel.admitEnv, Kernel.newEnv, Kernel.setupEnv, hne, hfree]

theorem KernelInv.admitEnv (inv : KernelInv s) (hfree : s.envFreeList = e :: rest)
    (h : s.pm.pageFreeList = p :: pages) (i : Nat) (parentId : Word) :
    KernelInv ((s.newEnv e p pages).admitEnv e rest i parentId) := by
  have isFree : e ∈ s.envFreeList := by rw [hfree]; exact List.mem_cons_self
  have pageFree : p ∈ s.pm.pageFreeList := by rw [h]; exact List.mem_cons_self
  obtain ⟨inv', frame, bystander, notKernel, directory⟩ :=
    inv.pm.newPgdir (x := e) inv.template h
  obtain ⟨added, kept⟩ :=
    inv'.addDir (Kernel.dirs_of_mem isFree) bystander notKernel directory
  have dirs := Kernel.dirs_admitEnv p pages i parentId inv.free_nodup hfree
  have nodup := inv.free_nodup
  rw [hfree, List.nodup_cons] at nodup
  have same : ∀ e', (((s.newEnv e p pages).admitEnv e rest i parentId).envs e').envStatus =
        (s.envs e').envStatus ∧
      (((s.newEnv e p pages).admitEnv e rest i parentId).envs e').envIpcDstva =
        (s.envs e').envIpcDstva := by
    intro e'
    rcases eq_or_ne e' e with rfl | hne
    · simp [Kernel.admitEnv, Kernel.newEnv, Kernel.setupEnv]
    · simp [Kernel.admitEnv, Kernel.newEnv, Kernel.setupEnv, hne]
  refine ⟨by rw [dirs]; exact added, ?_, nodup.2, fun e' he' => ?_, fun e' => ?_⟩
  · rw [dirs]
    refine inv.template.of_kept frame.npage fun q hq => ?_
    obtain ⟨hq', mem, -⟩ := frame.bystander q hq id
    exact ⟨kept q hq' fun eq => hq.notFree (eq ▸ pageFree), mem⟩
  · rw [(same e').1]
    exact inv.free_status e' (by rw [hfree]; exact List.mem_cons_of_mem _ he')
  · rw [(same e').2]
    exact inv.dstva_lt e'

theorem KernelInv.envAlloc (inv : KernelInv s) (parentId : Word) :
    ∃ s' r, Mos.envAlloc s parentId = .ok (s', r) ∧ KernelInv s' := by
  rcases inv.envAlloc_cases parentId with ⟨-, run⟩ | ⟨e, rest, -, -, run⟩ |
    ⟨e, rest, p, pages, hfree, h, -, run⟩ | ⟨e, rest, p, pages, i, hfree, h, -, run⟩
  · exact ⟨_, _, run, inv⟩
  · exact ⟨_, _, run, inv⟩
  · exact ⟨_, _, run, inv.newEnv (by rw [hfree]; exact List.mem_cons_self) h⟩
  · exact ⟨_, _, run, inv.admitEnv hfree h i parentId⟩

/-- A new page directory takes no reference away, and adds the one to itself. -/
theorem KernelInv.atMost_admitEnv {k : Nat} (inv : KernelInv s) (most : AtMost k s) (pos : 0 < k)
    (hfree : s.envFreeList = e :: rest) (h : s.pm.pageFreeList = p :: pages) (i : Nat)
    (parentId : Word) : AtMost k ((s.newEnv e p pages).admitEnv e rest i parentId) := by
  have isFree : e ∈ s.envFreeList := by rw [hfree]; exact List.mem_cons_self
  obtain ⟨-, -, bystander, -, directory⟩ := inv.pm.newPgdir (x := e) inv.template h
  obtain ⟨taken, -, fresh⟩ := inv.pm.take (e := e) h
  have same : target s.dirs (s.pm.newPgdir s.basePgdir p pages).mem = target s.dirs s.pm.mem :=
    (target_writePage (fun r _ => fresh.untargeted r) _).trans (inv.pm.target_take h)
  have added : target (Function.update s.dirs e (some p)) (s.pm.newPgdir s.basePgdir p pages).mem =
      Function.update (target s.dirs s.pm.mem) (.dir e) (some p) := by
    rw [target_addDir (Kernel.dirs_of_mem isFree) directory.empty, same]
  have vacant : target s.dirs s.pm.mem (.dir e) = none := Kernel.dirs_of_mem isFree
  intro q
  rw [Kernel.dirs_admitEnv p pages i parentId inv.free_nodup hfree]
  show refs (target _ (s.pm.newPgdir s.basePgdir p pages).mem) q ≤ _
  rw [added]
  rcases eq_or_ne q p with rfl | hne
  · have none_before : refs (target s.dirs s.pm.mem) q = 0 := by
      rw [← same]
      exact refs_eq_zero_iff.mpr bystander.untargeted
    rw [refs_link_self vacant, none_before]
    exact pos
  · rw [refs_update_of_ne (by simp [vacant]) (by simpa using hne.symm)]
    exact most q

theorem KernelInv.bounded_admitEnv (inv : KernelInv s) (bounded : Bounded s)
    (hfree : s.envFreeList = e :: rest) (h : s.pm.pageFreeList = p :: pages) (i : Nat)
    (parentId : Word) : Bounded ((s.newEnv e p pages).admitEnv e rest i parentId) :=
  inv.atMost_admitEnv bounded (by decide) hfree h i parentId

theorem KernelInv.bounded_envAlloc {parentId : Word} {r : Except Err EnvIx} (inv : KernelInv s)
    (bounded : Bounded s) (h : Mos.envAlloc s parentId = .ok (s', r)) : Bounded s' := by
  rcases inv.envAlloc_cases parentId with ⟨-, run⟩ | ⟨e, rest, -, -, run⟩ |
    ⟨e, rest, p, pages, hfree, pages_eq, -, run⟩ | ⟨e, rest, p, pages, i, hfree, pages_eq, -, run⟩
  all_goals rw [run] at h; cases h
  · exact bounded
  · exact bounded
  · have isFree : e ∈ s.envFreeList := by rw [hfree]; exact List.mem_cons_self
    obtain ⟨-, -, fresh⟩ := inv.pm.take (e := e) pages_eq
    have same : target s.dirs (s.pm.newPgdir s.basePgdir p pages).mem = target s.dirs s.pm.mem :=
      (target_writePage (fun r _ => fresh.untargeted r) _).trans (inv.pm.target_take pages_eq)
    intro q
    rw [Kernel.dirs_newEnv isFree]
    show refs (target s.dirs (s.pm.newPgdir s.basePgdir p pages).mem) q ≤ _
    rw [same]
    exact bounded q
  · exact inv.bounded_admitEnv bounded hfree pages_eq i parentId

/-- With a slot, a page and an ASID left, `env_alloc` succeeds. -/
theorem KernelInv.envAlloc_eq (inv : KernelInv s) {i : Nat} {parentId : Word}
    (hfree : s.envFreeList = e :: rest) (h : s.pm.pageFreeList = p :: pages)
    (hasid : freeAsid s.asidBitmap = some i) :
    Mos.envAlloc s parentId = .ok ((s.newEnv e p pages).admitEnv e rest i parentId, .ok e) := by
  rcases inv.envAlloc_cases parentId with ⟨nil, -⟩ | ⟨_, _, -, nil, -⟩ |
    ⟨_, _, _, _, -, -, none_left, -⟩ | ⟨e', rest', p', pages', i', hfree', h', hasid', run⟩
  · rw [nil] at hfree
    cases hfree
  · rw [nil] at h
    cases h
  · rw [none_left] at hasid
    cases hasid
  · rw [hfree] at hfree'
    rw [h] at h'
    rw [hasid] at hasid'
    cases hfree'
    cases h'
    cases hasid'
    exact run

end Mos
