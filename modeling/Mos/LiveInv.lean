import Mos.SyscallInv
import Mos.SchedStep

/-!
# The kernel between system calls

`LiveInv` holds whenever the kernel has given the processor to an env: beside the
invariant of the memory, every env in use has the id of its slot, and the current
env is in use and runs on its own page directory. Every way into the kernel
preserves it.
-/

namespace Mos

variable {s s' : Kernel} {cur e : EnvIx}

structure LiveInv (s : Kernel) : Prop where
  inv : KernelInv s
  ids : ∀ e, e ∉ s.envFreeList → envx (s.envs e).envId = e
  current : ∀ cur, s.curenv = some cur →
    cur ∉ s.envFreeList ∧ s.curPgdir = some (s.envs cur).envPgdir

/-- The slot an id was made for. -/
theorem envx_mkenvid (count : Word) (e : EnvIx) :
    envx ((count <<< 11) ||| BitVec.ofNat 32 e) = e := by
  have lt : (e : Nat) < 2 ^ 10 := e.isLt
  have high : count.toNat <<< 11 % 2 ^ 32 % 2 ^ 10 = 0 := by
    rw [Nat.shiftLeft_eq]
    omega
  have low : (e : Nat) % 2 ^ 32 % 2 ^ 10 = e := by omega
  apply Fin.ext
  show ((count <<< 11) ||| BitVec.ofNat 32 e).toNat % 2 ^ 10 = e
  rw [BitVec.toNat_or, BitVec.toNat_shiftLeft, BitVec.toNat_ofNat, Nat.or_mod_two_pow, high, low,
    Nat.zero_or]

/-! ## Changes the memory does not see -/

theorem KernelInv.congr (inv : KernelInv s) (pm : s'.pm = s.pm)
    (free : s'.envFreeList = s.envFreeList) (base : s'.basePgdir = s.basePgdir)
    (pgdir : ∀ e, (s'.envs e).envPgdir = (s.envs e).envPgdir)
    (status : ∀ e ∈ s.envFreeList, (s'.envs e).envStatus = .free)
    (dstva : ∀ e, (s'.envs e).envIpcDstva < utop) : KernelInv s' where
  pm := by
    rw [Kernel.dirs_congr free pgdir, pm]
    exact inv.pm
  template := by
    rw [Kernel.dirs_congr free pgdir, pm, base]
    exact inv.template
  free_nodup := by
    rw [free]
    exact inv.free_nodup
  free_status e he := status e (free ▸ he)
  dstva_lt := dstva

theorem KernelInv.resumed (inv : KernelInv s) (resumed : Resumed s s') : KernelInv s' := by
  refine inv.congr resumed.pm resumed.free resumed.basePgdir
    (resumed.field Env.envPgdir fun _ _ _ => rfl) (fun e he => ?_) fun e => ?_
  · rw [resumed.status]
    exact inv.free_status e he
  · rw [resumed.field Env.envIpcDstva fun _ _ _ => rfl]
    exact inv.dstva_lt e

/-- Whatever env gets the processor next, it is in use. -/
theorem LiveInv.of_resumed (inv : KernelInv s)
    (ids : ∀ e, e ∉ s.envFreeList → envx (s.envs e).envId = e) (resumed : Resumed s s') :
    LiveInv s' where
  inv := inv.resumed resumed
  ids e he := by
    rw [resumed.field Env.envId fun _ _ _ => rfl]
    exact ids e (resumed.free ▸ he)
  current cur hcur := by
    obtain ⟨e, current, runnable, pgdir⟩ := resumed.current
    rw [current] at hcur
    cases hcur
    refine ⟨fun mem => ?_, ?_⟩
    · rw [resumed.free] at mem
      have free := inv.free_status _ mem
      rw [runnable] at free
      cases free
    · rw [pgdir, resumed.field Env.envPgdir fun _ _ _ => rfl]

theorem LiveInv.resumed (inv : LiveInv s) (resumed : Resumed s s') : LiveInv s' :=
  .of_resumed inv.inv inv.ids resumed

/-- An env in use is changed, but for its page directory and its id. -/
theorem LiveInv.setEnv {f : Env → Env} (inv : LiveInv s) (inUse : e ∉ s.envFreeList)
    (pgdir : (f (s.envs e)).envPgdir = (s.envs e).envPgdir)
    (id : (f (s.envs e)).envId = (s.envs e).envId) (dstva : (f (s.envs e)).envIpcDstva < utop) :
    LiveInv (s.setEnv e f) where
  inv := inv.inv.setEnv pgdir (fun mem => absurd mem inUse) dstva
  ids e' he' := by
    rw [Kernel.setEnv_field Env.envId id]
    exact inv.ids e' he'
  current cur hcur := by
    rw [Kernel.setEnv_field Env.envPgdir pgdir]
    exact inv.current cur hcur

/-- The queue and the saved trap frame do not matter. -/
theorem LiveInv.requeue (inv : LiveInv s) (q : Tailq EnvIx) (tf : Trapframe) :
    LiveInv { s with envSchedList := q, kstackTf := tf } :=
  ⟨inv.inv.congr rfl rfl rfl (fun _ => rfl) inv.inv.free_status inv.inv.dstva_lt, inv.ids,
    inv.current⟩

theorem LiveInv.memStep {pm : Pmap} (inv : LiveInv s) (step : MemStep s e pm) :
    LiveInv (s.withPm pm) :=
  ⟨inv.inv.memStep step, inv.ids, inv.current⟩

/-- The env looked up is in use, whatever the call checks. -/
theorem LiveInv.envid2env {envid : Word} {checkperm : Bool} (inv : LiveInv s)
    (h : Mos.envid2env s envid checkperm = .ok (.ok e)) : e ∉ s.envFreeList := by
  rcases envid2env_ok h with ⟨-, current⟩ | ⟨-, -, status, -⟩
  · exact (inv.current e current).1
  · exact fun mem => status (inv.inv.free_status e mem)

/-! ## New envs -/

theorem LiveInv.newEnv {rest : List EnvIx} {p : Nat} {pages : List Nat} (inv : LiveInv s)
    (hfree : s.envFreeList = e :: rest) (h : s.pm.pageFreeList = p :: pages) :
    LiveInv (s.newEnv e p pages) := by
  have isFree : e ∈ s.envFreeList := by rw [hfree]; exact List.mem_cons_self
  have other : ∀ x, x ∉ s.envFreeList → (s.newEnv e p pages).envs x = s.envs x := fun x hx =>
    Function.update_of_ne (fun eq => hx (by rw [eq]; exact isFree)) _ _
  refine ⟨inv.inv.newEnv isFree h, fun x hx => ?_, fun cur hcur => ?_⟩
  · rw [other x hx]
    exact inv.ids x hx
  · obtain ⟨inUse, pgdir⟩ := inv.current cur hcur
    refine ⟨inUse, ?_⟩
    rw [other cur inUse]
    exact pgdir

theorem LiveInv.admitEnv {rest : List EnvIx} {p : Nat} {pages : List Nat} (inv : LiveInv s)
    (hfree : s.envFreeList = e :: rest) (h : s.pm.pageFreeList = p :: pages) (i : Nat)
    (parentId : Word) : LiveInv ((s.newEnv e p pages).admitEnv e rest i parentId) := by
  have isFree : e ∈ s.envFreeList := by rw [hfree]; exact List.mem_cons_self
  have other : ∀ x, x ≠ e →
      ((s.newEnv e p pages).admitEnv e rest i parentId).envs x = s.envs x := by
    intro x hne
    simp [Kernel.admitEnv, Kernel.newEnv, Kernel.setupEnv, hne]
  have still : ∀ x, x ≠ e → x ∉ rest → x ∉ s.envFreeList := by
    intro x hne hx mem
    rw [hfree] at mem
    exact hx ((List.mem_cons.mp mem).resolve_left hne)
  have sub : ∀ x, x ∉ s.envFreeList → x ∉ rest := fun x hx mem =>
    hx (by rw [hfree]; exact List.mem_cons_of_mem _ mem)
  refine ⟨inv.inv.admitEnv hfree h i parentId, fun x hx => ?_, fun cur hcur => ?_⟩
  · rcases eq_or_ne x e with rfl | hne
    · have id : (((s.newEnv x p pages).admitEnv x rest i parentId).envs x).envId =
          ((s.mkenvidCount + 1) <<< 11) ||| BitVec.ofNat 32 x := by
        simp [Kernel.admitEnv, Kernel.newEnv, Kernel.setupEnv]
      rw [id]
      exact envx_mkenvid _ _
    · rw [other x hne]
      exact inv.ids x (still x hne hx)
  · obtain ⟨inUse, pgdir⟩ := inv.current cur hcur
    have hne : cur ≠ e := fun eq => inUse (eq ▸ isFree)
    refine ⟨sub cur inUse, ?_⟩
    rw [other cur hne]
    exact pgdir

/-- The env `env_alloc` returns is in use, and waits for a message at no address
above `UTOP`. -/
theorem LiveInv.envAlloc {parentId : Word} {r : Except Err EnvIx} (inv : LiveInv s)
    (h : Mos.envAlloc s parentId = .ok (s', r)) :
    LiveInv s' ∧ s'.curenv = s.curenv ∧ ∀ e, r = .ok e → e ∉ s'.envFreeList := by
  rcases inv.inv.envAlloc_cases parentId with ⟨-, run⟩ | ⟨e, rest, -, -, run⟩ |
    ⟨e, rest, p, pages, hfree, pages_eq, -, run⟩ | ⟨e, rest, p, pages, i, hfree, pages_eq, -, run⟩
  all_goals rw [run] at h; cases h
  · exact ⟨inv, rfl, by simp⟩
  · exact ⟨inv, rfl, by simp⟩
  · exact ⟨inv.newEnv hfree pages_eq, rfl, by simp⟩
  · refine ⟨inv.admitEnv hfree pages_eq i parentId, rfl, fun x hx => ?_⟩
    cases hx
    have nodup := inv.inv.free_nodup
    rw [hfree, List.nodup_cons] at nodup
    exact nodup.1

/-! ## Loading an image -/

section Load

variable {page : IcodePage} {pages : List IcodePage}

/-- The segment lies below `UTOP`, and its permission is flags. -/
def IcodePage.Legal (page : IcodePage) : Prop := page.va < utop ∧ page.perm < 0x1000#32

theorem KernelInv.loadIcodeMapper {r : Except Err Unit} (inv : KernelInv s) (bounded : Bounded s)
    (he : e ∉ s.envFreeList) (legal : page.Legal)
    (h : Mos.loadIcodeMapper s e page = .ok (s', r)) :
    ∃ pm, s' = s.withPm pm ∧ MemStep s e pm ∧ Bounded (s.withPm pm) := by
  unfold Mos.loadIcodeMapper at h
  cases hfree : s.pm.pageFreeList with
  | nil =>
      rw [pageAlloc_nil hfree] at h
      cases h
  | cons p rest =>
      have hd := Kernel.dirs_of_notMem he
      have isFree : p ∈ s.pm.pageFreeList := by rw [hfree]; exact List.mem_cons_self
      obtain ⟨taken, frame, fresh⟩ := inv.pm.take (e := e) hfree
      have kva : (s.pm.take p rest).page2kva p = .ok p := page2kva_eq taken.npage_le fresh.lt
      simp only [inv.pm.pageAlloc_cons hfree, Bind.bind, Except.bind, kva] at h
      -- the page is filled before it is mapped
      have filled := taken.fill (e := e) fresh.toBystander fresh.notKernel page.contents
        ((s.pm.take p rest).ppRef p)
      rw [show (s.pm.take p rest).fill p page.contents ((s.pm.take p rest).ppRef p) =
        { s.pm.take p rest with mem := Function.update (s.pm.take p rest).mem p page.contents } by
          simp [Pmap.fill]] at filled
      obtain ⟨inv₁, frame₁, bystander, notKernel⟩ := filled
      have same : target s.dirs (Function.update (s.pm.take p rest).mem p page.contents) =
          target s.dirs s.pm.mem :=
        (target_writePage (fun r _ => fresh.untargeted r) _).trans (inv.pm.target_take hfree)
      have bound : ∀ q, refs (target s.dirs
          (Function.update (s.pm.take p rest).mem p page.contents)) q < 2 ^ 16 := by
        intro q
        rw [same]
        exact Nat.lt_succ_of_le (bounded q)
      have mappable : Mappable s.dirs { s.pm.take p rest with
          mem := Function.update (s.pm.take p rest).mem p page.contents } p :=
        ⟨.of_untargeted bystander.notFree bystander.untargeted fresh.count, fresh.lt,
          fun _ => notKernel⟩
      obtain ⟨pm', r', run, inv₂, frame₂⟩ := inv₁.pageInsert hd (pdx_lt_of_lt_utop legal.1)
        (fun q _ _ => bound q) mappable legal.2 (s.envs e).envAsid
      simp only [run] at h
      cases h
      refine ⟨pm', rfl, ⟨inv₂, ?_⟩, fun q => ?_⟩
      · have frame' := frame.trans_excepting frame₁ fun hb => hb.notFree isFree
        exact frame'.trans_excepting frame₂ fun hb => hb.notFree isFree
      · have le := inv₁.refs_pageInsert bound hd (pdx_lt_of_lt_utop legal.1) legal.2 bystander
          fresh.lt q run
        have before : refs (target s.dirs
            (Function.update (s.pm.take p rest).mem p page.contents)) q ≤ 65535 :=
          Nat.le_of_lt_succ (bound q)
        exact Nat.le_trans le (Nat.max_le.mpr ⟨before, by decide⟩)

/-- The pages of an image are mapped one after the other. -/
theorem KernelInv.loadPages (inv : KernelInv s) (bounded : Bounded s) (he : e ∉ s.envFreeList)
    (legal : ∀ page ∈ pages, page.Legal) (h : Mos.loadPages s e pages = .ok s') :
    ∃ pm, s' = s.withPm pm ∧ MemStep s e pm := by
  induction pages generalizing s with
  | nil =>
      cases h
      exact ⟨_, rfl, .refl inv e⟩
  | cons page pages ih =>
      obtain ⟨⟨s₁, r⟩, load, h⟩ := bind_eq_ok.mp h
      obtain ⟨pm, rfl, step, bounded₁⟩ :=
        inv.loadIcodeMapper bounded he (legal page List.mem_cons_self) load
      cases r with
      | error err => cases h
      | ok _ =>
          obtain ⟨pm', rfl, step'⟩ := ih (inv.memStep step) bounded₁ he
            (fun page hp => legal page (List.mem_cons_of_mem _ hp)) h
          exact ⟨pm', rfl, step'.inv, step.frame.trans step'.frame⟩

end Load

end Mos
