import Mos.IpcSend
import Mos.Isolation

/-!
# Which page table entries a system call changes

The memory calls check the address they are given, and the one `sys_ipc_try_send`
uses was checked when the receiver stored it, but 0 passes there as well: it stands
for a receiver that wants no page. A sender with a page then maps it at address 0.
-/

namespace Mos

/-- The entry of a page table for `va`, if it is valid. -/
def pteAt (mem : Nat → Nat → Word) (d : Nat) (va : Word) : Option Word :=
  match entry (mem d (pdx va)) with
  | none => none
  | some t => if (mem t (ptx va)).Has pteV then some (mem t (ptx va)) else none

/-- `va` and `va'` are in one page. -/
def SamePage (va va' : Word) : Prop := pdx va = pdx va' ∧ ptx va = ptx va'

section Entries

variable {ε : Type} {dirs : ε → Option Nat} {pm pm' : Pmap} {mem mem' : Nat → Nat → Word}
  {x : ε} {d t p : Nat} {va va' asid perm : Word}

theorem pteAt_none (h : entry (mem d (pdx va)) = none) : pteAt mem d va = none := by
  rw [pteAt, h]

theorem pteAt_some (h : entry (mem d (pdx va)) = some t) :
    pteAt mem d va = if (mem t (ptx va)).Has pteV then some (mem t (ptx va)) else none := by
  rw [pteAt, h]

theorem Maps.pteAt {w : Word} (maps : Maps pm d va w) (valid : w.Has pteV) :
    Mos.pteAt pm.mem d va = some w := by
  obtain ⟨t, ht, -, word⟩ := maps
  rw [pteAt_some ht, word, if_pos valid]

/-- The same directory word and the same table give the same entry. -/
theorem pteAt_congr (dir : mem' d (pdx va) = mem d (pdx va))
    (table : ∀ t, entry (mem d (pdx va)) = some t → mem' t (ptx va) = mem t (ptx va)) :
    pteAt mem' d va = pteAt mem d va := by
  cases ht : entry (mem d (pdx va)) with
  | none => rw [pteAt_none ht, pteAt_none (by rw [dir, ht])]
  | some t => rw [pteAt_some ht, pteAt_some (by rw [dir, ht]), table t ht]

theorem SameSpace.pteAt (same : SameSpace mem mem' d) (va : Word) :
    Mos.pteAt mem' d va = Mos.pteAt mem d va :=
  pteAt_congr (congrFun same.dir _) fun t ht => congrFun (same.tables _ t (pdx_lt va) ht) _

variable [Fintype ε]

/-- The table behind a word of the directory, other than the self-map, is named by it
alone. -/
theorem PmapInv.table_ne (inv : PmapInv dirs pm) (hx : dirs x = some d) {k k' t t' : Nat}
    (hk : k < 509) (hk' : k' < 1024) (other : k' ≠ k) (notSelf : k' ≠ 511)
    (ht : entry (pm.mem d k) = some t) (ht' : entry (pm.mem d k') = some t') : t' ≠ t := by
  rcases Nat.lt_or_ge k' 509 with user | kernel
  · intro same
    subst same
    have eq := (@table_injective _ _ _ _ _ _ ⟨k, hk⟩ inv.excl _ _ ⟨k', user⟩ hx ht hx ht').2
    exact other (congrArg Fin.val eq)
  · obtain ⟨valid, rfl⟩ := entry_eq_some_iff.mp ht'
    intro same
    have bystander := (inv.window x d k' hx kernel hk' notSelf valid).bystander
    exact bystander.untargeted (.pde x ⟨k, hk⟩) ((target_pde hx).trans (same ▸ ht))

/-- A store to the entry for `va` changes no other entry. -/
theorem PmapInv.pteAt_writeWord (inv : PmapInv dirs pm) (hx : dirs x = some d)
    (user : pdx va < 509) (ht : entry (pm.mem d (pdx va)) = some t) (w : Word)
    (notSelf : pdx va' ≠ 511) (other : ¬ SamePage va' va) :
    pteAt (writeWord pm.mem t (ptx va) w) d va' = pteAt pm.mem d va' := by
  have dir : d ≠ t := table_ne_dir (i := ⟨_, user⟩) inv.excl hx ht hx
  apply pteAt_congr
  · rw [writeWord_of_page_ne dir]
  · intro t' ht'
    by_cases same : pdx va' = pdx va
    · rw [same, ht, Option.some.injEq] at ht'
      subst ht'
      exact writeWord_of_index_ne fun h => other ⟨same, h⟩
    · have apart := inv.table_ne hx user (pdx_lt va') same notSelf ht ht'
      rw [writeWord_of_page_ne apart]

/-- A new page table changes no entry: it is empty. -/
theorem PmapInv.pteAt_newTable (inv : PmapInv dirs pm) (hx : dirs x = some d) {rest : List Nat}
    (vacant : entry (pm.mem d (pdx va)) = none)
    (hfree : pm.pageFreeList = p :: rest) (notSelf : pdx va' ≠ 511) :
    pteAt ((pm.take p rest).install d (pdx va) p).mem d va' = pteAt pm.mem d va' := by
  have isFree : p ∈ pm.pageFreeList := by rw [hfree]; exact List.mem_cons_self
  have unnamed := inv.store.free_untargeted p isFree
  have dir : d ≠ p := fun same => unnamed (.dir x) (same ▸ hx)
  have lt := inv.free_lt p isFree
  have new : ((pm.take p rest).install d (pdx va) p).mem p = fun _ => 0 := by
    show writeWord (Function.update pm.mem p fun _ => 0) d _ _ p = _
    rw [writeWord_of_page_ne dir.symm, Function.update_self]
  by_cases same : pdx va' = pdx va
  · have old : pteAt pm.mem d va' = none := pteAt_none (by rw [same, vacant])
    rw [old]
    have named : entry (((pm.take p rest).install d (pdx va) p).mem d (pdx va')) = some p := by
      rw [same]
      show entry (writeWord _ d (pdx va) (page2pa p ||| pteD ||| pteV) d (pdx va)) = _
      rw [writeWord_self]
      exact entry_page2pa (inv.page_lt lt) (by decide)
    have invalid : ¬ (0 : Word).Has pteV := by decide
    rw [pteAt_some named, new, if_neg invalid]
  · have kept : ∀ q, q ≠ p → q ≠ d → ((pm.take p rest).install d (pdx va) p).mem q = pm.mem q := by
      intro q hp hd
      show writeWord (Function.update pm.mem p fun _ => 0) d _ _ q = _
      rw [writeWord_of_page_ne hd, Function.update_of_ne hp]
    apply pteAt_congr
    · show writeWord (Function.update pm.mem p fun _ => 0) d _ _ d _ = _
      rw [writeWord_of_index_ne same, Function.update_of_ne dir]
    · intro t' ht'
      rcases Nat.lt_or_ge (pdx va') 509 with hk | hk
      · have named : target dirs pm.mem (.pde x ⟨_, hk⟩) = some t' := (target_pde hx).trans ht'
        refine congrFun (kept t'
          (fun eq => unnamed (.pde x ⟨_, hk⟩) (named.trans (congrArg some eq))) fun eq => ?_) _
        exact table_ne_dir (i := ⟨_, hk⟩) inv.excl hx ht' hx eq.symm
      · obtain ⟨valid, rfl⟩ := entry_eq_some_iff.mp ht'
        have window := (inv.window x d _ hx hk (pdx_lt va') notSelf valid).bystander
        have notFree : ppn (pm.mem d (pdx va')) ≠ p := fun eq => window.notFree (eq.symm ▸ isFree)
        refine congrFun (kept _ notFree fun eq => ?_) _
        exact window.untargeted (.dir x) (hx.trans (congrArg some eq.symm))

end Entries

section Insert

variable {ε : Type} [Fintype ε] [DecidableEq ε] {dirs : ε → Option Nat} {pm pm' : Pmap} {x : ε}
  {d pp : Nat} {va va' asid perm : Word} {r : Except Err Unit}

omit [DecidableEq ε] in
theorem Prepared.pteAt {s₁ : Pmap} {t : Nat} (prep : Prepared pm d asid va s₁ t)
    (inv : PmapInv dirs pm) (hx : dirs x = some d) (user : pdx va < 509)
    (notSelf : pdx va' ≠ 511) (other : ¬ SamePage va' va) :
    Mos.pteAt s₁.mem d va' = Mos.pteAt pm.mem d va' := by
  cases prep with
  | table ht vacant => rfl
  | newTable vacant hfree =>
      exact (inv.tlbInvalidate asid va).pteAt_newTable hx vacant hfree notSelf
  | removed ht hq => exact inv.pteAt_writeWord hx user ht 0 notSelf other

/-- `page_insert` changes no entry but that for `va`. -/
theorem PmapInv.pteAt_pageInsert (inv : PmapInv dirs pm) (hx : dirs x = some d)
    (user : pdx va < 509) (counted : Counted dirs pm d va)
    (run : Mos.pageInsert pm d asid pp va perm = .ok (pm', r)) (notSelf : pdx va' ≠ 511)
    (other : ¬ SamePage va' va) : pteAt pm'.mem d va' = pteAt pm.mem d va' := by
  rcases inv.pageInsert_cases hx user counted pp asid perm with
    ⟨t, ht, -, run'⟩ | ⟨s₁, t, prep, -, run'⟩ | ⟨-, -, run'⟩
  · rw [run, Except.ok.injEq, Prod.mk.injEq] at run'
    rw [run'.1]
    exact (inv.tlbInvalidate asid va).pteAt_writeWord hx user ht _ notSelf other
  · rw [run, Except.ok.injEq, Prod.mk.injEq] at run'
    obtain ⟨inv₁, -, ht, -⟩ := prep.spec inv hx user counted
    rw [run'.1, ← prep.pteAt inv hx user notSelf other]
    exact inv₁.pteAt_writeWord hx user ht _ notSelf other
  · rw [run, Except.ok.injEq, Prod.mk.injEq] at run'
    rw [run'.1]
    rfl

omit [DecidableEq ε] in
/-- So does `page_remove`. -/
theorem PmapInv.pteAt_pageRemove (inv : PmapInv dirs pm) (hx : dirs x = some d)
    (user : pdx va < 509) (counted : Counted dirs pm d va)
    (run : Mos.pageRemove pm d asid va = .ok pm') (notSelf : pdx va' ≠ 511)
    (other : ¬ SamePage va' va) : pteAt pm'.mem d va' = pteAt pm.mem d va' := by
  have below : va < ulim := lt_ulim_of_pdx_lt user
  cases found : lookup pm.mem d va with
  | none =>
      rw [inv.pageRemove_none hx below found, Except.ok.injEq] at run
      rw [← run]
  | some page =>
      obtain ⟨p, pte⟩ := page
      obtain ⟨t, ht, hp, -⟩ := lookup_eq_some_iff.mp found
      have bound := counted p pte found
      rw [inv.pageRemove_some hx below user ht hp bound, Except.ok.injEq] at run
      rw [← run]
      exact inv.pteAt_writeWord hx user ht 0 notSelf other

end Insert

/-! ## System calls -/

theorem SamePage.legal {va va' : Word} (same : SamePage va' va) (legal : ¬ isIllegalVa va) :
    ¬ isIllegalVa va' := by
  obtain ⟨dir, table⟩ := same
  rw [pdx_eq_div, pdx_eq_div] at dir
  rw [ptx_eq_mod, ptx_eq_mod] at table
  have low : utemp.toNat = 0x3fe000 := by decide
  have high : utop.toNat = 0x7f400000 := by decide
  rw [isIllegalVa, BitVec.lt_def, BitVec.le_def, low, high] at legal ⊢
  omega

/-- The entries that change, of the envs in use before and after, satisfy `P`. The words
of the page directory, seen through the self-map, are no page table entries. -/
def ChangesOnly (s s' : Kernel) (P : EnvIx → Word → Prop) : Prop :=
  ∀ y, y ∉ s.envFreeList → y ∉ s'.envFreeList → ∀ va, pdx va ≠ 511 → ¬ P y va →
    pteAt s'.pm.mem (s'.envs y).envPgdir va = pteAt s.pm.mem (s.envs y).envPgdir va

section Calls

variable {s s' : Kernel} {P Q : EnvIx → Word → Prop} {cur e : EnvIx} {envid va perm : Word}
  {r : Ret}

theorem ChangesOnly.mono (h : ChangesOnly s s' P) (sub : ∀ y va, P y va → Q y va) :
    ChangesOnly s s' Q :=
  fun y hy hy' va notSelf other => h y hy hy' va notSelf fun mem => other (sub y va mem)

theorem ChangesOnly.of_same (pm : s'.pm = s.pm)
    (pgdir : ∀ y, (s'.envs y).envPgdir = (s.envs y).envPgdir) (P : EnvIx → Word → Prop) :
    ChangesOnly s s' P := by
  intro y _ _ va _ _
  rw [pm, pgdir]

theorem ChangesOnly.refl (s : Kernel) (P : EnvIx → Word → Prop) : ChangesOnly s s P :=
  .of_same rfl (fun _ => rfl) P

theorem ChangesOnly.setEnv {f : Env → Env} (P : EnvIx → Word → Prop)
    (h : (f (s.envs e)).envPgdir = (s.envs e).envPgdir) : ChangesOnly s (s.setEnv e f) P :=
  .of_same (show (s.setEnv e f).pm = s.pm from rfl) (Kernel.setEnv_pgdir h) P

theorem ChangesOnly.resumed (resumed : Resumed s s') (P : EnvIx → Word → Prop) :
    ChangesOnly s s' P :=
  .of_same resumed.pm (resumed.field Env.envPgdir fun _ _ _ => rfl) P

/-- What leaves the address spaces of the others alone. -/
theorem ChangesOnly.of_frame {pm : Pmap} (inv : KernelInv s) (frame : Frame s.dirs e noPage s.pm pm)
    (other : ∀ y, y ≠ e → y ∉ s.envFreeList → (s'.envs y).envPgdir = (s.envs y).envPgdir)
    (eq : s'.pm = pm) (gone : e ∈ s.envFreeList ∨ e ∈ s'.envFreeList) (P : EnvIx → Word → Prop) :
    ChangesOnly s s' P := by
  intro y hy hy' va _ _
  have hne : y ≠ e := by
    intro same
    exact gone.elim (fun h => hy (same ▸ h)) fun h => hy' (same ▸ h)
  rw [eq, other y hne hy]
  exact (inv.pm.sameSpace_of_frame frame (Kernel.dirs_of_notMem hy) hne).pteAt va

variable (inv : LiveInv s)

include inv

theorem LiveInv.changes_pageInsert {pp : Nat} {pm : Pmap} {res : Except Err Unit}
    (bounded : Bounded s) (he : e ∉ s.envFreeList) (hva : va < utop)
    (run : pageInsert s.pm (s.envs e).envPgdir (s.envs e).envAsid pp va perm = .ok (pm, res)) :
    ChangesOnly s (s.withPm pm) fun y va' => y = e ∧ SamePage va' va := by
  intro y hy _ va' notSelf other
  have hd := Kernel.dirs_of_notMem he
  have user := pdx_lt_of_lt_utop hva
  have counted : Counted s.dirs s.pm (s.envs e).envPgdir va :=
    fun q _ _ => Nat.lt_succ_of_le (bounded q)
  rcases eq_or_ne y e with rfl | hne
  · exact inv.inv.pm.pteAt_pageInsert hd user counted run notSelf fun same => other ⟨rfl, same⟩
  · exact (inv.inv.pm.sameSpace_pageInsert hd user counted run (Kernel.dirs_of_notMem hy) hne).pteAt
      va'

theorem LiveInv.changes_sysMemAlloc (bounded : Bounded s)
    (h : Mos.sysMemAlloc s envid va perm = .ok (s', r)) :
    ChangesOnly s s' fun _ va' => ¬ isIllegalVa va ∧ SamePage va' va := by
  rcases inv.inv.sysMemAlloc_cases h with
    rfl | ⟨x, p, rest, pm, res, legal, lookup, hfree, run, rfl⟩
  · exact .refl _ _
  · have hx := Kernel.dirs_of_notMem (inv.envid2env lookup)
    obtain ⟨taken, -, -⟩ := inv.inv.pm.take (e := x) hfree
    have user := pdx_lt_of_lt_utop (lt_utop_of_legal legal)
    have counted : Counted s.dirs (s.pm.take p rest) (s.envs x).envPgdir va := by
      intro q _ _
      rw [inv.inv.pm.target_take hfree]
      exact Nat.lt_succ_of_le (bounded q)
    intro y hy _ va' notSelf other
    obtain ⟨z, hz⟩ : ∃ z : EnvIx, y ≠ z := ⟨y + 1, by simp⟩
    obtain ⟨-, frame, -⟩ := inv.inv.pm.take (e := z) hfree
    have hd := Kernel.dirs_of_notMem hy
    have first := (inv.inv.pm.sameSpace_of_frame frame hd hz).pteAt va'
    refine Eq.trans ?_ first
    rcases eq_or_ne y x with rfl | hne
    · exact taken.pteAt_pageInsert hx user counted run notSelf fun same => other ⟨legal, same⟩
    · exact (taken.sameSpace_pageInsert hx user counted run hd hne).pteAt va'

theorem LiveInv.changes_sysMemMap {srcid srcva dstid dstva : Word} (bounded : Bounded s)
    (h : Mos.sysMemMap s srcid srcva dstid dstva perm = .ok (s', r)) :
    ChangesOnly s s' fun _ va' => ¬ isIllegalVa va' := by
  rcases sysMemMap_cases h with
    ⟨rfl, -⟩ | ⟨srcenv, dstenv, pp, pte, pm, res, -, legal, -, lookup, -, run, rfl, -⟩
  · exact .refl _ _
  · exact (inv.changes_pageInsert bounded (inv.envid2env lookup) (lt_utop_of_legal legal)
      run).mono fun y va' mem => mem.2.legal legal

theorem LiveInv.changes_sysMemUnmap (bounded : Bounded s)
    (h : Mos.sysMemUnmap s envid va = .ok (s', r)) :
    ChangesOnly s s' fun _ va' => ¬ isIllegalVa va' := by
  rcases sysMemUnmap_cases h with ⟨rfl, -⟩ | ⟨x, pm, legal, lookup, run, rfl, -⟩
  · exact .refl _ _
  · have inUse := inv.envid2env lookup
    have below := lt_utop_of_legal legal
    obtain ⟨pm', run', step⟩ := inv.inv.pageRemove bounded inUse below (s.envs x).envAsid
    rw [run, Except.ok.injEq] at run'
    subst run'
    intro y hy _ va' notSelf other
    rcases eq_or_ne y x with rfl | hne
    · exact inv.inv.pm.pteAt_pageRemove (Kernel.dirs_of_notMem inUse) (pdx_lt_of_lt_utop below)
        (fun q _ _ => Nat.lt_succ_of_le (bounded q)) run notSelf
        fun same => other (same.legal legal)
    · exact (inv.inv.pm.sameSpace_of_frame step.frame (Kernel.dirs_of_notMem hy) hne).pteAt va'

theorem LiveInv.changes_sysEnvDestroy (bounded : Bounded s)
    (h : Mos.sysEnvDestroy s envid = .ok (s', r)) (P : EnvIx → Word → Prop) :
    ChangesOnly s s' P := by
  rcases sysEnvDestroy_ok h with rfl | ⟨x, lookup, destroyed⟩
  · exact .refl _ P
  · obtain ⟨pm, q, frame, -, next⟩ :=
      inv.inv.envDestroy_cases bounded (inv.envid2env lookup) destroyed
    have other : ∀ y, y ≠ x → (s.reclaim x pm).envs y = s.envs y := fun y hne =>
      Function.update_of_ne hne _ _
    rcases next with ⟨-, resumed⟩ | ⟨-, rfl⟩
    · refine .of_frame inv.inv frame (fun y hne _ => ?_) resumed.pm (.inr ?_) P
      · rw [resumed.field Env.envPgdir fun _ _ _ => rfl]
        exact congrArg Env.envPgdir (other y hne)
      · rw [resumed.free]
        exact List.mem_cons_self
    · exact .of_frame inv.inv frame (fun y hne _ => congrArg Env.envPgdir (other y hne)) rfl
        (.inr List.mem_cons_self) P

theorem LiveInv.changes_envAlloc {parentId : Word} {res : Except Err EnvIx}
    (h : Mos.envAlloc s parentId = .ok (s', res)) (P : EnvIx → Word → Prop) :
    ChangesOnly s s' P := by
  rcases inv.inv.envAlloc_cases parentId with ⟨-, run⟩ | ⟨e, rest, -, -, run⟩ |
    ⟨e, rest, p, pages, hfree, hpages, -, run⟩ | ⟨e, rest, p, pages, i, hfree, hpages, -, run⟩
  all_goals rw [h, Except.ok.injEq, Prod.mk.injEq] at run; obtain ⟨rfl, -⟩ := run
  · exact .refl _ P
  · exact .refl _ P
  · obtain ⟨-, frame, -⟩ := inv.inv.pm.newPgdir (x := e) inv.inv.template hpages
    refine .of_frame inv.inv frame (fun y hne _ => ?_) rfl (.inl ?_) P
    · simp [Kernel.newEnv, Kernel.setupEnv, hne]
    · rw [hfree]
      exact List.mem_cons_self
  · obtain ⟨-, frame, -⟩ := inv.inv.pm.newPgdir (x := e) inv.inv.template hpages
    refine .of_frame inv.inv frame (fun y hne _ => ?_) rfl (.inl ?_) P
    · simp [Kernel.newEnv, Kernel.setupEnv, Kernel.admitEnv, hne]
    · rw [hfree]
      exact List.mem_cons_self

end Calls

section Others

variable {s s' : Kernel} {cur e : EnvIx} {envid va perm : Word} {r : Ret}

theorem changes_sysSetTlbModEntry {func : Word} (h : sysSetTlbModEntry s envid func = .ok (s', r))
    (P : EnvIx → Word → Prop) : ChangesOnly s s' P := by
  rcases sysSetTlbModEntry_ok h with rfl | ⟨x, -, rfl⟩
  · exact .refl _ P
  · exact .setEnv P rfl

theorem changes_sysSetEnvStatus {status : Word} (h : sysSetEnvStatus s envid status = .ok (s', r))
    (P : EnvIx → Word → Prop) : ChangesOnly s s' P := by
  rcases sysSetEnvStatus_ok h with rfl | ⟨new, e, q, -, -, rfl⟩
  · exact .refl _ P
  · refine .of_same ?_ (Kernel.setEnv_pgdir (s := { s with envSchedList := q }) rfl) P
    rfl

theorem changes_sysSetTrapframe {tf : Trapframe}
    (h : sysSetTrapframe s envid va tf = .ok (s', r)) (P : EnvIx → Word → Prop) :
    ChangesOnly s s' P := by
  rcases sysSetTrapframe_ok h with rfl | ⟨x, -, -, ⟨-, rfl, -⟩ | ⟨-, rfl⟩⟩
  · exact .refl _ P
  · exact .of_same rfl (fun _ => rfl) P
  · exact .setEnv P rfl

theorem changes_sysIpcRecv {dstva : Word} (h : sysIpcRecv s dstva = .ok (s', r))
    (P : EnvIx → Word → Prop) : ChangesOnly s s' P := by
  rcases sysIpcRecv_ok h with ⟨-, -, rfl, -⟩ | ⟨-, -, cur, q, -, -, scheduled⟩
  · exact .refl _ P
  · have resumed := (schedule_ok scheduled).1
    have pm : s'.pm = s.pm := resumed.pm
    refine .of_same pm (fun y => ?_) P
    rw [resumed.field Env.envPgdir fun _ _ _ => rfl, Kernel.await_env]
    split <;> rfl

theorem LiveInv.changes_sysExofork (inv : LiveInv s) (h : Mos.sysExofork s = .ok (s', r))
    (P : EnvIx → Word → Prop) : ChangesOnly s s' P := by
  obtain ⟨cur, ⟨err, alloc⟩ | ⟨s₁, e, alloc, rfl⟩⟩ := sysExofork_ok h
  · exact inv.changes_envAlloc alloc P
  · intro y hy hy' va notSelf other
    refine Eq.trans ?_ (inv.changes_envAlloc alloc P y hy hy' va notSelf other)
    exact congrArg (pteAt s₁.pm.mem · va) (Kernel.setEnv_pgdir rfl y)

/-! ## A page for an env that wants none -/

/-- A page is sent to an env that waits with a destination below `UTEMP`, there is memory
for its page table, and it is not there already. -/
def SendsLow (s : Kernel) (envid srcva perm : Word) : Prop :=
  srcva ≠ 0 ∧ ¬ isIllegalVa srcva ∧ ∃ e cur pp pte, envid2env s envid false = .ok (.ok e) ∧
    (s.envs e).envIpcRecving ≠ 0 ∧ s.curenv = some cur ∧
    pageLookup s.pm (s.envs cur).envPgdir srcva = .ok (some (pp, pte)) ∧
    (s.envs e).envIpcDstva < utemp ∧
    (entry (s.pm.mem (s.envs e).envPgdir (pdx (s.envs e).envIpcDstva)) = none →
      s.pm.pageFreeList ≠ []) ∧
    pteAt s.pm.mem (s.envs e).envPgdir (s.envs e).envIpcDstva ≠ some (page2pa pp ||| perm ||| pteV)

/-- The call is not such a send. -/
def SysCall.Windowed (s : Kernel) : SysCall → Prop
  | .ipcTrySend envid _ srcva perm => ¬ SendsLow s envid srcva perm
  | _ => True

theorem pteAt_samePage {mem : Nat → Nat → Word} {d : Nat} {va' : Word} (same : SamePage va' va) :
    pteAt mem d va' = pteAt mem d va := by
  rw [pteAt, pteAt, same.1, same.2]

/-- What is left of a send that delivers its message. -/
theorem ipcTransfer_insert {srcva : Word} {value : Word} (legal : ¬ (srcva ≠ 0 ∧ isIllegalVa srcva))
    (h : ipcTransfer (ipcDeliver s cur e value perm) cur e srcva perm = .ok (s', r)) :
    s' = ipcDeliver s cur e value perm ∨ ∃ pp pte pm res, srcva ≠ 0 ∧ ¬ isIllegalVa srcva ∧
      pageLookup s.pm (s.envs cur).envPgdir srcva = .ok (some (pp, pte)) ∧
      pageInsert s.pm (s.envs e).envPgdir (s.envs e).envAsid pp (s.envs e).envIpcDstva perm =
        .ok (pm, res) ∧ s' = (ipcDeliver s cur e value perm).withPm pm := by
  unfold ipcTransfer at h
  by_cases zero : srcva = 0
  · rw [if_pos zero] at h
    cases h
    exact .inl rfl
  rw [if_neg zero, ipcDeliver_pgdir, ipcDeliver_pgdir, ipcDeliver_asid, ipcDeliver_dstva] at h
  obtain ⟨found, page, h⟩ := bind_eq_ok.mp h
  cases found with
  | none =>
      cases h
      exact .inl rfl
  | some found =>
      obtain ⟨⟨pm, res⟩, insert, h⟩ := bind_eq_ok.mp h
      cases h
      exact .inr ⟨found.1, found.2, pm, res, zero, fun illegal => legal ⟨zero, illegal⟩, page,
        insert, rfl⟩

/-- A send that is not one to a low address changes entries in the window only. -/
theorem LiveInv.changes_sysIpcTrySend (inv : LiveInv s) (bounded : Bounded s) {value srcva : Word}
    (windowed : ¬ SendsLow s envid srcva perm)
    (h : Mos.sysIpcTrySend s envid value srcva perm = .ok (s', r)) :
    ChangesOnly s s' fun _ va' => ¬ isIllegalVa va' := by
  rcases sysIpcTrySend_ok h with ⟨-, -, rfl, -⟩ |
      ⟨e, cur, -, legal, lookup, waits, hcur, sent, -, -⟩
  · exact .refl _ _
  rcases ipcTransfer_insert legal sent with
    rfl | ⟨pp, pte, pm, res, carries, legal', page, insert, rfl⟩
  · have pm : (Mos.ipcDeliver s cur e value perm).pm = s.pm := rfl
    exact .of_same pm ipcDeliver_pgdir _
  have inUse := inv.envid2env lookup
  have below := inv.inv.dstva_lt e
  obtain ⟨sane, -⟩ := inv.addressable inUse below
  intro y hy hy' va' notSelf other
  show pteAt pm.mem ((Mos.ipcDeliver s cur e value perm).envs y).envPgdir va' = _
  rw [ipcDeliver_pgdir]
  have changes := inv.changes_pageInsert bounded inUse below insert y hy hy va' notSelf
  by_cases here : y = e ∧ SamePage va' (s.envs e).envIpcDstva
  · -- The entry for the destination: it stays what it was, or the send was low.
    obtain ⟨rfl, same⟩ := here
    have low : (s.envs y).envIpcDstva < utemp := by
      by_contra notLow
      refine other (same.legal ?_)
      rw [isIllegalVa, not_or]
      exact ⟨notLow, BitVec.not_le.mpr below⟩
    rw [pteAt_samePage same, pteAt_samePage same]
    rcases sane.pageInsert insert with ⟨-, -, same, -⟩ | ⟨room, -, maps⟩
    · rw [same]
      rfl
    · rw [maps.pteAt (entry_valid _ _)]
      by_contra changed
      exact windowed ⟨carries, legal', y, cur, pp, pte, lookup, waits, hcur, page, low, room,
        fun before => changed before.symm⟩
  · exact changes here

/-- A low send changes the entry for the destination. -/
theorem LiveInv.sendsLow_changes (inv : LiveInv s) (bounded : Bounded s) {srcva : Word}
    (low : SendsLow s envid srcva perm) (value : Word) :
    ∃ s', Mos.sysIpcTrySend s envid value srcva perm = .ok (s', .ok 0) ∧
      ¬ ChangesOnly s s' fun _ va' => ¬ isIllegalVa va' := by
  obtain ⟨carries, legal, e, cur, pp, pte, lookup, waits, hcur, page, small, room, before⟩ := low
  have inUse := inv.envid2env lookup
  have below := inv.inv.dstva_lt e
  obtain ⟨sane, -⟩ := inv.addressable inUse below
  have inserted : ∃ pm res, pageInsert s.pm (s.envs e).envPgdir (s.envs e).envAsid pp
      (s.envs e).envIpcDstva perm = .ok (pm, res) := by
    rcases inv.inv.pm.pageInsert_cases (Kernel.dirs_of_notMem inUse) (pdx_lt_of_lt_utop below)
      (fun q _ _ => Nat.lt_succ_of_le (bounded q)) pp (s.envs e).envAsid perm with
      ⟨t, -, -, run⟩ | ⟨pm₁, t, -, -, run⟩ | ⟨-, -, run⟩
    all_goals exact ⟨_, _, run⟩
  obtain ⟨pm, res, insert⟩ := inserted
  have current : s.current = .ok cur := by rw [Kernel.current, hcur]
  have transfer : ipcTransfer (Mos.ipcDeliver s cur e value perm) cur e srcva perm =
      .ok ((Mos.ipcDeliver s cur e value perm).withPm pm, .ok 0) := by
    unfold ipcTransfer
    rw [if_neg carries, ipcDeliver_pgdir, ipcDeliver_pgdir, ipcDeliver_asid, ipcDeliver_dstva]
    simp only [show (Mos.ipcDeliver s cur e value perm).pm = s.pm from rfl, page, insert, Bind.bind,
      Except.bind]
  refine ⟨(Mos.ipcDeliver s cur e value perm).withPm pm, ?_, fun changes => ?_⟩
  · simp only [Mos.sysIpcTrySend, if_neg (not_and_of_not_right _ legal), lookup, tryRet,
      if_neg waits, current, Bind.bind, Except.bind, transfer]
  · have notSelf : pdx (s.envs e).envIpcDstva ≠ 511 :=
      Nat.ne_of_lt (Nat.lt_of_lt_of_le (pdx_lt_of_lt_utop below) (by decide))
    have kept := changes e inUse inUse _ notSelf fun legal => legal (.inl small)
    change pteAt pm.mem ((Mos.ipcDeliver s cur e value perm).envs e).envPgdir _ = _ at kept
    rw [ipcDeliver_pgdir] at kept
    rcases sane.pageInsert insert with ⟨vacant, full, -⟩ | ⟨-, -, maps⟩
    · exact room vacant full
    · rw [maps.pteAt (entry_valid _ _)] at kept
      exact before kept.symm

/-- A call that acts on envs or their memory changes entries in `[UTEMP, UTOP)` only, exactly
when it is no send to a low address. -/
theorem LiveInv.windowed_iff (inv : LiveInv s) (bounded : Bounded s) {call : SysCall} :
    (∀ s' r, call.exec s = .ok (s', r) → ChangesOnly s s' fun _ va => ¬ isIllegalVa va) ↔
      call.Windowed s := by
  constructor
  · intro h
    cases call with
    | ipcTrySend envid value srcva perm =>
        intro low
        obtain ⟨s', sent, changes⟩ := inv.sendsLow_changes bounded low value
        exact changes (h s' _ sent)
    | env | yield | exofork | ipcRecv => trivial
  · intro windowed s' r h
    cases call with
    | env call =>
        cases call with
        | envDestroy envid => exact inv.changes_sysEnvDestroy bounded h _
        | setTlbModEntry envid func => exact changes_sysSetTlbModEntry h _
        | memAlloc envid va perm => exact
            (inv.changes_sysMemAlloc bounded h).mono fun _ _ mem => mem.2.legal mem.1
        | memMap srcid srcva dstid dstva perm => exact inv.changes_sysMemMap bounded h
        | memUnmap envid va => exact inv.changes_sysMemUnmap bounded h
        | setEnvStatus envid status => exact changes_sysSetEnvStatus h _
        | setTrapframe envid va tf => exact changes_sysSetTrapframe h _
    | yield =>
        obtain ⟨s₁, run, eq⟩ := map_eq_ok.mp h
        cases eq
        exact .resumed (schedule_ok run).1 _
    | exofork => exact inv.changes_sysExofork h _
    | ipcRecv dstva => exact changes_sysIpcRecv h _
    | ipcTrySend envid value srcva perm => exact inv.changes_sysIpcTrySend bounded windowed h

end Others

/-! ## The first page of an address space -/

theorem Maps.pageLookup {pm : Pmap} {d pp : Nat} {va perm : Word}
    (maps : Maps pm d va (page2pa pp ||| perm ||| pteV)) (lt : pp < pm.npage)
    (npage_le : pm.npage ≤ 2 ^ 20) (flags : perm < 0x1000#32) :
    ∃ pte, Mos.pageLookup pm d va = .ok (some (pp, pte)) := by
  obtain ⟨t, ht, htlt, word⟩ := maps
  have walk : pgdirWalk pm d va false = _ := pgdirWalk_some ht htlt
  have here : pm.word (t, ptx va) = page2pa pp ||| perm ||| pteV := word
  have page : pm.pa2page (page2pa pp ||| perm ||| pteV) = .ok pp := by
    rw [Pmap.pa2page, ppn_entry (Nat.lt_of_lt_of_le lt npage_le) flags, if_pos lt]
  refine ⟨(t, ptx va), ?_⟩
  simp only [Mos.pageLookup, walk, Bind.bind, Except.bind, here, if_pos (entry_valid _ _), page]

/-- With two pages left, `sys_mem_alloc` at an address without a page table takes both. -/
theorem LiveInv.sysMemAlloc_vacant {s : Kernel} {e : EnvIx} {envid va perm : Word} {p q : Nat}
    {rest : List Nat} (inv : LiveInv s) (bounded : Bounded s) (legal : ¬ isIllegalVa va)
    (lookup : Mos.envid2env s envid true = .ok (.ok e))
    (hfree : s.pm.pageFreeList = p :: q :: rest)
    (vacant : entry (s.pm.mem (s.envs e).envPgdir (pdx va)) = none) (flags : perm < 0x1000#32) :
    ∃ pm pte, Mos.sysMemAlloc s envid va perm = .ok (s.withPm pm, .ok 0) ∧
      Mos.pageLookup pm (s.envs e).envPgdir va = .ok (some (p, pte)) ∧ pm.pageFreeList = rest ∧
      Bounded (s.withPm pm) := by
  have inUse := inv.envid2env lookup
  have hd := Kernel.dirs_of_notMem inUse
  have below := lt_utop_of_legal legal
  have user := pdx_lt_of_lt_utop below
  obtain ⟨taken, -, fresh⟩ := inv.inv.pm.take (e := e) hfree
  have isFree : p ∈ s.pm.pageFreeList := by rw [hfree]; exact List.mem_cons_self
  have dirFree : (s.envs e).envPgdir ≠ p := fun same =>
    inv.inv.pm.store.free_untargeted p isFree (.dir e) (hd.trans (congrArg some same))
  have counts : ∀ x, refs (target s.dirs (s.pm.take p (q :: rest)).mem) x < 2 ^ 16 := by
    intro x
    rw [inv.inv.pm.target_take hfree]
    exact Nat.lt_succ_of_le (bounded x)
  have vacant' : entry ((s.pm.take p (q :: rest)).mem (s.envs e).envPgdir (pdx va)) = none := by
    show entry (Function.update s.pm.mem p (fun _ => 0) (s.envs e).envPgdir (pdx va)) = none
    rw [Function.update_of_ne dirFree, vacant]
  rcases taken.pageInsert_cases hd user (fun x _ _ => counts x) p (s.envs e).envAsid perm with
    ⟨t, ht, -⟩ | ⟨pm₁, t, prep, -, run⟩ | ⟨-, empty, -⟩
  · rw [vacant'] at ht
    cases ht
  · obtain ⟨-, frame, ht, -⟩ := prep.spec taken hd user fun x _ _ => counts x
    have maps : Maps (pm₁.mapPage t (ptx va) p perm) (s.envs e).envPgdir va
        (page2pa p ||| perm ||| pteV) := by
      obtain ⟨inv₁, -⟩ := prep.spec taken hd user fun x _ _ => counts x
      refine ⟨t, ?_, inv₁.target_lt (.pde e ⟨_, user⟩) t ((target_pde hd).trans ht),
        writeWord_self ..⟩
      show entry (writeWord pm₁.mem t (ptx va) _ _ _) = some t
      rw [writeWord_of_page_ne (table_ne_dir (i := ⟨_, user⟩) inv₁.excl hd ht hd)]
      exact ht
    have lt : p < (pm₁.mapPage t (ptx va) p perm).npage := by
      show p < pm₁.npage
      rw [frame.npage]
      exact fresh.lt
    have small : (pm₁.mapPage t (ptx va) p perm).npage ≤ 2 ^ 20 := by
      show pm₁.npage ≤ 2 ^ 20
      rw [frame.npage]
      exact taken.npage_le
    obtain ⟨pte, found⟩ := maps.pageLookup lt small flags
    refine ⟨_, pte, ?_, found, ?_, ?_⟩
    · simp only [Mos.sysMemAlloc, if_neg legal, lookup, inv.inv.pm.pageAlloc_cons hfree, tryRet,
        run, Bind.bind, Except.bind]
      rfl
    · cases prep with
      | table ht' => rw [vacant'] at ht'; cases ht'
      | newTable _ left => exact (List.cons.inj left).2.symm
      | removed ht' => rw [vacant'] at ht'; cases ht'
    · intro x
      have most := taken.refs_pageInsert counts hd user flags fresh.toBystander fresh.lt x run
      have old := bounded x
      rw [← inv.inv.pm.target_take hfree] at old
      exact most.trans (max_le old (by decide))
  · cases (show q :: rest = [] from empty)

/-- The first env of `smallBoot` has a page, and the second waits for a message without one. -/
theorem offering_run : ∃ s₀ s ops pte, envInit smallBoot = .ok s₀ ∧ Run kernelStep s₀ ops s ∧
    s.curenv = some 0 ∧ envid2env s 4097 false = .ok (.ok 1) ∧ (s.envs 1).envIpcRecving ≠ 0 ∧
    (s.envs 1).envIpcDstva = 0 ∧
    pageLookup s.pm (s.envs 0).envPgdir 0x400000 = .ok (some (330, pte)) ∧
    s.pm.pageFreeList ≠ [] ∧ pteAt s.pm.mem (s.envs 1).envPgdir 0 = none := by
  obtain ⟨s₀, s, boot, run, hcur, lookup, waits, vacant, dstva, left, low⟩ := waiting_run
  obtain ⟨inv, bounded⟩ := kernelRun_inv boot run
  have self : envid2env s 0 true = .ok (.ok 0) := by
    simp [envid2env, Kernel.current, hcur, Bind.bind, Except.bind]
  have free : s.pm.pageFreeList = 330 :: 329 :: (List.range' 313 16).reverse := by
    rw [left]
    decide
  have flags : pteD < 0x1000#32 := by decide
  have legal : ¬ isIllegalVa 0x400000 := by decide
  obtain ⟨pm, pte, alloc, found, rest, bounded'⟩ :=
    inv.sysMemAlloc_vacant bounded legal self free vacant flags
  have step : kernelStep s (.sys (.env (.memAlloc 0 0x400000 pteD))) (s.withPm pm) :=
    ⟨⟨⟨_, hcur⟩, flags⟩, ⟨_, alloc⟩, bounded'⟩
  have inUse := inv.envid2env lookup
  have kept := inv.changes_sysMemAlloc bounded alloc 1 inUse inUse 0 (by decide)
    fun same => absurd same.2.1 (by decide)
  refine ⟨s₀, s.withPm pm, _, pte, boot, run.snoc step, hcur, lookup, waits, dstva, found, ?_,
    kept.trans (pteAt_none low)⟩
  rw [show (s.withPm pm).pm.pageFreeList = _ from rest]
  decide

/-- The page is sent, and mapped at address 0 of the env that wants none. -/
theorem offering_send : ∃ s₀ s s' ops pte, envInit smallBoot = .ok s₀ ∧ Run kernelStep s₀ ops s ∧
    s.curenv = some 0 ∧ envid2env s 4097 false = .ok (.ok 1) ∧ s.pm.pageFreeList ≠ [] ∧
    pageLookup s.pm (s.envs 0).envPgdir 0x400000 = .ok (some (330, pte)) ∧
    sysIpcTrySend s 4097 7 0x400000 pteD = .ok (s', .ok 0) ∧
    ¬ ChangesOnly s s' fun _ va => ¬ isIllegalVa va := by
  obtain ⟨s₀, s, ops, pte, boot, run, hcur, lookup, waits, dstva, page, left, empty⟩ := offering_run
  obtain ⟨inv, bounded⟩ := kernelRun_inv boot run
  have low : SendsLow s 4097 0x400000 pteD := by
    refine ⟨by decide, by decide, 1, 0, 330, pte, lookup, waits, hcur, page, ?_, fun _ => left, ?_⟩
    · rw [dstva]
      decide
    · rw [dstva, empty]
      exact (Option.some_ne_none _).symm
  obtain ⟨s', sent, changes⟩ := inv.sendsLow_changes bounded low 7
  exact ⟨s₀, s, s', ops, pte, boot, run, hcur, lookup, left, page, sent, changes⟩

theorem user_window_not : ¬ ∀ (b : Boot) (s₀ s s' : Kernel) (ops : List KernelOp) (call : SysCall)
    (r : Ret), envInit b = .ok s₀ → Run kernelStep s₀ ops s → call.exec s = .ok (s', r) →
      ChangesOnly s s' fun _ va => ¬ isIllegalVa va := by
  intro always
  obtain ⟨s₀, s, s', ops, pte, boot, run, -, -, -, -, sent, changes⟩ := offering_send
  exact changes (always _ _ _ _ _ (.ipcTrySend 4097 7 0x400000 pteD) _ boot run sent)

/-- A message with a page means that one has arrived. -/
theorem send_means_iff_page : ∃ s s', sysIpcTrySend s 4097 7 0x400000 pteD = .ok (s', .ok 0) ∧
    SendMeans s s' 0 1 0x400000 pteD := by
  obtain ⟨s₀, s, s', ops, pte, boot, run, hcur, lookup, left, page, sent, -⟩ := offering_send
  obtain ⟨inv, -⟩ := kernelRun_inv boot run
  obtain ⟨sane, -⟩ := inv.addressable (inv.envid2env lookup) (inv.inv.dstva_lt 1)
  refine ⟨s, s', sent, (send_means_iff lookup hcur sane sent).mpr ⟨by decide, ?_, fun _ => left⟩⟩
  intro pp pte' found
  rw [page] at found
  cases found
  decide

end Mos
