import Mos.Destroy
import Mos.UserMode
import Mos.UserWindow

/-!
# Copy on write

`duppage` and `cow_entry` of `user/lib/fork.c`, as the system calls they make. Both
take the permission of a page from the page table that they see at `UVPT`.

`cow_entry` clears `PTE_COW` with `!` where `~` is meant: what is left of the
permission is `PTE_D` alone. A page comes back as it was before the fork exactly when it
had no other flag than `PTE_V` and `PTE_D` (`cow_restores_perm_iff`).
-/

namespace Mos

/-- `!` on a word. -/
def Word.lnot (w : Word) : Word := if w = 0 then 1 else 0

/-- `VPN` -/
def vpnWord (va : Word) : Word := va >>> 12

/-- The word at `va`, as the running env reads it, if a page is mapped there. -/
def Kernel.userWord (s : Kernel) (va : Word) : Except Panic (Option Word) := do
  let cur ← s.current
  match ← pageLookup s.pm (s.envs cur).envPgdir va with
  | none => .ok none
  | some (pp, _) => .ok (some (s.pm.mem pp ((va &&& 0xfff) >>> 2).toNat))

/-- `vpt[vpn]` -/
def Kernel.vpt (s : Kernel) (vpn : Word) : Except Panic (Option Word) :=
  s.userWord (uvpt + 4 * vpn)

/-- The contents of page `src` copied to page `dst`. -/
def Pmap.copyPage (pm : Pmap) (dst src : Nat) : Pmap :=
  { pm with mem := Function.update pm.mem dst (pm.mem src) }

/-- `memcpy(dst, src, BY2PG)` by the running env, if both pages are mapped. -/
def Kernel.userCopyPage (s : Kernel) (dst src : Word) : Except Panic (Option Kernel) := do
  let cur ← s.current
  match ← pageLookup s.pm (s.envs cur).envPgdir dst,
    ← pageLookup s.pm (s.envs cur).envPgdir src with
  | some (q, _), some (p, _) => .ok (some (s.withPm (s.pm.copyPage q p)))
  | _, _ => .ok none

/-- `duppage`, with what its system calls return; it ignores that itself. There is no
result if the page table entry cannot be read. -/
def duppage (s : Kernel) (envid vpn : Word) : Except Panic (Option (Kernel × List Ret)) := do
  let addr := vpn * by2pg
  match ← s.vpt vpn with
  | none => .ok none
  | some pte => do
      let perm := pte &&& 0xfff
      if ¬ perm.Has pteD ∨ perm.Has pteLibrary then do
        let (s, r) ← sysMemMap s 0 addr envid addr perm
        .ok (some (s, [r]))
      else do
        let perm := (perm &&& ~~~pteD) ||| pteCow
        let (s, r) ← sysMemMap s 0 addr envid addr perm
        let (s, r') ← sysMemMap s 0 addr 0 addr perm
        .ok (some (s, [r, r']))

/-- `cow_entry`, where `tf` is the trap frame that the kernel left at `tfVa`, with what
the memory calls return. There is no result if the handler panics or cannot
read or write what it should. -/
def cowEntry (s : Kernel) (tfVa : Word) (tf : Trapframe) :
    Except Panic (Option (Kernel × List Ret)) := do
  let va := pteAddr tf.cp0Badvaddr
  match ← s.vpt (vpnWord va) with
  | none => .ok none
  | some pte =>
      let perm := pte &&& 0xfff
      if ¬ perm.Has pteCow then .ok none
      else do
        let perm := (perm &&& pteCow.lnot) ||| pteD
        let (s, r₁) ← sysMemAlloc s 0 ucow (pteD ||| pteV)
        match ← s.userCopyPage ucow va with
        | none => .ok none
        | some s => do
            let (s, r₂) ← sysMemMap s 0 ucow 0 va perm
            let (s, r₃) ← sysMemUnmap s 0 ucow
            match ← sysSetTrapframe s 0 tfVa tf with
            | (_, .error _) => .ok none
            | (s, .ok _) => .ok (some (s, [r₁, r₂, r₃]))

instance (va va' : Word) : Decidable (SamePage va va') := inferInstanceAs (Decidable (_ ∧ _))

/-- The flags of the page at `va` in the address space of `e`. -/
def Kernel.permAt (s : Kernel) (e : EnvIx) (va : Word) : Option Word :=
  (pteAt s.pm.mem (s.envs e).envPgdir va).map (· &&& 0xfff#32)

section Entries

variable {ε : Type} [Fintype ε] {dirs : ε → Option Nat} {pm pm' : Pmap} {x : ε} {r : Ref ε}
  {d t pp p q : Nat} {va va' asid perm w : Word}

theorem pteAt_eq_some_iff {mem : Nat → Nat → Word} : pteAt mem d va = some w ↔
    ∃ t, entry (mem d (pdx va)) = some t ∧ mem t (ptx va) = w ∧ w.Has pteV := by
  cases ht : entry (mem d (pdx va)) with
  | none => simp [pteAt_none ht]
  | some t =>
      rw [pteAt_some ht]
      constructor
      · intro h
        split at h
        · cases h
          exact ⟨t, rfl, rfl, by assumption⟩
        · cases h
      · rintro ⟨t', ht', rfl, valid⟩
        cases ht'
        rw [if_pos valid]

/-- A page that some entry maps can be written to. -/
theorem PmapInv.writePage (inv : PmapInv dirs pm) (leaf : ¬ r.IsTable)
    (mapped : target dirs pm.mem r = some p) (contents : Nat → Word) :
    PmapInv dirs { pm with mem := Function.update pm.mem p contents } ∧
      Frame dirs x noPage pm { pm with mem := Function.update pm.mem p contents } := by
  have noTable : ∀ r' : Ref ε, r'.IsTable → target dirs pm.mem r' ≠ some p := by
    intro r' table named
    have same := inv.excl r' r p table named mapped
    exact leaf (same ▸ table)
  have same : target dirs (Function.update pm.mem p contents) = target dirs pm.mem :=
    target_writePage noTable contents
  have directory : ∀ e d, dirs e = some d → Function.update pm.mem p contents d = pm.mem d := by
    intro e d he
    apply Function.update_of_ne
    rintro rfl
    exact noTable (.dir e) trivial he
  have frame : Frame dirs x noPage pm { pm with mem := Function.update pm.mem p contents } := by
    refine Frame.of_subset rfl (fun q hq => .inl hq)
      (fun r q hr => .inr (.inr ⟨r, (congrFun same r).symm.trans hr⟩)) (fun q hq _ => ⟨?_, rfl⟩)
      (fun e' d k he _ => congrFun (directory e' d he) k)
      fun e' d he _ => ⟨directory e' d he, fun i t ht => ?_⟩
    · apply Function.update_of_ne
      rintro rfl
      exact hq.untargeted r mapped
    · apply Function.update_of_ne
      rintro rfl
      exact noTable (.pde e' i) trivial ((target_pde he).trans ht)
  refine ⟨inv.of_frame frame (fun q hq => hq.elim) ?_ (inv.tablesWritable.of_eq directory)
    inv.free_lt (fun r q hr => inv.target_lt r q ((congrFun same r).symm.trans hr)), frame⟩
  have eq : ({ pm with mem := Function.update pm.mem p contents } : Pmap).store dirs =
      pm.store dirs := by
    simp only [Pmap.store, same]
  rw [eq]
  exact inv.store

/-- Writing to a page that some entry maps changes no entry. -/
theorem PmapInv.pteAt_writePage (inv : PmapInv dirs pm) (hx : dirs x = some d) (leaf : ¬ r.IsTable)
    (mapped : target dirs pm.mem r = some p) (contents : Nat → Word) (user : pdx va < 509) :
    pteAt (Function.update pm.mem p contents) d va = pteAt pm.mem d va := by
  have noTable : ∀ r' : Ref ε, r'.IsTable → target dirs pm.mem r' ≠ some p := by
    intro r' table named
    have same := inv.excl r' r p table named mapped
    exact leaf (same ▸ table)
  apply pteAt_congr
  · rw [Function.update_of_ne]
    rintro rfl
    exact noTable (.dir x) trivial hx
  · intro t ht
    rw [Function.update_of_ne]
    rintro rfl
    exact noTable (.pde x ⟨_, user⟩) trivial ((target_pde hx).trans ht)

end Entries

section Removal

variable {ε : Type} [Fintype ε] {dirs : ε → Option Nat} {pm pm' : Pmap} {x : ε} {d t : Nat}
  {va va' asid : Word}

/-- `page_remove` leaves an invalid entry. -/
theorem PmapInv.pageRemove_word (inv : PmapInv dirs pm) (hx : dirs x = some d) (below : va < ulim)
    (ht : entry (pm.mem d (pdx va)) = some t) (run : Mos.pageRemove pm d asid va = .ok pm') :
    ∃ w : Word, ¬ w.Has pteV ∧ pm'.mem = writeWord pm.mem t (ptx va) w := by
  obtain ⟨found, lookup, run⟩ := bind_eq_ok.mp run
  rw [pageLookup_eq (inv.inMemory hx below), Except.ok.injEq] at lookup
  subst lookup
  cases hp : entry (pm.mem t (ptx va)) with
  | none =>
      rw [lookup_eq_none ht hp] at run
      cases run
      exact ⟨pm.mem t (ptx va), entry_eq_none_iff.mp hp, by simp [writeWord]⟩
  | some p =>
      rw [lookup_eq_some ht hp] at run
      obtain ⟨pm₁, decref, run⟩ := bind_eq_ok.mp run
      cases run
      obtain ⟨mem, -⟩ := pageDecref_ok decref
      refine ⟨0, by decide, ?_⟩
      show writeWord pm₁.mem t (ptx va) 0 = _
      rw [mem]

/-- The page at `va` is unmapped, and no other one. -/
theorem PmapInv.pteAt_removed (inv : PmapInv dirs pm) (hx : dirs x = some d)
    (user : pdx va < 509) (run : Mos.pageRemove pm d asid va = .ok pm') (notSelf : pdx va' ≠ 511) :
    (SamePage va' va → pteAt pm'.mem d va' = none) ∧
      (¬ SamePage va' va → pteAt pm'.mem d va' = pteAt pm.mem d va') := by
  have below : va < ulim := lt_ulim_of_pdx_lt user
  cases ht : entry (pm.mem d (pdx va)) with
  | none =>
      have nothing : lookup pm.mem d va = none := by rw [lookup, ht]; rfl
      obtain ⟨found, look, run⟩ := bind_eq_ok.mp run
      rw [pageLookup_eq (inv.inMemory hx below), nothing, Except.ok.injEq] at look
      subst look
      cases run
      refine ⟨fun same => ?_, fun _ => rfl⟩
      rw [pteAt_none]
      rw [same.1, ht]
  | some t =>
      obtain ⟨w, invalid, mem⟩ := inv.pageRemove_word hx below ht run
      rw [mem]
      refine ⟨fun same => ?_, inv.pteAt_writeWord hx user ht w notSelf⟩
      have dir : d ≠ t := table_ne_dir (i := ⟨_, user⟩) inv.excl hx ht hx
      have table : entry (writeWord pm.mem t (ptx va) w d (pdx va')) = some t := by
        rw [writeWord_of_page_ne dir, same.1, ht]
      rw [pteAt_some table, same.2, writeWord_self, if_neg invalid]

end Removal

/-! ## The permission of a copy -/

theorem dup_flags (pte : Word) : (pte &&& 0xfff &&& ~~~pteD) ||| pteCow < 0x1000#32 := by
  have below : (pte &&& 0xfff &&& ~~~pteD).toNat < 2 ^ 12 := by
    rw [BitVec.toNat_and, BitVec.toNat_and]
    exact Nat.lt_of_le_of_lt (Nat.and_le_left.trans Nat.and_le_right) (by decide)
  rw [BitVec.lt_def, BitVec.toNat_or]
  exact Nat.or_lt_two_pow below (by decide)

/-- Nothing but `PTE_D` is left of the permission that `cow_entry` reads. -/
theorem cow_perm (pte : Word) : (pte &&& 0xfff &&& pteCow.lnot) ||| pteD = pteD := by
  have none_left : pteCow.lnot = 0#32 := rfl
  rw [none_left, BitVec.and_zero, BitVec.zero_or]

/-- The entry of a copy has the flags that `duppage` asks for: `PTE_V` is among them. -/
theorem dup_perm_valid {pte : Word} (valid : pte.Has pteV) :
    ((pte &&& 0xfff &&& ~~~pteD) ||| pteCow ||| pteV) &&& 0xfff#32 =
      (pte &&& 0xfff &&& ~~~pteD) ||| pteCow := by
  have bit : pte &&& pteV = pteV := by
    have cases' : pte &&& pteV = if pte.getLsbD 9 then pteV else 0#32 :=
      BitVec.and_twoPow pte 9
    by_cases set : pte.getLsbD 9
    · rw [cases', if_pos set]
    · exact (valid (by rw [cases', if_neg set]; rfl)).elim
  have kept : (pte &&& 0xfff &&& ~~~pteD) ||| pteV = pte &&& 0xfff &&& ~~~pteD := by
    have inside : pteV = pte &&& (0xfff &&& ~~~pteD &&& pteV) := bit.symm
    rw [inside, BitVec.and_assoc, ← BitVec.and_or_distrib_left]
    rfl
  have low : (pte &&& 0xfff &&& ~~~pteD) &&& 0xfff#32 = pte &&& 0xfff &&& ~~~pteD := by
    have mask : (0xfff : Word) &&& (~~~pteD &&& 0xfff#32) = 0xfff &&& ~~~pteD := rfl
    rw [BitVec.and_assoc, BitVec.and_assoc, mask, BitVec.and_assoc]
  rw [BitVec.or_assoc, BitVec.or_comm pteCow, ← BitVec.or_assoc, kept,
    BitVec.and_or_distrib_right, low]
  rfl

/-! ## Calls of the running env -/

section Calls

variable {s s' : Kernel} {cur e : EnvIx} {va srcva dstva dstid perm vpn w : Word}

/-- Looking up envid 0 finds the running env. -/
theorem envid2env_self (hcur : s.curenv = some cur) : envid2env s 0 true = .ok (.ok cur) := by
  simp [envid2env, Kernel.current, hcur, Bind.bind, Except.bind]

theorem pdx_ne_selfMap (below : va < utop) : pdx va ≠ 511 :=
  Nat.ne_of_lt (Nat.lt_of_lt_of_le (pdx_lt_of_lt_utop below) (by decide))

/-- A process that sets its own trap frame keeps its page table. -/
theorem sysSetTrapframe_permAt {tfVa : Word} {tf : Trapframe} {r : Ret} (hcur : s.curenv = some cur)
    (h : sysSetTrapframe s 0 tfVa tf = .ok (s', r)) : s'.permAt e va = s.permAt e va := by
  rcases sysSetTrapframe_ok h with rfl | ⟨x, -, self, ⟨-, rfl, -⟩ | ⟨other, -⟩⟩
  · rfl
  · rfl
  · rw [envid2env_self hcur, Except.ok.injEq, Except.ok.injEq] at self
    exact absurd (self ▸ hcur) other

variable (inv : LiveInv s)

include inv

/-- The window at `UVPT` shows the page tables. -/
theorem LiveInv.vpt_eq (hcur : s.curenv = some cur) (below : va < utop)
    (page : pteAt s.pm.mem (s.envs cur).envPgdir va = some w) :
    s.vpt (vpnWord va) = .ok (some w) := by
  obtain ⟨t, ht, word, -⟩ := pteAt_eq_some_iff.mp page
  have hd := Kernel.dirs_of_notMem (inv.current cur hcur).1
  have small := below
  rw [BitVec.lt_def, utop_toNat] at small
  have addr : (uvpt + 4 * vpnWord va).toNat = 0x7fc00000 + 4 * (va.toNat / 4096) := by
    have shift : (vpnWord va).toNat = va.toNat / 4096 := by
      rw [vpnWord, BitVec.toNat_ushiftRight, Nat.shiftRight_eq_div_pow]
    have four : (4 : Word).toNat = 4 := rfl
    rw [BitVec.toNat_add, BitVec.toNat_mul, uvpt_toNat, shift, four]
    omega
  have dir : pdx (uvpt + 4 * vpnWord va) = 511 := by
    rw [pdx_eq_div, addr]
    omega
  have table : ptx (uvpt + 4 * vpnWord va) = pdx va := by
    rw [ptx_eq_mod, addr, pdx_eq_div]
    omega
  have index : (((uvpt + 4 * vpnWord va) &&& 0xfff) >>> 2).toNat = ptx va := by
    have mask : (0xfff : Word).toNat = 2 ^ 12 - 1 := by decide
    rw [BitVec.toNat_ushiftRight, BitVec.toNat_and, mask, Nat.and_two_pow_sub_one_eq_mod, addr,
      Nat.shiftRight_eq_div_pow, ptx_eq_mod]
    omega
  have inside : uvpt + 4 * vpnWord va < ulim := by
    rw [BitVec.lt_def, addr, ulim_toNat]
    omega
  have selfMap : entry (s.pm.mem (s.envs cur).envPgdir 511) = some (s.envs cur).envPgdir := by
    rw [inv.inv.pm.selfMap cur _ hd, entry_selfMap (inv.inv.pm.page_lt (inv.inv.pm.target_lt
      (.dir cur) _ hd))]
  have found : lookup s.pm.mem (s.envs cur).envPgdir (uvpt + 4 * vpnWord va) =
      some (t, ((s.envs cur).envPgdir, pdx va)) := by
    rw [lookup_eq_some (by rw [dir]; exact selfMap) (by rw [table]; exact ht), table]
  have current : s.current = .ok cur := by rw [Kernel.current, hcur]
  simp only [Kernel.vpt, Kernel.userWord, current, Bind.bind, Except.bind,
    pageLookup_eq (inv.inv.pm.inMemory hd inside), found, index, word]

/-- What `sys_mem_map` does when it returns 0. -/
theorem LiveInv.sysMemMap_entry (bounded : Bounded s) (flags : perm < 0x1000#32)
    (hcur : s.curenv = some cur) (h : Mos.sysMemMap s 0 srcva dstid dstva perm = .ok (s', .ok 0)) :
    ∃ x pp, Mos.envid2env s dstid true = .ok (.ok x) ∧ dstva < utop ∧ LiveInv s' ∧
      (∃ pm, s' = s.withPm pm) ∧
      (∃ pte, Mos.pageLookup s.pm (s.envs cur).envPgdir srcva = .ok (some (pp, pte))) ∧
      pteAt s'.pm.mem (s'.envs x).envPgdir dstva = some (page2pa pp ||| perm ||| pteV) ∧
      ChangesOnly s s' fun y va' => y = x ∧ SamePage va' dstva := by
  have inUse := (inv.current cur hcur).1
  obtain ⟨y, pm, r, run, step⟩ := @KernelInv.sysMemMap s cur 0 dstid srcva dstva perm inv.inv
    bounded hcur inUse flags
  rw [run] at h
  cases h
  rcases sysMemMap_cases run with ⟨-, err, failed⟩ |
    ⟨src, x, pp, pte, pm', res, -, legal, self, named, look, insert, same, returned⟩
  · cases failed
  · rw [envid2env_self hcur, Except.ok.injEq, Except.ok.injEq] at self
    subst self
    have inUse' := inv.envid2env named
    have below := lt_utop_of_legal legal
    have same' : pm' = pm := congrArg Kernel.pm same.symm
    subst same'
    cases zeroRet_ok returned.symm
    rcases (inv.addressable inUse' below).1.pageInsert insert with
      ⟨-, -, -, failed⟩ | ⟨-, -, maps⟩
    · cases failed
    · exact ⟨x, pp, named, below, inv.memStep step, ⟨_, rfl⟩, ⟨_, look⟩,
        maps.pteAt (entry_valid _ _), inv.changes_pageInsert bounded inUse' below insert⟩

/-- Mapping a page where it is mapped already rewrites its entry, however many
references there are to it. -/
theorem LiveInv.sysMemMap_again (hcur : s.curenv = some cur)
    (h : Mos.sysMemMap s 0 va 0 va perm = .ok (s', .ok 0)) :
    ∃ pp, (∃ pm, s' = s.withPm pm) ∧
      pteAt s'.pm.mem (s'.envs cur).envPgdir va = some (page2pa pp ||| perm ||| pteV) ∧
      ChangesOnly s s' fun y va' => y = cur ∧ SamePage va' va := by
  have inUse := (inv.current cur hcur).1
  have hd := Kernel.dirs_of_notMem inUse
  unfold Mos.sysMemMap at h
  split at h
  · cases h
  case isFalse legal =>
    push Not at legal
    have below := lt_utop_of_legal legal.1
    have user := pdx_lt_of_lt_utop below
    simp only [envid2env_self hcur, Bind.bind, Except.bind, pageLookup_eq (inv.inv.pm.inMemory hd
      (lt_ulim_of_lt_utop below))] at h
    cases found : Mos.lookup s.pm.mem (s.envs cur).envPgdir va with
    | none =>
        rw [found] at h
        cases h
    | some page =>
        obtain ⟨pp, pte⟩ := page
        obtain ⟨t, ht, hp, -⟩ := lookup_eq_some_iff.mp found
        rw [found] at h
        simp only [inv.inv.pm.pageInsert_same hd user ht hp] at h
        cases h
        have inv' := inv.inv.pm.tlbInvalidate (s.envs cur).envAsid va
        have dir : (s.envs cur).envPgdir ≠ t :=
          table_ne_dir (i := ⟨_, user⟩) inv.inv.pm.excl hd ht hd
        have table : entry (writeWord s.pm.mem t (ptx va) (page2pa pp ||| perm ||| pteV)
            (s.envs cur).envPgdir (pdx va)) = some t := by rw [writeWord_of_page_ne dir, ht]
        refine ⟨pp, ⟨_, rfl⟩, ?_, fun y hy _ va' notSelf other => ?_⟩
        · refine (pteAt_some table).trans ?_
          rw [writeWord_self, if_pos (entry_valid _ _)]
        · rcases eq_or_ne y cur with rfl | hne
          · exact inv'.pteAt_writeWord hd user ht _ notSelf fun same => other ⟨rfl, same⟩
          · exact (inv.inv.pm.sameSpace_writeWord (i := ⟨_, user⟩) hd ht (Kernel.dirs_of_notMem hy)
              hne _ _).pteAt va'

/-- `sys_mem_alloc` raises no count to its limit: the page is new. -/
theorem LiveInv.bounded_sysMemAlloc {r : Ret} (bounded : Bounded s) (flags : perm < 0x1000#32)
    {envid : Word} (h : Mos.sysMemAlloc s envid va perm = .ok (s', r)) : Bounded s' := by
  rcases inv.inv.sysMemAlloc_cases h with
    rfl | ⟨x, p, rest, pm, res, legal, named, hfree, insert, rfl⟩
  · exact bounded
  · have hd := Kernel.dirs_of_notMem (inv.envid2env named)
    have user := pdx_lt_of_lt_utop (lt_utop_of_legal legal)
    obtain ⟨taken, -, fresh⟩ := inv.inv.pm.take (e := x) hfree
    have counts : ∀ q, refs (target s.dirs (s.pm.take p rest).mem) q < 2 ^ 16 := by
      intro q
      rw [inv.inv.pm.target_take hfree]
      exact Nat.lt_succ_of_le (bounded q)
    intro q
    have most := taken.refs_pageInsert counts hd user flags fresh.toBystander fresh.lt q insert
    exact most.trans (max_le (Nat.le_of_lt_succ (counts q)) (by decide))

/-- A copy from page to page keeps the invariant and all page tables. -/
theorem LiveInv.userCopyPage (hcur : s.curenv = some cur) (below : dstva < utop)
    (h : s.userCopyPage dstva srcva = .ok (some s')) :
    LiveInv s' ∧ (∀ k, AtMost k s → AtMost k s') ∧
      (∃ pm, s' = s.withPm pm ∧ pm.pageFreeList = s.pm.pageFreeList) ∧
      ∀ va', pdx va' < 509 → pteAt s'.pm.mem (s'.envs cur).envPgdir va' =
        pteAt s.pm.mem (s.envs cur).envPgdir va' := by
  have hd := Kernel.dirs_of_notMem (inv.current cur hcur).1
  have current : s.current = .ok cur := by rw [Kernel.current, hcur]
  obtain ⟨x, found, h⟩ := bind_eq_ok.mp h
  rw [current, Except.ok.injEq] at found
  subst found
  obtain ⟨dst, look, h⟩ := bind_eq_ok.mp h
  rw [pageLookup_eq (inv.inv.pm.inMemory hd (lt_ulim_of_lt_utop below)), Except.ok.injEq] at look
  obtain ⟨src, -, h⟩ := bind_eq_ok.mp h
  cases dst with
  | none => cases h
  | some dst =>
      cases src with
      | none => cases h
      | some src =>
          obtain ⟨q, pte⟩ := dst
          obtain ⟨p, pte'⟩ := src
          cases h
          obtain ⟨t, ht, hq, -⟩ := lookup_eq_some_iff.mp look
          have mapped : target s.dirs s.pm.mem
              (.pte cur ⟨_, pdx_lt_of_lt_utop below⟩ ⟨_, ptx_lt dstva⟩) = some q :=
            (target_pte hd ht).trans hq
          obtain ⟨inv', frame⟩ := @PmapInv.writePage _ _ _ _ cur _ _ inv.inv.pm
            (Ref.not_isTable_pte _ _ _) mapped (s.pm.mem p)
          have same : target s.dirs (Function.update s.pm.mem q (s.pm.mem p)) =
              target s.dirs s.pm.mem := by
            refine target_writePage (fun r' table named => ?_) _
            have eq := inv.inv.pm.excl r' _ q table named mapped
            rw [← eq] at table
            exact Ref.not_isTable_pte _ _ _ table
          refine ⟨inv.memStep ⟨inv', frame⟩, fun k most r => ?_, ⟨_, rfl, rfl⟩, fun va' user =>
            inv.inv.pm.pteAt_writePage hd (Ref.not_isTable_pte _ _ _) mapped _ user⟩
          show refs (target s.dirs (Function.update s.pm.mem q (s.pm.mem p))) r ≤ _
          rw [same]
          exact most r

/-- What `sys_mem_unmap` leaves. -/
theorem LiveInv.sysMemUnmap_entry (hcur : s.curenv = some cur) (legal : ¬ isIllegalVa va)
    (h : Mos.sysMemUnmap s 0 va = .ok (s', .ok 0)) {va' : Word} (notSelf : pdx va' ≠ 511) :
    (∃ pm, s' = s.withPm pm) ∧
      pteAt s'.pm.mem (s'.envs cur).envPgdir va' =
        if SamePage va' va then none else pteAt s.pm.mem (s.envs cur).envPgdir va' := by
  have hd := Kernel.dirs_of_notMem (inv.current cur hcur).1
  obtain ⟨-, err, failed⟩ | ⟨x, pm, -, self, removed, rfl, -⟩ := sysMemUnmap_cases h
  · cases failed
  rw [envid2env_self hcur, Except.ok.injEq, Except.ok.injEq] at self
  subst self
  obtain ⟨gone, kept⟩ := inv.inv.pm.pteAt_removed hd
    (pdx_lt_of_lt_utop (lt_utop_of_legal legal)) removed notSelf
  refine ⟨⟨pm, rfl⟩, ?_⟩
  by_cases same : SamePage va' va
  · rw [if_pos same]
    exact gone same
  · rw [if_neg same]
    exact kept same

/-- After its three memory calls `cow_entry` has mapped the page with `PTE_D` alone. -/
theorem LiveInv.cowEntry_perm {tfVa : Word} {tf : Trapframe} (bounded : Bounded s)
    (hcur : s.curenv = some cur) (h : cowEntry s tfVa tf = .ok (some (s', [.ok 0, .ok 0, .ok 0]))) :
    s'.permAt cur (pteAddr tf.cp0Badvaddr) =
      if SamePage (pteAddr tf.cp0Badvaddr) ucow then none else some (pteV ||| pteD) := by
  have allocFlags : pteD ||| pteV < 0x1000#32 := by decide
  have below : ucow < utop := by decide
  have legal : ¬ isIllegalVa ucow := by decide
  obtain ⟨entry, -, h⟩ := bind_eq_ok.mp h
  cases entry with
  | none => cases h
  | some pte =>
      simp only at h
      split at h
      · cases h
      · rw [cow_perm] at h
        obtain ⟨⟨s₁, r₁⟩, alloc, h⟩ := bind_eq_ok.mp h
        obtain ⟨copied, copy, h⟩ := bind_eq_ok.mp h
        cases copied with
        | none => cases h
        | some s₂ =>
            obtain ⟨⟨s₃, r₂⟩, map, h⟩ := bind_eq_ok.mp h
            obtain ⟨⟨s₄, r₃⟩, unmap, h⟩ := bind_eq_ok.mp h
            obtain ⟨⟨s₅, r₄⟩, resumed, h⟩ := bind_eq_ok.mp h
            cases r₄ with
            | error err => cases h
            | ok _ =>
                cases h
                obtain ⟨x, pm₁, r, run, step⟩ := @KernelInv.sysMemAlloc _ cur 0 ucow _ inv.inv
                  bounded hcur (inv.current cur hcur).1 allocFlags
                rw [alloc, Except.ok.injEq, Prod.mk.injEq] at run
                obtain ⟨rfl, rfl⟩ := run
                have inv₁ := inv.memStep step
                have bounded₁ := inv.bounded_sysMemAlloc bounded allocFlags alloc
                obtain ⟨inv₂, most, ⟨pm₂, rfl, -⟩, -⟩ := inv₁.userCopyPage hcur below copy
                have bounded₂ := most 65535 bounded₁
                obtain ⟨y, pp, self, inside, inv₃, ⟨pm₃, rfl⟩, -, mapped, -⟩ :=
                  inv₂.sysMemMap_entry bounded₂ (by decide) hcur map
                rw [envid2env_self (s := (s.withPm pm₁).withPm pm₂) hcur] at self
                cases self
                obtain ⟨⟨pm₄, rfl⟩, kept⟩ :=
                  inv₃.sysMemUnmap_entry hcur legal unmap (pdx_ne_selfMap inside)
                have last : s'.permAt cur (pteAddr tf.cp0Badvaddr) =
                    Kernel.permAt ((((s.withPm pm₁).withPm pm₂).withPm pm₃).withPm pm₄) cur
                      (pteAddr tf.cp0Badvaddr) := sysSetTrapframe_permAt hcur resumed
                rw [last, Kernel.permAt, kept, mapped]
                split
                · rfl
                · rw [Option.map_some, entry_flags]
                  rfl

/-- `duppage` takes `PTE_D` from a page, and adds `PTE_COW`, in both address spaces. -/
theorem LiveInv.duppage_perm {s₁ : Kernel} {envid : Word} {who : EnvIx} (bounded : Bounded s)
    (hcur : s.curenv = some cur) (small : vpn.toNat < 2 ^ 20)
    (page : s.permAt cur (vpn * by2pg) = some perm)
    (dup : duppage s envid vpn = .ok (some (s₁, [.ok 0, .ok 0])))
    (hwho : who = cur ∨ Mos.envid2env s envid true = .ok (.ok who)) :
    s₁.permAt who (vpn * by2pg) = some ((perm &&& ~~~pteD) ||| pteCow) := by
  obtain ⟨w, hw, rfl⟩ := Option.map_eq_some_iff.mp page
  have valid : w.Has pteV := (pteAt_eq_some_iff.mp hw).choose_spec.2.2
  obtain ⟨entry, read, dup⟩ := bind_eq_ok.mp dup
  cases entry with
  | none => cases dup
  | some pte =>
      simp only at dup
      split at dup
      · obtain ⟨⟨s', r⟩, -, dup⟩ := bind_eq_ok.mp dup
        cases dup
      · obtain ⟨⟨s', r⟩, first, dup⟩ := bind_eq_ok.mp dup
        obtain ⟨⟨s'', r'⟩, second, dup⟩ := bind_eq_ok.mp dup
        cases dup
        obtain ⟨x, pp, named, below, inv', ⟨pm, rfl⟩, -, mapped, -⟩ :=
          inv.sysMemMap_entry bounded (dup_flags pte) hcur first
        obtain ⟨pp', ⟨pm', rfl⟩, again, only⟩ := inv'.sysMemMap_again hcur second
        have number : vpnWord (vpn * by2pg) = vpn := by
          apply BitVec.eq_of_toNat_eq
          rw [vpnWord, BitVec.toNat_ushiftRight, BitVec.toNat_mul, by2pg_toNat,
            Nat.shiftRight_eq_div_pow]
          omega
        have same := inv.vpt_eq hcur below hw
        rw [number, read, Except.ok.injEq, Option.some.injEq] at same
        subst same
        have result : ∀ pp, (some (page2pa pp ||| (pte &&& 0xfff &&& ~~~pteD ||| pteCow) |||
            pteV)).map (· &&& 0xfff#32) = some (pte &&& 0xfff &&& ~~~pteD ||| pteCow) := by
          intro pp
          rw [Option.map_some, entry_flags, dup_perm_valid valid]
        rcases eq_or_ne who cur with rfl | hne
        · rw [Kernel.permAt, again]
          exact result pp'
        · have child := hwho.resolve_left hne
          rw [named, Except.ok.injEq, Except.ok.injEq] at child
          subst child
          have inUse := inv.envid2env named
          rw [Kernel.permAt, only x inUse inUse _ (pdx_ne_selfMap below) fun h => hne h.1, mapped]
          exact result pp

/-- A store to a copy-on-write page, handled at any later time, gives the page back its
permission exactly when that was `PTE_V | PTE_D`, and the page is not the one at `UCOW`. -/
theorem cow_restores_perm_iff {s₁ : Kernel} {envid : Word} {who : EnvIx} (bounded : Bounded s)
    (hcur : s.curenv = some cur) (small : vpn.toNat < 2 ^ 20)
    (page : s.permAt cur (vpn * by2pg) = some perm)
    (dup : duppage s envid vpn = .ok (some (s₁, [.ok 0, .ok 0])))
    (hwho : who = cur ∨ Mos.envid2env s envid true = .ok (.ok who)) :
    s₁.permAt who (vpn * by2pg) = some ((perm &&& ~~~pteD) ||| pteCow) ∧
    ∀ (s₂ s₃ : Kernel) (tfVa : Word) (tf : Trapframe), LiveInv s₂ → Bounded s₂ →
      s₂.curenv = some who → pteAddr tf.cp0Badvaddr = vpn * by2pg →
      cowEntry s₂ tfVa tf = .ok (some (s₃, [.ok 0, .ok 0, .ok 0])) →
        (s₃.permAt who (vpn * by2pg) = some perm ↔
          perm = pteV ||| pteD ∧ ¬ SamePage (vpn * by2pg) ucow) := by
  refine ⟨inv.duppage_perm bounded hcur small page dup hwho, ?_⟩
  intro s₂ s₃ tfVa tf inv₂ bounded₂ hwho₂ here handled
  have after := inv₂.cowEntry_perm bounded₂ hwho₂ handled
  rw [here] at after
  rw [after]
  by_cases scratch : SamePage (vpn * by2pg) ucow
  · simp [scratch]
  · rw [if_neg scratch, Option.some.injEq, eq_comm]
    exact (and_iff_left scratch).symm

/-! ## A fork that loses a flag -/

/-- There are `n` free pages, and no page has more than `k` references. -/
structure Roomy (n k : Nat) (s : Kernel) : Prop where
  inv : LiveInv s
  most : AtMost k s
  free : n ≤ s.pm.pageFreeList.length

end Calls

section Room

variable {ε : Type} [Fintype ε] [DecidableEq ε] {dirs : ε → Option Nat} {pm s₁ : Pmap} {x : ε}
  {d t pp : Nat} {va asid perm : Word}

omit [Fintype ε] [DecidableEq ε] in
/-- Getting an entry ready takes one page at most. -/
theorem Prepared.free_le (prep : Prepared pm d asid va s₁ t) :
    pm.pageFreeList.length ≤ s₁.pageFreeList.length + 1 := by
  cases prep with
  | table => exact Nat.le_succ _
  | newTable vacant hfree =>
      rw [hfree]
      exact Nat.le_refl _
  | @removed t q ht hq =>
      show _ ≤ (pm.unmap q t (ptx va)).pageFreeList.length + 1
      simp only [Pmap.unmap, Pmap.decref, Pmap.setWord]
      split
      · simp only [List.length_cons]
        omega
      · exact Nat.le_succ _

/-- `page_insert` adds a reference to its page, unless the page is mapped there already,
and at most the first one to any other page. -/
theorem PmapInv.refs_pageInsert_le {pm' : Pmap} {r : Except Err Unit} (inv : PmapInv dirs pm)
    (hx : dirs x = some d) (user : pdx va < 509) (counted : Counted dirs pm d va)
    (lt : pp < pm.npage) (flags : perm < 0x1000#32)
    (run : Mos.pageInsert pm d asid pp va perm = .ok (pm', r)) (q : Nat) :
    refs (target dirs pm'.mem) q ≤ max (refs (target dirs pm.mem) q) 1 ∨
      (q = pp ∧ (∀ pte, lookup pm.mem d va ≠ some (pp, pte)) ∧ r = .ok () ∧
        refs (target dirs pm'.mem) q ≤ max (refs (target dirs pm.mem) q) 1 + 1) := by
  rcases inv.pageInsert_cases hx user counted pp asid perm with
    ⟨t, ht, hp, run'⟩ | ⟨s₁, t, prep, unmapped, run'⟩ | ⟨-, -, run'⟩
  all_goals
    rw [run, Except.ok.injEq, Prod.mk.injEq] at run'
    obtain ⟨rfl, rfl⟩ := run'
  · have same := (inv.tlbInvalidate asid va).target_remap (i := ⟨_, user⟩) (j := ⟨_, ptx_lt va⟩)
      hx ht hp flags
    rw [same]
    exact .inl (Nat.le_max_left _ _)
  · obtain ⟨inv₁, frame, ht, hp⟩ := prep.spec inv hx user counted
    have before := prep.refs_le inv hx user q
    have tgt : target dirs (s₁.mapPage t (ptx va) pp perm).mem =
        Function.update (target dirs s₁.mem) (.pte x ⟨_, user⟩ ⟨_, ptx_lt va⟩) (some pp) :=
      congrArg RefStore.tgt (inv₁.store_mapPage (i := ⟨_, user⟩) (j := ⟨_, ptx_lt va⟩) hx ht
        (by rw [frame.npage]; exact lt) flags)
    have vacant : target dirs s₁.mem (.pte x ⟨_, user⟩ ⟨_, ptx_lt va⟩) = none :=
      (target_pte hx ht).trans hp
    rw [tgt]
    rcases eq_or_ne q pp with rfl | hne
    · rw [refs_link_self vacant]
      exact .inr ⟨rfl, unmapped, rfl, Nat.succ_le_succ before⟩
    · rw [refs_update_of_ne (by simp [vacant]) (by simpa using hne.symm)]
      exact .inl before
  · exact .inl (Nat.le_max_left _ _)

/-- With a free page `page_insert` succeeds, and it adds one reference at most. -/
theorem PmapInv.pageInsert_room (inv : PmapInv dirs pm) (hx : dirs x = some d)
    (user : pdx va < 509) (counted : Counted dirs pm d va) (lt : pp < pm.npage)
    (flags : perm < 0x1000#32) (asid : Word) (free : pm.pageFreeList ≠ []) :
    ∃ pm', Mos.pageInsert pm d asid pp va perm = .ok (pm', .ok ()) ∧
      pm.pageFreeList.length ≤ pm'.pageFreeList.length + 1 ∧
      ∀ q, refs (target dirs pm'.mem) q ≤ max (refs (target dirs pm.mem) q) 1 + 1 := by
  have most : ∀ {pm'}, Mos.pageInsert pm d asid pp va perm = .ok (pm', .ok ()) → ∀ q,
      refs (target dirs pm'.mem) q ≤ max (refs (target dirs pm.mem) q) 1 + 1 := by
    intro pm' run q
    rcases inv.refs_pageInsert_le hx user counted lt flags run q with le | ⟨-, -, -, le⟩
    · exact le.trans (Nat.le_succ _)
    · exact le
  rcases inv.pageInsert_cases hx user counted pp asid perm with
    ⟨t, ht, hp, run⟩ | ⟨s₁, t, prep, -, run⟩ | ⟨-, none_left, -⟩
  · exact ⟨_, run, Nat.le_succ _, most run⟩
  · exact ⟨_, run, prep.free_le, most run⟩
  · exact (free none_left).elim

end Room

section Fork

variable {s s' : Kernel} {cur x : EnvIx} {va srcva dstva dstid perm w : Word} {n k : Nat}

/-- A page table entry leads to a page. -/
theorem KernelInv.lookup_of_pteAt (inv : KernelInv s) (inUse : cur ∉ s.envFreeList)
    (below : va < utop) (page : pteAt s.pm.mem (s.envs cur).envPgdir va = some w) :
    ∃ pte, Mos.pageLookup s.pm (s.envs cur).envPgdir va = .ok (some (ppn w, pte)) ∧
      ppn w < s.pm.npage := by
  have hd := Kernel.dirs_of_notMem inUse
  obtain ⟨t, ht, word, valid⟩ := pteAt_eq_some_iff.mp page
  have hp : entry (s.pm.mem t (ptx va)) = some (ppn w) := by rw [word, entry_of_valid valid]
  have mapped : target s.dirs s.pm.mem (.pte cur ⟨_, pdx_lt_of_lt_utop below⟩ ⟨_, ptx_lt va⟩) =
      some (ppn w) := (target_pte hd ht).trans hp
  refine ⟨(t, ptx va), ?_, inv.pm.target_lt _ _ mapped⟩
  rw [pageLookup_eq (inv.pm.inMemory hd (lt_ulim_of_lt_utop below)), lookup_eq_some ht hp]

/-- With two free pages left the running env can get one. -/
theorem KernelInv.sysMemAlloc_room (inv : KernelInv s) (most : AtMost k s)
    (free : n + 2 ≤ s.pm.pageFreeList.length) (pos : 0 < k) (le : k ≤ 65535)
    (hcur : s.curenv = some cur) (inUse : cur ∉ s.envFreeList) (legal : ¬ isIllegalVa va)
    (flags : perm < 0x1000#32) :
    ∃ y pm pp, Mos.sysMemAlloc s 0 va perm = .ok (s.withPm pm, .ok 0) ∧ MemStep s y pm ∧
      AtMost (k + 1) (s.withPm pm) ∧ n ≤ pm.pageFreeList.length ∧
      pteAt pm.mem (s.envs cur).envPgdir va = some (page2pa pp ||| perm ||| pteV) := by
  have bounded := most.bounded le
  have hd := Kernel.dirs_of_notMem inUse
  have below := lt_utop_of_legal legal
  have user := pdx_lt_of_lt_utop below
  obtain ⟨p, rest, hfree⟩ := List.exists_cons_of_ne_nil
    (List.ne_nil_of_length_pos (Nat.lt_of_lt_of_le (Nat.succ_pos _) free))
  obtain ⟨taken, -, fresh⟩ := inv.pm.take (e := cur) hfree
  have same : target s.dirs (s.pm.take p rest).mem = target s.dirs s.pm.mem :=
    inv.pm.target_take hfree
  have counts : ∀ q, refs (target s.dirs (s.pm.take p rest).mem) q ≤ k := by
    intro q
    rw [same]
    exact most q
  rw [hfree, List.length_cons] at free
  have more : (s.pm.take p rest).pageFreeList ≠ [] := by
    show rest ≠ []
    exact List.ne_nil_of_length_pos (by omega)
  obtain ⟨pm, run, left, refs⟩ := taken.pageInsert_room hd user
    (fun q _ _ => Nat.lt_of_le_of_lt (counts q) (by omega)) fresh.lt flags (s.envs cur).envAsid more
  have done : Mos.sysMemAlloc s 0 va perm = .ok (s.withPm pm, .ok 0) := by
    simp only [Mos.sysMemAlloc, if_neg legal, envid2env_self hcur, inv.pm.pageAlloc_cons hfree,
      tryRet, run, Bind.bind, Except.bind]
    rfl
  obtain ⟨y, pm', r, run', step⟩ :=
    @KernelInv.sysMemAlloc s cur 0 va perm inv bounded hcur inUse flags
  rw [done, Except.ok.injEq, Prod.mk.injEq] at run'
  have eq : pm = pm' := congrArg Kernel.pm run'.1
  subst eq
  have sane : Addressable (s.pm.take p rest) (s.envs cur).envPgdir va :=
    ⟨fun t ht => (table_ne_dir (i := ⟨_, user⟩) taken.excl hd ht hd).symm, taken.npage_le,
      taken.free_lt, fun _ mem => taken.store.free_untargeted _ mem (.dir cur) hd⟩
  refine ⟨y, pm, p, done, step, fun q => ?_, ?_, ?_⟩
  · exact (refs q).trans (Nat.succ_le_succ (max_le (counts q) pos))
  · have left' : rest.length ≤ pm.pageFreeList.length + 1 := left
    omega
  · rcases sane.pageInsert run with ⟨-, -, -, failed⟩ | ⟨-, -, maps⟩
    · cases failed
    · exact maps.pteAt (entry_valid _ _)

/-- With a free page left the running env can map a page it has. -/
theorem KernelInv.sysMemMap_room (inv : KernelInv s) (most : AtMost k s)
    (free : n + 1 ≤ s.pm.pageFreeList.length) (pos : 0 < k) (le : k ≤ 65535)
    (hcur : s.curenv = some cur) (inUse : cur ∉ s.envFreeList) (legal : ¬ isIllegalVa srcva)
    (legal' : ¬ isIllegalVa dstva) (flags : perm < 0x1000#32)
    (named : Mos.envid2env s dstid true = .ok (.ok x))
    (page : pteAt s.pm.mem (s.envs cur).envPgdir srcva = some w) :
    ∃ y pm, Mos.sysMemMap s 0 srcva dstid dstva perm = .ok (s.withPm pm, .ok 0) ∧ MemStep s y pm ∧
      AtMost (k + 1) (s.withPm pm) ∧ n ≤ pm.pageFreeList.length := by
  have bounded := most.bounded le
  have hd := Kernel.dirs_of_notMem (inv.envid2env hcur inUse named)
  obtain ⟨pte, found, inside⟩ := inv.lookup_of_pteAt inUse (lt_utop_of_legal legal) page
  obtain ⟨pm, run, left, refs⟩ := inv.pm.pageInsert_room hd
    (pdx_lt_of_lt_utop (lt_utop_of_legal legal')) (fun q _ _ => Nat.lt_succ_of_le (bounded q))
    inside flags (s.envs x).envAsid
    (List.ne_nil_of_length_pos (Nat.lt_of_lt_of_le (Nat.succ_pos _) free))
  have done : Mos.sysMemMap s 0 srcva dstid dstva perm = .ok (s.withPm pm, .ok 0) := by
    simp only [Mos.sysMemMap, if_neg (not_or.mpr ⟨legal, legal'⟩), envid2env_self hcur, named,
      found, run, Bind.bind, Except.bind]
    rfl
  obtain ⟨y, pm', r, run', step⟩ := @KernelInv.sysMemMap s cur 0 dstid srcva dstva perm inv
    bounded hcur inUse flags
  rw [done, Except.ok.injEq, Prod.mk.injEq] at run'
  have eq : pm = pm' := congrArg Kernel.pm run'.1
  subst eq
  exact ⟨y, pm, done, step, fun q => (refs q).trans (Nat.succ_le_succ (max_le (most q) pos)),
    by omega⟩

theorem Roomy.sysMemAlloc (roomy : Roomy (n + 2) k s) (pos : 0 < k) (le : k ≤ 65535)
    (hcur : s.curenv = some cur) (legal : ¬ isIllegalVa va) (flags : perm < 0x1000#32) :
    ∃ pm pp, Mos.sysMemAlloc s 0 va perm = .ok (s.withPm pm, .ok 0) ∧
      Roomy n (k + 1) (s.withPm pm) ∧
      pteAt pm.mem (s.envs cur).envPgdir va = some (page2pa pp ||| perm ||| pteV) := by
  obtain ⟨y, pm, pp, done, step, most, free, page⟩ := roomy.inv.inv.sysMemAlloc_room roomy.most
    roomy.free pos le hcur (roomy.inv.current cur hcur).1 legal flags
  exact ⟨pm, pp, done, ⟨roomy.inv.memStep step, most, free⟩, page⟩

theorem Roomy.sysMemMap (roomy : Roomy (n + 1) k s) (pos : 0 < k) (le : k ≤ 65535)
    (hcur : s.curenv = some cur) (legal : ¬ isIllegalVa srcva) (legal' : ¬ isIllegalVa dstva)
    (flags : perm < 0x1000#32) (named : envid2env s dstid true = .ok (.ok x))
    (page : pteAt s.pm.mem (s.envs cur).envPgdir srcva = some w) :
    ∃ pm, Mos.sysMemMap s 0 srcva dstid dstva perm = .ok (s.withPm pm, .ok 0) ∧
      Roomy n (k + 1) (s.withPm pm) := by
  obtain ⟨y, pm, done, step, most, free⟩ := roomy.inv.inv.sysMemMap_room roomy.most roomy.free
    pos le hcur (roomy.inv.current cur hcur).1 legal legal' flags named page
  exact ⟨pm, done, ⟨roomy.inv.memStep step, most, free⟩⟩

end Fork

/-- An env gets a page and makes a child. -/
def forkOps (perm : Word) : List KernelOp :=
  startOps ++ [.sys (.env (.memAlloc 0 0x400000 perm))] ++ [.sys .exofork]

/-- On `smallBoot` the first env forks with one page. -/
theorem forkOps_run {perm : Word} (flags : perm < 0x1000#32) : ∃ s₀ s,
    envInit smallBoot = .ok s₀ ∧ Run kernelStep s₀ (forkOps perm) s ∧ Roomy 16 2 s ∧
    s.curenv = some 0 ∧ envid2env s (s.envs 1).envId true = .ok (.ok 1) ∧
    ∃ pp, pteAt s.pm.mem (s.envs 0).envPgdir 0x400000 = some (page2pa pp ||| perm ||| pteV) := by
  obtain ⟨s₀, s, boot, run, hcur, -, hfree, hpages, -, -, hasid, most⟩ :=
    startOps_run smallBoot_free
  obtain ⟨inv, -⟩ := kernelRun_inv boot run
  have roomy : Roomy 19 1 s := ⟨inv, most, by rw [hpages]; decide⟩
  have legal : ¬ isIllegalVa 0x400000 := by decide
  obtain ⟨pm, pp, alloc, roomy₁, page⟩ :=
    roomy.sysMemAlloc Nat.one_pos (by decide) hcur legal flags
  have step₁ : kernelStep s (.sys (.env (.memAlloc 0 0x400000 perm))) (s.withPm pm) :=
    ⟨⟨⟨0, hcur⟩, flags⟩, ⟨_, alloc⟩, roomy₁.most.bounded (by decide)⟩
  obtain ⟨p, pages, hpages₁⟩ := List.exists_cons_of_ne_nil
    (List.ne_nil_of_length_pos (Nat.lt_of_lt_of_le (Nat.succ_pos _) roomy₁.free))
  obtain ⟨s', step₂, hcur', named, -, left, most'⟩ := roomy₁.inv.exofork_step
    (roomy₁.most.bounded (by decide)) hcur hfree hpages₁ hasid (by decide) (by decide)
  have run' := (run.snoc step₁).snoc step₂
  obtain ⟨inv', -⟩ := kernelRun_inv boot run'
  obtain ⟨r, forked⟩ := step₂.2.1
  have kept := roomy₁.inv.changes_sysExofork forked (fun _ _ => False) 0
    (roomy₁.inv.current 0 hcur).1 (inv'.current 0 hcur').1 0x400000 (by decide) id
  refine ⟨s₀, s', boot, run', ⟨inv', most' 2 (by decide) roomy₁.most, ?_⟩, hcur', named, pp,
    kept.trans page⟩
  have free := roomy₁.free
  rw [hpages₁, List.length_cons] at free
  rw [left]
  exact Nat.le_of_succ_le_succ free

/-- The frame of a fault at 0x400000. -/
def faultFrame : Trapframe := ⟨fun _ => 0, 0, 0, 0, 0x400000, 0, 0⟩

section Fork

variable {s s₁ : Kernel} {envid perm : Word}

/-- With room left the page is shared, copy on write. -/
theorem Roomy.duppage (roomy : Roomy 16 2 s) (hcur : s.curenv = some 0)
    (named : envid2env s envid true = .ok (.ok 1)) {w : Word}
    (page : pteAt s.pm.mem (s.envs 0).envPgdir 0x400000 = some w)
    (writable : (w &&& 0xfff).Has pteD) (own : ¬ (w &&& 0xfff).Has pteLibrary) :
    ∃ s₁ w₁, Mos.duppage s envid 0x400 = .ok (some (s₁, [.ok 0, .ok 0])) ∧ Roomy 14 4 s₁ ∧
      s₁.curenv = some 0 ∧
      pteAt s₁.pm.mem (s₁.envs 0).envPgdir 0x400000 = some w₁ ∧ (w₁ &&& 0xfff).Has pteCow := by
  have legal : ¬ isIllegalVa 0x400000 := by decide
  have addr : (0x400 : Word) * by2pg = 0x400000 := rfl
  have number : vpnWord 0x400000 = 0x400 := rfl
  have read := roomy.inv.vpt_eq hcur (by decide) page
  rw [number] at read
  have branch : ¬ (¬ (w &&& 0xfff).Has pteD ∨ (w &&& 0xfff).Has pteLibrary) := fun h =>
    h.elim (fun h => h writable) own
  obtain ⟨pm, first, roomy₁⟩ := roomy.sysMemMap (by decide) (by decide) hcur legal legal
    (dup_flags w) named page
  obtain ⟨y, pp, named', below, inv₁, -, -, -, only⟩ :=
    roomy.inv.sysMemMap_entry (roomy.most.bounded (by decide)) (dup_flags w) hcur first
  rw [named, Except.ok.injEq, Except.ok.injEq] at named'
  subst named'
  have hcur₁ : (s.withPm pm).curenv = some 0 := hcur
  have inUse := (roomy.inv.current 0 hcur).1
  have page₁ := (only 0 inUse inUse 0x400000 (by decide) (fun h => absurd h.1 (by decide))).trans page
  obtain ⟨pm', second, roomy₂⟩ := roomy₁.sysMemMap (by decide) (by decide) hcur₁ legal legal
    (dup_flags w) (envid2env_self hcur₁) page₁
  obtain ⟨pp', -, again, -⟩ := inv₁.sysMemMap_again hcur₁ second
  refine ⟨_, _, ?_, roomy₂, hcur, again, ?_⟩
  · simp only [Mos.duppage, read, addr, if_neg branch, first, second, Bind.bind, Except.bind]
  · have flags := entry_flags pp' (w &&& 0xfff &&& ~~~pteD ||| pteCow)
    rw [dup_perm_valid (pteAt_eq_some_iff.mp page).choose_spec.2.2] at flags
    show ((page2pa pp' ||| (w &&& 0xfff &&& ~~~pteD ||| pteCow) ||| pteV) &&& 0xfff#32).Has pteCow
    rw [flags, Word.has_or]
    exact .inr (by decide)

/-- With room left a store to the page is handled. -/
theorem Roomy.cowEntry (roomy : Roomy 14 4 s) (hcur : s.curenv = some 0) {w : Word}
    (page : pteAt s.pm.mem (s.envs 0).envPgdir 0x400000 = some w)
    (cow : (w &&& 0xfff).Has pteCow) :
    ∃ s', Mos.cowEntry s 0x401000 faultFrame = .ok (some (s', [.ok 0, .ok 0, .ok 0])) := by
  have legal : ¬ isIllegalVa 0x400000 := by decide
  have legal' : ¬ isIllegalVa ucow := by decide
  have addr : pteAddr faultFrame.cp0Badvaddr = 0x400000 := rfl
  have number : vpnWord 0x400000 = 0x400 := rfl
  have read := roomy.inv.vpt_eq hcur (by decide) page
  rw [number] at read
  have inUse := (roomy.inv.current 0 hcur).1
  obtain ⟨pm₁, q, alloc, roomy₁, scratch⟩ :=
    @Roomy.sysMemAlloc s 0 ucow (pteD ||| pteV) 12 4 roomy (by decide) (by decide) hcur legal'
      (by decide)
  have hcur₁ : (s.withPm pm₁).curenv = some 0 := hcur
  have page₁ := (roomy.inv.changes_sysMemAlloc (roomy.most.bounded (by decide)) alloc 0 inUse inUse
    0x400000 (by decide) (fun same => absurd same.2.1 (by decide))).trans page
  have inUse₁ := (roomy₁.inv.current 0 hcur₁).1
  obtain ⟨pte, source, -⟩ := roomy₁.inv.inv.lookup_of_pteAt inUse₁ (by decide) page₁
  obtain ⟨pte', dest, -⟩ := roomy₁.inv.inv.lookup_of_pteAt inUse₁ (by decide) scratch
  have current : (s.withPm pm₁).current = .ok 0 := by rw [Kernel.current, hcur₁]
  obtain ⟨pm₂, copy⟩ : ∃ pm₂, (s.withPm pm₁).userCopyPage ucow 0x400000 =
      .ok (some ((s.withPm pm₁).withPm pm₂)) := by
    refine ⟨pm₁.copyPage (ppn (page2pa q ||| (pteD ||| pteV) ||| pteV)) (ppn w), ?_⟩
    simp only [Kernel.userCopyPage, current, dest, source, Bind.bind, Except.bind]
    rfl
  obtain ⟨inv₂, most₂, ⟨pm', same, free⟩, kept⟩ := roomy₁.inv.userCopyPage hcur₁ (by decide) copy
  have same' : pm₂ = pm' := congrArg Kernel.pm same
  subst same'
  have roomy₂ : Roomy 12 5 ((s.withPm pm₁).withPm pm₂) :=
    ⟨inv₂, most₂ 5 roomy₁.most, free ▸ roomy₁.free⟩
  have scratch₂ := (kept ucow (by decide)).trans scratch
  obtain ⟨pm₃, map, roomy₃⟩ := @Roomy.sysMemMap _ 0 0 ucow 0x400000 0 pteD _ 11 5 roomy₂ (by decide)
    (by decide) hcur legal' legal (by decide) (envid2env_self hcur) scratch₂
  have self₃ := envid2env_self (s := ((s.withPm pm₁).withPm pm₂).withPm pm₃) hcur
  obtain ⟨pm₄, removed, -⟩ := roomy₃.inv.inv.pageRemove (roomy₃.most.bounded (by decide))
    (roomy₃.inv.envid2env self₃) (lt_utop_of_legal legal') ((s.envs 0).envAsid)
  have unmap : Mos.sysMemUnmap (((s.withPm pm₁).withPm pm₂).withPm pm₃) 0 ucow =
      .ok ((((s.withPm pm₁).withPm pm₂).withPm pm₃).withPm pm₄, .ok 0) := by
    unfold Mos.sysMemUnmap
    rw [if_neg legal']
    exact bind_eq_ok.mpr ⟨.ok 0, self₃, bind_eq_ok.mpr ⟨pm₄, removed, rfl⟩⟩
  have resumed := sysSetTrapframe_self
    (s := (((s.withPm pm₁).withPm pm₂).withPm pm₃).withPm pm₄) 0x401000 faultFrame hcur (by decide)
  refine ⟨{ (((s.withPm pm₁).withPm pm₂).withPm pm₃).withPm pm₄ with kstackTf := faultFrame }, ?_⟩
  simp only [Mos.cowEntry, addr, number, read, if_neg (not_not_intro cow), cow_perm, alloc, copy,
    map, unmap, resumed, Bind.bind, Except.bind]

end Fork

/-- The page of a fork and the store of the parent, with the permission that the page
had before. -/
theorem fork_run {perm : Word} (flags : perm < 0x1000#32)
    (writable : ((perm ||| pteV) &&& 0xfff#32).Has pteD)
    (own : ¬ ((perm ||| pteV) &&& 0xfff#32).Has pteLibrary) : ∃ s₀ s s₁ s₃,
    envInit smallBoot = .ok s₀ ∧ Run kernelStep s₀ (forkOps perm) s ∧ s.curenv = some 0 ∧
    envid2env s (s.envs 1).envId true = .ok (.ok 1) ∧
    s.permAt 0 (0x400 * by2pg) = some ((perm ||| pteV) &&& 0xfff#32) ∧
    duppage s (s.envs 1).envId 0x400 = .ok (some (s₁, [.ok 0, .ok 0])) ∧
    LiveInv s₁ ∧ Bounded s₁ ∧ s₁.curenv = some 0 ∧
    cowEntry s₁ 0x401000 faultFrame = .ok (some (s₃, [.ok 0, .ok 0, .ok 0])) := by
  obtain ⟨s₀, s, boot, run, roomy, hcur, named, pp, page⟩ := forkOps_run flags
  have low := entry_flags pp perm
  obtain ⟨s₁, w₁, dup, roomy₁, hcur₁, page₁, cow⟩ :=
    roomy.duppage hcur named page (low ▸ writable) (low ▸ own)
  obtain ⟨s₃, handled⟩ := roomy₁.cowEntry hcur₁ page₁ cow
  have before : s.permAt 0 (0x400 * by2pg) = some ((perm ||| pteV) &&& 0xfff#32) := by
    rw [← low]
    exact congrArg (Option.map (· &&& 0xfff#32)) page
  exact ⟨s₀, s, s₁, s₃, boot, run, hcur, named, before, dup, roomy₁.inv,
    roomy₁.most.bounded (by decide), hcur₁, handled⟩

theorem cow_restores_perm_iff_plain : ∃ s₁ s₃ : Kernel,
    s₁.permAt 0 (0x400 * by2pg) = some (pteV ||| pteCow) ∧
    s₃.permAt 0 (0x400 * by2pg) = some (pteV ||| pteD) := by
  obtain ⟨s₀, s, s₁, s₃, boot, run, hcur, -, page, dup, inv₁, bounded₁, hcur₁, handled⟩ :=
    @fork_run pteD (by decide) (by decide) (by decide)
  obtain ⟨inv, bounded⟩ := kernelRun_inv boot run
  obtain ⟨copied, restored⟩ :=
    cow_restores_perm_iff inv bounded hcur (by decide) page dup (.inl rfl)
  exact ⟨s₁, s₃, copied,
    (restored s₁ s₃ _ _ inv₁ bounded₁ hcur₁ rfl handled).mpr ⟨by decide, by decide⟩⟩

/-- A page with `PTE_DIRTY` loses it. -/
theorem cow_not_restores_perm : ¬ ∀ (b : Boot) (s₀ s s₁ s₂ s₃ : Kernel) (ops : List KernelOp)
    (cur e who : EnvIx) (envid vpn perm tfVa : Word) (tf : Trapframe), envInit b = .ok s₀ →
    Run kernelStep s₀ ops s → s.curenv = some cur → envid2env s envid true = .ok (.ok e) →
    s.permAt cur (vpn * by2pg) = some perm → perm.Has pteD → ¬ perm.Has pteLibrary →
    ¬ perm.Has pteCow → duppage s envid vpn = .ok (some (s₁, [.ok 0, .ok 0])) →
    who = cur ∨ who = e → s₂.permAt who (vpn * by2pg) = s₁.permAt who (vpn * by2pg) →
    LiveInv s₂ → Bounded s₂ → s₂.curenv = some who → pteAddr tf.cp0Badvaddr = vpn * by2pg →
    cowEntry s₂ tfVa tf = .ok (some (s₃, [.ok 0, .ok 0, .ok 0])) →
      s₃.permAt who (vpn * by2pg) = some perm := by
  intro always
  obtain ⟨s₀, s, s₁, s₃, boot, run, hcur, named, page, dup, inv₁, bounded₁, hcur₁, handled⟩ :=
    @fork_run (pteD ||| 2#32) (by decide) (by decide) (by decide)
  have same := always _ _ _ _ s₁ _ _ _ _ 0 _ _ _ _ _ boot run hcur named page (by decide)
    (by decide) (by decide) dup (.inl rfl) rfl inv₁ bounded₁ hcur₁ rfl handled
  have after := inv₁.cowEntry_perm bounded₁ hcur₁ handled
  have here : pteAddr faultFrame.cp0Badvaddr = 0x400 * by2pg := rfl
  rw [here, same] at after
  revert after
  decide

end Mos
