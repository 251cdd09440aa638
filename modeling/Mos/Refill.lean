import Mos.KernelWindow

/-!
# A TLB refill is transparent

A refill at a mapped address changes nothing. At an unmapped one it maps a
zero-filled page that was free, taking one more for a page table where there is
none. The words it stores were not valid before, or lie in pages that were free,
so no lookup that succeeded before returns anything else.
-/

namespace Mos

variable {ε : Type} {dirs : ε → Option Nat} {pm pm' pm₁ : Pmap} {e : ε} {d p q t k j : Nat}
  {va asid w perm : Word} {rest : List Nat} {mem mem' mem'' : Nat → Nat → Word} {X : Nat → Prop}

/-! ## Stores that no lookup sees -/

/-- The valid words outside the pages in `X` are left alone. -/
def KeepsValid (X : Nat → Prop) (mem mem' : Nat → Nat → Word) : Prop :=
  ∀ q j, ¬ X q → (mem q j).Has pteV → mem' q j = mem q j

theorem KeepsValid.trans (first : KeepsValid X mem mem') (second : KeepsValid X mem' mem'') :
    KeepsValid X mem mem'' := by
  intro q j out valid
  have same := first q j out valid
  rw [second q j out (by rw [same]; exact valid), same]

theorem KeepsValid.writePage {page : Nat → Word} (free : X p) :
    KeepsValid X mem (Function.update mem p page) := by
  intro q j out _
  rw [Function.update_of_ne]
  rintro rfl
  exact out free

theorem KeepsValid.writeWord (vacant : entry (mem q j) = none) :
    KeepsValid X mem (writeWord mem q j w) := by
  intro r k _ valid
  apply writeWord_of_ne
  by_contra same
  push Not at same
  obtain ⟨rfl, rfl⟩ := same
  exact entry_eq_none_iff.mp vacant valid

/-- A lookup through pages outside `X` returns what it did. -/
theorem KeepsValid.lookup {pte : PtePtr} (kept : KeepsValid X mem mem') (dir : ¬ X d)
    (table : ∀ t, entry (mem d (pdx va)) = some t → ¬ X t)
    (found : lookup mem d va = some (p, pte)) :
    Mos.lookup mem' d va = some (p, pte) ∧ mem' pte.1 pte.2 = mem pte.1 pte.2 := by
  obtain ⟨t, ht, hp, rfl⟩ := lookup_eq_some_iff.mp found
  have pde := kept d _ dir (entry_eq_some_iff.mp ht).1
  have pte := kept t _ (table t ht) (entry_eq_some_iff.mp hp).1
  exact ⟨lookup_eq_some (by rw [pde]; exact ht) (by rw [pte]; exact hp), pte⟩

/-! ## The addresses a fault maps -/

/-- The addresses `passive_alloc` accepts. -/
def Faultable (va : Word) : Prop :=
  utemp ≤ va ∧ va < ustacktop ∨ ustacktop + by2pg ≤ va ∧ va < utop ∨ uvpt ≤ va ∧ va < ulim

instance : Decidable (Faultable va) := by unfold Faultable; infer_instance

/-- The free pages a refill takes: a page, and a page table where there is none. -/
def Pmap.pagesNeeded (pm : Pmap) (d : Nat) (va : Word) : Nat :=
  if lookup pm.mem d va ≠ none then 0 else if entry (pm.mem d (pdx va)) = none then 2 else 1

theorem Faultable.guards (range : Faultable va) : ¬ va < utemp ∧
    ¬ (ustacktop ≤ va ∧ va < ustacktop + by2pg) ∧ ¬ (uenvs ≤ va ∧ va < upages) ∧
    ¬ (upages ≤ va ∧ va < uvpt) ∧ ¬ ulim ≤ va := by
  have guard : (ustacktop + by2pg).toNat = 0x7f3ff000 := rfl
  simp only [Faultable, BitVec.lt_def, BitVec.le_def, utemp_toNat, ustacktop_toNat, uenvs_toNat,
    upages_toNat, uvpt_toNat, ulim_toNat, utop_toNat, guard] at range ⊢
  omega

theorem Faultable.lt_ulim (range : Faultable va) : va < ulim :=
  BitVec.not_le.mp range.guards.2.2.2.2

theorem pagesNeeded_le (pm : Pmap) (d : Nat) (va : Word) : pm.pagesNeeded d va ≤ 2 := by
  unfold Pmap.pagesNeeded
  split_ifs <;> omega

theorem lookup_valid {pte : PtePtr} (found : lookup pm.mem d va = some (p, pte)) :
    (pm.word pte).Has pteV := by
  obtain ⟨t, -, hp, rfl⟩ := lookup_eq_some_iff.mp found
  exact (entry_eq_some_iff.mp hp).1

theorem lookup_pteAddr (mem : Nat → Nat → Word) (d : Nat) (va : Word) :
    lookup mem d (pteAddr va) = lookup mem d va := by
  unfold lookup
  rw [pdx_pteAddr, ptx_pteAddr]

section Invariant

variable [Fintype ε]

/-- The directories in use, and the tables behind their entries, are not free. -/
theorem PmapInv.lookup_kept (inv : PmapInv dirs pm) (he : dirs e = some d) {pte : PtePtr}
    (kept : KeepsValid (· ∈ pm.pageFreeList) pm.mem mem')
    (found : lookup pm.mem d va = some (p, pte)) :
    lookup mem' d va = some (p, pte) ∧ mem' pte.1 pte.2 = pm.mem pte.1 pte.2 := by
  have dir : d ∉ pm.pageFreeList := fun free => inv.store.free_untargeted d free (.dir e) he
  refine kept.lookup dir (fun t ht => ?_) found
  rcases Nat.lt_or_ge (pdx va) 509 with user | kernel
  · exact fun free => inv.store.free_untargeted t free (.pde e ⟨_, user⟩) ((target_pde he).trans ht)
  · rcases eq_or_ne (pdx va) 511 with self | other
    · rw [self, inv.selfMap e d he,
        entry_selfMap (inv.page_lt (inv.target_lt (.dir e) d he))] at ht
      cases ht
      exact dir
    · obtain ⟨valid, rfl⟩ := entry_eq_some_iff.mp ht
      exact (inv.window e d _ he kernel (pdx_lt va) other valid).bystander.notFree

theorem PmapInv.lookup_window (inv : PmapInv dirs pm) (he : dirs e = some d) (lo : uvpt ≤ va)
    (hi : va < ulim) {pte : PtePtr} (found : lookup pm.mem d va = some (p, pte)) :
    pte = (d, ptx va) := by
  obtain ⟨t, ht, -, rfl⟩ := lookup_eq_some_iff.mp found
  rw [inv.entry_window he lo hi] at ht
  cases ht
  rfl

/-! ## The page a fault maps -/

/-- `pm'` maps at `pte` the page `p`, which was free in `pm`. No other translation
of a user address or in a page table window leads to it, and those of `pm` are what
they were. -/
structure MapsFresh (dirs : ε → Option Nat) (pm pm' : Pmap) (p : Nat) (pte : PtePtr) : Prop where
  wasFree : p ∈ pm.pageFreeList
  taken : p ∉ pm'.pageFreeList
  zero : pm'.mem p = fun _ => 0
  word : pm'.word pte = page2pa p ||| pteD ||| pteV
  count : pm'.ppRef p = 1
  only : ∀ e d va pte', dirs e = some d → va < utop ∨ uvpt ≤ va ∧ va < ulim →
    lookup pm'.mem d va = some (p, pte') → pte' = pte
  kept : ∀ e d va q pte', dirs e = some d → lookup pm.mem d va = some (q, pte') →
    lookup pm'.mem d va = some (q, pte') ∧ pm'.word pte' = pm.word pte'

/-- A page is named by one entry when no user reference and no kernel entry but
that one leads to it. -/
theorem PmapInv.lookup_only (inv : PmapInv dirs pm') {pte : PtePtr}
    (tables : ∀ e d (i : Fin 509), dirs e = some d → entry (pm'.mem d i) = some p →
      ((d, (i : Nat)) : PtePtr) = pte)
    (pages : ∀ e d (i : Fin 509) (j : Fin 1024) t, dirs e = some d → entry (pm'.mem d i) = some t →
      entry (pm'.mem t j) = some p → ((t, (j : Nat)) : PtePtr) = pte)
    (kernel : ∀ e d k, dirs e = some d → 509 ≤ k → k < 1024 → entry (pm'.mem d k) = some p →
      ((d, k) : PtePtr) = pte)
    (he : dirs e = some d) (hva : va < utop ∨ uvpt ≤ va ∧ va < ulim) {pte' : PtePtr}
    (found : lookup pm'.mem d va = some (p, pte')) : pte' = pte := by
  obtain ⟨t, ht, hp, rfl⟩ := lookup_eq_some_iff.mp found
  rcases hva with user | ⟨lo, hi⟩
  · exact pages e d ⟨_, pdx_lt_of_lt_utop user⟩ ⟨_, ptx_lt va⟩ t he ht hp
  · rw [inv.entry_window he lo hi] at ht
    cases ht
    rcases Nat.lt_or_ge (ptx va) 509 with low | high
    · exact tables e d ⟨_, low⟩ he hp
    · exact kernel e d _ he high (ptx_lt va) hp

/-- Taking a page off the free list hides no user mapping. -/
theorem PmapInv.lookup_take (inv : PmapInv dirs pm) (he : dirs e = some d) (user : pdx va < 509)
    (hfree : pm.pageFreeList = p :: rest) :
    lookup (pm.take p rest).mem d va = lookup pm.mem d va := by
  have isFree : p ∈ pm.pageFreeList := by rw [hfree]; exact List.mem_cons_self
  have dir : d ≠ p := fun eq => inv.store.free_untargeted p isFree (.dir e) (eq ▸ he)
  have same : (pm.take p rest).mem d = pm.mem d := Function.update_of_ne dir _ _
  unfold Mos.lookup
  rw [same]
  cases ht : entry (pm.mem d (pdx va)) with
  | none => rfl
  | some t =>
      have table : t ≠ p := by
        rintro rfl
        exact inv.store.free_untargeted t isFree (.pde e ⟨_, user⟩) ((target_pde he).trans ht)
      have words : (pm.take p rest).mem t = pm.mem t := Function.update_of_ne table _ _
      simp only [Option.bind_some, words]

/-- Getting the entry ready for an unmapped address takes a free page at most. -/
theorem Prepared.keepsValid (prep : Prepared pm d asid va pm₁ t) (inv : PmapInv dirs pm)
    (he : dirs e = some d) (unmapped : lookup pm.mem d va = none)
    (free : ∀ q ∈ pm.pageFreeList, X q) : KeepsValid X pm.mem pm₁.mem := by
  cases prep with
  | table ht hp => exact fun _ _ _ _ => rfl
  | @newTable p rest vacant hfree =>
      have isFree : t ∈ pm.pageFreeList := by rw [hfree]; exact List.mem_cons_self
      have hne : d ≠ t := fun eq => inv.store.free_untargeted t isFree (.dir e) (eq ▸ he)
      refine KeepsValid.trans (.writePage (free t isFree)) (.writeWord ?_)
      show entry (Function.update pm.mem t _ d (pdx va)) = none
      rw [Function.update_of_ne hne]
      exact vacant
  | @removed t q ht hq =>
      rw [lookup_eq_some ht hq] at unmapped
      cases unmapped

omit [Fintype ε] in
theorem Fresh.of_frame (fresh : Fresh dirs pm p) (frame : Frame dirs e noPage pm pm₁) :
    Fresh dirs pm₁ p := by
  obtain ⟨bystander, zero, count⟩ := frame.bystander p fresh.toBystander id
  refine ⟨bystander, by rw [frame.npage]; exact fresh.lt, count.trans fresh.count,
    zero.trans fresh.zero, fun e' d' k he' hk hk' => ?_⟩
  rw [frame.kernelPart e' d' k he' hk]
  exact fresh.notKernel e' d' k he' hk hk'

variable [DecidableEq ε]

/-- A fresh page mapped at an entry that was not valid. -/
theorem PmapInv.mapPage_mapsFresh (inv : PmapInv dirs pm) (inv₁ : PmapInv dirs pm₁)
    (he : dirs e = some d) {i : Fin 509} {j : Fin 1024} (ht : entry (pm₁.mem d i) = some t)
    (hp : entry (pm₁.mem t j) = none) (isFree : p ∈ pm.pageFreeList) (fresh : Fresh dirs pm₁ p)
    (kept : KeepsValid (· ∈ pm.pageFreeList) pm.mem pm₁.mem) :
    MapsFresh dirs pm (pm₁.mapPage t j p pteD) p (t, j) := by
  have table : p ≠ t := by
    rintro rfl
    exact fresh.untargeted (.pde e i) ((target_pde he).trans ht)
  have dir : d ≠ t := table_ne_dir inv₁.excl he ht he
  have mappable : Mappable dirs pm₁ p :=
    ⟨.of_untargeted fresh.notFree fresh.untargeted fresh.count, fresh.lt, fun _ => fresh.notKernel⟩
  obtain ⟨inv', frame⟩ := inv₁.mapPage he ht hp mappable (by decide : pteD < 0x1000#32)
  have tgt : target dirs (pm₁.mapPage t j p pteD).mem =
      Function.update (target dirs pm₁.mem) (.pte e i j) (some p) :=
    congrArg RefStore.tgt (inv₁.store_mapPage he ht fresh.lt (by decide))
  have only : ∀ r, target dirs (pm₁.mapPage t j p pteD).mem r = some p → r = .pte e i j := by
    intro r hr
    by_contra hne
    rw [tgt, Function.update_of_ne hne] at hr
    exact fresh.untargeted r hr
  refine ⟨isFree, fresh.notFree, (writeWord_of_page_ne table).trans fresh.zero, writeWord_self ..,
    ?_, fun e' d' va' pte' he' hva found => inv'.lookup_only ?_ ?_ ?_ he' hva found,
    fun e' d' va' q pte' he' found => inv.lookup_kept he' (kept.trans (.writeWord hp)) found⟩
  · show Function.update _ p _ p = _
    rw [Function.update_self, fresh.count]
    rfl
  · intro e' d' i' he' hp'
    cases only (.pde e' i') ((target_pde he').trans hp')
  · intro e' d' i' j' t' he' ht' hp'
    cases only (.pte e' i' j') ((target_pte he' ht').trans hp')
    cases he.symm.trans he'
    rw [show (pm₁.mapPage t j p pteD).mem d = pm₁.mem d from writeWord_of_page_ne dir] at ht'
    cases ht.symm.trans ht'
    rfl
  · intro e' d' k he' hk hk' hp'
    rw [frame.kernelPart e' d' k he' hk] at hp'
    exact absurd hp' (fresh.notKernel e' d' k he' hk hk')

/-- `page_insert` of a page just allocated, where nothing was mapped. -/
theorem PmapInv.pageInsert_fresh (inv : PmapInv dirs pm) (he : dirs e = some d)
    (bounded : ∀ q, refs (target dirs pm.mem) q < 2 ^ 16) (user : pdx va < 509)
    (unmapped : lookup pm.mem d va = none) (hfree : pm.pageFreeList = p :: rest)
    (room : entry (pm.mem d (pdx va)) = none → rest ≠ []) (asid : Word) :
    ∃ pm' t, Mos.pageInsert (pm.take p rest) d asid p va pteD = .ok (pm', .ok ()) ∧
      entry (pm'.mem d (pdx va)) = some t ∧ MapsFresh dirs pm pm' p (t, ptx va) := by
  have isFree : p ∈ pm.pageFreeList := by rw [hfree]; exact List.mem_cons_self
  obtain ⟨taken, -, fresh⟩ := inv.take (e := e) hfree
  have counted : Counted dirs (pm.take p rest) d va := by
    intro q _ _
    rw [inv.target_take hfree]
    exact bounded q
  rcases taken.pageInsert_cases he user counted p asid pteD with
    ⟨t, ht, hp, -⟩ | ⟨pm₁, t, prep, -, run⟩ | ⟨vacant, empty, -⟩
  · exact absurd ((target_pte (i := ⟨_, user⟩) (j := ⟨_, ptx_lt va⟩) he ht).trans hp)
      (fresh.untargeted _)
  · obtain ⟨inv₁, frame, ht, hp⟩ := prep.spec taken he user counted
    have kept : KeepsValid (· ∈ pm.pageFreeList) pm.mem pm₁.mem := by
      refine KeepsValid.trans (.writePage isFree) (prep.keepsValid taken he ?_ fun q hq => ?_)
      · rw [inv.lookup_take he user hfree]
        exact unmapped
      · rw [hfree]
        exact List.mem_cons_of_mem _ hq
    have maps := inv.mapPage_mapsFresh inv₁ (i := ⟨_, user⟩) (j := ⟨_, ptx_lt va⟩) he ht hp isFree
      (fresh.of_frame frame) kept
    refine ⟨_, t, run, ?_, maps⟩
    rw [show (pm₁.mapPage t (ptx va) p pteD).mem d = pm₁.mem d from
      writeWord_of_page_ne (table_ne_dir (i := ⟨_, user⟩) inv₁.excl he ht he)]
    exact ht
  · have dir : d ≠ p := fun eq => fresh.untargeted (.dir e) (he.trans (congrArg some eq))
    have same : (pm.take p rest).mem d = pm.mem d := Function.update_of_ne dir _ _
    rw [same] at vacant
    exact absurd empty (room vacant)

omit [Fintype ε] [DecidableEq ε] in
theorem faultIn_of_ne (hne : ((q, k) : PtePtr) ≠ (d, ptx va)) :
    (pm.faultIn d p rest asid va).mem q k = (pm.take p rest).mem q k := by
  apply writeWord_of_ne
  by_contra same
  push Not at same
  exact hne (Prod.ext same.1 same.2)

omit [DecidableEq ε] in
/-- The page that a fault puts behind an entry is in no page table. -/
theorem PmapInv.faultIn_tables (inv : PmapInv dirs pm) (he : dirs e = some d)
    (hfree : pm.pageFreeList = p :: rest) {e' : ε} {d' : Nat} {i : Fin 509} {j : Fin 1024}
    (he' : dirs e' = some d') (ht : entry ((pm.faultIn d p rest asid va).mem d' i) = some t) :
    entry ((pm.faultIn d p rest asid va).mem t j) ≠ some p := by
  intro hp
  obtain ⟨taken, -, fresh⟩ := inv.take (e := e) hfree
  by_cases here : ((d', (i : Nat)) : PtePtr) = (d, ptx va)
  · obtain ⟨rfl, hi⟩ := Prod.ext_iff.mp here
    have named : entry ((pm.faultIn d' p rest asid va).mem d' (ptx va)) = some p := by
      rw [show (pm.faultIn d' p rest asid va).mem d' (ptx va) = page2pa p ||| pteD ||| pteV from
        writeWord_self ..]
      exact entry_page2pa (inv.page_lt fresh.lt) (by decide)
    have dir : d' ≠ p := fun eq => fresh.untargeted (.dir e) (he.trans (congrArg some eq))
    have zero : (pm.faultIn d' p rest asid va).mem p = fun _ => 0 :=
      (writeWord_of_page_ne dir.symm).trans fresh.zero
    rw [show (i : Nat) = ptx va from hi, named] at ht
    cases ht
    rw [zero] at hp
    cases entry_zero.symm.trans hp
  · rw [faultIn_of_ne here] at ht
    have table : d ≠ t := table_ne_dir taken.excl he' ht he
    rw [faultIn_of_ne fun eq => table (Prod.ext_iff.mp eq).1.symm] at hp
    exact fresh.untargeted (.pte e' i j) ((target_pte he' ht).trans hp)

/-- A fault in the page table window puts an empty table behind the entry. -/
theorem PmapInv.faultIn_mapsFresh (inv : PmapInv dirs pm) (he : dirs e = some d)
    (vacant : entry (pm.mem d (ptx va)) = none) (hfree : pm.pageFreeList = p :: rest)
    (asid : Word) : MapsFresh dirs pm (pm.faultIn d p rest asid va) p (d, ptx va) := by
  have isFree : p ∈ pm.pageFreeList := by rw [hfree]; exact List.mem_cons_self
  obtain ⟨-, -, fresh⟩ := inv.take (e := e) hfree
  have after := (@PmapInv.faultIn _ _ _ _ _ _ _ va _ inv he vacant _ hfree asid).inv
  have dir : d ≠ p := fun eq => fresh.untargeted (.dir e) (he.trans (congrArg some eq))
  have vacant' : entry ((pm.take p rest).mem d (ptx va)) = none := by
    rw [show (pm.take p rest).mem d = pm.mem d from Function.update_of_ne dir _ _]
    exact vacant
  have kept : KeepsValid (· ∈ pm.pageFreeList) pm.mem (pm.faultIn d p rest asid va).mem :=
    KeepsValid.trans (.writePage isFree) (.writeWord vacant')
  have zero : (pm.faultIn d p rest asid va).mem p = fun _ => 0 :=
    (writeWord_of_page_ne dir.symm).trans fresh.zero
  refine ⟨isFree, fresh.notFree, zero, writeWord_self .., ?_,
    fun e' d' va' pte' he' hva found => after.lookup_only ?_ ?_ ?_ he' hva found,
    fun e' d' va' q pte' he' found => inv.lookup_kept he' kept found⟩
  · show Function.update _ p _ p = _
    rw [Function.update_self]
    show ((pm.take p rest).ppRef p + 1 : _) = _
    rw [fresh.count]
    rfl
  · intro e' d' i he' hp
    by_contra hne
    rw [faultIn_of_ne hne] at hp
    exact fresh.untargeted (.pde e' i) ((target_pde he').trans hp)
  · intro e' d' i j t he' ht hp
    exact absurd hp (inv.faultIn_tables he hfree he' ht)
  · intro e' d' k he' hk hk' hp
    by_contra hne
    rw [faultIn_of_ne hne] at hp
    exact fresh.notKernel e' d' k he' hk hk' hp

/-- `passive_alloc` succeeds wherever an address is to be mapped, given the pages. -/
theorem PmapInv.passiveAlloc_fresh (inv : PmapInv dirs pm) (he : dirs e = some d)
    (bounded : ∀ q, refs (target dirs pm.mem) q < 2 ^ 16) (range : Faultable va)
    (unmapped : lookup pm.mem d va = none) (enough : pm.pagesNeeded d va ≤ pm.pageFreeList.length)
    (asid : Word) :
    ∃ pm' p t, Mos.passiveAlloc pm va d asid = .ok pm' ∧ lookup pm'.mem d va = some (p, t) ∧
      MapsFresh dirs pm pm' p t := by
  unfold Pmap.pagesNeeded at enough
  rw [if_neg (not_not.mpr unmapped)] at enough
  obtain ⟨p, rest, hfree⟩ : ∃ p rest, pm.pageFreeList = p :: rest := by
    apply List.exists_cons_of_ne_nil
    intro empty
    rw [empty, List.length_nil] at enough
    split at enough <;> omega
  by_cases window : uvpt ≤ va ∧ va < ulim
  · obtain ⟨lo, hi⟩ := window
    have vacant := (inv.lookup_window_eq_none he lo hi).mp unmapped
    have maps := inv.faultIn_mapsFresh he vacant hfree asid
    have after := (@PmapInv.faultIn _ _ _ _ _ _ _ va _ inv he vacant _ hfree asid).inv
    refine ⟨_, p, _, inv.passiveAlloc_window he lo hi vacant hfree asid,
      lookup_eq_some (after.entry_window he lo hi) ?_, maps⟩
    exact (congrArg entry maps.word).trans (entry_page2pa (inv.page_lt (inv.free_lt p maps.wasFree))
      (by decide))
  · obtain ⟨low, guard, envs, pages, kernel⟩ := range.guards
    have user := pdx_pteAddr_lt_of_guards window envs pages kernel
    have room : entry (pm.mem d (pdx (pteAddr va))) = none → rest ≠ [] := by
      rintro vacant rfl
      rw [pdx_pteAddr] at vacant
      rw [if_pos vacant, hfree, List.length_singleton] at enough
      omega
    obtain ⟨pm', t, run, ht, maps⟩ :=
      @PmapInv.pageInsert_fresh _ _ _ _ _ _ (pteAddr va) _ _ _ inv he bounded
      user (by rw [lookup_pteAddr]; exact unmapped) hfree room asid
    rw [pdx_pteAddr] at ht
    rw [ptx_pteAddr] at maps
    refine ⟨pm', p, _, ?_, lookup_eq_some ht ((congrArg entry maps.word).trans
      (entry_page2pa (inv.page_lt (inv.free_lt p maps.wasFree)) (by decide))), maps⟩
    simp only [Mos.passiveAlloc, if_neg low, if_neg guard, if_neg envs, if_neg pages,
      if_neg kernel, inv.pageAlloc_cons hfree, Bind.bind, Except.bind, run]

end Invariant

variable {s s₀ : Kernel} {x : EnvIx} {b : Boot} {ops : List KernelOp} {fuel : Nat}

/-- In every state the kernel reaches from boot, a refill in the address space of an
env in use ends after one `passive_alloc` at most. The entry it returns is the one
that the page directory then holds for `va`. A refill of a mapped address leaves the
memory as it was; any other maps a fresh page, in the page table window as an empty
page table of the directory, and keeps all translations. -/
theorem refill_transparent (boot : envInit b = .ok s₀) (run : Run kernelStep s₀ ops s)
    (inUse : x ∉ s.envFreeList) (range : Faultable va)
    (enough : s.pm.pagesNeeded (s.envs x).envPgdir va ≤ s.pm.pageFreeList.length) :
    ∃ pm p t, (∀ fuel, s.refill x va (fuel + 2) =
        .ok (some (({ s with curPgdir := some (s.envs x).envPgdir } : Kernel).withPm pm,
          pm.word t))) ∧
      lookup pm.mem (s.envs x).envPgdir va = some (p, t) ∧ (pm.word t).Has pteV ∧
      (uvpt ≤ va → t = ((s.envs x).envPgdir, ptx va)) ∧
      if lookup s.pm.mem (s.envs x).envPgdir va = none then MapsFresh s.dirs s.pm pm p t
      else pm = s.pm := by
  obtain ⟨inv, bounded⟩ := kernelRun_inv boot run
  have hx := Kernel.dirs_of_notMem inUse
  have pmInv := inv.inv.pm
  have found := pageLookup_eq (pmInv.inMemory hx range.lt_ulim)
  cases mapped : lookup s.pm.mem (s.envs x).envPgdir va with
  | some page =>
      obtain ⟨p, t⟩ := page
      refine ⟨s.pm, p, t, fun fuel => ?_, mapped, lookup_valid mapped,
        fun lo => pmInv.lookup_window hx lo range.lt_ulim mapped, rfl⟩
      rw [mapped] at found
      simp only [Kernel.refill, Mos.doTlbRefill, Mos.tlbRefillLoop, found, Bind.bind, Except.bind]
      rfl
  | none =>
      have few : ∀ q, refs (target s.dirs s.pm.mem) q < 2 ^ 16 :=
        fun q => Nat.lt_succ_of_le (bounded q)
      obtain ⟨pm', p, t, alloc, mapped', maps⟩ :=
        pmInv.passiveAlloc_fresh hx few range mapped enough (s.envs x).envAsid
      have after : PmapInv s.dirs pm' := by
        rcases pmInv.passiveAlloc hx few (fun _ => mapped) (s.envs x).envAsid with
          ⟨panic, failed, -⟩ | ⟨pm₁, alloc₁, step⟩
        · cases alloc.symm.trans failed
        · cases alloc.symm.trans alloc₁
          exact step.inv
      refine ⟨pm', p, t, fun fuel => ?_, mapped', lookup_valid mapped',
        fun lo => after.lookup_window hx lo range.lt_ulim mapped', maps⟩
      have found' := pageLookup_eq (after.inMemory hx range.lt_ulim)
      rw [mapped] at found
      rw [mapped'] at found'
      simp only [Kernel.refill, Mos.doTlbRefill, Mos.tlbRefillLoop, found, Bind.bind, Except.bind,
        alloc, found']
      rfl

/-- A fault at `UTEXT` once two envs are created on `smallBoot`. -/
theorem refill_transparent_utext : ∃ s₀ s pm p t, envInit smallBoot = .ok s₀ ∧
    Run kernelStep s₀ tickOps s ∧ (∀ fuel, s.refill 1 0x00400000#32 (fuel + 2) =
        .ok (some (({ s with curPgdir := some (s.envs 1).envPgdir } : Kernel).withPm pm,
          pm.word t))) ∧
      lookup pm.mem (s.envs 1).envPgdir 0x00400000#32 = some (p, t) := by
  obtain ⟨s₀, s, boot, run, current, -, -, -, -, left⟩ := tickOps_run
  obtain ⟨inv, bounded⟩ := kernelRun_inv boot run
  have inUse := (inv.current 1 current).1
  have enough : s.pm.pagesNeeded (s.envs 1).envPgdir 0x00400000#32 ≤ s.pm.pageFreeList.length := by
    refine (pagesNeeded_le ..).trans ?_
    rw [left]
    decide
  obtain ⟨pm, p, t, refill, found, -⟩ := @refill_transparent 0x00400000#32 _ _ _ _ _ boot run inUse
    (by decide) enough
  exact ⟨s₀, s, pm, p, t, boot, run, refill, found⟩

end Mos
