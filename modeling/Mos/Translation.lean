import Mos.KernelRun

/-!
# The translation a mapping call leaves behind

`page_insert` stores the page address or-ed with the permission it is given, and
the three system calls that map a page pass a permission straight from the
caller's registers. The entry therefore names the page, for its own address space
only, exactly when the permission brings no address bits of its own and no
`PTE_G`.
-/

namespace Mos

/-- `va` translates to page `pp`, for accesses with this ASID only. -/
def Translates (pm : Pmap) (d : Nat) (asid va : Word) (pp : Nat) : Prop :=
  va2pa pm d va = .ok (page2pa pp) ∧
  ∀ t, entry (pm.mem d (pdx va)) = some t → ∀ entryhi : Word, (entryhi >>> 6) &&& 0x3f#32 ≠ asid →
    ¬ (TlbEntry.mk (ppn va) asid (pm.mem t (ptx va))).Matches entryhi

/-- The permission adds no bit to the address of the page, and is not global. -/
def Exact (perm : Word) (pp : Nat) : Prop :=
  page2pa pp ||| pteAddr perm = page2pa pp ∧ ¬ perm.Has pteG

/-- The directory `d` is not its own page table for `va`, and if a page table has
to be allocated there, it will not be the page of the directory. -/
structure Addressable (pm : Pmap) (d : Nat) (va : Word) : Prop where
  table_ne : ∀ t, entry (pm.mem d (pdx va)) = some t → t ≠ d
  npage_le : pm.npage ≤ 2 ^ 20
  free_lt : ∀ p ∈ pm.pageFreeList, p < pm.npage
  notFree : entry (pm.mem d (pdx va)) = none → d ∉ pm.pageFreeList

/-- The entry for `va` is `w`. -/
def Maps (pm : Pmap) (d : Nat) (va w : Word) : Prop :=
  ∃ t, entry (pm.mem d (pdx va)) = some t ∧ t < pm.npage ∧ pm.mem t (ptx va) = w

section Insert

variable {pm pm' : Pmap} {d pp t : Nat} {va asid perm : Word}

/-! ## Words -/

theorem pteAddr_page2pa (pp : Nat) : pteAddr (page2pa pp) = page2pa pp := by
  have mask : ∀ i, i < 32 → 12 ≤ i → (~~~0xfff#32).getLsbD i = true := by decide
  apply BitVec.eq_of_getLsbD_eq
  intro i hi
  rw [pteAddr, BitVec.getLsbD_and]
  by_cases low : i < 12
  · have clear : (page2pa pp).getLsbD i = false := by
      simp [page2pa, BitVec.getLsbD_shiftLeft, low]
    rw [clear, Bool.false_and]
  · rw [mask i hi (by omega), Bool.and_true]

theorem pteAddr_or (a b : Word) : pteAddr (a ||| b) = pteAddr a ||| pteAddr b :=
  BitVec.and_or_distrib_right

/-- What `va2pa` reads off an entry that `page_insert` wrote. -/
theorem pteAddr_entry (pp : Nat) (perm : Word) :
    pteAddr (page2pa pp ||| perm ||| pteV) = page2pa pp ||| pteAddr perm := by
  rw [pteAddr_or, pteAddr_or, pteAddr_page2pa, show pteAddr pteV = 0#32 from rfl,
    BitVec.or_zero]

theorem entry_has_pteG (pp : Nat) (perm : Word) :
    (page2pa pp ||| perm ||| pteV).Has pteG ↔ perm.Has pteG := by
  rw [Word.has_or, Word.has_or]
  constructor
  · rintro ((page | global) | valid)
    · exact absurd page (page2pa_not_has (by decide))
    · exact global
    · exact absurd valid (by decide)
  · exact fun global => .inl (.inr global)

/-- The bits of `EntryHi` above the ASID. -/
theorem ppn_entryhi (va : Word) : ppn (pteAddr va ||| 0x40#32) = ppn va := by
  rw [ppn_or, ppn_pteAddr, show ppn 0x40#32 = 0 from rfl, Nat.or_zero]

theorem asid_entryhi (va : Word) :
    (pteAddr va >>> 6) &&& 0x3f#32 = 0 ∧ ((pteAddr va ||| 0x40#32) >>> 6) &&& 0x3f#32 = 1 := by
  have low : ∀ i, i < 6 → (pteAddr va).getLsbD (6 + i) = false := by
    intro i hi
    have mask : ∀ i, i < 12 → (~~~0xfff#32).getLsbD i = false := by decide
    rw [pteAddr, BitVec.getLsbD_and, mask (6 + i) (by omega), Bool.and_false]
  have clear : (pteAddr va >>> 6) &&& 0x3f#32 = 0 := by
    apply BitVec.eq_of_getLsbD_eq
    intro i hi
    have mask : ∀ i, i < 32 → 6 ≤ i → (0x3f#32).getLsbD i = false := by decide
    rw [BitVec.getLsbD_and, BitVec.getLsbD_ushiftRight]
    by_cases small : i < 6
    · rw [low i small]
      simp
    · rw [mask i hi (by omega)]
      simp
  refine ⟨clear, ?_⟩
  rw [BitVec.ushiftRight_or_distrib, BitVec.and_or_distrib_right, clear]
  rfl

/-- A TLB entry is private to its ASID exactly when it is not global. -/
theorem private_iff {lo : Word} :
    (∀ entryhi : Word, (entryhi >>> 6) &&& 0x3f#32 ≠ asid →
      ¬ (TlbEntry.mk (ppn va) asid lo).Matches entryhi) ↔ ¬ lo.Has pteG := by
  constructor
  · intro isPrivate global
    obtain ⟨zero, one⟩ := asid_entryhi va
    by_cases hasid : asid = 0
    · refine isPrivate (pteAddr va ||| 0x40#32) ?_ ⟨(ppn_entryhi va).symm, .inl global⟩
      rw [one, hasid]
      decide
    · refine isPrivate (pteAddr va) ?_ ⟨(ppn_pteAddr va).symm, .inl global⟩
      rw [zero]
      exact fun eq => hasid eq.symm
  · rintro notGlobal entryhi other ⟨-, global | same⟩
    · exact notGlobal global
    · exact other same.symm

/-- An entry written by `page_insert` translates to its page exactly when the
permission is exact. -/
theorem Maps.translates_iff (maps : Maps pm d va (page2pa pp ||| perm ||| pteV)) :
    Translates pm d asid va pp ↔ Exact perm pp := by
  obtain ⟨t, ht, lt, word⟩ := maps
  obtain ⟨valid, rfl⟩ := entry_eq_some_iff.mp ht
  have translation : va2pa pm d va = .ok (page2pa pp ||| pteAddr perm) := by
    simp only [va2pa, if_pos valid, kaddr_pteAddr lt, Bind.bind, Except.bind, word,
      if_pos (entry_valid _ _), pteAddr_entry]
  have onlyTable : (∀ t, entry (pm.mem d (pdx va)) = some t → ∀ entryhi : Word,
      (entryhi >>> 6) &&& 0x3f#32 ≠ asid →
        ¬ (TlbEntry.mk (ppn va) asid (pm.mem t (ptx va))).Matches entryhi) ↔
      ¬ perm.Has pteG := by
    rw [← entry_has_pteG pp perm, ← word, ← @private_iff va asid]
    constructor
    · exact fun h => h _ ht
    · intro h t' ht'
      rw [ht] at ht'
      cases ht'
      exact h
  rw [Translates, Exact, onlyTable, translation, Except.ok.injEq]

/-! ## Page walks -/

theorem pgdirEntry_ok {r : Except Err (Option PtePtr)} (h : pgdirEntry pm d va = .ok (pm', r)) :
    pm' = pm ∧ ppn (pm.mem d (pdx va)) < pm.npage ∧
      r = .ok (some (ppn (pm.mem d (pdx va)), ptx va)) := by
  obtain ⟨pt, kaddr, h⟩ := bind_eq_ok.mp h
  unfold Pmap.kaddr at kaddr
  split at kaddr
  case isTrue lt =>
      cases kaddr
      cases h
      rw [ppn_pteAddr] at lt ⊢
      exact ⟨rfl, lt, rfl⟩
  case isFalse => cases kaddr

/-- A walk that creates nothing changes nothing. -/
theorem pgdirWalk_ok {r : Except Err (Option PtePtr)} (h : pgdirWalk pm d va false = .ok (pm', r)) :
    pm' = pm ∧ ((entry (pm.mem d (pdx va)) = none ∧ r = .ok none) ∨
      ∃ t, entry (pm.mem d (pdx va)) = some t ∧ t < pm.npage ∧ r = .ok (some (t, ptx va))) := by
  unfold pgdirWalk at h
  by_cases valid : (pm.mem d (pdx va)).Has pteV
  · rw [if_pos valid] at h
    obtain ⟨rfl, lt, rfl⟩ := pgdirEntry_ok h
    exact ⟨rfl, .inr ⟨_, entry_of_valid valid, lt, rfl⟩⟩
  · rw [if_neg valid] at h
    cases h
    exact ⟨rfl, .inl ⟨entry_of_not_valid valid, rfl⟩⟩

theorem pageAlloc_ok {r : Except Err Nat} (h : pageAlloc pm = .ok (pm', r)) :
    (pm.pageFreeList = [] ∧ pm' = pm ∧ r = .error .noMem) ∨
    ∃ p rest, pm.pageFreeList = p :: rest ∧ r = .ok p ∧
      pm' = ({ pm with pageFreeList := rest } : Pmap).zeroPage (ppn (page2pa p)) := by
  unfold pageAlloc at h
  cases hfree : pm.pageFreeList with
  | nil =>
      simp only [hfree] at h
      cases h
      exact .inl ⟨rfl, rfl, rfl⟩
  | cons p rest =>
      simp only [hfree] at h
      obtain ⟨kva, page, h⟩ := bind_eq_ok.mp h
      unfold Pmap.page2kva Pmap.kaddr at page
      split at page
      · cases page
        cases h
        exact .inr ⟨p, rest, rfl, rfl, rfl⟩
      · cases page

theorem pageDecref_ok {p : Nat} (h : pageDecref pm p = .ok pm') :
    pm'.mem = pm.mem ∧ pm'.npage = pm.npage ∧
      ∀ q ∈ pm'.pageFreeList, q = p ∨ q ∈ pm.pageFreeList := by
  unfold pageDecref at h
  by_cases counted : 0 < pm.ppRef p
  · simp only [if_pos counted] at h
    by_cases last : (pm.setRef p (pm.ppRef p - 1)).ppRef p = 0
    · rw [if_pos last, pageFree, if_pos last] at h
      cases h
      exact ⟨rfl, rfl, fun q hq => List.mem_cons.mp hq⟩
    · rw [if_neg last] at h
      cases h
      exact ⟨rfl, rfl, fun q hq => .inr hq⟩
  · rw [if_neg counted] at h
    cases h

theorem pageLookup_ok {found : Option (Nat × PtePtr)} (ht : entry (pm.mem d (pdx va)) = some t)
    (h : pageLookup pm d va = .ok found) :
    found = none ∨ ∃ p, p < pm.npage ∧ found = some (p, (t, ptx va)) := by
  obtain ⟨⟨pm₁, r⟩, walk, h⟩ := bind_eq_ok.mp h
  obtain ⟨rfl, ⟨vacant, -⟩ | ⟨t', ht', -, rfl⟩⟩ := pgdirWalk_ok walk
  · rw [ht] at vacant
    cases vacant
  · rw [ht] at ht'
    cases ht'
    simp only at h
    split at h
    · obtain ⟨p, page, h⟩ := bind_eq_ok.mp h
      cases h
      unfold Pmap.pa2page at page
      split at page
      case isTrue lt =>
          cases page
          exact .inr ⟨_, lt, rfl⟩
      case isFalse => cases page
    · cases h
      exact .inl rfl

/-- `page_remove` clears at most the entry for `va`. -/
theorem pageRemove_ok (ht : entry (pm.mem d (pdx va)) = some t)
    (h : pageRemove pm d asid va = .ok pm') :
    (∃ w, pm'.mem = writeWord pm.mem t (ptx va) w) ∧ pm'.npage = pm.npage ∧
      ∀ q ∈ pm'.pageFreeList, q < pm.npage ∨ q ∈ pm.pageFreeList := by
  obtain ⟨found, lookup, h⟩ := bind_eq_ok.mp h
  rcases pageLookup_ok ht lookup with rfl | ⟨p, lt, rfl⟩
  · cases h
    exact ⟨⟨pm.mem t (ptx va), by simp [writeWord]⟩, rfl, fun q hq => .inr hq⟩
  · obtain ⟨pm₁, decref, h⟩ := bind_eq_ok.mp h
    cases h
    obtain ⟨mem, npage, free⟩ := pageDecref_ok decref
    refine ⟨⟨0, ?_⟩, npage, fun q hq => ?_⟩
    · show writeWord pm₁.mem t (ptx va) 0 = _
      rw [mem]
    · rcases free q hq with rfl | hq
      · exact .inl lt
      · exact .inr hq

section Addressable

variable (sane : Addressable pm d va)

include sane

/-- A walk that may create a table ends in one, or runs out of memory for it. -/
theorem Addressable.pgdirWalk {r : Except Err (Option PtePtr)}
    (h : Mos.pgdirWalk pm d va true = .ok (pm', r)) :
    (entry (pm.mem d (pdx va)) = none ∧ pm.pageFreeList = [] ∧ pm' = pm ∧ r = .error .noMem) ∨
    ((entry (pm.mem d (pdx va)) = none → pm.pageFreeList ≠ []) ∧
      ∃ t, r = .ok (some (t, ptx va)) ∧ entry (pm'.mem d (pdx va)) = some t ∧ t < pm'.npage ∧
        t ≠ d) := by
  unfold Mos.pgdirWalk at h
  by_cases valid : (pm.mem d (pdx va)).Has pteV
  · rw [if_pos valid] at h
    obtain ⟨rfl, lt, rfl⟩ := pgdirEntry_ok h
    have ht := entry_of_valid valid
    refine .inr ⟨fun none => ?_, _, rfl, ht, lt, sane.table_ne _ ht⟩
    rw [ht] at none
    cases none
  · rw [if_neg valid] at h
    have vacant := entry_of_not_valid valid
    obtain ⟨⟨pm₁, found⟩, alloc, h⟩ := bind_eq_ok.mp h
    rcases pageAlloc_ok alloc with ⟨hfree, rfl, rfl⟩ | ⟨p, rest, hfree, rfl, rfl⟩
    · cases h
      exact .inl ⟨vacant, hfree, rfl, rfl⟩
    · have isFree : p ∈ pm.pageFreeList := by rw [hfree]; exact List.mem_cons_self
      obtain ⟨rfl, lt, rfl⟩ := pgdirEntry_ok h
      have word : ∀ s : Pmap, (s.setWord (d, pdx va) (page2pa p ||| pteD ||| pteV)).mem d
          (pdx va) = page2pa p ||| pteD ||| pteV := fun s => writeWord_self ..
      have name : ppn (page2pa p ||| pteD ||| pteV) = p :=
        ppn_entry (Nat.lt_of_lt_of_le (sane.free_lt p isFree) sane.npage_le) (by decide)
      refine .inr ⟨fun _ => by simp [hfree], _, rfl, ?_, lt, ?_⟩
      · exact entry_of_valid ((word _).symm ▸ entry_valid _ _)
      · intro eq
        have same : p = d := name.symm.trans ((congrArg ppn (word _)).symm.trans eq)
        exact sane.notFree vacant (same ▸ isFree)

/-- The last steps of `page_insert` write the entry, or run out of memory for its
table. -/
theorem Addressable.pageInsertNew {r : Except Err Unit}
    (h : Mos.pageInsertNew pm d asid pp va perm = .ok (pm', r)) :
    (entry (pm.mem d (pdx va)) = none ∧ pm.pageFreeList = [] ∧ pm' = pm.tlbInvalidate asid va ∧
      r = .error .noMem) ∨
    ((entry (pm.mem d (pdx va)) = none → pm.pageFreeList ≠ []) ∧ r = .ok () ∧
      Maps pm' d va (page2pa pp ||| perm ||| pteV)) := by
  obtain ⟨⟨pm₁, found⟩, walk, h⟩ := bind_eq_ok.mp h
  have sane' : Addressable (pm.tlbInvalidate asid va) d va :=
    ⟨sane.table_ne, sane.npage_le, sane.free_lt, sane.notFree⟩
  rcases sane'.pgdirWalk walk with ⟨vacant, hfree, rfl, rfl⟩ | ⟨room, t, rfl, ht, lt, hne⟩
  · cases h
    exact .inl ⟨vacant, hfree, rfl, rfl⟩
  · cases h
    refine .inr ⟨room, rfl, t, ?_, lt, writeWord_self ..⟩
    show entry (writeWord pm₁.mem t (ptx va) _ d (pdx va)) = some t
    rw [writeWord_of_page_ne hne.symm]
    exact ht

theorem Addressable.pageInsert {r : Except Err Unit}
    (h : Mos.pageInsert pm d asid pp va perm = .ok (pm', r)) :
    (entry (pm.mem d (pdx va)) = none ∧ pm.pageFreeList = [] ∧ pm' = pm.tlbInvalidate asid va ∧
      r = .error .noMem) ∨
    ((entry (pm.mem d (pdx va)) = none → pm.pageFreeList ≠ []) ∧ r = .ok () ∧
      Maps pm' d va (page2pa pp ||| perm ||| pteV)) := by
  obtain ⟨⟨pm₁, found⟩, walk, h⟩ := bind_eq_ok.mp h
  obtain ⟨rfl, ⟨vacant, rfl⟩ | ⟨t, ht, lt, rfl⟩⟩ := pgdirWalk_ok walk
  · exact sane.pageInsertNew h
  · have hne := sane.table_ne t ht
    have present : entry (pm₁.mem d (pdx va)) = none → pm₁.pageFreeList ≠ [] := by
      intro none
      rw [ht] at none
      cases none
    simp only at h
    split at h
    · obtain ⟨page, lookup, h⟩ := bind_eq_ok.mp h
      split at h
      · -- the page mapped there is removed first, and its table stays
        obtain ⟨pm₂, remove, h⟩ := bind_eq_ok.mp h
        obtain ⟨⟨w, mem⟩, npage, free⟩ := pageRemove_ok ht remove
        have ht₂ : entry (pm₂.mem d (pdx va)) = some t := by
          rw [mem, writeWord_of_page_ne hne.symm]
          exact ht
        have sane₂ : Addressable pm₂ d va := by
          refine ⟨fun t' ht' => ?_, npage ▸ sane.npage_le, fun q hq => ?_, fun none => ?_⟩
          · rw [ht₂] at ht'
            cases ht'
            exact hne
          · rw [npage]
            exact (free q hq).elim id (sane.free_lt q)
          · rw [ht₂] at none
            cases none
        rcases sane₂.pageInsertNew h with ⟨none, -⟩ | ⟨-, rfl, maps⟩
        · rw [ht₂] at none
          cases none
        · exact .inr ⟨present, rfl, maps⟩
      · cases h
        refine .inr ⟨present, rfl, t, ?_, lt, writeWord_self ..⟩
        show entry (writeWord pm₁.mem t (ptx va) _ d (pdx va)) = some t
        rw [writeWord_of_page_ne hne.symm]
        exact ht
    · exact sane.pageInsertNew h

/-- `page_insert` leaves the translation asked for exactly when the permission is
exact and memory for the page table does not run out. -/
theorem Addressable.translates_iff {r : Except Err Unit}
    (h : Mos.pageInsert pm d asid pp va perm = .ok (pm', r)) :
    Translates pm' d asid va pp ↔
      Exact perm pp ∧ (entry (pm.mem d (pdx va)) = none → pm.pageFreeList ≠ []) := by
  rcases sane.pageInsert h with ⟨vacant, hfree, rfl, rfl⟩ | ⟨room, rfl, maps⟩
  · constructor
    · rintro ⟨translation, -⟩
      have invalid : ¬ ((pm.tlbInvalidate asid va).mem d (pdx va)).Has pteV :=
        entry_eq_none_iff.mp vacant
      rw [va2pa, if_neg invalid, Except.ok.injEq] at translation
      have low : ¬ (page2pa pp).Has 1#32 := page2pa_not_has (by decide)
      rw [← translation] at low
      exact absurd (by decide) low
    · rintro ⟨-, room⟩
      exact absurd hfree (room vacant)
  · rw [maps.translates_iff, and_iff_left room]

end Addressable

end Insert

/-! ## The calls that map a page -/

inductive MapCall
  | memAlloc (envid va perm : Word)
  | memMap (srcid srcva dstid dstva perm : Word)
  | ipcTrySend (envid value srcva perm : Word)

def MapCall.exec (s : Kernel) : MapCall → Except Panic (Kernel × Ret)
  | .memAlloc envid va perm => sysMemAlloc s envid va perm
  | .memMap srcid srcva dstid dstva perm => sysMemMap s srcid srcva dstid dstva perm
  | .ipcTrySend envid value srcva perm => sysIpcTrySend s envid value srcva perm

def MapCall.perm : MapCall → Word
  | .memAlloc _ _ perm => perm
  | .memMap _ _ _ _ perm => perm
  | .ipcTrySend _ _ _ perm => perm

/-- The call asks for page `pp` at `va` in the env `e`: the next free page, or the
page mapped at `srcva`. -/
def MapCall.Asks (s : Kernel) (e : EnvIx) (va : Word) (pp : Nat) : MapCall → Prop
  | .memAlloc envid dstva _ =>
      envid2env s envid true = .ok (.ok e) ∧ dstva = va ∧ s.pm.pageFreeList.head? = some pp
  | .memMap srcid srcva dstid dstva _ =>
      envid2env s dstid true = .ok (.ok e) ∧ dstva = va ∧
        ∃ src pte, envid2env s srcid true = .ok (.ok src) ∧
          pageLookup s.pm (s.envs src).envPgdir srcva = .ok (some (pp, pte))
  | .ipcTrySend envid _ srcva _ =>
      srcva ≠ 0 ∧ envid2env s envid false = .ok (.ok e) ∧ (s.envs e).envIpcDstva = va ∧
        ∃ cur pte, s.curenv = some cur ∧
          pageLookup s.pm (s.envs cur).envPgdir srcva = .ok (some (pp, pte))

/-- `sys_ipc_try_send` does not look at what `page_insert` returns: a page is left
if the receiver needs a page table. -/
def MapCall.HasRoom (s : Kernel) (e : EnvIx) (va : Word) : MapCall → Prop
  | .ipcTrySend .. =>
      entry (s.pm.mem (s.envs e).envPgdir (pdx va)) = none → s.pm.pageFreeList ≠ []
  | _ => True

section Calls

variable {s s' : Kernel} {e cur : EnvIx} {envid va perm : Word} {pp : Nat}

theorem zeroRet_ok {r : Except Err Unit} (h : zeroRet r = .ok 0) : r = .ok () := by
  cases r with
  | error err => cases h
  | ok _ => rfl

theorem sysMemAlloc_translates (sane : Addressable s.pm (s.envs e).envPgdir va)
    (notFree : (s.envs e).envPgdir ∉ s.pm.pageFreeList)
    (asks : (MapCall.memAlloc envid va perm).Asks s e va pp)
    (h : sysMemAlloc s envid va perm = .ok (s', .ok 0)) :
    Translates s'.pm (s'.envs e).envPgdir (s'.envs e).envAsid va pp ↔ Exact perm pp := by
  obtain ⟨lookup, -, head⟩ := asks
  unfold sysMemAlloc at h
  split at h
  · cases h
  · simp only [lookup, Bind.bind, Except.bind] at h
    cases alloc : pageAlloc s.pm with
    | error panic => simp [alloc] at h
    | ok result =>
        obtain ⟨pm, r⟩ := result
        simp only [alloc] at h
        rcases pageAlloc_ok alloc with ⟨hfree, -, -⟩ | ⟨p, rest, hfree, rfl, rfl⟩
        · rw [hfree] at head
          cases head
        · rw [hfree] at head
          cases head
          have isFree : pp ∈ s.pm.pageFreeList := by rw [hfree]; exact List.mem_cons_self
          have name : ppn (page2pa pp) = pp :=
            ppn_page2pa (Nat.lt_of_lt_of_le (sane.free_lt pp isFree) sane.npage_le)
          have hne : (s.envs e).envPgdir ≠ pp := fun eq => notFree (eq ▸ isFree)
          simp only [name, tryRet] at h
          have same : (({ s.pm with pageFreeList := rest } : Pmap).zeroPage pp).mem
              (s.envs e).envPgdir = s.pm.mem (s.envs e).envPgdir := Function.update_of_ne hne _ _
          have sub : ∀ q ∈ rest, q ∈ s.pm.pageFreeList := fun q hq => by
            rw [hfree]
            exact List.mem_cons_of_mem _ hq
          have sane₁ : Addressable (({ s.pm with pageFreeList := rest } : Pmap).zeroPage pp)
              (s.envs e).envPgdir va :=
            ⟨by rw [same]; exact sane.table_ne, sane.npage_le,
              fun q hq => sane.free_lt q (sub q hq), fun _ hq => notFree (sub _ hq)⟩
          cases insert : pageInsert (({ s.pm with pageFreeList := rest } : Pmap).zeroPage pp)
              (s.envs e).envPgdir (s.envs e).envAsid pp va perm with
          | error panic => simp [insert] at h
          | ok inserted =>
              obtain ⟨pm', r⟩ := inserted
              simp only [insert, Except.ok.injEq, Prod.mk.injEq] at h
              obtain ⟨rfl, hr⟩ := h
              cases zeroRet_ok hr
              rcases sane₁.pageInsert insert with ⟨-, -, -, failed⟩ | ⟨-, -, maps⟩
              · cases failed
              · exact maps.translates_iff

theorem sysMemMap_translates {srcid srcva dstid : Word}
    (sane : Addressable s.pm (s.envs e).envPgdir va)
    (asks : (MapCall.memMap srcid srcva dstid va perm).Asks s e va pp)
    (h : sysMemMap s srcid srcva dstid va perm = .ok (s', .ok 0)) :
    Translates s'.pm (s'.envs e).envPgdir (s'.envs e).envAsid va pp ↔ Exact perm pp := by
  obtain ⟨lookup, -, src, pte, source, page⟩ := asks
  unfold sysMemMap at h
  split at h
  · cases h
  · simp only [source, lookup, page, Bind.bind, Except.bind] at h
    cases insert : pageInsert s.pm (s.envs e).envPgdir (s.envs e).envAsid pp va perm with
    | error panic => simp [insert] at h
    | ok inserted =>
        obtain ⟨pm', r⟩ := inserted
        simp only [insert, Except.ok.injEq, Prod.mk.injEq] at h
        obtain ⟨rfl, hr⟩ := h
        cases zeroRet_ok hr
        rcases sane.pageInsert insert with ⟨-, -, -, failed⟩ | ⟨-, -, maps⟩
        · cases failed
        · exact maps.translates_iff

theorem sysIpcTrySend_translates {value srcva : Word}
    (sane : Addressable s.pm (s.envs e).envPgdir va)
    (asks : (MapCall.ipcTrySend envid value srcva perm).Asks s e va pp)
    (h : sysIpcTrySend s envid value srcva perm = .ok (s', .ok 0)) :
    Translates s'.pm (s'.envs e).envPgdir (s'.envs e).envAsid va pp ↔
      Exact perm pp ∧ (MapCall.ipcTrySend envid value srcva perm).HasRoom s e va := by
  obtain ⟨carries, lookup, rfl, cur, pte, hcur, page⟩ := asks
  have current : s.current = .ok cur := by rw [Kernel.current, hcur]
  unfold sysIpcTrySend at h
  split at h
  · cases h
  · simp only [lookup, tryRet, Bind.bind, Except.bind, current] at h
    split at h
    · cases h
    · -- the message is delivered before the page is mapped
      have field : ∀ {α : Type} (field : Env → α), (∀ env value id perm, field { env with
          envIpcValue := value, envIpcFrom := id, envIpcPerm := perm, envIpcRecving := 0,
          envStatus := .runnable } = field env) → ∀ x,
            field ((ipcDeliver s cur e value perm).envs x) = field (s.envs x) := by
        intro α field same x
        refine Kernel.setEnv_field (f := fun env => { env with
          envIpcValue := value, envIpcFrom := (s.envs cur).envId, envIpcPerm := pteV ||| perm,
          envIpcRecving := 0, envStatus := .runnable }) field ?_ x
        exact same _ _ _ _
      have pgdir := field Env.envPgdir fun _ _ _ _ => rfl
      have asid := field Env.envAsid fun _ _ _ _ => rfl
      have dstva := field Env.envIpcDstva fun _ _ _ _ => rfl
      unfold ipcTransfer at h
      rw [if_neg carries, pgdir, pgdir, asid, dstva] at h
      simp only [show (ipcDeliver s cur e value perm).pm = s.pm from rfl, page, Bind.bind,
        Except.bind] at h
      cases insert : pageInsert s.pm (s.envs e).envPgdir (s.envs e).envAsid pp
          (s.envs e).envIpcDstva perm with
      | error panic => simp [insert] at h
      | ok inserted =>
          obtain ⟨pm', r⟩ := inserted
          simp only [insert, Except.ok.injEq, Prod.mk.injEq, and_true] at h
          subst h
          show Translates pm' ((ipcDeliver s cur e value perm).envs e).envPgdir
            ((ipcDeliver s cur e value perm).envs e).envAsid _ pp ↔ _
          rw [pgdir, asid]
          exact sane.translates_iff insert

/-- A successful call that maps a page leaves the translation asked for, in the
address space of its env only, exactly when its permission is exact and, for a page
sent by IPC, memory for the page table is left. -/
theorem mapping_exact_iff {call : MapCall} (sane : Addressable s.pm (s.envs e).envPgdir va)
    (notFree : (s.envs e).envPgdir ∉ s.pm.pageFreeList) (asks : call.Asks s e va pp)
    (h : call.exec s = .ok (s', .ok 0)) :
    Translates s'.pm (s'.envs e).envPgdir (s'.envs e).envAsid va pp ↔
      Exact call.perm pp ∧ call.HasRoom s e va := by
  cases call with
  | memAlloc envid dstva perm =>
      obtain ⟨lookup, rfl, head⟩ := asks
      exact (sysMemAlloc_translates sane notFree ⟨lookup, rfl, head⟩ h).trans
        (and_iff_left trivial).symm
  | memMap srcid srcva dstid dstva perm =>
      obtain ⟨lookup, rfl, source⟩ := asks
      exact (sysMemMap_translates sane ⟨lookup, rfl, source⟩ h).trans (and_iff_left trivial).symm
  | ipcTrySend envid value srcva perm => exact sysIpcTrySend_translates sane asks h

section Live

variable (inv : LiveInv s)

include inv

/-- In a kernel whose invariant holds the directory of an env in use is neither
free nor its own page table below `UTOP`. -/
theorem LiveInv.addressable (he : e ∉ s.envFreeList) (hva : va < utop) :
    Addressable s.pm (s.envs e).envPgdir va ∧ (s.envs e).envPgdir ∉ s.pm.pageFreeList := by
  have hd := Kernel.dirs_of_notMem he
  have notFree : (s.envs e).envPgdir ∉ s.pm.pageFreeList := fun mem =>
    inv.inv.pm.store.free_untargeted _ mem (.dir e) hd
  exact ⟨⟨fun t ht => (table_ne_dir (i := ⟨_, pdx_lt_of_lt_utop hva⟩) inv.inv.pm.excl hd ht
    hd).symm, inv.inv.pm.npage_le, inv.inv.pm.free_lt, fun _ => notFree⟩, notFree⟩

/-- With two pages left `sys_mem_alloc` succeeds, whatever permission it is given. -/
theorem LiveInv.sysMemAlloc_eq {p q : Nat} {rest : List Nat} (bounded : Bounded s)
    (legal : ¬ isIllegalVa va) (lookup : Mos.envid2env s envid true = .ok (.ok e))
    (hfree : s.pm.pageFreeList = p :: q :: rest) (perm : Word) :
    ∃ pm, Mos.sysMemAlloc s envid va perm = .ok (s.withPm pm, .ok 0) := by
  have hd := Kernel.dirs_of_notMem (inv.envid2env lookup)
  obtain ⟨taken, -, -⟩ := inv.inv.pm.take (e := e) hfree
  have counted : Counted s.dirs (s.pm.take p (q :: rest)) (s.envs e).envPgdir va := by
    intro x _ _
    rw [inv.inv.pm.target_take hfree]
    exact Nat.lt_succ_of_le (bounded x)
  have inserted : ∃ pm, pageInsert (s.pm.take p (q :: rest)) (s.envs e).envPgdir
      (s.envs e).envAsid p va perm = .ok (pm, .ok ()) := by
    rcases taken.pageInsert_cases hd (pdx_lt_of_lt_utop (lt_utop_of_legal legal)) counted p
        (s.envs e).envAsid perm with ⟨t, -, -, run⟩ | ⟨pm₁, t, -, -, run⟩ | ⟨-, empty, -⟩
    · exact ⟨_, run⟩
    · exact ⟨_, run⟩
    · cases (show q :: rest = [] from empty)
  obtain ⟨pm, run⟩ := inserted
  refine ⟨pm, ?_⟩
  simp only [Mos.sysMemAlloc, if_neg legal, lookup, inv.inv.pm.pageAlloc_cons hfree, tryRet, run,
    Bind.bind, Except.bind]
  rfl

end Live

end Calls

/-- The env that runs on `smallBoot` can map a page with any permission. -/
theorem smallBoot_memAlloc (perm : Word) : ∃ s₀ s s', envInit smallBoot = .ok s₀ ∧
    Run kernelStep s₀ tickOps s ∧ Addressable s.pm (s.envs 1).envPgdir 0x400000 ∧
    (s.envs 1).envPgdir ∉ s.pm.pageFreeList ∧
    (MapCall.memAlloc 0 0x400000 perm).Asks s 1 0x400000 330 ∧
    (MapCall.memAlloc 0 0x400000 perm).exec s = .ok (s', .ok 0) := by
  obtain ⟨s₀, s, boot, run, hcur, -, -, -, -, left⟩ := tickOps_run
  obtain ⟨inv, bounded⟩ := kernelRun_inv boot run
  have lookup : envid2env s 0 true = .ok (.ok 1) := by
    simp [envid2env, Kernel.current, hcur, Bind.bind, Except.bind]
  obtain ⟨sane, notFree⟩ := @LiveInv.addressable _ _ 0x400000 inv (inv.current 1 hcur).1 (by decide)
  have free : s.pm.pageFreeList = 330 :: 329 :: (List.range' 313 16).reverse := by
    rw [left]
    decide
  obtain ⟨pm, alloc⟩ := @LiveInv.sysMemAlloc_eq _ _ _ 0x400000 inv _ _ _ bounded (by decide) lookup
    free perm
  exact ⟨s₀, s, s.withPm pm, boot, run, sane, notFree, ⟨lookup, rfl, by rw [free]; rfl⟩, alloc⟩

theorem mapping_exact_iff_pteD : ∃ s s', (MapCall.memAlloc 0 0x400000 pteD).exec s =
    .ok (s', .ok 0) ∧ Translates s'.pm (s'.envs 1).envPgdir (s'.envs 1).envAsid 0x400000 330 := by
  obtain ⟨s₀, s, s', -, -, sane, notFree, asks, run⟩ := smallBoot_memAlloc pteD
  refine ⟨s, s', run, (mapping_exact_iff sane notFree asks run).mpr ⟨⟨?_, ?_⟩, trivial⟩⟩
  · decide
  · decide

/-- A page mapped with `PTE_G` is visible in every address space. -/
theorem mapping_not_exact : ¬ ∀ (b : Boot) (s₀ s s' : Kernel) (ops : List KernelOp)
    (call : MapCall) (e : EnvIx) (va : Word) (pp : Nat), envInit b = .ok s₀ →
      Run kernelStep s₀ ops s → call.Asks s e va pp → call.exec s = .ok (s', .ok 0) →
        Translates s'.pm (s'.envs e).envPgdir (s'.envs e).envAsid va pp := by
  intro always
  obtain ⟨s₀, s, s', boot, run, sane, notFree, asks, call⟩ := smallBoot_memAlloc pteG
  have translates := always _ _ _ _ _ _ _ _ _ boot run asks call
  have exact' := (sysMemAlloc_translates sane notFree asks call).mp translates
  exact exact'.2 (by decide)

end Mos
