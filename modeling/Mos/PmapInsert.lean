import Mos.PmapInv

/-!
# Inserting a page

`page_insert` either changes the permission of a page mapped at the address
already, or gets the entry ready (`Prepared`: a page mapped there is removed, a
missing page table is installed) and then maps the page.
-/

namespace Mos

variable {ε : Type} {dirs : ε → Option Nat} {s s₁ : Pmap} {e : ε} {d t p pp : Nat}
  {i : Fin 509} {va asid perm : Word}

/-! ## Inserting a page -/

theorem Frame.tlbInvalidate (dirs : ε → Option Nat) (e : ε) (s : Pmap) (asid va : Word) :
    Frame dirs e noPage s (s.tlbInvalidate asid va) :=
  .of_subset rfl (fun _ hq => .inl hq) (fun r _ hr => .inr (.inr ⟨r, hr⟩))
    (fun _ _ _ => ⟨rfl, rfl⟩) (fun _ _ _ _ _ => rfl) fun _ _ _ _ => ⟨rfl, fun _ _ _ => rfl⟩

/-- What `page_insert` does to `s` before it writes the entry for `va`, which
then lies in page table `t` and is not valid. -/
inductive Prepared (s : Pmap) (d : Nat) (asid va : Word) : Pmap → Nat → Prop
  | table {t : Nat} : entry (s.mem d (pdx va)) = some t → entry (s.mem t (ptx va)) = none →
      Prepared s d asid va (s.tlbInvalidate asid va) t
  | newTable {p : Nat} {rest : List Nat} : entry (s.mem d (pdx va)) = none →
      s.pageFreeList = p :: rest →
      Prepared s d asid va (((s.tlbInvalidate asid va).take p rest).install d (pdx va) p) p
  | removed {t q : Nat} : entry (s.mem d (pdx va)) = some t → entry (s.mem t (ptx va)) = some q →
      Prepared s d asid va
        (((s.unmap q t (ptx va)).tlbInvalidate asid va).tlbInvalidate asid va) t

theorem pageInsertNew_eq (ht : entry (s.mem d (pdx va)) = some t) (lt : t < s.npage) :
    pageInsertNew s d asid pp va perm =
      .ok ((s.tlbInvalidate asid va).mapPage t (ptx va) pp perm, .ok ()) := by
  have walk : pgdirWalk (s.tlbInvalidate asid va) d va true = _ := pgdirWalk_some ht lt
  simp only [pageInsertNew, walk]
  rfl

/-- Where the page is mapped already, `page_insert` rewrites the entry. -/
theorem pageInsert_mapped (inside : InMemory s d va) (ht : entry (s.mem d (pdx va)) = some t)
    (hp : entry (s.mem t (ptx va)) = some pp) : pageInsert s d asid pp va perm =
      .ok ((s.tlbInvalidate asid va).remap t (ptx va) pp perm, .ok ()) := by
  obtain ⟨lt, mapped⟩ := inside t ht
  have walk : pgdirWalk s d va false = _ := pgdirWalk_some ht lt
  obtain ⟨valid, hppn⟩ := entry_eq_some_iff.mp hp
  have valid' : (s.word (t, ptx va)).Has pteV := valid
  have page : s.pa2page (s.word (t, ptx va)) = .ok pp := by
    simp only [Pmap.pa2page, show ppn (s.word (t, ptx va)) = pp from hppn, if_pos (mapped pp hp)]
  simp only [pageInsert, walk, Bind.bind, Except.bind, if_pos valid', page, ne_eq,
    not_true_eq_false, if_false]
  rfl

/-- `page_insert` changes the permission of a page mapped at `va` already, maps
the page, or runs out of memory for a page table. -/
theorem pageInsert_cases (npage_le : s.npage ≤ 2 ^ 20) (free_lt : ∀ p ∈ s.pageFreeList, p < s.npage)
    (inside : InMemory s d va) (apart : ∀ t, entry (s.mem d (pdx va)) = some t → d ≠ t)
    (counted : ∀ q pte, lookup s.mem d va = some (q, pte) → s.ppRef q ≠ 0)
    (pp : Nat) (asid perm : Word) :
    (∃ t, entry (s.mem d (pdx va)) = some t ∧ entry (s.mem t (ptx va)) = some pp ∧
      pageInsert s d asid pp va perm =
        .ok ((s.tlbInvalidate asid va).remap t (ptx va) pp perm, .ok ())) ∨
    (∃ s₁ t, Prepared s d asid va s₁ t ∧ (∀ pte, lookup s.mem d va ≠ some (pp, pte)) ∧
      pageInsert s d asid pp va perm = .ok (s₁.mapPage t (ptx va) pp perm, .ok ())) ∨
    (entry (s.mem d (pdx va)) = none ∧ s.pageFreeList = [] ∧
      pageInsert s d asid pp va perm = .ok (s.tlbInvalidate asid va, .error .noMem)) := by
  cases ht : entry (s.mem d (pdx va)) with
  | none =>
      have unmapped : ∀ pte, lookup s.mem d va ≠ some (pp, pte) := by simp [lookup, ht]
      have start : pageInsert s d asid pp va perm = pageInsertNew s d asid pp va perm := by
        simp only [pageInsert, pgdirWalk_none ht]
        rfl
      rw [start]
      cases hfree : s.pageFreeList with
      | nil =>
          refine .inr (.inr ⟨rfl, rfl, ?_⟩)
          have alloc : pageAlloc (s.tlbInvalidate asid va) = _ := pageAlloc_nil hfree
          have invalid : ¬ ((s.tlbInvalidate asid va).mem d (pdx va)).Has pteV :=
            entry_eq_none_iff.mp ht
          simp only [pageInsertNew, pgdirWalk, if_neg invalid, alloc]
          rfl
      | cons p rest =>
          refine .inr (.inl ⟨_, p, .newTable ht hfree, unmapped, ?_⟩)
          have lt := free_lt p (by rw [hfree]; exact List.mem_cons_self)
          have walk : pgdirWalk (s.tlbInvalidate asid va) d va true = _ :=
            pgdirWalk_create npage_le ht hfree lt
          simp only [pageInsertNew, walk]
          rfl
  | some t =>
      obtain ⟨lt, mapped⟩ := inside t ht
      have walk : pgdirWalk s d va false = _ := pgdirWalk_some ht lt
      cases hq : entry (s.mem t (ptx va)) with
      | none =>
          have invalid : ¬ (s.word (t, ptx va)).Has pteV := entry_eq_none_iff.mp hq
          refine .inr (.inl ⟨_, t, .table ht hq, by simp [lookup_eq_none ht hq], ?_⟩)
          simp only [pageInsert, walk, Bind.bind, Except.bind, if_neg invalid]
          exact pageInsertNew_eq ht lt
      | some q =>
          obtain ⟨valid, hppn⟩ := entry_eq_some_iff.mp hq
          have valid' : (s.word (t, ptx va)).Has pteV := valid
          have page : s.pa2page (s.word (t, ptx va)) = .ok q := by
            simp only [Pmap.pa2page, show ppn (s.word (t, ptx va)) = q from hppn,
              if_pos (mapped q hq)]
          rcases eq_or_ne q pp with rfl | hne
          · exact .inl ⟨t, rfl, hq, pageInsert_mapped inside ht hq⟩
          · refine .inr (.inl ⟨_, t, .removed ht hq, ?_, ?_⟩)
            · rw [lookup_eq_some ht hq]
              simp [hne]
            · have count := counted q _ (lookup_eq_some ht hq)
              have still : entry ((s.unmap q t (ptx va)).mem d (pdx va)) = some t := by
                show entry (writeWord s.mem t (ptx va) 0 d (pdx va)) = _
                rw [writeWord_of_page_ne (apart t ht)]
                exact ht
              simp only [pageInsert, walk, Bind.bind, Except.bind, if_pos valid', page, ne_eq,
                hne, not_false_eq_true, if_true, pageRemove_mapped inside ht hq count]
              exact pageInsertNew_eq still lt

variable [Fintype ε]

theorem PmapInv.tlbInvalidate (inv : PmapInv dirs s) (asid va : Word) :
    PmapInv dirs (s.tlbInvalidate asid va) where
  store := inv.store
  tablesWritable := inv.tablesWritable
  npage_le := inv.npage_le
  free_lt := inv.free_lt
  target_lt := inv.target_lt
  selfMap := inv.selfMap
  window e d k he hk hk' hne valid := by
    have table := inv.window e d k he hk hk' hne valid
    exact ⟨table.writable, table.lt, ⟨table.bystander.notFree, table.bystander.untargeted⟩,
      table.readOnly, table.inside⟩

/-- The page mapped at `va`, by `e` whose directory is `d`, has not been mapped
more often than its count can tell. -/
def Counted (dirs : ε → Option Nat) (s : Pmap) (d : Nat) (va : Word) : Prop :=
  ∀ q pte, lookup s.mem d va = some (q, pte) → refs (target dirs s.mem) q < 2 ^ 16

theorem lt_ulim_of_pdx_lt (user : pdx va < 509) : va < ulim := by
  rw [pdx_eq_div] at user
  rw [BitVec.lt_def, ulim_toNat]
  omega

theorem PmapInv.pageInsert_same (inv : PmapInv dirs s) (he : dirs e = some d)
    (user : pdx va < 509) (ht : entry (s.mem d (pdx va)) = some t)
    (hp : entry (s.mem t (ptx va)) = some pp) :
    pageInsert s d asid pp va perm =
      .ok ((s.tlbInvalidate asid va).remap t (ptx va) pp perm, .ok ()) :=
  pageInsert_mapped (inv.inMemory he (lt_ulim_of_pdx_lt user)) ht hp

/-- The three outcomes of `page_insert`, for a page directory of an env. -/
theorem PmapInv.pageInsert_cases (inv : PmapInv dirs s) (he : dirs e = some d)
    (user : pdx va < 509) (counted : Counted dirs s d va) (pp : Nat) (asid perm : Word) :
    (∃ t, entry (s.mem d (pdx va)) = some t ∧ entry (s.mem t (ptx va)) = some pp ∧
      pageInsert s d asid pp va perm =
        .ok ((s.tlbInvalidate asid va).remap t (ptx va) pp perm, .ok ())) ∨
    (∃ s₁ t, Prepared s d asid va s₁ t ∧ (∀ pte, lookup s.mem d va ≠ some (pp, pte)) ∧
      pageInsert s d asid pp va perm = .ok (s₁.mapPage t (ptx va) pp perm, .ok ())) ∨
    (entry (s.mem d (pdx va)) = none ∧ s.pageFreeList = [] ∧
      pageInsert s d asid pp va perm = .ok (s.tlbInvalidate asid va, .error .noMem)) := by
  refine Mos.pageInsert_cases inv.npage_le inv.free_lt
    (inv.inMemory he (lt_ulim_of_pdx_lt user)) (fun t ht => ?_) (fun q pte found => ?_) pp asid perm
  · exact table_ne_dir (i := ⟨_, user⟩) inv.excl he ht he
  · obtain ⟨t, ht, hq, -⟩ := lookup_eq_some_iff.mp found
    have mapped : target dirs s.mem (.pte e ⟨_, user⟩ ⟨_, ptx_lt va⟩) = some q :=
      (target_pte he ht).trans hq
    exact inv.count_ne_zero mapped (counted q pte found)

variable [DecidableEq ε]

/-- The entry is ready: its table is in place, and it maps nothing. -/
theorem Prepared.spec (prep : Prepared s d asid va s₁ t) (inv : PmapInv dirs s)
    (he : dirs e = some d) (user : pdx va < 509) (counted : Counted dirs s d va) :
    PmapInv dirs s₁ ∧ Frame dirs e noPage s s₁ ∧ entry (s₁.mem d (pdx va)) = some t ∧
      entry (s₁.mem t (ptx va)) = none := by
  cases prep with
  | table ht hp => exact ⟨inv.tlbInvalidate asid va, .tlbInvalidate dirs e s asid va, ht, hp⟩
  | @newTable p rest vacant hfree =>
      obtain ⟨inv_take, frame_take, fresh⟩ :=
        (inv.tlbInvalidate asid va).take (e := e) hfree
      have hne : d ≠ t := by
        rintro rfl
        exact fresh.untargeted (.dir e) he
      have vacant' : entry (((s.tlbInvalidate asid va).take t rest).mem d (pdx va)) = none := by
        rw [show ((s.tlbInvalidate asid va).take t rest).mem d = s.mem d from
          Function.update_of_ne hne _ _]
        exact vacant
      obtain ⟨inv', frame'⟩ := inv_take.install (i := ⟨_, user⟩) he vacant' fresh
      refine ⟨inv', ?_, ?_, ?_⟩
      · refine Frame.trans (.tlbInvalidate dirs e s asid va)
          (frame_take.trans_excepting frame' fun h => h.notFree ?_)
        show t ∈ s.pageFreeList
        rw [hfree]
        exact List.mem_cons_self
      · have word : (((s.tlbInvalidate asid va).take t rest).install d (pdx va) t).mem d (pdx va) =
            page2pa t ||| pteD ||| pteV := writeWord_self ..
        rw [word]
        exact entry_page2pa (inv.page_lt fresh.lt) (by decide)
      · have page : (((s.tlbInvalidate asid va).take t rest).install d (pdx va) t).mem t =
            fun _ => 0 := (writeWord_of_page_ne hne.symm).trans fresh.zero
        rw [page]
        exact entry_zero
  | @removed t q ht hq =>
      have bound := counted q _ (lookup_eq_some ht hq)
      obtain ⟨inv', frame'⟩ :=
        inv.unmap (i := ⟨_, user⟩) (j := ⟨_, ptx_lt va⟩) he ht hq bound
      refine ⟨(inv'.tlbInvalidate asid va).tlbInvalidate asid va,
        frame'.trans ((Frame.tlbInvalidate dirs e _ asid va).trans (.tlbInvalidate dirs e _ asid va)),
        ?_, ?_⟩
      · show entry (writeWord s.mem t (ptx va) 0 d (pdx va)) = _
        rw [writeWord_of_page_ne (table_ne_dir (i := ⟨_, user⟩) inv.excl he ht he)]
        exact ht
      · show entry (writeWord s.mem t (ptx va) 0 t (ptx va)) = _
        rw [writeWord_self]
        exact entry_zero

/-- A new page table adds the one reference to it. -/
theorem PmapInv.target_newTable (inv : PmapInv dirs s) (he : dirs e = some d)
    (user : pdx va < 509) (vacant : entry (s.mem d (pdx va)) = none) {rest : List Nat}
    (hfree : s.pageFreeList = t :: rest) (asid : Word) :
    target dirs (((s.tlbInvalidate asid va).take t rest).install d (pdx va) t).mem =
      Function.update (target dirs s.mem) (.pde e ⟨_, user⟩) (some t) := by
  obtain ⟨inv_take, -, fresh⟩ := (inv.tlbInvalidate asid va).take (e := e) hfree
  have hne : d ≠ t := by
    rintro rfl
    exact fresh.untargeted (.dir e) he
  have vacant' : entry (((s.tlbInvalidate asid va).take t rest).mem d (pdx va)) = none := by
    rw [show ((s.tlbInvalidate asid va).take t rest).mem d = s.mem d from
      Function.update_of_ne hne _ _]
    exact vacant
  have store := inv_take.store_install (i := ⟨_, user⟩) he vacant' fresh
  refine (congrArg RefStore.tgt store).trans ?_
  show Function.update (target dirs ((s.tlbInvalidate asid va).take t rest).mem) _ _ = _
  rw [(inv.tlbInvalidate asid va).target_take hfree]
  rfl

/-- A page not mapped at `va` can still be mapped once the entry is ready. -/
theorem Prepared.mappable (prep : Prepared s d asid va s₁ t) (inv : PmapInv dirs s)
    (he : dirs e = some d) (user : pdx va < 509) (counted : Counted dirs s d va)
    (unmapped : ∀ pte, lookup s.mem d va ≠ some (pp, pte)) (mappable : Mappable dirs s pp) :
    Mappable dirs s₁ pp := by
  obtain ⟨inv₁, frame, -⟩ := prep.spec inv he user counted
  have kernel : NotKernelTable dirs s pp → NotKernelTable dirs s₁ pp :=
    fun h e' d' k he' hk hk' => by
    rw [frame.kernelPart e' d' k he' hk]
    exact h e' d' k he' hk hk'
  cases prep with
  | table ht hp => exact ⟨mappable.linkable, mappable.lt, fun h =>
      mappable.notKernel ⟨h.notFree, h.untargeted⟩⟩
  | @newTable p rest vacant hfree =>
      have hpp : pp ≠ t := by
        rintro rfl
        exact mappable.linkable.notFree (by simp [Pmap.store, hfree])
      have tgt := inv.target_newTable he user vacant hfree asid
      have old : target dirs s.mem (.pde e ⟨_, user⟩) = none := (target_pde he).trans vacant
      refine ⟨⟨fun hp => mappable.linkable.notFree ?_, fun r table hr => ?_, ?_⟩, mappable.lt,
        fun h => kernel (mappable.notKernel ⟨mappable.linkable.notFree, fun r hr => ?_⟩)⟩
      · show pp ∈ s.pageFreeList
        rw [hfree]
        exact List.mem_cons_of_mem _ hp
      · have hr' := (congrFun tgt r).symm.trans hr
        rcases eq_or_ne r (.pde e ⟨_, user⟩) with rfl | hre
        · rw [Function.update_self] at hr'
          exact hpp (Option.some.inj hr').symm
        · rw [Function.update_of_ne hre] at hr'
          exact mappable.linkable.notTable r table hr'
      · show Function.update s.ppRef t _ pp = BitVec.ofNat 16 (refs (target dirs _) pp)
        rw [Function.update_of_ne hpp, tgt,
          refs_update_of_ne (by simp [old]) (by simpa using hpp.symm)]
        exact mappable.linkable.count_eq
      · refine h.untargeted r ((congrFun tgt r).trans ?_)
        rw [Function.update_of_ne (by rintro rfl; rw [old] at hr; cases hr)]
        exact hr
  | @removed t q ht hq =>
      have mapped : target dirs s.mem (.pte e ⟨_, user⟩ ⟨_, ptx_lt va⟩) = some q :=
        (target_pte he ht).trans hq
      have hne : pp ≠ q := by
        rintro rfl
        exact unmapped _ (lookup_eq_some ht hq)
      have store := inv.store_unmap (i := ⟨_, user⟩) (j := ⟨_, ptx_lt va⟩) (p := q) he ht
      have tgt : target dirs (s.unmap q t (ptx va)).mem =
          Function.update (target dirs s.mem) (.pte e ⟨_, user⟩ ⟨_, ptx_lt va⟩) none :=
        congrArg RefStore.tgt store
      refine ⟨⟨fun hp => mappable.linkable.notFree ?_, fun r table hr => ?_, ?_⟩, mappable.lt,
        fun h => kernel (mappable.notKernel ⟨mappable.linkable.notFree, fun r hr => ?_⟩)⟩
      · exact (s.mem_decref hp).resolve_left hne
      · have hr' := (congrFun tgt r).symm.trans hr
        rw [Function.update_of_ne (by rintro rfl; exact table)] at hr'
        exact mappable.linkable.notTable r table hr'
      · show Function.update s.ppRef q _ pp = BitVec.ofNat 16 (refs (target dirs _) pp)
        rw [Function.update_of_ne hne]
        refine mappable.linkable.count_eq.trans ?_
        show _ = BitVec.ofNat 16 (refs (target dirs (s.unmap q t (ptx va)).mem) pp)
        rw [tgt, refs_update_of_ne (by simpa [mapped] using hne.symm) (by simp)]
        rfl
      · refine h.untargeted r ((congrFun tgt r).trans ?_)
        rw [Function.update_of_ne]
        · exact hr
        · rintro rfl
          rw [mapped] at hr
          exact hne (Option.some.inj hr).symm

/-- Once `page_insert` succeeds, the entry for `va` holds the page and the permission
it was given, or-ed together. -/
theorem PmapInv.pageInsert_word (inv : PmapInv dirs s) (he : dirs e = some d)
    (user : pdx va < 509) (counted : Counted dirs s d va) {s' : Pmap}
    (run : pageInsert s d asid pp va perm = .ok (s', .ok ())) :
    ∃ t, entry (s'.mem d (pdx va)) = some t ∧
      s'.mem t (ptx va) = page2pa pp ||| perm ||| pteV := by
  rcases inv.pageInsert_cases he user counted pp asid perm with
    ⟨t, ht, hp, run'⟩ | ⟨s₁, t, prep, -, run'⟩ | ⟨-, -, run'⟩
  · rw [run] at run'
    cases run'
    refine ⟨t, ?_, writeWord_self ..⟩
    show entry (writeWord s.mem t (ptx va) _ d (pdx va)) = some t
    rw [writeWord_of_page_ne (table_ne_dir (i := ⟨_, user⟩) inv.excl he ht he)]
    exact ht
  · rw [run] at run'
    cases run'
    obtain ⟨inv₁, -, ht, -⟩ := prep.spec inv he user counted
    refine ⟨t, ?_, writeWord_self ..⟩
    show entry (writeWord s₁.mem t (ptx va) _ d (pdx va)) = some t
    rw [writeWord_of_page_ne (table_ne_dir (i := ⟨_, user⟩) inv₁.excl he ht he)]
    exact ht
  · rw [run] at run'
    cases run'

/-- Getting the entry ready adds at most the first reference to a page. -/
theorem Prepared.refs_le (prep : Prepared s d asid va s₁ t) (inv : PmapInv dirs s)
    (he : dirs e = some d) (user : pdx va < 509) (q : Nat) :
    refs (target dirs s₁.mem) q ≤ max (refs (target dirs s.mem) q) 1 := by
  cases prep with
  | table ht hp => exact Nat.le_max_left _ _
  | @newTable p rest vacant hfree =>
      have tgt := inv.target_newTable he user vacant hfree asid
      have old : target dirs s.mem (.pde e ⟨_, user⟩) = none := (target_pde he).trans vacant
      rw [tgt]
      exact refs_link_le old (inv.store.free_untargeted t (by simp [Pmap.store, hfree])) q
  | @removed t q' ht hq =>
      have store := inv.store_unmap (i := ⟨_, user⟩) (j := ⟨_, ptx_lt va⟩) (p := q') he ht
      have tgt : target dirs (s.unmap q' t (ptx va)).mem =
          Function.update (target dirs s.mem) (.pte e ⟨_, user⟩ ⟨_, ptx_lt va⟩) none :=
        congrArg RefStore.tgt store
      refine Nat.le_trans (refs_mono fun r hr => ?_) (Nat.le_max_left _ _)
      have hr' := (congrFun tgt r).symm.trans hr
      rcases eq_or_ne r (.pte e ⟨_, user⟩ ⟨_, ptx_lt va⟩) with rfl | hne
      · rw [Function.update_self] at hr'
        cases hr'
      · rwa [Function.update_of_ne hne] at hr'

/-- `page_insert` with permission bits below `0x1000` preserves the invariant,
whether it succeeds or runs out of memory. -/
theorem PmapInv.pageInsert (inv : PmapInv dirs s) (he : dirs e = some d) (user : pdx va < 509)
    (counted : Counted dirs s d va) (mappable : Mappable dirs s pp) (hperm : perm < 0x1000#32)
    (asid : Word) :
    ∃ s' r, Mos.pageInsert s d asid pp va perm = .ok (s', r) ∧ PmapInv dirs s' ∧
      Frame dirs e (· = pp) s s' := by
  rcases inv.pageInsert_cases he user counted pp asid perm with
    ⟨t, ht, hp, run⟩ | ⟨s₁, t, prep, unmapped, run⟩ | ⟨-, -, run⟩
  · obtain ⟨inv', frame⟩ := (inv.tlbInvalidate asid va).remap (i := ⟨_, user⟩)
      (j := ⟨_, ptx_lt va⟩) he ht hp hperm
    exact ⟨_, _, run, inv', ((Frame.tlbInvalidate dirs e s asid va).trans frame).weaken
      fun _ _ hX => hX.elim⟩
  · obtain ⟨inv₁, frame₁, ht, hp⟩ := prep.spec inv he user counted
    obtain ⟨inv', frame⟩ := inv₁.mapPage (i := ⟨_, user⟩) (j := ⟨_, ptx_lt va⟩) he ht hp
      (prep.mappable inv he user counted unmapped mappable) hperm
    exact ⟨_, _, run, inv', (frame₁.weaken fun _ _ hX => hX.elim).trans frame⟩
  · exact ⟨_, _, run, inv.tlbInvalidate asid va,
      (Frame.tlbInvalidate dirs e s asid va).weaken fun _ _ hX => hX.elim⟩

section Sources

variable {x : ε} {r : Ref ε} (inv : PmapInv dirs s)
  (bounded : ∀ q, refs (target dirs s.mem) q < 2 ^ 16) (he : dirs e = some d)
  (user : pdx va < 509) (hperm : perm < 0x1000#32)

include inv bounded he user hperm

/-- A page already mapped somewhere can be mapped again. -/
theorem PmapInv.pageInsert_mapped (leaf : ¬ r.IsTable) (mapped : target dirs s.mem r = some pp)
    (asid : Word) :
    ∃ s' res, Mos.pageInsert s d asid pp va perm = .ok (s', res) ∧ PmapInv dirs s' ∧
      Frame dirs e noPage s s' := by
  have named : ¬ Bystander dirs s pp := fun h => h.untargeted r mapped
  have mappable : Mappable dirs s pp :=
    ⟨RefStore.Inv.linkable (r := r) inv.store mapped leaf, inv.target_lt r pp mapped,
      fun h => (named h).elim⟩
  obtain ⟨s', res, run, inv', frame⟩ :=
    inv.pageInsert he user (fun q _ _ => bounded q) mappable hperm asid
  exact ⟨s', res, run, inv', frame.weaken fun q hq eq => named (eq ▸ hq)⟩

/-- Mapping a page nobody names makes one reference to it. -/
theorem PmapInv.refs_pageInsert {s' : Pmap} {res : Except Err Unit}
    (bystander : Bystander dirs s pp) (lt : pp < s.npage) (q : Nat)
    (run : Mos.pageInsert s d asid pp va perm = .ok (s', res)) :
    refs (target dirs s'.mem) q ≤ max (refs (target dirs s.mem) q) 1 := by
  have counted : Counted dirs s d va := fun q _ _ => bounded q
  rcases inv.pageInsert_cases he user counted pp asid perm with
    ⟨t, ht, hp, run'⟩ | ⟨s₁, t, prep, -, run'⟩ | ⟨-, -, run'⟩
  · exact absurd ((target_pte (i := ⟨_, user⟩) (j := ⟨_, ptx_lt va⟩) he ht).trans hp)
      (bystander.untargeted _)
  · rw [run] at run'
    cases run'
    obtain ⟨inv₁, frame, ht, hp⟩ := prep.spec inv he user counted
    have untargeted := (frame.bystander pp bystander id).1.untargeted
    have tgt : target dirs (s₁.mapPage t (ptx va) pp perm).mem =
        Function.update (target dirs s₁.mem) (.pte e ⟨_, user⟩ ⟨_, ptx_lt va⟩) (some pp) :=
      congrArg RefStore.tgt (inv₁.store_mapPage (i := ⟨_, user⟩) (j := ⟨_, ptx_lt va⟩) he ht
        (by rw [frame.npage]; exact lt) hperm)
    have empty : target dirs s₁.mem (.pte e ⟨_, user⟩ ⟨_, ptx_lt va⟩) = none :=
      (target_pte he ht).trans hp
    rw [tgt]
    rcases eq_or_ne q pp with rfl | hq
    · rw [refs_link_self empty, refs_eq_zero_iff.mpr untargeted]
      exact Nat.le_max_right _ _
    · rw [refs_update_of_ne (by simp [empty]) (by simpa using hq.symm)]
      exact prep.refs_le inv he user q
  · rw [run] at run'
    cases run'
    exact Nat.le_max_left _ _

/-- A page just allocated can be mapped. -/
theorem PmapInv.pageInsert_taken {rest : List Nat} (h : s.pageFreeList = pp :: rest)
    (asid : Word) :
    ∃ s' res, Mos.pageInsert (s.take pp rest) d asid pp va perm = .ok (s', res) ∧
      PmapInv dirs s' ∧ Frame dirs e noPage s s' := by
  obtain ⟨taken, frame, fresh⟩ := inv.take (e := e) h
  have mappable : Mappable dirs (s.take pp rest) pp :=
    ⟨.of_untargeted fresh.notFree fresh.untargeted fresh.count, fresh.lt, fun _ => fresh.notKernel⟩
  have counted : Counted dirs (s.take pp rest) d va := by
    intro q _ _
    rw [inv.target_take h]
    exact bounded q
  obtain ⟨s', res, run, inv', frame'⟩ := taken.pageInsert he user counted mappable hperm asid
  refine ⟨s', res, run, inv', frame.trans_excepting frame' fun hb => hb.notFree ?_⟩
  rw [h]
  exact List.mem_cons_self

end Sources

end Mos
