import Mos.EnvInv

/-!
# Boot

`page_init` frees the pages above the kernel, and `env_init` maps the `pages` and
`envs` arrays in the template page directory. `Booting` is what holds of the
memory meanwhile; when `env_init` is done it makes `KernelInv`.
-/

namespace Mos

variable {b : Boot} {s : Pmap} {base t p pp k n : Nat} {va asid : Word} {pages : List Nat}

/-- The table of a window the template maps. -/
structure WindowPage (s : Pmap) (base k t : Nat) : Prop where
  writable : (s.mem base k).Has pteD
  lt : t < s.npage
  notFree : t ∉ s.pageFreeList
  notBase : t ≠ base
  readOnly : ∀ j, j < 1024 → ¬ (s.mem t j).Has pteD
  inside : ∀ j p, j < 1024 → entry (s.mem t j) = some p → p < s.npage

/-- The memory while the template `base` is filled in. -/
structure Booting (n base : Nat) (s : Pmap) : Prop where
  npage : s.npage = n
  npage_le : n ≤ 2 ^ 20
  nodup : s.pageFreeList.Nodup
  count : ∀ p ∈ s.pageFreeList, s.ppRef p = 0
  free_lt : ∀ p ∈ s.pageFreeList, p < n
  notFree : base ∉ s.pageFreeList
  window : ∀ k, 509 ≤ k → k < 511 → ∀ t, entry (s.mem base k) = some t → WindowPage s base k t
  apart : ∀ t, entry (s.mem base 509) = some t → entry (s.mem base 510) = some t → False

/-- The table of one window is not that of another. -/
theorem Booting.table_ne (h : Booting n base s) {k' t' : Nat} (lo : 509 ≤ k) (hi : k < 511)
    (lo' : 509 ≤ k') (hi' : k' < 511) (ht : entry (s.mem base k) = some t)
    (ht' : entry (s.mem base k') = some t') (hne : k' ≠ k) : t' ≠ t := by
  rintro rfl
  obtain ⟨rfl, rfl⟩ | ⟨rfl, rfl⟩ : k = 509 ∧ k' = 510 ∨ k = 510 ∧ k' = 509 := by omega
  · exact h.apart t' ht ht'
  · exact h.apart t' ht' ht

/-- A page that is not free can be mapped read-only in a window. -/
theorem Booting.mapPage (h : Booting n base s) (lo : 509 ≤ k) (hi : k < 511)
    (ht : entry (s.mem base k) = some t) {j : Nat} (notFree : pp ∉ s.pageFreeList) (lt : pp < n) :
    Booting n base (s.mapPage t j pp pteG) ∧
      (s.mapPage t j pp pteG).mem base = s.mem base := by
  have table := h.window k lo hi t ht
  have same : (s.mapPage t j pp pteG).mem base = s.mem base :=
    writeWord_of_page_ne table.notBase.symm
  have word : ∀ l, (s.mapPage t j pp pteG).mem t l = page2pa pp ||| pteG ||| pteV ∨
      (s.mapPage t j pp pteG).mem t l = s.mem t l := by
    intro l
    rcases eq_or_ne l j with rfl | hne
    · exact .inl (writeWord_self ..)
    · exact .inr (writeWord_of_index_ne hne)
  refine ⟨⟨h.npage, h.npage_le, h.nodup, fun q hq => ?_, h.free_lt, h.notFree,
    fun k' lo' hi' t' ht' => ?_, fun t' => ?_⟩, same⟩
  · have hne : q ≠ pp := fun eq => notFree (eq ▸ hq)
    exact (Function.update_of_ne hne _ _).trans (h.count q hq)
  · rw [same] at ht'
    have table' := h.window k' lo' hi' t' ht'
    refine ⟨by rw [same]; exact table'.writable, table'.lt, table'.notFree, table'.notBase, ?_, ?_⟩
    · intro l hl
      rcases eq_or_ne t' t with rfl | hne
      · rcases word l with new | old
        · rw [new, Word.has_or, Word.has_or]
          rintro ((page | flag) | flag)
          · exact page2pa_not_has (by decide) page
          · exact absurd flag (by decide)
          · exact absurd flag (by decide)
        · rw [old]
          exact table'.readOnly l hl
      · rw [show (s.mapPage t j pp pteG).mem t' = s.mem t' from writeWord_of_page_ne hne]
        exact table'.readOnly l hl
    · intro l q hl
      have inside : s.npage = n := h.npage
      rcases eq_or_ne t' t with rfl | hne
      · rcases word l with new | old
        · rw [new, entry_page2pa (Nat.lt_of_lt_of_le lt h.npage_le) (by decide)]
          intro hq
          cases hq
          show pp < s.npage
          omega
        · rw [old]
          exact table'.inside l q hl
      · rw [show (s.mapPage t j pp pteG).mem t' = s.mem t' from writeWord_of_page_ne hne]
        exact table'.inside l q hl
  · rw [same]
    exact h.apart t'

/-- A free page can become the table of a window without one. -/
theorem Booting.install (h : Booting n base s) (lo : 509 ≤ k) (hi : k < 511)
    (hfree : s.pageFreeList = p :: pages) :
    Booting n base ((s.take p pages).install base k p) ∧
      entry (((s.take p pages).install base k p).mem base k) = some p ∧
      (∀ l, l ≠ k → ((s.take p pages).install base k p).mem base l = s.mem base l) ∧
      ((s.take p pages).install base k p).mem p = fun _ => 0 := by
  have isFree : p ∈ s.pageFreeList := by rw [hfree]; exact List.mem_cons_self
  have nodup := h.nodup
  rw [hfree, List.nodup_cons] at nodup
  have sub : ∀ q ∈ pages, q ∈ s.pageFreeList := fun q hq => by
    rw [hfree]
    exact List.mem_cons_of_mem _ hq
  have hne : p ≠ base := fun eq => h.notFree (eq ▸ isFree)
  have word : ((s.take p pages).install base k p).mem base k = page2pa p ||| pteD ||| pteV :=
    writeWord_self ..
  have named : entry (((s.take p pages).install base k p).mem base k) = some p := by
    rw [word]
    exact entry_page2pa (Nat.lt_of_lt_of_le (h.free_lt p isFree) h.npage_le) (by decide)
  have others : ∀ q, q ≠ base → q ≠ p →
      ((s.take p pages).install base k p).mem q = s.mem q := fun q hb hp =>
    (writeWord_of_page_ne hb).trans (Function.update_of_ne hp _ _)
  have row : ∀ l, l ≠ k → ((s.take p pages).install base k p).mem base l = s.mem base l :=
    fun l hl => (writeWord_of_index_ne hl).trans
      (congrFun (Function.update_of_ne hne.symm _ _) l)
  have zero : ((s.take p pages).install base k p).mem p = fun _ => 0 :=
    (writeWord_of_page_ne hne).trans (Function.update_self ..)
  have npage := h.npage
  have old : ∀ k', 509 ≤ k' → k' < 511 → k' ≠ k → ∀ t', entry (s.mem base k') = some t' →
      t' ≠ p := fun k' lo' hi' _ t' ht' eq => (h.window k' lo' hi' t' ht').notFree (eq ▸ isFree)
  refine ⟨⟨h.npage, h.npage_le, nodup.2, fun q hq => ?_, fun q hq => h.free_lt q (sub q hq),
    fun hb => h.notFree (sub base hb), fun k' lo' hi' t' ht' => ?_, fun t' ht ht' => ?_⟩,
    named, row, zero⟩
  · have hqp : q ≠ p := fun eq => nodup.1 (eq ▸ hq)
    exact (Function.update_of_ne hqp _ _).trans (h.count q (sub q hq))
  · rcases eq_or_ne k' k with rfl | hkk
    · rw [named] at ht'
      cases ht'
      refine ⟨?_, ?_, nodup.1, hne, fun j _ => ?_, fun j q _ hq => ?_⟩
      · rw [word, Word.has_or, Word.has_or]
        exact .inl (.inr (by decide))
      · show p < s.npage
        rw [npage]
        exact h.free_lt p isFree
      · rw [zero]
        exact (by decide : ¬ (0 : Word).Has pteD)
      · rw [zero] at hq
        cases entry_zero.symm.trans hq
    · rw [row k' hkk] at ht'
      have table := h.window k' lo' hi' t' ht'
      have mem := others t' table.notBase (old k' lo' hi' hkk t' ht')
      exact ⟨by rw [row k' hkk]; exact table.writable, table.lt,
        fun hmem => table.notFree (sub t' hmem), table.notBase, by rw [mem]; exact table.readOnly,
        by rw [mem]; exact table.inside⟩
  · obtain rfl | rfl : k = 509 ∨ k = 510 := by omega
    · rw [named] at ht
      cases ht
      rw [row 510 (by omega)] at ht'
      exact old 510 (by omega) (by omega) (by omega) p ht' rfl
    · rw [named] at ht'
      cases ht'
      rw [row 509 (by omega)] at ht
      exact old 509 (by omega) (by omega) (by omega) p ht rfl

theorem Booting.tlbInvalidate (h : Booting n base s) (asid va : Word) :
    Booting n base (s.tlbInvalidate asid va) where
  npage := h.npage
  npage_le := h.npage_le
  nodup := h.nodup
  count := h.count
  free_lt := h.free_lt
  notFree := h.notFree
  window k lo hi t ht := by
    have table := h.window k lo hi t ht
    exact ⟨table.writable, table.lt, table.notFree, table.notBase, table.readOnly, table.inside⟩
  apart := h.apart

/-! ## Mapping the arrays -/

/-- The state of `map_segment` for window `k` when page `i` of the segment is
next: from the first page on, there is a table if there was memory for one. -/
structure Mapping (n base k : Nat) (s₀ : Pmap) (i : Nat) (s : Pmap) : Prop where
  booting : Booting n base s
  empty : ∀ t, entry (s.mem base k) = some t → ∀ j, i ≤ j → entry (s.mem t j) = none
  free : s.pageFreeList = s₀.pageFreeList.drop (min i 1)
  valid : (s.mem base k).Has pteV ↔ 0 < i ∧ s₀.pageFreeList ≠ []
  row : ∀ l, l ≠ k → s.mem base l = s₀.mem base l

/-- A page is mapped in a window that has its table. -/
theorem Mapping.mapPage {s₀ : Pmap} {i : Nat} (booting : Booting n base s) (lo : 509 ≤ k)
    (hi : k < 511) (ht : entry (s.mem base k) = some t)
    (empty : ∀ j, i ≤ j → entry (s.mem t j) = none)
    (free : s.pageFreeList = s₀.pageFreeList.drop 1) (nonempty : s₀.pageFreeList ≠ [])
    (row : ∀ l, l ≠ k → s.mem base l = s₀.mem base l) (notFree : pp ∉ s.pageFreeList)
    (lt : pp < n) : Mapping n base k s₀ (i + 1) (s.mapPage t i pp pteG) := by
  obtain ⟨booting', same⟩ := booting.mapPage (j := i) lo hi ht notFree lt
  refine ⟨booting', fun t' ht' j hj => ?_, ?_, ?_, fun l hl => ?_⟩
  · rw [same] at ht'
    have eq : t' = t := Option.some.inj (ht'.symm.trans ht)
    rw [eq, show (s.mapPage t i pp pteG).mem t j = s.mem t j from writeWord_of_index_ne (by omega)]
    exact empty j (by omega)
  · rw [Nat.min_eq_right (by omega)]
    exact free
  · rw [same]
    exact ⟨fun _ => ⟨by omega, nonempty⟩, fun _ => (entry_eq_some_iff.mp ht).1⟩
  · rw [same]
    exact row l hl

/-- `page_insert` maps the next page in the table of the window, for which it takes
the first free page, if any, when it maps the first page. -/
theorem Mapping.pageInsert_cases {s₀ : Pmap} {i : Nat} (h : Mapping n base k s₀ i s) (asid : Word)
    (pp : Nat) (lo : 509 ≤ k) (hi : k < 511) (hpdx : pdx va = k) (hptx : ptx va = i) :
    (∃ t, entry (s.mem base k) = some t ∧ 0 < i ∧ s₀.pageFreeList ≠ [] ∧
      Mos.pageInsert s base asid pp va pteG =
        .ok ((s.tlbInvalidate asid va).mapPage t i pp pteG, .ok ())) ∨
    (∃ p pages, entry (s.mem base k) = none ∧ i = 0 ∧ s.pageFreeList = p :: pages ∧
      Mos.pageInsert s base asid pp va pteG =
        .ok ((((s.tlbInvalidate asid va).take p pages).install base k p).mapPage p 0 pp pteG,
          .ok ())) ∨
    (entry (s.mem base k) = none ∧ s₀.pageFreeList = [] ∧ s.pageFreeList = [] ∧
      Mos.pageInsert s base asid pp va pteG = .ok (s.tlbInvalidate asid va, .error .noMem)) := by
  have npage := h.booting.npage
  have npage_le : (s.tlbInvalidate asid va).npage ≤ 2 ^ 20 := by
    show s.npage ≤ _
    rw [npage]
    exact h.booting.npage_le
  cases ht : entry (s.mem base k) with
  | some t =>
      have table := h.booting.window k lo hi t ht
      have ht' : entry (s.mem base (pdx va)) = some t := by rw [hpdx]; exact ht
      obtain ⟨pos, nonempty⟩ := h.valid.mp (entry_eq_some_iff.mp ht).1
      have vacant : ¬ (s.word (t, ptx va)).Has pteV := by
        rw [Pmap.word, hptx]
        exact entry_eq_none_iff.mp (h.empty t ht i (Nat.le_refl i))
      have walk : pgdirWalk s base va false = _ := pgdirWalk_some ht' table.lt
      refine .inl ⟨t, rfl, pos, nonempty, ?_⟩
      simp only [Mos.pageInsert, walk, Bind.bind, Except.bind, if_neg vacant]
      rw [pageInsertNew_eq ht' table.lt, hptx]
  | none =>
      have ht' : entry (s.mem base (pdx va)) = none := by rw [hpdx]; exact ht
      have start : Mos.pageInsert s base asid pp va pteG =
          pageInsertNew s base asid pp va pteG := by
        simp only [Mos.pageInsert, pgdirWalk_none ht', Bind.bind, Except.bind]
      have absent := fun both => entry_eq_none_iff.mp ht (h.valid.mpr both)
      rw [start]
      cases hfree : s.pageFreeList with
      | nil =>
          have alloc : pageAlloc (s.tlbInvalidate asid va) = _ := pageAlloc_nil hfree
          have invalid : ¬ ((s.tlbInvalidate asid va).mem base (pdx va)).Has pteV :=
            entry_eq_none_iff.mp ht'
          have none_left : i = 0 → s₀.pageFreeList = [] := by
            rintro rfl
            have free := h.free
            rw [hfree] at free
            exact free.symm
          have nil : s₀.pageFreeList = [] := by
            by_contra nonempty
            exact absent ⟨Nat.pos_of_ne_zero fun zero => nonempty (none_left zero), nonempty⟩
          refine .inr (.inr ⟨rfl, nil, rfl, ?_⟩)
          simp only [pageInsertNew, pgdirWalk, if_neg invalid, alloc]
          rfl
      | cons p pages =>
          have isFree : p ∈ s.pageFreeList := by rw [hfree]; exact List.mem_cons_self
          have zero : i = 0 := by
            rcases Nat.eq_zero_or_pos i with zero | pos
            · exact zero
            · have free := h.free
              rw [hfree, Nat.min_eq_right pos] at free
              refine (absent ⟨pos, fun nil => ?_⟩).elim
              rw [nil] at free
              cases free
          have lt' : p < (s.tlbInvalidate asid va).npage := by
            show p < s.npage
            rw [npage]
            exact h.booting.free_lt p isFree
          have walk := pgdirWalk_create npage_le ht' hfree lt'
          rw [hpdx] at walk
          refine .inr (.inl ⟨p, pages, rfl, zero, rfl, ?_⟩)
          simp only [pageInsertNew, walk, Bind.bind, Except.bind]
          rw [hptx, zero]
          rfl

theorem Mapping.pageInsert {s₀ : Pmap} {i : Nat} (h : Mapping n base k s₀ i s) (asid : Word)
    (lo : 509 ≤ k)
    (hi : k < 511) (hpdx : pdx va = k) (hptx : ptx va = i) (notFree : pp ∉ s.pageFreeList)
    (lt : pp < n) :
    ∃ s' r, Mos.pageInsert s base asid pp va pteG = .ok (s', r) ∧
      Mapping n base k s₀ (i + 1) s' := by
  rcases h.pageInsert_cases asid pp lo hi hpdx hptx with ⟨t, ht, pos, nonempty, run⟩ |
    ⟨p, pages, ht, zero, hfree, run⟩ | ⟨ht, nil, hfree, run⟩
  · refine ⟨_, _, run, Mapping.mapPage (h.booting.tlbInvalidate asid va) lo hi ht (h.empty t ht) ?_
      nonempty h.row notFree lt⟩
    have free := h.free
    rwa [Nat.min_eq_right pos] at free
  · cases zero
    have whole : s.pageFreeList = s₀.pageFreeList := h.free
    obtain ⟨booting, named, row, empty⟩ :=
      (h.booting.tlbInvalidate asid va).install lo hi hfree
    refine ⟨_, _, run, Mapping.mapPage booting lo hi named (fun j _ => ?_) ?_ ?_ (fun l hl => ?_) ?_ lt⟩
    · rw [empty]
      exact entry_zero
    · rw [← whole, hfree]
      rfl
    · rw [← whole, hfree]
      simp
    · exact (row l hl).trans (h.row l hl)
    · rw [hfree] at notFree
      exact fun mem => notFree (List.mem_cons_of_mem _ mem)
  · refine ⟨_, _, run, h.booting.tlbInvalidate asid va, fun t' ht'' => ?_, ?_,
      ⟨fun valid => ?_, fun both => absurd nil both.2⟩, h.row⟩
    · cases ht.symm.trans ht''
    · rw [nil, List.drop_nil]
      exact hfree
    · exact absurd valid (entry_eq_none_iff.mp ht)

/-- The entry of the window for page `j` of the array at `pa`. -/
def windowWord (pa j : Nat) : Word := page2pa (pa / 4096 + j) ||| pteG ||| pteV

/-- What `map_segment` has written when page `i` is next: the entries of the pages
before it, in a table that was free. -/
structure Filling (base k pa : Nat) (s₀ : Pmap) (i : Nat) (s : Pmap) : Prop where
  kept : ∀ q, q ≠ base → q ∉ s₀.pageFreeList → s.mem q = s₀.mem q
  table : ∀ t, entry (s.mem base k) = some t → t ∈ s₀.pageFreeList ∧
    ∀ j, j < i → s.mem t j = windowWord pa j

theorem Filling.pageInsert {s₀ s' : Pmap} {i pa : Nat} {r : Except Err Unit}
    (filling : Filling base k pa s₀ i s) (h : Mapping n base k s₀ i s) (asid : Word)
    (notFree : base ∉ s₀.pageFreeList) (lo : 509 ≤ k) (hi : k < 511) (hpdx : pdx va = k)
    (hptx : ptx va = i) (run : Mos.pageInsert s base asid (pa / 4096 + i) va pteG = .ok (s', r)) :
    Filling base k pa s₀ (i + 1) s' := by
  -- the entry that is written, and those before it
  have words : ∀ (s : Pmap) (t : Nat), (∀ j, j < i → s.mem t j = windowWord pa j) →
      ∀ j, j < i + 1 → (s.mapPage t i (pa / 4096 + i) pteG).mem t j = windowWord pa j := by
    intro s t old j hj
    rcases Nat.lt_succ_iff_lt_or_eq.mp hj with lt | rfl
    · exact (writeWord_of_index_ne (Nat.ne_of_lt lt)).trans (old j lt)
    · exact writeWord_self ..
  rcases h.pageInsert_cases asid (pa / 4096 + i) lo hi hpdx hptx with
    ⟨t, ht, -, -, run'⟩ | ⟨p, pages, ht, zero, hfree, run'⟩ | ⟨ht, -, -, run'⟩
  all_goals rw [run'] at run; cases run
  · obtain ⟨was, old⟩ := filling.table t ht
    have hne : base ≠ t := fun eq => notFree (eq ▸ was)
    have same : ((s.tlbInvalidate asid va).mapPage t i (pa / 4096 + i) pteG).mem base =
        s.mem base := writeWord_of_page_ne hne
    refine ⟨fun q hq free => ?_, fun t' ht' => ?_⟩
    · have apart : q ≠ t := fun eq => free (eq ▸ was)
      exact (writeWord_of_page_ne apart).trans (filling.kept q hq free)
    · rw [same, ht] at ht'
      cases ht'
      exact ⟨was, words (s.tlbInvalidate asid va) t old⟩
  · cases zero
    have whole : s.pageFreeList = s₀.pageFreeList := h.free
    have was : p ∈ s₀.pageFreeList := by
      rw [← whole, hfree]
      exact List.mem_cons_self
    obtain ⟨-, named, -, -⟩ := (h.booting.tlbInvalidate asid va).install lo hi hfree
    have hne : base ≠ p := fun eq => notFree (eq ▸ was)
    have same : ((((s.tlbInvalidate asid va).take p pages).install base k p).mapPage p 0
        (pa / 4096 + 0) pteG).mem base =
          (((s.tlbInvalidate asid va).take p pages).install base k p).mem base :=
      writeWord_of_page_ne hne
    refine ⟨fun q hq free => ?_, fun t' ht' => ?_⟩
    · have apart : q ≠ p := fun eq => free (eq ▸ was)
      exact (writeWord_of_page_ne apart).trans ((writeWord_of_page_ne hq).trans
        ((Function.update_of_ne apart _ _).trans (filling.kept q hq free)))
    · rw [same, named] at ht'
      cases ht'
      exact ⟨was, words _ p fun j hj => absurd hj (Nat.not_lt_zero j)⟩
  · exact ⟨filling.kept, fun t' ht' => by cases ht.symm.trans ht'⟩

/-- `map_segment` maps pages that are not free in a window without a table. -/
theorem Booting.mapSegment_filling (h : Booting n base s) (asid pa va : Word) (size : Nat)
    (lo : 509 ≤ k) (hi : k < 511) (vacant : entry (s.mem base k) = none)
    (aligned : pa.toNat % 4096 = 0) (hva : va.toNat = k * 2 ^ 22) (whole : size % 4096 = 0)
    (fits : size ≤ 2 ^ 22) (inside : pa.toNat + size ≤ n * 4096)
    (inUse : ∀ q ∈ s.pageFreeList, pa.toNat + size ≤ q * 4096) :
    ∃ s', Mos.mapSegment s base asid pa va size pteG = .ok s' ∧
      Mapping n base k s (size / 4096) s' ∧
      Filling base k pa.toNat s (size / 4096) s' := by
  have npage_le := h.npage_le
  have ok : ¬ (pa.toNat % 4096 ≠ 0 ∨ va.toNat % 4096 ≠ 0 ∨ size % 4096 ≠ 0) := by
    rw [hva]
    omega
  rw [Mos.mapSegment, if_neg ok]
  refine (loop_spec _ (fun i s' => Mapping n base k s i s' ∧ Filling base k pa.toNat s i s')
    (k := 0) (n := size / 4096) (s := s) ?_ ?_).imp fun s' done => And.intro done.1 ?_
  · intro i s₁ _ hlt inv
    obtain ⟨mapping, filling⟩ := inv
    have small : (BitVec.ofNat 32 (i * 4096)).toNat = i * 4096 := by
      rw [BitVec.toNat_ofNat]
      omega
    have pa' : (pa + BitVec.ofNat 32 (i * 4096)).toNat = pa.toNat + i * 4096 := by
      rw [BitVec.toNat_add, small]
      omega
    have va' : (va + BitVec.ofNat 32 (i * 4096)).toNat = k * 2 ^ 22 + i * 4096 := by
      rw [BitVec.toNat_add, small, hva]
      omega
    have hpdx : pdx (va + BitVec.ofNat 32 (i * 4096)) = k := by
      rw [pdx_eq_div, va']
      omega
    have hptx : ptx (va + BitVec.ofNat 32 (i * 4096)) = i := by
      rw [ptx_eq_mod, va']
      omega
    have name : ppn (pa + BitVec.ofNat 32 (i * 4096)) = pa.toNat / 4096 + i := by
      rw [ppn_eq_div, pa']
      omega
    have lt : pa.toNat / 4096 + i < n := by omega
    have notFree : pa.toNat / 4096 + i ∉ s₁.pageFreeList := by
      rw [mapping.free]
      intro mem
      have := inUse _ (List.mem_of_mem_drop mem)
      omega
    obtain ⟨s₂, r, insert, next⟩ :=
      mapping.pageInsert asid lo hi hpdx hptx notFree lt
    refine ⟨s₂, ?_, next, filling.pageInsert mapping asid h.notFree lo hi hpdx hptx insert⟩
    have page : s₁.pa2page (pa + BitVec.ofNat 32 (i * 4096)) = .ok (pa.toNat / 4096 + i) := by
      rw [Pmap.pa2page, name, if_pos (by rw [mapping.booting.npage]; exact lt)]
    simp only [page, Bind.bind, Except.bind, insert]
  · exact ⟨⟨h, fun t ht => (by rw [vacant] at ht; cases ht), rfl,
      ⟨fun valid => absurd valid (entry_eq_none_iff.mp vacant),
        fun both => absurd both.1 (Nat.lt_irrefl 0)⟩, fun _ _ => rfl⟩,
      fun _ _ _ => rfl, fun t ht => (by rw [vacant] at ht; cases ht)⟩
  · have reached := done.2
    rw [Nat.zero_add] at reached
    exact reached

/-- The first pages of the array at `pa` are mapped in the window `k`. -/
def MapsArray (s : Pmap) (base k pa count : Nat) : Prop :=
  ∃ t, entry (s.mem base k) = some t ∧ ∀ j, j < count → s.mem t j = windowWord pa j

/-! ## From `page_init` on -/

theorem pageInit_free (b : Boot) :
    (pageInit b).pageFreeList = (List.range' b.bootPages (b.npage - b.bootPages)).reverse := by
  rw [pageInit, List.foldl_flip_cons_eq_append', List.append_nil]

theorem mem_pageInit_free : p ∈ (pageInit b).pageFreeList ↔ b.bootPages ≤ p ∧ p < b.npage := by
  rw [pageInit_free, List.mem_reverse, List.mem_range'_1]
  omega

theorem roundPage_envs : roundPage (nenv * sizeofEnv) = 1273856 := by decide

/-- The two arrays lie below the free pages. -/
theorem Boot.arrays_below (b : Boot) :
    b.pagesPa + roundPage (b.npage * sizeofPage) = b.bootPages * 4096 ∧
      b.envsPa + roundPage (nenv * sizeofEnv) ≤ b.bootPages * 4096 ∧
      b.bootPages ≤ b.npage := by
  have fit := b.pages_fit
  have below := b.envs_below
  simp only [Boot.bootPages, Boot.pagesPa, roundPage, sizeofEnv, nenv] at fit below ⊢
  omega

/-- The memory in which `env_init` maps the arrays. -/
theorem booting_pageInit (hfree : (pageInit b).pageFreeList = p :: pages) :
    Booting b.npage p (((pageInit b).take p pages).setRef p (((pageInit b).take p pages).ppRef p + 1)) := by
  have le := b.npage_le
  have nodup : (pageInit b).pageFreeList.Nodup := by
    rw [pageInit_free, List.nodup_reverse]
    exact List.nodup_range'
  have sub : ∀ q ∈ pages, q ∈ (pageInit b).pageFreeList := fun q hq => by
    rw [hfree]
    exact List.mem_cons_of_mem _ hq
  rw [hfree, List.nodup_cons] at nodup
  have zero : ∀ k, entry (((pageInit b).take p pages).mem p k) = none := by
    intro k
    rw [show ((pageInit b).take p pages).mem p = fun _ => 0 from Function.update_self ..]
    exact entry_zero
  refine ⟨rfl, by omega, nodup.2, fun q hq => ?_, fun q hq => (mem_pageInit_free.mp (sub q hq)).2,
    nodup.1, fun k _ _ t ht => ?_, fun t ht => ?_⟩
  · have hne : q ≠ p := fun eq => nodup.1 (eq ▸ hq)
    have bound := (mem_pageInit_free.mp (sub q hq)).1
    refine (Function.update_of_ne hne _ _).trans ?_
    exact if_neg (Nat.not_lt.mpr bound)
  · cases (zero k).symm.trans ht
  · cases (zero 509).symm.trans ht

/-- No env is in use. -/
abbrev noDirs : EnvIx → Option Nat := fun _ => none

theorem target_noDirs (mem : Nat → Nat → Word) (r : Ref EnvIx) : target noDirs mem r = none := by
  cases r <;> rfl

theorem Booting.pmapInv (h : Booting n base s) : PmapInv noDirs s where
  store :=
    { nodup := h.nodup
      free_count := h.count
      free_untargeted := fun _ _ r hr => by cases (target_noDirs s.mem r).symm.trans hr
      excl := fun r _ _ _ hr _ => by cases (target_noDirs s.mem r).symm.trans hr
      count_eq := fun r _ hr => by cases (target_noDirs s.mem r).symm.trans hr }
  tablesWritable _ _ _ he := by cases he
  npage_le := by
    rw [h.npage]
    exact h.npage_le
  free_lt p hp := by
    rw [h.npage]
    exact h.free_lt p hp
  target_lt r p hr := by cases (target_noDirs s.mem r).symm.trans hr
  selfMap _ _ he := by cases he
  window _ _ _ he := by cases he

theorem Booting.template (h : Booting n base s) : Template noDirs s base where
  bystander := ⟨h.notFree, fun r hr => by cases (target_noDirs s.mem r).symm.trans hr⟩
  window k lo hi valid := by
    have table := h.window k lo hi _ (entry_of_valid valid)
    exact ⟨table.writable, table.lt,
      ⟨table.notFree, fun r hr => by cases (target_noDirs s.mem r).symm.trans hr⟩,
      fun _ => table.readOnly, fun _ => table.inside⟩

/-- The kernel when `env_init` is done, in memory `pm` with the template `base`. -/
def kernelInit (pm : Pmap) (base : Nat) : Kernel where
  pm := pm
  basePgdir := base
  envs := fun _ => Env.zero
  curenv := none
  envFreeList := slots
  envSchedList := .init
  curPgdir := none
  asidBitmap := fun _ => 0
  mkenvidCount := 0
  schedCount := 0
  kstackTf := .zero

theorem dirs_kernelInit (pm : Pmap) (base : Nat) : (kernelInit pm base).dirs = noDirs := by
  funext e
  exact Kernel.dirs_of_mem (mem_slots e)

theorem Booting.kernelInv (h : Booting n base s) : KernelInv (kernelInit s base) where
  pm := by
    rw [dirs_kernelInit]
    exact h.pmapInv
  template := by
    rw [dirs_kernelInit]
    exact h.template
  free_nodup := nodup_slots
  free_status _ _ := rfl
  dstva_lt _ := by
    rw [BitVec.lt_def, utop_toNat]
    exact Nat.zero_lt_succ _

theorem atMost_kernelInit (pm : Pmap) (base k : Nat) : AtMost k (kernelInit pm base) := by
  intro p
  rw [dirs_kernelInit, refs_eq_zero_iff.mpr fun r hr => by cases (target_noDirs _ r).symm.trans hr]
  exact Nat.zero_le k

theorem bounded_kernelInit (pm : Pmap) (base : Nat) : Bounded (kernelInit pm base) :=
  atMost_kernelInit pm base 65535

/-- `env_init` needs one page for the template. It takes two more for the tables
of the windows, if there are any. -/
theorem envInit_windows (hfree : (pageInit b).pageFreeList = p :: pages) :
    ∃ pm, envInit b = .ok (kernelInit pm p) ∧ Booting b.npage p pm ∧
      pm.pageFreeList = pages.drop 2 ∧ (2 ≤ pages.length →
        MapsArray pm p 510 b.pagesPa (roundPage (b.npage * sizeofPage) / 4096) ∧
        MapsArray pm p 509 b.envsPa (roundPage (nenv * sizeofEnv) / 4096)) := by
  have le := b.npage_le
  have fit := b.array_le
  obtain ⟨pagesEnd, envsEnd, bootLe⟩ := b.arrays_below
  have lt := (mem_pageInit_free.mp (by rw [hfree]; exact List.mem_cons_self)).2
  have free : ∀ q ∈ pages, b.bootPages ≤ q := fun q hq =>
    (mem_pageInit_free.mp (by rw [hfree]; exact List.mem_cons_of_mem _ hq)).1
  have alloc : pageAlloc (pageInit b) = .ok ((pageInit b).take p pages, .ok p) :=
    pageAlloc_cons (by show b.npage ≤ _; omega) hfree lt
  have zero : ∀ k, entry (((pageInit b).take p pages).mem p k) = none := by
    intro k
    rw [show ((pageInit b).take p pages).mem p = fun _ => 0 from Function.update_self ..]
    exact entry_zero
  have pagesPa : (BitVec.ofNat 32 b.pagesPa).toNat = b.pagesPa := by
    rw [BitVec.toNat_ofNat]
    omega
  have envsPa : (BitVec.ofNat 32 b.envsPa).toNat = b.envsPa := by
    rw [BitVec.toNat_ofNat]
    omega
  have booting := booting_pageInit hfree
  have kva : (((pageInit b).take p pages).setRef p (((pageInit b).take p pages).ppRef p + 1)).page2kva p =
      .ok p := page2kva_eq (by show b.npage ≤ _; omega) lt
  obtain ⟨pm₁, run₁, map₁, fill₁⟩ :=
    booting.mapSegment_filling (k := 510) 0 (BitVec.ofNat 32 b.pagesPa)
    upages (roundPage (b.npage * sizeofPage)) (by omega) (by omega) (zero 510)
    (by rw [pagesPa, Boot.pagesPa]; omega) rfl (by rw [roundPage]; omega)
    (by rw [roundPage]; omega) (by rw [pagesPa]; omega)
    (fun q hq => by rw [pagesPa]; have := free q hq; omega)
  have free₁ : pm₁.pageFreeList = pages.drop 1 := by
    have pos : 0 < roundPage (b.npage * sizeofPage) / 4096 := by
      rw [roundPage, sizeofPage]
      omega
    rw [map₁.free, Nat.min_eq_right pos]
    rfl
  have vacant₁ : entry (pm₁.mem p 509) = none := by
    rw [map₁.row 509 (by omega)]
    exact zero 509
  have inside : (BitVec.ofNat 32 b.envsPa).toNat + roundPage
    (nenv * sizeofEnv) ≤ b.npage * 4096 := by
    rw [envsPa]
    exact Nat.le_trans envsEnd (Nat.mul_le_mul_right 4096 bootLe)
  obtain ⟨pm₂, run₂, map₂, fill₂⟩ := map₁.booting.mapSegment_filling (k := 509) 0
    (BitVec.ofNat 32 b.envsPa) uenvs (roundPage (nenv * sizeofEnv)) (by omega) (by omega) vacant₁
    (by rw [envsPa]; exact b.envs_aligned) rfl (by decide) (by decide) inside
    (fun q hq => by
      rw [free₁] at hq
      rw [envsPa]
      exact Nat.le_trans envsEnd (Nat.mul_le_mul_right 4096 (free q (List.mem_of_mem_drop hq))))
  refine ⟨pm₂, ?_, map₂.booting, ?_, fun enough => ?_⟩
  · simp only [envInit, alloc, Bind.bind, Except.bind, kva, run₁, run₂]
    rfl
  · rw [map₂.free, free₁, List.drop_drop]
    rfl
  · rw [pagesPa] at fill₁
    rw [envsPa] at fill₂
    have pos₁ : 0 < roundPage (b.npage * sizeofPage) / 4096 := by
      rw [roundPage, sizeofPage]
      omega
    have some₁ : pages ≠ [] := fun nil => by rw [nil] at enough; simp at enough
    have some₂ : pm₁.pageFreeList ≠ [] := by
      rw [free₁, ne_eq, List.drop_eq_nil_iff]
      omega
    have ht₁ := entry_of_valid (map₁.valid.mpr ⟨pos₁, some₁⟩)
    have ht₂ := entry_of_valid (map₂.valid.mpr ⟨by rw [roundPage_envs]; decide, some₂⟩)
    have table := map₁.booting.window 510 (by omega) (by omega) _ ht₁
    refine ⟨⟨ppn (pm₁.mem p 510), ?_, fun j hj => ?_⟩, _, ht₂, (fill₂.table _ ht₂).2⟩
    · rw [map₂.row 510 (by omega)]
      exact ht₁
    · rw [fill₂.kept _ table.notBase table.notFree]
      exact (fill₁.table _ ht₁).2 j hj

/-- So `env_init` leaves the memory well formed. -/
theorem envInit_spec (hfree : (pageInit b).pageFreeList = p :: pages) :
    ∃ pm, envInit b = .ok (kernelInit pm p) ∧ Booting b.npage p pm ∧
      pm.pageFreeList = pages.drop 2 := by
  obtain ⟨pm, run, booting, free, -⟩ := envInit_windows hfree
  exact ⟨pm, run, booting, free⟩

theorem envInit_noMem (hfree : (pageInit b).pageFreeList = []) : envInit b = .error .panicOn := by
  simp only [envInit, pageAlloc_nil hfree, Bind.bind, Except.bind]

theorem envInit_ok {k : Kernel} (h : envInit b = .ok k) : ∃ pm p, k = kernelInit pm p := by
  cases hfree : (pageInit b).pageFreeList with
  | nil =>
      rw [envInit_noMem hfree] at h
      cases h
  | cons p pages =>
      obtain ⟨pm, run, -⟩ := envInit_spec hfree
      rw [run] at h
      cases h
      exact ⟨pm, p, rfl⟩

/-- Booting establishes the invariant of the kernel. -/
theorem KernelInv.of_envInit {k : Kernel} (h : envInit b = .ok k) : KernelInv k ∧ Bounded k := by
  cases hfree : (pageInit b).pageFreeList with
  | nil =>
      rw [envInit_noMem hfree] at h
      cases h
  | cons p pages =>
      obtain ⟨pm, run, booting, -⟩ := envInit_spec hfree
      rw [run] at h
      cases h
      exact ⟨booting.kernelInv, bounded_kernelInit pm p⟩

/-! ## A kernel with two envs -/

/-- The kernel after `env_create` of an image without segments. -/
def Kernel.spawn (s : Kernel) (e : EnvIx) (rest : List EnvIx) (p : Nat) (pages : List Nat)
    (i : Nat) : Kernel :=
  let s := (s.newEnv e p pages).admitEnv e rest i 0
  let s := s.setEnv e fun env => { env with envPri := 1, envStatus := .runnable }
  let s := s.setEnv e fun env => { env with envTf := { env.envTf with cp0Epc := 0 } }
  { s with envSchedList := s.envSchedList.insertHead e }

theorem Kernel.dirs_spawn (s : Kernel) (e : EnvIx) (rest : List EnvIx) (p : Nat)
    (pages : List Nat) (i : Nat) :
    (s.spawn e rest p pages i).dirs = ((s.newEnv e p pages).admitEnv e rest i 0).dirs := by
  refine Kernel.dirs_congr rfl fun e' => ?_
  rcases eq_or_ne e' e with rfl | hne
  · simp [Kernel.spawn, Kernel.setEnv]
  · simp [Kernel.spawn, Kernel.setEnv, hne]

section Spawn

variable {s : Kernel} {e : EnvIx} {rest : List EnvIx} {i : Nat} (inv : KernelInv s)
  (hfree : s.envFreeList = e :: rest) (h : s.pm.pageFreeList = p :: pages)

include inv hfree h

theorem KernelInv.envCreate_eq (hasid : freeAsid s.asidBitmap = some i) :
    envCreate s ⟨[], 0⟩ 1 = .ok (s.spawn e rest p pages i, e) := by
  simp only [envCreate, inv.envAlloc_eq hfree h hasid, Bind.bind, Except.bind, loadIcode,
    loadPages]
  rfl

theorem KernelInv.spawn : KernelInv (s.spawn e rest p pages i) := by
  have admitted := inv.admitEnv hfree h i 0
  have nodup := inv.free_nodup
  rw [hfree, List.nodup_cons] at nodup
  have started := (admitted.setEnv (e := e)
    (f := fun env => { env with envPri := 1, envStatus := .runnable }) rfl
    (fun mem => absurd mem nodup.1) (admitted.dstva_lt e)).setEnv (e := e)
    (f := fun env => { env with envTf := { env.envTf with cp0Epc := 0 } }) rfl
    (fun mem => absurd mem nodup.1) (by simpa [Kernel.setEnv] using admitted.dstva_lt e)
  exact ⟨started.pm, started.template, started.free_nodup, started.free_status, started.dstva_lt⟩

theorem KernelInv.atMost_spawn {k : Nat} (most : AtMost k s) (pos : 0 < k) :
    AtMost k (s.spawn e rest p pages i) := by
  intro q
  rw [Kernel.dirs_spawn]
  exact inv.atMost_admitEnv most pos hfree h i 0 q

theorem KernelInv.bounded_spawn (bounded : Bounded s) : Bounded (s.spawn e rest p pages i) :=
  inv.atMost_spawn hfree h bounded (by decide)

end Spawn

theorem Boot.array_fits : 336 * sizeofPage ≤ 2 ^ 22 := by decide

theorem Boot.envs_fit : 4096 + nenv * sizeofEnv ≤ 312 * 4096 := by decide

/-- A machine with 336 pages, of which the kernel leaves 23. -/
def smallBoot : Boot where
  npage := 336
  kernEnd := 312 * 4096
  envsPa := 4096
  mem := fun _ _ => 0
  array_le := Boot.array_fits
  envs_aligned := Boot.envs_at_page
  envs_below := Boot.envs_fit
  pages_fit := by decide

/-- The pages of `smallBoot` that are free once two envs are created. -/
def sparePages : List Nat := (List.range' 313 18).reverse

theorem smallBoot_free :
    (pageInit smallBoot).pageFreeList = 335 :: 334 :: 333 :: 332 :: 331 :: sparePages := by
  rw [pageInit_free]
  decide

/-- `smallBoot` with two envs, of which the second is first on the queue. -/
def twoEnvs (pm : Pmap) : Kernel :=
  ((kernelInit pm 335).spawn 0 (1 :: laterSlots) 332 (331 :: sparePages) 0).spawn 1 laterSlots 331
    sparePages 1

theorem freeAsid_second :
    freeAsid (Function.update (fun _ => 0) 0 (0 ||| asidBit 0)) = some 1 := by decide

/-- The two envs can be created on `smallBoot`. -/
theorem twoEnvs_boot : ∃ pm s, envInit smallBoot = .ok (kernelInit pm 335) ∧
    envCreate (kernelInit pm 335) ⟨[], 0⟩ 1 = .ok (s, 0) ∧
    envCreate s ⟨[], 0⟩ 1 = .ok (twoEnvs pm, 1) ∧ Bounded s ∧ KernelInv (twoEnvs pm) ∧
    Bounded (twoEnvs pm) := by
  obtain ⟨pm, boot, booting, hfree⟩ := envInit_spec smallBoot_free
  have inv := booting.kernelInv
  have inv₁ := inv.spawn (i := 0) slots_eq hfree
  have bounded₁ := inv.bounded_spawn (i := 0) slots_eq hfree (bounded_kernelInit pm 335)
  exact ⟨pm, _, boot, inv.envCreate_eq slots_eq hfree freeAsid_init,
    inv₁.envCreate_eq rfl rfl freeAsid_second, bounded₁, inv₁.spawn rfl rfl,
      inv₁.bounded_spawn rfl rfl bounded₁⟩

theorem twoEnvs_envId (pm : Pmap) :
    ((twoEnvs pm).envs 0).envId = 2048 ∧ ((twoEnvs pm).envs 1).envId = 4097 := by
  simp [twoEnvs, Kernel.spawn, Kernel.newEnv, Kernel.setupEnv, Kernel.admitEnv, Kernel.setEnv,
    kernelInit]

theorem twoEnvs_env (pm : Pmap) : ((twoEnvs pm).envs 0).envParentId = 0 ∧
    ((twoEnvs pm).envs 0).envStatus = .runnable := by
  simp [twoEnvs, Kernel.spawn, Kernel.newEnv, Kernel.setupEnv, Kernel.admitEnv, Kernel.setEnv,
    kernelInit]

end Mos
