import Mos.EnvInv
import Mos.Tlbex

/-!
# What a TLB refill preserves

A fault below `UTOP` maps a fresh page. A fault in the page table window means
that the page directory has no entry at the index the address names, since the
directory is its own page table there; the fresh page then becomes a page table,
or, above `PDX(UTOP)`, a page behind a kernel entry.
-/

namespace Mos

variable {ε : Type} [Fintype ε] {dirs : ε → Option Nat} {s : Pmap} {e : ε} {d p : Nat}
  {va asid : Word}

omit [Fintype ε] in
theorem Fresh.tlbInvalidate (fresh : Fresh dirs s p) (asid va : Word) :
    Fresh dirs (s.tlbInvalidate asid va) p where
  notFree := fresh.notFree
  untargeted := fresh.untargeted
  lt := fresh.lt
  count := fresh.count
  zero := fresh.zero
  notKernel := fresh.notKernel

/-- In the window the page directory is the page table. -/
theorem PmapInv.entry_window (inv : PmapInv dirs s) (he : dirs e = some d) (lo : uvpt ≤ va)
    (hi : va < ulim) : entry (s.mem d (pdx va)) = some d := by
  have dlt := inv.target_lt (.dir e) d he
  rw [pdx_window lo hi, inv.selfMap e d he, entry_selfMap (inv.page_lt dlt)]

/-- The window shows no entry where the page directory has none. -/
theorem PmapInv.lookup_window_eq_none (inv : PmapInv dirs s) (he : dirs e = some d)
    (lo : uvpt ≤ va) (hi : va < ulim) :
    lookup s.mem d va = none ↔ entry (s.mem d (ptx va)) = none := by
  simp [lookup, inv.entry_window he lo hi]

/-- The state a fault in the page table window leaves behind. -/
def Pmap.faultIn (s : Pmap) (d p : Nat) (rest : List Nat) (asid va : Word) : Pmap :=
  ((s.take p rest).tlbInvalidate asid (pteAddr va)).install d (ptx va) p

/-- What is left for `passive_alloc` after its checks, outside the page table window. -/
theorem pdx_pteAddr_lt_of_guards {va : Word} (window : ¬(uvpt ≤ va ∧ va < ulim))
    (envs : ¬(uenvs ≤ va ∧ va < upages)) (pages : ¬(upages ≤ va ∧ va < uvpt))
    (kernel : ¬ulim ≤ va) : pdx (pteAddr va) < 509 := by
  rw [pdx_pteAddr]
  apply pdx_lt_of_lt_utop
  simp only [BitVec.lt_def, BitVec.le_def, uenvs_toNat, upages_toNat, uvpt_toNat,
    ulim_toNat, utop_toNat] at window envs pages kernel ⊢
  omega

theorem PmapInv.passiveAlloc_window (inv : PmapInv dirs s) (he : dirs e = some d)
    (lo : uvpt ≤ va) (hi : va < ulim) (vacant : entry (s.mem d (ptx va)) = none)
    {rest : List Nat} (h : s.pageFreeList = p :: rest) (asid : Word) :
    passiveAlloc s va d asid = .ok (s.faultIn d p rest asid va) := by
  have range : ¬ va < utemp ∧ ¬ (ustacktop ≤ va ∧ va < ustacktop + by2pg) ∧
      ¬ (uenvs ≤ va ∧ va < upages) ∧ ¬ (upages ≤ va ∧ va < uvpt) ∧ ¬ ulim ≤ va := by
    have guard : (ustacktop + by2pg).toNat = 0x7f3ff000 := rfl
    rw [BitVec.le_def, uvpt_toNat] at lo
    rw [BitVec.lt_def, ulim_toNat] at hi
    simp only [BitVec.lt_def, BitVec.le_def, utemp_toNat, ustacktop_toNat, uenvs_toNat,
      upages_toNat, uvpt_toNat, ulim_toNat, guard]
    omega
  obtain ⟨low, guard, envs, pages, kernel⟩ := range
  obtain ⟨taken, frame, fresh⟩ := inv.take (e := e) h
  have dlt : d < (s.take p rest).npage := taken.target_lt (.dir e) d he
  have table : entry ((s.take p rest).mem d (pdx (pteAddr va))) = some d := by
    rw [pdx_pteAddr]
    exact taken.entry_window he lo hi
  have hne : d ≠ p := by
    rintro rfl
    exact fresh.untargeted (.dir e) he
  have empty : ¬ ((s.take p rest).word (d, ptx (pteAddr va))).Has pteV := by
    have same : (s.take p rest).mem d = s.mem d := Function.update_of_ne hne _ _
    rw [ptx_pteAddr, Pmap.word, same]
    exact entry_eq_none_iff.mp vacant
  have walk : pgdirWalk (s.take p rest) d (pteAddr va) false =
      .ok (s.take p rest, .ok (some (d, ptx (pteAddr va)))) := pgdirWalk_some table dlt
  have insert : Mos.pageInsert (s.take p rest) d asid p (pteAddr va) pteD =
      .ok (s.faultIn d p rest asid va, .ok ()) := by
    simp only [Mos.pageInsert, walk, Bind.bind, Except.bind, if_neg empty]
    rw [pageInsertNew_eq table dlt, ptx_pteAddr]
    rfl
  simp only [passiveAlloc, if_neg low, if_neg guard, if_neg envs, if_neg pages, if_neg kernel,
    inv.pageAlloc_cons h, Bind.bind, Except.bind, insert]

variable [DecidableEq ε]

/-- The memory stays well formed, and bystanders stay what they are. -/
structure Undisturbed (dirs : ε → Option Nat) (s s' : Pmap) : Prop where
  inv : PmapInv dirs s'
  npage : s'.npage = s.npage
  kept : ∀ q, Bystander dirs s q → Bystander dirs s' q ∧ s'.mem q = s.mem q

omit [DecidableEq ε] in
theorem Undisturbed.of_frame {s' : Pmap} (inv : PmapInv dirs s')
    (frame : Frame dirs e noPage s s') :
    Undisturbed dirs s s' :=
  ⟨inv, frame.npage, fun q hq =>
    ⟨(frame.bystander q hq id).1, (frame.bystander q hq id).2.1⟩⟩

/-- A fault in the page table window installs a page table, or a page behind a
kernel entry. -/
theorem PmapInv.faultIn (inv : PmapInv dirs s) (he : dirs e = some d)
    (vacant : entry (s.mem d (ptx va)) = none) {rest : List Nat}
    (h : s.pageFreeList = p :: rest) (asid : Word) :
    Undisturbed dirs s (s.faultIn d p rest asid va) := by
  have isFree : p ∈ s.pageFreeList := by rw [h]; exact List.mem_cons_self
  obtain ⟨taken, frame, fresh⟩ := inv.take (e := e) h
  have hne : d ≠ p := by
    rintro rfl
    exact fresh.untargeted (.dir e) he
  have vacant' : entry (((s.take p rest).tlbInvalidate asid (pteAddr va)).mem d (ptx va)) = none := by
    rw [show ((s.take p rest).tlbInvalidate asid (pteAddr va)).mem d = s.mem d from
      Function.update_of_ne hne _ _]
    exact vacant
  have inv₁ := taken.tlbInvalidate asid (pteAddr va)
  have fresh₁ := fresh.tlbInvalidate asid (pteAddr va)
  by_cases user : ptx va < 509
  · obtain ⟨inv', frame'⟩ := inv₁.install (i := ⟨_, user⟩) he vacant' fresh₁
    refine .of_frame inv' (frame.trans_excepting (p := p)
      (Frame.trans ?_ frame') fun hb => hb.notFree isFree)
    exact (Frame.tlbInvalidate dirs e _ asid (pteAddr va)).weaken fun _ _ hX => hX.elim
  · have self : ptx va ≠ 511 := by
      intro eq
      rw [eq, inv.selfMap e d he,
        entry_selfMap (inv.page_lt (inv.target_lt (.dir e) d he))] at vacant
      cases vacant
    obtain ⟨inv', kept⟩ := inv₁.installKernel he (by omega) self
      (entry_eq_none_iff.mp vacant') fresh₁
    refine ⟨inv', frame.npage, fun q hq => ?_⟩
    obtain ⟨hq', mem, -⟩ := frame.bystander q hq id
    obtain ⟨hq'', mem'⟩ := kept q ⟨hq'.notFree, hq'.untargeted⟩ fun eq => hq.notFree (eq ▸ isFree)
    exact ⟨hq'', mem'.trans mem⟩

/-- `passive_alloc` panics on an address that is not to be mapped or for lack of
memory, and otherwise keeps the memory well formed. It is called on a fault: the
page table window has nothing at `va`. -/
theorem PmapInv.passiveAlloc (inv : PmapInv dirs s) (he : dirs e = some d)
    (bounded : ∀ q, refs (target dirs s.mem) q < 2 ^ 16)
    (fault : uvpt ≤ va → lookup s.mem d va = none) (asid : Word) :
    (∃ panic, Mos.passiveAlloc s va d asid = .error panic ∧ panic ≠ .pageFree ∧
      panic ≠ .pageDecref) ∨
    ∃ s', Mos.passiveAlloc s va d asid = .ok s' ∧ Undisturbed dirs s s' := by
  by_cases window : uvpt ≤ va ∧ va < ulim
  · obtain ⟨lo, hi⟩ := window
    have vacant := (inv.lookup_window_eq_none he lo hi).mp (fault lo)
    cases h : s.pageFreeList with
    | nil =>
        refine .inl ?_
        unfold Mos.passiveAlloc
        rw [pageAlloc_nil h]
        split_ifs <;> exact ⟨_, rfl, by simp, by simp⟩
    | cons p rest =>
        exact .inr ⟨_, inv.passiveAlloc_window he lo hi vacant h asid,
          inv.faultIn he vacant h asid⟩
  · unfold Mos.passiveAlloc
    by_cases low : va < utemp
    · exact .inl ⟨_, if_pos low, by simp, by simp⟩
    rw [if_neg low]
    by_cases guard : ustacktop ≤ va ∧ va < ustacktop + by2pg
    · exact .inl ⟨_, if_pos guard, by simp, by simp⟩
    rw [if_neg guard]
    by_cases envs : uenvs ≤ va ∧ va < upages
    · exact .inl ⟨_, if_pos envs, by simp, by simp⟩
    rw [if_neg envs]
    by_cases pages : upages ≤ va ∧ va < uvpt
    · exact .inl ⟨_, if_pos pages, by simp, by simp⟩
    rw [if_neg pages]
    by_cases kernel : ulim ≤ va
    · exact .inl ⟨_, if_pos kernel, by simp, by simp⟩
    rw [if_neg kernel]
    have user := pdx_pteAddr_lt_of_guards window envs pages kernel
    cases h : s.pageFreeList with
    | nil =>
        rw [pageAlloc_nil h]
        exact .inl ⟨_, rfl, by simp, by simp⟩
    | cons p rest =>
        obtain ⟨s', res, run, inv', frame⟩ :=
          inv.pageInsert_taken bounded he user (by decide : pteD < 0x1000#32) h asid
        simp only [inv.pageAlloc_cons h, Bind.bind, Except.bind, run]
        cases res with
        | error err => exact .inl ⟨_, rfl, by simp, by simp⟩
        | ok _ => exact .inr ⟨s', rfl, .of_frame inv' frame⟩

/-- What a fault maps is found by the next lookup. -/
theorem PmapInv.lookup_passiveAlloc {s' : Pmap} (inv : PmapInv dirs s) (he : dirs e = some d)
    (bounded : ∀ q, refs (target dirs s.mem) q < 2 ^ 16)
    (fault : uvpt ≤ va → lookup s.mem d va = none)
    (h : Mos.passiveAlloc s va d asid = .ok s') : lookup s'.mem d va ≠ none := by
  by_cases window : uvpt ≤ va ∧ va < ulim
  · obtain ⟨lo, hi⟩ := window
    have vacant := (inv.lookup_window_eq_none he lo hi).mp (fault lo)
    cases hfree : s.pageFreeList with
    | nil =>
        unfold Mos.passiveAlloc at h
        rw [pageAlloc_nil hfree] at h
        split_ifs at h
        cases h
    | cons p rest =>
        rw [inv.passiveAlloc_window he lo hi vacant hfree] at h
        cases h
        have after := (@PmapInv.faultIn _ _ _ _ _ _ _ va _ inv he vacant _ hfree asid).inv
        have word : (s.faultIn d p rest asid va).mem d (ptx va) = page2pa p ||| pteD ||| pteV :=
          writeWord_self ..
        rw [ne_eq, after.lookup_window_eq_none he lo hi, word]
        exact fun none => absurd (entry_valid _ _) (entry_eq_none_iff.mp none)
  · unfold Mos.passiveAlloc at h
    split_ifs at h with low guard envs pages kernel
    have user := pdx_pteAddr_lt_of_guards window envs pages kernel
    cases hfree : s.pageFreeList with
    | nil =>
        rw [pageAlloc_nil hfree] at h
        cases h
    | cons p rest =>
        obtain ⟨taken, -, fresh⟩ := inv.take (e := e) hfree
        have counted : Counted dirs (s.take p rest) d (pteAddr va) := by
          intro q _ _
          rw [inv.target_take hfree]
          exact bounded q
        simp only [inv.pageAlloc_cons hfree, Bind.bind, Except.bind] at h
        cases run : Mos.pageInsert (s.take p rest) d asid p (pteAddr va) pteD with
        | error panic =>
            rw [run] at h
            cases h
        | ok result =>
            obtain ⟨s₁, res⟩ := result
            rw [run] at h
            cases res with
            | error err => cases h
            | ok _ =>
                cases h
                obtain ⟨t, ht, word⟩ := taken.pageInsert_word he user counted run
                rw [pdx_pteAddr] at ht
                rw [ptx_pteAddr] at word
                rw [lookup_eq_some ht (entry_of_valid (by rw [word]; exact entry_valid _ _))]
                simp

/-- Two turns are enough for `_do_tlb_refill`: it returns the entry for `va`, after
at most one page fault, or that fault panics. -/
theorem PmapInv.tlbRefillLoop_cases (inv : PmapInv dirs s) (he : dirs e = some d)
    (bounded : ∀ q, refs (target dirs s.mem) q < 2 ^ 16) (hva : va < ulim) (asid : Word)
    (fuel : Nat) :
    (∃ s' p t, Mos.tlbRefillLoop d va asid (fuel + 2) s = .ok (some (s', s'.word t)) ∧
      lookup s'.mem d va = some (p, t) ∧
      (s' = s ∨ Mos.passiveAlloc s va d asid = .ok s' ∧ Undisturbed dirs s s')) ∨
    ∃ panic, Mos.tlbRefillLoop d va asid (fuel + 2) s = .error panic ∧
      Mos.passiveAlloc s va d asid = .error panic := by
  cases found : lookup s.mem d va with
  | some page =>
      obtain ⟨p, t⟩ := page
      refine .inl ⟨s, p, t, ?_, found, .inl rfl⟩
      simp only [Mos.tlbRefillLoop, pageLookup_eq (inv.inMemory he hva), found, Bind.bind,
        Except.bind]
  | none =>
      rcases inv.passiveAlloc he bounded (fun _ => found) asid with
        ⟨panic, run, -, -⟩ | ⟨s₁, run, step⟩
      · refine .inr ⟨panic, ?_, run⟩
        simp only [Mos.tlbRefillLoop, pageLookup_eq (inv.inMemory he hva), found, Bind.bind,
          Except.bind, run]
      · obtain ⟨⟨p, t⟩, found₁⟩ := Option.ne_none_iff_exists'.mp
          (inv.lookup_passiveAlloc he bounded (fun _ => found) run)
        refine .inl ⟨s₁, p, t, ?_, found₁, .inr ⟨run, step⟩⟩
        simp only [Mos.tlbRefillLoop, pageLookup_eq (inv.inMemory he hva), found, Bind.bind,
          Except.bind, run, pageLookup_eq (step.inv.inMemory he hva), found₁]

omit [Fintype ε] [DecidableEq ε] in
/-- More turns do not change what the loop returns. -/
theorem tlbRefillLoop_mono {r : Pmap × Word} {fuel : Nat}
    (h : Mos.tlbRefillLoop d va asid fuel s = .ok (some r)) :
    Mos.tlbRefillLoop d va asid (fuel + 1) s = .ok (some r) := by
  induction fuel generalizing s with
  | zero => cases h
  | succ fuel ih =>
      unfold Mos.tlbRefillLoop at h ⊢
      obtain ⟨found, lookup, h⟩ := bind_eq_ok.mp h
      rw [lookup]
      cases found with
      | some page => exact h
      | none =>
          obtain ⟨s₁, alloc, h⟩ := bind_eq_ok.mp h
          show (Mos.passiveAlloc s va d asid >>= fun s => _) = _
          rw [alloc]
          exact ih h

theorem PmapInv.tlbRefillLoop {s' : Pmap} {pte : Word} {fuel : Nat} (inv : PmapInv dirs s)
    (he : dirs e = some d) (bounded : ∀ q, refs (target dirs s.mem) q < 2 ^ 16) (hva : va < ulim)
    (h : Mos.tlbRefillLoop d va asid fuel s = .ok (some (s', pte))) :
    Undisturbed dirs s s' ∧ ∃ p t, lookup s'.mem d va = some (p, t) ∧ pte = s'.word t := by
  have more := tlbRefillLoop_mono (tlbRefillLoop_mono h)
  rcases inv.tlbRefillLoop_cases he bounded hva asid fuel with
    ⟨s₁, p, t, run, found, rfl | ⟨-, step⟩⟩ | ⟨panic, run, -⟩
  all_goals rw [run] at more; cases more
  · exact ⟨⟨inv, rfl, fun q hq => ⟨hq, rfl⟩⟩, p, t, found, rfl⟩
  · exact ⟨step, p, t, found, rfl⟩

/-- A page fault keeps the invariant of the kernel. -/
theorem KernelInv.undisturbed {s : Kernel} {pm : Pmap} (inv : KernelInv s)
    (h : Undisturbed s.dirs s.pm pm) :
    KernelInv (s.withPm pm) where
  pm := h.inv
  template := inv.template.of_kept h.npage h.kept
  free_nodup := inv.free_nodup
  free_status := inv.free_status
  dstva_lt := inv.dstva_lt

end Mos
