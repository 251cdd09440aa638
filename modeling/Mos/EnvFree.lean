import Mos.EnvInv
import Mos.SchedStep

/-!
# Tearing an env down

`env_free` runs over the page directory and, in it, over each page table. The
invariant of both loops is `Teardown`: the memory stays well formed, nobody else
notices, and what the loop has passed is empty.
-/

namespace Mos

variable {ε : Type} [Fintype ε] {dirs : ε → Option Nat} {pm pm₀ : Pmap} {x : ε} {d t : Nat}

/-- The teardown of `x`, which started in `pm₀`, has come to `pm`. -/
structure Teardown (dirs : ε → Option Nat) (x : ε) (pm₀ pm : Pmap) : Prop where
  inv : PmapInv dirs pm
  frame : Frame dirs x noPage pm₀ pm
  bounded : ∀ p, refs (target dirs pm.mem) p < 2 ^ 16

theorem Teardown.tlbInvalidate (h : Teardown dirs x pm₀ pm) (asid va : Word) :
    Teardown dirs x pm₀ (pm.tlbInvalidate asid va) :=
  ⟨h.inv.tlbInvalidate asid va, h.frame.trans (.tlbInvalidate dirs x pm asid va), h.bounded⟩

variable [DecidableEq ε]

/-- One turn of the inner loop clears its entry. -/
theorem Teardown.envFreePte (h : Teardown dirs x pm₀ pm) (asid : Word) (he : dirs x = some d)
    {i : Fin 509}
    {j : Fin 1024} (ht : entry (pm.mem d i) = some t) :
    ∃ pm', Mos.envFreePte d asid t i j pm = .ok pm' ∧ Teardown dirs x pm₀ pm' ∧
      pm'.mem d = pm.mem d ∧ entry (pm'.mem t j) = none ∧
      ∀ k, k ≠ (j : Nat) → pm'.mem t k = pm.mem t k := by
  unfold Mos.envFreePte
  by_cases valid : (pm.mem t j).Has pteV
  · obtain ⟨hpdx, hptx⟩ := pdx_ptx_ofNat (i := i) (j := j) (by omega) j.isLt
    have hva : BitVec.ofNat 32 (i * 2 ^ 22 + j * 2 ^ 12) < ulim := by
      rw [BitVec.lt_def, ulim_toNat, BitVec.toNat_ofNat]
      omega
    have hp := entry_of_valid valid
    have bound := h.bounded (ppn (pm.mem t j))
    have remove : pageRemove pm d asid _ = _ := h.inv.pageRemove_some he hva
      (by rw [hpdx]; exact i.isLt) (by rw [hpdx]; exact ht) (by rw [hptx]; exact hp) bound
    rw [hptx] at remove
    obtain ⟨inv, frame⟩ := h.inv.unmap (i := i) (j := j) he ht hp bound
    have store := h.inv.store_unmap (j := j) (p := ppn (pm.mem t j)) he ht
    have tgt : target dirs (pm.unmap (ppn (pm.mem t j)) t j).mem =
        Function.update (target dirs pm.mem) (.pte x i j) none := congrArg RefStore.tgt store
    have unmapped : Teardown dirs x pm₀ (pm.unmap (ppn (pm.mem t j)) t j) := by
      refine ⟨inv, h.frame.trans frame, fun p => Nat.lt_of_le_of_lt (refs_mono fun r hr => ?_)
        (h.bounded p)⟩
      rw [tgt] at hr
      rcases eq_or_ne r (.pte x i j) with rfl | hne
      · simp at hr
      · rwa [Function.update_of_ne hne] at hr
    refine ⟨_, by rw [if_pos valid]; exact remove, unmapped.tlbInvalidate _ _, ?_, ?_, ?_⟩
    · exact directory_writeLeaf h.inv.excl he ht x d he
    · have word : (pm.unmap (ppn (pm.mem t j)) t j).mem t j = 0 := writeWord_self ..
      show entry ((pm.unmap (ppn (pm.mem t j)) t j).mem t j) = none
      rw [word]
      exact entry_zero
    · intro k hk
      exact writeWord_of_index_ne hk
  · exact ⟨pm, by rw [if_neg valid], h, rfl, entry_of_not_valid valid, fun _ _ => rfl⟩

/-- The inner loop empties the page table. -/
theorem Teardown.pteLoop (h : Teardown dirs x pm₀ pm) (asid : Word) (he : dirs x = some d)
    {i : Fin 509}
    (ht : entry (pm.mem d i) = some t) :
    ∃ pm', loop (Mos.envFreePte d asid t i) 0 1024 pm = .ok pm' ∧ Teardown dirs x pm₀ pm' ∧
      pm'.mem d = pm.mem d ∧ ∀ j : Fin 1024, entry (pm'.mem t j) = none := by
  obtain ⟨pm', run, done, directory, empty⟩ := loop_spec (Mos.envFreePte d asid t i)
    (fun j pm' => Teardown dirs x pm₀ pm' ∧ pm'.mem d = pm.mem d ∧
      ∀ k, k < j → entry (pm'.mem t k) = none)
    (k := 0) (n := 1024) (s := pm)
    (by
      intro j pm₁ _ hj ⟨h₁, directory, empty⟩
      obtain ⟨pm₂, run, h₂, same, cleared, others⟩ :=
        h₁.envFreePte asid (j := ⟨j, by omega⟩) he (by rw [directory]; exact ht)
      refine ⟨pm₂, run, h₂, same.trans directory, fun k hk => ?_⟩
      rcases Nat.lt_succ_iff_lt_or_eq.mp hk with hk | rfl
      · rw [others k (Nat.ne_of_lt hk)]
        exact empty k hk
      · exact cleared)
    ⟨h, rfl, fun k hk => absurd hk (Nat.not_lt_zero k)⟩
  exact ⟨pm', run, done, directory, fun j => empty j (by omega)⟩

/-- One turn of the outer loop gives the page table up. -/
theorem Teardown.envFreePde (h : Teardown dirs x pm₀ pm) (asid : Word) (he : dirs x = some d)
    (i : Fin 509) :
    ∃ pm', Mos.envFreePde d asid i pm = .ok pm' ∧ Teardown dirs x pm₀ pm' ∧
      entry (pm'.mem d i) = none ∧ ∀ k, k ≠ (i : Nat) → pm'.mem d k = pm.mem d k := by
  unfold Mos.envFreePde
  by_cases valid : (pm.mem d i).Has pteV
  · have ht := entry_of_valid valid
    have lt := h.inv.target_lt (.pde x i) _ ((target_pde he).trans ht)
    obtain ⟨pm₁, run, h₁, directory, empty⟩ := h.pteLoop asid he ht
    have ht₁ : entry (pm₁.mem d i) = some (ppn (pm.mem d i)) := by rw [directory]; exact ht
    have table : target dirs pm₁.mem (.pde x i) = some (ppn (pm.mem d i)) :=
      (target_pde he).trans ht₁
    obtain ⟨inv, frame⟩ := h₁.inv.dropTable he ht₁ empty
    have tgt : target dirs (pm₁.dropTable d i (ppn (pm.mem d i))).mem =
        Function.update (target dirs pm₁.mem) (.pde x i) none :=
      congrArg RefStore.tgt (h₁.inv.store_dropTable he ht₁ empty)
    have dropped : Teardown dirs x pm₀ (pm₁.dropTable d i (ppn (pm.mem d i))) := by
      refine ⟨inv, h₁.frame.trans frame, fun p => Nat.lt_of_le_of_lt (refs_mono fun r hr => ?_)
        (h₁.bounded p)⟩
      rw [tgt] at hr
      rcases eq_or_ne r (.pde x i) with rfl | hne
      · simp at hr
      · rwa [Function.update_of_ne hne] at hr
    have count : pm₁.ppRef (ppn (pm.mem d i)) ≠ 0 := h₁.inv.count_ne_zero table (h₁.bounded _)
    have npage : pm₁.npage = pm.npage := by
      have := h₁.frame.npage
      have := h.frame.npage
      omega
    have page : (pm₁.setWord (d, i) 0).pa2page (pteAddr (pm.mem d i)) =
        .ok (ppn (pm.mem d i)) := by
      simp only [Pmap.pa2page, ppn_pteAddr]
      exact if_pos (npage ▸ lt)
    have decref : pageDecref (pm₁.setWord (d, i) 0) (ppn (pm.mem d i)) =
        .ok (pm₁.dropTable d i (ppn (pm.mem d i))) := pageDecref_eq count
    refine ⟨_, ?_, dropped.tlbInvalidate asid (uvpt + BitVec.ofNat 32 (i * 2 ^ 12)), ?_, ?_⟩
    · simp only [if_pos valid, kaddr_pteAddr lt, Bind.bind, Except.bind, run, page, decref]
    · have word : (pm₁.dropTable d i (ppn (pm.mem d i))).mem d i = 0 := writeWord_self ..
      show entry ((pm₁.dropTable d i (ppn (pm.mem d i))).mem d i) = none
      rw [word]
      exact entry_zero
    · intro k hk
      have word : (pm₁.dropTable d i (ppn (pm.mem d i))).mem d k = pm₁.mem d k :=
        writeWord_of_index_ne hk
      exact word.trans (congrFun directory k)
  · exact ⟨pm, by rw [if_neg valid], h, entry_of_not_valid valid, fun _ _ => rfl⟩

/-- The outer loop empties the user part of the page directory. -/
theorem Teardown.pdeLoop (h : Teardown dirs x pm₀ pm) (asid : Word) (he : dirs x = some d) :
    ∃ pm', loop (Mos.envFreePde d asid) 0 509 pm = .ok pm' ∧ Teardown dirs x pm₀ pm' ∧
      ∀ i : Fin 509, entry (pm'.mem d i) = none := by
  obtain ⟨pm', run, done, empty⟩ := loop_spec (Mos.envFreePde d asid)
    (fun i pm' => Teardown dirs x pm₀ pm' ∧ ∀ k, k < i → entry (pm'.mem d k) = none)
    (k := 0) (n := 509) (s := pm)
    (by
      intro i pm₁ _ hi ⟨h₁, empty⟩
      obtain ⟨pm₂, run, h₂, cleared, others⟩ := h₁.envFreePde asid he ⟨i, by omega⟩
      refine ⟨pm₂, run, h₂, fun k hk => ?_⟩
      rcases Nat.lt_succ_iff_lt_or_eq.mp hk with hk | rfl
      · rw [others k (Nat.ne_of_lt hk)]
        exact empty k hk
      · exact cleared)
    ⟨h, fun k hk => absurd hk (Nat.not_lt_zero k)⟩
  exact ⟨pm', run, done, fun i => empty i (by omega)⟩

/-! ## Freeing an env of the kernel -/

variable {s : Kernel} {e : EnvIx}

/-- The kernel after the env `e` is back on the free list, in memory `pm`. -/
def Kernel.reclaim (s : Kernel) (e : EnvIx) (pm : Pmap) : Kernel :=
  { (asidFree s (s.envs e).envAsid).setEnv e fun env => { env with envStatus := .free } with
    pm := pm
    envFreeList := e :: s.envFreeList }

/-- The kernel takes back an env in use, and nobody else notices. -/
theorem KernelInv.envFreeVm (inv : KernelInv s) (bounded : Bounded s) (he : e ∉ s.envFreeList) :
    ∃ pm, Mos.envFreeVm s e = .ok (s.reclaim e pm) ∧ Frame s.dirs e noPage s.pm pm ∧
      KernelInv (s.reclaim e pm) := by
  have hd := Kernel.dirs_of_notMem he
  have start : Teardown s.dirs e s.pm s.pm :=
    ⟨inv.pm, .refl _ _ _ _, fun p => Nat.lt_succ_of_le (bounded p)⟩
  obtain ⟨pm, run, done, empty⟩ := start.pdeLoop (s.envs e).envAsid hd
  obtain ⟨dropped, frame, kept⟩ := done.inv.dropDir hd empty
  have dlt : (s.envs e).envPgdir < pm.npage := done.inv.target_lt (.dir e) _ hd
  have page : pm.pa2page (page2pa (s.envs e).envPgdir) = .ok (s.envs e).envPgdir := by
    simp only [Pmap.pa2page, ppn_page2pa (done.inv.page_lt dlt), if_pos dlt]
  have count : pm.ppRef (s.envs e).envPgdir ≠ 0 :=
    done.inv.count_ne_zero (r := .dir e) hd (done.bounded _)
  let pm' := (pm.decref (s.envs e).envPgdir).tlbInvalidate (s.envs e).envAsid
    (uvpt + BitVec.ofNat 32 (511 * 2 ^ 12))
  have dirs : (s.reclaim e pm').dirs = Function.update s.dirs e none := by
    funext e'
    rcases eq_or_ne e' e with rfl | hne
    · simp [Kernel.dirs, Kernel.reclaim]
    · simp [Kernel.dirs, Kernel.reclaim, asidFree, Kernel.setEnv, hne]
  refine ⟨pm', ?_, ?_, ?_, ?_, ?_, ?_, ?_⟩
  · simp only [Mos.envFreeVm, run, page, Bind.bind, Except.bind, pageDecref_eq count]
    rfl
  · exact (done.frame.trans frame).trans (.tlbInvalidate s.dirs e _ _ _)
  · rw [dirs]
    exact dropped.tlbInvalidate _ _
  · rw [dirs]
    refine inv.template.of_kept (done.frame.trans frame).npage fun q hq => ?_
    obtain ⟨hq', mem, -⟩ := done.frame.bystander q hq id
    obtain ⟨bystander⟩ := kept q hq'
    exact ⟨⟨bystander, by assumption⟩, mem⟩
  · exact List.nodup_cons.mpr ⟨he, inv.free_nodup⟩
  · intro e' he'
    rcases eq_or_ne e' e with rfl | hne
    · simp [Kernel.reclaim, asidFree, Kernel.setEnv]
    · have old := (List.mem_cons.mp he').resolve_left hne
      simpa [Kernel.reclaim, asidFree, Kernel.setEnv, hne] using inv.free_status e' old
  · intro e'
    have := inv.dstva_lt e'
    rcases eq_or_ne e' e with rfl | hne
    · simpa [Kernel.reclaim, asidFree, Kernel.setEnv] using this
    · simpa [Kernel.reclaim, asidFree, Kernel.setEnv, hne] using this

/-! ## What it takes to free an env -/

theorem pageDecref_free {s s' : Pmap} {p q : Nat} (h : Mos.pageDecref s p = .ok s')
    (hq : q ∈ s.pageFreeList) : q ∈ s'.pageFreeList := by
  unfold Mos.pageDecref at h
  by_cases pos : 0 < s.ppRef p
  · simp only [if_pos pos] at h
    by_cases last : (s.setRef p (s.ppRef p - 1)).ppRef p = 0
    · simp only [if_pos last, Mos.pageFree] at h
      cases h
      exact List.mem_cons_of_mem _ hq
    · simp only [if_neg last] at h
      cases h
      exact hq
  · simp only [if_neg pos] at h
    cases h

theorem pageRemove_free {s s' : Pmap} {pgdir q : Nat} {asid va : Word}
    (h : Mos.pageRemove s pgdir asid va = .ok s') (hq : q ∈ s.pageFreeList) :
    q ∈ s'.pageFreeList := by
  unfold Mos.pageRemove at h
  obtain ⟨found, -, h⟩ := bind_eq_ok.mp h
  cases found with
  | none =>
      cases h
      exact hq
  | some found =>
      obtain ⟨s₁, decref, h⟩ := bind_eq_ok.mp h
      cases h
      exact @pageDecref_free _ s₁ _ _ decref hq

theorem envFreePde_free {s s' : Pmap} {pgdir i q : Nat} {asid : Word}
    (h : Mos.envFreePde pgdir asid i s = .ok s') (hq : q ∈ s.pageFreeList) :
    q ∈ s'.pageFreeList := by
  unfold Mos.envFreePde at h
  split at h
  · obtain ⟨pt, -, h⟩ := bind_eq_ok.mp h
    obtain ⟨s₁, emptied, h⟩ := bind_eq_ok.mp h
    obtain ⟨p, -, h⟩ := bind_eq_ok.mp h
    obtain ⟨s₂, decref, h⟩ := bind_eq_ok.mp h
    cases h
    have kept : q ∈ s₁.pageFreeList := by
      refine loop_keeps (P := fun s => q ∈ s.pageFreeList) (fun j s s' step hq => ?_) hq emptied
      unfold Mos.envFreePte at step
      split at step
      · exact pageRemove_free step hq
      · cases step
        exact hq
    exact @pageDecref_free _ s₂ _ _ decref kept
  · cases h
    exact hq

/-- Whatever the memory looks like, freeing an env only adds to the free lists. -/
theorem envFree_ok {s' : Kernel} (h : Mos.envFree s e = .ok s') :
    ∃ pm q, s.envSchedList.remove e = some q ∧
      s' = { s.reclaim e pm with envSchedList := q } ∧
      ∀ p ∈ s.pm.pageFreeList, p ∈ pm.pageFreeList := by
  unfold Mos.envFree Mos.envFreeVm at h
  obtain ⟨s₁, freed, h⟩ := bind_eq_ok.mp h
  obtain ⟨pm₁, emptied, freed⟩ := bind_eq_ok.mp freed
  obtain ⟨page, -, freed⟩ := bind_eq_ok.mp freed
  obtain ⟨pm₂, decref, freed⟩ := bind_eq_ok.mp freed
  cases freed
  obtain ⟨q, remove, rfl⟩ := schedRemove_ok h
  refine ⟨_, q, remove, rfl, fun p hp => @pageDecref_free _ pm₂ _ _ decref ?_⟩
  exact loop_keeps (P := fun pm => p ∈ pm.pageFreeList)
    (fun i s s' step hq => envFreePde_free step hq) hp emptied

/-- An env is destroyed by freeing it; if it was running, another one runs next. -/
theorem KernelInv.envDestroy_cases {s' : Kernel} (inv : KernelInv s) (bounded : Bounded s)
    (he : e ∉ s.envFreeList) (h : Mos.envDestroy s e = .ok s') :
    ∃ pm q, Frame s.dirs e noPage s.pm pm ∧ KernelInv (s.reclaim e pm) ∧
      ((s.curenv = some e ∧
          Resumed { s.reclaim e pm with envSchedList := q, curenv := none } s') ∨
        (s.curenv ≠ some e ∧ s' = { s.reclaim e pm with envSchedList := q })) := by
  obtain ⟨pm, run, frame, inv'⟩ := inv.envFreeVm bounded he
  obtain ⟨s₁, freed, h⟩ := bind_eq_ok.mp h
  unfold Mos.envFree at freed
  rw [run] at freed
  obtain ⟨q, -, rfl⟩ := schedRemove_ok freed
  refine ⟨pm, q, frame, inv', ?_⟩
  by_cases self : s.curenv = some e
  · rw [if_pos (show (s.reclaim e pm).curenv = some e from self)] at h
    exact .inl ⟨self, (schedule_ok h).1⟩
  · rw [if_neg (show ¬ (s.reclaim e pm).curenv = some e from self)] at h
    cases h
    exact .inr ⟨self, rfl⟩

end Mos
