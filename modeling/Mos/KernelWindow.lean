import Mos.KernelRun

/-!
# What user programs see of the kernel

Above `UTOP` an env sees the `envs` and `pages` arrays, and at `UVPT` its own page
tables. The entries of the first two windows are those of the template, which
maps them read-only. At `UVPT` the page directory serves as a page table: its
entries for page tables carry `PTE_D`, so the window is writable but for the
directory itself.
-/

namespace Mos

variable {s s' s₀ : Kernel} {cur e : EnvIx} {va asid pte : Word} {b : Boot} {ops : List KernelOp}
  {fuel : Nat}

/-- `_do_tlb_refill` in the address space of `e`. -/
def Kernel.refill (s : Kernel) (e : EnvIx) (va : Word) (fuel : Nat) :
    Except Panic (Option (Kernel × Word)) :=
  doTlbRefill { s with curPgdir := some (s.envs e).envPgdir } va (s.envs e).envAsid fuel

section Entries

variable {ε : Type} [Fintype ε] {dirs : ε → Option Nat} {pm : Pmap} {x : ε} {d k p : Nat}
  {t : PtePtr}

/-- Every valid entry of a page directory is writable, but for the one that maps the
directory itself. -/
theorem PmapInv.pde_writable (inv : PmapInv dirs pm) (hx : dirs x = some d) (hk : k < 1024)
    (valid : (pm.mem d k).Has pteV) : (pm.mem d k).Has pteD ↔ k ≠ 511 := by
  rcases Nat.lt_or_ge k 509 with user | kernel
  · have writable := inv.tablesWritable x d ⟨k, user⟩ hx valid
    exact ⟨fun _ => by omega, fun _ => writable⟩
  · rcases eq_or_ne k 511 with rfl | hne
    · rw [inv.selfMap x d hx]
      exact ⟨fun h => absurd h entry_page2pa_not_writable, fun h => absurd rfl h⟩
    · exact ⟨fun _ => hne, fun _ => (inv.window x d k hx kernel hk hne valid).writable⟩

/-- What the windows map is not writable, but at `UVPT` the page tables are. -/
theorem PmapInv.window_writable (inv : PmapInv dirs pm) (hx : dirs x = some d) (lo : utop ≤ va)
    (hi : va < ulim) (found : lookup pm.mem d va = some (p, t)) :
    ¬ (pm.word t).Has pteD ↔ va < uvpt ∨ ptx va = 511 := by
  obtain ⟨table, ht, hp, rfl⟩ := lookup_eq_some_iff.mp found
  rcases Nat.lt_or_ge va.toNat uvpt.toNat with below | window
  · have kernel : 509 ≤ pdx va ∧ pdx va < 511 := by
      rw [BitVec.le_def, utop_toNat] at lo
      rw [uvpt_toNat] at below
      rw [pdx_eq_div]
      omega
    obtain ⟨valid, rfl⟩ := entry_eq_some_iff.mp ht
    have shown := inv.window x d _ hx kernel.1 (pdx_lt va) (by omega) valid
    exact ⟨fun _ => .inl (BitVec.lt_def.mpr below), fun _ => shown.readOnly kernel.2 _ (ptx_lt va)⟩
  · rw [inv.entry_window hx (BitVec.le_def.mpr window) hi] at ht
    cases ht
    have writable := inv.pde_writable hx (ptx_lt va) (entry_eq_some_iff.mp hp).1
    have notBelow : ¬ va < uvpt := BitVec.not_lt.mpr (BitVec.le_def.mpr window)
    simp only [Pmap.word, writable, notBelow, false_or, not_not]

end Entries

section Refill

variable (inv : LiveInv s) (bounded : Bounded s) (inUse : e ∉ s.envFreeList)

include inv bounded inUse

/-- A refill finds the entry in the page tables of the env. -/
theorem LiveInv.refill_ok (hi : va < ulim) (h : s.refill e va fuel = .ok (some (s', pte))) :
    ∃ p t, PmapInv s.dirs s'.pm ∧ lookup s'.pm.mem (s.envs e).envPgdir va = some (p, t) ∧
      pte = s'.pm.word t := by
  unfold Kernel.refill Mos.doTlbRefill at h
  obtain ⟨r, run, h⟩ := bind_eq_ok.mp h
  cases r with
  | none => cases h
  | some r =>
      cases h
      obtain ⟨step, p, t, found, word⟩ := inv.inv.pm.tlbRefillLoop (Kernel.dirs_of_notMem inUse)
        (fun q => Nat.lt_succ_of_le (bounded q)) hi run
      exact ⟨p, t, step.inv, found, word⟩

theorem LiveInv.refill_writable (lo : utop ≤ va) (hi : va < ulim)
    (h : s.refill e va fuel = .ok (some (s', pte))) :
    ¬ pte.Has pteD ↔ va < uvpt ∨ ptx va = 511 := by
  obtain ⟨p, t, inv', found, rfl⟩ := inv.refill_ok bounded inUse hi h
  exact inv'.window_writable (Kernel.dirs_of_notMem inUse) lo hi found

/-- The loop of `_do_tlb_refill` ends after two turns at most. -/
theorem LiveInv.refill_ends (hi : va < ulim) : s.refill e va (fuel + 2) ≠ .ok none := by
  intro h
  unfold Kernel.refill Mos.doTlbRefill at h
  obtain ⟨r, run, h⟩ := bind_eq_ok.mp h
  rcases inv.inv.pm.tlbRefillLoop_cases (Kernel.dirs_of_notMem inUse)
      (fun q => Nat.lt_succ_of_le (bounded q)) hi (s.envs e).envAsid fuel with
    ⟨pm, p, t, run', -⟩ | ⟨panic, run', -⟩
  all_goals rw [show Mos.tlbRefillLoop (s.envs e).envPgdir va (s.envs e).envAsid (fuel + 2) s.pm =
    .ok r from run] at run'; cases run'
  cases h

/-- With a page left, a refill in the page table window returns. -/
theorem LiveInv.refill_window (lo : uvpt ≤ va) (hi : va < ulim) (left : s.pm.pageFreeList ≠ []) :
    ∃ s' pte, s.refill e va 2 = .ok (some (s', pte)) := by
  have hd := Kernel.dirs_of_notMem inUse
  have run : ∃ pm word, Mos.tlbRefillLoop (s.envs e).envPgdir va (s.envs e).envAsid 2 s.pm =
      .ok (some (pm, word)) := by
    rcases inv.inv.pm.tlbRefillLoop_cases hd (fun q => Nat.lt_succ_of_le (bounded q)) hi
        (s.envs e).envAsid 0 with ⟨pm, p, t, run, -⟩ | ⟨panic, run, failed⟩
    · exact ⟨pm, _, run⟩
    · exfalso
      cases found : lookup s.pm.mem (s.envs e).envPgdir va with
      | some page =>
          simp [Mos.tlbRefillLoop, pageLookup_eq (inv.inv.pm.inMemory hd hi), found, Bind.bind,
            Except.bind] at run
      | none =>
          obtain ⟨p, rest, hfree⟩ := List.exists_cons_of_ne_nil left
          rw [inv.inv.pm.passiveAlloc_window hd lo hi
            ((inv.inv.pm.lookup_window_eq_none hd lo hi).mp found) hfree] at failed
          cases failed
  obtain ⟨pm, word, run⟩ := run
  refine ⟨({ s with curPgdir := some (s.envs e).envPgdir } : Kernel).withPm pm, word, ?_⟩
  simp only [Kernel.refill, Mos.doTlbRefill, run, Bind.bind, Except.bind]
  rfl

end Refill

/-- In every state the kernel reaches from boot, and for every env in use, the entry
a refill returns for an address in `[UTOP, ULIM)` is read-only exactly when the
address lies below `UVPT` or in the page that shows the page directory. -/
theorem refill_readOnly_iff (boot : envInit b = .ok s₀) (run : Run kernelStep s₀ ops s)
    (inUse : e ∉ s.envFreeList) (lo : utop ≤ va) (hi : va < ulim)
    (h : s.refill e va fuel = .ok (some (s', pte))) :
    ¬ pte.Has pteD ↔ va < uvpt ∨ ptx va = 511 := by
  obtain ⟨inv, bounded⟩ := kernelRun_inv boot run
  exact inv.refill_writable bounded inUse lo hi h

/-- A refill at `UVPT` returns an entry on `smallBoot`. -/
theorem refill_uvpt : ∃ s₀ s s' pte, envInit smallBoot = .ok s₀ ∧ Run kernelStep s₀ tickOps s ∧
    LiveInv s ∧ Bounded s ∧ (1 : EnvIx) ∉ s.envFreeList ∧
    s.refill 1 uvpt 2 = .ok (some (s', pte)) := by
  obtain ⟨s₀, s, boot, run, current, -, -, -, -, left⟩ := tickOps_run
  obtain ⟨inv, bounded⟩ := kernelRun_inv boot run
  have inUse := (inv.current 1 current).1
  obtain ⟨s', pte, refill⟩ := inv.refill_window bounded inUse (BitVec.le_refl uvpt) (by decide)
    (by rw [left]; decide)
  exact ⟨s₀, s, s', pte, boot, run, inv, bounded, inUse, refill⟩

theorem refill_readOnly_iff_uvpt : ∃ s₀ s s' pte, envInit smallBoot = .ok s₀ ∧
    Run kernelStep s₀ tickOps s ∧ s.refill 1 uvpt 2 = .ok (some (s', pte)) ∧
    (¬ pte.Has pteD ↔ uvpt < uvpt ∨ ptx uvpt = 511) := by
  obtain ⟨s₀, s, s', pte, boot, run, -, -, inUse, refill⟩ := refill_uvpt
  exact ⟨s₀, s, s', pte, boot, run, refill,
    refill_readOnly_iff boot run inUse (by decide) (by decide) refill⟩

/-- A user program can write the page table that `UVPT` shows. -/
theorem refill_not_readOnly : ¬ ∀ (b : Boot) (s₀ s s' : Kernel) (ops : List KernelOp) (e : EnvIx)
    (va pte : Word) (fuel : Nat), envInit b = .ok s₀ → Run kernelStep s₀ ops s →
      e ∉ s.envFreeList → utop ≤ va → va < ulim →
      s.refill e va fuel = .ok (some (s', pte)) → ¬ pte.Has pteD := by
  intro always
  obtain ⟨s₀, s, s', pte, boot, run, inv, bounded, inUse, refill⟩ := refill_uvpt
  have readOnly := always smallBoot s₀ s s' tickOps 1 uvpt pte 2 boot run inUse (by decide)
    (by decide) refill
  have shown := (inv.refill_writable bounded inUse (by decide) (by decide) refill).mp readOnly
  revert shown
  decide

end Mos
