import Mos.Cow
import Mos.FailedCalls

/-!
# Reference counts that wrap

`pp_ref` has 16 bits, and `page_insert` adds to it without a look at its value. It also ors
the whole `perm` into the entry, so that bits above the flags change the page that the entry
names. As long as no call maps a page that has 65535 references already, or with such bits,
the counts are exact and no page is freed while it is mapped (`counts_ok`). An env that maps
one page often enough gets past that.
-/

namespace Mos

/-- Every page in use has as many references as its count says, and a free page has
none. -/
structure CountsOk (s : Kernel) : Prop where
  exact : ∀ r p, target s.dirs s.pm.mem r = some p →
    (s.pm.ppRef p).toNat = refs (target s.dirs s.pm.mem) p
  free : ∀ p ∈ s.pm.pageFreeList, refs (target s.dirs s.pm.mem) p = 0

/-- The permission is made of flags. -/
def MemCall.PermLegal : MemCall → Prop
  | .alloc _ _ perm => perm < 0x1000#32
  | .map _ _ _ _ perm => perm < 0x1000#32
  | .unmap _ _ => True

/-- A memory call by the running env, or anything else that the kernel does. -/
inductive CountOp
  | mem (call : MemCall)
  | other (op : KernelOp)

/-- Only the memory calls may count too far, or map with any permission. -/
def countStep (s : Kernel) (op : CountOp) (s' : Kernel) : Prop :=
  match op with
  | .mem call => (∃ cur, s.curenv = some cur) ∧ ∃ r, call.exec s = .ok (s', r)
  | .other op => kernelStep s op s'

/-- The call maps a page that has 65535 references, where the page is not mapped yet. -/
def MemCall.Overflows (s : Kernel) : MemCall → Prop
  | .map srcid srcva dstid dstva _ => ¬ isIllegalVa srcva ∧ ¬ isIllegalVa dstva ∧
      ∃ e x pp pte, envid2env s srcid true = .ok (.ok e) ∧ envid2env s dstid true = .ok (.ok x) ∧
        pageLookup s.pm (s.envs e).envPgdir srcva = .ok (some (pp, pte)) ∧
        refs (target s.dirs s.pm.mem) pp = 65535 ∧
        (∀ pte', pageLookup s.pm (s.envs x).envPgdir dstva ≠ .ok (some (pp, pte'))) ∧
        (entry (s.pm.mem (s.envs x).envPgdir (pdx dstva)) = none → s.pm.pageFreeList ≠ [])
  | _ => False

/-- A step that maps no page too often, and none with more than flags. -/
def roomStep (s : Kernel) (op : CountOp) (s' : Kernel) : Prop :=
  (∀ call, op = .mem call → call.PermLegal ∧ ¬ call.Overflows s) ∧ countStep s op s'

section Removal

variable {ε : Type} [Fintype ε] [DecidableEq ε] {dirs : ε → Option Nat} {pm pm' : Pmap} {x : ε}
  {d : Nat} {va asid : Word}

/-- `page_remove` adds no reference. -/
theorem PmapInv.refs_pageRemove (inv : PmapInv dirs pm) (hx : dirs x = some d)
    (user : pdx va < 509) (run : Mos.pageRemove pm d asid va = .ok pm') (q : Nat) :
    refs (target dirs pm'.mem) q ≤ refs (target dirs pm.mem) q := by
  have below : va < ulim := lt_ulim_of_pdx_lt user
  cases ht : entry (pm.mem d (pdx va)) with
  | none =>
      have nothing : lookup pm.mem d va = none := by rw [lookup, ht]; rfl
      rw [inv.pageRemove_none hx below nothing, Except.ok.injEq] at run
      rw [← run]
  | some t =>
      obtain ⟨w, invalid, mem⟩ := inv.pageRemove_word hx below ht run
      have tgt : target dirs (writeWord pm.mem t (ptx va) w) =
          Function.update (target dirs pm.mem) (.pte x ⟨_, user⟩ ⟨_, ptx_lt va⟩) (entry w) :=
        target_writeLeaf (i := ⟨_, user⟩) (j := ⟨_, ptx_lt va⟩) inv.excl hx ht w
      rw [mem, tgt, entry_of_not_valid invalid]
      refine refs_mono fun r hr => ?_
      rcases eq_or_ne r (.pte x ⟨_, user⟩ ⟨_, ptx_lt va⟩) with rfl | hne
      · rw [Function.update_self] at hr
        cases hr
      · rwa [Function.update_of_ne hne] at hr

end Removal

variable {s s' s₀ : Kernel} {cur : EnvIx} {b : Boot} {ops : List CountOp} {r : Ret}

theorem LiveInv.countsOk (inv : LiveInv s) (bounded : Bounded s) : CountsOk s where
  exact _ p h := inv.inv.pm.store.count_toNat h (Nat.lt_succ_of_le (bounded p))
  free p h := refs_eq_zero_iff.mpr (inv.inv.pm.store.free_untargeted p h)

/-- Where the counts are exact they are within their bound. -/
theorem CountsOk.bounded (ok : CountsOk s) : Bounded s := by
  intro p
  rcases Nat.eq_zero_or_pos (refs (target s.dirs s.pm.mem) p) with zero | pos
  · rw [zero]
    exact Nat.zero_le _
  · have named : ∃ r, target s.dirs s.pm.mem r = some p := by
      by_contra none
      push Not at none
      exact Nat.ne_of_gt pos (refs_eq_zero_iff.mpr none)
    obtain ⟨r, hr⟩ := named
    rw [← ok.exact r p hr]
    exact Nat.le_of_lt_succ (s.pm.ppRef p).isLt

theorem LiveInv.memCall {call : MemCall} (inv : LiveInv s) (bounded : Bounded s)
    (hcur : s.curenv = some cur) (flags : call.PermLegal) (h : call.exec s = .ok (s', r)) :
    LiveInv s' := by
  have inUse := (inv.current cur hcur).1
  cases call with
  | alloc envid va perm =>
      obtain ⟨e, pm, r', run, step⟩ := inv.inv.sysMemAlloc bounded hcur inUse flags
      rw [show sysMemAlloc s envid va perm = _ from h, Except.ok.injEq, Prod.mk.injEq] at run
      rw [run.1]
      exact inv.memStep step
  | map srcid srcva dstid dstva perm =>
      obtain ⟨e, pm, r', run, step⟩ := inv.inv.sysMemMap bounded hcur inUse flags
      rw [show sysMemMap s srcid srcva dstid dstva perm = _ from h, Except.ok.injEq,
        Prod.mk.injEq] at run
      rw [run.1]
      exact inv.memStep step
  | unmap envid va =>
      obtain ⟨e, pm, r', run, step⟩ := inv.inv.sysMemUnmap bounded hcur inUse
      rw [show sysMemUnmap s envid va = _ from h, Except.ok.injEq, Prod.mk.injEq] at run
      rw [run.1]
      exact inv.memStep step

/-- A call that does not map a page too often leaves all counts within their bound. -/
theorem LiveInv.bounded_memCall {call : MemCall} (inv : LiveInv s) (bounded : Bounded s)
    (flags : call.PermLegal) (room : ¬ call.Overflows s) (h : call.exec s = .ok (s', r)) :
    Bounded s' := by
  cases call with
  | alloc envid va perm => exact inv.bounded_sysMemAlloc bounded flags h
  | map srcid srcva dstid dstva perm =>
      rcases sysMemMap_cases h with ⟨rfl, -⟩ |
        ⟨e, x, pp, pte, pm, res, legal', legal, hsrc, hdst, look, run, rfl, -⟩
      · exact bounded
      · have hd := Kernel.dirs_of_notMem (inv.envid2env hdst)
        have he := Kernel.dirs_of_notMem (inv.envid2env hsrc)
        have below := lt_utop_of_legal legal
        have below' := lt_utop_of_legal legal'
        have found := pageLookup_eq (inv.inv.pm.inMemory he (lt_ulim_of_lt_utop below'))
        rw [look, Except.ok.injEq] at found
        obtain ⟨t, ht, hp, -⟩ := lookup_eq_some_iff.mp found.symm
        have lt := inv.inv.pm.target_lt
          (.pte e ⟨_, pdx_lt_of_lt_utop below'⟩ ⟨_, ptx_lt srcva⟩) pp
          ((target_pte he ht).trans hp)
        have counted : Counted s.dirs s.pm (s.envs x).envPgdir dstva :=
          fun q _ _ => Nat.lt_succ_of_le (bounded q)
        intro q
        have old := bounded q
        rcases inv.inv.pm.refs_pageInsert_le hd (pdx_lt_of_lt_utop below) counted lt
          flags run q with le | ⟨rfl, unmapped, rfl, le⟩
        · exact le.trans (max_le old (by decide))
        · have few : refs (target s.dirs s.pm.mem) q ≠ 65535 := by
            intro full
            refine room ⟨legal', legal, e, x, q, pte, hsrc, hdst, look, full,
              fun pte' same => ?_, fun vacant empty => ?_⟩
            · rw [pageLookup_eq (inv.inv.pm.inMemory hd (lt_ulim_of_lt_utop below)),
                Except.ok.injEq] at same
              exact unmapped pte' same
            · rcases (inv.addressable (inv.envid2env hdst) below).1.pageInsert run with
                ⟨-, -, -, failed⟩ | ⟨more, -⟩
              · cases failed
              · exact more vacant empty
          exact le.trans (by omega)
  | unmap envid va =>
      rcases sysMemUnmap_cases h with ⟨rfl, -⟩ | ⟨e, pm, legal, named, run, rfl, -⟩
      · exact bounded
      · intro q
        exact (inv.inv.pm.refs_pageRemove (Kernel.dirs_of_notMem (inv.envid2env named))
          (pdx_lt_of_lt_utop (lt_utop_of_legal legal)) run q).trans (bounded q)

theorem roomStep_preserves {op : CountOp} (h : LiveInv s ∧ Bounded s) (step : roomStep s op s') :
    LiveInv s' ∧ Bounded s' := by
  obtain ⟨room, step⟩ := step
  cases op with
  | mem call =>
      obtain ⟨flags, below⟩ := room call rfl
      obtain ⟨⟨cur, hcur⟩, r, run⟩ := step
      exact ⟨h.1.memCall h.2 hcur flags run, h.1.bounded_memCall h.2 flags below run⟩
  | other op => exact kernelStep_preserves h step

/-- In a run that maps no page too often and only with flags all counts are exact, and no
page is free while it is mapped. -/
theorem counts_ok (boot : envInit b = .ok s₀) (run : Run roomStep s₀ ops s) : CountsOk s := by
  obtain ⟨inv, bounded⟩ := run.invariant (fun s => LiveInv s ∧ Bounded s) (LiveInv.of_envInit boot)
    fun _ _ _ => roomStep_preserves
  exact inv.countsOk bounded

/-! ## A page with too many mappings -/

/-- A machine with 512 megabytes. -/
def bigBoot : Boot where
  npage := 131072
  kernEnd := 312 * 4096
  envsPa := 4096
  mem := fun _ _ => 0
  array_le := by decide
  envs_aligned := Boot.envs_at_page
  envs_below := Boot.envs_fit
  pages_fit := by decide

theorem bigBoot_free : ∃ base w w' p pages,
    (pageInit bigBoot).pageFreeList = base :: w :: w' :: p :: pages ∧ pages.length = 130372 := by
  have length : (pageInit bigBoot).pageFreeList.length = 130376 := by
    rw [pageInit_free, List.length_reverse, List.length_range']
    decide
  match h : (pageInit bigBoot).pageFreeList with
  | base :: w :: w' :: p :: pages =>
      rw [h] at length
      simp only [List.length_cons] at length
      exact ⟨base, w, w', p, pages, rfl, by omega⟩
  | [] | [_] | [_, _] | [_, _, _] =>
      rw [h] at length
      simp only [List.length_cons, List.length_nil] at length
      omega

/-- Page `j` from 0x400000 on. -/
def vaAt (j : Nat) : Word := BitVec.ofNat 32 (0x400000 + 4096 * j)

theorem vaAt_toNat {j : Nat} (h : j < 65536) : (vaAt j).toNat = 0x400000 + 4096 * j := by
  rw [vaAt, BitVec.toNat_ofNat]
  omega

theorem vaAt_legal {j : Nat} (h : j < 65536) : ¬ isIllegalVa (vaAt j) := by
  rw [isIllegalVa, BitVec.lt_def, BitVec.le_def, vaAt_toNat h, utemp_toNat, utop_toNat]
  omega

theorem vaAt_inj {i j : Nat} (hi : i < 65536) (hj : j < 65536) (same : SamePage (vaAt i) (vaAt j)) :
    i = j := by
  obtain ⟨dir, table⟩ := same
  rw [pdx_eq_div, pdx_eq_div, vaAt_toNat hi, vaAt_toNat hj] at dir
  rw [ptx_eq_mod, ptx_eq_mod, vaAt_toNat hi, vaAt_toNat hj] at table
  omega

/-- The first env has mapped page `pp` at the first `k + 1` places. -/
structure Filled (pp k : Nat) (s : Kernel) : Prop where
  inv : LiveInv s
  hcur : s.curenv = some 0
  free : 130370 ≤ s.pm.pageFreeList.length + k
  mapped : ∀ j, j ≤ k → ∃ w, pteAt s.pm.mem (s.envs 0).envPgdir (vaAt j) = some w ∧ ppn w = pp

theorem Filled.next {pp k : Nat} (filled : Filled pp k s) (bounded : Bounded s)
    (lt : k + 1 < 65536) :
    ∃ s', countStep s (.mem (.map 0 (vaAt 0) 0 (vaAt (k + 1)) pteD)) s' ∧ Filled pp (k + 1) s' := by
  obtain ⟨inv, hcur, free, mapped⟩ := filled
  obtain ⟨w, page, number⟩ := mapped 0 (Nat.zero_le k)
  have flags : pteD < 0x1000#32 := by decide
  have roomy : Roomy (130369 - k + 1) 65535 s := ⟨inv, bounded, by omega⟩
  obtain ⟨pm, run, inv', -, left⟩ := roomy.sysMemMap (by decide) (Nat.le_refl _) hcur
    (vaAt_legal (by decide)) (vaAt_legal lt) flags (envid2env_self hcur) page
  obtain ⟨x, p, self, below, -, -, ⟨pte, source⟩, new, only⟩ :=
    inv.sysMemMap_entry bounded flags hcur run
  rw [envid2env_self hcur, Except.ok.injEq, Except.ok.injEq] at self
  subst self
  obtain ⟨pte', source', inside⟩ :=
    inv.inv.lookup_of_pteAt (inv.current _ hcur).1 (lt_utop_of_legal (vaAt_legal (by decide))) page
  rw [source, Except.ok.injEq, Option.some.injEq, Prod.mk.injEq] at source'
  have same : p = pp := source'.1.trans number
  subst same
  have inUse := (inv.current 0 hcur).1
  refine ⟨s.withPm pm, ⟨⟨0, hcur⟩, _, run⟩, inv', hcur, ?_, fun j hj => ?_⟩
  · have left' : 130369 - k ≤ pm.pageFreeList.length := left
    show 130370 ≤ pm.pageFreeList.length + (k + 1)
    omega
  · rcases Nat.eq_or_lt_of_le hj with rfl | earlier
    · refine ⟨_, new, ?_⟩
      rw [ppn_entry (inv.inv.pm.page_lt (number ▸ inside)) flags]
    · obtain ⟨w', old, number'⟩ := mapped j (Nat.le_of_lt_succ earlier)
      refine ⟨w', ?_, number'⟩
      have apart : ¬ (0 = (0 : EnvIx) ∧ SamePage (vaAt j) (vaAt (k + 1))) := by
        rintro ⟨-, same⟩
        exact Nat.ne_of_lt earlier (vaAt_inj (by omega) lt same)
      exact (only 0 inUse inUse _ (pdx_ne_selfMap (lt_utop_of_legal (vaAt_legal (by omega))))
        apart).trans old

/-- So many mappings make more references than `pp_ref` can tell. -/
theorem Filled.full {pp : Nat} (filled : Filled pp 65535 s) : ¬ Bounded s := by
  intro bounded
  have hd := Kernel.dirs_of_notMem (filled.inv.current 0 filled.hcur).1
  have user : ∀ j : Fin 65536, pdx (vaAt j) < 509 := fun j =>
    pdx_lt_of_lt_utop (lt_utop_of_legal (vaAt_legal j.isLt))
  have all : refs (fun _ : Fin 65536 => some pp) pp ≤ refs (target s.dirs s.pm.mem) pp := by
    refine refs_le_of_injOn (fun j => .pte 0 ⟨_, user j⟩ ⟨_, ptx_lt (vaAt j)⟩) (fun j _ => ?_)
      fun i j _ _ same => ?_
    · obtain ⟨w, page, number⟩ := filled.mapped j (Nat.le_of_lt_succ j.isLt)
      obtain ⟨t, ht, word, valid⟩ := pteAt_eq_some_iff.mp page
      rw [target_pte hd ht]
      show entry (s.pm.mem t (ptx (vaAt j))) = _
      rw [word, entry_of_valid valid, number]
    · rw [Ref.pte.injEq, Fin.mk.injEq, Fin.mk.injEq] at same
      exact Fin.ext (vaAt_inj i.isLt j.isLt ⟨same.2.1, Fin.mk.inj same.2.2⟩)
  have count : refs (fun _ : Fin 65536 => some pp) pp = 65536 := by
    simp [refs]
  rw [count] at all
  exact absurd (all.trans (bounded pp)) (by decide)

theorem roomStep_of_kernelStep {ops : List KernelOp} (run : Run kernelStep s₀ ops s) :
    Run roomStep s₀ (ops.map .other) s := by
  refine run.map id CountOp.other fun _ _ _ step => ⟨fun _ same => ?_, step⟩
  cases same

/-- An env can map a page until its count wraps. -/
theorem counts_wrap : ¬ ∀ (b : Boot) (s₀ s : Kernel) (ops : List CountOp), envInit b = .ok s₀ →
    Run countStep s₀ ops s → CountsOk s := by
  intro always
  obtain ⟨base, w, w', p, pages, hfree, length⟩ := bigBoot_free
  obtain ⟨s₀, s, boot, run, hcur, -, -, hpages, -, -, -, most⟩ := startOps_run hfree
  have inv := (kernelRun_inv boot run).1
  have roomy : Roomy (130370 + 2) 1 s := ⟨inv, most, by rw [hpages, length]⟩
  have flags : pteD < 0x1000#32 := by decide
  obtain ⟨pm, pp, alloc, roomy₁, page⟩ :=
    roomy.sysMemAlloc Nat.one_pos (by decide) hcur (vaAt_legal (j := 0) (by decide)) flags
  have step : countStep s (.mem (.alloc 0 (vaAt 0) pteD)) (s.withPm pm) :=
    ⟨⟨0, hcur⟩, _, alloc⟩
  have start := ((roomStep_of_kernelStep run).mono fun _ _ _ h => h.2).snoc step
  have grow : ∀ k, k < 65536 → ∃ ops s', Run countStep s₀ ops s' ∧
      Filled (ppn (page2pa pp ||| pteD ||| pteV)) k s' := by
    intro k
    induction k with
    | zero =>
        intro _
        refine ⟨_, _, start, roomy₁.inv, hcur, roomy₁.free, fun j hj => ?_⟩
        rw [Nat.le_zero.mp hj]
        exact ⟨_, page, rfl⟩
    | succ k ih =>
        intro lt
        obtain ⟨ops, s', run', filled⟩ := ih (Nat.lt_of_succ_lt lt)
        obtain ⟨s'', step, filled'⟩ := filled.next (always _ _ _ _ boot run').bounded lt
        exact ⟨_, s'', run'.snoc step, filled'⟩
  obtain ⟨ops, s', run', filled⟩ := grow 65535 (by decide)
  exact filled.full (always _ _ _ _ boot run').bounded

/-- The first env gets a page, maps it once more and takes the first mapping away. -/
def shareOps : List CountOp :=
  startOps.map .other ++ [.mem (.alloc 0 (vaAt 0) pteD)] ++
    [.mem (.map 0 (vaAt 0) 0 (vaAt 1) pteD)] ++ [.mem (.unmap 0 (vaAt 0))]

theorem counts_ok_share : ∃ s₀ s, envInit smallBoot = .ok s₀ ∧ Run roomStep s₀ shareOps s ∧
    CountsOk s := by
  obtain ⟨s₀, s, boot, run, hcur, -, -, hpages, -, -, -, most⟩ := startOps_run smallBoot_free
  have roomy : Roomy 19 1 s := ⟨(kernelRun_inv boot run).1, most, by rw [hpages]; decide⟩
  have flags : pteD < 0x1000#32 := by decide
  have legal : ¬ isIllegalVa (vaAt 0) := vaAt_legal (by decide)
  have legal' : ¬ isIllegalVa (vaAt 1) := vaAt_legal (by decide)
  obtain ⟨pm, pp, alloc, roomy₁, page⟩ :=
    roomy.sysMemAlloc Nat.one_pos (by decide) hcur legal flags
  have first : roomStep s (.mem (.alloc 0 (vaAt 0) pteD)) (s.withPm pm) :=
    ⟨fun call same => (CountOp.mem.inj same).symm ▸ ⟨flags, id⟩, ⟨0, hcur⟩, _, alloc⟩
  have self : envid2env (s.withPm pm) 0 true = .ok (.ok 0) := envid2env_self hcur
  obtain ⟨pm', map, roomy₂⟩ :=
    roomy₁.sysMemMap (by decide) (by decide) hcur legal legal' flags self page
  have few : ∀ q, refs (target (s.withPm pm).dirs pm.mem) q ≠ 65535 := by
    intro q full
    have le := roomy₁.most q
    rw [show refs (target (s.withPm pm).dirs (s.withPm pm).pm.mem) q = 65535 from full] at le
    exact absurd le (by decide)
  have second : roomStep (s.withPm pm) (.mem (.map 0 (vaAt 0) 0 (vaAt 1) pteD))
      ((s.withPm pm).withPm pm') := by
    refine ⟨fun call same => (CountOp.mem.inj same).symm ▸ ⟨flags, ?_⟩, ⟨0, hcur⟩, _, map⟩
    rintro ⟨-, -, -, -, q, -, -, -, -, full, -⟩
    exact few q full
  obtain ⟨e, pm₃, r, unmap, -⟩ : ∃ e pm₃ r, sysMemUnmap ((s.withPm pm).withPm pm') 0 (vaAt 0) =
      .ok (((s.withPm pm).withPm pm').withPm pm₃, r) ∧ MemStep _ e pm₃ :=
    roomy₂.inv.inv.sysMemUnmap (roomy₂.most.bounded (by decide)) hcur (roomy₂.inv.current 0 hcur).1
  have third : roomStep ((s.withPm pm).withPm pm') (.mem (.unmap 0 (vaAt 0)))
      (((s.withPm pm).withPm pm').withPm pm₃) :=
    ⟨fun call same => (CountOp.mem.inj same).symm ▸ ⟨trivial, id⟩, ⟨0, hcur⟩, _, unmap⟩
  have whole := (((roomStep_of_kernelStep run).snoc first).snoc second).snoc third
  exact ⟨s₀, _, boot, whole, counts_ok boot whole⟩

end Mos
