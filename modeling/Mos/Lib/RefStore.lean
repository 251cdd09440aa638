import Mathlib.Data.Fintype.Card
import Mathlib.Data.BitVec

/-!
# Reference-counted cells

A store hands out cells from a free list and counts, in a machine word of `w`
bits, the references made to each of them. `RefStore` is that store with its
references given as a map `tgt` from reference names to the cell they point at.
Some references are *tables*: the cell behind one is read as further
references, so it may be named by that one reference only.

`RefStore.Inv` is what makes handing out a free cell safe. `Inv.take`,
`Inv.link` and `Inv.unlink` are its rules, one for each thing an allocator can
do; `unlink` is the only one that needs the count not to have wrapped.
-/

namespace Mos

variable {ρ β : Type} [Fintype ρ] [DecidableEq β]

/-- The number of references that point at `p`. -/
def refs (tgt : ρ → Option β) (p : β) : Nat :=
  (Finset.univ.filter fun r => tgt r = some p).card

section Refs

variable {tgt : ρ → Option β} {r : ρ} {p q : β}

theorem refs_pos (h : tgt r = some p) : 0 < refs tgt p :=
  Finset.card_pos.mpr ⟨r, by simpa using h⟩

/-- Fewer references, smaller counts. -/
theorem refs_mono {tgt' : ρ → Option β} (h : ∀ r, tgt' r = some p → tgt r = some p) :
    refs tgt' p ≤ refs tgt p := by
  apply Finset.card_le_card
  intro r hr
  simp only [Finset.mem_filter, Finset.mem_univ, true_and] at hr ⊢
  exact h r hr

/-- References of one kind go to references of another, no two to the same. -/
theorem refs_le_of_injOn {ρ' : Type} [Fintype ρ'] {tgt' : ρ' → Option β} (f : ρ → ρ')
    (maps : ∀ r, tgt r = some p → tgt' (f r) = some q)
    (inj : ∀ r r', tgt r = some p → tgt r' = some p → f r = f r' → r = r') :
    refs tgt p ≤ refs tgt' q := by
  apply Finset.card_le_card_of_injOn f
  · intro r hr
    simp only [Finset.coe_filter, Finset.mem_univ, true_and, Set.mem_ofPred_eq] at hr ⊢
    exact maps r hr
  · intro r hr r' hr' same
    simp only [Finset.coe_filter, Finset.mem_univ, true_and, Set.mem_ofPred_eq] at hr hr'
    exact inj r r' hr hr' same

theorem refs_le_card {γ : Type} [Fintype γ] (f : ρ → γ)
    (inj : ∀ r r', tgt r = some p → tgt r' = some p → f r = f r' → r = r') :
    refs tgt p ≤ Fintype.card γ := by
  have all : refs tgt p ≤ refs (fun _ : γ => some p) p :=
    refs_le_of_injOn f (fun _ _ => rfl) inj
  exact all.trans (Finset.card_le_univ _)

/-- So it is with references to two cells. -/
theorem refs_add_le {d : β} (hne : p ≠ q) (f : ρ → ρ)
    (maps : ∀ r, tgt r = some p ∨ tgt r = some q → tgt (f r) = some d)
    (inj : ∀ r r', tgt r = some p ∨ tgt r = some q → tgt r' = some p ∨ tgt r' = some q →
      f r = f r' → r = r') : refs tgt p + refs tgt q ≤ refs tgt d := by
  classical
  have apart : Disjoint (Finset.univ.filter fun r => tgt r = some p)
      (Finset.univ.filter fun r => tgt r = some q) := by
    apply Finset.disjoint_filter.mpr
    intro r _ hp hq
    exact hne (Option.some.inj (hp.symm.trans hq))
  rw [refs, refs, ← Finset.card_union_of_disjoint apart, ← Finset.filter_or]
  apply Finset.card_le_card_of_injOn f
  · intro r hr
    simp only [Finset.coe_filter, Finset.mem_univ, true_and, Set.mem_ofPred_eq] at hr ⊢
    exact maps r hr
  · intro r hr r' hr' same
    simp only [Finset.coe_filter, Finset.mem_univ, true_and, Set.mem_ofPred_eq] at hr hr'
    exact inj r r' hr hr' same

theorem refs_eq_zero_iff : refs tgt p = 0 ↔ ∀ r, tgt r ≠ some p := by
  simp [refs, Finset.card_eq_zero, Finset.filter_eq_empty_iff]

variable [DecidableEq ρ]

theorem refs_link_self (h : tgt r = none) :
    refs (Function.update tgt r (some p)) p = refs tgt p + 1 := by
  have split : (Finset.univ.filter fun x => Function.update tgt r (some p) x = some p) =
      insert r (Finset.univ.filter fun x => tgt x = some p) := by
    ext x
    rcases eq_or_ne x r with rfl | hne
    · simp
    · simp [hne]
  rw [refs, split, Finset.card_insert_of_notMem (by simp [h]), refs]

theorem refs_update_of_ne {t : Option β} (old : tgt r ≠ some q) (new : t ≠ some q) :
    refs (Function.update tgt r t) q = refs tgt q := by
  unfold refs
  congr 1
  ext x
  rcases eq_or_ne x r with rfl | hne
  · simp [old, new]
  · simp [hne]

/-- Naming a page nobody names adds a first reference. -/
theorem refs_link_le (old : tgt r = none) (unnamed : ∀ r, tgt r ≠ some p) (q : β) :
    refs (Function.update tgt r (some p)) q ≤ max (refs tgt q) 1 := by
  rcases eq_or_ne q p with rfl | hq
  · rw [refs_link_self old, refs_eq_zero_iff.mpr unnamed]
    exact Nat.le_max_right _ _
  · rw [refs_update_of_ne (by simp [old]) (by simpa using hq.symm)]
    exact Nat.le_max_left _ _

theorem refs_unlink_self (h : tgt r = some p) :
    refs (Function.update tgt r none) p + 1 = refs tgt p := by
  have back : tgt = Function.update (Function.update tgt r none) r (some p) := by
    rw [Function.update_idem, ← h, Function.update_eq_self]
  conv_rhs => rw [back]
  rw [refs_link_self (Function.update_self ..)]

end Refs

/-- References, their counts and the cells free to be handed out. -/
structure RefStore (ρ β : Type) (w : Nat) where
  tgt : ρ → Option β
  count : β → BitVec w
  free : List β

namespace RefStore

variable {w : Nat} {isTable : ρ → Prop} {s : RefStore ρ β w} {r : ρ} {p : β}

/-- Point `r` at `p` and count it. -/
def link [DecidableEq ρ] (s : RefStore ρ β w) (r : ρ) (p : β) : RefStore ρ β w :=
  { s with
    tgt := Function.update s.tgt r (some p)
    count := Function.update s.count p (s.count p + 1) }

/-- Drop the reference `r` to `p`; the last one frees `p`. -/
def unlink [DecidableEq ρ] (s : RefStore ρ β w) (r : ρ) (p : β) : RefStore ρ β w :=
  { tgt := Function.update s.tgt r none
    count := Function.update s.count p (s.count p - 1)
    free := if s.count p - 1 = 0 then p :: s.free else s.free }

/-- No reference points at `p`. -/
def Untargeted (s : RefStore ρ β w) (p : β) : Prop :=
  ∀ r, s.tgt r ≠ some p

/-- Free cells are referenced by nobody, a table is referenced once, and the
counts are the numbers of references modulo the width of the counter. -/
structure Inv (isTable : ρ → Prop) (s : RefStore ρ β w) : Prop where
  nodup : s.free.Nodup
  free_count : ∀ p ∈ s.free, s.count p = 0
  free_untargeted : ∀ p ∈ s.free, s.Untargeted p
  excl : ∀ r r' p, isTable r → s.tgt r = some p → s.tgt r' = some p → r' = r
  count_eq : ∀ r p, s.tgt r = some p → s.count p = BitVec.ofNat w (refs s.tgt p)

/-- What may become the target of a reference: a cell off the free list that
no table points at, whose count is right. -/
structure Linkable (isTable : ρ → Prop) (s : RefStore ρ β w) (p : β) : Prop where
  notFree : p ∉ s.free
  notTable : ∀ r, isTable r → s.tgt r ≠ some p
  count_eq : s.count p = BitVec.ofNat w (refs s.tgt p)

theorem Inv.not_free (inv : s.Inv isTable) (h : s.tgt r = some p) : p ∉ s.free :=
  fun hp => inv.free_untargeted p hp r h

/-- A cell taken from the head of the free list is nobody's. -/
theorem Inv.take {rest : List β} (inv : s.Inv isTable) (h : s.free = p :: rest) :
    ({ s with free := rest } : RefStore ρ β w).Inv isTable ∧
      p ∉ rest ∧ s.Untargeted p ∧ s.count p = 0 := by
  have nodup := inv.nodup
  rw [h, List.nodup_cons] at nodup
  have sub : ∀ q ∈ rest, q ∈ s.free := fun q hq => by rw [h]; exact List.mem_cons_of_mem _ hq
  have head : p ∈ s.free := by rw [h]; exact List.mem_cons_self
  exact ⟨⟨nodup.2, fun q hq => inv.free_count q (sub q hq),
    fun q hq => inv.free_untargeted q (sub q hq), inv.excl, inv.count_eq⟩,
    nodup.1, inv.free_untargeted p head, inv.free_count p head⟩

/-- A cell with no reference and a zero count, off the free list, can become
the target of any reference. -/
theorem Linkable.of_untargeted (notFree : p ∉ s.free) (untargeted : s.Untargeted p)
    (zero : s.count p = 0) : s.Linkable isTable p :=
  ⟨notFree, fun r _ => untargeted r, by rw [refs_eq_zero_iff.mpr untargeted, zero]; rfl⟩

/-- The target of a reference that is no table can be shared. -/
theorem Inv.linkable (inv : s.Inv isTable) (h : s.tgt r = some p) (leaf : ¬ isTable r) :
    s.Linkable isTable p :=
  ⟨inv.not_free h, fun r' table h' => leaf (inv.excl r' r p table h' h ▸ table),
    inv.count_eq r p h⟩

/-- With at most `2 ^ w - 1` references the count of a target is exact. -/
theorem Inv.count_toNat (inv : s.Inv isTable) (h : s.tgt r = some p)
    (bound : refs s.tgt p < 2 ^ w) : (s.count p).toNat = refs s.tgt p := by
  rw [inv.count_eq r p h, BitVec.toNat_ofNat, Nat.mod_eq_of_lt bound]

/-- The count of a target with at most `2 ^ w - 1` references is not zero. -/
theorem Inv.count_ne_zero (inv : s.Inv isTable) (h : s.tgt r = some p)
    (bound : refs s.tgt p < 2 ^ w) : s.count p ≠ 0 := by
  intro zero
  have := inv.count_toNat h bound
  rw [zero] at this
  have := refs_pos h
  simp_all

/-- The count reaches zero exactly with the last reference. -/
theorem Inv.count_sub_one_eq_zero_iff (inv : s.Inv isTable) (h : s.tgt r = some p)
    (bound : refs s.tgt p < 2 ^ w) : s.count p - 1 = 0 ↔ refs s.tgt p = 1 := by
  have exact' := inv.count_toNat h bound
  have pos := refs_pos h
  have two : 1 < 2 ^ w := by omega
  constructor
  · intro zero
    have one : s.count p = 1 := by
      have := congrArg (· + 1) zero
      simpa using this
    rw [one] at exact'
    have : (1 : BitVec w).toNat = 1 := by
      simpa using Nat.mod_eq_of_lt two
    omega
  · intro one
    have : s.count p = 1 := by
      apply BitVec.eq_of_toNat_eq
      rw [exact', one]
      simpa using (Nat.mod_eq_of_lt two).symm
    rw [this]
    simp

/-- The target of a table reference has no other reference. -/
theorem Inv.refs_table (inv : s.Inv isTable) (h : s.tgt r = some p) (table : isTable r) :
    refs s.tgt p = 1 := by
  rw [refs, Finset.card_eq_one]
  refine ⟨r, Finset.ext fun r' => ?_⟩
  simp only [Finset.mem_filter, Finset.mem_univ, true_and, Finset.mem_singleton]
  constructor
  · exact inv.excl r r' p table h
  · intro eq
    rw [eq]
    exact h

/-- The count of a cell that nobody names and that is not free is nobody's
concern. -/
theorem Inv.setCount (inv : s.Inv isTable) (notFree : p ∉ s.free) (untargeted : s.Untargeted p)
    (n : BitVec w) : ({ s with count := Function.update s.count p n } : RefStore ρ β w).Inv isTable where
  nodup := inv.nodup
  free_count q hq := by
    have hne : q ≠ p := fun eq => notFree (eq ▸ hq)
    simpa [hne] using inv.free_count q hq
  free_untargeted := inv.free_untargeted
  excl := inv.excl
  count_eq x q hx := by
    have hne : q ≠ p := fun eq => untargeted x (eq ▸ hx)
    simpa [hne] using inv.count_eq x q hx

section Link

variable [DecidableEq ρ]

/-- Linking keeps the invariant; a new table reference needs a target nobody
else has. -/
theorem Inv.link (inv : s.Inv isTable) (vacant : s.tgt r = none)
    (linkable : s.Linkable isTable p) (fresh : isTable r → s.Untargeted p) :
    (s.link r p).Inv isTable where
  nodup := inv.nodup
  free_count q hq := by
    have hne : q ≠ p := fun e => linkable.notFree (e ▸ hq)
    simpa [RefStore.link, hne] using inv.free_count q hq
  free_untargeted q hq x := by
    have hne : q ≠ p := fun e => linkable.notFree (e ▸ hq)
    rcases eq_or_ne x r with rfl | hx
    · simpa [RefStore.link] using hne.symm
    · simpa [RefStore.link, hx] using inv.free_untargeted q hq x
  excl x y q table hx hy := by
    by_cases hxr : x = r <;> by_cases hyr : y = r
    · rw [hxr, hyr]
    · subst hxr
      simp only [RefStore.link, Function.update_self, Option.some.injEq] at hx
      simp only [RefStore.link, Function.update_of_ne hyr] at hy
      exact (fresh table y (hx ▸ hy)).elim
    · subst hyr
      simp only [RefStore.link, Function.update_self, Option.some.injEq] at hy
      simp only [RefStore.link, Function.update_of_ne hxr] at hx
      exact (linkable.notTable x table (hy ▸ hx)).elim
    · simp only [RefStore.link, Function.update_of_ne hxr, Function.update_of_ne hyr] at hx hy
      exact inv.excl x y q table hx hy
  count_eq x q hx := by
    rcases eq_or_ne q p with rfl | hqp
    · simp only [RefStore.link, Function.update_self, refs_link_self vacant, linkable.count_eq,
        BitVec.ofNat_add]
      rfl
    · have hxr : x ≠ r := by
        rintro rfl
        simp only [RefStore.link, Function.update_self, Option.some.injEq] at hx
        exact hqp hx.symm
      simp only [RefStore.link, Function.update_of_ne hxr, Function.update_of_ne hqp] at hx ⊢
      rw [refs_update_of_ne (by simp [vacant]) (by simpa using hqp.symm)]
      exact inv.count_eq x q hx

/-- Unlinking keeps the invariant as long as the count has not wrapped: the
target is freed only with its last reference. -/
theorem Inv.unlink (inv : s.Inv isTable) (h : s.tgt r = some p)
    (bound : refs s.tgt p < 2 ^ w) : (s.unlink r p).Inv isTable := by
  have last := inv.count_sub_one_eq_zero_iff h bound
  have self := refs_unlink_self h
  have away : ∀ q, q ≠ p → refs (Function.update s.tgt r none) q = refs s.tgt q := fun q hq =>
    refs_update_of_ne (by rw [h]; simpa using hq.symm) (by simp)
  have gone : ∀ x q, (s.unlink r p).tgt x = some q → x ≠ r ∧ s.tgt x = some q := by
    intro x q hx
    rcases eq_or_ne x r with rfl | hxr
    · simp [RefStore.unlink] at hx
    · exact ⟨hxr, by simpa [RefStore.unlink, hxr] using hx⟩
  have freed : ∀ q ∈ (s.unlink r p).free, q ∈ s.free ∨ q = p ∧ refs s.tgt p = 1 := by
    intro q hq
    simp only [RefStore.unlink] at hq
    split at hq
    case isTrue zero =>
      rcases List.mem_cons.mp hq with rfl | hq
      · exact .inr ⟨rfl, last.mp zero⟩
      · exact .inl hq
    case isFalse => exact .inl hq
  have notFree := inv.not_free h
  constructor
  · simp only [RefStore.unlink]
    split
    · exact List.nodup_cons.mpr ⟨notFree, inv.nodup⟩
    · exact inv.nodup
  · intro q hq
    rcases freed q hq with hq | ⟨rfl, one⟩
    · have hqp : q ≠ p := fun e => notFree (e ▸ hq)
      simpa [RefStore.unlink, hqp] using inv.free_count q hq
    · simpa [RefStore.unlink] using last.mpr one
  · intro q hq x hx
    obtain ⟨hxr, old⟩ := gone x q hx
    rcases freed q hq with hq | ⟨rfl, one⟩
    · exact inv.free_untargeted q hq x old
    · have left : Function.update s.tgt r none x = some q := by
        rw [Function.update_of_ne hxr]
        exact old
      have := refs_pos left
      omega
  · intro x y q table hx hy
    exact inv.excl x y q table (gone x q hx).2 (gone y q hy).2
  · intro x q hx
    obtain ⟨-, hx⟩ := gone x q hx
    rcases eq_or_ne q p with rfl | hqp
    · have count := inv.count_eq r q h
      rw [← self, BitVec.ofNat_add] at count
      simp [RefStore.unlink, count]
    · simpa [RefStore.unlink, hqp, away q hqp] using inv.count_eq x q hx

end Link

end RefStore

end Mos
