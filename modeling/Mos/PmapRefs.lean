import Mos.Pmap
import Mos.Lib.RefStore
import Mathlib.Data.Fintype.Sigma
import Mathlib.Data.Fintype.Sum
import Mathlib.Tactic.DeriveFintype

/-!
# The references page tables make

The page directories of a set of address spaces, with the page tables and the
pages below `UTOP` they lead to, are references into physical memory. `target`
reads them off the memory itself. The lemmas here say which reference a store
to a page changes: since no page is named by a table reference and by any other,
a store to a table changes the one reference whose entry is written.
-/

namespace Mos

variable {ε : Type}

/-- A reference to a physical page made by the address space of `e`: its page
directory, a directory entry below `PDX(UTOP)`, or an entry of the page table
behind one. -/
inductive Ref (ε : Type)
  | dir (e : ε)
  | pde (e : ε) (i : Fin 509)
  | pte (e : ε) (i : Fin 509) (j : Fin 1024)
  deriving DecidableEq, Fintype

/-- The page behind the reference is itself read as a table. -/
def Ref.IsTable : Ref ε → Prop
  | .pte .. => False
  | _ => True

theorem Ref.not_isTable_pte (e : ε) (i : Fin 509) (j : Fin 1024) : ¬ (Ref.pte e i j).IsTable := id

/-- The page a directory or page table entry names, when it is valid. -/
def entry (w : Word) : Option Nat := if w.Has pteV then some (ppn w) else none

theorem entry_of_valid {w : Word} (h : w.Has pteV) : entry w = some (ppn w) := if_pos h

theorem entry_of_not_valid {w : Word} (h : ¬ w.Has pteV) : entry w = none := if_neg h

theorem entry_eq_some_iff {w : Word} {p : Nat} : entry w = some p ↔ w.Has pteV ∧ ppn w = p := by
  unfold entry
  split
  case isTrue valid => simp [valid]
  case isFalse invalid => simp [invalid]

theorem entry_eq_none_iff {w : Word} : entry w = none ↔ ¬ w.Has pteV := by
  unfold entry
  split
  case isTrue valid => simp [valid]
  case isFalse invalid => simp [invalid]

@[simp] theorem entry_zero : entry 0#32 = none := entry_of_not_valid (by decide)

/-- The word of page table slot `j` behind directory entry `i` of `e`. -/
def slotWord (dirs : ε → Option Nat) (mem : Nat → Nat → Word) (e : ε) (i : Fin 509)
    (j : Fin 1024) : Option Word :=
  (dirs e).bind fun d => (entry (mem d i)).map fun t => mem t j

/-- The page each reference points at, for address spaces whose page
directories are `dirs`. -/
def target (dirs : ε → Option Nat) (mem : Nat → Nat → Word) : Ref ε → Option Nat
  | .dir e => dirs e
  | .pde e i => (dirs e).bind fun d => entry (mem d i)
  | .pte e i j => (slotWord dirs mem e i j).bind entry

/-- Word `k` of page `p` replaced by `w`. -/
def writeWord (mem : Nat → Nat → Word) (p k : Nat) (w : Word) : Nat → Nat → Word :=
  Function.update mem p (Function.update (mem p) k w)

@[simp] theorem writeWord_self (mem : Nat → Nat → Word) (p k : Nat) (w : Word) :
    writeWord mem p k w p k = w := by simp [writeWord]

theorem writeWord_of_page_ne {mem : Nat → Nat → Word} {p q k : Nat} {w : Word} (h : q ≠ p) :
    writeWord mem p k w q = mem q := by simp [writeWord, h]

theorem writeWord_of_index_ne {mem : Nat → Nat → Word} {p k l : Nat} {w : Word} (h : l ≠ k) :
    writeWord mem p k w p l = mem p l := by simp [writeWord, h]

theorem writeWord_of_ne {mem : Nat → Nat → Word} {p q k l : Nat} {w : Word}
    (h : q ≠ p ∨ l ≠ k) : writeWord mem p k w q l = mem q l := by
  rcases eq_or_ne q p with rfl | hq
  · exact writeWord_of_index_ne (h.resolve_left (by simp))
  · rw [writeWord_of_page_ne hq]

section Target

variable {dirs : ε → Option Nat} {mem : Nat → Nat → Word} {e : ε} {d t p : Nat}
  {i : Fin 509} {j : Fin 1024}

theorem slotWord_eq (he : dirs e = some d) (ht : entry (mem d i) = some t) :
    slotWord dirs mem e i j = some (mem t j) := by
  simp [slotWord, he, ht]

theorem slotWord_none (he : dirs e = some d) (ht : entry (mem d i) = none) :
    slotWord dirs mem e i j = none := by
  simp [slotWord, he, ht]

theorem slotWord_noDir (he : dirs e = none) : slotWord dirs mem e i j = none := by
  simp [slotWord, he]

theorem target_pde (he : dirs e = some d) : target dirs mem (.pde e i) = entry (mem d i) := by
  simp [target, he]

theorem target_pte (he : dirs e = some d) (ht : entry (mem d i) = some t) :
    target dirs mem (.pte e i j) = entry (mem t j) := by
  simp [target, slotWord_eq he ht]

theorem target_pte_none (he : dirs e = some d) (ht : entry (mem d i) = none) :
    target dirs mem (.pte e i j) = none := by
  simp [target, slotWord_none he ht]

/-- Two memories make the same references when they agree on the directories
and on every slot. -/
theorem target_congr {mem' : Nat → Nat → Word}
    (directories : ∀ e d, dirs e = some d → ∀ i : Fin 509, entry (mem' d i) = entry (mem d i))
    (slots : ∀ e i j, slotWord dirs mem' e i j = slotWord dirs mem e i j) :
    target dirs mem' = target dirs mem := by
  funext r
  cases r with
  | dir e => rfl
  | pde e i =>
      cases hd : dirs e with
      | none => simp [target, hd]
      | some d => rw [target_pde hd, target_pde hd, directories e d hd i]
  | pte e i j => simp only [target, slots]

variable (excl : ∀ (r r' : Ref ε) p, r.IsTable → target dirs mem r = some p →
  target dirs mem r' = some p → r' = r)

section Exclusive

include excl

/-- A page table is no page directory. -/
theorem table_ne_dir {e' : ε} {d' : Nat} (he : dirs e = some d) (ht : entry (mem d i) = some t)
    (he' : dirs e' = some d') : d' ≠ t := by
  rintro rfl
  have := excl (.dir e') (.pde e i) d' trivial he' ((target_pde he).trans ht)
  cases this

/-- A page table belongs to one directory entry of one address space. -/
theorem table_injective {e' : ε} {d' : Nat} {i' : Fin 509} (he : dirs e = some d)
    (ht : entry (mem d i) = some t) (he' : dirs e' = some d') (ht' : entry (mem d' i') = some t) :
    e' = e ∧ i' = i := by
  have := excl (.pde e i) (.pde e' i') t trivial ((target_pde he).trans ht)
    ((target_pde he').trans ht')
  cases this
  exact ⟨rfl, rfl⟩

/-- A page directory belongs to one address space. -/
theorem dir_injective {e' : ε} (he : dirs e = some d) (he' : dirs e' = some d) : e' = e := by
  have := excl (.dir e) (.dir e') d trivial he he'
  cases this
  rfl

/-! ## Stores to an entry of a page table -/

theorem slotWord_writeLeaf (he : dirs e = some d) (ht : entry (mem d i) = some t) (w : Word)
    {e' : ε} {i' : Fin 509} {j' : Fin 1024} (hne : (e', i', j') ≠ (e, i, j)) :
    slotWord dirs (writeWord mem t j w) e' i' j' = slotWord dirs mem e' i' j' := by
  cases hd : dirs e' with
  | none => rw [slotWord_noDir hd, slotWord_noDir hd]
  | some d' =>
      have same : writeWord mem t j w d' = mem d' :=
        writeWord_of_page_ne (table_ne_dir excl he ht hd)
      cases ht' : entry (mem d' i') with
      | none => rw [slotWord_none hd ht', slotWord_none hd (by rw [same]; exact ht')]
      | some t' =>
          rw [slotWord_eq hd ht', slotWord_eq hd (by rw [same]; exact ht'), writeWord_of_ne]
          by_contra hcon
          push Not at hcon
          obtain ⟨rfl, hj⟩ := hcon
          obtain ⟨rfl, rfl⟩ := table_injective excl he ht hd ht'
          exact hne (by rw [Fin.ext hj])

theorem slotWord_writeLeaf_self (he : dirs e = some d) (ht : entry (mem d i) = some t)
    (w : Word) : slotWord dirs (writeWord mem t j w) e i j = some w := by
  have same : writeWord mem t j w d = mem d := writeWord_of_page_ne (table_ne_dir excl he ht he)
  rw [slotWord_eq he (by rw [same]; exact ht), writeWord_self]

/-- A store to an entry of a page table changes the reference that entry makes. -/
theorem target_writeLeaf [DecidableEq ε] (he : dirs e = some d) (ht : entry (mem d i) = some t)
    (w : Word) :
    target dirs (writeWord mem t j w) =
      Function.update (target dirs mem) (.pte e i j) (entry w) := by
  funext r
  cases r with
  | dir e' => simp [target]
  | pde e' i' =>
      rw [Function.update_of_ne (by simp)]
      cases hd : dirs e' with
      | none => simp [target, hd]
      | some d' =>
          rw [target_pde hd, target_pde hd, writeWord_of_page_ne (table_ne_dir excl he ht hd)]
  | pte e' i' j' =>
      by_cases hr : (e', i', j') = (e, i, j)
      · cases hr
        simp [target, slotWord_writeLeaf_self excl he ht]
      · rw [Function.update_of_ne (by simpa using hr)]
        simp only [target, slotWord_writeLeaf excl he ht w hr]

/-! ## Stores to a page directory -/

theorem slotWord_writeDir (he : dirs e = some d) (w : Word) {e' : ε} {i' : Fin 509}
    (hne : (e', i') ≠ (e, i)) :
    slotWord dirs (writeWord mem d i w) e' i' j = slotWord dirs mem e' i' j := by
  cases hd : dirs e' with
  | none => rw [slotWord_noDir hd, slotWord_noDir hd]
  | some d' =>
      have same : writeWord mem d i w d' i' = mem d' i' := by
        apply writeWord_of_ne
        by_contra hcon
        push Not at hcon
        obtain ⟨rfl, hi⟩ := hcon
        exact hne (by rw [dir_injective excl he hd, Fin.ext hi])
      cases ht : entry (mem d' i') with
      | none => rw [slotWord_none hd ht, slotWord_none hd (by rw [same]; exact ht)]
      | some t =>
          rw [slotWord_eq hd ht, slotWord_eq hd (by rw [same]; exact ht),
            writeWord_of_page_ne (table_ne_dir excl hd ht he).symm]

omit excl in
theorem slotWord_writeDir_self (he : dirs e = some d) {w : Word} (hw : entry w = some t)
    (hne : t ≠ d) : slotWord dirs (writeWord mem d i w) e i j = some (mem t j) := by
  rw [slotWord_eq (t := t) he (by simpa using hw), writeWord_of_page_ne hne]

/-- A store to a directory entry that leads to no page, before and after,
changes the reference that entry makes. -/
theorem target_writeDir [DecidableEq ε] (he : dirs e = some d) (w : Word)
    (before : ∀ j : Fin 1024, target dirs mem (.pte e i j) = none)
    (after : ∀ t, entry w = some t → t ≠ d ∧ ∀ j : Fin 1024, entry (mem t j) = none) :
    target dirs (writeWord mem d i w) = Function.update (target dirs mem) (.pde e i) (entry w) := by
  funext r
  cases r with
  | dir e' => simp [target]
  | pde e' i' =>
      cases hd : dirs e' with
      | none =>
          have hne : e' ≠ e := by rintro rfl; rw [he] at hd; cases hd
          rw [Function.update_of_ne (by simp [hne])]
          simp [target, hd]
      | some d' =>
          rw [target_pde hd]
          by_cases hr : e' = e ∧ i' = i
          · obtain ⟨rfl, rfl⟩ := hr
            rw [he] at hd
            cases hd
            simp
          · rw [Function.update_of_ne (by simpa using hr), target_pde hd, writeWord_of_ne]
            by_contra hcon
            push Not at hcon
            obtain ⟨rfl, hi⟩ := hcon
            exact hr ⟨dir_injective excl he hd, Fin.ext hi⟩
  | pte e' i' j' =>
      rw [Function.update_of_ne (by simp)]
      by_cases hr : (e', i') = (e, i)
      · cases hr
        rw [before j']
        cases ht : entry w with
        | none => exact target_pte_none he (by simpa using ht)
        | some t =>
            obtain ⟨hne, hnone⟩ := after t ht
            simp [target, slotWord_writeDir_self he ht hne, hnone j']
      · simp only [target, slotWord_writeDir excl he w hr]

theorem slotWord_writeKernel (he : dirs e = some d) {k : Nat} (hk : 509 ≤ k) (w : Word)
    (e' : ε) (i' : Fin 509) :
    slotWord dirs (writeWord mem d k w) e' i' j = slotWord dirs mem e' i' j := by
  cases hd : dirs e' with
  | none => rw [slotWord_noDir hd, slotWord_noDir hd]
  | some d' =>
      have same : writeWord mem d k w d' i' = mem d' i' := writeWord_of_ne (.inr (by omega))
      cases ht : entry (mem d' i') with
      | none => rw [slotWord_none hd ht, slotWord_none hd (by rw [same]; exact ht)]
      | some t =>
          rw [slotWord_eq hd ht, slotWord_eq hd (by rw [same]; exact ht),
            writeWord_of_page_ne (table_ne_dir excl hd ht he).symm]

/-- A store to a directory above the user entries changes no reference. -/
theorem target_writeKernel (he : dirs e = some d) {k : Nat} (hk : 509 ≤ k) (w : Word) :
    target dirs (writeWord mem d k w) = target dirs mem :=
  target_congr (fun e' d' he' i' => by rw [writeWord_of_ne (.inr (by omega))])
    (fun e' i' j' => slotWord_writeKernel excl he hk w e' i')

end Exclusive

/-! ## Stores to other pages, and new or dropped directories -/

theorem slotWord_writePage (leaf : ∀ r : Ref ε, r.IsTable → target dirs mem r ≠ some p)
    (contents : Nat → Word) (e : ε) (i : Fin 509) :
    slotWord dirs (Function.update mem p contents) e i j = slotWord dirs mem e i j := by
  cases hd : dirs e with
  | none => rw [slotWord_noDir hd, slotWord_noDir hd]
  | some d =>
      have hdp : d ≠ p := by
        rintro rfl
        exact leaf (.dir e) trivial hd
      have same : Function.update mem p contents d = mem d := Function.update_of_ne hdp _ _
      cases ht : entry (mem d i) with
      | none => rw [slotWord_none hd ht, slotWord_none hd (by rw [same]; exact ht)]
      | some t =>
          have htp : t ≠ p := by
            rintro rfl
            exact leaf (.pde e i) trivial ((target_pde hd).trans ht)
          rw [slotWord_eq hd ht, slotWord_eq hd (by rw [same]; exact ht),
            Function.update_of_ne htp]

/-- What a page that is no table holds makes no reference. -/
theorem target_writePage (leaf : ∀ r : Ref ε, r.IsTable → target dirs mem r ≠ some p)
    (contents : Nat → Word) :
    target dirs (Function.update mem p contents) = target dirs mem := by
  refine target_congr (fun e d he i => ?_) fun e i j => slotWord_writePage leaf contents e i
  have hne : d ≠ p := by
    rintro rfl
    exact leaf (.dir e) trivial he
  rw [Function.update_of_ne hne]

/-- A new page directory without user entries adds the one reference to it. -/
theorem target_addDir [DecidableEq ε] (vacant : dirs e = none)
    (empty : ∀ i : Fin 509, entry (mem d i) = none) :
    target (Function.update dirs e (some d)) mem =
      Function.update (target dirs mem) (.dir e) (some d) := by
  funext r
  cases r with
  | dir e' =>
      rcases eq_or_ne e' e with rfl | hne
      · simp [target]
      · simp [target, hne]
  | pde e' i' =>
      rw [Function.update_of_ne (by simp)]
      rcases eq_or_ne e' e with rfl | hne
      · simp [target, vacant, empty]
      · simp [target, hne]
  | pte e' i' j' =>
      rw [Function.update_of_ne (by simp)]
      rcases eq_or_ne e' e with rfl | hne
      · simp [target, slotWord, vacant, empty]
      · simp [target, slotWord, hne]

/-- Giving up a page directory without user entries drops the one reference to
it. -/
theorem target_dropDir [DecidableEq ε] (he : dirs e = some d)
    (empty : ∀ i : Fin 509, entry (mem d i) = none) :
    target (Function.update dirs e none) mem =
      Function.update (target dirs mem) (.dir e) none := by
  have back : dirs = Function.update (Function.update dirs e none) e (some d) := by
    rw [Function.update_idem, ← he, Function.update_eq_self]
  conv_rhs => rw [back, target_addDir (Function.update_self ..) empty]
  funext r
  rcases eq_or_ne r (.dir e) with rfl | hne
  · simp [target]
  · simp [hne]

end Target

end Mos
