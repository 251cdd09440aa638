import Mos.PmapInsert
import Mos.IpcSend
import Mathlib.Data.Fintype.Prod

/-!
# Trees of page tables

Page directories that the operations of `kern/pmap.c` build, for all addresses below
`UVPT`. The directories and the tables behind them are the nodes; what is mapped in a slot
of a table is a page with its permission bits. Nodes belong to one place each, no table is
mapped, and no page has a smaller count than it has uses (`Trees`). Each store that an
operation makes changes one slot, or none.
-/

namespace Mos

variable {ε : Type}

/-- A page number and the permission bits of a valid entry. -/
def mapEntry (w : Word) : Option (Nat × Word) := (entry w).map fun p => (p, w &&& 0xfff)

/-! ## Nodes and slots -/

/-- The page table behind entry `i` of the directory of `e`. -/
def tableOf (dirs : ε → Option Nat) (mem : Nat → Nat → Word) (x : ε × Fin 511) : Option Nat :=
  (dirs x.1).bind fun d => entry (mem d x.2)

/-- The directories, and the tables behind their entries. -/
def nodes (dirs : ε → Option Nat) (mem : Nat → Nat → Word) : ε ⊕ (ε × Fin 511) → Option Nat
  | .inl e => dirs e
  | .inr x => tableOf dirs mem x

/-- What is mapped in a slot. -/
def slot (dirs : ε → Option Nat) (mem : Nat → Nat → Word) (l : ε × Fin 511 × Fin 1024) :
    Option (Nat × Word) :=
  (tableOf dirs mem (l.1, l.2.1)).bind fun t => mapEntry (mem t l.2.2)

/-- The page that is mapped in a slot. -/
def leaf (dirs : ε → Option Nat) (mem : Nat → Nat → Word) (l : ε × Fin 511 × Fin 1024) :
    Option Nat := (slot dirs mem l).map Prod.fst

/-- What counts as a reference to a page: a directory does, and a slot. -/
def uses (dirs : ε → Option Nat) (mem : Nat → Nat → Word) :
    ε ⊕ (ε × Fin 511 × Fin 1024) → Option Nat
  | .inl e => dirs e
  | .inr l => leaf dirs mem l

def Node (dirs : ε → Option Nat) (mem : Nat → Nat → Word) (p : Nat) : Prop :=
  ∃ r, nodes dirs mem r = some p

section Stores

variable {dirs : ε → Option Nat} {mem mem' : Nat → Nat → Word} {e : ε} {d t p : Nat}
  {i : Fin 511} {j : Fin 1024} {w : Word}

theorem tableOf_eq (he : dirs e = some d) : tableOf dirs mem (e, i) = entry (mem d i) := by
  simp [tableOf, he]

theorem slot_eq (ht : tableOf dirs mem (e, i) = some t) :
    slot dirs mem (e, i, j) = mapEntry (mem t j) := by
  simp [slot, ht]

theorem slot_none (ht : tableOf dirs mem (e, i) = none) : slot dirs mem (e, i, j) = none := by
  simp [slot, ht]

theorem mapEntry_fst (w : Word) : (mapEntry w).map Prod.fst = entry w := by
  unfold mapEntry
  cases entry w <;> rfl

/-- Only the nodes matter. -/
theorem tableOf_congr (same : ∀ q, Node dirs mem q → mem' q = mem q) :
    tableOf dirs mem' = tableOf dirs mem := by
  funext ⟨e, i⟩
  cases he : dirs e with
  | none => simp [tableOf, he]
  | some d => rw [tableOf_eq he, tableOf_eq he, same d ⟨.inl e, he⟩]

theorem slot_congr (same : ∀ q, Node dirs mem q → mem' q = mem q) :
    slot dirs mem' = slot dirs mem := by
  funext ⟨e, i, j⟩
  cases ht : tableOf dirs mem (e, i) with
  | none =>
      have ht' : tableOf dirs mem' (e, i) = none := (congrFun (tableOf_congr same) _).trans ht
      rw [slot_none ht, slot_none ht']
  | some t =>
      have ht' : tableOf dirs mem' (e, i) = some t := (congrFun (tableOf_congr same) _).trans ht
      rw [slot_eq ht, slot_eq ht', same t ⟨.inr (e, i), ht⟩]

theorem nodes_congr (same : ∀ q, Node dirs mem q → mem' q = mem q) :
    nodes dirs mem' = nodes dirs mem := by
  funext r
  cases r with
  | inl e => rfl
  | inr x => exact congrFun (tableOf_congr same) x

variable (inj : ∀ r r' q, nodes dirs mem r = some q → nodes dirs mem r' = some q → r = r')

include inj

/-- A store to a table leaves the nodes where they are. -/
theorem tableOf_writeTable {x : ε × Fin 511} (ht : tableOf dirs mem x = some t) (k : Nat) :
    tableOf dirs (writeWord mem t k w) = tableOf dirs mem := by
  funext ⟨e', i'⟩
  cases he' : dirs e' with
  | none => simp [tableOf, he']
  | some d' =>
      have ne : d' ≠ t := by
        rintro rfl
        cases inj (.inl e') (.inr x) d' he' ht
      rw [tableOf_eq he', tableOf_eq he', writeWord_of_page_ne ne]

variable [DecidableEq ε]

/-- It changes the one slot. -/
theorem slot_writeTable (ht : tableOf dirs mem (e, i) = some t) :
    slot dirs (writeWord mem t j w) =
      Function.update (slot dirs mem) (e, i, j) (mapEntry w) := by
  funext ⟨e', i', j'⟩
  have same := tableOf_writeTable inj (w := w) ht j
  cases ht' : tableOf dirs mem (e', i') with
  | none =>
      have ne : (e', i', j') ≠ (e, i, j) := by
        rintro ⟨⟩
        rw [ht] at ht'
        cases ht'
      rw [Function.update_of_ne ne, slot_none ht', slot_none ((congrFun same _).trans ht')]
  | some t' =>
      rw [slot_eq ((congrFun same _).trans ht')]
      by_cases here : (e', i', j') = (e, i, j)
      · cases here
        rw [ht] at ht'
        cases ht'
        rw [writeWord_self, Function.update_self]
      · rw [Function.update_of_ne here, slot_eq ht', writeWord_of_ne]
        by_contra both
        push Not at both
        obtain ⟨rfl, index⟩ := both
        cases inj (.inr (e', i')) (.inr (e, i)) t' ht' ht
        exact here (by rw [Fin.ext index])

/-- A cleared page that is no node becomes a table. -/
theorem tableOf_writeDir (he : dirs e = some d) (hw : entry w = some p) :
    tableOf dirs (writeWord mem d i w) =
      Function.update (tableOf dirs mem) (e, i) (some p) := by
  funext ⟨e', i'⟩
  by_cases here : (e', i') = (e, i)
  · cases here
    rw [tableOf_eq he, writeWord_self, Function.update_self, hw]
  · rw [Function.update_of_ne here]
    cases he' : dirs e' with
    | none => simp [tableOf, he']
    | some d' =>
        rw [tableOf_eq he', tableOf_eq he', writeWord_of_ne]
        by_contra both
        push Not at both
        obtain ⟨rfl, index⟩ := both
        cases inj (.inl e') (.inl e) d' he' he
        exact here (by rw [Fin.ext index])

theorem slot_writeDir (he : dirs e = some d) (vacant : tableOf dirs mem (e, i) = none)
    (hw : entry w = some p) (other : ¬ Node dirs mem p) (zero : ∀ k, mem p k = 0) :
    slot dirs (writeWord mem d i w) = slot dirs mem := by
  funext ⟨e', i', j'⟩
  have tables := tableOf_writeDir inj (i := i) he hw
  by_cases here : (e', i') = (e, i)
  · cases here
    have new : tableOf dirs (writeWord mem d i w) (e, i) = some p := by
      rw [tables, Function.update_self]
    have ne : p ≠ d := by
      rintro rfl
      exact other ⟨.inl e, he⟩
    rw [slot_eq new, slot_none vacant, writeWord_of_page_ne ne, zero]
    rfl
  · have old : tableOf dirs (writeWord mem d i w) (e', i') = tableOf dirs mem (e', i') := by
      rw [tables, Function.update_of_ne here]
    cases ht' : tableOf dirs mem (e', i') with
    | none => rw [slot_none ht', slot_none (old.trans ht')]
    | some t' =>
        have ne : t' ≠ d := by
          rintro rfl
          cases inj (.inl e) (.inr (e', i')) t' he ht'
        rw [slot_eq ht', slot_eq (old.trans ht'), writeWord_of_page_ne ne]

end Stores

/-! ## The invariant -/

structure Trees [Fintype ε] (dirs : ε → Option Nat) (s : Pmap) : Prop where
  npage_le : s.npage ≤ 2 ^ 20
  nodup : s.pageFreeList.Nodup
  free_lt : ∀ p ∈ s.pageFreeList, p < s.npage
  free_count : ∀ p ∈ s.pageFreeList, s.ppRef p = 0
  node_inj : ∀ r r' p, nodes dirs s.mem r = some p → nodes dirs s.mem r' = some p → r = r'
  node_lt : ∀ p, Node dirs s.mem p → p < s.npage
  node_used : ∀ p, Node dirs s.mem p → p ∉ s.pageFreeList
  leaf_lt : ∀ l p, leaf dirs s.mem l = some p → p < s.npage
  leaf_table : ∀ l p, leaf dirs s.mem l = some p → ∀ x, tableOf dirs s.mem x ≠ some p
  refs_le : ∀ p, refs (uses dirs s.mem) p ≤ (s.ppRef p).toNat

variable [Fintype ε] {dirs : ε → Option Nat} {s s' : Pmap} {e : ε} {d t p pp : Nat}
  {i : Fin 511} {j : Fin 1024} {va asid perm : Word}

/-- A page that can be inserted: in use, and not as a page table. -/
structure Insertable (dirs : ε → Option Nat) (s : Pmap) (pp : Nat) : Prop where
  lt : pp < s.npage
  used : pp ∉ s.pageFreeList
  other : ∀ x, tableOf dirs s.mem x ≠ some pp
  count : s.ppRef pp ≠ 65535

theorem Pmap.take_mem (s : Pmap) (p : Nat) (rest : List Nat) :
    (s.take p rest).mem p = fun _ => 0 := Function.update_self ..

namespace Trees

omit [Fintype ε] in
theorem uses_congr {mem mem' : Nat → Nat → Word} (same : leaf dirs mem' = leaf dirs mem) :
    uses dirs mem' = uses dirs mem := by
  funext r
  cases r with
  | inl e => rfl
  | inr l => exact congrFun same l

theorem leaf_used (trees : Trees dirs s) {l : ε × Fin 511 × Fin 1024}
    (h : leaf dirs s.mem l = some p) : p ∉ s.pageFreeList := by
  intro free
  have bound := trees.refs_le p
  have named : uses dirs s.mem (.inr l) = some p := h
  have pos := refs_pos named
  rw [trees.free_count p free] at bound
  exact absurd (Nat.lt_of_lt_of_le pos bound) (by decide)

/-- Only the nodes, the counts and the free list matter. -/
theorem of_same (trees : Trees dirs s) (npage : s'.npage = s.npage)
    (mem : ∀ q, Node dirs s.mem q → s'.mem q = s.mem q) (free : s'.pageFreeList = s.pageFreeList)
    (count : s'.ppRef = s.ppRef) : Trees dirs s' := by
  have sameNodes := nodes_congr mem
  have sameSlots := slot_congr mem
  have sameNode : Node dirs s'.mem = Node dirs s.mem := by
    funext q
    unfold Node
    rw [sameNodes]
  have sameLeaf : leaf dirs s'.mem = leaf dirs s.mem := by
    funext l
    rw [leaf, leaf, sameSlots]
  have sameTables := tableOf_congr mem
  constructor
  · rw [npage]
    exact trees.npage_le
  · rw [free]
    exact trees.nodup
  · rw [free, npage]
    exact trees.free_lt
  · rw [free, count]
    exact trees.free_count
  · rw [sameNodes]
    exact trees.node_inj
  · rw [sameNode, npage]
    exact trees.node_lt
  · rw [sameNode, free]
    exact trees.node_used
  · rw [sameLeaf, npage]
    exact trees.leaf_lt
  · rw [sameLeaf, sameTables]
    exact trees.leaf_table
  · rw [uses_congr sameLeaf, count]
    exact trees.refs_le

theorem tlbInvalidate (trees : Trees dirs s) (asid va : Word) :
    Trees dirs (s.tlbInvalidate asid va) := trees.of_same rfl (fun _ _ => rfl) rfl rfl

/-- The free list gets shorter. -/
theorem take (trees : Trees dirs s) {rest : List Nat} (h : s.pageFreeList = p :: rest) :
    Trees dirs (s.take p rest) ∧ slot dirs (s.take p rest).mem = slot dirs s.mem ∧
      tableOf dirs (s.take p rest).mem = tableOf dirs s.mem := by
  have free : p ∈ s.pageFreeList := by rw [h]; exact List.mem_cons_self
  have sub : ∀ q ∈ rest, q ∈ s.pageFreeList := fun q hq => by
    rw [h]
    exact List.mem_cons_of_mem _ hq
  have same : ∀ q, Node dirs s.mem q → (s.take p rest).mem q = s.mem q := by
    intro q node
    apply Function.update_of_ne
    rintro rfl
    exact trees.node_used q node free
  have cleared : Trees dirs (s.zeroPage p) := trees.of_same rfl same rfl rfl
  refine ⟨⟨cleared.npage_le, ?_, fun q hq => cleared.free_lt q (sub q hq),
    fun q hq => cleared.free_count q (sub q hq), cleared.node_inj, cleared.node_lt,
    fun q node hq => cleared.node_used q node (sub q hq), cleared.leaf_lt, cleared.leaf_table,
    cleared.refs_le⟩, slot_congr same, tableOf_congr same⟩
  have nodup := trees.nodup
  rw [h] at nodup
  exact (List.nodup_cons.mp nodup).2

theorem page_lt (trees : Trees dirs s) (lt : p < s.npage) : p < 2 ^ 20 :=
  Nat.lt_of_lt_of_le lt trees.npage_le

variable [DecidableEq ε]

/-- A page from the free list becomes a table. -/
theorem install (trees : Trees dirs s) (he : dirs e = some d)
    (vacant : tableOf dirs s.mem (e, i) = none) (lt : p < s.npage) (used : p ∉ s.pageFreeList)
    (other : ¬ Node dirs s.mem p) (unmapped : ∀ l, leaf dirs s.mem l ≠ some p)
    (zero : ∀ k, s.mem p k = 0) :
    Trees dirs (s.install d i p) ∧ slot dirs (s.install d i p).mem = slot dirs s.mem ∧
      tableOf dirs (s.install d i p).mem (e, i) = some p := by
  have hw : entry (page2pa p ||| pteD ||| pteV) = some p :=
    entry_page2pa (trees.page_lt lt) (by decide)
  have tables : tableOf dirs (s.install d i p).mem =
      Function.update (tableOf dirs s.mem) (e, i) (some p) :=
    tableOf_writeDir trees.node_inj he hw
  have slots : slot dirs (s.install d i p).mem = slot dirs s.mem :=
    slot_writeDir trees.node_inj he vacant hw other zero
  have leaves : leaf dirs (s.install d i p).mem = leaf dirs s.mem := by
    funext l
    rw [leaf, leaf, slots]
  have newNodes : nodes dirs (s.install d i p).mem =
      Function.update (nodes dirs s.mem) (.inr (e, i)) (some p) := by
    funext r
    rcases r with e' | x
    · rw [Function.update_of_ne (by simp)]
      rfl
    · by_cases here : x = (e, i)
      · rw [here, Function.update_self]
        exact (congrFun tables _).trans (Function.update_self ..)
      · rw [Function.update_of_ne (by simpa using here)]
        exact (congrFun tables _).trans (Function.update_of_ne here ..)
  have old : ∀ r q, nodes dirs (s.install d i p).mem r = some q →
      r = .inr (e, i) ∧ q = p ∨ nodes dirs s.mem r = some q := by
    intro r q hr
    rw [newNodes] at hr
    by_cases here : r = .inr (e, i)
    · rw [here, Function.update_self] at hr
      exact .inl ⟨here, (Option.some.inj hr).symm⟩
    · rw [Function.update_of_ne here] at hr
      exact .inr hr
  have oldNode : ∀ q, Node dirs (s.install d i p).mem q → q = p ∨ Node dirs s.mem q := by
    rintro q ⟨r, hr⟩
    exact (old r q hr).imp And.right fun hr => ⟨r, hr⟩
  refine ⟨⟨trees.npage_le, trees.nodup, trees.free_lt, ?_, ?_, ?_, ?_, ?_, ?_, ?_⟩, slots, ?_⟩
  · intro q hq
    have ne : q ≠ p := by
      rintro rfl
      exact used hq
    exact (Function.update_of_ne ne ..).trans (trees.free_count q hq)
  · intro r r' q hr hr'
    rcases old r q hr with ⟨first, new⟩ | kept
    · rcases old r' q hr' with ⟨second, -⟩ | kept'
      · exact first.trans second.symm
      · exact absurd ⟨r', new ▸ kept'⟩ other
    · rcases old r' q hr' with ⟨-, new⟩ | kept'
      · exact absurd ⟨r, new ▸ kept⟩ other
      · exact trees.node_inj r r' q kept kept'
  · intro q node
    rcases oldNode q node with rfl | node
    · exact lt
    · exact trees.node_lt q node
  · intro q node
    rcases oldNode q node with rfl | node
    · exact used
    · exact trees.node_used q node
  · rw [leaves]
    exact trees.leaf_lt
  · rw [leaves]
    intro l q hl x hx
    rw [tables] at hx
    by_cases here : x = (e, i)
    · rw [here, Function.update_self] at hx
      cases hx
      exact unmapped l hl
    · rw [Function.update_of_ne here] at hx
      exact trees.leaf_table l q hl x hx
  · rw [uses_congr leaves]
    intro q
    by_cases here : q = p
    · have none_left : ∀ r, uses dirs s.mem r ≠ some p := by
        rintro (e' | l) hr
        · exact other ⟨.inl e', hr⟩
        · exact unmapped l hr
      rw [here, refs_eq_zero_iff.mpr none_left]
      exact Nat.zero_le _
    · rw [show (s.install d i p).ppRef q = s.ppRef q from Function.update_of_ne here ..]
      exact trees.refs_le q
  · rw [tables, Function.update_self]

/-- The pages in the slots after a store to a table. -/
theorem leaf_writeTable (trees : Trees dirs s) (ht : tableOf dirs s.mem (e, i) = some t)
    (w : Word) : leaf dirs (writeWord s.mem t j w) =
      Function.update (leaf dirs s.mem) (e, i, j) (entry w) := by
  funext l
  rw [leaf, slot_writeTable trees.node_inj ht]
  by_cases here : l = (e, i, j)
  · rw [here, Function.update_self, Function.update_self, mapEntry_fst]
  · rw [Function.update_of_ne here, Function.update_of_ne here, leaf]

/-- A store to a table, with the counts and the free list that go with it. -/
theorem writeTable (trees : Trees dirs s) (s' : Pmap)
    (ht : tableOf dirs s.mem (e, i) = some t) {w : Word} (npage : s'.npage = s.npage)
      (mem : s'.mem = writeWord s.mem t j w)
    (nodup : s'.pageFreeList.Nodup)
    (free : ∀ q ∈ s'.pageFreeList, q < s.npage ∧ s'.ppRef q = 0 ∧ ¬ Node dirs s.mem q)
    (named : ∀ q, entry w = some q → q < s.npage ∧ ∀ x, tableOf dirs s.mem x ≠ some q)
    (refs_le : ∀ q, refs (Function.update (uses dirs s.mem) (.inr (e, i, j)) (entry w)) q ≤
      (s'.ppRef q).toNat) :
    Trees dirs s' ∧ slot dirs s'.mem =
      Function.update (slot dirs s.mem) (e, i, j) (mapEntry w) := by
  have tables := tableOf_writeTable trees.node_inj (w := w) ht j
  have sameNodes : nodes dirs s'.mem = nodes dirs s.mem := by
    funext r
    cases r with
    | inl e => rfl
    | inr x =>
        rw [mem]
        exact congrFun tables x
  have sameNode : Node dirs s'.mem = Node dirs s.mem := by
    funext q
    unfold Node
    rw [sameNodes]
  have leaves : leaf dirs s'.mem = _ := mem ▸ trees.leaf_writeTable (j := j) ht w
  have old : ∀ l q, leaf dirs s'.mem l = some q → entry w = some q ∨
    leaf dirs s.mem l = some q := by
    intro l q hl
    rw [leaves] at hl
    by_cases here : l = (e, i, j)
    · rw [here, Function.update_self] at hl
      exact .inl hl
    · rw [Function.update_of_ne here] at hl
      exact .inr hl
  refine ⟨⟨npage ▸ trees.npage_le, nodup, fun q hq => npage ▸ (free q hq).1,
    fun q hq => (free q hq).2.1, sameNodes ▸ trees.node_inj, ?_, ?_, ?_, ?_, ?_⟩, ?_⟩
  · rw [sameNode, npage]
    exact trees.node_lt
  · rw [sameNode]
    exact fun q node hq => (free q hq).2.2 node
  · intro l q hl
    rw [npage]
    exact (old l q hl).elim (fun h => (named q h).1) (trees.leaf_lt l q)
  · intro l q hl
    rw [mem, tables]
    exact (old l q hl).elim (fun h => (named q h).2) (trees.leaf_table l q)
  · have used : uses dirs s'.mem =
        Function.update (uses dirs s.mem) (.inr (e, i, j)) (entry w) := by
      funext r
      rcases r with e' | l
      · rw [Function.update_of_ne (by simp)]
        rfl
      · refine (congrFun leaves l).trans ?_
        by_cases here : l = (e, i, j)
        · rw [here, Function.update_self, Function.update_self]
        · rw [Function.update_of_ne here, Function.update_of_ne (by simpa using here)]
          rfl
    rw [used]
    exact refs_le
  · rw [mem]
    exact slot_writeTable trees.node_inj ht

/-! ## The operations -/

omit [Fintype ε] [DecidableEq ε] in
theorem leaf_eq {mem : Nat → Nat → Word} (ht : tableOf dirs mem (e, i) = some t) :
    leaf dirs mem (e, i, j) = entry (mem t j) := by
  rw [leaf, slot_eq ht, mapEntry_fst]

theorem mapEntry_page2pa (lt : p < 2 ^ 20) (hperm : perm < 0x1000#32) :
    mapEntry (page2pa p ||| perm ||| pteV) = some (p, perm ||| pteV) := by
  have low : (perm ||| pteV) &&& 0xfff#32 = perm ||| pteV := by
    have small : (perm ||| pteV).toNat < 2 ^ 12 := by
      rw [BitVec.toNat_or]
      exact Nat.or_lt_two_pow (by rw [BitVec.lt_def] at hperm; exact hperm) (by decide)
    apply BitVec.eq_of_toNat_eq
    rw [BitVec.toNat_and, show (0xfff#32).toNat = 2 ^ 12 - 1 from rfl,
      Nat.and_two_pow_sub_one_eq_mod, Nat.mod_eq_of_lt small]
  have bits : (page2pa p ||| perm ||| pteV) &&& 0xfff = perm ||| pteV :=
    (entry_flags p perm).trans low
  rw [mapEntry, entry_page2pa lt hperm, Option.map_some, bits]

/-- The page that is mapped in the slot already gets another permission. -/
theorem remap (trees : Trees dirs s) (ht : tableOf dirs s.mem (e, i) = some t)
    (hp : entry (s.mem t j) = some pp) (hperm : perm < 0x1000#32) :
    Trees dirs (s.remap t j pp perm) ∧ slot dirs (s.remap t j pp perm).mem =
      Function.update (slot dirs s.mem) (e, i, j) (some (pp, perm ||| pteV)) := by
  have mapped : leaf dirs s.mem (e, i, j) = some pp := (leaf_eq ht).trans hp
  have lt := trees.page_lt (trees.leaf_lt _ pp mapped)
  have same : Function.update (uses dirs s.mem) (.inr (e, i, j))
      (entry (page2pa pp ||| perm ||| pteV)) = uses dirs s.mem := by
    have used : uses dirs s.mem (.inr (e, i, j)) = some pp := mapped
    rw [entry_page2pa lt hperm, ← used, Function.update_eq_self]
  have result := trees.writeTable (s.remap t j pp perm) (j := j) ht
    (w := page2pa pp ||| perm ||| pteV) rfl rfl trees.nodup
    (fun q hq => ⟨trees.free_lt q hq, trees.free_count q hq, fun node => trees.node_used q node hq⟩)
    (fun q hq => ?_) (fun q => ?_)
  · rwa [mapEntry_page2pa lt hperm] at result
  · rw [entry_page2pa lt hperm] at hq
    cases hq
    exact ⟨trees.leaf_lt _ pp mapped, trees.leaf_table _ pp mapped⟩
  · rw [same]
    exact trees.refs_le q

theorem mapPage (trees : Trees dirs s) (ht : tableOf dirs s.mem (e, i) = some t)
    (vacant : entry (s.mem t j) = none) (page : Insertable dirs s pp) (hperm : perm < 0x1000#32) :
    Trees dirs (s.mapPage t j pp perm) ∧ slot dirs (s.mapPage t j pp perm).mem =
      Function.update (slot dirs s.mem) (e, i, j) (some (pp, perm ||| pteV)) := by
  have empty : uses dirs s.mem (.inr (e, i, j)) = none := (leaf_eq ht).trans vacant
  have lt := trees.page_lt page.lt
  have result := trees.writeTable (s.mapPage t j pp perm) (j := j) ht
    (w := page2pa pp ||| perm ||| pteV) rfl rfl trees.nodup (fun q hq => ?_) (fun q hq => ?_)
    (fun q => ?_)
  · rwa [mapEntry_page2pa lt hperm] at result
  · have ne : q ≠ pp := by
      rintro rfl
      exact page.used hq
    exact ⟨trees.free_lt q hq, (Function.update_of_ne ne ..).trans (trees.free_count q hq),
      fun node => trees.node_used q node hq⟩
  · rw [entry_page2pa lt hperm] at hq
    cases hq
    exact ⟨page.lt, page.other⟩
  · rw [entry_page2pa lt hperm]
    by_cases here : q = pp
    · have count : (s.mapPage t j pp perm).ppRef pp = s.ppRef pp + 1 := Function.update_self ..
      have bound := trees.refs_le pp
      have small := page.count
      rw [here, refs_link_self empty, count]
      bv_omega
    · have count : (s.mapPage t j pp perm).ppRef q = s.ppRef q := Function.update_of_ne here ..
      rw [refs_update_of_ne (by simp [empty]) (by simpa using Ne.symm here), count]
      exact trees.refs_le q

/-- The mapping is removed, and the page is freed with the last reference to it. -/
theorem unmap (trees : Trees dirs s) (ht : tableOf dirs s.mem (e, i) = some t)
    (hp : entry (s.mem t j) = some p) :
    Trees dirs (s.unmap p t j) ∧ slot dirs (s.unmap p t j).mem =
      Function.update (slot dirs s.mem) (e, i, j) none := by
  have mapped : leaf dirs s.mem (e, i, j) = some p := (leaf_eq ht).trans hp
  have used := trees.leaf_used mapped
  have bound := trees.refs_le p
  have less : refs (Function.update (uses dirs s.mem) (.inr (e, i, j)) none) p + 1 =
      refs (uses dirs s.mem) p := refs_unlink_self mapped
  -- a directory is a reference of its own
  have other : s.ppRef p - 1 = 0 → ¬ Node dirs s.mem p := by
    rintro last ⟨r, hr⟩
    rcases r with e' | x
    · have named : Function.update (uses dirs s.mem) (.inr (e, i, j)) none (.inl e') = some p :=
        hr
      have pos := refs_pos named
      bv_omega
    · exact trees.leaf_table _ p mapped x hr
  have count : (s.unmap p t j).ppRef p = s.ppRef p - 1 := Function.update_self ..
  have others : ∀ q, q ≠ p → (s.unmap p t j).ppRef q = s.ppRef q :=
    fun q ne => Function.update_of_ne ne ..
  have free : (s.unmap p t j).pageFreeList =
      if s.ppRef p - 1 = 0 then p :: s.pageFreeList else s.pageFreeList := rfl
  have kept : ∀ q, q ∈ s.pageFreeList →
      q < s.npage ∧ (s.unmap p t j).ppRef q = 0 ∧ ¬ Node dirs s.mem q := by
    intro q hq
    have ne : q ≠ p := by
      rintro rfl
      exact used hq
    exact ⟨trees.free_lt q hq, (others q ne).trans (trees.free_count q hq),
      fun node => trees.node_used q node hq⟩
  have result := trees.writeTable (s.unmap p t j) (j := j) ht (w := 0#32) rfl rfl ?_
    (fun q hq => ?_) (fun q hq => ?_) (fun q => ?_)
  · have none_left : mapEntry 0#32 = none := by simp [mapEntry]
    rwa [none_left] at result
  · rw [free]
    by_cases last : s.ppRef p - 1 = 0
    · rw [if_pos last]
      exact List.nodup_cons.mpr ⟨used, trees.nodup⟩
    · rw [if_neg last]
      exact trees.nodup
  · rw [free] at hq
    by_cases last : s.ppRef p - 1 = 0
    · rw [if_pos last] at hq
      rcases List.mem_cons.mp hq with rfl | hq
      · exact ⟨trees.leaf_lt _ q mapped, count.trans last, other last⟩
      · exact kept q hq
    · rw [if_neg last] at hq
      exact kept q hq
  · rw [entry_zero] at hq
    cases hq
  · rw [entry_zero]
    by_cases here : q = p
    · rw [here, count]
      bv_omega
    · have named : uses dirs s.mem (.inr (e, i, j)) = some p := mapped
      rw [refs_update_of_ne (by simpa [named] using Ne.symm here) (by simp), others q here]
      exact trees.refs_le q

omit [DecidableEq ε] in
theorem inMemory (trees : Trees dirs s) (he : dirs e = some d) (user : pdx va < 511) :
    InMemory s d va := by
  intro t ht
  have table : tableOf dirs s.mem (e, ⟨pdx va, user⟩) = some t := (tableOf_eq he).trans ht
  refine ⟨trees.node_lt t ⟨.inr _, table⟩, fun p hp => ?_⟩
  exact trees.leaf_lt (e, ⟨pdx va, user⟩, ⟨ptx va, ptx_lt va⟩) p ((leaf_eq table).trans hp)

omit [DecidableEq ε] in
theorem dir_ne_table (trees : Trees dirs s) (he : dirs e = some d) {x : ε × Fin 511}
    (ht : tableOf dirs s.mem x = some t) : d ≠ t := by
  rintro rfl
  cases trees.node_inj (.inl e) (.inr x) d he ht

end Trees

end Mos
