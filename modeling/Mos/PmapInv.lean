import Mos.PmapRefs

/-!
# What the memory manager preserves

`PmapInv` ties the free list, the reference counts and the page tables of a set
of address spaces together: the memory is a `RefStore` whose references are the
ones the page tables make, and above the user entries every directory holds its
own address and the kernel's tables. Each operation of `kern/pmap.c` has one
lemma that says what state it returns under the invariant; that state is then
shown to be the store with a reference linked or unlinked.
-/

namespace Mos

variable {ε : Type} {dirs : ε → Option Nat} {s s' s'' : Pmap}

/-- The reference-counted store a memory holds. -/
def Pmap.store (s : Pmap) (dirs : ε → Option Nat) : RefStore (Ref ε) Nat 16 where
  tgt := target dirs s.mem
  count := s.ppRef
  free := s.pageFreeList

/-- A page that is neither free nor referenced by an address space. -/
structure Bystander (dirs : ε → Option Nat) (s : Pmap) (p : Nat) : Prop where
  notFree : p ∉ s.pageFreeList
  untargeted : ∀ r, target dirs s.mem r ≠ some p

/-- The table behind a kernel entry `pde`, at index `k` of a page directory.
Those of the `envs` and `pages` windows, 509 and 510, map nothing writable. -/
structure WindowTable (dirs : ε → Option Nat) (s : Pmap) (k : Nat) (pde : Word) : Prop where
  writable : pde.Has pteD
  lt : ppn pde < s.npage
  bystander : Bystander dirs s (ppn pde)
  readOnly : k < 511 → ∀ j, j < 1024 → ¬ (s.mem (ppn pde) j).Has pteD
  inside : k < 511 → ∀ j p, j < 1024 → entry (s.mem (ppn pde) j) = some p → p < s.npage

/-- Every page table in use was installed with `PTE_D`. -/
def TablesWritable (dirs : ε → Option Nat) (s : Pmap) : Prop :=
  ∀ e d (i : Fin 509), dirs e = some d → (s.mem d i).Has pteV → (s.mem d i).Has pteD

structure PmapInv [Fintype ε] (dirs : ε → Option Nat) (s : Pmap) : Prop where
  store : (s.store dirs).Inv Ref.IsTable
  tablesWritable : TablesWritable dirs s
  npage_le : s.npage ≤ 2 ^ 20
  free_lt : ∀ p ∈ s.pageFreeList, p < s.npage
  target_lt : ∀ r p, target dirs s.mem r = some p → p < s.npage
  selfMap : ∀ e d, dirs e = some d → s.mem d 511 = page2pa d ||| pteV
  window : ∀ e d k, dirs e = some d → 509 ≤ k → k < 1024 → k ≠ 511 → (s.mem d k).Has pteV →
    WindowTable dirs s k (s.mem d k)

/-- What every operation on the user mappings of `e` leaves alone: the
bystanders, but for those in `X`, the kernel part of the page directories, and
the directories and page tables of other address spaces. -/
structure Frame (dirs : ε → Option Nat) (e : ε) (X : Nat → Prop) (s s' : Pmap) : Prop where
  npage : s'.npage = s.npage
  bystander : ∀ p, Bystander dirs s p → ¬ X p →
    Bystander dirs s' p ∧ s'.mem p = s.mem p ∧ s'.ppRef p = s.ppRef p
  kernelPart : ∀ e' d k, dirs e' = some d → 509 ≤ k → s'.mem d k = s.mem d k
  others : ∀ e' d, dirs e' = some d → e' ≠ e → s'.mem d = s.mem d ∧
    ∀ (i : Fin 509) t, entry (s.mem d i) = some t → s'.mem t = s.mem t

/-- No bystander is excepted. -/
abbrev noPage : Nat → Prop := fun _ => False

section Frame

variable {e : ε} {X Y : Nat → Prop}

theorem Frame.refl (dirs : ε → Option Nat) (e : ε) (X : Nat → Prop) (s : Pmap) :
    Frame dirs e X s s :=
  ⟨rfl, fun _ h _ => ⟨h, rfl, rfl⟩, fun _ _ _ _ _ => rfl, fun _ _ _ _ => ⟨rfl, fun _ _ _ => rfl⟩⟩

theorem Frame.trans (first : Frame dirs e X s s') (second : Frame dirs e X s' s'') :
    Frame dirs e X s s'' where
  npage := second.npage.trans first.npage
  bystander p h hX := by
    obtain ⟨h', mem, ref⟩ := first.bystander p h hX
    obtain ⟨h'', mem', ref'⟩ := second.bystander p h' hX
    exact ⟨h'', mem'.trans mem, ref'.trans ref⟩
  kernelPart e' d k he hk := (second.kernelPart e' d k he hk).trans (first.kernelPart e' d k he hk)
  others e' d he hne := by
    obtain ⟨dir, tables⟩ := first.others e' d he hne
    obtain ⟨dir', tables'⟩ := second.others e' d he hne
    exact ⟨dir'.trans dir, fun i t ht =>
      (tables' i t (by rw [dir]; exact ht)).trans (tables i t ht)⟩

/-- Only bystanders need excepting. -/
theorem Frame.weaken (frame : Frame dirs e X s s')
    (h : ∀ p, Bystander dirs s p → X p → Y p) : Frame dirs e Y s s' where
  npage := frame.npage
  bystander p hp hY := frame.bystander p hp fun hX => hY (h p hp hX)
  kernelPart := frame.kernelPart
  others := frame.others

/-- Two steps of which the second excepts a page that the first does not find
among the bystanders. -/
theorem Frame.trans_excepting {p : Nat} (first : Frame dirs e noPage s s')
    (second : Frame dirs e (· = p) s' s'') (h : ¬ Bystander dirs s p) :
    Frame dirs e noPage s s'' :=
  ((first.weaken fun _ _ hX => hX.elim).trans second).weaken fun _ hq eq => h (eq ▸ hq)

/-- An operation keeps the frame when the pages it names were named before or
are excepted, and it writes no bystander, no kernel entry and no table of
another address space. -/
theorem Frame.of_subset (npage : s'.npage = s.npage)
    (free : ∀ p ∈ s'.pageFreeList, p ∈ s.pageFreeList ∨ ∃ r, target dirs s.mem r = some p)
    (target' : ∀ r p, target dirs s'.mem r = some p →
      X p ∨ p ∈ s.pageFreeList ∨ ∃ r, target dirs s.mem r = some p)
    (untouched : ∀ p, Bystander dirs s p → ¬ X p → s'.mem p = s.mem p ∧ s'.ppRef p = s.ppRef p)
    (kernelPart : ∀ e' d k, dirs e' = some d → 509 ≤ k → s'.mem d k = s.mem d k)
    (others : ∀ e' d, dirs e' = some d → e' ≠ e → s'.mem d = s.mem d ∧
      ∀ (i : Fin 509) t, entry (s.mem d i) = some t → s'.mem t = s.mem t) :
    Frame dirs e X s s' where
  npage := npage
  bystander p h hX :=
    ⟨⟨fun hp => (free p hp).elim h.notFree fun ⟨r, hr⟩ => h.untargeted r hr,
      fun r hr => (target' r p hr).elim hX fun named =>
        named.elim h.notFree fun ⟨r, hr⟩ => h.untargeted r hr⟩, untouched p h hX⟩
  kernelPart := kernelPart
  others := others

end Frame

theorem TablesWritable.of_eq (h : TablesWritable dirs s)
    (same : ∀ e d, dirs e = some d → s'.mem d = s.mem d) : TablesWritable dirs s' := by
  intro e d i he
  rw [same e d he]
  exact h e d i he

/-- No kernel entry of a page directory names `p`. -/
def NotKernelTable (dirs : ε → Option Nat) (s : Pmap) (p : Nat) : Prop :=
  ∀ e d k, dirs e = some d → 509 ≤ k → k < 1024 → entry (s.mem d k) ≠ some p

section Invariant

variable [Fintype ε]

theorem PmapInv.excl (inv : PmapInv dirs s) (r r' : Ref ε) (p : Nat) (table : r.IsTable)
    (h : target dirs s.mem r = some p) (h' : target dirs s.mem r' = some p) : r' = r :=
  inv.store.excl r r' p table h h'

/-- The kernel part of the invariant survives whatever keeps the frame. -/
theorem PmapInv.of_frame {e : ε} {X : Nat → Prop} (inv : PmapInv dirs s)
    (frame : Frame dirs e X s s')
    (excepted : ∀ p, X p → NotKernelTable dirs s p)
    (store : (s'.store dirs).Inv Ref.IsTable) (tablesWritable : TablesWritable dirs s')
    (free_lt : ∀ p ∈ s'.pageFreeList, p < s'.npage)
    (target_lt : ∀ r p, target dirs s'.mem r = some p → p < s'.npage) : PmapInv dirs s' where
  store := store
  tablesWritable := tablesWritable
  npage_le := by rw [frame.npage]; exact inv.npage_le
  free_lt := free_lt
  target_lt := target_lt
  selfMap e' d he := by
    rw [frame.kernelPart e' d 511 he (by omega)]
    exact inv.selfMap e' d he
  window e' d k he hk hk' hne := by
    rw [frame.kernelPart e' d k he hk]
    intro valid
    have table := inv.window e' d k he hk hk' hne valid
    obtain ⟨bystander, mem, -⟩ := frame.bystander _ table.bystander
      fun hX => excepted _ hX e' d k he hk hk' (entry_of_valid valid)
    exact ⟨table.writable, by rw [frame.npage]; exact table.lt, bystander,
      by rw [mem]; exact table.readOnly, by rw [mem, frame.npage]; exact table.inside⟩

end Invariant

/-! ## Addresses -/

theorem kaddr_pteAddr {pde : Word} (h : ppn pde < s.npage) :
    s.kaddr (pteAddr pde) = .ok (ppn pde) := by
  simp [Pmap.kaddr, ppn_pteAddr, h]

theorem page2kva_eq {p : Nat} (npage_le : s.npage ≤ 2 ^ 20) (h : p < s.npage) :
    s.page2kva p = .ok p := by
  simp [Pmap.page2kva, Pmap.kaddr, ppn_page2pa (Nat.lt_of_lt_of_le h npage_le), h]

theorem entry_page2pa {p : Nat} {perm : Word} (h : p < 2 ^ 20) (hperm : perm < 0x1000#32) :
    entry (page2pa p ||| perm ||| pteV) = some p := by
  rw [entry_of_valid (entry_valid _ _), ppn_entry h hperm]

theorem entry_selfMap {p : Nat} (h : p < 2 ^ 20) : entry (page2pa p ||| pteV) = some p := by
  have zero : page2pa p ||| 0#32 ||| pteV = page2pa p ||| pteV := by rw [BitVec.or_zero]
  rw [← zero]
  exact entry_page2pa h (by decide)

@[simp] theorem entry_page2pa_not_writable {p : Nat} :
    ¬ (page2pa p ||| pteV).Has pteD := by
  rw [Word.has_or]
  exact fun h => h.elim (page2pa_not_has (by decide)) (by decide)

/-! ## Lookups -/

/-- The page mapped at `va` under the directory `d`, and its entry. -/
def lookup (mem : Nat → Nat → Word) (d : Nat) (va : Word) : Option (Nat × PtePtr) :=
  (entry (mem d (pdx va))).bind fun t =>
    (entry (mem t (ptx va))).map fun p => (p, (t, ptx va))

theorem lookup_eq_none {mem : Nat → Nat → Word} {d t : Nat} {va : Word}
    (ht : entry (mem d (pdx va)) = some t) (hp : entry (mem t (ptx va)) = none) :
    lookup mem d va = none := by
  simp [lookup, ht, hp]

theorem lookup_eq_some {mem : Nat → Nat → Word} {d t p : Nat} {va : Word}
    (ht : entry (mem d (pdx va)) = some t) (hp : entry (mem t (ptx va)) = some p) :
    lookup mem d va = some (p, (t, ptx va)) := by
  simp [lookup, ht, hp]

theorem lookup_eq_some_iff {mem : Nat → Nat → Word} {d p : Nat} {va : Word} {pte : PtePtr} :
    lookup mem d va = some (p, pte) ↔
      ∃ t, entry (mem d (pdx va)) = some t ∧ entry (mem t (ptx va)) = some p ∧
        pte = (t, ptx va) := by
  simp only [lookup, Option.bind_eq_some_iff, Option.map_eq_some_iff, Prod.mk.injEq]
  constructor
  · rintro ⟨t, ht, p', hp, rfl, rfl⟩
    exact ⟨t, ht, hp, rfl⟩
  · rintro ⟨t, ht, hp, rfl⟩
    exact ⟨t, ht, p, hp, rfl, rfl⟩

/-- What the directory `d` names for `va`, and what is mapped there, lies in
memory. -/
def InMemory (s : Pmap) (d : Nat) (va : Word) : Prop :=
  ∀ t, entry (s.mem d (pdx va)) = some t → t < s.npage ∧
    ∀ p, entry (s.mem t (ptx va)) = some p → p < s.npage

theorem pgdirWalk_none {d : Nat} {va : Word} (h : entry (s.mem d (pdx va)) = none) :
    pgdirWalk s d va false = .ok (s, .ok none) := by
  simp [pgdirWalk, entry_eq_none_iff.mp h]

theorem pgdirWalk_some {d t : Nat} {va : Word} {create : Bool}
    (h : entry (s.mem d (pdx va)) = some t) (lt : t < s.npage) :
    pgdirWalk s d va create = .ok (s, .ok (some (t, ptx va))) := by
  obtain ⟨valid, rfl⟩ := entry_eq_some_iff.mp h
  simp only [pgdirWalk, if_pos valid, pgdirEntry, kaddr_pteAddr lt]
  rfl

theorem pageLookup_eq {d : Nat} {va : Word} (inside : InMemory s d va) :
    pageLookup s d va = .ok (lookup s.mem d va) := by
  cases ht : entry (s.mem d (pdx va)) with
  | none =>
      simp only [pageLookup, pgdirWalk_none ht, lookup, ht]
      rfl
  | some t =>
      obtain ⟨lt, mapped⟩ := inside t ht
      have walk : pgdirWalk s d va false = _ := pgdirWalk_some ht lt
      cases hp : entry (s.mem t (ptx va)) with
      | none =>
          have invalid : ¬ (s.word (t, ptx va)).Has pteV := entry_eq_none_iff.mp hp
          simp only [pageLookup, walk, lookup_eq_none ht hp, Bind.bind, Except.bind, if_neg invalid]
      | some p =>
          obtain ⟨valid, hppn⟩ := entry_eq_some_iff.mp hp
          have page : s.pa2page (s.word (t, ptx va)) = .ok p := by
            simp only [Pmap.pa2page, show ppn (s.word (t, ptx va)) = p from hppn,
              if_pos (mapped p hp)]
          simp only [pageLookup, walk, lookup_eq_some ht hp, Bind.bind, Except.bind,
            if_pos (show (s.word (t, ptx va)).Has pteV from valid), page]

section Operations

variable [Fintype ε] {e : ε} {d t p : Nat} {i : Fin 509} {j : Fin 1024} {va asid perm : Word}

/-- User addresses, and those of the page table window, stay in memory. -/
theorem PmapInv.inMemory (inv : PmapInv dirs s) (he : dirs e = some d) (hva : va < ulim) :
    InMemory s d va := by
  have dlt := inv.target_lt (.dir e) d he
  have pdx_le : pdx va ≤ 511 := by
    rw [BitVec.lt_def, ulim_toNat] at hva
    rw [pdx_eq_div]; omega
  -- the entries of a page directory all name pages in memory
  have directory : ∀ k, k < 1024 → ∀ q, entry (s.mem d k) = some q → q < s.npage := by
    intro k hk q hq
    rcases Nat.lt_or_ge k 509 with user | kernel
    · exact inv.target_lt (.pde e ⟨k, user⟩) q ((target_pde he).trans hq)
    · rcases eq_or_ne k 511 with rfl | hne
      · rw [inv.selfMap e d he, entry_selfMap (Nat.lt_of_lt_of_le dlt inv.npage_le)] at hq
        cases hq
        exact dlt
      · obtain ⟨valid, rfl⟩ := entry_eq_some_iff.mp hq
        exact (inv.window e d k he kernel hk hne valid).lt
  intro t ht
  refine ⟨directory _ (pdx_lt va) t ht, fun q hq => ?_⟩
  rcases Nat.lt_or_ge (pdx va) 509 with user | kernel
  · exact inv.target_lt (.pte e ⟨_, user⟩ ⟨_, ptx_lt va⟩) q ((target_pte he ht).trans hq)
  · rcases eq_or_ne (pdx va) 511 with self | hne
    · rw [self, inv.selfMap e d he, entry_selfMap (Nat.lt_of_lt_of_le dlt inv.npage_le)] at ht
      cases ht
      exact directory _ (ptx_lt va) q hq
    · obtain ⟨valid, rfl⟩ := entry_eq_some_iff.mp ht
      exact (inv.window e d _ he kernel (pdx_lt va) hne valid).inside (by omega) _ q (ptx_lt va) hq

/-! ## Allocating a page -/

/-- The state after `p` is taken off the free list and zeroed. -/
def Pmap.take (s : Pmap) (p : Nat) (rest : List Nat) : Pmap :=
  ({ s with pageFreeList := rest } : Pmap).zeroPage p

/-- A page just allocated: nobody's, zeroed, and off the free list. -/
structure Fresh (dirs : ε → Option Nat) (s : Pmap) (p : Nat) : Prop extends Bystander dirs s p where
  lt : p < s.npage
  count : s.ppRef p = 0
  zero : s.mem p = fun _ => 0
  notKernel : NotKernelTable dirs s p

theorem pageAlloc_nil (h : s.pageFreeList = []) : pageAlloc s = .ok (s, .error .noMem) := by
  simp [pageAlloc, h]

theorem pageAlloc_cons {rest : List Nat} (npage_le : s.npage ≤ 2 ^ 20)
    (h : s.pageFreeList = p :: rest) (lt : p < s.npage) :
    pageAlloc s = .ok (s.take p rest, .ok p) := by
  have kva : s.page2kva p = .ok p := page2kva_eq npage_le lt
  unfold pageAlloc
  rw [h]
  simp only [kva, Bind.bind, Except.bind]
  rfl

theorem PmapInv.pageAlloc_cons (inv : PmapInv dirs s) {rest : List Nat}
    (h : s.pageFreeList = p :: rest) : pageAlloc s = .ok (s.take p rest, .ok p) :=
  Mos.pageAlloc_cons inv.npage_le h (inv.free_lt p (by rw [h]; exact List.mem_cons_self))

theorem PmapInv.target_take (inv : PmapInv dirs s) {rest : List Nat}
    (h : s.pageFreeList = p :: rest) :
    target dirs (s.take p rest).mem = target dirs s.mem :=
  target_writePage
    (fun r _ => inv.store.free_untargeted p (by simp [Pmap.store, h]) r) _

theorem PmapInv.take (inv : PmapInv dirs s) {rest : List Nat} (h : s.pageFreeList = p :: rest) :
    PmapInv dirs (s.take p rest) ∧ Frame dirs e noPage s (s.take p rest) ∧
      Fresh dirs (s.take p rest) p := by
  have same := inv.target_take h
  have mem_free : p ∈ s.pageFreeList := by rw [h]; exact List.mem_cons_self
  obtain ⟨taken, notFree, untargeted, count⟩ :=
    inv.store.take (show (s.store dirs).free = p :: rest from h)
  have directory : ∀ e d, dirs e = some d → (s.take p rest).mem d = s.mem d := by
    intro e d he
    apply Function.update_of_ne
    rintro rfl
    exact untargeted (.dir e) he
  have frame : Frame dirs e noPage s (s.take p rest) := by
    refine Frame.of_subset rfl
      (fun q hq => .inl (by rw [h]; exact List.mem_cons_of_mem _ hq))
      (fun r q hr => .inr (.inr ⟨r, by rwa [same] at hr⟩)) (fun q hq _ => ⟨?_, rfl⟩)
      (fun e' d k he _ => congrFun (directory e' d he) k)
      fun e' d he _ => ⟨directory e' d he, fun i t ht => ?_⟩
    · exact Function.update_of_ne (fun e => hq.notFree (by rw [e]; exact mem_free)) _ _
    · apply Function.update_of_ne
      rintro rfl
      exact untargeted (.pde e' i) ((target_pde he).trans ht)
  refine ⟨inv.of_frame frame (fun _ hX => hX.elim) ?_ (inv.tablesWritable.of_eq directory)
    (fun q hq => ?_) fun r q hr => ?_, frame, ⟨?_, ?_⟩, ?_, count, ?_, ?_⟩
  · have : (s.take p rest).store dirs = { s.store dirs with free := rest } := by
      simp only [Pmap.store, same]
      rfl
    rw [this]
    exact taken
  · exact inv.free_lt q (by rw [h]; exact List.mem_cons_of_mem _ hq)
  · exact inv.target_lt r q (by rwa [same] at hr)
  · exact notFree
  · intro r
    rw [same]
    exact untargeted r
  · exact inv.free_lt p mem_free
  · exact Function.update_self ..
  · intro e d k he hk hk' hentry
    rw [directory e d he] at hentry
    rcases eq_or_ne k 511 with rfl | hne
    · rw [inv.selfMap e d he,
        entry_selfMap (Nat.lt_of_lt_of_le (inv.target_lt (.dir e) d he) inv.npage_le)] at hentry
      cases hentry
      exact untargeted (.dir e) he
    · obtain ⟨valid, rfl⟩ := entry_eq_some_iff.mp hentry
      exact (inv.window e d k he hk hk' hne valid).bystander.notFree mem_free

/-! ## Unmapping a page -/

variable [DecidableEq ε]

/-- `page_decref` where it does not panic. -/
def Pmap.decref (s : Pmap) (p : Nat) : Pmap :=
  { s with
    ppRef := Function.update s.ppRef p (s.ppRef p - 1)
    pageFreeList := if s.ppRef p - 1 = 0 then p :: s.pageFreeList else s.pageFreeList }

theorem pageDecref_eq (h : s.ppRef p ≠ 0) : pageDecref s p = .ok (s.decref p) := by
  have pos : 0 < s.ppRef p := by
    rw [BitVec.lt_def]
    have : (s.ppRef p).toNat ≠ 0 := fun zero => h (BitVec.eq_of_toNat_eq zero)
    simpa using Nat.pos_of_ne_zero this
  simp only [pageDecref, if_pos pos, Pmap.setRef, Function.update_self, pageFree, Pmap.decref]
  split <;> rfl

theorem Pmap.mem_decref {q : Nat} (h : q ∈ (s.decref p).pageFreeList) :
    q = p ∨ q ∈ s.pageFreeList := by
  unfold Pmap.decref at h
  by_cases zero : s.ppRef p - 1 = 0
  · rw [if_pos zero] at h
    exact List.mem_cons.mp h
  · rw [if_neg zero] at h
    exact .inr h

/-- The state after the entry `(t, j)`, which maps `p`, is cleared. -/
def Pmap.unmap (s : Pmap) (p t j : Nat) : Pmap := (s.decref p).setWord (t, j) 0

theorem PmapInv.store_unmap (inv : PmapInv dirs s) (he : dirs e = some d)
    (ht : entry (s.mem d i) = some t) :
    (s.unmap p t j).store dirs = (s.store dirs).unlink (.pte e i j) p := by
  have tgt : target dirs (writeWord s.mem t j 0#32) = _ :=
    target_writeLeaf inv.excl he ht _ (j := j)
  rw [entry_zero] at tgt
  exact congrArg (fun tgt => RefStore.mk tgt _ _) tgt

omit [Fintype ε] [DecidableEq ε] in
/-- A store to a page table writes no page directory. -/
theorem directory_writeLeaf {mem : Nat → Nat → Word} {k : Nat} {w : Word}
    (excl : ∀ (r r' : Ref ε) p, r.IsTable → target dirs mem r = some p →
      target dirs mem r' = some p → r' = r)
    (he : dirs e = some d) (ht : entry (mem d i) = some t) (e' : ε) (d' : Nat)
    (he' : dirs e' = some d') : writeWord mem t k w d' = mem d' :=
  writeWord_of_page_ne (table_ne_dir excl he ht he')

omit [Fintype ε] [DecidableEq ε] in
/-- A store to a page table of `e` writes no table of another address space. -/
theorem others_writeLeaf {mem : Nat → Nat → Word} {k : Nat} {w : Word}
    (excl : ∀ (r r' : Ref ε) p, r.IsTable → target dirs mem r = some p →
      target dirs mem r' = some p → r' = r)
    (he : dirs e = some d) (ht : entry (mem d i) = some t) (e' : ε) (d' : Nat)
    (he' : dirs e' = some d') (hne : e' ≠ e) :
    writeWord mem t k w d' = mem d' ∧
      ∀ (i' : Fin 509) t', entry (mem d' i') = some t' → writeWord mem t k w t' = mem t' := by
  refine ⟨directory_writeLeaf excl he ht e' d' he', fun i' t' ht' => ?_⟩
  apply writeWord_of_page_ne
  rintro rfl
  exact hne (table_injective excl he ht he' ht').1

omit [Fintype ε] [DecidableEq ε] in
/-- A store to the page directory of `e` writes no table of another address
space. -/
theorem others_writeDir {mem : Nat → Nat → Word} {k : Nat} {w : Word}
    (excl : ∀ (r r' : Ref ε) p, r.IsTable → target dirs mem r = some p →
      target dirs mem r' = some p → r' = r)
    (he : dirs e = some d) (e' : ε) (d' : Nat) (he' : dirs e' = some d') (hne : e' ≠ e) :
    writeWord mem d k w d' = mem d' ∧
      ∀ (i' : Fin 509) t', entry (mem d' i') = some t' → writeWord mem d k w t' = mem t' := by
  refine ⟨?_, fun i' t' ht' => writeWord_of_page_ne (table_ne_dir excl he' ht' he).symm⟩
  apply writeWord_of_page_ne
  rintro rfl
  exact hne (dir_injective excl he he')

theorem PmapInv.unmap (inv : PmapInv dirs s) (he : dirs e = some d)
    (ht : entry (s.mem d i) = some t) (hp : entry (s.mem t j) = some p)
    (bound : refs (target dirs s.mem) p < 2 ^ 16) :
    PmapInv dirs (s.unmap p t j) ∧ Frame dirs e noPage s (s.unmap p t j) := by
  have mapped : target dirs s.mem (.pte e i j) = some p := (target_pte he ht).trans hp
  have table : target dirs s.mem (.pde e i) = some t := (target_pde he).trans ht
  have store := inv.store_unmap (p := p) (j := j) he ht
  have inv' : ((s.unmap p t j).store dirs).Inv Ref.IsTable := by
    rw [store]
    exact inv.store.unlink mapped bound
  have tgt : target dirs (s.unmap p t j).mem =
    Function.update (target dirs s.mem) (.pte e i j) none :=
    congrArg RefStore.tgt store
  have old : ∀ r q, target dirs (s.unmap p t j).mem r = some q → target dirs s.mem r = some q := by
    intro r q hr
    rw [tgt] at hr
    rcases eq_or_ne r (.pte e i j) with rfl | hne
    · simp at hr
    · rwa [Function.update_of_ne hne] at hr
  have free : ∀ q ∈ (s.unmap p t j).pageFreeList, q = p ∨ q ∈ s.pageFreeList :=
    fun q hq => s.mem_decref hq
  have frame : Frame dirs e noPage s (s.unmap p t j) := by
    refine Frame.of_subset rfl (fun q hq => ?_) (fun r q hr => .inr (.inr ⟨r, old r q hr⟩))
      (fun q hq _ => ⟨?_, ?_⟩)
      (fun e' d' k he' _ => congrFun (directory_writeLeaf inv.excl he ht e' d' he') k)
      (others_writeLeaf inv.excl he ht)
    · rcases free q hq with rfl | hq
      · exact .inr ⟨_, mapped⟩
      · exact .inl hq
    · have hne : q ≠ t := fun eq => hq.untargeted _ (eq ▸ table)
      exact writeWord_of_page_ne hne
    · have hne : q ≠ p := fun eq => hq.untargeted _ (eq ▸ mapped)
      exact Function.update_of_ne hne _ _
  refine ⟨inv.of_frame frame (fun _ hX => hX.elim) inv'
    (inv.tablesWritable.of_eq (directory_writeLeaf inv.excl he ht)) (fun q hq => ?_)
    fun r q hr => inv.target_lt r q (old r q hr), frame⟩
  rcases free q hq with rfl | hq
  · exact inv.target_lt _ q mapped
  · exact inv.free_lt q hq

omit [DecidableEq ε] in
theorem PmapInv.count_ne_zero (inv : PmapInv dirs s) {r : Ref ε} (h : target dirs s.mem r = some p)
    (bound : refs (target dirs s.mem) p < 2 ^ 16) : s.ppRef p ≠ 0 :=
  RefStore.Inv.count_ne_zero (r := r) inv.store h bound

omit [Fintype ε] [DecidableEq ε] in
theorem pageRemove_unmapped (inside : InMemory s d va) (h : lookup s.mem d va = none) :
    pageRemove s d asid va = .ok s := by
  simp only [pageRemove, pageLookup_eq inside, h]
  rfl

omit [Fintype ε] [DecidableEq ε] in
theorem pageRemove_mapped (inside : InMemory s d va) (ht : entry (s.mem d (pdx va)) = some t)
    (hp : entry (s.mem t (ptx va)) = some p) (count : s.ppRef p ≠ 0) :
    pageRemove s d asid va = .ok ((s.unmap p t (ptx va)).tlbInvalidate asid va) := by
  simp only [pageRemove, pageLookup_eq inside, lookup_eq_some ht hp, Bind.bind, Except.bind,
    pageDecref_eq count]
  rfl

omit [DecidableEq ε] in
theorem PmapInv.pageRemove_none (inv : PmapInv dirs s) (he : dirs e = some d) (hva : va < ulim)
    (h : lookup s.mem d va = none) : pageRemove s d asid va = .ok s :=
  pageRemove_unmapped (inv.inMemory he hva) h

omit [DecidableEq ε] in
theorem PmapInv.pageRemove_some (inv : PmapInv dirs s) (he : dirs e = some d) (hva : va < ulim)
    (user : pdx va < 509) (ht : entry (s.mem d (pdx va)) = some t)
    (hp : entry (s.mem t (ptx va)) = some p) (bound : refs (target dirs s.mem) p < 2 ^ 16) :
    pageRemove s d asid va = .ok ((s.unmap p t (ptx va)).tlbInvalidate asid va) := by
  have mapped : target dirs s.mem (.pte e ⟨_, user⟩ ⟨_, ptx_lt va⟩) = some p :=
    (target_pte he ht).trans hp
  exact pageRemove_mapped (inv.inMemory he hva) ht hp (inv.count_ne_zero mapped bound)

/-! ## Installing a page table -/

omit [DecidableEq ε] in
theorem PmapInv.page_lt (inv : PmapInv dirs s) {q : Nat} (h : q < s.npage) : q < 2 ^ 20 :=
  Nat.lt_of_lt_of_le h inv.npage_le

/-- The state after page `p` becomes the page table behind entry `k` of the
directory `d`. -/
def Pmap.install (s : Pmap) (d k p : Nat) : Pmap :=
  (s.setWord (d, k) (page2pa p ||| pteD ||| pteV)).setRef p (s.ppRef p + 1)

theorem pgdirWalk_create {rest : List Nat} (npage_le : s.npage ≤ 2 ^ 20)
    (ht : entry (s.mem d (pdx va)) = none) (h : s.pageFreeList = p :: rest) (lt : p < s.npage) :
    pgdirWalk s d va true = .ok ((s.take p rest).install d (pdx va) p, .ok (some (p, ptx va))) := by
  have name := ppn_entry (Nat.lt_of_lt_of_le lt npage_le) (by decide : pteD < 0x1000#32)
  have found : pgdirEntry ((s.take p rest).install d (pdx va) p) d va =
      .ok ((s.take p rest).install d (pdx va) p, .ok (some (p, ptx va))) := by
    have word : ((s.take p rest).install d (pdx va) p).mem d (pdx va) =
        page2pa p ||| pteD ||| pteV := writeWord_self ..
    have kaddr : ((s.take p rest).install d (pdx va) p).kaddr
        (pteAddr (page2pa p ||| pteD ||| pteV)) = .ok p := by
      rw [kaddr_pteAddr (by rw [name]; exact lt), name]
    simp only [pgdirEntry, word, kaddr]
    rfl
  simp only [pgdirWalk, if_neg (entry_eq_none_iff.mp ht), pageAlloc_cons npage_le h lt, Bind.bind,
    Except.bind, if_true]
  exact found

omit [DecidableEq ε] in
theorem PmapInv.pgdirWalk_create (inv : PmapInv dirs s) {rest : List Nat}
    (ht : entry (s.mem d (pdx va)) = none) (h : s.pageFreeList = p :: rest) :
    pgdirWalk s d va true = .ok ((s.take p rest).install d (pdx va) p, .ok (some (p, ptx va))) :=
  Mos.pgdirWalk_create inv.npage_le ht h (inv.free_lt p (by rw [h]; exact List.mem_cons_self))

theorem PmapInv.store_install (inv : PmapInv dirs s) (he : dirs e = some d)
    (vacant : entry (s.mem d i) = none) (fresh : Fresh dirs s p) :
    (s.install d i p).store dirs = (s.store dirs).link (.pde e i) p := by
  have name := entry_page2pa (inv.page_lt fresh.lt) (by decide : pteD < 0x1000#32)
  have hne : p ≠ d := by
    rintro rfl
    exact fresh.untargeted (.dir e) he
  have tgt : target dirs (writeWord s.mem d i (page2pa p ||| pteD ||| pteV)) =
      Function.update (target dirs s.mem) (.pde e i) (some p) := by
    rw [target_writeDir inv.excl he _ (fun _ => target_pte_none he vacant), name]
    intro t ht
    rw [name] at ht
    cases ht
    exact ⟨hne, fun j => by simp [fresh.zero]⟩
  exact congrArg (fun tgt => RefStore.mk tgt _ _) tgt

theorem PmapInv.install (inv : PmapInv dirs s) (he : dirs e = some d)
    (vacant : entry (s.mem d i) = none) (fresh : Fresh dirs s p) :
    PmapInv dirs (s.install d i p) ∧ Frame dirs e (· = p) s (s.install d i p) := by
  have empty : target dirs s.mem (.pde e i) = none := (target_pde he).trans vacant
  have store := inv.store_install he vacant fresh
  have store_inv : ((s.install d i p).store dirs).Inv Ref.IsTable := by
    rw [store]
    exact inv.store.link empty
      (.of_untargeted fresh.notFree fresh.untargeted fresh.count) fun _ => fresh.untargeted
  have tgt : target dirs (s.install d i p).mem =
      Function.update (target dirs s.mem) (.pde e i) (some p) := congrArg RefStore.tgt store
  have old : ∀ r q, target dirs (s.install d i p).mem r = some q →
      q = p ∨ target dirs s.mem r = some q := by
    intro r q hr
    rw [tgt] at hr
    rcases eq_or_ne r (.pde e i) with rfl | hne
    · simp only [Function.update_self, Option.some.injEq] at hr
      exact .inl hr.symm
    · exact .inr (by rwa [Function.update_of_ne hne] at hr)
  have frame : Frame dirs e (· = p) s (s.install d i p) := by
    refine Frame.of_subset rfl (fun q hq => .inl hq)
      (fun r q hr => (old r q hr).imp id fun hr => .inr ⟨r, hr⟩) (fun q hq hne => ⟨?_, ?_⟩)
      (fun e' d' k he' hk => writeWord_of_ne (.inr (by omega))) (others_writeDir inv.excl he)
    · have hqd : q ≠ d := fun eq => hq.untargeted (.dir e) (eq ▸ he)
      exact writeWord_of_page_ne hqd
    · exact Function.update_of_ne hne _ _
  refine ⟨inv.of_frame frame ?_ store_inv ?_ inv.free_lt fun r q hr => ?_, frame⟩
  · rintro q rfl
    exact fresh.notKernel
  · intro e' d' i' he' valid
    by_cases own : d' = d ∧ (i' : Nat) = i
    · obtain ⟨rfl, hi⟩ := own
      rw [hi, show (s.install d' i p).mem d' i = page2pa p ||| pteD ||| pteV from writeWord_self ..,
        Word.has_or, Word.has_or]
      exact .inl (.inr (by decide))
    · have word : (s.install d i p).mem d' i' = s.mem d' i' := by
        apply writeWord_of_ne
        by_contra hcon
        push Not at hcon
        exact own hcon
      rw [word] at valid ⊢
      exact inv.tablesWritable e' d' i' he' valid
  · rcases old r q hr with rfl | hr
    · exact fresh.lt
    · exact inv.target_lt r q hr

/-! ## Mapping a page -/

/-- The state after the entry `(t, j)` maps `pp` with permission `perm`. -/
def Pmap.mapPage (s : Pmap) (t j pp : Nat) (perm : Word) : Pmap :=
  (s.setWord (t, j) (page2pa pp ||| perm ||| pteV)).setRef pp (s.ppRef pp + 1)

/-- A page that can be mapped. -/
structure Mappable (dirs : ε → Option Nat) (s : Pmap) (pp : Nat) : Prop where
  linkable : (s.store dirs).Linkable Ref.IsTable pp
  lt : pp < s.npage
  notKernel : Bystander dirs s pp → NotKernelTable dirs s pp

theorem PmapInv.store_mapPage (inv : PmapInv dirs s) (he : dirs e = some d)
    (ht : entry (s.mem d i) = some t) {pp : Nat} (lt : pp < s.npage) (hperm : perm < 0x1000#32) :
    (s.mapPage t j pp perm).store dirs = (s.store dirs).link (.pte e i j) pp := by
  have tgt : target dirs (writeWord s.mem t j (page2pa pp ||| perm ||| pteV)) =
      Function.update (target dirs s.mem) (.pte e i j) (some pp) := by
    rw [target_writeLeaf inv.excl he ht, entry_page2pa (inv.page_lt lt) hperm]
  exact congrArg (fun tgt => RefStore.mk tgt _ _) tgt

theorem PmapInv.mapPage (inv : PmapInv dirs s) (he : dirs e = some d)
    (ht : entry (s.mem d i) = some t) (vacant : entry (s.mem t j) = none) {pp : Nat}
    (mappable : Mappable dirs s pp) (hperm : perm < 0x1000#32) :
    PmapInv dirs (s.mapPage t j pp perm) ∧ Frame dirs e (· = pp) s (s.mapPage t j pp perm) := by
  have empty : target dirs s.mem (.pte e i j) = none := (target_pte he ht).trans vacant
  have table : target dirs s.mem (.pde e i) = some t := (target_pde he).trans ht
  have store := inv.store_mapPage (j := j) he ht mappable.lt hperm
  have store_inv : ((s.mapPage t j pp perm).store dirs).Inv Ref.IsTable := by
    rw [store]
    exact inv.store.link empty mappable.linkable fun table => table.elim
  have tgt : target dirs (s.mapPage t j pp perm).mem =
      Function.update (target dirs s.mem) (.pte e i j) (some pp) := congrArg RefStore.tgt store
  have old : ∀ r q, target dirs (s.mapPage t j pp perm).mem r = some q →
      q = pp ∨ target dirs s.mem r = some q := by
    intro r q hr
    rw [tgt] at hr
    rcases eq_or_ne r (.pte e i j) with rfl | hne
    · simp only [Function.update_self, Option.some.injEq] at hr
      exact .inl hr.symm
    · exact .inr (by rwa [Function.update_of_ne hne] at hr)
  have frame : Frame dirs e (· = pp) s (s.mapPage t j pp perm) := by
    refine Frame.of_subset rfl (fun q hq => .inl hq)
      (fun r q hr => (old r q hr).imp id fun hr => .inr ⟨r, hr⟩) (fun q hq hne => ⟨?_, ?_⟩)
      (fun e' d' k he' _ => congrFun (directory_writeLeaf inv.excl he ht e' d' he') k)
      (others_writeLeaf inv.excl he ht)
    · have hqt : q ≠ t := fun eq => hq.untargeted (.pde e i) (eq ▸ table)
      exact writeWord_of_page_ne hqt
    · exact Function.update_of_ne hne _ _
  have frame' : Frame dirs e (fun q => q = pp ∧ Bystander dirs s pp) s (s.mapPage t j pp perm) :=
    frame.weaken fun q hq eq => ⟨eq, eq ▸ hq⟩
  refine ⟨inv.of_frame frame' ?_ store_inv
    (inv.tablesWritable.of_eq (directory_writeLeaf inv.excl he ht)) inv.free_lt
    fun r q hr => ?_, frame⟩
  · rintro q ⟨rfl, bystander⟩
    exact mappable.notKernel bystander
  · rcases old r q hr with rfl | hr
    · exact mappable.lt
    · exact inv.target_lt r q hr

/-- The state after the permission of the entry `(t, j)`, which maps `pp`, is
replaced. -/
def Pmap.remap (s : Pmap) (t j pp : Nat) (perm : Word) : Pmap :=
  s.setWord (t, j) (page2pa pp ||| perm ||| pteV)

theorem PmapInv.target_remap (inv : PmapInv dirs s) (he : dirs e = some d)
    (ht : entry (s.mem d i) = some t) (hp : entry (s.mem t j) = some p)
    (hperm : perm < 0x1000#32) : target dirs (s.remap t j p perm).mem = target dirs s.mem := by
  have mapped : target dirs s.mem (.pte e i j) = some p := (target_pte he ht).trans hp
  have lt := inv.page_lt (inv.target_lt _ p mapped)
  have tgt := target_writeLeaf inv.excl he ht (page2pa p ||| perm ||| pteV) (j := j)
  rw [entry_page2pa lt hperm, ← mapped, Function.update_eq_self] at tgt
  exact tgt

theorem PmapInv.remap (inv : PmapInv dirs s) (he : dirs e = some d)
    (ht : entry (s.mem d i) = some t) (hp : entry (s.mem t j) = some p)
    (hperm : perm < 0x1000#32) :
    PmapInv dirs (s.remap t j p perm) ∧ Frame dirs e noPage s (s.remap t j p perm) := by
  have table : target dirs s.mem (.pde e i) = some t := (target_pde he).trans ht
  have tgt := inv.target_remap he ht hp hperm
  have store : (s.remap t j p perm).store dirs = s.store dirs :=
    congrArg (fun tgt => RefStore.mk tgt _ _) tgt
  have frame : Frame dirs e noPage s (s.remap t j p perm) := by
    refine Frame.of_subset rfl (fun q hq => .inl hq) (fun r q hr => .inr (.inr ⟨r, ?_⟩))
      (fun q hq _ => ⟨?_, rfl⟩)
      (fun e' d' k he' _ => congrFun (directory_writeLeaf inv.excl he ht e' d' he') k)
      (others_writeLeaf inv.excl he ht)
    · rwa [tgt] at hr
    · have hqt : q ≠ t := fun eq => hq.untargeted (.pde e i) (eq ▸ table)
      exact writeWord_of_page_ne hqt
  refine ⟨inv.of_frame frame (fun _ hX => hX.elim) ?_
    (inv.tablesWritable.of_eq (directory_writeLeaf inv.excl he ht)) inv.free_lt
    fun r q hr => ?_, frame⟩
  · rw [store]
    exact inv.store
  · rw [tgt] at hr
    exact inv.target_lt r q hr

end Operations

end Mos
