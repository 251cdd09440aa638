import Mos.PmapInsert

/-!
# Page directories that come and go

What an env does to its directory as a whole. A page is filled while nobody
names it and then becomes the directory of a new address space (`addDir`); in
the end the page tables are given up one by one (`dropTable`), and then the
directory (`dropDir`). A fault inside the page table window puts a page behind a
kernel entry (`installKernel`).
-/

namespace Mos

variable {ε : Type} [Fintype ε] {dirs : ε → Option Nat} {s s' : Pmap} {e : ε} {d t p k : Nat}
  {i : Fin 509}

/-! ## Pages nobody names -/

/-- Page `p` filled with `contents`, its count set to `n`. -/
def Pmap.fill (s : Pmap) (p : Nat) (contents : Nat → Word) (n : BitVec 16) : Pmap :=
  { s with mem := Function.update s.mem p contents, ppRef := Function.update s.ppRef p n }

theorem PmapInv.fill (inv : PmapInv dirs s) (bystander : Bystander dirs s p)
    (notKernel : NotKernelTable dirs s p) (contents : Nat → Word) (n : BitVec 16) :
    PmapInv dirs (s.fill p contents n) ∧ Frame dirs e (· = p) s (s.fill p contents n) ∧
      Bystander dirs (s.fill p contents n) p ∧ NotKernelTable dirs (s.fill p contents n) p := by
  have same : target dirs (s.fill p contents n).mem = target dirs s.mem :=
    target_writePage (fun r _ => bystander.untargeted r) contents
  have directory : ∀ e d, dirs e = some d → (s.fill p contents n).mem d = s.mem d := by
    intro e d he
    apply Function.update_of_ne
    rintro rfl
    exact bystander.untargeted (.dir e) he
  have frame : Frame dirs e (· = p) s (s.fill p contents n) := by
    refine Frame.of_subset rfl (fun q hq => .inl hq)
      (fun r q hr => .inr (.inr ⟨r, by rwa [same] at hr⟩))
      (fun q _ hne => ⟨Function.update_of_ne hne _ _, Function.update_of_ne hne _ _⟩)
      (fun e' d k he _ => congrFun (directory e' d he) k)
      fun e' d he _ => ⟨directory e' d he, fun i t ht => ?_⟩
    apply Function.update_of_ne
    rintro rfl
    exact bystander.untargeted (.pde e' i) ((target_pde he).trans ht)
  have store : ((s.fill p contents n).store dirs).Inv Ref.IsTable := by
    have eq : (s.fill p contents n).store dirs =
        { s.store dirs with count := Function.update s.ppRef p n } := by
      simp only [Pmap.store, same]
      rfl
    rw [eq]
    exact inv.store.setCount bystander.notFree bystander.untargeted n
  refine ⟨inv.of_frame frame ?_ store (inv.tablesWritable.of_eq directory) inv.free_lt
    fun r q hr => ?_, frame, ⟨bystander.notFree, ?_⟩, ?_⟩
  · rintro q rfl
    exact notKernel
  · exact inv.target_lt r q (by rwa [same] at hr)
  · rw [same]
    exact bystander.untargeted
  · intro e d k he hk hk'
    rw [directory e d he]
    exact notKernel e d k he hk hk'

/-! ## Kernel entries -/

/-- A page put behind a free kernel entry of a directory is a window of its own:
no user mapping, and nothing writable in it yet. -/
theorem PmapInv.installKernel (inv : PmapInv dirs s) (he : dirs e = some d) (hk : 509 ≤ k)
    (hne : k ≠ 511) (vacant : ¬ (s.mem d k).Has pteV) (fresh : Fresh dirs s p) :
    PmapInv dirs (s.install d k p) ∧ ∀ q, Bystander dirs s q → q ≠ p →
      Bystander dirs (s.install d k p) q ∧ (s.install d k p).mem q = s.mem q := by
  have same : target dirs (s.install d k p).mem = target dirs s.mem :=
    target_writeKernel inv.excl he hk _
  have bystander : ∀ q, Bystander dirs s q → Bystander dirs (s.install d k p) q := by
    intro q hq
    refine ⟨hq.notFree, ?_⟩
    rw [same]
    exact hq.untargeted
  have contents : ∀ q, Bystander dirs s q → (s.install d k p).mem q = s.mem q := by
    intro q hq
    apply writeWord_of_page_ne
    rintro rfl
    exact hq.untargeted (.dir e) he
  refine ⟨⟨?_, fun e' d' i he' => ?_, inv.npage_le, inv.free_lt, fun r q hr => ?_,
    fun e' d' he' => ?_, ?_⟩, fun q hq _ => ⟨bystander q hq, contents q hq⟩⟩
  · have eq : (s.install d k p).store dirs =
        { s.store dirs with count := Function.update s.ppRef p (s.ppRef p + 1) } := by
      simp only [Pmap.store, same]
      rfl
    rw [eq]
    exact inv.store.setCount fresh.notFree fresh.untargeted _
  · rw [show (s.install d k p).mem d' i = s.mem d' i from writeWord_of_ne (.inr (by omega))]
    exact inv.tablesWritable e' d' i he'
  · exact inv.target_lt r q (by rwa [same] at hr)
  · rw [show (s.install d k p).mem d' 511 = s.mem d' 511 from writeWord_of_ne (.inr hne.symm)]
    exact inv.selfMap e' d' he'
  · intro e' d' k' he' hk' hlt hne' valid
    by_cases own : d' = d ∧ k' = k
    · obtain ⟨rfl, rfl⟩ := own
      have word : (s.install d' k' p).mem d' k' = page2pa p ||| pteD ||| pteV := writeWord_self ..
      have name := ppn_entry (inv.page_lt fresh.lt) (by decide : pteD < 0x1000#32)
      have zero : (s.install d' k' p).mem p = fun _ => 0 :=
        (contents p fresh.toBystander).trans fresh.zero
      rw [word]
      refine ⟨(Word.has_or _ _ _).mpr (.inl ((Word.has_or _ _ _).mpr (.inr (by decide)))), ?_, ?_,
        fun _ j _ => ?_, fun _ j q _ hq => ?_⟩
      · rw [name]
        exact fresh.lt
      · rw [name]
        exact bystander p fresh.toBystander
      · rw [name, zero]
        exact (by decide : ¬ (0 : Word).Has pteD)
      · rw [name, zero] at hq
        cases entry_zero.symm.trans hq
    · have word : (s.install d k p).mem d' k' = s.mem d' k' := by
        apply writeWord_of_ne
        by_contra hcon
        push Not at hcon
        exact own hcon
      rw [word] at valid ⊢
      have table := inv.window e' d' k' he' hk' hlt hne' valid
      exact ⟨table.writable, table.lt, bystander _ table.bystander,
        by rw [contents _ table.bystander]; exact table.readOnly,
        by rw [contents _ table.bystander]; exact table.inside⟩

variable [DecidableEq ε]

/-! ## A new address space -/

/-- What makes a page fit to be a page directory. -/
structure Directory (dirs : ε → Option Nat) (s : Pmap) (p : Nat) : Prop where
  lt : p < s.npage
  count : s.ppRef p = 1
  empty : ∀ i : Fin 509, entry (s.mem p i) = none
  selfMap : s.mem p 511 = page2pa p ||| pteV
  window : ∀ k, 509 ≤ k → k < 1024 → k ≠ 511 → (s.mem p k).Has pteV →
    WindowTable dirs s k (s.mem p k) ∧ ppn (s.mem p k) ≠ p

/-- A bystander that is fit to be one becomes the page directory of an address
space without any. -/
theorem PmapInv.addDir (inv : PmapInv dirs s) (vacant : dirs e = none)
    (bystander : Bystander dirs s p) (notKernel : NotKernelTable dirs s p)
    (directory : Directory dirs s p) :
    PmapInv (Function.update dirs e (some p)) s ∧ ∀ q, Bystander dirs s q → q ≠ p →
      Bystander (Function.update dirs e (some p)) s q := by
  have tgt : target (Function.update dirs e (some p)) s.mem =
      Function.update (target dirs s.mem) (.dir e) (some p) :=
    target_addDir vacant directory.empty
  have old : ∀ r q, target (Function.update dirs e (some p)) s.mem r = some q →
      q = p ∨ target dirs s.mem r = some q := by
    intro r q hr
    rw [tgt] at hr
    rcases eq_or_ne r (.dir e) with rfl | hne
    · simp only [Function.update_self, Option.some.injEq] at hr
      exact .inl hr.symm
    · exact .inr (by rwa [Function.update_of_ne hne] at hr)
  have kept : ∀ q, Bystander dirs s q → q ≠ p →
      Bystander (Function.update dirs e (some p)) s q := fun q hq hne =>
    ⟨hq.notFree, fun r hr => (old r q hr).elim hne (hq.untargeted r)⟩
  have table : ∀ k pde, WindowTable dirs s k pde → ppn pde ≠ p →
      WindowTable (Function.update dirs e (some p)) s k pde := fun k pde h hne =>
    ⟨h.writable, h.lt, kept _ h.bystander hne, h.readOnly, h.inside⟩
  -- linking the directory counts the one reference that the page came with
  have store : (s.store (Function.update dirs e (some p))).Inv Ref.IsTable := by
    have unreferenced := inv.store.setCount bystander.notFree bystander.untargeted 0
    have vacant' : target dirs s.mem (.dir e) = none := vacant
    have linked := unreferenced.link (r := Ref.dir e) (p := p) vacant'
      (.of_untargeted bystander.notFree bystander.untargeted (Function.update_self ..))
      fun _ => bystander.untargeted
    have count : Function.update (Function.update s.ppRef p 0) p 1 = s.ppRef := by
      rw [Function.update_idem, ← directory.count, Function.update_eq_self]
    have eq : s.store (Function.update dirs e (some p)) =
        RefStore.link { s.store dirs with count := Function.update s.ppRef p 0 } (.dir e) p := by
      simp only [Pmap.store, RefStore.link, tgt, Function.update_self, zero_add, count]
    rw [eq]
    exact linked
  refine ⟨⟨store, fun e' d' i he' valid => ?_, inv.npage_le, inv.free_lt, fun r q hr => ?_,
    fun e' d' he' => ?_, ?_⟩, kept⟩
  · rcases eq_or_ne e' e with rfl | hne
    · simp only [Function.update_self, Option.some.injEq] at he'
      subst he'
      cases (entry_of_valid valid).symm.trans (directory.empty i)
    · exact inv.tablesWritable e' d' i (by rwa [Function.update_of_ne hne] at he') valid
  · rcases old r q hr with rfl | hr
    · exact directory.lt
    · exact inv.target_lt r q hr
  · rcases eq_or_ne e' e with rfl | hne
    · simp only [Function.update_self, Option.some.injEq] at he'
      rw [← he']
      exact directory.selfMap
    · exact inv.selfMap e' d' (by rwa [Function.update_of_ne hne] at he')
  · intro e' d' k he' hk hk' hne' valid
    rcases eq_or_ne e' e with rfl | hne
    · simp only [Function.update_self, Option.some.injEq] at he'
      subst he'
      obtain ⟨h, away⟩ := directory.window k hk hk' hne' valid
      exact table k _ h away
    · rw [Function.update_of_ne hne] at he'
      exact table k _ (inv.window e' d' k he' hk hk' hne' valid)
        fun eq => notKernel e' d' k he' hk hk' (eq ▸ entry_of_valid valid)

/-! ## Giving up an address space -/

/-- The state after directory entry `k`, which leads to the page table `t`, is
cleared and the table given up. -/
def Pmap.dropTable (s : Pmap) (d k t : Nat) : Pmap := (s.setWord (d, k) 0).decref t

theorem PmapInv.store_dropTable (inv : PmapInv dirs s) (he : dirs e = some d)
    (ht : entry (s.mem d i) = some t) (empty : ∀ j : Fin 1024, entry (s.mem t j) = none) :
    (s.dropTable d i t).store dirs = (s.store dirs).unlink (.pde e i) t := by
  have tgt : target dirs (writeWord s.mem d i 0#32) = _ :=
    target_writeDir inv.excl he 0 (fun j => (target_pte he ht).trans (empty j))
      fun t' ht' => by cases entry_zero.symm.trans ht'
  rw [show entry 0 = none from entry_zero] at tgt
  exact congrArg (fun tgt => RefStore.mk tgt _ _) tgt

/-- A page table that maps nothing can be given up. -/
theorem PmapInv.dropTable (inv : PmapInv dirs s) (he : dirs e = some d)
    (ht : entry (s.mem d i) = some t) (empty : ∀ j : Fin 1024, entry (s.mem t j) = none) :
    PmapInv dirs (s.dropTable d i t) ∧ Frame dirs e noPage s (s.dropTable d i t) := by
  have table : target dirs s.mem (.pde e i) = some t := (target_pde he).trans ht
  have once : refs (target dirs s.mem) t = 1 :=
    inv.store.refs_table (r := Ref.pde e i) table trivial
  have store := inv.store_dropTable he ht empty
  have inv' : ((s.dropTable d i t).store dirs).Inv Ref.IsTable := by
    rw [store]
    exact inv.store.unlink (r := Ref.pde e i) table (by show refs (target dirs s.mem) t < _; omega)
  have tgt : target dirs (s.dropTable d i t).mem =
      Function.update (target dirs s.mem) (.pde e i) none := congrArg RefStore.tgt store
  have old : ∀ r q, target dirs (s.dropTable d i t).mem r = some q →
      target dirs s.mem r = some q := by
    intro r q hr
    rw [tgt] at hr
    rcases eq_or_ne r (.pde e i) with rfl | hne
    · simp at hr
    · rwa [Function.update_of_ne hne] at hr
  have free : ∀ q ∈ (s.dropTable d i t).pageFreeList, q = t ∨ q ∈ s.pageFreeList :=
    fun q hq => (s.setWord (d, i) 0).mem_decref hq
  have frame : Frame dirs e noPage s (s.dropTable d i t) := by
    refine Frame.of_subset rfl (fun q hq => ?_) (fun r q hr => .inr (.inr ⟨r, old r q hr⟩))
      (fun q hq _ => ⟨?_, ?_⟩) (fun e' d' k he' hk => writeWord_of_ne (.inr (by omega)))
      (others_writeDir inv.excl he)
    · rcases free q hq with rfl | hq
      · exact .inr ⟨_, table⟩
      · exact .inl hq
    · have hne : q ≠ d := fun eq => hq.untargeted (.dir e) (eq ▸ he)
      exact writeWord_of_page_ne hne
    · have hne : q ≠ t := fun eq => hq.untargeted _ (eq ▸ table)
      exact Function.update_of_ne hne _ _
  have word : ∀ d' k, s.mem d' k = (s.dropTable d i t).mem d' k ∨
      ¬ ((s.dropTable d i t).mem d' k).Has pteV := by
    intro d' k
    by_cases own : d' = d ∧ k = i
    · obtain ⟨rfl, rfl⟩ := own
      rw [show (s.dropTable d' i t).mem d' i = 0 from writeWord_self ..]
      exact .inr (by decide)
    · exact .inl (writeWord_of_ne (by tauto)).symm
  refine ⟨inv.of_frame frame (fun _ hX => hX.elim) inv' (fun e' d' i' he' valid => ?_)
    (fun q hq => ?_) fun r q hr => inv.target_lt r q (old r q hr), frame⟩
  · have same := (word d' i').resolve_right (not_not_intro valid)
    rw [← same] at valid ⊢
    exact inv.tablesWritable e' d' i' he' valid
  rcases free q hq with rfl | hq
  · exact inv.target_lt _ q table
  · exact inv.free_lt q hq

/-- A directory without user entries can be given up. -/
theorem PmapInv.dropDir (inv : PmapInv dirs s) (he : dirs e = some d)
    (empty : ∀ i : Fin 509, entry (s.mem d i) = none) :
    PmapInv (Function.update dirs e none) (s.decref d) ∧
      Frame dirs e noPage s (s.decref d) ∧
      ∀ q, Bystander dirs s q → Bystander (Function.update dirs e none) (s.decref d) q := by
  have dir : target dirs s.mem (.dir e) = some d := he
  have once : refs (target dirs s.mem) d = 1 := inv.store.refs_table (r := Ref.dir e) dir trivial
  have tgt : target (Function.update dirs e none) s.mem =
      Function.update (target dirs s.mem) (.dir e) none := target_dropDir he empty
  have store : (s.decref d).store (Function.update dirs e none) =
      (s.store dirs).unlink (.dir e) d := congrArg (fun tgt => RefStore.mk tgt _ _) tgt
  have old : ∀ r q, target (Function.update dirs e none) s.mem r = some q →
      target dirs s.mem r = some q := by
    intro r q hr
    rw [tgt] at hr
    rcases eq_or_ne r (.dir e) with rfl | hne
    · simp at hr
    · rwa [Function.update_of_ne hne] at hr
  have kept : ∀ q, Bystander dirs s q →
      Bystander (Function.update dirs e none) (s.decref d) q := by
    intro q hq
    refine ⟨fun hfree => ?_, fun r hr => hq.untargeted r (old r q hr)⟩
    rcases s.mem_decref hfree with rfl | hfree
    · exact hq.untargeted _ dir
    · exact hq.notFree hfree
  have frame : Frame dirs e noPage s (s.decref d) := by
    refine Frame.of_subset rfl (fun q hq => ?_) (fun r q hr => .inr (.inr ⟨r, hr⟩))
      (fun q hq _ => ⟨rfl, ?_⟩) (fun _ _ _ _ _ => rfl) fun _ _ _ _ => ⟨rfl, fun _ _ _ => rfl⟩
    · rcases s.mem_decref hq with rfl | hq
      · exact .inr ⟨_, dir⟩
      · exact .inl hq
    · have hne : q ≠ d := fun eq => hq.untargeted _ (eq ▸ dir)
      exact Function.update_of_ne hne _ _
  have others : ∀ e' d', Function.update dirs e none e' = some d' → dirs e' = some d' :=
    fun e' d' he' => old (.dir e') d' he'
  refine ⟨⟨?_, fun e' d' i he' => inv.tablesWritable e' d' i (others e' d' he'), inv.npage_le,
    fun q hq => ?_, fun r q hr => inv.target_lt r q (old r q hr),
    fun e' d' he' => inv.selfMap e' d' (others e' d' he'), ?_⟩, frame, kept⟩
  · rw [store]
    exact inv.store.unlink (r := Ref.dir e) dir (by show refs (target dirs s.mem) d < _; omega)
  · rcases s.mem_decref hq with rfl | hq
    · exact inv.target_lt _ q dir
    · exact inv.free_lt q hq
  · intro e' d' k he' hk hk' hne valid
    have table := inv.window e' d' k (others e' d' he') hk hk' hne valid
    exact ⟨table.writable, table.lt, kept _ table.bystander, table.readOnly, table.inside⟩

end Mos
