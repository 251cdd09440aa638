import Mos.PageTrees
import Mos.EnvInit

/-!
# Page tables as finite maps

What `page_lookup` finds below `UVPT` is a finite map (`pageMap`): `page_insert` is an
update of it, `page_remove` takes a page number out of it and `va2pa` looks it up, in every
run that starts with `page_init` (`page_tables_are_maps`).
-/

namespace Mos

variable {ε : Type} [Fintype ε] {dirs : ε → Option Nat} {s s' : Pmap} {e : ε} {d t p pp : Nat}
  {i : Fin 511} {j : Fin 1024} {va asid perm : Word}

/-! ## The map -/

/-- What `page_lookup` finds, by page number, below `UVPT`. -/
def pageMap (s : Pmap) (d vpn : Nat) : Option (Nat × Word) :=
  if vpn < ppn uvpt then
    match pageLookup s d (.ofNat 32 (vpn * 4096)) with
    | .ok (some (pp, pte)) => some (pp, s.word pte &&& 0xfff)
    | _ => none
  else none

theorem ppn_uvpt : ppn uvpt = 511 * 1024 := by decide

theorem pdx_lt_of_lt_uvpt (below : va < uvpt) : pdx va < 511 := by
  rw [BitVec.lt_def, uvpt_toNat] at below
  rw [pdx_eq_div]
  omega

theorem index_vpn {vpn : Nat} (lt : vpn < 2 ^ 20) :
    pdx (.ofNat 32 (vpn * 4096)) = vpn / 1024 ∧ ptx (.ofNat 32 (vpn * 4096)) = vpn % 1024 := by
  have small : vpn * 4096 < 2 ^ 32 := by omega
  rw [pdx_eq_div, ptx_eq_mod, BitVec.toNat_ofNat, Nat.mod_eq_of_lt small]
  omega

theorem Trees.pageMap_of_page (trees : Trees dirs s) (he : dirs e = some d) {vpn : Nat}
    (hi : vpn / 1024 = i) (hj : vpn % 1024 = j) :
    pageMap s d vpn = slot dirs s.mem (e, i, j) := by
  have bound := i.isLt
  obtain ⟨hpdx, hptx⟩ := @index_vpn vpn (by omega)
  have user : pdx (.ofNat 32 (vpn * 4096)) < 511 := by omega
  have below : vpn < ppn uvpt := by
    rw [ppn_uvpt]
    omega
  rw [pageMap, if_pos below, pageLookup_eq (trees.inMemory he user), lookup, hpdx, hptx, hi, hj]
  cases ht : entry (s.mem d i) with
  | none =>
      rw [slot_none ((tableOf_eq he).trans ht)]
      rfl
  | some t =>
      rw [slot_eq ((tableOf_eq he).trans ht), mapEntry]
      cases hp : entry (s.mem t j) with
      | none => simp [hp]
      | some p => simp [hp, Pmap.word]

theorem Trees.pageMap_va (trees : Trees dirs s) (he : dirs e = some d) (user : pdx va < 511) :
    pageMap s d (ppn va) = slot dirs s.mem (e, ⟨pdx va, user⟩, ⟨ptx va, ptx_lt va⟩) := by
  have index := ppn_eq_pdx_ptx va
  have lt := ptx_lt va
  exact trees.pageMap_of_page he (show ppn va / 1024 = pdx va by omega)
    (show ppn va % 1024 = ptx va by omega)

/-- A change of one slot is a change of the map at one page number. -/
theorem Trees.pageMap_update [DecidableEq ε] (trees : Trees dirs s) (trees' : Trees dirs s')
    (he : dirs e = some d) (user : pdx va < 511) {v : Option (Nat × Word)}
    (change : slot dirs s'.mem =
      Function.update (slot dirs s.mem) (e, ⟨pdx va, user⟩, ⟨ptx va, ptx_lt va⟩) v) :
    pageMap s' d = Function.update (pageMap s d) (ppn va) v := by
  funext vpn
  by_cases here : vpn = ppn va
  · subst here
    rw [trees'.pageMap_va he user, change, Function.update_self, Function.update_self]
  · rw [Function.update_of_ne here]
    by_cases below : vpn < ppn uvpt
    · rw [ppn_uvpt] at below
      have hi : vpn / 1024 < 511 := by omega
      have hj : vpn % 1024 < 1024 := by omega
      rw [trees'.pageMap_of_page he (i := ⟨_, hi⟩) (j := ⟨_, hj⟩) rfl rfl,
        trees.pageMap_of_page he (i := ⟨_, hi⟩) (j := ⟨_, hj⟩) rfl rfl, change,
        Function.update_of_ne]
      intro same
      have index := ppn_eq_pdx_ptx va
      simp only [Prod.mk.injEq, Fin.mk.injEq, true_and] at same
      omega
    · rw [pageMap, pageMap, if_neg below, if_neg below]

theorem Trees.pageMap_same (trees : Trees dirs s) (trees' : Trees dirs s') (he : dirs e = some d)
    (same : slot dirs s'.mem = slot dirs s.mem) : pageMap s' d = pageMap s d := by
  funext vpn
  by_cases below : vpn < ppn uvpt
  · rw [ppn_uvpt] at below
    have hi : vpn / 1024 < 511 := by omega
    have hj : vpn % 1024 < 1024 := by omega
    rw [trees'.pageMap_of_page he (i := ⟨_, hi⟩) (j := ⟨_, hj⟩) rfl rfl,
      trees.pageMap_of_page he (i := ⟨_, hi⟩) (j := ⟨_, hj⟩) rfl rfl, same]
  · rw [pageMap, pageMap, if_neg below, if_neg below]

/-! ## Inserting and removing -/

section Operations

variable [DecidableEq ε] {s₁ : Pmap}

omit [Fintype ε] [DecidableEq ε] in
theorem Trees.lookup_of_mapped (user : pdx va < 511) (he : dirs e = some d)
    {f : Word} (mapped : slot dirs s.mem (e, ⟨pdx va, user⟩, ⟨ptx va, ptx_lt va⟩) = some (p, f)) :
    ∃ t, entry (s.mem d (pdx va)) = some t ∧ entry (s.mem t (ptx va)) = some p := by
  cases ht : entry (s.mem d (pdx va)) with
  | none =>
      rw [slot_none ((tableOf_eq he).trans ht)] at mapped
      cases mapped
  | some t =>
      refine ⟨t, rfl, ?_⟩
      rw [slot_eq ((tableOf_eq he).trans ht), mapEntry, Option.map_eq_some_iff] at mapped
      obtain ⟨q, hq, same⟩ := mapped
      cases same
      exact hq

/-- What has been done once the entry is ready for `pp`: the slot is empty, and the page
that was in it has lost a reference. -/
structure Ready (dirs : ε → Option Nat) (s s₁ : Pmap) (x : ε × Fin 511) (j : Fin 1024)
    (t pp : Nat) : Prop where
  trees : Trees dirs s₁
  table : tableOf dirs s₁.mem x = some t
  vacant : entry (s₁.mem t j) = none
  page : Insertable dirs s₁ pp
  slots : slot dirs s₁.mem = Function.update (slot dirs s.mem) (x.1, x.2, j) none
  count : s₁.ppRef pp = s.ppRef pp
  replaced : ∀ q f, slot dirs s.mem (x.1, x.2, j) = some (q, f) →
    s₁.ppRef q = s.ppRef q - 1 ∧ (q ∈ s₁.pageFreeList ↔ s.ppRef q - 1 = 0)

/-- The table is there and the slot in it is empty. -/
theorem ready_table (trees : Trees dirs s) (he : dirs e = some d)
    (user : pdx va < 511) (page : Insertable dirs s pp)
    (ht : entry (s.mem d (pdx va)) = some t) (hp : entry (s.mem t (ptx va)) = none) (asid : Word) :
    Ready dirs s (s.tlbInvalidate asid va) (e, ⟨pdx va, user⟩) ⟨ptx va, ptx_lt va⟩ t pp := by
  have table : tableOf dirs s.mem (e, ⟨pdx va, user⟩) = some t := (tableOf_eq he).trans ht
  have empty : slot dirs s.mem (e, ⟨pdx va, user⟩, ⟨ptx va, ptx_lt va⟩) = none := by
    rw [slot_eq table, mapEntry, hp]
    rfl
  refine ⟨trees.tlbInvalidate asid va, table, hp, ⟨page.lt, page.used, page.other, page.count⟩,
    ?_, rfl, fun q f mapped => ?_⟩
  · rw [← empty, Function.update_eq_self]
    rfl
  · rw [empty] at mapped
    cases mapped

/-- A table is taken from the free list. -/
theorem ready_newTable {rest : List Nat} (trees : Trees dirs s) (he : dirs e = some d)
    (user : pdx va < 511) (page : Insertable dirs s pp)
    (vacant : entry (s.mem d (pdx va)) = none) (hfree : s.pageFreeList = t :: rest) (asid : Word) :
    Ready dirs s (((s.tlbInvalidate asid va).take t rest).install d (pdx va) t)
      (e, ⟨pdx va, user⟩) ⟨ptx va, ptx_lt va⟩ t pp := by
  have none_yet : tableOf dirs s.mem (e, ⟨pdx va, user⟩) = none := (tableOf_eq he).trans vacant
  have free : t ∈ s.pageFreeList := by rw [hfree]; exact List.mem_cons_self
  have sub : ∀ q, q ∈ rest → q ∈ s.pageFreeList := fun q hq => by
    rw [hfree]
    exact List.mem_cons_of_mem _ hq
  have apart : pp ≠ t := by
    rintro rfl
    exact page.used free
  obtain ⟨taken, slots, tables⟩ := (trees.tlbInvalidate asid va).take (p := t) hfree
  have nodes_same : nodes dirs ((s.tlbInvalidate asid va).take t rest).mem =
      nodes dirs s.mem := by
    funext r
    rcases r with e' | x
    · rfl
    · exact congrFun tables x
  have other : ∀ q, Node dirs ((s.tlbInvalidate asid va).take t rest).mem q →
      Node dirs s.mem q := by
    rintro q ⟨r, hr⟩
    exact ⟨r, nodes_same ▸ hr⟩
  have leaves : leaf dirs ((s.tlbInvalidate asid va).take t rest).mem = leaf dirs s.mem := by
    funext l
    rw [leaf, slots]
    rfl
  have notIn : t ∉ rest := by
    have nodup := trees.nodup
    rw [hfree] at nodup
    exact (List.nodup_cons.mp nodup).1
  obtain ⟨installed, slots', table⟩ := taken.install (i := ⟨pdx va, user⟩) (p := t) he
    ((congrFun tables _).trans none_yet) (trees.free_lt t free) notIn
    (fun node => trees.node_used t (other t node) free)
    (fun l mapped => by
      rw [leaves] at mapped
      exact trees.leaf_used mapped free)
    (fun k => by rw [Pmap.take_mem])
  have empty : slot dirs s.mem (e, ⟨pdx va, user⟩, ⟨ptx va, ptx_lt va⟩) = none :=
    slot_none none_yet
  have count : (((s.tlbInvalidate asid va).take t rest).install d (pdx va) t).ppRef pp =
      s.ppRef pp := Function.update_of_ne apart ..
  refine ⟨installed, table, ?_, ⟨page.lt, fun hpp => page.used (sub pp hpp), ?_, ?_⟩, ?_,
    count, fun q f mapped => ?_⟩
  · have zero : leaf dirs (((s.tlbInvalidate asid va).take t rest).install d (pdx va) t).mem
        (e, ⟨pdx va, user⟩, ⟨ptx va, ptx_lt va⟩) = none := by
      rw [leaf, slots', slots]
      exact congrArg (Option.map Prod.fst) empty
    rwa [Trees.leaf_eq table] at zero
  · intro x hr
    have tables' := tableOf_writeDir taken.node_inj (i := ⟨pdx va, user⟩) he
      (entry_page2pa (trees.page_lt (trees.free_lt t free)) (by decide : pteD < 0x1000#32))
    have named := (congrFun tables' x).symm.trans hr
    by_cases here : x = (e, ⟨pdx va, user⟩)
    · rw [here, Function.update_self] at named
      exact apart (Option.some.inj named).symm
    · rw [Function.update_of_ne here] at named
      exact page.other x ((congrFun tables x).symm.trans named)
  · rw [count]
    exact page.count
  · rw [slots', slots, ← empty, Function.update_eq_self]
    rfl
  · rw [empty] at mapped
    cases mapped

/-- Another page is unmapped. -/
theorem ready_removed {q : Nat} (trees : Trees dirs s) (he : dirs e = some d)
    (user : pdx va < 511) (page : Insertable dirs s pp)
    (unmapped : ∀ pte, lookup s.mem d va ≠ some (pp, pte))
    (ht : entry (s.mem d (pdx va)) = some t) (hq : entry (s.mem t (ptx va)) = some q)
    (asid : Word) :
    Ready dirs s (((s.unmap q t (ptx va)).tlbInvalidate asid va).tlbInvalidate asid va)
      (e, ⟨pdx va, user⟩) ⟨ptx va, ptx_lt va⟩ t pp := by
  have table : tableOf dirs s.mem (e, ⟨pdx va, user⟩) = some t := (tableOf_eq he).trans ht
  obtain ⟨trees', slots⟩ := trees.unmap (j := ⟨ptx va, ptx_lt va⟩) table hq
  have mapped : leaf dirs s.mem (e, ⟨pdx va, user⟩, ⟨ptx va, ptx_lt va⟩) = some q :=
    (Trees.leaf_eq table).trans hq
  have apart : pp ≠ q := by
    rintro rfl
    exact unmapped _ (lookup_eq_some ht hq)
  have tables : tableOf dirs (s.unmap q t (ptx va)).mem = tableOf dirs s.mem :=
    tableOf_writeTable trees.node_inj table _
  have count : (s.unmap q t (ptx va)).ppRef pp = s.ppRef pp := Function.update_of_ne apart ..
  refine ⟨(trees'.tlbInvalidate asid va).tlbInvalidate asid va, (congrFun tables _).trans table,
    ?_, ⟨page.lt, fun hpp => ?_, ?_, ?_⟩, slots, count, fun q' f mapped' => ?_⟩
  · show entry (writeWord s.mem t (ptx va) 0 t (ptx va)) = none
    rw [writeWord_self]
    exact entry_zero
  · exact (s.mem_decref hpp).elim apart page.used
  · exact fun x hr => page.other x ((congrFun tables x).symm.trans hr)
  · exact count ▸ page.count
  · have same : q' = q := by
      have first : leaf dirs s.mem (e, ⟨pdx va, user⟩, ⟨ptx va, ptx_lt va⟩) = some q' := by
        rw [leaf, mapped']
        rfl
      exact Option.some.inj (first.symm.trans mapped)
    rw [same]
    refine ⟨Function.update_self .., ?_⟩
    show q ∈ (if s.ppRef q - 1 = 0 then q :: s.pageFreeList else s.pageFreeList) ↔ _
    by_cases last : s.ppRef q - 1 = 0
    · rw [if_pos last]
      exact iff_of_true List.mem_cons_self last
    · rw [if_neg last]
      exact iff_of_false (trees.leaf_used mapped) last

theorem Prepared.ready (prep : Prepared s d asid va s₁ t) (trees : Trees dirs s)
    (he : dirs e = some d) (user : pdx va < 511) (page : Insertable dirs s pp)
    (unmapped : ∀ pte, lookup s.mem d va ≠ some (pp, pte)) :
    Ready dirs s s₁ (e, ⟨pdx va, user⟩) ⟨ptx va, ptx_lt va⟩ t pp := by
  cases prep with
  | table ht hp => exact ready_table trees he user page ht hp asid
  | newTable vacant hfree => exact ready_newTable trees he user page vacant hfree asid
  | removed ht hq => exact ready_removed trees he user page unmapped ht hq asid

/-- What `page_insert` does when it returns 0. -/
structure Inserted (s s' : Pmap) (d pp : Nat) (va perm : Word) : Prop where
  map : pageMap s' d = Function.update (pageMap s d) (ppn va) (some (pp, perm ||| pteV))
  again : ∀ f, pageMap s d (ppn va) = some (pp, f) → s'.ppRef pp = s.ppRef pp
  grown : (∀ f, pageMap s d (ppn va) ≠ some (pp, f)) →
    (s'.ppRef pp).toNat = (s.ppRef pp).toNat + 1
  replaced : ∀ q f, pageMap s d (ppn va) = some (q, f) → q ≠ pp →
    (s'.ppRef q).toNat + 1 = (s.ppRef q).toNat ∧ q ∉ s.pageFreeList ∧
      (q ∈ s'.pageFreeList ↔ s'.ppRef q = 0)

/-- What it does when it returns `-E_NO_MEM`. -/
structure NotInserted (s s' : Pmap) (d : Nat) : Prop where
  map : pageMap s' d = pageMap s d
  ppRef : s'.ppRef = s.ppRef
  pageFreeList : s'.pageFreeList = s.pageFreeList

omit [DecidableEq ε] in
theorem Trees.counted (trees : Trees dirs s) (he : dirs e = some d) (user : pdx va < 511) (q : Nat)
    (pte : PtePtr) (found : lookup s.mem d va = some (q, pte)) : s.ppRef q ≠ 0 := by
  obtain ⟨t, ht, hq, -⟩ := lookup_eq_some_iff.mp found
  have table : tableOf dirs s.mem (e, ⟨pdx va, user⟩) = some t := (tableOf_eq he).trans ht
  have mapped : uses dirs s.mem (.inr (e, ⟨pdx va, user⟩, ⟨ptx va, ptx_lt va⟩)) = some q :=
    (leaf_eq table).trans hq
  have bound := trees.refs_le q
  have pos := refs_pos mapped
  intro zero
  rw [zero] at bound
  exact absurd (Nat.lt_of_lt_of_le pos bound) (by decide)

theorem Trees.pageInsert (trees : Trees dirs s) (he : dirs e = some d) (below : va < uvpt)
    (page : Insertable dirs s pp) (hperm : perm < 0x1000#32) (asid : Word) :
    ∃ s' r, Mos.pageInsert s d asid pp va perm = .ok (s', r) ∧ Trees dirs s' ∧
      (r = .ok () ∧ Inserted s s' d pp va perm ∨ r = .error .noMem ∧ NotInserted s s' d) := by
  have user := pdx_lt_of_lt_uvpt below
  have found := trees.pageMap_va he user
  have counted := trees.counted he user
  rcases pageInsert_cases trees.npage_le trees.free_lt (trees.inMemory he user)
    (fun t ht => trees.dir_ne_table he ((tableOf_eq he (i := ⟨_, user⟩)).trans ht)) counted pp asid
    perm with ⟨t, ht, hp, run⟩ | ⟨s₁, t, prep, unmapped, run⟩ | ⟨ht, hfree, run⟩
  · have table : tableOf dirs s.mem (e, ⟨pdx va, user⟩) = some t := (tableOf_eq he).trans ht
    have here : slot dirs s.mem (e, ⟨pdx va, user⟩, ⟨ptx va, ptx_lt va⟩) =
        some (pp, s.mem t (ptx va) &&& 0xfff) := by
      rw [slot_eq table, mapEntry, hp]
      rfl
    obtain ⟨trees', slots⟩ := (trees.tlbInvalidate asid va).remap (j := ⟨ptx va, ptx_lt va⟩)
      table hp hperm
    refine ⟨_, _, run, trees', .inl ⟨rfl, trees.pageMap_update trees' he user slots,
      fun _ _ => rfl, fun new => ?_, fun q f mapped ne => ?_⟩⟩
    · exact absurd (found.trans here) (new _)
    · rw [found, here] at mapped
      cases mapped
      exact absurd rfl ne
  · have ready := prep.ready trees he user page unmapped
    obtain ⟨trees', slots⟩ := ready.trees.mapPage ready.table ready.vacant ready.page hperm
    rw [ready.slots, Function.update_idem] at slots
    have count : (s₁.mapPage t (ptx va) pp perm).ppRef pp = s₁.ppRef pp + 1 :=
      Function.update_self ..
    refine ⟨_, _, run, trees', .inl ⟨rfl, trees.pageMap_update trees' he user slots,
      fun f mapped => ?_, fun _ => ?_, fun q f mapped ne => ?_⟩⟩
    · rw [found] at mapped
      obtain ⟨t', ht', hp'⟩ := Trees.lookup_of_mapped user he mapped
      exact absurd (lookup_eq_some ht' hp') (unmapped _)
    · have small := page.count
      rw [count, ready.count]
      bv_omega
    · rw [found] at mapped
      obtain ⟨less, free⟩ := ready.replaced q f mapped
      obtain ⟨t', ht', hp'⟩ := Trees.lookup_of_mapped user he mapped
      have pos := counted q _ (lookup_eq_some ht' hp')
      have count' : (s₁.mapPage t (ptx va) pp perm).ppRef q = s.ppRef q - 1 :=
        (Function.update_of_ne ne ..).trans less
      have hleaf : leaf dirs s.mem (e, ⟨pdx va, user⟩, ⟨ptx va, ptx_lt va⟩) = some q := by
        rw [leaf, mapped]
        rfl
      refine ⟨?_, trees.leaf_used hleaf, ?_⟩
      · rw [count']
        bv_omega
      · rw [count']
        exact free
  · exact ⟨_, _, run, trees.tlbInvalidate asid va, .inr ⟨rfl,
      trees.pageMap_same (trees.tlbInvalidate asid va) he rfl, rfl, rfl⟩⟩

/-- `page_remove` takes the page number out of the map. -/
theorem Trees.pageRemove (trees : Trees dirs s) (he : dirs e = some d) (below : va < uvpt)
    (asid : Word) : ∃ s', Mos.pageRemove s d asid va = .ok s' ∧ Trees dirs s' ∧
      pageMap s' d = Function.update (pageMap s d) (ppn va) none := by
  have user := pdx_lt_of_lt_uvpt below
  have inside : InMemory s d va := trees.inMemory he user
  cases found : lookup s.mem d va with
  | none =>
      refine ⟨s, pageRemove_unmapped inside found, trees, ?_⟩
      have empty : pageMap s d (ppn va) = none := by
        rw [trees.pageMap_va he user]
        cases mapped : slot dirs s.mem (e, ⟨pdx va, user⟩, ⟨ptx va, ptx_lt va⟩) with
        | none => rfl
        | some m =>
            obtain ⟨t, ht, hp⟩ := Trees.lookup_of_mapped user he mapped
            rw [lookup_eq_some ht hp] at found
            cases found
      rw [← empty, Function.update_eq_self]
  | some m =>
      obtain ⟨t, ht, hp, -⟩ := lookup_eq_some_iff.mp found
      have table : tableOf dirs s.mem (e, ⟨pdx va, user⟩) = some t := (tableOf_eq he).trans ht
      obtain ⟨trees', slots⟩ := trees.unmap (j := ⟨ptx va, ptx_lt va⟩) table hp
      exact ⟨_, pageRemove_mapped inside ht hp (trees.counted he user _ _ found),
        trees'.tlbInvalidate asid va,
        trees.pageMap_update (trees'.tlbInvalidate asid va) he user slots⟩

omit [Fintype ε] [DecidableEq ε] in
theorem pteAddr_eq (w : Word) : pteAddr w = page2pa (ppn w) := by
  apply BitVec.eq_of_getLsbD_eq
  intro i hi
  have mask : ∀ i, i < 32 → (~~~0xfff#32).getLsbD i = !decide (i < 12) := by decide
  rw [pteAddr, page2pa, ppn, BitVec.ofNat_toNat, BitVec.setWidth_eq, BitVec.getLsbD_and,
    BitVec.getLsbD_shiftLeft, BitVec.getLsbD_ushiftRight, mask i hi]
  by_cases low : i < 12
  · simp [low]
  · simp [low, hi, show 12 + (i - 12) = i by omega]

omit [DecidableEq ε] in
/-- `va2pa` is the address of the page in the map. -/
theorem Trees.va2pa (trees : Trees dirs s) (he : dirs e = some d) (below : va < uvpt) :
    Mos.va2pa s d va = .ok (match pageMap s d (ppn va) with
      | some (pp, _) => page2pa pp
      | none => ~~~0) := by
  have user := pdx_lt_of_lt_uvpt below
  rw [trees.pageMap_va he user, Mos.va2pa]
  cases ht : entry (s.mem d (pdx va)) with
  | none =>
      rw [slot_none ((tableOf_eq he).trans ht), if_neg (entry_eq_none_iff.mp ht)]
  | some t =>
      obtain ⟨valid, hppn⟩ := entry_eq_some_iff.mp ht
      have lt := (trees.inMemory he user t ht).1
      rw [slot_eq ((tableOf_eq he).trans ht), if_pos valid,
        kaddr_pteAddr (by rw [hppn]; exact lt), hppn, mapEntry, ok_bind]
      cases hp : entry (s.mem t (ptx va)) with
      | none => rw [if_neg (entry_eq_none_iff.mp hp)]; rfl
      | some q =>
          obtain ⟨valid', hq⟩ := entry_eq_some_iff.mp hp
          rw [if_pos valid', pteAddr_eq, hq]
          rfl

end Operations

/-! ## Runs -/

/-- A page in use that is neither a node nor mapped. -/
structure Unused (dirs : ε → Option Nat) (s : Pmap) (p : Nat) : Prop where
  lt : p < s.npage
  used : p ∉ s.pageFreeList
  other : ¬ Node dirs s.mem p
  unmapped : ∀ l, leaf dirs s.mem l ≠ some p

/-- What can be built from `page_init` on: an empty page becomes a page directory, pages
are allocated, freed, written, inserted and removed. -/
inductive Reachable [DecidableEq ε] : (ε → Option Nat) → Pmap → Prop
  | boot (b : Boot) : Reachable (fun _ => none) (pageInit b)
  | dir {dirs : ε → Option Nat} {s : Pmap} {e : ε} {p : Nat} {n : BitVec 16} : n ≠ 0 →
      Reachable dirs s → dirs e = none → Unused dirs s p →
      (∀ k, k < 511 → entry (s.mem p k) = none) →
      Reachable (Function.update dirs e (some p)) (s.setRef p n)
  | alloc {dirs : ε → Option Nat} {s s' : Pmap} {r : Except Err Nat} : Reachable dirs s →
      pageAlloc s = .ok (s', r) → Reachable dirs s'
  | free {dirs : ε → Option Nat} {s s' : Pmap} {p : Nat} : Reachable dirs s → Unused dirs s p →
      pageFree s p = .ok s' → Reachable dirs s'
  | write {dirs : ε → Option Nat} {s : Pmap} {p : Nat} (contents : Nat → Word) :
      Reachable dirs s → ¬ Node dirs s.mem p →
      Reachable dirs { s with mem := Function.update s.mem p contents }
  | insert {dirs : ε → Option Nat} {s s' : Pmap} {e : ε} {d pp : Nat} {asid va perm : Word}
      {r : Except Err Unit} : Reachable dirs s → dirs e = some d → va < uvpt →
      Insertable dirs s pp → perm < 0x1000#32 →
      pageInsert s d asid pp va perm = .ok (s', r) → Reachable dirs s'
  | remove {dirs : ε → Option Nat} {s s' : Pmap} {e : ε} {d : Nat} {asid va : Word} :
      Reachable dirs s → dirs e = some d → va < uvpt → pageRemove s d asid va = .ok s' →
      Reachable dirs s'

theorem trees_pageInit (b : Boot) : Trees (fun _ : ε => none) (pageInit b) := by
  have noNode : ∀ r p, nodes (fun _ : ε => none) (pageInit b).mem r ≠ some p := by
    rintro (e | x) p hr <;> cases hr
  have noLeaf : ∀ l p, leaf (fun _ : ε => none) (pageInit b).mem l ≠ some p := by
    rintro l p hl
    cases hl
  refine ⟨Nat.le_trans b.npage_le (by decide), ?_, fun p hp => (mem_pageInit_free.mp hp).2,
    fun p hp => if_neg (Nat.not_lt.mpr (mem_pageInit_free.mp hp).1),
    fun r r' p hr => absurd hr (noNode r p), ?_, ?_, fun l p hl => absurd hl (noLeaf l p),
    fun l p hl => absurd hl (noLeaf l p), fun p => ?_⟩
  · rw [pageInit_free, List.nodup_reverse]
    exact List.nodup_range'
  · rintro p ⟨r, hr⟩
    exact absurd hr (noNode r p)
  · rintro p ⟨r, hr⟩
    exact absurd hr (noNode r p)
  · have none_yet : ∀ r, uses (fun _ : ε => none) (pageInit b).mem r ≠ some p := by
      rintro (e | l) hr
      · cases hr
      · exact noLeaf l p hr
    rw [refs_eq_zero_iff.mpr none_yet]
    exact Nat.zero_le _

variable [DecidableEq ε]

/-- An empty page becomes a directory. -/
theorem Trees.dir (trees : Trees dirs s) (none_yet : dirs e = none) (page : Unused dirs s p)
    (empty : ∀ k, k < 511 → entry (s.mem p k) = none) {n : BitVec 16} (pos : n ≠ 0) :
    Trees (Function.update dirs e (some p)) (s.setRef p n) := by
  have tables : tableOf (Function.update dirs e (some p)) s.mem = tableOf dirs s.mem := by
    funext ⟨e', i⟩
    by_cases here : e' = e
    · subst here
      rw [tableOf_eq (Function.update_self ..), empty i i.isLt]
      simp [tableOf, none_yet]
    · simp [tableOf, Function.update_of_ne here]
  have slots : slot (Function.update dirs e (some p)) s.mem = slot dirs s.mem := by
    funext l
    rw [slot, slot, tables]
  have leaves : leaf (Function.update dirs e (some p)) s.mem = leaf dirs s.mem := by
    funext l
    rw [leaf, leaf, slots]
  have old : ∀ r q, nodes (Function.update dirs e (some p)) s.mem r = some q →
      r = .inl e ∧ q = p ∨ nodes dirs s.mem r = some q := by
    rintro (e' | x) q hr
    · by_cases here : e' = e
      · subst here
        have same : Function.update dirs e' (some p) e' = some q := hr
        rw [Function.update_self] at same
        exact .inl ⟨rfl, (Option.some.inj same).symm⟩
      · have same : Function.update dirs e (some p) e' = some q := hr
        rw [Function.update_of_ne here] at same
        exact .inr same
    · exact .inr ((congrFun tables x).symm.trans hr)
  have oldNode : ∀ q, Node (Function.update dirs e (some p)) s.mem q →
      q = p ∨ Node dirs s.mem q := by
    rintro q ⟨r, hr⟩
    exact (old r q hr).imp And.right fun hr => ⟨r, hr⟩
  refine ⟨trees.npage_le, trees.nodup, trees.free_lt, fun q hq => ?_, fun r r' q hr hr' => ?_,
    fun q node => ?_, fun q node => ?_, ?_, ?_, fun q => ?_⟩
  · have ne : q ≠ p := by
      rintro rfl
      exact page.used hq
    exact (Function.update_of_ne ne ..).trans (trees.free_count q hq)
  · rcases old r q hr with ⟨first, new⟩ | kept
    · rcases old r' q hr' with ⟨second, -⟩ | kept'
      · exact first.trans second.symm
      · exact absurd ⟨r', new ▸ kept'⟩ page.other
    · rcases old r' q hr' with ⟨-, new⟩ | kept'
      · exact absurd ⟨r, new ▸ kept⟩ page.other
      · exact trees.node_inj r r' q kept kept'
  · rcases oldNode q node with rfl | node
    · exact page.lt
    · exact trees.node_lt q node
  · rcases oldNode q node with rfl | node
    · exact page.used
    · exact trees.node_used q node
  · show ∀ l q, leaf _ s.mem l = some q → _
    rw [leaves]
    exact trees.leaf_lt
  · show ∀ l q, leaf _ s.mem l = some q → _
    rw [leaves]
    intro l q hl x hx
    exact trees.leaf_table l q hl x ((congrFun tables x).symm.trans hx)
  · have linked : uses (Function.update dirs e (some p)) s.mem =
        Function.update (uses dirs s.mem) (.inl e) (some p) := by
      funext r
      rcases r with e' | l
      · by_cases here : e' = e
        · rw [here, Function.update_self]
          exact Function.update_self ..
        · rw [Function.update_of_ne (by simpa using here)]
          exact Function.update_of_ne here ..
      · rw [Function.update_of_ne (by simp)]
        exact congrFun leaves l
    have vacant : uses dirs s.mem (.inl e) = none := none_yet
    show refs (uses _ s.mem) q ≤ _
    rw [linked]
    by_cases here : q = p
    · have none_left : ∀ r, uses dirs s.mem r ≠ some p := by
        rintro (e' | l) hr
        · exact page.other ⟨.inl e', hr⟩
        · exact page.unmapped l hr
      have count : (s.setRef p n).ppRef p = n := Function.update_self ..
      rw [here, refs_link_self vacant, refs_eq_zero_iff.mpr none_left, count]
      bv_omega
    · rw [refs_update_of_ne (by simp [vacant]) (by simpa using Ne.symm here),
        show (s.setRef p n).ppRef q = s.ppRef q from Function.update_of_ne here ..]
      exact trees.refs_le q

omit [DecidableEq ε] in
theorem Trees.pageAlloc (trees : Trees dirs s) {r : Except Err Nat}
    (run : pageAlloc s = .ok (s', r)) : Trees dirs s' := by
  cases hfree : s.pageFreeList with
  | nil =>
      rw [pageAlloc_nil hfree] at run
      cases run
      exact trees
  | cons p rest =>
      rw [pageAlloc_cons trees.npage_le hfree
        (trees.free_lt p (by rw [hfree]; exact List.mem_cons_self))] at run
      cases run
      exact (trees.take hfree).1

omit [DecidableEq ε] in
theorem Trees.pageFree (trees : Trees dirs s) (page : Unused dirs s p)
    (run : pageFree s p = .ok s') : Trees dirs s' := by
  unfold Mos.pageFree at run
  split at run
  · rename_i zero
    cases run
    refine ⟨trees.npage_le, List.nodup_cons.mpr ⟨page.used, trees.nodup⟩, fun q hq => ?_,
      fun q hq => ?_, trees.node_inj, trees.node_lt, fun q node hq => ?_, trees.leaf_lt,
      trees.leaf_table, trees.refs_le⟩
    · rcases List.mem_cons.mp hq with rfl | hq
      · exact page.lt
      · exact trees.free_lt q hq
    · rcases List.mem_cons.mp hq with rfl | hq
      · exact zero
      · exact trees.free_count q hq
    · rcases List.mem_cons.mp hq with rfl | hq
      · exact page.other node
      · exact trees.node_used q node hq
  · cases run

/-- The invariant holds in every run. -/
theorem Reachable.trees (reach : Reachable dirs s) : Trees dirs s := by
  induction reach with
  | boot b => exact trees_pageInit b
  | dir pos _ none_yet page empty ih => exact ih.dir none_yet page empty pos
  | alloc _ run ih => exact ih.pageAlloc run
  | free _ page run ih => exact ih.pageFree page run
  | @write dirs s p contents _ other ih =>
      refine ih.of_same rfl (fun q node => ?_) rfl rfl
      apply Function.update_of_ne
      rintro rfl
      exact other node
  | insert _ he below page hperm run ih =>
      obtain ⟨s', r, run', trees, -⟩ := ih.pageInsert he below page hperm _
      rw [run] at run'
      cases run'
      exact trees
  | remove _ he below run ih =>
      obtain ⟨s', run', trees, -⟩ := ih.pageRemove he below _
      rw [run] at run'
      cases run'
      exact trees

/-- The page tables of a page directory are a finite map: `page_insert` is an update of it,
or fails and leaves it alone, `page_remove` takes a page number out of it, and `va2pa`
looks it up. -/
theorem page_tables_are_maps (reach : Reachable dirs s) (he : dirs e = some d)
    (below : va < uvpt) :
    (∀ pp asid perm, Insertable dirs s pp → perm < 0x1000#32 →
      ∃ s' r, pageInsert s d asid pp va perm = .ok (s', r) ∧
        (r = .ok () ∧ Inserted s s' d pp va perm ∨ r = .error .noMem ∧ NotInserted s s' d)) ∧
    (∀ asid, ∃ s', pageRemove s d asid va = .ok s' ∧
      pageMap s' d = Function.update (pageMap s d) (ppn va) none) ∧
    va2pa s d va = .ok (match pageMap s d (ppn va) with
      | some (pp, _) => page2pa pp
      | none => ~~~0) := by
  have trees := reach.trees
  refine ⟨fun pp asid perm page hperm => ?_, fun asid => ?_, trees.va2pa he below⟩
  · obtain ⟨s', r, run, -, outcome⟩ := trees.pageInsert he below page hperm asid
    exact ⟨s', r, run, outcome⟩
  · obtain ⟨s', run, -, map⟩ := trees.pageRemove he below asid
    exact ⟨s', run, map⟩

/-- The kernel's first page is inserted into the first directory. -/
theorem page_tables_are_maps_first :
    ∃ s, Reachable (Function.update (fun _ : Unit => none) () (some 335)) s ∧
      ∃ s' r, pageInsert s 335 1 0 0x400000 pteD = .ok (s', r) ∧
        (r = .ok () ∧ Inserted s s' 335 0 0x400000 pteD ∨
          r = .error .noMem ∧ NotInserted s s' 335) := by
  have hfree := smallBoot_free
  have alloc := pageAlloc_cons (s := pageInit smallBoot) (by decide) hfree (by decide)
  have zero := (pageInit smallBoot).take_mem 335 (334 :: 333 :: 332 :: 331 :: sparePages)
  have page : Unused (fun _ : Unit => none)
      ((pageInit smallBoot).take 335 (334 :: 333 :: 332 :: 331 :: sparePages)) 335 := by
    refine ⟨by decide, ?_, ?_, ?_⟩
    · show 335 ∉ 334 :: 333 :: 332 :: 331 :: sparePages
      decide
    · rintro ⟨e | x, hr⟩ <;> cases hr
    · intro l hl
      cases hl
  have reach := Reachable.dir (e := ()) (n := 1) (by decide)
    ((Reachable.boot smallBoot).alloc alloc)
    rfl page fun k _ => by rw [zero]; exact entry_zero
  have below : 0x400000#32 < uvpt := by decide
  refine ⟨_, reach, (page_tables_are_maps reach (Function.update_self ..) below).1 0 1 pteD
    ⟨by decide, ?_, fun x hx => ?_, ?_⟩ (by decide)⟩
  · show 0 ∉ 334 :: 333 :: 332 :: 331 :: sparePages
    decide
  · have table := (tableOf_eq (i := x.2) (Function.update_self ..)).symm.trans hx
    have empty : entry (((pageInit smallBoot).take 335
        (334 :: 333 :: 332 :: 331 :: sparePages)).mem 335 x.2) = none := by
      rw [zero]
      exact entry_zero
    exact absurd (empty.symm.trans table) (by simp)
  · decide

end Mos
