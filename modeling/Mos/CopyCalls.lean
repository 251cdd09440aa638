import Mos.Cow
import Mos.Dev
import Mos.SharedWindow

/-!
# Calls that copy memory

`sys_write_dev`, `sys_read_dev`, `sys_set_path` and `sys_get_path` store bytes in kernel
mode, one after the other. A store to a user address goes through the page tables of
the running env. One at `KSEG0` or `KSEG1` reaches any page of the memory, the page tables
themselves and the kernel's image among them: `sys_get_path` does not check where it copies
to, `sys_set_path` not how much, and the sum `pa + len` of the device calls can wrap.

A call whose bytes all go to user memory or to a device changes nothing but the
contents of pages that are mapped (`CopyKeeps`).
-/

namespace Mos

/-- The physical address that `KSEG0` or `KSEG1` shows at `a`. -/
def physical (a : Word) : Option Nat :=
  if a < 0x80000000#32 then none
  else if a < 0xa0000000#32 then some (a.toNat - 0x80000000)
  else if a < 0xc0000000#32 then some (a.toNat - 0xa0000000)
  else none

/-- A register of a device. -/
def IsDevice (a : Word) : Prop :=
  ∃ d ∈ Dev.devices, d.1 ≤ (a - Dev.kseg1).toNat ∧ (a - Dev.kseg1).toNat < d.1 + d.2

/-- The word with `c` as its byte `k`. -/
def insertByte (w : Word) (k : Nat) (c : Byte) : Word :=
  (w &&& ~~~(0xff#32 <<< (8 * k))) ||| (c.setWidth 32 <<< (8 * k))

/-- A store to byte `k` of page `p`. -/
def Pmap.setByte (pm : Pmap) (p k : Nat) (c : Byte) : Pmap :=
  let word := insertByte (pm.mem p (k / 4)) (k % 4) c
  { pm with mem := Function.update pm.mem p (Function.update (pm.mem p) (k / 4) word) }

theorem Pmap.setByte_mem (pm : Pmap) (p k : Nat) (c : Byte) :
    (pm.setByte p k c).mem p (k / 4) = insertByte (pm.mem p (k / 4)) (k % 4) c := by
  simp only [Pmap.setByte, Function.update_self]

/-- What happens while a call copies: it stores a byte, or an address is not mapped. -/
inductive CopyAct
  | store (a : Word) (c : Byte)
  | fault (va asid : Word)

/-- The byte that is stored, if one is. -/
def CopyAct.stored : CopyAct → Option (Word × Byte)
  | .store a c => some (a, c)
  | .fault _ _ => none

/-- One of these. Where a store goes to a page that is not writable, the handler of the user
is run in kernel mode; where it goes to the kernel's own image, its code, data and stack, or
to no memory at all, nothing is known of what follows. -/
inductive copyStep (s : Kernel) : CopyAct → Kernel → Prop
  | user {a w : Word} {c : Byte} {cur : EnvIx} : a < ulim → s.curenv = some cur →
      pteAt s.pm.mem (s.envs cur).envPgdir a = some w → w.Has pteD →
      copyStep s (.store a c) (s.withPm (s.pm.setByte (ppn w) (a.toNat % 4096) c))
  | mod {a w : Word} {c : Byte} {cur : EnvIx} (s' : Kernel) : a < ulim → s.curenv = some cur →
      pteAt s.pm.mem (s.envs cur).envPgdir a = some w → ¬ w.Has pteD → copyStep s (.store a c) s'
  | device {a : Word} (c : Byte) : IsDevice a → copyStep s (.store a c) s
  | page {a : Word} {c : Byte} {pa : Nat} {r : Ref EnvIx} : ¬ IsDevice a → physical a = some pa →
      target s.dirs s.pm.mem r = some (pa / 4096) →
      copyStep s (.store a c) (s.withPm (s.pm.setByte (pa / 4096) (pa % 4096) c))
  | image {a : Word} {c : Byte} (s' : Kernel) : ulim ≤ a → ¬ IsDevice a →
      (∀ pa r, physical a = some pa → target s.dirs s.pm.mem r ≠ some (pa / 4096)) →
      copyStep s (.store a c) s'
  | fault {va asid pte : Word} {fuel : Nat} {cur : EnvIx} {s' : Kernel} : s.curenv = some cur →
      va < ulim → doTlbRefill s va asid fuel = .ok (some (s', pte)) → copyStep s (.fault va asid) s'

/-! ## The calls -/

/-- The kernel, and the string in `pwd`. -/
structure System where
  kernel : Kernel
  pwd : List Byte

/-- A call, with the bytes that it finds where it copies from. -/
inductive CopyCall
  | writeDev (va pa len : Word) (data : Nat → Byte)
  | readDev (va pa len : Word) (data : Nat → Byte)
  | setPath (newpath : Word) (path : List Byte)
  | getPath (newpath : Word)

/-- The bytes at `a` and behind. -/
def bytesAt (a : Word) (bytes : List Byte) : List (Word × Byte) :=
  bytes.mapIdx fun i c => (a + BitVec.ofNat 32 i, c)

/-- What `memcpy` stores for the device calls, after their checks. -/
def deviceStores (va pa len dst : Word) (data : Nat → Byte) : List (Word × Byte) :=
  if isIllegalVaRange va len ∨ ¬ Dev.IsDevRange pa len then []
  else bytesAt dst ((List.range len.toNat).map data)

/-- `pwd`, or `/` if it is empty. -/
def System.path (m : System) : List Byte := if m.pwd = [] then [0x2f] else m.pwd

/-- The stores of a call in their order. `pwd` has 1024 bytes; what `sys_set_path` stores
there is the string of the state. -/
def CopyCall.stores (pwd : Word) (m : System) : CopyCall → List (Word × Byte)
  | .writeDev va pa len data => deviceStores va pa len (pa + Dev.kseg1) data
  | .readDev va pa len data => deviceStores va pa len va data
  | .setPath _ path => (bytesAt pwd (path ++ [0])).drop 1024
  | .getPath newpath => bytesAt newpath (m.path ++ [0])

/-- The string in `pwd` afterwards. -/
def CopyCall.newPwd (m : System) : CopyCall → List Byte
  | .setPath _ path => path
  | .getPath _ => m.path
  | _ => m.pwd

/-- The call stores its bytes, with page faults in between, and returns. -/
structure CopyCall.Returns (pwd : Word) (call : CopyCall) (m : System) (acts : List CopyAct)
    (m' : System) : Prop where
  stores : acts.filterMap CopyAct.stored = call.stores pwd m
  run : Run copyStep m.kernel acts m'.kernel
  pwd : m'.pwd = call.newPwd m

/-- A byte may go to a device, or to user memory where the page, if there is one, is
writable. -/
def StoreFits (s : Kernel) (a : Word) : Prop :=
  IsDevice a ∨ ¬ isIllegalVa a ∧ ∀ cur w, s.curenv = some cur →
    pteAt s.pm.mem (s.envs cur).envPgdir a = some w → w.Has pteD

/-- All bytes of the call go to such places. -/
def CopyCall.Fits (pwd : Word) (m : System) (call : CopyCall) : Prop :=
  ∀ e ∈ call.stores pwd m, StoreFits m.kernel e.1

/-! ## Which calls fit -/

variable {s s' : Kernel} {m m' : System} {pwd a w va pa len newpath asid : Word} {c : Byte}
  {cur e y : EnvIx} {acts : List CopyAct} {call : CopyCall} {data : Nat → Byte}
  {path : List Byte} {b : Boot}

theorem mem_bytesAt {bytes : List Byte} {x : Word × Byte} (h : x ∈ bytesAt a bytes) :
    ∃ i < bytes.length, x.1 = a + BitVec.ofNat 32 i := by
  obtain ⟨i, below, rfl⟩ := List.mem_mapIdx.mp h
  exact ⟨i, below, rfl⟩

/-- A path with its terminator fits in `pwd`. -/
theorem CopyCall.fits_setPath (short : path.length < 1024) :
    (CopyCall.setPath newpath path).Fits pwd m := by
  intro e stored
  have none : (bytesAt pwd (path ++ [0])).drop 1024 = [] := by
    rw [List.drop_eq_nil_iff, bytesAt, List.length_mapIdx, List.length_append]
    exact short
  rw [CopyCall.stores, none] at stored
  cases stored

/-- A sum that does not wrap keeps a write within the device. -/
theorem CopyCall.fits_writeDev (small : pa.toNat + len.toNat < 2 ^ 32) :
    (CopyCall.writeDev va pa len data).Fits pwd m := by
  intro e stored
  rw [CopyCall.stores, deviceStores] at stored
  split at stored
  · cases stored
  case isFalse checked =>
    rw [not_or, not_not] at checked
    obtain ⟨i, below, place⟩ := mem_bytesAt stored
    rw [List.length_map, List.length_range] at below
    rcases (Dev.isDevRange_iff checked.1).mp checked.2 with ⟨d, device, low, high⟩ | ⟨wraps, -⟩
    · refine .inl ⟨d, device, ?_⟩
      have place : (e.1 - Dev.kseg1).toNat = pa.toNat + i := by
        rw [place, show pa + Dev.kseg1 + BitVec.ofNat 32 i - Dev.kseg1 = pa + BitVec.ofNat 32 i by
          rw [BitVec.add_assoc, BitVec.add_comm Dev.kseg1, ← BitVec.add_assoc,
            BitVec.add_sub_cancel], BitVec.toNat_add, BitVec.toNat_ofNat]
        omega
      omega
    · omega

/-! ## What a fitting call keeps -/

section Memory

variable {ε : Type} [Fintype ε] [DecidableEq ε] {dirs : ε → Option Nat} {pm : Pmap} {x z : ε}
  {r : Ref ε} {d d' p : Nat} {rest : List Nat}

omit [DecidableEq ε] in
/-- Writing to a page that some entry maps changes no entry of the windows either. -/
theorem PmapInv.pteAt_writeLeaf (inv : PmapInv dirs pm) (hx : dirs x = some d)
    (leaf : ¬ r.IsTable) (mapped : target dirs pm.mem r = some p) (contents : Nat → Word)
    (notSelf : pdx va ≠ 511) :
    pteAt (Function.update pm.mem p contents) d va = pteAt pm.mem d va := by
  rcases Nat.lt_or_ge (pdx va) 509 with user | kernel
  · exact inv.pteAt_writePage hx leaf mapped contents user
  · obtain ⟨-, frame⟩ := @PmapInv.writePage _ _ _ _ x _ _ inv leaf mapped contents
    apply pteAt_congr
    · exact frame.kernelPart x d _ hx kernel
    · intro t ht
      obtain ⟨valid, rfl⟩ := entry_eq_some_iff.mp ht
      have table := (inv.window x d _ hx kernel (pdx_lt va) notSelf valid).bystander
      exact congrFun (frame.bystander _ table id).2.1 _

omit [DecidableEq ε] in
/-- Two address spaces have two directories. -/
theorem PmapInv.dir_ne (inv : PmapInv dirs pm) (hx : dirs x = some d) (hz : dirs z = some d')
    (other : z ≠ x) : d' ≠ d := by
  rintro rfl
  exact other (Ref.dir.inj (inv.excl (.dir z) (.dir x) d' trivial hz hx)).symm

omit [Fintype ε] [DecidableEq ε] in
/-- An address in the table that a window address shows. -/
theorem exists_pdx_eq_ptx (va : Word) : ∃ v : Word, pdx v = ptx va := by
  have small := ptx_lt va
  refine ⟨BitVec.ofNat 32 (ptx va * 2 ^ 22), ?_⟩
  rw [pdx_eq_div, BitVec.toNat_ofNat]
  omega

/-- A fault in the page table window makes the first reference to a page, if any. -/
theorem PmapInv.refs_faultIn (inv : PmapInv dirs pm) (hx : dirs x = some d)
    (vacant : entry (pm.mem d (ptx va)) = none) (hfree : pm.pageFreeList = p :: rest) (q : Nat) :
    refs (target dirs (pm.faultIn d p rest asid va).mem) q ≤
      max (refs (target dirs pm.mem) q) 1 := by
  rcases Nat.lt_or_ge (ptx va) 509 with user | kernel
  · obtain ⟨v, hv⟩ := exists_pdx_eq_ptx va
    rw [← hv] at vacant user
    have same : (pm.faultIn d p rest asid va).mem =
        (((pm.tlbInvalidate asid v).take p rest).install d (pdx v) p).mem := by
      rw [hv]
      rfl
    rw [same, inv.target_newTable hx user vacant hfree asid]
    exact refs_link_le ((target_pde hx).trans vacant)
      (inv.store.free_untargeted p (by simp [Pmap.store, hfree])) q
  · obtain ⟨taken, -, -⟩ := inv.take (e := x) hfree
    have same : target dirs (pm.faultIn d p rest asid va).mem = target dirs (pm.take p rest).mem :=
      target_writeKernel taken.excl hx kernel _
    rw [same, inv.target_take hfree]
    exact Nat.le_max_left _ _

/-- A fault in the page table window changes no entry. -/
theorem PmapInv.pteAt_faultIn (inv : PmapInv dirs pm) (hx : dirs x = some d)
    (vacant : entry (pm.mem d (ptx va)) = none) (hfree : pm.pageFreeList = p :: rest)
    (hz : dirs z = some d') {va' : Word} (notSelf : pdx va' ≠ 511) :
    pteAt (pm.faultIn d p rest asid va).mem d' va' = pteAt pm.mem d' va' := by
  have isFree : p ∈ pm.pageFreeList := by rw [hfree]; exact List.mem_cons_self
  have unnamed := inv.store.free_untargeted p isFree
  by_cases same : z = x
  · obtain rfl : d' = d := Option.some.inj (hz.symm.trans (same ▸ hx))
    obtain ⟨v, hv⟩ := exists_pdx_eq_ptx va
    rw [← hv] at vacant
    have kept := inv.pteAt_newTable hx vacant hfree notSelf
    rw [hv] at kept
    exact kept
  · obtain ⟨-, -, kept⟩ := @PmapInv.faultIn _ _ _ _ _ _ _ va _ inv hx vacant _ hfree asid
    have elsewhere : ∀ q, q ≠ p → q ≠ d → (pm.faultIn d p rest asid va).mem q = pm.mem q := by
      intro q notNew notDir
      show writeWord (Function.update pm.mem p fun _ => 0) d _ _ q = _
      rw [writeWord_of_page_ne notDir, Function.update_of_ne notNew]
    have space : SameSpace pm.mem (pm.faultIn d p rest asid va).mem d' := by
      refine inv.sameSpace hz ?_ (fun i t ht => ?_) fun q hq => (kept q hq).2
      · exact elsewhere d' (fun eq => unnamed (.dir z) (eq ▸ hz)) (inv.dir_ne hx hz same)
      · refine elsewhere t (fun eq => ?_) fun eq => ?_
        · exact unnamed (.pde z i) ((target_pde hz).trans (eq ▸ ht))
        · exact table_ne_dir inv.excl hz ht hx eq.symm
    exact space.pteAt va'

end Memory

/-- Only the memory has changed, and of the page table entries only ones in user memory that
can be written to now. -/
structure CopyKeeps (s s' : Kernel) : Prop where
  memory : ∃ pm, s' = s.withPm pm
  entries : ∀ y, y ∉ s.envFreeList → ∀ va, pdx va ≠ 511 →
    pteAt s'.pm.mem (s.envs y).envPgdir va = pteAt s.pm.mem (s.envs y).envPgdir va ∨
      ¬ isIllegalVa va ∧ ∃ w, pteAt s'.pm.mem (s.envs y).envPgdir va = some w ∧ w.Has pteD

theorem CopyKeeps.refl (s : Kernel) : CopyKeeps s s :=
  ⟨⟨s.pm, rfl⟩, fun _ _ _ _ => .inl rfl⟩

theorem CopyKeeps.trans {s'' : Kernel} (first : CopyKeeps s s') (second : CopyKeeps s' s'') :
    CopyKeeps s s'' := by
  obtain ⟨⟨pm, rfl⟩, entries⟩ := first
  obtain ⟨⟨pm', rfl⟩, entries'⟩ := second
  refine ⟨⟨pm', rfl⟩, fun y inUse va notSelf => ?_⟩
  rcases entries' y inUse va notSelf with same | changed
  · rcases entries y inUse va notSelf with same' | ⟨legal, w, entry, writable⟩
    · exact .inl (same.trans same')
    · exact .inr ⟨legal, w, same.trans entry, writable⟩
  · exact .inr changed

/-- A place that fits still does. -/
theorem CopyKeeps.storeFits (kept : CopyKeeps s s') (inv : LiveInv s) (fits : StoreFits s a) :
    StoreFits s' a := by
  obtain ⟨⟨pm, rfl⟩, entries⟩ := kept
  rcases fits with device | ⟨legal, writable⟩
  · exact .inl device
  · refine .inr ⟨legal, fun cur w hcur entry => ?_⟩
    have notSelf : pdx a ≠ 511 := pdx_ne_selfMap (lt_utop_of_legal legal)
    rcases entries cur (inv.current cur hcur).1 a notSelf with same | ⟨-, w', entry', writable'⟩
    · exact writable cur w hcur (same.symm.trans entry)
    · obtain rfl : w' = w := Option.some.inj (entry'.symm.trans entry)
      exact writable'

theorem StoreFits.not_physical (fits : StoreFits s a) (other : ¬ IsDevice a) :
    a < utop ∧ physical a = none := by
  rcases fits with device | ⟨legal, -⟩
  · exact absurd device other
  · have below := lt_utop_of_legal legal
    refine ⟨below, if_pos ?_⟩
    rw [BitVec.lt_def, utop_toNat] at below
    rw [BitVec.lt_def]
    exact below.trans (by decide)

/-- The devices lie above the user's addresses. -/
theorem StoreFits.of_user (fits : StoreFits s a) (user : a < ulim) :
    ¬ isIllegalVa a ∧ ∀ cur w, s.curenv = some cur →
      pteAt s.pm.mem (s.envs cur).envPgdir a = some w → w.Has pteD := by
  rcases fits with ⟨d, among, low, high⟩ | mapped
  · exfalso
    rw [BitVec.lt_def, ulim_toNat] at user
    have place : (a - Dev.kseg1).toNat = (2 ^ 32 - 0xa0000000 + a.toNat) % 2 ^ 32 :=
      BitVec.toNat_sub ..
    simp only [Dev.devices, List.mem_cons, List.not_mem_nil, or_false] at among
    rcases among with rfl | rfl | rfl <;> dsimp only at low high <;> omega
  · exact mapped

theorem entry_hasD (p : Nat) : (page2pa p ||| pteD ||| pteV).Has pteD :=
  (Word.has_or _ _ _).mpr (.inl ((Word.has_or _ _ _).mpr (.inr (by decide))))

/-- The page that `passive_alloc` maps in user memory can be written to; the entries of other
pages are what they were. -/
theorem LiveInv.entries_passiveAlloc {pm : Pmap} {va' : Word} {p : Nat} {rest : List Nat}
    (inv : LiveInv s) (inUse : cur ∉ s.envFreeList) (hfree : s.pm.pageFreeList = p :: rest)
    (low : ¬ va < utemp) (user : pdx (pteAddr va) < 509)
    (counted : Counted s.dirs (s.pm.take p rest) (s.envs cur).envPgdir (pteAddr va))
    (insert : Mos.pageInsert (s.pm.take p rest) (s.envs cur).envPgdir asid p (pteAddr va) pteD =
      .ok (pm, .ok ()))
    (used : y ∉ s.envFreeList) (notSelf : pdx va' ≠ 511) :
    pteAt pm.mem (s.envs y).envPgdir va' = pteAt s.pm.mem (s.envs y).envPgdir va' ∨
      ¬ isIllegalVa va' ∧ ∃ w, pteAt pm.mem (s.envs y).envPgdir va' = some w ∧ w.Has pteD := by
  have hd := Kernel.dirs_of_notMem inUse
  have hy := Kernel.dirs_of_notMem used
  obtain ⟨taken, -, -⟩ := inv.inv.pm.take (e := y) hfree
  have first : pteAt (s.pm.take p rest).mem (s.envs y).envPgdir va' =
      pteAt s.pm.mem (s.envs y).envPgdir va' := by
    obtain ⟨z, hz⟩ : ∃ z : EnvIx, y ≠ z := ⟨y + 1, by simp⟩
    obtain ⟨-, frame, -⟩ := inv.inv.pm.take (e := z) hfree
    exact (inv.inv.pm.sameSpace_of_frame frame hy hz).pteAt va'
  rw [← first]
  by_cases here : y = cur ∧ SamePage va' (pteAddr va)
  · obtain ⟨rfl, same⟩ := here
    have samePage : SamePage va' va :=
      ⟨same.1.trans (pdx_pteAddr va), same.2.trans (ptx_pteAddr va)⟩
    have legal : ¬ isIllegalVa va := by
      rw [pdx_pteAddr, pdx_eq_div] at user
      rw [isIllegalVa, not_or]
      refine ⟨low, fun high => ?_⟩
      rw [BitVec.le_def, utop_toNat] at high
      omega
    have sane : Addressable (s.pm.take p rest) (s.envs y).envPgdir (pteAddr va) :=
      ⟨fun t ht => (table_ne_dir (i := ⟨_, user⟩) taken.excl hd ht hd).symm, taken.npage_le,
        taken.free_lt, fun _ mem => taken.store.free_untargeted _ mem (.dir y) hd⟩
    rcases sane.pageInsert insert with ⟨-, -, -, failed⟩ | ⟨-, -, maps⟩
    · cases failed
    · refine .inr ⟨samePage.legal legal, _, ?_, entry_hasD p⟩
      rw [pteAt_samePage same]
      exact maps.pteAt (entry_valid _ _)
  · left
    rcases eq_or_ne y cur with rfl | hne
    · exact taken.pteAt_pageInsert hd user counted insert notSelf fun same => here ⟨rfl, same⟩
    · exact (taken.sameSpace_pageInsert hd user counted insert hy hne).pteAt va'

section Steps

variable (inv : LiveInv s) (bounded : Bounded s)

include inv bounded

/-- A store to user memory changes the contents of a page. -/
theorem LiveInv.copyStep_user {k : Nat} (hcur : s.curenv = some cur) (below : a < utop)
    (entry : pteAt s.pm.mem (s.envs cur).envPgdir a = some w) :
    MemStep s cur (s.pm.setByte (ppn w) k c) ∧ Bounded (s.withPm (s.pm.setByte (ppn w) k c)) ∧
      CopyKeeps s (s.withPm (s.pm.setByte (ppn w) k c)) := by
  have hd := Kernel.dirs_of_notMem (inv.current cur hcur).1
  obtain ⟨t, ht, word, valid⟩ := pteAt_eq_some_iff.mp entry
  have mapped : target s.dirs s.pm.mem
      (.pte cur ⟨_, pdx_lt_of_lt_utop below⟩ ⟨_, ptx_lt a⟩) = some (ppn w) := by
    rw [target_pte hd ht]
    show Mos.entry (s.pm.mem t (ptx a)) = _
    rw [word, entry_of_valid valid]
  have leaf := Ref.not_isTable_pte cur (⟨_, pdx_lt_of_lt_utop below⟩ : Fin 509) ⟨_, ptx_lt a⟩
  obtain ⟨inv', frame⟩ := @PmapInv.writePage _ _ _ _ cur _ _ inv.inv.pm leaf mapped
    (Function.update (s.pm.mem (ppn w)) (k / 4) (insertByte (s.pm.mem (ppn w) (k / 4)) (k % 4) c))
  have same : target s.dirs (s.pm.setByte (ppn w) k c).mem = target s.dirs s.pm.mem := by
    refine target_writePage (fun r' table named => ?_) _
    have eq := inv.inv.pm.excl r' _ (ppn w) table named mapped
    exact leaf (eq ▸ table)
  refine ⟨⟨inv', frame⟩, fun q => ?_, ⟨_, rfl⟩, fun y inUse va notSelf => .inl ?_⟩
  · show refs (target s.dirs (s.pm.setByte (ppn w) k c).mem) q ≤ _
    rw [same]
    exact bounded q
  · exact inv.inv.pm.pteAt_writeLeaf (Kernel.dirs_of_notMem inUse) leaf mapped _ notSelf

/-- What `passive_alloc` does to the counts and to the entries. -/
theorem LiveInv.passiveAlloc_keeps {pm : Pmap} (inUse : cur ∉ s.envFreeList)
    (found : lookup s.pm.mem (s.envs cur).envPgdir va = none) (hva : va < ulim)
    (alloc : Mos.passiveAlloc s.pm va (s.envs cur).envPgdir asid = .ok pm) :
    Bounded (s.withPm pm) ∧ CopyKeeps s (s.withPm pm) := by
  have hd := Kernel.dirs_of_notMem inUse
  have few : ∀ q, max (refs (target s.dirs s.pm.mem) q) 1 ≤ 65535 := fun q =>
    max_le (bounded q) (by decide)
  by_cases window : uvpt ≤ va
  · have vacant := (inv.inv.pm.lookup_window_eq_none hd window hva).mp found
    cases hfree : s.pm.pageFreeList with
    | nil =>
        unfold Mos.passiveAlloc at alloc
        rw [pageAlloc_nil hfree] at alloc
        split_ifs at alloc
        cases alloc
    | cons p rest =>
        rw [inv.inv.pm.passiveAlloc_window hd window hva vacant hfree] at alloc
        cases alloc
        refine ⟨fun q => (inv.inv.pm.refs_faultIn hd vacant hfree q).trans (few q), ⟨_, rfl⟩,
          fun y used va' notSelf => .inl ?_⟩
        exact inv.inv.pm.pteAt_faultIn hd vacant hfree (Kernel.dirs_of_notMem used) notSelf
  · unfold Mos.passiveAlloc at alloc
    split_ifs at alloc with low guard envs pages kernel
    have user := pdx_pteAddr_lt_of_guards (fun both => window both.1) envs pages kernel
    cases hfree : s.pm.pageFreeList with
    | nil =>
        rw [pageAlloc_nil hfree] at alloc
        cases alloc
    | cons p rest =>
        simp only [inv.inv.pm.pageAlloc_cons hfree, Bind.bind, Except.bind] at alloc
        obtain ⟨taken, frame, fresh⟩ := inv.inv.pm.take (e := cur) hfree
        have counts : ∀ q, refs (target s.dirs (s.pm.take p rest).mem) q < 2 ^ 16 := by
          intro q
          rw [inv.inv.pm.target_take hfree]
          exact Nat.lt_succ_of_le (bounded q)
        cases insert : Mos.pageInsert (s.pm.take p rest) (s.envs cur).envPgdir asid p (pteAddr va)
            pteD with
        | error panic =>
            rw [insert] at alloc
            cases alloc
        | ok result =>
            obtain ⟨pm₁, res⟩ := result
            rw [insert] at alloc
            cases res with
            | error err => cases alloc
            | ok _ =>
                obtain rfl : pm₁ = pm := Except.ok.inj alloc
                refine ⟨fun q => ?_, ⟨_, rfl⟩, fun y used va' notSelf => ?_⟩
                · have le := taken.refs_pageInsert counts hd user (by decide)
                    ⟨fresh.notFree, fresh.untargeted⟩ fresh.lt q insert
                  rw [inv.inv.pm.target_take hfree] at le
                  exact le.trans (few q)
                · exact inv.entries_passiveAlloc inUse hfree low user
                    (fun q _ _ => counts q) insert used notSelf

/-- A page fault maps a new page in user memory, or a page table. -/
theorem LiveInv.fault_keeps {pte : Word} {fuel : Nat} (hcur : s.curenv = some cur)
    (hva : va < ulim) (run : Mos.doTlbRefill s va asid fuel = .ok (some (s', pte))) :
    Bounded s' ∧ CopyKeeps s s' := by
  obtain ⟨inUse, pgdir⟩ := inv.current cur hcur
  have hd := Kernel.dirs_of_notMem inUse
  have few : ∀ q, refs (target s.dirs s.pm.mem) q < 2 ^ 16 := fun q => Nat.lt_succ_of_le (bounded q)
  unfold Mos.doTlbRefill at run
  simp only [pgdir] at run
  obtain ⟨r, refill, run⟩ := bind_eq_ok.mp run
  cases r with
  | none => cases run
  | some found =>
  obtain ⟨pm, word⟩ := found
  cases run
  have more := tlbRefillLoop_mono (tlbRefillLoop_mono refill)
  show Bounded (s.withPm pm) ∧ CopyKeeps s (s.withPm pm)
  cases found : lookup s.pm.mem (s.envs cur).envPgdir va with
  | some page =>
      simp only [Mos.tlbRefillLoop, pageLookup_eq (inv.inv.pm.inMemory hd hva), found, Bind.bind,
        Except.bind] at more
      cases more
      exact ⟨bounded, .refl s⟩
  | none =>
      rcases inv.inv.pm.tlbRefillLoop_cases hd few hva asid fuel with
        ⟨pm₁, p, t, run, -, rfl | ⟨alloc, -⟩⟩ | ⟨panic, run, -⟩
      all_goals rw [run] at more; cases more
      · exact ⟨bounded, .refl s⟩
      · exact inv.passiveAlloc_keeps bounded inUse found hva alloc

/-- One thing that happens during a call that fits. -/
theorem LiveInv.copyAct {act : CopyAct} (step : Mos.copyStep s act s')
    (fits : ∀ a c, act = .store a c → StoreFits s a) :
    LiveInv s' ∧ Bounded s' ∧ CopyKeeps s s' ∧ (SharedWindow b s → SharedWindow b s') := by
  cases step with
  | @user a w c cur user hcur entry writable =>
      obtain ⟨legal, -⟩ := (fits a c rfl).of_user user
      obtain ⟨mem, bounded', keeps⟩ :=
        @LiveInv.copyStep_user s a w c cur inv bounded (a.toNat % 4096) hcur
          (lt_utop_of_legal legal) entry
      exact ⟨inv.memStep mem, bounded', keeps, fun shared => shared.memStep inv.inv mem⟩
  | @mod a w c cur _ user hcur entry notWritable =>
      obtain ⟨-, writable⟩ := (fits a c rfl).of_user user
      exact absurd (writable cur w hcur entry) notWritable
  | device => exact ⟨inv, bounded, .refl s, id⟩
  | @page a c _ _ other place =>
      rw [((fits a c rfl).not_physical other).2] at place
      cases place
  | @image a c _ high other =>
      have below := ((fits a c rfl).not_physical other).1
      rw [BitVec.lt_def, utop_toNat] at below
      rw [BitVec.le_def, ulim_toNat] at high
      omega
  | @fault va asid _ _ cur _ hcur hva run =>
      obtain ⟨bounded', keeps⟩ := inv.fault_keeps bounded hcur hva run
      have step : kernelStep s (.fault va asid) s' := ⟨⟨⟨cur, hcur⟩, hva⟩, ⟨_, _, run⟩, bounded'⟩
      have inv' := (inv.doTlbRefill bounded hcur hva run).1
      refine ⟨inv', bounded', keeps, fun shared => ?_⟩
      rcases SharedWindow.step inv bounded (.inl shared) step with shared' | ⟨-, unused⟩
      · exact shared'
      · obtain ⟨pm, rfl⟩ := keeps.memory
        exact absurd (by rw [unused]; exact mem_slots cur) (inv'.current cur hcur).1

end Steps

/-- All that happens during a call whose stores fit. -/
theorem LiveInv.copyRun (inv : LiveInv s) (bounded : Bounded s) (run : Run copyStep s acts s')
    (fits : ∀ e ∈ acts.filterMap CopyAct.stored, StoreFits s e.1) :
    LiveInv s' ∧ Bounded s' ∧ CopyKeeps s s' ∧ (SharedWindow b s → SharedWindow b s') := by
  induction run with
  | refl => exact ⟨inv, bounded, .refl s, id⟩
  | @snoc s₁ s₂ acts act first last ih =>
      obtain ⟨inv₁, bounded₁, keeps₁, shared₁⟩ := ih fun e among => fits e (by
        rw [List.filterMap_append]
        exact List.mem_append_left _ among)
      have here : ∀ a c, act = .store a c → StoreFits s₁ a := by
        rintro a c rfl
        refine keeps₁.storeFits inv (fits (a, c) ?_)
        rw [List.filterMap_append]
        exact List.mem_append_right _ (List.mem_singleton_self _)
      obtain ⟨inv₂, bounded₂, keeps₂, shared₂⟩ := inv₁.copyAct bounded₁ last here
      exact ⟨inv₂, bounded₂, keeps₁.trans keeps₂, shared₂ ∘ shared₁⟩

/-- A call that fits keeps the kernel as it is, but for the contents of pages and the pages
that its faults map. -/
theorem CopyCall.Fits.keeps (fits : call.Fits pwd m) (inv : LiveInv m.kernel)
    (bounded : Bounded m.kernel) (returns : call.Returns pwd m acts m') :
    LiveInv m'.kernel ∧ Bounded m'.kernel ∧ CopyKeeps m.kernel m'.kernel ∧
      (SharedWindow b m.kernel → SharedWindow b m'.kernel) := by
  refine inv.copyRun bounded returns.run fun e stored => fits e ?_
  rwa [← returns.stores]

end Mos
