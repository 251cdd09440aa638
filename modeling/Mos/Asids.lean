import Mos.LiveInv
import Mos.EnvInit
import Mos.Lib.Run

/-!
# Address space identifiers

`asid_alloc` and `asid_free` keep 64 bits in two words. Bit `i` is set exactly while an
env in use has ASID `i`, so no two of them have the same.
-/

namespace Mos

variable {s s' : Kernel} {e : EnvIx} {b : Boot} {i j : Nat}

/-! ## The bitmap -/

/-- Bit `i` of the bitmap is set. -/
def asidUsed (bitmap : Nat → Word) (i : Nat) : Prop := bitmap (i / 32) &&& asidBit i ≠ 0

theorem asidBit_getLsbD (i k : Nat) : (asidBit i).getLsbD k = decide (k = i % 32) := by
  have lt : i % 32 < 32 := Nat.mod_lt _ (by decide)
  unfold asidBit
  rw [BitVec.getLsbD_shiftLeft, BitVec.getLsbD_one]
  by_cases eq : k = i % 32
  · simp [eq, lt]
  · rcases Nat.lt_or_ge k (i % 32) with below | above
    · simp [eq, below]
    · have apart : k - i % 32 ≠ 0 := by omega
      simp [eq, apart]

/-- The mask selects the bit that it names. -/
theorem asidUsed_iff (bitmap : Nat → Word) (i : Nat) :
    asidUsed bitmap i ↔ (bitmap (i / 32)).getLsbD (i % 32) = true := by
  constructor
  · intro set
    by_contra clear
    refine set (BitVec.eq_of_getLsbD_eq fun k _ => ?_)
    rw [BitVec.getLsbD_and, asidBit_getLsbD]
    by_cases eq : k = i % 32
    · rw [eq, Bool.eq_false_iff.mpr clear]
      simp
    · simp [eq]
  · intro set zero
    have bit := congrArg (BitVec.getLsbD · (i % 32)) zero
    simp only [BitVec.getLsbD_and, asidBit_getLsbD, set] at bit
    simp at bit

/-- Two ASIDs with their bits in one word have different bits. -/
theorem asid_eq_of_bits (word : i / 32 = j / 32) (bit : i % 32 = j % 32) : i = j := by
  omega

theorem asidUsed_set (bitmap : Nat → Word) (i j : Nat) :
    asidUsed (Function.update bitmap (i / 32) (bitmap (i / 32) ||| asidBit i)) j ↔
      j = i ∨ asidUsed bitmap j := by
  rw [asidUsed_iff, asidUsed_iff]
  by_cases word : j / 32 = i / 32
  · rw [word, Function.update_self, BitVec.getLsbD_or, asidBit_getLsbD, Bool.or_eq_true,
      decide_eq_true_iff]
    constructor
    · rintro (old | bit)
      · exact .inr old
      · exact .inl (asid_eq_of_bits word bit)
    · rintro (rfl | old)
      · exact .inr rfl
      · exact .inl old
  · rw [Function.update_of_ne word]
    exact (or_iff_right fun eq => word (by rw [eq])).symm

theorem asidUsed_clear (bitmap : Nat → Word) (i j : Nat) :
    asidUsed (Function.update bitmap (i / 32) (bitmap (i / 32) &&& ~~~asidBit i)) j ↔
      j ≠ i ∧ asidUsed bitmap j := by
  have lt : j % 32 < 32 := Nat.mod_lt _ (by decide)
  rw [asidUsed_iff, asidUsed_iff]
  by_cases word : j / 32 = i / 32
  · rw [word, Function.update_self, BitVec.getLsbD_and, BitVec.getLsbD_not, asidBit_getLsbD,
      Bool.and_eq_true, Bool.and_eq_true, Bool.not_eq_true', decide_eq_false_iff_not,
      decide_eq_true_iff]
    constructor
    · rintro ⟨old, -, bit⟩
      exact ⟨fun eq => bit (by rw [eq]), old⟩
    · rintro ⟨ne, old⟩
      exact ⟨old, lt, fun bit => ne (asid_eq_of_bits word bit)⟩
  · rw [Function.update_of_ne word]
    exact (and_iff_right fun eq => word (by rw [eq])).symm

theorem freeAsid_some {bitmap : Nat → Word} (h : freeAsid bitmap = some i) :
    i < nasid ∧ ¬ asidUsed bitmap i := by
  have mem := List.mem_of_find?_eq_some h
  have clear := List.find?_some h
  exact ⟨List.mem_range.mp mem, not_not_intro (of_decide_eq_true clear)⟩

theorem freeAsid_none {bitmap : Nat → Word} (h : freeAsid bitmap = none) (lt : i < nasid) :
    asidUsed bitmap i := by
  have set := List.find?_eq_none.mp h i (List.mem_range.mpr lt)
  exact fun zero => set (decide_eq_true zero)

/-- While the ASIDs below `n` are the ones in use, `n` is the next one. -/
theorem freeAsid_eq {bitmap : Nat → Word} {n : Nat}
    (used : ∀ j, j < nasid → (asidUsed bitmap j ↔ j < n)) :
    freeAsid bitmap = if n < nasid then some n else none := by
  split
  · rename_i lt
    refine List.find?_range_eq_some.mpr ⟨?_, List.mem_range.mpr lt, fun j below => ?_⟩
    · have clear := mt (used n lt).mp (Nat.lt_irrefl n)
      exact decide_eq_true (not_not.mp clear)
    · have set := (used j (Nat.lt_trans below lt)).mpr below
      exact Bool.not_eq_true' _ ▸ decide_eq_false set
  · rename_i ge
    refine List.find?_eq_none.mpr fun j mem => ?_
    have lt := List.mem_range.mp mem
    have set := (used j lt).mpr (by omega)
    exact fun clear => set (of_decide_eq_true clear)

/-! ## Along a run -/

/-- What happens to ASIDs: an attempt to allocate an env, or the end of one in use. -/
inductive AsidEv
  | alloc (parentId : Word)
  | free (e : EnvIx)
  | other

/-- The rest of the kernel leaves the ASIDs alone. -/
structure SameAsids (s s' : Kernel) : Prop where
  free : s'.envFreeList = s.envFreeList
  bitmap : s'.asidBitmap = s.asidBitmap
  asid : ∀ e, (s'.envs e).envAsid = (s.envs e).envAsid

inductive asidStep : Kernel → AsidEv → Kernel → Prop
  | alloc {s s' : Kernel} {parentId : Word} {r : Except Err EnvIx} :
      envAlloc s parentId = .ok (s', r) → asidStep s (.alloc parentId) s'
  | free {s s' : Kernel} {e : EnvIx} :
      e ∉ s.envFreeList → envFree s e = .ok s' → asidStep s (.free e) s'
  | other {s s' : Kernel} : SameAsids s s' → asidStep s .other s'

/-- The ASIDs of the envs in use differ, and the bitmap has exactly theirs. -/
structure AsidsSeparate (s : Kernel) : Prop where
  lt : ∀ e, e ∉ s.envFreeList → (s.envs e).envAsid.toNat < nasid
  distinct : ∀ e e', e ∉ s.envFreeList → e' ∉ s.envFreeList →
    (s.envs e).envAsid = (s.envs e').envAsid → e = e'
  used : ∀ i, i < nasid → (asidUsed s.asidBitmap i ↔
    ∃ e, e ∉ s.envFreeList ∧ (s.envs e).envAsid.toNat = i)

structure AsidInv (s : Kernel) : Prop extends AsidsSeparate s where
  free_nodup : s.envFreeList.Nodup

theorem AsidInv.same (inv : AsidInv s) (same : SameAsids s s') : AsidInv s' where
  lt e he := by
    rw [same.free] at he
    rw [same.asid]
    exact inv.lt e he
  distinct e e' he he' eq := by
    rw [same.free] at he he'
    rw [same.asid, same.asid] at eq
    exact inv.distinct e e' he he' eq
  used i hi := by
    rw [same.bitmap, same.free, inv.used i hi]
    simp only [same.asid]
  free_nodup := by rw [same.free]; exact inv.free_nodup

/-- The env at the head of the free list gets an ASID that nobody has. -/
theorem AsidInv.admit {rest : List EnvIx} {p : Nat} {pm : Pmap} (inv : AsidInv s)
    (hfree : s.envFreeList = e :: rest) (hasid : freeAsid s.asidBitmap = some i)
    (parentId : Word) : AsidInv ((s.setupEnv e p pm).admitEnv e rest i parentId) := by
  obtain ⟨lt, unused⟩ := freeAsid_some hasid
  have nodup := inv.free_nodup
  rw [hfree, List.nodup_cons] at nodup
  have small : (BitVec.ofNat 32 i).toNat = i := by
    rw [BitVec.toNat_ofNat]
    unfold nasid at lt
    omega
  have asid : ∀ x, (((s.setupEnv e p pm).admitEnv e rest i parentId).envs x).envAsid =
      if x = e then BitVec.ofNat 32 i else (s.envs x).envAsid := by
    intro x
    by_cases eq : x = e
    · subst eq
      simp [Kernel.admitEnv]
    · simp [Kernel.admitEnv, Kernel.setupEnv, eq]
  have old : ∀ x, x ≠ e → x ∉ rest → x ∉ s.envFreeList := by
    intro x ne notMem mem
    rw [hfree] at mem
    exact (List.mem_cons.mp mem).elim ne notMem
  have notMine : ∀ x, x ≠ e → x ∉ rest → (s.envs x).envAsid.toNat ≠ i := by
    intro x ne notMem eq
    exact unused ((inv.used i lt).mpr ⟨x, old x ne notMem, eq⟩)
  have kept : ∀ x, x ∉ s.envFreeList → x ≠ e ∧ x ∉ rest := by
    intro x notMem
    rw [hfree] at notMem
    exact ⟨fun eq => notMem (eq ▸ List.mem_cons_self),
      fun mem => notMem (List.mem_cons_of_mem _ mem)⟩
  refine ⟨⟨fun x hx => ?_, fun x y hx hy eq => ?_, fun k hk => ?_⟩, nodup.2⟩
  · rw [asid]
    split
    · rw [small]
      exact lt
    · rename_i ne
      exact inv.lt x (old x ne hx)
  · rw [asid, asid] at eq
    split at eq
    · rename_i atX
      split at eq
      · rename_i atY
        rw [atX, atY]
      · rename_i ne
        exact absurd (by rw [← eq, small]) (notMine y ne hy)
    · rename_i ne
      split at eq
      · exact absurd (by rw [eq, small]) (notMine x ne hx)
      · rename_i ne'
        exact inv.distinct x y (old x ne hx) (old y ne' hy) eq
  · show asidUsed (Function.update s.asidBitmap (i / 32) (s.asidBitmap (i / 32) ||| asidBit i)) k ↔
      ∃ x, x ∉ rest ∧ _
    rw [asidUsed_set, inv.used k hk]
    constructor
    · rintro (rfl | ⟨x, hx, eq⟩)
      · refine ⟨e, nodup.1, ?_⟩
        rw [asid, if_pos rfl, small]
      · obtain ⟨ne, notMem⟩ := kept x hx
        refine ⟨x, notMem, ?_⟩
        rw [asid, if_neg ne]
        exact eq
    · rintro ⟨x, hx, eq⟩
      rw [asid] at eq
      split at eq
      · exact .inl (by rw [← eq, small])
      · rename_i ne
        exact .inr ⟨x, old x ne hx, eq⟩

/-- An env that ends gives its ASID back. -/
theorem AsidInv.reclaim {pm : Pmap} {q : Tailq EnvIx} (inv : AsidInv s)
    (inUse : e ∉ s.envFreeList) : AsidInv { s.reclaim e pm with envSchedList := q } := by
  have asid : ∀ x, ((s.reclaim e pm).envs x).envAsid = (s.envs x).envAsid :=
    Kernel.setEnv_field (s := asidFree s (s.envs e).envAsid) (e := e)
      (f := fun env => { env with envStatus := .free }) Env.envAsid rfl
  have old : ∀ x, x ∉ e :: s.envFreeList → x ∉ s.envFreeList := fun x hx mem =>
    hx (List.mem_cons_of_mem _ mem)
  refine ⟨⟨fun x hx => ?_, fun x y hx hy eq => ?_, fun k hk => ?_⟩,
    List.nodup_cons.mpr ⟨inUse, inv.free_nodup⟩⟩
  · show ((s.reclaim e pm).envs x).envAsid.toNat < nasid
    rw [asid]
    exact inv.lt x (old x hx)
  · have eq' : ((s.reclaim e pm).envs x).envAsid = ((s.reclaim e pm).envs y).envAsid := eq
    rw [asid, asid] at eq'
    exact inv.distinct x y (old x hx) (old y hy) eq'
  · show asidUsed (Function.update s.asidBitmap ((s.envs e).envAsid.toNat / 32)
      (s.asidBitmap ((s.envs e).envAsid.toNat / 32) &&& ~~~asidBit (s.envs e).envAsid.toNat)) k ↔
      ∃ x, x ∉ e :: s.envFreeList ∧ ((s.reclaim e pm).envs x).envAsid.toNat = k
    rw [asidUsed_clear, inv.used k hk]
    simp only [asid]
    constructor
    · rintro ⟨ne, x, hx, rfl⟩
      refine ⟨x, fun mem => ?_, rfl⟩
      rcases List.mem_cons.mp mem with rfl | mem
      · exact ne rfl
      · exact hx mem
    · rintro ⟨x, hx, rfl⟩
      refine ⟨fun eq => hx ?_, x, old x hx, rfl⟩
      rw [inv.distinct x e (old x hx) inUse (BitVec.eq_of_toNat_eq eq)]
      exact List.mem_cons_self

theorem AsidInv.step {ev : AsidEv} (inv : AsidInv s) (step : asidStep s ev s') : AsidInv s' := by
  cases step with
  | alloc h =>
      rcases envAlloc_ok h with ⟨pm, err, -, rfl⟩ | ⟨e, rest, p, pm, err, -, -, rfl⟩ |
        ⟨e, rest, p, pm, i, hfree, hasid, -, rfl⟩
      · exact inv.same ⟨rfl, rfl, fun _ => rfl⟩
      · refine inv.same ⟨rfl, rfl, fun x => ?_⟩
        rcases eq_or_ne x e with rfl | ne
        · simp [Kernel.setupEnv]
        · simp [Kernel.setupEnv, ne]
      · exact inv.admit hfree hasid _
  | free inUse h =>
      obtain ⟨pm, q, -, rfl, -⟩ := envFree_ok h
      exact inv.reclaim inUse
  | other same => exact inv.same same

theorem AsidInv.of_envInit (boot : envInit b = .ok s) : AsidInv s := by
  obtain ⟨pm, base, rfl⟩ := envInit_ok boot
  have all : ∀ e, e ∈ (kernelInit pm base).envFreeList := mem_slots
  refine ⟨⟨fun e he => absurd (all e) he, fun e _ he => absurd (all e) he, fun i _ => ?_⟩,
    nodup_slots⟩
  constructor
  · intro used
    rw [asidUsed_iff] at used
    simp [kernelInit] at used
  · rintro ⟨e, he, -⟩
    exact absurd (all e) he

/-- `env_alloc` fails with a slot at hand and no lack of memory only when no bit is
clear. -/
theorem envAlloc_noFreeEnv {parentId : Word}
    (h : envAlloc s parentId = .ok (s', .error .noFreeEnv)) :
    s.envFreeList = [] ∨ freeAsid s.asidBitmap = none := by
  unfold envAlloc at h
  cases hfree : s.envFreeList with
  | nil => exact .inl rfl
  | cons e rest =>
      simp only [hfree] at h
      obtain ⟨⟨s₁, done⟩, setup, h⟩ := bind_eq_ok.mp h
      unfold envSetupVm at setup
      obtain ⟨⟨pm₁, page⟩, alloc, setup⟩ := bind_eq_ok.mp setup
      cases page with
      | error err =>
          cases setup
          cases h
          unfold pageAlloc at alloc
          split at alloc
          · cases alloc
          · obtain ⟨kva, -, alloc⟩ := bind_eq_ok.mp alloc
            cases alloc
      | ok p =>
          obtain ⟨pgdir, -, setup⟩ := bind_eq_ok.mp setup
          cases setup
          simp only [mkenvid] at h
          unfold asidAlloc at h
          cases hasid : freeAsid s.asidBitmap with
          | none => exact .inr rfl
          | some i =>
              simp only [Kernel.setEnv, Kernel.withPm, hasid] at h
              cases h

/-- From boot on the envs in use have ASIDs of their own, and `env_alloc` lacks one only
when they have them all. -/
theorem asids_separate {evs : List AsidEv} (boot : envInit b = .ok s)
    (run : Run asidStep s evs s') :
    AsidsSeparate s' ∧ ∀ parentId s'', envAlloc s' parentId = .ok (s'', .error .noFreeEnv) →
      s'.envFreeList ≠ [] →
      ∀ i, i < nasid → ∃ e, e ∉ s'.envFreeList ∧ (s'.envs e).envAsid.toNat = i := by
  have inv : AsidInv s' := run.invariant AsidInv (.of_envInit boot) fun _ _ _ => AsidInv.step
  refine ⟨inv.toAsidsSeparate, fun parentId s'' failed slot i hi => ?_⟩
  rcases envAlloc_noFreeEnv failed with noSlot | noAsid
  · exact absurd noSlot slot
  · exact (inv.used i hi).mp (freeAsid_none noAsid hi)

/-! ## Envs that come and go -/

/-- Freeing an env that mapped nothing gives its page directory back. -/
theorem envFreeVm_vacant {d : Nat} (pgdir : (s.envs e).envPgdir = d)
    (vacant : ∀ i, i < 509 → ¬ (s.pm.mem d i).Has pteV) (lt : d < s.pm.npage) (small : d < 2 ^ 20)
    (count : s.pm.ppRef d = 1) :
    ∃ pm, envFreeVm s e = .ok (s.reclaim e pm) ∧ pm.pageFreeList = d :: s.pm.pageFreeList := by
  obtain ⟨pm, emptied, same⟩ := loop_spec (Mos.envFreePde d (s.envs e).envAsid)
    (fun _ pm => pm = s.pm) (k := 0) (n := 509) (s := s.pm)
    (by
      intro i pm _ hi same
      cases same
      refine ⟨s.pm, ?_, rfl⟩
      rw [Mos.envFreePde, if_neg (vacant i (by omega))])
    rfl
  cases same
  have page : s.pm.pa2page (page2pa d) = .ok d := by
    simp only [Pmap.pa2page, ppn_page2pa small, if_pos lt]
  refine ⟨(s.pm.decref d).tlbInvalidate (s.envs e).envAsid
    (uvpt + BitVec.ofNat 32 (511 * 2 ^ 12)), ?_, ?_⟩
  · simp only [Mos.envFreeVm, pgdir, emptied, page, Bind.bind, Except.bind,
      pageDecref_eq (s := s.pm) (p := d) (by rw [count]; decide)]
    rfl
  · show (s.pm.decref d).pageFreeList = d :: s.pm.pageFreeList
    simp [Pmap.decref, count]

/-- Without envs there are no references. -/
theorem bounded_of_noEnvs (free : s.envFreeList = slots) : Bounded s := by
  intro p
  have none : s.dirs = noDirs := by
    funext e
    exact Kernel.dirs_of_mem (by rw [free]; exact mem_slots e)
  rw [none, refs_eq_zero_iff.mpr fun r hr => by cases (target_noDirs _ r).symm.trans hr]
  omega

/-- Every slot is free, and two envs can be allocated. -/
structure Idle (s : Kernel) : Prop where
  inv : KernelInv s
  free : s.envFreeList = slots
  pages : ∃ p q pages, s.pm.pageFreeList = p :: q :: pages
  asids : s.asidBitmap = fun _ => 0
  queue : s.envSchedList.Repr []

theorem exists_idle : ∃ s, envInit smallBoot = .ok s ∧ Idle s := by
  obtain ⟨pm, boot, booting, hfree⟩ := envInit_spec smallBoot_free
  exact ⟨_, boot, booting.kernelInv, rfl, ⟨_, _, _, hfree⟩, rfl, Tailq.repr_init⟩

/-- The env in slot 0 is the only one, it maps nothing, and another can be allocated. -/
structure Alone (s : Kernel) (p : Nat) : Prop where
  inv : KernelInv s
  bounded : Bounded s
  free : s.envFreeList = 1 :: laterSlots
  pages : ∃ q pages, s.pm.pageFreeList = q :: pages
  pgdir : (s.envs 0).envPgdir = p
  vacant : ∀ i, i < 509 → ¬ (s.pm.mem p i).Has pteV
  lt : p < s.pm.npage
  count : s.pm.ppRef p = 1
  asids : s.asidBitmap = Function.update (fun _ => 0) 0 (0 ||| asidBit 0)
  asid : (s.envs 0).envAsid = 0

theorem zero_notMem_later : (0 : EnvIx) ∉ 1 :: laterSlots := by
  have nodup := nodup_slots
  rw [slots_eq, List.nodup_cons] at nodup
  exact nodup.1

theorem Alone.inUse {p : Nat} (alone : Alone s p) : 0 ∉ s.envFreeList := by
  rw [alone.free]
  exact zero_notMem_later

theorem Idle.alloc (idle : Idle s) : ∃ s' p, envAlloc s 0 = .ok (s', .ok 0) ∧ Alone s' p ∧
    s'.envSchedList.Repr [] ∧ s'.mkenvidCount = s.mkenvidCount + 1 := by
  obtain ⟨p, q, pages, hpages⟩ := idle.pages
  have hfree : s.envFreeList = 0 :: 1 :: laterSlots := idle.free.trans slots_eq
  have hasid : freeAsid s.asidBitmap = some 0 := by
    rw [idle.asids]
    exact freeAsid_init
  have isFree : p ∈ s.pm.pageFreeList := by rw [hpages]; exact List.mem_cons_self
  have alloc := @KernelInv.envAlloc_eq _ _ _ _ _ idle.inv _ 0 hfree hpages hasid
  have contents : (s.pm.newPgdir s.basePgdir p (q :: pages)).mem p =
      pgdirWords (s.pm.mem s.basePgdir) p := Function.update_self ..
  have count : (s.pm.newPgdir s.basePgdir p (q :: pages)).ppRef p = s.pm.ppRef p + 1 :=
    Function.update_self ..
  have zero : s.pm.ppRef p = 0 := idle.inv.pm.store.free_count p isFree
  refine ⟨_, p, alloc, ⟨idle.inv.admitEnv hfree hpages 0 0,
    idle.inv.bounded_admitEnv (bounded_of_noEnvs idle.free) hfree hpages 0 0, rfl,
    ⟨q, pages, rfl⟩, ?_, fun i hi => ?_, idle.inv.pm.free_lt p isFree, ?_, ?_, ?_⟩, idle.queue, ?_⟩
  · simp [Kernel.admitEnv, Kernel.newEnv, Kernel.setupEnv]
  · show ¬ ((s.pm.newPgdir s.basePgdir p (q :: pages)).mem p i).Has pteV
    rw [contents, pgdirWords_user _ _ (.inl hi)]
    decide
  · show (s.pm.newPgdir s.basePgdir p (q :: pages)).ppRef p = 1
    rw [count, zero]
    rfl
  · simp only [Kernel.admitEnv, Kernel.newEnv, Kernel.setupEnv, idle.asids]
  · simp [Kernel.admitEnv]
  · simp [Kernel.admitEnv, Kernel.newEnv, Kernel.setupEnv]

theorem Alone.alloc {p : Nat} (alone : Alone s p) : ∃ s', envAlloc s 0 = .ok (s', .ok 1) ∧
    s'.envFreeList = laterSlots ∧ s'.mkenvidCount = s.mkenvidCount + 1 := by
  obtain ⟨q, pages, hpages⟩ := alone.pages
  have hasid : freeAsid s.asidBitmap = some 1 := by
    rw [alone.asids]
    exact freeAsid_second
  refine ⟨_, @KernelInv.envAlloc_eq _ _ _ _ _ alone.inv _ 0 alone.free hpages hasid, rfl, ?_⟩
  simp [Kernel.admitEnv, Kernel.newEnv, Kernel.setupEnv]

/-- What `env_create` does to a new env, but for its image. -/
def Kernel.start (s : Kernel) (e : EnvIx) : Kernel :=
  { s.setEnv e fun env => { env with envStatus := .runnable } with
    envSchedList := s.envSchedList.insertHead e }

theorem Kernel.start_field {α : Type} (field : Env → α)
    (same : ∀ env : Env, field { env with envStatus := .runnable } = field env) (x : EnvIx) :
    field ((s.start e).envs x) = field (s.envs x) :=
  Kernel.setEnv_field (s := s) (e := e) (f := fun env => { env with envStatus := .runnable })
    field (same _) x

theorem Kernel.start_status {x : EnvIx} (hne : x ≠ e) :
    ((s.start e).envs x).envStatus = (s.envs x).envStatus :=
  congrArg Env.envStatus (Function.update_of_ne hne _ _)

theorem Alone.start {p : Nat} (alone : Alone s p) : Alone (s.start 0) p := by
  have pgdir : ∀ x, ((s.start 0).envs x).envPgdir = (s.envs x).envPgdir :=
    Kernel.start_field Env.envPgdir fun _ => rfl
  refine ⟨alone.inv.congr rfl rfl rfl pgdir (fun x mem => ?_) (fun x => ?_), fun q => ?_,
    alone.free, alone.pages, (pgdir 0).trans alone.pgdir, alone.vacant, alone.lt, alone.count,
    alone.asids, (Kernel.start_field Env.envAsid (fun _ => rfl) 0).trans alone.asid⟩
  · have hne : x ≠ 0 := fun eq => alone.inUse (eq ▸ mem)
    exact (Kernel.start_status hne).trans (alone.inv.free_status x mem)
  · rw [Kernel.start_field Env.envIpcDstva fun _ => rfl]
    exact alone.inv.dstva_lt x
  · rw [show (s.start 0).dirs = s.dirs from Kernel.dirs_congr rfl pgdir]
    exact alone.bounded q

theorem Alone.freed {p : Nat} (alone : Alone s p) (queue : s.envSchedList.Repr [0]) :
    ∃ s', envFree s 0 = .ok s' ∧ Idle s' := by
  obtain ⟨pm, freed, back⟩ := envFreeVm_vacant alone.pgdir alone.vacant alone.lt
    (alone.inv.pm.page_lt alone.lt) alone.count
  obtain ⟨pm', freed', -, inv⟩ := alone.inv.envFreeVm alone.bounded alone.inUse
  have same : (s.reclaim 0 pm).pm = (s.reclaim 0 pm').pm :=
    congrArg Kernel.pm (Except.ok.inj (freed.symm.trans freed'))
  cases same
  obtain ⟨r, remove, queue⟩ := queue.remove (List.mem_singleton_self 0)
  have free : envFree s 0 = .ok { s.reclaim 0 pm with envSchedList := r } := by
    unfold envFree
    rw [freed]
    show (s.reclaim 0 pm).schedRemove 0 = _
    rw [Kernel.schedRemove, show (s.reclaim 0 pm).envSchedList = s.envSchedList from rfl, remove]
  obtain ⟨q, pages, hpages⟩ := alone.pages
  refine ⟨_, free, inv.congr rfl rfl rfl (fun _ => rfl) inv.free_status inv.dstva_lt,
    ?_, ⟨p, q, pages, back.trans (congrArg _ hpages)⟩, ?_, queue⟩
  · show 0 :: s.envFreeList = slots
    rw [alone.free]
    exact slots_eq.symm
  · have cleared : Function.update
      (Function.update (fun _ : Nat => (0 : Word)) 0 (0 ||| asidBit 0)) 0
        ((0 ||| asidBit 0) &&& ~~~asidBit 0) = fun _ => 0 := by
      rw [Function.update_idem, show (0 ||| asidBit 0) &&& ~~~asidBit 0 = (0 : Word) by decide]
      exact Function.update_eq_self 0 _
    show (asidFree s (s.envs 0).envAsid).asidBitmap = fun _ => 0
    rw [asidFree, alone.asid, alone.asids]
    exact cleared

/-- Two envs, of which the first has a slot and an ASID that were in use before. -/
theorem asids_separate_reused : ∃ s s', envInit smallBoot = .ok s ∧
    Run asidStep s [.alloc 0, .other, .free 0, .alloc 0, .alloc 0] s' ∧
    s'.envFreeList = laterSlots ∧ AsidsSeparate s' := by
  obtain ⟨s, boot, idle⟩ := exists_idle
  obtain ⟨s₁, p, alloc, alone, queue, -⟩ := idle.alloc
  have start : SameAsids s₁ (s₁.start 0) :=
    ⟨rfl, rfl, Kernel.start_field Env.envAsid fun _ => rfl⟩
  obtain ⟨s₂, freed, idle⟩ := alone.start.freed (queue.insertHead List.not_mem_nil)
  obtain ⟨s₃, q, again, alone', -, -⟩ := idle.alloc
  obtain ⟨s₄, second, free, -⟩ := alone'.alloc
  have run := ((Run.single (asidStep.alloc alloc)).snoc (.other start)).snoc
    (.free alone.start.inUse freed)
  have run' := (run.snoc (.alloc again)).snoc (.alloc second)
  exact ⟨s, s₄, boot, run', free, (asids_separate boot run').1⟩

end Mos
