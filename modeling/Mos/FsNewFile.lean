import Mos.FsRemove

/-!
# The file that is created

`file_create` writes a name into a free entry and nothing else: size, type and
slots are what the entry had. A removed file leaves in it the blocks behind its
end, and a directory that grows shows what its new block held the last time, when
that is still in the cache. Where the entry is blank and the block brings no other
file, exactly one empty file has come into being (`create_adds_one_iff`).
-/

namespace Mos

namespace Fs

variable {s t u : Fs} {d f g : FilePtr} {dir : Option FilePtr} {name : FsName}
  {names : List FsName} {path : FsName} {b c i k n w : Nat} {m : Nat → Bool}

/-- What block `b` shows once it is allocated: what the cache still has of it, and
zeroes else. -/
def fresh (s : Fs) (b w : Nat) : Word := if s.mapped b then s.blk b w else 0

/-- The block that a directory whose block `n` is missing gets: the lowest that is
free, or the one after it if that becomes the indirect block. -/
def NextBlock (s : Fs) (d : FilePtr) (n b : Nat) : Prop :=
  if n < NDIRECT ∨ s.fIndirect d ≠ 0 then s.LowestFree b
  else ∃ x, s.LowestFree x ∧ (s.takeBlock x).LowestFree b

/-- A word of the structure, or of the indirect block, that changes when block `n`
is added. -/
def GrowWord (s : Fs) (d : FilePtr) (n b w : Nat) : Prop :=
  b = d.1 ∧ (w = d.2 + 32 ∨ w = d.2 + 44 ∨ n < NDIRECT ∧ w = d.2 + 34 + n) ∨
    s.fIndirect d ≠ 0 ∧ b = s.fIndirect d ∧ w = n

/-- A directory that has got block `b` as its block `n`. -/
structure Grew (s : Fs) (d : FilePtr) (n b : Nat) (t : Fs) : Prop where
  next : s.NextBlock d n b
  nblocks : t.nblocks = s.nblocks
  used : ∀ c, s.blockIsFree c = false → t.blockIsFree c = false
  free : s.blockIsFree b = true
  notFree : t.blockIsFree b = false
  shown : ∀ w, t.blk b w = s.fresh b w
  same : ∀ c w, c < 3 ∨ s.blockIsFree c = false → ¬ s.GrowWord d n c w → t.blk c w = s.blk c w
  size : t.fSize d = s.fSize d + 4096
  slot : t.fileSlot d n = b
  low : ∀ i < n, t.fileSlot d i = s.fileSlot d i
  indirect : NDIRECT ≤ n → t.InUse (t.fIndirect d) ∧ t.fIndirect d ≠ b

theorem NextBlock.unique (left : s.NextBlock d n b) (right : s.NextBlock d n c) : b = c := by
  unfold NextBlock at left right
  split at left
  · next direct =>
      rw [if_pos direct] at right
      exact LowestFree.unique left right
  · next far =>
      rw [if_neg far] at right
      obtain ⟨x, lowestX, lowest⟩ := left
      obtain ⟨y, lowestY, lowest'⟩ := right
      obtain rfl := lowestX.unique lowestY
      exact lowest.unique lowest'

/-! ## A block is added -/

/-- The state after `alloc_block` returned `b`. -/
theorem blk_alloc : ((s.takeBlock b).mapBlock b).1 = .ok () →
    ((s.takeBlock b).mapBlock b).2.blk c w = if c = b then s.fresh b w else s.blk c w := by
  unfold mapBlock fresh
  have mapped : (s.takeBlock b).mapped b = s.mapped b := rfl
  rw [mapped]
  cases cached : s.mapped b with
  | true =>
      intro _
      simp only [if_true]
      split
      · next same => rw [same]; rfl
      · rfl
  | false =>
      simp only [Bool.false_eq_true, if_false]
      unfold sysMemAllocBlock
      split
      · exact nofun
      · intro _
        by_cases same : c = b
        · rw [if_pos same, same]
          show Function.update s.blk b (fun _ => 0) b w = 0
          rw [Function.update_self]
        · rw [if_neg same]
          show Function.update s.blk b (fun _ => 0) c w = s.blk c w
          rw [Function.update_of_ne same]

/-- `alloc_block` that returns a block. -/
theorem allocBlock_ok (sync : s.Synced) (ok : s.allocBlock.1 = .ok b) :
    s.LowestFree b ∧ s.allocBlock.2.nblocks = s.nblocks ∧
      (∀ c, s.allocBlock.2.blockIsFree c = (!decide (c = b) && s.blockIsFree c)) ∧
      (∀ c w, s.allocBlock.2.blk c w = if c = b then s.fresh b w else s.blk c w) ∧
      ∀ c, c ≠ b → s.allocBlock.2.mapped c = s.mapped c := by
  obtain ⟨run, -⟩ | ⟨b', lowest, ⟨run, cached⟩ | ⟨e, run, -⟩⟩ := allocBlock_spec sync
  · rw [run] at ok
    cases ok
  · rw [run] at ok ⊢
    obtain rfl := Except.ok.inj ok
    refine ⟨lowest, (mapBlock_keeps _ _).1, fun c => ?_, fun c w => blk_alloc cached,
      fun c other => mapped_mapBlock_of_ne other⟩
    rw [blockIsFree_mapBlock, blockIsFree_takeBlock]
  · rw [run] at ok
    cases ok

/-- The end of `file_get_block` when the slot that was found is empty. -/
theorem fileGetBlock_new {ptr : Nat × Nat} (sync : t.Synced)
    (walk : s.fileBlockWalk d n true = (.ok ptr, t)) (zero : t.word ptr = 0)
    (ok : (s.fileGetBlock d n).1 = .ok b) :
    t.LowestFree b ∧ (s.fileGetBlock d n).2.nblocks = t.nblocks ∧
      (∀ c, (s.fileGetBlock d n).2.blockIsFree c = (!decide (c = b) && t.blockIsFree c)) ∧
      ∀ c w, (s.fileGetBlock d n).2.blk c w =
        if c = ptr.1 ∧ w = ptr.2 then BitVec.ofNat 32 b
        else if c = b then t.fresh b w else t.blk c w := by
  unfold fileGetBlock fileMapBlock at ok ⊢
  rw [walk] at ok ⊢
  dsimp only at ok ⊢
  rw [if_pos zero, if_neg (by decide)] at ok ⊢
  rcases alloc : t.allocBlock with ⟨r, v⟩
  rw [alloc] at ok
  cases r with
  | error e => cases ok
  | ok b' =>
      dsimp only at ok ⊢
      obtain ⟨lowest, nblocks, free, blk, -⟩ := allocBlock_ok (b := b') sync (by rw [alloc])
      rw [alloc] at nblocks free blk
      rcases readBlock_cases (v.setWord ptr (BitVec.ofNat 32 b')) b' with run | ⟨m, run⟩
      · rw [run] at ok
        cases ok
      · rw [run] at ok ⊢
        obtain rfl := Except.ok.inj ok
        refine ⟨lowest, nblocks, free, fun c w => ?_⟩
        show (v.setWord ptr (BitVec.ofNat 32 b')).blk c w = _
        rw [blk_setWord, blk]

theorem blk_grown : (s.grown d).blk c w =
    if c = d.1 ∧ w = d.2 + 32 then s.fSize d + 4096 else s.blk c w := blk_setWord

/-- A free block is no block that is looked at. -/
theorem LowestFree.ne (lowest : s.LowestFree b) (taken : c < 3 ∨ s.blockIsFree c = false) :
    c ≠ b := by
  rintro rfl
  obtain ⟨low, free, -⟩ := lowest
  rcases taken with below | used
  · omega
  · rw [used] at free
    cases free

theorem toNat_block (size : s.nblocks ≤ DISKMAX_BLOCKS) (free : s.blockIsFree b = true) :
    (BitVec.ofNat 32 b).toNat = b := by
  have small := lt_of_blockIsFree free
  unfold DISKMAX_BLOCKS at size
  rw [BitVec.toNat_ofNat, Nat.mod_eq_of_lt (by omega)]

/-- A slot in the structure. -/
theorem grew_direct (mounted : s.Mounted) (here : d.1 < 3 ∨ s.blockIsFree d.1 = false)
    (direct : n < NDIRECT) (empty : s.fileSlot d n = 0)
    (ok : ((s.grown d).fileGetBlock d n).1 = .ok b) :
    s.Grew d n b ((s.grown d).fileGetBlock d n).2 := by
  have ten : n < 10 := direct
  have walk : (s.grown d).fileBlockWalk d n true = (.ok (d.1, d.2 + 34 + n), s.grown d) :=
    if_pos direct
  have zero : (s.grown d).word (d.1, d.2 + 34 + n) = 0 := by
    rw [fileSlot_direct direct] at empty
    show (s.grown d).blk d.1 (d.2 + 34 + n) = 0
    rw [blk_grown, if_neg (by omega)]
    exact BitVec.eq_of_toNat_eq empty
  have sync : (s.grown d).Synced := mounted.synced.setWord
  obtain ⟨lowest, nblocks, free, blk⟩ := fileGetBlock_new sync walk zero ok
  have lowest : s.LowestFree b := lowest
  have apart := lowest.ne here
  have value := toNat_block mounted.size lowest.2.1
  generalize ((s.grown d).fileGetBlock d n).2 = t at *
  have free : ∀ c, t.blockIsFree c = (!decide (c = b) && s.blockIsFree c) := free
  have blk' : ∀ c w, c ≠ b → t.blk c w = if c = d.1 ∧ w = d.2 + 34 + n then BitVec.ofNat 32 b
      else if c = d.1 ∧ w = d.2 + 32 then s.fSize d + 4096 else s.blk c w := by
    intro c w other
    rw [blk, if_neg other, blk_grown]
  refine ⟨?_, nblocks, fun c used => ?_, lowest.2.1, ?_, fun w => ?_, fun c w taken outside => ?_,
    ?_, ?_, fun i low => ?_, fun beyond => absurd direct (Nat.not_lt.mpr beyond)⟩
  · rw [NextBlock, if_pos (Or.inl direct)]
    exact lowest
  · rw [free, used, Bool.and_false]
  · rw [free]
    simp
  · have same : (s.grown d).blk b w = s.blk b w := by
      rw [blk_grown, if_neg fun both => apart both.1.symm]
    rw [blk, if_neg fun both => apart both.1.symm, if_pos rfl]
    show (if s.mapped b then (s.grown d).blk b w else 0) = _
    rw [same, fresh]
  · rw [blk' c w (lowest.ne taken), if_neg, if_neg]
    · exact fun both => outside (Or.inl ⟨both.1, Or.inl both.2⟩)
    · exact fun both => outside (Or.inl ⟨both.1, Or.inr (Or.inr ⟨direct, both.2⟩)⟩)
  · show t.blk d.1 (d.2 + 32) = _
    rw [blk' d.1 _ apart, if_neg (by omega), if_pos ⟨rfl, rfl⟩]
  · rw [fileSlot_direct direct, blk' d.1 _ apart, if_pos ⟨rfl, rfl⟩, value]
  · have direct' : i < NDIRECT := low.trans direct
    rw [fileSlot_direct direct', fileSlot_direct direct', blk' d.1 _ apart, if_neg (by omega),
      if_neg (by omega)]

/-- A slot in the indirect block. -/
theorem grew_indirect (mounted : s.Mounted) (here : d.1 < 3 ∨ s.blockIsFree d.1 = false)
    (beyond : NDIRECT ≤ n) (inside : n < NINDIRECT) (there : s.fIndirect d ≠ 0)
    (elsewhere : s.fIndirect d ≠ d.1) (empty : s.fileSlot d n = 0)
    (ok : ((s.grown d).fileGetBlock d n).1 = .ok b) :
    s.Grew d n b ((s.grown d).fileGetBlock d n).2 := by
  have sameIndirect : (s.grown d).fIndirect d = s.fIndirect d := by
    unfold fIndirect
    rw [blk_grown, if_neg (by omega)]
  have used : (s.grown d).InUse (s.fIndirect d) := by
    by_contra unused
    rw [fileGetBlock_panics beyond inside (sameIndirect ▸ there) (sameIndirect ▸ unused)] at ok
    cases ok
  have walk : (s.grown d).fileBlockWalk d n true = (.ok (s.fIndirect d, n), (s.grown d).withMapped
      (Function.update (s.grown d).mapped (s.fIndirect d) true)) := by
    rw [fileBlockWalk, if_neg (Nat.not_lt.mpr beyond), if_pos inside, sameIndirect, if_neg there,
      indirectWalk, sameIndirect, readBlock_used used]
    dsimp only
    rw [fIndirect_withMapped, sameIndirect]
  have ptr : s.slotPtr d n = some (s.fIndirect d, n) := by
    rw [slotPtr, if_neg (Nat.not_lt.mpr beyond), if_pos ⟨inside, there⟩]
  generalize hm : Function.update (s.grown d).mapped (s.fIndirect d) true = m at walk
  have sync : ((s.grown d).withMapped m).Synced := by
    rw [← hm]
    exact (mounted.synced.setWord : (s.grown d).Synced).withMapped (CachesUsed.update used).grows
  have zero : ((s.grown d).withMapped m).word (s.fIndirect d, n) = 0 := by
    rw [fileSlot_of_same rfl ptr] at empty
    show (s.grown d).blk (s.fIndirect d) n = 0
    rw [blk_grown, if_neg fun both => elsewhere both.1]
    exact BitVec.eq_of_toNat_eq empty
  obtain ⟨lowest, nblocks, free, blk⟩ := fileGetBlock_new sync walk zero ok
  have lowest : s.LowestFree b := lowest
  have apart := lowest.ne here
  have apart' : s.fIndirect d ≠ b := lowest.ne (Or.inr used.2)
  have value := toNat_block mounted.size lowest.2.1
  generalize ((s.grown d).fileGetBlock d n).2 = t at *
  have free : ∀ c, t.blockIsFree c = (!decide (c = b) && s.blockIsFree c) := free
  have shown : ∀ w, ((s.grown d).withMapped m).fresh b w = s.fresh b w := by
    intro w
    have mapped : m b = s.mapped b := by
      rw [← hm]
      exact Function.update_of_ne apart'.symm _ _
    have same : (s.grown d).blk b w = s.blk b w := by
      rw [blk_grown, if_neg fun both => apart both.1.symm]
    show (if m b then (s.grown d).blk b w else 0) = _
    rw [mapped, same, fresh]
  have blk' : ∀ c w, c ≠ b → t.blk c w = if c = s.fIndirect d ∧ w = n then BitVec.ofNat 32 b
      else if c = d.1 ∧ w = d.2 + 32 then s.fSize d + 4096 else s.blk c w := by
    intro c w other
    rw [blk, if_neg other]
    exact congrArg (ite _ _) blk_grown
  have there' : t.fIndirect d = s.fIndirect d := by
    unfold fIndirect
    rw [blk' d.1 _ apart, if_neg fun both => elsewhere both.1.symm, if_neg (by omega)]
  refine ⟨?_, nblocks, fun c used => ?_, lowest.2.1, ?_, fun w => ?_, fun c w taken outside => ?_,
    ?_, ?_, fun i low => ?_, fun _ => ?_⟩
  · rw [NextBlock, if_pos (Or.inr there)]
    exact lowest
  · rw [free, used, Bool.and_false]
  · rw [free]
    simp
  · rw [blk, if_neg fun both => apart' both.1.symm, if_pos rfl, shown]
  · rw [blk' c w (lowest.ne taken), if_neg, if_neg]
    · exact fun both => outside (Or.inl ⟨both.1, Or.inl both.2⟩)
    · exact fun both => outside (Or.inr ⟨there, both⟩)
  · show t.blk d.1 (d.2 + 32) = _
    rw [blk' d.1 _ apart, if_neg fun both => elsewhere both.1.symm, if_pos ⟨rfl, rfl⟩]
  · rw [fileSlot_of_same there' ptr, blk' _ _ apart', if_pos ⟨rfl, rfl⟩, value]
  · cases ptr' : s.slotPtr d i with
    | none => rw [(fileSlot_none there' ptr').1, (fileSlot_none there' ptr').2]
    | some p =>
        obtain ⟨c, w⟩ := p
        rw [fileSlot_of_same there' ptr', fileSlot_of_same rfl ptr']
        unfold slotPtr at ptr'
        split at ptr'
        · next direct =>
            cases ptr'
            have direct : i < 10 := direct
            rw [blk' d.1 _ apart, if_neg fun both => elsewhere both.1.symm, if_neg (by omega)]
        · split at ptr'
          · cases ptr'
            rw [blk' _ _ apart', if_neg (by omega), if_neg fun both => elsewhere both.1]
          · cases ptr'
  · have usedIndirect : s.blockIsFree (s.fIndirect d) = false := used.2
    rw [there', InUse, free, usedIndirect, nblocks, Bool.and_false]
    exact ⟨⟨used.1, rfl⟩, apart'⟩

theorem LowestFree.congr (same : ∀ c, t.blockIsFree c = s.blockIsFree c)
    (lowest : t.LowestFree b) : s.LowestFree b :=
  ⟨lowest.1, (same b).symm.trans lowest.2.1, fun c low high =>
    (same c).symm.trans (lowest.2.2 c low high)⟩

/-- `u` has block `x` of `s` as a new indirect block of `d`. -/
structure Indirected (s : Fs) (d : FilePtr) (x : Nat) (u : Fs) : Prop where
  lowest : s.LowestFree x
  synced : u.Synced
  nblocks : u.nblocks = s.nblocks
  free : ∀ c, u.blockIsFree c = (!decide (c = x) && s.blockIsFree c)
  /-- The pointer to it, and the rest. -/
  blk : ∀ c w, c ≠ x → u.blk c w =
    if c = d.1 ∧ w = d.2 + 44 then BitVec.ofNat 32 x else (s.grown d).blk c w
  /-- What it reads when it is allocated. -/
  words : ∀ w, u.blk x w = s.fresh x w
  mapped : ∀ c, c ≠ x → u.mapped c = s.mapped c

/-- How the walk to the first slot behind the direct ones ends. -/
theorem walk_new_indirect (mounted : s.Mounted) (here : d.1 < 3 ∨ s.blockIsFree d.1 = false)
    (first : n = NDIRECT) (absent : s.fIndirect d = 0)
    (ok : ((s.grown d).fileGetBlock d n).1 = .ok b) :
    ∃ x u, (s.grown d).fileBlockWalk d n true = (.ok (x, n), u) ∧ s.Indirected d x u := by
  have beyond : ¬ n < NDIRECT := by rw [first]; exact Nat.lt_irrefl _
  have inside : n < NINDIRECT := by rw [first]; decide
  have sync : (s.grown d).Synced := mounted.synced.setWord
  have absent' : (s.grown d).fIndirect d = 0 := by
    unfold fIndirect at absent ⊢
    rw [blk_grown, if_neg (by omega), absent]
  rcases alloc : (s.grown d).allocBlock with ⟨r, v⟩
  cases r with
  | error e =>
      have walk : (s.grown d).fileBlockWalk d n true = (.error e, v) := by
        rw [fileBlockWalk, if_neg beyond, if_pos inside, if_pos absent', if_neg (by decide), alloc]
      rw [fileGetBlock_of_walk_error walk] at ok
      cases ok
  | ok x =>
      have walk : (s.grown d).fileBlockWalk d n true =
          (v.setWord (indirectPtr d) (BitVec.ofNat 32 x)).indirectWalk d n := by
        rw [fileBlockWalk, if_neg beyond, if_pos inside, if_pos absent', if_neg (by decide), alloc]
      obtain ⟨lowest, nblocks, free, blk, mapped⟩ :=
        allocBlock_ok (b := x) sync (by rw [alloc])
      rw [alloc] at nblocks free blk mapped
      dsimp only at nblocks free blk mapped
      have lowest : s.LowestFree x := lowest
      have apart := lowest.ne here
      have synced : v.Synced := by
        have after := (allocBlock_effect sync).2
        rwa [alloc] at after
      have number : (v.setWord (indirectPtr d) (BitVec.ofNat 32 x)).fIndirect d = x := by
        unfold fIndirect
        rw [blk_setWord, if_pos ⟨rfl, rfl⟩, toNat_block mounted.size lowest.2.1]
      have used : (v.setWord (indirectPtr d) (BitVec.ofNat 32 x)).InUse x := by
        refine ⟨?_, ?_⟩
        · show x < v.nblocks
          rw [nblocks]
          exact lt_of_blockIsFree lowest.2.1
        · rw [blockIsFree_setWord, free]
          simp
      have pointed : ∀ c w, (v.setWord (indirectPtr d) (BitVec.ofNat 32 x)).blk c w =
          if c = d.1 ∧ w = d.2 + 44 then BitVec.ofNat 32 x else v.blk c w :=
        fun c w => blk_setWord
      rw [indirectWalk, number, readBlock_used used] at walk
      dsimp only at walk
      rw [fIndirect_withMapped, number] at walk
      refine ⟨x, _, walk, lowest, synced.setWord.withMapped (CachesUsed.update used).grows, nblocks,
        free, fun c w other => ?_, fun w => ?_, fun c other => ?_⟩
      · have rest : v.blk c w = (s.grown d).blk c w := by rw [blk, if_neg other]
        rw [← rest]
        exact pointed c w
      · refine (pointed x w).trans ?_
        have same : (s.grown d).blk x w = s.blk x w := by
          rw [blk_grown, if_neg fun both => apart both.1.symm]
        rw [if_neg fun both => apart both.1.symm, blk, if_pos rfl]
        show (if s.mapped x then (s.grown d).blk x w else 0) = _
        rw [same, fresh]
      · exact (Function.update_of_ne other _ _).trans (mapped c other)

/-- The first slot in an indirect block that has to be allocated. -/
theorem grew_new_indirect (mounted : s.Mounted) (here : d.1 < 3 ∨ s.blockIsFree d.1 = false)
    (first : n = NDIRECT) (absent : s.fIndirect d = 0)
    (blank : ∀ x, s.LowestFree x → s.fresh x n = 0)
    (ok : ((s.grown d).fileGetBlock d n).1 = .ok b) :
    s.Grew d n b ((s.grown d).fileGetBlock d n).2 := by
  have ten : n = 10 := first
  have beyond : ¬ n < NDIRECT := by rw [first]; exact Nat.lt_irrefl _
  have inside : n < NINDIRECT := by rw [first]; decide
  obtain ⟨x, u, walk, new⟩ := walk_new_indirect mounted here first absent ok
  have apartX := new.lowest.ne here
  have valueX := toNat_block mounted.size new.lowest.2.1
  have zero : u.word (x, n) = 0 := (new.words n).trans (blank x new.lowest)
  obtain ⟨lowest, nblocks, free, blk⟩ := fileGetBlock_new new.synced walk zero ok
  have lowest' : (s.takeBlock x).LowestFree b := lowest.congr fun c => by
    rw [new.free, blockIsFree_takeBlock]
  have freeB := lowest.2.1
  rw [new.free, Bool.and_eq_true] at freeB
  have otherX : b ≠ x := by simpa using freeB.1
  have taken : ∀ c, c < 3 ∨ s.blockIsFree c = false → c ≠ b := by
    rintro c (low | used) rfl
    · exact absurd lowest.1 (Nat.not_le.mpr low)
    · rw [used] at freeB
      cases freeB.2
  have apart := taken _ here
  have value := toNat_block mounted.size freeB.2
  generalize ((s.grown d).fileGetBlock d n).2 = t at *
  have free' : ∀ c, t.blockIsFree c =
      (!decide (c = b) && (!decide (c = x) && s.blockIsFree c)) := fun c => by
    rw [free, new.free]
  have blk' : ∀ c w, c ≠ b → c ≠ x → t.blk c w =
      if c = d.1 ∧ w = d.2 + 44 then BitVec.ofNat 32 x
      else if c = d.1 ∧ w = d.2 + 32 then s.fSize d + 4096 else s.blk c w := by
    intro c w other otherX
    rw [blk, if_neg fun both => otherX both.1, if_neg other, new.blk c w otherX, blk_grown]
  have there : t.fIndirect d = x := by
    unfold fIndirect
    rw [blk' d.1 _ apart apartX, if_pos ⟨rfl, rfl⟩, valueX]
  refine ⟨?_, nblocks.trans new.nblocks, fun c used => ?_, freeB.2, ?_, fun w => ?_,
    fun c w isTaken outside => ?_, ?_, ?_, fun i low => ?_, fun _ => ?_⟩
  · rw [NextBlock, if_neg (by simp [beyond, absent])]
    exact ⟨x, new.lowest, lowest'⟩
  · rw [free', used, Bool.and_false, Bool.and_false]
  · rw [free']
    simp
  · have same : u.blk b w = s.blk b w := by
      rw [new.blk b w otherX, if_neg fun both => apart both.1.symm, blk_grown,
        if_neg fun both => apart both.1.symm]
    rw [blk, if_neg fun both => otherX both.1, if_pos rfl, fresh, fresh, same,
      new.mapped b otherX]
  · rw [blk' c w (taken c isTaken) (new.lowest.ne isTaken), if_neg, if_neg]
    · exact fun both => outside (Or.inl ⟨both.1, Or.inl both.2⟩)
    · exact fun both => outside (Or.inl ⟨both.1, Or.inr (Or.inl both.2)⟩)
  · show t.blk d.1 (d.2 + 32) = _
    rw [blk' d.1 _ apart apartX, if_neg (by omega), if_pos ⟨rfl, rfl⟩]
  · have present : t.fIndirect d ≠ 0 := by
      rw [there]
      have := new.lowest.1
      omega
    have ptr : t.slotPtr d n = some (x, n) := by
      rw [slotPtr, if_neg beyond, if_pos ⟨inside, present⟩, there]
    rw [fileSlot_of_same rfl ptr, blk, if_pos ⟨rfl, rfl⟩, value]
  · have direct : i < NDIRECT := first ▸ low
    rw [fileSlot_direct direct, fileSlot_direct direct, blk' d.1 _ apart apartX,
      if_neg (by omega), if_neg (by omega)]
  · rw [there, InUse, free', nblocks, new.nblocks]
    exact ⟨⟨lt_of_blockIsFree new.lowest.2.1, by simp⟩, otherX.symm⟩

/-! ## The name is stored -/

/-- A byte of a word after one was stored. -/
theorem byte_store (v : Word) (c : Byte) {a b : Nat} (ha : a < 4) (hb : b < 4) :
    ((v &&& ~~~(0xff#32 <<< (8 * a)) ||| (c.setWidth 32 <<< (8 * a))) >>> (8 * b)).setWidth 8 =
      if b = a then c else (v >>> (8 * b)).setWidth 8 := by
  have all : ∀ i < 8, (0xff#32).getLsbD i = true := by decide
  ext i hi
  have mask : ∀ j, (0xff#32).getLsbD j = decide (j < 8) := by
    intro j
    by_cases low : j < 8
    · rw [all j low, decide_eq_true low]
    · by_cases high : j < 32
      · have none : ∀ j < 32, ¬ j < 8 → (0xff#32).getLsbD j = false := by decide
        rw [none j high low, decide_eq_false low]
      · rw [BitVec.getLsbD_of_ge _ _ (Nat.not_lt.mp high), decide_eq_false low]
  have inWord : 8 * b + i < 32 := by omega
  rw [BitVec.getElem_setWidth, BitVec.getLsbD_ushiftRight, BitVec.getLsbD_or, BitVec.getLsbD_and,
    BitVec.getLsbD_not, BitVec.getLsbD_shiftLeft, BitVec.getLsbD_shiftLeft, mask,
    BitVec.getLsbD_setWidth]
  split
  · next same =>
      subst same
      have after : ¬ 8 * b + i < 8 * b := by omega
      have small : i < 32 := by omega
      simp [inWord, hi, after, small]
  · next other =>
      rw [BitVec.getElem_setWidth, BitVec.getLsbD_ushiftRight]
      rcases Nat.lt_or_gt_of_ne other with below | above
      · have before : 8 * b + i < 8 * a := by omega
        simp [inWord, before]
      · have after : ¬ 8 * b + i < 8 * a := by omega
        have beyond : ¬ 8 * b + i - 8 * a < 8 := by omega
        have outside : c.getLsbD (8 * b + i - 8 * a) = false :=
          BitVec.getLsbD_of_ge _ _ (Nat.not_lt.mp beyond)
        simp [inWord, after, beyond, outside]

theorem nameByte_setNameByte {ch : Byte} (k j : Nat) :
    (s.setNameByte f k ch).nameByte f j = if j = k then ch else s.nameByte f j := by
  unfold nameByte setNameByte
  rw [blk_setWord]
  by_cases word : j / 4 = k / 4
  · rw [if_pos ⟨rfl, by rw [word]⟩, word, byte_store _ _ (Nat.mod_lt _ (by decide))
      (Nat.mod_lt _ (by decide))]
    have same : j % 4 = k % 4 ↔ j = k := by omega
    simp only [same]
  · rw [if_neg, if_neg]
    · exact fun same => word (by rw [same])
    · rintro ⟨-, same⟩
      have same : f.2 + j / 4 = f.2 + k / 4 := same
      omega

theorem blk_setNameByte_of_ne {ch : Byte} (outside : ¬ (b = f.1 ∧ w = f.2 + k / 4)) :
    (s.setNameByte f k ch).blk b w = s.blk b w := by
  unfold setNameByte
  rw [blk_setWord, if_neg outside]

/-- A name that is stored changes the words it takes and nothing else. -/
theorem setNameFrom_frame (name : FsName) :
    ∀ (s : Fs) k, (s.setNameFrom f k name).nblocks = s.nblocks ∧
      (s.setNameFrom f k name).bitmap = s.bitmap ∧
      ∀ b w, ¬ (b = f.1 ∧ f.2 ≤ w ∧ w ≤ f.2 + (k + name.length) / 4) →
        (s.setNameFrom f k name).blk b w = s.blk b w := by
  induction name with
  | nil =>
      refine fun s k => ⟨rfl, rfl, fun b w outside => blk_setNameByte_of_ne ?_⟩
      rintro ⟨rfl, rfl⟩
      exact outside ⟨rfl, by omega, by simp⟩
  | cons ch name ih =>
      intro s k
      obtain ⟨nblocks, bitmap, blk⟩ := ih (s.setNameByte f k ch) (k + 1)
      refine ⟨nblocks, bitmap, fun b w outside => ?_⟩
      rw [List.length_cons] at outside
      refine (blk b w ?_).trans (blk_setNameByte_of_ne ?_)
      · rintro ⟨same, low, high⟩
        exact outside ⟨same, low, by omega⟩
      · rintro ⟨rfl, rfl⟩
        exact outside ⟨rfl, by omega, by omega⟩

theorem nameByte_setNameFrom_of_lt (name : FsName) :
    ∀ (s : Fs) k j, j < k → (s.setNameFrom f k name).nameByte f j = s.nameByte f j := by
  induction name with
  | nil =>
      intro s k j before
      rw [setNameFrom, nameByte_setNameByte, if_neg (by omega)]
  | cons ch name ih =>
      intro s k j before
      rw [setNameFrom, ih _ (k + 1) j (by omega), nameByte_setNameByte, if_neg (by omega)]

/-- The name that was stored is the one that is found. -/
theorem sameNameFrom_setNameFrom (name : FsName) :
    ∀ (s : Fs) k, (s.setNameFrom f k name).sameNameFrom f k name = true := by
  induction name with
  | nil =>
      intro s k
      rw [setNameFrom, sameNameFrom, nameByte_setNameByte, if_pos rfl]
      rfl
  | cons ch name ih =>
      intro s k
      rw [setNameFrom, sameNameFrom, ih, Bool.and_true,
        nameByte_setNameFrom_of_lt name _ (k + 1) k (by omega), nameByte_setNameByte, if_pos rfl,
        beq_self_eq_true]

/-! ## What stays as it was -/

/-- A tree whose blocks are in use, and whose directories end where their size
says. -/
structure Sound (s : Fs) : Prop extends s.Tree where
  inUse : ∀ f b, s.Under root f → s.FileBlock f b → s.InUse b
  ends : ∀ d, s.Under root d → s.fType d = FTYPE_DIR → ∀ i < NINDIRECT,
    (s.fSize d).toNat / 4096 ≤ i → s.fileSlot d i = 0

/-- Only the new file `f` and the growth of its directory `d` make a difference. -/
structure Touches (s : Fs) (d f : FilePtr) (n : Nat) (t : Fs) : Prop where
  place : s.Placed f ∨ 3 ≤ f.1 ∧ s.blockIsFree f.1 = true
  here : s.Placed f → f ∈ s.entries d
  notLive : ¬ s.Under root f
  blk : ∀ c w, c < 3 ∨ s.blockIsFree c = false → ¬ s.GrowWord d n c w →
    ¬ (c = f.1 ∧ f.2 ≤ w ∧ w < f.2 + 32) → t.blk c w = s.blk c w
  used : ∀ c, s.InUse c → t.InUse c

/-- The block of a structure is not given away. -/
theorem Sound.placed_taken (sound : s.Sound) (placed : s.Placed g) :
    g.1 < 3 ∨ s.blockIsFree g.1 = false := by
  obtain rfl | ⟨d, above, isDir, inDir⟩ := placed
  · exact Or.inl (by decide)
  · exact Or.inr (sound.inUse d _ above (sound.entryBlock above isDir inDir).1).2

theorem ne_of_free (taken : c < 3 ∨ s.blockIsFree c = false)
    (free : 3 ≤ b ∧ s.blockIsFree b = true) : c ≠ b := by
  rintro rfl
  rcases taken with low | used
  · omega
  · rw [used] at free
    cases free.2

theorem Touches.live_ne (touches : s.Touches d f n t) (under : s.Under root g) : g ≠ f :=
  fun same => touches.notLive (same ▸ under)

section Touches

variable (sound : s.Sound) (reach : s.Under root d) (isDir : s.fType d = FTYPE_DIR)
  (touches : s.Touches d f n t)

include sound touches

include reach

/-- The other structures, and name and type of the directory. -/
theorem Touches.struct (placed : s.Placed g) (other : g ≠ f) (low : w ≤ 44)
    (kept : g ≠ d ∨ w < 32 ∨ w = 33) : t.blk g.1 (g.2 + w) = s.blk g.1 (g.2 + w) := by
  refine touches.blk _ _ (sound.placed_taken placed) ?_ ?_
  · rintro (⟨same, word⟩ | ⟨present, same, -⟩)
    · by_cases self : g = d
      · obtain rfl := self
        have kept := kept.resolve_left (not_not_intro rfl)
        have ten : NDIRECT = 10 := rfl
        omega
      · have ten : NDIRECT = 10 := rfl
        exact sound.apart reach.placed placed self same low (by omega)
    · exact sound.placed_ne_indirect reach placed present same
  · rintro ⟨same, above, below⟩
    rcases touches.place with placedF | free
    · exact sound.apart placedF placed other same low (by omega)
    · exact ne_of_free (sound.placed_taken placed) free same

theorem Touches.fType (under : s.Under root g) : t.fType g = s.fType g :=
  touches.struct sound reach under.placed (touches.live_ne under) (by decide)
    (Or.inr (Or.inr rfl))

theorem Touches.sameName (placed : s.Placed g) (other : g ≠ f) (short : name.length < MAXNAMELEN) :
    t.sameName g name = s.sameName g name := by
  apply sameName_congr _ short
  intro k low
  unfold nameByte
  rw [touches.struct sound reach placed other (by omega) (Or.inr (Or.inl (by omega)))]

/-- The blocks of the other files. -/
theorem Touches.fileSlot (under : s.Under root g) (other : g ≠ d) (inside : i < NINDIRECT) :
    t.fileSlot g i = s.fileSlot g i := by
  have notNew := touches.live_ne under
  have there : t.fIndirect g = s.fIndirect g := congrArg BitVec.toNat
    (touches.struct sound reach under.placed notNew (by decide) (Or.inl other))
  by_cases direct : i < NDIRECT
  · have low : i < 10 := direct
    rw [fileSlot_direct direct, fileSlot_direct direct, Nat.add_assoc,
      touches.struct sound reach under.placed notNew (by omega) (Or.inl other)]
  · by_cases absent : s.fIndirect g = 0
    · rw [fileSlot_no_indirect (Nat.not_lt.mp direct) absent,
        fileSlot_no_indirect (Nat.not_lt.mp direct) (there.trans absent)]
    · have ptr : s.slotPtr g i = some (s.fIndirect g, i) := by
        rw [slotPtr, if_neg direct, if_pos ⟨inside, absent⟩]
      have block : s.FileBlock g (s.fIndirect g) := ⟨absent, Or.inl rfl⟩
      have taken := Or.inr (a := s.fIndirect g < 3) (sound.inUse g _ under block).2
      rw [fileSlot_of_same there ptr, fileSlot_of_same rfl ptr, touches.blk _ _ taken]
      · rintro (⟨same, -⟩ | ⟨present, same, -⟩)
        · exact sound.placed_ne_indirect under reach.placed absent same.symm
        · exact other (sound.owner g d _ under reach block (same ▸ ⟨present, Or.inl rfl⟩))
      · rintro ⟨same, -⟩
        rcases touches.place with placedF | free
        · exact sound.placed_ne_indirect under placedF absent same.symm
        · exact ne_of_free taken free same

include isDir

/-- What a file that is no directory holds. -/
theorem Touches.contents (under : s.Under root g) (notDir : s.fType g ≠ FTYPE_DIR)
    (inside : i < NINDIRECT) (holds : s.fileSlot g i ≠ 0) (w : Nat) :
    t.blk (s.fileSlot g i) w = s.blk (s.fileSlot g i) w := by
  have block : s.FileBlock g (s.fileSlot g i) := ⟨holds, Or.inr ⟨i, inside, rfl⟩⟩
  have taken := Or.inr (a := s.fileSlot g i < 3) (sound.inUse g _ under block).2
  have apart : ∀ h, s.Placed h → s.fileSlot g i ≠ h.1 := by
    rintro h (rfl | ⟨d', above, isDir', inDir⟩) same
    · exact sound.notReserved g _ under block (same ▸ reserved_root s)
    · have owned := (sound.entryBlock above isDir' inDir).1
      obtain rfl := sound.owner g d' _ under above block (same ▸ owned)
      exact notDir isDir'
  refine touches.blk _ _ taken ?_ ?_
  · rintro (⟨same, -⟩ | ⟨present, same, -⟩)
    · exact apart d reach.placed same
    · obtain rfl := sound.owner g d _ under reach block (same ▸ ⟨present, Or.inl rfl⟩)
      exact notDir isDir
  · rintro ⟨same, -⟩
    rcases touches.place with placedF | free
    · exact apart f placedF same
    · exact ne_of_free taken free same

end Touches

/-! ## The paths afterwards -/

theorem find?_congr_mem {α : Type} {p q : α → Bool} {l : List α} (same : ∀ a ∈ l, p a = q a) :
    l.find? p = l.find? q := by
  induction l with
  | nil => rfl
  | cons a l ih =>
      rw [List.find?_cons, List.find?_cons, same a List.mem_cons_self,
        ih fun a inList => same a (List.mem_cons_of_mem _ inList)]

/-- What the directory lists: `f` is one of its free entries, or the first of a new
block. -/
structure Lists (s : Fs) (d f : FilePtr) (extra : List FilePtr) (t : Fs) : Prop where
  entries : t.entries d = s.entries d ++ extra
  new : f ∈ s.entries d ∧ extra = [] ∨ ∃ rest, extra = f :: rest

theorem Lists.mem {extra : List FilePtr} (lists : s.Lists d f extra t) : f ∈ t.entries d := by
  rw [lists.entries]
  rcases lists.new with ⟨inDir, -⟩ | ⟨rest, rfl⟩
  · exact List.mem_append_left _ inDir
  · exact List.mem_append_right _ List.mem_cons_self

section Lists

variable {extra : List FilePtr} (sound : s.Sound) (reach : s.Under root d)
  (isDir : s.fType d = FTYPE_DIR) (touches : s.Touches d f n t) (lists : s.Lists d f extra t)
  (proper : Proper name) (named : t.sameName f name = true)

include sound reach isDir touches

/-- An entry that was there has the names it had, except for the new file. -/
theorem Touches.sameName_old {name' : FsName} (proper' : Proper name')
    (short' : name'.length < MAXNAMELEN) (inDir : g ∈ s.entries d)
    (other : t.sameName f name' = false) : t.sameName g name' = s.sameName g name' := by
  by_cases self : g = f
  · obtain rfl := self
    rw [other]
    refine (Bool.eq_false_iff.mpr fun same => ?_).symm
    exact touches.notLive (reach.entry isDir inDir (named_of_sameName proper' same))
  · exact touches.sameName sound reach (Or.inr ⟨d, reach, isDir, inDir⟩) self short'

include lists

/-- Another name is found where it was. -/
theorem Lists.lookup_other {name' : FsName} (proper' : Proper name')
    (short' : name'.length < MAXNAMELEN) (other : t.sameName f name' = false)
    (noOther : s.lookup d name' = none → ∀ g ∈ extra, g ≠ f → t.sameName g name' = false) :
    t.lookup d name' = s.lookup d name' := by
  have search : t.lookup d name' = (t.entries d).find? fun g => t.sameName g name' := rfl
  have old : (s.entries d).find? (fun g => t.sameName g name') = s.lookup d name' :=
    find?_congr_mem fun g inDir => by
      rw [touches.sameName_old sound reach isDir proper' short' inDir other]
  rw [search, lists.entries, List.find?_append, old]
  cases found : s.lookup d name' with
  | some g => rfl
  | none =>
      rw [Option.none_or, List.find?_eq_none]
      intro g inExtra
      by_cases self : g = f
      · rw [self, other]
        exact Bool.false_ne_true
      · rw [noOther found g inExtra self]
        exact Bool.false_ne_true

/-- The new name leads to the new file. -/
theorem Lists.lookup_self (named : t.sameName f name = true) (short : name.length < MAXNAMELEN)
    (missing : s.lookup d name = none) : t.lookup d name = some f := by
  have search : t.lookup d name = (t.entries d).find? fun g => t.sameName g name := rfl
  have others : ∀ g ∈ s.entries d, g ≠ f → t.sameName g name = false := by
    intro g inDir other
    rw [touches.sameName sound reach (Or.inr ⟨d, reach, isDir, inDir⟩) other short]
    exact Bool.eq_false_iff.mpr (List.find?_eq_none.mp missing g inDir)
  rw [search, lists.entries]
  rcases lists.new with ⟨inDir, rfl⟩ | ⟨rest, rfl⟩
  · rw [List.append_nil]
    cases found : (s.entries d).find? fun g => t.sameName g name with
    | none => exact absurd named (List.find?_eq_none.mp found f inDir)
    | some g =>
        by_cases self : g = f
        · rw [self]
        · have same := List.find?_some (p := fun g => t.sameName g name) found
          rw [others g (List.mem_of_find?_eq_some found) self] at same
          cases same
  · rw [List.find?_append, List.find?_cons_of_pos (p := fun g => t.sameName g name) named]
    cases found : (s.entries d).find? fun g => t.sameName g name with
    | none => rfl
    | some g =>
        by_cases self : g = f
        · rw [self]
          rfl
        · have same := List.find?_some (p := fun g => t.sameName g name) found
          rw [others g (List.mem_of_find?_eq_some found) self] at same
          cases same

end Lists

/-- The other directories list what they did. -/
theorem Touches.entries_eq (sound : s.Sound) (reach : s.Under root d) (touches : s.Touches d f n t)
    (under : s.Under root g) (isDir : s.fType g = FTYPE_DIR) (other : g ≠ d) :
    t.entries g = s.entries g := by
  have size : t.fSize g = s.fSize g :=
    touches.struct sound reach under.placed (touches.live_ne under) (by decide) (Or.inl other)
  unfold entries filesFrom
  rw [size]
  refine List.flatMap_congr fun k inRange => ?_
  have low := (List.mem_range'_1.mp inRange).2
  rw [touches.fileSlot sound reach under other (sound.present g under isDir k (by omega)).1]

theorem Touches.lookup_eq (sound : s.Sound) (reach : s.Under root d) (touches : s.Touches d f n t)
    (under : s.Under root g) (isDir : s.fType g = FTYPE_DIR) (other : g ≠ d)
    (short : name.length < MAXNAMELEN) (isDir' : s.fType d = FTYPE_DIR) :
    t.lookup g name = s.lookup g name := by
  have search : t.lookup g name = (t.entries g).find? fun h => t.sameName h name := rfl
  rw [search, touches.entries_eq sound reach under isDir other]
  refine find?_congr_mem fun h inDir => ?_
  have placed : s.Placed h := Or.inr ⟨g, under, isDir, inDir⟩
  rw [touches.sameName sound reach placed ?_ short]
  rintro rfl
  exact other (sound.parent_unique under isDir inDir reach isDir' (touches.here placed))

/-- A name that a path can have. -/
structure PathName (name : FsName) : Prop where
  proper : Proper name
  noSlash : ∀ c ∈ name, c ≠ slash

theorem not_sep_of_mem_splitOnP {q : Byte → Bool} (path : FsName) :
    ∀ name ∈ path.splitOnP q, ∀ c ∈ name, q c = false := by
  induction path with
  | nil => simp
  | cons a path ih =>
      intro name inSplit c inName
      rw [List.splitOnP_cons_eq_if_modifyHead] at inSplit
      split at inSplit
      · rcases List.mem_cons.mp inSplit with rfl | inSplit
        · cases inName
        · exact ih name inSplit c inName
      · next other =>
          cases split : path.splitOnP q with
          | nil => exact absurd split (List.splitOnP_ne_nil _ _)
          | cons head tail =>
              rw [split] at ih inSplit
              rcases List.mem_cons.mp inSplit with rfl | inSplit
              · rcases List.mem_cons.mp inName with rfl | inName
                · exact Bool.eq_false_iff.mpr other
                · exact ih head List.mem_cons_self c inName
              · exact ih name (List.mem_cons_of_mem _ inSplit) c inName

theorem pathName_of_mem (clean : ∀ c ∈ path, c ≠ 0) (inPath : name ∈ components path) :
    PathName name := by
  refine ⟨proper_of_mem clean inPath, fun c inName isSlash => ?_⟩
  have other := not_sep_of_mem_splitOnP path name (List.mem_filter.mp inPath).1 c inName
  rw [isSlash, beq_self_eq_true] at other
  cases other

/-- A directory `d` with a new file `f` of that name. -/
structure Created (s : Fs) (d f : FilePtr) (name : FsName) (n : Nat) (extra : List FilePtr)
    (t : Fs) : Prop where
  touches : s.Touches d f n t
  lists : s.Lists d f extra t
  named : t.sameName f name = true
  present : t.DirPresent d
  dirSlots : ∀ i < (s.fSize d).toNat / 4096, t.fileSlot d i = s.fileSlot d i

section Created

variable {extra : List FilePtr} {pre : List FsName} {dir₀ : Option FilePtr} (sound : s.Sound)
  (isDir : s.fType d = FTYPE_DIR) (created : s.Created d f name n extra t)
  (resolved : s.Resolved pre dir₀ d) (properPre : ∀ name ∈ pre, PathName name)
  (properName : PathName name) (short : name.length < MAXNAMELEN)
  (missing : s.lookup d name = none)

include sound isDir created resolved properPre properName missing

/-- What was found is found. -/
theorem Created.resolved_mono (before : s.Resolved names dir g)
    (proper : ∀ name ∈ names, PathName name) : t.Resolved names dir g := by
  have reach := resolved.under fun name h => (properPre name h).proper
  induction before with
  | root => exact .root
  | @down names name' dir d' g before short' isDir' found ih =>
      have properInit : ∀ name ∈ names, PathName name := fun name h =>
        proper name (List.mem_append_left _ h)
      have properLast := proper name' (List.mem_append_right _ (List.mem_singleton_self _))
      have above := before.under fun name h => (properInit name h).proper
      refine (ih properInit).down short' ?_ ?_
      · rw [created.touches.fType sound reach above, isDir']
      · by_cases self : d' = d
        · obtain rfl := self
          have other : t.sameName f name' = false := by
            refine Bool.eq_false_iff.mpr fun same => ?_
            have names' := sameNameFrom_inj name' name 0 properLast.proper.2 properName.proper.2
              same created.named
            rw [names', missing] at found
            cases found
          rw [created.lists.lookup_other sound reach isDir created.touches properLast.proper short'
            other, found]
          intro none
          rw [found] at none
          cases none
        · rw [created.touches.lookup_eq sound reach above isDir' self short' isDir, found]

include short

/-- The new file is found. -/
theorem Created.resolved_new : t.Resolved (pre ++ [name]) (some d) f := by
  have reach := resolved.under fun name h => (properPre name h).proper
  refine (created.resolved_mono sound isDir resolved properPre properName missing resolved
    properPre).down short ?_ ?_
  · rw [created.touches.fType sound reach reach, isDir]
  · exact created.lists.lookup_self sound reach isDir created.touches created.named short missing

/-- Nothing else is, when the new file is empty and its block brings no other. -/
theorem Created.resolved_iff (empty : (t.fSize f).toNat / 4096 = 0)
    (noOther : ∀ name', PathName name' → name'.length < MAXNAMELEN → name' ≠ name →
      s.lookup d name' = none → ∀ g ∈ extra, g ≠ f → t.sameName g name' = false)
    (proper : ∀ name ∈ names, PathName name) :
    t.Resolved names dir g ↔
      s.Resolved names dir g ∨ names = pre ++ [name] ∧ dir = some d ∧ g = f := by
  have reach := resolved.under fun name h => (properPre name h).proper
  constructor
  · intro after
    induction after with
    | root => exact Or.inl .root
    | @down names name' dir d' g after short' isDir' found ih =>
        have properInit : ∀ name ∈ names, PathName name := fun name h =>
          proper name (List.mem_append_left _ h)
        have properLast := proper name' (List.mem_append_right _ (List.mem_singleton_self _))
        rcases ih properInit with before | ⟨-, -, rfl⟩
        · have above := before.under fun name h => (properInit name h).proper
          rw [created.touches.fType sound reach above] at isDir'
          by_cases self : d' = d
          · obtain rfl := self
            by_cases same : t.sameName f name' = true
            · have names' := sameNameFrom_inj name' name 0 properLast.proper.2 properName.proper.2
                same created.named
              rw [names', created.lists.lookup_self sound reach isDir created.touches created.named
                short missing] at found
              refine Or.inr ⟨?_, rfl, (Option.some.inj found).symm⟩
              rw [names', before.names_unique sound.toTree resolved
                (fun name h => (properInit name h).proper) fun name h => (properPre name h).proper]
            · have other := Bool.eq_false_iff.mpr same
              have differ : name' ≠ name := by
                rintro rfl
                exact same created.named
              rw [created.lists.lookup_other sound reach isDir created.touches properLast.proper
                short' other (noOther name' properLast short' differ)] at found
              exact Or.inl (before.down short' isDir' found)
          · rw [created.touches.lookup_eq sound reach above isDir' self short' isDir] at found
            exact Or.inl (before.down short' isDir' found)
        · obtain ⟨k, low, -⟩ := mem_entries.mp (lookup_spec found).1
          omega
  · rintro (before | ⟨rfl, rfl, rfl⟩)
    · exact created.resolved_mono sound isDir resolved properPre properName missing before proper
    · exact created.resolved_new sound isDir resolved properPre properName short missing

omit isDir properName short missing in
/-- The directories that were there have their blocks. -/
theorem Created.present_live (above : s.Under root g) (isDir' : t.fType g = FTYPE_DIR) :
    t.DirPresent g := by
  have reach := resolved.under fun name h => (properPre name h).proper
  by_cases self : g = d
  · rw [self]
    exact created.present
  · have notNew := created.touches.live_ne above
    rw [created.touches.fType sound reach above] at isDir'
    intro i low
    have size : t.fSize g = s.fSize g :=
      created.touches.struct sound reach above.placed notNew (by decide) (Or.inl self)
    have there : t.fIndirect g = s.fIndirect g := congrArg BitVec.toNat
      (created.touches.struct sound reach above.placed notNew (by decide) (Or.inl self))
    rw [size] at low
    obtain ⟨inside, holds, used, indirect⟩ := sound.present g above isDir' i low
    rw [created.touches.fileSlot sound reach above self inside, there]
    exact ⟨inside, holds, created.touches.used _ used, fun beyond =>
      created.touches.used _ (indirect beyond)⟩

theorem Created.presentFor (empty : (t.fSize f).toNat / 4096 = 0)
    (noOther : ∀ name', PathName name' → name'.length < MAXNAMELEN → name' ≠ name →
      s.lookup d name' = none → ∀ g ∈ extra, g ≠ f → t.sameName g name' = false) :
    t.PresentFor PathName := by
  intro names dir d' after proper isDir'
  rcases (created.resolved_iff sound isDir resolved properPre properName short missing empty noOther
    proper).mp after with before | ⟨-, -, rfl⟩
  · exact created.present_live sound resolved properPre
      (before.under fun name h => (proper name h).proper) isDir'
  · intro i low
    omega

end Created

/-! ## The two ways a file is created -/

theorem fresh_withMapped (caches : s.CachesUsed s.mapped m) (free : s.blockIsFree b = true) :
    (s.withMapped m).fresh b w = s.fresh b w := by
  have same : (s.withMapped m).mapped b = s.mapped b := caches.free b free
  have blk : (s.withMapped m).blk b w = s.blk b w := rfl
  rw [fresh, fresh, same, blk]

theorem Grew.of_withMapped (caches : s.CachesUsed s.mapped m)
    (grew : (s.withMapped m).Grew d n b t) : s.Grew d n b t where
  next := grew.next
  nblocks := grew.nblocks
  used := grew.used
  free := grew.free
  notFree := grew.notFree
  shown w := (grew.shown w).trans (fresh_withMapped caches grew.free)
  same := grew.same
  size := grew.size
  slot := grew.slot
  low := grew.low
  indirect := grew.indirect

/-- The indirect block that block `n` of the directory needs shows no block there. -/
def CleanIndirect (s : Fs) (d : FilePtr) (n : Nat) : Prop :=
  NDIRECT ≤ n → s.fIndirect d = 0 → ∀ x, s.LowestFree x → s.fresh x n = 0

/-- A full directory that grows. -/
theorem Sound.grew (sound : s.Sound) (mounted : s.Mounted) (reach : s.Under root d)
    (isDir : s.fType d = FTYPE_DIR) (caches : s.CachesUsed s.mapped m)
    (indirect : s.CleanIndirect d ((s.fSize d).toNat / 4096))
    (run : (s.withMapped m).dirGrow d ((s.fSize d).toNat / 4096) = (.ok f, t)) :
    ∃ b, f = (b, 0) ∧ (s.fSize d).toNat / 4096 < NINDIRECT ∧
      s.Grew d ((s.fSize d).toNat / 4096) b t := by
  have empty : (s.fSize d).toNat / 4096 < NINDIRECT →
      s.fileSlot d ((s.fSize d).toNat / 4096) = 0 := fun inside =>
    sound.ends d reach isDir _ inside (Nat.le_refl _)
  have present : ∀ i < (s.fSize d).toNat / 4096, s.fileSlot d i ≠ 0 := fun i low =>
    (sound.present d reach isDir i low).2.1
  generalize (s.fSize d).toNat / 4096 = n at *
  have here := sound.placed_taken reach.placed
  have mounted' : (s.withMapped m).Mounted :=
    ⟨mounted.synced.withMapped caches.grows, mounted.size⟩
  have same : ((s.withMapped m).setWord (sizePtr d) ((s.withMapped m).fSize d + 4096)).fileGetBlock
      d n = ((s.withMapped m).grown d).fileGetBlock d n := rfl
  rw [dirGrow, same] at run
  rcases get : ((s.withMapped m).grown d).fileGetBlock d n with ⟨r, u⟩
  rw [get] at run
  cases r with
  | error e => cases run
  | ok b =>
      cases run
      have ok : (((s.withMapped m).grown d).fileGetBlock d n).1 = .ok b := by rw [get]
      have state : (((s.withMapped m).grown d).fileGetBlock d n).2 = t := by rw [get]
      have inside : n < NINDIRECT := by
        by_contra outside
        have beyond : ¬ n < NDIRECT := fun direct => outside (Nat.lt_trans direct (by decide))
        rw [fileGetBlock, fileMapBlock, fileBlockWalk, if_neg beyond, if_neg outside] at ok
        cases ok
      refine ⟨b, rfl, inside, Grew.of_withMapped caches ?_⟩
      rw [← state]
      by_cases direct : n < NDIRECT
      · exact grew_direct mounted' here direct (empty inside) ok
      by_cases absent : s.fIndirect d = 0
      · refine grew_new_indirect mounted' here ?_ absent (fun x lowest => ?_) ok
        · refine Nat.le_antisymm (Nat.not_lt.mp fun above => ?_) (Nat.not_lt.mp direct)
          exact present NDIRECT above (fileSlot_no_indirect (Nat.le_refl _) absent)
        · have lowest' : s.LowestFree x := lowest
          rw [fresh_withMapped caches lowest'.2.1]
          exact indirect (Nat.not_lt.mp direct) absent x lowest'
      · refine grew_indirect mounted' here (Nat.not_lt.mp direct) inside absent ?_ (empty inside) ok
        exact (sound.placed_ne_indirect reach reach.placed absent).symm

theorem inUse_congr (nblocks : t.nblocks = s.nblocks) (bitmap : t.bitmap = s.bitmap) :
    t.InUse c ↔ s.InUse c := by
  unfold InUse blockIsFree bit
  rw [nblocks, bitmap]

/-- A free entry takes the name. -/
theorem Sound.created_entry (sound : s.Sound) (name : FsName) (reach : s.Under root d)
    (isDir : s.fType d = FTYPE_DIR) (short : name.length < MAXNAMELEN)
    (found : (s.entries d).find? s.isFreeEntry = some f) :
    s.Created d f name ((s.fSize d).toNat / 4096) [] ((s.withMapped m).setNameFrom f 0 name) ∧
      ∀ c w, ¬ (c = f.1 ∧ f.2 ≤ w ∧ w < f.2 + 32) →
        ((s.withMapped m).setNameFrom f 0 name).blk c w = s.blk c w := by
  have inDir := List.mem_of_find?_eq_some found
  have free := List.find?_some found
  have placed : s.Placed f := Or.inr ⟨d, reach, isDir, inDir⟩
  have notLive : ¬ s.Under root f := by
    intro under
    cases under with
    | refl => exact sound.entry_ne_root reach isDir inDir rfl
    | entry _ _ _ named =>
        rw [Named, free] at named
        cases named
  have other : d ≠ f := fun same => notLive (same ▸ reach)
  obtain ⟨nblocks, bitmap, frame⟩ := setNameFrom_frame (f := f) name (s.withMapped m) 0
  have named := sameNameFrom_setNameFrom (f := f) name (s.withMapped m) 0
  generalize (s.withMapped m).setNameFrom f 0 name = t at *
  have short : name.length < 128 := short
  have blk : ∀ c w, ¬ (c = f.1 ∧ f.2 ≤ w ∧ w < f.2 + 32) → t.blk c w = s.blk c w := by
    intro c w outside
    refine frame c w ?_
    rintro ⟨same, low, high⟩
    exact outside ⟨same, low, by omega⟩
  have dirStruct : ∀ w ≤ 44, t.blk d.1 (d.2 + w) = s.blk d.1 (d.2 + w) := by
    intro w low
    refine blk _ _ ?_
    rintro ⟨same, above, below⟩
    exact sound.apart placed reach.placed other same low (by omega)
  have used : ∀ c, t.InUse c ↔ s.InUse c := fun c => inUse_congr nblocks bitmap
  have size : t.fSize d = s.fSize d := dirStruct 32 (by decide)
  have there : t.fIndirect d = s.fIndirect d := congrArg BitVec.toNat (dirStruct 44 (by decide))
  have slots : ∀ i < NINDIRECT, t.fileSlot d i = s.fileSlot d i := by
    intro i inside
    by_cases direct : i < NDIRECT
    · have low : i < 10 := direct
      rw [fileSlot_direct direct, fileSlot_direct direct, Nat.add_assoc, dirStruct _ (by omega)]
    · by_cases absent : s.fIndirect d = 0
      · rw [fileSlot_no_indirect (Nat.not_lt.mp direct) absent,
          fileSlot_no_indirect (Nat.not_lt.mp direct) (there.trans absent)]
      · have ptr : s.slotPtr d i = some (s.fIndirect d, i) := by
          rw [slotPtr, if_neg direct, if_pos ⟨inside, absent⟩]
        rw [fileSlot_of_same there ptr, fileSlot_of_same rfl ptr, blk]
        exact fun both => sound.placed_ne_indirect reach placed absent both.1.symm
  refine ⟨⟨⟨Or.inl placed, fun _ => inDir, notLive, fun c w _ _ outside => blk c w outside,
    fun c => (used c).mpr⟩, ⟨?_, Or.inl ⟨inDir, rfl⟩⟩, named, fun i low => ?_, fun i low =>
      slots i (sound.present d reach isDir i low).1⟩, blk⟩
  · rw [List.append_nil]
    unfold entries filesFrom
    rw [size]
    refine List.flatMap_congr fun k inRange => ?_
    have low := (List.mem_range'_1.mp inRange).2
    rw [slots k (sound.present d reach isDir k (by omega)).1]
  · rw [size] at low
    obtain ⟨inside, holds, isUsed, indirect⟩ := sound.present d reach isDir i low
    rw [slots i inside, there, used, used]
    exact ⟨inside, holds, isUsed, indirect⟩

/-- A directory that has grown takes the name in its new block. -/
theorem Sound.created_block (sound : s.Sound) (name : FsName) (reach : s.Under root d)
    (isDir : s.fType d = FTYPE_DIR) (short : name.length < MAXNAMELEN)
    (inside : (s.fSize d).toNat / 4096 < NINDIRECT)
    (grew : s.Grew d ((s.fSize d).toNat / 4096) b u) :
    s.Created d (b, 0) name ((s.fSize d).toNat / 4096) (filesOf b) (u.setNameFrom (b, 0) 0 name) ∧
      ∀ w, 32 ≤ w → (u.setNameFrom (b, 0) 0 name).blk b w = s.fresh b w := by
  have low : 3 ≤ b := by
    have next := grew.next
    unfold NextBlock at next
    split at next
    · exact next.1
    · obtain ⟨x, -, lowest⟩ := next
      exact lowest.1
  have free : 3 ≤ ((b, 0) : FilePtr).1 ∧ s.blockIsFree ((b, 0) : FilePtr).1 = true :=
    ⟨low, grew.free⟩
  have notPlaced : ¬ s.Placed (b, 0) := fun placed =>
    ne_of_free (sound.placed_taken placed) free rfl
  have apart : d.1 ≠ b := ne_of_free (sound.placed_taken reach.placed) free
  obtain ⟨nblocks, bitmap, frame⟩ := setNameFrom_frame (f := (b, 0)) name u 0
  have named := sameNameFrom_setNameFrom (f := (b, 0)) name u 0
  generalize u.setNameFrom (b, 0) 0 name = t at *
  have short : name.length < 128 := short
  have blk : ∀ c w, ¬ (c = b ∧ w < 32) → t.blk c w = u.blk c w := by
    intro c w outside
    refine frame c w ?_
    rintro ⟨same, -, high⟩
    have high : w ≤ 0 + (0 + name.length) / 4 := high
    exact outside ⟨same, by omega⟩
  have used : ∀ c, u.InUse c → t.InUse c := fun c => (inUse_congr nblocks bitmap).mpr
  have used' : ∀ c, s.InUse c → t.InUse c := fun c isUsed =>
    used c ⟨grew.nblocks.symm ▸ isUsed.1, grew.used c isUsed.2⟩
  have there : t.fIndirect d = u.fIndirect d :=
    congrArg BitVec.toNat (blk _ _ fun both => apart both.1)
  generalize count : (s.fSize d).toNat / 4096 = n at *
  have size : (t.fSize d).toNat / 4096 = n + 1 := by
    have grown : t.fSize d = s.fSize d + 4096 :=
      (blk _ _ fun both => apart both.1).trans grew.size
    have few : n < 1024 := inside
    rw [grown, BitVec.toNat_add, show (4096 : Word).toNat = 4096 from rfl]
    omega
  have slots : ∀ i ≤ n, t.fileSlot d i = u.fileSlot d i := by
    intro i upTo
    cases ptr : u.slotPtr d i with
    | none => rw [(fileSlot_none there ptr).1, (fileSlot_none there ptr).2]
    | some p =>
        obtain ⟨c, w⟩ := p
        rw [fileSlot_of_same there ptr, fileSlot_of_same rfl ptr, blk]
        rintro ⟨rfl, -⟩
        unfold slotPtr at ptr
        split at ptr
        · exact apart (congrArg Prod.fst (Option.some.inj ptr))
        · next beyond =>
            split at ptr
            · have beyond' : NDIRECT ≤ n := (Nat.not_lt.mp beyond).trans upTo
              exact (grew.indirect beyond').2 (congrArg Prod.fst (Option.some.inj ptr))
            · cases ptr
  have slot : t.fileSlot d n = b := (slots n (Nat.le_refl n)).trans grew.slot
  have old : ∀ i < n, t.fileSlot d i = s.fileSlot d i := fun i before =>
    (slots i (Nat.le_of_lt before)).trans (grew.low i before)
  refine ⟨⟨⟨Or.inr free, fun placed => absurd placed notPlaced, fun under => notPlaced under.placed,
    fun c w taken outside _ => ?_, used'⟩, ⟨?_, Or.inr ?_⟩, named, fun i before => ?_,
    fun i before => old i (count ▸ before)⟩, fun w high => ?_⟩
  · rw [blk c w fun both => ne_of_free taken free both.1]
    exact grew.same c w taken outside
  · unfold entries filesFrom
    rw [size, count, List.range'_1_concat, List.flatMap_append, List.flatMap_singleton,
      Nat.zero_add, slot]
    refine congrArg (· ++ filesOf b) (List.flatMap_congr fun k inRange => ?_)
    rw [old k (by have := (List.mem_range'_1.mp inRange).2; omega)]
  · exact ⟨_, rfl⟩
  · rw [size] at before
    rcases Nat.lt_succ_iff_lt_or_eq.mp before with isOld | rfl
    · obtain ⟨inside', holds, isUsed, -⟩ := sound.present d reach isDir i (count.symm ▸ isOld)
      rw [old i isOld]
      refine ⟨inside', holds, used' _ isUsed, fun beyond => ?_⟩
      rw [there]
      exact used _ (grew.indirect (beyond.trans (Nat.le_of_lt isOld))).1
    · rw [slot]
      refine ⟨inside, by omega, used _ ⟨?_, grew.notFree⟩, fun beyond => ?_⟩
      · rw [grew.nblocks]
        exact lt_of_blockIsFree grew.free
      · rw [there]
        exact used _ (grew.indirect beyond).1
  · rw [blk b w (by omega)]
    exact grew.shown w

/-! ## Exactly one new file -/

/-- No size and no block. -/
def Blank (s : Fs) (f : FilePtr) : Prop :=
  s.fSize f = 0 ∧ s.fIndirect f = 0 ∧ ∀ i < NINDIRECT, s.fileSlot f i = 0

/-- The directory that the path is in. -/
def Parent (s : Fs) (path : FsName) (d : FilePtr) : Prop :=
  ∃ pre name dir, components path = pre ++ [name] ∧ s.Resolved pre dir d

/-- One more path resolves, to the empty file `f`; the other files are as they were,
but for the directory that got a block. -/
structure AddsOne (s : Fs) (path : FsName) (f : FilePtr) (t : Fs) : Prop where
  paths : ∀ p : FsName, (∀ c ∈ p, c ≠ 0) →
    (t.Resolves p ↔ s.Resolves p ∨ components p = components path)
  struct : ∀ g, s.Under root g → ¬ s.Parent path g → ∀ w ≤ 44,
    t.blk g.1 (g.2 + w) = s.blk g.1 (g.2 + w)
  slots : ∀ g, s.Under root g → ¬ s.Parent path g → ∀ i < NINDIRECT,
    t.fileSlot g i = s.fileSlot g i
  contents : ∀ g, s.Under root g → s.fType g ≠ FTYPE_DIR → ∀ i < NINDIRECT, s.fileSlot g i ≠ 0 →
    ∀ w, t.blk (s.fileSlot g i) w = s.blk (s.fileSlot g i) w
  parent : ∀ d, s.Parent path d → t.fType d = s.fType d ∧
    ∀ i < (s.fSize d).toNat / 4096, t.fileSlot d i = s.fileSlot d i
  blank : t.Blank f

/-- Block `b` with what it shows once it is allocated. -/
def showing (s : Fs) (b : Nat) : Fs :=
  { s with blk := fun c w => if c = b then s.fresh b w else s.blk c w }

/-- The entry that is taken is blank, and no other entry of a block that is added
has a new name. -/
def CleanEntry (s : Fs) (path : FsName) : Prop :=
  ∀ pre name dir d, components path = pre ++ [name] → s.Resolved pre dir d →
    (∀ f, (s.entries d).find? s.isFreeEntry = some f → s.Blank f) ∧
    (s.DirFull d → ∀ b, s.NextBlock d ((s.fSize d).toNat / 4096) b →
      (s.showing b).Blank (b, 0) ∧
      ∀ name', PathName name' → name'.length < MAXNAMELEN → name' ≠ name →
        s.lookup d name' = none → ∀ g ∈ filesOf b, g ≠ (b, 0) →
          (s.showing b).sameName g name' = false)

theorem blank_congr (same : ∀ w, 32 ≤ w → w ≤ 44 → t.blk f.1 (f.2 + w) = s.blk f.1 (f.2 + w)) :
    t.Blank f ↔ s.Blank f := by
  have size : t.fSize f = s.fSize f := same 32 (by decide) (by decide)
  have there : t.fIndirect f = s.fIndirect f :=
    congrArg BitVec.toNat (same 44 (by decide) (by decide))
  unfold Blank
  rw [size, there]
  refine and_congr_right fun _ => and_congr_right fun absent => forall_congr' fun i =>
    imp_congr_right fun _ => ?_
  by_cases direct : i < NDIRECT
  · have low : i < 10 := direct
    rw [fileSlot_direct direct, fileSlot_direct direct, Nat.add_assoc,
      same _ (by omega) (by omega)]
  · rw [fileSlot_no_indirect (Nat.not_lt.mp direct) absent,
      fileSlot_no_indirect (Nat.not_lt.mp direct) (there.trans absent)]

/-- A path with these names. -/
theorem exists_path (proper : ∀ name ∈ names, PathName name) :
    ∃ p : FsName, (∀ c ∈ p, c ≠ 0) ∧ components p = names := by
  induction names with
  | nil => exact ⟨[], nofun, components_nil⟩
  | cons name names ih =>
      obtain ⟨p, clean, comps⟩ := ih fun name h => proper name (List.mem_cons_of_mem _ h)
      obtain ⟨⟨nonempty, noZero⟩, noSlash⟩ := proper name List.mem_cons_self
      refine ⟨name ++ slash :: p, fun c inPath => ?_, ?_⟩
      · rcases List.mem_append.mp inPath with inName | inRest
        · exact noZero c inName
        · rcases List.mem_cons.mp inRest with rfl | inRest
          · decide
          · exact clean c inRest
      · have first : (name ++ slash :: p).splitOnP (· == slash) =
            name :: p.splitOnP (· == slash) :=
          List.splitOnP_append_cons_of_forall_mem
            (fun c inName => by simpa using noSlash c inName) slash (by simp) p
        rw [components, first, ← comps, components]
        simp [nonempty]

theorem Resolved.of_prefix {names' : List FsName} (resolved : s.Resolved names dir g) :
    names' <+: names → ∃ dir' g', s.Resolved names' dir' g' := by
  induction resolved with
  | root =>
      intro under
      rw [List.prefix_nil.mp under]
      exact ⟨_, _, .root⟩
  | down before short isDir found ih =>
      intro under
      rcases List.prefix_concat_iff.mp under with rfl | under
      · exact ⟨_, _, before.down short isDir found⟩
      · exact ih under

/-- A walk whose directories have their blocks. -/
theorem Resolved.walk (resolved : s.Resolved names dir g)
    (present : ∀ names' dir' d, s.Resolved names' dir' d → names' <+: names → names' ≠ names →
      s.fType d = FTYPE_DIR → s.DirPresent d) :
    ∀ post m, ∃ m', (s.withMapped m).walkNames none Fs.root (names ++ post) =
      (s.withMapped m').walkNames dir g post := by
  induction resolved with
  | root => exact fun post m => ⟨m, rfl⟩
  | @down names name dir d f before short isDir found ih =>
      intro post m
      obtain ⟨m₁, walk⟩ := ih (fun names' dir' d' resolved' under _ =>
        present names' dir' d' resolved' (under.trans (List.prefix_append _ _)) fun same => by
          have length := under.length_le
          rw [same, List.length_append, List.length_singleton] at length
          omega) (name :: post) m
      have there := present names dir d before (List.prefix_append _ _) (by simp) isDir
      obtain ⟨m₂, run, -⟩ := dirLookup_present there name m₁
      refine ⟨m₂, ?_⟩
      have isDir' : ¬ (s.withMapped m₁).fType d ≠ FTYPE_DIR := not_not_intro isDir
      rw [List.append_assoc, List.singleton_append, walk, walkNames, if_neg (Nat.not_le.mpr short),
        if_neg isDir', run, found]

section Created

variable {extra : List FilePtr} {pre : List FsName} {dir₀ : Option FilePtr} (sound : s.Sound)
  (isDir : s.fType d = FTYPE_DIR) (created : s.Created d f name n extra t)
  (clean : ∀ c ∈ path, c ≠ 0) (comps : components path = pre ++ [name])
  (resolved : s.Resolved pre dir₀ d) (short : name.length < MAXNAMELEN)
  (missing : s.lookup d name = none)

include sound isDir created clean comps resolved short missing

omit short in
/-- A new name in the new block is one more path. -/
theorem Created.other_resolves {name' : FsName} (properName' : PathName name')
    (short' : name'.length < MAXNAMELEN) (inExtra : g ∈ extra) (same : t.sameName g name' = true) :
    ∃ p : FsName, (∀ c ∈ p, c ≠ 0) ∧ components p = pre ++ [name'] ∧ t.Resolves p := by
  have proper : ∀ name' ∈ pre ++ [name], PathName name' := fun name' h =>
    pathName_of_mem clean (comps ▸ h)
  have properPre : ∀ name ∈ pre, PathName name := fun name h =>
    proper name (List.mem_append_left _ h)
  have properName := proper name (List.mem_append_right _ (List.mem_singleton_self _))
  have reach := resolved.under fun name h => (properPre name h).proper
  obtain ⟨p, clean', comps'⟩ := exists_path (forall_mem_concat properPre properName')
  have isDir' : t.fType d = FTYPE_DIR := by
    rw [created.touches.fType sound reach reach, isDir]
  have mono : ∀ names dir g, s.Resolved names dir g → names <+: pre → t.Resolved names dir g :=
    fun names dir g before under => created.resolved_mono sound isDir resolved properPre properName
      missing before fun name h => properPre name (under.subset h)
  have present : ∀ names dir d', t.Resolved names dir d' → names <+: pre →
      t.fType d' = FTYPE_DIR → t.DirPresent d' := by
    intro names dir d' after under isDir'
    obtain ⟨dir', g', before⟩ := resolved.of_prefix under
    obtain rfl := (mono names dir' g' before under).file_unique after
    exact created.present_live sound resolved properPre
      (before.under fun name h => (properPre name (under.subset h)).proper) isDir'
  obtain ⟨g', found⟩ : ∃ g', t.lookup d name' = some g' := by
    cases found : t.lookup d name' with
    | some g' => exact ⟨g', rfl⟩
    | none =>
        have inDir : g ∈ t.entries d := by
          rw [created.lists.entries]
          exact List.mem_append_right _ inExtra
        exact absurd same (List.find?_eq_none.mp found g inDir)
  have after : t.Resolved (pre ++ [name']) (some d) g' :=
    (mono pre dir₀ d resolved (List.prefix_refl _)).down short' isDir' found
  refine ⟨p, clean', comps', ?_⟩
  have onWay : ∀ names dir d', t.Resolved names dir d' → names <+: pre ++ [name'] →
      names ≠ pre ++ [name'] → t.fType d' = FTYPE_DIR → t.DirPresent d' :=
    fun names dir d' h under other =>
      present names dir d' h ((List.prefix_concat_iff.mp under).resolve_left other)
  obtain ⟨m, walk⟩ := after.walk onWay [] t.mapped
  rw [List.append_nil, ← comps'] at walk
  have walk' : t.walkNames none root (components p) = _ := walk
  rw [Resolves, walkPath_eq, walk', walkNames]

/-- One file was added exactly when the entry is blank and its block brought no
other. -/
theorem Created.addsOne_iff : s.AddsOne path f t ↔ t.Blank f ∧
    ∀ name', PathName name' → name'.length < MAXNAMELEN → name' ≠ name →
      s.lookup d name' = none → ∀ g ∈ extra, g ≠ f → t.sameName g name' = false := by
  have proper : ∀ name' ∈ pre ++ [name], PathName name' := fun name' h =>
    pathName_of_mem clean (comps ▸ h)
  have properPre : ∀ name ∈ pre, PathName name := fun name h =>
    proper name (List.mem_append_left _ h)
  have properName := proper name (List.mem_append_right _ (List.mem_singleton_self _))
  have reach := resolved.under fun name h => (properPre name h).proper
  have presentFor : s.PresentFor PathName := fun names dir d' before proper isDir' =>
    sound.present d' (before.under fun name h => (proper name h).proper) isDir'
  constructor
  · intro adds
    refine ⟨adds.blank, fun name' properName' short' other none g inExtra _ => ?_⟩
    refine Bool.eq_false_iff.mpr fun same => ?_
    obtain ⟨p, clean', comps', resolves⟩ := created.other_resolves sound isDir clean comps resolved
      missing properName' short' inExtra same
    rcases (adds.paths p clean').mp resolves with before | same
    · obtain ⟨dir', g', before⟩ := (resolves_iff presentFor fun name h =>
        pathName_of_mem clean' h).mp before
      rw [comps'] at before
      generalize whole : pre ++ [name'] = names at before
      cases before with
      | root => simp at whole
      | down before' _ _ found =>
          obtain ⟨rfl, last⟩ := List.append_inj' whole rfl
          obtain rfl := List.singleton_inj.mp last
          obtain rfl := before'.file_unique resolved
          rw [none] at found
          cases found
    · rw [comps', comps] at same
      exact other (List.singleton_inj.mp (List.append_cancel_left same))
  · rintro ⟨blank, noOther⟩
    have empty : (t.fSize f).toNat / 4096 = 0 := by
      rw [blank.1]
      rfl
    have notParent : ∀ g, ¬ s.Parent path g → g ≠ d := by
      rintro g notParent rfl
      exact notParent ⟨pre, name, dir₀, comps, resolved⟩
    refine ⟨fun p clean' => ?_, fun g under other w low => ?_, fun g under other i inside => ?_,
      fun g under notDir i inside holds w => ?_, ?_, blank⟩
    · have proper' : ∀ name ∈ components p, PathName name := fun name h => pathName_of_mem clean' h
      rw [resolves_iff presentFor proper', resolves_iff (created.presentFor sound isDir resolved
        properPre properName short missing empty noOther) proper', comps]
      simp only [created.resolved_iff sound isDir resolved properPre properName short missing empty
        noOther proper']
      constructor
      · rintro ⟨dir, g, before | ⟨same, -, -⟩⟩
        · exact Or.inl ⟨dir, g, before⟩
        · exact Or.inr same
      · rintro (⟨dir, g, before⟩ | same)
        · exact ⟨dir, g, Or.inl before⟩
        · exact ⟨some d, f, Or.inr ⟨same, rfl, rfl⟩⟩
    · exact created.touches.struct sound reach under.placed (created.touches.live_ne under) low
        (Or.inl (notParent g other))
    · exact created.touches.fileSlot sound reach under (notParent g other) inside
    · exact created.touches.contents sound reach isDir under notDir inside holds w
    · rintro d' ⟨pre', name', dir', comps', resolved'⟩
      obtain ⟨rfl, -⟩ := List.append_inj' (comps.symm.trans comps') rfl
      obtain rfl := resolved.file_unique resolved'
      exact ⟨created.touches.fType sound reach reach, created.dirSlots⟩

end Created

/-- The entries of a new block have the names that the block shows. -/
theorem sameName_showing (shown : ∀ w, 32 ≤ w → t.blk b w = s.fresh b w) (inFiles : g ∈ filesOf b)
    (other : g ≠ (b, 0)) (name' : FsName) :
    t.sameName g name' = (s.showing b).sameName g name' := by
  obtain ⟨j, -, rfl⟩ := List.mem_map.mp inFiles
  have later : 0 < j := by
    rcases Nat.eq_zero_or_pos j with rfl | later
    · exact absurd rfl other
    · exact later
  refine sameNameFrom_congr (fun k => ?_) name' 0
  have word : t.blk b (64 * j + k / 4) = (s.showing b).blk b (64 * j + k / 4) := by
    rw [shown _ (by omega)]
    exact (if_pos rfl).symm
  unfold nameByte
  rw [word]

/-- The condition of `CleanEntry` at the directory of the path. -/
def CleanIn (s : Fs) (d : FilePtr) (name : FsName) : Prop :=
  (∀ f, (s.entries d).find? s.isFreeEntry = some f → s.Blank f) ∧
    (s.DirFull d → ∀ b, s.NextBlock d ((s.fSize d).toNat / 4096) b →
      (s.showing b).Blank (b, 0) ∧
      ∀ name', PathName name' → name'.length < MAXNAMELEN → name' ≠ name →
        s.lookup d name' = none → ∀ g ∈ filesOf b, g ≠ (b, 0) →
          (s.showing b).sameName g name' = false)

section CleanIn

variable {pre : List FsName} {dir₀ : Option FilePtr} (sound : s.Sound)
  (isDir : s.fType d = FTYPE_DIR) (clean : ∀ c ∈ path, c ≠ 0)
  (comps : components path = pre ++ [name]) (resolved : s.Resolved pre dir₀ d)
  (reach : s.Under root d) (short : name.length < MAXNAMELEN) (missing : s.lookup d name = none)

include comps resolved

theorem cleanEntry_iff : s.CleanEntry path ↔ s.CleanIn d name := by
  constructor
  · exact fun entry => entry pre name dir₀ d comps resolved
  · rintro entry pre' name' dir' d' comps' resolved'
    obtain ⟨rfl, last⟩ := List.append_inj' (comps.symm.trans comps') rfl
    obtain rfl := List.singleton_inj.mp last
    obtain rfl := resolved.file_unique resolved'
    exact entry

include sound isDir clean reach short missing

/-- A file in an entry that was free. -/
theorem Sound.addsOne_entry (found : (s.entries d).find? s.isFreeEntry = some f)
    (notFull : ¬ s.DirFull d) :
    s.AddsOne path f ((s.withMapped m).setNameFrom f 0 name) ↔ s.CleanIn d name := by
  obtain ⟨created, same⟩ := sound.created_entry (m := m) name reach isDir short found
  rw [created.addsOne_iff sound isDir clean comps resolved short missing,
    blank_congr fun w high low => same _ _ fun both => by omega]
  constructor
  · rintro ⟨blank, -⟩
    refine ⟨fun g first => ?_, fun full => absurd full notFull⟩
    rw [← Option.some.inj (found.symm.trans first)]
    exact blank
  · exact fun both => ⟨both.1 f found, fun _ _ _ _ _ _ inNil => absurd inNil List.not_mem_nil⟩

/-- A file in a block that was added. -/
theorem Sound.addsOne_block (full : s.DirFull d) (inside : (s.fSize d).toNat / 4096 < NINDIRECT)
    (grew : s.Grew d ((s.fSize d).toNat / 4096) b u) :
    s.AddsOne path (b, 0) (u.setNameFrom (b, 0) 0 name) ↔ s.CleanIn d name := by
  obtain ⟨created, shown⟩ := sound.created_block name reach isDir short inside grew
  have blank : (u.setNameFrom (b, 0) 0 name).Blank (b, 0) ↔ (s.showing b).Blank (b, 0) :=
    blank_congr fun w high low => by
      have at_w : ((b, 0) : FilePtr).2 + w = w := Nat.zero_add w
      rw [at_w, shown w high]
      exact (if_pos rfl).symm
  rw [created.addsOne_iff sound isDir clean comps resolved short missing, blank]
  constructor
  · rintro ⟨isBlank, noOther⟩
    refine ⟨fun g first => ?_, fun _ c next => ?_⟩
    · have taken := full g (List.mem_of_find?_eq_some first)
      rw [List.find?_some first] at taken
      cases taken
    · obtain rfl := next.unique grew.next
      refine ⟨isBlank, fun name' properName short' other none g inFiles differs => ?_⟩
      rw [← sameName_showing shown inFiles differs]
      exact noOther name' properName short' other none g inFiles differs
  · rintro ⟨-, entry⟩
    obtain ⟨isBlank, noOther⟩ := entry full b grew.next
    refine ⟨isBlank, fun name' properName short' other none g inFiles differs => ?_⟩
    rw [sameName_showing shown inFiles differs]
    exact noOther name' properName short' other none g inFiles differs

end CleanIn

/-- In a sound tree `file_create` adds exactly one empty file when the entry it takes is
blank and the block it may add to the directory shows no file of a new name, and in no
other case. -/
theorem Sound.addsOne_iff (sound : s.Sound) (mounted : s.Mounted) (path : FsName)
    (clean : ∀ c ∈ path, c ≠ 0) (f : FilePtr) (t : Fs) (run : s.fileCreate path = (.ok f, t))
    (indirect : ∀ d, s.Parent path d → s.CleanIndirect d ((s.fSize d).toNat / 4096)) :
    s.AddsOne path f t ↔ s.CleanEntry path := by
  have presentFor : s.PresentFor PathName := fun names dir d before proper isDir =>
    sound.present d (before.under fun name h => (proper name h).proper) isDir
  have proper : ∀ name ∈ components path, PathName name := fun name h => pathName_of_mem clean h
  obtain ⟨w, m, walk, outcome⟩ :=
    walkNames_outcome presentFor (components path) proper [] none root s.mapped .root
      fun _ inNil => absurd inNil List.not_mem_nil
  have walk : s.walkPath path = (w, s.withMapped m) := (walkPath_eq s path).trans walk
  cases outcome with
  | found | long | notDir | missing =>
      rw [fileCreate, walk] at run
      cases run
  | @lastMissing pre name dir d comps resolved short isDir missing =>
      have comps : components path = pre ++ [name] := comps
      have properPre : ∀ name ∈ pre, PathName name := fun name h =>
        proper name (comps.symm ▸ List.mem_append_left _ h)
      have reach := resolved.under fun name h => (properPre name h).proper
      obtain ⟨m₁, walk', caches⟩ :=
        walkPath_lastMissing presentFor properPre comps resolved short isDir missing
      rw [fileCreate, walk'] at run
      have run : (s.withMapped m₁).createIn d name .notFound = (.ok f, t) := run
      rw [cleanEntry_iff comps resolved]
      obtain ⟨m₂, caches', ⟨⟨f', alloc, found⟩, notFull⟩ | ⟨alloc, full⟩⟩ :=
        dirAllocFile_present (sound.present d reach isDir) m₁
      · rw [createIn, alloc] at run
        cases run
        exact sound.addsOne_entry isDir clean comps resolved reach short missing found notFull
      · rcases grow : (s.withMapped m₂).dirGrow d ((s.fSize d).toNat / 4096) with ⟨r, u⟩
        rw [createIn, alloc, grow] at run
        cases r with
        | error e => cases e <;> cases run
        | ok f' =>
            cases run
            obtain ⟨b, rfl, inside, grew⟩ := sound.grew mounted reach isDir
              (caches.trans caches') (indirect d ⟨pre, name, dir, comps, resolved⟩) grow
            exact sound.addsOne_block isDir clean comps resolved reach short missing full inside grew

/-- The disk `nested` after its file `b` got a second block, behind its end, and was
removed. -/
def stale : Fs := ((nested.fileGetBlock (4, 0) 1).2.fileRemove [slash, 0x61, slash, 0x62]).2

end Fs

end Mos
