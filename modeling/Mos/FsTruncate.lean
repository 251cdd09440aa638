import Mos.FsFile

/-!
# Truncation

`file_truncate` frees the blocks of a file from some slot on, one after the other,
and the indirect block if the remaining ones have slots in the structure. What
the loop has done so far is described by the slots it has passed (`Cleared`).
-/

namespace Mos

namespace Fs

variable {s s' t : Fs} {f : FilePtr} {b i j k n w : Nat} {newsize : Word}

/-- Where slot `i` is, if the file has it. -/
def slotPtr (s : Fs) (f : FilePtr) (i : Nat) : Option (Nat × Nat) :=
  if i < NDIRECT then some (f.1, f.2 + 34 + i)
  else if i < NINDIRECT ∧ s.fIndirect f ≠ 0 then some (s.fIndirect f, i)
  else none

/-- The block in slot `i`, 0 for none. -/
def fileSlot (s : Fs) (f : FilePtr) (i : Nat) : Nat :=
  match s.slotPtr f i with
  | some ptr => (s.word ptr).toNat
  | none => 0

/-- The blocks of the file are its own: they are in use, distinct, none lies behind
the end, and the structure is not in the indirect block. -/
structure OwnBlocks (s : Fs) (f : FilePtr) : Prop where
  beyond : ∀ i < NINDIRECT, (s.fSize f).toNat / 4096 + 1 ≤ i → s.fileSlot f i = 0
  inUse : ∀ i < NINDIRECT, s.fileSlot f i ≠ 0 → s.InUse (s.fileSlot f i)
  distinct : ∀ i < NINDIRECT, ∀ j < NINDIRECT, s.fileSlot f i ≠ 0 →
    s.fileSlot f i = s.fileSlot f j → i = j
  indirectInUse : s.fIndirect f ≠ 0 → s.InUse (s.fIndirect f)
  indirectOther : ∀ i < NINDIRECT, s.fIndirect f ≠ 0 → s.fileSlot f i ≠ s.fIndirect f
  structElsewhere : s.fIndirect f ≠ 0 → s.fIndirect f ≠ f.1

/-- The part of it that freeing needs: the blocks are in use, and the words of the
slots are apart. -/
structure SlotsUsed (s : Fs) (f : FilePtr) : Prop where
  inUse : ∀ i < NINDIRECT, s.fileSlot f i ≠ 0 → s.InUse (s.fileSlot f i)
  indirectInUse : s.fIndirect f ≠ 0 → s.InUse (s.fIndirect f)
  indirectOther : ∀ i < NINDIRECT, s.fIndirect f ≠ 0 → s.fileSlot f i ≠ s.fIndirect f
  structElsewhere : s.fIndirect f ≠ 0 → s.fIndirect f ≠ f.1

theorem OwnBlocks.slotsUsed (own : s.OwnBlocks f) : s.SlotsUsed f :=
  ⟨own.inUse, own.indirectInUse, own.indirectOther, own.structElsewhere⟩

/-- A word of the slots from `n` on, below `k`. -/
def InSlots (s : Fs) (f : FilePtr) (n k b w : Nat) : Prop :=
  ∃ i, n ≤ i ∧ i < k ∧ s.slotPtr f i = some (b, w)

/-- The blocks in these slots. -/
def SlotBlock (s : Fs) (f : FilePtr) (n k c : Nat) : Prop :=
  ∃ i, n ≤ i ∧ i < k ∧ s.fileSlot f i = c ∧ c ≠ 0

/-- The state `t` when the slots of `s` from `n` on, below `k`, have been cleared. -/
structure Cleared (s : Fs) (f : FilePtr) (n k : Nat) (t : Fs) : Prop where
  nblocks : t.nblocks = s.nblocks
  zero : ∀ b w, s.InSlots f n k b w → t.blk b w = 0
  same : ∀ b w, ¬ s.InSlots f n k b w → t.blk b w = s.blk b w
  free : ∀ c, t.blockIsFree c = true ↔ s.blockIsFree c = true ∨ s.SlotBlock f n k c

/-! ## One slot -/

@[simp] theorem nblocks_setWord {p : Nat × Nat} {v : Word} : (s.setWord p v).nblocks = s.nblocks :=
  rfl

@[simp] theorem blockIsFree_setWord {p : Nat × Nat} {v : Word} {c : Nat} :
    (s.setWord p v).blockIsFree c = s.blockIsFree c := rfl

theorem blk_setWord {p : Nat × Nat} {v : Word} :
    (s.setWord p v).blk b w = if b = p.1 ∧ w = p.2 then v else s.blk b w := rfl

@[simp] theorem blk_freeBlock : (s.freeBlock b).blk = s.blk := by
  unfold freeBlock
  split <;> rfl

theorem slotPtr_lt (h : s.slotPtr f i = some (b, w)) : i < NINDIRECT := by
  unfold slotPtr at h
  split at h
  · next direct => exact Nat.lt_trans direct (by decide)
  · split at h
    · next indirect => exact indirect.1
    · cases h

/-- Different slots lie in different words. -/
theorem SlotsUsed.slotPtr_inj (own : s.SlotsUsed f) (hi : s.slotPtr f i = some (b, w))
    (hj : s.slotPtr f j = some (b, w)) : i = j := by
  have elsewhere := own.structElsewhere
  unfold slotPtr at hi hj
  split at hi <;> split at hj
  · have ptrs := Option.some.inj (hi.trans hj.symm)
    simp only [Prod.mk.injEq, true_and] at ptrs
    omega
  · split at hj
    · next there =>
        exact absurd (congrArg Prod.fst (Option.some.inj (hj.trans hi.symm))) (elsewhere there.2)
    · cases hj
  · split at hi
    · next there =>
        exact absurd (congrArg Prod.fst (Option.some.inj (hi.trans hj.symm))) (elsewhere there.2)
    · cases hi
  · split at hi <;> split at hj
    · exact congrArg Prod.snd (Option.some.inj (hi.trans hj.symm))
    · cases hj
    · cases hi
    · cases hi

/-- The size and the number of the indirect block are no slots. -/
theorem SlotsUsed.not_slot (own : s.SlotsUsed f) (outside : w < 34 ∨ 44 ≤ w) :
    ¬ s.InSlots f n k f.1 (f.2 + w) := by
  rintro ⟨i, -, -, ptr⟩
  unfold slotPtr at ptr
  split at ptr
  · next direct =>
      have direct : i < 10 := direct
      have same := Option.some.inj ptr
      simp only [Prod.mk.injEq, true_and] at same
      omega
  · split at ptr
    · next there =>
        have same := Option.some.inj ptr
        exact own.structElsewhere there.2 (congrArg Prod.fst same)
    · cases ptr

theorem Cleared.start (s : Fs) (f : FilePtr) (n : Nat) : s.Cleared f n n s where
  nblocks := rfl
  zero := fun b w ⟨i, low, high, _⟩ => absurd low (by omega)
  same := fun _ _ _ => rfl
  free := fun c => ⟨Or.inl, fun h => h.elim id fun ⟨i, low, high, _⟩ => absurd low (by omega)⟩

theorem Cleared.fIndirect (own : s.SlotsUsed f) (cleared : s.Cleared f n k t) :
    t.fIndirect f = s.fIndirect f :=
  congrArg BitVec.toNat (cleared.same f.1 (f.2 + 44) (own.not_slot (Or.inr (by decide))))

/-- The loop still finds the slot where it was, with the block that was there. -/
theorem Cleared.word (own : s.SlotsUsed f) (cleared : s.Cleared f n k t)
    (ptr : s.slotPtr f k = some (b, w)) : (t.blk b w).toNat = s.fileSlot f k := by
  have unpassed : ¬ s.InSlots f n k b w := by
    rintro ⟨i, -, high, passed⟩
    exact absurd (own.slotPtr_inj passed ptr) (by omega)
  rw [cleared.same b w unpassed, fileSlot, ptr]
  rfl

/-- A slot that is passed without a change holds no block. -/
theorem Cleared.skip (cleared : s.Cleared f n k t) (none : s.fileSlot f k = 0) :
    s.Cleared f n (k + 1) t where
  nblocks := cleared.nblocks
  zero := by
    rintro b w ⟨i, low, high, ptr⟩
    rcases Nat.lt_succ_iff_lt_or_eq.mp high with before | rfl
    · exact cleared.zero b w ⟨i, low, before, ptr⟩
    · by_cases passed : s.InSlots f n i b w
      · exact cleared.zero b w passed
      · rw [cleared.same b w passed]
        rw [fileSlot, ptr] at none
        exact BitVec.eq_of_toNat_eq none
  same := fun b w outside => cleared.same b w fun ⟨i, low, high, ptr⟩ =>
    outside ⟨i, low, Nat.lt_succ_of_lt high, ptr⟩
  free := by
    intro c
    rw [cleared.free]
    refine or_congr_right ⟨?_, ?_⟩
    · rintro ⟨i, low, high, holds⟩
      exact ⟨i, low, Nat.lt_succ_of_lt high, holds⟩
    · rintro ⟨i, low, high, holds, nonzero⟩
      rcases Nat.lt_succ_iff_lt_or_eq.mp high with before | rfl
      · exact ⟨i, low, before, holds, nonzero⟩
      · exact absurd (holds.symm.trans none) nonzero

/-- A slot is passed by freeing its block and storing 0. -/
theorem Cleared.clear (own : s.SlotsUsed f) (cleared : s.Cleared f n k t) (from_n : n ≤ k)
    (ptr : s.slotPtr f k = some (b, w)) (some' : s.fileSlot f k ≠ 0) :
    s.Cleared f n (k + 1) ((t.freeBlock (s.fileSlot f k)).setWord (b, w) 0) := by
  have inside := (own.inUse k (slotPtr_lt ptr) some').1
  rw [← cleared.nblocks] at inside
  refine ⟨?_, ?_, ?_, ?_⟩
  · rw [nblocks_setWord, nblocks_freeBlock, cleared.nblocks]
  · rintro b' w' ⟨i, low, high, ptr'⟩
    rw [blk_setWord, blk_freeBlock]
    split
    · rfl
    · next other =>
        rcases Nat.lt_succ_iff_lt_or_eq.mp high with before | rfl
        · exact cleared.zero b' w' ⟨i, low, before, ptr'⟩
        · rw [ptr] at ptr'
          cases ptr'
          exact absurd ⟨rfl, rfl⟩ other
  · intro b' w' outside
    rw [blk_setWord, blk_freeBlock, if_neg]
    · exact cleared.same b' w' fun ⟨i, low, high, ptr'⟩ =>
        outside ⟨i, low, Nat.lt_succ_of_lt high, ptr'⟩
    · rintro ⟨rfl, rfl⟩
      exact outside ⟨k, from_n, Nat.lt_succ_self k, ptr⟩
  · intro c
    rw [blockIsFree_setWord, blockIsFree_freeBlock some' inside, Bool.or_eq_true,
      decide_eq_true_iff, cleared.free]
    constructor
    · rintro (rfl | free | ⟨i, low, high, holds⟩)
      · exact Or.inr ⟨k, from_n, Nat.lt_succ_self k, rfl, some'⟩
      · exact Or.inl free
      · exact Or.inr ⟨i, low, Nat.lt_succ_of_lt high, holds⟩
    · rintro (free | ⟨i, low, high, holds, nonzero⟩)
      · exact Or.inr (Or.inl free)
      · rcases Nat.lt_succ_iff_lt_or_eq.mp high with before | rfl
        · exact Or.inr (Or.inr ⟨i, low, before, holds, nonzero⟩)
        · exact Or.inl holds.symm

/-- The cache does not matter to what has been cleared. -/
theorem Cleared.cached (cleared : s.Cleared f n k t) (m : Nat → Bool) :
    s.Cleared f n k { t with mapped := m } :=
  ⟨cleared.nblocks, cleared.zero, cleared.same, cleared.free⟩

/-- The indirect block can be read all along. -/
theorem Cleared.readIndirect (own : s.SlotsUsed f) (cleared : s.Cleared f n k t)
    (bound : k ≤ NINDIRECT) (some' : s.fIndirect f ≠ 0) :
    t.readBlock (s.fIndirect f) =
      (.ok (), { t with mapped := Function.update t.mapped (s.fIndirect f) true }) := by
  obtain ⟨inside, used⟩ := own.indirectInUse some'
  have kept : t.blockIsFree (s.fIndirect f) = false := by
    rw [Bool.eq_false_iff, ne_eq, cleared.free]
    rintro (free | ⟨i, low, high, holds, -⟩)
    · rw [used] at free
      cases free
    · exact own.indirectOther i (by omega) some' holds
  rw [readBlock, cleared.nblocks, if_neg (by omega), kept]
  rfl

/-- A slot that is found is cleared. -/
theorem Cleared.clearAt (own : s.SlotsUsed f) (cleared : s.Cleared f n k t) (from_n : n ≤ k)
    (ptr : s.slotPtr f k = some (b, w)) (walk : ∃ m, t.fileBlockWalk f k false =
      (.ok (b, w), { t with mapped := m })) :
    ∃ t', t.fileClearBlock f k = (.ok (), t') ∧ s.Cleared f n (k + 1) t' := by
  obtain ⟨m, walk⟩ := walk
  have value : ({ t with mapped := m }.word (b, w)).toNat = s.fileSlot f k :=
    (cleared.cached m).word own ptr
  unfold fileClearBlock
  rw [walk]
  dsimp only
  by_cases zero : { t with mapped := m }.word (b, w) = 0
  · rw [if_pos zero]
    refine ⟨_, rfl, (cleared.skip ?_).cached m⟩
    rw [← value, zero]
    rfl
  · rw [if_neg zero, value]
    refine ⟨_, rfl, (cleared.cached m).clear own from_n ptr fun none => zero ?_⟩
    exact BitVec.eq_of_toNat_eq (value.trans none)

/-- One iteration of the loop passes one slot. -/
theorem Cleared.step (own : s.SlotsUsed f) (cleared : s.Cleared f n k t) (from_n : n ≤ k) :
    ∃ r t', t.fileClearBlock f k = (r, t') ∧ r ≠ .error .panic ∧ s.Cleared f n (k + 1) t' := by
  by_cases direct : k < NDIRECT
  · have ptr : s.slotPtr f k = some (f.1, f.2 + 34 + k) := if_pos direct
    have walk : t.fileBlockWalk f k false = (.ok (f.1, f.2 + 34 + k), t) := if_pos direct
    obtain ⟨t', run, after⟩ := cleared.clearAt own from_n ptr ⟨t.mapped, walk⟩
    exact ⟨_, t', run, nofun, after⟩
  by_cases inside : k < NINDIRECT
  · by_cases none : s.fIndirect f = 0
    · have slot : s.slotPtr f k = Option.none := by
        rw [slotPtr, if_neg direct, if_neg fun both => both.2 none]
      have absent : t.fIndirect f = 0 := (cleared.fIndirect own).trans none
      have run : t.fileClearBlock f k = (.error .notFound, t) := by
        rw [fileClearBlock, fileBlockWalk, if_neg direct, if_pos inside, if_pos absent, if_pos rfl]
      refine ⟨_, t, run, nofun, cleared.skip ?_⟩
      rw [fileSlot, slot]
    · have ptr : s.slotPtr f k = some (s.fIndirect f, k) := by
        rw [slotPtr, if_neg direct, if_pos ⟨inside, none⟩]
      have there := cleared.fIndirect own
      have present : ¬ t.fIndirect f = 0 := there ▸ none
      have read := cleared.readIndirect own (Nat.le_of_lt inside) none
      have walk : t.fileBlockWalk f k false = (.ok (s.fIndirect f, k),
          { t with mapped := Function.update t.mapped (s.fIndirect f) true }) := by
        rw [fileBlockWalk, if_neg direct, if_pos inside, if_neg present, indirectWalk, there, read]
        have after : ({ t with mapped := Function.update t.mapped (s.fIndirect f) true } :
            Fs).fIndirect f = s.fIndirect f := there
        dsimp only
        rw [after]
      obtain ⟨t', run, after⟩ := cleared.clearAt own from_n ptr ⟨_, walk⟩
      exact ⟨_, t', run, nofun, after⟩
  · have slot : s.slotPtr f k = none := by
      rw [slotPtr, if_neg direct, if_neg fun both => inside both.1]
    have run : t.fileClearBlock f k = (.error (.sys .inval), t) := by
      rw [fileClearBlock, fileBlockWalk, if_neg direct, if_neg inside]
    refine ⟨_, t, run, nofun, cleared.skip ?_⟩
    rw [fileSlot, slot]

/-- The loop passes all its slots. -/
theorem Cleared.loop (own : s.SlotsUsed f) (left : Nat) :
    ∀ k t, n ≤ k → s.Cleared f n k t →
      ∃ t', t.truncateLoop f k left = (.ok (), t') ∧ s.Cleared f n (k + left) t' := by
  induction left with
  | zero => exact fun k t _ cleared => ⟨t, rfl, cleared⟩
  | succ left ih =>
      intro k t from_n cleared
      obtain ⟨r, t₁, run, noPanic, after⟩ := cleared.step own from_n
      obtain ⟨t', rest, done⟩ := ih (k + 1) t₁ (Nat.le_succ_of_le from_n) after
      refine ⟨t', ?_, ?_⟩
      · rw [truncateLoop, run]
        split
        · next panicked => exact absurd (congrArg Prod.fst panicked) noPanic
        · next other same =>
            cases same
            exact rest
      · rwa [Nat.add_right_comm] at done

/-! ## The whole file -/

/-- A word of the structure that `file_truncate` may change. -/
def TruncateField (f : FilePtr) (b w : Nat) : Prop :=
  b = f.1 ∧ (w = f.2 + 32 ∨ f.2 + 34 ≤ w ∧ w ≤ f.2 + 44)

/-- The tail of the file from slot `n` on is gone, and its blocks are free. -/
structure Truncated (s : Fs) (f : FilePtr) (newsize : Word) (n : Nat) (t : Fs) : Prop where
  size : t.fSize f = newsize
  kept : ∀ i < n, i < NINDIRECT → t.fileSlot f i = s.fileSlot f i
  gone : ∀ i < NINDIRECT, n ≤ i → t.fileSlot f i = 0
  indirect : t.fIndirect f = if n ≤ NDIRECT then 0 else s.fIndirect f
  free : ∀ c, t.blockIsFree c = true ↔ s.blockIsFree c = true ∨
    (∃ i < NINDIRECT, n ≤ i ∧ s.fileSlot f i = c ∧ c ≠ 0) ∨
    (n ≤ NDIRECT ∧ s.fIndirect f = c ∧ c ≠ 0)
  /-- The structure's other fields, other files and other blocks are as before; in
  the indirect block slots are cleared only. -/
  other : ∀ b w, ¬ TruncateField f b w →
    (s.fIndirect f ≠ 0 → b = s.fIndirect f → w < n ∨ w < NDIRECT) → t.blk b w = s.blk b w

theorem newNblocks_le (smaller : newsize < s.fSize f) :
    newNblocks newsize ≤ (s.fSize f).toNat / 4096 + 1 := by
  unfold newNblocks
  split
  · exact Nat.zero_le _
  · exact Nat.succ_le_succ (Nat.div_le_div_right (Nat.le_of_lt smaller))

/-- A slot of the file in a state that has the same indirect block. -/
theorem fileSlot_of_same (there : t.fIndirect f = s.fIndirect f)
    (ptr : s.slotPtr f i = some (b, w)) :
    t.fileSlot f i = (t.blk b w).toNat := by
  have same : t.slotPtr f i = s.slotPtr f i := by
    unfold slotPtr
    rw [there]
  rw [fileSlot, same, ptr]
  rfl

theorem fileSlot_none (there : t.fIndirect f = s.fIndirect f) (ptr : s.slotPtr f i = none) :
    t.fileSlot f i = 0 ∧ s.fileSlot f i = 0 := by
  have same : t.slotPtr f i = s.slotPtr f i := by
    unfold slotPtr
    rw [there]
  exact ⟨by rw [fileSlot, same, ptr], by rw [fileSlot, ptr]⟩

/-- The slots when the loop is done. -/
theorem Cleared.slots (own : s.OwnBlocks f) (cleared : s.Cleared f n k t)
    (all : (s.fSize f).toNat / 4096 + 1 ≤ k) (inside : i < NINDIRECT) :
    t.fileSlot f i = if i < n then s.fileSlot f i else 0 := by
  have there := cleared.fIndirect own.slotsUsed
  cases ptr : s.slotPtr f i with
  | none =>
      obtain ⟨now, before⟩ := fileSlot_none there ptr
      rw [now, before, ite_self]
  | some p =>
      obtain ⟨b, w⟩ := p
      have here : ∀ lo hi, s.InSlots f lo hi b w ↔ lo ≤ i ∧ i < hi := by
        intro lo hi
        constructor
        · rintro ⟨j, low, high, ptr'⟩
          obtain rfl := own.slotsUsed.slotPtr_inj ptr' ptr
          exact ⟨low, high⟩
        · exact fun bounds => ⟨i, bounds.1, bounds.2, ptr⟩
      have before : s.fileSlot f i = (s.blk b w).toNat := fileSlot_of_same rfl ptr
      rw [fileSlot_of_same there ptr]
      split
      · next kept =>
          rw [cleared.same b w (by rw [here]; omega), before]
      · next gone =>
          by_cases passed : i < k
          · rw [cleared.zero b w ((here n k).mpr ⟨Nat.not_lt.mp gone, passed⟩)]
            rfl
          · rw [cleared.same b w (by rw [here]; omega), ← before]
            exact own.beyond i inside (by omega)

/-- A word that is none of the slots from `n` on. -/
theorem not_inSlots (field : ¬ TruncateField f b w)
    (indirect : s.fIndirect f ≠ 0 → b = s.fIndirect f → w < n ∨ w < NDIRECT) :
    ¬ s.InSlots f n k b w := by
  rintro ⟨i, low, -, ptr⟩
  unfold slotPtr at ptr
  split at ptr
  · next direct =>
      have direct : i < 10 := direct
      cases ptr
      exact field ⟨rfl, Or.inr (by omega)⟩
  · next beyond =>
      split at ptr
      · next present =>
          have same := Option.some.inj ptr
          obtain ⟨block, word⟩ := Prod.mk.inj same
          rcases indirect present.2 block.symm with before | direct
          · omega
          · exact beyond (word ▸ direct)
      · cases ptr

/-- Storing a field that is no slot keeps the slots. -/
theorem fileSlot_setWord {p : Nat × Nat} {v : Word}
    (there : (t.setWord p v).fIndirect f = t.fIndirect f) (apart : t.slotPtr f i ≠ some p) :
    (t.setWord p v).fileSlot f i = t.fileSlot f i := by
  cases ptr : t.slotPtr f i with
  | none =>
      obtain ⟨now, before⟩ := fileSlot_none there ptr
      rw [now, before]
  | some q =>
      obtain ⟨b, w⟩ := q
      rw [fileSlot_of_same there ptr, fileSlot_of_same rfl ptr, blk_setWord, if_neg]
      rintro ⟨rfl, rfl⟩
      exact apart ptr

/-- A direct slot. -/
theorem fileSlot_direct (direct : i < NDIRECT) :
    t.fileSlot f i = (t.blk f.1 (f.2 + 34 + i)).toNat := by
  rw [fileSlot, slotPtr, if_pos direct]
  rfl

theorem fileSlot_no_indirect (beyond : NDIRECT ≤ i) (none : t.fIndirect f = 0) :
    t.fileSlot f i = 0 := by
  rw [fileSlot, slotPtr, if_neg (Nat.not_lt.mpr beyond), if_neg fun both => both.2 none]

/-- The field `f_size` is no slot. -/
theorem slotPtr_ne_size (elsewhere : t.fIndirect f ≠ 0 → t.fIndirect f ≠ f.1) :
    t.slotPtr f i ≠ some (sizePtr f) := by
  intro ptr
  unfold slotPtr sizePtr at ptr
  split at ptr
  · have word := congrArg Prod.snd (Option.some.inj ptr)
    dsimp only at word
    omega
  · split at ptr
    · next there => exact elsewhere there.2 (congrArg Prod.fst (Option.some.inj ptr))
    · cases ptr

/-- The last store of `file_truncate`. -/
theorem Truncated.of_parts (elsewhere : t.fIndirect f ≠ 0 → t.fIndirect f ≠ f.1)
    (slots : ∀ i < NINDIRECT, t.fileSlot f i = if i < n then s.fileSlot f i else 0)
    (indirect : t.fIndirect f = if n ≤ NDIRECT then 0 else s.fIndirect f)
    (free : ∀ c, t.blockIsFree c = true ↔ s.blockIsFree c = true ∨
      (∃ i < NINDIRECT, n ≤ i ∧ s.fileSlot f i = c ∧ c ≠ 0) ∨
      (n ≤ NDIRECT ∧ s.fIndirect f = c ∧ c ≠ 0))
    (other : ∀ b w, ¬ TruncateField f b w →
      (s.fIndirect f ≠ 0 → b = s.fIndirect f → w < n ∨ w < NDIRECT) →
      t.blk b w = s.blk b w) : s.Truncated f newsize n (t.setWord (sizePtr f) newsize) := by
  have there : (t.setWord (sizePtr f) newsize).fIndirect f = t.fIndirect f := by
    unfold fIndirect
    rw [blk_setWord, if_neg]
    rintro ⟨-, word⟩
    have word : f.2 + 44 = f.2 + 32 := word
    omega
  have same : ∀ i, (t.setWord (sizePtr f) newsize).fileSlot f i = t.fileSlot f i := fun i =>
    fileSlot_setWord there (slotPtr_ne_size elsewhere)
  refine ⟨if_pos ⟨rfl, rfl⟩, fun i low inside => ?_, fun i inside high => ?_,
    there.trans indirect, free, fun b w field slot => ?_⟩
  · rw [same, slots i inside, if_pos low]
  · rw [same, slots i inside, if_neg (by omega)]
  · rw [blk_setWord, if_neg, other b w field slot]
    rintro ⟨block, word⟩
    exact field ⟨block, Or.inl word⟩

/-- The blocks of the slots up to the old end are those of all the slots. -/
theorem OwnBlocks.slotBlock_iff (own : s.OwnBlocks f) (c : Nat) :
    s.SlotBlock f n ((s.fSize f).toNat / 4096 + 1) c ↔
      ∃ i < NINDIRECT, n ≤ i ∧ s.fileSlot f i = c ∧ c ≠ 0 := by
  constructor
  · rintro ⟨i, low, -, holds, nonzero⟩
    refine ⟨i, ?_, low, holds, nonzero⟩
    by_contra outside
    have none : s.slotPtr f i = Option.none := by
      have beyond : ¬ i < NDIRECT := fun direct => outside (Nat.lt_trans direct (by decide))
      rw [slotPtr, if_neg beyond, if_neg fun both => outside both.1]
    rw [fileSlot, none] at holds
    exact nonzero holds.symm
  · rintro ⟨i, inside, low, holds, nonzero⟩
    refine ⟨i, low, ?_, holds, nonzero⟩
    by_contra beyond
    exact nonzero (holds.symm.trans (own.beyond i inside (Nat.not_lt.mp beyond)))

/-- The state `u` when the indirect block `b` of `f` has been taken from `t`, or there was none. -/
structure Dropped (t : Fs) (f : FilePtr) (b : Nat) (u : Fs) : Prop where
  nblocks : u.nblocks = t.nblocks
  gone : u.fIndirect f = 0
  slots : ∀ i < NDIRECT, u.fileSlot f i = t.fileSlot f i
  free : ∀ c, u.blockIsFree c = true ↔ t.blockIsFree c = true ∨ b = c ∧ c ≠ 0
  other : ∀ c w, ¬ TruncateField f c w → u.blk c w = t.blk c w

theorem dropped_freed (present : b ≠ 0) (inside : b < t.nblocks) :
    t.Dropped f b ((t.freeBlock b).setWord (indirectPtr f) 0) := by
  refine ⟨?_, ?_, fun i low => ?_, fun c => ?_, fun c w field => ?_⟩
  · rw [nblocks_setWord, nblocks_freeBlock]
  · unfold fIndirect
    rw [blk_setWord, if_pos ⟨rfl, rfl⟩]
    rfl
  · rw [fileSlot_direct low, fileSlot_direct low, blk_setWord, blk_freeBlock, if_neg]
    rintro ⟨-, word⟩
    have word : f.2 + 34 + i = f.2 + 44 := word
    have low : i < 10 := low
    omega
  · rw [blockIsFree_setWord, blockIsFree_freeBlock present inside, Bool.or_eq_true,
      decide_eq_true_iff, or_comm]
    refine or_congr_right ⟨?_, fun both => both.1.symm⟩
    rintro rfl
    exact ⟨rfl, present⟩
  · rw [blk_setWord, blk_freeBlock, if_neg]
    rintro ⟨block, word⟩
    have word : w = f.2 + 44 := word
    exact field ⟨block, Or.inr (by omega)⟩

section Cleared

variable (own : s.OwnBlocks f) (cleared : s.Cleared f n ((s.fSize f).toNat / 4096 + 1) t)

include own cleared

/-- The blocks that are free once the loop has run. -/
theorem Cleared.free_iff (c : Nat) : t.blockIsFree c = true ↔ s.blockIsFree c = true ∨
    ∃ i < NINDIRECT, n ≤ i ∧ s.fileSlot f i = c ∧ c ≠ 0 := by
  rw [cleared.free, own.slotBlock_iff]

/-- The indirect block goes as well. -/
theorem Cleared.truncated_indirect (few : n ≤ NDIRECT) (present : s.fIndirect f ≠ 0) :
    s.Truncated f newsize n (((t.freeBlock (s.fIndirect f)).setWord (indirectPtr f) 0).setWord
      (sizePtr f) newsize) := by
  have inside := (own.indirectInUse present).1
  rw [← cleared.nblocks] at inside
  have dropped := dropped_freed (f := f) present inside
  refine .of_parts ?_ (fun i within => ?_) ?_ (fun c => ?_) (fun b w field slot => ?_)
  · exact fun present' => absurd dropped.gone present'
  · by_cases direct : i < NDIRECT
    · rw [dropped.slots i direct, cleared.slots own (Nat.le_refl _) within]
    · rw [fileSlot_no_indirect (Nat.not_lt.mp direct) dropped.gone, if_neg (by omega)]
  · rw [dropped.gone, if_pos few]
  · rw [dropped.free, cleared.free_iff own, or_assoc]
    exact or_congr_right (or_congr_right ⟨fun both => ⟨few, both⟩, fun all => all.2⟩)
  · exact (dropped.other b w field).trans (cleared.same b w (not_inSlots field slot))

/-- The indirect block stays, or there is none. -/
theorem Cleared.truncated_kept (absent : n ≤ NDIRECT → s.fIndirect f = 0) :
    s.Truncated f newsize n (t.setWord (sizePtr f) newsize) := by
  have there := cleared.fIndirect own.slotsUsed
  refine .of_parts (there ▸ own.structElsewhere) (fun i => cleared.slots own (Nat.le_refl _)) ?_
    (fun c => ?_) fun b w field slot => cleared.same b w (not_inSlots field slot)
  · rw [there]
    split
    · next few => exact absent few
    · rfl
  · rw [cleared.free_iff own]
    refine or_congr_right ⟨Or.inl, ?_⟩
    rintro (slot | ⟨few, holds, nonzero⟩)
    · exact slot
    · exact absurd (holds.symm.trans (absent few)) nonzero

end Cleared

/-- Truncating a file to a smaller size takes away exactly its tail. -/
theorem file_truncate_tail (s : Fs) (f : FilePtr) (newsize : Word) (own : s.OwnBlocks f)
    (smaller : newsize < s.fSize f) :
    ∃ t, s.fileTruncate f newsize = (.ok (), t) ∧
      s.Truncated f newsize (newNblocks newsize) t := by
  have bound := newNblocks_le smaller
  obtain ⟨t₁, run, cleared⟩ := Cleared.loop own.slotsUsed
    ((s.fSize f).toNat / 4096 + 1 - newNblocks newsize) (newNblocks newsize) s
    (Nat.le_refl _) (.start s f _)
  rw [Nat.add_sub_cancel' bound] at cleared
  rw [fileTruncate]
  dsimp only
  rw [run]
  refine ⟨_, rfl, ?_⟩
  rw [cleared.fIndirect own.slotsUsed]
  by_cases drop : newNblocks newsize ≤ NDIRECT ∧ s.fIndirect f ≠ 0
  · rw [if_pos drop]
    exact cleared.truncated_indirect own drop.1 drop.2
  · rw [if_neg drop]
    refine cleared.truncated_kept own fun few => ?_
    by_contra present
    exact drop ⟨few, present⟩

/-- A file that was truncated to size 0: the blocks up to its old end are free, and
so is the indirect block. -/
structure Emptied (s : Fs) (f : FilePtr) (t : Fs) : Prop where
  nblocks : t.nblocks = s.nblocks
  size : t.fSize f = 0
  indirect : t.fIndirect f = 0
  slots : ∀ i < NDIRECT,
    t.fileSlot f i = if i ≤ (s.fSize f).toNat / 4096 then 0 else s.fileSlot f i
  free : ∀ c, t.blockIsFree c = true ↔ s.blockIsFree c = true ∨
    s.SlotBlock f 0 ((s.fSize f).toNat / 4096 + 1) c ∨ s.fIndirect f = c ∧ c ≠ 0
  other : ∀ b w, ¬ TruncateField f b w → (s.fIndirect f ≠ 0 → b ≠ s.fIndirect f) →
    t.blk b w = s.blk b w

/-- A disk whose root holds two blocks. -/
def twoBlocks : Fs :=
  { eightBlocks with
    bitmap := fun _ => 0xE0
    blk := fun b w => if b = 1 then
        (if w = 34 then 5000 else if w = 36 then 3 else if w = 37 then 4 else 0) else 0 }

theorem fileSlot_twoBlocks (holds : twoBlocks.fileSlot root i ≠ 0) :
    i = 0 ∧ twoBlocks.fileSlot root i = 3 ∨ i = 1 ∧ twoBlocks.fileSlot root i = 4 := by
  by_cases direct : i < NDIRECT
  · have all : ∀ i < 10, twoBlocks.fileSlot root i ≠ 0 →
        i = 0 ∧ twoBlocks.fileSlot root i = 3 ∨ i = 1 ∧ twoBlocks.fileSlot root i = 4 := by decide
    exact all i direct holds
  · exact absurd (fileSlot_no_indirect (Nat.not_lt.mp direct) rfl) holds

theorem ownBlocks_twoBlocks : twoBlocks.OwnBlocks root where
  beyond i inside high := by
    by_contra holds
    have end' : (twoBlocks.fSize root).toNat / 4096 + 1 = 2 := by decide
    rcases fileSlot_twoBlocks holds with ⟨rfl, -⟩ | ⟨rfl, -⟩ <;> omega
  inUse i inside holds := by
    rcases fileSlot_twoBlocks holds with ⟨-, same⟩ | ⟨-, same⟩ <;> rw [same] <;>
      exact ⟨by decide, by decide⟩
  distinct i hi j hj holds same := by
    rcases fileSlot_twoBlocks holds with ⟨rfl, here⟩ | ⟨rfl, here⟩ <;>
      rcases fileSlot_twoBlocks (same ▸ holds) with ⟨rfl, there⟩ | ⟨rfl, there⟩ <;>
        omega
  indirectInUse present := absurd rfl present
  indirectOther i inside present := absurd rfl present
  structElsewhere present := absurd rfl present

theorem file_truncate_tail_twoBlocks :
    ∃ t, twoBlocks.fileTruncate root 100 = (.ok (), t) ∧ twoBlocks.Truncated root 100 1 t :=
  file_truncate_tail twoBlocks root 100 ownBlocks_twoBlocks (by decide)

end Fs

end Mos
