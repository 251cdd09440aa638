import Mos.FsCreate

/-!
# Removing files

`file_remove` truncates the file and clears its name. It does not ask whether the
file is a directory, nor for blocks behind the end: what such blocks hold stays
marked used with nothing leading to it. Where every block has one owner, nothing
else goes wrong (`remove_balanced_iff`).
-/

namespace Mos

namespace Fs

variable {s t : Fs} {a d d' f g : FilePtr} {dir : Option FilePtr} {name : FsName}
  {names names' : List FsName} {path : FsName} {live : FilePtr → Prop} {b i k w : Nat}

/-- `file_remove`; `walk_path` stores a file when it returns 0. -/
def fileRemove (s : Fs) (path : FsName) : Except FsErr Unit × Fs :=
  match s.walkPath path with
  | (⟨.error r, _, _, _⟩, s) => (.error r, s)
  | (⟨.ok (), _, none, _⟩, s) => (.error .panic, s)
  | (⟨.ok (), _, some f, _⟩, s) =>
      match s.fileTruncate f 0 with
      | (.error e, s) => (.error e, s)
      | (.ok (), s) => (.ok (), s.setNameByte f 0 0)

/-! ## What a removal should do -/

/-- The files of a directory's blocks. -/
def entries (s : Fs) (d : FilePtr) : List FilePtr := s.filesFrom d 0 ((s.fSize d).toNat / 4096)

/-- The entry is in use. -/
def Named (s : Fs) (f : FilePtr) : Prop := s.isFreeEntry f = false

/-- The files from `a` down, through the entries in use. -/
inductive Under (s : Fs) (a : FilePtr) : FilePtr → Prop
  | refl : Under s a a
  | entry {d f : FilePtr} : Under s a d → s.fType d = FTYPE_DIR → f ∈ s.entries d → s.Named f →
      Under s a f

/-- A block that a slot of the file or its indirect pointer leads to. -/
def FileBlock (s : Fs) (f : FilePtr) (b : Nat) : Prop :=
  b ≠ 0 ∧ (s.fIndirect f = b ∨ ∃ i < NINDIRECT, s.fileSlot f i = b)

/-- The boot block, the super block and the bitmap. -/
def Reserved (s : Fs) (b : Nat) : Prop := b < nbitmap s.nblocks + 2

/-- The blocks marked used are the reserved ones and those that are reached. -/
def Balanced (s : Fs) : Prop :=
  ∀ b, s.InUse b ↔ s.Reserved b ∨ ∃ f, s.Under root f ∧ s.FileBlock f b

def Resolves (s : Fs) (path : FsName) : Prop := (s.walkPath path).1.r = .ok ()

/-- Every block has one owner, the directories have their blocks, and no directory
has two files of one name. -/
structure Tree (s : Fs) : Prop where
  present : ∀ d, s.Under root d → s.fType d = FTYPE_DIR → s.DirPresent d
  owner : ∀ f g b, s.Under root f → s.Under root g → s.FileBlock f b → s.FileBlock g b → f = g
  once : ∀ f, s.Under root f → ∀ i < NINDIRECT, ∀ j < NINDIRECT, s.fileSlot f i ≠ 0 →
    s.fileSlot f i = s.fileSlot f j → i = j
  indirectOther : ∀ f, s.Under root f → ∀ i < NINDIRECT, s.fIndirect f ≠ 0 →
    s.fileSlot f i ≠ s.fIndirect f
  notReserved : ∀ f b, s.Under root f → s.FileBlock f b → ¬ s.Reserved b
  names : ∀ d, s.Under root d → s.fType d = FTYPE_DIR → ∀ f ∈ s.entries d, ∀ g ∈ s.entries d,
    ∀ name, s.Named f → s.sameName f name = true → s.sameName g name = true → f = g

theorem mem_entries : f ∈ s.entries d ↔
    ∃ k < (s.fSize d).toNat / 4096, ∃ j < FILE2BLK, f = (s.fileSlot d k, 64 * j) := by
  unfold entries filesFrom filesOf
  simp only [List.mem_flatMap, List.mem_range'_1, List.mem_map, List.mem_range, Nat.zero_le,
    Nat.zero_add, true_and]
  exact exists_congr fun k => and_congr_right fun _ => exists_congr fun j =>
    and_congr_right fun _ => eq_comm

theorem Under.trans (up : s.Under a d) (down : s.Under d f) : s.Under a f := by
  induction down with
  | refl => exact up
  | entry _ isDir inDir named ih => exact ih.entry isDir inDir named

/-- An entry lies in a block of its directory. -/
theorem Tree.entryBlock (tree : s.Tree) (reach : s.Under root d) (isDir : s.fType d = FTYPE_DIR)
    (inDir : f ∈ s.entries d) :
    s.FileBlock d f.1 ∧ (∃ k < NINDIRECT, s.fileSlot d k = f.1) ∧ ∃ j, f.2 = 64 * j := by
  obtain ⟨k, low, j, -, rfl⟩ := mem_entries.mp inDir
  obtain ⟨inside, holds, -⟩ := tree.present d reach isDir k low
  exact ⟨⟨holds, Or.inr ⟨k, inside, rfl⟩⟩, ⟨k, inside, rfl⟩, j, rfl⟩

theorem Tree.parent_unique (tree : s.Tree) (reach : s.Under root d) (isDir : s.fType d = FTYPE_DIR)
    (inDir : f ∈ s.entries d) (reach' : s.Under root d') (isDir' : s.fType d' = FTYPE_DIR)
    (inDir' : f ∈ s.entries d') : d = d' :=
  tree.owner d d' f.1 reach reach' (tree.entryBlock reach isDir inDir).1
    (tree.entryBlock reach' isDir' inDir').1

theorem reserved_root (s : Fs) : s.Reserved root.1 := by
  show 1 < nbitmap s.nblocks + 2
  omega

theorem Tree.entry_ne_root (tree : s.Tree) (reach : s.Under root d)
    (isDir : s.fType d = FTYPE_DIR) (inDir : f ∈ s.entries d) : f ≠ root := by
  rintro rfl
  exact tree.notReserved d root.1 reach (tree.entryBlock reach isDir inDir).1 (reserved_root s)

/-- The root is under nothing but itself. -/
theorem Tree.root_under (tree : s.Tree) (reach : s.Under root f) (under : s.Under f root) :
    f = root := by
  cases under with
  | refl => rfl
  | entry above isDir inDir named =>
      exact absurd rfl (tree.entry_ne_root (reach.trans above) isDir inDir)

/-- The root, or an entry, free or not, of a directory. -/
def Placed (s : Fs) (g : FilePtr) : Prop :=
  g = root ∨ ∃ d, s.Under root d ∧ s.fType d = FTYPE_DIR ∧ g ∈ s.entries d

theorem Under.placed (reach : s.Under root g) : s.Placed g := by
  cases reach with
  | refl => exact Or.inl rfl
  | entry above isDir inDir named => exact Or.inr ⟨_, above, isDir, inDir⟩

/-- The structures of files lie in no indirect block. -/
theorem Tree.placed_ne_indirect (tree : s.Tree) (reach : s.Under root f) (placed : s.Placed g)
    (present : s.fIndirect f ≠ 0) : g.1 ≠ s.fIndirect f := by
  intro same
  have block : s.FileBlock f (s.fIndirect f) := ⟨present, Or.inl rfl⟩
  obtain rfl | ⟨d, above, isDir, inDir⟩ := placed
  · exact tree.notReserved f _ reach block (same ▸ reserved_root s)
  · obtain ⟨owned, ⟨k, inside, slot⟩, -⟩ := tree.entryBlock above isDir inDir
    rw [same] at owned slot
    obtain rfl := tree.owner d f _ above reach owned block
    exact tree.indirectOther d above k inside present slot

theorem Tree.slotsUsed (tree : s.Tree) (balanced : s.Balanced) (reach : s.Under root f) :
    s.SlotsUsed f where
  inUse i inside holds := (balanced _).mpr (Or.inr ⟨f, reach, holds, Or.inr ⟨i, inside, rfl⟩⟩)
  indirectInUse present := (balanced _).mpr (Or.inr ⟨f, reach, present, Or.inl rfl⟩)
  indirectOther i inside present := tree.indirectOther f reach i inside present
  structElsewhere present same := tree.placed_ne_indirect reach reach.placed present same.symm

/-- Two structures do not overlap. -/
theorem Tree.apart (tree : s.Tree) (here : s.Placed f) (there : s.Placed g) (other : g ≠ f)
    (same : g.1 = f.1) (low : w ≤ 44) : ¬ (f.2 ≤ g.2 + w ∧ g.2 + w ≤ f.2 + 44) := by
  have entry : ∀ h, (∃ d, s.Under root d ∧ s.fType d = FTYPE_DIR ∧ h ∈ s.entries d) →
      ¬ s.Reserved h.1 ∧ ∃ j, h.2 = 64 * j := by
    rintro h ⟨d, above, isDir, inDir⟩
    obtain ⟨owned, -, aligned⟩ := tree.entryBlock above isDir inDir
    exact ⟨tree.notReserved d _ above owned, aligned⟩
  obtain rfl | here := here
  · obtain rfl | there := there
    · exact absurd rfl other
    · exact absurd (same ▸ reserved_root s) (entry g there).1
  · obtain rfl | there := there
    · exact absurd (same ▸ reserved_root s) (entry f here).1
    · obtain ⟨j, at_f⟩ := (entry f here).2
      obtain ⟨j', at_g⟩ := (entry g there).2
      have differ : j' ≠ j := by
        rintro rfl
        exact other (Prod.ext same (at_g.trans at_f.symm))
      omega

/-! ## The state after a removal -/

/-- What `file_remove` does to the file that is found. -/
structure Gone (s : Fs) (f : FilePtr) (t : Fs) : Prop where
  nblocks : t.nblocks = s.nblocks
  size : t.fSize f = 0
  type : t.fType f = s.fType f
  indirect : t.fIndirect f = 0
  slots : ∀ i < NDIRECT,
    t.fileSlot f i = if i ≤ (s.fSize f).toNat / 4096 then 0 else s.fileSlot f i
  name : t.isFreeEntry f = true
  free : ∀ c, t.blockIsFree c = true ↔ s.blockIsFree c = true ∨
    s.SlotBlock f 0 ((s.fSize f).toNat / 4096 + 1) c ∨ s.fIndirect f = c ∧ c ≠ 0
  other : ∀ b w, ¬ (b = f.1 ∧ f.2 ≤ w ∧ w ≤ f.2 + 44) → (s.fIndirect f ≠ 0 → b ≠ s.fIndirect f) →
    t.blk b w = s.blk b w

theorem nameByte_setNameByte_zero : (t.setNameByte f 0 0).nameByte f 0 = 0 := by
  unfold nameByte setNameByte
  simp only [Nat.zero_div, Nat.zero_mod, Nat.mul_zero, Nat.add_zero, BitVec.ushiftRight_zero,
    BitVec.shiftLeft_zero]
  rw [blk_setWord, if_pos ⟨rfl, rfl⟩]
  ext i low
  simp

theorem blk_setNameByte_zero {c : Byte} (outside : ¬ (b = f.1 ∧ w = f.2)) :
    (t.setNameByte f 0 c).blk b w = t.blk b w := by
  unfold setNameByte
  rw [Nat.zero_div, Nat.add_zero, blk_setWord, if_neg outside]

theorem Emptied.gone (emptied : s.Emptied f t)
    (elsewhere : s.fIndirect f ≠ 0 → s.fIndirect f ≠ f.1) : s.Gone f (t.setNameByte f 0 0) where
  nblocks := emptied.nblocks
  size := (blk_setNameByte_zero (by omega)).trans emptied.size
  type := by
    refine (blk_setNameByte_zero (by omega)).trans (emptied.other _ _ ?_ fun present same => ?_)
    · rintro ⟨-, word | ⟨low, -⟩⟩ <;> omega
    · exact elsewhere present same.symm
  indirect := (congrArg BitVec.toNat (blk_setNameByte_zero (by omega))).trans emptied.indirect
  slots i low := by
    rw [← emptied.slots i low, fileSlot_direct low, fileSlot_direct low,
      blk_setNameByte_zero (by omega)]
  name := by
    rw [isFreeEntry, nameByte_setNameByte_zero]
    rfl
  free := emptied.free
  other b w outside indirect := by
    rw [blk_setNameByte_zero (by omega), emptied.other b w ?_ indirect]
    rintro ⟨block, word⟩
    exact outside ⟨block, by omega⟩

/-! ## The tree after a removal -/

theorem Gone.entries_self (gone : s.Gone f t) : t.entries f = [] := by
  unfold Fs.entries
  rw [gone.size]
  rfl

/-- The name of a file is compared by its bytes. -/
theorem sameName_congr (bytes : ∀ k < 128, t.nameByte g k = s.nameByte g k)
    (short : name.length < MAXNAMELEN) : t.sameName g name = s.sameName g name := by
  have from_k : ∀ name : FsName, ∀ k, k + name.length < 128 →
      t.sameNameFrom g k name = s.sameNameFrom g k name := by
    intro name
    induction name with
    | nil => exact fun k low => by rw [sameNameFrom, sameNameFrom, bytes k (by simpa using low)]
    | cons c name ih =>
        intro k low
        rw [List.length_cons] at low
        rw [sameNameFrom, sameNameFrom, bytes k (by omega), ih (k + 1) (by omega)]
  exact from_k name 0 (by rw [Nat.zero_add]; exact short)

section Gone

variable (tree : s.Tree) (reach : s.Under root f) (gone : s.Gone f t)

include tree reach gone

/-- The other structures are as they were. -/
theorem Gone.struct (placed : s.Placed g) (other : g ≠ f) (low : w ≤ 44) :
    t.blk g.1 (g.2 + w) = s.blk g.1 (g.2 + w) := by
  refine gone.other _ _ ?_ fun present => tree.placed_ne_indirect reach placed present
  rintro ⟨same, bounds⟩
  exact tree.apart reach.placed placed other same low bounds

theorem Gone.isFreeEntry (placed : s.Placed g) (other : g ≠ f) :
    t.isFreeEntry g = s.isFreeEntry g := by
  unfold Fs.isFreeEntry nameByte
  rw [gone.struct tree reach placed other (by decide)]

theorem Gone.sameName (placed : s.Placed g) (other : g ≠ f) (short : name.length < MAXNAMELEN) :
    t.sameName g name = s.sameName g name := by
  apply sameName_congr _ short
  intro k low
  unfold nameByte
  rw [gone.struct tree reach placed other (by omega)]

theorem Gone.fIndirect (placed : s.Placed g) (other : g ≠ f) : t.fIndirect g = s.fIndirect g :=
  congrArg BitVec.toNat (gone.struct tree reach placed other (by decide))

/-- The other files keep their blocks. -/
theorem Gone.fileSlot (under : s.Under root g) (other : g ≠ f) (inside : i < NINDIRECT) :
    t.fileSlot g i = s.fileSlot g i := by
  have there := gone.fIndirect tree reach under.placed other
  by_cases direct : i < NDIRECT
  · have low : i < 10 := direct
    rw [fileSlot_direct direct, fileSlot_direct direct, Nat.add_assoc,
      gone.struct tree reach under.placed other (by omega)]
  · by_cases absent : s.fIndirect g = 0
    · rw [fileSlot_no_indirect (Nat.not_lt.mp direct) absent,
        fileSlot_no_indirect (Nat.not_lt.mp direct) (there.trans absent)]
    · have ptr : s.slotPtr g i = some (s.fIndirect g, i) := by
        rw [slotPtr, if_neg direct, if_pos ⟨inside, absent⟩]
      rw [fileSlot_of_same there ptr, fileSlot_of_same rfl ptr, gone.other]
      · rintro ⟨same, -⟩
        exact tree.placed_ne_indirect under reach.placed absent same.symm
      · intro present same
        have block : s.FileBlock g (s.fIndirect g) := ⟨absent, Or.inl rfl⟩
        exact other (tree.owner g f _ under reach block (same ▸ ⟨present, Or.inl rfl⟩))

theorem Gone.entries_eq (under : s.Under root d) (isDir : s.fType d = FTYPE_DIR) (other : d ≠ f) :
    t.entries d = s.entries d := by
  have size : t.fSize d = s.fSize d := gone.struct tree reach under.placed other (by decide)
  unfold Fs.entries filesFrom
  rw [size]
  refine List.flatMap_congr fun k inRange => ?_
  have low := (List.mem_range'_1.mp inRange).2
  rw [gone.fileSlot tree reach under other (tree.present d under isDir k (by omega)).1]

theorem Gone.fType (placed : s.Placed g) : t.fType g = s.fType g := by
  by_cases same : g = f
  · rw [same, gone.type]
  · exact gone.struct tree reach placed same (by decide)

/-- What is reached afterwards: what was reached before, but not through the file. -/
theorem Gone.under_iff : t.Under root g ↔ s.Under root g ∧ (g = root ∨ ¬ s.Under f g) := by
  constructor
  · intro under
    induction under with
    | refl => exact ⟨.refl, Or.inl rfl⟩
    | @entry d g _ isDir inDir named ih =>
        obtain ⟨above, kept⟩ := ih
        have other : d ≠ f := by
          rintro rfl
          rw [gone.entries_self] at inDir
          cases inDir
        rw [gone.fType tree reach above.placed] at isDir
        rw [gone.entries_eq tree reach above isDir other] at inDir
        have other' : g ≠ f := by
          rintro rfl
          rw [Named, gone.name] at named
          cases named
        rw [Named, gone.isFreeEntry tree reach (Or.inr ⟨d, above, isDir, inDir⟩) other'] at named
        refine ⟨above.entry isDir inDir named, Or.inr fun under => ?_⟩
        cases under with
        | refl => exact other' rfl
        | entry under' isDir' inDir' _ =>
            obtain rfl := tree.parent_unique above isDir inDir (reach.trans under') isDir' inDir'
            rcases kept with rfl | outside
            · exact other (tree.root_under reach under').symm
            · exact outside under'
  · rintro ⟨under, kept⟩
    induction under with
    | refl => exact .refl
    | @entry d g above isDir inDir named ih =>
        have notRoot := tree.entry_ne_root above isDir inDir
        have outside := kept.resolve_left notRoot
        have outside' : ¬ s.Under f d := fun under => outside (under.entry isDir inDir named)
        have other : d ≠ f := fun same => outside' (same ▸ .refl)
        have other' : g ≠ f := fun same => outside (same ▸ .refl)
        refine (ih (Or.inr outside')).entry ?_ ?_ ?_
        · rw [gone.fType tree reach above.placed, isDir]
        · rw [gone.entries_eq tree reach above isDir other]
          exact inDir
        · rw [Named, gone.isFreeEntry tree reach (Or.inr ⟨d, above, isDir, inDir⟩) other']
          exact named

/-! ## The blocks after a removal -/

theorem Gone.fileBlock_iff (under : s.Under root g) (other : g ≠ f) :
    t.FileBlock g b ↔ s.FileBlock g b := by
  unfold Fs.FileBlock
  rw [gone.fIndirect tree reach under.placed other]
  refine and_congr_right fun _ => or_congr_right (exists_congr fun i => ?_)
  refine and_congr_right fun inside => ?_
  rw [gone.fileSlot tree reach under other inside]

end Gone

/-- The blocks that truncating to size 0 frees. -/
def Freed (s : Fs) (f : FilePtr) (b : Nat) : Prop :=
  s.SlotBlock f 0 ((s.fSize f).toNat / 4096 + 1) b ∨ s.fIndirect f = b ∧ b ≠ 0

theorem Freed.fileBlock (freed : s.Freed f b) : s.FileBlock f b := by
  obtain ⟨i, -, -, holds, nonzero⟩ | ⟨same, nonzero⟩ := freed
  · refine ⟨nonzero, Or.inr ⟨i, ?_, holds⟩⟩
    by_contra outside
    have none : s.slotPtr f i = Option.none := by
      have beyond : ¬ i < NDIRECT := fun direct => outside (Nat.lt_trans direct (by decide))
      rw [slotPtr, if_neg beyond, if_neg fun both => outside both.1]
    rw [fileSlot, none] at holds
    exact nonzero holds.symm
  · exact ⟨nonzero, Or.inl same⟩

theorem Gone.inUse_iff (gone : s.Gone f t) : t.InUse b ↔ s.InUse b ∧ ¬ s.Freed f b := by
  unfold Fs.InUse
  rw [gone.nblocks, and_assoc, Bool.eq_false_iff, Bool.eq_false_iff, ne_eq, ne_eq, gone.free,
    not_or]
  exact Iff.rfl

/-- A name as a path can have it. -/
def Proper (name : FsName) : Prop := name ≠ [] ∧ ∀ c ∈ name, c ≠ 0

theorem mem_of_mem_splitOnP {q : Byte → Bool} (path : FsName) :
    ∀ name ∈ path.splitOnP q, ∀ c ∈ name, c ∈ path := by
  induction path with
  | nil => simp
  | cons a path ih =>
      intro name inSplit c inName
      rw [List.splitOnP_cons_eq_if_modifyHead] at inSplit
      split at inSplit
      · rcases List.mem_cons.mp inSplit with rfl | inSplit
        · cases inName
        · exact List.mem_cons_of_mem _ (ih name inSplit c inName)
      · cases split : path.splitOnP q with
        | nil => exact absurd split (List.splitOnP_ne_nil _ _)
        | cons head tail =>
            rw [split] at ih inSplit
            rcases List.mem_cons.mp inSplit with rfl | inSplit
            · rcases List.mem_cons.mp inName with rfl | inName
              · exact List.mem_cons_self
              · exact List.mem_cons_of_mem _ (ih head List.mem_cons_self c inName)
            · exact List.mem_cons_of_mem _ (ih name (List.mem_cons_of_mem _ inSplit) c inName)

theorem proper_of_mem {path : FsName} (clean : ∀ c ∈ path, c ≠ 0)
    (inPath : name ∈ components path) : Proper name := by
  obtain ⟨inSplit, nonempty⟩ := List.mem_filter.mp inPath
  refine ⟨by simpa using nonempty, fun c inName => ?_⟩
  exact clean c (mem_of_mem_splitOnP path name inSplit c inName)

theorem named_of_sameName (proper : Proper name) (same : s.sameName f name = true) : s.Named f := by
  obtain ⟨nonempty, clean⟩ := proper
  cases name with
  | nil => exact absurd rfl nonempty
  | cons c name =>
      rw [sameName, sameNameFrom, Bool.and_eq_true, beq_iff_eq] at same
      have nonzero := clean c List.mem_cons_self
      rw [Named, isFreeEntry, same.1]
      simpa using nonzero

theorem named_of_same (named : s.Named f) (same : s.sameName f name = true)
    (same' : s.sameName g name = true) : s.Named g := by
  rw [Named, isFreeEntry] at named ⊢
  cases name with
  | nil =>
      rw [sameName, sameNameFrom] at same
      exact absurd same (by rw [named]; decide)
  | cons c name =>
      rw [sameName, sameNameFrom, Bool.and_eq_true, beq_iff_eq] at same same'
      rw [same'.1, ← same.1, named]

/-- A structure has one name. -/
theorem sameNameFrom_inj : ∀ (name name' : FsName) (k : Nat), (∀ c ∈ name, c ≠ 0) →
    (∀ c ∈ name', c ≠ 0) → s.sameNameFrom f k name = true → s.sameNameFrom f k name' = true →
      name = name' := by
  intro name
  induction name with
  | nil =>
      intro name' k _ clean' left right
      cases name' with
      | nil => rfl
      | cons c name' =>
          rw [sameNameFrom, beq_iff_eq] at left
          rw [sameNameFrom, Bool.and_eq_true, beq_iff_eq] at right
          exact absurd (right.1.symm.trans left) (clean' c List.mem_cons_self)
  | cons c name ih =>
      intro name' k clean clean' left right
      rw [sameNameFrom, Bool.and_eq_true, beq_iff_eq] at left
      cases name' with
      | nil =>
          rw [sameNameFrom, beq_iff_eq] at right
          exact absurd (left.1.symm.trans right) (clean c List.mem_cons_self)
      | cons c' name' =>
          rw [sameNameFrom, Bool.and_eq_true, beq_iff_eq] at right
          have rest := ih name' (k + 1) (fun c h => clean c (List.mem_cons_of_mem _ h))
            (fun c h => clean' c (List.mem_cons_of_mem _ h)) left.2 right.2
          rw [← left.1, ← right.1, rest]

/-- A search that finds a file. -/
theorem lookup_spec (found : s.lookup d name = some g) :
    g ∈ s.entries d ∧ s.sameName g name = true :=
  ⟨List.mem_of_find?_eq_some found, List.find?_some (p := fun f => s.sameName f name) found⟩

/-- Where names are unique, a search finds the file with the name. -/
theorem Tree.lookup_eq (tree : s.Tree) (under : s.Under root d) (isDir : s.fType d = FTYPE_DIR)
    (proper : Proper name) (inDir : g ∈ s.entries d) (same : s.sameName g name = true) :
    s.lookup d name = some g := by
  cases found : s.lookup d name with
  | none =>
      have differs := List.find?_eq_none.mp found g inDir
      exact absurd same differs
  | some h =>
      obtain ⟨inDir', same'⟩ := lookup_spec found
      have named := named_of_sameName proper same'
      rw [tree.names d under isDir h inDir' g inDir name named same' same]

theorem Resolved.under (resolved : s.Resolved names dir g) (proper : ∀ name ∈ names, Proper name) :
    s.Under Fs.root g := by
  induction resolved with
  | root => exact .refl
  | down _ short isDir found ih =>
      obtain ⟨inDir, same⟩ := lookup_spec found
      exact (ih fun name h => proper name (List.mem_append_left _ h)).entry isDir inDir
        (named_of_sameName (proper _ (List.mem_append_right _ (List.mem_singleton_self _))) same)

/-- A file is reached in one way. -/
theorem Resolved.names_unique (tree : s.Tree) (resolved : s.Resolved names dir g) :
    ∀ {names' dir'}, s.Resolved names' dir' g → (∀ name ∈ names, Proper name) →
      (∀ name ∈ names', Proper name) → names = names' := by
  induction resolved with
  | root =>
      intro names' dir' resolved' _ proper'
      generalize here : Fs.root = g at resolved'
      cases resolved' with
      | root => rfl
      | down before short isDir found =>
          have above := before.under fun name h => proper' name (List.mem_append_left _ h)
          exact absurd here.symm (tree.entry_ne_root above isDir (lookup_spec found).1)
  | @down names name dir d g before short isDir found ih =>
      intro names' dir' resolved' proper proper'
      have above := before.under fun name h => proper name (List.mem_append_left _ h)
      obtain ⟨inDir, same⟩ := lookup_spec found
      cases resolved' with
      | root => exact absurd rfl (tree.entry_ne_root above isDir inDir)
      | @down names₂ name₂ dir₂ d₂ _ before' short' isDir' found' =>
          have above' := before'.under fun name h => proper' name (List.mem_append_left _ h)
          obtain ⟨inDir', same'⟩ := lookup_spec found'
          obtain rfl := tree.parent_unique above isDir inDir above' isDir' inDir'
          have last := proper name (List.mem_append_right _ (List.mem_singleton_self _))
          have last' := proper' name₂ (List.mem_append_right _ (List.mem_singleton_self _))
          rw [ih before' (fun name h => proper name (List.mem_append_left _ h))
            (fun name h => proper' name (List.mem_append_left _ h)),
            sameNameFrom_inj name name₂ 0 last.2 last'.2 same same']

theorem presentFor_of (present : ∀ d, s.Under root d → s.fType d = FTYPE_DIR → s.DirPresent d) :
    s.PresentFor Proper := fun _ _ d resolved proper isDir =>
  present d (resolved.under proper) isDir

theorem Tree.presentFor (tree : s.Tree) : s.PresentFor Proper := presentFor_of tree.present

/-- A path resolves when its names lead somewhere. -/
theorem resolves_iff {P : FsName → Prop} (present : s.PresentFor P)
    (proper : ∀ name ∈ components path, P name) :
    s.Resolves path ↔ ∃ dir g, s.Resolved (components path) dir g := by
  unfold Resolves
  rw [walkPath_eq]
  constructor
  · intro ok
    obtain ⟨w, m, run, outcome⟩ :=
      walkNames_outcome present (components path) proper [] none root s.mapped .root nofun
    have run' : s.walkNames none root (components path) = (w, s.withMapped m) := run
    rw [run'] at ok
    cases outcome with
    | found resolved => exact ⟨_, _, resolved⟩
    | long | notDir | missing | lastMissing => cases ok
  · rintro ⟨dir, g, resolved⟩
    obtain ⟨m, run, -⟩ := walkNames_append present resolved proper [] s.mapped
    rw [List.append_nil] at run
    have run' : s.walkNames none root (components path) = _ := run
    rw [run', walkNames]

theorem Gone.presentFor (tree : s.Tree) (reach : s.Under root f) (gone : s.Gone f t) :
    t.PresentFor Proper := by
  refine presentFor_of fun d under isDir => ?_
  obtain ⟨above, -⟩ := (gone.under_iff tree reach).mp under
  rw [gone.fType tree reach above.placed] at isDir
  by_cases self : d = f
  · obtain rfl := self
    intro i low
    rw [gone.size] at low
    exact absurd low (Nat.not_lt_zero i)
  · intro i low
    have size : t.fSize d = s.fSize d := gone.struct tree reach above.placed self (by decide)
    rw [size] at low
    obtain ⟨inside, holds, used, indirect⟩ := tree.present d above isDir i low
    rw [gone.fileSlot tree reach above self inside, gone.fIndirect tree reach above.placed self]
    have owned : ∀ b, s.FileBlock d b → s.InUse b → t.InUse b := fun b block used =>
      gone.inUse_iff.mpr ⟨used, fun freed =>
        self (tree.owner d f b above reach block freed.fileBlock)⟩
    refine ⟨inside, holds, owned _ ⟨holds, Or.inr ⟨i, inside, rfl⟩⟩ used, fun beyond => ?_⟩
    have present : s.fIndirect d ≠ 0 := fun absent => holds (fileSlot_no_indirect beyond absent)
    exact owned _ ⟨present, Or.inl rfl⟩ (indirect beyond)

/-- Names lead to one file. -/
theorem Resolved.file_unique {dir' : Option FilePtr} (resolved : s.Resolved names dir f) :
    s.Resolved names dir' g → f = g := by
  intro resolved'
  induction resolved generalizing dir' g with
  | root =>
      generalize here : ([] : List FsName) = names' at resolved'
      cases resolved' with
      | root => rfl
      | down => simp at here
  | @down names name dir d f before short isDir found ih =>
      generalize here : names ++ [name] = names' at resolved'
      cases resolved' with
      | root => simp at here
      | down before' short' isDir' found' =>
          obtain ⟨rfl, last⟩ := List.append_inj' here rfl
          obtain rfl := List.singleton_inj.mp last
          obtain rfl := ih before'
          rw [found] at found'
          exact Option.some.inj found'

/-- A file with another name is found as before. -/
theorem Gone.lookup_eq (tree : s.Tree) (reach : s.Under root f) (gone : s.Gone f t)
    (above : s.Under root d) (isDir : s.fType d = FTYPE_DIR) (other : d ≠ f) (other' : g ≠ f)
    (proper : Proper name) (short : name.length < MAXNAMELEN) (found : s.lookup d name = some g) :
    t.lookup d name = some g := by
  obtain ⟨inDir, same⟩ := lookup_spec found
  have dirEntries := gone.entries_eq tree reach above isDir other
  cases found' : t.lookup d name with
  | none =>
      have stays : g ∈ t.entries d := dirEntries.symm ▸ inDir
      have differs := List.find?_eq_none.mp found' g stays
      rw [gone.sameName tree reach (Or.inr ⟨d, above, isDir, inDir⟩) other' short] at differs
      exact absurd same differs
  | some h =>
      obtain ⟨inDir', same'⟩ := lookup_spec found'
      have named := named_of_sameName proper same'
      rw [dirEntries] at inDir'
      have other'' : h ≠ f := by
        rintro rfl
        rw [Named, gone.name] at named
        cases named
      rw [gone.sameName tree reach (Or.inr ⟨d, above, isDir, inDir'⟩) other'' short] at same'
      have named' := named_of_sameName proper same'
      rw [tree.names d above isDir h inDir' g inDir name named' same' same]

/-- The names that lead somewhere afterwards. -/
theorem Gone.resolved_iff {names₀ : List FsName} {dir₀ : Option FilePtr} (tree : s.Tree)
    (gone : s.Gone f t) (here : s.Resolved names₀ dir₀ f) (proper₀ : ∀ name ∈ names₀, Proper name)
    (proper : ∀ name ∈ names, Proper name) :
    t.Resolved names dir g ↔ s.Resolved names dir g ∧ (names = [] ∨ ¬ names₀ <+: names) := by
  have reach := here.under proper₀
  constructor
  · intro resolved
    induction resolved with
    | root => exact ⟨.root, Or.inl rfl⟩
    | @down names name dir d g before short isDir found ih =>
        have properInit : ∀ name ∈ names, Proper name := fun name h =>
          proper name (List.mem_append_left _ h)
        have properLast := proper name (List.mem_append_right _ (List.mem_singleton_self _))
        obtain ⟨before', kept⟩ := ih properInit
        have above := before'.under properInit
        obtain ⟨inDir, same⟩ := lookup_spec found
        have other : d ≠ f := by
          rintro rfl
          rw [gone.entries_self] at inDir
          cases inDir
        rw [gone.fType tree reach above.placed] at isDir
        rw [gone.entries_eq tree reach above isDir other] at inDir
        have other' : g ≠ f := by
          rintro rfl
          have named := named_of_sameName properLast same
          rw [Named, gone.name] at named
          cases named
        rw [gone.sameName tree reach (Or.inr ⟨d, above, isDir, inDir⟩) other' short] at same
        have after := before'.down short isDir (tree.lookup_eq above isDir properLast inDir same)
        refine ⟨after, Or.inr fun under => ?_⟩
        rcases List.prefix_concat_iff.mp under with whole | under
        · subst whole
          exact other' (after.file_unique here)
        · rcases kept with rfl | outside
          · obtain rfl := List.prefix_nil.mp under
            exact other (before'.file_unique here)
          · exact outside under
  · rintro ⟨resolved, kept⟩
    induction resolved with
    | root => exact .root
    | @down names name dir d g before short isDir found ih =>
        have properInit : ∀ name ∈ names, Proper name := fun name h =>
          proper name (List.mem_append_left _ h)
        have properLast := proper name (List.mem_append_right _ (List.mem_singleton_self _))
        have outside := kept.resolve_left (by simp)
        have outside' : ¬ names₀ <+: names := fun under =>
          outside (under.trans (List.prefix_append _ _))
        have above := before.under properInit
        obtain ⟨inDir, same⟩ := lookup_spec found
        have other : d ≠ f := by
          rintro rfl
          rw [here.names_unique tree before proper₀ properInit] at outside'
          exact outside' (List.prefix_refl _)
        have other' : g ≠ f := by
          rintro rfl
          rw [here.names_unique tree (before.down short isDir found) proper₀ proper] at outside
          exact outside (List.prefix_refl _)
        refine (ih properInit (Or.inr outside')).down short ?_
          (gone.lookup_eq tree reach above isDir other other' properLast short found)
        rw [gone.fType tree reach above.placed, isDir]

/-- A disk with a directory `a`, in which a file `b` has a block. -/
def nested : Fs :=
  { eightBlocks with
    bitmap := fun _ => 0xC0
    diskBitmap := fun _ => 0xC0
    blk := fun b w =>
      if b = 1 then (if w = 34 then 4096 else if w = 35 then FTYPE_DIR else if w = 36 then 3 else 0)
      else if b = 3 then
        (if w = 0 then 0x61 else if w = 32 then 4096 else if w = 33 then FTYPE_DIR
          else if w = 34 then 4 else 0)
      else if b = 4 then (if w = 0 then 0x62 else if w = 32 then 1 else if w = 34 then 5 else 0)
      else 0 }

end Fs

end Mos
