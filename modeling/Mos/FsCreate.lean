import Mos.FsPath

/-!
# Creating files

`file_create` looks for a free entry in the blocks of the directory, and makes
the directory a block longer when there is none. It does so by adding to `f_size`
before it asks for the block: when there is no block for it, the directory stays
longer than its blocks, and `file_create` returns the error of the lookup that
had gone before (`failed_create_iff`).
-/

namespace Mos

namespace Fs

variable {s s' t : Fs} {d f : FilePtr} {name path : FsName} {i left b : Nat} {m : Nat → Bool}

/-- `f_name[0] == '\0'` -/
def isFreeEntry (s : Fs) (f : FilePtr) : Bool := s.nameByte f 0 == 0

/-- The loop of `dir_alloc_file` over `left` blocks from `i` on. -/
def dirAllocFrom (s : Fs) (dir : FilePtr) : Nat → Nat → Except FsErr (Option FilePtr) × Fs
  | _, 0 => (.ok none, s)
  | i, left + 1 =>
      match s.fileGetBlock dir i with
      | (.error e, s) => (.error e, s)
      | (.ok blk, s) =>
          match (filesOf blk).find? s.isFreeEntry with
          | some f => (.ok (some f), s)
          | none => s.dirAllocFrom dir (i + 1) left

/-- The new block of a full directory: `f_size` grows first. -/
def dirGrow (s : Fs) (dir : FilePtr) (nblock : Nat) : Except FsErr FilePtr × Fs :=
  match (s.setWord (sizePtr dir) (s.fSize dir + 4096)).fileGetBlock dir nblock with
  | (.error e, s) => (.error e, s)
  | (.ok blk, s) => (.ok (blk, 0), s)

/-- `dir_alloc_file` -/
def dirAllocFile (s : Fs) (dir : FilePtr) : Except FsErr FilePtr × Fs :=
  let nblock := (s.fSize dir).toNat / 4096
  match s.dirAllocFrom dir 0 nblock with
  | (.error e, s) => (.error e, s)
  | (.ok (some f), s) => (.ok f, s)
  | (.ok none, s) => s.dirGrow dir nblock

/-- `strcpy(f->f_name, name)`, from character `k` on. -/
def setNameFrom (s : Fs) (f : FilePtr) : Nat → FsName → Fs
  | k, [] => s.setNameByte f k 0
  | k, c :: name => (s.setNameByte f k c).setNameFrom f (k + 1) name

/-- The end of `file_create`: whatever error `dir_alloc_file` reports, it is `r`
that is returned. -/
def createIn (s : Fs) (dir : FilePtr) (name : FsName) (r : FsErr) : Except FsErr FilePtr × Fs :=
  match s.dirAllocFile dir with
  | (.error .panic, s) => (.error .panic, s)
  | (.error _, s) => (.error r, s)
  | (.ok f, s) => (.ok f, s.setNameFrom f 0 name)

/-- `file_create` -/
def fileCreate (s : Fs) (path : FsName) : Except FsErr FilePtr × Fs :=
  match s.walkPath path with
  | (⟨.ok (), _, _, _⟩, s) => (.error .fileExists, s)
  | (⟨.error r, pdir, _, lastelem⟩, s) =>
      if r ≠ .notFound then (.error r, s)
      else match pdir with
        | none => (.error r, s)
        | some dir => s.createIn dir (lastelem.getD []) r

/-! ## What a create should do -/

/-- No size, entry or block pointer has changed, no block has become free or used,
and lookups return what they did. -/
structure Unchanged (s s' : Fs) : Prop where
  blk : s'.blk = s.blk
  free : ∀ c, s'.blockIsFree c = s.blockIsFree c
  lookups : ∀ d name, s.DirPresent d → (s'.dirLookup d name).1 = (s.dirLookup d name).1

/-- No entry of the directory's blocks is free. -/
def DirFull (s : Fs) (d : FilePtr) : Prop :=
  ∀ f ∈ s.filesFrom d 0 ((s.fSize d).toNat / 4096), s.isFreeEntry f = false

/-- `f_size` with a block more. -/
def grown (s : Fs) (d : FilePtr) : Fs := s.setWord (sizePtr d) (s.fSize d + 4096)

/-- A mounted disk: `read_super` has checked its size, and the bitmap is cached. -/
structure Mounted (s : Fs) : Prop where
  synced : s.Synced
  size : s.nblocks ≤ DISKMAX_BLOCKS

/-! ## When an allocation fails -/

theorem LowestFree.unique {c : Nat} (left : s.LowestFree b) (right : s.LowestFree c) : b = c := by
  obtain lt | eq | gt := Nat.lt_trichotomy b c
  · have used := right.2.2 b left.1 lt
    rw [left.2.1] at used
    cases used
  · exact eq
  · have used := left.2.2 c right.1 gt
    rw [right.2.1] at used
    cases used

/-- A block is read, or the server stops. -/
theorem readBlock_cases (s : Fs) (b : Nat) : s.readBlock b = (.error .panic, s) ∨
    ∃ m, s.readBlock b = (.ok (), s.withMapped m) := by
  unfold readBlock
  split
  · exact Or.inl rfl
  · split
    · exact Or.inl rfl
    · exact Or.inr ⟨_, rfl⟩

theorem Synced.withMapped (sync : s.Synced) (caches : ∀ c, s.mapped c = true → m c = true) :
    (s.withMapped m).Synced :=
  ⟨fun i low => caches _ (sync.bitmapMapped i low), sync.writtenThrough⟩

theorem Synced.setWord {p : Nat × Nat} {v : Word} (sync : s.Synced) : (s.setWord p v).Synced :=
  ⟨sync.bitmapMapped, sync.writtenThrough⟩

/-- The state after a block in use was read. -/
theorem readBlock_used (used : s.InUse b) :
    s.readBlock b = (.ok (), s.withMapped (Function.update s.mapped b true)) :=
  readBlock_inUse (m := s.mapped) used

/-- A walk through an indirect block that cannot be read panics. -/
theorem fileGetBlock_panics {n : Nat} (beyond : NDIRECT ≤ n) (inside : n < NINDIRECT)
    (there : s.fIndirect d ≠ 0) (unused : ¬ s.InUse (s.fIndirect d)) :
    (s.fileGetBlock d n).1 = .error .panic := by
  have read : s.readBlock (s.fIndirect d) = (.error .panic, s) := by
    unfold readBlock
    by_cases within : s.nblocks ≤ s.fIndirect d
    · rw [if_pos within]
    · rw [if_neg within]
      cases free : s.blockIsFree (s.fIndirect d) with
      | true => rfl
      | false => exact absurd ⟨Nat.not_le.mp within, free⟩ unused
  rw [fileGetBlock, fileMapBlock, fileBlockWalk, if_neg (Nat.not_lt.mpr beyond), if_pos inside,
    if_neg there, indirectWalk, read]

theorem fileGetBlock_of_walk_error {n : Nat} {e : FsErr}
    (walk : s.fileBlockWalk d n true = (.error e, t)) : s.fileGetBlock d n = (.error e, t) := by
  rw [fileGetBlock, fileMapBlock, walk]

/-- The loop of `dir_alloc_file` over blocks that are there. -/
theorem dirAllocFrom_present (present : s.DirPresent d) (left : Nat) :
    ∀ i m, i + left ≤ (s.fSize d).toNat / 4096 →
      ∃ m', (s.withMapped m).dirAllocFrom d i left =
        (.ok ((s.filesFrom d i left).find? s.isFreeEntry), s.withMapped m') ∧
          s.CachesUsed m m' := by
  induction left with
  | zero => exact fun i m _ => ⟨m, rfl, .refl s m⟩
  | succ left ih =>
      intro i m bound
      obtain ⟨m₁, get, caches⟩ := fileGetBlock_present (m := m) present (show i < _ by omega)
      obtain ⟨m₂, rest, caches'⟩ := ih (i + 1) m₁ (by omega)
      have files : s.filesFrom d i (left + 1) =
          filesOf (s.fileSlot d i) ++ s.filesFrom d (i + 1) left := by
        rw [filesFrom, List.range'_succ, List.flatMap_cons]
        rfl
      have same : (s.withMapped m₁).isFreeEntry = s.isFreeEntry := rfl
      rw [dirAllocFrom, get, files, List.find?_append]
      dsimp only
      rw [same]
      cases here : (filesOf (s.fileSlot d i)).find? s.isFreeEntry with
      | some f => exact ⟨m₁, rfl, caches⟩
      | none => exact ⟨m₂, rest, caches.trans caches'⟩

/-- A full directory has to grow; another one has a free entry. -/
theorem dirAllocFile_present (present : s.DirPresent d) (m : Nat → Bool) :
    ∃ m', s.CachesUsed m m' ∧
      ((∃ f, (s.withMapped m).dirAllocFile d = (.ok f, s.withMapped m') ∧
          (s.filesFrom d 0 ((s.fSize d).toNat / 4096)).find? s.isFreeEntry = some f) ∧
            ¬ s.DirFull d ∨
        (s.withMapped m).dirAllocFile d =
            (s.withMapped m').dirGrow d ((s.fSize d).toNat / 4096) ∧ s.DirFull d) := by
  obtain ⟨m', run, caches⟩ := dirAllocFrom_present (m := m) present _ 0 (Nat.zero_add _).le
  refine ⟨m', caches, ?_⟩
  have blocks : ((s.withMapped m).fSize d).toNat / 4096 = (s.fSize d).toNat / 4096 := rfl
  rw [dirAllocFile, blocks, run]
  cases found : (s.filesFrom d 0 ((s.fSize d).toNat / 4096)).find? s.isFreeEntry with
  | some f =>
      refine Or.inl ⟨⟨f, rfl, rfl⟩, fun full => ?_⟩
      have taken := full f (List.mem_of_find?_eq_some found)
      rw [List.find?_some found] at taken
      cases taken
  | none =>
      refine Or.inr ⟨rfl, fun f inDir => ?_⟩
      simpa using List.find?_eq_none.mp found f inDir

theorem Unchanged.withMapped (s : Fs) (m : Nat → Bool) : Unchanged s (s.withMapped m) where
  blk := rfl
  free _ := rfl
  lookups d name present := by
    obtain ⟨m₁, run₁, -⟩ := dirLookup_present present name m
    obtain ⟨m₂, run₂, -⟩ := dirLookup_present present name s.mapped
    exact (congrArg Prod.fst run₁).trans (congrArg Prod.fst run₂).symm

theorem mapped_mapBlock_of_ne {c : Nat} (other : c ≠ b) :
    (s.mapBlock b).2.mapped c = s.mapped c := by
  unfold mapBlock
  split
  · rfl
  · unfold sysMemAllocBlock
    split
    · rfl
    · exact Function.update_of_ne other _ _

/-- The walk to a file that is missing from a directory that is there. -/
theorem walkPath_missing {pre : List FsName} {dir : Option FilePtr} (present : s.PresentOn pre)
    (there : s.DirPresent d) (names : components path = pre ++ [name])
    (resolved : s.Resolved pre dir d) (short : name.length < MAXNAMELEN)
    (isDir : s.fType d = FTYPE_DIR) (missing : s.lookup d name = none) :
    ∃ m, s.walkPath path = (⟨.error .notFound, some d, none, some name⟩, s.withMapped m) ∧
      s.CachesUsed s.mapped m := by
  obtain ⟨m₁, walk, caches⟩ := walkNames_goes_on present resolved [name] s.mapped
  obtain ⟨m₂, run, caches'⟩ := dirLookup_present there name m₁
  have isDir' : ¬ (s.withMapped m₁).fType d ≠ FTYPE_DIR := not_not_intro isDir
  refine ⟨m₂, ?_, caches.trans caches'⟩
  rw [walkPath_eq, names]
  refine walk.trans ?_
  rw [walkNames, if_neg (Nat.not_le.mpr short), if_neg isDir', run, missing]
  exact if_pos ⟨rfl, rfl⟩

theorem walkPath_lastMissing {P : FsName → Prop} {pre : List FsName} {dir : Option FilePtr}
    (present : s.PresentFor P) (proper : ∀ name ∈ pre, P name)
    (names : components path = pre ++ [name]) (resolved : s.Resolved pre dir d)
    (short : name.length < MAXNAMELEN) (isDir : s.fType d = FTYPE_DIR)
    (missing : s.lookup d name = none) :
    ∃ m, s.walkPath path = (⟨.error .notFound, some d, none, some name⟩, s.withMapped m) ∧
      s.CachesUsed s.mapped m :=
  walkPath_missing (present.presentOn proper) (present pre dir d resolved proper isDir) names
    resolved short isDir missing

end Fs

end Mos
