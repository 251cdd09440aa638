import Mos.FsTruncate

/-!
# Path resolution

`walk_path` scans a path by hand; it sees the nonempty components between the
slashes and nothing else, and looks one after the other up from the root. Where
the blocks of the directories are all there, a lookup is a search in the files of
the directory, and leaves everything but the cache as it was.
-/

namespace Mos

namespace Fs

variable {s s' : Fs} {d f g : FilePtr} {dir : Option FilePtr} {name : FsName}
  {names pre post : List FsName} {p path : FsName} {i left : Nat} {m : Nat → Bool} {w : Walk}

/-- The nonempty components of a path. -/
def components (path : FsName) : List FsName :=
  (path.splitOnP (· == slash)).filter fun name => name ≠ []

/-- `dir_lookup` of one name after the other, from `file` on, which was found in
`dir`. -/
def walkNames (s : Fs) (dir : Option FilePtr) (file : FilePtr) : List FsName → Walk × Fs
  | [] => (⟨.ok (), dir, some file, none⟩, s)
  | name :: names =>
      if MAXNAMELEN ≤ name.length then (.failed .badPath, s)
      else if s.fType file ≠ FTYPE_DIR then (.failed .notFound, s)
      else match s.dirLookup file name with
        | (.ok found, s) => s.walkNames (some file) found names
        | (.error e, s) =>
            if e = .notFound ∧ names = [] then (⟨.error e, some file, none, some name⟩, s)
            else (.failed e, s)

/-! ## The scanner -/

theorem components_nil : components [] = [] := by
  simp [components]

theorem components_slash (p : FsName) : components (slash :: p) = components p := by
  simp [components, List.splitOnP_cons_eq_if_modifyHead]

@[simp] theorem components_skipSlash (p : FsName) : components (skipSlash p) = components p := by
  induction p with
  | nil => rfl
  | cons c p ih =>
      rw [skipSlash]
      split
      · next isSlash => rw [isSlash, components_slash, ih]
      · rfl

/-- A path is its first name and what follows. -/
theorem scanName_append (p : FsName) : scanName p ++ restOf p = p := List.takeWhile_append_dropWhile

theorem scanName_no_slash : ∀ c ∈ scanName p, (c == slash) = false := by
  intro c inName
  have all : ∀ c ∈ scanName p, (c != slash) = true := List.all_eq_true.mp List.all_takeWhile
  simpa using all c inName

/-- A path that starts with a name has it as its first component. -/
theorem components_cons {c : Byte} (start : c ≠ slash) :
    components (c :: p) = scanName (c :: p) :: components (restOf (c :: p)) := by
  have nonempty : scanName (c :: p) ≠ [] := by
    rw [scanName, List.takeWhile_cons, if_pos (by simpa using start)]
    exact List.cons_ne_nil _ _
  conv_lhs => rw [← scanName_append (c :: p)]
  cases rest : restOf (c :: p) with
  | nil =>
      have single : (scanName (c :: p)).splitOnP (· == slash) = [scanName (c :: p)] :=
        List.splitOnP_eq_singleton scanName_no_slash
      rw [List.append_nil, components_nil, components, single]
      simp [nonempty]
  | cons sep p' =>
      have isSlash : sep = slash := by
        have head := List.head?_dropWhile_not (fun c => c != slash) (c :: p)
        have rest' : List.dropWhile (fun c => c != slash) (c :: p) = sep :: p' := rest
        rw [rest'] at head
        simpa using head
      subst isSlash
      have first : (scanName (c :: p) ++ slash :: p').splitOnP (· == slash) =
          scanName (c :: p) :: p'.splitOnP (· == slash) :=
        List.splitOnP_append_cons_of_forall_mem scanName_no_slash slash (by simp) p'
      rw [components_slash, components, first, components]
      simp [nonempty]

/-- What follows is at its end or at a name. -/
theorem skipSlash_head (p : FsName) :
    skipSlash p = [] ∨ ∃ c q, skipSlash p = c :: q ∧ c ≠ slash := by
  induction p with
  | nil => exact Or.inl rfl
  | cons c p ih =>
      rw [skipSlash]
      split
      · exact ih
      · next other => exact Or.inr ⟨c, p, rfl, other⟩

theorem skipSlash_eq_nil (p : FsName) : skipSlash p = [] ↔ components p = [] := by
  rw [← components_skipSlash]
  obtain nil | ⟨c, q, cons, start⟩ := skipSlash_head p
  · rw [nil, components_nil]
    exact ⟨fun _ => rfl, fun _ => rfl⟩
  · rw [cons, components_cons start]
    exact iff_of_false (List.cons_ne_nil _ _) (List.cons_ne_nil _ _)

/-- The loop looks the components up, one after the other. -/
theorem walkFrom_eq (n : Nat) : ∀ (s : Fs) (dir : Option FilePtr) (file : FilePtr) (p : FsName),
    p.length ≤ n → (p = [] ∨ ∃ c q, p = c :: q ∧ c ≠ slash) →
      s.walkFrom dir file p = s.walkNames dir file (components p) := by
  induction n with
  | zero =>
      intro s dir file p short _
      rw [List.length_eq_zero_iff.mp (Nat.le_zero.mp short), walkFrom, components_nil, walkNames]
  | succ n ih =>
      rintro s dir file p short (rfl | ⟨c, q, rfl, start⟩)
      · rw [walkFrom, components_nil, walkNames]
      · rw [walkFrom, components_cons start, walkNames]
        have shorter := length_rest_lt c q
        have next := fun t found => ih t (some file) found (skipSlash (restOf (c :: q)))
          (by omega) (skipSlash_head _)
        simp only [components_skipSlash] at next
        refine if_congr Iff.rfl rfl (if_congr Iff.rfl rfl ?_)
        rcases s.dirLookup file (scanName (c :: q)) with ⟨r, t⟩
        cases r with
        | ok found => exact next t found
        | error e => simp only [skipSlash_eq_nil]

theorem walkPath_eq (s : Fs) (path : FsName) :
    s.walkPath path = s.walkNames none root (components path) := by
  rw [walkPath, walkFrom_eq _ s none root _ (Nat.le_refl _) (skipSlash_head path),
    components_skipSlash]

/-! ## Directories whose blocks are there -/

/-- Every block of the directory is there and can be read. -/
def DirPresent (s : Fs) (d : FilePtr) : Prop :=
  ∀ i < (s.fSize d).toNat / 4096, i < NINDIRECT ∧ s.fileSlot d i ≠ 0 ∧ s.InUse (s.fileSlot d i) ∧
    (NDIRECT ≤ i → s.InUse (s.fIndirect d))

/-- The files of `left` blocks of a directory, from block `i` on. -/
def filesFrom (s : Fs) (d : FilePtr) (i left : Nat) : List FilePtr :=
  (List.range' i left).flatMap fun k => filesOf (s.fileSlot d k)

/-- The first file of the directory with that name. -/
def lookup (s : Fs) (d : FilePtr) (name : FsName) : Option FilePtr :=
  (s.filesFrom d 0 ((s.fSize d).toNat / 4096)).find? fun f => s.sameName f name

/-- The files below the root. -/
inductive Reach (s : Fs) : FilePtr → Prop
  | root : Reach s root
  | entry {d f : FilePtr} {name : FsName} : Reach s d → s.fType d = FTYPE_DIR →
      s.lookup d name = some f → Reach s f

/-- The blocks of every directory in the tree are there. -/
def PresentTree (s : Fs) : Prop := ∀ d, s.Reach d → s.fType d = FTYPE_DIR → s.DirPresent d

/-- The same file system with another set of blocks in the cache. -/
def withMapped (s : Fs) (m : Nat → Bool) : Fs := { s with mapped := m }

@[simp] theorem withMapped_withMapped {m' : Nat → Bool} :
    (s.withMapped m).withMapped m' = s.withMapped m' := rfl

/-- A name is compared with the bytes of the structure only. -/
theorem sameNameFrom_congr (same : ∀ k, s'.nameByte g k = s.nameByte f k) (name : FsName) :
    ∀ k, s'.sameNameFrom g k name = s.sameNameFrom f k name := by
  induction name with
  | nil => exact fun k => by rw [sameNameFrom, sameNameFrom, same]
  | cons c name ih => exact fun k => by rw [sameNameFrom, sameNameFrom, same, ih]

@[simp] theorem sameName_withMapped : (s.withMapped m).sameName f name = s.sameName f name :=
  @sameNameFrom_congr s (s.withMapped m) f f (fun _ => rfl) name 0

@[simp] theorem lookup_withMapped : (s.withMapped m).lookup d name = s.lookup d name := by
  unfold lookup
  simp only [sameName_withMapped]
  rfl

@[simp] theorem fIndirect_withMapped : (s.withMapped m).fIndirect d = s.fIndirect d := rfl

@[simp] theorem fType_withMapped : (s.withMapped m).fType d = s.fType d := rfl

/-- Blocks have come into the cache, only ones that are not free. -/
structure CachesUsed (s : Fs) (m m' : Nat → Bool) : Prop where
  free : ∀ b, s.blockIsFree b = true → m' b = m b
  grows : ∀ b, m b = true → m' b = true

theorem CachesUsed.refl (s : Fs) (m : Nat → Bool) : s.CachesUsed m m :=
  ⟨fun _ _ => rfl, fun _ cached => cached⟩

theorem CachesUsed.trans {m₁ m₂ m₃ : Nat → Bool} (first : s.CachesUsed m₁ m₂)
    (second : s.CachesUsed m₂ m₃) : s.CachesUsed m₁ m₃ where
  free b free := (second.free b free).trans (first.free b free)
  grows b cached := second.grows b (first.grows b cached)

theorem CachesUsed.update {b : Nat} (used : s.InUse b) :
    s.CachesUsed m (Function.update m b true) where
  free c free := by
    apply Function.update_of_ne
    rintro rfl
    rw [used.2] at free
    cases free
  grows c cached := by
    by_cases same : c = b
    · rw [same]
      exact Function.update_self ..
    · rw [Function.update_of_ne same]
      exact cached

theorem readBlock_inUse {b : Nat} (used : s.InUse b) :
    (s.withMapped m).readBlock b = (.ok (), s.withMapped (Function.update m b true)) := by
  have free : (s.withMapped m).blockIsFree b = false := used.2
  have inside : ¬ (s.withMapped m).nblocks ≤ b := Nat.not_le.mpr used.1
  rw [readBlock, if_neg inside, free]
  rfl

/-- A block that is there is read. -/
theorem fileGetBlock_slot (inside : i < NINDIRECT) (holds : s.fileSlot d i ≠ 0)
    (used : s.InUse (s.fileSlot d i)) (indirect : NDIRECT ≤ i → s.InUse (s.fIndirect d)) :
    ∃ m', (s.withMapped m).fileGetBlock d i = (.ok (s.fileSlot d i), s.withMapped m') ∧
      s.CachesUsed m m' := by
  have slot : ∀ m' b w, s.slotPtr d i = some (b, w) → s.CachesUsed m m' →
      (s.withMapped m).fileBlockWalk d i true = (.ok (b, w), s.withMapped m') →
      ∃ m'', (s.withMapped m).fileGetBlock d i = (.ok (s.fileSlot d i), s.withMapped m'') ∧
        s.CachesUsed m m'' := by
    intro m' b w ptr caches walk
    have value : ((s.withMapped m').word (b, w)).toNat = s.fileSlot d i :=
      (fileSlot_of_same rfl ptr).symm
    have nonzero : ¬ (s.withMapped m').word (b, w) = 0 := by
      intro zero
      rw [zero] at value
      exact holds value.symm
    have map : (s.withMapped m).fileMapBlock d i true =
        (.ok (s.fileSlot d i), s.withMapped m') := by
      rw [fileMapBlock, walk]
      dsimp only
      rw [if_neg nonzero, value]
    refine ⟨Function.update m' (s.fileSlot d i) true, ?_, caches.trans (.update used)⟩
    rw [fileGetBlock, map]
    dsimp only
    rw [readBlock_inUse used]
  by_cases direct : i < NDIRECT
  · exact slot m d.1 (d.2 + 34 + i) (if_pos direct) (.refl s m) (if_pos direct)
  · have there : s.fIndirect d ≠ 0 := fun none =>
      holds (fileSlot_no_indirect (Nat.not_lt.mp direct) none)
    have there' : ¬ (s.withMapped m).fIndirect d = 0 := there
    have same : (s.withMapped m).fIndirect d = s.fIndirect d := rfl
    refine slot (Function.update m (s.fIndirect d) true) (s.fIndirect d) i ?_
      (.update (indirect (Nat.not_lt.mp direct))) ?_
    · rw [slotPtr, if_neg direct, if_pos ⟨inside, there⟩]
    · rw [fileBlockWalk, if_neg direct, if_pos inside, if_neg there', indirectWalk, same,
        readBlock_inUse (indirect (Nat.not_lt.mp direct))]
      rfl

theorem fileGetBlock_present (present : s.DirPresent d) (low : i < (s.fSize d).toNat / 4096) :
    ∃ m', (s.withMapped m).fileGetBlock d i = (.ok (s.fileSlot d i), s.withMapped m') ∧
      s.CachesUsed m m' := by
  obtain ⟨inside, holds, used, indirect⟩ := present i low
  exact fileGetBlock_slot inside holds used indirect

/-- The loop of `dir_lookup` searches the files of the blocks it reads. -/
theorem dirLookupFrom_present (present : s.DirPresent d) (left : Nat) :
    ∀ i m, i + left ≤ (s.fSize d).toNat / 4096 →
      ∃ m', (s.withMapped m).dirLookupFrom d name i left =
        (match (s.filesFrom d i left).find? fun f => s.sameName f name with
          | some f => .ok f
          | none => .error .notFound, s.withMapped m') ∧ s.CachesUsed m m' := by
  induction left with
  | zero => exact fun i m _ => ⟨m, rfl, .refl s m⟩
  | succ left ih =>
      intro i m bound
      obtain ⟨m₁, get, caches⟩ := fileGetBlock_present (m := m) present (show i < _ by omega)
      obtain ⟨m₂, rest, caches'⟩ := ih (i + 1) m₁ (by omega)
      have files : s.filesFrom d i (left + 1) =
          filesOf (s.fileSlot d i) ++ s.filesFrom d (i + 1) left := by
        rw [filesFrom, List.range'_succ, List.flatMap_cons]
        rfl
      rw [dirLookupFrom, get, files, List.find?_append]
      dsimp only
      cases here : (filesOf (s.fileSlot d i)).find? fun f => s.sameName f name with
      | some f =>
          simp only [sameName_withMapped, here]
          exact ⟨m₁, rfl, caches⟩
      | none =>
          simp only [sameName_withMapped, here]
          exact ⟨m₂, rest, caches.trans caches'⟩

theorem dirLookup_present (present : s.DirPresent d) (name : FsName) (m : Nat → Bool) :
    ∃ m', (s.withMapped m).dirLookup d name =
      (match s.lookup d name with
        | some f => .ok f
        | none => .error .notFound, s.withMapped m') ∧ s.CachesUsed m m' :=
  dirLookupFrom_present present _ 0 m (Nat.zero_add _).le

/-! ## Where a path leads -/

/-- The names lead from the root to a file, found in a directory. -/
inductive Resolved (s : Fs) : List FsName → Option FilePtr → FilePtr → Prop
  | root : Resolved s [] none root
  | down {names : List FsName} {name : FsName} {dir : Option FilePtr} {d f : FilePtr} :
      Resolved s names dir d → name.length < MAXNAMELEN → s.fType d = FTYPE_DIR →
      s.lookup d name = some f → Resolved s (names ++ [name]) (some d) f

/-- What a walk along the names returns. -/
inductive Outcome (s : Fs) (names : List FsName) : Walk → Prop
  | found {dir : Option FilePtr} {f : FilePtr} : s.Resolved names dir f →
      Outcome s names ⟨.ok (), dir, some f, none⟩
  | long {pre post : List FsName} {name : FsName} {dir : Option FilePtr} {d : FilePtr} :
      names = pre ++ name :: post → s.Resolved pre dir d → MAXNAMELEN ≤ name.length →
      Outcome s names (.failed .badPath)
  | notDir {pre post : List FsName} {name : FsName} {dir : Option FilePtr} {d : FilePtr} :
      names = pre ++ name :: post → s.Resolved pre dir d → name.length < MAXNAMELEN →
      s.fType d ≠ FTYPE_DIR → Outcome s names (.failed .notFound)
  | missing {pre post : List FsName} {name : FsName} {dir : Option FilePtr} {d : FilePtr} :
      names = pre ++ name :: post → s.Resolved pre dir d → name.length < MAXNAMELEN →
      s.fType d = FTYPE_DIR → s.lookup d name = none → post ≠ [] →
      Outcome s names (.failed .notFound)
  | lastMissing {pre : List FsName} {name : FsName} {dir : Option FilePtr} {d : FilePtr} :
      names = pre ++ [name] → s.Resolved pre dir d → name.length < MAXNAMELEN →
      s.fType d = FTYPE_DIR → s.lookup d name = none →
      Outcome s names ⟨.error .notFound, some d, none, some name⟩

theorem Resolved.reach (h : s.Resolved names dir f) : s.Reach f := by
  induction h with
  | root => exact .root
  | down _ _ isDir found ih => exact ih.entry isDir found

theorem forall_mem_concat {P : FsName → Prop} (init : ∀ name ∈ names, P name) (last : P name) :
    ∀ n ∈ names ++ [name], P n := by
  intro n inNames
  rcases List.mem_append.mp inNames with inInit | isLast
  · exact init n inInit
  · rw [List.mem_singleton.mp isLast]
    exact last

/-- The directories that names of that kind lead to have their blocks. -/
def PresentFor (s : Fs) (P : FsName → Prop) : Prop :=
  ∀ names dir d, s.Resolved names dir d → (∀ name ∈ names, P name) → s.fType d = FTYPE_DIR →
    s.DirPresent d

theorem PresentTree.presentFor (tree : s.PresentTree) (P : FsName → Prop) : s.PresentFor P :=
  fun _ _ d resolved _ isDir => tree d resolved.reach isDir

/-- The directories in which one of the names is looked up have their blocks. -/
def PresentOn (s : Fs) (names : List FsName) : Prop :=
  ∀ pre name post dir d, names = pre ++ name :: post → s.Resolved pre dir d →
    s.fType d = FTYPE_DIR → s.DirPresent d

theorem PresentFor.presentOn {P : FsName → Prop} (present : s.PresentFor P)
    (proper : ∀ name ∈ names, P name) : s.PresentOn names := by
  rintro pre name post dir d rfl resolved isDir
  exact present pre dir d resolved (fun n h => proper n (List.mem_append_left _ h)) isDir

theorem PresentTree.presentOn (tree : s.PresentTree) (names : List FsName) : s.PresentOn names :=
  fun _ _ _ _ d _ resolved isDir => tree d resolved.reach isDir

theorem PresentOn.append {post : List FsName} (present : s.PresentOn (names ++ post)) :
    s.PresentOn names := by
  rintro pre name rest dir d rfl resolved isDir
  exact present pre name (rest ++ post) dir d (by simp) resolved isDir

/-- The walk from where the first names led. -/
theorem walkNames_on (post : List FsName) :
    ∀ pre dir f m, s.PresentOn (pre ++ post) → s.Resolved pre dir f →
      ∃ w m', (s.withMapped m).walkNames dir f post = (w, s.withMapped m') ∧
        s.Outcome (pre ++ post) w := by
  induction post with
  | nil =>
      intro pre dir f m _ resolved
      refine ⟨_, m, rfl, ?_⟩
      rw [List.append_nil]
      exact .found resolved
  | cons name post ih =>
      intro pre dir f m present resolved
      rw [walkNames]
      by_cases long : MAXNAMELEN ≤ name.length
      · rw [if_pos long]
        exact ⟨_, m, rfl, .long rfl resolved long⟩
      have short := Nat.not_le.mp long
      rw [if_neg long]
      by_cases isDir : s.fType f = FTYPE_DIR
      · have isDir' : ¬ (s.withMapped m).fType f ≠ FTYPE_DIR := not_not_intro isDir
        rw [if_neg isDir']
        have there := present pre name post dir f rfl resolved isDir
        obtain ⟨m', run, -⟩ := dirLookup_present there name m
        rw [run]
        cases found : s.lookup f name with
        | some g =>
            have again : s.PresentOn (pre ++ [name] ++ post) := by
              rwa [List.append_assoc, List.singleton_append]
            obtain ⟨w, m'', rest, outcome⟩ :=
              ih (pre ++ [name]) (some f) g m' again (.down resolved short isDir found)
            refine ⟨w, m'', rest, ?_⟩
            rwa [List.append_assoc] at outcome
        | none =>
            cases post with
            | nil => exact ⟨_, m', if_pos ⟨rfl, rfl⟩, .lastMissing rfl resolved short isDir found⟩
            | cons next post =>
                exact ⟨_, m', if_neg (fun both => List.cons_ne_nil _ _ both.2),
                  .missing rfl resolved short isDir found (List.cons_ne_nil _ _)⟩
      · have isDir' : (s.withMapped m).fType f ≠ FTYPE_DIR := isDir
        rw [if_pos isDir']
        exact ⟨_, m, rfl, .notDir rfl resolved short isDir⟩

theorem walkNames_outcome {P : FsName → Prop} (present : s.PresentFor P) (post : List FsName)
    (proper : ∀ name ∈ post, P name) (pre : List FsName) (dir : Option FilePtr) (f : FilePtr)
    (m : Nat → Bool) (resolved : s.Resolved pre dir f) (properPre : ∀ name ∈ pre, P name) :
    ∃ w m', (s.withMapped m).walkNames dir f post = (w, s.withMapped m') ∧
      s.Outcome (pre ++ post) w := by
  refine walkNames_on post pre dir f m (present.presentOn fun name inNames => ?_) resolved
  rcases List.mem_append.mp inNames with inPre | inPost
  · exact properPre name inPre
  · exact proper name inPost

/-- The walk along names that lead somewhere goes on from there. -/
theorem walkNames_goes_on (present : s.PresentOn pre) (resolved : s.Resolved pre dir f) :
    ∀ post m, ∃ m', (s.withMapped m).walkNames none root (pre ++ post) =
      (s.withMapped m').walkNames dir f post ∧ s.CachesUsed m m' := by
  induction resolved with
  | root => exact fun post m => ⟨m, rfl, .refl s m⟩
  | @down names name dir d f before short isDir found ih =>
      intro post m
      obtain ⟨m₁, walk, caches⟩ := ih present.append (name :: post) m
      obtain ⟨m₂, run, caches'⟩ :=
        dirLookup_present (present names name [] dir d rfl before isDir) name m₁
      refine ⟨m₂, ?_, caches.trans caches'⟩
      have isDir' : ¬ (s.withMapped m₁).fType d ≠ FTYPE_DIR := not_not_intro isDir
      rw [List.append_assoc, List.singleton_append, walk, walkNames, if_neg (Nat.not_le.mpr short),
        if_neg isDir', run, found]

theorem walkNames_append {P : FsName → Prop} (present : s.PresentFor P)
    (resolved : s.Resolved pre dir f) (proper : ∀ name ∈ pre, P name) (post : List FsName)
    (m : Nat → Bool) : ∃ m', (s.withMapped m).walkNames none root (pre ++ post) =
      (s.withMapped m').walkNames dir f post ∧ s.CachesUsed m m' :=
  walkNames_goes_on (present.presentOn proper) resolved post m

/-- Where the directories are all there, `walk_path` looks up the nonempty
components of the path one after the other, returns what they lead to, and changes
nothing but the cache. -/
theorem path_resolution (s : Fs) (tree : s.PresentTree) (path : FsName) :
    ∃ w m, s.walkPath path = (w, s.withMapped m) ∧
      s.walkNames none root (components path) = (w, s.withMapped m) ∧
      s.Outcome (components path) w := by
  obtain ⟨w, m, run, outcome⟩ :=
    walkNames_outcome (tree.presentFor fun _ => True) (components path) (fun _ _ => trivial)
      [] none root s.mapped .root fun _ _ => trivial
  exact ⟨w, m, (walkPath_eq s path).trans run, run, outcome⟩

/-- A disk whose root holds the file `a`. -/
def oneFile : Fs :=
  { eightBlocks with
    bitmap := fun _ => 0xF0
    diskBitmap := fun _ => 0xF0
    blk := fun b w =>
      if b = 1 then (if w = 34 then 4096 else if w = 35 then FTYPE_DIR else if w = 36 then 3 else 0)
      else if b = 3 ∧ w = 0 then 0x61 else 0 }

theorem reach_oneFile (reached : oneFile.Reach d) : d = root ∨ oneFile.fType d ≠ FTYPE_DIR := by
  induction reached with
  | root => exact Or.inl rfl
  | @entry d f name _ isDir found ih =>
      obtain rfl := ih.resolve_right (not_not_intro isDir)
      have inFiles := List.mem_of_find?_eq_some found
      have files : oneFile.filesFrom root 0 ((oneFile.fSize root).toNat / 4096) = filesOf 3 := by
        decide
      rw [files] at inFiles
      obtain ⟨j, -, rfl⟩ := List.mem_map.mp inFiles
      refine Or.inr ?_
      have word : oneFile.fType (3, 64 * j) = 0 := by
        simp [fType, oneFile]
      rw [word]
      decide

theorem presentTree_oneFile : oneFile.PresentTree := by
  intro d reached isDir
  obtain rfl := (reach_oneFile reached).resolve_right (not_not_intro isDir)
  intro i low
  obtain rfl : i = 0 := by
    have blocks : (oneFile.fSize root).toNat / 4096 = 1 := by decide
    omega
  exact ⟨by decide, by decide, ⟨by decide, by decide⟩, fun high => absurd high (by decide)⟩

theorem path_resolution_oneFile :
    ∃ w m, oneFile.walkPath [slash, 0x61] = (w, oneFile.withMapped m) ∧
      oneFile.walkNames none root (components [slash, 0x61]) = (w, oneFile.withMapped m) ∧
      oneFile.Outcome (components [slash, 0x61]) w :=
  path_resolution oneFile presentTree_oneFile [slash, 0x61]

end Fs

end Mos
