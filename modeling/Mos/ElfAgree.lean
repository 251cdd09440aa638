import Mos.ElfImage

/-!
# The loops over the program headers

`load_icode` reads the headers where they are. `spawn` reads each one into `elfbuf`, over
the ELF header that the loop goes on to use: `e_phentsize` and `e_phnum`, at bytes 42 to
45, survive if a header takes up to 42 bytes, and it is all there if it takes 28 or more.
For such images the two loaders agree where `spawn` can load every segment
(`loaders_agree_iff`).
-/

namespace Mos.Elf

variable {binary elfbuf : Nat → Byte} {f : File} {s s' : Spawner} {k : Loaded} {i n : Nat}
  {child₀ : Space} {T : Set Nat}

/-! ## The file -/

/-- Where program header `i` is. -/
def hdrOff (binary : Nat → Byte) (i : Nat) : Nat :=
  (ePhoff binary).toNat + i * (ePhentsize binary).toNat

/-- The header of a segment to load. -/
def load? (binary : Nat → Byte) (i : Nat) : Option Phdr :=
  if (phdr binary (hdrOff binary i)).pType = ptLoad then some (phdr binary (hdrOff binary i))
  else none

/-- The image is an ELF file, and its headers and segments lie inside it. -/
structure Executable (binary : Nat → Byte) (f : File) : Prop where
  elf : elfFrom binary f.size
  headers : ∀ i, i < (ePhnum binary).toNat → hdrOff binary i + sizeofPhdr ≤ f.size ∧
    hdrOff binary i + (ePhentsize binary).toNat ≤ f.size
  segments : ∀ i, i < (ePhnum binary).toNat → ∀ ph, load? binary i = some ph →
    ph.pOffset.toNat + ph.pFilesz.toNat ≤ f.size

/-- A header leaves `e_phentsize` and `e_phnum` alone in `elfbuf`, and it is all read. -/
def Spares (binary : Nat → Byte) : Prop :=
  28 ≤ (ePhentsize binary).toNat ∧ (ePhentsize binary).toNat ≤ 42

/-- `spawn` can load the segment: its first byte is in a page of the file, and it stays in
the user's part of the memory. -/
structure Loadable (f : File) (ph : Phdr) : Prop where
  file : ph.pOffset.toNat / 4096 * 4096 < f.size
  legal : ∀ c ∈ ph.calls, c.Legal

/-- What a loader records of header `i`. -/
def visit (binary : Nat → Byte) (i : Nat) : Visit where
  phOff := .ofNat 32 (hdrOff binary i)
  seg := (load? binary i).map fun ph => (ph, segBytes binary ph.pOffset.toNat ph)

theorem segBytes_congr {m m' : Nat → Byte} {bin bin' : Nat} {ph : Phdr}
    (same : ∀ j, j < ph.pFilesz.toNat → m (bin + j) = m' (bin' + j)) :
    segBytes m bin ph = segBytes m' bin' ph := by
  unfold segBytes
  apply List.map_congr_left
  intro j hj
  exact same j (List.mem_range.mp hj)

/-! ## The buffer -/

theorem half_congr {m m' : Nat → Byte} {a b : Nat} (first : m a = m' b)
    (second : m (a + 1) = m' (b + 1)) : half m a = half m' b := by
  rw [half, half, first, second]

theorem word_congr {m m' : Nat → Byte} {a b : Nat} (same : ∀ j, j < 4 → m (a + j) = m' (b + j)) :
    word m a = word m' b := by
  have low : half m a = half m' b := half_congr (same 0 (by omega)) (same 1 (by omega))
  rw [word, word, half_congr (same 2 (by omega)) (same 3 (by omega)), low]

theorem phdr_congr {m m' : Nat → Byte} {a b : Nat}
    (same : ∀ j, j < 28 → m (a + j) = m' (b + j)) : phdr m a = phdr m' b := by
  have field : ∀ o, o + 4 ≤ 28 → word m (a + o) = word m' (b + o) := by
    intro o ho
    apply word_congr
    intro j hj
    rw [Nat.add_assoc, Nat.add_assoc]
    exact same (o + j) (by omega)
  have first := field 0 (by omega)
  rw [Nat.add_zero, Nat.add_zero] at first
  simp only [phdr, first, field 4 (by omega), field 8 (by omega), field 16 (by omega),
    field 20 (by omega), field 24 (by omega)]

/-- The buffer still has what the loop reads of the ELF header. -/
def Keeps (binary elfbuf : Nat → Byte) : Prop := ∀ j, 42 ≤ j → j < 46 → elfbuf j = binary j

theorem Keeps.phentsize (keeps : Keeps binary elfbuf) : ePhentsize elfbuf = ePhentsize binary :=
  half_congr (keeps 42 (by omega) (by omega)) (keeps 43 (by omega) (by omega))

theorem Keeps.phnum (keeps : Keeps binary elfbuf) : ePhnum elfbuf = ePhnum binary :=
  half_congr (keeps 44 (by omega) (by omega)) (keeps 45 (by omega) (by omega))

/-- The bytes of the file are read in one go, where there are enough of them. -/
theorem Window.readn (window : Window binary f s) {offset n : Nat} (pos : 0 < n) (le : n ≤ 512)
    (inside : offset + n ≤ f.size) : readn s f elfbuf offset n 0 =
      .ok (fun j => if j < n then binary (offset + j) else elfbuf j, n) := by
  have len : f.readLen (n - 0) offset = n := by
    rw [File.readLen, if_neg (by omega), if_neg (by omega), Nat.sub_zero]
  have bytes : (fun j => if 0 ≤ j ∧ j < 0 + n then s.load (f.data + offset + (j - 0))
      else elfbuf j) = fun j => if j < n then binary (offset + j) else elfbuf j := by
    funext j
    by_cases below : j < n
    · rw [if_pos ⟨Nat.zero_le j, by omega⟩, if_pos below, Nat.sub_zero, Nat.add_assoc,
        window.load (by omega)]
    · rw [if_neg (by omega), if_neg below]
  rw [Mos.Elf.readn, if_pos pos]
  simp only [len, bytes]
  rw [if_neg (by omega), if_neg (by omega), Mos.Elf.readn, if_neg (by omega), Nat.zero_add]

theorem Window.readMap (window : Window binary f s) {offset : Nat} :
    (offset / 4096 * 4096 < f.size → readMap s f offset = .ok (f.data + offset)) ∧
      (¬ offset / 4096 * 4096 < f.size → readMap s f offset = .error .noDisk) := by
  have size_le := window.size_le
  unfold maxFileSize at size_le
  obtain ⟨quot, -⟩ := f.data_page offset
  constructor
  · intro inside
    obtain ⟨p, perm, mapped, -⟩ := window.pages (offset / 4096) inside
    rw [Mos.Elf.readMap, if_neg (by unfold maxFileSize; omega), quot, mapped, if_neg (by simp)]
  · intro outside
    rw [Mos.Elf.readMap]
    by_cases large : maxFileSize ≤ offset
    · rw [if_pos large]
    · unfold maxFileSize at large
      have unmapped := window.rest (offset / 4096) (by unfold maxFileSize; omega) (by omega)
      rw [if_neg (by unfold maxFileSize; omega), quot, unmapped, if_pos rfl]

/-! ## The loops -/

/-- The pages of the segments from header `i` on. -/
def loadedPages (binary : Nat → Byte) (i : Nat) : Set Nat :=
  { v | ∃ j ph, i ≤ j ∧ j < (ePhnum binary).toNat ∧ load? binary j = some ph ∧ v ∈ ph.pages }

theorem loadedPages_none {i : Nat} (none_here : load? binary i = none) :
    loadedPages binary i = loadedPages binary (i + 1) := by
  ext v
  constructor
  · rintro ⟨j, ph, le, lt, load, mem⟩
    have ne : i ≠ j := by
      rintro rfl
      rw [none_here] at load
      cases load
    exact ⟨j, ph, by omega, lt, load, mem⟩
  · rintro ⟨j, ph, le, lt, load, mem⟩
    exact ⟨j, ph, by omega, lt, load, mem⟩

theorem loadedPages_some {i : Nat} {ph : Phdr} (lt : i < (ePhnum binary).toNat)
    (load : load? binary i = some ph) :
    ph.pages ∪ loadedPages binary (i + 1) = loadedPages binary i := by
  ext v
  constructor
  · rintro (mem | ⟨j, ph', le, lt', load', mem⟩)
    · exact ⟨i, ph, Nat.le_refl i, lt, load, mem⟩
    · exact ⟨j, ph', by omega, lt', load', mem⟩
  · rintro ⟨j, ph', le, lt', load', mem⟩
    by_cases here : i = j
    · subst here
      rw [load] at load'
      cases load'
      exact .inl mem
    · exact .inr ⟨j, ph', by omega, lt', load', mem⟩

theorem next_off (binary : Nat → Byte) (i : Nat) :
    BitVec.ofNat 32 (hdrOff binary i) + (ePhentsize binary).setWidth 32 =
      BitVec.ofNat 32 (hdrOff binary (i + 1)) := by
  have next : hdrOff binary (i + 1) = hdrOff binary i + (ePhentsize binary).toNat := by
    unfold hdrOff
    rw [Nat.add_mul]
    omega
  rw [next, BitVec.ofNat_add]
  congr 1
  apply BitVec.eq_of_toNat_eq
  rw [BitVec.toNat_setWidth, BitVec.toNat_ofNat]

/-- The kernel's loop, at one header. -/
theorem loadIcodeLoop_pos (lt : i < (ePhnum binary).toNat)
    (small : hdrOff binary i < 2 ^ 32) :
    loadIcodeLoop binary i (.ofNat 32 (hdrOff binary i)) k =
      match load? binary i with
      | some ph => (elfLoadSeg (loadIcodeMapper binary) ph ph.pOffset.toNat k).bind fun k =>
          (loadIcodeLoop binary (i + 1) (.ofNat 32 (hdrOff binary (i + 1))) k).map fun r =>
            (visit binary i :: r.1, r.2)
      | none => (loadIcodeLoop binary (i + 1) (.ofNat 32 (hdrOff binary (i + 1))) k).map fun r =>
          (visit binary i :: r.1, r.2) := by
  have off : (BitVec.ofNat 32 (hdrOff binary i)).toNat = hdrOff binary i :=
    (BitVec.toNat_ofNat ..).trans (Nat.mod_eq_of_lt small)
  rw [loadIcodeLoop, if_pos lt]
  simp only [next_off, off]
  by_cases load : (phdr binary (hdrOff binary i)).pType = ptLoad
  · have found : load? binary i = some (phdr binary (hdrOff binary i)) := if_pos load
    rw [if_pos load, found]
    simp only [visit, found, Option.map_some]
    rfl
  · have found : load? binary i = none := if_neg load
    rw [if_neg load, found]
    simp only [visit, found, Option.map_none]
    rfl

/-- The loop of `spawn`, at one header. -/
theorem spawnLoop_pos (window : Window binary f s) (keeps : Keeps binary elfbuf)
    (spares : Spares binary) (exe : Executable binary f) (lt : i < (ePhnum binary).toNat) :
    ∃ elfbuf', Keeps binary elfbuf' ∧
      spawnLoop f elfbuf i (.ofNat 32 (hdrOff binary i)) s =
        match load? binary i with
        | some ph => (readMap s f ph.pOffset.toNat).bind fun bin =>
            (elfLoadSeg spawnMapper ph bin s).bind fun s' =>
              (spawnLoop f elfbuf' (i + 1) (.ofNat 32 (hdrOff binary (i + 1))) s').map fun r =>
                (⟨.ofNat 32 (hdrOff binary i), some (ph, segBytes s.load bin ph)⟩ :: r.1, r.2)
        | none => (spawnLoop f elfbuf' (i + 1) (.ofNat 32 (hdrOff binary (i + 1))) s).map fun r =>
            (visit binary i :: r.1, r.2) := by
  obtain ⟨least, most⟩ := spares
  obtain ⟨inside, inside'⟩ := exe.headers i lt
  have size_le := window.size_le
  unfold maxFileSize at size_le
  have off : (BitVec.ofNat 32 (hdrOff binary i)).toNat = hdrOff binary i := by
    rw [BitVec.toNat_ofNat, Nat.mod_eq_of_lt]
    omega
  have read := @Window.readn binary elfbuf f s window (hdrOff binary i)
    (ePhentsize binary).toNat (by omega) (by omega) inside'
  obtain ⟨buf, buf_eq⟩ : ∃ buf : Nat → Byte, buf = fun j =>
    if j < (ePhentsize binary).toNat then binary (hdrOff binary i + j) else elfbuf j := ⟨_, rfl⟩
  rw [← buf_eq] at read
  have kept : Keeps binary buf := by
    intro j above below
    rw [buf_eq]
    simp only
    rw [if_neg (by omega)]
    exact keeps j above below
  have header : phdr buf 0 = phdr binary (hdrOff binary i) := by
    apply phdr_congr
    intro j hj
    rw [buf_eq, Nat.zero_add]
    simp only
    rw [if_pos (by omega)]
  refine ⟨buf, kept, ?_⟩
  rw [spawnLoop, keeps.phnum, if_pos lt, keeps.phentsize, off, read, ok_bind]
  simp only [kept.phentsize, next_off, header]
  by_cases load : (phdr binary (hdrOff binary i)).pType = ptLoad
  · have found : load? binary i = some (phdr binary (hdrOff binary i)) := if_pos load
    rw [if_pos load, found]
    rfl
  · have found : load? binary i = none := if_neg load
    rw [if_neg load, found]
    simp only [visit, found, Option.map_none]
    rfl

/-- From header `i` on the two loops go the same way, if `spawn` can load the segments. -/
theorem Match.loops (same : Match binary f child₀ T k s) (keeps : Keeps binary elfbuf)
    (spares : Spares binary) (exe : Executable binary f) (n : Nat)
    (count : i + n = (ePhnum binary).toNat)
    (fits : ∀ j ph, i ≤ j → j < (ePhnum binary).toNat → load? binary j = some ph →
      Loadable f ph) :
    ∃ k' s', loadIcodeLoop binary i (.ofNat 32 (hdrOff binary i)) k =
        .ok ((List.range' i n).map (visit binary), k') ∧
      spawnLoop f elfbuf i (.ofNat 32 (hdrOff binary i)) s =
        .ok ((List.range' i n).map (visit binary), s') ∧
      Match binary f child₀ (T ∪ loadedPages binary i) k' s' := by
  induction n generalizing i k s T elfbuf with
  | zero =>
      refine ⟨k, s, ?_, ?_, ?_⟩
      · rw [loadIcodeLoop, if_neg (by omega)]
        rfl
      · rw [spawnLoop, keeps.phnum, if_neg (by omega)]
        rfl
      · have none_left : loadedPages binary i = ∅ := by
          ext v
          simp only [Set.mem_empty_iff_false, iff_false]
          rintro ⟨j, ph, le, lt, -⟩
          omega
        rw [none_left, Set.union_empty]
        exact same
  | succ n ih =>
      have lt : i < (ePhnum binary).toNat := by omega
      have small : hdrOff binary i < 2 ^ 32 := by
        have inside := (exe.headers i lt).1
        have size_le := same.window.size_le
        unfold maxFileSize at size_le
        omega
      obtain ⟨buf, kept, spawned⟩ := spawnLoop_pos same.window keeps spares exe lt
      rw [loadIcodeLoop_pos lt small, spawned, List.range'_succ, List.map_cons]
      cases load : load? binary i with
      | none =>
          obtain ⟨k', s', first, second, same'⟩ := ih (i := i + 1) same kept (by omega)
            fun j ph le => fits j ph (by omega)
          refine ⟨k', s', ?_, ?_, ?_⟩
          · simp only [first, Except.map]
          · simp only [second, Except.map]
          · rw [loadedPages_none load]
            exact same'
      | some ph =>
          have loadable := fits i ph (Nat.le_refl i) lt load
          have inside := exe.segments i lt ph load
          obtain ⟨k₁, s₁, first, second, same₁⟩ := same.elfLoadSeg loadable.legal inside
          obtain ⟨k', s', rest, rest', same'⟩ := ih (i := i + 1) same₁ kept (by omega)
            fun j ph le => fits j ph (by omega)
          have bytes : segBytes s.load (f.data + ph.pOffset.toNat) ph =
              segBytes binary ph.pOffset.toNat ph := by
            apply segBytes_congr
            intro j hj
            rw [Nat.add_assoc, same.window.load (by omega)]
          refine ⟨k', s', ?_, ?_, ?_⟩
          · simp only [first, rest, Except.bind, Except.map]
          · simp only [same.window.readMap.1 loadable.file, second, rest', Except.bind, Except.map,
              bytes, visit, load, Option.map_some]
          · rw [← loadedPages_some lt load, ← Set.union_assoc]
            exact same'

/-- If the loop of `spawn` gets to its end then it could load the segments. -/
theorem Match.loadable (same : Match binary f child₀ T k s) (keeps : Keeps binary elfbuf)
    (spares : Spares binary) (exe : Executable binary f) (n : Nat)
    (count : i + n = (ePhnum binary).toNat) {visits : List Visit}
    (run : spawnLoop f elfbuf i (.ofNat 32 (hdrOff binary i)) s = .ok (visits, s')) {j : Nat}
    {ph : Phdr} (le : i ≤ j) (lt : j < (ePhnum binary).toNat) (load : load? binary j = some ph) :
    Loadable f ph := by
  induction n generalizing i k s s' T elfbuf visits with
  | zero => omega
  | succ n ih =>
      have here : i < (ePhnum binary).toNat := by omega
      obtain ⟨buf, kept, spawned⟩ := spawnLoop_pos same.window keeps spares exe here
      rw [spawned] at run
      cases first : load? binary i with
      | none =>
          simp only [first] at run
          have ne : i ≠ j := by
            rintro rfl
            rw [first] at load
            cases load
          obtain ⟨⟨visits', s''⟩, rest, -⟩ := map_eq_ok.mp run
          exact ih (i := i + 1) same kept (by omega) rest (by omega)
      | some ph' =>
          simp only [first] at run
          obtain ⟨bin, mapped, run⟩ := bind_eq_ok.mp run
          obtain ⟨s₁, loaded, run⟩ := bind_eq_ok.mp run
          have file : ph'.pOffset.toNat / 4096 * 4096 < f.size := by
            by_contra outside
            rw [same.window.readMap.2 outside] at mapped
            cases mapped
          rw [same.window.readMap.1 file] at mapped
          cases mapped
          have legal := spawn_legal loaded
          by_cases eq : i = j
          · subst eq
            rw [first] at load
            cases load
            exact ⟨file, legal⟩
          · obtain ⟨k₁, s₂, -, second, same₁⟩ :=
              same.elfLoadSeg legal (exe.segments i here ph' first)
            rw [second] at loaded
            cases loaded
            obtain ⟨⟨visits', s''⟩, rest, -⟩ := map_eq_ok.mp run
            exact ih (i := i + 1) same₁ kept (by omega) rest (by omega)

/-! ## From the start -/

/-- The page that `init_stack` has given the child. -/
def stackPage : Nat := ppn (ustacktop - by2pg)

/-- The two loaders do the same: they process the same headers, all of them in order, load
the same segments with the same bytes, and leave the same contents at the addresses of the
segments. -/
def Agree (binary : Nat → Byte) (ram : Ram) (f : File) (elfbuf : Nat → Byte) (s : Spawner) :
    Prop :=
  ∃ visits k s', loadIcode binary ram = .ok (visits, k) ∧ spawn f elfbuf s = .ok (visits, s') ∧
    visits.map Visit.phOff =
      (List.range (ePhnum binary).toNat).map (fun i => .ofNat 32 (hdrOff binary i)) ∧
    ∀ v ∈ visits, ∀ ph bytes, v.seg = some (ph, bytes) → ∀ j, j < ph.pMemsz.toNat →
      k.space.byte k.ram (ph.pVaddr + .ofNat 32 j).toNat =
        s'.child.byte s'.ram (ph.pVaddr + .ofNat 32 j).toNat

/-- No segment has an address in the stack page, unless the page is loaded. -/
def StackApart (binary : Nat → Byte) : Prop :=
  ∀ i ph, i < (ePhnum binary).toNat → load? binary i = some ph → ∀ j, j < ph.pMemsz.toNat →
    ppn (ph.pVaddr + .ofNat 32 j) = stackPage → stackPage ∈ loadedPages binary 0

theorem hdrOff_zero (binary : Nat → Byte) : BitVec.ofNat 32 (hdrOff binary 0) = ePhoff binary := by
  rw [hdrOff, Nat.zero_mul, Nat.add_zero, BitVec.ofNat_toNat, BitVec.setWidth_eq]

/-- `spawn` starts its loop with the ELF header in the buffer. -/
theorem spawn_eq (window : Window binary f s) (exe : Executable binary f)
    (elfbuf : Nat → Byte) : ∃ elfbuf', (∀ j, j < sizeofEhdr → elfbuf' j = binary j) ∧
      spawn f elfbuf s = spawnLoop f elfbuf' 0 (.ofNat 32 (hdrOff binary 0)) s := by
  obtain ⟨size, m0, m1, m2, m3, type⟩ := exe.elf
  have read := @Window.readn binary elfbuf f s window 0 sizeofEhdr (by decide) (by decide)
    (by rw [Nat.zero_add]; exact size)
  obtain ⟨buf, buf_eq⟩ : ∃ buf : Nat → Byte, buf = fun j =>
    if j < sizeofEhdr then binary (0 + j) else elfbuf j := ⟨_, rfl⟩
  rw [← buf_eq] at read
  have same : ∀ j, j < sizeofEhdr → buf j = binary j := by
    intro j hj
    rw [buf_eq]
    simp only
    rw [if_pos hj, Nat.zero_add]
  have elf : elfFrom buf sizeofEhdr := by
    refine ⟨Nat.le_refl _, ?_, ?_, ?_, ?_, ?_⟩
    · rw [same 0 (by decide), m0]
    · rw [same 1 (by decide), m1]
    · rw [same 2 (by decide), m2]
    · rw [same 3 (by decide), m3]
    · rw [← type]
      exact half_congr (same 16 (by decide)) (same 17 (by decide))
  have off : ePhoff buf = BitVec.ofNat 32 (hdrOff binary 0) := by
    rw [hdrOff_zero]
    apply word_congr
    intro j hj
    exact same (28 + j) (by unfold sizeofEhdr; omega)
  refine ⟨buf, same, ?_⟩
  rw [spawn, read, ok_bind]
  simp only [off]
  rw [if_pos ⟨trivial, elf⟩]

theorem Match.start (window : Window binary f s) (ram : Ram) :
    Match binary f s.child ∅ ⟨ram, fun _ => none⟩ s :=
  ⟨fun _ mem => mem.elim, fun _ _ => ⟨rfl, rfl⟩, window⟩

/-- At an address of a loaded page the two envs have the same byte; elsewhere the one has
none, and the other what it had before. -/
theorem Match.byte (same : Match binary f child₀ T k s) (a : Nat) :
    (a / 4096 ∈ T → k.space.byte k.ram a = s.child.byte s.ram a) ∧
      (a / 4096 ∉ T → (k.space.byte k.ram a = s.child.byte s.ram a ↔ child₀ (a / 4096) = none)) := by
  unfold Space.byte
  constructor
  · intro mem
    obtain ⟨p, q, perm, space, child, -, -, page⟩ := same.loaded _ mem
    rw [space, child, Option.map_some, Option.map_some, page]
  · intro mem
    obtain ⟨space, child⟩ := same.rest _ mem
    rw [space, child, Option.map_none]
    cases child₀ (a / 4096) with
    | none => simp
    | some pte => simp

/-- Once both loops have run, the two envs have the same bytes in all segments exactly if
the stack page is in no one's way. -/
theorem Match.bytes_iff (same : Match binary f child₀ (loadedPages binary 0) k s)
    (stack : ∀ v, child₀ v = none ↔ v ≠ stackPage) :
    (∀ i ph, i < (ePhnum binary).toNat → load? binary i = some ph → ∀ j, j < ph.pMemsz.toNat →
      k.space.byte k.ram (ph.pVaddr + .ofNat 32 j).toNat =
        s.child.byte s.ram (ph.pVaddr + .ofNat 32 j).toNat) ↔ StackApart binary := by
  constructor
  · intro equal i ph lt load j hj inStack
    by_contra away
    have page : (ph.pVaddr + .ofNat 32 j).toNat / 4096 = stackPage :=
      (ppn_eq_div _).symm.trans inStack
    have mapped := ((same.byte _).2 (by rw [page]; exact away)).mp (equal i ph lt load j hj)
    rw [page] at mapped
    exact (stack stackPage).mp mapped rfl
  · intro apart i ph lt load j hj
    by_cases mem : (ph.pVaddr + .ofNat 32 j).toNat / 4096 ∈ loadedPages binary 0
    · exact (same.byte _).1 mem
    · refine ((same.byte _).2 mem).mpr ((stack _).mpr fun inStack => mem ?_)
      rw [inStack]
      refine apart i ph lt load j hj ?_
      rw [ppn_eq_div]
      exact inStack

/-- The segments that are visited are those of the `PT_LOAD` headers. -/
theorem forall_visits (binary : Nat → Byte) (P : Phdr → Prop) :
    (∀ v ∈ (List.range' 0 (ePhnum binary).toNat).map (visit binary),
      ∀ ph bytes, v.seg = some (ph, bytes) → P ph) ↔
      ∀ i ph, i < (ePhnum binary).toNat → load? binary i = some ph → P ph := by
  constructor
  · intro all i ph lt load
    refine all (visit binary i) (List.mem_map_of_mem ?_) ph
      (segBytes binary ph.pOffset.toNat ph) ?_
    · exact List.mem_range'_1.mpr ⟨Nat.zero_le i, by omega⟩
    · rw [visit, load]
      rfl
  · intro all v mem ph bytes seg
    obtain ⟨i, hi, rfl⟩ := List.mem_map.mp mem
    obtain ⟨ph', load, same⟩ := Option.map_eq_some_iff.mp seg
    cases same
    exact all i ph (by have := List.mem_range'_1.mp hi; omega) load

/-- For headers that leave the buffer's ELF header alone, the two loaders agree exactly
where `spawn` can load every segment and the stack page is in no one's way. -/
theorem loaders_agree_iff (exe : Executable binary f) (spares : Spares binary)
    (window : Window binary f s) (stack : ∀ v, s.child v = none ↔ v ≠ stackPage)
    (elfbuf : Nat → Byte) (ram : Ram) : Agree binary ram f elfbuf s ↔
      (∀ i ph, i < (ePhnum binary).toNat → load? binary i = some ph → Loadable f ph) ∧
        StackApart binary := by
  obtain ⟨buf, bytes, spawned⟩ := spawn_eq window exe elfbuf
  have keeps : Keeps binary buf := fun j above below =>
    bytes j (by unfold sizeofEhdr; omega)
  have start := Match.start window ram
  have icode : loadIcode binary ram =
      loadIcodeLoop binary 0 (.ofNat 32 (hdrOff binary 0)) ⟨ram, fun _ => none⟩ := by
    rw [hdrOff_zero]
    rfl
  constructor
  · rintro ⟨visits, k', s', first, second, -, equal⟩
    rw [spawned] at second
    have fits : ∀ i ph, i < (ePhnum binary).toNat → load? binary i = some ph → Loadable f ph :=
      fun i ph lt load => start.loadable keeps spares exe _ (Nat.zero_add _) second
        (Nat.zero_le i) lt load
    obtain ⟨k'', s'', first', second', same⟩ := start.loops keeps spares exe _ (Nat.zero_add _)
      fun i ph _ => fits i ph
    rw [Set.empty_union] at same
    rw [icode, first'] at first
    rw [second'] at second
    cases first
    cases second
    exact ⟨fits, (same.bytes_iff stack).mp ((forall_visits _ _).mp equal)⟩
  · rintro ⟨fits, apart⟩
    obtain ⟨k', s', first, second, same⟩ := start.loops keeps spares exe _ (Nat.zero_add _)
      fun i ph _ => fits i ph
    rw [Set.empty_union] at same
    refine ⟨_, k', s', icode.trans first, spawned.trans second, ?_,
      (forall_visits _ _).mpr ((same.bytes_iff stack).mpr apart)⟩
    rw [List.map_map, List.range_eq_range']
    rfl

/-! ## Small files -/

/-- A file of 164 bytes, all of them 0 but those that are listed. -/
def bytesOf (fields : List (Nat × Byte)) : Nat → Byte := fun j =>
  ((fields.find? fun field => field.1 = j).map Prod.snd).getD 0

/-- An ELF header at the start, and the program headers after it. -/
def elfBytes (phentsize phnum : Byte) (rest : List (Nat × Byte)) : Nat → Byte :=
  bytesOf ([(0, 0x7f), (1, 0x45), (2, 0x4c), (3, 0x46), (16, 2), (28, 52), (42, phentsize),
    (44, phnum)] ++ rest)

def smallFile : File := ⟨0, 164⟩

/-- One page is mapped. -/
def oneAt (v₀ : Nat) (pte : Nat × Word) : Space := fun v => if v = v₀ then some pte else none

theorem oneAt_self (v₀ : Nat) (pte : Nat × Word) : oneAt v₀ pte v₀ = some pte := if_pos rfl

theorem oneAt_eq_none_iff {v₀ v : Nat} {pte : Nat × Word} : oneAt v₀ pte v = none ↔ v ≠ v₀ := by
  by_cases here : v = v₀
  · simp [oneAt, here]
  · simp [oneAt, here]

/-- The caller of `spawn` has mapped the file, and the child has its stack page. -/
def spawner (binary : Nat → Byte) : Spawner where
  ram := ⟨fun p j => if p = 0 then binary j else 0, 2⟩
  parent := oneAt (smallFile.data / 4096) (0, pteV)
  child := oneAt stackPage (1, pteV)

theorem spawner_parent (binary : Nat → Byte) :
    (spawner binary).parent = oneAt (smallFile.data / 4096) (0, pteV) := rfl

theorem spawner_window (binary : Nat → Byte) : Window binary smallFile (spawner binary) := by
  refine ⟨fun k inside => ?_, fun k _ outside => ?_, by decide⟩
  · have first : k = 0 := by
      have size : smallFile.size = 164 := rfl
      omega
    subst first
    refine ⟨0, pteV, ?_, Nat.zero_lt_two, fun j _ _ => ?_⟩
    · rw [spawner_parent, Nat.add_zero, oneAt_self]
    · rw [Nat.zero_mul, Nat.zero_add]
      simp only [spawner, if_true]
  · rw [spawner_parent, oneAt_eq_none_iff]
    have size : smallFile.size = 164 := rfl
    omega

theorem spawner_stack (binary : Nat → Byte) (v : Nat) :
    (spawner binary).child v = none ↔ v ≠ stackPage := oneAt_eq_none_iff

/-- A segment of one byte, which is not in the file. -/
def oneSeg (va : Word) : Phdr := ⟨ptLoad, 0, va, 0, 1, 0⟩

/-- The third byte of its address is `b`. -/
def oneByte (b : Byte) : Nat → Byte := elfBytes 32 1 [(52, 1), (62, b), (72, 1)]

/-- No segments, and headers of 56 bytes. -/
def wideHeaders : Nat → Byte := elfBytes 56 2 []

/-- Four bytes from the end of the header on, which are in the file, and two more. -/
def dataSeg : Phdr := ⟨ptLoad, 96, 0x400000, 4, 6, 0⟩

def dataBytes : Nat → Byte :=
  elfBytes 32 1 [(52, 1), (56, 96), (62, 0x40), (68, 4), (72, 6), (96, 1), (97, 2), (98, 3), (99, 4)]

theorem executable_of_load {binary : Nat → Byte} {ph : Phdr} (elf : elfFrom binary smallFile.size)
    (size : (ePhentsize binary).toNat = 32) (num : (ePhnum binary).toNat = 1)
    (off : hdrOff binary 0 = 52) (load : load? binary 0 = some ph)
    (inside : ph.pOffset.toNat + ph.pFilesz.toNat ≤ smallFile.size) :
    Executable binary smallFile := by
  refine ⟨elf, fun i lt => ?_, fun i lt ph' found => ?_⟩
  · have first : i = 0 := by omega
    rw [first, off, size]
    decide
  · have first : i = 0 := by omega
    rw [first, load] at found
    cases found
    exact inside

/-- The bytes are loaded by both. -/
theorem loaders_agree_iff_data :
    Agree dataBytes ⟨fun _ _ => 0, 0⟩ smallFile (fun _ => 0) (spawner dataBytes) := by
  have load : load? dataBytes 0 = some dataSeg := by decide
  have num : (ePhnum dataBytes).toNat = 1 := by decide
  have exe := executable_of_load (by decide) (by decide) num (by decide) load (by decide)
  have only : ∀ i ph, i < (ePhnum dataBytes).toNat → load? dataBytes i = some ph →
      ph = dataSeg := by
    intro i ph lt found
    have first : i = 0 := by omega
    rw [first, load] at found
    exact (Option.some.inj found).symm
  have near : ∀ j, j < 6 → ¬ isIllegalVa (dataSeg.pVaddr + .ofNat 32 j) ∧
      ppn (dataSeg.pVaddr + .ofNat 32 j) ≠ stackPage ∧ ¬ Wraps j := by
    unfold Wraps
    decide
  refine (loaders_agree_iff exe ⟨by decide, by decide⟩ (spawner_window _) (spawner_stack _)
    (fun _ => 0) ⟨fun _ _ => 0, 0⟩).mpr ⟨fun i ph lt found => ?_,
    fun i ph lt found j hj inStack => ?_⟩
  · rw [only i ph lt found]
    refine ⟨by decide, fun c mem => ?_⟩
    have below : c.i < 6 := by
      have bound := Phdr.calls_lt mem
      have four : dataSeg.pFilesz.toNat = 4 := rfl
      have six : dataSeg.pMemsz.toNat = 6 := rfl
      omega
    obtain ⟨legal, -, ends⟩ := near c.i below
    rw [Call.Legal, Phdr.calls_va mem]
    exact ⟨legal, ends⟩
  · rw [only i ph lt found] at hj inStack
    exact absurd inStack (near j hj).2.1

/-- `spawn` refuses a segment below `UTEMP`, which the kernel loads; and headers of 56
bytes overwrite the number of headers, so that it stops after the first. -/
theorem loaders_differ :
    (Executable (oneByte 0x10) smallFile ∧ ∀ elfbuf ram,
      ¬ Agree (oneByte 0x10) ram smallFile elfbuf (spawner (oneByte 0x10))) ∧
    (Executable wideHeaders smallFile ∧ ∀ elfbuf ram,
      ¬ Agree wideHeaders ram smallFile elfbuf (spawner wideHeaders)) := by
  constructor
  · have load : load? (oneByte 0x10) 0 = some (oneSeg 0x100000) := by decide
    have num : (ePhnum (oneByte 0x10)).toNat = 1 := by decide
    have exe := executable_of_load (by decide) (by decide) num (by decide) load (Nat.zero_le _)
    refine ⟨exe, fun elfbuf ram => ?_⟩
    rintro ⟨visits, k, s', -, run, -⟩
    obtain ⟨buf, bytes, spawned⟩ := spawn_eq (spawner_window _) exe elfbuf
    rw [spawned] at run
    have keeps : Keeps (oneByte 0x10) buf := fun j above below =>
      bytes j (by unfold sizeofEhdr; omega)
    have fits := (Match.start (spawner_window _) ram).loadable keeps ⟨by decide, by decide⟩ exe 1
      num.symm run (Nat.le_refl 0) (by rw [num]; decide) load
    obtain ⟨c, mem, -, -⟩ := @Phdr.tail_cover (oneSeg 0x100000) 0 0 (Nat.le_refl 0) (by decide)
    have mem' : c ∈ (oneSeg 0x100000).calls := List.mem_append_right _ mem
    have zero : c.i = 0 := by
      have bound := Phdr.calls_lt mem'
      have none_read : (oneSeg 0x100000).pFilesz.toNat = 0 := rfl
      have one : (oneSeg 0x100000).pMemsz.toNat = 1 := rfl
      omega
    refine (fits.legal c mem').1 ?_
    rw [Phdr.calls_va mem', zero]
    decide
  · have num : (ePhnum wideHeaders).toNat = 2 := by decide
    have none_load : ∀ i, i < 2 → load? wideHeaders i = none := by decide
    have exe : Executable wideHeaders smallFile := by
      refine ⟨by decide, ?_, fun i lt ph found => ?_⟩
      · rw [num]
        decide
      · rw [none_load i (by omega)] at found
        cases found
    refine ⟨exe, fun elfbuf ram => ?_⟩
    rintro ⟨visits, k, s', -, run, all, -⟩
    obtain ⟨buf, bytes, spawned⟩ := spawn_eq (spawner_window _) exe elfbuf
    have size : ePhentsize buf = 56 := by
      rw [show ePhentsize buf = ePhentsize wideHeaders from
        half_congr (bytes 42 (by decide)) (bytes 43 (by decide))]
      decide
    have count : ePhnum buf = 2 := by
      rw [show ePhnum buf = ePhnum wideHeaders from
        half_congr (bytes 44 (by decide)) (bytes 45 (by decide))]
      decide
    have off : hdrOff wideHeaders 0 = 52 := by decide
    have read := @Window.readn wideHeaders buf smallFile _ (spawner_window wideHeaders) 52 56
      (by decide) (by decide) (by decide)
    obtain ⟨buf', buf'_eq⟩ : ∃ buf' : Nat → Byte, buf' = fun j =>
      if j < 56 then wideHeaders (52 + j) else buf j := ⟨_, rfl⟩
    rw [← buf'_eq] at read
    have same : ∀ j, j < 56 → buf' j = wideHeaders (52 + j) := by
      intro j hj
      rw [buf'_eq]
      exact if_pos hj
    have stop : ePhnum buf' = 0 := by
      rw [ePhnum, half, same 44 (by decide), same 45 (by decide)]
      decide
    have skip : (phdr buf' 0).pType ≠ ptLoad := by
      have zero : word buf' 0 = word wideHeaders 52 :=
        word_congr fun j hj => by rw [Nat.zero_add, same j (by omega)]
      show word buf' 0 ≠ 1
      rw [zero]
      decide
    have last : ∀ phOff, spawnLoop smallFile buf' 1 phOff (spawner wideHeaders) =
        .ok ([], spawner wideHeaders) := by
      intro phOff
      rw [spawnLoop, stop, if_neg (by decide)]
    rw [spawned, off, spawnLoop, count, if_pos (by decide), size] at run
    rw [show (BitVec.ofNat 32 52).toNat = 52 from rfl, show (56 : BitVec 16).toNat = 56 from rfl,
      read, ok_bind] at run
    simp only [if_neg skip, last, ok_bind] at run
    cases run
    rw [num] at all
    exact absurd (congrArg List.length all) (by simp)

end Mos.Elf
