import Mos.Elf
import Mos.Lib.Except

/-!
# Where the two loaders agree

`load_icode` and `spawn` run `elf_load_seg` with mappers of their own. What
`elf_load_seg` asks for depends on the program header only, so the two envs are filled
page by page in step; `spawn` leaves the step where it loses its place among the headers,
or where one of its system calls fails.
-/

namespace Mos.Elf

variable {σ : Type}

/-! ## What `elf_load_seg` asks for -/

/-- A call of the mapper, and the counter of the loop it is made from. Its source is
counted from the start of the segment on. -/
structure Call where
  i : Nat
  va : Word
  offset : Nat
  perm : Word
  src : Option Nat
  len : Nat

/-- The call, and the step to the next page. -/
def Call.run (mapPage : Mapper σ) (bin : Nat) (c : Call) (s : σ) : Except LoadErr σ := do
  let s ← mapPage s c.va c.offset c.perm (c.src.map (bin + ·)) c.len
  if Wraps c.i then .error .endless else .ok s

def runCalls (mapPage : Mapper σ) (bin : Nat) : List Call → σ → Except LoadErr σ
  | [], s => .ok s
  | c :: cs, s => do
      let s ← c.run mapPage bin s
      runCalls mapPage bin cs s

namespace Phdr

def binCalls (ph : Phdr) (i : Nat) : List Call :=
  if i < ph.pFilesz.toNat then
    ⟨i, ph.pVaddr + .ofNat 32 i, 0, ph.perm, some i, min (ph.pFilesz.toNat - i) 4096⟩ ::
      ph.binCalls (i + 4096)
  else []
termination_by ph.pFilesz.toNat - i
decreasing_by omega

/-- Where the first loop ends. -/
def binEnd (ph : Phdr) (i : Nat) : Nat :=
  if i < ph.pFilesz.toNat then ph.binEnd (i + 4096) else i
termination_by ph.pFilesz.toNat - i
decreasing_by omega

def zeroCalls (ph : Phdr) (i : Nat) : List Call :=
  if i < ph.pMemsz.toNat then
    ⟨i, ph.pVaddr + .ofNat 32 i, 0, ph.perm, none, min (ph.pFilesz - .ofNat 32 i).toNat 4096⟩ ::
      ph.zeroCalls (i + 4096)
  else []
termination_by ph.pMemsz.toNat - i
decreasing_by omega

def headCalls (ph : Phdr) : List Call :=
  if ph.offset ≠ 0 then [⟨0, ph.pVaddr, ph.offset, ph.perm, some 0, ph.head⟩] else []

def start (ph : Phdr) : Nat := if ph.offset ≠ 0 then ph.head else 0

def calls (ph : Phdr) : List Call :=
  ph.headCalls ++ (ph.binCalls ph.start ++ ph.zeroCalls (ph.binEnd ph.start))

end Phdr

theorem runCalls_append (mapPage : Mapper σ) (bin : Nat) (cs ds : List Call) (s : σ) :
    runCalls mapPage bin (cs ++ ds) s =
      (runCalls mapPage bin cs s).bind (runCalls mapPage bin ds) := by
  induction cs generalizing s with
  | nil => rfl
  | cons c cs ih =>
      simp only [List.cons_append, runCalls, Bind.bind]
      cases c.run mapPage bin s with
      | error e => rfl
      | ok s => exact ih s

theorem runCalls_cons (mapPage : Mapper σ) (bin : Nat) (c : Call) (cs : List Call) (s : σ) :
    runCalls mapPage bin (c :: cs) s = (c.run mapPage bin s).bind (runCalls mapPage bin cs) := rfl

theorem Call.run_bind {β : Type} (mapPage : Mapper σ) (bin i : Nat) (va perm : Word)
    (offset len : Nat) (src : Option Nat) (s : σ) (next : σ → Except LoadErr β) :
    (Call.run mapPage bin ⟨i, va, offset, perm, src, len⟩ s).bind next =
      (mapPage s va offset perm (src.map (bin + ·)) len).bind fun s =>
        if Wraps i then .error .endless else next s := by
  simp only [Call.run, Bind.bind]
  cases mapPage s va offset perm (src.map (bin + ·)) len with
  | error e => simp only [Except.bind]
  | ok s =>
      simp only [Except.bind]
      by_cases w : Wraps i
      · rw [if_pos w, if_pos w]
      · rw [if_neg w, if_neg w]

/-! One turn of each loop. -/

theorem loadBin_pos {ph : Phdr} {i : Nat} (lt : i < ph.pFilesz.toNat) (mapPage : Mapper σ)
    (perm : Word) (bin : Nat) (s : σ) : loadBin mapPage ph perm bin i s =
      (mapPage s (ph.pVaddr + .ofNat 32 i) 0 perm (some (bin + i))
        (min (ph.pFilesz.toNat - i) 4096)).bind fun s =>
          if Wraps i then .error .endless else loadBin mapPage ph perm bin (i + 4096) s := by
  rw [loadBin, if_pos lt]
  rfl

theorem loadZero_pos {ph : Phdr} {i : Nat} (lt : i < ph.pMemsz.toNat) (mapPage : Mapper σ)
    (perm : Word) (s : σ) : loadZero mapPage ph perm i s =
      (mapPage s (ph.pVaddr + .ofNat 32 i) 0 perm none
        (min (ph.pFilesz - .ofNat 32 i).toNat 4096)).bind fun s =>
          if Wraps i then .error .endless else loadZero mapPage ph perm (i + 4096) s := by
  rw [loadZero, if_pos lt]
  rfl

theorem Phdr.binCalls_pos {ph : Phdr} {i : Nat} (lt : i < ph.pFilesz.toNat) : ph.binCalls i =
    ⟨i, ph.pVaddr + .ofNat 32 i, 0, ph.perm, some i, min (ph.pFilesz.toNat - i) 4096⟩ ::
      ph.binCalls (i + 4096) := by
  rw [Phdr.binCalls, if_pos lt]

theorem Phdr.binEnd_pos {ph : Phdr} {i : Nat} (lt : i < ph.pFilesz.toNat) :
    ph.binEnd i = ph.binEnd (i + 4096) := by
  rw [Phdr.binEnd, if_pos lt]

theorem Phdr.zeroCalls_pos {ph : Phdr} {i : Nat} (lt : i < ph.pMemsz.toNat) : ph.zeroCalls i =
    ⟨i, ph.pVaddr + .ofNat 32 i, 0, ph.perm, none, min (ph.pFilesz - .ofNat 32 i).toNat 4096⟩ ::
      ph.zeroCalls (i + 4096) := by
  rw [Phdr.zeroCalls, if_pos lt]

theorem loadBin_eq (mapPage : Mapper σ) (ph : Phdr) (bin i : Nat) (s : σ) :
    loadBin mapPage ph ph.perm bin i s =
      (runCalls mapPage bin (ph.binCalls i) s).map fun s => (ph.binEnd i, s) := by
  induction i using Phdr.binCalls.induct ph generalizing s with
  | case1 i lt ih =>
      rw [loadBin_pos lt, Phdr.binCalls_pos lt, Phdr.binEnd_pos lt, runCalls_cons, map_bind,
        Call.run_bind, Option.map_some]
      refine congrArg _ (funext fun s => ?_)
      by_cases w : Wraps i
      · rw [if_pos w, if_pos w]
      · rw [if_neg w, if_neg w, ih]
  | case2 i ge =>
      rw [loadBin, Phdr.binCalls, Phdr.binEnd, if_neg ge, if_neg ge, if_neg ge]
      rfl

theorem loadZero_eq (mapPage : Mapper σ) (ph : Phdr) (bin i : Nat) (s : σ) :
    loadZero mapPage ph ph.perm i s = runCalls mapPage bin (ph.zeroCalls i) s := by
  induction i using Phdr.zeroCalls.induct ph generalizing s with
  | case1 i lt ih =>
      rw [loadZero_pos lt, Phdr.zeroCalls_pos lt, runCalls_cons, Call.run_bind, Option.map_none]
      refine congrArg _ (funext fun s => ?_)
      by_cases w : Wraps i
      · rw [if_pos w, if_pos w]
      · rw [if_neg w, if_neg w, ih]
  | case2 i ge =>
      rw [loadZero, Phdr.zeroCalls, if_neg ge, if_neg ge]
      rfl

/-- `elf_load_seg` makes the calls that the header asks for. -/
theorem elfLoadSeg_eq (mapPage : Mapper σ) (ph : Phdr) (bin : Nat) (s : σ) :
    elfLoadSeg mapPage ph bin s = runCalls mapPage bin ph.calls s := by
  have rest : ∀ s : σ, (loadBin mapPage ph ph.perm bin ph.start s >>= fun r =>
      loadZero mapPage ph ph.perm r.1 r.2) =
      runCalls mapPage bin (ph.binCalls ph.start ++ ph.zeroCalls (ph.binEnd ph.start)) s := by
    intro s
    rw [loadBin_eq, runCalls_append]
    cases runCalls mapPage bin (ph.binCalls ph.start) s with
    | error e => rfl
    | ok s => exact loadZero_eq mapPage ph bin _ s
  rw [Phdr.calls, runCalls_append]
  unfold elfLoadSeg
  by_cases offset : ph.offset ≠ 0
  · have inRange : ¬ Wraps 0 := by decide
    simp only [Phdr.headCalls, Phdr.start, if_pos offset, runCalls, Call.run, Option.map_some,
      Nat.add_zero, Bind.bind, if_neg inRange] at rest ⊢
    cases mapPage s ph.pVaddr ph.offset ph.perm (some bin) ph.head with
    | error e => simp only [Except.bind]
    | ok s =>
        simp only [Except.bind] at rest ⊢
        exact rest s
  · simp only [Phdr.headCalls, Phdr.start, if_neg offset, runCalls, Bind.bind] at rest ⊢
    exact rest s

theorem Phdr.binCalls_src (ph : Phdr) (i : Nat) {c : Call} (mem : c ∈ ph.binCalls i) {r : Nat}
    (src : c.src = some r) : r + c.len ≤ ph.pFilesz.toNat := by
  induction i using Phdr.binCalls.induct ph with
  | case1 i lt ih =>
      rw [Phdr.binCalls, if_pos lt] at mem
      rcases List.mem_cons.mp mem with rfl | mem
      · cases src
        simp only
        omega
      · exact ih mem
  | case2 i ge =>
      rw [Phdr.binCalls, if_neg ge] at mem
      cases mem

theorem Phdr.zeroCalls_src (ph : Phdr) (i : Nat) {c : Call} (mem : c ∈ ph.zeroCalls i) :
    c.src = none := by
  induction i using Phdr.zeroCalls.induct ph with
  | case1 i lt ih =>
      rw [Phdr.zeroCalls, if_pos lt] at mem
      rcases List.mem_cons.mp mem with rfl | mem
      · rfl
      · exact ih mem
  | case2 i ge =>
      rw [Phdr.zeroCalls, if_neg ge] at mem
      cases mem

/-- The copies stay inside the bytes of the segment. -/
theorem Phdr.calls_src (ph : Phdr) {c : Call} (mem : c ∈ ph.calls) {r : Nat}
    (src : c.src = some r) : r + c.len ≤ ph.pFilesz.toNat := by
  rcases List.mem_append.mp mem with mem | mem
  · unfold Phdr.headCalls at mem
    split at mem
    · cases List.mem_singleton.mp mem
      cases src
      simp only [Phdr.head]
      omega
    · cases mem
  · rcases List.mem_append.mp mem with mem | mem
    · exact ph.binCalls_src _ mem src
    · rw [ph.zeroCalls_src _ mem] at src
      cases src

/-- The pages that the segment takes. -/
def Phdr.pages (ph : Phdr) : Set Nat := { v | ∃ c ∈ ph.calls, ppn c.va = v }

theorem runCalls_ok {mapPage : Mapper σ} {bin : Nat} {cs : List Call} {s s' : σ}
    (run : runCalls mapPage bin cs s = .ok s') {c : Call} (mem : c ∈ cs) :
    ∃ s₁ s₂, c.run mapPage bin s₁ = .ok s₂ := by
  induction cs generalizing s with
  | nil => cases mem
  | cons d cs ih =>
      obtain ⟨s₁, first, rest⟩ := bind_eq_ok.mp run
      rcases List.mem_cons.mp mem with rfl | mem
      · exact ⟨s, s₁, first⟩
      · exact ih rest mem

/-! ## One page -/

/-- What the mappers leave in a cleared page. -/
def contents (m : Nat → Byte) (offset : Nat) (src : Option Nat) (len j : Nat) : Byte :=
  match src with
  | some a => if offset ≤ j ∧ j < offset + len then m (a + (j - offset)) else 0
  | none => 0

/-- A page is taken and filled. -/
def Ram.fill (r : Ram) (page : Nat → Byte) : Ram where
  page := Function.update r.page r.next page
  next := r.next + 1

theorem loadIcodeMapper_eq (binary : Nat → Byte) (k : Loaded) (va perm : Word) (offset len : Nat)
    (src : Option Nat) : loadIcodeMapper binary k va offset perm src len =
      .ok ⟨k.ram.fill (contents binary offset src len), k.space.insert va k.ram.next perm⟩ := by
  cases src with
  | none => rfl
  | some a =>
      simp only [loadIcodeMapper, Ram.pageAlloc, Ram.memcpy, Ram.fill, Function.update_self,
        Function.update_idem]
      rfl

/-- The pages of the file, and no others, are mapped at its descriptor's place, and they
hold the image. -/
structure Window (binary : Nat → Byte) (f : File) (s : Spawner) : Prop where
  pages : ∀ k, k * 4096 < f.size → ∃ p perm, s.parent (f.data / 4096 + k) = some (p, perm) ∧
    p < s.ram.next ∧
    ∀ j, j < 4096 → k * 4096 + j < f.size → s.ram.page p j = binary (k * 4096 + j)
  rest : ∀ k, k * 4096 < maxFileSize → f.size ≤ k * 4096 → s.parent (f.data / 4096 + k) = none
  size_le : f.size ≤ maxFileSize

variable {binary : Nat → Byte} {f : File} {s : Spawner}

theorem File.data_page (f : File) (a : Nat) :
    (f.data + a) / 4096 = f.data / 4096 + a / 4096 ∧ (f.data + a) % 4096 = a % 4096 := by
  unfold File.data
  omega

theorem ppn_utemp : ppn utemp = 1022 := by decide

theorem File.data_ne_utemp (f : File) (k : Nat) : f.data / 4096 + k ≠ ppn utemp := by
  rw [ppn_utemp]
  unfold File.data
  omega

/-- The caller reads the image where the file is mapped. -/
theorem Window.load (window : Window binary f s) {a : Nat} (ha : a < f.size) :
    s.load (f.data + a) = binary a := by
  obtain ⟨p, perm, mapped, -, page⟩ := window.pages (a / 4096) (by omega)
  obtain ⟨quot, rem⟩ := f.data_page a
  unfold Spawner.load Space.byte
  rw [quot, rem, mapped, Option.map_some, Option.getD_some,
    page (a % 4096) (Nat.mod_lt _ (by omega)) (by omega)]
  congr 1
  omega

/-- The window does not change where only `UTEMP` and free pages do. -/
theorem Window.kept {s' : Spawner} (window : Window binary f s)
    (parent : ∀ v, v ≠ ppn utemp → s'.parent v = s.parent v)
    (pages : ∀ p, p < s.ram.next → s'.ram.page p = s.ram.page p)
    (next : s.ram.next ≤ s'.ram.next) : Window binary f s' := by
  refine ⟨fun k lt => ?_, fun k lt le => ?_, window.size_le⟩
  · obtain ⟨p, perm, mapped, used, page⟩ := window.pages k lt
    refine ⟨p, perm, ?_, by omega, fun j hj inside => ?_⟩
    · rw [parent _ (f.data_ne_utemp k), mapped]
    · rw [pages p used, page j hj inside]
  · rw [parent _ (f.data_ne_utemp k), window.rest k lt le]

/-- `spawn_mapper` leaves the child what `load_icode_mapper` leaves a new env. -/
theorem spawnMapper_eq (window : Window binary f s) {va perm : Word} {offset len : Nat}
    {src : Option Nat} (legal : ¬ isIllegalVa va) (inside : ∀ a ∈ src, a + len ≤ f.size) :
    ∃ parent, spawnMapper s va offset perm (src.map (f.data + ·)) len =
        .ok ⟨s.ram.fill (contents binary offset src len), parent,
          s.child.insert va s.ram.next perm⟩ ∧
      ∀ v, v ≠ ppn utemp → parent v = s.parent v := by
  have temp : ¬ isIllegalVa utemp := by decide
  cases src with
  | none =>
      refine ⟨s.parent, ?_, fun v _ => rfl⟩
      simp only [spawnMapper, Spawner.memAlloc, if_neg legal, Option.map_none, Ram.pageAlloc]
      rfl
  | some a =>
      let s₁ : Spawner :=
        ⟨s.ram.pageAlloc.2, s.parent.insert utemp s.ram.next (perm ||| pteD),
          s.child.insert va s.ram.next perm⟩
      have taken : ∀ p, p < s.ram.next → s₁.ram.page p = s.ram.page p := fun p lt =>
        Function.update_of_ne (Nat.ne_of_lt lt) ..
      have window₁ : Window binary f s₁ := window.kept
        (fun v hv => Function.update_of_ne hv ..) taken (Nat.le_succ _)
      have copied : s₁.ram.memcpy s.ram.next offset (fun j => s₁.load (f.data + a + j)) len =
          s.ram.fill (contents binary offset (some a) len) := by
        have page : (fun j => if offset ≤ j ∧ j < offset + len then
            s₁.load (f.data + a + (j - offset)) else s₁.ram.page s.ram.next j) =
            contents binary offset (some a) len := by
          funext j
          unfold contents
          split
          · have := inside a rfl
            rw [Nat.add_assoc]
            exact window₁.load (by omega)
          · have clear : s₁.ram.page s.ram.next = fun _ => 0 := Function.update_self ..
            rw [clear]
        unfold Ram.memcpy Ram.fill
        rw [page]
        simp only [s₁, Ram.pageAlloc, Function.update_idem]
      refine ⟨Function.update s₁.parent (ppn utemp) none, ?_, fun v hv => ?_⟩
      · have child : s.child.insert va s.ram.next perm (ppn va) =
          some (s.ram.next, perm ||| pteV) :=
          Function.update_self ..
        have parent : s₁.parent (ppn utemp) = some (s.ram.next, perm ||| pteD ||| pteV) := by
          simp only [s₁, Space.insert, Function.update_self]
        have alloc : s.memAlloc va perm =
            .ok ⟨s.ram.pageAlloc.2, s.parent, s.child.insert va s.ram.next perm⟩ := by
          unfold Spawner.memAlloc
          rw [if_neg legal]
          rfl
        have map : Spawner.memMap ⟨s.ram.pageAlloc.2, s.parent, s.child.insert va s.ram.next perm⟩
            va utemp (perm ||| pteD) = .ok s₁ := by
          unfold Spawner.memMap
          simp only [legal, temp, or_self, if_false, child]
          rfl
        have store : s₁.memcpy utemp offset (f.data + a) len =
            { s₁ with ram := s.ram.fill (contents binary offset (some a) len) } := by
          unfold Spawner.memcpy
          rw [parent, ← copied]
        simp only [spawnMapper, alloc, map, Option.map_some, Bind.bind, Except.bind, store,
          Spawner.memUnmap, temp, if_false]
        rfl
      · show Function.update s₁.parent (ppn utemp) none v = s.parent v
        rw [Function.update_of_ne hv]
        exact Function.update_of_ne hv ..

/-! ## One segment -/

/-- The new env of the kernel and the child of `spawn` have the same on the pages `T`, and
neither was given another page. -/
structure Match (binary : Nat → Byte) (f : File) (child₀ : Space) (T : Set Nat) (k : Loaded)
    (s : Spawner) : Prop where
  loaded : ∀ v ∈ T, ∃ p q perm, k.space v = some (p, perm) ∧ s.child v = some (q, perm) ∧
    p < k.ram.next ∧ q < s.ram.next ∧ k.ram.page p = s.ram.page q
  rest : ∀ v, v ∉ T → k.space v = none ∧ s.child v = child₀ v
  window : Window binary f s

variable {child₀ : Space} {T : Set Nat} {k : Loaded}

theorem Match.mapPage (same : Match binary f child₀ T k s) {va perm : Word} {offset len : Nat}
    {src : Option Nat} (legal : ¬ isIllegalVa va) (inside : ∀ a ∈ src, a + len ≤ f.size) :
    ∃ k' s', loadIcodeMapper binary k va offset perm src len = .ok k' ∧
      spawnMapper s va offset perm (src.map (f.data + ·)) len = .ok s' ∧
      Match binary f child₀ (insert (ppn va) T) k' s' := by
  obtain ⟨parent, spawned, kept⟩ :=
    @spawnMapper_eq binary f s same.window va perm offset len src legal inside
  refine ⟨_, _, loadIcodeMapper_eq .., spawned, fun v hv => ?_, fun v hv => ?_, ?_⟩
  · by_cases here : v = ppn va
    · subst here
      refine ⟨k.ram.next, s.ram.next, perm ||| pteV, Function.update_self ..,
        Function.update_self ..,
        Nat.lt_succ_self _, Nat.lt_succ_self _, ?_⟩
      simp only [Ram.fill, Function.update_self]
    · obtain ⟨p, q, perm', space, child, usedP, usedQ, page⟩ :=
        same.loaded v ((Set.mem_insert_iff.mp hv).resolve_left here)
      refine ⟨p, q, perm', ?_, ?_, Nat.lt_succ_of_lt usedP, Nat.lt_succ_of_lt usedQ, ?_⟩
      · exact (Function.update_of_ne here ..).trans space
      · exact (Function.update_of_ne here ..).trans child
      · simp only [Ram.fill, Function.update_of_ne (Nat.ne_of_lt usedP),
          Function.update_of_ne (Nat.ne_of_lt usedQ), page]
  · obtain ⟨here, hv⟩ := not_or.mp (mt Set.mem_insert_iff.mpr hv)
    obtain ⟨space, child⟩ := same.rest v hv
    exact ⟨(Function.update_of_ne here ..).trans space, (Function.update_of_ne here ..).trans child⟩
  · exact same.window.kept kept (fun p lt => Function.update_of_ne (Nat.ne_of_lt lt) ..)
      (Nat.le_succ _)

/-- A call that both loaders make, and after which the loop goes on. -/
def Call.Legal (c : Call) : Prop := ¬ isIllegalVa c.va ∧ ¬ Wraps c.i

theorem Match.call (same : Match binary f child₀ T k s) {bin : Nat} {c : Call} (legal : c.Legal)
    (inside : ∀ a ∈ c.src, bin + a + c.len ≤ f.size) :
    ∃ k' s', c.run (loadIcodeMapper binary) bin k = .ok k' ∧
      c.run spawnMapper (f.data + bin) s = .ok s' ∧
      Match binary f child₀ (insert (ppn c.va) T) k' s' := by
  have within : ∀ a ∈ c.src.map (bin + ·), a + c.len ≤ f.size := by
    intro a ha
    obtain ⟨r, hr, rfl⟩ := Option.map_eq_some_iff.mp ha
    exact inside r hr
  obtain ⟨k₁, s₁, first, first', same₁⟩ :=
    @Match.mapPage _ _ _ _ _ _ same c.va c.perm c.offset c.len _ legal.1 within
  have source : (c.src.map (bin + ·)).map (f.data + ·) = c.src.map (f.data + bin + ·) := by
    rw [Option.map_map]
    exact congrArg (c.src.map ·) (funext fun r => (Nat.add_assoc ..).symm)
  rw [source] at first'
  refine ⟨k₁, s₁, ?_, ?_, same₁⟩
  · rw [Call.run, first, ok_bind, if_neg legal.2]
  · rw [Call.run, first', ok_bind, if_neg legal.2]

theorem Match.runCalls (same : Match binary f child₀ T k s) {bin : Nat} {cs : List Call}
    (legal : ∀ c ∈ cs, c.Legal) (inside : ∀ c ∈ cs, ∀ a ∈ c.src, bin + a + c.len ≤ f.size) :
    ∃ k' s', runCalls (loadIcodeMapper binary) bin cs k = .ok k' ∧
      Mos.Elf.runCalls spawnMapper (f.data + bin) cs s = .ok s' ∧
      Match binary f child₀ (T ∪ { v | ∃ c ∈ cs, ppn c.va = v }) k' s' := by
  induction cs generalizing T k s with
  | nil =>
      refine ⟨k, s, rfl, rfl, ?_⟩
      have none_taken : T ∪ { v | ∃ c ∈ ([] : List Call), ppn c.va = v } = T := by simp
      rw [none_taken]
      exact same
  | cons c cs ih =>
      obtain ⟨k₁, s₁, first, first', same₁⟩ :=
        same.call (legal c List.mem_cons_self) (inside c List.mem_cons_self)
      obtain ⟨k₂, s₂, rest, rest', same₂⟩ := ih same₁
        (fun d hd => legal d (List.mem_cons_of_mem c hd))
        fun d hd => inside d (List.mem_cons_of_mem c hd)
      have taken : insert (ppn c.va) T ∪ { v | ∃ d ∈ cs, ppn d.va = v } =
          T ∪ { v | ∃ d ∈ c :: cs, ppn d.va = v } := by
        ext v
        simp only [Set.mem_union, Set.mem_insert_iff, Set.mem_ofPred_eq, List.mem_cons,
          exists_eq_or_imp]
        constructor
        · rintro ((rfl | old) | later)
          · exact .inr (.inl rfl)
          · exact .inl old
          · exact .inr (.inr later)
        · rintro (old | rfl | later)
          · exact .inl (.inr old)
          · exact .inl (.inl rfl)
          · exact .inr later
      refine ⟨k₂, s₂, ?_, ?_, ?_⟩
      · rw [runCalls_cons, first]
        exact rest
      · rw [runCalls_cons, first']
        exact rest'
      · rw [← taken]
        exact same₂

/-- Both loaders load the segment. -/
theorem Match.elfLoadSeg (same : Match binary f child₀ T k s) {ph : Phdr}
    (legal : ∀ c ∈ ph.calls, c.Legal)
    (inside : ph.pOffset.toNat + ph.pFilesz.toNat ≤ f.size) :
    ∃ k' s', elfLoadSeg (loadIcodeMapper binary) ph ph.pOffset.toNat k = .ok k' ∧
      Mos.Elf.elfLoadSeg spawnMapper ph (f.data + ph.pOffset.toNat) s = .ok s' ∧
      Match binary f child₀ (T ∪ ph.pages) k' s' := by
  simp only [elfLoadSeg_eq]
  refine same.runCalls legal fun c mem a src => ?_
  have := ph.calls_src mem src
  omega

/-- `spawn` loads no segment with a page outside the user's part of the memory. -/
theorem spawn_legal {ph : Phdr} {bin : Nat} {s' : Spawner}
    (run : elfLoadSeg spawnMapper ph bin s = .ok s') : ∀ c ∈ ph.calls, c.Legal := by
  intro c mem
  rw [elfLoadSeg_eq] at run
  obtain ⟨s₁, s₂, call⟩ := runCalls_ok run mem
  obtain ⟨s₃, mapped, counted⟩ := bind_eq_ok.mp call
  constructor
  · intro illegal
    obtain ⟨s₄, alloc, -⟩ := bind_eq_ok.mp mapped
    unfold Spawner.memAlloc at alloc
    rw [if_pos illegal] at alloc
    cases alloc
  · intro wraps
    rw [if_pos wraps] at counted
    cases counted

end Mos.Elf
