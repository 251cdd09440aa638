import Mos.ElfLoad

/-!
# The memory image of a segment

What the calls of `elf_load_seg` leave in the address space, for a mapper that puts a
cleared page at the page of `va` and copies to it. Pages are counted from the one of
`p_vaddr` on. The second loop goes on from the byte where the first one stopped, which is
not the start of a page where the bytes of the file end inside an unaligned first page: it
then puts a new page over theirs (`elf_load_seg_image_iff`).
-/

namespace Mos.Elf

variable {σ : Type}

/-! ## Pages -/

/-- The pages of an address space, by virtual page number. -/
abbrev Pages := Nat → Option (Nat → Byte)

/-- The byte at an address, if a page is mapped there. -/
def Pages.byte (pages : Pages) (va : Word) : Option Byte :=
  (pages (ppn va)).map fun page => page (va.toNat % 4096)

/-- The mapper puts a cleared page at `va` and copies to it from the `size` bytes at
`bin`, as long as the loader is in a `good` state. -/
structure Installs (mapPage : Mapper σ) (good : σ → Prop) (pages : σ → Pages) (m : Nat → Byte)
    (bin size : Nat) : Prop where
  map : ∀ {s s' : σ} {va perm : Word} {offset len : Nat} {src : Option Nat}, good s →
    (∀ a ∈ src, bin ≤ a ∧ a + len ≤ bin + size) →
    mapPage s va offset perm src len = .ok s' →
    good s' ∧ pages s' = Function.update (pages s) (ppn va) (some (contents m offset src len))

/-- What a call puts in its page. -/
def Call.page (m : Nat → Byte) (bin : Nat) (c : Call) : Nat → Byte :=
  contents m c.offset (c.src.map (bin + ·)) c.len

/-- The pages after some calls. -/
def lay (m : Nat → Byte) (bin : Nat) : List Call → Pages → Pages
  | [], pages => pages
  | c :: cs, pages => lay m bin cs (Function.update pages (ppn c.va) (some (c.page m bin)))

variable {m : Nat → Byte} {bin : Nat} {cs : List Call} {pages : Pages}

/-- Only the pages of the calls change. -/
theorem lay_of_ne {v : Nat} (ne : ∀ c ∈ cs, ppn c.va ≠ v) : lay m bin cs pages v = pages v := by
  induction cs generalizing pages with
  | nil => rfl
  | cons c cs ih =>
      rw [lay, ih fun d hd => ne d (List.mem_cons_of_mem c hd)]
      exact Function.update_of_ne (ne c List.mem_cons_self).symm ..

/-- If no two calls are for the same page, then each page is that of its call. -/
theorem lay_mem (apart : cs.Pairwise fun c d => ppn c.va ≠ ppn d.va) {c : Call} (mem : c ∈ cs) :
    lay m bin cs pages (ppn c.va) = some (c.page m bin) := by
  induction cs generalizing pages with
  | nil => cases mem
  | cons d cs ih =>
      obtain ⟨first, rest⟩ := List.pairwise_cons.mp apart
      rcases List.mem_cons.mp mem with rfl | mem
      · rw [lay, lay_of_ne fun d hd => (first d hd).symm]
        exact Function.update_self ..
      · exact ih rest mem

variable {mapPage : Mapper σ} {good : σ → Prop} {view : σ → Pages} {size : Nat} {s s' : σ}

theorem Installs.runCalls (maps : Installs mapPage good view m bin size) (hs : good s)
    (inside : ∀ c ∈ cs, ∀ r, c.src = some r → r + c.len ≤ size)
    (run : runCalls mapPage bin cs s = .ok s') :
    good s' ∧ view s' = lay m bin cs (view s) ∧ ∀ c ∈ cs, ¬ Wraps c.i := by
  induction cs generalizing s with
  | nil =>
      cases run
      exact ⟨hs, rfl, fun c mem => absurd mem List.not_mem_nil⟩
  | cons c cs ih =>
      obtain ⟨s₁, first, rest⟩ := bind_eq_ok.mp run
      obtain ⟨s₂, mapped, counted⟩ := bind_eq_ok.mp first
      split at counted
      · cases counted
      · rename_i counts
        cases counted
        have within : ∀ a ∈ c.src.map (bin + ·), bin ≤ a ∧ a + c.len ≤ bin + size := by
          intro a ha
          obtain ⟨r, hr, rfl⟩ := Option.map_eq_some_iff.mp ha
          have := inside c List.mem_cons_self r hr
          omega
        obtain ⟨hs₁, page⟩ := maps.map hs within mapped
        obtain ⟨hs', pages', count⟩ :=
          ih hs₁ (fun d hd => inside d (List.mem_cons_of_mem c hd)) rest
        refine ⟨hs', ?_, fun d hd => ?_⟩
        · rw [pages', page]
          rfl
        · rcases List.mem_cons.mp hd with rfl | hd
          · exact counts
          · exact count d hd

/-! ## Addresses of a segment -/

namespace Phdr

variable {ph : Phdr}

theorem offset_eq (ph : Phdr) : ph.offset = ph.pVaddr.toNat % 4096 := by
  have clear : ph.pVaddr &&& ~~~0xfff#32 = (ph.pVaddr >>> 12) <<< 12 := by
    apply BitVec.eq_of_getLsbD_eq
    intro i hi
    have mask : ∀ i, i < 32 → (~~~0xfff#32).getLsbD i = !decide (i < 12) := by decide
    rw [BitVec.getLsbD_and, BitVec.getLsbD_shiftLeft, BitVec.getLsbD_ushiftRight, mask i hi]
    by_cases low : i < 12
    · simp [low]
    · simp [low, hi, show 12 + (i - 12) = i by omega]
  have down : (ph.pVaddr &&& ~~~0xfff#32).toNat = ph.pVaddr.toNat / 4096 * 4096 := by
    rw [clear, BitVec.toNat_shiftLeft, BitVec.toNat_ushiftRight, Nat.shiftRight_eq_div_pow,
      Nat.shiftLeft_eq]
    omega
  show (ph.pVaddr - (ph.pVaddr &&& ~~~0xfff#32)).toNat = _
  rw [BitVec.toNat_sub_of_le (by rw [BitVec.le_def, down]; omega), down]
  omega

theorem offset_lt (ph : Phdr) : ph.offset < 4096 := by
  rw [offset_eq]
  exact Nat.mod_lt _ (by omega)

/-- Byte `k` of the segment is in page `(offset + k) / 4096` of it. -/
theorem ppn_add (ph : Phdr) (k : Nat) : ppn (ph.pVaddr + .ofNat 32 k) =
    (ph.pVaddr.toNat / 4096 + (ph.offset + k) / 4096) % 2 ^ 20 := by
  rw [ppn_eq_div, BitVec.toNat_add, BitVec.toNat_ofNat, offset_eq]
  omega

theorem mod_add (ph : Phdr) (k : Nat) :
    (ph.pVaddr + .ofNat 32 k).toNat % 4096 = (ph.offset + k) % 4096 := by
  rw [BitVec.toNat_add, BitVec.toNat_ofNat, offset_eq]
  omega

theorem add_zero (ph : Phdr) : ph.pVaddr + .ofNat 32 0 = ph.pVaddr := by simp

/-- Pages of the segment are different, as far as the counter can get. -/
theorem ppn_inj {j k : Nat} (hj : ph.offset + j < 2 ^ 32) (hk : ph.offset + k < 2 ^ 32) :
    ppn (ph.pVaddr + .ofNat 32 j) = ppn (ph.pVaddr + .ofNat 32 k) ↔
      (ph.offset + j) / 4096 = (ph.offset + k) / 4096 := by
  rw [ppn_add, ppn_add]
  omega

/-! ## The calls after the first page -/

/-- The calls from byte `i` of the segment on. -/
def tail (ph : Phdr) (i : Nat) : List Call := ph.binCalls i ++ ph.zeroCalls (ph.binEnd i)

/-- A call of one of the loops. -/
structure Turn (ph : Phdr) (c : Call) : Prop where
  va : c.va = ph.pVaddr + .ofNat 32 c.i
  offset : c.offset = 0
  lt : c.i < ph.pFilesz.toNat ∨ c.i < ph.pMemsz.toNat
  src : c.i < ph.pFilesz.toNat ∧ c.src = some c.i ∧ c.len = min (ph.pFilesz.toNat - c.i) 4096 ∨
    ph.pFilesz.toNat ≤ c.i ∧ c.src = none

theorem zeroCalls_turn {i : Nat} (le : ph.pFilesz.toNat ≤ i) {c : Call}
    (mem : c ∈ ph.zeroCalls i) : ph.Turn c ∧ ∃ n, c.i = i + n * 4096 := by
  induction i using zeroCalls.induct ph with
  | case1 i lt ih =>
      rw [zeroCalls_pos lt] at mem
      rcases List.mem_cons.mp mem with rfl | mem
      · exact ⟨⟨rfl, rfl, .inr lt, .inr ⟨le, rfl⟩⟩, 0, by simp⟩
      · obtain ⟨turn, n, eq⟩ := ih (by omega) mem
        exact ⟨turn, n + 1, by omega⟩
  | case2 i ge =>
      rw [zeroCalls, if_neg ge] at mem
      cases mem

theorem tail_pos {i : Nat} (lt : i < ph.pFilesz.toNat) : ph.tail i =
    ⟨i, ph.pVaddr + .ofNat 32 i, 0, ph.perm, some i, min (ph.pFilesz.toNat - i) 4096⟩ ::
      ph.tail (i + 4096) := by
  rw [tail, tail, binCalls_pos lt, binEnd_pos lt, List.cons_append]

theorem tail_neg {i : Nat} (ge : ¬ i < ph.pFilesz.toNat) : ph.tail i = ph.zeroCalls i := by
  rw [tail, binCalls, binEnd, if_neg ge, if_neg ge, List.nil_append]

theorem tail_turn {i : Nat} {c : Call} (mem : c ∈ ph.tail i) :
    ph.Turn c ∧ ∃ n, c.i = i + n * 4096 := by
  induction i using binCalls.induct ph with
  | case1 i lt ih =>
      rw [tail_pos lt] at mem
      rcases List.mem_cons.mp mem with rfl | mem
      · exact ⟨⟨rfl, rfl, .inl lt, .inl ⟨lt, rfl, rfl⟩⟩, 0, by simp⟩
      · obtain ⟨turn, n, eq⟩ := ih mem
        exact ⟨turn, n + 1, by omega⟩
  | case2 i ge =>
      rw [tail_neg ge] at mem
      exact zeroCalls_turn (by omega) mem

theorem zeroCalls_pairwise {i : Nat} (le : ph.pFilesz.toNat ≤ i) :
    (ph.zeroCalls i).Pairwise fun c d => c.i + 4096 ≤ d.i := by
  induction i using zeroCalls.induct ph with
  | case1 i lt ih =>
      rw [zeroCalls_pos lt]
      refine List.pairwise_cons.mpr ⟨fun d hd => ?_, ih (by omega)⟩
      obtain ⟨-, n, eq⟩ := zeroCalls_turn (by omega) hd
      simp only
      omega
  | case2 i ge =>
      rw [zeroCalls, if_neg ge]
      exact .nil

theorem tail_pairwise (i : Nat) : (ph.tail i).Pairwise fun c d => c.i + 4096 ≤ d.i := by
  induction i using binCalls.induct ph with
  | case1 i lt ih =>
      rw [tail_pos lt]
      refine List.pairwise_cons.mpr ⟨fun d hd => ?_, ih⟩
      obtain ⟨-, n, eq⟩ := tail_turn hd
      simp only
      omega
  | case2 i ge =>
      rw [tail_neg ge]
      exact zeroCalls_pairwise (by omega)

theorem zeroCalls_cover {i k : Nat} (le : i ≤ k) (lt : k < ph.pMemsz.toNat) :
    ∃ c ∈ ph.zeroCalls i, c.i ≤ k ∧ k < c.i + 4096 := by
  induction i using zeroCalls.induct ph with
  | case1 i pos ih =>
      rw [zeroCalls_pos pos]
      by_cases here : k < i + 4096
      · exact ⟨_, List.mem_cons_self, le, here⟩
      · obtain ⟨c, mem, inside⟩ := ih (by omega)
        exact ⟨c, List.mem_cons_of_mem _ mem, inside⟩
  | case2 i ge => omega

/-- The loops get to every byte. -/
theorem tail_cover {i k : Nat} (le : i ≤ k) (lt : k < ph.pMemsz.toNat) :
    ∃ c ∈ ph.tail i, c.i ≤ k ∧ k < c.i + 4096 := by
  induction i using binCalls.induct ph with
  | case1 i pos ih =>
      rw [tail_pos pos]
      by_cases here : k < i + 4096
      · exact ⟨_, List.mem_cons_self, le, here⟩
      · obtain ⟨c, mem, inside⟩ := ih (by omega)
        exact ⟨c, List.mem_cons_of_mem _ mem, inside⟩
  | case2 i ge =>
      rw [tail_neg ge]
      exact zeroCalls_cover le lt

/-- The calls of the loops are for different pages. -/
theorem tail_apart {i : Nat} (counts : ∀ c ∈ ph.tail i, ¬ Wraps c.i) :
    (ph.tail i).Pairwise fun c d => ppn c.va ≠ ppn d.va := by
  refine (tail_pairwise i).imp_of_mem fun {c d} hc hd lt same => ?_
  have := ph.offset_lt
  have left := counts c hc
  have right := counts d hd
  unfold Wraps at left right
  rw [(tail_turn hc).1.va, (tail_turn hd).1.va, ppn_inj (by omega) (by omega)] at same
  omega

/-! ## The segment in memory -/

/-- The segment is at `pages` as the header says. -/
def Image (ph : Phdr) (m : Nat → Byte) (bin : Nat) (pages : Pages) : Prop :=
  ∀ k, k < ph.pMemsz.toNat → pages.byte (ph.pVaddr + .ofNat 32 k) =
    some (if k < ph.pFilesz.toNat then m (bin + k) else 0)

/-- The bytes of the file end inside a first page that the segment does not start, and
more bytes follow. -/
def Split (ph : Phdr) : Prop :=
  ph.offset ≠ 0 ∧ ph.pFilesz.toNat < 4096 - ph.offset ∧ ph.pFilesz.toNat < ph.pMemsz.toNat

instance (ph : Phdr) : Decidable ph.Split := inferInstanceAs (Decidable (_ ∧ _))

/-- How many pages the second loop takes of a segment that is split. -/
def cleared (ph : Phdr) : Nat := (ph.pMemsz.toNat - ph.pFilesz.toNat + 4095) / 4096

/-- There is nothing but zeros to load, and after the pages that the second loop takes
there already are zeros. -/
def Blank (ph : Phdr) (m : Nat → Byte) (bin : Nat) (pages : Pages) : Prop :=
  (∀ k, k < ph.pFilesz.toNat → m (bin + k) = 0) ∧
    ∀ k, k < ph.pMemsz.toNat → ph.cleared ≤ (ph.offset + k) / 4096 →
      pages.byte (ph.pVaddr + .ofNat 32 k) = some 0

theorem byte_tail {i k : Nat} (counts : ∀ c ∈ ph.tail i, ¬ Wraps c.i)
    (aligned : (ph.offset + i) % 4096 = 0) (le : i ≤ k) (lt : k < ph.pMemsz.toNat) :
    (lay m bin (ph.tail i) pages).byte (ph.pVaddr + .ofNat 32 k) =
      some (if k < ph.pFilesz.toNat then m (bin + k) else 0) := by
  obtain ⟨c, mem, below, above⟩ := tail_cover le lt
  obtain ⟨turn, n, index⟩ := tail_turn mem
  have count := counts c mem
  have := ph.offset_lt
  unfold Wraps at count
  have same : ppn (ph.pVaddr + .ofNat 32 k) = ppn c.va := by
    rw [turn.va, ppn_inj (by omega) (by omega)]
    omega
  have inPage : (ph.offset + k) % 4096 = k - c.i := by omega
  rw [Pages.byte, same, lay_mem (tail_apart counts) mem, Option.map_some, mod_add, inPage,
    Call.page, turn.offset]
  rcases turn.src with ⟨some_left, src, len⟩ | ⟨no_more, src⟩
  · rw [src, len, Option.map_some, contents]
    by_cases inside : k < ph.pFilesz.toNat
    · rw [if_pos inside, if_pos (by omega)]
      congr 2
      omega
    · rw [if_neg inside, if_neg (by omega)]
  · rw [src, Option.map_none, if_neg (by omega)]
    rfl

/-- What the first call leaves of its page. -/
theorem byte_head {k : Nat} (first : ph.offset + k < 4096) (others : ∀ c ∈ cs,
    ppn c.va ≠ ppn (ph.pVaddr + .ofNat 32 k)) :
    (lay m bin (⟨0, ph.pVaddr, ph.offset, ph.perm, some 0, ph.head⟩ :: cs) pages).byte
      (ph.pVaddr + .ofNat 32 k) = some (if k < ph.head then m (bin + k) else 0) := by
  have same : ppn ph.pVaddr = ppn (ph.pVaddr + .ofNat 32 k) := by
    have start := (ph.ppn_inj (by omega) (by omega)).mpr
      (show (ph.offset + 0) / 4096 = (ph.offset + k) / 4096 by omega)
    rwa [add_zero] at start
  rw [Pages.byte, lay, lay_of_ne others, same, Function.update_self, Option.map_some, mod_add,
    Nat.mod_eq_of_lt first]
  simp only [Call.page, Option.map_some, contents, Option.some.injEq]
  by_cases inside : k < ph.head
  · rw [if_pos inside, if_pos (by omega)]
    congr 2
    omega
  · rw [if_neg inside, if_neg (by omega)]

/-- The segment is loaded as it should be, unless it is split. -/
theorem image_of_not_split (whole : ¬ ph.Split) (counts : ∀ c ∈ ph.calls, ¬ Wraps c.i) :
    ph.Image m bin (lay m bin ph.calls pages) := by
  intro k lt
  have := ph.offset_lt
  by_cases unaligned : ph.offset ≠ 0
  · have calls : ph.calls =
        ⟨0, ph.pVaddr, ph.offset, ph.perm, some 0, ph.head⟩ :: ph.tail ph.head := by
      rw [Phdr.calls, headCalls, start, if_pos unaligned, if_pos unaligned]
      rfl
    have counts' : ∀ c ∈ ph.tail ph.head, ¬ Wraps c.i := fun c hc =>
      counts c (calls ▸ List.mem_cons_of_mem _ hc)
    have full : k < ph.head ∨ ph.head = 4096 - ph.offset := by
      unfold Split at whole
      unfold Phdr.head
      omega
    rw [calls]
    by_cases inside : k < ph.head
    · have file : k < ph.pFilesz.toNat := by
        unfold Phdr.head at inside
        omega
      have first : ph.offset + k < 4096 := by
        unfold Phdr.head at inside
        omega
      rw [byte_head first, if_pos inside, if_pos file]
      intro c hc same
      obtain ⟨turn, n, index⟩ := tail_turn hc
      have count := counts' c hc
      unfold Wraps at count
      rw [turn.va, ppn_inj (by omega) (by omega)] at same
      have more := turn.lt
      unfold Split at whole
      unfold Phdr.head at index
      omega
    · have aligned := full.resolve_left inside
      rw [lay]
      exact byte_tail counts' (by omega) (by omega) lt
  · have calls : ph.calls = ph.tail 0 := by
      rw [Phdr.calls, headCalls, start, if_neg unaligned, if_neg unaligned]
      rfl
    rw [calls] at counts ⊢
    exact byte_tail counts (by omega) (Nat.zero_le k) lt

/-- Of a segment that is split the second loop clears the first pages, and the rest is
left as it was. -/
theorem byte_of_split (split : ph.Split) (counts : ∀ c ∈ ph.calls, ¬ Wraps c.i) {k : Nat}
    (lt : k < ph.pMemsz.toNat) :
    (lay m bin ph.calls pages).byte (ph.pVaddr + .ofNat 32 k) =
      if (ph.offset + k) / 4096 < ph.cleared then some 0
      else pages.byte (ph.pVaddr + .ofNat 32 k) := by
  obtain ⟨unaligned, short, more⟩ := split
  have head : ph.head = ph.pFilesz.toNat := by
    unfold Phdr.head
    omega
  have calls : ph.calls =
      ⟨0, ph.pVaddr, ph.offset, ph.perm, some 0, ph.head⟩ :: ph.tail ph.pFilesz.toNat := by
    rw [Phdr.calls, headCalls, start, if_pos unaligned, if_pos unaligned, head]
    rfl
  have counts' : ∀ c ∈ ph.tail ph.pFilesz.toNat, ¬ Wraps c.i := fun c hc =>
    counts c (calls ▸ List.mem_cons_of_mem _ hc)
  -- the call for page `q`, if there is one
  have find : ∀ q, q < ph.cleared → ∃ c ∈ ph.tail ph.pFilesz.toNat,
      c.i = ph.pFilesz.toNat + q * 4096 := by
    intro q hq
    unfold cleared at hq
    obtain ⟨c, mem, below, above⟩ := @tail_cover ph ph.pFilesz.toNat
      (ph.pFilesz.toNat + q * 4096) (by omega) (by omega)
    obtain ⟨-, n, index⟩ := tail_turn mem
    have turns : n = q := by omega
    exact ⟨c, mem, turns ▸ index⟩
  have small : ph.pFilesz.toNat + ph.cleared * 4096 < 2 ^ 32 := by
    obtain ⟨c, mem, index⟩ := find (ph.cleared - 1) (by unfold cleared; omega)
    have count := counts' c mem
    unfold Wraps cleared at *
    omega
  have range : ph.offset + k < 2 ^ 32 := by
    unfold cleared at small
    omega
  rw [calls, lay]
  by_cases inside : (ph.offset + k) / 4096 < ph.cleared
  · obtain ⟨c, mem, index⟩ := find _ inside
    have turn := (tail_turn mem).1
    have same : ppn (ph.pVaddr + .ofNat 32 k) = ppn c.va := by
      rw [turn.va, ppn_inj range (by omega)]
      omega
    have none_left : c.src = none := by
      rcases turn.src with ⟨lt, -⟩ | ⟨-, src⟩
      · omega
      · exact src
    rw [if_pos inside, Pages.byte, same, lay_mem (tail_apart counts') mem, Option.map_some,
      Call.page, none_left]
    rfl
  · have others : ∀ c ∈ ph.tail ph.pFilesz.toNat,
        ppn c.va ≠ ppn (ph.pVaddr + .ofNat 32 k) := by
      intro c mem same
      obtain ⟨turn, n, index⟩ := tail_turn mem
      have count := counts' c mem
      have bound := turn.lt
      unfold Wraps at count
      rw [turn.va, ppn_inj (by omega) range] at same
      unfold cleared at inside
      omega
    have first : ppn (ph.pVaddr + .ofNat 32 k) ≠ ppn ph.pVaddr := by
      intro same
      have start := (@ppn_inj ph k 0 range (by omega)).mp
        (by rw [same, add_zero])
      unfold cleared at inside
      omega
    rw [if_neg inside, Pages.byte, lay_of_ne others, Function.update_of_ne first]
    rfl

end Phdr

/-! ## The mappers -/

/-- What an address space has in memory. -/
def Space.inRam (space : Space) (r : Ram) : Pages := fun v =>
  (space v).map fun pte => r.page pte.1

/-- The pages of an address space are not free. -/
def Space.Taken (space : Space) (r : Ram) : Prop := ∀ v pte, space v = some pte → pte.1 < r.next

theorem Space.Taken.insert {space : Space} {r : Ram} (taken : space.Taken r) (va perm : Word)
    (page : Nat → Byte) : (space.insert va r.next perm).Taken (r.fill page) := by
  intro v pte mapped
  unfold Space.insert at mapped
  by_cases here : v = ppn va
  · subst here
    rw [Function.update_self] at mapped
    cases mapped
    exact Nat.lt_succ_self _
  · rw [Function.update_of_ne here] at mapped
    exact Nat.lt_succ_of_lt (taken v pte mapped)

theorem Space.Taken.inRam_insert {space : Space} {r : Ram} (taken : space.Taken r)
    (va perm : Word) (page : Nat → Byte) : (space.insert va r.next perm).inRam (r.fill page) =
      Function.update (space.inRam r) (ppn va) (some page) := by
  funext v
  unfold Space.inRam Space.insert Ram.fill
  by_cases here : v = ppn va
  · subst here
    simp only [Function.update_self, Option.map_some]
  · simp only [Function.update_of_ne here]
    cases mapped : space v with
    | none => rfl
    | some pte =>
        simp only [Option.map_some, Function.update_of_ne (Nat.ne_of_lt (taken v pte mapped))]

theorem loadIcodeMapper_installs (binary : Nat → Byte) (bin size : Nat) :
    Installs (loadIcodeMapper binary) (fun k => k.space.Taken k.ram)
      (fun k => k.space.inRam k.ram) binary bin size := by
  refine ⟨fun {k k' va perm offset len src} taken _ mapped => ?_⟩
  rw [loadIcodeMapper_eq] at mapped
  cases mapped
  exact ⟨Space.Taken.insert taken _ _ _, Space.Taken.inRam_insert taken _ _ _⟩

theorem contents_sub {binary : Nat → Byte} {d offset len : Nat} {src : Option Nat}
    (le : ∀ a ∈ src, d ≤ a) : contents binary offset (src.map (· - d)) len =
      contents (fun a => binary (a - d)) offset src len := by
  cases src with
  | none => rfl
  | some a =>
      funext j
      have := le a rfl
      have same : a - d + (j - offset) = a + (j - offset) - d := by omega
      simp only [contents, Option.map_some, same]

/-- `spawn_mapper` is another such mapper, where `spawn` sees the file. -/
theorem spawnMapper_installs (binary : Nat → Byte) (f : File) {bin size : Nat}
    (inside : bin + size ≤ f.size) :
    Installs spawnMapper (fun s => Window binary f s ∧ s.child.Taken s.ram)
      (fun s => s.child.inRam s.ram) (fun a => binary (a - f.data)) (f.data + bin) size := by
  refine ⟨fun {s s' va perm offset len src} good range mapped => ?_⟩
  obtain ⟨window, taken⟩ := good
  have legal : ¬ isIllegalVa va := by
    intro illegal
    rw [spawnMapper, Spawner.memAlloc, if_pos illegal] at mapped
    cases mapped
  have after : ∀ a ∈ src, f.data ≤ a := fun a ha =>
    Nat.le_trans (Nat.le_add_right ..) (range a ha).1
  have within : ∀ a ∈ src.map (· - f.data), a + len ≤ f.size := by
    intro a ha
    obtain ⟨r, hr, rfl⟩ := Option.map_eq_some_iff.mp ha
    have := range r hr
    omega
  have source : (src.map (· - f.data)).map (f.data + ·) = src := by
    cases src with
    | none => rfl
    | some a => rw [Option.map_some, Option.map_some, Nat.add_sub_cancel' (after a rfl)]
  obtain ⟨parent, spawned, kept⟩ :=
    @spawnMapper_eq binary f s window va perm offset len _ legal within
  rw [source, contents_sub after] at spawned
  rw [spawned] at mapped
  cases mapped
  exact ⟨⟨window.kept kept (fun p lt => Function.update_of_ne (Nat.ne_of_lt lt) ..)
    (Nat.le_succ _), Space.Taken.insert taken _ _ _⟩, Space.Taken.inRam_insert taken _ _ _⟩

theorem Phdr.calls_lt {ph : Phdr} {c : Call} (mem : c ∈ ph.calls) :
    c.i = 0 ∨ c.i < ph.pFilesz.toNat ∨ c.i < ph.pMemsz.toNat := by
  rcases List.mem_append.mp mem with mem | mem
  · unfold Phdr.headCalls at mem
    split at mem
    · cases List.mem_singleton.mp mem
      exact .inl rfl
    · cases mem
  · exact .inr (Phdr.tail_turn mem).1.lt

theorem Phdr.calls_va {ph : Phdr} {c : Call} (mem : c ∈ ph.calls) :
    c.va = ph.pVaddr + .ofNat 32 c.i := by
  rcases List.mem_append.mp mem with mem | mem
  · unfold Phdr.headCalls at mem
    split at mem
    · cases List.mem_singleton.mp mem
      exact ph.add_zero.symm
    · cases mem
  · exact (Phdr.tail_turn mem).1.va

theorem loadIcode_runs {binary : Nat → Byte} (k : Loaded) (counts : ∀ c ∈ cs, ¬ Wraps c.i) :
    ∃ k', Mos.Elf.runCalls (loadIcodeMapper binary) bin cs k = .ok k' := by
  induction cs generalizing k with
  | nil => exact ⟨k, rfl⟩
  | cons c cs ih =>
      rw [runCalls_cons, Call.run, loadIcodeMapper_eq, ok_bind,
        if_neg (counts c List.mem_cons_self)]
      exact ih _ fun d hd => counts d (List.mem_cons_of_mem c hd)

/-- The kernel loads a segment, if the counter does not get to the end of the words. -/
theorem loadIcode_loads {binary : Nat → Byte} {ph : Phdr} (k : Loaded)
    (file : ph.pFilesz.toNat + 4096 ≤ 2 ^ 32) (mem : ph.pMemsz.toNat + 4096 ≤ 2 ^ 32) :
    ∃ k', elfLoadSeg (loadIcodeMapper binary) ph bin k = .ok k' := by
  rw [elfLoadSeg_eq]
  refine loadIcode_runs k fun c hc => ?_
  have := Phdr.calls_lt hc
  unfold Wraps
  omega

/-! ## The claimed image -/

/-- `elf_load_seg` leaves the segment in memory if it is not split. A split segment is as
it should be only where all of it is zeros anyway. -/
theorem elf_load_seg_image_iff {ph : Phdr}
    (maps : Installs mapPage good view m bin ph.pFilesz.toNat) (hs : good s)
    (run : elfLoadSeg mapPage ph bin s = .ok s') :
    ph.Image m bin (view s') ↔ ¬ ph.Split ∨ ph.Blank m bin (view s) := by
  rw [elfLoadSeg_eq] at run
  obtain ⟨-, pages, counts⟩ := maps.runCalls hs (fun c mem r src => ph.calls_src mem src) run
  rw [pages]
  by_cases split : ph.Split
  · constructor
    · intro image
      refine .inr ⟨fun k lt => ?_, fun k lt after => ?_⟩
      · obtain ⟨unaligned, short, more⟩ := split
        have byte := image k (by omega)
        rw [Phdr.byte_of_split ⟨unaligned, short, more⟩ counts (by omega),
          if_pos (by unfold Phdr.cleared; omega), if_pos lt] at byte
        exact (Option.some.inj byte).symm
      · have byte := image k lt
        have past : ¬ k < ph.pFilesz.toNat := by
          obtain ⟨unaligned, short, more⟩ := split
          unfold Phdr.cleared at after
          omega
        rwa [Phdr.byte_of_split split counts lt, if_neg (by omega), if_neg past] at byte
    · rintro (whole | ⟨zeros, clear⟩)
      · exact absurd split whole
      · intro k lt
        have expected : (if k < ph.pFilesz.toNat then m (bin + k) else 0) = 0 := by
          by_cases inside : k < ph.pFilesz.toNat
          · rw [if_pos inside, zeros k inside]
          · rw [if_neg inside]
        rw [Phdr.byte_of_split split counts lt, expected]
        by_cases inside : (ph.offset + k) / 4096 < ph.cleared
        · rw [if_pos inside]
        · rw [if_neg inside, clear k lt (by omega)]
  · exact iff_of_true (Phdr.image_of_not_split split counts) (.inl split)


/-- Four bytes at the end of a page. -/
def tailSeg : Phdr := ⟨ptLoad, 0, 0x400ffc, 4, 8, 0⟩

/-- Four bytes with four more to clear, not at the start of a page. -/
def splitSeg : Phdr := ⟨ptLoad, 0, 0x400010, 4, 8, 0⟩

/-- No page is mapped. -/
def Loaded.empty : Loaded := ⟨⟨fun _ _ => 0, 0⟩, fun _ => none⟩

theorem elf_load_seg_image_iff_tail : ∃ k',
    elfLoadSeg (loadIcodeMapper fun _ => 1) tailSeg 0 .empty = .ok k' ∧
      tailSeg.Image (fun _ => 1) 0 (k'.space.inRam k'.ram) := by
  obtain ⟨k', run⟩ := @loadIcode_loads 0 (fun _ => 1) tailSeg .empty (by decide) (by decide)
  refine ⟨k', run, (elf_load_seg_image_iff (loadIcodeMapper_installs ..) ?_ run).mpr
    (.inl (by decide))⟩
  intro v pte mapped
  cases mapped

/-- The bytes of a split segment are lost. -/
theorem elf_load_seg_loses_bytes : splitSeg.pFilesz ≤ splitSeg.pMemsz ∧ ∃ k',
    elfLoadSeg (loadIcodeMapper fun _ => 1) splitSeg 0 .empty = .ok k' ∧
      (k'.space.inRam k'.ram).byte 0x400010 = some 0 ∧
      ¬ splitSeg.Image (fun _ => 1) 0 (k'.space.inRam k'.ram) := by
  obtain ⟨k', run⟩ := @loadIcode_loads 0 (fun _ => 1) splitSeg .empty (by decide) (by decide)
  have lost : (k'.space.inRam k'.ram).byte (splitSeg.pVaddr + .ofNat 32 0) = some 0 := by
    have loaded := run
    rw [elfLoadSeg_eq] at loaded
    obtain ⟨-, pages, counts⟩ := (loadIcodeMapper_installs (fun _ => 1) 0 4).runCalls
      (fun v pte mapped => nomatch (show none = some pte from mapped))
        (fun c mem r src => splitSeg.calls_src mem src) loaded
    rw [pages, Phdr.byte_of_split (by decide) counts (by decide), if_pos (by decide)]
  refine ⟨by decide, k', run, lost, fun image => ?_⟩
  have byte := image 0 (by decide)
  rw [lost, if_pos (by decide)] at byte
  exact absurd byte (by decide)

end Mos.Elf
