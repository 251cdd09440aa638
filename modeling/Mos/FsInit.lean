import Mos.BlockCache
import Mos.FsCreate

/-!
# Starting the server

`fs_init` of `fs/fs.c`, with nothing in the cache: it reads the super block, tries the
disk out on it, and loads the bitmap. What the server starts with is what is on the disk
(`fsInit_mounts`); so a server that is started again after a sync has every block that was
marked dirty, and no block that was in use is free (`restart_keeps`).
-/

namespace Mos

namespace BlockCache

open Fs (nbitmap)

/-! ## The functions -/

/-- `read_block` as long as there is no super block and no bitmap to look at. -/
def loadBlock (c : BlockCache) (blockno : Nat) : Option BlockCache :=
  if c.mapped blockno then some c
  else
    let c := c.newPage blockno
    (c.ide.ideRead 0 (.ofNat 32 (blockno * SECT2BLK)) (diskaddr blockno)
      (.ofNat 32 SECT2BLK)).map fun ide => { c with ide }

/-- `read_super`; `none` is a panic, here and below. -/
def readSuper (c : BlockCache) : Option BlockCache :=
  (c.loadBlock 1).bind fun c =>
    (Fs.readSuper (c.cached 1 0) (c.cached 1 1)).map fun nblocks => { c with nblocks }

def movePage (mem : Nat → Word) (dst src a : Nat) : Word :=
  if dst ≤ a ∧ a < dst + 1024 then mem (src + (a - dst)) else mem a

/-- `memcpy` of the page of one block to that of another. -/
def copyPage (c : BlockCache) (dst src : Nat) : BlockCache :=
  { c with ide := { c.ide with mem := movePage c.ide.mem (blockBase dst) (blockBase src) } }

/-- The two words of a page that begins with `"OOPS!\n"`; of the second one byte stays. -/
def oops : Word := 0x53504F4F

def oopsEnd (old : Word) : Word := old &&& 0xFF000000#32 ||| 0x00000A21#32

/-- `strcpy((char *)diskaddr(1), "OOPS!\n")` -/
def smash (c : BlockCache) : BlockCache :=
  (c.setWord (blockBase 1) oops).setWord (blockBase 1 + 1) (oopsEnd (c.cached 1 1))

/-- `strcmp((char *)diskaddr(1), "OOPS!\n") == 0` -/
def smashed (c : BlockCache) : Bool :=
  c.cached 1 0 == oops && (c.cached 1 1 &&& 0x00FFFFFF#32) == 0x00000A21#32

def unmap (c : BlockCache) (blockno : Nat) : BlockCache :=
  { c with mapped := Function.update c.mapped blockno false }

/-- `write_block`, for one that does not come back from a panic. -/
def putBlock (c : BlockCache) (blockno : Nat) : Option BlockCache :=
  match c.writeBlock blockno with
  | (.error _, _) => none
  | (.ok (), c) => some c

def checkWriteBlock (c : BlockCache) : Option BlockCache := do
  let c ← c.loadBlock 0
  let c ← (c.copyPage 0 1).smash.putBlock 1
  if c.mapped 1 = false then none
  else
    let c ← (c.unmap 1).loadBlock 1
    if c.smashed = false then none
    else (c.copyPage 1 0).putBlock 1

/-- The first `n` turns of the loop of `read_bitmap`. -/
def readBitmapBlocks (c : BlockCache) : Nat → Option BlockCache
  | 0 => some c
  | n + 1 =>
      (c.readBitmapBlocks n).bind fun c =>
        if c.nblocks ≤ n + 2 then none else c.loadBlock (n + 2)

def readBitmap (c : BlockCache) : Option BlockCache :=
  (c.readBitmapBlocks (nbitmap c.nblocks)).bind fun c =>
    if c.blockIsFree 0 || c.blockIsFree 1 then none
    else if (List.range (nbitmap c.nblocks)).any fun i => c.blockIsFree (i + 2) then none
    else some c

def fsInit (c : BlockCache) : Option BlockCache := do
  let c ← c.readSuper
  let c ← c.checkWriteBlock
  c.readBitmap

/-! ## Pages and blocks -/

variable {c c' c₀ : BlockCache} {b b' i k n : Nat} {s : Fs}

/-- What is in the pages that are present, and on the disk. -/
structure Shelf where
  nblocks : Nat
  size : Nat
  answers : List (Except Err Unit)
  present : Nat → Bool
  page : Nat → Nat → Word
  disk : Nat → Nat → Word

variable {a : Shelf}

structure Holds (c : BlockCache) (a : Shelf) : Prop where
  nblocks : c.nblocks = a.nblocks
  size : c.ide.dev.size = a.size
  answers : c.answers = a.answers
  mapped : c.mapped = a.present
  small : ∀ b, a.present b = true → b < 2 ^ 18
  clean : ∀ b, c.dirty b = false
  page : ∀ b, a.present b = true → ∀ i < 1024, c.cached b i = a.page b i
  disk : ∀ b, ∀ i < 1024, c.onDisk b i = a.disk b i

theorem Holds.of_eq (holds : c.Holds a) {present : Nat → Bool} {page disk : Nat → Nat → Word}
    (presents : a.present = present) (pages : ∀ b, a.present b = true → a.page b = page b)
    (disks : a.disk = disk) : c.Holds { a with present, page, disk } := by
  subst presents disks
  refine ⟨holds.nblocks, holds.size, holds.answers, holds.mapped, holds.small, holds.clean,
    fun b here i lt => ?_, holds.disk⟩
  rw [holds.page b here i lt, pages b here]

/-- A block is loaded into a page of its own. -/
theorem Holds.loadBlock (holds : c.Holds a) (small : b < 2 ^ 18) (room : (b + 1) * 4096 ≤ a.size)
    (away : a.present b = false) :
    ∃ c', c.loadBlock b = some c' ∧ c'.Holds { a with
      present := Function.update a.present b true
      page := Function.update a.page b (a.disk b) } := by
  have size : (c.newPage b).ide.dev.size = a.size := holds.size
  have fits := fits_of_room (c.newPage b).ide small (size ▸ room)
  obtain ⟨ide, run, image, size', blit⟩ := Ide.ideRead_spec fits
  have count : 128 * (BitVec.ofNat 32 SECT2BLK).toNat = 1024 := by decide
  rw [sector_word small, count] at blit
  have image : ide.dev.image = c.ide.dev.image := image
  have off : ¬ c.mapped b = true := by simp [holds.mapped, away]
  refine ⟨{ c.newPage b with ide }, ?_, holds.nblocks, size'.trans size, holds.answers, ?_,
    fun b' here => ?_, fun b' => ?_, fun b' here i lt => ?_, fun b' i lt => ?_⟩
  · rw [BlockCache.loadBlock, if_neg off]
    dsimp only
    rw [run, Option.map_some]
  · show Function.update c.mapped b true = _
    rw [holds.mapped]
  · by_cases same : b' = b
    · exact same ▸ small
    · exact holds.small b' ((Function.update_of_ne same _ _).symm.trans here)
  · by_cases same : b' = b
    · subst same
      exact Function.update_self ..
    · exact (Function.update_of_ne same _ _).trans (holds.clean b')
  · show _ = Function.update a.page b (a.disk b) b' i
    by_cases same : b' = b
    · subst same
      rw [Function.update_self, ← holds.disk b' i lt]
      refine (blit _).trans ?_
      unfold blockBase
      rw [if_pos (by omega), Nat.add_sub_cancel_left]
      rfl
    · have here' : a.present b' = true := (Function.update_of_ne same _ _).symm.trans here
      have apart := blockBase_apart (holds.small b' here') small same lt
      rw [Function.update_of_ne same, ← holds.page b' here' i lt]
      refine (blit _).trans ?_
      refine (if_neg ?_).trans (if_neg apart)
      exact apart
  · rw [← holds.disk b' i lt]
    unfold onDisk
    rw [image]

/-- A change of the page of one block. -/
theorem Holds.newWords (holds : c.Holds a) (here : a.present b = true) {mem : Nat → Word}
    {words : Nat → Word} (page : ∀ i < 1024, mem (blockBase b + i) = words i)
    (outside : ∀ a, ¬ (blockBase b ≤ a ∧ a < blockBase b + 1024) → mem a = c.ide.mem a) :
    ({ c with ide := { c.ide with mem } } : BlockCache).Holds
      { a with page := Function.update a.page b words } := by
  refine ⟨holds.nblocks, holds.size, holds.answers, holds.mapped, holds.small, holds.clean,
    fun b' here' i lt => ?_, holds.disk⟩
  show _ = Function.update a.page b words b' i
  by_cases same : b' = b
  · subst same
    rw [Function.update_self]
    exact page i lt
  · rw [Function.update_of_ne same, ← holds.page b' here' i lt]
    exact outside _ (blockBase_apart (holds.small b' here') (holds.small b here) same lt)

theorem Holds.copyPage (holds : c.Holds a) (b b' : Nat) (dst : a.present b = true)
    (src : a.present b' = true) :
    (c.copyPage b b').Holds { a with page := Function.update a.page b (a.page b') } := by
  refine holds.newWords dst (fun i lt => ?_) fun a outside => if_neg outside
  unfold movePage
  rw [if_pos (by omega), Nat.add_sub_cancel_left]
  exact holds.page b' src i lt

/-- The words of a page that has been smashed. -/
def smashedWords (words : Nat → Word) : Nat → Word :=
  Function.update (Function.update words 0 oops) 1 (oopsEnd (words 1))

theorem Holds.smash (holds : c.Holds a) (here : a.present 1 = true) :
    c.smash.Holds { a with page := Function.update a.page 1 (smashedWords (a.page 1)) } := by
  refine holds.newWords here (fun i lt => ?_) fun a outside => ?_
  · rw [smashedWords, ← holds.page 1 here 1 (by decide)]
    by_cases second : i = 1
    · subst second
      rw [Function.update_self, Function.update_self]
    · rw [Function.update_of_ne (by omega), Function.update_of_ne second]
      by_cases first : i = 0
      · subst first
        have cell : Function.update c.ide.mem (blockBase 1) oops (blockBase 1) = oops :=
          Function.update_self ..
        rw [Function.update_self]
        exact cell
      · refine (Function.update_of_ne (by omega) _ _).trans ?_
        rw [Function.update_of_ne first]
        exact holds.page 1 here i lt
  · rw [Function.update_of_ne (by omega)]
    exact Function.update_of_ne (by omega) _ _

/-- The page of a block goes to the disk. -/
theorem Holds.putBlock (holds : c.Holds a) (here : a.present b = true)
    (room : (b + 1) * 4096 ≤ a.size) :
    ∃ c', c.putBlock b = some c' ∧
      c'.Holds { a with disk := Function.update a.disk b (a.page b) } := by
  have small := holds.small b here
  have fits := fits_of_room c.ide small (holds.size ▸ room)
  obtain ⟨ide, run, mem, size, blit⟩ := Ide.ideWrite_spec fits
  have count : 128 * (BitVec.ofNat 32 SECT2BLK).toNat = 1024 := by decide
  rw [sector_word small, count] at blit
  have on : c.mapped b = true := by rw [holds.mapped, here]
  refine ⟨{ c with ide }, ?_, holds.nblocks, size.trans holds.size, holds.answers, holds.mapped,
    holds.small, holds.clean, fun b' here' i lt => ?_, fun b' i lt => ?_⟩
  · rw [BlockCache.putBlock, writeBlock, if_neg (not_not_intro on), run]
  · rw [← holds.page b' here' i lt]
    unfold cached
    rw [mem]
  · refine (blit _).trans ?_
    show _ = Function.update a.disk b (a.page b) b' i
    by_cases same : b' = b
    · subst same
      rw [if_pos (by omega), Nat.add_sub_cancel_left, Function.update_self]
      exact holds.page b' here i lt
    · rw [if_neg (by omega), Function.update_of_ne same]
      exact holds.disk b' i lt

theorem Holds.unmap (holds : c.Holds a) :
    (c.unmap b).Holds { a with present := Function.update a.present b false } := by
  have before : ∀ b', Function.update a.present b false b' = true → a.present b' = true := by
    intro b' here
    by_cases same : b' = b
    · rw [same, Function.update_self] at here
      cases here
    · rwa [Function.update_of_ne same] at here
  refine ⟨holds.nblocks, holds.size, holds.answers, ?_,
    fun b' here => holds.small b' (before b' here), holds.clean, fun b' here => holds.page b' (before b' here),
    holds.disk⟩
  show Function.update c.mapped b false = _
  rw [holds.mapped]

theorem Holds.smashed (holds : c.Holds a) (words : Nat → Word) (here : a.present 1 = true)
    (page : a.page 1 = smashedWords words) : c.smashed = true := by
  have last : ∀ w : Word, oopsEnd w &&& 0x00FFFFFF#32 = 0x00000A21#32 := by
    intro w
    unfold oopsEnd
    rw [BitVec.and_or_distrib_right, BitVec.and_assoc]
    have none : 0xFF000000#32 &&& 0x00FFFFFF#32 = 0#32 := by decide
    rw [none, BitVec.and_zero, BitVec.zero_or]
    decide
  unfold BlockCache.smashed
  rw [holds.page 1 here 0 (by decide), holds.page 1 here 1 (by decide), page, smashedWords,
    Function.update_self, Function.update_of_ne (by decide), Function.update_self, last]
  rfl

/-- The super block is smashed on the disk and restored. Block 0 has a copy of it in the
cache then. -/
theorem Holds.checkWriteBlock (holds : c.Holds a) (room : 2 * 4096 ≤ a.size)
    (away : a.present 0 = false) (here : a.present 1 = true) (same : a.page 1 = a.disk 1) :
    ∃ c', c.checkWriteBlock = some c' ∧ c'.Holds { a with
      present := Function.update a.present 0 true
      page := Function.update a.page 0 (a.disk 1) } := by
  obtain ⟨c₁, load₀, holds₁⟩ := holds.loadBlock (b := 0) (by decide) (by omega) away
  have here₁ : Function.update a.present 0 true 1 = true :=
    (Function.update_of_ne (by decide) _ _).trans here
  have first : Function.update a.present 0 true 0 = true := Function.update_self ..
  obtain ⟨c₂, put₁, holds₂⟩ :=
    ((holds₁.copyPage 0 1 first here₁).smash here₁).putBlock (b := 1) here₁ room
  have mapped₂ : c₂.mapped 1 = true := by
    rw [holds₂.mapped]
    exact here₁
  obtain ⟨c₃, load₁, holds₃⟩ :=
    (holds₂.unmap (b := 1)).loadBlock (b := 1) (by decide) room (by simp)
  have check : c₃.smashed = true :=
    holds₃.smashed (a.page 1) (by simp) (by simp)
  obtain ⟨c₄, put₂, holds₄⟩ :=
    (holds₃.copyPage 1 0 (by simp) (by simp)).putBlock (b := 1) (by simp) room
  refine ⟨c₄, ?_, ?_⟩
  · rw [BlockCache.checkWriteBlock, load₀]
    show ((c₁.copyPage 0 1).smash.putBlock 1).bind _ = _
    rw [put₁]
    show (if c₂.mapped 1 = false then _ else _) = _
    rw [if_neg (by simp [mapped₂])]
    show ((c₂.unmap 1).loadBlock 1).bind _ = _
    rw [load₁]
    show (if c₃.smashed = false then _ else _) = _
    rw [if_neg (by simp [check])]
    exact put₂
  · refine holds₄.of_eq (funext fun b => ?_) (fun b _ => ?_) (funext fun b => ?_)
    · by_cases second : b = 1
      · simp [second, here]
      · simp [second]
    · by_cases second : b = 1
      · simp [second]
      · simp [second, same]
    · by_cases second : b = 1
      · simp [second, same]
      · simp [second]

/-- The pages after the first `n` turns of the loop over the bitmap. -/
def Shelf.bitmapRead (a : Shelf) (n : Nat) : Shelf :=
  { a with
    present := fun b => decide (b < n + 2)
    page := fun b => if b < 2 then a.page b else a.disk b }

theorem Holds.readBitmapBlocks (holds : c.Holds a) (start : a.present = fun b => decide (b < 2))
    (most : a.nblocks * 4096 ≤ a.size) (few : a.nblocks ≤ 2 ^ 18) :
    (n = 0 ∨ n + 1 < a.nblocks → ∃ c', c.readBitmapBlocks n = some c' ∧ c'.Holds (a.bitmapRead n)) ∧
      (0 < n → a.nblocks ≤ n + 1 → c.readBitmapBlocks n = none) := by
  induction n with
  | zero =>
      refine ⟨fun _ => ⟨c, rfl, ?_⟩, fun pos => absurd pos (Nat.lt_irrefl 0)⟩
      refine ⟨holds.nblocks, holds.size, holds.answers, holds.mapped.trans start,
        fun b low => holds.small b ?_, holds.clean,
        fun b low i lt => ?_, holds.disk⟩
      · rw [start]
        exact low
      · have low' : b < 2 := of_decide_eq_true low
        refine (holds.page b (by rw [start]; exact low) i lt).trans ?_
        unfold Shelf.bitmapRead
        dsimp only
        rw [if_pos low']
  | succ n ih =>
      refine ⟨fun fits => ?_, fun _ beyond => ?_⟩
      · have room : n + 2 < a.nblocks := by omega
        obtain ⟨c₁, run, holds₁⟩ := ih.1 (by omega)
        have away : (a.bitmapRead n).present (n + 2) = false := decide_eq_false (Nat.lt_irrefl _)
        have onDisk : (n + 2 + 1) * 4096 ≤ a.size :=
          Nat.le_trans (Nat.mul_le_mul_right 4096 room) most
        obtain ⟨c₂, load, holds₂⟩ :=
          holds₁.loadBlock (Nat.lt_of_lt_of_le room few) onDisk away
        refine ⟨c₂, ?_, ?_⟩
        · rw [BlockCache.readBitmapBlocks, run, Option.bind_some, if_neg ?_, load]
          rw [holds₁.nblocks]
          exact Nat.not_le.mpr room
        · refine holds₂.of_eq (funext fun b => ?_) (fun b _ => ?_) rfl
          · unfold Shelf.bitmapRead
            dsimp only
            rw [Function.update_apply]
            by_cases last : b = n + 2
            · rw [if_pos last, decide_eq_true (by omega)]
            · rw [if_neg last]
              exact decide_eq_decide.mpr (by omega)
          · unfold Shelf.bitmapRead
            dsimp only
            rw [Function.update_apply]
            by_cases last : b = n + 2
            · rw [if_pos last, if_neg (by omega), last]
            · rw [if_neg last]
      · rw [BlockCache.readBitmapBlocks]
        by_cases before : n = 0 ∨ n + 1 < a.nblocks
        · obtain ⟨c₁, run, holds₁⟩ := ih.1 before
          rw [run, Option.bind_some, if_pos]
          rw [holds₁.nblocks]
          exact beyond
        · rw [ih.2 (by omega) (by omega), Option.bind_none]

/-! ## Starting -/

/-- Nothing is in the cache, and the disk is as large as its super block says. -/
structure Cold (c : BlockCache) : Prop where
  empty : ∀ b, c.mapped b = false
  clean : ∀ b, c.dirty b = false
  room : 2 * 4096 ≤ c.ide.dev.size
  size : ∀ n, Fs.readSuper (c.onDisk 1 0) (c.onDisk 1 1) = some n → n * 4096 ≤ c.ide.dev.size

/-- What the server works on after a start: block 0 shows the super block. -/
def bootFs (c : BlockCache) : Option Fs :=
  (Fs.readSuper (c.onDisk 1 0) (c.onDisk 1 1)).bind fun nblocks =>
    Fs.readBitmap nblocks c.diskBitmap (fun b => c.onDisk (if b = 0 then 1 else b)) c.answers

theorem readSuper_most {magic w : Word} (super : Fs.readSuper magic w = some n) :
    n ≤ DISKMAX_BLOCKS := by
  unfold Fs.readSuper at super
  split at super
  · cases super
  · split at super
    · cases super
    · next few => exact Option.some.inj super ▸ Nat.not_lt.mp few

/-- The page of the super block. -/
theorem Cold.loadSuper (cold : c.Cold) : ∃ c', c.loadBlock 1 = some c' ∧ c'.Holds
    ⟨c.nblocks, c.ide.dev.size, c.answers, Function.update (fun _ => false) 1 true,
      Function.update c.onDisk 1 (c.onDisk 1), c.onDisk⟩ := by
  have holds : c.Holds ⟨c.nblocks, c.ide.dev.size, c.answers, fun _ => false, c.onDisk, c.onDisk⟩ :=
    ⟨rfl, rfl, rfl, funext cold.empty, fun b here => Bool.noConfusion here, cold.clean,
      fun b here => Bool.noConfusion here, fun _ _ _ => rfl⟩
  exact holds.loadBlock (by decide) cold.room rfl

/-- Before the bitmap is read. -/
theorem Cold.started (cold : c.Cold)
    (super : Fs.readSuper (c.onDisk 1 0) (c.onDisk 1 1) = some n) :
    ∃ c₁ c₂, c.readSuper = some c₁ ∧ c₁.checkWriteBlock = some c₂ ∧ c₂.Holds
      ⟨n, c.ide.dev.size, c.answers, fun b => decide (b < 2), fun _ => c.onDisk 1, c.onDisk⟩ := by
  obtain ⟨c₀, load, holds₀⟩ := cold.loadSuper
  have same : ∀ i < 1024, c₀.cached 1 i = c.onDisk 1 i := fun i lt =>
    (holds₀.page 1 (by simp) i lt).trans (by simp)
  have run : c.readSuper = some { c₀ with nblocks := n } := by
    rw [BlockCache.readSuper, load, Option.bind_some, same 0 (by decide), same 1 (by decide),
      super, Option.map_some]
  have holds₁ : ({ c₀ with nblocks := n } : BlockCache).Holds ⟨n, c.ide.dev.size, c.answers,
      Function.update (fun _ => false) 1 true, Function.update c.onDisk 1 (c.onDisk 1), c.onDisk⟩ :=
    ⟨rfl, holds₀.size, holds₀.answers, holds₀.mapped, holds₀.small, holds₀.clean, holds₀.page,
      holds₀.disk⟩
  obtain ⟨c₂, check, holds₂⟩ := holds₁.checkWriteBlock cold.room (by simp) (by simp) (by simp)
  refine ⟨_, c₂, run, check, holds₂.of_eq (funext fun b => ?_) (fun b here => ?_) rfl⟩
  · by_cases first : b = 0
    · simp [first]
    · by_cases second : b = 1
      · simp [second]
      · have high : decide (b < 2) = false := decide_eq_false (by omega)
        show Function.update (Function.update (fun _ => false) 1 true) 0 true b = decide (b < 2)
        rw [Function.update_of_ne first, Function.update_of_ne second, high]
  · by_cases first : b = 0
    · simp [first]
    · have second : b = 1 := by simpa [Function.update_apply, first] using here
      simp [second]

theorem Cold.no_super (cold : c.Cold)
    (super : Fs.readSuper (c.onDisk 1 0) (c.onDisk 1 1) = none) : c.readSuper = none := by
  obtain ⟨c₀, load, holds₀⟩ := cold.loadSuper
  have same : ∀ i < 1024, c₀.cached 1 i = c.onDisk 1 i := fun i lt =>
    (holds₀.page 1 (by simp) i lt).trans (by simp)
  rw [BlockCache.readSuper, load, Option.bind_some, same 0 (by decide), same 1 (by decide),
    super, Option.map_none]

/-- The disk, with blocks 0 and 1 and the bitmap in the cache. -/
def loadedFs (c : BlockCache) (n : Nat) : Fs where
  nblocks := n
  bitmap := c.diskBitmap
  diskBitmap := c.diskBitmap
  blk b := c.onDisk (if b = 0 then 1 else b)
  mapped b := decide (b < nbitmap n + 2)
  answers := c.answers

/-- What the server has when the bitmap is loaded. -/
theorem Holds.mounted {size : Nat}
    (holds : c'.Holds (Shelf.bitmapRead
      ⟨n, size, c.answers, fun b => decide (b < 2), fun _ => c.onDisk 1, c.onDisk⟩ (nbitmap n)))
    (few : n ≤ DISKMAX_BLOCKS) (room : nbitmap n + 1 < n) (whole : n * 4096 ≤ size) :
    c'.Good ∧ c'.Refines (c.loadedFs n) := by
  obtain rfl : n = c'.nblocks := holds.nblocks.symm
  have mapped : ∀ b, c'.mapped b = decide (b < nbitmap c'.nblocks + 2) := fun b =>
    congrFun holds.mapped b
  have good : c'.Good := by
    refine ⟨?_, few, by omega, fun b isBitmap => ?_, fun b here => ?_⟩
    · rw [holds.size]
      exact whole
    · have low : b < nbitmap c'.nblocks + 2 := by
        have bound := isBitmap.2
        omega
      exact ⟨(mapped b).trans (decide_eq_true low), holds.clean b⟩
    · rw [mapped] at here
      have low := of_decide_eq_true here
      omega
  have bits : ∀ j < 1024 * nbitmap c'.nblocks, c'.diskBitmap j = c.diskBitmap j ∧
      c'.bitmap j = c.diskBitmap j := by
    intro j lt
    obtain ⟨isBitmap, place, diskPlace⟩ := bitmap_word good lt
    have low : 2 + j / 1024 < nbitmap c'.nblocks + 2 := by
      have bound := isBitmap.2
      omega
    have inPage := Nat.mod_lt j (by decide : 0 < 1024)
    have onDisk : c.diskBitmap j = c.onDisk (2 + j / 1024) (j % 1024) := by
      unfold BlockCache.diskBitmap
      rw [diskPlace]
      rfl
    rw [onDisk]
    refine ⟨?_, ?_⟩
    · unfold BlockCache.diskBitmap
      rw [diskPlace]
      exact holds.disk _ _ inPage
    · unfold BlockCache.bitmap
      rw [place]
      refine (holds.page _ (decide_eq_true low) _ inPage).trans ?_
      unfold Shelf.bitmapRead
      dsimp only
      rw [if_neg (by omega)]
  refine ⟨good, rfl, holds.mapped.symm, holds.answers.symm, fun j lt => (bits j lt).2.symm,
    fun j lt => (bits j lt).1.symm, fun b inside plain i lt => ?_⟩
  show c.onDisk (if b = 0 then 1 else b) i = _
  unfold view
  by_cases low : b < nbitmap c'.nblocks + 2
  · have reserved : b < 2 := by
      by_contra high
      exact plain ⟨Nat.not_lt.mp high, by omega⟩
    rw [if_pos ((mapped b).trans (decide_eq_true low))]
    refine Eq.trans ?_ (holds.page b (decide_eq_true low) i lt).symm
    unfold Shelf.bitmapRead
    dsimp only
    rw [if_pos reserved]
    split
    · rfl
    · rw [show b = 1 from by omega]
  · have away : ¬ c'.mapped b = true := by
      rw [mapped, decide_eq_false low]
      exact Bool.noConfusion
    rw [if_neg away, if_neg (by omega)]
    exact (holds.disk b i lt).symm

/-- `fs_init` comes up exactly when the super block and the bitmap on the disk are good, and
then the server sees what is on the disk. Every block on the disk is as it was. -/
theorem fsInit_mounts (cold : c.Cold) :
    c.fsInit = none ∧ c.bootFs = none ∨
      ∃ c' s, c.fsInit = some c' ∧ c.bootFs = some s ∧ c'.Good ∧ c'.Refines s ∧
        (∀ b, ∀ i < 1024, c'.onDisk b i = c.onDisk b i) ∧
          ∀ b, c'.dirty b = false := by
  cases super : Fs.readSuper (c.onDisk 1 0) (c.onDisk 1 1) with
  | none =>
      refine .inl ⟨?_, ?_⟩
      · unfold fsInit
        rw [cold.no_super super]
        rfl
      · unfold bootFs
        rw [super]
        rfl
  | some n =>
      obtain ⟨c₁, c₂, run₁, run₂, holds⟩ := cold.started super
      have few := readSuper_most super
      have nblocks := holds.nblocks
      have init : c.fsInit = c₂.readBitmap := by
        unfold fsInit
        rw [run₁]
        show c₁.checkWriteBlock.bind _ = _
        rw [run₂]
        rfl
      obtain ⟨enough, short⟩ := holds.readBitmapBlocks (n := nbitmap n) rfl (cold.size n super)
        (Nat.le_trans few (by decide))
      have some_block : 0 < nbitmap n := Nat.succ_pos _
      by_cases room : n ≤ nbitmap n - 1 + 2
      · refine .inl ⟨?_, ?_⟩
        · rw [init, BlockCache.readBitmap, nblocks, short some_block (by dsimp only; omega)]
          rfl
        · rw [bootFs, super, Option.bind_some, Fs.readBitmap]
          exact if_pos room
      · obtain ⟨c₃, blocks, holds₃⟩ := enough (.inr (by dsimp only; omega))
        obtain ⟨good, ref⟩ := holds₃.mounted few (by omega) (cold.size n super)
        have kept : (∀ b, ∀ i < 1024, c₃.onDisk b i = c.onDisk b i) ∧
            ∀ b, c₃.dirty b = false := ⟨holds₃.disk, holds₃.clean⟩
        have size : nbitmap c₃.nblocks = nbitmap n := congrArg nbitmap holds₃.nblocks
        have boot : c.bootFs = if c₃.blockIsFree 0 || c₃.blockIsFree 1 then none
            else if (List.range (nbitmap n)).any fun i => c₃.blockIsFree (i + 2) then none
            else some (c.loadedFs n) := by
          simp only [← ref.blockIsFree]
          rw [bootFs, super, Option.bind_some, Fs.readBitmap]
          exact if_neg room
        rw [init, BlockCache.readBitmap, nblocks, blocks, Option.bind_some, size, boot]
        split
        · exact .inl ⟨rfl, rfl⟩
        · split
          · exact .inl ⟨rfl, rfl⟩
          · exact .inr ⟨c₃, _, rfl, rfl, good, ref, kept⟩

/-! ## Starting again -/

/-- A call leaves no block that is in use free on the disk. -/
theorem synced_exec (op : BlockOp) (sync : s.Synced) :
    (s.exec op).2.Synced ∧ (s.exec op).2.nblocks = s.nblocks := by
  cases op with
  | read b =>
      show (s.readBlock b).2.Synced ∧ (s.readBlock b).2.nblocks = s.nblocks
      unfold Fs.readBlock
      split
      · exact ⟨sync, rfl⟩
      · split
        · exact ⟨sync, rfl⟩
        · refine ⟨sync.withMapped (m := Function.update s.mapped b true) fun b' here => ?_, rfl⟩
          by_cases same : b' = b
          · rw [same, Function.update_self]
          · rw [Function.update_of_ne same]
            exact here
  | alloc =>
      obtain ⟨effect, sync'⟩ := Fs.allocBlock_effect sync
      exact ⟨sync', effect.nblocks⟩
  | free b =>
      show (s.freeBlock b).Synced ∧ (s.freeBlock b).nblocks = s.nblocks
      by_cases invalid : b = 0 ∨ s.nblocks ≤ b
      · rw [Fs.freeBlock, if_pos invalid]
        exact ⟨sync, rfl⟩
      · exact ⟨sync.freeBlock (by omega) (by omega), Fs.nblocks_freeBlock⟩
  | store b i w => exact ⟨sync.setWord, rfl⟩
  | dirty b => exact ⟨sync, rfl⟩
  | flush b => exact ⟨sync, rfl⟩
  | sync => exact ⟨sync, rfl⟩

/-- What the server starts with, from what it is on the disk. -/
theorem bootFs_eq (boot : c.bootFs = some s) :
    ∃ n, Fs.readSuper (c.onDisk 1 0) (c.onDisk 1 1) = some n ∧ s = c.loadedFs n ∧ s.Synced := by
  obtain ⟨n, super, read⟩ := Option.bind_eq_some_iff.mp boot
  have sync := (Fs.Synced.of_readBitmap read).1
  refine ⟨n, super, ?_, sync⟩
  unfold Fs.readBitmap at read
  dsimp only at read
  split at read
  · cases read
  split at read
  · cases read
  split at read
  · cases read
  exact (Option.some.inj read).symm

theorem bootFs_of (super : Fs.readSuper (c.onDisk 1 0) (c.onDisk 1 1) = some n)
    (room : nbitmap n + 1 < n)
    (reserved : ∀ b < nbitmap n + 2, PackedBits.test c.diskBitmap b = false) :
    c.bootFs = some (c.loadedFs n) := by
  have some_block : 0 < nbitmap n := Nat.succ_pos _
  have used : ∀ b < nbitmap n + 2, (c.loadedFs n).blockIsFree b = false := by
    intro b low
    have inside : b < (c.loadedFs n).nblocks := by
      show b < n
      omega
    rw [Fs.blockIsFree_of_lt inside]
    exact reserved b low
  rw [bootFs, super, Option.bind_some, Fs.readBitmap]
  refine (if_neg (by omega)).trans ((if_neg ?_).trans (if_neg ?_))
  · show ¬ ((c.loadedFs n).blockIsFree 0 || (c.loadedFs n).blockIsFree 1) = true
    rw [used 0 (by omega), used 1 (by omega)]
    exact Bool.noConfusion
  · intro some_free
    obtain ⟨i, mem, free⟩ := List.any_eq_true.mp some_free
    have low := List.mem_range.mp mem
    exact Bool.noConfusion ((used (i + 2) (by omega)).symm.trans free)

theorem synced_run {evs : List (BlockOp × Except FsErr Nat)} {s' : Fs} (sync : s.Synced)
    (run : Run (fun (s : Fs) ev s' => s.exec ev.1 = (ev.2, s')) s evs s') :
    s'.Synced ∧ s'.nblocks = s.nblocks := by
  refine run.invariant (fun t => t.Synced ∧ t.nblocks = s.nblocks) ⟨sync, rfl⟩ ?_
  intro t ev u before step
  obtain ⟨sync', size⟩ := synced_exec ev.1 before.1
  rw [step] at sync' size
  exact ⟨sync', size.trans before.2⟩

/-- A server that is stopped after a sync, and started again. Blocks that were marked dirty
are as they were at the stop, and all others as they were at the first start; no block
that was in use is free. -/
theorem restart_keeps {evs : List (BlockOp × Except FsErr Nat)} {c₁ : BlockCache} (cold : c₀.Cold)
    (start : c₀.fsInit = some c₁) (run : Run Step c₁ evs c)
    (super : ∀ i < 2, c.view 1 i = c₁.view 1 i)
    (reserved : ∀ b < nbitmap c.nblocks + 2, c.blockIsFree b = false)
    (empty : ∀ b, c'.mapped b = false ∧ c'.dirty b = false)
    (size : c'.ide.dev.size = c.fsSync.2.ide.dev.size)
    (image : c'.ide.dev.image = c.fsSync.2.ide.dev.image) :
    ∃ c'', c'.fsInit = some c'' ∧ c''.nblocks = c.nblocks ∧
      (∀ b < c.nblocks, b ≠ 0 → ¬ c.IsBitmap b →
        ((∃ ev ∈ evs, Marks ev b) → ∀ i < 1024, c''.view b i = c.view b i) ∧
        ((¬ ∃ ev ∈ evs, Marks ev b) → ∀ i < 1024, c''.view b i = c₁.view b i)) ∧
      ∀ b, c.blockIsFree b = false → c''.blockIsFree b = false := by
  have mounted := fsInit_mounts cold
  rw [start] at mounted
  obtain ⟨no, -⟩ | ⟨_, s₁, some_start, boot, good₁, ref₁, kept, clean⟩ := mounted
  · cases no
  cases some_start
  obtain ⟨n, super₀, rfl, sync₁⟩ := bootFs_eq boot
  have size₁ : c₁.nblocks = n := ref₁.nblocks.symm
  -- the run and the sync after it
  obtain ⟨good, s, run', ref⟩ := blockCache_refines good₁ ref₁ run
  obtain ⟨sync, size₂⟩ := synced_run sync₁ run'
  have nblocks : c.nblocks = n := ref.nblocks.symm.trans size₂
  obtain ⟨done, saved⟩ := sync_durable good₁ ref₁ run
  have last : c.Step (.sync, .ok 0) c.fsSync.2 := by
    refine ⟨trivial, Prod.ext ?_ rfl⟩
    show noValue c.fsSync.1 = .ok 0
    rw [done]
    rfl
  obtain ⟨good₂, s₂, same, ref₂⟩ := ref.step good last
  obtain rfl : s = s₂ := (Prod.ext_iff.mp same).2
  have nblocks₂ : c.fsSync.2.nblocks = n := ref₂.nblocks.symm.trans size₂
  -- what is on the disk of the blocks
  have shown : ∀ b < n, b ≠ 0 → ¬ c₁.IsBitmap b → ∀ i < 1024, c₁.view b i = c₁.onDisk b i := by
    intro b inside low plain i lt
    rw [← ref₁.blk b (size₁ ▸ inside) plain i lt, kept b i lt]
    show c₀.onDisk (if b = 0 then 1 else b) i = _
    rw [if_neg low]
  have disk : ∀ b < n, b ≠ 0 → ¬ c₁.IsBitmap b →
      ((∃ ev ∈ evs, Marks ev b) → ∀ i < 1024, c'.onDisk b i = c.view b i) ∧
      ((¬ ∃ ev ∈ evs, Marks ev b) → ∀ i < 1024, c'.onDisk b i = c₁.view b i) := by
    intro b inside low plain
    have same : ∀ i, c'.onDisk b i = c.fsSync.2.onDisk b i := fun i =>
      congrFun image (b * 1024 + i)
    obtain ⟨marked, unmarked⟩ := saved b (size₁ ▸ inside) plain
    refine ⟨fun some_mark i lt => (same i).trans (marked (.inl some_mark) i lt),
      fun none i lt => ?_⟩
    rw [same, unmarked none (clean b) i lt, shown b inside low plain i lt]
  have room : nbitmap n + 1 < n := by
    have room := good₁.room
    rw [size₁] at room
    omega
  have one : ¬ c₁.IsBitmap 1 := fun isBitmap => absurd isBitmap.1 (by decide)
  have super' : Fs.readSuper (c'.onDisk 1 0) (c'.onDisk 1 1) = some n := by
    have word : ∀ i < 2, c'.onDisk 1 i = c₀.onDisk 1 i := by
      intro i low
      have lt : i < 1024 := Nat.lt_trans low (by decide)
      have before : c₁.view 1 i = c₀.onDisk 1 i :=
        (shown 1 (by omega) (by decide) one i lt).trans (kept 1 i lt)
      obtain ⟨marked, unmarked⟩ := disk 1 (by omega) (by decide) one
      by_cases some_mark : ∃ ev ∈ evs, Marks ev 1
      · rw [marked some_mark i lt, super i low, before]
      · rw [unmarked some_mark i lt, before]
    rw [word 0 (by decide), word 1 (by decide), super₀]
  have bits : ∀ b < n, c.blockIsFree b = false → PackedBits.test c'.diskBitmap b = false := by
    intro b inside used
    have inside' : b < s.nblocks := size₂ ▸ inside
    have bit : s.bit b = false := by
      rw [← Fs.blockIsFree_of_lt inside', ref.blockIsFree, used]
    have written := sync.writtenThrough b inside' bit
    have lt : b / 32 < 1024 * nbitmap c.fsSync.2.nblocks := bitmap_index (nblocks₂ ▸ inside)
    have word : c'.diskBitmap (b / 32) = s.diskBitmap (b / 32) := by
      rw [ref₂.diskBitmap _ lt]
      exact congrFun image (2 * 1024 + b / 32)
    unfold Fs.diskBit PackedBits.test at written
    unfold PackedBits.test
    rw [word]
    exact written
  -- the second start
  have whole : n * 4096 ≤ c'.ide.dev.size := by
    rw [size, ← nblocks₂]
    exact good₂.size
  have two : 2 ≤ n := by omega
  have cold' : c'.Cold := by
    refine ⟨fun b => (empty b).1, fun b => (empty b).2,
      Nat.le_trans (Nat.mul_le_mul_right 4096 two) whole, fun m super => ?_⟩
    cases super'.symm.trans super
    exact whole
  have boot' : c'.bootFs = some (c'.loadedFs n) := by
    refine bootFs_of super' room fun b low => bits b (by omega) (reserved b ?_)
    rw [nblocks]
    exact low
  obtain ⟨-, no⟩ | ⟨c'', s', init, booted, good', ref', -, -⟩ := fsInit_mounts cold'
  · cases boot'.symm.trans no
  cases boot'.symm.trans booted
  have nblocks' : c''.nblocks = n := ref'.nblocks.symm
  have view : ∀ b < n, b ≠ 0 → ¬ c₁.IsBitmap b → ∀ i < 1024, c''.view b i = c'.onDisk b i := by
    intro b inside low plain i lt
    have plain' : ¬ c''.IsBitmap b := by
      unfold IsBitmap at plain ⊢
      rw [nblocks', ← size₁]
      exact plain
    rw [← ref'.blk b (nblocks' ▸ inside) plain' i lt]
    show c'.onDisk (if b = 0 then 1 else b) i = _
    rw [if_neg low]
  refine ⟨c'', init, nblocks'.trans nblocks.symm, fun b inside low plain => ?_, fun b used => ?_⟩
  · have inside' : b < n := nblocks ▸ inside
    have plain' : ¬ c₁.IsBitmap b := by
      unfold IsBitmap at plain ⊢
      rw [size₁, ← nblocks]
      exact plain
    obtain ⟨marked, unmarked⟩ := disk b inside' low plain'
    exact ⟨fun some_mark i lt => (view b inside' low plain' i lt).trans (marked some_mark i lt),
      fun none i lt => (view b inside' low plain' i lt).trans (unmarked none i lt)⟩
  · rw [← ref'.blockIsFree]
    by_cases inside : b < n
    · rw [Fs.blockIsFree_of_lt (s := c'.loadedFs n) inside]
      exact bits b inside used
    · exact if_pos (Nat.not_lt.mp inside)

/-! ### A disk of eight blocks -/

/-- A disk on which blocks 0 to 2 are in use, and nothing in the cache. -/
def coldDisk : BlockCache where
  ide := {
    mem := fun _ => 0
    dev := ⟨0, 0, 0, fun _ => 0, fun a => if a = 1024 then FS_MAGIC else if a = 1025 then 8
      else if a = 2048 then 0xF8 else 0, 8 * 4096⟩ }
  nblocks := 0
  mapped := fun _ => false
  dirty := fun _ => false
  answers := []

theorem coldDisk_super :
    Fs.readSuper (coldDisk.onDisk 1 0) (coldDisk.onDisk 1 1) = some 8 := by
  decide +kernel

theorem coldDisk_cold : coldDisk.Cold where
  empty _ := rfl
  clean _ := rfl
  room := by decide
  size n super := by
    cases coldDisk_super.symm.trans super
    exact Nat.le_refl _

theorem coldDisk_boot : coldDisk.bootFs = some (coldDisk.loadedFs 8) :=
  bootFs_of coldDisk_super (by decide) (by decide +kernel)

theorem fsInit_mounts_coldDisk :
    ∃ c, coldDisk.fsInit = some c ∧ c.Good ∧ c.Refines (coldDisk.loadedFs 8) := by
  obtain ⟨-, no⟩ | ⟨c, s, init, boot, good, ref, -⟩ := fsInit_mounts coldDisk_cold
  · cases coldDisk_boot.symm.trans no
  · cases coldDisk_boot.symm.trans boot
    exact ⟨c, init, good, ref⟩

/-- The disk of a server that is stopped. -/
def stopped (c : BlockCache) : BlockCache :=
  { c with mapped := fun _ => false, dirty := fun _ => false }

theorem stopped_empty (c : BlockCache) (b : Nat) :
    c.stopped.mapped b = false ∧ c.stopped.dirty b = false := ⟨rfl, rfl⟩

/-- A word of block 1 is stored and marked dirty; the server is stopped and started again. -/
theorem restart_keeps_coldDisk : ∃ c₁ c c', coldDisk.fsInit = some c₁ ∧
    Run Step c₁ [(.store 1 100 7, .ok 0), (.dirty 1, .ok 0)] c ∧
    c.fsSync.2.stopped.fsInit = some c' ∧ c'.view 1 100 = 7 := by
  have mounted := fsInit_mounts coldDisk_cold
  obtain ⟨-, no⟩ | ⟨c₁, s, init, boot, good, ref, -, clean⟩ := mounted
  · cases coldDisk_boot.symm.trans no
  cases coldDisk_boot.symm.trans boot
  have here : c₁.mapped 1 = true := by
    rw [← ref.mapped]
    decide
  have plain : ∀ c : BlockCache, ¬ c.IsBitmap 1 := fun c isBitmap => absurd isBitmap.1 (by decide)
  have stored : Step c₁ (.store 1 100 7, .ok 0) (c₁.setWord (blockBase 1 + 100) 7) :=
    ⟨⟨here, plain _, by decide⟩, rfl⟩
  have marked : Step (c₁.setWord (blockBase 1 + 100) 7) (.dirty 1, .ok 0)
      { c₁.setWord (blockBase 1 + 100) 7 with dirty := Function.update c₁.dirty 1 true } := by
    refine ⟨plain _, ?_⟩
    have result : (c₁.setWord (blockBase 1 + 100) 7).dirtyBlock 1 = (.ok (),
        { c₁.setWord (blockBase 1 + 100) 7 with dirty := Function.update c₁.dirty 1 true }) :=
      (if_neg (not_not_intro here)).trans (if_neg (Bool.eq_false_iff.mp (clean 1)))
    rw [exec, result]
    rfl
  have run := (Run.single stored).snoc marked
  have words : ∀ i, ({ c₁.setWord (blockBase 1 + 100) 7 with
      dirty := Function.update c₁.dirty 1 true } : BlockCache).view 1 i =
        Function.update c₁.ide.mem (blockBase 1 + 100) 7 (blockBase 1 + i) := fun i => if_pos here
  have before : ∀ i, c₁.view 1 i = c₁.ide.mem (blockBase 1 + i) := fun i => if_pos here
  have nblocks : c₁.nblocks = 8 := ref.nblocks.symm
  have used : ∀ b < nbitmap 8 + 2, (coldDisk.loadedFs 8).blockIsFree b = false := by
    decide +kernel
  have after := (ref.setWord (b := 1) (i := 100) (w := 7) good here (plain _) (by decide)).2
  obtain ⟨c', init', -, views, -⟩ := restart_keeps coldDisk_cold init run
    (fun i low => by rw [words, before, Function.update_of_ne (by omega)])
    (fun b low => after.blockIsFree.symm.trans (used b (by rw [← nblocks]; exact low)))
    (stopped_empty _) rfl rfl
  refine ⟨c₁, _, c', init, run, init', ?_⟩
  have inside : 1 < c₁.nblocks := by
    rw [nblocks]
    decide
  have kept := (views 1 inside (by decide) (plain _)).1 ⟨_, by simp, rfl⟩
  rw [kept 100 (by decide), words 100, Function.update_self]

end BlockCache

end Mos
