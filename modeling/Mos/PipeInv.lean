import Mos.Pipe
import Mos.Lib.Ring
import Mos.Lib.Run

/-!
# What goes through a pipe

`PipeInv` ties the ring in the `Pipe` to the bytes written and read so far, and
each process to what the values it has loaded still mean. It holds as long as no
two writers are between their test for a full buffer and `p_wpos++` at a time;
with one writer that is always so. Then the reader gets what was written, in
order, and an end of file comes early only if something is written between the
test for an empty buffer and `_pipe_is_closed`.
-/

namespace Mos

/-- The writer relies on what it has found out about the buffer. -/
def WritePc.Critical : WritePc → Prop
  | .loadRpos _ => True
  | .loadSlot => True
  | .storeByte _ => True
  | .loadInc => True
  | .storeInc _ => True
  | _ => False

/-- The number of bytes the reader has taken but not counted in `p_rpos`. -/
def ReadPc.pending : ReadPc → Nat
  | .loadInc => 1
  | .storeInc _ => 1
  | _ => 0

/-! ## Positions as words -/

theorem pos_toNat_mod (k : Nat) : (BitVec.ofNat 32 k).toNat % by2pipe = k % by2pipe := by
  rw [BitVec.toNat_ofNat, by2pipe]
  omega

theorem pos_succ (k : Nat) : BitVec.ofNat 32 k + 1 = BitVec.ofNat 32 (k + 1) := by
  rw [BitVec.ofNat_add]
  rfl

/-- Positions a buffer apart at most are told apart by their words. -/
theorem pos_eq {a c : Nat} (le : c ≤ a) (fits : a ≤ c + by2pipe)
    (h : BitVec.ofNat 32 a = BitVec.ofNat 32 c) : a = c := by
  have := congrArg BitVec.toNat h
  simp only [BitVec.toNat_ofNat, by2pipe] at this fits
  omega

theorem pos_sub {a c : Nat} (le : c ≤ a) (fits : a ≤ c + by2pipe) :
    (BitVec.ofNat 32 a - BitVec.ofNat 32 c).toNat = a - c := by
  rw [BitVec.toNat_sub, BitVec.toNat_ofNat, BitVec.toNat_ofNat]
  simp only [by2pipe] at fits
  omega

/-! ## The invariant -/

/-- What the reader has loaded still holds: it has taken `c` of `a` bytes. -/
def Reader.Ok (rd : Reader) (p : Pipe) (a c : Nat) : Prop :=
  match rd.pc with
  | .idle => rd.rbuf = []
  | .loadWpos rpos => rpos = p.pRpos
  | .empty rpos => rpos = p.pRpos
  | .loadSlot => c < a
  | .loadByte rpos => rpos = p.pRpos ∧ c < a
  | .loadInc => c < a
  | .storeInc rpos => rpos = p.pRpos ∧ c < a
  | _ => True

/-- What a writer has loaded still holds. -/
def Writer.Ok (wr : Writer) (p : Pipe) (a c : Nat) : Prop :=
  match wr.pc with
  | .loadRpos wpos => wpos = p.pWpos
  | .loadSlot => a < c + by2pipe
  | .storeByte wpos => wpos = p.pWpos ∧ a < c + by2pipe
  | .loadInc => a < c + by2pipe ∧ p.pBuf (a % by2pipe) = wr.wbuf wr.i
  | .storeInc wpos => wpos = p.pWpos ∧ a < c + by2pipe ∧ p.pBuf (a % by2pipe) = wr.wbuf wr.i
  | _ => True

section Inv

variable {W : Type} {s s' : PipeState W} {act : PipeAct W} {ev : PipeEvent}
  {x : PipeAct W × PipeEvent} {evs : List (PipeAct W × PipeEvent)} {c : Nat}

/-- `c` bytes have been taken out of the pipe, of those in `evs` that were put in. -/
structure PipeInv (evs : List (PipeAct W × PipeEvent)) (s : PipeState W) (c : Nat) : Prop where
  ring : Ring by2pipe s.pipe.pBuf (written evs) c
  wpos : s.pipe.pWpos = BitVec.ofNat 32 (written evs).length
  rpos : s.pipe.pRpos = BitVec.ofNat 32 c
  taken : returned evs ++ s.reader.rbuf = (written evs).take (c + s.reader.pc.pending)
  count : ∃ k, s.reader.rbuf.length = k + s.reader.pc.pending ∧ s.reader.i = BitVec.ofNat 32 k
  reader : s.reader.Ok s.pipe (written evs).length c
  writers : ∀ w, (s.writers w).Ok s.pipe (written evs).length c
  exclusive : ∀ w w', (s.writers w).pc.Critical → (s.writers w').pc.Critical → w' = w

/-- A writer enters its critical part only when no other is in its own. -/
def PipeAct.Exclusive (s : PipeState W) : PipeAct W → Prop
  | .writer w => (s.writers w).pc = .loadWpos → ∀ w', (s.writers w').pc.Critical → w' = w
  | _ => True

theorem PipeInv.init : PipeInv [] (PipeState.init W) 0 where
  ring := .empty _ _
  wpos := rfl
  rpos := rfl
  taken := rfl
  count := ⟨0, rfl, rfl⟩
  reader := rfl
  writers _ := trivial
  exclusive _ _ h := h.elim

/-- Room in the buffer stays when the reader takes a byte out. -/
theorem Writer.Ok.pop {wr : Writer} {p : Pipe} {a : Nat} (ok : wr.Ok p a c) (rpos : Word) :
    wr.Ok { p with pRpos := rpos } a (c + 1) := by
  unfold Writer.Ok at ok ⊢
  cases hpc : wr.pc with
  | loadRpos wpos =>
      rw [hpc] at ok
      exact ok
  | loadSlot =>
      rw [hpc] at ok
      exact Nat.lt_of_lt_of_le ok (by omega)
  | storeByte wpos =>
      rw [hpc] at ok
      exact ⟨ok.1, by have := ok.2; omega⟩
  | loadInc =>
      rw [hpc] at ok
      exact ⟨by have := ok.1; omega, ok.2⟩
  | storeInc wpos =>
      rw [hpc] at ok
      exact ⟨ok.1, by have := ok.2.1; omega, ok.2.2⟩
  | idle => trivial
  | loop => trivial
  | loadWpos => trivial
  | full => trivial
  | unmapFd => trivial
  | unmapData => trivial
  | gone => trivial

/-- A writer outside its critical part relies on nothing. -/
theorem Writer.ok_of_not_critical {wr : Writer} (out : ¬ wr.pc.Critical) (p : Pipe) (a c : Nat) :
    wr.Ok p a c := by
  unfold Writer.Ok
  cases h : wr.pc <;> first
    | trivial
    | exact absurd (by rw [h]; trivial) out

/-- The reader goes on without touching the `Pipe`. -/
theorem PipeInv.readLocal (inv : PipeInv evs s c) {rd : Reader} (quiet : x.2.writtenBytes = [])
    (taken : returned evs ++ x.2.readBytes ++ rd.rbuf = (written evs).take (c + rd.pc.pending))
    (count : ∃ k, rd.rbuf.length = k + rd.pc.pending ∧ rd.i = BitVec.ofNat 32 k)
    (ok : rd.Ok s.pipe (written evs).length c) :
    PipeInv (evs ++ [x]) { s with reader := rd } c := by
  have same : written (evs ++ [x]) = written evs := by
    rw [written_snoc, quiet, List.append_nil]
  refine ⟨?_, ?_, inv.rpos, ?_, count, ?_, ?_, inv.exclusive⟩
  · rw [same]
    exact inv.ring
  · rw [same]
    exact inv.wpos
  · rw [same, returned_snoc]
    exact taken
  · rw [same]
    exact ok
  · rw [same]
    exact inv.writers

/-- The reader only changes where it is. -/
theorem PipeInv.readGoto (inv : PipeInv evs s c) {pc : ReadPc} (act : PipeAct W)
    (pending : pc.pending = s.reader.pc.pending)
    (ok : Reader.Ok { s.reader with pc := pc } s.pipe (written evs).length c) :
    PipeInv (evs ++ [(act, .quiet)]) { s with reader := { s.reader with pc := pc } } c := by
  refine inv.readLocal rfl ?_ ?_ ok
  · show returned evs ++ [] ++ s.reader.rbuf = (written evs).take (c + pc.pending)
    rw [pending, List.append_nil]
    exact inv.taken
  · show ∃ k, s.reader.rbuf.length = k + pc.pending ∧ s.reader.i = BitVec.ofNat 32 k
    rw [pending]
    exact inv.count

/-- `pipe_read` returns what it has stored. -/
theorem PipeInv.readReturn (inv : PipeInv evs s c) (act : PipeAct W) (n : Word)
    (pending : s.reader.pc.pending = 0) :
    PipeInv (evs ++ [(act, .returns n s.reader.rbuf)]) { s with reader := .out } c := by
  refine inv.readLocal rfl ?_ ⟨0, rfl, rfl⟩ rfl
  show returned evs ++ s.reader.rbuf ++ [] = (written evs).take (c + 0)
  rw [List.append_nil, inv.taken, pending]

/-- `p_rpos++` takes the byte out that the reader has stored. -/
theorem PipeInv.readPop (inv : PipeInv evs s c) {rpos : Word} (act : PipeAct W)
    (hpc : s.reader.pc = .storeInc rpos) :
    PipeInv (evs ++ [(act, .quiet)])
      { s with
        pipe := { s.pipe with pRpos := rpos + 1 }
        reader := { s.reader with pc := .loop, i := s.reader.i + 1 } } (c + 1) := by
  have ok := inv.reader
  simp only [Reader.Ok, hpc] at ok
  obtain ⟨loaded, some⟩ := ok
  have same : written (evs ++ [(act, .quiet)]) = written evs := by
    rw [written_snoc]
    exact List.append_nil _
  have taken := inv.taken
  obtain ⟨k, length, i⟩ := inv.count
  rw [hpc] at taken length
  refine ⟨?_, ?_, ?_, ?_, ⟨k + 1, length, ?_⟩, trivial, fun w => ?_, inv.exclusive⟩
  · rw [same]
    exact inv.ring.pop some
  · rw [same]
    exact inv.wpos
  · show rpos + 1 = BitVec.ofNat 32 (c + 1)
    rw [loaded, inv.rpos, pos_succ]
  · rw [same, returned_snoc]
    show returned evs ++ [] ++ s.reader.rbuf = (written evs).take (c + 1 + 0)
    rw [List.append_nil]
    exact taken
  · show s.reader.i + 1 = BitVec.ofNat 32 (k + 1)
    rw [i, pos_succ]
  · rw [same]
    exact (inv.writers w).pop (rpos + 1)

/-- What one step of the reader preserves. -/
theorem PipeInv.reader_step [Fintype W] [DecidableEq W] (inv : PipeInv evs s c)
    (step : pipeStep s .reader = some (s', ev)) :
    ∃ c', PipeInv (evs ++ [(.reader, ev)]) s' c' := by
  have ok := inv.reader
  have stay : PipeInv (evs ++ [(.reader, .quiet)]) s c :=
    PipeInv.readGoto inv PipeAct.reader (rfl : s.reader.pc.pending = _) ok
  cases hpc : s.reader.pc with
  | idle =>
      simp only [pipeStep, readStep, hpc] at step
      cases step
      exact ⟨c, stay⟩
  | loop =>
      simp only [pipeStep, readStep, hpc] at step
      split at step
      · cases step
        exact ⟨c, inv.readGoto .reader (by rw [hpc]; rfl) trivial⟩
      · cases step
        exact ⟨c, inv.readReturn .reader _ (by rw [hpc]; rfl)⟩
  | loadRpos =>
      simp only [pipeStep, readStep, hpc] at step
      cases step
      exact ⟨c, inv.readGoto .reader (by rw [hpc]; rfl) rfl⟩
  | loadWpos rpos =>
      simp only [Reader.Ok, hpc] at ok
      simp only [pipeStep, readStep, hpc] at step
      split at step
      · cases step
        exact ⟨c, inv.readGoto .reader (by rw [hpc]; rfl) ok⟩
      case isFalse differ =>
        cases step
        refine ⟨c, inv.readGoto .reader (by rw [hpc]; rfl) ?_⟩
        -- the positions differ, so there is a byte that has not been taken
        refine Nat.lt_of_le_of_ne inv.ring.le fun same => differ ?_
        rw [ok, inv.rpos, inv.wpos, same]
  | empty rpos =>
      simp only [pipeStep, readStep, hpc] at step
      split at step
      · cases step
        exact ⟨c, inv.readReturn .reader _ (by rw [hpc]; rfl)⟩
      · cases step
        exact ⟨c, inv.readGoto .reader (by rw [hpc]; rfl) trivial⟩
  | loadSlot =>
      simp only [Reader.Ok, hpc] at ok
      simp only [pipeStep, readStep, hpc] at step
      cases step
      exact ⟨c, inv.readGoto .reader (by rw [hpc]; rfl) ⟨rfl, ok⟩⟩
  | loadByte rpos =>
      simp only [Reader.Ok, hpc] at ok
      obtain ⟨loaded, some⟩ := ok
      simp only [pipeStep, readStep, hpc] at step
      cases step
      have taken := inv.taken
      obtain ⟨k, length, i⟩ := inv.count
      rw [hpc] at taken length
      have byte : s.pipe.at rpos = s.pipe.pBuf (c % by2pipe) := by
        rw [Pipe.at, loaded, inv.rpos, pos_toNat_mod]
      refine ⟨c, inv.readLocal rfl ?_ ⟨k, ?_, i⟩ some⟩
      · show returned evs ++ [] ++ (s.reader.rbuf ++ [s.pipe.at rpos]) =
          (written evs).take (c + 1)
        rw [List.append_nil, ← List.append_assoc, byte, ← inv.ring.take_succ some]
        exact congrArg (· ++ _) taken
      · rw [List.length_append, length]
        rfl
  | loadInc =>
      simp only [Reader.Ok, hpc] at ok
      simp only [pipeStep, readStep, hpc] at step
      cases step
      exact ⟨c, inv.readGoto .reader (by rw [hpc]; rfl) ⟨rfl, ok⟩⟩
  | storeInc rpos =>
      simp only [pipeStep, readStep, hpc] at step
      cases step
      exact ⟨c + 1, inv.readPop .reader hpc⟩
  | unmapFd =>
      simp only [pipeStep, readStep, hpc] at step
      cases step
      exact ⟨c, inv.readGoto .reader (by rw [hpc]; rfl) trivial⟩
  | unmapData =>
      simp only [pipeStep, readStep, hpc] at step
      cases step
      exact ⟨c, inv.readGoto .reader (by rw [hpc]; rfl) trivial⟩
  | gone =>
      simp only [pipeStep, readStep, hpc] at step
      cases step
      exact ⟨c, stay⟩

/-- More bytes in the pipe do not matter to the reader. -/
theorem Reader.Ok.push {rd : Reader} {p : Pipe} {a : Nat} (ok : rd.Ok p a c) (wpos : Word) :
    rd.Ok { p with pWpos := wpos } (a + 1) c := by
  unfold Reader.Ok at ok ⊢
  cases hpc : rd.pc with
  | loadWpos rpos =>
      rw [hpc] at ok
      exact ok
  | empty rpos =>
      rw [hpc] at ok
      exact ok
  | loadSlot =>
      rw [hpc] at ok
      exact Nat.lt_succ_of_lt ok
  | loadByte rpos =>
      rw [hpc] at ok
      exact ⟨ok.1, Nat.lt_succ_of_lt ok.2⟩
  | loadInc =>
      rw [hpc] at ok
      exact Nat.lt_succ_of_lt ok
  | storeInc rpos =>
      rw [hpc] at ok
      exact ⟨ok.1, Nat.lt_succ_of_lt ok.2⟩
  | idle =>
      rw [hpc] at ok
      exact ok
  | loop => trivial
  | loadRpos => trivial
  | unmapFd => trivial
  | unmapData => trivial
  | gone => trivial

section Writers

variable [DecidableEq W] {w : W} {wr : Writer}

/-- When `w` is the only one that can be in its critical part, it stays so. -/
theorem PipeState.exclusive_update
    (alone : ∀ w', (s.writers w').pc.Critical → (Function.update s.writers w wr w).pc.Critical →
      w' = w)
    (exclusive : ∀ w w', (s.writers w).pc.Critical → (s.writers w').pc.Critical → w' = w) :
    ∀ w₁ w₂, (Function.update s.writers w wr w₁).pc.Critical →
      (Function.update s.writers w wr w₂).pc.Critical → w₂ = w₁ := by
  intro w₁ w₂ h₁ h₂
  rcases eq_or_ne w₁ w with rfl | ne₁
  · rcases eq_or_ne w₂ w₁ with rfl | ne₂
    · rfl
    · rw [Function.update_of_ne ne₂] at h₂
      exact alone w₂ h₂ h₁
  · rw [Function.update_of_ne ne₁] at h₁
    rcases eq_or_ne w₂ w with rfl | ne₂
    · exact (alone w₁ h₁ h₂).symm
    · rw [Function.update_of_ne ne₂] at h₂
      exact exclusive w₁ w₂ h₁ h₂

/-- A writer goes on without touching the `Pipe`. -/
theorem PipeInv.writeLocal (inv : PipeInv evs s c) (act : PipeAct W)
    (ok : wr.Ok s.pipe (written evs).length c)
    (alone : wr.pc.Critical → ∀ w', (s.writers w').pc.Critical → w' = w) :
    PipeInv (evs ++ [(act, .quiet)]) { s with writers := Function.update s.writers w wr } c := by
  have same : written (evs ++ [(act, .quiet)]) = written evs := by
    rw [written_snoc]
    exact List.append_nil _
  refine ⟨?_, ?_, inv.rpos, ?_, inv.count, ?_, fun w' => ?_, PipeState.exclusive_update ?_
    inv.exclusive⟩
  · rw [same]
    exact inv.ring
  · rw [same]
    exact inv.wpos
  · rw [same, returned_snoc]
    exact (congrArg (· ++ _) (List.append_nil _)).trans inv.taken
  · rw [same]
    exact inv.reader
  · rw [same]
    show (Function.update s.writers w wr w').Ok _ _ _
    rcases eq_or_ne w' w with rfl | hne
    · rw [Function.update_self]
      exact ok
    · rw [Function.update_of_ne hne]
      exact inv.writers w'
  · intro w' h' h
    rw [Function.update_self] at h
    exact alone h w' h'

/-- The byte is stored in the free cell at `p_wpos`. -/
theorem PipeInv.writeStore (inv : PipeInv evs s c) {wpos : Word} (act : PipeAct W)
    (hpc : (s.writers w).pc = .storeByte wpos) :
    PipeInv (evs ++ [(act, .quiet)])
      { s with
        pipe := s.pipe.put wpos ((s.writers w).wbuf (s.writers w).i)
        writers := Function.update s.writers w { s.writers w with pc := .loadInc } } c := by
  have ok := inv.writers w
  simp only [Writer.Ok, hpc] at ok
  obtain ⟨loaded, room⟩ := ok
  have critical : (s.writers w).pc.Critical := by
    rw [hpc]
    trivial
  have same : written (evs ++ [(act, .quiet)]) = written evs := by
    rw [written_snoc]
    exact List.append_nil _
  have put : (s.pipe.put wpos ((s.writers w).wbuf (s.writers w).i)).pBuf =
      Function.update s.pipe.pBuf ((written evs).length % by2pipe)
        ((s.writers w).wbuf (s.writers w).i) := by
    rw [Pipe.put, loaded, inv.wpos, pos_toNat_mod]
  refine ⟨?_, ?_, inv.rpos, ?_, inv.count, ?_, fun w' => ?_, PipeState.exclusive_update
    (fun w' h _ => inv.exclusive w w' critical h) inv.exclusive⟩
  · rw [same, put]
    exact inv.ring.store room _
  · rw [same]
    exact inv.wpos
  · rw [same, returned_snoc]
    exact (congrArg (· ++ _) (List.append_nil _)).trans inv.taken
  · rw [same]
    exact inv.reader
  · rw [same]
    show (Function.update s.writers w { s.writers w with pc := .loadInc } w').Ok _ _ _
    rcases eq_or_ne w' w with rfl | hne
    · rw [Function.update_self]
      refine ⟨room, ?_⟩
      rw [put, Function.update_self]
    · rw [Function.update_of_ne hne]
      exact Writer.ok_of_not_critical (fun h => hne (inv.exclusive w w' critical h)) _ _ _

/-- `p_wpos++` puts the stored byte in. -/
theorem PipeInv.writePush (inv : PipeInv evs s c) {wpos : Word} (act : PipeAct W)
    (hpc : (s.writers w).pc = .storeInc wpos) :
    PipeInv (evs ++ [(act, .writes ((s.writers w).wbuf (s.writers w).i))])
      { s with
        pipe := { s.pipe with pWpos := wpos + 1 }
        writers := Function.update s.writers w
          { s.writers w with pc := .loop, i := (s.writers w).i + 1 } } c := by
  have ok := inv.writers w
  simp only [Writer.Ok, hpc] at ok
  obtain ⟨loaded, room, stored⟩ := ok
  have critical : (s.writers w).pc.Critical := by
    rw [hpc]
    trivial
  have length : (written (evs ++ [(act, .writes ((s.writers w).wbuf (s.writers w).i))])).length =
      (written evs).length + 1 := by
    rw [written_snoc, List.length_append]
    rfl
  have prefix' : (written evs).take (c + s.reader.pc.pending) =
      (written (evs ++ [(act, .writes ((s.writers w).wbuf (s.writers w).i))])).take
        (c + s.reader.pc.pending) := by
    have le : c + s.reader.pc.pending ≤ (written evs).length := by
      have ok := inv.reader
      have le := inv.ring.le
      unfold Reader.Ok at ok
      cases hpc : s.reader.pc with
      | loadInc =>
          rw [hpc] at ok
          exact ok
      | storeInc rpos =>
          rw [hpc] at ok
          exact ok.2
      | _ => exact le
    rw [written_snoc, List.take_append_of_le_length le]
  refine ⟨?_, ?_, inv.rpos, ?_, inv.count, ?_, fun w' => ?_, PipeState.exclusive_update
    (fun w' h _ => inv.exclusive w w' critical h) inv.exclusive⟩
  · rw [written_snoc]
    exact inv.ring.push room stored
  · rw [length, loaded, inv.wpos, pos_succ]
  · rw [← prefix', returned_snoc]
    exact (congrArg (· ++ _) (List.append_nil _)).trans inv.taken
  · rw [length]
    exact inv.reader.push _
  · show (Function.update s.writers w
      { s.writers w with pc := .loop, i := (s.writers w).i + 1 } w').Ok _ _ _
    rcases eq_or_ne w' w with rfl | hne
    · rw [Function.update_self]
      trivial
    · rw [Function.update_of_ne hne]
      exact Writer.ok_of_not_critical (fun h => hne (inv.exclusive w w' critical h)) _ _ _

/-- What one step of a writer preserves. -/
theorem PipeInv.writer_step [Fintype W] (inv : PipeInv evs s c)
    (exclusive : (PipeAct.writer w).Exclusive s)
    (step : pipeStep s (.writer w) = some (s', ev)) : PipeInv (evs ++ [(.writer w, ev)]) s' c := by
  have ok := inv.writers w
  have keeps : (s.writers w).pc.Critical → ∀ w', (s.writers w').pc.Critical → w' = w :=
    fun h w' h' => inv.exclusive w w' h h'
  cases hpc : (s.writers w).pc with
  | idle =>
      simp only [pipeStep, writeStep, hpc] at step
      cases step
      exact inv.writeLocal _ ok keeps
  | loop =>
      by_cases more : (s.writers w).i < (s.writers w).n
      · simp only [pipeStep, writeStep, hpc, if_pos more] at step
        cases step
        exact inv.writeLocal _ trivial fun h => h.elim
      · simp only [pipeStep, writeStep, hpc, if_neg more] at step
        cases step
        exact inv.writeLocal _ trivial fun h => h.elim
  | loadWpos =>
      simp only [pipeStep, writeStep, hpc] at step
      cases step
      exact inv.writeLocal _ rfl fun _ => exclusive hpc
  | loadRpos wpos =>
      simp only [Writer.Ok, hpc] at ok
      by_cases full : wpos - s.pipe.pRpos = BitVec.ofNat 32 by2pipe
      · simp only [pipeStep, writeStep, hpc, if_pos full] at step
        cases step
        exact inv.writeLocal _ trivial fun h => h.elim
      · simp only [pipeStep, writeStep, hpc, if_neg full] at step
        cases step
        refine inv.writeLocal _ ?_ fun _ => keeps (by rw [hpc]; trivial)
        -- the positions are not a buffer apart, so there is a free cell
        refine Nat.lt_of_le_of_ne inv.ring.fits fun same => full ?_
        rw [ok, inv.rpos, inv.wpos, same, BitVec.ofNat_add, add_sub_cancel_left]
  | full =>
      by_cases closed : s.writeEndClosed
      · simp only [pipeStep, writeStep, hpc, if_pos closed] at step
        cases step
        exact inv.writeLocal _ trivial fun h => h.elim
      · simp only [pipeStep, writeStep, hpc, if_neg closed] at step
        cases step
        exact inv.writeLocal _ trivial fun h => h.elim
  | loadSlot =>
      simp only [Writer.Ok, hpc] at ok
      simp only [pipeStep, writeStep, hpc] at step
      cases step
      exact inv.writeLocal _ ⟨rfl, ok⟩ fun _ => keeps (by rw [hpc]; trivial)
  | storeByte wpos =>
      simp only [pipeStep, writeStep, hpc] at step
      cases step
      exact inv.writeStore _ hpc
  | loadInc =>
      simp only [Writer.Ok, hpc] at ok
      simp only [pipeStep, writeStep, hpc] at step
      cases step
      exact inv.writeLocal _ ⟨rfl, ok⟩ fun _ => keeps (by rw [hpc]; trivial)
  | storeInc wpos =>
      simp only [pipeStep, writeStep, hpc] at step
      cases step
      exact inv.writePush _ hpc
  | unmapFd =>
      simp only [pipeStep, writeStep, hpc] at step
      cases step
      exact inv.writeLocal _ trivial fun h => h.elim
  | unmapData =>
      simp only [pipeStep, writeStep, hpc] at step
      cases step
      exact inv.writeLocal _ trivial fun h => h.elim
  | gone =>
      simp only [pipeStep, writeStep, hpc] at step
      cases step
      exact inv.writeLocal _ ok keeps

variable [Fintype W]

/-- What any step preserves, as long as the writers keep out of each other's way. -/
theorem PipeInv.step (inv : PipeInv evs s c) (exclusive : act.Exclusive s)
    (step : pipeRel s (act, ev) s') : ∃ c', PipeInv (evs ++ [(act, ev)]) s' c' := by
  cases act with
  | reader => exact inv.reader_step step
  | callRead n =>
      simp only [pipeRel, pipeStep] at step
      split at step
      case isTrue idle =>
        cases step
        have nothing := inv.reader
        have taken := inv.taken
        simp only [Reader.Ok, idle] at nothing
        rw [idle, nothing] at taken
        refine ⟨c, inv.readLocal rfl ?_ ⟨0, rfl, rfl⟩ trivial⟩
        exact (congrArg (· ++ _) (List.append_nil _)).trans taken
      · cases step
  | closeRead =>
      simp only [pipeRel, pipeStep] at step
      split at step
      case isTrue idle =>
        cases step
        exact ⟨c, inv.readGoto .closeRead (by rw [idle]; rfl) trivial⟩
      · cases step
  | writer w => exact ⟨c, inv.writer_step exclusive step⟩
  | callWrite w n wbuf =>
      simp only [pipeRel, pipeStep] at step
      split at step
      · cases step
        exact ⟨c, inv.writeLocal _ trivial fun h => h.elim⟩
      · cases step
  | closeWrite w =>
      simp only [pipeRel, pipeStep] at step
      split at step
      · cases step
        exact ⟨c, inv.writeLocal _ trivial fun h => h.elim⟩
      · cases step

/-- A step in which no writer gets in another's way. -/
def exclusiveStep (s : PipeState W) (x : PipeAct W × PipeEvent) (s' : PipeState W) : Prop :=
  x.1.Exclusive s ∧ pipeRel s x s'

theorem pipeRun_inv (run : Run exclusiveStep (PipeState.init W) evs s) : ∃ c, PipeInv evs s c := by
  refine run.history (fun evs s => ∃ c, PipeInv evs s c) ⟨0, .init⟩ ?_
  rintro evs s₁ ⟨act, ev⟩ s₂ ⟨c, inv⟩ ⟨exclusive, step⟩
  exact inv.step exclusive step

end Writers

/-! ## One writer -/

/-- With one writer the reads return what was written, in order, and the positions
are never more than a buffer apart. -/
theorem pipe_integrity {s : PipeState Unit} {evs : List (PipeAct Unit × PipeEvent)}
    (run : Run pipeRel (PipeState.init Unit) evs s) :
    returned evs ++ s.reader.rbuf <+: written evs ∧ returned evs <+: written evs ∧
      (s.pipe.pWpos - s.pipe.pRpos).toNat ≤ by2pipe := by
  have alone : Run exclusiveStep (PipeState.init Unit) evs s := by
    refine run.mono fun s₁ x s₂ step => ⟨?_, step⟩
    cases h : x.1 with
    | writer w => exact fun _ _ _ => rfl
    | _ => trivial
  obtain ⟨c, inv⟩ := pipeRun_inv alone
  have taken : returned evs ++ s.reader.rbuf <+: written evs := by
    rw [inv.taken]
    exact List.take_prefix _ _
  refine ⟨taken, (List.prefix_append _ _).trans taken, ?_⟩
  rw [inv.wpos, inv.rpos, pos_sub inv.ring.le inv.ring.fits]
  have := inv.ring.fits
  omega

/-- Two of three bytes are read while the writer is at work, and the third one afterwards. -/
def threeBytes : List (PipeAct Unit) :=
  .callWrite () 3 (fun i => i.setWidth 8 + 7) :: List.replicate 19 (.writer ()) ++
    .callRead 2 :: List.replicate 15 .reader ++ List.replicate 10 (.writer ()) ++
    .callRead 5 :: List.replicate 20 .reader

theorem pipe_integrity_threeBytes : ∃ s evs, Run pipeRel (PipeState.init Unit) evs s ∧
    returned evs = [7, 8, 9] ∧ returned evs <+: written evs := by
  have run : ∃ s evs, pipeExec (PipeState.init Unit) threeBytes = some (s, evs) ∧
      returned evs = [7, 8, 9] := ⟨_, _, rfl, rfl⟩
  obtain ⟨s, evs, run, read⟩ := run
  exact ⟨s, evs, pipeExec_run run, read, (pipe_integrity (pipeExec_run run)).2.1⟩

end Inv

end Mos
