import Mos.Dev
import Mos.TrapMemory
import Mos.UserMode
import Mos.WorkDir

/-!
# How system calls return

`do_syscall` on the trap frame below `KSTACKTOP`, for all the entries of
`syscall_table`. The frame advances by one instruction and gets the result of the
call, unless the number names no call: then `cp0_epc` is left as it is, and the
program makes the same call again. `sys_get_path` and `sys_set_path` copy
without a check, to an address of the caller's choice and past the end of `pwd`,
so that they can write over the frame as well (`syscall_returns_iff`).
-/

namespace Mos

open Stack (Memory loadWord)

/-- `(struct Trapframe *)KSTACKTOP - 1` -/
def kstackTfAddr : Word := 0x803fff68#32

/-- `MAX_SYSNO` -/
def maxSysno : Nat := 20

/-- `sysno` is an `int`. -/
def ValidSysno (sysno : Word) : Prop := 0 ≤ sysno.toInt ∧ sysno.toInt < maxSysno

instance (sysno : Word) : Decidable (ValidSysno sysno) := inferInstanceAs (Decidable (_ ∧ _))

/-- The entries of `syscall_table` that act on envs and their memory. -/
def sysCallOf (m : Memory) (sysno : Nat) (a1 a2 a3 a4 a5 : Word) : Option SysCall :=
  match sysno with
  | 3 => some .yield
  | 4 => some (.env (.envDestroy a1))
  | 5 => some (.env (.setTlbModEntry a1 a2))
  | 6 => some (.env (.memAlloc a1 a2 a3))
  | 7 => some (.env (.memMap a1 a2 a3 a4 a5))
  | 8 => some (.env (.memUnmap a1 a2))
  | 9 => some .exofork
  | 10 => some (.env (.setEnvStatus a1 a2))
  | 11 => some (.env (.setTrapframe a1 a2 (loadTf m a2)))
  | 13 => some (.ipcTrySend a1 a2 a3 a4)
  | 14 => some (.ipcRecv a1)
  | _ => none

/-- The check of `sys_print_cons`. -/
def printConsIllegal (s num : Word) : Prop := utop < s + num ∨ utop ≤ s ∨ s + num < s

instance (s num : Word) : Decidable (printConsIllegal s num) :=
  inferInstanceAs (Decidable (_ ∨ _))

def sysPrintCons (s num : Word) : Ret := if printConsIllegal s num then .error .inval else .ok 0

/-- There is memory or a device at the address: the emulated machine has 64
megabytes, and its first device is the console. -/
def Present (a : Word) : Prop := a < 0x84000000#32 ∨ 0x90000000#32 ≤ a

/-- The machine goes on after a device copy only if all its addresses exist. -/
def DevicePresent (va pa len : Word) : Prop :=
  ¬ isIllegalVaRange va len → Dev.IsDevRange pa len →
    ∀ i < len.toNat, Present (pa + Dev.kseg1 + BitVec.ofNat 32 i)

/-- The frame as memory `m` holds it. -/
def Kernel.withFrame (s : Kernel) (m : Memory) : Kernel :=
  { s with kstackTf := loadTf m kstackTfAddr }

/-- The entry `sysno` of `syscall_table` returns to `do_syscall`, which finds the
last argument in `$v0`. The frame is at its address in `m`. What a call without a
result leaves in `$v0` can be anything. -/
inductive callHandler (pwd : Word) (m : Memory) (s : Kernel) (sysno : Nat)
    (a1 a2 a3 a4 a5 : Word) : Kernel → Word → Prop
  | sys {call : SysCall} {s' : Kernel} {r : Ret} :
      sysCallOf m sysno a1 a2 a3 a4 a5 = some call → ¬ call.Switches s →
      call.exec s = .ok (s', r) → callHandler pwd m s sysno a1 a2 a3 a4 a5 s' r.word
  | putchar (v0 : Word) : sysno = 0 → callHandler pwd m s sysno a1 a2 a3 a4 a5 s v0
  | printCons : sysno = 1 →
      callHandler pwd m s sysno a1 a2 a3 a4 a5 s (sysPrintCons a1 a2).word
  | getenvid {cur : EnvIx} : sysno = 2 → s.curenv = some cur →
      callHandler pwd m s sysno a1 a2 a3 a4 a5 s (s.envs cur).envId
  | cgetc (ch : Word) : sysno = 15 → ch ≠ 0 → callHandler pwd m s sysno a1 a2 a3 a4 a5 s ch
  | writeDev : sysno = 16 → DevicePresent a1 a2 a3 →
      callHandler pwd m s sysno a1 a2 a3 a4 a5 (s.withFrame (Dev.sysWriteDev m a1 a2 a3).1)
        (Dev.sysWriteDev m a1 a2 a3).2.word
  | readDev : sysno = 17 → DevicePresent a1 a2 a3 →
      callHandler pwd m s sysno a1 a2 a3 a4 a5 (s.withFrame (Dev.sysReadDev m a1 a2 a3).1)
        (Dev.sysReadDev m a1 a2 a3).2.word
  | getPath {m' : Memory} {fuel : Nat} (v0 : Word) : sysno = 18 →
      sysGetPath pwd m a1 fuel = some m' →
      callHandler pwd m s sysno a1 a2 a3 a4 a5 (s.withFrame m') v0
  | setPath {m' : Memory} {fuel : Nat} (v0 : Word) : sysno = 19 →
      sysSetPath pwd m a1 fuel = some m' →
      callHandler pwd m s sysno a1 a2 a3 a4 a5 (s.withFrame m') v0

/-- Memory with the frame of `s` in its place. -/
def Kernel.frameMemory (s : Kernel) (mem : Memory) : Memory := storeTf mem kstackTfAddr s.kstackTf

/-- `do_syscall` returns, with the value it stores in `$v0`. -/
inductive doSyscall (pwd : Word) (mem : Memory) (s : Kernel) : Kernel → Word → Prop
  | noSys : ¬ ValidSysno (s.kstackTf.regs 4) →
      doSyscall pwd mem s (s.setV0 (-Err.noSys.code)) (-Err.noSys.code)
  | call {s' : Kernel} {v0 : Word} : ValidSysno (s.kstackTf.regs 4) →
      callHandler pwd (s.skip.frameMemory mem) s.skip (s.kstackTf.regs 4).toNat
        (s.kstackTf.regs 5) (s.kstackTf.regs 6) (s.kstackTf.regs 7)
        (loadWord (s.skip.frameMemory mem) (s.kstackTf.regs 29 + 16))
        (loadWord (s.skip.frameMemory mem) (s.kstackTf.regs 29 + 20)) s' v0 →
      doSyscall pwd mem s (s'.setV0 v0) v0

/-- `sys_set_trapframe` on the caller, with a frame it accepts. -/
def SetsOwnFrame (s : Kernel) : Prop :=
  s.kstackTf.regs 4 = 11 ∧ ¬ isIllegalVaRange (s.kstackTf.regs 6) sizeofTrapframe ∧
    ∃ cur, s.curenv = some cur ∧ envid2env s (s.kstackTf.regs 5) true = .ok (.ok cur)

/-- The frame after a call. -/
structure ReturnsTo (mem : Memory) (s s' : Kernel) (v0 : Word) : Prop where
  own : SetsOwnFrame s → s'.kstackTf = loadTf (s.skip.frameMemory mem) (s.kstackTf.regs 6)
  other : ¬ SetsOwnFrame s → s'.kstackTf =
    { s.kstackTf with
      regs := Function.update s.kstackTf.regs 2 v0
      cp0Epc := s.kstackTf.cp0Epc + 4 }

/-- An address of the frame, but for that of `$v0`. -/
def KeptByte (a : Word) : Prop :=
  (a - kstackTfAddr).toNat < trapframeBytes ∧ (a - kstackTfAddr).toNat / 4 ≠ 2

/-- Where the string at `src`, copied to `dst`, meets the frame, the frame has
those bytes already. -/
def KeepsFrame (m : Memory) (dst src : Word) : Prop :=
  ∀ n, IsStr m src n → ∀ i ≤ n, KeptByte (dst + BitVec.ofNat 32 i) →
    m (src + BitVec.ofNat 32 i) = m (dst + BitVec.ofNat 32 i)

/-- The number names a call, and if it is one of the two that copy a path, the
copy leaves the frame as it is. -/
structure ReturnsRight (pwd : Word) (mem : Memory) (s : Kernel) : Prop where
  valid : ValidSysno (s.kstackTf.regs 4)
  getPath : s.kstackTf.regs 4 = 18 →
    KeepsFrame (startPwd pwd (s.skip.frameMemory mem)) (s.kstackTf.regs 5) pwd
  setPath : s.kstackTf.regs 4 = 19 →
    KeepsFrame (s.skip.frameMemory mem) pwd (s.kstackTf.regs 5)

variable {s s' : Kernel} {mem m m' : Memory} {pwd dst src a va pa len v0 w : Word} {k n : Nat}
  {call : SysCall} {r : Ret} {tf tf' : Trapframe}

/-! ## The frame in memory -/

/-- `tf->regs[2] = v` -/
def Trapframe.setV0 (tf : Trapframe) (v : Word) : Trapframe :=
  { tf with regs := Function.update tf.regs 2 v }

theorem Trapframe.word_setV0 {j : Nat} : (tf.setV0 w).word j = if j = 2 then w else tf.word j := by
  unfold Trapframe.word Trapframe.setV0
  by_cases reg : j < 32
  · simp only [dif_pos reg]
    by_cases two : j = 2
    · subst two
      rfl
    · rw [if_neg two, Function.update_of_ne]
      intro same
      exact two (congrArg Fin.val same)
  · rw [dif_neg reg, dif_neg reg, if_neg (by omega)]

/-- A frame in memory is `tf`, up to `$v0`, when its other bytes are those of `tf`. -/
theorem setV0_loadTf_iff : (loadTf m kstackTfAddr).setV0 w = tf.setV0 w ↔
    ∀ k < trapframeBytes, k / 4 ≠ 2 → m (kstackTfAddr + BitVec.ofNat 32 k) = tf.byte k := by
  constructor
  · intro same k inside kept
    have word := congrArg (fun t => Trapframe.word t (k / 4)) same
    simp only [Trapframe.word_setV0, if_neg kept] at word
    rw [byte_of_loadTf m kstackTfAddr inside, Trapframe.byte, word, Trapframe.byte]
  · intro bytes
    apply Trapframe.eq_of_word
    intro j hj
    rw [Trapframe.word_setV0, Trapframe.word_setV0]
    by_cases two : j = 2
    · rw [if_pos two, if_pos two]
    · rw [if_neg two, if_neg two, loadTf_word hj]
      apply loadWord_eq
      intro k hk
      rw [wordAddr, bytes _ (by unfold trapframeBytes; omega) (by omega), Trapframe.byte,
        show (4 * j + k) / 4 = j by omega, show (4 * j + k) % 4 = k by omega]

@[simp] theorem loadTf_frameMemory : loadTf (s.frameMemory mem) kstackTfAddr = s.kstackTf :=
  loadTf_storeTf

/-- An address is its distance from the frame. -/
theorem frame_offset (a : Word) : kstackTfAddr + BitVec.ofNat 32 (a - kstackTfAddr).toNat = a := by
  rw [BitVec.ofNat_toNat, BitVec.setWidth_eq, BitVec.add_comm, BitVec.sub_add_cancel]

theorem frame_distance (inside : k < trapframeBytes) :
    (kstackTfAddr + BitVec.ofNat 32 k - kstackTfAddr).toNat = k := by
  unfold trapframeBytes at inside
  rw [add_sub_cancel_left, BitVec.toNat_ofNat, Nat.mod_eq_of_lt (by omega)]

/-- A copy of a string leaves the frame as it is, up to `$v0`, exactly when the
bytes it stores there are there already. -/
theorem withFrame_copied_iff (frame : loadTf m kstackTfAddr = tf) (str : IsStr m src n)
    (bound : n < 2 ^ 32) (copied : CopiedTo m m' dst src (n + 1)) :
    (loadTf m' kstackTfAddr).setV0 w = tf.setV0 w ↔ KeepsFrame m dst src := by
  have held : ∀ k < trapframeBytes, m (kstackTfAddr + BitVec.ofNat 32 k) = tf.byte k := by
    intro k inside
    rw [byte_of_loadTf m kstackTfAddr inside, frame]
  rw [setV0_loadTf_iff]
  constructor
  · intro bytes n' str' i upto kept
    obtain rfl := str'.unique str
    have after := bytes _ kept.1 kept.2
    rw [← held _ kept.1, frame_offset, copied, add_sub_cancel_left, BitVec.toNat_ofNat,
      Nat.mod_eq_of_lt (by omega), if_pos (by omega)] at after
    exact after
  · intro keeps k inside kept
    rw [copied, ← held k inside]
    split
    · next reached =>
        have there : dst + BitVec.ofNat 32 (kstackTfAddr + BitVec.ofNat 32 k - dst).toNat =
            kstackTfAddr + BitVec.ofNat 32 k := by
          rw [BitVec.ofNat_toNat, BitVec.setWidth_eq, BitVec.add_comm, BitVec.sub_add_cancel]
        have byte := keeps n str _ (Nat.lt_succ_iff.mp reached) (by
          rw [there, KeptByte, frame_distance inside]
          exact ⟨inside, kept⟩)
        rw [there, BitVec.ofNat_toNat, BitVec.setWidth_eq] at byte
        exact byte
    · rfl

/-! ## Device copies -/

section DeviceCopies

open Dev (memcpy memcpy_outside)

/-- A device copy that goes on leaves the frame as it is. -/
theorem device_keeps_frame (present : DevicePresent va pa len) (k : Nat)
    (inside : k < trapframeBytes) :
    (Dev.sysWriteDev m va pa len).1 (kstackTfAddr + BitVec.ofNat 32 k) =
        m (kstackTfAddr + BitVec.ofNat 32 k) ∧
      (Dev.sysReadDev m va pa len).1 (kstackTfAddr + BitVec.ofNat 32 k) =
        m (kstackTfAddr + BitVec.ofNat 32 k) := by
  have address : (kstackTfAddr + BitVec.ofNat 32 k).toNat = 0x803fff68 + k := by
    unfold trapframeBytes at inside
    exact add_ofNat_toNat (by simp only [kstackTfAddr, BitVec.toNat_ofNat]; omega)
  unfold trapframeBytes at inside
  generalize kstackTfAddr + BitVec.ofNat 32 k = b at address
  by_cases illegal : isIllegalVaRange va len
  · exact ⟨by rw [Dev.sysWriteDev, if_pos illegal], by rw [Dev.sysReadDev, if_pos illegal]⟩
  by_cases device : Dev.IsDevRange pa len
  · have user := Dev.legal_range_iff.mp illegal
    rw [utemp_toNat, utop_toNat] at user
    have exist := present illegal device
    rw [Dev.sysWriteDev, Dev.sysReadDev, if_neg illegal, if_neg illegal,
      if_neg (not_not_intro device), if_neg (not_not_intro device)]
    refine ⟨memcpy_outside ?_, memcpy_outside ?_⟩
    · by_contra inRange
      -- a copy that starts below the frame and reaches it goes on to where there is no memory
      have start : (pa + Dev.kseg1).toNat = (pa.toNat + 0xa0000000) % 2 ^ 32 := BitVec.toNat_add ..
      have stop : (pa + Dev.kseg1 + len).toNat =
          ((pa + Dev.kseg1).toNat + len.toNat) % 2 ^ 32 := BitVec.toNat_add ..
      have bound := pa.isLt
      have reach : (pa + Dev.kseg1).toNat ≤ 0x84000000 ∧
          0x84000000 - (pa + Dev.kseg1).toNat < len.toNat := by
        obtain ⟨d, listed, from_d, to_d⟩ | ⟨wraps, low⟩ := (Dev.isDevRange_iff illegal).mp device
        · simp only [Dev.devices, List.mem_cons, List.not_mem_nil, or_false] at listed
          obtain rfl | rfl | rfl := listed <;> dsimp only at from_d to_d <;> omega
        · obtain rfl | ⟨-, -⟩ := user <;> omega
      have absent := exist _ reach.2
      generalize pa + Dev.kseg1 = start at absent reach
      have hole : (start + BitVec.ofNat 32 (0x84000000 - start.toNat)).toNat = 0x84000000 := by
        rw [add_ofNat_toNat (by omega)]
        omega
      unfold Present at absent
      rw [BitVec.lt_def, BitVec.le_def, hole] at absent
      exact absurd absent (by decide)
    · obtain rfl | ⟨low, high⟩ := user
      · rw [show va + 0 = va from BitVec.add_zero va]
        exact Nat.lt_or_ge _ _
      · right
        rw [BitVec.toNat_add]
        omega
  · rw [Dev.sysWriteDev, Dev.sysReadDev, if_neg illegal, if_neg illegal, if_pos device,
      if_pos device]
    exact ⟨rfl, rfl⟩

end DeviceCopies

/-! ## Calls that act on the kernel -/

/-- `env_free` does not touch the frame. -/
theorem envFree_frame {e : EnvIx} (h : envFree s e = .ok s') :
    s'.kstackTf = s.kstackTf ∧ s'.curenv = s.curenv := by
  obtain ⟨s₁, vm, removed⟩ := bind_eq_ok.mp h
  obtain ⟨q, -, rfl⟩ := schedRemove_ok removed
  unfold envFreeVm at vm
  obtain ⟨pm₁, -, vm⟩ := bind_eq_ok.mp vm
  obtain ⟨page, -, vm⟩ := bind_eq_ok.mp vm
  obtain ⟨pm₂, -, vm⟩ := bind_eq_ok.mp vm
  cases vm
  exact ⟨rfl, rfl⟩

/-- A call that comes back leaves the frame as it is, but for `sys_set_trapframe`
on the caller. -/
theorem SysCall.exec_frame (stays : ¬ call.Switches s) (h : call.exec s = .ok (s', r)) :
    s'.kstackTf = s.kstackTf ∨ ∃ envid va tf cur, call = .env (.setTrapframe envid va tf) ∧
      ¬ isIllegalVaRange va sizeofTrapframe ∧ s.curenv = some cur ∧
      envid2env s envid true = .ok (.ok cur) ∧ r = .ok (tf.regs 2) ∧ s'.kstackTf = tf := by
  cases call with
  | env call =>
      cases call with
      | envDestroy envid =>
          rcases sysEnvDestroy_ok h with rfl | ⟨e, lookup, destroyed⟩
          · exact .inl rfl
          · obtain ⟨s₂, freed, rest⟩ := bind_eq_ok.mp destroyed
            obtain ⟨frame, current⟩ := envFree_frame freed
            have other : s₂.curenv ≠ some e := fun self =>
              stays ⟨e, current ▸ self, lookup⟩
            rw [if_neg other] at rest
            cases rest
            exact .inl frame
      | setTlbModEntry envid func =>
          rcases sysSetTlbModEntry_ok h with rfl | ⟨e, -, rfl⟩
          · exact .inl rfl
          · exact .inl rfl
      | memAlloc envid va perm =>
          obtain ⟨pm, rfl⟩ := sysMemAlloc_ok h
          exact .inl rfl
      | memMap srcid srcva dstid dstva perm =>
          obtain ⟨pm, rfl⟩ := sysMemMap_ok h
          exact .inl rfl
      | memUnmap envid va =>
          obtain ⟨pm, rfl⟩ := sysMemUnmap_ok h
          exact .inl rfl
      | setEnvStatus envid status =>
          rcases sysSetEnvStatus_ok h with rfl | ⟨new, e, q, -, -, rfl⟩
          · exact .inl rfl
          · exact .inl rfl
      | setTrapframe envid va tf =>
          rcases sysSetTrapframe_ok h with
            rfl | ⟨e, legal, lookup, ⟨self, rfl, rfl⟩ | ⟨-, rfl⟩⟩
          · exact .inl rfl
          · exact .inr ⟨envid, va, tf, e, rfl, legal, self, lookup, rfl, rfl⟩
          · exact .inl rfl
  | yield => exact absurd trivial stays
  | exofork =>
      have same : ∀ {parentId s₁ found}, envAlloc s parentId = .ok (s₁, found) →
          s₁.kstackTf = s.kstackTf := by
        intro parentId s₁ found alloc
        rcases envAlloc_ok alloc with ⟨pm, err, -, rfl⟩ | ⟨e, rest, p, pm, err, -, -, rfl⟩ |
          ⟨e, rest, p, pm, i, -, -, -, rfl⟩
        all_goals rfl
      obtain ⟨cur, ⟨err, alloc⟩ | ⟨s₁, e, alloc, rfl⟩⟩ := sysExofork_ok h
      · exact .inl (same alloc)
      · have kept : s₁.kstackTf = s.kstackTf := same alloc
        exact .inl kept
  | ipcRecv dstva =>
      rcases sysIpcRecv_ok h with ⟨-, -, rfl, -⟩ | ⟨legal, -⟩
      · exact .inl rfl
      · exact absurd legal stays
  | ipcTrySend envid value srcva perm =>
      rcases sysIpcTrySend_ok h with ⟨err, -, rfl, -⟩ | ⟨e, cur, pm, -, -, -, -, -, rfl, -⟩
      · exact .inl rfl
      · exact .inl rfl

/-! ## Every call -/

/-- The frame after a call that left it as it was is the one the caller had, one
instruction on. -/
theorem setV0_frame (same : s'.kstackTf = s.skip.kstackTf) :
    (s'.setV0 v0).kstackTf =
      { s.kstackTf with
        regs := Function.update s.kstackTf.regs 2 v0
        cp0Epc := s.kstackTf.cp0Epc + 4 } := by
  unfold Kernel.setV0
  rw [same]
  rfl

/-- The frame read back after the first byte of `pwd` was set. -/
theorem loadTf_startPwd (placed : PwdPlaced pwd) (m : Memory) :
    loadTf (startPwd pwd m) kstackTfAddr = loadTf m kstackTfAddr := by
  apply loadTf_congr
  intro k inside
  unfold startPwd
  split
  · apply Function.update_of_ne
    intro same
    have high := placed.high
    have inside : k < 152 := inside
    rw [← same, add_ofNat_toNat (by simp only [kstackTfAddr, BitVec.toNat_ofNat]; omega)] at high
    simp only [kstackTfAddr, BitVec.toNat_ofNat] at high
    omega
  · rfl

theorem sysCallOf_setTrapframe {sysno : Nat} {a1 a2 a3 a4 a5 envid va : Word}
    (h : sysCallOf m sysno a1 a2 a3 a4 a5 = some (.env (.setTrapframe envid va tf))) :
    sysno = 11 ∧ envid = a1 ∧ va = a2 ∧ tf = loadTf m a2 := by
  unfold sysCallOf at h
  split at h <;> cases h
  exact ⟨rfl, rfl, rfl, rfl⟩

/-- The calls that copy a path are not among those that act on the kernel. -/
theorem sysCallOf_ne {sysno : Nat} {a1 a2 a3 a4 a5 : Word}
    (h : sysCallOf m sysno a1 a2 a3 a4 a5 = some call) : sysno ≠ 18 ∧ sysno ≠ 19 := by
  constructor <;>
    · rintro rfl
      cases h

theorem not_own (other : (s.kstackTf.regs 4).toNat ≠ 11) : ¬ SetsOwnFrame s := fun own =>
  other (by rw [own.1]; rfl)

/-- A call that copies no path, and leaves the frame as it was, returns right. -/
theorem returns_same (valid : ValidSysno (s.kstackTf.regs 4)) (notOwn : ¬ SetsOwnFrame s)
    (noGet : (s.kstackTf.regs 4).toNat ≠ 18) (noSet : (s.kstackTf.regs 4).toNat ≠ 19)
    (same : s'.kstackTf = s.skip.kstackTf) :
    ReturnsTo mem s (s'.setV0 v0) v0 ↔ ReturnsRight pwd mem s := by
  refine iff_of_true ⟨fun own => absurd own notOwn, fun _ => setV0_frame same⟩ ⟨valid, ?_, ?_⟩
  · intro get
    rw [get] at noGet
    exact absurd rfl noGet
  · intro set
    rw [set] at noSet
    exact absurd rfl noSet

/-- A call that copies a path returns right when the copy leaves the frame alone. -/
theorem returns_copied (notOwn : ¬ SetsOwnFrame s) (frame : loadTf m kstackTfAddr = s.skip.kstackTf)
    {fuel : Nat} (run : strcpy m dst src fuel = some m') :
    ReturnsTo mem s ((s.skip.withFrame m').setV0 v0) v0 ↔ KeepsFrame m dst src := by
  obtain ⟨n, bound, str, copied⟩ := strcpy_spec run
  rw [← withFrame_copied_iff (w := v0) frame str bound copied]
  exact ⟨fun returns => returns.other notOwn,
    fun same => ⟨fun own => absurd own notOwn, fun _ => same⟩⟩

/-- The call that replaces the caller's frame. -/
theorem SetsOwnFrame.run (own : SetsOwnFrame s) (m : Memory) :
    sysSetTrapframe s.skip (s.kstackTf.regs 5) (s.kstackTf.regs 6) (loadTf m (s.kstackTf.regs 6)) =
      .ok ({ s.skip with kstackTf := loadTf m (s.kstackTf.regs 6) },
        .ok ((loadTf m (s.kstackTf.regs 6)).regs 2)) := by
  obtain ⟨-, legal, cur, current, self⟩ := own
  unfold sysSetTrapframe
  rw [if_neg legal, show envid2env s.skip (s.kstackTf.regs 5) true = .ok (.ok cur) from self]
  simp only [Bind.bind, Except.bind, tryRet,
    if_pos (show s.skip.curenv = some cur from current)]

theorem SetsOwnFrame.entry (own : SetsOwnFrame s) (m : Memory) (a3 a4 a5 : Word) :
    sysCallOf m (s.kstackTf.regs 4).toNat (s.kstackTf.regs 5) (s.kstackTf.regs 6) a3 a4 a5 =
      some (.env (.setTrapframe (s.kstackTf.regs 5) (s.kstackTf.regs 6)
        (loadTf m (s.kstackTf.regs 6)))) := by
  rw [own.1]
  rfl

/-- The frame is replaced, and its own `$v0` stored over it. -/
theorem SetsOwnFrame.returns (own : SetsOwnFrame s) (h : doSyscall pwd mem s s' v0) :
    s'.kstackTf = loadTf (s.skip.frameMemory mem) (s.kstackTf.regs 6) := by
  have number : (s.kstackTf.regs 4).toNat = 11 := by
    rw [own.1]
    rfl
  cases h with
  | noSys invalid => exact absurd (by rw [own.1]; decide) invalid
  | call valid handled =>
      cases handled with
      | sys entry stays run =>
          rw [own.entry] at entry
          cases entry
          have run : sysSetTrapframe s.skip _ _ _ = .ok _ := run
          rw [own.run] at run
          cases run
          simp [Kernel.setV0, Ret.word]
      | putchar | printCons | getenvid | cgetc | writeDev | readDev | getPath | setPath => omega

/-- It does return. -/
theorem SetsOwnFrame.exists_return (own : SetsOwnFrame s) (pwd : Word) (mem : Memory) :
    ∃ s' v0, doSyscall pwd mem s s' v0 :=
  ⟨_, _, .call (by rw [own.1]; decide)
    (.sys (own.entry _ _ _ _) (fun switches => switches) (own.run _))⟩

/-- A system call returns as it should exactly when its number is valid and, if it
copies a path, the copy does not change the frame. -/
theorem syscall_returns_iff (pwd : Word) (placed : PwdPlaced pwd) (mem : Memory) (s s' : Kernel)
    (v0 : Word) (returns : doSyscall pwd mem s s' v0) :
    ReturnsTo mem s s' v0 ↔ ReturnsRight pwd mem s := by
  cases returns with
  | noSys invalid =>
      refine iff_of_false (fun back => ?_) fun right => invalid right.valid
      have notOwn : ¬ SetsOwnFrame s := fun own => invalid (by rw [own.1]; decide)
      have epc : s.kstackTf.cp0Epc = s.kstackTf.cp0Epc + 4 :=
        congrArg Trapframe.cp0Epc (back.other notOwn)
      have zero : (4 : Word) = 0 := by
        rw [← add_sub_cancel_left s.kstackTf.cp0Epc 4, ← epc, sub_self]
      exact absurd zero (by decide)
  | @call s₁ v0 valid handled =>
      cases handled with
      | @sys call _ r entry stays run =>
          obtain ⟨noGet, noSet⟩ := sysCallOf_ne entry
          by_cases own : SetsOwnFrame s
          · have back : doSyscall pwd mem s _ _ := .call valid (.sys entry stays run)
            refine iff_of_true ⟨fun _ => own.returns back, fun other => absurd own other⟩
              ⟨valid, fun get => ?_, fun set => ?_⟩
            · rw [own.1] at get
              exact absurd get (by decide)
            · rw [own.1] at set
              exact absurd set (by decide)
          · rcases SysCall.exec_frame stays run with
              same | ⟨envid, va, tf, cur, rfl, legal, current, self, -, -⟩
            · exact returns_same valid own noGet noSet same
            · obtain ⟨number, rfl, rfl, -⟩ := sysCallOf_setTrapframe entry
              refine absurd ⟨BitVec.eq_of_toNat_eq number, legal, cur, current, self⟩ own
      | putchar v0 number =>
          exact returns_same valid (not_own (by omega)) (by omega) (by omega) rfl
      | printCons number =>
          exact returns_same valid (not_own (by omega)) (by omega) (by omega) rfl
      | getenvid number current =>
          exact returns_same valid (not_own (by omega)) (by omega) (by omega) rfl
      | cgetc ch number pressed =>
          exact returns_same valid (not_own (by omega)) (by omega) (by omega) rfl
      | writeDev number present =>
          refine returns_same valid (not_own (by omega)) (by omega) (by omega) ?_
          exact (loadTf_congr fun k inside => (device_keeps_frame present k inside).1).trans
            loadTf_frameMemory
      | readDev number present =>
          refine returns_same valid (not_own (by omega)) (by omega) (by omega) ?_
          exact (loadTf_congr fun k inside => (device_keeps_frame present k inside).2).trans
            loadTf_frameMemory
      | getPath v0 number run =>
          have frame := (loadTf_startPwd placed (s.skip.frameMemory mem)).trans loadTf_frameMemory
          rw [returns_copied (not_own (by omega)) frame run]
          refine ⟨fun keeps => ⟨valid, fun _ => keeps, fun set => ?_⟩, fun right => ?_⟩
          · rw [set] at number
            cases number
          · exact right.getPath (BitVec.eq_of_toNat_eq number)
      | setPath v0 number run =>
          rw [returns_copied (not_own (by omega)) loadTf_frameMemory run]
          refine ⟨fun keeps => ⟨valid, fun get => ?_, fun _ => keeps⟩, fun right => ?_⟩
          · rw [get] at number
            cases number
          · exact right.setPath (BitVec.eq_of_toNat_eq number)

/-- A machine without memory whose caller asks for `sysno`. -/
def asks (sysno : Word) : Kernel :=
  { kernelInit ⟨0, fun _ _ => 0, fun _ => 0, [], []⟩ 0 with
    kstackTf := { Trapframe.zero with regs := fun _ => sysno } }

/-- A call with its arguments. -/
def asksWith (sysno a1 a2 a3 : Word) : Kernel :=
  { asks 0 with
    kstackTf := { Trapframe.zero with
      regs := fun r => if r = 4 then sysno else if r = 5 then a1 else if r = 6 then a2 else
        if r = 7 then a3 else 0 } }

theorem isStr_frameMemory (s : Kernel) : IsStr (s.frameMemory pathAt) 0x400000 2 where
  chars i hi := by
    have outside : trapframeBytes ≤ ((0x400000 : Word) + BitVec.ofNat 32 i - kstackTfAddr).toNat :=
      match i, hi with
      | 0, _ => by decide
      | 1, _ => by decide
    rw [Kernel.frameMemory, storeTf_outside outside]
    exact isStr_pathAt.chars i hi
  terminated := by
    rw [Kernel.frameMemory, storeTf_outside (by decide)]
    exact isStr_pathAt.terminated

/-- `sys_write_dev` of a byte to the console, and `sys_set_path` of `/a`. -/
theorem syscall_returns_iff_calls :
    (∃ s', doSyscall 0x80020000 pathAt (asksWith 16 0x400000 0x10000000 1) s' 0 ∧
      ReturnsTo pathAt (asksWith 16 0x400000 0x10000000 1) s' 0) ∧
    ∃ s', doSyscall 0x80020000 pathAt (asksWith 19 0x400000 0 0) s' 0 ∧
      ReturnsTo pathAt (asksWith 19 0x400000 0 0) s' 0 := by
  have placed : PwdPlaced 0x80020000 := ⟨by decide, by decide⟩
  constructor
  · have present : DevicePresent 0x400000 0x10000000 1 := by
      intro _ _ i one
      obtain rfl : i = 0 := Nat.lt_one_iff.mp one
      exact .inr (by decide)
    have call : doSyscall 0x80020000 pathAt (asksWith 16 0x400000 0x10000000 1) _ _ :=
      .call (by decide) (.writeDev rfl present)
    exact ⟨_, call, (syscall_returns_iff _ placed _ _ _ _ call).mpr
      ⟨by decide, fun get => absurd get (by decide), fun set => absurd set (by decide)⟩⟩
  · have str := isStr_frameMemory (asksWith 19 0x400000 0 0).skip
    have whole : ∃ m, strcpy _ 0x80020000 _ 3 = some m :=
      strcpy_whole str (by decide) (Nat.lt_succ_self 2)
    obtain ⟨m, run⟩ := whole
    have call : doSyscall 0x80020000 pathAt (asksWith 19 0x400000 0 0) _ 0 :=
      .call (by decide) (.setPath 0 rfl run)
    refine ⟨_, call, (syscall_returns_iff _ placed _ _ _ _ call).mpr
      ⟨by decide, fun get => absurd get (by decide), fun _ n str' i upto kept => ?_⟩⟩
    obtain rfl := str'.unique str
    match i, upto with
    | 0, _ => exact absurd kept.1 (by decide)
    | 1, _ => exact absurd kept.1 (by decide)
    | 2, _ => exact absurd kept.1 (by decide)

/-- The call with number 20 would be made again and again. -/
theorem syscall_returns_not :
    ¬ ∀ (pwd : Word) (mem : Memory) (s s' : Kernel) (v0 : Word), PwdPlaced pwd →
      doSyscall pwd mem s s' v0 → ReturnsTo mem s s' v0 := by
  intro all
  have back := all 0x80020000 (fun _ => 0) (asks 20) _ _ ⟨by decide, by decide⟩
    (.noSys (by decide))
  have notOwn : ¬ SetsOwnFrame (asks 20) := fun own => absurd own.1 (by decide)
  have epc : (0 : Word) = 0 + 4 := congrArg Trapframe.cp0Epc (back.other notOwn)
  exact absurd epc (by decide)

end Mos
