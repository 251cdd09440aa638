import Mos.Pmap
import Mos.Lib.Except
import Mos.Lib.Tailq
import Mathlib.Data.List.FinRange

/-!
# Environments

The process slots of `kern/env.c`, with the state the kernel keeps beside the
physical memory. An env is the index of its slot in `envs`. A call that the C
code makes without looking at its result goes on with whatever state it left.
-/

namespace Mos

instance neZeroRegs : NeZero 32 := ⟨by decide⟩

instance neZeroSlots : NeZero nenv := ⟨by decide⟩

/-- The state a trap saves, in `include/trap.h`. -/
structure Trapframe where
  regs : Fin 32 → Word
  cp0Status : Word
  hi : Word
  lo : Word
  cp0Badvaddr : Word
  cp0Cause : Word
  cp0Epc : Word
  deriving DecidableEq

inductive EnvStatus
  | free
  | runnable
  | notRunnable
  deriving DecidableEq, Repr

/-- `struct Env`. Its links live in the lists of `Kernel`. -/
structure Env where
  envTf : Trapframe
  envId : Word
  envAsid : Word
  envParentId : Word
  envStatus : EnvStatus
  envPgdir : Nat
  envPri : Word
  envIpcValue : Word
  envIpcFrom : Word
  envIpcRecving : Word
  envIpcDstva : Word
  envIpcPerm : Word
  envUserTlbModEntry : Word
  envRuns : Word

/-- An element of `envs`. -/
abbrev EnvIx := Fin nenv

/-- The elements of `envs` in their order. -/
def slots : List EnvIx := List.finRange nenv

theorem mem_slots (e : EnvIx) : e ∈ slots := List.mem_finRange e

theorem nodup_slots : slots.Nodup := List.nodup_finRange nenv

/-- All slots but the first two. -/
def laterSlots : List EnvIx := ((List.finRange 1022).map Fin.succ).map Fin.succ

theorem slots_eq : slots = 0 :: 1 :: laterSlots := by
  rw [slots, List.finRange_succ, List.finRange_succ, List.map_cons]
  rfl

theorem slots_length : slots.length = nenv := List.length_finRange

attribute [irreducible] slots laterSlots

structure Kernel where
  pm : Pmap
  envs : EnvIx → Env
  curenv : Option EnvIx
  envFreeList : List EnvIx
  envSchedList : Tailq EnvIx
  basePgdir : Nat
  curPgdir : Option Nat
  asidBitmap : Nat → Word
  /-- The counter of `mkenvid`. -/
  mkenvidCount : Word
  /-- The counter of `schedule`. -/
  schedCount : Word
  /-- The trap frame below `KSTACKTOP`. -/
  kstackTf : Trapframe

namespace Kernel

/-- Change the fields of the env in slot `e`. -/
def setEnv (s : Kernel) (e : EnvIx) (f : Env → Env) : Kernel :=
  { s with envs := Function.update s.envs e (f (s.envs e)) }

/-- Go on in memory `pm`. -/
def withPm (s : Kernel) (pm : Pmap) : Kernel := { s with pm := pm }

/-- `TAILQ_REMOVE(&env_sched_list, e, env_sched_link)`. -/
def schedRemove (s : Kernel) (e : EnvIx) : Except Panic Kernel :=
  match s.envSchedList.remove e with
  | some q => .ok { s with envSchedList := q }
  | none => .error .nullPointer

/-- `TAILQ_INSERT_TAIL(&env_sched_list, e, env_sched_link)`. -/
def schedInsertTail (s : Kernel) (e : EnvIx) : Kernel :=
  { s with envSchedList := s.envSchedList.insertTail e }

/-- `*curenv`; the kernel never tests the pointer. -/
def current (s : Kernel) : Except Panic EnvIx :=
  match s.curenv with
  | some e => .ok e
  | none => .error .nullPointer

end Kernel

/-- A field the change does not touch. -/
theorem Kernel.setEnv_field {α : Type} {s : Kernel} {e : EnvIx} {f : Env → Env} (field : Env → α)
    (h : field (f (s.envs e)) = field (s.envs e)) (e' : EnvIx) :
    field ((s.setEnv e f).envs e') = field (s.envs e') := by
  simp only [Kernel.setEnv]
  rcases eq_or_ne e' e with rfl | hne
  · rw [Function.update_self]
    exact h
  · rw [Function.update_of_ne hne]

/-- `NASID`. -/
def nasid : Nat := 64

/-- The bit of ASID `i` in its word of the bitmap. -/
def asidBit (i : Nat) : Word := 1#32 <<< (i % 32)

/-- The first ASID whose bit is clear. -/
def freeAsid (bitmap : Nat → Word) : Option Nat :=
  (List.range nasid).find? fun i => bitmap (i / 32) &&& asidBit i = 0

theorem freeAsid_init : freeAsid (fun _ => 0) = some 0 := by decide

def asidAlloc (s : Kernel) : Kernel × Except Err Word :=
  match freeAsid s.asidBitmap with
  | some i =>
      ({ s with
          asidBitmap :=
            Function.update s.asidBitmap (i / 32) (s.asidBitmap (i / 32) ||| asidBit i) },
        .ok (BitVec.ofNat 32 i))
  | none => (s, .error .noFreeEnv)

def asidFree (s : Kernel) (asid : Word) : Kernel :=
  { s with
    asidBitmap :=
      Function.update s.asidBitmap (asid.toNat / 32)
        (s.asidBitmap (asid.toNat / 32) &&& ~~~asidBit asid.toNat) }

/-- `map_segment`, which ignores what `page_insert` returns. -/
def mapSegment (s : Pmap) (pgdir : Nat) (asid pa va : Word) (size : Nat) (perm : Word) :
    Except Panic Pmap :=
  if pa.toNat % 4096 ≠ 0 ∨ va.toNat % 4096 ≠ 0 ∨ size % 4096 ≠ 0 then .error .mapSegment
  else
    loop (fun i s => do
      let off := BitVec.ofNat 32 (i * 4096)
      let pp ← s.pa2page (pa + off)
      let (s, _) ← pageInsert s pgdir asid pp (va + off) perm
      .ok s) 0 (size / 4096) s

/-- `mkenvid`: the count of env ids made, over the index of the slot. -/
def mkenvid (s : Kernel) (e : EnvIx) : Kernel × Word :=
  let i := s.mkenvidCount + 1
  ({ s with mkenvidCount := i }, (i <<< 11) ||| BitVec.ofNat 32 e)

/-- `ENVX`: the slot an env id names. -/
def envx (envid : Word) : EnvIx := Fin.ofNat nenv envid.toNat

/-- `envid2env`. The id 0 names `curenv` whatever `checkperm` says. -/
def envid2env (s : Kernel) (envid : Word) (checkperm : Bool) : Except Panic (Except Err EnvIx) :=
  if envid = 0 then do .ok (.ok (← s.current))
  else
    let e := envx envid
    if (s.envs e).envStatus = .free ∨ (s.envs e).envId ≠ envid then .ok (.error .badEnv)
    else if checkperm then do
      let cur ← s.current
      if (s.envs e).envId = (s.envs cur).envId ∨ (s.envs e).envParentId = (s.envs cur).envId then
        .ok (.ok e)
      else .ok (.error .badEnv)
    else .ok (.ok e)

/-! ## Boot -/

/-- A word of zeroes in every field. -/
def Trapframe.zero : Trapframe := ⟨fun _ => 0, 0, 0, 0, 0, 0, 0⟩

/-- A slot of `envs` before its first use. -/
def Env.zero : Env := ⟨.zero, 0, 0, 0, .free, 0, 0, 0, 0, 0, 0, 0, 0, 0⟩

/-- `ROUND(n, BY2PG)`. -/
def roundPage (n : Nat) : Nat := (n + 4095) / 4096 * 4096

/-- `env_init`: every slot is free, and the template page directory maps the
`pages` and `envs` arrays. -/
def envInit (b : Boot) : Except Panic Kernel := do
  match ← pageAlloc (pageInit b) with
  | (_, .error _) => .error .panicOn
  | (pm, .ok p) => do
      let pm := pm.setRef p (pm.ppRef p + 1)
      let basePgdir ← pm.page2kva p
      let pm ← mapSegment pm basePgdir 0 (BitVec.ofNat 32 b.pagesPa) upages
        (roundPage (b.npage * sizeofPage)) pteG
      let pm ← mapSegment pm basePgdir 0 (BitVec.ofNat 32 b.envsPa) uenvs
        (roundPage (nenv * sizeofEnv)) pteG
      .ok { pm, basePgdir
            envs := fun _ => Env.zero
            curenv := none
            envFreeList := slots
            envSchedList := .init
            curPgdir := none
            asidBitmap := fun _ => 0
            mkenvidCount := 0
            schedCount := 0
            kstackTf := .zero }

/-! ## Creating an env -/

/-- Copy the template entries of `[UTOP, UVPT)` into the page directory `p`, and
map the directory at `UVPT`. -/
def fillPgdir (pm : Pmap) (basePgdir p : Nat) : Pmap :=
  ((pm.setWord (p, 509) (pm.mem basePgdir 509)).setWord (p, 510) (pm.mem basePgdir 510)).setWord
    (p, 511) (page2pa p ||| pteV)

def envSetupVm (s : Kernel) (e : EnvIx) : Except Panic (Kernel × Except Err Unit) := do
  match ← pageAlloc s.pm with
  | (pm, .error err) => .ok (s.withPm pm, .error err)
  | (pm, .ok p) => do
      let pm := pm.setRef p (pm.ppRef p + 1)
      let pgdir ← pm.page2kva p
      let s := s.setEnv e fun env => { env with envPgdir := pgdir }
      .ok (s.withPm (fillPgdir pm s.basePgdir pgdir), .ok ())

/-- `STATUS_IM4 | STATUS_KUp | STATUS_IEp`. -/
def userStatus : Word := 0x1000#32 ||| 0x8#32 ||| 0x4#32

/-- `env_alloc`. When no ASID is left the env stays on the free list, with a new
page directory and id. -/
def envAlloc (s : Kernel) (parentId : Word) : Except Panic (Kernel × Except Err EnvIx) :=
  match s.envFreeList with
  | [] => .ok (s, .error .noFreeEnv)
  | e :: rest => do
      match ← envSetupVm s e with
      | (s, .error err) => .ok (s, .error err)
      | (s, .ok ()) =>
          let s := s.setEnv e fun env => { env with envUserTlbModEntry := 0, envRuns := 0 }
          let (s, id) := mkenvid s e
          let s := s.setEnv e fun env => { env with envId := id }
          match asidAlloc s with
          | (s, .error _) => .ok (s, .error .noFreeEnv)
          | (s, .ok asid) =>
              let s := s.setEnv e fun env =>
                { env with
                  envAsid := asid
                  envParentId := parentId
                  envTf :=
                    { env.envTf with
                      cp0Status := userStatus
                      regs := Function.update env.envTf.regs 29 (ustacktop - 8) } }
              .ok ({ s with envFreeList := rest }, .ok e)

/-- A page that `elf_load_seg` asks `load_icode_mapper` to load: the contents are
what the page holds once the bytes of the segment are copied into it. -/
structure IcodePage where
  va : Word
  perm : Word
  contents : Nat → Word

/-- `load_icode_mapper`. It goes on with a wild pointer when no page is left. -/
def loadIcodeMapper (s : Kernel) (e : EnvIx) (page : IcodePage) :
    Except Panic (Kernel × Except Err Unit) := do
  match ← pageAlloc s.pm with
  | (_, .error _) => .error .nullPointer
  | (pm, .ok p) => do
      let kva ← pm.page2kva p
      let pm := { pm with mem := Function.update pm.mem kva page.contents }
      let (pm, r) ← pageInsert pm (s.envs e).envPgdir (s.envs e).envAsid p page.va page.perm
      .ok (s.withPm pm, r)

/-- The pages of the segments are loaded in turn, under `panic_on`. -/
def loadPages (s : Kernel) (e : EnvIx) : List IcodePage → Except Panic Kernel
  | [] => .ok s
  | page :: pages => do
      match ← loadIcodeMapper s e page with
      | (_, .error _) => .error .panicOn
      | (s, .ok ()) => loadPages s e pages

/-- An ELF executable, as `load_icode` sees it: the pages its segments load, and
its entry point. -/
structure Icode where
  pages : List IcodePage
  entry : Word

def loadIcode (s : Kernel) (e : EnvIx) (binary : Icode) : Except Panic Kernel := do
  let s ← loadPages s e binary.pages
  .ok (s.setEnv e fun env => { env with envTf := { env.envTf with cp0Epc := binary.entry } })

/-- `env_create`. It goes on with a wild pointer when `env_alloc` fails. -/
def envCreate (s : Kernel) (binary : Icode) (priority : Word) :
    Except Panic (Kernel × EnvIx) := do
  match ← envAlloc s 0 with
  | (_, .error _) => .error .nullPointer
  | (s, .ok e) => do
      let s := s.setEnv e fun env => { env with envPri := priority, envStatus := .runnable }
      let s ← loadIcode s e binary
      .ok ({ s with envSchedList := s.envSchedList.insertHead e }, e)

/-- What `env_create` does once `env_alloc` has found a slot. -/
theorem envCreate_ok {s s' : Kernel} {e : EnvIx} {binary : Icode} {priority : Word}
    (h : envCreate s binary priority = .ok (s', e)) :
    ∃ s₁ s₂, envAlloc s 0 = .ok (s₁, .ok e) ∧
      loadPages (s₁.setEnv e fun env => { env with envPri := priority, envStatus := .runnable }) e
        binary.pages = .ok s₂ ∧
      s' = { s₂.setEnv e fun env => { env with envTf := { env.envTf with cp0Epc := binary.entry } }
        with envSchedList := s₂.envSchedList.insertHead e } := by
  obtain ⟨⟨s₁, found⟩, alloc, h⟩ := bind_eq_ok.mp h
  cases found with
  | error err => cases h
  | ok e =>
      obtain ⟨s₂, load, h⟩ := bind_eq_ok.mp h
      obtain ⟨s₃, pages, load⟩ := bind_eq_ok.mp load
      cases load
      cases h
      exact ⟨s₁, s₃, alloc, pages, rfl⟩

/-! ## Freeing an env -/

/-- `env_free` unmaps page table entry `pteno` of the table behind `pdeno`. -/
def envFreePte (pgdir : Nat) (asid : Word) (pt pdeno pteno : Nat) (pm : Pmap) :
    Except Panic Pmap :=
  if (pm.mem pt pteno).Has pteV then
    pageRemove pm pgdir asid (BitVec.ofNat 32 (pdeno * 2 ^ 22 + pteno * 2 ^ 12))
  else .ok pm

/-- `env_free` frees the page table behind `pdeno` and what it maps. -/
def envFreePde (pgdir : Nat) (asid : Word) (pdeno : Nat) (pm : Pmap) : Except Panic Pmap :=
  if (pm.mem pgdir pdeno).Has pteV then do
    let pa := pteAddr (pm.mem pgdir pdeno)
    let pt ← pm.kaddr pa
    let pm ← loop (envFreePte pgdir asid pt pdeno) 0 1024 pm
    let pm := pm.setWord (pgdir, pdeno) 0
    let pm ← pageDecref pm (← pm.pa2page pa)
    .ok (pm.tlbInvalidate asid (uvpt + BitVec.ofNat 32 (pdeno * 2 ^ 12)))
  else .ok pm

/-- `env_free`, but for its last step. -/
def envFreeVm (s : Kernel) (e : EnvIx) : Except Panic Kernel := do
  let pgdir := (s.envs e).envPgdir
  let asid := (s.envs e).envAsid
  let pm ← loop (envFreePde pgdir asid) 0 509 s.pm
  let pm ← pageDecref pm (← pm.pa2page (page2pa pgdir))
  let s := asidFree (s.withPm pm) asid
  let s := s.withPm (s.pm.tlbInvalidate asid (uvpt + BitVec.ofNat 32 (511 * 2 ^ 12)))
  let s := s.setEnv e fun env => { env with envStatus := .free }
  .ok { s with envFreeList := e :: s.envFreeList }

/-- `env_free`. -/
def envFree (s : Kernel) (e : EnvIx) : Except Panic Kernel := do
  let s ← envFreeVm s e
  s.schedRemove e

end Mos
