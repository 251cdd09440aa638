import Mos.Env

/-!
# TLB refill

`passive_alloc` and `_do_tlb_refill` of `kern/tlbex.c`.
-/

namespace Mos

def passiveAlloc (s : Pmap) (va : Word) (pgdir : Nat) (asid : Word) : Except Panic Pmap :=
  if va < utemp then .error .addressTooLow
  else if ustacktop ≤ va ∧ va < ustacktop + by2pg then .error .invalidMemory
  else if uenvs ≤ va ∧ va < upages then .error .envsZone
  else if upages ≤ va ∧ va < uvpt then .error .pagesZone
  else if ulim ≤ va then .error .kernelAddress
  else do
    match ← pageAlloc s with
    | (_, .error _) => .error .panicOn
    | (s, .ok p) => do
        match ← pageInsert s pgdir asid p (pteAddr va) pteD with
        | (_, .error _) => .error .panicOn
        | (s, .ok ()) => .ok s

/-- The loop of `_do_tlb_refill`, for `fuel` turns; it returns `*pte`. -/
def tlbRefillLoop (pgdir : Nat) (va asid : Word) : Nat → Pmap → Except Panic (Option (Pmap × Word))
  | 0, _ => .ok none
  | fuel + 1, s => do
      match ← pageLookup s pgdir va with
      | some (_, pte) => .ok (some (s, s.word pte))
      | none => tlbRefillLoop pgdir va asid fuel (← passiveAlloc s va pgdir asid)

/-- `_do_tlb_refill`. -/
def doTlbRefill (s : Kernel) (va asid : Word) (fuel : Nat) :
    Except Panic (Option (Kernel × Word)) := do
  match s.curPgdir with
  | none => .error .nullPointer
  | some pgdir =>
      let r ← tlbRefillLoop pgdir va asid fuel s.pm
      .ok (r.map fun (pm, pte) => (s.withPm pm, pte))

end Mos
