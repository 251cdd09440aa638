import Mos.Cow
import Mos.Lib.Run
import Mos.PageMap

/-!
# Fork is a copy

`fork` copies no page. What the parent could write it shares with the child, and
both may only read it until `cow_entry` copies the page for the one that writes
first. `Spaces` has the address spaces of all processes as maps from page numbers
to physical pages, and the memory calls of `fork` and `cow_entry` on them. `Copies` says
what a fork is for: every page that is not `PTE_LIBRARY` is copied there and then.

`fork_copies`: under any tree of forks and any interleaving of faults, loads and
stores, nobody can tell the two apart. This is so while `fork` and `cow_entry` get the memory
they ask for: `duppage` does not look at what `syscall_mem_map` returns.
-/

namespace Mos

/-! ## Address spaces -/

/-- A physical page, and the flags it is mapped with. -/
abbrev MappedPage := Nat × Word

/-- `VPN(UTEMP)` -/
def vpnUtemp : Nat := 0x3fe

/-- `VPN(UCOW)` -/
def vpnUcow : Nat := 0x3ff

/-- `VPN(USTACKTOP)` -/
def vpnUstacktop : Nat := 0x7f3fe

/-- `VPN(UTOP)` -/
def vpnUtop : Nat := 0x7f400

example : (vpnWord utemp).toNat = vpnUtemp ∧ (vpnWord ucow).toNat = vpnUcow ∧
    (vpnWord ustacktop).toNat = vpnUstacktop ∧ (vpnWord utop).toNat = vpnUtop := by decide

/-- `!is_illegal_va` of a page. -/
def LegalVpn (v : Nat) : Prop := vpnUtemp ≤ v ∧ v < vpnUtop

instance (v : Nat) : Decidable (LegalVpn v) := inferInstanceAs (Decidable (_ ∧ _))

/-- The address spaces of the processes `π`, page by page, and the words of the
physical pages. -/
structure Spaces (π : Type) where
  page : π → Nat → Option MappedPage
  mem : Nat → Nat → Word

namespace Spaces

variable {π : Type} [DecidableEq π]

def setPage (s : Spaces π) (e : π) (v : Nat) (m : Option MappedPage) : Spaces π :=
  { s with page := fun e' v' => if e' = e ∧ v' = v then m else s.page e' v' }

def setMem (s : Spaces π) (f : Nat) (words : Nat → Word) : Spaces π :=
  { s with mem := Function.update s.mem f words }

/-- A page that nobody maps, which `page_alloc` may hand out. -/
def Fresh (s : Spaces π) (g : Nat) : Prop := ∀ e v perm, s.page e v ≠ some (g, perm)

/-- `sys_mem_alloc`, which is given page `g`, or finds no memory left. -/
def memAlloc (s : Spaces π) (e : π) (v : Nat) (perm : Word) (g : Option Nat) : Spaces π :=
  if LegalVpn v then
    match g with
    | none => s
    | some g => (s.setPage e v (some (g, perm ||| pteV))).setMem g fun _ => 0
  else s

/-- `sys_mem_map`, with memory left for a page table. -/
def memMap (s : Spaces π) (e : π) (v : Nat) (e' : π) (v' : Nat) (perm : Word) : Spaces π :=
  if LegalVpn v ∧ LegalVpn v' then
    match s.page e v with
    | none => s
    | some (f, _) => s.setPage e' v' (some (f, perm ||| pteV))
  else s

/-- `sys_mem_unmap` -/
def memUnmap (s : Spaces π) (e : π) (v : Nat) : Spaces π :=
  if LegalVpn v then s.setPage e v none else s

/-- `memcpy` of page `v` to page `v'`, if both are mapped. -/
def copyPage (s : Spaces π) (e : π) (v' v : Nat) : Option (Spaces π) :=
  match s.page e v', s.page e v with
  | some (g, _), some (f, _) => some (s.setMem g (s.mem f))
  | _, _ => none

/-- `duppage` of the process `e`, for the child `c`. -/
def duppage (s : Spaces π) (e c : π) (v : Nat) : Spaces π :=
  match s.page e v with
  | none => s
  | some (_, perm) =>
      if ¬ perm.Has pteD ∨ perm.Has pteLibrary then s.memMap e v c v perm
      else
        let perm := (perm &&& ~~~pteD) ||| pteCow
        (s.memMap e v c v perm).memMap e v e v perm

/-- The loop of `fork` over the pages below `n`. -/
def forkBelow (s : Spaces π) (e c : π) : Nat → Spaces π
  | 0 => s
  | n + 1 =>
      let s := s.forkBelow e c n
      if (s.page e n).isSome then s.duppage e c n else s

/-- `fork` by `e`, with `c` for its child. -/
def fork (s : Spaces π) (e c : π) : Spaces π := s.forkBelow e c vpnUstacktop

/-- `cow_entry` for a fault of `e` in page `v`; its page is `g`. There is no result if
it panics. -/
def cowEntry (s : Spaces π) (e : π) (v g : Nat) : Option (Spaces π) :=
  match s.page e v with
  | none => none
  | some (_, perm) =>
      if ¬ perm.Has pteCow then none
      else
        let perm := (perm &&& pteCow.lnot) ||| pteD
        match (s.memAlloc e vpnUcow (pteD ||| pteV) (some g)).copyPage e vpnUcow v with
        | none => none
        | some s => some ((s.memMap e vpnUcow e v perm).memUnmap e vpnUcow)

def load (s : Spaces π) (e : π) (v i : Nat) : Option Word :=
  (s.page e v).map fun m => s.mem m.1 i

/-- A store that the TLB lets through. -/
def storeNow (s : Spaces π) (e : π) (v i : Nat) (w : Word) : Option (Spaces π) :=
  match s.page e v with
  | none => none
  | some (f, perm) =>
      if perm.Has pteD then some (s.setMem f (Function.update (s.mem f) i w)) else none

/-- A store, which is tried again after `cow_entry` has handled a fault. -/
def store (s : Spaces π) (e : π) (v i : Nat) (w : Word) (g : Nat) : Option (Spaces π) :=
  match s.storeNow e v i w with
  | some s => some s
  | none => (s.cowEntry e v g).bind fun s => s.storeNow e v i w

/-- `env_free`: the process is gone, with all it had mapped. -/
def exit (s : Spaces π) (e : π) : Spaces π :=
  { s with page := fun e' v' => if e' = e then none else s.page e' v' }

end Spaces

/-- What processes do to their address spaces, with the pages they are given and the
words they load. `share` is `sys_mem_map` of an object, or a message with it. -/
inductive SpaceOp (π : Type)
  | alloc (e : π) (v : Nat) (perm : Word) (g : Option Nat)
  | share (e : π) (v : Nat) (e' : π) (v' : Nat) (perm : Word)
  | unmap (e : π) (v : Nat)
  | fork (e c : π)
  | exit (e : π)
  | load (e : π) (v i : Nat) (w : Word)
  | store (e : π) (v i : Nat) (w : Word) (g : Nat)

/-- One step of the processes. A page is asked for with flags, at any address but `UCOW`,
which `cow_entry` keeps to itself, and not with both `PTE_LIBRARY` and `PTE_COW`; only objects
are mapped a second time; a child starts with nothing mapped. -/
def Spaces.Step {π : Type} [DecidableEq π] (s : Spaces π) (op : SpaceOp π) (s' : Spaces π) :
    Prop :=
  match op with
  | .alloc e v perm g => v ≠ vpnUcow ∧ perm < 0x1000#32 ∧
      ¬ (perm.Has pteLibrary ∧ perm.Has pteCow) ∧ (∀ g' ∈ g, s.Fresh g') ∧
      s' = s.memAlloc e v perm g
  | .share e v e' v' perm => v' ≠ vpnUcow ∧ perm < 0x1000#32 ∧ perm.Has pteLibrary ∧
      ¬ perm.Has pteCow ∧ (∀ m ∈ s.page e v, m.2.Has pteLibrary) ∧ s' = s.memMap e v e' v' perm
  | .unmap e v => s' = s.memUnmap e v
  | .fork e c => c ≠ e ∧ (∀ v, s.page c v = none) ∧ s' = s.fork e c
  | .exit e => s' = s.exit e
  | .load e v i w => s.load e v i = some w ∧ s' = s
  | .store e v i w g => s.Fresh g ∧ s.store e v i w g = some s'

/-! ## What a fork is for -/

/-- A page of a process: its own, or an object that it shares. -/
inductive Slot
  | own (words : Nat → Word) (writable : Bool)
  | shared (object : Nat) (writable : Bool)

/-- Processes with pages of their own and shared objects. -/
structure Copies (π : Type) where
  slot : π → Nat → Option Slot
  object : Nat → Nat → Word

namespace Copies

variable {π : Type} [DecidableEq π]

def setSlot (a : Copies π) (e : π) (v : Nat) (x : Option Slot) : Copies π :=
  { a with slot := fun e' v' => if e' = e ∧ v' = v then x else a.slot e' v' }

/-- A new page, an object if it is asked for with `PTE_LIBRARY`. -/
def alloc (a : Copies π) (e : π) (v : Nat) (perm : Word) (g : Option Nat) : Copies π :=
  if LegalVpn v then
    match g with
    | none => a
    | some g =>
        if perm.Has pteLibrary then
          { a.setSlot e v (some (.shared g (decide (perm.Has pteD)))) with
            object := Function.update a.object g fun _ => 0 }
        else a.setSlot e v (some (.own (fun _ => 0) (decide (perm.Has pteD ∨ perm.Has pteCow))))
  else a

/-- The object at `v` is mapped at `v'`, too. -/
def share (a : Copies π) (e : π) (v : Nat) (e' : π) (v' : Nat) (perm : Word) : Copies π :=
  if LegalVpn v ∧ LegalVpn v' then
    match a.slot e v with
    | some (.shared o _) => a.setSlot e' v' (some (.shared o (decide (perm.Has pteD))))
    | _ => a
  else a

/-- The child gets a copy of every page below `USTACKTOP`, and shares the objects. -/
def fork (a : Copies π) (e c : π) : Copies π :=
  { a with slot := fun e' v' => if e' = c ∧ v' < vpnUstacktop then a.slot e v' else a.slot e' v' }

def load (a : Copies π) (e : π) (v i : Nat) : Option Word :=
  match a.slot e v with
  | none => none
  | some (.own words _) => some (words i)
  | some (.shared o _) => some (a.object o i)

def store (a : Copies π) (e : π) (v i : Nat) (w : Word) : Option (Copies π) :=
  match a.slot e v with
  | some (.own words true) => some (a.setSlot e v (some (.own (Function.update words i w) true)))
  | some (.shared o true) =>
      some { a with object := Function.update a.object o (Function.update (a.object o) i w) }
  | _ => none

def step (a : Copies π) : SpaceOp π → Option (Copies π)
  | .alloc e v perm g => some (a.alloc e v perm g)
  | .share e v e' v' perm => some (a.share e v e' v' perm)
  | .unmap e v => some (if LegalVpn v then a.setSlot e v none else a)
  | .fork e c => some (a.fork e c)
  | .exit e => some { a with slot := fun e' v' => if e' = e then none else a.slot e' v' }
  | .load e v i w => if a.load e v i = some w then some a else none
  | .store e v i w _ => a.store e v i w

end Copies

/-! ## Flags -/

/-- A mask that keeps a flag does not matter to it. -/
theorem Word.has_and_of_kept {mask flag : Word} (kept : mask &&& flag = flag) (w : Word) :
    (w &&& mask).Has flag ↔ w.Has flag := by
  unfold Word.Has
  rw [BitVec.and_assoc, kept]

/-- Other flags that are set do not matter to a flag. -/
theorem Word.has_or_of_apart {other flag : Word} (apart : ¬ other.Has flag) (w : Word) :
    (w ||| other).Has flag ↔ w.Has flag := by
  rw [Word.has_or]
  exact or_iff_left apart

/-- The flags that a page has after `duppage`, before `sys_mem_map` sets `PTE_V`. -/
def dupFlags (perm : Word) : Word :=
  if ¬ perm.Has pteD ∨ perm.Has pteLibrary then perm else (perm &&& ~~~pteD) ||| pteCow

/-- The flags the parent's own page has after `duppage`. -/
def parentFlags (perm : Word) : Word :=
  if ¬ perm.Has pteD ∨ perm.Has pteLibrary then perm else dupFlags perm ||| pteV

section Flags

variable (perm : Word)

@[simp] theorem valid_has_d : (perm ||| pteV).Has pteD ↔ perm.Has pteD :=
  Word.has_or_of_apart (by decide) perm

@[simp] theorem valid_has_cow : (perm ||| pteV).Has pteCow ↔ perm.Has pteCow :=
  Word.has_or_of_apart (by decide) perm

@[simp] theorem valid_has_library : (perm ||| pteV).Has pteLibrary ↔ perm.Has pteLibrary :=
  Word.has_or_of_apart (by decide) perm

theorem dupFlags_library : (dupFlags perm).Has pteLibrary ↔ perm.Has pteLibrary := by
  unfold dupFlags
  split
  · rfl
  · rw [Word.has_or_of_apart (by decide), Word.has_and_of_kept (by decide)]

/-- Only a shared page can be written to after `duppage`. -/
theorem dupFlags_d : (dupFlags perm).Has pteD ↔ perm.Has pteD ∧ perm.Has pteLibrary := by
  unfold dupFlags
  split
  case isTrue plain =>
    constructor
    · intro writable
      exact ⟨writable, plain.resolve_left fun no => no writable⟩
    · exact And.left
  case isFalse writable =>
    push Not at writable
    refine iff_of_false ?_ fun both => writable.2 both.2
    have cleared : (~~~pteD : Word) &&& pteD = 0#32 := by decide
    rw [Word.has_or_of_apart (by decide)]
    unfold Word.Has
    rw [BitVec.and_assoc, cleared, BitVec.and_zero]
    exact not_not_intro rfl

theorem dupFlags_cow : (dupFlags perm).Has pteCow ↔
    perm.Has pteCow ∨ (perm.Has pteD ∧ ¬ perm.Has pteLibrary) := by
  unfold dupFlags
  split
  case isTrue plain =>
    refine (or_iff_left fun both => ?_).symm
    exact plain.elim (fun no => no both.1) both.2
  case isFalse writable =>
    push Not at writable
    refine iff_of_true ?_ (.inr writable)
    rw [Word.has_or]
    exact .inr (by decide)

end Flags

namespace Spaces

variable {π : Type} [DecidableEq π] {s s' : Spaces π} {e e' c : π} {v v' i f g n : Nat}
  {perm perm' w : Word} {m : MappedPage}

/-! ## What the calls do -/

@[simp] theorem page_setPage {x : Option MappedPage} :
    (s.setPage e v x).page e' v' = if e' = e ∧ v' = v then x else s.page e' v' := rfl

@[simp] theorem mem_setPage {x : Option MappedPage} : (s.setPage e v x).mem = s.mem := rfl

omit [DecidableEq π] in
@[simp] theorem page_setMem {words : Nat → Word} : (s.setMem f words).page = s.page := rfl

omit [DecidableEq π] in
@[simp] theorem mem_setMem {words : Nat → Word} :
    (s.setMem f words).mem = Function.update s.mem f words := rfl

/-- Every mapping lies where memory calls may put it, and `UCOW` is free. -/
def Legal (s : Spaces π) : Prop := ∀ e v m, s.page e v = some m → LegalVpn v ∧ v ≠ vpnUcow

theorem legal_ucow : LegalVpn vpnUcow := by decide

/-- `duppage` of a mapped page, in one step. -/
theorem duppage_eq (legal : s.Legal) (other : c ≠ e) (here : s.page e v = some (f, perm)) :
    s.duppage e c v = ⟨fun e' v' =>
      if e' = c ∧ v' = v then some (f, dupFlags perm ||| pteV)
      else if e' = e ∧ v' = v then some (f, parentFlags perm)
      else s.page e' v', s.mem⟩ := by
  have inside := (legal e v _ here).1
  have self : e ≠ c := fun same => other same.symm
  simp only [duppage, here, memMap, inside, and_self, if_true, parentFlags, dupFlags]
  split
  case isTrue plain =>
    simp only [setPage]
    congr 1
    funext e' v'
    by_cases child : e' = c ∧ v' = v
    · rw [if_pos child, if_pos child]
    · rw [if_neg child, if_neg child]
      by_cases parent : e' = e ∧ v' = v
      · rw [if_pos parent, parent.1, parent.2, here]
      · rw [if_neg parent]
  case isFalse writable =>
    simp only [setPage, self, false_and, if_false, here]
    congr 1
    funext e' v'
    by_cases child : e' = c ∧ v' = v
    · have notParent : ¬ (e' = e ∧ v' = v) := fun same => other (child.1.symm.trans same.1)
      rw [if_pos child, if_neg notParent, if_pos child]
    · rw [if_neg child, if_neg child]

theorem parentFlags_alike (perm : Word) :
    ((parentFlags perm).Has pteLibrary ↔ (dupFlags perm).Has pteLibrary) ∧
      ((parentFlags perm).Has pteD ↔ (dupFlags perm).Has pteD) ∧
      ((parentFlags perm).Has pteCow ↔ (dupFlags perm).Has pteCow) := by
  unfold parentFlags
  split
  case isTrue plain =>
    have same : dupFlags perm = perm := if_pos plain
    rw [same]
    exact ⟨Iff.rfl, Iff.rfl, Iff.rfl⟩
  case isFalse => exact ⟨valid_has_library _, valid_has_d _, valid_has_cow _⟩

/-- The loop of `fork`: parent and child share every page of the parent below `n`. -/
theorem forkBelow_eq (legal : s.Legal) (other : c ≠ e) (empty : ∀ v, s.page c v = none) (n : Nat) :
    s.forkBelow e c n = ⟨fun e' v' =>
      if v' < n then
        if e' = c then (s.page e v').map fun m => (m.1, dupFlags m.2 ||| pteV)
        else if e' = e then (s.page e v').map fun m => (m.1, parentFlags m.2)
        else s.page e' v'
      else s.page e' v', s.mem⟩ := by
  induction n with
  | zero => simp [forkBelow]
  | succ n ih =>
      have here : (s.forkBelow e c n).page e n = s.page e n := by
        rw [ih]
        exact if_neg (Nat.lt_irrefl n)
      have legal' : (s.forkBelow e c n).Legal := by
        intro e' v' m mapped
        rw [ih] at mapped
        simp only at mapped
        split at mapped
        · split at mapped
          · obtain ⟨m', mapped, -⟩ := Option.map_eq_some_iff.mp mapped
            exact legal e v' m' mapped
          · split at mapped
            · obtain ⟨m', mapped, -⟩ := Option.map_eq_some_iff.mp mapped
              exact legal e v' m' mapped
            · exact legal e' v' m mapped
        · exact legal e' v' m mapped
      unfold forkBelow
      simp only [here]
      cases mapped : s.page e n with
      | none =>
          rw [if_neg (by simp), ih]
          congr 1
          funext e' v'
          rcases Nat.lt_trichotomy v' n with below | rfl | above
          · rw [if_pos below, if_pos (Nat.lt_succ_of_lt below)]
          · rw [if_neg (Nat.lt_irrefl _), if_pos (Nat.lt_succ_self _), mapped]
            split
            · next child => rw [child, empty]; rfl
            · split
              · next parent => rw [parent, mapped]; rfl
              · rfl
          · rw [if_neg (by omega), if_neg (by omega)]
      | some m =>
          obtain ⟨f, perm⟩ := m
          rw [if_pos (by simp), duppage_eq legal' other (here.trans mapped), ih]
          congr 1
          funext e' v'
          rcases Nat.lt_trichotomy v' n with below | rfl | above
          · have away : v' ≠ n := Nat.ne_of_lt below
            simp [away, below, Nat.lt_succ_of_lt below]
          · simp only [and_true, Nat.lt_irrefl, if_false, Nat.lt_succ_self, if_true, mapped,
              Option.map_some, parentFlags]
          · have away : v' ≠ n := Nat.ne_of_gt above
            have out : ¬ v' < n + 1 := by omega
            have out' : ¬ v' < n := by omega
            simp [away, out, out']

/-- `cow_entry`: the process has a page of its own, with the same words. -/
theorem cowEntry_eq (legal : s.Legal) (fresh : s.Fresh g) (h : s.cowEntry e v g = some s') :
    ∃ f perm, s.page e v = some (f, perm) ∧ perm.Has pteCow ∧
      s' = (s.setPage e v (some (g, pteD ||| pteV))).setMem g (s.mem f) := by
  unfold cowEntry at h
  cases here : s.page e v with
  | none => rw [here] at h; cases h
  | some m =>
      obtain ⟨f, perm⟩ := m
      rw [here] at h
      by_cases cow : perm.Has pteCow
      case neg => simp [cow] at h
      obtain ⟨inside, away⟩ := legal e v _ here
      have other : f ≠ g := by
        intro same
        exact fresh e v perm (same ▸ here)
      have free : s.page e vpnUcow = none := by
        cases found : s.page e vpnUcow with
        | none => rfl
        | some m => exact absurd rfl (legal e vpnUcow m found).2
      have none_left : pteCow.lnot = 0#32 := rfl
      simp only [not_not_intro cow, if_false, memAlloc, legal_ucow, if_true, copyPage, page_setMem,
        page_setPage, and_self, away, and_false, here, memMap, inside, memUnmap, mem_setMem,
        mem_setPage, none_left, BitVec.and_zero, BitVec.zero_or, Option.some.injEq] at h
      refine ⟨f, perm, rfl, cow, h.symm.trans ?_⟩
      unfold setMem setPage
      congr 1
      · funext e' v'
        by_cases scratch : e' = e ∧ v' = vpnUcow
        · obtain ⟨rfl, rfl⟩ := scratch
          simp [free, away.symm]
        · simp only [if_neg scratch]
      · simp [Function.update_of_ne other]

/-! ## Who shares what -/

/-- A physical page is shared as an object by all who map it, or it can be written to
by one process only, at one address, and nobody else maps it, or nobody can write to
it before `cow_entry` has made a copy. -/
structure WellShared (s : Spaces π) : Prop where
  legal : s.Legal
  objects : ∀ {e e' v v' f perm perm'}, s.page e v = some (f, perm) →
    s.page e' v' = some (f, perm') → (perm.Has pteLibrary ↔ perm'.Has pteLibrary)
  notCow : ∀ {e v f perm}, s.page e v = some (f, perm) → perm.Has pteLibrary → ¬ perm.Has pteCow
  single : ∀ {e e' v v' f perm perm'}, s.page e v = some (f, perm) → ¬ perm.Has pteLibrary →
    perm.Has pteD → s.page e' v' = some (f, perm') → e' = e ∧ v' = v

omit [DecidableEq π] in
/-- Fewer mappings are as well shared. -/
theorem WellShared.mono (shared : s.WellShared)
    (fewer : ∀ e v m, s'.page e v = some m → s.page e v = some m) : s'.WellShared where
  legal e v m mapped := shared.legal e v m (fewer _ _ _ mapped)
  objects mapped mapped' := shared.objects (fewer _ _ _ mapped) (fewer _ _ _ mapped')
  notCow mapped := shared.notCow (fewer _ _ _ mapped)
  single mapped private' writable mapped' :=
    shared.single (fewer _ _ _ mapped) private' writable (fewer _ _ _ mapped')

/-- Nobody else maps a fresh page when it is mapped. -/
theorem page_setPage_fresh (fresh : s.Fresh g)
    (mapped : (s.setPage e v (some (g, perm))).page e' v' = some (g, perm')) :
    e' = e ∧ v' = v ∧ perm' = perm := by
  rw [page_setPage] at mapped
  split at mapped
  case isTrue here =>
    cases mapped
    exact ⟨here.1, here.2, rfl⟩
  case isFalse => exact absurd mapped (fresh e' v' perm')

theorem WellShared.setPage (shared : s.WellShared) (fresh : s.Fresh g) (inside : LegalVpn v)
    (away : v ≠ vpnUcow) (notCow : ¬ (perm.Has pteLibrary ∧ perm.Has pteCow)) :
    (s.setPage e v (some (g, perm))).WellShared := by
  have old : ∀ {e' v' f perm'}, f ≠ g →
      (s.setPage e v (some (g, perm))).page e' v' = some (f, perm') →
        s.page e' v' = some (f, perm') := by
    intro e' v' f perm' other mapped
    rw [page_setPage] at mapped
    split at mapped
    · cases mapped
      exact absurd rfl other
    · exact mapped
  refine ⟨fun e' v' m mapped => ?_, fun {e₁ e₂ v₁ v₂ f p₁ p₂} mapped mapped' => ?_,
    fun {e₁ v₁ f p₁} mapped library cow => ?_,
    fun {e₁ e₂ v₁ v₂ f p₁ p₂} mapped own writable mapped' => ?_⟩
  · rw [page_setPage] at mapped
    split at mapped
    case isTrue here => exact here.2 ▸ ⟨inside, away⟩
    case isFalse => exact shared.legal e' v' m mapped
  · by_cases new : f = g
    · subst new
      obtain ⟨-, -, same⟩ := page_setPage_fresh fresh mapped
      obtain ⟨-, -, same'⟩ := page_setPage_fresh fresh mapped'
      rw [same, same']
    · exact shared.objects (old new mapped) (old new mapped')
  · by_cases new : f = g
    · subst new
      obtain ⟨-, -, same⟩ := page_setPage_fresh fresh mapped
      exact notCow (same ▸ ⟨library, cow⟩)
    · exact shared.notCow (old new mapped) library cow
  · by_cases new : f = g
    · subst new
      obtain ⟨rfl, rfl, -⟩ := page_setPage_fresh fresh mapped
      obtain ⟨rfl, rfl, -⟩ := page_setPage_fresh fresh mapped'
      exact ⟨rfl, rfl⟩
    · exact shared.single (old new mapped) own writable (old new mapped')

/-- Where a mapping after a fork comes from: a mapping of the same page, of the process
itself or of the parent. Below `USTACKTOP` parent and child have no page to write to but
objects. -/
theorem fork_page (legal : s.Legal) (other : c ≠ e) (empty : ∀ v, s.page c v = none)
    (mapped : (s.fork e c).page e' v = some (f, perm)) :
    ∃ e₀ perm₀, s.page e₀ v = some (f, perm₀) ∧ (e₀ = e' ∨ (e' = c ∧ e₀ = e ∧ v < vpnUstacktop)) ∧
      ((e' ≠ c ∧ (e' ≠ e ∨ ¬ v < vpnUstacktop) ∧ perm = perm₀) ∨
        (perm.Has pteLibrary ↔ (dupFlags perm₀).Has pteLibrary) ∧
          (perm.Has pteD ↔ (dupFlags perm₀).Has pteD) ∧
          (perm.Has pteCow ↔ (dupFlags perm₀).Has pteCow)) := by
  rw [fork, forkBelow_eq legal other empty] at mapped
  simp only at mapped
  have notChild : ∀ {m}, s.page e' v = some m → e' ≠ c := by
    intro m here same
    rw [same, empty] at here
    cases here
  split at mapped
  case isTrue below =>
    split at mapped
    case isTrue child =>
      obtain ⟨m, here, same⟩ := Option.map_eq_some_iff.mp mapped
      cases same
      exact ⟨e, m.2, here, .inr ⟨child, rfl, below⟩, .inr ⟨valid_has_library _, valid_has_d _,
        valid_has_cow _⟩⟩
    case isFalse notChild =>
      split at mapped
      case isTrue parent =>
        obtain ⟨m, here, same⟩ := Option.map_eq_some_iff.mp mapped
        cases same
        exact ⟨e, m.2, here, .inl parent.symm, .inr (parentFlags_alike m.2)⟩
      case isFalse bystander =>
        exact ⟨e', perm, mapped, .inl rfl, .inl ⟨notChild, .inl bystander, rfl⟩⟩
  case isFalse above =>
    exact ⟨e', perm, mapped, .inl rfl, .inl ⟨notChild mapped, .inr above, rfl⟩⟩

theorem WellShared.fork (shared : s.WellShared) (other : c ≠ e) (empty : ∀ v, s.page c v = none) :
    (s.fork e c).WellShared := by
  have library : ∀ {e' v f perm}, (s.fork e c).page e' v = some (f, perm) →
      ∃ e₀ perm₀, s.page e₀ v = some (f, perm₀) ∧
        (perm.Has pteLibrary ↔ perm₀.Has pteLibrary) := by
    intro e' v f perm mapped
    obtain ⟨e₀, perm₀, before, -, ⟨-, -, rfl⟩ | ⟨same, -⟩⟩ :=
      fork_page shared.legal other empty mapped
    · exact ⟨e₀, perm, before, Iff.rfl⟩
    · exact ⟨e₀, perm₀, before, same.trans (dupFlags_library _)⟩
  refine ⟨fun e' v m mapped => ?_, fun mapped mapped' => ?_, fun mapped object cow => ?_,
    fun {e₁ e₂ v₁ v₂ f p₁ p₂} mapped own writable mapped' => ?_⟩
  · obtain ⟨e₀, perm₀, before, -⟩ := library mapped
    exact shared.legal e₀ v _ before
  · obtain ⟨e₀, perm₀, before, same⟩ := library mapped
    obtain ⟨e₁, perm₁, before', same'⟩ := library mapped'
    rw [same, same']
    exact shared.objects before before'
  · obtain ⟨e₀, perm₀, before, -, ⟨-, -, rfl⟩ | ⟨same, -, same'⟩⟩ :=
      fork_page shared.legal other empty mapped
    · exact shared.notCow before object cow
    · have object₀ := (dupFlags_library _).mp (same.mp object)
      obtain cow₀ | ⟨-, own₀⟩ := (dupFlags_cow _).mp (same'.mp cow)
      · exact shared.notCow before object₀ cow₀
      · exact own₀ object₀
  · obtain ⟨e₀, perm₀, before, origin, ⟨notChild, away, rfl⟩ | ⟨same, same', -⟩⟩ :=
      fork_page shared.legal other empty mapped
    · obtain rfl := origin.resolve_right fun child => notChild child.1
      obtain ⟨e₃, perm₃, before', origin', -⟩ := fork_page shared.legal other empty mapped'
      obtain ⟨rfl, rfl⟩ := shared.single before own writable before'
      obtain rfl | ⟨-, parent, below⟩ := origin'
      · exact ⟨rfl, rfl⟩
      · exact (away.elim (fun no => no parent) fun no => no below).elim
    · exact absurd (same.mpr ((dupFlags_library _).mpr ((dupFlags_d _).mp (same'.mp writable)).2)) own

/-! ## Copies -/

/-- What a mapping stands for. -/
def slotOf (mem : Nat → Nat → Word) (m : MappedPage) : Slot :=
  if m.2.Has pteLibrary then .shared m.1 (decide (m.2.Has pteD))
  else .own (mem m.1) (decide (m.2.Has pteD ∨ m.2.Has pteCow))

/-- The address spaces as copies of pages. -/
def copies (s : Spaces π) : Copies π where
  slot e v := (s.page e v).map (slotOf s.mem)
  object := s.mem

/-- `a` has the pages of `s`, and the objects that somebody maps. -/
structure Shows (s : Spaces π) (a : Copies π) : Prop where
  slots : ∀ e v, a.slot e v = (s.page e v).map (slotOf s.mem)
  objects : ∀ {e v f perm}, s.page e v = some (f, perm) → perm.Has pteLibrary →
    a.object f = s.mem f

omit [DecidableEq π] in
theorem shows_copies (s : Spaces π) : s.Shows s.copies := ⟨fun _ _ => rfl, fun _ _ => rfl⟩

theorem slotOf_congr {mem mem' : Nat → Nat → Word} (same : mem' m.1 = mem m.1) :
    slotOf mem' m = slotOf mem m := by
  unfold slotOf
  rw [same]

/-- An object's slot does not depend on the words. -/
theorem slotOf_library {mem : Nat → Nat → Word} (object : perm.Has pteLibrary) :
    slotOf mem (f, perm) = .shared f (decide (perm.Has pteD)) := if_pos object

theorem slotOf_own {mem : Nat → Nat → Word} (own : ¬ perm.Has pteLibrary) :
    slotOf mem (f, perm) = .own (mem f) (decide (perm.Has pteD ∨ perm.Has pteCow)) := if_neg own

/-- `duppage` changes nothing that a process could tell. -/
theorem slotOf_dup {mem : Nat → Nat → Word}
    (alike : (perm'.Has pteLibrary ↔ (dupFlags perm).Has pteLibrary) ∧
      (perm'.Has pteD ↔ (dupFlags perm).Has pteD) ∧
      (perm'.Has pteCow ↔ (dupFlags perm).Has pteCow)) :
    slotOf mem (f, perm') = slotOf mem (f, perm) := by
  obtain ⟨library, writable, cow⟩ := alike
  rw [dupFlags_library] at library
  rw [dupFlags_d] at writable
  rw [dupFlags_cow] at cow
  by_cases object : perm.Has pteLibrary
  · rw [slotOf_library object, slotOf_library (library.mpr object)]
    simp [writable, object]
  · rw [slotOf_own object, slotOf_own fun object' => object (library.mp object')]
    simp [writable, cow, object, or_comm]

/-! ## One step -/

section Step

variable {a : Copies π} (shared : s.WellShared) (shows' : s.Shows a)

include shared shows'

theorem Shows.alloc (away : v ≠ vpnUcow) (notCow : ¬ (perm.Has pteLibrary ∧ perm.Has pteCow))
    (fresh : s.Fresh g) : (s.memAlloc e v perm (some g)).WellShared ∧
      (s.memAlloc e v perm (some g)).Shows (a.alloc e v perm (some g)) := by
  unfold memAlloc Copies.alloc
  by_cases inside : LegalVpn v
  case neg =>
    rw [if_neg inside, if_neg inside]
    exact ⟨shared, shows'⟩
  rw [if_pos inside, if_pos inside]
  have notCow' : ¬ ((perm ||| pteV).Has pteLibrary ∧ (perm ||| pteV).Has pteCow) := by
    rwa [valid_has_library, valid_has_cow]
  have shared' := shared.setPage (e := e) fresh inside away notCow'
  refine ⟨⟨shared'.legal, shared'.objects, shared'.notCow, shared'.single⟩, ?_, ?_⟩
  · intro e' v'
    have elsewhere : ∀ m, s.page e' v' = some m →
        slotOf (Function.update s.mem g fun _ => 0) m = slotOf s.mem m := by
      intro m mapped
      apply slotOf_congr
      apply Function.update_of_ne
      intro same
      exact fresh e' v' m.2 (same ▸ mapped)
    simp only [page_setMem, page_setPage, mem_setMem, mem_setPage]
    by_cases here : e' = e ∧ v' = v
    · by_cases object : perm.Has pteLibrary
      · simp [here, Copies.setSlot, object, slotOf]
      · simp [here, Copies.setSlot, object, slotOf]
    · have kept : a.slot e' v' = (s.page e' v').map
          (slotOf (Function.update s.mem g fun _ => 0)) := by
        rw [shows'.slots]
        exact Option.map_congr fun m mapped => (elsewhere m mapped).symm
      by_cases object : perm.Has pteLibrary
      · simpa [here, Copies.setSlot, object] using kept
      · simpa [here, Copies.setSlot, object] using kept
  · intro e' v' f perm' mapped object'
    simp only [page_setMem, mem_setMem, mem_setPage] at mapped ⊢
    by_cases new : f = g
    · subst new
      obtain ⟨-, -, same⟩ := page_setPage_fresh fresh mapped
      rw [same, valid_has_library] at object'
      simp [object']
    · have before : s.page e' v' = some (f, perm') := by
        rw [page_setPage] at mapped
        split at mapped
        · cases mapped
          exact absurd rfl new
        · exact mapped
      rw [Function.update_of_ne new, ← shows'.objects before object']
      by_cases object : perm.Has pteLibrary
      · simp [object, Function.update_of_ne new, Copies.setSlot]
      · simp [object, Copies.setSlot]

/-- An object that is mapped once more stays one object. -/
theorem Shows.share (away : v' ≠ vpnUcow) (object : perm.Has pteLibrary)
    (notCow : ¬ perm.Has pteCow) (objects : ∀ m ∈ s.page e v, m.2.Has pteLibrary) :
    (s.memMap e v e' v' perm).WellShared ∧
      (s.memMap e v e' v' perm).Shows (a.share e v e' v' perm) := by
  unfold memMap Copies.share
  by_cases inside : LegalVpn v ∧ LegalVpn v'
  case neg =>
    rw [if_neg inside, if_neg inside]
    exact ⟨shared, shows'⟩
  rw [if_pos inside, if_pos inside, shows'.slots]
  cases here : s.page e v with
  | none => exact ⟨shared, shows'⟩
  | some m =>
      obtain ⟨f, perm₀⟩ := m
      have object₀ : perm₀.Has pteLibrary := objects _ here
      have origin : ∀ {e₁ v₁ f₁ perm₁},
          (s.setPage e' v' (some (f, perm ||| pteV))).page e₁ v₁ = some (f₁, perm₁) →
            s.page e₁ v₁ = some (f₁, perm₁) ∨
              (e₁ = e' ∧ v₁ = v' ∧ f₁ = f ∧ perm₁ = perm ||| pteV) := by
        intro e₁ v₁ f₁ perm₁ mapped
        rw [page_setPage] at mapped
        split at mapped
        case isTrue at' =>
          cases mapped
          exact .inr ⟨at'.1, at'.2, rfl, rfl⟩
        case isFalse => exact .inl mapped
      have library : ∀ {e₁ v₁ f₁ perm₁},
          (s.setPage e' v' (some (f, perm ||| pteV))).page e₁ v₁ = some (f₁, perm₁) →
            ∃ e₂ v₂ perm₂, s.page e₂ v₂ = some (f₁, perm₂) ∧
              (perm₁.Has pteLibrary ↔ perm₂.Has pteLibrary) := by
        intro e₁ v₁ f₁ perm₁ mapped
        rcases origin mapped with before | ⟨-, -, rfl, rfl⟩
        · exact ⟨_, _, _, before, Iff.rfl⟩
        · exact ⟨e, v, perm₀, here, by simp [object, object₀]⟩
      refine ⟨⟨?_, ?_, ?_, ?_⟩, fun e₁ v₁ => ?_, ?_⟩
      · intro e₁ v₁ m mapped
        rcases @origin e₁ v₁ m.1 m.2 mapped with before | ⟨-, rfl, -, -⟩
        · exact shared.legal e₁ v₁ m before
        · exact ⟨inside.2, away⟩
      · intro e₁ e₂ v₁ v₂ f₁ p₁ p₂ mapped mapped'
        obtain ⟨_, _, _, before, same⟩ := library mapped
        obtain ⟨_, _, _, before', same'⟩ := library mapped'
        rw [same, same']
        exact shared.objects before before'
      · intro e₁ v₁ f₁ p₁ mapped object₁
        rcases origin mapped with before | ⟨-, -, rfl, rfl⟩
        · exact shared.notCow before object₁
        · rwa [valid_has_cow]
      · intro e₁ e₂ v₁ v₂ f₁ p₁ p₂ mapped own writable mapped'
        have before : s.page e₁ v₁ = some (f₁, p₁) := by
          rcases origin mapped with before | ⟨-, -, -, rfl⟩
          · exact before
          · exact absurd ((valid_has_library perm).mpr object) own
        rcases origin mapped' with before' | ⟨-, -, rfl, -⟩
        · exact shared.single before own writable before'
        · exact absurd ((shared.objects before here).mpr object₀) own
      · rw [Option.map_some, slotOf_library object₀]
        simp only [Copies.setSlot, page_setPage, mem_setPage]
        split
        · rw [Option.map_some, slotOf_library (by simpa using object)]
          simp
        · exact shows'.slots e₁ v₁
      · intro e₁ v₁ f₁ p₁ mapped object₁
        obtain ⟨_, _, _, before, same⟩ := library mapped
        rw [Option.map_some, slotOf_library object₀]
        exact shows'.objects before (same.mp object₁)

theorem Shows.fork (other : c ≠ e) (empty : ∀ v, s.page c v = none) :
    (s.fork e c).Shows (a.fork e c) := by
  have mem : (s.fork e c).mem = s.mem := by rw [Spaces.fork, forkBelow_eq shared.legal other empty]
  refine ⟨fun e' v => ?_, fun {e' v f perm} mapped object => ?_⟩
  · rw [mem, Spaces.fork, forkBelow_eq shared.legal other empty]
    simp only [Copies.fork, shows'.slots]
    by_cases below : v < vpnUstacktop
    · by_cases child : e' = c
      · simp only [child, below, and_self, if_true, Option.map_map]
        refine Option.map_congr fun m _ => ?_
        exact (slotOf_dup ⟨valid_has_library _, valid_has_d _, valid_has_cow _⟩).symm
      · simp only [child, below, false_and, if_false, if_true]
        by_cases parent : e' = e
        · simp only [parent, if_true, Option.map_map]
          exact Option.map_congr fun m _ => (slotOf_dup (parentFlags_alike m.2)).symm
        · simp only [parent, if_false]
    · simp only [below, and_false, if_false]
  · rw [mem]
    obtain ⟨e₀, perm₀, before, -, ⟨-, -, same⟩ | ⟨same, -⟩⟩ :=
      fork_page shared.legal other empty mapped
    · exact shows'.objects before (same ▸ object)
    · exact shows'.objects before ((dupFlags_library _).mp (same.mp object))

/-- `cow_entry` changes nothing that a process could tell. -/
theorem Shows.cowEntry (fresh : s.Fresh g) (h : s.cowEntry e v g = some s') :
    s'.WellShared ∧ s'.Shows a := by
  obtain ⟨f, perm, here, cow, rfl⟩ := cowEntry_eq shared.legal fresh h
  obtain ⟨inside, away⟩ := shared.legal e v _ here
  have own : ¬ perm.Has pteLibrary := fun object => shared.notCow here object cow
  have shared' : (s.setPage e v (some (g, pteD ||| pteV))).WellShared :=
    shared.setPage fresh inside away (by decide)
  refine ⟨⟨shared'.legal, shared'.objects, shared'.notCow, shared'.single⟩, fun e' v' => ?_,
    fun {e' v' f' perm'} mapped object => ?_⟩
  · simp only [page_setMem, page_setPage, mem_setMem, mem_setPage]
    rw [shows'.slots]
    split
    case isTrue at' =>
      have owned : ¬ (pteD ||| pteV).Has pteLibrary := by decide
      have writable : (pteD ||| pteV).Has pteD ∨ (pteD ||| pteV).Has pteCow := by decide
      rw [at'.1, at'.2, here, Option.map_some, Option.map_some, slotOf_own own, slotOf_own owned,
        Function.update_self, decide_eq_true (.inr cow), decide_eq_true writable]
    case isFalse =>
      refine Option.map_congr fun m mapped => (slotOf_congr ?_).symm
      apply Function.update_of_ne
      intro same
      exact fresh e' v' m.2 (same ▸ mapped)
  · simp only [page_setMem, mem_setMem, mem_setPage] at mapped ⊢
    by_cases new : f' = g
    · subst new
      obtain ⟨-, -, rfl⟩ := page_setPage_fresh fresh mapped
      exact absurd object (by decide)
    · rw [Function.update_of_ne new]
      have before : s.page e' v' = some (f', perm') := by
        rw [page_setPage] at mapped
        split at mapped
        · cases mapped
          exact absurd rfl new
        · exact mapped
      exact shows'.objects before object

/-- A store that goes through is a store to the process's own page, or to the object. -/
theorem Shows.storeNow (h : s.storeNow e v i w = some s') :
    s'.WellShared ∧ ∃ a', a.store e v i w = some a' ∧ s'.Shows a' := by
  unfold Spaces.storeNow at h
  cases here : s.page e v with
  | none => rw [here] at h; cases h
  | some m =>
      obtain ⟨f, perm⟩ := m
      rw [here] at h
      by_cases writable : perm.Has pteD
      case neg => simp [writable] at h
      simp only [writable, if_true, Option.some.injEq] at h
      subst h
      refine ⟨⟨shared.legal, shared.objects, shared.notCow, shared.single⟩, ?_⟩
      have slot := shows'.slots e v
      rw [here, Option.map_some] at slot
      by_cases object : perm.Has pteLibrary
      · rw [slotOf_library object, decide_eq_true writable] at slot
        refine ⟨_, by rw [Copies.store, slot], fun e' v' => ?_, fun {e' v' f' perm'} mapped _ => ?_⟩
        · rw [shows'.slots]
          refine Option.map_congr fun m mapped => ?_
          obtain ⟨f', perm'⟩ := m
          by_cases same : f' = f
          · subst same
            have object' := (shared.objects here mapped).mp object
            rw [slotOf_library object', slotOf_library object']
          · exact (slotOf_congr (Function.update_of_ne same _ _)).symm
        · by_cases same : f' = f
          · simp [same, shows'.objects here object]
          · rename_i object'
            simp [Function.update_of_ne same, shows'.objects mapped object']
      · rw [slotOf_own object, decide_eq_true (.inl writable)] at slot
        refine ⟨_, by rw [Copies.store, slot], fun e' v' => ?_,
          fun {e' v' f' perm'} mapped object' => ?_⟩
        · simp only [Copies.setSlot, page_setMem, mem_setMem]
          split
          case isTrue at' =>
            rw [at'.1, at'.2, here, Option.map_some, slotOf_own object, Function.update_self,
              decide_eq_true (.inl writable)]
          case isFalse away =>
            rw [shows'.slots]
            refine Option.map_congr fun m mapped => (slotOf_congr ?_).symm
            apply Function.update_of_ne
            rintro rfl
            exact away (shared.single here object writable mapped)
        · have apart : f' ≠ f := by
            rintro rfl
            exact object ((shared.objects here mapped).mpr object')
          simp only [mem_setMem, Function.update_of_ne apart]
          exact shows'.objects mapped object'

omit [DecidableEq π] shared in
theorem Shows.load : a.load e v i = s.load e v i := by
  unfold Copies.load Spaces.load
  rw [shows'.slots]
  cases here : s.page e v with
  | none => rfl
  | some m =>
      obtain ⟨f, perm⟩ := m
      by_cases object : perm.Has pteLibrary
      · simp [slotOf_library object, shows'.objects here object]
      · simp [slotOf_own object]

/-- Every step is one of the copies, with the same words loaded. -/
theorem Shows.step {op : SpaceOp π} (step : s.Step op s') :
    s'.WellShared ∧ ∃ a', a.step op = some a' ∧ s'.Shows a' := by
  cases op with
  | alloc e v perm g =>
      obtain ⟨away, -, notCow, fresh, rfl⟩ := step
      cases g with
      | none =>
          have failed : s.memAlloc e v perm none = s ∧ a.alloc e v perm none = a :=
            ⟨ite_self _, ite_self _⟩
          rw [failed.1]
          exact ⟨shared, a, congrArg some failed.2, shows'⟩
      | some g =>
          obtain ⟨shared', after⟩ := Shows.alloc shared shows' away notCow (fresh g rfl)
          exact ⟨shared', _, rfl, after⟩
  | share e v e' v' perm =>
      obtain ⟨away, -, object, notCow, objects, rfl⟩ := step
      obtain ⟨shared', after⟩ := Shows.share shared shows' away object notCow objects
      exact ⟨shared', _, rfl, after⟩
  | unmap e v =>
      obtain rfl := step
      by_cases inside : LegalVpn v
      case neg =>
        simp only [memUnmap, Copies.step, inside, if_false]
        exact ⟨shared, _, rfl, shows'⟩
      have fewer : ∀ e' v' m, (s.setPage e v none).page e' v' = some m →
          s.page e' v' = some m := by
        intro e' v' m mapped
        rw [page_setPage] at mapped
        split at mapped
        · cases mapped
        · exact mapped
      simp only [memUnmap, Copies.step, inside, if_true]
      refine ⟨shared.mono fewer, _, rfl, fun e' v' => ?_,
        fun mapped object => shows'.objects (fewer _ _ _ mapped) object⟩
      simp only [Copies.setSlot, page_setPage, mem_setPage]
      split
      · rfl
      · exact shows'.slots e' v'
  | fork e c =>
      obtain ⟨other, empty, after⟩ := step
      rw [after]
      exact ⟨shared.fork other empty, a.fork e c, rfl, Shows.fork shared shows' other empty⟩
  | exit e =>
      obtain rfl := step
      have fewer : ∀ e' v' m, (s.exit e).page e' v' = some m → s.page e' v' = some m := by
        intro e' v' m mapped
        simp only [Spaces.exit] at mapped
        split at mapped
        · cases mapped
        · exact mapped
      refine ⟨shared.mono fewer, _, rfl, fun e' v' => ?_,
        fun mapped object => shows'.objects (fewer _ _ _ mapped) object⟩
      simp only [Spaces.exit]
      split
      · rfl
      · exact shows'.slots e' v'
  | load e v i w =>
      obtain ⟨loaded, rfl⟩ := step
      exact ⟨shared, a, by rw [Copies.step, if_pos (shows'.load.trans loaded)], shows'⟩
  | store e v i w g =>
      obtain ⟨fresh, stored⟩ := step
      unfold Spaces.store at stored
      cases now : s.storeNow e v i w with
      | some s₁ =>
          rw [now] at stored
          cases stored
          exact Shows.storeNow shared shows' now
      | none =>
          rw [now] at stored
          obtain ⟨s₁, handled, again⟩ := Option.bind_eq_some_iff.mp stored
          obtain ⟨shared₁, shows₁⟩ := Shows.cowEntry shared shows' fresh handled
          exact Shows.storeNow shared₁ shows₁ again

end Step

/-- Under any tree of forks, and any interleaving of loads, stores, faults and other
memory calls, every process sees what it would see if each `fork` had copied all that is
not shared as an object. -/
theorem fork_copies {ops : List (SpaceOp π)} (shared : s.WellShared) (run : Run Step s ops s') :
    s'.WellShared ∧ ∃ a, Run (fun a op a' => a.step op = some a') s.copies ops a ∧ s'.Shows a := by
  apply run.history fun ops s' =>
    s'.WellShared ∧ ∃ a, Run (fun a op a' => a.step op = some a') s.copies ops a ∧ s'.Shows a
  · exact ⟨shared, s.copies, .refl _, shows_copies s⟩
  · intro ops s₁ op s₂ before step
    obtain ⟨shared₁, a₁, run₁, shows₁⟩ := before
    obtain ⟨shared₂, a₂, last, shows₂⟩ := Shows.step shared₁ shows₁ step
    exact ⟨shared₂, a₂, run₁.snoc last, shows₂⟩

/-- A process with one page, which it may write to. -/
def onePage : Spaces Bool where
  page e v := if e = false ∧ v = 0x400 then some (1, pteD ||| pteV) else none
  mem _ _ := 0

theorem onePage_mapped {e : Bool} {v : Nat} {m : MappedPage} (mapped : onePage.page e v = some m) :
    e = false ∧ v = 0x400 ∧ m = (1, pteD ||| pteV) := by
  simp only [onePage] at mapped
  split at mapped
  case isTrue here =>
    cases mapped
    exact ⟨here.1, here.2, rfl⟩
  case isFalse => cases mapped

theorem onePage_wellShared : onePage.WellShared where
  legal e v m mapped := by
    obtain ⟨-, rfl, -⟩ := onePage_mapped mapped
    decide
  objects mapped mapped' := by
    obtain ⟨-, -, same⟩ := onePage_mapped mapped
    obtain ⟨-, -, same'⟩ := onePage_mapped mapped'
    cases same
    cases same'
    rfl
  notCow mapped object := by
    obtain ⟨-, -, same⟩ := onePage_mapped mapped
    cases same
    exact absurd object (by decide)
  single mapped _ _ mapped' := by
    obtain ⟨rfl, rfl, -⟩ := onePage_mapped mapped
    obtain ⟨rfl, rfl, -⟩ := onePage_mapped mapped'
    exact ⟨rfl, rfl⟩

/-- `onePage` after its fork. -/
def onePageShared : Spaces Bool where
  page _ v := if v = 0x400 then some (1, pteCow ||| pteV) else none
  mem _ _ := 0

theorem fork_onePage : onePage.fork false true = onePageShared := by
  have child : dupFlags (pteD ||| pteV) ||| pteV = pteCow ||| pteV := by decide
  have parent : parentFlags (pteD ||| pteV) = pteCow ||| pteV := by decide
  rw [fork, forkBelow_eq onePage_wellShared.legal (by decide) (fun v => rfl)]
  unfold onePageShared onePage
  congr 1
  funext e v
  by_cases here : v = 0x400
  · cases e <;> simp [here, child, parent, vpnUstacktop]
  · cases e <;> simp [here]

/-- The parent writes 7 where the child goes on to read 0. -/
theorem fork_copies_onePage : ∃ (s' : Spaces Bool) (a : Copies Bool),
    Run Step onePage [.fork false true, .store false 0x400 0 7 2, .load true 0x400 0 0,
      .load false 0x400 0 7] s' ∧
    Run (fun a op a' => a.step op = some a') onePage.copies [.fork false true,
      .store false 0x400 0 7 2, .load true 0x400 0 0, .load false 0x400 0 7] a ∧ s'.Shows a := by
  have forked : Step onePage (.fork false true) onePageShared :=
    ⟨by decide, fun v => rfl, fork_onePage.symm⟩
  have fresh : onePageShared.Fresh 2 := by
    intro e v perm mapped
    simp only [onePageShared] at mapped
    split at mapped <;> cases mapped
  have stored : ∃ s₂, Step onePageShared (.store false 0x400 0 7 2) s₂ ∧
      s₂.load true 0x400 0 = some 0 ∧ s₂.load false 0x400 0 = some 7 :=
    ⟨_, ⟨fresh, rfl⟩, rfl, rfl⟩
  obtain ⟨s₂, step, child, parent⟩ := stored
  have childStep : Step s₂ (.load true 0x400 0 0) s₂ := ⟨child, rfl⟩
  have parentStep : Step s₂ (.load false 0x400 0 7) s₂ := ⟨parent, rfl⟩
  have run : Run Step onePage [.fork false true, .store false 0x400 0 7 2, .load true 0x400 0 0,
      .load false 0x400 0 7] s₂ :=
    (((Run.single forked).snoc step).snoc childStep).snoc parentStep
  obtain ⟨-, a, copied, shows'⟩ := fork_copies onePage_wellShared run
  exact ⟨s₂, a, run, copied, shows'⟩

end Spaces

/-! ## The kernel's calls -/

section Contents

variable {ε : Type} [Fintype ε] {dirs : ε → Option Nat} {pm pm' s₁ : Pmap} {x : ε}
  {r : Ref ε} {d t pp q : Nat} {va asid perm : Word} {res : Except Err Unit}

/-- A page that an entry maps is no page directory, no page table and not free. -/
theorem PmapInv.leaf_apart (inv : PmapInv dirs pm) (hx : dirs x = some d) (user : pdx va < 509)
    (leaf : ¬ r.IsTable) (mapped : target dirs pm.mem r = some q) :
    q ≠ d ∧ (∀ t, entry (pm.mem d (pdx va)) = some t → q ≠ t) ∧ q ∉ pm.pageFreeList := by
  have noTable : ∀ r' : Ref ε, r'.IsTable → target dirs pm.mem r' ≠ some q := by
    intro r' table named
    have same := inv.excl r' r q table named mapped
    exact leaf (same ▸ table)
  refine ⟨?_, fun t ht => ?_, inv.store.not_free mapped⟩
  · rintro rfl
    exact noTable (.dir x) trivial hx
  · rintro rfl
    exact noTable (.pde x ⟨_, user⟩) trivial ((target_pde hx).trans ht)

/-- Getting an entry ready writes to no mapped page. -/
theorem Prepared.keepsPage (prep : Prepared pm d asid va s₁ t) (dir : q ≠ d)
    (table : ∀ t, entry (pm.mem d (pdx va)) = some t → q ≠ t) (used : q ∉ pm.pageFreeList) :
    s₁.mem q = pm.mem q ∧ q ≠ t := by
  cases prep with
  | table ht hp => exact ⟨rfl, table t ht⟩
  | newTable vacant hfree =>
      have other : q ≠ t := by
        rintro rfl
        exact used (hfree ▸ List.mem_cons_self)
      exact ⟨(writeWord_of_page_ne dir).trans (Function.update_of_ne other _ _), other⟩
  | removed ht hq =>
      exact ⟨writeWord_of_page_ne (table t ht), table t ht⟩

/-- `page_insert` writes to no mapped page. -/
theorem PmapInv.pageInsert_keepsPage (inv : PmapInv dirs pm) (hx : dirs x = some d)
    (user : pdx va < 509) (counted : Counted dirs pm d va) (leaf : ¬ r.IsTable)
    (mapped : target dirs pm.mem r = some q)
    (run : Mos.pageInsert pm d asid pp va perm = .ok (pm', res)) : pm'.mem q = pm.mem q := by
  obtain ⟨dir, table, used⟩ := inv.leaf_apart hx user leaf mapped
  obtain ⟨t, ht, -, again⟩ | ⟨s₁, t, prep, -, new⟩ | ⟨-, -, full⟩ :=
    inv.pageInsert_cases hx user counted pp asid perm
  · rw [again] at run
    cases run
    exact writeWord_of_page_ne (table t ht)
  · rw [new] at run
    cases run
    obtain ⟨kept, other⟩ := prep.keepsPage dir table used
    exact (writeWord_of_page_ne other).trans kept
  · rw [full] at run
    cases run
    rfl

end Contents

/-- The address spaces below `UTOP`, as the page tables have them. -/
def Kernel.spaces (s : Kernel) : Spaces EnvIx where
  page e v :=
    if v < vpnUtop then
      (pteAt s.pm.mem (s.envs e).envPgdir (.ofNat 32 (v * 4096))).map fun pte =>
        (ppn pte, pte &&& 0xfff#32)
    else none
  mem := s.pm.mem

section Kernel

variable {s s' : Kernel} {cur x y : EnvIx} {srcva dstva dstid va perm : Word} {v pp q : Nat}

theorem pteAt_ppn {mem : Nat → Nat → Word} {d : Nat} :
    pteAt mem d (.ofNat 32 (ppn va * 4096)) = pteAt mem d va := by
  have small : ppn va < 2 ^ 20 := by
    rw [ppn_eq_div]
    have bound := va.isLt
    omega
  obtain ⟨dir, table⟩ := index_vpn small
  have index := ppn_eq_pdx_ptx va
  have lt := ptx_lt va
  have dir' : pdx (.ofNat 32 (ppn va * 4096)) = pdx va := by omega
  have table' : ptx (.ofNat 32 (ppn va * 4096)) = ptx va := by omega
  unfold pteAt
  rw [dir', table']

theorem samePage_vpn (below : v < vpnUtop) : SamePage (.ofNat 32 (v * 4096)) va ↔ v = ppn va := by
  have small : v < 2 ^ 20 := Nat.lt_trans below (by decide)
  obtain ⟨dir, table⟩ := index_vpn small
  have index := ppn_eq_pdx_ptx va
  have lt := ptx_lt va
  unfold SamePage
  rw [dir, table]
  omega

theorem legalVpn_of_legal (legal : ¬ isIllegalVa va) : LegalVpn (ppn va) := by
  simp only [isIllegalVa, not_or, BitVec.le_def, BitVec.lt_def, utemp_toNat, utop_toNat] at legal
  unfold LegalVpn vpnUtemp vpnUtop
  rw [ppn_eq_div]
  omega

theorem spaces_page_of_legal (legal : ¬ isIllegalVa va) : s.spaces.page y (ppn va) =
    (pteAt s.pm.mem (s.envs y).envPgdir va).map fun pte => (ppn pte, pte &&& 0xfff#32) := by
  simp only [Kernel.spaces, (legalVpn_of_legal legal).2, if_true, pteAt_ppn]

/-- `sys_mem_map` does to the address spaces what `Spaces.memMap` says, and writes to no
mapped page. -/
theorem LiveInv.sysMemMap_spaces (inv : LiveInv s) (bounded : Bounded s)
    (flags : perm < 0x1000#32) (hcur : s.curenv = some cur)
    (named : Mos.envid2env s dstid true = .ok (.ok x))
    (h : Mos.sysMemMap s 0 srcva dstid dstva perm = .ok (s', .ok 0)) (inUse : y ∉ s.envFreeList)
    (below : v < vpnUtop) :
    s'.spaces.page y v = (s.spaces.memMap cur (ppn srcva) x (ppn dstva) perm).page y v ∧
      ∀ q perm', s.spaces.page y v = some (q, perm') → s'.spaces.mem q = s.spaces.mem q := by
  obtain ⟨-, err, failed⟩ | ⟨src, x', pp, pte, pm, res, legalSrc, legalDst, self, named', look,
    insert, rfl, returned⟩ := sysMemMap_cases h
  · cases failed
  rw [envid2env_self hcur, Except.ok.injEq, Except.ok.injEq] at self
  subst self
  rw [named, Except.ok.injEq, Except.ok.injEq] at named'
  subst named'
  have belowSrc := lt_utop_of_legal legalSrc
  have belowDst := lt_utop_of_legal legalDst
  have inUse' := inv.envid2env named
  have hcurDir := Kernel.dirs_of_notMem (inv.current cur hcur).1
  have hx := Kernel.dirs_of_notMem inUse'
  have hy := Kernel.dirs_of_notMem inUse
  have user := pdx_lt_of_lt_utop belowDst
  have counted : Counted s.dirs s.pm (s.envs x).envPgdir dstva :=
    fun q _ _ => Nat.lt_succ_of_le (bounded q)
  -- the page that is mapped is the one that the source maps
  rw [pageLookup_eq (inv.inv.pm.inMemory hcurDir (lt_ulim_of_lt_utop belowSrc)),
    Except.ok.injEq] at look
  obtain ⟨t, ht, hp, -⟩ := lookup_eq_some_iff.mp look
  obtain ⟨valid, name⟩ := entry_eq_some_iff.mp hp
  have source : s.spaces.page cur (ppn srcva) =
      some (pp, s.pm.mem t (ptx srcva) &&& 0xfff#32) := by
    rw [spaces_page_of_legal legalSrc, pteAt_eq_some_iff.mpr ⟨t, ht, rfl, valid⟩, Option.map_some,
      name]
  have lt : pp < 2 ^ 20 := inv.inv.pm.page_lt (inv.inv.pm.target_lt
    (.pte cur ⟨_, pdx_lt_of_lt_utop belowSrc⟩ ⟨_, ptx_lt srcva⟩) pp
    ((target_pte hcurDir ht).trans hp))
  have low : (perm ||| pteV) &&& 0xfff#32 = perm ||| pteV := by
    have small : (perm ||| pteV).toNat < 2 ^ 12 := by
      rw [BitVec.toNat_or]
      exact Nat.or_lt_two_pow (by simpa [BitVec.lt_def] using flags) (by decide)
    apply BitVec.eq_of_toNat_eq
    rw [BitVec.toNat_and]
    exact (Nat.and_two_pow_sub_one_eq_mod _ 12).trans (Nat.mod_eq_of_lt small)
  refine ⟨?_, fun q perm' mapped => ?_⟩
  · have only := inv.changes_pageInsert bounded inUse' belowDst insert
    unfold Spaces.memMap
    rw [if_pos ⟨legalVpn_of_legal legalSrc, legalVpn_of_legal legalDst⟩, source]
    simp only [Spaces.page_setPage]
    split
    case isTrue here =>
      obtain ⟨rfl, rfl⟩ := here
      rw [spaces_page_of_legal legalDst]
      cases zeroRet_ok returned.symm
      rcases (inv.addressable inUse' belowDst).1.pageInsert insert with
        ⟨-, -, -, failed⟩ | ⟨-, -, maps⟩
      · cases failed
      · have found : pteAt pm.mem (s.envs y).envPgdir dstva = some (page2pa pp ||| perm ||| pteV) :=
          maps.pteAt (entry_valid _ _)
        show (pteAt pm.mem (s.envs y).envPgdir dstva).map _ = _
        rw [found, Option.map_some, ppn_entry lt flags, entry_flags, low]
    case isFalse away =>
      have notSelf : pdx (.ofNat 32 (v * 4096)) ≠ 511 := by
        rw [(index_vpn (Nat.lt_trans below (by decide))).1]
        unfold vpnUtop at below
        omega
      have same := only y inUse inUse (.ofNat 32 (v * 4096)) notSelf fun both =>
        away ⟨both.1, (samePage_vpn below).mp both.2⟩
      simp only [Kernel.spaces, below, if_true]
      exact congrArg _ same
  · simp only [Kernel.spaces, below, if_true] at mapped
    obtain ⟨w, found, same⟩ := Option.map_eq_some_iff.mp mapped
    cases same
    obtain ⟨t', ht', word, valid'⟩ := pteAt_eq_some_iff.mp found
    have user' : pdx (.ofNat 32 (v * 4096)) < 509 := by
      rw [(index_vpn (Nat.lt_trans below (by decide))).1]
      unfold vpnUtop at below
      omega
    have target' : target s.dirs s.pm.mem
        (.pte y ⟨_, user'⟩ ⟨_, ptx_lt (.ofNat 32 (v * 4096))⟩) = some (ppn w) :=
      (target_pte hy ht').trans (by rw [word, entry_of_valid valid'])
    exact inv.inv.pm.pageInsert_keepsPage hx user counted (Ref.not_isTable_pte _ _ _) target' insert

end Kernel

end Mos
