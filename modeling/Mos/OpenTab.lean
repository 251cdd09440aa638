import Mathlib.Data.List.FinRange
import Mos.Lib.Run
import Mos.Mmu

/-!
# The open files of the file server

`opentab` of `fs/serv.c`. The server does not hear of a client that closes a
file, or shares it with a child: an entry is in use if its `Filefd` page is
mapped by anyone but the server, which `pageref` tells. Ids that the server gave
out earlier are told apart by the multiple of `MAXOPEN` in them.
-/

namespace Mos.Serv

variable {φ : Type}

/-- An index into `opentab`. -/
abbrev OpenIx := Fin 1024

/-- `struct Open`; a file is its `struct File *`. `ffRefs` tells how often the page
at `o_ff` is mapped, 0 if the server has not allocated it. -/
structure Open (φ : Type) where
  oFile : Option φ
  oFileid : Word
  oMode : Word
  ffRefs : Nat

abbrev OpenTab (φ : Type) := OpenIx → Open φ

/-- `opentab` after `serve_init`. -/
def serveInit (φ : Type) : OpenTab φ := fun i =>
  { oFile := none, oFileid := BitVec.ofNat 32 i.val, oMode := if i.val = 0 then 1 else 0,
    ffRefs := 0 }

/-- `pageref(o->o_ff)`: `pp_ref` has 16 bits. -/
def Open.pageref (o : Open φ) : Nat := o.ffRefs % 2 ^ 16

/-- The first entry that no client uses. -/
def freeEntry (tab : OpenTab φ) : Option OpenIx :=
  (List.finRange 1024).find? fun i => (tab i).pageref = 0 ∨ (tab i).pageref = 1

/-- `open_alloc`; `memOk` tells whether `syscall_mem_alloc` gets a page. -/
def openAlloc (tab : OpenTab φ) (memOk : Bool) : Option (OpenIx × OpenTab φ) :=
  match freeEntry tab with
  | none => none
  | some i =>
      if (tab i).pageref = 0 ∧ memOk = false then none
      else
        let refs := if (tab i).pageref = 0 then 1 else (tab i).ffRefs
        let o := { tab i with oFileid := (tab i).oFileid + 1024, ffRefs := refs }
        some (i, Function.update tab i o)

theorem slot_lt (fileid : Word) : fileid.toNat % 1024 < 1024 :=
  Nat.mod_lt _ (Nat.succ_pos 1023)

/-- `fileid % MAXOPEN` -/
def slotOf (fileid : Word) : OpenIx := ⟨fileid.toNat % 1024, slot_lt fileid⟩

/-- `open_lookup` -/
def openLookup (tab : OpenTab φ) (fileid : Word) : Option OpenIx :=
  let i := slotOf fileid
  if (tab i).pageref = 1 ∨ (tab i).oFileid ≠ fileid then none else some i

/-- What happened to the table. -/
inductive Event (φ : Type) where
  /-- `open_alloc` returned `id` for entry `i`, and the open succeeded with `f`. -/
  | opened (i : OpenIx) (id : Word) (f : φ)
  /-- `open_alloc` returned `id` for entry `i`, and the open failed. -/
  | notOpened (i : OpenIx) (id : Word)
  /-- `open_alloc` failed. -/
  | noEntry
  /-- A client maps or unmaps the page of an open file. -/
  | mapped (i : OpenIx)
  | unmapped (i : OpenIx)

/-- `serve_open` from `o->o_file = f` on. -/
def fillOpen (tab : OpenTab φ) (i : OpenIx) (f : φ) (omode : Word) (received : Bool) :
    OpenTab φ :=
  let refs := if received then (tab i).ffRefs + 1 else (tab i).ffRefs
  Function.update tab i { tab i with oFile := some f, oMode := omode, ffRefs := refs }

/-- `serve_open`. `file` is what `file_open` finds, and `received` tells whether the
client maps the page that is sent to it. After an error of `open_alloc` there is no
`return`: the server goes on with whatever its variable `o` points to, `stale` if that
is an entry. An id from 2^31 on is an error as well to the caller of `open_alloc`, but
`o` is set then. -/
def serveOpen (tab : OpenTab φ) (memOk : Bool) (stale : Option OpenIx) (file : Option φ)
    (omode : Word) (received : Bool) : OpenTab φ × Event φ :=
  match openAlloc tab memOk with
  | none =>
      match stale, file with
      | some i, some f => (fillOpen tab i f omode received, .noEntry)
      | _, _ => (tab, .noEntry)
  | some (i, tab) =>
      match file with
      | none => (tab, .notOpened i (tab i).oFileid)
      | some f => (fillOpen tab i f omode received, .opened i (tab i).oFileid f)

/-- What the clients do: they ask the server to open a file, share the page of an
open file (`fork`, `spawn`, `dup`), or unmap it. -/
inductive Action (φ : Type) where
  | open (memOk : Bool) (stale : Option OpenIx) (file : Option φ) (omode : Word)
      (received : Bool)
  | map (i : OpenIx)
  | unmap (i : OpenIx)

def setRefs (tab : OpenTab φ) (i : OpenIx) (refs : Nat) : OpenTab φ :=
  Function.update tab i { tab i with ffRefs := refs }

/-- A client can share or unmap only a page that is mapped by some client. -/
def act (tab : OpenTab φ) : Action φ → Option (OpenTab φ × Event φ)
  | .open memOk stale file omode received =>
      some (serveOpen tab memOk stale file omode received)
  | .map i =>
      if 2 ≤ (tab i).ffRefs then some (setRefs tab i ((tab i).ffRefs + 1), .mapped i) else none
  | .unmap i =>
      if 2 ≤ (tab i).ffRefs then some (setRefs tab i ((tab i).ffRefs - 1), .unmapped i) else none

/-- An entry is found for every request to open a file, and no page is mapped so often
that its count wraps. -/
def Sound (tab : OpenTab φ) : Action φ → Prop
  | .open memOk .. => (openAlloc tab memOk).isSome
  | .map i => (tab i).ffRefs + 1 < 2 ^ 16
  | .unmap _ => True

/-- A step that the server's checks can deal with. -/
def SoundStep (tab : OpenTab φ) (e : Event φ) (tab' : OpenTab φ) : Prop :=
  ∃ a, Sound tab a ∧ act tab a = some (tab', e)

/-- The event gives entry `i` to a new id. -/
def Event.Assigns (e : Event φ) (i : OpenIx) : Prop :=
  match e with
  | .opened j .. | .notOpened j _ => j = i
  | .noEntry | .mapped _ | .unmapped _ => False

def NeverAssigned (es : List (Event φ)) (i : OpenIx) : Prop := ∀ e ∈ es, ¬e.Assigns i

/-- `id` was returned for entry `i`, the open succeeded with `f`, and the entry was not
assigned again. -/
def Issued (es : List (Event φ)) (i : OpenIx) (id : Word) (f : φ) : Prop :=
  ∃ before after, es = before ++ .opened i id f :: after ∧ NeverAssigned after i

/-- What a client may hold an id for: the entry was issued under it for the file that is
stored there, and some client maps its page. -/
def Capability (es : List (Event φ)) (tab : OpenTab φ) (fileid : Word) (i : OpenIx) : Prop :=
  ∃ f, Issued es i fileid f ∧ (tab i).oFile = some f ∧ 2 ≤ (tab i).ffRefs

/-! ## Entries -/

/-- An entry, and how it came about. -/
inductive EntryOk (es : List (Event φ)) (i : OpenIx) (o : Open φ) : Prop
  | fresh (never : NeverAssigned es i) (refs : o.ffRefs = 0)
      (id : o.oFileid = BitVec.ofNat 32 i.val)
  | issued (f : φ) (issued : Issued es i o.oFileid f) (file : o.oFile = some f)
      (refs : 1 ≤ o.ffRefs)
  | failed (again : ¬NeverAssigned es i) (refs : o.ffRefs = 1)

/-- Every entry is one of these, and no count has wrapped. -/
def TabOk (es : List (Event φ)) (tab : OpenTab φ) : Prop :=
  ∀ i, EntryOk es i (tab i) ∧ (tab i).ffRefs < 2 ^ 16

variable {es : List (Event φ)} {e : Event φ} {tab tab' : OpenTab φ} {i j : OpenIx} {o : Open φ}
  {f : φ} {id fileid : Word} {memOk : Bool}

theorem NeverAssigned.snoc (never : NeverAssigned es i) (other : ¬e.Assigns i) :
    NeverAssigned (es ++ [e]) i := by
  intro e' mem
  obtain old | new := List.mem_append.mp mem
  · exact never e' old
  · rw [List.mem_singleton.mp new]
    exact other

theorem not_neverAssigned (assigns : e.Assigns i) : ¬NeverAssigned (es ++ [e]) i :=
  fun never => never e (List.mem_append_right es List.mem_cons_self) assigns

theorem Issued.snoc (issued : Issued es i id f) (other : ¬e.Assigns i) :
    Issued (es ++ [e]) i id f := by
  obtain ⟨before, after, rfl, never⟩ := issued
  refine ⟨before, after ++ [e], ?_, never.snoc other⟩
  rw [List.append_assoc]
  rfl

theorem Issued.assigned (issued : Issued es i id f) : ¬NeverAssigned es i := by
  obtain ⟨before, after, rfl, -⟩ := issued
  intro never
  exact never _ (List.mem_append_right before List.mem_cons_self) rfl

theorem issued_opened (es : List (Event φ)) (i : OpenIx) (id : Word) (f : φ) :
    Issued (es ++ [.opened i id f]) i id f :=
  ⟨es, [], rfl, fun _ mem => absurd mem List.not_mem_nil⟩

/-- Nothing happened to the entry. -/
theorem EntryOk.snoc (ok : EntryOk es i o) (other : ¬e.Assigns i) : EntryOk (es ++ [e]) i o := by
  cases ok with
  | fresh never refs id => exact .fresh (never.snoc other) refs id
  | issued f issued file refs => exact .issued f (issued.snoc other) file refs
  | failed again refs =>
      refine .failed ?_ refs
      exact fun never => again fun e' mem => never e' (List.mem_append_left _ mem)

/-- Clients may map and unmap the page of an open file. -/
theorem EntryOk.setRefs (ok : EntryOk es i o) (shared : 2 ≤ o.ffRefs) {refs : Nat}
    (h : 1 ≤ refs) : EntryOk es i { o with ffRefs := refs } := by
  cases ok with
  | fresh never none id => omega
  | issued f issued file _ => exact .issued f issued file h
  | failed again one => omega

theorem TabOk.update (ok : TabOk es tab) (others : ∀ j, j ≠ i → ¬e.Assigns j)
    (entry : EntryOk (es ++ [e]) i o) (refs : o.ffRefs < 2 ^ 16) :
    TabOk (es ++ [e]) (Function.update tab i o) := by
  intro j
  by_cases h : j = i
  · subst h
    rw [Function.update_self]
    exact ⟨entry, refs⟩
  · rw [Function.update_of_ne h]
    exact ⟨(ok j).1.snoc (others j h), (ok j).2⟩

/-- An entry is assigned only while no client maps its page. -/
theorem openAlloc_spec (ok : TabOk es tab) (alloc : openAlloc tab memOk = some (i, tab')) :
    tab' = Function.update tab i
      { tab i with oFileid := (tab i).oFileid + 1024, ffRefs := 1 } := by
  unfold openAlloc at alloc
  split at alloc
  · cases alloc
  · next j found =>
      have small := (ok j).2
      have free := List.find?_some found
      simp only [decide_eq_true_eq, Open.pageref, Nat.mod_eq_of_lt small] at free alloc
      split at alloc
      · cases alloc
      · cases alloc
        split
        · rfl
        · next used =>
            rw [← free.resolve_left used]

theorem TabOk.serveOpen (ok : TabOk es tab) {stale : Option OpenIx} {file : Option φ}
    {omode : Word} {received : Bool} (sound : (openAlloc tab memOk).isSome)
    (served : serveOpen tab memOk stale file omode received = (tab', e)) :
    TabOk (es ++ [e]) tab' := by
  obtain ⟨found, alloc⟩ := Option.isSome_iff_exists.mp sound
  obtain ⟨i, tab₁⟩ := found
  have filled := openAlloc_spec ok alloc
  unfold Serv.serveOpen at served
  rw [alloc] at served
  cases file with
  | none =>
      cases served
      rw [filled]
      refine ok.update (fun j h same => h same.symm) (.failed (not_neverAssigned rfl) rfl) ?_
      show 1 < 2 ^ 16
      omega
  | some f =>
      cases served
      rw [fillOpen, filled, Function.update_idem]
      simp only [Function.update_self]
      refine ok.update (fun j h same => h same.symm) (.issued f ?_ rfl ?_) ?_
      · exact issued_opened ..
      · show 1 ≤ if received then 1 + 1 else 1
        split <;> omega
      · show (if received then 1 + 1 else 1) < 2 ^ 16
        split <;> omega

theorem TabOk.step (ok : TabOk es tab) (step : SoundStep tab e tab') :
    TabOk (es ++ [e]) tab' := by
  obtain ⟨a, sound, acted⟩ := step
  cases a with
  | «open» memOk stale file omode received => exact ok.serveOpen sound (Option.some.inj acted)
  | map i =>
      simp only [act] at acted
      split at acted
      · next shared =>
          cases acted
          refine ok.update (fun _ _ no => no) ?_ sound
          exact ((ok i).1.snoc (e := .mapped i) fun no => no).setRefs shared (Nat.succ_pos _)
      · cases acted
  | unmap i =>
      simp only [act] at acted
      split at acted
      · next shared =>
          cases acted
          refine ok.update (fun _ _ no => no) ?_ (Nat.lt_of_le_of_lt (Nat.sub_le _ 1) (ok i).2)
          exact ((ok i).1.snoc (e := .unmapped i) fun no => no).setRefs shared (by omega)
      · cases acted

theorem tabOk_serveInit : TabOk [] (serveInit φ) :=
  fun _ => ⟨.fresh (fun _ mem => absurd mem List.not_mem_nil) rfl rfl, Nat.two_pow_pos 16⟩

theorem tabOk_of_run (run : Run SoundStep (serveInit φ) es tab) : TabOk es tab :=
  run.history TabOk tabOk_serveInit fun _ _ _ _ => TabOk.step

/-- In every run whose requests find an entry, an id is a capability unless it is
the first one of an entry that was never assigned. -/
theorem lookup_capability_iff (run : Run SoundStep (serveInit φ) es tab) (fileid : Word) :
    (∀ i, openLookup tab fileid = some i → Capability es tab fileid i) ↔
      ¬(fileid.toNat < 1024 ∧ NeverAssigned es (slotOf fileid)) := by
  obtain ⟨entry, small⟩ := tabOk_of_run run (slotOf fileid)
  have count : (tab (slotOf fileid)).pageref = (tab (slotOf fileid)).ffRefs :=
    Nat.mod_eq_of_lt small
  constructor
  · intro all first
    obtain ⟨low, never⟩ := first
    have number : BitVec.ofNat 32 (slotOf fileid).val = fileid := by
      apply BitVec.eq_of_toNat_eq
      rw [BitVec.toNat_ofNat]
      show fileid.toNat % 1024 % 2 ^ 32 = fileid.toNat
      omega
    cases entry with
    | fresh _ refs id =>
        have found : openLookup tab fileid = some (slotOf fileid) := by
          rw [openLookup, if_neg]
          rw [count, refs, id, number]
          simp
        obtain ⟨f, issued, -, -⟩ := all _ found
        exact issued.assigned never
    | issued f issued _ _ => exact issued.assigned never
    | failed again _ => exact again never
  · intro other i found
    simp only [openLookup] at found
    split at found
    · cases found
    · next valid =>
        cases found
        rw [count, not_or, not_not] at valid
        obtain ⟨inUse, same⟩ := valid
        cases entry with
        | fresh never refs id =>
            refine absurd ⟨?_, never⟩ other
            have index := (slotOf fileid).isLt
            rw [← same, id, BitVec.toNat_ofNat]
            omega
        | issued f issued file refs =>
            rw [same] at issued
            exact ⟨f, issued, file, by omega⟩
        | failed again refs => exact absurd refs inUse

theorem freeEntry_serveInit : (freeEntry (serveInit φ)).isSome := by
  rw [freeEntry, List.find?_isSome]
  exact ⟨slotOf 0, List.mem_finRange _, decide_eq_true (.inl rfl)⟩

/-- The table and the event of the first open. -/
def firstOpen : OpenTab Unit × Event Unit := serveOpen (serveInit Unit) true none (some ()) 0 true

theorem soundStep_open {stale : Option OpenIx} {file : Option φ} {omode : Word} {received : Bool}
    (sound : (openAlloc tab memOk).isSome) :
    SoundStep tab (serveOpen tab memOk stale file omode received).2
      (serveOpen tab memOk stale file omode received).1 := by
  refine ⟨.open memOk stale file omode received, sound, ?_⟩
  rw [act]

theorem openAlloc_isSome (found : (freeEntry tab).isSome) : (openAlloc tab true).isSome := by
  obtain ⟨i, free⟩ := Option.isSome_iff_exists.mp found
  unfold openAlloc
  rw [free]
  simp

theorem firstOpen_run : Run SoundStep (serveInit Unit) [firstOpen.2] firstOpen.1 :=
  .single (soundStep_open (openAlloc_isSome freeEntry_serveInit))

theorem lookup_capability_iff_firstOpen :
    (∀ i, openLookup firstOpen.1 1024 = some i → Capability [firstOpen.2] firstOpen.1 1024 i) ↔
      ¬((1024 : Word).toNat < 1024 ∧ NeverAssigned [firstOpen.2] (slotOf 1024)) :=
  lookup_capability_iff firstOpen_run 1024

/-- Before any open, every id below `MAXOPEN` is found, with no file. -/
theorem lookup_not_capability :
    ¬∀ (es : List (Event Unit)) (tab : OpenTab Unit), Run SoundStep (serveInit Unit) es tab →
      ∀ fileid i, openLookup tab fileid = some i → Capability es tab fileid i := by
  intro all
  have found : openLookup (serveInit Unit) 5 = some (slotOf 5) := by
    rw [openLookup, if_neg]
    decide
  obtain ⟨f, issued, -, -⟩ := all [] _ (.refl _) 5 _ found
  exact issued.assigned fun _ mem => absurd mem List.not_mem_nil

end Mos.Serv
