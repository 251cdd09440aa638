import Mos.Lib.Tailq

/-!
# Lists and tail queues

The macros of `include/queue.h` as operations on sequences. A `LIST` has the links
of a `TAILQ` and no pointer to its last cell, so that the two share their segments.
-/

namespace Mos

variable {α : Type} [DecidableEq α]

/-- A `LIST_HEAD`, and the `LIST_ENTRY` of all elements there are, on the list or not. -/
structure LinkList (α : Type) where
  lhFirst : Option α
  leNext : α → Option α
  lePrev : α → Option (Cell α)

namespace LinkList

variable {h h' : LinkList α} {a b : α} {c m : Cell α} {l l₁ l₂ : List α}

/-- The pointer in a cell. -/
def load (h : LinkList α) : Cell α → Option α
  | .first => h.lhFirst
  | .next a => h.leNext a

def store (h : LinkList α) (c : Cell α) (v : Option α) : LinkList α :=
  match c with
  | .first => { h with lhFirst := v }
  | .next a => { h with leNext := Function.update h.leNext a v }

def setPrev (h : LinkList α) (a : α) (c : Cell α) : LinkList α :=
  { h with lePrev := Function.update h.lePrev a (some c) }

/-- `LIST_INIT`, where no element was ever linked. -/
def init : LinkList α where
  lhFirst := none
  leNext := fun _ => none
  lePrev := fun _ => none

/-- `LIST_INSERT_HEAD` -/
def insertHead (h : LinkList α) (a : α) : LinkList α :=
  let h := h.store (.next a) h.lhFirst
  let h := match h.lhFirst with
    | some b => h.setPrev b (.next a)
    | none => h
  (h.store .first (some a)).setPrev a .first

/-- `LIST_INSERT_AFTER` -/
def insertAfter (h : LinkList α) (b a : α) : LinkList α :=
  let h := h.store (.next a) (h.leNext b)
  let h := match h.leNext a with
    | some x => h.setPrev x (.next a)
    | none => h
  (h.store (.next b) (some a)).setPrev a (.next b)

/-- `LIST_INSERT_BEFORE`. The back link of an element that was never linked is null. -/
def insertBefore (h : LinkList α) (b a : α) : Option (LinkList α) := do
  let c ← h.lePrev b
  let h := h.setPrev a c
  let h := h.store (.next a) (some b)
  let c ← h.lePrev b
  let h := h.store c (some a)
  return h.setPrev b (.next a)

/-- `LIST_REMOVE` -/
def remove (h : LinkList α) (a : α) : Option (LinkList α) := do
  let h ← match h.leNext a with
    | some b => do
        let c ← h.lePrev a
        pure (h.setPrev b c)
    | none => pure h
  let c ← h.lePrev a
  return h.store c (h.leNext a)

/-- The links of a list as those of a tail queue. -/
def tailq (h : LinkList α) (last : Cell α) : Tailq α := ⟨h.lhFirst, last, h.leNext, h.lePrev⟩

/-- `h` is the list of `l`: from the first pointer on the elements are those of `l`,
each once, and each back link is the address of the pointer to its element. -/
def Holds (h : LinkList α) : Cell α → List α → Prop
  | c, [] => h.load c = none
  | c, a :: l => h.load c = some a ∧ h.lePrev a = some c ∧ h.Holds (.next a) l

structure Repr (h : LinkList α) (l : List α) : Prop where
  holds : h.Holds .first l
  nodup : l.Nodup

omit [DecidableEq α] in
theorem repr_init : (init : LinkList α).Repr [] := ⟨rfl, List.nodup_nil⟩

omit [DecidableEq α] in
@[simp] theorem load_tailq (last : Cell α) : (h.tailq last).load c = h.load c := by
  cases c <;> rfl

omit [DecidableEq α] in
@[simp] theorem tqePrev_tailq (last : Cell α) : (h.tailq last).tqePrev = h.lePrev := rfl

omit [DecidableEq α] in
theorem holds_append (last : Cell α) :
    h.Holds c (l₁ ++ l₂) ↔ ∃ k, (h.tailq last).Seg c l₁ k ∧ h.Holds k l₂ := by
  induction l₁ generalizing c with
  | nil => simp [Tailq.Seg]
  | cons a l ih => simp [Holds, Tailq.Seg, ih, and_assoc]

omit [DecidableEq α] in
/-- A list is a tail queue, once its last cell is found. -/
theorem repr_iff : h.Repr l ↔ ∃ m, (h.tailq m).Repr l := by
  constructor
  · rintro ⟨holds, nodup⟩
    rw [← List.append_nil l] at holds
    obtain ⟨m, seg, last⟩ := (holds_append .first).mp holds
    exact ⟨m, seg.congr (fun _ _ => by simp) fun _ _ => rfl, (load_tailq m).trans last, nodup⟩
  · rintro ⟨m, seg, last, nodup⟩
    have holds := (@holds_append _ _ _ _ [] m).mpr ⟨m, seg, (load_tailq m).symm.trans last⟩
    rw [List.append_nil] at holds
    exact ⟨holds, nodup⟩

omit [DecidableEq α] in
/-- What is held from a cell on depends on that cell and those of the elements. -/
theorem Holds.congr (holds : h.Holds c l) (here : h'.load c = h.load c)
    (loads : ∀ a ∈ l, h'.leNext a = h.leNext a) (prevs : ∀ a ∈ l, h'.lePrev a = h.lePrev a) :
    h'.Holds c l := by
  induction l generalizing c with
  | nil => exact here.trans holds
  | cons a l ih =>
      obtain ⟨load, prev, rest⟩ := holds
      exact ⟨here.trans load, (prevs a List.mem_cons_self).trans prev,
        ih rest (loads a List.mem_cons_self) (fun b hb => loads b (List.mem_cons_of_mem _ hb))
          fun b hb => prevs b (List.mem_cons_of_mem _ hb)⟩

/-! ## Stores -/

@[simp] theorem load_store_self (h : LinkList α) (c : Cell α) (v : Option α) :
    (h.store c v).load c = v := by
  cases c <;> simp [store, load]

theorem load_store_of_ne (ne : m ≠ c) (v : Option α) : (h.store c v).load m = h.load m := by
  have same := Tailq.load_store_of_ne (q := h.tailq .first) ne v
  cases c <;> cases m <;> exact same

@[simp] theorem lePrev_store (h : LinkList α) (c : Cell α) (v : Option α) :
    (h.store c v).lePrev = h.lePrev := by
  cases c <;> rfl

@[simp] theorem load_setPrev (h : LinkList α) (a : α) (c m : Cell α) :
    (h.setPrev a c).load m = h.load m := by
  cases m <;> rfl

/-! ## Insertion -/

/-- Put `a` behind the pointer in the cell `c`. -/
def insertAt (h : LinkList α) (c : Cell α) (a : α) : LinkList α :=
  let h := h.store (.next a) (h.load c)
  let h := match h.load c with
    | some b => h.setPrev b (.next a)
    | none => h
  (h.store c (some a)).setPrev a c

theorem load_insertAt (h : LinkList α) (c : Cell α) (a : α) (k : Cell α) :
    (h.insertAt c a).load k =
      if k = c then some a else if k = .next a then h.load c else h.load k := by
  have same : ∀ h' : LinkList α, (match h'.load c with
      | some b => h'.setPrev b (.next a)
      | none => h').load k = h'.load k := by
    intro h'
    split <;> simp
  rw [insertAt, load_setPrev]
  by_cases at_c : k = c
  · rw [if_pos at_c, at_c, load_store_self]
  · rw [if_neg at_c, load_store_of_ne at_c, same]
    by_cases atNext : k = .next a
    · rw [if_pos atNext, atNext, load_store_self]
    · rw [if_neg atNext, load_store_of_ne atNext]

theorem lePrev_insertAt (apart : c ≠ .next a) (x : α) : (h.insertAt c a).lePrev x =
    if x = a then some c else if h.load c = some x then some (.next a) else h.lePrev x := by
  have loaded : (h.store (.next a) (h.load c)).load c = h.load c := load_store_of_ne apart _
  by_cases at_a : x = a
  · rw [if_pos at_a, at_a]
    exact Function.update_self ..
  · rw [if_neg at_a]
    refine (Function.update_of_ne at_a ..).trans ?_
    rw [lePrev_store, loaded]
    cases next : h.load c with
    | none => simp
    | some b =>
        simp only [Option.some.injEq]
        by_cases at_b : b = x
        · rw [if_pos at_b, at_b]
          exact Function.update_self ..
        · rw [if_neg at_b]
          refine (Function.update_of_ne (Ne.symm at_b) ..).trans ?_
          rw [lePrev_store]

omit [DecidableEq α] in
/-- The cell that a segment from the head ends in is only in an element of it. -/
theorem end_ne_next (seg : (h.tailq .first).Seg .first l c) (notMem : a ∉ l) : c ≠ .next a := by
  rintro rfl
  rcases seg.end_eq with no | ⟨x, mem, eq⟩
  · cases no
  · cases eq
    exact notMem mem

/-- What the pointer led to comes after the element that is put there. -/
theorem holds_insertAt (holds : h.Holds c l) (nodup : l.Nodup) (beyond : ∀ x ∈ a :: l, c ≠ .next x)
    (notMem : a ∉ l) : (h.insertAt c a).Holds c (a :: l) := by
  have apart : c ≠ .next a := beyond a List.mem_cons_self
  have load := h.load_insertAt c a
  have prev := fun x => lePrev_insertAt (h := h) (x := x) apart
  refine ⟨by rw [load, if_pos rfl], by rw [prev, if_pos rfl], ?_⟩
  have here : (h.insertAt c a).load (.next a) = h.load c := by
    rw [load, if_neg apart.symm, if_pos rfl]
  cases l with
  | nil => exact here.trans holds
  | cons b l =>
      obtain ⟨next, -, rest⟩ := holds
      obtain ⟨notIn, -⟩ := List.nodup_cons.mp nodup
      have other : ∀ x ∈ b :: l, x ≠ a := fun x mem same => notMem (same ▸ mem)
      have kept : ∀ x ∈ b :: l, (h.insertAt c a).load (.next x) = h.load (.next x) := by
        intro x mem
        rw [load, if_neg (beyond x (List.mem_cons_of_mem _ mem)).symm, if_neg]
        exact fun same => other x mem (Cell.next.inj same)
      refine ⟨here.trans next, ?_, rest.congr (kept b List.mem_cons_self)
        (fun x mem => kept x (List.mem_cons_of_mem _ mem)) fun x mem => ?_⟩
      · rw [prev, if_neg (other b List.mem_cons_self), if_pos next]
      · rw [prev, if_neg (other x (List.mem_cons_of_mem _ mem)), if_neg]
        rw [next]
        rintro same
        cases same
        exact notIn mem

/-- An element put behind the pointer after `l₁` comes after `l₁`. -/
theorem Repr.insertAt (repr : h.Repr (l₁ ++ l₂)) (seg : (h.tailq .first).Seg .first l₁ c)
    (notMem : a ∉ l₁ ++ l₂) : (h.insertAt c a).Repr (l₁ ++ a :: l₂) := by
  obtain ⟨k, seg', holds⟩ := (holds_append .first).mp repr.holds
  obtain rfl : c = k := (seg.agree seg').1
  obtain ⟨nodup₁, nodup₂, disjoint⟩ := List.nodup_append.mp repr.nodup
  have notMem₁ : a ∉ l₁ := fun mem => notMem (List.mem_append_left _ mem)
  have notMem₂ : a ∉ l₂ := fun mem => notMem (List.mem_append_right _ mem)
  have apart : c ≠ .next a := end_ne_next seg notMem₁
  have load := h.load_insertAt c a
  have prev := fun x => lePrev_insertAt (h := h) (x := x) apart
  have source : c ∉ Tailq.sources .first l₁ := seg.end_notMem nodup₁ fun _ _ no => by cases no
  refine ⟨(holds_append .first).mpr ⟨c, seg.congr (fun k mem => ?_) fun x mem => ?_, ?_⟩, ?_⟩
  · rw [load_tailq, load_tailq, load, if_neg fun same : k = c => source (same ▸ mem), if_neg]
    rintro rfl
    exact Tailq.next_notMem_sources notMem₁ mem
  · have ne : x ≠ a := fun same => notMem₁ (same ▸ mem)
    refine (prev x).trans ?_
    rw [if_neg ne, if_neg]
    · rfl
    · intro next
      cases l₂ with
      | nil =>
          have null : h.load c = none := holds
          rw [null] at next
          cases next
      | cons b l₂ =>
          rw [holds.1] at next
          cases next
          exact disjoint x mem x List.mem_cons_self rfl
  · refine holds_insertAt holds nodup₂ (fun x mem => end_ne_next seg ?_) notMem₂
    rcases List.mem_cons.mp mem with rfl | mem
    · exact notMem₁
    · exact fun mem' => disjoint x mem' x mem rfl
  · refine List.nodup_append.mpr ⟨nodup₁, List.nodup_cons.mpr ⟨notMem₂, nodup₂⟩,
      fun x mem y mem' => ?_⟩
    rcases List.mem_cons.mp mem' with rfl | mem'
    · exact fun same => notMem₁ (same ▸ mem)
    · exact disjoint x mem y mem'

theorem Repr.insertHead (repr : h.Repr l) (notMem : a ∉ l) : (h.insertHead a).Repr (a :: l) :=
  @Repr.insertAt _ _ _ _ _ [] _ repr rfl notMem

theorem Repr.insertAfter (repr : h.Repr (l₁ ++ b :: l₂)) (notMem : a ∉ l₁ ++ b :: l₂) :
    (h.insertAfter b a).Repr (l₁ ++ b :: a :: l₂) := by
  have ne : b ≠ a := by
    rintro rfl
    exact notMem (List.mem_append_right _ List.mem_cons_self)
  have same : h.insertAfter b a = h.insertAt (.next b) a := by
    have stored : (h.store (.next a) (h.leNext b)).leNext a = h.leNext b :=
      load_store_self h (.next a) _
    have loaded : (h.store (.next a) (h.leNext b)).load (.next b) = h.leNext b :=
      load_store_of_ne (fun eq => ne (Cell.next.inj eq)) _
    have there : h.load (.next b) = h.leNext b := rfl
    rw [LinkList.insertAfter, LinkList.insertAt, there, stored, loaded]
  have split : l₁ ++ b :: l₂ = (l₁ ++ [b]) ++ l₂ := (List.append_cons ..)
  obtain ⟨k, seg, next, prev, -⟩ := (holds_append .first).mp repr.holds
  rw [split] at repr notMem
  rw [same, show l₁ ++ b :: a :: l₂ = (l₁ ++ [b]) ++ a :: l₂ from List.append_cons ..]
  refine repr.insertAt (Tailq.seg_append.mpr ⟨k, seg, ?_, prev, rfl⟩) notMem
  rw [load_tailq, next]

theorem Repr.insertBefore (repr : h.Repr (l₁ ++ b :: l₂)) (notMem : a ∉ l₁ ++ b :: l₂) :
    ∃ h', h.insertBefore b a = some h' ∧ h'.Repr (l₁ ++ a :: b :: l₂) := by
  have ne : b ≠ a := by
    rintro rfl
    exact notMem (List.mem_append_right _ List.mem_cons_self)
  obtain ⟨c, seg, next, prev, -⟩ := (holds_append .first).mp repr.holds
  refine ⟨h.insertAt c a, ?_, repr.insertAt seg notMem⟩
  have apart : c ≠ .next a := by
    rintro rfl
    rcases seg.end_eq with no | ⟨x, mem, eq⟩
    · cases no
    · cases eq
      exact notMem (List.mem_append_left _ mem)
  have again : ((h.setPrev a c).store (.next a) (some b)).lePrev b = some c := by
    rw [lePrev_store]
    exact (Function.update_of_ne ne ..).trans prev
  have loaded : (h.store (.next a) (some b)).load c = some b :=
    (load_store_of_ne apart _).trans next
  rw [LinkList.insertBefore, prev, LinkList.insertAt, next, loaded]
  simp only [Option.bind_eq_bind, Option.bind_some, again]
  -- the two back links are written in the other order
  have links := Function.update_comm ne (some (Cell.next a)) (some c) h.lePrev
  cases c with
  | first => simp only [store, setPrev, links]; rfl
  | next x => simp only [store, setPrev, links]; rfl

/-! ## Removal -/

/-- Take `a`, whose back link is `c`, off the list. -/
def unlink (h : LinkList α) (a : α) (c : Cell α) : LinkList α :=
  let h := match h.leNext a with
    | some b => h.setPrev b c
    | none => h
  h.store c (h.leNext a)

theorem remove_eq (prev : h.lePrev a = some c) : h.remove a = some (h.unlink a c) := by
  unfold LinkList.remove unlink
  cases h.leNext a with
  | none => simp [prev]
  | some b =>
      have again : (h.setPrev b c).lePrev a = some c := by
        by_cases same : a = b
        · rw [same]
          exact Function.update_self ..
        · exact (Function.update_of_ne same ..).trans prev
      simp only [prev, Option.bind_eq_bind, Option.bind_some, Option.pure_def, again]

/-- Unlinking is what it is in a tail queue, but for the last cell. -/
theorem unlink_tailq (last : Cell α) :
    (h.unlink a c).tailq ((h.tailq last).unlink a c).tqhLast = (h.tailq last).unlink a c := by
  have there : (h.tailq last).tqeNext a = h.leNext a := rfl
  rw [unlink, Tailq.unlink, there]
  cases h.leNext a <;> cases c <;> rfl

theorem Repr.remove (repr : h.Repr (l₁ ++ a :: l₂)) :
    ∃ h', h.remove a = some h' ∧ h'.Repr (l₁ ++ l₂) := by
  obtain ⟨last, queue⟩ := repr_iff.mp repr
  obtain ⟨c, prev, unlinked⟩ := queue.unlink
  refine ⟨_, remove_eq prev, repr_iff.mpr ⟨((h.tailq last).unlink a c).tqhLast, ?_⟩⟩
  rw [unlink_tailq]
  exact unlinked

end LinkList

/-- The macros insert into and delete from the sequence that the links hold. -/
theorem queues_hold_sequences (α : Type) [DecidableEq α] :
    (∀ (h : LinkList α) l a, h.Repr l → a ∉ l → (h.insertHead a).Repr (a :: l)) ∧
    (∀ (h : LinkList α) l₁ b l₂ a, h.Repr (l₁ ++ b :: l₂) → a ∉ l₁ ++ b :: l₂ →
      (h.insertAfter b a).Repr (l₁ ++ b :: a :: l₂) ∧
      ∃ h', h.insertBefore b a = some h' ∧ h'.Repr (l₁ ++ a :: b :: l₂)) ∧
    (∀ (h : LinkList α) l₁ a l₂, h.Repr (l₁ ++ a :: l₂) →
      ∃ h', h.remove a = some h' ∧ h'.Repr (l₁ ++ l₂)) ∧
    (∀ (q : Tailq α) l a, q.Repr l → a ∉ l →
      (q.insertHead a).Repr (a :: l) ∧ (q.insertTail a).Repr (l ++ [a])) ∧
    ∀ (q : Tailq α) l₁ a l₂, q.Repr (l₁ ++ a :: l₂) →
      ∃ q', q.remove a = some q' ∧ q'.Repr (l₁ ++ l₂) ∧ q'.remove a = some q' := by
  refine ⟨fun h l a repr notMem => repr.insertHead notMem,
    fun h l₁ b l₂ a repr notMem => ⟨repr.insertAfter notMem, repr.insertBefore notMem⟩,
    fun h l₁ a l₂ repr => repr.remove,
    fun q l a repr notMem => ⟨repr.insertHead notMem, repr.insertTail notMem⟩,
    fun q l₁ a l₂ repr => ?_⟩
  obtain ⟨c, prev, unlinked⟩ := repr.unlink
  have removed : q.remove a = some (q.unlink a c) := by rw [Tailq.remove, prev]; rfl
  exact ⟨_, removed, unlinked, Tailq.remove_remove removed⟩

/-- Three elements, one of them put in the middle and taken out again. -/
theorem queues_hold_sequences_three : ∃ h h' : LinkList (Fin 3),
    (((LinkList.init.insertHead 2).insertHead 0).insertBefore 2 1) = some h ∧ h.Repr [0, 1, 2] ∧
      h.remove 1 = some h' ∧ h'.Repr [0, 2] := by
  obtain ⟨head, insert, remove, -⟩ := queues_hold_sequences (Fin 3)
  have two := head _ _ 0 (head _ _ 2 LinkList.repr_init (by decide)) (by decide)
  obtain ⟨-, h, inserted, three⟩ := insert _ [0] 2 [] 1 two (by decide)
  obtain ⟨h', removed, rest⟩ := remove h [0] 1 [2] three
  exact ⟨h, h', inserted, three, removed, rest⟩

end Mos
