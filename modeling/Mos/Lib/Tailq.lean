import Mathlib.Data.List.Basic
import Mathlib.Logic.Function.Basic
import Mathlib.Tactic.Common

/-!
# Tail queues

A doubly linked queue whose links live in its elements, as the `TAILQ` macros
make it. An element's back link is the address of the pointer that leads to it
(`Cell`), and unlinking an element leaves its own links as they were.

`Repr q l` says that `q` is the well-formed queue of the elements `l`. Every
operation has one lemma on `Repr`. The links an element is left with do no harm
as long as they say what the queue says (`Harmless`), so that unlinking it once
more changes nothing; straight after it was unlinked they do.
-/

namespace Mos

variable {α : Type} [DecidableEq α]

/-- The address of a pointer to an element: that of the head's first pointer, or
that of the next pointer of an element. -/
inductive Cell (α : Type)
  | first
  | next (a : α)
  deriving DecidableEq

/-- The head, and the links of all elements there are, on the queue or not. -/
structure Tailq (α : Type) where
  tqhFirst : Option α
  tqhLast : Cell α
  tqeNext : α → Option α
  tqePrev : α → Option (Cell α)

namespace Tailq

variable {q q' : Tailq α} {a b : α} {c m : Cell α} {l l₁ l₂ : List α}

def load (q : Tailq α) : Cell α → Option α
  | .first => q.tqhFirst
  | .next a => q.tqeNext a

def store (q : Tailq α) (c : Cell α) (v : Option α) : Tailq α :=
  match c with
  | .first => { q with tqhFirst := v }
  | .next a => { q with tqeNext := Function.update q.tqeNext a v }

def setPrev (q : Tailq α) (a : α) (c : Cell α) : Tailq α :=
  { q with tqePrev := Function.update q.tqePrev a (some c) }

/-- A queue whose elements were never linked. -/
def init : Tailq α where
  tqhFirst := none
  tqhLast := .first
  tqeNext := fun _ => none
  tqePrev := fun _ => none

/-- `TAILQ_INSERT_HEAD`. -/
def insertHead (q : Tailq α) (a : α) : Tailq α :=
  let q := q.store (.next a) q.tqhFirst
  let q := match q.tqhFirst with
    | some b => q.setPrev b (.next a)
    | none => { q with tqhLast := .next a }
  (q.store .first (some a)).setPrev a .first

/-- `TAILQ_INSERT_TAIL`. -/
def insertTail (q : Tailq α) (a : α) : Tailq α :=
  let q := (q.store (.next a) none).setPrev a q.tqhLast
  { q.store q.tqhLast (some a) with tqhLast := .next a }

/-- Take `a`, whose back link is `c`, off the queue. -/
def unlink (q : Tailq α) (a : α) (c : Cell α) : Tailq α :=
  let q := match q.tqeNext a with
    | some b => q.setPrev b c
    | none => { q with tqhLast := c }
  q.store c (q.tqeNext a)

/-- `TAILQ_REMOVE`. The back link of an element that was never linked is null. -/
def remove (q : Tailq α) (a : α) : Option (Tailq α) :=
  (q.tqePrev a).map (q.unlink a)

@[simp] theorem load_store_self (q : Tailq α) (c : Cell α) (v : Option α) :
    (q.store c v).load c = v := by
  cases c <;> simp [store, load]

theorem load_store_of_ne (h : m ≠ c) (v : Option α) : (q.store c v).load m = q.load m := by
  cases c with
  | first =>
      cases m with
      | first => exact (h rfl).elim
      | next b => rfl
  | next a =>
      cases m with
      | first => rfl
      | next b => exact Function.update_of_ne (fun eq => h (by rw [eq])) _ _

@[simp] theorem tqePrev_store (q : Tailq α) (c : Cell α) (v : Option α) :
    (q.store c v).tqePrev = q.tqePrev := by
  cases c <;> rfl

@[simp] theorem tqhLast_store (q : Tailq α) (c : Cell α) (v : Option α) :
    (q.store c v).tqhLast = q.tqhLast := by
  cases c <;> rfl

omit [DecidableEq α] in
@[simp] theorem load_tqhLast (q : Tailq α) (c m : Cell α) :
    ({ q with tqhLast := c } : Tailq α).load m = q.load m := by
  cases m <;> rfl

@[simp] theorem load_setPrev (q : Tailq α) (a : α) (c m : Cell α) :
    (q.setPrev a c).load m = q.load m := by
  cases m <;> rfl

/-- Storing what a cell holds changes nothing. -/
theorem store_eq_self (h : q.load c = v) : q.store c v = q := by
  subst h
  cases c <;> simp [store, load]

omit [DecidableEq α] in
theorem setLast_eq_self (h : q.tqhLast = c) : { q with tqhLast := c } = q := by
  subst h
  rfl

theorem setPrev_eq_self (h : q.tqePrev a = some c) : q.setPrev a c = q := by
  unfold setPrev
  rw [← h, Function.update_eq_self]

/-! ## Segments -/

/-- The pointers from the cell `c` on run through `l` and end in the cell `m`,
and the back links of `l` agree. -/
def Seg (q : Tailq α) : Cell α → List α → Cell α → Prop
  | c, [], m => c = m
  | c, a :: l, m => q.load c = some a ∧ q.tqePrev a = some c ∧ q.Seg (.next a) l m

/-- The cells a segment is read from. -/
def sources : Cell α → List α → List (Cell α)
  | _, [] => []
  | c, a :: l => c :: sources (.next a) l

omit [DecidableEq α] in
theorem mem_sources (h : m ∈ sources c l) : m = c ∨ ∃ a ∈ l, m = .next a := by
  induction l generalizing c with
  | nil => cases h
  | cons a l ih =>
      rcases List.mem_cons.mp h with eq | h
      · exact .inl eq
      · rcases ih h with rfl | ⟨b, hb, rfl⟩
        · exact .inr ⟨a, List.mem_cons_self, rfl⟩
        · exact .inr ⟨b, List.mem_cons_of_mem _ hb, rfl⟩

omit [DecidableEq α] in
theorem Seg.end_eq (seg : q.Seg c l m) : m = c ∨ ∃ a ∈ l, m = .next a := by
  induction l generalizing c with
  | nil => exact .inl seg.symm
  | cons a l ih =>
      rcases ih seg.2.2 with rfl | ⟨b, hb, rfl⟩
      · exact .inr ⟨a, List.mem_cons_self, rfl⟩
      · exact .inr ⟨b, List.mem_cons_of_mem _ hb, rfl⟩

omit [DecidableEq α] in
/-- The cell a segment ends in is not one it is read from. -/
theorem Seg.end_notMem (seg : q.Seg c l m) (nodup : l.Nodup) (hc : ∀ a ∈ l, c ≠ .next a) :
    m ∉ sources c l := by
  induction l generalizing c with
  | nil => simp [sources]
  | cons a l ih =>
      obtain ⟨notMem, nodup⟩ := List.nodup_cons.mp nodup
      have apart : ∀ b ∈ l, Cell.next a ≠ .next b := by
        rintro b hb eq
        cases eq
        exact notMem hb
      intro h
      rcases List.mem_cons.mp h with rfl | h
      · rcases seg.2.2.end_eq with eq | ⟨b, hb, eq⟩
        · exact hc a List.mem_cons_self eq
        · exact hc b (List.mem_cons_of_mem _ hb) eq
      · exact ih seg.2.2 nodup apart h

omit [DecidableEq α] in
/-- A segment depends on its sources and the back links of its elements. -/
theorem Seg.congr (seg : q.Seg c l m) (loads : ∀ k ∈ sources c l, q'.load k = q.load k)
    (prevs : ∀ a ∈ l, q'.tqePrev a = q.tqePrev a) : q'.Seg c l m := by
  induction l generalizing c with
  | nil => exact seg
  | cons a l ih =>
      obtain ⟨load, prev, seg⟩ := seg
      exact ⟨(loads c List.mem_cons_self).trans load, (prevs a List.mem_cons_self).trans prev,
        ih seg (fun k hk => loads k (List.mem_cons_of_mem _ hk))
          fun b hb => prevs b (List.mem_cons_of_mem _ hb)⟩

omit [DecidableEq α] in
theorem seg_append : q.Seg c (l₁ ++ l₂) m ↔ ∃ k, q.Seg c l₁ k ∧ q.Seg k l₂ m := by
  induction l₁ generalizing c with
  | nil => simp [Seg]
  | cons a l ih => simp [Seg, ih, and_assoc]

/-! ## Well-formed queues -/

/-- `q` is the queue of `l`: from the first pointer on the elements are those of
`l`, each once, and the last pointer is the null one at `tqhLast`. -/
structure Repr (q : Tailq α) (l : List α) : Prop where
  seg : q.Seg .first l q.tqhLast
  last : q.load q.tqhLast = none
  nodup : l.Nodup

omit [DecidableEq α] in
theorem repr_init : (init : Tailq α).Repr [] := ⟨rfl, rfl, List.nodup_nil⟩

omit [DecidableEq α] in
theorem Repr.first_eq (repr : q.Repr l) : q.tqhFirst = l.head? := by
  have seg := repr.seg
  have last := repr.last
  cases l with
  | nil =>
      have empty : Cell.first = q.tqhLast := seg
      rw [← empty] at last
      exact last
  | cons a l => exact seg.1

omit [DecidableEq α] in
/-- The last cell is the head's or that of an element. -/
theorem Repr.last_eq (repr : q.Repr l) : q.tqhLast = .first ∨ ∃ a ∈ l, q.tqhLast = .next a :=
  repr.seg.end_eq

omit [DecidableEq α] in
theorem Repr.last_notMem (repr : q.Repr l) : q.tqhLast ∉ sources .first l :=
  repr.seg.end_notMem repr.nodup (by simp)

omit [DecidableEq α] in
theorem next_notMem_sources (h : a ∉ l) : Cell.next a ∉ sources .first l := by
  intro mem
  rcases mem_sources mem with eq | ⟨b, hb, eq⟩
  · cases eq
  · cases eq
    exact h hb

omit [DecidableEq α] in
theorem first_notMem_sources : Cell.first ∉ sources (.next a) l := by
  intro mem
  rcases mem_sources mem with eq | ⟨b, -, eq⟩
  · cases eq
  · cases eq

theorem Repr.insertTail (repr : q.Repr l) (h : a ∉ l) : (q.insertTail a).Repr (l ++ [a]) := by
  have ne : q.tqhLast ≠ .next a := by
    intro eq
    rcases repr.last_eq with first | ⟨b, hb, last⟩
    · rw [eq] at first
      cases first
    · rw [eq] at last
      cases last
      exact h hb
  have prev : ∀ b, (q.insertTail a).tqePrev b =
      Function.update q.tqePrev a (some q.tqhLast) b := by
    intro b
    simp [Tailq.insertTail, setPrev]
  have load : ∀ k, (q.insertTail a).load k =
      if k = q.tqhLast then some a else if k = .next a then none else q.load k := by
    intro k
    simp only [Tailq.insertTail, load_tqhLast]
    by_cases atLast : k = q.tqhLast
    · rw [if_pos atLast, atLast]
      simp [setPrev]
    · rw [if_neg atLast, load_store_of_ne (by simpa [setPrev] using atLast), load_setPrev]
      by_cases atNext : k = .next a
      · rw [if_pos atNext, atNext, load_store_self]
      · rw [if_neg atNext, load_store_of_ne atNext]
  refine ⟨seg_append.mpr ⟨q.tqhLast, repr.seg.congr (fun k hk => ?_) fun b hb => ?_, ?_, ?_, rfl⟩,
    ?_, ?_⟩
  · have hlast : k ≠ q.tqhLast := fun eq => repr.last_notMem (eq ▸ hk)
    have hnext : k ≠ .next a := fun eq => next_notMem_sources h (eq ▸ hk)
    rw [load, if_neg hlast, if_neg hnext]
  · rw [prev, Function.update_of_ne (fun eq : b = a => h (eq ▸ hb))]
  · rw [load, if_pos rfl]
  · rw [prev, Function.update_self]
  · have last : (q.insertTail a).tqhLast = .next a := rfl
    rw [last, load, if_neg ne.symm, if_pos rfl]
  · refine List.nodup_append.mpr ⟨repr.nodup, by simp, fun x hx y hy eq => ?_⟩
    rw [List.mem_singleton] at hy
    subst hy eq
    exact h hx

theorem Repr.insertHead (repr : q.Repr l) (h : a ∉ l) : (q.insertHead a).Repr (a :: l) := by
  have first := repr.first_eq
  have nodup : (a :: l).Nodup := List.nodup_cons.mpr ⟨h, repr.nodup⟩
  have load : ∀ k, (q.insertHead a).load k =
      if k = .first then some a else if k = .next a then q.tqhFirst else q.load k := by
    intro k
    simp only [Tailq.insertHead, load_setPrev]
    by_cases atFirst : k = .first
    · rw [if_pos atFirst, atFirst, load_store_self]
    · have same : ∀ q' : Tailq α, (match q'.tqhFirst with
          | some b => q'.setPrev b (.next a)
          | none => { q' with tqhLast := .next a }).load k = q'.load k := by
        intro q'
        split <;> simp
      rw [if_neg atFirst, load_store_of_ne atFirst, same]
      by_cases atNext : k = .next a
      · rw [if_pos atNext, atNext, load_store_self]
      · rw [if_neg atNext, load_store_of_ne atNext]
  cases l with
  | nil =>
      have empty : Cell.first = q.tqhLast := repr.seg
      have null : q.tqhFirst = none := first
      have last : (q.insertHead a).tqhLast = .next a := by
        simp [Tailq.insertHead, store, null, setPrev]
      refine ⟨⟨?_, ?_, ?_⟩, ?_, nodup⟩
      · rw [load, if_pos rfl]
      · simp [Tailq.insertHead, setPrev]
      · exact last.symm
      · rw [last, load, if_neg (by simp), if_pos rfl, null]
  | cons b l =>
      have some_b : q.tqhFirst = some b := first
      obtain ⟨-, -, seg⟩ := repr.seg
      have hab : a ≠ b := fun eq => h (eq ▸ List.mem_cons_self)
      have prev : ∀ x, (q.insertHead a).tqePrev x =
          Function.update (Function.update q.tqePrev b (some (.next a))) a (some .first) x := by
        intro x
        simp [Tailq.insertHead, store, some_b, setPrev]
      have last : (q.insertHead a).tqhLast = q.tqhLast := by
        simp [Tailq.insertHead, store, some_b, setPrev]
      have hb : b ∉ l := (List.nodup_cons.mp repr.nodup).1
      refine ⟨⟨?_, ?_, ?_, ?_, ?_⟩, ?_, nodup⟩
      · rw [load, if_pos rfl]
      · rw [prev, Function.update_self]
      · rw [load, if_neg (by simp), if_pos rfl, some_b]
      · rw [prev, Function.update_of_ne hab.symm, Function.update_self]
      · rw [last]
        refine seg.congr (fun k hk => ?_) fun x hx => ?_
        · have hfirst : k ≠ .first := fun eq => first_notMem_sources (eq ▸ hk)
          have hnext : k ≠ .next a := by
            rintro rfl
            rcases mem_sources hk with eq | ⟨x, hx, eq⟩
            · cases eq
              exact hab rfl
            · cases eq
              exact h (List.mem_cons_of_mem _ hx)
          rw [load, if_neg hfirst, if_neg hnext]
        · have hxa : x ≠ a := fun eq => h (List.mem_cons_of_mem _ (eq ▸ hx))
          have hxb : x ≠ b := fun eq => hb (eq ▸ hx)
          rw [prev, Function.update_of_ne hxa, Function.update_of_ne hxb]
      · rw [last, load]
        have hfirst : q.tqhLast ≠ .first := by
          rcases seg.end_eq with eq | ⟨x, -, eq⟩ <;> simp [eq]
        have hnext : q.tqhLast ≠ .next a := by
          intro eq'
          rcases seg.end_eq with eq | ⟨x, hx, eq⟩
          · rw [eq'] at eq
            cases eq
            exact hab rfl
          · rw [eq'] at eq
            cases eq
            exact h (List.mem_cons_of_mem _ hx)
        rw [if_neg hfirst, if_neg hnext]
        exact repr.last

/-! ## Unlinking -/

theorem load_unlink (q : Tailq α) (a : α) (c k : Cell α) :
    (q.unlink a c).load k = if k = c then q.tqeNext a else q.load k := by
  unfold unlink
  cases h : q.tqeNext a with
  | none =>
      by_cases eq : k = c
      · rw [if_pos eq, eq, load_store_self]
        exact h
      · rw [if_neg eq, load_store_of_ne eq, load_tqhLast]
  | some b =>
      by_cases eq : k = c
      · rw [if_pos eq, eq, load_store_self]
        exact h
      · rw [if_neg eq, load_store_of_ne eq, load_setPrev]

theorem tqePrev_unlink (q : Tailq α) (a b : α) (c : Cell α) :
    (q.unlink a c).tqePrev b = if q.tqeNext a = some b then some c else q.tqePrev b := by
  unfold unlink
  cases h : q.tqeNext a with
  | none => simp
  | some x =>
      rcases eq_or_ne b x with rfl | ne
      · simp [setPrev]
      · simp [setPrev, ne, ne.symm]

theorem tqhLast_unlink (q : Tailq α) (a : α) (c : Cell α) :
    (q.unlink a c).tqhLast = if q.tqeNext a = none then c else q.tqhLast := by
  unfold unlink
  cases h : q.tqeNext a <;> simp [setPrev]

/-- The queue around `a` closes when `a` is unlinked. -/
theorem Repr.unlink (repr : q.Repr (l₁ ++ a :: l₂)) :
    ∃ c, q.tqePrev a = some c ∧ (q.unlink a c).Repr (l₁ ++ l₂) := by
  obtain ⟨c, seg₁, load, prev, seg₂⟩ := seg_append.mp repr.seg
  obtain ⟨nodup₁, nodup₂, apart⟩ := List.nodup_append.mp repr.nodup
  obtain ⟨ha, nodup₂⟩ := List.nodup_cons.mp nodup₂
  have disjoint : ∀ x ∈ l₁, x ∉ l₂ := fun x hx hx' =>
    apart x hx x (List.mem_cons_of_mem _ hx') rfl
  have nodup : (l₁ ++ l₂).Nodup :=
    List.nodup_append.mpr ⟨nodup₁, nodup₂, fun x hx y hy eq => disjoint x hx (eq ▸ hy)⟩
  have hc : c ∉ sources .first l₁ := seg₁.end_notMem nodup₁ (by simp)
  have kept : ∀ b ∈ l₁ ++ l₂, q.tqeNext a ≠ some b →
      (q.unlink a c).tqePrev b = q.tqePrev b := fun b _ ne => by rw [tqePrev_unlink, if_neg ne]
  -- the elements before `a` neither come after it nor are read from its cell
  have before : q.tqeNext a ∉ l₁.map some → (q.unlink a c).Seg .first l₁ c := fun notNext =>
    seg₁.congr (fun k hk => by rw [load_unlink, if_neg (fun eq : k = c => hc (eq ▸ hk))]) fun b hb =>
      kept b (List.mem_append_left _ hb) fun eq => notNext (List.mem_map.mpr ⟨b, hb, eq.symm⟩)
  refine ⟨c, prev, ?_⟩
  cases l₂ with
  | nil =>
      have atEnd : Cell.next a = q.tqhLast := seg₂
      have null : q.tqeNext a = none := by
        have last := repr.last
        rw [← atEnd] at last
        exact last
      have last : (q.unlink a c).tqhLast = c := by rw [tqhLast_unlink, if_pos null]
      refine ⟨?_, ?_, nodup⟩
      · rw [last, List.append_nil]
        exact before (by simp [null])
      · rw [last, load_unlink, if_pos rfl, null]
  | cons b l₂ =>
      obtain ⟨next, -, seg₂⟩ := seg₂
      have next' : q.tqeNext a = some b := next
      have last : (q.unlink a c).tqhLast = q.tqhLast := by
        rw [tqhLast_unlink, if_neg (by rw [next']; simp)]
      obtain ⟨hb, nodup₂⟩ := List.nodup_cons.mp nodup₂
      have hc' : ∀ x, x ∈ b :: l₂ → c ≠ .next x := by
        rintro x hx rfl
        rcases seg₁.end_eq with eq | ⟨y, hy, eq⟩
        · cases eq
        · cases eq
          exact disjoint _ hy hx
      have hsources : c ∉ sources (.next b) l₂ := by
        intro h
        rcases mem_sources h with eq | ⟨x, hx, eq⟩
        · exact hc' b List.mem_cons_self eq
        · exact hc' x (List.mem_cons_of_mem _ hx) eq
      refine ⟨?_, ?_, nodup⟩
      · rw [last]
        refine seg_append.mpr ⟨c, before ?_, ?_, ?_, ?_⟩
        · rw [next', List.mem_map]
          rintro ⟨x, hx, eq⟩
          cases eq
          exact disjoint _ hx List.mem_cons_self
        · rw [load_unlink, if_pos rfl, next']
        · rw [tqePrev_unlink, if_pos next']
        · refine seg₂.congr (fun k hk => ?_) fun x hx => kept x (by simp [hx]) ?_
          · rw [load_unlink, if_neg (fun eq : k = c => hsources (eq ▸ hk))]
          · rw [next']
            rintro eq
            cases eq
            exact hb hx
      · rw [last, load_unlink, if_neg]
        · exact repr.last
        · intro eq
          rcases seg₂.end_eq with at_b | ⟨x, hx, at_x⟩
          · exact hc' b List.mem_cons_self (eq.symm.trans at_b)
          · exact hc' x (List.mem_cons_of_mem _ hx) (eq.symm.trans at_x)

theorem Repr.remove (repr : q.Repr l) (h : a ∈ l) :
    ∃ q', q.remove a = some q' ∧ q'.Repr (l.erase a) := by
  obtain ⟨l₁, l₂, rfl⟩ := List.append_of_mem h
  have ha : a ∉ l₁ := fun mem =>
    (List.nodup_append.mp repr.nodup).2.2 a mem a List.mem_cons_self rfl
  obtain ⟨c, prev, repr'⟩ := repr.unlink
  refine ⟨q.unlink a c, by rw [Tailq.remove, prev]; rfl, ?_⟩
  rw [List.erase_append_right _ ha, List.erase_cons_head]
  exact repr'

/-! ## Unlinking an element that is not on the queue -/

/-- The links that `a` was left with agree with what is `live` in the queue: the
pointer its back link names leads where its next link leads, and back. -/
structure Harmless (q : Tailq α) (live : α → Prop) (a : α) (c : Cell α) : Prop where
  back : q.tqePrev a = some c
  load : (∀ b, c = .next b → live b) → q.load c = q.tqeNext a
  next : ∀ b, q.tqeNext a = some b → live b → q.tqePrev b = some c
  last : q.tqeNext a = none → q.tqhLast = c

/-- Unlinking an element that is not on the queue is harmless when its links
agree with the queue. -/
theorem Repr.remove_harmless (repr : q.Repr l) (harmless : q.Harmless (· ∈ l) a c) :
    ∃ q', q.remove a = some q' ∧ q'.Repr l := by
  refine ⟨q.unlink a c, by rw [Tailq.remove, harmless.back]; rfl, ?_⟩
  have last : (q.unlink a c).tqhLast = q.tqhLast := by
    rw [tqhLast_unlink]
    by_cases null : q.tqeNext a = none
    · rw [if_pos null, harmless.last null]
    · rw [if_neg null]
  have load : ∀ k, (∀ b, k = .next b → b ∈ l) → (q.unlink a c).load k = q.load k := by
    intro k hk
    rw [load_unlink]
    rcases eq_or_ne k c with rfl | ne
    · rw [if_pos rfl, harmless.load hk]
    · rw [if_neg ne]
  refine ⟨?_, ?_, repr.nodup⟩
  · rw [last]
    refine repr.seg.congr (fun k hk => load k ?_) fun b hb => ?_
    · rintro b rfl
      by_contra notMem
      exact next_notMem_sources notMem hk
    · rw [tqePrev_unlink]
      by_cases next : q.tqeNext a = some b
      · rw [if_pos next, harmless.next b next hb]
      · rw [if_neg next]
  · rw [last, load]
    · exact repr.last
    · intro b eq
      rcases repr.last_eq with first | ⟨x, hx, next⟩
      · rw [first] at eq
        cases eq
      · rw [next] at eq
        cases eq
        exact hx

omit [DecidableEq α] in
/-- Two queues that run through the same elements have the same pointers there. -/
theorem Seg.agree {m' : Cell α} (seg : q.Seg c l m) (seg' : q'.Seg c l m') :
    m = m' ∧ (∀ k ∈ sources c l, q.load k = q'.load k) ∧ ∀ b ∈ l, q.tqePrev b = q'.tqePrev b := by
  induction l generalizing c with
  | nil => exact ⟨seg.symm.trans seg', by simp [sources], by simp⟩
  | cons a l ih =>
      obtain ⟨load, prev, seg⟩ := seg
      obtain ⟨load', prev', seg'⟩ := seg'
      obtain ⟨ends, loads, prevs⟩ := ih seg seg'
      refine ⟨ends, fun k hk => ?_, fun b hb => ?_⟩
      · rcases List.mem_cons.mp hk with rfl | hk
        · rw [load, load']
        · exact loads k hk
      · rcases List.mem_cons.mp hb with rfl | hb
        · rw [prev, prev']
        · exact prevs b hb

omit [DecidableEq α] in
/-- A segment is read from the cells of its elements, and it ends in the last one. -/
theorem Seg.source_or_end (seg : q.Seg c l m) {k : Cell α} (h : k = c ∨ ∃ a ∈ l, k = .next a) :
    k ∈ sources c l ∨ k = m := by
  induction l generalizing c with
  | nil =>
      rcases h with rfl | ⟨a, ha, -⟩
      · exact .inr seg
      · cases ha
  | cons a l ih =>
      have later : k = .next a ∨ (∃ b ∈ l, k = .next b) → k ∈ sources c (a :: l) ∨ k = m :=
        fun h => (ih seg.2.2 h).imp_left (List.mem_cons_of_mem _)
      rcases h with rfl | ⟨b, hb, rfl⟩
      · exact .inl List.mem_cons_self
      · rcases List.mem_cons.mp hb with rfl | hb
        · exact later (.inl rfl)
        · exact later (.inr ⟨b, hb, rfl⟩)

/-- Unlinking an element that is not on the queue is harmless only when its links
agree with the queue. -/
theorem Repr.harmless_of_unlink (repr : q.Repr l) (back : q.tqePrev a = some c)
    (repr' : (q.unlink a c).Repr l) : q.Harmless (· ∈ l) a c := by
  obtain ⟨ends, loads, prevs⟩ := repr.seg.agree repr'.seg
  refine ⟨back, fun live => ?_, fun b next hb => ?_, fun null => ?_⟩
  · have here : c = .first ∨ ∃ b ∈ l, c = .next b := by
      cases c with
      | first => exact .inl rfl
      | next b => exact .inr ⟨b, live b rfl, rfl⟩
    have unlinked : (q.unlink a c).load c = q.tqeNext a := by rw [load_unlink, if_pos rfl]
    rcases repr.seg.source_or_end here with source | atEnd
    · rw [loads c source, unlinked]
    · have null : (q.unlink a c).load c = none := by
        have last := repr'.last
        rwa [← ends, ← atEnd] at last
      rw [← unlinked, null, atEnd, repr.last]
  · rw [prevs b hb, tqePrev_unlink, if_pos next]
  · rw [ends, tqhLast_unlink, if_pos null]

/-- An element just unlinked has links that agree with the queue. -/
theorem harmless_unlink (back : q.tqePrev a = some c) (live : α → Prop) :
    (q.unlink a c).Harmless live a c := by
  have next : (q.unlink a c).tqeNext a = q.tqeNext a := by
    have := load_unlink q a c (.next a)
    rcases eq_or_ne (Cell.next a) c with rfl | ne
    · rwa [if_pos rfl] at this
    · rwa [if_neg ne] at this
  refine ⟨?_, fun _ => ?_, fun b hb _ => ?_, fun null => ?_⟩
  · rw [tqePrev_unlink, back, ite_self]
  · rw [next, load_unlink, if_pos rfl]
  · rw [next] at hb
    rw [tqePrev_unlink, if_pos hb]
  · rw [next] at null
    rw [tqhLast_unlink, if_pos null]

/-- Unlinking an element twice is unlinking it once. -/
theorem remove_remove (h : q.remove a = some q') : q'.remove a = some q' := by
  obtain ⟨c, back, rfl⟩ := Option.map_eq_some_iff.mp h
  have harmless := harmless_unlink back fun _ => True
  have load := harmless.load fun _ _ => trivial
  refine Option.map_eq_some_iff.mpr ⟨c, harmless.back, ?_⟩
  show (match (q.unlink a c).tqeNext a with
    | some b => (q.unlink a c).setPrev b c
    | none => { q.unlink a c with tqhLast := c }).store c _ = _
  cases next : (q.unlink a c).tqeNext a with
  | none =>
      simp only [setLast_eq_self (harmless.last next)]
      exact store_eq_self load
  | some b =>
      simp only [setPrev_eq_self (harmless.next b next trivial)]
      exact store_eq_self load

/-- An element inserted twice is its own successor, and the queue does not end. -/
theorem not_repr_insertTail_twice (q : Tailq α) (a : α) :
    ¬ ((q.insertTail a).insertTail a).Repr l := by
  intro repr
  have last : ((q.insertTail a).insertTail a).load (.next a) = none := repr.last
  have first : (q.insertTail a).tqhLast = .next a := rfl
  have stored : (((q.insertTail a).store (.next a) none).setPrev a (.next a)).tqhLast = .next a :=
    (tqhLast_store ..).trans first
  rw [insertTail, first, load_tqhLast, stored, load_store_self] at last
  cases last

end Tailq

end Mos
