import Mathlib.Data.List.InsertIdx
import Mathlib.Tactic.Common

/-!
# Line editing

A line of text with a cursor between two of its characters, and the usual keys:
a character goes in at the cursor, backspace takes out the character before it.
-/

namespace Mos

variable {α : Type}

/-- A line, with the cursor somewhere within it. -/
structure LineEdit (α : Type) where
  text : List α
  cursor : Nat
  within : cursor ≤ text.length

namespace LineEdit

variable {e : LineEdit α} {c : α}

def empty : LineEdit α := ⟨[], 0, Nat.le_refl 0⟩

def insert (e : LineEdit α) (c : α) : LineEdit α where
  text := e.text.insertIdx e.cursor c
  cursor := e.cursor + 1
  within := by
    rw [List.length_insertIdx_of_le_length e.within]
    exact Nat.succ_le_succ e.within

/-- Nothing happens at the start of the line. -/
def backspace (e : LineEdit α) : LineEdit α :=
  if h : e.cursor = 0 then e
  else
    { text := e.text.eraseIdx (e.cursor - 1)
      cursor := e.cursor - 1
      within := by
        have := e.within
        rw [List.length_eraseIdx_of_lt (by omega)]
        omega }

def left (e : LineEdit α) : LineEdit α :=
  { e with cursor := e.cursor - 1, within := Nat.le_trans (Nat.sub_le _ _) e.within }

def right (e : LineEdit α) : LineEdit α :=
  if h : e.cursor < e.text.length then { e with cursor := e.cursor + 1, within := h } else e

theorem length_insert (e : LineEdit α) (c : α) : (e.insert c).text.length = e.text.length + 1 :=
  List.length_insertIdx_of_le_length e.within c

theorem length_backspace (h : e.cursor ≠ 0) :
    e.backspace.text.length = e.text.length - 1 := by
  have := e.within
  simp only [backspace, dif_neg h]
  exact List.length_eraseIdx_of_lt (by omega)

theorem backspace_start (h : e.cursor = 0) : e.backspace = e := dif_pos h

theorem backspace_cursor (e : LineEdit α) : e.backspace.cursor = e.cursor - 1 := by
  unfold backspace
  split
  · omega
  · rfl

theorem length_backspace_le (e : LineEdit α) : e.backspace.text.length ≤ e.text.length + 1 := by
  unfold backspace
  split
  · exact Nat.le_succ _
  · exact Nat.le_succ_of_le (List.length_eraseIdx_le ..)

theorem length_right_le (e : LineEdit α) : e.right.text.length ≤ e.text.length + 1 := by
  unfold right
  split
  · exact Nat.le_succ _
  · exact Nat.le_succ _

/-- The character at `k` after an insertion. -/
theorem getElem?_insert (e : LineEdit α) (c : α) (k : Nat) :
    (e.insert c).text[k]? =
      if k < e.cursor then e.text[k]?
      else if k = e.cursor then some c else e.text[k - 1]? := by
  have := e.within
  simp only [insert, List.getElem?_insertIdx]
  split
  · rfl
  · split
    · rw [if_pos (by omega)]
    · rfl

theorem getElem?_backspace (h : e.cursor ≠ 0) (k : Nat) :
    e.backspace.text[k]? = if k < e.cursor - 1 then e.text[k]? else e.text[k + 1]? := by
  simp only [backspace, dif_neg h, List.getElem?_eraseIdx]

end LineEdit

end Mos
