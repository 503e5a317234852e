import Mathlib.Tactic.Common

/-!
# Text that scrolls

Rows of characters of which only the last one is written to. A character that finds this row full
starts a new one, so a full row stays the last one until then. The rows are seen through a window of
which the last row is the bottom: a cell outside the text is blank.

## Main results

- `cell_newLine`, `cell_backspace`, `cell_append`: what each operation does to the cells.
- `Bounded.put`: no row is longer than the width.
-/

/-- The row that is written to, and the rows above it, the nearest one first. -/
structure ScrollText (α : Type) where
  current : List α
  above : List (List α)
  deriving DecidableEq, Repr

namespace ScrollText

variable {α : Type}

def empty : ScrollText α := ⟨[], []⟩

def newLine (t : ScrollText α) : ScrollText α := ⟨[], t.current :: t.above⟩

def backspace (t : ScrollText α) : ScrollText α := { t with current := t.current.dropLast }

def append (t : ScrollText α) (c : α) : ScrollText α := { t with current := t.current ++ [c] }

/-- A row is left when there is something to write behind its last character. -/
def put (width : Nat) (t : ScrollText α) (c : α) : ScrollText α :=
  if width ≤ t.current.length then t.newLine.append c else t.append c

/-- The rows from the bottom up. -/
def rows (t : ScrollText α) : List (List α) := t.current :: t.above

/-- The character in a column of the row that is so far above the bottom. -/
def cell (blank : α) (t : ScrollText α) (up col : Nat) : α := (t.rows.getD up []).getD col blank

variable {blank c : α} {t : ScrollText α} {up col width : Nat}

@[simp] theorem cell_empty (blank : α) (up col : Nat) : (empty : ScrollText α).cell blank up col = blank := by
  cases up <;> rfl

theorem cell_bottom : t.cell blank 0 col = (t.current[col]?).getD blank :=
  List.getD_eq_getElem?_getD ..

theorem cell_newLine : t.newLine.cell blank up col =
    if up = 0 then blank else t.cell blank (up - 1) col := by
  cases up <;> rfl

theorem cell_append : (t.append c).cell blank up col =
    if up = 0 ∧ col = t.current.length then c else t.cell blank up col := by
  cases up with
  | zero =>
    rw [cell_bottom, cell_bottom, append]
    rcases Nat.lt_trichotomy col t.current.length with before | rfl | behind
    · rw [if_neg (by omega), List.getElem?_append_left before]
    · simp
    · rw [if_neg (by omega), List.getElem?_eq_none (by simp; omega),
        List.getElem?_eq_none (by omega)]
  | succ up =>
    rw [if_neg (by omega)]
    rfl

/-- The last character of the bottom row, if there is one, becomes blank. -/
theorem cell_backspace : t.backspace.cell blank up col =
    if up = 0 ∧ col + 1 = t.current.length then blank else t.cell blank up col := by
  cases up with
  | zero =>
    rw [cell_bottom, cell_bottom, backspace, List.getElem?_dropLast]
    by_cases last : col + 1 = t.current.length
    · rw [if_neg (by omega), if_pos ⟨rfl, last⟩, Option.getD_none]
    · have other : ¬(0 = 0 ∧ col + 1 = t.current.length) := fun h => last h.2
      rw [if_neg other]
      by_cases inside : col < t.current.length - 1
      · rw [if_pos inside]
      · rw [if_neg inside, List.getElem?_eq_none (by omega)]
  | succ up =>
    rw [if_neg (by omega)]
    rfl

/-- Every row fits the width. -/
def Bounded (width : Nat) (t : ScrollText α) : Prop := ∀ row ∈ t.rows, row.length ≤ width

theorem bounded_empty (width : Nat) : (empty : ScrollText α).Bounded width := by
  simp [Bounded, rows, empty]

theorem Bounded.newLine (h : t.Bounded width) : t.newLine.Bounded width := by
  simpa [Bounded, rows, ScrollText.newLine] using h

theorem Bounded.backspace (h : t.Bounded width) : t.backspace.Bounded width := by
  simp only [Bounded, rows, List.forall_mem_cons] at h ⊢
  refine ⟨?_, h.2⟩
  have shorter : t.backspace.current.length ≤ t.current.length := by
    simp [ScrollText.backspace]
  exact Nat.le_trans shorter h.1

theorem Bounded.put (h : t.Bounded width) (some_ : 0 < width) (c : α) :
    (t.put width c).Bounded width := by
  simp only [Bounded, rows, List.forall_mem_cons] at h
  rw [ScrollText.put]
  split
  · simp only [Bounded, rows, append, ScrollText.newLine, List.nil_append, List.forall_mem_cons]
    exact ⟨some_, h⟩
  next room =>
    simp only [Bounded, rows, append, List.forall_mem_cons, List.length_append, List.length_singleton]
    exact ⟨by omega, h.2⟩

end ScrollText
