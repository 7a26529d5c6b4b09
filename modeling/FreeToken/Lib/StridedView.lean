/-
**Views of a storage by strides.**
-/

import Mathlib.Order.Nat

namespace FreeToken

/-- A view of two dimensions; the storage holds whatever it does at other addresses. -/
structure View (α : Type) where
  storage : Nat → α
  offset : Nat := 0
  rows : Nat
  cols : Nat
  strideRow : Nat
  strideCol : Nat

namespace View

variable {α : Type} (view : View α)

def entry (i j : Nat) : α := view.storage (view.offset + (i * view.strideRow + j * view.strideCol))

/-- The transpose. -/
def t : View α :=
  { view with
    rows := view.cols
    cols := view.rows
    strideRow := view.strideCol
    strideCol := view.strideRow }

/-- `view[first:last]` -/
def rowsFrom (first last : Nat) : View α :=
  { view with
    offset := view.offset + first * view.strideRow
    rows := last - first }

/-- `view.contiguous()`, into a storage that held something before. -/
def contiguous (behind : Nat → α) : View α where
  storage := fun address =>
    if address < view.rows * view.cols then view.entry (address / view.cols) (address % view.cols)
    else behind address
  rows := view.rows
  cols := view.cols
  strideRow := view.cols
  strideCol := 1

@[simp] theorem t_entry (i j : Nat) : view.t.entry i j = view.entry j i := by
  unfold View.entry t
  rw [Nat.add_comm (i * _)]

@[simp] theorem rowsFrom_entry (first last i j : Nat) :
    (view.rowsFrom first last).entry i j = view.entry (first + i) j := by
  unfold View.entry rowsFrom
  rw [Nat.add_mul, ← Nat.add_assoc, ← Nat.add_assoc, ← Nat.add_assoc]

/-- The copy has the entries of the view. -/
theorem contiguous_entry (behind : Nat → α) {i j : Nat} (isRow : i < view.rows)
    (isCol : j < view.cols) : (view.contiguous behind).entry i j = view.entry i j := by
  have whole := Nat.mul_le_mul_right view.cols (show i + 1 ≤ view.rows from isRow)
  rw [Nat.succ_mul] at whole
  have row : (i * view.cols + j) / view.cols = i := by
    rw [Nat.mul_comm, Nat.mul_add_div (by omega), Nat.div_eq_of_lt isCol, Nat.add_zero]
  have col : (i * view.cols + j) % view.cols = j := by
    rw [Nat.mul_comm, Nat.mul_add_mod, Nat.mod_eq_of_lt isCol]
  show (if 0 + (i * view.cols + j * 1) < _ then view.entry ((0 + (i * view.cols + j * 1)) / _)
    ((0 + (i * view.cols + j * 1)) % _) else _) = _
  rw [Nat.zero_add, Nat.mul_one, if_pos (by omega), row, col]

/-- So has the transpose of a copy of the transpose, however it lies. -/
theorem transposed_entry (behind : Nat → α) {i j : Nat} (isRow : i < view.rows)
    (isCol : j < view.cols) : (view.t.contiguous behind).t.entry i j = view.entry i j := by
  rw [t_entry, contiguous_entry view.t behind isCol isRow, t_entry]

end View

end FreeToken
