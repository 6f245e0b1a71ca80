import Mathlib.Data.List.Basic
import Mathlib.Data.List.Range

/-!
# Pages of a list

A window of a list is what is left of it after an offset, up to a limit. Windows of one size, each
starting where the last one ends, are its pages.

* **`flatMap_pages`**: enough pages, put end to end, are the list.
-/

namespace Paging

variable {α : Type*}

/-- `limit` elements from position `offset` on. -/
def window (offset limit : Nat) (xs : List α) : List α := (xs.drop offset).take limit

theorem take_add_window (xs : List α) (offset limit : Nat) :
    xs.take offset ++ window offset limit xs = xs.take (offset + limit) :=
  (List.take_add ..).symm

/-- The first pages are the first elements. -/
theorem flatMap_windows (xs : List α) (limit n : Nat) :
    (List.range n).flatMap (fun k => window (k * limit) limit xs) = xs.take (n * limit) := by
  induction n with
  | zero => simp
  | succ n ih =>
    rw [List.range_succ, List.flatMap_append, ih, List.flatMap_singleton, take_add_window,
      Nat.succ_mul]

/-- **Enough pages are the list.** -/
theorem flatMap_pages {xs : List α} {limit n : Nat} (h : xs.length ≤ n * limit) :
    (List.range n).flatMap (fun k => window (k * limit) limit xs) = xs := by
  rw [flatMap_windows, List.take_of_length_le h]

end Paging
