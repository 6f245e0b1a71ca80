import Mathlib.Data.Nat.ModEq
import Mathlib.Tactic.Ring

/-!
# Numbers in positional notation

A number written with a fixed number of digits, the most significant first, and read again.

* **`value_digits`**: what is read is the number, up to the power of the base that fits.
-/

namespace Positional

/-- `width` digits of `n`. -/
def digits (base width n : Nat) : List Nat :=
  (List.range width).reverse.map fun i => n / base ^ i % base

/-- The number with these digits. -/
def value (base : Nat) (ds : List Nat) : Nat := ds.foldl (fun acc d => acc * base + d) 0

variable {base width n : Nat}

@[simp] theorem length_digits : (digits base width n).length = width := by
  simp [digits]

theorem lt_of_mem_digits (hbase : 0 < base) {d : Nat} (h : d ∈ digits base width n) : d < base := by
  obtain ⟨i, -, rfl⟩ := List.mem_map.1 h
  exact Nat.mod_lt _ hbase

theorem digits_succ : digits base (width + 1) n =
    n / base ^ width % base :: digits base width n := by
  simp [digits, List.range_succ]

/-- Reading goes on from what was read. -/
theorem foldl_digits (acc : Nat) : (digits base width n).foldl (fun acc d => acc * base + d) acc
    = acc * base ^ width + n % base ^ width := by
  induction width generalizing acc with
  | zero => simp [digits, Nat.mod_one]
  | succ width ih =>
    have hsplit : n % base ^ (width + 1)
        = n % base ^ width + base ^ width * (n / base ^ width % base) := by
      rw [Nat.pow_succ, Nat.mod_mul]
    rw [digits_succ, List.foldl_cons, ih, hsplit]
    ring

/-- **A number is read as it was written.** -/
theorem value_digits (h : n < base ^ width) : value base (digits base width n) = n := by
  rw [value, foldl_digits, Nat.zero_mul, Nat.zero_add, Nat.mod_eq_of_lt h]

end Positional
