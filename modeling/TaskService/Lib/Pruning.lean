import Mathlib.Data.List.Perm.Basic
import Mathlib.Data.List.Count

/-!
# Pruning in bounded batches

Some rows are due. A statement takes `b` of them, or all when there are fewer, and nobody says
which; the other rows stay. A pass issues statement after statement, `k` at most, and stops after
one that took less than it could.

* **`Batched.length_taken`**: a pass takes `b * k` rows, or all that are due, whichever rows its
  statements take.
* **`Batched.drained_iff`**: nothing due is left exactly when `b * k` is enough.
-/

namespace Pruning

variable {α : Type*}

/-- `LIMIT n` without an order: some `n` of the items, or all when there are fewer. -/
structure Limit (α : Type*) (n : Nat) where
  pick : List α → List α
  subperm_pick : ∀ items, (pick items).Subperm items
  length_pick : ∀ items, (pick items).length = min n items.length

/-- One statement: the rows it takes and the rows it leaves. -/
structure Takes (due : α → Bool) (b : Nat) (rows batch left : List α) : Prop where
  perm : (batch ++ left).Perm rows
  due_batch : ∀ row ∈ batch, due row = true
  length_batch : batch.length = min b (rows.countP due)

/-- A pass of at most so many statements: what each took, and what is left. -/
inductive Batched (due : α → Bool) (b : Nat) : Nat → List α → List (List α) → List α → Prop
  | spent (rows : List α) : Batched due b 0 rows [] rows
  | short {k : Nat} {rows batch left : List α} (h : Takes due b rows batch left)
      (hshort : batch.length < b) : Batched due b (k + 1) rows [batch] left
  | full {k : Nat} {rows batch mid left : List α} {batches : List (List α)}
      (h : Takes due b rows batch mid) (hfull : ¬ batch.length < b)
      (rest : Batched due b k mid batches left) : Batched due b (k + 1) rows (batch :: batches) left

variable {due : α → Bool} {b k : Nat} {rows batch left : List α} {batches : List (List α)}

/-- A statement leaves `b` fewer rows that are due. -/
theorem Takes.countP_left (h : Takes due b rows batch left) :
    left.countP due = rows.countP due - b := by
  have hall : batch.countP due = batch.length := List.countP_eq_length.mpr h.due_batch
  have hsplit : batch.countP due + left.countP due = rows.countP due := by
    rw [← List.countP_append]
    exact h.perm.countP_eq due
  have hlen := h.length_batch
  omega

/-- **Every row is taken once or stays.** -/
theorem Batched.perm (h : Batched due b k rows batches left) :
    (batches.flatten ++ left).Perm rows := by
  induction h with
  | spent rows => exact .refl rows
  | short h _ =>
    rw [List.flatten_singleton]
    exact h.perm
  | @full _ _ batch _ _ _ h _ _ ih =>
    rw [List.flatten_cons, List.append_assoc]
    exact (ih.append_left batch).trans h.perm

/-- Only rows that are due are taken. -/
theorem Batched.due_taken (h : Batched due b k rows batches left) :
    ∀ row ∈ batches.flatten, due row = true := by
  induction h with
  | spent => exact fun row hrow => (nomatch hrow)
  | short h _ =>
    rw [List.flatten_singleton]
    exact h.due_batch
  | full h _ _ ih =>
    intro row hrow
    rw [List.flatten_cons] at hrow
    rcases List.mem_append.mp hrow with hbatch | hrest
    · exact h.due_batch row hbatch
    · exact ih row hrest

theorem Batched.length_le (h : Batched due b k rows batches left) : batches.length ≤ k := by
  induction h with
  | spent => exact Nat.le_refl 0
  | short => exact Nat.succ_le_succ (Nat.zero_le _)
  | full _ _ _ ih => exact Nat.succ_le_succ ih

theorem Batched.batch_le (h : Batched due b k rows batches left) :
    ∀ batch ∈ batches, batch.length ≤ b := by
  have hone : ∀ {rows batch left}, Takes due b rows batch left → batch.length ≤ b := by
    intro rows batch left h
    rw [h.length_batch]
    exact Nat.min_le_left _ _
  induction h with
  | spent => exact fun batch hbatch => (nomatch hbatch)
  | short h _ => exact List.forall_mem_singleton.mpr (hone h)
  | full h _ _ ih => exact List.forall_mem_cons.mpr ⟨hone h, ih⟩

/-- What is still due after a pass. -/
theorem Batched.countP_left (h : Batched due b k rows batches left) :
    left.countP due = rows.countP due - b * k := by
  induction h with
  | spent rows => rw [Nat.mul_zero, Nat.sub_zero]
  | @short k rows batch left h hshort =>
    -- a short batch took everything
    have hlen := h.length_batch
    have hle : b ≤ b * (k + 1) := Nat.le_mul_of_pos_right b (Nat.succ_pos k)
    rw [h.countP_left]
    omega
  | full h _ _ ih =>
    rw [ih, h.countP_left, Nat.mul_succ]
    omega

/-- **The number of rows a pass takes.** -/
theorem Batched.length_taken (h : Batched due b k rows batches left) :
    batches.flatten.length = min (rows.countP due) (b * k) := by
  have hall : batches.flatten.countP due = batches.flatten.length :=
    List.countP_eq_length.mpr h.due_taken
  have hsplit : batches.flatten.countP due + left.countP due = rows.countP due := by
    rw [← List.countP_append]
    exact h.perm.countP_eq due
  have hleft := h.countP_left
  omega

/-- **When a pass drains.** -/
theorem Batched.drained_iff (h : Batched due b k rows batches left) :
    (∀ row ∈ left, ¬ due row = true) ↔ rows.countP due ≤ b * k := by
  rw [← List.countP_eq_zero, h.countP_left]
  omega

end Pruning
