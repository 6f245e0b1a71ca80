import Mathlib.Data.List.Basic

/-!
# Batches off the head of a queue

Items wait in a fixed order, each with a number of turns left. A round takes the first `b` items
that have one, and each of these loses at least one turn; no item ever gains any. An item that is
not finished keeps its place, ahead of the ones behind it.

* **`Rounds.all_gone`**: with at most `m` turns an item, `m` rounds finish a batch, whatever waits
  behind it, so `m * k` rounds finish `k` batches.
-/

namespace Batches

variable {α : Type*}

/-- The items with a turn left. -/
def waiting (turns : α → Nat) (items : List α) : List α := items.filter fun x => 0 < turns x

theorem mem_waiting {turns : α → Nat} {items : List α} {x : α} :
    x ∈ waiting turns items ↔ x ∈ items ∧ 0 < turns x := by
  rw [waiting, List.mem_filter, decide_eq_true_eq]

/-- One round over the items, from some turns to others. -/
structure Round (b : Nat) (items : List α) (turns turns' : α → Nat) : Prop where
  le : ∀ x, turns' x ≤ turns x
  lt : ∀ x ∈ (waiting turns items).take b, turns' x < turns x

/-- So many rounds. -/
inductive Rounds (b : Nat) (items : List α) : Nat → (α → Nat) → (α → Nat) → Prop
  | done (turns : α → Nat) : Rounds b items 0 turns turns
  | next {n : Nat} {turns turns' turns'' : α → Nat} (round : Round b items turns turns')
      (rest : Rounds b items n turns' turns'') : Rounds b items (n + 1) turns turns''

variable {b : Nat} {items : List α} {turns turns' turns'' : α → Nat}

theorem Rounds.le {n : Nat} (h : Rounds b items n turns turns') (x : α) : turns' x ≤ turns x := by
  induction h with
  | done => exact Nat.le_refl _
  | next round _ ih => exact Nat.le_trans ih (round.le x)

/-- The first rounds and the others. -/
theorem Rounds.split {n m : Nat} (h : Rounds b items (n + m) turns turns'') :
    ∃ turns', Rounds b items n turns turns' ∧ Rounds b items m turns' turns'' := by
  induction n generalizing turns with
  | zero =>
    rw [Nat.zero_add] at h
    exact ⟨turns, .done turns, h⟩
  | succ n ih =>
    rw [Nat.succ_add] at h
    cases h with
    | next round rest =>
      obtain ⟨mid, hfirst, hrest⟩ := ih rest
      exact ⟨mid, .next round hfirst, hrest⟩

/-- With fewer turns, fewer items wait. -/
theorem waiting_of_le (hle : ∀ x, turns' x ≤ turns x) :
    waiting turns' items = waiting turns' (waiting turns items) := by
  unfold waiting
  rw [List.filter_filter]
  refine List.filter_congr fun x _ => ?_
  have hx := hle x
  rw [Bool.eq_iff_iff, Bool.and_eq_true, decide_eq_true_eq, decide_eq_true_eq]
  omega

/-- An item of the head of a queue stays there when others leave. -/
theorem mem_take_filter {p : α → Bool} {xs : List α} {x : α} (h : x ∈ xs.take b) (hp : p x = true) :
    x ∈ (xs.filter p).take b := by
  have hsplit : xs.filter p = (xs.take b).filter p ++ (xs.drop b).filter p := by
    rw [← List.filter_append, List.take_append_drop]
  have hlen : ((xs.take b).filter p).length ≤ b :=
    Nat.le_trans (List.length_filter_le _ _) (List.length_take_le b xs)
  rw [hsplit, List.take_append, List.take_of_length_le hlen]
  exact List.mem_append_left _ (List.mem_filter.mpr ⟨h, hp⟩)

/-- **An item at the head is taken every round until it is gone.** -/
theorem Rounds.head_gone {n : Nat} (h : Rounds b items n turns turns') {x : α}
    (hx : x ∈ (waiting turns items).take b) (hturns : turns x ≤ n) : turns' x = 0 := by
  induction h with
  | done => omega
  | @next n turns mid turns' round rest ih =>
    have hlt := round.lt x hx
    by_cases hgone : mid x = 0
    · have hle := rest.le x
      omega
    · -- it still waits, and only items ahead of it can have left
      have hhead : x ∈ (waiting mid items).take b := by
        rw [waiting_of_le round.le]
        exact mem_take_filter hx (decide_eq_true (Nat.pos_of_ne_zero hgone))
      exact ih hhead (by omega)

/-- A batch is gone after as many rounds as its items have turns. -/
theorem Rounds.length_waiting {m : Nat} (h : Rounds b items m turns turns')
    (hm : ∀ x, turns x ≤ m) :
    (waiting turns' items).length ≤ (waiting turns items).length - b := by
  have hhead : waiting turns' ((waiting turns items).take b) = [] := by
    refine List.filter_eq_nil_iff.mpr fun x hx => ?_
    rw [h.head_gone hx (hm x)]
    decide
  have hsplit : waiting turns' (waiting turns items)
      = waiting turns' ((waiting turns items).take b)
        ++ waiting turns' ((waiting turns items).drop b) := by
    unfold waiting
    rw [← List.filter_append, List.take_append_drop]
  calc (waiting turns' items).length
      = (waiting turns' ((waiting turns items).drop b)).length := by
        rw [waiting_of_le h.le, hsplit, hhead, List.nil_append]
    _ ≤ ((waiting turns items).drop b).length := List.length_filter_le _ _
    _ = (waiting turns items).length - b := List.length_drop

/-- **Nothing waits** after `m` rounds for every batch. -/
theorem Rounds.all_gone {m k n : Nat} (h : Rounds b items n turns turns') (hm : ∀ x, turns x ≤ m)
    (hitems : (waiting turns items).length ≤ k * b) (hn : m * k ≤ n) :
    waiting turns' items = [] := by
  induction k generalizing turns n with
  | zero =>
    have hnone : waiting turns items = [] := List.length_eq_zero_iff.mp (by omega)
    rw [waiting_of_le h.le, hnone]
    rfl
  | succ k ih =>
    obtain ⟨rest, rfl⟩ : ∃ rest, n = m + rest := ⟨n - m, by rw [Nat.mul_succ] at hn; omega⟩
    obtain ⟨mid, hbatch, hrest⟩ := h.split
    have hlen := hbatch.length_waiting hm
    refine ih hrest (fun x => Nat.le_trans (hbatch.le x) (hm x)) ?_ ?_
    · rw [Nat.succ_mul] at hitems
      omega
    · rw [Nat.mul_succ] at hn
      omega

end Batches
