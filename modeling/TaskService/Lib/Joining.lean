import Mathlib.Data.List.Dedup
import Mathlib.Data.List.Perm.Basic

/-!
# Counts over an outer join

A left outer join keeps the rows that match nothing, with a null in place of the match. Grouped by
their left row and with the matches counted, they count nothing then.

* **`perm_countBy_outerJoin`**: each row of the left, once, with the number of its matches.
-/

namespace Joining

variable {α β : Type} (on : α → β → Bool)

/-- `left LEFT OUTER JOIN right ON …`. -/
def outerJoin (left : List α) (right : List β) : List (α × Option β) :=
  left.flatMap fun a =>
    match right.filter (on a) with
    | [] => [(a, none)]
    | found => found.map fun b => (a, some b)

variable [DecidableEq α]

/-- The rows with this left row that match. -/
def matched (a : α) (rows : List (α × Option β)) : List (α × Option β) :=
  rows.filter fun row => row.1 = a ∧ row.2.isSome

/-- `SELECT a, count(b) … GROUP BY a`. -/
def countBy (rows : List (α × Option β)) : List (α × Nat) :=
  (rows.map Prod.fst).dedup.map fun a => (a, (matched a rows).length)

variable {on} {left : List α} {right : List β} {a : α}

omit [DecidableEq α] in
/-- No row of the left is lost. -/
theorem mem_fst_outerJoin : a ∈ (outerJoin on left right).map Prod.fst ↔ a ∈ left := by
  simp only [outerJoin, List.map_flatMap, List.mem_flatMap]
  constructor
  · rintro ⟨a', ha', hmem⟩
    split at hmem
    · rwa [List.mem_singleton.1 hmem]
    · obtain ⟨row, hrow, rfl⟩ := List.mem_map.1 hmem
      obtain ⟨b, -, rfl⟩ := List.mem_map.1 hrow
      exact ha'
  · intro ha
    refine ⟨a, ha, ?_⟩
    split
    · exact List.mem_singleton_self a
    next found hne =>
      obtain ⟨b, hb⟩ := List.exists_mem_of_ne_nil _ hne
      exact List.mem_map.2 ⟨(a, some b), List.mem_map_of_mem hb, rfl⟩

/-- What matches a left row is joined to each of its occurrences. -/
theorem length_matched_outerJoin : (matched a (outerJoin on left right)).length
    = left.count a * (right.filter (on a)).length := by
  induction left with
  | nil => simp [matched, outerJoin]
  | cons a' left ih =>
    have hcons : matched a (outerJoin on (a' :: left) right)
        = matched a (outerJoin on [a'] right) ++ matched a (outerJoin on left right) := by
      simp [matched, outerJoin]
    rw [hcons, List.length_append, ih]
    by_cases hsame : a' = a
    · subst hsame
      have hown : (matched a' (outerJoin on [a'] right)).length
          = (right.filter (on a')).length := by
        simp only [matched, outerJoin, List.flatMap_cons, List.flatMap_nil, List.append_nil]
        split
        next hnone => simp [hnone]
        next => simp [List.filter_map, Function.comp_def]
      rw [hown, List.count_cons_self, Nat.add_mul, Nat.one_mul, Nat.add_comm]
    · have hnone : matched a (outerJoin on [a'] right) = [] := by
        refine List.filter_eq_nil_iff.2 fun row hrow => ?_
        have hfst : row.1 ∈ [a'] := mem_fst_outerJoin.1 (List.mem_map_of_mem hrow)
        simp [List.mem_singleton.1 hfst, hsame]
      rw [hnone, List.count_cons_of_ne hsame, List.length_nil, Nat.zero_add]

/-- **Each row of the left, once, with the number of its matches.** -/
theorem perm_countBy_outerJoin (hleft : left.Nodup) : (countBy (outerJoin on left right)).Perm
    (left.map fun a => (a, (right.filter (on a)).length)) := by
  have hrows : ((outerJoin on left right).map Prod.fst).dedup.Perm left := by
    refine (List.perm_ext_iff_of_nodup (List.nodup_dedup _) hleft).2 fun a => ?_
    rw [List.mem_dedup, mem_fst_outerJoin]
  refine (hrows.map _).trans (List.Perm.of_eq (List.map_congr_left fun a ha => ?_))
  rw [length_matched_outerJoin, List.count_eq_one_of_mem hleft ha, Nat.one_mul]

end Joining
