import Mathlib.Data.List.Basic

/-!
# Loops that collect

A loop over a list that carries an accumulator and reports, for each entry, what it finds there; a
report bears the index of the entry. What is reported for one entry depends on the entries before it
only through the accumulator that they leave.

* **`reportsAt_collectFrom`**: the reports at an index are those of the entry there.
-/

namespace Collecting

variable {α ρ σ : Type} (step : σ → α → List ρ × σ)

/-- The loop from entry `i` on: the reports with their indices, and the last accumulator. -/
def collectFrom (i : Nat) (acc : σ) : List α → List (Nat × ρ) × σ
  | [] => ([], acc)
  | entry :: rest =>
    let after := collectFrom (i + 1) (step acc entry).2 rest
    ((step acc entry).1.map (Prod.mk i) ++ after.1, after.2)

/-- What is reported at an index. -/
def reportsAt (i : Nat) (reports : List (Nat × ρ)) : List ρ :=
  reports.filterMap fun report => if report.1 = i then some report.2 else none

/-- The accumulator that some entries leave. -/
def accumulate (acc : σ) (entries : List α) : σ :=
  entries.foldl (fun acc entry => (step acc entry).2) acc

theorem collectFrom_snd (i : Nat) (acc : σ) (entries : List α) :
    (collectFrom step i acc entries).2 = accumulate step acc entries := by
  induction entries generalizing i acc with
  | nil => rfl
  | cons entry rest ih => exact ih (i + 1) (step acc entry).2

@[simp] theorem reportsAt_append (i : Nat) (reports reports' : List (Nat × ρ)) :
    reportsAt i (reports ++ reports') = reportsAt i reports ++ reportsAt i reports' :=
  List.filterMap_append

theorem reportsAt_mk_self (i : Nat) (found : List ρ) :
    reportsAt i (found.map (Prod.mk i)) = found := by
  simp [reportsAt]

theorem reportsAt_mk_ne {i j : Nat} (h : i ≠ j) (found : List ρ) :
    reportsAt j (found.map (Prod.mk i)) = [] := by
  simp [reportsAt, h]

/-- The loop reports nothing before the index it starts from. -/
theorem reportsAt_collectFrom_lt {i j : Nat} (h : j < i) (acc : σ) (entries : List α) :
    reportsAt j (collectFrom step i acc entries).1 = [] := by
  induction entries generalizing i acc with
  | nil => rfl
  | cons entry rest ih =>
    show reportsAt j (_ ++ _) = []
    rw [reportsAt_append, reportsAt_mk_ne (by omega), ih (by omega)]
    rfl

/-- **The reports at an index** are those of the entry there, after the entries before it. -/
theorem reportsAt_collectFrom {entries : List α} {k : Nat} {entry : α}
    (h : entries[k]? = some entry) (i : Nat) (acc : σ) :
    reportsAt (i + k) (collectFrom step i acc entries).1
      = (step (accumulate step acc (entries.take k)) entry).1 := by
  -- on the list: the accumulator and the index both move one entry on
  induction entries generalizing k i acc with
  | nil => simp at h
  | cons first rest ih =>
    show reportsAt (i + k) (_ ++ _) = _
    rw [reportsAt_append]
    cases k with
    | zero =>
      obtain rfl : first = entry := by simpa using h
      rw [Nat.add_zero, reportsAt_mk_self, reportsAt_collectFrom_lt step (by omega),
        List.append_nil]
      rfl
    | succ k =>
      have hrest : rest[k]? = some entry := by simpa using h
      have hindex : i + (k + 1) = i + 1 + k := by omega
      rw [reportsAt_mk_ne (by omega), List.nil_append, hindex, ih hrest]
      rfl

end Collecting
