import Mathlib.Order.Monotone.Basic
import Mathlib.Tactic.Linarith

/-!
# The Gregorian calendar

Days counted from the first of January of the year 1, and dates. Four centuries have a fixed number
of days, so have the centuries, the four-year cycles and the years in them, but for the last day of
a longer one.

* **`ofDays_spec`**: the date of a day has that day.
* **`year_ofDays_le`**: the days below a year's first have an earlier date.
-/

namespace Calendar

structure Date where
  year : Nat
  month : Nat
  day : Nat
  deriving DecidableEq

def isLeap (year : Nat) : Bool := year % 4 = 0 ∧ (year % 100 ≠ 0 ∨ year % 400 = 0)

def daysBeforeYear (year : Nat) : Nat :=
  let y := year - 1
  y * 365 + y / 4 - y / 100 + y / 400

/-- The lengths of the months. -/
def monthLengths (leap : Bool) : List Nat :=
  [31, if leap then 29 else 28, 31, 30, 31, 30, 31, 31, 30, 31, 30, 31]

def daysBeforeMonth (leap : Bool) (month : Nat) : Nat := ((monthLengths leap).take (month - 1)).sum

/-- The days before a date. -/
def Date.days (d : Date) : Nat :=
  daysBeforeYear d.year + daysBeforeMonth (isLeap d.year) d.month + (d.day - 1)

/-- The month, counted from `month`, and the day of it, with `n` days before. -/
def monthAndDay (month n : Nat) : List Nat → Nat × Nat
  | [] => (month, n + 1)
  | length :: lengths =>
    if n < length then (month, n + 1) else monthAndDay (month + 1) (n - length) lengths

/-- The date with `n` days before it. -/
def ofDays (n : Nat) : Date :=
  let n400 := n / 146097
  let n100 := n % 146097 / 36524
  let n4 := n % 146097 % 36524 / 1461
  let n1 := n % 146097 % 36524 % 1461 / 365
  let rest := n % 146097 % 36524 % 1461 % 365
  let year := n400 * 400 + n100 * 100 + n4 * 4 + n1 + 1
  if n1 = 4 ∨ n100 = 4 then ⟨year - 1, 12, 31⟩
  else
    let leap := n1 = 3 ∧ (n4 ≠ 24 ∨ n100 = 3)
    let (month, day) := monthAndDay 1 rest (monthLengths leap)
    ⟨year, month, day⟩

/-! ## Months -/

/-- The day found is in its month. -/
theorem monthAndDay_eq {month n : Nat} {lengths : List Nat} (h : n < lengths.sum) :
    ∃ i own, lengths[i]? = some own ∧ (lengths.take i).sum ≤ n ∧ n < (lengths.take i).sum + own
      ∧ monthAndDay month n lengths = (month + i, n - (lengths.take i).sum + 1) := by
  induction lengths generalizing month n with
  | nil => exact absurd h (Nat.not_lt_zero n)
  | cons length lengths ih =>
    unfold monthAndDay
    by_cases hn : n < length
    · rw [if_pos hn]
      exact ⟨0, length, rfl, Nat.zero_le n, by simpa using hn, by simp⟩
    · rw [if_neg hn]
      rw [List.sum_cons] at h
      obtain ⟨i, own, hown, hle, hlt, heq⟩ := @ih (month + 1) (n - length) (by omega)
      refine ⟨i + 1, own, hown, ?_, ?_, ?_⟩
      · rw [List.take_succ_cons, List.sum_cons]
        omega
      · rw [List.take_succ_cons, List.sum_cons]
        omega
      · rw [heq, List.take_succ_cons, List.sum_cons, Nat.sub_sub, Nat.add_right_comm, Nat.add_assoc]

theorem sum_monthLengths (leap : Bool) : (monthLengths leap).sum = if leap then 366 else 365 := by
  cases leap <;> rfl

theorem length_le_of_getElem? {leap : Bool} {i own : Nat} (h : (monthLengths leap)[i]? = some own) :
    i < 12 ∧ own ≤ 31 := by
  have hi : i < 12 := (List.getElem?_eq_some_iff.1 h).1
  have hall : ∀ length ∈ monthLengths leap, length ≤ 31 := by
    cases leap <;> decide
  exact ⟨hi, hall own (List.mem_of_getElem? h)⟩

/-- **A day of a year is found in its month.** -/
theorem monthAndDay_spec {leap : Bool} {n : Nat} (h : n < if leap then 366 else 365) :
    ∃ month day, monthAndDay 1 n (monthLengths leap) = (month, day) ∧ month ≤ 12 ∧ day ≤ 31
      ∧ daysBeforeMonth leap month + (day - 1) = n := by
  rw [← sum_monthLengths] at h
  obtain ⟨i, own, hown, hle, hlt, heq⟩ := @monthAndDay_eq 1 _ _ h
  obtain ⟨hi, howned⟩ := length_le_of_getElem? hown
  refine ⟨_, _, heq, by omega, by omega, ?_⟩
  rw [daysBeforeMonth, Nat.add_sub_cancel_left]
  omega

/-! ## Years -/

/-- The first of January of a year, by the cycles before it. -/
theorem daysBeforeYear_cycles {n400 n100 n4 n1 : Nat} (h100 : n100 ≤ 3) (h4 : n4 ≤ 24)
    (h1 : n1 ≤ 3) : daysBeforeYear (n400 * 400 + n100 * 100 + n4 * 4 + n1 + 1)
      = n400 * 146097 + n100 * 36524 + n4 * 1461 + n1 * 365 := by
  have hfour : (n400 * 400 + n100 * 100 + n4 * 4 + n1) / 4 = n400 * 100 + n100 * 25 + n4 := by omega
  have hcentury : (n400 * 400 + n100 * 100 + n4 * 4 + n1) / 100 = n400 * 4 + n100 := by omega
  have hcycle : (n400 * 400 + n100 * 100 + n4 * 4 + n1) / 400 = n400 := by omega
  rw [daysBeforeYear, Nat.add_sub_cancel, hfour, hcentury, hcycle]
  omega

/-- The last year of a cycle is a leap year, but for three of four centuries. -/
theorem isLeap_cycles {n400 n100 n4 n1 : Nat} (h100 : n100 ≤ 3) (h4 : n4 ≤ 24) (h1 : n1 ≤ 3) :
    isLeap (n400 * 400 + n100 * 100 + n4 * 4 + n1 + 1)
      = decide (n1 = 3 ∧ (n4 ≠ 24 ∨ n100 = 3)) := by
  rw [isLeap, decide_eq_decide]
  omega

/-- The last day of a leap year. -/
theorem days_lastDay {n400 n100 n4 : Nat} (h100 : n100 ≤ 3) (h4 : n4 ≤ 24)
    (hleap : n4 ≠ 24 ∨ n100 = 3) :
    (Date.mk (n400 * 400 + n100 * 100 + n4 * 4 + 3 + 1) 12 31).days
      = n400 * 146097 + n100 * 36524 + n4 * 1461 + 3 * 365 + 365 := by
  have hyear : isLeap (n400 * 400 + n100 * 100 + n4 * 4 + 3 + 1) = true := by
    rw [isLeap_cycles h100 h4 (Nat.le_refl 3)]
    exact decide_eq_true ⟨rfl, hleap⟩
  have hmonths : daysBeforeMonth true 12 = 335 := rfl
  simp only [Date.days, hyear, daysBeforeYear_cycles h100 h4 (Nat.le_refl 3), hmonths]

/-- **The date of a day has that day**: the last one of a four-year cycle or of the great cycle, or
one found in the months of its year. -/
theorem ofDays_spec (n : Nat) :
    (ofDays n).days = n ∧ (ofDays n).month ≤ 12 ∧ (ofDays n).day ≤ 31 := by
  have hn : n = n / 146097 * 146097 + n % 146097 / 36524 * 36524
      + n % 146097 % 36524 / 1461 * 1461 + n % 146097 % 36524 % 1461 / 365 * 365
      + n % 146097 % 36524 % 1461 % 365 := by omega
  have hgreat : n % 146097 / 36524 = 4 → n % 146097 % 36524 / 1461 = 0
      ∧ n % 146097 % 36524 % 1461 / 365 = 0 ∧ n % 146097 % 36524 % 1461 % 365 = 0 := by omega
  have hfour : n % 146097 % 36524 % 1461 / 365 = 4 → n % 146097 % 36524 / 1461 ≠ 24
      ∧ n % 146097 % 36524 % 1461 % 365 = 0 := by omega
  have h100 : n % 146097 / 36524 ≤ 4 := by omega
  have h4 : n % 146097 % 36524 / 1461 ≤ 24 := by omega
  have h1 : n % 146097 % 36524 % 1461 / 365 ≤ 4 := by omega
  have hrest : n % 146097 % 36524 % 1461 % 365 < 365 := Nat.mod_lt _ (by decide)
  unfold ofDays
  generalize n % 146097 % 36524 % 1461 % 365 = rest at *
  generalize n % 146097 % 36524 % 1461 / 365 = n1 at *
  generalize n % 146097 % 36524 / 1461 = n4 at *
  generalize n % 146097 / 36524 = n100 at *
  generalize n / 146097 = n400 at *
  simp only
  by_cases hlast : n1 = 4 ∨ n100 = 4
  · rw [if_pos hlast]
    refine ⟨?_, Nat.le_refl 12, Nat.le_refl 31⟩
    by_cases hcentury : n100 = 4
    · obtain ⟨rfl, rfl, rfl⟩ := hgreat hcentury
      have hday := @days_lastDay n400 3 24 (by decide) (by decide) (.inr rfl)
      have hyear : n400 * 400 + n100 * 100 + 0 * 4 + 0 + 1 - 1
          = n400 * 400 + 3 * 100 + 24 * 4 + 3 + 1 := by omega
      rw [hyear, hday]
      omega
    · obtain rfl : n1 = 4 := hlast.resolve_right hcentury
      obtain ⟨hn4, rfl⟩ := hfour rfl
      exact (days_lastDay (by omega) h4 (.inl hn4)).trans (by omega)
  · rw [if_neg hlast]
    have hn1 : n1 ≤ 3 := by omega
    have hn100 : n100 ≤ 3 := by omega
    obtain ⟨month, day, heq, hmonth, hday, hsum⟩ :=
      @monthAndDay_spec (decide (n1 = 3 ∧ (n4 ≠ 24 ∨ n100 = 3))) rest (by split <;> omega)
    rw [heq]
    refine ⟨?_, hmonth, hday⟩
    simp only [Date.days, isLeap_cycles hn100 h4 hn1, daysBeforeYear_cycles hn100 h4 hn1]
    omega

theorem daysBeforeYear_mono : Monotone daysBeforeYear :=
  monotone_nat_of_le_succ fun year => by
    simp only [daysBeforeYear]
    omega

/-- The year of a day is over by the first of January of the next. -/
theorem year_ofDays_le {n year : Nat} (h : n < daysBeforeYear (year + 1)) :
    (ofDays n).year ≤ year := by
  by_contra hlt
  have hmono : daysBeforeYear (year + 1) ≤ daysBeforeYear (ofDays n).year :=
    daysBeforeYear_mono (by omega)
  have hdays := (ofDays_spec n).1
  rw [Date.days] at hdays
  omega

end Calendar
