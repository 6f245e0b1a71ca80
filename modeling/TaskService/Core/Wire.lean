import TaskService.Core.Errors
import TaskService.Lib.Calendar
import TaskService.Lib.Positional
import TaskService.Py.Text
import Mathlib.Tactic.IntervalCases

/-!
# Ids and times as texts

`model_dump(mode="json")` writes a `UUID` as `str` does and a `datetime` in RFC 3339 with the suffix
`Z`, as `iso_z` does. Validation reads both; of the texts it takes, these are the ones it is given.

* **`parseUuid_uuidText`**: a UUID is read as it was written.
* **`parseTime_isoText`**: so is a time that a `datetime` can hold.
-/

namespace TaskService

open Positional Calendar

/-! ## Digits -/

/-- The value of a digit, a letter standing for ten to fifteen. -/
def digitValue (c : CodePoint) : Option Nat :=
  if 0x30 ≤ c.val ∧ c.val ≤ 0x39 then some (c.val - 0x30)
  else if 0x61 ≤ c.val ∧ c.val ≤ 0x66 then some (c.val - 0x57)
  else none

/-- `width` decimal digits of `n`. -/
def padded (width n : Nat) : PyStr := (digits 10 width n).flatMap hexDigit

/-- The number these digits write. -/
def readDigits (base : Nat) (s : PyStr) : Option Nat := (s.mapM digitValue).map (value base)

theorem hexDigit_spec : ∀ d < 16, ∃ c, hexDigit d = [c] ∧ digitValue c = some d
    ∧ (d < 10 → 0x30 ≤ c.val ∧ c.val ≤ 0x39) := by
  intro d hd
  interval_cases d <;> exact ⟨_, rfl, by decide, by decide⟩

/-- Digits are read as they are written. -/
theorem mapM_digitValue {ds : List Nat} (h : ∀ d ∈ ds, d < 16) :
    (ds.flatMap hexDigit).mapM digitValue = some ds := by
  induction ds with
  | nil => rfl
  | cons d ds ih =>
    obtain ⟨c, hc, hvalue, -⟩ := hexDigit_spec d (h d List.mem_cons_self)
    have hrest := ih fun d hd => h d (List.mem_cons_of_mem _ hd)
    rw [List.flatMap_cons, hc, List.singleton_append, List.mapM_cons, hvalue, hrest]
    rfl

theorem length_flatMap_hexDigit {ds : List Nat} (h : ∀ d ∈ ds, d < 16) :
    (ds.flatMap hexDigit).length = ds.length := by
  induction ds with
  | nil => rfl
  | cons d ds ih =>
    obtain ⟨c, hc, -⟩ := hexDigit_spec d (h d List.mem_cons_self)
    rw [List.flatMap_cons, hc, List.singleton_append, List.length_cons, List.length_cons,
      ih fun d hd => h d (List.mem_cons_of_mem _ hd)]

theorem hex_eq (width n : Nat) : hex width n = (digits 16 width n).flatMap hexDigit := by
  rw [hex, digits, List.flatMap_map]

theorem lt_of_mem_padded {width n d : Nat} (h : d ∈ digits 10 width n) : d < 16 :=
  (lt_of_mem_digits (by decide) h).trans (by decide)

theorem lt_of_mem_hex {width n d : Nat} (h : d ∈ digits 16 width n) : d < 16 :=
  lt_of_mem_digits (by decide) h

@[simp] theorem length_padded (width n : Nat) : (padded width n).length = width := by
  rw [padded, length_flatMap_hexDigit fun _ => lt_of_mem_padded, length_digits]

/-- **A padded number is read as it was written.** -/
theorem readDigits_padded {width n : Nat} (h : n < 10 ^ width) :
    readDigits 10 (padded width n) = some n := by
  rw [readDigits, padded, mapM_digitValue fun _ => lt_of_mem_padded, Option.map_some,
    value_digits h]

theorem readDigits_hex {width n : Nat} (h : n < 16 ^ width) :
    readDigits 16 (hex width n) = some n := by
  rw [readDigits, hex_eq, mapM_digitValue fun _ => lt_of_mem_hex, Option.map_some, value_digits h]

/-! ## UUIDs -/

/-- A UUID has 128 bits. -/
def uuidBound : Nat := 2 ^ 128

/-- `str(uuid)`. -/
def uuidText (id : Uuid) : PyStr :=
  let digits := hex 32 id
  digits.take 8 ++ py "-" ++ (digits.drop 8).take 4 ++ py "-" ++ (digits.drop 12).take 4 ++ py "-"
    ++ (digits.drop 16).take 4 ++ py "-" ++ digits.drop 20

def isHyphen (c : CodePoint) : Bool := c = 0x2D

/-- The UUID whose text this is. -/
def parseUuid (s : PyStr) : Option Uuid :=
  (readDigits 16 (s.filter fun c => !isHyphen c)).filter fun id => uuidText id = s

theorem not_hyphen_of_mem {ds : List Nat} (h : ∀ d ∈ ds, d < 16) :
    ∀ c ∈ ds.flatMap hexDigit, isHyphen c = false := by
  intro c hc
  obtain ⟨d, hd, hmem⟩ := List.mem_flatMap.1 hc
  obtain ⟨c', hc', hvalue, -⟩ := hexDigit_spec d (h d hd)
  rw [hc', List.mem_singleton] at hmem
  subst hmem
  by_contra hhyphen
  rw [Bool.not_eq_false, isHyphen, decide_eq_true_eq] at hhyphen
  have hnone : digitValue 0x2D = none := by decide
  rw [hhyphen, hnone] at hvalue
  cases hvalue

/-- Without its hyphens the text is the digits. -/
theorem filter_uuidText (id : Uuid) : (uuidText id).filter (fun c => !isHyphen c) = hex 32 id := by
  have hall : ∀ c ∈ hex 32 id, isHyphen c = false := by
    rw [hex_eq]
    exact not_hyphen_of_mem fun _ => lt_of_mem_hex
  have hpart : ∀ {part : PyStr}, part ⊆ hex 32 id → part.filter (fun c => !isHyphen c) = part :=
    fun hsub => List.filter_eq_self.2 fun c hc => by simp [hall c (hsub hc)]
  have hhyphen : (py "-").filter (fun c => !isHyphen c) = [] := by decide
  have hdrop : ∀ n m, ((hex 32 id).drop n).take m ⊆ hex 32 id := fun n m =>
    List.Subset.trans (List.take_subset _ _) (List.drop_subset _ _)
  simp only [uuidText, List.filter_append, hhyphen, List.append_nil, hpart (hdrop _ _),
    hpart (List.take_subset _ _), hpart (List.drop_subset _ _)]
  -- what is dropped at one hyphen is taken up to the next
  have hstep : ∀ n m, ((hex 32 id).drop n).take m ++ (hex 32 id).drop (n + m)
      = (hex 32 id).drop n := fun n m => by
    rw [← List.drop_drop, List.take_append_drop]
  rw [List.append_assoc, hstep 16 4, List.append_assoc, hstep 12 4, List.append_assoc, hstep 8 4,
    List.take_append_drop]

/-- **A UUID is read as it was written.** -/
theorem parseUuid_uuidText {id : Uuid} (h : id < uuidBound) :
    parseUuid (uuidText id) = some id := by
  have hread : readDigits 16 (hex 32 id) = some id := readDigits_hex (h.trans_eq (by decide))
  rw [parseUuid, filter_uuidText, hread]
  simp

/-! ## Times -/

/-- The end of what a `datetime` can hold, in microseconds from `datetime.min`. -/
def timeBound : Nat := daysBeforeYear 10000 * 86400000000

/-- `iso_z`. -/
def isoText (t : Time) : PyStr :=
  let date := ofDays (t / 86400000000)
  let seconds := t / 1000000 % 86400
  let micros := t % 1000000
  padded 4 date.year ++ py "-" ++ padded 2 date.month ++ py "-" ++ padded 2 date.day ++ py "T"
    ++ padded 2 (seconds / 3600) ++ py ":" ++ padded 2 (seconds / 60 % 60) ++ py ":"
    ++ padded 2 (seconds % 60) ++ (if micros = 0 then [] else py "." ++ padded 6 micros) ++ py "Z"

def isDigit (c : CodePoint) : Bool := 0x30 ≤ c.val ∧ c.val ≤ 0x39

/-- The number that the first `width` digits write, and the rest. -/
def field (width : Nat) (s : PyStr) : Option (Nat × PyStr) :=
  (readDigits 10 (s.take width)).map fun n => (n, s.drop width)

/-- The time that these digits write: of the date, of the time of day, of the microseconds. -/
def readTime (s : PyStr) : Option Time := do
  let (year, s) ← field 4 s
  let (month, s) ← field 2 s
  let (day, s) ← field 2 s
  let (hour, s) ← field 2 s
  let (minute, s) ← field 2 s
  let (second, s) ← field 2 s
  let micros ← readDigits 10 s
  return ((((Date.mk year month day).days * 24 + hour) * 60 + minute) * 60 + second) * 1000000
    + micros

/-- The time whose text this is. -/
def parseTime (s : PyStr) : Option Time :=
  (readTime (s.filter isDigit)).filter fun t => isoText t = s

theorem field_padded {width n : Nat} (h : n < 10 ^ width) (rest : PyStr) :
    field width (padded width n ++ rest) = some (n, rest) := by
  rw [field, List.take_left' (length_padded _ _), List.drop_left' (length_padded _ _),
    readDigits_padded h, Option.map_some]

theorem isDigit_of_mem_padded {width n : Nat} : ∀ c ∈ padded width n, isDigit c = true := by
  intro c hc
  obtain ⟨d, hd, hmem⟩ := List.mem_flatMap.1 hc
  obtain ⟨c', hc', -, hdigit⟩ := hexDigit_spec d (lt_of_mem_padded hd)
  rw [hc', List.mem_singleton] at hmem
  subst hmem
  exact decide_eq_true (hdigit (lt_of_mem_digits (by decide) hd))

/-- The digits of a time. -/
theorem filter_isoText (t : Nat) : (isoText t).filter isDigit
    = padded 4 (ofDays (t / 86400000000)).year ++ (padded 2 (ofDays (t / 86400000000)).month
      ++ (padded 2 (ofDays (t / 86400000000)).day ++ (padded 2 (t / 1000000 % 86400 / 3600)
      ++ (padded 2 (t / 1000000 % 86400 / 60 % 60) ++ (padded 2 (t / 1000000 % 86400 % 60)
      ++ if t % 1000000 = 0 then [] else padded 6 (t % 1000000)))))) := by
  have hkeep : ∀ width n, (padded width n).filter isDigit = padded width n := fun _ _ =>
    List.filter_eq_self.2 isDigit_of_mem_padded
  have hmarks : (py "-").filter isDigit = [] ∧ (py "T").filter isDigit = []
      ∧ (py ":").filter isDigit = [] ∧ (py ".").filter isDigit = []
      ∧ (py "Z").filter isDigit = [] := by decide
  obtain ⟨hhyphen, ht, hcolon, hpoint, hz⟩ := hmarks
  have hfraction : (if t % 1000000 = 0 then [] else py "." ++ padded 6 (t % 1000000)).filter isDigit
      = if t % 1000000 = 0 then [] else padded 6 (t % 1000000) := by
    split
    · rfl
    · rw [List.filter_append, hpoint, hkeep, List.nil_append]
  simp only [isoText, List.filter_append, hkeep, hhyphen, ht, hcolon, hz, hfraction,
    List.append_nil, List.nil_append, List.append_assoc]

/-- **A time is read as it was written.** -/
theorem parseTime_isoText {t : Nat} (h : t < timeBound) : parseTime (isoText t) = some t := by
  have hdays : t / 86400000000 < daysBeforeYear 10000 := Nat.div_lt_of_lt_mul (by
    rw [Nat.mul_comm]
    exact h)
  obtain ⟨hdate, hmonth, hday⟩ := ofDays_spec (t / 86400000000)
  have hyear := year_ofDays_le hdays
  have hmicros : readDigits 10 (if t % 1000000 = 0 then [] else padded 6 (t % 1000000))
      = some (t % 1000000) := by
    split
    next hnone => rw [hnone]; rfl
    next => exact readDigits_padded (by omega)
  have hread : readTime ((isoText t).filter isDigit) = some t := by
    rw [filter_isoText, readTime, field_padded (by omega), Option.bind_eq_bind, Option.bind_some]
    simp only [field_padded (show (ofDays (t / 86400000000)).month < 10 ^ 2 by omega),
      field_padded (show (ofDays (t / 86400000000)).day < 10 ^ 2 by omega),
      field_padded (show t / 1000000 % 86400 / 3600 < 10 ^ 2 by omega),
      field_padded (show t / 1000000 % 86400 / 60 % 60 < 10 ^ 2 by omega),
      field_padded (show t / 1000000 % 86400 % 60 < 10 ^ 2 by omega), hmicros,
      Option.bind_eq_bind, Option.bind_some, Option.pure_def, Option.some.injEq]
    rw [show Date.mk (ofDays (t / 86400000000)).year (ofDays (t / 86400000000)).month
      (ofDays (t / 86400000000)).day = ofDays (t / 86400000000) from rfl, hdate]
    omega
  rw [parseTime, hread]
  simp

end TaskService
