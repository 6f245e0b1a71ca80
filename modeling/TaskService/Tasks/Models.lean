import TaskService.Core.Errors
import TaskService.Lib.Except

/-!
# The task entity

`Task` and its methods (`tasks/domain/models.py`). The class is a database row, so its attributes
are not checked when they are set; `snapshot` is the place where the declared bounds are applied.

* **`changedFields_eq_nil_iff`**: no field differs exactly when the two tasks agree on every
  mutable field.
-/

namespace TaskService.Tasks

def titleMinLength : Nat := 1
def titleMaxLength : Nat := 200
def descriptionMaxLength : Nat := 2000
def priorityMin : Int := 1
def priorityMax : Int := 5

structure Task where
  id : Uuid
  title : PyStr
  titleKey : PyStr
  description : Option PyStr
  status : PyStr
  priority : Int
  createdAt : Time
  deriving DecidableEq

/-- The names in `MUTABLE_FIELDS`. -/
inductive MutableField where
  | title
  | description
  | status
  | priority
  deriving DecidableEq

/-- `MUTABLE_FIELDS`, in canonical order. -/
def mutableFields : List MutableField := [.title, .description, .status, .priority]

/-- A partial update: the keys that are present, with their values, and the names of any other. -/
structure PatchFields where
  title : Option PyStr
  description : Option (Option PyStr)
  status : Option PyStr
  priority : Option Int
  tags : Option (Option (List PyStr))
  unknown : List PyStr

/-- `not fields`. -/
def PatchFields.isEmpty (fields : PatchFields) : Bool :=
  fields.title.isNone && fields.description.isNone && fields.status.isNone
    && fields.priority.isNone && fields.tags.isNone && fields.unknown.isEmpty

namespace Task

/-- What `model_validate` checks on the values of a task. A text is encoded to measure it; `status`
has no bound, so its text is not looked at. -/
def Valid (t : Task) : Prop :=
  (titleMinLength ≤ t.title.length ∧ t.title.length ≤ titleMaxLength)
    ∧ t.titleKey.length ≤ titleMaxLength
    ∧ (∀ d ∈ t.description, d.length ≤ descriptionMaxLength)
    ∧ (priorityMin ≤ t.priority ∧ t.priority ≤ priorityMax)
    ∧ Encodable t.title ∧ Encodable t.titleKey ∧ (∀ d ∈ t.description, Encodable d)

instance (t : Task) : Decidable t.Valid := by
  unfold Valid
  infer_instance

/-- `snapshot`: a detached, revalidated copy. -/
def snapshot (t : Task) : Except Exn Task := if t.Valid then .ok t else .error .snapshotInvalid

theorem snapshot_eq_ok {t t' : Task} : t.snapshot = .ok t' ↔ t.Valid ∧ t' = t := by
  unfold snapshot
  split <;> simp_all [eq_comm]

/-- `getattr(self, field) != getattr(previous, field)`. -/
def differs (t previous : Task) : MutableField → Bool
  | .title => t.title ≠ previous.title
  | .description => t.description ≠ previous.description
  | .status => t.status ≠ previous.status
  | .priority => t.priority ≠ previous.priority

/-- `changed_fields`: the mutable fields whose value differs, in canonical order. -/
def changedFields (t previous : Task) : List MutableField :=
  mutableFields.filter (t.differs previous)

theorem changedFields_eq_nil_iff {t previous : Task} :
    t.changedFields previous = [] ↔ t.title = previous.title
      ∧ t.description = previous.description ∧ t.status = previous.status
      ∧ t.priority = previous.priority := by
  simp [changedFields, mutableFields, differs]

theorem status_mem_changedFields {t previous : Task} :
    .status ∈ t.changedFields previous ↔ t.status ≠ previous.status := by
  simp [changedFields, mutableFields, differs]

variable [Unicode]

def normalizeTitle (title : PyStr) : PyStr := casefold (strip title)

def emptyTitle : Exn := .valueError (py "title must not be empty")

/-- `clean_title`: the stripped title and its key. -/
def cleanTitle (title : PyStr) : Except Exn (PyStr × PyStr) :=
  if normalizeTitle title = [] then .error emptyTitle else .ok (strip title, normalizeTitle title)

/-- `from_input`, with the id and the time its defaults draw. -/
def fromInput (id : Uuid) (createdAt : Time) (title : PyStr) (description : Option PyStr)
    (status : PyStr) (priority : Int) : Except Exn Task := do
  let (title, titleKey) ← cleanTitle title
  return { id, title, titleKey, description, status, priority, createdAt }

/-- `apply_replace`: every mutable field, the key recomputed. -/
def applyReplace (t : Task) (title : PyStr) (description : Option PyStr) (status : PyStr)
    (priority : Int) : Except Exn Task := do
  let (title, titleKey) ← cleanTitle title
  return { t with title, titleKey, description, status, priority }

/-- The title part of `apply_patch`. -/
def patchTitle (t : Task) : Option PyStr → Except Exn Task
  | none => .ok t
  | some title => do
    let (title, titleKey) ← cleanTitle title
    return { t with title, titleKey }

def unknownFields (unknown : List PyStr) : Exn :=
  .valueError (py "unknown patch fields: " ++ reprList (unknown.insertionSort (· ≤ ·)))

/-- `apply_patch` on the fields left after `tags` is popped. -/
def applyPatch (t : Task) (fields : PatchFields) : Except Exn Task :=
  if fields.unknown ≠ [] then .error (unknownFields fields.unknown)
  else do
    let t ← t.patchTitle fields.title
    return { t with
      description := fields.description.getD t.description
      status := fields.status.getD t.status
      priority := fields.priority.getD t.priority }

/-! ## What the updates keep -/

theorem cleanTitle_eq_ok {title : PyStr} {cleaned : PyStr × PyStr} :
    cleanTitle title = .ok cleaned ↔
      normalizeTitle title ≠ [] ∧ cleaned = (strip title, normalizeTitle title) := by
  unfold cleanTitle
  by_cases h : normalizeTitle title = []
  · rw [if_pos h]
    exact ⟨fun heq => (nomatch heq), fun heq => absurd h heq.1⟩
  · rw [if_neg h]
    exact ⟨fun heq => ⟨h, (Except.ok.inj heq).symm⟩, fun heq => congrArg _ heq.2.symm⟩

/-- A title cleans exactly when it is not blank. -/
theorem normalizeTitle_eq_nil_iff {title : PyStr} : normalizeTitle title = [] ↔ Blank title := by
  rw [normalizeTitle, casefold_eq_nil_iff, Blank]

/-- The key of a stripped title is the key of the title. -/
@[simp] theorem normalizeTitle_strip (title : PyStr) :
    normalizeTitle (strip title) = normalizeTitle title := by
  rw [normalizeTitle, strip_strip, normalizeTitle]

/-- The stored key is the key of the stored title. -/
def Keyed (t : Task) : Prop := t.titleKey = normalizeTitle t.title

theorem fromInput_eq_ok {id : Uuid} {createdAt : Time} {title status : PyStr}
    {description : Option PyStr} {priority : Int} {t : Task} :
    fromInput id createdAt title description status priority = .ok t ↔ normalizeTitle title ≠ []
      ∧ t = ⟨id, strip title, normalizeTitle title, description, status, priority, createdAt⟩ := by
  simp only [fromInput, Except.bind_eq_ok, cleanTitle_eq_ok, Except.pure_eq_ok, Except.ok.injEq]
  constructor
  · rintro ⟨_, ⟨h, rfl⟩, rfl⟩
    exact ⟨h, rfl⟩
  · rintro ⟨h, rfl⟩
    exact ⟨_, ⟨h, rfl⟩, rfl⟩

theorem applyReplace_eq_ok {t t' : Task} {title status : PyStr} {description : Option PyStr}
    {priority : Int} :
    t.applyReplace title description status priority = .ok t' ↔ normalizeTitle title ≠ []
      ∧ t' = ⟨t.id, strip title, normalizeTitle title, description, status, priority,
          t.createdAt⟩ := by
  simp only [applyReplace, Except.bind_eq_ok, cleanTitle_eq_ok, Except.pure_eq_ok, Except.ok.injEq]
  constructor
  · rintro ⟨_, ⟨h, rfl⟩, rfl⟩
    exact ⟨h, rfl⟩
  · rintro ⟨h, rfl⟩
    exact ⟨_, ⟨h, rfl⟩, rfl⟩

theorem patchTitle_eq_ok {t t' : Task} {title : Option PyStr} :
    t.patchTitle title = .ok t' ↔ (∀ s ∈ title, normalizeTitle s ≠ [])
      ∧ t' = { t with title := (title.map strip).getD t.title,
                      titleKey := (title.map normalizeTitle).getD t.titleKey } := by
  cases title with
  | none => exact ⟨fun h => ⟨by simp, (Except.ok.inj h).symm⟩, fun h => congrArg _ h.2.symm⟩
  | some s =>
    simp only [patchTitle, Except.bind_eq_ok, cleanTitle_eq_ok, Except.pure_eq_ok, Except.ok.injEq]
    constructor
    · rintro ⟨_, ⟨h, rfl⟩, rfl⟩
      exact ⟨by simpa using h, rfl⟩
    · rintro ⟨h, rfl⟩
      exact ⟨_, ⟨by simpa using h, rfl⟩, rfl⟩

theorem applyPatch_eq_ok {t t' : Task} {fields : PatchFields} :
    t.applyPatch fields = .ok t' ↔
      fields.unknown = [] ∧ (∀ title ∈ fields.title, normalizeTitle title ≠ [])
        ∧ t' = ⟨t.id, (fields.title.map strip).getD t.title,
            (fields.title.map normalizeTitle).getD t.titleKey,
            fields.description.getD t.description,
            fields.status.getD t.status, fields.priority.getD t.priority, t.createdAt⟩ := by
  unfold applyPatch
  by_cases hu : fields.unknown = []
  · simp only [hu, ne_eq, not_true_eq_false, if_false, Except.bind_eq_ok, patchTitle_eq_ok,
      Except.pure_eq_ok, Except.ok.injEq, true_and]
    constructor
    · rintro ⟨_, ⟨h, rfl⟩, rfl⟩
      exact ⟨h, rfl⟩
    · rintro ⟨h, rfl⟩
      exact ⟨_, ⟨h, rfl⟩, rfl⟩
  · simp [hu]

end Task

end TaskService.Tasks
