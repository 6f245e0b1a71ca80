import TaskService.Core.Events
import TaskService.Py.Json

/-!
# The database

The five tables as lists of rows, and the statements the service issues as row-level writes. `check`
is what Postgres refuses a statement for: a value its column cannot hold, a unique, primary-key or
foreign-key violation, or (from the ORM) an UPDATE that finds no row. `apply` is its effect.

An UPDATE sets only the columns whose value the session changed, so it is given by the row as the
session loaded it and the row as the session left it.
-/

namespace TaskService

open Tasks Tags

/-- Storage of JSON values: JSONB keeps a value up to the order of object members. -/
class Jsonb where
  store : Json → Json
  same_store : ∀ d, Json.Same (store d) d

namespace Store

/-- One stored version of the workflow definition. -/
structure WorkflowRecord where
  version : Nat
  document : Json
  createdAt : Time

structure Db where
  tasks : List Task
  tags : List Tag
  taskTags : List TaskTag
  outbox : List (OutboxRecord Event)
  workflows : List WorkflowRecord

def Db.empty : Db := ⟨[], [], [], [], []⟩

/-- One statement on one row, or on the links of one task. -/
inductive Write where
  | insertTask (t : Task)
  /-- the columns in which `current` differs from `loaded` are set -/
  | updateTask (loaded current : Task)
  | deleteTask (id : Uuid)
  | insertTag (t : Tag)
  | deleteTag (id : Uuid)
  | insertTaskTag (l : TaskTag)
  /-- the links a DELETE found -/
  | deleteTaskTags (links : List TaskTag)
  | insertOutbox (r : OutboxRecord Event)
  | insertWorkflow (r : WorkflowRecord)

/-! ## What a column can hold -/

/-- Postgres `text`: UTF-8 without U+0000. -/
def Storable (s : PyStr) : Prop := (0 : CodePoint) ∉ s ∧ Encodable s

instance (s : PyStr) : Decidable (Storable s) := inferInstanceAs (Decidable (_ ∧ _))

/-- Postgres `varchar(n)`. -/
def Fits (n : Nat) (s : PyStr) : Prop := s.length ≤ n ∧ Storable s

instance (n : Nat) (s : PyStr) : Decidable (Fits n s) := inferInstanceAs (Decidable (_ ∧ _))

/-- JSON that JSONB takes: storable strings, finite numbers. -/
def StorableJson (d : Json) : Prop :=
  (∀ s ∈ d.strings, Storable s) ∧ ∀ bits ∈ d.floats, Json.finiteBits bits = true

instance (d : Json) : Decidable (StorableJson d) :=
  have := List.decidableBAll (fun bits => Json.finiteBits bits = true) d.floats
  inferInstanceAs (Decidable (_ ∧ _))

/-- Postgres `integer`. -/
def int4Max : Int := 2 ^ 31 - 1

def TaskFits (t : Task) : Prop :=
  Fits titleMaxLength t.title ∧ Fits titleMaxLength t.titleKey
    ∧ (∀ d ∈ t.description, Fits descriptionMaxLength d) ∧ Storable t.status
    ∧ (-int4Max - 1 ≤ t.priority ∧ t.priority ≤ int4Max)

instance (t : Task) : Decidable (TaskFits t) := by
  unfold TaskFits
  infer_instance

def TagFits (t : Tag) : Prop := Fits nameMaxLength t.name ∧ Fits nameMaxLength t.nameKey

instance (t : Tag) : Decidable (TagFits t) := inferInstanceAs (Decidable (_ ∧ _))

/-! ## Statements -/

/-- The value a column holds after an UPDATE by the ORM. -/
def column {α : Type} [DecidableEq α] (loaded current stored : α) : α :=
  if loaded = current then stored else current

/-- A row after the UPDATE of a loaded task. -/
def updated (loaded current row : Task) : Task where
  id := row.id
  title := column loaded.title current.title row.title
  titleKey := column loaded.titleKey current.titleKey row.titleKey
  description := column loaded.description current.description row.description
  status := column loaded.status current.status row.status
  priority := column loaded.priority current.priority row.priority
  createdAt := column loaded.createdAt current.createdAt row.createdAt

namespace Write

def titleKeyConstraint : PyStr := py "uq_tasks_title_key"
def nameKeyConstraint : PyStr := py "uq_tags_name_key"

/-- Why a statement is refused, if it is. A task row is checked whole: the columns an UPDATE leaves
alone hold what the column held before. -/
def check (db : Db) : Write → Option DbError
  | insertTask t =>
    if ¬ TaskFits t then some .data
    else if ∃ row ∈ db.tasks, row.id = t.id then some (.integrity (py "tasks_pkey"))
    else if ∃ row ∈ db.tasks, row.titleKey = t.titleKey then some (.integrity titleKeyConstraint)
    else none
  | updateTask loaded current =>
    if ¬ TaskFits current then some .data
    else if ∀ row ∈ db.tasks, row.id ≠ loaded.id then some .stale
    else if loaded.titleKey ≠ current.titleKey
        ∧ ∃ row ∈ db.tasks, row.id ≠ loaded.id ∧ row.titleKey = current.titleKey then
      some (.integrity titleKeyConstraint)
    else none
  | deleteTask _ => none
  | insertTag t =>
    if ¬ TagFits t then some .data
    else if ∃ row ∈ db.tags, row.id = t.id then some (.integrity (py "tags_pkey"))
    else if ∃ row ∈ db.tags, row.nameKey = t.nameKey then some (.integrity nameKeyConstraint)
    else none
  | deleteTag _ => none
  | insertTaskTag l =>
    if l ∈ db.taskTags then some (.integrity (py "task_tags_pkey"))
    else if ∀ row ∈ db.tags, row.id ≠ l.tagId then
      some (.integrity (py "task_tags_tag_id_fkey"))
    else if ∀ row ∈ db.tasks, row.id ≠ l.taskId then
      some (.integrity (py "task_tags_task_id_fkey"))
    else none
  | deleteTaskTags _ => none
  | insertOutbox r =>
    if ∃ s ∈ r.event.body.texts, ¬ Storable s then some .data
    else if ∃ row ∈ db.outbox, row.id = r.id then some (.integrity (py "outbox_pkey"))
    else none
  | insertWorkflow r =>
    if ¬ StorableJson r.document ∨ int4Max < r.version then some .data
    else if ∃ row ∈ db.workflows, row.version = r.version then
      some (.integrity (py "ix_workflow_definitions_version"))
    else none

variable [Jsonb]

/-- The effect of a statement. Deleting a task or a tag deletes its links. -/
def apply (db : Db) : Write → Db
  | insertTask t => { db with tasks := db.tasks ++ [t] }
  | updateTask loaded current =>
    { db with tasks := db.tasks.map fun row =>
        if row.id = loaded.id then updated loaded current row else row }
  | deleteTask id =>
    { db with tasks := db.tasks.filter fun row => row.id ≠ id
              taskTags := db.taskTags.filter fun l => l.taskId ≠ id }
  | insertTag t => { db with tags := db.tags ++ [t] }
  | deleteTag id =>
    { db with tags := db.tags.filter fun row => row.id ≠ id
              taskTags := db.taskTags.filter fun l => l.tagId ≠ id }
  | insertTaskTag l => { db with taskTags := db.taskTags ++ [l] }
  | deleteTaskTags links => { db with taskTags := db.taskTags.filter fun l => l ∉ links }
  | insertOutbox r => { db with outbox := db.outbox ++ [r] }
  | insertWorkflow r =>
    { db with workflows := db.workflows ++ [{ r with document := Jsonb.store r.document }] }

end Write

variable [Jsonb]

/-- The database with a transaction's statements applied. -/
def view (db : Db) (log : List Write) : Db := log.foldl Write.apply db

@[simp] theorem view_nil (db : Db) : view db [] = db := rfl

@[simp] theorem view_append (db : Db) (log log' : List Write) :
    view db (log ++ log') = view (view db log) log' := List.foldl_append

@[simp] theorem view_cons (db : Db) (w : Write) (log : List Write) :
    view db (w :: log) = view (w.apply db) log := rfl

end Store

end TaskService
