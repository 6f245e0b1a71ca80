import TaskService.Core.Events
import TaskService.Core.Wire
import TaskService.Py.Dumps
import TaskService.Store.Database
import TaskService.Workflows.RoundTrip

/-!
# Event payloads

What `from_event` stores of an event and what a delivery rebuilds of it: the name of its class, and
`model_dump(mode="json")`, which `model_validate` of the class reads again after JSONB has kept it.
The fields of an event come back as they were. A nested row does not: its class is a table, so what
the payload has under the names of its columns becomes its attributes as it is.

* **`storableJson_payload`**: JSONB takes a payload when it takes the texts of its fields.
* **`modelValidate_payload`**: an event is rebuilt from its stored payload.
-/

namespace TaskService

open Tasks Tags Store Workflows

/-! ## Classes -/

/-- The event classes. -/
inductive EventType where
  | taskCreated
  | taskUpdated
  | taskStatusChanged
  | taskCompleted
  | taskDeleted
  | workflowUpdated
  | taskTagsChanged
  | tagDeleted
  deriving DecidableEq

/-- `__name__`. -/
def EventType.name : EventType → PyStr
  | .taskCreated => py "TaskCreated"
  | .taskUpdated => py "TaskUpdated"
  | .taskStatusChanged => py "TaskStatusChanged"
  | .taskCompleted => py "TaskCompleted"
  | .taskDeleted => py "TaskDeleted"
  | .workflowUpdated => py "WorkflowUpdated"
  | .taskTagsChanged => py "TaskTagsChanged"
  | .tagDeleted => py "TagDeleted"

/-- `TASK_EVENT_TYPES`. -/
def taskEventTypes : List EventType :=
  [.taskCreated, .taskUpdated, .taskStatusChanged, .taskCompleted, .taskDeleted]

/-- `WORKFLOW_EVENT_TYPES`. -/
def workflowEventTypes : List EventType := [.workflowUpdated]

/-- `TAG_EVENT_TYPES`. -/
def tagEventTypes : List EventType := [.taskTagsChanged, .tagDeleted]

/-- `EVENT_REGISTRY`. -/
def eventRegistry : Dict PyStr EventType :=
  (taskEventTypes ++ workflowEventTypes ++ tagEventTypes).map fun type => (type.name, type)

/-- `type(event)`. -/
def EventBody.type : EventBody → EventType
  | .taskCreated _ => .taskCreated
  | .taskUpdated .. => .taskUpdated
  | .taskStatusChanged .. => .taskStatusChanged
  | .taskCompleted _ => .taskCompleted
  | .taskDeleted _ => .taskDeleted
  | .taskTagsChanged .. => .taskTagsChanged
  | .tagDeleted .. => .tagDeleted
  | .workflowUpdated .. => .workflowUpdated

/-- **Every class is registered under its name.** -/
theorem get?_eventRegistry (type : EventType) :
    Dict.get? eventRegistry type.name = some type := by
  cases type <;> decide +kernel

/-! ## Writing -/

def Tasks.MutableField.name : MutableField → PyStr
  | .title => py "title"
  | .description => py "description"
  | .status => py "status"
  | .priority => py "priority"

/-- The columns of a task, as JSON values. -/
def Tasks.Task.columns (t : Task) : Dict PyStr Json :=
  [(py "id", .str (uuidText t.id)), (py "title", .str t.title), (py "title_key", .str t.titleKey),
    (py "description", (t.description.map Json.str).getD .null), (py "status", .str t.status),
    (py "priority", .int t.priority), (py "created_at", .str (isoText t.createdAt))]

def jsonStrings (ss : List PyStr) : Json := .list (ss.map .str)

/-- The fields of an event beside those of the base class. -/
def EventBody.fields : EventBody → Dict PyStr Json
  | .taskCreated task | .taskCompleted task | .taskDeleted task =>
    [(py "task", .dict task.columns)]
  | .taskUpdated task previous changedFields =>
    [(py "task", .dict task.columns), (py "previous", .dict previous.columns),
      (py "changed_fields", jsonStrings (changedFields.map MutableField.name))]
  | .taskStatusChanged task fromStatus toStatus =>
    [(py "task", .dict task.columns), (py "from_status", .str fromStatus),
      (py "to_status", .str toStatus)]
  | .taskTagsChanged taskId tags added removed =>
    [(py "task_id", .str (uuidText taskId)), (py "tags", jsonStrings tags),
      (py "added", jsonStrings added), (py "removed", jsonStrings removed)]
  | .tagDeleted tagId name => [(py "tag_id", .str (uuidText tagId)), (py "name", .str name)]
  | .workflowUpdated version states =>
    [(py "version", .int version), (py "states", jsonStrings states)]

/-- The members of the payload. -/
def Event.members (e : Event) : Dict PyStr Json :=
  (py "id", .str (uuidText e.id)) :: (py "occurred_at", .str (isoText e.occurredAt)) ::
    e.body.fields

/-- `event.model_dump(mode="json")`. -/
def Event.payload (e : Event) : Json := .dict e.members

/-! ## Reading -/

/-- The attributes of a rebuilt row. -/
abbrev RowValues := Dict PyStr Json

/-- The own fields of a rebuilt event. -/
inductive RebuiltBody where
  | taskCreated (task : RowValues)
  | taskUpdated (task previous : RowValues) (changedFields : List PyStr)
  | taskStatusChanged (task : RowValues) (fromStatus toStatus : PyStr)
  | taskCompleted (task : RowValues)
  | taskDeleted (task : RowValues)
  | taskTagsChanged (taskId : Uuid) (tags added removed : List PyStr)
  | tagDeleted (tagId : Uuid) (name : PyStr)
  | workflowUpdated (version : Int) (states : List PyStr)

/-- The event a listener gets. -/
structure RebuiltEvent where
  id : Uuid
  occurredAt : Time
  body : RebuiltBody

def RebuiltBody.type : RebuiltBody → EventType
  | .taskCreated _ => .taskCreated
  | .taskUpdated .. => .taskUpdated
  | .taskStatusChanged .. => .taskStatusChanged
  | .taskCompleted _ => .taskCompleted
  | .taskDeleted _ => .taskDeleted
  | .taskTagsChanged .. => .taskTagsChanged
  | .tagDeleted .. => .tagDeleted
  | .workflowUpdated .. => .workflowUpdated

/-- The fields as they were, the rows by their columns. -/
def EventBody.rebuilt : EventBody → RebuiltBody
  | .taskCreated task => .taskCreated task.columns
  | .taskUpdated task previous changedFields =>
    .taskUpdated task.columns previous.columns (changedFields.map MutableField.name)
  | .taskStatusChanged task fromStatus toStatus =>
    .taskStatusChanged task.columns fromStatus toStatus
  | .taskCompleted task => .taskCompleted task.columns
  | .taskDeleted task => .taskDeleted task.columns
  | .taskTagsChanged taskId tags added removed => .taskTagsChanged taskId tags added removed
  | .tagDeleted tagId name => .tagDeleted tagId name
  | .workflowUpdated version states => .workflowUpdated version states

def Event.rebuilt (e : Event) : RebuiltEvent := ⟨e.id, e.occurredAt, e.body.rebuilt⟩

def readStr : Json → Option PyStr
  | .str s => some s
  | _ => none

def readUuid (d : Json) : Option Uuid := (readStr d).bind parseUuid

def readDatetime (d : Json) : Option Time := (readStr d).bind parseTime

def readInt : Json → Option Int
  | .int n => some n
  | _ => none

def readStrings : Json → Option (List PyStr)
  | .list xs => xs.mapM readStr
  | _ => none

/-- The names of the columns of a task. -/
def taskColumns : List PyStr :=
  [py "id", py "title", py "title_key", py "description", py "status", py "priority",
    py "created_at"]

/-- A table class takes its attributes as they are. -/
def readRow : Json → Option RowValues
  | .dict members => some (taskColumns.filterMap fun k => (Dict.get? members k).map fun v => (k, v))
  | _ => none

section Members

variable {α : Type} (members : Dict PyStr Json)

/-- A field without a default. -/
def required (name : String) (read : Json → Option α) : Option α :=
  (Dict.get? members (py name)).bind read

/-- A field with one. -/
def defaulted (name : String) (default : α) (read : Json → Option α) : Option α :=
  match Dict.get? members (py name) with
  | some d => read d
  | none => some default

/-- The own fields of a class. -/
def readBody : EventType → Option RebuiltBody
  | .taskCreated => (required members "task" readRow).map .taskCreated
  | .taskUpdated => do
    let task ← required members "task" readRow
    let previous ← required members "previous" readRow
    let changedFields ← required members "changed_fields" readStrings
    return .taskUpdated task previous changedFields
  | .taskStatusChanged => do
    let task ← required members "task" readRow
    let fromStatus ← required members "from_status" readStr
    let toStatus ← required members "to_status" readStr
    return .taskStatusChanged task fromStatus toStatus
  | .taskCompleted => (required members "task" readRow).map .taskCompleted
  | .taskDeleted => (required members "task" readRow).map .taskDeleted
  | .taskTagsChanged => do
    let taskId ← required members "task_id" readUuid
    let tags ← required members "tags" readStrings
    let added ← required members "added" readStrings
    let removed ← required members "removed" readStrings
    return .taskTagsChanged taskId tags added removed
  | .tagDeleted => do
    let tagId ← required members "tag_id" readUuid
    let name ← required members "name" readStr
    return .tagDeleted tagId name
  | .workflowUpdated => do
    let version ← required members "version" readInt
    let states ← required members "states" readStrings
    return .workflowUpdated version states

end Members

/-- `cls.model_validate(payload)`; a missing id or time would be drawn anew. -/
def modelValidate (newId : Uuid) (now : Time) (type : EventType) : Json → Option RebuiltEvent
  | .dict members => do
    let id ← defaulted members "id" newId readUuid
    let occurredAt ← defaulted members "occurred_at" now readDatetime
    let body ← readBody members type
    return { id, occurredAt, body }
  | _ => none

/-! ## What JSONB takes -/

theorem storable_hexDigits {ds : List Nat} (h : ∀ d ∈ ds, d < 16) :
    Storable (ds.flatMap hexDigit) := by
  refine ⟨fun hnul => ?_, ?_⟩
  · obtain ⟨d, hd, hmem⟩ := List.mem_flatMap.1 hnul
    obtain ⟨c, hc, hvalue, -⟩ := hexDigit_spec d (h d hd)
    rw [hc, List.mem_singleton] at hmem
    rw [← hmem] at hvalue
    exact absurd hvalue (by simp [digitValue])
  · intro c hc
    obtain ⟨d, -, hmem⟩ := List.mem_flatMap.1 hc
    exact encodable_py _ c hmem

theorem storable_append {s s' : PyStr} : Storable (s ++ s') ↔ Storable s ∧ Storable s' := by
  simp only [Storable, encodable_append, List.mem_append, not_or]
  tauto

theorem storable_padded (width n : Nat) : Storable (padded width n) :=
  storable_hexDigits fun _ => lt_of_mem_padded

theorem storable_of_subset {s s' : PyStr} (h : Storable s') (hsub : s ⊆ s') : Storable s :=
  ⟨fun hnul => h.1 (hsub hnul), fun c hc => h.2 c (hsub hc)⟩

theorem storable_uuidText (id : Uuid) : Storable (uuidText id) := by
  have hdigits : Storable (hex 32 id) := by
    rw [hex_eq]
    exact storable_hexDigits fun _ => lt_of_mem_hex
  have hpart : ∀ n m, Storable (((hex 32 id).drop n).take m) := fun n m =>
    storable_of_subset hdigits (List.Subset.trans (List.take_subset _ _) (List.drop_subset _ _))
  have hhyphen : Storable (py "-") := by decide
  simp only [uuidText, storable_append, hhyphen, hpart, and_true,
    storable_of_subset hdigits (List.drop_subset _ _),
    storable_of_subset hdigits (List.take_subset _ _)]

theorem storable_isoText (t : Time) : Storable (isoText t) := by
  have hmarks : Storable (py "-") ∧ Storable (py "T") ∧ Storable (py ":") ∧ Storable (py ".")
      ∧ Storable (py "Z") ∧ Storable [] := by decide
  obtain ⟨hhyphen, ht, hcolon, hpoint, hz, hnil⟩ := hmarks
  have hfraction : Storable (if t % 1000000 = 0 then [] else py "." ++ padded 6 (t % 1000000)) := by
    split
    · exact hnil
    · exact storable_append.2 ⟨hpoint, storable_padded _ _⟩
  simp only [isoText, storable_append, storable_padded, hhyphen, ht, hcolon, hz, hfraction,
    and_true]

theorem storableJson_str {s : PyStr} : StorableJson (.str s) ↔ Storable s := screens_str

theorem storableJson_int (n : Int) : StorableJson (.int n) :=
  ⟨fun _ hs => absurd hs List.not_mem_nil, fun _ hbits => absurd hbits List.not_mem_nil⟩

theorem storableJson_null : StorableJson .null :=
  ⟨fun _ hs => absurd hs List.not_mem_nil, fun _ hbits => absurd hbits List.not_mem_nil⟩

theorem storableJson_dict {kvs : Dict PyStr Json} :
    StorableJson (.dict kvs) ↔ ∀ kv ∈ kvs, Storable kv.1 ∧ StorableJson kv.2 := screens_dict

theorem storableJson_jsonStrings {ss : List PyStr} :
    StorableJson (jsonStrings ss) ↔ ∀ s ∈ ss, Storable s := by
  have hlist : StorableJson (jsonStrings ss) ↔ ∀ d ∈ ss.map Json.str, StorableJson d := screens_list
  rw [hlist, List.forall_mem_map]
  exact forall₂_congr fun _ _ => storableJson_str

theorem storableJson_description {description : Option PyStr} :
    StorableJson ((description.map Json.str).getD .null) ↔
      ∀ s ∈ description.toList, Storable s := by
  cases description with
  | none => simp [storableJson_null]
  | some s => simp [storableJson_str]

/-- JSONB takes the columns of a task when it takes its texts. -/
theorem storableJson_columns {t : Task} :
    StorableJson (.dict t.columns) ↔ ∀ s ∈ t.texts, Storable s := by
  have hkeys : ∀ k ∈ taskColumns, Storable k := by decide
  simp only [taskColumns, List.forall_mem_cons] at hkeys
  simp only [storableJson_dict, Task.columns, Task.texts, List.forall_mem_cons, hkeys,
    storableJson_str, storableJson_int, storableJson_description, storable_uuidText,
    storable_isoText, and_true, true_and]
  tauto

/-- The names of the fields of events. -/
def fieldNames : List PyStr :=
  [py "id", py "occurred_at", py "task", py "previous", py "changed_fields", py "from_status",
    py "to_status", py "task_id", py "tags", py "added", py "removed", py "tag_id", py "name",
    py "version", py "states"]

/-- **JSONB takes the payload of an event when it takes the texts of its fields.** -/
theorem storableJson_payload {e : Event} :
    StorableJson e.payload ↔ ∀ s ∈ e.body.texts, Storable s := by
  have hkeys : ∀ k ∈ fieldNames, Storable k := by decide
  simp only [fieldNames, List.forall_mem_cons] at hkeys
  have hnames : ∀ f : MutableField, Storable f.name := fun f => by cases f <;> decide
  have hbody : StorableJson e.payload
      ↔ ∀ kv ∈ e.body.fields, Storable kv.1 ∧ StorableJson kv.2 := by
    simp only [Event.payload, Event.members, storableJson_dict, List.forall_mem_cons, hkeys,
      storableJson_str, storable_uuidText, storable_isoText, true_and]
  rw [hbody]
  cases e.body <;>
    simp only [EventBody.fields, EventBody.texts, List.forall_mem_cons, List.not_mem_nil,
      IsEmpty.forall_iff, List.forall_mem_append, List.forall_mem_map, hkeys, hnames,
      storableJson_columns, storableJson_jsonStrings, storableJson_str, storableJson_int,
      storable_uuidText, and_true, true_and, implies_true, and_assoc]
  case taskStatusChanged => tauto

/-! ## Rebuilding -/

/-- Whatever JSONB makes of `d` is read so. -/
def Reads {α : Type} (read : Json → Option α) (d : Json) (a : α) : Prop :=
  ∀ d', Json.Same d d' → read d' = some a

theorem reads_str (s : PyStr) : Reads readStr (.str s) s := fun d' h => by
  rw [Json.same_str.1 h]
  rfl

theorem reads_int (n : Int) : Reads readInt (.int n) n := fun d' h => by
  rw [Json.same_int.1 h]
  rfl

theorem reads_uuid {id : Uuid} (hid : id < uuidBound) : Reads readUuid (.str (uuidText id)) id :=
  fun d' h => by
    rw [Json.same_str.1 h, readUuid, readStr, Option.bind_some, parseUuid_uuidText hid]

theorem reads_datetime {t : Time} (ht : t < timeBound) : Reads readDatetime (.str (isoText t)) t :=
  fun d' h => by
    rw [Json.same_str.1 h, readDatetime, readStr, Option.bind_some, parseTime_isoText ht]

/-- Texts in a list are kept as they are. -/
theorem eq_of_map_canon {ss : List PyStr} {ys : List Json}
    (h : (ss.map Json.str).map Json.canon = ys.map Json.canon) : ys = ss.map .str := by
  induction ss generalizing ys with
  | nil => exact List.map_eq_nil_iff.1 h.symm
  | cons s ss ih =>
    cases ys with
    | nil => cases h
    | cons y ys =>
      obtain ⟨hhead, htail⟩ := List.cons.inj h
      rw [ih htail, Json.same_str.1 (show Json.Same (.str s) y from hhead)]
      rfl

theorem mapM_readStr (ss : List PyStr) : (ss.map Json.str).mapM readStr = some ss := by
  rw [List.mapM_map]
  exact (List.mapM_pure (m := Option)).trans (congrArg some (List.map_id ss))

theorem reads_strings (ss : List PyStr) : Reads readStrings (jsonStrings ss) ss := fun d' h => by
  obtain ⟨ys, rfl, hys⟩ := Json.Same.list_right h
  rw [eq_of_map_canon hys]
  exact mapM_readStr ss

theorem same_null {d : Json} (h : Json.Same .null d) : d = .null := by
  cases d with
  | null => rfl
  | _ => simp [Json.Same, Json.canon] at h

/-- A column holds no object: it is kept as it is. -/
theorem eq_of_same_column {t : Task} {k : PyStr} {v d : Json} (hv : (k, v) ∈ t.columns)
    (h : Json.Same v d) : d = v := by
  have hleaf : (∃ s, v = .str s) ∨ (∃ n, v = .int n) ∨ v = .null := by
    simp only [Task.columns, List.mem_cons, Prod.mk.injEq, List.not_mem_nil, or_false] at hv
    rcases hv with ⟨-, rfl⟩ | ⟨-, rfl⟩ | ⟨-, rfl⟩ | ⟨-, rfl⟩ | ⟨-, rfl⟩ | ⟨-, rfl⟩ | ⟨-, rfl⟩
    case inr.inr.inr.inl =>
      cases t.description with
      | none => exact .inr (.inr rfl)
      | some s => exact .inl ⟨s, rfl⟩
    case inr.inr.inr.inr.inr.inl => exact .inr (.inl ⟨_, rfl⟩)
    all_goals exact .inl ⟨_, rfl⟩
  rcases hleaf with ⟨s, rfl⟩ | ⟨n, rfl⟩ | rfl
  · exact Json.same_str.1 h
  · exact Json.same_int.1 h
  · exact same_null h

theorem keys_columns (t : Task) : Dict.keys t.columns = taskColumns := rfl

/-- **A row comes back with the values of its columns.** -/
theorem reads_row (t : Task) : Reads readRow (.dict t.columns) t.columns := fun d' h => by
  obtain ⟨members, rfl, hperm⟩ := Json.Same.dict_right h
  have hnd : (Dict.keys t.columns).Nodup := by
    rw [keys_columns]
    decide
  have hget : ∀ k, Dict.get? members k = Dict.get? t.columns k := fun k => by
    have hsame := Json.get?_of_perm_canonItems hnd hperm k
    cases hv : Dict.get? t.columns k with
    | none =>
      rw [hv] at hsame
      exact Option.map_eq_none_iff.1 hsame.symm
    | some v =>
      rw [hv, Option.map_some] at hsame
      obtain ⟨v', hv', hcanon⟩ := Option.map_eq_some_iff.1 hsame.symm
      rw [hv', eq_of_same_column (Dict.mem_of_get? hv) hcanon.symm]
  show some (taskColumns.filterMap fun k => (Dict.get? members k).map fun v => (k, v)) = _
  simp only [hget]
  rfl

/-! ### Members -/

/-- The id among the own fields. -/
def EventBody.ownId? : EventBody → Option Uuid
  | .taskTagsChanged taskId _ _ _ => some taskId
  | .tagDeleted tagId _ => some tagId
  | _ => none

/-- The ids of an event are UUIDs, and its time is one that a `datetime` can hold. -/
def Event.Representable (e : Event) : Prop :=
  e.id < uuidBound ∧ e.occurredAt < timeBound ∧ ∀ id ∈ e.body.ownId?, id < uuidBound

instance (e : Event) : Decidable e.Representable := inferInstanceAs (Decidable (_ ∧ _ ∧ _))

theorem nodup_keys_members (e : Event) : (Dict.keys e.members).Nodup := by
  obtain ⟨id, occurredAt, body⟩ := e
  cases body <;> exact of_decide_eq_true rfl

/-- A member of the payload is read from what JSONB made of it. -/
theorem required_of_reads {α : Type} {members members' : Dict PyStr Json}
    (hget : ∀ k, (Dict.get? members k).map Json.canon = (Dict.get? members' k).map Json.canon)
    {name : String} {d : Json} {read : Json → Option α} {a : α}
    (hmember : Dict.get? members (py name) = some d) (hreads : Reads read d a) :
    required members' name read = some a := by
  have hsame := hget (py name)
  rw [hmember, Option.map_some] at hsame
  obtain ⟨d', hd', hcanon⟩ := Option.map_eq_some_iff.1 hsame.symm
  rw [required, hd', Option.bind_some]
  exact hreads d' hcanon.symm

theorem defaulted_of_required {α : Type} {members : Dict PyStr Json} {name : String}
    {read : Json → Option α} {a : α} (default : α) (h : required members name read = some a) :
    defaulted members name default read = some a := by
  unfold required at h
  unfold defaulted
  cases hd : Dict.get? members (py name) with
  | none =>
    rw [hd] at h
    cases h
  | some d =>
    rw [hd] at h
    exact h

/-- The own fields are read as they were. -/
theorem readBody_of_members {e : Event} (h : e.Representable) {members : Dict PyStr Json}
    (hget : ∀ k, (Dict.get? e.members k).map Json.canon = (Dict.get? members k).map Json.canon) :
    readBody members e.body.type = some e.body.rebuilt := by
  obtain ⟨id, occurredAt, body⟩ := e
  cases body with
  | taskCreated task | taskCompleted task | taskDeleted task =>
    have htask : required members "task" readRow = some task.columns :=
      required_of_reads hget rfl (reads_row task)
    simp [readBody, EventBody.type, EventBody.rebuilt, htask]
  | taskUpdated task previous changedFields =>
    have htask : required members "task" readRow = some task.columns :=
      required_of_reads hget rfl (reads_row task)
    have hprevious : required members "previous" readRow = some previous.columns :=
      required_of_reads hget rfl (reads_row previous)
    have hfields : required members "changed_fields" readStrings
        = some (changedFields.map MutableField.name) :=
      required_of_reads hget rfl (reads_strings _)
    simp [readBody, EventBody.type, EventBody.rebuilt, htask, hprevious, hfields]
  | taskStatusChanged task fromStatus toStatus =>
    have htask : required members "task" readRow = some task.columns :=
      required_of_reads hget rfl (reads_row task)
    have hfrom : required members "from_status" readStr = some fromStatus :=
      required_of_reads hget rfl (reads_str fromStatus)
    have hto : required members "to_status" readStr = some toStatus :=
      required_of_reads hget rfl (reads_str toStatus)
    simp [readBody, EventBody.type, EventBody.rebuilt, htask, hfrom, hto]
  | taskTagsChanged taskId tags added removed =>
    have hid : required members "task_id" readUuid = some taskId :=
      required_of_reads hget rfl (reads_uuid (h.2.2 taskId rfl))
    have htags : required members "tags" readStrings = some tags :=
      required_of_reads hget rfl (reads_strings tags)
    have hadded : required members "added" readStrings = some added :=
      required_of_reads hget rfl (reads_strings added)
    have hremoved : required members "removed" readStrings = some removed :=
      required_of_reads hget rfl (reads_strings removed)
    simp [readBody, EventBody.type, EventBody.rebuilt, hid, htags, hadded, hremoved]
  | tagDeleted tagId name =>
    have hid : required members "tag_id" readUuid = some tagId :=
      required_of_reads hget rfl (reads_uuid (h.2.2 tagId rfl))
    have hname : required members "name" readStr = some name :=
      required_of_reads hget rfl (reads_str name)
    simp [readBody, EventBody.type, EventBody.rebuilt, hid, hname]
  | workflowUpdated version states =>
    have hversion : required members "version" readInt = some version :=
      required_of_reads hget rfl (reads_int version)
    have hstates : required members "states" readStrings = some states :=
      required_of_reads hget rfl (reads_strings states)
    simp [readBody, EventBody.type, EventBody.rebuilt, hversion, hstates]

/-- **An event is rebuilt from its stored payload**: under its own id, at its own time, with its
fields. -/
theorem modelValidate_payload [Jsonb] {e : Event} (h : e.Representable) (newId : Uuid)
    (now : Time) :
    modelValidate newId now e.body.type (Jsonb.store e.payload) = some e.rebuilt := by
  obtain ⟨members, hstore, hperm⟩ := (Jsonb.same_store e.payload).symm.dict_right
  have hget := Json.get?_of_perm_canonItems (nodup_keys_members e) hperm
  have hid : required members "id" readUuid = some e.id :=
    required_of_reads hget rfl (reads_uuid h.1)
  have htime : required members "occurred_at" readDatetime = some e.occurredAt :=
    required_of_reads hget rfl (reads_datetime h.2.1)
  rw [hstore, modelValidate, defaulted_of_required newId hid, defaulted_of_required now htime,
    readBody_of_members h hget]
  rfl

/-! ## Nothing is lost -/

/-- The rows in an event. -/
def EventBody.rows : EventBody → List Task
  | .taskCreated task | .taskStatusChanged task _ _ | .taskCompleted task | .taskDeleted task =>
    [task]
  | .taskUpdated task previous _ => [task, previous]
  | _ => []

/-- The id of a row is a UUID, and its time is one that a `datetime` can hold. -/
def Tasks.Task.Representable (t : Task) : Prop := t.id < uuidBound ∧ t.createdAt < timeBound

instance (t : Task) : Decidable t.Representable := inferInstanceAs (Decidable (_ ∧ _))

theorem uuidText_inj {id id' : Uuid} (hid : id < uuidBound) (hid' : id' < uuidBound)
    (h : uuidText id = uuidText id') : id = id' := by
  have hread := parseUuid_uuidText hid
  rw [h, parseUuid_uuidText hid'] at hread
  exact (Option.some.inj hread).symm

theorem isoText_inj {t t' : Time} (ht : t < timeBound) (ht' : t' < timeBound)
    (h : isoText t = isoText t') : t = t' := by
  have hread := parseTime_isoText ht
  rw [h, parseTime_isoText ht'] at hread
  exact (Option.some.inj hread).symm

theorem description_inj {description description' : Option PyStr}
    (h : (description.map Json.str).getD .null = (description'.map Json.str).getD .null) :
    description = description' := by
  cases description <;> cases description' <;> simp_all

/-- The columns determine the row. -/
theorem columns_inj {t t' : Task} (ht : t.Representable) (ht' : t'.Representable)
    (h : t.columns = t'.columns) : t = t' := by
  obtain ⟨id, title, titleKey, description, status, priority, createdAt⟩ := t
  obtain ⟨id', title', titleKey', description', status', priority', createdAt'⟩ := t'
  simp only [Task.columns, List.cons.injEq, Prod.mk.injEq, Json.str.injEq, Json.int.injEq,
    true_and, and_true] at h
  obtain ⟨hid, rfl, rfl, hdescription, rfl, rfl, htime⟩ := h
  obtain rfl := uuidText_inj ht.1 ht'.1 hid
  obtain rfl := isoText_inj ht.2 ht'.2 htime
  rw [description_inj hdescription]

theorem name_injective : Function.Injective MutableField.name := by
  intro f f' h
  cases f <;> cases f' <;> first | rfl | exact absurd h (by decide)

/-- **The rebuilt event determines the event.** -/
theorem rebuilt_inj {e e' : Event} (hrows : ∀ t ∈ e.body.rows, t.Representable)
    (hrows' : ∀ t ∈ e'.body.rows, t.Representable) (h : e.rebuilt = e'.rebuilt) : e = e' := by
  obtain ⟨id, occurredAt, body⟩ := e
  obtain ⟨id', occurredAt', body'⟩ := e'
  obtain ⟨rfl, rfl, hbody⟩ := RebuiltEvent.mk.inj h
  have hsame : body = body' := by
    cases body <;> cases body' <;>
      simp only [EventBody.rebuilt, EventBody.rows, List.forall_mem_cons, reduceCtorEq,
        RebuiltBody.taskCreated.injEq, RebuiltBody.taskUpdated.injEq,
        RebuiltBody.taskStatusChanged.injEq, RebuiltBody.taskCompleted.injEq,
        RebuiltBody.taskDeleted.injEq, RebuiltBody.taskTagsChanged.injEq,
        RebuiltBody.tagDeleted.injEq, RebuiltBody.workflowUpdated.injEq] at hbody hrows hrows'
    case taskCreated | taskCompleted | taskDeleted => rw [columns_inj hrows.1 hrows'.1 hbody]
    case taskUpdated =>
      obtain ⟨htask, hprevious, hfields⟩ := hbody
      rw [columns_inj hrows.1 hrows'.1 htask, columns_inj hrows.2.1 hrows'.2.1 hprevious,
        name_injective.list_map hfields]
    case taskStatusChanged =>
      obtain ⟨htask, rfl, rfl⟩ := hbody
      rw [columns_inj hrows.1 hrows'.1 htask]
    case taskTagsChanged =>
      obtain ⟨rfl, rfl, rfl, rfl⟩ := hbody
      rfl
    case tagDeleted =>
      obtain ⟨rfl, rfl⟩ := hbody
      rfl
    case workflowUpdated =>
      obtain ⟨hversion, rfl⟩ := hbody
      rw [Int.ofNat.inj hversion]
  rw [hsame]

/-- **The event format.** JSONB takes the payload of an event when it takes the texts of its fields;
the registry finds the class under the stored name, and validation rebuilds the event under its own
id and time, whatever would have been drawn; and no other event is rebuilt so. -/
theorem event_round_trip [Jsonb] {e : Event} (h : e.Representable)
    (hrows : ∀ t ∈ e.body.rows, t.Representable) :
    (StorableJson e.payload ↔ ∀ s ∈ e.body.texts, Storable s)
      ∧ (∀ newId now, ((Dict.get? eventRegistry e.body.type.name).bind fun type =>
          modelValidate newId now type (Jsonb.store e.payload)) = some e.rebuilt)
      ∧ ∀ e' : Event, (∀ t ∈ e'.body.rows, t.Representable) → e'.rebuilt = e.rebuilt → e' = e := by
  refine ⟨storableJson_payload, fun newId now => ?_, fun e' hrows' hsame =>
    rebuilt_inj hrows' hrows hsame⟩
  rw [get?_eventRegistry, Option.bind_some, modelValidate_payload h]

/-- A move of a task without a description. -/
def movedEvent : Event :=
  ⟨7, 8, .taskStatusChanged ⟨3, py "A", py "a", none, py "done", 2, 5⟩ (py "open") (py "done")⟩

theorem event_round_trip_moved :
    ((Dict.get? eventRegistry (py "TaskStatusChanged")).bind fun type =>
      modelValidate 0 0 type movedEvent.payload) = some movedEvent.rebuilt :=
  letI : Jsonb := ⟨id, fun _ => rfl⟩
  (event_round_trip (e := movedEvent) (by decide) (by decide)).2.1 0 0

end TaskService
