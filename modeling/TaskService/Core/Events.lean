import TaskService.Tags.Models
import TaskService.Tasks.Models

/-!
# Domain events and their outbox rows

An event has an id, a time and, by its class, further fields (`EventBody`). Staging it makes a
pending `OutboxRecord`. The record is generic in the event it carries: delivery does not look into
payloads, except to rebuild the event.
-/

namespace TaskService

open Tasks Tags

/-- The event classes with their own fields. -/
inductive EventBody where
  | taskCreated (task : Task)
  | taskUpdated (task previous : Task) (changedFields : List MutableField)
  | taskStatusChanged (task : Task) (fromStatus toStatus : PyStr)
  | taskCompleted (task : Task)
  | taskDeleted (task : Task)
  | taskTagsChanged (taskId : Uuid) (tags added removed : List PyStr)
  | tagDeleted (tagId : Uuid) (name : PyStr)
  | workflowUpdated (version : Nat) (states : List PyStr)
  deriving DecidableEq

/-- An event, with the fields of the base class. -/
structure Event where
  id : Uuid
  occurredAt : Time
  body : EventBody
  deriving DecidableEq

/-- One durable event awaiting delivery; `publishedAt = none` means pending. -/
structure OutboxRecord (E : Type) where
  id : Uuid
  event : E
  occurredAt : Time
  publishedAt : Option Time
  deadLetteredAt : Option Time
  retryCount : Nat
  lastError : Option PyStr

/-- `OutboxRecord.from_event`: a pending row, its storage id distinct from the event's. -/
def OutboxRecord.fromEvent (id : Uuid) (event : Event) : OutboxRecord Event where
  id := id
  event := event
  occurredAt := event.occurredAt
  publishedAt := none
  deadLetteredAt := none
  retryCount := 0
  lastError := none

/-- The strings of a task row. -/
def Tasks.Task.texts (t : Task) : List PyStr :=
  t.title :: t.titleKey :: t.status :: t.description.toList

/-- The strings in the payload of an event. -/
def EventBody.texts : EventBody → List PyStr
  | .taskCreated task => task.texts
  | .taskUpdated task previous _ => task.texts ++ previous.texts
  | .taskStatusChanged task fromStatus toStatus => fromStatus :: toStatus :: task.texts
  | .taskCompleted task => task.texts
  | .taskDeleted task => task.texts
  | .taskTagsChanged _ tags added removed => tags ++ added ++ removed
  | .tagDeleted _ name => [name]
  | .workflowUpdated _ states => states

end TaskService
