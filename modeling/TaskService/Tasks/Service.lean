import TaskService.Tags.Repository
import TaskService.Workflows.Repository

/-!
# The task repository and service

`tasks/infrastructure/repository.py` and `tasks/application/service.py`. A task a session holds is
an object whose attributes the service sets; the model hands the session the changed value
(`setTask`) where the source assigns.
-/

namespace TaskService.Tasks

open Store Workflows
open Prog (lift)

namespace Repository

/-- The handler of `IntegrityError` in `stage` and `_commit_or_translate`. -/
def translate (title : PyStr) : Exn → SessionProg Unit
  | .db (.integrity constraint) => do
    perform .rollback
    if constraint = Write.titleKeyConstraint then throw (.app (.duplicateTask title))
    else throw (.db (.integrity constraint))
  | e => throw e

/-- `persist`: one commit for the row and its events. -/
def persist (task : Task) (events : List Event) : SessionProg Unit := do
  perform (.add (.task task))
  stageEvents events
  (perform .commit).tryCatch (translate task.title)

/-- `stage`: flush the new row into the open transaction. -/
def stage (task : Task) : SessionProg Unit := do
  perform (.add (.task task))
  (perform .flush).tryCatch (translate task.title)

def remove (task : Task) (events : List Event) : SessionProg Unit := do
  perform (.deleteTask task)
  stageEvents events
  perform .commit

def get (taskId : Uuid) : SessionProg Task := do
  match ← perform (.getTask taskId) with
  | none => throw (.app (.taskNotFound taskId))
  | some task => return task

end Repository

/-- The handler of `DuplicateTaskError` in `_stage_new` and `_persist`: the caller's title,
verbatim. -/
def echoTitle (rawTitle : PyStr) : Exn → SessionProg Unit
  | .app (.duplicateTask _) => throw (.app (.duplicateTask rawTitle))
  | e => throw e

/-- `_stage_new`. -/
def stageNew (task : Task) (rawTitle : PyStr) : SessionProg Unit :=
  (Repository.stage task).tryCatch (echoTitle rawTitle)

/-- `_persist`. -/
def persist (task : Task) (events : List Event) (rawTitle : PyStr) : SessionProg Unit :=
  (Repository.persist task events).tryCatch (echoTitle rawTitle)

/-- `_context`: the actor's roles, and the occupancy if this write can hit a limit. -/
def context (engine : Engine) (roles : List PyStr) (fromStatus toStatus : Option PyStr) :
    SessionProg TransitionContext := do
  if engine.needsOccupancy fromStatus toStatus then
    let occupancy ← perform .countByStatus
    return { roles, occupancy }
  else return { roles, occupancy := [] }

/-- `sorted(set)`. -/
def sortedSet (names : List PyStr) : List PyStr := names.dedup.insertionSort (· ≤ ·)

variable [Unicode]

/-- The names of a request as the event shows them: stripped, blanks dropped. -/
def displayNames (names : List PyStr) : List PyStr := (names.filter fun n => ¬ Blank n).map strip

/-- `_stage_tags`: stage the task's tag set, and the event if the set moved. -/
def stageTags (taskId : Uuid) : Option (List PyStr) → SessionProg (Option Event)
  | none => return none
  | some names => do
    let before ← Tags.namesForTask taskId
    let resolved ← Tags.resolve names
    let after := displayNames names
    if before.toFinset = after.toFinset then return none
    Tags.setForTask taskId (resolved.map Prod.snd)
    let event ← newEvent (.taskTagsChanged taskId (sortedSet after)
      (sortedSet (after.filter (· ∉ before))) (sortedSet (before.filter (· ∉ after))))
    return some event

/-- The events after `TaskUpdated`: a status change, and a completion if the state entered
says so. -/
def statusEvents (updated previous : Task) (engine : Option Engine) : SessionProg (List Event) := do
  match engine with
  | none => throw .assertion
  | some engine =>
    let changed ← newEvent (.taskStatusChanged updated previous.status updated.status)
    if ← lift (engine.completes updated.status) then
      let completed ← newEvent (.taskCompleted updated)
      return [changed, completed]
    else return [changed]

/-- `_update_events`. -/
def updateEvents (updated previous : Task) (engine : Option Engine) :
    SessionProg (List Event) := do
  let changed := updated.changedFields previous
  if changed = [] then return []
  let snapshot ← lift updated.snapshot
  let event ← newEvent (.taskUpdated snapshot previous changed)
  if .status ∉ changed then return [event]
  let events ← statusEvents snapshot previous engine
  return event :: events

/-- `_persist_update`: persist a changed task with its events, or do nothing. -/
def persistUpdate (updated previous : Task) (engine : Option Engine) (rawTitle : PyStr)
    (extra : Option Event) : SessionProg Unit := do
  let events ← updateEvents updated previous engine
  let events := events ++ extra.toList
  if events ≠ [] then persist updated events rawTitle

/-- `_engine`. -/
def activeEngine : SessionProg Engine := do
  let stored ← Workflows.Repository.getActive
  return ⟨stored.workflow⟩

/-- `_guarded_engine`: the definition, read under the shared guard. -/
def guardedEngine : SessionProg Engine := do
  acquireWorkflowGuard true
  activeEngine

/-- The tag part of `create`: the row first, since its links reference it. -/
def createTags (task : Task) (rawTitle : PyStr) (tags : Option (List PyStr)) :
    SessionProg (List Event) := do
  match tags with
  | none | some [] => return []
  | some names =>
    stageNew task rawTitle
    let event ← stageTags task.id (some names)
    return event.toList

def create (title : PyStr) (description status : Option PyStr) (priority : Int)
    (tags : Option (List PyStr)) : SessionProg Task := do
  let engine ← guardedEngine
  let context ← context engine [] none status
  let resolved ← lift (engine.resolveEntry status context)
  let id ← perform .uuid7
  let createdAt ← perform .now
  let task ← lift (Task.fromInput id createdAt title description resolved priority)
  let snapshot ← lift task.snapshot
  let created ← newEvent (.taskCreated snapshot)
  let tagEvents ← createTags task title tags
  persist task (created :: tagEvents) title
  return task

/-- `legal_moves`. -/
def legalMoves (taskId : Uuid) : SessionProg (Task × List Transition) := do
  let engine ← activeEngine
  let task ← Repository.get taskId
  let moves ← lift (engine.legalMoves task.status)
  return (task, moves)

def replace (taskId : Uuid) (title : PyStr) (description status : Option PyStr) (priority : Int)
    (tags : Option (List PyStr)) (roles : List PyStr) : SessionProg Task := do
  let engine ← guardedEngine
  let task ← Repository.get taskId
  let target := status.getD engine.defaultEntry
  let context ← context engine roles (some task.status) (some target)
  lift (engine.checkMove task.status target context)
  let previous ← lift task.snapshot
  let tagEvent ← stageTags taskId (some (tags.getD []))
  let task ← lift (task.applyReplace title description target priority)
  perform (.setTask task)
  persistUpdate task previous (some engine) title tagEvent
  return task

/-- The move check of `patch`. -/
def checkPatch (engine : Option Engine) (task : Task) (status : Option PyStr)
    (roles : List PyStr) : SessionProg Unit := do
  match engine, status with
  | some engine, some target =>
    let context ← context engine roles (some task.status) (some target)
    lift (engine.checkMove task.status target context)
  | _, _ => return ()

/-- The definition is consulted only by a patch that names a status. -/
def patchEngine (fields : PatchFields) : SessionProg (Option Engine) := do
  if fields.status.isSome then
    let engine ← guardedEngine
    return some engine
  else return none

def patch (taskId : Uuid) (fields : PatchFields) (roles : List PyStr) : SessionProg Task := do
  if fields.isEmpty then throw (.app .emptyUpdate)
  let engine ← patchEngine fields
  let task ← Repository.get taskId
  checkPatch engine task fields.status roles
  let previous ← lift task.snapshot
  let tagEvent ← stageTags taskId fields.tags.join
  let task ← lift (task.applyPatch fields)
  perform (.setTask task)
  persistUpdate task previous engine (fields.title.getD task.title) tagEvent
  return task

def delete (taskId : Uuid) : SessionProg Unit := do
  let task ← Repository.get taskId
  let snapshot ← lift task.snapshot
  let event ← newEvent (.taskDeleted snapshot)
  Repository.remove task [event]

end TaskService.Tasks
