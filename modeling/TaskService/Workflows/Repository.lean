import TaskService.Core.Staging
import TaskService.Workflows.Engine
import TaskService.Workflows.Serialization

/-!
# The workflow repository, service and seed

`workflows/infrastructure/repository.py`, `application/service.py` and `infrastructure/seed.py`.
-/

namespace TaskService.Workflows

open Store
open Prog (lift)

/-- What `get_active` and `replace_active` return. -/
structure StoredWorkflow where
  workflow : Workflow
  document : Json
  version : Nat
  createdAt : Time

/-- `acquire_workflow_guard`. -/
def acquireWorkflowGuard (shared : Bool) : SessionProg Unit :=
  perform (.acquireGuard (if shared then .shared else .exclusive))

variable [Unicode]

/-- `workflow_from_document`, raising. -/
def parseOrRaise (document : Json) : Except Exn Workflow :=
  (workflowFromDocument document).mapError fun problems => .app (.workflowValidation problems)

namespace Repository

/-- `get_active`: the definition of the highest version, parsed again. -/
def getActive : SessionProg StoredWorkflow := do
  match ← perform .selectActive with
  | none => throw (.app .noActiveWorkflow)
  | some record =>
    let workflow ← lift (parseOrRaise record.document)
    return { workflow, document := record.document, version := record.version,
             createdAt := record.createdAt }

/-- `replace_active`: insert the next version and commit it with the events made for it. -/
def replaceActive (workflow : Workflow) (makeEvents : Nat → SessionProg (List Event)) :
    SessionProg StoredWorkflow := do
  let highest ← perform .selectMaxVersion
  let version := highest.getD 0 + 1
  let document := workflowToDocument workflow
  let createdAt ← perform .now
  perform (.add (.workflow { version, document, createdAt }))
  let events ← makeEvents version
  stageEvents events
  perform .commit
  return { workflow, document, version, createdAt }

end Repository

/-- `WorkflowService.replace_active`. -/
def replaceActive (document : Json) : SessionProg StoredWorkflow := do
  let workflow ← lift (parseOrRaise document)
  acquireWorkflowGuard false
  let counts ← perform .countByStatus
  let stranded := counts.filter fun kv => kv.1 ∉ workflow.stateNames
  if stranded ≠ [] then throw (.app (.workflowStatesInUse stranded))
  Repository.replaceActive workflow fun version => do
    let event ← newEvent (.workflowUpdated version workflow.stateNames)
    return [event]

/-! ## The seed -/

/-- `default_workflow`: three states, any to any. -/
def defaultWorkflow : Except PyStr Workflow := do
  let new ← State.new (py "new") true []
  let inProgress ← State.new (py "in_progress") true []
  let completed ← State.new (py "completed") true [(completesMetaKey, .bool true)]
  let w ← Workflow.new [new, inProgress, completed] [] List.nodup_nil
  let w ← w.allowTransition (py "Start work") (py "new") (py "in_progress") []
  let w ← w.allowTransition (py "Complete") (py "new") (py "completed") []
  let w ← w.allowTransition (py "Complete") (py "in_progress") (py "completed") []
  let w ← w.allowTransition (py "Send back") (py "in_progress") (py "new") []
  let w ← w.allowTransition (py "Reopen") (py "completed") (py "new") []
  w.allowTransition (py "Resume") (py "completed") (py "in_progress") []

/-- `seed_workflow_if_missing`. -/
def seedWorkflowIfMissing : SessionProg Unit := do
  acquireWorkflowGuard false
  if ← perform .selectDefinitionId then return ()
  let workflow ← lift (orValueError defaultWorkflow)
  let _ ← Repository.replaceActive workflow fun _ => return []

end TaskService.Workflows
