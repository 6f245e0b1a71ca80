import TaskService.Lib.Dict
import TaskService.Workflows.Problems

/-!
# Exceptions

`AppError` is the hierarchy of `core/errors.py` and the feature `errors.py` files, each error
with the `details` it carries: these become the standard envelope. Every other exception escapes
as a 500: a database error SQLAlchemy raises, a `ValueError` or `TypeError` of the domain code, a
pydantic `ValidationError` of a snapshot, a failed `assert`.
-/

namespace TaskService

/-- A `uuid.UUID`; only equality and the order of generation matter. -/
abbrev Uuid := Nat

/-- An instant, as its distance from some origin. -/
abbrev Time := Nat

/-- The application errors, with their `details`. -/
inductive AppError where
  | duplicateTask (title : PyStr)
  | taskNotFound (id : Uuid)
  | emptyUpdate
  /-- `from` is `None` on a create -/
  | invalidTransition (fromStatus : Option PyStr) (toStatus : PyStr) (allowed : List PyStr)
  | unknownStatus (value : PyStr) (knownStates : List PyStr)
  | transitionForbidden (transition : PyStr) (requiredRoles actorRoles : List PyStr)
  | wipLimitExceeded (state : PyStr) (limit : Int) (current : Nat)
  | workflowValidation (errors : List Workflows.Problem)
  | workflowStatesInUse (states : Dict PyStr Nat)
  | noActiveWorkflow
  | tagNotFound (id : Uuid)
  | tagInUse (id : Uuid) (name : PyStr) (taskCount : Nat)
  deriving DecidableEq

/-- What the database refuses a statement for. -/
inductive DbError where
  /-- `IntegrityError`, with the name of the violated constraint -/
  | integrity (constraint : PyStr)
  /-- a value the column type cannot hold -/
  | data
  /-- an UPDATE that matched no row (`StaleDataError`) -/
  | stale
  deriving DecidableEq

/-- Everything a service call can raise. -/
inductive Exn where
  | app (e : AppError)
  | db (e : DbError)
  | valueError (message : PyStr)
  | typeError
  | snapshotInvalid
  | assertion
  deriving DecidableEq

end TaskService
