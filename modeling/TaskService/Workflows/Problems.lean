import TaskService.Py.Text

/-!
# The problems a definition document can have

Each place where `serialization.py` appends or raises a text is one constructor here, with the
data the text is built from; `Problem.text` is that text. A `WorkflowValidationError` carries
the texts of a list of problems.
-/

namespace TaskService.Workflows

/-- What is wrong with one entry of `states`. -/
inductive StateProblem where
  | initialNotBoolean
  | wipLimit
  | nameMissing
  | wrongShape (typeName : PyStr)
  | duplicate (name : PyStr)
  | invalid (message : PyStr)
  deriving DecidableEq

/-- What is wrong with one entry of `transitions`. -/
inductive TransitionProblem where
  | missing (fields : List PyStr)
  | notStrings (fields : List PyStr)
  | wrongShape (typeName : PyStr)
  | blankName
  | unknownState (field value : PyStr)
  | duplicate (fromState toState : PyStr)
  | roles
  | invalid (message : PyStr)
  deriving DecidableEq

inductive Problem where
  | notAnObject
  | notAList (key : PyStr)
  | unknownKey (key : PyStr)
  | nul (path : PyStr)
  | noStates
  | state (i : Nat) (problem : StateProblem)
  | transition (i : Nat) (problem : TransitionProblem)
  | rule (message : PyStr)
  | unreachable (state : PyStr) (entries : List PyStr)
  deriving DecidableEq

variable [Unicode]

def StateProblem.text : StateProblem → PyStr
  | .initialNotBoolean => py "'initial' must be a boolean"
  | .wipLimit => py "'wip_limit' must be a non-negative integer"
  | .nameMissing => py "object form requires a non-empty string 'name'"
  | .wrongShape typeName => py "must be a string or an object, got " ++ typeName
  | .duplicate name => py "duplicate state " ++ repr name
  | .invalid message => message

def TransitionProblem.text : TransitionProblem → PyStr
  | .missing fields => py "missing field(s) " ++ join (py ", ") (fields.map repr)
  | .notStrings fields =>
    py "field(s) " ++ join (py ", ") (fields.map repr) ++ py " must be strings"
  | .wrongShape typeName => py "must be an object, got " ++ typeName
  | .blankName => py "'name' cannot be empty"
  | .unknownState field value => repr field ++ py " references unknown state " ++ repr value
  | .duplicate fromState toState =>
    py "duplicate transition " ++ fromState ++ py " -> " ++ toState
  | .roles => py "'roles' must be a non-empty list of non-empty strings"
  | .invalid message => message

def Problem.text : Problem → PyStr
  | .notAnObject => py "document must be a JSON object"
  | .notAList key => py "'" ++ key ++ py "' must be a list"
  | .unknownKey key => py "unknown top-level key: " ++ repr key
  | .nul path => path ++ py ": strings may not contain NUL (0x00) characters"
  | .noStates => py "'states' must contain at least one state"
  | .state i problem => py "states[" ++ decimal i ++ py "]: " ++ problem.text
  | .transition i problem => py "transitions[" ++ decimal i ++ py "]: " ++ problem.text
  | .rule message => message
  | .unreachable name entries =>
    py "state " ++ repr name ++ py " is unreachable from entry states " ++ reprList entries

end TaskService.Workflows
