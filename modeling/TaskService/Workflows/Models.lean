import TaskService.Py.Json

/-!
# The value objects of a workflow definition

`State` and `Transition` carry what their constructors check (`__post_init__`): a non-blank
name, and metadata (`meta` in the source, a keyword here) that does not use a core field's key.
A constructor is a function into `Except`, the error being the text of the `ValueError`, so a
value with a blank name or a clashing key cannot be built.
-/

namespace TaskService

/-- The open content of a state or transition: the members that are not core fields. -/
abbrev Metadata := Dict PyStr Json

namespace Workflows

def reservedTransitionFields : List PyStr := [py "name", py "from", py "to"]

def reservedStateFields : List PyStr := [py "name", py "initial"]

def completesMetaKey : PyStr := py "completes"

def wipLimitMetaKey : PyStr := py "wip_limit"

def rolesMetaKey : PyStr := py "roles"

/-- `require_nonblank`: the text of the `ValueError` for a blank value. -/
def blankError (label : PyStr) : PyStr := label ++ py " cannot be empty"

/-- No key of the metadata is a core field (`_freeze_meta`). -/
def Unreserved (reserved : List PyStr) (metadata : Metadata) : Prop :=
  ∀ k ∈ reserved, k ∉ Dict.keys metadata

instance (reserved : List PyStr) (metadata : Metadata) : Decidable (Unreserved reserved metadata) :=
  inferInstanceAs (Decidable (∀ k ∈ reserved, k ∉ Dict.keys metadata))

/-- The text of `_freeze_meta`'s `ValueError`. -/
def clashError [Unicode] (reserved : List PyStr) (metadata : Metadata) : PyStr :=
  py "meta keys collide with core fields: "
    ++ reprList ((reserved.filter (· ∈ Dict.keys metadata)).insertionSort (· ≤ ·))

/-- A named state with properties. -/
@[ext] structure State where
  name : PyStr
  initial : Bool
  metadata : Metadata
  nonblank : ¬ Blank name
  unreserved : Unreserved reservedStateFields metadata

/-- A named, directed edge between two states. -/
@[ext] structure Transition where
  name : PyStr
  fromState : PyStr
  toState : PyStr
  metadata : Metadata
  nonblank : ¬ Blank name
  unreserved : Unreserved reservedTransitionFields metadata

abbrev StatePair := PyStr × PyStr

abbrev TransitionTable := Dict StatePair Transition

variable [Unicode]

/-- `State(name, initial=initial, meta=metadata)`. -/
def State.new (name : PyStr) (initial : Bool) (metadata : Metadata) : Except PyStr State :=
  if hn : Blank name then .error (blankError (py "State name"))
  else if hm : Unreserved reservedStateFields metadata then .ok ⟨name, initial, metadata, hn, hm⟩
  else .error (clashError reservedStateFields metadata)

/-- `Transition(name, from_state, to_state, metadata)`. -/
def Transition.new (name fromState toState : PyStr) (metadata : Metadata) :
    Except PyStr Transition :=
  if hn : Blank name then .error (blankError (py "Transition name"))
  else if hm : Unreserved reservedTransitionFields metadata then
    .ok ⟨name, fromState, toState, metadata, hn, hm⟩
  else .error (clashError reservedTransitionFields metadata)

/-- The constructor succeeds exactly on a non-blank name and unreserved metadata. -/
theorem State.new_eq_ok {name : PyStr} {initial : Bool} {metadata : Metadata} {s : State} :
    State.new name initial metadata = .ok s ↔
      s.name = name ∧ s.initial = initial ∧ s.metadata = metadata := by
  obtain ⟨n, i, m, hn, hm⟩ := s
  unfold State.new
  split
  next hb => simp only [reduceCtorEq, false_iff]; rintro ⟨rfl, -⟩; exact hn hb
  split
  · simp [eq_comm]
  next hc => simp only [reduceCtorEq, false_iff]; rintro ⟨-, -, rfl⟩; exact hc hm

theorem Transition.new_eq_ok {name fromState toState : PyStr} {metadata : Metadata}
    {t : Transition} :
    Transition.new name fromState toState metadata = .ok t ↔
      t.name = name ∧ t.fromState = fromState ∧ t.toState = toState ∧ t.metadata = metadata := by
  obtain ⟨n, f, o, m, hn, hm⟩ := t
  unfold Transition.new
  split
  next hb => simp only [reduceCtorEq, false_iff]; rintro ⟨rfl, -⟩; exact hn hb
  split
  · simp [eq_comm]
  next hc => simp only [reduceCtorEq, false_iff]; rintro ⟨-, -, -, rfl⟩; exact hc hm

end Workflows

end TaskService
