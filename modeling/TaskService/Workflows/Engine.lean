import TaskService.Core.Errors
import TaskService.Workflows.Definition

/-!
# The workflow engine

One engine wraps one `Workflow` and applies its rules to status decisions. A decision is a
function into `Except Exn`, the exceptions in the order the source raises them: an unknown
status first, then legality, then the role guard, then the WIP limit.
-/

namespace TaskService.Workflows

/-- The runtime facts guards need. -/
structure TransitionContext where
  roles : List PyStr
  occupancy : Dict PyStr Nat

/-- `WorkflowEngine`. -/
structure Engine where
  workflow : Workflow

/-- A `ValueError` text as an exception. -/
def orValueError {α : Type} (x : Except PyStr α) : Except Exn α := x.mapError .valueError

def sorted (names : List PyStr) : List PyStr := names.insertionSort (· ≤ ·)

namespace Engine

variable (engine : Engine)

def defaultEntry : PyStr := engine.workflow.defaultEntry

/-- `needs_occupancy`: whether the write enters a state that declares a `wip_limit`. -/
def needsOccupancy (fromStatus toStatus : Option PyStr) : Bool :=
  let target := toStatus.getD engine.defaultEntry
  if some target = fromStatus ∨ target ∉ engine.workflow.stateNames then false
  else match engine.workflow.find? target with
    | some s => wipLimitMetaKey ∈ Dict.keys s.metadata
    | none => false

/-- `_require_known`. -/
def requireKnown (status : PyStr) : Except Exn Unit :=
  if status ∈ engine.workflow.stateNames then .ok ()
  else .error (.app (.unknownStatus status engine.workflow.stateNames))

/-- `_entry_state`: the state a create lands in, or the reason it cannot. -/
def entryState (status : Option PyStr) : Except Exn PyStr :=
  match status with
  | none => .ok engine.defaultEntry
  | some status => do
    engine.requireKnown status
    let entries := engine.workflow.entryStates
    if status ∉ entries then throw (.app (.invalidTransition none status entries))
    return status

/-- The roles a guard lists, as iterating over its value yields them: the items of a list, the
characters of a string, the keys of an object. The document boundary admits lists of strings only. A
list with another item ends in a `TypeError` here, where Python first compares the items with the
roles of the actor one by one, and can end before it or sort what is left. -/
def roleNames : Json → Except Exn (List PyStr)
  | .list items => items.mapM fun
    | .str role => .ok role
    | _ => .error .typeError
  | .str text => .ok (text.map fun c => [c])
  | .dict members => .ok (Dict.keys members)
  | _ => .error .typeError

/-- `_check_role`: the actor must hold one of the roles the transition lists, if it lists any. -/
def checkRole (transition : Transition) (context : TransitionContext) : Except Exn Unit :=
  match Dict.get? transition.metadata rolesMetaKey with
  | none => .ok ()
  | some required =>
    if required.truthy then do
      let required ← roleNames required
      if ∀ role ∈ context.roles, role ∉ required then
        throw (.app (.transitionForbidden transition.name (sorted required) (sorted context.roles)))
    else .ok ()

/-- `current >= limit` on the `wip_limit` value; booleans count as the integers they are. The
document boundary admits non-negative integers only. A float ends in a `TypeError` here, where
Python compares it with the count. -/
def atLimit (current : Nat) : Json → Except Exn (Option Int)
  | .null => .ok none
  | .int limit => .ok (if limit ≤ current then some limit else none)
  | .bool b => .ok (if b.toNat ≤ current then some b.toNat else none)
  | _ => .error .typeError

theorem entryState_mem {status : Option PyStr} {resolved : PyStr}
    (h : engine.entryState status = .ok resolved) : resolved ∈ engine.workflow.stateNames := by
  cases status with
  | none =>
    have heq : engine.defaultEntry = resolved := by simpa [entryState] using h
    exact heq ▸ engine.workflow.defaultEntry_mem_stateNames
  | some s =>
    by_cases hs : s ∈ engine.workflow.entryStates
    · have hk : s ∈ engine.workflow.stateNames := engine.workflow.entryStates_subset hs
      have heq : s = resolved := by
        simpa [entryState, requireKnown, hk, hs, bind, Except.bind, pure, Except.pure] using h
      exact heq ▸ hk
    · by_cases hk : s ∈ engine.workflow.stateNames <;>
        simp [entryState, requireKnown, hk, hs, bind, Except.bind, throw, throwThe,
          MonadExceptOf.throw] at h

variable [Unicode]

/-- `_check_wip`: refuse entry to a state that is already full. -/
def checkWip (state : PyStr) (context : TransitionContext) : Except Exn Unit := do
  let s ← orValueError (engine.workflow.state state)
  match Dict.get? s.metadata wipLimitMetaKey with
  | none => return ()
  | some limit =>
    let current := (Dict.get? context.occupancy state).getD 0
    match ← atLimit current limit with
    | none => return ()
    | some limit => throw (.app (.wipLimitExceeded state limit current))

/-- The create-time status: a create enters a state, so it is WIP-checked, but it is not a
transition, so no role guard applies. -/
def resolveEntry (status : Option PyStr) (context : TransitionContext) : Except Exn PyStr := do
  let resolved ← engine.entryState status
  engine.checkWip resolved context
  return resolved

/-- Raise unless `from_status -> to_status` is legal and permitted. A same-state write is no move:
neither guard applies. -/
def checkMove (fromStatus toStatus : PyStr) (context : TransitionContext) : Except Exn Unit := do
  engine.requireKnown toStatus
  if toStatus = fromStatus then return ()
  match ← orValueError (engine.workflow.transitionBetween fromStatus toStatus) with
  | none =>
    let allowed ← orValueError (engine.workflow.movesFrom fromStatus)
    throw (.app (.invalidTransition (some fromStatus) toStatus (sorted allowed)))
  | some transition =>
    checkRole transition context
    engine.checkWip toStatus context

/-- Whether entering `status` marks completion. -/
def completes (status : PyStr) : Except Exn Bool := do
  let s ← orValueError (engine.workflow.state status)
  return ((Dict.get? s.metadata completesMetaKey).map Json.truthy).getD false

/-- Transitions leaving `status`. -/
def legalMoves (status : PyStr) : Except Exn (List Transition) :=
  orValueError (engine.workflow.transitionsFrom status)

/-! ## What a decision that succeeds says -/

/-- The state a create lands in is decided before the limit is looked at. -/
theorem entryState_of_resolveEntry {status : Option PyStr} {context : TransitionContext}
    {resolved : PyStr} (h : engine.resolveEntry status context = .ok resolved) :
    engine.entryState status = .ok resolved := by
  cases he : engine.entryState status with
  | error e => simp [resolveEntry, he, bind, Except.bind] at h
  | ok s =>
    cases hw : engine.checkWip s context with
    | error e => simp [resolveEntry, he, hw, bind, Except.bind] at h
    | ok u => simpa [resolveEntry, he, hw, bind, Except.bind, pure, Except.pure] using h

/-- A create lands in a state of the workflow. -/
theorem resolveEntry_mem {status : Option PyStr} {context : TransitionContext} {resolved : PyStr}
    (h : engine.resolveEntry status context = .ok resolved) :
    resolved ∈ engine.workflow.stateNames :=
  engine.entryState_mem (engine.entryState_of_resolveEntry h)

/-- **A move that passes is legal**: its target is a state, and it is a no-move or the table
holds its pair. -/
theorem checkMove_legal {a b : PyStr} {context : TransitionContext}
    (h : engine.checkMove a b context = .ok ()) :
    b ∈ engine.workflow.stateNames
      ∧ (b = a ∨ (a, b) ∈ Dict.keys engine.workflow.transitions) := by
  by_cases hb : b ∈ engine.workflow.stateNames
  · refine ⟨hb, ?_⟩
    by_cases hab : b = a
    · exact .inl hab
    · right
      by_cases ha : a ∈ engine.workflow.stateNames
      · cases ht : Dict.get? engine.workflow.transitions (a, b) with
        | some t => exact Dict.mem_keys_of_mem (Dict.mem_of_get? ht)
        | none =>
          -- no transition: the check raises, whatever `allowed` lists
          simp [checkMove, requireKnown, hb, hab, orValueError,
            engine.workflow.transitionBetween_of_mem ha hb, ht, Workflow.movesFrom,
            engine.workflow.transitionsFrom_of_mem ha, bind, Except.bind, pure, Except.pure,
            Except.mapError, throw, throwThe, MonadExceptOf.throw] at h
      · have hstate : ∃ e, engine.workflow.state a = .error e := by
          have hn : engine.workflow.find? a = none := by
            rw [← Option.not_isSome_iff_eq_none, Workflow.find?_isSome_iff]
            exact ha
          exact ⟨_, by simp only [Workflow.state, hn]; rfl⟩
        obtain ⟨e, he⟩ := hstate
        simp [checkMove, requireKnown, hb, hab, orValueError, Workflow.transitionBetween,
          Workflow.requireState, he, bind, Except.bind, Except.mapError] at h
  · simp [checkMove, requireKnown, hb, bind, Except.bind] at h

end Engine

end TaskService.Workflows
