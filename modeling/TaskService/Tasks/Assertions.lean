import TaskService.Tasks.Raising

/-!
# The assertion in `_update_events`

`_update_events` asserts that there is an engine when the status has changed. A replacement always
has one. A patch has one when it names a status, and one that names none leaves the status alone.

* **`call_sparing`**: no call fails the assertion, whatever its session is answered.
-/

namespace TaskService.Tasks

open Store Workflows Prog Concurrency
open Interleaving (Answered answered_call)

/-- The computation does not end with the assertion. -/
def Spares {α : Type} (r : Except Exn α) : Prop := r ≠ .error .assertion

section Programs

variable {α β : Type} {J : α → Prop}

/-- Answered without an assertion, the program does not end with one, and returns as `J` says. -/
def Sparing (J : α → Prop) (p : SessionProg α) : Prop :=
  Answered (fun o (r : Except Exn (Res o)) => Spares r) (Outcome J (· ≠ .assertion)) p

/-- Neither checks nor operations fail the assertion. -/
theorem raises_spares : Raises (fun o (r : Except Exn (Res o)) => Spares r) (· ≠ .assertion) where
  check e he := by
    rintro rfl
    exact he
  op o e he := .inl fun heq => he (congrArg _ heq)
  title _ _ _ := by simp
  echo _ _ _ := by simp

theorem sparing_call (o : Op) : Sparing (fun _ => True) (perform o) := by
  refine answered_call fun r hr => ?_
  cases r with
  | ok a => trivial
  | error e => exact fun heq => hr (congrArg _ heq)

variable [Unicode]

omit [Unicode] in
theorem sparing_delete (taskId : Uuid) : Sparing (fun _ => True) (delete taskId) := by
  refine (raises_spares.get taskId).bind fun task _ => ?_
  refine (raises_spares.lift (checks_snapshot task)).bind fun snapshot _ => ?_
  refine (raises_spares.newEvent _).bind fun event _ => ?_
  exact Raising.bind (sparing_call _) fun _ _ =>
    (raises_spares.stageEvents _).bind fun _ _ => sparing_call _

theorem sparing_legalMoves (taskId : Uuid) : Sparing (fun _ => True) (legalMoves taskId) := by
  refine raises_spares.activeEngine.bind fun engine _ =>
    (raises_spares.get taskId).bind fun task _ => ?_
  exact (raises_spares.lift (checks_orValueError _)).bind fun moves _ => raising_return _

omit [Unicode] in
theorem sparing_deleteTag (tagId : Uuid) : Sparing (fun _ => True) (Tags.deleteTag tagId) := by
  refine Raising.bind (sparing_call _) fun answer _ => ?_
  cases answer with
  | none => exact raises_spares.throw trivial
  | some tag =>
    refine Raising.bind (sparing_call _) fun inUse _ => ?_
    by_cases hused : inUse ≠ 0
    · rw [if_pos hused]
      exact raises_spares.throw trivial
    · rw [if_neg hused]
      refine (raises_spares.newEvent _).bind fun event _ =>
        Raising.bind (sparing_call _) fun _ _ => ?_
      exact (raises_spares.stageEvents _).bind fun _ _ => sparing_call _

omit [Unicode] in
theorem sparing_storeDefinition (w : Workflow) {makeEvents : Nat → SessionProg (List Event)}
    (h : ∀ version, Sparing (fun _ => True) (makeEvents version)) :
    Sparing (fun _ => True) (Workflows.Repository.replaceActive w makeEvents) := by
  refine Raising.bind (sparing_call _) fun highest _ =>
    Raising.bind (sparing_call _) fun createdAt _ => ?_
  refine Raising.bind (sparing_call _) fun _ _ => Raising.bind (h _) fun events _ => ?_
  refine (raises_spares.stageEvents events).bind fun _ _ =>
    Raising.bind (sparing_call _) fun _ _ => ?_
  exact raising_return _

theorem sparing_replaceActive (document : Json) :
    Sparing (fun _ => True) (Workflows.replaceActive document) := by
  refine (raises_spares.lift (checks_parseOrRaise document)).bind fun w _ => ?_
  refine Raising.bind (sparing_call _) fun _ _ => Raising.bind (sparing_call _) fun counts _ => ?_
  dsimp only
  split
  · exact raises_spares.throw trivial
  · exact sparing_storeDefinition w fun version =>
      (raises_spares.newEvent _).bind fun event _ => raising_return _

theorem sparing_seed : Sparing (fun _ => True) seedWorkflowIfMissing := by
  refine Raising.bind (sparing_call _) fun _ _ => Raising.bind (sparing_call _) fun stored _ => ?_
  split
  · exact raising_return _
  · refine (raises_spares.lift (checks_orValueError _)).bind fun w _ => ?_
    exact Raising.bind (sparing_storeDefinition w fun _ => raising_return _)
      fun _ _ => raising_return _

/-- **No call fails the assertion.** -/
theorem call_sparing (call : Call) : Sparing (fun _ => True) call.program := by
  cases call with
  | create title description status priority tags =>
    exact (raises_spares.create title description status priority tags).bind fun _ _ =>
      raising_return _
  | replace taskId title description status priority tags roles =>
    refine (raises_spares.replace taskId title description status priority tags roles).bind ?_
    exact fun _ _ => raising_return _
  | patch taskId fields roles =>
    exact (raises_spares.patch taskId fields roles).bind fun _ _ => raising_return _
  | delete taskId => exact Raising.bind (sparing_delete taskId) fun _ _ => raising_return _
  | legalMoves taskId => exact Raising.bind (sparing_legalMoves taskId) fun _ _ => raising_return _
  | deleteTag tagId => exact Raising.bind (sparing_deleteTag tagId) fun _ _ => raising_return _
  | replaceActive document =>
    exact Raising.bind (sparing_replaceActive document) fun _ _ => raising_return _
  | seed => exact Raising.bind sparing_seed fun _ _ => raising_return _

end Programs

end TaskService.Tasks
