import TaskService.Tasks.Service

/-!
# What the task service issues and raises

The parts of the use cases between the guard and the commit: they draw, read, and stage tags and
links, and they raise what their pure checks raise. What such a part returns is said here once, for
every way of running it.

* **`updateEvents_straight`**: the events of an update are exactly those of `updateBodies`.
-/

namespace TaskService.Tasks

open Store Workflows Prog

theorem context_straight (engine : Engine) (roles : List PyStr)
    (fromStatus toStatus : Option PyStr) :
    Straight Op.Quiet (Outcome (fun _ => True) fun _ => False)
      (context engine roles fromStatus toStatus) := by
  unfold context
  split
  · exact ⟨trivial, fun _ => trivial, fun _ => rfl⟩
  · trivial

theorem completes_error [Unicode] {engine : Engine} {status : PyStr} {e : Exn}
    (h : engine.completes status = .error e) : ∃ message, e = .valueError message := by
  unfold Engine.completes at h
  cases hs : engine.workflow.state status with
  | ok s =>
    rw [hs] at h
    cases h
  | error message =>
    rw [hs] at h
    exact ⟨message, (Except.error.inj h).symm⟩

/-! ## The events of an update -/

/-- What `_update_events` makes of a change: nothing, or the update, the change of status if there
is one, and the completion if the state entered marks one. -/
def updateBodies (updated previous : Task) (completes : Bool) : List EventBody :=
  if updated.changedFields previous = [] then []
  else .taskUpdated updated previous (updated.changedFields previous) ::
    if updated.status = previous.status then []
    else .taskStatusChanged updated previous.status updated.status ::
      if completes then [.taskCompleted updated] else []

/-- The events are those of the change, and the definition told whether it completes the task. -/
def UpdateEvents [Unicode] (updated previous : Task) (engine : Option Engine)
    (events : List Event) : Prop :=
  ∃ completes, events.map Event.body = updateBodies updated previous completes
    ∧ (updated.changedFields previous ≠ [] → updated.Valid)
    ∧ (updated.status ≠ previous.status →
        ∃ e, engine = some e ∧ e.completes updated.status = .ok completes)

variable [Unicode]

/-- The `assert` fails only for a change of status without a definition. -/
def UpdateError (updated previous : Task) (engine : Option Engine) (e : Exn) : Prop :=
  (∀ a, e ≠ .app a) ∧ (∀ d, e ≠ .db d)
    ∧ (e = .assertion → engine = none ∧ updated.status ≠ previous.status)

theorem statusEvents_straight {updated previous : Task} {engine : Option Engine}
    (hstatus : updated.status ≠ previous.status) :
    Straight Op.Draw (Outcome (fun events => ∃ e completes, engine = some e
        ∧ e.completes updated.status = .ok completes
        ∧ events.map Event.body = .taskStatusChanged updated previous.status updated.status ::
            if completes then [.taskCompleted updated] else [])
      (UpdateError updated previous engine)) (statusEvents updated previous engine) := by
  cases engine with
  | none => exact ⟨by simp, by simp, fun _ => ⟨rfl, hstatus⟩⟩
  | some engine =>
    refine (newEvent_straight _).mono (fun o h => h) (fun _ h => h) |>.bind
      (fun changed hchanged => ?_)
      fun _ h => h.elim
    have hlift : Straight Op.Draw (Outcome (fun b => engine.completes updated.status = .ok b)
        (UpdateError updated previous (some engine)))
        (lift (engine.completes updated.status) : SessionProg Bool) := by
      refine straight_lift ?_
      cases h : engine.completes updated.status with
      | ok b => exact rfl
      | error e =>
        obtain ⟨message, rfl⟩ := completes_error h
        exact ⟨by simp, by simp, by simp⟩
    refine hlift.bind (fun completes hcompletes => ?_) fun _ h => h
    cases completes with
    | true =>
      refine (newEvent_straight _).bind (fun completed hcompleted => ?_) fun _ h => h.elim
      exact ⟨engine, true, rfl, hcompletes, by
        rw [List.map_cons, List.map_cons, hchanged, hcompleted]; rfl⟩
    | false => exact ⟨engine, false, rfl, hcompletes, by rw [List.map_cons, hchanged]; rfl⟩

/-- **The events of an update are exactly those of its change.** -/
theorem updateEvents_straight (updated previous : Task) (engine : Option Engine) :
    Straight Op.Draw (Outcome (UpdateEvents updated previous engine)
      (UpdateError updated previous engine)) (updateEvents updated previous engine) := by
  unfold updateEvents
  by_cases hnone : updated.changedFields previous = []
  · rw [if_pos hnone]
    have hsame := (Task.changedFields_eq_nil_iff.1 hnone).2.2.1
    exact ⟨false, by rw [updateBodies, if_pos hnone]; rfl, fun h => absurd hnone h,
      fun h => absurd hsame h⟩
  rw [if_neg hnone]
  -- The event carries a snapshot of the new task, which is made only of a valid one.
  have hsnapshot : Straight Op.Draw (Outcome (fun t => updated.Valid ∧ t = updated)
      (UpdateError updated previous engine)) (lift updated.snapshot : SessionProg Task) := by
    refine straight_lift ?_
    cases h : updated.snapshot with
    | ok t => exact Task.snapshot_eq_ok.1 h
    | error e =>
      unfold Task.snapshot at h
      split at h
      · cases h
      · obtain rfl := Except.error.inj h
        exact ⟨by simp, by simp, by simp⟩
  refine hsnapshot.bind (fun snapshot hs => ?_) fun _ h => h
  obtain ⟨hvalid, rfl⟩ := hs
  refine (newEvent_straight _).bind (fun event hevent => ?_) fun _ h => h.elim
  by_cases hstatus : snapshot.status = previous.status
  · rw [if_pos fun h => Task.status_mem_changedFields.1 h hstatus]
    refine ⟨false, ?_, fun _ => hvalid, fun h => absurd hstatus h⟩
    rw [updateBodies, if_neg hnone, if_pos hstatus, List.map_cons, hevent, List.map_nil]
  · rw [if_neg fun h => h (Task.status_mem_changedFields.2 hstatus)]
    refine (statusEvents_straight hstatus).bind (fun events hevents => ?_) fun _ h => h
    obtain ⟨e, completes, rfl, hcompletes, hbodies⟩ := hevents
    refine ⟨completes, ?_, fun _ => hvalid, fun _ => ⟨e, rfl, hcompletes⟩⟩
    rw [updateBodies, if_neg hnone, if_neg hstatus, List.map_cons, hevent, hbodies]

/-! ## Tags -/

/-- What `_stage_tags` returns: an event on the task's tags, if any. -/
def TagEvent (taskId : Uuid) (event : Option Event) : Prop :=
  ∀ e ∈ event, ∃ tags added removed, e.body = .taskTagsChanged taskId tags added removed

theorem stageTags_straight (taskId : Uuid) (names : Option (List PyStr)) :
    Straight Op.Quiet (Outcome (TagEvent taskId) fun e => e = Tags.Tag.blankName)
      (stageTags taskId names) := by
  cases names with
  | none => exact fun e he => (nomatch he)
  | some names =>
    refine (Tags.namesForTask_straight taskId).bind (fun before _ => ?_) fun _ h => h.elim
    refine (Tags.resolve_straight names).bind (fun resolved _ => ?_) fun _ h => h
    dsimp only
    split
    · exact fun e he => (nomatch he)
    · refine (Tags.setForTask_straight taskId _).bind (fun _ _ => ?_) fun _ h => h.elim
      refine ((newEvent_straight _).mono (fun _ h => h.quiet) fun _ h => h).bind
        (fun event hevent => ?_) fun _ h => h.elim
      rintro e he
      obtain rfl := Option.some.inj he
      exact ⟨_, _, _, hevent⟩

end TaskService.Tasks
