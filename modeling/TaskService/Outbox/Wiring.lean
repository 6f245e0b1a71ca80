import TaskService.Core.Payloads
import TaskService.Outbox.Deployment
import TaskService.Outbox.Failures

/-!
# How the service is wired

`EventBus` and what `lifespan` makes of it and of `EVENT_REGISTRY`: the relays rebuild the event of
a row by its class and its stored payload, and give it to the listener of its feature, which logs
it.

* **`registry_serviceWiring`**: every event is rebuilt.
* **`failed_only_by_listeners`**: an attempt fails only when a listener raises.
-/

namespace TaskService.Outbox

open Store Concurrency

/-! ## The bus -/

section Bus

variable {H : Type}

/-- `EventBus.subscribe`. -/
def subscribe (bus : Dict EventType (List H)) (type : EventType) (handler : H) :
    Dict EventType (List H) :=
  Dict.set bus type ((Dict.get? bus type).getD [] ++ [handler])

/-- `register_listeners` of a feature. -/
def registerListeners (types : List EventType) (handler : H) (bus : Dict EventType (List H)) :
    Dict EventType (List H) :=
  types.foldl (fun bus type => subscribe bus type handler) bus

end Bus

/-- The `log_event` of each feature. -/
inductive Listener where
  | tasks
  | workflows
  | tags
  deriving DecidableEq

/-- The bus of `lifespan`. -/
def eventBus : Dict EventType (List Listener) :=
  registerListeners tagEventTypes .tags
    (registerListeners workflowEventTypes .workflows (registerListeners taskEventTypes .tasks []))

/-- The listener of a class. -/
def listenerOf : EventType → Listener
  | .taskCreated | .taskUpdated | .taskStatusChanged | .taskCompleted | .taskDeleted => .tasks
  | .workflowUpdated => .workflows
  | .taskTagsChanged | .tagDeleted => .tags

/-- **Every class has one listener.** -/
theorem get?_eventBus (type : EventType) : Dict.get? eventBus type = some [listenerOf type] := by
  cases type <;> decide

/-! ## The wiring -/

section Wired

variable [Jsonb] (newId : Uuid) (now : Time) (invalid : PyStr)

/-- The wiring of `lifespan`; `invalid` is the text of a `ValidationError`. -/
def serviceWiring : Wiring Event RebuiltEvent Listener where
  eventType e := e.body.type.name
  registry e :=
    match (Dict.get? eventRegistry e.body.type.name).bind fun type =>
      modelValidate newId now type (Jsonb.store e.payload) with
    | some event => .ok event
    | none => .error invalid
  listeners event := (Dict.get? eventBus event.body.type).getD []

variable {newId now invalid} {e : Event}

omit [Jsonb] in
theorem rebuilt_type (body : EventBody) : body.rebuilt.type = body.type := by
  cases body <;> rfl

/-- **Every event is rebuilt.** -/
theorem registry_serviceWiring (h : e.Representable) :
    (serviceWiring newId now invalid).registry e = .ok e.rebuilt := by
  show (match (Dict.get? eventRegistry e.body.type.name).bind fun type =>
      modelValidate newId now type (Jsonb.store e.payload) with
    | some event => Except.ok event
    | none => .error invalid) = _
  rw [get?_eventRegistry, Option.bind_some, modelValidate_payload h]

/-- **An attempt does what the listener of the class does.** -/
theorem completes_serviceWiring {row : OutboxRecord Event} (h : row.event.Representable)
    (trial : Trial Listener) : completes (serviceWiring newId now invalid) (row, trial)
      = (trial.raises (listenerOf row.event.body.type)).isNone := by
  have hlisteners : (serviceWiring newId now invalid).listeners row.event.rebuilt
      = [listenerOf row.event.body.type] := by
    show (Dict.get? eventBus row.event.body.rebuilt.type).getD [] = _
    rw [rebuilt_type, get?_eventBus, Option.getD_some]
  have hattempt : attempt (serviceWiring newId now invalid) trial.raises row
      = dispatch trial.raises [listenerOf row.event.body.type] := by
    rw [attempt, registry_serviceWiring h]
    show dispatch trial.raises ((serviceWiring newId now invalid).listeners row.event.rebuilt) = _
    rw [hlisteners]
  rw [completes, hattempt]
  unfold dispatch
  cases trial.raises (listenerOf row.event.body.type) <;> rfl

end Wired

section Deployed

variable [Unicode] [Jsonb] [Runtime] {newId : Uuid} {now : Time} {invalid : PyStr}
  {d : Deployment Listener}

/-- What is attempted was committed. -/
theorem exists_committed (h : Deployment.Reachable (serviceWiring newId now invalid) d)
    {a : OutboxRecord Event × Trial Listener} (ha : a ∈ d.2.attempts) :
    ∃ committed ∈ d.1.shared.db.outbox, committed.id = a.1.id ∧ committed.event = a.1.event := by
  obtain ⟨-, hrelays, hstaged⟩ := h.joined
  obtain ⟨committed, hcommitted, hid, hevent, -⟩ := hrelays.sourced.attempts a ha
  exact ⟨committed, hstaged ▸ hcommitted, hid, hevent⟩

/-- **An attempt fails only when a listener raises.** In every run of the service and its relays:
every attempt hands the listener of the class the event that was committed, and fails only if it
raises; no row has more retries than attempts in which it did; and if it never does, no row is ever
retried or dead-lettered. -/
theorem failed_only_by_listeners (h : Deployment.Reachable (serviceWiring newId now invalid) d)
    (htyped : ∀ committed ∈ d.1.shared.db.outbox, committed.event.Representable) :
    (∀ a ∈ d.2.attempts, ∃ committed ∈ d.1.shared.db.outbox, committed.id = a.1.id
        ∧ (serviceWiring newId now invalid).registry a.1.event = .ok committed.event.rebuilt
        ∧ completes (serviceWiring newId now invalid) a
          = (a.2.raises (listenerOf committed.event.body.type)).isNone)
      ∧ (∀ row ∈ d.2.table.rows, row.retryCount ≤ d.2.attempts.countP fun a =>
          a.1.id = row.id && (a.2.raises (listenerOf a.1.event.body.type)).isSome)
      ∧ ((∀ a ∈ d.2.attempts, a.2.raises (listenerOf a.1.event.body.type) = none) →
        ∀ row ∈ d.2.table.rows, row.retryCount = 0 ∧ row.deadLetteredAt = none) := by
  have hrepresentable : ∀ a ∈ d.2.attempts, a.1.event.Representable := fun a ha => by
    obtain ⟨committed, hcommitted, -, hevent⟩ := exists_committed h ha
    exact hevent ▸ htyped committed hcommitted
  have haccounted := h.joined.relays.accounted.rows
  have hcount : ∀ row ∈ d.2.table.rows, row.retryCount ≤ d.2.attempts.countP fun a =>
      a.1.id = row.id && (a.2.raises (listenerOf a.1.event.body.type)).isSome := fun row hrow => by
    refine (haccounted row hrow).counted.trans (Nat.le_of_eq (List.countP_congr fun a ha => ?_))
    rw [show a = (a.1, a.2) from rfl, completes_serviceWiring (hrepresentable a ha),
      Option.not_isNone]
  refine ⟨fun a ha => ?_, hcount, fun hquiet row hrow => ?_⟩
  · obtain ⟨committed, hcommitted, hid, hevent⟩ := exists_committed h ha
    refine ⟨committed, hcommitted, hid, ?_, ?_⟩
    · rw [← hevent]
      exact registry_serviceWiring (htyped committed hcommitted)
    · rw [hevent]
      exact completes_serviceWiring (hrepresentable a ha) a.2
  · have hnone : (d.2.attempts.countP fun a =>
        a.1.id = row.id && (a.2.raises (listenerOf a.1.event.body.type)).isSome) = 0 :=
      List.countP_eq_zero.2 fun a ha => by simp [hquiet a ha]
    have hzero : row.retryCount = 0 := Nat.le_zero.1 (hnone ▸ hcount row hrow)
    refine ⟨hzero, ?_⟩
    by_contra hdead
    have := ((haccounted row hrow).dead hdead).1
    omega

end Deployed

section Schedule

open Plain

/-- A definition is installed and a task created. The listener of workflows raises, that of tasks
completes, and the poll commits; in a second poll both complete. -/
def listeningRun : List (Interleaving.Action Call ⊕ Action Event Listener) :=
  createdRun.map .inl
    ++ [.inr (.poll 100 300),
      .inr (.attempt 0 ⟨fun l => if l = .workflows then some (py "down") else none,
        fun _ => none, 9⟩),
      .inr (.attempt 0 ⟨fun _ => none, fun _ => none, 10⟩), .inr (.commit 0),
      .inr (.poll 100 300), .inr (.attempt 0 ⟨fun _ => none, fun _ => none, 11⟩), .inr (.commit 0)]

/-- The event of the workflow has one retry, and its listener has raised once. -/
theorem failed_only_by_listeners_created : ∃ d : Deployment Listener,
    Deployment.Reachable (serviceWiring 0 0 []) d ∧ d.1.shared.db.outbox.length = 2
    ∧ d.2.table.rows.map (fun row => (row.retryCount, row.publishedAt))
      = [(1, some 11), (0, some 10)]
    ∧ d.2.attempts.map (completes (serviceWiring 0 0 [])) = [false, true, true]
    ∧ ∀ row ∈ d.2.table.rows, row.retryCount ≤ d.2.attempts.countP fun a =>
        a.1.id = row.id && (a.2.raises (listenerOf a.1.event.body.type)).isSome := by
  have hrun : (Machine.runActions (deployment (serviceWiring 0 0 [])).step
      (World.initial, (System.empty : System Event Listener)) listeningRun).map (fun d =>
        (d.1.shared.db.outbox.length,
          d.2.table.rows.map (fun row => (row.retryCount, row.publishedAt)),
          d.2.attempts.map (completes (serviceWiring 0 0 [])),
          decide (∀ committed ∈ d.1.shared.db.outbox, committed.event.Representable)))
      = some (2, [(1, some 11), (0, some 10)], [false, true, true], true) := by
    decide +kernel
  obtain ⟨d, hd, hall⟩ := Option.map_eq_some_iff.1 hrun
  simp only [Prod.mk.injEq] at hall
  obtain ⟨hlength, hrows, hcompletes, htyped⟩ := hall
  have hreach : Deployment.Reachable (serviceWiring 0 0 []) d := Machine.reaches_of_runActions hd
  exact ⟨d, hreach, hlength, hrows, hcompletes,
    (failed_only_by_listeners hreach (of_decide_eq_true htyped)).2.1⟩

end Schedule

end TaskService.Outbox
