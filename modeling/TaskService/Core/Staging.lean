import TaskService.Store.Transactions

/-!
# Staging events

Building an event draws its id and its time; `stage_events` adds its pending outbox row to the
session, so that the caller's commit covers both.
-/

namespace TaskService

open Store Prog

/-- The constructor of an event class. -/
def newEvent (body : EventBody) : SessionProg Event := do
  let id ← perform .uuid7
  let occurredAt ← perform .now
  return { id, occurredAt, body }

/-- `stage_events`. -/
def stageEvents : List Event → SessionProg Unit
  | [] => return ()
  | event :: events => do
    let id ← perform .uuid7
    perform (.add (.outbox (.fromEvent id event)))
    stageEvents events

theorem uuid7_straight :
    Straight Op.Draw (Outcome (fun _ => True) fun _ => False) (perform .uuid7) :=
  straight_call trivial fun _ => trivial

theorem now_straight :
    Straight Op.Draw (Outcome (fun _ => True) fun _ => False) (perform .now) :=
  straight_call trivial fun _ => trivial

theorem newEvent_straight (body : EventBody) :
    Straight Op.Draw (Outcome (fun event => event.body = body) fun _ => False) (newEvent body) :=
  ⟨trivial, fun _ => ⟨trivial, fun _ => straight_pure rfl, fun _ => rfl⟩, fun _ => rfl⟩

/-- The operations of `stage_events`. -/
def Op.Stages (events : List Event) (o : Op) : Prop :=
  o.Draw ∨ ∃ id, ∃ event ∈ events, o = .add (.outbox (.fromEvent id event))

theorem stageEvents_straight (events : List Event) :
    Straight (Op.Stages events) (Outcome (fun _ => True) fun _ => False) (stageEvents events) := by
  induction events with
  | nil => trivial
  | cons event events ih =>
    have hmore : ∀ o, Op.Stages events o → Op.Stages (event :: events) o := by
      rintro o (h | ⟨id, e, he, rfl⟩)
      · exact .inl h
      · exact .inr ⟨id, e, List.mem_cons_of_mem _ he, rfl⟩
    have hrest := ih.mono hmore fun _ h => h
    exact ⟨.inl trivial, fun id => ⟨.inr ⟨id, event, List.mem_cons_self, rfl⟩, fun _ => hrest,
      fun _ => rfl⟩, fun _ => rfl⟩

end TaskService
