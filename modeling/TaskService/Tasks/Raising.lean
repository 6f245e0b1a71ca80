import TaskService.Concurrency.World
import TaskService.Lib.Observation
import TaskService.Tasks.Programs

/-!
# What the task service raises

Between its operations a use case raises what its checks raise, and where it writes a task it turns
the violation of the title constraint into the error for a title. So what a call raises is known
from what its operations raise.

* **`Raises.create`**, **`Raises.replace`**, **`Raises.patch`**: the use cases, for any answers.
-/

namespace TaskService.Tasks

open Store Workflows Prog Concurrency
open Interleaving (Answered answered_lift answered_call Straight.answered)

/-! ## Pure checks -/

/-- What checks raise: errors of the domain, but for that of a title, and errors of values. -/
def OfCheck : Exn → Prop
  | .app (.duplicateTask _) | .db _ | .assertion => False
  | _ => True

/-- The computation raises what checks raise. -/
def Checks {α : Type} : Except Exn α → Prop
  | .ok _ => True
  | .error e => OfCheck e

theorem Checks.bind {α β : Type} {x : Except Exn α} {f : α → Except Exn β} (hx : Checks x)
    (hf : ∀ a, Checks (f a)) : Checks (x >>= f) := by
  cases x with
  | ok a => exact hf a
  | error e => exact hx

theorem checks_orValueError {α : Type} (x : Except PyStr α) : Checks (orValueError x) := by
  cases x <;> trivial

theorem checks_requireKnown (engine : Engine) (status : PyStr) :
    Checks (engine.requireKnown status) := by
  unfold Engine.requireKnown
  split
  · trivial
  · trivial

theorem checks_snapshot (t : Task) : Checks t.snapshot := by
  unfold Task.snapshot
  split <;> trivial

theorem checks_mapM {α β : Type} {f : α → Except Exn β} (hf : ∀ a, Checks (f a)) (items : List α) :
    Checks (items.mapM f) := by
  induction items with
  | nil => trivial
  | cons item items ih =>
    rw [List.mapM_cons]
    exact (hf item).bind fun name => ih.bind fun names => trivial

theorem checks_roleNames (d : Json) : Checks (Engine.roleNames d) := by
  unfold Engine.roleNames
  split
  case h_1 items =>
    refine checks_mapM (fun item => ?_) _
    split <;> trivial
  all_goals trivial

theorem checks_checkRole (transition : Transition) (context : TransitionContext) :
    Checks (Engine.checkRole transition context) := by
  unfold Engine.checkRole
  split
  · trivial
  · split
    · refine (checks_roleNames _).bind fun required => ?_
      split
      · trivial
      · trivial
    · trivial

theorem checks_atLimit (current : Nat) (limit : Json) : Checks (Engine.atLimit current limit) := by
  unfold Engine.atLimit
  split <;> trivial

section Checks

variable [Unicode]

theorem checks_checkWip (engine : Engine) (state : PyStr) (context : TransitionContext) :
    Checks (engine.checkWip state context) := by
  refine (checks_orValueError _).bind fun s => ?_
  split
  · trivial
  · refine (checks_atLimit _ _).bind fun reached => ?_
    split
    · trivial
    · trivial

theorem checks_resolveEntry (engine : Engine) (status : Option PyStr)
    (context : TransitionContext) : Checks (engine.resolveEntry status context) := by
  refine Checks.bind ?_ fun resolved => (checks_checkWip engine _ context).bind fun _ => trivial
  unfold Engine.entryState
  split
  · trivial
  · refine (checks_requireKnown engine _).bind fun _ => ?_
    dsimp only
    split
    · trivial
    · trivial

theorem checks_checkMove (engine : Engine) (fromStatus toStatus : PyStr)
    (context : TransitionContext) : Checks (engine.checkMove fromStatus toStatus context) := by
  refine (checks_requireKnown engine _).bind fun _ => ?_
  split
  · trivial
  · refine (checks_orValueError _).bind fun transition => ?_
    split
    · exact (checks_orValueError _).bind fun _ => trivial
    · exact (checks_checkRole _ context).bind fun _ => checks_checkWip engine _ context

theorem checks_cleanTitle (title : PyStr) : Checks (Task.cleanTitle title) := by
  unfold Task.cleanTitle
  split <;> trivial

theorem checks_fromInput (id : Uuid) (createdAt : Time) (title : PyStr)
    (description : Option PyStr) (status : PyStr) (priority : Int) :
    Checks (Task.fromInput id createdAt title description status priority) :=
  (checks_cleanTitle title).bind fun _ => trivial

theorem checks_applyReplace (t : Task) (title : PyStr) (description : Option PyStr)
    (status : PyStr) (priority : Int) : Checks (t.applyReplace title description status priority) :=
  (checks_cleanTitle title).bind fun _ => trivial

theorem checks_applyPatch (t : Task) (fields : PatchFields) : Checks (t.applyPatch fields) := by
  unfold Task.applyPatch
  split
  · trivial
  · refine Checks.bind ?_ fun _ => trivial
    unfold Task.patchTitle
    split
    · trivial
    · exact (checks_cleanTitle _).bind fun _ => trivial

theorem checks_parseOrRaise (document : Json) : Checks (parseOrRaise document) := by
  unfold parseOrRaise
  cases workflowFromDocument document <;> trivial

end Checks

/-! ## Programs -/

section Programs

variable {α β : Type} {J : α → Prop} {K : β → Prop} {A : (o : Op) → Except Exn (Res o) → Prop}
  {E : Exn → Prop}

/-- Answered so, the program raises one of these, and returns as `J` says. -/
def Raising (A : (o : Op) → Except Exn (Res o) → Prop) (E : Exn → Prop) (J : α → Prop)
    (p : SessionProg α) : Prop :=
  Answered A (Outcome J E) p

/-- The operations whose errors the handler of a write sees. -/
def Handled : Op → Prop
  | .flush | .commit => True
  | _ => False

/-- What operations raise is among these, but for the violation of the title constraint by a write,
and so is what checks raise, and the error for a title where that violation can occur. -/
structure Raises (A : (o : Op) → Except Exn (Res o) → Prop) (E : Exn → Prop) : Prop where
  check : ∀ e, OfCheck e → E e
  op : ∀ o e, A o (.error e) →
    E e ∨ Handled o ∧ e = .db (.integrity Write.titleKeyConstraint)
  title : ∀ o, A o (.error (.db (.integrity Write.titleKeyConstraint))) →
    ∀ title, E (.app (.duplicateTask title))
  echo : ∀ title title', E (.app (.duplicateTask title)) → E (.app (.duplicateTask title'))

theorem Raising.bind {p : SessionProg α} {f : α → SessionProg β} (hp : Raising A E J p)
    (hf : ∀ a, J a → Raising A E K (f a)) : Raising A E K (p >>= f) :=
  Answered.bind hp hf fun _ h => h

theorem Raising.mono {J' : α → Prop} {p : SessionProg α} (hp : Raising A E J p)
    (hJ : ∀ a, J a → J' a) : Raising A E J' p :=
  Answered.mono hp fun _ hr => hr.mono hJ fun _ h => h

theorem raising_return (a : α) :
    Raising A E (fun _ => True) (Pure.pure a : SessionProg α) := trivial

theorem Raises.lift (h : Raises A E) {r : Except Exn α} (hr : Checks r) :
    Raising A E (fun a => r = .ok a) (Prog.lift r) := by
  refine answered_lift ?_
  cases r with
  | ok a => exact rfl
  | error e => exact h.check e hr

theorem Raises.throw (h : Raises A E) {e : Exn} (he : OfCheck e) :
    Raising A E J (MonadExcept.throw e : SessionProg α) := h.check e he

theorem Raises.call (h : Raises A E) {o : Op} (ho : ¬ Handled o) :
    Raising A E (fun _ => True) (perform o) := by
  refine answered_call fun r hr => ?_
  cases r with
  | ok a => trivial
  | error e => exact (h.op o e hr).resolve_right fun hhandled => ho hhandled.1

/-- What lets exceptions through, and raises what checks raise. -/
theorem Raises.straight (h : Raises A E) {B : Op → Prop} {E' : Exn → Prop} {p : SessionProg α}
    (hp : Straight B (Outcome J E') p) (hB : ∀ o, B o → ¬ Handled o) (hE : ∀ e, E' e → OfCheck e) :
    Raising A E J p := by
  refine Straight.answered hp (fun _ hr => hr.mono (fun _ h => h) fun e he => h.check e (hE e he))
    fun o e ho he => ?_
  exact (h.op o e he).resolve_right fun hhandled => hB o ho hhandled.1

theorem not_handled_of_draw {o : Op} (ho : o.Draw) : ¬ Handled o := by
  cases o <;> first | exact id | exact ho.elim

theorem Raises.newEvent (h : Raises A E) (body : EventBody) :
    Raising A E (fun _ => True) (newEvent body) :=
  (h.straight (newEvent_straight body) (fun _ => not_handled_of_draw) fun _ h => h.elim).mono
    fun _ _ => trivial

theorem Raises.stageEvents (h : Raises A E) (events : List Event) :
    Raising A E (fun _ => True) (stageEvents events) := by
  refine h.straight (stageEvents_straight events) (fun o ho => ?_) fun _ h => h.elim
  rcases ho with hdraw | ⟨_, event, -, rfl⟩
  · exact not_handled_of_draw hdraw
  · exact id

/-! ## Writes -/

/-- The handler raises the error for a title where it sees the violation. -/
theorem Raises.translate (h : Raises A E) (title : PyStr) {o : Op} {e : Exn} (he : A o (.error e)) :
    Raising A E (fun _ => True) (Repository.translate title e) := by
  have hother : e ≠ .db (.integrity Write.titleKeyConstraint) → E e := fun hne =>
    (h.op o e he).resolve_right fun hhandled => hne hhandled.2
  unfold Repository.translate
  split
  next constraint =>
    refine (h.call (o := .rollback) id).bind fun _ _ => ?_
    by_cases htitle : constraint = Write.titleKeyConstraint
    · subst htitle
      rw [if_pos rfl]
      exact h.title o he title
    · rw [if_neg htitle]
      exact hother fun heq => htitle (DbError.integrity.inj (Exn.db.inj heq))
  next hnot => exact hother (hnot _)

theorem Raises.echoTitle (h : Raises A E) (rawTitle : PyStr) {e : Exn} (he : E e) :
    Raising A E (fun _ => True) (echoTitle rawTitle e) := by
  unfold Tasks.echoTitle
  split
  next title => exact h.echo title rawTitle he
  next => exact he

theorem Raises.stageNew (h : Raises A E) (task : Task) (rawTitle : PyStr) :
    Raising A E (fun _ => True) (stageNew task rawTitle) := by
  refine Answered.tryCatch (Q := Outcome (fun _ => True) E) ?_ (fun _ h => h) fun e he =>
    h.echoTitle rawTitle he
  refine (h.call (o := .add (.task task)) id).bind fun _ _ => ?_
  exact Answered.tryCatch (answered_call fun r hr => hr) (fun _ _ => trivial) fun e he =>
    h.translate task.title he

theorem Raises.persist (h : Raises A E) (task : Task) (events : List Event) (rawTitle : PyStr) :
    Raising A E (fun _ => True) (persist task events rawTitle) := by
  refine Answered.tryCatch (Q := Outcome (fun _ => True) E) ?_ (fun _ h => h) fun e he =>
    h.echoTitle rawTitle he
  refine (h.call (o := .add (.task task)) id).bind fun _ _ =>
    (h.stageEvents events).bind fun _ _ => ?_
  exact Answered.tryCatch (answered_call fun r hr => hr) (fun _ _ => trivial) fun e he =>
    h.translate task.title he

/-! ## Reads -/

theorem Raises.context (h : Raises A E) (engine : Engine) (roles : List PyStr)
    (fromStatus toStatus : Option PyStr) :
    Raising A E (fun _ => True) (context engine roles fromStatus toStatus) := by
  unfold Tasks.context
  split
  · exact (h.call (o := .countByStatus) id).bind fun _ _ => raising_return _
  · exact raising_return _

theorem Raises.get (h : Raises A E) (taskId : Uuid) :
    Raising A E (fun _ => True) (Repository.get taskId) := by
  refine (h.call (o := .getTask taskId) id).bind fun answer _ => ?_
  cases answer with
  | none => exact h.throw trivial
  | some t => exact raising_return _

variable [Unicode]

theorem Raises.activeEngine (h : Raises A E) : Raising A E (fun _ => True) activeEngine := by
  refine Raising.bind (J := fun _ => True) ?_ fun _ _ => raising_return _
  refine (h.call (o := .selectActive) id).bind fun record _ => ?_
  cases record with
  | none => exact h.throw trivial
  | some record => exact (h.lift (checks_parseOrRaise _)).bind fun _ _ => raising_return _

theorem Raises.guardedEngine (h : Raises A E) : Raising A E (fun _ => True) guardedEngine :=
  (h.call (o := .acquireGuard (if true then .shared else .exclusive)) id).bind fun _ _ =>
    h.activeEngine

/-! ## Tags -/

omit [Unicode] in
theorem Raises.mintMissing (h : Raises A E) (resolved : Dict PyStr Uuid)
    (wanted : Dict PyStr PyStr) :
    Raising A E (fun _ => True) (Tags.mintMissing resolved wanted) := by
  induction wanted generalizing resolved with
  | nil => exact raising_return _
  | cons kv wanted ih =>
    obtain ⟨nameKey, name⟩ := kv
    unfold Tags.mintMissing
    split
    · exact ih resolved
    · refine (h.call (o := .uuid7) id).bind fun _ _ => (h.call (o := .now) id).bind fun _ _ => ?_
      exact (h.call (o := .add _) id).bind fun _ _ => ih _

theorem Raises.resolve (h : Raises A E) (names : List PyStr) :
    Raising A E (fun _ => True) (Tags.resolve names) := by
  have hwanted : Checks (Tags.wantedFrom [] names) := by
    cases hw : Tags.wantedFrom [] names with
    | ok wanted => trivial
    | error e =>
      rw [Tags.wantedFrom_error hw]
      trivial
  refine (h.lift hwanted).bind fun wanted _ => ?_
  split
  · exact raising_return _
  · exact (h.call (o := .selectTags _) id).bind fun rows _ => h.mintMissing _ wanted

omit [Unicode] in
theorem Raises.setForTask (h : Raises A E) (taskId : Uuid) (tagIds : List Uuid) :
    Raising A E (fun _ => True) (Tags.setForTask taskId tagIds) := by
  have hadds : ∀ ids, Raising A E (fun _ => True) (Tags.addTaskTags taskId ids) := by
    intro ids
    induction ids with
    | nil => exact raising_return _
    | cons tagId ids ih => exact (h.call (o := .add _) id).bind fun _ _ => ih
  exact (h.call (o := .deleteTaskTags taskId) id).bind fun _ _ => hadds _

theorem Raises.stageTags (h : Raises A E) (taskId : Uuid) (names : Option (List PyStr)) :
    Raising A E (fun _ => True) (stageTags taskId names) := by
  cases names with
  | none => exact raising_return _
  | some names =>
    refine (h.call (o := .selectTagNames taskId) id).bind fun before _ => ?_
    refine (h.resolve names).bind fun resolved _ => ?_
    dsimp only
    split
    · exact raising_return _
    · exact (h.setForTask taskId _).bind fun _ _ =>
        (h.newEvent _).bind fun event _ => raising_return _

/-! ## The use cases -/

/-- **A change is persisted without the assertion**, when a change of status comes with
an engine. -/
theorem Raises.persistUpdate (h : Raises A E) {updated previous : Task} {engine : Option Engine}
    (hengine : engine = none → updated.status = previous.status) (rawTitle : PyStr)
    (extra : Option Event) :
    Raising A E (fun _ => True) (persistUpdate updated previous engine rawTitle extra) := by
  have hevents : Raising A E (fun _ => True) (updateEvents updated previous engine) := by
    refine (h.straight (updateEvents_straight updated previous engine)
      (fun _ => not_handled_of_draw)
      fun e he => ?_).mono fun _ _ => trivial
    obtain ⟨happ, hdb, hassertion⟩ := he
    cases e with
    | app a => exact absurd rfl (happ a)
    | db d => exact absurd rfl (hdb d)
    | assertion =>
      obtain ⟨hnone, hstatus⟩ := hassertion rfl
      exact absurd (hengine hnone) hstatus
    | valueError | typeError | snapshotInvalid => trivial
  refine hevents.bind fun events _ => ?_
  dsimp only
  split
  · exact h.persist updated _ rawTitle
  · exact raising_return _

theorem Raises.create (h : Raises A E) (title : PyStr) (description status : Option PyStr)
    (priority : Int) (tags : Option (List PyStr)) :
    Raising A E (fun _ => True) (create title description status priority tags) := by
  refine h.guardedEngine.bind fun engine _ => (h.context ..).bind fun context _ => ?_
  refine (h.lift (checks_resolveEntry engine status context)).bind fun resolved _ => ?_
  refine (h.call (o := .uuid7) id).bind fun id _ =>
    (h.call (o := .now) fun h => h).bind fun createdAt _ => ?_
  refine (h.lift (checks_fromInput id createdAt title description resolved priority)).bind
    fun task _ => ?_
  refine (h.lift (checks_snapshot task)).bind fun snapshot _ => ?_
  refine (h.newEvent _).bind fun created _ => ?_
  have htags : Raising A E (fun _ => True) (createTags task title tags) := by
    unfold createTags
    split
    · exact raising_return _
    · exact raising_return _
    · exact (h.stageNew task title).bind fun _ _ =>
        (h.stageTags _ _).bind fun _ _ => raising_return _
  exact htags.bind fun events _ => (h.persist task _ title).bind fun _ _ => raising_return _

theorem Raises.replace (h : Raises A E) (taskId : Uuid) (title : PyStr)
    (description status : Option PyStr) (priority : Int) (tags : Option (List PyStr))
    (roles : List PyStr) :
    Raising A E (fun _ => True) (replace taskId title description status priority tags roles) := by
  refine h.guardedEngine.bind fun engine _ => (h.get taskId).bind fun task _ => ?_
  refine (h.context ..).bind fun context _ => ?_
  refine (h.lift (checks_checkMove engine _ _ context)).bind fun _ _ => ?_
  refine (h.lift (checks_snapshot task)).bind fun previous _ => ?_
  refine (h.stageTags ..).bind fun tagEvent _ => ?_
  refine (h.lift (checks_applyReplace task title description _ priority)).bind fun updated _ => ?_
  refine (h.call (o := .setTask updated) id).bind fun _ _ => ?_
  have hsome : some engine = none → updated.status = previous.status := fun h => nomatch h
  exact (h.persistUpdate hsome title tagEvent).bind fun _ _ => raising_return _

/-- A patch has an engine when it names a status. -/
theorem Raises.patchEngine (h : Raises A E) (fields : PatchFields) :
    Raising A E (fun engine => engine = none → fields.status = none) (patchEngine fields) := by
  unfold Tasks.patchEngine
  split
  · exact h.guardedEngine.bind fun engine _ => fun h => nomatch h
  next hnone =>
    intro _
    simpa using hnone

theorem Raises.patch (h : Raises A E) (taskId : Uuid) (fields : PatchFields) (roles : List PyStr) :
    Raising A E (fun _ => True) (patch taskId fields roles) := by
  unfold Tasks.patch
  by_cases hempty : fields.isEmpty = true
  · rw [if_pos hempty]
    exact h.throw trivial
  rw [if_neg hempty]
  refine (h.patchEngine fields).bind fun engine hengine => ?_
  refine (h.get taskId).bind fun task _ => ?_
  have hcheck : Raising A E (fun _ => True) (checkPatch engine task fields.status roles) := by
    unfold checkPatch
    split
    · exact (h.context ..).bind fun context _ =>
        (h.lift (checks_checkMove _ _ _ context)).mono fun _ _ => trivial
    · exact raising_return _
  refine hcheck.bind fun _ _ => ?_
  refine (h.lift (checks_snapshot task)).bind fun previous hprevious => ?_
  refine (h.stageTags ..).bind fun tagEvent _ => ?_
  refine (h.lift (checks_applyPatch task fields)).bind fun updated hupdated => ?_
  refine (h.call (o := .setTask updated) id).bind fun _ _ => ?_
  -- a patch that names no status leaves it as it was
  have hstatus : engine = none → updated.status = previous.status := by
    intro hnone
    obtain ⟨-, -, rfl⟩ := Task.applyPatch_eq_ok.mp hupdated
    obtain ⟨-, rfl⟩ := Task.snapshot_eq_ok.mp hprevious
    show fields.status.getD _ = _
    rw [hengine hnone]
    rfl
  exact (h.persistUpdate hstatus _ tagEvent).bind fun _ _ => raising_return _

end Programs

end TaskService.Tasks
