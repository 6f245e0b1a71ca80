import TaskService.Sequential.Rows
import TaskService.Sequential.TagEvents
import TaskService.Store.Refusals
import TaskService.Tasks.Titles

/-!
# Calls whose checks pass

A request that the DTOs accept, whose task exists and whose status change the active definition
allows, has nothing but its writes left to fail for. So what it ends with is decided by what its
flushes answer: here a verdict `taken` is fixed, the flushes answer by it, and the use cases are
followed to their end.

* **`answered_create`**, **`answered_replace`**, **`answered_patch`**: the call ends with a
  `DuplicateTaskError` for its own title if `taken`, and otherwise with anything else.
-/

namespace TaskService.Sequential

open Store Tasks Tags Workflows Concurrency Sessions Prog
open Interleaving (Answered answered_lift answered_call Straight.answered)

/-! ## Requests -/

/-- The title a call submits. -/
def titleOf : Call → Option PyStr
  | .create title .. | .replace _ title .. => some title
  | .patch _ fields _ => fields.title
  | _ => none

/-- The description a call submits. -/
def descriptionOf : Call → Option PyStr
  | .create _ description .. | .replace _ _ description .. => description
  | .patch _ fields _ => fields.description.join
  | _ => none

/-- The priority a call submits. -/
def priorityOf : Call → Option Int
  | .create _ _ _ priority _ | .replace _ _ _ _ priority .. => some priority
  | .patch _ fields _ => fields.priority
  | _ => none

/-- The keys of a patch that are no fields of the DTO. -/
def extrasOf : Call → List PyStr
  | .patch _ fields _ => fields.unknown
  | _ => []

/-- `TaskCreate`, `TaskPatch`: the values a request can have. -/
structure Accepted (call : Call) : Prop where
  title : ∀ title ∈ titleOf call, NonBlankTitle title
  description : ∀ d ∈ descriptionOf call, d.length ≤ descriptionMaxLength ∧ (0 : CodePoint) ∉ d
  priority : ∀ n ∈ priorityOf call, priorityMin ≤ n ∧ n ≤ priorityMax
  names : ∀ names ∈ suppliedTags call, AcceptedNames names
  extras : extrasOf call = []

/-- `_context`, of these counts. -/
def contextWith (counts : Dict PyStr Nat) (engine : Engine) (roles : List PyStr)
    (a b : Option PyStr) : TransitionContext :=
  ⟨roles, if engine.needsOccupancy a b then counts else []⟩

/-- `_context`, of these tables. -/
abbrev contextOf (db : Db) := contextWith db.countByStatus

variable [Unicode]

/-- **The existence and workflow checks of the call pass**, with the tasks so counted. -/
inductive CheckedWith (counts : Dict PyStr Nat) (db : Db) : Call → Prop where
  | create {title : PyStr} {description status : Option PyStr} {priority : Int}
      {tags : Option (List PyStr)} {w : Workflow} {resolved : PyStr}
      (hactive : activeWorkflow db = some w)
      (hentry : Engine.resolveEntry ⟨w⟩ status (contextWith counts ⟨w⟩ [] none status)
        = .ok resolved) :
      CheckedWith counts db (.create title description status priority tags)
  | replace {taskId : Uuid} {title : PyStr} {description status : Option PyStr} {priority : Int}
      {tags : Option (List PyStr)} {roles : List PyStr} {w : Workflow} {task : Task}
      (hactive : activeWorkflow db = some w)
      (hthere : db.tasks.find? (fun t => t.id = taskId) = some task)
      (hmove : Engine.checkMove ⟨w⟩ task.status (status.getD w.defaultEntry)
        (contextWith counts ⟨w⟩ roles (some task.status) (some (status.getD w.defaultEntry)))
          = .ok ()) :
      CheckedWith counts db (.replace taskId title description status priority tags roles)
  | patch {taskId : Uuid} {fields : PatchFields} {roles : List PyStr} {task : Task}
      (hthere : db.tasks.find? (fun t => t.id = taskId) = some task)
      (hmove : ∀ target ∈ fields.status, ∃ w, activeWorkflow db = some w
        ∧ Engine.checkMove ⟨w⟩ task.status target
            (contextWith counts ⟨w⟩ roles (some task.status) (some target)) = .ok ()) :
      CheckedWith counts db (.patch taskId fields roles)

/-- They pass on these tables. -/
abbrev Checked (db : Db) : Call → Prop := CheckedWith db.countByStatus db

/-! ## Verdicts -/

/-- Not the error for a title. -/
def OtherThanDuplicate (e : Exn) : Prop := ∀ title, e ≠ .app (.duplicateTask title)

/-- How a flush or commit that writes the title ends. -/
def Verdict (taken : Prop) : Except Exn Unit → Prop
  | .ok _ => ¬ taken
  | .error e => ∃ d, e = .db d ∧ (d = .integrity Write.titleKeyConstraint ↔ taken)

/-- How a part of a call ends that writes the title: with the error for a title, if it is taken. -/
def Tallies {α : Type} (taken : Prop) (echoed : PyStr → Prop) : Except Exn α → Prop
  | .ok _ => ¬ taken
  | .error e => (taken ∧ ∃ title, echoed title ∧ e = .app (.duplicateTask title))
      ∨ ¬ taken ∧ OtherThanDuplicate e

/-- What the operations answer when the tables are these. -/
def Answers (db : Db) (taken : Prop) : (o : Op) → Except Exn (Res o) → Prop
  | .selectActive, r => r = .ok db.active
  | .countByStatus, r => r = .ok db.countByStatus
  | .getTask taskId, r => r = .ok (db.tasks.find? fun t => t.id = taskId)
  | .deleteTaskTags _, r => ∀ e, r = .error e → ¬ taken ∧ ∃ d, e = .db d
  | .flush, r => Verdict taken r
  | .commit, r => Verdict taken r
  | _, r => ∃ a, r = .ok a

/-- Operations that succeed. -/
def Op.Steady : Op → Prop
  | .deleteTaskTags _ | .flush | .commit => False
  | _ => True

section Rules

omit [Unicode]

variable {α β : Type} {db : Db} {taken : Prop} {J : α → Prop} {K : β → Prop} {echoed : PyStr → Prop}

/-- A part that does not write the title: it fails for something else, and not if the title is
taken. -/
def Settles (db : Db) (taken : Prop) (J : α → Prop) (p : SessionProg α) : Prop :=
  Answered (Answers db taken) (Outcome J fun e => ¬ taken ∧ OtherThanDuplicate e) p

theorem Settles.bind {p : SessionProg α} {f : α → SessionProg β} (h : Settles db taken J p)
    (hf : ∀ a, J a → Settles db taken K (f a)) : Settles db taken K (p >>= f) :=
  Answered.bind h hf fun _ h => h

theorem Settles.mono {J' : α → Prop} {p : SessionProg α} (h : Settles db taken J p)
    (hJ : ∀ a, J a → J' a) : Settles db taken J' p :=
  Answered.mono h fun _ hr => hr.mono hJ fun _ h => h

/-- What comes before the writes. -/
theorem Settles.tally {p : SessionProg α} {f : α → SessionProg β} (h : Settles db taken J p)
    (hf : ∀ a, J a → Answered (Answers db taken) (Tallies taken echoed) (f a)) :
    Answered (Answers db taken) (Tallies taken echoed) (p >>= f) :=
  Answered.bind h hf fun _ h => .inr h

theorem settles_lift {r : Except Exn α} (h : ∀ e, r = .error e → ¬ taken ∧ OtherThanDuplicate e) :
    Settles db taken (fun a => r = .ok a) (lift r) := by
  refine answered_lift ?_
  cases r with
  | ok a => exact rfl
  | error e => exact h e rfl

theorem settles_ok {r : Except Exn α} {a : α} (h : r = .ok a) :
    Settles db taken (fun a' => a' = a) (lift r) := by
  subst h
  exact rfl

theorem ok_of_steady {o : Op} (ho : Op.Steady o) {r : Except Exn (Res o)}
    (h : Answers db taken o r) : ∃ a, r = .ok a := by
  cases o with
  | deleteTaskTags taskId | flush | commit => exact ho.elim
  | selectActive | countByStatus | getTask taskId => exact ⟨_, h⟩
  | _ => exact h

theorem settles_call {o : Op} (ho : Op.Steady o) :
    Settles db taken (fun _ => True) (perform o) := by
  refine answered_call fun r hr => ?_
  obtain ⟨a, rfl⟩ := ok_of_steady ho hr
  trivial

/-- What issues steady operations only, and raises nothing, succeeds. -/
theorem settles_of_straight {B : Op → Prop} {p : SessionProg α}
    (h : Straight B (Outcome J fun _ => False) p) (hB : ∀ o, B o → Op.Steady o) :
    Settles db taken J p := by
  refine Straight.answered h (fun r hr => hr.mono (fun _ h => h) fun _ h => h.elim)
    fun o e ho he => ?_
  obtain ⟨a, ha⟩ := ok_of_steady (hB o ho) he
  cases ha

theorem steady_of_draw {o : Op} (h : o.Draw) : Op.Steady o := by
  cases o <;> first | exact h.elim | trivial

theorem settles_newEvent (body : EventBody) : Settles db taken (fun _ => True) (newEvent body) :=
  (settles_of_straight (newEvent_straight body) fun _ => steady_of_draw).mono fun _ _ => trivial

theorem settles_stageEvents (events : List Event) :
    Settles db taken (fun _ => True) (stageEvents events) := by
  refine settles_of_straight (stageEvents_straight events) fun o ho => ?_
  rcases ho with hdraw | ⟨id, event, -, rfl⟩
  · exact steady_of_draw hdraw
  · trivial

/-! ## The writes -/

/-- The handler turns the violation, and nothing else, into the error for a title. -/
theorem answered_translate (title : PyStr) {e : Exn} (h : Verdict taken (.error e)) :
    Answered (Answers db taken) (Tallies taken fun _ => True) (Repository.translate title e) := by
  obtain ⟨d, rfl, hverdict⟩ := h
  cases d with
  | integrity constraint =>
    refine (settles_call (o := .rollback) trivial).tally fun _ _ => ?_
    by_cases hconstraint : constraint = Write.titleKeyConstraint
    · rw [if_pos hconstraint]
      exact .inl ⟨hverdict.1 (congrArg _ hconstraint), title, trivial, rfl⟩
    · rw [if_neg hconstraint]
      have hfree : ¬ taken := fun htaken => hconstraint (DbError.integrity.inj (hverdict.2 htaken))
      exact .inr ⟨hfree, fun _ heq => (nomatch heq)⟩
  | data | stale =>
    have hfree : ¬ taken := fun htaken => nomatch hverdict.2 htaken
    exact .inr ⟨hfree, fun _ heq => (nomatch heq)⟩

/-- The service raises it again with the caller's title. -/
theorem answered_echoTitle (rawTitle : PyStr) {e : Exn}
    (h : Tallies taken (fun _ => True) (.error e : Except Exn Unit)) :
    Answered (Answers db taken) (Tallies taken fun title => title = rawTitle)
    (echoTitle rawTitle e) := by
  rcases h with ⟨htaken, title, -, rfl⟩ | ⟨hfree, hother⟩
  · exact .inl ⟨htaken, rawTitle, rfl, rfl⟩
  · unfold echoTitle
    split
    next title => exact absurd rfl (hother title)
    next => exact .inr ⟨hfree, hother⟩

theorem answered_stageNew (task : Task) (rawTitle : PyStr) :
    Answered (Answers db taken) (Tallies taken fun title => title = rawTitle)
      (stageNew task rawTitle) := by
  refine Answered.tryCatch (Q := Tallies taken fun _ => True) ?_ (fun _ h => h) fun e he =>
    answered_echoTitle rawTitle he
  refine (settles_call (o := .add (.task task)) trivial).tally fun _ _ => ?_
  exact Answered.tryCatch (answered_call fun r hr => hr) (fun _ h => h) fun e he =>
    answered_translate task.title he

theorem answered_persist (task : Task) (events : List Event) (rawTitle : PyStr) :
    Answered (Answers db taken) (Tallies taken fun title => title = rawTitle)
      (persist task events rawTitle) := by
  refine Answered.tryCatch (Q := Tallies taken fun _ => True) ?_ (fun _ h => h) fun e he =>
    answered_echoTitle rawTitle he
  refine (settles_call (o := .add (.task task)) trivial).tally fun _ _ =>
    (settles_stageEvents events).tally fun _ _ => ?_
  exact Answered.tryCatch (answered_call fun r hr => hr) (fun _ h => h) fun e he =>
    answered_translate task.title he

/-! ## The reads -/

theorem settles_context (engine : Engine) (roles : List PyStr) (a b : Option PyStr) :
    Settles db taken (fun context => context = contextOf db engine roles a b)
      (context engine roles a b) := by
  unfold context contextOf contextWith
  split
  · refine Settles.bind (J := fun counts => counts = db.countByStatus)
      (answered_call fun r hr => ?_) fun counts hcounts => ?_
    · obtain rfl : r = .ok db.countByStatus := hr
      exact rfl
    · obtain rfl := hcounts
      exact rfl
  · exact rfl

/-- The task that is there is found. -/
theorem settles_get {taskId : Uuid} {task : Task}
    (hthere : db.tasks.find? (fun t => t.id = taskId) = some task) :
    Settles db taken (fun t => t = task) (Repository.get taskId) := by
  refine Settles.bind (J := fun found => found = some task) (answered_call fun r hr => ?_)
    fun found hfound => ?_
  · obtain rfl : r = .ok (db.tasks.find? fun t => t.id = taskId) := hr
    exact hthere
  · obtain rfl := hfound
    exact rfl

end Rules

section UseCases

variable {db : Db} {taken : Prop} {w : Workflow}

theorem settles_activeEngine (hactive : activeWorkflow db = some w) :
    Settles db taken (fun engine => engine = ⟨w⟩) activeEngine := by
  obtain ⟨row, hrow, hparse⟩ := activeWorkflow_eq_some.1 hactive
  refine Settles.bind (J := fun stored => stored.workflow = w) ?_ fun stored hstored => ?_
  · refine Settles.bind (J := fun found => found = some row) (answered_call fun r hr => ?_)
      fun found hfound => ?_
    · obtain rfl : r = .ok db.active := hr
      exact hrow
    · obtain rfl := hfound
      have hok : parseOrRaise row.document = .ok w := by rw [parseOrRaise, hparse]; rfl
      exact (settles_ok hok).bind fun w' hw' => hw'
  · exact congrArg Engine.mk hstored

theorem settles_guardedEngine (hactive : activeWorkflow db = some w) :
    Settles db taken (fun engine => engine = ⟨w⟩) guardedEngine :=
  (settles_call (o := .acquireGuard (if true then .shared else .exclusive)) trivial).bind
    fun _ _ => settles_activeEngine hactive

/-! ## Tags -/

omit [Unicode] in
theorem settles_mintMissing (resolved : Dict PyStr Uuid) (wanted : Dict PyStr PyStr) :
    Settles db taken (fun _ => True) (mintMissing resolved wanted) := by
  induction wanted generalizing resolved with
  | nil => trivial
  | cons kv wanted ih =>
    obtain ⟨nameKey, name⟩ := kv
    unfold mintMissing
    split
    · exact ih resolved
    · refine (settles_call (o := .uuid7) trivial).bind fun id _ => ?_
      refine (settles_call (o := .now) trivial).bind fun createdAt _ => ?_
      exact (settles_call (o := .add _) trivial).bind fun _ _ => ih _

/-- The names resolve, unless one of them is blank. -/
theorem settles_resolve {names : List PyStr} (hnames : taken → ∀ name ∈ names, ¬ Blank name) :
    Settles db taken (fun _ => True) (resolve names) := by
  have hwanted : ∀ e, wantedFrom [] names = .error e → ¬ taken ∧ OtherThanDuplicate e := by
    intro e he
    refine ⟨fun htaken => ?_, fun title heq => ?_⟩
    · exact nomatch (wantedFrom_eq_ok.2 ⟨hnames htaken, rfl⟩).symm.trans he
    · exact nomatch (wantedFrom_error he).symm.trans heq
  refine (settles_lift hwanted).bind fun wanted _ => ?_
  split
  · trivial
  · exact (settles_call (o := .selectTags _) trivial).bind fun rows _ =>
      settles_mintMissing _ wanted

omit [Unicode] in
theorem settles_addTaskTags (taskId : Uuid) (tagIds : List Uuid) :
    Settles db taken (fun _ => True) (addTaskTags taskId tagIds) := by
  induction tagIds with
  | nil => trivial
  | cons tagId tagIds ih => exact (settles_call (o := .add _) trivial).bind fun _ _ => ih

omit [Unicode] in
theorem settles_setForTask (taskId : Uuid) (tagIds : List Uuid) :
    Settles db taken (fun _ => True) (setForTask taskId tagIds) := by
  refine Settles.bind (J := fun _ => True) (answered_call fun r hr => ?_) fun _ _ =>
    settles_addTaskTags taskId _
  cases r with
  | ok links => trivial
  | error e =>
    obtain ⟨hfree, d, rfl⟩ := hr e rfl
    exact ⟨hfree, fun _ heq => (nomatch heq)⟩

theorem settles_stageTags (taskId : Uuid) {names : Option (List PyStr)}
    (hnames : taken → ∀ asked ∈ names, ∀ name ∈ asked, ¬ Blank name) :
    Settles db taken (fun _ => True) (stageTags taskId names) := by
  cases names with
  | none => trivial
  | some names =>
    refine (settles_call (o := .selectTagNames taskId) trivial).bind fun before _ => ?_
    refine (settles_resolve fun htaken => hnames htaken names rfl).bind fun resolved _ => ?_
    dsimp only
    split
    · trivial
    · exact (settles_setForTask taskId _).bind fun _ _ => (settles_newEvent _).bind fun event _ =>
        trivial

/-! ## Updates -/

/-- What has to be known of a change that would be refused for its title. -/
structure Narratable (engine : Option Engine) (previous updated : Task) : Prop where
  valid : updated.Valid
  changed : updated.changedFields previous ≠ []
  completes : updated.status ≠ previous.status →
    ∃ e completes, engine = some e ∧ e.completes updated.status = .ok completes

theorem settles_updateEvents {updated previous : Task} {engine : Option Engine}
    (h : taken → Narratable engine previous updated) :
    Settles db taken (fun events => taken → events ≠ [])
    (updateEvents updated previous engine) := by
  by_cases htaken : taken
  · obtain ⟨hvalid, hchanged, hcompletes⟩ := h htaken
    unfold updateEvents
    rw [if_neg hchanged]
    refine (settles_ok (Task.snapshot_eq_ok.2 ⟨hvalid, rfl⟩)).bind fun snapshot hsnapshot => ?_
    obtain rfl := hsnapshot
    refine (settles_newEvent _).bind fun event _ => ?_
    split
    · exact fun _ => List.cons_ne_nil _ _
    next hstatus =>
      obtain ⟨e, completes, rfl, hok⟩ :=
        hcompletes (Task.status_mem_changedFields.1 (not_not.1 hstatus))
      refine Settles.bind (J := fun _ => True) ?_ fun events _ => fun _ => List.cons_ne_nil _ _
      refine (settles_newEvent _).bind fun changed _ => (settles_ok hok).bind fun b _ => ?_
      split
      · exact (settles_newEvent _).bind fun completed _ => trivial
      · trivial
  · -- whatever it raises, it is not the error for a title
    refine Straight.answered (updateEvents_straight updated previous engine) (fun r hr => ?_)
      fun o e ho he => ?_
    · exact hr.mono (fun _ _ h => absurd h htaken) fun e he => ⟨htaken, fun title => he.1 _⟩
    · obtain ⟨a, ha⟩ := ok_of_steady (steady_of_draw ho) he
      cases ha

theorem answered_persistUpdate {updated previous : Task} {engine : Option Engine} (rawTitle : PyStr)
    (extra : Option Event) (h : taken → Narratable engine previous updated) :
    Answered (Answers db taken) (Tallies taken fun title => title = rawTitle)
      (persistUpdate updated previous engine rawTitle extra) := by
  refine (settles_updateEvents h).tally fun events hevents => ?_
  dsimp only
  split
  · exact answered_persist updated _ rawTitle
  next hnone =>
    rw [ne_eq, not_not, List.append_eq_nil_iff] at hnone
    exact fun htaken => hevents htaken hnone.1

/-! ## The use cases -/

/-- The error for an empty title is not the one for a title that is taken. -/
theorem other_of_cleanTitle {α : Type} {title : PyStr} {f : PyStr × PyStr → Except Exn α}
    (hf : ∀ cleaned, ∃ a, f cleaned = .ok a) {e : Exn} (he : Task.cleanTitle title >>= f = .error e)
    (htitle : taken → Task.normalizeTitle title ≠ []) : ¬ taken ∧ OtherThanDuplicate e := by
  unfold Task.cleanTitle at he
  by_cases hempty : Task.normalizeTitle title = []
  · rw [if_pos hempty] at he
    obtain rfl := Except.error.inj he
    exact ⟨fun htaken => htitle htaken hempty, fun _ heq => (nomatch heq)⟩
  · rw [if_neg hempty] at he
    obtain ⟨a, ha⟩ := hf (strip title, Task.normalizeTitle title)
    exact nomatch ha.symm.trans he

omit [Unicode] in
theorem other_of_snapshot {t : Task} {e : Exn} (he : t.snapshot = .error e)
    (hvalid : taken → t.Valid) : ¬ taken ∧ OtherThanDuplicate e := by
  unfold Task.snapshot at he
  split at he
  · cases he
  next hnot =>
    obtain rfl := Except.error.inj he
    exact ⟨fun htaken => hnot (hvalid htaken), fun _ heq => (nomatch heq)⟩

/-- **A create ends as its flushes say.** -/
theorem answered_create {title : PyStr} {description status : Option PyStr} {priority : Int}
    {tags : Option (List PyStr)} {resolved : PyStr} (hactive : activeWorkflow db = some w)
    (hentry : Engine.resolveEntry ⟨w⟩ status (contextOf db ⟨w⟩ [] none status) = .ok resolved)
    (htitle : taken → Task.normalizeTitle title ≠ [])
    (hvalid : taken → ∀ id createdAt, Task.Valid ⟨id, strip title, Task.normalizeTitle title,
      description, resolved, priority, createdAt⟩) :
    Answered (Answers db taken) (Tallies taken fun echoed => echoed = title)
      (create title description status priority tags) := by
  refine (settles_guardedEngine hactive).tally fun engine hengine => ?_
  obtain rfl := hengine
  refine (settles_context _ _ _ _).tally fun context hcontext => ?_
  obtain rfl := hcontext
  refine (settles_ok hentry).tally fun _ hresolved => ?_
  obtain rfl := hresolved
  refine (settles_call (o := .uuid7) trivial).tally fun id _ => ?_
  refine (settles_call (o := .now) trivial).tally fun createdAt _ => ?_
  refine (settles_lift fun e he => other_of_cleanTitle (fun _ => ⟨_, rfl⟩) he htitle).tally
    fun task htask => ?_
  obtain ⟨-, rfl⟩ := Task.fromInput_eq_ok.1 htask
  refine (settles_lift fun e he =>
    other_of_snapshot he fun htaken => hvalid htaken id createdAt).tally
    fun snapshot _ => ?_
  refine (settles_newEvent _).tally fun created _ => ?_
  have hpersist : ∀ task events,
      Answered (Answers db taken) (Tallies taken fun echoed => echoed = title)
      (persist task events title >>= fun _ => return task) := fun task events =>
    Answered.bind (answered_persist task events title) (fun _ hfree => hfree) fun _ h => h
  match tags with
  | none | some [] => exact hpersist _ _
  | some (name :: names) =>
    refine Answered.bind (Q := Tallies taken fun echoed => echoed = title) ?_
      (fun _ hfree => hpersist _ _) fun _ h => h
    refine Answered.bind (answered_stageNew _ title) (fun _ hfree => ?_) fun _ h => h
    -- the row is in, so the title was free
    refine (settles_stageTags _ fun htaken => absurd htaken hfree).tally fun event _ => ?_
    exact hfree

theorem completes_of_mem {status : PyStr} (h : status ∈ w.stateNames) :
    ∃ completes, Engine.completes ⟨w⟩ status = .ok completes := by
  obtain ⟨s, -, hs⟩ := w.state_of_mem h
  exact ⟨_, by rw [Engine.completes, hs]; rfl⟩

/-- **A replacement ends as its flushes say.** -/
theorem answered_replace {taskId : Uuid} {title : PyStr} {description status : Option PyStr}
    {priority : Int} {tags : Option (List PyStr)} {roles : List PyStr} {task : Task}
    (hactive : activeWorkflow db = some w)
    (hthere : db.tasks.find? (fun t => t.id = taskId) = some task) (hvalid : task.Valid)
    (hmove : Engine.checkMove ⟨w⟩ task.status (status.getD w.defaultEntry)
      (contextOf db ⟨w⟩ roles (some task.status) (some (status.getD w.defaultEntry))) = .ok ())
    (hnames : taken → ∀ name ∈ tags.getD [], ¬ Blank name)
    (htitle : taken → Task.normalizeTitle title ≠ [])
    (hupdated : taken → ∀ updated, task.applyReplace title description (status.getD w.defaultEntry)
      priority = .ok updated → updated.Valid ∧ updated.changedFields task ≠ []) :
    Answered (Answers db taken) (Tallies taken fun echoed => echoed = title)
      (replace taskId title description status priority tags roles) := by
  refine (settles_guardedEngine hactive).tally fun engine hengine => ?_
  obtain rfl := hengine
  refine (settles_get hthere).tally fun t ht => ?_
  obtain rfl := ht
  refine (settles_context _ _ _ _).tally fun context hcontext => ?_
  obtain rfl := hcontext
  refine (settles_ok hmove).tally fun _ _ => ?_
  refine (settles_ok (Task.snapshot_eq_ok.2 ⟨hvalid, rfl⟩)).tally fun previous hprevious => ?_
  obtain rfl := hprevious
  refine (settles_stageTags taskId fun htaken asked hasked => ?_).tally fun tagEvent _ => ?_
  · obtain rfl := Option.some.inj hasked
    exact hnames htaken
  refine (settles_lift fun e he => other_of_cleanTitle (fun _ => ⟨_, rfl⟩) he htitle).tally
    fun updated happlied => ?_
  refine (settles_call (o := .setTask updated) trivial).tally fun _ _ => ?_
  refine Answered.bind (answered_persistUpdate title tagEvent fun htaken => ?_)
    (fun _ hfree => hfree)
    fun _ h => h
  obtain ⟨hok, hchanged⟩ := hupdated htaken updated happlied
  refine ⟨hok, hchanged, fun _ => ?_⟩
  obtain ⟨-, rfl⟩ := Task.applyReplace_eq_ok.1 happlied
  obtain ⟨completes, hcompletes⟩ := completes_of_mem (Engine.checkMove_legal ⟨w⟩ hmove).1
  exact ⟨⟨w⟩, completes, rfl, hcompletes⟩

/-- A patch that names a status consults the active definition. -/
theorem settles_patchEngine {fields : PatchFields}
    (hactive : ∀ target ∈ fields.status, ∃ w, activeWorkflow db = some w) :
    Settles db taken
      (fun engine => engine = fields.status.bind fun _ => (activeWorkflow db).map Engine.mk)
      (patchEngine fields) := by
  unfold patchEngine
  split
  next hsome =>
    obtain ⟨target, htarget⟩ := Option.isSome_iff_exists.1 hsome
    obtain ⟨w, hw⟩ := hactive target htarget
    refine (settles_guardedEngine hw).bind fun engine hengine => ?_
    obtain rfl := hengine
    show some _ = _
    rw [htarget, hw]
    rfl
  next hnone =>
    show none = _
    rw [Option.not_isSome_iff_eq_none.1 hnone]
    rfl

/-- The change of the fields fails for an empty title at most. -/
theorem other_of_applyPatch {t : Task} {fields : PatchFields} {e : Exn}
    (he : t.applyPatch fields = .error e) (hunknown : fields.unknown = [])
    (htitle : taken → ∀ title ∈ fields.title, Task.normalizeTitle title ≠ []) :
    ¬ taken ∧ OtherThanDuplicate e := by
  unfold Task.applyPatch at he
  rw [if_neg (not_not_intro hunknown)] at he
  cases hfield : fields.title with
  | none =>
    rw [hfield] at he
    exact nomatch he
  | some title =>
    have hpatched : Task.patchTitle t (some title) = .error e := by
      rw [hfield] at he
      cases hp : Task.patchTitle t (some title) with
      | ok t' =>
        rw [hp] at he
        exact nomatch he
      | error e' =>
        rw [hp] at he
        exact he
    exact other_of_cleanTitle (fun _ => ⟨_, rfl⟩) hpatched fun htaken => htitle htaken title hfield

/-- **A patch ends as its flushes say.** -/
theorem answered_patch {taskId : Uuid} {fields : PatchFields} {roles : List PyStr} {task : Task}
    (hsome : taken → fields.title.isSome)
    (hthere : db.tasks.find? (fun t => t.id = taskId) = some task) (hvalid : task.Valid)
    (hmove : ∀ target ∈ fields.status, ∃ w, activeWorkflow db = some w
      ∧ Engine.checkMove ⟨w⟩ task.status target
          (contextOf db ⟨w⟩ roles (some task.status) (some target)) = .ok ())
    (hnames : taken → ∀ asked ∈ fields.tags.join, ∀ name ∈ asked, ¬ Blank name)
    (hunknown : fields.unknown = [])
    (htitle : taken → ∀ title ∈ fields.title, Task.normalizeTitle title ≠ [])
    (hupdated : taken → ∀ updated, task.applyPatch fields = .ok updated →
      updated.Valid ∧ updated.changedFields task ≠ []) :
    Answered (Answers db taken) (Tallies taken fun echoed => fields.title = some echoed)
      (patch taskId fields roles) := by
  unfold patch
  by_cases hempty : fields.isEmpty = true
  · rw [if_pos hempty]
    refine .inr ⟨fun htaken => ?_, fun _ heq => by cases heq⟩
    have hnone : fields.title.isNone = true := by
      simp only [PatchFields.isEmpty, Bool.and_eq_true] at hempty
      exact hempty.1.1.1.1.1
    rw [Option.isNone_iff_eq_none] at hnone
    exact absurd (hsome htaken) (by rw [hnone]; exact Bool.false_ne_true)
  rw [if_neg hempty]
  have hactive : ∀ target ∈ fields.status, ∃ w, activeWorkflow db = some w := by
    intro target htarget
    obtain ⟨w, hw, -⟩ := hmove target htarget
    exact ⟨w, hw⟩
  refine (settles_patchEngine hactive).tally fun engine hengine => ?_
  obtain rfl := hengine
  refine (settles_get hthere).tally fun t ht => ?_
  obtain rfl := ht
  have hcheck : Settles db taken (fun _ => True) (checkPatch
      (fields.status.bind fun _ => (activeWorkflow db).map Engine.mk) t fields.status roles) := by
    cases hstatus : fields.status with
    | none => trivial
    | some target =>
      obtain ⟨w, hw, hok⟩ := hmove target hstatus
      rw [Option.bind_some, hw]
      refine (settles_context _ _ _ _).bind fun context hcontext => ?_
      obtain rfl := hcontext
      exact (settles_ok hok).mono fun _ _ => trivial
  refine hcheck.tally fun _ _ => ?_
  refine (settles_ok (Task.snapshot_eq_ok.2 ⟨hvalid, rfl⟩)).tally fun previous hprevious => ?_
  obtain rfl := hprevious
  refine (settles_stageTags taskId hnames).tally fun tagEvent _ => ?_
  refine (settles_lift fun e he => other_of_applyPatch he hunknown htitle).tally
    fun updated happlied => ?_
  refine (settles_call (o := .setTask updated) trivial).tally fun _ _ => ?_
  refine Answered.bind (Q := Tallies taken fun echoed => fields.title = some echoed)
    (Answered.mono (answered_persistUpdate (fields.title.getD updated.title) tagEvent
      fun htaken => ?_) fun r hr => ?_) (fun _ hfree => hfree) fun _ h => h
  · obtain ⟨hok, hchanged⟩ := hupdated htaken updated happlied
    refine ⟨hok, hchanged, fun hstatus => ?_⟩
    -- the status changed, so the patch names one
    obtain ⟨-, -, rfl⟩ := Task.applyPatch_eq_ok.1 happlied
    cases htarget : fields.status with
    | none => exact absurd (by rw [htarget]; rfl) hstatus
    | some target =>
      obtain ⟨w, hw, hok⟩ := hmove target htarget
      obtain ⟨completes, hcompletes⟩ := completes_of_mem (Engine.checkMove_legal ⟨w⟩ hok).1
      refine ⟨⟨w⟩, completes, ?_, ?_⟩
      · rw [Option.bind_some, hw]
        rfl
      · rw [Option.getD_some]
        exact hcompletes
  · cases r with
    | ok _ => exact hr
    | error e =>
      refine hr.imp_left ?_
      rintro ⟨htaken, echoed, heq, he⟩
      refine ⟨htaken, echoed, ?_, he⟩
      obtain ⟨title, htitle⟩ := Option.isSome_iff_exists.1 (hsome htaken)
      rw [heq, htitle]
      rfl

end UseCases

end TaskService.Sequential
