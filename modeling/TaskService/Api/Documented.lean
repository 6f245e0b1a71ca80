import TaskService.Api.Errors
import TaskService.Lib.Traces
import TaskService.Sequential.Duplicates
import TaskService.Tasks.Raising

/-!
# Documented errors

The `responses` of the routers, from `core/openapi_responses.py`, beside what the use cases raise.
Codes are followed through a use case for any answers its operations can get: a database refuses
with errors of its own, and the definition it answers is one that was stored, so it parses.

* **`Refuses.bind`**: the rules for the codes a program raises.
* **`refuses_call`**: the codes of each call.
* **`refused_as_documented`**: in every interleaving an error is one its route documents.
* **`exists_raised`**: each of the codes is raised by some call of its route.
-/

namespace TaskService.Api

open Store Tasks Tags Workflows Concurrency Sessions Prog
open Interleaving (Answered answered_lift answered_call Straight.answered)

/-! ## What the routers document -/

/-- The examples of a documented response: a single one, or some that its codes name. -/
inductive Examples where
  | single (code : ErrorCode)
  | named (codes : List ErrorCode)
  deriving DecidableEq

def notFoundResponse : Examples := .single .taskNotFound

def forbiddenResponse : Examples := .single .transitionForbidden

def conflictResponse : Examples := .named [.duplicateTask, .invalidTransition, .wipLimitExceeded]

def tagConflictResponse : Examples := .named [.tagInUse]

def validationResponse : Examples := .named [.validationError]

def writeValidationResponse : Examples :=
  .named [.validationError, .unknownStatus, .readOnlyField]

def patchValidationResponse : Examples :=
  .named [.validationError, .unknownStatus, .readOnlyField, .emptyUpdate]

def workflowConflictResponse : Examples := .single .workflowStatesInUse

def workflowValidationResponse : Examples :=
  .named [.invalidWorkflowDefinition, .validationError]

/-- The routes that make a call of the running service. -/
inductive Route where
  | createTask
  | replaceTask
  | patchTask
  | deleteTask
  | taskTransitions
  | deleteTag
  | replaceWorkflow
  deriving DecidableEq

/-- The route that makes a call. The seed is none's. -/
def route? : Call → Option Route
  | .create .. => some .createTask
  | .replace .. => some .replaceTask
  | .patch .. => some .patchTask
  | .delete _ => some .deleteTask
  | .legalMoves _ => some .taskTransitions
  | .deleteTag _ => some .deleteTag
  | .replaceActive _ => some .replaceWorkflow
  | .seed => none

/-- `responses`. -/
def responses : Route → List (Nat × Examples)
  -- no 403: a create resolves an entry state, never a role-guarded transition
  | .createTask => [(409, conflictResponse), (422, writeValidationResponse)]
  | .replaceTask => [(403, forbiddenResponse), (404, notFoundResponse), (409, conflictResponse),
      (422, writeValidationResponse)]
  | .patchTask => [(403, forbiddenResponse), (404, notFoundResponse), (409, conflictResponse),
      (422, patchValidationResponse)]
  | .deleteTask | .taskTransitions => [(404, notFoundResponse), (422, validationResponse)]
  | .deleteTag =>
    [(404, notFoundResponse), (409, tagConflictResponse), (422, validationResponse)]
  | .replaceWorkflow => [(409, workflowConflictResponse), (422, workflowValidationResponse)]

/-- The codes that are shown. -/
def Examples.codes : Examples → List ErrorCode
  | .single code => [code]
  | .named codes => codes

/-- A response with the error's status is documented, with the error's code among its examples. -/
def Documents (documented : List (Nat × Examples)) (e : AppError) : Prop :=
  ∃ examples, (statusCode e, examples) ∈ documented ∧ errorCode e ∈ examples.codes

/-- The 404 of a missing tag is documented as that of a missing task. -/
def Misnames (route : Route) (e : AppError) : Prop :=
  route = .deleteTag ∧ errorCode e = .tagNotFound
    ∧ (statusCode e, notFoundResponse) ∈ responses route

/-! ## Codes of programs -/

section Rules

variable {α β : Type} {codes codes' : List ErrorCode}

/-- The computation raises these application errors only. -/
def Within (codes : List ErrorCode) (r : Except Exn α) : Prop :=
  ∀ e, r = .error (.app e) → errorCode e ∈ codes

theorem within_ok (a : α) : Within codes (.ok a : Except Exn α) := fun _ h => nomatch h

theorem within_app {e : AppError} (h : errorCode e ∈ codes) :
    Within codes (.error (.app e) : Except Exn α) := fun e' heq => by
  obtain rfl := Exn.app.inj (Except.error.inj heq)
  exact h

theorem Within.bind {r : Except Exn α} {f : α → Except Exn β} (h : Within codes r)
    (hf : ∀ a, Within codes (f a)) : Within codes (r >>= f) := by
  cases r with
  | ok a => exact hf a
  | error _ => exact fun e' heq => h e' (congrArg _ (Except.error.inj heq))

theorem Within.mono {r : Except Exn α} (h : Within codes r) (hsub : codes ⊆ codes') :
    Within codes' r := fun e he => hsub (h e he)

variable [Unicode]

/-- What a database answers: its own errors, and a definition that parses. -/
def Given : (o : Op) → Except Exn (Res o) → Prop
  | _, .error e => ∃ refused, e = .db refused
  | .selectActive, .ok found =>
    ∀ record ∈ found, ∃ w, workflowFromDocument record.document = .ok w
  | _, .ok _ => True

/-- So answered, the program raises these application errors only. -/
def Refuses (codes : List ErrorCode) (p : SessionProg α) : Prop :=
  Answered Given (Within codes) p

theorem Refuses.bind {p : SessionProg α} {f : α → SessionProg β} (h : Refuses codes p)
    (hf : ∀ a, Refuses codes (f a)) : Refuses codes (p >>= f) :=
  Answered.bind h (fun a _ => hf a) fun _ he e' heq => he e' (congrArg _ (Except.error.inj heq))

theorem Refuses.tryCatch {p : SessionProg α} {f : Exn → SessionProg α} (h : Refuses codes p)
    (hf : ∀ e, Within codes (.error e : Except Exn α) → Refuses codes (f e)) :
    Refuses codes (p.tryCatch f) :=
  Answered.tryCatch h (fun a _ => within_ok a) hf

theorem Refuses.mono {p : SessionProg α} (h : Refuses codes p) (hsub : codes ⊆ codes') :
    Refuses codes' p := Answered.mono h fun _ hr => hr.mono hsub

theorem refuses_return (a : α) : Refuses codes (Pure.pure a : SessionProg α) := within_ok a

theorem refuses_throw {e : AppError} (h : errorCode e ∈ codes) :
    Refuses codes (MonadExcept.throw (.app e) : SessionProg α) := within_app h

theorem refuses_lift {r : Except Exn α} (h : Within codes r) :
    Refuses codes (lift r : SessionProg α) := answered_lift h

theorem given_error {o : Op} {e : Exn} (h : Given o (.error e)) : ∃ refused, e = .db refused := by
  cases o <;> exact h

theorem refuses_perform (o : Op) : Refuses codes (perform o) := by
  refine answered_call fun r hr e heq => ?_
  subst heq
  obtain ⟨refused, hrefused⟩ := given_error hr
  cases hrefused

/-- What raises no application error of its own. -/
theorem refuses_of_straight {B : Op → Prop} {R : Except Exn α → Prop} {p : SessionProg α}
    (h : Straight B R p) (hR : ∀ e, ¬ R (.error (.app e))) : Refuses codes p := by
  refine Straight.answered h (fun _ hr e heq => absurd (heq ▸ hr) (hR e)) fun o e _ he e' heq => ?_
  obtain ⟨refused, rfl⟩ := given_error he
  cases heq

end Rules

/-! ## Checks -/

section Checks

variable {α : Type}

theorem within_orValueError (x : Except PyStr α) : Within [] (orValueError x) := by
  cases x with
  | ok a => exact within_ok a
  | error message => exact fun _ heq => (nomatch heq)

theorem within_requireKnown (engine : Engine) (status : PyStr) :
    Within [.unknownStatus] (engine.requireKnown status) := by
  unfold Engine.requireKnown
  split
  · exact within_ok _
  · exact within_app List.mem_cons_self

theorem within_roleNames (d : Json) : Within [] (Engine.roleNames d) := by
  unfold Engine.roleNames
  split
  next items =>
    induction items with
    | nil => exact within_ok _
    | cons item items ih =>
      rw [List.mapM_cons]
      refine Within.bind ?_ fun name => ih.bind fun names => within_ok _
      split
      · exact within_ok _
      · exact fun _ heq => (nomatch heq)
  next => exact within_ok _
  next => exact within_ok _
  next => exact fun _ heq => (nomatch heq)

theorem within_checkRole (transition : Transition) (context : TransitionContext) :
    Within [.transitionForbidden] (Engine.checkRole transition context) := by
  unfold Engine.checkRole
  split
  · exact within_ok _
  · split
    · refine ((within_roleNames _).mono (List.nil_subset _)).bind fun required => ?_
      split
      · exact within_app List.mem_cons_self
      · exact within_ok _
    · exact within_ok _

theorem within_snapshot (t : Task) : Within [] t.snapshot := by
  unfold Task.snapshot
  split
  · exact within_ok _
  · exact fun _ heq => (nomatch heq)

variable [Unicode]

theorem within_checkWip (engine : Engine) (state : PyStr) (context : TransitionContext) :
    Within [.wipLimitExceeded] (engine.checkWip state context) := by
  refine ((within_orValueError _).mono (List.nil_subset _)).bind fun s => ?_
  split
  · exact within_ok _
  · refine Within.bind ?_ fun reached => ?_
    · unfold Engine.atLimit
      split <;> first | exact within_ok _ | exact fun _ heq => (nomatch heq)
    · split
      · exact within_ok _
      · exact within_app List.mem_cons_self

/-- **A create's entry**: unknown, no entry, or full. It is no transition. -/
theorem within_resolveEntry (engine : Engine) (status : Option PyStr)
    (context : TransitionContext) :
    Within [.unknownStatus, .invalidTransition, .wipLimitExceeded]
      (engine.resolveEntry status context) := by
  refine Within.bind ?_ fun resolved =>
    ((within_checkWip engine _ context).mono (by decide)).bind fun _ => within_ok _
  unfold Engine.entryState
  split
  · exact within_ok _
  · refine ((within_requireKnown engine _).mono (by decide)).bind fun _ => ?_
    dsimp only
    split
    · exact within_app (List.mem_cons_of_mem _ List.mem_cons_self)
    · exact within_ok _

/-- **A move**: unknown, no transition, no role, or full. -/
theorem within_checkMove (engine : Engine) (fromStatus toStatus : PyStr)
    (context : TransitionContext) :
    Within [.unknownStatus, .invalidTransition, .transitionForbidden, .wipLimitExceeded]
      (engine.checkMove fromStatus toStatus context) := by
  refine ((within_requireKnown engine _).mono (by decide)).bind fun _ => ?_
  split
  · exact within_ok _
  · refine ((within_orValueError _).mono (List.nil_subset _)).bind fun transition => ?_
    split
    · refine ((within_orValueError _).mono (List.nil_subset _)).bind fun allowed => ?_
      exact within_app (List.mem_cons_of_mem _ List.mem_cons_self)
    · refine ((within_checkRole _ context).mono (by decide)).bind fun _ => ?_
      exact (within_checkWip engine _ context).mono (by decide)

theorem within_cleanTitle (title : PyStr) : Within [] (Task.cleanTitle title) := by
  unfold Task.cleanTitle
  split
  · exact fun _ heq => (nomatch heq)
  · exact within_ok _

theorem within_applyPatch (t : Task) (fields : PatchFields) : Within [] (t.applyPatch fields) := by
  unfold Task.applyPatch
  split
  · exact fun _ heq => (nomatch heq)
  · refine Within.bind ?_ fun _ => within_ok _
    unfold Task.patchTitle
    split
    · exact within_ok _
    · exact (within_cleanTitle _).bind fun _ => within_ok _

end Checks

/-! ## Use cases -/

section UseCases

variable [Unicode]

theorem refuses_newEvent (body : EventBody) : Refuses [] (newEvent body) :=
  refuses_of_straight (newEvent_straight body) fun _ h => h

theorem refuses_stageEvents (events : List Event) : Refuses [] (stageEvents events) :=
  refuses_of_straight (stageEvents_straight events) fun _ h => h

theorem refuses_context (engine : Engine) (roles : List PyStr) (a b : Option PyStr) :
    Refuses [] (context engine roles a b) :=
  refuses_of_straight (context_straight engine roles a b) fun _ h => h

theorem refuses_stageTags (taskId : Uuid) (names : Option (List PyStr)) :
    Refuses [] (stageTags taskId names) :=
  refuses_of_straight (stageTags_straight taskId names) fun _ h => nomatch h

theorem refuses_get (taskId : Uuid) : Refuses [.taskNotFound] (Repository.get taskId) := by
  refine (refuses_perform (.getTask taskId)).bind fun found => ?_
  cases found with
  | none => exact refuses_throw List.mem_cons_self
  | some task => exact refuses_return task

/-- The stored definition parses, so all there is to raise is that there is none. -/
theorem refuses_activeEngine : Refuses [.internalError] activeEngine := by
  refine Refuses.bind ?_ fun stored => refuses_return _
  refine Answered.bind (Q := fun r => Given .selectActive r)
    (answered_call fun r hr => hr) (fun found hfound => ?_) fun e he e' heq => ?_
  · cases found with
    | none => exact refuses_throw List.mem_cons_self
    | some record =>
      obtain ⟨w, hw⟩ := hfound record rfl
      have hparse : parseOrRaise record.document = .ok w := by
        rw [parseOrRaise, hw]
        rfl
      refine (refuses_lift ?_).bind fun _ => refuses_return _
      rw [hparse]
      exact within_ok w
  · obtain ⟨refused, rfl⟩ := given_error he
    cases heq

theorem refuses_guardedEngine : Refuses [.internalError] guardedEngine :=
  (refuses_perform (.acquireGuard _)).bind fun _ => refuses_activeEngine

theorem refuses_translate (title : PyStr) {codes : List ErrorCode} {e : Exn}
    (he : Within codes (.error e : Except Exn Unit)) (hcodes : .duplicateTask ∈ codes) :
    Refuses codes (Repository.translate title e) := by
  unfold Repository.translate
  split
  · refine (refuses_perform .rollback).bind fun _ => ?_
    split
    · exact refuses_throw hcodes
    · exact fun _ heq => (nomatch heq)
  · exact he

theorem refuses_echoTitle (rawTitle : PyStr) {e : Exn}
    (he : Within [.duplicateTask] (.error e : Except Exn Unit)) :
    Refuses [.duplicateTask] (echoTitle rawTitle e) := by
  unfold echoTitle
  split
  · exact refuses_throw List.mem_cons_self
  · exact he

theorem refuses_stageNew (task : Task) (rawTitle : PyStr) :
    Refuses [.duplicateTask] (stageNew task rawTitle) := by
  refine Refuses.tryCatch ?_ fun e he => refuses_echoTitle rawTitle he
  refine (refuses_perform (.add (.task task))).bind fun _ => ?_
  exact (refuses_perform .flush).tryCatch fun e he =>
    refuses_translate task.title he List.mem_cons_self

theorem refuses_persist (task : Task) (events : List Event) (rawTitle : PyStr) :
    Refuses [.duplicateTask] (persist task events rawTitle) := by
  refine Refuses.tryCatch ?_ fun e he => refuses_echoTitle rawTitle he
  refine (refuses_perform (.add (.task task))).bind fun _ => ?_
  refine ((refuses_stageEvents events).mono (List.nil_subset _)).bind fun _ => ?_
  exact (refuses_perform .commit).tryCatch fun e he =>
    refuses_translate task.title he List.mem_cons_self

theorem refuses_persistUpdate (updated previous : Task) (engine : Option Engine)
    (rawTitle : PyStr) (extra : Option Event) :
    Refuses [.duplicateTask] (persistUpdate updated previous engine rawTitle extra) := by
  have hevents : Refuses [] (updateEvents updated previous engine) :=
    refuses_of_straight (updateEvents_straight updated previous engine) fun e h => h.1 e rfl
  refine (hevents.mono (List.nil_subset _)).bind fun events => ?_
  dsimp only
  split
  · exact refuses_persist updated _ rawTitle
  · exact refuses_return _

def createCodes : List ErrorCode :=
  [.internalError, .unknownStatus, .invalidTransition, .wipLimitExceeded, .duplicateTask]

def replaceCodes : List ErrorCode :=
  [.internalError, .taskNotFound, .unknownStatus, .invalidTransition, .transitionForbidden,
    .wipLimitExceeded, .duplicateTask]

def patchCodes : List ErrorCode := .emptyUpdate :: replaceCodes

/-- The codes of a route. That of a 500 is for a server without a definition. -/
def raised : Route → List ErrorCode
  | .createTask => createCodes
  | .replaceTask => replaceCodes
  | .patchTask => patchCodes
  | .deleteTask => [.taskNotFound]
  | .taskTransitions => [.internalError, .taskNotFound]
  | .deleteTag => [.tagNotFound, .tagInUse]
  | .replaceWorkflow => [.invalidWorkflowDefinition, .workflowStatesInUse]

theorem refuses_create (title : PyStr) (description status : Option PyStr) (priority : Int)
    (tags : Option (List PyStr)) :
    Refuses createCodes (create title description status priority tags) := by
  refine (refuses_guardedEngine.mono (by decide)).bind fun engine => ?_
  refine ((refuses_context engine [] none status).mono (List.nil_subset _)).bind fun context => ?_
  refine (refuses_lift ((within_resolveEntry engine status context).mono (by decide))).bind
    fun resolved => ?_
  refine (refuses_perform .uuid7).bind fun id => (refuses_perform .now).bind fun createdAt => ?_
  refine (refuses_lift (Within.bind ((within_cleanTitle title).mono (List.nil_subset _)) fun _ =>
    within_ok _)).bind fun task => ?_
  refine (refuses_lift ((within_snapshot task).mono (List.nil_subset _))).bind fun snapshot => ?_
  refine ((refuses_newEvent _).mono (List.nil_subset _)).bind fun created => ?_
  refine Refuses.bind ?_ fun tagEvents =>
    ((refuses_persist task _ title).mono (by decide)).bind fun _ => refuses_return _
  unfold createTags
  split
  · exact refuses_return _
  · exact refuses_return _
  · exact ((refuses_stageNew task title).mono (by decide)).bind fun _ =>
      ((refuses_stageTags _ _).mono (List.nil_subset _)).bind fun _ => refuses_return _

theorem refuses_replace (taskId : Uuid) (title : PyStr) (description status : Option PyStr)
    (priority : Int) (tags : Option (List PyStr)) (roles : List PyStr) :
    Refuses replaceCodes (replace taskId title description status priority tags roles) := by
  refine (refuses_guardedEngine.mono (by decide)).bind fun engine => ?_
  refine ((refuses_get taskId).mono (by decide)).bind fun task => ?_
  refine ((refuses_context engine roles _ _).mono (List.nil_subset _)).bind fun context => ?_
  refine (refuses_lift ((within_checkMove engine _ _ context).mono (by decide))).bind fun _ => ?_
  refine (refuses_lift ((within_snapshot task).mono (List.nil_subset _))).bind fun previous => ?_
  refine ((refuses_stageTags _ _).mono (List.nil_subset _)).bind fun tagEvent => ?_
  refine (refuses_lift (Within.bind ((within_cleanTitle title).mono (List.nil_subset _)) fun _ =>
    within_ok _)).bind fun updated => ?_
  refine (refuses_perform (.setTask updated)).bind fun _ => ?_
  exact ((refuses_persistUpdate updated previous _ title tagEvent).mono (by decide)).bind
    fun _ => refuses_return _

theorem refuses_patch (taskId : Uuid) (fields : PatchFields) (roles : List PyStr) :
    Refuses patchCodes (patch taskId fields roles) := by
  unfold patch
  split
  · exact refuses_throw List.mem_cons_self
  refine Refuses.bind ?_ fun engine => ?_
  · unfold patchEngine
    split
    · exact (refuses_guardedEngine.mono (by decide)).bind fun _ => refuses_return _
    · exact refuses_return _
  refine ((refuses_get taskId).mono (by decide)).bind fun task => Refuses.bind ?_ fun _ => ?_
  · unfold checkPatch
    split
    · exact ((refuses_context _ roles _ _).mono (List.nil_subset _)).bind fun context =>
        refuses_lift ((within_checkMove _ _ _ context).mono (by decide))
    · exact refuses_return _
  refine (refuses_lift ((within_snapshot task).mono (List.nil_subset _))).bind fun previous => ?_
  refine ((refuses_stageTags _ _).mono (List.nil_subset _)).bind fun tagEvent => ?_
  refine (refuses_lift ((within_applyPatch task fields).mono (List.nil_subset _))).bind
    fun updated => ?_
  refine (refuses_perform (.setTask updated)).bind fun _ => ?_
  exact ((refuses_persistUpdate updated previous engine _ tagEvent).mono (by decide)).bind
    fun _ => refuses_return _

theorem refuses_delete (taskId : Uuid) : Refuses [.taskNotFound] (Tasks.delete taskId) := by
  refine (refuses_get taskId).bind fun task => ?_
  refine (refuses_lift ((within_snapshot task).mono (List.nil_subset _))).bind fun snapshot => ?_
  refine ((refuses_newEvent _).mono (List.nil_subset _)).bind fun event => ?_
  refine (refuses_perform (.deleteTask task)).bind fun _ => ?_
  exact ((refuses_stageEvents [event]).mono (List.nil_subset _)).bind fun _ =>
    refuses_perform .commit

theorem refuses_legalMoves (taskId : Uuid) :
    Refuses [.internalError, .taskNotFound] (Tasks.legalMoves taskId) := by
  refine (refuses_activeEngine.mono (by decide)).bind fun engine => ?_
  refine ((refuses_get taskId).mono (by decide)).bind fun task => ?_
  exact (refuses_lift ((within_orValueError _).mono (List.nil_subset _))).bind fun _ =>
    refuses_return _

theorem refuses_deleteTag (tagId : Uuid) :
    Refuses [.tagNotFound, .tagInUse] (Tags.deleteTag tagId) := by
  refine (refuses_perform (.getTag tagId)).bind fun found => ?_
  cases found with
  | none => exact refuses_throw List.mem_cons_self
  | some tag =>
    refine (refuses_perform (.countTaskTags tagId)).bind fun inUse => ?_
    dsimp only
    split
    · exact refuses_throw (List.mem_cons_of_mem _ List.mem_cons_self)
    · refine ((refuses_newEvent _).mono (List.nil_subset _)).bind fun event => ?_
      refine (refuses_perform (.deleteTag tag)).bind fun _ => ?_
      exact ((refuses_stageEvents [event]).mono (List.nil_subset _)).bind fun _ =>
        refuses_perform .commit

theorem refuses_repositoryReplaceActive (workflow : Workflow)
    {makeEvents : Nat → SessionProg (List Event)} (hevents : ∀ n, Refuses [] (makeEvents n)) :
    Refuses [] (Workflows.Repository.replaceActive workflow makeEvents) := by
  refine (refuses_perform .selectMaxVersion).bind fun highest => ?_
  refine (refuses_perform .now).bind fun createdAt => (refuses_perform (.add _)).bind fun _ => ?_
  exact (hevents _).bind fun events => (refuses_stageEvents events).bind fun _ =>
    (refuses_perform .commit).bind fun _ => refuses_return _

theorem refuses_replaceActive (document : Json) :
    Refuses [.invalidWorkflowDefinition, .workflowStatesInUse]
      (Workflows.replaceActive document) := by
  refine Refuses.bind (refuses_lift ?_) fun workflow => ?_
  · unfold parseOrRaise
    cases workflowFromDocument document with
    | ok workflow => exact within_ok workflow
    | error problems => exact within_app List.mem_cons_self
  refine (refuses_perform (.acquireGuard _)).bind fun _ => ?_
  refine (refuses_perform .countByStatus).bind fun counts => ?_
  dsimp only
  split
  · exact refuses_throw (List.mem_cons_of_mem _ List.mem_cons_self)
  · exact (refuses_repositoryReplaceActive workflow fun version =>
      (refuses_newEvent _).bind fun event => refuses_return _).mono (List.nil_subset _)

theorem refuses_seed : Refuses [] seedWorkflowIfMissing := by
  refine (refuses_perform (.acquireGuard _)).bind fun _ => ?_
  refine (refuses_perform .selectDefinitionId).bind fun any => ?_
  split
  · exact refuses_return _
  · exact (refuses_lift (within_orValueError _)).bind fun workflow =>
      (refuses_repositoryReplaceActive workflow fun _ => refuses_return _).bind fun _ =>
        refuses_return _

/-- **The codes of each call**: those of its route. The seed has none. -/
theorem refuses_call (call : Call) :
    Refuses ((route? call).elim [] raised) call.program := by
  cases call with
  | create title description status priority tags =>
    exact (refuses_create title description status priority tags).bind fun t =>
      refuses_return (Reply.task t)
  | replace taskId title description status priority tags roles =>
    exact (refuses_replace taskId title description status priority tags roles).bind fun t =>
      refuses_return (Reply.task t)
  | patch taskId fields roles =>
    exact (refuses_patch taskId fields roles).bind fun t => refuses_return (Reply.task t)
  | delete taskId => exact (refuses_delete taskId).bind fun _ => refuses_return _
  | legalMoves taskId => exact (refuses_legalMoves taskId).bind fun _ => refuses_return _
  | deleteTag tagId => exact (refuses_deleteTag tagId).bind fun _ => refuses_return _
  | replaceActive document =>
    exact (refuses_replaceActive document.1).bind fun _ => refuses_return _
  | seed => exact refuses_seed.bind fun _ => refuses_return _

end UseCases

/-! ## What is raised is documented -/

/-- The status of a code. -/
def statusOf : ErrorCode → Nat
  | .transitionForbidden => 403
  | .taskNotFound | .tagNotFound => 404
  | .duplicateTask | .invalidTransition | .wipLimitExceeded | .workflowStatesInUse | .tagInUse =>
    409
  | .payloadTooLarge => 413
  | .validationError | .emptyUpdate | .readOnlyField | .unknownStatus
  | .invalidWorkflowDefinition => 422
  | .internalError => 500
  | .serviceUnavailable => 503
  | .requestTimeout => 504

theorem statusCode_eq (e : AppError) : statusCode e = statusOf (errorCode e) := by
  cases e <;> rfl

theorem documents_of_raised {route : Route} {e : AppError} (h : errorCode e ∈ raised route)
    (he : e ≠ .noActiveWorkflow) : Documents (responses route) e ∨ Misnames route e := by
  have hcodes : ∀ code ∈ raised route, code ≠ .internalError →
      (∃ entry ∈ responses route, entry.1 = statusOf code ∧ code ∈ entry.2.codes)
        ∨ route = .deleteTag ∧ code = .tagNotFound
          ∧ (statusOf code, notFoundResponse) ∈ responses route := by
    cases route <;> decide
  have hcode : errorCode e ≠ .internalError := by
    cases e <;> first | exact absurd rfl he | exact fun h => nomatch h
  rw [Misnames, statusCode_eq]
  refine (hcodes _ h hcode).imp_left ?_
  rintro ⟨⟨status, examples⟩, hentry, rfl, hshown⟩
  exact ⟨examples, by rw [statusCode_eq]; exact hentry, hshown⟩

/-- What is documented so shows another code. -/
theorem Misnames.not_documents {route : Route} {e : AppError} (h : Misnames route e) :
    ¬ Documents (responses route) e := by
  obtain ⟨rfl, hcode, -⟩ := h
  have hcodes : ∀ entry ∈ responses .deleteTag, .tagNotFound ∉ entry.2.codes := by decide
  rintro ⟨examples, hentry, hshown⟩
  exact hcodes _ hentry (hcode ▸ hshown)

section Worlds

variable [Unicode] [Jsonb] [Runtime]

/-- What a session is answered in its turn. -/
theorem given_of_turn {call : Call} {o : Op} {tx : Tx} {notes : Notes} {st : Server}
    {others : List NotedSession} (h : Turn call o tx notes st others) :
    Given o (exec o tx st).1 := by
  cases hr : (exec o tx st).1 with
  | error e =>
    rcases exec_cases o tx st with ⟨refused, -, -, heq⟩ | ⟨-, a, heq⟩ <;> rw [heq] at hr
    · obtain rfl := Except.error.inj hr
      cases o <;> exact ⟨refused, rfl⟩
    · cases hr
  | ok a =>
    cases o with
    | selectActive =>
      have hactive : Answer.Holds st.db (.definition a) := holds_of_answer h.owed hr rfl
      rintro record hrecord
      obtain rfl := Option.mem_def.1 hrecord
      obtain ⟨w, hw⟩ := h.inv.sourced.exists_activeWorkflow hactive.symm
      obtain ⟨row, hrow, hparse⟩ := activeWorkflow_eq_some.1 hw
      obtain rfl := Option.some.inj (hactive.trans hrow)
      exact ⟨w, hparse⟩
    | _ => trivial

/-- **In every interleaving an error is one its route documents**: with its status and its code,
but for the code of a missing tag. It is answered so exactly when its texts have a UTF-8 encoding,
and else as the error of a 500. -/
theorem refused_as_documented [FloatText] (request : Request) {world : World}
    (h : world.Reachable) {session : Interleaving.Thread Res Exn Reply Tx Call}
    (hsession : session ∈ world.threads) {e : AppError} (hraised : session.prog = .raise (.app e))
    (hdefined : e ≠ .noActiveWorkflow) :
    (∃ route, route? session.tag = some route
        ∧ (Documents (responses route) e ∨ Misnames route e))
      ∧ (Answers request (.app e) (statusCode e) (errorCode e) ↔ ∀ s ∈ texts e, Encodable s)
      ∧ ((¬ ∀ s ∈ texts e, Encodable s) → Answers request (.app e) 500 .internalError) := by
  refine ⟨?_, answers_iff hdefined, internal_of_texts⟩
  obtain ⟨noted, hnoted, rfl⟩ := exists_noted h
  obtain ⟨th, hth, rfl⟩ := List.mem_map.1 hsession
  have hanswered : Answered Given (Within ((route? th.tag).elim [] raised)) th.prog :=
    Interleaving.answered_of_reaches (S := NotedWorld.Reachable)
      (Q := fun call => Within ((route? call).elim [] raised)) (fun h => h) refuses_call
      (fun hreach hpermitted => given_of_turn (hreach.orderly.turn hpermitted)) hnoted th hth
  change th.prog = .raise (.app e) at hraised
  rw [hraised] at hanswered
  have hcode : errorCode e ∈ (route? th.tag).elim [] raised := hanswered e rfl
  show ∃ route, route? th.tag = some route ∧ _
  cases hroute : route? th.tag with
  | none =>
    rw [hroute] at hcode
    cases hcode
  | some route =>
    rw [hroute] at hcode
    exact ⟨route, rfl, documents_of_raised hcode hdefined⟩

end Worlds

/-! ## Each code is raised -/

section Guarded

open TaskService.Sequential Plain
open scoped Unprinted

/-- A full state that tasks start in or move to, one that a role leads to, and one beyond it. -/
def guardedDocument : {d : Json // d.Wf} :=
  ⟨document [.dict [(py "name", .str (py "open")), (py "initial", .bool true)],
      .dict [(py "name", .str (py "full")), (py "initial", .bool true), (py "wip_limit", .int 0)],
      .str (py "kept"), .str (py "far")]
    [.dict [(py "name", .str (py "Fill")), (py "from", .str (py "open")),
        (py "to", .str (py "full"))],
      .dict [(py "name", .str (py "Keep")), (py "from", .str (py "open")),
        (py "to", .str (py "kept")), (py "roles", .list [.str (py "lead")])],
      .dict [(py "name", .str (py "Leave")), (py "from", .str (py "kept")),
        (py "to", .str (py "far"))]], by
    rw [document_wf_iff]
    simp
    decide⟩

/-- The server with that definition and two tasks in `open`, one of them tagged. -/
def guarded : Server :=
  let defined := (serve (.replaceActive guardedDocument) ⟨.empty, 0⟩).2
  (serve (.create (py "B") none none 3 (some [py "x"]))
    (serve (.create (py "A") none none 3 none) defined).2).2

theorem reachable_guarded : Reachable guarded :=
  .tail (.create (py "B") none none 3 (some [py "x"])) (.tail (.create (py "A") none none 3 none)
    (.tail (.replaceActive guardedDocument) .refl rfl) rfl) rfl

/-- The code a call is refused with. -/
def refusal (call : Call) (st : Server) : Option ErrorCode :=
  match (serve call st).1 with
  | .error (.app e) => some (errorCode e)
  | _ => none

theorem exists_of_refusal {call : Call} {st : Server} {code : ErrorCode}
    (h : refusal call st = some code) :
    ∃ e, (serve call st).1 = .error (.app e) ∧ errorCode e = code := by
  unfold refusal at h
  split at h
  next e hserve => exact ⟨e, hserve, Option.some.inj h⟩
  next => cases h

/-- A status that a task in `open` is refused so. -/
def statusFor : ErrorCode → PyStr
  | .unknownStatus => py "ghost"
  | .invalidTransition => py "far"
  | .wipLimitExceeded => py "full"
  | .transitionForbidden => py "kept"
  | _ => py "open"

/-- A call that is refused so. -/
def probe : Route → ErrorCode → Call
  | .createTask, code =>
    .create (if code = .duplicateTask then py " b" else py "C") none (some (statusFor code)) 3 none
  | .replaceTask, code =>
    .replace (if code = .taskNotFound then 0 else forkTask)
      (if code = .duplicateTask then py " b" else py "C") none (some (statusFor code)) 3 none []
  | .patchTask, .emptyUpdate => .patch forkTask ⟨none, none, none, none, none, []⟩ []
  | .patchTask, code =>
    .patch (if code = .taskNotFound then 0 else forkTask)
      ⟨some (if code = .duplicateTask then py " b" else py "C"), none, some (statusFor code), none,
        none, []⟩ []
  | .deleteTask, _ => .delete 0
  | .taskTransitions, _ => .legalMoves 0
  | .deleteTag, code => .deleteTag (if code = .tagNotFound then 0 else 13)
  | .replaceWorkflow, code =>
    .replaceActive (if code = .workflowStatesInUse then forkDocument else ⟨.null, trivial⟩)

/-- **Each code of a route is raised**: what the routers document, they list for good reason. -/
theorem exists_raised (route : Route) : ∀ code ∈ raised route, ∃ st call e, Reachable st
    ∧ route? call = some route ∧ (serve call st).1 = .error (.app e) ∧ errorCode e = code := by
  have hprobe : ∀ code ∈ raised route, route? (probe route code) = some route ∧
      refusal (probe route code) (if code = .internalError then ⟨.empty, 0⟩ else guarded)
        = some code := by
    cases route <;> decide +kernel
  intro code hcode
  obtain ⟨hroute, hrefusal⟩ := hprobe code hcode
  obtain ⟨e, he⟩ := exists_of_refusal hrefusal
  refine ⟨_, probe route code, e, ?_, hroute, he⟩
  split
  · exact .refl
  · exact reachable_guarded

/-- Deletions of a task and of a tag that are not there. -/
theorem refused_as_documented_delete : (∃ world : World, world.Reachable
    ∧ ∃ session ∈ world.threads, session.tag = .delete 0
      ∧ session.prog = .raise (.app (.taskNotFound 0))
      ∧ Documents (responses .deleteTask) (.taskNotFound 0)
      ∧ Answers ⟨none⟩ (.app (.taskNotFound 0)) 404 .taskNotFound)
    ∧ ∃ world : World, world.Reachable
      ∧ ∃ session ∈ world.threads, session.tag = .deleteTag 0
        ∧ session.prog = .raise (.app (.tagNotFound 0))
        ∧ ¬ Documents (responses .deleteTag) (.tagNotFound 0)
        ∧ Answers ⟨none⟩ (.app (.tagNotFound 0)) 404 .tagNotFound := by
  refine ⟨?_, ?_⟩
  · have hreach : World.Reachable _ :=
      @Interleaving.reaches_ended _ _ _ _ _ _ _ rules (.delete 0) ⟨.empty, 0⟩
    obtain ⟨⟨route, hroute, hdocumented⟩, hanswers, -⟩ :=
      refused_as_documented ⟨none⟩ hreach List.mem_cons_self rfl (by decide)
    obtain rfl := Option.some.inj hroute
    have hdocuments := hdocumented.resolve_right fun h => nomatch h.1
    exact ⟨_, hreach, _, List.mem_cons_self, rfl, rfl, hdocuments,
      hanswers.2 fun _ h => absurd h List.not_mem_nil⟩
  · have hreach : World.Reachable _ :=
      @Interleaving.reaches_ended _ _ _ _ _ _ _ rules (.deleteTag 0) ⟨.empty, 0⟩
    obtain ⟨-, hanswers, -⟩ :=
      refused_as_documented ⟨none⟩ hreach List.mem_cons_self rfl (by decide)
    have hmisnamed : Misnames .deleteTag (.tagNotFound 0) := ⟨rfl, rfl, by decide⟩
    exact ⟨_, hreach, _, List.mem_cons_self, rfl, rfl, hmisnamed.not_documents,
      hanswers.2 fun _ h => absurd h List.not_mem_nil⟩

/-- **A status that is half of a surrogate pair**: a documented error, answered as that of a
500. -/
theorem half_status_answered : ∃ e,
    (serve (.patch forkTask (statusPatch [0xD800]) []) guarded).1 = .error (.app e)
      ∧ Documents (responses .patchTask) e ∧ Answers ⟨none⟩ (.app e) 500 .internalError := by
  have hrefused : (match (serve (.patch forkTask (statusPatch [0xD800]) []) guarded).1 with
      | .error (.app e) => decide (errorCode e = .unknownStatus ∧ [0xD800] ∈ texts e)
      | _ => false) = true := by decide +kernel
  generalize (serve (.patch forkTask (statusPatch [0xD800]) []) guarded).1 = r at hrefused ⊢
  match r with
  | .error (.app e) =>
    obtain ⟨hcode, htext⟩ := of_decide_eq_true hrefused
    have hdefined : e ≠ .noActiveWorkflow := fun heq => by
      rw [heq] at hcode
      cases hcode
    have hmem : errorCode e ∈ raised .patchTask := by
      rw [hcode]
      decide
    refine ⟨e, rfl, (documents_of_raised hmem hdefined).resolve_right fun h => (nomatch h.1), ?_⟩
    exact internal_of_texts fun htexts => absurd (htexts _ htext) (by decide)

end Guarded

end TaskService.Api
