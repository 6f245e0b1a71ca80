import TaskService.Core.Envelope
import TaskService.Core.Wire

/-!
# How exceptions are answered

The handlers of `core/errors.py` for what a use case raises. An application error is answered with
its status, its code and its details; what no handler renders, and every other exception, becomes
the error of a 500.

* **`renderable_details`**: details render when the texts an error quotes have a UTF-8 encoding.
* **`answers_iff`**: exactly then the error is answered as itself.
-/

namespace TaskService.Api

open Json Workflows

/-! ## Codes -/

/-- `ErrorCode`, all of it. -/
inductive ErrorCode where
  | validationError
  | emptyUpdate
  | readOnlyField
  | duplicateTask
  | taskNotFound
  | invalidTransition
  | unknownStatus
  | transitionForbidden
  | wipLimitExceeded
  | invalidWorkflowDefinition
  | workflowStatesInUse
  | tagNotFound
  | tagInUse
  | payloadTooLarge
  | requestTimeout
  | serviceUnavailable
  | internalError
  deriving DecidableEq

def ErrorCode.value : ErrorCode → PyStr
  | .validationError => py "validation_error"
  | .emptyUpdate => py "empty_update"
  | .readOnlyField => py "read_only_field"
  | .duplicateTask => py "duplicate_task"
  | .taskNotFound => py "task_not_found"
  | .invalidTransition => py "invalid_transition"
  | .unknownStatus => py "unknown_status"
  | .transitionForbidden => py "transition_forbidden"
  | .wipLimitExceeded => py "wip_limit_exceeded"
  | .invalidWorkflowDefinition => py "invalid_workflow_definition"
  | .workflowStatesInUse => py "workflow_states_in_use"
  | .tagNotFound => py "tag_not_found"
  | .tagInUse => py "tag_in_use"
  | .payloadTooLarge => py "payload_too_large"
  | .requestTimeout => py "request_timeout"
  | .serviceUnavailable => py "service_unavailable"
  | .internalError => py "internal_error"

/-- `error_code`. -/
def errorCode : AppError → ErrorCode
  | .duplicateTask _ => .duplicateTask
  | .taskNotFound _ => .taskNotFound
  | .emptyUpdate => .emptyUpdate
  | .invalidTransition .. => .invalidTransition
  | .unknownStatus .. => .unknownStatus
  | .transitionForbidden .. => .transitionForbidden
  | .wipLimitExceeded .. => .wipLimitExceeded
  | .workflowValidation _ => .invalidWorkflowDefinition
  | .workflowStatesInUse _ => .workflowStatesInUse
  | .noActiveWorkflow => .internalError
  | .tagNotFound _ => .tagNotFound
  | .tagInUse .. => .tagInUse

/-- `status_code`, that of the class or of the one it is derived from. -/
def statusCode : AppError → Nat
  | .transitionForbidden .. => 403
  | .taskNotFound _ | .tagNotFound _ => 404
  | .duplicateTask _ | .invalidTransition .. | .wipLimitExceeded .. | .workflowStatesInUse _
  | .tagInUse .. => 409
  | .emptyUpdate | .unknownStatus .. | .workflowValidation _ => 422
  | .noActiveWorkflow => 500

/-- `detail`. -/
def detail : AppError → PyStr
  | .duplicateTask _ => py "A task with this title already exists."
  | .taskNotFound _ => py "Task not found."
  | .emptyUpdate => py "PATCH body must contain at least one field."
  | .invalidTransition .. => py "The active workflow does not allow this move."
  | .unknownStatus .. => py "Unknown workflow state."
  | .transitionForbidden .. => py "You do not have a role permitted to make this transition."
  | .wipLimitExceeded .. => py "The target state is at its work-in-progress limit."
  | .workflowValidation _ => py "Workflow definition is invalid."
  | .workflowStatesInUse _ =>
    py "Definition would leave existing tasks in states it does not define."
  | .noActiveWorkflow => py "No active workflow definition is stored."
  | .tagNotFound _ => py "Tag not found."
  | .tagInUse .. => py "Tag is still applied to one or more tasks."

/-! ## Details -/

def strings (names : List PyStr) : Json := .list (names.map .str)

variable [Unicode]

/-- `details`. -/
def details : AppError → List (PyStr × Json)
  | .duplicateTask title => [(py "title", .str title)]
  | .taskNotFound id | .tagNotFound id => [(py "id", .str (uuidText id))]
  | .emptyUpdate | .noActiveWorkflow => []
  | .invalidTransition fromStatus toStatus allowed =>
    [(py "from", (fromStatus.map Json.str).getD .null), (py "to", .str toStatus),
      (py "allowed", strings allowed)]
  | .unknownStatus value knownStates =>
    [(py "field", .str (py "status")), (py "value", .str value),
      (py "known_states", strings knownStates)]
  | .transitionForbidden transition requiredRoles actorRoles =>
    [(py "transition", .str transition), (py "required_roles", strings requiredRoles),
      (py "actor_roles", strings actorRoles)]
  | .wipLimitExceeded state limit current =>
    [(py "state", .str state), (py "limit", .int limit), (py "current", .int current)]
  | .workflowValidation errors => [(py "errors", strings (errors.map Problem.text))]
  | .workflowStatesInUse states =>
    [(py "states", .dict (states.map fun kv => (kv.1, .int kv.2)))]
  | .tagInUse id name taskCount =>
    [(py "id", .str (uuidText id)), (py "name", .str name), (py "task_count", .int taskCount)]

/-- The texts an error quotes from the request or from the tables. -/
def texts : AppError → List PyStr
  | .duplicateTask title => [title]
  | .taskNotFound _ | .tagNotFound _ | .emptyUpdate | .noActiveWorkflow => []
  | .invalidTransition fromStatus toStatus allowed => fromStatus.toList ++ toStatus :: allowed
  | .unknownStatus value knownStates => value :: knownStates
  | .transitionForbidden transition requiredRoles actorRoles =>
    transition :: requiredRoles ++ actorRoles
  | .wipLimitExceeded state _ _ => [state]
  | .workflowValidation errors => errors.map Problem.text
  | .workflowStatesInUse states => states.map Prod.fst
  | .tagInUse _ name _ => [name]

omit [Unicode] in
theorem encodable_uuidText (id : Uuid) : Encodable (uuidText id) := by
  have hdigits : ∀ c ∈ hex 32 id, isSurrogate c = false := encodable_hex 32 id
  have htake : ∀ n m, Encodable (((hex 32 id).drop n).take m) :=
    fun n m c hc => hdigits c (List.mem_of_mem_drop (List.mem_of_mem_take hc))
  simp only [uuidText, encodable_append, encodable_py, htake, and_true]
  exact ⟨htake 0 8, fun c hc => hdigits c (List.mem_of_mem_drop hc)⟩

omit [Unicode] in
theorem renderable_strings {names : List PyStr} :
    (strings names).Renderable ↔ ∀ name ∈ names, Encodable name := by
  rw [strings, renderable_list, List.forall_mem_map]
  exact forall₂_congr fun _ _ => renderable_str

/-- **Details render when the texts they quote have a UTF-8 encoding.** -/
theorem renderable_details (e : AppError) :
    (Json.dict (details e)).Renderable ↔ ∀ s ∈ texts e, Encodable s := by
  cases e with
  | invalidTransition fromStatus toStatus allowed =>
    cases fromStatus <;>
      simp [details, texts, renderable_dict, renderable_str, renderable_null, renderable_strings,
        encodable_py]
  | workflowStatesInUse states =>
    simp only [details, texts, renderable_dict, List.forall_mem_singleton, encodable_py, true_and,
      List.forall_mem_map]
    exact forall₂_congr fun kv _ => and_iff_left (renderable_int _)
  | _ =>
    simp [details, texts, renderable_dict, renderable_str, renderable_strings, renderable_int,
      encodable_py, encodable_uuidText, or_imp, forall_and]

/-! ## Handlers -/

section Handlers

variable [FloatText]

/-- `ErrorEnvelope`, dumped, for any code. -/
def errorEnvelope (code : ErrorCode) (message : PyStr) (details : List (PyStr × Json))
    (requestId : Option {s : PyStr // Encodable s}) : Json :=
  .dict [(py "error", .dict [
    (py "code", .str code.value),
    (py "message", .str message),
    (py "details", .dict details),
    (py "request_id", match requestId with
      | some id => .str id.1
      | none => .null)])]

/-- `build_error_response`, for any code. -/
def buildErrorResponse (request : Request) (code : ErrorCode) (message : PyStr)
    (details : List (PyStr × Json)) (status : Nat) : Except RenderError Response :=
  jsonResponse status (errorEnvelope code message details request.requestId)

/-- `_app_error_handler`. -/
def appErrorHandler (request : Request) (e : AppError) : Except RenderError Response :=
  buildErrorResponse request (errorCode e) (detail e) (details e) (statusCode e)

/-- `_unhandled_exception_handler`: the defaults of `AppError`. -/
def unhandledExceptionHandler (request : Request) : Except RenderError Response :=
  buildErrorResponse request .internalError (py "An unexpected internal server error occurred.") []
    500

/-- The response to an exception. One that a handler raises is handled as any other. -/
def respond (request : Request) : Exn → Except RenderError Response
  | .app e =>
    (appErrorHandler request e).tryCatch fun _ => unhandledExceptionHandler request
  | _ => unhandledExceptionHandler request

/-- The code, among all of them, that the handler of validation errors sends. -/
def ofValidation : TaskService.ErrorCode → ErrorCode
  | .validationError => .validationError
  | .readOnlyField => .readOnlyField

omit [Unicode] [FloatText] in
/-- That handler sends the same envelope. -/
theorem envelope_eq (code : TaskService.ErrorCode) (message : PyStr)
    (details : List (PyStr × Json)) (requestId : Option {s : PyStr // Encodable s}) :
    envelope code message details requestId
      = errorEnvelope (ofValidation code) message details requestId := by
  cases code <;> rfl

omit [Unicode] [FloatText] in
theorem renderable_errorEnvelope {code : ErrorCode} {message : PyStr}
    {details : List (PyStr × Json)} {requestId : Option {s : PyStr // Encodable s}} :
    (errorEnvelope code message details requestId).Renderable ↔
      Encodable message ∧ (Json.dict details).Renderable := by
  have hcode : Encodable code.value := by cases code <;> exact encodable_py _
  have hid : (match requestId with
      | some id => Json.str id.1
      | none => .null).Renderable := by
    cases requestId with
    | none => exact renderable_null
    | some id => exact renderable_str.mpr id.2
  show (Json.dict [(py "error", Json.dict _)]).Renderable ↔ _
  rw [renderable_dict, List.forall_mem_singleton, renderable_dict]
  simp only [List.forall_mem_cons, encodable_py, renderable_str, hcode, true_and, hid]
  exact and_congr_right fun _ => and_iff_left fun _ h => nomatch h

/-! ## What is answered -/

/-- The exception is answered with this status and this code, in the envelope. -/
def Answers (request : Request) (e : Exn) (status : Nat) (code : ErrorCode) : Prop :=
  ∃ response message details, respond request e = .ok response ∧ response.status = status
    ∧ response.content = errorEnvelope code message details request.requestId

omit [Unicode] in
theorem buildErrorResponse_eq_ok {request : Request} {code : ErrorCode} {message : PyStr}
    {details : List (PyStr × Json)} {status : Nat} {response : Response} :
    buildErrorResponse request code message details status = .ok response ↔
      (Encodable message ∧ (Json.dict details).Renderable) ∧ response.status = status
        ∧ response.content = errorEnvelope code message details request.requestId := by
  rw [buildErrorResponse, jsonResponse_eq_ok, renderable_errorEnvelope]

omit [Unicode] in
theorem exists_buildErrorResponse (request : Request) (code : ErrorCode) {message : PyStr}
    {details : List (PyStr × Json)} (status : Nat) (hmessage : Encodable message)
    (hdetails : (Json.dict details).Renderable) :
    ∃ response, buildErrorResponse request code message details status = .ok response :=
  exists_jsonResponse status (renderable_errorEnvelope.2 ⟨hmessage, hdetails⟩)

omit [Unicode] in
/-- The defaults always render. -/
theorem exists_unhandledExceptionHandler (request : Request) :
    ∃ response, unhandledExceptionHandler request = .ok response :=
  exists_buildErrorResponse request .internalError 500 (encodable_py _)
    (renderable_dict.2 fun _ h => nomatch h)

omit [Unicode] [FloatText] in
theorem encodable_detail (e : AppError) : Encodable (detail e) := by
  cases e <;> exact encodable_py _

theorem respond_app (request : Request) (e : AppError) : respond request (.app e)
    = (appErrorHandler request e).tryCatch fun _ => unhandledExceptionHandler request := rfl

/-- **Every exception is answered in the envelope.** An application error whose texts have a UTF-8
encoding is answered as itself, anything else as the error of a 500. -/
theorem answers (request : Request) (e : Exn) :
    (∃ error, e = .app error ∧ (∀ s ∈ texts error, Encodable s)
        ∧ Answers request e (statusCode error) (errorCode error))
      ∨ (∀ error, e = .app error → ¬ ∀ s ∈ texts error, Encodable s)
        ∧ Answers request e 500 .internalError := by
  obtain ⟨internal, hinternal⟩ := exists_unhandledExceptionHandler request
  obtain ⟨-, hstatus, hcontent⟩ := buildErrorResponse_eq_ok.1 hinternal
  cases e with
  | app e =>
    by_cases htexts : ∀ s ∈ texts e, Encodable s
    · obtain ⟨response, hresponse⟩ : ∃ response, appErrorHandler request e = .ok response :=
        exists_buildErrorResponse request _ _ (encodable_detail e) ((renderable_details e).2 htexts)
      obtain ⟨-, hstatus, hcontent⟩ := buildErrorResponse_eq_ok.1 hresponse
      exact .inl ⟨e, rfl, htexts, response, _, _, by rw [respond_app, hresponse]; rfl, hstatus,
        hcontent⟩
    · cases hr : appErrorHandler request e with
      | ok response =>
        obtain ⟨⟨-, hdetails⟩, -⟩ := buildErrorResponse_eq_ok.1 hr
        exact absurd ((renderable_details e).1 hdetails) htexts
      | error failure =>
        refine .inr ⟨fun error heq => Exn.app.inj heq ▸ htexts, internal, _, _, ?_, hstatus,
          hcontent⟩
        rw [respond_app, hr, Except.tryCatch, hinternal]
  | _ => exact .inr ⟨fun _ heq => (nomatch heq), internal, _, _, hinternal, hstatus, hcontent⟩

omit [FloatText] [Unicode] in
/-- The code stands in the envelope. -/
theorem errorEnvelope_code_inj {code code' : ErrorCode} {message message' : PyStr}
    {details details' : List (PyStr × Json)} {requestId : Option {s : PyStr // Encodable s}}
    (h : errorEnvelope code message details requestId
      = errorEnvelope code' message' details' requestId) : code = code' := by
  simp only [errorEnvelope, Json.dict.injEq, List.cons.injEq, Prod.mk.injEq, Json.str.injEq] at h
  have hvalue : code.value = code'.value := h.1.2.1.2
  cases code <;> cases code' <;> first | rfl | exact absurd hvalue (by decide)

/-- An error whose texts have none is answered as that of a 500. -/
theorem internal_of_texts {request : Request} {e : AppError} (h : ¬ ∀ s ∈ texts e, Encodable s) :
    Answers request (.app e) 500 .internalError := by
  rcases answers request (.app e) with ⟨error, heq, htexts, -⟩ | ⟨-, hanswers⟩
  · obtain rfl := Exn.app.inj heq
    exact absurd htexts h
  · exact hanswers

/-- **An error is answered as itself** exactly when its texts have a UTF-8 encoding. -/
theorem answers_iff {request : Request} {e : AppError} (he : e ≠ .noActiveWorkflow) :
    Answers request (.app e) (statusCode e) (errorCode e) ↔ ∀ s ∈ texts e, Encodable s := by
  rcases answers request (.app e) with ⟨error, heq, htexts, hanswers⟩ | ⟨hnot, hanswers⟩
  · obtain rfl := Exn.app.inj heq
    exact iff_of_true hanswers htexts
  · refine iff_of_false (fun h => ?_) (hnot e rfl)
    obtain ⟨response, message, details, hresponse, -, hcontent⟩ := h
    obtain ⟨internal, message', details', hinternal, -, hcontent'⟩ := hanswers
    obtain rfl := Except.ok.inj (hresponse.symm.trans hinternal)
    have hcode := errorEnvelope_code_inj (hcontent.symm.trans hcontent')
    cases e <;> first | exact he rfl | cases hcode

end Handlers

end TaskService.Api
