import TaskService.Lib.Except
import TaskService.Py.Dumps

/-!
# The error envelope

`build_error_response` and the handler of `RequestValidationError` in `core/errors.py`. The handler
gets the entries FastAPI and pydantic report, each of which echoes the offending value, and leaves
out `ctx` only; the response is rendered when it is made.

* **`enveloped_iff`**: exactly when a rejected request gets its 422 envelope.
* **`enveloped_of_body`**: finite numbers and texts with a UTF-8 encoding are enough.
* **`unrenderable_echoes`**: three requests that do not.
-/

namespace TaskService

open Json

/-- The codes the handler gives. -/
inductive ErrorCode where
  | validationError
  | readOnlyField
  deriving DecidableEq

def ErrorCode.value : ErrorCode → PyStr
  | .validationError => py "validation_error"
  | .readOnlyField => py "read_only_field"

/-- What `request.state` holds of a request: its id, a header value or a UUID. -/
structure Request where
  requestId : Option {s : PyStr // Encodable s}

/-- A value under `input`: of the parsed body, or the body itself when it came without a JSON
content type. -/
inductive Input where
  | json (d : Json)
  | raw (bytes : List UInt8)

inductive LocItem where
  | key (name : PyStr)
  | index (i : Nat)
  deriving DecidableEq

/-- An entry of `exc.errors()`; `ctx` holds anything. -/
structure ErrorEntry (C : Type) where
  type : PyStr
  loc : List LocItem
  msg : PyStr
  input : Input
  ctx : Option C

/-- A `JSONResponse`, rendered. -/
structure Response [FloatText] where
  status : Nat
  content : Json
  body : PyStr
  rendered : content.render = .ok body

section Handler

variable [FloatText]

def jsonResponse (status : Nat) (content : Json) : Except RenderError Response :=
  match rendered : content.render with
  | .ok body => .ok { status, content, body, rendered }
  | .error e => .error e

/-- `ErrorEnvelope`, dumped. -/
def envelope (code : ErrorCode) (message : PyStr) (details : List (PyStr × Json))
    (requestId : Option {s : PyStr // Encodable s}) : Json :=
  .dict [(py "error", .dict [
    (py "code", .str code.value),
    (py "message", .str message),
    (py "details", .dict details),
    (py "request_id", match requestId with
      | some id => .str id.1
      | none => .null)])]

def buildErrorResponse (request : Request) (code : ErrorCode) (message : PyStr)
    (details : List (PyStr × Json)) (statusCode : Nat) : Except RenderError Response :=
  jsonResponse statusCode (envelope code message details request.requestId)

/-- `_SERVER_OWNED_FIELDS`. -/
def serverOwnedFields : List PyStr := [py "id", py "created_at"]

variable {C : Type}

namespace ErrorEntry

/-- The entry forbids a server-owned field. -/
def ServerOwned (err : ErrorEntry C) : Prop :=
  err.type = py "extra_forbidden" ∧ ∃ name ∈ serverOwnedFields, err.loc.getLast? = some (.key name)

instance (err : ErrorEntry C) : Decidable err.ServerOwned := inferInstanceAs (Decidable (_ ∧ _))

end ErrorEntry

def LocItem.content : LocItem → Json
  | .key name => .str name
  | .index i => .int i

/-- What the response says of an entry: all but `ctx`. The serializer refuses bytes. -/
def ErrorEntry.content (err : ErrorEntry C) : Except RenderError Json :=
  match err.input with
  | .raw _ => .error .notSerializable
  | .json d => .ok (.dict [
      (py "type", .str err.type),
      (py "loc", .list (err.loc.map LocItem.content)),
      (py "msg", .str err.msg),
      (py "input", d)])

/-- `ReadOnlyFieldError.detail`. -/
def readOnlyDetail : PyStr := py "Field is server-managed and cannot be set by the caller."

/-- `_request_validation_handler`. -/
def requestValidationHandler (request : Request) (errors : List (ErrorEntry C)) :
    Except RenderError Response :=
  match errors.find? fun err => err.ServerOwned with
  | some err =>
    buildErrorResponse request .readOnlyField readOnlyDetail
      (err.loc.getLast?.toList.map fun item => (py "field", item.content)) 422
  | none => do
    let errors ← errors.mapM ErrorEntry.content
    buildErrorResponse request .validationError (py "Request validation failed.")
      [(py "errors", .list errors)] 422

/-! ## What renders -/

theorem jsonResponse_eq_ok {status : Nat} {content : Json} {response : Response} :
    jsonResponse status content = .ok response ↔
      content.Renderable ∧ response.status = status ∧ response.content = content := by
  unfold jsonResponse
  split
  next body rendered =>
    constructor
    · rintro ⟨⟩
      exact ⟨(render_eq_ok.mp rendered).1, rfl, rfl⟩
    · obtain ⟨status', content', body', rendered'⟩ := response
      rintro ⟨-, rfl, rfl⟩
      have hbody : body = body' := Except.ok.inj (rendered.symm.trans rendered')
      subst hbody
      rfl
  next e failed =>
    refine ⟨fun h => (nomatch h), fun ⟨hrenderable, _⟩ => ?_⟩
    rw [render_eq_ok.mpr ⟨hrenderable, rfl⟩] at failed
    cases failed

theorem exists_jsonResponse (status : Nat) {content : Json} (h : content.Renderable) :
    ∃ response, jsonResponse status content = .ok response := by
  have hrendered : content.render = .ok content.text := render_eq_ok.mpr ⟨h, rfl⟩
  refine ⟨⟨status, content, content.text, hrendered⟩, ?_⟩
  exact jsonResponse_eq_ok.mpr ⟨h, rfl, rfl⟩

end Handler

namespace Json

theorem renderable_str {s : PyStr} : Renderable (.str s) ↔ Encodable s := by
  simp [Renderable, strings, floats]

theorem renderable_null : Renderable .null := by
  simp [Renderable, strings, floats]

theorem renderable_int (n : Int) : Renderable (.int n) := by
  simp [Renderable, strings, floats]

theorem renderable_list {xs : List Json} : Renderable (.list xs) ↔ ∀ x ∈ xs, Renderable x := by
  simp only [Renderable, strings, floats, mem_listStrings, mem_listFloats]
  constructor
  · rintro ⟨hfloats, hstrings⟩ x hx
    exact ⟨fun bits h => hfloats bits ⟨x, hx, h⟩, fun s h => hstrings s ⟨x, hx, h⟩⟩
  · intro h
    constructor
    · rintro bits ⟨x, hx, hbits⟩
      exact (h x hx).1 bits hbits
    · rintro s ⟨x, hx, hs⟩
      exact (h x hx).2 s hs

theorem renderable_dict {kvs : List (PyStr × Json)} :
    Renderable (.dict kvs) ↔ ∀ kv ∈ kvs, Encodable kv.1 ∧ Renderable kv.2 := by
  simp only [Renderable, strings, floats, mem_itemStrings, mem_itemFloats]
  constructor
  · rintro ⟨hfloats, hstrings⟩ kv hkv
    exact ⟨hstrings kv.1 ⟨kv, hkv, .inl rfl⟩, fun bits h => hfloats bits ⟨kv, hkv, h⟩,
      fun s h => hstrings s ⟨kv, hkv, .inr h⟩⟩
  · intro h
    constructor
    · rintro bits ⟨kv, hkv, hbits⟩
      exact (h kv hkv).2.1 bits hbits
    · rintro s ⟨kv, hkv, rfl | hs⟩
      · exact (h kv hkv).1
      · exact (h kv hkv).2.2 s hs

/-- The value, or a value or key somewhere inside. -/
inductive Within : Json → Json → Prop
  | whole (d : Json) : Within d d
  | element {d x : Json} {xs : List Json} (hx : x ∈ xs) (h : Within d x) : Within d (.list xs)
  | member {d : Json} {kv : PyStr × Json} {kvs : List (PyStr × Json)} (hkv : kv ∈ kvs)
      (h : Within d kv.2) : Within d (.dict kvs)
  | key {kv : PyStr × Json} {kvs : List (PyStr × Json)} (hkv : kv ∈ kvs) :
      Within (.str kv.1) (.dict kvs)

theorem Within.renderable {d body : Json} (h : Within d body) (hbody : body.Renderable) :
    d.Renderable := by
  induction h with
  | whole d => exact hbody
  | element hx _ ih => exact ih (renderable_list.mp hbody _ hx)
  | member hkv _ ih => exact ih (renderable_dict.mp hbody _ hkv).2
  | key hkv => exact renderable_str.mpr (renderable_dict.mp hbody _ hkv).1

end Json

theorem encodable_value (code : ErrorCode) : Encodable code.value := by
  cases code <;> exact encodable_py _

/-- An envelope renders when its message and its details do. -/
theorem renderable_envelope {code : ErrorCode} {message : PyStr} {details : List (PyStr × Json)}
    {requestId : Option {s : PyStr // Encodable s}} :
    (envelope code message details requestId).Renderable ↔
      Encodable message ∧ (Json.dict details).Renderable := by
  have hid : (match requestId with
      | some id => Json.str id.1
      | none => .null).Renderable := by
    cases requestId with
    | none => exact renderable_null
    | some id => exact renderable_str.mpr id.2
  show (Json.dict [(py "error", Json.dict _)]).Renderable ↔ _
  rw [renderable_dict, List.forall_mem_singleton, renderable_dict]
  simp only [List.forall_mem_cons, encodable_py, renderable_str, encodable_value, true_and, hid]
  exact and_congr_right fun _ => and_iff_left fun _ h => nomatch h

/-! ## When a rejected request gets its envelope -/

/-- The response can say what the entry says: no NaN, infinity or bytes among its values, no half of
a surrogate pair in its texts. -/
def ErrorEntry.Serializable {C : Type} (err : ErrorEntry C) : Prop :=
  Encodable err.type ∧ (∀ name, .key name ∈ err.loc → Encodable name) ∧ Encodable err.msg
    ∧ ∃ d, err.input = .json d ∧ d.Renderable

theorem content_renderable_iff {C : Type} {err : ErrorEntry C} :
    (∃ content, err.content = .ok content ∧ content.Renderable) ↔ err.Serializable := by
  unfold ErrorEntry.content ErrorEntry.Serializable
  cases err.input with
  | raw bytes => simp
  | json d =>
    have hloc : (Json.list (err.loc.map LocItem.content)).Renderable ↔
        ∀ name, .key name ∈ err.loc → Encodable name := by
      rw [renderable_list, List.forall_mem_map]
      constructor
      · exact fun h name hname => renderable_str.mp (h _ hname)
      · intro h item hitem
        cases item with
        | key name => exact renderable_str.mpr (h name hitem)
        | index i => exact renderable_int i
    simp [renderable_dict, renderable_str, encodable_py, hloc, Input.json.injEq]

/-- All entries render when each does. -/
theorem mapM_content_renderable_iff {C : Type} {errors : List (ErrorEntry C)} :
    (∃ contents, errors.mapM ErrorEntry.content = .ok contents
        ∧ ∀ content ∈ contents, content.Renderable) ↔ ∀ err ∈ errors, err.Serializable := by
  induction errors with
  | nil => simp [List.mapM_nil, pure, Except.pure]
  | cons err errors ih =>
    rw [List.forall_mem_cons, ← ih, ← content_renderable_iff]
    simp only [List.mapM_cons, Except.bind_eq_ok, Except.pure_eq_ok, Except.ok.injEq]
    constructor
    · rintro ⟨_, ⟨content, hcontent, contents, hcontents, rfl⟩, hall⟩
      rw [List.forall_mem_cons] at hall
      exact ⟨⟨content, hcontent, hall.1⟩, contents, hcontents, hall.2⟩
    · rintro ⟨⟨content, hcontent, hrenderable⟩, contents, hcontents, hall⟩
      exact ⟨_, ⟨content, hcontent, contents, hcontents, rfl⟩,
        List.forall_mem_cons.mpr ⟨hrenderable, hall⟩⟩

theorem details_renderable_iff {contents : List Json} :
    (Json.dict [(py "errors", .list contents)]).Renderable ↔
      ∀ content ∈ contents, content.Renderable := by
  rw [renderable_dict, List.forall_mem_singleton, renderable_list]
  exact and_iff_right (encodable_py _)

section Enveloped

variable [FloatText] {C : Type}

/-- A 422 response in the standard envelope, with its code. -/
def Enveloped (request : Request) (errors : List (ErrorEntry C)) : Prop :=
  ∃ response message details, requestValidationHandler request errors = .ok response
    ∧ response.status = 422
    ∧ response.content = envelope
        (if ∃ err ∈ errors, err.ServerOwned then .readOnlyField else .validationError)
        message details request.requestId

/-- A response that renders. -/
theorem exists_buildErrorResponse (request : Request) (code : ErrorCode) {message : PyStr}
    {details : List (PyStr × Json)} (status : Nat) (hmessage : Encodable message)
    (hdetails : (Json.dict details).Renderable) :
    ∃ response, buildErrorResponse request code message details status = .ok response
      ∧ response.status = status
      ∧ response.content = envelope code message details request.requestId := by
  obtain ⟨response, hresponse⟩ :=
    exists_jsonResponse status (renderable_envelope.mpr ⟨hmessage, hdetails⟩)
  exact ⟨response, hresponse, (jsonResponse_eq_ok.mp hresponse).2⟩

/-- The name of a server-owned field always renders. -/
theorem enveloped_of_serverOwned (request : Request) {errors : List (ErrorEntry C)}
    (h : ∃ err ∈ errors, err.ServerOwned) : Enveloped request errors := by
  unfold Enveloped requestValidationHandler
  rw [if_pos h]
  cases hfind : errors.find? fun err => decide err.ServerOwned with
  | none =>
    obtain ⟨err, hmem, herr⟩ := h
    exact absurd (decide_eq_true herr) (List.find?_eq_none.mp hfind err hmem)
  | some err =>
    obtain ⟨-, name, hname, hlast⟩ : err.ServerOwned := by simpa using List.find?_some hfind
    have hencodable : Encodable name := by
      simp only [serverOwnedFields, List.mem_cons, List.not_mem_nil, or_false] at hname
      rcases hname with rfl | rfl <;> exact encodable_py _
    have hdetails : (Json.dict (err.loc.getLast?.toList.map fun item =>
        (py "field", item.content))).Renderable := by
      rw [hlast, renderable_dict]
      exact List.forall_mem_singleton.mpr ⟨encodable_py _, renderable_str.mpr hencodable⟩
    obtain ⟨response, hresponse⟩ := exists_buildErrorResponse request .readOnlyField 422
      (encodable_py _) hdetails
    exact ⟨response, readOnlyDetail, _, hresponse⟩

/-- Without one, the response has to say every entry. -/
theorem enveloped_of_not_serverOwned (request : Request) {errors : List (ErrorEntry C)}
    (h : ¬ ∃ err ∈ errors, err.ServerOwned) :
    Enveloped request errors ↔ ∀ err ∈ errors, err.Serializable := by
  have hfind : errors.find? (fun err => decide err.ServerOwned) = none := by
    rw [List.find?_eq_none]
    exact fun err hmem herr => h ⟨err, hmem, of_decide_eq_true herr⟩
  unfold Enveloped requestValidationHandler
  rw [if_neg h, hfind, ← mapM_content_renderable_iff]
  constructor
  · rintro ⟨response, _, _, hresponse, -⟩
    obtain ⟨contents, hcontents, hbuilt⟩ := Except.bind_eq_ok.mp hresponse
    have hrenderable := (jsonResponse_eq_ok.mp hbuilt).1
    exact ⟨contents, hcontents, details_renderable_iff.mp (renderable_envelope.mp hrenderable).2⟩
  · rintro ⟨contents, hcontents, hall⟩
    obtain ⟨response, hresponse, hsays⟩ := exists_buildErrorResponse request .validationError 422
      (encodable_py "Request validation failed.") (details_renderable_iff.mpr hall)
    exact ⟨response, _, _, Except.bind_eq_ok.mpr ⟨contents, hcontents, hresponse⟩, hsays⟩

/-- **A rejected request gets its envelope** exactly when a server-owned field decides the response,
or every entry can be serialized. -/
theorem enveloped_iff (request : Request) (errors : List (ErrorEntry C)) :
    Enveloped request errors ↔
      (∃ err ∈ errors, err.ServerOwned) ∨ ∀ err ∈ errors, err.Serializable := by
  by_cases h : ∃ err ∈ errors, err.ServerOwned
  · exact iff_of_true (enveloped_of_serverOwned request h) (.inl h)
  · rw [enveloped_of_not_serverOwned request h]
    exact (or_iff_right h).symm

/-- **A body that could be echoed whole gets its envelope**, whatever of it the entries echo. -/
theorem enveloped_of_body (request : Request) {body : Json} (hbody : body.Renderable)
    {errors : List (ErrorEntry C)}
    (hnames : ∀ err ∈ errors, Encodable err.type ∧ Encodable err.msg
      ∧ ∀ name, .key name ∈ err.loc → Encodable name)
    (hechoes : ∀ err ∈ errors, ∃ d, err.input = .json d ∧ d.Within body) :
    Enveloped request errors := by
  by_cases h : ∃ err ∈ errors, err.ServerOwned
  · exact enveloped_of_serverOwned request h
  · rw [enveloped_of_not_serverOwned request h]
    intro err hmem
    obtain ⟨htype, hmsg, hloc⟩ := hnames err hmem
    obtain ⟨d, hinput, hwithin⟩ := hechoes err hmem
    exact ⟨htype, hloc, hmsg, d, hinput, hwithin.renderable hbody⟩

end Enveloped

/-! ## Three bodies that cannot be echoed -/

section Echoes

/-- The runs below print no float. -/
scoped instance Unprinted.floatText : FloatText := ⟨fun _ => "0.0"⟩

open Unprinted

/-- An error at the title of a body. -/
def titleError (type msg : String) (title : Json) : ErrorEntry Unit :=
  ⟨py type, [.key (py "body"), .key (py "title")], py msg, .json title, none⟩

/-- `{"title": NaN}`. -/
def nanTitle : ErrorEntry Unit :=
  titleError "string_type" "Input should be a valid string" (.float 0x7FF8000000000000#64)

/-- `{"title": "\ud800"}`. -/
def surrogateTitle : ErrorEntry Unit :=
  titleError "string_unicode"
    "Input should be a valid string, unable to parse raw data as a unicode string" (.str [0xD800])

/-- A body `{}` without a content type. -/
def rawBody : ErrorEntry Unit :=
  ⟨py "model_attributes_type", [.key (py "body")],
    py "Input should be a valid dictionary or object to extract fields from",
    .raw [0x7B, 0x7D], none⟩

theorem not_enveloped {err : ErrorEntry Unit} (hfree : ¬ err.ServerOwned)
    (h : ¬ err.Serializable) : ¬ Enveloped ⟨none⟩ [err] := by
  have hnone : ¬ ∃ err' ∈ [err], err'.ServerOwned := by
    rintro ⟨err', hmem, howned⟩
    exact hfree (List.mem_singleton.mp hmem ▸ howned)
  rw [enveloped_of_not_serverOwned _ hnone, List.forall_mem_singleton]
  exact h

theorem unrenderable_echoes :
    ¬ Enveloped ⟨none⟩ [nanTitle] ∧ ¬ Enveloped ⟨none⟩ [surrogateTitle]
      ∧ ¬ Enveloped ⟨none⟩ [rawBody] := by
  refine ⟨not_enveloped (by decide) ?_, not_enveloped (by decide) ?_, not_enveloped (by decide) ?_⟩
  · rintro ⟨-, -, -, d, hinput, hfloats, -⟩
    cases hinput
    exact absurd (hfloats _ (List.mem_singleton.mpr rfl)) (by decide)
  · rintro ⟨-, -, -, d, hinput, -, hstrings⟩
    cases hinput
    exact absurd (hstrings _ (List.mem_singleton.mpr rfl)) (by decide)
  · rintro ⟨-, -, -, d, hinput, -⟩
    cases hinput

end Echoes

end TaskService
