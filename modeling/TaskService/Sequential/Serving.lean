import TaskService.Sequential.Duplicates

/-!
# Calls that are served

What a request still needs once the DTOs have accepted it: its checks pass, every value it gives
fits its column, and its title is free. Then nothing is left to fail: every flush passes, so the use
case runs to its end.

* **`succeeds_program`**: the use case of a request that can be met returns.
* **`granted_of_owed`**: in a call served alone its operations succeed.
* **`met_of_served`**: what was served could be met.
* **`served_iff`**: when a task is created, replaced or patched.
-/

namespace TaskService.Sequential

open Store Tasks Tags Workflows Concurrency Sessions Prog
open Interleaving (Answered answered_lift answered_call Straight.answered)

/-! ## Requests that can be met -/

/-- The call names nothing to change. -/
def isEmptyUpdate : Call → Bool
  | .patch _ fields _ => fields.isEmpty
  | _ => false

/-- The call writes a task. -/
def writesTask : Call → Bool
  | .create .. | .replace .. | .patch .. => true
  | _ => false

/-- What the request gives can be stored, and no other task has its title. -/
structure Fulfillable [Unicode] (db : Db) (call : Call) : Prop where
  nonempty : isEmptyUpdate call = false
  title : ∀ title ∈ titleOf call, TitleFits title
  description : ∀ d ∈ descriptionOf call, Encodable d
  names : Keyable ((suppliedTags call).getD []) db
  free : ¬ Clashes db call

/-! ## Programs whose operations succeed -/

/-- Every operation succeeds, and its answer is as `P` says. -/
def Granted (P : Answer → Prop) (o : Op) (r : Except Exn (Res o)) : Prop :=
  ∃ a, r = .ok a ∧ ∀ answer ∈ answer? o r, P answer

theorem Granted.mono {P Q : Answer → Prop} {o : Op} {r : Except Exn (Res o)} (h : Granted P o r)
    (hPQ : ∀ answer ∈ answer? o r, P answer → Q answer) : Granted Q o r := by
  obtain ⟨a, ha, hanswer⟩ := h
  exact ⟨a, ha, fun answer hmem => hPQ answer hmem (hanswer answer hmem)⟩

/-- The definition that is read is this one. -/
def Defines [Unicode] (P : Answer → Prop) (w : Workflow) : Prop :=
  ∀ found, P (.definition found) →
    ∃ row, found = some row ∧ workflowFromDocument row.document = .ok w

/-- Counts that a check can get. -/
def Counts (P : Answer → Prop) (w : Workflow) (a b : Option PyStr) (counts : Dict PyStr Nat) :
    Prop :=
  Engine.needsOccupancy ⟨w⟩ a b = true → P (.counts counts)

section Rules

variable {α β : Type} {P : Answer → Prop} {J : α → Prop} {K : β → Prop}

/-- The program returns, and what it returns is as `J` says. -/
def Succeeds (P : Answer → Prop) (J : α → Prop) (p : SessionProg α) : Prop :=
  Answered (Granted P) (Outcome J fun _ => False) p

theorem Succeeds.bind {p : SessionProg α} {f : α → SessionProg β} (h : Succeeds P J p)
    (hf : ∀ a, J a → Succeeds P K (f a)) : Succeeds P K (p >>= f) :=
  Answered.bind h hf fun _ h => h

theorem Succeeds.mono {J' : α → Prop} {p : SessionProg α} (h : Succeeds P J p)
    (hJ : ∀ a, J a → J' a) : Succeeds P J' p :=
  Answered.mono h fun _ hr => hr.mono hJ fun _ h => h

/-- A handler has nothing to do. -/
theorem Succeeds.tryCatch {p : SessionProg α} {f : Exn → SessionProg α} (h : Succeeds P J p) :
    Succeeds P J (p.tryCatch f) :=
  Answered.tryCatch h (fun _ h => h) fun _ h => h.elim

theorem succeeds_ok {r : Except Exn α} {a : α} (h : r = .ok a) :
    Succeeds P (fun a' => a' = a) (lift r) := by
  subst h
  exact rfl

/-- A query is answered as `P` says. -/
theorem succeeds_query (o : Op) :
    Succeeds P (fun a => ∀ answer ∈ answer? o (.ok a), P answer) (perform o) := by
  refine answered_call fun r hr => ?_
  obtain ⟨a, rfl, hanswer⟩ := hr
  exact hanswer

theorem succeeds_call (o : Op) : Succeeds P (fun _ => True) (perform o) :=
  (succeeds_query o).mono fun _ _ => trivial

/-- What lets exceptions through and raises none returns. -/
theorem succeeds_of_straight {B : Op → Prop} {p : SessionProg α}
    (h : Straight B (Outcome J fun _ => False) p) : Succeeds P J p := by
  refine Straight.answered h (fun r hr => hr) fun o e _ he => ?_
  obtain ⟨a, ha, -⟩ := he
  cases ha

theorem succeeds_context (w : Workflow) (roles : List PyStr) (a b : Option PyStr) :
    Succeeds P (fun context => ∃ counts, Counts P w a b counts
      ∧ context = contextWith counts ⟨w⟩ roles a b) (context ⟨w⟩ roles a b) := by
  unfold context contextWith
  split
  case isTrue =>
    refine (succeeds_query .countByStatus).bind fun counts hcounts => ?_
    exact ⟨counts, fun _ => hcounts _ rfl, rfl⟩
  case isFalse hneeds => exact ⟨[], fun h => absurd h hneeds, rfl⟩

theorem succeeds_get {taskId : Uuid} {task : Task}
    (hthere : ∀ found, P (.task taskId found) → found = some task) :
    Succeeds P (fun t => t = task) (Repository.get taskId) := by
  refine (succeeds_query (.getTask taskId)).bind fun found hfound => ?_
  obtain rfl := hthere found (hfound _ rfl)
  exact rfl

end Rules

/-! ## The use cases -/

section UseCases

variable [Unicode] {P : Answer → Prop} {w : Workflow}

theorem succeeds_activeEngine (hactive : Defines P w) :
    Succeeds P (fun engine => engine = ⟨w⟩) activeEngine := by
  refine Succeeds.bind (J := fun stored => stored.workflow = w) ?_ fun stored hstored => ?_
  · refine (succeeds_query .selectActive).bind fun found hfound => ?_
    obtain ⟨row, rfl, hparse⟩ := hactive found (hfound _ rfl)
    have hok : parseOrRaise row.document = .ok w := by rw [parseOrRaise, hparse]; rfl
    exact (succeeds_ok hok).bind fun w' hw' => hw'
  · exact congrArg Engine.mk hstored

theorem succeeds_guardedEngine (hactive : Defines P w) :
    Succeeds P (fun engine => engine = ⟨w⟩) guardedEngine :=
  (succeeds_call (.acquireGuard (if true then .shared else .exclusive))).bind
    fun _ _ => succeeds_activeEngine hactive

/-- Names that are not blank resolve. -/
theorem succeeds_resolve {names : List PyStr} (hnames : ∀ name ∈ names, ¬ Blank name) :
    Succeeds P (fun _ => True) (resolve names) := by
  refine (succeeds_ok (wantedFrom_eq_ok.2 ⟨hnames, rfl⟩)).bind fun wanted _ => ?_
  split
  · trivial
  · exact (succeeds_call (.selectTags _)).bind fun rows _ =>
      succeeds_of_straight (mintMissing_straight _ wanted)

theorem succeeds_stageTags (taskId : Uuid) {asked : Option (List PyStr)}
    (hnames : ∀ names ∈ asked, ∀ name ∈ names, ¬ Blank name) :
    Succeeds P (fun _ => True) (stageTags taskId asked) := by
  cases asked with
  | none => trivial
  | some names =>
    refine (succeeds_call (.selectTagNames taskId)).bind fun before _ => ?_
    refine (succeeds_resolve (hnames names rfl)).bind fun resolved _ => ?_
    dsimp only
    split
    · trivial
    · refine (succeeds_of_straight (setForTask_straight taskId _)).bind fun _ _ => ?_
      exact (succeeds_of_straight (newEvent_straight _)).bind fun event _ => trivial

/-- What has to be known of a change for its events to be made. -/
structure Tellable (engine : Option Engine) (previous updated : Task) : Prop where
  valid : updated.Valid
  completes : updated.status ≠ previous.status →
    ∃ e completes, engine = some e ∧ e.completes updated.status = .ok completes

theorem succeeds_updateEvents {updated previous : Task} {engine : Option Engine}
    (h : Tellable engine previous updated) :
    Succeeds P (fun _ => True) (updateEvents updated previous engine) := by
  unfold updateEvents
  dsimp only
  split
  · trivial
  refine (succeeds_ok (Task.snapshot_eq_ok.2 ⟨h.valid, rfl⟩)).bind fun snapshot hsnapshot => ?_
  obtain rfl := hsnapshot
  refine (succeeds_of_straight (newEvent_straight _)).bind fun event _ => ?_
  split
  · trivial
  next hstatus =>
    obtain ⟨e, completes, rfl, hok⟩ :=
      h.completes (Task.status_mem_changedFields.1 (not_not.1 hstatus))
    refine Succeeds.bind (J := fun _ => True) ?_ fun events _ => trivial
    refine (succeeds_of_straight (newEvent_straight _)).bind fun changed _ =>
      (succeeds_ok hok).bind fun b _ => ?_
    split
    · exact (succeeds_of_straight (newEvent_straight _)).bind fun completed _ => trivial
    · trivial

omit [Unicode] in
theorem succeeds_persist (task : Task) (events : List Event) (rawTitle : PyStr) :
    Succeeds P (fun _ => True) (persist task events rawTitle) := by
  refine Succeeds.tryCatch ?_
  refine (succeeds_call (.add (.task task))).bind fun _ _ => ?_
  refine (succeeds_of_straight (stageEvents_straight events)).bind fun _ _ => ?_
  exact (succeeds_call .commit).tryCatch

theorem succeeds_persistUpdate {updated previous : Task} {engine : Option Engine}
    (rawTitle : PyStr) (extra : Option Event) (h : Tellable engine previous updated) :
    Succeeds P (fun _ => True) (persistUpdate updated previous engine rawTitle extra) := by
  refine (succeeds_updateEvents h).bind fun events _ => ?_
  dsimp only
  split
  · exact succeeds_persist updated _ rawTitle
  · trivial

/-- **A create returns.** -/
theorem succeeds_create {title : PyStr} {description status : Option PyStr} {priority : Int}
    {tags : Option (List PyStr)} {resolved : PyStr} (hactive : Defines P w)
    (hentry : ∀ counts, Counts P w none status counts →
      Engine.resolveEntry ⟨w⟩ status (contextWith counts ⟨w⟩ [] none status) = .ok resolved)
    (htitle : Task.normalizeTitle title ≠ []) (hnames : ∀ name ∈ tags.getD [], ¬ Blank name)
    (hvalid : ∀ id createdAt, Task.Valid ⟨id, strip title, Task.normalizeTitle title,
      description, resolved, priority, createdAt⟩) :
    Succeeds P (fun t => ∃ id createdAt, t = ⟨id, strip title, Task.normalizeTitle title,
      description, resolved, priority, createdAt⟩)
      (create title description status priority tags) := by
  refine (succeeds_guardedEngine hactive).bind fun engine hengine => ?_
  obtain rfl := hengine
  refine (succeeds_context _ _ _ _).bind fun context hcontext => ?_
  obtain ⟨counts, hcounts, rfl⟩ := hcontext
  refine (succeeds_ok (hentry counts hcounts)).bind fun _ hresolved => ?_
  obtain rfl := hresolved
  refine (succeeds_call .uuid7).bind fun id _ => ?_
  refine (succeeds_call .now).bind fun createdAt _ => ?_
  refine (succeeds_ok (Task.fromInput_eq_ok.2 ⟨htitle, rfl⟩)).bind fun task htask => ?_
  obtain rfl := htask
  refine (succeeds_ok (Task.snapshot_eq_ok.2 ⟨hvalid id createdAt, rfl⟩)).bind fun snapshot _ => ?_
  refine (succeeds_of_straight (newEvent_straight _)).bind fun created _ => ?_
  refine Succeeds.bind (J := fun _ => True) ?_ fun tagEvents _ =>
    (succeeds_persist _ _ title).bind fun _ _ => ⟨id, createdAt, rfl⟩
  match tags with
  | none | some [] => trivial
  | some (name :: names) =>
    refine Succeeds.bind (J := fun _ => True) (Succeeds.tryCatch ?_) fun _ _ => ?_
    · exact (succeeds_call (.add (.task _))).bind fun _ _ => (succeeds_call .flush).tryCatch
    · refine (succeeds_stageTags _ fun asked hasked => ?_).bind fun event _ => trivial
      obtain rfl := Option.some.inj hasked
      exact hnames

/-- **A replacement returns.** -/
theorem succeeds_replace {taskId : Uuid} {title : PyStr} {description status : Option PyStr}
    {priority : Int} {tags : Option (List PyStr)} {roles : List PyStr} {task : Task}
    (hactive : Defines P w) (hthere : ∀ found, P (.task taskId found) → found = some task)
    (hvalid : task.Valid) (hknown : status.getD w.defaultEntry ∈ w.stateNames)
    (hmove : ∀ counts, Counts P w (some task.status) (some (status.getD w.defaultEntry)) counts →
      Engine.checkMove ⟨w⟩ task.status (status.getD w.defaultEntry) (contextWith counts ⟨w⟩ roles
        (some task.status) (some (status.getD w.defaultEntry))) = .ok ())
    (hnames : ∀ name ∈ tags.getD [], ¬ Blank name) {updated : Task}
    (happlied : task.applyReplace title description (status.getD w.defaultEntry) priority
      = .ok updated) (hupdated : updated.Valid) :
    Succeeds P (fun t => t = updated)
      (replace taskId title description status priority tags roles) := by
  refine (succeeds_guardedEngine hactive).bind fun engine hengine => ?_
  obtain rfl := hengine
  refine (succeeds_get hthere).bind fun t ht => ?_
  obtain rfl := ht
  refine (succeeds_context _ _ _ _).bind fun context hcontext => ?_
  obtain ⟨counts, hcounts, rfl⟩ := hcontext
  refine (succeeds_ok (hmove counts hcounts)).bind fun _ _ => ?_
  refine (succeeds_ok (Task.snapshot_eq_ok.2 ⟨hvalid, rfl⟩)).bind fun previous hprevious => ?_
  obtain rfl := hprevious
  refine (succeeds_stageTags taskId fun asked hasked => ?_).bind fun tagEvent _ => ?_
  · obtain rfl := Option.some.inj hasked
    exact hnames
  refine (succeeds_ok happlied).bind fun _ hsame => ?_
  obtain rfl := hsame
  refine (succeeds_call (.setTask _)).bind fun _ _ => ?_
  refine (succeeds_persistUpdate title tagEvent ⟨hupdated, fun _ => ?_⟩).bind fun _ _ => rfl
  obtain ⟨-, rfl⟩ := Task.applyReplace_eq_ok.1 happlied
  obtain ⟨completes, hcompletes⟩ := completes_of_mem hknown
  exact ⟨⟨w⟩, completes, rfl, hcompletes⟩

/-- What a patch needs of the definition if it names a status: the check passes. -/
structure Moves (P : Answer → Prop) (roles : List PyStr) (a target : PyStr) (w : Workflow) :
    Prop where
  active : Defines P w
  known : target ∈ w.stateNames
  passes : ∀ counts, Counts P w (some a) (some target) counts →
    Engine.checkMove ⟨w⟩ a target (contextWith counts ⟨w⟩ roles (some a) (some target)) = .ok ()

/-- The definition is consulted if a status is named, and the check passes. -/
theorem succeeds_patchEngine {fields : PatchFields} {roles : List PyStr} {task : Task}
    (hmove : ∀ target ∈ fields.status, ∃ w, Moves P roles task.status target w) :
    ∃ engine, Succeeds P (fun found => found = engine) (patchEngine fields)
      ∧ Succeeds P (fun _ => True) (checkPatch engine task fields.status roles)
      ∧ ∀ target ∈ fields.status, ∃ e completes, engine = some e
        ∧ e.completes target = .ok completes := by
  unfold patchEngine
  cases hstatus : fields.status with
  | none => exact ⟨none, rfl, trivial, fun _ htarget => nomatch htarget⟩
  | some target =>
    obtain ⟨w, hw⟩ := hmove target hstatus
    refine ⟨some ⟨w⟩, (succeeds_guardedEngine hw.active).bind fun found hfound => ?_, ?_, ?_⟩
    · exact congrArg some hfound
    · refine (succeeds_context _ _ _ _).bind fun context hcontext => ?_
      obtain ⟨counts, hcounts, rfl⟩ := hcontext
      exact (succeeds_ok (hw.passes counts hcounts)).mono fun _ _ => trivial
    · rintro target' htarget'
      obtain rfl := Option.some.inj htarget'
      obtain ⟨completes, hcompletes⟩ := completes_of_mem hw.known
      exact ⟨⟨w⟩, completes, rfl, hcompletes⟩

/-- **A patch returns.** -/
theorem succeeds_patch {taskId : Uuid} {fields : PatchFields} {roles : List PyStr} {task : Task}
    (hnonempty : fields.isEmpty = false)
    (hthere : ∀ found, P (.task taskId found) → found = some task) (hvalid : task.Valid)
    (hmove : ∀ target ∈ fields.status, ∃ w, Moves P roles task.status target w)
    (hnames : ∀ asked ∈ fields.tags.join, ∀ name ∈ asked, ¬ Blank name) {updated : Task}
    (happlied : task.applyPatch fields = .ok updated) (hupdated : updated.Valid) :
    Succeeds P (fun t => t = updated) (patch taskId fields roles) := by
  unfold patch
  rw [if_neg (by rw [hnonempty]; exact Bool.false_ne_true)]
  obtain ⟨engine, hengine, hcheck, hcompletes⟩ := succeeds_patchEngine hmove
  refine Succeeds.bind hengine fun found hfound => ?_
  obtain rfl := hfound
  refine (succeeds_get hthere).bind fun t ht => ?_
  obtain rfl := ht
  refine hcheck.bind fun _ _ => ?_
  refine (succeeds_ok (Task.snapshot_eq_ok.2 ⟨hvalid, rfl⟩)).bind fun previous hprevious => ?_
  obtain rfl := hprevious
  refine (succeeds_stageTags taskId hnames).bind fun tagEvent _ => ?_
  refine (succeeds_ok happlied).bind fun _ hsame => ?_
  obtain rfl := hsame
  refine (succeeds_call (.setTask _)).bind fun _ _ => ?_
  refine (succeeds_persistUpdate _ tagEvent ⟨hupdated, fun hstatus => ?_⟩).bind fun _ _ => rfl
  -- the status changed, so the patch names one
  obtain ⟨-, -, rfl⟩ := Task.applyPatch_eq_ok.1 happlied
  cases htarget : fields.status with
  | none => exact absurd (by rw [htarget]; rfl) hstatus
  | some target =>
    rw [Option.getD_some]
    exact hcompletes target htarget

end UseCases

/-! ## What the request stores -/

section Rows

variable [Unicode] [Jsonb] [Runtime] {st : Server} {call : Call}

omit [Jsonb] [Runtime] in
/-- The description fits. -/
theorem Fulfillable.fits_description {db : Db} (h : Fulfillable db call)
    (haccepted : Accepted call) : ∀ d ∈ descriptionOf call, Fits descriptionMaxLength d := by
  intro d hd
  obtain ⟨hlength, hnul⟩ := haccepted.description d hd
  exact ⟨hlength, hnul, h.description d hd⟩

omit [Jsonb] [Runtime] in
/-- The row a create makes can be told and stored. -/
theorem saves_new {title : PyStr} {description status : Option PyStr} {priority : Int}
    {tags : Option (List PyStr)} (h : Fulfillable st.db (.create title description status priority
      tags)) (haccepted : Accepted (.create title description status priority tags))
    {resolved : PyStr} (hresolved : Storable resolved) (id : Uuid) (createdAt : Time) :
    Saves ⟨id, strip title, Task.normalizeTitle title, description, resolved, priority,
      createdAt⟩ :=
  (h.title title rfl).saves rfl rfl
    ⟨h.fits_description haccepted, hresolved, haccepted.priority _ rfl⟩

omit [Jsonb] [Runtime] in
/-- So can the row a replacement leaves. -/
theorem saves_replaced {taskId : Uuid} {title : PyStr} {description status : Option PyStr}
    {priority : Int} {tags : Option (List PyStr)} {roles : List PyStr} {previous updated : Task}
    (h : Fulfillable st.db (.replace taskId title description status priority tags roles))
    (haccepted : Accepted (.replace taskId title description status priority tags roles))
    {target : PyStr} (htarget : Storable target)
    (happlied : previous.applyReplace title description target priority = .ok updated) :
    Saves updated := by
  obtain ⟨-, rfl⟩ := Task.applyReplace_eq_ok.1 happlied
  exact (h.title title rfl).saves rfl rfl
    ⟨h.fits_description haccepted, htarget, haccepted.priority _ rfl⟩

omit [Jsonb] [Runtime] in
/-- And the row a patch leaves: what it does not name is as it was loaded. -/
theorem saves_patched {taskId : Uuid} {fields : PatchFields} {roles : List PyStr}
    {previous updated : Task} (h : Fulfillable st.db (.patch taskId fields roles))
    (haccepted : Accepted (.patch taskId fields roles)) (hfits : TaskFits previous)
    (hvalid : previous.Valid) (hstatus : ∀ target ∈ fields.status, Storable target)
    (happlied : previous.applyPatch fields = .ok updated) : Saves updated := by
  obtain ⟨htitle, hkey, hdescription, hstored, -⟩ := hfits
  obtain ⟨-, -, rfl⟩ := Task.applyPatch_eq_ok.1 happlied
  have hfields : FieldsFit (fields.description.getD previous.description)
      (fields.status.getD previous.status) (fields.priority.getD previous.priority) := by
    refine ⟨?_, ?_, ?_⟩
    · cases hfield : fields.description with
      | none => exact hdescription
      | some d =>
        intro s hs
        refine h.fits_description haccepted s ?_
        show s ∈ fields.description.join
        rw [hfield]
        exact hs
    · cases hfield : fields.status with
      | none => exact hstored
      | some target => exact hstatus target hfield
    · cases hfield : fields.priority with
      | none => exact hvalid.2.2.2.1
      | some n => exact haccepted.priority n hfield
  cases hfield : fields.title with
  | none => exact saves_of_fits hvalid.1.1 htitle hkey hfields
  | some title => exact (h.title title hfield).saves rfl rfl hfields

section Told

variable {told : Told} {taskId : Uuid} {asked : Option (List PyStr)} {engine : Option Engine}
  {previous updated : Task}

/-- **A change that can be met leaves a row that can be told and stored**, by the definition that is
active at the start. -/
theorem saves_changed (hst : Committed st)
    (hactive : ∀ {engine}, Consults told engine → activeWorkflow st.db = some engine.workflow)
    (h : Fulfillable st.db call) (haccepted : Accepted call)
    (htask : Changes told call taskId asked engine previous updated) (hfits : TaskFits previous) :
    Saves updated := by
  cases htask with
  | @replace _ _ _ _ _ _ _ engine _ _ htask =>
    obtain ⟨context, -, hmove⟩ := htask.moved
    exact saves_replaced h haccepted
      (storable_of_known hst (hactive htask.consults) (engine.checkMove_legal hmove).1)
      htask.applied
  | @patch _ fields _ engine _ _ htask =>
    refine saves_patched h haccepted hfits htask.loaded.valid (fun target htarget => ?_)
      htask.applied
    have hsome : engine.isSome := by rw [htask.named, htarget]; rfl
    obtain ⟨e, rfl⟩ := Option.isSome_iff_exists.1 hsome
    obtain ⟨context, -, hmove⟩ := htask.moved e rfl target htarget
    exact storable_of_known hst (hactive (htask.consults e rfl)) (e.checkMove_legal hmove).1

/-- And so does a create. -/
theorem fits_admitted (hst : Committed st)
    (hactive : ∀ {engine}, Consults told engine → activeWorkflow st.db = some engine.workflow)
    {title : PyStr} {description status : Option PyStr} {priority : Int}
    {tags : Option (List PyStr)} {task : Task}
    (h : Fulfillable st.db (.create title description status priority tags))
    (haccepted : Accepted (.create title description status priority tags))
    (htask : Admits title description status priority told task) : TaskFits task := by
  obtain ⟨engine, context, hconsults, -, hentry⟩ := htask.entered
  have hresolved := storable_of_known hst (hactive hconsults) (engine.resolveEntry_mem hentry)
  rw [(Task.fromInput_eq_ok.1 htask.made).2]
  exact (saves_new h haccepted hresolved task.id task.createdAt).2

omit [Jsonb] [Runtime] in
/-- Its title is free. -/
theorem free_admitted {title : PyStr} {description status : Option PyStr} {priority : Int}
    {tags : Option (List PyStr)} {task : Task}
    (h : Fulfillable st.db (.create title description status priority tags))
    (htask : Admits title description status priority told task) :
    ¬ TitleTaken st.db (.insertTask task) := fun htaken => h.free (clashes_of_insert htask htaken)

end Told

end Rows

/-! ## Commits that pass -/

section Commits

variable [Unicode] [Jsonb] [Runtime] {st : Server} {call : Call} {told : Told}

omit [Jsonb] [Runtime] in
theorem Fulfillable.accepted_names {db : Db} (h : Fulfillable db call)
    (haccepted : Accepted call) :
    AcceptedNames ((suppliedTags call).getD []) ∧ Keyable ((suppliedTags call).getD []) db := by
  refine ⟨?_, h.names⟩
  cases htags : suppliedTags call with
  | none => exact ⟨Nat.zero_le _, fun _ hname => (nomatch hname)⟩
  | some names => exact haccepted.names names htags

omit [Jsonb] [Runtime] in
/-- The names a session stages are those of its call. -/
theorem Fulfillable.stages_names {db : Db} (h : Fulfillable db call) (haccepted : Accepted call)
    {taskId : Uuid} {names : List PyStr} {tx : Tx}
    (hstages : Stages told call taskId (some names) tx) :
    AcceptedNames names ∧ Keyable names db := by
  have hsupplied := h.accepted_names haccepted
  generalize hasked : some names = asked at hstages
  cases hstages with
  | new | replace => exact Option.some.inj hasked ▸ hsupplied
  | @patch _ fields =>
    change AcceptedNames (fields.tags.join.getD [])
      ∧ Keyable (fields.tags.join.getD []) db at hsupplied
    rw [← hasked] at hsupplied
    exact hsupplied

omit [Jsonb] [Runtime] in
/-- The tags that are made for accepted names fit. -/
theorem fits_of_stage (hfold : FoldsCleanly) (htold : Truthful st told) {taskId : Uuid}
    {asked : Option (List PyStr)} {minted : List Tag} {retag : Option Retag}
    {event : Option EventBody}
    (hasked : ∀ names ∈ asked, AcceptedNames names ∧ Keyable names st.db)
    (hstage : TagStage taskId told asked minted retag event) : ∀ t ∈ minted, TagFits t := by
  intro t ht
  rcases hstage.resolved with ⟨-, rfl, -⟩ | ⟨names, found, rfl, hresolved⟩
  · cases ht
  · obtain ⟨hnames, hkeyable⟩ := hasked names rfl
    exact fits_of_resolved hfold hnames hkeyable hresolved ht
      (hresolved.unstored (hresolved.rows_eq htold.holds) ht)

omit [Unicode] [Jsonb] [Runtime] in
/-- A task that is not as it was loaded needs an UPDATE. -/
theorem dirty_of_changed {lock : Option LockMode} {log deleted : List Write}
    {previous updated : Task} {added : List NewRow} (h : previous ≠ updated) :
    dirty ⟨lock, log, some (previous, updated), added, deleted⟩ = [.updateTask previous updated] :=
  if_neg h

/-- **A new task is stored.** -/
theorem check_admitted (hst : Reachable st) (htold : Truthful st told) {title : PyStr}
    {description status : Option PyStr} {priority : Int} {tags : Option (List PyStr)} {task : Task}
    (h : Fulfillable st.db (.create title description status priority tags))
    (haccepted : Accepted (.create title description status priority tags))
    (htask : Admits title description status priority told task) {db : Db}
    (htasks : db.tasks = st.db.tasks) : (Write.insertTask task).check db = none := by
  refine check_insertTask_eq_none.2
    ⟨fits_admitted hst.committed htold.active h haccepted htask, ?_, ?_⟩ <;> rw [htasks]
  · intro row hrow hid
    refine htold.fresh task.id htask.drawn (mem_mentions.2 (.inl ?_))
    exact hid ▸ List.mem_map_of_mem hrow
  · exact fun row hrow hkey => free_admitted h htask ⟨row, hrow, hkey⟩

/-- **A change is stored.** -/
theorem passes_changed (hfold : FoldsCleanly) (hst : Reachable st) (htold : Truthful st told)
    (h : Fulfillable st.db call) (haccepted : Accepted call) {lock : Option LockMode}
    {taskId : Uuid} {asked : Option (List PyStr)} {engine : Option Engine} {previous updated : Task}
    {minted : List Tag} {retag : Option Retag} {event : Option EventBody}
    {rows : List (OutboxRecord Event)}
    (htask : Changes told call taskId asked engine previous updated)
    (hstage : TagStage taskId told asked minted retag event)
    (hrows : Narrates engine previous updated event rows told) :
    Passes st.db (writes ⟨lock, issuedTags minted retag, some (previous, updated),
      addedTags taskId minted retag ++ rows.map .outbox, []⟩) := by
  have hthere := there_of_loaded htold.holds htask.loaded
  have htaskId : taskId ∈ st.db.tasks.map Task.id := by
    rw [← htask.ids.1]
    exact List.mem_map_of_mem hthere
  have hstored := hst.committed.stored
  have hsaves := saves_changed hst.committed htold.active h haccepted htask
    (hstored.tasks previous hthere)
  obtain ⟨completes, hstaged, -⟩ := hrows.staged
  have hasked : ∀ names ∈ asked, AcceptedNames names ∧ Keyable names st.db := by
    intro names hnames
    rw [(asked_of_changes htask).2 names hnames]
    exact h.accepted_names haccepted
  have hwrites := @writes_saving lock [] (some (previous, updated)) taskId minted retag rows
  rw [List.nil_append, List.nil_append] at hwrites
  rw [hwrites]
  refine passes_append.2 ⟨?_, ?_⟩
  · refine passes_staged hst.committed.consistent htold hstage
      (fits_of_stage hfold htold hasked hstage) hstaged (fun body hbody => ?_) htaskId
    rcases List.mem_append.1 hbody with hbody | hbody
    · exact storable_updateBodies hsaves.2 (hstored.tasks previous hthere) body hbody
    · exact storable_tagEvent hfold hstored (htold.storable_names hstored taskId) hasked hstage
        body (Option.mem_toList.1 hbody)
  · -- the UPDATE is only issued when the row changed
    by_cases hsame : previous = updated
    · subst hsame
      rw [dirty_of_same]
      trivial
    · rw [dirty_of_changed hsame]
      refine ⟨check_updateTask_eq_none.2 ⟨hsaves.2, ?_, fun hmoved row hrow hid hkey => ?_⟩,
        trivial⟩
      · rw [tasks_view sparesTasks_stagedWrites]
        exact ⟨previous, hthere, rfl⟩
      · rw [tasks_view sparesTasks_stagedWrites] at hrow
        exact h.free (clashes_of_update htask ⟨hmoved, row, hrow, hid, hkey⟩)

/-- **What a request that can be met commits, passes.** -/
theorem passes_commit (hfold : FoldsCleanly) (hst : Reachable st) (htold : Truthful st told)
    (h : Fulfillable st.db call) (haccepted : Accepted call) (hcall : writesTask call = true)
    {tx : Tx} (hcommits : Commits call tx told) : Passes st.db (writes tx) := by
  cases hcommits with
  | @create _ _ _ _ _ task rows _ _ htask hrows =>
    have hfits := fits_admitted hst.committed htold.active h haccepted htask
    rw [writes, pending_create, List.nil_append]
    refine passes_append.2 ⟨passes_rows htold hrows (fun body hbody => ?_) rfl, ?_, trivial⟩
    · obtain rfl := List.mem_singleton.1 hbody
      exact storable_texts hfits
    · exact check_admitted hst htold h haccepted htask (by rw [view_insertOutbox])
  | @createTagged _ _ _ _ name names task minted retag event rows _ htask hstage hrows =>
    have hfits := fits_admitted hst.committed htold.active h haccepted htask
    have hasked : ∀ asked ∈ some (name :: names), AcceptedNames asked ∧ Keyable asked st.db := by
      intro asked hasked
      obtain rfl := Option.some.inj hasked
      exact h.accepted_names haccepted
    have hwrites := @writes_saving (some .shared) [.insertTask task] (some (task, task)) task.id
      minted retag rows
    rw [dirty_of_same, List.append_nil] at hwrites
    change Passes st.db (writes ⟨some .shared, [.insertTask task] ++ issuedTags minted retag,
      some (task, task), addedTags task.id minted retag ++ rows.map .outbox, []⟩)
    rw [hwrites]
    -- the row is flushed first, its links refer to it
    refine passes_append.2 ⟨⟨check_admitted hst htold h haccepted htask rfl, trivial⟩, ?_⟩
    refine passes_staged_beside hst.committed.consistent htold hstage
      (fits_of_stage hfold htold hasked hstage) hrows (fun body hbody => ?_) rfl rfl rfl ?_
    · rcases List.mem_cons.1 hbody with rfl | hbody
      · exact storable_texts hfits
      · have hstored := hst.committed.stored
        exact storable_tagEvent hfold hstored (htold.storable_names hstored task.id) hasked hstage
          body (Option.mem_toList.1 hbody)
    · exact List.mem_map_of_mem (List.mem_append_right _ (List.mem_singleton_self task))
  | replace htask hstage hrows =>
    exact passes_changed hfold hst htold h haccepted (.replace htask) hstage hrows
  | patch htask hstage hrows =>
    exact passes_changed hfold hst htold h haccepted (.patch htask) hstage hrows
  | delete | deleteTag | replaceActive | seed => cases hcall

end Commits

/-! ## Operations that succeed -/

section Operations

variable [Unicode] [Jsonb] [Runtime] {st now : Server} {call : Call} {o : Op} {tx : Tx}
  {notes : Notes}

omit [Unicode] in
/-- An operation whose statements pass succeeds. -/
theorem exec_ok_of_passes (hlog : Passes now.db tx.log) (hpass : Passes now.db (writes tx)) :
    ∃ a, (exec o tx now).1 = .ok a := by
  cases h : (exec o tx now).1 with
  | ok a => exact ⟨a, rfl⟩
  | error e =>
    obtain ⟨d, -, hrefused⟩ := exec_refused h hlog
    exact absurd hrefused (not_refused_of_passes hpass)

/-- An operation that succeeds is answered what the tables say. -/
theorem granted_of_ok (howed : Owed call o (tx, notes)) (hok : ∃ a, (exec o tx now).1 = .ok a) :
    Granted (Answer.Holds now.db) o (exec o tx now).1 := by
  obtain ⟨a, ha⟩ := hok
  refine ⟨a, ha, fun answer hanswer => holds_of_answer howed ha ?_⟩
  rw [← ha]
  exact hanswer

/-- **In a call served alone the operations succeed**, if the request can be met. -/
theorem granted_of_owed (hfold : FoldsCleanly) (hst : Reachable st) (haccepted : Accepted call)
    (h : Fulfillable st.db call) (hcall : writesTask call = true)
    (htelling : Telling st (tx, notes) now) (howed : Owed call o (tx, notes)) :
    Granted (Answer.Holds st.db) o (exec o tx now).1 := by
  obtain ⟨hdb, hlog⟩ := htelling.since.unsaved howed.unsaved
  rw [← hdb]
  refine granted_of_ok howed ?_
  have htold := htelling.truthful hst.committed
  have hidle : writes tx = [] → pending tx = [] := fun hnone => (List.append_eq_nil_iff.1 hnone).2
  have hpasses : Passes st.db (writes tx) → ∃ a, (exec o tx now).1 = .ok a := fun hpass =>
    exec_ok_of_passes (hdb ▸ hlog) (hdb ▸ hpass)
  -- what reads has nothing to flush; the other operations flush what their owed stage says
  cases o with
  | uuid7 | now | acquireGuard mode | add row | setTask t | deleteTask t | deleteTag t | rollback =>
    exact exec_eq_ok_of_pending now (.inl trivial)
  | selectActive | countByStatus | getTask taskId | selectMaxVersion | selectDefinitionId
  | getTag id | countTaskTags tagId =>
    exact exec_eq_ok_of_pending now (.inr (hidle (howed.reads trivial)))
  | selectTagNames taskId =>
    cases howed.prepares trivial with
    | names hstages => exact exec_eq_ok_of_pending now (.inr hstages.pending)
  | selectTags keys =>
    cases howed.prepares trivial with
    | rows hstages => exact exec_eq_ok_of_pending now (.inr hstages.pending)
  | deleteTaskTags taskId =>
    cases howed.prepares trivial with
    | @unlink _ _ names rows minted tx hstages hresolved =>
      refine hpasses ?_
      rw [writes, hstages.pending_minted]
      refine passes_append.2 ⟨hlog, ?_⟩
      obtain ⟨hnames, hkeyable⟩ := h.stages_names haccepted hstages
      have hrows := hresolved.rows_eq htold.holds
      have hfits : ∀ t ∈ minted, TagFits t := fun t ht =>
        fits_of_resolved hfold hnames hkeyable hresolved ht (hresolved.unstored hrows ht)
      refine passes_minted hst.committed.consistent htold hresolved hfits ?_
      exact (view_insertTask hstages.log st.db).1
  | flush =>
    cases howed.prepares trivial with
    | stage htask => exact hpasses ⟨check_admitted hst htold h haccepted htask rfl, trivial⟩
  | commit =>
    exact hpasses (passes_commit hfold hst htold h haccepted hcall (howed.commit rfl))

end Operations

/-! ## Calls -/

section Calls

variable [Unicode] {st : Server} {call : Call}

/-- The row a replacement or a patch leaves: the tables and the request decide it. -/
def rowAfter (db : Db) : Call → Option Task
  | .replace taskId title description status priority _ _ => do
    let w ← activeWorkflow db
    let task ← db.tasks.find? fun t => t.id = taskId
    (task.applyReplace title description (status.getD w.defaultEntry) priority).toOption
  | .patch taskId fields _ => do
    let task ← db.tasks.find? fun t => t.id = taskId
    (task.applyPatch fields).toOption
  | _ => none

/-- The reply is a task, and to an update the row that it leaves. -/
def Returns (db : Db) (call : Call) (reply : Reply) : Prop :=
  ∃ t, reply = .task t ∧ ((taskOf call).isSome → rowAfter db call = some t)

theorem rowAfter_replace {db : Db} {taskId : Uuid} {title : PyStr}
    {description status : Option PyStr} {priority : Int} {tags : Option (List PyStr)}
    {roles : List PyStr} {w : Workflow} {task updated : Task}
    (hactive : activeWorkflow db = some w)
    (hthere : db.tasks.find? (fun t => t.id = taskId) = some task)
    (happlied : task.applyReplace title description (status.getD w.defaultEntry) priority
      = .ok updated) :
    rowAfter db (.replace taskId title description status priority tags roles) = some updated := by
  show (activeWorkflow db).bind _ = _
  rw [hactive, Option.bind_some]
  show (db.tasks.find? _).bind _ = _
  rw [hthere, Option.bind_some, happlied]
  rfl

theorem rowAfter_patch {db : Db} {taskId : Uuid} {fields : PatchFields} {roles : List PyStr}
    {task updated : Task} (hthere : db.tasks.find? (fun t => t.id = taskId) = some task)
    (happlied : task.applyPatch fields = .ok updated) :
    rowAfter db (.patch taskId fields roles) = some updated := by
  show (db.tasks.find? _).bind _ = _
  rw [hthere, Option.bind_some, happlied]
  rfl

/-- The definition and the task of the call are those of the tables, and the counts let its checks
pass. -/
structure Tells (P : Answer → Prop) (db : Db) (call : Call) : Prop where
  definition : ∀ found, P (.definition found) → found = db.active
  task : ∀ taskId found, taskOf call = some taskId → P (.task taskId found) →
    found = db.tasks.find? fun t => t.id = taskId
  counts : ∀ counts, P (.counts counts) → CheckedWith counts db call

section Tells

variable {P : Answer → Prop} {db : Db} {w : Workflow}

theorem Tells.defines (h : Tells P db call) (hactive : activeWorkflow db = some w) :
    Defines P w := by
  intro found hfound
  rw [h.definition found hfound]
  exact activeWorkflow_eq_some.1 hactive

omit [Unicode] in
/-- Counts that the check does not ask for do not matter. -/
theorem contextWith_congr {engine : Engine} {roles : List PyStr} {a b : Option PyStr}
    (h : engine.needsOccupancy a b = false) (counts counts' : Dict PyStr Nat) :
    contextWith counts engine roles a b = contextWith counts' engine roles a b := by
  rw [contextWith, contextWith, h]
  rfl

variable {counts : Dict PyStr Nat}

/-- A create that passes its check with some counts passes it with those it is told. -/
theorem Tells.entry {title : PyStr} {description status : Option PyStr} {priority : Int}
    {tags : Option (List PyStr)} {resolved : PyStr}
    (h : Tells P db (.create title description status priority tags))
    (hactive : activeWorkflow db = some w)
    (hentry : Engine.resolveEntry ⟨w⟩ status (contextWith counts ⟨w⟩ [] none status)
      = .ok resolved) {told : Dict PyStr Nat} (htold : Counts P w none status told) :
    Engine.resolveEntry ⟨w⟩ status (contextWith told ⟨w⟩ [] none status) = .ok resolved := by
  cases hneeds : Engine.needsOccupancy ⟨w⟩ none status with
  | false =>
    rw [contextWith_congr hneeds told counts]
    exact hentry
  | true =>
    cases h.counts told (htold hneeds) with
    | create hactive' hentry' =>
      obtain rfl := Option.some.inj (hactive'.symm.trans hactive)
      have hstate := Engine.entryState_of_resolveEntry _ hentry'
      rw [Engine.entryState_of_resolveEntry _ hentry] at hstate
      rw [hentry', Except.ok.inj hstate]

/-- So does a replacement. -/
theorem Tells.replaceMove {taskId : Uuid} {title : PyStr} {description status : Option PyStr}
    {priority : Int} {tags : Option (List PyStr)} {roles : List PyStr} {task : Task}
    (h : Tells P db (.replace taskId title description status priority tags roles))
    (hactive : activeWorkflow db = some w)
    (hthere : db.tasks.find? (fun t => t.id = taskId) = some task)
    (hmove : Engine.checkMove ⟨w⟩ task.status (status.getD w.defaultEntry) (contextWith counts ⟨w⟩
      roles (some task.status) (some (status.getD w.defaultEntry))) = .ok ())
    {told : Dict PyStr Nat}
    (htold : Counts P w (some task.status) (some (status.getD w.defaultEntry)) told) :
    Engine.checkMove ⟨w⟩ task.status (status.getD w.defaultEntry) (contextWith told ⟨w⟩ roles
      (some task.status) (some (status.getD w.defaultEntry))) = .ok () := by
  cases hneeds : Engine.needsOccupancy ⟨w⟩ (some task.status)
      (some (status.getD w.defaultEntry)) with
  | false =>
    rw [contextWith_congr hneeds told counts]
    exact hmove
  | true =>
    cases h.counts told (htold hneeds) with
    | replace hactive' hthere' hmove' =>
      obtain rfl := Option.some.inj (hactive'.symm.trans hactive)
      obtain rfl := Option.some.inj (hthere'.symm.trans hthere)
      exact hmove'

/-- And a patch that names a status. -/
theorem Tells.patchMove {taskId : Uuid} {fields : PatchFields} {roles : List PyStr} {task : Task}
    {target : PyStr} (h : Tells P db (.patch taskId fields roles))
    (hthere : db.tasks.find? (fun t => t.id = taskId) = some task)
    (htarget : fields.status = some target) (hactive : activeWorkflow db = some w)
    (hmove : Engine.checkMove ⟨w⟩ task.status target (contextWith counts ⟨w⟩ roles
      (some task.status) (some target)) = .ok ()) : Moves P roles task.status target w where
  active := h.defines hactive
  known := (Engine.checkMove_legal _ hmove).1
  passes told htold := by
    cases hneeds : Engine.needsOccupancy ⟨w⟩ (some task.status) (some target) with
    | false =>
      rw [contextWith_congr hneeds told counts]
      exact hmove
    | true =>
      cases h.counts told (htold hneeds) with
      | patch hthere' hmove' =>
        obtain rfl := Option.some.inj (hthere'.symm.trans hthere)
        obtain ⟨w', hactive', hok⟩ := hmove' target htarget
        obtain rfl := Option.some.inj (hactive'.symm.trans hactive)
        exact hok

end Tells

variable [Jsonb] [Runtime]

/-- **The program of a request that can be met returns**, if its checks pass with the counts it is
told. -/
theorem succeeds_program {P : Answer → Prop} (hst : Committed st) (haccepted : Accepted call)
    (h : Fulfillable st.db call) (htells : Tells P st.db call)
    (hchecked : ∃ counts, CheckedWith counts st.db call) :
    Succeeds P (Returns st.db call) call.program := by
  have hvalid := valid_of_reachable hst.idle
  have hnonblank := (h.accepted_names haccepted).2.1
  obtain ⟨counts, hchecked⟩ := hchecked
  cases hchecked with
  | create hactive hentry =>
    have hresolved := storable_of_known hst hactive (Engine.resolveEntry_mem _ hentry)
    refine (succeeds_create (htells.defines hactive) (fun told => htells.entry hactive hentry)
      (h.title _ rfl).nonempty hnonblank fun id createdAt => ?_).bind fun t _ => ⟨t, rfl, nofun⟩
    exact (Task.snapshot_eq_ok.1 (saves_new h haccepted hresolved id createdAt).1).1
  | @replace taskId title description status priority _ _ w task hactive hthere hmove =>
    have hknown := (Engine.checkMove_legal _ hmove).1
    have htarget := storable_of_known hst hactive hknown
    have happlied : task.applyReplace title description (status.getD w.defaultEntry) priority
        = .ok _ := Task.applyReplace_eq_ok.2 ⟨(h.title _ rfl).nonempty, rfl⟩
    refine (succeeds_replace (htells.defines hactive)
      (fun found hfound => (htells.task taskId found rfl hfound).trans hthere)
      (hvalid task (List.mem_of_find?_eq_some hthere)) hknown
      (fun told => htells.replaceMove hactive hthere hmove) hnonblank happlied ?_).bind
        fun t ht => ⟨t, rfl, fun _ => ?_⟩
    · exact (Task.snapshot_eq_ok.1 (saves_replaced h haccepted htarget happlied).1).1
    · rw [ht]
      exact rowAfter_replace hactive hthere happlied
  | @patch taskId fields roles task hthere hmove =>
    have hmem : task ∈ st.db.tasks := List.mem_of_find?_eq_some hthere
    have hstatus : ∀ target ∈ fields.status, Storable target := by
      intro target htarget
      obtain ⟨w, hactive, hok⟩ := hmove target htarget
      exact storable_of_known hst hactive (Engine.checkMove_legal _ hok).1
    have happlied : task.applyPatch fields = .ok _ := Task.applyPatch_eq_ok.2
      ⟨haccepted.extras, fun title htitle => (h.title title htitle).nonempty, rfl⟩
    refine (succeeds_patch h.nonempty
      (fun found hfound => (htells.task taskId found rfl hfound).trans hthere)
      (hvalid task hmem) (fun target htarget => ?_) (fun asked hasked => ?_) happlied ?_).bind
        fun t ht => ⟨t, rfl, fun _ => ?_⟩
    · obtain ⟨w, hactive, hok⟩ := hmove target htarget
      exact ⟨w, htells.patchMove hthere htarget hactive hok⟩
    · change ∀ name ∈ fields.tags.join.getD [], ¬ Blank name at hnonblank
      rw [hasked] at hnonblank
      exact hnonblank
    · exact (Task.snapshot_eq_ok.1 (saves_patched h haccepted (hst.stored.tasks task hmem)
        (hvalid task hmem) hstatus happlied).1).1
    · rw [ht]
      exact rowAfter_patch hthere happlied

omit [Jsonb] [Runtime] in
/-- What the tables say lets the checks pass that pass on them. -/
theorem tells_of_checked {db : Db} (hchecked : Checked db call) :
    Tells (Answer.Holds db) db call where
  definition _ hfound := hfound
  task _ _ _ hfound := hfound
  counts counts hcounts := by
    obtain rfl : counts = db.countByStatus := hcounts
    exact hchecked

/-- **A request that can be met is served.** -/
theorem served_of_fulfillable (hfold : FoldsCleanly) (hst : Reachable st)
    (haccepted : Accepted call) (hcall : writesTask call = true) (hchecked : Checked st.db call)
    (h : Fulfillable st.db call) :
    ∃ reply, (serve call st).1 = .ok reply ∧ Returns st.db call reply := by
  have hserved : Outcome (Returns st.db call) (fun _ => False) (serve call st).1 := by
    rw [serve_eq_noted]
    refine (call_conforms call).answered (J := Telling st)
      (succeeds_program hst.committed haccepted h (tells_of_checked hchecked) ⟨_, hchecked⟩)
      (fun o here now howed htelling => ?_) (telling_fresh st)
    exact ⟨granted_of_owed hfold hst haccepted h hcall htelling howed, htelling.step howed⟩
  generalize (serve call st).1 = r at hserved ⊢
  cases r with
  | ok reply => exact ⟨reply, rfl, hserved⟩
  | error e => exact hserved.elim

end Calls

/-! ## Requests that were met -/

section Met

variable [Unicode] [Jsonb] [Runtime] {st : Server} {told : Told} {call : Call}

omit [Unicode] [Jsonb] [Runtime] in
/-- The context of a check was that of the tables. -/
theorem eq_contextOf {engine : Engine} {roles : List PyStr} {a b : Option PyStr}
    {context : TransitionContext} (h : Counted engine roles a b told context) {db : Db}
    (htold : ∀ answer ∈ told, answer.Holds db) : context = contextOf db engine roles a b := by
  obtain ⟨roles', occupancy⟩ := context
  obtain ⟨rfl, hcounted, huncounted⟩ := h
  unfold contextOf contextWith
  cases hneeds : engine.needsOccupancy a b with
  | true =>
    have hcounts : occupancy = db.countByStatus := htold _ (hcounted hneeds)
    rw [hcounts]
    rfl
  | false =>
    have hnone : occupancy = [] := huncounted hneeds
    rw [hnone]
    rfl

omit [Jsonb] [Runtime] in
theorem checked_of_admits {title : PyStr} {description status : Option PyStr} {priority : Int}
    {tags : Option (List PyStr)} {task : Task} (htold : ∀ answer ∈ told, answer.Holds st.db)
    (htask : Admits title description status priority told task) :
    Checked st.db (.create title description status priority tags) := by
  obtain ⟨engine, context, hconsults, hcounted, hentry⟩ := htask.entered
  obtain rfl := eq_contextOf hcounted htold
  exact .create (hconsults.active fun answer hanswer _ => htold answer hanswer) hentry

omit [Jsonb] [Runtime] in
theorem checked_of_changes {taskId : Uuid} {asked : Option (List PyStr)} {engine : Option Engine}
    {previous updated : Task} (htold : ∀ answer ∈ told, answer.Holds st.db)
    (htask : Changes told call taskId asked engine previous updated) : Checked st.db call := by
  have hthere : st.db.tasks.find? (fun t => t.id = taskId) = some previous :=
    (htold _ htask.loaded.read).symm
  cases htask with
  | replace htask =>
    obtain ⟨context, hcounted, hmove⟩ := htask.moved
    obtain rfl := eq_contextOf hcounted htold
    exact .replace (htask.consults.active fun answer hanswer _ => htold answer hanswer) hthere hmove
  | @patch _ fields _ engine _ _ htask =>
    refine .patch hthere fun target htarget => ?_
    have hsome : engine.isSome := by rw [htask.named, htarget]; rfl
    obtain ⟨e, rfl⟩ := Option.isSome_iff_exists.1 hsome
    obtain ⟨context, hcounted, hmove⟩ := htask.moved e rfl target htarget
    obtain rfl := eq_contextOf hcounted htold
    exact ⟨e.workflow, (htask.consults e rfl).active fun answer hanswer _ => htold answer hanswer,
      hmove⟩

omit [Jsonb] [Runtime] in
theorem keyable_nil (db : Db) : Keyable [] db :=
  ⟨fun _ hname => absurd hname List.not_mem_nil, fun _ hname => absurd hname List.not_mem_nil⟩

omit [Jsonb] [Runtime] in
/-- The title of a row that fits. -/
theorem titleFits_of_row {title : PyStr} {t : Task} (hne : Task.normalizeTitle title ≠ [])
    (htitle : t.title = strip title) (hkey : t.titleKey = Task.normalizeTitle title)
    (hfits : TaskFits t) : TitleFits title := by
  refine ⟨hne, length_strip_pos fun hblank => hne (Task.normalizeTitle_eq_nil_iff.2 hblank), ?_, ?_⟩
  · rw [← htitle]
    exact hfits.1
  · rw [← hkey]
    exact hfits.2.1

omit [Jsonb] [Runtime] in
/-- A create whose row was stored could be met. -/
theorem fulfillable_of_admits {title : PyStr} {description status : Option PyStr} {priority : Int}
    {tags : Option (List PyStr)} {task : Task}
    (htask : Admits title description status priority told task)
    (hcheck : TaskFits task ∧ ∀ row ∈ st.db.tasks, row.titleKey ≠ task.titleKey)
    (hnames : Keyable (tags.getD []) st.db) :
    Fulfillable st.db (.create title description status priority tags) := by
  obtain ⟨hne, hmade⟩ := Task.fromInput_eq_ok.1 htask.made
  have hdescription : task.description = description := by rw [hmade]
  have hkey : task.titleKey = Task.normalizeTitle title := by rw [hmade]
  refine ⟨rfl, fun title' htitle => ?_, fun d hd => ?_, hnames, ?_⟩
  · obtain rfl := Option.some.inj htitle
    exact titleFits_of_row hne (by rw [hmade]) hkey hcheck.1
  · refine (hcheck.1.2.2.1 d ?_).2.2
    rw [hdescription]
    exact hd
  · rintro ⟨title', htitle, row, hrow, -, hsame⟩
    obtain rfl := Option.some.inj htitle
    exact hcheck.2 row hrow (hsame.trans hkey.symm)

/-- A change whose row fits, under a title that no other row has, could be met. -/
theorem fulfillable_of_changes (hst : Reachable st) (htold : Truthful st told) {taskId : Uuid}
    {asked : Option (List PyStr)} {engine : Option Engine} {previous updated : Task}
    (htask : Changes told call taskId asked engine previous updated) (hfits : TaskFits updated)
    (hfree : ¬ TitleTaken st.db (.updateTask previous updated))
    (hnames : ∀ names ∈ asked, Keyable names st.db) : Fulfillable st.db call := by
  have hrows := rows_of_reachable hst
  have hthere := there_of_loaded htold.holds htask.loaded
  -- a row that clashes is not the one that was loaded, so it has another key
  have hspared : ∀ title, titleOf call = some title →
      updated.titleKey = Task.normalizeTitle title → taskOf call = some taskId →
      ¬ Clashes st.db call := by
    rintro title htitle hkey hnamed ⟨title', htitle', row, hrow, hother, hsame⟩
    obtain rfl := Option.some.inj (htitle.symm.trans htitle')
    have hid : row.id ≠ previous.id := fun heq =>
      hother (by rw [heq, htask.ids.1, hnamed])
    have htaken : row.titleKey = updated.titleKey := hsame.trans hkey.symm
    refine hfree ⟨fun hstay => hid ?_, row, hrow, hid, htaken⟩
    exact congrArg Task.id
      (List.inj_on_of_nodup_map hrows.keys hrow hthere (htaken.trans hstay.symm))
  cases htask with
  | @replace _ title _ _ _ tags _ _ _ _ htask =>
    obtain ⟨hne, rfl⟩ := Task.applyReplace_eq_ok.1 htask.applied
    refine ⟨rfl, fun title' htitle => ?_, fun d hd => (hfits.2.2.1 d hd).2.2, hnames _ rfl,
      hspared title rfl rfl rfl⟩
    obtain rfl := Option.some.inj htitle
    exact titleFits_of_row hne rfl rfl hfits
  | @patch _ fields _ _ _ _ htask =>
    obtain ⟨-, hne, rfl⟩ := Task.applyPatch_eq_ok.1 htask.applied
    refine ⟨htask.nonempty, fun title htitle => ?_, fun d hd => ?_, ?_, ?_⟩
    · have htitle : fields.title = some title := htitle
      refine titleFits_of_row (hne title htitle) ?_ ?_ hfits <;>
        · rw [htitle]
          rfl
    · refine (hfits.2.2.1 d ?_).2.2
      change d ∈ fields.description.join at hd
      show d ∈ fields.description.getD previous.description
      cases hfield : fields.description with
      | none =>
        rw [hfield] at hd
        cases hd
      | some description =>
        rw [hfield] at hd
        exact hd
    · show Keyable (fields.tags.join.getD []) st.db
      cases hfield : fields.tags.join with
      | none => exact keyable_nil st.db
      | some names => exact hnames names hfield
    · cases htitle : fields.title with
      | none =>
        rintro ⟨title, htitle', -⟩
        exact nomatch htitle.symm.trans htitle'
      | some title =>
        refine hspared title htitle ?_ rfl
        show (fields.title.map Task.normalizeTitle).getD previous.titleKey = _
        rw [htitle]
        rfl

omit [Jsonb] [Runtime] in
/-- The names of a request whose new tags fit. -/
theorem keyable_of_stage (hfold : FoldsCleanly) (htold : Truthful st told) {taskId : Uuid}
    {asked : Option (List PyStr)} {minted : List Tag} {retag : Option Retag}
    {event : Option EventBody} (hstage : TagStage taskId told asked minted retag event)
    (hfits : ∀ t ∈ minted, TagFits t) : ∀ names ∈ asked, Keyable names st.db := by
  intro names hnames
  rcases hstage.resolved with ⟨rfl, -, -⟩ | ⟨names', rows, rfl, hresolved⟩
  · cases hnames
  · obtain rfl := Option.some.inj hnames
    exact keyable_of_fits hfold hresolved (hresolved.rows_eq htold.holds) hfits

omit [Jsonb] [Runtime] in
/-- Names that are spelled as stored tags need no new ones. -/
theorem keyable_of_kept (hdb : Consistent st.db) (htold : Truthful st told) {taskId : Uuid}
    {asked : Option (List PyStr)} {minted : List Tag} {retag : Option Retag}
    (hstage : TagStage taskId told asked minted retag none) :
    ∀ names ∈ asked, Keyable names st.db := by
  cases hstage with
  | omitted => exact fun _ hnames => nomatch hnames
  | @kept names before rows _ hbefore hresolved hsame =>
    intro names' hnames
    obtain rfl := Option.some.inj hnames
    have hshown : before = st.db.tagNames taskId := htold.holds _ hbefore
    refine ⟨hresolved.nonblank, fun name hname hfree => absurd ?_ hfree⟩
    have hmem : strip name ∈ before := by
      rw [← List.mem_toFinset, hsame, List.mem_toFinset]
      exact mem_displayNames.2 ⟨name, hname, hresolved.nonblank name hname, rfl⟩
    obtain ⟨t, ht, -, hspelled⟩ := mem_tagNames.1 (hshown ▸ hmem)
    refine List.mem_map.2 ⟨t, ht, ?_⟩
    rw [(hdb.keyed t ht).1, hspelled, Tag.normalizeName_strip]

/-- **What was committed could be met.** -/
theorem fulfillable_of_saved (hfold : FoldsCleanly) (hst : Reachable st)
    (htold : Truthful st told) (hcall : writesTask call = true) {tx : Tx}
    (hcommits : Commits call tx told) (hpass : Passes st.db (writes tx)) :
    Checked st.db call ∧ Fulfillable st.db call := by
  have hchanged : ∀ {lock : Option LockMode} {taskId asked engine previous updated minted retag
      event} {rows : List (OutboxRecord Event)},
      Changes told call taskId asked engine previous updated →
      TagStage taskId told asked minted retag event →
      Passes st.db (writes ⟨lock, issuedTags minted retag, some (previous, updated),
        addedTags taskId minted retag ++ rows.map .outbox, []⟩) → Fulfillable st.db call := by
    intro lock taskId asked engine previous updated minted retag event rows htask hstage hpass
    have hthere := there_of_loaded htold.holds htask.loaded
    have hwrites := @writes_saving lock [] (some (previous, updated)) taskId minted retag rows
    rw [List.nil_append, List.nil_append] at hwrites
    rw [hwrites] at hpass
    obtain ⟨hstaged, hdirty⟩ := passes_append.1 hpass
    have hnames := keyable_of_stage hfold htold hstage (fits_of_passes_staged hstaged)
    by_cases hsame : previous = updated
    · subst hsame
      exact fulfillable_of_changes hst htold htask (hst.committed.stored.tasks _ hthere)
        (fun htaken => htaken.1 rfl) hnames
    · rw [dirty_of_changed hsame] at hdirty
      obtain ⟨hfits, -, hfree⟩ := check_updateTask_eq_none.1 hdirty.1
      rw [tasks_view sparesTasks_stagedWrites] at hfree
      refine fulfillable_of_changes hst htold htask hfits ?_ hnames
      rintro ⟨hmoved, row, hrow, hid, hkey⟩
      exact hfree hmoved row hrow hid hkey
  cases hcommits with
  | @create _ _ _ _ tags task rows _ htags htask hrows =>
    refine ⟨checked_of_admits htold.holds htask, fulfillable_of_admits htask ?_ ?_⟩
    · rw [writes, pending_create, List.nil_append] at hpass
      obtain ⟨-, hcheck, -⟩ := passes_append.1 hpass
      obtain ⟨hfits, -, hfree⟩ := check_insertTask_eq_none.1 hcheck
      rw [view_insertOutbox] at hfree
      exact ⟨hfits, hfree⟩
    · have hnone : tags.getD [] = [] := by rcases htags with rfl | rfl <;> rfl
      rw [hnone]
      exact keyable_nil st.db
  | @createTagged _ _ _ _ name names task minted retag event rows _ htask hstage hrows =>
    have hwrites := @writes_saving (some .shared) [.insertTask task] (some (task, task)) task.id
      minted retag rows
    rw [dirty_of_same, List.append_nil] at hwrites
    change Passes st.db (writes ⟨some .shared, [.insertTask task] ++ issuedTags minted retag,
      some (task, task), addedTags task.id minted retag ++ rows.map .outbox, []⟩) at hpass
    rw [hwrites] at hpass
    obtain ⟨⟨hcheck, -⟩, hstaged⟩ := passes_append.1 hpass
    obtain ⟨hfits, -, hfree⟩ := check_insertTask_eq_none.1 hcheck
    refine ⟨checked_of_admits htold.holds htask, fulfillable_of_admits htask ⟨hfits, hfree⟩ ?_⟩
    exact keyable_of_stage hfold htold hstage (fits_of_passes_staged hstaged) _ rfl
  | replace htask hstage =>
    exact ⟨checked_of_changes htold.holds (.replace htask), hchanged (.replace htask) hstage hpass⟩
  | patch htask hstage =>
    exact ⟨checked_of_changes htold.holds (.patch htask), hchanged (.patch htask) hstage hpass⟩
  | delete | deleteTag | replaceActive | seed => cases hcall

/-- So could what had nothing to save. -/
theorem fulfillable_of_rested (hst : Reachable st) (htold : Truthful st told)
    (hcall : writesTask call = true) (hrests : Rests call told) :
    Checked st.db call ∧ Fulfillable st.db call := by
  have hunchanged : ∀ {taskId asked engine previous updated minted retag},
      Changes told call taskId asked engine previous updated →
      TagStage taskId told asked minted retag none → updated.changedFields previous = [] →
      Checked st.db call ∧ Fulfillable st.db call := by
    intro taskId asked engine previous updated minted retag htask hstage hsame
    have hthere := there_of_loaded htold.holds htask.loaded
    refine ⟨checked_of_changes htold.holds htask, ?_⟩
    obtain rfl := eq_of_unchanged htask ((rows_of_reachable hst).keyed _ hthere) hsame
    exact fulfillable_of_changes hst htold htask (hst.committed.stored.tasks _ hthere)
      (fun htaken => htaken.1 rfl) (keyable_of_kept hst.committed.consistent htold hstage)
  cases hrests with
  | replace htask hstage hsame => exact hunchanged (.replace htask) hstage hsame
  | patch htask hstage hsame => exact hunchanged (.patch htask) hstage hsame
  | legalMoves | seed => cases hcall

/-- **What was served could be met.** -/
theorem met_of_served (hfold : FoldsCleanly) (hst : Reachable st) (hcall : writesTask call = true)
    {reply : Reply} (hreply : (serve call st).1 = .ok reply) :
    Checked st.db call ∧ Fulfillable st.db call := by
  have hserves := serve_cases hst.committed call
  rw [hreply] at hserves
  generalize (serve call st).2.db = db' at hserves
  cases hserves with
  | saved htold hcommits hpass => exact fulfillable_of_saved hfold hst htold hcall hcommits hpass
  | rested htold hrests => exact fulfillable_of_rested hst htold hcall hrests

/-- **When a task is created, replaced or patched**: when the checks of the request pass, what it
gives can be stored, and its title is free. -/
theorem served_iff (hfold : FoldsCleanly) (hst : Reachable st) (haccepted : Accepted call)
    (hcall : writesTask call = true) :
    (∃ reply, (serve call st).1 = .ok reply) ↔ Checked st.db call ∧ Fulfillable st.db call := by
  refine ⟨fun ⟨reply, hreply⟩ => met_of_served hfold hst hcall hreply, fun ⟨hchecked, h⟩ => ?_⟩
  obtain ⟨reply, hreply, -⟩ := served_of_fulfillable hfold hst haccepted hcall hchecked h
  exact ⟨reply, hreply⟩

end Met

section Titled

open Plain Sharp

/-- The first of the two tasks is to have a title of its own. -/
def retitled : Call := .replace forkTask (py " C") none none 3 (some [py "Urgent"]) []

theorem fulfillable_retitled : Fulfillable titled.db retitled where
  nonempty := rfl
  title title htitle := by
    obtain rfl := Option.some.inj htitle
    exact ⟨by decide, by decide, by decide, by decide⟩
  description _ hd := nomatch hd
  names := by
    refine ⟨by decide, fun name hname _ => ?_⟩
    obtain rfl := List.mem_singleton.1 hname
    decide
  free := by
    rintro ⟨title, htitle, row, hrow, -, hkey⟩
    obtain rfl := Option.some.inj htitle
    have hfree : (titled.db.tasks.all fun row =>
        decide (row.titleKey ≠ Task.normalizeTitle (py " C"))) = true := by decide +kernel
    exact of_decide_eq_true (List.all_eq_true.1 hfree row hrow) hkey

theorem accepted_retitled : Accepted retitled where
  title title htitle := by
    obtain rfl := Option.some.inj htitle
    exact ⟨by decide, by decide, 0x43, by decide, by decide⟩
  description _ hd := nomatch hd
  priority n hn := by
    obtain rfl := Option.some.inj hn
    decide
  names names hnames := by
    obtain rfl := Option.some.inj hnames
    decide
  extras := rfl

theorem served_iff_titled : ∃ reply, (serve retitled titled).1 = .ok reply :=
  (served_iff foldsCleanly reachable_titled accepted_retitled rfl).2
    ⟨checked_titled .., fulfillable_retitled⟩

end Titled

end TaskService.Sequential
