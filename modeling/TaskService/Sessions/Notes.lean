import TaskService.Lib.Observation
import TaskService.Tags.Names
import TaskService.Tasks.Programs

/-!
# What a session is told, and what it commits

Beside its transaction a session keeps notes: the answers its queries got, the ids it drew, and the
transaction it committed. `Commits` says, call by call, which transactions are ever committed and
which answers they rest on. It is read off the use cases and says nothing of the database: what the
answers were true of is a matter of who else was running.

* **`Commits`**: the transactions a call commits.
* **`Rests`**: when a call returns without a commit.
* **`Owed`**: what a session owes at each operation.
-/

namespace TaskService.Sessions

open Store Tasks Tags Workflows Concurrency

/-! ## Notes -/

/-- An answer of the database, with what was asked for, or an id drawn. -/
inductive Answer where
  | definition (row : Option WorkflowRecord)
  | highest (version : Option Nat)
  | stored (any : Bool)
  | counts (counts : Dict PyStr Nat)
  | task (id : Uuid) (task : Option Task)
  | tagNames (taskId : Uuid) (names : List PyStr)
  | tagRows (keys : List PyStr) (rows : List Tag)
  | tag (id : Uuid) (tag : Option Tag)
  | linkCount (tagId : Uuid) (count : Nat)
  | unlinked (taskId : Uuid) (links : List TaskTag)
  | drawn (id : Uuid)

/-- The answer an operation got, if it is one to remember. -/
def answer? : (o : Op) → Except Exn (Res o) → Option Answer
  | .uuid7, .ok id => some (.drawn id)
  | .selectActive, .ok row => some (.definition row)
  | .selectMaxVersion, .ok version => some (.highest version)
  | .selectDefinitionId, .ok any => some (.stored any)
  | .countByStatus, .ok counts => some (.counts counts)
  | .getTask id, .ok task => some (.task id task)
  | .selectTagNames taskId, .ok names => some (.tagNames taskId names)
  | .selectTags keys, .ok rows => some (.tagRows keys rows)
  | .getTag id, .ok tag => some (.tag id tag)
  | .countTaskTags tagId, .ok count => some (.linkCount tagId count)
  | .deleteTaskTags taskId, .ok links => some (.unlinked taskId links)
  | _, _ => none

/-- What a session was told, in order. -/
abbrev Told := List Answer

/-- The id drawn, if an id was drawn. -/
def Answer.drawn? : Answer → Option Uuid
  | .drawn id => some id
  | _ => none

/-- The ids a session drew. -/
def Told.ids (told : Told) : List Uuid := told.filterMap Answer.drawn?

/-- What a session was told, and the transaction it committed. -/
structure Notes where
  told : Told
  saved : Option Tx

/-- A session that has done nothing. -/
def Notes.blank : Notes := ⟨[], none⟩

/-- The notes after an operation. -/
def note : (o : Op) → Tx → Except Exn (Res o) → Notes → Notes
  | .commit, tx, .ok _, notes => { notes with saved := some tx }
  | o, _, r, notes => { notes with told := notes.told ++ (answer? o r).toList }

@[simp] theorem answer?_error (o : Op) (e : Exn) : answer? o (.error e) = none := by
  cases o <;> rfl

/-- An operation that fails is not noted. -/
@[simp] theorem note_error (o : Op) (tx : Tx) (e : Exn) (notes : Notes) :
    note o tx (.error e) notes = notes := by
  cases o <;> simp [note, answer?]

theorem note_of_ne_commit {o : Op} (h : o ≠ .commit) (tx : Tx) (r : Except Exn (Res o))
    (notes : Notes) : note o tx r notes = ⟨notes.told ++ (answer? o r).toList, notes.saved⟩ := by
  cases o with
  | commit => exact absurd rfl h
  | _ => rfl

/-- Ids once drawn stay drawn. -/
theorem ids_sublist {told told' : Told} (h : told <+: told') : told.ids.Sublist told'.ids :=
  h.sublist.filterMap _

/-! ## Tags of a task -/

variable [Unicode]

/-- `resolve` found these tags for the names and made those. -/
structure Resolved (names : List PyStr) (rows minted : List Tag) (told : Told) : Prop where
  nonblank : ∀ name ∈ names, ¬ Blank name
  read : wantedOf [] names ≠ [] → .tagRows (Dict.keys (wantedOf [] names)) rows ∈ told
  unread : wantedOf [] names = [] → rows = []
  asked : ∀ row ∈ rows, row.nameKey ∈ Dict.keys (wantedOf [] names)
  mints : Mints (idsByKey rows) (wantedOf [] names) minted
  drawn : (minted.map Tag.id).Sublist told.ids

/-- The links of a task to these tags. -/
def linksTo (taskId : Uuid) (tags : List Tag) : List TaskTag :=
  (fromKeys (tags.map Tag.id)).map fun tagId => ⟨taskId, tagId⟩

/-- The event on a change of a task's tags, from the names it had and those of the request. -/
def tagsChanged (taskId : Uuid) (before names : List PyStr) : EventBody :=
  .taskTagsChanged taskId (sortedSet (displayNames names))
    (sortedSet ((displayNames names).filter (· ∉ before)))
    (sortedSet (before.filter (· ∉ displayNames names)))

/-- A change of a task's tags: the links it loses, and the tags it shall have. -/
structure Retag where
  gone : List TaskTag
  tags : List Tag

/-- The statements `_stage_tags` issues. -/
def issuedTags (minted : List Tag) : Option Retag → List Write
  | none => []
  | some retag => minted.map .insertTag ++ [.deleteTaskTags retag.gone]

/-- The rows `_stage_tags` leaves to be issued. -/
def addedTags (taskId : Uuid) (minted : List Tag) : Option Retag → List NewRow
  | none => minted.map .tag
  | some retag => (linksTo taskId retag.tags).map .taskTag

/-- What `_stage_tags` does for the names of a request: the tags it mints, the change of the task's
tags if it is one, and the event on it. -/
inductive TagStage (taskId : Uuid) (told : Told) :
    Option (List PyStr) → List Tag → Option Retag → Option EventBody → Prop where
  | omitted : TagStage taskId told none [] none none
  | kept {names before : List PyStr} {rows minted : List Tag}
      (hbefore : .tagNames taskId before ∈ told) (hresolved : Resolved names rows minted told)
      (hsame : before.toFinset = (displayNames names).toFinset) :
      TagStage taskId told (some names) minted none none
  | changed {names before : List PyStr} {rows minted : List Tag} {gone : List TaskTag}
      (hbefore : .tagNames taskId before ∈ told) (hresolved : Resolved names rows minted told)
      (hdiffers : before.toFinset ≠ (displayNames names).toFinset)
      (hgone : .unlinked taskId gone ∈ told) :
      TagStage taskId told (some names) minted (some ⟨gone, rows ++ minted⟩)
        (some (tagsChanged taskId before names))

/-- Pending outbox rows for these events, under ids the session drew. -/
structure Staged (bodies : List EventBody) (rows : List (OutboxRecord Event))
    (told : Told) : Prop where
  bodies : rows.map (fun r => r.event.body) = bodies
  pending : ∀ r ∈ rows, ∃ id event, r = .fromEvent id event
  drawn : (rows.map OutboxRecord.id).Sublist told.ids

/-! ## Changes of a task -/

/-- The engine wraps the definition the session read. -/
def Consults (told : Told) (engine : Engine) : Prop :=
  ∃ row, .definition (some row) ∈ told ∧ workflowFromDocument row.document = .ok engine.workflow

/-- The context of a check: the counts, if the check can need them. -/
structure Counted (engine : Engine) (roles : List PyStr) (fromStatus toStatus : Option PyStr)
    (told : Told) (context : TransitionContext) : Prop where
  roles : context.roles = roles
  counted : engine.needsOccupancy fromStatus toStatus = true → .counts context.occupancy ∈ told
  uncounted : engine.needsOccupancy fromStatus toStatus = false → context.occupancy = []

/-- A new task that passed every check. -/
structure Admits (title : PyStr) (description status : Option PyStr) (priority : Int) (told : Told)
    (task : Task) : Prop where
  entered : ∃ engine context, Consults told engine ∧ Counted engine [] none status told context
    ∧ engine.resolveEntry status context = .ok task.status
  made : Task.fromInput task.id task.createdAt title description task.status priority = .ok task
  valid : task.Valid
  drawn : task.id ∈ told.ids

/-- The move passed the check of the definition the session read. -/
def Moved (engine : Engine) (roles : List PyStr) (a b : PyStr) (told : Told) : Prop :=
  ∃ context, Counted engine roles (some a) (some b) told context
    ∧ engine.checkMove a b context = .ok ()

/-- The task the session loaded. -/
structure Loaded (taskId : Uuid) (task : Task) (told : Told) : Prop where
  read : .task taskId (some task) ∈ told
  id : task.id = taskId
  valid : task.Valid

/-- A replacement that passed every check. -/
structure Replaced (taskId : Uuid) (title : PyStr) (description status : Option PyStr)
    (priority : Int)
    (roles : List PyStr) (told : Told) (engine : Engine) (previous updated : Task) : Prop where
  loaded : Loaded taskId previous told
  consults : Consults told engine
  moved : Moved engine roles previous.status (status.getD engine.defaultEntry) told
  applied : previous.applyReplace title description (status.getD engine.defaultEntry) priority
    = .ok updated

/-- A patch that passed every check. -/
structure Patched (taskId : Uuid) (fields : PatchFields) (roles : List PyStr) (told : Told)
    (engine : Option Engine) (previous updated : Task) : Prop where
  nonempty : fields.isEmpty = false
  loaded : Loaded taskId previous told
  consults : ∀ e ∈ engine, Consults told e
  named : engine.isSome = fields.status.isSome
  moved : ∀ e ∈ engine, ∀ target ∈ fields.status, Moved e roles previous.status target told
  applied : previous.applyPatch fields = .ok updated

/-- The guard a patch takes. -/
def patchGuard (fields : PatchFields) : Option LockMode :=
  if fields.status.isSome then some .shared else none

/-- The events of an update, in their order, with that on the tags last. -/
structure Narrates (engine : Option Engine) (previous updated : Task) (event : Option EventBody)
    (rows : List (OutboxRecord Event)) (told : Told) : Prop where
  valid : updated.changedFields previous ≠ [] → updated.Valid
  staged : ∃ completes, Staged (updateBodies updated previous completes ++ event.toList) rows told
    ∧ (updated.status ≠ previous.status →
        ∃ e, engine = some e ∧ e.completes updated.status = .ok completes)
  nonempty : rows ≠ []

/-! ## Commits -/

/-- **The transactions a call commits.** -/
inductive Commits : Call → Tx → Told → Prop where
  | create {title : PyStr} {description status : Option PyStr} {priority : Int}
      {tags : Option (List PyStr)} {task : Task} {rows : List (OutboxRecord Event)} {told : Told}
      (htags : tags = none ∨ tags = some [])
      (htask : Admits title description status priority told task)
      (hrows : Staged [.taskCreated task] rows told) :
      Commits (.create title description status priority tags)
        ⟨some .shared, [], none, .task task :: rows.map .outbox, []⟩ told
  | createTagged {title : PyStr} {description status : Option PyStr} {priority : Int} {name : PyStr}
      {names : List PyStr} {task : Task} {minted : List Tag} {retag : Option Retag}
      {event : Option EventBody} {rows : List (OutboxRecord Event)} {told : Told}
      (htask : Admits title description status priority told task)
      (hstage : TagStage task.id told (some (name :: names)) minted retag event)
      (hrows : Staged (.taskCreated task :: event.toList) rows told) :
      Commits (.create title description status priority (some (name :: names)))
        ⟨some .shared, .insertTask task :: issuedTags minted retag, some (task, task),
          addedTags task.id minted retag ++ rows.map .outbox, []⟩ told
  | replace {taskId : Uuid} {title : PyStr} {description status : Option PyStr} {priority : Int}
      {tags : Option (List PyStr)} {roles : List PyStr} {engine : Engine} {previous updated : Task}
      {minted : List Tag} {retag : Option Retag} {event : Option EventBody}
      {rows : List (OutboxRecord Event)} {told : Told}
      (htask : Replaced taskId title description status priority roles told engine previous updated)
      (hstage : TagStage taskId told (some (tags.getD [])) minted retag event)
      (hrows : Narrates (some engine) previous updated event rows told) :
      Commits (.replace taskId title description status priority tags roles)
        ⟨some .shared, issuedTags minted retag, some (previous, updated),
          addedTags taskId minted retag ++ rows.map .outbox, []⟩ told
  | patch {taskId : Uuid} {fields : PatchFields} {roles : List PyStr} {engine : Option Engine}
      {previous updated : Task} {minted : List Tag} {retag : Option Retag}
      {event : Option EventBody} {rows : List (OutboxRecord Event)} {told : Told}
      (htask : Patched taskId fields roles told engine previous updated)
      (hstage : TagStage taskId told fields.tags.join minted retag event)
      (hrows : Narrates engine previous updated event rows told) :
      Commits (.patch taskId fields roles)
        ⟨patchGuard fields, issuedTags minted retag, some (previous, updated),
          addedTags taskId minted retag ++ rows.map .outbox, []⟩ told
  | delete {taskId : Uuid} {task : Task} {rows : List (OutboxRecord Event)} {told : Told}
      (htask : Loaded taskId task told) (hrows : Staged [.taskDeleted task] rows told) :
      Commits (.delete taskId)
        ⟨none, [], some (task, task), rows.map .outbox, [.deleteTask taskId]⟩ told
  | deleteTag {tagId : Uuid} {tag : Tag} {rows : List (OutboxRecord Event)} {told : Told}
      (htag : .tag tagId (some tag) ∈ told) (hid : tag.id = tagId)
      (hcount : .linkCount tagId 0 ∈ told) (hrows : Staged [.tagDeleted tagId tag.name] rows told) :
      Commits (.deleteTag tagId) ⟨none, [], none, rows.map .outbox, [.deleteTag tagId]⟩ told
  | replaceActive {document : {d : Json // d.Wf}} {w : Workflow} {counts : Dict PyStr Nat}
      {highest : Option Nat} {createdAt : Time} {rows : List (OutboxRecord Event)} {told : Told}
      (hparse : workflowFromDocument document = .ok w) (hcounts : .counts counts ∈ told)
      (hfree : ∀ kv ∈ counts, kv.1 ∈ w.stateNames) (hhighest : .highest highest ∈ told)
      (hrows : Staged [.workflowUpdated (highest.getD 0 + 1) w.stateNames] rows told) :
      Commits (.replaceActive document) ⟨some .exclusive, [], none,
        .workflow ⟨highest.getD 0 + 1, workflowToDocument w, createdAt⟩ :: rows.map .outbox, []⟩
        told
  | seed {highest : Option Nat} {createdAt : Time} {w : Workflow} {told : Told}
      (hdefault : defaultWorkflow = .ok w) (hstored : .stored false ∈ told)
      (hhighest : .highest highest ∈ told) :
      Commits .seed ⟨some .exclusive, [], none,
        [.workflow ⟨highest.getD 0 + 1, workflowToDocument w, createdAt⟩], []⟩ told

/-- **When a call returns without a commit.** -/
inductive Rests : Call → Told → Prop where
  | replace {taskId : Uuid} {title : PyStr} {description status : Option PyStr} {priority : Int}
      {tags : Option (List PyStr)} {roles : List PyStr} {engine : Engine} {previous updated : Task}
      {minted : List Tag} {retag : Option Retag} {told : Told}
      (htask : Replaced taskId title description status priority roles told engine previous updated)
      (hstage : TagStage taskId told (some (tags.getD [])) minted retag none)
      (hsame : updated.changedFields previous = []) :
      Rests (.replace taskId title description status priority tags roles) told
  | patch {taskId : Uuid} {fields : PatchFields} {roles : List PyStr} {engine : Option Engine}
      {previous updated : Task} {minted : List Tag} {retag : Option Retag} {told : Told}
      (htask : Patched taskId fields roles told engine previous updated)
      (hstage : TagStage taskId told fields.tags.join minted retag none)
      (hsame : updated.changedFields previous = []) :
      Rests (.patch taskId fields roles) told
  | legalMoves (taskId : Uuid) (told : Told) : Rests (.legalMoves taskId) told
  | seed {told : Told} (hstored : .stored true ∈ told) : Rests .seed told

/-! ## What was told stays told -/

section Mono

variable {told told' : Told}

theorem Resolved.mono {names : List PyStr} {rows minted : List Tag}
    (h : Resolved names rows minted told) (hle : told <+: told') :
    Resolved names rows minted told' where
  nonblank := h.nonblank
  read hne := hle.subset (h.read hne)
  unread := h.unread
  asked := h.asked
  mints := h.mints
  drawn := h.drawn.trans (ids_sublist hle)

theorem TagStage.mono {taskId : Uuid} {names : Option (List PyStr)} {minted : List Tag}
    {retag : Option Retag} {event : Option EventBody}
    (h : TagStage taskId told names minted retag event) (hle : told <+: told') :
    TagStage taskId told' names minted retag event := by
  cases h with
  | omitted => exact .omitted
  | kept hbefore hresolved hsame => exact .kept (hle.subset hbefore) (hresolved.mono hle) hsame
  | changed hbefore hresolved hdiffers hgone =>
    exact .changed (hle.subset hbefore) (hresolved.mono hle) hdiffers (hle.subset hgone)

omit [Unicode] in
theorem Staged.mono {bodies : List EventBody} {rows : List (OutboxRecord Event)}
    (h : Staged bodies rows told) (hle : told <+: told') : Staged bodies rows told' :=
  ⟨h.bodies, h.pending, h.drawn.trans (ids_sublist hle)⟩

theorem Consults.mono {engine : Engine} (h : Consults told engine) (hle : told <+: told') :
    Consults told' engine := by
  obtain ⟨row, hrow, hparse⟩ := h
  exact ⟨row, hle.subset hrow, hparse⟩

omit [Unicode] in
theorem Counted.mono {engine : Engine} {roles : List PyStr} {a b : Option PyStr}
    {context : TransitionContext} (h : Counted engine roles a b told context)
    (hle : told <+: told') :
    Counted engine roles a b told' context :=
  ⟨h.roles, fun hneeds => hle.subset (h.counted hneeds), h.uncounted⟩

theorem Admits.mono {title : PyStr} {description status : Option PyStr} {priority : Int}
    {task : Task} (h : Admits title description status priority told task) (hle : told <+: told') :
    Admits title description status priority told' task := by
  obtain ⟨engine, context, hconsults, hcounted, hentry⟩ := h.entered
  exact ⟨⟨engine, context, hconsults.mono hle, hcounted.mono hle, hentry⟩, h.made, h.valid,
    (ids_sublist hle).subset h.drawn⟩

theorem Moved.mono {engine : Engine} {roles : List PyStr} {a b : PyStr}
    (h : Moved engine roles a b told) (hle : told <+: told') : Moved engine roles a b told' := by
  obtain ⟨context, hcounted, hcheck⟩ := h
  exact ⟨context, hcounted.mono hle, hcheck⟩

omit [Unicode] in
theorem Loaded.mono {taskId : Uuid} {task : Task} (h : Loaded taskId task told)
    (hle : told <+: told') : Loaded taskId task told' := ⟨hle.subset h.read, h.id, h.valid⟩

theorem Replaced.mono {taskId : Uuid} {title : PyStr} {description status : Option PyStr}
    {priority : Int} {roles : List PyStr} {engine : Engine} {previous updated : Task}
    (h : Replaced taskId title description status priority roles told engine previous updated)
    (hle : told <+: told') :
    Replaced taskId title description status priority roles told' engine previous updated :=
  ⟨h.loaded.mono hle, h.consults.mono hle, h.moved.mono hle, h.applied⟩

theorem Patched.mono {taskId : Uuid} {fields : PatchFields} {roles : List PyStr}
    {engine : Option Engine} {previous updated : Task}
    (h : Patched taskId fields roles told engine previous updated) (hle : told <+: told') :
    Patched taskId fields roles told' engine previous updated where
  nonempty := h.nonempty
  loaded := h.loaded.mono hle
  consults e he := (h.consults e he).mono hle
  named := h.named
  moved e he target htarget := (h.moved e he target htarget).mono hle
  applied := h.applied

end Mono

/-! ## Duties -/

/-- Queries on tasks, definitions, and single tags. -/
def Op.Reads : Op → Prop
  | .selectActive | .selectMaxVersion | .selectDefinitionId | .getTask _ | .countByStatus
  | .getTag _
  | .countTaskTags _ => True
  | _ => False

/-- Operations on the tags of a task and of a request, and the flush of a new task before them. -/
def Op.Prepares : Op → Prop
  | .selectTagNames _ | .selectTags _ | .flush | .deleteTaskTags _ => True
  | _ => False

/-- The session is about to stage these names for a task: it has inserted it, or loaded it, and done
nothing else. -/
inductive Stages (told : Told) : Call → Uuid → Option (List PyStr) → Tx → Prop where
  | new {title : PyStr} {description status : Option PyStr} {priority : Int} {name : PyStr}
      {names : List PyStr} {task : Task}
      (htask : Admits title description status priority told task) :
      Stages told (.create title description status priority (some (name :: names))) task.id
        (some (name :: names)) ⟨some .shared, [.insertTask task], some (task, task), [], []⟩
  | replace {taskId : Uuid} {title : PyStr} {description status : Option PyStr} {priority : Int}
      {tags : Option (List PyStr)} {roles : List PyStr} {task : Task}
      (htask : Loaded taskId task told) :
      Stages told (.replace taskId title description status priority tags roles) taskId
        (some (tags.getD [])) ⟨some .shared, [], some (task, task), [], []⟩
  | patch {taskId : Uuid} {fields : PatchFields} {roles : List PyStr} {task : Task}
      (htask : Loaded taskId task told) : Stages told (.patch taskId fields roles) taskId
        fields.tags.join ⟨patchGuard fields, [], some (task, task), [], []⟩

/-- **What a session has done at an operation before its commit**: a new task is flushed alone, the
tags of the task and of the request are read with nothing pending, and new tags are flushed when the
links are dropped. -/
inductive Prepares (told : Told) : Call → Op → Tx → Prop where
  | stage {title : PyStr} {description status : Option PyStr} {priority : Int} {name : PyStr}
      {names : List PyStr} {task : Task}
      (htask : Admits title description status priority told task) :
      Prepares told (.create title description status priority (some (name :: names))) .flush
        ⟨some .shared, [], none, [.task task], []⟩
  | names {call : Call} {taskId : Uuid} {names : List PyStr} {tx : Tx}
      (h : Stages told call taskId (some names) tx) : Prepares told call (.selectTagNames taskId) tx
  | rows {call : Call} {taskId : Uuid} {names : List PyStr} {tx : Tx}
      (h : Stages told call taskId (some names) tx) :
      Prepares told call (.selectTags (Dict.keys (wantedOf [] names))) tx
  | unlink {call : Call} {taskId : Uuid} {names : List PyStr} {rows minted : List Tag} {tx : Tx}
      (h : Stages told call taskId (some names) tx) (hresolved : Resolved names rows minted told) :
      Prepares told call (.deleteTaskTags taskId) { tx with added := minted.map .tag }

/-- What a session owes at an operation: nothing follows its commit, the guard comes first, its
queries see the committed tables, but for the task it is about to tag, before its commit it flushes
what `Prepares` says, and it commits what `Commits` says. -/
structure Owed (call : Call) (o : Op) (here : Tx × Notes) : Prop where
  unsaved : here.2.saved = none
  guard : ∀ mode, o = .acquireGuard mode → here = (.fresh, .blank)
  reads : Op.Reads o → writes here.1 = []
  prepares : Op.Prepares o → Prepares here.2.told call o here.1
  commit : o = .commit → Commits call here.1 here.2.told

theorem Stages.mono {told told' : Told} {call : Call} {taskId : Uuid} {names : Option (List PyStr)}
    {tx : Tx} (h : Stages told call taskId names tx) (hle : told <+: told') :
    Stages told' call taskId names tx := by
  cases h with
  | new htask => exact .new (htask.mono hle)
  | replace htask => exact .replace (htask.mono hle)
  | patch htask => exact .patch (htask.mono hle)

/-- With nothing added and the task as it was, nothing is pending. -/
theorem Stages.pending {told : Told} {call : Call} {taskId : Uuid}
    {names : Option (List PyStr)} {tx : Tx}
    (h : Stages told call taskId names tx) : pending tx = [] := by
  cases h <;> exact pending_eq_nil rfl rfl fun _ _ heq => by cases heq; rfl

/-- What has been issued when tags are staged: the new task, if it is new. -/
theorem Stages.log {told : Told} {call : Call} {taskId : Uuid}
    {names : Option (List PyStr)} {tx : Tx}
    (h : Stages told call taskId names tx) : ∀ w ∈ tx.log, ∃ t, w = .insertTask t := by
  cases h with
  | @new _ _ _ _ _ _ task => exact fun w hw => ⟨task, List.mem_singleton.1 hw⟩
  | _ => exact fun _ hw => (nomatch hw)

/-- What is pending when the links are dropped. -/
theorem Stages.pending_minted {told : Told} {call : Call} {taskId : Uuid}
    {names : Option (List PyStr)}
    {tx : Tx} (h : Stages told call taskId names tx) (minted : List Tag) :
    Store.pending { tx with added := minted.map .tag } = minted.map .insertTag := by
  cases h <;> simp [Store.pending, dirty, List.filterMap_map]

/-- The tags are read beside the new task. -/
theorem Owed.readsTags {call : Call} {o : Op} {here : Tx × Notes} (h : Owed call o here)
    (ho : (∃ taskId, o = .selectTagNames taskId) ∨ ∃ keys, o = .selectTags keys) :
    ∀ w ∈ writes here.1, ∃ t, w = .insertTask t := by
  have hnothing : ∀ {taskId : Uuid} {names : List PyStr},
      Stages here.2.told call taskId (some names) here.1 →
      ∀ w ∈ writes here.1, ∃ t, w = .insertTask t := by
    intro taskId names hstages w hw
    rw [writes, hstages.pending, List.append_nil] at hw
    exact hstages.log w hw
  rcases ho with ⟨taskId, rfl⟩ | ⟨keys, rfl⟩
  · cases h.prepares trivial with
    | names hstages => exact hnothing hstages
  · cases h.prepares trivial with
    | rows hstages => exact hnothing hstages

/-- A flush before the commit issues a new task or new tags. -/
theorem Owed.flushes {call : Call} {o : Op} {here : Tx × Notes} (h : Owed call o here)
    (ho : o = .flush ∨ ∃ taskId, o = .deleteTaskTags taskId) :
    ∀ w ∈ writes here.1, (∃ t, w = .insertTask t) ∨ ∃ t, w = .insertTag t := by
  obtain ⟨tx, notes⟩ := here
  rcases ho with rfl | ⟨taskId, rfl⟩
  · cases h.prepares trivial with
    | @stage _ _ _ _ _ _ task => exact fun w hw => .inl ⟨task, List.mem_singleton.1 hw⟩
  · cases h.prepares trivial with
    | @unlink _ _ names rows minted tx hstages =>
      intro w hw
      rw [writes, hstages.pending_minted] at hw
      rcases List.mem_append.1 hw with hw | hw
      · exact .inl (hstages.log w hw)
      · obtain ⟨t, -, rfl⟩ := List.mem_map.1 hw
        exact .inr ⟨t, rfl⟩

/-- What a call ends with: what it committed, or nothing. -/
def Ended {α : Type} (call : Call) : Except Exn α → Tx × Notes → Prop
  | .ok _, here => (∃ tx, here.2.saved = some tx ∧ Commits call tx here.2.told)
      ∨ here.2.saved = none ∧ Rests call here.2.told
  | .error _, here => here.2.saved = none

end TaskService.Sessions
