import TaskService.Sessions.Notes
import TaskService.Store.Rows

/-!
# The tables after a commit

What the transactions of `Commits` do to the tables, one lemma for each form: the statements of a
flush by table, then the tables they leave.

* **`Effect`**: what a commit does to the tables, call by call.
* **`Commits.effect`**: every transaction of `Commits` has its effect.
-/

namespace TaskService.Sessions

open Store Tasks Tags Workflows Concurrency

/-! ## Statements by table -/

section Inserts

variable [Jsonb]

theorem view_insertOutbox (db : Db) (rows : List (OutboxRecord Event)) :
    view db (rows.map .insertOutbox) = { db with outbox := db.outbox ++ rows } := by
  induction rows generalizing db with
  | nil => simp
  | cons r rows ih =>
    rw [List.map_cons, view_cons, ih]
    simp [Write.apply]

theorem view_insertTag (db : Db) (tags : List Tag) :
    view db (tags.map .insertTag) = { db with tags := db.tags ++ tags } := by
  induction tags generalizing db with
  | nil => simp
  | cons t tags ih =>
    rw [List.map_cons, view_cons, ih]
    simp [Write.apply]

theorem view_insertTaskTag (db : Db) (links : List TaskTag) :
    view db (links.map .insertTaskTag) = { db with taskTags := db.taskTags ++ links } := by
  induction links generalizing db with
  | nil => simp
  | cons l links ih =>
    rw [List.map_cons, view_cons, ih]
    simp [Write.apply]

end Inserts

/-- The links once a task is linked to other tags, if it is. -/
def relinked (links : List TaskTag) (taskId : Uuid) : Option Retag → List TaskTag
  | none => links
  | some retag => links.filter (fun l => l ∉ retag.gone) ++ linksTo taskId retag.tags

/-- The tasks after an UPDATE of one of them; nothing changes where nothing was changed. -/
def amended (tasks : List Task) (loaded current : Task) : List Task :=
  tasks.map fun row => if row.id = loaded.id then updated loaded current row else row

theorem updated_self (loaded row : Task) : updated loaded loaded row = row := by
  simp [updated, column]

theorem amended_self (tasks : List Task) (loaded : Task) : amended tasks loaded loaded = tasks := by
  simp [amended, updated_self]

section Dirty

variable [Jsonb]

/-- The UPDATE of the held task. -/
theorem view_dirty {lock : Option LockMode} {log deleted : List Write} {added : List NewRow}
    (loaded current : Task) (db : Db) :
    view db (dirty ⟨lock, log, some (loaded, current), added, deleted⟩)
      = { db with tasks := amended db.tasks loaded current } := by
  by_cases heq : loaded = current
  · subst heq
    simp [dirty, amended_self]
  · simp only [dirty, heq, if_false]
    rfl

end Dirty

/-! ## Pending changes -/

section Pending

/-- The tags a flush has yet to insert. -/
def unissuedTags (minted : List Tag) : Option Retag → List Tag
  | none => minted
  | some _ => []

/-- The links a flush has yet to insert. -/
def unissuedLinks (taskId : Uuid) : Option Retag → List TaskTag
  | none => []
  | some retag => linksTo taskId retag.tags

theorem addedTags_eq (taskId : Uuid) (minted : List Tag) (retag : Option Retag) :
    addedTags taskId minted retag = (unissuedTags minted retag).map .tag
      ++ (unissuedLinks taskId retag).map .taskTag := by
  cases retag <;> simp [addedTags, unissuedTags, unissuedLinks]

variable {lock : Option LockMode} {log : List Write} {held : Option (Task × Task)} {taskId : Uuid}
  {minted : List Tag} {retag : Option Retag} {rows : List (OutboxRecord Event)}

/-- What is pending when a task is saved with its tags and events. -/
theorem pending_saving :
    pending ⟨lock, log, held, addedTags taskId minted retag ++ rows.map .outbox, []⟩
    = rows.map .insertOutbox ++ (unissuedTags minted retag).map .insertTag
      ++ (unissuedLinks taskId retag).map .insertTaskTag
      ++ dirty ⟨lock, log, held, addedTags taskId minted retag ++ rows.map .outbox, []⟩ := by
  rw [addedTags_eq]
  simp [pending, List.filterMap_append, List.filterMap_map]

/-- What is pending when a new task is saved at once. -/
theorem pending_create {task : Task} :
    pending ⟨lock, log, none, .task task :: rows.map .outbox, []⟩
      = rows.map .insertOutbox ++ [.insertTask task] := by
  simp [pending, dirty, List.filterMap_map]

theorem pending_insertVersion {r : WorkflowRecord} :
    pending ⟨lock, log, none, .workflow r :: rows.map .outbox, []⟩
      = rows.map .insertOutbox ++ [.insertWorkflow r] := by
  simp [pending, dirty, List.filterMap_map]

/-- What is pending when something is deleted. -/
theorem pending_delete {deleted : List Write} {loaded : Option Task} :
    pending ⟨lock, log, loaded.map fun t => (t, t), rows.map .outbox, deleted⟩
      = rows.map .insertOutbox ++ deleted := by
  have hdirty : dirty ⟨lock, log, loaded.map fun t => (t, t), rows.map .outbox, deleted⟩ = [] := by
    cases loaded <;> simp [dirty]
  unfold pending
  rw [hdirty]
  simp [List.filterMap_map]

end Pending

/-! ## Committed tables -/

section Views

variable [Jsonb] {lock : Option LockMode} {taskId : Uuid} {minted : List Tag}
  {retag : Option Retag} {rows : List (OutboxRecord Event)}

theorem view_create (task : Task) (db : Db) :
    view db (writes ⟨lock, [], none, .task task :: rows.map .outbox, []⟩)
      = { db with tasks := db.tasks ++ [task]
                  outbox := db.outbox ++ rows } := by
  rw [writes, pending_create, List.nil_append, view_append, view_insertOutbox]
  rfl

/-- A held task is saved: its UPDATE, its tags and links, and the events. -/
theorem view_saving {log : List Write} (loaded current : Task) (db : Db) :
    view db (writes ⟨lock, log ++ issuedTags minted retag, some (loaded, current),
        addedTags taskId minted retag ++ rows.map .outbox, []⟩)
      = { view db log with
          tasks := amended (view db log).tasks loaded current
          tags := (view db log).tags ++ minted
          taskTags := relinked (view db log).taskTags taskId retag
          outbox := (view db log).outbox ++ rows } := by
  rw [writes, pending_saving]
  simp only [view_append, view_dirty, view_insertOutbox,
    view_insertTag, view_insertTaskTag]
  cases retag with
  | none => simp [issuedTags, unissuedTags, unissuedLinks, relinked]
  | some retag =>
    simp [issuedTags, unissuedTags, unissuedLinks, relinked, Write.apply, view_insertTag]

theorem view_update (loaded current : Task) (db : Db) :
    view db (writes ⟨lock, issuedTags minted retag, some (loaded, current),
        addedTags taskId minted retag ++ rows.map .outbox, []⟩)
      = { db with tasks := amended db.tasks loaded current
                  tags := db.tags ++ minted
                  taskTags := relinked db.taskTags taskId retag
                  outbox := db.outbox ++ rows } :=
  @view_saving _ lock taskId minted retag rows [] loaded current db

theorem view_createTagged (task : Task) (db : Db) :
    view db (writes ⟨lock, .insertTask task :: issuedTags minted retag, some (task, task),
        addedTags taskId minted retag ++ rows.map .outbox, []⟩)
      = { db with tasks := db.tasks ++ [task]
                  tags := db.tags ++ minted
                  taskTags := relinked db.taskTags taskId retag
                  outbox := db.outbox ++ rows } := by
  have h := @view_saving _ lock taskId minted retag rows [.insertTask task] task task db
  rw [amended_self] at h
  exact h

theorem view_delete (task : Task) (db : Db) :
    view db (writes ⟨none, [], some (task, task), rows.map .outbox, [.deleteTask taskId]⟩)
      = { db with tasks := db.tasks.filter fun row => row.id ≠ taskId
                  taskTags := db.taskTags.filter fun l => l.taskId ≠ taskId
                  outbox := db.outbox ++ rows } := by
  have hpending : pending ⟨none, [], some (task, task), rows.map .outbox, [.deleteTask taskId]⟩
      = rows.map .insertOutbox ++ [.deleteTask taskId] :=
  @pending_delete none [] rows [.deleteTask taskId] (some task)
  rw [writes, hpending, List.nil_append, view_append, view_insertOutbox]
  rfl

theorem view_deleteTag (tagId : Uuid) (db : Db) :
    view db (writes ⟨none, [], none, rows.map .outbox, [.deleteTag tagId]⟩)
      = { db with tags := db.tags.filter fun row => row.id ≠ tagId
                  taskTags := db.taskTags.filter fun l => l.tagId ≠ tagId
                  outbox := db.outbox ++ rows } := by
  have hpending : pending ⟨none, [], none, rows.map .outbox, [.deleteTag tagId]⟩
      = rows.map .insertOutbox ++ [.deleteTag tagId] :=
  @pending_delete none [] rows [.deleteTag tagId] none
  rw [writes, hpending, List.nil_append, view_append, view_insertOutbox]
  rfl

theorem view_insertVersion (r : WorkflowRecord) (db : Db) :
    view db (writes ⟨lock, [], none, .workflow r :: rows.map .outbox, []⟩)
      = { db with workflows := db.workflows ++ [{ r with document := Jsonb.store r.document }]
                  outbox := db.outbox ++ rows } := by
  rw [writes, pending_insertVersion, List.nil_append, view_append, view_insertOutbox]
  rfl

end Views

/-! ## Events -/

/-- The task an event is about. -/
def subject? : EventBody → Option Uuid
  | .taskCreated task | .taskUpdated task _ _ | .taskStatusChanged task _ _ | .taskCompleted task
  | .taskDeleted task => some task.id
  | .taskTagsChanged taskId _ _ _ => some taskId
  | .tagDeleted _ _ | .workflowUpdated _ _ => none

theorem subject_updateBodies {updated previous : Task} {completes : Bool} :
    ∀ body ∈ updateBodies updated previous completes, subject? body = some updated.id := by
  unfold updateBodies
  split
  · simp
  · refine List.forall_mem_cons.2 ⟨rfl, ?_⟩
    split
    · simp
    · refine List.forall_mem_cons.2 ⟨rfl, ?_⟩
      split <;> simp [subject?]

theorem Staged.mem_bodies {bodies : List EventBody} {rows : List (OutboxRecord Event)} {told : Told}
    (h : Staged bodies rows told) {r : OutboxRecord Event} (hr : r ∈ rows) :
    r.event.body ∈ bodies := by
  rw [← h.bodies]
  exact List.mem_map_of_mem hr

theorem TagStage.subject [Unicode] {taskId : Uuid} {told : Told} {names : Option (List PyStr)}
    {minted : List Tag} {retag : Option Retag} {event : Option EventBody}
    (h : TagStage taskId told names minted retag event) :
    ∀ body ∈ event, subject? body = some taskId := by
  cases h with
  | changed => exact fun body hbody => Option.some.inj hbody ▸ rfl
  | _ => simp

/-! ## Effects -/

/-- The task a call changes or deletes. -/
def taskOf : Call → Option Uuid
  | .replace taskId .. | .patch taskId .. | .delete taskId => some taskId
  | _ => none

/-- The names `create` stages tags for. -/
def namesOf : Option (List PyStr) → Option (List PyStr)
  | none | some [] => none
  | some names => some names

variable [Unicode]

/-- A change of a task that passed every check, with the names its tags are staged for. -/
inductive Changes (told : Told) :
    Call → Uuid → Option (List PyStr) → Option Engine → Task → Task → Prop where
  | replace {taskId : Uuid} {title : PyStr} {description status : Option PyStr} {priority : Int}
      {tags : Option (List PyStr)} {roles : List PyStr} {engine : Engine} {previous updated : Task}
      (htask :
        Replaced taskId title description status priority roles told engine previous updated) :
      Changes told (.replace taskId title description status priority tags roles) taskId
        (some (tags.getD [])) (some engine) previous updated
  | patch {taskId : Uuid} {fields : PatchFields} {roles : List PyStr} {engine : Option Engine}
      {previous updated : Task} (htask : Patched taskId fields roles told engine previous updated) :
      Changes told (.patch taskId fields roles) taskId fields.tags.join engine previous updated

/-- The task changed is the one of the call, and it keeps its id. -/
theorem Changes.ids {told : Told} {call : Call} {taskId : Uuid} {names : Option (List PyStr)}
    {engine : Option Engine} {previous updated : Task}
    (h : Changes told call taskId names engine previous updated) :
    previous.id = taskId ∧ updated.id = taskId := by
  cases h with
  | replace htask =>
    obtain ⟨-, rfl⟩ := Task.applyReplace_eq_ok.1 htask.applied
    exact ⟨htask.loaded.id, htask.loaded.id⟩
  | patch htask =>
    obtain ⟨-, -, rfl⟩ := Task.applyPatch_eq_ok.1 htask.applied
    exact ⟨htask.loaded.id, htask.loaded.id⟩

/-- The events of a change are about the task. -/
theorem Narrates.subject {engine : Option Engine} {previous updated : Task} {told : Told}
    {event : Option EventBody} {rows : List (OutboxRecord Event)}
    (h : Narrates engine previous updated event rows told)
    (hevent : ∀ body ∈ event, subject? body = some updated.id) :
    ∀ r ∈ rows, subject? r.event.body = some updated.id := by
  obtain ⟨completes, hstaged, -⟩ := h.staged
  intro r hr
  rcases List.mem_append.1 (hstaged.mem_bodies hr) with hbody | hbody
  · exact subject_updateBodies _ hbody
  · exact hevent _ (Option.mem_toList.1 hbody)

variable [Jsonb]

omit [Unicode] [Jsonb] in
/-- The statements of a change of a task. -/
theorem mem_writes_saving {lock : Option LockMode} {taskId : Uuid} {minted : List Tag}
    {retag : Option Retag} {rows : List (OutboxRecord Event)} {previous updated : Task}
    {w : Write} :
    w ∈ writes ⟨lock, issuedTags minted retag, some (previous, updated),
        addedTags taskId minted retag ++ rows.map .outbox, []⟩
      ↔ (∃ r ∈ rows, w = .insertOutbox r) ∨ (∃ t ∈ minted, w = .insertTag t)
        ∨ (∃ l ∈ unissuedLinks taskId retag, w = .insertTaskTag l)
        ∨ (∃ change ∈ retag, w = .deleteTaskTags change.gone)
        ∨ previous ≠ updated ∧ w = .updateTask previous updated := by
  have hdirty : w ∈ dirty ⟨lock, issuedTags minted retag, some (previous, updated),
      addedTags taskId minted retag ++ rows.map .outbox, []⟩
        ↔ previous ≠ updated ∧ w = .updateTask previous updated := by
    simp [mem_dirty_iff, and_assoc]
  rw [writes, pending_saving, List.mem_append, List.mem_append, hdirty]
  cases retag with
  | none => simp [issuedTags, unissuedTags, unissuedLinks, eq_comm, or_assoc]
  | some change =>
    simp only [issuedTags, unissuedTags, unissuedLinks, List.mem_append, List.mem_map, eq_comm,
      List.mem_singleton, List.not_mem_nil, false_and, exists_false, false_or, Option.mem_def,
      Option.some.injEq, exists_eq_left', or_assoc, or_left_comm, or_comm]

omit [Jsonb] in
/-- A change or a deletion inserts no task. -/
theorem Commits.not_inserted {call : Call} {tx : Tx} {told : Told} (h : Commits call tx told)
    {taskId : Uuid} (htask : taskOf call = some taskId) (t : Task) : .insertTask t ∉ writes tx := by
  cases h with
  | replace | patch => simp [mem_writes_saving]
  | @delete taskId' task rows _ htask hrows =>
    have hpending := @pending_delete none [] rows [.deleteTask taskId'] (some task)
    change pending ⟨none, [], some (task, task), rows.map .outbox, [.deleteTask taskId']⟩ = _
      at hpending
    rw [writes, hpending]
    simp
  | _ => cases htask

/-- **What a commit does to the tables**, call by call. -/
inductive Effect (told : Told) (tx : Tx) (db : Db) : Call → Db → Prop where
  | created {title : PyStr} {description status : Option PyStr} {priority : Int}
      {tags : Option (List PyStr)} {task : Task} {minted : List Tag} {retag : Option Retag}
      {event : Option EventBody} {rows : List (OutboxRecord Event)}
      (htask : Admits title description status priority told task)
      (hstage : TagStage task.id told (namesOf tags) minted retag event)
      (hrows : Staged (.taskCreated task :: event.toList) rows told)
      (hlock : tx.lock = some .shared) :
      Effect told tx db (.create title description status priority tags)
        { db with tasks := db.tasks ++ [task]
                  tags := db.tags ++ minted
                  taskTags := relinked db.taskTags task.id retag
                  outbox := db.outbox ++ rows }
  | changed {call : Call} {taskId : Uuid} {names : Option (List PyStr)} {engine : Option Engine}
      {previous updated : Task} {minted : List Tag} {retag : Option Retag}
      {event : Option EventBody} {rows : List (OutboxRecord Event)}
      (htask : Changes told call taskId names engine previous updated)
      (hstage : TagStage taskId told names minted retag event)
      (hrows : Narrates engine previous updated event rows told)
      (hlock : tx.lock = if engine.isSome then some .shared else none)
      (htracked : tx.tracked = some (previous, updated)) :
      Effect told tx db call
        { db with tasks := amended db.tasks previous updated
                  tags := db.tags ++ minted
                  taskTags := relinked db.taskTags taskId retag
                  outbox := db.outbox ++ rows }
  | deleted {taskId : Uuid} {task : Task} {rows : List (OutboxRecord Event)}
      (htask : Loaded taskId task told) (hrows : Staged [.taskDeleted task] rows told)
      (hlock : tx.lock = none) :
      Effect told tx db (.delete taskId)
        { db with tasks := db.tasks.filter fun row => row.id ≠ taskId
                  taskTags := db.taskTags.filter fun l => l.taskId ≠ taskId
                  outbox := db.outbox ++ rows }
  | tagDeleted {tagId : Uuid} {tag : Tag} {rows : List (OutboxRecord Event)}
      (htag : .tag tagId (some tag) ∈ told) (hid : tag.id = tagId)
      (hcount : .linkCount tagId 0 ∈ told) (hrows : Staged [.tagDeleted tagId tag.name] rows told)
      (hlock : tx.lock = none) :
      Effect told tx db (.deleteTag tagId)
        { db with tags := db.tags.filter fun row => row.id ≠ tagId
                  taskTags := db.taskTags.filter fun l => l.tagId ≠ tagId
                  outbox := db.outbox ++ rows }
  | defined {document : {d : Json // d.Wf}} {w : Workflow} {counts : Dict PyStr Nat}
      {highest : Option Nat} {createdAt : Time} {rows : List (OutboxRecord Event)}
      (hparse : workflowFromDocument document = .ok w) (hcounts : .counts counts ∈ told)
      (hfree : ∀ kv ∈ counts, kv.1 ∈ w.stateNames) (hhighest : .highest highest ∈ told)
      (hrows : Staged [.workflowUpdated (highest.getD 0 + 1) w.stateNames] rows told)
      (hlock : tx.lock = some .exclusive) :
      Effect told tx db (.replaceActive document)
        { db with workflows := db.workflows
                    ++ [⟨highest.getD 0 + 1, Jsonb.store (workflowToDocument w), createdAt⟩]
                  outbox := db.outbox ++ rows }
  | seeded {highest : Option Nat} {createdAt : Time} {w : Workflow}
      (hdefault : defaultWorkflow = .ok w)
      (hstored : .stored false ∈ told) (hhighest : .highest highest ∈ told)
      (hlock : tx.lock = some .exclusive) :
      Effect told tx db .seed
        { db with workflows := db.workflows
                    ++ [⟨highest.getD 0 + 1, Jsonb.store (workflowToDocument w), createdAt⟩] }

/-- **Every transaction of `Commits` has its effect.** -/
theorem Commits.effect {call : Call} {tx : Tx} {told : Told} (h : Commits call tx told) (db : Db) :
    Effect told tx db call (view db (writes tx)) := by
  cases h with
  | @create title description status priority tags task rows _ htags htask hrows =>
    have hnames : namesOf tags = none := by rcases htags with rfl | rfl <;> rfl
    have hstage : TagStage task.id told (namesOf tags) [] none none := hnames ▸ .omitted
    have heffect : Effect told ⟨some .shared, [], none, .task task :: rows.map .outbox, []⟩ db
        (.create title description status priority tags) _ := .created htask hstage hrows rfl
    rw [view_create]
    simpa [relinked] using heffect
  | createTagged htask hstage hrows =>
    rw [view_createTagged]
    exact .created htask hstage hrows rfl
  | replace htask hstage hrows =>
    rw [view_update]
    exact .changed (.replace htask) hstage hrows rfl rfl
  | patch htask hstage hrows =>
    rw [view_update]
    refine .changed (.patch htask) hstage hrows ?_ rfl
    show patchGuard _ = _
    rw [patchGuard, htask.named]
  | delete htask hrows =>
    rw [view_delete]
    exact .deleted htask hrows rfl
  | deleteTag htag hid hcount hrows =>
    rw [view_deleteTag]
    exact .tagDeleted htag hid hcount hrows rfl
  | replaceActive hparse hcounts hfree hhighest hrows =>
    rw [view_insertVersion]
    exact .defined hparse hcounts hfree hhighest hrows rfl
  | @seed highest createdAt w _ hdefault hstored hhighest =>
    have hview := @view_insertVersion _ (some .exclusive) []
      ⟨highest.getD 0 + 1, workflowToDocument w, createdAt⟩ db
    rw [List.map_nil, List.append_nil] at hview
    rw [hview]
    exact .seeded hdefault hstored hhighest rfl

end TaskService.Sessions
