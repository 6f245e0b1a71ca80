import TaskService.Concurrency.Moves
import TaskService.Sessions.Limits

/-!
# Replacements of one task, side by side

An UPDATE sets the columns in which the request differs from the row the session loaded. When
another session has changed a column in between that the request leaves as it was loaded, two
requests blend into one row.

* **`blended_replacement`**: two replacements return, and the row is what neither asked for.
* **`replacement_met`**: while every column a replacement leaves out still holds what it loaded, the
  row is as the last replacement asked, and its `TaskUpdated` shows that row.
-/

namespace TaskService.Sessions

open Store Tasks Tags Workflows Concurrency

/-! ## Requests -/

/-- A replacement that has committed: its request, the definition active at its commit, and the
events it staged. -/
structure Replacement where
  title : PyStr
  description : Option PyStr
  status : Option PyStr
  priority : Int
  workflow : Workflow
  events : List (OutboxRecord Event)

/-- The row is as the replacement asked, and its `TaskUpdated`, if any, shows the row. -/
structure Replacement.Met (r : Replacement) (row : Task) : Prop where
  title : row.title = strip r.title
  description : row.description = r.description
  status : row.status = r.status.getD (Engine.mk r.workflow).defaultEntry
  priority : row.priority = r.priority
  events : ∀ x ∈ r.events, ∀ snapshot previous changed,
    x.event.body = .taskUpdated snapshot previous changed → snapshot = row

/-! ## Columns -/

/-- Where the UPDATE leaves a column out, the row holds what was loaded. -/
def Kept {α : Type} (col : Task → α) (loaded current row : Task) : Prop :=
  col loaded = col current → col row = col loaded

theorem Kept.column_eq {α : Type} [DecidableEq α] {col : Task → α} {loaded current row : Task}
    (h : Kept col loaded current row) :
    column (col loaded) (col current) (col row) = col current := by
  unfold column
  split
  next heq => rw [h heq, heq]
  next => rfl

/-- The columns an UPDATE leaves out hold what was loaded; where it sets none, the row is there. -/
structure Untouched (tasks : List Task) (loaded current : Task) : Prop where
  title : ∀ row ∈ tasks, row.id = loaded.id → Kept Task.title loaded current row
  titleKey : ∀ row ∈ tasks, row.id = loaded.id → Kept Task.titleKey loaded current row
  description : ∀ row ∈ tasks, row.id = loaded.id → Kept Task.description loaded current row
  status : ∀ row ∈ tasks, row.id = loaded.id → Kept Task.status loaded current row
  priority : ∀ row ∈ tasks, row.id = loaded.id → Kept Task.priority loaded current row
  there : loaded = current → ∃ row ∈ tasks, row.id = loaded.id

/-- A row whose left-out columns hold what was loaded becomes the row of the session. -/
theorem Untouched.updated_eq {tasks : List Task} {loaded current row : Task}
    (h : Untouched tasks loaded current) (hrow : row ∈ tasks) (hid : row.id = loaded.id)
    (hcurrent : current.id = loaded.id) (hcreatedAt : row.createdAt = loaded.createdAt) :
    updated loaded current row = current := by
  have hcreated : Kept Task.createdAt loaded current row := fun _ => hcreatedAt
  unfold updated
  rw [(h.title row hrow hid).column_eq, (h.titleKey row hrow hid).column_eq,
    (h.description row hrow hid).column_eq, (h.status row hrow hid).column_eq,
    (h.priority row hrow hid).column_eq, hcreated.column_eq, hid, ← hcurrent]

section Changed

variable [Unicode] {told : Told} {call : Call} {taskId : Uuid} {names : Option (List PyStr)}
  {engine : Option Engine} {previous current : Task}

/-- No call changes when a task was created. -/
theorem Changes.createdAt (h : Changes told call taskId names engine previous current) :
    current.createdAt = previous.createdAt := by
  cases h with
  | replace htask =>
    obtain ⟨-, rfl⟩ := Task.applyReplace_eq_ok.1 htask.applied
    rfl
  | patch htask =>
    obtain ⟨-, -, rfl⟩ := Task.applyPatch_eq_ok.1 htask.applied
    rfl

/-- The `TaskUpdated` of a change shows the row the session left. -/
theorem Narrates.snapshot {event : Option EventBody} {rows : List (OutboxRecord Event)}
    (h : Narrates engine previous current event rows told)
    (hevent : ∀ body ∈ event, ∀ snapshot before changed,
    body ≠ .taskUpdated snapshot before changed) :
    ∀ x ∈ rows, ∀ snapshot before changed,
      x.event.body = .taskUpdated snapshot before changed → snapshot = current := by
  obtain ⟨completes, hstaged, -⟩ := h.staged
  intro x hx snapshot before changed hbody
  rcases List.mem_append.1 (hstaged.mem_bodies hx) with hmem | hmem
  · rw [hbody] at hmem
    unfold updateBodies at hmem
    split at hmem
    · cases hmem
    · rcases List.mem_cons.1 hmem with heq | hmem
      · exact (EventBody.taskUpdated.inj heq).1
      · split at hmem
        · cases hmem
        · rcases List.mem_cons.1 hmem with heq | hmem
          · cases heq
          · split at hmem <;> simp at hmem
  · exact absurd hbody (hevent _ (Option.mem_toList.1 hmem) snapshot before changed)

theorem TagStage.not_updated {minted : List Tag} {retag : Option Retag} {event : Option EventBody}
    (h : TagStage taskId told names minted retag event) :
    ∀ body ∈ event, ∀ snapshot before changed, body ≠ .taskUpdated snapshot before changed := by
  cases h with
  | changed =>
    intro body hbody snapshot before changed heq
    obtain rfl := Option.some.inj hbody
    cases heq
  | _ => simp

end Changed

/-! ## When a task was created -/

/-- The rows hold what the session was told of when tasks were created. -/
def KnowsCreation (here : Tx × Notes) (st : Server) : Prop :=
  here.2.saved = none → ∀ id task, .task id (some task) ∈ here.2.told →
    ∀ row ∈ st.db.tasks, row.id = task.id → row.createdAt = task.createdAt

section Runs

variable [Unicode] [Jsonb] [Runtime]

omit [Runtime] in
/-- A commit does not change when a task was created, unless it creates it. -/
theorem Effect.createdAt {told : Told} {tx : Tx} {db db' : Db} {call : Call}
    (h : Effect told tx db call db') {row : Task} (hrow : row ∈ db'.tasks) :
    (∃ row' ∈ db.tasks, row'.id = row.id ∧ row'.createdAt = row.createdAt) ∨ row.id ∈ told.ids := by
  cases h with
  | created htask =>
    rcases List.mem_append.1 hrow with hrow | hrow
    · exact .inl ⟨row, hrow, rfl, rfl⟩
    · rw [List.mem_singleton.1 hrow]
      exact .inr htask.drawn
  | changed htask =>
    obtain ⟨row', hrow', rfl⟩ := List.mem_map.1 hrow
    refine .inl ⟨row', hrow', ?_⟩
    split
    · refine ⟨rfl, ?_⟩
      show row'.createdAt = column _ _ row'.createdAt
      rw [column, if_pos htask.createdAt.symm]
    · exact ⟨rfl, rfl⟩
  | deleted => exact .inl ⟨row, (List.mem_filter.1 hrow).1, rfl, rfl⟩
  | _ => exact .inl ⟨row, hrow, rfl, rfl⟩

/-- **What an open session was told of when tasks were created stays so.** -/
theorem creation_told {world : NotedWorld} (h : world.Reachable) :
    ∀ th ∈ world.threads, KnowsCreation th.here world.shared := by
  refine facts_of_reachable (P := fun _ here st => KnowsCreation here st)
    (fun _ _ _ _ _ hmem => nomatch hmem) (fun hreach hturn => ?_) h
  rename_i before after call o k tx notes st
  have happart := apart_of_reachable hreach hturn.owed.unsaved
  constructor
  · intro hknows hsaved id task hmem row hrow hid
    obtain ⟨new, htold, hnew⟩ := hturn.owed.told_cases
    rcases hturn.owed.db_cases with ⟨hdb, -⟩ | ⟨rfl, heq, -, -⟩
    · rw [htold] at hmem
      rw [hdb] at hrow
      rcases List.mem_append.1 hmem with hold | hmem
      · exact hknows hturn.owed.unsaved id task hold row hrow hid
      · have hfound : some task = st.db.tasks.find? fun t => t.id = id :=
          (hnew _ (Option.mem_toList.1 hmem)).1
        have htask := List.mem_of_find?_eq_some hfound.symm
        rw [List.inj_on_of_nodup_map (nodup_tasks_of_reachable hreach) hrow htask hid]
    · rw [heq] at hsaved
      cases hsaved
  · intro other hother hknows hsaved id task hmem row hrow hid
    rcases hturn.owed.db_cases with ⟨hdb, -⟩ | ⟨rfl, heq, hcommits, -⟩
    · rw [hdb] at hrow
      exact hknows hsaved id task hmem row hrow hid
    · rw [heq] at hrow
      rcases (hcommits.effect st.db).createdAt hrow with ⟨row', hrow', hid', hcreated⟩ | hdrawn
      · rw [← hcreated]
        exact hknows hsaved id task hmem row' hrow' (hid'.trans hid)
      · -- a task just created is one no other session was told of
        have hseen : task.id ∈ other.here.2.told.seen :=
          List.mem_flatMap.2 ⟨_, hmem, by simp [Answer.ids]⟩
        exact absurd (hid ▸ hseen) ((happart row.id hdrawn).2.2 other hother)

/-! ## The last replacement -/

/-- The row of a task. -/
def taskRow (db : Db) (taskId : Uuid) : Option Task := db.tasks.find? fun t => t.id = taskId

/-- The step commits a change or the deletion of the task. -/
def Writes (taskId : Uuid) (world : World) (action : Interleaving.Action Call) : Prop :=
  ∃ i call tx, action = .run i ∧ taskOf call = some taskId ∧ Saves world i call tx

/-- Every column that the UPDATE of a session leaves out is still as the session loaded it. -/
def Intact (db : Db) (tx : Tx) : Prop :=
  ∀ loaded current, tx.tracked = some (loaded, current) → Untouched db.tasks loaded current

/-- **The runs of the service, with the replacement that was the last to commit on the task.** When
it committed, it met the condition. -/
inductive LastReplaced (taskId : Uuid) : Option Replacement → World → Prop where
  | start {world : World} (h : world.Reachable) : LastReplaced taskId none world
  | replaced {last : Option Replacement} {world world' : World} {i : Nat} {title : PyStr}
      {description status : Option PyStr} {priority : Int} {tags : Option (List PyStr)}
      {roles : List PyStr} {tx : Tx} {workflow : Workflow} {events : List (OutboxRecord Event)}
      (h : LastReplaced taskId last world)
      (hstep : Interleaving.step rules world (.run i) = some world')
      (hsaves : Saves world i (.replace taskId title description status priority tags roles) tx)
      (hintact : Intact world.shared.db tx)
      (hactive : activeWorkflow world.shared.db = some workflow)
      (hevents : world'.shared.db.outbox = world.shared.db.outbox ++ events) :
      LastReplaced taskId (some ⟨title, description, status, priority, workflow, events⟩) world'
  | written {last : Option Replacement} {world world' : World} {action : Interleaving.Action Call}
      (h : LastReplaced taskId last world)
      (hstep : Interleaving.step rules world action = some world')
      (hwrites : Writes taskId world action) : LastReplaced taskId none world'
  | other {last : Option Replacement} {world world' : World} {action : Interleaving.Action Call}
      (h : LastReplaced taskId last world)
      (hstep : Interleaving.step rules world action = some world')
      (hother : ¬ Writes taskId world action) : LastReplaced taskId last world'

theorem LastReplaced.reachable {taskId : Uuid} {last : Option Replacement} {world : World}
    (h : LastReplaced taskId last world) : world.Reachable := by
  induction h with
  | start h => exact h
  | replaced _ hstep _ _ _ _ ih => exact ih.tail _ hstep
  | written _ hstep _ ih => exact ih.tail _ hstep
  | other _ hstep _ ih => exact ih.tail _ hstep

omit [Runtime] in
/-- A replacement that finds its row with every left-out column as loaded leaves the row of its
session. -/
theorem Effect.replaced {told : Told} {tx : Tx} {db db' : Db} {taskId : Uuid} {title : PyStr}
    {description status : Option PyStr} {priority : Int} {tags : Option (List PyStr)}
    {roles : List PyStr} {workflow : Workflow} {events : List (OutboxRecord Event)}
    (h : Effect told tx db (.replace taskId title description status priority tags roles) db')
    (hintact : Intact db tx) (hactive : activeWorkflow db = some workflow)
    (hevents : db'.outbox = db.outbox ++ events) (hids : (db'.tasks.map Task.id).Nodup)
    (hknows : tx.lock ≠ none → ∀ answer ∈ told, answer.OnDefinitions → answer.Holds db)
    (hcreation : ∀ id task, .task id (some task) ∈ told →
      ∀ row ∈ db.tasks, row.id = task.id → row.createdAt = task.createdAt)
    (hfound : ∀ previous current, tx.tracked = some (previous, current) → previous ≠ current →
      ∃ row ∈ db.tasks, row.id = previous.id) :
    ∃ row, taskRow db' taskId = some row
      ∧ Replacement.Met ⟨title, description, status, priority, workflow, events⟩ row := by
  cases h with
  | @changed _ _ _ _ previous current minted retag added rows hchange hstage hrows hlock htracked =>
    obtain ⟨hprevious, hcurrent⟩ := hchange.ids
    have hloaded := hchange.loaded
    cases hchange with
    | @replace _ _ _ _ _ _ _ engine _ _ htask =>
      have huntouched := hintact previous current htracked
      obtain ⟨row, hrow, hid⟩ : ∃ row ∈ db.tasks, row.id = previous.id := by
        by_cases heq : previous = current
        · exact huntouched.there heq
        · exact hfound previous current htracked heq
      -- Every column is what the session asked for: it wrote the ones that it changed, and found
      -- the others as it had loaded them.
      have hupdated : updated previous current row = current :=
        huntouched.updated_eq hrow hid (hcurrent.trans hprevious.symm)
          (hcreation taskId previous hloaded.read row hrow hid)
      have hmem : current ∈ amended db.tasks previous current :=
        List.mem_map.2 ⟨row, hrow, (if_pos hid).trans hupdated⟩
      have hfind := find?_task hids hmem
      rw [hcurrent] at hfind
      -- The session holds the lock on the definitions, so the one that it read is still active.
      obtain rfl : workflow = engine.workflow := by
        have hconsulted := htask.consults.active (hknows (by rw [hlock]; simp))
        exact Option.some.inj (hactive.symm.trans hconsulted)
      obtain rfl : rows = events := List.append_cancel_left hevents
      have hsnapshot := hrows.snapshot hstage.not_updated
      obtain ⟨-, hrequested⟩ := Task.applyReplace_eq_ok.1 htask.applied
      refine ⟨current, hfind, ?_, ?_, ?_, ?_, hsnapshot⟩ <;> rw [hrequested]

/-- A replacement that commits leaves the row it asked for. -/
theorem replaced_row {world world' : World} (h : world.Reachable) {i : Nat} {taskId : Uuid}
    {title : PyStr} {description status : Option PyStr} {priority : Int}
    {tags : Option (List PyStr)}
    {roles : List PyStr} {tx : Tx} {workflow : Workflow} {events : List (OutboxRecord Event)}
    (hstep : Interleaving.step rules world (.run i) = some world')
    (hsaves : Saves world i (.replace taskId title description status priority tags roles) tx)
    (hintact : Intact world.shared.db tx) (hactive : activeWorkflow world.shared.db = some workflow)
    (hevents : world'.shared.db.outbox = world.shared.db.outbox ++ events) :
    ∃ row, taskRow world'.shared.db taskId = some row
      ∧ Replacement.Met ⟨title, description, status, priority, workflow, events⟩ row := by
  obtain ⟨noted, noted', k, notes, rfl, rfl, hrun, hshared, hcommits, hpass⟩ :=
    exists_noted_save h hstep hsaves
  have hmem := List.mem_of_getElem? hrun.here
  have hdb : noted'.forget.shared.db = view noted.forget.shared.db (writes tx) := by rw [hshared]
  have heffect := hcommits.effect noted.forget.shared.db
  rw [← hdb] at heffect
  refine heffect.replaced hintact hactive hevents (nodup_tasks_of_reachable hrun.reachable')
    (definitions_told hrun.reachable _ hmem)
    (creation_told hrun.reachable _ hmem hrun.turn.owed.unsaved)
      fun previous current htracked hne => ?_
  -- the UPDATE of a row that is gone is refused
  have hpending : .updateTask previous current ∈ pending tx :=
    mem_pending_iff.2 (.inr (.inl (mem_dirty_iff.2 ⟨previous, current, htracked, hne, rfl⟩)))
  refine hpass.task_there hpending rfl fun t ht => ?_
  exact absurd ht (hcommits.not_inserted rfl t)

omit [Runtime] in
/-- A commit of a call that is not about the task leaves its row. -/
theorem Effect.taskRow_eq {told : Told} {tx : Tx} {db db' : Db} {call : Call}
    (h : Effect told tx db call db') {taskId : Uuid} (hcall : taskOf call ≠ some taskId)
    (hids : (db'.tasks.map Task.id).Nodup) {row : Task} (hrow : taskRow db taskId = some row) :
    taskRow db' taskId = some row := by
  have hmem : row ∈ db.tasks := List.mem_of_find?_eq_some hrow
  have hid : row.id = taskId := by simpa using List.find?_some hrow
  have hmem' : row ∈ db'.tasks := by
    cases h with
    | created => exact List.mem_append_left _ hmem
    | changed hchange =>
      have hne : taskId ≠ _ := fun heq => hcall (by rw [heq]; cases hchange <;> rfl)
      refine List.mem_map.2 ⟨row, hmem, if_neg fun heq => hne ?_⟩
      rw [← hid, heq, hchange.ids.1]
    | deleted =>
      refine List.mem_filter.2 ⟨hmem, decide_eq_true fun heq => hcall ?_⟩
      rw [← hid, heq]
      rfl
    | _ => exact hmem
  rw [taskRow, ← hid]
  exact find?_task hids hmem'

/-- **The last replacement is met.** In every run, once the last commit on a task is that of a
replacement that found every column it leaves out as it had loaded it, the row is as it asked, and
its `TaskUpdated` shows that row. -/
theorem replacement_met {taskId : Uuid} {r : Replacement} {world : World}
    (h : LastReplaced taskId (some r) world) :
    ∃ row, taskRow world.shared.db taskId = some row ∧ r.Met row := by
  generalize hlast : some r = last at h
  induction h with
  | start => cases hlast
  | written => cases hlast
  | replaced h hstep hsaves hintact hactive hevents =>
    obtain rfl := Option.some.inj hlast
    exact replaced_row h.reachable hstep hsaves hintact hactive hevents
  | @other last world world' action h hstep hother ih =>
    obtain ⟨row, hrow, hmet⟩ := ih hlast
    refine ⟨row, ?_, hmet⟩
    cases action with
    | start t =>
      obtain rfl := Option.some.inj hstep
      exact hrow
    | stop i =>
      obtain rfl := Option.some.inj hstep
      exact hrow
    | run i =>
      obtain ⟨noted, noted', call, o, k, tx, notes, rfl, rfl, hrun⟩ :=
        exists_noted_run h.reachable hstep
      have hshared : noted'.forget.shared = _ := hrun.shared
      have hids := nodup_tasks_of_reachable hrun.reachable'
      change (noted'.forget.shared.db.tasks.map Task.id).Nodup at hids
      rw [hshared] at hids ⊢
      -- Only a commit writes the tables, and this one is not on the task.
      rcases hrun.turn.owed.db_cases with ⟨hdb, -⟩ | ⟨rfl, heq, hcommits, -⟩
      · rw [hdb]
        exact hrow
      · have hcall : taskOf call ≠ some taskId := fun hcall =>
          hother ⟨i, call, tx, rfl, hcall, ⟨k, getElem?_forget hrun.here⟩, congrArg Prod.fst heq⟩
        rw [heq] at hids ⊢
        exact (hcommits.effect _).taskRow_eq hcall hids hrow

end Runs

/-! ## Two replacements that load the same row -/

section Schedule

open Plain

/-- Store a definition, create a task, and start two replacements of it: one changes the title, the
other the priority. -/
def replacingRun : List (Interleaving.Action Call) :=
  .start (.replaceActive forkDocument) :: steps 0 10
    ++ .start (.create (py "A") none none 3 none) :: steps 1 10
    ++ .start (.replace forkTask (py "B") none none 3 none [])
    :: .start (.replace forkTask (py "A") none none 5 none []) :: []

/-- Both load the row; the first commits, and the second comes to its commit. -/
def blendingRun : List (Interleaving.Action Call) :=
  replacingRun ++ steps 2 3 ++ steps 3 3 ++ steps 2 8 ++ steps 3 7

/-- The session of such a replacement has returned. -/
def hasReplaced (title : PyStr) (priority : Int)
    (th : Interleaving.Thread Res Exn Reply Tx Call) : Bool :=
  match th with
  | ⟨.replace taskId title' none none priority' none [], .pure _, _⟩ =>
    taskId = forkTask && title' = title && priority' = priority
  | _ => false

theorem of_hasReplaced {title : PyStr} {priority : Int}
    {th : Interleaving.Thread Res Exn Reply Tx Call} (h : hasReplaced title priority th = true) :
    ∃ reply tx, th = ⟨.replace forkTask title none none priority none [], .pure reply, tx⟩ := by
  unfold hasReplaced at h
  split at h
  next taskId title' priority' reply tx =>
    simp only [Bool.and_eq_true, decide_eq_true_eq] at h
    obtain ⟨⟨rfl, rfl⟩, rfl⟩ := h
    exact ⟨reply, tx, rfl⟩
  next => cases h

/-- The session of such a replacement is at its commit, which succeeds. -/
def savesReplacement (title : PyStr) (priority : Int) (st : Server)
    (th : Interleaving.Thread Res Exn Reply Tx Call) : Bool :=
  match th with
  | ⟨.replace taskId title' none none priority' none [], .op .commit _, tx⟩ =>
    taskId = forkTask && title' = title && priority' = priority && (exec .commit tx st).1.isOk
  | _ => false

theorem of_savesReplacement {title : PyStr} {priority : Int} {world : World} {i : Nat}
    {th : Interleaving.Thread Res Exn Reply Tx Call} (hthread : world.threads[i]? = some th)
    (h : savesReplacement title priority world.shared th = true) :
    Saves world i (.replace forkTask title none none priority none []) th.here := by
  unfold savesReplacement at h
  split at h
  next taskId title' priority' k tx =>
    simp only [Bool.and_eq_true, decide_eq_true_eq] at h
    obtain ⟨⟨⟨rfl, rfl⟩, rfl⟩, hok⟩ := h
    exact saves_of_isOk hthread hok
  next => cases h

/-- Title and priority of the task, and of the snapshots in its `TaskUpdated` events. -/
def titlesAndPriorities (world : World) : Option (PyStr × Int) × List (PyStr × Int) :=
  ((taskRow world.shared.db forkTask).map fun t => (t.title, t.priority),
    world.shared.db.outbox.filterMap fun r =>
      match r.event.body with
      | .taskUpdated snapshot _ _ => some (snapshot.title, snapshot.priority)
      | _ => none)

/-- **Two replacements blend.** Both return; the last to commit asked for the title `A` with
priority 5, and the row has the title `B`, while the event shows `A`. -/
theorem blended_replacement : ∃ (world world' : World) (tx tx₂ tx₃ : Tx) (reply₂ reply₃ : Reply),
    world.Reachable ∧ Interleaving.step rules world (.run 3) = some world'
    ∧ Saves world 3 (.replace forkTask (py "A") none none 5 none []) tx
    ∧ world'.threads[2]?
      = some ⟨.replace forkTask (py "B") none none 3 none [], .pure reply₂, tx₂⟩
    ∧ world'.threads[3]?
      = some ⟨.replace forkTask (py "A") none none 5 none [], .pure reply₃, tx₃⟩
    ∧ titlesAndPriorities world' = (some (py "B", 5), [(py "B", 3), (py "A", 5)]) := by
  have hrun : (Machine.runActions (Interleaving.step rules) World.initial blendingRun).map
      (fun world : World => (world.threads[3]?).any (savesReplacement (py "A") 5 world.shared)
        && (Interleaving.step rules world (.run 3)).any fun world' : World =>
          (world'.threads[2]?).any (hasReplaced (py "B") 3)
            && (world'.threads[3]?).any (hasReplaced (py "A") 5)
            && titlesAndPriorities world' = (some (py "B", 5), [(py "B", 3), (py "A", 5)]))
      = some true := by
    decide +kernel
  obtain ⟨world, hworld, hfacts⟩ := Option.map_eq_some_iff.1 hrun
  simp only [Bool.and_eq_true, decide_eq_true_eq, Option.any_eq_true] at hfacts
  obtain ⟨⟨th, hth, hsaves⟩, world', hstep, ⟨⟨th₂, hth₂, hreplaced₂⟩, th₃, hth₃, hreplaced₃⟩, hrows⟩
    := hfacts
  obtain ⟨reply₂, tx₂, rfl⟩ := of_hasReplaced hreplaced₂
  obtain ⟨reply₃, tx₃, rfl⟩ := of_hasReplaced hreplaced₃
  exact ⟨world, world', th.here, tx₂, tx₃, reply₂, reply₃,
    Machine.reaches_of_runActions hworld, hstep, of_savesReplacement hth hsaves, hth₂, hth₃, hrows⟩

/-- A test of `Untouched`. -/
def untouched (tasks : List Task) (loaded current : Task) : Bool :=
  (tasks.all fun row => row.id = loaded.id →
      (loaded.title = current.title → row.title = loaded.title)
        ∧ (loaded.titleKey = current.titleKey → row.titleKey = loaded.titleKey)
        ∧ (loaded.description = current.description → row.description = loaded.description)
        ∧ (loaded.status = current.status → row.status = loaded.status)
        ∧ (loaded.priority = current.priority → row.priority = loaded.priority))
    && (loaded ≠ current || tasks.any fun row => row.id = loaded.id)

theorem untouched_of_eq_true {tasks : List Task} {loaded current : Task}
    (h : untouched tasks loaded current = true) : Untouched tasks loaded current := by
  simp only [untouched, Bool.and_eq_true, List.all_eq_true, decide_eq_true_eq, Bool.or_eq_true,
    List.any_eq_true] at h
  obtain ⟨hcolumns, hthere⟩ := h
  exact ⟨fun row hrow hid => (hcolumns row hrow hid).1,
    fun row hrow hid => (hcolumns row hrow hid).2.1,
    fun row hrow hid => (hcolumns row hrow hid).2.2.1,
    fun row hrow hid => (hcolumns row hrow hid).2.2.2.1,
    fun row hrow hid => (hcolumns row hrow hid).2.2.2.2,
    fun heq => hthere.resolve_left (absurd heq)⟩

theorem replacement_met_once : ∃ (world : World) (r : Replacement) (row : Task), world.Reachable
    ∧ r.title = py "B" ∧ taskRow world.shared.db forkTask = some row ∧ r.Met row := by
  have hrun : (Machine.runActions (Interleaving.step rules) World.initial
      (replacingRun ++ steps 2 10)).map
      (fun world : World => (world.threads[2]?).any
        (fun th => savesReplacement (py "B") 3 world.shared th
          && th.here.tracked.all fun row => untouched world.shared.db.tasks row.1 row.2)
        && (activeWorkflow world.shared.db).isSome
        && (Interleaving.step rules world (.run 2)).isSome) = some true := by
    decide +kernel
  obtain ⟨world, hworld, hfacts⟩ := Option.map_eq_some_iff.1 hrun
  simp only [Bool.and_eq_true, Option.any_eq_true, Option.isSome_iff_exists] at hfacts
  obtain ⟨⟨⟨th, hth, hsaves, htracked⟩, workflow, hactive⟩, world', hstep⟩ := hfacts
  have hreach : world.Reachable := Machine.reaches_of_runActions hworld
  obtain ⟨events, hevents⟩ := outbox_of_step hstep
  have hintact : Intact world.shared.db th.here := by
    intro loaded current heq
    rw [heq] at htracked
    exact untouched_of_eq_true htracked
  have hlast : LastReplaced forkTask (some ⟨py "B", none, none, 3, workflow, events⟩) world' :=
    .replaced (.start hreach) hstep (of_savesReplacement hth hsaves) hintact hactive hevents
  obtain ⟨row, hrow, hmet⟩ := replacement_met hlast
  exact ⟨world', _, row, hreach.tail _ hstep, rfl, hrow, hmet⟩

end Schedule

end TaskService.Sessions
