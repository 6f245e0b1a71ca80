import TaskService.Sequential.Rows
import TaskService.Sequential.TagEvents
import TaskService.Tasks.Assertions

/-!
# The event log

The events on tasks are a history of the task table: each call stages those of the change it makes,
and replaying them from the beginning makes the table again.

* **`logs_of_effect`**: the events of a commit are those of its change.
* **`event_log`**: what every call logs, and what the log replays to.
-/

namespace TaskService.Sequential

open Store Tasks Tags Workflows Concurrency Sessions

/-! ## Events on tasks -/

def isTaskEvent : EventBody → Bool
  | .taskCreated _ | .taskUpdated .. | .taskStatusChanged .. | .taskCompleted _
  | .taskDeleted _ => true
  | _ => false

/-- The events on tasks that a call has staged. -/
def taskEvents (db db' : Db) : List EventBody := (staged db db').filter isTaskEvent

/-- All committed events on tasks, in order. -/
def taskLog (db : Db) : List EventBody := (db.outbox.map fun r => r.event.body).filter isTaskEvent

/-- What an event tells of the task table. -/
def applyEvent (tasks : List Task) : EventBody → List Task
  | .taskCreated task => tasks ++ [task]
  | .taskUpdated task _ _ => setRow tasks task
  | .taskDeleted task => tasks.filter fun row => row.id ≠ task.id
  | _ => tasks

/-- The table the events tell of, from the beginning. -/
def replay (events : List EventBody) : List Task := events.foldl applyEvent []

/-- Whether the active definition marks a state as one that completes a task. -/
def Completes [Unicode] (db : Db) (status : PyStr) (completes : Bool) : Prop :=
  ∃ w s, activeWorkflow db = some w ∧ w.find? status = some s
    ∧ completes = ((Dict.get? s.metadata completesMetaKey).map Json.truthy).getD false

/-- **What a successful call logs**: the row it adds, the change of a row, the row it deletes, or
nothing. -/
inductive Logs [Unicode] (db db' : Db) : Call → List EventBody → Prop where
  | created {title : PyStr} {description status : Option PyStr} {priority : Int}
      {tags : Option (List PyStr)} {task : Task} (htasks : db'.tasks = db.tasks ++ [task]) :
      Logs db db' (.create title description status priority tags) [.taskCreated task]
  | updated {call : Call} {before after : Task} {completes : Bool}
      (hcall : taskOf call = some before.id) (hbefore : before ∈ db.tasks)
      (hid : after.id = before.id) (hsame : after.changedFields before = [] → after = before)
      (htasks : db'.tasks = setRow db.tasks after)
      (hcompletes : after.status ≠ before.status → Completes db after.status completes) :
      Logs db db' call (updateBodies after before completes)
  | deleted {task : Task} (hthere : task ∈ db.tasks)
      (htasks : db'.tasks = db.tasks.filter fun row => row.id ≠ task.id) :
      Logs db db' (.delete task.id) [.taskDeleted task]
  | other {call : Call} (hcall : writesTasks call = false) (htasks : db'.tasks = db.tasks) :
      Logs db db' call []

/-! ## Replaying -/

theorem taskLog_append {db db' : Db} (h : ∃ rows, db'.outbox = db.outbox ++ rows) :
    taskLog db' = taskLog db ++ taskEvents db db' := by
  obtain ⟨rows, hrows⟩ := h
  rw [taskLog, taskLog, taskEvents, staged, hrows, List.drop_left, List.map_append,
    List.filter_append]

theorem replay_append (log events : List EventBody) :
    replay (log ++ events) = events.foldl applyEvent (replay log) := List.foldl_append

/-- Of the events of an update, the first tells the table. -/
theorem foldl_updateBodies {tasks : List Task} {after before : Task} {completes : Bool}
    (hsame : after.changedFields before = [] → setRow tasks after = tasks) :
    (updateBodies after before completes).foldl applyEvent tasks = setRow tasks after := by
  unfold updateBodies
  by_cases hnone : after.changedFields before = []
  · rw [if_pos hnone]
    exact (hsame hnone).symm
  · rw [if_neg hnone, List.foldl_cons]
    split
    · rfl
    · rw [List.foldl_cons]
      split <;> rfl

/-- **The events of a call tell its change of the table.** -/
theorem Logs.replays [Unicode] {db db' : Db} {call : Call} {events : List EventBody}
    (h : Logs db db' call events) (hids : (db.tasks.map Task.id).Nodup) :
    events.foldl applyEvent db.tasks = db'.tasks := by
  cases h with
  | created htasks => exact htasks.symm
  | updated _ hbefore _ hsame htasks =>
    rw [htasks]
    refine foldl_updateBodies fun hnone => ?_
    rw [hsame hnone]
    exact setRow_self hids hbefore
  | deleted _ htasks => exact htasks.symm
  | other _ htasks => exact htasks.symm

/-! ## Events of a commit -/

/-- The event on tags is not one on the task. -/
theorem not_isTaskEvent {body : EventBody} (h : isTagsChanged body = true) :
    isTaskEvent body = false := by
  cases body with
  | taskTagsChanged => rfl
  | _ => cases h

theorem isTaskEvent_updateBodies {updated previous : Task} {completes : Bool} :
    ∀ body ∈ updateBodies updated previous completes, isTaskEvent body = true := by
  unfold updateBodies
  split
  · simp
  · refine List.forall_mem_cons.2 ⟨rfl, ?_⟩
    split
    · simp
    · refine List.forall_mem_cons.2 ⟨rfl, ?_⟩
      split <;> simp [isTaskEvent]

/-- Of the events staged, those on the task are all but the one on its tags. -/
theorem taskEvents_eq {db db' : Db} {rows : List (OutboxRecord Event)} {told : Told}
    {others : List EventBody} {event : Option EventBody} (houtbox : db'.outbox = db.outbox ++ rows)
    (hrows : Staged (others ++ event.toList) rows told)
    (hothers : ∀ body ∈ others, isTaskEvent body = true)
    (hevent : ∀ body ∈ event, isTagsChanged body = true) : taskEvents db db' = others := by
  have hnone : event.toList.filter isTaskEvent = [] := by
    refine List.filter_eq_nil_iff.2 fun body hbody => ?_
    rw [not_isTaskEvent (hevent body (Option.mem_toList.1 hbody))]
    exact Bool.false_ne_true
  rw [taskEvents, staged, houtbox, List.drop_left, hrows.bodies, List.filter_append, hnone,
    List.append_nil, List.filter_eq_self.2 hothers]

/-- A commit without events on tasks. -/
theorem taskEvents_eq_nil {db db' : Db} {rows : List (OutboxRecord Event)} {told : Told}
    {bodies : List EventBody} (houtbox : db'.outbox = db.outbox ++ rows)
    (hrows : Staged bodies rows told)
    (hother : ∀ body ∈ bodies, isTaskEvent body = false) : taskEvents db db' = [] := by
  rw [taskEvents, staged, houtbox, List.drop_left, hrows.bodies]
  refine List.filter_eq_nil_iff.2 fun body hbody => ?_
  rw [hother body hbody]
  exact Bool.false_ne_true

theorem taskEvents_of_outbox {db db' : Db} (h : db'.outbox = db.outbox) :
    taskEvents db db' = [] := by
  rw [taskEvents, staged, h, List.drop_length, List.map_nil, List.filter_nil]

/-- A call that does not write tasks logs nothing on them. -/
theorem logs_other [Unicode] {db db' : Db} {call : Call} (hcall : writesTasks call = false)
    (htasks : db'.tasks = db.tasks) (hnone : taskEvents db db' = []) :
    Logs db db' call (taskEvents db db') := by
  rw [hnone]
  exact .other hcall htasks

section Commits

variable [Unicode] [Jsonb] [Runtime]

omit [Jsonb] [Runtime] in
theorem completes_of_engine {db : Db} {engine : Engine} {status : PyStr} {completes : Bool}
    (hactive : activeWorkflow db = some engine.workflow)
    (h : engine.completes status = .ok completes) :
    Completes db status completes := by
  unfold Engine.completes at h
  cases hfind : engine.workflow.find? status with
  | none => simp [Workflow.state, hfind, orValueError, Except.mapError, bind, Except.bind] at h
  | some s =>
    refine ⟨engine.workflow, s, hactive, hfind, ?_⟩
    simp only [Workflow.state, hfind, orValueError, Except.mapError, bind, Except.bind] at h
    exact (Except.ok.inj h).symm

omit [Jsonb] [Runtime] in
/-- What a changed status completes is said by the active definition. -/
theorem completes_of_changes {st : Server} {told : Told} {call : Call} {taskId : Uuid}
    {names : Option (List PyStr)} {engine : Engine} {previous updated : Task} {completes : Bool}
    (htold : Truthful st told) (h : Changes told call taskId names (some engine) previous updated)
    (hcompletes : engine.completes updated.status = .ok completes) :
    Completes st.db updated.status completes := by
  have hconsults : Consults told engine := by
    cases h with
    | replace htask => exact htask.consults
    | patch htask => exact htask.consults engine rfl
  exact completes_of_engine (hconsults.active fun answer hanswer _ => htold.holds answer hanswer)
    hcompletes

omit [Runtime] in
/-- **The events of a commit are those of its change.** -/
theorem logs_of_effect {st : Server} {told : Told} {tx : Tx} {call : Call} {db' : Db}
    (htold : Truthful st told) (hrows : Rows st.db) (h : Effect told tx st.db call db') :
    Logs st.db db' call (taskEvents st.db db') := by
  cases h with
  | @created title description status priority tags task minted retag event rows _ hstage hstaged =>
    have hstaged : Staged ([.taskCreated task] ++ event.toList) rows told := hstaged
    rw [taskEvents_eq rfl hstaged (by simp [isTaskEvent]) (isTagsChanged_of_stage hstage)]
    exact .created rfl
  | @changed _ taskId names engine previous updated minted retag event rows htask hstage
      hnarrates =>
    obtain ⟨completes, hstaged, hcompletes⟩ := hnarrates.staged
    -- What the session loaded is still the row: no one else ran.
    have hthere := there_of_loaded htold.holds htask.loaded
    obtain ⟨hprevious, hupdated⟩ := htask.ids
    rw [taskEvents_eq rfl hstaged isTaskEvent_updateBodies (isTagsChanged_of_stage hstage)]
    refine .updated ?_ hthere (hupdated.trans hprevious.symm)
      (eq_of_unchanged htask (hrows.keyed _ hthere)) ?_ fun hstatus => ?_
    · rw [hprevious]
      exact (asks_of_changes [] htask).1
    · exact amended_eq_setRow hrows.ids hthere (hupdated.trans hprevious.symm)
    · obtain ⟨e, rfl, hsays⟩ := hcompletes hstatus
      exact completes_of_changes htold htask hsays
  | @deleted taskId task rows htask hstaged =>
    have hstaged : Staged ([.taskDeleted task] ++ (none : Option EventBody).toList) rows told :=
      hstaged
    rw [taskEvents_eq rfl hstaged (by simp [isTaskEvent]) (by simp)]
    obtain rfl := htask.id
    exact .deleted (there_of_loaded htold.holds htask) rfl
  | tagDeleted _ _ _ hstaged =>
    exact logs_other rfl rfl (taskEvents_eq_nil rfl hstaged (by simp [isTaskEvent]))
  | defined _ _ _ _ hstaged =>
    exact logs_other rfl rfl (taskEvents_eq_nil rfl hstaged (by simp [isTaskEvent]))
  | seeded => exact logs_other rfl rfl (taskEvents_of_outbox rfl)

omit [Jsonb] [Runtime] in
/-- A call that has nothing to save logs nothing, and that is its change. -/
theorem logs_of_rests {st : Server} {told : Told} {call : Call} (htold : Truthful st told)
    (hrows : Rows st.db) (h : Rests call told) :
    Logs st.db st.db call (taskEvents st.db st.db) := by
  have hunchanged : ∀ {taskId names engine previous updated},
      Changes told call taskId names engine previous updated → updated.changedFields previous = [] →
      Logs st.db st.db call [] := by
    intro taskId names engine previous updated htask hsame
    have hthere := there_of_loaded htold.holds htask.loaded
    have heq := eq_of_unchanged htask (hrows.keyed _ hthere) hsame
    have hnone : updateBodies updated previous false = [] := if_pos hsame
    rw [← hnone]
    refine .updated ?_ hthere (by rw [heq]) (fun _ => heq) ?_ fun hstatus =>
      absurd (by rw [heq]) hstatus
    · rw [htask.ids.1]
      exact (asks_of_changes [] htask).1
    · rw [heq, setRow_self hrows.ids hthere]
  rw [taskEvents_of_outbox rfl]
  cases h with
  | replace htask _ hsame => exact hunchanged (.replace htask) hsame
  | patch htask _ hsame => exact hunchanged (.patch htask) hsame
  | legalMoves | seed => exact .other rfl rfl

omit [Runtime] in
/-- A commit only adds to the outbox. -/
theorem outbox_of_effect {st : Server} {told : Told} {tx : Tx} {call : Call} {db' : Db}
    (h : Effect told tx st.db call db') : ∃ rows, db'.outbox = st.db.outbox ++ rows := by
  cases h with
  | seeded => exact ⟨[], (List.append_nil _).symm⟩
  | _ => exact ⟨_, rfl⟩

/-- What a call logs. -/
structure Logged (st : Server) (call : Call) : Prop where
  ok : ∀ reply, (serve call st).1 = .ok reply →
    Logs st.db (serve call st).2.db call (taskEvents st.db (serve call st).2.db)
  raised : ∀ e, (serve call st).1 = .error e →
    taskEvents st.db (serve call st).2.db = [] ∧ (serve call st).2.db.tasks = st.db.tasks
      ∧ e ≠ .assertion
  appends : ∃ rows, (serve call st).2.db.outbox = st.db.outbox ++ rows

theorem logged {st : Server} (h : Reachable st) (call : Call) : Logged st call := by
  have hrows := rows_of_reachable h
  have hserves := serve_cases h.committed call
  have hspares : Prog.Outcome (fun _ => True) (· ≠ .assertion) (serve call st).1 := by
    refine Interleaving.Answered.run (call_sparing call) (fun o tx now heq => ?_) Tx.fresh st
    obtain ⟨d, hd⟩ := exec_error heq
    cases hd
  generalize hserver : (serve call st).2.db = db' at hserves
  generalize hreply : (serve call st).1 = r at hserves hspares
  constructor
  · intro reply hok
    rw [hserver]
    obtain rfl := hreply.symm.trans hok
    cases hserves with
    | saved htold hcommits => exact logs_of_effect htold hrows (hcommits.effect st.db)
    | rested htold hrests => exact logs_of_rests htold hrows hrests
  · intro e herror
    rw [hserver]
    obtain rfl := hreply.symm.trans herror
    cases hserves with
    | raised => exact ⟨taskEvents_of_outbox rfl, rfl, hspares⟩
  · rw [hserver]
    cases hserves with
    | saved htold hcommits => exact outbox_of_effect (hcommits.effect st.db)
    | rested | raised => exact ⟨[], (List.append_nil _).symm⟩

/-- **The event log replays to the table**, in every run of calls, and each call logs its own change
of it: nothing when it raises, which it never does for the assertion. -/
theorem event_log {st : Server} (h : Reachable st) :
    replay (taskLog st.db) = st.db.tasks ∧ ∀ call, Logged st call := by
  refine ⟨?_, logged h⟩
  induction h with
  | refl => rfl
  | @tail st st' call hreach hstep ih =>
    obtain rfl := Option.some.inj hstep
    have hreach : Reachable st := hreach
    have hlogged := logged hreach call
    rw [taskLog_append hlogged.appends, replay_append, ih]
    cases hreply : (serve call st).1 with
    | ok reply => exact (hlogged.ok reply hreply).replays (rows_of_reachable hreach).ids
    | error e =>
      obtain ⟨hnone, htasks, -⟩ := hlogged.raised e hreply
      rw [hnone]
      exact htasks.symm

end Commits

/-! ## Three calls -/

section Run

open Plain

/-- A task moves to the other state of the definition. -/
def moved : Server :=
  (serve (.patch forkTask ⟨none, none, some (py "b"), none, none, []⟩ []) tagged).2

theorem event_log_moved : replay (taskLog moved.db) = moved.db.tasks
    ∧ (taskLog moved.db).length = 3 := by
  have hreach : Reachable moved := .tail _ (.tail _ reachable_defined rfl) rfl
  exact ⟨(event_log hreach).1, by decide +kernel⟩

end Run

end TaskService.Sequential
