import TaskService.Lib.Traces
import TaskService.Sequential.Serving
import TaskService.Tasks.Responses

/-!
# What a write returns

The row a write returns is the one a read finds next. For a replacement or a patch the row follows
from what was stored; a create makes its own, so the row it returns is told by what it has added.

* **`insert_mem_writes_exec`**: a session inserts the rows it has added.
* **`heralds_create`**: a create adds the task it returns.
* **`write_then_read`**: after a write the task is read as it was returned.
* **`page_then_read`**: a task is read as a page lists it.
-/

namespace TaskService.Sequential

open Store Tasks Tags Workflows Concurrency Sessions Prog
open Interleaving (observe Answered)

/-! ## What a session inserts -/

section Inserts

theorem insert_injective {row row' : NewRow} (h : row.insert = row'.insert) : row = row' := by
  cases row <;> cases row' <;> cases h <;> rfl

/-- An INSERT has been issued, or its row is to be. -/
theorem insert_mem_writes {tx : Tx} {row : NewRow} : row.insert ∈ writes tx ↔
    row.insert ∈ tx.log ∨ row ∈ tx.added ∨ row.insert ∈ tx.deleted := by
  have hadded : (∃ row' ∈ tx.added, row'.insert = row.insert) ↔ row ∈ tx.added :=
    ⟨fun ⟨_, hrow, heq⟩ => insert_injective heq ▸ hrow, fun hrow => ⟨row, hrow, rfl⟩⟩
  have hdirty : row.insert ∉ dirty tx := fun h => by
    obtain ⟨loaded, current, -, -, heq⟩ := mem_dirty_iff.1 h
    cases row <;> cases heq
  rw [writes, List.mem_append, mem_pending_iff, hadded]
  simp [hdirty]

theorem insert_mem_writes_add {tx : Tx} {row row' : NewRow}
    (h : row.insert ∈ writes (tx.add row')) : row.insert ∈ writes tx ∨ row' = row := by
  have hnew : tx.add row' = { tx with added := tx.added ++ [row'] } →
      row.insert ∈ writes tx ∨ row' = row := fun heq =>
    ((mem_writes_add heq).1 h).imp_right insert_injective
  cases row' with
  | task t =>
    rcases add_task_cases tx t with ⟨loaded, current, -, -, heq⟩ | heq
    · exact .inl (heq ▸ h)
    · exact hnew heq
  | _ => exact hnew (add_of_ne_task (by simp) tx)

variable [Jsonb] [Runtime]

/-- **A row is inserted only if it was added.** -/
theorem insert_mem_writes_exec {o : Op} {tx : Tx} {st : Server} {row : NewRow}
    (h : row.insert ∈ writes (exec o tx st).2.1) : row.insert ∈ writes tx ∨ o = .add row := by
  rcases exec_cases o tx st with ⟨e, -, -, heq⟩ | ⟨-, a, heq⟩ <;> rw [heq] at h
  · cases h
  · cases o with
    | add row' => exact (insert_mem_writes_add h).imp_right (congrArg Op.add)
    | uuid7 | now | acquireGuard mode => exact .inl h
    | commit | rollback => cases h
    | getTask id =>
      rw [insert_mem_writes] at h
      simp only [after] at h
      split at h <;> simpa using h
    | deleteTaskTags taskId =>
      rw [insert_mem_writes] at h
      have hdrop : ∀ links, row.insert ≠ .deleteTaskTags links := fun links heq => by
        cases row <;> cases heq
      simpa [after, hdrop] using h
    | setTask t =>
      rw [insert_mem_writes] at h ⊢
      exact .inl h
    | deleteTask t | deleteTag t =>
      have hdrop : ∀ id, row.insert ≠ .deleteTask id ∧ row.insert ≠ .deleteTag id := fun id => by
        constructor <;> · intro heq; cases row <;> cases heq
      rw [insert_mem_writes] at h ⊢
      simpa [after, hdrop] using h
    | _ =>
      rw [insert_mem_writes] at h
      simpa [after] using h

end Inserts

/-! ## What a create adds -/

section Adds

variable {t : Task}

/-- The operation adds no task. -/
def AddsNoTask (o : Op) : Prop := ∀ t, o ≠ .add (.task t)

/-- The operation adds no other task than this one. -/
def AddsOnly (t : Task) (o : Op) : Prop := ∀ t', o = .add (.task t') → t' = t

theorem AddsNoTask.addsOnly {o : Op} (h : AddsNoTask o) : AddsOnly t o :=
  fun t' heq => absurd heq (h t')

theorem addsNoTask_of_draw {o : Op} (h : o.Draw) : AddsNoTask o := by
  rintro t rfl
  exact h

theorem addsNoTask_of_quiet {o : Op} (h : o.Quiet) : AddsNoTask o := by
  rintro t rfl
  exact h

theorem issues_translate (title : PyStr) (e : Exn) :
    Issues AddsNoTask (Repository.translate title e) := by
  unfold Repository.translate
  split
  · have hrollback : Issues AddsNoTask (perform .rollback) := issues_call fun t => by simp
    refine hrollback.bind fun _ => ?_
    split <;> trivial
  · trivial

theorem issues_echoTitle (rawTitle : PyStr) (e : Exn) :
    Issues AddsNoTask (echoTitle rawTitle e) := by
  unfold echoTitle
  split <;> trivial

theorem issues_stageEvents (events : List Event) : Issues AddsNoTask (stageEvents events) := by
  refine (stageEvents_straight events).issues.mono fun o ho => ?_
  rcases ho with hdraw | ⟨id, event, -, rfl⟩
  · exact addsNoTask_of_draw hdraw
  · exact fun t => by simp

theorem addsOnly_add : AddsOnly t (.add (.task t)) := fun t' heq => by
  cases heq
  rfl

/-- Saving a task adds that task. -/
theorem issues_persist (events : List Event) (rawTitle : PyStr) :
    Issues (AddsOnly t) (persist t events rawTitle) := by
  refine Issues.tryCatch ?_ fun e => (issues_echoTitle rawTitle e).mono fun _ h => h.addsOnly
  refine (issues_call addsOnly_add).bind fun _ => ?_
  refine ((issues_stageEvents events).mono fun _ h => h.addsOnly).bind fun _ => ?_
  refine Issues.tryCatch (issues_call (AddsNoTask.addsOnly fun t => by simp)) fun e => ?_
  exact (issues_translate t.title e).mono fun _ h => h.addsOnly

theorem issues_stageNew (rawTitle : PyStr) : Issues (AddsOnly t) (stageNew t rawTitle) := by
  refine Issues.tryCatch ?_ fun e => (issues_echoTitle rawTitle e).mono fun _ h => h.addsOnly
  refine (issues_call addsOnly_add).bind fun _ => ?_
  refine Issues.tryCatch (issues_call (AddsNoTask.addsOnly fun t => by simp)) fun e => ?_
  exact (issues_translate t.title e).mono fun _ h => h.addsOnly

variable [Unicode]

theorem issues_createTags (rawTitle : PyStr) (tags : Option (List PyStr)) :
    Issues (AddsOnly t) (createTags t rawTitle tags) := by
  unfold createTags
  split
  · trivial
  · trivial
  · refine (issues_stageNew rawTitle).bind fun _ => ?_
    refine ((stageTags_straight t.id _).issues.mono fun _ h => ?_).bind fun event => trivial
    exact (addsNoTask_of_quiet h).addsOnly

theorem issues_guardedEngine : Issues AddsNoTask guardedEngine := by
  refine (issues_call fun t => by simp).bind fun _ => ?_
  refine Issues.bind (Issues.bind (issues_call fun t => by simp) fun found => ?_) fun _ => trivial
  split
  · trivial
  · exact issues_lift.bind fun _ => trivial

omit [Unicode] in
theorem issues_context (engine : Engine) (roles : List PyStr) (a b : Option PyStr) :
    Issues AddsNoTask (context engine roles a b) := by
  unfold context
  split
  · exact (issues_call fun t => by simp).bind fun _ => trivial
  · trivial

/-- **A create adds the task it returns**, and no other. -/
theorem heralds_create (title : PyStr) (description status : Option PyStr) (priority : Int)
    (tags : Option (List PyStr)) :
    Heralds AddsOnly [] (create title description status priority tags) := by
  refine Heralds.bind issues_guardedEngine (fun _ ho => nomatch ho) fun engine _ hissued => ?_
  refine Heralds.bind (issues_context engine [] none status) hissued fun context _ hissued => ?_
  refine Heralds.bind issues_lift hissued fun resolved _ hissued => ?_
  refine Heralds.bind (issues_call fun t => by simp) hissued fun id _ hissued => ?_
  refine Heralds.bind (issues_call fun t => by simp) hissued fun createdAt _ hissued => ?_
  refine Heralds.bind issues_lift hissued fun task _ hissued => ?_
  refine Heralds.bind issues_lift hissued fun snapshot _ hissued => ?_
  refine Heralds.bind ((newEvent_straight _).issues.mono fun _ => addsNoTask_of_draw) hissued
    fun created _ hissued => ?_
  -- from here on the task is known
  have hissued : ∀ o ∈ _, AddsOnly task o := fun o ho => (hissued o ho).addsOnly
  refine Heralds.bind (issues_createTags title tags) hissued fun tagEvents _ hissued => ?_
  exact heralds_pure (issues_persist _ title) hissued

end Adds

/-! ## What a write returns -/

section Replies

variable [Unicode] [Jsonb] [Runtime] {st : Server} {call : Call}

/-- Every row inserted, or committed, was added. -/
structure Added (here : Tx × Notes) (issued : List Op) : Prop where
  pending : ∀ row : NewRow, row.insert ∈ writes here.1 → .add row ∈ issued
  saved : ∀ tx, here.2.saved = some tx → ∀ row : NewRow, row.insert ∈ writes tx → .add row ∈ issued

omit [Unicode] in
/-- One operation goes on from there. -/
theorem Added.step {here : Tx × Notes} {issued : List Op} (h : Added here issued) (o : Op)
    (now : Server) : Added (observe note exec o here now).2.1 (issued ++ [o]) := by
  constructor
  · intro row hrow
    rcases insert_mem_writes_exec hrow with hold | rfl
    · exact List.mem_append_left _ (h.pending row hold)
    · exact List.mem_append_right _ (List.mem_singleton_self _)
  · intro tx hsaved row hrow
    refine List.mem_append_left _ ?_
    change (note o here.1 (exec o here.1 now).1 here.2).saved = some tx at hsaved
    by_cases hcommit : o = .commit
    · subst hcommit
      cases hr : (exec .commit here.1 now).1 with
      | error e =>
        rw [hr, note_error] at hsaved
        exact h.saved tx hsaved row hrow
      | ok a =>
        rw [hr] at hsaved
        obtain rfl := Option.some.inj hsaved
        exact h.pending row hrow
    · rw [note_of_ne_commit hcommit] at hsaved
      exact h.saved tx hsaved row hrow

omit [Unicode] [Jsonb] [Runtime] in
theorem added_fresh : Added (.fresh, .blank) [] :=
  ⟨fun row hrow => by simp [writes, pending, dirty, Tx.fresh] at hrow,
    fun _ hsaved => (nomatch hsaved)⟩

/-- When a create returns, it has added nothing but the task it returns. -/
theorem added_of_reply {title : PyStr} {description status : Option PyStr} {priority : Int}
    {tags : Option (List PyStr)} {t : Task}
    (hreply : (noted (.create title description status priority tags) st).1 = .ok (.task t)) :
    ∃ issued, Added (noted (.create title description status priority tags) st).2.1 issued
      ∧ ∀ o ∈ issued, AddsOnly t o := by
  have hprogram : noted (.create title description status priority tags) st
      = Prog.run (observe note exec) (create title description status priority tags
        >>= fun t => .pure (Reply.task t)) (.fresh, .blank) st := rfl
  rw [hprogram, run_bind] at hreply ⊢
  generalize hrun : Prog.run (observe note exec) (create title description status priority tags)
    (.fresh, .blank) st = done at hreply ⊢
  obtain ⟨r, here, now⟩ := done
  cases r with
  | error e => cases hreply
  | ok t' =>
    obtain rfl := Reply.task.inj (Except.ok.inj hreply)
    have hheralds := (heralds_create title description status priority tags).run (J := Added)
      (fun o here now issued h => h.step o now) added_fresh (by rw [hrun])
    rw [hrun] at hheralds
    exact hheralds

/-- **The row a create commits is the task it returns.** -/
theorem created_row (hst : Committed st) {title : PyStr} {description status : Option PyStr}
    {priority : Int} {tags : Option (List PyStr)} {t : Task}
    (hreply : (serve (.create title description status priority tags) st).1 = .ok (.task t)) :
    (serve (.create title description status priority tags) st).2.db.tasks = st.db.tasks ++ [t]
      ∧ t.id ∉ st.db.tasks.map Task.id := by
  obtain ⟨hended, htelling⟩ := telling_noted (.create title description status priority tags) st
  rw [serve_eq_noted] at hreply ⊢
  obtain ⟨issued, hadded, honly⟩ := added_of_reply hreply
  generalize noted (.create title description status priority tags) st = done
    at hended htelling hreply hadded ⊢
  obtain ⟨r, ⟨tx', notes⟩, now⟩ := done
  have htold := htelling.truthful hst
  obtain rfl : r = .ok (.task t) := hreply
  rcases hended with ⟨tx, hsaved, hcommits⟩ | ⟨-, hrests⟩
  · rw [(htelling.since.saved tx hsaved).1]
    have hinserted : ∀ task, .insertTask task ∈ writes tx → task = t := fun task hwrite =>
      honly _ (hadded.saved tx hsaved (.task task) hwrite) task rfl
    have hfresh : ∀ task : Task, task.id ∈ notes.told.ids → task.id ∉ st.db.tasks.map Task.id :=
      fun task hdrawn hold => htold.fresh _ hdrawn (mem_mentions.2 (.inl hold))
    cases hcommits with
    | @create _ _ _ _ _ task rows _ _ htask hrows =>
      obtain rfl := hinserted task
        ((@insert_mem_writes _ (.task task)).2 (.inr (.inl List.mem_cons_self)))
      rw [view_create]
      exact ⟨rfl, hfresh _ htask.drawn⟩
    | @createTagged _ _ _ _ _ _ task _ _ _ _ _ htask =>
      obtain rfl := hinserted task ((@insert_mem_writes _ (.task task)).2 (.inl List.mem_cons_self))
      rw [view_createTagged]
      exact ⟨rfl, hfresh _ htask.drawn⟩
  · cases hrests

omit [Jsonb] [Runtime] in
/-- The row an update leaves is the one the tables and the request decide. -/
theorem rowAfter_of_changes {told : Told} (htold : ∀ answer ∈ told, answer.Holds st.db)
    {taskId : Uuid} {asked : Option (List PyStr)} {engine : Option Engine} {previous updated : Task}
    (htask : Changes told call taskId asked engine previous updated) :
    rowAfter st.db call = some updated := by
  have hthere : st.db.tasks.find? (fun t => t.id = taskId) = some previous :=
    (htold _ htask.loaded.read).symm
  cases htask with
  | replace htask =>
    exact rowAfter_replace (htask.consults.active fun answer hanswer _ => htold answer hanswer)
      hthere htask.applied
  | patch htask => exact rowAfter_patch hthere htask.applied

/-- **What a write returns**, and what becomes of the tasks. -/
theorem returned (hfold : FoldsCleanly) (hst : Reachable st) (haccepted : Accepted call)
    (hcall : writesTask call = true) {reply : Reply} (hreply : (serve call st).1 = .ok reply) :
    Returns st.db call reply := by
  obtain ⟨hchecked, h⟩ := met_of_served hfold hst hcall hreply
  obtain ⟨reply', hreply', hreturns⟩ :=
    served_of_fulfillable hfold hst haccepted hcall hchecked h
  obtain rfl := Except.ok.inj (hreply.symm.trans hreply')
  exact hreturns

/-- The row an update returns is put in the place of the one it had. -/
theorem updated_row (hfold : FoldsCleanly) (hst : Reachable st) (haccepted : Accepted call)
    (hcall : writesTask call = true) (hsome : (taskOf call).isSome) {t : Task}
    (hreply : (serve call st).1 = .ok (.task t)) :
    (serve call st).2.db.tasks = setRow st.db.tasks t ∧ t.id ∈ st.db.tasks.map Task.id := by
  have hrows := rows_of_reachable hst
  obtain ⟨t', ht', hrow⟩ := returned hfold hst haccepted hcall hreply
  obtain rfl := Reply.task.inj ht'
  replace hrow := hrow hsome
  have hchanged : ∀ {told taskId asked engine previous updated}, Truthful st told →
      Changes told call taskId asked engine previous updated →
      updated = t ∧ previous ∈ st.db.tasks ∧ updated.id = previous.id := by
    intro told taskId asked engine previous updated htold htask
    have hdecided := rowAfter_of_changes htold.holds htask
    exact ⟨Option.some.inj (hdecided.symm.trans hrow), there_of_loaded htold.holds htask.loaded,
      htask.ids.2.trans htask.ids.1.symm⟩
  have hserves := serve_cases hst.committed call
  rw [hreply] at hserves
  generalize (serve call st).2.db = db' at hserves ⊢
  cases hserves with
  | @saved _ tx told htold hcommits hpass =>
    have heffect := hcommits.effect st.db
    generalize view st.db (writes tx) = db' at heffect ⊢
    cases heffect with
    | created => cases hsome
    | changed htask =>
      obtain ⟨rfl, hthere, hid⟩ := hchanged htold htask
      exact ⟨amended_eq_setRow hrows.ids hthere hid, hid ▸ List.mem_map_of_mem hthere⟩
    | deleted | tagDeleted | defined | seeded => cases hcall
  | @rested _ told htold hrests =>
    have hunchanged : ∀ {taskId asked engine previous updated},
        Changes told call taskId asked engine previous updated →
        updated.changedFields previous = [] →
        st.db.tasks = setRow st.db.tasks t ∧ t.id ∈ st.db.tasks.map Task.id := by
      intro taskId asked engine previous updated htask hsame
      obtain ⟨rfl, hthere, hid⟩ := hchanged htold htask
      obtain rfl := eq_of_unchanged htask (hrows.keyed _ hthere) hsame
      exact ⟨(setRow_self hrows.ids hthere).symm, List.mem_map_of_mem hthere⟩
    cases hrests with
    | replace htask _ hsame => exact hunchanged (.replace htask) hsame
    | patch htask _ hsame => exact hunchanged (.patch htask) hsame
    | legalMoves | seed => cases hcall

/-! ## What a read answers -/

omit [Unicode] in
/-- **What `get_task` answers.** -/
theorem run_getTask {t : Task} (hthere : st.db.tasks.find? (fun row => row.id = t.id) = some t) :
    (Prog.run exec (getTask t.id) .fresh st).1 = .ok (oneOf st.db t) := by
  have hfound : exec (.getTask t.id) .fresh st
      = (.ok (some t), { Tx.fresh with tracked := some (t, t) }, st) := by
    have hquery : query .fresh st (fun db => db.tasks.find? fun row => row.id = t.id)
        = (.ok (st.db.tasks.find? fun row => row.id = t.id), .fresh, st) := rfl
    simp only [exec, hquery, hthere]
  -- nothing was changed, so the query of the names has nothing to flush
  have hnames : (exec (.selectTagNames t.id) { Tx.fresh with tracked := some (t, t) } st).1
      = .ok (st.db.tagNames t.id) := by
    simp [exec, query, flush, pending, dirty, Tx.fresh, issue, settle, view]
  have hget : (Prog.run exec (getTask t.id) .fresh st).1
      = (Prog.run exec (one t) { Tx.fresh with tracked := some (t, t) } st).1 := by
    show (Prog.run exec (.op (.getTask t.id) _) .fresh st).1 = _
    rw [Prog.run, hfound]
    rfl
  rw [hget]
  show (Prog.run exec (.op (.selectTagNames t.id) _) _ st).1 = _
  rw [Prog.run]
  generalize exec (.selectTagNames t.id) { Tx.fresh with tracked := some (t, t) } st = done
    at hnames ⊢
  obtain ⟨r, tx, now⟩ := done
  obtain rfl : r = .ok (st.db.tagNames t.id) := hnames
  rfl

omit [Unicode] [Jsonb] [Runtime] in
/-- The row with an id is found. -/
theorem find?_of_mem {tasks : List Task} (hids : (tasks.map Task.id).Nodup) {t : Task}
    (ht : t ∈ tasks) : tasks.find? (fun row => row.id = t.id) = some t := by
  cases hfind : tasks.find? fun row => row.id = t.id with
  | none => exact absurd (decide_eq_true rfl) (List.find?_eq_none.1 hfind t ht)
  | some row =>
    have hid : row.id = t.id := by simpa using List.find?_some hfind
    rw [List.inj_on_of_nodup_map hids (List.mem_of_find?_eq_some hfind) ht hid]

omit [Unicode] [Jsonb] [Runtime] in
theorem mem_setRow_of_ne {tasks : List Task} {t row : Task} (hid : row.id ≠ t.id) :
    row ∈ setRow tasks t ↔ row ∈ tasks := by
  constructor
  · intro h
    rcases mem_setRow h with rfl | h
    · exact absurd rfl hid
    · exact h
  · exact fun h => List.mem_map.2 ⟨row, h, if_neg hid⟩

omit [Unicode] [Jsonb] [Runtime] in
theorem self_mem_setRow {tasks : List Task} {t : Task} (hid : t.id ∈ tasks.map Task.id) :
    t ∈ setRow tasks t := by
  obtain ⟨row, hrow, hsame⟩ := List.mem_map.1 hid
  exact List.mem_map.2 ⟨row, hrow, if_pos hsame⟩

/-- A write returns a task that is stored then, and leaves the others as they are. -/
theorem written_row (hfold : FoldsCleanly) (hst : Reachable st) (haccepted : Accepted call)
    (hcall : writesTask call = true) {t : Task} (hreply : (serve call st).1 = .ok (.task t)) :
    t ∈ (serve call st).2.db.tasks
      ∧ ∀ row : Task, row.id ≠ t.id → (row ∈ (serve call st).2.db.tasks ↔ row ∈ st.db.tasks) := by
  have hupdated : (taskOf call).isSome → t ∈ (serve call st).2.db.tasks
      ∧ ∀ row : Task, row.id ≠ t.id →
        (row ∈ (serve call st).2.db.tasks ↔ row ∈ st.db.tasks) := fun hsome => by
    obtain ⟨htasks, hid⟩ := updated_row hfold hst haccepted hcall hsome hreply
    rw [htasks]
    exact ⟨self_mem_setRow hid, fun row => mem_setRow_of_ne⟩
  cases call with
  | create title description status priority tags =>
    rw [(created_row hst.committed hreply).1]
    refine ⟨List.mem_append_right _ (List.mem_singleton_self t), fun row hid => ?_⟩
    rw [List.mem_append, List.mem_singleton, or_iff_left fun heq => hid (congrArg Task.id heq)]
  | replace | patch => exact hupdated rfl
  | _ => cases hcall

/-- **What is written is read**: a create, a replacement or a patch returns a task, a read of its id
answers that task with the tags stored for it, and every other task is as it was. -/
theorem write_then_read (hfold : FoldsCleanly) (hst : Reachable st) (haccepted : Accepted call)
    (hcall : writesTask call = true) {reply : Reply} (hreply : (serve call st).1 = .ok reply) :
    ∃ t, reply = .task t
      ∧ (Prog.run exec (getTask t.id) .fresh (serve call st).2).1
          = .ok (oneOf (serve call st).2.db t)
      ∧ ∀ row : Task, row.id ≠ t.id →
        (row ∈ (serve call st).2.db.tasks ↔ row ∈ st.db.tasks) := by
  obtain ⟨t, rfl, -⟩ := returned hfold hst haccepted hcall hreply
  obtain ⟨hstored, hothers⟩ := written_row hfold hst haccepted hcall hreply
  have hnext : Reachable (serve call st).2 := hst.tail call rfl
  exact ⟨t, rfl, run_getTask (find?_of_mem (rows_of_reachable hnext).ids hstored), hothers⟩

/-- **A page shows what its tasks show**: each of its items is what a read of its id answers. -/
theorem page_then_read (hst : Reachable st) (params : TaskListParams) :
    ∀ item ∈ (listTasks st.db params).items,
      (Prog.run exec (getTask item.id) .fresh st).1 = .ok item := by
  intro item hitem
  have hrows := rows_of_reachable hst
  have htags := hst.committed.consistent
  have hitems : (listTasks st.db params).items = (list st.db params).1.map (oneOf st.db) :=
    many_eq_map_one ⟨hrows.ids, htags.ids, htags.keys, htags.links⟩ _
  rw [hitems, list_eq] at hitem
  obtain ⟨t, ht, rfl⟩ := List.mem_map.1 hitem
  have hmatching : t ∈ matching st.db params := List.mem_of_mem_drop (List.mem_of_mem_take ht)
  have hstored : t ∈ st.db.tasks :=
    ((mem_matching ⟨hrows.ids, htags.ids, htags.keys, htags.links⟩).1 hmatching).1
  exact run_getTask (find?_of_mem hrows.ids hstored)

end Replies

section Titled

open Plain Sharp

theorem write_then_read_titled : ∃ t,
    (Prog.run exec (getTask t.id) .fresh (serve retitled titled).2).1
      = .ok (oneOf (serve retitled titled).2.db t) := by
  obtain ⟨reply, hreply, -⟩ := served_of_fulfillable foldsCleanly reachable_titled
    accepted_retitled rfl (checked_titled ..) fulfillable_retitled
  obtain ⟨t, -, hread, -⟩ :=
    write_then_read foldsCleanly reachable_titled accepted_retitled rfl hreply
  exact ⟨t, hread⟩

end Titled

section Tagged

open Plain

theorem reachable_tagged : Reachable tagged :=
  .tail (.create (py "A") none none 3 (some [py "Urgent"])) reachable_defined rfl

/-- One task a page. -/
def onePage : TaskListParams := ⟨none, none, .and, .priority, .desc, 1, 0⟩

theorem page_then_read_tagged :
    (listTasks tagged.db onePage).items.map TaskResponse.tags = [[py "Urgent"]]
      ∧ ∀ item ∈ (listTasks tagged.db onePage).items,
        (Prog.run exec (getTask item.id) .fresh tagged).1 = .ok item :=
  ⟨by decide +kernel, page_then_read reachable_tagged onePage⟩

end Tagged

end TaskService.Sequential
