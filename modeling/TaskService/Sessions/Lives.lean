import TaskService.Sessions.Replacements
import TaskService.Sessions.Streams

/-!
# The lives of tasks

The events of a task tell whether it is stored, whatever the sessions do between its creation and
its deletions. A change that commits after the deletion has its events, and so has a second
deletion, but neither brings a row back; and an id is drawn once, so no task is created twice.

* **`Effect.life`**: what one commit leaves of it.
* **`lives`**: in every interleaving a task is created once, before anything else is told of it, and
  it is stored as long as no deletion of it was committed.
-/

namespace TaskService.Sessions

open Store Tasks Tags Workflows Concurrency

/-! ## Lives -/

/-- The event is the creation of a task. -/
def creates : EventBody → Bool
  | .taskCreated _ => true
  | _ => false

/-- What the events of a task tell of its row. -/
structure Life (db : Db) (taskId : Uuid) : Prop where
  /-- its creation comes first, and once -/
  starts : stream db taskId ≠ [] → ∃ task later, stream db taskId = .taskCreated task :: later
    ∧ task.id = taskId ∧ ∀ body ∈ later, creates body = false
  /-- the row is there when it was created and not deleted -/
  stored : taskId ∈ db.tasks.map Task.id
    ↔ stream db taskId ≠ [] ∧ ∀ body ∈ stream db taskId, deletes body = false
  /-- the row shows when it was created -/
  created : ∀ row ∈ db.tasks, row.id = taskId → ∀ task, .taskCreated task ∈ stream db taskId →
    row.createdAt = task.createdAt

theorem life_empty (taskId : Uuid) : Life .empty taskId where
  starts h := absurd rfl h
  stored := ⟨fun h => (nomatch h), fun h => absurd rfl h.1⟩
  created _ h := nomatch h

section Tables

variable {db db' : Db} {taskId : Uuid} {rows : List (OutboxRecord Event)}

/-- A commit that tells of one task adds to its stream. -/
theorem stream_about (houtbox : db'.outbox = db.outbox ++ rows)
    (hsubject : ∀ r ∈ rows, subject? r.event.body = some taskId) :
    stream db' taskId = stream db taskId ++ rows.map fun r => r.event.body := by
  rw [stream_append houtbox, List.filter_eq_self.2 fun body hbody => ?_]
  obtain ⟨r, hr, rfl⟩ := List.mem_map.1 hbody
  exact decide_eq_true (hsubject r hr)

/-- A commit that tells nothing of a task leaves its stream. -/
theorem stream_aside (houtbox : db'.outbox = db.outbox ++ rows)
    (hsubject : ∀ r ∈ rows, subject? r.event.body ≠ some taskId) :
    stream db' taskId = stream db taskId := by
  rw [stream_append houtbox, List.filter_eq_nil_iff.2 fun body hbody => ?_, List.append_nil]
  obtain ⟨r, hr, rfl⟩ := List.mem_map.1 hbody
  simpa using hsubject r hr

/-- Streams only grow. -/
theorem stream_ne_nil (houtbox : db'.outbox = db.outbox ++ rows) (h : stream db taskId ≠ []) :
    stream db' taskId ≠ [] := by
  rw [stream_append houtbox]
  exact List.append_ne_nil_of_left_ne_nil h _

/-- Nothing is told of a task that nothing mentions. -/
theorem stream_of_not_mentioned (h : taskId ∉ mentions db) : stream db taskId = [] := by
  refine List.filter_eq_nil_iff.2 fun body hbody hsubject => h ?_
  obtain ⟨r, hr, rfl⟩ := List.mem_map.1 hbody
  exact mem_mentions.2 (.inr (.inr (.inr ⟨r, hr, of_decide_eq_true hsubject⟩)))

/-- The rows of a task are as they were, but for what its updates may change. -/
structure SameRow (db db' : Db) (taskId : Uuid) : Prop where
  stored : taskId ∈ db'.tasks.map Task.id ↔ taskId ∈ db.tasks.map Task.id
  created : ∀ row ∈ db'.tasks, row.id = taskId →
    ∃ row' ∈ db.tasks, row'.id = taskId ∧ row'.createdAt = row.createdAt

theorem SameRow.of_eq (h : db'.tasks = db.tasks) : SameRow db db' taskId where
  stored := by rw [h]
  created row hrow hid := ⟨row, h ▸ hrow, hid, rfl⟩

/-- Nothing was told of the task. -/
theorem Life.aside (h : Life db taskId) (hstream : stream db' taskId = stream db taskId)
    (hrows : SameRow db db' taskId) : Life db' taskId where
  starts := by
    rw [hstream]
    exact h.starts
  stored := by
    rw [hstream, hrows.stored]
    exact h.stored
  created row hrow hid task htask := by
    obtain ⟨row', hrow', hid', hcreated⟩ := hrows.created row hrow hid
    rw [hstream] at htask
    rw [← hcreated]
    exact h.created row' hrow' hid' task htask

/-- More was told of a task that was created before. -/
theorem Life.later (h : Life db taskId) {bodies : List EventBody}
    (hstream : stream db' taskId = stream db taskId ++ bodies) (hbegun : stream db taskId ≠ [])
    (hnot : ∀ body ∈ bodies, creates body = false)
    (hstored : taskId ∈ db'.tasks.map Task.id
      ↔ taskId ∈ db.tasks.map Task.id ∧ ∀ body ∈ bodies, deletes body = false)
    (hcreated : ∀ row ∈ db'.tasks, row.id = taskId →
      ∃ row' ∈ db.tasks, row'.id = taskId ∧ row'.createdAt = row.createdAt) :
    Life db' taskId where
  starts _ := by
    obtain ⟨task, later, heq, hid, honce⟩ := h.starts hbegun
    refine ⟨task, later ++ bodies, by rw [hstream, heq]; rfl, hid, fun body hbody => ?_⟩
    rcases List.mem_append.1 hbody with hold | hnew
    · exact honce body hold
    · exact hnot body hnew
  stored := by
    rw [hstored, h.stored, hstream, List.forall_mem_append, and_assoc]
    exact and_congr_left fun _ =>
      iff_of_true hbegun (List.append_ne_nil_of_left_ne_nil hbegun bodies)
  created row hrow hid task htask := by
    obtain ⟨row', hrow', hid', hsame⟩ := hcreated row hrow hid
    rw [hstream] at htask
    rw [← hsame]
    rcases List.mem_append.1 htask with hold | hnew
    · exact h.created row' hrow' hid' task hold
    · cases hnot _ hnew

/-- A task is created. -/
theorem life_created {task : Task} (hunknown : task.id ∉ mentions db)
    (htasks : db'.tasks = db.tasks ++ [task]) {bodies : List EventBody}
    (hstream : stream db' task.id = .taskCreated task :: bodies)
    (hnot : ∀ body ∈ bodies, creates body = false ∧ deletes body = false) : Life db' task.id where
  starts _ := ⟨task, bodies, hstream, rfl, fun body hbody => (hnot body hbody).1⟩
  stored := by
    refine iff_of_true ?_ ⟨by rw [hstream]; exact List.cons_ne_nil _ _, ?_⟩
    · rw [htasks]
      simp
    · rw [hstream]
      exact List.forall_mem_cons.2 ⟨rfl, fun body hbody => (hnot body hbody).2⟩
  created row hrow hid task' htask' := by
    rw [hstream] at htask'
    rcases List.mem_cons.1 htask' with heq | hlater
    · obtain rfl := EventBody.taskCreated.inj heq
      rw [htasks] at hrow
      rcases List.mem_append.1 hrow with hold | hrow
      · exact absurd (mem_mentions.2 (.inl (hid ▸ List.mem_map_of_mem hold))) hunknown
      · rw [List.mem_singleton.1 hrow]
    · cases (hnot _ hlater).1

end Tables

/-! ## Commits -/

section Commits

variable [Unicode]

theorem TagStage.not_creates {taskId : Uuid} {told : Told} {names : Option (List PyStr)}
    {minted : List Tag} {retag : Option Retag} {event : Option EventBody}
    (h : TagStage taskId told names minted retag event) :
    ∀ body ∈ event, creates body = false ∧ deletes body = false := by
  cases h with
  | changed => exact fun body hbody => Option.some.inj hbody ▸ ⟨rfl, rfl⟩
  | _ => simp

omit [Unicode] in
theorem updateBodies_not_creates {updated previous : Task} {completes : Bool} :
    ∀ body ∈ updateBodies updated previous completes, creates body = false := by
  unfold updateBodies
  split
  · simp
  · refine List.forall_mem_cons.2 ⟨rfl, ?_⟩
    split
    · simp
    · refine List.forall_mem_cons.2 ⟨rfl, ?_⟩
      split <;> simp [creates]

/-- A change of a task neither creates nor deletes one. -/
theorem Narrates.quiet {taskId : Uuid} {names : Option (List PyStr)} {minted : List Tag}
    {retag : Option Retag} {engine : Option Engine} {previous updated : Task} {told : Told}
    {event : Option EventBody} {rows : List (OutboxRecord Event)}
    (h : Narrates engine previous updated event rows told)
    (hstage : TagStage taskId told names minted retag event) :
    ∀ body ∈ rows.map (fun r => r.event.body), creates body = false ∧ deletes body = false := by
  obtain ⟨completes, hstaged, -⟩ := h.staged
  rw [hstaged.bodies]
  intro body hbody
  rcases List.mem_append.1 hbody with hbody | hbody
  · exact ⟨updateBodies_not_creates body hbody, updateBodies_not_deletes body hbody⟩
  · exact hstage.not_creates body (Option.mem_toList.1 hbody)

variable [Jsonb] {told : Told} {tx : Tx} {db db' : Db} {call : Call}

/-- A commit tells of what it stores. -/
theorem Effect.stored_begun (h : Effect told tx db call db')
    (hall : ∀ row ∈ db.tasks, stream db row.id ≠ []) :
    ∀ row ∈ db'.tasks, stream db' row.id ≠ [] := by
  intro row hrow
  cases h with
  | @created _ _ _ _ _ task minted retag event rows _ _ hrows =>
    rcases List.mem_append.1 hrow with hold | hrow
    · exact stream_ne_nil rfl (hall row hold)
    · obtain rfl := List.mem_singleton.1 hrow
      have htold : EventBody.taskCreated row ∈ (db.outbox ++ rows).map fun r => r.event.body := by
        rw [List.map_append, hrows.bodies]
        exact List.mem_append_right _ List.mem_cons_self
      exact List.ne_nil_of_mem (List.mem_filter.2 ⟨htold, decide_eq_true rfl⟩)
  | changed =>
    have hmem := List.mem_map_of_mem (f := Task.id) hrow
    rw [map_id_amended] at hmem
    obtain ⟨row', hrow', hid⟩ := List.mem_map.1 hmem
    rw [← hid]
    exact stream_ne_nil rfl (hall row' hrow')
  | deleted => exact stream_ne_nil rfl (hall row (List.mem_filter.1 hrow).1)
  | seeded => exact hall row hrow
  | _ => exact stream_ne_nil rfl (hall row hrow)

/-- **What a commit leaves of the lives of tasks**, when its session read tasks that were created
and drew ids that nothing mentions. -/
theorem Effect.life (h : Effect told tx db call db') (hlife : ∀ id, Life db id)
    (hbegun : ∀ id task, Loaded id task told → stream db id ≠ [])
    (hnew : ∀ id ∈ told.ids, id ∉ Sessions.mentions db) (taskId : Uuid) : Life db' taskId := by
  have hcreated : ∀ row ∈ db'.tasks, (∃ row' ∈ db.tasks, row'.id = row.id
      ∧ row'.createdAt = row.createdAt) ∨ row.id ∈ told.ids := fun row hrow => h.createdAt hrow
  cases h with
  | @created _ _ _ _ _ task minted retag event rows htask hstage hrows =>
    have hunknown := hnew task.id htask.drawn
    have hsubject : ∀ r ∈ rows, subject? r.event.body = some task.id := by
      intro r hr
      rcases List.mem_cons.1 (hrows.mem_bodies hr) with heq | hbody
      · rw [heq]
        rfl
      · exact hstage.subject _ (Option.mem_toList.1 hbody)
    by_cases hid : taskId = task.id
    · subst hid
      exact life_created hunknown rfl ((stream_about rfl hsubject).trans (by
        rw [stream_of_not_mentioned hunknown, List.nil_append, hrows.bodies]))
        fun body hbody => hstage.not_creates body (Option.mem_toList.1 hbody)
    · refine (hlife taskId).aside (stream_aside rfl fun r hr heq => hid ?_) ⟨?_, ?_⟩
      · exact Option.some.inj (heq.symm.trans (hsubject r hr))
      · show taskId ∈ (db.tasks ++ [task]).map Task.id ↔ _
        simp [hid]
      · intro row hrow hrid
        rcases List.mem_append.1 hrow with hold | hrow
        · exact ⟨row, hold, hrid, rfl⟩
        · rw [List.mem_singleton.1 hrow] at hrid
          exact absurd hrid.symm hid
  | @changed call id names engine previous current minted retag event rows hchange hstage hrows =>
    have hsubject := hrows.subject (by rw [hchange.ids.2]; exact hstage.subject)
    rw [hchange.ids.2] at hsubject
    have hsame : SameRow db { db with tasks := amended db.tasks previous current
                                      tags := db.tags ++ minted
                                      taskTags := relinked db.taskTags id retag
                                      outbox := db.outbox ++ rows } taskId := by
      refine ⟨by rw [map_id_amended], fun row hrow hid => ?_⟩
      rcases hcreated row hrow with ⟨row', hrow', hid', hsame⟩ | hdrawn
      · exact ⟨row', hrow', hid'.trans hid, hsame⟩
      · -- its row was there already, so its id was not drawn for it
        have hmem := List.mem_map_of_mem (f := Task.id) hrow
        rw [map_id_amended] at hmem
        exact absurd (mem_mentions.2 (.inl hmem)) (hnew _ hdrawn)
    by_cases hid : taskId = id
    · subst hid
      have hquiet := hrows.quiet hstage
      exact (hlife taskId).later (stream_about rfl hsubject) (hbegun _ _ hchange.loaded)
        (fun body hbody => (hquiet body hbody).1)
        (hsame.stored.trans (and_iff_left fun body hbody => (hquiet body hbody).2).symm)
        hsame.created
    · exact (hlife taskId).aside
        (stream_aside rfl fun r hr heq => hid (Option.some.inj (heq.symm.trans (hsubject r hr))))
        hsame
  | @deleted id task rows htask hrows =>
    have hsubject : ∀ r ∈ rows, subject? r.event.body = some id := by
      intro r hr
      rw [List.mem_singleton.1 (hrows.mem_bodies hr), ← htask.id]
      rfl
    have hfilter : ∀ row, row ∈ db.tasks.filter (fun row => row.id ≠ id)
        ↔ row ∈ db.tasks ∧ row.id ≠ id := fun row => by simp
    have hrest : ∀ row ∈ db.tasks.filter (fun row => row.id ≠ id), row.id = taskId →
        ∃ row' ∈ db.tasks, row'.id = taskId ∧ row'.createdAt = row.createdAt :=
      fun row hrow hid => ⟨row, ((hfilter row).1 hrow).1, hid, rfl⟩
    by_cases hid : taskId = id
    · subst hid
      refine (hlife taskId).later (stream_about rfl hsubject) (hbegun _ _ htask) ?_ ?_ hrest
      · rw [hrows.bodies]
        simp [creates]
      · -- neither the row nor a stream without deletions is left
        rw [hrows.bodies]
        refine iff_of_false (fun hmem => ?_) fun hno => ?_
        · obtain ⟨row, hrow, hrid⟩ := List.mem_map.1 hmem
          exact ((hfilter row).1 hrow).2 hrid
        · cases hno.2 _ (List.mem_singleton_self _)
    · refine (hlife taskId).aside (stream_aside rfl fun r hr heq => hid ?_) ⟨?_, hrest⟩
      · exact Option.some.inj (heq.symm.trans (hsubject r hr))
      · constructor
        · intro hmem
          obtain ⟨row, hrow, hrid⟩ := List.mem_map.1 hmem
          exact List.mem_map.2 ⟨row, ((hfilter row).1 hrow).1, hrid⟩
        · intro hmem
          obtain ⟨row, hrow, hrid⟩ := List.mem_map.1 hmem
          exact List.mem_map.2 ⟨row, (hfilter row).2 ⟨hrow, hrid ▸ hid⟩, hrid⟩
  | tagDeleted htag hid hcount hrows =>
    refine (hlife taskId).aside (stream_aside rfl fun r hr => ?_) (.of_eq rfl)
    rw [List.mem_singleton.1 (hrows.mem_bodies hr)]
    exact fun hnone => (nomatch hnone)
  | defined hparse hcounts hfree hhighest hrows =>
    refine (hlife taskId).aside (stream_aside rfl fun r hr => ?_) (.of_eq rfl)
    rw [List.mem_singleton.1 (hrows.mem_bodies hr)]
    exact fun hnone => (nomatch hnone)
  | seeded => exact (hlife taskId).aside rfl (.of_eq rfl)

end Commits

/-! ## Runs -/

section Runs

variable [Unicode] [Jsonb] [Runtime]

/-- What is stored was told of. -/
theorem begun_of_stored {world : NotedWorld} (h : world.Reachable) :
    ∀ row ∈ world.shared.db.tasks, stream world.shared.db row.id ≠ [] := by
  exact tables_of_reachable (I := fun db => ∀ row ∈ db.tasks, stream db row.id ≠ [])
    (fun _ hrow => nomatch hrow) (fun _ _ _ _ heffect hall => heffect.stored_begun hall) h

/-- A session has read tasks that were told of only. -/
def ReadsBegun (here : Tx × Notes) (st : Server) : Prop :=
  ∀ id task, .task id (some task) ∈ here.2.told → stream st.db task.id ≠ []

theorem begun_told {world : NotedWorld} (h : world.Reachable) :
    ∀ th ∈ world.threads, ReadsBegun th.here world.shared := by
  refine facts_of_reachable (P := fun _ here st => ReadsBegun here st)
    (fun _ _ _ _ hmem => nomatch hmem) (fun hreach hturn => ?_) h
  rename_i before after call o k tx notes st
  have hgrows : ∀ {id}, stream st.db id ≠ [] → stream (exec o tx st).2.2.db id ≠ [] := by
    intro id hbegun
    rcases exec_db o tx st with hdb | ⟨-, hdb⟩
    · rw [hdb]
      exact hbegun
    · rw [hdb]
      exact stream_ne_nil (outbox_view _ _) hbegun
  constructor
  · intro hreads id task hmem
    obtain ⟨new, htold, hnew⟩ := hturn.owed.told_cases
    rw [htold] at hmem
    rcases List.mem_append.1 hmem with hold | hmem
    · exact hgrows (hreads id task hold)
    · have hfound : some task = st.db.tasks.find? fun t => t.id = id :=
        (hnew _ (Option.mem_toList.1 hmem)).1
      exact hgrows (begun_of_stored hreach _ (List.mem_of_find?_eq_some hfound.symm))
  · exact fun other _ hreads id task hmem => hgrows (hreads id task hmem)

/-- **The lives of tasks, in every interleaving.** -/
theorem lives {world : World} (h : world.Reachable) (taskId : Uuid) :
    Life world.shared.db taskId := by
  obtain ⟨noted, hnoted, rfl⟩ := exists_noted h
  refine tables_of_reachable (I := fun db => ∀ id, Life db id) life_empty
    (fun {world before after call k tx notes} hreach hthreads hturn _ heffect hlife => ?_) hnoted
    taskId
  have hmem : (⟨call, .op .commit k, (tx, notes)⟩ : NotedSession) ∈ world.threads := by
    rw [hthreads]
    simp
  refine heffect.life hlife (fun id task hloaded => ?_) fun id hid => ?_
  · rw [← hloaded.id]
    exact begun_told hreach _ hmem id task hloaded.read
  · exact (fresh_of_reachable hreach).not_mentioned hmem hturn.owed.unsaved hid

end Runs

section Schedule

open Plain

/-- Of a task that is deleted twice and tagged after that, the creation is told once, and first. -/
theorem lives_deleted : ∃ world : World, world.Reachable
    ∧ (stream world.shared.db forkTask).map creates = [true, false, false, false, false]
    ∧ ∀ taskId, Life world.shared.db taskId := by
  have hrun : (Machine.runActions (Interleaving.step rules) World.initial deletingRun).map
      (fun world : World => (stream world.shared.db forkTask).map creates)
        = some [true, false, false, false, false] := by
    decide +kernel
  obtain ⟨world, hworld, hstream⟩ := Option.map_eq_some_iff.1 hrun
  have hreach : world.Reachable := Machine.reaches_of_runActions hworld
  exact ⟨world, hreach, hstream, lives hreach⟩

end Schedule

end TaskService.Sessions
