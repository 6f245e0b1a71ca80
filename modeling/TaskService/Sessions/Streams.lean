import TaskService.Concurrency.Moves
import TaskService.Sessions.Draws

/-!
# The event stream of a task

A call that changes or deletes a task has read it, and stages its event whatever has become of the
row since. An UPDATE and a new link are refused when the row is gone; a DELETE is not, nor is the
removal of all links.

* **`told_after_deletion`**: a task is deleted twice, and its tags change after that.
* **`stream_ends_with_deletion`**: while every commit without such a statement finds the row,
  nothing about a task is told after its deletion.
-/

namespace TaskService.Sessions

open Store Tasks Tags Workflows Concurrency

/-! ## Streams -/

/-- The events about a task, in the order of their commits. -/
def stream (db : Db) (taskId : Uuid) : List EventBody :=
  (db.outbox.map fun r => r.event.body).filter fun body => subject? body = some taskId

/-- The event is a deletion of a task. -/
def deletes : EventBody → Bool
  | .taskDeleted _ => true
  | _ => false

/-- No event but the last is a deletion. -/
def EndsWithDeletion (events : List EventBody) : Prop :=
  ∀ body ∈ events.dropLast, deletes body = false

/-- A stream without a deletion goes on, up to its deletion. -/
theorem endsWithDeletion_append {events new : List EventBody}
    (hevents : ∀ body ∈ events, deletes body = false) (hnew : EndsWithDeletion new) :
    EndsWithDeletion (events ++ new) := by
  intro body hbody
  by_cases hnil : new = []
  · subst hnil
    rw [List.append_nil] at hbody
    exact hevents body (List.dropLast_subset _ hbody)
  · rw [List.dropLast_append_of_ne_nil hnil] at hbody
    rcases List.mem_append.1 hbody with hbody | hbody
    · exact hevents body hbody
    · exact hnew body hbody

theorem stream_append {db db' : Db} {rows : List (OutboxRecord Event)}
    (h : db'.outbox = db.outbox ++ rows) (taskId : Uuid) :
    stream db' taskId = stream db taskId
      ++ (rows.map fun r => r.event.body).filter fun body => subject? body = some taskId := by
  rw [stream, h, List.map_append, List.filter_append]
  rfl

/-- Every stream ends with the deletion, and a task whose stream has ended has no row. -/
structure Closed (db : Db) : Prop where
  ends : ∀ taskId, EndsWithDeletion (stream db taskId)
  gone : ∀ taskId, (∃ body ∈ stream db taskId, deletes body = true) →
    taskId ∉ db.tasks.map Task.id

/-- While the row is there, its stream has no deletion. -/
theorem Closed.not_deleted {db : Db} (h : Closed db) {taskId : Uuid}
    (hthere : ∃ row ∈ db.tasks, row.id = taskId) :
    ∀ body ∈ stream db taskId, deletes body = false := by
  obtain ⟨row, hrow, rfl⟩ := hthere
  intro body hbody
  by_contra hdeletes
  refine h.gone row.id ⟨body, hbody, by simpa using hdeletes⟩ ?_
  exact List.mem_map_of_mem hrow

/-- A commit that tells of one task only, whose stream is open. -/
theorem Closed.commit {db db' : Db} (h : Closed db) {taskId : Uuid}
    {rows : List (OutboxRecord Event)} (houtbox : db'.outbox = db.outbox ++ rows)
    (hsubject : ∀ r ∈ rows, subject? r.event.body = some taskId)
    (hopen : ∀ body ∈ stream db taskId, deletes body = false)
    (hends : EndsWithDeletion (rows.map fun r => r.event.body))
    (hids : ∀ id ∈ db'.tasks.map Task.id, id ∈ db.tasks.map Task.id ∨ id = taskId)
    (hgone : (∃ r ∈ rows, deletes r.event.body = true) → taskId ∉ db'.tasks.map Task.id) :
    Closed db' := by
  have hbodies : ∀ body ∈ rows.map fun r => r.event.body, subject? body = some taskId := by
    intro body hbody
    obtain ⟨r, hr, rfl⟩ := List.mem_map.1 hbody
    exact hsubject r hr
  -- the stream of the task takes all the new events, any other stream none
  have hmine : stream db' taskId = stream db taskId ++ rows.map fun r => r.event.body := by
    rw [stream_append houtbox, List.filter_eq_self.2 fun body hbody => ?_]
    exact decide_eq_true (hbodies body hbody)
  have hother : ∀ id, id ≠ taskId → stream db' id = stream db id := by
    intro id hne
    rw [stream_append houtbox, List.filter_eq_nil_iff.2 fun body hbody => ?_, List.append_nil]
    rw [hbodies body hbody]
    simpa using Ne.symm hne
  constructor
  · intro id
    by_cases hid : id = taskId
    · rw [hid, hmine]
      exact endsWithDeletion_append hopen hends
    · rw [hother id hid]
      exact h.ends id
  · intro id ⟨body, hbody, hdeletes⟩
    by_cases hid : id = taskId
    · rw [hid, hmine] at hbody
      rw [hid]
      rcases List.mem_append.1 hbody with hold | hnew
      · rw [hopen body hold] at hdeletes
        cases hdeletes
      · obtain ⟨r, hr, rfl⟩ := List.mem_map.1 hnew
        exact hgone ⟨r, hr, hdeletes⟩
    · rw [hother id hid] at hbody
      intro hmem
      rcases hids id hmem with hold | heq
      · exact h.gone id ⟨body, hbody, hdeletes⟩ hold
      · exact hid heq

/-- A commit that tells of no task and leaves the tasks. -/
theorem Closed.aside {db db' : Db} (h : Closed db) {rows : List (OutboxRecord Event)}
    (houtbox : db'.outbox = db.outbox ++ rows) (hsubject : ∀ r ∈ rows, subject? r.event.body = none)
    (htasks : db'.tasks = db.tasks) : Closed db' := by
  have hsame : ∀ id, stream db' id = stream db id := by
    intro id
    rw [stream_append houtbox, List.filter_eq_nil_iff.2 fun body hbody => ?_, List.append_nil]
    obtain ⟨r, hr, rfl⟩ := List.mem_map.1 hbody
    simp [hsubject r hr]
  constructor
  · intro id
    rw [hsame]
    exact h.ends id
  · intro id hdeleted
    rw [hsame] at hdeleted
    rw [htasks]
    exact h.gone id hdeleted

/-! ## Commits -/

section Commits

variable [Unicode]

theorem TagStage.not_deletes {taskId : Uuid} {told : Told} {names : Option (List PyStr)}
    {minted : List Tag} {retag : Option Retag} {event : Option EventBody}
    (h : TagStage taskId told names minted retag event) : ∀ body ∈ event, deletes body = false := by
  cases h with
  | changed => exact fun body hbody => Option.some.inj hbody ▸ rfl
  | _ => simp

omit [Unicode] in
theorem updateBodies_not_deletes {updated previous : Task} {completes : Bool} :
    ∀ body ∈ updateBodies updated previous completes, deletes body = false := by
  unfold updateBodies
  split
  · simp
  · refine List.forall_mem_cons.2 ⟨rfl, ?_⟩
    split
    · simp
    · refine List.forall_mem_cons.2 ⟨rfl, ?_⟩
      split <;> simp [deletes]

omit [Unicode] in
theorem endsWithDeletion_of_not {events : List EventBody}
    (h : ∀ body ∈ events, deletes body = false) :
    EndsWithDeletion events :=
  fun body hbody => h body (List.dropLast_subset _ hbody)

variable [Jsonb]

/-- **A commit keeps the streams closed**, when a change or deletion finds its task. -/
theorem Effect.closed {told : Told} {tx : Tx} {db db' : Db} {call : Call}
    (h : Effect told tx db call db') (hclosed : Closed db)
    (hthere : ∀ taskId, taskOf call = some taskId → ∃ row ∈ db.tasks, row.id = taskId)
    (hnew : ∀ id ∈ told.ids, id ∉ Sessions.mentions db) : Closed db' := by
  cases h with
  | @created _ _ _ _ _ task minted retag event rows htask hstage hrows =>
    have hunknown := hnew task.id htask.drawn
    have hbodies : ∀ body ∈ rows.map (fun r => r.event.body),
        subject? body = some task.id ∧ deletes body = false := by
      rw [hrows.bodies]
      refine List.forall_mem_cons.2 ⟨⟨rfl, rfl⟩, fun body hbody => ?_⟩
      exact ⟨hstage.subject body (Option.mem_toList.1 hbody),
        hstage.not_deletes body (Option.mem_toList.1 hbody)⟩
    refine hclosed.commit rfl (fun r hr => (hbodies _ (List.mem_map_of_mem hr)).1) ?_
      (endsWithDeletion_of_not fun body hbody => (hbodies body hbody).2) ?_ ?_
    · -- nothing was told of the new task
      intro body hbody
      obtain ⟨hmem, hsubject⟩ := List.mem_filter.1 hbody
      obtain ⟨r, hr, rfl⟩ := List.mem_map.1 hmem
      refine absurd (mem_mentions.2 (.inr (.inr (.inr ⟨r, hr, ?_⟩)))) hunknown
      exact of_decide_eq_true hsubject
    · intro id hid
      rw [List.map_append] at hid
      exact (List.mem_append.1 hid).imp_right fun hid => List.mem_singleton.1 hid
    · rintro ⟨r, hr, hdeletes⟩
      rw [(hbodies _ (List.mem_map_of_mem hr)).2] at hdeletes
      cases hdeletes
  | @changed call taskId names engine previous current minted retag event rows hchange
      hstage hrows =>
    -- the task is there, so no deletion of it was told
    have hcall : taskOf call = some taskId := by cases hchange <;> rfl
    have hsubject := hrows.subject (by rw [hchange.ids.2]; exact hstage.subject)
    rw [hchange.ids.2] at hsubject
    obtain ⟨completes, hstaged, -⟩ := hrows.staged
    have hbodies : ∀ body ∈ rows.map (fun r => r.event.body), deletes body = false := by
      rw [hstaged.bodies]
      intro body hbody
      rcases List.mem_append.1 hbody with hbody | hbody
      · exact updateBodies_not_deletes body hbody
      · exact hstage.not_deletes body (Option.mem_toList.1 hbody)
    refine hclosed.commit rfl hsubject (hclosed.not_deleted (hthere taskId hcall))
      (endsWithDeletion_of_not hbodies) ?_ ?_
    · rw [map_id_amended]
      exact fun id hid => .inl hid
    · rintro ⟨r, hr, hdeletes⟩
      rw [hbodies _ (List.mem_map_of_mem hr)] at hdeletes
      cases hdeletes
  | @deleted taskId task rows htask hrows =>
    have hsubject : ∀ r ∈ rows, subject? r.event.body = some taskId := by
      -- the one event is the deletion, and it ends the stream
      intro r hr
      rw [List.mem_singleton.1 (hrows.mem_bodies hr), ← htask.id]
      rfl
    refine hclosed.commit rfl hsubject (hclosed.not_deleted (hthere taskId rfl)) ?_ ?_ ?_
    · rw [hrows.bodies]
      exact fun body hbody => nomatch hbody
    · exact fun id hid => .inl ((List.filter_sublist.map _).subset hid)
    · rintro - hmem
      obtain ⟨row, hrow, hid⟩ := List.mem_map.1 hmem
      exact of_decide_eq_true (List.mem_filter.1 hrow).2 hid
  | tagDeleted htag hid hcount hrows =>
    -- events that are about no task leave every stream
    refine hclosed.aside rfl (fun r hr => ?_) rfl
    rw [List.mem_singleton.1 (hrows.mem_bodies hr)]
    rfl
  | defined hparse hcounts hfree hhighest hrows =>
    refine hclosed.aside rfl (fun r hr => ?_) rfl
    rw [List.mem_singleton.1 (hrows.mem_bodies hr)]
    rfl
  | seeded => exact hclosed.aside (List.append_nil _).symm (by simp) rfl

end Commits

/-! ## Runs -/

section Runs

variable [Unicode] [Jsonb] [Runtime]

/-- A commit on a task that issues neither the UPDATE nor a link of the task finds its row in the
table. -/
def StillThere (world : World) (action : Interleaving.Action Call) : Prop :=
  ∀ i call tx taskId, action = .run i → Saves world i call tx → taskOf call = some taskId →
    (∀ w ∈ pending tx, w.onTask? ≠ some taskId) → ∃ row ∈ world.shared.db.tasks, row.id = taskId

/-- **One step keeps the streams closed.** -/
theorem closed_of_step {noted noted' : NotedWorld} {action : Interleaving.Action Call}
    (hreach : noted.Reachable) (hstep : Interleaving.step notedRules noted action = some noted')
    (hthere : StillThere noted.forget action) (hclosed : Closed noted.shared.db) :
    Closed noted'.shared.db := by
  cases action with
  | start t =>
    obtain rfl := Option.some.inj hstep
    exact hclosed
  | stop i =>
    obtain rfl := Option.some.inj hstep
    exact hclosed
  | run i =>
    obtain ⟨call, o, k, tx, notes, hrun⟩ := notedRun_of_step hreach hstep
    rw [hrun.shared]
    rcases hrun.turn.owed.db_cases with ⟨hdb, -⟩ | ⟨rfl, heq, hcommits, hpass⟩
    · rw [hdb]
      exact hclosed
    · rw [heq]
      have hmem := List.mem_of_getElem? hrun.here
      refine (hcommits.effect noted.shared.db).closed hclosed (fun taskId htask => ?_)
        fun id hid => (fresh_of_reachable hreach).not_mentioned hmem hrun.turn.owed.unsaved hid
      by_cases hissues : ∃ w ∈ pending tx, w.onTask? = some taskId
      · -- the statement was not refused
        obtain ⟨w, hw, hid⟩ := hissues
        exact hpass.task_there hw hid fun t ht => absurd ht (hcommits.not_inserted htask t)
      · refine hthere i call tx taskId rfl (hrun.saves (congrArg Prod.fst heq)) htask
          fun w hw hid => ?_
        exact hissues ⟨w, hw, hid⟩

/-- **The event stream of a task ends with its deletion**, in every run in which each commit on a
task that neither updates nor links it finds it in the table. -/
theorem stream_ends_with_deletion {worlds : List World}
    (hrun : Machine.Run (Interleaving.step rules) (fun world action _ => StillThere world action)
      World.initial worlds) :
    ∀ world ∈ worlds, ∀ taskId, EndsWithDeletion (stream world.shared.db taskId) := by
  have hempty : Closed Db.empty :=
    ⟨fun _ body hbody => (nomatch hbody), fun _ _ hmem => (nomatch hmem)⟩
  have hstart : NotedWorld.Reachable ⟨[], ⟨.empty, 0⟩⟩ := .refl
  have hclosed : Machine.Run (Interleaving.step rules) (fun _ _ world' => Closed world'.shared.db)
      World.initial worlds := by
    refine run_imp (J := fun noted => Closed noted.shared.db) hrun hstart rfl hempty ?_
    intro noted noted' action hreach hstep hthere hclosed
    have hnext := closed_of_step hreach hstep hthere hclosed
    exact ⟨hnext, hnext⟩
  exact fun world hworld => (hclosed.forall_mem world hworld).ends

end Runs

/-! ## Three sessions that load the task before it is deleted -/

section Schedule

open Plain

/-- Create a tagged task; two deletions and a patch to no tags load it; the deletions commit, then
the patch. -/
def deletingRun : List (Interleaving.Action Call) :=
  .start (.replaceActive forkDocument) :: steps 0 10
    ++ .start (.create (py "A") none none 3 (some [py "x"])) :: steps 1 23
    ++ .start (.delete forkTask) :: steps 2 1 ++ .start (.delete forkTask) :: steps 3 1
    ++ .start (.patch forkTask ⟨none, none, none, none, some (some []), []⟩ []) :: steps 4 2
    ++ steps 2 6 ++ steps 3 6 ++ steps 4 8

/-- **Told after the deletion**: created, tagged, deleted, deleted again, and tagged otherwise. -/
theorem told_after_deletion : ∃ world : World, world.Reachable
    ∧ (stream world.shared.db forkTask).map deletes = [false, false, true, true, false] := by
  have hrun : (Machine.runActions (Interleaving.step rules) World.initial deletingRun).map
      (fun world : World => (stream world.shared.db forkTask).map deletes)
        = some [false, false, true, true, false] := by
    decide +kernel
  obtain ⟨world, hworld, hstream⟩ := Option.map_eq_some_iff.1 hrun
  exact ⟨world, Machine.reaches_of_runActions hworld, hstream⟩

/-- A test of `StillThere`. -/
def stillThere (world : World) : Interleaving.Action Call → World → Bool
  | .run i, _ => (world.threads[i]?).all fun th =>
    match th with
    | ⟨call, .op .commit _, tx⟩ => (taskOf call).all fun taskId =>
      ((pending tx).any fun w => w.onTask? = some taskId)
        || world.shared.db.tasks.any fun row => row.id = taskId
    | _ => true
  | _, _ => true

theorem stillThere_of_eq_true {world world' : World} {action : Interleaving.Action Call}
    (h : stillThere world action world' = true) : StillThere world action := by
  rintro i call tx taskId rfl ⟨⟨k, hthread⟩, -⟩ htask hissues
  change Option.all _ (world.threads[i]?) = true at h
  rw [hthread] at h
  change Option.all _ (taskOf call) = true at h
  rw [htask] at h
  rcases Bool.or_eq_true_iff.1 h with hany | hany
  · obtain ⟨w, hw, hid⟩ := List.any_eq_true.1 hany
    exact absurd (of_decide_eq_true hid) (hissues w hw)
  · obtain ⟨row, hrow, hid⟩ := List.any_eq_true.1 hany
    exact ⟨row, hrow, of_decide_eq_true hid⟩

/-- Create a task, change its title, and delete it. -/
def closingRun : List (Interleaving.Action Call) :=
  .start (.replaceActive forkDocument) :: steps 0 10
    ++ .start (.create (py "A") none none 3 none) :: steps 1 10
    ++ .start (.patch forkTask ⟨some (py "B"), none, none, none, none, []⟩ []) :: steps 2 8
    ++ .start (.delete forkTask) :: steps 3 7

theorem stream_ends_with_deletion_once : ∃ (worlds : List World) (world : World), world ∈ worlds
    ∧ Machine.Run (Interleaving.step rules) (fun world action _ => StillThere world action)
      World.initial worlds
    ∧ EndsWithDeletion (stream world.shared.db forkTask)
    ∧ (stream world.shared.db forkTask).map deletes = [false, false, true] := by
  have hrun : (Machine.runChecked (Interleaving.step rules) stillThere World.initial closingRun).map
      (fun worlds => worlds.any fun world : World =>
        (stream world.shared.db forkTask).map deletes = [false, false, true]) = some true := by
    decide +kernel
  obtain ⟨worlds, hworlds, hany⟩ := Option.map_eq_some_iff.1 hrun
  obtain ⟨world, hworld, hstream⟩ := List.any_eq_true.1 hany
  have hmeets : Machine.Run (Interleaving.step rules)
      (fun world action _ => StillThere world action)
      World.initial worlds :=
    (Machine.run_of_runChecked hworlds).imp (I := fun _ => True) trivial
      fun _ _ _ _ _ htest => ⟨trivial, stillThere_of_eq_true htest⟩
  exact ⟨worlds, world, hworld, hmeets, stream_ends_with_deletion hmeets world hworld forkTask,
    of_decide_eq_true hstream⟩

end Schedule

end TaskService.Sessions
