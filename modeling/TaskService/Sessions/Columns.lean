import TaskService.Sessions.Lives

/-!
# What changes a column

An UPDATE sets the columns whose values differ from those its session loaded, and leaves the others
as they are by then. So a session that works on a stale row takes nothing back: a column of a row
has another value only after the commit of a call that names it.

* **`Effect.names_changed`**: a commit changes columns that its call names.
* **`column_kept`**: while no commit names a column of a task, it keeps its value.
-/

namespace TaskService.Sessions

open Store Tasks Tags Workflows Concurrency

/-! ## Columns that a call names -/

/-- The patch has the field. -/
def namesField (fields : PatchFields) : MutableField → Bool
  | .title => fields.title.isSome
  | .description => fields.description.isSome
  | .status => fields.status.isSome
  | .priority => fields.priority.isSome

/-- The call asks for a value of this column of the task. -/
def namesColumn (taskId : Uuid) (f : MutableField) : Call → Bool
  | .replace id _ _ _ _ _ _ => id = taskId
  | .patch id fields _ => decide (id = taskId) && namesField fields f
  | _ => false

theorem not_differs_self (t : Task) (f : MutableField) : t.differs t f = false := by
  cases f <;> simp [Task.differs]

/-- A column that is left out keeps its value. -/
theorem not_differs_updated {loaded current row : Task} {f : MutableField}
    (h : current.differs loaded f = false) :
    (updated loaded current row).differs row f = false := by
  cases f <;> simp_all [Task.differs, updated, column]

section Commits

variable [Unicode]

/-- A change differs from what the session loaded in columns the call names. -/
theorem Changes.names_changed {told : Told} {call : Call} {taskId : Uuid}
    {tags : Option (List PyStr)} {engine : Option Engine} {previous current : Task}
    (h : Changes told call taskId tags engine previous current) {f : MutableField}
    (hnot : namesColumn taskId f call = false) : current.differs previous f = false := by
  cases h with
  | replace htask => simp [namesColumn] at hnot
  | patch htask =>
    obtain ⟨-, -, rfl⟩ := Task.applyPatch_eq_ok.1 htask.applied
    cases f <;> simp_all [namesColumn, namesField, Task.differs]

variable [Jsonb] {told : Told} {tx : Tx} {db db' : Db} {call : Call}

/-- **A commit changes columns that its call names.** -/
theorem Effect.names_changed (h : Effect told tx db call db') {row row' : Task}
    (hids : (db.tasks.map Task.id).Nodup) (hids' : (db'.tasks.map Task.id).Nodup)
    (hrow : row ∈ db.tasks) (hrow' : row' ∈ db'.tasks) (hsame : row'.id = row.id) {f : MutableField}
    (hnot : namesColumn row.id f call = false) : row'.differs row f = false := by
  -- the row of a commit that leaves the table, or adds to it, or removes from it
  have hkept : row ∈ db'.tasks → row'.differs row f = false := fun hthere => by
    rw [List.inj_on_of_nodup_map hids' hrow' hthere hsame]
    exact not_differs_self row f
  have hrest : row' ∈ db.tasks → row'.differs row f = false := fun hthere => by
    rw [List.inj_on_of_nodup_map hids hthere hrow hsame]
    exact not_differs_self row f
  cases h with
  | created => exact hkept (List.mem_append_left _ hrow)
  | @changed call taskId tags engine previous current minted retag event rows hchange =>
    obtain ⟨stored, hstored, hrow'⟩ := List.mem_map.1 hrow'
    by_cases hid : stored.id = previous.id
    · rw [if_pos hid] at hrow'
      subst hrow'
      obtain rfl : stored = row := List.inj_on_of_nodup_map hids hstored hrow hsame
      rw [hid, hchange.ids.1] at hnot
      exact not_differs_updated (hchange.names_changed hnot)
    · rw [if_neg hid] at hrow'
      exact hrest (hrow' ▸ hstored)
  | deleted => exact hrest (List.mem_filter.1 hrow').1
  | _ => exact hkept hrow

end Commits

/-! ## Runs -/

section Runs

variable [Unicode] [Jsonb] [Runtime] {taskId : Uuid} {f : MutableField}

/-- The step commits a call that names the column. -/
def NamesColumn (taskId : Uuid) (f : MutableField) (world : World)
    (action : Interleaving.Action Call) : Prop :=
  ∃ i call tx, action = .run i ∧ namesColumn taskId f call = true ∧ Saves world i call tx

/-- The stream of the task has begun, and the row, if there is one, has the value. -/
def KeepsColumn (taskId : Uuid) (f : MutableField) (row : Task) (noted : NotedWorld) : Prop :=
  stream noted.shared.db taskId ≠ [] ∧ ∀ row' ∈ noted.shared.db.tasks, row'.id = taskId →
    row'.differs row f = false

omit [Unicode] [Jsonb] [Runtime] in
/-- Values that agree with a third agree. -/
theorem not_differs_trans {t t' t'' : Task} (h : t'.differs t f = false)
    (h' : t''.differs t' f = false) : t''.differs t f = false := by
  cases f <;> simp_all [Task.differs]

/-- **A step that commits no call that names the column** leaves it. -/
theorem keepsColumn_of_step {noted noted' : NotedWorld} {action : Interleaving.Action Call}
    {row : Task} (hreach : noted.Reachable)
    (hstep : Interleaving.step notedRules noted action = some noted')
    (hnot : ¬ NamesColumn taskId f noted.forget action) (h : KeepsColumn taskId f row noted) :
    KeepsColumn taskId f row noted' := by
  cases action with
  | start t =>
    obtain rfl := Option.some.inj hstep
    exact h
  | stop i =>
    obtain rfl := Option.some.inj hstep
    exact h
  | run i =>
    obtain ⟨call, o, k, tx, notes, hrun⟩ := notedRun_of_step hreach hstep
    rcases hrun.turn.owed.db_cases with ⟨hdb, -⟩ | ⟨rfl, heq, hcommits, -⟩
    · rw [KeepsColumn, hrun.shared, hdb]
      exact h
    · have hshared : noted'.shared.db = view noted.shared.db (writes tx) := by
        rw [hrun.shared, heq]
      have hunnamed : namesColumn taskId f call = false := by
        by_contra hnamed
        exact hnot ⟨i, call, tx, rfl, by simpa using hnamed,
          hrun.saves (congrArg Prod.fst heq)⟩
      have hmem := List.mem_of_getElem? hrun.here
      have heffect := hcommits.effect noted.shared.db
      rw [← hshared] at heffect
      have hgrows : stream noted'.shared.db taskId ≠ [] := by
        rw [hshared]
        exact stream_ne_nil (outbox_view _ _) h.1
      refine ⟨hgrows, fun row' hrow' hid => ?_⟩
      rcases heffect.createdAt hrow' with ⟨old, hold, hsame, -⟩ | hdrawn
      · have hkept : row'.differs old f = false :=
          heffect.names_changed (nodup_tasks_of_reachable hrun.reachable)
            (nodup_tasks_of_reachable hrun.reachable') hold hrow' hsame.symm
            (by rw [hsame, hid]; exact hunnamed)
        exact not_differs_trans (h.2 old hold (hsame.trans hid)) hkept
      · -- a task that was told of is not created again
        have hunknown := (fresh_of_reachable hrun.reachable).not_mentioned hmem
          hrun.turn.owed.unsaved hdrawn
        rw [hid] at hunknown
        exact absurd (stream_of_not_mentioned hunknown) h.1

/-- **What no commit names stays**: in every run from a reachable world, while no call commits that
names a column of a task, its row has in this column the value it had. -/
theorem column_kept {start : World} {worlds : List World} (h : start.Reachable) {row : Task}
    (hrow : row ∈ start.shared.db.tasks) (hrun : Machine.Run (Interleaving.step rules)
      (fun world action _ => ¬ NamesColumn row.id f world action) start worlds) :
    ∀ world ∈ worlds, ∀ row' ∈ world.shared.db.tasks, row'.id = row.id →
      row'.differs row f = false := by
  obtain ⟨noted, hnoted, rfl⟩ := exists_noted h
  have hholds : Machine.Run (Interleaving.step rules) (fun _ _ world' =>
      ∀ row' ∈ world'.shared.db.tasks, row'.id = row.id → row'.differs row f = false)
      noted.forget worlds := by
    refine run_imp (J := KeepsColumn row.id f row) hrun hnoted rfl ?_ ?_
    · refine ⟨begun_of_stored hnoted row hrow, fun row' hrow' hid => ?_⟩
      rw [List.inj_on_of_nodup_map (nodup_tasks_of_reachable hnoted) hrow' hrow hid]
      exact not_differs_self row f
    · intro noted noted' action hreach hstep hnot hholds
      have hnext := keepsColumn_of_step hreach hstep hnot hholds
      exact ⟨hnext, hnext.2⟩
  exact hholds.forall_mem

end Runs

section Schedule

open Plain

/-- A test: the session that takes the step does not name the column. -/
def unnamed (taskId : Uuid) (f : MutableField) (world : World) :
    Interleaving.Action Call → World → Bool
  | .run i, _ => (world.threads[i]?).all fun th => !namesColumn taskId f th.tag
  | _, _ => true

theorem not_namesColumn_of_unnamed {taskId : Uuid} {f : MutableField} {world world' : World}
    {action : Interleaving.Action Call} (h : unnamed taskId f world action world' = true) :
    ¬ NamesColumn taskId f world action := by
  rintro ⟨i, call, tx, rfl, hnamed, ⟨k, hthread⟩, -⟩
  change Option.all _ (world.threads[i]?) = true at h
  rw [hthread] at h
  change (!namesColumn taskId f call) = true at h
  rw [hnamed] at h
  cases h

/-- A patch of the status loads the task before another session changes its title. -/
def overtakenPatch : List (Interleaving.Action Call) :=
  .start (.replaceActive forkDocument) :: steps 0 10
    ++ .start (.create (py "A") none none 3 none) :: steps 1 10
    ++ .start (.patch forkTask (statusPatch (py "b")) []) :: steps 2 3
    ++ .start (.patch forkTask ⟨some (py "B"), none, none, none, none, []⟩ []) :: steps 3 8

/-- **A stale row takes nothing back**: the patch of the status commits, and the new title stays. -/
theorem column_kept_stale : ∃ (start : World) (worlds : List World) (world : World) (row : Task),
    row.title = py "B" ∧ world ∈ worlds ∧ statusOf world.shared.db forkTask = some (py "b")
    ∧ Machine.Run (Interleaving.step rules)
      (fun world action _ => ¬ NamesColumn row.id .title world action) start worlds
    ∧ ∀ row' ∈ world.shared.db.tasks, row'.id = row.id → row'.differs row .title = false := by
  have hrun : ((Machine.runActions (Interleaving.step rules) World.initial overtakenPatch).bind
      fun start : World => (Machine.runChecked (Interleaving.step rules) (unnamed forkTask .title)
        start (steps 2 11)).map fun worlds =>
          (start.shared.db.tasks.any fun row => row.id = forkTask ∧ row.title = py "B")
            && worlds.any fun world => statusOf world.shared.db forkTask = some (py "b"))
        = some true := by
    decide +kernel
  obtain ⟨start, hstart, hrest⟩ := Option.bind_eq_some_iff.1 hrun
  obtain ⟨worlds, hworlds, hends⟩ := Option.map_eq_some_iff.1 hrest
  obtain ⟨hany, hmoved⟩ := Bool.and_eq_true_iff.1 hends
  obtain ⟨row, hrow, hretitled⟩ := List.any_eq_true.1 hany
  obtain ⟨hid, htitle⟩ := of_decide_eq_true hretitled
  obtain ⟨world, hworld, hstatus⟩ := List.any_eq_true.1 hmoved
  have hmeets : Machine.Run (Interleaving.step rules)
      (fun world action _ => ¬ NamesColumn row.id .title world action) start worlds :=
    (Machine.run_of_runChecked hworlds).imp (I := fun _ => True) trivial
      fun _ _ _ _ _ htest => ⟨trivial, hid ▸ not_namesColumn_of_unnamed htest⟩
  exact ⟨start, worlds, world, row, htitle, hworld, of_decide_eq_true hstatus, hmeets,
    column_kept (Machine.reaches_of_runActions hstart) hrow hmeets world hworld⟩

end Schedule

end TaskService.Sessions
