import TaskService.Concurrency.Stranding

/-!
# Committed moves

The status of a task as the tables hold it from commit to commit. A session checks its move against
the status it loaded, and its UPDATE overwrites the status that is there by then. The two are the
same unless another session has moved the task in between: in a run without that, every commit
follows a transition, and reports the status it found.

* **`committed_moves_legal`**: the runs in which the statuses of a task are a path of the
  definition.
* **`stale_move_committed`**: the schedule in which they are not.
-/

namespace TaskService.Concurrency

open Store Tasks Workflows Prog

/-- The committed status of a task. -/
def statusOf (db : Db) (taskId : Uuid) : Option PyStr :=
  (db.tasks.find? fun t => t.id = taskId).map Task.status

theorem statusOf_eq_some {db : Db} {taskId : Uuid} {a : PyStr} :
    statusOf db taskId = some a ↔
      ∃ t, db.tasks.find? (fun t => t.id = taskId) = some t ∧ t.status = a := by
  simp [statusOf]

theorem exists_statusOf {db : Db} {t : Task} (h : t ∈ db.tasks) :
    ∃ a, statusOf db t.id = some a := by
  cases hfind : db.tasks.find? fun t' => t'.id = t.id with
  | none => simpa using List.find?_eq_none.1 hfind t h
  | some t' => exact ⟨t'.status, statusOf_eq_some.2 ⟨t', hfind, rfl⟩⟩

/-! ## What statements do to the status of a task -/

/-- The statement moves the task to the status. -/
def MovesTo (taskId : Uuid) (b : PyStr) : Write → Prop
  | .updateTask loaded current =>
    loaded.id = taskId ∧ loaded.status ≠ current.status ∧ current.status = b
  | _ => False

section Effect

theorem find?_map_updated (loaded current : Task) (taskId : Uuid) (tasks : List Task) :
    (tasks.map fun row => if row.id = loaded.id then updated loaded current row else row).find?
        (fun t => t.id = taskId)
      = (tasks.find? fun t => t.id = taskId).map fun row =>
          if row.id = loaded.id then updated loaded current row else row := by
  rw [List.find?_map]
  congr 1
  refine congrArg (fun p => tasks.find? p) (funext fun row => ?_)
  show decide ((if row.id = loaded.id then updated loaded current row else row).id = taskId) = _
  split <;> rfl

variable [Jsonb]

/-- The status after an UPDATE: the one before, or the one the statement moves the task to. -/
theorem statusOf_updateTask {db : Db} {loaded current : Task} {taskId : Uuid} {b : PyStr} :
    statusOf ((Write.updateTask loaded current).apply db) taskId = some b ↔
      ∃ a, statusOf db taskId = some a
        ∧ if loaded.id = taskId ∧ loaded.status ≠ current.status
            then current.status = b else a = b := by
  show (List.find? _ (List.map _ db.tasks)).map Task.status = some b ↔ _
  rw [find?_map_updated, statusOf]
  cases hfind : db.tasks.find? fun t => t.id = taskId with
  | none => simp
  | some row =>
    have hid : row.id = taskId := by simpa using List.find?_some hfind
    by_cases hloaded : row.id = loaded.id
    · by_cases hsame : loaded.status = current.status
      · simp [hloaded, updated, column, hsame]
      · simp [hloaded, updated, column, hsame, ← hid]
    · simp [hloaded, hid ▸ Ne.symm hloaded]

/-- A task that no statement deletes stays, in its status or in one it is moved to. -/
theorem statusOf_view_of_some {db : Db} {ws : List Write} {taskId : Uuid} {a : PyStr}
    (hdelete : ∀ id, .deleteTask id ∉ ws) (h : statusOf db taskId = some a) :
    ∃ b, statusOf (view db ws) taskId = some b ∧ (b = a ∨ ∃ w ∈ ws, MovesTo taskId b w) := by
  induction ws generalizing db a with
  | nil => exact ⟨a, h, .inl rfl⟩
  | cons w ws ih =>
    have hnext : ∃ b, statusOf (w.apply db) taskId = some b ∧ (b = a ∨ MovesTo taskId b w) := by
      cases w with
      | insertTask t =>
        obtain ⟨t', hfind, hstatus⟩ := statusOf_eq_some.1 h
        refine ⟨a, statusOf_eq_some.2 ⟨t', ?_, hstatus⟩, .inl rfl⟩
        show (db.tasks ++ [t]).find? _ = _
        rw [List.find?_append, hfind]
        rfl
      | updateTask loaded current =>
        by_cases hmove : loaded.id = taskId ∧ loaded.status ≠ current.status
        · exact ⟨current.status, statusOf_updateTask.2 ⟨a, h, by rw [if_pos hmove]⟩,
            .inr ⟨hmove.1, hmove.2, rfl⟩⟩
        · exact ⟨a, statusOf_updateTask.2 ⟨a, h, by rw [if_neg hmove]⟩, .inl rfl⟩
      | deleteTask id => exact absurd List.mem_cons_self (hdelete id)
      | _ => exact ⟨a, h, .inl rfl⟩
    obtain ⟨b, hb, hab⟩ := hnext
    obtain ⟨c, hc, hbc⟩ := ih (fun id hid => hdelete id (List.mem_cons_of_mem _ hid)) hb
    refine ⟨c, hc, ?_⟩
    rcases hbc with rfl | ⟨w', hw', hmove⟩
    · exact hab.imp_right fun hmove => ⟨w, List.mem_cons_self, hmove⟩
    · exact .inr ⟨w', List.mem_cons_of_mem _ hw', hmove⟩

/-- A task that no statement inserts was there, in the status it has if none moves it. -/
theorem statusOf_of_view {db : Db} {ws : List Write} {taskId : Uuid} {b : PyStr}
    (hinsert : ∀ t, .insertTask t ∉ ws) (hmove : ∀ c, ∀ w ∈ ws, ¬ MovesTo taskId c w)
    (h : statusOf (view db ws) taskId = some b) : statusOf db taskId = some b := by
  induction ws generalizing db with
  | nil => exact h
  | cons w ws ih =>
    have hnext : statusOf (w.apply db) taskId = some b :=
      ih (fun t ht => hinsert t (List.mem_cons_of_mem _ ht))
        (fun c w' hw' => hmove c w' (List.mem_cons_of_mem _ hw')) h
    cases w with
    | insertTask t => exact absurd List.mem_cons_self (hinsert t)
    | updateTask loaded current =>
      obtain ⟨a, ha, hif⟩ := statusOf_updateTask.1 hnext
      rw [if_neg fun hcond => hmove _ _ List.mem_cons_self ⟨hcond.1, hcond.2, rfl⟩] at hif
      exact hif ▸ ha
    | deleteTask id =>
      obtain ⟨t, hfind, hstatus⟩ := statusOf_eq_some.1 hnext
      change (db.tasks.filter fun row => row.id ≠ id).find? _ = some t at hfind
      have hkept : t.id ≠ id := by simpa using List.of_mem_filter (List.mem_of_find?_eq_some hfind)
      have hid : t.id = taskId := by simpa using List.find?_some hfind
      refine statusOf_eq_some.2 ⟨t, ?_, hstatus⟩
      rw [← hfind, List.find?_filter]
      refine congrArg (fun p => db.tasks.find? p) (funext fun row => ?_)
      -- a row with this id is not a deleted one
      by_cases hrow : row.id = taskId
      · simp [hrow, ← hid, hkept]
      · simp [hrow]
    | _ => exact hnext

/-- The tasks after a transaction were there before, or were inserted. -/
theorem id_of_mem_view {db : Db} {ws : List Write} {t : Task} (h : t ∈ (view db ws).tasks) :
    (∃ t' ∈ db.tasks, t'.id = t.id) ∨ ∃ t', .insertTask t' ∈ ws := by
  induction ws generalizing db with
  | nil => exact .inl ⟨t, h, rfl⟩
  | cons w ws ih =>
    rcases ih h with ⟨t', ht', hid⟩ | ⟨t', ht'⟩
    · cases w with
      | insertTask t'' => exact .inr ⟨t'', List.mem_cons_self⟩
      | updateTask loaded current =>
        obtain ⟨row, hrow, rfl⟩ := List.mem_map.1 ht'
        refine .inl ⟨row, hrow, ?_⟩
        rw [← hid]
        split <;> rfl
      | deleteTask id => exact .inl ⟨t', (List.mem_filter.1 ht').1, hid⟩
      | _ => exact .inl ⟨t', ht', hid⟩
    · exact .inr ⟨t', List.mem_cons_of_mem _ ht'⟩

end Effect

/-! ## What a lawful commit does to the status of a task -/

/-- Where the transaction changes a status, the committed status is the one it loaded. -/
def UpToDate (db : Db) (tx : Tx) : Prop :=
  ∀ loaded current, .updateTask loaded current ∈ writes tx → loaded.status ≠ current.status →
    ∀ a, statusOf db loaded.id = some a → a = loaded.status

section Commit

variable [Unicode]

/-- From the one table to the other every status moves along the active definition, and every event
that tells of a move starts from the status before. -/
structure Legal (db db' : Db) : Prop where
  move : ∀ taskId a b, statusOf db taskId = some a → statusOf db' taskId = some b → a ≠ b →
    LegalMove db a b
  event : ∃ new, db'.outbox = db.outbox ++ new ∧ ∀ r ∈ new, ∀ task a b,
    r.event.body = .taskStatusChanged task a b → statusOf db task.id = some a

theorem legal_of_eq {db db' : Db} (h : db' = db) : Legal db db' where
  move taskId a b ha hb hne := by
    rw [h, ha] at hb
    exact absurd (Option.some.inj hb) hne
  event := ⟨[], by rw [h, List.append_nil], fun _ hr => nomatch hr⟩

variable [Jsonb]

theorem Lawful.move {db : Db} {tx : Tx} (h : Lawful db tx) (hcurrent : UpToDate db tx)
    {taskId : Uuid} {a b : PyStr} (ha : statusOf db taskId = some a)
    (hb : statusOf (view db (writes tx)) taskId = some b) (hne : a ≠ b) : LegalMove db a b := by
  by_cases hlock : tx.lock = some .shared
  · -- under the shared guard nothing is deleted, so the status is the one of some UPDATE
    have hdelete : ∀ id, .deleteTask id ∉ writes tx := fun id hid => by
      have hnone : tx.lock = none := h _ hid
      simp [hnone] at hlock
    obtain ⟨b', hb', hmoved⟩ := statusOf_view_of_some hdelete ha
    obtain rfl : b' = b := Option.some.inj (hb'.symm.trans hb)
    obtain ⟨w, hw, hmove⟩ := hmoved.resolve_left (Ne.symm hne)
    cases w with
    | updateTask loaded current =>
      obtain ⟨rfl, hchanged, rfl⟩ := hmove
      obtain rfl := hcurrent loaded current hw hchanged a ha
      exact ((h _ hw).resolve_left hchanged).2
    | _ => exact hmove.elim
  · -- without it nothing is inserted or moved
    have hnone : ∀ w ∈ writes tx, w.status? = none := fun w hw => by
      cases hs : w.status? with
      | none => rfl
      | some s => exact absurd (h.new_status hw hs).1 hlock
    have hold : statusOf db taskId = some b := by
      refine statusOf_of_view (fun t ht => ?_) (fun c w hw hmove => ?_) hb
      · cases hnone _ ht
      · cases w with
        | updateTask loaded current =>
          have := hnone _ hw
          simp [Write.status?, hmove.2.1] at this
        | _ => exact hmove.elim
    exact absurd (Option.some.inj (ha.symm.trans hold)) hne

/-- A task about to move is there when its UPDATE is issued. -/
theorem Lawful.exists_moving {db : Db} {tx : Tx} (h : Lawful db tx)
    (hflush : flush db tx = .ok (flushed tx)) {taskId : Uuid} {a b : PyStr} (hne : a ≠ b)
    (hmoves : Moves tx taskId a b) : ∃ loaded current, .updateTask loaded current ∈ writes tx
      ∧ loaded.id = taskId ∧ loaded.status = a ∧ current.status = b
      ∧ ∃ t ∈ db.tasks, t.id = taskId := by
  obtain ⟨loaded, current, htracked, rfl, rfl, rfl⟩ := hmoves
  have hpending : .updateTask loaded current ∈ pending tx :=
    mem_pending_iff.2 (.inr (.inl (mem_dirty_iff.2
      ⟨loaded, current, htracked, fun heq => hne (congrArg Task.status heq), rfl⟩)))
  refine ⟨loaded, current, List.mem_append_right _ hpending, rfl, rfl, rfl, ?_⟩
  obtain ⟨before, rest, hsplit⟩ := List.append_of_mem hpending
  have hpass := (flush_eq_ok.1 hflush).1
  rw [hsplit, passes_append, ← view_append] at hpass
  obtain ⟨row, hrow, hid⟩ := (check_updateTask_eq_none.1 hpass.2.1).2.1
  rcases id_of_mem_view hrow with ⟨t, ht, htid⟩ | ⟨t, ht⟩
  · exact ⟨t, ht, htid.trans hid⟩
  · -- a session that inserts a task has not changed the one it holds
    have hinsert : .insertTask t ∈ writes tx := by
      rw [writes, hsplit, ← List.append_assoc]
      exact List.mem_append_left _ ht
    exact absurd (congrArg Task.status ((h _ hinsert).2.2 loaded current htracked)) hne

/-- **A lawful commit of a session that is up to date is legal.** -/
theorem Lawful.legal {db : Db} {tx : Tx} (h : Lawful db tx)
    (hflush : flush db tx = .ok (flushed tx)) (hcurrent : UpToDate db tx) :
    Legal db (view db (writes tx)) where
  move _ _ _ ha hb hne := h.move hcurrent ha hb hne
  event := by
    refine ⟨_, outbox_view db (writes tx), fun r hr task a b hbody => ?_⟩
    obtain ⟨w, hw, hsome⟩ := List.mem_filterMap.1 hr
    cases w with
    | insertOutbox r' =>
      obtain rfl := Option.some.inj hsome
      obtain ⟨hne, hmoves⟩ := h _ hw task a b hbody
      obtain ⟨loaded, current, hupdate, hid, rfl, rfl, t, ht, htid⟩ :=
        h.exists_moving hflush hne hmoves
      obtain ⟨s, hs⟩ := exists_statusOf ht
      rw [htid] at hs
      have hsame := hcurrent loaded current hupdate hne s (hid ▸ hs)
      exact hsame ▸ hs
    | _ => cases hsome

end Commit

/-! ## Runs -/

section Runs

variable [Unicode] [Jsonb] [Runtime]

/-- If the step is a commit, no status it changes was changed since the session loaded it. -/
def Unchanged (world : World) (action : Interleaving.Action Call) : Prop :=
  ∀ i call k tx, action = .run i → world.threads[i]? = some ⟨call, .op .commit k, tx⟩ →
    UpToDate world.shared.db tx

/-- The next status of a task: the same, or one a transition leads to; a task comes and
goes once. -/
def Follows (w : Workflow) (before after : Option PyStr) : Prop :=
  ∀ a b, before = some a → after = some b → a = b ∨ (a, b) ∈ Dict.keys w.transitions

theorem legal_of_step {world world' : World} {action : Interleaving.Action Call}
    (h : world.Reachable) (hunchanged : Unchanged world action)
    (hstep : Interleaving.step rules world action = some world') :
    Legal world.shared.db world'.shared.db := by
  cases action with
  | start call =>
    obtain rfl := Option.some.inj hstep
    exact legal_of_eq rfl
  | stop i =>
    obtain rfl := Option.some.inj hstep
    exact legal_of_eq rfl
  | run i =>
    obtain ⟨before, rest, call, o, k, tx, hthreads, hlen, -, rfl⟩ := Interleaving.run_cases hstep
    show Legal world.shared.db (exec o tx world.shared).2.2.db
    have hthread : world.threads[i]? = some ⟨call, .op o k, tx⟩ := by
      rw [hthreads, ← hlen]
      simp
    have hlawful := ((sound_of_reachable h).duty (List.mem_of_getElem? hthread)).lawful
    rcases exec_db o tx world.shared with hdb | ⟨rfl, hdb⟩
    · exact legal_of_eq hdb
    · rcases exec_cases .commit tx world.shared with ⟨e, -, -, heq⟩ | ⟨hsilent | hflush, a, heq⟩
      · exact legal_of_eq (by rw [heq])
      · exact hsilent.elim
      · rw [hdb]
        exact hlawful.legal hflush (hunchanged i call k tx rfl hthread)

/-- Only a session under the exclusive guard changes the definition. -/
theorem activeWorkflow_of_step {world world' : World} {i : Nat} (h : world.Reachable)
    (hstep : Interleaving.step rules world (.run i) = some world')
    (hlock : (world.threads[i]?).map (fun th => th.here.lock) ≠ some (some .exclusive)) :
    activeWorkflow world'.shared.db = activeWorkflow world.shared.db := by
  obtain ⟨before, rest, call, o, k, tx, hthreads, hlen, -, rfl⟩ := Interleaving.run_cases hstep
  have hthread : world.threads[i]? = some ⟨call, .op o k, tx⟩ := by
    rw [hthreads, ← hlen]
    simp
  have hlawful := ((sound_of_reachable h).duty (List.mem_of_getElem? hthread)).lawful
  refine activeWorkflow_congr ?_
  show (exec o tx world.shared).2.2.db.workflows = world.shared.db.workflows
  rcases exec_db o tx world.shared with hdb | ⟨-, hdb⟩
  · rw [hdb]
  · rw [hdb]
    refine hlawful.commit_workflows fun heq => hlock ?_
    rw [hthread]
    exact congrArg some heq

/-- **Committed moves are legal**, in every run in which no commit changes a status that was changed
since it was loaded. -/
theorem committed_moves_legal {world : World} (h : world.Reachable) {worlds : List World}
    (hrun : Machine.Run (Interleaving.step rules) (fun q action _ => Unchanged q action)
    world worlds) :
    Machine.Run (Interleaving.step rules)
    (fun q _ q' => Legal q.shared.db q'.shared.db) world worlds
    ∧ ∀ (w : Workflow) (taskId : Uuid),
        (∀ q ∈ world :: worlds, activeWorkflow q.shared.db = some w) →
        ((world :: worlds).map fun q => statusOf q.shared.db taskId).IsChain (Follows w) := by
  have hlegal : Machine.Run (Interleaving.step rules)
      (fun q _ q' => Legal q.shared.db q'.shared.db) world worlds :=
    hrun.imp h fun q action q' hq hstep hunchanged =>
      ⟨hq.tail action hstep, legal_of_step hq hunchanged hstep⟩
  refine ⟨hlegal, fun w taskId hfixed => ?_⟩
  refine hlegal.isChain _ fun q hq action q' _ hmove a b ha hb => ?_
  by_cases hab : a = b
  · exact .inl hab
  · obtain ⟨w', hw', hkeys⟩ := hmove.move taskId a b ha hb hab
    obtain rfl := Option.some.inj ((hfixed q hq).symm.trans hw')
    exact .inr hkeys

end Runs

/-! ## Two sessions that load the task in the same status -/

section Schedule

open Plain

/-- `a` leads to `b` and to `c`, and nothing leads on. -/
def forkDocument : {d : Json // d.Wf} :=
  ⟨document [.str (py "a"), .str (py "b"), .str (py "c")]
    [.dict [(py "name", .str (py "Take")), (py "from", .str (py "a")), (py "to", .str (py "b"))],
      .dict [(py "name", .str (py "Drop")), (py "from", .str (py "a")),
      (py "to", .str (py "c"))]], by
    rw [document_wf_iff]
    simp
    decide⟩

/-- A patch that names a status only. -/
def statusPatch (status : PyStr) : PatchFields := ⟨none, none, some status, none, none, []⟩

/-- The task of these runs: its id is the fifth draw. -/
def forkTask : Uuid := 4

/-- Store the definition, create a task in `a`, and bring a patch to `b` to its commit. -/
def takingRun : List (Interleaving.Action Call) :=
  .start (.replaceActive forkDocument) :: steps 0 10
    ++ .start (.create (py "A") none none 3 none) :: steps 1 10
    ++ .start (.patch forkTask (statusPatch (py "b")) []) :: steps 2 13

/-- The same, with a second patch to `c` that loads the task before the first commits. -/
def staleRun : List (Interleaving.Action Call) :=
  takingRun ++ .start (.patch forkTask (statusPatch (py "c")) []) :: steps 3 3 ++ steps 2 1
    ++ steps 3 10

/-- The statuses of the task, and the moves that the outbox reports. -/
def statusAndReports (world : World) : Option PyStr × List (PyStr × PyStr) :=
  (statusOf world.shared.db forkTask, world.shared.db.outbox.filterMap fun r =>
    match r.event.body with
    | .taskStatusChanged _ a b => some (a, b)
    | _ => none)

/-- The transitions of the active definition. -/
def activeMoves (world : World) : Option (List StatePair) :=
  (activeWorkflow world.shared.db).map fun w => Dict.keys w.transitions

/-- **A check against a status that is gone**: with the definition fixed, the task moves from `b` to
`c`, which no transition does, and the event reports a move from `a`. -/
theorem stale_move_committed : ∃ world world' : World, ∃ w : Workflow, world.Reachable
    ∧ Interleaving.step rules world (.run 3) = some world'
    ∧ activeWorkflow world.shared.db = some w ∧ activeWorkflow world'.shared.db = some w
    ∧ Dict.keys w.transitions = [(py "a", py "b"), (py "a", py "c")]
    ∧ statusAndReports world = (some (py "b"), [(py "a", py "b")])
    ∧ statusAndReports world' = (some (py "c"), [(py "a", py "b"), (py "a", py "c")]) := by
  have hrun : (Machine.runActions (Interleaving.step rules) World.initial staleRun).map
      (fun world : World =>
      activeMoves world = some [(py "a", py "b"), (py "a", py "c")]
        && statusAndReports world = (some (py "b"), [(py "a", py "b")])
        && (world.threads[3]?).map (fun th => th.here.lock) = some (some .shared)
        && (Interleaving.step rules world (.run 3)).map statusAndReports
          = some (some (py "c"), [(py "a", py "b"), (py "a", py "c")])) = some true := by
    decide +kernel
  obtain ⟨world, hworld, hfacts⟩ := Option.map_eq_some_iff.1 hrun
  simp only [Bool.and_eq_true, decide_eq_true_eq] at hfacts
  obtain ⟨⟨⟨hmoves, hbefore⟩, hlock⟩, hafter⟩ := hfacts
  have hreach : world.Reachable := Machine.reaches_of_runActions hworld
  obtain ⟨w, hw, hkeys⟩ := Option.map_eq_some_iff.1 hmoves
  obtain ⟨world', hstep, hafter⟩ := Option.map_eq_some_iff.1 hafter
  refine ⟨world, world', w, hreach, hstep, hw, ?_, hkeys, hbefore, hafter⟩
  rw [activeWorkflow_of_step hreach hstep (by rw [hlock]; simp)]
  exact hw

/-- The statuses a transaction is about to change are as it loaded them. -/
def upToDate (db : Db) (tx : Tx) : Bool :=
  (writes tx).all fun w =>
    match w with
    | .updateTask loaded current =>
      loaded.status = current.status ∨ statusOf db loaded.id = some loaded.status
    | _ => true

theorem upToDate_of_eq_true {db : Db} {tx : Tx} (h : upToDate db tx = true) : UpToDate db tx := by
  intro loaded current hw hne a ha
  have hthis := List.all_eq_true.1 h _ hw
  rcases of_decide_eq_true hthis with heq | hstored
  · exact absurd heq hne
  · exact Option.some.inj (ha.symm.trans hstored)

theorem committed_moves_legal_taking : ∃ world world' : World, world.Reachable
    ∧ Machine.Run (Interleaving.step rules)
    (fun q _ q' => Legal q.shared.db q'.shared.db) world [world']
    ∧ statusAndReports world = (some (py "a"), [])
    ∧ statusAndReports world' = (some (py "b"), [(py "a", py "b")]) := by
  have hrun : (Machine.runActions (Interleaving.step rules) World.initial takingRun).map
      (fun world : World =>
      statusAndReports world = (some (py "a"), [])
        && (world.threads[2]?).map (fun th => upToDate world.shared.db th.here) = some true
        && (Interleaving.step rules world (.run 2)).map statusAndReports
          = some (some (py "b"), [(py "a", py "b")])) = some true := by
    decide +kernel
  obtain ⟨world, hworld, hfacts⟩ := Option.map_eq_some_iff.1 hrun
  simp only [Bool.and_eq_true, decide_eq_true_eq] at hfacts
  obtain ⟨⟨hbefore, hcurrent⟩, hafter⟩ := hfacts
  have hreach : world.Reachable := Machine.reaches_of_runActions hworld
  obtain ⟨th, hth, hcurrent⟩ := Option.map_eq_some_iff.1 hcurrent
  obtain ⟨world', hstep, hafter⟩ := Option.map_eq_some_iff.1 hafter
  have hunchanged : Unchanged world (.run 2) := by
    rintro _ call k tx ⟨⟩ hthread
    obtain rfl := Option.some.inj (hth.symm.trans hthread)
    exact upToDate_of_eq_true hcurrent
  exact ⟨world, world', hreach,
    (committed_moves_legal hreach (.cons (.run 2) hstep hunchanged (.nil world'))).1,
    hbefore, hafter⟩

end Schedule

end TaskService.Concurrency
