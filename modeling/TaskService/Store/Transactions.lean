import TaskService.Lib.Except
import TaskService.Store.Session

/-!
# Transactions, step by step

What each operation does to a session's transaction and to the committed database. A transaction is
seen as the list of its `writes`, issued or pending: a flush moves statements from the one part to
the other and leaves the list alone, so a property of the list survives every read.

* **`issue_eq_ok`**: statements are issued when each passes its check in the view before it.
* **`exec_cases`**: an operation succeeds, or what it issues is refused and the transaction is gone.
* **`exec_db`**: only a commit changes the committed database, and it applies exactly the `writes`.
* **`status_of_mem_view`**: where the statuses after a transaction come from.
-/

namespace TaskService.Store

open Tasks Tags

/-- The statements a transaction has issued or will issue. -/
def writes (tx : Tx) : List Write := tx.log ++ pending tx

/-- The transaction once everything is issued. -/
def flushed (tx : Tx) : Tx :=
  { tx with log := writes tx, tracked := settled tx, added := [], deleted := [] }

@[simp] theorem writes_fresh : writes .fresh = [] := rfl

@[simp] theorem flushed_lock (tx : Tx) : (flushed tx).lock = tx.lock := rfl

@[simp] theorem flushed_log (tx : Tx) : (flushed tx).log = writes tx := rfl

@[simp] theorem flushed_added (tx : Tx) : (flushed tx).added = [] := rfl

@[simp] theorem flushed_deleted (tx : Tx) : (flushed tx).deleted = [] := rfl

@[simp] theorem flushed_tracked (tx : Tx) : (flushed tx).tracked = settled tx := rfl

/-- The session holds its task as it was loaded or last issued. -/
theorem settled_eq {tx : Tx} {loaded current : Task} (h : settled tx = some (loaded, current)) :
    loaded = current := by
  unfold settled at h
  split at h
  next => exact (Prod.mk.inj (Option.some.inj h)).1.symm.trans (Prod.mk.inj (Option.some.inj h)).2
  next =>
    obtain ⟨pair, -, hpair⟩ := Option.map_eq_some_iff.1 h
    exact (Prod.mk.inj hpair).1.symm.trans (Prod.mk.inj hpair).2

/-- Nothing is pending when nothing is added, deleted or changed. -/
theorem pending_eq_nil {tx : Tx} (hadded : tx.added = []) (hdeleted : tx.deleted = [])
    (htracked : ∀ loaded current, tx.tracked = some (loaded, current) → loaded = current) :
    pending tx = [] := by
  unfold pending dirty
  rw [hadded, hdeleted]
  cases h : tx.tracked with
  | none => rfl
  | some pair => simp [htracked pair.1 pair.2 h]

@[simp] theorem pending_flushed (tx : Tx) : pending (flushed tx) = [] :=
  pending_eq_nil rfl rfl fun _ _ h => settled_eq h

@[simp] theorem writes_flushed (tx : Tx) : writes (flushed tx) = writes tx := by
  rw [writes, pending_flushed, List.append_nil, flushed_log]

@[simp] theorem add_lock (tx : Tx) (row : NewRow) : (tx.add row).lock = tx.lock := by
  unfold Tx.add
  split
  · split <;> rfl
  · rfl

@[simp] theorem add_tracked (tx : Tx) (row : NewRow) : (tx.add row).tracked = tx.tracked := by
  unfold Tx.add
  split
  · split <;> rfl
  · rfl

/-- The statement that inserts a new row. -/
def NewRow.insert : NewRow → Write
  | .task t => .insertTask t
  | .tag t => .insertTag t
  | .taskTag l => .insertTaskTag l
  | .outbox r => .insertOutbox r
  | .workflow r => .insertWorkflow r

theorem mem_dirty_iff {tx : Tx} {w : Write} :
    w ∈ dirty tx ↔ ∃ loaded current, tx.tracked = some (loaded, current) ∧ loaded ≠ current
      ∧ w = .updateTask loaded current := by
  unfold dirty
  cases h : tx.tracked with
  | none => simp
  | some pair =>
    by_cases heq : pair.1 = pair.2
    · simp only [heq, if_true, List.not_mem_nil, false_iff]
      rintro ⟨loaded, current, hpair, hne, -⟩
      obtain rfl := Option.some.inj hpair
      exact hne heq
    · simp only [heq, if_false, List.mem_singleton]
      constructor
      · rintro rfl
        exact ⟨pair.1, pair.2, rfl, heq, rfl⟩
      · rintro ⟨loaded, current, hpair, -, rfl⟩
        obtain rfl := Option.some.inj hpair
        rfl

/-- What is pending: the new rows, the change of the loaded task, the deletions. -/
theorem mem_pending_iff {tx : Tx} {w : Write} :
    w ∈ pending tx ↔ (∃ row ∈ tx.added, row.insert = w) ∨ w ∈ dirty tx ∨ w ∈ tx.deleted := by
  unfold pending
  simp only [List.mem_append, List.mem_filterMap]
  constructor
  · rintro ((((((⟨row, hrow, h⟩ | ⟨row, hrow, h⟩) | ⟨row, hrow, h⟩) | h) | ⟨row, hrow, h⟩)
      | ⟨row, hrow, h⟩) | h)
    · exact .inl ⟨row, hrow, by cases row <;> simp_all [NewRow.insert]⟩
    · exact .inl ⟨row, hrow, by cases row <;> simp_all [NewRow.insert]⟩
    · exact .inl ⟨row, hrow, by cases row <;> simp_all [NewRow.insert]⟩
    · exact .inr (.inl h)
    · exact .inl ⟨row, hrow, by cases row <;> simp_all [NewRow.insert]⟩
    · exact .inl ⟨row, hrow, by cases row <;> simp_all [NewRow.insert]⟩
    · exact .inr (.inr h)
  · rintro (⟨row, hrow, rfl⟩ | h | h)
    · cases row with
      | outbox r => exact .inl (.inl (.inl (.inl (.inl (.inl ⟨_, hrow, rfl⟩)))))
      | tag t => exact .inl (.inl (.inl (.inl (.inl (.inr ⟨_, hrow, rfl⟩)))))
      | taskTag l => exact .inl (.inl (.inl (.inl (.inr ⟨_, hrow, rfl⟩))))
      | task t => exact .inl (.inl (.inr ⟨_, hrow, rfl⟩))
      | workflow r => exact .inl (.inr ⟨_, hrow, rfl⟩)
    · exact .inl (.inl (.inl (.inr h)))
    · exact .inr h

/-! ## Checks -/

/-- A refusal, if the condition holds. -/
theorem ite_some_eq_none {c : Prop} [Decidable c] {e : DbError} {r : Option DbError} :
    (if c then some e else r) = none ↔ ¬ c ∧ r = none := by
  by_cases h : c <;> simp [h]

theorem check_insertTask_eq_none {db : Db} {t : Task} :
    (Write.insertTask t).check db = none ↔ TaskFits t
      ∧ (∀ row ∈ db.tasks, row.id ≠ t.id) ∧ ∀ row ∈ db.tasks, row.titleKey ≠ t.titleKey := by
  show (ite _ _ _ : Option DbError) = none ↔ _
  rw [ite_some_eq_none, ite_some_eq_none, ite_some_eq_none, not_not]
  push Not
  exact ⟨fun h => ⟨h.1, h.2.1, h.2.2.1⟩, fun h => ⟨h.1, h.2.1, h.2.2, rfl⟩⟩

theorem check_updateTask_eq_none {db : Db} {loaded current : Task} :
    (Write.updateTask loaded current).check db = none ↔ TaskFits current
      ∧ (∃ row ∈ db.tasks, row.id = loaded.id)
      ∧ (loaded.titleKey ≠ current.titleKey →
          ∀ row ∈ db.tasks, row.id ≠ loaded.id → row.titleKey ≠ current.titleKey) := by
  show (ite _ _ _ : Option DbError) = none ↔ _
  rw [ite_some_eq_none, ite_some_eq_none, ite_some_eq_none, not_not]
  push Not
  exact ⟨fun h => ⟨h.1, h.2.1, h.2.2.1⟩, fun h => ⟨h.1, h.2.1, h.2.2, rfl⟩⟩

theorem ite_some_eq_some {c : Prop} [Decidable c] {e e' : DbError} {r : Option DbError} :
    (if c then some e else r) = some e' ↔ c ∧ e = e' ∨ ¬ c ∧ r = some e' := by
  by_cases h : c <;> simp [h]

/-- The constraints a statement can violate. -/
def Write.constraints : Write → List PyStr
  | .insertTask _ => [py "tasks_pkey", Write.titleKeyConstraint]
  | .updateTask _ _ => [Write.titleKeyConstraint]
  | .insertTag _ => [py "tags_pkey", Write.nameKeyConstraint]
  | .insertTaskTag _ =>
    [py "task_tags_pkey", py "task_tags_tag_id_fkey", py "task_tags_task_id_fkey"]
  | .insertOutbox _ => [py "outbox_pkey"]
  | .insertWorkflow _ => [py "ix_workflow_definitions_version"]
  | .deleteTask _ | .deleteTag _ | .deleteTaskTags _ => []

theorem mem_constraints_of_check {db : Db} {w : Write} {constraint : PyStr}
    (h : w.check db = some (.integrity constraint)) : constraint ∈ w.constraints := by
  cases w with
  | deleteTask id | deleteTag id | deleteTaskTags links => cases h
  | _ =>
    simp only [Write.check, ite_some_eq_some, reduceCtorEq, and_false, false_or, or_false,
      DbError.integrity.injEq] at h
    simp only [Write.constraints, List.mem_cons, List.not_mem_nil, or_false]
    grind

section Issue

variable [Jsonb]

/-- Each statement passes its check in the view before it. -/
def Passes (db : Db) : List Write → Prop
  | [] => True
  | w :: rest => w.check db = none ∧ Passes (w.apply db) rest

theorem passes_append {db : Db} {ws ws' : List Write} :
    Passes db (ws ++ ws') ↔ Passes db ws ∧ Passes (view db ws) ws' := by
  induction ws generalizing db with
  | nil => simp [Passes]
  | cons w ws ih => simp [Passes, ih, and_assoc]

theorem issue_eq_ok {db : Db} {log ws log' : List Write} :
    issue db log ws = .ok log' ↔ Passes (view db log) ws ∧ log' = log ++ ws := by
  induction ws generalizing log with
  | nil => simp [issue, Passes, eq_comm]
  | cons w ws ih =>
    unfold issue
    cases hcheck : w.check (view db log) with
    | some e => simp [Passes, hcheck]
    | none => simp [Passes, hcheck, ih]

/-- A refused statement passed over by none before it. -/
theorem issue_eq_error {db : Db} {log ws : List Write} {e : DbError} :
    issue db log ws = .error e ↔ ∃ before w after, ws = before ++ w :: after
      ∧ Passes (view db log) before ∧ w.check (view (view db log) before) = some e := by
  induction ws generalizing log with
  | nil => simp [issue]
  | cons w ws ih =>
    unfold issue
    cases hcheck : w.check (view db log) with
    -- the first statement is refused, so it is the one
    | some e' =>
      constructor
      · rintro ⟨⟩
        exact ⟨[], w, ws, rfl, trivial, hcheck⟩
      · rintro ⟨before, w', after, heq, hpass, hw'⟩
        cases before with
        | nil =>
          obtain ⟨rfl, rfl⟩ := List.cons.inj heq
          rw [view_nil, hcheck] at hw'
          exact congrArg _ (Option.some.inj hw')
        | cons v before =>
          obtain ⟨rfl, rfl⟩ := List.cons.inj heq
          exact absurd hpass.1 (by simp [hcheck])
    -- it passes, and the refused one comes later
    | none =>
      rw [ih]
      constructor
      · rintro ⟨before, w', after, rfl, hpass, hw'⟩
        refine ⟨w :: before, w', after, rfl, ⟨hcheck, ?_⟩, ?_⟩
        · simpa using hpass
        · simpa using hw'
      · rintro ⟨before, w', after, heq, hpass, hw'⟩
        cases before with
        | nil =>
          obtain ⟨rfl, rfl⟩ := List.cons.inj heq
          rw [view_nil, hcheck] at hw'
          cases hw'
        | cons v before =>
          obtain ⟨rfl, rfl⟩ := List.cons.inj heq
          exact ⟨before, w', after, rfl, by simpa using hpass.2, by simpa using hw'⟩

theorem flush_eq_ok {db : Db} {tx tx' : Tx} :
    flush db tx = .ok tx' ↔ Passes (view db tx.log) (pending tx) ∧ tx' = flushed tx := by
  unfold flush
  rw [Except.bind_eq_ok]
  constructor
  · rintro ⟨log, hlog, heq⟩
    obtain ⟨hpass, rfl⟩ := issue_eq_ok.1 hlog
    exact ⟨hpass, (Except.ok.inj heq).symm⟩
  · rintro ⟨hpass, rfl⟩
    exact ⟨_, issue_eq_ok.2 ⟨hpass, rfl⟩, rfl⟩

theorem flush_eq_error {db : Db} {tx : Tx} {e : DbError} :
    flush db tx = .error e ↔ issue db tx.log (pending tx) = .error e := by
  unfold flush
  cases issue db tx.log (pending tx) <;> simp

/-- With nothing pending a flush succeeds. -/
theorem flush_of_pending_nil {db : Db} {tx : Tx} (h : pending tx = []) :
    flush db tx = .ok (flushed tx) :=
  flush_eq_ok.2 ⟨by rw [h]; trivial, rfl⟩

theorem query_of_flush {α : Type} {tx : Tx} {st : Server} (h : flush st.db tx = .ok (flushed tx))
    (read : Db → α) : query tx st read = (.ok (read (view st.db (writes tx))), flushed tx, st) := by
  rw [query, h]
  rfl

theorem query_of_error {α : Type} {tx : Tx} {st : Server} {e : DbError}
    (h : flush st.db tx = .error e) (read : Db → α) :
    query tx st read = (.error (.db e), .fresh, st) := by
  rw [query, h]
  rfl

/-- A query that succeeds reads the session's own view. -/
theorem query_eq_ok {α : Type} {tx : Tx} {st : Server} {read : Db → α} {a : α}
    (h : (query tx st read).1 = .ok a) : a = read (view st.db (writes tx)) := by
  cases hflush : flush st.db tx with
  | error e =>
    rw [query_of_error hflush] at h
    cases h
  | ok tx' =>
    obtain rfl := (flush_eq_ok.1 hflush).2
    rw [query_of_flush hflush] at h
    exact (Except.ok.inj h).symm

end Issue

/-! ## Operations -/

section Exec

variable [Jsonb] [Runtime]

/-- Where an operation that succeeds leaves the session and the server. -/
def after (tx : Tx) (st : Server) : Op → Tx × Server
  | .uuid7 | .now => (tx, { st with drawn := st.drawn + 1 })
  | .acquireGuard mode => ({ tx with lock := some mode }, st)
  | .getTask id =>
    match (view st.db (writes tx)).tasks.find? fun t => t.id = id with
    | some t => ({ flushed tx with tracked := some (t, t) }, st)
    | none => (flushed tx, st)
  | .deleteTaskTags taskId =>
    ({ flushed tx with
        log := writes tx ++ [.deleteTaskTags ((view st.db (writes tx)).linksOf taskId)] }, st)
  | .add row => (tx.add row, st)
  | .setTask t => ({ tx with tracked := tx.tracked.map fun loaded => (loaded.1, t) }, st)
  | .deleteTask t => ({ tx with deleted := tx.deleted ++ [.deleteTask t.id] }, st)
  | .deleteTag t => ({ tx with deleted := tx.deleted ++ [.deleteTag t.id] }, st)
  | .commit => (.fresh, { st with db := view st.db (writes tx) })
  | .rollback => (.fresh, st)
  | _ => (flushed tx, st)

/-- Operations that issue nothing. -/
def Op.Silent : Op → Prop
  | .uuid7 | .now | .acquireGuard _ | .add _ | .setTask _ | .deleteTask _ | .deleteTag _
  | .rollback => True
  | _ => False

/-- **An operation succeeds**, unless what it issues is refused: then the transaction is gone. -/
theorem exec_cases (o : Op) (tx : Tx) (st : Server) :
    (∃ e, ¬ o.Silent ∧ flush st.db tx = .error e ∧ exec o tx st = (.error (.db e), .fresh, st))
    ∨ (o.Silent ∨ flush st.db tx = .ok (flushed tx))
      ∧ ∃ a, exec o tx st = (.ok a, after tx st o) := by
  by_cases hs : o.Silent
  · refine .inr ⟨.inl hs, ?_⟩
    -- a silent operation issues nothing
    cases o <;> first | exact ⟨_, rfl⟩ | exact hs.elim
  cases hflush : flush st.db tx with
  | error e =>
    refine .inl ⟨e, hs, rfl, ?_⟩
    -- what is pending is refused, and every operation that flushes raises that
    cases o with
    | deleteTaskTags taskId =>
      simp only [exec, hflush]
      rfl
    | flush =>
      simp only [exec, hflush]
      rfl
    | commit =>
      simp only [exec, hflush]
      rfl
    | _ => first | exact absurd trivial hs | simp only [exec, query_of_error hflush]
  | ok tx' =>
    obtain rfl := (flush_eq_ok.1 hflush).2
    refine .inr ⟨.inr rfl, ?_⟩
    cases o with
    | getTask id =>
      simp only [exec, query_of_flush hflush, after]
      cases (view st.db (writes tx)).tasks.find? fun t => t.id = id <;> exact ⟨_, rfl⟩
    | deleteTaskTags taskId =>
      simp only [exec, hflush]
      exact ⟨_, rfl⟩
    | flush =>
      simp only [exec, hflush]
      exact ⟨_, rfl⟩
    | commit =>
      simp only [exec, hflush]
      exact ⟨_, rfl⟩
    | _ =>
      first
      | exact absurd trivial hs
      | simp only [exec, query_of_flush hflush]
        exact ⟨_, rfl⟩

/-- A task that is found is the one with the id, and the session now holds it. -/
theorem exec_getTask_eq_ok {id : Uuid} {tx : Tx} {st : Server} {task : Option Task}
    (h : (exec (.getTask id) tx st).1 = .ok task) :
    task = (view st.db (writes tx)).tasks.find? (fun t => t.id = id)
      ∧ ∀ t, task = some t →
        t.id = id
          ∧ after tx st (.getTask id) = ({ flushed tx with tracked := some (t, t) }, st) := by
  have hquery : (query tx st fun db => db.tasks.find? fun t => t.id = id).1 = .ok task := by
    rw [← h]
    simp only [exec]
    split
    next heq => rw [heq]
    next => rfl
  have hread : task = (view st.db (writes tx)).tasks.find? fun t => t.id = id := query_eq_ok hquery
  refine ⟨hread, fun t ht => ?_⟩
  rw [ht] at hread
  refine ⟨by simpa using List.find?_some hread.symm, ?_⟩
  show (match (view st.db (writes tx)).tasks.find? fun t => t.id = id with
    | some t => ({ flushed tx with tracked := some (t, t) }, st)
    | none => (flushed tx, st)) = _
  rw [← hread]

/-- A DELETE of a task's links finds those of the session's own view. -/
theorem exec_deleteTaskTags_eq_ok {taskId : Uuid} {tx : Tx} {st : Server} {links : List TaskTag}
    (h : (exec (.deleteTaskTags taskId) tx st).1 = .ok links) :
    links = (view st.db (writes tx)).linksOf taskId := by
  simp only [exec] at h
  cases hflush : flush st.db tx with
  | error e =>
    rw [hflush] at h
    cases h
  | ok tx' =>
    rw [hflush] at h
    obtain rfl := (flush_eq_ok.1 hflush).2
    exact (Except.ok.inj h).symm

/-- **Only a commit changes the database**, by the transaction's statements. -/
theorem exec_db (o : Op) (tx : Tx) (st : Server) :
    (exec o tx st).2.2.db = st.db
      ∨ o = .commit ∧ (exec o tx st).2.2.db = view st.db (writes tx) := by
  rcases exec_cases o tx st with ⟨e, -, -, h⟩ | ⟨-, a, h⟩ <;> rw [h]
  · exact .inl rfl
  · cases o with
    | commit => exact .inr ⟨rfl, rfl⟩
    | getTask id =>
      left
      simp only [after]
      split <;> rfl
    | _ => exact .inl rfl

/-- A session gets the guard by asking for it, and otherwise keeps it or loses it. -/
theorem exec_lock (o : Op) (tx : Tx) (st : Server) :
    (exec o tx st).2.1.lock = tx.lock ∨ (exec o tx st).2.1.lock = none
      ∨ ∃ mode, o = .acquireGuard mode ∧ (exec o tx st).2.1.lock = some mode := by
  rcases exec_cases o tx st with ⟨e, -, -, h⟩ | ⟨-, a, h⟩ <;> rw [h]
  · exact .inr (.inl rfl)
  · cases o with
    | acquireGuard mode => exact .inr (.inr ⟨mode, rfl, rfl⟩)
    | commit => exact .inr (.inl rfl)
    | rollback => exact .inr (.inl rfl)
    | add row => exact .inl (add_lock tx row)
    | getTask id =>
      left
      simp only [after]
      split <;> rfl
    | _ => exact .inl rfl

/-- The exceptions of operations are those of the database. -/
theorem exec_error {o : Op} {tx : Tx} {st : Server} {e : Exn} (h : (exec o tx st).1 = .error e) :
    ∃ d, e = .db d := by
  rcases exec_cases o tx st with ⟨d, -, -, heq⟩ | ⟨-, a, heq⟩ <;> rw [heq] at h
  · exact ⟨d, (Except.error.inj h).symm⟩
  · cases h

end Exec

/-! ## Operations that leave the tasks alone -/

/-- The two draws from the runtime. -/
def Op.Draw : Op → Prop
  | .uuid7 | .now => True
  | _ => False

/-- Draws, reads, and changes to tags and links. -/
def Op.Quiet : Op → Prop
  | .uuid7 | .now | .selectActive | .selectMaxVersion | .selectDefinitionId | .countByStatus
  | .selectTagNames _ | .selectTags _ | .getTag _ | .countTaskTags _ | .deleteTaskTags _ | .flush
  | .add (.tag _) | .add (.taskTag _) => True
  | _ => False

theorem Op.Draw.quiet {o : Op} (h : o.Draw) : o.Quiet := by
  cases o <;> trivial

/-- A statement on tags and links. -/
def Write.Tagging : Write → Prop
  | .insertTag _ | .insertTaskTag _ | .deleteTaskTags _ => True
  | _ => False

theorem newTasks_eq_nil {tx : Tx} (h : ∀ t, .task t ∉ tx.added) : newTasks tx = [] := by
  rw [newTasks, List.filterMap_eq_nil_iff]
  intro row hrow
  cases row with
  | task t => exact absurd hrow (h t)
  | _ => rfl

/-- The session holds this task or none, unchanged, and has no new one. -/
structure Settled (tracked : Option Task) (tx : Tx) : Prop where
  tracked : tx.tracked = tracked.map fun t => (t, t)
  noNew : ∀ t, .task t ∉ tx.added

namespace Settled

variable {tracked : Option Task} {tx : Tx}

theorem dirty_eq_nil (h : Settled tracked tx) : dirty tx = [] := by
  unfold dirty
  rw [h.tracked]
  cases tracked <;> simp

theorem mem_writes_iff (h : Settled tracked tx) {w : Write} :
    w ∈ writes tx ↔ w ∈ tx.log ∨ (∃ row ∈ tx.added, row.insert = w) ∨ w ∈ tx.deleted := by
  rw [writes, List.mem_append, mem_pending_iff, h.dirty_eq_nil]
  simp

theorem settled_eq (h : Settled tracked tx) : settled tx = tx.tracked := by
  unfold settled
  rw [newTasks_eq_nil h.noNew, h.tracked]
  cases tracked <;> rfl

theorem flushed (h : Settled tracked tx) : Settled tracked (flushed tx) :=
  ⟨h.settled_eq.trans h.tracked, fun _ => List.not_mem_nil⟩

theorem add (h : Settled tracked tx) {row : NewRow} (hrow : ∀ t, row ≠ .task t) :
    Settled tracked { tx with added := tx.added ++ [row] } := by
  refine ⟨h.tracked, fun t hmem => ?_⟩
  rcases List.mem_append.1 hmem with hmem | hmem
  · exact h.noNew t hmem
  · exact hrow t (List.mem_singleton.1 hmem).symm

end Settled

theorem add_of_ne_task {row : NewRow} (h : ∀ t, row ≠ .task t) (tx : Tx) :
    tx.add row = { tx with added := tx.added ++ [row] } := by
  cases row with
  | task t => exact absurd rfl (h t)
  | _ => rfl

/-- A task is new unless the session holds it. -/
theorem add_task_cases (tx : Tx) (t : Task) :
    (∃ loaded current, tx.tracked = some (loaded, current) ∧ current.id = t.id
        ∧ tx.add (.task t) = tx)
      ∨ tx.add (.task t) = { tx with added := tx.added ++ [.task t] } := by
  cases h : tx.tracked with
  | none => exact .inr (by simp only [Tx.add, h])
  | some pair =>
    by_cases hid : pair.2.id = t.id
    · exact .inl ⟨pair.1, pair.2, rfl, hid, by simp only [Tx.add, h, if_pos hid]⟩
    · exact .inr (by simp only [Tx.add, h, if_neg hid])

theorem add_held_task {tx : Tx} {t loaded current : Task}
    (h : tx.tracked = some (loaded, current)) (hid : current.id = t.id) :
    tx.add (.task t) = tx := by
  simp only [Tx.add, h, if_pos hid]

/-- The statements after one more new row. -/
theorem mem_writes_add {row : NewRow} {tx : Tx}
    (h : tx.add row = { tx with added := tx.added ++ [row] }) {w : Write} :
    w ∈ writes (tx.add row) ↔ w ∈ writes tx ∨ row.insert = w := by
  rw [h, writes, writes, List.mem_append, List.mem_append, mem_pending_iff, mem_pending_iff]
  show (w ∈ tx.log ∨ (∃ row' ∈ tx.added ++ [row], row'.insert = w) ∨ w ∈ dirty tx ∨ w ∈ tx.deleted)
    ↔ _
  have hadded : (∃ row' ∈ tx.added ++ [row], row'.insert = w)
      ↔ (∃ row' ∈ tx.added, row'.insert = w) ∨ row.insert = w := by
    simp [or_and_right, exists_or]
  rw [hadded]
  constructor
  · rintro (hw | (hw | hw) | hw | hw)
    · exact .inl (.inl hw)
    · exact .inl (.inr (.inl hw))
    · exact .inr hw
    · exact .inl (.inr (.inr (.inl hw)))
    · exact .inl (.inr (.inr (.inr hw)))
  · rintro ((hw | hw | hw | hw) | hw)
    · exact .inl hw
    · exact .inr (.inl (.inl hw))
    · exact .inr (.inr (.inl hw))
    · exact .inr (.inr (.inr hw))
    · exact .inr (.inl (.inr hw))

/-- What a quiet operation leaves of a transaction: its guard, its task and its statements, with
statements on tags and links added. -/
structure Extends (tracked : Option Task) (tx tx' : Tx) : Prop where
  lock : tx'.lock = tx.lock
  settled : Settled tracked tx'
  mono : ∀ w ∈ writes tx, w ∈ writes tx'
  fresh : ∀ w ∈ writes tx', w ∈ writes tx ∨ w.Tagging

theorem Extends.of_writes {tracked : Option Task} {tx tx' : Tx} (hlock : tx'.lock = tx.lock)
    (hsettled : Settled tracked tx') (hwrites : writes tx' = writes tx) : Extends tracked tx tx' :=
  ⟨hlock, hsettled, fun _ hw => hwrites ▸ hw, fun _ hw => .inl (hwrites ▸ hw)⟩

theorem Settled.extends_add {tracked : Option Task} {tx : Tx} {row : NewRow}
    (h : Settled tracked tx) (hrow : ∀ t, row ≠ .task t) (htag : row.insert.Tagging) :
    Extends tracked tx (tx.add row) where
  lock := add_lock tx row
  settled := add_of_ne_task hrow tx ▸ h.add hrow
  mono _ hw := (mem_writes_add (add_of_ne_task hrow tx)).2 (.inl hw)
  fresh w hw := by
    rcases (mem_writes_add (add_of_ne_task hrow tx)).1 hw with hw | rfl
    · exact .inl hw
    · exact .inr htag

/-- A flush turns the new task into the one the session holds. -/
theorem settled_add_task {tx : Tx} {t : Task}
    (h : tx.add (.task t) = { tx with added := tx.added ++ [.task t] })
    (hnoNew : ∀ t, .task t ∉ tx.added) : settled (tx.add (.task t)) = some (t, t) := by
  have hnew : newTasks (tx.add (.task t)) = newTasks tx ++ [t] := by
    rw [h]
    simp [newTasks]
  rw [newTasks_eq_nil hnoNew] at hnew
  unfold settled
  rw [hnew]
  rfl

section Quiet

variable [Jsonb] [Runtime]

/-- **A quiet operation extends the transaction**, or fails. -/
theorem exec_quiet {o : Op} {tracked : Option Task} {tx : Tx} {st : Server} (h : o.Quiet)
    (hsettled : Settled tracked tx) :
    (∃ e, exec o tx st = (.error (.db e), .fresh, st))
    ∨ (∃ a, (exec o tx st).1 = .ok a) ∧ Extends tracked tx (exec o tx st).2.1
      ∧ (exec o tx st).2.2.db = st.db := by
  rcases exec_cases o tx st with ⟨e, -, -, heq⟩ | ⟨-, a, heq⟩ <;> rw [heq]
  · exact .inl ⟨e, rfl⟩
  · refine .inr ⟨⟨a, rfl⟩, ?_⟩
    have hflushed : Extends tracked tx (flushed tx) := .of_writes rfl hsettled.flushed
      (writes_flushed tx)
    cases o with
    | uuid7 => exact ⟨.of_writes rfl hsettled rfl, rfl⟩
    | now => exact ⟨.of_writes rfl hsettled rfl, rfl⟩
    | deleteTaskTags taskId =>
      -- the DELETE flushes, and is one write more
      let links := (view st.db (writes tx)).linksOf taskId
      have hpending :
          pending { flushed tx with log := writes tx ++ [.deleteTaskTags links] } = [] :=
        pending_flushed tx
      have hwrites : writes { flushed tx with log := writes tx ++ [.deleteTaskTags links] }
          = writes tx ++ [.deleteTaskTags links] := by
        rw [writes, hpending, List.append_nil]
      refine ⟨⟨rfl, ⟨hsettled.flushed.tracked, hsettled.flushed.noNew⟩, fun w hw => ?_,
        fun w hw => ?_⟩, rfl⟩
      · show w ∈ writes { flushed tx with log := writes tx ++ [.deleteTaskTags links] }
        rw [hwrites]
        exact List.mem_append_left _ hw
      · change w ∈ writes { flushed tx with log := writes tx ++ [.deleteTaskTags links] } at hw
        rw [hwrites] at hw
        rcases List.mem_append.1 hw with hw | hw
        · exact .inl hw
        · rw [List.mem_singleton.1 hw]
          exact .inr trivial
    | add row =>
      cases row with
      | tag t =>
        have hextends : Extends tracked tx (tx.add (.tag t)) :=
          hsettled.extends_add (by simp) trivial
        exact ⟨hextends, rfl⟩
      | taskTag l =>
        have hextends : Extends tracked tx (tx.add (.taskTag l)) :=
          hsettled.extends_add (by simp) trivial
        exact ⟨hextends, rfl⟩
      | _ => exact h.elim
    -- the others flush and read, or are not quiet
    | _ => first | exact h.elim | exact ⟨hflushed, rfl⟩

end Quiet

/-! ## What statements change -/

section Effect

variable [Jsonb]

/-- The definition a statement inserts, as it is stored. -/
def Write.workflow? : Write → Option WorkflowRecord
  | .insertWorkflow r => some { r with document := Jsonb.store r.document }
  | _ => none

theorem workflows_apply (db : Db) (w : Write) :
    (w.apply db).workflows = db.workflows ++ w.workflow?.toList := by
  cases w <;> simp [Write.apply, Write.workflow?]

/-- Definitions are only ever added. -/
theorem workflows_view (db : Db) (ws : List Write) :
    (view db ws).workflows = db.workflows ++ ws.filterMap Write.workflow? := by
  induction ws generalizing db with
  | nil => simp
  | cons w ws ih =>
    rw [view_cons, ih, workflows_apply, List.append_assoc]
    cases h : w.workflow? <;> simp [h]

/-- The row a statement adds to the outbox. -/
def Write.outbox? : Write → Option (OutboxRecord Event)
  | .insertOutbox r => some r
  | _ => none

theorem outbox_apply (db : Db) (w : Write) :
    (w.apply db).outbox = db.outbox ++ w.outbox?.toList := by
  cases w <;> simp [Write.apply, Write.outbox?]

/-- No statement of a session touches an outbox row that is there. -/
theorem outbox_view (db : Db) (ws : List Write) :
    (view db ws).outbox = db.outbox ++ ws.filterMap Write.outbox? := by
  induction ws generalizing db with
  | nil => simp
  | cons w ws ih =>
    rw [view_cons, ih, outbox_apply, List.append_assoc]
    cases h : w.outbox? <;> simp [h]

/-- The status a statement puts into a row that did not have it. -/
def Write.status? : Write → Option PyStr
  | .insertTask t => some t.status
  | .updateTask loaded current =>
    if loaded.status = current.status then none else some current.status
  | _ => none

/-- Where the statuses after a statement come from. -/
theorem status_of_mem_apply {db : Db} {w : Write} {t : Task} (h : t ∈ (w.apply db).tasks) :
    (∃ t' ∈ db.tasks, t'.status = t.status) ∨ w.status? = some t.status := by
  cases w with
  | insertTask t' =>
    rcases List.mem_append.1 h with h | h
    · exact .inl ⟨t, h, rfl⟩
    · obtain rfl := List.mem_singleton.1 h
      exact .inr rfl
  | updateTask loaded current =>
    obtain ⟨row, hrow, rfl⟩ := List.mem_map.1 h
    by_cases hid : row.id = loaded.id
    · rw [if_pos hid]
      by_cases hs : loaded.status = current.status
      · exact .inl ⟨row, hrow, by simp [updated, column, hs]⟩
      · exact .inr (by simp [Write.status?, updated, column, hs])
    · rw [if_neg hid]
      exact .inl ⟨row, hrow, rfl⟩
  | deleteTask id => exact .inl ⟨t, (List.mem_filter.1 h).1, rfl⟩
  | _ => exact .inl ⟨t, h, rfl⟩

/-- **Where the statuses after a transaction come from.** -/
theorem status_of_mem_view {db : Db} {ws : List Write} {t : Task} (h : t ∈ (view db ws).tasks) :
    (∃ t' ∈ db.tasks, t'.status = t.status) ∨ ∃ w ∈ ws, w.status? = some t.status := by
  induction ws generalizing db with
  | nil => exact .inl ⟨t, h, rfl⟩
  | cons w ws ih =>
    rcases ih h with ⟨t', ht', heq⟩ | ⟨w', hw', heq⟩
    · rcases status_of_mem_apply ht' with ⟨t'', ht'', heq'⟩ | hw
      · exact .inl ⟨t'', ht'', heq'.trans heq⟩
      · exact .inr ⟨w, List.mem_cons_self, heq ▸ hw⟩
    · exact .inr ⟨w', List.mem_cons_of_mem _ hw', heq⟩

end Effect

end TaskService.Store
