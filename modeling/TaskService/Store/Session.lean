import TaskService.Lib.Program
import TaskService.Store.Database
import Mathlib.Data.List.Dedup
import Mathlib.Data.List.MinMax

/-!
# Sessions

What an `AsyncSession` on Postgres does, one database step at a time. A session has a transaction:
the advisory guard it holds, the statements it has issued, and the changes its unit of work has not
issued yet. Reads are READ COMMITTED: each sees what is committed by then and the session's own
statements. A query first issues the pending changes (autoflush); so does a commit. A statement the
database refuses rolls the whole transaction back, which also frees the guard.

A use case is a `SessionProg`: it issues these operations and may raise any `Exn`. `exec` is the
meaning of every operation.
-/

namespace TaskService

open Tasks Tags

/-- What the runtime draws for the n-th time something asks. -/
class Runtime where
  uuid7 : Nat → Uuid
  uuid7_injective : Function.Injective uuid7
  now : Nat → Time

namespace Store

/-- The two forms of the advisory guard. -/
inductive LockMode where
  | shared
  | exclusive
  deriving DecidableEq

/-- A new object of one of the mapped classes. -/
inductive NewRow where
  | task (t : Task)
  | tag (t : Tag)
  | taskTag (l : TaskTag)
  | outbox (r : OutboxRecord Event)
  | workflow (r : WorkflowRecord)

/-- One session's transaction. -/
structure Tx where
  lock : Option LockMode
  /-- statements issued and not committed -/
  log : List Write
  /-- the task the session has loaded: as it was loaded, and as it stands (every use case loads at
  most one) -/
  tracked : Option (Task × Task)
  added : List NewRow
  deleted : List Write

/-- A transaction that has done nothing. -/
def Tx.fresh : Tx := ⟨none, [], none, [], []⟩

/-- What all sessions share: the committed database, and how often ids and times were drawn. -/
structure Server where
  db : Db
  drawn : Nat

/-- The operations of a session, and the two draws from the runtime. -/
inductive Op where
  | uuid7
  | now
  /-- `pg_advisory_xact_lock`, or its shared form -/
  | acquireGuard (mode : LockMode)
  | selectActive
  | selectMaxVersion
  | selectDefinitionId
  | getTask (id : Uuid)
  | countByStatus
  | selectTagNames (taskId : Uuid)
  | selectTags (keys : List PyStr)
  | getTag (id : Uuid)
  | countTaskTags (tagId : Uuid)
  | deleteTaskTags (taskId : Uuid)
  | add (row : NewRow)
  /-- assignments to the attributes of the loaded task -/
  | setTask (t : Task)
  | deleteTask (t : Task)
  | deleteTag (t : Tag)
  | flush
  | commit
  | rollback

/-- What an operation returns. -/
abbrev Res : Op → Type
  | .uuid7 => Uuid
  | .now => Time
  | .selectActive => Option WorkflowRecord
  | .selectMaxVersion => Option Nat
  | .selectDefinitionId => Bool
  | .getTask _ => Option Task
  | .countByStatus => Dict PyStr Nat
  | .selectTagNames _ => List PyStr
  | .selectTags _ => List Tag
  | .getTag _ => Option Tag
  | .countTaskTags _ => Nat
  | .deleteTaskTags _ => List TaskTag
  | _ => Unit

/-- A use case. -/
abbrev SessionProg (α : Type) := Prog Res Exn α

/-- Issue one operation. -/
abbrev perform (o : Op) : SessionProg (Res o) := Prog.call o

/-! ## Queries -/

namespace Db

variable (db : Db)

/-- The definition with the highest version. -/
def active : Option WorkflowRecord := db.workflows.argmax WorkflowRecord.version

/-- `GROUP BY status`, with counts. -/
def countByStatus : Dict PyStr Nat :=
  (db.tasks.map Task.status).dedup.map fun s => (s, (db.tasks.map Task.status).count s)

/-- The links of a task. -/
def linksOf (taskId : Uuid) : List TaskTag := db.taskTags.filter fun l => l.taskId = taskId

/-- The tags linked to a task. -/
def tagsOf (taskId : Uuid) : List Tag :=
  db.tags.filter fun t => ⟨taskId, t.id⟩ ∈ db.taskTags

/-- The names of a task's tags, sorted; nothing depends on the database's collation. -/
def tagNames (taskId : Uuid) : List PyStr := ((db.tagsOf taskId).map Tag.name).insertionSort (· ≤ ·)

/-- The counts are those of the statuses in use. -/
theorem mem_countByStatus {db : Db} {s : PyStr} {n : Nat} :
    (s, n) ∈ db.countByStatus ↔ (∃ t ∈ db.tasks, t.status = s)
      ∧ n = (db.tasks.map Task.status).count s := by
  simp only [countByStatus, List.mem_map, List.mem_dedup, Prod.mk.injEq]
  constructor
  · rintro ⟨_, ⟨t, ht, rfl⟩, rfl, rfl⟩
    exact ⟨⟨t, ht, rfl⟩, rfl⟩
  · rintro ⟨hs, rfl⟩
    exact ⟨s, hs, rfl, rfl⟩

theorem mem_keys_countByStatus {db : Db} {s : PyStr} :
    s ∈ Dict.keys db.countByStatus ↔ ∃ t ∈ db.tasks, t.status = s := by
  simp [Dict.mem_keys_iff, mem_countByStatus]

end Db

/-! ## The unit of work -/

/-- The UPDATE of the loaded task, if the session changed it. -/
def dirty (tx : Tx) : List Write :=
  match tx.tracked with
  | some (loaded, current) => if loaded = current then [] else [.updateTask loaded current]
  | none => []

/-- The statements a flush would issue: by mapped class in the order of their module names, of each
its UPDATE before its INSERTs, then deletes. -/
def pending (tx : Tx) : List Write :=
  (tx.added.filterMap fun | .outbox r => some (.insertOutbox r) | _ => none)
    ++ (tx.added.filterMap fun | .tag t => some (.insertTag t) | _ => none)
    ++ (tx.added.filterMap fun | .taskTag l => some (.insertTaskTag l) | _ => none)
    ++ dirty tx
    ++ (tx.added.filterMap fun | .task t => some (.insertTask t) | _ => none)
    ++ (tx.added.filterMap fun | .workflow r => some (.insertWorkflow r) | _ => none)
    ++ tx.deleted

def newTasks (tx : Tx) : List Task := tx.added.filterMap fun | .task t => some t | _ => none

/-- The task the session holds once everything is issued. -/
def settled (tx : Tx) : Option (Task × Task) :=
  match newTasks tx with
  | t :: _ => some (t, t)
  | [] => tx.tracked.map fun loaded => (loaded.2, loaded.2)

variable [Jsonb]

/-- Issue statements one after the other on top of a transaction's log. -/
def issue (db : Db) (log : List Write) : List Write → Except DbError (List Write)
  | [] => .ok log
  | w :: rest =>
    match w.check (view db log) with
    | some e => .error e
    | none => issue db (log ++ [w]) rest

/-- Issue everything pending. -/
def flush (db : Db) (tx : Tx) : Except DbError Tx := do
  let log ← issue db tx.log (pending tx)
  return { tx with log, tracked := settled tx, added := [], deleted := [] }

/-- A statement's outcome for the session: refused, it takes the transaction with it. -/
def settle {α : Type} (st : Server) (r : Except DbError (α × Tx × Server)) :
    Except Exn α × Tx × Server :=
  match r with
  | .ok (a, tx, st) => (.ok a, tx, st)
  | .error e => (.error (.db e), .fresh, st)

/-- A query: pending changes first, then a read of the session's own view. -/
def query {α : Type} (tx : Tx) (st : Server) (read : Db → α) : Except Exn α × Tx × Server :=
  settle st do
    let tx ← flush st.db tx
    return (read (view st.db tx.log), tx, st)

/-- `session.add`: a task the session holds already is not new. -/
def Tx.add (tx : Tx) (row : NewRow) : Tx :=
  match row, tx.tracked with
  | .task t, some (_, current) =>
    if current.id = t.id then tx else { tx with added := tx.added ++ [row] }
  | row, _ => { tx with added := tx.added ++ [row] }

variable [Runtime]

/-- What an operation returns, and what becomes of the session and of the server. -/
def exec : Prog.Exec Res Exn Tx Server
  | .uuid7, tx, st => (.ok (Runtime.uuid7 st.drawn), tx, { st with drawn := st.drawn + 1 })
  | .now, tx, st => (.ok (Runtime.now st.drawn), tx, { st with drawn := st.drawn + 1 })
  | .acquireGuard mode, tx, st => (.ok (), { tx with lock := some mode }, st)
  | .selectActive, tx, st => query tx st Db.active
  | .selectMaxVersion, tx, st => query tx st fun db => db.active.map WorkflowRecord.version
  | .selectDefinitionId, tx, st => query tx st fun db => !db.workflows.isEmpty
  | .getTask id, tx, st =>
    match query tx st fun db => db.tasks.find? fun t => t.id = id with
    | (.ok (some t), tx, st) => (.ok (some t), { tx with tracked := some (t, t) }, st)
    | other => other
  | .countByStatus, tx, st => query tx st Db.countByStatus
  | .selectTagNames taskId, tx, st => query tx st fun db => db.tagNames taskId
  | .selectTags keys, tx, st => query tx st fun db => db.tags.filter fun t => t.nameKey ∈ keys
  | .getTag id, tx, st => query tx st fun db => db.tags.find? fun t => t.id = id
  | .countTaskTags tagId, tx, st =>
    query tx st fun db => (db.taskTags.filter fun l => l.tagId = tagId).length
  | .deleteTaskTags taskId, tx, st =>
    settle st do
      let tx ← flush st.db tx
      let links := (view st.db tx.log).linksOf taskId
      return (links, { tx with log := tx.log ++ [.deleteTaskTags links] }, st)
  | .add row, tx, st => (.ok (), tx.add row, st)
  | .setTask t, tx, st =>
    (.ok (), { tx with tracked := tx.tracked.map fun loaded => (loaded.1, t) }, st)
  | .deleteTask t, tx, st => (.ok (), { tx with deleted := tx.deleted ++ [.deleteTask t.id] }, st)
  | .deleteTag t, tx, st => (.ok (), { tx with deleted := tx.deleted ++ [.deleteTag t.id] }, st)
  | .flush, tx, st =>
    settle st do
      let tx ← flush st.db tx
      return ((), tx, st)
  | .commit, tx, st =>
    settle st do
      let tx ← flush st.db tx
      return ((), .fresh, { st with db := view st.db tx.log })
  | .rollback, _, st => (.ok (), .fresh, st)

end Store

end TaskService
