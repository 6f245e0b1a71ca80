import TaskService.Lib.Interleaving
import TaskService.Tasks.Service

/-!
# The running service

Any number of calls, each in a session of its own, against one database. A call advances one
database step at a time; a session can end at any point (its transaction is rolled back), and waits
where Postgres makes it wait: at the advisory guard, and before a statement on a row or a unique key
that another open transaction has locked. The lock table lists no lock that Postgres does not take.

The statements of one flush are one step here, taken once the last of them can go through. Postgres
takes them one by one, so flushes that cross can deadlock there, and a wait ends at `lock_timeout`.
Either ends the session with an error of the database, its transaction rolled back: the tables are
left as by a session that stops, but its reply is not among those of this model.
-/

namespace TaskService.Concurrency

open Store Tasks Tags Workflows

/-- The use cases, with their arguments. -/
inductive Call where
  | create (title : PyStr) (description status : Option PyStr) (priority : Int)
      (tags : Option (List PyStr))
  | replace (taskId : Uuid) (title : PyStr) (description status : Option PyStr) (priority : Int)
      (tags : Option (List PyStr)) (roles : List PyStr)
  | patch (taskId : Uuid) (fields : PatchFields) (roles : List PyStr)
  | delete (taskId : Uuid)
  | legalMoves (taskId : Uuid)
  | deleteTag (tagId : Uuid)
  /-- a parsed document: no object in it has a key twice -/
  | replaceActive (document : {d : Json // d.Wf})
  | seed

/-- What a call returns. -/
inductive Reply where
  | task (t : Task)
  | moves (t : Task) (moves : List Transition)
  | stored (s : StoredWorkflow)
  | none

def Call.program [Unicode] : Call → SessionProg Reply
  | .create title description status priority tags =>
    return .task (← Tasks.create title description status priority tags)
  | .replace taskId title description status priority tags roles =>
    return .task (← Tasks.replace taskId title description status priority tags roles)
  | .patch taskId fields roles => return .task (← Tasks.patch taskId fields roles)
  | .delete taskId => do
    Tasks.delete taskId
    return .none
  | .legalMoves taskId => do
    let (task, moves) ← Tasks.legalMoves taskId
    return .moves task moves
  | .deleteTag tagId => do
    Tags.deleteTag tagId
    return .none
  | .replaceActive document => return .stored (← Workflows.replaceActive document)
  | .seed => do
    seedWorkflowIfMissing
    return .none

/-! ## Waiting -/

/-- The other transaction's guard stands in the way. -/
def guardBlocks : LockMode → Option LockMode → Bool
  | _, none => false
  | .shared, some .shared => false
  | _, some _ => true

/-- What a statement locks until its transaction ends. -/
inductive Resource where
  | taskRow (id : Uuid)
  /-- the part of a task row its links reference -/
  | taskKey (id : Uuid)
  | titleKey (k : PyStr)
  | tagKey (id : Uuid)
  | nameKey (k : PyStr)
  | link (l : TaskTag)
  | version (n : Nat)
  deriving DecidableEq

/-- The locks of a statement; `true` marks those two transactions can share. -/
def locks (db : Db) : Write → List (Resource × Bool)
  | .insertTask t => [(.titleKey t.titleKey, false)]
  | .updateTask loaded current =>
    (.taskRow loaded.id, false) ::
      if loaded.titleKey = current.titleKey then []
      else [(.taskKey loaded.id, false), (.titleKey loaded.titleKey, false),
        (.titleKey current.titleKey, false)]
  | .deleteTask id =>
    (.taskRow id, false) :: (.taskKey id, false)
      :: ((db.tasks.filter fun t => t.id = id).map fun t => (.titleKey t.titleKey, false))
      ++ ((db.taskTags.filter fun l => l.taskId = id).map fun l => (.link l, false))
  | .insertTag t => [(.nameKey t.nameKey, false)]
  | .deleteTag id =>
    (.tagKey id, false)
      :: ((db.tags.filter fun t => t.id = id).map fun t => (.nameKey t.nameKey, false))
      ++ ((db.taskTags.filter fun l => l.tagId = id).map fun l => (.link l, false))
  | .insertTaskTag l => [(.link l, false), (.taskKey l.taskId, true), (.tagKey l.tagId, true)]
  | .deleteTaskTags links => links.map fun l => (.link l, false)
  | .insertOutbox _ => []
  | .insertWorkflow r => [(.version r.version, false)]

/-- Two statements of open transactions cannot both go ahead. -/
def conflicts (db : Db) (w w' : Write) : Bool :=
  (locks db w).any fun a => (locks db w').any fun b => a.1 = b.1 && !(a.2 && b.2)

/-- The statements an operation issues. -/
def statements [Jsonb] (db : Db) (tx : Tx) : Op → List Write
  | .uuid7 | .now | .acquireGuard _ | .add _ | .setTask _ | .deleteTask _ | .deleteTag _
  | .rollback => []
  | .deleteTaskTags taskId =>
    pending tx ++ [.deleteTaskTags ((view db (writes tx)).linksOf taskId)]
  | _ => pending tx

/-- The operation does not have to wait for the other transaction. -/
def permits [Jsonb] (o : Op) (tx : Tx) (st : Server) (other : Tx) : Bool :=
  (match o with | .acquireGuard mode => !guardBlocks mode other.lock | _ => true)
    && (statements st.db tx o).all fun w => other.log.all fun w' => !conflicts st.db w w'

/-! ## A plain environment

ASCII case folding, storage that keeps documents as they are, and a runtime that counts. -/

namespace Plain

scoped instance unicode : Unicode where
  fold c := if 0x41 ≤ c.val ∧ c.val ≤ 0x5A then [c + 0x20] else [c]
  fold_ne_nil c := by split <;> simp
  printable c := 0x20 ≤ c.val && c.val < 0x7F

scoped instance jsonb : Jsonb := ⟨id, fun _ => rfl⟩

scoped instance runtime : Runtime := ⟨id, Function.injective_id, id⟩

end Plain

/-! ## The world -/

/-- Calls in progress and the server. -/
abbrev World := Interleaving.Pool Res Exn Reply Tx Server Call

variable [Unicode] [Jsonb] [Runtime]

def rules : Interleaving.Rules Res Exn Reply Tx Server Call where
  exec := exec
  program := Call.program
  fresh := .fresh
  enabled := permits

/-- No call yet, and empty tables. -/
def World.initial : World := ⟨[], ⟨.empty, 0⟩⟩

/-- Some schedule of some calls leads to this world. -/
def World.Reachable (world : World) : Prop :=
  Machine.Reaches (Interleaving.step rules) World.initial world

/-- So many steps of the thread at a position. -/
def steps (i n : Nat) : List (Interleaving.Action Call) := List.replicate n (.run i)

end TaskService.Concurrency
