import TaskService.Concurrency.Moves
import TaskService.Lib.Following
import TaskService.Workflows.Decisions

/-!
# Reading legal moves

`legal_moves` takes no guard: it reads the active definition, then the task, each as committed when
it is read. Between the two reads the definition can be replaced, and the task can enter a state
that the definition read does not have; the engine then raises a `ValueError` that nothing
translates.

* **`legal_moves_of_life`**: unless that happens, the answer is the task with the transitions that
  leave its status in a definition that was active during the call, or that there is no such task.
* **`legal_moves_unfit`**: if it happens, the call ends with the `ValueError`.
-/

namespace TaskService.Concurrency

open Store Tasks Tags Workflows
open Prog (lift)
open Interleaving (Life)

section Moves

variable [Unicode]

/-- `legal_moves` after its first read: the second read, and the transitions of the definition. -/
def movesUnder (taskId : Uuid) (w : Workflow) : SessionProg Reply := do
  let (task, moves) ← (do
    let task ← Tasks.Repository.get taskId
    let moves ← lift (Engine.legalMoves ⟨w⟩ task.status)
    return (task, moves))
  return .moves task moves

/-- The transitions leaving a status, in the order of the table. -/
def leaving (w : Workflow) (status : PyStr) : List Transition :=
  (w.transitions.filter fun kv => kv.1.1 = status).map Prod.snd

/-- **The first read.** -/
theorem program_legalMoves (taskId : Uuid) :
    ∃ k, (Call.legalMoves taskId).program = .op .selectActive k
      ∧ ∀ row w, workflowFromDocument row.document = .ok w →
          k (.ok (some row)) = movesUnder taskId w := by
  refine ⟨_, rfl, fun row w hparse => ?_⟩
  have hraise : parseOrRaise row.document = .ok w := by
    rw [parseOrRaise, hparse]
    rfl
  show (((lift (parseOrRaise row.document) >>= _) >>= _) >>= _) >>= _ = _
  rw [hraise]
  rfl

/-- **The second read.** -/
theorem movesUnder_eq (taskId : Uuid) (w : Workflow) :
    ∃ k, movesUnder taskId w = .op (.getTask taskId) k
      ∧ k (.ok none) = .raise (.app (.taskNotFound taskId))
      ∧ (∀ task : Task, task.status ∈ w.stateNames →
          k (.ok (some task)) = .pure (.moves task (leaving w task.status)))
      ∧ ∀ task : Task, task.status ∉ w.stateNames →
          k (.ok (some task)) = .raise
          (.valueError (py "Unknown state: " ++ repr task.status)) := by
  refine ⟨_, rfl, rfl, fun task hknown => ?_, fun task hunknown => ?_⟩
  · show (lift (Engine.legalMoves ⟨w⟩ task.status) >>= _) >>= _ = _
    rw [legalMoves_of_mem hknown]
    rfl
  · have hnone : w.find? task.status = none := by
      rw [← Option.not_isSome_iff_eq_none, w.find?_isSome_iff]
      exact hunknown
    have herror : w.transitionsFrom task.status
        = .error (py "Unknown state: " ++ repr task.status) := by
      rw [Workflow.transitionsFrom, Workflow.requireState, Workflow.state, hnone]
      rfl
    show (lift (Engine.legalMoves ⟨w⟩ task.status) >>= _) >>= _ = _
    rw [Engine.legalMoves, orValueError, herror]
    rfl

/-- **Where a `legal_moves` session stands**, having seen these databases. -/
inductive Standing (taskId : Uuid) (dbs : List Db) : SessionProg Reply → Tx → Prop where
  | asks : Standing taskId dbs (Call.legalMoves taskId).program .fresh
  | knows {db : Db} {row : WorkflowRecord} {w : Workflow} (hdb : db ∈ dbs)
      (hactive : db.active = some row) (hparse : workflowFromDocument row.document = .ok w) :
      Standing taskId dbs (movesUnder taskId w) .fresh
  | absent {db : Db} {tx : Tx} (hdb : db ∈ dbs) (hnone : ∀ t ∈ db.tasks, t.id ≠ taskId) :
      Standing taskId dbs (.raise (.app (.taskNotFound taskId))) tx
  | found {db db' : Db} {row : WorkflowRecord} {w : Workflow} {task : Task} {tx : Tx}
      (hdb : db ∈ dbs)
      (hactive : db.active = some row) (hparse : workflowFromDocument row.document = .ok w)
      (hdb' : db' ∈ dbs) (htask : task ∈ db'.tasks) (hid : task.id = taskId)
      (hknown : task.status ∈ w.stateNames) :
      Standing taskId dbs (.pure (.moves task (leaving w task.status))) tx

theorem Standing.mono {taskId : Uuid} {dbs dbs' : List Db} {p : SessionProg Reply} {tx : Tx}
    (h : Standing taskId dbs p tx) (hsub : dbs ⊆ dbs') : Standing taskId dbs' p tx := by
  cases h with
  | asks => exact .asks
  | knows hdb hactive hparse => exact .knows (hsub hdb) hactive hparse
  | absent hdb hnone => exact .absent (hsub hdb) hnone
  | found hdb hactive hparse hdb' htask hid hknown =>
    exact .found (hsub hdb) hactive hparse (hsub hdb') htask hid hknown

end Moves

section Worlds

variable [Unicode] [Jsonb] [Runtime]

/-- When the session at this position is about to read its task, the task is in a state of the
definition that the session has read. -/
def Fits (taskId : Uuid) (world : World) (i : Nat) : Prop :=
  ∀ w tx, world.threads[i]? = some ⟨.legalMoves taskId, movesUnder taskId w, tx⟩ →
    ∀ t ∈ world.shared.db.tasks, t.id = taskId → t.status ∈ w.stateNames

/-- The service runs, and a definition is stored. -/
def Serving (world : World) : Prop := world.Reachable ∧ world.shared.db.workflows ≠ []

theorem Serving.step {world world' : World} {action : Interleaving.Action Call}
    (h : Serving world) (hstep : Interleaving.step rules world action = some world') :
    Serving world' := by
  refine ⟨h.1.tail action hstep, ?_⟩
  cases action with
  | start call =>
    obtain rfl := Option.some.inj hstep
    exact h.2
  | stop i =>
    obtain rfl := Option.some.inj hstep
    exact h.2
  | run i =>
    obtain ⟨before, rest, call, o, k, tx, -, -, -, rfl⟩ := Interleaving.run_cases hstep
    show (exec o tx world.shared).2.2.db.workflows ≠ []
    rcases exec_db o tx world.shared with hdb | ⟨-, hdb⟩
    · rw [hdb]
      exact h.2
    · -- rows of definitions are only ever added
      rw [hdb, workflows_view]
      exact fun hnil => h.2 (List.append_eq_nil_iff.1 hnil).1

omit [Unicode] in
/-- The second read, with nothing pending. -/
theorem exec_getTask_fresh (taskId : Uuid) (st : Server) : (exec (.getTask taskId) .fresh st).1
    = .ok (st.db.tasks.find? fun t => t.id = taskId) := by
  have hquery : query .fresh st (fun db => db.tasks.find? fun t => t.id = taskId)
      = (.ok (st.db.tasks.find? fun t => t.id = taskId), .fresh, st) := rfl
  simp only [exec, hquery]
  cases st.db.tasks.find? fun t => t.id = taskId <;> rfl

/-- One step of the session. -/
theorem Standing.own {taskId : Uuid} {dbs : List Db} {world : World} {i : Nat} {o : Op}
    {k : Except Exn (Res o) → SessionProg Reply} {tx : Tx} (h : Standing taskId dbs (.op o k) tx)
    (hserving : Serving world) (hseen : world.shared.db ∈ dbs) (hfits : Fits taskId world i)
    (hthread : world.threads[i]? = some ⟨.legalMoves taskId, .op o k, tx⟩) :
    Standing taskId dbs (k (exec o tx world.shared).1) (exec o tx world.shared).2.1 := by
  generalize hp : Prog.op o k = p at h hthread
  cases h with
  | asks =>
    obtain ⟨k', hprogram, hknows⟩ := program_legalMoves taskId
    rw [hprogram] at hp
    cases hp
    obtain ⟨row, hactive⟩ : ∃ row, world.shared.db.active = some row := by
      cases hactive : world.shared.db.active with
      | none => exact absurd (List.argmax_eq_none.1 hactive) hserving.2
      | some row => exact ⟨row, rfl⟩
    obtain ⟨w, hw⟩ := (sound_of_reachable hserving.1).inv.sourced.exists_activeWorkflow hactive
    obtain ⟨row', hrow', hparse⟩ := activeWorkflow_eq_some.1 hw
    obtain rfl := Option.some.inj (hactive.symm.trans hrow')
    have hread : exec .selectActive .fresh world.shared
        = (.ok world.shared.db.active, .fresh, world.shared) := rfl
    rw [hread, hactive, hknows row w hparse]
    exact .knows hseen hactive hparse
  | @knows db row w hdb hactive hparse =>
    obtain ⟨k', hprogram, hnone, hknown, -⟩ := movesUnder_eq taskId w
    have hfit := hfits w _ hthread
    rw [hprogram] at hp
    cases hp
    rw [exec_getTask_fresh]
    cases hfind : world.shared.db.tasks.find? fun t => t.id = taskId with
    | none =>
      rw [hnone]
      exact .absent hseen fun t ht => by simpa using List.find?_eq_none.1 hfind t ht
    | some task =>
      have htask := List.mem_of_find?_eq_some hfind
      have hid : task.id = taskId := by simpa using List.find?_some hfind
      rw [hknown task (hfit task htask hid)]
      exact .found hdb hactive hparse hseen htask hid (hfit task htask hid)
  | absent => cases hp
  | found => cases hp

/-- The service seen from a `legal_moves` session that was started when a definition was stored,
every step of which fits. -/
abbrev Reading (taskId : Uuid) (seen : List Server) (world : World) (i : Nat) : Prop :=
  Life rules (.legalMoves taskId) Serving (Fits taskId) seen world i

theorem Reading.standing {taskId : Uuid} {seen : List Server} {world : World} {i : Nat}
    (h : Reading taskId seen world i) : Serving world ∧ ∃ p tx,
      world.threads[i]? = some ⟨.legalMoves taskId, p, tx⟩
        ∧ Standing taskId (seen.map Server.db) p tx :=
  Life.thread (J := fun seen p tx => Standing taskId (seen.map Server.db) p tx) (fun _ h => h)
    (fun _ _ _ h hstep => h.step hstep) (fun _ => .asks)
    (fun _ _ _ _ h => h.mono (List.map_subset _ (List.subset_append_left _ _)))
    (fun _ _ _ _ _ _ h hserving hseen hfits hthread =>
      h.own hserving (List.mem_map_of_mem hseen) hfits hthread) h

/-- **Legal moves are read race-free**, in every run in which the task that the session reads is in
a state of the definition that it has read. Then the call ends with `TaskNotFoundError`, the task
being absent at some point during the call, or returns a task read during it, with exactly the
transitions that leave its status in a definition active at some point during it. -/
theorem legal_moves_of_life {taskId : Uuid} {seen : List Server} {world : World} {i : Nat}
    (h : Reading taskId seen world i) : ∃ p tx, world.threads[i]? = some ⟨.legalMoves taskId, p, tx⟩
      ∧ (∀ e, p = .raise e → e = .app (.taskNotFound taskId)
          ∧ ∃ st ∈ seen, ∀ t ∈ st.db.tasks, t.id ≠ taskId)
      ∧ ∀ reply, p = .pure reply → ∃ task row w, reply = .moves task (leaving w task.status)
          ∧ (∃ st ∈ seen, task ∈ st.db.tasks) ∧ task.id = taskId
          ∧ (∃ st ∈ seen, st.db.active = some row) ∧ workflowFromDocument row.document = .ok w
          ∧ task.status ∈ w.stateNames := by
  obtain ⟨-, p, tx, hthread, hstanding⟩ := h.standing
  refine ⟨p, tx, hthread, ?_⟩
  cases hstanding with
  | asks =>
    obtain ⟨k, hprogram, -⟩ := program_legalMoves taskId
    rw [hprogram]
    exact ⟨fun _ heq => (nomatch heq), fun _ heq => (nomatch heq)⟩
  | @knows db row w =>
    obtain ⟨k, hprogram, -⟩ := movesUnder_eq taskId w
    rw [hprogram]
    exact ⟨fun _ heq => (nomatch heq), fun _ heq => (nomatch heq)⟩
  | absent hdb hnone =>
    obtain ⟨st, hst, rfl⟩ := List.mem_map.1 hdb
    refine ⟨fun e heq => ?_, fun _ heq => (nomatch heq)⟩
    obtain rfl := Prog.raise.inj heq
    exact ⟨rfl, st, hst, hnone⟩
  | found hdb hactive hparse hdb' htask hid hknown =>
    obtain ⟨st, hst, rfl⟩ := List.mem_map.1 hdb
    obtain ⟨st', hst', rfl⟩ := List.mem_map.1 hdb'
    refine ⟨fun _ heq => (nomatch heq), fun reply heq => ?_⟩
    obtain rfl := Prog.pure.inj heq
    exact ⟨_, _, _, rfl, ⟨st', hst', htask⟩, hid, ⟨st, hst, hactive⟩, hparse, hknown⟩

/-- The other direction: a session that reads a task in a state that its definition does not have
ends with another exception. -/
theorem legal_moves_unfit {taskId : Uuid} {world world' : World} {i : Nat} {w : Workflow}
    {task : Task}
    (hthread : world.threads[i]? = some ⟨.legalMoves taskId, movesUnder taskId w, .fresh⟩)
    (hstep : Interleaving.step rules world (.run i) = some world')
    (hread : world.shared.db.tasks.find? (fun t => t.id = taskId) = some task)
    (hunknown : task.status ∉ w.stateNames) :
    ∃ tx, world'.threads[i]? = some ⟨.legalMoves taskId,
      .raise (.valueError (py "Unknown state: " ++ repr task.status)), tx⟩ := by
  obtain ⟨k, hprogram, -, -, hraises⟩ := movesUnder_eq taskId w
  rw [hprogram] at hthread
  have hafter := (Interleaving.run_thread hstep hthread).1
  rw [show rules.exec (.getTask taskId) .fresh world.shared
      = exec (.getTask taskId) .fresh world.shared from rfl, exec_getTask_fresh, hread] at hafter
  rw [hafter, hraises task hunknown]
  exact ⟨_, rfl⟩

omit [Jsonb] [Runtime] in
/-- Sessions that stand at the same second read know the same of each status. -/
theorem movesUnder_inj {taskId : Uuid} {w w' : Workflow}
    (h : movesUnder taskId w = movesUnder taskId w') {task : Task}
    (hknown : task.status ∈ w.stateNames) : task.status ∈ w'.stateNames := by
  by_contra hunknown
  obtain ⟨k, hprogram, -, hreturns, -⟩ := movesUnder_eq taskId w
  obtain ⟨k', hprogram', -, -, hraises⟩ := movesUnder_eq taskId w'
  rw [hprogram, hprogram'] at h
  obtain rfl := eq_of_heq (Prog.op.inj h).2
  have hreturn := hreturns task hknown
  rw [hraises task hunknown] at hreturn
  cases hreturn

omit [Jsonb] [Runtime] in
/-- A session fits while the task is in a state of the definition that it has read. -/
theorem fits_of_known {taskId : Uuid} {world : World} {i : Nat} {w : Workflow} {tx : Tx}
    (hthread : world.threads[i]? = some ⟨.legalMoves taskId, movesUnder taskId w, tx⟩)
    (hknown : ∀ t ∈ world.shared.db.tasks, t.id = taskId → t.status ∈ w.stateNames) :
    Fits taskId world i := by
  intro w' tx' hthread' t ht hid
  rw [hthread] at hthread'
  obtain ⟨-, hp, -⟩ := Interleaving.Thread.mk.inj (Option.some.inj hthread')
  exact movesUnder_inj hp (hknown t ht hid)

/-- **It takes a replacement**: a session fits as long as the definition active at its start is. -/
theorem Reading.fits {taskId : Uuid} {seen : List Server} {world : World} {i : Nat}
    (h : Reading taskId seen world i)
    (hsame : ∀ st ∈ seen, st.db.active = world.shared.db.active) : Fits taskId world i := by
  obtain ⟨hserving, p, tx, hthread, hstanding⟩ := h.standing
  have hnone : (∀ w, p ≠ movesUnder taskId w) → Fits taskId world i := by
    intro hnone w tx' hthread'
    rw [hthread] at hthread'
    obtain ⟨-, hp, -⟩ := Interleaving.Thread.mk.inj (Option.some.inj hthread')
    exact absurd hp (hnone w)
  cases hstanding with
  | asks =>
    refine hnone fun w hp => ?_
    obtain ⟨k, hprogram, -⟩ := program_legalMoves taskId
    obtain ⟨k', hprogram', -⟩ := movesUnder_eq taskId w
    rw [hprogram, hprogram'] at hp
    cases hp
  | @knows db row w hdb hactive hparse =>
    refine fits_of_known hthread fun t ht _ => ?_
    obtain ⟨st, hst, rfl⟩ := List.mem_map.1 hdb
    obtain ⟨w₀, hw₀, hstatus⟩ :=
      mem_knownStates_iff.1 ((sound_of_reachable hserving.1).inv.known t ht)
    obtain ⟨row', hrow', hparse'⟩ := activeWorkflow_eq_some.1 hw₀
    rw [← hsame st hst, hactive] at hrow'
    obtain rfl := Option.some.inj hrow'
    rw [hparse] at hparse'
    obtain rfl := Except.ok.inj hparse'
    exact hstatus
  | absent | found =>
    refine hnone fun w hp => ?_
    obtain ⟨k, hprogram, -⟩ := movesUnder_eq taskId w
    rw [hprogram] at hp
    cases hp

/-- After its first read a session knows the active definition. -/
theorem reads_active {taskId : Uuid} {world world' : World} {i : Nat} {w : Workflow}
    (hthread : world.threads[i]? = some ⟨.legalMoves taskId, (Call.legalMoves taskId).program,
      .fresh⟩)
    (hstep : Interleaving.step rules world (.run i) = some world')
    (hactive : activeWorkflow world.shared.db = some w) :
    world'.threads[i]? = some ⟨.legalMoves taskId, movesUnder taskId w, .fresh⟩ := by
  obtain ⟨row, hrow, hparse⟩ := activeWorkflow_eq_some.1 hactive
  obtain ⟨k, hprogram, hknows⟩ := program_legalMoves taskId
  rw [hprogram] at hthread
  have hafter := (Interleaving.run_thread hstep hthread).1
  rw [show rules.exec .selectActive .fresh world.shared
      = (.ok world.shared.db.active, .fresh, world.shared) from rfl, hrow] at hafter
  rw [hafter, hknows row w hparse]

end Worlds

section Schedule

open Plain

/-- `forkDocument` with one state more, which `a` leads to. -/
def widerDocument : {d : Json // d.Wf} :=
  ⟨document [.str (py "a"), .str (py "b"), .str (py "c"), .str (py "d")]
    [.dict [(py "name", .str (py "Take")), (py "from", .str (py "a")), (py "to", .str (py "b"))],
      .dict [(py "name", .str (py "Drop")), (py "from", .str (py "a")), (py "to", .str (py "c"))],
      .dict [(py "name", .str (py "Park")), (py "from", .str (py "a")),
      (py "to", .str (py "d"))]], by
    rw [document_wf_iff]
    simp
    decide⟩

/-- Store the definition and create a task in `a`. -/
def servingRun : List (Interleaving.Action Call) :=
  .start (.replaceActive forkDocument) :: steps 0 10
    ++ .start (.create (py "A") none none 3 none) :: steps 1 10

/-- The session reads the definition; then it is replaced, and the task moves to the new state. -/
def overtakenRun : List (Interleaving.Action Call) :=
  .run 2 :: .start (.replaceActive widerDocument) :: steps 3 10
    ++ .start (.patch forkTask (statusPatch (py "d")) []) :: steps 4 14 ++ [.run 2]

/-- The session at this position ended with a `ValueError`. -/
def endsInValueError (world : World) (i : Nat) : Bool :=
  match (world.threads[i]? : Option (Interleaving.Thread Res Exn Reply Tx Call)) with
  | some ⟨_, .raise (.valueError _), _⟩ => true
  | _ => false

/-- The session has been started, after two others that stored the definition and the task. -/
def readyToRead : Option World :=
  (Machine.runActions (Interleaving.step rules) World.initial servingRun).bind fun world : World =>
    if world.shared.db.workflows ≠ [] ∧ world.threads.length = 2 then
      Interleaving.step rules world (.start (.legalMoves forkTask))
    else none

theorem life_of_readyToRead {P : World → Nat → Prop} {world : World}
    (h : readyToRead = some world) :
    Life rules (.legalMoves forkTask) Serving P [world.shared] world 2
      ∧ world.threads[2]?
        = some ⟨.legalMoves forkTask, (Call.legalMoves forkTask).program, .fresh⟩ := by
  unfold readyToRead at h
  obtain ⟨before, hbefore, hrest⟩ := Option.bind_eq_some_iff.1 h
  split at hrest
  next hguard =>
    obtain ⟨hstored, hlength⟩ := hguard
    have hserving : Serving before := ⟨Machine.reaches_of_runActions hbefore, hstored⟩
    refine ⟨hlength ▸ .start hserving hrest, ?_⟩
    obtain rfl := Option.some.inj hrest
    show (before.threads ++ [_])[2]? = _
    rw [List.getElem?_append_right (by omega), hlength]
    rfl
  next => cases hrest

/-- **A call that fails with a `ValueError`**: a definition is stored when it starts, and the task
exists all along. -/
theorem unfit_legal_moves : ∃ (seen : List Server) (world : World) (message : PyStr) (tx : Tx),
    Life rules (.legalMoves forkTask) Serving (fun _ _ => True) seen world 2
      ∧ world.threads[2]? = some ⟨.legalMoves forkTask, .raise (.valueError message), tx⟩ := by
  have hrun : (readyToRead.bind fun world : World =>
      (Machine.runActions (Interleaving.step rules) world overtakenRun).map
        fun world : World => endsInValueError world 2) = some true := by
    decide +kernel
  obtain ⟨world, hready, hrest⟩ := Option.bind_eq_some_iff.1 hrun
  obtain ⟨world', hrun', hends⟩ := Option.map_eq_some_iff.1 hrest
  have hlife := (life_of_readyToRead (P := fun _ _ => True) hready).1
  have hplace : overtakenRun.all (fun action => Interleaving.follow action 2 = some 2) = true := by
    decide
  obtain ⟨seen, hlife'⟩ := hlife.continue hrun' fun action haction =>
    ⟨of_decide_eq_true (List.all_eq_true.1 hplace action haction), fun _ _ => trivial⟩
  obtain ⟨-, p, tx, hthread, -⟩ := Life.thread (K := fun _ => True) (J := fun _ _ _ => True)
    (fun _ _ => trivial) (fun _ _ _ _ _ => trivial) (fun _ => trivial) (fun _ _ _ _ _ => trivial)
    (fun _ _ _ _ _ _ _ _ _ _ _ => trivial) hlife'
  unfold endsInValueError at hends
  rw [hthread] at hends
  cases p with
  | raise e =>
    cases e with
    | valueError message => exact ⟨seen, world', message, tx, hlife', hthread⟩
    | _ => cases hends
  | _ => cases hends

/-- Another session moves the task to `b`. -/
def movingRun : List (Interleaving.Action Call) :=
  .start (.patch forkTask (statusPatch (py "b")) []) :: steps 3 14

/-- The session at this position returned the task in `b`, which nothing leaves. -/
def returnsMoved (world : World) (i : Nat) : Bool :=
  match (world.threads[i]? : Option (Interleaving.Thread Res Exn Reply Tx Call)) with
  | some ⟨_, .pure (.moves task moves), _⟩ => task.status = py "b" && moves.isEmpty
  | _ => false

/-- **A write between the two reads**: the session starts while the task is in `a`, and returns it
in `b`. -/
theorem legal_moves_of_life_fork : ∃ (seen : List Server) (world : World) (p : SessionProg Reply)
    (tx : Tx), Reading forkTask seen world 2 ∧ returnsMoved world 2 = true
    ∧ world.threads[2]? = some ⟨.legalMoves forkTask, p, tx⟩
      ∧ ∀ reply, p = .pure reply → ∃ task row w, reply = .moves task (leaving w task.status)
          ∧ (∃ st ∈ seen, task ∈ st.db.tasks) ∧ task.id = forkTask
          ∧ (∃ st ∈ seen, st.db.active = some row) ∧ workflowFromDocument row.document = .ok w
          ∧ task.status ∈ w.stateNames := by
  have hrun : (readyToRead.bind fun world₁ : World =>
      (activeWorkflow world₁.shared.db).bind fun w =>
        (Interleaving.step rules world₁ (.run 2)).bind fun world₂ : World =>
          (Machine.runActions (Interleaving.step rules) world₂ movingRun).bind fun world₃ : World =>
            if world₃.shared.db.tasks.all (fun t => decide (t.status ∈ w.stateNames)) then
              (Interleaving.step rules world₃ (.run 2)).map fun world₄ : World =>
                returnsMoved world₄ 2
            else none) = some true := by
    decide +kernel
  obtain ⟨world₁, hready, hrest⟩ := Option.bind_eq_some_iff.1 hrun
  obtain ⟨w, hactive, hrest⟩ := Option.bind_eq_some_iff.1 hrest
  obtain ⟨world₂, hfirst, hrest⟩ := Option.bind_eq_some_iff.1 hrest
  obtain ⟨world₃, hmoved, hrest⟩ := Option.bind_eq_some_iff.1 hrest
  split at hrest
  next hknown =>
    obtain ⟨world₄, hsecond, hreturns⟩ := Option.map_eq_some_iff.1 hrest
    have hplace : movingRun.all (fun action => Interleaving.follow action 2 = some 2) = true := by
      decide
    have hothers : ∀ action ∈ movingRun, action ≠ .run 2 := by
      intro action haction
      rcases List.mem_cons.1 haction with rfl | haction
      · exact fun heq => nomatch heq
      · rw [List.eq_of_mem_replicate haction]
        exact fun heq => nomatch heq
    have hfollow : ∀ action ∈ movingRun, Interleaving.follow action 2 = some 2 := fun action h =>
      of_decide_eq_true (List.all_eq_true.1 hplace action h)
    obtain ⟨hlife₁, hthread₁⟩ := life_of_readyToRead hready
    have hlife₂ := hlife₁.step hfirst rfl fun _ =>
      Reading.fits hlife₁ (List.forall_mem_singleton.2 rfl)
    -- the patch leaves the session where it is, and the task in a state that it knows
    have hthread₃ := Interleaving.follow_others hmoved
      (fun action h => ⟨hfollow action h, hothers action h⟩) (reads_active hthread₁ hfirst hactive)
    obtain ⟨seen, hlife₃⟩ := hlife₂.continue hmoved fun action h =>
      ⟨hfollow action h, fun heq => absurd heq (hothers action h)⟩
    have hlife₄ := hlife₃.step hsecond rfl fun _ => fits_of_known hthread₃ fun t ht _ =>
      of_decide_eq_true (List.all_eq_true.1 hknown t ht)
    obtain ⟨p, tx, hdone, -, hmoves⟩ := legal_moves_of_life hlife₄
    exact ⟨_, world₄, p, tx, hlife₄, hreturns, hdone, hmoves⟩
  next => cases hrest

end Schedule

end TaskService.Concurrency
