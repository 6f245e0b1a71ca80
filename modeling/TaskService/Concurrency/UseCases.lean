import TaskService.Concurrency.Sessions
import TaskService.Workflows.Seed

/-!
# The use cases keep the rules

The verification condition of every call, assembled from the rules of `Sessions`: the guard is taken
first or not at all, the definition is read under it, a change of status passes the move check of
that definition, and a replacement has counted the statuses under the exclusive guard.

* **`call_safe`**: every call is safe from a fresh session.
* **`sound_of_reachable`**: in every reachable world the invariant holds and every session is
  lawful.
-/

namespace TaskService.Concurrency

open Store Tasks Tags Workflows Prog
open Interleaving (Safe)

variable [Unicode] [Jsonb] [Runtime]

section Reads

variable {call : Call} {tx : Tx} {st : Server} {held : Option LockMode} {pinned : Option Workflow}

/-- A session that has done nothing but take the guard. -/
def idle (held : Option LockMode) : Tx := ⟨held, [], none, [], []⟩

/-- The definition read is the active one, for as long as the session holds the guard. -/
theorem keeps_getActive (held : Option LockMode) (st : Server) :
    Keeps call (fun stored tx st => Session held (held.map fun _ => stored.workflow) false none
      tx st)
      Workflows.Repository.getActive (idle held) st := by
  have hlawful : ∀ db, Lawful db (idle held) := fun db => lawful_of_writes_nil rfl
  have hread : Keeps call (fun record tx st => tx = idle held
      ∧ (held ≠ none → record = st.db.active))
      (perform .selectActive) (idle held) st := by
    refine keeps_call ?_ fun st' a _ _ heq st'' _ hleaves => ⟨rfl, fun hheld => ?_⟩
    · exact fun _ _ _ => owes_of_lawful (hlawful _) (by simp) (.inr (by simp))
    · have hactive : a = st'.db.active := by
        have : exec .selectActive (idle held) st' = (.ok st'.db.active, idle held, st') := rfl
        rw [this] at heq
        exact (Except.ok.inj (Prod.mk.inj heq).1).symm
      -- under the lock nobody inserts a version
      have hworkflows := hleaves.workflows hheld
      rw [hactive, Db.active, Db.active, hworkflows]
      rfl
  refine hread.bind fun record tx st _ hrecord => ?_
  obtain ⟨rfl, hactive⟩ := hrecord
  cases record with
  -- an unseeded table: the read raises
  | none => exact keeps_raise
  | some record =>
    refine Keeps.bind (J := fun w tx st => tx = idle held
      ∧ (held ≠ none → activeWorkflow st.db = some w))
      (keeps_lift fun w hw st' _ hleaves => ⟨rfl, ?_⟩) ?_
    · intro hheld
      rw [activeWorkflow_congr (hleaves.workflows hheld)]
      exact activeWorkflow_eq_some.2 ⟨record, (hactive hheld).symm, Except.mapError_eq_ok.1 hw⟩
    · rintro w _ st _ ⟨rfl, hw⟩
      have hsession : Session held (held.map fun _ => w) false none (idle held) st := by
        refine ⟨rfl, rfl, fun _ => List.not_mem_nil, fun _ h => absurd h List.not_mem_nil,
          hlawful _, fun w' hw' => ?_⟩
        obtain ⟨mode, rfl, rfl⟩ := Option.map_eq_some_iff.1 hw'
        exact ⟨by simp, hw (by simp)⟩
      exact keeps_pure fun st' _ hleaves => hsession.stable hleaves

theorem keeps_activeEngine (held : Option LockMode) (st : Server) :
    Keeps call (fun engine tx st => Session held (held.map fun _ => engine.workflow) false none
      tx st)
      activeEngine (idle held) st :=
  (keeps_getActive held st).bind fun _ _ _ _ h => keeps_pure fun _ _ hleaves => h.stable hleaves

/-- Taking the guard, before anything else. -/
theorem keeps_acquireWorkflowGuard (shared : Bool) (st : Server) :
    Keeps call (fun _ tx _ => tx = idle (some (if shared then .shared else .exclusive)))
      (acquireWorkflowGuard shared) .fresh st :=
  keeps_call (fun _ _ _ => ⟨lawful_fresh _, fun _ _ => rfl, fun _ _ ho => (nomatch ho)⟩)
    fun _ _ _ _ _ _ _ _ => rfl

theorem keeps_guardedEngine (st : Server) :
    Keeps call (fun engine tx st => Session (some .shared) (some engine.workflow) false none tx st)
      guardedEngine .fresh st := by
  refine (keeps_acquireWorkflowGuard true st).bind ?_
  rintro _ _ st _ rfl
  exact keeps_activeEngine (some .shared) st

/-- The session holds the task it read. -/
theorem keeps_get (taskId : Uuid) (h : Session held pinned false none tx st) :
    Keeps call (fun task tx st => Session held pinned false (some (task, task)) tx st)
      (Repository.get taskId) tx st := by
  have hsettled : Settled none tx := ⟨h.tracked, h.noNew⟩
  have hread : Keeps call (fun task tx st =>
      ∀ t ∈ task, Session held pinned false (some (t, t)) tx st)
      (perform (.getTask taskId)) tx st := by
    refine keeps_call ?_ fun st' a _ hleaves heq st'' _ hleaves'' t ht => ?_
    · exact fun st' _ hleaves =>
        owes_of_lawful (h.lawful.stable hleaves) (by simp) (.inr (by simp))
    · obtain rfl := Option.mem_def.1 ht
      -- the operation returned the task, so it is the one the session now holds
      have hafter : after tx st' (.getTask taskId)
          = ({ flushed tx with tracked := some (t, t) }, st') := by
        rcases exec_cases (.getTask taskId) tx st' with ⟨e, -, -, herror⟩ | ⟨hflush, b, -⟩
        · rw [herror] at heq
          cases (Prod.mk.inj heq).1
        · have hquery := query_of_flush (hflush.resolve_left id)
            fun db => db.tasks.find? fun t => t.id = taskId
          simp only [exec, hquery] at heq
          simp only [after]
          cases hfind : (view st'.db (writes tx)).tasks.find? fun t => t.id = taskId with
          | none =>
            rw [hfind] at heq
            cases (Prod.mk.inj heq).1
          | some t' =>
            rw [hfind] at heq
            obtain rfl := Option.some.inj (Except.ok.inj (Prod.mk.inj heq).1)
            rfl
      rw [hafter] at hleaves'' ⊢
      have hwrites : writes { flushed tx with tracked := some (t, t) } = writes tx := by
        rw [writes, pending_eq_nil rfl rfl (by simp), List.append_nil]
        rfl
      have hlawful : Lawful st'.db { flushed tx with tracked := some (t, t) } :=
        (h.lawful.stable hleaves).grow rfl (.inr ⟨untouched_of_settled hsettled, .inl (by
          rintro _ _ ⟨⟩
          rfl)⟩) fun _ hw => .inl (hwrites ▸ hw)
      have hsession : Session held pinned false (some (t, t))
          { flushed tx with tracked := some (t, t) } st' :=
        ⟨h.lock, rfl, fun _ => List.not_mem_nil, fun t ht => h.inserted t (hwrites ▸ ht), hlawful,
          (h.stable hleaves).pinned⟩
      exact hsession.stable hleaves''
  refine hread.bind fun task tx st _ h => ?_
  cases task with
  | none => exact keeps_raise
  | some task => exact keeps_pure fun st' _ hleaves => (h task rfl).stable hleaves

end Reads

/-! ## Changing a task -/

section Writes

variable {call : Call} {tx : Tx} {st : Server} {held : Option LockMode} {pinned : Option Workflow}

/-- The status stays, or the definition the session has pinned down has the move. -/
def Allowed (held : Option LockMode) (pinned : Option Workflow) (a b : PyStr) : Prop :=
  b = a ∨ held = some .shared ∧ ∃ w, pinned = some w ∧ (a, b) ∈ Dict.keys w.transitions

theorem keeps_setTask {task updated : Task}
    (h : Session held pinned false (some (task, task)) tx st)
    (hallowed : Allowed held pinned task.status updated.status) :
    Keeps call (fun _ tx st => Session held pinned false (some (task, updated)) tx st)
      (perform (.setTask updated)) tx st := by
  refine keeps_call ?_ fun st' a _ hleaves _ st'' _ hleaves'' => ?_
  · exact fun st' _ hleaves =>
      owes_of_lawful (h.lawful.stable hleaves) (by simp) (.inr (by simp))
  · have h' := h.stable hleaves
    have hsettled : Settled (some task) tx := ⟨h.tracked, h.noNew⟩
    have htracked : (after tx st' (.setTask updated)).1.tracked = some (task, updated) := by
      show tx.tracked.map (fun loaded => (loaded.1, updated)) = _
      rw [h.tracked]
      rfl
    -- the update is the one write that is new
    have hwrites : ∀ w ∈ writes (after tx st' (.setTask updated)).1, w ∈ writes tx
        ∨ w = .updateTask task updated := by
      intro w hw
      rw [writes, List.mem_append, mem_pending_iff, mem_dirty_iff] at hw
      rcases hw with hw | hw | ⟨loaded, current, heq, -, rfl⟩ | hw
      · exact .inl (hsettled.mem_writes_iff.2 (.inl hw))
      · exact .inl (hsettled.mem_writes_iff.2 (.inr (.inl hw)))
      · rw [htracked] at heq
        obtain ⟨rfl, rfl⟩ := Prod.mk.inj (Option.some.inj heq)
        exact .inr rfl
      · exact .inl (hsettled.mem_writes_iff.2 (.inr (.inr hw)))
    have hnone : ∀ t, .insertTask t ∉ writes tx := fun t ht => by cases h.inserted t ht
    have hlawful : Lawful st'.db (after tx st' (.setTask updated)).1 := by
      refine h'.lawful.grow rfl (.inr ⟨untouched_of_settled hsettled, .inr hnone⟩) fun w hw => ?_
      rcases hwrites w hw with hw | rfl
      · exact .inl hw
      · refine .inr (hallowed.imp Eq.symm ?_)
        -- a move is allowed by the definition the session has pinned, which is still the active one
        rintro ⟨hheld, w, hw, hmove⟩
        exact ⟨h.lock.trans hheld, w, (h'.pinned w hw).2, hmove⟩
    have hinserted : ∀ t, .insertTask t ∈ writes (after tx st' (.setTask updated)).1 →
        false = true := fun t ht => by
      rcases hwrites _ ht with ht | ht
      · exact h.inserted t ht
      · cases ht
    have hsession : Session held pinned false (some (task, updated))
        (after tx st' (.setTask updated)).1 st' :=
      ⟨h.lock, htracked, h.noNew, hinserted, hlawful, h'.pinned⟩
    exact hsession.stable hleaves''

omit [Jsonb] [Runtime] in
/-- The events of an update report the change the session makes. -/
theorem reports_of_update {updated previous : Task} {engine : Option Engine} {events : List Event}
    (htracked : tx.tracked = some (previous, updated)) (hid : previous.id = updated.id)
    (hevents : UpdateEvents updated previous engine events) : ∀ e ∈ events, Reports tx e := by
  obtain ⟨completes, hbodies, -⟩ := hevents
  intro e he task a b hbody
  have hmem : EventBody.taskStatusChanged task a b ∈ updateBodies updated previous completes :=
    hbodies ▸ hbody ▸ List.mem_map_of_mem he
  unfold updateBodies at hmem
  split at hmem
  · cases hmem
  · rcases List.mem_cons.1 hmem with heq | hmem
    · cases heq
    · split at hmem
      · cases hmem
      next hstatus =>
        rcases List.mem_cons.1 hmem with heq | hmem
        · obtain ⟨rfl, rfl, rfl⟩ := EventBody.taskStatusChanged.inj heq
          exact ⟨fun heq => hstatus heq.symm, previous, task, htracked, hid, rfl, rfl⟩
        · split at hmem
          · cases List.mem_singleton.1 hmem
          · cases hmem

omit [Unicode] [Jsonb] [Runtime] in
theorem reports_of_body {e : Event} (h : ∀ task a b, e.body ≠ .taskStatusChanged task a b) :
    Reports tx e := fun task a b hbody => absurd hbody (h task a b)

theorem keeps_persistUpdate {updated previous : Task} {engine : Option Engine} {title : PyStr}
    {extra : Option Event} {taskId : Uuid}
    (h : Session held pinned false (some (previous, updated)) tx st)
    (hid : previous.id = updated.id) (hextra : TagEvent taskId extra) :
    Keeps call (fun _ _ _ => True) (persistUpdate updated previous engine title extra) tx st := by
  refine (keeps_draw (updateEvents_straight updated previous engine) h).bind ?_
  rintro events tx st - ⟨hevents, h⟩
  dsimp only
  split
  · refine keeps_persist h.lawful (.inl ⟨previous, updated, h.tracked, rfl⟩) fun e he => ?_
    rcases List.mem_append.1 he with he | he
    · exact reports_of_update h.tracked hid hevents e he
    · obtain ⟨tags, added, removed, hbody⟩ := hextra e (Option.mem_toList.1 he)
      exact reports_of_body (by simp [hbody])
  · exact keeps_pure fun _ _ _ => trivial

end Writes

/-! ## The task service -/

section TaskCalls

variable {call : Call}

/-- A check that passed, in a session it does not touch. -/
theorem keeps_check {held : Option LockMode} {pinned : Option Workflow}
    {task : Option (Task × Task)} {tx : Tx} {st : Server} {α : Type} {r : Except Exn α}
    (h : Session held pinned new task tx st) :
    Keeps call (fun a tx st => r = .ok a ∧ Session held pinned new task tx st) (lift r) tx st :=
  keeps_lift fun _ ha _ _ hleaves => ⟨ha, h.stable hleaves⟩

/-- Flushing the new row into the transaction makes it the task the session holds. -/
theorem keeps_stageNew {w : Workflow} {task : Task} {title : PyStr} {tx : Tx} {st : Server}
    (h : Session (some .shared) (some w) false none tx st) (hstatus : task.status ∈ w.stateNames) :
    Keeps call (fun _ tx st => Session (some .shared) (some w) true (some (task, task)) tx st)
      (stageNew task title) tx st := by
  refine keeps_echoTitle ?_
  have hadd : Keeps call (fun _ tx st => Lawful st.db tx ∧ tx.lock = some .shared
      ∧ tx.tracked = none ∧ settled tx = some (task, task) ∧ activeWorkflow st.db = some w)
      (perform (.add (.task task))) tx st := by
    refine keeps_call ?_ fun st' a _ hleaves _ st'' _ hleaves'' => ?_
    · exact fun st' _ hleaves =>
        owes_of_lawful (h.lawful.stable hleaves) (by simp) (.inr (by simp))
    · have h' := h.stable hleaves
      have hactive := (h'.pinned w rfl).2
      -- the session holds no row yet
      have hnew := (add_task_cases tx task).resolve_left fun ⟨_, _, htracked, _⟩ => by
        rw [h.tracked] at htracked
        cases htracked
      have hlawful : Lawful st'.db (tx.add (.task task)) := add_task_lawful h'.lawful
        (.inr ⟨h.lock, mem_knownStates_iff.2 ⟨w, hactive, hstatus⟩, by
          rw [Untouched, h.tracked]
          simp⟩)
      have hlock : (tx.add (.task task)).lock = some .shared := (add_lock tx _).trans h.lock
      refine ⟨hlawful.stable hleaves'', hlock, (add_tracked tx _).trans h.tracked,
        settled_add_task hnew h.noNew, ?_⟩
      rw [activeWorkflow_congr (hleaves''.workflows (by simp [after, h.lock]))]
      exact hactive
  refine hadd.bind ?_
  rintro _ tx st - ⟨hlawful, hlock, htracked, hsettled, hactive⟩
  -- the flush issues the insert and changes nothing else
  refine keeps_translate (safe_flush hlawful fun st' _ hleaves => ?_)
  refine ⟨hlock, hsettled, fun _ => List.not_mem_nil, fun _ _ => rfl, ?_, ?_⟩
  · refine (hlawful.stable hleaves).grow rfl (.inr ⟨?_, .inl ?_⟩)
      fun _ hw => .inl (writes_flushed tx ▸ hw)
    · rw [Untouched, htracked]
      simp
    · exact fun loaded current heq => settled_eq heq
  · rintro w' hw'
    obtain rfl := Option.some.inj hw'
    refine ⟨by simp, ?_⟩
    rw [activeWorkflow_congr (hleaves.workflows (by simp [hlock]))]
    exact hactive

theorem keeps_createTags {w : Workflow} {task : Task} {title : PyStr} {tx : Tx} {st : Server}
    (tags : Option (List PyStr)) (hcall : ∀ d, call ≠ .replaceActive d)
    (h : Session (some .shared) (some w) false none tx st) (hstatus : task.status ∈ w.stateNames) :
    Keeps call (fun events tx st => Lawful st.db tx ∧ Savable tx st.db task
        ∧ ∀ e ∈ events, ∃ tags added removed, e.body = .taskTagsChanged task.id tags added removed)
      (createTags task title tags) tx st := by
  have hnone : Keeps call (fun (events : List Event) tx st => Lawful st.db tx
      ∧ Savable tx st.db task
      ∧ ∀ e ∈ events, ∃ tags added removed, e.body = .taskTagsChanged task.id tags added removed)
      (.pure []) tx st := by
    refine keeps_pure fun st' _ hleaves => ?_
    have h' := h.stable hleaves
    have hsavable : Savable tx st'.db task :=
      .inr ⟨h.lock, mem_knownStates_iff.2 ⟨w, (h'.pinned w rfl).2, hstatus⟩, by
        rw [Untouched, h.tracked]
        simp⟩
    exact ⟨h'.lawful, hsavable, by simp⟩
  match tags with
  | none => exact hnone
  | some [] => exact hnone
  | some (name :: names) =>
    refine (keeps_stageNew h hstatus).bind fun _ tx st _ h => ?_
    refine (keeps_quiet (t := some task) (stageTags_straight task.id _) hcall h).bind ?_
    rintro event tx st - ⟨hevent, h⟩
    refine keeps_pure fun st' _ hleaves => ⟨(h.stable hleaves).lawful,
      .inl ⟨task, task, h.tracked, rfl⟩, fun e he => hevent e (Option.mem_toList.1 he)⟩

theorem keeps_create (title : PyStr) (description status : Option PyStr) (priority : Int)
    (tags : Option (List PyStr)) (hcall : ∀ d, call ≠ .replaceActive d) (st : Server) :
    Keeps call (fun _ _ _ => True) (create title description status priority tags) .fresh st := by
  refine (keeps_guardedEngine st).bind fun engine tx st _ h => ?_
  refine (keeps_quiet (t := none) (context_straight engine [] none status) hcall h).bind ?_
  rintro context tx st - ⟨-, h⟩
  refine (keeps_check h).bind ?_
  rintro resolved tx st - ⟨hresolved, h⟩
  refine (keeps_draw uuid7_straight h).bind ?_
  rintro id tx st - ⟨-, h⟩
  refine (keeps_draw now_straight h).bind ?_
  rintro createdAt tx st - ⟨-, h⟩
  refine (keeps_check h).bind ?_
  rintro task tx st - ⟨htask, h⟩
  refine (keeps_check h).bind ?_
  rintro snapshot tx st - ⟨-, h⟩
  refine (keeps_draw (newEvent_straight _) h).bind ?_
  rintro created tx st - ⟨hcreated, h⟩
  -- the row lands in a state of the definition the guard pins down
  have hstatus : task.status ∈ engine.workflow.stateNames := by
    obtain ⟨-, rfl⟩ := Task.fromInput_eq_ok.1 htask
    exact engine.resolveEntry_mem hresolved
  refine (keeps_createTags tags hcall h hstatus).bind ?_
  rintro tagEvents tx st - ⟨hlawful, hsavable, hevents⟩
  refine (keeps_persist hlawful hsavable fun e he => ?_).bind fun _ tx st _ _ =>
    keeps_pure fun _ _ _ => trivial
  rcases List.mem_cons.1 he with rfl | he
  · exact reports_of_body (by simp [hcreated])
  · obtain ⟨tags, added, removed, hbody⟩ := hevents e he
    exact reports_of_body (by simp [hbody])

/-- **How an update ends**, for a loaded task and a change that the guard allows: the tags, the row,
the events and the commit. -/
theorem keeps_saveUpdate {held : Option LockMode} {pinned : Option Workflow} {task : Task} {tx : Tx}
    {st : Server} (taskId : Uuid) (asked : Option (List PyStr)) (change : Task → Except Exn Task)
    (engine : Option Engine) (title : Task → PyStr) (hcall : ∀ d, call ≠ .replaceActive d)
    (h : Session held pinned false (some (task, task)) tx st)
    (hchange : ∀ updated, change task = .ok updated →
      task.id = updated.id ∧ Allowed held pinned task.status updated.status) :
    Keeps call (fun _ _ _ => True) (do
      let previous ← lift task.snapshot
      let tagEvent ← stageTags taskId asked
      let updated ← lift (change task)
      perform (.setTask updated)
      persistUpdate updated previous engine (title updated) tagEvent
      return updated) tx st := by
  refine (keeps_check h).bind ?_
  rintro previous tx st - ⟨hprevious, h⟩
  obtain ⟨-, rfl⟩ := Task.snapshot_eq_ok.1 hprevious
  refine (keeps_quiet (t := some previous) (stageTags_straight taskId _) hcall h).bind ?_
  rintro tagEvent tx st - ⟨htagEvent, h⟩
  refine (keeps_check h).bind ?_
  rintro updated tx st - ⟨hupdated, h⟩
  obtain ⟨hid, hallowed⟩ := hchange updated hupdated
  refine (keeps_setTask h hallowed).bind fun _ tx st _ h => ?_
  refine (keeps_persistUpdate h hid htagEvent).bind fun _ tx st _ _ => ?_
  exact keeps_pure fun _ _ _ => trivial

theorem keeps_replace (taskId : Uuid) (title : PyStr) (description status : Option PyStr)
    (priority : Int) (tags : Option (List PyStr)) (roles : List PyStr)
    (hcall : ∀ d, call ≠ .replaceActive d) (st : Server) :
    Keeps call (fun _ _ _ => True) (replace taskId title description status priority tags roles)
      .fresh st := by
  refine (keeps_guardedEngine st).bind fun engine tx st _ h => ?_
  refine (keeps_get taskId h).bind fun task tx st _ h => ?_
  refine (keeps_quiet (t := some task) (context_straight engine roles _ _) hcall h).bind ?_
  rintro context tx st - ⟨-, h⟩
  refine (keeps_check h).bind ?_
  rintro _ tx st - ⟨hmove, h⟩
  refine keeps_saveUpdate taskId _ (fun task => task.applyReplace title description _ priority) _ _
    hcall h fun updated hupdated => ?_
  obtain ⟨-, rfl⟩ := Task.applyReplace_eq_ok.1 hupdated
  refine ⟨rfl, ?_⟩
  obtain ⟨-, heq | hmem⟩ := engine.checkMove_legal hmove
  · exact .inl heq
  · exact .inr ⟨rfl, engine.workflow, rfl, hmem⟩

/-- A patch that names a status has the definition, read under the guard. -/
theorem keeps_patchEngine (fields : PatchFields) (st : Server) :
    Keeps call (fun engine tx st => ∃ held pinned, Session held pinned false none tx st
        ∧ ∀ target ∈ fields.status, ∃ e : Engine, engine = some e ∧ held = some .shared
          ∧ pinned = some e.workflow) (patchEngine fields) .fresh st := by
  unfold patchEngine
  split
  · refine (keeps_guardedEngine st).bind fun engine tx st _ h => keeps_pure fun st' _ hleaves => ?_
    exact ⟨_, _, h.stable hleaves, fun _ _ => ⟨engine, rfl, rfl, rfl⟩⟩
  next hnone =>
    refine keeps_pure fun st' _ _ => ⟨none, none, session_fresh st', fun target ht => ?_⟩
    rw [Option.mem_def.1 ht] at hnone
    exact absurd rfl hnone

/-- The move check of a patch; without a status there is nothing to check. -/
theorem keeps_checkPatch {held : Option LockMode} {pinned : Option Workflow} {task : Task} {tx : Tx}
    {st : Server} (fields : PatchFields) (engine : Option Engine) (roles : List PyStr)
    (hcall : ∀ d, call ≠ .replaceActive d) (h : Session held pinned false (some (task, task)) tx st)
    (hengine : ∀ target ∈ fields.status, ∃ e : Engine, engine = some e ∧ held = some .shared
      ∧ pinned = some e.workflow) :
    Keeps call (fun _ tx st => Session held pinned false (some (task, task)) tx st
        ∧ ∀ target ∈ fields.status, Allowed held pinned task.status target)
      (checkPatch engine task fields.status roles) tx st := by
  cases hstatus : fields.status with
  | none =>
    have hpure : checkPatch engine task none roles = .pure () := by cases engine <;> rfl
    rw [hpure]
    exact keeps_pure fun st' _ hleaves => ⟨h.stable hleaves, by simp⟩
  | some target =>
    obtain ⟨e, rfl, rfl, rfl⟩ := hengine target hstatus
    refine (keeps_quiet (t := some task) (context_straight e roles _ _) hcall h).bind ?_
    rintro context tx st - ⟨-, h⟩
    refine (keeps_check h).mono fun _ tx st ⟨hmove, h⟩ => ⟨h, fun s hs => ?_⟩
    obtain rfl := Option.some.inj hs
    obtain ⟨-, heq | hmem⟩ := e.checkMove_legal hmove
    · exact .inl heq
    · exact .inr ⟨rfl, e.workflow, rfl, hmem⟩

theorem keeps_patch (taskId : Uuid) (fields : PatchFields) (roles : List PyStr)
    (hcall : ∀ d, call ≠ .replaceActive d) (st : Server) :
    Keeps call (fun _ _ _ => True) (patch taskId fields roles) .fresh st := by
  unfold patch
  split
  · exact keeps_raise
  refine (keeps_patchEngine fields st).bind ?_
  rintro engine tx st - ⟨held, pinned, h, hengine⟩
  refine (keeps_get taskId h).bind fun task tx st _ h => ?_
  refine (keeps_checkPatch fields engine roles hcall h hengine).bind ?_
  rintro _ tx st - ⟨h, hallowed⟩
  refine keeps_saveUpdate taskId _ (fun task => task.applyPatch fields) engine
    (fun updated => fields.title.getD updated.title) hcall h fun updated hupdated => ?_
  obtain ⟨-, -, rfl⟩ := Task.applyPatch_eq_ok.1 hupdated
  refine ⟨rfl, ?_⟩
  cases hstatus : fields.status with
  | none => exact .inl rfl
  | some target => exact hallowed target hstatus

/-- Deleting a row is lawful without the guard. -/
theorem keeps_deletion {o : Op} {w : Write} {task : Option (Task × Task)} {tx : Tx} {st : Server}
    (h : Session none none false task tx st)
    (ho : ∀ tx st, after tx st o = ({ tx with deleted := tx.deleted ++ [w] }, st))
    (hguard : ∀ mode, o ≠ .acquireGuard mode) (hcount : o ≠ .countByStatus)
    (hw : ∀ db tx, tx.lock = none → Permitted db tx w) :
    Keeps call (fun _ tx st => Lawful st.db tx) (perform o) tx st := by
  refine keeps_call ?_ fun st' a _ hleaves _ st'' _ hleaves'' => ?_
  · exact fun st' _ hleaves => owes_of_lawful (h.lawful.stable hleaves) hguard (.inr hcount)
  · rw [ho] at hleaves'' ⊢
    have hmem : ∀ v ∈ writes { tx with deleted := tx.deleted ++ [w] }, v ∈ writes tx ∨ v = w := by
      intro v hv
      rw [writes, List.mem_append, mem_pending_iff] at hv
      rw [writes, List.mem_append, mem_pending_iff]
      rcases hv with hv | hv | hv | hv
      · exact .inl (.inl hv)
      · exact .inl (.inr (.inl hv))
      · exact .inl (.inr (.inr (.inl hv)))
      · rcases List.mem_append.1 hv with hv | hv
        · exact .inl (.inr (.inr (.inr hv)))
        · exact .inr (List.mem_singleton.1 hv)
    have hdeleted : Lawful st'.db { tx with deleted := tx.deleted ++ [w] } := by
      refine (h.lawful.stable hleaves).grow rfl (.inl rfl) fun v hv => ?_
      rcases hmem v hv with hv | rfl
      · exact .inl hv
      · exact .inr (hw _ _ h.lock)
    exact hdeleted.stable hleaves''

/-- A deletion, announced and committed. -/
theorem keeps_deletion_told {o : Op} {w : Write} {task : Option (Task × Task)} {tx : Tx}
    {st : Server} {event : Event} (h : Session none none false task tx st)
    (ho : ∀ tx st, after tx st o = ({ tx with deleted := tx.deleted ++ [w] }, st))
    (hguard : ∀ mode, o ≠ .acquireGuard mode) (hcount : o ≠ .countByStatus)
    (hw : ∀ db tx, tx.lock = none → Permitted db tx w)
    (hevent : ∀ task a b, event.body ≠ .taskStatusChanged task a b) :
    Keeps call (fun _ _ _ => True) (do
      let _ ← perform o
      stageEvents [event]
      perform .commit) tx st := by
  refine (keeps_deletion h ho hguard hcount hw).bind fun _ tx st _ hlawful => ?_
  refine (keeps_stageEvents hlawful fun e he => ?_).bind fun _ tx st _ hlawful => ?_
  · rw [List.mem_singleton.1 he]
    exact reports_of_body hevent
  · exact (safe_commit hlawful).mono fun _ _ _ _ _ _ => trivial

theorem keeps_delete (taskId : Uuid) (st : Server) :
    Keeps call (fun _ _ _ => True) (Tasks.delete taskId) .fresh st := by
  refine (keeps_get taskId (session_fresh st)).bind fun task tx st _ h => ?_
  refine (keeps_check h).bind ?_
  rintro snapshot tx st - ⟨-, h⟩
  refine (keeps_draw (newEvent_straight _) h).bind ?_
  rintro event tx st - ⟨hevent, h⟩
  exact keeps_deletion_told (w := .deleteTask task.id) h (fun _ _ => rfl) (by simp) (by simp)
    (fun _ _ hlock => hlock) (by simp [hevent])

theorem keeps_legalMoves (taskId : Uuid) (st : Server) :
    Keeps call (fun _ _ _ => True) (legalMoves taskId) .fresh st := by
  refine (keeps_activeEngine none st).bind fun engine tx st _ h => ?_
  refine (keeps_get taskId h).bind fun task tx st _ h => ?_
  refine (keeps_check h).bind fun moves tx st _ _ => ?_
  exact keeps_pure fun _ _ _ => trivial

theorem keeps_deleteTag (tagId : Uuid) (hcall : ∀ d, call ≠ .replaceActive d) (st : Server) :
    Keeps call (fun _ _ _ => True) (Tags.deleteTag tagId) .fresh st := by
  have hread : Straight Op.Quiet (Outcome (fun _ => True) fun _ => False)
      (perform (.getTag tagId)) :=
    straight_call trivial fun _ => trivial
  have hcount : Straight Op.Quiet (Outcome (fun _ => True) fun _ => False)
      (perform (.countTaskTags tagId)) := straight_call trivial fun _ => trivial
  refine (keeps_quiet (t := none) hread hcall (session_fresh st)).bind ?_
  rintro tag tx st - ⟨-, h⟩
  cases tag with
  | none => exact keeps_raise
  | some tag =>
    refine (keeps_quiet (t := none) hcount hcall h).bind ?_
    rintro inUse tx st - ⟨-, h⟩
    dsimp only
    split
    · exact keeps_raise
    refine (keeps_draw (newEvent_straight _) h).bind ?_
    rintro event tx st - ⟨hevent, h⟩
    exact keeps_deletion_told (w := .deleteTag tag.id) h (fun _ _ => rfl) (by simp) (by simp)
      (fun _ _ _ => trivial) (by simp [hevent])

end TaskCalls

/-! ## The workflow service -/

section WorkflowCalls

variable {call : Call} {st : Server}

/-- A session under the exclusive guard, and a definition with a state for every status. -/
structure Replacing (w : Workflow) (tx : Tx) (st : Server) : Prop where
  idle : tx = idle (some .exclusive)
  states : ∀ t ∈ st.db.tasks, t.status ∈ w.stateNames

omit [Unicode] [Jsonb] [Runtime] in
theorem Replacing.stable {w : Workflow} {tx : Tx} {st' : Server} (h : Replacing w tx st)
    (hleaves : Leaves tx st st') : Replacing w tx st' := by
  refine ⟨h.idle, fun t' ht' => ?_⟩
  obtain ⟨t, ht, heq⟩ := hleaves.statuses (by rw [h.idle]; rfl) t' ht'
  exact heq ▸ h.states t ht

/-- The insert of the next version, with the events made for it. -/
theorem keeps_insertVersion {w : Workflow} {makeEvents : Nat → SessionProg (List Event)} {tx : Tx}
    (hw : w.Documentable) (h : Replacing w tx st)
    (hevents : ∀ version, Straight Op.Draw (Outcome (fun events => ∀ e ∈ events, ∀ task a b,
      e.body ≠ .taskStatusChanged task a b) fun _ => False) (makeEvents version)) :
    Keeps call (fun _ _ _ => True) (Workflows.Repository.replaceActive w makeEvents) tx st := by
  have hidle : ∀ db, Lawful db (idle (some .exclusive)) := fun db => lawful_of_writes_nil rfl
  have hread : Keeps call (fun highest tx st => Replacing w tx st
      ∧ ∀ row ∈ st.db.workflows, row.version < highest.getD 0 + 1)
      (perform .selectMaxVersion) tx st := by
    obtain ⟨rfl, -⟩ := id h
    refine keeps_call ?_ fun st' a _ hleaves heq st'' _ hleaves'' => ?_
    · exact fun _ _ _ => owes_of_lawful (hidle _) (by simp) (.inr (by simp))
    · refine ⟨(h.stable hleaves).stable hleaves'', fun row hrow => ?_⟩
      have hexec : exec .selectMaxVersion (idle (some .exclusive)) st'
          = (.ok (st'.db.active.map WorkflowRecord.version), idle (some .exclusive), st') := rfl
      rw [hexec] at heq
      obtain rfl := Except.ok.inj (Prod.mk.inj heq).1
      have hworkflows : st''.db.workflows = st'.db.workflows :=
        hleaves''.workflows (by simp [after, idle, flushed])
      rw [hworkflows] at hrow
      -- the highest version is that of the active row
      cases hactive : st'.db.active with
      | none =>
        rw [List.argmax_eq_none.1 hactive] at hrow
        cases hrow
      | some best =>
        have hle : row.version ≤ best.version := List.le_of_mem_argmax hrow hactive
        show row.version < best.version + 1
        omega
  refine hread.bind fun highest tx st _ h => ?_
  -- the clock is read between the query and the insert: no version can come in under the lock
  refine (keeps_draws (J := fun tx st => Replacing w tx st
    ∧ ∀ row ∈ st.db.workflows, row.version < highest.getD 0 + 1) now_straight ?_ ?_ ?_ h).bind ?_
  · rintro tx st ⟨⟨rfl, -⟩, -⟩
    exact hidle _
  · rintro tx st st' ⟨h, hnewer⟩ hleaves
    refine ⟨h.stable hleaves, ?_⟩
    rw [hleaves.workflows (by rw [h.idle]; simp [idle])]
    exact hnewer
  · rintro tx st n ⟨h, hnewer⟩
    exact ⟨⟨h.idle, h.states⟩, hnewer⟩
  rintro createdAt tx st - ⟨-, h, hnewer⟩
  have hadd : Keeps call (fun _ tx st => Lawful st.db tx) (perform (.add (.workflow
      ⟨highest.getD 0 + 1, workflowToDocument w, createdAt⟩))) tx st := by
    obtain ⟨rfl, -⟩ := id h
    refine keeps_call ?_ fun st' a _ hleaves _ st'' _ hleaves'' => ?_
    · exact fun _ _ _ => owes_of_lawful (hidle _) (by simp) (.inr (by simp))
    · have hnew : Lawful st'.db ((idle (some .exclusive)).add (.workflow
          ⟨highest.getD 0 + 1, workflowToDocument w, createdAt⟩)) := by
        intro v hv
        rcases (mem_writes_add (add_of_ne_task (by simp) _)).1 hv with hv | rfl
        · cases hv
        · refine ⟨rfl, w, hw, rfl, ?_, (h.stable hleaves).states⟩
          rw [hleaves.workflows (by simp [idle])]
          exact hnewer
      exact hnew.stable hleaves''
  -- from here on the session only has to stay lawful
  refine hadd.bind fun _ tx st _ hlawful => ?_
  refine (keeps_draws (J := fun tx st => Lawful st.db tx) (hevents _) (fun _ _ h => h)
    (fun _ _ _ h hleaves => h.stable hleaves) (fun _ _ _ h => h) hlawful).bind ?_
  rintro events tx st - ⟨hbodies, hlawful⟩
  refine (keeps_stageEvents hlawful fun e he => reports_of_body (hbodies e he)).bind ?_
  intro _ tx st _ hlawful
  have hcommit : Keeps call (fun _ _ _ => True) (perform .commit) tx st :=
    (safe_commit hlawful).mono fun _ _ _ _ _ _ => trivial
  exact hcommit.bind fun _ _ _ _ _ => keeps_pure fun _ _ _ => trivial

theorem keeps_replaceActive (document : {d : Json // d.Wf}) (st : Server) :
    Keeps call (fun _ _ _ => True) (Workflows.replaceActive document) .fresh st := by
  refine Keeps.bind (J := fun w tx _ => workflowFromDocument document = .ok w ∧ tx = .fresh)
    (keeps_lift fun w hw _ _ _ => ⟨Except.mapError_eq_ok.1 hw, rfl⟩) ?_
  rintro w _ st - ⟨hparse, rfl⟩
  have hw : w.Documentable := documentable_of_eq_ok document.2 hparse
  refine (keeps_acquireWorkflowGuard false st).bind ?_
  rintro _ _ st - rfl
  -- the statuses counted under the exclusive lock cover those of the rows until the commit
  have hcount : Keeps call (fun counts tx st => tx = idle (some .exclusive)
      ∧ ∀ t ∈ st.db.tasks, t.status ∈ Dict.keys counts)
      (perform .countByStatus) (idle (some .exclusive)) st := by
    refine keeps_call ?_ fun st' a _ hleaves heq st'' _ hleaves'' => ⟨rfl, fun t'' ht'' => ?_⟩
    · exact fun st' _ _ => ⟨lawful_of_writes_nil rfl, fun _ ho => (nomatch ho),
        fun _ _ _ => ⟨rfl, rfl⟩⟩
    · have hexec : exec .countByStatus (idle (some .exclusive)) st'
          = (.ok st'.db.countByStatus, idle (some .exclusive), st') := rfl
      rw [hexec] at heq
      obtain rfl := Except.ok.inj (Prod.mk.inj heq).1
      obtain ⟨t, ht, hstatus⟩ := hleaves''.statuses rfl t'' ht''
      rw [← hstatus]
      exact Db.mem_keys_countByStatus.2 ⟨t, ht, rfl⟩
  refine hcount.bind ?_
  rintro counts _ st - ⟨rfl, hcounts⟩
  dsimp only
  split
  · exact keeps_raise
  next hstranded =>
    -- nothing is stranded, so every row is in a state of the new definition
    have hstates : ∀ t ∈ st.db.tasks, t.status ∈ w.stateNames := by
      intro t ht
      obtain ⟨n, hn⟩ := Dict.mem_keys_iff.1 (hcounts t ht)
      by_contra hnot
      refine hstranded fun hnil => ?_
      have : (t.status, n) ∈ counts.filter fun kv => kv.1 ∉ w.stateNames :=
        List.mem_filter.2 ⟨hn, by simpa using hnot⟩
      rw [hnil] at this
      cases this
    refine keeps_insertVersion hw ⟨rfl, hstates⟩ fun version => ?_
    refine (newEvent_straight _).bind (fun event hevent => ?_) fun _ h => h.elim
    refine straight_pure fun e he => ?_
    rw [List.mem_singleton.1 he]
    exact fun task a b hbody => by cases hevent.symm.trans hbody

theorem keeps_seed (st : Server) :
    Keeps call (fun _ _ _ => True) seedWorkflowIfMissing .fresh st := by
  refine (keeps_acquireWorkflowGuard false st).bind ?_
  rintro _ _ st - rfl
  have hread : Keeps call (fun stored tx st => tx = idle (some .exclusive)
      ∧ (stored = false → st.db.workflows = [] ∧ st.db.tasks = []))
      (perform .selectDefinitionId) (idle (some .exclusive)) st := by
    refine keeps_call ?_ fun st' a _ _ heq st'' hinv'' hleaves'' => ⟨rfl, fun hstored => ?_⟩
    · exact fun st' _ _ => owes_of_lawful (lawful_of_writes_nil rfl) (by simp) (.inr (by simp))
    · have hexec : exec .selectDefinitionId (idle (some .exclusive)) st'
          = (.ok !st'.db.workflows.isEmpty, idle (some .exclusive), st') := rfl
      rw [hexec] at heq
      obtain rfl := Except.ok.inj (Prod.mk.inj heq).1
      have hnone : st''.db.workflows = [] := by
        rw [hleaves''.workflows (by simp [after, idle, flushed])]
        simpa [after] using hstored
      refine ⟨hnone, List.eq_nil_iff_forall_not_mem.2 fun t ht => ?_⟩
      -- a task has a status of the active definition, and there is none
      obtain ⟨w, hw, -⟩ := mem_knownStates_iff.1 (hinv''.known t ht)
      obtain ⟨row, hrow, -⟩ := activeWorkflow_eq_some.1 hw
      rw [Db.active, hnone] at hrow
      cases hrow
  refine hread.bind ?_
  rintro stored _ st - ⟨rfl, hstored⟩
  cases stored with
  | true => exact keeps_pure fun _ _ _ => trivial
  | false =>
    have hreplacing : Replacing defaultDefinition (idle (some .exclusive)) st :=
      ⟨rfl, by rw [(hstored rfl).2]; simp⟩
    have hinsert : Keeps call (fun _ _ _ => True) (Workflows.Repository.replaceActive
        defaultDefinition fun _ => return []) (idle (some .exclusive)) st :=
      keeps_insertVersion documentable_defaultDefinition hreplacing fun _ =>
        straight_pure fun e he => absurd he List.not_mem_nil
    exact hinsert.bind fun _ _ _ _ _ => keeps_pure fun _ _ _ => trivial

end WorkflowCalls

/-! ## Every call -/

/-- **Every call is safe.** -/
theorem call_safe (call : Call) (st : Server) :
    Safe exec Inv (contract call) (fun _ _ _ => True) call.program .fresh st := by
  have hdone : ∀ {α : Type} {p : SessionProg α} {f : α → Reply},
      Keeps call (fun _ _ _ => True) p .fresh st →
      Safe exec Inv (contract call) (fun _ _ _ => True) (p >>= fun a => .pure (f a)) .fresh st :=
    fun h => Safe.mono (h.bind (K := fun _ _ _ => True) fun _ _ _ _ _ =>
      keeps_pure fun _ _ _ => trivial) fun _ _ _ _ => trivial
  cases call with
  | create title description status priority tags =>
    exact hdone (keeps_create title description status priority tags (by simp) st)
  | replace taskId title description status priority tags roles =>
    exact hdone (keeps_replace taskId title description status priority tags roles (by simp) st)
  | patch taskId fields roles => exact hdone (keeps_patch taskId fields roles (by simp) st)
  | delete taskId => exact hdone (keeps_delete taskId st)
  | legalMoves taskId => exact hdone (keeps_legalMoves taskId st)
  | deleteTag tagId => exact hdone (keeps_deleteTag tagId (by simp) st)
  | replaceActive document => exact hdone (keeps_replaceActive document st)
  | seed => exact hdone (keeps_seed st)

/-- **In every reachable world every status is known and every session is lawful.** -/
theorem sound_of_reachable {world : World} (h : world.Reachable) :
    Interleaving.Sound rules Inv contract (fun _ _ _ _ => True)
      (fun tx other => Compatible tx.lock other.lock) world :=
  (interference fun call st _ => call_safe call st).sound_of_reaches
    (Interleaving.sound_empty ⟨by simp [Sourced, Db.empty], by simp [Db.empty]⟩) h

end TaskService.Concurrency
