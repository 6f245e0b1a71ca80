import TaskService.Sessions.Worlds
import Mathlib.Data.List.Forall2

/-!
# The version log

The definitions are stored under the versions 1, 2, … in the order of their commits. The next
version is computed from a read; it is right at the commit because the read is made under the
exclusive guard, and the definitions stay as they are while a session holds the guard.

* **`definitions_told`**: what a session with the guard was told of the definitions is still so.
* **`version_log`**: the log in every reachable world, and what each step adds to it.
-/

namespace TaskService.Sessions

open Store Tasks Tags Workflows Concurrency

/-! ## What the tables say of the versions -/

/-- The stored versions, in the order of their commits. -/
def versions (db : Db) : List Nat := db.workflows.map WorkflowRecord.version

/-- The version and the states a `WorkflowUpdated` event tells of. -/
def update? : EventBody → Option (Nat × List PyStr)
  | .workflowUpdated version states => some (version, states)
  | _ => none

/-- The `WorkflowUpdated` events of the outbox, in order. -/
def updates (db : Db) : List (Nat × List PyStr) := db.outbox.filterMap fun r => update? r.event.body

/-- The event tells of the version and the states of the stored definition. -/
def Announces [Unicode] (row : WorkflowRecord) (update : Nat × List PyStr) : Prop :=
  ∃ w, workflowFromDocument row.document = .ok w ∧ update = (row.version, w.stateNames)

/-- The versions are 1, 2, …, and all but a seeded definition were announced. -/
structure VersionLog [Unicode] (db : Db) : Prop where
  versions : versions db = List.range' 1 db.workflows.length
  announced : ∃ seeded replaced, db.workflows = seeded ++ replaced ∧ seeded.length ≤ 1
    ∧ List.Forall₂ Announces replaced (updates db)

/-- The constraint on the versions. -/
def versionConstraint : PyStr := py "ix_workflow_definitions_version"

/-- One more version continues the log. -/
theorem versions_concat {db : Db} {rows : List WorkflowRecord} {last : WorkflowRecord}
    (h : db.workflows = rows ++ [last]) :
    versions db = List.range' 1 db.workflows.length ↔
      rows.map WorkflowRecord.version = List.range' 1 rows.length
      ∧ last.version = rows.length + 1 := by
  rw [versions, h, List.length_append, List.length_singleton, List.range'_concat, List.map_append]
  constructor
  · intro heq
    have hlast := List.append_inj_right' heq rfl
    refine ⟨List.append_inj_left' heq rfl, ?_⟩
    simp only [List.map_cons, List.map_nil, List.cons.injEq, and_true] at hlast
    omega
  · rintro ⟨hrows, hlast⟩
    rw [hrows, List.map_singleton, hlast, Nat.one_mul, Nat.add_comm]

theorem version_lt {rows : List WorkflowRecord}
    (h : rows.map WorkflowRecord.version = List.range' 1 rows.length) {row : WorkflowRecord}
    (hrow : row ∈ rows) : row.version < rows.length + 1 := by
  have hmem : row.version ∈ rows.map WorkflowRecord.version := List.mem_map_of_mem hrow
  rw [h, List.mem_range'_1] at hmem
  omega

/-- The active definition is the last one. -/
theorem active_eq_getLast? {db : Db} (h : versions db = List.range' 1 db.workflows.length) :
    db.active = db.workflows.getLast? := by
  rcases List.eq_nil_or_concat db.workflows with hnil | ⟨rows, last, hrows⟩
  · rw [Db.active, hnil]
    rfl
  · rw [List.concat_eq_append] at hrows
    obtain ⟨hbefore, hlast⟩ := (versions_concat hrows).1 h
    have hnewer : ∀ r ∈ [last], ∀ row ∈ ({ db with workflows := rows } : Db).workflows,
        row.version < r.version := by
      intro r hr row hrow
      rw [List.mem_singleton.1 hr, hlast]
      exact version_lt hbefore hrow
    obtain ⟨r, hr, hactive⟩ := active_append (List.cons_ne_nil last []) hnewer hrows
    rw [hactive, hrows, List.mem_singleton.1 hr, List.getLast?_append]
    rfl

/-- The version after the highest one. -/
theorem next_version {db : Db} (h : versions db = List.range' 1 db.workflows.length) :
    (db.active.map WorkflowRecord.version).getD 0 + 1 = db.workflows.length + 1 := by
  rw [active_eq_getLast? h]
  rcases List.eq_nil_or_concat db.workflows with hnil | ⟨rows, last, hrows⟩
  · rw [hnil]
    rfl
  · rw [List.concat_eq_append] at hrows
    rw [hrows, List.getLast?_append, List.length_append]
    show last.version + 1 = rows.length + 1 + 1
    rw [((versions_concat hrows).1 h).2]

/-! ## What a session knows of the definitions -/

/-- Answers on the stored definitions. -/
def Answer.OnDefinitions : Answer → Prop
  | .definition _ | .highest _ | .stored _ => True
  | _ => False

theorem Answer.OnDefinitions.holds_congr {answer : Answer} (h : answer.OnDefinitions) {db db' : Db}
    (hworkflows : db'.workflows = db.workflows) (hholds : answer.Holds db) : answer.Holds db' := by
  cases answer with
  | definition row =>
    show row = db'.workflows.argmax WorkflowRecord.version
    rw [hworkflows]
    exact hholds
  | highest version =>
    show version = (db'.workflows.argmax WorkflowRecord.version).map WorkflowRecord.version
    rw [hworkflows]
    exact hholds
  | stored any =>
    show any = !db'.workflows.isEmpty
    rw [hworkflows]
    exact hholds
  | _ => exact h.elim

section Log

variable [Unicode] [Jsonb] [Runtime]

/-- What a session with the guard was told of the definitions is so. -/
def KnowsDefinitions (here : Tx × Notes) (st : Server) : Prop :=
  here.1.lock ≠ none → ∀ answer ∈ here.2.told, answer.OnDefinitions → answer.Holds st.db

/-- Another session with a compatible guard leaves the definitions. -/
theorem Turn.workflows_eq {call : Call} {o : Op} {tx : Tx} {notes : Notes} {st : Server}
    {others : List NotedSession} (h : Turn call o tx notes st others) {other : NotedSession}
    (hother : other ∈ others) (hlock : other.here.1.lock ≠ none) :
    (exec o tx st).2.2.db.workflows = st.db.workflows :=
  (h.owes.lawful.leaves (h.compatible other hother)).workflows hlock

/-- **What a session with the guard was told of the definitions stays so.** -/
theorem definitions_told {world : NotedWorld} (h : world.Reachable) :
    ∀ th ∈ world.threads, KnowsDefinitions th.here world.shared := by
  refine facts_of_reachable (P := fun _ here st => KnowsDefinitions here st)
    (fun _ _ hlock => absurd rfl hlock) (fun _ hturn => ⟨fun hknows hlock answer hmem hon => ?_,
      fun other hother hknows hlock answer hmem hon => ?_⟩) h
  · rename_i call o k tx notes st _
    obtain ⟨new, htold, hnew⟩ := hturn.owed.told_cases
    rw [htold] at hmem
    -- a session that still holds its guard has not committed
    have hdb : (exec o tx st).2.2.db = st.db := by
      rcases hturn.owed.db_cases with ⟨hdb, -⟩ | ⟨rfl, heq, -, -⟩
      · exact hdb
      · change (exec .commit tx st).2.1.lock ≠ none at hlock
        rw [heq] at hlock
        exact absurd rfl hlock
    rw [hdb]
    rcases List.mem_append.1 hmem with hold | hmem
    · rcases exec_lock o tx st with hsame | hnone | ⟨mode, rfl, -⟩
      · exact hknows (hsame ▸ hlock) answer hold hon
      · exact absurd hnone hlock
      · -- before its guard the session was told nothing
        have hblank := hturn.owed.guard mode rfl
        rw [show notes = .blank from congrArg Prod.snd hblank] at hold
        cases hold
    · exact (hnew answer (Option.mem_toList.1 hmem)).1
  · exact hon.holds_congr (hturn.workflows_eq hother hlock) (hknows hlock answer hmem hon)

omit [Jsonb] [Runtime] in
/-- The definition a session with the guard has read is the active one. -/
theorem Consults.active {told : Told} {engine : Engine} (h : Consults told engine) {db : Db}
    (hknows : ∀ answer ∈ told, answer.OnDefinitions → answer.Holds db) :
    activeWorkflow db = some engine.workflow := by
  obtain ⟨row, hrow, hparse⟩ := h
  have hactive : some row = db.active := hknows _ hrow trivial
  exact activeWorkflow_eq_some.2 ⟨row, hactive.symm, hparse⟩

/-! ## The next version -/

omit [Unicode] [Jsonb] [Runtime] in
/-- The events of a commit join the outbox. -/
theorem updates_append {db db' : Db} {rows : List (OutboxRecord Event)}
    (h : db'.outbox = db.outbox ++ rows) :
    updates db' = updates db ++ rows.filterMap fun r => update? r.event.body := by
  rw [updates, h, List.filterMap_append]
  rfl

omit [Unicode] [Jsonb] [Runtime] in
theorem updates_of_subject {rows : List (OutboxRecord Event)}
    (h : ∀ r ∈ rows, subject? r.event.body ≠ none) :
    (rows.filterMap fun r => update? r.event.body) = [] := by
  refine List.filterMap_eq_nil_iff.2 fun r hr => ?_
  have hsubject := h r hr
  cases hbody : r.event.body with
  | workflowUpdated version states =>
    rw [hbody] at hsubject
    exact absurd rfl hsubject
  | _ => rfl

/-- A call adds the next version: a replacement with its event, the seed to an empty table. -/
inductive AddsVersion (db db' : Db) (row : WorkflowRecord) : Call → Prop where
  | replaceActive {document : {d : Json // d.Wf}} {w : Workflow}
      (hparse : workflowFromDocument document = .ok w)
      (hdocument : row.document = Jsonb.store (workflowToDocument w))
      (hupdates : updates db' = updates db ++ [(row.version, w.stateNames)]) :
      AddsVersion db db' row (.replaceActive document)
  | seed {w : Workflow} (hdefault : defaultWorkflow = .ok w)
      (hdocument : row.document = Jsonb.store (workflowToDocument w)) (hempty : db.workflows = [])
      (hupdates : updates db' = updates db) : AddsVersion db db' row .seed

omit [Runtime] in
/-- **A commit adds the next version, or leaves the log.** -/
theorem Effect.versions {told : Told} {tx : Tx} {db db' : Db} {call : Call}
    (h : Effect told tx db call db')
    (hknows : tx.lock ≠ none → ∀ answer ∈ told, answer.OnDefinitions → answer.Holds db)
    (hlog : versions db = List.range' 1 db.workflows.length) :
    db'.workflows = db.workflows ∧ updates db' = updates db
        ∧ (∀ document, call ≠ .replaceActive document)
      ∨ ∃ row, db'.workflows = db.workflows ++ [row] ∧ row.version = db.workflows.length + 1
          ∧ AddsVersion db db' row call := by
  cases h with
  | created htask hstage hrows =>
    refine .inl ⟨rfl, ?_, by simp⟩
    rw [updates_append (by rfl), updates_of_subject fun r hr => ?_, List.append_nil]
    rcases List.mem_cons.1 (hrows.mem_bodies hr) with hbody | hbody
    · rw [hbody]
      simp [subject?]
    · -- every event of a create is about its task
      rw [hstage.subject _ (Option.mem_toList.1 hbody)]
      simp
  | changed htask hstage hrows =>
    refine .inl ⟨rfl, ?_, by rintro d rfl; cases htask⟩
    rw [updates_append (by rfl), updates_of_subject fun r hr => ?_, List.append_nil]
    rw [hrows.subject (fun body hbody => ?_) r hr]
    · simp
    · rw [htask.ids.2]
      exact hstage.subject body hbody
  | deleted htask hrows =>
    refine .inl ⟨rfl, ?_, by simp⟩
    rw [updates_append (by rfl), updates_of_subject fun r hr => ?_, List.append_nil]
    rw [List.mem_singleton.1 (hrows.mem_bodies hr)]
    simp [subject?]
  | @tagDeleted tagId tag rows htag hid hcount hrows =>
    refine .inl ⟨rfl, ?_, by simp⟩
    rw [updates_append (by rfl)]
    have hnone : ∀ r ∈ rows, update? r.event.body = none := fun r hr => by
      rw [List.mem_singleton.1 (hrows.mem_bodies hr)]
      rfl
    rw [List.filterMap_eq_nil_iff.2 hnone, List.append_nil]
  | @defined document w counts highest createdAt rows hparse hcounts hfree hhighest hrows hlock =>
    -- the highest version was read under the lock, so it is still the highest
    have hhighest := hknows (by simp [hlock]) _ hhighest trivial
    obtain rfl : highest = db.active.map WorkflowRecord.version := hhighest
    refine .inr ⟨_, rfl, next_version hlog, .replaceActive hparse rfl ?_⟩
    rw [updates_append (by rfl)]
    have hmap : (rows.filterMap fun r => update? r.event.body)
        = (rows.map fun r => r.event.body).filterMap update? := by
      rw [List.filterMap_map]
      rfl
    rw [hmap, hrows.bodies]
    rfl
  | @seeded highest createdAt w hdefault hstored hhighest hlock =>
    have hhighest := hknows (by simp [hlock]) _ hhighest trivial
    obtain rfl : highest = db.active.map WorkflowRecord.version := hhighest
    have hempty : false = !db.workflows.isEmpty := hknows (by simp [hlock]) _ hstored trivial
    refine .inr ⟨_, rfl, next_version hlog, .seed hdefault rfl (by simpa using hempty) ?_⟩
    rfl

/-! ## The log in every reachable world -/

omit [Runtime] in
/-- One more version, announced or seeded, continues the log. -/
theorem VersionLog.add {db db' : Db} {row : WorkflowRecord} {call : Call} (h : VersionLog db)
    (hworkflows : db'.workflows = db.workflows ++ [row])
    (hversion : row.version = db.workflows.length + 1)
    (hadds : AddsVersion db db' row call) : VersionLog db' where
  versions := (versions_concat hworkflows).2 ⟨h.versions, hversion⟩
  announced := by
    obtain ⟨seeded, replaced, hsplit, hle, hannounced⟩ := h.announced
    cases hadds with
    | @replaceActive document w hparse hdocument hupdates =>
      refine ⟨seeded, replaced ++ [row], by rw [hworkflows, hsplit, List.append_assoc], hle, ?_⟩
      rw [hupdates]
      refine List.rel_append hannounced (.cons ?_ .nil)
      obtain ⟨w', hw', heqv⟩ := (documentable_of_eq_ok document.2 hparse).reload
      exact ⟨w', hdocument ▸ hw', by rw [heqv.stateNames_eq]⟩
    | seed hdefault hdocument hempty hupdates =>
      rw [hempty] at hsplit
      obtain ⟨rfl, rfl⟩ := List.append_eq_nil_iff.1 hsplit.symm
      refine ⟨[row], [], by rw [hworkflows, hempty, List.append_nil]; rfl, le_refl 1, ?_⟩
      rw [hupdates]
      exact hannounced

theorem versionLog_of_reachable {world : NotedWorld} (h : world.Reachable) :
    VersionLog world.shared.db := by
  refine tables_of_reachable ⟨rfl, [], [], rfl, Nat.zero_le 1, .nil⟩
    (fun {world before after call k tx notes} hreach hthreads hturn _ heffect hlog => ?_) h
  have hknows := definitions_told hreach ⟨call, .op .commit k, (tx, notes)⟩ (by rw [hthreads]; simp)
  rcases heffect.versions hknows hlog.versions with ⟨hworkflows, hupdates, -⟩
    | ⟨row, hrow, hversion, hadds⟩
  · exact ⟨by rw [versions, hworkflows]; exact hlog.versions,
      by rw [hworkflows, hupdates]; exact hlog.announced⟩
  · exact hlog.add hrow hversion hadds

/-! ## The constraint on the versions -/

omit [Unicode] [Jsonb] [Runtime] in
/-- Only the insert of a definition violates it, and only with a version that is there. -/
theorem check_eq_version {db : Db} {w : Write}
    (h : w.check db = some (.integrity versionConstraint)) :
    ∃ r, w = .insertWorkflow r ∧ ∃ row ∈ db.workflows, row.version = r.version := by
  have hmem := mem_constraints_of_check h
  cases w with
  | insertWorkflow r =>
    simp only [Write.check, ite_some_eq_some, reduceCtorEq, and_false, false_or, or_false] at h
    obtain ⟨-, hrow, -⟩ := h
    exact ⟨r, rfl, hrow⟩
  | _ =>
    -- the other statements violate other constraints
    simp only [Write.constraints] at hmem
    exact absurd hmem (by decide)

/-- **No insert fails on the versions**: whatever a session issues next. -/
theorem exec_ne_version {world : NotedWorld} (h : world.Reachable) {call : Call} {o : Op}
    {k : Except Exn (Res o) → SessionProg Reply} {tx : Tx} {notes : Notes}
    (hmem : (⟨call, .op o k, (tx, notes)⟩ : NotedSession) ∈ world.threads) :
    (exec o tx world.shared).1 ≠ .error (.db (.integrity versionConstraint)) := by
  intro hr
  have howed : Owed call o (tx, notes) := (h.orderly.conforms _ hmem).1
  have howes : Owes call o tx world.shared := by
    refine h.orderly.sound.duty (t := call) (k := k) ?_
    exact List.mem_map.2 ⟨_, hmem, rfl⟩
  -- only a refused statement raises, and only an insert of a definition names this constraint
  rcases exec_cases o tx world.shared with ⟨e, hsilent, hflush, heq⟩ | ⟨-, a, heq⟩
  · rw [heq] at hr
    obtain rfl := Exn.db.inj (Except.error.inj hr)
    obtain ⟨before, w, after, hpending, -, hcheck⟩ := issue_eq_error.1 (flush_eq_error.1 hflush)
    obtain ⟨r, rfl, row, hrow, hversion⟩ := check_eq_version hcheck
    have hwrites : writes tx = (tx.log ++ before) ++ .insertWorkflow r :: after := by
      rw [writes, hpending, List.append_assoc]
    have hmemw : .insertWorkflow r ∈ writes tx := by
      rw [hwrites]
      exact List.mem_append_right _ List.mem_cons_self
    by_cases hcommit : o = .commit
    · -- the commit inserts one definition at most, so those before it are the stored ones
      have heffect := (howed.commit hcommit).effect world.shared.db
      have hadded := workflows_view world.shared.db (writes tx)
      have hnone : (tx.log ++ before).filterMap Write.workflow? = [] := by
        rw [hwrites, List.filterMap_append, List.filterMap_cons] at hadded
        rcases heffect.versions (definitions_told h _ hmem)
          (versionLog_of_reachable h).versions with
          ⟨hsame, -⟩ | ⟨new, hnew, -⟩
        · rw [← hwrites, hsame] at hadded
          simp [Write.workflow?] at hadded
        · rw [← hwrites, hnew] at hadded
          have hone := List.append_cancel_left hadded
          cases hl : (tx.log ++ before).filterMap Write.workflow? with
          | nil => rfl
          | cons x xs =>
            rw [hl] at hone
            simp [Write.workflow?] at hone
      rw [← view_append, workflows_view, hnone, List.append_nil] at hrow
      obtain ⟨-, -, -, -, hnewer, -⟩ := howes.lawful _ hmemw
      have hlt := hnewer row hrow
      omega
    · -- no other operation is issued with an insert of a definition pending
      cases o with
      | commit => exact hcommit rfl
      | selectActive | selectMaxVersion | selectDefinitionId | countByStatus
      | getTask id | getTag id
      | countTaskTags tagId =>
        rw [howed.reads trivial] at hmemw
        cases hmemw
      | selectTagNames taskId | selectTags keys =>
        obtain ⟨t, ht⟩ := howed.readsTags (by simp) _ hmemw
        cases ht
      | flush | deleteTaskTags taskId =>
        rcases howed.flushes (by simp) _ hmemw with ⟨t, ht⟩ | ⟨t, ht⟩ <;> cases ht
      | _ => exact hsilent trivial
  · rw [heq] at hr
    cases hr

/-! ## The version log -/

/-- A step leaves the log, or it is a commit that adds the next version and ends its call. -/
inductive LogStep (world world' : World) : Prop where
  | unchanged (hworkflows : world'.shared.db.workflows = world.shared.db.workflows)
      (hupdates : updates world'.shared.db = updates world.shared.db)
  | added {i : Nat} {call : Call} {k : Except Exn Unit → SessionProg Reply} {tx : Tx}
      {reply : Reply} {row : WorkflowRecord}
      (hthread : world.threads[i]? = some ⟨call, .op .commit k, tx⟩)
      (hended : world'.threads[i]? = some ⟨call, .pure reply, .fresh⟩)
      (hworkflows : world'.shared.db.workflows = world.shared.db.workflows ++ [row])
      (hversion : row.version = world.shared.db.workflows.length + 1)
      (hadds : AddsVersion world.shared.db world'.shared.db row call)

/-- **One step of the log.** -/
theorem logStep {world world' : World} (h : world.Reachable) {action : Interleaving.Action Call}
    (hstep : Interleaving.step rules world action = some world') : LogStep world world' := by
  cases action with
  | start t =>
    obtain rfl := Option.some.inj hstep
    exact .unchanged rfl rfl
  | stop i =>
    obtain rfl := Option.some.inj hstep
    exact .unchanged rfl rfl
  | run i =>
    obtain ⟨noted, noted', call, o, k, tx, notes, rfl, rfl, hrun⟩ := exists_noted_run h hstep
    have hshared : noted'.forget.shared = _ := hrun.shared
    rcases hrun.turn.owed.db_cases with ⟨hdb, -⟩ | ⟨rfl, heq, hcommits, -⟩
    · exact .unchanged (by rw [hshared, hdb]; rfl) (by rw [hshared, hdb]; rfl)
    · have hknows := definitions_told hrun.reachable _ (List.mem_of_getElem? hrun.here)
      have hlog := (versionLog_of_reachable hrun.reachable).versions
      rw [heq] at hshared
      rcases (hcommits.effect noted.shared.db).versions hknows hlog with
        ⟨hworkflows, hupdates, -⟩ | ⟨row, hrow, hversion, hadds⟩
      · exact .unchanged (by rw [hshared]; exact hworkflows) (by rw [hshared]; exact hupdates)
      · -- the session has saved, so it has returned
        have hthere := hrun.there
        rw [heq] at hthere
        obtain ⟨reply, hreply⟩ := hrun.reachable'.orderly.returned (List.mem_of_getElem? hthere)
          (by simp [note])
        rw [hreply] at hthere
        exact .added (getElem?_forget hrun.here) (getElem?_forget hthere)
          (by rw [hshared]; exact hrow)
          hversion (by rw [hshared]; exact hadds)

/-- **A replacement returns by adding its version**: the step on which it returns is its commit. -/
theorem returned_replacement {world world' : World} (h : world.Reachable) {i : Nat}
    (hstep : Interleaving.step rules world (.run i) = some world') {document : {d : Json // d.Wf}}
    {reply : Reply} {tx' : Tx}
    (hreturned : world'.threads[i]? = some ⟨.replaceActive document, .pure reply, tx'⟩) :
    ∃ row, world'.shared.db.workflows = world.shared.db.workflows ++ [row]
      ∧ row.version = world.shared.db.workflows.length + 1
      ∧ AddsVersion world.shared.db world'.shared.db row (.replaceActive document) := by
  obtain ⟨noted, noted', call, o, k, tx, notes, rfl, rfl, hrun⟩ := exists_noted_run h hstep
  obtain ⟨notes', hthread'⟩ := exists_noted_thread hreturned
  have hthere := hrun.there
  rw [hthread'] at hthere
  obtain ⟨rfl, -, hhere⟩ := Interleaving.Thread.mk.inj (Option.some.inj hthere)
  have hended : Ended (.replaceActive document) (.ok reply) (tx', notes') :=
    hrun.reachable'.orderly.conforms _ (List.mem_of_getElem? hthread')
  have hsaved : notes'.saved ≠ none := by
    rcases hended with ⟨tx'', hsaved, -⟩ | ⟨-, hrests⟩
    · rw [hsaved]
      simp
    · cases hrests
  rw [(Prod.mk.inj hhere).2] at hsaved
  rcases hrun.turn.owed.db_cases with ⟨-, hunsaved⟩ | ⟨rfl, heq, hcommits, -⟩
  · exact absurd hunsaved hsaved
  · have hshared : noted'.forget.shared = _ := hrun.shared
    rw [hshared, heq]
    rcases (hcommits.effect noted.shared.db).versions
      (definitions_told hrun.reachable _ (List.mem_of_getElem? hrun.here))
      (versionLog_of_reachable hrun.reachable).versions with ⟨-, -, hnot⟩ | hadded
    · exact absurd rfl (hnot document)
    · exact hadded

/-- **The version log.** In every reachable world the stored versions are 1, 2, …, the active
definition is the one committed last, and all but a seeded one have their `WorkflowUpdated` event,
in order. A step leaves the log or adds the next version and ends its call; a replacement returns by
adding its version, so one that raises has changed nothing; and no insert is refused for its
version. -/
theorem version_log {world : World} (h : world.Reachable) :
    VersionLog world.shared.db
    ∧ world.shared.db.active = world.shared.db.workflows.getLast?
    ∧ (∀ (action : Interleaving.Action Call) (world' : World),
        Interleaving.step rules world action = some world' → LogStep world world')
    ∧ (∀ (i : Nat) (world' : World) (document : {d : Json // d.Wf}) (reply : Reply) (tx : Tx),
        Interleaving.step rules world (.run i) = some world' →
        world'.threads[i]? = some ⟨.replaceActive document, .pure reply, tx⟩ →
        ∃ row, world'.shared.db.workflows = world.shared.db.workflows ++ [row]
          ∧ row.version = world.shared.db.workflows.length + 1
          ∧ AddsVersion world.shared.db world'.shared.db row (.replaceActive document))
    ∧ (∀ (i : Nat) (world' : World) (call : Call) (e : Exn) (tx : Tx),
        Interleaving.step rules world (.run i) = some world' →
        world'.threads[i]? = some ⟨call, .raise e, tx⟩ →
        world'.shared.db = world.shared.db)
    ∧ ∀ (i : Nat) (call : Call) (o : Op) (k : Except Exn (Res o) → SessionProg Reply) (tx : Tx),
        world.threads[i]? = some ⟨call, .op o k, tx⟩ →
        (exec o tx world.shared).1 ≠ .error (.db (.integrity versionConstraint)) := by
  obtain ⟨noted, hreach, rfl⟩ := exists_noted h
  have hlog := versionLog_of_reachable hreach
  refine ⟨hlog, active_eq_getLast? hlog.versions, fun action world' hstep => logStep h hstep,
    fun i world' document reply tx hstep hreturned =>
    returned_replacement h hstep hreturned, ?_, ?_⟩
  · intro i world' call e tx hstep hraised
    obtain ⟨noted, noted', call', o, k, tx', notes, hnoted, rfl, hrun⟩ := exists_noted_run h hstep
    obtain ⟨notes', hthread'⟩ := exists_noted_thread hraised
    have hshared : noted'.forget.shared = _ := hrun.shared
    -- the tables change at a commit only
    rcases hrun.turn.owed.db_cases with ⟨hdb, -⟩ | ⟨rfl, heq, hcommits, -⟩
    · rw [hshared, hdb, ← hnoted]
      rfl
    · -- a session that has committed does not raise
      have hthere := hrun.there
      obtain ⟨reply, hreply⟩ := hrun.reachable'.orderly.returned (List.mem_of_getElem? hthere)
        (by rw [heq]; simp [note])
      rw [hthread', hreply] at hthere
      cases hthere
  · intro i call o k tx hthread
    obtain ⟨notes, hnoted⟩ := exists_noted_thread hthread
    exact exec_ne_version hreach (List.mem_of_getElem? hnoted)

end Log

section Run

open Plain

/-- The seed, then a replacement, each to its end. -/
def twoVersions : List (Interleaving.Action Call) :=
  .start .seed :: steps 0 6
    ++ .start (.replaceActive ⟨document [.str (py "open")] [], wf_openDocument⟩) :: steps 1 10

theorem version_log_two : ∃ world : World, world.Reachable ∧ versions world.shared.db = [1, 2] := by
  have hrun : ((Machine.runActions (Interleaving.step rules) World.initial twoVersions).map
      fun world : World => world.shared.db.workflows.length) = some 2 := by
    decide +kernel
  obtain ⟨world, hworld, hlength⟩ := Option.map_eq_some_iff.1 hrun
  have hreach : world.Reachable := Machine.reaches_of_runActions hworld
  refine ⟨world, hreach, ?_⟩
  rw [(version_log hreach).1.versions, hlength]
  rfl

end Run

end TaskService.Sessions
