import TaskService.Concurrency.Stranding

/-!
# Stored definitions read back

A document that is accepted is written in a canonical form, which reads back as the same workflow;
so a definition that a replacement commits is the definition every session reads afterwards.

* **`definition_round_trip`**: the round trip, the canonical form, and the stored definition.
-/

namespace TaskService.Concurrency

open Store Tasks Workflows Prog

/-! ## What a replacement inserts -/

section Writes

theorem insertWorkflow_mem_writes {tx : Tx} {r : WorkflowRecord} :
    .insertWorkflow r ∈ writes tx ↔
      .insertWorkflow r ∈ tx.log ∨ .workflow r ∈ tx.added ∨ .insertWorkflow r ∈ tx.deleted := by
  have hadded : (∃ row ∈ tx.added, row.insert = .insertWorkflow r) ↔ .workflow r ∈ tx.added := by
    constructor
    · rintro ⟨row, hrow, heq⟩
      cases row with
      | workflow r' => exact Write.insertWorkflow.inj heq ▸ hrow
      | _ => cases heq
    · exact fun h => ⟨_, h, rfl⟩
  have hdirty : .insertWorkflow r ∉ dirty tx := fun h => by
    obtain ⟨loaded, current, -, -, heq⟩ := mem_dirty_iff.1 h
    cases heq
  rw [writes, List.mem_append, mem_pending_iff, hadded]
  simp [hdirty]

theorem insertWorkflow_mem_writes_add {tx : Tx} {row : NewRow} {r : WorkflowRecord}
    (h : .insertWorkflow r ∈ writes (tx.add row)) :
    .insertWorkflow r ∈ writes tx ∨ row = .workflow r := by
  cases row with
  | task t =>
    rcases add_task_cases tx t with ⟨loaded, current, -, -, heq⟩ | heq
    · exact .inl (heq ▸ h)
    · exact .inl (((mem_writes_add heq).1 h).resolve_right fun hinsert => nomatch hinsert)
  | workflow r' =>
    refine ((mem_writes_add (add_of_ne_task (by simp) tx)).1 h).imp_right fun hinsert => ?_
    exact congrArg _ (Write.insertWorkflow.inj hinsert)
  | _ =>
    exact .inl (((mem_writes_add (add_of_ne_task (by simp) tx)).1 h).resolve_right
      fun hinsert => nomatch hinsert)

variable [Jsonb] [Runtime]

/-- A definition comes into a transaction by being added. -/
theorem insertWorkflow_mem_writes_exec {o : Op} {tx : Tx} {st : Server} {r : WorkflowRecord}
    (h : .insertWorkflow r ∈ writes (exec o tx st).2.1) :
    .insertWorkflow r ∈ writes tx ∨ o = .add (.workflow r) := by
  rcases exec_cases o tx st with ⟨e, -, -, heq⟩ | ⟨-, a, heq⟩ <;> rw [heq] at h
  · cases h
  · cases o with
    | add row => exact (insertWorkflow_mem_writes_add h).imp_right (congrArg Op.add)
    | uuid7 | now | acquireGuard mode => exact .inl h
    | commit | rollback => cases h
    | getTask id =>
      rw [insertWorkflow_mem_writes] at h
      simp only [after] at h
      split at h <;> simpa using h
    | deleteTaskTags taskId =>
      rw [insertWorkflow_mem_writes] at h
      simpa [after] using h
    | setTask t =>
      rw [insertWorkflow_mem_writes] at h ⊢
      exact .inl h
    | deleteTask t | deleteTag t =>
      rw [insertWorkflow_mem_writes] at h ⊢
      simpa [after] using h
    | _ =>
      rw [insertWorkflow_mem_writes] at h
      simpa [after] using h

end Writes

section Reading

variable [Unicode] [Jsonb] [Runtime]

/-- A replacement by this definition, between two operations. -/
def Replaces (w : Workflow) (p : SessionProg Reply) (tx : Tx) : Prop :=
  Straight (fun o => ∀ r, o = .add (.workflow r) → r.document = workflowToDocument w)
      (fun _ => True) p
    ∧ ∀ r, .insertWorkflow r ∈ writes tx → r.document = workflowToDocument w

theorem replaces_of_reachable {world : World} (h : world.Reachable) {w : Workflow}
    {document : {d : Json // d.Wf}} (hparse : workflowFromDocument document = .ok w)
    {p : SessionProg Reply} {tx : Tx} (hmem : ⟨.replaceActive document, p, tx⟩ ∈ world.threads) :
    Replaces w p tx := by
  refine Interleaving.threads_of_reaches (P := fun call p tx => call = .replaceActive document →
    Replaces w p tx) ?_ ?_ h ⟨.replaceActive document, p, tx⟩ hmem rfl
  · rintro _ rfl
    refine ⟨?_, fun r hr => nomatch hr⟩
    show Straight _ _ (Call.replaceActive document).program
    rw [program_replaceActive hparse]
    refine straight_call_bind (by simp) fun _ => straight_call_bind (by simp) fun counts => ?_
    split
    · trivial
    · exact (insertVersion_straight w).mono (fun _ h => h.2) fun _ _ => trivial
  · rintro _ o k tx st hreplaces rfl
    obtain ⟨⟨hop, hk, he⟩, hdocument⟩ := hreplaces rfl
    refine ⟨?_, fun r hr => ?_⟩
    · show Straight _ _ (k (exec o tx st).1)
      cases (exec o tx st).1 with
      | ok a => exact hk a
      | error e =>
        rw [he e]
        trivial
    · rcases insertWorkflow_mem_writes_exec hr with hold | hadded
      · exact hdocument r hold
      · exact hop r hadded

/-! ## Reading the active definition -/

/-- `get_active` in a session without changes of its own. -/
theorem run_getActive {tx : Tx} {st : Server} {row : WorkflowRecord} {w : Workflow}
    (hwrites : writes tx = []) (hactive : st.db.active = some row)
    (hparse : workflowFromDocument row.document = .ok w) :
    (run exec Workflows.Repository.getActive tx st).1
      = .ok ⟨w, row.document, row.version, row.createdAt⟩ := by
  have hpending : pending tx = [] := (List.append_eq_nil_iff.1 hwrites).2
  have hread : exec .selectActive tx st = (.ok (some row), flushed tx, st) := by
    have hflush : flush st.db tx = .ok (flushed tx) := flush_of_pending_nil hpending
    have hquery := query_of_flush hflush Db.active
    rw [hwrites, view_nil, hactive] at hquery
    exact hquery
  simp only [Workflows.Repository.getActive, perform, call_bind, run_op, hread, lift_ok, pure_bind,
    parseOrRaise, hparse]
  rfl

/-- **Definitions survive storage.** Writing an accepted document gives a canonical form that reads
back as the same workflow; accepted documents that are variants of one another have the same form;
and what a replacement commits, every later session reads as the workflow of its document. -/
theorem definition_round_trip :
    (∀ (d : Json) (w : Workflow), d.Wf → workflowFromDocument d = .ok w →
      ∃ w', workflowFromDocument (workflowToDocument w) = .ok w' ∧ w.Eqv w'
        ∧ workflowToDocument w' = workflowToDocument w)
    ∧ (∀ (d d' : Json) (w w' : Workflow), d.Wf → Relation.EqvGen Variant d d' →
        workflowFromDocument d = .ok w → workflowFromDocument d' = .ok w' →
        (workflowToDocument w).Same (workflowToDocument w'))
    ∧ (∀ (world world' : World) (i : Nat) (document : {d : Json // d.Wf}) (w : Workflow)
        (k : Except Exn Unit → SessionProg Reply) (tx : Tx), world.Reachable →
        world.threads[i]? = some ⟨.replaceActive document, .op .commit k, tx⟩ →
        workflowFromDocument document = .ok w →
        Interleaving.step rules world (.run i) = some world' →
        ∃ new, world'.shared.db.workflows = world.shared.db.workflows ++ new ∧ ∀ row ∈ new,
          ∃ w', w.Eqv w' ∧ ∀ later : World, Machine.Reaches (Interleaving.step rules) world' later →
            later.shared.db.active = some row → ∀ tx, writes tx = [] →
            (run exec Workflows.Repository.getActive tx later.shared).1
              = .ok ⟨w', row.document, row.version, row.createdAt⟩)
    ∧ ∀ (world : World) (row : WorkflowRecord), world.Reachable →
        world.shared.db.active = some row → ∀ tx, writes tx = [] →
        ∃ stored, (run exec Workflows.Repository.getActive tx world.shared).1 = .ok stored := by
  refine ⟨fun d w hwf hparse => ?_, fun d d' w w' hwf hvariants hd hd' => ?_, ?_,
    fun world row hreach hactive tx hwrites => ?_⟩
  · have hdoc := documentable_of_eq_ok hwf hparse
    exact ⟨w.normalize, workflowFromDocument_workflowToDocument hdoc,
      Workflow.eqv_normalize hdoc.distinctMeta, workflowToDocument_normalize hdoc.distinctMeta⟩
  · obtain ⟨-, hsame⟩ := (sameEncoding_of_variants hvariants).1 hwf
    obtain ⟨w'', hw'', hsame⟩ := hsame w hd
    obtain rfl := Except.ok.inj (hw''.symm.trans hd')
    exact hsame
  · intro world world' i document w k tx hreach hthread hparse hstep
    obtain ⟨-, hshared⟩ := Interleaving.run_thread hstep hthread
    obtain ⟨-, hdocument⟩ := replaces_of_reachable hreach hparse (List.mem_of_getElem? hthread)
    rw [hshared]
    show ∃ new, (exec .commit tx world.shared).2.2.db.workflows = _ ++ new ∧ _
    -- a commit that fails inserts nothing
    rcases exec_db .commit tx world.shared with hdb | ⟨-, hdb⟩
    · exact ⟨[], by rw [hdb, List.append_nil], fun _ h => nomatch h⟩
    · refine ⟨_, by rw [hdb, workflows_view], fun row hrow => ?_⟩
      obtain ⟨wr, hwr, hsome⟩ := List.mem_filterMap.1 hrow
      cases wr with
      | insertWorkflow r =>
        obtain rfl := Option.some.inj hsome
        obtain ⟨w', hw', heqv⟩ := (documentable_of_eq_ok document.2 hparse).reload
        refine ⟨w', heqv, fun later _ hactive tx' hwrites => run_getActive hwrites hactive ?_⟩
        show workflowFromDocument (Jsonb.store r.document) = .ok w'
        -- what the session inserts is the document of its workflow
        rw [hdocument r hwr]
        exact hw'
      | _ => cases hsome
  · obtain ⟨w, hw⟩ := (sound_of_reachable hreach).inv.sourced.exists_activeWorkflow hactive
    obtain ⟨row', hrow', hparse⟩ := activeWorkflow_eq_some.1 hw
    exact ⟨_, run_getActive hwrites hrow' hparse⟩

end Reading

/-! ## A replacement, read back -/

section Run

open Plain

/-- A definition with one state, up to its commit. -/
def replacementRun : List (Interleaving.Action Call) :=
  .start (.replaceActive ⟨document [.str (py "open")] [], wf_openDocument⟩) :: steps 0 9

/-- The replacement is at its commit, of a valid document, and no definition is stored. -/
def AtCommit (world : World) : Bool :=
  match (world.threads[0]? : Option (Interleaving.Thread Res Exn Reply Tx Call)) with
  | some ⟨.replaceActive d, .op .commit _, _⟩ =>
    (workflowFromDocument d).toOption.isSome && world.shared.db.workflows.isEmpty
      && ((Interleaving.step rules world (.run 0)).map fun world' =>
        world'.shared.db.active.isSome) = some true
  | _ => false

theorem definition_round_trip_replacement :
    ∃ (world : World) (d : {d : Json // d.Wf}) (w w' : Workflow)
    (row : WorkflowRecord), world.Reachable ∧ world.shared.db.active = some row
    ∧ workflowFromDocument d = .ok w ∧ w.Eqv w'
    ∧ (run exec Workflows.Repository.getActive .fresh world.shared).1
      = .ok ⟨w', row.document, row.version, row.createdAt⟩ := by
  have hrun : ((Machine.runActions (Interleaving.step rules) World.initial replacementRun).map
      AtCommit)
      = some true := by
    decide +kernel
  obtain ⟨world, hworld, hcommit⟩ := Option.map_eq_some_iff.1 hrun
  have hreach : world.Reachable := Machine.reaches_of_runActions hworld
  unfold AtCommit at hcommit
  split at hcommit
  next d k tx hthread =>
    simp only [Bool.and_eq_true, decide_eq_true_eq] at hcommit
    obtain ⟨⟨hvalid, hempty⟩, hstep⟩ := hcommit
    obtain ⟨world', hstep, hactive⟩ := Option.map_eq_some_iff.1 hstep
    obtain ⟨row, hrow⟩ := Option.isSome_iff_exists.1 hactive
    obtain ⟨w, hparse⟩ : ∃ w, workflowFromDocument d = .ok w := by
      cases hd : workflowFromDocument d with
      | error e => simp [hd, Except.toOption] at hvalid
      | ok w => exact ⟨w, rfl⟩
    -- one step before its commit, a replacement on an empty table
    obtain ⟨new, hnew, hread⟩ :=
      definition_round_trip.2.2.1 world world' 0 d w k tx hreach hthread hparse hstep
    have hmem : row ∈ new := by
      rw [List.isEmpty_iff.1 hempty, List.nil_append] at hnew
      exact hnew ▸ List.argmax_mem hrow
    obtain ⟨w', heqv, hlater⟩ := hread row hmem
    exact ⟨world', d, w, w', row, hreach.tail (.run 0) hstep, hrow, hparse, heqv,
      hlater world' .refl hrow .fresh rfl⟩
  next => cases hcommit

end Run

end TaskService.Concurrency
