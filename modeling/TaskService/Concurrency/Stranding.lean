import TaskService.Concurrency.UseCases

/-!
# No task is stranded

In every reachable world each task's status is a state of the active definition. A replacement would
break this when some task has a status its definition lacks; it is refused in exactly that case, and
the refusal is decided where it counts the statuses, under the exclusive guard.

* **`stage_of_reachable`**: where a replacement can stand.
* **`no_stranded_task`**: the invariant, and when a replacement is refused.
-/

namespace TaskService.Concurrency

open Store Tasks Workflows Prog

/-- The statuses in use that the definition does not have, with the number of tasks in each. -/
def stranded (w : Workflow) (counts : Dict PyStr Nat) : Dict PyStr Nat :=
  counts.filter fun kv => kv.1 ∉ w.stateNames

theorem mem_stranded {db : Db} {w : Workflow} {s : PyStr} {n : Nat} :
    (s, n) ∈ stranded w db.countByStatus ↔ s ∉ w.stateNames ∧ (∃ t ∈ db.tasks, t.status = s)
      ∧ n = (db.tasks.map Task.status).count s := by
  rw [stranded, List.mem_filter, Db.mem_countByStatus, decide_eq_true_eq]
  tauto

theorem stranded_ne_nil {db : Db} {w : Workflow} :
    stranded w db.countByStatus ≠ [] ↔ ∃ t ∈ db.tasks, t.status ∉ w.stateNames := by
  constructor
  · intro h
    obtain ⟨⟨s, n⟩, rest, hcons⟩ := List.exists_cons_of_ne_nil h
    have hmem : (s, n) ∈ stranded w db.countByStatus := by
      rw [hcons]
      exact List.mem_cons_self
    obtain ⟨hs, ⟨t, ht, rfl⟩, -⟩ := mem_stranded.1 hmem
    exact ⟨t, ht, hs⟩
  · rintro ⟨t, ht, hs⟩
    exact List.ne_nil_of_mem (mem_stranded.2 ⟨hs, ⟨t, ht, rfl⟩, rfl⟩)

/-! ## The course of a replacement -/

/-- The insert of the next version, and the reply. -/
def insertVersion (w : Workflow) : SessionProg Reply := do
  let stored ← Workflows.Repository.replaceActive w fun version => do
    let event ← newEvent (.workflowUpdated version w.stateNames)
    return [event]
  return .stored stored

/-- The count, and what is decided on it. -/
def countThenInsert (w : Workflow) : SessionProg Reply := do
  let counts ← perform .countByStatus
  if stranded w counts ≠ [] then .raise (.app (.workflowStatesInUse (stranded w counts)))
  else insertVersion w

theorem program_replaceActive [Unicode] {document : {d : Json // d.Wf}} {w : Workflow}
    (h : workflowFromDocument document = .ok w) :
    (Call.replaceActive document).program
      = perform (.acquireGuard .exclusive) >>= fun _ => countThenInsert w := by
  simp only [Call.program, Workflows.replaceActive, parseOrRaise, h]
  refine congrArg (Prog.op (Op.acquireGuard .exclusive)) (funext fun r => ?_)
  cases r with
  | error e => rfl
  | ok u =>
    refine congrArg (Prog.op Op.countByStatus) (funext fun r => ?_)
    cases r with
    | error e => rfl
    | ok counts =>
      show Prog.bind (ite (stranded w counts ≠ []) _ _) _ = ite (stranded w counts ≠ []) _ _
      split <;> rfl

/-- The operation does not count the statuses, and a definition it adds is this one. -/
def Inserts (w : Workflow) (o : Op) : Prop :=
  o ≠ .countByStatus ∧ ∀ r, o = .add (.workflow r) → r.document = workflowToDocument w

/-- Once the statuses are counted, nothing counts them again or refuses the replacement. -/
theorem insertVersion_straight (w : Workflow) :
    Straight (Inserts w) (Outcome (fun _ => True) fun _ => False) (insertVersion w) := by
  have hdraw : ∀ o : Op, o.Draw → Inserts w o := by
    refine fun o h => ⟨?_, ?_⟩
    · rintro rfl
      exact h
    · rintro r rfl
      exact h.elim
  have hstages : ∀ {events : List Event} (o : Op), Op.Stages events o → Inserts w o := by
    rintro events o (h | ⟨id, e, -, rfl⟩)
    · exact hdraw o h
    · exact ⟨by simp, by simp⟩
  refine Straight.bind (R := Outcome (fun _ => True) fun _ => False) ?_ (fun _ _ => trivial)
    fun _ h => h
  refine straight_call_bind ⟨by simp, by simp⟩ fun highest => ?_
  refine straight_call_bind ⟨by simp, by simp⟩ fun createdAt => ?_
  refine straight_call_bind ⟨by simp, ?_⟩ fun _ => ?_
  · rintro r heq
    obtain rfl := NewRow.workflow.inj (Op.add.inj heq)
    rfl
  refine Straight.bind (R := Outcome (fun _ => True) fun _ => False) ?_ (fun events _ => ?_)
    fun _ h => h
  · refine ((newEvent_straight _).mono hdraw fun _ h => h).bind (fun event _ => ?_) fun _ h => h
    exact straight_pure trivial
  · refine ((stageEvents_straight events).mono hstages fun _ h => h).bind (fun _ _ => ?_)
      fun _ h => h
    exact straight_call_bind ⟨by simp, by simp⟩ fun _ => straight_pure trivial

section Refusal

variable [Unicode]

/-- Where the replacement by a valid document can stand. -/
inductive Stage (document : {d : Json // d.Wf}) (w : Workflow) : SessionProg Reply → Prop where
  | started : Stage document w (Call.replaceActive document).program
  | guarded : Stage document w (countThenInsert w)
  | counted {p : SessionProg Reply}
      (h : Straight (· ≠ .countByStatus) (Outcome (fun _ => True) fun _ => False) p) :
      Stage document w p
  | failed (e : Exn) : Stage document w (.raise e)

variable [Jsonb] [Runtime]

/-- One operation takes a replacement from stage to stage. -/
theorem Stage.next {document : {d : Json // d.Wf}} {w : Workflow} {o : Op}
    {k : Except Exn (Res o) → SessionProg Reply} {tx : Tx} {st : Server}
    (hparse : workflowFromDocument document = .ok w) (h : Stage document w (.op o k)) :
    Stage document w (k (exec o tx st).1) := by
  generalize hp : (Prog.op o k : SessionProg Reply) = p at h
  cases h with
  | started =>
    rw [program_replaceActive hparse] at hp
    cases hp
    exact .guarded
  | guarded =>
    cases hp
    cases (exec .countByStatus tx st).1 with
    | error e => exact .failed e
    | ok counts =>
      show Stage document w (if stranded w counts ≠ [] then _ else _)
      split
      · exact .failed _
      · exact .counted ((insertVersion_straight w).mono (fun _ h => h.1) fun _ h => h)
  | counted h =>
    subst hp
    cases hr : (exec o tx st).1 with
    | ok a => exact .counted (h.2.1 a)
    | error e =>
      rw [h.2.2 e]
      exact .failed e
  | failed e => cases hp

theorem stage_of_reachable {world : World} (h : world.Reachable) {w : Workflow}
    {document : {d : Json // d.Wf}} (hparse : workflowFromDocument document = .ok w)
    {p : SessionProg Reply} {tx : Tx} (hmem : ⟨.replaceActive document, p, tx⟩ ∈ world.threads) :
    Stage document w p := by
  refine Interleaving.threads_of_reaches (P := fun call p _ => call = .replaceActive document →
    Stage document w p) ?_ ?_ h ⟨.replaceActive document, p, tx⟩ hmem rfl
  · rintro _ rfl
    exact .started
  · intro call o k tx st hstage hcall
    exact (hstage hcall).next hparse

/-- The next step of a replacement refuses it exactly when it is the count, and the count finds a
status the definition does not have. -/
theorem Stage.refused_iff {document : {d : Json // d.Wf}} {w : Workflow} {o : Op}
    {k : Except Exn (Res o) → SessionProg Reply} {tx : Tx} {st : Server}
    (hparse : workflowFromDocument document = .ok w) (h : Stage document w (.op o k))
    (hcount : o = .countByStatus → tx.lock = some .exclusive ∧ writes tx = [])
    {states : Dict PyStr Nat} :
    k (exec o tx st).1 = .raise (.app (.workflowStatesInUse states)) ↔
      o = .countByStatus ∧ tx.lock = some .exclusive ∧ stranded w st.db.countByStatus ≠ []
        ∧ states = stranded w st.db.countByStatus := by
  generalize hp : (Prog.op o k : SessionProg Reply) = p at h
  cases h with
  | started =>
    rw [program_replaceActive hparse] at hp
    cases hp
    exact ⟨fun heq => (nomatch heq), fun heq => (nomatch heq.1)⟩
  | guarded =>
    cases hp
    obtain ⟨hlock, hwrites⟩ := hcount rfl
    -- nothing is pending, so the count reads the committed tasks
    have hpending : pending tx = [] := (List.append_eq_nil_iff.1 hwrites).2
    have hread : exec .countByStatus tx st = (.ok st.db.countByStatus, flushed tx, st) := by
      have hflush : flush st.db tx = .ok (flushed tx) := flush_of_pending_nil hpending
      have hquery := query_of_flush hflush Db.countByStatus
      rw [hwrites] at hquery
      exact hquery
    rw [hread]
    show (if stranded w st.db.countByStatus ≠ [] then
      .raise (.app (.workflowStatesInUse (stranded w st.db.countByStatus))) else insertVersion w)
        = Prog.raise (.app (.workflowStatesInUse states)) ↔ _
    by_cases hnone : stranded w st.db.countByStatus = []
    · rw [if_neg (not_not.2 hnone)]
      exact ⟨fun heq => (nomatch heq), fun heq => absurd hnone heq.2.2.1⟩
    · rw [if_pos hnone]
      constructor
      · intro heq
        exact ⟨rfl, hlock, hnone,
          (AppError.workflowStatesInUse.inj (Exn.app.inj (Prog.raise.inj heq))).symm⟩
      · rintro ⟨-, -, -, rfl⟩
        rfl
  | counted h =>
    subst hp
    refine ⟨fun heq => ?_, fun heq => absurd heq.1 h.1⟩
    cases hr : (exec o tx st).1 with
    | ok a =>
      have hk := h.2.1 a
      rw [hr] at heq
      rw [heq] at hk
      exact hk.elim
    | error e =>
      rw [hr, h.2.2 e] at heq
      obtain ⟨d, rfl⟩ := exec_error hr
      cases Prog.raise.inj heq
  | failed e => cases hp

/-- **No task is stranded.** A replacement by a valid document takes the exclusive guard and counts
the statuses; it is refused by the step that counts them, exactly when some committed task then has
a status the document does not have, and the refusal lists these statuses with their task counts. -/
theorem no_stranded_task {world : World} (h : world.Reachable) :
    (∀ t ∈ world.shared.db.tasks, ∃ row w, world.shared.db.active = some row
      ∧ workflowFromDocument row.document = .ok w ∧ t.status ∈ w.stateNames)
    ∧ (∀ (document : {d : Json // d.Wf}) (w : Workflow), workflowFromDocument document = .ok w →
        ∃ k k', (Call.replaceActive document).program = .op (.acquireGuard .exclusive) k
          ∧ k (.ok ()) = .op .countByStatus k')
    ∧ (∀ (i : Nat) (world' : World) (document : {d : Json // d.Wf}) (w : Workflow) (o : Op)
        (k : Except Exn (Res o) → SessionProg Reply) (tx : Tx) (states : Dict PyStr Nat),
      workflowFromDocument document = .ok w →
      world.threads[i]? = some ⟨.replaceActive document, .op o k, tx⟩ →
      Interleaving.step rules world (.run i) = some world' →
      ((∃ tx', world'.threads[i]? = some ⟨.replaceActive document,
          .raise (.app (.workflowStatesInUse states)), tx'⟩) ↔
        o = .countByStatus ∧ tx.lock = some .exclusive
          ∧ (∃ t ∈ world.shared.db.tasks, t.status ∉ w.stateNames)
          ∧ states = stranded w world.shared.db.countByStatus))
    ∧ ∀ (w : Workflow) (s : PyStr) (n : Nat),
        (s, n) ∈ stranded w world.shared.db.countByStatus ↔ s ∉ w.stateNames
          ∧ (∃ t ∈ world.shared.db.tasks, t.status = s)
          ∧ n = (world.shared.db.tasks.map Task.status).count s := by
  have hsound := sound_of_reachable h
  refine ⟨fun t ht => ?_, fun document w hparse => ?_, ?_, fun w s n => mem_stranded⟩
  · obtain ⟨w, hw, hstatus⟩ := mem_knownStates_iff.1 (hsound.inv.known t ht)
    obtain ⟨row, hrow, hparse⟩ := activeWorkflow_eq_some.1 hw
    exact ⟨row, w, hrow, hparse, hstatus⟩
  · rw [program_replaceActive hparse]
    exact ⟨_, _, rfl, rfl⟩
  · intro i world' document w o k tx states hparse hthread hstep
    have hmem := List.mem_of_getElem? hthread
    have howes : Owes (.replaceActive document) o tx world.shared := hsound.duty hmem
    -- The exclusive guard is held since before the count, so the count is that of the committed
    -- tasks.
    have hrefused :
        k (exec o tx world.shared).1 = .raise (.app (.workflowStatesInUse states)) ↔ _ :=
      (stage_of_reachable h hparse hmem).refused_iff hparse (howes.count document rfl)
    rw [stranded_ne_nil] at hrefused
    rw [← hrefused, (Interleaving.run_thread hstep hthread).1]
    constructor
    · rintro ⟨tx', heq⟩
      exact (Interleaving.Thread.mk.inj (Option.some.inj heq)).2.1
    · intro hk
      refine ⟨(exec o tx world.shared).2.1, ?_⟩
      rw [show rules.exec o tx world.shared = exec o tx world.shared from rfl, hk]

end Refusal

/-! ## A refusal -/

section Run

open Plain

/-- Seed, create a task in `new`, and bring a replacement without that state to its count. -/
def refusalRun : List (Interleaving.Action Call) :=
  .start .seed :: steps 0 6 ++ .start (.create (py "A") none none 3 none) :: steps 1 10
    ++ .start (.replaceActive ⟨document [.str (py "open")] [], wf_openDocument⟩) :: steps 2 1

/-- The replacement is at its count, under the exclusive guard. -/
def AtCount (world : World) : Bool :=
  match (world.threads[2]? : Option (Interleaving.Thread Res Exn Reply Tx Call)) with
  | some ⟨.replaceActive d, .op .countByStatus _, tx⟩ =>
    (workflowFromDocument d).toOption.map Workflow.stateNames = some [py "open"]
      && tx.lock = some .exclusive
      && world.shared.db.countByStatus = [(py "new", 1)]
      && (Interleaving.step rules world (.run 2)).isSome
  | _ => false

theorem no_stranded_task_refusal : ∃ world world' : World, world.Reachable
    ∧ Interleaving.step rules world (.run 2) = some world'
    ∧ ∃ d tx, world'.threads[2]? = some ⟨.replaceActive d,
        .raise (.app (.workflowStatesInUse [(py "new", 1)])), tx⟩ := by
  have hrun : ((Machine.runActions (Interleaving.step rules) World.initial refusalRun).map AtCount)
      = some true := by
    decide +kernel
  obtain ⟨world, hworld, hcount⟩ := Option.map_eq_some_iff.1 hrun
  have hreach : world.Reachable := Machine.reaches_of_runActions hworld
  unfold AtCount at hcount
  split at hcount
  next d k tx hthread =>
    simp only [Bool.and_eq_true, decide_eq_true_eq] at hcount
    obtain ⟨⟨⟨hnames, hlock⟩, hcounts⟩, hstep⟩ := hcount
    obtain ⟨world', hstep⟩ := Option.isSome_iff_exists.1 hstep
    obtain ⟨w, hw, hstates⟩ := Option.map_eq_some_iff.1 hnames
    have hparse : workflowFromDocument d = .ok w := by
      cases hd : workflowFromDocument d with
      | error e => simp [hd, Except.toOption] at hw
      | ok w' => simpa [hd, Except.toOption] using hw
    have hstranded : stranded w world.shared.db.countByStatus = [(py "new", 1)] := by
      rw [hcounts, stranded, hstates]
      decide
    have hmissing : ∃ t ∈ world.shared.db.tasks, t.status ∉ w.stateNames :=
      stranded_ne_nil.1 (by rw [hstranded]; simp)
    have hrefused := (no_stranded_task hreach).2.2.1 2 world' d w _ k tx [(py "new", 1)]
      hparse hthread
      hstep
    obtain ⟨tx', hrefused⟩ := hrefused.2 ⟨rfl, hlock, hmissing, hstranded.symm⟩
    exact ⟨world, world', hreach, hstep, d, tx', hrefused⟩
  next => cases hcount

end Run

end TaskService.Concurrency
