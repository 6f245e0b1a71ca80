import TaskService.Concurrency.World
import TaskService.Workflows.Reload

/-!
# What the guard protects

A session's transaction is lawful when each of its statements is one the guard it holds allows: a
status is inserted or changed under the shared guard only, to a state of the active definition and
along its transitions; a definition is inserted under the exclusive guard only, and has a state for
every status in the tables. What a session may assume of the others is what these rules leave them:
under either form of the guard the definition stays, under the exclusive form no new status appears.

* **`Lawful.commit_inv`**: a lawful commit keeps every status a state of the active definition.
* **`interference`**: lawful sessions stay within what the others assume.
-/

namespace TaskService.Concurrency

open Store Tasks Tags Workflows

/-! ## The guard -/

/-- Two sessions can hold these guards at once. -/
def Compatible : Option LockMode → Option LockMode → Prop
  | none, _ => True
  | _, none => True
  | some .shared, some .shared => True
  | _, _ => False

theorem Compatible.symm {a b : Option LockMode} (h : Compatible a b) : Compatible b a := by
  cases a with
  | none => cases b <;> trivial
  | some a => cases a <;> cases b with
    | none => trivial
    | some b => cases b <;> exact h

theorem compatible_of_guard {mode : LockMode} {held : Option LockMode}
    (h : guardBlocks mode held = false) : Compatible (some mode) held := by
  cases held with
  | none => cases mode <;> trivial
  | some held => cases mode <;> cases held <;> trivial

/-- What the others leave to a session. -/
structure Leaves (tx : Tx) (st st' : Server) : Prop where
  workflows : tx.lock ≠ none → st'.db.workflows = st.db.workflows
  statuses : tx.lock = some .exclusive → ∀ t' ∈ st'.db.tasks, ∃ t ∈ st.db.tasks,
    t.status = t'.status

/-- The session is about to change the status of the task from the one to the other. -/
def Moves (tx : Tx) (taskId : Uuid) (a b : PyStr) : Prop :=
  ∃ loaded current, tx.tracked = some (loaded, current) ∧ loaded.id = taskId
    ∧ loaded.status = a ∧ current.status = b

/-- The session has not changed the task it holds. -/
def Untouched (tx : Tx) : Prop :=
  ∀ loaded current, tx.tracked = some (loaded, current) → loaded = current

/-! ## Lawful transactions -/

variable [Unicode]

/-- A definition the tables can take: newer than the others, with a state for every status. -/
def Installable (db : Db) (r : WorkflowRecord) : Prop :=
  ∃ w : Workflow, w.Documentable ∧ r.document = workflowToDocument w
    ∧ (∀ row ∈ db.workflows, row.version < r.version) ∧ ∀ t ∈ db.tasks, t.status ∈ w.stateNames

/-- What a transaction may write, given the guard it holds. -/
def Permitted (db : Db) (tx : Tx) : Write → Prop
  | .insertTask t => tx.lock = some .shared ∧ t.status ∈ knownStates db ∧ Untouched tx
  | .deleteTask _ => tx.lock = none
  | .updateTask loaded current => loaded.status = current.status
      ∨ tx.lock = some .shared ∧ LegalMove db loaded.status current.status
  | .insertWorkflow r => tx.lock = some .exclusive ∧ Installable db r
  | .insertOutbox r => ∀ task a b, r.event.body = .taskStatusChanged task a b →
      a ≠ b ∧ Moves tx task.id a b
  | _ => True

def Lawful (db : Db) (tx : Tx) : Prop := ∀ w ∈ writes tx, Permitted db tx w

@[simp] theorem lawful_fresh (db : Db) : Lawful db .fresh := by simp [Lawful]

theorem lawful_of_writes_nil {db : Db} {tx : Tx} (h : writes tx = []) : Lawful db tx := by
  simp [Lawful, h]

/-- A status a transaction brings in is a state of the active definition, and needs the shared
guard. -/
theorem Lawful.new_status {db : Db} {tx : Tx} (h : Lawful db tx) {w : Write} (hw : w ∈ writes tx)
    {s : PyStr} (hs : w.status? = some s) : tx.lock = some .shared ∧ s ∈ knownStates db := by
  have hperm := h w hw
  cases w with
  | insertTask t =>
    obtain rfl := Option.some.inj hs
    exact ⟨hperm.1, hperm.2.1⟩
  | updateTask loaded current =>
    by_cases heq : loaded.status = current.status
    · simp [Write.status?, heq] at hs
    · obtain rfl : current.status = s := by simpa [Write.status?, heq] using hs
      obtain ⟨hlock, hmove⟩ := hperm.resolve_left heq
      exact ⟨hlock, hmove.mem_knownStates⟩
  | _ => cases hs

/-- Lawfulness survives what the others do. -/
theorem Lawful.stable {tx : Tx} {st st' : Server} (h : Lawful st.db tx)
    (hleaves : Leaves tx st st') : Lawful st'.db tx := by
  intro w hw
  have hperm := h w hw
  cases w with
  | insertTask t =>
    obtain ⟨hlock, hknown, huntouched⟩ := hperm
    refine ⟨hlock, ?_, huntouched⟩
    rw [knownStates, activeWorkflow_congr (hleaves.workflows (by simp [hlock]))]
    exact hknown
  | updateTask loaded current =>
    refine hperm.imp_right ?_
    rintro ⟨hlock, w', hw', hmove⟩
    refine ⟨hlock, w', ?_, hmove⟩
    rw [activeWorkflow_congr (hleaves.workflows (by simp [hlock]))]
    exact hw'
  | insertWorkflow r =>
    obtain ⟨hlock, w', hw', hdoc, hnewer, hstates⟩ := hperm
    refine ⟨hlock, w', hw', hdoc, ?_, fun t' ht' => ?_⟩
    · rw [hleaves.workflows (by simp [hlock])]
      exact hnewer
    · obtain ⟨t, ht, heq⟩ := hleaves.statuses hlock t' ht'
      exact heq ▸ hstates t ht
  | _ => exact hperm

/-! ## Lawful commits -/

variable [Jsonb]

/-- Between transactions: the stored definitions parse, and every status is a state of the active
one. -/
structure Inv (st : Server) : Prop where
  sourced : Sourced st.db
  known : ∀ t ∈ st.db.tasks, t.status ∈ knownStates st.db

/-- Without a new definition in it, a transaction leaves the definitions. -/
theorem Lawful.commit_workflows {db : Db} {tx : Tx} (h : Lawful db tx)
    (hlock : tx.lock ≠ some .exclusive) : (view db (writes tx)).workflows = db.workflows := by
  rw [workflows_view]
  have hnone : (writes tx).filterMap Write.workflow? = [] := by
    rw [List.filterMap_eq_nil_iff]
    intro w hw
    cases w with
    | insertWorkflow r => exact absurd (h _ hw).1 hlock
    | _ => rfl
  rw [hnone, List.append_nil]

/-- Without the shared guard a transaction brings in no status. -/
theorem Lawful.commit_statuses {db : Db} {tx : Tx} (h : Lawful db tx)
    (hlock : tx.lock ≠ some .shared) {t : Task} (ht : t ∈ (view db (writes tx)).tasks) :
    ∃ t' ∈ db.tasks, t'.status = t.status := by
  rcases status_of_mem_view ht with hold | ⟨w, hw, hs⟩
  · exact hold
  · exact absurd (h.new_status hw hs).1 hlock

/-- The definitions a transaction adds are documents, and newer than the ones before. -/
theorem Lawful.new_workflow {db : Db} {tx : Tx} (h : Lawful db tx) {r : WorkflowRecord}
    (hr : r ∈ (writes tx).filterMap Write.workflow?) :
    ∃ w : Workflow, w.Documentable ∧ r.document = Jsonb.store (workflowToDocument w)
      ∧ (∀ row ∈ db.workflows, row.version < r.version)
      ∧ ∀ t ∈ db.tasks, t.status ∈ w.stateNames := by
  obtain ⟨wr, hwr, hsome⟩ := List.mem_filterMap.1 hr
  cases wr with
  | insertWorkflow r' =>
    obtain rfl := Option.some.inj hsome
    obtain ⟨-, w, hw, hdoc, hrest⟩ := h _ hwr
    exact ⟨w, hw, congrArg _ hdoc, hrest⟩
  | _ => cases hsome

/-- **A lawful commit keeps every status a state of the active definition.** -/
theorem Lawful.commit_inv {st : Server} {tx : Tx} (hinv : Inv st) (h : Lawful st.db tx) :
    Inv { st with db := view st.db (writes tx) } := by
  have hworkflows := workflows_view st.db (writes tx)
  constructor
  · intro row hrow
    rcases List.mem_append.1 (hworkflows ▸ hrow) with hold | hnew
    · exact hinv.sourced row hold
    · obtain ⟨w, hw, hdoc, -⟩ := h.new_workflow hnew
      exact ⟨w, hw, hdoc⟩
  · intro t ht
    by_cases hnone : (writes tx).filterMap Write.workflow? = []
    · -- the definition stays: old statuses were known, new ones are checked against it
      rw [hnone, List.append_nil] at hworkflows
      show t.status ∈ knownStates (view st.db (writes tx))
      rw [knownStates, activeWorkflow_congr hworkflows]
      rcases status_of_mem_view ht with ⟨t', ht', heq⟩ | ⟨w, hw, hs⟩
      · exact heq ▸ hinv.known t' ht'
      · exact (h.new_status hw hs).2
    · -- a new definition has a state for every status before, and none has come in
      obtain ⟨r, hr, hactive⟩ := active_append hnone (fun r hr => by
        obtain ⟨-, -, -, hnewer, -⟩ := h.new_workflow hr
        exact hnewer) hworkflows
      have hlock : tx.lock ≠ some .shared := by
        obtain ⟨wr, hwr, hsome⟩ := List.mem_filterMap.1 hr
        cases wr with
        | insertWorkflow r' => rw [(h _ hwr).1]; simp
        | _ => cases hsome
      obtain ⟨t', ht', heq⟩ := h.commit_statuses hlock ht
      obtain ⟨w, hw, hdoc, -, hstates⟩ := h.new_workflow hr
      obtain ⟨w', hw', heqv⟩ := hw.reload
      refine mem_knownStates_iff.2 ⟨w', activeWorkflow_eq_some.2 ⟨r, hactive, hdoc ▸ hw'⟩, ?_⟩
      rw [← heqv.stateNames_eq, ← heq]
      exact hstates t' ht'

/-! ## Contracts -/

variable [Runtime]

/-- What a call owes at each operation. A replacement counts the statuses under the exclusive guard,
before it has written anything. -/
structure Owes (call : Call) (o : Op) (tx : Tx) (st : Server) : Prop where
  lawful : Lawful st.db tx
  guard : ∀ mode, o = .acquireGuard mode → writes tx = []
  count : ∀ d, call = .replaceActive d → o = .countByStatus → tx.lock = some .exclusive
    ∧ writes tx = []

def contract (call : Call) : Interleaving.Contract Op Tx Server where
  rely := Leaves
  duty := Owes call
  rely_refl _ _ := ⟨fun _ => rfl, fun _ t ht => ⟨t, ht, rfl⟩⟩
  rely_trans h h' := by
    refine ⟨fun hlock => (h'.workflows hlock).trans (h.workflows hlock), fun hlock t'' ht'' => ?_⟩
    obtain ⟨t', ht', heq'⟩ := h'.statuses hlock t'' ht''
    obtain ⟨t, ht, heq⟩ := h.statuses hlock t' ht'
    exact ⟨t, ht, heq.trans heq'⟩

/-- A lawful transaction keeps the invariant, whatever its next operation. -/
theorem Lawful.exec_inv {o : Op} {tx : Tx} {st : Server} (h : Lawful st.db tx) (hinv : Inv st) :
    Inv (exec o tx st).2.2 := by
  rcases exec_db o tx st with hdb | ⟨-, hdb⟩
  · exact ⟨by rw [hdb]; exact hinv.sourced, by rw [hdb]; exact hinv.known⟩
  · have := h.commit_inv hinv
    exact ⟨by rw [hdb]; exact this.sourced, by rw [hdb]; exact this.known⟩

/-- **A lawful operation leaves to a compatible session what that session counts on.** -/
theorem Lawful.leaves {o : Op} {tx other : Tx} {st : Server} (h : Lawful st.db tx)
    (hcompat : Compatible tx.lock other.lock) : Leaves other st (exec o tx st).2.2 := by
  rcases exec_db o tx st with hdb | ⟨-, hdb⟩
  · exact ⟨fun _ => by rw [hdb], fun _ t ht => ⟨t, hdb ▸ ht, rfl⟩⟩
  · rw [Compatible.eq_def] at hcompat
    constructor
    · intro hother
      rw [hdb]
      exact h.commit_workflows fun hlock => by
        rw [hlock] at hcompat
        cases hl : other.lock with
        | none => exact hother hl
        | some mode => cases mode <;> simp [hl] at hcompat
    · intro hother t ht
      rw [hdb] at ht
      exact h.commit_statuses (fun hlock => by rw [hlock, hother] at hcompat; exact hcompat) ht

omit [Unicode] in
theorem compatible_exec {o : Op} {tx other : Tx} {st : Server}
    (h : Compatible tx.lock other.lock) (henabled : permits o tx st other = true) :
    Compatible (exec o tx st).2.1.lock other.lock := by
  rcases exec_lock o tx st with hlock | hlock | ⟨mode, rfl, hlock⟩ <;> rw [hlock]
  · exact h
  · cases other.lock <;> trivial
  · refine compatible_of_guard ?_
    rw [permits, Bool.and_eq_true] at henabled
    simpa using henabled.1

/-- **Lawful sessions do not interfere.** -/
theorem interference (hsafe : ∀ call st, Inv st →
    Interleaving.Safe exec Inv (contract call) (fun _ _ _ => True) call.program .fresh st) :
    Interleaving.Interference rules Inv contract (fun _ _ _ _ => True)
      (fun tx other => Compatible tx.lock other.lock) where
  program_safe := hsafe
  symm := Compatible.symm
  fresh _ := trivial
  keep h _ henabled := compatible_exec h henabled
  within h _ hduty := hduty.lawful.leaves h

end TaskService.Concurrency
