import TaskService.Store.Transactions
import TaskService.Workflows.Repository
import TaskService.Workflows.Variants

/-!
# The active definition

What the tables say the workflow is: the definition of the highest version, parsed again. The
document a definition is stored as reads back as an equal definition, whatever JSONB does to the
order of object members.

* **`Documentable.reload`**: the stored document of a definition reads back as an equal definition.
* **`Sourced.exists_activeWorkflow`**: a table of such documents always has a definition to give.
-/

namespace TaskService.Workflows

open Store

theorem Workflow.eqv_normalize {w : Workflow} (h : w.DistinctMeta) : w.Eqv w.normalize :=
  (w.likewise_normalize h).eqv w.tableOf_transitions.symm rfl

theorem Workflow.Eqv.stateNames_eq {w w' : Workflow} (h : w.Eqv w') :
    w.stateNames = w'.stateNames := by
  have hnames : ∀ {xs ys : List State}, List.Forall₂ State.Eqv xs ys →
      xs.map State.name = ys.map State.name := by
    intro xs ys h
    induction h with
    | nil => rfl
    | cons hxy _ ih => rw [List.map_cons, List.map_cons, hxy.name, ih]
  exact hnames h.states

theorem Workflow.Eqv.trans {w w' w'' : Workflow} (h : w.Eqv w') (h' : w'.Eqv w'') :
    w.Eqv w'' := by
  have hstate : ∀ {s s' s'' : State}, s.Eqv s' → s'.Eqv s'' → s.Eqv s'' := fun h h' =>
    ⟨h.name.trans h'.name, h.initial.trans h'.initial, h.metadata.trans h'.metadata⟩
  have hstates : ∀ {xs ys zs : List State}, List.Forall₂ State.Eqv xs ys →
      List.Forall₂ State.Eqv ys zs → List.Forall₂ State.Eqv xs zs := by
    intro xs ys zs h
    induction h generalizing zs with
    | nil => exact id
    | cons hxy _ ih =>
      intro h'
      cases h' with
      | cons hyz hrest => exact .cons (hstate hxy hyz) (ih hrest)
  refine ⟨hstates h.states h'.states, fun pair => ?_⟩
  have hab := h.transitions pair
  have hbc := h'.transitions pair
  revert hab hbc
  cases Dict.get? w.transitions pair <;> cases Dict.get? w'.transitions pair <;>
    cases Dict.get? w''.transitions pair <;> intro hab hbc
  all_goals first
    | exact .none
    | cases hab; done
    | cases hbc; done
    | (cases hab with | some hab => cases hbc with | some hbc =>
        exact .some ⟨hab.name.trans hbc.name, hab.ends.trans hbc.ends,
          hab.metadata.trans hbc.metadata⟩)

/-- A definition with a higher version than all the others becomes the active one. -/
theorem active_append {db : Db} {rows : List WorkflowRecord} (hne : rows ≠ [])
    (hnewer : ∀ r ∈ rows, ∀ row ∈ db.workflows, row.version < r.version) {db' : Db}
    (h : db'.workflows = db.workflows ++ rows) : ∃ r ∈ rows, db'.active = some r := by
  obtain ⟨r, hr⟩ := Option.ne_none_iff_exists'.1 (show db'.active ≠ none from fun hnone => by
    rw [Db.active, List.argmax_eq_none, h, List.append_eq_nil_iff] at hnone
    exact hne hnone.2)
  refine ⟨r, ?_, hr⟩
  have hmem : r ∈ db.workflows ++ rows := h ▸ List.argmax_mem hr
  rcases List.mem_append.1 hmem with hold | hnew
  · obtain ⟨r', hr'⟩ := List.exists_mem_of_ne_nil rows hne
    have hlt : r.version < r'.version := hnewer r' hr' r hold
    have hle : r'.version ≤ r.version :=
      List.le_of_mem_argmax (h ▸ List.mem_append_right _ hr') hr
    omega
  · exact hnew

variable [Unicode]

/-- **The stored document reads back as an equal definition.** -/
theorem Workflow.Documentable.reload [Jsonb] {w : Workflow} (h : w.Documentable) :
    ∃ w', workflowFromDocument (Jsonb.store (workflowToDocument w)) = .ok w' ∧ w.Eqv w' := by
  obtain ⟨w', hw', heqv⟩ := (spells_of_same (Jsonb.same_store (workflowToDocument w)).symm
    h.wf_document).2 _ (workflowFromDocument_workflowToDocument h)
  exact ⟨w', hw', (Workflow.eqv_normalize h.distinctMeta).trans heqv⟩

/-- The definition the tables hold, if they hold one that parses. -/
def activeWorkflow (db : Db) : Option Workflow :=
  db.active.bind fun row => (workflowFromDocument row.document).toOption

theorem activeWorkflow_eq_some {db : Db} {w : Workflow} :
    activeWorkflow db = some w ↔
      ∃ row, db.active = some row ∧ workflowFromDocument row.document = .ok w := by
  have htoOption : ∀ {x : Except (List Problem) Workflow}, x.toOption = some w ↔ x = .ok w := by
    rintro (e | w')
    · exact ⟨fun h => (nomatch h), fun h => (nomatch h)⟩
    · exact ⟨fun h => congrArg _ (Option.some.inj h), fun h => congrArg _ (Except.ok.inj h)⟩
  rw [activeWorkflow, Option.bind_eq_some_iff]
  simp only [htoOption]

theorem activeWorkflow_congr {db db' : Db} (h : db'.workflows = db.workflows) :
    activeWorkflow db' = activeWorkflow db := by
  rw [activeWorkflow, activeWorkflow, Db.active, Db.active, h]

/-- The names a status can have. -/
def knownStates (db : Db) : List PyStr := ((activeWorkflow db).map Workflow.stateNames).getD []

theorem mem_knownStates_iff {db : Db} {s : PyStr} :
    s ∈ knownStates db ↔ ∃ w, activeWorkflow db = some w ∧ s ∈ w.stateNames := by
  rw [knownStates]
  cases activeWorkflow db <;> simp

/-- The active definition has a transition from the one status to the other. -/
def LegalMove (db : Db) (a b : PyStr) : Prop :=
  ∃ w, activeWorkflow db = some w ∧ (a, b) ∈ Dict.keys w.transitions

theorem LegalMove.mem_knownStates {db : Db} {a b : PyStr} (h : LegalMove db a b) :
    b ∈ knownStates db := by
  obtain ⟨w, hw, hab⟩ := h
  obtain ⟨t, ht⟩ := Dict.mem_keys_iff.1 hab
  exact mem_knownStates_iff.2 ⟨w, hw, (w.known _ ht).2⟩

/-! ## Tables of stored definitions -/

variable [Jsonb]

/-- Every stored document is the document of a definition. -/
def Sourced (db : Db) : Prop :=
  ∀ row ∈ db.workflows, ∃ w : Workflow, w.Documentable
    ∧ row.document = Jsonb.store (workflowToDocument w)

/-- A stored definition is active, and parses. -/
theorem Sourced.exists_activeWorkflow {db : Db} (h : Sourced db) {row : WorkflowRecord}
    (hactive : db.active = some row) : ∃ w, activeWorkflow db = some w := by
  obtain ⟨w, hw, hdoc⟩ := h row (List.argmax_mem hactive)
  obtain ⟨w', hw', -⟩ := hw.reload
  exact ⟨w', activeWorkflow_eq_some.2 ⟨row, hactive, hdoc ▸ hw'⟩⟩

end TaskService.Workflows
