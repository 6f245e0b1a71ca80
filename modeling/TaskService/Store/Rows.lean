import TaskService.Store.Transactions

/-!
# Rows of a view

Where the rows come from that a transaction's statements leave, and what a statement has found that
passed its check.

* **`Passes.check`**: each statement that passed did so in the view before it.
* **`Passes.task_there`**: a statement that needs a task found it among the committed ones.
* **`Linked.apply`**: both ends of every link stay stored.
-/

namespace TaskService.Store

open Tasks Tags

section Views

variable [Jsonb]

/-- A task of a view is one of the table, but for its columns, or one inserted. -/
theorem id_of_mem_view {db : Db} {ws : List Write} {t : Task} (h : t ∈ (view db ws).tasks) :
    (∃ row ∈ db.tasks, row.id = t.id) ∨ ∃ t', .insertTask t' ∈ ws ∧ t'.id = t.id := by
  induction ws generalizing db with
  | nil => exact .inl ⟨t, h, rfl⟩
  | cons w ws ih =>
    rw [view_cons] at h
    rcases ih h with ⟨row, hrow, hid⟩ | ⟨t', ht', hid⟩
    · cases w with
      | insertTask t' =>
        rcases List.mem_append.1 hrow with hrow | hrow
        · exact .inl ⟨row, hrow, hid⟩
        · obtain rfl := List.mem_singleton.1 hrow
          exact .inr ⟨row, List.mem_cons_self, hid⟩
      | updateTask loaded current =>
        obtain ⟨row', hrow', rfl⟩ := List.mem_map.1 hrow
        refine .inl ⟨row', hrow', ?_⟩
        rw [← hid]
        split <;> rfl
      | deleteTask id => exact .inl ⟨row, (List.mem_filter.1 hrow).1, hid⟩
      | _ => exact .inl ⟨row, hrow, hid⟩
    · exact .inr ⟨t', List.mem_cons_of_mem _ ht', hid⟩

/-- A link of a view is one of the table or one inserted. -/
theorem mem_taskTags_of_view {db : Db} {ws : List Write} {l : TaskTag}
    (h : l ∈ (view db ws).taskTags) : l ∈ db.taskTags ∨ .insertTaskTag l ∈ ws := by
  induction ws generalizing db with
  | nil => exact .inl h
  | cons w ws ih =>
    rw [view_cons] at h
    rcases ih h with hl | hl
    · cases w with
      | insertTaskTag l' =>
        rcases List.mem_append.1 hl with hl | hl
        · exact .inl hl
        · obtain rfl := List.mem_singleton.1 hl
          exact .inr List.mem_cons_self
      | deleteTask id | deleteTag id | deleteTaskTags links => exact .inl (List.mem_filter.1 hl).1
      | _ => exact .inl hl
    · exact .inr (List.mem_cons_of_mem _ hl)

/-- A statement that passed did so in the view before it. -/
theorem Passes.check {db : Db} {ws : List Write} (h : Passes db ws) {w : Write} (hw : w ∈ ws) :
    ∃ before after, ws = before ++ w :: after ∧ w.check (view db before) = none := by
  obtain ⟨before, after, rfl⟩ := List.append_of_mem hw
  obtain ⟨-, hcheck, -⟩ := passes_append.1 h
  exact ⟨before, after, rfl, hcheck⟩

end Views

theorem check_insertTaskTag_eq_none {db : Db} {l : TaskTag} :
    (Write.insertTaskTag l).check db = none ↔ l ∉ db.taskTags
      ∧ l.tagId ∈ db.tags.map Tag.id ∧ l.taskId ∈ db.tasks.map Task.id := by
  show (ite _ _ _ : Option DbError) = none ↔ _
  rw [ite_some_eq_none, ite_some_eq_none, ite_some_eq_none, List.mem_map, List.mem_map]
  push Not
  exact ⟨fun h => ⟨h.1, h.2.1, h.2.2.1⟩, fun h => ⟨h.1, h.2.1, h.2.2, rfl⟩⟩

/-- The task a statement is refused without. -/
def Write.onTask? : Write → Option Uuid
  | .updateTask loaded _ => some loaded.id
  | .insertTaskTag l => some l.taskId
  | _ => none

theorem onTask_of_check {db : Db} {w : Write} {id : Uuid} (h : w.check db = none)
    (hw : w.onTask? = some id) : ∃ row ∈ db.tasks, row.id = id := by
  cases w with
  | updateTask loaded current =>
    obtain rfl := Option.some.inj hw
    obtain ⟨-, hrow, -⟩ := check_updateTask_eq_none.1 h
    exact hrow
  | insertTaskTag l =>
    obtain rfl := Option.some.inj hw
    obtain ⟨-, -, hrow⟩ := check_insertTaskTag_eq_none.1 h
    exact List.mem_map.1 hrow
  | _ => cases hw

/-- **A statement that needs a task found it among the committed ones**, if the transaction did not
insert it. -/
theorem Passes.task_there [Jsonb] {db : Db} {log ws : List Write} (h : Passes (view db log) ws)
    {w : Write} (hw : w ∈ ws) {id : Uuid} (hid : w.onTask? = some id)
    (hnew : ∀ t, .insertTask t ∈ log ++ ws → t.id ≠ id) : ∃ row ∈ db.tasks, row.id = id := by
  obtain ⟨before, after, rfl, hcheck⟩ := h.check hw
  obtain ⟨row, hrow, hrowId⟩ := onTask_of_check hcheck hid
  rw [← view_append] at hrow
  rcases id_of_mem_view hrow with ⟨row', hrow', hid'⟩ | ⟨t, ht, hid'⟩
  · exact ⟨row', hrow', hid'.trans hrowId⟩
  · refine absurd (hid'.trans hrowId) (hnew t ?_)
    rw [← List.append_assoc]
    exact List.mem_append_left _ ht

/-! ## Foreign keys -/

/-- Both ends of every link are stored. -/
structure Linked (db : Db) : Prop where
  task : ∀ l ∈ db.taskTags, l.taskId ∈ db.tasks.map Task.id
  tag : ∀ l ∈ db.taskTags, l.tagId ∈ db.tags.map Tag.id

section Linked

variable [Jsonb]

/-- **A statement keeps the links whole**; a new link does when it passes its check. -/
theorem Linked.apply {db : Db} (h : Linked db) {w : Write}
    (hw : ∀ l, w = .insertTaskTag l → w.check db = none) : Linked (w.apply db) := by
  cases w with
  | insertTask t =>
    refine ⟨fun l hl => ?_, h.tag⟩
    rw [show ((Write.insertTask t).apply db).tasks = db.tasks ++ [t] from rfl, List.map_append]
    exact List.mem_append_left _ (h.task l hl)
  | updateTask loaded current =>
    refine ⟨fun l hl => ?_, h.tag⟩
    obtain ⟨row, hrow, hid⟩ := List.mem_map.1 (h.task l hl)
    refine List.mem_map.2 ⟨_, List.mem_map_of_mem hrow, ?_⟩
    rw [← hid]
    split <;> rfl
  | deleteTask id =>
    refine ⟨fun l hl => ?_, fun l hl => h.tag l (List.mem_filter.1 hl).1⟩
    -- the links of the row go with it
    obtain ⟨hmem, hne⟩ := List.mem_filter.1 hl
    obtain ⟨row, hrow, hid⟩ := List.mem_map.1 (h.task l hmem)
    refine List.mem_map.2 ⟨row, List.mem_filter.2 ⟨hrow, ?_⟩, hid⟩
    rw [hid]
    exact hne
  | insertTag t =>
    refine ⟨h.task, fun l hl => ?_⟩
    rw [show ((Write.insertTag t).apply db).tags = db.tags ++ [t] from rfl, List.map_append]
    exact List.mem_append_left _ (h.tag l hl)
  | deleteTag id =>
    refine ⟨fun l hl => h.task l (List.mem_filter.1 hl).1, fun l hl => ?_⟩
    obtain ⟨hmem, hne⟩ := List.mem_filter.1 hl
    obtain ⟨row, hrow, hid⟩ := List.mem_map.1 (h.tag l hmem)
    refine List.mem_map.2 ⟨row, List.mem_filter.2 ⟨hrow, ?_⟩, hid⟩
    rw [hid]
    exact hne
  | insertTaskTag l =>
    -- the foreign keys are what the check of a link asks
    obtain ⟨-, htag, htask⟩ := check_insertTaskTag_eq_none.1 (hw l rfl)
    have hlinks : ((Write.insertTaskTag l).apply db).taskTags = db.taskTags ++ [l] := rfl
    constructor <;> intro l' hl' <;> rw [hlinks] at hl' <;>
      rcases List.mem_append.1 hl' with hl' | hl'
    · exact h.task l' hl'
    · rw [List.mem_singleton.1 hl']
      exact htask
    · exact h.tag l' hl'
    · rw [List.mem_singleton.1 hl']
      exact htag
  | deleteTaskTags links =>
    exact ⟨fun l hl => h.task l (List.mem_filter.1 hl).1,
      fun l hl => h.tag l (List.mem_filter.1 hl).1⟩
  | insertOutbox r => exact ⟨h.task, h.tag⟩
  | insertWorkflow r => exact ⟨h.task, h.tag⟩

/-- Statements that link nothing keep the links whole. -/
theorem Linked.view_log {db : Db} (h : Linked db) {ws : List Write}
    (hws : ∀ l, .insertTaskTag l ∉ ws) :
    Linked (view db ws) := by
  induction ws generalizing db with
  | nil => exact h
  | cons w ws ih =>
    refine ih (h.apply fun l heq => ?_) fun l hl => hws l (List.mem_cons_of_mem _ hl)
    exact absurd (heq ▸ List.mem_cons_self) (hws l)

/-- Statements that passed keep the links whole. -/
theorem Linked.view_passes {db : Db} (h : Linked db) {ws : List Write} (hws : Passes db ws) :
    Linked (view db ws) := by
  induction ws generalizing db with
  | nil => exact h
  | cons w ws ih => exact ih (h.apply fun _ _ => hws.1) hws.2

end Linked

end TaskService.Store
