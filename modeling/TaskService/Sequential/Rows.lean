import TaskService.Sequential.Runs
import TaskService.Sessions.Replacements
import TaskService.Sessions.Titles

/-!
# The task table, one call after the other

Without concurrent writers the row a session loaded is the row it changes, so an UPDATE leaves
exactly what the session made of it.

* **`amended_eq_setRow`**: an UPDATE of a row as it stands puts the new row in its place.
* **`Committed.rows`**: in a committed state whose tasks have the keys of their titles, every task
  is within its bounds, and no two have one key.
* **`rows_of_reachable`**: so it is between two calls.
-/

namespace TaskService.Sequential

open Store Tasks Tags Workflows Concurrency Sessions

/-! ## One row -/

/-- The table with another row in the place of the one with its id. -/
def setRow (tasks : List Task) (current : Task) : List Task :=
  tasks.map fun row => if row.id = current.id then current else row

theorem mem_setRow {tasks : List Task} {current row : Task} (h : row ∈ setRow tasks current) :
    row = current ∨ row ∈ tasks := by
  obtain ⟨row', hrow', rfl⟩ := List.mem_map.1 h
  by_cases hid : row'.id = current.id
  · rw [if_pos hid]
    exact .inl rfl
  · rw [if_neg hid]
    exact .inr hrow'

/-- The UPDATE of the row that was loaded leaves what the session made of it. -/
theorem updated_loaded {loaded current : Task} (hid : current.id = loaded.id) :
    updated loaded current loaded = current := by
  have hcolumn : ∀ {α : Type} [DecidableEq α] (a b : α), column a b a = b := by
    intro α _ a b
    unfold column
    split
    next heq => exact heq
    next => rfl
  unfold updated
  rw [hcolumn, hcolumn, hcolumn, hcolumn, hcolumn, hcolumn, ← hid]

/-- **An UPDATE of a row as it stands puts the new row in its place.** -/
theorem amended_eq_setRow {tasks : List Task} (hids : (tasks.map Task.id).Nodup)
    {previous current : Task} (hthere : previous ∈ tasks) (hid : current.id = previous.id) :
    amended tasks previous current = setRow tasks current := by
  refine List.map_congr_left fun row hrow => ?_
  by_cases hsame : row.id = previous.id
  · rw [if_pos hsame, if_pos (hsame.trans hid.symm),
      List.inj_on_of_nodup_map hids hrow hthere hsame, updated_loaded hid]
  · rw [if_neg hsame, if_neg fun heq => hsame (heq.trans hid)]

/-- Putting a row in its own place changes nothing. -/
theorem setRow_self {tasks : List Task} (hids : (tasks.map Task.id).Nodup) {row : Task}
    (hrow : row ∈ tasks) :
    setRow tasks row = tasks := by
  refine (List.map_congr_left fun row' hrow' => ?_).trans (List.map_id tasks)
  by_cases hsame : row'.id = row.id
  · rw [if_pos hsame, List.inj_on_of_nodup_map hids hrow' hrow hsame]
    rfl
  · rw [if_neg hsame]
    rfl

/-! ## Changes of the loaded row -/

section Changes

variable [Unicode] {told : Told} {call : Call} {taskId : Uuid} {names : Option (List PyStr)}
  {engine : Option Engine} {previous updated : Task}

/-- **An update that changes no mutable field changes nothing.** -/
theorem eq_of_unchanged (h : Changes told call taskId names engine previous updated)
    (hkeyed : previous.Keyed) (hsame : updated.changedFields previous = []) :
    updated = previous := by
  obtain ⟨htitle, hdescription, hstatus, hpriority⟩ := Task.changedFields_eq_nil_iff.1 hsame
  have hid : updated.id = previous.id := h.ids.2.trans h.ids.1.symm
  have hcreatedAt := h.createdAt
  have hkey : updated.titleKey = previous.titleKey := by
    rw [h.keyed hkeyed, htitle, ← hkeyed]
  cases updated
  cases previous
  simp_all

omit [Unicode] in
/-- The loaded row is a stored one. -/
theorem there_of_loaded {st : Server} (htold : ∀ answer ∈ told, answer.Holds st.db)
    (h : Loaded taskId previous told) : previous ∈ st.db.tasks :=
  List.mem_of_find?_eq_some (htold _ h.read).symm

end Changes

/-! ## Between two calls -/

/-- What is known of the stored tasks. -/
structure Rows [Unicode] (db : Db) : Prop where
  ids : (db.tasks.map Task.id).Nodup
  keys : (titleKeys db).Nodup
  keyed : ∀ t ∈ db.tasks, t.Keyed
  valid : ∀ t ∈ db.tasks, t.Valid

section Rows

variable [Unicode] [Jsonb] [Runtime] {told : Told} {tx : Tx} {call : Call} {st : Server} {db' : Db}

/-- **A committed state whose tasks have the keys of their titles.** -/
theorem Committed.rows (h : Committed st) (hkeyed : ∀ t ∈ st.db.tasks, t.Keyed) : Rows st.db :=
  ⟨nodup_tasks_of_reachable h.idle, nodup_titleKeys_of_reachable h.idle, hkeyed,
    valid_of_reachable h.idle⟩

omit [Runtime] in
/-- The commit of a call finds the tasks as it loaded them. -/
theorem Rows.commit (h : Rows st.db) (htold : Truthful st told)
    (heffect : Effect told tx st.db call db') : ∀ t ∈ db'.tasks, t.Keyed := by
  refine heffect.keyed (fun htask _ row hrow hid => ?_) h.keyed
  have hthere := there_of_loaded htold.holds htask.loaded
  obtain rfl := List.inj_on_of_nodup_map h.ids hrow hthere hid
  exact ⟨fun _ => rfl, fun _ => rfl⟩

/-- **Between two calls every task has the key of its title and is within its bounds**, and no two
have one key. -/
theorem rows_of_reachable (h : Reachable st) : Rows st.db := by
  refine (Reachable.committed h).rows ?_
  induction h with
  | refl => exact fun _ ht => nomatch ht
  | @tail st st' call hreach hstep ih =>
    obtain rfl := Option.some.inj hstep
    have hcommitted : Committed st := Reachable.committed hreach
    have hserves := serve_cases hcommitted call
    generalize (serve call st).2.db = db' at hserves ⊢
    generalize (serve call st).1 = r at hserves
    cases hserves with
    | saved htold hcommits => exact (hcommitted.rows ih).commit htold (hcommits.effect st.db)
    | rested | raised => exact ih

end Rows

end TaskService.Sequential
