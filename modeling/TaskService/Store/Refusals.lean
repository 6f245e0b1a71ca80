import TaskService.Store.Rows

/-!
# Refused statements

A flush that fails has issued some statements and met one that the database refuses. Which
statements pass can be said block by block: rows of one class pass when they fit their columns and
bring new keys.

* **`exec_refused`**: an operation fails for one of the transaction's statements.
* **`Refused.append_cases`**: where the refused statement is.
* **`Stored.view`**: what is stored passed its check, so it fits its columns.
-/

namespace TaskService.Store

open Tasks Tags

variable [Jsonb]

/-! ## The refused statement -/

/-- One of these statements is refused, and none before it. -/
def Refused (db : Db) (ws : List Write) (e : DbError) : Prop :=
  ∃ before w after, ws = before ++ w :: after ∧ Passes db before ∧ w.check (view db before) = some e

section Refused

variable {db : Db} {ws ws' : List Write} {e : DbError}

theorem refused_of_flush {tx : Tx} (h : flush db tx = .error e) (hlog : Passes db tx.log) :
    Refused db (writes tx) e := by
  obtain ⟨before, w, after, hpending, hpass, hcheck⟩ := issue_eq_error.1 (flush_eq_error.1 h)
  have hwrites : writes tx = (tx.log ++ before) ++ w :: after := by
    rw [writes, hpending, List.append_assoc]
  refine ⟨tx.log ++ before, w, after, hwrites, passes_append.2 ⟨hlog, hpass⟩, ?_⟩
  rw [view_append]
  exact hcheck

/-- **An operation fails for a statement of its transaction**, issued or pending. -/
theorem exec_refused [Runtime] {o : Op} {tx : Tx} {st : Server} {x : Exn}
    (h : (exec o tx st).1 = .error x) (hlog : Passes st.db tx.log) :
    ∃ d, x = .db d ∧ Refused st.db (writes tx) d := by
  rcases exec_cases o tx st with ⟨d, -, hflush, heq⟩ | ⟨-, a, heq⟩
  · rw [heq] at h
    exact ⟨d, (Except.error.inj h).symm, refused_of_flush hflush hlog⟩
  · rw [heq] at h
    cases h

/-- An operation that fails had something pending refused. -/
theorem exec_pending_refused [Runtime] {o : Op} {tx : Tx} {st : Server} {x : Exn}
    (h : (exec o tx st).1 = .error x) :
    ¬ o.Silent ∧ ∃ d, x = .db d ∧ Refused (view st.db tx.log) (pending tx) d := by
  rcases exec_cases o tx st with ⟨d, hsilent, hflush, heq⟩ | ⟨-, a, heq⟩ <;> rw [heq] at h
  · exact ⟨hsilent, d, (Except.error.inj h).symm, issue_eq_error.1 (flush_eq_error.1 hflush)⟩
  · cases h

/-- With nothing pending an operation succeeds. -/
theorem exec_eq_ok_of_pending [Runtime] {o : Op} {tx : Tx} (st : Server)
    (h : o.Silent ∨ pending tx = []) : ∃ a, (exec o tx st).1 = .ok a := by
  rcases exec_cases o tx st with ⟨d, hsilent, hflush, -⟩ | ⟨-, a, heq⟩
  · have hnone : pending tx = [] := h.resolve_left hsilent
    rw [flush_of_pending_nil hnone] at hflush
    cases hflush
  · exact ⟨a, by rw [heq]⟩

/-- **The refused statement is among the first, or these pass and it is among the others.** -/
theorem Refused.append_cases (h : Refused db (ws ++ ws') e) :
    Refused db ws e ∨ Passes db ws ∧ Refused (view db ws) ws' e := by
  induction ws generalizing db with
  | nil => exact .inr ⟨trivial, h⟩
  | cons w ws ih =>
    obtain ⟨before, w', after, heq, hbefore, hcheck⟩ := h
    cases before with
    | nil =>
      obtain ⟨rfl, -⟩ := List.cons.inj heq
      exact .inl ⟨[], w, ws, rfl, trivial, hcheck⟩
    | cons v before =>
      obtain ⟨rfl, hrest⟩ := List.cons.inj heq
      rcases ih ⟨before, w', after, hrest, hbefore.2, hcheck⟩ with hfirst | ⟨hpass, hlater⟩
      · obtain ⟨before', w'', after', rfl, hbefore', hcheck'⟩ := hfirst
        exact .inl ⟨w :: before', w'', after', rfl, ⟨hbefore.1, hbefore'⟩, hcheck'⟩
      · exact .inr ⟨⟨hbefore.1, hpass⟩, hlater⟩

theorem not_refused_nil : ¬ Refused db [] e := by
  rintro ⟨before, w, after, heq, -⟩
  exact absurd heq.symm (by simp)

theorem not_refused_of_passes (hpass : Passes db ws) : ¬ Refused db ws e := by
  rintro ⟨before, w, after, rfl, -, hcheck⟩
  obtain ⟨-, hw, -⟩ := passes_append.1 hpass
  exact nomatch hw.symm.trans hcheck

theorem refused_singleton {w : Write} : Refused db [w] e ↔ w.check db = some e := by
  constructor
  · rintro ⟨before, w', after, heq, -, hcheck⟩
    cases before with
    | nil =>
      obtain ⟨rfl, -⟩ := List.cons.inj heq
      exact hcheck
    | cons v before => exact absurd (List.cons.inj heq).2.symm (by simp)
  · exact fun h => ⟨[], w, [], rfl, trivial, h⟩

end Refused

/-- Statements on other tables. -/
def Write.sparesTasks : Write → Bool
  | .insertTask _ | .updateTask _ _ | .deleteTask _ => false
  | _ => true

/-- They leave the tasks alone. -/
theorem tasks_view {ws : List Write} (h : ∀ w ∈ ws, w.sparesTasks = true) (db : Db) :
    (view db ws).tasks = db.tasks := by
  induction ws generalizing db with
  | nil => rfl
  | cons w ws ih =>
    rw [view_cons, ih fun w' hw' => h w' (List.mem_cons_of_mem _ hw')]
    have hw := h w List.mem_cons_self
    cases w with
    | insertTask t | updateTask loaded current | deleteTask id => cases hw
    | _ => rfl

/-! ## What a statement is refused for -/

section Reasons

omit [Jsonb]

variable {db : Db} {e : DbError}

theorem check_insertTask_eq_some {t : Task} (h : (Write.insertTask t).check db = some e)
    (hfits : TaskFits t) (hid : ∀ row ∈ db.tasks, row.id ≠ t.id) :
    e = .integrity Write.titleKeyConstraint := by
  change (if ¬ TaskFits t then some DbError.data
    else if ∃ row ∈ db.tasks, row.id = t.id then some (.integrity (py "tasks_pkey"))
    else if ∃ row ∈ db.tasks, row.titleKey = t.titleKey
      then some (.integrity Write.titleKeyConstraint)
    else none) = some e at h
  rw [if_neg (not_not_intro hfits), if_neg (by push Not; exact hid)] at h
  split at h
  · exact (Option.some.inj h).symm
  · cases h

theorem check_updateTask_eq_some {loaded current : Task}
    (h : (Write.updateTask loaded current).check db = some e) (hfits : TaskFits current)
    (hthere : ∃ row ∈ db.tasks, row.id = loaded.id) : e = .integrity Write.titleKeyConstraint := by
  change (if ¬ TaskFits current then some DbError.data
    else if ∀ row ∈ db.tasks, row.id ≠ loaded.id then some .stale
    else if loaded.titleKey ≠ current.titleKey
        ∧ ∃ row ∈ db.tasks, row.id ≠ loaded.id ∧ row.titleKey = current.titleKey then
      some (.integrity Write.titleKeyConstraint)
    else none) = some e at h
  rw [if_neg (not_not_intro hfits), if_neg (by push Not; exact hthere)] at h
  split at h
  · exact (Option.some.inj h).symm
  · cases h

theorem check_insertTask_cases {t : Task} (h : (Write.insertTask t).check db = some e)
    (hid : ∀ row ∈ db.tasks, row.id ≠ t.id) :
    e = .data ∨ e = .integrity Write.titleKeyConstraint := by
  by_cases hfits : TaskFits t
  · exact .inr (check_insertTask_eq_some h hfits hid)
  · change (if ¬ TaskFits t then some DbError.data else _) = some e at h
    rw [if_pos hfits] at h
    exact .inl (Option.some.inj h).symm

theorem check_updateTask_cases {loaded current : Task}
    (h : (Write.updateTask loaded current).check db = some e)
    (hthere : ∃ row ∈ db.tasks, row.id = loaded.id) :
    e = .data ∨ e = .integrity Write.titleKeyConstraint := by
  by_cases hfits : TaskFits current
  · exact .inr (check_updateTask_eq_some h hfits hthere)
  · change (if ¬ TaskFits current then some DbError.data else _) = some e at h
    rw [if_pos hfits] at h
    exact .inl (Option.some.inj h).symm

/-- The title a statement writes is taken. -/
def TitleTaken (db : Db) : Write → Prop
  | .insertTask t => ∃ row ∈ db.tasks, row.titleKey = t.titleKey
  | .updateTask loaded current => loaded.titleKey ≠ current.titleKey
      ∧ ∃ row ∈ db.tasks, row.id ≠ loaded.id ∧ row.titleKey = current.titleKey
  | _ => False

/-- Only a title that is taken violates the title constraint. -/
theorem titleTaken_of_check {w : Write}
    (h : w.check db = some (.integrity Write.titleKeyConstraint)) : TitleTaken db w := by
  cases w with
  | insertTask t =>
    by_contra hfree
    have hcheck : (Write.insertTask t).check db ≠ some (.integrity Write.titleKeyConstraint) := by
      change (if ¬ TaskFits t then some DbError.data
        else if ∃ row ∈ db.tasks, row.id = t.id then some (.integrity (py "tasks_pkey"))
        else if ∃ row ∈ db.tasks, row.titleKey = t.titleKey then
          some (.integrity Write.titleKeyConstraint)
        else none) ≠ _
      rw [if_neg (show ¬ ∃ row ∈ db.tasks, row.titleKey = t.titleKey from hfree)]
      split
      · simp
      · split <;> simp [Write.titleKeyConstraint, py]
    exact hcheck h
  | updateTask loaded current =>
    by_contra hfree
    have hcheck : (Write.updateTask loaded current).check db
        ≠ some (.integrity Write.titleKeyConstraint) := by
      change (if ¬ TaskFits current then some DbError.data
        else if ∀ row ∈ db.tasks, row.id ≠ loaded.id then some .stale
        else if loaded.titleKey ≠ current.titleKey
            ∧ ∃ row ∈ db.tasks, row.id ≠ loaded.id ∧ row.titleKey = current.titleKey then
          some (.integrity Write.titleKeyConstraint)
        else none) ≠ _
      rw [if_neg (show ¬ (loaded.titleKey ≠ current.titleKey ∧ _) from hfree)]
      split
      · simp
      · split <;> simp
    exact hcheck h
  | _ =>
    have hmem := mem_constraints_of_check h
    simp only [Write.constraints] at hmem
    exfalso
    revert hmem
    decide

/-- Statements on other tables do not violate it. -/
theorem Refused.ne_titleKey [Jsonb] {ws : List Write} (h : Refused db ws e)
    (hws : ∀ w ∈ ws, w.sparesTasks = true) : e ≠ .integrity Write.titleKeyConstraint := by
  rintro rfl
  obtain ⟨before, w, after, rfl, -, hcheck⟩ := h
  have hspares := hws w (by simp)
  have htaken := titleTaken_of_check hcheck
  cases w with
  | insertTask t | updateTask loaded current => cases hspares
  | _ => exact htaken

end Reasons

/-! ## Blocks that pass -/

section Blocks

variable {db : Db}

/-- Events whose texts can be stored pass under new ids. -/
theorem passes_insertOutbox {rows : List (OutboxRecord Event)}
    (htexts : ∀ r ∈ rows, ∀ s ∈ r.event.body.texts, Storable s)
    (hids : (rows.map OutboxRecord.id).Nodup)
    (hnew : ∀ id ∈ rows.map OutboxRecord.id, id ∉ db.outbox.map OutboxRecord.id) :
    Passes db (rows.map .insertOutbox) := by
  induction rows generalizing db with
  | nil => trivial
  | cons r rows ih =>
    have hfree : ¬ ∃ row ∈ db.outbox, row.id = r.id := by
      rintro ⟨row, hrow, hid⟩
      exact hnew r.id (by simp) (List.mem_map.2 ⟨row, hrow, hid⟩)
    have htext : ¬ ∃ s ∈ r.event.body.texts, ¬ Storable s := by
      rintro ⟨s, hs, hnot⟩
      exact hnot (htexts r List.mem_cons_self s hs)
    obtain ⟨hfirst, hrest⟩ := List.nodup_cons.1 hids
    refine ⟨?_, ih (fun r' hr' => htexts r' (List.mem_cons_of_mem _ hr')) hrest
      fun id hid hold => ?_⟩
    · show (if _ then _ else if _ then _ else none : Option DbError) = none
      rw [if_neg htext, if_neg hfree]
    · change id ∈ (db.outbox ++ [r]).map OutboxRecord.id at hold
      rw [List.map_append] at hold
      rcases List.mem_append.1 hold with hold | hold
      · exact hnew id (List.mem_cons_of_mem _ hid) hold
      · obtain rfl := List.mem_singleton.1 hold
        exact hfirst hid

/-- Tags that fit pass under new ids and new keys. -/
theorem passes_insertTag {tags : List Tag} (hfits : ∀ t ∈ tags, TagFits t)
    (hids : (db.tags.map Tag.id ++ tags.map Tag.id).Nodup)
    (hkeys : (db.tags.map Tag.nameKey ++ tags.map Tag.nameKey).Nodup) :
    Passes db (tags.map .insertTag) := by
  induction tags generalizing db with
  | nil => trivial
  | cons t tags ih =>
    have hid : ¬ ∃ row ∈ db.tags, row.id = t.id := by
      rintro ⟨row, hrow, heq⟩
      exact (List.nodup_append.1 hids).2.2 _ (List.mem_map_of_mem hrow) t.id (by simp) heq
    have hkey : ¬ ∃ row ∈ db.tags, row.nameKey = t.nameKey := by
      rintro ⟨row, hrow, heq⟩
      exact (List.nodup_append.1 hkeys).2.2 _ (List.mem_map_of_mem hrow) t.nameKey (by simp) heq
    refine ⟨?_, ih (fun t' ht' => hfits t' (List.mem_cons_of_mem _ ht')) ?_ ?_⟩
    · show (if _ then _ else if _ then _ else if _ then _ else none : Option DbError) = none
      rw [if_neg (not_not_intro (hfits t List.mem_cons_self)), if_neg hid, if_neg hkey]
    · show ((db.tags ++ [t]).map Tag.id ++ _).Nodup
      rw [List.map_append, List.append_assoc]
      exact hids
    · show ((db.tags ++ [t]).map Tag.nameKey ++ _).Nodup
      rw [List.map_append, List.append_assoc]
      exact hkeys

/-- New links between stored rows pass. -/
theorem passes_insertTaskTag {links : List TaskTag} (hlinks : (db.taskTags ++ links).Nodup)
    (htag : ∀ l ∈ links, l.tagId ∈ db.tags.map Tag.id)
    (htask : ∀ l ∈ links, l.taskId ∈ db.tasks.map Task.id) :
    Passes db (links.map .insertTaskTag) := by
  induction links generalizing db with
  | nil => trivial
  | cons l links ih =>
    have hnew : l ∉ db.taskTags := fun hl => (List.nodup_append.1 hlinks).2.2 l hl l (by simp) rfl
    refine ⟨check_insertTaskTag_eq_none.2
      ⟨hnew, htag l List.mem_cons_self, htask l List.mem_cons_self⟩, ih ?_ ?_ ?_⟩
    · show ((db.taskTags ++ [l]) ++ links).Nodup
      rw [List.append_assoc]
      exact hlinks
    · exact fun l' hl' => htag l' (List.mem_cons_of_mem _ hl')
    · exact fun l' hl' => htask l' (List.mem_cons_of_mem _ hl')

end Blocks

/-! ## Stored rows fit -/

/-- What is stored fits its columns. -/
structure Stored (db : Db) : Prop where
  tasks : ∀ t ∈ db.tasks, TaskFits t
  tags : ∀ t ∈ db.tags, TagFits t
  documents : ∀ row ∈ db.workflows, ∀ s ∈ row.document.strings, Storable s

omit [Jsonb] in
theorem stored_empty : Stored .empty :=
  ⟨fun _ h => (nomatch h), fun _ h => (nomatch h), fun _ h => (nomatch h)⟩

omit [Jsonb] in
/-- A column is as it was stored, or set. -/
theorem of_column {α : Type} [DecidableEq α] {P : α → Prop} {loaded current stored : α}
    (hcurrent : loaded ≠ current → P current) (hstored : P stored) :
    P (column loaded current stored) := by
  unfold column
  split
  case isTrue => exact hstored
  case isFalse hset => exact hcurrent hset

omit [Jsonb] in
/-- Every column of an updated row is one of the stored or one of the changed row. -/
theorem taskFits_updated {loaded current row : Task} (hcurrent : TaskFits current)
    (hrow : TaskFits row) : TaskFits (updated loaded current row) := by
  obtain ⟨htitle, hkey, hdescription, hstatus, hpriority⟩ := hcurrent
  obtain ⟨htitle', hkey', hdescription', hstatus', hpriority'⟩ := hrow
  exact ⟨of_column (fun _ => htitle) htitle', of_column (fun _ => hkey) hkey',
    of_column (P := fun d : Option PyStr => ∀ s ∈ d, Fits descriptionMaxLength s)
      (fun _ => hdescription) hdescription',
    of_column (fun _ => hstatus) hstatus',
    of_column (P := fun n : Int => -int4Max - 1 ≤ n ∧ n ≤ int4Max) (fun _ => hpriority) hpriority'⟩

/-- The values of the statement fit their columns. -/
def Write.Fitting : Write → Prop
  | insertTask t => TaskFits t
  | updateTask _ current => TaskFits current
  | insertTag t => TagFits t
  | insertOutbox r => ∀ s ∈ r.event.body.texts, Storable s
  | insertWorkflow r => StorableJson r.document ∧ r.version ≤ int4Max
  | deleteTask _ | deleteTag _ | insertTaskTag _ | deleteTaskTags _ => True

omit [Jsonb] in
/-- **Values that fit are what a statement is not refused for.** -/
theorem check_eq_data_iff {db : Db} {w : Write} : w.check db = some .data ↔ ¬ w.Fitting := by
  have hfirst : ∀ {fits : Prop} [Decidable fits] {rest : Option DbError}, rest ≠ some .data →
      ((if ¬ fits then some DbError.data else rest) = some .data ↔ ¬ fits) := by
    intro fits _ rest hrest
    split
    case isTrue hnot => exact iff_of_true rfl hnot
    case isFalse hfits => exact iff_of_false hrest hfits
  cases w with
  | insertTask t => exact hfirst (by split <;> [simp; (split <;> simp)])
  | updateTask loaded current => exact hfirst (by split <;> [simp; (split <;> simp)])
  | insertTag t => exact hfirst (by split <;> [simp; (split <;> simp)])
  | insertOutbox r =>
    have hsplit := @hfirst (∀ s ∈ r.event.body.texts, Storable s) _
      (if ∃ row ∈ db.outbox, row.id = r.id then some (.integrity (py "outbox_pkey")) else none)
      (by split <;> simp)
    show ite (∃ s ∈ r.event.body.texts, ¬ Storable s) _ _ = _ ↔ ¬ ∀ s ∈ r.event.body.texts, _
    simpa only [not_forall, exists_prop] using hsplit
  | insertWorkflow r =>
    have hsplit := @hfirst (StorableJson r.document ∧ (r.version : Int) ≤ int4Max) _
      (if ∃ row ∈ db.workflows, row.version = r.version then
        some (.integrity (py "ix_workflow_definitions_version")) else none) (by split <;> simp)
    simpa only [Write.check, Write.Fitting, not_and_or, not_le] using hsplit
  | insertTaskTag l =>
    refine iff_of_false ?_ (not_not_intro trivial)
    show (ite _ _ _ : Option DbError) ≠ _
    split <;> [simp; (split <;> [simp; (split <;> simp)])]
  | deleteTask id | deleteTag id | deleteTaskTags links =>
    exact iff_of_false (Option.some_ne_none _).symm (not_not_intro trivial)

omit [Jsonb] in
theorem fitting_of_check {db : Db} {w : Write} (hcheck : w.check db = none) : w.Fitting := by
  by_contra hnot
  exact nomatch hcheck.symm.trans (check_eq_data_iff.2 hnot)

theorem fitting_of_passes {db : Db} {ws : List Write} (hpass : Passes db ws) :
    ∀ w ∈ ws, w.Fitting := by
  induction ws generalizing db with
  | nil => exact fun _ hw => (nomatch hw)
  | cons w ws ih => exact List.forall_mem_cons.2 ⟨fitting_of_check hpass.1, ih hpass.2⟩

/-- Where a value does not fit, it is that of one of the statements. -/
theorem Refused.not_fitting {db : Db} {ws : List Write} (h : Refused db ws .data) :
    ∃ w ∈ ws, ¬ w.Fitting := by
  obtain ⟨before, w, after, rfl, -, hcheck⟩ := h
  exact ⟨w, by simp, check_eq_data_iff.1 hcheck⟩

/-- **A statement that fits keeps the stored rows fit.** -/
theorem Stored.apply {db : Db} (h : Stored db) {w : Write} (hw : w.Fitting) :
    Stored (w.apply db) := by
  cases w with
  | insertTask t =>
    refine ⟨fun row hrow => ?_, h.tags, h.documents⟩
    rcases List.mem_append.1 hrow with hrow | hrow
    · exact h.tasks row hrow
    · obtain rfl := List.mem_singleton.1 hrow
      exact hw
  | updateTask loaded current =>
    refine ⟨fun row hrow => ?_, h.tags, h.documents⟩
    obtain ⟨row', hrow', rfl⟩ := List.mem_map.1 hrow
    split
    · exact taskFits_updated hw (h.tasks row' hrow')
    · exact h.tasks row' hrow'
  | deleteTask id =>
    exact ⟨fun row hrow => h.tasks row (List.mem_filter.1 hrow).1, h.tags, h.documents⟩
  | insertTag t =>
    refine ⟨h.tasks, fun row hrow => ?_, h.documents⟩
    rcases List.mem_append.1 hrow with hrow | hrow
    · exact h.tags row hrow
    · obtain rfl := List.mem_singleton.1 hrow
      exact hw
  | deleteTag id =>
    exact ⟨h.tasks, fun row hrow => h.tags row (List.mem_filter.1 hrow).1, h.documents⟩
  | insertWorkflow r =>
    refine ⟨h.tasks, h.tags, fun row hrow s hs => ?_⟩
    rcases List.mem_append.1 hrow with hrow | hrow
    · exact h.documents row hrow s hs
    · obtain rfl := List.mem_singleton.1 hrow
      -- `jsonb` stores the document in its own order: the strings are the same.
      have hsame : Json.Same (Jsonb.store r.document) r.document := Jsonb.same_store _
      refine hw.1.1 s ?_
      rw [← Json.mem_strings_canon, ← hsame, Json.mem_strings_canon]
      exact hs
  | insertTaskTag l | deleteTaskTags links | insertOutbox r => exact ⟨h.tasks, h.tags, h.documents⟩

/-- **Statements that fit keep the stored rows fit.** -/
theorem Stored.view {db : Db} (h : Stored db) {ws : List Write} (hws : ∀ w ∈ ws, w.Fitting) :
    Stored (view db ws) := by
  induction ws generalizing db with
  | nil => exact h
  | cons w ws ih =>
    obtain ⟨hw, hrest⟩ := List.forall_mem_cons.1 hws
    exact ih (h.apply hw) hrest

end TaskService.Store
