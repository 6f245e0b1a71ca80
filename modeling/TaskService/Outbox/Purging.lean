import TaskService.Lib.Pruning
import TaskService.Outbox.Delivery

/-!
# A prune, whichever rows it finds

`purge_published` of `core/outbox.py`, for any choice of rows by the `LIMIT` of each of its
statements: the subquery has no `ORDER BY`. A statement selects ids and deletes the rows that have
them, in one transaction; the pass stops after a statement that deleted less than it could.

* **`takes_deletedBy`**: one statement takes as many prunable rows as it may.
* **`purgePublishedWith_batched`**: a pass prunes in bounded batches.
* **`purgePublishedWith_exact`**: what a pass deletes, returns and leaves.
-/

namespace TaskService.Outbox

open Pruning

variable {E : Type} {cutoff : Time} {batchSize maxBatches : Nat}

/-! ## One statement -/

/-- The rows the subquery ranges over. -/
def eligible (cutoff : Time) (table : Table E) : List (OutboxRecord E) :=
  table.rows.filter fun row => Prunable cutoff row

/-- The ids the subquery returns. -/
def selected (cutoff : Time) (limit : Limit (OutboxRecord E) batchSize) (table : Table E) :
    List Uuid :=
  (limit.pick (eligible cutoff table)).map OutboxRecord.id

/-- The rows a DELETE of these ids removes. -/
def deletedBy (ids : List Uuid) (table : Table E) : List (OutboxRecord E) :=
  table.rows.filter fun row => row.id ∈ ids

theorem mem_selected_iff {limit : Limit (OutboxRecord E) batchSize} {table : Table E}
    {row : OutboxRecord E} (hrow : row ∈ table.rows) :
    row.id ∈ selected cutoff limit table ↔ row ∈ limit.pick (eligible cutoff table) := by
  constructor
  · intro h
    obtain ⟨picked, hpicked, hid⟩ := List.mem_map.1 h
    have hthere : picked ∈ table.rows :=
      List.mem_of_mem_filter ((limit.subperm_pick _).subset hpicked)
    exact Table.eq_of_id hthere hrow hid ▸ hpicked
  · exact List.mem_map_of_mem

/-- The rows deleted are the rows selected. -/
theorem deletedBy_selected_perm (limit : Limit (OutboxRecord E) batchSize) (table : Table E) :
    (deletedBy (selected cutoff limit table) table).Perm (limit.pick (eligible cutoff table)) := by
  have hrows : table.rows.Nodup := table.ids_nodup.of_map
  have hpicks : (limit.pick (eligible cutoff table)).Nodup := by
    obtain ⟨picked, hperm, hsub⟩ := limit.subperm_pick (eligible cutoff table)
    exact hperm.nodup_iff.1 ((hrows.filter _).sublist hsub)
  refine (List.perm_ext_iff_of_nodup (hrows.filter _) hpicks).2 fun row => ?_
  rw [List.mem_filter, decide_eq_true_eq]
  constructor
  · rintro ⟨hrow, hselected⟩
    exact (mem_selected_iff hrow).1 hselected
  · intro hpicked
    have hrow : row ∈ table.rows :=
      List.mem_of_mem_filter ((limit.subperm_pick _).subset hpicked)
    exact ⟨hrow, (mem_selected_iff hrow).2 hpicked⟩

/-- **One statement takes as many prunable rows as it may.** -/
theorem takes_deletedBy (limit : Limit (OutboxRecord E) batchSize) (table : Table E) :
    Takes (fun row => Prunable cutoff row) batchSize table.rows
      (deletedBy (selected cutoff limit table) table)
      (table.delete (selected cutoff limit table)).rows where
  perm := by
    have hleft : (table.delete (selected cutoff limit table)).rows
        = table.rows.filter fun row => !decide (row.id ∈ selected cutoff limit table) :=
      List.filter_congr fun row _ => decide_not
    rw [hleft]
    exact List.filter_append_perm _ _
  due_batch row hrow := by
    have hpicked := (deletedBy_selected_perm limit table).subset hrow
    exact (List.mem_filter.1 ((limit.subperm_pick _).subset hpicked)).2
  length_batch := by
    rw [(deletedBy_selected_perm limit table).length_eq, limit.length_pick, eligible,
      List.countP_eq_length_filter]

/-! ## A pass -/

/-- What a pass did: the count it returns, the rows each statement deleted, and the table after its
last commit. -/
structure Pass (E : Type) where
  deleted : Nat
  statements : List (List (OutboxRecord E))
  table : Table E

/-- `purge_published`: at most `maxBatches` statements, each with its own limit. -/
def purgePublishedWith (cutoff : Time) (batchSize : Nat) :
    Nat → (Nat → Limit (OutboxRecord E) batchSize) → Table E → Pass E
  | 0, _, table => ⟨0, [], table⟩
  | batches + 1, limit, table =>
    let ids := selected cutoff (limit 0) table
    let removed := deletedBy ids table
    let table := table.delete ids
    if removed.length < batchSize then ⟨removed.length, [removed], table⟩
    else
      let rest := purgePublishedWith cutoff batchSize batches (fun k => limit (k + 1)) table
      ⟨removed.length + rest.deleted, removed :: rest.statements, rest.table⟩

/-- The count is that of the rows deleted. -/
theorem purgePublishedWith_deleted (limit : Nat → Limit (OutboxRecord E) batchSize)
    (table : Table E) :
    (purgePublishedWith cutoff batchSize maxBatches limit table).deleted
      = (purgePublishedWith cutoff batchSize maxBatches limit table).statements.flatten.length := by
  induction maxBatches generalizing limit table with
  | zero => rfl
  | succ batches ih =>
    unfold purgePublishedWith
    dsimp only
    split
    · rw [List.flatten_singleton]
    · rw [List.flatten_cons, List.length_append, ih]

/-- **A pass prunes in bounded batches.** -/
theorem purgePublishedWith_batched (limit : Nat → Limit (OutboxRecord E) batchSize)
    (table : Table E) :
    Batched (fun row => Prunable cutoff row) batchSize maxBatches table.rows
      (purgePublishedWith cutoff batchSize maxBatches limit table).statements
      (purgePublishedWith cutoff batchSize maxBatches limit table).table.rows := by
  induction maxBatches generalizing limit table with
  | zero => exact .spent table.rows
  | succ batches ih =>
    unfold purgePublishedWith
    dsimp only
    split
    next hshort => exact .short (takes_deletedBy (limit 0) table) hshort
    next hfull => exact .full (takes_deletedBy (limit 0) table) hfull (ih _ _)

/-- **A pass deletes exactly what it may.** Whichever rows the limits pick: every row is deleted
once or stays as it is, the deleted ones are prunable, they are `batchSize * maxBatches` or all
there are, and nothing prunable stays exactly when that is enough. -/
theorem purgePublishedWith_exact (cutoff : Time) (batchSize maxBatches : Nat)
    (limit : Nat → Limit (OutboxRecord E) batchSize) (table : Table E) :
    let pass := purgePublishedWith cutoff batchSize maxBatches limit table
    pass.deleted = min (eligible cutoff table).length (batchSize * maxBatches)
      ∧ pass.statements.flatten.length = pass.deleted
      ∧ (∀ row ∈ pass.statements.flatten, row ∈ eligible cutoff table)
      ∧ (pass.statements.flatten ++ pass.table.rows).Perm table.rows
      ∧ pass.statements.length ≤ maxBatches
      ∧ (∀ rows ∈ pass.statements, rows.length ≤ batchSize)
      ∧ (eligible cutoff pass.table = []
        ↔ (eligible cutoff table).length ≤ batchSize * maxBatches) := by
  intro pass
  have hbatched : Batched (fun row => Prunable cutoff row) batchSize maxBatches table.rows
      pass.statements pass.table.rows := purgePublishedWith_batched limit table
  have hcount : (table.rows.countP fun row => Prunable cutoff row)
      = (eligible cutoff table).length := List.countP_eq_length_filter
  have hdeleted : pass.deleted = pass.statements.flatten.length :=
    purgePublishedWith_deleted limit table
  refine ⟨?_, hdeleted.symm, fun row hrow => ?_, hbatched.perm, hbatched.length_le,
    hbatched.batch_le, ?_⟩
  · rw [hdeleted, hbatched.length_taken, hcount]
  · have hthere : row ∈ table.rows := hbatched.perm.subset (List.mem_append_left _ hrow)
    exact List.mem_filter.2 ⟨hthere, hbatched.due_taken row hrow⟩
  · rw [← hcount, ← hbatched.drained_iff]
    exact List.filter_eq_nil_iff

/-! ## In the order Postgres finds them -/

/-- The limit that takes the rows in a given order. -/
def Limit.ordered (order : OutboxRecord E → Nat) (n : Nat) : Limit (OutboxRecord E) n where
  pick items := (items.insertionSort fun a b => order a ≤ order b).take n
  subperm_pick items := by
    have hperm := List.perm_insertionSort (fun a b => order a ≤ order b) items
    exact (List.take_sublist n _).subperm.trans hperm.subperm
  length_pick items := by
    rw [List.length_take, List.length_insertionSort]

/-- **A pass in one fixed order is one of these.** -/
theorem purgePublished_eq (order : OutboxRecord E → Nat) (table : Table E) :
    purgePublished cutoff batchSize order maxBatches table
      = ((purgePublishedWith cutoff batchSize maxBatches
          (fun _ => Limit.ordered order batchSize) table).deleted,
        (purgePublishedWith cutoff batchSize maxBatches
          (fun _ => Limit.ordered order batchSize) table).table) := by
  induction maxBatches generalizing table with
  | zero => rfl
  | succ batches ih =>
    have hids : selected cutoff (Limit.ordered order batchSize) table
        = victims cutoff batchSize order table := rfl
    have hlen : (deletedBy (victims cutoff batchSize order table) table).length
        = (victims cutoff batchSize order table).length := by
      rw [← hids, (deletedBy_selected_perm _ table).length_eq, selected, List.length_map]
    unfold purgePublished purgePublishedWith
    dsimp only
    rw [hids, hlen, ih]
    split <;> rfl

end TaskService.Outbox
