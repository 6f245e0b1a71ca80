import TaskService.Lib.Except
import TaskService.Store.Database
import Mathlib.Data.List.Sort

/-!
# Delivery

`deliver_pending` and `purge_published` of `core/outbox.py`, and `EventBus.dispatch`. A poll claims
a batch of deliverable rows, attempts each, logs each failure, and commits the outcomes of the whole
batch at once. The rows are generic in the event they carry; the registry, the handlers and the
logger are given by what they do, an exception by its text.

* **`commitMarks_eq_ok`**: when a batch of changes commits, and what it makes of each row.
* **`mem_claim`**, **`claim_ids_nodup`**: what a poll claims.
* **`attemptAll_eq_ok`**: when the loop ends, and the changes it then leaves.
-/

namespace TaskService.Outbox

open Store

/-- `OUTBOX_LAST_ERROR_MAX_LENGTH`. -/
def lastErrorMaxLength : Nat := 1000

variable {E Ev H : Type}

/-! ## The table -/

/-- The columns hold what they can hold: `last_error` is text, `retry_count` an integer. -/
def RowFits (row : OutboxRecord E) : Prop :=
  (∀ text ∈ row.lastError, Storable text) ∧ (row.retryCount : Int) ≤ int4Max

instance (row : OutboxRecord E) : Decidable (RowFits row) := inferInstanceAs (Decidable (_ ∧ _))

/-- The outbox: rows with distinct ids, whose columns hold what they can hold. -/
structure Table (E : Type) where
  rows : List (OutboxRecord E)
  ids_nodup : (rows.map OutboxRecord.id).Nodup
  fit : ∀ row ∈ rows, RowFits row

theorem Table.ext {table table' : Table E} (h : table.rows = table'.rows) : table = table' := by
  cases table
  cases table'
  cases h
  rfl

/-- A row is known by its id. -/
theorem Table.eq_of_id {table : Table E} {row row' : OutboxRecord E} (h : row ∈ table.rows)
    (h' : row' ∈ table.rows) (hid : row.id = row'.id) : row = row' :=
  List.inj_on_of_nodup_map table.ids_nodup h h' hid

/-! ## Claiming -/

/-- `_DELIVERABLE`: neither published nor dead-lettered. -/
def Deliverable (row : OutboxRecord E) : Prop := row.publishedAt = none ∧ row.deadLetteredAt = none

instance (row : OutboxRecord E) : Decidable (Deliverable row) := inferInstanceAs (Decidable (_ ∧ _))

/-- `ORDER BY occurred_at, id`. -/
def Before (a b : OutboxRecord E) : Prop :=
  a.occurredAt < b.occurredAt ∨ a.occurredAt = b.occurredAt ∧ a.id ≤ b.id

instance (a b : OutboxRecord E) : Decidable (Before a b) := inferInstanceAs (Decidable (_ ∨ _))

/-- The deliverable rows that no other transaction has locked. -/
def available (table : Table E) (locked : List Uuid) : List (OutboxRecord E) :=
  table.rows.filter fun row => Deliverable row ∧ row.id ∉ locked

/-- The claimed rows: `ORDER BY … LIMIT … FOR UPDATE SKIP LOCKED`. -/
def claim (table : Table E) (locked : List Uuid) (batchSize : Nat) : List (OutboxRecord E) :=
  ((available table locked).insertionSort Before).take batchSize

theorem mem_claim {table : Table E} {locked : List Uuid} {batchSize : Nat} {row : OutboxRecord E}
    (h : row ∈ claim table locked batchSize) :
    row ∈ table.rows ∧ Deliverable row ∧ row.id ∉ locked := by
  have hmem : row ∈ available table locked :=
    (List.perm_insertionSort Before _).mem_iff.1 (List.mem_of_mem_take h)
  simpa [available] using hmem

theorem claim_ids_nodup (table : Table E) (locked : List Uuid) (batchSize : Nat) :
    ((claim table locked batchSize).map OutboxRecord.id).Nodup := by
  have hsorted : (((available table locked).insertionSort Before).map OutboxRecord.id).Nodup := by
    rw [((List.perm_insertionSort Before _).map _).nodup_iff]
    exact table.ids_nodup.sublist (List.filter_sublist.map _)
  exact hsorted.sublist ((List.take_sublist _ _).map _)

/-- A batch is full unless it has every available row. -/
theorem length_claim (table : Table E) (locked : List Uuid) (batchSize : Nat) :
    (claim table locked batchSize).length = min batchSize (available table locked).length := by
  rw [claim, List.length_take, List.length_insertionSort]

/-! ## Attempting -/

/-- What the relay is wired with: `registry[row.event_type].model_validate(row.payload)`, and the
handlers subscribed to the class of an event, in subscription order; and the `event_type` that a row
has for its event. -/
structure Wiring (E Ev H : Type) where
  eventType : E → PyStr
  registry : E → Except PyStr Ev
  listeners : Ev → List H

/-- `EventBus.dispatch`: the handlers in turn, up to the first that raises. -/
def dispatch (raises : H → Option PyStr) : List H → Except PyStr Unit
  | [] => .ok ()
  | handler :: handlers =>
    match raises handler with
    | some text => .error text
    | none => dispatch raises handlers

/-- Rebuilding the event of a row and dispatching it. -/
def attempt (wiring : Wiring E Ev H) (raises : H → Option PyStr) (row : OutboxRecord E) :
    Except PyStr Unit := do
  let event ← wiring.registry row.event
  dispatch raises (wiring.listeners event)

theorem dispatch_eq_ok {raises : H → Option PyStr} {handlers : List H} :
    dispatch raises handlers = .ok () ↔ ∀ handler ∈ handlers, raises handler = none := by
  induction handlers with
  | nil => simp [dispatch]
  | cons handler handlers ih =>
    unfold dispatch
    cases h : raises handler <;> simp [h, ih]

/-- The event was rebuilt, and every handler subscribed to its class completed. -/
def Delivered (wiring : Wiring E Ev H) (raises : H → Option PyStr) (row : OutboxRecord E) : Prop :=
  ∃ event, wiring.registry row.event = .ok event
    ∧ ∀ handler ∈ wiring.listeners event, raises handler = none

theorem attempt_eq_ok {wiring : Wiring E Ev H} {raises : H → Option PyStr} {row : OutboxRecord E} :
    attempt wiring raises row = .ok () ↔ Delivered wiring raises row := by
  simp only [attempt, Except.bind_eq_ok, dispatch_eq_ok, Delivered]

/-- What the loop makes of a row, from the outcome of its attempt. -/
def settle (maxRetries : Nat) (now : Time) (row : OutboxRecord E) :
    Except PyStr Unit → OutboxRecord E
  | .error reason =>
    let failed := { row with
      retryCount := row.retryCount + 1
      lastError := some (reason.take lastErrorMaxLength) }
    if maxRetries ≤ failed.retryCount then { failed with deadLetteredAt := some now } else failed
  | .ok () => { row with publishedAt := some now }

@[simp] theorem settle_id (maxRetries : Nat) (now : Time) (row : OutboxRecord E)
    (outcome : Except PyStr Unit) : (settle maxRetries now row outcome).id = row.id := by
  cases outcome with
  | ok u => rfl
  | error reason =>
    dsimp only [settle]
    split <;> rfl

@[simp] theorem settle_event (maxRetries : Nat) (now : Time) (row : OutboxRecord E)
    (outcome : Except PyStr Unit) : (settle maxRetries now row outcome).event = row.event := by
  cases outcome with
  | ok u => rfl
  | error reason =>
    dsimp only [settle]
    split <;> rfl

/-! ## Logging -/

/-- The method of the logger. -/
inductive LogLevel where
  | error
  | warning
  | debug
  deriving DecidableEq

/-- A call of the logger. -/
structure LogCall where
  emit : LogLevel
  eventName : PyStr
  outboxId : Uuid
  eventType : PyStr
  retryCount : Nat
  error : PyStr

/-- The call at a failed attempt. The text is the whole of the exception's, not what the row keeps
of it. -/
def failureCall (wiring : Wiring E Ev H) (maxRetries : Nat) (row : OutboxRecord E)
    (reason : PyStr) : LogCall :=
  let retryCount := row.retryCount + 1
  let (emit, eventName) :=
    if maxRetries ≤ retryCount then (.error, py "outbox_dead_lettered")
    else if retryCount = 1 then (.warning, py "outbox_delivery_failed")
    else (.debug, py "outbox_delivery_failed")
  ⟨emit, eventName, row.id, wiring.eventType row.event, retryCount, reason⟩

/-! ## Committing -/

/-- A stored row after the UPDATE that the session's changes of a loaded row lead to. -/
def marked (loaded current stored : OutboxRecord E) : OutboxRecord E :=
  { stored with
    publishedAt := column loaded.publishedAt current.publishedAt stored.publishedAt
    deadLetteredAt := column loaded.deadLetteredAt current.deadLetteredAt stored.deadLetteredAt
    retryCount := column loaded.retryCount current.retryCount stored.retryCount
    lastError := column loaded.lastError current.lastError stored.lastError }

theorem column_self {α : Type} [DecidableEq α] (loaded current : α) :
    column loaded current loaded = current := by
  unfold column
  split <;> simp_all

theorem column_cases {α : Type} [DecidableEq α] (loaded current stored : α) :
    column loaded current stored = current ∨ column loaded current stored = stored := by
  unfold column
  split <;> simp

/-- A row that is as it was loaded becomes what the loop made of it. -/
theorem marked_settle (maxRetries : Nat) (now : Time) (row : OutboxRecord E)
    (outcome : Except PyStr Unit) :
    marked row (settle maxRetries now row outcome) row = settle maxRetries now row outcome := by
  unfold marked
  simp only [column_self]
  cases outcome with
  | ok u => rfl
  | error reason =>
    dsimp only [settle]
    split <;> rfl

theorem rowFits_marked {loaded current stored : OutboxRecord E} (hcurrent : RowFits current)
    (hstored : RowFits stored) : RowFits (marked loaded current stored) := by
  constructor
  · show ∀ text ∈ column loaded.lastError current.lastError stored.lastError, Storable text
    rcases column_cases loaded.lastError current.lastError stored.lastError with h | h <;> rw [h]
    · exact hcurrent.1
    · exact hstored.1
  · show ((column loaded.retryCount current.retryCount stored.retryCount : Nat) : Int) ≤ int4Max
    rcases column_cases loaded.retryCount current.retryCount stored.retryCount with h | h <;> rw [h]
    · exact hcurrent.2
    · exact hstored.2

/-- The change of one row, as it is loaded and as it is left. -/
abbrev Mark (E : Type) := OutboxRecord E × OutboxRecord E

/-- A row after the UPDATE of a mark. -/
def Mark.update (mark : Mark E) (row : OutboxRecord E) : OutboxRecord E :=
  if row.id = mark.1.id then marked mark.1 mark.2 row else row

@[simp] theorem Mark.update_id (mark : Mark E) (row : OutboxRecord E) :
    (mark.update row).id = row.id := by
  unfold Mark.update
  split <;> rfl

/-- One UPDATE. -/
def Table.mark (table : Table E) (mark : Mark E) (h : RowFits mark.2) : Table E where
  rows := table.rows.map mark.update
  ids_nodup := by
    rw [List.map_map]
    exact (List.map_congr_left fun row _ => mark.update_id row) ▸ table.ids_nodup
  fit row' h' := by
    obtain ⟨row, hrow, rfl⟩ := List.mem_map.1 h'
    unfold Mark.update
    split
    · exact rowFits_marked h (table.fit row hrow)
    · exact table.fit row hrow

/-- The UPDATEs of a poll's commit. One that is refused takes the transaction with it. -/
def commitMarks : Table E → List (Mark E) → Except DbError (Table E)
  | table, [] => .ok table
  | table, mark :: marks =>
    if h : RowFits mark.2 then
      if ∀ row ∈ table.rows, row.id ≠ mark.1.id then .error .stale
      else commitMarks (table.mark mark h) marks
    else .error .data

/-- A row after all the UPDATEs. -/
def updateAll (marks : List (Mark E)) (row : OutboxRecord E) : OutboxRecord E :=
  marks.foldl (fun row mark => mark.update row) row

@[simp] theorem updateAll_id (marks : List (Mark E)) (row : OutboxRecord E) :
    (updateAll marks row).id = row.id := by
  induction marks generalizing row with
  | nil => rfl
  | cons mark marks ih => exact (ih (mark.update row)).trans (mark.update_id row)

/-- **A batch commits when every value fits and every row is there**; each row is then updated by
its own mark. -/
theorem commitMarks_eq_ok {table table' : Table E} {marks : List (Mark E)} :
    commitMarks table marks = .ok table' ↔
      (∀ mark ∈ marks, RowFits mark.2 ∧ ∃ row ∈ table.rows, row.id = mark.1.id)
        ∧ table'.rows = table.rows.map (updateAll marks) := by
  induction marks generalizing table with
  | nil =>
    show Except.ok table = .ok table' ↔ _
    constructor
    · rintro ⟨⟩
      exact ⟨by simp, (List.map_id' _).symm⟩
    · rintro ⟨-, h⟩
      exact congrArg _ (Table.ext ((List.map_id' _).symm.trans h.symm))
  | cons mark marks ih =>
    have hids : ∀ id, (∃ row ∈ (table.rows.map mark.update), row.id = id)
        ↔ ∃ row ∈ table.rows, row.id = id := by
      intro id
      simp
    unfold commitMarks
    by_cases hfits : RowFits mark.2
    · rw [dif_pos hfits]
      by_cases hthere : ∀ row ∈ table.rows, row.id ≠ mark.1.id
      · rw [if_pos hthere]
        refine ⟨fun h => (nomatch h), fun ⟨hall, _⟩ => ?_⟩
        obtain ⟨row, hrow, hid⟩ := (hall mark List.mem_cons_self).2
        exact absurd hid (hthere row hrow)
      · rw [if_neg hthere, ih]
        push Not at hthere
        have hrows : (table.mark mark hfits).rows.map (updateAll marks)
            = table.rows.map (updateAll (mark :: marks)) := by
          show (table.rows.map mark.update).map (updateAll marks) = _
          rw [List.map_map]
          rfl
        rw [hrows, List.forall_mem_cons]
        simp only [show (table.mark mark hfits).rows = table.rows.map mark.update from rfl, hids]
        exact ⟨fun h => ⟨⟨⟨hfits, hthere⟩, h.1⟩, h.2⟩, fun h => ⟨h.1.2, h.2⟩⟩
    · rw [dif_neg hfits]
      exact ⟨fun h => (nomatch h), fun h => absurd (h.1 mark List.mem_cons_self).1 hfits⟩

theorem exists_commitMarks {table : Table E} {marks : List (Mark E)}
    (h : ∀ mark ∈ marks, RowFits mark.2 ∧ ∃ row ∈ table.rows, row.id = mark.1.id) :
    ∃ table', commitMarks table marks = .ok table' := by
  induction marks generalizing table with
  | nil => exact ⟨table, rfl⟩
  | cons mark marks ih =>
    obtain ⟨⟨hfits, row, hrow, hid⟩, hrest⟩ := List.forall_mem_cons.1 h
    have hthere : ∀ mark' ∈ marks, RowFits mark'.2
        ∧ ∃ row ∈ (table.mark mark hfits).rows, row.id = mark'.1.id := by
      intro mark' hmark'
      obtain ⟨hfits', row', hrow', hid'⟩ := hrest mark' hmark'
      exact ⟨hfits', mark.update row', List.mem_map_of_mem hrow', (mark.update_id row').trans hid'⟩
    obtain ⟨table', htable'⟩ := ih hthere
    refine ⟨table', ?_⟩
    unfold commitMarks
    rw [dif_pos hfits, if_neg fun hnone => hnone row hrow hid]
    exact htable'

/-- A row without a mark stays. -/
theorem updateAll_of_not_mem {marks : List (Mark E)} {row : OutboxRecord E}
    (h : ∀ mark ∈ marks, mark.1.id ≠ row.id) : updateAll marks row = row := by
  induction marks with
  | nil => rfl
  | cons mark marks ih =>
    have hsame : mark.update row = row := if_neg (Ne.symm (h mark List.mem_cons_self))
    show updateAll marks (mark.update row) = row
    rw [hsame]
    exact ih fun mark' hmark' => h mark' (List.mem_cons_of_mem _ hmark')

/-- A row with a mark is updated by it. -/
theorem updateAll_of_mem {marks : List (Mark E)} {mark : Mark E} {row : OutboxRecord E}
    (hnodup : (marks.map fun mark => mark.1.id).Nodup) (hmark : mark ∈ marks)
    (hid : mark.1.id = row.id) : updateAll marks row = marked mark.1 mark.2 row := by
  induction marks generalizing row with
  | nil => cases hmark
  | cons other marks ih =>
    obtain ⟨hfresh, hnodup⟩ := List.nodup_cons.1 hnodup
    show updateAll marks (other.update row) = _
    rcases List.mem_cons.1 hmark with rfl | hmem
    · have hupdate : mark.update row = marked mark.1 mark.2 row := if_pos hid.symm
      rw [hupdate]
      refine updateAll_of_not_mem fun mark' hmark' heq =>
        hfresh (List.mem_map.2 ⟨mark', hmark', ?_⟩)
      exact heq.trans hid.symm
    · have hother : other.update row = row := by
        refine if_neg fun heq => hfresh (List.mem_map.2 ⟨mark, hmem, ?_⟩)
        exact hid.trans heq
      rw [hother]
      exact ih hnodup hmem hid

/-! ## A poll and a prune -/

/-- What happens in the attempt at a row: the handlers that raise, what the logger raises at a call,
and the time at its end. -/
structure Trial (H : Type) where
  raises : H → Option PyStr
  logRaises : LogCall → Option PyStr
  now : Time

/-- Why a poll ends without its commit. -/
inductive PollError where
  /-- the logger raised this -/
  | log (text : PyStr)
  | commit (error : DbError)

/-- The body of the loop: the change of the row. What the logger raises leaves the loop. -/
def attemptRow (wiring : Wiring E Ev H) (maxRetries : Nat) (trial : Trial H)
    (row : OutboxRecord E) : Except PyStr (Mark E) :=
  match attempt wiring trial.raises row with
  | .error reason =>
    match trial.logRaises (failureCall wiring maxRetries row reason) with
    | some text => .error text
    | none => .ok (row, settle maxRetries trial.now row (.error reason))
  | .ok () => .ok (row, settle maxRetries trial.now row (.ok ()))

/-- The loop over the claimed rows. -/
def attemptAll (wiring : Wiring E Ev H) (maxRetries : Nat) (trial : OutboxRecord E → Trial H) :
    List (OutboxRecord E) → Except PyStr (List (Mark E))
  | [] => .ok []
  | row :: rows => do
    let mark ← attemptRow wiring maxRetries (trial row) row
    let marks ← attemptAll wiring maxRetries trial rows
    return mark :: marks

/-- `deliver_pending`: the number of rows claimed, and the table after the commit. -/
def deliverPending (wiring : Wiring E Ev H) (batchSize maxRetries : Nat) (locked : List Uuid)
    (trial : OutboxRecord E → Trial H) (table : Table E) : Except PollError (Nat × Table E) := do
  let rows := claim table locked batchSize
  let marks ← (attemptAll wiring maxRetries trial rows).mapError .log
  let table ← (commitMarks table marks).mapError .commit
  return (rows.length, table)

section Loop

variable (wiring : Wiring E Ev H) (maxRetries : Nat)

/-- The logger takes the failure of this attempt, if it fails. -/
def Logged (trial : Trial H) (row : OutboxRecord E) : Prop :=
  ∀ reason, attempt wiring trial.raises row = .error reason →
    trial.logRaises (failureCall wiring maxRetries row reason) = none

/-- The changes of a loop that ends: each row by its own outcome. -/
def outcomes (trial : OutboxRecord E → Trial H) (rows : List (OutboxRecord E)) : List (Mark E) :=
  rows.map fun row =>
    (row, settle maxRetries (trial row).now row (attempt wiring (trial row).raises row))

variable {wiring maxRetries}

/-- **The body of the loop**: the row is settled by its outcome, if the logger takes it. -/
theorem attemptRow_eq_ok {trial : Trial H} {row : OutboxRecord E} {mark : Mark E} :
    attemptRow wiring maxRetries trial row = .ok mark ↔ Logged wiring maxRetries trial row
      ∧ mark = (row, settle maxRetries trial.now row (attempt wiring trial.raises row)) := by
  unfold attemptRow Logged
  cases attempt wiring trial.raises row with
  | ok u => simp [eq_comm]
  | error reason =>
    dsimp only
    cases hlog : trial.logRaises (failureCall wiring maxRetries row reason) <;>
      simp [hlog, eq_comm]

/-- **The loop ends when the logger takes every failure.** -/
theorem attemptAll_eq_ok {trial : OutboxRecord E → Trial H} {rows : List (OutboxRecord E)}
    {marks : List (Mark E)} : attemptAll wiring maxRetries trial rows = .ok marks ↔
      (∀ row ∈ rows, Logged wiring maxRetries (trial row) row)
        ∧ marks = outcomes wiring maxRetries trial rows := by
  induction rows generalizing marks with
  | nil => simp [attemptAll, outcomes, eq_comm]
  | cons row rows ih =>
    simp only [attemptAll, Except.bind_eq_ok, attemptRow_eq_ok, ih, Except.pure_eq_ok,
      Except.ok.injEq, List.forall_mem_cons]
    constructor
    · rintro ⟨_, ⟨hlogged, rfl⟩, _, ⟨hrest, rfl⟩, rfl⟩
      exact ⟨⟨hlogged, hrest⟩, rfl⟩
    · rintro ⟨⟨hlogged, hrest⟩, rfl⟩
      exact ⟨_, ⟨hlogged, rfl⟩, _, ⟨hrest, rfl⟩, rfl⟩

end Loop

section Poll

variable {wiring : Wiring E Ev H} {batchSize maxRetries : Nat} {locked : List Uuid}
  {trial : OutboxRecord E → Trial H} {table : Table E}

theorem deliverPending_eq_ok {n : Nat} {table' : Table E} :
    deliverPending wiring batchSize maxRetries locked trial table = .ok (n, table') ↔
      n = (claim table locked batchSize).length
        ∧ (∀ row ∈ claim table locked batchSize, Logged wiring maxRetries (trial row) row)
        ∧ commitMarks table (outcomes wiring maxRetries trial (claim table locked batchSize))
          = .ok table' := by
  simp only [deliverPending, Except.bind_eq_ok, Except.mapError_eq_ok, attemptAll_eq_ok,
    Except.pure_eq_ok, Prod.mk.injEq, Except.ok.injEq]
  constructor
  · rintro ⟨_, ⟨hlogged, rfl⟩, _, h, rfl, rfl⟩
    exact ⟨rfl, hlogged, h⟩
  · rintro ⟨rfl, hlogged, h⟩
    exact ⟨_, ⟨hlogged, rfl⟩, _, h, rfl, rfl⟩

/-- The marks of a poll are of rows that are there, each once. -/
theorem outcomes_ids_nodup :
    ((outcomes wiring maxRetries trial (claim table locked batchSize)).map
      fun mark => mark.1.id).Nodup := by
  rw [outcomes, List.map_map]
  exact claim_ids_nodup table locked batchSize

/-- What the commit makes of a claimed row. -/
theorem updateAll_outcomes {row : OutboxRecord E} (h : row ∈ claim table locked batchSize) :
    updateAll (outcomes wiring maxRetries trial (claim table locked batchSize)) row
      = settle maxRetries (trial row).now row (attempt wiring (trial row).raises row) := by
  have hmark : (row, settle maxRetries (trial row).now row (attempt wiring (trial row).raises row))
      ∈ outcomes wiring maxRetries trial (claim table locked batchSize) :=
    List.mem_map.2 ⟨row, h, rfl⟩
  rw [updateAll_of_mem outcomes_ids_nodup hmark rfl]
  exact marked_settle maxRetries _ row _

theorem updateAll_outcomes_of_not_mem {row : OutboxRecord E} (hrow : row ∈ table.rows)
    (h : row ∉ claim table locked batchSize) :
    updateAll (outcomes wiring maxRetries trial (claim table locked batchSize)) row = row := by
  refine updateAll_of_not_mem fun mark hmark heq => h ?_
  obtain ⟨claimed, hclaimed, rfl⟩ := List.mem_map.1 hmark
  exact Table.eq_of_id (mem_claim hclaimed).1 hrow heq ▸ hclaimed

/-- **The rows after a poll**: the claimed ones by their own outcome, the others as they were. -/
theorem mem_deliverPending {n : Nat} {table' : Table E}
    (h : deliverPending wiring batchSize maxRetries locked trial table = .ok (n, table'))
    {row' : OutboxRecord E} (hrow' : row' ∈ table'.rows) : ∃ row ∈ table.rows,
      (row ∈ claim table locked batchSize
        ∧ row' = settle maxRetries (trial row).now row (attempt wiring (trial row).raises row))
      ∨ row ∉ claim table locked batchSize ∧ row' = row := by
  rw [(commitMarks_eq_ok.1 (deliverPending_eq_ok.1 h).2.2).2] at hrow'
  obtain ⟨row, hrow, rfl⟩ := List.mem_map.1 hrow'
  by_cases hclaimed : row ∈ claim table locked batchSize
  · exact ⟨row, hrow, .inl ⟨hclaimed, updateAll_outcomes hclaimed⟩⟩
  · exact ⟨row, hrow, .inr ⟨hclaimed, updateAll_outcomes_of_not_mem hrow hclaimed⟩⟩

end Poll

/-- What `purge_published` may delete: published at or before the cutoff, and not dead-lettered. -/
def Prunable (cutoff : Time) (row : OutboxRecord E) : Prop :=
  (∃ t ∈ row.publishedAt, t ≤ cutoff) ∧ row.deadLetteredAt = none

instance (cutoff : Time) (row : OutboxRecord E) : Decidable (Prunable cutoff row) :=
  inferInstanceAs (Decidable (_ ∧ _))

/-- One DELETE of `purge_published`: up to `batchSize` of the prunable rows, `order` being the order
in which Postgres finds them. -/
def victims (cutoff : Time) (batchSize : Nat) (order : OutboxRecord E → Nat) (table : Table E) :
    List Uuid :=
  (((table.rows.filter fun row => Prunable cutoff row).insertionSort
    fun a b => order a ≤ order b).take
    batchSize).map OutboxRecord.id

/-- The table without these rows. -/
def Table.delete (table : Table E) (ids : List Uuid) : Table E where
  rows := table.rows.filter fun row => row.id ∉ ids
  ids_nodup := table.ids_nodup.sublist (List.filter_sublist.map _)
  fit row h := table.fit row (List.mem_of_mem_filter h)

/-- `purge_published`: statement after statement, at most `maxBatches`, until one deletes less than
it could. -/
def purgePublished (cutoff : Time) (batchSize : Nat) (order : OutboxRecord E → Nat) :
    Nat → Table E → Nat × Table E
  | 0, table => (0, table)
  | batches + 1, table =>
    let ids := victims cutoff batchSize order table
    let table := table.delete ids
    if ids.length < batchSize then (ids.length, table)
    else
      let (deleted, table) := purgePublished cutoff batchSize order batches table
      (ids.length + deleted, table)

theorem mem_victims {cutoff : Time} {batchSize : Nat} {order : OutboxRecord E → Nat}
    {table : Table E} {id : Uuid} (h : id ∈ victims cutoff batchSize order table) :
    ∃ row ∈ table.rows, row.id = id ∧ Prunable cutoff row := by
  obtain ⟨row, hrow, rfl⟩ := List.mem_map.1 h
  have hmem := (List.perm_insertionSort _ _).mem_iff.1 (List.mem_of_mem_take hrow)
  obtain ⟨hmem, hprunable⟩ := List.mem_filter.1 hmem
  exact ⟨row, hmem, rfl, of_decide_eq_true hprunable⟩

/-- A prune only takes rows away. -/
theorem mem_purgePublished {cutoff : Time} {batchSize batches : Nat} {order : OutboxRecord E → Nat}
    {table : Table E} {row : OutboxRecord E}
    (h : row ∈ (purgePublished cutoff batchSize order batches table).2.rows) :
    row ∈ table.rows := by
  induction batches generalizing table with
  | zero => exact h
  | succ batches ih =>
    unfold purgePublished at h
    dsimp only at h
    split at h
    · exact List.mem_of_mem_filter h
    · exact List.mem_of_mem_filter (ih h)

end TaskService.Outbox
