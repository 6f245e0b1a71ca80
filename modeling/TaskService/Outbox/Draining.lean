import TaskService.Lib.Batches
import TaskService.Outbox.Isolation

/-!
# Draining the outbox

A single relay calls `deliver_pending` again and again while nothing is staged. A call whose commit
is refused leaves the table as it was. A deliverable row has `max_retries - retry_count` attempts
left, and at least one; every committed call that claims it takes one away or the row with it.

* **`no_starvation`**: after `max_retries` committed calls for every batch nothing is deliverable.
-/

namespace TaskService.Outbox

open Batches

variable {E Ev H : Type}

/-! ## Calls in a row -/

/-- The table after a call. -/
def afterCall (wiring : Wiring E Ev H) (batchSize maxRetries : Nat) (table : Table E)
    (trial : OutboxRecord E → Trial H) : Table E :=
  match deliverPending wiring batchSize maxRetries [] trial table with
  | .ok (_, table') => table'
  | .error _ => table

/-- The table after some calls. -/
def afterCalls (wiring : Wiring E Ev H) (batchSize maxRetries : Nat)
    (calls : List (OutboxRecord E → Trial H)) (table : Table E) : Table E :=
  calls.foldl (afterCall wiring batchSize maxRetries) table

/-- The call commits. -/
def commits (wiring : Wiring E Ev H) (batchSize maxRetries : Nat) (table : Table E)
    (trial : OutboxRecord E → Trial H) : Bool :=
  (deliverPending wiring batchSize maxRetries [] trial table).isOk

/-- How many of the calls commit. -/
def committed (wiring : Wiring E Ev H) (batchSize maxRetries : Nat) :
    List (OutboxRecord E → Trial H) → Table E → Nat
  | [], _ => 0
  | trial :: calls, table =>
    (if commits wiring batchSize maxRetries table trial then 1 else 0)
      + committed wiring batchSize maxRetries calls
        (afterCall wiring batchSize maxRetries table trial)

/-- How many of the committed calls attempt a row. -/
def attempts (wiring : Wiring E Ev H) (batchSize maxRetries : Nat) (id : Uuid) :
    List (OutboxRecord E → Trial H) → Table E → Nat
  | [], _ => 0
  | trial :: calls, table =>
    (if commits wiring batchSize maxRetries table trial
        ∧ id ∈ (claim table [] batchSize).map OutboxRecord.id then 1 else 0)
      + attempts wiring batchSize maxRetries id calls
        (afterCall wiring batchSize maxRetries table trial)

/-! ## The queue -/

/-- All rows in the order of the claim. -/
def queue (table : Table E) : List Uuid := (table.rows.insertionSort Before).map OutboxRecord.id

/-- How many attempts a row has left. -/
def attemptsLeft (maxRetries : Nat) (row : OutboxRecord E) : Nat :=
  if Deliverable row then max 1 (maxRetries - row.retryCount) else 0

/-- The attempts left of each row, by its id. -/
def turnsOf (maxRetries : Nat) (table : Table E) (id : Uuid) : Nat :=
  match table.rows.find? fun row => row.id = id with
  | some row => attemptsLeft maxRetries row
  | none => 0

theorem turnsOf_row {maxRetries : Nat} {table : Table E} {row : OutboxRecord E}
    (hrow : row ∈ table.rows) : turnsOf maxRetries table row.id = attemptsLeft maxRetries row := by
  unfold turnsOf
  cases hfind : table.rows.find? (fun other => decide (other.id = row.id)) with
  | none => exact absurd (decide_eq_true rfl) (List.find?_eq_none.mp hfind row hrow)
  | some other =>
    have hid : other.id = row.id := by simpa using List.find?_some hfind
    rw [Table.eq_of_id (List.mem_of_find?_eq_some hfind) hrow hid]

theorem attemptsLeft_pos_iff {maxRetries : Nat} {row : OutboxRecord E} :
    0 < attemptsLeft maxRetries row ↔ Deliverable row := by
  unfold attemptsLeft
  split
  next h => exact ⟨fun _ => h, fun _ => by omega⟩
  next h => exact ⟨fun hpos => absurd hpos (Nat.lt_irrefl 0), fun hrow => absurd hrow h⟩

theorem attemptsLeft_le {maxRetries : Nat} (hm : 1 ≤ maxRetries) (row : OutboxRecord E) :
    attemptsLeft maxRetries row ≤ maxRetries := by
  unfold attemptsLeft
  split <;> omega

theorem turnsOf_le {maxRetries : Nat} (hm : 1 ≤ maxRetries) (table : Table E) (id : Uuid) :
    turnsOf maxRetries table id ≤ maxRetries := by
  unfold turnsOf
  split
  · exact attemptsLeft_le hm _
  · exact Nat.zero_le _

/-- An attempt takes one away. -/
theorem attemptsLeft_settle {maxRetries : Nat} {now : Time} {row : OutboxRecord E}
    (hrow : Deliverable row) (outcome : Except PyStr Unit) :
    attemptsLeft maxRetries (settle maxRetries now row outcome) < attemptsLeft maxRetries row := by
  have hleft : attemptsLeft maxRetries row = max 1 (maxRetries - row.retryCount) := if_pos hrow
  cases outcome with
  | ok u =>
    have hgone : attemptsLeft maxRetries (settle maxRetries now row (.ok u)) = 0 :=
      if_neg fun h => nomatch h.1
    omega
  | error reason =>
    by_cases hdead : maxRetries ≤ row.retryCount + 1
    · have hgone : attemptsLeft maxRetries (settle maxRetries now row (.error reason)) = 0 := by
        unfold settle
        dsimp only
        rw [if_pos hdead]
        exact if_neg fun h => nomatch h.2
      omega
    · have hfailed : attemptsLeft maxRetries (settle maxRetries now row (.error reason))
          ≤ max 1 (maxRetries - (row.retryCount + 1)) := by
        unfold settle
        dsimp only
        rw [if_neg hdead]
        unfold attemptsLeft
        split
        · exact Nat.le_refl _
        · exact Nat.zero_le _
      omega

/-! ## A claim takes the head of the queue -/

/-- The order, on numbers. -/
theorem before_iff {a b : OutboxRecord E} : Before a b ↔
    @LT.lt Nat _ a.occurredAt b.occurredAt
      ∨ @Eq Nat a.occurredAt b.occurredAt ∧ @LE.le Nat _ a.id b.id := Iff.rfl

instance : Std.Total (@Before E) where
  total a b := by
    rw [before_iff, before_iff]
    omega

instance : IsTrans (OutboxRecord E) Before where
  trans a b c hab hbc := by
    rw [before_iff] at *
    omega

/-- The deliverable rows in order are those of all rows in order. -/
theorem insertionSort_available (table : Table E) :
    (available table []).insertionSort Before
      = (table.rows.insertionSort Before).filter fun row => Deliverable row := by
  have havailable : available table [] = table.rows.filter fun row => Deliverable row := by
    refine List.filter_congr fun row _ => ?_
    simp
  rw [havailable]
  have hperm : ((table.rows.filter fun row => Deliverable row).insertionSort Before).Perm
      ((table.rows.insertionSort Before).filter fun row => Deliverable row) :=
    (List.perm_insertionSort _ _).trans ((List.perm_insertionSort _ _).symm.filter _)
  refine hperm.eq_of_pairwise ?_ (List.pairwise_insertionSort Before _)
    ((List.pairwise_insertionSort Before _).filter _)
  -- two rows that each come before the other are one row
  intro a b ha hb hab hba
  have hrow : ∀ row, row ∈ (table.rows.filter fun row => Deliverable row).insertionSort Before →
      row ∈ table.rows :=
    fun row h => List.mem_of_mem_filter ((List.mem_insertionSort Before).mp h)
  refine Table.eq_of_id (hrow a ha) (hrow b (hperm.mem_iff.mpr hb)) ?_
  rw [before_iff] at hab hba
  show @Eq Nat a.id b.id
  omega

/-- **A claim takes the head** of the rows with an attempt left. -/
theorem claim_ids (maxRetries batchSize : Nat) (table : Table E) :
    (claim table [] batchSize).map OutboxRecord.id
      = (waiting (turnsOf maxRetries table) (queue table)).take batchSize := by
  have hwaiting : ((table.rows.insertionSort Before).filter fun row => Deliverable row)
      = (table.rows.insertionSort Before).filter
          ((fun id => decide (0 < turnsOf maxRetries table id)) ∘ OutboxRecord.id) := by
    refine List.filter_congr fun row hrow => ?_
    rw [Function.comp_apply, turnsOf_row ((List.mem_insertionSort Before).mp hrow)]
    exact decide_eq_decide.mpr attemptsLeft_pos_iff.symm
  rw [claim, insertionSort_available, hwaiting, List.map_take, waiting, queue, List.filter_map]

/-- As many rows wait as are deliverable. -/
theorem length_waiting (maxRetries : Nat) (table : Table E) :
    (waiting (turnsOf maxRetries table) (queue table)).length = (available table []).length := by
  have hall := congrArg List.length (claim_ids maxRetries (queue table).length table)
  have hle : (waiting (turnsOf maxRetries table) (queue table)).length ≤ (queue table).length :=
    List.length_filter_le _ _
  have hle' : (available table []).length ≤ (queue table).length := by
    rw [queue, List.length_map, List.length_insertionSort]
    exact List.length_filter_le _ _
  rw [List.length_map, length_claim, List.length_take, Nat.min_eq_right hle',
    Nat.min_eq_right hle] at hall
  exact hall.symm

/-! ## A committed call is a round -/

section Call

variable {wiring : Wiring E Ev H} {batchSize maxRetries : Nat} {trial : OutboxRecord E → Trial H}
  {table : Table E}

/-- A commit changes neither the time of an event nor the event. -/
theorem updateAll_occurrence (marks : List (Mark E)) (row : OutboxRecord E) :
    (updateAll marks row).occurredAt = row.occurredAt
      ∧ (updateAll marks row).event = row.event := by
  induction marks generalizing row with
  | nil => exact ⟨rfl, rfl⟩
  | cons mark marks ih =>
    have hupdate : (mark.update row).occurredAt = row.occurredAt
        ∧ (mark.update row).event = row.event := by
      unfold Mark.update
      split <;> exact ⟨rfl, rfl⟩
    obtain ⟨htime, hevent⟩ := ih (mark.update row)
    exact ⟨htime.trans hupdate.1, hevent.trans hupdate.2⟩

/-- What a committed call leaves. -/
theorem rows_afterCall (h : commits wiring batchSize maxRetries table trial = true) :
    (afterCall wiring batchSize maxRetries table trial).rows = table.rows.map
      (updateAll (outcomes wiring maxRetries trial (claim table [] batchSize))) := by
  unfold commits at h
  unfold afterCall
  cases hcall : deliverPending wiring batchSize maxRetries [] trial table with
  | error e =>
    rw [hcall] at h
    cases h
  | ok result => exact (commitMarks_eq_ok.mp (deliverPending_eq_ok.mp hcall).2.2).2

theorem afterCall_of_refused (h : commits wiring batchSize maxRetries table trial = false) :
    afterCall wiring batchSize maxRetries table trial = table := by
  unfold commits at h
  unfold afterCall
  cases hcall : deliverPending wiring batchSize maxRetries [] trial table with
  | error e => rfl
  | ok result =>
    rw [hcall] at h
    cases h

/-- The order of the rows stays. -/
theorem queue_afterCall : queue (afterCall wiring batchSize maxRetries table trial)
    = queue table := by
  cases hcommits : commits wiring batchSize maxRetries table trial with
  | false => rw [afterCall_of_refused hcommits]
  | true =>
    rw [queue, rows_afterCall hcommits, ← List.map_insertionSort Before, List.map_map, queue]
    · exact List.map_congr_left fun row _ => updateAll_id _ row
    · intro a _ b _
      unfold Before
      rw [(updateAll_occurrence _ a).1, (updateAll_occurrence _ b).1, updateAll_id, updateAll_id]

/-- What a committed call makes of the attempts left of a row. -/
theorem turnsOf_afterCall (h : commits wiring batchSize maxRetries table trial = true)
    {row : OutboxRecord E} (hrow : row ∈ table.rows) :
    turnsOf maxRetries (afterCall wiring batchSize maxRetries table trial) row.id
      = attemptsLeft maxRetries
        (updateAll (outcomes wiring maxRetries trial (claim table [] batchSize)) row) := by
  have hmem : updateAll (outcomes wiring maxRetries trial (claim table [] batchSize)) row
      ∈ (afterCall wiring batchSize maxRetries table trial).rows :=
    rows_afterCall h ▸ List.mem_map_of_mem hrow
  rw [← turnsOf_row hmem, updateAll_id]

theorem round_afterCall (h : commits wiring batchSize maxRetries table trial = true) :
    Round batchSize (queue table) (turnsOf maxRetries table)
      (turnsOf maxRetries (afterCall wiring batchSize maxRetries table trial)) := by
  have hlt : ∀ row ∈ claim table [] batchSize,
      turnsOf maxRetries (afterCall wiring batchSize maxRetries table trial) row.id
        < turnsOf maxRetries table row.id := by
    intro row hclaimed
    obtain ⟨hrow, hdeliverable, _⟩ := mem_claim hclaimed
    rw [turnsOf_afterCall h hrow, turnsOf_row hrow, updateAll_outcomes hclaimed]
    exact attemptsLeft_settle hdeliverable _
  constructor
  · intro id
    by_cases hthere : ∃ row ∈ table.rows, row.id = id
    · obtain ⟨row, hrow, rfl⟩ := hthere
      by_cases hclaimed : row ∈ claim table [] batchSize
      · exact Nat.le_of_lt (hlt row hclaimed)
      · rw [turnsOf_afterCall h hrow, turnsOf_row hrow,
          updateAll_outcomes_of_not_mem hrow hclaimed]
    · have hnone : (afterCall wiring batchSize maxRetries table trial).rows.find?
          (fun row => decide (row.id = id)) = none := by
        rw [List.find?_eq_none, rows_afterCall h]
        intro row' hrow'
        obtain ⟨row, hrow, rfl⟩ := List.mem_map.mp hrow'
        rw [updateAll_id]
        exact fun heq => hthere ⟨row, hrow, of_decide_eq_true heq⟩
      unfold turnsOf
      rw [hnone]
      exact Nat.zero_le _
  · intro id hid
    rw [← claim_ids] at hid
    obtain ⟨row, hclaimed, rfl⟩ := List.mem_map.mp hid
    exact hlt row hclaimed

end Call

/-! ## A run of calls -/

section Run

variable (wiring : Wiring E Ev H) {batchSize maxRetries : Nat}
  (calls : List (OutboxRecord E → Trial H)) (table : Table E)

theorem afterCalls_cons (trial : OutboxRecord E → Trial H) :
    afterCalls wiring batchSize maxRetries (trial :: calls) table = afterCalls wiring batchSize
      maxRetries calls (afterCall wiring batchSize maxRetries table trial) := rfl

theorem queue_afterCalls :
    queue (afterCalls wiring batchSize maxRetries calls table) = queue table := by
  induction calls generalizing table with
  | nil => rfl
  | cons trial calls ih => exact (ih _).trans queue_afterCall

/-- The committed calls are rounds. -/
theorem rounds_afterCalls : Rounds batchSize (queue table)
    (committed wiring batchSize maxRetries calls table) (turnsOf maxRetries table)
    (turnsOf maxRetries (afterCalls wiring batchSize maxRetries calls table)) := by
  induction calls generalizing table with
  | nil => exact .done _
  | cons trial calls ih =>
    have hrest := ih (afterCall wiring batchSize maxRetries table trial)
    rw [queue_afterCall] at hrest
    rw [committed, afterCalls_cons]
    cases hcommits : commits wiring batchSize maxRetries table trial with
    | false =>
      rw [afterCall_of_refused hcommits] at hrest ⊢
      rw [if_neg (by decide), Nat.zero_add]
      exact hrest
    | true =>
      rw [if_pos rfl, Nat.add_comm]
      exact .next (round_afterCall hcommits) hrest

/-- The attempts made and the attempts left are no more than were left at the start. -/
theorem attempts_add_turnsOf_le (id : Uuid) :
    attempts wiring batchSize maxRetries id calls table
        + turnsOf maxRetries (afterCalls wiring batchSize maxRetries calls table) id
      ≤ turnsOf maxRetries table id := by
  induction calls generalizing table with
  | nil => exact Nat.le_of_eq (Nat.zero_add _)
  | cons trial calls ih =>
    have hrest := ih (afterCall wiring batchSize maxRetries table trial)
    rw [attempts, afterCalls_cons]
    split
    next h =>
      -- The call claims the row, and takes a turn off it; no call adds one.
      have hround := (round_afterCall h.1).lt id (claim_ids maxRetries batchSize table ▸ h.2)
      omega
    next =>
      have hle : turnsOf maxRetries (afterCall wiring batchSize maxRetries table trial) id
          ≤ turnsOf maxRetries table id := by
        cases hcommits : commits wiring batchSize maxRetries table trial with
        | false => rw [afterCall_of_refused hcommits]
        | true => exact (round_afterCall hcommits).le id
      omega

/-- No row and no event goes missing. -/
theorem mem_afterCalls {row : OutboxRecord E} (h : row ∈ table.rows) :
    ∃ row' ∈ (afterCalls wiring batchSize maxRetries calls table).rows,
      row'.id = row.id ∧ row'.event = row.event := by
  induction calls generalizing table row with
  | nil => exact ⟨row, h, rfl, rfl⟩
  | cons trial calls ih =>
    rw [afterCalls_cons]
    cases hcommits : commits wiring batchSize maxRetries table trial with
    | false =>
      rw [afterCall_of_refused hcommits]
      exact ih table h
    | true =>
      have hrow := rows_afterCall hcommits ▸ List.mem_map_of_mem h
      obtain ⟨row', hrow', hid, hevent⟩ := ih _ hrow
      exact ⟨row', hrow', hid.trans (updateAll_id _ row),
        hevent.trans (updateAll_occurrence _ row).2⟩

end Run

/-- **No starvation**: when as many calls have committed as `max_retries` for every batch of the
deliverable rows, no row is deliverable any more. Each of them is there, published or dead-lettered,
after at most `max_retries` attempts. -/
theorem no_starvation (wiring : Wiring E Ev H) {batchSize maxRetries : Nat} (hbatch : 1 ≤ batchSize)
    (hretries : 1 ≤ maxRetries) (calls : List (OutboxRecord E → Trial H)) (table : Table E)
    (hcalls : maxRetries * (((available table []).length + batchSize - 1) / batchSize)
      ≤ committed wiring batchSize maxRetries calls table) :
    (∀ row ∈ (afterCalls wiring batchSize maxRetries calls table).rows, ¬ Deliverable row)
      ∧ ∀ row ∈ table.rows, Deliverable row →
        (∃ row' ∈ (afterCalls wiring batchSize maxRetries calls table).rows,
          row'.id = row.id ∧ row'.event = row.event
            ∧ (row'.publishedAt ≠ none ∨ row'.deadLetteredAt ≠ none))
        ∧ attempts wiring batchSize maxRetries row.id calls table ≤ maxRetries := by
  -- The deliverable rows fill at most `⌈n / batchSize⌉` batches.
  have hlen : (waiting (turnsOf maxRetries table) (queue table)).length
      ≤ ((available table []).length + batchSize - 1) / batchSize * batchSize := by
    rw [length_waiting]
    have hdiv := Nat.div_add_mod' ((available table []).length + batchSize - 1) batchSize
    have hmod := Nat.mod_lt ((available table []).length + batchSize - 1) hbatch
    omega
  have hgone := (rounds_afterCalls wiring calls table).all_gone (turnsOf_le hretries table) hlen
    hcalls
  have hdone : ∀ row ∈ (afterCalls wiring batchSize maxRetries calls table).rows,
      ¬ Deliverable row := by
    intro row hrow hdeliverable
    have hid : row.id ∈ queue table := by
      rw [← queue_afterCalls wiring calls table]
      exact List.mem_map_of_mem ((List.mem_insertionSort Before).mpr hrow)
    -- A row that could still be delivered would have turns left, and none has.
    have hwaits : row.id ∈ waiting (turnsOf maxRetries
        (afterCalls wiring batchSize maxRetries calls table)) (queue table) := by
      refine mem_waiting.mpr ⟨hid, ?_⟩
      rw [turnsOf_row hrow]
      exact attemptsLeft_pos_iff.mpr hdeliverable
    rw [hgone] at hwaits
    cases hwaits
  refine ⟨hdone, fun row hrow _ => ⟨?_, ?_⟩⟩
  · obtain ⟨row', hrow', hid, hevent⟩ := mem_afterCalls wiring calls table hrow
    exact ⟨row', hrow', hid, hevent, not_and_or.mp (hdone row' hrow')⟩
  · calc attempts wiring batchSize maxRetries row.id calls table
        ≤ attempts wiring batchSize maxRetries row.id calls table + turnsOf maxRetries
            (afterCalls wiring batchSize maxRetries calls table) row.id := Nat.le_add_right _ _
      _ ≤ turnsOf maxRetries table row.id := attempts_add_turnsOf_le wiring calls table row.id
      _ ≤ maxRetries := turnsOf_le hretries table row.id

/-! ## A row that always fails -/

/-- The handler raises for the first row, and completes for the second. -/
def firstDown (row : OutboxRecord Unit) : Trial Unit :=
  ⟨fun _ => if row.id = 1 then some (py "down") else none, fun _ => none, 9⟩

/-- One row a call, two attempts a row: the failing row holds the other one up for two calls. -/
theorem no_starvation_firstDown :
    committed oneHandler 1 2 (List.replicate 4 firstDown) twoPending = 4
      ∧ (afterCalls oneHandler 1 2 (List.replicate 2 firstDown) twoPending).rows.map
          (fun row => (row.publishedAt, row.deadLetteredAt)) = [(none, some 9), (none, none)]
      ∧ ∀ row ∈ (afterCalls oneHandler 1 2 (List.replicate 4 firstDown) twoPending).rows,
          ¬ Deliverable row :=
  ⟨rfl, rfl, (no_starvation oneHandler (by decide) (by decide) _ _ (by decide)).1⟩

end TaskService.Outbox
