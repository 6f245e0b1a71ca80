import TaskService.Outbox.Delivery

/-!
# One commit for a batch

The outcomes of a batch share one commit. It leaves each row with its own outcome, unless the logger
raises for the text of some failure, or the text cannot be stored: then the whole batch is as it
was.

* **`isolated_iff`**: exactly when a poll commits and treats every row by itself.
* **`poisoned_batch`**: one text that cannot be stored, and one that cannot be logged.
-/

namespace TaskService.Outbox

open Store

variable {E Ev H : Type}

/-- The row after its outcome. Delivered: `published_at`, and nothing else. Failed: one more retry,
the text of the exception up to its 1000th character, and a dead letter from `max_retries` on. -/
def Outcome (maxRetries : Nat) (now : Time) (row row' : OutboxRecord E) :
    Except PyStr Unit → Prop
  | .ok () => row' = { row with publishedAt := some now }
  | .error reason => row' = { row with
      retryCount := row.retryCount + 1
      lastError := some (reason.take 1000)
      deadLetteredAt := if maxRetries ≤ row.retryCount + 1 then some now else none }

theorem outcome_iff {maxRetries : Nat} {now : Time} {row row' : OutboxRecord E}
    (h : Deliverable row) {outcome : Except PyStr Unit} :
    Outcome maxRetries now row row' outcome ↔ row' = settle maxRetries now row outcome := by
  cases outcome with
  | ok u => exact Iff.rfl
  | error reason =>
    show row' = _ ↔ row' = if _ then _ else _
    by_cases hdead : maxRetries ≤ row.retryCount + 1
    · rw [if_pos hdead, if_pos hdead]
      rfl
    · rw [if_neg hdead, if_neg hdead, ← h.2]
      rfl

variable (wiring : Wiring E Ev H) (batchSize maxRetries : Nat) (locked : List Uuid)
  (trial : OutboxRecord E → Trial H) (table : Table E)

/-- The poll commits; each claimed row has its own outcome, and the other rows are as they were. -/
def Isolated : Prop :=
  ∃ table', deliverPending wiring batchSize maxRetries locked trial table
      = .ok ((claim table locked batchSize).length, table')
    ∧ List.Forall₂ (fun row row' =>
        (row ∈ claim table locked batchSize → Outcome maxRetries (trial row).now row row'
          (attempt wiring (trial row).raises row))
        ∧ (row ∉ claim table locked batchSize → row' = row)) table.rows table'.rows

variable {wiring batchSize maxRetries locked trial table}

/-- A row the loop leaves fits its columns unless it failed for a text that does not, or
too often. -/
theorem rowFits_settle {row : OutboxRecord E} (hrow : RowFits row) {now : Time}
    {outcome : Except PyStr Unit} : RowFits (settle maxRetries now row outcome) ↔
      ∀ reason, outcome = .error reason →
        Storable (reason.take lastErrorMaxLength) ∧ (row.retryCount : Int) + 1 ≤ int4Max := by
  cases outcome with
  | ok u => exact ⟨fun _ _ h => (nomatch h), fun _ => hrow⟩
  | error reason =>
    have hfits : RowFits (settle maxRetries now row (.error reason)) ↔
        Storable (reason.take lastErrorMaxLength) ∧ (row.retryCount : Int) + 1 ≤ int4Max := by
      dsimp only [settle]
      split <;> simp [RowFits]
    rw [hfits]
    exact ⟨fun h _ heq => Except.error.inj heq ▸ h, fun h => h reason rfl⟩

/-- **A batch is isolated exactly when every failure can be logged and stored**: the logger takes
the call with the whole text of each exception; the text, up to its 1000th character, is free of
U+0000 and of surrogates; and no retry count is at its maximum. -/
theorem isolated_iff : Isolated wiring batchSize maxRetries locked trial table ↔
    ∀ row ∈ claim table locked batchSize, ∀ reason,
      attempt wiring (trial row).raises row = .error reason →
      (trial row).logRaises (failureCall wiring maxRetries row reason) = none
        ∧ Storable (reason.take 1000) ∧ (row.retryCount : Int) + 1 ≤ int4Max := by
  have hfits : (∀ mark ∈ outcomes wiring maxRetries trial (claim table locked batchSize),
      RowFits mark.2 ∧ ∃ row ∈ table.rows, row.id = mark.1.id) ↔
      ∀ row ∈ claim table locked batchSize, ∀ reason,
        attempt wiring (trial row).raises row = .error reason →
        Storable (reason.take 1000) ∧ (row.retryCount : Int) + 1 ≤ int4Max := by
    unfold outcomes
    rw [List.forall_mem_map]
    refine forall₂_congr fun row hrow => ?_
    have hmem := (mem_claim hrow).1
    rw [rowFits_settle (table.fit row hmem)]
    exact and_iff_left ⟨row, hmem, rfl⟩
  constructor
  · rintro ⟨table', heq, -⟩ row hclaimed reason hreason
    obtain ⟨-, hlogged, hcommit⟩ := deliverPending_eq_ok.1 heq
    exact ⟨hlogged row hclaimed reason hreason,
      hfits.1 (commitMarks_eq_ok.1 hcommit).1 row hclaimed reason hreason⟩
  · intro hall
    -- the loop ends and the commit succeeds: it updates every row by its own mark
    obtain ⟨table', htable'⟩ := exists_commitMarks (hfits.2 fun row hclaimed reason hreason =>
      (hall row hclaimed reason hreason).2)
    have hlogged : ∀ row ∈ claim table locked batchSize, Logged wiring maxRetries (trial row) row :=
      fun row hclaimed reason hreason => (hall row hclaimed reason hreason).1
    refine ⟨table', deliverPending_eq_ok.2 ⟨rfl, hlogged, htable'⟩, ?_⟩
    rw [(commitMarks_eq_ok.1 htable').2, List.forall₂_map_right_iff, List.forall₂_same]
    intro row hrow
    refine ⟨fun hclaimed => ?_, fun hclaimed => updateAll_outcomes_of_not_mem hrow hclaimed⟩
    rw [outcome_iff (mem_claim hclaimed).2.1]
    exact updateAll_outcomes hclaimed

/-! ## A text that cannot be stored, and one that cannot be logged -/

/-- Two pending rows. -/
def twoPending : Table Unit where
  rows := [⟨1, (), 1, none, none, 0, none⟩, ⟨2, (), 2, none, none, 0, none⟩]
  ids_nodup := by decide
  fit := by decide

/-- One handler for every event. -/
def oneHandler : Wiring Unit Unit Unit := ⟨fun _ => py "Ping", fun _ => .ok (), fun _ => [()]⟩

/-- A logger that writes its lines as UTF-8, which has no surrogates. -/
def utf8Logger (call : LogCall) : Option PyStr :=
  if Encodable call.error then none else some (py "surrogates not allowed")

/-- The handler completes for the second row, and raises for the first with this text. -/
def raisingTrial (text : PyStr) (row : OutboxRecord Unit) : Trial Unit :=
  ⟨fun _ => if row.id = 1 then some text else none, utf8Logger, 9⟩

/-- A surrogate past 1000 letters a, so that the row does not keep it. -/
def lateSurrogate : PyStr := List.replicate 1000 97 ++ [0xD800]

/-- The text U+0000 is logged and refused by the commit; the late surrogate could be stored, but the
logger raises. Neither leaves the delivery of the second row committed. -/
theorem poisoned_batch : ¬ Isolated oneHandler 100 300 [] (raisingTrial [0]) twoPending
    ∧ deliverPending oneHandler 100 300 [] (raisingTrial [0]) twoPending = .error (.commit .data)
    ∧ (claim twoPending [] 100).map (fun row =>
        (row.id, attempt oneHandler (raisingTrial [0] row).raises row))
          = [(1, .error [0]), (2, .ok ())]
    ∧ ¬ Isolated oneHandler 100 300 [] (raisingTrial lateSurrogate) twoPending
    ∧ deliverPending oneHandler 100 300 [] (raisingTrial lateSurrogate) twoPending
      = .error (.log (py "surrogates not allowed"))
    ∧ Storable (lateSurrogate.take 1000) := by
  have hrefused : deliverPending oneHandler 100 300 [] (raisingTrial [0]) twoPending
      = .error (.commit .data) := rfl
  have hlog : utf8Logger (failureCall oneHandler 300 ⟨1, (), 1, none, none, 0, none⟩ lateSurrogate)
      = some (py "surrogates not allowed") := if_neg (by decide +kernel)
  have hraised : deliverPending oneHandler 100 300 [] (raisingTrial lateSurrogate) twoPending
      = .error (.log (py "surrogates not allowed")) := by
    rw [deliverPending, show claim twoPending [] 100 = twoPending.rows from rfl, twoPending,
      attemptAll]
    unfold attemptRow
    rw [show attempt oneHandler (raisingTrial lateSurrogate ⟨1, (), 1, none, none, 0, none⟩).raises
      ⟨1, (), 1, none, none, 0, none⟩ = .error lateSurrogate from rfl]
    dsimp only
    rw [show (raisingTrial lateSurrogate ⟨1, (), 1, none, none, 0, none⟩).logRaises = utf8Logger
      from rfl, hlog]
    rfl
  refine ⟨?_, hrefused, rfl, ?_, hraised, by decide +kernel⟩
  · rintro ⟨table', h, -⟩
    rw [hrefused] at h
    cases h
  · rintro ⟨table', h, -⟩
    rw [hraised] at h
    cases h

end TaskService.Outbox
