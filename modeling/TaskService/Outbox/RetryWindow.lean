import TaskService.Outbox.Relays

/-!
# The retry window

The loop of one `OutboxRelay`: a tick, a prune now and then, and a sleep of `poll_interval` only
when the tick claimed less than a full batch. A failed attempt costs a row one of its `max_retries`;
the outage it survives is counted in the sleeps since its first failed attempt. The loop also
remembers these, which no step reads.

* **`retry_window`**: a row outlasts `max_retries - 1` sleeps in every run in which no full batch
  has a row that fails and has retries left.
* **`full_batch_burns_retries`**: a run without that.
-/

namespace TaskService.Outbox

open Store

variable {E Ev H : Type}

/-- The fields of an `OutboxRelay` that its loop reads. -/
structure Relay (E Ev H : Type) where
  wiring : Wiring E Ev H
  batchSize : Nat
  maxRetries : Nat

/-- Before a tick, or after one that returned this number. -/
inductive Phase where
  | tick
  | ticked (processed : Nat)

/-- The outbox, the place in the loop and the number of sleeps; then, of each row, the number of
sleeps at its first failed attempt, the rows known to start without retries, and the ids ever used.
-/
structure Loop (E : Type) where
  table : Table E
  phase : Phase
  slept : Nat
  firstFailed : Uuid → Option Nat
  tracked : List Uuid
  seen : List Uuid

/-- The loop starts over any outbox. -/
def Loop.start (table : Table E) : Loop E where
  table := table
  phase := .tick
  slept := 0
  firstFailed _ := none
  tracked := (table.rows.filter fun row => row.retryCount = 0).map OutboxRecord.id
  seen := table.rows.map OutboxRecord.id

inductive LoopAction (E H : Type) where
  /-- a write commits with these events -/
  | stage (rows : List (OutboxRecord E))
  | tick (trial : OutboxRecord E → Trial H)
  /-- a tick that fails before it attempts any row -/
  | tickFailed
  | cleanup (cutoff : Time) (batchSize maxBatches : Nat) (order : OutboxRecord E → Nat)
  | pause

namespace Relay

variable (relay : Relay E Ev H)

/-- The rows that the loop gets to: none after one at which the logger raises. -/
def attempted (trial : OutboxRecord E → Trial H) : List (OutboxRecord E) → List (OutboxRecord E)
  | [] => []
  | row :: rows =>
    match attemptRow relay.wiring relay.maxRetries (trial row) row with
    | .ok _ => row :: attempted trial rows
    | .error _ => [row]

/-- The rows whose attempt fails. -/
def failing (trial : OutboxRecord E → Trial H) (s : Loop E) : List Uuid :=
  ((relay.attempted trial (claim s.table [] relay.batchSize)).filter fun row =>
    (attempt relay.wiring (trial row).raises row).isOk = false).map OutboxRecord.id

/-- `_run`, step by step. A tick that raises returns 0, once the logger has taken the exception; if
it does not, the loop is at its end. -/
def step (s : Loop E) : LoopAction E H → Option (Loop E)
  | .stage rows =>
    if ∀ row ∈ rows, row.id ∉ s.seen then
      (s.table.insert rows).map fun table => { s with
        table
        tracked := s.tracked ++ rows.map OutboxRecord.id
        seen := s.seen ++ rows.map OutboxRecord.id }
    else none
  | .tick trial =>
    match s.phase with
    | .ticked _ => none
    | .tick =>
      let firstFailed := fun id =>
        if id ∈ relay.failing trial s then (s.firstFailed id).or (some s.slept)
        else s.firstFailed id
      match deliverPending relay.wiring relay.batchSize relay.maxRetries [] trial s.table with
      | .ok (processed, table) => some { s with table, phase := .ticked processed, firstFailed }
      | .error _ => some { s with phase := .ticked 0, firstFailed }
  | .tickFailed =>
    match s.phase with
    | .ticked _ => none
    | .tick => some { s with phase := .ticked 0 }
  | .cleanup cutoff batchSize maxBatches order =>
    match s.phase with
    | .tick => none
    | .ticked _ => some { s with
        table := (purgePublished cutoff batchSize order maxBatches s.table).2 }
  | .pause =>
    match s.phase with
    | .tick => none
    | .ticked processed => some { s with
        phase := .tick
        slept := if processed < relay.batchSize then s.slept + 1 else s.slept }

/-- At a tick in which a claimed row fails that has retries left, fewer rows than a batch are
deliverable. -/
def Paced (s : Loop E) : LoopAction E H → Prop
  | .tick trial => ∀ row ∈ claim s.table [] relay.batchSize,
      attempt relay.wiring (trial row).raises row ≠ .ok () → row.retryCount + 1 < relay.maxRetries →
      (available s.table []).length < relay.batchSize
  | _ => True

/-- A row that is dead-lettered now, and was staged without retries, had its first failed attempt at
least `max_retries - 1` sleeps ago. -/
def Windowed (s s' : Loop E) : Prop :=
  ∀ row ∈ s.table.rows, ∀ row' ∈ s'.table.rows, row'.id = row.id → row.id ∈ s.tracked →
    row.deadLetteredAt = none → row'.deadLetteredAt ≠ none →
    ∃ first, s'.firstFailed row.id = some first ∧ first + (relay.maxRetries - 1) ≤ s'.slept

/-! ## The invariant -/

/-- The number of sleeps once the loop is back at a tick. -/
def due (s : Loop E) : Nat :=
  match s.phase with
  | .tick => s.slept
  | .ticked processed => if processed < relay.batchSize then s.slept + 1 else s.slept

/-- A live row has had a sleep for each of its failed attempts. -/
structure Inv (s : Loop E) : Prop where
  seen : ∀ row ∈ s.table.rows, row.id ∈ s.seen
  tracked : ∀ id ∈ s.tracked, id ∈ s.seen
  unseen : ∀ id, id ∉ s.seen → s.firstFailed id = none
  window : ∀ row ∈ s.table.rows, row.id ∈ s.tracked → row.deadLetteredAt = none →
    (∀ first, s.firstFailed row.id = some first → first + row.retryCount ≤ relay.due s)
    ∧ (s.firstFailed row.id = none → row.retryCount = 0)

variable {relay} {s s' : Loop E}

theorem slept_le_due (s : Loop E) : s.slept ≤ relay.due s := by
  unfold due
  split
  · exact Nat.le_refl _
  · split <;> omega

theorem inv_start (table : Table E) : relay.Inv (.start table) where
  seen row hrow := List.mem_map_of_mem hrow
  tracked id hid := by
    obtain ⟨row, hrow, rfl⟩ := List.mem_map.1 hid
    exact List.mem_map_of_mem (List.mem_of_mem_filter hrow)
  unseen _ _ := rfl
  window row hrow hid _ := by
    refine ⟨fun _ h => (nomatch h), fun _ => ?_⟩
    obtain ⟨row', hrow', hsame⟩ := List.mem_map.1 hid
    obtain ⟨hmem, hretry⟩ := List.mem_filter.1 hrow'
    exact Table.eq_of_id hmem hrow hsame ▸ of_decide_eq_true hretry

theorem attempted_sublist (trial : OutboxRecord E → Trial H) (rows : List (OutboxRecord E)) :
    (relay.attempted trial rows).Sublist rows := by
  induction rows with
  | nil => exact .slnil
  | cons row rows ih =>
    unfold attempted
    split
    · exact ih.cons_cons row
    · exact (List.nil_sublist rows).cons_cons row

/-- The loop gets to every row if the logger takes every failure. -/
theorem attempted_of_logged {trial : OutboxRecord E → Trial H} {rows : List (OutboxRecord E)}
    (h : ∀ row ∈ rows, Logged relay.wiring relay.maxRetries (trial row) row) :
    relay.attempted trial rows = rows := by
  induction rows with
  | nil => rfl
  | cons row rows ih =>
    obtain ⟨hrow, hrest⟩ := List.forall_mem_cons.1 h
    unfold attempted
    rw [attemptRow_eq_ok.2 ⟨hrow, rfl⟩, ih hrest]

theorem mem_failing {trial : OutboxRecord E → Trial H} {row : OutboxRecord E}
    (hrow : row ∈ s.table.rows) : row.id ∈ relay.failing trial s ↔
      row ∈ relay.attempted trial (claim s.table [] relay.batchSize)
        ∧ attempt relay.wiring (trial row).raises row ≠ .ok () := by
  have hok : ∀ {r : Except PyStr Unit}, r.isOk = false ↔ r ≠ .ok () := by
    rintro (e | u) <;> simp [Except.isOk, Except.toBool]
  unfold failing
  constructor
  · intro h
    obtain ⟨row', hrow', hid⟩ := List.mem_map.1 h
    obtain ⟨hattempted, hfails⟩ := List.mem_filter.1 hrow'
    have hclaimed := (attempted_sublist trial _).mem hattempted
    obtain rfl := Table.eq_of_id (mem_claim hclaimed).1 hrow hid
    exact ⟨hattempted, hok.1 (of_decide_eq_true hfails)⟩
  · rintro ⟨hattempted, hfails⟩
    exact List.mem_map_of_mem (List.mem_filter.2 ⟨hattempted, decide_eq_true (hok.2 hfails)⟩)

/-- In a tick that commits, every claimed row whose attempt fails is one of these. -/
theorem mem_failing_of_claimed {trial : OutboxRecord E → Trial H} {processed : Nat}
    {table : Table E} (hdeliver : deliverPending relay.wiring relay.batchSize relay.maxRetries []
      trial s.table = .ok (processed, table)) {row : OutboxRecord E}
    (hclaimed : row ∈ claim s.table [] relay.batchSize)
    (hfails : attempt relay.wiring (trial row).raises row ≠ .ok ()) :
    row.id ∈ relay.failing trial s := by
  refine (mem_failing (mem_claim hclaimed).1).2 ⟨?_, hfails⟩
  rw [attempted_of_logged (deliverPending_eq_ok.1 hdeliver).2.1]
  exact hclaimed

/-- The number of sleeps at the first failure, after one more. -/
theorem first_add_le {known : Option Nat} {first retries slept : Nat}
    (h : (∀ first, known = some first → first + retries ≤ slept) ∧ (known = none → retries = 0))
    (hfirst : known.or (some slept) = some first) : first + retries ≤ slept := by
  cases known with
  | none =>
    obtain rfl := Option.some.inj hfirst
    rw [h.2 rfl]
    omega
  | some first' =>
    obtain rfl := Option.some.inj hfirst
    exact h.1 _ rfl

theorem settle_dead {maxRetries : Nat} {now : Time} {row : OutboxRecord E} {reason : PyStr}
    (h : row.deadLetteredAt = none) :
    (settle maxRetries now row (.error reason)).deadLetteredAt = none ↔
    row.retryCount + 1 < maxRetries := by
  dsimp only [settle]
  split
  · simp only [reduceCtorEq, false_iff]
    omega
  · simp only [h, true_iff]
    omega

/-! ## Steps -/

theorem stage_cases {rows : List (OutboxRecord E)} (h : relay.step s (.stage rows) = some s') :
    ∃ table, table.rows = s.table.rows ++ rows
      ∧ (∀ row ∈ rows, Pending row ∧ row.id ∉ s.seen)
      ∧ s' = { s with
          table
          tracked := s.tracked ++ rows.map OutboxRecord.id
          seen := s.seen ++ rows.map OutboxRecord.id } := by
  simp only [step] at h
  split at h
  next hfresh =>
    obtain ⟨table, htable, rfl⟩ := Option.map_eq_some_iff.1 h
    obtain ⟨hrows, hpending⟩ := insert_eq_some htable
    exact ⟨table, hrows, fun row hrow => ⟨hpending row hrow, hfresh row hrow⟩, rfl⟩
  next => cases h

/-- The sleeps at first failures after a tick. -/
def failedBy (relay : Relay E Ev H) (trial : OutboxRecord E → Trial H) (s : Loop E) (id : Uuid) :
    Option Nat :=
  if id ∈ relay.failing trial s then (s.firstFailed id).or (some s.slept) else s.firstFailed id

/-- What a tick does: it commits, or raises and leaves the table. -/
structure Ticked (relay : Relay E Ev H) (trial : OutboxRecord E → Trial H)
    (s s' : Loop E) : Prop where
  before : s.phase = .tick
  slept : s'.slept = s.slept
  firstFailed : s'.firstFailed = failedBy relay trial s
  tracked : s'.tracked = s.tracked
  seen : s'.seen = s.seen
  outcome : (∃ processed,
        deliverPending relay.wiring relay.batchSize relay.maxRetries [] trial s.table
      = .ok (processed, s'.table) ∧ s'.phase = .ticked processed)
    ∨ s'.table = s.table ∧ s'.phase = .ticked 0

theorem ticked_of_step {trial : OutboxRecord E → Trial H}
    (h : relay.step s (.tick trial) = some s') : Ticked relay trial s s' := by
  simp only [step] at h
  split at h
  next => cases h
  next hphase =>
    split at h
    next processed table hdeliver =>
      obtain rfl := Option.some.inj h
      exact ⟨hphase, rfl, rfl, rfl, rfl, .inl ⟨processed, hdeliver, rfl⟩⟩
    next =>
      obtain rfl := Option.some.inj h
      exact ⟨hphase, rfl, rfl, rfl, rfl, .inr ⟨rfl, rfl⟩⟩

/-- An attempt that fails is remembered, in a row that had its sleeps before it. -/
theorem first_of_failedBy {trial : OutboxRecord E → Trial H} (hinv : relay.Inv s)
    (hphase : s.phase = .tick) {row : OutboxRecord E} (hrow : row ∈ s.table.rows)
    (htracked : row.id ∈ s.tracked) (halive : row.deadLetteredAt = none) {first : Nat}
    (hfirst : failedBy relay trial s row.id = some first) : first + row.retryCount ≤ s.slept := by
  have hwindow := hinv.window row hrow htracked halive
  have hdue : relay.due s = s.slept := by
    unfold due
    rw [hphase]
  rw [hdue] at hwindow
  unfold failedBy at hfirst
  split at hfirst
  · exact first_add_le hwindow hfirst
  · exact hwindow.1 first hfirst

/-- Without a failed attempt by now, a row has no retries, and is not failing. -/
theorem not_failing_of_failedBy {trial : OutboxRecord E → Trial H} (hinv : relay.Inv s)
    {row : OutboxRecord E} (hrow : row ∈ s.table.rows) (htracked : row.id ∈ s.tracked)
    (halive : row.deadLetteredAt = none) (h : failedBy relay trial s row.id = none) :
    row.id ∉ relay.failing trial s ∧ row.retryCount = 0 := by
  unfold failedBy at h
  split at h
  next => cases hfirst : s.firstFailed row.id <;> rw [hfirst] at h <;> cases h
  next hfailing => exact ⟨hfailing, (hinv.window row hrow htracked halive).2 h⟩

theorem retryCount_failed (maxRetries : Nat) (now : Time) (row : OutboxRecord E) (reason : PyStr) :
    (settle maxRetries now row (.error reason)).retryCount = row.retryCount + 1 := by
  dsimp only [settle]
  split <;> rfl

/-- The window of a row after a tick: as before, or one failed attempt and one sleep more. -/
theorem window_of_ticked {trial : OutboxRecord E → Trial H} (hinv : relay.Inv s)
    (hpaced : relay.Paced s (.tick trial)) (h : Ticked relay trial s s') {row' : OutboxRecord E}
    (hrow' : row' ∈ s'.table.rows) (htracked : row'.id ∈ s.tracked)
    (halive : row'.deadLetteredAt = none) :
    (∀ first, failedBy relay trial s row'.id = some first → first + row'.retryCount ≤ relay.due s')
    ∧ (failedBy relay trial s row'.id = none → row'.retryCount = 0) := by
  have hslept : s.slept ≤ relay.due s' := h.slept ▸ slept_le_due s'
  -- a row that is left as it was
  have hsame : ∀ row ∈ s.table.rows, row.id ∈ s.tracked → row.deadLetteredAt = none →
      (∀ first, failedBy relay trial s row.id = some first → first + row.retryCount ≤ relay.due s')
      ∧ (failedBy relay trial s row.id = none → row.retryCount = 0) :=
    fun row hrow htracked halive =>
      ⟨fun first hfirst =>
        (first_of_failedBy hinv h.before hrow htracked halive hfirst).trans hslept,
        fun hnone => (not_failing_of_failedBy hinv hrow htracked halive hnone).2⟩
  rcases h.outcome with ⟨processed, hdeliver, hphase⟩ | ⟨htable, -⟩
  · obtain ⟨row, hrow, ⟨hclaimed, rfl⟩ | ⟨-, rfl⟩⟩ := mem_deliverPending hdeliver hrow'
    · rw [settle_id] at htracked ⊢
      have hbefore : row.deadLetteredAt = none := (mem_claim hclaimed).2.1.2
      cases hresult : attempt relay.wiring (trial row).raises row with
      | ok u => exact hsame row hrow htracked hbefore
      | error reason =>
        -- the row lives on, so it failed in a batch that was not full, and a sleep follows
        have hfails : attempt relay.wiring (trial row).raises row ≠ .ok () := by simp [hresult]
        rw [hresult] at halive
        have hshort := hpaced row hclaimed hfails ((settle_dead hbefore).1 halive)
        have hprocessed : processed < relay.batchSize := by
          rw [(deliverPending_eq_ok.1 hdeliver).1, length_claim]
          omega
        have hdue : relay.due s' = s.slept + 1 := by
          unfold due
          rw [hphase]
          show (if processed < relay.batchSize then s'.slept + 1 else s'.slept) = _
          rw [if_pos hprocessed, h.slept]
        rw [hdue, retryCount_failed]
        refine ⟨fun first hfirst => ?_, fun hnone => ?_⟩
        · have := first_of_failedBy hinv h.before hrow htracked hbefore hfirst
          omega
        · exact absurd (mem_failing_of_claimed hdeliver hclaimed hfails)
            (not_failing_of_failedBy hinv hrow htracked hbefore hnone).1
    · exact hsame row' hrow htracked halive
  · exact hsame row' (htable ▸ hrow') htracked halive

/-- **A paced tick keeps the invariant.** -/
theorem Inv.tick {trial : OutboxRecord E → Trial H} (hinv : relay.Inv s)
    (hpaced : relay.Paced s (.tick trial)) (h : Ticked relay trial s s') : relay.Inv s' where
  seen row' hrow' := by
    rw [h.seen]
    rcases h.outcome with ⟨processed, hdeliver, -⟩ | ⟨htable, -⟩
    · obtain ⟨row, hrow, ⟨-, rfl⟩ | ⟨-, rfl⟩⟩ := mem_deliverPending hdeliver hrow'
      · rw [settle_id]
        exact hinv.seen row hrow
      · exact hinv.seen row' hrow
    · exact hinv.seen row' (htable ▸ hrow')
  tracked := by
    rw [h.tracked, h.seen]
    exact hinv.tracked
  unseen id hid := by
    rw [h.seen] at hid
    rw [h.firstFailed]
    unfold failedBy
    rw [if_neg, hinv.unseen id hid]
    intro hfailing
    obtain ⟨row, hrow, rfl⟩ := List.mem_map.1 hfailing
    have hclaimed := (attempted_sublist trial _).mem (List.mem_of_mem_filter hrow)
    exact hid (hinv.seen row (mem_claim hclaimed).1)
  window row' hrow' htracked halive := by
    rw [h.tracked] at htracked
    rw [h.firstFailed]
    exact window_of_ticked hinv hpaced h hrow' htracked halive

/-- **A row dead-lettered by a tick had its sleeps.** -/
theorem Ticked.windowed {trial : OutboxRecord E → Trial H} (h : Ticked relay trial s s')
    (hinv : relay.Inv s) : relay.Windowed s s' := by
  intro row hrow row' hrow' hid htracked halive hdead
  rcases h.outcome with ⟨processed, hdeliver, -⟩ | ⟨htable, -⟩
  · obtain ⟨row'', hmem, ⟨hclaimed, rfl⟩ | ⟨-, rfl⟩⟩ := mem_deliverPending hdeliver hrow'
    · rw [settle_id] at hid
      obtain rfl := Table.eq_of_id hmem hrow hid
      cases hresult : attempt relay.wiring (trial row'').raises row'' with
      | ok u =>
        rw [hresult] at hdead
        exact absurd halive hdead
      | error reason =>
        have hfails : row''.id ∈ relay.failing trial s :=
          mem_failing_of_claimed hdeliver hclaimed (by simp [hresult])
        rw [hresult, Ne, settle_dead halive] at hdead
        obtain ⟨first, hfirst⟩ : ∃ first, failedBy relay trial s row''.id = some first := by
          unfold failedBy
          rw [if_pos hfails]
          cases s.firstFailed row''.id <;> exact ⟨_, rfl⟩
        refine ⟨first, h.firstFailed ▸ hfirst, ?_⟩
        have := first_of_failedBy hinv h.before hrow htracked halive hfirst
        rw [h.slept]
        omega
    · obtain rfl := Table.eq_of_id hmem hrow hid
      exact absurd halive hdead
  · obtain rfl := Table.eq_of_id (htable ▸ hrow') hrow hid
    exact absurd halive hdead

/-- Nothing is dead-lettered where rows stay as they are. -/
theorem windowed_of_subset (h : ∀ row' ∈ s'.table.rows, row' ∈ s.table.rows ∨ row'.id ∉ s.seen)
    (hinv : relay.Inv s) : relay.Windowed s s' := by
  intro row hrow row' hrow' hid _ halive hdead
  rcases h row' hrow' with hmem | hnew
  · obtain rfl := Table.eq_of_id hmem hrow hid
    exact absurd halive hdead
  · exact absurd (hid ▸ hinv.seen row hrow) hnew

/-- The invariant only needs the loop to owe no fewer sleeps. -/
theorem Inv.weaken (hinv : relay.Inv s) (htable : ∀ row ∈ s'.table.rows, row ∈ s.table.rows)
    (hdue : relay.due s ≤ relay.due s') (hfirst : s'.firstFailed = s.firstFailed)
    (htracked : s'.tracked = s.tracked) (hseen : s'.seen = s.seen) : relay.Inv s' where
  seen row hrow := hseen ▸ hinv.seen row (htable row hrow)
  tracked := by
    rw [htracked, hseen]
    exact hinv.tracked
  unseen := by
    rw [hseen, hfirst]
    exact hinv.unseen
  window row hrow hmem halive := by
    rw [hfirst]
    obtain ⟨hwindow, hnone⟩ := hinv.window row (htable row hrow) (htracked ▸ hmem) halive
    exact ⟨fun first h => (hwindow first h).trans hdue, hnone⟩

theorem Inv.stage (hinv : relay.Inv s) {rows : List (OutboxRecord E)}
    (h : relay.step s (.stage rows) = some s') : relay.Inv s' ∧ relay.Windowed s s' := by
  obtain ⟨table, hrows, hnew, rfl⟩ := stage_cases h
  have hmem : ∀ row ∈ table.rows, row ∈ s.table.rows ∨ row ∈ rows := fun row hrow =>
    List.mem_append.1 (hrows ▸ hrow)
  refine ⟨⟨fun row hrow => ?_, fun id hid => ?_, fun id hid => ?_, fun row hrow hid halive => ?_⟩,
    windowed_of_subset (fun row hrow => (hmem row hrow).imp_right fun hin => (hnew row hin).2) hinv⟩
  · exact List.mem_append.2 ((hmem row hrow).imp (hinv.seen row) List.mem_map_of_mem)
  · exact List.mem_append.2 ((List.mem_append.1 hid).imp_left (hinv.tracked id))
  · exact hinv.unseen id fun hold => hid (List.mem_append_left _ hold)
  · rcases hmem row hrow with hold | hin
    · rcases List.mem_append.1 hid with hid | hid
      · exact hinv.window row hold hid halive
      · obtain ⟨row', hrow', heq⟩ := List.mem_map.1 hid
        exact absurd (heq ▸ hinv.seen row hold) (hnew row' hrow').2
    · -- a new row has no failed attempt and no retries
      have hnone : s.firstFailed row.id = none := hinv.unseen _ (hnew row hin).2
      refine ⟨fun first hfirst => ?_, fun _ => (hnew row hin).1.2.2.1⟩
      rw [show ({ s with
        table
        tracked := s.tracked ++ rows.map OutboxRecord.id
        seen := s.seen ++ rows.map OutboxRecord.id } : Loop E).firstFailed row.id = none from hnone]
        at hfirst
      cases hfirst

/-- **Every paced step keeps the invariant, and dead-letters no row too early.** -/
theorem Inv.step (hinv : relay.Inv s) {action : LoopAction E H} (hpaced : relay.Paced s action)
    (h : relay.step s action = some s') : relay.Inv s' ∧ relay.Windowed s s' := by
  cases action with
  | stage rows => exact hinv.stage h
  | tick trial =>
    have hticked := ticked_of_step h
    exact ⟨hinv.tick hpaced hticked, hticked.windowed hinv⟩
  | tickFailed =>
    simp only [Relay.step] at h
    split at h
    next => cases h
    next hphase =>
      obtain rfl := Option.some.inj h
      refine ⟨hinv.weaken (fun _ h => h) ?_ rfl rfl rfl,
        windowed_of_subset (fun _ h => .inl h) hinv⟩
      -- At a tick no sleep is owed, so the phase that a failed one leaves owes no fewer.
      have hdue : relay.due s = s.slept := by
        unfold due
        rw [hphase]
      rw [hdue]
      exact slept_le_due { s with phase := .ticked 0 }
  | cleanup cutoff batchSize maxBatches order =>
    simp only [Relay.step] at h
    split at h
    next => cases h
    next processed hphase =>
      obtain rfl := Option.some.inj h
      exact ⟨hinv.weaken (fun _ h => mem_purgePublished h) (Nat.le_of_eq rfl) rfl rfl rfl,
        windowed_of_subset (fun _ h => .inl (mem_purgePublished h)) hinv⟩
  | pause =>
    simp only [Relay.step] at h
    split at h
    next => cases h
    next processed hphase =>
      obtain rfl := Option.some.inj h
      refine ⟨hinv.weaken (fun _ h => h) (Nat.le_of_eq ?_) rfl rfl rfl,
        windowed_of_subset (fun _ h => .inl h) hinv⟩
      unfold due
      rw [hphase]

/-- **The retry window.** In every run in which no full batch has a row that fails and has retries
left, a row is dead-lettered only after `max_retries - 1` sleeps since its first failed attempt. -/
theorem retry_window {table : Table E} {states : List (Loop E)}
    (h : Machine.Run relay.step (fun s action _ => relay.Paced s action) (.start table) states) :
    Machine.Run relay.step (fun s _ s' => relay.Windowed s s') (.start table) states :=
  h.imp (inv_start table) fun _ _ _ hinv hstep hpaced => hinv.step hpaced hstep

end Relay

/-! ## A batch of one and a batch of two -/

section Runs

/-- One pending row. -/
def onePending : Table Unit where
  rows := [⟨1, (), 1, none, none, 0, none⟩]
  ids_nodup := by decide
  fit := by decide

/-- Two retries, and batches of this size. -/
def relayOf (batchSize : Nat) : Relay Unit Unit Unit := ⟨loneHandler, batchSize, 2⟩

/-- The handler is down. -/
def downTick : LoopAction Unit Unit := .tick fun _ => ⟨fun _ => some (py "down"), fun _ => none, 9⟩

/-- The row is there, with retries left. -/
def alive (s : Loop Unit) : Bool :=
  s.table.rows.any fun row => row.id = 1 ∧ row.id ∈ s.tracked ∧ row.deadLetteredAt = none

/-- The row is dead-lettered, its first failed attempt and the sleeps being these. -/
def deadAt (first slept : Nat) (s : Loop Unit) : Bool :=
  s.firstFailed 1 = some first && s.slept = slept
    && s.table.rows.any fun row => row.id = 1 ∧ row.deadLetteredAt ≠ none

/-- **A full batch burns retries**: with batches of one, both retries are gone before the loop has
slept once. -/
theorem full_batch_burns_retries : ∃ s s' : Loop Unit,
    Machine.Reaches (relayOf 1).step (.start onePending) s ∧ (relayOf 1).step s downTick = some s'
    ∧ s'.slept = 0 ∧ ¬ (relayOf 1).Windowed s s' := by
  have hrun : (Machine.runActions (relayOf 1).step (.start onePending) [downTick, .pause]).map
      (fun s => alive s && ((relayOf 1).step s downTick).map (deadAt 0 0) = some true)
      = some true := by
    decide +kernel
  obtain ⟨s, hs, hfacts⟩ := Option.map_eq_some_iff.1 hrun
  simp only [Bool.and_eq_true, decide_eq_true_eq] at hfacts
  obtain ⟨halive, hafter⟩ := hfacts
  obtain ⟨s', hstep, hdead⟩ := Option.map_eq_some_iff.1 hafter
  simp only [deadAt, Bool.and_eq_true, decide_eq_true_eq, List.any_eq_true] at hdead
  simp only [alive, List.any_eq_true, decide_eq_true_eq] at halive
  obtain ⟨row, hrow, hid, htracked, hbefore⟩ := halive
  obtain ⟨⟨hfirst, hslept⟩, row', hrow', hid', hdead⟩ := hdead
  refine ⟨s, s', Machine.reaches_of_runActions hs, hstep, hslept, fun hwindowed => ?_⟩
  obtain ⟨first, hfirst', hle⟩ :=
    hwindowed row hrow row' hrow' (hid'.trans hid.symm) htracked hbefore
    hdead
  rw [hslept] at hle
  have hretries : (relayOf 1).maxRetries = 2 := rfl
  omega

/-- With batches of two the loop sleeps in between. -/
theorem retry_window_short_batches : ∃ s s' s'' : Loop Unit,
    Machine.Run (relayOf 2).step (fun s _ s' => (relayOf 2).Windowed s s') (.start onePending)
      [s, s', s''] ∧ deadAt 0 1 s'' = true := by
  have hrun : ((relayOf 2).step (.start onePending) downTick).bind (fun s =>
      ((relayOf 2).step s .pause).bind fun s' => ((relayOf 2).step s' downTick).map fun s'' =>
        decide ((available s'.table []).length < 2) && deadAt 0 1 s'') = some true := by
    decide +kernel
  obtain ⟨s, hs, hrun⟩ := Option.bind_eq_some_iff.1 hrun
  obtain ⟨s', hs', hrun⟩ := Option.bind_eq_some_iff.1 hrun
  obtain ⟨s'', hs'', hfacts⟩ := Option.map_eq_some_iff.1 hrun
  simp only [Bool.and_eq_true, decide_eq_true_eq] at hfacts
  have hfirst : (relayOf 2).Paced (.start onePending) downTick := by
    intro row _ _ _
    decide
  have hlast : (relayOf 2).Paced s' downTick := fun _ _ _ _ => hfacts.1
  exact ⟨s, s', s'', (relayOf 2).retry_window (.cons downTick hs hfirst (.cons .pause hs' trivial
    (.cons downTick hs'' hlast (.nil s'')))), hfacts.2⟩

end Runs

end TaskService.Outbox
