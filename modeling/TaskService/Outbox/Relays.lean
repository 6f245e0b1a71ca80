import TaskService.Lib.Machine
import TaskService.Outbox.Delivery
import Mathlib.Data.List.Flatten

/-!
# Relays, writers and prunes

Any number of polls over one outbox, with commits of writes and with prunes between any two of their
steps. A poll claims rows that no other open poll holds, attempts them one by one, and commits. It
is rolled back when the logger raises at a failed attempt, when the commit is refused, and when its
relay dies, and then leaves no mark; in the first two cases its relay goes on, and may poll again.
The system also remembers what was ever staged and attempted, which no step reads.

* **`Inv`**: what holds between steps. An open poll holds deliverable rows, as they are in the
  table.
* **`step_evolves`**: what a step can do to a row.
* **`no_event_lost`**: no committed event is lost, and delivery marks are final.
-/

namespace TaskService.Outbox

open Store

variable {E Ev H : Type}

/-! ## The system -/

/-- An open poll: the rows it has yet to attempt, and its changes so far. -/
structure Poll (E : Type) where
  maxRetries : Nat
  todo : List (OutboxRecord E)
  marks : List (Mark E)

/-- The rows a poll has locked. -/
def Poll.held (poll : Poll E) : List (OutboxRecord E) := poll.marks.map Prod.fst ++ poll.todo

/-- The outbox and the polls open on it; then every row a write has committed, and every attempt a
poll has made. -/
structure System (E H : Type) where
  table : Table E
  polls : List (Poll E)
  staged : List (OutboxRecord E)
  attempts : List (OutboxRecord E × Trial H)

def System.empty : System E H := ⟨⟨[], .nil, by simp⟩, [], [], []⟩

/-- The ids of the rows that open polls hold. -/
def System.locked (s : System E H) : List Uuid :=
  s.polls.flatMap fun poll => poll.held.map OutboxRecord.id

/-- A row as `from_event` makes it. -/
def Pending (row : OutboxRecord E) : Prop :=
  row.publishedAt = none ∧ row.deadLetteredAt = none ∧ row.retryCount = 0 ∧ row.lastError = none

instance (row : OutboxRecord E) : Decidable (Pending row) := inferInstanceAs (Decidable (_ ∧ _))

theorem rowFits_of_pending {row : OutboxRecord E} (h : Pending row) : RowFits row := by
  obtain ⟨-, -, hretry, herror⟩ := h
  refine ⟨by simp [herror], ?_⟩
  rw [hretry]
  decide

/-- The INSERTs of a write: pending rows with new ids. -/
def Table.insert (table : Table E) (rows : List (OutboxRecord E)) : Option (Table E) :=
  if h : ((table.rows ++ rows).map OutboxRecord.id).Nodup ∧ ∀ row ∈ rows, Pending row then
    some ⟨table.rows ++ rows, h.1, fun row hrow => (List.mem_append.1 hrow).elim (table.fit row)
      fun hnew => rowFits_of_pending (h.2 row hnew)⟩
  else none

inductive Action (E H : Type) where
  /-- a write commits with these events; ids never repeat -/
  | stage (rows : List (OutboxRecord E))
  | poll (batchSize maxRetries : Nat)
  /-- the next row of a poll; the poll is rolled back if the logger raises -/
  | attempt (i : Nat) (trial : Trial H)
  /-- the commit of a poll, which is rolled back if it is refused -/
  | commit (i : Nat)
  /-- a poll is rolled back: its relay dies, or its connection is lost -/
  | crash (i : Nat)
  /-- one statement of `purge_published` -/
  | purge (cutoff : Time) (batchSize : Nat) (order : OutboxRecord E → Nat)

variable (wiring : Wiring E Ev H)

def step (s : System E H) : Action E H → Option (System E H)
  | .stage rows =>
    if ∀ row ∈ rows, row.id ∉ s.staged.map OutboxRecord.id then
      (s.table.insert rows).map fun table => { s with table, staged := s.staged ++ rows }
    else none
  | .poll batchSize maxRetries =>
    some { s with polls := s.polls ++ [⟨maxRetries, claim s.table s.locked batchSize, []⟩] }
  | .attempt i trial =>
    match s.polls[i]? with
    | some ⟨maxRetries, row :: todo, marks⟩ =>
      let attempts := s.attempts ++ [(row, trial)]
      match attemptRow wiring maxRetries trial row with
      | .ok mark => some { s with
          polls := s.polls.set i ⟨maxRetries, todo, marks ++ [mark]⟩
          attempts }
      | .error _ => some { s with polls := s.polls.eraseIdx i, attempts }
    | _ => none
  | .commit i =>
    match s.polls[i]? with
    | some ⟨_, [], marks⟩ =>
      match commitMarks s.table marks with
      | .ok table => some { s with table, polls := s.polls.eraseIdx i }
      | .error _ => some { s with polls := s.polls.eraseIdx i }
    | _ => none
  | .crash i => some { s with polls := s.polls.eraseIdx i }
  | .purge cutoff batchSize order =>
    some { s with table := s.table.delete (victims cutoff batchSize order s.table) }

/-! ## The invariant -/

/-- The event is still to be delivered, or was dispatched to all its handlers. -/
def Kept (s : System E H) (staged : OutboxRecord E) : Prop :=
  (∃ row ∈ s.table.rows, row.id = staged.id ∧ row.event = staged.event ∧ row.publishedAt = none)
  ∨ ∃ d ∈ s.attempts, d.1.id = staged.id ∧ d.1.event = staged.event
      ∧ Delivered wiring d.2.raises d.1

structure Inv (s : System E H) : Prop where
  once : ∀ row ∈ s.table.rows, row.publishedAt = none ∨ row.deadLetteredAt = none
  known : ∀ row ∈ s.table.rows, row.id ∈ s.staged.map OutboxRecord.id
  held : ∀ poll ∈ s.polls, ∀ row ∈ poll.held, row ∈ s.table.rows ∧ Deliverable row
  apart : s.locked.Nodup
  marks : ∀ poll ∈ s.polls, ∀ mark ∈ poll.marks, ∃ trial, (mark.1, trial) ∈ s.attempts
    ∧ mark.2 = settle poll.maxRetries trial.now mark.1 (attempt wiring trial.raises mark.1)
  kept : ∀ row ∈ s.staged, Kept wiring s row

/-- What a step can make of a row: nothing, or, of a deliverable one, what an attempt at it does. -/
def Evolves (row row' : OutboxRecord E) : Prop :=
  row' = row ∨ Deliverable row ∧ ∃ maxRetries now outcome, row' = settle maxRetries now row outcome

theorem Evolves.id_eq {row row' : OutboxRecord E} (h : Evolves row row') : row'.id = row.id := by
  rcases h with rfl | ⟨-, maxRetries, now, outcome, rfl⟩
  · rfl
  · exact settle_id _ _ _ _

theorem retryCount_settle (maxRetries : Nat) (now : Time) (row : OutboxRecord E)
    (outcome : Except PyStr Unit) :
    row.retryCount ≤ (settle maxRetries now row outcome).retryCount := by
  cases outcome with
  | ok u => exact Nat.le_refl _
  | error reason =>
    dsimp only [settle]
    split <;> exact Nat.le_succ _

theorem Evolves.retryCount_le {row row' : OutboxRecord E} (h : Evolves row row') :
    row.retryCount ≤ row'.retryCount := by
  rcases h with rfl | ⟨-, maxRetries, now, outcome, rfl⟩
  · exact Nat.le_refl _
  · exact retryCount_settle _ _ _ _

/-- An attempt sets at most one stamp of a deliverable row. -/
theorem Evolves.once {row row' : OutboxRecord E} (h : Evolves row row')
    (honce : row.publishedAt = none ∨ row.deadLetteredAt = none) :
    row'.publishedAt = none ∨ row'.deadLetteredAt = none := by
  rcases h with rfl | ⟨⟨hpub, hdead⟩, maxRetries, now, outcome, rfl⟩
  · exact honce
  · cases outcome with
    | ok u => exact .inr hdead
    | error reason =>
      dsimp only [settle]
      split <;> exact .inl hpub

/-! ## Steps -/

variable {wiring}

theorem insert_eq_some {table table' : Table E} {rows : List (OutboxRecord E)}
    (h : table.insert rows = some table') :
    table'.rows = table.rows ++ rows ∧ ∀ row ∈ rows, Pending row := by
  unfold Table.insert at h
  split at h
  next hguard =>
    obtain rfl := Option.some.inj h
    exact ⟨rfl, hguard.2⟩
  next => cases h

theorem stage_cases {s s' : System E H} {rows : List (OutboxRecord E)}
    (h : step wiring s (.stage rows) = some s') :
    ∃ table, s' = { s with table, staged := s.staged ++ rows } ∧ table.rows = s.table.rows ++ rows
      ∧ ∀ row ∈ rows, Pending row ∧ row.id ∉ s.staged.map OutboxRecord.id := by
  change (if _ then _ else _) = some s' at h
  split at h
  next hfresh =>
    obtain ⟨table, htable, rfl⟩ := Option.map_eq_some_iff.1 h
    obtain ⟨hrows, hpending⟩ := insert_eq_some htable
    exact ⟨table, rfl, hrows, fun row hrow => ⟨hpending row hrow, hfresh row hrow⟩⟩
  next => cases h

/-- An attempt marks its row, or ends its poll. -/
theorem attempt_cases {s s' : System E H} {i : Nat} {trial : Trial H}
    (h : step wiring s (.attempt i trial) = some s') :
    ∃ before after maxRetries row todo marks left,
      s.polls = before ++ ⟨maxRetries, row :: todo, marks⟩ :: after
      ∧ (left = [⟨maxRetries, todo, marks ++ [(row,
            settle maxRetries trial.now row (attempt wiring trial.raises row))]⟩]
          ∧ Logged wiring maxRetries trial row
        ∨ left = [] ∧ s.polls[i]? = some ⟨maxRetries, row :: todo, marks⟩
          ∧ ∃ text, attemptRow wiring maxRetries trial row = .error text)
      ∧ s' = { s with
          polls := before ++ (left ++ after)
          attempts := s.attempts ++ [(row, trial)] } := by
  simp only [step] at h
  split at h
  next maxRetries row todo marks hget =>
    obtain ⟨before, after, hpolls, -, herase, hset⟩ := Machine.split_of_getElem? hget
    split at h
    next mark hrow =>
      obtain ⟨hlogged, rfl⟩ := attemptRow_eq_ok.1 hrow
      refine ⟨before, after, maxRetries, row, todo, marks, _, hpolls, .inl ⟨rfl, hlogged⟩, ?_⟩
      rw [← Option.some.inj h, hset]
      rfl
    next text hraised =>
      refine ⟨before, after, maxRetries, row, todo, marks, [], hpolls,
        .inr ⟨rfl, hget, text, hraised⟩, ?_⟩
      rw [← Option.some.inj h, herase]
      rfl
  next => cases h

/-- A commit goes through, or does what a crash does. -/
theorem commit_cases {s s' : System E H} {i : Nat} (h : step wiring s (.commit i) = some s') :
    (∃ before after maxRetries marks table, s.polls = before ++ ⟨maxRetries, [], marks⟩ :: after
      ∧ commitMarks s.table marks = .ok table
      ∧ s' = { s with table, polls := before ++ after })
    ∨ (∃ poll error, s.polls[i]? = some poll ∧ commitMarks s.table poll.marks = .error error)
      ∧ step wiring s (.crash i) = some s' := by
  simp only [step] at h
  split at h
  next maxRetries marks hget =>
    obtain ⟨before, after, hpolls, -, herase, -⟩ := Machine.split_of_getElem? hget
    split at h
    next table hcommit =>
      refine .inl ⟨before, after, maxRetries, marks, table, hpolls, hcommit, ?_⟩
      rw [← Option.some.inj h, herase]
    next error hcommit => exact .inr ⟨⟨_, error, hget, hcommit⟩, h⟩
  next => cases h

section Invariant

variable {s s' : System E H}

theorem locked_middle {before after : List (Poll E)} {poll : Poll E}
    (hpolls : s.polls = before ++ poll :: after) (h : s.locked.Nodup) :
    (poll.held.map OutboxRecord.id).Nodup
      ∧ ((before ++ after).flatMap fun poll => poll.held.map OutboxRecord.id).Nodup
      ∧ ∀ id ∈ poll.held.map OutboxRecord.id,
          id ∉ (before ++ after).flatMap fun poll => poll.held.map OutboxRecord.id := by
  rw [System.locked, hpolls] at h
  exact Machine.nodup_flatMap_middle.1 h

/-- An event is kept while its row stays as it is, or goes on being delivered. -/
theorem Kept.step {staged : OutboxRecord E} (h : Kept wiring s staged)
    (hrows : ∀ row ∈ s.table.rows, row.publishedAt = none →
      Kept wiring s' row) (hattempts : ∀ d ∈ s.attempts, d ∈ s'.attempts) :
    Kept wiring s' staged := by
  rcases h with ⟨row, hrow, hid, hevent, hpending⟩ | ⟨d, hd, hdelivered⟩
  · have hkept := hrows row hrow hpending
    unfold Kept at hkept ⊢
    rwa [hid, hevent] at hkept
  · exact .inr ⟨d, hattempts d hd, hdelivered⟩

theorem kept_of_mem {row : OutboxRecord E} (h : row ∈ s.table.rows)
    (hpending : row.publishedAt = none) :
    Kept wiring s row := .inl ⟨row, h, rfl, rfl, hpending⟩

theorem Inv.stage (hinv : Inv wiring s) {rows : List (OutboxRecord E)}
    (h : step wiring s (.stage rows) = some s') : Inv wiring s' := by
  obtain ⟨table, rfl, hrows, hnew⟩ := stage_cases h
  have hmem : ∀ row, row ∈ table.rows ↔ row ∈ s.table.rows ∨ row ∈ rows := by
    intro row
    rw [hrows, List.mem_append]
  refine ⟨fun row hrow => ?_, fun row hrow => ?_, fun poll hpoll row hheld => ?_, hinv.apart,
    hinv.marks, fun row hrow => ?_⟩
  · rcases (hmem row).1 hrow with hold | hin
    · exact hinv.once row hold
    · exact .inl (hnew row hin).1.1
  · show row.id ∈ (s.staged ++ rows).map OutboxRecord.id
    rw [List.map_append, List.mem_append]
    exact ((hmem row).1 hrow).imp (hinv.known row) List.mem_map_of_mem
  · exact ⟨(hmem row).2 (.inl (hinv.held poll hpoll row hheld).1),
      (hinv.held poll hpoll row hheld).2⟩
  · rcases List.mem_append.1 hrow with hold | hin
    · exact (hinv.kept row hold).step (fun row hrow hpending =>
        kept_of_mem ((hmem row).2 (.inl hrow)) hpending) fun d hd => hd
    · exact kept_of_mem ((hmem row).2 (.inr hin)) (hnew row hin).1.1

theorem Inv.poll (hinv : Inv wiring s) {batchSize maxRetries : Nat}
    (h : step wiring s (.poll batchSize maxRetries) = some s') : Inv wiring s' := by
  obtain rfl := Option.some.inj h
  have hpolls : ∀ poll, poll ∈ s.polls ++ [⟨maxRetries, claim s.table s.locked batchSize, []⟩] →
      poll ∈ s.polls ∨ poll = ⟨maxRetries, claim s.table s.locked batchSize, []⟩ := by simp
  refine ⟨hinv.once, hinv.known, fun poll hpoll row hheld => ?_, ?_,
    fun poll hpoll mark hmark => ?_,
    fun row hrow => (hinv.kept row hrow).step (fun row hrow => kept_of_mem hrow) fun d hd => hd⟩
  · rcases hpolls poll hpoll with hold | rfl
    · exact hinv.held poll hold row hheld
    · obtain ⟨hmem, hdeliverable, -⟩ := mem_claim hheld
      exact ⟨hmem, hdeliverable⟩
  · -- the claimed rows are none of those that were held
    refine Machine.nodup_flatMap_middle.2 ⟨claim_ids_nodup s.table s.locked batchSize, ?_, ?_⟩
    · rw [List.append_nil]
      exact hinv.apart
    · rw [List.append_nil]
      intro id hid
      obtain ⟨row, hrow, rfl⟩ := List.mem_map.1 hid
      exact (mem_claim hrow).2.2
  · rcases hpolls poll hpoll with hold | rfl
    · exact hinv.marks poll hold mark hmark
    · cases hmark

/-- The rows of a poll after an attempt are those before it. -/
theorem held_attempt (maxRetries : Nat) (row row' : OutboxRecord E) (todo : List (OutboxRecord E))
    (marks : List (Mark E)) : Poll.held ⟨maxRetries, todo, marks ++ [(row, row')]⟩
      = Poll.held ⟨maxRetries, row :: todo, marks⟩ := by
  simp [Poll.held]

/-- The invariant only needs the polls to be some of those that were open, and the attempts to be
remembered. -/
theorem Inv.rollback (hinv : Inv wiring s) {polls : List (Poll E)}
    {attempts : List (OutboxRecord E × Trial H)} (hpolls : polls.Sublist s.polls)
    (hattempts : ∀ d ∈ s.attempts, d ∈ attempts) : Inv wiring { s with polls, attempts } := by
  refine ⟨hinv.once, hinv.known, fun poll hpoll => hinv.held poll (hpolls.mem hpoll),
    hinv.apart.sublist (hpolls.flatMap _), fun poll hpoll mark hmark => ?_,
    fun row hrow => (hinv.kept row hrow).step (fun row hrow => kept_of_mem hrow) hattempts⟩
  obtain ⟨trial, hattempt, hsettle⟩ := hinv.marks poll (hpolls.mem hpoll) mark hmark
  exact ⟨trial, hattempts _ hattempt, hsettle⟩

theorem Inv.attempt (hinv : Inv wiring s) {i : Nat} {trial : Trial H}
    (h : step wiring s (.attempt i trial) = some s') : Inv wiring s' := by
  obtain ⟨before, after, maxRetries, row, todo, marks, left, hpolls, hleft, rfl⟩ := attempt_cases h
  have hremembered : ∀ d ∈ s.attempts, d ∈ s.attempts ++ [(row, trial)] := fun d hd =>
    List.mem_append_left _ hd
  have hothers : (before ++ after).Sublist s.polls := hpolls ▸ Machine.sublist_middle
  have hself : ⟨maxRetries, row :: todo, marks⟩ ∈ s.polls := by
    rw [hpolls]
    simp
  rcases hleft with ⟨rfl, -⟩ | ⟨rfl, -⟩
  · have hcases : ∀ {poll poll' : Poll E}, poll ∈ before ++ poll' :: after →
        poll ∈ before ++ after ∨ poll = poll' := by
      intro poll poll' hpoll
      have := List.perm_middle.mem_iff.1 hpoll
      exact (List.mem_cons.1 this).symm
    refine ⟨hinv.once, hinv.known, fun poll hpoll held hheld => ?_, ?_,
      fun poll hpoll mark hmark => ?_, fun staged hstaged =>
        (hinv.kept staged hstaged).step (fun row hrow => kept_of_mem hrow) hremembered⟩
    · rcases hcases hpoll with hother | rfl
      · exact hinv.held poll (hothers.mem hother) held hheld
      · rw [held_attempt] at hheld
        exact hinv.held _ hself held hheld
    · obtain ⟨hself, hrest, hdisjoint⟩ := locked_middle hpolls hinv.apart
      refine Machine.nodup_flatMap_middle.2 ?_
      rw [held_attempt]
      exact ⟨hself, hrest, hdisjoint⟩
    · rcases hcases hpoll with hother | rfl
      · obtain ⟨trial', hattempt, hsettle⟩ := hinv.marks poll (hothers.mem hother) mark hmark
        exact ⟨trial', hremembered _ hattempt, hsettle⟩
      · rcases List.mem_append.1 hmark with hold | hnew
        · obtain ⟨trial', hattempt, hsettle⟩ := hinv.marks _ hself mark hold
          exact ⟨trial', hremembered _ hattempt, hsettle⟩
        · obtain rfl := List.mem_singleton.1 hnew
          exact ⟨trial, List.mem_append_right _ (List.mem_singleton.2 rfl), rfl⟩
  · -- the logger raised: the poll is gone with its marks
    exact hinv.rollback hothers hremembered

theorem Inv.crash (hinv : Inv wiring s) {i : Nat} (h : step wiring s (.crash i) = some s') :
    Inv wiring s' := by
  obtain rfl := Option.some.inj h
  exact hinv.rollback (List.eraseIdx_sublist _ _) fun d hd => hd

/-- **What a commit makes of a row**: nothing, if the poll does not hold it, and otherwise what the
attempt at it did. -/
theorem commit_row (hinv : Inv wiring s) {before after : List (Poll E)} {maxRetries : Nat}
    {marks : List (Mark E)} (hpolls : s.polls = before ++ ⟨maxRetries, [], marks⟩ :: after)
    {row : OutboxRecord E} (hrow : row ∈ s.table.rows) :
    (row.id ∉ (marks.map Prod.fst).map OutboxRecord.id ∧ updateAll marks row = row)
    ∨ row ∈ marks.map Prod.fst ∧ Deliverable row ∧ ∃ trial, (row, trial) ∈ s.attempts
      ∧ updateAll marks row
        = settle maxRetries trial.now row (attempt wiring trial.raises row) := by
  have hself : ⟨maxRetries, [], marks⟩ ∈ s.polls := by
    rw [hpolls]
    simp
  have hheld : Poll.held ⟨maxRetries, [], marks⟩ = marks.map Prod.fst := List.append_nil _
  have hnodup : (marks.map fun mark => mark.1.id).Nodup := by
    have := (locked_middle hpolls hinv.apart).1
    rwa [hheld, List.map_map] at this
  by_cases hmarked : row.id ∈ (marks.map Prod.fst).map OutboxRecord.id
  · right
    rw [List.map_map] at hmarked
    obtain ⟨mark, hmark, hid⟩ := List.mem_map.1 hmarked
    have hmem : mark.1 ∈ marks.map Prod.fst := List.mem_map_of_mem hmark
    obtain ⟨hstored, hdeliverable⟩ := hinv.held _ hself mark.1 (hheld ▸ hmem)
    -- the row is locked, so it is still as the poll loaded it
    obtain rfl := Table.eq_of_id hstored hrow hid
    obtain ⟨trial, hattempt, hsettle⟩ := hinv.marks _ hself mark hmark
    refine ⟨hmem, hdeliverable, trial, hattempt, ?_⟩
    rw [updateAll_of_mem hnodup hmark rfl, hsettle, marked_settle]
  · refine .inl ⟨hmarked, updateAll_of_not_mem fun mark hmark hid => hmarked ?_⟩
    rw [List.map_map]
    exact List.mem_map.2 ⟨mark, hmark, hid⟩

theorem commit_evolves (hinv : Inv wiring s) {before after : List (Poll E)} {maxRetries : Nat}
    {marks : List (Mark E)} (hpolls : s.polls = before ++ ⟨maxRetries, [], marks⟩ :: after)
    {row : OutboxRecord E} (hrow : row ∈ s.table.rows) : Evolves row (updateAll marks row) := by
  rcases commit_row hinv hpolls hrow with ⟨-, hsame⟩ | ⟨-, hdeliverable, trial, -, hsettle⟩
  · exact .inl hsame
  · exact .inr ⟨hdeliverable, maxRetries, trial.now, _, hsettle⟩

theorem Inv.commit (hinv : Inv wiring s) {i : Nat} (h : step wiring s (.commit i) = some s') :
    Inv wiring s' := by
  rcases commit_cases h with
    ⟨before, after, maxRetries, marks, table, hpolls, hcommit, rfl⟩ | ⟨-, hrefused⟩
  case inr => exact hinv.crash hrefused
  have hrows := (commitMarks_eq_ok.1 hcommit).2
  have hothers : ∀ poll ∈ before ++ after, poll ∈ s.polls := fun poll hpoll =>
    hpolls ▸ Machine.sublist_middle.mem hpoll
  obtain ⟨-, hrest, hdisjoint⟩ := locked_middle hpolls hinv.apart
  refine ⟨fun row' hrow' => ?_, fun row' hrow' => ?_, fun poll hpoll row hheld => ?_, hrest,
    fun poll hpoll => hinv.marks poll (hothers poll hpoll), fun staged hstaged => ?_⟩
  · obtain ⟨row, hrow, rfl⟩ := List.mem_map.1 (hrows ▸ hrow')
    exact (commit_evolves hinv hpolls hrow).once (hinv.once row hrow)
  · obtain ⟨row, hrow, rfl⟩ := List.mem_map.1 (hrows ▸ hrow')
    rw [updateAll_id]
    exact hinv.known row hrow
  · -- another poll holds none of the rows that this one marks
    obtain ⟨hrow, hdeliverable⟩ := hinv.held poll (hothers poll hpoll) row hheld
    rcases commit_row hinv hpolls hrow with ⟨-, hsame⟩ | ⟨hmine, -⟩
    · refine ⟨?_, hdeliverable⟩
      show row ∈ table.rows
      rw [hrows, ← hsame]
      exact List.mem_map_of_mem hrow
    · refine absurd ?_ (hdisjoint row.id ?_)
      · exact List.mem_flatMap.2 ⟨poll, hpoll, List.mem_map_of_mem hheld⟩
      · exact List.mem_map_of_mem (List.mem_append_left _ hmine)
  · refine (hinv.kept staged hstaged).step (fun row hrow hpending => ?_) fun d hd => hd
    have hmem : updateAll marks row ∈ table.rows := hrows ▸ List.mem_map_of_mem hrow
    rcases commit_row hinv hpolls hrow with ⟨-, hsame⟩ | ⟨-, hdeliverable, trial, hattempt, hsettle⟩
    · exact kept_of_mem (hsame ▸ hmem) hpending
    · cases hresult : Outbox.attempt wiring trial.raises row with
      | ok u => exact .inr ⟨(row, trial), hattempt, rfl, rfl, attempt_eq_ok.1 hresult⟩
      | error reason =>
        rw [hresult] at hsettle
        refine .inl ⟨_, hmem, updateAll_id _ _, ?_, ?_⟩
        · rw [hsettle, settle_event]
        · rw [hsettle]
          dsimp only [settle]
          split <;> exact hpending

theorem mem_delete {table : Table E} {ids : List Uuid} {row : OutboxRecord E} :
    row ∈ (table.delete ids).rows ↔ row ∈ table.rows ∧ row.id ∉ ids := by
  show row ∈ table.rows.filter _ ↔ _
  simp

/-- A row that a prune deletes was prunable. -/
theorem prunable_of_mem_victims {table : Table E} {cutoff : Time} {batchSize : Nat}
    {order : OutboxRecord E → Nat} {row : OutboxRecord E} (hrow : row ∈ table.rows)
    (h : row.id ∈ victims cutoff batchSize order table) : Prunable cutoff row := by
  obtain ⟨row', hrow', hid, hprunable⟩ := mem_victims h
  exact Table.eq_of_id hrow' hrow hid ▸ hprunable

theorem Inv.purge (hinv : Inv wiring s) {cutoff : Time} {batchSize : Nat}
    {order : OutboxRecord E → Nat} (h : step wiring s (.purge cutoff batchSize order) = some s') :
    Inv wiring s' := by
  obtain rfl := Option.some.inj h
  have hkeep : ∀ row ∈ s.table.rows, row.publishedAt = none →
      row ∈ (s.table.delete (victims cutoff batchSize order s.table)).rows := by
    intro row hrow hpending
    refine mem_delete.2 ⟨hrow, fun hvictim => ?_⟩
    obtain ⟨⟨t, ht, -⟩, -⟩ := prunable_of_mem_victims hrow hvictim
    rw [hpending] at ht
    cases ht
  refine ⟨fun row hrow => hinv.once row (mem_delete.1 hrow).1, fun row hrow =>
    hinv.known row (mem_delete.1 hrow).1, fun poll hpoll row hheld => ?_, hinv.apart, hinv.marks,
    fun staged hstaged => (hinv.kept staged hstaged).step (fun row hrow hpending => ?_)
    fun d hd => hd⟩
  · obtain ⟨hrow, hdeliverable⟩ := hinv.held poll hpoll row hheld
    exact ⟨hkeep row hrow hdeliverable.1, hdeliverable⟩
  · exact kept_of_mem (hkeep row hrow hpending) hpending

/-- **Every step keeps the invariant.** -/
theorem Inv.step (hinv : Inv wiring s) {action : Action E H}
    (h : Outbox.step wiring s action = some s') : Inv wiring s' := by
  cases action with
  | stage rows => exact hinv.stage h
  | poll batchSize maxRetries => exact hinv.poll h
  | attempt i trial => exact hinv.attempt h
  | commit i => exact hinv.commit h
  | crash i => exact hinv.crash h
  | purge cutoff batchSize order => exact hinv.purge h

/-! ## What becomes of a row -/

/-- Some run of polls, writes and prunes leads to this system. -/
def Reachable (wiring : Wiring E Ev H) (s : System E H) : Prop :=
  Machine.Reaches (Outbox.step wiring) System.empty s

theorem inv_empty : Inv wiring (System.empty : System E H) :=
  ⟨fun _ h => (nomatch h), fun _ h => (nomatch h), fun _ h => (nomatch h), List.nodup_nil,
    fun _ h => (nomatch h), fun _ h => (nomatch h)⟩

theorem Reachable.inv (h : Reachable wiring s) : Inv wiring s :=
  h.invariant inv_empty fun _ _ _ hinv hstep => hinv.step hstep

/-- **What a step can do to a row**: it evolves, or a prune deletes it. -/
theorem step_evolves (hinv : Inv wiring s) {action : Action E H}
    (h : Outbox.step wiring s action = some s') {row : OutboxRecord E} (hrow : row ∈ s.table.rows) :
    (∃ row' ∈ s'.table.rows, Evolves row row')
    ∨ (∀ row' ∈ s'.table.rows, row'.id ≠ row.id)
      ∧ ∃ cutoff batchSize order, action = .purge cutoff batchSize order ∧ Prunable cutoff row := by
  cases action with
  | stage rows =>
    obtain ⟨table, rfl, hrows, -⟩ := stage_cases h
    exact .inl ⟨row, by rw [hrows]; exact List.mem_append_left _ hrow, .inl rfl⟩
  | poll batchSize maxRetries =>
    obtain rfl := Option.some.inj h
    exact .inl ⟨row, hrow, .inl rfl⟩
  | attempt i trial =>
    obtain ⟨before, after, maxRetries, row', todo, marks, left, -, -, rfl⟩ := attempt_cases h
    exact .inl ⟨row, hrow, .inl rfl⟩
  | commit i =>
    rcases commit_cases h with
      ⟨before, after, maxRetries, marks, table, hpolls, hcommit, rfl⟩ | ⟨-, hrefused⟩
    · refine .inl ⟨updateAll marks row, ?_, commit_evolves hinv hpolls hrow⟩
      rw [(commitMarks_eq_ok.1 hcommit).2]
      exact List.mem_map_of_mem hrow
    · obtain rfl := Option.some.inj hrefused
      exact .inl ⟨row, hrow, .inl rfl⟩
  | crash i =>
    obtain rfl := Option.some.inj h
    exact .inl ⟨row, hrow, .inl rfl⟩
  | purge cutoff batchSize order =>
    obtain rfl := Option.some.inj h
    by_cases hvictim : row.id ∈ victims cutoff batchSize order s.table
    · refine .inr ⟨fun row' hrow' hid => (mem_delete.1 hrow').2 (hid ▸ hvictim), ?_⟩
      exact ⟨cutoff, batchSize, order, rfl, prunable_of_mem_victims hrow hvictim⟩
    · exact .inl ⟨row, mem_delete.2 ⟨hrow, hvictim⟩, .inl rfl⟩

/-- The id of a row that is gone does not come back. -/
theorem step_gone {action : Action E H} (h : Outbox.step wiring s action = some s') {id : Uuid}
    (hstaged : id ∈ s.staged.map OutboxRecord.id)
    (hgone : ∀ row ∈ s.table.rows, row.id ≠ id) : ∀ row' ∈ s'.table.rows, row'.id ≠ id := by
  cases action with
  | stage rows =>
    obtain ⟨table, rfl, hrows, hnew⟩ := stage_cases h
    intro row' hrow'
    rcases List.mem_append.1 (hrows ▸ hrow') with hold | hin
    · exact hgone row' hold
    · rintro rfl
      exact (hnew row' hin).2 hstaged
  | poll batchSize maxRetries =>
    obtain rfl := Option.some.inj h
    exact hgone
  | attempt i trial =>
    obtain ⟨before, after, maxRetries, row', todo, marks, left, -, -, rfl⟩ := attempt_cases h
    exact hgone
  | commit i =>
    rcases commit_cases h with
      ⟨before, after, maxRetries, marks, table, hpolls, hcommit, rfl⟩ | ⟨-, hrefused⟩
    · intro row' hrow'
      obtain ⟨row, hrow, rfl⟩ := List.mem_map.1 ((commitMarks_eq_ok.1 hcommit).2 ▸ hrow')
      rw [updateAll_id]
      exact hgone row hrow
    · obtain rfl := Option.some.inj hrefused
      exact hgone
  | crash i =>
    obtain rfl := Option.some.inj h
    exact hgone
  | purge cutoff batchSize order =>
    obtain rfl := Option.some.inj h
    exact fun row' hrow' => hgone row' (mem_delete.1 hrow').1

/-- What was staged is remembered. -/
theorem step_staged {action : Action E H} (h : Outbox.step wiring s action = some s')
    {row : OutboxRecord E} (hrow : row ∈ s.staged) : row ∈ s'.staged := by
  cases action with
  | stage rows =>
    obtain ⟨table, rfl, -⟩ := stage_cases h
    exact List.mem_append_left _ hrow
  | poll batchSize maxRetries =>
    obtain rfl := Option.some.inj h
    exact hrow
  | attempt i trial =>
    obtain ⟨before, after, maxRetries, row', todo, marks, left, -, -, rfl⟩ := attempt_cases h
    exact hrow
  | commit i =>
    rcases commit_cases h with ⟨before, after, maxRetries, marks, table, -, -, rfl⟩ | ⟨-, hrefused⟩
    · exact hrow
    · obtain rfl := Option.some.inj hrefused
      exact hrow
  | crash i =>
    obtain rfl := Option.some.inj h
    exact hrow
  | purge cutoff batchSize order =>
    obtain rfl := Option.some.inj h
    exact hrow

/-- A row later on: as it was, if it could not be delivered any more, and with no fewer retries. -/
def Becomes (row row' : OutboxRecord E) : Prop :=
  row'.id = row.id ∧ (¬ Deliverable row → row' = row) ∧ row.retryCount ≤ row'.retryCount

theorem Becomes.evolve {row row' row'' : OutboxRecord E} (h : Becomes row row')
    (hevolves : Evolves row' row'') : Becomes row row'' := by
  refine ⟨hevolves.id_eq.trans h.1, fun hfinal => ?_, h.2.2.trans hevolves.retryCount_le⟩
  obtain rfl := h.2.1 hfinal
  rcases hevolves with rfl | ⟨hdeliverable, -⟩
  · rfl
  · exact absurd hdeliverable hfinal

/-- **What becomes of a row in any run**: it is there, or it is gone for good. -/
theorem reaches_becomes (h : Reachable wiring s)
    (hlater : Machine.Reaches (Outbox.step wiring) s s')
    {row : OutboxRecord E} (hrow : row ∈ s.table.rows) :
    (∃ row' ∈ s'.table.rows, Becomes row row') ∨ ∀ row' ∈ s'.table.rows, row'.id ≠ row.id := by
  -- A row that is gone stays gone only because its id was staged: the invariant must carry that.
  have hinvariant : Inv wiring s' ∧ row.id ∈ s'.staged.map OutboxRecord.id
      ∧ ((∃ row' ∈ s'.table.rows, Becomes row row')
      ∨ ∀ row' ∈ s'.table.rows, row'.id ≠ row.id) := by
    refine hlater.invariant (I := fun s' => Inv wiring s' ∧ row.id ∈ s'.staged.map OutboxRecord.id
      ∧ ((∃ row' ∈ s'.table.rows, Becomes row row') ∨ ∀ row' ∈ s'.table.rows, row'.id ≠ row.id))
      ⟨h.inv, h.inv.known row hrow, .inl ⟨row, hrow, rfl, fun _ => rfl, Nat.le_refl _⟩⟩ ?_
    rintro mid action next ⟨hinv, hstaged, hcases⟩ hstep
    have hstaged' : row.id ∈ next.staged.map OutboxRecord.id := by
      obtain ⟨staged, hmem, hid⟩ := List.mem_map.1 hstaged
      exact List.mem_map.2 ⟨staged, step_staged hstep hmem, hid⟩
    refine ⟨hinv.step hstep, hstaged', ?_⟩
    rcases hcases with ⟨row', hrow', hbecomes⟩ | hgone
    · rcases step_evolves hinv hstep hrow' with ⟨row'', hrow'', hevolves⟩ | ⟨hgone, -⟩
      · exact .inl ⟨row'', hrow'', hbecomes.evolve hevolves⟩
      · exact .inr (hbecomes.1 ▸ hgone)
    · exact .inr (step_gone hstep hstaged hgone)
  exact hinvariant.2.2

/-- **No event is lost, and delivery marks are final.** -/
theorem no_event_lost (h : Reachable wiring s) :
    (∀ row ∈ s.table.rows, row.publishedAt = none ∨ row.deadLetteredAt = none)
    ∧ (∀ row ∈ s.table.rows, ¬ Deliverable row →
        ∀ later, Machine.Reaches (Outbox.step wiring) s later →
          (∀ batchSize, ∀ claimed ∈ claim later.table later.locked batchSize, claimed.id ≠ row.id)
          ∧ ∀ row' ∈ later.table.rows, row'.id = row.id → row' = row)
    ∧ (∀ row ∈ s.table.rows, ∀ later, Machine.Reaches (Outbox.step wiring) s later →
        ∀ row' ∈ later.table.rows, row'.id = row.id → row.retryCount ≤ row'.retryCount)
    ∧ (∀ staged ∈ s.staged,
        (∃ row ∈ s.table.rows, row.id = staged.id ∧ row.event = staged.event
          ∧ row.publishedAt = none)
        ∨ ∃ d ∈ s.attempts, d.1.id = staged.id ∧ d.1.event = staged.event
            ∧ ∃ event, wiring.registry staged.event = .ok event
              ∧ ∀ handler ∈ wiring.listeners event, d.2.raises handler = none)
    ∧ ∀ action later, Outbox.step wiring s action = some later → ∀ row ∈ s.table.rows,
        (∀ row' ∈ later.table.rows, row'.id ≠ row.id) →
        ∃ cutoff batchSize order t, action = .purge cutoff batchSize order
          ∧ row.publishedAt = some t ∧ t ≤ cutoff ∧ row.deadLetteredAt = none := by
  -- Ids are unique, so the row found under the same id is the one that the row became.
  have hbecomes : ∀ {row row' : OutboxRecord E} {later : System E H}, row ∈ s.table.rows →
      Machine.Reaches (Outbox.step wiring) s later → row' ∈ later.table.rows → row'.id = row.id →
      Becomes row row' := by
    intro row row' later hrow hlater hrow' hid
    rcases reaches_becomes h hlater hrow with ⟨row'', hrow'', hbecomes⟩ | hgone
    · exact Table.eq_of_id hrow'' hrow' (hbecomes.1.trans hid.symm) ▸ hbecomes
    · exact absurd hid (hgone row' hrow')
  refine ⟨h.inv.once, fun row hrow hfinal later hlater => ⟨fun batchSize claimed hclaimed hid => ?_,
      fun row' hrow' hid => (hbecomes hrow hlater hrow' hid).2.1 hfinal⟩,
    fun row hrow later hlater row' hrow' hid => (hbecomes hrow hlater hrow' hid).2.2,
    fun staged hstaged => ?_, fun action later hstep row hrow hgone => ?_⟩
  · obtain ⟨hmem, hdeliverable, -⟩ := mem_claim hclaimed
    exact hfinal ((hbecomes hrow hlater hmem hid).2.1 hfinal ▸ hdeliverable)
  · rcases h.inv.kept staged hstaged with hpending | ⟨d, hd, hid, hevent, hdelivered⟩
    · exact .inl hpending
    · exact .inr ⟨d, hd, hid, hevent, hevent ▸ hdelivered⟩
  · rcases step_evolves h.inv hstep hrow with ⟨row', hrow', hevolves⟩
      | ⟨-, cutoff, n, order, ha, hprune⟩
    · exact absurd hevolves.id_eq (hgone row' hrow')
    · obtain ⟨⟨t, ht, hle⟩, hdead⟩ := hprune
      exact ⟨cutoff, n, order, t, ha, ht, hle, hdead⟩

end Invariant

section Witness

/-- One handler, subscribed to every event. -/
def loneHandler : Wiring Unit Unit Unit := ⟨fun _ => py "Ping", fun _ => .ok (), fun _ => [()]⟩

/-- Stage one event and deliver it. -/
def deliveringRun : List (Action Unit Unit) :=
  [.stage [⟨1, (), 1, none, none, 0, none⟩], .poll 100 300,
    .attempt 0 ⟨fun _ => none, fun _ => none, 9⟩, .commit 0]

theorem no_event_lost_delivered : ∃ s : System Unit Unit, Reachable loneHandler s
    ∧ s.table.rows.map OutboxRecord.publishedAt = [some 9]
    ∧ ∀ later, Machine.Reaches (step loneHandler) s later → ∀ row ∈ s.table.rows,
        ∀ row' ∈ later.table.rows, row'.id = row.id → row' = row := by
  have hrun : (Machine.runActions (step loneHandler) System.empty deliveringRun).map
      (fun s => s.table.rows.map OutboxRecord.publishedAt) = some [some 9] := by
    decide +kernel
  obtain ⟨s, hs, hpublished⟩ := Option.map_eq_some_iff.1 hrun
  have hreach : Reachable loneHandler s := Machine.reaches_of_runActions hs
  refine ⟨s, hreach, hpublished, fun later hlater row hrow => ?_⟩
  have hfinal : ¬ Deliverable row := fun hdeliverable => by
    have hmem : row.publishedAt ∈ s.table.rows.map OutboxRecord.publishedAt :=
      List.mem_map_of_mem hrow
    rw [hpublished, hdeliverable.1] at hmem
    simp at hmem
  exact ((no_event_lost hreach).2.1 row hrow hfinal later hlater).2

end Witness

/-! ## The code as runs of the system -/

section Code

variable {s : System E H}

/-- The attempt at the next row of the last poll, if the logger takes its failure. -/
theorem step_attempt_last {polls : List (Poll E)} {maxRetries : Nat} {trial : Trial H}
    {row : OutboxRecord E} {todo : List (OutboxRecord E)} {marks : List (Mark E)}
    (hpolls : s.polls = polls ++ [⟨maxRetries, row :: todo, marks⟩])
    (hlogged : Logged wiring maxRetries trial row) :
    step wiring s (.attempt polls.length trial) = some { s with
      polls := polls ++ [⟨maxRetries, todo, marks ++ [(row, settle maxRetries trial.now row
        (attempt wiring trial.raises row))]⟩]
      attempts := s.attempts ++ [(row, trial)] } := by
  have hget : s.polls[polls.length]? = some ⟨maxRetries, row :: todo, marks⟩ := by
    rw [hpolls]
    simp
  simp only [step, hget, attemptRow_eq_ok.2 ⟨hlogged, rfl⟩]
  rw [hpolls]
  simp

/-- Without the last poll. -/
theorem eraseIdx_last {polls : List (Poll E)} {poll : Poll E} (hpolls : s.polls = polls ++ [poll]) :
    s.polls.eraseIdx polls.length = polls := by
  rw [hpolls, List.eraseIdx_append_of_length_le (Nat.le_refl _), Nat.sub_self]
  simp

/-- A poll's loop, from its first row to its last, or to the one at which the logger raises. -/
theorem attemptAll_reaches {polls : List (Poll E)} {maxRetries : Nat}
    {trial : OutboxRecord E → Trial H} {todo : List (OutboxRecord E)} {marks : List (Mark E)}
    (hpolls : s.polls = polls ++ [⟨maxRetries, todo, marks⟩]) :
    ∃ s', Machine.Reaches (step wiring) s s' ∧ s'.table = s.table ∧ s'.polls = polls ++
      match attemptAll wiring maxRetries trial todo with
      | .ok marks' => [⟨maxRetries, [], marks ++ marks'⟩]
      | .error _ => [] := by
  induction todo generalizing s marks with
  | nil => exact ⟨s, .refl, rfl, by rw [hpolls]; simp [attemptAll]⟩
  | cons row todo ih =>
    cases hrow : attemptRow wiring maxRetries (trial row) row with
    | error text =>
      have hget : s.polls[polls.length]? = some ⟨maxRetries, row :: todo, marks⟩ := by
        rw [hpolls]
        simp
      have hstep : step wiring s (.attempt polls.length (trial row)) = some { s with
          polls := polls
          attempts := s.attempts ++ [(row, trial row)] } := by
        simp only [step, hget, hrow, eraseIdx_last hpolls]
      refine ⟨_, .tail _ .refl hstep, rfl, ?_⟩
      simp [attemptAll, hrow]
    | ok mark =>
      obtain ⟨hlogged, rfl⟩ := attemptRow_eq_ok.1 hrow
      obtain ⟨s', hreach, htable, hpolls'⟩ := ih (s := { s with
        polls := polls ++ [⟨maxRetries, todo, marks ++ [(row, settle maxRetries (trial row).now row
          (attempt wiring (trial row).raises row))]⟩]
        attempts := s.attempts ++ [(row, trial row)] }) rfl
      refine ⟨s', (Machine.Reaches.tail _ .refl (step_attempt_last hpolls hlogged)).trans hreach,
        htable, ?_⟩
      rw [hpolls']
      simp only [attemptAll, hrow, Except.ok_bind]
      cases attemptAll wiring maxRetries trial todo <;> simp

/-- **A call of `deliver_pending` is a run of the system**, beside any open polls: one that returns
leaves its table, one that raises leaves the table as it was. -/
theorem deliverPending_reaches {batchSize maxRetries : Nat} {trial : OutboxRecord E → Trial H} :
    ∃ s', Machine.Reaches (step wiring) s s' ∧ s'.polls = s.polls ∧ s'.table =
      match deliverPending wiring batchSize maxRetries s.locked trial s.table with
      | .ok (_, table) => table
      | .error _ => s.table := by
  have hstart : Machine.Reaches (step wiring) s
      { s with polls := s.polls ++ [⟨maxRetries, claim s.table s.locked batchSize, []⟩] } :=
    .tail (.poll batchSize maxRetries) .refl rfl
  obtain ⟨mid, hreach, htable, hpolls⟩ := @attemptAll_reaches _ _ _ wiring
    { s with polls := s.polls ++ [⟨maxRetries, claim s.table s.locked batchSize, []⟩] }
    s.polls maxRetries trial (claim s.table s.locked batchSize) [] rfl
  cases hall : attemptAll wiring maxRetries trial (claim s.table s.locked batchSize) with
  | error text =>
    rw [hall, List.append_nil] at hpolls
    refine ⟨mid, hstart.trans hreach, hpolls, ?_⟩
    simp [deliverPending, hall, htable]
  | ok marks =>
    rw [hall] at hpolls
    change mid.polls = s.polls ++ [⟨maxRetries, [], marks⟩] at hpolls
    have hget : mid.polls[s.polls.length]? = some ⟨maxRetries, [], marks⟩ := by
      rw [hpolls]
      simp
    cases hcommit : commitMarks s.table marks with
    | error error =>
      have hstep : step wiring mid (.commit s.polls.length)
          = some { mid with polls := s.polls } := by
        simp only [step, hget, htable, hcommit, eraseIdx_last hpolls]
      refine ⟨_, (hstart.trans hreach).tail _ hstep, rfl, ?_⟩
      simp [deliverPending, hall, hcommit, htable]
    | ok table =>
      have hstep : step wiring mid (.commit s.polls.length)
          = some { mid with table, polls := s.polls } := by
        simp only [step, hget, htable, hcommit, eraseIdx_last hpolls]
      refine ⟨_, (hstart.trans hreach).tail _ hstep, rfl, ?_⟩
      simp [deliverPending, hall, hcommit]

/-- **A call of `purge_published` is a run of the system.** -/
theorem purgePublished_reaches (cutoff : Time) (batchSize : Nat) (order : OutboxRecord E → Nat)
    (batches : Nat) : ∃ s', Machine.Reaches (step wiring) s s'
      ∧ s'.table = (purgePublished cutoff batchSize order batches s.table).2 := by
  induction batches generalizing s with
  | zero => exact ⟨s, .refl, rfl⟩
  | succ batches ih =>
    have hstep : Machine.Reaches (step wiring) s
        { s with table := s.table.delete (victims cutoff batchSize order s.table) } :=
      .tail (.purge cutoff batchSize order) .refl rfl
    unfold purgePublished
    dsimp only
    split
    · exact ⟨_, hstep, rfl⟩
    · obtain ⟨s', hreach, htable⟩ := ih
        (s := { s with table := s.table.delete (victims cutoff batchSize order s.table) })
      exact ⟨s', hstep.trans hreach, htable⟩

end Code

end TaskService.Outbox
