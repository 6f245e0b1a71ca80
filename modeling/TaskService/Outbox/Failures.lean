import TaskService.Outbox.Redelivery

/-!
# Failed attempts are accounted for

A failed attempt counts on its row when its poll commits, and is forgotten when the poll is rolled
back. So the counter of a row is no higher than the number of attempts that failed at it, in any
relay; and a row is dead-lettered only once the counter has reached what a relay allows.

* **`dead_letters_accounted`**: the counter, the error and the dead-letter stamp of a row, in every
  run.
-/

namespace TaskService.Outbox

open Store

variable {E Ev H : Type} {wiring : Wiring E Ev H} {s s' : System E H} {m : Nat}

/-! ## Counting failures -/

/-- How often an attempt at the row with this id has failed. -/
def failures (wiring : Wiring E Ev H) (id : Uuid) (s : System E H) : Nat :=
  s.attempts.countP fun d => d.1.id = id && !completes wiring d

/-- An attempt at the row failed, and left this error. -/
def FailedWith (wiring : Wiring E Ev H) (s : System E H) (id : Uuid) (error : PyStr) : Prop :=
  ∃ d ∈ s.attempts, d.1.id = id
    ∧ ∃ reason, attempt wiring d.2.raises d.1 = .error reason
      ∧ error = reason.take lastErrorMaxLength

/-- The failures noted on a row, as it is stored or as a poll is about to store it, happened. -/
structure Accounted (wiring : Wiring E Ev H) (m : Nat) (s : System E H) (row : OutboxRecord E) :
    Prop where
  counted : row.retryCount ≤ failures wiring row.id s
  noted : row.retryCount = 0 ∧ row.lastError = none
    ∨ ∃ error, row.lastError = some error ∧ FailedWith wiring s row.id error
  dead : row.deadLetteredAt ≠ none → 0 < row.retryCount ∧ m ≤ row.retryCount

/-- All failures are, and every open poll allows `m` attempts. -/
structure AllAccounted (wiring : Wiring E Ev H) (m : Nat) (s : System E H) : Prop where
  rows : ∀ row ∈ s.table.rows, Accounted wiring m s row
  marks : ∀ poll ∈ s.polls, ∀ mark ∈ poll.marks, Accounted wiring m s mark.2
  allows : ∀ poll ∈ s.polls, m ≤ poll.maxRetries

/-- More attempts account for what fewer do. -/
theorem Accounted.mono {row : OutboxRecord E} (h : Accounted wiring m s row)
    (hattempts : s.attempts <+: s'.attempts) : Accounted wiring m s' row where
  counted := h.counted.trans (hattempts.sublist.countP_le)
  noted := h.noted.imp_right fun ⟨error, herror, d, hd, hid, hfailed⟩ =>
    ⟨error, herror, d, hattempts.subset hd, hid, hfailed⟩
  dead := h.dead

theorem accounted_of_pending {row : OutboxRecord E} (h : Pending row) :
    Accounted wiring m s row := by
  obtain ⟨-, hdead, hretry, herror⟩ := h
  exact ⟨hretry ▸ Nat.zero_le _, .inl ⟨hretry, herror⟩, fun hnot => absurd hdead hnot⟩

/-! ## Steps -/

/-- **An attempt that fails is one more failure than its row has noted.** -/
theorem Accounted.settle {row : OutboxRecord E} {trial : Trial H} {maxRetries : Nat}
    (h : Accounted wiring m s row) (hlive : row.deadLetteredAt = none) (hallows : m ≤ maxRetries)
    (hattempts : s'.attempts = s.attempts ++ [(row, trial)]) :
    Accounted wiring m s'
      (Outbox.settle maxRetries trial.now row (attempt wiring trial.raises row)) := by
  have hmade : s.attempts <+: s'.attempts := ⟨_, hattempts.symm⟩
  have hmore := h.mono hmade
  cases hresult : attempt wiring trial.raises row with
  | ok u => exact ⟨hmore.counted, hmore.noted, hmore.dead⟩
  | error reason =>
    have hcount : row.retryCount + 1 ≤ failures wiring row.id s' := by
      have hfailed : completes wiring (row, trial) = false := by
        rw [completes, hresult]
        rfl
      have hone : failures wiring row.id s' = failures wiring row.id s + 1 := by
        simp [failures, hattempts, hfailed]
      have := h.counted
      omega
    have hnoted : FailedWith wiring s' row.id (reason.take lastErrorMaxLength) := by
      refine ⟨(row, trial), ?_, rfl, reason, hresult, rfl⟩
      rw [hattempts]
      exact List.mem_append_right _ (List.mem_singleton.2 rfl)
    dsimp only [Outbox.settle]
    split
    next hlast => exact ⟨hcount, .inr ⟨_, rfl, hnoted⟩, fun _ => ⟨Nat.succ_pos _, by
      have : maxRetries ≤ row.retryCount + 1 := hlast
      show m ≤ row.retryCount + 1
      omega⟩⟩
    next => exact ⟨hcount, .inr ⟨_, rfl, hnoted⟩, fun hdead => absurd hlive hdead⟩

/-- A commit leaves a row as it is, or as the poll that holds it has marked it. -/
theorem commit_mark (hinv : Inv wiring s) {before after : List (Poll E)} {maxRetries : Nat}
    {marks : List (Mark E)} (hpolls : s.polls = before ++ ⟨maxRetries, [], marks⟩ :: after)
    {row : OutboxRecord E} (hrow : row ∈ s.table.rows) :
    updateAll marks row = row ∨ ∃ mark ∈ marks, updateAll marks row = mark.2 := by
  rcases commit_row hinv hpolls hrow with ⟨-, hsame⟩ | ⟨hmine, -⟩
  · exact .inl hsame
  · have hself : ⟨maxRetries, [], marks⟩ ∈ s.polls := by
      rw [hpolls]
      simp
    have hheld : Poll.held ⟨maxRetries, [], marks⟩ = marks.map Prod.fst := List.append_nil _
    have hnodup : (marks.map fun mark => mark.1.id).Nodup := by
      have := (locked_middle hpolls hinv.apart).1
      rwa [hheld, List.map_map] at this
    obtain ⟨mark, hmark, rfl⟩ := List.mem_map.1 hmine
    obtain ⟨trial, -, hsettle⟩ := hinv.marks _ hself mark hmark
    refine .inr ⟨mark, hmark, ?_⟩
    rw [updateAll_of_mem hnodup hmark rfl, hsettle, marked_settle]

/-- What is stored stays accounted for when polls are rolled back. -/
theorem AllAccounted.rollback (h : AllAccounted wiring m s) {polls : List (Poll E)}
    {attempts : List (OutboxRecord E × Trial H)} (hpolls : ∀ poll ∈ polls, poll ∈ s.polls)
    (hmade : s.attempts <+: attempts) : AllAccounted wiring m { s with polls, attempts } :=
  ⟨fun row hrow => (h.rows row hrow).mono hmade,
    fun poll hpoll mark hmark => (h.marks poll (hpolls poll hpoll) mark hmark).mono hmade,
    fun poll hpoll => h.allows poll (hpolls poll hpoll)⟩

/-- The relays of this action allow `m` attempts. -/
def Action.Allows (m : Nat) : Action E H → Prop
  | .poll _ maxRetries => m ≤ maxRetries
  | _ => True

/-- **Every step keeps failures accounted for.** -/
theorem AllAccounted.step (hinv : Inv wiring s) (h : AllAccounted wiring m s) {action : Action E H}
    (hallows : action.Allows m) (hstep : Outbox.step wiring s action = some s') :
    AllAccounted wiring m s' := by
  cases action with
  | stage rows =>
    obtain ⟨table, rfl, hrows, hnew⟩ := stage_cases hstep
    refine ⟨fun row hrow => ?_, fun poll hpoll mark hmark =>
      (h.marks poll hpoll mark hmark).mono (List.prefix_refl _), h.allows⟩
    change row ∈ table.rows at hrow
    rw [hrows] at hrow
    rcases List.mem_append.1 hrow with hold | hadded
    · exact (h.rows row hold).mono (List.prefix_refl _)
    · exact accounted_of_pending (hnew row hadded).1
  | poll batchSize maxRetries =>
    obtain rfl := Option.some.inj hstep
    have hpolls : ∀ {poll opened : Poll E}, poll ∈ s.polls ++ [opened] →
        poll ∈ s.polls ∨ poll = opened := fun hpoll =>
      (List.mem_append.1 hpoll).imp_right List.mem_singleton.1
    refine ⟨fun row hrow => (h.rows row hrow).mono (List.prefix_refl _),
      fun poll hpoll mark hmark => ?_, fun poll hpoll => ?_⟩
    · rcases hpolls hpoll with hold | rfl
      · exact (h.marks poll hold mark hmark).mono (List.prefix_refl _)
      · exact absurd hmark List.not_mem_nil
    · rcases hpolls hpoll with hold | rfl
      · exact h.allows poll hold
      · exact hallows
  | attempt i trial =>
    obtain ⟨before, after, maxRetries, row, todo, marks, left, hpolls, hleft, rfl⟩ :=
      attempt_cases hstep
    have hmade : s.attempts <+: s.attempts ++ [(row, trial)] := List.prefix_append _ _
    have hself : ⟨maxRetries, row :: todo, marks⟩ ∈ s.polls := by
      rw [hpolls]
      simp
    obtain ⟨hrow, hdeliverable⟩ := hinv.held _ hself row (by simp [Poll.held])
    have hall := Machine.forall_mem_middle.1 (hpolls ▸ h.marks)
    have hmine := hall.1
    have hallowed := Machine.forall_mem_middle.1 (hpolls ▸ h.allows)
    rcases hleft with ⟨rfl, -⟩ | ⟨rfl, -⟩
    · refine ⟨fun row hrow => (h.rows row hrow).mono hmade,
        Machine.forall_mem_middle.2 ⟨fun mark hmark => ?_, fun poll hpoll mark hmark =>
          (hall.2 poll hpoll mark hmark).mono hmade⟩,
        Machine.forall_mem_middle.2 ⟨hallowed.1, hallowed.2⟩⟩
      rcases List.mem_append.1 hmark with hold | hnew
      · exact (hmine mark hold).mono hmade
      · obtain rfl := List.mem_singleton.1 hnew
        exact (h.rows row hrow).settle hdeliverable.2 hallowed.1 rfl
    · exact h.rollback (fun poll hpoll => hpolls ▸ Machine.sublist_middle.mem hpoll) hmade
  | commit i =>
    rcases commit_cases hstep with
      ⟨before, after, maxRetries, marks, table, hpolls, hcommit, rfl⟩ | ⟨-, hrefused⟩
    · have hrows := (commitMarks_eq_ok.1 hcommit).2
      have hall := Machine.forall_mem_middle.1 (hpolls ▸ h.marks)
      have hallowed := Machine.forall_mem_middle.1 (hpolls ▸ h.allows)
      refine ⟨fun row' hrow' => ?_, fun poll hpoll mark hmark =>
        (hall.2 poll hpoll mark hmark).mono (List.prefix_refl _), hallowed.2⟩
      obtain ⟨row, hrow, rfl⟩ := List.mem_map.1 (hrows ▸ hrow')
      rcases commit_mark hinv hpolls hrow with hsame | ⟨mark, hmark, hmarked⟩
      · rw [hsame]
        exact (h.rows row hrow).mono (List.prefix_refl _)
      · rw [hmarked]
        exact (hall.1 mark hmark).mono (List.prefix_refl _)
    · obtain rfl := Option.some.inj hrefused
      exact h.rollback (fun poll hpoll => (List.eraseIdx_sublist _ _).mem hpoll)
        (List.prefix_refl _)
  | crash i =>
    obtain rfl := Option.some.inj hstep
    exact h.rollback (fun poll hpoll => (List.eraseIdx_sublist _ _).mem hpoll) (List.prefix_refl _)
  | purge cutoff batchSize order =>
    obtain rfl := Option.some.inj hstep
    exact ⟨fun row hrow => (h.rows row (mem_delete.1 hrow).1).mono (List.prefix_refl _),
      fun poll hpoll mark hmark => (h.marks poll hpoll mark hmark).mono (List.prefix_refl _),
      h.allows⟩

theorem allAccounted_empty : AllAccounted wiring m (System.empty : System E H) :=
  ⟨fun _ hrow => absurd hrow List.not_mem_nil, fun _ hpoll => absurd hpoll List.not_mem_nil,
    fun _ hpoll => absurd hpoll List.not_mem_nil⟩

/-- In every run. -/
theorem Reachable.accounted (h : Reachable wiring s) : AllAccounted wiring 0 s := by
  have hboth : Inv wiring s ∧ AllAccounted wiring 0 s := by
    refine Machine.Reaches.invariant (I := fun s => Inv wiring s ∧ AllAccounted wiring 0 s) h
      ⟨inv_empty, allAccounted_empty⟩ fun s a s' hI hstep =>
        ⟨hI.1.step hstep, hI.2.step hI.1 ?_ hstep⟩
    cases a with
    | poll => exact Nat.zero_le _
    | _ => trivial
  exact hboth.2

/-- **Dead-letters are accounted for.** In every run of writers, relays and prunes in which every
relay allows `m` attempts: no row has more retries than attempts at it failed, in whatever relay;
its error is what one of them raised, cut; and a dead-lettered row has failed, and at least `m`
times. -/
theorem dead_letters_accounted {actions : List (Action E H)}
    (hallows : ∀ action ∈ actions, action.Allows m)
    (h : Machine.runActions (step wiring) System.empty actions = some s) :
    ∀ row ∈ s.table.rows, row.retryCount ≤ failures wiring row.id s
      ∧ (row.retryCount = 0 ∧ row.lastError = none
        ∨ ∃ error, row.lastError = some error ∧ FailedWith wiring s row.id error)
      ∧ (row.deadLetteredAt ≠ none → 0 < row.retryCount ∧ m ≤ row.retryCount) := by
  have hall : Inv wiring s ∧ AllAccounted wiring m s :=
    Machine.runActions_invariant (P := fun action => action.Allows m)
      (I := fun s => Inv wiring s ∧ AllAccounted wiring m s)
      (fun s a s' ha hI hstep => ⟨hI.1.step hstep, hI.2.step hI.1 ha hstep⟩) hallows
      ⟨inv_empty, allAccounted_empty⟩ h
  intro row hrow
  have haccounted := hall.2.rows row hrow
  exact ⟨haccounted.counted, haccounted.noted, haccounted.dead⟩

section Witness

/-- An attempt fails and its relay dies; two more fail, and the second is the last one allowed. -/
def failingRun : List (Action Unit Unit) :=
  [.stage [⟨1, (), 1, none, none, 0, none⟩],
    .poll 100 2, .attempt 0 ⟨fun _ => some (py "down"), fun _ => none, 9⟩, .crash 0,
    .poll 100 2, .attempt 0 ⟨fun _ => some (py "down"), fun _ => none, 10⟩, .commit 0,
    .poll 100 2, .attempt 0 ⟨fun _ => some (py "down"), fun _ => none, 11⟩, .commit 0]

theorem dead_letters_accounted_down : ∃ s : System Unit Unit,
    Machine.runActions (step loneHandler) System.empty failingRun = some s
    ∧ failures loneHandler 1 s = 3
    ∧ s.table.rows.map (fun row => (row.retryCount, row.deadLetteredAt)) = [(2, some 11)]
    ∧ ∀ row ∈ s.table.rows, row.retryCount ≤ failures loneHandler row.id s := by
  have hrun : (Machine.runActions (step loneHandler) System.empty failingRun).map
      (fun s => (failures loneHandler 1 s,
        s.table.rows.map fun row => (row.retryCount, row.deadLetteredAt)))
      = some (3, [(2, some 11)]) := by
    decide +kernel
  have hallows : ∀ action ∈ failingRun, action.Allows 2 := by
    simp [failingRun, Action.Allows]
  obtain ⟨s, hs, hboth⟩ := Option.map_eq_some_iff.1 hrun
  obtain ⟨hcount, hrows⟩ := Prod.mk.inj hboth
  exact ⟨s, hs, hcount, hrows, fun row hrow => (dead_letters_accounted hallows hs row hrow).1⟩

end Witness

end TaskService.Outbox
