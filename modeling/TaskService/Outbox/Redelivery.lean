import TaskService.Outbox.Deployment

/-!
# Delivered twice

Delivery is at least once: a poll that is rolled back after dispatching a row leaves no mark, and
the row is dispatched again. Its relay has died, or lives on because only its commit was refused or
the logger raised at another row of the batch. There is no second delivery without a roll-back: not
through two relays at once, nor through a retry, nor through a later poll.

* **`Spent`**: the row cannot be delivered again, as things stand.
* **`delivered_again_only_after_rollback`**: how often a row is delivered.
-/

namespace TaskService.Outbox

open Store

variable {E Ev H : Type} {wiring : Wiring E Ev H} {s s' : System E H}

/-! ## Counting deliveries -/

/-- The attempt completed every listener. -/
def completes (wiring : Wiring E Ev H) (d : OutboxRecord E × Trial H) : Bool :=
  (attempt wiring d.2.raises d.1).isOk

/-- How often the row with this id has been delivered. -/
def deliveries (wiring : Wiring E Ev H) (id : Uuid) (s : System E H) : Nat :=
  s.attempts.countP fun d => d.1.id = id && completes wiring d

/-- The poll has delivered the row, and not yet committed. -/
def Poll.delivered (poll : Poll E) (id : Uuid) : Bool :=
  poll.marks.any fun mark => mark.1.id = id && mark.2.publishedAt.isSome

/-- The poll that the action rolls back: its relay dies, the logger raises at a failure, or the
commit is refused. -/
def rolledBack (wiring : Wiring E Ev H) (s : System E H) : Action E H → Option (Poll E)
  | .crash i => s.polls[i]?
  | .attempt i trial => (s.polls[i]?).filter fun poll =>
      match poll.todo with
      | [] => false
      | row :: _ => !(attemptRow wiring poll.maxRetries trial row).isOk
  | .commit i => (s.polls[i]?).filter fun poll => !(commitMarks s.table poll.marks).isOk
  | _ => none

/-- A poll is rolled back that has delivered the row. -/
def forgets (wiring : Wiring E Ev H) (id : Uuid) (s : System E H) (action : Action E H) : Bool :=
  (rolledBack wiring s action).any fun poll => poll.delivered id

/-! ## The invariant -/

/-- The row cannot be delivered again, as things stand: a poll is about to commit its delivery, or
it is not deliverable. -/
def Spent (id : Uuid) (s : System E H) : Prop :=
  (∃ poll ∈ s.polls, poll.delivered id = true)
    ∨ ∀ row ∈ s.table.rows, row.id = id → ¬ Deliverable row

/-- Of `n` roll-backs and one more delivery, that one is spent. -/
def Tallied (wiring : Wiring E Ev H) (id : Uuid) (s : System E H) (n : Nat) : Prop :=
  deliveries wiring id s ≤ n + 1 ∧ (¬ Spent id s → deliveries wiring id s ≤ n)

/-- Nothing is delivered, and what was spent stays so. -/
theorem Tallied.mono {id : Uuid} {n n' : Nat} (h : Tallied wiring id s n) (hn : n ≤ n')
    (hsame : deliveries wiring id s' = deliveries wiring id s) (hspent : Spent id s → Spent id s') :
    Tallied wiring id s' n' := by
  rw [Tallied, hsame]
  refine ⟨by have := h.1; omega, fun hunspent => ?_⟩
  have := h.2 fun hs => hunspent (hspent hs)
  omega

theorem delivered_iff {poll : Poll E} {id : Uuid} : poll.delivered id = true ↔
    ∃ mark ∈ poll.marks, mark.1.id = id ∧ mark.2.publishedAt ≠ none := by
  simp [Poll.delivered, Option.isSome_iff_ne_none]

/-- An attempt publishes a deliverable row exactly when every listener completes. -/
theorem publishedAt_settle {row : OutboxRecord E} (h : Deliverable row) (maxRetries : Nat)
    (trial : Trial H) :
    (settle maxRetries trial.now row (attempt wiring trial.raises row)).publishedAt ≠ none
      ↔ completes wiring (row, trial) = true := by
  unfold completes
  cases attempt wiring trial.raises row with
  | ok u => simp [settle, Except.isOk, Except.toBool]
  | error reason =>
    dsimp only [settle]
    split <;> simp [h.1, Except.isOk, Except.toBool]

theorem deliveries_of_unstaged {id : Uuid} (h : AllSourced s)
    (hid : id ∉ s.staged.map OutboxRecord.id) : deliveries wiring id s = 0 := by
  refine List.countP_eq_zero.2 fun d hd hcount => hid ?_
  obtain ⟨staged, hstaged, heq, -⟩ := h.attempts d hd
  have hsame : d.1.id = id := by simp at hcount; exact hcount.1
  exact List.mem_map.2 ⟨staged, hstaged, heq.trans hsame⟩

/-- A row in the hands of a poll that has yet to attempt it is not spent. -/
theorem not_spent_of_todo (hinv : Inv wiring s) {before after : List (Poll E)} {maxRetries : Nat}
    {row : OutboxRecord E} {todo : List (OutboxRecord E)} {marks : List (Mark E)}
    (hpolls : s.polls = before ++ ⟨maxRetries, row :: todo, marks⟩ :: after) :
    ¬ Spent row.id s := by
  have hself : ⟨maxRetries, row :: todo, marks⟩ ∈ s.polls := by
    rw [hpolls]
    simp
  have hheld : row ∈ Poll.held ⟨maxRetries, row :: todo, marks⟩ := by simp [Poll.held]
  obtain ⟨hrow, hdeliverable⟩ := hinv.held _ hself row hheld
  obtain ⟨hmine, -, hdisjoint⟩ := locked_middle hpolls hinv.apart
  rintro (⟨poll, hpoll, hdelivered⟩ | hnone)
  · obtain ⟨mark, hmark, hid, -⟩ := delivered_iff.1 hdelivered
    rw [hpolls] at hpoll
    rcases List.mem_append.1 hpoll with hother | hpoll
    · refine hdisjoint row.id (List.mem_map_of_mem hheld) ?_
      rw [← hid]
      exact List.mem_flatMap.2 ⟨poll, List.mem_append_left _ hother, List.mem_map_of_mem
        (List.mem_append_left _ (List.mem_map_of_mem hmark))⟩
    · rcases List.mem_cons.1 hpoll with rfl | hother
      · -- the rows a poll holds are distinct
        rw [Poll.held, List.map_append, List.nodup_append'] at hmine
        refine hmine.2.2 (List.mem_map_of_mem (List.mem_map_of_mem hmark)) ?_
        rw [hid]
        exact List.mem_map_of_mem List.mem_cons_self
      · refine hdisjoint row.id (List.mem_map_of_mem hheld) ?_
        rw [← hid]
        exact List.mem_flatMap.2 ⟨poll, List.mem_append_right _ hother, List.mem_map_of_mem
          (List.mem_append_left _ (List.mem_map_of_mem hmark))⟩
  · exact hnone row hrow rfl hdeliverable

/-- What a poll had delivered is forgotten when it is rolled back. -/
theorem Tallied.rollback {id : Uuid} {n i : Nat} (h : Tallied wiring id s n)
    {attempts : List (OutboxRecord E × Trial H)}
    (hsame : deliveries wiring id { s with polls := s.polls.eraseIdx i, attempts }
      = deliveries wiring id s) :
    Tallied wiring id { s with polls := s.polls.eraseIdx i, attempts }
      (n + ((s.polls[i]?).any fun poll => poll.delivered id).toNat) := by
  cases hforgets : (s.polls[i]?).any fun poll => poll.delivered id with
  | true =>
    rw [Tallied, hsame]
    exact ⟨Nat.le_succ_of_le h.1, fun _ => h.1⟩
  | false =>
    refine h.mono (Nat.le_refl _) hsame ?_
    rintro (⟨poll, hpoll, hdelivered⟩ | hnone)
    · -- the poll that is rolled back is another one
      refine .inl ⟨poll, ?_, hdelivered⟩
      obtain ⟨j, hj⟩ := List.mem_iff_getElem?.1 hpoll
      refine List.mem_eraseIdx_iff_getElem?.2 ⟨j, ?_, hj⟩
      rintro rfl
      rw [hj] at hforgets
      change poll.delivered id = false at hforgets
      rw [hforgets] at hdelivered
      cases hdelivered
    · exact .inr hnone

theorem Tallied.attempt (hinv : Inv wiring s) {id : Uuid} {n i : Nat} {trial : Trial H}
    (h : Tallied wiring id s n) (hstep : step wiring s (.attempt i trial) = some s') :
    Tallied wiring id s' (n + (forgets wiring id s (.attempt i trial)).toNat) := by
  have hstarted := hstep
  obtain ⟨before, after, maxRetries, row, todo, marks, left, hpolls, hleft, rfl⟩ :=
    attempt_cases hstep
  have hself : ⟨maxRetries, row :: todo, marks⟩ ∈ s.polls := by
    rw [hpolls]
    simp
  have hdeliverable : Deliverable row :=
    (hinv.held _ hself row (by simp [Poll.held])).2
  rcases hleft with ⟨rfl, -⟩ | ⟨rfl, hget, text, hraised⟩
  · by_cases hcount : row.id = id ∧ completes wiring (row, trial) = true
    · -- the row was not spent, so this is the one delivery that may be
      obtain ⟨rfl, hcompletes⟩ := hcount
      have hbefore := h.2 (not_spent_of_todo hinv hpolls)
      have hspent : Spent row.id { s with
          polls := before ++ ⟨maxRetries, todo, marks ++ [(row, settle maxRetries trial.now row
            (Outbox.attempt wiring trial.raises row))]⟩ :: after
          attempts := s.attempts ++ [(row, trial)] } := by
        refine .inl ⟨_, List.mem_append_right _ List.mem_cons_self, delivered_iff.2 ?_⟩
        exact ⟨_, List.mem_append_right _ List.mem_cons_self, rfl,
          (publishedAt_settle hdeliverable maxRetries trial).2 hcompletes⟩
      refine ⟨?_, fun hunspent => absurd hspent hunspent⟩
      show (s.attempts ++ [(row, trial)]).countP _ ≤ _
      rw [List.countP_append]
      change deliveries wiring row.id s + _ ≤ _
      simp [hcompletes]
      omega
    · refine h.mono (Nat.le_add_right _ _) ?_ ?_
      · show (s.attempts ++ [(row, trial)]).countP _ = deliveries wiring id s
        rw [List.countP_append]
        simpa [deliveries] using hcount
      · rintro (⟨poll, hpoll, hdelivered⟩ | hnone)
        · rw [hpolls] at hpoll
          rcases List.mem_append.1 hpoll with hother | hpoll
          · exact .inl ⟨poll, List.mem_append_left _ hother, hdelivered⟩
          · rcases List.mem_cons.1 hpoll with rfl | hother
            · obtain ⟨mark, hmark, hid⟩ := delivered_iff.1 hdelivered
              exact .inl ⟨_, List.mem_append_right _ List.mem_cons_self,
                delivered_iff.2 ⟨mark, List.mem_append_left _ hmark, hid⟩⟩
            · exact .inl ⟨poll, List.mem_append_right _ (List.mem_cons_of_mem _ hother),
                hdelivered⟩
        · exact .inr hnone
  · -- the logger raised, so the attempt failed
    have hfailed : completes wiring (row, trial) = false := by
      unfold completes
      cases hresult : Outbox.attempt wiring trial.raises row with
      | error reason => rfl
      | ok u =>
        rw [attemptRow, hresult] at hraised
        cases hraised
    have hforgets : forgets wiring id s (.attempt i trial)
        = (s.polls[i]?).any fun poll => poll.delivered id := by
      simp [forgets, rolledBack, hget, hraised, Except.isOk, Except.toBool, Option.filter]
    rw [hforgets]
    simp only [step, hget, hraised] at hstarted
    rw [← Option.some.inj hstarted]
    refine h.rollback ?_
    show (s.attempts ++ [(row, trial)]).countP _ = deliveries wiring id s
    rw [List.countP_append]
    simp [deliveries, hfailed]

theorem Tallied.crash {id : Uuid} {n i : Nat} (h : Tallied wiring id s n)
    (hstep : step wiring s (.crash i) = some s') :
    Tallied wiring id s' (n + (forgets wiring id s (.crash i)).toNat) := by
  obtain rfl := Option.some.inj hstep
  exact h.rollback rfl

theorem Tallied.commit (hinv : Inv wiring s) {id : Uuid} {n i : Nat} (h : Tallied wiring id s n)
    (hstep : step wiring s (.commit i) = some s') :
    Tallied wiring id s' (n + (forgets wiring id s (.commit i)).toNat) := by
  rcases commit_cases hstep with
    ⟨before, after, maxRetries, marks, table, hpolls, hcommit, rfl⟩
    | ⟨⟨poll, error, hget, hcommit⟩, hrefused⟩
  case inr =>
    have hforgets : forgets wiring id s (.commit i) = forgets wiring id s (.crash i) := by
      simp [forgets, rolledBack, hget, hcommit, Except.isOk, Except.toBool, Option.filter]
    rw [hforgets]
    exact h.crash hrefused
  have hrows := (commitMarks_eq_ok.1 hcommit).2
  refine h.mono (Nat.le_add_right _ _) rfl ?_
  rintro (⟨poll, hpoll, hdelivered⟩ | hnone)
  · rw [hpolls] at hpoll
    rcases List.mem_append.1 hpoll with hother | hpoll
    · exact .inl ⟨poll, List.mem_append_left _ hother, hdelivered⟩
    · rcases List.mem_cons.1 hpoll with rfl | hother
      · -- the delivery is committed: the row is published
        obtain ⟨mark, hmark, rfl, hpublished⟩ := delivered_iff.1 hdelivered
        refine .inr fun row' hrow' hid hdeliverable => hpublished ?_
        obtain ⟨row, hrow, rfl⟩ := List.mem_map.1 (hrows ▸ hrow')
        rw [updateAll_id] at hid
        obtain ⟨hmine, -, -⟩ := locked_middle hpolls hinv.apart
        have hnodup : (marks.map fun mark => mark.1.id).Nodup := by
          have hheld : Poll.held ⟨maxRetries, [], marks⟩ = marks.map Prod.fst :=
            List.append_nil _
          rwa [hheld, List.map_map] at hmine
        have hself : ⟨maxRetries, [], marks⟩ ∈ s.polls := by
          rw [hpolls]
          simp
        obtain ⟨hstored, -⟩ := hinv.held _ hself mark.1
          (List.mem_append_left _ (List.mem_map_of_mem hmark))
        obtain rfl := Table.eq_of_id hstored hrow hid.symm
        obtain ⟨trial, -, hsettle⟩ := hinv.marks _ hself mark hmark
        rw [updateAll_of_mem hnodup hmark rfl, hsettle, marked_settle] at hdeliverable
        rw [hsettle]
        exact hdeliverable.1
      · exact .inl ⟨poll, List.mem_append_right _ hother, hdelivered⟩
  · refine .inr fun row' hrow' hid => ?_
    obtain ⟨row, hrow, rfl⟩ := List.mem_map.1 (hrows ▸ hrow')
    rw [updateAll_id] at hid
    rcases commit_evolves hinv hpolls hrow with hsame | ⟨hdeliverable, -⟩
    · rw [hsame]
      exact hnone row hrow hid
    · exact absurd hdeliverable (hnone row hrow hid)

/-- **Every step keeps the tally.** -/
theorem Tallied.step (hinv : Inv wiring s) (hsourced : AllSourced s) {id : Uuid} {n : Nat}
    {action : Action E H} (h : Tallied wiring id s n)
    (hstep : Outbox.step wiring s action = some s') :
    Tallied wiring id s' (n + (forgets wiring id s action).toNat) := by
  cases action with
  | stage rows =>
    obtain ⟨table, rfl, hrows, hnew⟩ := stage_cases hstep
    by_cases hid : id ∈ rows.map OutboxRecord.id
    · -- a row that is new has not been attempted
      obtain ⟨row, hrow, rfl⟩ := List.mem_map.1 hid
      have hzero : deliveries wiring row.id s = 0 :=
        deliveries_of_unstaged hsourced (hnew row hrow).2
      have hnone : deliveries wiring row.id { s with table, staged := s.staged ++ rows } = 0 :=
        hzero
      exact ⟨by omega, fun _ => by omega⟩
    · refine h.mono (Nat.le_refl _) rfl ?_
      rintro (hpoll | hnone)
      · exact .inl hpoll
      · refine .inr fun row hrow heq => ?_
        rcases List.mem_append.1 (hrows ▸ hrow) with hold | hin
        · exact hnone row hold heq
        · exact absurd (List.mem_map.2 ⟨row, hin, heq⟩) hid
  | poll batchSize maxRetries =>
    obtain rfl := Option.some.inj hstep
    refine h.mono (Nat.le_refl _) rfl ?_
    rintro (⟨poll, hpoll, hdelivered⟩ | hnone)
    · exact .inl ⟨poll, List.mem_append_left _ hpoll, hdelivered⟩
    · exact .inr hnone
  | attempt i trial => exact h.attempt hinv hstep
  | commit i => exact h.commit hinv hstep
  | crash i => exact h.crash hstep
  | purge cutoff batchSize order =>
    obtain rfl := Option.some.inj hstep
    refine h.mono (Nat.le_refl _) rfl ?_
    rintro (hpoll | hnone)
    · exact .inl hpoll
    · exact .inr fun row hrow => hnone row (mem_delete.1 hrow).1

/-! ## Every run -/

/-- **A row is delivered again only after a roll-back.** In every run of writers, relays and prunes,
the row under an id is delivered at most once more than there are polls that were rolled back after
delivering it; and while it has been delivered that often, no poll can claim it. -/
theorem delivered_again_only_after_rollback {actions : List (Action E H)}
    (h : Machine.runActions (step wiring) System.empty actions = some s) (id : Uuid) :
    deliveries wiring id s
        ≤ Machine.tally (step wiring) (forgets wiring id) System.empty actions + 1
      ∧ (deliveries wiring id s
            = Machine.tally (step wiring) (forgets wiring id) System.empty actions + 1 →
          ∀ batchSize, ∀ row ∈ claim s.table s.locked batchSize, row.id ≠ id) := by
  have hempty : Tallied wiring id (System.empty : System E H) 0 := ⟨Nat.zero_le _, fun _ => le_rfl⟩
  have hsourced : AllSourced (System.empty : System E H) :=
    ⟨fun _ hrow => (nomatch hrow), fun _ hd => (nomatch hd)⟩
  have hall : Inv wiring s ∧ AllSourced s ∧ Tallied wiring id s
      (0 + Machine.tally (step wiring) (forgets wiring id) System.empty actions) :=
    Machine.runActions_tally (I := fun s n => Inv wiring s ∧ AllSourced s ∧ Tallied wiring id s n)
      (fun s a s' n hI hstep => ⟨hI.1.step hstep, hI.2.1.step hI.1 hstep,
        hI.2.2.step hI.1 hI.2.1 hstep⟩)
      ⟨inv_empty, hsourced, hempty⟩ h
  have htallied := hall.2.2
  rw [Nat.zero_add] at htallied
  refine ⟨htallied.1, fun hequal batchSize row hrow hid => ?_⟩
  obtain ⟨hmem, hdeliverable, hunlocked⟩ := mem_claim hrow
  have hspent : Spent id s := by
    by_contra hunspent
    have := htallied.2 hunspent
    omega
  rcases hspent with ⟨poll, hpoll, hdelivered⟩ | hnone
  · obtain ⟨mark, hmark, rfl, -⟩ := delivered_iff.1 hdelivered
    refine hunlocked (List.mem_flatMap.2 ⟨poll, hpoll, ?_⟩)
    rw [hid]
    exact List.mem_map_of_mem (List.mem_append_left _ (List.mem_map_of_mem hmark))
  · exact hnone row hmem hid hdeliverable

section Witness

/-- The row 1 is delivered and its relay dies. It is delivered again, the row 2 fails in the same
batch with the text U+0000, and the commit is refused. It is delivered again, and the logger raises
at the failure of the row 2. At the last both are delivered and committed. -/
def redeliveringRun : List (Action Unit Unit) :=
  [.stage [⟨1, (), 1, none, none, 0, none⟩, ⟨2, (), 2, none, none, 0, none⟩],
    .poll 100 300, .attempt 0 ⟨fun _ => none, fun _ => none, 9⟩, .crash 0,
    .poll 100 300, .attempt 0 ⟨fun _ => none, fun _ => none, 10⟩,
    .attempt 0 ⟨fun _ => some [0], fun _ => none, 11⟩, .commit 0,
    .poll 100 300, .attempt 0 ⟨fun _ => none, fun _ => none, 12⟩,
    .attempt 0 ⟨fun _ => some [0xD800], fun _ => some (py "surrogates not allowed"), 13⟩,
    .poll 100 300, .attempt 0 ⟨fun _ => none, fun _ => none, 14⟩,
    .attempt 0 ⟨fun _ => none, fun _ => none, 15⟩, .commit 0]

theorem delivered_again_only_after_rollback_thrice : ∃ s : System Unit Unit,
    Machine.runActions (step loneHandler) System.empty redeliveringRun = some s
    ∧ deliveries loneHandler 1 s = 4 ∧ deliveries loneHandler 2 s = 1
    ∧ Machine.tally (step loneHandler) (forgets loneHandler 1) System.empty redeliveringRun = 3
    ∧ deliveries loneHandler 2 s
      ≤ Machine.tally (step loneHandler) (forgets loneHandler 2) System.empty redeliveringRun + 1
    ∧ ∀ batchSize, ∀ row ∈ claim s.table s.locked batchSize, row.id ≠ 1 := by
  have hrun : (Machine.runActions (step loneHandler) System.empty redeliveringRun).map
      (fun s => (deliveries loneHandler 1 s, deliveries loneHandler 2 s)) = some (4, 1) := by
    decide +kernel
  have htally : Machine.tally (step loneHandler) (forgets loneHandler 1) System.empty
      redeliveringRun = 3 := by
    decide +kernel
  obtain ⟨s, hs, hcounts⟩ := Option.map_eq_some_iff.1 hrun
  obtain ⟨hcount, hcount'⟩ := Prod.mk.inj hcounts
  refine ⟨s, hs, hcount, hcount', htally, (delivered_again_only_after_rollback hs 2).1, ?_⟩
  exact (delivered_again_only_after_rollback hs 1).2 (by rw [hcount, htally])

end Witness

end TaskService.Outbox
