import TaskService.Concurrency.Moves
import TaskService.Core.Payloads
import TaskService.Lib.Coupling
import TaskService.Outbox.Relays
import TaskService.Sessions.Draws

/-!
# The service and its relays

The service (`World`) and the relays (`System`) over one database. A step of the service that
commits inserts the outbox rows of its transaction; between the steps of the service the relays
poll, attempt, commit, crash and prune. The outbox table is the relays' one; the service, which
never reads the table, remembers what it has inserted.

* **`service_beside_relays`**: the service and the relays are each as they are alone, and the relays
  never stand in the way of the service.
* **`delivered_end_to_end`**: every event of a committed transaction is still to be delivered or was
  handled, and nothing else is ever attempted.
-/

namespace TaskService.Outbox

open Store Concurrency Sessions

/-! ## Rows and where they come from -/

section Sources

variable {E Ev H : Type} {wiring : Wiring E Ev H} {s s' : System E H}

/-- The row carries what was staged under its id. -/
def Sourced (s : System E H) (row : OutboxRecord E) : Prop :=
  ∃ staged ∈ s.staged, staged.id = row.id ∧ staged.event = row.event
    ∧ staged.occurredAt = row.occurredAt

theorem Mark.update_event (mark : Mark E) (row : OutboxRecord E) :
    (mark.update row).event = row.event := by
  unfold Mark.update
  split <;> rfl

theorem Mark.update_occurredAt (mark : Mark E) (row : OutboxRecord E) :
    (mark.update row).occurredAt = row.occurredAt := by
  unfold Mark.update
  split <;> rfl

/-- The UPDATEs of a poll leave the id, the event and its time alone. -/
theorem updateAll_carried (marks : List (Mark E)) (row : OutboxRecord E) :
    (updateAll marks row).event = row.event
      ∧ (updateAll marks row).occurredAt = row.occurredAt := by
  induction marks generalizing row with
  | nil => exact ⟨rfl, rfl⟩
  | cons mark marks ih =>
    obtain ⟨hevent, htime⟩ := ih (mark.update row)
    exact ⟨hevent.trans (mark.update_event row), htime.trans (mark.update_occurredAt row)⟩

/-- Every row of the table, and every row ever attempted, carries what was staged. -/
structure AllSourced (s : System E H) : Prop where
  rows : ∀ row ∈ s.table.rows, Sourced s row
  attempts : ∀ d ∈ s.attempts, Sourced s d.1

theorem AllSourced.step (hinv : Inv wiring s) (h : AllSourced s) {action : Action E H}
    (hstep : Outbox.step wiring s action = some s') : AllSourced s' := by
  have hmono : ∀ {row}, Sourced s row → Sourced s' row := by
    rintro row ⟨staged, hstaged, hsame⟩
    exact ⟨staged, step_staged hstep hstaged, hsame⟩
  cases action with
  | stage rows =>
    obtain ⟨table, rfl, hrows, -⟩ := stage_cases hstep
    refine ⟨fun row hrow => ?_, fun d hd => hmono (h.attempts d hd)⟩
    rcases List.mem_append.1 (hrows ▸ hrow) with hold | hnew
    · exact hmono (h.rows row hold)
    · exact ⟨row, List.mem_append_right _ hnew, rfl, rfl, rfl⟩
  | poll batchSize maxRetries =>
    obtain rfl := Option.some.inj hstep
    exact ⟨h.rows, h.attempts⟩
  | attempt i trial =>
    obtain ⟨before, after, maxRetries, row, todo, marks, left, hpolls, -, rfl⟩ :=
      attempt_cases hstep
    refine ⟨h.rows, fun d hd => ?_⟩
    rcases List.mem_append.1 hd with hold | hnew
    · exact h.attempts d hold
    · -- the row attempted is held, so it is in the table
      obtain rfl := List.mem_singleton.1 hnew
      have hheld : row ∈ Poll.held ⟨maxRetries, row :: todo, marks⟩ := by simp [Poll.held]
      exact h.rows row (hinv.held _ (by rw [hpolls]; simp) row hheld).1
  | commit i =>
    rcases commit_cases hstep with
      ⟨before, after, maxRetries, marks, table, -, hcommit, rfl⟩ | ⟨-, hrefused⟩
    · refine ⟨fun row' hrow' => ?_, h.attempts⟩
      obtain ⟨row, hrow, rfl⟩ := List.mem_map.1 ((commitMarks_eq_ok.1 hcommit).2 ▸ hrow')
      obtain ⟨staged, hstaged, hid, hevent, htime⟩ := h.rows row hrow
      obtain ⟨hevent', htime'⟩ := updateAll_carried marks row
      exact ⟨staged, hstaged, hid.trans (updateAll_id marks row).symm, hevent.trans hevent'.symm,
        htime.trans htime'.symm⟩
    · obtain rfl := Option.some.inj hrefused
      exact ⟨h.rows, h.attempts⟩
  | crash i =>
    obtain rfl := Option.some.inj hstep
    exact ⟨h.rows, h.attempts⟩
  | purge cutoff batchSize order =>
    obtain rfl := Option.some.inj hstep
    exact ⟨fun row hrow => h.rows row (mem_delete.1 hrow).1, h.attempts⟩

theorem Reachable.sourced (h : Reachable wiring s) : AllSourced s := by
  have hboth : Inv wiring s ∧ AllSourced s :=
    h.invariant (I := fun s => Inv wiring s ∧ AllSourced s)
      ⟨inv_empty, fun _ hrow => (nomatch hrow), fun _ hd => (nomatch hd)⟩
      fun _ _ _ hI hstep => ⟨hI.1.step hstep, hI.2.step hI.1 hstep⟩
  exact hboth.2

/-- Rows that are new and pending can be staged. -/
theorem exists_stage (hinv : Inv wiring s) {rows : List (OutboxRecord E)}
    (hnodup : (rows.map OutboxRecord.id).Nodup)
    (hnew : ∀ row ∈ rows, Pending row ∧ row.id ∉ s.staged.map OutboxRecord.id) :
    ∃ s', Outbox.step wiring s (.stage rows) = some s' := by
  have hfresh : ∀ row ∈ rows, row.id ∉ s.staged.map OutboxRecord.id := fun row hrow =>
    (hnew row hrow).2
  have hinsert : ((s.table.rows ++ rows).map OutboxRecord.id).Nodup
      ∧ ∀ row ∈ rows, Pending row := by
    refine ⟨?_, fun row hrow => (hnew row hrow).1⟩
    rw [List.map_append]
    refine s.table.ids_nodup.append hnodup fun id hold hid => ?_
    obtain ⟨row, hrow, rfl⟩ := List.mem_map.1 hid
    obtain ⟨old, hmem, heq⟩ := List.mem_map.1 hold
    exact hfresh row hrow (heq ▸ hinv.known old hmem)
  cases hstep : Outbox.step wiring s (.stage rows) with
  | some s' => exact ⟨s', rfl⟩
  | none =>
    change (if _ then _ else _) = none at hstep
    rw [if_pos hfresh, Table.insert, dif_pos hinsert] at hstep
    cases hstep

theorem staged_stage {rows : List (OutboxRecord E)}
    (h : Outbox.step wiring s (.stage rows) = some s') : s'.staged = s.staged ++ rows := by
  obtain ⟨table, rfl, -⟩ := stage_cases h
  rfl

/-- A relay stages nothing. -/
theorem staged_own {action : Action E H} (hown : ∀ rows, action ≠ .stage rows)
    (h : Outbox.step wiring s action = some s') : s'.staged = s.staged := by
  cases action with
  | stage rows => exact absurd rfl (hown rows)
  | poll batchSize maxRetries =>
    obtain rfl := Option.some.inj h
    rfl
  | attempt i trial =>
    obtain ⟨before, after, maxRetries, row, todo, marks, left, -, -, rfl⟩ := attempt_cases h
    rfl
  | commit i =>
    rcases commit_cases h with ⟨before, after, maxRetries, marks, table, -, -, rfl⟩ | ⟨-, hrefused⟩
    · rfl
    · obtain rfl := Option.some.inj hrefused
      rfl
  | crash i =>
    obtain rfl := Option.some.inj h
    rfl
  | purge cutoff batchSize order =>
    obtain rfl := Option.some.inj h
    rfl

end Sources

/-! ## What a step of the service inserts -/

section Inserted

variable [Unicode] [Jsonb] [Runtime]

omit [Runtime] in
/-- The outbox rows of a commit. -/
theorem outbox_of_effect {told : Told} {tx : Tx} {db db' : Db} {call : Call}
    (h : Effect told tx db call db') :
    ∃ rows bodies, db'.outbox = db.outbox ++ rows ∧ Staged bodies rows told := by
  cases h with
  | created htask hstage hrows => exact ⟨_, _, rfl, hrows⟩
  | changed htask hstage hrows =>
    obtain ⟨completes, hstaged, -⟩ := hrows.staged
    exact ⟨_, _, rfl, hstaged⟩
  | deleted htask hrows => exact ⟨_, _, rfl, hrows⟩
  | tagDeleted htag hid hcount hrows => exact ⟨_, _, rfl, hrows⟩
  | defined hparse hcounts hfree hhighest hrows => exact ⟨_, _, rfl, hrows⟩
  | seeded => exact ⟨[], [], (List.append_nil _).symm, rfl, by simp, List.nil_sublist _⟩

omit [Unicode] [Jsonb] [Runtime] in
theorem pending_of_staged {bodies : List EventBody} {rows : List (OutboxRecord Event)} {told : Told}
    (h : Staged bodies rows told) : ∀ row ∈ rows, Pending row := by
  intro row hrow
  obtain ⟨id, event, rfl⟩ := h.pending row hrow
  exact ⟨rfl, rfl, rfl, rfl⟩

/-- The outbox rows a step of the service inserts: those of the transaction it commits, if it
commits one. -/
def insertedRows (world world' : World) : List (OutboxRecord Event) :=
  world'.shared.db.outbox.drop world.shared.db.outbox.length

/-- What is new in the outbox: pending rows under ids of their own. -/
structure Inserts (world world' : World) : Prop where
  outbox : world'.shared.db.outbox = world.shared.db.outbox ++ insertedRows world world'
  nodup : ((insertedRows world world').map OutboxRecord.id).Nodup
  new : ∀ row ∈ insertedRows world world',
    Pending row ∧ row.id ∉ world.shared.db.outbox.map OutboxRecord.id

omit [Unicode] [Jsonb] [Runtime] in
theorem inserts_of_append {world world' : World} (rows : List (OutboxRecord Event))
    (houtbox : world'.shared.db.outbox = world.shared.db.outbox ++ rows)
    (hnodup : (rows.map OutboxRecord.id).Nodup)
    (hnew : ∀ row ∈ rows, Pending row ∧ row.id ∉ world.shared.db.outbox.map OutboxRecord.id) :
    Inserts world world' := by
  have hrows : insertedRows world world' = rows := by
    rw [insertedRows, houtbox, List.drop_left]
  rw [← hrows] at houtbox hnodup hnew
  exact ⟨houtbox, hnodup, hnew⟩

/-- **A step of the service inserts new pending rows, or none.** -/
theorem inserts_of_step {world world' : World} {action : Interleaving.Action Call}
    (h : world.Reachable) (hstep : Interleaving.step rules world action = some world') :
    Inserts world world' := by
  have hsame : world'.shared.db.outbox = world.shared.db.outbox → Inserts world world' :=
    fun heq => inserts_of_append [] (by rw [heq, List.append_nil]) .nil (by simp)
  cases action with
  | start call =>
    obtain rfl := Option.some.inj hstep
    exact hsame rfl
  | stop i =>
    obtain rfl := Option.some.inj hstep
    exact hsame rfl
  | run i =>
    obtain ⟨noted, noted', call, o, k, tx, notes, rfl, rfl, hrun⟩ := exists_noted_run h hstep
    have hshared : noted'.forget.shared = (exec o tx noted.shared).2.2 := hrun.shared
    rcases @Owed.db_cases _ _ _ call o tx notes noted.shared hrun.turn.owed with
      ⟨hdb, -⟩ | ⟨rfl, heq, hcommits, -⟩
    · refine hsame ?_
      rw [hshared, hdb]
      rfl
    · obtain ⟨rows, bodies, houtbox, hstaged⟩ := outbox_of_effect (hcommits.effect noted.shared.db)
      have hfresh := fresh_of_reachable hrun.reachable
      have hmem := List.mem_of_getElem? hrun.here
      have hnodup : notes.told.ids.Nodup := (List.nodup_flatMap.1 hfresh.nodup).1 _ hmem
      refine inserts_of_append rows ?_ (hnodup.sublist hstaged.drawn) fun row hrow => ?_
      · rw [hshared, heq]
        exact houtbox
      · refine ⟨pending_of_staged hstaged row hrow, fun hold => ?_⟩
        refine hfresh.not_mentioned hmem hrun.turn.owed.unsaved
          (hstaged.drawn.subset (List.mem_map_of_mem hrow)) ?_
        exact mem_mentions.2 (.inr (.inr (.inl hold)))

end Inserted

/-! ## The deployment -/

/-- The action is a relay's. -/
def Action.isRelay {E H : Type} : Action E H → Bool
  | .stage _ => false
  | _ => true

section Together

variable [Unicode] [Jsonb] [Runtime] {Ev H : Type}

/-- The service drives the outbox: a step of the service stages the rows it inserts. -/
def deployment (wiring : Wiring Event Ev H) :
    Machine.Coupling World (System Event H) (Interleaving.Action Call) (Action Event H) where
  drive := Interleaving.step rules
  driven := step wiring
  emits world world' := .stage (insertedRows world world')
  own := Action.isRelay

/-- The service and the outbox as its relays have it. -/
abbrev Deployment (H : Type) := World × System Event H

/-- Some run of the service and of its relays leads to this deployment. -/
def Deployment.Reachable (wiring : Wiring Event Ev H) (d : Deployment H) : Prop :=
  Machine.Reaches (deployment wiring).step (World.initial, System.empty) d

/-- What holds between the service and its outbox: what was staged is what was committed. -/
structure Joined (wiring : Wiring Event Ev H) (world : World) (outbox : System Event H) : Prop where
  service : world.Reachable
  relays : Outbox.Reachable wiring outbox
  staged : outbox.staged = world.shared.db.outbox

variable {wiring : Wiring Event Ev H}

theorem joined_stays : (deployment wiring).Stays (Joined wiring) where
  ready := by
    intro world outbox action world' h hstep
    have hinserts := inserts_of_step h.service hstep
    exact exists_stage h.relays.inv hinserts.nodup fun row hrow => by
      rw [h.staged]
      exact hinserts.new row hrow
  driven := by
    intro world outbox action world' outbox' h hstep hstage
    change step wiring outbox (.stage (insertedRows world world')) = some outbox' at hstage
    refine ⟨h.service.tail action hstep, h.relays.tail _ hstage, ?_⟩
    rw [staged_stage hstage, h.staged]
    exact (inserts_of_step h.service hstep).outbox.symm
  own := by
    intro world outbox action outbox' h hown hstep
    refine ⟨h.service, h.relays.tail action hstep, ?_⟩
    rw [staged_own (fun rows heq => ?_) hstep, h.staged]
    subst heq
    cases hown

theorem Deployment.Reachable.joined {d : Deployment H} (h : Deployment.Reachable wiring d) :
    Joined wiring d.1 d.2 :=
  joined_stays.reaches (d := (World.initial, System.empty)) ⟨.refl, .refl, rfl⟩ h

/-- Every run of the service is one beside relays. -/
theorem exists_deployment (wiring : Wiring Event Ev H) {world : World} (h : world.Reachable) :
    ∃ outbox, Deployment.Reachable wiring (world, outbox) := by
  have hstart : Joined wiring World.initial System.empty := ⟨.refl, .refl, rfl⟩
  exact joined_stays.follows hstart h

/-- **The service and its relays, together and apart.** Each is as it is alone; what the relays work
through is what the service has committed; and a step the service can take alone it can take beside
any relays, whatever they hold. -/
theorem service_beside_relays {d : Deployment H} (h : Deployment.Reachable wiring d) :
    d.1.Reachable ∧ Outbox.Reachable wiring d.2 ∧ d.2.staged = d.1.shared.db.outbox
      ∧ (∀ action world', Interleaving.step rules d.1 action = some world' →
          ∃ outbox', (deployment wiring).step d (.inl action) = some (world', outbox')
            ∧ outbox'.table.rows = d.2.table.rows ++ insertedRows d.1 world'
            ∧ outbox'.polls = d.2.polls)
      ∧ ∀ action d', (deployment wiring).step d (.inr action) = some d' → d'.1 = d.1 := by
  refine ⟨h.joined.service, h.joined.relays, h.joined.staged, fun action world' hstep => ?_,
    fun action d' hstep => (Machine.Coupling.step_inr.1 hstep).2.1⟩
  obtain ⟨outbox', hboth⟩ := joined_stays.drives h.joined hstep
  obtain ⟨-, hstage⟩ := Machine.Coupling.step_inl.1 hboth
  change step wiring d.2 (.stage (insertedRows d.1 world')) = some outbox' at hstage
  obtain ⟨table, rfl, hrows, -⟩ := stage_cases hstage
  exact ⟨_, hboth, hrows, rfl⟩

end Together

section Schedule

open Plain

/-- One listener, for the events as they are. -/
def loneListener : Wiring Event Event Unit := ⟨fun e => e.body.type.name, .ok, fun _ => [()]⟩

/-- A definition is installed, and a task is created up to its commit. -/
def creatingRun : List (Interleaving.Action Call) :=
  .start (.replaceActive forkDocument) :: steps 0 10
    ++ .start (.create (py "A") none none 3 none) :: steps 1 9

/-- The create commits beside an open poll. -/
theorem service_beside_relays_polling : ∃ d d' : Deployment Unit,
    Deployment.Reachable loneListener d ∧ d.2.polls ≠ []
    ∧ (deployment loneListener).step d (.inl (.run 1)) = some d' ∧ d'.2.polls = d.2.polls
    ∧ d'.2.table.rows.length = d.2.table.rows.length + 1 := by
  have hrun : ((Machine.runActions (Interleaving.step rules) World.initial creatingRun).bind
      fun world => (Interleaving.step rules world (.run 1)).map fun world' =>
        (insertedRows world world').length) = some 1 := by
    decide +kernel
  obtain ⟨world, hworld, hnext⟩ := Option.bind_eq_some_iff.1 hrun
  obtain ⟨world', hworld', hlength⟩ := Option.map_eq_some_iff.1 hnext
  obtain ⟨outbox, hreach⟩ := exists_deployment loneListener (Machine.reaches_of_runActions hworld)
  have hpoll := hreach.tail (.inr (.poll 100 300)) rfl
  obtain ⟨outbox', hstep, hrows, hpolls⟩ :=
    (service_beside_relays hpoll).2.2.2.1 (.run 1) world' hworld'
  refine ⟨_, (world', outbox'), hpoll, by simp, hstep, hpolls, ?_⟩
  rw [hrows, List.length_append, hlength]

end Schedule

section Together

variable [Unicode] [Jsonb] [Runtime] {Ev H : Type} {wiring : Wiring Event Ev H}

/-- **From commit to listeners.** In every run of the service and any relays: an event of a
committed transaction is in the table, not yet published, or an attempt at it completed every
listener; and whatever is in the table, or was ever attempted, is an event that a transaction
committed. -/
theorem delivered_end_to_end {d : Deployment H} (h : Deployment.Reachable wiring d) :
    (∀ committed ∈ d.1.shared.db.outbox,
        (∃ row ∈ d.2.table.rows, row.id = committed.id ∧ row.event = committed.event
          ∧ row.publishedAt = none)
        ∨ ∃ a ∈ d.2.attempts, a.1.id = committed.id ∧ a.1.event = committed.event
            ∧ ∃ event, wiring.registry committed.event = .ok event
              ∧ ∀ handler ∈ wiring.listeners event, a.2.raises handler = none)
      ∧ ∀ row, row ∈ d.2.table.rows ∨ row ∈ d.2.attempts.map Prod.fst →
          ∃ committed ∈ d.1.shared.db.outbox, committed.id = row.id
            ∧ committed.event = row.event ∧ committed.occurredAt = row.occurredAt := by
  obtain ⟨-, hrelays, hstaged⟩ := h.joined
  rw [← hstaged]
  refine ⟨(no_event_lost hrelays).2.2.2.1, fun row hrow => ?_⟩
  rcases hrow with hrow | hrow
  · exact hrelays.sourced.rows row hrow
  · obtain ⟨a, ha, rfl⟩ := List.mem_map.1 hrow
    exact hrelays.sourced.attempts a ha

end Together

section Schedule

open Plain

/-- The task is created. -/
def createdRun : List (Interleaving.Action Call) := creatingRun ++ [.run 1]

/-- Two events are committed; a relay with batches of one delivers and commits the first. -/
def deliveringOneRun : List (Interleaving.Action Call ⊕ Action Event Unit) :=
  createdRun.map .inl
    ++ [.inr (.poll 1 300), .inr (.attempt 0 ⟨fun _ => none, fun _ => none, 9⟩), .inr (.commit 0)]

/-- The first event was handled, and the second is still to be delivered. -/
theorem delivered_end_to_end_committed : ∃ d : Deployment Unit,
    Deployment.Reachable loneListener d ∧ d.1.shared.db.outbox.length = 2
    ∧ d.2.table.rows.map OutboxRecord.publishedAt = [some 9, none]
    ∧ d.2.attempts.map (fun a => a.1.id) = (d.1.shared.db.outbox.take 1).map OutboxRecord.id
    ∧ ∀ committed ∈ d.1.shared.db.outbox,
        (∃ row ∈ d.2.table.rows, row.id = committed.id ∧ row.event = committed.event
          ∧ row.publishedAt = none)
        ∨ ∃ a ∈ d.2.attempts, a.1.id = committed.id ∧ a.1.event = committed.event
            ∧ ∃ event, loneListener.registry committed.event = .ok event
              ∧ ∀ handler ∈ loneListener.listeners event, a.2.raises handler = none := by
  have hrun : (Machine.runActions (deployment loneListener).step
      (World.initial, (System.empty : System Event Unit)) deliveringOneRun).map (fun d =>
        (d.1.shared.db.outbox.length, d.2.table.rows.map OutboxRecord.publishedAt,
          decide (d.2.attempts.map (fun a => a.1.id)
            = (d.1.shared.db.outbox.take 1).map OutboxRecord.id)))
      = some (2, [some 9, none], true) := by
    decide +kernel
  obtain ⟨d, hd, hall⟩ := Option.map_eq_some_iff.1 hrun
  simp only [Prod.mk.injEq, decide_eq_true_eq] at hall
  obtain ⟨hlength, hpublished, hattempts⟩ := hall
  have hreach : Deployment.Reachable loneListener d := Machine.reaches_of_runActions hd
  exact ⟨d, hreach, hlength, hpublished, hattempts, (delivered_end_to_end hreach).1⟩

end Schedule

end TaskService.Outbox
