import TaskService.Sessions.Draws
import TaskService.Sessions.Versions

/-!
# WIP limits and their overshoot

A write counts the tasks of the state it enters and commits later, so several writers can pass the
check on the same count. The tasks in a state and the writers that have passed its check, together,
stay below the limit and the number of open writers; each commit that takes the state further turns
one such writer into a task.

* **`Effect.occupancy`**: a commit takes a state further by one, after its session has passed the
  check.
* **`wip_limit_bound`**: the bound in every run under one definition.
-/

namespace TaskService.Sessions

open Store Tasks Tags Workflows Concurrency

/-! ## Occupancy -/

/-- The number of committed tasks in a state. -/
def occupancy (db : Db) (s : PyStr) : Nat := (db.tasks.map Task.status).count s

/-- The definition gives the state this limit. -/
def Limit (w : Workflow) (s : PyStr) (limit : Nat) : Prop :=
  ∃ state, w.find? s = some state ∧ Dict.get? state.metadata wipLimitMetaKey = some (.int limit)

/-- The count a session was given for the state is below the limit. -/
def below (limit : Nat) (s : PyStr) (counts : Dict PyStr Nat) : Bool :=
  decide ((Dict.get? counts s).getD 0 < limit)

theorem get?_countByStatus (db : Db) (s : PyStr) :
    (Dict.get? db.countByStatus s).getD 0 = occupancy db s := by
  have hkey : ∀ xs : List PyStr, (Dict.get? (xs.map fun a =>
      (a, (db.tasks.map Task.status).count a)) s).getD 0
        = if s ∈ xs then (db.tasks.map Task.status).count s else 0 := by
    intro xs
    induction xs with
    | nil => rfl
    | cons a xs ih =>
      rw [List.map_cons, Dict.get?_cons]
      by_cases h : s = a
      · simp [h]
      · simp only [h, if_false, ih, List.mem_cons, false_or]
  rw [Db.countByStatus, hkey, occupancy]
  split
  next => rfl
  next hnot => exact (List.count_eq_zero_of_not_mem fun h => hnot (List.mem_dedup.2 h)).symm

/-- An UPDATE takes at most one task into the state, and only when it sets the status. -/
theorem count_amended {tasks : List Task} (h : (tasks.map Task.id).Nodup) (loaded current : Task)
    (s : PyStr) : ((amended tasks loaded current).map Task.status).count s
      ≤ (tasks.map Task.status).count s
        + if loaded.status ≠ current.status ∧ current.status = s then 1 else 0 := by
  induction tasks with
  | nil => simp [amended]
  | cons row rest ih =>
    obtain ⟨hrow, hrest⟩ := List.nodup_cons.1 h
    by_cases hid : row.id = loaded.id
    · -- no other row has the id
      have hsame : amended rest loaded current = rest := by
        refine (List.map_congr_left fun row' hrow' => ?_).trans (List.map_id rest)
        refine if_neg fun hid' => hrow ?_
        rw [hid, ← hid']
        exact List.mem_map_of_mem hrow'
      have hcons : amended (row :: rest) loaded current
          = updated loaded current row :: amended rest loaded current := by
        simp [amended, hid]
      rw [hcons, hsame, List.map_cons, List.map_cons, List.count_cons, List.count_cons]
      show _ + (if column loaded.status current.status row.status == s then 1 else 0) ≤ _
      by_cases hstatus : loaded.status = current.status
      · rw [column, if_pos hstatus]
        omega
      · rw [column, if_neg hstatus]
        have hset : (if loaded.status ≠ current.status ∧ current.status = s then 1 else 0)
            = if current.status == s then 1 else 0 := by
          simp [hstatus]
        rw [hset]
        omega
    · have hcons : amended (row :: rest) loaded current = row :: amended rest loaded current := by
        simp [amended, hid]
      rw [hcons, List.map_cons, List.map_cons, List.count_cons, List.count_cons]
      have := ih hrest
      omega

/-! ## The check -/

section Checks

variable [Unicode] {engine : Engine} {s : PyStr} {limit : Nat} {context : TransitionContext}
  {told : Told}

/-- The check of the limit passes below it only. -/
theorem checkWip_below (hlimit : Limit engine.workflow s limit)
    (h : engine.checkWip s context = .ok ()) : below limit s context.occupancy = true := by
  obtain ⟨state, hfind, hmeta⟩ := hlimit
  have hstate : engine.workflow.state s = .ok state := by rw [Workflow.state, hfind]
  by_cases hfull : limit ≤ (Dict.get? context.occupancy s).getD 0
  · simp [Engine.checkWip, hstate, hmeta, Engine.atLimit, orValueError, Except.mapError,
      hfull, bind, Except.bind, throw, throwThe, MonadExceptOf.throw] at h
  · simpa [below] using hfull

omit [Unicode] in
/-- A write that enters the state needs the count. -/
theorem needsOccupancy_of_limit (hlimit : Limit engine.workflow s limit) {a b : Option PyStr}
    (htarget : b.getD engine.defaultEntry = s) (hmove : some s ≠ a) :
    engine.needsOccupancy a b = true := by
  obtain ⟨state, hfind, hmeta⟩ := hlimit
  have hknown : s ∈ engine.workflow.stateNames := by
    rw [← Workflow.find?_isSome_iff, hfind]
    rfl
  unfold Engine.needsOccupancy
  rw [htarget]
  simp only [hmove, hknown, not_true_eq_false, or_self, if_false, hfind]
  exact decide_eq_true (Dict.mem_keys_of_mem (Dict.mem_of_get? hmeta))

/-- A create passes the check of the state it lands in. -/
theorem resolveEntry_eq_ok {status : Option PyStr}
    (h : engine.resolveEntry status context = .ok s) :
    status.getD engine.defaultEntry = s ∧ engine.checkWip s context = .ok () := by
  unfold Engine.resolveEntry at h
  obtain ⟨resolved, hentry, h⟩ := Except.bind_eq_ok.1 h
  obtain ⟨_, hwip, h⟩ := Except.bind_eq_ok.1 h
  obtain rfl : resolved = s := Except.ok.inj h
  refine ⟨?_, hwip⟩
  cases status with
  | none => exact Except.ok.inj hentry
  | some status =>
    unfold Engine.entryState at hentry
    obtain ⟨_, -, hentry⟩ := Except.bind_eq_ok.1 hentry
    dsimp only at hentry
    split at hentry
    · cases hentry
    · exact Except.ok.inj hentry

/-- A move passes the check of the state it enters. -/
theorem checkMove_wip {a : PyStr} (hmove : s ≠ a) (h : engine.checkMove a s context = .ok ()) :
    engine.checkWip s context = .ok () := by
  unfold Engine.checkMove at h
  obtain ⟨_, -, h⟩ := Except.bind_eq_ok.1 h
  rw [if_neg hmove] at h
  obtain ⟨transition, -, h⟩ := Except.bind_eq_ok.1 h
  cases transition with
  | none =>
    obtain ⟨_, -, h⟩ := Except.bind_eq_ok.1 h
    cases h
  | some transition =>
    obtain ⟨_, -, h⟩ := Except.bind_eq_ok.1 h
    exact h

/-- The session was given a count below the limit of the state. -/
def Passed (limit : Nat) (s : PyStr) (told : Told) : Prop :=
  ∃ counts, .counts counts ∈ told ∧ below limit s counts = true

theorem Counted.passed {roles : List PyStr} {a b : Option PyStr}
    (h : Counted engine roles a b told context) (hlimit : Limit engine.workflow s limit)
    (htarget : b.getD engine.defaultEntry = s) (hmove : some s ≠ a)
    (hwip : engine.checkWip s context = .ok ()) : Passed limit s told :=
  ⟨context.occupancy, h.counted (needsOccupancy_of_limit hlimit htarget hmove),
    checkWip_below hlimit hwip⟩

/-- A change of status was checked by the definition the session read. -/
theorem Changes.moved {call : Call} {taskId : Uuid} {names : Option (List PyStr)}
    {engine : Option Engine} {previous updated : Task}
    (h : Changes told call taskId names engine previous updated)
    (hchanged : previous.status ≠ updated.status) :
    ∃ e roles, engine = some e ∧ Consults told e
      ∧ Moved e roles previous.status updated.status told := by
  cases h with
  | replace htask =>
    obtain ⟨-, rfl⟩ := Task.applyReplace_eq_ok.1 htask.applied
    exact ⟨_, _, rfl, htask.consults, htask.moved⟩
  | @patch _ fields roles engine _ _ htask =>
    obtain ⟨-, -, rfl⟩ := Task.applyPatch_eq_ok.1 htask.applied
    cases hstatus : fields.status with
    | none => exact absurd (by rw [hstatus]; rfl) hchanged
    | some target =>
      obtain ⟨e, rfl⟩ := Option.isSome_iff_exists.1 (htask.named.trans (by rw [hstatus]; rfl))
      exact ⟨e, roles, rfl, htask.consults e rfl, htask.moved e rfl target hstatus⟩

end Checks

/-! ## What a commit does to the occupancy -/

/-- The call writes tasks. -/
def writesTasks : Call → Bool
  | .create .. | .replace .. | .patch .. | .delete .. => true
  | _ => false

section Commits

variable [Unicode] [Jsonb]

/-- **A commit takes a state further by one task, after its session has passed the check**, or not
at all. -/
theorem Effect.occupancy_cases {told : Told} {tx : Tx} {db db' : Db} {call : Call}
    (h : Effect told tx db call db') {w : Workflow} (hw : activeWorkflow db = some w) {s : PyStr}
    {limit : Nat} (hlimit : Limit w s limit) (hids : (db.tasks.map Task.id).Nodup)
    (hknows : tx.lock ≠ none → ∀ answer ∈ told, answer.OnDefinitions → answer.Holds db) :
    occupancy db' s ≤ occupancy db s
      ∨ occupancy db' s ≤ occupancy db s + 1 ∧ tx.lock = some .shared ∧ writesTasks call = true
        ∧ Passed limit s told := by
  cases h with
  | @created title description status priority tags task minted retag event rows htask hstage hrows
      hlock =>
    by_cases hs : task.status = s
    · obtain ⟨engine, context, hconsults, hcounted, hentry⟩ := htask.entered
      -- the definition was read under the lock, so it is the active one
      obtain rfl : w = engine.workflow :=
        Option.some.inj (hw.symm.trans (hconsults.active (hknows (by simp [hlock]))))
      obtain ⟨htarget, hwip⟩ := resolveEntry_eq_ok hentry
      rw [hs] at htarget hwip
      refine .inr ⟨?_, hlock, rfl, hcounted.passed hlimit htarget (by simp) hwip⟩
      simp [occupancy, List.count_append, hs]
    · left
      simp [occupancy, List.count_append, hs]
  | @changed call taskId names engine previous updated minted retag event rows htask hstage hrows
      hlock htracked =>
    have hcount := count_amended hids previous updated s
    -- only a move into the state adds to it, and a move is checked
    by_cases hs : previous.status ≠ updated.status ∧ updated.status = s
    · obtain ⟨hchanged, rfl⟩ := hs
      obtain ⟨engine, roles, rfl, hconsults, context, hcounted, hmove⟩ := htask.moved hchanged
      obtain rfl : w = engine.workflow :=
        Option.some.inj (hw.symm.trans (hconsults.active (hknows (by simp [hlock]))))
      have hwip := checkMove_wip hchanged.symm hmove
      rw [if_pos ⟨hchanged, rfl⟩] at hcount
      refine .inr ⟨hcount, hlock, ?_, hcounted.passed hlimit rfl ?_ hwip⟩
      · cases htask <;> rfl
      · simpa using hchanged.symm
    · left
      rw [if_neg hs] at hcount
      exact hcount
  | deleted => exact .inl ((List.filter_sublist.map _).count_le s)
  | _ => exact .inl (le_refl _)

end Commits

/-! ## Writers -/

/-- The open task writes. -/
def openTaskWrites (world : World) : Nat :=
  world.threads.countP fun th => running th.prog && writesTasks th.tag

/-- The session was given a count below the limit. -/
def Told.passed (limit : Nat) (s : PyStr) (told : Told) : Bool :=
  told.any fun | .counts counts => below limit s counts | _ => false

theorem passed_iff {limit : Nat} {s : PyStr} {told : Told} :
    told.passed limit s = true ↔ Passed limit s told := by
  rw [Told.passed, List.any_eq_true]
  constructor
  · rintro ⟨answer, hmem, h⟩
    cases answer with
    | counts counts => exact ⟨counts, hmem, h⟩
    | _ => cases h
  · rintro ⟨counts, hmem, h⟩
    exact ⟨_, hmem, h⟩

/-- An open task write under the guard that has passed the check of the state. -/
def entering (limit : Nat) (s : PyStr) (th : NotedSession) : Bool :=
  running th.prog && writesTasks th.tag && decide (th.here.1.lock = some .shared)
    && th.here.2.told.passed limit s

/-- The writers that have passed the check. -/
def writers (limit : Nat) (s : PyStr) (world : NotedWorld) : Nat :=
  world.threads.countP (entering limit s)

theorem writers_le_open (limit : Nat) (s : PyStr) (world : NotedWorld) :
    writers limit s world ≤ openTaskWrites world.forget := by
  show _ ≤ (world.threads.map _).countP _
  rw [List.countP_map]
  refine List.countP_mono_left fun th _ h => ?_
  simp only [entering, Bool.and_eq_true] at h
  show (running th.prog && writesTasks th.tag) = true
  rw [h.1.1.1, h.1.1.2]
  rfl

theorem writers_middle {limit : Nat} {s : PyStr} {before after : List NotedSession}
    {th : NotedSession} {st : Server} :
    writers limit s ⟨before ++ th :: after, st⟩
      = (before ++ after).countP (entering limit s) + if entering limit s th then 1 else 0 := by
  rw [writers, List.countP_append, List.countP_append, List.countP_cons]
  omega

/-- The tasks in the state and the writers that have passed its check are bounded together. -/
def Bounded (limit k : Nat) (s : PyStr) (world : NotedWorld) : Prop :=
  0 < writers limit s world →
    occupancy world.shared.db s + writers limit s world + 1 ≤ limit + k

section Runs

variable [Unicode] [Jsonb] [Runtime]

/-- A session passes the check when it counts, below the limit; nothing else lets it in. -/
theorem Turn.entering_cases {call : Call} {o : Op} {tx : Tx} {notes : Notes} {st : Server}
    {others : List NotedSession} (h : Turn call o tx notes st others)
    {k : Except Exn (Res o) → SessionProg Reply} {limit : Nat} {s : PyStr}
    (hentering : entering limit s ⟨call, k (exec o tx st).1,
      ((exec o tx st).2.1, note o tx (exec o tx st).1 notes)⟩ = true) :
    (exec o tx st).2.2.db = st.db
      ∧ (entering limit s ⟨call, .op o k, (tx, notes)⟩ = true ∨ occupancy st.db s < limit) := by
  simp only [entering, Bool.and_eq_true, decide_eq_true_eq] at hentering
  obtain ⟨⟨⟨-, hwrites⟩, hlock⟩, hpassed⟩ := hentering
  obtain ⟨new, htold, hnew⟩ := h.owed.told_cases
  -- a session that still holds its guard has not committed
  have hdb : (exec o tx st).2.2.db = st.db := by
    rcases h.owed.db_cases with ⟨hdb, -⟩ | ⟨rfl, heq, -, -⟩
    · exact hdb
    · change (exec .commit tx st).2.1.lock = some .shared at hlock
      rw [heq] at hlock
      cases hlock
  refine ⟨hdb, ?_⟩
  obtain ⟨counts, hcounts, hbelow⟩ := passed_iff.1 hpassed
  rw [htold] at hcounts
  rcases List.mem_append.1 hcounts with hold | hmem
  · left
    have hsame : tx.lock = some .shared := by
      rcases exec_lock o tx st with hsame | hnone | ⟨mode, rfl, -⟩
      · exact hsame ▸ hlock
      · rw [hnone] at hlock
        cases hlock
      · -- before its guard the session was told nothing
        have hblank := h.owed.guard mode rfl
        rw [show notes = .blank from congrArg Prod.snd hblank] at hold
        cases hold
    simp only [entering, Bool.and_eq_true, decide_eq_true_eq]
    exact ⟨⟨⟨rfl, hwrites⟩, hsame⟩, passed_iff.2 ⟨counts, hold, hbelow⟩⟩
  · right
    have hholds : counts = st.db.countByStatus := (hnew _ (Option.mem_toList.1 hmem)).1
    rw [hholds, below, get?_countByStatus] at hbelow
    simpa using hbelow

/-- An operation keeps the bound, and takes the state further within it only. -/
theorem Turn.bounded {before after : List NotedSession} {call : Call} {o : Op}
    {p : Except Exn (Res o) → SessionProg Reply} {tx : Tx} {notes : Notes} {st : Server}
    (h : Turn call o tx notes st (before ++ after)) {limit k : Nat} {s : PyStr} {w : Workflow}
    (hlimit : Limit w s limit) (hw : activeWorkflow st.db = some w)
    (hids : (st.db.tasks.map Task.id).Nodup) (hknows : KnowsDefinitions (tx, notes) st)
    (hbounded : Bounded limit k s ⟨before ++ ⟨call, .op o p, (tx, notes)⟩ :: after, st⟩)
    {world' : NotedWorld} (hnext : world' = ⟨before ++ ⟨call, p (exec o tx st).1,
      ((exec o tx st).2.1, note o tx (exec o tx st).1 notes)⟩ :: after, (exec o tx st).2.2⟩)
    (hopen : writers limit s world' ≤ k) :
    Bounded limit k s world' ∧ (occupancy world'.shared.db s ≤ occupancy st.db s
      ∨ occupancy world'.shared.db s + 1 ≤ limit + k) := by
  unfold Bounded at hbounded ⊢
  rw [writers_middle] at hbounded
  have hwriters : writers limit s world' = (before ++ after).countP (entering limit s)
      + if entering limit s ⟨call, p (exec o tx st).1, ((exec o tx st).2.1,
          note o tx (exec o tx st).1 notes)⟩ then 1 else 0 := by
    -- only the session that takes the turn can come in or go out
    rw [hnext]
    exact writers_middle
  rw [hwriters] at hopen ⊢
  have hdb : world'.shared.db = (exec o tx st).2.2.db := by rw [hnext]
  rw [hdb]
  generalize (before ++ after).countP (entering limit s) = others at *
  rcases h.owed.db_cases with ⟨hsame, -⟩ | ⟨rfl, heq, hcommits, -⟩
  · rw [hsame]
    refine ⟨fun hpos => ?_, .inl (le_refl _)⟩
    split at hpos
    next hin =>
      rw [if_pos hin] at hopen ⊢
      -- it was a writer before, or has just been told that the state is below its limit
      rcases (h.entering_cases hin).2 with hold | hbelow
      · rw [if_pos hold] at hbounded
        exact hbounded hpos
      · -- a writer comes in: the state is below its limit, and no more than `k` are open
        omega
    next hout =>
      rw [if_neg hout]
      have hbound := hbounded (by omega)
      dsimp only at hbound
      omega
  · -- a session that has committed is a writer no more
    have hout : ¬ entering limit s ⟨call, p (exec .commit tx st).1, ((exec .commit tx st).2.1,
        note .commit tx (exec .commit tx st).1 notes)⟩ = true := by
      rw [heq]
      simp [entering, Tx.fresh]
    rw [if_neg hout, heq]
    dsimp only at hbounded ⊢
    rcases (hcommits.effect st.db).occupancy_cases hw hlimit hids hknows with
      hle | ⟨hle, hlock, hwrites, hpassed⟩
    · refine ⟨fun hpos => ?_, .inl hle⟩
      have hbound := hbounded (by omega)
      omega
    · -- the writer that commits has passed the check, and is one no more
      have hin : entering limit s ⟨call, .op .commit p, (tx, notes)⟩ = true := by
        simp only [entering, Bool.and_eq_true, decide_eq_true_eq]
        exact ⟨⟨⟨rfl, hwrites⟩, hlock⟩, passed_iff.2 hpassed⟩
      rw [if_pos hin] at hbounded
      have hbound := hbounded (by omega)
      exact ⟨fun _ => by omega, .inr (by omega)⟩

/-- **One step keeps the bound**, and takes the state further within it only. -/
theorem Bounded.step {limit k : Nat} {s : PyStr} {w : Workflow} (hlimit : Limit w s limit)
    {world world' : NotedWorld} {action : Interleaving.Action Call} (hreach : world.Reachable)
    (hstep : Interleaving.step notedRules world action = some world')
    (hw : activeWorkflow world.shared.db = some w) (hopen : openTaskWrites world'.forget ≤ k)
    (h : Bounded limit k s world) :
    Bounded limit k s world' ∧ (occupancy world'.shared.db s ≤ occupancy world.shared.db s
      ∨ occupancy world'.shared.db s + 1 ≤ limit + k) := by
  cases action with
  | start t =>
    obtain rfl := Option.some.inj hstep
    refine ⟨?_, .inl (le_refl _)⟩
    -- a session that starts has passed no check yet
    have hsame : writers limit s ⟨world.threads ++ [⟨t, t.program, (.fresh, .blank)⟩], world.shared⟩
        = writers limit s world := by
      rw [writers, List.countP_append]
      simp [writers, entering, Tx.fresh]
    change 0 < writers limit s ⟨world.threads ++ [⟨t, t.program, (.fresh, .blank)⟩], world.shared⟩ →
      occupancy world.shared.db s
        + writers limit s ⟨world.threads ++ [⟨t, t.program, (.fresh, .blank)⟩], world.shared⟩
        + 1 ≤ _
    rw [hsame]
    exact h
  | stop i =>
    obtain rfl := Option.some.inj hstep
    refine ⟨fun hpos => ?_, .inl (le_refl _)⟩
    -- one writer fewer at most
    have hle : writers limit s ⟨world.threads.eraseIdx i, world.shared⟩ ≤ writers limit s world :=
      (List.eraseIdx_sublist world.threads i).countP_le
    have hbound := h (by omega)
    change occupancy world.shared.db s
      + writers limit s ⟨world.threads.eraseIdx i, world.shared⟩ + 1 ≤ _
    omega
  | run i =>
    obtain ⟨before, after, call, o, p, tx, notes, hthreads, -, hturn, hnext⟩ :=
      turn_of_run hreach hstep
    have hmem : (⟨call, .op o p, (tx, notes)⟩ : NotedSession) ∈ world.threads := by
      rw [hthreads]
      simp
    have hids := nodup_tasks_of_reachable hreach
    have hknows := definitions_told hreach _ hmem
    obtain ⟨threads, st⟩ := world
    obtain rfl : threads = _ := hthreads
    exact hturn.bounded hlimit hw hids hknows h hnext ((writers_le_open limit s world').trans hopen)

/-- When a definition is installed no other session holds the guard. -/
theorem no_writers_of_installed {noted noted' : NotedWorld} (hreach : noted.Reachable)
    {action : Interleaving.Action Call}
    (hstep : Interleaving.step notedRules noted action = some noted')
    (hchanged : noted'.shared.db.workflows ≠ noted.shared.db.workflows) (limit : Nat) (s : PyStr) :
    writers limit s noted' = 0 := by
  cases action with
  | start t =>
    obtain rfl := Option.some.inj hstep
    exact absurd rfl hchanged
  | stop i =>
    obtain rfl := Option.some.inj hstep
    exact absurd rfl hchanged
  | run i =>
    obtain ⟨before, after, call, o, p, tx, notes, -, -, hturn, rfl⟩ := turn_of_run hreach hstep
    change (exec o tx noted.shared).2.2.db.workflows ≠ noted.shared.db.workflows at hchanged
    rcases hturn.owed.db_cases with ⟨hdb, -⟩ | ⟨rfl, heq, -, -⟩
    · exact absurd (by rw [hdb]) hchanged
    · rw [heq] at hchanged
      have hlock : tx.lock = some .exclusive := by
        by_contra hlock
        exact hchanged (hturn.owes.lawful.commit_workflows hlock)
      rw [writers_middle, if_neg, Nat.add_zero, List.countP_eq_zero]
      · intro other hother hin
        simp only [entering, Bool.and_eq_true, decide_eq_true_eq] at hin
        have hcompat := hturn.compatible other hother
        rw [hlock, hin.1.2] at hcompat
        exact hcompat
      · rw [heq]
        simp [entering, Tx.fresh]

/-- **The overshoot of a WIP limit is bounded.** From the commit that installs a definition, in
every run under this definition with at most `k` task writes open at any moment, a write takes a
state further only up to `k - 1` above its limit; so the tasks in it are never more than that, or
than there were. -/
theorem wip_limit_bound {installing start : World} (h : installing.Reachable)
    {action : Interleaving.Action Call}
    (hinstall : Interleaving.step rules installing action = some start)
    (hchanged : start.shared.db.workflows ≠ installing.shared.db.workflows) {w : Workflow}
    (hw : activeWorkflow start.shared.db = some w) {s : PyStr} {limit : Nat}
    (hlimit : Limit w s limit) {k : Nat} {worlds : List World}
    (hrun : Machine.Run (Interleaving.step rules) (fun _ _ world' =>
      world'.shared.db.active = start.shared.db.active ∧ openTaskWrites world' ≤ k) start worlds) :
    Machine.Run (Interleaving.step rules) (fun world _ world' =>
        occupancy world'.shared.db s ≤ occupancy world.shared.db s
          ∨ occupancy world'.shared.db s ≤ limit + k - 1) start worlds
      ∧ ∀ world ∈ worlds,
          occupancy world.shared.db s ≤ max (occupancy start.shared.db s) (limit + k - 1) := by
  have hbounded : Machine.Run (Interleaving.step rules) (fun world _ world' =>
      occupancy world'.shared.db s ≤ occupancy world.shared.db s
        ∨ occupancy world'.shared.db s ≤ limit + k - 1) start worlds := by
    obtain ⟨noted, noted', hreach, rfl, rfl, hreach', hstep⟩ := exists_noted_step h hinstall
    have hnone := no_writers_of_installed hreach hstep hchanged limit s
    refine run_imp (J := fun world => activeWorkflow world.shared.db = some w
      ∧ Bounded limit k s world)
      hrun hreach' rfl ⟨hw, fun hpos => by omega⟩ ?_
    rintro world world' action hworld hnext ⟨hactive, hopen⟩ ⟨hactive', hbound⟩
    obtain ⟨hbound', hoccupancy⟩ := hbound.step hlimit hworld hnext hactive' hopen
    refine ⟨⟨?_, hbound'⟩, hoccupancy.imp_right fun hle => ?_⟩
    · rw [← hw, activeWorkflow, activeWorkflow]
      exact congrArg (fun row => Option.bind row _) hactive
    · show occupancy world'.shared.db s ≤ limit + k - 1
      omega
  exact ⟨hbounded,
    Machine.Run.le_max (f := fun world : World => occupancy world.shared.db s) hbounded⟩

end Runs

section Schedule

open Plain

/-- One state, with a limit of one. -/
def limitedDocument : {d : Json // d.Wf} :=
  ⟨document [.dict [(py "name", .str (py "open")), (py "wip_limit", .int 1)]] [], by
    rw [document_wf_iff]
    simp
    decide⟩

/-- Bring the replacement to its commit. -/
def installingRun : List (Interleaving.Action Call) :=
  .start (.replaceActive limitedDocument) :: steps 0 9

/-- Two creates that count before either commits. -/
def overshootRun : List (Interleaving.Action Call) :=
  .start (.create (py "A") none none 3 none) :: .start (.create (py "B") none none 3 none)
    :: steps 1 3 ++ steps 2 3 ++ steps 1 8 ++ steps 2 8

/-- A test of the limit. -/
def hasLimit (limit : Nat) (s : PyStr) (w : Workflow) : Bool :=
  match (w.find? s).bind fun state => Dict.get? state.metadata wipLimitMetaKey with
  | some (.int n) => n = limit
  | _ => false

theorem limit_of_hasLimit {w : Workflow} {s : PyStr} {limit : Nat} (h : hasLimit limit s w = true) :
    Limit w s limit := by
  unfold hasLimit at h
  split at h
  next n hget =>
    obtain ⟨state, hstate, hmeta⟩ := Option.bind_eq_some_iff.1 hget
    rw [of_decide_eq_true h] at hmeta
    exact ⟨state, hstate, hmeta⟩
  next => cases h

/-- One definition is stored, and at most two task writes are open. -/
def twoWriters (_ : World) (_ : Interleaving.Action Call) (world' : World) : Bool :=
  world'.shared.db.workflows.length = 1 && openTaskWrites world' ≤ 2

/-- Two writers may take the state one above its limit, and do. -/
theorem wip_limit_bound_two : ∃ (start : World) (worlds : List World), start.Reachable
    ∧ Machine.Run (Interleaving.step rules) (fun world _ world' =>
        occupancy world'.shared.db (py "open") ≤ occupancy world.shared.db (py "open")
          ∨ occupancy world'.shared.db (py "open") ≤ 1 + 2 - 1) start worlds
    ∧ ∃ world ∈ worlds, occupancy world.shared.db (py "open") = 2 := by
  have hrun : (Machine.runActions (Interleaving.step rules) World.initial installingRun).map
      (fun world : World =>
      world.shared.db.workflows.length = 0
        && (Interleaving.step rules world (.run 0)).any fun start : World =>
          start.shared.db.workflows.length = 1
            && (activeWorkflow start.shared.db).any (hasLimit 1 (py "open"))
            && (Machine.runChecked (Interleaving.step rules) twoWriters start overshootRun).any
              fun worlds => worlds.any fun world : World =>
              occupancy world.shared.db (py "open") = 2)
      = some true := by
    decide +kernel
  obtain ⟨world, hworld, hfacts⟩ := Option.map_eq_some_iff.1 hrun
  have hreach : world.Reachable := Machine.reaches_of_runActions hworld
  simp only [Bool.and_eq_true, decide_eq_true_eq, Option.any_eq_true, List.any_eq_true] at hfacts
  obtain ⟨hnone, start, hstep, ⟨hone, w, hw, hlimit⟩, worlds, hworlds, final, hfinal, htwo⟩
    := hfacts
  have hchanged : start.shared.db.workflows ≠ world.shared.db.workflows := by
    intro heq
    rw [heq] at hone
    omega
  have hstart : start.Reachable := hreach.tail _ hstep
  -- no second definition is stored, so the active one stays
  have hfixed : Machine.Run (Interleaving.step rules) (fun _ _ world' =>
      world'.shared.db.active = start.shared.db.active ∧ openTaskWrites world' ≤ 2)
        start worlds := by
    refine (Machine.run_of_runChecked hworlds).imp (I := fun world : World => world.Reachable
      ∧ world.shared.db.workflows = start.shared.db.workflows) ⟨hstart, rfl⟩ ?_
    rintro q action q' ⟨hq, hsame⟩ hnext htest
    simp only [twoWriters, Bool.and_eq_true, decide_eq_true_eq] at htest
    have hsame' : q'.shared.db.workflows = start.shared.db.workflows := by
      rw [← hsame]
      cases logStep hq hnext with
      | unchanged hworkflows => exact hworkflows
      | added _ _ hworkflows =>
        have hlength := congrArg List.length hworkflows
        rw [hsame, List.length_append, hone, htest.1] at hlength
        cases hlength
    exact ⟨⟨hq.tail action hnext, hsame'⟩, by rw [Db.active, Db.active, hsame'], htest.2⟩
  exact ⟨start, worlds, hstart, (wip_limit_bound hreach hstep hchanged hw (limit_of_hasLimit hlimit)
    hfixed).1, final, hfinal, htwo⟩

end Schedule

end TaskService.Sessions
