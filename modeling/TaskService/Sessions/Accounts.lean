import TaskService.Sessions.Notes

/-!
# Every call commits what it should

The verification of the use cases against `Owed`: each program is followed operation by operation,
whatever the database answers. The transaction is known exactly at each point, so its form at the
commit is that of `Commits`.

* **`call_conforms`**: every call does what it owes.
-/

namespace TaskService.Sessions

open Store Tasks Tags Workflows Concurrency Prog
open Interleaving (Conforms observe)

variable [Unicode] [Jsonb] [Runtime]

/-! ## Rules -/

section Rules

variable {call : Call} {α β : Type} {J : α → Tx → Told → Prop} {K : β → Tx → Told → Prop} {tx : Tx}
  {told : Told}

/-- A part of a call before its commit: `J` of what it returns and leaves, and nothing told
is lost. -/
def Account (told : Told) (J : α → Tx → Told → Prop) : Except Exn α → Tx × Notes → Prop
  | .ok a, here => here.2.saved = none ∧ told <+: here.2.told ∧ J a here.1 here.2.told
  | .error _, here => here.2.saved = none

/-- The part does as the session owes, and ends before the commit. -/
def Tells (call : Call) (J : α → Tx → Told → Prop) (p : SessionProg α) (tx : Tx)
    (told : Told) : Prop :=
  Conforms (observe note exec) (Owed call) (Account told J) p (tx, ⟨told, none⟩)

/-- The part does as the session owes, to its end. -/
def Finishes (call : Call) (p : SessionProg α) (tx : Tx) (told : Told) : Prop :=
  Conforms (observe note exec) (Owed call) (Ended call) p (tx, ⟨told, none⟩)

/-- What follows a part of a call. -/
theorem Tells.andThen {Q : Except Exn β → Tx × Notes → Prop} {p : SessionProg α}
    {f : α → SessionProg β} (h : Tells call J p tx told)
    (hf : ∀ a tx' told', told <+: told' → J a tx' told' →
      Conforms (observe note exec) (Owed call) Q (f a) (tx', ⟨told', none⟩))
    (herror : ∀ e here, here.2.saved = none → Q (.error e) here) :
    Conforms (observe note exec) (Owed call) Q (p >>= f) (tx, ⟨told, none⟩) := by
  refine Conforms.bind h (fun a here hok => ?_) herror
  obtain ⟨tx', told', saved⟩ := here
  obtain ⟨rfl, hle, hJ⟩ := hok
  exact hf a tx' told' hle hJ

theorem Tells.bind {p : SessionProg α} {f : α → SessionProg β} (h : Tells call J p tx told)
    (hf : ∀ a tx' told', told <+: told' → J a tx' told' → Tells call K (f a) tx' told') :
    Tells call K (p >>= f) tx told := by
  refine h.andThen (fun a tx' told' hle hJ => ?_) fun _ _ h => h
  refine (hf a tx' told' hle hJ).mono fun r here haccount => ?_
  cases r with
  | ok b => exact ⟨haccount.1, hle.trans haccount.2.1, haccount.2.2⟩
  | error e => exact haccount

theorem Tells.finish {p : SessionProg α} {f : α → SessionProg β} (h : Tells call J p tx told)
    (hf : ∀ a tx' told', told <+: told' → J a tx' told' → Finishes call (f a) tx' told') :
    Finishes call (p >>= f) tx told :=
  h.andThen hf fun _ _ h => h

theorem Tells.mono {J' : α → Tx → Told → Prop} {p : SessionProg α} (h : Tells call J p tx told)
    (hJ : ∀ a tx' told', told <+: told' → J a tx' told' → J' a tx' told') :
    Tells call J' p tx told := by
  refine Conforms.mono h fun r here haccount => ?_
  cases r with
  | ok a => exact ⟨haccount.1, haccount.2.1, hJ a _ _ haccount.2.1 haccount.2.2⟩
  | error e => exact haccount

theorem tells_pure {a : α} (h : J a tx told) : Tells call J (.pure a) tx told :=
  ⟨rfl, List.prefix_rfl, h⟩

theorem tells_raise {e : Exn} : Tells call J (.raise e) tx told := rfl

theorem tells_lift {r : Except Exn α} (h : ∀ a, r = .ok a → J a tx told) :
    Tells call J (lift r) tx told := by
  cases r with
  | ok a => exact tells_pure (h a rfl)
  | error e => exact tells_raise

theorem tells_check {r : Except Exn α} :
    Tells call (fun a tx' told' => r = .ok a ∧ tx' = tx ∧ told' = told) (lift r) tx told :=
  tells_lift fun _ ha => ⟨ha, rfl, rfl⟩

/-- One operation before the commit. -/
theorem tells_call {o : Op} {J : Res o → Tx → Told → Prop} (ho : o ≠ .commit)
    (howed : Owed call o (tx, ⟨told, none⟩))
    (hJ : ∀ st a, exec o tx st = (.ok a, after tx st o) →
      J a (after tx st o).1 (told ++ (answer? o (.ok a)).toList)) :
    Tells call J (perform o) tx told := by
  refine Interleaving.conforms_call howed fun st => ?_
  rcases exec_cases o tx st with ⟨e, -, -, heq⟩ | ⟨-, a, heq⟩
  · show Account told J (exec o tx st).1
      ((exec o tx st).2.1, note o tx (exec o tx st).1 ⟨told, none⟩)
    rw [heq, note_error]
    rfl
  · show Account told J (exec o tx st).1
      ((exec o tx st).2.1, note o tx (exec o tx st).1 ⟨told, none⟩)
    rw [heq, note_of_ne_commit ho]
    exact ⟨rfl, List.prefix_append _ _, hJ st a heq⟩

end Rules

/-! ## Sessions at rest

Between a query and the next change a session has nothing pending. -/

section Rest

/-- A session at rest: its guard, what it issued, and the task it holds unchanged. -/
def holding (lock : Option LockMode) (log : List Write) (task : Option Task) : Tx :=
  ⟨lock, log, task.map fun t => (t, t), [], []⟩

variable {lock : Option LockMode} {log : List Write} {task : Option Task}

omit [Unicode] [Jsonb] [Runtime] in
@[simp] theorem pending_holding : pending (holding lock log task) = [] :=
  pending_eq_nil rfl rfl fun loaded current h => by
    obtain ⟨t, -, ht⟩ := Option.map_eq_some_iff.1 h
    exact (Prod.mk.inj ht).1.symm.trans (Prod.mk.inj ht).2

omit [Unicode] [Jsonb] [Runtime] in
@[simp] theorem writes_holding : writes (holding lock log task) = log := by
  rw [writes, pending_holding, List.append_nil]
  rfl

omit [Unicode] [Jsonb] [Runtime] in
@[simp] theorem flushed_holding : flushed (holding lock log task) = holding lock log task := by
  have hsettled : settled (holding lock log task) = (holding lock log task).tracked :=
    (Settled.mk rfl fun _ => List.not_mem_nil : Settled task (holding lock log task)).settled_eq
  rw [flushed, writes_holding, hsettled]
  rfl

end Rest

/-! ## Duties of single operations -/

section Duties

variable {call : Call} {tx : Tx} {told : Told} {o : Op}

/-- Operations that issue nothing and leave the guard. -/
def Op.Works : Op → Prop
  | .uuid7 | .now | .add _ | .setTask _ | .deleteTask _ | .deleteTag _ | .rollback => True
  | _ => False

omit [Jsonb] [Runtime] in
theorem owed_works {saved : Option Tx} (ho : Op.Works o) (hsaved : saved = none) :
    Owed call o (tx, ⟨told, saved⟩) where
  unsaved := hsaved
  guard mode := by
    rintro rfl
    exact ho.elim
  reads h := by cases o <;> first | exact ho.elim | exact h.elim
  prepares h := by cases o <;> first | exact ho.elim | exact h.elim
  commit := by
    rintro rfl
    exact ho.elim

omit [Jsonb] [Runtime] in
theorem owed_reads (ho : Op.Reads o) (hwrites : writes tx = []) :
    Owed call o (tx, ⟨told, none⟩) where
  unsaved := rfl
  guard mode := by
    rintro rfl
    exact ho.elim
  reads _ := hwrites
  prepares h := by cases o <;> first | exact ho.elim | exact h.elim
  commit := by
    rintro rfl
    exact ho.elim

omit [Jsonb] [Runtime] in
theorem owed_prepares (ho : Op.Prepares o) (h : Prepares told call o tx) :
    Owed call o (tx, ⟨told, none⟩) where
  unsaved := rfl
  guard mode := by
    rintro rfl
    exact ho.elim
  reads h := by cases o <;> first | exact ho.elim | exact h.elim
  prepares _ := h
  commit := by
    rintro rfl
    exact ho.elim

end Duties

/-! ## Queries -/

section Queries

variable {call : Call} {told : Told} {lock : Option LockMode} {log : List Write}
  {task : Option Task}

/-- A query of a session that has written nothing: the answer is noted, and nothing else changes. -/
theorem tells_reads {o : Op} (ho : Op.Reads o)
    (hafter : ∀ tx st, after tx st o = (flushed tx, st)) :
    Tells call (fun a tx' told' => tx' = holding lock [] task
        ∧ told' = told ++ (answer? o (.ok a)).toList) (perform o) (holding lock [] task) told := by
  refine tells_call ?_ (owed_reads ho writes_holding) fun st a _ => ⟨?_, rfl⟩
  · rintro rfl
    exact ho.elim
  · rw [hafter, flushed_holding]

/-- The definition is read, parsed, and noted. -/
theorem tells_activeEngine : Tells call (fun engine tx' told' => tx' = holding lock [] none
    ∧ Consults told' engine) activeEngine (holding lock [] none) told := by
  have hactive : Tells call (fun stored tx' told' => tx' = holding lock [] none
      ∧ Consults told' ⟨stored.workflow⟩)
      Workflows.Repository.getActive (holding lock [] none) told := by
    refine (tells_reads (o := .selectActive) trivial fun _ _ => rfl).bind ?_
    rintro record _ _ - ⟨rfl, rfl⟩
    cases record with
    | none => exact tells_raise
    | some record =>
      refine tells_check.bind ?_
      rintro w _ _ - ⟨hparse, rfl, rfl⟩
      exact tells_pure ⟨rfl, record, List.mem_append_right _ List.mem_cons_self,
        Except.mapError_eq_ok.1 hparse⟩
  exact hactive.bind fun stored tx' told' _ h => tells_pure h

/-- The guard, before anything else. -/
theorem tells_acquireWorkflowGuard (shared : Bool) :
    Tells call
      (fun _ tx' told' => tx' = holding (some (if shared then .shared else .exclusive)) [] none
      ∧ told' = []) (acquireWorkflowGuard shared) .fresh [] := by
  refine tells_call (by simp) ?_ fun st a _ => ⟨rfl, rfl⟩
  exact ⟨rfl, fun _ _ => rfl, False.elim, False.elim, fun h => (nomatch h)⟩

theorem tells_guardedEngine : Tells call (fun engine tx' told' =>
    tx' = holding (some .shared) [] none ∧ Consults told' engine) guardedEngine .fresh [] := by
  refine (tells_acquireWorkflowGuard true).bind ?_
  rintro _ _ _ - ⟨rfl, rfl⟩
  exact tells_activeEngine

/-- The task is loaded. -/
theorem tells_get (taskId : Uuid) : Tells call (fun t tx' told' => tx' = holding lock [] (some t)
      ∧ .task taskId (some t) ∈ told' ∧ t.id = taskId)
    (Repository.get taskId) (holding lock [] none) told := by
  have hread : Tells call (fun answer tx' told' => .task taskId answer ∈ told'
      ∧ ∀ t, answer = some t → tx' = holding lock [] (some t) ∧ t.id = taskId)
      (perform (.getTask taskId)) (holding lock [] none) told := by
    refine tells_call (by simp) (owed_reads trivial writes_holding) fun st answer heq => ?_
    refine ⟨List.mem_append_right _ List.mem_cons_self, fun t ht => ?_⟩
    have hok : (exec (.getTask taskId) (holding lock [] none) st).1 = .ok answer := by rw [heq]
    obtain ⟨hid, hafter⟩ := (exec_getTask_eq_ok hok).2 t ht
    rw [hafter, flushed_holding]
    exact ⟨rfl, hid⟩
  refine hread.bind ?_
  rintro (_ | t) tx' told' - ⟨htold, hfound⟩
  · exact tells_raise
  · obtain ⟨rfl, hid⟩ := hfound t rfl
    exact tells_pure ⟨rfl, htold, hid⟩

/-- The occupancy is counted when the check can need it. -/
theorem tells_context (engine : Engine) (roles : List PyStr) (a b : Option PyStr) :
    Tells call (fun context tx' told' => tx' = holding lock [] task
      ∧ Counted engine roles a b told' context) (context engine roles a b) (holding lock [] task)
      told := by
  unfold context
  split
  next hneeds =>
    refine (tells_reads (o := .countByStatus) trivial fun _ _ => rfl).bind ?_
    rintro counts _ _ - ⟨rfl, rfl⟩
    refine tells_pure ⟨rfl, rfl, fun _ => List.mem_append_right _ List.mem_cons_self,
      fun hnot => ?_⟩
    rw [hneeds] at hnot
    cases hnot
  next hneeds =>
    exact tells_pure ⟨rfl, rfl, fun h => absurd h hneeds, fun _ => rfl⟩

end Queries

/-! ## Draws and new rows -/

section Changes

variable {call : Call} {α : Type} {tx : Tx} {told : Told}

/-- Drawing an id. -/
theorem tells_uuid7 : Tells call (fun id tx' told' => tx' = tx ∧ told' = told ++ [.drawn id])
    (perform .uuid7) tx told :=
  tells_call (by simp) (owed_works trivial rfl) fun _ _ _ => ⟨rfl, rfl⟩

theorem tells_now :
    Tells call (fun _ tx' told' => tx' = tx ∧ told' = told) (perform .now) tx told :=
  tells_call (by simp) (owed_works trivial rfl) fun _ _ _ => ⟨rfl, List.append_nil told⟩

/-- Draws leave the transaction. -/
theorem tells_draws {P : α → Prop} {E : Exn → Prop} {p : SessionProg α}
    (hp : Straight Op.Draw (Outcome P E) p) :
    Tells call (fun a tx' _ => P a ∧ tx' = tx) p tx told := by
  have hconforms : Conforms (observe note exec) (Owed call) _ p (tx, ⟨told, none⟩) :=
    Interleaving.Straight.conforms hp
      (J := fun here => here.2.saved = none ∧ told <+: here.2.told ∧ here.1 = tx)
      (F := fun _ here => here.2.saved = none) ?_ ?_ (fun _ _ _ h => h.1)
      ⟨rfl, List.prefix_rfl, rfl⟩
  · refine hconforms.mono fun r here h => ?_
    cases r with
    | ok a =>
      obtain ⟨hP, hsaved, hle, htx⟩ := h.1 a rfl
      exact ⟨hsaved, hle, hP, htx⟩
    | error e => exact h.2 e rfl
  · rintro o ⟨tx', told', saved⟩ ho ⟨hsaved, -, -⟩
    refine owed_works ?_ hsaved
    cases o <;> first | exact ho.elim | trivial
  · rintro o ⟨tx', told', saved⟩ st ho ⟨hsaved, hle, htx⟩
    cases o with
    | uuid7 => exact ⟨trivial, hsaved, hle.trans (List.prefix_append _ _), htx⟩
    | now => exact ⟨trivial, hsaved, hle.trans (List.prefix_append _ _), htx⟩
    | _ => exact ho.elim

/-- The transaction with more new rows. -/
def adding (tx : Tx) (rows : List NewRow) : Tx := { tx with added := tx.added ++ rows }

omit [Unicode] [Jsonb] [Runtime] in
@[simp] theorem adding_nil : adding tx [] = tx := by
  rw [adding, List.append_nil]

omit [Unicode] [Jsonb] [Runtime] in
@[simp] theorem adding_adding (rows rows' : List NewRow) :
    adding (adding tx rows) rows' = adding tx (rows ++ rows') := by
  simp [adding]

theorem tells_add {row : NewRow} (hrow : ∀ t, row ≠ .task t) :
    Tells call (fun _ tx' told' => tx' = adding tx [row] ∧ told' = told) (perform (.add row)) tx
      told :=
  tells_call (by simp) (owed_works trivial rfl) fun _ _ _ =>
    ⟨add_of_ne_task hrow tx, List.append_nil told⟩

/-- The outbox rows of the events join the transaction. -/
theorem tells_stageEvents (events : List Event) :
    Tells call (fun _ tx' told' => ∃ rows : List (OutboxRecord Event),
      tx' = adding tx (rows.map .outbox) ∧ Staged (events.map Event.body) rows told')
      (stageEvents events) tx told := by
  -- the rows of this call are the last ids drawn
  have hstrong : Tells call (fun _ tx' told' => ∃ rows : List (OutboxRecord Event),
      tx' = adding tx (rows.map .outbox) ∧ rows.map (fun r => r.event.body) = events.map Event.body
      ∧ (∀ r ∈ rows, ∃ id event, r = .fromEvent id event)
      ∧ ∃ new, told' = told ++ new ∧ Told.ids new = rows.map OutboxRecord.id)
      (stageEvents events) tx told := by
    induction events generalizing tx told with
    | nil => exact tells_pure ⟨[], by simp, rfl, by simp, [], by simp, rfl⟩
    | cons event events ih =>
      refine tells_uuid7.bind ?_
      rintro id _ _ - ⟨rfl, rfl⟩
      refine (tells_add (by simp)).bind ?_
      rintro _ _ _ - ⟨rfl, rfl⟩
      refine ih.mono ?_
      rintro _ _ _ - ⟨rows, rfl, hbodies, hpending, new, rfl, hids⟩
      refine ⟨.fromEvent id event :: rows, by simp, by simp [hbodies, OutboxRecord.fromEvent], ?_,
        .drawn id :: new, by simp, ?_⟩
      · exact List.forall_mem_cons.2 ⟨⟨id, event, rfl⟩, hpending⟩
      · show id :: Told.ids new = _
        rw [hids]
        rfl
  refine hstrong.mono ?_
  rintro _ _ _ - ⟨rows, rfl, hbodies, hpending, new, rfl, hids⟩
  refine ⟨rows, rfl, hbodies, hpending, ?_⟩
  rw [← hids]
  exact (List.sublist_append_right told new).filterMap _

/-! ## What is pending -/

omit [Unicode] [Jsonb] [Runtime] in
/-- The statements of new tags, links and outbox rows, in the order of a flush. -/
theorem pending_of_added {tags : List Tag} {links : List TaskTag} {rows : List (OutboxRecord Event)}
    (h : tx.added = tags.map .tag ++ links.map .taskTag ++ rows.map .outbox) :
    pending tx = rows.map .insertOutbox ++ tags.map .insertTag ++ links.map .insertTaskTag
      ++ dirty tx ++ tx.deleted := by
  simp [pending, h, List.filterMap_append, List.filterMap_map]

end Changes

/-! ## Tags -/

section TagParts

variable {call : Call} {told : Told} {lock : Option LockMode} {log : List Write}
  {task : Option Task}

omit [Unicode] [Jsonb] [Runtime] in
theorem pending_adding (tags : List Tag) (links : List TaskTag) (rows : List (OutboxRecord Event)) :
    pending (adding (holding lock log task)
    (tags.map .tag ++ links.map .taskTag ++ rows.map .outbox))
      = rows.map .insertOutbox ++ tags.map .insertTag ++ links.map .insertTaskTag := by
  have hdirty : dirty (holding lock log task) = [] :=
    (Settled.mk rfl fun _ => List.not_mem_nil : Settled task (holding lock log task)).dirty_eq_nil
  rw [pending_of_added (by rfl)]
  show _ ++ dirty (holding lock log task) ++ [] = _
  rw [hdirty, List.append_nil, List.append_nil]

omit [Unicode] [Jsonb] [Runtime] in
/-- A flush with new tags only. -/
theorem flushed_adding_tags (tags : List Tag) :
    flushed (adding (holding lock log task) (tags.map .tag))
      = holding lock (log ++ tags.map .insertTag) task := by
  have hpending : pending (adding (holding lock log task) (tags.map .tag))
      = tags.map .insertTag := by
    simpa using @pending_adding lock log task tags [] []
  have hsettled : Settled task (adding (holding lock log task) (tags.map .tag)) := by
    refine ⟨rfl, fun t ht => ?_⟩
    change NewRow.task t ∈ [] ++ tags.map NewRow.tag at ht
    simp at ht
  rw [flushed, writes, hpending, hsettled.settled_eq]
  rfl

/-- The missing keys get tags. -/
theorem tells_mintMissing {resolved : Dict PyStr Uuid} {wanted : Dict PyStr PyStr} {tx : Tx}
    (hnd : (Dict.keys wanted).Nodup) :
    Tells call (fun resolved' tx' told' => ∃ minted, resolved' = resolved ++ idsByKey minted
      ∧ Mints resolved wanted minted ∧ tx' = adding tx (minted.map .tag)
      ∧ ∃ new, told' = told ++ new ∧ Told.ids new = minted.map Tag.id)
      (mintMissing resolved wanted) tx told := by
  induction wanted generalizing resolved tx told with
  | nil => exact tells_pure ⟨[], by simp [idsByKey], rfl, by simp, [], by simp, rfl⟩
  | cons kv wanted ih =>
    obtain ⟨hkey, hnd⟩ := List.nodup_cons.1 hnd
    unfold mintMissing
    by_cases hmem : kv.1 ∈ Dict.keys resolved
    · -- a key that is resolved already is passed over
      rw [if_pos hmem]
      refine (ih hnd).mono ?_
      rintro _ _ _ - ⟨minted, rfl, hmints, rfl, new, rfl, hids⟩
      refine ⟨minted, rfl, ?_, rfl, new, rfl, hids⟩
      rw [Mints, missing_cons_of_mem hmem]
      exact hmints
    · rw [if_neg hmem]
      -- a new tag: its id is drawn, and its key is resolved from here on
      refine tells_uuid7.bind ?_
      rintro id _ _ - ⟨rfl, rfl⟩
      refine tells_now.bind ?_
      rintro createdAt _ _ - ⟨rfl, rfl⟩
      refine (tells_add (by simp)).bind ?_
      rintro _ _ _ - ⟨rfl, rfl⟩
      rw [Dict.set_of_notMem hmem]
      refine (ih hnd).mono ?_
      rintro _ _ _ - ⟨minted, rfl, hmints, rfl, new, rfl, hids⟩
      refine ⟨⟨id, kv.2, kv.1, createdAt⟩ :: minted, by simp [idsByKey], ?_, by simp,
        .drawn id :: new, by simp, ?_⟩
      · rw [Mints, @missing_cons_of_notMem resolved wanted kv id hmem hkey, ← hmints]
        rfl
      · show id :: Told.ids new = _
        rw [hids]
        rfl

/-- The names of a request resolve. -/
theorem tells_resolve {taskId : Uuid} (names : List PyStr)
    (hstages : Stages told call taskId (some names) (holding lock log task)) :
    Tells call (fun resolved tx' told' => ∃ rows minted, resolved = idsByKey (rows ++ minted)
      ∧ Resolved names rows minted told' ∧ tx' = adding (holding lock log task) (minted.map .tag))
      (resolve names) (holding lock log task) told := by
  refine tells_check.bind ?_
  rintro wanted _ told - ⟨hwanted, rfl, rfl⟩
  obtain ⟨hblank, rfl⟩ := wantedFrom_eq_ok.1 hwanted
  by_cases hnil : wantedOf [] names = []
  · -- no names: no query is made
    rw [if_pos hnil]
    refine tells_pure ⟨[], [], rfl, ⟨hblank, fun hne => absurd hnil hne, fun _ => rfl, by simp, ?_,
      List.nil_sublist _⟩, by simp⟩
    rw [hnil]
    rfl
  · rw [if_neg hnil]
    have hread : Tells call (fun rows tx' told' => tx' = holding lock log task
        ∧ told' = told ++ [.tagRows (Dict.keys (wantedOf [] names)) rows]
        ∧ ∀ row ∈ rows, row.nameKey ∈ Dict.keys (wantedOf [] names))
        (perform (.selectTags (Dict.keys (wantedOf [] names)))) (holding lock log task) told := by
      refine tells_call (by simp) (owed_prepares trivial (.rows hstages)) fun st rows heq =>
        ⟨flushed_holding, rfl, fun row hrow => ?_⟩
      -- the rows the query returns have the keys that were asked for
      have hquery : (query (holding lock log task) st fun db => db.tags.filter fun t =>
          t.nameKey ∈ Dict.keys (wantedOf [] names)).1 = .ok rows := congrArg Prod.fst heq
      rw [query_eq_ok hquery] at hrow
      simpa using (List.mem_filter.1 hrow).2
    refine hread.bind ?_
    rintro rows _ _ - ⟨rfl, rfl, hasked⟩
    refine (tells_mintMissing (nodup_keys_wantedOf names
      (show (Dict.keys ([] : Dict PyStr PyStr)).Nodup from .nil))).mono ?_
    rintro _ _ _ - ⟨minted, rfl, hmints, rfl, new, rfl, hids⟩
    refine ⟨rows, minted, by simp [idsByKey],
      ⟨hblank, fun _ => by simp, fun h => absurd h hnil, hasked, hmints, ?_⟩, rfl⟩
    rw [← hids]
    exact (List.sublist_append_right _ new).filterMap _

theorem tells_addTaskTags (taskId : Uuid) (tagIds : List Uuid) {tx : Tx} :
    Tells call (fun _ tx' told' => tx' = adding tx ((tagIds.map fun tagId =>
      (⟨taskId, tagId⟩ : TaskTag)).map .taskTag) ∧ told' = told) (addTaskTags taskId tagIds) tx
      told := by
  induction tagIds generalizing tx with
  | nil => exact tells_pure ⟨by simp, rfl⟩
  | cons tagId tagIds ih =>
    refine (tells_add (by simp)).bind ?_
    rintro _ _ _ - ⟨rfl, rfl⟩
    exact ih.mono fun _ _ _ _ ⟨htx, htold⟩ => ⟨by simpa using htx, htold⟩

/-- The links of the task are replaced. -/
theorem tells_setForTask {taskId : Uuid} {names : List PyStr} {rows minted : List Tag}
    (hstages : Stages told call taskId (some names) (holding lock log task))
    (hresolved : Resolved names rows minted told) (found : List Tag) :
    Tells call (fun _ tx' told' => ∃ gone, told' = told ++ [.unlinked taskId gone]
      ∧ tx' = adding (holding lock (log ++ (minted.map .insertTag ++ [Write.deleteTaskTags gone]))
          task) ((linksTo taskId found).map .taskTag))
      (setForTask taskId ((idsByKey found).map Prod.snd))
      (adding (holding lock log task) (minted.map .tag)) told := by
  have hdelete : Tells call (fun _ tx' told' => ∃ gone, told' = told ++ [.unlinked taskId gone]
      ∧ tx' = holding lock (log ++ (minted.map .insertTag ++ [Write.deleteTaskTags gone])) task)
      (perform (.deleteTaskTags taskId))
      (adding (holding lock log task) (minted.map .tag)) told := by
    have hflushed := @flushed_adding_tags lock log task minted
    have hwrites : writes (adding (holding lock log task) (minted.map .tag))
        = log ++ minted.map .insertTag := by
      rw [← flushed_log, hflushed]
      rfl
    -- the DELETE flushes the minted tags first, and returns the links it found
    have howed : Owed call (.deleteTaskTags taskId)
        (adding (holding lock log task) (minted.map .tag), ⟨told, none⟩) :=
      owed_prepares trivial (.unlink hstages hresolved)
    refine tells_call (by simp) howed fun st gone heq => ⟨gone, rfl, ?_⟩
    have hgone : gone = (view st.db (log ++ minted.map .insertTag)).linksOf taskId := by
      rw [← hwrites]
      exact exec_deleteTaskTags_eq_ok (congrArg Prod.fst heq)
    show { flushed (adding (holding lock log task) (minted.map .tag)) with
      log := writes (adding (holding lock log task) (minted.map .tag))
        ++ [Write.deleteTaskTags ((view st.db (writes (adding (holding lock log task)
          (minted.map .tag)))).linksOf taskId)] } = _
    rw [hflushed, hwrites, List.append_assoc, ← hgone]
    rfl
  refine hdelete.bind ?_
  rintro _ _ _ - ⟨gone, rfl, rfl⟩
  -- the new links are only added to the session here
  refine (tells_addTaskTags taskId _).mono ?_
  rintro _ _ _ - ⟨rfl, rfl⟩
  refine ⟨gone, rfl, ?_⟩
  have hids : (idsByKey found).map Prod.snd = found.map Tag.id := by simp [idsByKey]
  rw [hids]
  rfl

/-- **`_stage_tags` leaves what `TagStage` says.** -/
theorem tells_stageTags {taskId : Uuid} {names : Option (List PyStr)}
    (hstages : Stages told call taskId names (holding lock log task)) :
    Tells call (fun event tx' told' => ∃ minted retag,
      TagStage taskId told' names minted retag (event.map Event.body)
        ∧ tx' = adding (holding lock (log ++ issuedTags minted retag) task)
            (addedTags taskId minted retag))
      (stageTags taskId names) (holding lock log task) told := by
  cases names with
  -- tags that are not in the request are left alone
  | none => exact tells_pure ⟨[], none, .omitted, by simp [issuedTags, addedTags]⟩
  | some names =>
    have hbefore : Tells call (fun before tx' told' => tx' = holding lock log task
        ∧ .tagNames taskId before ∈ told') (namesForTask taskId) (holding lock log task) told :=
      tells_call (by simp) (owed_prepares trivial (.names hstages)) fun _ _ _ =>
        ⟨flushed_holding, List.mem_append_right _ List.mem_cons_self⟩
    refine hbefore.bind ?_
    rintro before _ told hle ⟨rfl, hbefore⟩
    replace hstages := hstages.mono hle
    refine (tells_resolve names hstages).bind ?_
    rintro _ _ told' hle ⟨rows, minted, rfl, hresolved, rfl⟩
    replace hstages := hstages.mono hle
    dsimp only
    split
    -- the same names as before: tags may be minted, but no link changes and nothing is told
    next hsame =>
      exact tells_pure ⟨minted, none, .kept (hle.subset hbefore) hresolved hsame,
        by simp [issuedTags, addedTags]⟩
    next hdiffers =>
      refine (tells_setForTask hstages hresolved (rows ++ minted)).bind ?_
      rintro _ _ _ hunlinked ⟨gone, rfl, rfl⟩
      refine (tells_draws (newEvent_straight _)).bind ?_
      rintro event _ told'' hle' ⟨hbody, rfl⟩
      refine tells_pure ⟨minted, some ⟨gone, rows ++ minted⟩, ?_, rfl⟩
      show TagStage taskId told'' (some names) _ _ (some event.body)
      rw [hbody]
      exact .changed (hle'.subset (hunlinked.subset (hle.subset hbefore)))
        (hresolved.mono (hunlinked.trans hle')) hdiffers
        (hle'.subset (List.mem_append_right _ List.mem_cons_self))

end TagParts

/-! ## Commits and their handlers -/

section Saving

variable {call : Call} {α β : Type} {told : Told} {tx : Tx}

/-- **The commit**: its transaction is one the call commits. -/
theorem finishes_commit (h : Commits call tx told) : Finishes call (perform .commit) tx told := by
  refine Interleaving.conforms_call ?_ fun st => ?_
  · exact ⟨rfl, fun _ h => (nomatch h), False.elim, False.elim, fun _ => h⟩
  · show Ended call (exec .commit tx st).1
      ((exec .commit tx st).2.1, note .commit tx (exec .commit tx st).1 ⟨told, none⟩)
    rcases exec_cases .commit tx st with ⟨e, -, -, heq⟩ | ⟨-, a, heq⟩ <;> rw [heq]
    · rw [note_error]
      rfl
    · exact .inl ⟨tx, rfl, h⟩

/-- What the call returns after its commit does not matter. -/
theorem Finishes.map {p : SessionProg α} (f : α → β) (h : Finishes call p tx told) :
    Finishes call (p >>= fun a => .pure (f a)) tx told :=
  Conforms.bind h (fun _ _ h => h) fun _ _ h => h

/-- The outcome is one that a handler may turn an exception into: nothing has been committed. -/
def Clean (Q : Except Exn α → Tx × Notes → Prop) : Prop :=
  ∀ e here, Q (.error e) here ↔ here.2.saved = none

omit [Jsonb] [Runtime] in
theorem clean_ended : Clean (Ended (α := α) call) := fun _ _ => Iff.rfl

omit [Unicode] [Jsonb] [Runtime] in
theorem clean_account {J : α → Tx → Told → Prop} : Clean (Account told J) := fun _ _ => Iff.rfl

/-- The handler for a violated constraint only rolls back and raises. -/
theorem conforms_translate {Q : Except Exn Unit → Tx × Notes → Prop} (hQ : Clean Q)
    {p : SessionProg Unit} {title : PyStr} {here : Tx × Notes}
    (h : Conforms (observe note exec) (Owed call) Q p here) :
    Conforms (observe note exec) (Owed call) Q (p.tryCatch (Repository.translate title)) here := by
  refine Conforms.tryCatch h (fun _ _ h => h) fun e here h => ?_
  have hsaved := (hQ e here).1 h
  unfold Repository.translate
  split
  · refine ⟨owed_works trivial hsaved, fun st => ?_⟩
    show Conforms (observe note exec) (Owed call) Q (if _ then _ else _) _
    split <;> exact (hQ _ _).2 hsaved
  · exact (hQ _ _).2 hsaved

theorem conforms_echoTitle {Q : Except Exn Unit → Tx × Notes → Prop} (hQ : Clean Q)
    {p : SessionProg Unit} {title : PyStr} {here : Tx × Notes}
    (h : Conforms (observe note exec) (Owed call) Q p here) :
    Conforms (observe note exec) (Owed call) Q (p.tryCatch (echoTitle title)) here := by
  refine Conforms.tryCatch h (fun _ _ h => h) fun e here h => ?_
  have hsaved := (hQ e here).1 h
  unfold echoTitle
  split <;> exact (hQ _ _).2 hsaved

/-- **Saving a task with its events.** -/
theorem finishes_persist {task : Task} {events : List Event} {title : PyStr} {tx' : Tx}
    (hadd : tx.add (.task task) = tx')
    (hcommits : ∀ rows told', told <+: told' → Staged (events.map Event.body) rows told' →
      Commits call (adding tx' (rows.map .outbox)) told') :
    Finishes call (persist task events title) tx told := by
  refine conforms_echoTitle clean_ended ?_
  have hnew : Tells call (fun _ t told' => t = tx' ∧ told' = told) (perform (.add (.task task))) tx
      told :=
    tells_call (by simp) (owed_works trivial rfl) fun _ _ _ => ⟨hadd, List.append_nil told⟩
  refine hnew.finish ?_
  rintro _ _ told - ⟨rfl, rfl⟩
  refine (tells_stageEvents events).finish ?_
  rintro _ _ told' hle ⟨rows, rfl, hrows⟩
  exact conforms_translate clean_ended (finishes_commit (hcommits rows told' hle hrows))

/-- The new row is flushed, and held from then on. -/
theorem tells_stageNew {title : PyStr} {description status : Option PyStr} {priority : Int}
    {name : PyStr} {names : List PyStr} {task : Task}
    (htask : Admits title description status priority told task) :
    Tells (.create title description status priority (some (name :: names)))
      (fun _ tx' told' => told' = told
        ∧ tx' = holding (some .shared) [.insertTask task] (some task)) (stageNew task title)
      (holding (some .shared) [] none) told := by
  refine conforms_echoTitle clean_account ?_
  have hnew : Tells (.create title description status priority (some (name :: names)))
      (fun _ tx' told' => tx' = adding (holding (some .shared) [] none) [.task task] ∧ told' = told)
      (perform (.add (.task task))) (holding (some .shared) [] none) told :=
    tells_call (by simp) (owed_works trivial rfl) fun _ _ _ => ⟨rfl, List.append_nil told⟩
  refine hnew.bind ?_
  rintro _ _ told - ⟨rfl, rfl⟩
  refine conforms_translate clean_account ?_
  exact tells_call (by simp) (owed_prepares trivial (.stage htask)) fun _ _ _ =>
    ⟨List.append_nil told, rfl⟩

/-- A changed task is saved with its events, or nothing is committed. -/
theorem finishes_persistUpdate {lock : Option LockMode} {issued : List Write} {added : List NewRow}
    {previous updated : Task} {engine : Option Engine} {title : PyStr} {extra : Option Event}
    (hcommits : ∀ rows told', told <+: told' →
      Narrates engine previous updated (extra.map Event.body) rows told' →
      Commits call ⟨lock, issued, some (previous, updated), added ++ rows.map .outbox, []⟩ told')
    (hrests : ∀ told', told <+: told' → extra = none → updated.changedFields previous = [] →
      Rests call told') :
    Finishes call (persistUpdate updated previous engine title extra)
      ⟨lock, issued, some (previous, updated), added, []⟩ told := by
  refine (tells_draws (updateEvents_straight updated previous engine)).finish ?_
  rintro events _ told hle ⟨⟨completes, hbodies, hvalid, hcompletes⟩, rfl⟩
  dsimp only
  split
  next hne =>
    refine finishes_persist (add_held_task rfl rfl) fun rows told' hle' hrows => ?_
    refine hcommits rows told' (hle.trans hle') ⟨hvalid, ⟨completes, ?_, hcompletes⟩, ?_⟩
    · rw [← hbodies]
      convert hrows using 1
      cases extra <;> simp
    · rintro rfl
      have hnil : (events ++ extra.toList).map Event.body = [] := hrows.bodies.symm
      exact hne (List.map_eq_nil_iff.1 hnil)
  next hnil =>
    have hboth := not_not.1 hnil
    obtain ⟨rfl, hextra⟩ := List.append_eq_nil_iff.1 hboth
    refine .inr ⟨rfl, hrests told hle (Option.toList_eq_nil_iff.1 hextra) ?_⟩
    by_contra hchanged
    rw [updateBodies, if_neg hchanged] at hbodies
    cases hbodies

end Saving

/-! ## The use cases -/

section TaskCalls

/-- A new task is made and saved. -/
theorem finishes_create (title : PyStr) (description status : Option PyStr) (priority : Int)
    (tags : Option (List PyStr)) :
    Finishes (.create title description status priority tags)
      (create title description status priority tags) .fresh [] := by
  -- the reads first: the definition under the guard, and the occupancy if a limit asks for it
  refine tells_guardedEngine.finish ?_
  rintro engine _ told - ⟨rfl, hconsults⟩
  refine (tells_context engine [] none status).finish ?_
  rintro context _ told hle ⟨rfl, hcounted⟩
  replace hconsults := hconsults.mono hle
  refine tells_check.finish ?_
  rintro resolved _ told - ⟨hresolved, rfl, rfl⟩
  -- the row is made of drawn values, and its snapshot is what is saved and told
  refine tells_uuid7.finish ?_
  rintro id _ _ hle ⟨rfl, rfl⟩
  refine tells_now.finish ?_
  rintro createdAt _ _ - ⟨rfl, rfl⟩
  refine tells_check.finish ?_
  rintro task _ _ - ⟨htask, rfl, rfl⟩
  refine tells_check.finish ?_
  rintro snapshot _ _ - ⟨hsnapshot, rfl, rfl⟩
  obtain ⟨hvalid, rfl⟩ := Task.snapshot_eq_ok.1 hsnapshot
  have hadmits : Admits title description status priority (told ++ [.drawn id]) snapshot := by
    have hmade := htask
    obtain ⟨-, rfl⟩ := Task.fromInput_eq_ok.1 htask
    exact ⟨⟨engine, context, hconsults.mono hle, hcounted.mono hle, hresolved⟩, hmade, hvalid,
      by simp [Told.ids, Answer.drawn?]⟩
  refine (tells_draws (newEvent_straight _)).finish ?_
  rintro created _ told' hle' ⟨hcreated, rfl⟩
  replace hadmits := hadmits.mono hle'
  -- without tags the row is still to be added when `persist` begins
  have hplain : (tags = none ∨ tags = some []) →
      Finishes (.create title description status priority tags)
        (persist snapshot [created] title >>= fun _ => .pure snapshot)
        (holding (some .shared) [] none)
        told' := by
    intro htags
    refine (finishes_persist rfl fun rows told'' hle'' hrows => ?_).map _
    have hbodies : [created].map Event.body = [.taskCreated snapshot] := by rw [← hcreated]; rfl
    exact .create htags (hadmits.mono hle'') (hbodies ▸ hrows)
  match tags with
  | none => exact hplain (.inl rfl)
  | some [] => exact hplain (.inr rfl)
  | some (name :: names) =>
    -- with tags it is flushed first, so that the links can refer to it
    show Finishes _ ((stageNew snapshot title >>= fun _ =>
      stageTags snapshot.id (some (name :: names))
      >>= fun event => .pure event.toList) >>= fun tagEvents =>
        persist snapshot (created :: tagEvents) title >>= fun _ => .pure snapshot) _ _
    have hstaged : Tells (.create title description status priority (some (name :: names)))
        (fun tagEvents tx' told'' => ∃ minted retag event, tagEvents.map Event.body = event.toList
          ∧ TagStage snapshot.id told'' (some (name :: names)) minted retag event
          ∧ tx' = adding (holding (some .shared) (.insertTask snapshot
              :: issuedTags minted retag) (some snapshot))
              (addedTags snapshot.id minted retag))
        (stageNew snapshot title >>= fun _ => stageTags snapshot.id (some (name :: names))
          >>= fun event => .pure event.toList) (holding (some .shared) [] none) told' := by
      refine (tells_stageNew hadmits).bind ?_
      rintro _ _ told' hle ⟨rfl, rfl⟩
      refine (tells_stageTags (.new hadmits)).bind ?_
      rintro event _ told'' - ⟨minted, retag, hstage, rfl⟩
      refine tells_pure ⟨minted, retag, event.map Event.body, ?_, hstage, rfl⟩
      cases event <;> rfl
    refine hstaged.finish ?_
    rintro tagEvents _ told'' hle'' ⟨minted, retag, event, hevent, hstage, rfl⟩
    refine (finishes_persist (add_held_task rfl rfl) fun rows told₃ hle₃ hrows => ?_).map _
    have hbodies : (created :: tagEvents).map Event.body
        = .taskCreated snapshot :: event.toList := by
      rw [List.map_cons, hcreated, hevent]
    exact .createTagged (hadmits.mono (hle''.trans hle₃)) (hstage.mono hle₃) (hbodies ▸ hrows)

/-- The task is replaced and saved. -/
theorem finishes_replace (taskId : Uuid) (title : PyStr) (description status : Option PyStr)
    (priority : Int) (tags : Option (List PyStr)) (roles : List PyStr) :
    Finishes (.replace taskId title description status priority tags roles)
      (replace taskId title description status priority tags roles) .fresh [] := by
  -- the reads, in the order of the source: definition, task, occupancy
  refine tells_guardedEngine.finish ?_
  rintro engine _ told - ⟨rfl, hconsults⟩
  refine (tells_get taskId).finish ?_
  rintro task _ told hle ⟨rfl, hread, hid⟩
  replace hconsults := hconsults.mono hle
  refine (tells_context engine roles _ _).finish ?_
  rintro context _ told hle ⟨rfl, hcounted⟩
  refine tells_check.finish ?_
  rintro _ _ told - ⟨hmove, rfl, rfl⟩
  refine tells_check.finish ?_
  rintro previous _ told - ⟨hprevious, rfl, rfl⟩
  obtain ⟨hvalid, rfl⟩ := Task.snapshot_eq_ok.1 hprevious
  have hloaded : Loaded taskId previous told := ⟨hle.subset hread, hid, hvalid⟩
  -- the tags are written before the row changes
  refine (tells_stageTags (.replace hloaded)).finish ?_
  rintro tagEvent _ told' hle' ⟨minted, retag, hstage, rfl⟩
  refine tells_check.finish ?_
  rintro updated _ told' - ⟨hupdated, rfl, rfl⟩
  have hset : Tells (.replace taskId title description status priority tags roles)
      (fun _ tx' told'' => told'' = told' ∧ tx' = ⟨some .shared, issuedTags minted retag,
        some (previous, updated), addedTags taskId minted retag, []⟩) (perform (.setTask updated))
      (adding (holding (some .shared) ([] ++ issuedTags minted retag) (some previous))
        (addedTags taskId minted retag)) told' :=
    tells_call (by simp) (owed_works trivial rfl) fun _ _ _ => ⟨List.append_nil _, rfl⟩
  refine hset.finish ?_
  rintro _ _ told' - ⟨rfl, rfl⟩
  have htask : Replaced taskId title description status priority roles told' engine
      previous updated :=
    ⟨hloaded.mono hle', hconsults.mono (hle.trans hle'),
      ⟨context, hcounted.mono hle', hmove⟩, hupdated⟩
  -- events are saved with the row, and without any nothing is committed
  refine Finishes.map _ (finishes_persistUpdate (fun rows told'' hle'' hrows => ?_)
    fun told'' hle'' hnone hsame => ?_)
  · exact .replace (htask.mono hle'') (hstage.mono hle'') hrows
  · rw [hnone] at hstage
    exact .replace (htask.mono hle'') (hstage.mono hle'') hsame

/-- A patch that names a status takes the guard and reads the definition. -/
theorem tells_patchEngine {call : Call} (fields : PatchFields) :
    Tells call (fun engine tx' told' => tx' = holding (patchGuard fields) [] none
      ∧ (∀ e ∈ engine, Consults told' e) ∧ engine.isSome = fields.status.isSome)
      (patchEngine fields) .fresh [] := by
  unfold patchEngine patchGuard
  split
  next hnamed =>
    refine tells_guardedEngine.bind ?_
    rintro engine _ told - ⟨rfl, hconsults⟩
    refine tells_pure ⟨rfl, fun e he => ?_, hnamed.symm⟩
    rw [← Option.some.inj he]
    exact hconsults
  next hnot => exact tells_pure ⟨rfl, fun e he => (nomatch he), (Bool.not_eq_true _ ▸ hnot).symm⟩

/-- The move check of a patch. -/
theorem tells_checkPatch {call : Call} {lock : Option LockMode} {told : Told}
    (engine : Option Engine) (task : Task) (status : Option PyStr) (roles : List PyStr) :
    Tells call (fun _ tx' told' => tx' = holding lock [] (some task)
      ∧ ∀ e ∈ engine, ∀ target ∈ status, Moved e roles task.status target told')
      (checkPatch engine task status roles) (holding lock [] (some task)) told := by
  unfold checkPatch
  split
  next engine target =>
    refine (tells_context engine roles _ _).bind ?_
    rintro context _ told - ⟨rfl, hcounted⟩
    refine tells_check.mono ?_
    rintro _ _ _ - ⟨hmove, rfl, rfl⟩
    refine ⟨rfl, fun e he s hs => ?_⟩
    rw [← Option.some.inj he, ← Option.some.inj hs]
    exact ⟨context, hcounted, hmove⟩
  next hnot =>
    refine tells_pure ⟨rfl, fun e he target htarget => ?_⟩
    exact absurd htarget (hnot e target he)

/-- The task is patched and saved. -/
theorem finishes_patch (taskId : Uuid) (fields : PatchFields) (roles : List PyStr) :
    Finishes (.patch taskId fields roles) (patch taskId fields roles) .fresh [] := by
  unfold patch
  by_cases hempty : fields.isEmpty
  · rw [if_pos hempty]
    rfl
  rw [if_neg hempty]
  -- the definition is read only if the patch sets a status
  refine (tells_patchEngine fields).finish ?_
  rintro engine _ told - ⟨rfl, hconsults, hnamed⟩
  refine (tells_get taskId).finish ?_
  rintro task _ told hle ⟨rfl, hread, hid⟩
  replace hconsults := fun e he => (hconsults e he).mono hle
  refine (tells_checkPatch engine task fields.status roles).finish ?_
  rintro _ _ told hle ⟨rfl, hmoved⟩
  refine tells_check.finish ?_
  rintro previous _ told - ⟨hprevious, rfl, rfl⟩
  obtain ⟨hvalid, rfl⟩ := Task.snapshot_eq_ok.1 hprevious
  have hloaded : Loaded taskId previous told := ⟨hle.subset hread, hid, hvalid⟩
  -- the tags are written before the row changes
  refine (tells_stageTags (.patch hloaded)).finish ?_
  rintro tagEvent _ told' hle' ⟨minted, retag, hstage, rfl⟩
  refine tells_check.finish ?_
  rintro updated _ told' - ⟨hupdated, rfl, rfl⟩
  have hset : Tells (.patch taskId fields roles)
      (fun _ tx' told'' => told'' = told' ∧ tx' = ⟨patchGuard fields, issuedTags minted retag,
        some (previous, updated), addedTags taskId minted retag, []⟩) (perform (.setTask updated))
      (adding (holding (patchGuard fields) ([] ++ issuedTags minted retag) (some previous))
        (addedTags taskId minted retag)) told' :=
    tells_call (by simp) (owed_works trivial rfl) fun _ _ _ => ⟨List.append_nil _, rfl⟩
  refine hset.finish ?_
  rintro _ _ told' - ⟨rfl, rfl⟩
  have htask : Patched taskId fields roles told' engine previous updated :=
    { nonempty := by simpa using hempty
      loaded := hloaded.mono hle'
      consults := fun e he => (hconsults e he).mono (hle.trans hle')
      named := hnamed
      moved := fun e he target htarget => (hmoved e he target htarget).mono hle'
      applied := hupdated }
  -- events are saved with the row, and without any nothing is committed
  refine Finishes.map _ (finishes_persistUpdate (fun rows told'' hle'' hrows => ?_)
    fun told'' hle'' hnone hsame => ?_)
  · exact .patch (htask.mono hle'') (hstage.mono hle'') hrows
  · rw [hnone] at hstage
    exact .patch (htask.mono hle'') (hstage.mono hle'') hsame

/-- The task is deleted. -/
theorem finishes_delete (taskId : Uuid) :
    Finishes (.delete taskId) (Tasks.delete taskId) .fresh [] := by
  change Finishes _ _ (holding none [] none) []
  refine (tells_get taskId).finish ?_
  rintro task _ told - ⟨rfl, hread, hid⟩
  refine tells_check.finish ?_
  rintro snapshot _ told - ⟨hsnapshot, rfl, rfl⟩
  obtain ⟨hvalid, rfl⟩ := Task.snapshot_eq_ok.1 hsnapshot
  refine (tells_draws (newEvent_straight _)).finish ?_
  rintro event _ told hle ⟨hevent, rfl⟩
  have hdelete : Tells (.delete taskId) (fun _ tx' told' => told' = told
      ∧ tx' = ⟨none, [], some (snapshot, snapshot), [], [.deleteTask taskId]⟩)
      (perform (.deleteTask snapshot)) (holding none [] (some snapshot)) told :=
    tells_call (by simp) (owed_works trivial rfl) fun _ _ _ =>
      ⟨List.append_nil _, by rw [← hid]; rfl⟩
  refine hdelete.finish ?_
  rintro _ _ told - ⟨rfl, rfl⟩
  refine (tells_stageEvents [event]).finish ?_
  rintro _ _ told' hle' ⟨rows, rfl, hrows⟩
  refine finishes_commit (.delete ⟨hle'.subset (hle.subset hread), hid, hvalid⟩ ?_)
  rw [← hevent]
  exact hrows

/-- A task is read with its moves. -/
theorem finishes_legalMoves (taskId : Uuid) :
    Finishes (.legalMoves taskId) (legalMoves taskId) .fresh [] := by
  change Finishes _ _ (holding none [] none) []
  refine tells_activeEngine.finish ?_
  rintro engine _ told - ⟨rfl, -⟩
  refine (tells_get taskId).finish ?_
  rintro task _ told - ⟨rfl, -, -⟩
  refine tells_check.finish ?_
  rintro moves _ told - ⟨-, rfl, rfl⟩
  exact .inr ⟨rfl, .legalMoves taskId told⟩

end TaskCalls

section OtherCalls

/-- A tag without links is deleted. -/
theorem finishes_deleteTag (tagId : Uuid) :
    Finishes (.deleteTag tagId) (Tags.deleteTag tagId) .fresh [] := by
  have hread : Tells (.deleteTag tagId) (fun answer tx' told' => tx' = holding none [] none
      ∧ .tag tagId answer ∈ told' ∧ ∀ tag ∈ answer, tag.id = tagId) (perform (.getTag tagId)) .fresh
      [] := by
    refine tells_call (by simp) (owed_reads trivial rfl) fun st answer heq =>
      ⟨rfl, List.mem_append_right _ List.mem_cons_self, fun tag htag => ?_⟩
    -- the tag that is read has the id that was asked for
    have hquery : (query .fresh st fun db => db.tags.find? fun t => t.id = tagId).1 = .ok answer :=
      congrArg Prod.fst heq
    have hfound := query_eq_ok hquery
    rw [Option.mem_def.1 htag] at hfound
    simpa using List.find?_some hfound.symm
  refine hread.finish ?_
  rintro answer _ told - ⟨rfl, hread, hid⟩
  cases answer with
  -- no such tag: the call ends with nothing done
  | none => exact rfl
  | some tag =>
    refine (tells_reads (o := .countTaskTags tagId) trivial fun _ _ => rfl).finish ?_
    rintro inUse _ _ - ⟨rfl, rfl⟩
    dsimp only
    -- a tag in use is refused
    by_cases hused : inUse ≠ 0
    · rw [if_pos hused]
      rfl
    rw [if_neg hused]
    obtain rfl := not_not.1 hused
    refine (tells_draws (newEvent_straight _)).finish ?_
    rintro event _ told' hle ⟨hevent, rfl⟩
    have hdelete : Tells (.deleteTag tagId) (fun _ tx' told'' => told'' = told'
        ∧ tx' = ⟨none, [], none, [], [.deleteTag tagId]⟩)
        (perform (.deleteTag tag)) (holding none [] none) told' :=
      tells_call (by simp) (owed_works trivial rfl) fun _ _ _ =>
        ⟨List.append_nil _, by rw [← hid tag rfl]; rfl⟩
    refine hdelete.finish ?_
    rintro _ _ told' - ⟨rfl, rfl⟩
    refine (tells_stageEvents [event]).finish ?_
    rintro _ _ told'' hle' ⟨rows, rfl, hrows⟩
    have hle'' := hle.trans hle'
    refine finishes_commit (.deleteTag (hle''.subset (List.mem_append_left _ hread)) (hid tag rfl)
      (hle''.subset (List.mem_append_right _ List.mem_cons_self)) ?_)
    rw [← hid tag rfl, ← hevent]
    exact hrows

/-- The next version is inserted, with the events made for it. -/
theorem finishes_insertVersion {call : Call} {w : Workflow} {told : Told}
    {makeEvents : Nat → SessionProg (List Event)} {bodies : Nat → List EventBody}
    (hevents : ∀ version, Straight Op.Draw (Outcome (fun events => events.map Event.body
      = bodies version) fun _ => False) (makeEvents version))
    (hcommits : ∀ highest createdAt rows told', told <+: told' → .highest highest ∈ told' →
      Staged (bodies (highest.getD 0 + 1)) rows told' →
      Commits call ⟨some .exclusive, [], none,
        .workflow ⟨highest.getD 0 + 1, workflowToDocument w, createdAt⟩ :: rows.map .outbox, []⟩
        told') :
    Finishes call (Workflows.Repository.replaceActive w makeEvents)
      (holding (some .exclusive) [] none) told := by
  refine (tells_reads (o := .selectMaxVersion) trivial fun _ _ => rfl).finish ?_
  rintro highest _ _ - ⟨rfl, rfl⟩
  refine tells_now.finish ?_
  rintro createdAt _ _ - ⟨rfl, rfl⟩
  refine (tells_add (by simp)).finish ?_
  rintro _ _ _ - ⟨rfl, rfl⟩
  refine (tells_draws (hevents _)).finish ?_
  rintro events _ told' hle ⟨hbodies, rfl⟩
  refine (tells_stageEvents events).finish ?_
  rintro _ _ told'' hle' ⟨rows, rfl, hrows⟩
  have hle'' := hle.trans hle'
  refine (finishes_commit (hcommits highest createdAt rows told''
    ((List.prefix_append _ _).trans hle'') (hle''.subset ?_) (hbodies ▸ hrows))).map _
  exact List.mem_append_right _ List.mem_cons_self

/-- The active definition is replaced. -/
theorem finishes_replaceActive (document : {d : Json // d.Wf}) :
    Finishes (.replaceActive document) (Workflows.replaceActive document) .fresh [] := by
  refine tells_check.finish ?_
  rintro w _ _ - ⟨hparse, rfl, rfl⟩
  refine (tells_acquireWorkflowGuard false).finish ?_
  rintro _ _ _ - ⟨rfl, rfl⟩
  refine (tells_reads (o := .countByStatus) trivial fun _ _ => rfl).finish ?_
  rintro counts _ _ - ⟨rfl, rfl⟩
  dsimp only
  by_cases hstranded : (counts.filter fun kv => kv.1 ∉ w.stateNames) ≠ []
  · rw [if_pos hstranded]
    rfl
  rw [if_neg hstranded]
  have hevents : ∀ version, Straight Op.Draw (Outcome (fun events => events.map Event.body
      = [.workflowUpdated version w.stateNames]) fun _ => False)
      (newEvent (.workflowUpdated version w.stateNames) >>= fun event => Pure.pure [event]) := by
    intro version
    refine (newEvent_straight _).bind (fun event hevent => ?_) fun _ h => h.elim
    exact straight_pure (by rw [← hevent]; rfl)
  refine finishes_insertVersion hevents fun highest createdAt rows told' hle hhighest hrows => ?_
  · refine .replaceActive (Except.mapError_eq_ok.1 hparse)
      (hle.subset (List.mem_append_right _ List.mem_cons_self)) (fun kv hkv => ?_) hhighest hrows
    by_contra hnot
    exact List.filter_eq_nil_iff.1 (not_not.1 hstranded) kv hkv (by simpa using hnot)

/-- The default definition is seeded into an empty table. -/
theorem finishes_seed : Finishes .seed seedWorkflowIfMissing .fresh [] := by
  refine (tells_acquireWorkflowGuard false).finish ?_
  rintro _ _ _ - ⟨rfl, rfl⟩
  refine (tells_reads (o := .selectDefinitionId) trivial fun _ _ => rfl).finish ?_
  rintro stored _ _ - ⟨rfl, rfl⟩
  have hstored : .stored stored
      ∈ ([] : Told) ++ (answer? .selectDefinitionId (.ok stored)).toList :=
    List.mem_append_right _ List.mem_cons_self
  cases stored with
  | true => exact .inr ⟨rfl, .seed hstored⟩
  | false =>
    refine tells_check.finish ?_
    rintro w _ _ - ⟨hdefault, rfl, rfl⟩
    have hnone : ∀ version : Nat, Straight Op.Draw (Outcome (fun events => events.map Event.body
        = []) fun _ => False) (Pure.pure [] : SessionProg (List Event)) :=
      fun _ => straight_pure (by rfl)
    refine (finishes_insertVersion hnone
      fun highest createdAt rows told' hle hhighest hrows => ?_).map _
    obtain rfl := List.map_eq_nil_iff.1 hrows.bodies
    exact .seed (Except.mapError_eq_ok.1 hdefault) (hle.subset hstored) hhighest

end OtherCalls

/-- **Every call does what it owes.** -/
theorem call_conforms (call : Call) :
    Conforms (observe note exec) (Owed call) (Ended call) call.program (.fresh, .blank) := by
  cases call with
  | create title description status priority tags =>
    exact (finishes_create title description status priority tags).map _
  | replace taskId title description status priority tags roles =>
    exact (finishes_replace taskId title description status priority tags roles).map _
  | patch taskId fields roles => exact (finishes_patch taskId fields roles).map _
  | delete taskId => exact (finishes_delete taskId).map _
  | legalMoves taskId => exact (finishes_legalMoves taskId).map _
  | deleteTag tagId => exact (finishes_deleteTag tagId).map _
  | replaceActive document => exact (finishes_replaceActive document).map _
  | seed => exact finishes_seed.map _

end TaskService.Sessions
