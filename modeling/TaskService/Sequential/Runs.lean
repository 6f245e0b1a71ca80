import TaskService.Sessions.Vocabulary
import TaskService.Tasks.Fields

/-!
# One call after the other

The service with one client: a call is served in a session of its own, to its end, before the next
one starts; what the session leaves uncommitted is rolled back. Such a run is a schedule of the
running service, so all that is known of reachable worlds is known here; and since nothing else is
running, every answer a session was told is true of the tables its call started from.

* **`Reachable.committed`**: the tables between two calls are those of a reachable world.
* **`serve_cases`**: a call leaves the tables alone, or commits one transaction of `Commits`.
* **`put_patch_agree`**: a patch that names all five fields does what the replacement does.
-/

namespace TaskService.Sequential

open Store Tasks Tags Workflows Concurrency Sessions
open Interleaving (observe Conforms)

section Calls

variable [Unicode] [Jsonb] [Runtime]

/-- Serve one call, in a session of its own. -/
def serve (call : Call) (st : Server) : Except Exn Reply × Server :=
  let done := Prog.run exec call.program .fresh st
  (done.1, done.2.2)

/-- Calls are served one after the other, whatever they end with. -/
def step (st : Server) (call : Call) : Option Server := some (serve call st).2

/-- Serving some calls, starting with empty tables, leads here. -/
def Reachable (st : Server) : Prop := Machine.Reaches step ⟨.empty, 0⟩ st

/-! ## Calls as sessions of a world -/

/-- The notes of a call served alone. -/
def noted (call : Call) (st : Server) : Except Exn Reply × (Tx × Notes) × Server :=
  Prog.run (observe note exec) call.program (.fresh, .blank) st

/-- Notes change nothing. -/
theorem serve_eq_noted (call : Call) (st : Server) :
    serve call st = ((noted call st).1, (noted call st).2.2) := by
  obtain ⟨hresult, -, hserver⟩ :=
    Interleaving.run_observe note exec call.program (.fresh, .blank) st
  rw [noted, hresult, hserver]
  rfl

/-- What the sessions of some schedule have committed, and drawn. -/
def Committed (st : Server) : Prop := ∃ world : World, world.Reachable ∧ world.shared = st

/-- **A committed state is that of a world** in which no session is open. -/
theorem Committed.idle {st : Server} (h : Committed st) : NotedWorld.Reachable ⟨[], st⟩ := by
  obtain ⟨world, hreach, rfl⟩ := h
  obtain ⟨noted, hnoted, rfl⟩ := exists_noted hreach
  exact Machine.Reaches.trans hnoted (Interleaving.reaches_emptied noted)

/-- Serving a call leads to a committed state. -/
theorem Committed.serve {st : Server} (h : Committed st) (call : Call) :
    Committed (serve call st).2 := by
  refine ⟨⟨[], (Sequential.serve call st).2⟩, ?_, rfl⟩
  exact Machine.Reaches.trans h.idle.forget (@Interleaving.reaches_left _ _ _ _ _ _ _ rules call st)

/-- **Calls served one after the other lead to a committed state.** -/
theorem Reachable.committed {st : Server} (h : Reachable st) : Committed st := by
  induction h with
  | refl => exact ⟨World.initial, .refl, rfl⟩
  | @tail st st' call _ hstep ih =>
    obtain rfl := Option.some.inj hstep
    exact ih.serve call

/-! ## What one call does -/

/-- What a session was told when nothing else was running: it is true of the tables, and its ids are
new. -/
structure Truthful (st : Server) (told : Told) : Prop where
  holds : ∀ answer ∈ told, answer.Holds st.db
  nodup : told.ids.Nodup
  fresh : ∀ id ∈ told.ids, id ∉ mentions st.db

omit [Unicode] [Jsonb] [Runtime] in
theorem Truthful.lasts {st : Server} {told : Told} (h : Truthful st told) :
    ∀ answer ∈ told, answer.Lasts st.db := fun answer hanswer => (h.holds answer hanswer).lasts

/-- How far a call has come since the server was so. -/
structure Since (st : Server) (here : Tx × Notes) (now : Server) : Prop where
  holds : ∀ answer ∈ here.2.told, answer.Holds st.db
  drawn : ∀ id ∈ here.2.told.ids, ∃ n, st.drawn ≤ n ∧ id = Runtime.uuid7 n
  le : st.drawn ≤ now.drawn
  unsaved : here.2.saved = none → now.db = st.db ∧ Passes st.db here.1.log
  saved : ∀ tx, here.2.saved = some tx → now.db = view st.db (writes tx) ∧ Passes st.db (writes tx)

omit [Unicode] [Runtime] in
/-- Removing links is never refused. -/
theorem passes_deleteTaskTags {db : Db} {ws : List Write}
    (h : ∀ w ∈ ws, ∃ links, w = .deleteTaskTags links) :
    Passes db ws := by
  induction ws generalizing db with
  | nil => trivial
  | cons w ws ih =>
    obtain ⟨links, rfl⟩ := h w List.mem_cons_self
    exact ⟨rfl, ih fun w hw => h w (List.mem_cons_of_mem _ hw)⟩

/-- An operation that is owed goes on from there. -/
theorem Since.step {call : Call} {o : Op} {tx : Tx} {notes : Notes} {st now : Server}
    (h : Since st (tx, notes) now) (howed : Owed call o (tx, notes)) :
    Since st ((exec o tx now).2.1, note o tx (exec o tx now).1 notes) (exec o tx now).2.2 := by
  obtain ⟨hdb, hlog⟩ := h.unsaved howed.unsaved
  obtain ⟨new, htold, hnew⟩ := @Owed.told_cases _ _ _ call o tx notes now howed
  constructor
  · show ∀ answer ∈ (note o tx (exec o tx now).1 notes).told, _
    rw [htold]
    intro answer hanswer
    rcases List.mem_append.1 hanswer with hold | hanswer
    · exact h.holds answer hold
    · exact hdb ▸ (hnew answer (Option.mem_toList.1 hanswer)).1
  · intro id hid
    rcases howed.mem_ids hid with hold | rfl
    · exact h.drawn id hold
    · exact ⟨now.drawn, h.le, rfl⟩
  · have hle := drawn_le o tx now
    have := h.le
    show st.drawn ≤ (exec o tx now).2.2.drawn
    omega
  · intro hunsaved
    rcases @Owed.db_cases _ _ _ call o tx notes now howed with ⟨hsame, -⟩ | ⟨rfl, heq, -, -⟩
    · refine ⟨hsame.trans hdb, ?_⟩
      show Passes st.db (exec o tx now).2.1.log
      -- a step that does not commit adds to the log only what passed its check
      rcases exec_log o tx now with hlog' | hlog' | ⟨-, -, hpass, extra, hlog', hextra⟩
      · rw [hlog']
        trivial
      · rw [hlog']
        exact hlog
      · rw [hdb] at hpass
        rw [hlog', writes]
        exact passes_append.2 ⟨passes_append.2 ⟨hlog, hpass⟩, passes_deleteTaskTags hextra⟩
    · change (note .commit tx (exec .commit tx now).1 notes).saved = none at hunsaved
      rw [heq] at hunsaved
      cases hunsaved
  · intro tx' hsaved
    rcases @Owed.db_cases _ _ _ call o tx notes now howed with ⟨-, hunsaved⟩ | ⟨rfl, heq, -, hpass⟩
    · rw [hunsaved] at hsaved
      cases hsaved
    · change (note .commit tx (exec .commit tx now).1 notes).saved = some tx' at hsaved
      rw [heq] at hsaved ⊢
      obtain rfl := Option.some.inj hsaved
      rw [hdb] at hpass
      -- the commit applies all the writes, on the tables the call began with
      refine ⟨?_, passes_append.2 ⟨hlog, hpass⟩⟩
      show view now.db (writes tx) = _
      rw [hdb]

/-- How far a call has come, and that no id was drawn twice. -/
structure Telling (st : Server) (here : Tx × Notes) (now : Server) : Prop where
  since : Since st here now
  nodup : here.2.told.ids.Nodup
  below : ∀ id ∈ here.2.told.ids, ∃ n < now.drawn, id = Runtime.uuid7 n

/-- An operation that is owed goes on from there. -/
theorem Telling.step {call : Call} {o : Op} {tx : Tx} {notes : Notes} {st now : Server}
    (h : Telling st (tx, notes) now) (howed : Owed call o (tx, notes)) :
    Telling st ((exec o tx now).2.1, note o tx (exec o tx now).1 notes) (exec o tx now).2.2 := by
  have hle := drawn_le o tx now
  refine ⟨h.since.step howed, ?_, ?_⟩
  · show (note o tx (exec o tx now).1 notes).told.ids.Nodup
    rcases @Owed.ids_cases _ _ _ call o tx notes now howed with hsame | ⟨hdrawn, -⟩
    · rw [hsame]
      exact h.nodup
    · rw [hdrawn]
      refine h.nodup.append (List.nodup_singleton _) fun id hold hid => ?_
      obtain ⟨n, hn, rfl⟩ := h.below id hold
      have heq := Runtime.uuid7_injective (List.mem_singleton.1 hid)
      omega
  · show ∀ id ∈ (note o tx (exec o tx now).1 notes).told.ids, _
    intro id hid
    rcases @Owed.ids_cases _ _ _ call o tx notes now howed with hsame | ⟨hdrawn, hnext⟩
    · obtain ⟨n, hn, rfl⟩ := h.below id (hsame ▸ hid)
      exact ⟨n, lt_of_lt_of_le hn hle, rfl⟩
    · rw [hdrawn] at hid
      rcases List.mem_append.1 hid with hid | hid
      · obtain ⟨n, hn, rfl⟩ := h.below id hid
        exact ⟨n, lt_of_lt_of_le hn hle, rfl⟩
      · exact ⟨now.drawn, by omega, List.mem_singleton.1 hid⟩

/-- What the session was told is true, and its ids are new. -/
theorem Telling.truthful {st now : Server} {tx : Tx} {notes : Notes} (hst : Committed st)
    (h : Telling st (tx, notes) now) : Truthful st notes.told := by
  refine ⟨h.since.holds, h.nodup, fun id hid hmentioned => ?_⟩
  obtain ⟨n, hle, rfl⟩ := h.since.drawn id hid
  obtain ⟨m, hm, heq⟩ := (fresh_of_reachable hst.idle).stored _ hmentioned
  have := Runtime.uuid7_injective heq
  change m < st.drawn at hm
  omega

omit [Unicode] in
theorem telling_fresh (st : Server) : Telling st (.fresh, .blank) st :=
  ⟨⟨fun _ h => (nomatch h), fun _ h => (nomatch h), le_refl _, fun _ => ⟨rfl, trivial⟩,
    fun _ h => (nomatch h)⟩, .nil, fun _ h => (nomatch h)⟩

/-- What is known when a call has been served. -/
theorem telling_noted (call : Call) (st : Server) :
    Ended call (noted call st).1 (noted call st).2.1
      ∧ Telling st (noted call st).2.1 (noted call st).2.2 :=
  (call_conforms call).run (J := Telling st) (fun _ _ _ howed htelling => htelling.step howed)
    (telling_fresh st)

/-- **What one call does**: it commits one of its transactions, every statement of which passes, or
it leaves the tables alone: then it raised, or it had nothing to save. -/
inductive Serves (call : Call) (st : Server) : Except Exn Reply → Db → Prop where
  | saved {reply : Reply} {tx : Tx} {told : Told} (htold : Truthful st told)
      (hcommits : Commits call tx told) (hpass : Passes st.db (writes tx)) :
      Serves call st (.ok reply) (view st.db (writes tx))
  | rested {reply : Reply} {told : Told} (htold : Truthful st told) (hrests : Rests call told) :
      Serves call st (.ok reply) st.db
  | raised {e : Exn} : Serves call st (.error e) st.db

/-- **A call served alone.** -/
theorem serve_cases {st : Server} (h : Committed st) (call : Call) :
    Serves call st (serve call st).1 (serve call st).2.db := by
  obtain ⟨hended, htelling⟩ := telling_noted call st
  have hsince := htelling.since
  have htold := htelling.truthful h
  rw [serve_eq_noted]
  generalize noted call st = done at hended hsince htold ⊢
  obtain ⟨r, here, now⟩ := done
  dsimp only at hended hsince htold ⊢
  cases r with
  | error e =>
    rw [(hsince.unsaved hended).1]
    exact .raised
  | ok reply =>
    rcases hended with ⟨tx, hsaved, hcommits⟩ | ⟨hunsaved, hrests⟩
    · obtain ⟨hdb, hpass⟩ := hsince.saved tx hsaved
      rw [hdb]
      exact .saved htold hcommits hpass
    · rw [(hsince.unsaved hunsaved).1]
      exact .rested htold hrests

/-! ## PUT and PATCH -/

section Agreement

variable {title : PyStr} {description : Option PyStr} {status : PyStr} {priority : Int}
  {tags : List PyStr} {fields : List PatchItem}

/-- **PUT and PATCH agree.** From every committed state, with the five items of the dict in any
order, the two use cases end with the same outcome, the same tables and the same events. -/
theorem put_patch_agree (h : fields.Perm (allFields title description status priority tags))
    (taskId : Uuid) (roles : List PyStr) (st : Server) :
    Prog.run exec (patchItems taskId fields roles) .fresh st
      = Prog.run exec (replace taskId title description (some status) priority (some tags) roles)
        .fresh st :=
  congrArg (Prog.run exec · .fresh st) (patchItems_eq_replace h taskId roles)

end Agreement

end Calls

section Patch

open Plain

/-- A definition and a task, with a tag. -/
def standing : Server :=
  (serve (.create (py "A") none none 3 (some [py "ui"]))
    (serve (.replaceActive forkDocument) ⟨.empty, 0⟩).2).2

/-- The dict has the tags first. The task is renamed, moved and tagged anew. -/
theorem put_patch_agree_renamed :
    Prog.run exec (patchItems forkTask [.tags (some [py "bug"]), .status (py "b"), .title (py " B"),
        .priority 2, .description none] []) .fresh standing
      = Prog.run exec (replace forkTask (py " B") none (some (py "b")) 2 (some [py "bug"]) [])
        .fresh standing
    ∧ (standing.db.tasks.map fun t => (t.title, t.status)) = [(py "A", py "a")]
    ∧ ∃ reply here now, Prog.run exec (replace forkTask (py " B") none (some (py "b")) 2
        (some [py "bug"]) []) .fresh standing = (.ok reply, here, now)
      ∧ (now.db.tasks.map fun t => (t.title, t.status)) = [(py "B", py "b")]
      ∧ now.db.tagNames forkTask = [py "bug"]
      ∧ standing.db.outbox.length + 3 = now.db.outbox.length := by
  have hperm : List.Perm [PatchItem.tags (some [py "bug"]), .status (py "b"), .title (py " B"),
      .priority 2, .description none] (allFields (py " B") none (py "b") 2 [py "bug"]) := by
    decide
  have hagree := put_patch_agree hperm forkTask [] standing
  have hbefore : (standing.db.tasks.map fun t => (t.title, t.status)) = [(py "A", py "a")] := by
    decide +kernel
  have hdone : (Prog.run exec (replace forkTask (py " B") none (some (py "b")) 2
        (some [py "bug"]) []) .fresh standing).1.isOk = true
      ∧ ((Prog.run exec (replace forkTask (py " B") none (some (py "b")) 2
        (some [py "bug"]) []) .fresh standing).2.2.db.tasks.map fun t => (t.title, t.status))
          = [(py "B", py "b")]
      ∧ (Prog.run exec (replace forkTask (py " B") none (some (py "b")) 2
        (some [py "bug"]) []) .fresh standing).2.2.db.tagNames forkTask = [py "bug"]
      ∧ standing.db.outbox.length + 3 = (Prog.run exec (replace forkTask (py " B") none
        (some (py "b")) 2 (some [py "bug"]) []) .fresh standing).2.2.db.outbox.length := by
    decide +kernel
  generalize Prog.run exec (replace forkTask (py " B") none (some (py "b")) 2
    (some [py "bug"]) []) .fresh standing = done at hdone hagree ⊢
  obtain ⟨r, here, now⟩ := done
  obtain ⟨hok, hrows⟩ := hdone
  cases r with
  | ok reply => exact ⟨hagree, hbefore, reply, here, now, rfl, hrows⟩
  | error e => exact absurd hok Bool.false_ne_true

end Patch

end TaskService.Sequential
