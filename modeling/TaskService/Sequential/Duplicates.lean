import TaskService.Sequential.Checks
import TaskService.Sequential.Passing

/-!
# Titles that are taken

A title that another task has is found out by the statement that writes it: the INSERT or UPDATE of
the task, flushed after everything else of its transaction has passed. For a call whose checks pass,
what can go wrong before is a text its column cannot hold.

* **`answers_of_owed`**: in a call served alone, the flushes answer by whether the title is taken.
* **`duplicate_refused_iff`**: when a title that is taken is refused as such, and only then.
-/

namespace TaskService.Sequential

open Store Tasks Tags Workflows Concurrency Sessions
open Interleaving (observe Answered Conforms)

section Definitions

variable [Unicode]

/-- Another stored task has the key of the title the call submits. -/
def Clashes (db : Db) (call : Call) : Prop :=
  ∃ title, titleOf call = some title ∧ ∃ row ∈ db.tasks, some row.id ≠ taskOf call
    ∧ row.titleKey = Task.normalizeTitle title

/-- What a call writes before the title fits: its description has no half of a surrogate pair, and
an update can make a tag of every new name. -/
structure Writable (db : Db) (call : Call) : Prop where
  description : ∀ d ∈ descriptionOf call, Encodable d
  names : (taskOf call).isSome → Keyable ((suppliedTags call).getD []) db

/-- The call is to be refused for its title. -/
def Taken (db : Db) (call : Call) : Prop := Clashes db call ∧ Writable db call

end Definitions

/-! ## The last statement -/

section Verdicts

variable [Jsonb] {taken : Prop} {db : Db}

/-- The statement is refused for a title if the title is taken, and only then. -/
def Decides (taken : Prop) (db : Db) (w : Write) : Prop :=
  (w.check db = none → ¬ taken)
    ∧ ∀ e, w.check db = some e → (e = .integrity Write.titleKeyConstraint ↔ taken)

omit [Jsonb] in
theorem decides_insertTask {t : Task} (htaken : taken ↔ TitleTaken db (.insertTask t))
    (hfits : taken → TaskFits t) (hid : ∀ row ∈ db.tasks, row.id ≠ t.id) :
    Decides taken db (.insertTask t) := by
  refine ⟨fun hnone htrue => ?_, fun e he => ⟨fun heq => ?_, fun htrue => ?_⟩⟩
  · obtain ⟨row, hrow, hkey⟩ := htaken.1 htrue
    exact (check_insertTask_eq_none.1 hnone).2.2 row hrow hkey
  · exact htaken.2 (titleTaken_of_check (heq ▸ he))
  · exact check_insertTask_eq_some he (hfits htrue) hid

omit [Jsonb] in
theorem decides_updateTask {loaded current : Task}
    (htaken : taken ↔ TitleTaken db (.updateTask loaded current)) (hfits : taken → TaskFits current)
    (hthere : ∃ row ∈ db.tasks, row.id = loaded.id) :
    Decides taken db (.updateTask loaded current) := by
  refine ⟨fun hnone htrue => ?_, fun e he => ⟨fun heq => ?_, fun htrue => ?_⟩⟩
  · obtain ⟨hchanged, row, hrow, hid, hkey⟩ := htaken.1 htrue
    exact (check_updateTask_eq_none.1 hnone).2.2 hchanged row hrow hid hkey
  · exact htaken.2 (titleTaken_of_check (heq ▸ he))
  · exact check_updateTask_eq_some he (hfits htrue) hthere

/-- How a flush of these statements ends. -/
structure Flushes (db : Db) (ws : List Write) (r : Except Exn Unit) : Prop where
  ok : ∀ a, r = .ok a → Passes db ws
  error : ∀ e, r = .error e → ∃ d, e = .db d ∧ Refused db ws d

/-- **A flush answers as its last statement does**, if those before spare the tasks and pass. -/
theorem Flushes.verdict {ws last : List Write} {r : Except Exn Unit} (h : Flushes db (ws ++ last) r)
    (hspares : ∀ w ∈ ws, w.sparesTasks = true) (hpass : taken → Passes db ws)
    (hlast : Passes db ws →
      last = [] ∧ ¬ taken ∨ ∃ w, last = [w] ∧ Decides taken (view db ws) w) : Verdict taken r := by
  cases r with
  | ok a =>
    obtain ⟨hws, hrest⟩ := passes_append.1 (h.ok a rfl)
    rcases hlast hws with ⟨-, hfree⟩ | ⟨w, rfl, hdecides⟩
    · exact hfree
    · exact hdecides.1 hrest.1
  | error e =>
    obtain ⟨d, rfl, hrefused⟩ := h.error e rfl
    refine ⟨d, rfl, ?_⟩
    rcases hrefused.append_cases with hfirst | ⟨hws, hrest⟩
    · -- a statement on another table was refused
      constructor
      · exact fun heq => absurd heq (hfirst.ne_titleKey hspares)
      · exact fun htrue => absurd hfirst (not_refused_of_passes (hpass htrue))
    · rcases hlast hws with ⟨rfl, -⟩ | ⟨w, rfl, hdecides⟩
      · exact absurd hrest not_refused_nil
      · exact hdecides.2 d (refused_singleton.1 hrest)

/-- Once the title is in, the rest is not refused for it. -/
theorem Flushes.free {w : Write} {ws : List Write} {r : Except Exn Unit}
    (h : Flushes db (w :: ws) r)
    (hcheck : w.check db = none) (hspares : ∀ w ∈ ws, w.sparesTasks = true) (hfree : ¬ taken) :
    Verdict taken r := by
  cases r with
  | ok a => exact hfree
  | error e =>
    obtain ⟨d, rfl, hrefused⟩ := h.error e rfl
    refine ⟨d, rfl, fun heq => ?_, fun htaken => absurd htaken hfree⟩
    rcases (show Refused db ([w] ++ ws) d from hrefused).append_cases with hfirst | ⟨-, hrest⟩
    · exact nomatch hcheck.symm.trans (refused_singleton.1 hfirst)
    · exact absurd heq (hrest.ne_titleKey hspares)

theorem flushes_of_exec {ws : List Write} {r : Except Exn Unit}
    (h : (∃ a, r = .ok a ∧ Passes db ws) ∨ ∃ d, r = .error (.db d) ∧ Refused db ws d) :
    Flushes db ws r := by
  rcases h with ⟨a, rfl, hpass⟩ | ⟨d, rfl, hrefused⟩
  · exact ⟨fun _ _ => hpass, fun e he => (nomatch he)⟩
  · exact ⟨fun a ha => (nomatch ha), fun e he => ⟨d, (Except.error.inj he).symm, hrefused⟩⟩

variable [Runtime]

/-- Operations that issue what is pending. -/
theorem flushes_exec {o : Op} {tx : Tx} {st : Server} (hsilent : ¬ o.Silent)
    (hlog : Passes st.db tx.log) :
    (∃ a, (exec o tx st).1 = .ok a ∧ Passes st.db (writes tx))
      ∨ ∃ d, (exec o tx st).1 = .error (.db d) ∧ Refused st.db (writes tx) d := by
  rcases exec_cases o tx st with ⟨d, -, hflush, heq⟩ | ⟨hflush, a, heq⟩
  · exact .inr ⟨d, by rw [heq], refused_of_flush hflush hlog⟩
  · have hpass := (flush_eq_ok.1 (hflush.resolve_left hsilent)).1
    exact .inl ⟨a, by rw [heq], passes_append.2 ⟨hlog, hpass⟩⟩

theorem flushes_commit {tx : Tx} {st : Server} (hlog : Passes st.db tx.log) :
    Flushes st.db (writes tx) (exec .commit tx st).1 :=
  flushes_of_exec (flushes_exec (o := .commit) id hlog)

theorem flushes_flush {tx : Tx} {st : Server} (hlog : Passes st.db tx.log) :
    Flushes st.db (writes tx) (exec .flush tx st).1 :=
  flushes_of_exec (flushes_exec (o := .flush) id hlog)

end Verdicts

/-! ## Changes that would be refused -/

section Taken

variable [Unicode] [Jsonb] [Runtime] {st : Server}

/-- A committed state in which every task has the key of its title. -/
structure WellKeyed (st : Server) : Prop where
  committed : Committed st
  keyed : ∀ t ∈ st.db.tasks, t.Keyed

theorem WellKeyed.rows (h : WellKeyed st) : Rows st.db := h.committed.rows h.keyed

/-- A title that has the key of a stored one fits. -/
structure TitleFits (title : PyStr) : Prop where
  nonempty : Task.normalizeTitle title ≠ []
  length_pos : 0 < (strip title).length
  fits : Fits titleMaxLength (strip title)
  keyFits : Fits titleMaxLength (Task.normalizeTitle title)

theorem titleFits_of_stored (hfold : FoldsCleanly) (h : WellKeyed st) {title : PyStr}
    (htitle : NonBlankTitle title) {row : Task} (hrow : row ∈ st.db.tasks)
    (hkey : row.titleKey = Task.normalizeTitle title) : TitleFits title := by
  have hne : Task.normalizeTitle title ≠ [] :=
    hkey ▸ (inBounds_of_reachable h.committed.idle row hrow).titleKey
  have hfits : Fits titleMaxLength (Task.normalizeTitle title) :=
    hkey ▸ (h.committed.stored.tasks row hrow).2.1
  have hnul : (0 : CodePoint) ∉ strip title := fun hmem => htitle.2.1 (mem_of_mem_strip hmem)
  have hencodable : Encodable (strip title) := (encodable_casefold_iff hfold).1 hfits.2.2
  exact ⟨hne, length_strip_pos fun hblank => hne (Task.normalizeTitle_eq_nil_iff.2 hblank),
    ⟨(strip_length_le title).trans htitle.1.2, hnul, hencodable⟩, hfits⟩

omit [Jsonb] [Runtime] in
/-- A new row under such a title can be copied and stored. -/
theorem TitleFits.saves {title : PyStr} (h : TitleFits title) {t : Task}
    (htitle : t.title = strip title) (hkey : t.titleKey = Task.normalizeTitle title)
    (hfields : FieldsFit t.description t.status t.priority) : Saves t := by
  refine saves_of_fits ?_ ?_ ?_ hfields
  · rw [htitle]
    exact h.length_pos
  · rw [htitle]
    exact h.fits
  · rw [hkey]
    exact h.keyFits

omit [Jsonb] [Runtime] in
/-- The description that a call submits fits. -/
theorem fits_description {db : Db} {call : Call} (haccepted : Accepted call)
    (h : Writable db call) :
    ∀ d ∈ descriptionOf call, Fits descriptionMaxLength d := by
  intro d hd
  obtain ⟨hlength, hnul⟩ := haccepted.description d hd
  exact ⟨hlength, hnul, h.description d hd⟩

/-- A row that another call could create under the title. -/
theorem saves_created (hfold : FoldsCleanly) (h : WellKeyed st) {title : PyStr}
    {description status : Option PyStr} {priority : Int} {tags : Option (List PyStr)}
    (haccepted : Accepted (.create title description status priority tags))
    (htaken : Taken st.db (.create title description status priority tags)) {resolved : PyStr}
    (hresolved : Storable resolved) (id : Uuid) (createdAt : Time) :
    Saves ⟨id, strip title, Task.normalizeTitle title, description, resolved, priority,
    createdAt⟩ := by
  obtain ⟨⟨title', htitle', row, hrow, -, hkey⟩, hwritable⟩ := htaken
  obtain rfl := Option.some.inj htitle'
  have htitle := titleFits_of_stored hfold h (haccepted.title _ rfl) hrow hkey
  exact htitle.saves rfl rfl
    ⟨fits_description haccepted hwritable, hresolved, haccepted.priority _ rfl⟩

section Updates

variable {previous updated : Task}

/-- What is known of a change under a title that another task has. -/
structure Rivals (db : Db) (previous updated : Task) : Prop where
  saves : Saves updated
  changed : updated.changedFields previous ≠ []
  taken : TitleTaken db (.updateTask previous updated)

/-- A title that another task has is not the one the task had. -/
theorem rivals_of_row (h : WellKeyed st) (hthere : previous ∈ st.db.tasks) (hsaves : Saves updated)
    (hkeyed : updated.Keyed) {row : Task} (hrow : row ∈ st.db.tasks) (hid : row.id ≠ previous.id)
    (hkey : row.titleKey = updated.titleKey) : Rivals st.db previous updated := by
  have hrows := h.rows
  have hmoved : previous.titleKey ≠ updated.titleKey := fun hsame =>
    hid (congrArg Task.id (List.inj_on_of_nodup_map hrows.keys hrow hthere (hkey.trans hsame.symm)))
  refine ⟨hsaves, fun hnone => hmoved ?_, hmoved, row, hrow, hid, hkey⟩
  have htitle := (Task.changedFields_eq_nil_iff.1 hnone).1
  rw [hrows.keyed previous hthere, hkeyed, htitle]

/-- A replacement. -/
theorem rivals_replaced (hfold : FoldsCleanly) (h : WellKeyed st) {taskId : Uuid} {title : PyStr}
    {description status : Option PyStr} {priority : Int} {tags : Option (List PyStr)}
    {roles : List PyStr}
    (haccepted : Accepted (.replace taskId title description status priority tags roles))
    (htaken : Taken st.db (.replace taskId title description status priority tags roles))
    (hthere : previous ∈ st.db.tasks) (hid : previous.id = taskId) {target : PyStr}
    (htarget : Storable target)
    (happlied : previous.applyReplace title description target priority = .ok updated) :
    Rivals st.db previous updated := by
  obtain ⟨⟨title', htitle', row, hrow, hother, hkey⟩, hwritable⟩ := htaken
  obtain rfl := Option.some.inj htitle'
  have htitle := titleFits_of_stored hfold h (haccepted.title _ rfl) hrow hkey
  obtain ⟨-, rfl⟩ := Task.applyReplace_eq_ok.1 happlied
  refine rivals_of_row h hthere
    (htitle.saves rfl rfl ⟨fits_description haccepted hwritable, htarget,
    haccepted.priority _ rfl⟩) (Task.normalizeTitle_strip _).symm hrow (fun hsame => ?_) hkey
  exact hother (congrArg some (hsame.trans hid))

/-- A patch that names a title. -/
theorem rivals_patched (hfold : FoldsCleanly) (h : WellKeyed st) {taskId : Uuid}
    {fields : PatchFields} {roles : List PyStr} (haccepted : Accepted (.patch taskId fields roles))
    (htaken : Taken st.db (.patch taskId fields roles)) (hthere : previous ∈ st.db.tasks)
    (hid : previous.id = taskId) (hstatus : ∀ target ∈ fields.status, Storable target)
    (happlied : previous.applyPatch fields = .ok updated) :
    Rivals st.db previous updated := by
  obtain ⟨⟨title, htitle, row, hrow, hother, hkey⟩, hwritable⟩ := htaken
  have htitle : fields.title = some title := htitle
  have hfits := titleFits_of_stored hfold h (haccepted.title _ htitle) hrow hkey
  obtain ⟨-, -, rfl⟩ := Task.applyPatch_eq_ok.1 happlied
  obtain ⟨-, -, hdescription, hstored, -⟩ := h.committed.stored.tasks previous hthere
  have hvalid := h.rows.valid previous hthere
  rw [htitle]
  -- the row that has the title is another one
  refine rivals_of_row h hthere (hfits.saves rfl rfl ⟨?_, ?_, ?_⟩)
    (Task.normalizeTitle_strip _).symm
    hrow (fun hsame => hother (congrArg some (hsame.trans hid))) hkey
  · -- the fields the patch does not name are as they were stored
    show ∀ d ∈ fields.description.getD previous.description, Fits descriptionMaxLength d
    cases hfield : fields.description with
    | none => exact hdescription
    | some d =>
      intro s hs
      refine fits_description haccepted hwritable s ?_
      show s ∈ fields.description.join
      rw [hfield]
      exact hs
  · show Storable (fields.status.getD previous.status)
    cases hfield : fields.status with
    | none => exact hstored
    | some target => exact hstatus target hfield
  · show priorityMin ≤ fields.priority.getD previous.priority ∧ _
    cases hfield : fields.priority with
    | none => exact hvalid.2.2.2.1
    | some n => exact haccepted.priority n hfield

end Updates

section Told

variable {told : Told} {call : Call} {taskId : Uuid} {asked : Option (List PyStr)}
  {engine : Option Engine} {previous updated : Task} {minted : List Tag} {retag : Option Retag}
  {event : Option EventBody}

/-- A change that is to be refused for its title has a rival. -/
theorem rivals_of_taken (hfold : FoldsCleanly) (h : WellKeyed st) (htold : Truthful st told)
    (haccepted : Accepted call) (htask : Changes told call taskId asked engine previous updated)
    (htaken : Taken st.db call) : Rivals st.db previous updated := by
  have hthere := there_of_loaded htold.holds htask.loaded
  have hids := htask.ids
  cases htask with
  | @replace _ _ _ _ _ _ _ engine _ _ htask =>
    have hactive := htold.active htask.consults
    obtain ⟨context, -, hmove⟩ := htask.moved
    have htarget := storable_of_known h.committed hactive (engine.checkMove_legal hmove).1
    exact rivals_replaced hfold h haccepted htaken hthere hids.1 htarget htask.applied
  | @patch _ fields _ engine _ _ htask =>
    refine rivals_patched hfold h haccepted htaken hthere hids.1 (fun target htarget => ?_)
      htask.applied
    have hsome : engine.isSome := by rw [htask.named, htarget]; rfl
    obtain ⟨e, rfl⟩ := Option.isSome_iff_exists.1 hsome
    have hactive := htold.active (htask.consults e rfl)
    obtain ⟨context, -, hmove⟩ := htask.moved e rfl target htarget
    exact storable_of_known h.committed hactive (e.checkMove_legal hmove).1

omit [Jsonb] [Runtime] in
/-- A change of the title's key is to that of the title the call submits. -/
theorem titleOf_changes (htask : Changes told call taskId asked engine previous updated)
    (hmoved : previous.titleKey ≠ updated.titleKey) :
    ∃ title, titleOf call = some title ∧ updated.titleKey = Task.normalizeTitle title := by
  cases htask with
  | @replace _ title _ _ _ _ _ _ _ _ htask =>
    obtain ⟨-, rfl⟩ := Task.applyReplace_eq_ok.1 htask.applied
    exact ⟨title, rfl, rfl⟩
  | @patch _ fields _ _ _ _ htask =>
    obtain ⟨-, -, rfl⟩ := Task.applyPatch_eq_ok.1 htask.applied
    cases htitle : fields.title with
    | none =>
      rw [htitle] at hmoved
      exact absurd rfl hmoved
    | some title => exact ⟨title, htitle, rfl⟩

omit [Jsonb] [Runtime] in
/-- A change that takes another row's title submits it. -/
theorem clashes_of_update {db : Db} (htask : Changes told call taskId asked engine previous updated)
    (htaken : TitleTaken db (.updateTask previous updated)) : Clashes db call := by
  obtain ⟨hmoved, row, hrow, hid, hkey⟩ := htaken
  obtain ⟨title, htitle, hsubmitted⟩ := titleOf_changes htask hmoved
  refine ⟨title, htitle, row, hrow, fun hsame => hid ?_, hkey.trans hsubmitted⟩
  have hnamed : taskOf call = some taskId := by cases htask <;> rfl
  rw [htask.ids.1]
  exact Option.some.inj (hsame.trans hnamed)

omit [Jsonb] [Runtime] in
/-- So does a new task. -/
theorem clashes_of_insert {db : Db} {title : PyStr} {description status : Option PyStr}
    {priority : Int} {tags : Option (List PyStr)} {task : Task}
    (htask : Admits title description status priority told task)
    (htaken : TitleTaken db (.insertTask task)) :
    Clashes db (.create title description status priority tags) := by
  obtain ⟨row, hrow, hkey⟩ := htaken
  rw [(Task.fromInput_eq_ok.1 htask.made).2] at hkey
  exact ⟨title, rfl, row, hrow, nofun, hkey⟩

/-- **The title of a change is taken when another row has it**, once the new tags are stored. -/
theorem taken_iff (hfold : FoldsCleanly) (h : WellKeyed st) (htold : Truthful st told)
    (haccepted : Accepted call) (htask : Changes told call taskId asked engine previous updated)
    (hstage : TagStage taskId told asked minted retag event) (hfits : ∀ t ∈ minted, TagFits t)
    (hvalid : updated.changedFields previous ≠ [] → updated.Valid) :
    Taken st.db call ↔ TitleTaken st.db (.updateTask previous updated) := by
  refine ⟨fun htaken => (rivals_of_taken hfold h htold haccepted htask htaken).taken,
    fun htaken => ?_⟩
  have hkeyed := h.keyed previous (there_of_loaded htold.holds htask.loaded)
  -- a title that clashes is a field that changes, so the row was checked
  have hchanged : updated.changedFields previous ≠ [] := fun hnone =>
    htaken.1 (by rw [eq_of_unchanged htask hkeyed hnone])
  have hencodable := (hvalid hchanged).2.2.2.2.2.2
  have hsupplied : (suppliedTags call).getD [] = asked.getD [] := by cases htask <;> rfl
  have hnames : Keyable ((suppliedTags call).getD []) st.db := by
    rw [hsupplied]
    rcases hstage.resolved with ⟨rfl, -, -⟩ | ⟨names, rows, rfl, hresolved⟩
    · exact ⟨fun _ hname => (nomatch hname), fun _ hname => (nomatch hname)⟩
    · exact keyable_of_fits hfold hresolved (hresolved.rows_eq htold.holds) hfits
  refine ⟨clashes_of_update htask htaken, fun d hd => hencodable d ?_, fun _ => hnames⟩
  cases htask with
  | replace htask =>
    obtain ⟨-, rfl⟩ := Task.applyReplace_eq_ok.1 htask.applied
    exact hd
  | @patch _ fields _ _ _ _ htask =>
    obtain ⟨-, -, rfl⟩ := Task.applyPatch_eq_ok.1 htask.applied
    change d ∈ fields.description.join at hd
    show d ∈ fields.description.getD previous.description
    -- a description the patch does not name is not asked about
    cases hfield : fields.description with
    | none =>
      rw [hfield] at hd
      cases hd
    | some description =>
      rw [hfield] at hd
      exact hd

omit [Jsonb] [Runtime] in
/-- The title of a new task is taken when a row has it. -/
theorem taken_create_iff {title : PyStr} {description status : Option PyStr} {priority : Int}
    {tags : Option (List PyStr)} {task : Task}
    (htask : Admits title description status priority told task) :
    Taken st.db (.create title description status priority tags)
      ↔ TitleTaken st.db (.insertTask task) := by
  have hmade := (Task.fromInput_eq_ok.1 htask.made).2
  have hkey : task.titleKey = Task.normalizeTitle title := by rw [hmade]
  have hdescription : task.description = description := by rw [hmade]
  constructor
  · rintro ⟨⟨title', htitle', row, hrow, -, hrowKey⟩, -⟩
    obtain rfl := Option.some.inj htitle'
    exact ⟨row, hrow, hrowKey.trans hkey.symm⟩
  · intro htaken
    refine ⟨clashes_of_insert htask htaken, fun d hd => ?_, nofun⟩
    refine htask.valid.2.2.2.2.2.2 d ?_
    rw [hdescription]
    exact hd

/-- And the row fits. -/
theorem fits_of_taken_create (hfold : FoldsCleanly) (h : WellKeyed st) (htold : Truthful st told)
    {title : PyStr} {description status : Option PyStr} {priority : Int}
    {tags : Option (List PyStr)}
    {task : Task} (haccepted : Accepted (.create title description status priority tags))
    (htask : Admits title description status priority told task)
    (htaken : Taken st.db (.create title description status priority tags)) : TaskFits task := by
  obtain ⟨engine, context, hconsults, -, hentry⟩ := htask.entered
  have hactive := htold.active hconsults
  have hresolved := storable_of_known h.committed hactive (engine.resolveEntry_mem hentry)
  rw [(Task.fromInput_eq_ok.1 htask.made).2]
  exact (saves_created hfold h haccepted htaken hresolved task.id task.createdAt).2

end Told

end Taken

/-! ## What the operations answer -/

section Answers

variable [Unicode] [Jsonb] [Runtime] {call : Call} {o : Op} {tx : Tx} {notes : Notes}
  {st now : Server}

omit [Unicode] [Jsonb] [Runtime] in
/-- The statements before that on the task are on other tables. -/
theorem sparesTasks_stagedWrites {taskId : Uuid} {minted : List Tag} {retag : Option Retag}
    {rows : List (OutboxRecord Event)} :
    ∀ w ∈ stagedWrites taskId minted retag rows, w.sparesTasks = true := by
  intro w hw
  rcases List.mem_append.1 hw with hw | hw
  · exact sparesTasks_issuedTags w hw
  · simp only [List.mem_append, List.mem_map] at hw
    rcases hw with (⟨r, -, rfl⟩ | ⟨t, -, rfl⟩) | ⟨l, -, rfl⟩ <;> rfl

omit [Unicode] [Jsonb] [Runtime] in
/-- The statements of a change: those on other tables, then that on the task. -/
theorem writes_saving {lock : Option LockMode} {log : List Write} {held : Option (Task × Task)}
    {taskId : Uuid} {minted : List Tag} {retag : Option Retag} {rows : List (OutboxRecord Event)} :
    writes ⟨lock, log ++ issuedTags minted retag, held,
        addedTags taskId minted retag ++ rows.map .outbox, []⟩
      = log ++ (stagedWrites taskId minted retag rows
        ++ dirty ⟨lock, log ++ issuedTags minted retag,
          held, addedTags taskId minted retag ++ rows.map .outbox, []⟩) := by
  rw [writes, pending_saving, stagedWrites]
  simp only [List.append_assoc]

omit [Unicode] [Jsonb] [Runtime] in
/-- A task that is as it was loaded needs no UPDATE. -/
theorem dirty_of_same {lock : Option LockMode} {log deleted : List Write} {task : Task}
    {added : List NewRow} : dirty ⟨lock, log, some (task, task), added, deleted⟩ = [] := if_pos rfl

omit [Jsonb] [Runtime] in
/-- The names of an update are accepted, and a tag can be made of the new ones. -/
theorem names_of_writable {db : Db} (haccepted : Accepted call) (hwritable : Writable db call)
    (hsome : (taskOf call).isSome) : AcceptedNames ((suppliedTags call).getD [])
      ∧ Keyable ((suppliedTags call).getD []) db := by
  refine ⟨?_, hwritable.names hsome⟩
  cases htags : suppliedTags call with
  | none => exact ⟨Nat.zero_le _, fun _ hname => (nomatch hname)⟩
  | some names => exact haccepted.names names htags

omit [Jsonb] [Runtime] in
/-- The names a change stages tags for are those of the request. -/
theorem asked_of_changes {told : Told} {taskId : Uuid} {asked : Option (List PyStr)}
    {engine : Option Engine} {previous updated : Task}
    (htask : Changes told call taskId asked engine previous updated) :
    (taskOf call).isSome ∧ ∀ names ∈ asked, names = (suppliedTags call).getD [] := by
  cases htask with
  | @replace _ _ _ _ _ tags => exact ⟨rfl, fun names hnames => (Option.some.inj hnames).symm⟩
  | @patch _ fields =>
    refine ⟨rfl, fun names hnames => ?_⟩
    show names = fields.tags.join.getD []
    rw [hnames]
    rfl

omit [Unicode] [Runtime] in
/-- The new tags are among the statements. -/
theorem fits_of_passes_staged {db : Db} {taskId : Uuid} {minted : List Tag} {retag : Option Retag}
    {rows : List (OutboxRecord Event)} (h : Passes db (stagedWrites taskId minted retag rows)) :
    ∀ t ∈ minted, TagFits t := by
  intro t ht
  have hmem : .insertTag t ∈ stagedWrites taskId minted retag rows := by
    cases retag with
    | none => simp [stagedWrites, issuedTags, unissuedTags, ht]
    | some change => simp [stagedWrites, issuedTags, ht]
  obtain ⟨before, after, -, hcheck⟩ := h.check hmem
  exact (check_insertTag_eq_none.1 hcheck).1

/-- **The commit of a change is refused for its title if it is taken.** -/
theorem verdict_changed (hfold : FoldsCleanly) (h : WellKeyed st) (haccepted : Accepted call)
    (hdb : now.db = st.db) {told : Told} (htold : Truthful st told) {lock : Option LockMode}
    {taskId : Uuid} {asked : Option (List PyStr)} {engine : Option Engine} {previous updated : Task}
    {minted : List Tag} {retag : Option Retag} {event : Option EventBody}
    {rows : List (OutboxRecord Event)} (hlog : Passes st.db (issuedTags minted retag))
    (htask : Changes told call taskId asked engine previous updated)
    (hstage : TagStage taskId told asked minted retag event)
    (hrows : Narrates engine previous updated event rows told) :
    Verdict (Taken st.db call)
    (exec .commit ⟨lock, issuedTags minted retag, some (previous, updated),
      addedTags taskId minted retag ++ rows.map .outbox, []⟩ now).1 := by
  have hthere := there_of_loaded htold.holds htask.loaded
  have htaskId : taskId ∈ st.db.tasks.map Task.id := by
    rw [← htask.ids.1]
    exact List.mem_map_of_mem hthere
  have hstored := h.committed.stored
  have hconsistent := h.committed.consistent
  have hflushes := @flushes_commit _ _ ⟨lock, issuedTags minted retag, some (previous, updated),
    addedTags taskId minted retag ++ rows.map .outbox, []⟩ now (hdb ▸ hlog)
  have hwrites := @writes_saving lock [] (some (previous, updated)) taskId minted retag rows
  rw [List.nil_append, List.nil_append] at hwrites
  rw [hwrites, hdb] at hflushes
  refine hflushes.verdict sparesTasks_stagedWrites (fun htaken => ?_) fun hpass => ?_
  · -- under a title that is taken every other statement passes
    obtain ⟨completes, hstaged, -⟩ := hrows.staged
    have hrivals := rivals_of_taken hfold h htold haccepted htask htaken
    obtain ⟨hsome, hsupplied⟩ := asked_of_changes htask
    have hasked : ∀ names ∈ asked, AcceptedNames names ∧ Keyable names st.db := by
      intro names hnames
      rw [hsupplied names hnames]
      exact names_of_writable haccepted htaken.2 hsome
    have hfits : ∀ t ∈ minted, TagFits t := by
      intro t ht
      rcases hstage.resolved with ⟨-, rfl, -⟩ | ⟨names, found, rfl, hresolved⟩
      · cases ht
      · obtain ⟨hnames, hkeyable⟩ := hasked names rfl
        exact fits_of_resolved hfold hnames hkeyable hresolved ht
          (hresolved.unstored (hresolved.rows_eq htold.holds) ht)
    refine passes_staged hconsistent htold hstage hfits hstaged (fun body hbody => ?_) htaskId
    rcases List.mem_append.1 hbody with hbody | hbody
    · exact storable_updateBodies hrivals.saves.2 (hstored.tasks previous hthere) body hbody
    · exact storable_tagEvent hfold hstored (htold.storable_names hstored taskId) hasked hstage
        body (Option.mem_toList.1 hbody)
  · have hiff := taken_iff hfold h htold haccepted htask hstage (fits_of_passes_staged hpass)
      hrows.valid
    have htasks : (view st.db (stagedWrites taskId minted retag rows)).tasks = st.db.tasks :=
      tasks_view sparesTasks_stagedWrites st.db
    unfold dirty
    -- the UPDATE is only issued when the row changed
    by_cases hsame : previous = updated
    · refine .inl ⟨if_pos hsame, fun htaken => (hiff.1 htaken).1 (congrArg _ hsame)⟩
    · refine .inr ⟨_, if_neg hsame, decides_updateTask ?_ (fun htaken => ?_) ?_⟩
      · rw [hiff, TitleTaken, TitleTaken, htasks]
      · exact (rivals_of_taken hfold h htold haccepted htask htaken).saves.2
      · rw [htasks]
        exact ⟨previous, hthere, rfl⟩

/-- **So does the statement that inserts a task.** -/
theorem verdict_inserted (hfold : FoldsCleanly) (h : WellKeyed st) {told : Told}
    (htold : Truthful st told) {title : PyStr} {description status : Option PyStr} {priority : Int}
    {tags : Option (List PyStr)} {task : Task}
    (haccepted : Accepted (.create title description status priority tags))
    (htask : Admits title description status priority told task) {ws : List Write}
    {r : Except Exn Unit} (hflushes : Flushes st.db (ws ++ [.insertTask task]) r)
    (hspares : ∀ w ∈ ws, w.sparesTasks = true)
    (hpass : TaskFits task → Passes st.db ws) :
    Verdict (Taken st.db (.create title description status priority tags)) r := by
  have hfits := fits_of_taken_create hfold h htold haccepted htask
  have htasks := tasks_view hspares st.db
  refine hflushes.verdict hspares (fun htaken => hpass (hfits htaken)) fun _ => ?_
  refine .inr ⟨_, rfl, decides_insertTask ?_ hfits ?_⟩
  · rw [taken_create_iff htask, TitleTaken, TitleTaken, htasks]
  · rw [htasks]
    intro row hrow hid
    refine htold.fresh task.id htask.drawn (mem_mentions.2 (.inl ?_))
    exact hid ▸ List.mem_map_of_mem hrow

/-- **What a call has to say at its commit.** -/
theorem verdict_commit (hfold : FoldsCleanly) (h : WellKeyed st) (haccepted : Accepted call)
    (hchecked : Checked st.db call) (hdb : now.db = st.db) {told : Told} (htold : Truthful st told)
    (hlog : Passes st.db tx.log) (hcommits : Commits call tx told) :
    Verdict (Taken st.db call) (exec .commit tx now).1 := by
  cases hcommits with
  | @create _ _ _ _ _ task rows _ _ htask hrows =>
    have hflushes :=
      @flushes_commit _ _ ⟨some .shared, [], none, .task task :: rows.map .outbox, []⟩
      now (hdb ▸ hlog)
    rw [writes, pending_create, List.nil_append, hdb] at hflushes
    -- without tags the commit issues the insert of the row itself
    refine verdict_inserted hfold h htold haccepted htask hflushes (fun w hw => ?_) fun hfits => ?_
    · obtain ⟨r, -, rfl⟩ := List.mem_map.1 hw
      rfl
    · refine passes_rows htold hrows (fun body hbody => ?_) rfl
      obtain rfl := List.mem_singleton.1 hbody
      exact storable_texts hfits
  | @createTagged _ _ _ _ _ _ task minted retag event rows _ htask hstage hrows =>
    have hflushes := @flushes_commit _ _ ⟨some .shared, .insertTask task :: issuedTags minted retag,
      some (task, task), addedTags task.id minted retag ++ rows.map .outbox, []⟩ now (hdb ▸ hlog)
    have hwrites := @writes_saving (some .shared) [.insertTask task] (some (task, task))
      task.id minted
      retag rows
    rw [dirty_of_same, List.append_nil] at hwrites
    change Flushes now.db (writes ⟨some .shared, [.insertTask task] ++ issuedTags minted retag,
      some (task, task), addedTags task.id minted retag ++ rows.map .outbox, []⟩) _ at hflushes
    rw [hwrites, hdb] at hflushes
    -- the row was flushed before its links, so the commit has nothing left to refuse
    have hcheck : (Write.insertTask task).check st.db = none := hlog.1
    refine hflushes.free hcheck sparesTasks_stagedWrites fun htaken => ?_
    obtain ⟨row, hrow, hkey⟩ := (taken_create_iff htask).1 htaken
    exact (check_insertTask_eq_none.1 hcheck).2.2 row hrow hkey
  | @replace _ _ _ _ _ _ _ _ _ _ _ _ _ _ _ htask hstage hrows =>
    exact verdict_changed hfold h haccepted hdb htold hlog (.replace htask) hstage hrows
  | @patch _ _ _ _ _ _ _ _ _ _ _ htask hstage hrows =>
    exact verdict_changed hfold h haccepted hdb htold hlog (.patch htask) hstage hrows
  | _ => cases hchecked

/-- Before the commit, statements are refused only when the title is free. -/
theorem free_of_unlink_error (hfold : FoldsCleanly) (h : WellKeyed st) (haccepted : Accepted call)
    (hdb : now.db = st.db) {told : Told} (htold : Truthful st told) (hlog : Passes st.db tx.log)
    {taskId : Uuid} (hprepares : Prepares told call (.deleteTaskTags taskId) tx) {e : Exn}
    (he : (exec (.deleteTaskTags taskId) tx now).1 = .error e) :
    ¬ Taken st.db call ∧ ∃ d, e = .db d := by
  obtain ⟨d, rfl, hrefused⟩ := exec_refused he (hdb ▸ hlog)
  rw [hdb] at hrefused
  refine ⟨fun htaken => ?_, d, rfl⟩
  cases hprepares with
  | @unlink _ _ names rows minted tx hstages hresolved =>
    rw [writes, hstages.pending_minted] at hrefused
    -- the new tags of an update pass under a title that is taken
    have hpass : (taskOf call).isSome → names = (suppliedTags call).getD [] →
        Passes st.db (minted.map .insertTag) := by
      rintro hsome rfl
      obtain ⟨hnames, hkeyable⟩ := names_of_writable haccepted htaken.2 hsome
      refine passes_minted h.committed.consistent htold hresolved (fun t ht => ?_) rfl
      exact fits_of_resolved hfold hnames hkeyable hresolved ht
          (hresolved.unstored (hresolved.rows_eq htold.holds) ht)
    generalize hasked : some names = asked at hstages
    cases hstages with
    | new htask =>
      -- the task is in, so its title was free
      obtain ⟨row, hrow, hkey⟩ := (taken_create_iff htask).1 htaken
      exact (check_insertTask_eq_none.1 hlog.1).2.2 row hrow hkey
    | replace => exact not_refused_of_passes (hpass rfl (Option.some.inj hasked)) hrefused
    | @patch _ fields =>
      refine not_refused_of_passes (hpass rfl ?_) hrefused
      show names = fields.tags.join.getD []
      rw [← hasked]
      rfl

/-- **In a call served alone the operations answer by whether the title is taken.** -/
theorem answers_of_owed (hfold : FoldsCleanly) (h : WellKeyed st) (haccepted : Accepted call)
    (hchecked : Checked st.db call) (htelling : Telling st (tx, notes) now)
    (howed : Owed call o (tx, notes)) : Answers st.db (Taken st.db call) o (exec o tx now).1 := by
  obtain ⟨hdb, hlog⟩ := htelling.since.unsaved howed.unsaved
  have htold := htelling.truthful h.committed
  have hidle : writes tx = [] → pending tx = [] := fun hnone => (List.append_eq_nil_iff.1 hnone).2
  -- what reads only has nothing to flush; the other operations answer by their owed stage
  cases o with
  | uuid7 | now | acquireGuard mode | add row | setTask t | deleteTask t | deleteTag t | rollback =>
    exact exec_eq_ok_of_pending now (.inl trivial)
  | selectMaxVersion | selectDefinitionId | getTag id | countTaskTags tagId =>
    exact exec_eq_ok_of_pending now (.inr (hidle (howed.reads trivial)))
  | selectActive | countByStatus | getTask taskId =>
    obtain ⟨a, ha⟩ := exec_eq_ok_of_pending now (.inr (hidle (howed.reads trivial)))
    have hholds := holds_of_answer howed ha rfl
    rw [hdb] at hholds
    exact ha.trans (congrArg _ hholds)
  | selectTagNames taskId =>
    cases howed.prepares trivial with
    | names hstages => exact exec_eq_ok_of_pending now (.inr hstages.pending)
  | selectTags keys =>
    cases howed.prepares trivial with
    | rows hstages => exact exec_eq_ok_of_pending now (.inr hstages.pending)
  | deleteTaskTags taskId =>
    exact fun e he => free_of_unlink_error hfold h haccepted hdb htold hlog
      (howed.prepares trivial) he
  | flush =>
    have hflushes := @flushes_flush _ _ tx now (hdb ▸ hlog)
    rw [hdb] at hflushes
    cases howed.prepares trivial with
    | stage htask =>
      exact @verdict_inserted _ _ _ st hfold h _ htold _ _ _ _ _ _ haccepted htask [] _ hflushes
        (fun _ hw => (nomatch hw)) fun _ => trivial
  | commit => exact verdict_commit hfold h haccepted hchecked hdb htold hlog (howed.commit rfl)

end Answers

/-! ## What a call ends with -/

section Calls

variable [Unicode] [Jsonb] [Runtime] {call : Call} {st : Server}

omit [Unicode] [Jsonb] [Runtime] in
/-- An error passes on through what follows. -/
theorem Tallies.raised {α β : Type} {taken : Prop} {echoed echoed' : PyStr → Prop} {e : Exn}
    (h : Tallies taken echoed (.error e : Except Exn α))
    (hechoed : ∀ title, echoed title → echoed' title) :
    Tallies taken echoed' (.error e : Except Exn β) := by
  rcases h with ⟨htaken, title, htitle, he⟩ | hother
  · exact .inl ⟨htaken, title, hechoed title htitle, he⟩
  · exact .inr hother

/-- **A call whose checks pass ends as its flushes say.** -/
theorem answered_program (hfold : FoldsCleanly) (h : WellKeyed st) (haccepted : Accepted call)
    (hchecked : Checked st.db call) :
    Answered (Answers st.db (Taken st.db call))
      (Tallies (Taken st.db call) fun title => titleOf call = some title) call.program := by
  have hrows := h.rows
  -- a title that is taken is not empty
  have htitled : Taken st.db call → ∀ title ∈ titleOf call, Task.normalizeTitle title ≠ [] := by
    rintro ⟨⟨title', htitle', row, hrow, -, hkey⟩, -⟩ title htitle
    obtain rfl := Option.some.inj (htitle'.symm.trans htitle)
    exact (titleFits_of_stored hfold h (haccepted.title _ htitle) hrow hkey).nonempty
  have hnonblank : Taken st.db call → (taskOf call).isSome →
      ∀ name ∈ (suppliedTags call).getD [], ¬ Blank name := fun htaken hsome =>
    (names_of_writable haccepted htaken.2 hsome).2.1
  cases hchecked with
  | create hactive hentry =>
    refine Answered.bind (answered_create hactive hentry (fun htaken => htitled htaken _ rfl)
      fun htaken id createdAt => ?_) (fun _ hfree => hfree) fun e he =>
        he.raised fun title htitle => congrArg some htitle.symm
    have hresolved := storable_of_known h.committed hactive (Engine.resolveEntry_mem _ hentry)
    exact (Task.snapshot_eq_ok.1
      (saves_created hfold h haccepted htaken hresolved id createdAt).1).1
  | @replace taskId _ _ _ _ _ _ _ task hactive hthere hmove =>
    have hmem : task ∈ st.db.tasks := List.mem_of_find?_eq_some hthere
    have hid : task.id = taskId := by simpa using List.find?_some hthere
    refine Answered.bind (answered_replace hactive hthere (hrows.valid task hmem) hmove
      (fun htaken => hnonblank htaken rfl) (fun htaken => htitled htaken _ rfl)
      fun htaken updated happlied => ?_) (fun _ hfree => hfree) fun e he =>
        he.raised fun title htitle => congrArg some htitle.symm
    have htarget := storable_of_known h.committed hactive (Engine.checkMove_legal _ hmove).1
    have hrivals := rivals_replaced hfold h haccepted htaken hmem hid htarget happlied
    exact ⟨(Task.snapshot_eq_ok.1 hrivals.saves.1).1, hrivals.changed⟩
  | @patch taskId fields roles task hthere hmove =>
    have hmem : task ∈ st.db.tasks := List.mem_of_find?_eq_some hthere
    have hid : task.id = taskId := by simpa using List.find?_some hthere
    refine Answered.bind (answered_patch (fun htaken => ?_) hthere (hrows.valid task hmem) hmove
      (fun htaken asked hasked => ?_) haccepted.extras
      (fun htaken title htitle => htitled htaken title htitle)
      fun htaken updated happlied => ?_) (fun _ hfree => hfree)
      fun e he => he.raised fun title htitle => htitle
    · obtain ⟨⟨title, htitle, -⟩, -⟩ := htaken
      exact Option.isSome_iff_exists.2 ⟨title, htitle⟩
    · have hnames := hnonblank htaken rfl
      change ∀ name ∈ fields.tags.join.getD [], ¬ Blank name at hnames
      rw [hasked] at hnames
      exact hnames
    · have hstatus : ∀ target ∈ fields.status, Storable target := by
        intro target htarget
        obtain ⟨w, hactive, hok⟩ := hmove target htarget
        exact storable_of_known h.committed hactive (Engine.checkMove_legal _ hok).1
      have hrivals := rivals_patched hfold h haccepted htaken hmem hid hstatus happlied
      exact ⟨(Task.snapshot_eq_ok.1 hrivals.saves.1).1, hrivals.changed⟩

/-- **A call served alone.** -/
theorem tallies_serve (hfold : FoldsCleanly) (h : WellKeyed st) (haccepted : Accepted call)
    (hchecked : Checked st.db call) :
    Tallies (Taken st.db call) (fun title => titleOf call = some title) (serve call st).1 := by
  rw [serve_eq_noted]
  refine (call_conforms call).answered (J := Telling st)
    (answered_program hfold h haccepted hchecked)
    (fun o here now howed htelling => ?_) (telling_fresh st)
  exact ⟨answers_of_owed hfold h haccepted hchecked htelling howed, htelling.step howed⟩

omit [Unicode] [Jsonb] [Runtime] in
theorem Tallies.refused {α : Type} {taken : Prop} {echoed : PyStr → Prop} {r : Except Exn α}
    (h : Tallies taken echoed r) (htaken : taken) :
    ∃ title, echoed title ∧ r = .error (.app (.duplicateTask title)) := by
  cases r with
  | ok a => exact absurd htaken h
  | error e =>
    rcases h with ⟨-, title, htitle, rfl⟩ | ⟨hfree, -⟩
    · exact ⟨title, htitle, rfl⟩
    · exact absurd htaken hfree

omit [Unicode] [Jsonb] [Runtime] in
theorem Tallies.spared {α : Type} {taken : Prop} {echoed : PyStr → Prop} {r : Except Exn α}
    (h : Tallies taken echoed r) (hfree : ¬ taken) (title : PyStr) :
    r ≠ .error (.app (.duplicateTask title)) := by
  rintro rfl
  rcases h with ⟨htaken, -⟩ | ⟨-, hother⟩
  · exact hfree htaken
  · exact hother title rfl

/-- A title that another task has is refused with the caller's spelling of it and without a trace,
and no other title is refused as one that is taken. -/
structure RefusesRightly (st : Server) (call : Call) : Prop where
  refused : Clashes st.db call → ∃ title, titleOf call = some title
    ∧ (serve call st).1 = .error (.app (.duplicateTask title)) ∧ (serve call st).2.db = st.db
  spared : ¬ Clashes st.db call → ∀ title, (serve call st).1 ≠ .error (.app (.duplicateTask title))

/-- No two titles have one key, and each task has the key of its own. -/
structure DistinctTitles (db : Db) : Prop where
  nodup : (db.tasks.map fun t => Task.normalizeTitle t.title).Nodup
  keyed : ∀ t ∈ db.tasks, t.titleKey = Task.normalizeTitle t.title

theorem WellKeyed.distinctTitles (h : WellKeyed st) : DistinctTitles st.db := by
  have hrows := h.rows
  refine ⟨?_, hrows.keyed⟩
  have hsame : (st.db.tasks.map fun t => Task.normalizeTitle t.title) = titleKeys st.db :=
    List.map_congr_left fun t ht => (hrows.keyed t ht).symm
  rw [hsame]
  exact hrows.keys

/-- **In a committed state whose tasks have the keys of their titles, a title that is taken is
refused as such if the call can be written up to the title**, and only then: what its column cannot
hold is refused before. A task under the key of another title can be given its own without a change
of any field, and then nothing is written. -/
theorem duplicate_refused_iff (hfold : FoldsCleanly) (h : Committed st) (haccepted : Accepted call)
    (hchecked : Checked st.db call) :
    (RefusesRightly st call ∧ DistinctTitles st.db)
      ↔ (∀ t ∈ st.db.tasks, t.Keyed) ∧ (Clashes st.db call → Writable st.db call) := by
  constructor
  · rintro ⟨hright, hdistinct⟩
    refine ⟨hdistinct.keyed, fun hclash => ?_⟩
    have htallies := tallies_serve hfold ⟨h, hdistinct.keyed⟩ haccepted hchecked
    by_contra hnot
    obtain ⟨title, -, herror, -⟩ := hright.refused hclash
    exact htallies.spared (fun htaken => hnot htaken.2) title herror
  · rintro ⟨hkeyed, hwritable⟩
    have hwellKeyed : WellKeyed st := ⟨h, hkeyed⟩
    have htallies := tallies_serve hfold hwellKeyed haccepted hchecked
    refine ⟨⟨fun hclash => ?_, fun hfree title => ?_⟩, hwellKeyed.distinctTitles⟩
    · obtain ⟨title, htitle, herror⟩ := htallies.refused ⟨hclash, hwritable hclash⟩
      have hserves := serve_cases h call
      rw [herror] at hserves
      generalize (serve call st).2.db = db' at hserves ⊢
      cases hserves with
      | raised => exact ⟨title, htitle, herror, rfl⟩
    · exact htallies.spared (fun htaken => hfree htaken.1) title

end Calls

/-! ## Two tasks -/

section Rename

open Plain Sharp

/-- The server with a definition and two tasks, `A` and `B`. -/
def titled : Server :=
  let created := (serve (.create (py "A") none none 3 none) (serve (.replaceActive forkDocument)
    ⟨.empty, 0⟩).2).2
  (serve (.create (py "B") none none 3 none) created).2

theorem reachable_titled : Reachable titled :=
  .tail (.create (py "B") none none 3 none) (.tail (.create (py "A") none none 3 none)
    (.tail (.replaceActive forkDocument) .refl rfl) rfl) rfl

/-- The first task can be replaced. -/
theorem checked_titled (title : PyStr) (description : Option PyStr) (priority : Int)
    (tags : Option (List PyStr)) :
    Checked titled.db (.replace forkTask title description none priority tags []) := by
  have hmoves : (titled.db.tasks.find? fun t => t.id = forkTask).any (fun task =>
      (activeWorkflow titled.db).any fun w =>
        decide (Engine.checkMove ⟨w⟩ task.status w.defaultEntry
        (contextOf titled.db ⟨w⟩ [] (some task.status) (some w.defaultEntry)) = .ok ()))
          = true := by
    decide +kernel
  obtain ⟨task, hthere, hmoves⟩ := (Option.any_eq_true _ _).1 hmoves
  obtain ⟨w, hactive, hmove⟩ := (Option.any_eq_true _ _).1 hmoves
  exact .replace hactive hthere (of_decide_eq_true hmove)

/-- The first task is to have the title of the second, and these tags. -/
def renamed (tags : List PyStr) : Call := .replace forkTask (py " b") none none 3 (some tags) []

theorem clashes_renamed (tags : List PyStr) : Clashes titled.db (renamed tags) := by
  have hother : (titled.db.tasks.any fun row =>
      decide (row.id ≠ forkTask ∧ row.titleKey = Task.normalizeTitle (py " b"))) = true := by
    decide +kernel
  obtain ⟨row, hrow, hclash⟩ := List.any_eq_true.1 hother
  obtain ⟨hid, hkey⟩ := of_decide_eq_true hclash
  exact ⟨py " b", rfl, row, hrow, fun hsame => hid (Option.some.inj hsame), hkey⟩

theorem accepted_renamed {tags : List PyStr} (h : AcceptedNames tags) :
    Accepted (renamed tags) where
  title title htitle := by
    obtain rfl := Option.some.inj htitle
    exact ⟨by decide, by decide, 0x62, by decide, by decide⟩
  description _ hd := nomatch hd
  priority n hn := by
    obtain rfl := Option.some.inj hn
    decide
  names names hnames := by
    obtain rfl := Option.some.inj hnames
    exact h
  extras := rfl

theorem duplicate_refused_renamed : Clashes titled.db (renamed [py "Urgent"])
    ∧ RefusesRightly titled (renamed [py "Urgent"]) ∧ DistinctTitles titled.db := by
  have hkeyed := (rows_of_reachable reachable_titled).keyed
  refine ⟨clashes_renamed _, (duplicate_refused_iff foldsCleanly reachable_titled.committed
    (accepted_renamed (by decide)) (checked_titled ..)).2 ⟨hkeyed, fun _ =>
      ⟨fun _ hd => (nomatch hd), fun _ => ?_⟩⟩⟩
  refine ⟨by decide, fun name hname _ => ?_⟩
  obtain rfl := List.mem_singleton.1 hname
  decide

/-- A patch of the first task's title. -/
def retitling (title : PyStr) : Call :=
  .patch forkTask ⟨some title, none, none, none, none, []⟩ []

theorem accepted_retitling : Accepted (retitling (py "a")) where
  title title htitle := by
    obtain rfl := Option.some.inj htitle
    exact ⟨by decide, by decide, 0x61, by decide, by decide⟩
  description _ hd := nomatch hd
  priority _ hn := nomatch hn
  names _ hnames := nomatch hnames
  extras := rfl

/-- Two patches load the task `A`. The one to `B` commits, then the one to `a`: it leaves the key
out, which is that of `A`. Then another task is to have the title `A`, whose key is free. -/
def crossingRun : List (Interleaving.Action Call) :=
  .start (.replaceActive forkDocument) :: steps 0 10
    ++ .start (.create (py "A") none none 3 none) :: steps 1 10
    ++ .start (retitling (py "a")) :: steps 2 3
    ++ .start (retitling (py "B")) :: steps 3 8 ++ steps 2 5
    ++ .start (.create (py "A") none none 3 none) :: steps 4 10

/-- The first task can be given the title `a`, which it has, while another task has its key. -/
def SharesTitle (st : Server) : Prop :=
  (∃ task, st.db.tasks.find? (fun t => t.id = forkTask) = some task)
    ∧ (∃ row ∈ st.db.tasks, some row.id ≠ some forkTask
        ∧ row.titleKey = Task.normalizeTitle (py "a"))
    ∧ (serve (retitling (py "a")) st).1.isOk = true
    ∧ ¬ (st.db.tasks.map fun t => Task.normalizeTitle t.title).Nodup

theorem exists_sharesTitle : ∃ st, Committed st ∧ SharesTitle st := by
  have hrun : ((Machine.runActions (Interleaving.step rules) World.initial crossingRun).map
      fun world : World => (world.shared.db.tasks.find? fun t => t.id = forkTask).isSome
        && (world.shared.db.tasks.any fun row => decide (some row.id ≠ some forkTask
          ∧ row.titleKey = Task.normalizeTitle (py "a")))
        && (serve (retitling (py "a")) world.shared).1.isOk
        && !decide (world.shared.db.tasks.map fun t => Task.normalizeTitle t.title).Nodup)
      = some true := by
    decide +kernel
  obtain ⟨world, hworld, hends⟩ := Option.map_eq_some_iff.1 hrun
  simp only [Bool.and_eq_true, Bool.not_eq_true', decide_eq_false_iff_not] at hends
  obtain ⟨⟨⟨hthere, hclash⟩, hok⟩, hshared⟩ := hends
  obtain ⟨row, hrow, hkey⟩ := List.any_eq_true.1 hclash
  exact ⟨world.shared, ⟨world, Machine.reaches_of_runActions hworld, rfl⟩,
    Option.isSome_iff_exists.1 hthere, ⟨row, hrow, of_decide_eq_true hkey⟩, hok, hshared⟩

/-- **A title that is taken, beside a tag whose key its column does not take**: what is raised is
the database's own error. And a title that is taken and is the task's own, under another key:
nothing is raised, and the two titles stay. -/
theorem duplicate_unanswered : (Reachable titled ∧ Accepted (renamed [List.replicate 50 eszett])
    ∧ Checked titled.db (renamed [List.replicate 50 eszett])
    ∧ Clashes titled.db (renamed [List.replicate 50 eszett])
    ∧ ¬ Blank (List.replicate 50 eszett)
    ∧ (serve (renamed [List.replicate 50 eszett]) titled).1 = .error (.db .data))
    ∧ ∃ st, Committed st ∧ Accepted (retitling (py "a")) ∧ Checked st.db (retitling (py "a"))
      ∧ Clashes st.db (retitling (py "a")) ∧ Writable st.db (retitling (py "a"))
      ∧ (serve (retitling (py "a")) st).1.isOk = true
      ∧ ¬ (st.db.tasks.map fun t => Task.normalizeTitle t.title).Nodup := by
  refine ⟨⟨reachable_titled, accepted_renamed (by decide), checked_titled .., clashes_renamed _,
    by decide, ?_⟩, ?_⟩
  · have hraised : (match (serve (renamed [List.replicate 50 eszett]) titled).1 with
        | .ok _ => none
        | .error e => some e) = some (.db .data) := by decide +kernel
    generalize (serve (renamed [List.replicate 50 eszett]) titled).1 = r at hraised ⊢
    cases r with
    | ok reply => cases hraised
    | error e => exact congrArg _ (Option.some.inj hraised)
  · obtain ⟨st, hst, ⟨task, hthere⟩, ⟨row, hrow, hother, hkey⟩, hok, hshared⟩ := exists_sharesTitle
    have hnone : ∀ name ∈ (suppliedTags (retitling (py "a"))).getD [], False :=
      fun _ hname => nomatch hname
    exact ⟨st, hst, accepted_retitling, .patch hthere fun _ htarget => (nomatch htarget),
      ⟨py "a", rfl, row, hrow, hother, hkey⟩, ⟨fun _ hd => (nomatch hd), fun _ =>
        ⟨fun name hname => (hnone name hname).elim, fun name hname => (hnone name hname).elim⟩⟩,
      hok, hshared⟩

end Rename

end TaskService.Sequential
