import TaskService.Sequential.Serving
import TaskService.Tagging.Failures

/-!
# Tagged writes that go through

A request that could be met at the start can still be met while other sessions write other tasks
under other titles: the definition it reads is that of the start, the rows it is told of fit their
columns, and nobody takes its title. What is left to refuse it is the key of a new tag.

* **`Informed.fitting`**: what its session has pending fits.
* **`Lasting.granted`**: its operations succeed.
-/

namespace TaskService.Tagging

open Store Tasks Tags Workflows Concurrency Sessions TaskService.Sequential

/-- The definition a session was told of is that of the start, and the rows fit. -/
structure Informed (st : Server) (told : Told) : Prop where
  definition : ∀ found, .definition found ∈ told → found = st.db.active
  task : ∀ taskId t, .task taskId (some t) ∈ told → TaskFits t
  names : ∀ taskId names, .tagNames taskId names ∈ told → ∀ s ∈ names, Storable s

/-- What a session is told whose checks pass: the definition and the task of the start, and counts
that its checks pass with. -/
def Expected [Unicode] (st : Server) (call : Call) : Answer → Prop
  | .definition found => found = st.db.active
  | .task taskId found =>
    taskOf call = some taskId → found = st.db.tasks.find? fun row => row.id = taskId
  | .counts counts => CheckedWith counts st.db call
  | _ => True

/-- The tables have the definition of the start, and the task of the call is as it was. -/
structure Unmoved (st : Server) (call : Call) (db : Db) : Prop where
  active : db.active = st.db.active
  found : ∀ taskId, taskOf call = some taskId →
    db.tasks.find? (fun row => row.id = taskId) = st.db.tasks.find? fun row => row.id = taskId

section Answers

variable {st : Server} {call : Call} {db : Db} {told : Told}

/-- What the tables say is known. -/
theorem Informed.tell (h : Informed st told) (hstored : Stored db)
    (hactive : db.active = st.db.active) {new : List Answer}
    (hnew : ∀ answer ∈ new, answer.Holds db) : Informed st (told ++ new) where
  definition found hfound := by
    rcases List.mem_append.1 hfound with hold | hmem
    · exact h.definition found hold
    · exact Eq.trans (hnew _ hmem) hactive
  task taskId t ht := by
    rcases List.mem_append.1 ht with hold | hmem
    · exact h.task taskId t hold
    · have hfound : some t = db.tasks.find? fun row => row.id = taskId := hnew _ hmem
      exact hstored.tasks t (List.mem_of_find?_eq_some hfound.symm)
  names taskId names hnames := by
    rcases List.mem_append.1 hnames with hold | hmem
    · exact h.names taskId names hold
    · have hshown : names = db.tagNames taskId := hnew _ hmem
      exact hshown ▸ storable_tagNames hstored taskId

variable [Unicode]

theorem tells_expected : Tells (Expected st call) st.db call :=
  ⟨fun _ hfound => hfound, fun _ _ hnamed hfound => hfound hnamed, fun _ hcounts => hcounts⟩

/-- Checks ask for the definition and the task. -/
theorem Unmoved.checked {counts : Dict PyStr Nat} (h : Unmoved st call db)
    (hchecked : CheckedWith counts db call) : CheckedWith counts st.db call := by
  have hactive : activeWorkflow db = activeWorkflow st.db := by
    rw [activeWorkflow, activeWorkflow, h.active]
  cases hchecked with
  | create hdefined hentry => exact .create (hactive ▸ hdefined) hentry
  | replace hdefined hthere hmove =>
    exact .replace (hactive ▸ hdefined) ((h.found _ rfl).symm.trans hthere) hmove
  | patch hthere hmove =>
    exact .patch ((h.found _ rfl).symm.trans hthere) (hactive ▸ hmove)

/-- The session counts the tasks next. -/
def counting {α : Type} : SessionProg α → Bool
  | .op .countByStatus _ => true
  | _ => false

/-- **What such tables say is expected**, if the checks pass on them when the tasks are counted. -/
theorem Unmoved.expected {α : Type} (h : Unmoved st call db) {o : Op} {r : Except Exn (Res o)}
    {k : Except Exn (Res o) → SessionProg α} (hcounts : counting (.op o k) = true → Checked db call)
    {answer : Answer} (hanswer : answer ∈ answer? o r) (hholds : answer.Holds db) :
    Expected st call answer := by
  cases answer with
  | definition found => exact Eq.trans hholds h.active
  | task taskId found => exact fun hnamed => Eq.trans hholds (h.found taskId hnamed)
  | counts counts =>
    have hcounted : counting (.op o k) = true := by
      cases o with
      | countByStatus => rfl
      | _ => cases r <;> simp [answer?] at hanswer
    obtain rfl : counts = db.countByStatus := hholds
    exact h.checked (hcounts hcounted)
  | _ => trivial

end Answers

section Pending

variable {told : Told} {lock : Option LockMode} {log : List Write} {held : Option (Task × Task)}
  {taskId : Uuid} {minted : List Tag} {retag : Option Retag} {bodies : List EventBody}
  {rows : List (OutboxRecord Event)}

/-- Events whose texts fit. -/
theorem fitting_rows (hrows : Staged bodies rows told)
    (htexts : ∀ body ∈ bodies, ∀ s ∈ body.texts, Storable s) :
    ∀ w ∈ rows.map Write.insertOutbox, w.Fitting :=
  List.forall_mem_map.2 fun _ hr => htexts _ (hrows.mem_bodies hr)

/-- The statements of a save fit, if the texts of its events, the new tags and the row do. -/
theorem fitting_saving (hrows : Staged bodies rows told)
    (htexts : ∀ body ∈ bodies, ∀ s ∈ body.texts, Storable s)
    (htags : ∀ t ∈ unissuedTags minted retag, TagFits t)
    (hrow : ∀ previous updated, held = some (previous, updated) → previous ≠ updated →
      TaskFits updated) :
    ∀ w ∈ pending ⟨lock, log, held, addedTags taskId minted retag ++ rows.map .outbox, []⟩,
      w.Fitting := by
  rw [pending_saving]
  refine List.forall_mem_append.2 ⟨List.forall_mem_append.2 ⟨List.forall_mem_append.2
    ⟨fitting_rows hrows htexts, List.forall_mem_map.2 htags⟩,
    List.forall_mem_map.2 fun _ _ => trivial⟩, ?_⟩
  intro w hw
  unfold dirty at hw
  split at hw
  next previous updated heq =>
    split at hw
    · cases hw
    next hchanged =>
      obtain rfl := List.mem_singleton.1 hw
      exact hrow previous updated heq hchanged
  next => cases hw

end Pending

section Informed

variable [Unicode] {st : Server} {told : Told} {call : Call}

theorem Informed.active (h : Informed st told) {engine : Engine}
    (hconsults : Consults told engine) : activeWorkflow st.db = some engine.workflow := by
  obtain ⟨row, hrow, hparse⟩ := hconsults
  exact activeWorkflow_eq_some.2 ⟨row, (h.definition _ hrow).symm, hparse⟩

/-- New tags fit, while their keys are free. -/
theorem fits_of_free (hfold : FoldsCleanly) {asked : Option (List PyStr)} {taskId : Uuid}
    {minted : List Tag} {retag : Option Retag} {event : Option EventBody}
    (hnames : ∀ names ∈ asked, AcceptedNames names ∧ Keyable names st.db)
    (hstage : TagStage taskId told asked minted retag event)
    (hfree : ∀ t ∈ unissuedTags minted retag, t.nameKey ∉ tagKeys st.db) :
    ∀ t ∈ unissuedTags minted retag, TagFits t := by
  intro t ht
  have hmem : t ∈ minted := by
    cases retag with
    | none => exact ht
    | some _ => cases ht
  rcases hstage.resolved with ⟨-, rfl, -⟩ | ⟨names, found, rfl, hresolved⟩
  · cases hmem
  · obtain ⟨haccepted, hkeyable⟩ := hnames names rfl
    exact fits_of_resolved hfold haccepted hkeyable hresolved hmem (hfree t ht)

variable [Jsonb] [Runtime] (hfold : FoldsCleanly) (hst : Committed st) (haccepted : Accepted call)
  (hcan : Fulfillable st.db call)
include hfold hst haccepted hcan

/-- **The statements of a change fit.** -/
theorem Informed.fitting_changed (h : Informed st told) {lock : Option LockMode} {taskId : Uuid}
    {asked : Option (List PyStr)} {engine : Option Engine} {previous updated : Task}
    {minted : List Tag} {retag : Option Retag} {event : Option EventBody}
    {rows : List (OutboxRecord Event)}
    (htask : Changes told call taskId asked engine previous updated)
    (hstage : TagStage taskId told asked minted retag event)
    (hrows : Narrates engine previous updated event rows told)
    (hfree : ∀ t ∈ unissuedTags minted retag, t.nameKey ∉ tagKeys st.db) :
    ∀ w ∈ pending ⟨lock, issuedTags minted retag, some (previous, updated),
      addedTags taskId minted retag ++ rows.map .outbox, []⟩, w.Fitting := by
  have hprevious := h.task taskId previous htask.loaded.read
  have hsaves := saves_changed hst h.active hcan haccepted htask hprevious
  have hnames : ∀ names ∈ asked, AcceptedNames names ∧ Keyable names st.db := by
    intro names hnames
    rw [(asked_of_changes htask).2 names hnames]
    exact hcan.accepted_names haccepted
  obtain ⟨completes, hstaged, -⟩ := hrows.staged
  refine fitting_saving hstaged (fun body hbody => ?_) (fits_of_free hfold hnames hstage hfree)
    fun _ _ heq _ => ?_
  · rcases List.mem_append.1 hbody with hbody | hbody
    · exact storable_updateBodies hsaves.2 hprevious body hbody
    · exact storable_tagEvent hfold hst.stored (h.names taskId) hnames hstage body
        (Option.mem_toList.1 hbody)
  · obtain ⟨-, rfl⟩ := Prod.mk.inj (Option.some.inj heq)
    exact hsaves.2

/-- **The statements of a commit fit**, if the new tags among them have free keys. -/
theorem Informed.fitting_commit (h : Informed st told) (hcall : setsTags call = true) {tx : Tx}
    (hcommits : Commits call tx told)
    (hfree : ∀ t, .insertTag t ∈ pending tx → t.nameKey ∉ tagKeys st.db) :
    ∀ w ∈ pending tx, w.Fitting := by
  have hunissued : ∀ {lock : Option LockMode} {log : List Write} {held : Option (Task × Task)}
      {taskId : Uuid} {minted : List Tag} {retag : Option Retag} {rows : List (OutboxRecord Event)},
      ∀ t ∈ unissuedTags minted retag, Write.insertTag t ∈ pending
        ⟨lock, log, held, addedTags taskId minted retag ++ rows.map .outbox, []⟩ := by
    intro lock log held taskId minted retag rows t ht
    rw [pending_saving]
    simp [ht]
  cases hcommits with
  | create htags htask hrows =>
    have hfits := fits_admitted hst h.active hcan haccepted htask
    rw [pending_create]
    refine List.forall_mem_append.2 ⟨fitting_rows hrows fun body hbody => ?_,
      List.forall_mem_singleton.2 hfits⟩
    obtain rfl := List.mem_singleton.1 hbody
    exact storable_texts hfits
  | @createTagged _ _ _ _ name names task minted retag event rows _ htask hstage hrows =>
    have hfits := fits_admitted hst h.active hcan haccepted htask
    have hnames : ∀ asked ∈ some (name :: names), AcceptedNames asked ∧ Keyable asked st.db := by
      intro asked hasked
      obtain rfl := Option.some.inj hasked
      exact hcan.accepted_names haccepted
    refine fitting_saving hrows (fun body hbody => ?_)
      (fits_of_free hfold hnames hstage fun t ht => hfree t (hunissued t ht))
      fun _ _ heq hchanged => ?_
    · rcases List.mem_cons.1 hbody with rfl | hbody
      · exact storable_texts hfits
      · exact storable_tagEvent hfold hst.stored (h.names task.id) hnames hstage body
          (Option.mem_toList.1 hbody)
    · obtain ⟨rfl, rfl⟩ := Prod.mk.inj (Option.some.inj heq)
      exact absurd rfl hchanged
  | replace htask hstage hrows =>
    exact h.fitting_changed hfold hst haccepted hcan (.replace htask) hstage hrows
      fun t ht => hfree t (hunissued t ht)
  | patch htask hstage hrows =>
    exact h.fitting_changed hfold hst haccepted hcan (.patch htask) hstage hrows
      fun t ht => hfree t (hunissued t ht)
  | _ => cases hcall

variable {o : Op} {tx : Tx} {notes : Notes}

omit [Unicode] [Runtime] hfold hst haccepted hcan in
/-- What an operation sends begins with what is pending. -/
theorem mem_statements {db : Db} (hsent : ¬ o.Silent) {w : Write} (hw : w ∈ pending tx) :
    w ∈ statements db tx o := by
  cases o with
  | uuid7 | now | acquireGuard mode | add row | setTask t | deleteTask t | deleteTag t | rollback =>
    exact absurd trivial hsent
  | deleteTaskTags taskId => exact List.mem_append_left _ hw
  | _ => exact hw

/-- **What an operation finds pending fits.** -/
theorem Informed.fitting (h : Informed st notes.told) (howed : Owed call o (tx, notes))
    (hcall : setsTags call = true) (hsent : ¬ o.Silent)
    (hfree : ∀ t, .insertTag t ∈ pending tx → t.nameKey ∉ tagKeys st.db) :
    ∀ w ∈ pending tx, w.Fitting := by
  have hidle : pending tx = [] → ∀ w ∈ pending tx, w.Fitting := by
    intro hnone
    rw [hnone]
    exact fun _ hw => nomatch hw
  cases o with
  | uuid7 | now | acquireGuard mode | add row | setTask t | deleteTask t | deleteTag t | rollback =>
    exact absurd trivial hsent
  | selectActive | selectMaxVersion | selectDefinitionId | getTask taskId | countByStatus
  | getTag id | countTaskTags tagId =>
    exact hidle (List.append_eq_nil_iff.1 (howed.reads trivial)).2
  | selectTagNames taskId =>
    cases howed.prepares trivial with
    | names hstages => exact hidle hstages.pending
  | selectTags keys =>
    cases howed.prepares trivial with
    | rows hstages => exact hidle hstages.pending
  | deleteTaskTags taskId =>
    cases howed.prepares trivial with
    | @unlink _ _ names rows minted tx hstages hresolved =>
      obtain ⟨hnames, hkeyable⟩ := hcan.stages_names haccepted hstages
      have hpending := hstages.pending_minted minted
      rw [hpending] at hfree ⊢
      exact List.forall_mem_map.2 fun t ht => fits_of_resolved hfold hnames hkeyable hresolved ht
        (hfree t (List.mem_map_of_mem ht))
  | flush =>
    cases howed.prepares trivial with
    | stage htask =>
      exact List.forall_mem_singleton.2 (fits_admitted hst h.active hcan haccepted htask)
  | commit => exact h.fitting_commit hfold hst haccepted hcan hcall (howed.commit rfl) hfree

variable {now : Server}

/-- **The operations of a request that can be met succeed**, unless they find the key of a new tag
stored. -/
theorem Lasting.granted (hlasting : Lasting notes.told now.db) (h : Informed st notes.told)
    (hdb : Consistent now.db) (howed : Owed call o (tx, notes)) (hcall : setsTags call = true)
    (hgrown : tagKeys st.db ⊆ tagKeys now.db) (hspared : ¬ Clashes now.db call)
    (hfree : ∀ t, .insertTag t ∈ statements now.db tx o → t.nameKey ∉ tagKeys now.db) :
    Granted (Answer.Holds now.db) o (exec o tx now).1 := by
  refine granted_of_ok howed ?_
  cases hexec : (exec o tx now).1 with
  | ok a => exact ⟨a, rfl⟩
  | error x =>
    exfalso
    obtain ⟨hsent, d, rfl, hrefused⟩ := exec_pending_refused hexec
    have hown : OwnAnswer False o (exec o tx now).1 :=
      hlasting.ownAnswer hdb howed hcall hfree hspared
    rcases hown _ hexec with hdata | ⟨-, -, hfalse⟩
    · obtain rfl := Exn.db.inj hdata
      obtain ⟨w, hw, hnot⟩ := hrefused.not_fitting
      refine hnot (h.fitting hfold hst haccepted hcan howed hcall hsent (fun t ht hstored => ?_)
        w hw)
      exact hfree t (mem_statements hsent ht) (hgrown hstored)
    · exact hfalse

end Informed

end TaskService.Tagging
