import TaskService.Sequential.Duplicates
import TaskService.Tasks.Raising

/-!
# What a tagged write fails for

While only tasks are written, and each by one session, what a session was told lasts until it
commits. So of what it has pending little can be refused: a text that no column holds, a title that
is taken, and the INSERT of a tag whose key is stored by now.

* **`Lasting.data_or_dirty`**: tags, links and events of a write are refused for their texts only,
  unless a new tag is stored by then.
* **`Lasting.ownAnswer`**: an operation fails for reasons of its call.
-/

namespace TaskService.Tagging

open Store Tasks Tags Workflows Concurrency Sessions TaskService.Sequential

/-! ## Failures -/

/-- A call fails for itself: its checks raised, a text fits no column, or its title is taken. -/
inductive OwnFailure (taken : Prop) : Exn → Prop where
  | check {e : Exn} (h : OfCheck e) : OwnFailure taken e
  | data : OwnFailure taken (.db .data)
  | title (h : taken) (title : PyStr) : OwnFailure taken (.app (.duplicateTask title))

/-- An operation fails for its call: for a text, or a write for a title that is taken. -/
def OwnAnswer (taken : Prop) (o : Op) (r : Except Exn (Res o)) : Prop :=
  ∀ e, r = .error e → e = .db .data
    ∨ Handled o ∧ e = .db (.integrity Write.titleKeyConstraint) ∧ taken

/-- **What operations fail for, use cases fail for.** -/
theorem raises_own (taken : Prop) : Raises (OwnAnswer taken) (OwnFailure taken) where
  check _ he := .check he
  op o e h := by
    rcases h e rfl with rfl | ⟨hhandled, htitle, -⟩
    · exact .inl .data
    · exact .inr ⟨hhandled, htitle⟩
  title o h title := by
    rcases h _ rfl with hdata | ⟨-, -, htaken⟩
    · cases hdata
    · exact .title htaken title
  echo title title' h := by
    cases h with
    | check h => exact h.elim
    | title htaken => exact .title htaken title'

/-! ## Blocks -/

section Blocks

variable [Jsonb] {db : Db} {e : DbError}

/-- Events under new ids are refused for their texts only. -/
theorem data_of_refused_insertOutbox {rows : List (OutboxRecord Event)}
    (hids : (rows.map OutboxRecord.id).Nodup)
    (hnew : ∀ id ∈ rows.map OutboxRecord.id, id ∉ db.outbox.map OutboxRecord.id)
    (h : Refused db (rows.map .insertOutbox) e) : e = .data := by
  obtain ⟨before, w, after, heq, -, hcheck⟩ := h
  obtain ⟨issued, rest, rfl, rfl, hrest⟩ := List.map_eq_append_iff.1 heq
  obtain ⟨r, later, rfl, rfl, rfl⟩ := List.map_eq_cons_iff.1 hrest
  rw [view_insertOutbox] at hcheck
  rw [List.map_append] at hids
  have hnew : ¬ ∃ row ∈ db.outbox ++ issued, row.id = r.id := by
    rintro ⟨row, hrow, hid⟩
    rcases List.mem_append.1 hrow with hrow | hrow
    · exact hnew r.id (by simp) (hid ▸ List.mem_map_of_mem hrow)
    · exact (List.nodup_append.1 hids).2.2 _ (List.mem_map_of_mem hrow) r.id (by simp) hid
  change (if _ then some DbError.data else if _ then _ else none) = some e at hcheck
  rw [if_neg hnew] at hcheck
  split at hcheck
  · exact (Option.some.inj hcheck).symm
  · cases hcheck

/-- Tags under new ids and new keys are refused for their texts only. -/
theorem data_of_refused_insertTag {tags : List Tag}
    (hids : (db.tags.map Tag.id ++ tags.map Tag.id).Nodup)
    (hkeys : (db.tags.map Tag.nameKey ++ tags.map Tag.nameKey).Nodup)
    (h : Refused db (tags.map .insertTag) e) : e = .data := by
  obtain ⟨before, w, after, heq, -, hcheck⟩ := h
  obtain ⟨issued, rest, rfl, rfl, hrest⟩ := List.map_eq_append_iff.1 heq
  obtain ⟨t, later, rfl, rfl, rfl⟩ := List.map_eq_cons_iff.1 hrest
  rw [view_insertTag] at hcheck
  rw [List.map_append, ← List.append_assoc, ← List.map_append] at hids hkeys
  have hid : ¬ ∃ row ∈ db.tags ++ issued, row.id = t.id := by
    rintro ⟨row, hrow, heq⟩
    exact (List.nodup_append.1 hids).2.2 _ (List.mem_map_of_mem hrow) t.id (by simp) heq
  have hkey : ¬ ∃ row ∈ db.tags ++ issued, row.nameKey = t.nameKey := by
    rintro ⟨row, hrow, heq⟩
    exact (List.nodup_append.1 hkeys).2.2 _ (List.mem_map_of_mem hrow) t.nameKey (by simp) heq
  change (if _ then some DbError.data else if _ then _ else if _ then _ else none)
    = some e at hcheck
  rw [if_neg hid, if_neg hkey] at hcheck
  split at hcheck
  · exact (Option.some.inj hcheck).symm
  · cases hcheck

omit e in
theorem view_insertTask_map (tasks : List Task) :
    view db (tasks.map .insertTask) = { db with tasks := db.tasks ++ tasks } := by
  induction tasks generalizing db with
  | nil => simp
  | cons t tasks ih =>
    rw [List.map_cons, view_cons, ih]
    simp [Write.apply]

end Blocks

/-! ## An open session -/

/-- What a session knows until it commits: what it was told lasts, and the ids it drew are
its own. -/
structure Lasting (told : Told) (db : Db) : Prop where
  lasts : ∀ answer ∈ told, answer.Lasts db
  nodup : told.ids.Nodup
  fresh : ∀ id ∈ told.ids, id ∉ mentions db

section Lasting

variable [Unicode] [Jsonb] {told : Told} {db db₁ : Db} {e : DbError}

omit [Unicode] in
/-- The events of a write are refused for their texts only. -/
theorem Lasting.data_of_rows (h : Lasting told db) {bodies : List EventBody}
    {rows : List (OutboxRecord Event)} (hrows : Staged bodies rows told)
    (houtbox : db₁.outbox = db.outbox) (hrefused : Refused db₁ (rows.map .insertOutbox) e) :
    e = .data := by
  refine data_of_refused_insertOutbox (h.nodup.sublist hrows.drawn) (fun id hid hold => ?_) hrefused
  rw [houtbox] at hold
  exact h.fresh id (hrows.drawn.subset hid) (mem_mentions.2 (.inr (.inr (.inl hold))))

/-- **New tags are refused for their texts only**, while their keys are free. -/
theorem Lasting.data_of_minted (h : Lasting told db) (hdb : Consistent db) {names : List PyStr}
    {found minted : List Tag} (hresolved : Resolved names found minted told)
    (htags : db₁.tags = db.tags) (hfree : ∀ t ∈ minted, t.nameKey ∉ tagKeys db)
    (hrefused : Refused db₁ (minted.map .insertTag) e) : e = .data := by
  refine data_of_refused_insertTag ?_ ?_ hrefused <;> rw [htags]
  · refine hdb.ids.append (h.nodup.sublist hresolved.drawn) fun id hold hnew => ?_
    exact h.fresh id (hresolved.drawn.subset hnew) (mem_mentions.2 (.inr (.inl hold)))
  · refine hdb.keys.append hresolved.nodup_minted fun key hold hnew => ?_
    obtain ⟨t, ht, rfl⟩ := List.mem_map.1 hnew
    exact hfree t ht hold

variable {lock : Option LockMode} {log : List Write} {held : Option (Task × Task)} {taskId : Uuid}
  {asked : Option (List PyStr)} {minted : List Tag} {retag : Option Retag}
  {event : Option EventBody} {bodies : List EventBody} {rows : List (OutboxRecord Event)}

/-- **Tags, links and events of a write are refused for their texts only**, unless a new tag is
stored by then; what is left is the UPDATE. -/
theorem Lasting.data_or_dirty (h : Lasting told db) (hdb : Consistent db) (inserted : List Task)
    (hstage : TagStage taskId told asked minted retag event) (hrows : Staged bodies rows told)
    (hthere : taskId ∈ (db.tasks ++ inserted).map Task.id)
    (hfree : ∀ t, .insertTag t ∈ pending ⟨lock, log, held, addedTags taskId minted retag
      ++ rows.map .outbox, []⟩ → t.nameKey ∉ tagKeys db)
    (hrefused : Refused (view db (inserted.map .insertTask ++ issuedTags minted retag))
      (pending ⟨lock, log, held, addedTags taskId minted retag ++ rows.map .outbox, []⟩) e) :
    e = .data ∨ ∃ db₁, db₁.tasks = db.tasks ++ inserted ∧ Refused db₁
      (dirty ⟨lock, log, held, addedTags taskId minted retag ++ rows.map .outbox, []⟩) e := by
  rw [view_append, view_insertTask_map] at hrefused
  rw [pending_saving] at hfree hrefused
  rcases hrefused.append_cases with hstaged | ⟨-, hdirty⟩
  · left
    cases hstage with
    | omitted =>
      simp only [unissuedTags, unissuedLinks, List.map_nil, List.append_nil] at hstaged
      exact h.data_of_rows hrows (by rfl) hstaged
    | kept hbefore hresolved =>
      simp only [unissuedTags, unissuedLinks, List.map_nil, List.append_nil] at hstaged
      rcases hstaged.append_cases with hevents | ⟨-, htags⟩
      · exact h.data_of_rows hrows (by rfl) hevents
      · refine h.data_of_minted hdb hresolved ?_ (fun t ht => hfree t ?_) htags
        · rw [view_insertOutbox]
          rfl
        · simp [unissuedTags, ht]
    | changed hbefore hresolved hdiffers hgone =>
      simp only [unissuedTags, List.map_nil, List.append_nil] at hstaged
      rcases hstaged.append_cases with hevents | ⟨-, hlinks⟩
      · refine h.data_of_rows hrows ?_ hevents
        simp [issuedTags, view_insertTag, Write.apply]
      · -- the links the task had are gone, and nothing else has been linked to it
        refine absurd hlinks (not_refused_of_passes ?_)
        refine passes_links hdb h.lasts hresolved hgone ?_ ?_ ?_
        · simpa [issuedTags, view_insertTag, view_insertOutbox, Write.apply] using hthere
        · simp [issuedTags, view_insertTag, view_insertOutbox, Write.apply]
        · simp [issuedTags, view_insertTag, view_insertOutbox, Write.apply]
  · have hspares := @sparesTasks_stagedWrites taskId minted retag rows
    refine .inr ⟨_, ?_, hdirty⟩
    rw [tasks_view fun w hw => hspares w (List.mem_append_right _ hw),
      tasks_view fun w hw => hspares w (List.mem_append_left _ hw)]

/-! ## One operation -/

variable {call : Call}

omit [Unicode] in
/-- The INSERT of a task is refused for its texts or for its title. -/
theorem Lasting.refused_insertTask (h : Lasting told db) {task : Task} (hdrawn : task.id ∈ told.ids)
    (htasks : db₁.tasks = db.tasks) (hrefused : Refused db₁ [.insertTask task] e) :
    e = .data ∨ e = .integrity Write.titleKeyConstraint ∧ TitleTaken db (.insertTask task) := by
  have hcheck := refused_singleton.1 hrefused
  have hid : ∀ row ∈ db₁.tasks, row.id ≠ task.id := by
    rw [htasks]
    intro row hrow hid
    exact h.fresh task.id hdrawn (mem_mentions.2 (.inl (hid ▸ List.mem_map_of_mem hrow)))
  refine (check_insertTask_cases hcheck hid).imp_right fun htitle => ⟨htitle, ?_⟩
  have htaken := titleTaken_of_check (htitle ▸ hcheck)
  rwa [TitleTaken, htasks] at htaken

/-- **The commit of a change is refused for its texts or for its title.** -/
theorem Lasting.refused_changed (h : Lasting told db) (hdb : Consistent db) {engine : Option Engine}
    {previous updated : Task} (htask : Changes told call taskId asked engine previous updated)
    (hstage : TagStage taskId told asked minted retag event)
    (hrows : Narrates engine previous updated event rows told)
    (hfree : ∀ t, .insertTag t ∈ pending ⟨lock, issuedTags minted retag, some (previous, updated),
      addedTags taskId minted retag ++ rows.map .outbox, []⟩ → t.nameKey ∉ tagKeys db)
    (hrefused : Refused (view db (issuedTags minted retag)) (pending ⟨lock, issuedTags minted retag,
      some (previous, updated), addedTags taskId minted retag ++ rows.map .outbox, []⟩) e) :
    e = .data ∨ e = .integrity Write.titleKeyConstraint ∧ Clashes db call := by
  have hthere : previous.id ∈ db.tasks.map Task.id := h.lasts _ htask.loaded.read
  obtain ⟨completes, hstaged, -⟩ := hrows.staged
  have hid : taskId ∈ (db.tasks ++ []).map Task.id := by
    rw [List.append_nil, ← htask.ids.1]
    exact hthere
  rcases h.data_or_dirty hdb [] hstage hstaged hid hfree hrefused with hdata | ⟨db₁, htasks, hdirty⟩
  · exact .inl hdata
  rw [List.append_nil] at htasks
  change Refused db₁ (if previous = updated then [] else [.updateTask previous updated]) e at hdirty
  by_cases hsame : previous = updated
  · rw [if_pos hsame] at hdirty
    exact absurd hdirty not_refused_nil
  · rw [if_neg hsame] at hdirty
    have hcheck := refused_singleton.1 hdirty
    have hrow : ∃ row ∈ db₁.tasks, row.id = previous.id := by
      rw [htasks]
      exact List.mem_map.1 hthere
    refine (check_updateTask_cases hcheck hrow).imp_right fun htitle => ⟨htitle, ?_⟩
    have htaken := titleTaken_of_check (htitle ▸ hcheck)
    rw [TitleTaken, htasks] at htaken
    exact clashes_of_update htask htaken

/-- **A commit is refused for its texts or for its title.** -/
theorem Lasting.refused_commit {tx : Tx} (h : Lasting told db) (hdb : Consistent db)
    (hcommits : Commits call tx told) (hcall : setsTags call = true)
    (hfree : ∀ t, .insertTag t ∈ pending tx → t.nameKey ∉ tagKeys db)
    (hrefused : Refused (view db tx.log) (pending tx) e) :
    e = .data ∨ e = .integrity Write.titleKeyConstraint ∧ Clashes db call := by
  cases hcommits with
  | create htags htask hrows =>
    rw [pending_create] at hrefused
    rcases hrefused.append_cases with hevents | ⟨-, hinsert⟩
    · exact .inl (h.data_of_rows hrows (by rfl) hevents)
    · refine (h.refused_insertTask htask.drawn ?_ hinsert).imp_right fun ⟨hd, htitle⟩ =>
        ⟨hd, clashes_of_insert htask htitle⟩
      rw [view_insertOutbox]
      rfl
  | @createTagged _ _ _ _ _ _ task minted retag event rows _ htask hstage hrows =>
    have hthere : task.id ∈ (db.tasks ++ [task]).map Task.id := by simp
    rcases h.data_or_dirty hdb [task] hstage hrows hthere hfree hrefused with hdata
      | ⟨db₁, -, hdirty⟩
    · exact .inl hdata
    · rw [dirty_of_same] at hdirty
      exact absurd hdirty not_refused_nil
  | replace htask hstage hrows =>
    exact h.refused_changed hdb (.replace htask) hstage hrows hfree hrefused
  | patch htask hstage hrows =>
    exact h.refused_changed hdb (.patch htask) hstage hrows hfree hrefused
  | _ => cases hcall

variable [Runtime] {o : Op} {tx : Tx} {notes : Notes} {now : Server}

/-- **An operation fails for reasons of its call**, unless it finds the key of a new tag stored. -/
theorem Lasting.ownAnswer {taken : Prop} (h : Lasting notes.told now.db) (hdb : Consistent now.db)
    (howed : Owed call o (tx, notes)) (hcall : setsTags call = true)
    (hfree : ∀ t, .insertTag t ∈ statements now.db tx o → t.nameKey ∉ tagKeys now.db)
    (htaken : Clashes now.db call → taken) : OwnAnswer taken o (exec o tx now).1 := by
  intro x hx
  obtain ⟨hsilent, d, rfl, hrefused⟩ := exec_pending_refused hx
  have hidle : pending tx ≠ [] := fun hnone => not_refused_nil (hnone ▸ hrefused)
  -- A statement that was held back was refused. What sends nothing refuses nothing, and before a
  -- read nothing is held back.
  cases o with
  | uuid7 | now | acquireGuard mode | add row | setTask t | deleteTask t | deleteTag t | rollback =>
    exact absurd trivial hsilent
  | selectActive | selectMaxVersion | selectDefinitionId | getTask taskId | countByStatus
  | getTag id | countTaskTags tagId =>
    exact absurd (List.append_eq_nil_iff.1 (howed.reads trivial)).2 hidle
  | selectTagNames taskId =>
    cases howed.prepares trivial with
    | names hstages => exact absurd hstages.pending hidle
  | selectTags keys =>
    cases howed.prepares trivial with
    | rows hstages => exact absurd hstages.pending hidle
  | deleteTaskTags taskId =>
    cases howed.prepares trivial with
    | @unlink _ _ names found minted tx hstages hresolved =>
      have hpending := hstages.pending_minted minted
      -- Only the new task was sent so far, so the tags that the statements find are those stored.
      have htags : (view now.db tx.log).tags = now.db.tags := (view_insertTask hstages.log now.db).1
      rw [hpending] at hrefused
      refine .inl (congrArg Exn.db (h.data_of_minted hdb hresolved htags (fun t ht => ?_) hrefused))
      refine hfree t (List.mem_append_left _ ?_)
      rw [hpending]
      exact List.mem_map_of_mem ht
  | flush =>
    cases howed.prepares trivial with
    | stage htask =>
      rcases h.refused_insertTask htask.drawn rfl hrefused with rfl | ⟨rfl, htitle⟩
      · exact .inl rfl
      · exact .inr ⟨trivial, rfl, htaken (clashes_of_insert htask htitle)⟩
  | commit =>
    rcases h.refused_commit hdb (howed.commit rfl) hcall hfree hrefused with rfl | ⟨rfl, hclashes⟩
    · exact .inl rfl
    · exact .inr ⟨trivial, rfl, htaken hclashes⟩

end Lasting

end TaskService.Tagging
