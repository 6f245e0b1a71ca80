import TaskService.Sequential.Rows
import TaskService.Sequential.TagEvents
import TaskService.Store.Refusals
import TaskService.Workflows.Storage

/-!
# What passes without concurrent writers

What a session read is still so when it writes. So of the statements of a call most pass: tags that
were missing are new, links that were dropped can be made again, and ids that were just drawn are
unused.

* **`storable_of_known`**: a status that a committed definition knows fits its column.
* **`passes_staged`**: tags, links and events of a change pass, if the new names fit their columns.
-/

namespace TaskService.Sequential

open Store Tasks Tags Workflows Concurrency Sessions

/-! ## Statuses -/

section Known

variable [Unicode] [Jsonb] [Runtime] {st : Server}

theorem Committed.stored (h : Committed st) : Stored st.db := stored_of_reachable h.idle

omit [Unicode] [Jsonb] [Runtime] in
/-- The name of a state stands in the document. -/
theorem mem_strings_of_stateNames {w : Workflow} (h : w.DistinctMeta) {s : PyStr}
    (hs : s ∈ w.stateNames) : s ∈ (workflowToDocument w).strings := by
  obtain ⟨state, hstate, rfl⟩ := List.mem_map.1 hs
  have hall : Screens (· ∈ (workflowToDocument w).strings) (fun _ => True) (workflowToDocument w) :=
    ⟨fun _ hs => hs, fun _ _ => trivial⟩
  generalize (workflowToDocument w).strings = strings at hall ⊢
  have hentry : Screens (· ∈ strings) (fun _ => True) (stateEntry state) := by
    rw [workflowToDocument, screens_dict] at hall
    have hlist := (hall (py "states", .list (w.states.map stateEntry)) (by simp)).2
    exact screens_list.1 hlist _ (List.mem_map_of_mem hstate)
  rw [stateEntry_eq (h.states state hstate)] at hentry
  split at hentry
  · exact screens_str.1 hentry
  · have hhead := (screens_head_append.1 hentry).1
    exact screens_str.1 (screens_dict.1 hhead (py "name", .str state.name) (by simp [stateHead])).2

/-- A status the active definition knows can be stored. -/
theorem storable_of_known (h : Committed st) {w : Workflow}
    (hactive : activeWorkflow st.db = some w) {s : PyStr} (hs : s ∈ w.stateNames) : Storable s := by
  obtain ⟨row, hrow, hparse⟩ := activeWorkflow_eq_some.1 hactive
  have hsourced : Sourced st.db := h.idle.orderly.sound.inv.sourced
  have hmem : row ∈ st.db.workflows := List.argmax_mem hrow
  obtain ⟨w₀, hw₀, hdocument⟩ := hsourced row hmem
  obtain ⟨w', hw', heqv⟩ := hw₀.reload
  rw [hdocument] at hparse
  obtain rfl := Except.ok.inj (hw'.symm.trans hparse)
  rw [← heqv.stateNames_eq] at hs
  refine h.stored.documents row hmem s ?_
  have hsame : Json.Same (Jsonb.store (workflowToDocument w₀)) (workflowToDocument w₀) :=
    Jsonb.same_store _
  rw [hdocument, ← Json.mem_strings_canon, hsame, Json.mem_strings_canon]
  exact mem_strings_of_stateNames hw₀.distinctMeta hs

end Known

/-! ## New tags -/

section Tags

variable [Unicode] {names : List PyStr} {rows minted : List Tag} {told : Told}

/-- The new tags fit when the names do. -/
theorem fits_of_resolved (hfold : FoldsCleanly) {db : Db} (hnames : AcceptedNames names)
    (hkeyable : Keyable names db) (hresolved : Resolved names rows minted told) {t : Tag}
    (ht : t ∈ minted) (hfree : t.nameKey ∉ tagKeys db) : TagFits t := by
  obtain ⟨name, hfind, hspelled⟩ := hresolved.spelled ht
  have hname : name ∈ names := List.mem_of_find?_eq_some hfind
  have hkey : Tag.normalizeName name = t.nameKey := by simpa using List.find?_some hfind
  rw [← hkey] at hfree
  have hbounded : Bounded t := (bounded_iff hfold (hnames.2 name hname) (hkeyable.1 name hname)
    hspelled hkey.symm).2 (hkeyable.2 name hname hfree)
  exact hbounded.2

/-- And the other way round. -/
theorem keyable_of_fits (hfold : FoldsCleanly) {db : Db}
    (hresolved : Resolved names rows minted told) (hrows : rows = rowsFor names db)
    (hfits : ∀ t ∈ minted, TagFits t) : Keyable names db := by
  refine ⟨hresolved.nonblank, fun name hname hfree => ?_⟩
  obtain ⟨t, ht, hkey⟩ := List.mem_map.1 (hresolved.mem_keys.2 ⟨name, hname, rfl⟩)
  have hminted : t ∈ minted := by
    refine (List.mem_append.1 ht).resolve_left fun hrow => hfree ?_
    rw [← hkey]
    exact List.mem_map_of_mem (List.mem_filter.1 (hrows ▸ hrow)).1
  obtain ⟨-, hlength, -, hencodable⟩ := hfits t hminted
  rw [hkey] at hlength hencodable
  exact (keyFits_iff hfold).1 ⟨hlength, hencodable⟩

variable [Jsonb] {st : Server}

/-- **New tags that fit pass.** -/
theorem passes_minted (hst : Consistent st.db) (htold : Truthful st told)
    (hresolved : Resolved names rows minted told) (hfits : ∀ t ∈ minted, TagFits t) {db : Db}
    (htags : db.tags = st.db.tags) : Passes db (minted.map .insertTag) := by
  have hrows := hresolved.rows_eq htold.holds
  have hrowKeys : (rows.map Tag.nameKey).Nodup := by
    rw [hrows]
    exact hst.keys.sublist (List.filter_sublist.map _)
  have hkeys := hresolved.nodup_keys hrowKeys
  rw [List.map_append] at hkeys
  refine passes_insertTag hfits ?_ ?_ <;> rw [htags]
  · refine hst.ids.append (htold.nodup.sublist hresolved.drawn) fun id hold hnew => ?_
    refine htold.fresh id (hresolved.drawn.subset hnew) (mem_mentions.2 ?_)
    exact .inr (.inl hold)
  · refine hst.keys.append hkeys.of_append_right fun key hold hnew => ?_
    obtain ⟨t, ht, rfl⟩ := List.mem_map.1 hnew
    exact hresolved.unstored hrows ht hold

end Tags

/-! ## Texts of events -/

section Texts

/-- The strings of a row that fits can be stored. -/
theorem storable_texts {t : Task} (h : TaskFits t) : ∀ s ∈ t.texts, Storable s := by
  obtain ⟨htitle, hkey, hdescription, hstatus, -⟩ := h
  intro s hs
  rcases List.mem_cons.1 hs with rfl | hs
  · exact htitle.2
  rcases List.mem_cons.1 hs with rfl | hs
  · exact hkey.2
  rcases List.mem_cons.1 hs with rfl | hs
  · exact hstatus
  · exact (hdescription s (Option.mem_toList.1 hs)).2

/-- So can those of the events on its change. -/
theorem storable_updateBodies {updated previous : Task} {completes : Bool} (h : TaskFits updated)
    (hprevious : TaskFits previous) :
    ∀ body ∈ updateBodies updated previous completes, ∀ s ∈ body.texts, Storable s := by
  have hupdated := storable_texts h
  have hold := storable_texts hprevious
  have hboth : ∀ s ∈ (EventBody.taskUpdated
      updated previous (updated.changedFields previous)).texts,
      Storable s := fun s hs => (List.mem_append.1 hs).elim (hupdated s) (hold s)
  have hstatus : ∀ s ∈ (EventBody.taskStatusChanged updated previous.status updated.status).texts,
      Storable s := by
    intro s hs
    rcases List.mem_cons.1 hs with rfl | hs
    · exact hprevious.2.2.2.1
    rcases List.mem_cons.1 hs with rfl | hs
    · exact h.2.2.2.1
    · exact hupdated s hs
  unfold updateBodies
  split
  · exact fun _ hbody => nomatch hbody
  · refine List.forall_mem_cons.2 ⟨hboth, ?_⟩
    split
    · exact fun _ hbody => nomatch hbody
    · refine List.forall_mem_cons.2 ⟨hstatus, ?_⟩
      split
      · exact List.forall_mem_cons.2 ⟨hupdated, fun _ hbody => nomatch hbody⟩
      · exact fun _ hbody => nomatch hbody

variable [Unicode] {names : List PyStr} {told : Told}

/-- A name with a stored key can be stored, and so can a new one that fits. -/
theorem storable_displayName (hfold : FoldsCleanly) {db : Db} (hstored : Stored db)
    (hnames : AcceptedNames names) (hkeyable : Keyable names db) {n : PyStr}
    (hn : n ∈ displayNames names) : Storable n := by
  obtain ⟨name, hname, -, rfl⟩ := mem_displayNames.1 hn
  have hnul : (0 : CodePoint) ∉ strip name := fun h => (hnames.2 name hname).2 (mem_of_mem_strip h)
  by_cases hkey : Tag.normalizeName name ∈ db.tags.map Tag.nameKey
  · obtain ⟨t, ht, hsame⟩ := List.mem_map.1 hkey
    obtain ⟨-, -, -, hencodable⟩ := hstored.tags t ht
    rw [hsame, Tag.normalizeName, encodable_casefold_iff hfold] at hencodable
    exact ⟨hnul, hencodable⟩
  · exact ⟨hnul, encodable_strip_iff.2 (hkeyable.2 name hname hkey).2⟩

omit [Unicode] in
/-- The names a task has are stored. -/
theorem storable_tagNames {db : Db} (hstored : Stored db) (taskId : Uuid) :
    ∀ s ∈ db.tagNames taskId, Storable s := by
  intro s hs
  obtain ⟨t, ht, -, rfl⟩ := mem_tagNames.1 hs
  exact (hstored.tags t ht).1.2

/-- **The texts of the event on a task's tags can be stored**, if those of the names can. -/
theorem storable_tagEvent (hfold : FoldsCleanly) {db : Db} (hstored : Stored db) {taskId : Uuid}
    {asked : Option (List PyStr)} {minted : List Tag} {retag : Option Retag}
    {event : Option EventBody}
    (hshown : ∀ names, .tagNames taskId names ∈ told → ∀ s ∈ names, Storable s)
    (hnames : ∀ names ∈ asked, AcceptedNames names ∧ Keyable names db)
    (hstage : TagStage taskId told asked minted retag event) :
    ∀ body ∈ event, ∀ s ∈ body.texts, Storable s := by
  cases hstage with
  | omitted | kept => exact fun _ hbody => nomatch hbody
  | @changed names before rows _ gone hbefore =>
    obtain ⟨haccepted, hkeyable⟩ := hnames names rfl
    have hafter : ∀ s ∈ displayNames names, Storable s := fun s hs =>
      storable_displayName hfold hstored haccepted hkeyable hs
    have hold := hshown before hbefore
    intro body hbody s hs
    obtain rfl := Option.some.inj hbody
    rcases List.mem_append.1 hs with hs | hs
    · rcases List.mem_append.1 hs with hs | hs
      · exact hafter s (mem_sortedSet.1 hs)
      · exact hafter s (List.mem_filter.1 (mem_sortedSet.1 hs)).1
    · exact hold s (List.mem_filter.1 (mem_sortedSet.1 hs)).1

end Texts

/-! ## A change -/

section Shown

variable {st : Server} {told : Told}

/-- What a session was told a task's tags are can be stored. -/
theorem Truthful.storable_names (htold : Truthful st told) (hstored : Stored st.db)
    (taskId : Uuid) :
    ∀ names, .tagNames taskId names ∈ told → ∀ s ∈ names, Storable s := by
  intro names hnames
  rw [show names = st.db.tagNames taskId from htold.holds _ hnames]
  exact storable_tagNames hstored taskId

/-- The definition it was told of is the active one. -/
theorem Truthful.active [Unicode] (htold : Truthful st told) {engine : Engine}
    (h : Consults told engine) : activeWorkflow st.db = some engine.workflow :=
  h.active fun answer hanswer _ => htold.holds answer hanswer

end Shown

section Changes

variable [Unicode] [Jsonb] {st : Server} {told : Told} {rows : List (OutboxRecord Event)}

omit [Unicode] in
/-- Event rows are new. -/
theorem passes_rows {bodies : List EventBody} (htold : Truthful st told)
    (hrows : Staged bodies rows told)
    (htexts : ∀ body ∈ bodies, ∀ s ∈ body.texts, Storable s) {db : Db}
    (houtbox : db.outbox = st.db.outbox) : Passes db (rows.map .insertOutbox) := by
  refine passes_insertOutbox (fun r hr => htexts _ (hrows.mem_bodies hr))
    (htold.nodup.sublist hrows.drawn) fun id hid hold => ?_
  rw [houtbox] at hold
  exact htold.fresh id (hrows.drawn.subset hid) (mem_mentions.2 (.inr (.inr (.inl hold))))

omit [Unicode] [Jsonb] in
theorem nodup_linksTo (taskId : Uuid) (tags : List Tag) : (linksTo taskId tags).Nodup := by
  have hids : (fromKeys (tags.map Tag.id)).Nodup := by
    unfold fromKeys
    exact List.nodup_reverse.2 (List.nodup_dedup _)
  refine List.Nodup.map (fun a b h => ?_) hids
  exact (TaskTag.mk.inj h).2

/-- **The links of a task to other tags are new** once it has lost its own. -/
theorem passes_links {db₀ db : Db} (hdb : Consistent db₀)
    (hlasts : ∀ answer ∈ told, answer.Lasts db₀)
    {taskId : Uuid} {names : List PyStr} {found minted : List Tag}
    (hresolved : Resolved names found minted told) (hgone : .unlinked taskId gone ∈ told)
    (hthere : taskId ∈ db.tasks.map Task.id) (htags : db.tags = db₀.tags ++ minted)
    (hlinks : db.taskTags = db₀.taskTags.filter fun l => l ∉ gone) :
    Passes db ((linksTo taskId (found ++ minted)).map .insertTaskTag) := by
  have hall : gone = db₀.linksOf taskId := hlasts _ hgone
  have hfound := hresolved.found hlasts
  refine passes_insertTaskTag ?_ (fun l hl => ?_) fun l hl => ?_
  · rw [hlinks]
    refine (hdb.links.filter _).append (nodup_linksTo taskId _) fun l hold hnew => ?_
    obtain ⟨hstored, hkept⟩ := List.mem_filter.1 hold
    refine of_decide_eq_true hkept ?_
    rw [hall]
    exact mem_linksOf.2 ⟨hstored, linksTo_taskId hnew⟩
  · obtain ⟨tagId, htagId, rfl⟩ := List.mem_map.1 hl
    have htagId : tagId ∈ (found ++ minted).map Tag.id := by
      simpa [fromKeys, or_comm] using htagId
    obtain ⟨t, ht, rfl⟩ := List.mem_map.1 htagId
    rw [htags]
    refine List.mem_map_of_mem (List.mem_append.2 ?_)
    exact (List.mem_append.1 ht).imp_left (hfound t)
  · rw [linksTo_taskId hl]
    exact hthere

/-- The statements of a change but for that on the task. -/
def stagedWrites (taskId : Uuid) (minted : List Tag) (retag : Option Retag)
    (rows : List (OutboxRecord Event)) : List Write :=
  issuedTags minted retag ++ (rows.map .insertOutbox ++ (unissuedTags minted retag).map .insertTag
    ++ (unissuedLinks taskId retag).map .insertTaskTag)

/-- **Tags, links and events of a change pass**, if the new tags and the texts of the events fit,
also beside other statements on the tasks. -/
theorem passes_staged_beside (hst : Consistent st.db) (htold : Truthful st told) {taskId : Uuid}
    {asked : Option (List PyStr)} {minted : List Tag} {retag : Option Retag}
    {event : Option EventBody} {bodies : List EventBody}
    (hstage : TagStage taskId told asked minted retag event) (hfits : ∀ t ∈ minted, TagFits t)
    (hrows : Staged bodies rows told) (htexts : ∀ body ∈ bodies, ∀ s ∈ body.texts, Storable s)
    {db : Db} (htags : db.tags = st.db.tags) (hlinks : db.taskTags = st.db.taskTags)
    (houtbox : db.outbox = st.db.outbox) (hthere : taskId ∈ db.tasks.map Task.id) :
    Passes db (stagedWrites taskId minted retag rows) := by
  cases hstage with
  | omitted =>
    show Passes db ([] ++ (rows.map .insertOutbox ++ [] ++ []))
    rw [List.nil_append, List.append_nil, List.append_nil]
    exact passes_rows htold hrows htexts houtbox
  | @kept names before found _ hbefore hresolved =>
    show Passes db ([] ++ (rows.map .insertOutbox ++ minted.map .insertTag ++ []))
    rw [List.nil_append, List.append_nil]
    refine passes_append.2 ⟨passes_rows htold hrows htexts houtbox, ?_⟩
    exact passes_minted hst htold hresolved hfits (by rw [view_insertOutbox]; exact htags)
  | @changed names before found _ gone hbefore hresolved hdiffers hgone =>
    show Passes db ((minted.map .insertTag ++ [.deleteTaskTags gone])
      ++ (rows.map .insertOutbox ++ [] ++ (linksTo taskId (found ++ minted)).map .insertTaskTag))
    rw [List.append_nil]
    refine passes_append.2 ⟨passes_append.2
      ⟨passes_minted hst htold hresolved hfits htags, rfl, trivial⟩, ?_⟩
    refine passes_append.2 ⟨passes_rows htold hrows htexts ?_,
      passes_links hst htold.lasts hresolved
      hgone ?_ ?_ ?_⟩
    · simp [view_insertTag, Write.apply, houtbox]
    · simpa [view_insertTag, view_insertOutbox, Write.apply] using hthere
    · simp [view_insertTag, view_insertOutbox, Write.apply, htags]
    · simp [view_insertTag, view_insertOutbox, Write.apply, hlinks]

/-- So they do after nothing else. -/
theorem passes_staged (hst : Consistent st.db) (htold : Truthful st told) {taskId : Uuid}
    {asked : Option (List PyStr)} {minted : List Tag} {retag : Option Retag}
    {event : Option EventBody} {bodies : List EventBody}
    (hstage : TagStage taskId told asked minted retag event) (hfits : ∀ t ∈ minted, TagFits t)
    (hrows : Staged bodies rows told) (htexts : ∀ body ∈ bodies, ∀ s ∈ body.texts, Storable s)
    (hthere : taskId ∈ st.db.tasks.map Task.id) :
    Passes st.db (stagedWrites taskId minted retag rows) :=
  passes_staged_beside hst htold hstage hfits hrows htexts rfl rfl rfl hthere

end Changes

end TaskService.Sequential
