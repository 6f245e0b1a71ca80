import TaskService.Sequential.Tags

/-!
# The event on a task's tags

`_stage_tags` compares the names of a request, as they are spelled there, with the names the task's
tags are shown under, and reports those spellings. A tag is found by its key and shown under the
name it was made with. So the event is right exactly when the request spells every name as its tag
does.

* **`tellsTags_iff`**: after `_stage_tags` the event is right exactly when the request is `Spelled`.
* **`tags_told`**: the same of every call.
-/

namespace TaskService.Sequential

open Store Tasks Tags Workflows Concurrency Sessions

/-! ## The event and the change -/

/-- The events a call has staged. -/
def staged (db db' : Db) : List EventBody :=
  (db'.outbox.drop db.outbox.length).map fun r => r.event.body

def isTagsChanged : EventBody → Bool
  | .taskTagsChanged .. => true
  | _ => false

/-- The tags linked to a task. -/
def linkedTags (db : Db) (taskId : Uuid) : Finset Uuid :=
  ((db.linksOf taskId).map TaskTag.tagId).toFinset

/-- The event that tells how the names of a task's tags have changed. -/
def tagsMoved (db db' : Db) (taskId : Uuid) : EventBody :=
  .taskTagsChanged taskId (db'.tagNames taskId)
    (sortedSet ((db'.tagNames taskId).filter (· ∉ db.tagNames taskId)))
    (sortedSet ((db.tagNames taskId).filter (· ∉ db'.tagNames taskId)))

/-- **The event tells the truth**: it is staged when the tags differ, and then it tells how. -/
structure TellsTags (db db' : Db) (taskId : Uuid) : Prop where
  staged_iff : (∃ body ∈ staged db db', isTagsChanged body = true)
    ↔ linkedTags db' taskId ≠ linkedTags db taskId
  truth : ∀ body ∈ staged db db', isTagsChanged body = true → body = tagsMoved db db' taskId

/-- Every name is spelled as the tag of its key: as the stored one, or as the first name of the
request with that key. -/
def Spelled [Unicode] (db : Db) (names : List PyStr) : Prop :=
  ∀ name ∈ names,
    (∀ tag ∈ db.tags, tag.nameKey = Tag.normalizeName name → tag.name = strip name)
    ∧ (Tag.normalizeName name ∉ tagKeys db →
        ∀ first ∈ names.find? (fun other => Tag.normalizeName other = Tag.normalizeName name),
          strip first = strip name)

instance [Unicode] (db : Db) (names : List PyStr) : Decidable (Spelled db names) := by
  unfold Spelled
  infer_instance

/-! ## Sorted names -/

theorem mem_linkedTags {db : Db} {taskId id : Uuid} :
    id ∈ linkedTags db taskId ↔ ⟨taskId, id⟩ ∈ db.taskTags := by
  simp only [linkedTags, List.mem_toFinset, List.mem_map, mem_linksOf]
  constructor
  · rintro ⟨⟨taskId', id'⟩, ⟨hl, rfl⟩, rfl⟩
    exact hl
  · intro hl
    exact ⟨_, ⟨hl, rfl⟩, rfl⟩

/-- A sorted set is known by its elements. -/
theorem sortedSet_congr {xs ys : List PyStr} (h : ∀ x, x ∈ xs ↔ x ∈ ys) :
    sortedSet xs = sortedSet ys := by
  have hperm : xs.dedup.Perm ys.dedup := by
    refine (List.perm_ext_iff_of_nodup (List.nodup_dedup xs) (List.nodup_dedup ys)).2 fun x => ?_
    rw [List.mem_dedup, List.mem_dedup, h]
  refine List.Perm.eq_of_pairwise' (List.pairwise_insertionSort _ _)
    (List.pairwise_insertionSort _ _) ?_
  exact (List.perm_insertionSort _ _).trans (hperm.trans (List.perm_insertionSort _ _).symm)

theorem mem_sortedSet {xs : List PyStr} {x : PyStr} : x ∈ sortedSet xs ↔ x ∈ xs := by
  rw [sortedSet, List.mem_insertionSort, List.mem_dedup]

/-- The names of a task's tags are distinct, and sorted. -/
theorem Consistent.sortedSet_tagNames [Unicode] {db : Db} (h : Consistent db) (taskId : Uuid) :
    sortedSet (db.tagNames taskId) = db.tagNames taskId := by
  have hkeys : (db.tagsOf taskId).map Tag.nameKey
      = ((db.tagsOf taskId).map Tag.name).map Tag.normalizeName := by
    rw [List.map_map]
    exact List.map_congr_left fun t ht => (h.keyed t (mem_tagsOf.1 ht).1).1
  have hdistinct : ((db.tagsOf taskId).map Tag.nameKey).Nodup :=
    h.keys.sublist (List.filter_sublist.map _)
  rw [hkeys] at hdistinct
  have hnodup : (db.tagNames taskId).Nodup :=
    (List.perm_insertionSort _ _).nodup_iff.2 (hdistinct.of_map _)
  rw [sortedSet, hnodup.dedup]
  exact (List.pairwise_insertionSort _ _).insertionSort_eq

/-! ## After `_stage_tags` -/

section Stage

variable [Unicode] {taskId : Uuid} {told : Told} {names : List PyStr} {rows minted : List Tag}
  {gone : List TaskTag} {db db' : Db}

/-- Spelled as the tags are once the request has been served. -/
theorem spelled_iff (hresolved : Resolved names rows minted told) (hrows : rows = rowsFor names db)
    (htags : db'.tags = db.tags ++ minted) : Spelled db names ↔
      ∀ name ∈ names, ∀ tag ∈ db'.tags, tag.nameKey = Tag.normalizeName name →
      tag.name = strip name := by
  refine forall₂_congr fun name hname => ?_
  rw [htags]
  constructor
  · rintro ⟨hstored, hfirst⟩ tag htag hkey
    rcases List.mem_append.1 htag with htag | htag
    · exact hstored tag htag hkey
    · obtain ⟨first, hfind, hspelled⟩ := hresolved.spelled htag
      have hfree := hresolved.unstored hrows htag
      rw [hkey] at hfind hfree
      exact hspelled.trans (hfirst hfree first hfind)
  · intro hall
    refine ⟨fun tag htag => hall tag (List.mem_append_left _ htag), fun hfree first hfind => ?_⟩
    -- a key without a stored tag got one, spelled as the first name of the key
    obtain ⟨tag, htag, hkey⟩ := List.mem_map.1 (hresolved.mem_keys.2 ⟨name, hname, rfl⟩)
    have hminted : tag ∈ minted := by
      refine (List.mem_append.1 htag).resolve_left fun hrow => hfree ?_
      rw [← hkey]
      exact List.mem_map_of_mem (List.mem_filter.1 (hrows ▸ hrow)).1
    obtain ⟨first', hfind', hspelled⟩ := hresolved.spelled hminted
    rw [hkey] at hfind'
    obtain rfl := Option.some.inj (hfind.symm.trans hfind')
    exact hspelled.symm.trans (hall tag (List.mem_append_right _ hminted) hkey)

/-- A request that changes nothing is spelled as its tags are. -/
theorem Consistent.spelled_of_kept {retag : Option Retag} (hdb : Consistent db)
    (htold : ∀ answer ∈ told, answer.Holds db)
    (hstage : TagStage taskId told (some names) minted retag none) : Spelled db names := by
  cases hstage with
  | @kept _ before rows _ hbefore hresolved hsame =>
    have hshown : before = db.tagNames taskId := htold _ hbefore
    intro name hname
    have hmem : strip name ∈ before := by
      rw [← List.mem_toFinset, hsame, List.mem_toFinset]
      exact mem_displayNames.2 ⟨name, hname, hresolved.nonblank name hname, rfl⟩
    obtain ⟨t, ht, -, hspelled⟩ := mem_tagNames.1 (hshown ▸ hmem)
    have hkey : t.nameKey = Tag.normalizeName name := by
      rw [(hdb.keyed t ht).1, hspelled, Tag.normalizeName_strip]
    refine ⟨fun tag htag hsame => ?_, fun hfree => absurd (List.mem_map.2 ⟨t, ht, hkey⟩) hfree⟩
    rw [List.inj_on_of_nodup_map hdb.keys htag ht (hsame.trans hkey.symm)]
    exact hspelled

/-- A tag is linked after the request when its key is one of the request. -/
theorem linked_iff (hdb' : Consistent db')
    (hkeys : ∀ key, key ∈ linkedKeys db' taskId ↔ ∃ name ∈ names, Tag.normalizeName name = key)
    {t : Tag} (ht : t ∈ db'.tags) :
    ⟨taskId, t.id⟩ ∈ db'.taskTags ↔ ∃ name ∈ names, Tag.normalizeName name = t.nameKey := by
  rw [← hkeys, mem_linkedKeys]
  constructor
  · exact fun hl => ⟨t, ht, hl, rfl⟩
  · rintro ⟨t', ht', hl, hkey⟩
    rw [← List.inj_on_of_nodup_map hdb'.keys ht' ht hkey]
    exact hl

/-- Then the names shown for the task are those of the request. -/
theorem shown_iff (hdb' : Consistent db') (hnonblank : ∀ name ∈ names, ¬ Blank name)
    (hkeys : ∀ key, key ∈ linkedKeys db' taskId ↔ ∃ name ∈ names, Tag.normalizeName name = key)
    (hspelled : ∀ name ∈ names, ∀ tag ∈ db'.tags, tag.nameKey = Tag.normalizeName name →
      tag.name = strip name) {n : PyStr} : n ∈ displayNames names ↔ n ∈ db'.tagNames taskId := by
  rw [mem_displayNames, mem_tagNames]
  constructor
  · rintro ⟨name, hname, -, rfl⟩
    obtain ⟨t, ht, hl, hkey⟩ := mem_linkedKeys.1 ((hkeys _).2 ⟨name, hname, rfl⟩)
    exact ⟨t, ht, hl, hspelled name hname t ht hkey⟩
  · rintro ⟨t, ht, hl, rfl⟩
    obtain ⟨name, hname, hkey⟩ := (linked_iff hdb' hkeys ht).1 hl
    exact ⟨name, hname, hnonblank name hname, (hspelled name hname t ht hkey.symm).symm⟩

/-- When the linked tags are the same, so are their names. -/
theorem mem_tagNames_congr (hdb : Consistent db) (hdb' : Consistent db')
    (htags : db'.tags = db.tags ++ minted) (hlinked : linkedTags db' taskId = linkedTags db taskId)
    {n : PyStr} : n ∈ db'.tagNames taskId ↔ n ∈ db.tagNames taskId := by
  have hids := hdb'.ids
  rw [mem_tagNames, mem_tagNames, htags]
  rw [htags] at hids
  refine exists_congr fun t => ?_
  rw [← mem_linkedTags, hlinked, mem_linkedTags]
  refine and_congr_left fun hlink => ⟨fun ht => ?_, List.mem_append_left _⟩
  obtain ⟨t', ht', hid⟩ := List.mem_map.1 (hdb.linked.tag _ hlink.1)
  exact eq_of_tagId hids (List.mem_append_left _ ht') ht hid ▸ ht'

/-- The event of a change is right when the names shown are those of the request. -/
theorem tagsChanged_eq (hdb' : Consistent db')
    (hshown : ∀ n, n ∈ displayNames names ↔ n ∈ db'.tagNames taskId) :
    tagsChanged taskId (db.tagNames taskId) names = tagsMoved db db' taskId := by
  rw [tagsChanged, tagsMoved, ← hdb'.sortedSet_tagNames taskId, sortedSet_congr hshown,
    hdb'.sortedSet_tagNames taskId]
  congr 1
  · refine sortedSet_congr fun n => ?_
    rw [List.mem_filter, List.mem_filter, hshown]
  · refine sortedSet_congr fun n => ?_
    rw [List.mem_filter, List.mem_filter, decide_eq_true_eq, decide_eq_true_eq, hshown]

/-- **After `_stage_tags` the event is right exactly when the request is spelled as its
tags are.** -/
theorem tellsTags_iff {asked : Option (List PyStr)} {retag : Option Retag}
    {event : Option EventBody}
    (hdb : Consistent db) (hdb' : Consistent db') (htold : ∀ answer ∈ told, answer.Holds db)
    (hstage : TagStage taskId told asked minted retag event)
    (htags : db'.tags = db.tags ++ minted)
    (hlinks : db'.taskTags = relinked db.taskTags taskId retag)
    (hevents : ∀ body, body ∈ staged db db' ∧ isTagsChanged body = true ↔ body ∈ event) :
    TellsTags db db' taskId ↔ Spelled db (asked.getD []) := by
  -- without a change there is nothing to tell
  have hquiet : event = none → retag = none → TellsTags db db' taskId := by
    rintro rfl rfl
    refine ⟨⟨?_, fun hne => absurd ?_ hne⟩, fun body hbody htagsChanged => ?_⟩
    · rintro ⟨body, hbody⟩
      cases (hevents body).1 hbody
    · rw [linkedTags, linkedTags, Db.linksOf, Db.linksOf, hlinks]
      rfl
    · cases (hevents body).1 ⟨hbody, htagsChanged⟩
  cases hstage with
  | omitted => exact ⟨fun _ _ hname => absurd hname List.not_mem_nil, fun _ => hquiet rfl rfl⟩
  | kept hbefore hresolved hsame =>
    exact ⟨fun _ => hdb.spelled_of_kept htold (.kept hbefore hresolved hsame),
      fun _ => hquiet rfl rfl⟩
  | @changed names before rows _ gone hbefore hresolved hdiffers hgone =>
    have hshownBefore : before = db.tagNames taskId := htold _ hbefore
    have hkeys : ∀ key, key ∈ linkedKeys db' taskId
        ↔ ∃ name ∈ names, Tag.normalizeName name = key :=
      fun key => mem_linkedKeys_of_stage hdb hdb' (fun a ha => (htold a ha).lasts)
        (.changed hbefore hresolved hdiffers hgone)
        htags hlinks
    have hstaged : tagsChanged taskId (db.tagNames taskId) names ∈ staged db db' := by
      rw [← hshownBefore]
      exact ((hevents _).2 rfl).1
    show TellsTags db db' taskId ↔ Spelled db names
    rw [spelled_iff hresolved (hresolved.rows_eq htold) htags]
    constructor
    · -- a name the event tells is shown for a linked tag, and that is the tag of its key
      intro htells name hname tag htag hkey
      have hsame := htells.truth _ hstaged rfl
      have hnames : sortedSet (displayNames names) = db'.tagNames taskId :=
        (EventBody.taskTagsChanged.inj hsame).2.1
      have hmem : strip name ∈ db'.tagNames taskId := by
        rw [← hnames, mem_sortedSet]
        exact mem_displayNames.2 ⟨name, hname, hresolved.nonblank name hname, rfl⟩
      obtain ⟨t, ht, -, hspelled⟩ := mem_tagNames.1 hmem
      have hsameKey : t.nameKey = tag.nameKey := by
        rw [(hdb'.keyed t ht).1, hspelled, Tag.normalizeName_strip, hkey]
      rw [← List.inj_on_of_nodup_map hdb'.keys ht htag hsameKey]
      exact hspelled
    · intro hspelled
      have hshown : ∀ n, n ∈ displayNames names ↔ n ∈ db'.tagNames taskId :=
        fun n => shown_iff hdb' hresolved.nonblank hkeys hspelled
      refine ⟨⟨fun _ hlinked => hdiffers ?_, fun _ => ⟨_, hstaged, rfl⟩⟩,
        fun body hbody hchanged => ?_⟩
      · -- the same tags would be shown under the same names
        ext n
        rw [List.mem_toFinset, List.mem_toFinset, hshown, hshownBefore]
        exact (mem_tagNames_congr hdb hdb' htags hlinked).symm
      · obtain rfl := Option.some.inj ((hevents body).1 ⟨hbody, hchanged⟩)
        rw [hshownBefore]
        exact tagsChanged_eq hdb' hshown

end Stage

/-! ## Every call -/

section Calls

variable [Unicode] [Jsonb] [Runtime]

/-- The call can change the tags of a task. -/
def setsTags : Call → Bool
  | .create .. | .replace .. | .patch .. => true
  | _ => false

omit [Unicode] [Jsonb] [Runtime] in
/-- The events that joined the outbox. -/
theorem mem_staged {db db' : Db} {rows : List (OutboxRecord Event)}
    (h : db'.outbox = db.outbox ++ rows)
    {body : EventBody} : body ∈ staged db db' ↔ body ∈ rows.map fun r => r.event.body := by
  rw [staged, h, List.drop_left]

omit [Unicode] [Jsonb] [Runtime] in
theorem not_tagsChanged_updateBodies {updated previous : Task} {completes : Bool} :
    ∀ body ∈ updateBodies updated previous completes, isTagsChanged body = false := by
  unfold updateBodies
  split
  · simp
  · refine List.forall_mem_cons.2 ⟨rfl, ?_⟩
    split
    · simp
    · refine List.forall_mem_cons.2 ⟨rfl, ?_⟩
      split <;> simp [isTagsChanged]

omit [Jsonb] [Runtime] in
/-- The event on tags is one. -/
theorem isTagsChanged_of_stage {taskId : Uuid} {told : Told} {names : Option (List PyStr)}
    {minted : List Tag} {retag : Option Retag} {event : Option EventBody}
    (h : TagStage taskId told names minted retag event) :
    ∀ body ∈ event, isTagsChanged body = true := by
  cases h with
  | changed =>
    intro body hbody
    obtain rfl := Option.some.inj hbody
    rfl
  | _ => exact fun _ hbody => (nomatch hbody)

omit [Jsonb] [Runtime] in
/-- Of the events of a write, the one on tags is that of `_stage_tags`. -/
theorem staged_tagsChanged_iff {taskId : Uuid} {told : Told} {names : Option (List PyStr)}
    {minted : List Tag} {retag : Option Retag} {event : Option EventBody} {db db' : Db}
    {others : List EventBody} {rows : List (OutboxRecord Event)}
    (hstage : TagStage taskId told names minted retag event)
    (houtbox : db'.outbox = db.outbox ++ rows) (hrows : Staged (others ++ event.toList) rows told)
    (hothers : ∀ body ∈ others, isTagsChanged body = false) (body : EventBody) :
    body ∈ staged db db' ∧ isTagsChanged body = true ↔ body ∈ event := by
  rw [mem_staged houtbox, hrows.bodies, List.mem_append, Option.mem_toList]
  constructor
  · rintro ⟨hother | hevent, htagsChanged⟩
    · rw [hothers body hother] at htagsChanged
      cases htagsChanged
    · exact hevent
  · exact fun hevent => ⟨.inr hevent, isTagsChanged_of_stage hstage body hevent⟩

omit [Unicode] [Jsonb] [Runtime] in
/-- The names staged are those supplied, or none. -/
theorem Asks.getD_eq {call : Call} {links : List TaskTag} {asked : Option (List PyStr)}
    (h : Asks call links asked) : asked.getD [] = (suppliedTags call).getD [] := by
  cases h with
  | staged => rfl
  | omitted hnone => rw [hnone]
  | unlinked hempty => exact hempty.symm

omit [Runtime] in
/-- **What the event on tags tells after a commit.** -/
theorem tellsTags_of_effect {st : Server} {told : Told} {tx : Tx} {call : Call} {db' : Db}
    (htold : Truthful st told) (hdb : Consistent st.db) (hdb' : Consistent db')
    (hcall : setsTags call = true) (h : Effect told tx st.db call db') :
    ∃ taskId, About st.db db' call taskId
      ∧ (TellsTags st.db db' taskId ↔ Spelled st.db ((suppliedTags call).getD [])) := by
  cases h with
  | @created title description status priority tags task minted retag event rows htask
      hstage hrows =>
    refine ⟨task.id, .added rfl, ?_⟩
    have hasks := @asks_create title description status priority tags _
      (linksOf_drawn hdb (htold.fresh _ htask.drawn))
    rw [← hasks.getD_eq]
    have hevents : Staged ([.taskCreated task] ++ event.toList) rows told := hrows
    refine tellsTags_iff hdb hdb' htold.holds hstage rfl rfl ?_
    exact staged_tagsChanged_iff hstage rfl hevents (by simp [isTagsChanged])
  | @changed _ taskId names engine previous updated minted retag event rows htask hstage hrows =>
    obtain ⟨htaskOf, hasks⟩ := asks_of_changes (st.db.linksOf taskId) htask
    refine ⟨taskId, .named htaskOf, ?_⟩
    obtain ⟨completes, hstaged, -⟩ := hrows.staged
    rw [← hasks.getD_eq]
    refine tellsTags_iff hdb hdb' htold.holds hstage rfl rfl ?_
    exact staged_tagsChanged_iff hstage rfl hstaged not_tagsChanged_updateBodies
  | deleted | tagDeleted | defined | seeded => cases hcall

omit [Unicode] [Jsonb] [Runtime] in
theorem staged_self (db : Db) : staged db db = [] := by
  rw [staged, List.drop_length, List.map_nil]

omit [Unicode] [Jsonb] [Runtime] in
/-- Nothing is told when nothing is committed. -/
theorem tellsTags_self (db : Db) (taskId : Uuid) : TellsTags db db taskId := by
  refine ⟨⟨fun ⟨body, hbody, _⟩ => ?_, fun hne => absurd rfl hne⟩, fun body hbody => ?_⟩ <;>
    · rw [staged_self] at hbody
      cases hbody

/-- **The event on tags tells the truth exactly when the request spells every name as its tag
does**, for every call that can change the tags of a task and returns; a call that raises tells
nothing and changes nothing. -/
theorem tags_told {st : Server} (h : Committed st) (call : Call) (hcall : setsTags call = true) :
    (∀ reply, (serve call st).1 = .ok reply → ∃ taskId, About st.db (serve call st).2.db call taskId
        ∧ (TellsTags st.db (serve call st).2.db taskId
            ↔ Spelled st.db ((suppliedTags call).getD [])))
      ∧ ∀ e, (serve call st).1 = .error e → ∀ taskId,
        TellsTags st.db (serve call st).2.db taskId := by
  have hdb := h.consistent
  have hdb' := (h.serve call).consistent
  have hserves := serve_cases h call
  generalize (serve call st).2.db = db' at hserves hdb' ⊢
  generalize (serve call st).1 = r at hserves ⊢
  constructor
  · rintro reply rfl
    cases hserves with
    | saved htold hcommits =>
      exact tellsTags_of_effect htold hdb hdb' hcall (hcommits.effect st.db)
    | rested htold hrests =>
      have hspelled : ∀ {taskId asked minted retag told} (_ : ∀ answer ∈ told, answer.Holds st.db),
          Asks call (st.db.linksOf taskId) asked → TagStage taskId told asked minted retag none →
            Spelled st.db ((suppliedTags call).getD []) := by
        intro taskId asked minted retag told htold hasks hstage
        rw [← hasks.getD_eq]
        cases asked with
        | none => exact fun _ hname => (nomatch hname)
        | some names => exact hdb.spelled_of_kept htold hstage
      cases hrests with
      | @replace taskId title description status priority tags roles engine previous updated minted
          retag told htask hstage =>
        obtain ⟨htaskOf, hasks⟩ := asks_of_changes (st.db.linksOf taskId) (.replace htask)
        exact ⟨taskId, .named htaskOf, fun _ => hspelled htold.holds hasks hstage,
          fun _ => tellsTags_self st.db taskId⟩
      | @patch taskId fields roles engine previous updated minted retag told htask hstage =>
        obtain ⟨htaskOf, hasks⟩ := asks_of_changes (st.db.linksOf taskId) (.patch htask)
        exact ⟨taskId, .named htaskOf, fun _ => hspelled htold.holds hasks hstage,
          fun _ => tellsTags_self st.db taskId⟩
      | legalMoves | seed => cases hcall
  · rintro e rfl taskId
    cases hserves with
    | raised => exact tellsTags_self st.db taskId

end Calls

/-! ## Another spelling -/

section Spelling

open Plain

/-- A task with one tag, shown as `Urgent`. -/
def tagged : Server := (serve (.create (py "A") none none 3 (some [py "Urgent"])) defined).2

theorem committed_tagged : Committed tagged := reachable_defined.committed.serve _

/-- A patch that names the tag as it is shown, and a new one. -/
def spelled : Call := .patch forkTask (tagsPatch [py "Urgent", py "new", py " new"]) []

theorem tags_told_spelled : ∃ reply taskId, (serve spelled tagged).1 = .ok reply
    ∧ About tagged.db (serve spelled tagged).2.db spelled taskId
    ∧ TellsTags tagged.db (serve spelled tagged).2.db taskId := by
  have hok : (serve spelled tagged).1.isOk = true := by decide +kernel
  have hspelled : Spelled tagged.db ((suppliedTags spelled).getD []) := by decide +kernel
  cases hreply : (serve spelled tagged).1 with
  | error e =>
    rw [hreply] at hok
    cases hok
  | ok reply =>
    obtain ⟨taskId, habout, htells⟩ := (tags_told committed_tagged spelled rfl).1 reply hreply
    exact ⟨reply, taskId, rfl, habout, htells.2 hspelled⟩

/-- A patch that names the tag in another spelling. -/
def respelled : Call := .patch forkTask (tagsPatch [py "urgent"]) []

/-- **The event is staged though the task keeps its one tag.** -/
theorem respelling_told : Committed tagged ∧ (serve respelled tagged).1.isOk = true
    ∧ About tagged.db (serve respelled tagged).2.db respelled forkTask
    ∧ ¬ TellsTags tagged.db (serve respelled tagged).2.db forkTask := by
  refine ⟨committed_tagged, by decide +kernel, .named rfl, fun htells => ?_⟩
  have hstaged : (staged tagged.db (serve respelled tagged).2.db).any isTagsChanged = true := by
    decide +kernel
  have hsame :
      linkedTags (serve respelled tagged).2.db forkTask = linkedTags tagged.db forkTask := by
    decide +kernel
  exact htells.staged_iff.1 (List.any_eq_true.1 hstaged) hsame

end Spelling

end TaskService.Sequential
