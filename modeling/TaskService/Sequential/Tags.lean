import TaskService.Sequential.Runs
import TaskService.Sessions.Limits

/-!
# The tags of a task, one call after the other

A call that supplies tag names leaves its task linked to one tag for each key of these names, and to
no other; it touches no other task's links, and adds to the vocabulary only what it needs. A call
that raises changes neither.

* **`mem_linkedKeys_of_stage`**: after `_stage_tags` the linked keys are those of the request, also
  when it returns early.
* **`tags_replaced`**: what every call does to links and vocabulary.
-/

namespace TaskService.Sequential

open Store Tasks Tags Workflows Concurrency Sessions

/-! ## Linked keys -/

/-- The keys of the tags linked to a task, one for each link (a join of `task_tags` and `tags`). -/
def linkedKeys (db : Db) (taskId : Uuid) : List PyStr :=
  (db.linksOf taskId).flatMap fun l => (db.tags.filter fun t => t.id = l.tagId).map Tag.nameKey

theorem mem_linksOf {db : Db} {taskId : Uuid} {l : TaskTag} :
    l ∈ db.linksOf taskId ↔ l ∈ db.taskTags ∧ l.taskId = taskId := by
  rw [Db.linksOf, List.mem_filter, decide_eq_true_eq]

theorem mem_linkedKeys {db : Db} {taskId : Uuid} {key : PyStr} :
    key ∈ linkedKeys db taskId ↔ ∃ t ∈ db.tags, ⟨taskId, t.id⟩ ∈ db.taskTags ∧ t.nameKey = key := by
  simp only [linkedKeys, List.mem_flatMap, List.mem_map, List.mem_filter, decide_eq_true_eq,
    mem_linksOf]
  constructor
  · rintro ⟨⟨taskId', tagId⟩, ⟨hl, rfl⟩, t, ⟨ht, rfl⟩, rfl⟩
    exact ⟨t, ht, hl, rfl⟩
  · rintro ⟨t, ht, hl, rfl⟩
    exact ⟨⟨taskId, t.id⟩, ⟨hl, rfl⟩, t, ⟨ht, rfl⟩, rfl⟩

theorem mem_tagsOf {db : Db} {taskId : Uuid} {t : Tag} :
    t ∈ db.tagsOf taskId ↔ t ∈ db.tags ∧ ⟨taskId, t.id⟩ ∈ db.taskTags := by
  rw [Db.tagsOf, List.mem_filter, decide_eq_true_eq]

theorem mem_tagNames {db : Db} {taskId : Uuid} {name : PyStr} :
    name ∈ db.tagNames taskId ↔ ∃ t ∈ db.tags, ⟨taskId, t.id⟩ ∈ db.taskTags ∧ t.name = name := by
  rw [Db.tagNames, List.mem_insertionSort, List.mem_map]
  simp only [mem_tagsOf, and_assoc]

/-- What is known of the vocabulary and the links. -/
structure Consistent [Unicode] (db : Db) : Prop where
  ids : (db.tags.map Tag.id).Nodup
  keys : (tagKeys db).Nodup
  keyed : ∀ t ∈ db.tags, t.Keyed
  links : db.taskTags.Nodup
  linked : Linked db

/-- Two stored tags with one id are one. -/
theorem eq_of_tagId {tags : List Tag} (h : (tags.map Tag.id).Nodup) {t t' : Tag} (ht : t ∈ tags)
    (ht' : t' ∈ tags) (hid : t.id = t'.id) : t = t' := List.inj_on_of_nodup_map h ht ht' hid

/-- **Each key is linked once.** -/
theorem Consistent.nodup_linkedKeys [Unicode] {db : Db} (h : Consistent db) (taskId : Uuid) :
    (linkedKeys db taskId).Nodup := by
  refine List.nodup_flatMap.2 ⟨fun l _ => ?_, ?_⟩
  · exact h.keys.sublist (List.filter_sublist.map _)
  · -- two links of the task go to two tags, which have two keys
    refine List.Nodup.pairwise_of_forall_ne (h.links.sublist List.filter_sublist) ?_
    intro l hl l' hl' hne key hkey hkey'
    obtain ⟨t, ht, rfl⟩ := List.mem_map.1 hkey
    obtain ⟨t', ht', hsame⟩ := List.mem_map.1 hkey'
    obtain ⟨htag, hid⟩ := List.mem_filter.1 ht
    obtain ⟨htag', hid'⟩ := List.mem_filter.1 ht'
    obtain rfl := List.inj_on_of_nodup_map h.keys htag' htag hsame
    have htasks : l.taskId = l'.taskId := (mem_linksOf.1 hl).2.trans (mem_linksOf.1 hl').2.symm
    have htags : l.tagId = l'.tagId :=
      (of_decide_eq_true hid).symm.trans (of_decide_eq_true hid')
    refine hne ?_
    cases l
    cases l'
    simp_all

/-- A task no link of which has a tag has no links. -/
theorem Consistent.linksOf_eq_nil [Unicode] {db : Db} (h : Consistent db) {taskId : Uuid}
    (hnone : ∀ key, key ∉ linkedKeys db taskId) : db.linksOf taskId = [] := by
  refine List.eq_nil_iff_forall_not_mem.2 fun l hl => ?_
  obtain ⟨hmem, rfl⟩ := mem_linksOf.1 hl
  obtain ⟨t, ht, hid⟩ := List.mem_map.1 (h.linked.tag l hmem)
  exact hnone t.nameKey (mem_linkedKeys.2 ⟨t, ht, hid ▸ hmem, rfl⟩)

section Consistent

variable [Unicode] [Jsonb] [Runtime]

/-- **What is committed is consistent.** -/
theorem Committed.consistent {st : Server} (h : Committed st) : Consistent st.db where
  ids := nodup_tags_of_reachable h.idle
  keys := by
    have hkeys : (tagKeys st.db ++ []).Nodup := unique_keys_of_reachable h.idle
    rwa [List.append_nil] at hkeys
  keyed := keyed_of_reachable h.idle
  links := nodup_links_of_reachable h.idle
  linked := linked_of_reachable h.idle

end Consistent

/-! ## What `_stage_tags` leaves -/

section Stage

variable [Unicode]

omit [Unicode] in
theorem mem_displayNames {names : List PyStr} {n : PyStr} :
    n ∈ displayNames names ↔ ∃ name ∈ names, ¬ Blank name ∧ strip name = n := by
  simp only [displayNames, List.mem_map, List.mem_filter, decide_eq_true_eq, and_assoc]

/-- The names shown have the keys of the names sent. -/
theorem mem_keys_displayNames {names : List PyStr} (h : ∀ name ∈ names, ¬ Blank name)
    {key : PyStr} :
    (∃ n ∈ displayNames names, Tag.normalizeName n = key)
      ↔ ∃ name ∈ names, Tag.normalizeName name = key := by
  constructor
  · rintro ⟨n, hn, rfl⟩
    obtain ⟨name, hname, -, rfl⟩ := mem_displayNames.1 hn
    exact ⟨name, hname, (Tag.normalizeName_strip name).symm⟩
  · rintro ⟨name, hname, rfl⟩
    exact ⟨strip name, mem_displayNames.2 ⟨name, hname, h name hname, rfl⟩,
      Tag.normalizeName_strip name⟩

/-- The keys linked to a task are those of the names shown for it. -/
theorem Consistent.mem_linkedKeys {db : Db} (h : Consistent db) {taskId : Uuid} {key : PyStr} :
    key ∈ linkedKeys db taskId ↔ ∃ n ∈ db.tagNames taskId, Tag.normalizeName n = key := by
  rw [Sequential.mem_linkedKeys]
  constructor
  · rintro ⟨t, ht, hl, rfl⟩
    exact ⟨t.name, mem_tagNames.2 ⟨t, ht, hl, rfl⟩, (h.keyed t ht).1.symm⟩
  · rintro ⟨n, hn, rfl⟩
    obtain ⟨t, ht, hl, rfl⟩ := mem_tagNames.1 hn
    exact ⟨t, ht, hl, (h.keyed t ht).1⟩

variable {taskId : Uuid} {told : Told} {names : List PyStr} {minted : List Tag}
  {retag : Option Retag} {event : Option EventBody} {db db' : Db}

/-- **The early return is right**: names that are those shown already have the keys that are linked
already. -/
theorem Consistent.keys_kept (h : Consistent db) (hlasts : ∀ answer ∈ told, answer.Lasts db)
    (hstage : TagStage taskId told (some names) minted none event) {key : PyStr} :
    key ∈ linkedKeys db taskId ↔ ∃ name ∈ names, Tag.normalizeName name = key := by
  cases hstage with
  | @kept _ before rows _ hbefore hresolved hsame =>
    have hshown : before = db.tagNames taskId := hlasts _ hbefore
    rw [h.mem_linkedKeys, ← mem_keys_displayNames hresolved.nonblank]
    refine exists_congr fun n => and_congr_left fun _ => ?_
    rw [← List.mem_toFinset, ← List.mem_toFinset, ← hsame, hshown]

/-- **After `_stage_tags` the linked keys are those of the request.** -/
theorem mem_linkedKeys_of_stage (hdb : Consistent db) (hdb' : Consistent db')
    (hlasts : ∀ answer ∈ told, answer.Lasts db)
    (hstage : TagStage taskId told (some names) minted retag event)
    (htags : db'.tags = db.tags ++ minted)
    (hlinks : db'.taskTags = relinked db.taskTags taskId retag) {key : PyStr} :
    key ∈ linkedKeys db' taskId ↔ ∃ name ∈ names, Tag.normalizeName name = key := by
  have hids := hdb'.ids
  rw [htags] at hids
  cases retag with
  | none =>
    -- nothing is relinked, and a tag that is linked was stored before
    rw [← hdb.keys_kept hlasts hstage, mem_linkedKeys, mem_linkedKeys, htags, hlinks]
    refine exists_congr fun t => and_congr_left fun hkey => ?_
    refine ⟨fun ht => ?_, List.mem_append_left _⟩
    obtain ⟨t', ht', hid⟩ := List.mem_map.1 (hdb.linked.tag _ hkey.1)
    exact eq_of_tagId hids (List.mem_append_left _ ht') ht hid ▸ ht'
  | some change =>
    cases hstage with
    | @changed _ before rows _ gone hbefore hresolved hdiffers hgone =>
      have hall : gone = db.linksOf taskId := hlasts _ hgone
      have hfound := hresolved.found hlasts
      have hmem : ∀ id, TaskTag.mk taskId id ∈ db'.taskTags ↔ id ∈ (rows ++ minted).map Tag.id := by
        intro id
        have hlink : TaskTag.mk taskId id ∈ linksTo taskId (rows ++ minted)
            ↔ id ∈ (rows ++ minted).map Tag.id := by
          simp [linksTo, fromKeys, or_comm]
        rw [hlinks, relinked, List.mem_append, hlink]
        refine or_iff_right fun hold => ?_
        obtain ⟨hstored, hkept⟩ := List.mem_filter.1 hold
        exact of_decide_eq_true hkept (hall ▸ mem_linksOf.2 ⟨hstored, rfl⟩)
      rw [mem_linkedKeys, ← hresolved.mem_keys, List.mem_map, htags]
      refine exists_congr fun t => ?_
      rw [hmem, ← and_assoc]
      refine and_congr_left fun _ => ⟨?_, fun ht => ⟨?_, List.mem_map_of_mem ht⟩⟩
      · rintro ⟨ht, hid⟩
        obtain ⟨t', ht', hid⟩ := List.mem_map.1 hid
        have hstored : t' ∈ db.tags ++ minted :=
          List.mem_append.2 ((List.mem_append.1 ht').imp_left (hfound t'))
        exact eq_of_tagId hids hstored ht hid ▸ ht'
      · exact List.mem_append.2 ((List.mem_append.1 ht).imp_left (hfound t))

omit [Unicode] in
theorem linksTo_taskId {tags : List Tag} {l : TaskTag} (h : l ∈ linksTo taskId tags) :
    l.taskId = taskId := by
  obtain ⟨tagId, -, rfl⟩ := List.mem_map.1 h
  exact rfl

/-- `_stage_tags` leaves the links of the other tasks alone. -/
theorem linksOf_of_stage {asked : Option (List PyStr)} (hlasts : ∀ answer ∈ told, answer.Lasts db)
    (hstage : TagStage taskId told asked minted retag event)
    (hlinks : db'.taskTags = relinked db.taskTags taskId retag) {other : Uuid}
    (hother : other ≠ taskId) :
    db'.linksOf other = db.linksOf other := by
  rw [Db.linksOf, hlinks]
  cases hstage with
  | omitted | kept => rfl
  | @changed names before rows _ gone hbefore hresolved hdiffers hgone =>
    have hall : gone = db.linksOf taskId := hlasts _ hgone
    rw [relinked, List.filter_append, List.filter_filter]
    have hnew : (linksTo taskId (rows ++ minted)).filter (fun l => l.taskId = other) = [] := by
      refine List.filter_eq_nil_iff.2 fun l hl hsame => hother ?_
      rw [← of_decide_eq_true hsame, linksTo_taskId hl]
    rw [hnew, List.append_nil]
    refine List.filter_congr fun l _ => ?_
    by_cases hsame : l.taskId = other
    · have hkept : l ∉ gone := fun hl => hother (hsame ▸ (mem_linksOf.1 (hall ▸ hl)).2)
      simp [hsame, hkept]
    · simp [hsame]

end Stage

/-! ## What a call does to links and vocabulary -/

/-- The tag names a call supplies. -/
def suppliedTags : Call → Option (List PyStr)
  | .create _ _ _ _ tags => tags
  | .replace _ _ _ _ _ tags _ => tags
  | .patch _ fields _ => fields.tags.join
  | _ => none

/-- A partial update: what it does not name it leaves alone. -/
def isPatch : Call → Bool
  | .patch .. => true
  | _ => false

/-- The task a successful write is about: the one it names, or the one it adds. -/
inductive About (db db' : Db) : Call → Uuid → Prop where
  | named {call : Call} {taskId : Uuid} (h : taskOf call = some taskId) : About db db' call taskId
  | added {title : PyStr} {description status : Option PyStr} {priority : Int}
      {tags : Option (List PyStr)} {task : Task} (h : db'.tasks = db.tasks ++ [task]) :
      About db db' (.create title description status priority tags) task.id

section Requests

variable [Unicode]

/-- The keys of some names, each once. -/
def requestKeys (names : List PyStr) : List PyStr := (names.map Tag.normalizeName).dedup

/-- The names of the new tags are the first spellings of their keys in the request. -/
structure Spells (call : Call) (minted : List Tag) : Prop where
  spelled : ∀ tag ∈ minted, ∃ name, ((suppliedTags call).getD []).find?
    (fun name => Tag.normalizeName name = tag.nameKey) = some name ∧ tag.name = strip name

/-- **What a successful write does to links and vocabulary.** -/
structure SetsTags (call : Call) (taskId : Uuid) (db db' : Db) : Prop where
  supplied : ∀ names, suppliedTags call = some names →
    (linkedKeys db' taskId).Perm (requestKeys names)
  kept : suppliedTags call = none → isPatch call = true → db'.linksOf taskId = db.linksOf taskId
  cleared : suppliedTags call = none → isPatch call = false → db'.linksOf taskId = []
  others : ∀ other, other ≠ taskId → db'.linksOf other = db.linksOf other
  vocabulary : ∃ minted, db'.tags = db.tags ++ minted ∧ Spells call minted

/-- How the names staged for a task come from those supplied. -/
inductive Asks (call : Call) (links : List TaskTag) : Option (List PyStr) → Prop where
  | staged (hpatch : suppliedTags call = none → isPatch call = false) :
      Asks call links (some ((suppliedTags call).getD []))
  | omitted (hnone : suppliedTags call = none) (hpatch : isPatch call = true) : Asks call links none
  | unlinked (hempty : (suppliedTags call).getD [] = []) (hpatch : isPatch call = false)
      (hlinks : links = []) : Asks call links none

section Sets

variable {call : Call} {taskId : Uuid} {told : Told} {asked : Option (List PyStr)}
  {minted : List Tag} {retag : Option Retag} {event : Option EventBody} {db db' : Db}

theorem setsTags_of_asks (hdb' : Consistent db') (hasks : Asks call (db.linksOf taskId) asked)
    (hkeys : ∀ names, asked = some names →
      ∀ key, key ∈ linkedKeys db' taskId ↔ ∃ name ∈ names, Tag.normalizeName name = key)
    (hnone : asked = none → db'.linksOf taskId = db.linksOf taskId)
    (hothers : ∀ other, other ≠ taskId → db'.linksOf other = db.linksOf other)
    (hvocabulary : ∃ minted, db'.tags = db.tags ++ minted ∧ Spells call minted) :
    SetsTags call taskId db db' := by
  have hperm : ∀ names : List PyStr,
      (∀ key, key ∈ linkedKeys db' taskId ↔ ∃ name ∈ names, Tag.normalizeName name = key) →
        (linkedKeys db' taskId).Perm (requestKeys names) := by
    intro names hmem
    refine (List.perm_ext_iff_of_nodup (hdb'.nodup_linkedKeys taskId) (List.nodup_dedup _)).2
      fun key => ?_
    show key ∈ linkedKeys db' taskId ↔ key ∈ (names.map Tag.normalizeName).dedup
    rw [hmem, List.mem_dedup, List.mem_map]
  have hempty : db'.linksOf taskId = [] → (linkedKeys db' taskId).Perm (requestKeys []) := by
    intro hlinks
    rw [linkedKeys, hlinks]
    exact .nil
  refine ⟨fun names hsupplied => ?_, fun hsupplied hpatch => ?_, fun hsupplied hpatch => ?_,
    hothers,
    hvocabulary⟩
  · cases hasks with
    | staged =>
      rw [hsupplied] at hkeys
      exact hperm names (hkeys names rfl)
    | omitted habsent => rw [hsupplied] at habsent; cases habsent
    | unlinked hnil _ hlinks =>
      rw [hsupplied] at hnil
      obtain rfl : names = [] := hnil
      exact hempty ((hnone rfl).trans hlinks)
  · cases hasks with
    | staged hnot => rw [hnot hsupplied] at hpatch; cases hpatch
    | omitted | unlinked => exact hnone rfl
  · cases hasks with
    | staged =>
      rw [hsupplied] at hkeys
      refine hdb'.linksOf_eq_nil fun key hkey => ?_
      obtain ⟨name, hname, -⟩ := (hkeys [] rfl key).1 hkey
      cases hname
    | omitted _ hnot => rw [hnot] at hpatch; cases hpatch
    | unlinked _ _ hlinks => exact (hnone rfl).trans hlinks

/-- The tags `_stage_tags` makes are spelled as the request does. -/
theorem spells_of_stage (hasks : Asks call (db.linksOf taskId) asked)
    (hstage : TagStage taskId told asked minted retag event) : Spells call minted := by
  refine ⟨fun tag htag => ?_⟩
  rcases hstage.resolved with ⟨-, rfl, -⟩ | ⟨names, rows, rfl, hresolved⟩
  · cases htag
  · cases hasks with
    | staged => exact hresolved.spelled htag

theorem setsTags_of_stage (hdb : Consistent db) (hdb' : Consistent db')
    (hasks : Asks call (db.linksOf taskId) asked) (hlasts : ∀ answer ∈ told, answer.Lasts db)
    (hstage : TagStage taskId told asked minted retag event)
    (htags : db'.tags = db.tags ++ minted)
    (hlinks : db'.taskTags = relinked db.taskTags taskId retag) :
    SetsTags call taskId db db' := by
  refine setsTags_of_asks hdb' hasks (fun names hnames key => ?_) (fun hnone => ?_)
    (fun other hother => linksOf_of_stage hlasts hstage hlinks hother)
    ⟨minted, htags, spells_of_stage hasks hstage⟩
  · rw [hnames] at hstage
    exact mem_linkedKeys_of_stage hdb hdb' hlasts hstage htags hlinks
  · rw [hnone] at hstage
    cases hstage
    rw [Db.linksOf, hlinks]
    rfl

/-- Nothing is written: the names are those the task has. -/
theorem setsTags_of_rest (hdb : Consistent db) (hasks : Asks call (db.linksOf taskId) asked)
    (hlasts : ∀ answer ∈ told, answer.Lasts db)
    (hstage : TagStage taskId told asked minted retag none) : SetsTags call taskId db db := by
  obtain rfl : retag = none := by cases hstage <;> rfl
  refine setsTags_of_asks hdb hasks (fun names hnames key => ?_) (fun _ => rfl) (fun _ _ => rfl)
    ⟨[], (List.append_nil _).symm, ⟨fun _ htag => (nomatch htag)⟩⟩
  rw [hnames] at hstage
  exact hdb.keys_kept hlasts hstage

end Sets

/-! ## Every call -/

section Calls

variable [Jsonb] [Runtime]

omit [Jsonb] [Runtime] in
/-- The names staged for a changed task. -/
theorem asks_of_changes {told : Told} {call : Call} {taskId : Uuid} {names : Option (List PyStr)}
    {engine : Option Engine} {previous updated : Task} (links : List TaskTag)
    (h : Changes told call taskId names engine previous updated) :
    taskOf call = some taskId ∧ Asks call links names := by
  cases h with
  | replace => exact ⟨rfl, .staged fun _ => rfl⟩
  | @patch taskId fields roles engine previous updated =>
    refine ⟨rfl, ?_⟩
    cases hnames : fields.tags.join with
    | none => exact .omitted hnames rfl
    | some names =>
      have hsupplied : suppliedTags (.patch taskId fields roles) = some names := hnames
      have hget : names = (suppliedTags (.patch taskId fields roles)).getD [] := by
        rw [hsupplied]; rfl
      rw [hget]
      exact .staged fun hnone => (nomatch hsupplied.symm.trans hnone)

omit [Unicode] [Jsonb] [Runtime] in
/-- Those staged for a new task. -/
theorem asks_create {title : PyStr} {description status : Option PyStr} {priority : Int}
    {tags : Option (List PyStr)} {links : List TaskTag} (h : links = []) :
    Asks (.create title description status priority tags) links (namesOf tags) := by
  cases tags with
  | none => exact .unlinked rfl rfl h
  | some names =>
    cases names with
    | nil => exact .unlinked rfl rfl h
    | cons name names => exact .staged fun _ => rfl

omit [Jsonb] [Runtime] in
/-- A task whose id was just drawn has no links. -/
theorem linksOf_drawn {db : Db} (h : Consistent db) {id : Uuid} (hid : id ∉ mentions db) :
    db.linksOf id = [] := by
  refine List.eq_nil_iff_forall_not_mem.2 fun l hl => ?_
  obtain ⟨hmem, rfl⟩ := mem_linksOf.1 hl
  exact hid (mem_mentions.2 (.inl (h.linked.task l hmem)))

omit [Runtime] in
/-- **What a commit of a task write does to links and vocabulary.** -/
theorem setsTags_of_effect {told : Told} {tx : Tx} {call : Call} {db db' : Db}
    (hlasts : ∀ answer ∈ told, answer.Lasts db) (hfresh : ∀ id ∈ told.ids, id ∉ mentions db)
    (hdb : Consistent db) (hdb' : Consistent db')
    (hcall : writesTasks call = true) (h : Effect told tx db call db') :
    ∃ taskId, About db db' call taskId ∧ SetsTags call taskId db db' := by
  cases h with
  | created htask hstage =>
    refine ⟨_, .added rfl, setsTags_of_stage hdb hdb' ?_ hlasts hstage rfl rfl⟩
    exact asks_create (linksOf_drawn hdb (hfresh _ htask.drawn))
  | @changed _ taskId names engine previous updated minted retag event rows htask hstage =>
    obtain ⟨htaskOf, hasks⟩ := asks_of_changes (db.linksOf taskId) htask
    exact ⟨taskId, .named htaskOf, setsTags_of_stage hdb hdb' hasks hlasts hstage rfl rfl⟩
  | @deleted taskId task rows =>
    refine ⟨taskId, .named rfl, fun _ hnames => (nomatch hnames), fun _ hpatch => (nomatch hpatch),
      fun _ _ => ?_, fun other hother => ?_, [], (List.append_nil _).symm,
      ⟨fun _ htag => (nomatch htag)⟩⟩
    · show List.filter _ (List.filter _ _) = []
      rw [List.filter_filter]
      simp
    · show List.filter _ (List.filter _ _) = List.filter _ _
      rw [List.filter_filter]
      refine List.filter_congr fun l _ => ?_
      by_cases hsame : l.taskId = other
      · simp [hsame, hother]
      · simp [hsame]
  | tagDeleted | defined | seeded => cases hcall

/-- **Tag sets are replaced.** Of a run of calls, served one after the other, every call that writes
tasks and returns sets the tags of its task as it asks and touches nothing else; one that raises
changes neither links nor vocabulary; and the keys of the vocabulary stay distinct. -/
theorem tags_replaced {st : Server} (h : Reachable st) (call : Call) :
    (writesTasks call = true → ∀ reply, (serve call st).1 = .ok reply →
        ∃ taskId, About st.db (serve call st).2.db call taskId
          ∧ SetsTags call taskId st.db (serve call st).2.db)
      ∧ (∀ e, (serve call st).1 = .error e →
          (serve call st).2.db.taskTags = st.db.taskTags ∧ (serve call st).2.db.tags = st.db.tags)
      ∧ (tagKeys (serve call st).2.db).Nodup := by
  have hnext : Reachable (serve call st).2 := h.tail call rfl
  have hdb := h.committed.consistent
  have hdb' := hnext.committed.consistent
  refine ⟨fun hcall reply hreply => ?_, fun e he => ?_, hdb'.keys⟩
  · have hserves := serve_cases h.committed call
    rw [hreply] at hserves
    generalize (serve call st).2.db = db' at hserves hdb' ⊢
    cases hserves with
    | saved htold hcommits =>
      exact setsTags_of_effect htold.lasts htold.fresh hdb hdb' hcall (hcommits.effect st.db)
    | rested htold hrests =>
      cases hrests with
      | replace htask hstage hsame =>
        obtain ⟨htaskOf, hasks⟩ := asks_of_changes (st.db.linksOf _) (.replace htask)
        exact ⟨_, .named htaskOf, setsTags_of_rest hdb hasks htold.lasts hstage⟩
      | patch htask hstage hsame =>
        obtain ⟨htaskOf, hasks⟩ := asks_of_changes (st.db.linksOf _) (.patch htask)
        exact ⟨_, .named htaskOf, setsTags_of_rest hdb hasks htold.lasts hstage⟩
      | legalMoves | seed => cases hcall
  · have hserves := serve_cases h.committed call
    rw [he] at hserves
    generalize (serve call st).2.db = db' at hserves ⊢
    cases hserves with
    | raised => exact ⟨rfl, rfl⟩

end Calls

end Requests

/-! ## One call -/

section Call

open Plain

/-- The server once a definition has been put in place. -/
def defined : Server := (serve (.replaceActive forkDocument) ⟨.empty, 0⟩).2

theorem reachable_defined : Reachable defined := .tail (.replaceActive forkDocument) .refl rfl

/-- A new task with three names and two keys. -/
def taggedCreate : Call :=
  .create (py "A") none none 3 (some [py " Bug", py "bug", py "UI"])

theorem tags_replaced_once : ∃ reply taskId, (serve taggedCreate defined).1 = .ok reply
    ∧ About defined.db (serve taggedCreate defined).2.db taggedCreate taskId
    ∧ SetsTags taggedCreate taskId defined.db (serve taggedCreate defined).2.db := by
  have hok : (serve taggedCreate defined).1.isOk = true := by decide +kernel
  cases hreply : (serve taggedCreate defined).1 with
  | error e =>
    rw [hreply] at hok
    cases hok
  | ok reply =>
    obtain ⟨taskId, habout, hsets⟩ :=
      (tags_replaced reachable_defined taggedCreate).1 rfl reply hreply
    exact ⟨reply, taskId, rfl, habout, hsets⟩

end Call

end TaskService.Sequential
