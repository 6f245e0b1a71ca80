import TaskService.Boards.Abstraction

/-!
# Task writes on the board

A create, a replacement or a patch that the service performs is one on the board: the card of its
task is the one asked for, the names it uses mean tags, and nothing else changes.

* **`coins_of_setsTags`**: the vocabulary grows by what the request names.
* **`board_eq_put`**: one card is another.
* **`step_write`**: a task write is a step of the board.
-/

namespace TaskService.Boards

open Store Tasks Tags Workflows Concurrency Sessions TaskService.Sequential

/-! ## Tags -/

section Names

variable [Unicode] {call : Call} {taskId : Uuid} {db db' : Db}

/-- **The vocabulary grows by what the request names.** -/
theorem coins_of_setsTags (hdb : Consistent db) (hdb' : Consistent db')
    (h : SetsTags call taskId db db') :
    Coins ((suppliedTags call).getD []) (board db).tag (board db').tag := by
  obtain ⟨minted, htags, hspells⟩ := h.vocabulary
  have hkeys := hdb'.keys
  rw [tagKeys, htags, List.map_append] at hkeys
  have hnew : ∀ t ∈ minted, t ∈ db'.tags := fun t ht => htags ▸ List.mem_append_right _ ht
  refine ⟨fun id n hn => ?_, fun id n hn => ?_, fun name hname => ?_,
    fun id id' n n' hn hn' hkey => ?_⟩
  · obtain ⟨t, ht, rfl, rfl⟩ := mem_of_tag hn
    exact tag_of_mem hdb'.ids (htags ▸ List.mem_append_left _ ht)
  · obtain ⟨t, ht, rfl, rfl⟩ := mem_of_tag hn
    rw [htags] at ht
    rcases List.mem_append.1 ht with hold | ht
    · exact .inl (tag_of_mem hdb.ids hold)
    · have hkeyed := (hdb'.keyed t (hnew t ht)).1
      obtain ⟨name, hfind, hname⟩ := hspells.spelled t ht
      rw [hkeyed] at hfind
      refine .inr ⟨fun hhas => ?_, name, hfind, hname⟩
      rw [has_iff hdb, ← hkeyed] at hhas
      exact List.disjoint_of_nodup_append hkeys hhas (List.mem_map_of_mem ht)
  · cases hsupplied : suppliedTags call with
    | none =>
      rw [hsupplied] at hname
      cases hname
    | some names =>
      rw [hsupplied] at hname
      have hlinked : Tag.normalizeName name ∈ linkedKeys db' taskId :=
        (h.supplied names hsupplied).mem_iff.2
          (List.mem_dedup.2 (List.mem_map_of_mem hname))
      obtain ⟨t, ht, -, hkey⟩ := Sequential.mem_linkedKeys.1 hlinked
      exact (has_iff hdb').2 (hkey ▸ List.mem_map_of_mem ht)
  · obtain ⟨t, ht, rfl, rfl⟩ := mem_of_tag hn
    obtain ⟨t', ht', rfl, rfl⟩ := mem_of_tag hn'
    have hsame : t.nameKey = t'.nameKey := by
      rw [(hdb'.keyed t ht).1, (hdb'.keyed t' ht').1, hkey]
    exact congrArg Tag.id (List.inj_on_of_nodup_map hdb'.keys ht ht' hsame)

/-- The task shows what the names of the request mean. -/
theorem names_supplied (hdb' : Consistent db') (h : SetsTags call taskId db db')
    {names : List PyStr} (hsupplied : suppliedTags call = some names) :
    {n | n ∈ db'.tagNames taskId} = named (board db').tag names := by
  have hlinked : ∀ key, key ∈ linkedKeys db' taskId ↔ ∃ name ∈ names,
      Tag.normalizeName name = key := fun key => by
    rw [(h.supplied names hsupplied).mem_iff, requestKeys, List.mem_dedup, List.mem_map]
  ext n
  constructor
  · intro hn
    obtain ⟨t, ht, hlink, rfl⟩ := mem_tagNames.1 hn
    have hkey := (hlinked t.nameKey).1 (Sequential.mem_linkedKeys.2 ⟨t, ht, hlink, rfl⟩)
    rw [(hdb'.keyed t ht).1] at hkey
    exact ⟨⟨t.id, tag_of_mem hdb'.ids ht⟩, hkey⟩
  · rintro ⟨⟨id, hn⟩, hkey⟩
    obtain ⟨t, ht, rfl, rfl⟩ := mem_of_tag hn
    rw [← (hdb'.keyed t ht).1] at hkey
    obtain ⟨t', ht', hlink, hsame⟩ := Sequential.mem_linkedKeys.1 ((hlinked _).2 hkey)
    obtain rfl := List.inj_on_of_nodup_map hdb'.keys ht' ht hsame
    exact mem_tagNames.2 ⟨t', ht', hlink, rfl⟩

/-- A task without links shows no tags. -/
theorem names_unlinked (hlinks : db'.linksOf taskId = []) {tag : Uuid → Option PyStr} :
    {n | n ∈ db'.tagNames taskId} = named tag [] := by
  ext n
  constructor
  · intro hn
    obtain ⟨t, -, hlink, -⟩ := mem_tagNames.1 hn
    have hmem : ⟨taskId, t.id⟩ ∈ db'.linksOf taskId := mem_linksOf.2 ⟨hlink, rfl⟩
    rw [hlinks] at hmem
    cases hmem
  · rintro ⟨-, name, hname, -⟩
    cases hname

/-- A task with the links it had shows the tags it showed. -/
theorem names_kept (hdb : Consistent db) (hdb' : Consistent db') {id : Uuid}
    (hlinks : db'.linksOf id = db.linksOf id) (htags : ∃ minted, db'.tags = db.tags ++ minted) :
    {n | n ∈ db'.tagNames id} = {n | n ∈ db.tagNames id} := by
  obtain ⟨minted, htags⟩ := htags
  have hsame : ∀ tagId, ⟨id, tagId⟩ ∈ db'.taskTags ↔ ⟨id, tagId⟩ ∈ db.taskTags := fun tagId => by
    have hmem : ⟨id, tagId⟩ ∈ db'.linksOf id ↔ ⟨id, tagId⟩ ∈ db.linksOf id := by rw [hlinks]
    rwa [mem_linksOf, mem_linksOf, and_iff_left rfl, and_iff_left rfl] at hmem
  ext n
  show n ∈ db'.tagNames id ↔ n ∈ db.tagNames id
  rw [mem_tagNames, mem_tagNames]
  constructor
  · rintro ⟨t, ht, hlink, hname⟩
    -- a tag that is linked already was stored already
    have hold := (hsame t.id).1 hlink
    obtain ⟨t', ht', hid⟩ := List.mem_map.1 (hdb.linked.tag _ hold)
    have hmem : t' ∈ db'.tags := htags ▸ List.mem_append_left _ ht'
    exact ⟨t, eq_of_tagId hdb'.ids hmem ht hid ▸ ht', hold, hname⟩
  · rintro ⟨t, ht, hlink, hname⟩
    exact ⟨t, htags ▸ List.mem_append_left _ ht, (hsame t.id).2 hlink, hname⟩

end Names

/-! ## One card -/

section Cards

variable [Unicode] {db db' : Db}

/-- **One card is another, the rest is as it was.** -/
theorem board_eq_put (hids : (db.tasks.map Task.id).Nodup) (hids' : (db'.tasks.map Task.id).Nodup)
    {t : Task} (ht : t ∈ db'.tasks)
    (hothers : ∀ row : Task, row.id ≠ t.id → (row ∈ db'.tasks ↔ row ∈ db.tasks))
    (hnames : ∀ id, id ≠ t.id → {n | n ∈ db'.tagNames id} = {n | n ∈ db.tagNames id})
    (hworkflows : db'.workflows = db.workflows) :
    board db' = (board db).put t.id (some (cardOf db' t)) (board db').tag := by
  have hactive : (board db').active = (board db).active := by
    show db'.active.bind _ = db.active.bind _
    rw [Db.active, Db.active, hworkflows]
  have hcard : (board db').card
      = Function.update (board db).card t.id (some (cardOf db' t)) := by
    funext id
    by_cases hid : id = t.id
    · rw [hid, Function.update_self]
      exact card_of_mem hids' ht
    · rw [Function.update_of_ne hid]
      have hshown : ∀ row : Task, row.id = id → cardOf db' row = cardOf db row := fun row hrow => by
        unfold cardOf
        rw [hrow, hnames id hid]
      refine Option.ext fun c => ⟨fun hc => ?_, fun hc => ?_⟩
      · obtain ⟨row, hrow, rfl, rfl⟩ := mem_of_card hc
        rw [hshown row rfl]
        exact card_of_mem hids ((hothers row hid).1 hrow)
      · obtain ⟨row, hrow, rfl, rfl⟩ := mem_of_card hc
        rw [← hshown row rfl]
        exact card_of_mem hids' ((hothers row hid).2 hrow)
  calc board db' = ⟨(board db').card, (board db').tag, (board db').active⟩ := rfl
    _ = (board db).put t.id (some (cardOf db' t)) (board db').tag := by rw [hcard, hactive]; rfl

end Cards

/-! ## Task writes -/

section Steps

variable [Unicode] [Jsonb] [Runtime] {st : Server} {call : Call} {t : Task}

omit [Unicode] [Jsonb] [Runtime] in
theorem ok_of_toOption {r : Except Exn Task} (h : r.toOption = some t) : r = .ok t := by
  cases r with
  | error e => cases h
  | ok t' => exact congrArg _ (Option.some.inj h)

omit [Jsonb] [Runtime] in
/-- What a replacement makes of the stored row. -/
theorem applied_replace {db : Db} {taskId : Uuid} {title : PyStr}
    {description status : Option PyStr} {priority : Int} {tags : Option (List PyStr)}
    {roles : List PyStr}
    (h : rowAfter db (.replace taskId title description status priority tags roles) = some t) :
    ∃ w task, activeWorkflow db = some w ∧ db.tasks.find? (fun row => row.id = taskId) = some task
      ∧ t = { task with title := strip title, titleKey := Task.normalizeTitle title
                        description := description, status := status.getD w.defaultEntry
                        priority := priority } := by
  obtain ⟨w, hactive, hrest⟩ := Option.bind_eq_some_iff.1 h
  obtain ⟨task, hfind, hrow⟩ := Option.bind_eq_some_iff.1 hrest
  exact ⟨w, task, hactive, hfind, (Task.applyReplace_eq_ok.1 (ok_of_toOption hrow)).2⟩

omit [Jsonb] [Runtime] in
/-- What a patch makes of it. -/
theorem applied_patch {db : Db} {taskId : Uuid} {fields : PatchFields} {roles : List PyStr}
    (h : rowAfter db (.patch taskId fields roles) = some t) :
    ∃ task, db.tasks.find? (fun row => row.id = taskId) = some task
      ∧ t = { task with title := (fields.title.map strip).getD task.title
                        titleKey := (fields.title.map Task.normalizeTitle).getD task.titleKey
                        description := fields.description.getD task.description
                        status := fields.status.getD task.status
                        priority := fields.priority.getD task.priority } := by
  obtain ⟨task, hfind, hrow⟩ := Option.bind_eq_some_iff.1 h
  exact ⟨task, hfind, (Task.applyPatch_eq_ok.1 (ok_of_toOption hrow)).2.2⟩

omit [Unicode] [Jsonb] [Runtime] in
theorem id_of_find? {tasks : List Task} {taskId : Uuid} {task : Task}
    (h : tasks.find? (fun row => row.id = taskId) = some task) : task.id = taskId := by
  simpa using List.find?_some h

omit [Jsonb] [Runtime] in
/-- What is made of the stored row of a task has its id. -/
theorem id_of_rowAfter {db : Db} (h : rowAfter db call = some t) : taskOf call = some t.id := by
  cases call with
  | replace taskId title description status priority tags roles =>
    obtain ⟨w, task, -, hfind, rfl⟩ := applied_replace h
    exact congrArg some (id_of_find? hfind).symm
  | patch taskId fields roles =>
    obtain ⟨task, hfind, rfl⟩ := applied_patch h
    exact congrArg some (id_of_find? hfind).symm
  | _ => cases h

/-- What a task write does to links, vocabulary and definitions. -/
structure Tagged (call : Call) (t : Task) (db db' : Db) : Prop where
  sets : SetsTags call t.id db db'
  workflows : db'.workflows = db.workflows

/-- **A write sets the tags of the task it returns.** -/
theorem tagged_of_serve (hfold : FoldsCleanly) (hst : Reachable st) (haccepted : Accepted call)
    (hcall : writesTask call = true) (hreply : (serve call st).1 = .ok (.task t)) :
    Tagged call t st.db (serve call st).2.db := by
  have hnext : Reachable (serve call st).2 := hst.tail call rfl
  have hdb := hst.committed.consistent
  have hdb' := hnext.committed.consistent
  have hwrites : writesTasks call = true := by cases call <;> first | rfl | cases hcall
  obtain ⟨t', ht', hrow⟩ := returned hfold hst haccepted hcall hreply
  obtain rfl := Reply.task.inj ht'
  -- the task that was written is the one that is returned
  have habout : ∀ taskId, About st.db (serve call st).2.db call taskId → taskId = t.id := by
    intro taskId h
    cases h with
    | named h =>
      exact Option.some.inj (h.symm.trans (id_of_rowAfter (hrow (by rw [h]; rfl))))
    | added h =>
      have hsame := h.symm.trans (created_row hst.committed hreply).1
      exact congrArg Task.id (List.singleton_inj.1 (List.append_cancel_left hsame))
  have hserves := serve_cases hst.committed call
  rw [hreply] at hserves
  generalize (serve call st).2.db = db' at hserves hdb' habout ⊢
  cases hserves with
  | @saved _ tx told htold hcommits =>
    have heffect := hcommits.effect st.db
    obtain ⟨taskId, h, hsets⟩ :=
      setsTags_of_effect htold.lasts htold.fresh hdb hdb' hwrites heffect
    refine ⟨habout taskId h ▸ hsets, ?_⟩
    generalize view st.db (Store.writes tx) = db' at heffect
    cases heffect with
    | created | changed | deleted => rfl
    | tagDeleted | defined | seeded => cases hcall
  | rested htold hrests =>
    cases hrests with
    | replace htask hstage hsame =>
      obtain ⟨htaskOf, hasks⟩ := asks_of_changes (st.db.linksOf _) (.replace htask)
      exact ⟨habout _ (.named htaskOf) ▸ setsTags_of_rest hdb hasks htold.lasts hstage, rfl⟩
    | patch htask hstage hsame =>
      obtain ⟨htaskOf, hasks⟩ := asks_of_changes (st.db.linksOf _) (.patch htask)
      exact ⟨habout _ (.named htaskOf) ▸ setsTags_of_rest hdb hasks htold.lasts hstage, rfl⟩
    | legalMoves | seed => cases hcall

/-- What a task write leaves on the board. -/
structure Written (call : Call) (t : Task) (db db' : Db) : Prop where
  put : board db' = (board db).put t.id (some (cardOf db' t)) (board db').tag
  coins : Coins ((suppliedTags call).getD []) (board db).tag (board db').tag
  named : isPatch call = false →
    {n | n ∈ db'.tagNames t.id} = named (board db').tag ((suppliedTags call).getD [])
  patched : isPatch call = true → {n | n ∈ db'.tagNames t.id}
    = ((suppliedTags call).map (Boards.named (board db').tag)).getD {n | n ∈ db.tagNames t.id}

/-- **What a task write that returns leaves on the board.** -/
theorem written (hfold : FoldsCleanly) (hst : Reachable st) (haccepted : Accepted call)
    (hcall : writesTask call = true) (hreply : (serve call st).1 = .ok (.task t)) :
    Written call t st.db (serve call st).2.db := by
  obtain ⟨hstored, hothers⟩ := written_row hfold hst haccepted hcall hreply
  obtain ⟨hsets, hworkflows⟩ := tagged_of_serve hfold hst haccepted hcall hreply
  have hnext : Reachable (serve call st).2 := hst.tail call rfl
  have hdb := hst.committed.consistent
  have hdb' := hnext.committed.consistent
  have hvocabulary : ∃ minted, (serve call st).2.db.tags = st.db.tags ++ minted :=
    hsets.vocabulary.imp fun _ h => h.1
  refine ⟨?_, coins_of_setsTags hdb hdb' hsets, fun hpatch => ?_, fun hpatch => ?_⟩
  · exact board_eq_put (rows_of_reachable hst).ids (rows_of_reachable hnext).ids hstored hothers
      (fun id hid => names_kept hdb hdb' (hsets.others id hid) hvocabulary) hworkflows
  · cases htags : suppliedTags call with
    | none => exact names_unlinked (hsets.cleared htags hpatch)
    | some names => exact names_supplied hdb' hsets htags
  · cases htags : suppliedTags call with
    | none => exact names_kept hdb hdb' (hsets.kept htags hpatch) hvocabulary
    | some names => exact names_supplied hdb' hsets htags

end Steps

end TaskService.Boards
