import TaskService.Sessions.Uniqueness

/-!
# The tag vocabulary

Tags are stored under distinct keys, and those of a request are found or made under the keys of its
names.

* **`unique_keys_of_reachable`**: no key twice, stored or about to be.
* **`keyed_of_reachable`**: every stored tag has the key of its name.
* **`Resolved.mem_keys`**, **`Resolved.nodup_keys`**: the tags a request resolves to have the keys
  of the request, each once.
-/

namespace TaskService.Sessions

open Store Tasks Tags Workflows Concurrency

/-! ## Distinct keys -/

/-- The keys of the stored tags. -/
def tagKeys (db : Db) : List PyStr := db.tags.map Tag.nameKey

theorem check_insertTag_eq_none {db : Db} {t : Tag} :
    (Write.insertTag t).check db = none
      ↔ TagFits t ∧ t.id ∉ db.tags.map Tag.id ∧ t.nameKey ∉ tagKeys db := by
  show (ite _ _ _ : Option DbError) = none ↔ _
  rw [ite_some_eq_none, ite_some_eq_none, ite_some_eq_none, not_not, tagKeys, List.mem_map,
    List.mem_map]
  push Not
  exact ⟨fun h => ⟨h.1, h.2.1, h.2.2.1⟩, fun h => ⟨h.1, h.2.1, h.2.2, rfl⟩⟩

/-- `name_key`. -/
def nameKeyColumn : UniqueColumn where
  stored := tagKeys
  inserted | .insertTag t => some t.nameKey | _ => none
  Grows w := ∀ id, w ≠ .deleteTag id

variable [Unicode] [Jsonb] [Runtime]

omit [Unicode] [Runtime] in
theorem lawful_nameKeyColumn : nameKeyColumn.Lawful where
  empty := rfl
  early w hw id hid := by
    subst hid
    exact hw
  unlinks _ := rfl
  apply db w hw := by
    cases w with
    | insertTag t => simp [nameKeyColumn, tagKeys, Write.apply]
    | deleteTag id => exact absurd rfl (hw id)
    | _ => exact (List.append_nil _).symm
  check db w key hcheck hkey := by
    cases w with
    | insertTag t =>
      obtain rfl := Option.some.inj hkey
      exact (check_insertTag_eq_none.1 hcheck).2.2
    | _ => cases hkey
  conflicts db w w' key hkey hkey' := by
    cases w with
    | insertTag t =>
      cases w' with
      | insertTag t' =>
        have hsame : t.nameKey = t'.nameKey :=
          (Option.some.inj hkey).trans (Option.some.inj hkey').symm
        simp [conflicts, locks, hsame]
      | _ => cases hkey'
    | _ => cases hkey

/-- **No key is stored or about to be stored twice.** -/
theorem unique_keys_of_reachable {noted : NotedWorld} (h : noted.Reachable) :
    nameKeyColumn.Unique noted.threads noted.shared := by
  refine lawful_nameKeyColumn.unique_of_reachable
    (fun {world before after call k tx notes} _ _ _ hpass hothers hunique => ?_) h
  rw [writes, view_append]
  refine lawful_nameKeyColumn.nodup_view hpass (fun w _ => ?_) hothers hunique
  -- a deletion only takes a key away
  cases w with
  | deleteTag id => exact .inr fun db => List.filter_sublist.map _
  | _ => exact .inl fun id heq => Write.noConfusion heq

/-! ## What names resolve to -/

section Resolved

omit [Jsonb] [Runtime]

variable {names : List PyStr} {rows minted : List Tag} {told : Told}

/-- A tag that is made has a key of the request, under which no tag was found. -/
theorem Resolved.made (h : Resolved names rows minted told) {t : Tag} (ht : t ∈ minted) :
    (t.nameKey, t.name) ∈ wantedOf [] names ∧ t.nameKey ∉ rows.map Tag.nameKey := by
  have hmissing : (t.nameKey, t.name) ∈ missing (idsByKey rows) (wantedOf [] names) :=
    h.mints ▸ List.mem_map_of_mem ht
  rw [missing, List.mem_filter, decide_eq_true_eq, keys_idsByKey] at hmissing
  exact hmissing

/-- It has the first spelling of its key. -/
theorem Resolved.spelled (h : Resolved names rows minted told) {t : Tag} (ht : t ∈ minted) :
    ∃ name, names.find? (fun name => Tag.normalizeName name = t.nameKey) = some name
      ∧ t.name = strip name := by
  obtain ⟨hwanted, -⟩ := h.made ht
  obtain ⟨-, hfind⟩ := (mem_wantedOf hwanted).resolve_left List.not_mem_nil
  obtain ⟨name, hname, hstrip⟩ := Option.map_eq_some_iff.1 hfind
  exact ⟨name, hname, hstrip.symm⟩

theorem Resolved.keyed (h : Resolved names rows minted told) {t : Tag} (ht : t ∈ minted) :
    t.Keyed := by
  obtain ⟨name, hfind, hname⟩ := h.spelled ht
  have hkey : Tag.normalizeName name = t.nameKey := by simpa using List.find?_some hfind
  rw [Tag.Keyed, hname, Tag.normalizeName_strip, strip_strip]
  exact ⟨hkey.symm, rfl⟩

/-- **The keys are those of the request.** -/
theorem Resolved.mem_keys (h : Resolved names rows minted told) {key : PyStr} :
    key ∈ (rows ++ minted).map Tag.nameKey ↔ ∃ name ∈ names, Tag.normalizeName name = key := by
  rw [← mem_keys_wantedOf_nil, List.map_append, List.mem_append]
  constructor
  · rintro (hfound | hmade)
    · obtain ⟨row, hrow, rfl⟩ := List.mem_map.1 hfound
      exact h.asked row hrow
    · obtain ⟨t, ht, rfl⟩ := List.mem_map.1 hmade
      exact Dict.mem_keys_of_mem (h.made ht).1
  · intro hkey
    by_cases hrow : key ∈ rows.map Tag.nameKey
    · exact .inl hrow
    · obtain ⟨spelling, hwanted⟩ := Dict.mem_keys_iff.1 hkey
      have hmissing : (key, spelling) ∈ missing (idsByKey rows) (wantedOf [] names) := by
        rw [missing, List.mem_filter, decide_eq_true_eq, keys_idsByKey]
        exact ⟨hwanted, hrow⟩
      rw [← h.mints] at hmissing
      obtain ⟨t, ht, heq⟩ := List.mem_map.1 hmissing
      exact .inr (List.mem_map.2 ⟨t, ht, (Prod.mk.inj heq).1⟩)

/-- The tags that are made have distinct keys. -/
theorem Resolved.nodup_minted (h : Resolved names rows minted told) :
    (minted.map Tag.nameKey).Nodup := by
  have hkeys : minted.map Tag.nameKey
      = Dict.keys (missing (idsByKey rows) (wantedOf [] names)) := by
    rw [← h.mints, Dict.keys, List.map_map]
    rfl
  rw [hkeys]
  exact Dict.nodup_keys_filter _ (nodup_keys_wantedOf names .nil)

/-- **No key has two tags.** -/
theorem Resolved.nodup_keys (h : Resolved names rows minted told)
    (hrows : (rows.map Tag.nameKey).Nodup) :
    ((rows ++ minted).map Tag.nameKey).Nodup := by
  rw [List.map_append]
  refine hrows.append h.nodup_minted fun key hrow hmade => ?_
  obtain ⟨t, ht, rfl⟩ := List.mem_map.1 hmade
  exact (h.made ht).2 hrow

/-- The tags found are those the tables have for the request. -/
theorem Resolved.rows_eq (h : Resolved names rows minted told) {db : Db}
    (hholds : ∀ answer ∈ told, answer.Holds db) : rows = rowsFor names db := by
  by_cases hnil : wantedOf [] names = []
  · rw [h.unread hnil, rowsFor, hnil]
    simp
  · exact hholds _ (h.read hnil)

/-- The tags found are stored. -/
theorem Resolved.found (h : Resolved names rows minted told) {db : Db}
    (hlasts : ∀ answer ∈ told, answer.Lasts db) : ∀ t ∈ rows, t ∈ db.tags := by
  by_cases hnil : wantedOf [] names = []
  · rw [h.unread hnil]
    exact fun t ht => nomatch ht
  · exact hlasts _ (h.read hnil)

/-- Then no stored tag has the key of one that is made. -/
theorem Resolved.unstored (h : Resolved names rows minted told) {db : Db}
    (hrows : rows = rowsFor names db) {t : Tag} (ht : t ∈ minted) : t.nameKey ∉ tagKeys db := by
  intro hstored
  obtain ⟨row, hrow, hkey⟩ := List.mem_map.1 hstored
  obtain ⟨hwanted, hnew⟩ := h.made ht
  refine hnew (List.mem_map.2 ⟨row, ?_, hkey⟩)
  rw [hrows, rowsFor, List.mem_filter, decide_eq_true_eq, hkey]
  exact ⟨hrow, Dict.mem_keys_of_mem hwanted⟩

end Resolved

/-! ## The stored tags -/

omit [Jsonb] [Runtime] in
/-- Tags come from the names of a request. -/
theorem TagStage.resolved {taskId : Uuid} {told : Told} {names : Option (List PyStr)}
    {minted : List Tag} {retag : Option Retag} {event : Option EventBody}
    (h : TagStage taskId told names minted retag event) :
    names = none ∧ minted = [] ∧ retag = none
      ∨ ∃ asked rows, names = some asked ∧ Resolved asked rows minted told := by
  cases h with
  | omitted => exact .inl ⟨rfl, rfl, rfl⟩
  | kept _ hresolved => exact .inr ⟨_, _, rfl, hresolved⟩
  | changed _ hresolved => exact .inr ⟨_, _, rfl, hresolved⟩

omit [Jsonb] [Runtime] in
theorem TagStage.keyed {taskId : Uuid} {told : Told} {names : Option (List PyStr)}
    {minted : List Tag} {retag : Option Retag} {event : Option EventBody}
    (h : TagStage taskId told names minted retag event) {t : Tag} (ht : t ∈ minted) : t.Keyed := by
  rcases h.resolved with ⟨-, rfl, -⟩ | ⟨asked, rows, -, hresolved⟩
  · cases ht
  · exact hresolved.keyed ht

omit [Runtime] in
/-- A stored tag was stored before, or made by the call. -/
theorem Effect.tags_cases {told : Told} {tx : Tx} {db db' : Db} {call : Call}
    (h : Effect told tx db call db') :
    db'.tags.Sublist db.tags ∨ ∃ taskId names minted retag event, db'.tags = db.tags ++ minted
      ∧ TagStage taskId told names minted retag event := by
  cases h with
  | created _ hstage => exact .inr ⟨_, _, _, _, _, rfl, hstage⟩
  | changed _ hstage => exact .inr ⟨_, _, _, _, _, rfl, hstage⟩
  | tagDeleted => exact .inl List.filter_sublist
  | _ => exact .inl (List.Sublist.refl _)

/-- **Every stored tag has the key of its name.** -/
theorem keyed_of_reachable {noted : NotedWorld} (h : noted.Reachable) :
    ∀ tag ∈ noted.shared.db.tags, tag.Keyed := by
  refine tables_of_reachable (I := fun db => ∀ tag ∈ db.tags, tag.Keyed)
    (fun _ htag => (nomatch htag)) (fun _ _ _ _ heffect hkeyed tag htag => ?_) h
  rcases heffect.tags_cases with hsub | ⟨taskId, names, minted, retag, event, htags, hstage⟩
  · exact hkeyed tag (hsub.subset htag)
  · rw [htags] at htag
    exact (List.mem_append.1 htag).elim (hkeyed tag) hstage.keyed

/-- **The ids of the stored tags are distinct.** -/
theorem nodup_tags_of_reachable {noted : NotedWorld} (h : noted.Reachable) :
    (noted.shared.db.tags.map Tag.id).Nodup := by
  refine tables_of_reachable (I := fun db => (db.tags.map Tag.id).Nodup) .nil
    (fun {world before after call k tx notes} hreach hthreads hturn _ heffect hnodup => ?_) h
  rcases heffect.tags_cases with hsub | ⟨taskId, names, minted, retag, event, htags, hstage⟩
  · exact hnodup.sublist (hsub.map _)
  · have hfresh := fresh_of_reachable hreach
    have hmem : (⟨call, .op .commit k, (tx, notes)⟩ : NotedSession) ∈ world.threads := by
      rw [hthreads]
      simp
    have hids : notes.told.ids.Nodup := (List.nodup_flatMap.1 hfresh.nodup).1 _ hmem
    rw [htags, List.map_append]
    refine hnodup.append (hids.sublist hstage.drawn) fun id hold hnew => ?_
    exact hfresh.not_mentioned hmem hturn.owed.unsaved (hstage.drawn.subset hnew)
      (mem_mentions.2 (.inr (.inl hold)))

/-! ## The stored links -/

section Links

omit [Unicode] [Runtime]

/-- Without an INSERT of a link, a view has no links but those stored. -/
theorem taskTags_view_sublist {db : Db} {ws : List Write} (h : ∀ l, .insertTaskTag l ∉ ws) :
    (view db ws).taskTags.Sublist db.taskTags := by
  induction ws generalizing db with
  | nil => exact List.Sublist.refl _
  | cons w ws ih =>
    have hrest := @ih (w.apply db) fun l hl => h l (List.mem_cons_of_mem _ hl)
    refine hrest.trans ?_
    cases w with
    | insertTaskTag l => exact absurd List.mem_cons_self (h l)
    | deleteTask id | deleteTag id | deleteTaskTags links => exact List.filter_sublist
    | _ => exact List.Sublist.refl _

/-- Statements that pass keep the links distinct. -/
theorem nodup_taskTags_view {db : Db} {ws : List Write} (hpass : Passes db ws)
    (h : db.taskTags.Nodup) :
    (view db ws).taskTags.Nodup := by
  induction ws generalizing db with
  | nil => exact h
  | cons w ws ih =>
    refine ih hpass.2 ?_
    cases w with
    | insertTaskTag l =>
      refine h.append (List.nodup_singleton l) fun l' hold hl' => ?_
      obtain rfl := List.mem_singleton.1 hl'
      exact (check_insertTaskTag_eq_none.1 hpass.1).1 hold
    | deleteTask id | deleteTag id | deleteTaskTags links => exact h.sublist List.filter_sublist
    | _ => exact h

end Links

/-- **No link is stored twice.** -/
theorem nodup_links_of_reachable {noted : NotedWorld} (h : noted.Reachable) :
    noted.shared.db.taskTags.Nodup := by
  refine tables_of_reachable (I := fun db => db.taskTags.Nodup) .nil
    (fun _ _ hturn hpass _ hnodup => ?_) h
  have hcommits := hturn.owed.commit rfl
  rw [writes, view_append]
  exact nodup_taskTags_view hpass (hnodup.sublist (taskTags_view_sublist hcommits.not_linked))

end TaskService.Sessions
