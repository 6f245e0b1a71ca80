import TaskService.Sequential.Passing
import TaskService.Sequential.Responses
import TaskService.Tags.Responses

/-!
# The tag list and deletions

A tag can be deleted when no task holds it, and the list says so: it counts the links, which are
those of stored tasks.

* **`linkCount_eq`**: a tag has as many links as there are tasks that hold it.
* **`serve_deleteTag_unused`**: a tag without links is deleted, and nothing else.
* **`listed_then_deleted`**: what the list says of a tag is what its deletion meets.
-/

namespace TaskService.Sequential

open Store Tasks Tags Workflows Concurrency Sessions Prog

section Deletions

variable [Unicode] [Jsonb] [Runtime] {st : Server} {tagId : Uuid} {tag : Tag}

/-! ## What a deletion meets -/

omit [Unicode] in
/-- An operation, and what is left of the program. -/
theorem run_step {α : Type} {o : Op} {k : Except Exn (Res o) → SessionProg α} {tx tx' : Tx}
    {st st' : Server} {r : Except Exn (Res o)} (h : exec o tx st = (r, tx', st')) :
    Prog.run exec (.op o k) tx st = Prog.run exec (k r) tx' st' := by
  rw [Prog.run, h]

omit [Unicode] in
theorem exec_getTag_fresh (tagId : Uuid) (st : Server) : exec (.getTag tagId) .fresh st
    = (.ok (st.db.tags.find? fun t => t.id = tagId), .fresh, st) := rfl

omit [Unicode] in
theorem exec_countTaskTags_fresh (tagId : Uuid) (st : Server) :
    exec (.countTaskTags tagId) .fresh st = (.ok (linkCount st.db tagId), .fresh, st) := rfl

theorem serve_deleteTag_none (h : st.db.tags.find? (fun t => t.id = tagId) = none) :
    serve (.deleteTag tagId) st = (.error (.app (.tagNotFound tagId)), st) := by
  have hread := exec_getTag_fresh tagId st
  rw [h] at hread
  have hrun : Prog.run exec (Call.program (.deleteTag tagId)) .fresh st
      = (.error (.app (.tagNotFound tagId)), .fresh, st) := run_step hread
  rw [serve, hrun]

theorem serve_deleteTag_used (h : st.db.tags.find? (fun t => t.id = tagId) = some tag)
    (hused : linkCount st.db tagId ≠ 0) : serve (.deleteTag tagId) st
      = (.error (.app (.tagInUse tagId tag.name (linkCount st.db tagId))), st) := by
  have hread := exec_getTag_fresh tagId st
  rw [h] at hread
  have hrun : Prog.run exec (Call.program (.deleteTag tagId)) .fresh st
      = (.error (.app (.tagInUse tagId tag.name (linkCount st.db tagId))), .fresh, st) := by
    refine (run_step hread).trans ((run_step (exec_countTaskTags_fresh tagId st)).trans ?_)
    show (Prog.run exec ((do
      if linkCount st.db tagId ≠ 0 then
        throw (.app (.tagInUse tagId tag.name (linkCount st.db tagId)))
      let event ← newEvent (.tagDeleted tag.id tag.name)
      perform (.deleteTag tag)
      stageEvents [event]
      perform .commit : SessionProg Unit) >>= fun _ => return Reply.none) .fresh st) = _
    rw [if_pos hused]
    rfl
  rw [serve, hrun]

/-- The next id is in no table. -/
theorem uuid7_not_mem_mentions (hst : Reachable st) {n : Nat} (hn : st.drawn ≤ n) :
    Runtime.uuid7 n ∉ mentions st.db := fun hmem => by
  obtain ⟨m, hm, heq⟩ := (fresh_of_reachable hst.committed.idle).stored _ hmem
  have hsame : n = m := Runtime.uuid7_injective heq
  change m < st.drawn at hm
  omega

/-- A row under a new id, whose texts can be stored, is staged. -/
theorem check_newRow (hst : Reachable st) {n : Nat} (hn : st.drawn ≤ n) {event : Event}
    (htexts : ∀ s ∈ event.body.texts, Storable s) :
    (Write.insertOutbox (.fromEvent (Runtime.uuid7 n) event)).check st.db = none := by
  have hstored : ¬ ∃ s ∈ event.body.texts, ¬ Storable s := fun ⟨s, hs, hnot⟩ =>
    hnot (htexts s hs)
  have hfree : ¬ ∃ row ∈ st.db.outbox, row.id = Runtime.uuid7 n := by
    rintro ⟨row, hrow, hid⟩
    have hold : row.id ∈ mentions st.db :=
      mem_mentions.2 (.inr (.inr (.inl (List.mem_map_of_mem hrow))))
    rw [hid] at hold
    exact uuid7_not_mem_mentions hst hn hold
  exact (if_neg hstored).trans (if_neg hfree)

/-- The row that the deletion of a tag stages. -/
def deletionRow (tag : Tag) (st : Server) : OutboxRecord Event :=
  .fromEvent (Runtime.uuid7 (st.drawn + 2))
    ⟨Runtime.uuid7 st.drawn, Runtime.now (st.drawn + 1), .tagDeleted tag.id tag.name⟩

/-- It is new, and its text was stored before. -/
theorem check_deletionRow (hst : Reachable st) (hmem : tag ∈ st.db.tags) :
    (Write.insertOutbox (deletionRow tag st)).check st.db = none := by
  refine check_newRow hst (Nat.le_add_right st.drawn 2) fun s hs => ?_
  obtain rfl := List.mem_singleton.1 (show s ∈ [tag.name] from hs)
  exact (hst.committed.stored.tags tag hmem).1.2

/-- The database without a tag that nothing was linked to. -/
def withoutTag (tag : Tag) (st : Server) : Db :=
  { st.db with tags := st.db.tags.filter fun row => row.id ≠ tag.id
               outbox := st.db.outbox ++ [deletionRow tag st] }

/-- **A tag without links is deleted**, and nothing else. -/
theorem serve_deleteTag_unused (hst : Reachable st)
    (h : st.db.tags.find? (fun t => t.id = tagId) = some tag)
    (hunused : linkCount st.db tagId = 0) :
    serve (.deleteTag tagId) st = (.ok .none, ⟨withoutTag tag st, st.drawn + 3⟩) := by
  have hread := exec_getTag_fresh tagId st
  rw [h] at hread
  have hid : tag.id = tagId := by simpa using List.find?_some h
  have hlinks : st.db.taskTags.filter (fun l => l.tagId ≠ tag.id) = st.db.taskTags := by
    refine List.filter_eq_self.2 fun l hl => ?_
    have hnone := List.filter_eq_nil_iff.1 (List.length_eq_zero_iff.1 hunused) l hl
    simpa [hid] using hnone
  have hview : view st.db [.insertOutbox (deletionRow tag st), .deleteTag tag.id]
      = withoutTag tag st := by
    have hwhole : view st.db [.insertOutbox (deletionRow tag st), .deleteTag tag.id]
        = { withoutTag tag st with taskTags := st.db.taskTags.filter fun l => l.tagId ≠ tag.id } :=
      rfl
    rw [hwhole, hlinks]
    rfl
  have hflush : flush st.db ⟨none, [], none, [.outbox (deletionRow tag st)], [.deleteTag tag.id]⟩
      = .ok (flushed ⟨none, [], none, [.outbox (deletionRow tag st)], [.deleteTag tag.id]⟩) :=
    flush_eq_ok.2 ⟨⟨check_deletionRow hst (List.mem_of_find?_eq_some h), rfl, trivial⟩, rfl⟩
  have hcommit : exec .commit ⟨none, [], none, [.outbox (deletionRow tag st)], [.deleteTag tag.id]⟩
      ⟨st.db, st.drawn + 3⟩ = (.ok (), .fresh, ⟨withoutTag tag st, st.drawn + 3⟩) := by
    simp only [exec, hflush]
    rw [← hview]
    rfl
  have hrun : Prog.run exec (Call.program (.deleteTag tagId)) .fresh st
      = (.ok .none, .fresh, ⟨withoutTag tag st, st.drawn + 3⟩) := by
    refine (run_step hread).trans ((run_step (exec_countTaskTags_fresh tagId st)).trans ?_)
    show (Prog.run exec ((do
      if linkCount st.db tagId ≠ 0 then
        throw (.app (.tagInUse tagId tag.name (linkCount st.db tagId)))
      let event ← newEvent (.tagDeleted tag.id tag.name)
      perform (.deleteTag tag)
      stageEvents [event]
      perform .commit : SessionProg Unit) >>= fun _ => return Reply.none) .fresh st) = _
    rw [if_neg (not_not.2 hunused)]
    -- two draws for the event, the deletion, one draw for the row, the row
    refine (run_step (o := .uuid7) rfl).trans ((run_step (o := .now) rfl).trans ?_)
    refine (run_step (o := .deleteTag tag) rfl).trans ((run_step (o := .uuid7) rfl).trans ?_)
    exact (run_step (o := .add _) rfl).trans (run_step hcommit)
  rw [serve, hrun]

/-! ## What the list says -/

/-- The tasks that hold a tag. -/
def holders (db : Db) (tagId : Uuid) : List Task :=
  db.tasks.filter fun t => ⟨t.id, tagId⟩ ∈ db.taskTags

omit [Unicode] [Jsonb] [Runtime] in
/-- **A tag has as many links as there are tasks that hold it.** -/
theorem linkCount_eq {db : Db} (htasks : (db.tasks.map Task.id).Nodup) (hlinks : db.taskTags.Nodup)
    (hlinked : Linked db) (tagId : Uuid) : linkCount db tagId = (holders db tagId).length := by
  let links := db.taskTags.filter fun l => l.tagId = tagId
  have hperm : (links.map TaskTag.taskId).Perm ((holders db tagId).map Task.id) := by
    refine (List.perm_ext_iff_of_nodup ?_ (htasks.sublist (List.filter_sublist.map _))).2 ?_
    · refine List.Nodup.map_on (fun l hl l' hl' hsame => ?_) (hlinks.filter _)
      have htag : l.tagId = tagId := of_decide_eq_true (List.mem_filter.1 hl).2
      have htag' : l'.tagId = tagId := of_decide_eq_true (List.mem_filter.1 hl').2
      cases l
      cases l'
      simp_all
    · intro taskId
      simp only [links, List.mem_map, List.mem_filter, decide_eq_true_eq]
      constructor
      · rintro ⟨l, ⟨hl, rfl⟩, rfl⟩
        obtain ⟨t, ht, hid⟩ := List.mem_map.1 (hlinked.task l hl)
        exact ⟨t, ⟨ht, hid.symm ▸ hl⟩, hid⟩
      · rintro ⟨t, ⟨-, hl⟩, rfl⟩
        exact ⟨_, ⟨hl, rfl⟩, rfl⟩
  have hlength := hperm.length_eq
  rwa [List.length_map, List.length_map] at hlength

omit [Jsonb] [Runtime] in
/-- Shown names are those of one tag each: a name determines its key. -/
theorem nodup_names {db : Db} (h : Consistent db) : (db.tags.map Tag.name).Nodup := by
  have hkeys : tagKeys db = (db.tags.map Tag.name).map Tag.normalizeName := by
    rw [tagKeys, List.map_map]
    exact List.map_congr_left fun t ht => (h.keyed t ht).1
  exact (hkeys ▸ h.keys).of_map _

omit [Unicode] [Jsonb] [Runtime] in
theorem sorted_listTags (db : Db) :
    (listTags db).items.Pairwise fun a b => a.name ≤ b.name := by
  have hrows : (listWithCounts db).Pairwise fun a b => a.1.name ≤ b.1.name :=
    List.pairwise_insertionSort _ _
  exact List.pairwise_map.2 hrows

omit [Jsonb] [Runtime] in
/-- **A list with the items of the other, in order, is the other.** -/
theorem listTags_eq {db : Db} (h : Consistent db) {items : List TagResponse}
    (hsorted : items.Pairwise fun a b => a.name ≤ b.name)
    (hperm : items.Perm (db.tags.map fun tag => .fromTag tag (linkCount db tag.id))) :
    (listTags db).items = items := by
  have hlist := perm_listTags h.ids
  refine List.Perm.eq_of_pairwise (fun a b ha hb hab hba => ?_) (sorted_listTags db) hsorted
    (hlist.trans hperm.symm)
  obtain ⟨tag, htag, rfl⟩ := List.mem_map.1 (hlist.subset ha)
  obtain ⟨tag', htag', rfl⟩ := List.mem_map.1 (hperm.subset hb)
  have hname : tag.name = tag'.name := le_antisymm hab hba
  rw [List.inj_on_of_nodup_map (nodup_names h) htag htag' hname]

omit [Unicode] [Jsonb] [Runtime] in
theorem find?_tag {tags : List Tag} (hids : (tags.map Tag.id).Nodup) (htag : tag ∈ tags) :
    tags.find? (fun row => row.id = tag.id) = some tag := by
  cases hfind : tags.find? fun row => row.id = tag.id with
  | none => exact absurd (decide_eq_true rfl) (List.find?_eq_none.1 hfind tag htag)
  | some row =>
    have hid : row.id = tag.id := by simpa using List.find?_some hfind
    rw [eq_of_tagId hids (List.mem_of_find?_eq_some hfind) htag hid]

/-- **What the list says of a tag is what its deletion meets**: a tag it does not list is not found,
one it counts tasks for is in use, by so many, and any other leaves the list and nothing else. -/
theorem listed_then_deleted (hst : Reachable st) (tagId : Uuid) :
    (∀ item ∈ (listTags st.db).items, item.taskCount = (holders st.db item.id).length)
      ∧ ((∀ item ∈ (listTags st.db).items, item.id ≠ tagId) →
        serve (.deleteTag tagId) st = (.error (.app (.tagNotFound tagId)), st))
      ∧ ∀ item ∈ (listTags st.db).items, item.id = tagId →
        (item.taskCount ≠ 0 → serve (.deleteTag tagId) st
          = (.error (.app (.tagInUse tagId item.name item.taskCount)), st))
        ∧ (item.taskCount = 0 → ∃ st', serve (.deleteTag tagId) st = (.ok .none, st')
          ∧ (listTags st'.db).items = (listTags st.db).items.filter (fun item => item.id ≠ tagId)
          ∧ st'.db.tasks = st.db.tasks ∧ st'.db.taskTags = st.db.taskTags) := by
  have htags := hst.committed.consistent
  have hlist := perm_listTags htags.ids
  refine ⟨fun item hitem => ?_, fun hnone => ?_, fun item hitem hid => ?_⟩
  · obtain ⟨tag, -, rfl⟩ := List.mem_map.1 (hlist.subset hitem)
    exact linkCount_eq (rows_of_reachable hst).ids htags.links htags.linked tag.id
  · refine serve_deleteTag_none (List.find?_eq_none.2 fun tag htag => ?_)
    have hother : tag.id ≠ tagId := hnone _ (hlist.mem_iff.2 (List.mem_map_of_mem htag))
    simpa using hother
  · obtain ⟨tag, htag, rfl⟩ := List.mem_map.1 (hlist.subset hitem)
    obtain rfl : tag.id = tagId := hid
    have hfind := find?_tag htags.ids htag
    refine ⟨serve_deleteTag_used hfind, fun hunused => ?_⟩
    refine ⟨_, serve_deleteTag_unused hst hfind hunused, ?_, rfl, rfl⟩
    -- the rest of the tags, with the links they had
    have hnext : Consistent (withoutTag tag st) := by
      have hstep : Reachable (serve (.deleteTag tag.id) st).2 := hst.tail (.deleteTag tag.id) rfl
      rw [serve_deleteTag_unused hst hfind hunused] at hstep
      exact hstep.committed.consistent
    refine listTags_eq hnext ((sorted_listTags st.db).filter _) ?_
    have hrest := hlist.filter fun item => item.id ≠ tag.id
    rwa [List.filter_map] at hrest

end Deletions

section Tagged

open Plain

/-- The tag that the tagged task holds. -/
theorem listed_then_deleted_tagged :
    (listTags tagged.db).items.map (fun item => (item.name, item.taskCount)) = [(py "Urgent", 1)]
      ∧ ∀ item ∈ (listTags tagged.db).items, serve (.deleteTag item.id) tagged
        = (.error (.app (.tagInUse item.id item.name item.taskCount)), tagged) := by
  have hcounts : ∀ item ∈ (listTags tagged.db).items, item.taskCount ≠ 0 := by decide +kernel
  refine ⟨by decide +kernel, fun item hitem => ?_⟩
  have hmeets := (listed_then_deleted reachable_tagged item.id).2.2 item hitem rfl
  exact hmeets.1 (hcounts item hitem)

end Tagged

end TaskService.Sequential
