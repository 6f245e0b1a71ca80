import TaskService.Tagging.Failures

/-!
# What a tagged write leaves to the others

Sessions that write different tasks under different titles stay out of each other's way: a commit of
the one leaves the tasks of the others, their links and the tags they found as they were.

* **`writes_of_effect`**: what a commit does to the tables.
* **`Writes.lasts`**: what another session was told lasts.
* **`Writes.tagged`**: a task that another session has tagged stays tagged.
-/

namespace TaskService.Tagging

open Store Tasks Tags Workflows Concurrency Sessions TaskService.Sequential

/-! ## Tasks and titles -/

/-- A task of a session: the one its call names, or one whose id it drew. -/
def OwnTask (call : Call) (told : Told) (taskId : Uuid) : Prop :=
  taskOf call = some taskId ∨ taskId ∈ told.ids

/-- Another row has had the title in these tables. -/
def KeepsTitle (db : Db) (row : Task) : Prop :=
  ∃ old ∈ db.tasks, old.id = row.id ∧ old.titleKey = row.titleKey

variable [Unicode]

/-- The row has the title the call submits. -/
def Titled (call : Call) (row : Task) : Prop :=
  ∃ title, titleOf call = some title ∧ row.titleKey = Task.normalizeTitle title

/-- The task a call is about: the one it names, or the one that has its title. -/
inductive Concerns (db : Db) : Call → Uuid → Prop where
  | named {call : Call} {taskId : Uuid} (h : taskOf call = some taskId) : Concerns db call taskId
  | created {title : PyStr} {description status : Option PyStr} {priority : Int}
      {tags : Option (List PyStr)} {row : Task} (hrow : row ∈ db.tasks)
      (hkey : row.titleKey = Task.normalizeTitle title) :
      Concerns db (.create title description status priority tags) row.id

/-- The task is linked to a tag for every name its call supplied. -/
def Tagged (db : Db) (call : Call) (taskId : Uuid) : Prop :=
  Concerns db call taskId ∧ ∀ names, suppliedTags call = some names →
    ∀ name ∈ names, Tag.normalizeName name ∈ linkedKeys db taskId

/-! ## A commit -/

/-- What a commit does to the tables. -/
structure Writes (call : Call) (told : Told) (taskId : Uuid) (db db' : Db) : Prop where
  own : OwnTask call told taskId
  concerns : Concerns db' call taskId
  tags : SetsTags call taskId db db'
  others : ∀ row ∈ db.tasks, row.id ≠ taskId → row ∈ db'.tasks
  found : ∀ other, other ≠ taskId →
    db'.tasks.find? (fun row => row.id = other) = db.tasks.find? fun row => row.id = other
  ids : ∀ id ∈ db.tasks.map Task.id, id ∈ db'.tasks.map Task.id
  workflows : db'.workflows = db.workflows
  titles : ∀ row ∈ db'.tasks, KeepsTitle db row ∨ Titled call row

variable {call : Call} {told : Told} {taskId : Uuid} {db db' : Db}

/-- The request's names are linked. -/
theorem tagged_of_setsTags (hconcerns : Concerns db' call taskId)
    (h : SetsTags call taskId db db') :
    Tagged db' call taskId := by
  refine ⟨hconcerns, fun names hnames name hname => (h.supplied names hnames).mem_iff.2 ?_⟩
  exact List.mem_dedup.2 (List.mem_map_of_mem hname)

omit [Unicode] in
/-- A change leaves the rows of other tasks. -/
theorem find?_amended (tasks : List Task) (previous current : Task) {other : Uuid}
    (hother : other ≠ previous.id) :
    (amended tasks previous current).find? (fun row => row.id = other)
      = tasks.find? fun row => row.id = other := by
  have hids : (fun row => decide (row.id = other)) ∘ (fun row : Task =>
      if row.id = previous.id then updated previous current row else row)
        = fun row => decide (row.id = other) := by
    funext row
    show decide ((if _ then updated previous current row else row).id = other) = _
    split <;> rfl
  rw [amended, List.find?_map, hids]
  cases hfind : tasks.find? fun row => row.id = other with
  | none => rfl
  | some row =>
    have hid : row.id = other := by simpa using List.find?_some hfind
    exact congrArg some (if_neg (hid ▸ hother))

/-- **What a commit does to the tables.** -/
theorem writes_of_effect [Jsonb] {tx : Tx} (htold : Lasting told db) (hdb : Consistent db)
    (hdb' : Consistent db') (hcall : setsTags call = true) (h : Effect told tx db call db') :
    ∃ taskId, Writes call told taskId db db' := by
  cases h with
  | @created title description status priority tags task minted retag event rows htask hstage =>
    have hasks := @asks_create title description status priority tags _
      (linksOf_drawn hdb (htold.fresh _ htask.drawn))
    have hkey : task.titleKey = Task.normalizeTitle title := by
      rw [(Task.fromInput_eq_ok.1 htask.made).2]
    refine ⟨task.id, .inr htask.drawn,
      .created (List.mem_append_right _ (List.mem_singleton_self _)) hkey,
      setsTags_of_stage hdb hdb' hasks htold.lasts hstage rfl rfl,
      fun row hrow _ => List.mem_append_left _ hrow, fun other hother => ?_, fun id hid => ?_, rfl,
      fun row hrow => ?_⟩
    · show (db.tasks ++ [task]).find? _ = _
      rw [List.find?_append, List.find?_singleton, if_neg (by simpa using hother.symm),
        Option.or_none]
    · show id ∈ (db.tasks ++ [task]).map Task.id
      rw [List.map_append]
      exact List.mem_append_left _ hid
    · -- A key is one that was stored, or the new task's, made from the title of the call.
      rcases List.mem_append.1 hrow with hrow | hrow
      · exact .inl ⟨row, hrow, rfl, rfl⟩
      · obtain rfl := List.mem_singleton.1 hrow
        exact .inr ⟨title, rfl, hkey⟩
  | @changed _ taskId names engine previous current minted retag event rows htask hstage =>
    obtain ⟨hnamed, hasks⟩ := asks_of_changes (db.linksOf taskId) htask
    refine ⟨taskId, .inl hnamed, .named hnamed,
      setsTags_of_stage hdb hdb' hasks htold.lasts hstage rfl rfl, fun row hrow hother => ?_,
      fun other hother => ?_, fun id hid => ?_, rfl, fun row hrow => ?_⟩
    · rw [← htask.ids.1] at hother
      exact List.mem_map.2 ⟨row, hrow, if_neg hother⟩
    · rw [← htask.ids.1] at hother
      exact find?_amended db.tasks previous current hother
    · rw [← map_id_amended db.tasks previous current] at hid
      exact hid
    · obtain ⟨old, hold, rfl⟩ := List.mem_map.1 hrow
      split
      · -- the key of the title is as it was stored, or that of the title of the call
        by_cases hmoved : previous.titleKey = current.titleKey
        · exact .inl ⟨old, hold, rfl, (if_pos hmoved).symm⟩
        · obtain ⟨title, htitle, hkey⟩ := titleOf_changes htask hmoved
          exact .inr ⟨title, htitle, (if_neg hmoved).trans hkey⟩
      · exact .inl ⟨old, hold, rfl, rfl⟩
  | deleted | tagDeleted | defined | seeded => cases hcall

/-! ## The others -/

/-- The task whose tags an answer tells. -/
def Answer.tagsOf? : Answer → Option Uuid
  | .tagNames taskId _ | .unlinked taskId _ => some taskId
  | _ => none

namespace Writes

variable {other : Uuid}

theorem mem_links (h : Writes call told taskId db db') (hother : other ≠ taskId) {tagId : Uuid} :
    ⟨other, tagId⟩ ∈ db'.taskTags ↔ (⟨other, tagId⟩ : TaskTag) ∈ db.taskTags := by
  have hlinks := h.tags.others other hother
  have hmem : ∀ {db : Db}, (⟨other, tagId⟩ : TaskTag) ∈ db.linksOf other
      ↔ (⟨other, tagId⟩ : TaskTag) ∈ db.taskTags := by simp [mem_linksOf]
  rw [← hmem, hlinks, hmem]

/-- The tags of the other tasks have the names they had. -/
theorem tagNames (h : Writes call told taskId db db') (hdb : Consistent db) (hdb' : Consistent db')
    (hother : other ≠ taskId) : db'.tagNames other = db.tagNames other := by
  obtain ⟨minted, htags, -⟩ := h.tags.vocabulary
  have hids := hdb'.ids
  rw [htags] at hids
  -- a new tag is linked to no other task
  have hnew : minted.filter (fun t => (⟨other, t.id⟩ : TaskTag) ∈ db.taskTags) = [] := by
    refine List.filter_eq_nil_iff.2 fun t ht hlink => ?_
    obtain ⟨old, hold, hid⟩ := List.mem_map.1 (hdb.linked.tag _ (of_decide_eq_true hlink))
    rw [List.map_append] at hids
    exact (List.nodup_append.1 hids).2.2 _ (List.mem_map_of_mem hold) _ (List.mem_map_of_mem ht) hid
  have hsame : db'.tagsOf other = db.tagsOf other := by
    unfold Db.tagsOf
    simp only [h.mem_links hother]
    rw [htags, List.filter_append, hnew, List.append_nil]
  rw [Db.tagNames, Db.tagNames, hsame]

/-- **What another session was told lasts.** -/
theorem lasts (h : Writes call told taskId db db') (hdb : Consistent db) (hdb' : Consistent db')
    {answer : Answer} (hanswer : answer.Lasts db)
    (habout : ∀ other ∈ Answer.tagsOf? answer, other ≠ taskId) : answer.Lasts db' := by
  cases answer with
  | task id found =>
    cases found with
    | none => trivial
    | some t => exact h.ids t.id hanswer
  | tagNames other names => exact hanswer.trans (h.tagNames hdb hdb' (habout other rfl)).symm
  | unlinked other links => exact hanswer.trans (h.tags.others other (habout other rfl)).symm
  | tagRows keys rows =>
    obtain ⟨minted, htags, -⟩ := h.tags.vocabulary
    intro t ht
    rw [htags]
    exact List.mem_append_left _ (hanswer t ht)
  | _ => trivial

/-- **A task that is tagged stays tagged.** -/
theorem tagged (h : Writes call told taskId db db') {call' : Call} (htagged : Tagged db call' other)
    (hother : other ≠ taskId) : Tagged db' call' other := by
  obtain ⟨hconcerns, hlinked⟩ := htagged
  refine ⟨?_, fun names hnames name hname => ?_⟩
  · cases hconcerns with
    | named hnamed => exact .named hnamed
    | created hrow hkey => exact .created (h.others _ hrow hother) hkey
  · obtain ⟨minted, htags, -⟩ := h.tags.vocabulary
    obtain ⟨t, ht, hlink, hkey⟩ := mem_linkedKeys.1 (hlinked names hnames name hname)
    refine mem_linkedKeys.2 ⟨t, ?_, (h.mem_links hother).2 hlink, hkey⟩
    rw [htags]
    exact List.mem_append_left _ ht

end Writes

end TaskService.Tagging
