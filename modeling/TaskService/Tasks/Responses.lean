import TaskService.Tasks.Listing
import TaskService.Tasks.Service

/-!
# Responses

`TaskResponse` is a task with the names of its tags, which are no column of it. The routes that
return one task ask for its names alone; the list asks once for the names of all tasks of its page.
The rows of that query are grouped as they come.

* **`get?_grouped`**: a group holds the names of its key, in the order of the rows.
* **`getD_namesForTasks`**: the batch answers for each of its tasks what is answered for it alone.
* **`many_eq_map_one`**: so a page is made of the responses of its tasks.
-/

namespace TaskService.Tasks

open Store Tags
open Prog (lift)

structure TaskResponse where
  id : Uuid
  title : PyStr
  description : Option PyStr
  status : PyStr
  priority : Int
  createdAt : Time
  tags : List PyStr
  deriving DecidableEq

/-- `TaskResponse.model_validate`, from the attributes of the row; `tags` is set afterwards. -/
def TaskResponse.modelValidate (task : Task) (tags : List PyStr) : TaskResponse :=
  ⟨task.id, task.title, task.description, task.status, task.priority, task.createdAt, tags⟩

/-! ## One task -/

/-- `_one`. -/
def one (task : Task) : SessionProg TaskResponse := do
  let tags ← Tags.namesForTask task.id
  return .modelValidate task tags

/-- `get_task`. -/
def getTask (taskId : Uuid) : SessionProg TaskResponse := do
  let task ← Repository.get taskId
  one task

/-! ## A page of tasks -/

/-- `SELECT task_id, name FROM task_tags JOIN tags … WHERE task_id IN (…)`. -/
def joinedNames (db : Db) (taskIds : List Uuid) : List (Uuid × PyStr) :=
  (db.taskTags.filter fun link => link.taskId ∈ taskIds).flatMap fun link =>
    (db.tags.filter fun tag => tag.id = link.tagId).map fun tag => (link.taskId, tag.name)

/-- `… ORDER BY name`. -/
def orderedNames (db : Db) (taskIds : List Uuid) : List (Uuid × PyStr) :=
  (joinedNames db taskIds).insertionSort fun a b => a.2 ≤ b.2

/-- `grouped.setdefault(task_id, []).append(name)`. -/
def group (grouped : Dict Uuid (List PyStr)) (row : Uuid × PyStr) : Dict Uuid (List PyStr) :=
  Dict.set grouped row.1 ((Dict.get? grouped row.1).getD [] ++ [row.2])

/-- The loop over the rows. -/
def grouped (rows : List (Uuid × PyStr)) : Dict Uuid (List PyStr) := rows.foldl group []

/-- `names_for_tasks`. -/
def namesForTasks (db : Db) (taskIds : List Uuid) : Dict Uuid (List PyStr) :=
  if taskIds = [] then [] else grouped (orderedNames db taskIds)

/-- `_many`. -/
def many (db : Db) (tasks : List Task) : List TaskResponse :=
  let byTask := namesForTasks db (tasks.map Task.id)
  tasks.map fun task => .modelValidate task ((Dict.get? byTask task.id).getD [])

structure TaskListResponse where
  items : List TaskResponse
  total : Nat
  limit : Nat
  offset : Nat

/-- `list_tasks`, its queries reading one state of the database. -/
def listTasks [Unicode] (db : Db) (params : TaskListParams) : TaskListResponse :=
  let (items, total) := list db params
  ⟨many db items, total, params.limit, params.offset⟩

/-! ## Groups -/

theorem get?_group (d : Dict Uuid (List PyStr)) (row : Uuid × PyStr) (taskId : Uuid) :
    (Dict.get? (group d row) taskId).getD []
      = (Dict.get? d taskId).getD [] ++ if row.1 = taskId then [row.2] else [] := by
  unfold group
  by_cases hid : row.1 = taskId
  · rw [← hid, Dict.get?_set_self, if_pos rfl]
    rfl
  · rw [Dict.get?_set_of_ne _ (Ne.symm hid), if_neg hid, List.append_nil]

/-- **A group holds the names of its key**, in the order of the rows. -/
theorem get?_grouped (rows : List (Uuid × PyStr)) (taskId : Uuid) :
    (Dict.get? (grouped rows) taskId).getD []
      = (rows.filter fun row => row.1 = taskId).map Prod.snd := by
  have hfold : ∀ d : Dict Uuid (List PyStr), (Dict.get? (rows.foldl group d) taskId).getD []
      = (Dict.get? d taskId).getD [] ++ (rows.filter fun row => row.1 = taskId).map Prod.snd := by
    induction rows with
    | nil => exact fun d => (List.append_nil _).symm
    | cons row rows ih =>
      intro d
      rw [List.foldl_cons, ih, get?_group, List.append_assoc]
      by_cases hid : row.1 = taskId <;> simp [hid]
  exact hfold []

/-! ## The batch and its tasks -/

variable {db : Db}

/-- The tags of a task, link by link. -/
def linkedTags (db : Db) (taskId : Uuid) : List Tag :=
  (db.linksOf taskId).flatMap fun link => db.tags.filter fun tag => tag.id = link.tagId

/-- The rows of one task are those of its links. -/
theorem names_joinedNames {taskIds : List Uuid} {taskId : Uuid} (hasked : taskId ∈ taskIds) :
    ((joinedNames db taskIds).filter fun row => row.1 = taskId).map Prod.snd
      = (linkedTags db taskId).map Tag.name := by
  unfold joinedNames linkedTags Db.linksOf
  induction db.taskTags with
  | nil => rfl
  | cons link links ih =>
    by_cases hid : link.taskId = taskId
    · subst hid
      have hall : ((db.tags.filter fun tag => tag.id = link.tagId).map fun tag =>
          (link.taskId, tag.name)).filter (fun row => row.1 = link.taskId)
          = (db.tags.filter fun tag => tag.id = link.tagId).map fun tag =>
            (link.taskId, tag.name) :=
        List.filter_eq_self.2 fun row hrow => by
          obtain ⟨tag, -, rfl⟩ := List.mem_map.1 hrow
          exact decide_eq_true rfl
      rw [List.filter_cons_of_pos (by simpa using hasked), List.filter_cons_of_pos (by simp),
        List.flatMap_cons, List.flatMap_cons, List.filter_append, List.map_append, List.map_append,
        ih, hall, List.map_map]
      rfl
    · rw [List.filter_cons_of_neg (p := fun l : TaskTag => l.taskId = taskId) (by simpa using hid)]
      by_cases hlink : link.taskId ∈ taskIds
      · have hnone : ((db.tags.filter fun tag => tag.id = link.tagId).map fun tag =>
            (link.taskId, tag.name)).filter (fun row => row.1 = taskId) = [] :=
          List.filter_eq_nil_iff.2 fun row hrow => by
            obtain ⟨tag, -, rfl⟩ := List.mem_map.1 hrow
            simpa using hid
        rw [List.filter_cons_of_pos (by simpa using hlink), List.flatMap_cons, List.filter_append,
          hnone, List.nil_append, ih]
      · rw [List.filter_cons_of_neg (by simpa using hlink), ih]

/-- **The tags over the links of a task are its tags**, each of them once. -/
theorem perm_linkedTags (hdb : SchemaKeys db) (taskId : Uuid) :
    (linkedTags db taskId).Perm (db.tagsOf taskId) := by
  have htags : db.tags.Nodup := hdb.tagIds.of_map _
  have hlinked : (linkedTags db taskId).Nodup := by
    refine List.nodup_flatMap.2 ⟨fun link _ => htags.filter _, ?_⟩
    have hlinks : (db.linksOf taskId).Pairwise (· ≠ ·) := hdb.links.filter _
    refine hlinks.imp_of_mem fun {a b} ha hb hne tag hta htb => hne ?_
    obtain ⟨-, hida⟩ := List.mem_filter.1 hta
    obtain ⟨-, hidb⟩ := List.mem_filter.1 htb
    have htask : a.taskId = b.taskId := by
      rw [of_decide_eq_true (List.mem_filter.1 ha).2, of_decide_eq_true (List.mem_filter.1 hb).2]
    have htag : a.tagId = b.tagId := (of_decide_eq_true hida).symm.trans (of_decide_eq_true hidb)
    cases a
    cases b
    simp_all
  refine (List.perm_ext_iff_of_nodup hlinked (htags.filter _)).2 fun tag => ?_
  simp only [linkedTags, Db.linksOf, List.mem_flatMap, List.mem_filter, decide_eq_true_eq]
  constructor
  · rintro ⟨⟨linkTask, linkTag⟩, ⟨hlink, rfl⟩, htag, rfl⟩
    exact ⟨htag, hlink⟩
  · rintro ⟨htag, hlink⟩
    exact ⟨_, ⟨hlink, rfl⟩, htag, rfl⟩

/-- **The batch answers for each task what is answered for it alone.** -/
theorem getD_namesForTasks (hdb : SchemaKeys db) {taskIds : List Uuid} {taskId : Uuid}
    (hasked : taskId ∈ taskIds) :
    (Dict.get? (namesForTasks db taskIds) taskId).getD [] = db.tagNames taskId := by
  have hne : taskIds ≠ [] := List.ne_nil_of_mem hasked
  rw [namesForTasks, if_neg hne, get?_grouped, Db.tagNames]
  -- both are sorted, and they have the same names
  have hsorted : (((orderedNames db taskIds).filter fun row => row.1 = taskId).map
      Prod.snd).Pairwise (· ≤ ·) := by
    refine List.pairwise_map.2 (List.Pairwise.filter _ ?_)
    exact List.pairwise_insertionSort (fun a b : Uuid × PyStr => a.2 ≤ b.2) _
  refine List.Perm.eq_of_pairwise' hsorted (List.pairwise_insertionSort _ _) ?_
  have hordered : List.Perm (((orderedNames db taskIds).filter fun row => row.1 = taskId).map
      Prod.snd) ((linkedTags db taskId).map Tag.name) := by
    rw [← names_joinedNames hasked]
    exact ((List.perm_insertionSort _ _).filter _).map _
  exact hordered.trans (((perm_linkedTags hdb taskId).map _).trans
    (List.perm_insertionSort _ _).symm)

/-- The response for one task. -/
def oneOf (db : Db) (task : Task) : TaskResponse := .modelValidate task (db.tagNames task.id)

/-- **A page is made of the responses of its tasks.** -/
theorem many_eq_map_one (hdb : SchemaKeys db) (tasks : List Task) :
    many db tasks = tasks.map (oneOf db) :=
  List.map_congr_left fun _ htask =>
    congrArg _ (getD_namesForTasks hdb (List.mem_map_of_mem htask))

end TaskService.Tasks
