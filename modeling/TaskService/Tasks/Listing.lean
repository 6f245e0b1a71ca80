import Mathlib.Data.List.Dedup
import Mathlib.Data.List.Perm.Subperm
import Mathlib.Data.Prod.Lex
import TaskService.Lib.Paging
import TaskService.Py.Folding
import TaskService.Store.Database

/-!
# The task list

`TaskService.list`: the tag filter is resolved to task ids first, then one query reads the items and
one counts them. All three are read off one state of the database; the driver's bound on the number
of arguments of a query is left out.

* **`mem_taskIdsMatching`**: counting the distinct tags of a group decides whether a task holds
  every tag asked for.
* **`list_eq`**: the items are a window of the matching tasks in order, the total is their number.
-/

namespace TaskService.Tasks

open Store Tags

/-- `?op=`. -/
inductive TagMatchOp where
  | and
  | or
  deriving DecidableEq

inductive TaskSortField where
  | priority
  deriving DecidableEq

inductive OrderDirection where
  | asc
  | desc
  deriving DecidableEq

structure TaskListParams where
  statuses : Option (List PyStr)
  tags : Option (List PyStr)
  op : TagMatchOp
  orderBy : TaskSortField
  orderDir : OrderDirection
  limit : Nat
  offset : Nat

/-! ## The tag filter -/

/-- `FROM task_tags JOIN tags … WHERE name_key IN (…)`, one row for each link and tag that meet. -/
def linksWithKeys (db : Db) (keys : List PyStr) : List TaskTag :=
  db.taskTags.flatMap fun link =>
    (db.tags.filter fun tag => tag.id = link.tagId ∧ tag.nameKey ∈ keys).map fun _ => link

/-- `GROUP BY task_id HAVING COUNT(DISTINCT tag_id) = …`, for the group of one task. -/
def distinctTags (links : List TaskTag) (taskId : Uuid) : List Uuid :=
  ((links.filter fun link => link.taskId = taskId).map TaskTag.tagId).dedup

/-- `task_ids_matching`. -/
def taskIdsMatching (db : Db) (nameKeys : List PyStr) (matchAll : Bool) : List Uuid :=
  if nameKeys = [] then []
  else
    let distinctKeys := nameKeys.dedup
    let links := linksWithKeys db distinctKeys
    let taskIds := (links.map TaskTag.taskId).dedup
    if matchAll then
      taskIds.filter fun taskId => (distinctTags links taskId).length = distinctKeys.length
    else taskIds

/-! ## The two queries -/

/-- `WHERE status IN (…)`, left out when no status is asked for. -/
def whereStatus : Option (List PyStr) → List Task → List Task
  | none, rows => rows
  | some statuses, rows =>
    if statuses = [] then rows else rows.filter fun t => t.status ∈ statuses

/-- `WHERE id IN (…)`: `none` is no filter, an empty set still is one. -/
def whereIds : Option (List Uuid) → List Task → List Task
  | none, rows => rows
  | some taskIds, rows => rows.filter fun t => t.id ∈ taskIds

/-- The column a sort field names. -/
def TaskSortField.column (t : Task) : TaskSortField → Int
  | .priority => t.priority

/-- What `ORDER BY` compares: the sort column, negated when it is descending, `created_at`, `id`. -/
def orderKey (orderBy : TaskSortField) (orderDir : OrderDirection) (t : Task) :
    Int ×ₗ (Time ×ₗ Uuid) :=
  let value := orderBy.column t
  let sortValue := match orderDir with
    | .asc => value
    | .desc => -value
  toLex (sortValue, toLex (t.createdAt, t.id))

/-- `SQLModelTaskRepository.list`. -/
def repositoryList (db : Db) (statuses : Option (List PyStr)) (taskIds : Option (List Uuid))
    (orderBy : TaskSortField) (orderDir : OrderDirection) (limit offset : Nat) : List Task × Nat :=
  let base := whereIds taskIds (whereStatus statuses db.tasks)
  let count := (whereIds taskIds (whereStatus statuses db.tasks)).length
  let ordered := base.insertionSort fun a b =>
    orderKey orderBy orderDir a ≤ orderKey orderBy orderDir b
  ((ordered.drop offset).take limit, count)

/-! ## What the filter asks -/

/-- The keys the database's schema enforces and the list relies on. -/
structure SchemaKeys (db : Db) : Prop where
  taskIds : (db.tasks.map Task.id).Nodup
  tagIds : (db.tags.map Tag.id).Nodup
  nameKeys : (db.tags.map Tag.nameKey).Nodup
  links : db.taskTags.Nodup

/-- The task is linked to a tag with this key. -/
def Holds (db : Db) (taskId : Uuid) (key : PyStr) : Prop :=
  ∃ tag ∈ db.tags, tag.nameKey = key ∧ ⟨taskId, tag.id⟩ ∈ db.taskTags

theorem mem_linksWithKeys {db : Db} {keys : List PyStr} {link : TaskTag} :
    link ∈ linksWithKeys db keys ↔
      link ∈ db.taskTags ∧ ∃ tag ∈ db.tags, tag.id = link.tagId ∧ tag.nameKey ∈ keys := by
  simp only [linksWithKeys, List.mem_flatMap, List.mem_map, List.mem_filter, decide_eq_true_eq]
  constructor
  · rintro ⟨_, hlink, tag, ⟨htag, hon⟩, rfl⟩
    exact ⟨hlink, tag, htag, hon⟩
  · rintro ⟨hlink, tag, htag, hon⟩
    exact ⟨link, hlink, tag, ⟨htag, hon⟩, rfl⟩

/-- The tags with one of the keys that a task is linked to. -/
def heldTags (db : Db) (keys : List PyStr) (taskId : Uuid) : List Tag :=
  db.tags.filter fun tag => tag.nameKey ∈ keys ∧ ⟨taskId, tag.id⟩ ∈ db.taskTags

theorem mem_heldTags {db : Db} {keys : List PyStr} {taskId : Uuid} {tag : Tag} :
    tag ∈ heldTags db keys taskId ↔
      tag ∈ db.tags ∧ tag.nameKey ∈ keys ∧ ⟨taskId, tag.id⟩ ∈ db.taskTags := by
  simp only [heldTags, List.mem_filter, decide_eq_true_eq]

/-- The group of a task counts the tags it holds. -/
theorem length_distinctTags {db : Db} (hdb : SchemaKeys db) (keys : List PyStr) (taskId : Uuid) :
    (distinctTags (linksWithKeys db keys) taskId).length = (heldTags db keys taskId).length := by
  have hheld : ((heldTags db keys taskId).map Tag.id).Nodup :=
    hdb.tagIds.sublist (List.filter_sublist.map Tag.id)
  have hperm : (distinctTags (linksWithKeys db keys) taskId).Perm
      ((heldTags db keys taskId).map Tag.id) := by
    apply (List.perm_ext_iff_of_nodup (List.nodup_dedup _) hheld).mpr
    intro tagId
    simp only [List.mem_dedup, List.mem_map, List.mem_filter, mem_linksWithKeys, mem_heldTags,
      decide_eq_true_eq]
    constructor
    · rintro ⟨⟨_, _⟩, ⟨⟨hlink, tag, htag, rfl, hkey⟩, rfl⟩, rfl⟩
      exact ⟨tag, ⟨htag, hkey, hlink⟩, rfl⟩
    · rintro ⟨tag, ⟨htag, hkey, hlink⟩, rfl⟩
      exact ⟨⟨taskId, tag.id⟩, ⟨⟨hlink, tag, htag, rfl, hkey⟩, rfl⟩, rfl⟩
  rw [hperm.length_eq, List.length_map]

/-- The count is right exactly when no key is missing. -/
theorem length_heldTags_iff {db : Db} (hdb : SchemaKeys db) {keys : List PyStr} (hkeys : keys.Nodup)
    (taskId : Uuid) :
    (heldTags db keys taskId).length = keys.length ↔ ∀ key ∈ keys, Holds db taskId key := by
  have hnodup : ((heldTags db keys taskId).map Tag.nameKey).Nodup :=
    hdb.nameKeys.sublist (List.filter_sublist.map Tag.nameKey)
  have hsub : (heldTags db keys taskId).map Tag.nameKey ⊆ keys := by
    intro key hkey
    obtain ⟨tag, htag, rfl⟩ := List.mem_map.mp hkey
    exact (mem_heldTags.mp htag).2.1
  have hsubperm := hnodup.subperm hsub
  constructor
  · intro hlen key hkey
    have hperm := hsubperm.perm_of_length_le (by rw [List.length_map]; omega)
    obtain ⟨tag, htag, rfl⟩ := List.mem_map.mp (hperm.mem_iff.mpr hkey)
    obtain ⟨htag, _, hlink⟩ := mem_heldTags.mp htag
    exact ⟨tag, htag, rfl, hlink⟩
  · intro hall
    have hsup : keys ⊆ (heldTags db keys taskId).map Tag.nameKey := by
      intro key hkey
      obtain ⟨tag, htag, rfl, hlink⟩ := hall key hkey
      exact List.mem_map.mpr ⟨tag, mem_heldTags.mpr ⟨htag, hkey, hlink⟩, rfl⟩
    have hle := (hkeys.subperm hsup).length_le
    have hge := hsubperm.length_le
    rw [List.length_map] at hle hge
    omega

/-- **The tag filter**: every key asked for, or one of them. -/
theorem mem_taskIdsMatching {db : Db} (hdb : SchemaKeys db) {keys : List PyStr} (hkeys : keys ≠ [])
    (matchAll : Bool) (taskId : Uuid) :
    taskId ∈ taskIdsMatching db keys matchAll ↔
      if matchAll then ∀ key ∈ keys, Holds db taskId key
      else ∃ key ∈ keys, Holds db taskId key := by
  have hany : taskId ∈ ((linksWithKeys db keys.dedup).map TaskTag.taskId).dedup ↔
      ∃ key ∈ keys, Holds db taskId key := by
    simp only [List.mem_dedup, List.mem_map, mem_linksWithKeys]
    constructor
    · rintro ⟨⟨_, _⟩, ⟨hlink, tag, htag, rfl, hkey⟩, rfl⟩
      exact ⟨tag.nameKey, hkey, tag, htag, rfl, hlink⟩
    · rintro ⟨_, hkey, tag, htag, rfl, hlink⟩
      exact ⟨⟨taskId, tag.id⟩, ⟨hlink, tag, htag, rfl, hkey⟩, rfl⟩
  unfold taskIdsMatching
  rw [if_neg hkeys]
  cases matchAll with
  | false => exact hany
  | true =>
    show taskId ∈ List.filter _ _ ↔ ∀ key ∈ keys, Holds db taskId key
    simp only [List.mem_filter, hany, decide_eq_true_eq, length_distinctTags hdb,
      length_heldTags_iff hdb (List.nodup_dedup keys), List.mem_dedup]
    -- a task that holds every key holds the first one, so it has a group
    constructor
    · exact And.right
    · intro hall
      obtain ⟨key, hkey⟩ := List.exists_mem_of_ne_nil keys hkeys
      exact ⟨⟨key, hkey, hall key hkey⟩, hall⟩

/-! ## The order -/

/-- Comes before in the list: by priority in the requested direction, then the older, then the
smaller id. -/
def Before (orderDir : OrderDirection) (a b : Task) : Prop :=
  match orderDir with
  | .asc => a.priority < b.priority ∨ a.priority = b.priority ∧ older a b
  | .desc => b.priority < a.priority ∨ a.priority = b.priority ∧ older a b
where
  older (a b : Task) : Prop :=
    a.createdAt < b.createdAt ∨ a.createdAt = b.createdAt ∧ a.id < b.id

theorem orderKey_lt_iff {orderBy : TaskSortField} {orderDir : OrderDirection} {a b : Task} :
    orderKey orderBy orderDir a < orderKey orderBy orderDir b ↔ Before orderDir a b := by
  cases orderBy
  cases orderDir with
  | asc => simp only [orderKey, TaskSortField.column, Before, Before.older, Prod.Lex.toLex_lt_toLex]
  | desc =>
    simp only [orderKey, TaskSortField.column, Before, Before.older, Prod.Lex.toLex_lt_toLex,
      Int.neg_lt_neg_iff, Int.neg_inj]

/-- Tasks with different ids have different keys. -/
theorem id_of_orderKey_eq {orderBy : TaskSortField} {orderDir : OrderDirection} {a b : Task}
    (h : orderKey orderBy orderDir a = orderKey orderBy orderDir b) : a.id = b.id :=
  congrArg (fun key => (ofLex (ofLex key).2).2) h

/-- Sorting rows with distinct ids puts each strictly before the next ones. -/
theorem pairwise_before (orderBy : TaskSortField) (orderDir : OrderDirection) {rows : List Task}
    (hids : (rows.map Task.id).Nodup) :
    (rows.insertionSort fun a b =>
      orderKey orderBy orderDir a ≤ orderKey orderBy orderDir b).Pairwise (Before orderDir) := by
  have htotal : Std.Total fun a b => orderKey orderBy orderDir a ≤ orderKey orderBy orderDir b :=
    ⟨fun a b => le_total _ _⟩
  have htrans : IsTrans Task fun a b => orderKey orderBy orderDir a ≤ orderKey orderBy orderDir b :=
    ⟨fun _ _ _ => le_trans⟩
  have hsorted := List.pairwise_insertionSort
    (fun a b => orderKey orderBy orderDir a ≤ orderKey orderBy orderDir b) rows
  have hids' : ((rows.insertionSort fun a b =>
      orderKey orderBy orderDir a ≤ orderKey orderBy orderDir b).map Task.id).Nodup :=
    (((List.perm_insertionSort _ rows).map Task.id).nodup_iff).mpr hids
  have hne := List.pairwise_map.mp hids'
  refine (hsorted.and hne).imp ?_
  intro a b ⟨hle, hid⟩
  exact orderKey_lt_iff.mp (lt_of_le_of_ne hle fun heq => hid (id_of_orderKey_eq heq))

/-! ## The list -/

theorem mem_whereStatus {statuses : Option (List PyStr)} {rows : List Task} {t : Task} :
    t ∈ whereStatus statuses rows ↔
      t ∈ rows ∧ ∀ asked ∈ statuses, asked ≠ [] → t.status ∈ asked := by
  cases statuses with
  | none => simp [whereStatus]
  | some asked =>
    by_cases h : asked = []
    · simp [whereStatus, h]
    · simp [whereStatus, h]

theorem mem_whereIds {taskIds : Option (List Uuid)} {rows : List Task} {t : Task} :
    t ∈ whereIds taskIds rows ↔ t ∈ rows ∧ ∀ ids ∈ taskIds, t.id ∈ ids := by
  cases taskIds with
  | none => simp [whereIds]
  | some ids => simp [whereIds]

theorem where_sublist (taskIds : Option (List Uuid)) (statuses : Option (List PyStr))
    (rows : List Task) : (whereIds taskIds (whereStatus statuses rows)).Sublist rows := by
  have hids : ∀ rows, (whereIds taskIds rows).Sublist rows := by
    intro rows
    cases taskIds with
    | none => exact List.Sublist.refl rows
    | some ids => exact List.filter_sublist
  have hstatuses : (whereStatus statuses rows).Sublist rows := by
    unfold whereStatus
    split
    · exact List.Sublist.refl rows
    · split
      · exact List.Sublist.refl rows
      · exact List.filter_sublist
  exact (hids _).trans hstatuses

section Params

variable [Unicode]

/-- The tag filter of `TaskService.list`, resolved to task ids. -/
def taskIdsFor (db : Db) (params : TaskListParams) : Option (List Uuid) :=
  match params.tags with
  | none => none
  | some tags =>
    if tags = [] then none
    else some (taskIdsMatching db (tags.map Tag.normalizeName) (params.op = .and))

/-- `TaskService.list`. -/
def list (db : Db) (params : TaskListParams) : List Task × Nat :=
  repositoryList db params.statuses (taskIdsFor db params) params.orderBy params.orderDir
    params.limit params.offset

/-- What the parameters ask of a task. -/
structure Matches (db : Db) (params : TaskListParams) (t : Task) : Prop where
  status : ∀ asked ∈ params.statuses, asked ≠ [] → t.status ∈ asked
  everyTag : params.op = .and → ∀ names ∈ params.tags, ∀ name ∈ names,
    Holds db t.id (Tag.normalizeName name)
  someTag : params.op = .or → ∀ names ∈ params.tags, names ≠ [] →
    ∃ name ∈ names, Holds db t.id (Tag.normalizeName name)

/-- The matching tasks, in order. -/
def matching (db : Db) (params : TaskListParams) : List Task :=
  (whereIds (taskIdsFor db params) (whereStatus params.statuses db.tasks)).insertionSort fun a b =>
    orderKey params.orderBy params.orderDir a ≤ orderKey params.orderBy params.orderDir b

theorem mem_taskIdsFor {db : Db} (hdb : SchemaKeys db) {params : TaskListParams} {taskId : Uuid} :
    (∀ ids ∈ taskIdsFor db params, taskId ∈ ids) ↔
      (params.op = .and → ∀ names ∈ params.tags, ∀ name ∈ names,
        Holds db taskId (Tag.normalizeName name))
      ∧ (params.op = .or → ∀ names ∈ params.tags, names ≠ [] →
        ∃ name ∈ names, Holds db taskId (Tag.normalizeName name)) := by
  obtain ⟨_, tags, op, _, _, _, _⟩ := params
  cases tags with
  | none => simp [taskIdsFor]
  | some names =>
    by_cases hnames : names = []
    · simp [taskIdsFor, hnames]
    · have hkeys : names.map Tag.normalizeName ≠ [] := by simpa using hnames
      cases op with
      | and => simp [taskIdsFor, hnames, mem_taskIdsMatching hdb hkeys]
      | or => simp [taskIdsFor, hnames, mem_taskIdsMatching hdb hkeys]

theorem mem_matching {db : Db} (hdb : SchemaKeys db) {params : TaskListParams} {t : Task} :
    t ∈ matching db params ↔ t ∈ db.tasks ∧ Matches db params t := by
  rw [matching, List.mem_insertionSort, mem_whereIds, mem_whereStatus, mem_taskIdsFor hdb]
  constructor
  · rintro ⟨⟨hrow, hstatus⟩, hevery, hsome⟩
    exact ⟨hrow, hstatus, hevery, hsome⟩
  · rintro ⟨hrow, hstatus, hevery, hsome⟩
    exact ⟨⟨hrow, hstatus⟩, hevery, hsome⟩

theorem nodup_ids_matching {db : Db} (hdb : SchemaKeys db) (params : TaskListParams) :
    ((matching db params).map Task.id).Nodup :=
  (((List.perm_insertionSort _ _).map Task.id).nodup_iff).mpr
    (hdb.taskIds.sublist ((where_sublist _ _ _).map Task.id))

/-- **A window and the total.** -/
theorem list_eq (db : Db) (params : TaskListParams) :
    list db params = (Paging.window params.offset params.limit (matching db params),
      (matching db params).length) := by
  simp only [list, repositoryList, matching, Paging.window, List.length_insertionSort]

/-- **The task list is an exact window**: of the tasks that match, in order. All the pages of one
size list every matching task once. -/
theorem list_window {db : Db} (hdb : SchemaKeys db) (params : TaskListParams) :
    ∃ rows : List Task, (rows.map Task.id).Nodup
      ∧ (∀ t, t ∈ rows ↔ t ∈ db.tasks ∧ Matches db params t)
      ∧ rows.Pairwise (Before params.orderDir)
      ∧ (∀ limit offset, list db { params with limit := limit, offset := offset }
          = (Paging.window offset limit rows, rows.length))
      ∧ ∀ limit ≥ 1, ∀ pages, rows.length ≤ pages * limit →
          (List.range pages).flatMap (fun k =>
            (list db { params with limit := limit, offset := k * limit }).1) = rows := by
  have hlist : ∀ limit offset, list db { params with limit := limit, offset := offset }
      = (Paging.window offset limit (matching db params), (matching db params).length) :=
    fun limit offset => list_eq db { params with limit := limit, offset := offset }
  refine ⟨matching db params, nodup_ids_matching hdb params, fun t => mem_matching hdb,
    pairwise_before _ _ (hdb.taskIds.sublist ((where_sublist _ _ _).map Task.id)), hlist, ?_⟩
  intro limit _ pages hpages
  simp only [hlist]
  exact Paging.flatMap_pages hpages

end Params

/-! ## A board of three tasks -/

section Board

open Sharp

def urgent : Tag := ⟨0, py "urgent", py "urgent", 0⟩

/-- Displayed as `Straße`. -/
def street : Tag := ⟨1, py "Stra" ++ [eszett] ++ py "e", py "strasse", 0⟩

/-- Two tasks hold both tags and tie on priority; the third holds one. -/
def board : Db :=
  { Db.empty with
    tasks := [⟨0, py "late", py "late", none, py "open", 3, 8⟩,
      ⟨1, py "early", py "early", none, py "open", 3, 7⟩,
      ⟨2, py "top", py "top", none, py "done", 5, 9⟩]
    tags := [urgent, street]
    taskTags := [⟨0, 0⟩, ⟨0, 1⟩, ⟨1, 1⟩, ⟨1, 0⟩, ⟨2, 0⟩] }

/-- Both tags, one of them asked for twice. -/
def bothTags : TaskListParams :=
  ⟨none, some [py " STRASSE ", py "Urgent", py "urgent"], .and, .priority, .desc, 100, 0⟩

theorem board_schemaKeys : SchemaKeys board := ⟨by decide, by decide, by decide, by decide⟩

theorem list_window_board :
    SchemaKeys board ∧ (list board bothTags).2 = 2
      ∧ (list board bothTags).1.map Task.title = [py "early", py "late"]
      ∧ ∃ rows : List Task, (rows.map Task.id).Nodup
        ∧ (∀ t, t ∈ rows ↔ t ∈ board.tasks ∧ Matches board bothTags t)
        ∧ rows.Pairwise (Before .desc) ∧ list board bothTags = (rows.take 100, rows.length) := by
  refine ⟨board_schemaKeys, by decide, by decide, ?_⟩
  obtain ⟨rows, hids, hrows, hbefore, hlist, _⟩ := list_window board_schemaKeys bothTags
  exact ⟨rows, hids, hrows, hbefore, hlist 100 0⟩

/-- A tag nobody has: no task holds all of them. -/
example : list board { bothTags with tags := some [py "urgent", py "missing"] } = ([], 0) := by
  decide

end Board

end TaskService.Tasks
