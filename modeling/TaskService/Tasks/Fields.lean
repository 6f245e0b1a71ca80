import TaskService.Tasks.Service

/-!
# The fields of a patch

`patch` is given a dict. It looks keys up in it and pops `tags`, and `apply_patch` goes through what
is left item by item, in the order in which the caller filled the dict. `PatchFields` has forgotten
that order; here the dict keeps it.

* **`applyItems_eq`**: setting the attributes one after the other, in whatever order the dict has
  them, is `applyPatch`.
* **`patchItems_eq_patch`**: so `patch` does not see the order of the items.
* **`replace_eq_patch`**: a patch that names all five fields is the replacement by their values.
-/

namespace TaskService.Tasks

open Store Workflows
open Prog (lift)

/-- One item of the dict: a key the service knows, with its value, or another key. -/
inductive PatchItem where
  | title (value : PyStr)
  | description (value : Option PyStr)
  | status (value : PyStr)
  | priority (value : Int)
  | tags (value : Option (List PyStr))
  | unknown (name : PyStr)
  deriving DecidableEq

/-- What a key of the dict names. -/
inductive PatchKey where
  | mutable (field : MutableField)
  | tags
  | unknown (name : PyStr)
  deriving DecidableEq

namespace PatchItem

def key : PatchItem → PatchKey
  | .title _ => .mutable .title
  | .description _ => .mutable .description
  | .status _ => .mutable .status
  | .priority _ => .mutable .priority
  | .tags _ => .tags
  | .unknown name => .unknown name

def title? : PatchItem → Option PyStr
  | .title value => some value
  | _ => none

def description? : PatchItem → Option (Option PyStr)
  | .description value => some value
  | _ => none

def status? : PatchItem → Option PyStr
  | .status value => some value
  | _ => none

def priority? : PatchItem → Option Int
  | .priority value => some value
  | _ => none

def tags? : PatchItem → Option (Option (List PyStr))
  | .tags value => some value
  | _ => none

/-- The key, if it is not in `MUTABLE_FIELDS`. -/
def foreign? : PatchItem → Option PyStr
  | .tags _ => some (py "tags")
  | .unknown name => some name
  | _ => none

end PatchItem

/-- The dict after `fields.pop("tags", None)`. -/
def popTags (fields : List PatchItem) : List PatchItem :=
  fields.filter fun item => item.tags?.isNone

/-- What looking keys up in the dict finds; `tags` is popped before the keys are checked. -/
def PatchFields.of (fields : List PatchItem) : PatchFields where
  title := fields.findSome? PatchItem.title?
  description := fields.findSome? PatchItem.description?
  status := fields.findSome? PatchItem.status?
  priority := fields.findSome? PatchItem.priority?
  tags := fields.findSome? PatchItem.tags?
  unknown := (popTags fields).filterMap PatchItem.foreign?

/-! ## Looking a key up -/

section Lookup

variable {β : Type} {look : PatchItem → Option β} {key : PatchKey} {fields : List PatchItem}

/-- A lookup finds nothing under a key that the dict does not have. -/
theorem findSome?_eq_none (hlook : ∀ item value, look item = some value → item.key = key)
    (h : key ∉ fields.map PatchItem.key) : fields.findSome? look = none := by
  apply List.findSome?_eq_none_iff.2
  intro item hitem
  cases hvalue : look item with
  | none => rfl
  | some value =>
    have hkey := List.mem_map_of_mem (f := PatchItem.key) hitem
    rw [hlook item value hvalue] at hkey
    exact absurd hkey h

/-- A lookup finds the item under its key, wherever in the dict it is. -/
theorem findSome?_eq_some (hlook : ∀ item value, look item = some value → item.key = key)
    (hnodup : (fields.map PatchItem.key).Nodup) {item : PatchItem} {value : β}
    (hitem : item ∈ fields)
    (hvalue : look item = some value) : fields.findSome? look = some value := by
  induction fields with
  | nil => cases hitem
  | cons first fields ih =>
    rw [List.map_cons, List.nodup_cons] at hnodup
    rw [List.findSome?_cons]
    rcases List.mem_cons.1 hitem with rfl | hrest
    · rw [hvalue]
    · cases hfirst : look first with
      | some other =>
        -- two items under one key
        have hkey : item.key = first.key :=
          (hlook _ _ hvalue).trans (hlook _ _ hfirst).symm
        exact absurd (hkey ▸ List.mem_map_of_mem hrest) hnodup.1
      | none => exact ih hnodup.2 hrest

/-- Popping `tags` changes no other lookup. -/
theorem findSome?_popTags (hlook : ∀ value, look (.tags value) = none) :
    (popTags fields).findSome? look = fields.findSome? look := by
  induction fields with
  | nil => rfl
  | cons item fields ih =>
    cases item with
    | tags value =>
      show (popTags fields).findSome? look = _
      rw [List.findSome?_cons, hlook, ih]
    | _ =>
      show (_ :: popTags fields).findSome? look = _
      rw [List.findSome?_cons, List.findSome?_cons, ih]

end Lookup

theorem PatchFields.isEmpty_of {fields : List PatchItem} :
    (PatchFields.of fields).isEmpty ↔ fields = [] := by
  cases fields with
  | nil => exact ⟨fun _ => rfl, fun _ => rfl⟩
  | cons item fields =>
    cases item <;>
      simp [PatchFields.of, PatchFields.isEmpty, popTags, PatchItem.title?, PatchItem.description?,
        PatchItem.status?, PatchItem.priority?, PatchItem.tags?, PatchItem.foreign?]

namespace PatchItem

theorem key_of_title? : ∀ item value, title? item = some value → item.key = .mutable .title
  | .title _, _, _ => rfl

theorem key_of_description? :
    ∀ item value, description? item = some value → item.key = .mutable .description
  | .description _, _, _ => rfl

theorem key_of_status? : ∀ item value, status? item = some value → item.key = .mutable .status
  | .status _, _, _ => rfl

theorem key_of_priority? : ∀ item value, priority? item = some value → item.key = .mutable .priority
  | .priority _, _, _ => rfl

theorem key_of_tags? : ∀ item value, tags? item = some value → item.key = .tags
  | .tags _, _, _ => rfl

end PatchItem

/-! ## The order of the items -/

variable [Unicode]

/-- One turn of the loop of `apply_patch`. -/
def Task.setItem (t : Task) : PatchItem → Except Exn Task
  | .title value => do
    let (title, titleKey) ← cleanTitle value
    return { t with title, titleKey }
  | .description value => .ok { t with description := value }
  | .status value => .ok { t with status := value }
  | .priority value => .ok { t with priority := value }
  -- the loop is reached only when every key is in `MUTABLE_FIELDS`
  | .tags _ | .unknown _ => .ok t

/-- `apply_patch`, over the dict. -/
def Task.applyItems (t : Task) (fields : List PatchItem) : Except Exn Task :=
  let unknown := fields.filterMap PatchItem.foreign?
  if unknown ≠ [] then .error (unknownFields unknown)
  else fields.foldlM Task.setItem t

/-- `patch`, over the dict. -/
def patchItems (taskId : Uuid) (fields : List PatchItem) (roles : List PyStr) :
    SessionProg Task := do
  if fields = [] then throw (.app .emptyUpdate)
  let status := fields.findSome? PatchItem.status?
  let engine ← (if status.isSome then do
    let engine ← guardedEngine
    return some engine
  else return none)
  let task ← Repository.get taskId
  checkPatch engine task status roles
  let previous ← lift task.snapshot
  let tags := fields.findSome? PatchItem.tags?
  let fields := popTags fields
  let tagEvent ← stageTags taskId tags.join
  let task ← lift (task.applyItems fields)
  perform (.setTask task)
  persistUpdate task previous engine ((fields.findSome? PatchItem.title?).getD task.title) tagEvent
  return task

/-- What follows the title of one task follows it of another that agrees under every title. -/
theorem Task.patchTitle_bind_congr {β : Type} {t t' : Task} {f f' : Task → Except Exn β}
    (title : Option PyStr) (hkept : f t = f' t')
    (hset : ∀ title titleKey, f { t with title, titleKey } = f' { t' with title, titleKey }) :
    t.patchTitle title >>= f = t'.patchTitle title >>= f' := by
  cases title with
  | none => exact hkept
  | some title =>
    show ((cleanTitle title >>= _) >>= _) = ((cleanTitle title >>= _) >>= _)
    cases cleanTitle title with
    | error e => rfl
    | ok cleaned => exact hset cleaned.1 cleaned.2

open PatchItem in
/-- The loop, over keys that are all in `MUTABLE_FIELDS`. -/
theorem Task.foldlM_setItem {fields : List PatchItem} (hnodup : (fields.map key).Nodup)
    (hmutable : fields.filterMap foreign? = []) (t : Task) :
    fields.foldlM setItem t = (do
      let t ← t.patchTitle (fields.findSome? title?)
      return { t with
        description := (fields.findSome? description?).getD t.description
        status := (fields.findSome? status?).getD t.status
        priority := (fields.findSome? priority?).getD t.priority }) := by
  -- on the dict, for every task: the rest of the loop starts from the task already changed
  induction fields generalizing t with
  | nil => rfl
  | cons item fields ih =>
    rw [List.map_cons, List.nodup_cons] at hnodup
    have hforeign : item.foreign? = none ∧ fields.filterMap foreign? = [] := by
      rw [List.filterMap_eq_nil_iff] at hmutable ⊢
      exact ⟨hmutable item List.mem_cons_self, fun i hi => hmutable i (List.mem_cons_of_mem _ hi)⟩
    have ih := ih hnodup.2 hforeign.2
    rw [List.foldlM_cons]
    cases item with
    | title value =>
      have hnone := findSome?_eq_none key_of_title? hnodup.1
      rw [hnone] at ih
      show ((cleanTitle value >>= _) >>= _) = ((cleanTitle value >>= _) >>= _)
      cases cleanTitle value with
      | error e => rfl
      | ok cleaned => exact ih _
    | description value =>
      have hnone := findSome?_eq_none key_of_description? hnodup.1
      show fields.foldlM setItem { t with description := value }
        = t.patchTitle (fields.findSome? title?) >>= _
      rw [ih, hnone]
      exact patchTitle_bind_congr _ rfl fun _ _ => rfl
    | status value =>
      have hnone := findSome?_eq_none key_of_status? hnodup.1
      show fields.foldlM setItem { t with status := value }
        = t.patchTitle (fields.findSome? title?) >>= _
      rw [ih, hnone]
      exact patchTitle_bind_congr _ rfl fun _ _ => rfl
    | priority value =>
      have hnone := findSome?_eq_none key_of_priority? hnodup.1
      show fields.foldlM setItem { t with priority := value }
        = t.patchTitle (fields.findSome? title?) >>= _
      rw [ih, hnone]
      exact patchTitle_bind_congr _ rfl fun _ _ => rfl
    | tags value => exact nomatch hforeign.1
    | unknown name => exact nomatch hforeign.1

open PatchItem in
/-- **Setting the attributes in the order of the dict** is the partial update, once `tags` is
popped. -/
theorem Task.applyItems_eq {fields : List PatchItem} (hnodup : (fields.map key).Nodup) (t : Task) :
    t.applyItems (popTags fields) = t.applyPatch (.of fields) := by
  have hkeys : ((popTags fields).map key).Nodup := hnodup.sublist (List.filter_sublist.map key)
  unfold applyItems applyPatch
  show (if (popTags fields).filterMap foreign? ≠ [] then _ else _)
    = if (popTags fields).filterMap foreign? ≠ [] then _ else _
  by_cases hmutable : (popTags fields).filterMap foreign? = []
  · rw [if_neg (not_not.2 hmutable), if_neg (not_not.2 hmutable), foldlM_setItem hkeys hmutable,
      findSome?_popTags fun _ => rfl, findSome?_popTags fun _ => rfl,
      findSome?_popTags fun _ => rfl, findSome?_popTags fun _ => rfl]
    rfl
  · rw [if_pos hmutable, if_pos hmutable]
    rfl

/-- **`patch` over the dict** is `patch` over what the dict holds under each key. -/
theorem patchItems_eq_patch {fields : List PatchItem} (hnodup : (fields.map PatchItem.key).Nodup)
    (taskId : Uuid) (roles : List PyStr) :
    patchItems taskId fields roles = patch taskId (.of fields) roles := by
  unfold patchItems patch
  by_cases hempty : fields = []
  · subst hempty
    rfl
  have hnonempty : ¬ (PatchFields.of fields).isEmpty := hempty ∘ PatchFields.isEmpty_of.1
  have htitle : (popTags fields).findSome? PatchItem.title? = fields.findSome? PatchItem.title? :=
    findSome?_popTags fun _ => rfl
  simp only [if_neg hempty, if_neg hnonempty, Task.applyItems_eq hnodup, htitle]
  rfl

/-! ## All five fields -/

/-- The five fields of a replacement, in some order. -/
def allFields (title : PyStr) (description : Option PyStr) (status : PyStr) (priority : Int)
    (tags : List PyStr) : List PatchItem :=
  [.title title, .description description, .status status, .priority priority, .tags (some tags)]

theorem Task.applyPatch_all (t : Task) (title : PyStr) (description : Option PyStr) (status : PyStr)
    (priority : Int) (tags : Option (Option (List PyStr))) :
    t.applyPatch ⟨some title, some description, some status, some priority, tags, []⟩
      = t.applyReplace title description status priority := by
  show ((cleanTitle title >>= _) >>= _) = cleanTitle title >>= _
  cases cleanTitle title <;> rfl

/-- **A patch that names all five fields is the replacement by their values**: the same operations
in the same order, hence the same error or the same commit, whatever else is running. -/
theorem replace_eq_patch (taskId : Uuid) (title : PyStr) (description : Option PyStr)
    (status : PyStr) (priority : Int) (tags : List PyStr) (roles : List PyStr) :
    patch taskId ⟨some title, some description, some status, some priority,
    some (some tags), []⟩ roles
      = replace taskId title description (some status) priority (some tags) roles := by
  unfold patch
  simp only [Task.applyPatch_all]
  show ((guardedEngine >>= fun engine => pure (some engine)) >>= _) = _
  rw [Prog.bind_bind]
  unfold replace
  congr 1
  funext engine
  show (Repository.get taskId >>= _) = Repository.get taskId >>= _
  congr 1
  funext task
  -- the move check, which `replace` has in line
  show ((context engine roles (some task.status) (some status) >>= _) >>= _)
    = context engine roles (some task.status) (some status) >>= _
  rw [Prog.bind_bind]
  rfl

section AllFields

variable {title : PyStr} {description : Option PyStr} {status : PyStr} {priority : Int}
  {tags : List PyStr} {fields : List PatchItem}

omit [Unicode] in
theorem nodup_keys_of_perm (h : fields.Perm (allFields title description status priority tags)) :
    (fields.map PatchItem.key).Nodup := by
  apply (h.map PatchItem.key).nodup_iff.2
  show List.Nodup [PatchKey.mutable .title, .mutable .description, .mutable .status,
    .mutable .priority, .tags]
  decide

open PatchItem in
omit [Unicode] in
/-- The order in which the five are given is lost. -/
theorem PatchFields.of_perm (h : fields.Perm (allFields title description status priority tags)) :
    PatchFields.of fields = ⟨some title, some description, some status, some priority,
      some (some tags), []⟩ := by
  have hnodup := nodup_keys_of_perm h
  have hmem : ∀ {item}, item ∈ allFields title description status priority tags → item ∈ fields :=
    h.mem_iff.2
  have hall : .title title ∈ allFields title description status priority tags
      ∧ .description description ∈ allFields title description status priority tags
      ∧ .status status ∈ allFields title description status priority tags
      ∧ .priority priority ∈ allFields title description status priority tags
      ∧ .tags (some tags) ∈ allFields title description status priority tags := by
    simp [allFields]
  have htitle : fields.findSome? title? = some title :=
    findSome?_eq_some key_of_title? hnodup (hmem hall.1) rfl
  have hdescription : fields.findSome? description? = some description :=
    findSome?_eq_some key_of_description? hnodup (hmem hall.2.1) rfl
  have hstatus : fields.findSome? status? = some status :=
    findSome?_eq_some key_of_status? hnodup (hmem hall.2.2.1) rfl
  have hpriority : fields.findSome? priority? = some priority :=
    findSome?_eq_some key_of_priority? hnodup (hmem hall.2.2.2.1) rfl
  have htags : fields.findSome? tags? = some (some tags) :=
    findSome?_eq_some key_of_tags? hnodup (hmem hall.2.2.2.2) rfl
  -- All five keys are known, so no other is left to refuse.
  have hunknown : (popTags fields).filterMap foreign? = [] := by
    apply List.filterMap_eq_nil_iff.2
    intro item hitem
    obtain ⟨hitem, hkept⟩ := List.mem_filter.1 hitem
    have hnamed := h.mem_iff.1 hitem
    simp only [allFields, List.mem_cons, List.not_mem_nil, or_false] at hnamed
    rcases hnamed with rfl | rfl | rfl | rfl | rfl
    case inr.inr.inr.inr => exact nomatch hkept
    all_goals rfl
  rw [PatchFields.of, htitle, hdescription, hstatus, hpriority, htags, hunknown]

/-- **The two use cases are one program**, whatever the order of the dict. -/
theorem patchItems_eq_replace (h : fields.Perm (allFields title description status priority tags))
    (taskId : Uuid) (roles : List PyStr) :
    patchItems taskId fields roles
      = replace taskId title description (some status) priority (some tags) roles := by
  rw [patchItems_eq_patch (nodup_keys_of_perm h), PatchFields.of_perm h, replace_eq_patch]

end AllFields

end TaskService.Tasks
