import TaskService.Core.Staging
import TaskService.Lib.Except

/-!
# The tag repository and service

`tags/infrastructure/repository.py` and `tags/application/service.py`.
-/

namespace TaskService.Tags

open Store Prog

/-- `dict.fromkeys(xs)`: each element once, where it first stands. -/
def fromKeys {α : Type} [DecidableEq α] (xs : List α) : List α := xs.reverse.dedup.reverse

/-- `names_for_tasks([task_id]).get(task_id, [])`. -/
def namesForTask (taskId : Uuid) : SessionProg (List PyStr) := perform (.selectTagNames taskId)

/-- `set_for_task`, the loop that adds the links. -/
def addTaskTags (taskId : Uuid) : List Uuid → SessionProg Unit
  | [] => return ()
  | tagId :: tagIds => do
    perform (.add (.taskTag { taskId, tagId }))
    addTaskTags taskId tagIds

/-- `set_for_task`: drop the task's links, then add the new ones. -/
def setForTask (taskId : Uuid) (tagIds : List Uuid) : SessionProg Unit := do
  let _ ← perform (.deleteTaskTags taskId)
  addTaskTags taskId (fromKeys tagIds)

/-- The loop of `resolve` that gives every key without a tag a new one. -/
def mintMissing (resolved : Dict PyStr Uuid) : Dict PyStr PyStr → SessionProg (Dict PyStr Uuid)
  | [] => return resolved
  | (nameKey, name) :: wanted => do
    if nameKey ∈ Dict.keys resolved then mintMissing resolved wanted
    else
      let id ← perform .uuid7
      let createdAt ← perform .now
      perform (.add (.tag { id, name, nameKey, createdAt }))
      mintMissing (Dict.set resolved nameKey id) wanted

/-- `TagService.delete`: refuse while a task holds the tag. -/
def deleteTag (tagId : Uuid) : SessionProg Unit := do
  match ← perform (.getTag tagId) with
  | none => throw (.app (.tagNotFound tagId))
  | some tag =>
    let inUse ← perform (.countTaskTags tagId)
    if inUse ≠ 0 then throw (.app (.tagInUse tagId tag.name inUse))
    let event ← newEvent (.tagDeleted tag.id tag.name)
    perform (.deleteTag tag)
    stageEvents [event]
    perform .commit

/-! ## What these programs issue -/

theorem namesForTask_straight (taskId : Uuid) :
    Straight Op.Quiet (Outcome (fun _ => True) fun _ => False) (namesForTask taskId) :=
  straight_call trivial fun _ => trivial

theorem addTaskTags_straight (taskId : Uuid) (tagIds : List Uuid) :
    Straight Op.Quiet (Outcome (fun _ => True) fun _ => False) (addTaskTags taskId tagIds) := by
  induction tagIds with
  | nil => trivial
  | cons tagId tagIds ih => exact ⟨trivial, fun _ => ih, fun _ => rfl⟩

theorem setForTask_straight (taskId : Uuid) (tagIds : List Uuid) :
    Straight Op.Quiet (Outcome (fun _ => True) fun _ => False) (setForTask taskId tagIds) :=
  ⟨trivial, fun _ => addTaskTags_straight taskId _, fun _ => rfl⟩

theorem mintMissing_straight (resolved : Dict PyStr Uuid) (wanted : Dict PyStr PyStr) :
    Straight Op.Quiet (Outcome (fun _ => True) fun _ => False) (mintMissing resolved wanted) := by
  induction wanted generalizing resolved with
  | nil => trivial
  | cons kv wanted ih =>
    obtain ⟨nameKey, name⟩ := kv
    unfold mintMissing
    split
    · exact ih resolved
    · exact ⟨trivial, fun _ => ⟨trivial, fun _ => ⟨trivial, fun _ => ih _, fun _ => rfl⟩,
        fun _ => rfl⟩, fun _ => rfl⟩

/-! ## Names -/

variable [Unicode]

/-- The keys a request asks for, each with the first spelling it came in (`setdefault`). -/
def wantedFrom (wanted : Dict PyStr PyStr) : List PyStr → Except Exn (Dict PyStr PyStr)
  | [] => .ok wanted
  | name :: names => do
    let (_, nameKey) ← Tag.cleanName name
    wantedFrom (if nameKey ∈ Dict.keys wanted then wanted else wanted ++ [(nameKey, strip name)])
      names

/-- `resolve`: the ids of the tags the names stand for, minting what is missing. -/
def resolve (names : List PyStr) : SessionProg (Dict PyStr Uuid) := do
  let wanted ← lift (wantedFrom [] names)
  if wanted = [] then return []
  let rows ← perform (.selectTags (Dict.keys wanted))
  mintMissing (rows.map fun tag => (tag.nameKey, tag.id)) wanted

/-- The only exception of the collecting loop is the one for a blank name. -/
theorem wantedFrom_error {wanted : Dict PyStr PyStr} {names : List PyStr} {e : Exn}
    (h : wantedFrom wanted names = .error e) : e = Tag.blankName := by
  induction names generalizing wanted with
  | nil => cases h
  | cons name names ih =>
    unfold wantedFrom Tag.cleanName at h
    by_cases hblank : strip name = []
    · rw [if_pos hblank] at h
      exact (Except.error.inj h).symm
    · rw [if_neg hblank] at h
      exact ih h

theorem resolve_straight (names : List PyStr) :
    Straight Op.Quiet (Outcome (fun _ => True) fun e => e = Tag.blankName) (resolve names) := by
  unfold resolve
  have hwanted : Straight Op.Quiet (Outcome (fun _ => True) fun e => e = Tag.blankName)
      (lift (wantedFrom [] names) : SessionProg _) := by
    refine straight_lift ?_
    cases h : wantedFrom [] names with
    | ok wanted => trivial
    | error e => exact wantedFrom_error h
  refine hwanted.bind (fun wanted _ => ?_) fun e he => he
  split
  · trivial
  · refine ⟨trivial, fun rows => ?_, fun _ => rfl⟩
    exact (mintMissing_straight _ wanted).mono (fun _ h => h)
      fun _ h => h.mono (fun _ h => h) fun _ h => h.elim

end TaskService.Tags
