import TaskService.Lib.Joining
import TaskService.Tags.Repository

/-!
# The tag list

`list_with_counts`, `TagResponse` and `TagService.list_tags`: the vocabulary, every tag with the
number of its links. A tag that nothing is linked to is listed too.
-/

namespace TaskService.Tags

open Store

structure TagResponse where
  id : Uuid
  name : PyStr
  createdAt : Time
  taskCount : Nat
  deriving DecidableEq

def TagResponse.fromTag (tag : Tag) (taskCount : Nat) : TagResponse :=
  ⟨tag.id, tag.name, tag.createdAt, taskCount⟩

structure TagListResponse where
  items : List TagResponse
  total : Nat

/-- The link is one of the tag. -/
def ofTag (tag : Tag) (link : TaskTag) : Bool := link.tagId = tag.id

/-- `list_with_counts`: an outer join, so that a tag no task holds is counted too. -/
def listWithCounts (db : Db) : List (Tag × Nat) :=
  (Joining.countBy (Joining.outerJoin ofTag db.tags db.taskTags)).insertionSort
    fun a b => a.1.name ≤ b.1.name

/-- `list_tags`. -/
def listTags (db : Db) : TagListResponse :=
  let items := (listWithCounts db).map fun row => TagResponse.fromTag row.1 row.2
  ⟨items, items.length⟩

/-- The number of links of a tag, as `task_count` counts them. -/
def linkCount (db : Db) (tagId : Uuid) : Nat := (db.taskTags.filter fun l => l.tagId = tagId).length

/-- **The list is the vocabulary**, each tag with the number of its links. -/
theorem perm_listTags {db : Db} (hids : (db.tags.map Tag.id).Nodup) :
    (listTags db).items.Perm
      (db.tags.map fun tag => TagResponse.fromTag tag (linkCount db tag.id)) := by
  have hperm : (listWithCounts db).Perm (db.tags.map fun tag => (tag, linkCount db tag.id)) :=
    (List.perm_insertionSort _ _).trans (Joining.perm_countBy_outerJoin (hids.of_map _))
  have hmap := hperm.map fun row => TagResponse.fromTag row.1 row.2
  rwa [List.map_map] at hmap

end TaskService.Tags
