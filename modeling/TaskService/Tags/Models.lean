import TaskService.Core.Errors

/-!
# Tags

A tag is a label with a display name and an identity, its casefolded key; a task-tag row links a
task to a tag (`tags/domain/models.py`).
-/

namespace TaskService.Tags

def nameMaxLength : Nat := 50

structure Tag where
  id : Uuid
  name : PyStr
  nameKey : PyStr
  createdAt : Time
  deriving DecidableEq

structure TaskTag where
  taskId : Uuid
  tagId : Uuid
  deriving DecidableEq

namespace Tag

variable [Unicode]

def normalizeName (name : PyStr) : PyStr := casefold (strip name)

def blankName : Exn := .valueError (py "Tag name must not be blank.")

/-- `clean_name`: the stripped name and its key. -/
def cleanName (name : PyStr) : Except Exn (PyStr × PyStr) :=
  if strip name = [] then .error blankName else .ok (strip name, normalizeName (strip name))

@[simp] theorem normalizeName_strip (name : PyStr) :
    normalizeName (strip name) = normalizeName name := by
  rw [normalizeName, strip_strip, normalizeName]

theorem cleanName_eq_ok {name : PyStr} {cleaned : PyStr × PyStr} :
    cleanName name = .ok cleaned ↔ ¬ Blank name ∧ cleaned = (strip name, normalizeName name) := by
  unfold cleanName
  rw [normalizeName_strip]
  by_cases h : strip name = []
  · rw [if_pos h]
    exact ⟨fun heq => (nomatch heq), fun heq => absurd h heq.1⟩
  · rw [if_neg h]
    exact ⟨fun heq => ⟨h, (Except.ok.inj heq).symm⟩, fun heq => congrArg _ heq.2.symm⟩

/-- The stored key is the key of the stored name, and the name is stripped. -/
def Keyed (t : Tag) : Prop := t.nameKey = normalizeName t.name ∧ strip t.name = t.name

end Tag

end TaskService.Tags
