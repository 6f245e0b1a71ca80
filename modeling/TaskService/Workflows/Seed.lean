import TaskService.Workflows.Reload

/-!
# The seeded definition

What `default_workflow` builds, and that its document can be stored and read back.
-/

namespace TaskService.Workflows

def seededState (name : PyStr) (metadata : Metadata) (hn : ¬ Blank name)
    (hm : Unreserved reservedStateFields metadata) : State := ⟨name, true, metadata, hn, hm⟩

def seededTransition (name a b : PyStr) (hn : ¬ Blank name) : StatePair × Transition :=
  ((a, b), ⟨name, a, b, [], hn, by decide⟩)

/-- The three states and the six moves of the default definition. -/
def defaultDefinition : Workflow where
  states := [seededState (py "new") [] (by decide) (by decide),
    seededState (py "in_progress") [] (by decide) (by decide),
    seededState (py "completed") [(completesMetaKey, .bool true)] (by decide) (by decide)]
  transitions := [seededTransition (py "Start work") (py "new") (py "in_progress") (by decide),
    seededTransition (py "Complete") (py "new") (py "completed") (by decide),
    seededTransition (py "Complete") (py "in_progress") (py "completed") (by decide),
    seededTransition (py "Send back") (py "in_progress") (py "new") (by decide),
    seededTransition (py "Reopen") (py "completed") (py "new") (by decide),
    seededTransition (py "Resume") (py "completed") (py "in_progress") (by decide)]
  nonempty := by simp
  names_nodup := by decide
  keys_nodup := by
    show [(py "new", py "in_progress"), (py "new", py "completed"),
      (py "in_progress", py "completed"), (py "in_progress", py "new"), (py "completed", py "new"),
      (py "completed", py "in_progress")].Nodup
    decide
  filed := by simp [seededTransition]
  known := by simp [seededTransition, seededState]

theorem documentable_defaultDefinition : defaultDefinition.Documentable where
  states_wf := by simp [defaultDefinition, seededState, Dict.keys]
  transitions_wf := by simp [defaultDefinition, seededTransition, Dict.keys]
  limits := by
    have hkey : wipLimitMetaKey ≠ completesMetaKey := by decide
    simp [defaultDefinition, seededState, Dict.get?_cons, hkey]
  roles := by simp [defaultDefinition, seededTransition]
  nulFree := by
    unfold Json.NulFree
    decide
  reachable := by
    intro name hname
    -- every state is an entry state
    have hentry : name ∈ defaultDefinition.entryStates := hname
    exact ⟨name, hentry, .refl⟩

end TaskService.Workflows
