import TaskService.Lib.Worklist
import TaskService.Workflows.Models

/-!
# The workflow definition

`Workflow` holds an ordered list of states and a transition table; its proof fields are what
`Workflow.__init__` checks, so the machine's shape is an invariant of the type. Lookups that
raise `ValueError` on an unknown state return an `Option`.

* **`Workflow.new`** is the constructor with its checks and their texts.
* **`mem_unreachableStates_iff`**: the worklist of `unreachable_states` finds exactly the states
  no path of transitions leads to from an entry state.
-/

namespace TaskService.Workflows

/-- One workflow definition. -/
@[ext] structure Workflow where
  states : List State
  transitions : TransitionTable
  nonempty : states ≠ []
  names_nodup : (states.map State.name).Nodup
  keys_nodup : (Dict.keys transitions).Nodup
  filed : ∀ kv ∈ transitions, kv.1 = (kv.2.fromState, kv.2.toState)
  known : ∀ kv ∈ transitions, kv.1.1 ∈ states.map State.name ∧ kv.1.2 ∈ states.map State.name

namespace Workflow

/-- What `__init__` asks of one item of the table: filed under its own pair, between states. -/
def Fits (names : List PyStr) (kv : StatePair × Transition) : Prop :=
  kv.1 = (kv.2.fromState, kv.2.toState) ∧ kv.1.1 ∈ names ∧ kv.1.2 ∈ names

instance (names : List PyStr) (kv : StatePair × Transition) : Decidable (Fits names kv) :=
  inferInstanceAs (Decidable (_ ∧ _ ∧ _))

/-- The text of the `ValueError` for the first item that does not fit. -/
def misfitError [Unicode] (names : List PyStr) (transitions : TransitionTable) : PyStr :=
  match transitions.find? fun kv => ¬ Fits names kv with
  | some (key, t) =>
    if key ≠ (t.fromState, t.toState) then
      py "Transition " ++ repr t.name ++ py " filed under wrong key "
        ++ py "(" ++ repr key.1 ++ py ", " ++ repr key.2 ++ py ")"
    else py "Unknown state: " ++ repr (if key.1 ∉ names then key.1 else key.2)
  | none => []

/-- `Workflow(states=states, transitions=transitions)`. A transition table has distinct keys, as
every `dict` has; the other checks are those of `__init__`, with the text of each `ValueError`. -/
def new [Unicode] (states : List State) (transitions : TransitionTable)
    (hkeys : (Dict.keys transitions).Nodup) : Except PyStr Workflow :=
  if hne : states = [] then .error (py "Workflow needs at least one state")
  else if hnd : (states.map State.name).Nodup then
    if hfit : ∀ kv ∈ transitions, Fits (states.map State.name) kv then
      .ok ⟨states, transitions, hne, hnd, hkeys, fun kv h => (hfit kv h).1,
        fun kv h => (hfit kv h).2⟩
    else .error (misfitError (states.map State.name) transitions)
  else .error (py "Duplicate states are not allowed")

variable (w : Workflow)

def stateNames : List PyStr := w.states.map State.name

/-- Where new work items may start: states marked `initial`, or the first state. -/
def entryStates : List PyStr :=
  let marked := (w.states.filter State.initial).map State.name
  if marked = [] then [(w.states.head w.nonempty).name] else marked

theorem entryStates_ne_nil : w.entryStates ≠ [] := by
  simp only [entryStates]
  split <;> simp_all

/-- Where new work items start unless the caller picks another entry state. -/
def defaultEntry : PyStr := w.entryStates.head w.entryStates_ne_nil

/-- The first state of that name, if any. -/
def find? (name : PyStr) : Option State := w.states.find? fun s => s.name = name

/-- The named state, the single existence check. -/
def state [Unicode] (name : PyStr) : Except PyStr State :=
  match w.find? name with
  | some s => .ok s
  | none => .error (py "Unknown state: " ++ repr name)

def requireState [Unicode] (name : PyStr) : Except PyStr Unit := do
  let _ ← w.state name

def transitionBetween [Unicode] (fromState toState : PyStr) : Except PyStr (Option Transition) := do
  w.requireState fromState
  w.requireState toState
  return Dict.get? w.transitions (fromState, toState)

/-- Full transitions leaving a state, in table order. -/
def transitionsFrom [Unicode] (state : PyStr) : Except PyStr (List Transition) := do
  w.requireState state
  return (w.transitions.filter fun kv => kv.1.1 = state).map Prod.snd

/-- The targets of the moves out of a state: a set in the source, listed once each here. -/
def movesFrom [Unicode] (state : PyStr) : Except PyStr (List PyStr) := do
  let transitions ← w.transitionsFrom state
  return (transitions.map Transition.toState).dedup

/-- `adjacency.get(state, ())`: the targets filed under a state. -/
def adjacency (state : PyStr) : List PyStr :=
  (w.transitions.filter fun kv => kv.1.1 = state).map fun kv => kv.1.2

/-- States with no path from any entry state (dead columns). Each round of the loop pops a node
that was pushed once, so the entries and targets together bound the rounds. -/
def unreachableStates : List PyStr :=
  let reachable := Worklist.explore w.adjacency
    (w.entryStates.length + w.transitions.length) w.entryStates w.entryStates
  w.stateNames.filter (· ∉ reachable)

/-- The definition with one more entry in its table, filed under its ends. -/
def addTransition (t : Transition) (hf : t.fromState ∈ w.stateNames) (ht : t.toState ∈ w.stateNames)
    (hk : (t.fromState, t.toState) ∉ Dict.keys w.transitions) : Workflow where
  states := w.states
  transitions := w.transitions ++ [((t.fromState, t.toState), t)]
  nonempty := w.nonempty
  names_nodup := w.names_nodup
  keys_nodup := by
    rw [Dict.keys_append, List.nodup_append_comm]
    exact List.nodup_cons.2 ⟨hk, w.keys_nodup⟩
  filed kv hkv := by
    rcases List.mem_append.1 hkv with h | h
    · exact w.filed kv h
    · rw [List.mem_singleton.1 h]
  known kv hkv := by
    rcases List.mem_append.1 hkv with h | h
    · exact w.known kv h
    · rw [List.mem_singleton.1 h]
      exact ⟨hf, ht⟩

/-- `allow_transition(name, from_state=.., to_state=.., **metadata)`. -/
def allowTransition [Unicode] (name fromState toState : PyStr) (metadata : Metadata) :
    Except PyStr Workflow :=
  if hf : fromState ∈ w.stateNames then
    if ht : toState ∈ w.stateNames then
      if hk : (fromState, toState) ∈ Dict.keys w.transitions then
        .error (py "Transition already defined for " ++ fromState ++ py " -> " ++ toState)
      else
        match h : Transition.new name fromState toState metadata with
        | .error e => .error e
        | .ok t =>
          have ends : t.fromState = fromState ∧ t.toState = toState :=
            ⟨(Transition.new_eq_ok.1 h).2.1, (Transition.new_eq_ok.1 h).2.2.1⟩
          .ok (w.addTransition t (ends.1 ▸ hf) (ends.2 ▸ ht) (by rwa [ends.1, ends.2]))
    else .error (py "Unknown state: " ++ repr toState)
  else .error (py "Unknown state: " ++ repr fromState)

/-- The constructor succeeds exactly on the parts of a definition. -/
theorem new_eq_ok [Unicode] {states : List State} {transitions : TransitionTable}
    {hkeys : (Dict.keys transitions).Nodup} {w : Workflow} :
    new states transitions hkeys = .ok w ↔ w.states = states ∧ w.transitions = transitions := by
  constructor
  · intro h
    unfold new at h
    split at h
    next => simp at h
    split at h
    next =>
      split at h
      next => exact Except.ok.inj h ▸ ⟨rfl, rfl⟩
      next => simp at h
    next => simp at h
  · rintro ⟨rfl, rfl⟩
    have hfit : ∀ kv ∈ w.transitions, Fits (w.states.map State.name) kv :=
      fun kv hkv => ⟨w.filed kv hkv, w.known kv hkv⟩
    rw [new, dif_neg w.nonempty, dif_pos w.names_nodup, dif_pos hfit]

/-! ## Entry states and lookups -/

/-- The entries are the marked states, or the first state when none is marked. -/
theorem mem_entryStates_iff {name : PyStr} :
    name ∈ w.entryStates ↔ (∃ s ∈ w.states, s.initial = true ∧ s.name = name)
      ∨ (∀ s ∈ w.states, s.initial = false) ∧ (w.states.head w.nonempty).name = name := by
  have hmarked : (w.states.filter State.initial).map State.name = []
      ↔ ∀ s ∈ w.states, s.initial = false := by
    simp [List.filter_eq_nil_iff]
  rw [entryStates]
  by_cases h : (w.states.filter State.initial).map State.name = []
  · have hnone := hmarked.1 h
    have hno : ¬ ∃ s ∈ w.states, s.initial = true ∧ s.name = name := by
      rintro ⟨s, hs, hi, -⟩
      simp [hnone s hs] at hi
    simp only [h, if_pos, List.mem_singleton, hno, false_or]
    exact ⟨fun heq => ⟨hnone, heq.symm⟩, fun heq => heq.2.symm⟩
  · have hsome : ¬ ∀ s ∈ w.states, s.initial = false := fun hall => h (hmarked.2 hall)
    simp [h, hsome, and_assoc]

theorem entryStates_subset {name : PyStr} (h : name ∈ w.entryStates) : name ∈ w.stateNames := by
  simp only [entryStates] at h
  split at h
  · rw [List.mem_singleton] at h
    rw [h]
    exact List.mem_map_of_mem (List.head_mem _)
  · obtain ⟨s, hs, rfl⟩ := List.mem_map.1 h
    exact List.mem_map_of_mem (List.mem_filter.1 hs).1

theorem entryStates_nodup : w.entryStates.Nodup := by
  simp only [entryStates]
  split
  · exact List.nodup_singleton _
  · exact w.names_nodup.sublist (List.filter_sublist.map _)

theorem defaultEntry_mem : w.defaultEntry ∈ w.entryStates := List.head_mem _

theorem defaultEntry_mem_stateNames : w.defaultEntry ∈ w.stateNames :=
  w.entryStates_subset w.defaultEntry_mem

theorem find?_isSome_iff {name : PyStr} : (w.find? name).isSome ↔ name ∈ w.stateNames := by
  simp [find?, stateNames, List.find?_isSome]

theorem find?_eq_some_iff {name : PyStr} {s : State} :
    w.find? name = some s ↔ s ∈ w.states ∧ s.name = name := by
  constructor
  · intro h
    exact ⟨List.mem_of_find?_eq_some h, by simpa using List.find?_some h⟩
  · rintro ⟨hs, rfl⟩
    obtain ⟨t, ht⟩ := Option.isSome_iff_exists.1 (w.find?_isSome_iff.2 (List.mem_map_of_mem hs))
    have hname : t.name = s.name := by simpa using List.find?_some ht
    have hmem : t ∈ w.states := List.mem_of_find?_eq_some ht
    rw [ht, List.inj_on_of_nodup_map w.names_nodup hmem hs hname]

section Lookups

variable [Unicode]

theorem state_of_mem {name : PyStr} (h : name ∈ w.stateNames) :
    ∃ s, w.find? name = some s ∧ w.state name = .ok s := by
  obtain ⟨s, hs⟩ := Option.isSome_iff_exists.1 (w.find?_isSome_iff.2 h)
  exact ⟨s, hs, by simp [state, hs]⟩

@[simp] theorem requireState_of_mem {name : PyStr} (h : name ∈ w.stateNames) :
    w.requireState name = .ok () := by
  obtain ⟨s, -, hs⟩ := w.state_of_mem h
  simp [requireState, hs, bind, Except.bind, pure, Except.pure]

theorem transitionBetween_of_mem {a b : PyStr} (ha : a ∈ w.stateNames) (hb : b ∈ w.stateNames) :
    w.transitionBetween a b = .ok (Dict.get? w.transitions (a, b)) := by
  simp [transitionBetween, ha, hb, bind, Except.bind, pure, Except.pure]

theorem transitionsFrom_of_mem {a : PyStr} (ha : a ∈ w.stateNames) :
    w.transitionsFrom a = .ok ((w.transitions.filter fun kv => kv.1.1 = a).map Prod.snd) := by
  simp [transitionsFrom, ha, bind, Except.bind, pure, Except.pure]

end Lookups

/-- A transition found under a pair connects that pair. -/
theorem ends_of_get? {a b : PyStr} {t : Transition}
    (h : Dict.get? w.transitions (a, b) = some t) : t.fromState = a ∧ t.toState = b := by
  have := w.filed _ (Dict.mem_of_get? h)
  simp only [Prod.mk.injEq] at this
  exact ⟨this.1.symm, this.2.symm⟩

/-! ## Reachability -/

/-- A path of transitions from an entry state. -/
def Reachable (name : PyStr) : Prop :=
  ∃ e ∈ w.entryStates,
    Relation.ReflTransGen (fun a b => (a, b) ∈ Dict.keys w.transitions) e name

theorem mem_adjacency_iff {a b : PyStr} : b ∈ w.adjacency a ↔ (a, b) ∈ Dict.keys w.transitions := by
  simp only [adjacency, List.mem_map, List.mem_filter, decide_eq_true_eq, Dict.keys]
  constructor
  · rintro ⟨⟨⟨f, t⟩, v⟩, ⟨hmem, rfl⟩, rfl⟩
    exact ⟨_, hmem, rfl⟩
  · rintro ⟨kv, hmem, hkv⟩
    exact ⟨kv, ⟨hmem, by rw [hkv]⟩, by rw [hkv]⟩

/-- **`unreachable_states` is exact.** -/
theorem mem_unreachableStates_iff {name : PyStr} :
    name ∈ w.unreachableStates ↔ name ∈ w.stateNames ∧ ¬ w.Reachable name := by
  have huniv : ∀ x, ∀ y ∈ w.adjacency x, y ∈ w.transitions.map fun kv => kv.1.2 := by
    intro x y hy
    obtain ⟨kv, hkv, rfl⟩ := List.mem_map.1 hy
    exact List.mem_map_of_mem (List.mem_filter.1 hkv).1
  have hexact : name ∈ Worklist.explore w.adjacency (w.entryStates.length + w.transitions.length)
      w.entryStates w.entryStates
      ↔ Search.Reaches (Worklist.listed w.adjacency) w.entryStates.toFinset name :=
    Worklist.mem_explore_iff huniv w.entryStates_nodup (by simp)
  rw [unreachableStates, List.mem_filter, decide_eq_true_eq, hexact]
  simp only [Search.Reaches, Worklist.listed, Reachable, List.mem_toFinset, mem_adjacency_iff]

theorem unreachableStates_eq_nil_iff :
    w.unreachableStates = [] ↔ ∀ name ∈ w.stateNames, w.Reachable name := by
  rw [List.eq_nil_iff_forall_not_mem]
  simp only [mem_unreachableStates_iff, not_and, not_not]

end Workflow

end TaskService.Workflows
