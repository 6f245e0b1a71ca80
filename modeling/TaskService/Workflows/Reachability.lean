import TaskService.Lib.Search
import TaskService.Workflows.Definition

/-!
# Unreachable states, in any order

`unreachable_states` of `domain/definition.py` with its sets as they are: nothing fixes the order in
which the entry states are listed, in which the targets of a state are visited, or which name of
the frontier is next.

* **`mem_targets_iff`**: the adjacency table holds the moves of the transition table.
* **`Searching.unreached_eq`**: every search that has ended returns the same states.
* **`unreachableStates_any_order`**: every search ends, and returns the states no path leads to.
-/

namespace TaskService.Workflows.Workflow

open Search (Enumerates)

variable {w : Workflow}

/-! ## The adjacency table -/

/-- `adjacency.get(state, ())`. -/
def targetsIn (adjacency : Dict PyStr (Finset PyStr)) (state : PyStr) : Finset PyStr :=
  (Dict.get? adjacency state).getD ∅

/-- `adjacency.setdefault(from_state, set()).add(to_state)`. -/
def addMove (adjacency : Dict PyStr (Finset PyStr)) (move : StatePair) :
    Dict PyStr (Finset PyStr) :=
  Dict.set adjacency move.1 (insert move.2 (targetsIn adjacency move.1))

/-- The targets under each state, from one pass over the transitions. -/
def targets (w : Workflow) : PyStr → Finset PyStr :=
  targetsIn ((Dict.keys w.transitions).foldl addMove [])

theorem mem_targetsIn_addMove {adjacency : Dict PyStr (Finset PyStr)} {move : StatePair}
    {a b : PyStr} :
    b ∈ targetsIn (addMove adjacency move) a ↔ b ∈ targetsIn adjacency a ∨ (a, b) = move := by
  unfold addMove
  by_cases ha : a = move.1
  · have hset : targetsIn (Dict.set adjacency move.1 (insert move.2 (targetsIn adjacency move.1))) a
        = insert move.2 (targetsIn adjacency a) := by
      rw [ha, targetsIn, Dict.get?_set_self]
      rfl
    rw [hset, Finset.mem_insert, Prod.ext_iff, or_comm]
    exact or_congr_right ⟨fun hb => ⟨ha, hb⟩, fun h => h.2⟩
  · have hset : targetsIn (Dict.set adjacency move.1 (insert move.2 (targetsIn adjacency move.1))) a
        = targetsIn adjacency a := by
      rw [targetsIn, Dict.get?_set_of_ne _ ha]
      rfl
    rw [hset]
    exact (or_iff_left fun h => ha (congrArg Prod.fst h)).symm

/-- **The adjacency table holds the moves.** -/
theorem mem_targets_iff {a b : PyStr} : b ∈ w.targets a ↔ (a, b) ∈ Dict.keys w.transitions := by
  have hfold : ∀ (moves : List StatePair) (adjacency : Dict PyStr (Finset PyStr)),
      b ∈ targetsIn (moves.foldl addMove adjacency) a
        ↔ b ∈ targetsIn adjacency a ∨ (a, b) ∈ moves := by
    intro moves
    induction moves with
    | nil => simp
    | cons move moves ih =>
      intro adjacency
      rw [List.foldl_cons, ih, mem_targetsIn_addMove, List.mem_cons, or_assoc]
  rw [targets, hfold]
  exact or_iff_right (Finset.notMem_empty b)

/-! ## The search -/

/-- A search for the reachable states after so many rounds: `reachable` starts as the set of entry
states, `frontier` as a list of them. -/
def Searching (w : Workflow) (rounds : Nat) (s : Search.State PyStr) : Prop :=
  ∃ order, Enumerates order w.entryStates.toFinset
    ∧ Search.Run w.targets ⟨w.entryStates.toFinset, order⟩ rounds s

/-- `set(self.state_names) - reachable`. -/
def unreached (w : Workflow) (s : Search.State PyStr) : Finset PyStr :=
  w.stateNames.toFinset \ s.seen

theorem reaches_iff {name : PyStr} :
    Search.Reaches w.targets w.entryStates.toFinset name ↔ w.Reachable name := by
  simp only [Search.Reaches, Reachable, List.mem_toFinset, mem_targets_iff]

variable {rounds : Nat} {s : Search.State PyStr}

/-- A search sees states only. -/
theorem Searching.seen_subset (h : w.Searching rounds s) : s.seen ⊆ w.stateNames.toFinset := by
  obtain ⟨order, horder, hrun⟩ := h
  intro name hname
  obtain ⟨e, he, hpath⟩ := reaches_iff.1 ((hrun.searched horder).sound name hname)
  rw [List.mem_toFinset]
  cases hpath with
  | refl => exact w.entryStates_subset he
  | tail _ hmove =>
    obtain ⟨t, ht⟩ := Dict.mem_keys_iff.1 hmove
    exact (w.known _ ht).2

/-- **A search has at most as many rounds as there are states.** -/
theorem Searching.rounds_le (h : w.Searching rounds s) : rounds ≤ w.states.length := by
  have hcard : s.seen.card ≤ w.states.length := by
    have hnodup : w.stateNames.Nodup := w.names_nodup
    have hnames : w.stateNames.toFinset.card = w.states.length := by
      rw [List.toFinset_card_of_nodup hnodup, stateNames, List.length_map]
    exact hnames ▸ Finset.card_le_card h.seen_subset
  obtain ⟨order, horder, hrun⟩ := h
  have hrounds := hrun.rounds_add_frontier horder
  omega

theorem Searching.next {s' : Search.State PyStr} (h : w.Searching rounds s)
    (hround : Search.Round w.targets s s') : w.Searching (rounds + 1) s' := by
  obtain ⟨order, horder, hrun⟩ := h
  exact ⟨order, horder, hrun.next hround⟩

/-- Every search can be brought to an end. -/
theorem Searching.exists_end (h : w.Searching rounds s) :
    ∃ rounds' s', w.Searching rounds' s' ∧ s'.frontier = [] := by
  -- on the rounds that are left
  induction hleft : w.states.length - rounds generalizing rounds s with
  | zero =>
    by_cases hend : s.frontier = []
    · exact ⟨rounds, s, h, hend⟩
    · obtain ⟨s', hround⟩ := Search.exists_round w.targets hend
      have hle := (h.next hround).rounds_le
      omega
  | succ left ih =>
    by_cases hend : s.frontier = []
    · exact ⟨rounds, s, h, hend⟩
    · obtain ⟨s', hround⟩ := Search.exists_round w.targets hend
      exact ih (h.next hround) (by omega)

theorem Searching.mem_unreached_iff (h : w.Searching rounds s) (hend : s.frontier = [])
    {name : PyStr} : name ∈ w.unreached s ↔ name ∈ w.stateNames ∧ ¬ w.Reachable name := by
  obtain ⟨order, horder, hrun⟩ := h
  rw [unreached, Finset.mem_sdiff, List.mem_toFinset, hrun.mem_seen_iff horder hend, reaches_iff]

/-- **The order makes no difference**: this is the set that a search in table order finds. -/
theorem Searching.unreached_eq (h : w.Searching rounds s) (hend : s.frontier = []) :
    w.unreached s = w.unreachableStates.toFinset := by
  ext name
  rw [h.mem_unreached_iff hend, List.mem_toFinset, mem_unreachableStates_iff]

/-- **`unreachable_states` is exact, in any order.** No search goes on for more rounds than there
are states, none stops before its frontier is empty, and each then returns the states to which no
path leads from an entry state. -/
theorem unreachableStates_any_order (w : Workflow) :
    (∃ rounds s, w.Searching rounds s ∧ s.frontier = [])
      ∧ (∀ rounds s, w.Searching rounds s → rounds ≤ w.states.length
        ∧ (s.frontier ≠ [] → ∃ s', Search.Round w.targets s s'))
      ∧ ∀ rounds s, w.Searching rounds s → s.frontier = [] →
        w.unreached s = w.unreachableStates.toFinset
          ∧ ∀ name, name ∈ w.unreached s ↔ name ∈ w.stateNames ∧ ¬ w.Reachable name := by
  refine ⟨?_, fun rounds s h => ⟨h.rounds_le, Search.exists_round w.targets⟩,
    fun rounds s h hend => ⟨h.unreached_eq hend, fun name => h.mem_unreached_iff hend⟩⟩
  have hstart : w.Searching 0 ⟨w.entryStates.toFinset, w.entryStates.toFinset.toList⟩ :=
    ⟨_, ⟨Finset.nodup_toList _, fun _ => Finset.mem_toList⟩, .start⟩
  exact hstart.exists_end

end TaskService.Workflows.Workflow
