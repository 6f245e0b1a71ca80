import TaskService.Workflows.Serialization

/-!
# The grammar of definition documents

`Declares d states ts` says, without running the parser, that the document `d` declares those
states and transitions, in document order, and breaks none of the rules. The parser accepts the
documents of this grammar and builds what they declare.

Entries skipped after a problem make the table and the known states smaller than what the document
lists, so nothing is claimed of a run that has collected a problem: each loop lemma starts from a
run that ends with none.

* **`parseStates_eq_nil_iff`**, **`parseTransitions_eq_nil_iff`**: the loops end without a problem
  exactly on entries that all parse, with distinct names and distinct pairs.
* **`workflowFromDocument_eq_ok_iff`**: the parser returns `w` exactly when the document declares
  it.
-/

namespace TaskService.Workflows

/-- The pair a transition is filed under. -/
def Transition.ends (t : Transition) : StatePair := (t.fromState, t.toState)

/-- The table that files each transition under its pair. -/
def tableOf (ts : List Transition) : TransitionTable := ts.map fun t => (t.ends, t)

@[simp] theorem keys_tableOf (ts : List Transition) :
    Dict.keys (tableOf ts) = ts.map Transition.ends := by
  simp [tableOf, Dict.keys]

@[simp] theorem tableOf_append (ts us : List Transition) :
    tableOf (ts ++ us) = tableOf ts ++ tableOf us := List.map_append

/-- Where work may enter: a state marked initial, or the first one when none is marked. -/
def Entry (states : List State) (name : PyStr) : Prop :=
  (∃ s ∈ states, s.initial = true ∧ s.name = name)
    ∨ (∀ s ∈ states, s.initial = false) ∧ ∃ s, states.head? = some s ∧ s.name = name

/-- A transition leads from the state `a` to the state `b`. -/
def Edge (ts : List Transition) (a b : PyStr) : Prop := ∃ t ∈ ts, t.fromState = a ∧ t.toState = b

/-- The document is an object of the two lists and nothing else, and their entries are, in order,
entries of those states and of those transitions. -/
def Lists (d : Json) (states : List State) (ts : List Transition) : Prop :=
  ∃ members rawStates rawTransitions, d = .dict members
    ∧ (∀ k, k ∈ Dict.keys members ↔ k = py "states" ∨ k = py "transitions")
    ∧ Dict.get? members (py "states") = some (.list rawStates)
    ∧ Dict.get? members (py "transitions") = some (.list rawTransitions)
    ∧ List.Forall₂ StateEntry rawStates states
    ∧ List.Forall₂ TransitionEntry rawTransitions ts

/-- The rules between states and transitions. -/
structure Consistent (states : List State) (ts : List Transition) : Prop where
  nonempty : states ≠ []
  names_nodup : (states.map State.name).Nodup
  pairs_nodup : (ts.map Transition.ends).Nodup
  known : ∀ t ∈ ts, t.fromState ∈ states.map State.name ∧ t.toState ∈ states.map State.name
  reachable : ∀ s ∈ states, ∃ e, Entry states e ∧ Relation.ReflTransGen (Edge ts) e s.name

/-- The document declares the states `states` and the transitions `ts`, each in document order. -/
structure Declares (d : Json) (states : List State) (ts : List Transition) : Prop
    extends Consistent states ts where
  document : Lists d states ts
  nulFree : d.NulFree

/-- Some states and transitions are what the document declares. -/
def Grammatical (d : Json) : Prop := ∃ states ts, Declares d states ts

/-- Consistent states and transitions make a workflow. -/
theorem Consistent.exists_workflow {states : List State} {ts : List Transition}
    (h : Consistent states ts) : ∃ w : Workflow, w.states = states ∧ w.transitions = tableOf ts :=
  ⟨{ states := states
     transitions := tableOf ts
     nonempty := h.nonempty
     names_nodup := h.names_nodup
     keys_nodup := by simpa using h.pairs_nodup
     filed := by simp [tableOf, Transition.ends]
     known := by simpa [tableOf, Transition.ends] using h.known }, rfl, rfl⟩

/-! ## The structural layer -/

theorem listUnder_eq_some_iff {document : Dict PyStr Json} {key : PyStr} {xs : List Json} :
    listUnder document key = some xs ↔ Dict.get? document key = some (.list xs) := by
  unfold listUnder
  split
  next ys h => simp [h]
  next hno =>
    simp only [reduceCtorEq, false_iff]
    exact fun h => hno xs h

theorem insertionSort_eq_nil_iff {names : List PyStr} :
    names.insertionSort (· ≤ ·) = [] ↔ names = [] := by
  rw [← List.length_eq_zero_iff, List.length_insertionSort, List.length_eq_zero_iff]

theorem structureProblems_eq_nil_iff {document : Dict PyStr Json} :
    structureProblems document = [] ↔
      (∃ xs, listUnder document (py "states") = some xs)
        ∧ (∃ xs, listUnder document (py "transitions") = some xs)
        ∧ ∀ k ∈ Dict.keys document, k = py "states" ∨ k = py "transitions" := by
  have hunknown : ((Dict.keys document).filter (· ∉ [py "states", py "transitions"])).dedup = []
      ↔ ∀ k ∈ Dict.keys document, k = py "states" ∨ k = py "transitions" := by
    simp [List.dedup_eq_nil, List.filter_eq_nil_iff, or_iff_not_imp_left]
  have hlist : ∀ key, (listUnder document key).isNone = false
      ↔ ∃ xs, listUnder document key = some xs := by
    intro key
    rw [Option.isNone_eq_false_iff, Option.isSome_iff_exists]
  rw [structureProblems, List.append_eq_nil_iff, List.map_eq_nil_iff, List.map_eq_nil_iff,
    insertionSort_eq_nil_iff, hunknown, List.filter_eq_nil_iff]
  simp only [List.mem_cons, List.not_mem_nil, or_false, forall_eq_or_imp, forall_eq,
    Bool.not_eq_true, hlist, and_assoc]

/-- The structural layer passes exactly the objects with the two list members and no other. -/
theorem parseDocument_eq_ok {data : Json} {document : Dict PyStr Json}
    {rawStates rawTransitions : List Json} :
    parseDocument data = .ok (document, rawStates, rawTransitions) ↔
      data = .dict document
        ∧ (∀ k, k ∈ Dict.keys document ↔ k = py "states" ∨ k = py "transitions")
        ∧ Dict.get? document (py "states") = some (.list rawStates)
        ∧ Dict.get? document (py "transitions") = some (.list rawTransitions) := by
  simp only [← listUnder_eq_some_iff]
  constructor
  · intro h
    unfold parseDocument at h
    split at h
    next members =>
      split at h
      next states transitions hs ht hproblems =>
        simp only [Except.ok.injEq, Prod.mk.injEq] at h
        obtain ⟨rfl, rfl, rfl⟩ := h
        obtain ⟨-, -, hkeys⟩ := structureProblems_eq_nil_iff.1 hproblems
        refine ⟨rfl, fun k => ⟨hkeys k, ?_⟩, hs, ht⟩
        rintro (rfl | rfl)
        · exact Dict.mem_keys_of_mem (Dict.mem_of_get? (listUnder_eq_some_iff.1 hs))
        · exact Dict.mem_keys_of_mem (Dict.mem_of_get? (listUnder_eq_some_iff.1 ht))
      next => simp at h
    next => simp at h
  · rintro ⟨rfl, hkeys, hs, ht⟩
    have hnil := structureProblems_eq_nil_iff.2 ⟨⟨_, hs⟩, ⟨_, ht⟩, fun k => (hkeys k).1⟩
    simp only [parseDocument, hs, ht, hnil]

/-- A structural failure always names a problem. -/
theorem parseDocument_error_ne_nil {data : Json} {problems : List Problem}
    (h : parseDocument data = .error problems) : problems ≠ [] := by
  unfold parseDocument at h
  split at h
  next members =>
    split at h
    next => simp at h
    next hno =>
      obtain rfl := Except.error.inj h
      intro hnil
      obtain ⟨⟨xs, hs⟩, ⟨ys, ht⟩, -⟩ := structureProblems_eq_nil_iff.1 hnil
      exact hno xs ys hs ht hnil
  next => simp [← Except.error.inj h]

/-! ## Reachability -/

/-- Reachability in the built workflow is reachability by the declared transitions. -/
theorem reachable_iff {w : Workflow} {ts : List Transition} (htable : w.transitions = tableOf ts)
    {name : PyStr} :
    w.Reachable name ↔ ∃ e, Entry w.states e ∧ Relation.ReflTransGen (Edge ts) e name := by
  have hedge : (fun a b => (a, b) ∈ Dict.keys w.transitions) = Edge ts := by
    funext a b
    simp [htable, Edge, Transition.ends]
  have hhead : w.states.head? = some (w.states.head w.nonempty) := List.head?_eq_some_head _
  have hentry : ∀ e, e ∈ w.entryStates ↔ Entry w.states e := by
    intro e
    rw [w.mem_entryStates_iff, Entry, hhead]
    simp
  simp only [Workflow.Reachable, hedge, hentry]

theorem checkReachable_eq_ok {w w' : Workflow} :
    checkReachable w = .ok w' ↔ w = w' ∧ ∀ name ∈ w.stateNames, w.Reachable name := by
  rw [← Workflow.unreachableStates_eq_nil_iff, ← insertionSort_eq_nil_iff, checkReachable]
  split
  next h => simp [h]
  next hne => simpa using fun _ => hne

theorem checkReachable_error_ne_nil {w : Workflow} {problems : List Problem}
    (h : checkReachable w = .error problems) : problems ≠ [] := by
  unfold checkReachable at h
  split at h
  next => simp at h
  next hne =>
    rw [← Except.error.inj h]
    exact fun hnil => hne (List.map_eq_nil_iff.1 hnil)

/-! ## The loops -/

variable [Unicode]

/-- A run of the states loop that collects nothing has read every entry, in order, and the names
are distinct. -/
theorem parseStatesFrom_sound (i : Nat) (states : List State) {raw : List Json}
    (hacc : (states.map State.name).Nodup) (h : (parseStatesFrom i states raw).1 = []) :
    ∃ new, (parseStatesFrom i states raw).2 = states ++ new ∧ List.Forall₂ StateEntry raw new
      ∧ ((states ++ new).map State.name).Nodup := by
  induction raw generalizing i states with
  | nil => exact ⟨[], by simp [parseStatesFrom], .nil, by simpa using hacc⟩
  | cons entry rest ih =>
    rw [parseStatesFrom] at h ⊢
    cases hentry : parseState entry with
    | error problem => simp [hentry, collect] at h
    | ok s =>
      by_cases hdup : s.name ∈ states.map State.name
      · simp [hentry, hdup, collect] at h
      · simp only [hentry, if_neg hdup] at h ⊢
        have hacc' : ((states ++ [s]).map State.name).Nodup := by
          rw [List.map_append, List.nodup_append_comm]
          exact List.nodup_cons.2 ⟨hdup, hacc⟩
        obtain ⟨new, heq, hread, hnd⟩ := ih _ _ hacc' h
        refine ⟨s :: new, by simpa using heq, .cons (parseState_eq_ok.1 hentry) hread, ?_⟩
        simpa using hnd

/-- Entries that read as states with fresh distinct names go through the loop without a problem. -/
theorem parseStatesFrom_complete (i : Nat) (states : List State) {new : List State}
    {raw : List Json} (hread : List.Forall₂ StateEntry raw new)
    (hnd : ((states ++ new).map State.name).Nodup) :
    parseStatesFrom i states raw = ([], states ++ new) := by
  induction hread generalizing i states with
  | nil => simp [parseStatesFrom]
  | @cons entry s rest new hentry _ ih =>
    have hdup : s.name ∉ states.map State.name := by
      rw [List.map_append, List.nodup_append_comm] at hnd
      intro hmem
      exact (List.nodup_append.1 hnd).2.2 s.name (by simp) s.name hmem rfl
    have hrest : ((states ++ [s] ++ new).map State.name).Nodup := by simpa using hnd
    rw [parseStatesFrom, parseState_eq_ok.2 hentry]
    simp only [if_neg hdup]
    rw [ih _ _ hrest, List.append_assoc, List.singleton_append]

/-- **The states loop reads exactly lists of state entries with distinct names.** -/
theorem parseStates_eq_nil_iff {raw : List Json} {states : List State} :
    parseStates raw = ([], states) ↔
      raw ≠ [] ∧ List.Forall₂ StateEntry raw states ∧ (states.map State.name).Nodup := by
  constructor
  · intro h
    obtain ⟨hproblems, hstates⟩ := Prod.mk.inj h
    obtain ⟨hne, hloop⟩ := List.append_eq_nil_iff.1 hproblems
    obtain ⟨new, heq, hread, hnd⟩ := parseStatesFrom_sound 0 [] List.nodup_nil hloop
    obtain rfl : new = states := by rw [← hstates, heq, List.nil_append]
    exact ⟨by simpa using hne, hread, hnd⟩
  · rintro ⟨hne, hread, hnd⟩
    simp [parseStates, hne, parseStatesFrom_complete 0 [] hread hnd]

/-- A run of the transitions loop that collects nothing has filed every entry, in order, between
known states, under distinct pairs. -/
theorem parseTransitionsFrom_sound {known : List PyStr} (i : Nat) (filed : List Transition)
    {raw : List Json} (hacc : (filed.map Transition.ends).Nodup)
    (h : (parseTransitionsFrom known i (tableOf filed) raw).1 = []) :
    ∃ new, (parseTransitionsFrom known i (tableOf filed) raw).2 = tableOf (filed ++ new)
      ∧ List.Forall₂ TransitionEntry raw new ∧ ((filed ++ new).map Transition.ends).Nodup
      ∧ ∀ t ∈ new, t.fromState ∈ known ∧ t.toState ∈ known := by
  induction raw generalizing i filed with
  | nil => exact ⟨[], by simp [parseTransitionsFrom], .nil, by simpa using hacc, by simp⟩
  | cons entry rest ih =>
    rw [parseTransitionsFrom] at h ⊢
    cases hentry : parseTransition known (tableOf filed) entry with
    | error problems =>
      simp only [hentry, List.append_eq_nil_iff, List.map_eq_nil_iff] at h
      exact absurd h.1 (parseTransition_error_ne_nil hentry)
    | ok t =>
      obtain ⟨hread, ha, hb, hdup⟩ := parseTransition_eq_ok.1 hentry
      have hdup : t.ends ∉ Dict.keys (tableOf filed) := hdup
      have hset : Dict.set (tableOf filed) t.ends t = tableOf (filed ++ [t]) := by
        rw [Dict.set_of_notMem hdup, tableOf_append]
        rfl
      have hacc' : ((filed ++ [t]).map Transition.ends).Nodup := by
        rw [List.map_append, List.nodup_append_comm]
        exact List.nodup_cons.2 ⟨by simpa using hdup, hacc⟩
      simp only [hentry] at h ⊢
      rw [show (t.fromState, t.toState) = t.ends from rfl, hset] at h ⊢
      obtain ⟨new, heq, hrest, hnd, hknown⟩ := ih _ _ hacc' h
      refine ⟨t :: new, by simpa using heq, .cons hread hrest, by simpa using hnd, ?_⟩
      intro u hu
      rcases List.mem_cons.1 hu with rfl | hu
      · exact ⟨ha, hb⟩
      · exact hknown u hu

theorem parseTransitionsFrom_complete {known : List PyStr} (i : Nat) (filed : List Transition)
    {new : List Transition} {raw : List Json} (hread : List.Forall₂ TransitionEntry raw new)
    (hnd : ((filed ++ new).map Transition.ends).Nodup)
    (hknown : ∀ t ∈ new, t.fromState ∈ known ∧ t.toState ∈ known) :
    parseTransitionsFrom known i (tableOf filed) raw = ([], tableOf (filed ++ new)) := by
  induction hread generalizing i filed with
  | nil => simp [parseTransitionsFrom]
  | @cons entry t rest new hentry _ ih =>
    have hdup : t.ends ∉ Dict.keys (tableOf filed) := by
      rw [keys_tableOf]
      rw [List.map_append, List.nodup_append_comm] at hnd
      intro hmem
      exact (List.nodup_append.1 hnd).2.2 t.ends (by simp) t.ends hmem rfl
    have hset : Dict.set (tableOf filed) t.ends t = tableOf (filed ++ [t]) := by
      rw [Dict.set_of_notMem hdup, tableOf_append]
      rfl
    have ht := hknown t List.mem_cons_self
    have hrest : ((filed ++ [t] ++ new).map Transition.ends).Nodup := by simpa using hnd
    rw [parseTransitionsFrom, parseTransition_eq_ok.2 ⟨hentry, ht.1, ht.2, hdup⟩]
    show parseTransitionsFrom known (i + 1) (Dict.set (tableOf filed) t.ends t) rest = _
    rw [hset, ih _ _ hrest fun u hu => hknown u (List.mem_cons_of_mem _ hu), List.append_assoc,
      List.singleton_append]

/-- **The transitions loop reads exactly lists of transition entries between known states, with
distinct pairs.** -/
theorem parseTransitions_eq_nil_iff {known : List PyStr} {raw : List Json}
    {table : TransitionTable} :
    parseTransitions known raw = ([], table) ↔ ∃ ts, table = tableOf ts
      ∧ List.Forall₂ TransitionEntry raw ts ∧ (ts.map Transition.ends).Nodup
      ∧ ∀ t ∈ ts, t.fromState ∈ known ∧ t.toState ∈ known := by
  constructor
  · intro h
    obtain ⟨hproblems, htable⟩ := Prod.mk.inj h
    obtain ⟨ts, heq, hread, hnd, hknown⟩ :=
      parseTransitionsFrom_sound 0 [] List.nodup_nil hproblems
    exact ⟨ts, htable.symm.trans heq, hread, hnd, hknown⟩
  · rintro ⟨ts, rfl, hread, hnd, hknown⟩
    exact parseTransitionsFrom_complete 0 [] hread hnd hknown

/-! ## The parser -/

/-- The content layer builds a workflow exactly from entries that keep every rule. -/
theorem parseContent_eq_ok {document : Dict PyStr Json} {rawStates rawTransitions : List Json}
    {w : Workflow} :
    parseContent document rawStates rawTransitions = .ok w ↔
      (Json.dict document).NulFree ∧ parseStates rawStates = ([], w.states)
        ∧ parseTransitions w.stateNames rawTransitions = ([], w.transitions)
        ∧ ∀ name ∈ w.stateNames, w.Reachable name := by
  rw [← rejectNulBytes_eq_nil_iff _ (py "definition")]
  constructor
  · intro h
    unfold parseContent at h
    dsimp only at h
    split at h
    next hnone =>
      obtain ⟨hfirst, htransitions⟩ := List.append_eq_nil_iff.1 hnone
      obtain ⟨hnul, hstates⟩ := List.append_eq_nil_iff.1 hfirst
      obtain ⟨w', hnew, hlast⟩ := Except.bind_eq_ok.1 h
      obtain ⟨rfl, hreach⟩ := checkReachable_eq_ok.1 hlast
      obtain ⟨hws, hwt⟩ := Workflow.new_eq_ok.1 (Except.mapError_eq_ok.1 hnew)
      rw [← hws] at hwt htransitions
      exact ⟨hnul, Prod.ext hstates hws.symm, Prod.ext htransitions hwt.symm, hreach⟩
    next => simp at h
  · rintro ⟨hnul, hstates, htransitions, hreach⟩
    have hnew : Workflow.new w.states w.transitions w.keys_nodup = .ok w :=
      Workflow.new_eq_ok.2 ⟨rfl, rfl⟩
    have hlast := checkReachable_eq_ok.2 ⟨rfl, hreach⟩
    rw [Workflow.stateNames] at htransitions
    simp [parseContent, hnul, hstates, htransitions, hnew, hlast]

/-- **The parser returns what the document declares, and nothing else.** -/
theorem workflowFromDocument_eq_ok_iff {d : Json} {w : Workflow} :
    workflowFromDocument d = .ok w ↔ ∃ ts, Declares d w.states ts ∧ w.transitions = tableOf ts := by
  constructor
  · intro h
    obtain ⟨⟨members, rawStates, rawTransitions⟩, hdoc, hcontent⟩ := Except.bind_eq_ok.1 h
    obtain ⟨rfl, hkeys, hs, ht⟩ := parseDocument_eq_ok.1 hdoc
    obtain ⟨hnul, hstates, htransitions, hreach⟩ := parseContent_eq_ok.1 hcontent
    obtain ⟨-, hread, hnd⟩ := parseStates_eq_nil_iff.1 hstates
    obtain ⟨ts, htable, hreadt, hndt, hknown⟩ := parseTransitions_eq_nil_iff.1 htransitions
    refine ⟨ts, ⟨⟨w.nonempty, hnd, hndt, hknown, fun s hmem => ?_⟩,
      ⟨members, rawStates, rawTransitions, rfl, hkeys, hs, ht, hread, hreadt⟩, hnul⟩, htable⟩
    exact (reachable_iff htable).1 (hreach _ (List.mem_map_of_mem hmem))
  · rintro ⟨ts, hdecl, htable⟩
    obtain ⟨members, rawStates, rawTransitions, rfl, hkeys, hs, ht, hread, hreadt⟩ := hdecl.document
    have hraw : rawStates ≠ [] := by
      rintro rfl
      exact w.nonempty (List.forall₂_nil_left_iff.1 hread)
    have hreach : ∀ name ∈ w.stateNames, w.Reachable name := by
      intro name hname
      obtain ⟨s, hmem, rfl⟩ := List.mem_map.1 hname
      exact (reachable_iff htable).2 (hdecl.reachable s hmem)
    have hcontent := parseContent_eq_ok.2 ⟨hdecl.nulFree,
      parseStates_eq_nil_iff.2 ⟨hraw, hread, hdecl.names_nodup⟩,
      parseTransitions_eq_nil_iff.2 ⟨ts, htable, hreadt, hdecl.pairs_nodup, hdecl.known⟩, hreach⟩
    simpa [workflowFromDocument, parseDocument_eq_ok.2 ⟨rfl, hkeys, hs, ht⟩] using hcontent

/-- A refusal names at least one problem. -/
theorem workflowFromDocument_error_ne_nil {d : Json} {problems : List Problem}
    (h : workflowFromDocument d = .error problems) : problems ≠ [] := by
  cases hdoc : parseDocument d with
  | error e =>
    simp only [workflowFromDocument, hdoc, Except.error_bind, Except.error.injEq] at h
    exact h ▸ parseDocument_error_ne_nil hdoc
  | ok parts =>
    obtain ⟨members, rawStates, rawTransitions⟩ := parts
    simp only [workflowFromDocument, hdoc, Except.ok_bind] at h
    unfold parseContent at h
    dsimp only at h
    split at h
    next =>
      cases hnew : Workflow.new (parseStates rawStates).2 _
          (nodup_keys_parseTransitions ((parseStates rawStates).2.map State.name)
          rawTransitions) with
      | error e =>
        simp only [hnew, Except.mapError_error, Except.error_bind, Except.error.injEq] at h
        simp [← h]
      | ok w =>
        simp only [hnew, Except.mapError_ok, Except.ok_bind] at h
        exact checkReachable_error_ne_nil h
    next hne => exact Except.error.inj h ▸ hne

/-- **The parser accepts exactly its grammar.** It returns a workflow on the grammatical documents
and on no other; the workflow has exactly the declared states, in order, and the table of the
declared transitions; every other document is refused with at least one problem. -/
theorem workflowFromDocument_accepts_grammar (d : Json) :
    ((∃ w, workflowFromDocument d = .ok w) ↔ Grammatical d)
      ∧ (∀ w, workflowFromDocument d = .ok w →
          ∃ ts, Declares d w.states ts ∧ w.transitions = tableOf ts)
      ∧ ∀ problems, workflowFromDocument d = .error problems → problems ≠ [] := by
  refine ⟨⟨?_, ?_⟩, fun w h => workflowFromDocument_eq_ok_iff.1 h,
    fun problems h => workflowFromDocument_error_ne_nil h⟩
  · rintro ⟨w, h⟩
    obtain ⟨ts, hdecl, -⟩ := workflowFromDocument_eq_ok_iff.1 h
    exact ⟨w.states, ts, hdecl⟩
  · rintro ⟨states, ts, hdecl⟩
    obtain ⟨w, rfl, htable⟩ := hdecl.toConsistent.exists_workflow
    exact ⟨w, workflowFromDocument_eq_ok_iff.2 ⟨ts, hdecl, htable⟩⟩

end TaskService.Workflows
