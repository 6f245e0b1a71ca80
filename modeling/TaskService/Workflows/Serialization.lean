import TaskService.Lib.Except
import TaskService.Workflows.Definition
import TaskService.Workflows.Problems

/-!
# Definition documents

The parser and the encoder of `serialization.py`. The parser collects problems: where the source
appends to `errors` and goes on, a function here returns the problems in the order of the appends
together with what was parsed. Structural problems abort at once, content problems accumulate, and
only a document without any builds a `Workflow`.

* **`rejectNulBytes_eq_nil_iff`**: the screen is silent exactly on documents without U+0000.
* **`parseState_eq_ok`**, **`parseTransition_eq_ok`**: what one entry is read as, stated over its
  members (`StateEntry`, `TransitionEntry`).
-/

namespace TaskService.Workflows

/-! ## Encoding -/

/-- `_state_entry`: the string shorthand when a state has no properties. -/
def stateEntry (s : State) : Json :=
  if s.initial = false ∧ s.metadata = [] then .str s.name
  else
    let entry := (py "name", Json.str s.name)
      :: if s.initial then [(py "initial", Json.bool true)] else []
    .dict (Dict.union entry (Dict.sortOn id s.metadata))

def transitionEntry (t : Transition) : Json :=
  .dict (Dict.union
    [(py "name", .str t.name), (py "from", .str t.fromState), (py "to", .str t.toState)]
    (Dict.sortOn id t.metadata))

def workflowToDocument (w : Workflow) : Json :=
  .dict [
    (py "states", .list (w.states.map stateEntry)),
    (py "transitions",
      .list ((Dict.sortOn toLex w.transitions).map fun kv => transitionEntry kv.2))]

/-! ## The NUL screen -/

mutual

/-- `_reject_nul_bytes`: reject U+0000 anywhere in the document, keys included. -/
def rejectNulBytes (path : PyStr) : Json → List Problem
  | .str s => if (0 : CodePoint) ∈ s then [.nul path] else []
  | .dict kvs => rejectNulItems path kvs
  | .list xs => rejectNulList path 0 xs
  | _ => []
termination_by structural d => d

def rejectNulItems (path : PyStr) : List (PyStr × Json) → List Problem
  | [] => []
  | (key, item) :: kvs =>
    let path' := path ++ py "." ++ key
    (if (0 : CodePoint) ∈ key then [.nul path'] else [])
      ++ rejectNulBytes path' item ++ rejectNulItems path kvs
termination_by structural kvs => kvs

def rejectNulList (path : PyStr) (index : Nat) : List Json → List Problem
  | [] => []
  | item :: xs =>
    rejectNulBytes (path ++ py "[" ++ decimal index ++ py "]") item
      ++ rejectNulList path (index + 1) xs
termination_by structural xs => xs

end

theorem rejectNulBytes_eq_nil_iff (d : Json) (path : PyStr) :
    rejectNulBytes path d = [] ↔ d.NulFree := by
  induction d generalizing path with
  | str s =>
    show (if (0 : CodePoint) ∈ s then [Problem.nul path] else []) = [] ↔ _
    by_cases h : (0 : CodePoint) ∈ s <;> simp [h]
  | list xs ih =>
    have hlist : ∀ index, rejectNulList path index xs = [] ↔ ∀ x ∈ xs, x.NulFree := by
      induction xs with
      | nil => intro index; simp [rejectNulList]
      | cons x xs ihxs =>
        intro index
        have hx := ih x List.mem_cons_self
        have hxs := ihxs (fun y hy => ih y (List.mem_cons_of_mem _ hy)) (index + 1)
        simp [rejectNulList, hx, hxs]
    simpa [rejectNulBytes] using hlist 0
  | dict kvs ih =>
    have hitems : rejectNulItems path kvs = []
        ↔ ∀ kv ∈ kvs, (0 : CodePoint) ∉ kv.1 ∧ kv.2.NulFree := by
      induction kvs with
      | nil => simp [rejectNulItems]
      | cons kv kvs ihkvs =>
        obtain ⟨key, item⟩ := kv
        have hitem := ih (key, item) List.mem_cons_self
        have hkvs := ihkvs fun y hy => ih y (List.mem_cons_of_mem _ hy)
        by_cases hkey : (0 : CodePoint) ∈ key <;> simp [rejectNulItems, hkey, hitem, hkvs]
    simpa [rejectNulBytes] using hitems
  | _ => simp [rejectNulBytes, Json.NulFree, Json.strings]

/-! ## The structural layer -/

/-- The list under a key, if there is one. -/
def listUnder (document : Dict PyStr Json) (key : PyStr) : Option (List Json) :=
  match Dict.get? document key with
  | some (.list xs) => some xs
  | _ => none

/-- The problems `_parse_document` collects: missing lists, then unknown keys in order. -/
def structureProblems (document : Dict PyStr Json) : List Problem :=
  let keys := [py "states", py "transitions"]
  let unknown := ((Dict.keys document).filter (· ∉ keys)).dedup.insertionSort (· ≤ ·)
  (keys.filter fun key => (listUnder document key).isNone).map .notAList ++ unknown.map .unknownKey

/-- `_parse_document`: the members of the document, its raw states and its raw transitions. -/
def parseDocument (data : Json) :
    Except (List Problem) (Dict PyStr Json × List Json × List Json) :=
  match data with
  | .dict document =>
    match listUnder document (py "states"), listUnder document (py "transitions"),
        structureProblems document with
    | some states, some transitions, [] => .ok (document, states, transitions)
    | _, _, problems => .error problems
  | _ => .error [.notAnObject]

/-! ## The content layer -/

/-- `_extract_meta`: every key that is not a core field. -/
def extractMeta (entry : Dict PyStr Json) (reserved : List PyStr) : Metadata :=
  entry.filter fun kv => kv.1 ∉ reserved

theorem extractMeta_unreserved (entry : Dict PyStr Json) (reserved : List PyStr) :
    Unreserved reserved (extractMeta entry reserved) := by
  intro k hk hmem
  obtain ⟨v, hv⟩ := Dict.mem_keys_iff.1 hmem
  have : k ∉ reserved := by simpa using (List.mem_filter.1 hv).2
  exact this hk

/-- `_wip_limit_error`: a present limit must be a non-negative int, and not a `bool`. -/
def wipLimitError (metadata : Metadata) : Bool :=
  match Dict.get? metadata wipLimitMetaKey with
  | none => false
  | some (.int limit) => limit < 0
  | some _ => true

/-- A non-blank string. -/
def isNonblankStr : Json → Bool
  | .str s => ¬ Blank s
  | _ => false

/-- `_roles_error`: present roles must be a non-empty list of non-blank strings. -/
def rolesError (metadata : Metadata) : Bool :=
  match Dict.get? metadata rolesMetaKey with
  | none => false
  | some (.list items) => items.isEmpty || !items.all isNonblankStr
  | some _ => true

/-- What `_transition_fields` reports on an object without the three string fields. -/
def shapeProblem (members : Dict PyStr Json) : TransitionProblem :=
  let missing := reservedTransitionFields.filter (· ∉ Dict.keys members)
  let bad := reservedTransitionFields.filter fun f =>
    match Dict.get? members f with
    | some (.str _) => false
    | _ => true
  if missing ≠ [] then .missing missing else .notStrings bad

/-- `_transition_fields`: an object with string name, from and to. -/
def transitionFields (entry : Json) :
    Except TransitionProblem (PyStr × PyStr × PyStr × Metadata) :=
  match entry with
  | .dict members =>
    match Dict.get? members (py "name"), Dict.get? members (py "from"),
        Dict.get? members (py "to") with
    | some (.str name), some (.str fromState), some (.str toState) =>
      .ok (name, fromState, toState, extractMeta members reservedTransitionFields)
    | _, _, _ => .error (shapeProblem members)
  | _ => .error (.wrongShape entry.typeName)

/-- `_transition_rule_errors`: a well-shaped entry must also make sense against the states. -/
def transitionRuleErrors (name fromState toState : PyStr) (known : List PyStr)
    (parsed : TransitionTable) : List TransitionProblem :=
  (if Blank name then [.blankName] else [])
    ++ (if fromState ∉ known then [.unknownState (py "from") fromState] else [])
    ++ (if toState ∉ known then [.unknownState (py "to") toState] else [])
    ++ (if (fromState, toState) ∈ Dict.keys parsed then [.duplicate fromState toState] else [])

/-- The item `p` in front of the collected problems. -/
def collect {α : Type} (p : Problem) (rest : List Problem × α) : List Problem × α :=
  (p :: rest.1, rest.2)

/-! ## What one entry contributes -/

/-- An entry of `states` the parser reads as the state `s`. -/
inductive StateEntry : Json → State → Prop where
  | shorthand (s : State) (hi : s.initial = false) (hm : s.metadata = []) :
      StateEntry (.str s.name) s
  | object (members : Dict PyStr Json) (s : State)
      (hname : Dict.get? members (py "name") = some (.str s.name))
      (hinitial : (Dict.get? members (py "initial")).getD (.bool false) = .bool s.initial)
      (hlimit : ∀ v, Dict.get? members wipLimitMetaKey = some v → ∃ n : Nat, v = .int n)
      (hmeta : s.metadata = extractMeta members reservedStateFields) :
      StateEntry (.dict members) s

/-- An entry of `transitions` the parser reads as the transition `t`. -/
inductive TransitionEntry : Json → Transition → Prop where
  | object (members : Dict PyStr Json) (t : Transition)
      (hname : Dict.get? members (py "name") = some (.str t.name))
      (hfrom : Dict.get? members (py "from") = some (.str t.fromState))
      (hto : Dict.get? members (py "to") = some (.str t.toState))
      (hroles : ∀ v, Dict.get? members rolesMetaKey = some v →
        ∃ roles, v = .list roles ∧ roles ≠ [] ∧ ∀ r ∈ roles, ∃ role, r = .str role ∧ ¬ Blank role)
      (hmeta : t.metadata = extractMeta members reservedTransitionFields) :
      TransitionEntry (.dict members) t

theorem get?_extractMeta {members : Dict PyStr Json} {reserved : List PyStr} {k : PyStr}
    (hk : k ∉ reserved) : Dict.get? (extractMeta members reserved) k = Dict.get? members k := by
  have := Dict.get?_filter (fun k => decide (k ∉ reserved)) members k
  rw [extractMeta, this]
  simp [hk]

theorem wipLimitError_eq_false_iff {metadata : Metadata} :
    wipLimitError metadata = false ↔
      ∀ v, Dict.get? metadata wipLimitMetaKey = some v → ∃ n : Nat, v = .int n := by
  unfold wipLimitError
  cases h : Dict.get? metadata wipLimitMetaKey with
  | none => simp
  | some v =>
    cases v with
    | int limit =>
      simp only [decide_eq_false_iff_not, Int.not_lt, Option.some.injEq, forall_eq', Json.int.injEq]
      exact ⟨fun hpos => ⟨limit.toNat, (Int.toNat_of_nonneg hpos).symm⟩, fun ⟨n, hn⟩ => by omega⟩
    | _ => simp

theorem isNonblankStr_iff {d : Json} : isNonblankStr d = true ↔ ∃ s, d = .str s ∧ ¬ Blank s := by
  cases d <;> simp [isNonblankStr]

theorem rolesError_eq_false_iff {metadata : Metadata} :
    rolesError metadata = false ↔ ∀ v, Dict.get? metadata rolesMetaKey = some v →
      ∃ roles, v = .list roles ∧ roles ≠ []
        ∧ ∀ r ∈ roles, ∃ role, r = .str role ∧ ¬ Blank role := by
  unfold rolesError
  cases h : Dict.get? metadata rolesMetaKey with
  | none => simp
  | some v =>
    cases v with
    | list items => simp [isNonblankStr_iff]
    | _ => simp

theorem transitionFields_eq_ok {entry : Json} {name a b : PyStr} {metadata : Metadata} :
    transitionFields entry = .ok (name, a, b, metadata) ↔
      ∃ members, entry = .dict members ∧ Dict.get? members (py "name") = some (.str name)
        ∧ Dict.get? members (py "from") = some (.str a)
        ∧ Dict.get? members (py "to") = some (.str b)
        ∧ metadata = extractMeta members reservedTransitionFields := by
  constructor
  · intro h
    unfold transitionFields at h
    split at h
    next members =>
      split at h
      next hn hf ht =>
        simp only [Except.ok.injEq, Prod.mk.injEq] at h
        obtain ⟨rfl, rfl, rfl, rfl⟩ := h
        exact ⟨members, rfl, hn, hf, ht, rfl⟩
      next => simp at h
    next => simp at h
  · rintro ⟨members, rfl, hn, hf, ht, rfl⟩
    simp [transitionFields, hn, hf, ht]

theorem transitionRuleErrors_eq_nil_iff {name a b : PyStr} {known : List PyStr}
    {parsed : TransitionTable} :
    transitionRuleErrors name a b known parsed = [] ↔
      ¬ Blank name ∧ a ∈ known ∧ b ∈ known ∧ (a, b) ∉ Dict.keys parsed := by
  simp [transitionRuleErrors]

/-! ## Parsing the entries -/

variable [Unicode]

/-- `State(..)`, a `ValueError` becoming the entry's problem. -/
def buildState (name : PyStr) (initial : Bool) (metadata : Metadata) : Except StateProblem State :=
  (State.new name initial metadata).mapError .invalid

/-- `_parse_state`: a string (shorthand) or an object with name, initial and metadata. -/
def parseState (entry : Json) : Except StateProblem State :=
  match entry with
  | .str name => buildState name false []
  | .dict members =>
    match Dict.get? members (py "name") with
    | some (.str name) =>
      match (Dict.get? members (py "initial")).getD (.bool false) with
      | .bool initial =>
        let metadata := extractMeta members reservedStateFields
        if wipLimitError metadata then .error .wipLimit else buildState name initial metadata
      | _ => .error .initialNotBoolean
    | _ => .error .nameMissing
  | _ => .error (.wrongShape entry.typeName)

/-- The loop of `_parse_states` from entry `i` on; `states` are those accepted so far, and `seen`
in the source is the set of their names. -/
def parseStatesFrom (i : Nat) (states : List State) : List Json → List Problem × List State
  | [] => ([], states)
  | entry :: rest =>
    match parseState entry with
    | .error problem => collect (.state i problem) (parseStatesFrom (i + 1) states rest)
    | .ok s =>
      if s.name ∈ states.map State.name then
        collect (.state i (.duplicate s.name)) (parseStatesFrom (i + 1) states rest)
      else parseStatesFrom (i + 1) (states ++ [s]) rest

def parseStates (rawStates : List Json) : List Problem × List State :=
  let parsed := parseStatesFrom 0 [] rawStates
  ((if rawStates.isEmpty then [.noStates] else []) ++ parsed.1, parsed.2)

/-- One round of `_parse_transitions`: the problems of an entry, or the transition to file. -/
def parseTransition (known : List PyStr) (parsed : TransitionTable) (entry : Json) :
    Except (List TransitionProblem) Transition :=
  match transitionFields entry with
  | .error problem => .error [problem]
  | .ok (name, fromState, toState, metadata) =>
    match transitionRuleErrors name fromState toState known parsed
        ++ (if rolesError metadata then [.roles] else []) with
    | [] => (Transition.new name fromState toState metadata).mapError fun e => [.invalid e]
    | problems => .error problems

/-- The loop of `_parse_transitions` from entry `i` on, `parsed` being the table so far. -/
def parseTransitionsFrom (known : List PyStr) (i : Nat) (parsed : TransitionTable) :
    List Json → List Problem × TransitionTable
  | [] => ([], parsed)
  | entry :: rest =>
    match parseTransition known parsed entry with
    | .error problems =>
      let rest := parseTransitionsFrom known (i + 1) parsed rest
      (problems.map (.transition i) ++ rest.1, rest.2)
    | .ok t =>
      parseTransitionsFrom known (i + 1) (Dict.set parsed (t.fromState, t.toState) t) rest

def parseTransitions (known : List PyStr) (rawTransitions : List Json) :
    List Problem × TransitionTable :=
  parseTransitionsFrom known 0 [] rawTransitions

theorem buildState_eq_ok {name : PyStr} {initial : Bool} {metadata : Metadata} {s : State} :
    buildState name initial metadata = .ok s ↔
      s.name = name ∧ s.initial = initial ∧ s.metadata = metadata := by
  rw [← State.new_eq_ok]
  exact Except.mapError_eq_ok

/-- **`_parse_state` reads exactly the state entries.** -/
theorem parseState_eq_ok {entry : Json} {s : State} :
    parseState entry = .ok s ↔ StateEntry entry s := by
  constructor
  · intro h
    unfold parseState at h
    split at h
    next name =>
      obtain ⟨rfl, hi, hm⟩ := buildState_eq_ok.1 h
      exact .shorthand s hi hm
    next members =>
      split at h
      next name hname =>
        split at h
        next initial hinitial =>
          by_cases hlimit : wipLimitError (extractMeta members reservedStateFields)
          · simp [hlimit] at h
          · simp only [hlimit, Bool.false_eq_true, if_false] at h
            obtain ⟨rfl, rfl, hm⟩ := buildState_eq_ok.1 h
            have hget := wipLimitError_eq_false_iff.1 (Bool.eq_false_iff.2 hlimit)
            rw [get?_extractMeta (by decide)] at hget
            exact .object members s hname hinitial hget hm
        next => simp at h
      next => simp at h
    next => simp at h
  · intro h
    cases h with
    | shorthand _ hi hm => exact buildState_eq_ok.2 ⟨rfl, hi, hm⟩
    | object members _ hname hinitial hlimit hmeta =>
      have hlimit' : wipLimitError (extractMeta members reservedStateFields) = false := by
        rw [wipLimitError_eq_false_iff, get?_extractMeta (by decide)]
        exact hlimit
      simp only [parseState, hname, hinitial, hlimit', Bool.false_eq_true, if_false]
      exact buildState_eq_ok.2 ⟨rfl, rfl, hmeta⟩

/-- **One round of `_parse_transitions` files exactly the transition entries that make sense.** -/
theorem parseTransition_eq_ok {known : List PyStr} {parsed : TransitionTable} {entry : Json}
    {t : Transition} :
    parseTransition known parsed entry = .ok t ↔
      TransitionEntry entry t ∧ t.fromState ∈ known ∧ t.toState ∈ known
        ∧ (t.fromState, t.toState) ∉ Dict.keys parsed := by
  constructor
  · intro h
    unfold parseTransition at h
    split at h
    next => simp at h
    next name a b metadata hfields =>
      split at h
      -- No rule is broken and the roles are well formed: the entry says all the rest.
      next hproblems =>
        obtain ⟨hrules, hroles⟩ := List.append_eq_nil_iff.1 hproblems
        obtain ⟨-, ha, hb, hdup⟩ := transitionRuleErrors_eq_nil_iff.1 hrules
        obtain ⟨members, rfl, hn, hf, ht, rfl⟩ := transitionFields_eq_ok.1 hfields
        obtain ⟨rfl, rfl, rfl, hmeta⟩ := Transition.new_eq_ok.1 (Except.mapError_eq_ok.1 h)
        have hroles : rolesError (extractMeta members reservedTransitionFields) = false := by
          simpa using hroles
        have hget := rolesError_eq_false_iff.1 hroles
        rw [get?_extractMeta (by decide)] at hget
        exact ⟨.object members t hn hf ht hget hmeta, ha, hb, hdup⟩
      next => simp at h
  · rintro ⟨hentry, ha, hb, hdup⟩
    cases hentry with
    | object members _ hn hf ht hroles hmeta =>
      have hfields := transitionFields_eq_ok.2 ⟨members, rfl, hn, hf, ht, rfl⟩
      have hroles' : rolesError (extractMeta members reservedTransitionFields) = false := by
        rw [rolesError_eq_false_iff, get?_extractMeta (by decide)]
        exact hroles
      have hrules := transitionRuleErrors_eq_nil_iff.2 ⟨t.nonblank, ha, hb, hdup⟩
      have hnew := Transition.new_eq_ok.2 ⟨rfl, rfl, rfl, hmeta⟩
      simp [parseTransition, hfields, hrules, hroles', hnew]

/-- A refused entry has a problem. -/
theorem parseTransition_error_ne_nil {known : List PyStr} {parsed : TransitionTable} {entry : Json}
    {problems : List TransitionProblem} (h : parseTransition known parsed entry = .error problems) :
    problems ≠ [] := by
  unfold parseTransition at h
  split at h
  next => simp [← Except.error.inj h]
  next name a b metadata _ =>
    split at h
    next =>
      cases hnew : Transition.new name a b metadata with
      | error e => simp [hnew] at h; simp [← h]
      | ok t => simp [hnew] at h
    next hne => exact Except.error.inj h ▸ hne

/-- The parsed table files one transition a pair. -/
theorem nodup_keys_parseTransitionsFrom (known : List PyStr) (i : Nat) (parsed : TransitionTable)
    (raw : List Json) (h : (Dict.keys parsed).Nodup) :
    (Dict.keys (parseTransitionsFrom known i parsed raw).2).Nodup := by
  induction raw generalizing i parsed with
  | nil => exact h
  | cons entry rest ih =>
    rw [parseTransitionsFrom]
    cases hentry : parseTransition known parsed entry with
    | error problems => exact ih _ _ h
    | ok t =>
      have hdup := (parseTransition_eq_ok.1 hentry).2.2.2
      refine ih _ _ ?_
      rw [Dict.set_of_notMem hdup, Dict.keys_append, List.nodup_append_comm]
      exact List.nodup_cons.2 ⟨hdup, h⟩

theorem nodup_keys_parseTransitions (known : List PyStr) (raw : List Json) :
    (Dict.keys (parseTransitions known raw).2).Nodup :=
  nodup_keys_parseTransitionsFrom known 0 [] raw List.nodup_nil

/-! ## The parser -/

/-- The last check of `workflow_from_document`: no dead columns. -/
def checkReachable (workflow : Workflow) : Except (List Problem) Workflow :=
  match workflow.unreachableStates.insertionSort (· ≤ ·) with
  | [] => .ok workflow
  | unreachable => .error (unreachable.map fun s => .unreachable s workflow.entryStates)

/-- What `workflow_from_document` does once the structure holds: all problems of the content layer
at once, then the constructor's own rules, then reachability. -/
def parseContent (document : Dict PyStr Json) (rawStates rawTransitions : List Json) :
    Except (List Problem) Workflow :=
  let states := parseStates rawStates
  let known := states.2.map State.name
  let transitions := parseTransitions known rawTransitions
  match rejectNulBytes (py "definition") (.dict document) ++ states.1 ++ transitions.1 with
  | [] => do
    let workflow ← (Workflow.new states.2 transitions.2
      (nodup_keys_parseTransitions known rawTransitions)).mapError fun e => [.rule e]
    checkReachable workflow
  | errors => .error errors

/-- `workflow_from_document`. -/
def workflowFromDocument (data : Json) : Except (List Problem) Workflow := do
  let (document, rawStates, rawTransitions) ← parseDocument data
  parseContent document rawStates rawTransitions

end TaskService.Workflows
