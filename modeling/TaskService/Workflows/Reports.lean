import TaskService.Lib.Collecting
import TaskService.Py.Folding
import TaskService.Workflows.Grammar

/-!
# What the parser reports

The rules for the entries of a document, stated for each entry and the entries before it, and the
messages that the parser collects at the entry's index.

`_transition_rule_errors` collects a message for every rule that an entry breaks. `_parse_state`
returns at the first one: a state that breaks several rules gets one message, for the first of them.

* **`stateReport_cases`**, **`transitionReport_spec`**: what one entry contributes.
* **`reports_each_rule`**: the messages are those of the broken rules exactly when no entry of
  `states` breaks two.
-/

namespace TaskService.Workflows

open Collecting

/-! ## The rules -/

/-- What is asked of an entry of `states`. -/
inductive StateRule where
  | shape
  | initial
  | wipLimit
  | name
  | duplicate
  deriving DecidableEq

/-- What is asked of an entry of `transitions`. -/
inductive TransitionRule where
  | shape
  | name
  | fromState
  | toState
  | duplicate
  | roles
  deriving DecidableEq

/-- The members of an entry in object form. -/
def membersOf : Json → Dict PyStr Json
  | .dict members => members
  | _ => []

/-- The name of an entry of a permitted shape. -/
def stateName? : Json → Option PyStr
  | .str name => some name
  | .dict members =>
    match Dict.get? members (py "name") with
    | some (.str name) => some name
    | _ => none
  | _ => none

/-- One of these entries is accepted as a state of that name. -/
def Accepts (entries : List Json) (name : PyStr) : Prop :=
  ∃ entry ∈ entries, ∃ s, StateEntry entry s ∧ s.name = name

/-- **An entry of `states` breaks a rule**, the entries before it being `earlier`. -/
def StateRule.Broken (earlier : List Json) (entry : Json) : StateRule → Prop
  | .shape => stateName? entry = none
  | .initial => stateName? entry ≠ none
      ∧ ∀ b, (Dict.get? (membersOf entry) (py "initial")).getD (.bool false) ≠ .bool b
  | .wipLimit => stateName? entry ≠ none
      ∧ ∃ v, Dict.get? (membersOf entry) wipLimitMetaKey = some v ∧ ∀ n : Nat, v ≠ .int n
  | .name => ∃ name, stateName? entry = some name ∧ Blank name
  | .duplicate => ∃ name, stateName? entry = some name ∧ Accepts earlier name

/-- The three fields of an entry of `transitions` of the permitted shape. -/
def TransitionShape (entry : Json) (name fromState toState : PyStr) : Prop :=
  Dict.get? (membersOf entry) (py "name") = some (.str name)
    ∧ Dict.get? (membersOf entry) (py "from") = some (.str fromState)
    ∧ Dict.get? (membersOf entry) (py "to") = some (.str toState)

/-- One of these entries is accepted as a transition between those states. -/
def AcceptsPair (rawStates entries : List Json) (pair : StatePair) : Prop :=
  ∃ entry ∈ entries, ∃ t, TransitionEntry entry t ∧ t.ends = pair
    ∧ Accepts rawStates t.fromState ∧ Accepts rawStates t.toState

/-- **An entry of `transitions` breaks a rule.** -/
def TransitionRule.Broken (rawStates earlier : List Json) (entry : Json) : TransitionRule → Prop
  | .shape => ∀ name a b, ¬ TransitionShape entry name a b
  | .name => ∃ name a b, TransitionShape entry name a b ∧ Blank name
  | .fromState => ∃ name a b, TransitionShape entry name a b ∧ ¬ Accepts rawStates a
  | .toState => ∃ name a b, TransitionShape entry name a b ∧ ¬ Accepts rawStates b
  | .duplicate => ∃ name a b, TransitionShape entry name a b ∧ AcceptsPair rawStates earlier (a, b)
  | .roles => (∃ name a b, TransitionShape entry name a b)
      ∧ ∃ v, Dict.get? (membersOf entry) rolesMetaKey = some v
        ∧ ¬ ∃ roles, v = .list roles ∧ roles ≠ []
          ∧ ∀ r ∈ roles, ∃ role, r = .str role ∧ ¬ Blank role

/-! ## The messages -/

/-- The rule a message is about. -/
def StateProblem.rule : StateProblem → StateRule
  | .initialNotBoolean => .initial
  | .wipLimit => .wipLimit
  | .nameMissing => .shape
  | .wrongShape _ => .shape
  | .duplicate _ => .duplicate
  | .invalid _ => .name

def TransitionProblem.rule : TransitionProblem → TransitionRule
  | .missing _ => .shape
  | .notStrings _ => .shape
  | .wrongShape _ => .shape
  | .blankName => .name
  | .unknownState field _ => if field = py "from" then .fromState else .toState
  | .duplicate _ _ => .duplicate
  | .roles => .roles
  | .invalid _ => .name

/-- The rules that the messages at `states[i]` are about. -/
def statesAt (i : Nat) (problems : List Problem) : List StateRule :=
  problems.filterMap fun
    | .state j problem => if j = i then some problem.rule else none
    | _ => none

/-- The rules that the messages at `transitions[i]` are about. -/
def transitionsAt (i : Nat) (problems : List Problem) : List TransitionRule :=
  problems.filterMap fun
    | .transition j problem => if j = i then some problem.rule else none
    | _ => none

section Parser

variable [Unicode]

/-- The messages of the `WorkflowValidationError` that a document raises, if it does. -/
def raisedBy (data : Json) : List Problem :=
  match workflowFromDocument data with
  | .error problems => problems
  | .ok _ => []

/-! ## The two loops -/

/-- What one round of `_parse_states` reports, and the states after it. -/
def stateStep (states : List State) (entry : Json) : List StateProblem × List State :=
  match parseState entry with
  | .error problem => ([problem], states)
  | .ok s =>
    if s.name ∈ states.map State.name then ([.duplicate s.name], states) else ([], states ++ [s])

/-- What one round of `_parse_transitions` reports, and the table after it. -/
def transitionStep (known : List PyStr) (parsed : TransitionTable) (entry : Json) :
    List TransitionProblem × TransitionTable :=
  match parseTransition known parsed entry with
  | .error problems => (problems, parsed)
  | .ok t => ([], Dict.set parsed (t.fromState, t.toState) t)

theorem parseStatesFrom_eq (i : Nat) (states : List State) (raw : List Json) :
    parseStatesFrom i states raw
      = ((collectFrom stateStep i states raw).1.map (fun report => .state report.1 report.2),
        (collectFrom stateStep i states raw).2) := by
  induction raw generalizing i states with
  | nil => rfl
  | cons entry rest ih =>
    rw [parseStatesFrom, collectFrom]
    cases hentry : parseState entry with
    | error problem =>
      simp only [stateStep, hentry, ih, collect]
      rfl
    | ok s =>
      by_cases hdup : s.name ∈ states.map State.name
      · simp only [stateStep, hentry, if_pos hdup, ih, collect]
        rfl
      · simp only [stateStep, hentry, if_neg hdup, ih]
        rfl

theorem parseTransitionsFrom_eq (known : List PyStr) (i : Nat) (parsed : TransitionTable)
    (raw : List Json) :
    parseTransitionsFrom known i parsed raw
      = ((collectFrom (transitionStep known) i parsed raw).1.map
          (fun report => .transition report.1 report.2),
        (collectFrom (transitionStep known) i parsed raw).2) := by
  induction raw generalizing i parsed with
  | nil => rfl
  | cons entry rest ih =>
    rw [parseTransitionsFrom, collectFrom]
    cases hentry : parseTransition known parsed entry with
    | error problems =>
      simp only [transitionStep, hentry, ih, List.map_append, List.map_map]
      rfl
    | ok t =>
      simp only [transitionStep, hentry, ih]
      rfl

/-! ## What the loops have accepted -/

theorem mem_accumulate_stateStep (states : List State) (entries : List Json) (name : PyStr) :
    name ∈ (accumulate stateStep states entries).map State.name
      ↔ name ∈ states.map State.name ∨ Accepts entries name := by
  induction entries generalizing states with
  | nil =>
    show name ∈ states.map State.name ↔ _
    simp [Accepts]
  | cons entry rest ih =>
    show name ∈ (accumulate stateStep (stateStep states entry).2 rest).map State.name ↔ _
    have hcons : Accepts (entry :: rest) name
        ↔ (∃ s, StateEntry entry s ∧ s.name = name) ∨ Accepts rest name := by
      simp [Accepts]
    rw [ih, hcons, ← or_assoc]
    apply or_congr_left
    cases hentry : parseState entry with
    | error problem =>
      -- an entry the parser refuses adds no state
      have hnone : ¬ ∃ s, StateEntry entry s ∧ s.name = name := by
        rintro ⟨s, hs, -⟩
        rw [parseState_eq_ok.2 hs] at hentry
        cases hentry
      simp only [stateStep, hentry, hnone, or_false]
    | ok s =>
      have hone : (∃ s, StateEntry entry s ∧ s.name = name) ↔ s.name = name := by
        constructor
        · rintro ⟨s', hs', rfl⟩
          rw [parseState_eq_ok.2 hs'] at hentry
          rw [Except.ok.inj hentry]
        · exact fun h => ⟨s, parseState_eq_ok.1 hentry, h⟩
      rw [hone]
      -- a second state of the same name is dropped, but the name is there
      by_cases hdup : s.name ∈ states.map State.name
      · simp only [stateStep, hentry, if_pos hdup]
        exact ⟨.inl, fun h => h.elim id fun heq => heq ▸ hdup⟩
      · simp only [stateStep, hentry, if_neg hdup, List.map_append, List.mem_append, List.map_cons,
          List.map_nil, List.mem_singleton, eq_comm]

theorem mem_keys_accumulate_transitionStep (known : List PyStr) (parsed : TransitionTable)
    (entries : List Json) (pair : StatePair) :
    pair ∈ Dict.keys (accumulate (transitionStep known) parsed entries)
      ↔ pair ∈ Dict.keys parsed ∨ ∃ entry ∈ entries, ∃ t, TransitionEntry entry t ∧ t.ends = pair
        ∧ t.fromState ∈ known ∧ t.toState ∈ known := by
  induction entries generalizing parsed with
  | nil =>
    show pair ∈ Dict.keys parsed ↔ _
    simp
  | cons entry rest ih =>
    show pair ∈ Dict.keys (accumulate (transitionStep known)
      (transitionStep known parsed entry).2 rest)
      ↔ _
    rw [ih, List.exists_mem_cons_iff, ← or_assoc]
    apply or_congr_left
    cases hentry : parseTransition known parsed entry with
    | error problems =>
      simp only [transitionStep, hentry]
      refine ⟨.inl, ?_⟩
      rintro (h | ⟨t, ht, rfl, ha, hb⟩)
      · exact h
      · -- an entry that keeps the other rules is refused as a duplicate only
        by_contra hnew
        rw [parseTransition_eq_ok.2 ⟨ht, ha, hb, hnew⟩] at hentry
        cases hentry
    | ok t =>
      obtain ⟨ht, ha, hb, hnew⟩ := parseTransition_eq_ok.1 hentry
      simp only [transitionStep, hentry, Dict.set_of_notMem hnew, Dict.keys_append, List.mem_append,
        Dict.keys_cons, Dict.keys_nil, List.mem_singleton]
      constructor
      · rintro (h | rfl)
        · exact .inl h
        · exact .inr ⟨t, ht, rfl, ha, hb⟩
      · rintro (h | ⟨t', ht', rfl, ha', hb'⟩)
        · exact .inl h
        · -- the entry adds its own pair, and no other
          by_contra hno
          rw [parseTransition_eq_ok.2 ⟨ht', ha', hb', fun h => hno (.inl h)⟩] at hentry
          obtain rfl := Except.ok.inj hentry
          exact hno (.inr rfl)

/-! ## What one entry contributes -/

/-- With the reserved keys extracted, only a blank name stops the constructor. -/
theorem buildState_cases (name : PyStr) (initial : Bool) {metadata : Metadata}
    (hmeta : Unreserved reservedStateFields metadata) :
    (Blank name ∧ ∃ message, buildState name initial metadata = .error (.invalid message))
      ∨ ¬ Blank name ∧ ∃ s, buildState name initial metadata = .ok s ∧ s.name = name := by
  by_cases hblank : Blank name
  · left
    exact ⟨hblank, _, by rw [buildState, State.new, dif_pos hblank]; rfl⟩
  · right
    refine ⟨hblank, ⟨name, initial, metadata, hblank, hmeta⟩, ?_, rfl⟩
    rw [buildState, State.new, dif_neg hblank, dif_pos hmeta]
    rfl

/-- What the round reports once the constructor is reached. -/
theorem stateStep_buildState {states : List State} {earlier : List Json} {entry : Json}
    {name : PyStr} {initial : Bool} {metadata : Metadata}
    (hstates : ∀ name, name ∈ states.map State.name ↔ Accepts earlier name)
    (hmeta : Unreserved reservedStateFields metadata) (hname : stateName? entry = some name)
    (hbuild : parseState entry = buildState name initial metadata)
    (hinitial : ¬ StateRule.Broken earlier entry .initial)
    (hlimit : ¬ StateRule.Broken earlier entry .wipLimit) :
    ((stateStep states entry).1 = [] ∧ ∀ rule, ¬ StateRule.Broken earlier entry rule)
      ∨ ∃ p, (stateStep states entry).1 = [p] ∧ p.rule.Broken earlier entry := by
  rcases buildState_cases name initial hmeta with ⟨hblank, message, herror⟩ | ⟨hblank, s, hok, rfl⟩
  · right
    rw [← hbuild] at herror
    exact ⟨.invalid message, by rw [stateStep, herror], name, hname, hblank⟩
  · rw [← hbuild] at hok
    by_cases hdup : s.name ∈ states.map State.name
    · right
      refine ⟨.duplicate s.name, ?_, s.name, hname, (hstates _).1 hdup⟩
      simp only [stateStep, hok, if_pos hdup]
    · left
      refine ⟨by simp only [stateStep, hok, if_neg hdup], ?_⟩
      rintro (_ | _ | _ | _ | _)
      · exact fun h => by rw [StateRule.Broken, hname] at h; cases h
      · exact hinitial
      · exact hlimit
      · rintro ⟨name, hname', hblank'⟩
        rw [hname] at hname'
        exact hblank (Option.some.inj hname' ▸ hblank')
      · rintro ⟨name, hname', haccepts⟩
        rw [hname] at hname'
        exact hdup ((hstates _).2 (Option.some.inj hname' ▸ haccepts))

/-- **A round of `_parse_states`** reports nothing on an entry that breaks no rule, and one message,
for a rule that is broken, on any other. -/
theorem stateReport_cases {states : List State} {earlier : List Json}
    (hstates : ∀ name, name ∈ states.map State.name ↔ Accepts earlier name) (entry : Json) :
    ((stateStep states entry).1 = [] ∧ ∀ rule, ¬ StateRule.Broken earlier entry rule)
      ∨ ∃ p, (stateStep states entry).1 = [p] ∧ p.rule.Broken earlier entry := by
  cases entry with
  -- a bare name: the defaults keep the rules on the other fields
  | str name =>
    have hbuild : parseState (.str name) = buildState name false [] := rfl
    apply stateStep_buildState hstates (by decide) rfl hbuild
    · rintro ⟨-, h⟩
      exact h false rfl
    · rintro ⟨-, v, hv, -⟩
      cases hv
  | dict members =>
    -- the checks in the order of the parser: name, then initial, then the limit
    by_cases hname : ∃ name, Dict.get? members (py "name") = some (.str name)
    · obtain ⟨name, hname⟩ := hname
      have hshape : stateName? (.dict members) = some name := by simp only [stateName?, hname]
      by_cases hinitial : ∃ b, (Dict.get? members (py "initial")).getD (.bool false) = .bool b
      · obtain ⟨b, hinitial⟩ := hinitial
        cases hlimit : wipLimitError (extractMeta members reservedStateFields) with
        | true =>
          right
          refine ⟨.wipLimit, ?_, by rw [hshape]; simp, ?_⟩
          · simp only [stateStep, parseState, hname, hinitial, hlimit, if_true]
          · have hno := mt wipLimitError_eq_false_iff.2 (by rw [hlimit]; decide)
            rw [get?_extractMeta (by decide)] at hno
            push Not at hno
            exact hno
        | false =>
          have hbuild : parseState (.dict members)
              = buildState name b (extractMeta members reservedStateFields) := by
            simp only [parseState, hname, hinitial, hlimit]
            rfl
          apply stateStep_buildState hstates (extractMeta_unreserved members _) hshape hbuild
          · rintro ⟨-, h⟩
            exact h b hinitial
          · rintro ⟨-, v, hv, hno⟩
            have hget := wipLimitError_eq_false_iff.1 hlimit
            rw [get?_extractMeta (by decide)] at hget
            obtain ⟨n, rfl⟩ := hget v hv
            exact hno n rfl
      · right
        have herror : parseState (.dict members) = .error .initialNotBoolean := by
          simp only [parseState, hname]
          split
          next b h => exact absurd ⟨b, h⟩ hinitial
          next => rfl
        exact ⟨.initialNotBoolean, by rw [stateStep, herror], by rw [hshape]; simp,
          not_exists.1 hinitial⟩
    · right
      have herror : parseState (.dict members) = .error .nameMissing := by
        simp only [parseState]
        split
        next name h => exact absurd ⟨name, h⟩ hname
        next => rfl
      have hshape : stateName? (.dict members) = none := by
        simp only [stateName?]
        split
        next name h => exact absurd ⟨name, h⟩ hname
        next => rfl
      exact ⟨.nameMissing, by rw [stateStep, herror], hshape⟩
  -- any other value has the wrong shape
  | _ =>
    right
    exact ⟨.wrongShape _, rfl, rfl⟩

omit [Unicode] in
/-- An entry has one name and one pair of ends. -/
theorem TransitionShape.exists_iff {entry : Json} {name a b : PyStr}
    (h : TransitionShape entry name a b) {P : PyStr → PyStr → PyStr → Prop} :
    (∃ name a b, TransitionShape entry name a b ∧ P name a b) ↔ P name a b := by
  constructor
  · rintro ⟨name', a', b', ⟨hname, hfrom, hto⟩, hP⟩
    obtain rfl := Json.str.inj (Option.some.inj (h.1.symm.trans hname))
    obtain rfl := Json.str.inj (Option.some.inj (h.2.1.symm.trans hfrom))
    obtain rfl := Json.str.inj (Option.some.inj (h.2.2.symm.trans hto))
    exact hP
  · exact fun hP => ⟨name, a, b, h, hP⟩

omit [Unicode] in
theorem TransitionShape.fields {entry : Json} {name a b : PyStr}
    (h : TransitionShape entry name a b) :
    transitionFields entry
      = .ok (name, a, b, extractMeta (membersOf entry) reservedTransitionFields) := by
  cases entry with
  | dict members => exact transitionFields_eq_ok.2 ⟨members, rfl, h.1, h.2.1, h.2.2, rfl⟩
  | _ => exact nomatch h.1

omit [Unicode] in
/-- An entry of another shape is reported for its shape. -/
theorem transitionFields_error {entry : Json} (h : ∀ name a b, ¬ TransitionShape entry name a b) :
    ∃ problem, transitionFields entry = .error problem ∧ problem.rule = .shape := by
  cases entry with
  | dict members =>
    refine ⟨shapeProblem members, ?_, ?_⟩
    · unfold transitionFields
      dsimp only
      split
      next name a b hname hfrom hto => exact absurd ⟨hname, hfrom, hto⟩ (h name a b)
      next => rfl
    · unfold shapeProblem
      dsimp only
      split <;> rfl
  | _ => exact ⟨_, rfl, rfl⟩

/-- An entry of the right shape is reported for all that it breaks: the constructor has nothing left
to refuse. -/
theorem transitionStep_of_shape {entry : Json} {name a b : PyStr}
    (h : TransitionShape entry name a b) (known : List PyStr) (parsed : TransitionTable) :
    (transitionStep known parsed entry).1 = transitionRuleErrors name a b known parsed
      ++ if rolesError (extractMeta (membersOf entry) reservedTransitionFields) then [.roles]
        else [] := by
  unfold transitionStep parseTransition
  simp only [h.fields]
  cases hproblems : transitionRuleErrors name a b known parsed
      ++ if rolesError (extractMeta (membersOf entry) reservedTransitionFields) then [.roles]
        else [] with
  | cons problem problems => rfl
  | nil =>
    have hnonblank := (transitionRuleErrors_eq_nil_iff.1 (List.append_eq_nil_iff.1 hproblems).1).1
    have hmeta := extractMeta_unreserved (membersOf entry) reservedTransitionFields
    have hnew : Transition.new name a b (extractMeta (membersOf entry) reservedTransitionFields)
        = .ok ⟨name, a, b, _, hnonblank, hmeta⟩ := by
      rw [Transition.new, dif_neg hnonblank, dif_pos hmeta]
    simp only [hnew, Except.mapError_ok]

omit [Unicode] in
theorem rolesError_iff {entry : Json} :
    rolesError (extractMeta (membersOf entry) reservedTransitionFields) = true
      ↔ ∃ v, Dict.get? (membersOf entry) rolesMetaKey = some v
        ∧ ¬ ∃ roles, v = .list roles ∧ roles ≠ []
          ∧ ∀ r ∈ roles, ∃ role, r = .str role ∧ ¬ Blank role := by
  have hiff := not_congr
    (@rolesError_eq_false_iff (extractMeta (membersOf entry) reservedTransitionFields))
  rw [get?_extractMeta (by decide), Bool.not_eq_false] at hiff
  rw [hiff]
  push Not
  rfl

/-- **A round of `_parse_transitions`** reports exactly the rules that the entry breaks,
each once. -/
theorem transitionReport_spec {rawStates earlier : List Json} {known : List PyStr}
    {parsed : TransitionTable} (hknown : ∀ name, name ∈ known ↔ Accepts rawStates name)
    (hparsed : ∀ pair, pair ∈ Dict.keys parsed ↔ AcceptsPair rawStates earlier pair)
    (entry : Json) :
    (∀ rule, rule ∈ (transitionStep known parsed entry).1.map TransitionProblem.rule
        ↔ TransitionRule.Broken rawStates earlier entry rule)
      ∧ ((transitionStep known parsed entry).1.map TransitionProblem.rule).Nodup := by
  by_cases hshape : ∃ name a b, TransitionShape entry name a b
  · obtain ⟨name, a, b, h⟩ := hshape
    -- an entry with the right shape is told every rule it breaks, in this order
    have hrules : (transitionStep known parsed entry).1.map TransitionProblem.rule
        = (if Blank name then [.name] else []) ++ (if a ∉ known then [.fromState] else [])
          ++ (if b ∉ known then [.toState] else [])
          ++ (if (a, b) ∈ Dict.keys parsed then [.duplicate] else [])
          ++ if rolesError (extractMeta (membersOf entry) reservedTransitionFields) then [.roles]
            else [] := by
      rw [transitionStep_of_shape h, transitionRuleErrors]
      simp only [List.map_append, apply_ite (List.map TransitionProblem.rule), List.map_nil,
        List.map_cons]
      rfl
    rw [hrules]
    constructor
    · intro rule
      cases rule with
      | shape => exact iff_of_false (by simp) fun hno => hno name a b h
      | name =>
        rw [TransitionRule.Broken, h.exists_iff]
        simp
      | fromState =>
        rw [TransitionRule.Broken, h.exists_iff]
        simp [hknown]
      | toState =>
        rw [TransitionRule.Broken, h.exists_iff]
        simp [hknown]
      | duplicate =>
        rw [TransitionRule.Broken, h.exists_iff]
        simp [hparsed]
      | roles =>
        have hwell : ∃ name a b, TransitionShape entry name a b := ⟨name, a, b, h⟩
        simp only [TransitionRule.Broken, ← rolesError_iff, hwell]
        simp
    · have hsub : ∀ (p : Prop) [Decidable p] (rule : TransitionRule),
          (if p then [rule] else []).Sublist [rule] := by
        intro p _ rule
        split
        · exact .refl _
        · exact List.nil_sublist _
      -- each rule has its own place, so none is told twice
      have hall : [TransitionRule.name, .fromState, .toState, .duplicate, .roles].Nodup := by decide
      exact hall.sublist
        (((((hsub _ _).append (hsub _ _)).append (hsub _ _)).append (hsub _ _)).append (hsub _ _))
  · -- an entry without the shape is told that, and nothing else
    have hno : ∀ name a b, ¬ TransitionShape entry name a b := by simpa using hshape
    obtain ⟨problem, herror, hrule⟩ := transitionFields_error hno
    have hone : (transitionStep known parsed entry).1 = [problem] := by
      simp only [transitionStep, parseTransition, herror]
    rw [hone, List.map_cons, hrule, List.map_nil]
    refine ⟨fun rule => ?_, List.nodup_singleton _⟩
    cases rule with
    | shape => exact iff_of_true (List.mem_singleton_self _) hno
    | roles => exact iff_of_false (by simp) fun hbroken => hshape hbroken.1
    | _ =>
      refine iff_of_false (by simp) ?_
      rintro ⟨name, a, b, h, -⟩
      exact hshape ⟨name, a, b, h⟩

/-! ## The error list -/

/-- A message that names no entry. -/
def Problem.Elsewhere : Problem → Prop
  | .state _ _ | .transition _ _ => False
  | _ => True

omit [Unicode] in
theorem statesAt_append (i : Nat) (problems problems' : List Problem) :
    statesAt i (problems ++ problems') = statesAt i problems ++ statesAt i problems' :=
  List.filterMap_append

omit [Unicode] in
theorem transitionsAt_append (i : Nat) (problems problems' : List Problem) :
    transitionsAt i (problems ++ problems')
    = transitionsAt i problems ++ transitionsAt i problems' :=
  List.filterMap_append

omit [Unicode] in
theorem at_of_elsewhere {problems : List Problem} (h : ∀ p ∈ problems, p.Elsewhere) (i : Nat) :
    statesAt i problems = [] ∧ transitionsAt i problems = [] := by
  constructor
  · apply List.filterMap_eq_nil_iff.2
    intro p hp
    have := h p hp
    cases p with
    | state => cases this
    | _ => rfl
  · apply List.filterMap_eq_nil_iff.2
    intro p hp
    have := h p hp
    cases p with
    | transition => cases this
    | _ => rfl

omit [Unicode] in
/-- The NUL screen names paths. -/
theorem rejectNulBytes_elsewhere (d : Json) (path : PyStr) :
    ∀ p ∈ rejectNulBytes path d, p.Elsewhere := by
  induction d generalizing path with
  | str s =>
    show ∀ p ∈ if (0 : CodePoint) ∈ s then [Problem.nul path] else [], p.Elsewhere
    split
    · exact List.forall_mem_singleton.2 trivial
    · exact fun _ hp => (nomatch hp)
  | list xs ih =>
    -- the items one after the other, from any index
    have hlist : ∀ index, ∀ p ∈ rejectNulList path index xs, p.Elsewhere := by
      induction xs with
      | nil => exact fun _ _ hp => (nomatch hp)
      | cons x xs ihxs =>
        intro index
        have hrest := ihxs (fun y hy => ih y (List.mem_cons_of_mem _ hy)) (index + 1)
        exact List.forall_mem_append.2 ⟨ih x List.mem_cons_self _, hrest⟩
    exact hlist 0
  | dict kvs ih =>
    show ∀ p ∈ rejectNulItems path kvs, p.Elsewhere
    induction kvs with
    | nil => exact fun _ hp => (nomatch hp)
    | cons kv kvs ihkvs =>
      obtain ⟨key, item⟩ := kv
      have hrest := ihkvs fun y hy => ih y (List.mem_cons_of_mem _ hy)
      -- a key is screened as well as the value under it
      have hkey : ∀ p ∈ if (0 : CodePoint) ∈ key then [Problem.nul (path ++ py "." ++ key)] else [],
          p.Elsewhere := by
        split
        · exact List.forall_mem_singleton.2 trivial
        · exact fun _ hp => (nomatch hp)
      exact List.forall_mem_append.2
        ⟨List.forall_mem_append.2 ⟨hkey, ih _ List.mem_cons_self _⟩, hrest⟩
  | _ => exact fun _ hp => (nomatch hp)

section Document

variable {d : Json} {document : Dict PyStr Json} {rawStates rawTransitions : List Json}

/-- The names that `_parse_transitions` is told. -/
def knownNames (rawStates : List Json) : List PyStr := (parseStates rawStates).2.map State.name

/-- What has been collected when the last loop ends. -/
def collected (document : Dict PyStr Json) (rawStates rawTransitions : List Json) : List Problem :=
  rejectNulBytes (py "definition") (.dict document) ++ (parseStates rawStates).1
    ++ (parseTransitions (knownNames rawStates) rawTransitions).1

theorem raisedBy_of_error {problems : List Problem} (h : workflowFromDocument d = .error problems) :
    raisedBy d = problems := by
  rw [raisedBy, h]

theorem raisedBy_of_ok {w : Workflow} (h : workflowFromDocument d = .ok w) : raisedBy d = [] := by
  rw [raisedBy, h]

/-- What is collected is raised. -/
theorem parseContent_of_cons {p : Problem} {problems : List Problem}
    (h : collected document rawStates rawTransitions = p :: problems) :
    parseContent document rawStates rawTransitions = .error (p :: problems) := by
  unfold collected knownNames at h
  unfold parseContent
  dsimp only
  rw [h]

/-- Nothing is collected: the constructor and the last check decide. -/
theorem parseContent_of_nil (h : collected document rawStates rawTransitions = []) :
    parseContent document rawStates rawTransitions
      = ((Workflow.new (parseStates rawStates).2
          (parseTransitions (knownNames rawStates) rawTransitions).2
          (nodup_keys_parseTransitions (knownNames rawStates) rawTransitions)).mapError
            fun e => [.rule e]) >>= checkReachable := by
  unfold collected knownNames at h
  unfold parseContent
  dsimp only
  rw [h]
  rfl

omit [Unicode] in
/-- The last check names no entry. -/
theorem elsewhere_of_checkReachable {w : Workflow} {problems : List Problem}
    (h : checkReachable w = .error problems) : ∀ p ∈ problems, p.Elsewhere := by
  unfold checkReachable at h
  split at h
  · cases h
  · obtain rfl := Except.error.inj h
    intro p hp
    obtain ⟨s, -, rfl⟩ := List.mem_map.1 hp
    trivial

/-- The parser raises what it has collected, or, when that is nothing, what the constructor and the
last check find, which names no entry. -/
theorem raisedBy_cases (h : parseDocument d = .ok (document, rawStates, rawTransitions)) :
    raisedBy d = collected document rawStates rawTransitions
      ∨ collected document rawStates rawTransitions = [] ∧ ∀ p ∈ raisedBy d, p.Elsewhere := by
  have hparse : workflowFromDocument d = parseContent document rawStates rawTransitions := by
    rw [workflowFromDocument, h]
    rfl
  cases hcollected : collected document rawStates rawTransitions with
  | cons p problems =>
    exact .inl (raisedBy_of_error (hparse.trans (parseContent_of_cons hcollected)))
  | nil =>
    refine .inr ⟨rfl, ?_⟩
    cases hresult : workflowFromDocument d with
    | ok w =>
      rw [raisedBy_of_ok hresult]
      exact fun _ hp => absurd hp List.not_mem_nil
    | error problems =>
      rw [raisedBy_of_error hresult]
      rw [hparse, parseContent_of_nil hcollected] at hresult
      cases hnew : Workflow.new (parseStates rawStates).2
          (parseTransitions (knownNames rawStates) rawTransitions).2
          (nodup_keys_parseTransitions (knownNames rawStates) rawTransitions) with
      | error e =>
        rw [hnew] at hresult
        obtain rfl := Except.error.inj hresult
        exact List.forall_mem_singleton.2 trivial
      | ok w =>
        rw [hnew] at hresult
        exact elsewhere_of_checkReachable hresult

/-- **The messages at the entries** are those of the two loops: nothing that the parser raises
before or after them names an entry. -/
theorem raisedBy_at (h : parseDocument d = .ok (document, rawStates, rawTransitions)) (i : Nat) :
    statesAt i (raisedBy d) = statesAt i (parseStatesFrom 0 [] rawStates).1
      ∧ transitionsAt i (raisedBy d)
        = transitionsAt i (parseTransitionsFrom (knownNames rawStates) 0 [] rawTransitions).1 := by
  have hsame : statesAt i (raisedBy d) = statesAt i (collected document rawStates rawTransitions)
      ∧ transitionsAt i (raisedBy d)
        = transitionsAt i (collected document rawStates rawTransitions) := by
    -- what is raised is what the passes collected, or the reachability check of a document without
    -- problems, which names no entry
    rcases raisedBy_cases h with heq | ⟨hnil, helsewhere⟩
    · rw [heq]
      exact ⟨rfl, rfl⟩
    · rw [hnil]
      exact at_of_elsewhere helsewhere i
  have hnul := at_of_elsewhere (rejectNulBytes_elsewhere (.dict document) (py "definition")) i
  have hempty : ∀ p ∈ (if rawStates.isEmpty then [.noStates] else [] : List Problem),
      p.Elsewhere := by
    split
    · exact List.forall_mem_singleton.2 trivial
    · exact fun _ hp => (nomatch hp)
  -- the other passes name no entry of this kind
  have hnone := at_of_elsewhere hempty i
  have hstates : transitionsAt i (parseStatesFrom 0 [] rawStates).1 = [] := by
    rw [parseStatesFrom_eq]
    simp [transitionsAt]
  have htransitions : statesAt i (parseTransitions (knownNames rawStates) rawTransitions).1
      = [] := by
    rw [parseTransitions, parseTransitionsFrom_eq]
    simp [statesAt]
  have hparse : (parseStates rawStates).1
      = (if rawStates.isEmpty then [.noStates] else []) ++ (parseStatesFrom 0 [] rawStates).1 := rfl
  rw [hsame.1, hsame.2, collected, hparse, statesAt_append, statesAt_append, statesAt_append,
    transitionsAt_append, transitionsAt_append, transitionsAt_append, hnul.1, hnul.2,
    hnone.1, hnone.2, hstates, htransitions, List.append_nil]
  exact ⟨rfl, rfl⟩

theorem statesAt_raisedBy (h : parseDocument d = .ok (document, rawStates, rawTransitions))
    {i : Nat} {entry : Json} (hentry : rawStates[i]? = some entry) :
    statesAt i (raisedBy d)
      = (stateStep (accumulate stateStep [] (rawStates.take i)) entry).1.map StateProblem.rule := by
  have hreports := reportsAt_collectFrom stateStep hentry 0 []
  rw [Nat.zero_add] at hreports
  rw [(raisedBy_at h i).1, parseStatesFrom_eq, ← hreports]
  simp only [statesAt, reportsAt, List.filterMap_map, List.map_filterMap]
  congr 1
  funext report
  show (if report.1 = i then some report.2.rule else none)
    = (if report.1 = i then some report.2 else none).map StateProblem.rule
  split <;> rfl

theorem transitionsAt_raisedBy (h : parseDocument d = .ok (document, rawStates, rawTransitions))
    {i : Nat} {entry : Json} (hentry : rawTransitions[i]? = some entry) :
    transitionsAt i (raisedBy d)
      = (transitionStep (knownNames rawStates)
          (accumulate (transitionStep (knownNames rawStates)) []
            (rawTransitions.take i)) entry).1.map TransitionProblem.rule := by
  have hreports := reportsAt_collectFrom
    (transitionStep (knownNames rawStates)) hentry 0 []
  rw [Nat.zero_add] at hreports
  rw [(raisedBy_at h i).2, parseTransitionsFrom_eq, ← hreports]
  simp only [transitionsAt, reportsAt, List.filterMap_map, List.map_filterMap]
  congr 1
  funext report
  show (if report.1 = i then some report.2.rule else none)
    = (if report.1 = i then some report.2 else none).map TransitionProblem.rule
  split <;> rfl

theorem mem_knownNames (name : PyStr) : name ∈ knownNames rawStates ↔ Accepts rawStates name := by
  have hstates : (parseStates rawStates).2 = accumulate stateStep [] rawStates := by
    rw [parseStates, parseStatesFrom_eq]
    exact collectFrom_snd stateStep 0 [] rawStates
  rw [knownNames, hstates, mem_accumulate_stateStep]
  simp

/-- **Transitions are reported in full**: at each index, exactly the rules that the entry breaks. -/
theorem transitions_reported (h : parseDocument d = .ok (document, rawStates, rawTransitions))
    {i : Nat} {entry : Json} (hentry : rawTransitions[i]? = some entry) :
    (∀ rule, rule ∈ transitionsAt i (raisedBy d)
        ↔ TransitionRule.Broken rawStates (rawTransitions.take i) entry rule)
      ∧ (transitionsAt i (raisedBy d)).Nodup := by
  rw [transitionsAt_raisedBy h hentry]
  apply transitionReport_spec mem_knownNames
  intro pair
  rw [mem_keys_accumulate_transitionStep]
  simp [AcceptsPair, mem_knownNames]

/-- States are reported for one rule that they break, if they break any. -/
theorem states_reported (h : parseDocument d = .ok (document, rawStates, rawTransitions)) {i : Nat}
    {entry : Json} (hentry : rawStates[i]? = some entry) :
    (statesAt i (raisedBy d) = [] ∧ ∀ rule, ¬ StateRule.Broken (rawStates.take i) entry rule)
      ∨ ∃ rule, statesAt i (raisedBy d) = [rule] ∧ rule.Broken (rawStates.take i) entry := by
  rw [statesAt_raisedBy h hentry]
  have hstates : ∀ name, name ∈ (accumulate stateStep [] (rawStates.take i)).map State.name
      ↔ Accepts (rawStates.take i) name := by
    intro name
    rw [mem_accumulate_stateStep]
    simp
  rcases stateReport_cases hstates entry with ⟨hnil, hkeeps⟩ | ⟨p, hone, hbroken⟩
  · left
    rw [hnil]
    exact ⟨rfl, hkeeps⟩
  · right
    rw [hone]
    exact ⟨p.rule, rfl, hbroken⟩

/-- **All problems at once**: at every entry there is one message for each rule that it breaks, and
no other. -/
structure ReportsEach (d : Json) (rawStates rawTransitions : List Json) : Prop where
  states : ∀ i entry, rawStates[i]? = some entry →
    (∀ rule, rule ∈ statesAt i (raisedBy d) ↔ StateRule.Broken (rawStates.take i) entry rule)
      ∧ (statesAt i (raisedBy d)).Nodup
  transitions : ∀ i entry, rawTransitions[i]? = some entry →
    (∀ rule, rule ∈ transitionsAt i (raisedBy d)
        ↔ TransitionRule.Broken rawStates (rawTransitions.take i) entry rule)
      ∧ (transitionsAt i (raisedBy d)).Nodup

/-- **A document is reported in full exactly when none of its states breaks two rules.** -/
theorem reports_each_rule (h : parseDocument d = .ok (document, rawStates, rawTransitions)) :
    ReportsEach d rawStates rawTransitions
      ↔ ∀ i entry, rawStates[i]? = some entry → ∀ rule rule' : StateRule,
        rule.Broken (rawStates.take i) entry → rule'.Broken (rawStates.take i) entry →
        rule = rule' := by
  constructor
  · intro hreports i entry hentry rule rule' hrule hrule'
    obtain ⟨hiff, -⟩ := hreports.states i entry hentry
    rcases states_reported h hentry with ⟨-, hkeeps⟩ | ⟨one, hone, -⟩
    · exact absurd hrule (hkeeps rule)
    · -- both have a message, and there is one
      have hmem := (hiff rule).2 hrule
      have hmem' := (hiff rule').2 hrule'
      rw [hone] at hmem hmem'
      rw [List.mem_singleton.1 hmem, List.mem_singleton.1 hmem']
  · intro hatMostOne
    refine ⟨fun i entry hentry => ?_, fun i entry hentry => transitions_reported h hentry⟩
    rcases states_reported h hentry with ⟨hnil, hkeeps⟩ | ⟨one, hone, hbroken⟩
    · rw [hnil]
      exact ⟨fun rule => iff_of_false List.not_mem_nil (hkeeps rule), List.nodup_nil⟩
    · rw [hone]
      refine ⟨fun rule => ?_, List.nodup_singleton one⟩
      rw [List.mem_singleton]
      constructor
      · rintro rfl
        exact hbroken
      · exact fun hrule => hatMostOne i entry hentry rule one hrule hbroken

end Document

end Parser

section Examples

open Sharp

/-- A document with one entry of `states`. -/
def oneState (entry : Json) : Json :=
  .dict [(py "states", .list [entry]), (py "transitions", .list [])]

theorem stateName_of_stateEntry {entry : Json} {s : State} (h : StateEntry entry s) :
    stateName? entry = some s.name := by
  cases h with
  | shorthand => rfl
  | object members s hname => simp only [stateName?, hname]

/-- A name by itself can only be a duplicate. -/
theorem eq_duplicate_of_broken {earlier : List Json} {name : PyStr} (hname : ¬ Blank name)
    {rule : StateRule} (h : StateRule.Broken earlier (.str name) rule) : rule = .duplicate := by
  cases rule with
  | duplicate => rfl
  | shape => cases h
  | initial => exact absurd rfl (h.2 false)
  | wipLimit =>
    obtain ⟨-, v, hv, -⟩ := h
    cases hv
  | name =>
    obtain ⟨name', heq, hblank⟩ := h
    exact absurd (Option.some.inj heq ▸ hblank) hname

/-- A state with a negative limit. -/
def overfull : Json := .dict [(py "name", .str (py "b")), (py "wip_limit", .int (-1))]

/-- A state, one that is refused for its limit, one of no shape, and the first again. -/
def faultyStates : List Json := [.str (py "a"), overfull, .int 3, .str (py "a")]

/-- A transition to the state that is refused, one with a blank name, from a state that is none and
with no roles, one of no shape, and two between the same states. -/
def faultyTransitions : List Json :=
  [.dict [(py "name", .str (py "Take")), (py "from", .str (py "a")), (py "to", .str (py "b"))],
    .dict [(py "name", .str (py " ")), (py "from", .str (py "z")), (py "to", .str (py "a")),
      (py "roles", .list [])],
    .int 7,
    .dict [(py "name", .str (py "Stay")), (py "from", .str (py "a")), (py "to", .str (py "a"))],
    .dict [(py "name", .str (py "Rest")), (py "from", .str (py "a")), (py "to", .str (py "a"))]]

def faulty : Json := .dict [(py "states", .list faultyStates),
  (py "transitions", .list faultyTransitions)]

/-- **Every rule that is broken has its message**, at three states and at four transitions. -/
theorem reports_each_rule_number : ReportsEach faulty faultyStates faultyTransitions
    ∧ (List.range 4).map (fun i => statesAt i (raisedBy faulty))
      = [[], [.wipLimit], [.shape], [.duplicate]]
    ∧ (List.range 5).map (fun i => transitionsAt i (raisedBy faulty))
      = [[.toState], [.name, .fromState, .roles], [.shape], [], [.duplicate]] := by
  have hparse : parseDocument faulty = .ok ([(py "states", .list faultyStates),
      (py "transitions", .list faultyTransitions)], faultyStates, faultyTransitions) := rfl
  refine ⟨(reports_each_rule hparse).2 ?_, by decide +kernel, by decide +kernel⟩
  have hone : ∀ i entry, faultyStates[i]? = some entry → ∃ one : StateRule, ∀ rule : StateRule,
      rule.Broken (faultyStates.take i) entry → rule = one := by
    intro i entry hentry
    have hmem : entry ∈ faultyStates := List.mem_of_getElem? hentry
    simp only [faultyStates, List.mem_cons, List.not_mem_nil, or_false] at hmem
    rcases hmem with rfl | rfl | rfl | rfl
    · exact ⟨.duplicate, fun _ => eq_duplicate_of_broken (by decide)⟩
    · refine ⟨.wipLimit, fun rule hbroken => ?_⟩
      cases rule with
      | wipLimit => rfl
      | shape => cases hbroken
      | initial => exact absurd rfl (hbroken.2 false)
      | name =>
        obtain ⟨name, hname, hblank⟩ := hbroken
        obtain rfl := Option.some.inj hname
        exact absurd hblank (by decide)
      | duplicate =>
        -- no other entry has its name
        obtain ⟨name, hname, other, hother, s, hs, rfl⟩ := hbroken
        have hother := List.mem_of_mem_take hother
        simp only [faultyStates, List.mem_cons, List.not_mem_nil, or_false] at hother
        have hsame : stateName? other = stateName? overfull :=
          (stateName_of_stateEntry hs).trans hname.symm
        rcases hother with rfl | rfl | rfl | rfl
        · exact absurd hsame (by decide)
        · cases hs with
          | object _ _ _ _ hlimit _ =>
            obtain ⟨n, hn⟩ := hlimit (.int (-1)) rfl
            cases hn
        · cases hs
        · exact absurd hsame (by decide)
    · refine ⟨.shape, fun rule hbroken => ?_⟩
      cases rule with
      | shape => rfl
      | initial | wipLimit => exact absurd rfl hbroken.1
      | name | duplicate =>
        obtain ⟨name, hname, -⟩ := hbroken
        cases hname
    · exact ⟨.duplicate, fun _ => eq_duplicate_of_broken (by decide)⟩
  intro i entry hentry rule rule' hrule hrule'
  obtain ⟨one, hone⟩ := hone i entry hentry
  exact (hone rule hrule).trans (hone rule' hrule').symm

/-- A blank name, an `initial` that is no boolean and a negative limit. -/
def threeDefects : Json :=
  .dict [(py "name", .str (py " ")), (py "initial", .int 1), (py "wip_limit", .int (-1))]

/-- **One message for three broken rules**: the blank name of this entry is not reported. -/
theorem one_rule_reported : ¬ ReportsEach (oneState threeDefects) [threeDefects] [] := by
  intro h
  have hname : StateRule.Broken [] threeDefects .name := ⟨py " ", rfl, by decide⟩
  have hreported := ((h.states 0 threeDefects rfl).1 .name).2 hname
  have hone : statesAt 0 (raisedBy (oneState threeDefects)) = [.initial] := rfl
  rw [hone] at hreported
  cases hreported with
  | tail _ hnil => cases hnil

end Examples

end TaskService.Workflows
