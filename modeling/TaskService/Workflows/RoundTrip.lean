import TaskService.Workflows.Equality

/-!
# Storing and reloading a definition

`normalize` is what a workflow becomes after one trip through its document: metadata sorted by key,
the table sorted by pair. Encoding does not see the difference, and the document parses back to
exactly the normal form.

* **`workflowFromDocument_workflowToDocument`**: the document of an accepted workflow is accepted,
  and reads back as the normal form.
* **`documentable_of_eq_ok`**: every workflow that was read from a document can be written as one.
* **`screens_stateEntry`**, **`screens_transitionEntry`**: an entry and the one written for it hold
  the same strings and the same floats.
-/

namespace TaskService.Workflows

theorem unreserved_sortOn {reserved : List PyStr} {metadata : Metadata}
    (h : Unreserved reserved metadata) : Unreserved reserved (Dict.sortOn id metadata) :=
  fun k hk hmem => h k hk ((Dict.perm_keys (Dict.sortOn_perm id metadata)).mem_iff.1 hmem)

def State.normalize (s : State) : State :=
  { s with metadata := Dict.sortOn id s.metadata, unreserved := unreserved_sortOn s.unreserved }

def Transition.normalize (t : Transition) : Transition :=
  { t with metadata := Dict.sortOn id t.metadata, unreserved := unreserved_sortOn t.unreserved }

theorem same_sortOn {metadata : Metadata} (hnd : (Dict.keys metadata).Nodup) :
    Json.Same (.dict metadata) (.dict (Dict.sortOn id metadata)) := by
  refine Json.same_dict_of_perm hnd ?_
  rw [Json.canonItems_eq, Json.canonItems_eq]
  exact ((Dict.sortOn_perm id metadata).map _).symm

theorem State.eqv_normalize {s : State} (hnd : (Dict.keys s.metadata).Nodup) :
    s.Eqv s.normalize := ⟨rfl, rfl, same_sortOn hnd⟩

theorem Transition.eqv_normalize {t : Transition} (hnd : (Dict.keys t.metadata).Nodup) :
    t.Eqv t.normalize := ⟨rfl, rfl, same_sortOn hnd⟩

/-- The transitions of a table, in the order they are written. -/
def writtenTransitions (table : TransitionTable) : List Transition :=
  (Dict.sortOn toLex table).map fun kv => kv.2.normalize

namespace Workflow

variable (w : Workflow)

/-- The table files each of its transitions under its own pair. -/
theorem tableOf_transitions : tableOf (w.transitions.map Prod.snd) = w.transitions := by
  rw [tableOf, List.map_map]
  refine (List.map_congr_left fun kv hkv => ?_).trans (List.map_id _)
  exact Prod.ext (w.filed kv hkv).symm rfl

theorem tableOf_written : tableOf (writtenTransitions w.transitions)
    = (Dict.sortOn toLex w.transitions).map fun kv => (kv.1, kv.2.normalize) := by
  rw [tableOf, writtenTransitions, List.map_map]
  refine List.map_congr_left fun kv hkv => ?_
  exact Prod.ext (w.filed kv (Dict.mem_sortOn.1 hkv)).symm rfl

/-- The workflow after one trip through its document. -/
def normalize : Workflow where
  states := w.states.map State.normalize
  transitions := tableOf (writtenTransitions w.transitions)
  nonempty := by simpa using w.nonempty
  names_nodup := by simpa [State.normalize, Function.comp_def] using w.names_nodup
  keys_nodup := by
    rw [tableOf_written]
    have hnd := Dict.nodup_keys_sortOn (f := toLex).2 w.keys_nodup
    simpa [Dict.keys, Function.comp_def] using hnd
  filed := by simp [tableOf, Transition.ends]
  known := by
    intro kv hkv
    rw [tableOf_written] at hkv
    obtain ⟨kv', hkv', rfl⟩ := List.mem_map.1 hkv
    simpa [State.normalize, Function.comp_def] using w.known kv' (Dict.mem_sortOn.1 hkv')

/-- The workflow's parts and the written parts are likewise. -/
theorem likewise_normalize (hw : w.DistinctMeta) :
    Likewise w.states w.normalize.states (w.transitions.map Prod.snd)
      (writtenTransitions w.transitions) where
  states := by
    rw [show w.normalize.states = w.states.map State.normalize from rfl, List.forall₂_map_right_iff]
    exact List.forall₂_same.2 fun s hs => State.eqv_normalize (hw.states s hs)
  transitions := by
    refine ⟨(Dict.sortOn toLex w.transitions).map Prod.snd, ?_, ?_⟩
    · exact ((Dict.sortOn_perm toLex w.transitions).map Prod.snd).symm
    · rw [writtenTransitions, List.forall₂_map_right_iff, List.forall₂_map_left_iff]
      exact List.forall₂_same.2 fun kv hkv =>
        Transition.eqv_normalize (hw.transitions kv (Dict.mem_sortOn.1 hkv))

/-! ## Encoding does not see the difference -/

end Workflow

theorem stateEntry_normalize {s : State} (hnd : (Dict.keys s.metadata).Nodup) :
    stateEntry s.normalize = stateEntry s := by
  rw [stateEntry_eq hnd, stateEntry_eq (Dict.nodup_keys_sortOn.2 hnd)]
  show (if s.initial = false ∧ Dict.sortOn id s.metadata = [] then Json.str s.name
    else .dict (stateHead s ++ Dict.sortOn id (Dict.sortOn id s.metadata))) = _
  simp only [Dict.sortOn_sortOn, Dict.sortOn_eq_nil_iff]

theorem transitionEntry_normalize {t : Transition} (hnd : (Dict.keys t.metadata).Nodup) :
    transitionEntry t.normalize = transitionEntry t := by
  rw [transitionEntry_eq hnd, transitionEntry_eq (Dict.nodup_keys_sortOn.2 hnd)]
  show Json.dict (transitionHead t ++ Dict.sortOn id (Dict.sortOn id t.metadata)) = _
  rw [Dict.sortOn_sortOn]

/-- **The normal form has the same document, to the letter.** -/
theorem workflowToDocument_normalize {w : Workflow} (hw : w.DistinctMeta) :
    workflowToDocument w.normalize = workflowToDocument w := by
  have hstates : (w.states.map State.normalize).map stateEntry = w.states.map stateEntry := by
    rw [List.map_map]
    exact List.map_congr_left fun s hs => stateEntry_normalize (hw.states s hs)
  have hsorted : Dict.sortOn toLex w.normalize.transitions
      = (Dict.sortOn toLex w.transitions).map fun kv => (kv.1, kv.2.normalize) := by
    rw [show w.normalize.transitions = _ from w.tableOf_written,
      Dict.sortOn_mapValues, Dict.sortOn_sortOn]
  rw [workflowToDocument, workflowToDocument,
    show w.normalize.states = w.states.map State.normalize from rfl, hstates, hsorted, List.map_map]
  have htransitions : (Dict.sortOn toLex w.transitions).map
      ((fun kv => transitionEntry kv.2) ∘ fun kv => (kv.1, kv.2.normalize))
        = (Dict.sortOn toLex w.transitions).map fun kv => transitionEntry kv.2 :=
    List.map_congr_left fun kv hkv =>
      transitionEntry_normalize (hw.transitions kv (Dict.mem_sortOn.1 hkv))
  rw [htransitions]

/-! ## Written entries parse -/

theorem wf_extractMeta {members : Dict PyStr Json} {reserved : List PyStr}
    (hwf : (Json.dict members).Wf) : (Json.dict (extractMeta members reserved)).Wf := by
  rw [Json.wf_dict] at hwf ⊢
  exact ⟨Dict.nodup_keys_filter _ hwf.1, fun kv hkv => hwf.2 kv (List.mem_filter.1 hkv).1⟩

theorem wf_of_stateEntry {e : Json} {s : State} (h : StateEntry e s) (hwf : e.Wf) :
    (Json.dict s.metadata).Wf := by
  cases h with
  | shorthand _ _ hm => simp [hm]
  | object members _ _ _ _ hm => exact hm ▸ wf_extractMeta hwf

theorem wf_of_transitionEntry {e : Json} {t : Transition} (h : TransitionEntry e t) (hwf : e.Wf) :
    (Json.dict t.metadata).Wf := by
  cases h with
  | object members _ _ _ _ _ hm => exact hm ▸ wf_extractMeta hwf

theorem get?_head_append_sorted {head : Dict PyStr Json} {metadata : Metadata} {k : PyStr}
    (hnd : (Dict.keys metadata).Nodup) (hk : k ∉ Dict.keys head) :
    Dict.get? (head ++ Dict.sortOn id metadata) k = Dict.get? metadata k := by
  rw [Dict.get?_append, Dict.get?_eq_none_iff.2 hk, Option.none_or]
  exact (Dict.get?_perm hnd (Dict.sortOn_perm id metadata).symm k).symm

theorem extractMeta_head_append {head : Dict PyStr Json} {metadata : Metadata}
    {reserved : List PyStr} (hhead : ∀ k ∈ Dict.keys head, k ∈ reserved)
    (hmeta : Unreserved reserved metadata) :
    extractMeta (head ++ metadata) reserved = metadata := by
  rw [extractMeta, List.filter_append, List.filter_eq_nil_iff.2, List.nil_append,
    List.filter_eq_self.2]
  · intro kv hkv
    exact decide_eq_true fun hin => hmeta kv.1 hin (Dict.mem_keys_of_mem hkv)
  · intro kv hkv
    simpa using hhead kv.1 (Dict.mem_keys_of_mem hkv)

/-- A state without a bad limit is written as an entry that reads back as its normal form. -/
theorem stateEntry_written {s : State} (hnd : (Dict.keys s.metadata).Nodup)
    (hlimit : ∀ v, Dict.get? s.metadata wipLimitMetaKey = some v → ∃ n : Nat, v = .int n) :
    StateEntry (stateEntry s) s.normalize := by
  rw [stateEntry_eq hnd]
  by_cases hs : s.initial = false ∧ s.metadata = []
  · rw [if_pos hs]
    exact .shorthand s.normalize hs.1 (Dict.sortOn_eq_nil_iff.2 hs.2)
  · rw [if_neg hs]
    have hinitial : (Dict.get? (stateHead s ++ Dict.sortOn id s.metadata) (py "initial")).getD
        (.bool false) = .bool s.initial := by
      cases hi : s.initial with
      | true =>
        rw [stateHead, if_pos hi]
        rfl
      | false =>
        -- no `initial` member is written, and metadata cannot supply one
        have hhead : py "initial" ∉ Dict.keys (stateHead s) := by
          rw [stateHead, if_neg (by simp [hi])]
          show py "initial" ∉ [py "name"]
          decide
        have hmeta : py "initial" ∉ Dict.keys s.metadata := s.unreserved _ (by decide)
        rw [get?_head_append_sorted hnd hhead, Dict.get?_eq_none_iff.2 hmeta]
        rfl
    have hwip : wipLimitMetaKey ∉ Dict.keys (stateHead s) :=
      fun hin => absurd (keys_stateHead_subset hin) (by decide)
    refine .object _ s.normalize rfl hinitial ?_ ?_
    · rwa [get?_head_append_sorted hnd hwip]
    · exact (extractMeta_head_append (fun _ => keys_stateHead_subset)
        (unreserved_sortOn s.unreserved)).symm

/-- A transition without bad roles is written as an entry that reads back as its normal form. -/
theorem transitionEntry_written {t : Transition} (hnd : (Dict.keys t.metadata).Nodup)
    (hroles : ∀ v, Dict.get? t.metadata rolesMetaKey = some v → ∃ roles, v = .list roles
      ∧ roles ≠ [] ∧ ∀ r ∈ roles, ∃ role, r = .str role ∧ ¬ Blank role) :
    TransitionEntry (transitionEntry t) t.normalize := by
  rw [transitionEntry_eq hnd]
  have hkeys : ∀ k ∈ Dict.keys (transitionHead t), k ∈ reservedTransitionFields := fun _ hk => hk
  refine .object _ t.normalize rfl rfl rfl ?_ ?_
  · rwa [get?_head_append_sorted hnd fun hin => absurd (hkeys _ hin) (by decide)]
  · exact (extractMeta_head_append hkeys (unreserved_sortOn t.unreserved)).symm

/-- The limit of a state that was read is a count. -/
theorem limit_of_stateEntry {e : Json} {s : State} (h : StateEntry e s) :
    ∀ v, Dict.get? s.metadata wipLimitMetaKey = some v → ∃ n : Nat, v = .int n := by
  cases h with
  | shorthand _ _ hm => simp [hm]
  | object members _ _ _ hlimit hm =>
    rw [hm, get?_extractMeta (by decide)]
    exact hlimit

theorem roles_of_transitionEntry {e : Json} {t : Transition} (h : TransitionEntry e t) :
    ∀ v, Dict.get? t.metadata rolesMetaKey = some v → ∃ roles, v = .list roles
      ∧ roles ≠ [] ∧ ∀ r ∈ roles, ∃ role, r = .str role ∧ ¬ Blank role := by
  cases h with
  | object members _ _ _ _ hroles hm =>
    rw [hm, get?_extractMeta (by decide)]
    exact hroles

/-! ## Properties of the strings and numbers of a value -/

/-- Every string and key of the value satisfies `p`, every float `q`. -/
def Screens (p : PyStr → Prop) (q : BitVec 64 → Prop) (d : Json) : Prop :=
  (∀ s ∈ d.strings, p s) ∧ ∀ bits ∈ d.floats, q bits

section Screens

variable {p : PyStr → Prop} {q : BitVec 64 → Prop}

@[simp] theorem screens_str {s : PyStr} : Screens p q (.str s) ↔ p s := by
  simp [Screens, Json.strings, Json.floats]

@[simp] theorem screens_bool {b : Bool} : Screens p q (.bool b) := by
  simp [Screens, Json.strings, Json.floats]

@[simp] theorem screens_list {xs : List Json} :
    Screens p q (.list xs) ↔ ∀ x ∈ xs, Screens p q x := by
  simp only [Screens, Json.strings, Json.floats, Json.mem_listStrings, Json.mem_listFloats]
  constructor
  · exact fun h x hx => ⟨fun s hs => h.1 s ⟨x, hx, hs⟩, fun bits hb => h.2 bits ⟨x, hx, hb⟩⟩
  · intro h
    constructor
    · rintro s ⟨x, hx, hs⟩
      exact (h x hx).1 s hs
    · rintro bits ⟨x, hx, hb⟩
      exact (h x hx).2 bits hb

@[simp] theorem screens_dict {kvs : List (PyStr × Json)} :
    Screens p q (.dict kvs) ↔ ∀ kv ∈ kvs, p kv.1 ∧ Screens p q kv.2 := by
  simp only [Screens, Json.strings, Json.floats, Json.mem_itemStrings, Json.mem_itemFloats]
  constructor
  · exact fun h kv hkv => ⟨h.1 kv.1 ⟨kv, hkv, .inl rfl⟩, fun s hs => h.1 s ⟨kv, hkv, .inr hs⟩,
      fun bits hb => h.2 bits ⟨kv, hkv, hb⟩⟩
  · intro h
    constructor
    · rintro s ⟨kv, hkv, rfl | hs⟩
      · exact (h kv hkv).1
      · exact (h kv hkv).2.1 s hs
    · rintro bits ⟨kv, hkv, hb⟩
      exact (h kv hkv).2.2 bits hb

/-- An object, member by member: the reserved ones, and the rest. -/
theorem screens_members {members : Dict PyStr Json} {reserved : List PyStr}
    (hnd : (Dict.keys members).Nodup) (hreserved : ∀ k ∈ reserved, p k) :
    Screens p q (.dict members) ↔
      (∀ k ∈ reserved, ∀ v, Dict.get? members k = some v → Screens p q v)
        ∧ Screens p q (.dict (extractMeta members reserved)) := by
  simp only [screens_dict]
  constructor
  · intro h
    exact ⟨fun k _ v hget => (h (k, v) (Dict.mem_of_get? hget)).2,
      fun kv hkv => h kv (List.mem_filter.1 hkv).1⟩
  · rintro ⟨hheads, hmeta⟩ ⟨k, v⟩ hkv
    by_cases hk : k ∈ reserved
    · exact ⟨hreserved k hk, hheads k hk v ((Dict.get?_eq_some_iff hnd).2 hkv)⟩
    · exact hmeta (k, v) (List.mem_filter.2 ⟨hkv, by simpa using hk⟩)

/-- Members in front of sorted metadata. -/
theorem screens_head_append {head : Dict PyStr Json} {metadata : Metadata} :
    Screens p q (.dict (head ++ Dict.sortOn id metadata)) ↔
      Screens p q (.dict head) ∧ Screens p q (.dict metadata) := by
  simp only [screens_dict, List.mem_append, Dict.mem_sortOn]
  exact ⟨fun h => ⟨fun kv hkv => h kv (.inl hkv), fun kv hkv => h kv (.inr hkv)⟩,
    fun h kv hkv => hkv.elim (h.1 kv) (h.2 kv)⟩

/-! ## Entries -/

/-- An entry of `states` and the entry written for it hold the same. -/
theorem screens_stateEntry (hname : p (py "name")) (hinitial : p (py "initial")) {e : Json}
    {s : State} (h : StateEntry e s) (hwf : e.Wf) (hnd : (Dict.keys s.metadata).Nodup) :
    Screens p q (stateEntry s) ↔ Screens p q e := by
  have hwritten : Screens p q (stateEntry s) ↔ p s.name ∧ Screens p q (.dict s.metadata) := by
    rw [stateEntry_eq hnd]
    split
    next hplain => simp [hplain.2]
    next =>
      rw [screens_head_append]
      unfold stateHead
      split <;> simp [hname, hinitial]
  rw [hwritten]
  cases h with
  | shorthand _ _ hm => simp [hm]
  | object members _ hget hinit _ hm =>
    have hkeys := (Json.wf_dict.1 hwf).1
    have hreserved : ∀ k ∈ reservedStateFields, p k := by
      simp [reservedStateFields, hname, hinitial]
    rw [screens_members hkeys hreserved, ← hm]
    refine and_congr_left fun _ => ?_
    simp only [reservedStateFields, List.mem_cons, List.not_mem_nil, or_false, forall_eq_or_imp,
      forall_eq, hget, Option.some.injEq, forall_eq', screens_str]
    refine ⟨fun h => ⟨h, fun v hv => ?_⟩, fun h => h.1⟩
    rw [hv] at hinit
    obtain rfl : v = .bool s.initial := hinit
    exact screens_bool

theorem screens_transitionEntry (hname : p (py "name")) (hfrom : p (py "from"))
    (hto : p (py "to")) {e : Json} {t : Transition} (h : TransitionEntry e t) (hwf : e.Wf)
    (hnd : (Dict.keys t.metadata).Nodup) :
    Screens p q (transitionEntry t) ↔ Screens p q e := by
  rw [transitionEntry_eq hnd, screens_head_append]
  cases h with
  | object members _ hgetName hgetFrom hgetTo _ hm =>
    have hkeys := (Json.wf_dict.1 hwf).1
    have hreserved : ∀ k ∈ reservedTransitionFields, p k := by
      simp [reservedTransitionFields, hname, hfrom, hto]
    rw [screens_members hkeys hreserved, ← hm]
    refine and_congr_left fun _ => ?_
    simp [transitionHead, reservedTransitionFields, hname, hfrom, hto, hgetName, hgetFrom, hgetTo]

end Screens

/-! ## The written document holds no U+0000 -/

theorem nulFree_of_get? {members : Dict PyStr Json} {k : PyStr} {v : Json}
    (h : (Json.dict members).NulFree) (hget : Dict.get? members k = some v) : v.NulFree :=
  (Json.nulFree_dict.1 h (k, v) (Dict.mem_of_get? hget)).2

theorem nulFree_iff_screens {d : Json} :
    d.NulFree ↔ Screens (fun s => (0 : CodePoint) ∉ s) (fun _ => True) d := by
  simp [Json.NulFree, Screens]

theorem nulFree_stateEntry {e : Json} {s : State} (h : StateEntry e s) (hnul : e.NulFree)
    (hwf : e.Wf) (hnd : (Dict.keys s.metadata).Nodup) : (stateEntry s).NulFree := by
  rw [nulFree_iff_screens] at hnul ⊢
  exact (screens_stateEntry (by decide) (by decide) h hwf hnd).2 hnul

theorem nulFree_transitionEntry {e : Json} {t : Transition} (h : TransitionEntry e t)
    (hnul : e.NulFree) (hwf : e.Wf) (hnd : (Dict.keys t.metadata).Nodup) :
    (transitionEntry t).NulFree := by
  rw [nulFree_iff_screens] at hnul ⊢
  exact (screens_transitionEntry (by decide) (by decide) (by decide) h hwf hnd).2 hnul

/-! ## The round trip -/

/-- The document with those two lists. -/
def document (states transitions : List Json) : Json :=
  .dict [(py "states", .list states), (py "transitions", .list transitions)]

theorem nulFree_document {states transitions : List Json} (hs : ∀ e ∈ states, e.NulFree)
    (ht : ∀ e ∈ transitions, e.NulFree) : (document states transitions).NulFree := by
  have hkeys : (0 : CodePoint) ∉ py "states" ∧ (0 : CodePoint) ∉ py "transitions" := by decide
  simpa [document, hkeys] using ⟨hs, ht⟩

theorem lists_document_iff {rawStates rawTransitions : List Json} {states : List State}
    {ts : List Transition} :
    Lists (document rawStates rawTransitions) states ts ↔
      List.Forall₂ StateEntry rawStates states
      ∧ List.Forall₂ TransitionEntry rawTransitions ts := by
  constructor
  · rintro ⟨members, _, _, heq, -, hs, ht, hreads, hreadt⟩
    obtain rfl := Json.dict.inj heq
    obtain rfl := Json.list.inj (Option.some.inj hs)
    obtain rfl := Json.list.inj (Option.some.inj ht)
    exact ⟨hreads, hreadt⟩
  · rintro ⟨hs, ht⟩
    exact ⟨_, rawStates, rawTransitions, rfl, by simp [Dict.keys], rfl, rfl, hs, ht⟩

theorem forall₂_mem_right {α β : Type} {r : α → β → Prop} {xs : List α} {ys : List β}
    (h : List.Forall₂ r xs ys) : ∀ y ∈ ys, ∃ x ∈ xs, r x y := by
  induction h with
  | nil => simp
  | cons hxy _ ih =>
    intro y hy
    rcases List.mem_cons.1 hy with rfl | hy
    · exact ⟨_, List.mem_cons_self, hxy⟩
    · obtain ⟨x, hx, hr⟩ := ih y hy
      exact ⟨x, List.mem_cons_of_mem _ hx, hr⟩

section Accepted

variable {d : Json} {states : List State} {ts : List Transition}

/-- Every declared state has its entry in the document, well-formed and without U+0000. -/
theorem Declares.stateEntry_of_mem (h : Declares d states ts) (hwf : d.Wf) {s : State}
    (hs : s ∈ states) : ∃ e, StateEntry e s ∧ e.NulFree ∧ e.Wf := by
  obtain ⟨members, rawStates, rawTransitions, rfl, -, hget, -, hread, -⟩ := h.document
  obtain ⟨e, he, hentry⟩ := forall₂_mem_right hread s hs
  have hlist := (Json.wf_dict.1 hwf).2 _ (Dict.mem_of_get? hget)
  exact ⟨e, hentry, Json.nulFree_list.1 (nulFree_of_get? h.nulFree hget) e he,
    Json.wf_list.1 hlist e he⟩

theorem Declares.transitionEntry_of_mem (h : Declares d states ts) (hwf : d.Wf) {t : Transition}
    (ht : t ∈ ts) : ∃ e, TransitionEntry e t ∧ e.NulFree ∧ e.Wf := by
  obtain ⟨members, rawStates, rawTransitions, rfl, -, -, hget, -, hread⟩ := h.document
  obtain ⟨e, he, hentry⟩ := forall₂_mem_right hread t ht
  have hlist := (Json.wf_dict.1 hwf).2 _ (Dict.mem_of_get? hget)
  exact ⟨e, hentry, Json.nulFree_list.1 (nulFree_of_get? h.nulFree hget) e he,
    Json.wf_list.1 hlist e he⟩

end Accepted

theorem consistent_of_workflow {w : Workflow} (hreach : ∀ name ∈ w.stateNames, w.Reachable name) :
    Consistent w.states (w.transitions.map Prod.snd) where
  nonempty := w.nonempty
  names_nodup := w.names_nodup
  pairs_nodup := by
    rw [← keys_tableOf, w.tableOf_transitions]
    exact w.keys_nodup
  known t ht := by
    obtain ⟨kv, hkv, rfl⟩ := List.mem_map.1 ht
    have hknown := w.known kv hkv
    rwa [w.filed kv hkv] at hknown
  reachable s hs :=
    (reachable_iff w.tableOf_transitions.symm).1 (hreach _ (List.mem_map_of_mem hs))

/-- What the parser makes sure of and the constructor of a workflow does not. -/
structure Workflow.Documentable (w : Workflow) : Prop where
  states_wf : ∀ s ∈ w.states, (Json.dict s.metadata).Wf
  transitions_wf : ∀ kv ∈ w.transitions, (Json.dict kv.2.metadata).Wf
  limits : ∀ s ∈ w.states, ∀ v, Dict.get? s.metadata wipLimitMetaKey = some v →
    ∃ n : Nat, v = .int n
  roles : ∀ kv ∈ w.transitions, ∀ v, Dict.get? kv.2.metadata rolesMetaKey = some v →
    ∃ roles, v = .list roles ∧ roles ≠ [] ∧ ∀ r ∈ roles, ∃ role, r = .str role ∧ ¬ Blank role
  nulFree : (workflowToDocument w).NulFree
  reachable : ∀ name ∈ w.stateNames, w.Reachable name

namespace Workflow.Documentable

variable {w : Workflow}

theorem distinctMeta (h : w.Documentable) : w.DistinctMeta :=
  ⟨fun s hs => (Json.wf_dict.1 (h.states_wf s hs)).1,
    fun kv hkv => (Json.wf_dict.1 (h.transitions_wf kv hkv)).1⟩

theorem wf_head_append {head : Dict PyStr Json} {reserved : List PyStr} {metadata : Metadata}
    (hhead : ∀ k ∈ Dict.keys head, k ∈ reserved) (hwf : (Json.dict head).Wf)
    (hmeta : Unreserved reserved metadata) (hmwf : (Json.dict metadata).Wf) :
    (Json.dict (head ++ Dict.sortOn id metadata)).Wf := by
  rw [Json.wf_dict] at hwf hmwf ⊢
  refine ⟨nodup_keys_append_sorted hhead hwf.1 hmeta hmwf.1, fun kv hkv => ?_⟩
  rcases List.mem_append.1 hkv with h | h
  · exact hwf.2 kv h
  · exact hmwf.2 kv (Dict.mem_sortOn.1 h)

theorem wf_stateEntry {s : State} (hwf : (Json.dict s.metadata).Wf) : (stateEntry s).Wf := by
  rw [stateEntry_eq (Json.wf_dict.1 hwf).1]
  split
  · trivial
  · refine wf_head_append (fun _ => keys_stateHead_subset) ?_ s.unreserved hwf
    refine Json.wf_dict.2 ⟨nodup_keys_stateHead s, ?_⟩
    unfold stateHead
    split <;> simp

theorem wf_transitionEntry {t : Transition} (hwf : (Json.dict t.metadata).Wf) :
    (transitionEntry t).Wf := by
  rw [transitionEntry_eq (Json.wf_dict.1 hwf).1]
  refine wf_head_append (fun _ hk => hk) ?_ t.unreserved hwf
  exact Json.wf_dict.2 ⟨nodup_keys_transitionHead t, by simp [transitionHead]⟩

/-- The written document has distinct keys throughout. -/
theorem wf_document (h : w.Documentable) : (workflowToDocument w).Wf := by
  have hkeys : (Dict.keys [(py "states", Json.null), (py "transitions", Json.null)]).Nodup := by
    show [py "states", py "transitions"].Nodup
    decide
  refine Json.wf_dict.2 ⟨hkeys, ?_⟩
  intro kv hkv
  rcases List.mem_cons.1 hkv with rfl | hkv
  · rw [Json.wf_list, List.forall_mem_map]
    exact fun s hs => wf_stateEntry (h.states_wf s hs)
  · obtain rfl := List.mem_singleton.1 hkv
    rw [Json.wf_list, List.forall_mem_map]
    exact fun kv hkv => wf_transitionEntry (h.transitions_wf kv (Dict.mem_sortOn.1 hkv))

end Workflow.Documentable

variable [Unicode]

/-- **A workflow the parser accepts can be written.** -/
theorem documentable_of_eq_ok {d : Json} {w : Workflow} (hwf : d.Wf)
    (h : workflowFromDocument d = .ok w) : w.Documentable := by
  obtain ⟨ts, hdecl, htable⟩ := workflowFromDocument_eq_ok_iff.1 h
  -- Each state and each transition comes from an entry of the document, whose data is what the
  -- document may hold.
  have hentry : ∀ s ∈ w.states, ∃ e, StateEntry e s ∧ e.NulFree ∧ e.Wf :=
    fun s hs => hdecl.stateEntry_of_mem hwf hs
  have hentryt : ∀ kv ∈ w.transitions, ∃ e, TransitionEntry e kv.2 ∧ e.NulFree ∧ e.Wf := by
    intro kv hkv
    rw [htable] at hkv
    obtain ⟨t, ht, rfl⟩ := List.mem_map.1 hkv
    exact hdecl.transitionEntry_of_mem hwf ht
  have hstates : ∀ s ∈ w.states, (Json.dict s.metadata).Wf := by
    intro s hs
    obtain ⟨e, he, -, hwfe⟩ := hentry s hs
    exact wf_of_stateEntry he hwfe
  have htransitions : ∀ kv ∈ w.transitions, (Json.dict kv.2.metadata).Wf := by
    intro kv hkv
    obtain ⟨e, he, -, hwfe⟩ := hentryt kv hkv
    exact wf_of_transitionEntry he hwfe
  refine ⟨hstates, htransitions, fun s hs => ?_, fun kv hkv => ?_, nulFree_document ?_ ?_,
    fun name hname => ?_⟩
  · obtain ⟨e, he, -⟩ := hentry s hs
    exact limit_of_stateEntry he
  · obtain ⟨e, he, -⟩ := hentryt kv hkv
    exact roles_of_transitionEntry he
  · rw [List.forall_mem_map]
    intro s hs
    obtain ⟨e, he, hnul, hwf⟩ := hentry s hs
    exact nulFree_stateEntry he hnul hwf (Json.wf_dict.1 (hstates s hs)).1
  · rw [List.forall_mem_map]
    intro kv hkv
    have hkv := Dict.mem_sortOn.1 hkv
    obtain ⟨e, he, hnul, hwf⟩ := hentryt kv hkv
    exact nulFree_transitionEntry he hnul hwf (Json.wf_dict.1 (htransitions kv hkv)).1
  · obtain ⟨s, hs, rfl⟩ := List.mem_map.1 hname
    exact (reachable_iff htable).2 (hdecl.reachable s hs)

/-- **The document of such a workflow is accepted**, and reads back as its normal form. -/
theorem workflowFromDocument_workflowToDocument {w : Workflow} (h : w.Documentable) :
    workflowFromDocument (workflowToDocument w) = .ok w.normalize := by
  have hlike := w.likewise_normalize h.distinctMeta
  have hstates : List.Forall₂ StateEntry (w.states.map stateEntry) w.normalize.states := by
    rw [show w.normalize.states = w.states.map State.normalize from rfl,
      List.forall₂_map_left_iff, List.forall₂_map_right_iff]
    exact List.forall₂_same.2 fun s hs =>
      stateEntry_written (h.distinctMeta.states s hs) (h.limits s hs)
  have htransitions : List.Forall₂ TransitionEntry
      ((Dict.sortOn toLex w.transitions).map fun kv => transitionEntry kv.2)
      (writtenTransitions w.transitions) := by
    rw [writtenTransitions, List.forall₂_map_left_iff, List.forall₂_map_right_iff]
    refine List.forall₂_same.2 fun kv hkv => ?_
    have hkv := Dict.mem_sortOn.1 hkv
    exact transitionEntry_written (h.distinctMeta.transitions kv hkv) (h.roles kv hkv)
  exact workflowFromDocument_eq_ok_iff.2 ⟨_, ⟨(consistent_of_workflow h.reachable).transport hlike,
    lists_document_iff.2 ⟨hstates, htransitions⟩, h.nulFree⟩, rfl⟩

end TaskService.Workflows
