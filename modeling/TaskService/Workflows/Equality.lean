import TaskService.Workflows.Grammar

/-!
# Equality of definitions

Python compares two workflows by their state lists and their transition tables: dictionaries, so
neither the order of the table nor the order of the metadata keys counts. `Workflow.Eqv` is that
equality, read off the model's lists.

`Likewise` compares what two documents declare. It is the hypothesis under which a second document
is accepted too (`Consistent.transport`), builds an equal workflow (`Likewise.eqv`), and is encoded
to the same document (`Workflow.Eqv.same_document`).
-/

namespace TaskService.Workflows

/-- Equal states: metadata compared as dictionaries. -/
structure State.Eqv (s s' : State) : Prop where
  name : s.name = s'.name
  initial : s.initial = s'.initial
  metadata : Json.Same (.dict s.metadata) (.dict s'.metadata)

structure Transition.Eqv (t t' : Transition) : Prop where
  name : t.name = t'.name
  ends : t.ends = t'.ends
  metadata : Json.Same (.dict t.metadata) (.dict t'.metadata)

/-- `Workflow.__eq__`: the same states in the same order, the same table under every pair. -/
structure Workflow.Eqv (w w' : Workflow) : Prop where
  states : List.Forall₂ State.Eqv w.states w'.states
  transitions : ∀ pair, Option.Rel Transition.Eqv
    (Dict.get? w.transitions pair) (Dict.get? w'.transitions pair)

/-- No metadata of the workflow holds a key twice. -/
structure Workflow.DistinctMeta (w : Workflow) : Prop where
  states : ∀ s ∈ w.states, (Dict.keys s.metadata).Nodup
  transitions : ∀ kv ∈ w.transitions, (Dict.keys kv.2.metadata).Nodup

/-! ## Entries -/

/-- The members every entry of `states` in object form starts with. -/
def stateHead (s : State) : Dict PyStr Json :=
  (py "name", .str s.name) :: if s.initial then [(py "initial", .bool true)] else []

def transitionHead (t : Transition) : Dict PyStr Json :=
  [(py "name", .str t.name), (py "from", .str t.fromState), (py "to", .str t.toState)]

theorem keys_stateHead_subset {s : State} {k : PyStr} (h : k ∈ Dict.keys (stateHead s)) :
    k ∈ reservedStateFields := by
  unfold stateHead at h
  split at h <;> simp_all [reservedStateFields]

theorem nodup_keys_stateHead (s : State) : (Dict.keys (stateHead s)).Nodup := by
  unfold stateHead
  split
  · show [py "name", py "initial"].Nodup
    decide
  · show [py "name"].Nodup
    decide

/-- Metadata never overwrites a core field. -/
theorem union_sorted_metadata (head : Dict PyStr Json) {reserved : List PyStr}
    {metadata : Metadata} (hhead : ∀ k ∈ Dict.keys head, k ∈ reserved)
    (hmeta : Unreserved reserved metadata) (hnd : (Dict.keys metadata).Nodup) :
    Dict.union head (Dict.sortOn id metadata) = head ++ Dict.sortOn id metadata := by
  refine Dict.union_of_disjoint (Dict.nodup_keys_sortOn.2 hnd) fun k hk hin => ?_
  exact hmeta k (hhead k hin) ((Dict.perm_keys (Dict.sortOn_perm id metadata)).mem_iff.1 hk)

theorem stateEntry_eq {s : State} (hnd : (Dict.keys s.metadata).Nodup) :
    stateEntry s = if s.initial = false ∧ s.metadata = [] then .str s.name
      else .dict (stateHead s ++ Dict.sortOn id s.metadata) := by
  rw [stateEntry, ← union_sorted_metadata _ (fun _ => keys_stateHead_subset) s.unreserved hnd]
  rfl

theorem transitionEntry_eq {t : Transition} (hnd : (Dict.keys t.metadata).Nodup) :
    transitionEntry t = .dict (transitionHead t ++ Dict.sortOn id t.metadata) := by
  rw [transitionEntry, ← union_sorted_metadata (transitionHead t) _ t.unreserved hnd]
  · rfl
  · intro k hk
    exact hk

theorem nodup_keys_append_sorted {head : Dict PyStr Json} {reserved : List PyStr}
    {metadata : Metadata} (hhead : ∀ k ∈ Dict.keys head, k ∈ reserved)
    (hnd : (Dict.keys head).Nodup) (hmeta : Unreserved reserved metadata)
    (hmnd : (Dict.keys metadata).Nodup) :
    (Dict.keys (head ++ Dict.sortOn id metadata)).Nodup := by
  rw [Dict.keys_append, List.nodup_append]
  refine ⟨hnd, Dict.nodup_keys_sortOn.2 hmnd, ?_⟩
  rintro k hk _ hin rfl
  exact hmeta k (hhead k hk) ((Dict.perm_keys (Dict.sortOn_perm id metadata)).mem_iff.1 hin)

/-- Objects that start alike and go on with equal metadata are equal. -/
theorem same_head_append {head : Dict PyStr Json} {metadata metadata' : Metadata}
    (hnd : (Dict.keys (head ++ Dict.sortOn id metadata)).Nodup)
    (h : Json.Same (.dict metadata) (.dict metadata')) :
    Json.Same (.dict (head ++ Dict.sortOn id metadata))
      (.dict (head ++ Dict.sortOn id metadata')) := by
  obtain ⟨_, heq, hperm⟩ := h.dict_right
  obtain rfl := Json.dict.inj heq
  refine Json.same_dict_of_perm hnd ?_
  have hsorted : ∀ m : Metadata, (Json.canonItems (Dict.sortOn id m)).Perm (Json.canonItems m) := by
    intro m
    rw [Json.canonItems_eq, Json.canonItems_eq]
    exact (Dict.sortOn_perm id m).map _
  have hmeta := (hsorted metadata).trans (hperm.trans (hsorted metadata').symm)
  rw [Json.canonItems_eq] at hmeta ⊢
  rw [Json.canonItems_eq] at hmeta ⊢
  rw [List.map_append, List.map_append]
  exact hmeta.append_left _

theorem same_dict_eq_nil_iff {metadata metadata' : Metadata}
    (h : Json.Same (.dict metadata) (.dict metadata')) : metadata = [] ↔ metadata' = [] := by
  obtain ⟨_, heq, hperm⟩ := h.dict_right
  obtain rfl := Json.dict.inj heq
  have := (Json.perm_keys_of_perm_canonItems hperm).length_eq
  rw [← List.length_eq_zero_iff, ← List.length_eq_zero_iff]
  simp only [Dict.keys, List.length_map] at this
  rw [this]

theorem State.Eqv.same_entry {s s' : State} (h : s.Eqv s') (hnd : (Dict.keys s.metadata).Nodup) :
    Json.Same (stateEntry s) (stateEntry s') := by
  have hnd' : (Dict.keys s'.metadata).Nodup := by
    obtain ⟨_, heq, hperm⟩ := h.metadata.dict_right
    obtain rfl := Json.dict.inj heq
    exact (Json.perm_keys_of_perm_canonItems hperm).nodup_iff.1 hnd
  have hhead : stateHead s = stateHead s' := by rw [stateHead, stateHead, h.name, h.initial]
  have hshort : (s.initial = false ∧ s.metadata = [])
      ↔ (s'.initial = false ∧ s'.metadata = []) := by
    rw [h.initial, same_dict_eq_nil_iff h.metadata]
  rw [stateEntry_eq hnd, stateEntry_eq hnd']
  by_cases hs : s.initial = false ∧ s.metadata = []
  · rw [if_pos hs, if_pos (hshort.1 hs), h.name]
  · rw [if_neg hs, if_neg (mt hshort.2 hs), ← hhead]
    exact same_head_append (nodup_keys_append_sorted (fun _ => keys_stateHead_subset)
      (nodup_keys_stateHead s) s.unreserved hnd) h.metadata

theorem nodup_keys_transitionHead (t : Transition) : (Dict.keys (transitionHead t)).Nodup := by
  show [py "name", py "from", py "to"].Nodup
  decide

theorem Transition.Eqv.same_entry {t t' : Transition} (h : t.Eqv t')
    (hnd : (Dict.keys t.metadata).Nodup) : Json.Same (transitionEntry t) (transitionEntry t') := by
  have hnd' : (Dict.keys t'.metadata).Nodup := by
    obtain ⟨_, heq, hperm⟩ := h.metadata.dict_right
    obtain rfl := Json.dict.inj heq
    exact (Json.perm_keys_of_perm_canonItems hperm).nodup_iff.1 hnd
  have hhead : transitionHead t = transitionHead t' := by
    obtain ⟨hf, ht⟩ := Prod.mk.inj h.ends
    rw [transitionHead, transitionHead, h.name, hf, ht]
  rw [transitionEntry_eq hnd, transitionEntry_eq hnd', ← hhead]
  exact same_head_append (nodup_keys_append_sorted (fun _ hk => hk) (nodup_keys_transitionHead t)
    t.unreserved hnd) h.metadata

/-! ## Documents -/

theorem same_document {states states' transitions transitions' : List Json}
    (hs : states.map Json.canon = states'.map Json.canon)
    (ht : transitions.map Json.canon = transitions'.map Json.canon) :
    Json.Same (.dict [(py "states", .list states), (py "transitions", .list transitions)])
      (.dict [(py "states", .list states'), (py "transitions", .list transitions')]) := by
  simp only [Json.Same, Json.canon_dict, Json.canonItems, Json.canon_list, hs, ht]

theorem map_eq_of_rel {α β γ : Type} {r : α → β → Prop} {x : Option α} {y : Option β} {f : α → γ}
    {g : β → γ} (h : Option.Rel r x y) (hfg : ∀ a b, x = some a → r a b → f a = g b) :
    x.map f = y.map g := by
  cases h with
  | some hab => exact congrArg some (hfg _ _ rfl hab)
  | none => rfl

/-- **Equal workflows are encoded to the same document**, up to key order inside metadata values. -/
theorem Workflow.Eqv.same_document {w w' : Workflow} (h : w.Eqv w') (hw : w.DistinctMeta) :
    Json.Same (workflowToDocument w) (workflowToDocument w') := by
  refine Workflows.same_document ?_ ?_
  · rw [List.map_map, List.map_map]
    have hstates := h.states
    have hnd := hw.states
    generalize w.states = states, w'.states = states' at hstates hnd
    induction hstates with
    | nil => rfl
    | cons hs _ ih =>
      have hhead := hs.same_entry (hnd _ List.mem_cons_self)
      rw [List.map_cons, List.map_cons, ih fun s hmem => hnd s (List.mem_cons_of_mem _ hmem)]
      exact congrArg (· :: _) hhead
  · -- both tables hold the same encoded items, and sorting forgets the order they were filed in
    let encode : StatePair × Transition → StatePair × Json :=
      fun kv => (kv.1, (transitionEntry kv.2).canon)
    have hkeys : ∀ v : Workflow, (Dict.keys (v.transitions.map encode)).Nodup := by
      intro v
      simpa [Dict.keys, encode, Function.comp_def] using v.keys_nodup
    have hget : ∀ pair, Dict.get? (w.transitions.map encode) pair
        = Dict.get? (w'.transitions.map encode) pair := by
      intro pair
      rw [Dict.get?_mapValues fun t => (transitionEntry t).canon,
        Dict.get?_mapValues fun t => (transitionEntry t).canon]
      refine map_eq_of_rel (h.transitions pair) fun t t' ht heqv => ?_
      exact heqv.same_entry (hw.transitions _ (Dict.mem_of_get? ht))
    have hperm := Dict.perm_of_get?_eq (hkeys w) (hkeys w') hget
    have hsorted := Dict.sortOn_eq_of_perm toLex.injective (hkeys w) hperm
    have hentries : ∀ v : Workflow,
        ((Dict.sortOn toLex v.transitions).map fun kv => transitionEntry kv.2).map Json.canon
          = (Dict.sortOn toLex (v.transitions.map encode)).map Prod.snd := by
      intro v
      rw [Dict.sortOn_mapValues toLex fun t => (transitionEntry t).canon, List.map_map,
        List.map_map]
      rfl
    rw [hentries, hentries, hsorted]

/-! ## Documents that declare the same workflow -/

/-- The same states in order, and the same transitions up to order. -/
structure Likewise (states states' : List State) (ts ts' : List Transition) : Prop where
  states : List.Forall₂ State.Eqv states states'
  transitions : ∃ us, ts.Perm us ∧ List.Forall₂ Transition.Eqv us ts'

theorem map_eq_of_forall₂ {α β γ : Type} {r : α → β → Prop} {f : α → γ} {g : β → γ} {xs : List α}
    {ys : List β} (h : List.Forall₂ r xs ys) (hfg : ∀ x y, r x y → f x = g y) :
    xs.map f = ys.map g := by
  induction h with
  | nil => rfl
  | cons hab _ ih => rw [List.map_cons, List.map_cons, hfg _ _ hab, ih]

namespace Likewise

variable {states states' : List State} {ts ts' : List Transition}

theorem of_perm (states : List State) (h : ts.Perm ts') : Likewise states states ts ts' :=
  ⟨List.forall₂_same.2 fun _ _ => ⟨rfl, rfl, rfl⟩,
    ts', h, List.forall₂_same.2 fun _ _ => ⟨rfl, rfl, rfl⟩⟩

theorem names (h : Likewise states states' ts ts') :
    states.map State.name = states'.map State.name :=
  map_eq_of_forall₂ h.states fun _ _ hs => hs.name

theorem ends_perm (h : Likewise states states' ts ts') :
    (ts.map Transition.ends).Perm (ts'.map Transition.ends) := by
  obtain ⟨us, hperm, hus⟩ := h.transitions
  rw [← map_eq_of_forall₂ hus fun _ _ ht => ht.ends]
  exact hperm.map _

theorem edge_iff (h : Likewise states states' ts ts') {a b : PyStr} :
    Edge ts a b ↔ Edge ts' a b := by
  have hends : ∀ us : List Transition, Edge us a b ↔ (a, b) ∈ us.map Transition.ends := by
    intro us
    simp [Edge, Transition.ends]
  rw [hends, hends, h.ends_perm.mem_iff]

theorem entry_iff (h : Likewise states states' ts ts') {e : PyStr} :
    Entry states e ↔ Entry states' e := by
  -- entries are read off the names and flags, which both lists share
  have hshape : ∀ l : List State, Entry l e ↔ (e, true) ∈ l.map (fun s => (s.name, s.initial))
      ∨ (∀ p ∈ l.map (fun s => (s.name, s.initial)), p.2 = false)
        ∧ ∃ p, (l.map fun s => (s.name, s.initial)).head? = some p ∧ p.1 = e := by
    intro l
    simp [Entry, and_comm]
  have heq : states.map (fun s => (s.name, s.initial)) = states'.map fun s => (s.name, s.initial) :=
    map_eq_of_forall₂ h.states fun _ _ hs => Prod.ext hs.name hs.initial
  rw [hshape, hshape, heq]

/-- **Workflows built from likewise declarations are equal.** -/
theorem eqv {w w' : Workflow} (h : Likewise w.states w'.states ts ts')
    (hts : w.transitions = tableOf ts) (hts' : w'.transitions = tableOf ts') : w.Eqv w' := by
  refine ⟨h.states, fun pair => ?_⟩
  obtain ⟨us, hperm, hus⟩ := h.transitions
  have hnd : (Dict.keys (tableOf ts)).Nodup := hts ▸ w.keys_nodup
  rw [hts, hts', Dict.get?_perm hnd (hperm.map _)]
  show Option.Rel _ (Dict.get? (tableOf us) pair) _
  clear h hperm hnd hts hts'
  induction hus with
  | nil => exact .none
  | @cons t t' us ts' ht _ ih =>
    show Option.Rel _ (Dict.get? ((t.ends, t) :: tableOf us) pair)
      (Dict.get? ((t'.ends, t') :: tableOf ts') pair)
    rw [Dict.get?_cons, Dict.get?_cons, ht.ends]
    split
    · exact .some ht
    · exact ih

end Likewise

/-- **Likewise parts keep the rules between states and transitions.** -/
theorem Consistent.transport {states states' : List State} {ts ts' : List Transition}
    (h : Consistent states ts) (hlike : Likewise states states' ts ts') :
    Consistent states' ts' where
  nonempty := by
    rintro rfl
    exact h.nonempty (List.forall₂_nil_right_iff.1 hlike.states)
  names_nodup := hlike.names ▸ h.names_nodup
  pairs_nodup := hlike.ends_perm.nodup_iff.1 h.pairs_nodup
  known t ht := by
    have hmem : t.ends ∈ ts.map Transition.ends :=
      hlike.ends_perm.mem_iff.2 (List.mem_map_of_mem ht)
    obtain ⟨u, hu, heq⟩ := List.mem_map.1 hmem
    obtain ⟨hf, hto⟩ := Prod.mk.inj heq
    rw [← hf, ← hto, ← hlike.names]
    exact h.known u hu
  reachable s' hs' := by
    have hname : s'.name ∈ states.map State.name := hlike.names ▸ List.mem_map_of_mem hs'
    obtain ⟨s, hs, heq⟩ := List.mem_map.1 hname
    obtain ⟨e, he, hpath⟩ := h.reachable s hs
    refine ⟨e, hlike.entry_iff.1 he, ?_⟩
    rw [← heq]
    have hedges : Edge ts ≤ Edge ts' := fun _ _ hab => hlike.edge_iff.1 hab
    exact Relation.ReflTransGen.mono hedges _ _ hpath

end TaskService.Workflows
