import TaskService.Workflows.RoundTrip

/-!
# Spellings of one definition

Two documents can spell one definition in different ways: the order of the transitions, the order
of keys inside objects, shorthand or object form for a state without properties, an explicit
`"initial": false`. `Variant` is one such change, and a chain of them leads from one spelling to
any other.

One change keeps acceptance and the encoding in both directions (`Variant.spells`), and the relation
it keeps is transitive, so a chain keeps them too.
-/

namespace TaskService.Workflows

/-- Two spellings of one entry of `states`. -/
inductive Respelled : Json → Json → Prop where
  | shorthand (name : PyStr) : Respelled (.str name) (.dict [(py "name", .str name)])
  | explicitInitial (members : Dict PyStr Json) (h : py "initial" ∉ Dict.keys members) :
      Respelled (.dict members) (.dict (members ++ [(py "initial", .bool false)]))

/-- One change of spelling. -/
inductive Variant : Json → Json → Prop where
  | keyOrder {d d' : Json} (h : Json.Same d d') : Variant d d'
  | transitionOrder {states transitions transitions' : List Json}
      (h : transitions.Perm transitions') :
      Variant (document states transitions) (document states transitions')
  | stateEntry {before after transitions : List Json} {e e' : Json} (h : Respelled e e') :
      Variant (document (before ++ e :: after) transitions)
        (document (before ++ e' :: after) transitions)

/-! ## Respelled entries -/

namespace Respelled

variable {e e' : Json} (h : Respelled e e')

include h

theorem stateEntry_iff {s : State} : StateEntry e s ↔ StateEntry e' s := by
  cases h with
  | shorthand name =>
    have hname : Dict.get? [(py "name", Json.str name)] (py "name") = some (.str name) := rfl
    -- a name alone has no other field, so the defaults apply
    have hno : ∀ k, k ≠ py "name" → Dict.get? [(py "name", Json.str name)] k = none := by
      intro k hk
      rw [Dict.get?_cons, if_neg hk, Dict.get?_nil]
    constructor
    · intro hentry
      cases hentry with
      | shorthand _ hi hm =>
        refine .object _ s hname ?_ ?_ hm
        · rw [hno _ (by decide), hi]
          rfl
        · intro v hv
          rw [hno _ (by decide)] at hv
          cases hv
    · intro hentry
      cases hentry with
      | object _ _ hn hinitial _ hm =>
        obtain rfl : name = s.name := by simpa using hname.symm.trans hn
        rw [hno _ (by decide)] at hinitial
        exact .shorthand s (Json.bool.inj hinitial).symm hm
  | explicitInitial members hkey =>
    have hget : ∀ k, k ≠ py "initial" →
        Dict.get? (members ++ [(py "initial", .bool false)]) k = Dict.get? members k := by
      intro k hk
      rw [Dict.get?_append, Dict.get?_cons, if_neg hk, Dict.get?_nil, Option.or_none]
    have hinitial : Dict.get? (members ++ [(py "initial", .bool false)]) (py "initial")
        = some (.bool false) := by
      rw [Dict.get?_append, Dict.get?_eq_none_iff.2 hkey]
      rfl
    -- `initial` is reserved: it is no metadata
    have hmeta : extractMeta (members ++ [(py "initial", .bool false)]) reservedStateFields
        = extractMeta members reservedStateFields := by
      rw [extractMeta, List.filter_append]
      exact List.append_nil _
    constructor
    · intro hentry
      cases hentry with
      | object _ _ hn hi hl hm =>
        rw [Dict.get?_eq_none_iff.2 hkey] at hi
        exact .object _ s (by rwa [hget _ (by decide)]) (by rwa [hinitial])
          (by rwa [hget _ (by decide)]) (by rwa [hmeta])
    · intro hentry
      cases hentry with
      | object _ _ hn hi hl hm =>
        rw [hget _ (by decide)] at hn hl
        rw [hinitial] at hi
        exact .object _ s hn (by rwa [Dict.get?_eq_none_iff.2 hkey]) hl (by rwa [hmeta] at hm)

theorem nulFree_iff : e.NulFree ↔ e'.NulFree := by
  have hkeys : (0 : CodePoint) ∉ py "name" ∧ (0 : CodePoint) ∉ py "initial" := by decide
  cases h with
  | shorthand name => simp [hkeys]
  | explicitInitial members => simp [or_imp, forall_and, hkeys]

theorem wf_iff : e.Wf ↔ e'.Wf := by
  cases h with
  | shorthand name => simp
  | explicitInitial members hkey =>
    have hnd : (Dict.keys (members ++ [(py "initial", Json.bool false)])).Nodup
        ↔ (Dict.keys members).Nodup := by
      rw [Dict.keys_append, List.nodup_append_comm]
      exact List.nodup_cons.trans (and_iff_right hkey)
    have hvalues : (∀ kv ∈ members ++ [(py "initial", Json.bool false)], kv.2.Wf)
        ↔ ∀ kv ∈ members, kv.2.Wf := by
      simp [or_imp, forall_and]
    rw [Json.wf_dict, Json.wf_dict, hnd, hvalues]

end Respelled

/-! ## Equal entries -/

theorem get?_of_map_canon {members members' : Dict PyStr Json} {k : PyStr} {v : Json}
    (h : (Dict.get? members k).map Json.canon = (Dict.get? members' k).map Json.canon)
    (hget : Dict.get? members k = some v) : ∃ v', Dict.get? members' k = some v' ∧ v.Same v' := by
  rw [hget] at h
  cases hv' : Dict.get? members' k with
  | none => rw [hv'] at h; cases h
  | some v' =>
    rw [hv'] at h
    exact ⟨v', rfl, Option.some.inj h⟩

theorem same_extractMeta {members members' : Dict PyStr Json} {reserved : List PyStr}
    (hnd : (Dict.keys members).Nodup)
    (h : (Json.canonItems members).Perm (Json.canonItems members')) :
    Json.Same (.dict (extractMeta members reserved)) (.dict (extractMeta members' reserved)) := by
  refine Json.same_dict_of_perm (Dict.nodup_keys_filter _ hnd) ?_
  have hfilter : ∀ m : Dict PyStr Json, Json.canonItems (extractMeta m reserved)
      = (Json.canonItems m).filter fun kv => kv.1 ∉ reserved := by
    intro m
    rw [Json.canonItems_eq, Json.canonItems_eq, extractMeta, List.filter_map]
    rfl
  rw [hfilter, hfilter]
  exact h.filter _

/-- Equal entries are read as equal states. -/
theorem stateEntry_of_same {e e' : Json} {s : State} (hsame : e.Same e') (hwf : e.Wf)
    (h : StateEntry e s) : ∃ s', StateEntry e' s' ∧ s.Eqv s' := by
  cases h with
  | shorthand _ hi hm =>
    rw [Json.same_str.1 hsame]
    exact ⟨s, .shorthand s hi hm, rfl, rfl, rfl⟩
  | object members _ hname hinitial hlimit hm =>
    obtain ⟨members', rfl, hperm⟩ := hsame.dict_right
    have hnd := (Json.wf_dict.1 hwf).1
    have hget := Json.get?_of_perm_canonItems hnd hperm
    obtain ⟨v, hname', hv⟩ := get?_of_map_canon (hget _) hname
    obtain rfl := Json.same_str.1 hv
    -- the fields the parser reads are equal, member by member
    have hinitial' : (Dict.get? members' (py "initial")).getD (.bool false) = .bool s.initial := by
      cases hi : Dict.get? members (py "initial") with
      | none =>
        have hnone := hget (py "initial")
        rw [hi, Option.map_none, eq_comm, Option.map_eq_none_iff] at hnone
        rwa [hnone, ← hi]
      | some b =>
        obtain ⟨b', hb', hsame'⟩ := get?_of_map_canon (hget _) hi
        rw [hi] at hinitial
        obtain rfl : b = .bool s.initial := hinitial
        rw [hb', Json.same_bool.1 hsame']
        rfl
    have hlimit' : ∀ v, Dict.get? members' wipLimitMetaKey = some v → ∃ n : Nat, v = .int n := by
      intro v hv'
      obtain ⟨v', hv'', hsame'⟩ := get?_of_map_canon (hget _).symm hv'
      obtain ⟨n, rfl⟩ := hlimit v' hv''
      exact ⟨n, Json.same_int.1 hsame'.symm⟩
    have hmeta : Unreserved reservedStateFields (extractMeta members' reservedStateFields) :=
      extractMeta_unreserved _ _
    refine ⟨{ s with metadata := extractMeta members' reservedStateFields, unreserved := hmeta },
      .object members' _ hname' hinitial' hlimit' rfl, rfl, rfl, ?_⟩
    rw [hm]
    exact same_extractMeta hnd hperm

/-- Equal entries are read as equal transitions. -/
theorem transitionEntry_of_same {e e' : Json} {t : Transition} (hsame : e.Same e') (hwf : e.Wf)
    (h : TransitionEntry e t) : ∃ t', TransitionEntry e' t' ∧ t.Eqv t' := by
  cases h with
  | object members _ hname hfrom hto hroles hm =>
    obtain ⟨members', rfl, hperm⟩ := hsame.dict_right
    have hnd := (Json.wf_dict.1 hwf).1
    have hget := Json.get?_of_perm_canonItems hnd hperm
    have hstr : ∀ {k : PyStr} {s : PyStr}, Dict.get? members k = some (.str s) →
        Dict.get? members' k = some (.str s) := by
      intro k s hk
      obtain ⟨v, hv, hsame'⟩ := get?_of_map_canon (hget k) hk
      rwa [Json.same_str.1 hsame'] at hv
    have hroles' : ∀ v, Dict.get? members' rolesMetaKey = some v → ∃ roles, v = .list roles
        ∧ roles ≠ [] ∧ ∀ r ∈ roles, ∃ role, r = .str role ∧ ¬ Blank role := by
      intro v hv
      obtain ⟨v', hv', hsame'⟩ := get?_of_map_canon (hget _).symm hv
      obtain ⟨roles, rfl, hne, hall⟩ := hroles v' hv'
      obtain ⟨roles', rfl, hmap⟩ := hsame'.symm.list_right
      -- strings are their own canonical form, so the lists are the same
      have hcanon : roles.map Json.canon = roles := by
        refine (List.map_congr_left fun r hr => ?_).trans (List.map_id _)
        obtain ⟨role, rfl, -⟩ := hall r hr
        rfl
      rw [hcanon] at hmap
      refine ⟨roles', rfl, by rintro rfl; exact hne hmap, fun r hr => ?_⟩
      have hmem : r.canon ∈ roles := hmap ▸ List.mem_map_of_mem hr
      obtain ⟨role, hrole, hblank⟩ := hall _ hmem
      exact ⟨role, Json.same_str.1 (show Json.canon (.str role) = r.canon from hrole.symm), hblank⟩
    have hmeta : Unreserved reservedTransitionFields
        (extractMeta members' reservedTransitionFields) := extractMeta_unreserved _ _
    refine ⟨{ t with
        metadata := extractMeta members' reservedTransitionFields, unreserved := hmeta },
      .object members' _ (hstr hname) (hstr hfrom) (hstr hto) hroles' rfl, rfl, rfl, ?_⟩
    rw [hm]
    exact same_extractMeta hnd hperm

/-! ## One change of spelling -/

theorem forall₂_transfer {α β : Type} {q : α → α → Prop} {p : β → β → Prop} {r : α → β → Prop}
    {xs xs' : List α} {ys : List β} (hq : List.Forall₂ q xs xs') (hr : List.Forall₂ r xs ys)
    (hstep : ∀ x ∈ xs, ∀ x' y, q x x' → r x y → ∃ y', r x' y' ∧ p y y') :
    ∃ ys', List.Forall₂ r xs' ys' ∧ List.Forall₂ p ys ys' := by
  induction hq generalizing ys with
  | nil =>
    obtain rfl := List.forall₂_nil_left_iff.1 hr
    exact ⟨[], .nil, .nil⟩
  | @cons x x' xs xs' hx _ ih =>
    cases hr with
    | @cons _ y _ ys hxy hrest =>
      obtain ⟨y', hy', hp⟩ := hstep x List.mem_cons_self x' y hx hxy
      obtain ⟨ys', hys', hps⟩ := ih hrest fun z hz => hstep z (List.mem_cons_of_mem _ hz)
      exact ⟨y' :: ys', .cons hy' hys', .cons hp hps⟩

theorem forall₂_replace {α β : Type} {r : α → β → Prop} {e e' : α} (h : ∀ s, r e s ↔ r e' s)
    (before after : List α) {ys : List β} :
    List.Forall₂ r (before ++ e :: after) ys ↔ List.Forall₂ r (before ++ e' :: after) ys := by
  induction before generalizing ys with
  | nil => simp [List.forall₂_cons_left_iff, h]
  | cons x before ih => simp [List.forall₂_cons_left_iff, ih]

theorem forall₂_same_of_map_canon {xs ys : List Json} (h : xs.map Json.canon = ys.map Json.canon) :
    List.Forall₂ Json.Same xs ys := by
  rwa [← List.forall₂_eq_eq_eq, List.forall₂_map_left_iff, List.forall₂_map_right_iff] at h

/-- Equal documents list likewise entries. -/
theorem lists_of_same {d d' : Json} {states : List State} {ts : List Transition}
    (hsame : d.Same d') (hwf : d.Wf) (h : Lists d states ts) :
    ∃ states' ts', Lists d' states' ts' ∧ Likewise states states' ts ts' := by
  obtain ⟨members, rawStates, rawTransitions, rfl, hkeys, hs, ht, hreads, hreadt⟩ := h
  obtain ⟨members', rfl, hperm⟩ := hsame.dict_right
  obtain ⟨hnd, hwfs⟩ := Json.wf_dict.1 hwf
  have hget := Json.get?_of_perm_canonItems hnd hperm
  obtain ⟨_, hs', hsames⟩ := get?_of_map_canon (hget _) hs
  obtain ⟨_, ht', hsamet⟩ := get?_of_map_canon (hget _) ht
  obtain ⟨rawStates', rfl, hmaps⟩ := hsames.list_right
  obtain ⟨rawTransitions', rfl, hmapt⟩ := hsamet.list_right
  have hwfrs := Json.wf_list.1 (hwfs _ (Dict.mem_of_get? hs))
  have hwfrt := Json.wf_list.1 (hwfs _ (Dict.mem_of_get? ht))
  obtain ⟨states', hreads', hstates⟩ := forall₂_transfer (forall₂_same_of_map_canon hmaps) hreads
    fun e he e' s hee hes => stateEntry_of_same hee (hwfrs e he) hes
  obtain ⟨ts', hreadt', hts⟩ := forall₂_transfer (forall₂_same_of_map_canon hmapt) hreadt
    fun e he e' t hee het => transitionEntry_of_same hee (hwfrt e he) het
  have hkeys' : ∀ k, k ∈ Dict.keys members' ↔ k = py "states" ∨ k = py "transitions" := by
    intro k
    rw [← (Json.perm_keys_of_perm_canonItems hperm).mem_iff]
    exact hkeys k
  exact ⟨states', ts', ⟨members', rawStates', rawTransitions', rfl, hkeys', hs', ht',
    hreads', hreadt'⟩, hstates, ts, .refl _, hts⟩

theorem lists_of_perm {states : List State} {ts : List Transition}
    {rawStates rawTransitions rawTransitions' : List Json}
    (hperm : rawTransitions.Perm rawTransitions')
    (h : Lists (document rawStates rawTransitions) states ts) :
    ∃ ts', Lists (document rawStates rawTransitions') states ts'
    ∧ Likewise states states ts ts' := by
  obtain ⟨hreads, hreadt⟩ := lists_document_iff.1 h
  obtain ⟨ts', hreadt', hts⟩ := List.perm_comp_forall₂ hperm.symm hreadt
  exact ⟨ts', lists_document_iff.2 ⟨hreads, hreadt'⟩, .of_perm states hts.symm⟩

theorem lists_of_respelled {states : List State} {ts : List Transition} {e e' : Json}
    {before after rawTransitions : List Json} (hentry : Respelled e e') :
    Lists (document (before ++ e :: after) rawTransitions) states ts ↔
      Lists (document (before ++ e' :: after) rawTransitions) states ts := by
  rw [lists_document_iff, lists_document_iff, forall₂_replace fun s => hentry.stateEntry_iff]

theorem document_nulFree_iff {states transitions : List Json} :
    (document states transitions).NulFree ↔
      (∀ e ∈ states, e.NulFree) ∧ ∀ e ∈ transitions, e.NulFree := by
  have hkeys : (0 : CodePoint) ∉ py "states" ∧ (0 : CodePoint) ∉ py "transitions" := by decide
  simp [document, hkeys]

theorem document_wf_iff {states transitions : List Json} :
    (document states transitions).Wf ↔ (∀ e ∈ states, e.Wf) ∧ ∀ e ∈ transitions, e.Wf := by
  have hkeys : py "states" ≠ py "transitions" := by decide
  simp [document, hkeys]

/-- The document of a board with one column. -/
theorem wf_openDocument : (document [.str (py "open")] []).Wf := by
  rw [document_wf_iff]
  simp

variable [Unicode]

/-- The document `d'` is accepted whenever `d` is, as an equal workflow. -/
def Spells (d d' : Json) : Prop :=
  d.Wf → d'.Wf ∧ ∀ w, workflowFromDocument d = .ok w →
    ∃ w', workflowFromDocument d' = .ok w' ∧ w.Eqv w'

/-- Documents that list likewise entries spell equal workflows. -/
theorem spells_of_lists {d d' : Json} (hwf : d.Wf → d'.Wf) (hnul : d.NulFree → d'.NulFree)
    (hlists : d.Wf → ∀ states ts, Lists d states ts →
      ∃ states' ts', Lists d' states' ts' ∧ Likewise states states' ts ts') : Spells d d' := by
  refine fun hd => ⟨hwf hd, fun w h => ?_⟩
  obtain ⟨ts, hdecl, htable⟩ := workflowFromDocument_eq_ok_iff.1 h
  obtain ⟨states', ts', hlists', hlike⟩ := hlists hd _ _ hdecl.document
  have hdecl' : Declares d' states' ts' :=
    ⟨hdecl.toConsistent.transport hlike, hlists', hnul hdecl.nulFree⟩
  obtain ⟨w', rfl, htable'⟩ := hdecl'.toConsistent.exists_workflow
  exact ⟨w', workflowFromDocument_eq_ok_iff.2 ⟨ts', hdecl', htable'⟩, hlike.eqv htable htable'⟩

theorem spells_of_same {d d' : Json} (h : d.Same d') : Spells d d' :=
  spells_of_lists h.wf_iff.1 h.nulFree_iff.1 fun hwf _ _ => lists_of_same h hwf

/-- **One change of spelling keeps acceptance, in both directions.** -/
theorem Variant.spells {d d' : Json} (h : Variant d d') : Spells d d' ∧ Spells d' d := by
  cases h with
  | keyOrder h => exact ⟨spells_of_same h, spells_of_same h.symm⟩
  | transitionOrder h =>
    have hperm : ∀ {states ts ts' : List Json}, ts.Perm ts' →
        Spells (document states ts) (document states ts') := by
      intro states ts ts' h
      refine spells_of_lists ?_ ?_ fun _ parsed _ hl => ⟨parsed, lists_of_perm h hl⟩
      · rw [document_wf_iff, document_wf_iff]
        exact fun hwf => ⟨hwf.1, fun e he => hwf.2 e (h.mem_iff.2 he)⟩
      · rw [document_nulFree_iff, document_nulFree_iff]
        exact fun hnul => ⟨hnul.1, fun e he => hnul.2 e (h.mem_iff.2 he)⟩
    exact ⟨hperm h, hperm h.symm⟩
  | @stateEntry before after transitions e e' h =>
    have hwf : (document (before ++ e :: after) transitions).Wf
        ↔ (document (before ++ e' :: after) transitions).Wf := by
      simp [document_wf_iff, or_imp, forall_and, h.wf_iff]
    have hnul : (document (before ++ e :: after) transitions).NulFree
        ↔ (document (before ++ e' :: after) transitions).NulFree := by
      simp [document_nulFree_iff, or_imp, forall_and, h.nulFree_iff]
    exact ⟨spells_of_lists hwf.1 hnul.1 fun _ states ts hl =>
        ⟨states, ts, (lists_of_respelled h).1 hl, .of_perm states (.refl ts)⟩,
      spells_of_lists hwf.2 hnul.2 fun _ states ts hl =>
        ⟨states, ts, (lists_of_respelled h).2 hl, .of_perm states (.refl ts)⟩⟩

/-- The document `d'` is accepted whenever `d` is, and encoded the same. -/
def SameEncoding (d d' : Json) : Prop :=
  d.Wf → d'.Wf ∧ ∀ w, workflowFromDocument d = .ok w → ∃ w', workflowFromDocument d' = .ok w'
    ∧ Json.Same (workflowToDocument w) (workflowToDocument w')

theorem Spells.sameEncoding {d d' : Json} (h : Spells d d') : SameEncoding d d' := by
  refine fun hwf => ⟨(h hwf).1, fun w hw => ?_⟩
  obtain ⟨w', hw', heqv⟩ := (h hwf).2 w hw
  exact ⟨w', hw', heqv.same_document (documentable_of_eq_ok hwf hw).distinctMeta⟩

/-- **A chain of changes keeps the encoding.** -/
theorem sameEncoding_of_variants {d d' : Json} (h : Relation.EqvGen Variant d d') :
    SameEncoding d d' ∧ SameEncoding d' d := by
  induction h with
  | rel _ _ h => exact ⟨h.spells.1.sameEncoding, h.spells.2.sameEncoding⟩
  | refl d =>
    exact ⟨fun hwf => ⟨hwf, fun w h => ⟨w, h, rfl⟩⟩, fun hwf => ⟨hwf, fun w h => ⟨w, h, rfl⟩⟩⟩
  | symm _ _ _ ih => exact ih.symm
  | trans d e f _ _ ih ih' =>
    have htrans : ∀ {a b c : Json}, SameEncoding a b → SameEncoding b c → SameEncoding a c := by
      intro a b c hab hbc hwf
      obtain ⟨hwfb, hb⟩ := hab hwf
      obtain ⟨hwfc, hc⟩ := hbc hwfb
      refine ⟨hwfc, fun w hw => ?_⟩
      obtain ⟨w', hw', hsame⟩ := hb w hw
      obtain ⟨w'', hw'', hsame'⟩ := hc w' hw'
      exact ⟨w'', hw'', hsame.trans hsame'⟩
    exact ⟨htrans ih.1 ih'.1, htrans ih'.2 ih.2⟩

end TaskService.Workflows
