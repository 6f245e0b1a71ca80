import TaskService.Workflows.Engine
import TaskService.Py.Folding
import TaskService.Workflows.Seed

/-!
# The decisions of the engine

What the engine decides about a status, as a table: one line for every outcome, with the conditions
under which it is the outcome, in the order in which the source asks for them. The guards are read
off metadata, which a document may fill with anything; `Guarded` is what the document boundary
leaves of that.

* **`checkMove_eq_iff`**, **`resolveEntry_eq_iff`**: the engine decides by the table, and on nothing
  else.
* **`checkMove_of_needsOccupancy`**: a move that needs no occupancy is decided without.
-/

namespace TaskService.Workflows

/-! ## Guards -/

/-- The transition lists these roles. -/
def Requires (t : Transition) (roles : List PyStr) : Prop :=
  Dict.get? t.metadata rolesMetaKey = some (.list (roles.map .str))

/-- The state of that name declares this limit. -/
def Limits (w : Workflow) (name : PyStr) (limit : Nat) : Prop :=
  ∃ s ∈ w.states, s.name = name ∧ Dict.get? s.metadata wipLimitMetaKey = some (.int limit)

/-- A limit is a number, and a list of roles lists roles. -/
structure Guarded (w : Workflow) : Prop where
  limits : ∀ s ∈ w.states, ∀ v, Dict.get? s.metadata wipLimitMetaKey = some v →
    ∃ n : Nat, v = .int n
  roles : ∀ kv ∈ w.transitions, ∀ v, Dict.get? kv.2.metadata rolesMetaKey = some v →
    ∃ roles, v = .list (roles.map .str) ∧ roles ≠ [] ∧ ∀ role ∈ roles, ¬ Blank role

/-- The number of work items in a state. -/
def TransitionContext.count (context : TransitionContext) (name : PyStr) : Nat :=
  (Dict.get? context.occupancy name).getD 0

/-- The actor holds one of the roles, if any are listed. -/
def Permits (t : Transition) (context : TransitionContext) : Prop :=
  ∀ roles, Requires t roles → ∃ role ∈ context.roles, role ∈ roles

/-- The state is below its limit, if it has one. -/
def HasRoom (w : Workflow) (name : PyStr) (context : TransitionContext) : Prop :=
  ∀ limit, Limits w name limit → context.count name < limit

theorem exists_strings {items : List Json} (h : ∀ r ∈ items, ∃ role, r = .str role ∧ ¬ Blank role) :
    ∃ roles : List PyStr, items = roles.map .str ∧ ∀ role ∈ roles, ¬ Blank role := by
  induction items with
  | nil => exact ⟨[], rfl, by simp⟩
  | cons item items ih =>
    obtain ⟨role, rfl, hrole⟩ := h _ List.mem_cons_self
    obtain ⟨roles, rfl, hroles⟩ := ih fun r hr => h r (List.mem_cons_of_mem _ hr)
    exact ⟨role :: roles, rfl, List.forall_mem_cons.2 ⟨hrole, hroles⟩⟩

theorem exists_of_forall₂ {α β : Type} {r : α → β → Prop} {xs : List α} {ys : List β}
    (h : List.Forall₂ r xs ys) {y : β} (hy : y ∈ ys) : ∃ x ∈ xs, r x y := by
  induction h with
  | nil => cases hy
  | @cons x y' xs ys hxy _ ih =>
    rcases List.mem_cons.1 hy with rfl | hy
    · exact ⟨x, List.mem_cons_self, hxy⟩
    · obtain ⟨x', hx', hr⟩ := ih hy
      exact ⟨x', List.mem_cons_of_mem _ hx', hr⟩

/-- **The document boundary lets no other guards through.** -/
theorem guarded_of_document [Unicode] {d : Json} {w : Workflow}
    (h : workflowFromDocument d = .ok w) :
    Guarded w := by
  obtain ⟨ts, hdeclares, htable⟩ := workflowFromDocument_eq_ok_iff.1 h
  obtain ⟨members, rawStates, rawTransitions, -, -, -, -, hstates, htransitions⟩ :=
    hdeclares.document
  constructor
  · intro s hs
    obtain ⟨entry, -, hentry⟩ := exists_of_forall₂ hstates hs
    exact limit_of_stateEntry hentry
  · intro kv hkv v hv
    rw [htable] at hkv
    obtain ⟨t, ht, rfl⟩ := List.mem_map.1 hkv
    obtain ⟨entry, -, hentry⟩ := exists_of_forall₂ htransitions ht
    obtain ⟨items, rfl, hne, hitems⟩ := roles_of_transitionEntry hentry v hv
    obtain ⟨roles, rfl, hnonblank⟩ := exists_strings hitems
    exact ⟨roles, rfl, fun hnil => hne (by rw [hnil]; rfl), hnonblank⟩

/-! ## The table of moves -/

/-- **What a move is decided to be.** -/
inductive MoveDecision [Unicode] (w : Workflow) (a b : PyStr) (context : TransitionContext) :
    Except Exn Unit → Prop where
  | unknown (hb : b ∉ w.stateNames) :
      MoveDecision w a b context (.error (.app (.unknownStatus b w.stateNames)))
  | stays (hb : b ∈ w.stateNames) (hab : b = a) : MoveDecision w a b context (.ok ())
  | illegal {moves : List Transition} (hb : b ∈ w.stateNames) (hab : b ≠ a)
      (hno : (a, b) ∉ Dict.keys w.transitions) (hmoves : Engine.legalMoves ⟨w⟩ a = .ok moves) :
      MoveDecision w a b context
        (.error (.app (.invalidTransition (some a) b (sorted (moves.map Transition.toState)))))
  | forbidden {t : Transition} {roles : List PyStr} (hb : b ∈ w.stateNames) (hab : b ≠ a)
      (ht : Dict.get? w.transitions (a, b) = some t) (hroles : Requires t roles)
      (hnone : ∀ role ∈ context.roles, role ∉ roles) :
      MoveDecision w a b context
        (.error (.app (.transitionForbidden t.name (sorted roles) (sorted context.roles))))
  | full {t : Transition} {limit : Nat} (hb : b ∈ w.stateNames) (hab : b ≠ a)
      (ht : Dict.get? w.transitions (a, b) = some t) (hpermits : Permits t context)
      (hlimit : Limits w b limit) (hfull : limit ≤ context.count b) :
      MoveDecision w a b context (.error (.app (.wipLimitExceeded b limit (context.count b))))
  | moves {t : Transition} (hb : b ∈ w.stateNames) (hab : b ≠ a)
      (ht : Dict.get? w.transitions (a, b) = some t) (hpermits : Permits t context)
      (hroom : HasRoom w b context) : MoveDecision w a b context (.ok ())

/-- **What a create is decided to be**, the default entry standing for no status. -/
inductive EntryDecision (w : Workflow) (context : TransitionContext) :
    Option PyStr → Except Exn PyStr → Prop where
  | unknown {s : PyStr} (hs : s ∉ w.stateNames) :
      EntryDecision w context (some s) (.error (.app (.unknownStatus s w.stateNames)))
  | notEntry {s : PyStr} (hs : s ∈ w.stateNames) (hentry : s ∉ w.entryStates) :
      EntryDecision w context (some s) (.error (.app (.invalidTransition none s w.entryStates)))
  | full {status : Option PyStr} {limit : Nat} (hentry : status.getD w.defaultEntry ∈ w.entryStates)
      (hlimit : Limits w (status.getD w.defaultEntry) limit)
      (hfull : limit ≤ context.count (status.getD w.defaultEntry)) :
      EntryDecision w context status (.error (.app (.wipLimitExceeded (status.getD w.defaultEntry)
        limit (context.count (status.getD w.defaultEntry)))))
  | enters {status : Option PyStr} (hentry : status.getD w.defaultEntry ∈ w.entryStates)
      (hroom : HasRoom w (status.getD w.defaultEntry) context) :
      EntryDecision w context status (.ok (status.getD w.defaultEntry))

section Tables

variable {w : Workflow} {a b : PyStr} {context : TransitionContext}

/-! ## The guards, decided -/

theorem roleNames_strings (roles : List PyStr) :
    Engine.roleNames (.list (roles.map .str)) = .ok roles := by
  show (roles.map Json.str).mapM _ = _
  induction roles with
  | nil => rfl
  | cons role roles ih =>
    rw [List.map_cons, List.mapM_cons, ih]
    rfl

/-- No roles are listed, or some are. -/
theorem Guarded.roles_cases (h : Guarded w) {t : Transition}
    (ht : Dict.get? w.transitions (a, b) = some t) :
    Dict.get? t.metadata rolesMetaKey = none ∨ ∃ roles, Requires t roles ∧ roles ≠ [] := by
  cases hv : Dict.get? t.metadata rolesMetaKey with
  | none => exact .inl rfl
  | some v =>
    obtain ⟨roles, rfl, hne, -⟩ := h.roles _ (Dict.mem_of_get? ht) v hv
    exact .inr ⟨roles, hv, hne⟩

theorem Requires.unique {t : Transition} {roles roles' : List PyStr} (h : Requires t roles)
    (h' : Requires t roles') : roles = roles' := by
  have heq := Json.list.inj (Option.some.inj (h.symm.trans h'))
  exact List.map_injective_iff.2 (fun _ _ => Json.str.inj) heq

/-- The role guard fails for an actor who holds none of the roles, and for no other. -/
theorem checkRole_of_requires {t : Transition} {roles : List PyStr} (h : Requires t roles)
    (hne : roles ≠ []) : Engine.checkRole t context
      = if ∀ role ∈ context.roles, role ∉ roles then
          .error (.app (.transitionForbidden t.name (sorted roles) (sorted context.roles)))
        else .ok () := by
  have htruthy : (Json.list (roles.map .str)).truthy = true := by
    cases roles with
    | nil => exact absurd rfl hne
    | cons => rfl
  unfold Requires at h
  simp only [Engine.checkRole, h, htruthy, if_true, roleNames_strings]
  rfl

theorem checkRole_of_none {t : Transition} (h : Dict.get? t.metadata rolesMetaKey = none) :
    Engine.checkRole t context = .ok () := by
  simp only [Engine.checkRole, h]

/-- The role guard passes exactly the actors that are permitted. -/
theorem checkRole_of_permits (hw : Guarded w) {t : Transition}
    (ht : Dict.get? w.transitions (a, b) = some t) (h : Permits t context) :
    Engine.checkRole t context = .ok () := by
  rcases hw.roles_cases ht with hnone | ⟨roles, hroles, hne⟩
  · exact checkRole_of_none hnone
  · obtain ⟨role, hrole, hmem⟩ := h roles hroles
    rw [checkRole_of_requires hroles hne, if_neg fun hall => hall role hrole hmem]

/-- One limit a state. -/
theorem Limits.unique {limit limit' : Nat} (h : Limits w b limit) (h' : Limits w b limit') :
    limit = limit' := by
  obtain ⟨s, hs, rfl, hlimit⟩ := h
  obtain ⟨s', hs', hname, hlimit'⟩ := h'
  obtain rfl := List.inj_on_of_nodup_map w.names_nodup hs' hs hname
  exact Int.ofNat.inj (Json.int.inj (Option.some.inj (hlimit.symm.trans hlimit')))

variable [Unicode]

/-- What the limit of a state decides. -/
theorem checkWip_cases (hw : Guarded w) (hb : b ∈ w.stateNames) :
    HasRoom w b context ∧ Engine.checkWip ⟨w⟩ b context = .ok ()
      ∨ ∃ limit, Limits w b limit ∧ limit ≤ context.count b
        ∧ Engine.checkWip ⟨w⟩ b context
          = .error (.app (.wipLimitExceeded b limit (context.count b))) := by
  obtain ⟨s, hfind, hstate⟩ := w.state_of_mem hb
  obtain ⟨hs, rfl⟩ := w.find?_eq_some_iff.1 hfind
  have hfound : orValueError (w.state s.name) = .ok s := by
    rw [hstate]
    rfl
  unfold Engine.checkWip
  dsimp only
  rw [hfound, Except.ok_bind]
  cases hv : Dict.get? s.metadata wipLimitMetaKey with
  | none =>
    refine .inl ⟨fun limit hlimit => ?_, rfl⟩
    obtain ⟨s', hs', hname, hlimit⟩ := hlimit
    obtain rfl := List.inj_on_of_nodup_map w.names_nodup hs' hs hname
    rw [hv] at hlimit
    cases hlimit
  | some v =>
    obtain ⟨n, rfl⟩ := hw.limits s hs v hv
    have hlimit : Limits w s.name n := ⟨s, hs, rfl, hv⟩
    by_cases hfull : n ≤ context.count s.name
    · refine .inr ⟨n, hlimit, hfull, ?_⟩
      have hat : Engine.atLimit (context.count s.name) (.int n) = .ok (some (n : Int)) :=
        congrArg Except.ok (if_pos (Int.ofNat_le.2 hfull))
      change Engine.atLimit (context.count s.name) (.int n) >>= _ = _
      rw [hat]
      rfl
    · refine .inl ⟨fun limit hlimit' => ?_, ?_⟩
      · obtain rfl := hlimit.unique hlimit'
        omega
      · have hat : Engine.atLimit (context.count s.name) (.int n) = .ok none :=
          congrArg Except.ok (if_neg fun hle => hfull (Int.ofNat_le.1 hle))
        change Engine.atLimit (context.count s.name) (.int n) >>= _ = _
        rw [hat]
        rfl

/-- The limit lets in exactly where there is room. -/
theorem checkWip_of_hasRoom (hw : Guarded w) (hb : b ∈ w.stateNames) (h : HasRoom w b context) :
    Engine.checkWip ⟨w⟩ b context = .ok () := by
  rcases @checkWip_cases w b context _ hw hb with ⟨-, hok⟩ | ⟨limit, hlimit, hfull, -⟩
  · exact hok
  · have := h limit hlimit
    omega

theorem checkWip_of_full (hw : Guarded w) (hb : b ∈ w.stateNames) {limit : Nat}
    (hlimit : Limits w b limit) (hfull : limit ≤ context.count b) : Engine.checkWip ⟨w⟩ b context
      = .error (.app (.wipLimitExceeded b limit (context.count b))) := by
  rcases @checkWip_cases w b context _ hw hb with ⟨hroom, -⟩ | ⟨limit', hlimit', -, herror⟩
  · have := hroom limit hlimit
    omega
  · obtain rfl := hlimit.unique hlimit'
    exact herror

/-! ## Moves -/

theorem checkMove_unknown (hb : b ∉ w.stateNames) : Engine.checkMove ⟨w⟩ a b context
    = .error (.app (.unknownStatus b w.stateNames)) := by
  simp [Engine.checkMove, Engine.requireKnown, hb, bind, Except.bind]

theorem checkMove_stays (hb : b ∈ w.stateNames) : Engine.checkMove ⟨w⟩ b b context = .ok () := by
  simp [Engine.checkMove, Engine.requireKnown, hb, bind, Except.bind, pure, Except.pure]

theorem legalMoves_of_mem (ha : a ∈ w.stateNames) : Engine.legalMoves ⟨w⟩ a
    = .ok ((w.transitions.filter fun kv => kv.1.1 = a).map Prod.snd) := by
  rw [Engine.legalMoves, orValueError, w.transitionsFrom_of_mem ha]
  rfl

/-- The legal moves out of a state are the transitions that the table files there. -/
theorem mem_legalMoves_iff {moves : List Transition} (ha : a ∈ w.stateNames)
    (h : Engine.legalMoves ⟨w⟩ a = .ok moves) {t : Transition} :
    t ∈ moves ↔ Dict.get? w.transitions (a, t.toState) = some t := by
  rw [legalMoves_of_mem ha] at h
  obtain rfl := Except.ok.inj h
  rw [Dict.get?_eq_some_iff w.keys_nodup]
  simp only [List.mem_map, List.mem_filter, decide_eq_true_eq]
  constructor
  · rintro ⟨⟨⟨from', to'⟩, t⟩, ⟨hkv, rfl⟩, rfl⟩
    have hto : to' = t.toState := (Prod.mk.inj (w.filed _ hkv)).2
    show ((from', t.toState), t) ∈ w.transitions
    rw [← hto]
    exact hkv
  · exact fun hkv => ⟨_, ⟨hkv, rfl⟩, rfl⟩

/-- The targets of the legal moves are distinct, since the table files one transition a pair. -/
theorem nodup_targets {moves : List Transition} (ha : a ∈ w.stateNames)
    (h : Engine.legalMoves ⟨w⟩ a = .ok moves) : (moves.map Transition.toState).Nodup := by
  have hkeys : ((w.transitions.filter fun kv => kv.1.1 = a).map Prod.fst).Nodup :=
    Dict.nodup_keys_filter _ w.keys_nodup
  have hmem : ∀ {t}, t ∈ moves → ((a, t.toState), t) ∈ w.transitions.filter fun kv => kv.1.1 = a :=
    fun ht => List.mem_filter.2 ⟨Dict.mem_of_get? ((mem_legalMoves_iff ha h).1 ht), by simp⟩
  have hnodup : moves.Nodup := by
    rw [legalMoves_of_mem ha] at h
    obtain rfl := Except.ok.inj h
    refine List.Nodup.map_on (fun kv hkv kv' hkv' hsame => ?_) (List.Nodup.of_map _ hkeys)
    have hfiled := w.filed kv (List.mem_filter.1 hkv).1
    have hfiled' := w.filed kv' (List.mem_filter.1 hkv').1
    exact Prod.ext (hfiled.trans (hsame ▸ hfiled'.symm)) hsame
  refine (List.nodup_map_iff_inj_on hnodup).2 fun t ht t' ht' hsame => ?_
  have hkv := hmem ht
  rw [hsame] at hkv
  exact congrArg Prod.snd (List.inj_on_of_nodup_map hkeys hkv (hmem ht') rfl)

theorem checkMove_illegal (ha : a ∈ w.stateNames) (hb : b ∈ w.stateNames) (hab : b ≠ a)
    (hno : (a, b) ∉ Dict.keys w.transitions) {moves : List Transition}
    (hmoves : Engine.legalMoves ⟨w⟩ a = .ok moves) : Engine.checkMove ⟨w⟩ a b context
      = .error (.app (.invalidTransition (some a) b (sorted (moves.map Transition.toState)))) := by
  have hnone : Dict.get? w.transitions (a, b) = none := Dict.get?_eq_none_iff.2 hno
  have hallowed : w.movesFrom a = .ok (moves.map Transition.toState) := by
    have hfrom := hmoves
    rw [legalMoves_of_mem ha] at hfrom
    rw [Workflow.movesFrom, w.transitionsFrom_of_mem ha, Except.ok.inj hfrom]
    exact congrArg Except.ok (nodup_targets ha hmoves).dedup
  simp only [Engine.checkMove, Engine.requireKnown, hb, if_true, if_neg hab, orValueError,
    w.transitionBetween_of_mem ha hb, hnone, hallowed]
  rfl

/-- A move that the table holds is decided by its guards. -/
theorem checkMove_of_get? (ha : a ∈ w.stateNames) (hb : b ∈ w.stateNames) (hab : b ≠ a)
    {t : Transition}
    (ht : Dict.get? w.transitions (a, b) = some t) : Engine.checkMove ⟨w⟩ a b context
      = (Engine.checkRole t context >>= fun _ => Engine.checkWip ⟨w⟩ b context) := by
  simp only [Engine.checkMove, Engine.requireKnown, hb, if_true, if_neg hab, orValueError,
    w.transitionBetween_of_mem ha hb, ht]
  rfl

/-- Every line of the table is what the engine computes. -/
theorem MoveDecision.eq (hw : Guarded w) (ha : a ∈ w.stateNames) {r : Except Exn Unit}
    (h : MoveDecision w a b context r) : Engine.checkMove ⟨w⟩ a b context = r := by
  cases h with
  | unknown hb => exact checkMove_unknown hb
  | stays hb hab =>
    subst hab
    exact checkMove_stays hb
  | illegal hb hab hno hmoves => exact checkMove_illegal ha hb hab hno hmoves
  | @forbidden t roles hb hab ht hroles hnone =>
    have hne : roles ≠ [] := by
      rcases hw.roles_cases ht with habsent | ⟨roles', hroles', hne⟩
      · exact nomatch habsent.symm.trans hroles
      · exact hroles.unique hroles' ▸ hne
    rw [checkMove_of_get? ha hb hab ht, checkRole_of_requires hroles hne, if_pos hnone]
    rfl
  | full hb hab ht hpermits hlimit hfull =>
    rw [checkMove_of_get? ha hb hab ht, checkRole_of_permits hw ht hpermits]
    exact checkWip_of_full hw hb hlimit hfull
  | moves hb hab ht hpermits hroom =>
    rw [checkMove_of_get? ha hb hab ht, checkRole_of_permits hw ht hpermits]
    exact checkWip_of_hasRoom hw hb hroom

/-- The table has a line for every move. -/
theorem exists_moveDecision (hw : Guarded w) (ha : a ∈ w.stateNames) :
    ∃ r, MoveDecision w a b context r := by
  by_cases hb : b ∈ w.stateNames
  swap
  · exact ⟨_, .unknown hb⟩
  by_cases hab : b = a
  · exact ⟨_, .stays hb hab⟩
  cases ht : Dict.get? w.transitions (a, b) with
  | none => exact ⟨_, .illegal hb hab (Dict.get?_eq_none_iff.1 ht) (legalMoves_of_mem ha)⟩
  | some t =>
    by_cases hpermits : Permits t context
    · rcases @checkWip_cases w b context _ hw hb with ⟨hroom, -⟩ | ⟨limit, hlimit, hfull, -⟩
      · exact ⟨_, .moves hb hab ht hpermits hroom⟩
      · exact ⟨_, .full hb hab ht hpermits hlimit hfull⟩
    · unfold Permits at hpermits
      push Not at hpermits
      obtain ⟨roles, hroles, hnone⟩ := hpermits
      exact ⟨_, .forbidden hb hab ht hroles hnone⟩

/-- **A move is decided by the table.** -/
theorem checkMove_eq_iff (hw : Guarded w) (ha : a ∈ w.stateNames) {r : Except Exn Unit} :
    Engine.checkMove ⟨w⟩ a b context = r ↔ MoveDecision w a b context r := by
  refine ⟨fun h => ?_, MoveDecision.eq hw ha⟩
  obtain ⟨r', hr'⟩ := @exists_moveDecision w a b context _ hw ha
  rwa [← h, hr'.eq hw ha]

/-! ## Creates -/

omit [Unicode] in
theorem entryState_of_entry {status : Option PyStr}
    (h : status.getD w.defaultEntry ∈ w.entryStates) :
    Engine.entryState ⟨w⟩ status = .ok (status.getD w.defaultEntry) := by
  cases status with
  | none => rfl
  | some s =>
    have hentry : s ∈ w.entryStates := h
    simp [Engine.entryState, Engine.requireKnown, w.entryStates_subset hentry, hentry, bind,
      Except.bind, pure, Except.pure]

omit [Unicode] in
/-- A create lands where it asks to, or in the default entry. -/
theorem entryState_eq_ok {status : Option PyStr} {resolved : PyStr}
    (h : Engine.entryState ⟨w⟩ status = .ok resolved) : resolved = status.getD w.defaultEntry := by
  cases status with
  | none => exact (Except.ok.inj h).symm
  | some s =>
    unfold Engine.entryState Engine.requireKnown at h
    dsimp only at h
    split at h
    · simp only [Except.ok_bind] at h
      split at h
      · cases h
      · exact (Except.ok.inj h).symm
    · cases h

/-- Every line of the table is what the engine computes. -/
theorem EntryDecision.eq (hw : Guarded w) {status : Option PyStr} {r : Except Exn PyStr}
    (h : EntryDecision w context status r) : Engine.resolveEntry ⟨w⟩ status context = r := by
  cases h with
  | unknown hs =>
    simp [Engine.resolveEntry, Engine.entryState, Engine.requireKnown, hs, bind, Except.bind]
  | notEntry hs hentry =>
    simp [Engine.resolveEntry, Engine.entryState, Engine.requireKnown, hs, hentry, bind,
      Except.bind, throw, throwThe, MonadExceptOf.throw]
  | full hentry hlimit hfull =>
    rw [Engine.resolveEntry, entryState_of_entry hentry, Except.ok_bind,
      checkWip_of_full hw (w.entryStates_subset hentry) hlimit hfull]
    rfl
  | enters hentry hroom =>
    rw [Engine.resolveEntry, entryState_of_entry hentry, Except.ok_bind,
      checkWip_of_hasRoom hw (w.entryStates_subset hentry) hroom]
    rfl

/-- The table has a line for every create. -/
theorem exists_entryDecision (hw : Guarded w) (status : Option PyStr) :
    ∃ r, EntryDecision w context status r := by
  have henters : status.getD w.defaultEntry ∈ w.entryStates →
      ∃ r, EntryDecision w context status r := by
    intro hentry
    rcases @checkWip_cases w _ context _ hw (w.entryStates_subset hentry) with
      ⟨hroom, -⟩ | ⟨limit, hlimit, hfull, -⟩
    · exact ⟨_, .enters hentry hroom⟩
    · exact ⟨_, .full hentry hlimit hfull⟩
  cases status with
  | none => exact henters w.defaultEntry_mem
  | some s =>
    by_cases hs : s ∈ w.stateNames
    · by_cases hentry : s ∈ w.entryStates
      · exact henters hentry
      · exact ⟨_, .notEntry hs hentry⟩
    · exact ⟨_, .unknown hs⟩

/-- **A create is decided by the table.** -/
theorem resolveEntry_eq_iff (hw : Guarded w) {status : Option PyStr} {r : Except Exn PyStr} :
    Engine.resolveEntry ⟨w⟩ status context = r ↔ EntryDecision w context status r := by
  refine ⟨fun h => ?_, EntryDecision.eq hw⟩
  obtain ⟨r', hr'⟩ := @exists_entryDecision w context _ hw status
  rwa [← h, hr'.eq hw]

/-! ## The table and the buttons -/

/-- The move is refused because the definition has no such move, whoever asks. -/
def Undefined (r : Except Exn Unit) : Prop :=
  ∃ e, r = .error (.app e) ∧ match e with
    | .unknownStatus _ _ | .invalidTransition _ _ _ => True
    | _ => False

/-- The buttons of a state are the moves that the table does not refuse for want of a definition. -/
theorem legalMoves_offers_iff (hw : Guarded w) (ha : a ∈ w.stateNames) {moves : List Transition}
    (hmoves : Engine.legalMoves ⟨w⟩ a = .ok moves) (hab : b ≠ a) :
    (∃ t ∈ moves, t.toState = b) ↔ ¬ Undefined (Engine.checkMove ⟨w⟩ a b context) := by
  obtain ⟨r, hr⟩ := @exists_moveDecision w a b context _ hw ha
  rw [hr.eq hw ha]
  have hoffers : (∃ t ∈ moves, t.toState = b) ↔ (a, b) ∈ Dict.keys w.transitions := by
    constructor
    · rintro ⟨t, ht, rfl⟩
      exact Dict.mem_keys_of_mem (Dict.mem_of_get? ((mem_legalMoves_iff ha hmoves).1 ht))
    · intro hkey
      obtain ⟨t, ht⟩ := Option.isSome_iff_exists.1 (Dict.get?_isSome_iff.2 hkey)
      obtain ⟨-, rfl⟩ := w.ends_of_get? ht
      exact ⟨t, (mem_legalMoves_iff ha hmoves).2 ht, rfl⟩
  -- The table has the pair exactly when the decision is one of the last three.
  rw [hoffers]
  cases hr with
  | unknown hb =>
    refine iff_of_false (fun hkey => hb ?_) fun hnot => hnot ⟨_, rfl, trivial⟩
    obtain ⟨t, ht⟩ := Dict.mem_keys_iff.1 hkey
    exact (w.known _ ht).2
  | stays _ hsame => exact absurd hsame hab
  | illegal _ _ hno => exact iff_of_false hno fun hnot => hnot ⟨_, rfl, trivial⟩
  | forbidden _ _ ht =>
    refine iff_of_true (Dict.mem_keys_of_mem (Dict.mem_of_get? ht)) ?_
    rintro ⟨e, he, hundefined⟩
    obtain rfl := Exn.app.inj (Except.error.inj he)
    exact hundefined
  | full _ _ ht =>
    refine iff_of_true (Dict.mem_keys_of_mem (Dict.mem_of_get? ht)) ?_
    rintro ⟨e, he, hundefined⟩
    obtain rfl := Exn.app.inj (Except.error.inj he)
    exact hundefined
  | moves _ _ ht =>
    refine iff_of_true (Dict.mem_keys_of_mem (Dict.mem_of_get? ht)) ?_
    rintro ⟨e, he, -⟩
    cases he

/-- **The engine of an accepted document decides by the tables**, and its buttons are the moves of
the table. -/
theorem decides_by_table {d : Json} (h : workflowFromDocument d = .ok w)
    (context : TransitionContext) :
    (∀ a ∈ w.stateNames, ∀ b r, Engine.checkMove ⟨w⟩ a b context = r ↔ MoveDecision w a b context r)
      ∧ (∀ status r, Engine.resolveEntry ⟨w⟩ status context = r ↔ EntryDecision w context status r)
      ∧ ∀ a ∈ w.stateNames, ∃ moves, Engine.legalMoves ⟨w⟩ a = .ok moves
        ∧ ∀ b, b ≠ a → ((∃ t ∈ moves, t.toState = b)
            ↔ ¬ Undefined (Engine.checkMove ⟨w⟩ a b context)) := by
  have hw := guarded_of_document h
  refine ⟨fun a ha b r => checkMove_eq_iff hw ha, fun status r => resolveEntry_eq_iff hw,
    fun a ha => ⟨_, legalMoves_of_mem ha, fun b hab => ?_⟩⟩
  exact legalMoves_offers_iff hw ha (legalMoves_of_mem ha) hab

end Tables

section Default

open Sharp

/-- The default definition, as it is read back, and a status it does not know. -/
theorem decides_by_table_default :
    ∃ w, workflowFromDocument (workflowToDocument defaultDefinition) = .ok w
    ∧ Engine.checkMove ⟨w⟩ (py "new") (py "lost") ⟨[], []⟩
      = .error (.app (.unknownStatus (py "lost") w.stateNames)) := by
  have hread := workflowFromDocument_workflowToDocument documentable_defaultDefinition
  have hnames : defaultDefinition.normalize.stateNames
      = [py "new", py "in_progress", py "completed"] := rfl
  refine ⟨_, hread, ((decides_by_table hread ⟨[], []⟩).1 _ ?_ _ _).2 (.unknown ?_)⟩
  · rw [hnames]
    decide
  · rw [hnames]
    decide

end Default

section Shortcut

variable {w : Workflow} {a b : PyStr} {context : TransitionContext} [Unicode]

/-! ## The occupancy shortcut -/

/-- Without a limit on it, what is counted does not matter for a state. -/
theorem checkWip_of_unlimited {s : State} (hfind : w.find? b = some s)
    (h : wipLimitMetaKey ∉ Dict.keys s.metadata) : Engine.checkWip ⟨w⟩ b context = .ok () := by
  have hstate : w.state b = .ok s := by rw [Workflow.state, hfind]
  have hnone : Dict.get? s.metadata wipLimitMetaKey = none := Dict.get?_eq_none_iff.2 h
  simp only [Engine.checkWip, orValueError, hstate, Except.mapError_ok, Except.ok_bind, hnone]
  rfl

omit [Unicode] in
/-- No occupancy is needed: the write stays, or its target is unknown, or it declares no limit. -/
theorem needsOccupancy_eq_false {fromStatus toStatus : Option PyStr}
    (h : Engine.needsOccupancy ⟨w⟩ fromStatus toStatus = false) :
    some (toStatus.getD w.defaultEntry) = fromStatus ∨ toStatus.getD w.defaultEntry ∉ w.stateNames
      ∨ ∃ s, w.find? (toStatus.getD w.defaultEntry) = some s
        ∧ wipLimitMetaKey ∉ Dict.keys s.metadata := by
  unfold Engine.needsOccupancy at h
  dsimp only at h
  split at h
  next hskip =>
    rcases hskip with hsame | hunknown
    · exact .inl hsame
    · exact .inr (.inl hunknown)
  next hknown =>
    have hmem : toStatus.getD w.defaultEntry ∈ w.stateNames := by
      by_contra hnot
      exact hknown (.inr hnot)
    obtain ⟨s, hs⟩ := Option.isSome_iff_exists.1 (w.find?_isSome_iff.2 hmem)
    refine .inr (.inr ⟨s, hs, ?_⟩)
    have htarget : toStatus.getD (Engine.defaultEntry ⟨w⟩) = toStatus.getD w.defaultEntry := rfl
    rw [htarget, hs] at h
    exact of_decide_eq_false h

/-- **A move that needs no occupancy is decided without**: the same outcome with nothing counted. -/
theorem checkMove_of_needsOccupancy (roles : List PyStr) (occupancy : Dict PyStr Nat)
    (ha : a ∈ w.stateNames) (h : Engine.needsOccupancy ⟨w⟩ (some a) (some b) = false) :
    Engine.checkMove ⟨w⟩ a b ⟨roles, []⟩ = Engine.checkMove ⟨w⟩ a b ⟨roles, occupancy⟩ := by
  rcases needsOccupancy_eq_false h with hsame | hunknown | ⟨s, hfind, hunlimited⟩
  · obtain rfl : b = a := Option.some.inj hsame
    rw [checkMove_stays ha, checkMove_stays ha]
  · have hb : b ∉ w.stateNames := hunknown
    rw [checkMove_unknown hb, checkMove_unknown hb]
  · change w.find? b = some s at hfind
    have hb : b ∈ w.stateNames := w.find?_isSome_iff.1 (by rw [hfind]; rfl)
    by_cases hab : b = a
    · subst hab
      rw [checkMove_stays ha, checkMove_stays ha]
    cases ht : Dict.get? w.transitions (a, b) with
    | none =>
      have hno := Dict.get?_eq_none_iff.1 ht
      rw [checkMove_illegal ha hb hab hno (legalMoves_of_mem ha),
        checkMove_illegal ha hb hab hno (legalMoves_of_mem ha)]
    | some t =>
      -- the role guard does not look at the occupancy, and there is no limit
      rw [checkMove_of_get? ha hb hab ht, checkMove_of_get? ha hb hab ht,
        checkWip_of_unlimited hfind hunlimited, checkWip_of_unlimited hfind hunlimited]
      rfl

/-- **A create that needs no occupancy is decided without.** -/
theorem resolveEntry_of_needsOccupancy (roles : List PyStr) (occupancy : Dict PyStr Nat)
    {status : Option PyStr} (h : Engine.needsOccupancy ⟨w⟩ none status = false) :
    Engine.resolveEntry ⟨w⟩ status ⟨roles, []⟩
      = Engine.resolveEntry ⟨w⟩ status ⟨roles, occupancy⟩ := by
  unfold Engine.resolveEntry
  cases hentry : Engine.entryState ⟨w⟩ status with
  | error e => rfl
  | ok resolved =>
    obtain rfl := entryState_eq_ok hentry
    rcases needsOccupancy_eq_false h with hsame | hunknown | ⟨s, hfind, hunlimited⟩
    · cases hsame
    · exact absurd (Engine.entryState_mem ⟨w⟩ hentry) hunknown
    · rw [Except.ok_bind, Except.ok_bind, checkWip_of_unlimited hfind hunlimited,
        checkWip_of_unlimited hfind hunlimited]

/-- **The occupancy shortcut is sound**, for moves and for creates. -/
theorem occupancy_shortcut (w : Workflow) (roles : List PyStr) (occupancy : Dict PyStr Nat) :
    (∀ a ∈ w.stateNames, ∀ b, Engine.needsOccupancy ⟨w⟩ (some a) (some b) = false →
        Engine.checkMove ⟨w⟩ a b ⟨roles, []⟩ = Engine.checkMove ⟨w⟩ a b ⟨roles, occupancy⟩)
      ∧ ∀ status, Engine.needsOccupancy ⟨w⟩ none status = false →
        Engine.resolveEntry ⟨w⟩ status ⟨roles, []⟩
          = Engine.resolveEntry ⟨w⟩ status ⟨roles, occupancy⟩ :=
  ⟨fun _ ha _ h => checkMove_of_needsOccupancy roles occupancy ha h,
    fun _ h => resolveEntry_of_needsOccupancy roles occupancy h⟩

end Shortcut

section Default

open Sharp

/-- The states of the default definition have no limits. -/
theorem occupancy_shortcut_default :
    Engine.checkMove ⟨defaultDefinition⟩ (py "new") (py "completed") ⟨[], []⟩
      = Engine.checkMove ⟨defaultDefinition⟩ (py "new") (py "completed")
          ⟨[], [(py "completed", 5)]⟩ := by
  have hnames : defaultDefinition.stateNames = [py "new", py "in_progress", py "completed"] := rfl
  refine (occupancy_shortcut defaultDefinition [] [(py "completed", 5)]).1 _ ?_ _ (by decide)
  rw [hnames]
  decide

end Default

end TaskService.Workflows
