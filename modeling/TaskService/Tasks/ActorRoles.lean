import TaskService.Workflows.Decisions

/-!
# The roles of an actor

`get_actor_roles` (`tasks/dependencies.py`) reads the roles of the caller off the `X-Roles` header,
which separates them by commas. A definition lists the roles of a transition in JSON, where a role
is any string that is not blank: so not every role that is listed can be held.

* **`presentable_iff`**: a header presents the roles that have no comma and no space at an end.
* **`guards_by_header`**: in an accepted definition these are the roles that open a transition.
-/

namespace TaskService.Tasks

open Workflows

def comma : CodePoint := 0x2C

/-- `get_actor_roles`. -/
def getActorRoles (xRoles : Option PyStr) : List PyStr :=
  match xRoles with
  | none | some [] => []
  | some xRoles => (((xRoles.splitOn comma).filter fun role => strip role ≠ []).map strip).dedup

/-! ## The header grammar -/

theorem strip_sublist (s : PyStr) : (strip s).Sublist s :=
  (List.rdropWhile_prefix _ _).sublist.trans (List.dropWhile_suffix _).sublist

/-- A part of a split is made of other characters of the text. -/
theorem of_mem_splitOn {sep : CodePoint} {s part : PyStr} (h : part ∈ s.splitOn sep) :
    sep ∉ part ∧ ∀ c ∈ part, c ∈ s := by
  induction s generalizing part with
  | nil =>
    obtain rfl : part = [] := by simpa using h
    simp
  | cons c s ih =>
    rw [List.splitOn_cons_eq_if_modifyHead] at h
    by_cases hc : c = sep
    · rw [if_pos (by simpa using hc)] at h
      rcases List.mem_cons.1 h with rfl | h
      · simp
      · exact ⟨(ih h).1, fun d hd => List.mem_cons_of_mem _ ((ih h).2 d hd)⟩
    · rw [if_neg (by simpa using hc)] at h
      obtain ⟨first, rest, hparts⟩ := List.exists_cons_of_ne_nil (List.splitOn_ne_nil sep s)
      rw [hparts, List.modifyHead_cons] at h
      rw [hparts] at ih
      rcases List.mem_cons.1 h with rfl | h
      · -- the first part has the character in front
        obtain ⟨hsep, hmem⟩ := ih List.mem_cons_self
        refine ⟨?_, ?_⟩
        · simp [Ne.symm hc, hsep]
        · intro d hd
          rcases List.mem_cons.1 hd with rfl | hd
          · exact List.mem_cons_self
          · exact List.mem_cons_of_mem _ (hmem d hd)
      · obtain ⟨hsep, hmem⟩ := ih (List.mem_cons_of_mem _ h)
        exact ⟨hsep, fun d hd => List.mem_cons_of_mem _ (hmem d hd)⟩

/-- The roles in a header are its parts, stripped, the blank ones dropped. -/
theorem mem_getActorRoles {header role : PyStr} :
    role ∈ getActorRoles (some header)
      ↔ role ≠ [] ∧ ∃ part ∈ header.splitOn comma, strip part = role := by
  cases header with
  | nil =>
    show role ∈ [] ↔ _
    simp
  | cons c header =>
    show role ∈ List.dedup _ ↔ _
    simp only [List.mem_dedup, List.mem_map, List.mem_filter, decide_eq_true_eq]
    constructor
    · rintro ⟨part, ⟨hpart, hne⟩, rfl⟩
      exact ⟨hne, part, hpart, rfl⟩
    · rintro ⟨hne, part, hpart, rfl⟩
      exact ⟨part, ⟨hpart, hne⟩, rfl⟩

section Header

variable (carries : CodePoint → Prop)

/-- Some header presents the role; `carries` says which characters a header can carry. -/
def Presentable (role : PyStr) : Prop :=
  ∃ header : PyStr, (∀ c ∈ header, carries c) ∧ role ∈ getActorRoles (some header)

/-- The role reads the same between two commas. -/
structure Expressible (role : PyStr) : Prop where
  trimmed : strip role = role
  comma : comma ∉ role
  carried : ∀ c ∈ role, carries c

variable {carries}

/-- **What a header can present**: any role that is not empty and is expressible. -/
theorem presentable_iff {role : PyStr} :
    Presentable carries role ↔ role ≠ [] ∧ Expressible carries role := by
  constructor
  · rintro ⟨header, hcarried, hrole⟩
    obtain ⟨hne, part, hpart, rfl⟩ := mem_getActorRoles.1 hrole
    obtain ⟨hcomma, hmem⟩ := of_mem_splitOn hpart
    have hstrip : ∀ c ∈ strip part, c ∈ part := (strip_sublist part).subset
    exact ⟨hne, strip_strip part, fun h => hcomma (hstrip _ h),
      fun c hc => hcarried c (hmem c (hstrip c hc))⟩
  · rintro ⟨hne, h⟩
    -- the role alone is such a header
    refine ⟨role, h.carried, mem_getActorRoles.2 ⟨hne, role, ?_, h.trimmed⟩⟩
    rw [List.splitOn_eq_singleton h.comma]
    exact List.mem_singleton_self role

/-- **Guards and headers.** An actor who holds one of the roles that an accepted definition lists
passes the guard, and a header presents one of them exactly when it has no comma and no space at an
end. -/
theorem guards_by_header [Unicode] {d : Json} {w : Workflow} (h : workflowFromDocument d = .ok w) :
    ∀ kv ∈ w.transitions, ∀ v, Dict.get? kv.2.metadata rolesMetaKey = some v →
      ∃ roles : List PyStr, v = .list (roles.map .str) ∧ ∀ role ∈ roles,
        (Presentable carries role ↔ Expressible carries role)
          ∧ ∀ context : TransitionContext, role ∈ context.roles →
            Engine.checkRole kv.2 context = .ok () := by
  intro kv hkv v hv
  obtain ⟨roles, rfl, hne, hnonblank⟩ := (guarded_of_document h).roles kv hkv v hv
  refine ⟨roles, rfl, fun role hrole => ⟨?_, fun context hholds => ?_⟩⟩
  · have hnonempty : role ≠ [] := by
      rintro rfl
      exact hnonblank [] hrole strip_nil
    rw [presentable_iff]
    exact and_iff_right hnonempty
  · rw [checkRole_of_requires hv hne, if_neg fun hall => hall role hholds hrole]

end Header

section Documents

open Sharp

/-- A definition with one transition, which lists one role. -/
def guardedBy (role : PyStr) : Json :=
  .dict [(py "states", .list [.str (py "new"), .str (py "done")]),
    (py "transitions", .list [.dict [(py "name", .str (py "Finish")), (py "from", .str (py "new")),
      (py "to", .str (py "done")), (py "roles", .list [.str role])]])]

/-- The roles that the transitions of a document list, if it is accepted. -/
def listed (d : Json) : Option (List (Option Json)) :=
  (workflowFromDocument d).toOption.map fun w =>
    w.transitions.map fun kv => Dict.get? kv.2.metadata rolesMetaKey

theorem exists_of_listed {d v : Json} (h : listed d = some [some v]) :
    ∃ w, workflowFromDocument d = .ok w
      ∧ ∃ kv ∈ w.transitions, Dict.get? kv.2.metadata rolesMetaKey = some v := by
  unfold listed at h
  cases hd : workflowFromDocument d with
  | error problems =>
    rw [hd] at h
    cases h
  | ok w =>
    rw [hd] at h
    have hroles : w.transitions.map (fun kv => Dict.get? kv.2.metadata rolesMetaKey) = [some v] :=
      Option.some.inj h
    have hmem : some v ∈ w.transitions.map fun kv => Dict.get? kv.2.metadata rolesMetaKey := by
      rw [hroles]
      exact List.mem_singleton_self _
    obtain ⟨kv, hkv, hv⟩ := List.mem_map.1 hmem
    exact ⟨w, rfl, kv, hkv, hv⟩

/-- A header of ASCII characters, and a role that it can present. -/
theorem guards_by_header_manager : ∃ w, workflowFromDocument (guardedBy (py "manager")) = .ok w
    ∧ ∃ kv ∈ w.transitions, ∃ roles : List PyStr,
      Dict.get? kv.2.metadata rolesMetaKey = some (.list (roles.map .str))
        ∧ ∀ role ∈ roles, Presentable (fun c => c.val < 0x80) role
          ↔ Expressible (fun c => c.val < 0x80) role := by
  have hlisted : listed (guardedBy (py "manager"))
      = some [some (.list [.str (py "manager")])] := rfl
  obtain ⟨w, hw, kv, hkv, hv⟩ := exists_of_listed hlisted
  obtain ⟨roles, heq, hroles⟩ := guards_by_header hw kv hkv _ hv
  rw [heq] at hv
  exact ⟨w, hw, kv, hkv, roles, hv, fun role hrole => (hroles role hrole).1⟩

/-- **A guard that no header opens**: an accepted definition lists a role with a comma. -/
theorem unpresentable_guard : ∃ w, workflowFromDocument (guardedBy (py "lead,ops")) = .ok w
    ∧ ∃ kv ∈ w.transitions, Requires kv.2 [py "lead,ops"]
      ∧ ∀ header, py "lead,ops" ∉ getActorRoles (some header) := by
  have hlisted : listed (guardedBy (py "lead,ops"))
      = some [some (.list [.str (py "lead,ops")])] := rfl
  obtain ⟨w, hw, kv, hkv, hv⟩ := exists_of_listed hlisted
  refine ⟨w, hw, kv, hkv, hv, fun header hrole => ?_⟩
  -- a role that is presented has no comma
  have hpresentable : Presentable (fun _ => True) (py "lead,ops") :=
    ⟨header, fun _ _ => trivial, hrole⟩
  have hexpressible := presentable_iff.1 hpresentable
  exact hexpressible.2.comma (by decide)

end Documents

end TaskService.Tasks
