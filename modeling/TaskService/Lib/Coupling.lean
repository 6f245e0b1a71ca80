import TaskService.Lib.Machine

/-!
# One machine driving another

Two machines side by side. Each step of the first makes the second take the action it emits; between
these the second moves by itself, by the actions that are its own.

* **`Coupling.Stays.drives`**: while the driven machine is always ready, the driving one is not
  held up.
-/

namespace Machine

variable {S T A B : Type}

/-- What couples two machines: their steps, what a step of the first makes the second do, and the
actions the second takes by itself. -/
structure Coupling (S T A B : Type) where
  drive : S → A → Option S
  driven : T → B → Option T
  emits : S → S → B
  own : B → Bool

namespace Coupling

variable (c : Coupling S T A B)

def step : S × T → A ⊕ B → Option (S × T)
  | (s, t), .inl a => do
    let s' ← c.drive s a
    let t' ← c.driven t (c.emits s s')
    return (s', t')
  | (s, t), .inr b => if c.own b then (c.driven t b).map fun t' => (s, t') else none

variable {c}

theorem step_inl {d d' : S × T} {a : A} : c.step d (.inl a) = some d' ↔
    c.drive d.1 a = some d'.1 ∧ c.driven d.2 (c.emits d.1 d'.1) = some d'.2 := by
  obtain ⟨s, t⟩ := d
  obtain ⟨s', t'⟩ := d'
  change (do
    let s'' ← c.drive s a
    let t'' ← c.driven t (c.emits s s'')
    return (s'', t'')) = some (s', t') ↔ _
  simp only [Option.bind_eq_bind, Option.bind_eq_some_iff, Option.pure_def, Option.some.injEq,
    Prod.mk.injEq]
  constructor
  · rintro ⟨_, hs, _, ht, rfl, rfl⟩
    exact ⟨hs, ht⟩
  · rintro ⟨hs, ht⟩
    exact ⟨s', hs, t', ht, rfl, rfl⟩

theorem step_inr {d d' : S × T} {b : B} : c.step d (.inr b) = some d' ↔
    c.own b = true ∧ d'.1 = d.1 ∧ c.driven d.2 b = some d'.2 := by
  obtain ⟨s, t⟩ := d
  obtain ⟨s', t'⟩ := d'
  change (if c.own b then (c.driven t b).map fun t'' => (s, t'') else none) = some (s', t') ↔ _
  by_cases h : c.own b = true
  · simp only [h, if_true, Option.map_eq_some_iff, Prod.mk.injEq, true_and]
    constructor
    · rintro ⟨_, ht, rfl, rfl⟩
      exact ⟨rfl, ht⟩
    · rintro ⟨rfl, ht⟩
      exact ⟨t', ht, rfl, rfl⟩
  · simp [h]

/-- A relation between the two parts that every step keeps, and in which the driven part is
ready. -/
structure Stays (c : Coupling S T A B) (R : S → T → Prop) : Prop where
  ready : ∀ {s t a s'}, R s t → c.drive s a = some s' →
    ∃ t', c.driven t (c.emits s s') = some t'
  driven : ∀ {s t a s' t'}, R s t → c.drive s a = some s' →
    c.driven t (c.emits s s') = some t' → R s' t'
  own : ∀ {s t b t'}, R s t → c.own b = true → c.driven t b = some t' → R s t'

variable {R : S → T → Prop}

theorem Stays.reaches (h : c.Stays R) {d d' : S × T} (hstart : R d.1 d.2)
    (hreach : Reaches c.step d d') : R d'.1 d'.2 := by
  refine hreach.invariant (I := fun d => R d.1 d.2) hstart fun d action d' hR hstep => ?_
  cases action with
  | inl a =>
    obtain ⟨hs, ht⟩ := step_inl.1 hstep
    exact h.driven hR hs ht
  | inr b =>
    obtain ⟨hown, hsame, ht⟩ := step_inr.1 hstep
    rw [hsame]
    exact h.own hR hown ht

/-- **The driving machine is not held up**: a step it can take alone it can take here. -/
theorem Stays.drives (h : c.Stays R) {d : S × T} (hR : R d.1 d.2) {a : A} {s' : S}
    (hs : c.drive d.1 a = some s') : ∃ t', c.step d (.inl a) = some (s', t') := by
  obtain ⟨t', ht⟩ := h.ready hR hs
  exact ⟨t', step_inl.2 ⟨hs, ht⟩⟩

/-- Where the driving machine gets alone it gets here. -/
theorem Stays.follows (h : c.Stays R) {s s' : S} {t : T} (hR : R s t)
    (hreach : Reaches c.drive s s') : ∃ t', Reaches c.step (s, t) (s', t') := by
  induction hreach with
  | refl => exact ⟨t, .refl⟩
  | @tail mid s' a _ hs ih =>
    obtain ⟨t', ht⟩ := ih
    obtain ⟨t'', hstep⟩ := h.drives (d := (mid, t')) (h.reaches hR ht) hs
    exact ⟨t'', ht.tail _ hstep⟩

end Coupling

end Machine
