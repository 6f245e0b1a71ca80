import Mathlib.Data.List.Chain
import Mathlib.Data.List.Nodup
import Mathlib.Tactic.Tauto

/-!
# State machines

A machine is a partial step function: from a state, each action leads to at most one state.

* **`Reaches.invariant`**: what every step from a reachable state keeps holds of every reachable
  state.
* **`Run.imp`**: the same for the steps of a run that meet a condition.
* **`run_of_runChecked`**: a run that meets a condition, by executing it.
-/

namespace Machine

variable {S A γ : Type} {step : S → A → Option S}

/-- Some actions lead from the one state to the other. -/
inductive Reaches (step : S → A → Option S) (s : S) : S → Prop where
  | refl : Reaches step s s
  | tail {s' s'' : S} (a : A) (h : Reaches step s s') (hstep : step s' a = some s'') :
      Reaches step s s''

theorem Reaches.trans {s s' s'' : S} (h : Reaches step s s') (h' : Reaches step s' s'') :
    Reaches step s s'' := by
  induction h' with
  | refl => exact h
  | tail a _ hstep ih => exact .tail a ih hstep

/-- The rule of invariants. -/
theorem Reaches.invariant {I : S → Prop} {s s' : S} (h : Reaches step s s') (hstart : I s)
    (hstep : ∀ s a s', I s → step s a = some s' → I s') : I s' := by
  induction h with
  | refl => exact hstart
  | tail a _ hnext ih => exact hstep _ a _ ih hnext

/-! ## Executing actions -/

/-- The actions of the list, one after the other. -/
def runActions (step : S → A → Option S) (s : S) (actions : List A) : Option S :=
  actions.foldlM step s

theorem reaches_of_runActions {s s' : S} {actions : List A}
    (h : runActions step s actions = some s') : Reaches step s s' := by
  induction actions generalizing s with
  | nil => exact Option.some.inj h ▸ .refl
  | cons a actions ih =>
    rw [runActions, List.foldlM_cons] at h
    obtain ⟨mid, hmid, hrest⟩ := Option.bind_eq_some_iff.1 h
    exact (Reaches.tail a .refl hmid).trans (ih hrest)

/-- The rule of invariants where only some actions are taken. -/
theorem runActions_invariant {P : A → Prop} {I : S → Prop}
    (hstep : ∀ s a s', P a → I s → step s a = some s' → I s') {s s' : S} {actions : List A}
    (hall : ∀ a ∈ actions, P a) (hstart : I s) (h : runActions step s actions = some s') :
    I s' := by
  induction actions generalizing s with
  | nil => exact Option.some.inj h ▸ hstart
  | cons a actions ih =>
    rw [runActions, List.foldlM_cons] at h
    obtain ⟨mid, hmid, hrest⟩ := Option.bind_eq_some_iff.1 h
    obtain ⟨ha, hothers⟩ := List.forall_mem_cons.1 hall
    exact ih hothers (hstep s a mid ha hstart hmid) hrest

/-- How many of the actions are as the test says, each in the state it is taken in. -/
def tally (step : S → A → Option S) (test : S → A → Bool) (s : S) : List A → Nat
  | [] => 0
  | a :: actions =>
    (test s a).toNat + match step s a with
      | none => 0
      | some s' => tally step test s' actions

/-- The rule of invariants that count: what every step keeps, counting one more when it is as the
test says, holds at the end with the tally of the run. -/
theorem runActions_tally {test : S → A → Bool} {I : S → Nat → Prop}
    (hstep : ∀ s a s' n, I s n → step s a = some s' → I s' (n + (test s a).toNat)) {s s' : S}
    {actions : List A} {n : Nat} (hstart : I s n) (h : runActions step s actions = some s') :
    I s' (n + tally step test s actions) := by
  induction actions generalizing s n with
  | nil => exact Option.some.inj h ▸ hstart
  | cons a actions ih =>
    rw [runActions, List.foldlM_cons] at h
    obtain ⟨mid, hmid, hrest⟩ := Option.bind_eq_some_iff.1 h
    have hnext := ih (hstep s a mid n hstart hmid) hrest
    rw [tally, hmid, ← Nat.add_assoc]
    exact hnext

/-! ## Runs -/

/-- A run through these states, each step of which is as `P` says. -/
inductive Run (step : S → A → Option S) (P : S → A → S → Prop) : S → List S → Prop where
  | nil (s : S) : Run step P s []
  | cons {s s' : S} {states : List S} (a : A) (hstep : step s a = some s') (hP : P s a s')
      (hrest : Run step P s' states) : Run step P s (s' :: states)

variable {P P' : S → A → S → Prop}

/-- The rule of invariants for runs: with an invariant that the steps of the run keep, what these
steps satisfy implies more. -/
theorem Run.imp {I : S → Prop} {s : S} {states : List S} (h : Run step P s states) (hstart : I s)
    (himp : ∀ s a s', I s → step s a = some s' → P s a s' → I s' ∧ P' s a s') :
    Run step P' s states := by
  induction h with
  | nil s => exact .nil s
  | cons a hstep hP _ ih =>
    obtain ⟨hnext, hP'⟩ := himp _ a _ hstart hstep hP
    exact .cons a hstep hP' (ih hnext)

/-- Along a run, neighbours are related as the steps relate them. -/
theorem Run.isChain {r : γ → γ → Prop} (f : S → γ) {s : S} {states : List S}
    (h : Run step P s states)
    (hr : ∀ s' ∈ s :: states, ∀ a s'', step s' a = some s'' → P s' a s'' → r (f s') (f s'')) :
    ((s :: states).map f).IsChain r := by
  induction h with
  | nil s => exact .singleton _
  | cons a hstep hP _ ih =>
    refine .cons_cons (hr _ List.mem_cons_self a _ hstep hP) ?_
    exact ih fun s hs => hr s (List.mem_cons_of_mem _ hs)

/-- What every step leads to holds of every state after the first. -/
theorem Run.forall_mem {Q : S → Prop} {s : S} {states : List S}
    (h : Run step (fun _ _ s' => Q s') s states) : ∀ s' ∈ states, Q s' := by
  induction h with
  | nil s => simp
  | cons a hstep hQ _ ih => exact List.forall_mem_cons.2 ⟨hQ, ih⟩

/-- A measure that only grows up to a bound stays below the bound, or where it started. -/
theorem Run.le_max {f : S → Nat} {bound : Nat} {s : S} {states : List S}
    (h : Run step (fun s _ s' => f s' ≤ f s ∨ f s' ≤ bound) s states) :
    ∀ s' ∈ states, f s' ≤ max (f s) bound := by
  induction h with
  | nil s => simp
  | cons a hstep hP _ ih =>
    refine List.forall_mem_cons.2 ⟨by omega, fun s' hs' => ?_⟩
    have := ih s' hs'
    omega

/-- The states the actions lead through, if every step is as the test says. -/
def runChecked (step : S → A → Option S) (test : S → A → S → Bool) (s : S) :
    List A → Option (List S)
  | [] => some []
  | a :: actions =>
    match step s a with
    | none => none
    | some s' => if test s a s' then (runChecked step test s' actions).map (s' :: ·) else none

theorem run_of_runChecked {test : S → A → S → Bool} {s : S} {actions : List A} {states : List S}
    (h : runChecked step test s actions = some states) :
    Run step (fun s a s' => test s a s' = true) s states := by
  induction actions generalizing s states with
  | nil => exact Option.some.inj h ▸ .nil s
  | cons a actions ih =>
    unfold runChecked at h
    cases hstep : step s a with
    | none => simp [hstep] at h
    | some s' =>
      simp only [hstep] at h
      by_cases htest : test s a s' = true
      · rw [if_pos htest] at h
        obtain ⟨rest, hrest, rfl⟩ := Option.map_eq_some_iff.1 h
        exact .cons a hstep htest (ih hrest)
      · rw [if_neg htest] at h
        cases h

/-! ## Components

A state that holds a list of components, an action naming one by its position. -/

section Components

variable {α β : Type}

/-- The component at a position: what is before and after it, without it, and with another in its
place. -/
theorem split_of_getElem? {xs : List α} {i : Nat} {x : α} (h : xs[i]? = some x) :
    ∃ before after, xs = before ++ x :: after ∧ before.length = i
      ∧ xs.eraseIdx i = before ++ after ∧ ∀ y, xs.set i y = before ++ y :: after := by
  obtain ⟨hi, rfl⟩ := List.getElem?_eq_some_iff.1 h
  have hxs : xs = xs.take i ++ xs[i] :: xs.drop (i + 1) := by
    rw [← List.drop_eq_getElem_cons hi, List.take_append_drop]
  have hlen : (xs.take i).length = i := by
    rw [List.length_take]
    omega
  refine ⟨xs.take i, xs.drop (i + 1), hxs, hlen, List.eraseIdx_eq_take_drop_succ xs i, fun y => ?_⟩
  exact List.set_eq_take_append_cons_drop.trans (if_pos hi)

/-- The others. -/
theorem sublist_middle {before after : List α} {x : α} :
    (before ++ after).Sublist (before ++ x :: after) :=
  (List.Sublist.refl before).append (List.sublist_cons_self x after)

/-- What holds of every component holds of one and of the others. -/
theorem forall_mem_middle {P : α → Prop} {before after : List α} {x : α} :
    (∀ y ∈ before ++ x :: after, P y) ↔ P x ∧ ∀ y ∈ before ++ after, P y := by
  simp only [List.mem_append, List.mem_cons, or_imp, forall_and, forall_eq]
  tauto

/-- No two components share anything when one of them shares nothing with the others, and neither do
these. -/
theorem nodup_flatMap_middle {f : α → List β} {before after : List α} {x : α} :
    ((before ++ x :: after).flatMap f).Nodup ↔ (f x).Nodup ∧ ((before ++ after).flatMap f).Nodup
      ∧ ∀ y ∈ f x, y ∉ (before ++ after).flatMap f := by
  have hperm : ((before ++ x :: after).flatMap f).Perm (f x ++ (before ++ after).flatMap f) :=
    (List.perm_middle (a := x)).flatMap_right f
  rw [hperm.nodup_iff, List.nodup_append']
  exact Iff.rfl

end Components

end Machine
