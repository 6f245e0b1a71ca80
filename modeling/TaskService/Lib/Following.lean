import TaskService.Lib.Interleaving

/-!
# Following one thread

A pool seen from one of its threads: where the thread stands after each action, and the states of
the shared store that it has lived through. What a thread finds out is true of one of these.

* **`follow_other`**: the actions of the others leave a thread as it is.
* **`Life.thread`**: the rule of invariants for the life of a thread.
-/

namespace Interleaving

open Prog

variable {Op : Type} {Res : Op → Type} {ε α Local Shared τ : Type}

/-- The position of a thread after an action, unless it is stopped. -/
def follow : Action τ → Nat → Option Nat
  | .stop j, i => if j < i then some (i - 1) else if j = i then none else some i
  | _, i => some i

variable {rules : Rules Res ε α Local Shared τ}

/-- **The others leave a thread as it is.** -/
theorem follow_other {pool pool' : Pool Res ε α Local Shared τ} {action : Action τ} {i i' : Nat}
    {th : Thread Res ε α Local τ} (h : step rules pool action = some pool')
    (hpos : follow action i = some i') (hother : action ≠ .run i)
    (hth : pool.threads[i]? = some th) :
    pool'.threads[i']? = some th := by
  have hlt : i < pool.threads.length := (List.getElem?_eq_some_iff.1 hth).1
  cases action with
  | start t =>
    obtain rfl := Option.some.inj hpos
    obtain rfl := Option.some.inj h
    rw [List.getElem?_append_left hlt]
    exact hth
  | run j =>
    obtain rfl := Option.some.inj hpos
    have hne : j ≠ i := fun heq => hother (heq ▸ rfl)
    obtain ⟨before, after, t, o, k, l, hthreads, hlen, -, rfl⟩ := run_cases h
    subst hlen
    rw [hthreads] at hth
    show (before ++ _ :: after)[i]? = some th
    -- the thread that runs stands before this one or behind it
    rcases Nat.lt_or_gt_of_ne hne with hlo | hhi
    · obtain ⟨m, rfl⟩ : ∃ m, i = before.length + (m + 1) := ⟨i - before.length - 1, by omega⟩
      rw [List.getElem?_append_right (by omega)] at hth ⊢
      simpa [Nat.add_sub_cancel_left] using hth
    · rw [List.getElem?_append_left hhi] at hth ⊢
      exact hth
  | stop j =>
    obtain rfl := Option.some.inj h
    show (pool.threads.eraseIdx j)[i']? = some th
    change (if j < i then some (i - 1) else if j = i then none else some i) = some i' at hpos
    -- a thread that stops moves those behind it up by one
    by_cases hlo : j < i
    · rw [if_pos hlo] at hpos
      obtain rfl := Option.some.inj hpos
      rw [List.getElem?_eraseIdx_of_ge (by omega)]
      have hindex : i - 1 + 1 = i := by omega
      rw [hindex]
      exact hth
    · rw [if_neg hlo] at hpos
      by_cases heq : j = i
      · rw [if_pos heq] at hpos
        cases hpos
      · rw [if_neg heq] at hpos
        obtain rfl := Option.some.inj hpos
        rw [List.getElem?_eraseIdx_of_lt (by omega)]
        exact hth

/-- Any number of them do. -/
theorem follow_others {pool pool' : Pool Res ε α Local Shared τ} {actions : List (Action τ)}
    {i : Nat} {th : Thread Res ε α Local τ}
    (h : Machine.runActions (Interleaving.step rules) pool actions = some pool')
    (hplace : ∀ action ∈ actions, follow action i = some i ∧ action ≠ .run i)
    (hth : pool.threads[i]? = some th) : pool'.threads[i]? = some th := by
  induction actions generalizing pool with
  | nil =>
    obtain rfl := Option.some.inj h
    exact hth
  | cons action actions ih =>
    obtain ⟨next, hstep, hrest⟩ := Option.bind_eq_some_iff.1 h
    obtain ⟨hpos, hother⟩ := hplace action List.mem_cons_self
    exact ih hrest (fun a ha => hplace a (List.mem_cons_of_mem _ ha))
      (follow_other hstep hpos hother hth)

/-- **The life of a thread**: started for `t` in a pool of `Start`, it is at position `i` now, and
has seen these states of the shared store. `P` is asked of the pool at every step of its own. -/
inductive Life (rules : Rules Res ε α Local Shared τ) (t : τ)
    (Start : Pool Res ε α Local Shared τ → Prop) (P : Pool Res ε α Local Shared τ → Nat → Prop) :
    List Shared → Pool Res ε α Local Shared τ → Nat → Prop where
  | start {pool pool' : Pool Res ε α Local Shared τ} (hstart : Start pool)
      (hstep : step rules pool (.start t) = some pool') :
      Life rules t Start P [pool'.shared] pool' pool.threads.length
  | step {seen : List Shared} {pool pool' : Pool Res ε α Local Shared τ} {i i' : Nat}
      {action : Action τ} (hlife : Life rules t Start P seen pool i)
      (hstep : step rules pool action = some pool') (hpos : follow action i = some i')
      (hown : action = .run i → P pool i) :
      Life rules t Start P (seen ++ [pool'.shared]) pool' i'

section Life

variable {t : τ} {Start : Pool Res ε α Local Shared τ → Prop}
  {P : Pool Res ε α Local Shared τ → Nat → Prop} {seen : List Shared}
  {pool : Pool Res ε α Local Shared τ} {i : Nat}

theorem Life.mem_seen (h : Life rules t Start P seen pool i) : pool.shared ∈ seen := by
  cases h with
  | start => exact List.mem_singleton_self _
  | step => exact List.mem_append_right _ (List.mem_singleton_self _)

/-- The life goes on while the thread keeps its place. -/
theorem Life.continue (h : Life rules t Start P seen pool i) {actions : List (Action τ)}
    {pool' : Pool Res ε α Local Shared τ}
    (hrun : Machine.runActions (Interleaving.step rules) pool actions = some pool')
    (hplace : ∀ action ∈ actions, follow action i = some i ∧ (action = .run i → ∀ pool, P pool i)) :
    ∃ seen', Life rules t Start P seen' pool' i := by
  induction actions generalizing pool seen with
  | nil =>
    obtain rfl := Option.some.inj hrun
    exact ⟨seen, h⟩
  | cons action actions ih =>
    obtain ⟨next, hstep, hrest⟩ := Option.bind_eq_some_iff.1 hrun
    obtain ⟨hpos, hown⟩ := hplace action List.mem_cons_self
    exact ih (h.step hstep hpos fun heq => hown heq pool) hrest fun a ha =>
      hplace a (List.mem_cons_of_mem _ ha)

/-- **The rule of invariants for the life of a thread**: `K` is kept by every step of the pool, and
`J` by what the thread does itself; what it found out stays so when it has seen more. -/
theorem Life.thread {K : Pool Res ε α Local Shared τ → Prop}
    {J : List Shared → Prog Res ε α → Local → Prop}
    (hK : ∀ pool, Start pool → K pool)
    (hkeep : ∀ pool action pool', K pool →
    Interleaving.step rules pool action = some pool' → K pool')
    (hstart : ∀ s, J [s] (rules.program t) rules.fresh)
    (hmono : ∀ seen s p l, J seen p l → J (seen ++ [s]) p l)
    (hown : ∀ seen pool i o k l, J seen (.op o k) l → K pool → pool.shared ∈ seen → P pool i →
      pool.threads[i]? = some ⟨t, .op o k, l⟩ →
      J seen (k (rules.exec o l pool.shared).1) (rules.exec o l pool.shared).2.1)
    (h : Life rules t Start P seen pool i) :
    K pool ∧ ∃ p l, pool.threads[i]? = some ⟨t, p, l⟩ ∧ J seen p l := by
  induction h with
  | @start pool pool' hbegin hstep =>
    refine ⟨hkeep _ _ _ (hK _ hbegin) hstep, rules.program t, rules.fresh, ?_, hstart _⟩
    obtain rfl := Option.some.inj hstep
    simp
  | @step seen pool pool' i i' action hlife hstep hpos howns ih =>
    obtain ⟨hpool, p, l, hth, hJ⟩ := ih
    refine ⟨hkeep _ _ _ hpool hstep, ?_⟩
    by_cases hrun : action = .run i
    · subst hrun
      obtain rfl := Option.some.inj hpos
      obtain ⟨o, k, rfl⟩ : ∃ o k, p = .op o k := by
        obtain ⟨before, after, t', o, k, l', hthreads, hlen, -, -⟩ := run_cases hstep
        rw [hthreads, ← hlen] at hth
        have hhere : (⟨t', .op o k, l'⟩ : Thread Res ε α Local τ) = ⟨t, p, l⟩ := by simpa using hth
        exact ⟨o, k, (Thread.mk.inj hhere).2.1.symm⟩
      obtain ⟨hth', -⟩ := run_thread hstep hth
      exact ⟨_, _, hth', hmono _ _ _ _ (hown _ _ _ _ _ _ hJ hpool hlife.mem_seen (howns rfl) hth)⟩
    · exact ⟨p, l, follow_other hstep hpos hrun hth, hmono _ _ _ _ hJ⟩

end Life

end Interleaving
