import TaskService.Lib.Observation

/-!
# What a program issues

Which operations a program can issue, whatever they answer, and which it has issued when it returns
a given result.

* **`Issues.bind`**, **`Issues.tryCatch`**: the rules for programs of one kind of operations.
* **`Heralds.bind`**: the rules for operations that the result explains.
* **`Heralds.run`**: a run that returns has issued operations of its result.
* **`answered_of_reaches`**: in a pool programs end as they make of the answers they can get.
-/

namespace Prog

variable {Op : Type} {Res : Op → Type} {ε α β : Type} {A B : Op → Prop}

/-- Whatever the operations answer, the program issues those of `A` only. -/
def Issues (A : Op → Prop) : Prog Res ε α → Prop
  | .pure _ | .raise _ => True
  | .op o k => A o ∧ ∀ r, Issues A (k r)

theorem Issues.mono {p : Prog Res ε α} (h : Issues A p) (hA : ∀ o, A o → B o) : Issues B p := by
  induction p with
  | pure a => trivial
  | raise e => trivial
  | op o k ih => exact ⟨hA o h.1, fun r => ih r (h.2 r)⟩

theorem Issues.bind {p : Prog Res ε α} {f : α → Prog Res ε β} (h : Issues A p)
    (hf : ∀ a, Issues A (f a)) : Issues A (p >>= f) := by
  induction p with
  | pure a => exact hf a
  | raise e => trivial
  | op o k ih => exact ⟨h.1, fun r => ih r (h.2 r)⟩

theorem Issues.tryCatch {p : Prog Res ε α} {f : ε → Prog Res ε α} (h : Issues A p)
    (hf : ∀ e, Issues A (f e)) : Issues A (p.tryCatch f) := by
  induction p with
  | pure a => trivial
  | raise e => exact hf e
  | op o k ih => exact ⟨h.1, fun r => ih r (h.2 r)⟩

theorem issues_lift {r : Except ε α} : Issues A (lift r : Prog Res ε α) := by
  cases r <;> trivial

theorem issues_call {o : Op} (h : A o) : Issues A (call o : Prog Res ε (Res o)) :=
  ⟨h, fun _ => issues_lift⟩

/-- A program that lets exceptions through issues what it is said to. -/
theorem Straight.issues {R : Except ε α → Prop} {p : Prog Res ε α} (h : Straight A R p) :
    Issues A p := by
  induction p with
  | pure a => trivial
  | raise e => trivial
  | op o k ih =>
    obtain ⟨hA, hk, hthrough⟩ := h
    refine ⟨hA, fun r => ?_⟩
    cases r with
    | ok a => exact ih _ (hk a)
    | error e =>
      rw [hthrough e]
      trivial

/-! ## Operations and results -/

/-- After these operations the program has issued, whenever it returns, those its result allows. -/
def Heralds (B : α → Op → Prop) (issued : List Op) : Prog Res ε α → Prop
  | .pure a => ∀ o ∈ issued, B a o
  | .raise _ => True
  | .op o k => ∀ r, Heralds B (issued ++ [o]) (k r)

variable {C : β → Op → Prop} {issued : List Op}

/-- First operations of one kind, then some that the result allows. -/
theorem Heralds.bind {p : Prog Res ε α} {f : α → Prog Res ε β} (h : Issues A p)
    (hissued : ∀ o ∈ issued, A o)
    (hf : ∀ a issued', (∀ o ∈ issued', A o) → Heralds C issued' (f a)) :
    Heralds C issued (p >>= f) := by
  induction p generalizing issued with
  | pure a => exact hf a issued hissued
  | raise e => trivial
  | op o k ih =>
    refine fun r => ih r (h.2 r) fun o' ho' => ?_
    rcases List.mem_append.1 ho' with ho' | ho'
    · exact hissued o' ho'
    · rw [List.mem_singleton.1 ho']
      exact h.1

/-- What the result allows may come before it. -/
theorem heralds_pure {p : Prog Res ε β} {a : α} {D : α → Op → Prop} (h : Issues (D a) p)
    (hissued : ∀ o ∈ issued, D a o) : Heralds D issued (p >>= fun _ => .pure a) :=
  Heralds.bind h hissued fun _ _ hall => hall

variable {Local Shared : Type} {exec : Exec Res ε Local Shared}

/-- **A run that returns has issued operations of its result.** What `J` says of the state and the
operations issued, it says at the end. -/
theorem Heralds.run {J : Local → List Op → Prop} {p : Prog Res ε β} {l : Local} {s : Shared}
    (h : Heralds C issued p)
    (hkeep : ∀ o l s issued, J l issued → J (exec o l s).2.1 (issued ++ [o]))
    (hJ : J l issued) {b : β} (hrun : (Prog.run exec p l s).1 = .ok b) :
    ∃ issued', J (Prog.run exec p l s).2.1 issued' ∧ ∀ o ∈ issued', C b o := by
  induction p generalizing l s issued with
  | pure a =>
    obtain rfl := Except.ok.inj hrun
    exact ⟨issued, hJ, h⟩
  | raise e => cases hrun
  | op o k ih => exact ih _ (h _) (hkeep o l s issued hJ) hrun

end Prog

/-! ## Answers in a pool -/

namespace Interleaving

open Prog
open Machine (Reaches)

variable {Op : Type} {Res : Op → Type} {ε α Local Shared τ : Type}
  {rules : Rules Res ε α Local Shared τ}

/-- **Every program of a reachable pool ends as it makes of its answers**, when in the pools known
as `S` operations give those of `A` only. -/
theorem answered_of_reaches {S : Pool Res ε α Local Shared τ → Prop}
    {A : (o : Op) → Except ε (Res o) → Prop} {Q : τ → Except ε α → Prop} {s : Shared}
    (hS : ∀ {pool}, Reaches (step rules) ⟨[], s⟩ pool → S pool)
    (hprogram : ∀ t, Answered A (Q t) (rules.program t))
    (hanswer : ∀ {before after t o k l s}, S ⟨before ++ ⟨t, .op o k, l⟩ :: after, s⟩ →
      (∀ other ∈ before ++ after, rules.enabled o l s other.here = true) →
      A o (rules.exec o l s).1)
    {pool : Pool Res ε α Local Shared τ} (hreach : Reaches (step rules) ⟨[], s⟩ pool) :
    ∀ th ∈ pool.threads, Answered A (Q th.tag) th.prog := by
  induction hreach with
  | refl => simp
  | @tail mid _ action hreach hstep ih =>
    obtain ⟨threads, shared⟩ := mid
    cases action with
    | start t =>
      obtain rfl := Option.some.inj hstep
      intro th hth
      rcases List.mem_append.1 hth with hth | hth
      · exact ih th hth
      · obtain rfl := List.mem_singleton.1 hth
        exact hprogram t
    | stop i =>
      obtain rfl := Option.some.inj hstep
      exact fun th hth => ih th (List.mem_of_mem_eraseIdx hth)
    | run i =>
      obtain ⟨before, after, t, o, k, l, rfl, -, henabled, rfl⟩ := run_cases hstep
      intro th hth
      rcases List.mem_append.1 hth with hother | hother
      · exact ih th (by simp [hother])
      · rcases List.mem_cons.1 hother with rfl | hother
        · -- the answer is one of those allowed
          exact ih ⟨t, .op o k, l⟩ (by simp) _ (hanswer (hS hreach) henabled)
        · exact ih th (by simp [hother])

end Interleaving
