import Mathlib.Tactic.Basic

/-!
# Interaction programs

A program that talks to its environment through operations `Op` and may raise exceptions `ε`:
it returns, raises, or issues one operation and goes on with the outcome, itself a result or an
exception. `do` blocks with `throw` and `try … catch` build such programs.

`run` executes a program alone, against operations given as state transformers. The state is split
into a part of the program's own (`Local`) and a part it shares with others (`Shared`), so that the
same operations also serve an interleaving of programs.

* **`run_bind`**, **`run_tryCatch`**: how a composed program runs.
* **`Ends.bind`**, **`Ends.tryCatch`**: the same as proof rules.
* **`Straight.ends`**: a program whose operations all keep a property keeps it.
-/

/-- A program over operations `Op`, operation `o` having results in `Res o`. -/
inductive Prog {Op : Type} (Res : Op → Type) (ε α : Type) : Type where
  | pure (a : α)
  | raise (e : ε)
  | op (o : Op) (k : Except ε (Res o) → Prog Res ε α)

namespace Prog

variable {Op : Type} {Res : Op → Type} {ε α β : Type}

/-- Go on with the result of `p`. -/
def bind (p : Prog Res ε α) (f : α → Prog Res ε β) : Prog Res ε β :=
  match p with
  | .pure a => f a
  | .raise e => .raise e
  | .op o k => .op o fun r => (k r).bind f

/-- Go on with the exception of `p`, if it raises one. -/
def tryCatch (p : Prog Res ε α) (f : ε → Prog Res ε α) : Prog Res ε α :=
  match p with
  | .pure a => .pure a
  | .raise e => f e
  | .op o k => .op o fun r => (k r).tryCatch f

instance : Monad (Prog Res ε) where
  pure := .pure
  bind := bind

instance : MonadExceptOf ε (Prog Res ε) where
  throw := .raise
  tryCatch := tryCatch

/-- A computation without operations. -/
def lift : Except ε α → Prog Res ε α
  | .ok a => .pure a
  | .error e => .raise e

/-- Issue one operation; its exception is raised here. -/
def call (o : Op) : Prog Res ε (Res o) := .op o lift

@[simp] theorem pure_bind (a : α) (f : α → Prog Res ε β) : (Prog.pure a >>= f) = f a := rfl

@[simp] theorem pure_bind' (a : α) (f : α → Prog Res ε β) :
    ((Pure.pure a : Prog Res ε α) >>= f) = f a := rfl

@[simp] theorem raise_bind (e : ε) (f : α → Prog Res ε β) :
    ((Prog.raise e : Prog Res ε α) >>= f) = .raise e := rfl

@[simp] theorem op_bind (o : Op) (k : Except ε (Res o) → Prog Res ε α) (f : α → Prog Res ε β) :
    (Prog.op o k >>= f) = .op o fun r => k r >>= f := rfl

@[simp] theorem call_bind (o : Op) (f : Res o → Prog Res ε β) :
    (call o >>= f) = .op o fun r => lift r >>= f := rfl

@[simp] theorem lift_ok (a : α) : (lift (.ok a) : Prog Res ε α) = .pure a := rfl

@[simp] theorem lift_error (e : ε) : (lift (.error e) : Prog Res ε α) = .raise e := rfl

/-- How composed programs are bracketed does not matter. -/
theorem bind_bind {γ : Type} (p : Prog Res ε α) (f : α → Prog Res ε β) (g : β → Prog Res ε γ) :
    (p >>= f >>= g) = p >>= fun a => f a >>= g := by
  induction p with
  | pure a => rfl
  | raise e => rfl
  | op o k ih =>
    show Prog.op o (fun r => (k r >>= f) >>= g) = .op o fun r => k r >>= fun a => f a >>= g
    exact congrArg (Prog.op o) (funext fun r => ih r)

/-! ## Running a program alone -/

section Run

variable {Local Shared : Type}

/-- The effect of the operations. -/
abbrev Exec (Res : Op → Type) (ε Local Shared : Type) :=
  (o : Op) → Local → Shared → Except ε (Res o) × Local × Shared

variable (exec : Exec Res ε Local Shared)

/-- Run a program to its end, nothing else running. -/
def run : Prog Res ε α → Local → Shared → Except ε α × Local × Shared
  | .pure a, l, s => (.ok a, l, s)
  | .raise e, l, s => (.error e, l, s)
  | .op o k, l, s =>
    let done := exec o l s
    run (k done.1) done.2.1 done.2.2

@[simp] theorem run_pure (a : α) (l : Local) (s : Shared) :
    run exec (.pure a : Prog Res ε α) l s = (.ok a, l, s) := rfl

@[simp] theorem run_pure' (a : α) (l : Local) (s : Shared) :
    run exec (Pure.pure a : Prog Res ε α) l s = (.ok a, l, s) := rfl

@[simp] theorem run_raise (e : ε) (l : Local) (s : Shared) :
    run exec (.raise e : Prog Res ε α) l s = (.error e, l, s) := rfl

@[simp] theorem run_throw (e : ε) (l : Local) (s : Shared) :
    run exec (MonadExceptOf.throw e : Prog Res ε α) l s = (.error e, l, s) := rfl

theorem run_op (o : Op) (k : Except ε (Res o) → Prog Res ε α) (l : Local) (s : Shared) :
    run exec (.op o k) l s
      = run exec (k (exec o l s).1) (exec o l s).2.1 (exec o l s).2.2 := rfl

@[simp] theorem run_lift (r : Except ε α) (l : Local) (s : Shared) :
    run exec (lift r : Prog Res ε α) l s = (r, l, s) := by
  cases r <;> rfl

@[simp] theorem run_call (o : Op) (l : Local) (s : Shared) :
    run exec (call o : Prog Res ε (Res o)) l s = exec o l s := by
  rw [call, run_op, run_lift]

/-- **A composed program runs its parts in turn**; an exception of the first skips the second. -/
theorem run_bind (p : Prog Res ε α) (f : α → Prog Res ε β) (l : Local) (s : Shared) :
    run exec (p >>= f) l s = match run exec p l s with
      | (.ok a, l', s') => run exec (f a) l' s'
      | (.error e, l', s') => (.error e, l', s') := by
  induction p generalizing l s with
  | pure a => rfl
  | raise e => rfl
  | op o k ih =>
    show run exec (k (exec o l s).1 >>= f) (exec o l s).2.1 (exec o l s).2.2 = _
    rw [ih, run_op]

theorem run_tryCatch (p : Prog Res ε α) (f : ε → Prog Res ε α) (l : Local) (s : Shared) :
    run exec (p.tryCatch f) l s = match run exec p l s with
      | (.ok a, l', s') => (.ok a, l', s')
      | (.error e, l', s') => run exec (f e) l' s' := by
  induction p generalizing l s with
  | pure a => rfl
  | raise e => rfl
  | op o k ih =>
    show run exec ((k (exec o l s).1).tryCatch f) (exec o l s).2.1 (exec o l s).2.2 = _
    rw [ih, run_op]

/-- The second part runs after a first part that returns. -/
theorem run_bind_ok {p : Prog Res ε α} {f : α → Prog Res ε β} {l l' : Local} {s s' : Shared} {a : α}
    (h : run exec p l s = (.ok a, l', s')) : run exec (p >>= f) l s = run exec (f a) l' s' := by
  rw [run_bind, h]

end Run

/-! ## What a program ends with -/

section Ends

variable {Local Shared : Type} {exec : Exec Res ε Local Shared}
  {Q R : Except ε α → Local → Shared → Prop}

/-- Run alone from here, the program ends with an outcome and a state for which `Q` holds. -/
def Ends (exec : Exec Res ε Local Shared) (Q : Except ε α → Local → Shared → Prop)
    (p : Prog Res ε α) (l : Local) (s : Shared) : Prop :=
  Q (run exec p l s).1 (run exec p l s).2.1 (run exec p l s).2.2

theorem Ends.mono {p : Prog Res ε α} {l : Local} {s : Shared} (h : Ends exec Q p l s)
    (hQ : ∀ r l s, Q r l s → R r l s) : Ends exec R p l s := hQ _ _ _ h

/-- **The rule for sequencing.** -/
theorem Ends.bind {R : Except ε β → Local → Shared → Prop} {p : Prog Res ε α}
    {f : α → Prog Res ε β} {l : Local} {s : Shared} (h : Ends exec Q p l s)
    (hok : ∀ a l s, Q (.ok a) l s → Ends exec R (f a) l s)
    (herror : ∀ e l s, Q (.error e) l s → R (.error e) l s) : Ends exec R (p >>= f) l s := by
  unfold Ends at h ⊢
  rw [run_bind]
  rcases hrun : run exec p l s with ⟨a | e, l', s'⟩ <;> rw [hrun] at h
  · exact herror _ _ _ h
  · exact hok _ _ _ h

theorem Ends.tryCatch {p : Prog Res ε α} {f : ε → Prog Res ε α} {l : Local} {s : Shared}
    (h : Ends exec Q p l s) (hok : ∀ a l s, Q (.ok a) l s → R (.ok a) l s)
    (herror : ∀ e l s, Q (.error e) l s → Ends exec R (f e) l s) :
    Ends exec R (p.tryCatch f) l s := by
  unfold Ends at h ⊢
  rw [run_tryCatch]
  rcases hrun : run exec p l s with ⟨a | e, l', s'⟩ <;> rw [hrun] at h
  · exact herror _ _ _ h
  · exact hok _ _ _ h

end Ends

/-! ## Programs that let exceptions through -/

/-- The program issues operations of the set only, lets their exceptions through, and otherwise ends
with what `R` allows. -/
def Straight (A : Op → Prop) (R : Except ε α → Prop) : Prog Res ε α → Prop
  | .pure a => R (.ok a)
  | .raise e => R (.error e)
  | .op o k => A o ∧ (∀ a, Straight A R (k (.ok a))) ∧ ∀ e, k (.error e) = .raise e

section Straight

variable {A B : Op → Prop} {R R' : Except ε α → Prop}

theorem straight_lift {r : Except ε α} (h : R r) : Straight A R (lift r : Prog Res ε α) := by
  cases r with
  | ok a => exact h
  | error e => exact h

theorem straight_call {o : Op} {R : Except ε (Res o) → Prop} (h : A o) (hR : ∀ a, R (.ok a)) :
    Straight A R (call o : Prog Res ε (Res o)) := ⟨h, hR, fun _ => rfl⟩

/-- An operation, and what follows it. -/
theorem straight_call_bind {R : Except ε β → Prop} {o : Op} {f : Res o → Prog Res ε β} (h : A o)
    (hf : ∀ a, Straight A R (f a)) : Straight A R (call o >>= f) := ⟨h, hf, fun _ => rfl⟩

theorem Straight.mono {p : Prog Res ε α} (h : Straight A R p) (hA : ∀ o, A o → B o)
    (hR : ∀ r, R r → R' r) : Straight B R' p := by
  induction p with
  | pure a => exact hR _ h
  | raise e => exact hR _ h
  | op o k ih => exact ⟨hA o h.1, fun a => ih _ (h.2.1 a), h.2.2⟩

theorem Straight.bind {R' : Except ε β → Prop} {p : Prog Res ε α} {f : α → Prog Res ε β}
    (h : Straight A R p) (hf : ∀ a, R (.ok a) → Straight A R' (f a))
    (he : ∀ e, R (.error e) → R' (.error e)) : Straight A R' (p >>= f) := by
  induction p with
  | pure a => exact hf a h
  | raise e => exact he e h
  | op o k ih =>
    refine ⟨h.1, fun a => ih _ (h.2.1 a), fun e => ?_⟩
    show k (.error e) >>= f = .raise e
    rw [h.2.2 e]
    rfl

/-- `P` of a returned value, `E` of an exception. -/
def Outcome (P : α → Prop) (E : ε → Prop) : Except ε α → Prop
  | .ok a => P a
  | .error e => E e

theorem Outcome.mono {P P' : α → Prop} {E E' : ε → Prop} {r : Except ε α} (h : Outcome P E r)
    (hP : ∀ a, P a → P' a) (hE : ∀ e, E e → E' e) : Outcome P' E' r := by
  cases r with
  | ok a => exact hP a h
  | error e => exact hE e h

/-- A program that only returns what it is given. -/
theorem straight_pure {a : α} (h : R (.ok a)) : Straight A R (Pure.pure a : Prog Res ε α) := h

/-- What holds at the end: of a returned value and the state, or of an exception and the state. -/
def After {Local Shared : Type} (R : Except ε α → Prop) (J : Local → Shared → Prop)
    (F : ε → Local → Shared → Prop) : Except ε α → Local → Shared → Prop
  | .ok a, l, s => R (.ok a) ∧ J l s
  | .error e, l, s => F e l s

/-- **What every operation of the set keeps, the program keeps.** -/
theorem Straight.ends {Local Shared : Type} {exec : Exec Res ε Local Shared}
    {J : Local → Shared → Prop} {F : ε → Local → Shared → Prop} {p : Prog Res ε α}
    (h : Straight A R p)
    (hop : ∀ o l s, A o → J l s →
      After (fun _ => True) J F (exec o l s).1 (exec o l s).2.1 (exec o l s).2.2)
    (hraise : ∀ e l s, R (.error e) → J l s → F e l s) {l : Local} {s : Shared} (hJ : J l s) :
    Ends exec (After R J F) p l s := by
  induction p generalizing l s with
  | pure a => exact ⟨h, hJ⟩
  | raise e => exact hraise e l s h hJ
  | op o k ih =>
    obtain ⟨hA, hk, he⟩ := h
    have hafter := hop o l s hA hJ
    show Ends exec _ (k (exec o l s).1) (exec o l s).2.1 (exec o l s).2.2
    cases hr : (exec o l s).1 with
    | ok a =>
      rw [hr] at hafter
      exact ih _ (hk a) hafter.2
    | error e =>
      rw [hr] at hafter
      rw [he e]
      exact hafter

end Straight

end Prog
