import TaskService.Lib.Interleaving
import Mathlib.Data.List.InsertIdx

/-!
# Programs that keep notes

What a program has been told is in its continuation, where no invariant can read it. Here a program
keeps notes beside its local state: every operation brings them up to date and none reads them. So a
pool of programs with notes moves exactly as the pool without, and an invariant of the one speaks of
the other.

`Conforms` is the verification condition that goes with it: it asks nothing of the shared state, so
it holds of a program alone and of a program among any others.

* **`Conforms.bind`**, **`Conforms.tryCatch`**, **`conforms_call`**: the proof rules.
* **`Answered.bind`**, **`Conforms.answered`**: what a program ends with, from what it is answered.
* **`Conforms.run`**, **`conforms_of_reaches`**: what a verified program does, alone and in a pool.
* **`exists_reaches`**: what is reachable is so with notes.
-/

namespace Interleaving

open Prog
open Machine (Reaches)

variable {Op : Type} {Res : Op → Type} {ε α β Local Shared τ N : Type}

/-! ## One program in any surroundings -/

/-- Whatever the shared state is at each operation, the program issues its operations as `D` says
and ends as `Q` says. -/
def Conforms (exec : Exec Res ε Local Shared) (D : Op → Local → Prop)
    (Q : Except ε α → Local → Prop) : Prog Res ε α → Local → Prop
  | .pure a, l => Q (.ok a) l
  | .raise e, l => Q (.error e) l
  | .op o k, l => D o l ∧ ∀ s, Conforms exec D Q (k (exec o l s).1) (exec o l s).2.1

section Rules

variable {exec : Exec Res ε Local Shared} {D : Op → Local → Prop} {Q Q' : Except ε α → Local → Prop}
  {l : Local}

theorem Conforms.mono {p : Prog Res ε α} (h : Conforms exec D Q p l)
    (hQ : ∀ r l, Q r l → Q' r l) : Conforms exec D Q' p l := by
  induction p generalizing l with
  | pure a => exact hQ _ _ h
  | raise e => exact hQ _ _ h
  | op o k ih => exact ⟨h.1, fun s => ih _ (h.2 s)⟩

/-- **The rule for sequencing.** -/
theorem Conforms.bind {R : Except ε β → Local → Prop} {p : Prog Res ε α} {f : α → Prog Res ε β}
    (h : Conforms exec D Q p l) (hok : ∀ a l, Q (.ok a) l → Conforms exec D R (f a) l)
    (herror : ∀ e l, Q (.error e) l → R (.error e) l) : Conforms exec D R (p >>= f) l := by
  induction p generalizing l with
  | pure a => exact hok a l h
  | raise e => exact herror e l h
  | op o k ih => exact ⟨h.1, fun s => ih _ (h.2 s)⟩

theorem Conforms.tryCatch {p : Prog Res ε α} {f : ε → Prog Res ε α} (h : Conforms exec D Q p l)
    (hok : ∀ a l, Q (.ok a) l → Q' (.ok a) l)
    (herror : ∀ e l, Q (.error e) l → Conforms exec D Q' (f e) l) :
    Conforms exec D Q' (p.tryCatch f) l := by
  induction p generalizing l with
  | pure a => exact hok a l h
  | raise e => exact herror e l h
  | op o k ih => exact ⟨h.1, fun s => ih _ (h.2 s)⟩

/-- A duty that every operation meets. -/
theorem conforms_of_forall (hD : ∀ o l, D o l) (hQ : ∀ r l, Q r l) (p : Prog Res ε α) (l : Local) :
    Conforms exec D Q p l := by
  induction p generalizing l with
  | pure a => exact hQ _ _
  | raise e => exact hQ _ _
  | op o k ih => exact ⟨hD o l, fun s => ih _ _⟩

theorem conforms_lift {r : Except ε α} (h : Q r l) : Conforms exec D Q (lift r) l := by
  cases r with
  | ok a => exact h
  | error e => exact h

/-- **The rule for one operation.** -/
theorem conforms_call {o : Op} {Q : Except ε (Res o) → Local → Prop} (hD : D o l)
    (hQ : ∀ s, Q (exec o l s).1 (exec o l s).2.1) : Conforms exec D Q (call o) l :=
  ⟨hD, fun s => conforms_lift (hQ s)⟩

/-- **The rule for a program of one kind of operations**: what each of them keeps, it keeps. -/
theorem Straight.conforms {A : Op → Prop} {R : Except ε α → Prop} {J : Local → Prop}
    {F : ε → Local → Prop} {p : Prog Res ε α} (h : Straight A R p)
    (hD : ∀ o l, A o → J l → D o l)
    (hop : ∀ o l s, A o → J l →
      After (fun _ => True) (fun l _ => J l) (fun e l _ => F e l) (exec o l s).1 (exec o l s).2.1 s)
    (hraise : ∀ e l, R (.error e) → J l → F e l) (hJ : J l) :
    Conforms exec D
      (fun r l => (∀ a, r = .ok a → R (.ok a) ∧ J l) ∧ ∀ e, r = .error e → F e l) p l := by
  induction p generalizing l with
  | pure a =>
    refine ⟨fun b hb => ?_, fun e he => nomatch he⟩
    obtain rfl := Except.ok.inj hb
    exact ⟨h, hJ⟩
  | raise e =>
    refine ⟨fun b hb => (nomatch hb), fun e' he => ?_⟩
    obtain rfl := Except.error.inj he
    exact hraise e l h hJ
  | op o k ih =>
    obtain ⟨hA, hk, hthrough⟩ := h
    refine ⟨hD o l hA hJ, fun s => ?_⟩
    have hafter := hop o l s hA hJ
    cases hr : (exec o l s).1 with
    | ok a =>
      rw [hr] at hafter
      exact ih _ (hk a) hafter.2
    | error e =>
      rw [hr] at hafter
      rw [hthrough e]
      refine ⟨fun b hb => (nomatch hb), fun e' he => ?_⟩
      obtain rfl := Except.error.inj he
      exact hafter

/-- Run alone, the program ends as it should, and what its operations keep is kept. -/
theorem Conforms.run {J : Local → Shared → Prop} {p : Prog Res ε α} (h : Conforms exec D Q p l)
    (hkeep : ∀ o l s, D o l → J l s → J (exec o l s).2.1 (exec o l s).2.2) {s : Shared}
    (hJ : J l s) :
    Q (Prog.run exec p l s).1 (Prog.run exec p l s).2.1
      ∧ J (Prog.run exec p l s).2.1 (Prog.run exec p l s).2.2 := by
  induction p generalizing l s with
  | pure a => exact ⟨h, hJ⟩
  | raise e => exact ⟨h, hJ⟩
  | op o k ih => exact ih _ (h.2 s) (hkeep o l s h.1 hJ)

end Rules

/-! ## What a program makes of its answers -/

/-- Whatever the operations answer, as long as it is what `A` allows, the program ends as
`Q` says. -/
def Answered (A : (o : Op) → Except ε (Res o) → Prop) (Q : Except ε α → Prop) : Prog Res ε α → Prop
  | .pure a => Q (.ok a)
  | .raise e => Q (.error e)
  | .op o k => ∀ r, A o r → Answered A Q (k r)

section Answers

variable {A : (o : Op) → Except ε (Res o) → Prop} {Q Q' : Except ε α → Prop}

theorem Answered.mono {p : Prog Res ε α} (h : Answered A Q p) (hQ : ∀ r, Q r → Q' r) :
    Answered A Q' p := by
  induction p with
  | pure a => exact hQ _ h
  | raise e => exact hQ _ h
  | op o k ih => exact fun r hr => ih r (h r hr)

/-- **The rule for sequencing.** -/
theorem Answered.bind {R : Except ε β → Prop} {p : Prog Res ε α} {f : α → Prog Res ε β}
    (h : Answered A Q p) (hok : ∀ a, Q (.ok a) → Answered A R (f a))
    (herror : ∀ e, Q (.error e) → R (.error e)) : Answered A R (p >>= f) := by
  induction p with
  | pure a => exact hok a h
  | raise e => exact herror e h
  | op o k ih => exact fun r hr => ih r (h r hr)

theorem Answered.tryCatch {p : Prog Res ε α} {f : ε → Prog Res ε α} (h : Answered A Q p)
    (hok : ∀ a, Q (.ok a) → Q' (.ok a)) (herror : ∀ e, Q (.error e) → Answered A Q' (f e)) :
    Answered A Q' (p.tryCatch f) := by
  induction p with
  | pure a => exact hok a h
  | raise e => exact herror e h
  | op o k ih => exact fun r hr => ih r (h r hr)

theorem answered_lift {r : Except ε α} (h : Q r) : Answered A Q (lift r) := by
  cases r with
  | ok a => exact h
  | error e => exact h

/-- **The rule for one operation.** -/
theorem answered_call {o : Op} {Q : Except ε (Res o) → Prop} (h : ∀ r, A o r → Q r) :
    Answered A Q (call o) := fun r hr => answered_lift (h r hr)

/-- A program that lets exceptions through ends with one of them, or as it does without. -/
theorem Straight.answered {B : Op → Prop} {R : Except ε α → Prop} {p : Prog Res ε α}
    (h : Straight B R p) (hR : ∀ r, R r → Q r)
    (herror : ∀ o e, B o → A o (.error e) → Q (.error e)) : Answered A Q p := by
  induction p with
  | pure a => exact hR _ h
  | raise e => exact hR _ h
  | op o k ih =>
    obtain ⟨hB, hk, hthrough⟩ := h
    intro r hr
    cases r with
    | ok a => exact ih _ (hk a)
    | error e =>
      rw [hthrough e]
      exact herror o e hB hr

/-- Run alone on operations that only give allowed answers, a program ends as it makes of them. -/
theorem Answered.run {exec : Exec Res ε Local Shared} {p : Prog Res ε α} (ha : Answered A Q p)
    (hop : ∀ o l s, A o (exec o l s).1) (l : Local) (s : Shared) : Q (Prog.run exec p l s).1 := by
  induction p generalizing l s with
  | pure a => exact ha
  | raise e => exact ha
  | op o k ih => exact ih _ (ha _ (hop o l s)) _ _

/-- **Run alone, a verified program gets allowed answers**, so it ends as it makes of them. -/
theorem Conforms.answered {exec : Exec Res ε Local Shared} {D : Op → Local → Prop}
    {E : Except ε α → Local → Prop} {J : Local → Shared → Prop} {p : Prog Res ε α} {l : Local}
    (h : Conforms exec D E p l) (ha : Answered A Q p)
    (hop : ∀ o l s, D o l → J l s → A o (exec o l s).1 ∧ J (exec o l s).2.1 (exec o l s).2.2)
    {s : Shared} (hJ : J l s) : Q (Prog.run exec p l s).1 := by
  induction p generalizing l s with
  | pure a => exact ha
  | raise e => exact ha
  | op o k ih =>
    obtain ⟨hanswer, hkeep⟩ := hop o l s h.1 hJ
    exact ih _ (h.2 s) (ha _ hanswer) hkeep

end Answers

/-- **In every reachable pool every verified program is so from where it stands.** -/
theorem conforms_of_reaches {rules : Rules Res ε α Local Shared τ} {D : τ → Op → Local → Prop}
    {Q : τ → Except ε α → Local → Prop}
    (hprogram : ∀ t, Conforms rules.exec (D t) (Q t) (rules.program t) rules.fresh)
    {s : Shared} {pool : Pool Res ε α Local Shared τ} (h : Reaches (step rules) ⟨[], s⟩ pool) :
    ∀ th ∈ pool.threads, Conforms rules.exec (D th.tag) (Q th.tag) th.prog th.here :=
  threads_of_reaches (P := fun t p l => Conforms rules.exec (D t) (Q t) p l) hprogram
    (fun _ _ _ _ s hconforms => hconforms.2 s) h

/-! ## Notes -/

section Notes

variable (note : (o : Op) → Local → Except ε (Res o) → N → N)

/-- The same operations, each outcome noted. -/
def observe (exec : Exec Res ε Local Shared) : Exec Res ε (Local × N) Shared := fun o l s =>
  ((exec o l.1 s).1, ((exec o l.1 s).2.1, note o l.1 (exec o l.1 s).1 l.2), (exec o l.1 s).2.2)

/-- Notes change nothing in what a program does alone. -/
theorem run_observe (exec : Exec Res ε Local Shared) (p : Prog Res ε α) (l : Local × N)
    (s : Shared) :
    (run (observe note exec) p l s).1 = (run exec p l.1 s).1
      ∧ (run (observe note exec) p l s).2.1.1 = (run exec p l.1 s).2.1
      ∧ (run (observe note exec) p l s).2.2 = (run exec p l.1 s).2.2 := by
  induction p generalizing l s with
  | pure a => exact ⟨rfl, rfl, rfl⟩
  | raise e => exact ⟨rfl, rfl, rfl⟩
  | op o k ih => exact ih _ _ _

variable (start : N)

/-- The same rules, every program starting with these notes. -/
def Rules.observe (rules : Rules Res ε α Local Shared τ) : Rules Res ε α (Local × N) Shared τ where
  exec := Interleaving.observe note rules.exec
  program := rules.program
  fresh := (rules.fresh, start)
  enabled o l s other := rules.enabled o l.1 s other.1

/-- A thread without its notes. -/
def Thread.forget (th : Thread Res ε α (Local × N) τ) : Thread Res ε α Local τ :=
  ⟨th.tag, th.prog, th.here.1⟩

/-- A pool without the notes. -/
def Pool.forget (pool : Pool Res ε α (Local × N) Shared τ) : Pool Res ε α Local Shared τ :=
  ⟨pool.threads.map Thread.forget, pool.shared⟩

variable {note start} {rules : Rules Res ε α Local Shared τ}

/-- **A pool moves as it does without the notes.** -/
theorem step_forget (pool : Pool Res ε α (Local × N) Shared τ) (action : Action τ) :
    step rules pool.forget action
      = (step (rules.observe note start) pool action).map Pool.forget := by
  cases action with
  | start t => simp [step, Pool.forget, Thread.forget, Rules.observe]
  | stop i => simp [step, Pool.forget, List.eraseIdx_map]
  | run i =>
    show runThread rules pool.forget i
      = (runThread (rules.observe note start) pool i).map Pool.forget
    have hget : pool.forget.threads[i]? = pool.threads[i]?.map Thread.forget := List.getElem?_map
    unfold runThread
    rw [hget]
    cases pool.threads[i]? with
    | none => rfl
    | some th =>
      obtain ⟨t, p, l, n⟩ := th
      cases p with
      | pure a => rfl
      | raise e => rfl
      | op o k =>
        -- The notes decide nothing: an operation is let through by what the others hold, as without
        -- them.
        have hall : (pool.forget.threads.eraseIdx i).all
              (fun other => rules.enabled o l pool.shared other.here)
            = (pool.threads.eraseIdx i).all fun other =>
              rules.enabled o l pool.shared other.here.1 := by
          simp [Pool.forget, List.eraseIdx_map, List.all_map, Function.comp_def, Thread.forget]
        show (if (pool.forget.threads.eraseIdx i).all
              (fun other => rules.enabled o l pool.shared other.here) then _ else none)
          = Option.map Pool.forget (if (pool.threads.eraseIdx i).all
              (fun other => rules.enabled o l pool.shared other.here.1) then _ else none)
        rw [hall]
        split
        · simp [Pool.forget, List.map_set, Thread.forget, Rules.observe, Interleaving.observe]
        · rfl

theorem step_forget_of_step {pool pool' : Pool Res ε α (Local × N) Shared τ} {action : Action τ}
    (h : step (rules.observe note start) pool action = some pool') :
    step rules pool.forget action = some pool'.forget := by
  rw [step_forget, h]
  rfl

theorem exists_step {pool : Pool Res ε α (Local × N) Shared τ} {pool' : Pool Res ε α Local Shared τ}
    {action : Action τ} (h : step rules pool.forget action = some pool') :
    ∃ noted, step (rules.observe note start) pool action = some noted ∧ noted.forget = pool' := by
  have hforget : step rules pool.forget action
      = (step (rules.observe note start) pool action).map Pool.forget := step_forget pool action
  rw [hforget] at h
  exact Option.map_eq_some_iff.1 h

/-- **What is reachable is so with notes.** -/
theorem exists_reaches {pool : Pool Res ε α (Local × N) Shared τ}
    {pool' : Pool Res ε α Local Shared τ} (h : Reaches (step rules) pool.forget pool') :
    ∃ noted, Reaches (step (rules.observe note start)) pool noted ∧ noted.forget = pool' := by
  induction h with
  | refl => exact ⟨pool, .refl, rfl⟩
  | tail action _ hstep ih =>
    obtain ⟨noted, hreach, rfl⟩ := ih
    obtain ⟨noted', hstep', rfl⟩ := exists_step hstep
    exact ⟨noted', hreach.tail action hstep', rfl⟩

theorem reaches_forget {pool pool' : Pool Res ε α (Local × N) Shared τ}
    (h : Reaches (step (rules.observe note start)) pool pool') :
    Reaches (step rules) pool.forget pool'.forget := by
  induction h with
  | refl => exact .refl
  | tail action _ hstep ih => exact ih.tail action (step_forget_of_step hstep)

end Notes

end Interleaving
