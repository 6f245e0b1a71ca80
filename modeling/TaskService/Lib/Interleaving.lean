import TaskService.Lib.Machine
import TaskService.Lib.Program
import Mathlib.Data.List.Pairwise
import Mathlib.Data.List.Basic

/-!
# Interleaved programs

Any number of programs run over one shared state, one operation of one of them at a time. A program
can start at any time, be stopped at any point, and must wait before an operation that another
program's local state does not permit (a lock held elsewhere).

Proofs are by rely and guarantee. A `Contract` says what a program may assume others to do to the
shared state (`rely`) and what each of its operations owes (`duty`). `Safe` is the verification
condition of one program, by recursion on the program; it is stable under what the others do, so the
rules for `bind`, `call` and `tryCatch` compose as for a program running alone.

* **`Safe.bind`**, **`Safe.tryCatch`**, **`safe_call`**: the proof rules.
* **`Interference.sound_of_reaches`**: in every reachable pool the invariant holds, every program is
  safe where it stands, and no operation breaks its duty (`Sound.duty`).
-/

namespace Interleaving

open Prog
open Machine (Reaches)

variable {Op : Type} {Res : Op → Type} {ε α β Local Shared τ : Type}

/-! ## Contracts -/

/-- What one program may assume and owes. -/
structure Contract (Op Local Shared : Type) where
  /-- what others may do to the shared state, given the program's local state -/
  rely : Local → Shared → Shared → Prop
  /-- what must hold when the program issues an operation -/
  duty : Op → Local → Shared → Prop
  rely_refl : ∀ l s, rely l s s
  rely_trans : ∀ {l s s' s''}, rely l s s' → rely l s' s'' → rely l s s''

variable (exec : Exec Res ε Local Shared) (I : Shared → Prop) (C : Contract Op Local Shared)

/-- From here on the program keeps the invariant and its contract, and what it ends with satisfies
`Q`. -/
def Safe (Q : Except ε α → Local → Shared → Prop) : Prog Res ε α → Local → Shared → Prop
  | .pure a, l, s => ∀ s', I s' → C.rely l s s' → Q (.ok a) l s'
  | .raise e, l, s => ∀ s', I s' → C.rely l s s' → Q (.error e) l s'
  | .op o k, l, s => ∀ s', I s' → C.rely l s s' →
      C.duty o l s' ∧ I (exec o l s').2.2
        ∧ Safe Q (k (exec o l s').1) (exec o l s').2.1 (exec o l s').2.2

variable {exec I C} {Q Q' : Except ε α → Local → Shared → Prop}

/-- Safety survives what the others do. -/
theorem Safe.stable {p : Prog Res ε α} {l : Local} {s s' : Shared} (h : Safe exec I C Q p l s)
    (hr : C.rely l s s') : Safe exec I C Q p l s' := by
  cases p with
  | pure a => exact fun s'' hi hr' => h s'' hi (C.rely_trans hr hr')
  | raise e => exact fun s'' hi hr' => h s'' hi (C.rely_trans hr hr')
  | op o k => exact fun s'' hi hr' => h s'' hi (C.rely_trans hr hr')

/-- It is enough to be safe in every state the others can lead to. -/
theorem Safe.close {p : Prog Res ε α} {l : Local} {s : Shared}
    (h : ∀ s', I s' → C.rely l s s' → Safe exec I C Q p l s') : Safe exec I C Q p l s := by
  cases p with
  | pure a => exact fun s' hi hr => h s' hi hr s' hi (C.rely_refl l s')
  | raise e => exact fun s' hi hr => h s' hi hr s' hi (C.rely_refl l s')
  | op o k => exact fun s' hi hr => h s' hi hr s' hi (C.rely_refl l s')

theorem Safe.mono {p : Prog Res ε α} {l : Local} {s : Shared} (h : Safe exec I C Q p l s)
    (hQ : ∀ r l s, Q r l s → Q' r l s) : Safe exec I C Q' p l s := by
  induction p generalizing l s with
  | pure a => exact fun s' hi hr => hQ _ _ _ (h s' hi hr)
  | raise e => exact fun s' hi hr => hQ _ _ _ (h s' hi hr)
  | op o k ih =>
    intro s' hi hr
    obtain ⟨hd, hi', hk⟩ := h s' hi hr
    exact ⟨hd, hi', ih _ hk⟩

/-- **The rule for sequencing**: the first program hands over in a state from which the rest is
safe. -/
theorem Safe.bind {R : Except ε β → Local → Shared → Prop} {p : Prog Res ε α}
    {f : α → Prog Res ε β} {l : Local} {s : Shared} (h : Safe exec I C Q p l s)
    (hok : ∀ a l s, I s → Q (.ok a) l s → Safe exec I C R (f a) l s)
    (herror : ∀ e l s, I s → Q (.error e) l s → R (.error e) l s) :
    Safe exec I C R (p >>= f) l s := by
  induction p generalizing l s with
  | pure a => exact Safe.close fun s' hi hr => hok a l s' hi (h s' hi hr)
  | raise e => exact fun s' hi hr => herror e l s' hi (h s' hi hr)
  | op o k ih =>
    intro s' hi hr
    obtain ⟨hd, hi', hk⟩ := h s' hi hr
    exact ⟨hd, hi', ih _ hk⟩

theorem Safe.tryCatch {p : Prog Res ε α} {f : ε → Prog Res ε α} {l : Local} {s : Shared}
    (h : Safe exec I C Q p l s) (hok : ∀ a l s, I s → Q (.ok a) l s → Q' (.ok a) l s)
    (herror : ∀ e l s, I s → Q (.error e) l s → Safe exec I C Q' (f e) l s) :
    Safe exec I C Q' (p.tryCatch f) l s := by
  induction p generalizing l s with
  | pure a => exact fun s' hi hr => hok a l s' hi (h s' hi hr)
  | raise e => exact Safe.close fun s' hi hr => herror e l s' hi (h s' hi hr)
  | op o k ih =>
    intro s' hi hr
    obtain ⟨hd, hi', hk⟩ := h s' hi hr
    exact ⟨hd, hi', ih _ hk⟩

theorem safe_lift {r : Except ε α} {l : Local} {s : Shared}
    (h : ∀ s', I s' → C.rely l s s' → Q r l s') : Safe exec I C Q (lift r) l s := by
  cases r with
  | ok a => exact h
  | error e => exact h

/-- **The rule for one operation**: its duty, the invariant after it, and the postcondition under
whatever the others then do. -/
theorem safe_call {o : Op} {Q : Except ε (Res o) → Local → Shared → Prop} {l : Local} {s : Shared}
    (h : ∀ s', I s' → C.rely l s s' → C.duty o l s' ∧ I (exec o l s').2.2
      ∧ ∀ s'', I s'' → C.rely (exec o l s').2.1 (exec o l s').2.2 s'' →
          Q (exec o l s').1 (exec o l s').2.1 s'') :
    Safe exec I C Q (call o) l s := by
  intro s' hi hr
  obtain ⟨hd, hi', hQ⟩ := h s' hi hr
  exact ⟨hd, hi', safe_lift hQ⟩

/-- **The rule for a program of harmless operations**: each does its duty and keeps a property that
the others cannot break. -/
theorem Straight.safe {A : Op → Prop} {R : Except ε α → Prop} {J : Local → Shared → Prop}
    {F : ε → Local → Shared → Prop} {p : Prog Res ε α} (h : Straight A R p)
    (hop : ∀ o l s, A o → I s → J l s → C.duty o l s ∧ I (exec o l s).2.2
      ∧ After (fun _ => True) J F (exec o l s).1 (exec o l s).2.1 (exec o l s).2.2)
    (hraise : ∀ e l s, R (.error e) → J l s → F e l s)
    (hJ : ∀ l s s', J l s → I s' → C.rely l s s' → J l s')
    (hF : ∀ e l s s', F e l s → I s' → C.rely l s s' → F e l s') {l : Local} {s : Shared}
    (hstart : J l s) : Safe exec I C (After R J F) p l s := by
  induction p generalizing l s with
  | pure a => exact fun s' hi hr => ⟨h, hJ l s s' hstart hi hr⟩
  | raise e => exact fun s' hi hr => hF e l s s' (hraise e l s h hstart) hi hr
  | op o k ih =>
    intro s' hi hr
    obtain ⟨hA, hk, he⟩ := h
    obtain ⟨hduty, hinv, hafter⟩ := hop o l s' hA hi (hJ l s s' hstart hi hr)
    refine ⟨hduty, hinv, ?_⟩
    cases hresult : (exec o l s').1 with
    | ok a =>
      rw [hresult] at hafter
      exact ih _ (hk a) hafter.2
    | error e =>
      rw [hresult] at hafter
      rw [he e]
      exact fun s'' hi' hr' => hF e _ _ s'' hafter hi' hr'

/-! ## Pools -/

/-- A started program: what it was started for, where it stands, and its local state. -/
structure Thread (Res : Op → Type) (ε α Local τ : Type) where
  tag : τ
  prog : Prog Res ε α
  here : Local

/-- The running programs and the state they share. -/
structure Pool (Res : Op → Type) (ε α Local Shared τ : Type) where
  threads : List (Thread Res ε α Local τ)
  shared : Shared

/-- What can happen next. A thread is named by its position. -/
inductive Action (τ : Type) where
  | start (t : τ)
  | run (i : Nat)
  | stop (i : Nat)

/-- How a pool moves: the programs to start, their initial local state, and when an operation may
go ahead beside another program. -/
structure Rules (Res : Op → Type) (ε α Local Shared τ : Type) where
  exec : Exec Res ε Local Shared
  program : τ → Prog Res ε α
  fresh : Local
  enabled : Op → Local → Shared → Local → Bool

variable (rules : Rules Res ε α Local Shared τ)

/-- The next operation of the thread at position `i`: a thread at its end takes no step, and neither
does one whose operation another thread does not permit. -/
def runThread (pool : Pool Res ε α Local Shared τ) (i : Nat) :
    Option (Pool Res ε α Local Shared τ) :=
  match pool.threads[i]? with
  | some ⟨t, .op o k, l⟩ =>
    if (pool.threads.eraseIdx i).all fun other => rules.enabled o l pool.shared other.here then
      let done := rules.exec o l pool.shared
      some ⟨pool.threads.set i ⟨t, k done.1, done.2.1⟩, done.2.2⟩
    else none
  | _ => none

/-- One action, when it is possible. -/
def step (pool : Pool Res ε α Local Shared τ) : Action τ → Option (Pool Res ε α Local Shared τ)
  | .start t => some { pool with threads := pool.threads ++ [⟨t, rules.program t, rules.fresh⟩] }
  | .run i => runThread rules pool i
  | .stop i => some { pool with threads := pool.threads.eraseIdx i }

variable {rules}

/-- A thread that moved: it was at an operation, nothing stood in its way, and it alone changed. -/
theorem run_cases {pool pool' : Pool Res ε α Local Shared τ} {i : Nat}
    (h : step rules pool (.run i) = some pool') :
    ∃ before after t o k l, pool.threads = before ++ ⟨t, .op o k, l⟩ :: after ∧ before.length = i
      ∧ (∀ other ∈ before ++ after, rules.enabled o l pool.shared other.here = true)
      ∧ pool' = ⟨before ++ ⟨t, k (rules.exec o l pool.shared).1,
          (rules.exec o l pool.shared).2.1⟩ :: after, (rules.exec o l pool.shared).2.2⟩ := by
  change runThread rules pool i = some pool' at h
  unfold runThread at h
  split at h
  next t o k l hget =>
    obtain ⟨before, after, hthreads, hlen, herase, hset⟩ := Machine.split_of_getElem? hget
    split at h
    next henabled =>
      rw [herase, List.all_eq_true] at henabled
      refine ⟨before, after, t, o, k, l, hthreads, hlen, henabled, ?_⟩
      rw [← Option.some.inj h, hset]
    next => cases h
  next => cases h

/-- The same for a thread that is known: where it stands afterwards, and what became of the shared
state. -/
theorem run_thread {pool pool' : Pool Res ε α Local Shared τ} {i : Nat} {t : τ} {o : Op}
    {k : Except ε (Res o) → Prog Res ε α} {l : Local} (h : step rules pool (.run i) = some pool')
    (hi : pool.threads[i]? = some ⟨t, .op o k, l⟩) :
    pool'.threads[i]? = some ⟨t, k (rules.exec o l pool.shared).1, (rules.exec o l pool.shared).2.1⟩
      ∧ pool'.shared = (rules.exec o l pool.shared).2.2 := by
  obtain ⟨before, after, t', o', k', l', hthreads, hlen, -, rfl⟩ := run_cases h
  have hhere : pool.threads[i]? = some ⟨t', .op o' k', l'⟩ := by
    rw [hthreads, ← hlen]
    simp
  rw [hhere] at hi
  obtain ⟨rfl, hprog, rfl⟩ := Thread.mk.inj (Option.some.inj hi)
  cases hprog
  rw [← hlen]
  exact ⟨by simp, rfl⟩

/-! ## Soundness -/

/-- What makes contracts sound for a pool: every program keeps its own, two threads are always
compatible, and an operation that does its duty stays within what any compatible thread
relies on. -/
structure Interference (rules : Rules Res ε α Local Shared τ) (I : Shared → Prop)
    (C : τ → Contract Op Local Shared) (Q : τ → Except ε α → Local → Shared → Prop)
    (compat : Local → Local → Prop) : Prop where
  program_safe : ∀ t s, I s → Safe rules.exec I (C t) (Q t) (rules.program t) rules.fresh s
  symm : ∀ {l l'}, compat l l' → compat l' l
  fresh : ∀ l, compat rules.fresh l
  keep : ∀ {t o l l' s}, compat l l' → (C t).duty o l s → rules.enabled o l s l' = true →
    compat (rules.exec o l s).2.1 l'
  within : ∀ {t t' o l l' s}, compat l l' → I s → (C t).duty o l s →
    (C t').rely l' s (rules.exec o l s).2.2

/-- What holds of a pool between actions. -/
structure Sound (rules : Rules Res ε α Local Shared τ) (I : Shared → Prop)
    (C : τ → Contract Op Local Shared) (Q : τ → Except ε α → Local → Shared → Prop)
    (compat : Local → Local → Prop) (pool : Pool Res ε α Local Shared τ) : Prop where
  inv : I pool.shared
  safe : ∀ th ∈ pool.threads, Safe rules.exec I (C th.tag) (Q th.tag) th.prog th.here pool.shared
  compat : pool.threads.Pairwise fun a b => compat a.here b.here

section Soundness

variable {I : Shared → Prop} {C : τ → Contract Op Local Shared}
  {Q : τ → Except ε α → Local → Shared → Prop} {compat : Local → Local → Prop}

theorem pairwise_middle {γ : Type} {r : γ → γ → Prop} (hsymm : ∀ {x y}, r x y → r y x)
    {before after : List γ} {x : γ} : (before ++ x :: after).Pairwise r ↔
      (before ++ after).Pairwise r ∧ ∀ y ∈ before ++ after, r x y := by
  rw [(List.perm_middle (a := x)).pairwise_iff hsymm, List.pairwise_cons, and_comm]

/-- The thread that moves owes its duty. -/
theorem Sound.duty {pool : Pool Res ε α Local Shared τ} (h : Sound rules I C Q compat pool)
    {t : τ} {o : Op} {k : Except ε (Res o) → Prog Res ε α} {l : Local}
    (hmem : (⟨t, .op o k, l⟩ : Thread Res ε α Local τ) ∈ pool.threads) :
    (C t).duty o l pool.shared :=
  (h.safe _ hmem pool.shared h.inv ((C t).rely_refl _ _)).1

/-- **One action keeps a pool sound.** -/
theorem Sound.step {pool pool' : Pool Res ε α Local Shared τ} {action : Action τ}
    (hint : Interference rules I C Q compat) (h : Sound rules I C Q compat pool)
    (hstep : step rules pool action = some pool') : Sound rules I C Q compat pool' := by
  cases action with
  | start t =>
    obtain rfl := Option.some.inj hstep
    refine ⟨h.inv, ?_, ?_⟩
    · intro th hth
      rcases List.mem_append.1 hth with hth | hth
      · exact h.safe th hth
      · obtain rfl := List.mem_singleton.1 hth
        exact hint.program_safe t _ h.inv
    · rw [pairwise_middle hint.symm, List.append_nil]
      exact ⟨h.compat, fun other _ => hint.fresh other.here⟩
  | stop i =>
    obtain rfl := Option.some.inj hstep
    exact ⟨h.inv, fun th hth => h.safe th (List.mem_of_mem_eraseIdx hth),
      h.compat.sublist (List.eraseIdx_sublist _ _)⟩
  | run i =>
    obtain ⟨before, after, t, o, k, l, hthreads, -, henabled, rfl⟩ := run_cases hstep
    have hmem : (⟨t, .op o k, l⟩ : Thread Res ε α Local τ) ∈ pool.threads := by
      rw [hthreads]
      simp
    -- The step keeps the duty of its own thread, and the others rely on no more than that.
    obtain ⟨hduty, hinv, hsafe⟩ := h.safe _ hmem pool.shared h.inv ((C t).rely_refl _ _)
    obtain ⟨hrest, hmine⟩ := (pairwise_middle hint.symm).1 (hthreads ▸ h.compat)
    refine ⟨hinv, ?_, ?_⟩
    · intro th hth
      rcases List.mem_append.1 hth with hother | hother
      · have hin : th ∈ before ++ after := List.mem_append_left _ hother
        exact (h.safe th (by rw [hthreads]; simp [hother])).stable
          (hint.within (hmine th hin) h.inv hduty)
      · rcases List.mem_cons.1 hother with rfl | hother
        · exact hsafe
        · have hin : th ∈ before ++ after := List.mem_append_right _ hother
          exact (h.safe th (by rw [hthreads]; simp [hother])).stable
            (hint.within (hmine th hin) h.inv hduty)
    · rw [pairwise_middle hint.symm]
      exact ⟨hrest, fun other hin => hint.keep (hmine other hin) hduty (henabled other hin)⟩

/-- **Every reachable pool is sound.** -/
theorem Interference.sound_of_reaches (hint : Interference rules I C Q compat)
    {pool pool' : Pool Res ε α Local Shared τ} (h : Sound rules I C Q compat pool)
    (hreach : Reaches (step rules) pool pool') : Sound rules I C Q compat pool' :=
  hreach.invariant h fun _ _ _ hsound hstep => hsound.step hint hstep

/-- A pool without threads is sound. -/
theorem sound_empty {s : Shared} (h : I s) :
    Sound rules I C Q compat (⟨[], s⟩ : Pool Res ε α Local Shared τ) :=
  ⟨h, by simp, .nil⟩

/-- A property of threads that every operation keeps holds of every thread. -/
theorem threads_of_reaches {P : τ → Prog Res ε α → Local → Prop}
    (hprogram : ∀ t, P t (rules.program t) rules.fresh)
    (hnext : ∀ t o k l s, P t (.op o k) l → P t (k (rules.exec o l s).1) (rules.exec o l s).2.1)
    {s : Shared} {pool : Pool Res ε α Local Shared τ} (hreach : Reaches (step rules) ⟨[], s⟩ pool) :
    ∀ th ∈ pool.threads, P th.tag th.prog th.here := by
  refine hreach.invariant (I := fun pool => ∀ th ∈ pool.threads, P th.tag th.prog th.here) (by simp)
    fun pool action pool' ih hstep => ?_
  cases action with
  | start t =>
    obtain rfl := Option.some.inj hstep
    intro th hth
    rcases List.mem_append.1 hth with hth | hth
    · exact ih th hth
    · obtain rfl := List.mem_singleton.1 hth
      exact hprogram t
  | stop i =>
    obtain rfl := Option.some.inj hstep
    exact fun th hth => ih th (List.mem_of_mem_eraseIdx hth)
  | run i =>
    -- Only the thread that ran has moved.
    obtain ⟨before, after, t, o, k, l, hthreads, -, -, rfl⟩ := run_cases hstep
    rw [hthreads] at ih
    intro th hth
    rcases List.mem_append.1 hth with hother | hother
    · exact ih th (by simp [hother])
    · rcases List.mem_cons.1 hother with rfl | hother
      · exact hnext t o k l _ (ih ⟨t, .op o k, l⟩ (by simp))
      · exact ih th (by simp [hother])

/-- **Facts of programs about the shared state**: true of every program that starts, and kept by its
operations and by those of the others. `S` is what is known of the pools beforehand. -/
theorem facts_of_reaches {S : Pool Res ε α Local Shared τ → Prop} {P : τ → Local → Shared → Prop}
    {s : Shared} (hS : ∀ {pool}, Reaches (step rules) ⟨[], s⟩ pool → S pool)
    (hfresh : ∀ t s, P t rules.fresh s)
    (hrun : ∀ {before after t o k l s}, S ⟨before ++ ⟨t, .op o k, l⟩ :: after, s⟩ →
      (∀ other ∈ before ++ after, rules.enabled o l s other.here = true) →
      (P t l s → P t (rules.exec o l s).2.1 (rules.exec o l s).2.2)
        ∧ ∀ other ∈ before ++ after, P other.tag other.here s →
            P other.tag other.here (rules.exec o l s).2.2)
    {pool : Pool Res ε α Local Shared τ} (hreach : Reaches (step rules) ⟨[], s⟩ pool) :
    ∀ th ∈ pool.threads, P th.tag th.here pool.shared := by
  induction hreach with
  | refl => simp
  | @tail mid _ action hreach hstep ih =>
    obtain ⟨threads, shared⟩ := mid
    cases action with
    | start t =>
      obtain rfl := Option.some.inj hstep
      intro th hth
      rcases List.mem_append.1 hth with hth | hth
      · exact ih th hth
      · obtain rfl := List.mem_singleton.1 hth
        exact hfresh t _
    | stop i =>
      obtain rfl := Option.some.inj hstep
      exact fun th hth => ih th (List.mem_of_mem_eraseIdx hth)
    | run i =>
      obtain ⟨before, after, t, o, k, l, rfl, -, henabled, rfl⟩ := run_cases hstep
      obtain ⟨hown, hothers⟩ := hrun (hS hreach) henabled
      intro th hth
      rcases List.mem_append.1 hth with hother | hother
      · exact hothers th (List.mem_append_left _ hother) (ih th (by simp [hother]))
      · rcases List.mem_cons.1 hother with rfl | hother
        · exact hown (ih ⟨t, .op o k, l⟩ (by simp))
        · exact hothers th (List.mem_append_right _ hother) (ih th (by simp [hother]))

end Soundness

/-! ## One program after the other -/

section Alone

variable {rules : Rules Res ε α Local Shared τ}

/-- **Alone in its pool a program runs as it does by itself.** -/
theorem reaches_run (t : τ) (p : Prog Res ε α) (l : Local) (s : Shared) :
    Reaches (step rules) ⟨[⟨t, p, l⟩], s⟩
      ⟨[⟨t, lift (run rules.exec p l s).1, (run rules.exec p l s).2.1⟩],
      (run rules.exec p l s).2.2⟩ := by
  induction p generalizing l s with
  | pure a => exact .refl
  | raise e => exact .refl
  | op o k ih =>
    have hstep : step rules ⟨[⟨t, .op o k, l⟩], s⟩ (.run 0)
        = some ⟨[⟨t, k (rules.exec o l s).1, (rules.exec o l s).2.1⟩], (rules.exec o l s).2.2⟩ :=
          rfl
    exact (Reaches.tail _ .refl hstep).trans (ih _ _ _)

/-- A program that starts in an empty pool, to its end. -/
theorem reaches_ended (t : τ) (s : Shared) : Reaches (step rules) ⟨[], s⟩
    ⟨[⟨t, lift (run rules.exec (rules.program t) rules.fresh s).1,
        (run rules.exec (rules.program t) rules.fresh s).2.1⟩],
      (run rules.exec (rules.program t) rules.fresh s).2.2⟩ :=
  (Reaches.tail (.start t) .refl rfl).trans (reaches_run t _ _ s)

/-- **A program that starts in an empty pool, runs to its end, and leaves.** -/
theorem reaches_left (t : τ) (s : Shared) : Reaches (step rules) ⟨[], s⟩
    ⟨[], (run rules.exec (rules.program t) rules.fresh s).2.2⟩ :=
  (reaches_ended t s).tail (.stop 0) rfl

/-- Every program can leave. -/
theorem reaches_emptied (pool : Pool Res ε α Local Shared τ) :
    Reaches (step rules) pool ⟨[], pool.shared⟩ := by
  obtain ⟨threads, s⟩ := pool
  induction threads with
  | nil => exact .refl
  | cons th threads ih =>
    have hstop : step rules ⟨th :: threads, s⟩ (.stop 0) = some ⟨threads, s⟩ := rfl
    exact (Reaches.tail _ .refl hstop).trans ih

end Alone

end Interleaving
