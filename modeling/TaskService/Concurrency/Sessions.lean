import TaskService.Concurrency.Contracts
import TaskService.Tasks.Programs

/-!
# Sessions between guard and commit

Each use case, run in a session beside any others, writes only what its guard allows: the
verification condition `Safe` of its program, composed from the conditions of its parts. A part that
draws, reads and stages tags is handled as a whole (`keeps_quiet`); what is left is the order of
guard, read, check, change and commit.

* **`Session.stable`**: what a session relies on stays so while the others run.
* **`keeps_persist`**: staging the events of a task and committing it keeps the rules.
-/

namespace TaskService.Concurrency

open Store Tasks Tags Workflows Prog
open Interleaving (Safe)

/-! ## Sessions between guard and commit -/

/-- A change of status the event tells of is one the transaction makes. -/
def Reports (tx : Tx) (e : Event) : Prop :=
  ∀ task a b, e.body = .taskStatusChanged task a b → a ≠ b ∧ Moves tx task.id a b

theorem Reports.congr {tx tx' : Tx} {e : Event} (h : Reports tx e)
    (htracked : tx'.tracked = tx.tracked) : Reports tx' e := by
  intro task a b hbody
  obtain ⟨hne, loaded, current, heq, hrest⟩ := h task a b hbody
  exact ⟨hne, loaded, current, htracked.trans heq, hrest⟩

theorem untouched_of_settled {tracked : Option Task} {tx : Tx} (h : Settled tracked tx) :
    Untouched tx := by
  intro loaded current heq
  rw [h.tracked] at heq
  obtain ⟨t, -, ht⟩ := Option.map_eq_some_iff.1 heq
  exact (Prod.mk.inj ht).1.symm.trans (Prod.mk.inj ht).2

variable [Unicode]

/-- A session with its guard, the definition that guard pins down, and the task it holds, which it
may have inserted (`new`) or loaded. -/
structure Session (held : Option LockMode) (pinned : Option Workflow) (new : Bool)
    (task : Option (Task × Task)) (tx : Tx) (st : Server) : Prop where
  lock : tx.lock = held
  tracked : tx.tracked = task
  noNew : ∀ t, .task t ∉ tx.added
  inserted : ∀ t, .insertTask t ∈ writes tx → new = true
  lawful : Lawful st.db tx
  pinned : ∀ w ∈ pinned, held ≠ none ∧ activeWorkflow st.db = some w

section Facts

variable {held : Option LockMode} {pinned : Option Workflow} {new : Bool}
  {task : Option (Task × Task)} {tx : Tx} {st st' : Server}

theorem Session.stable (h : Session held pinned new task tx st) (hleaves : Leaves tx st st') :
    Session held pinned new task tx st' where
  lock := h.lock
  tracked := h.tracked
  noNew := h.noNew
  inserted := h.inserted
  lawful := h.lawful.stable hleaves
  pinned w hw := by
    obtain ⟨hheld, hactive⟩ := h.pinned w hw
    refine ⟨hheld, ?_⟩
    rw [activeWorkflow_congr (hleaves.workflows (h.lock ▸ hheld))]
    exact hactive

theorem session_fresh (st : Server) : Session none none false none .fresh st :=
  ⟨rfl, rfl, fun _ => List.not_mem_nil, fun _ h => (nomatch h), lawful_fresh _, by simp⟩

/-- Statements stay permitted while the guard and the change of the held task stay, and while the
held task is left alone. -/
theorem Permitted.transfer {db : Db} {tx tx' : Tx} {w : Write} (h : Permitted db tx w)
    (hlock : tx'.lock = tx.lock) (htracked : tx'.tracked = tx.tracked
      ∨ Untouched tx ∧ (Untouched tx' ∨ ∀ t, w ≠ .insertTask t)) : Permitted db tx' w := by
  cases w with
  | insertTask t =>
    refine ⟨hlock.trans h.1, h.2.1, ?_⟩
    rcases htracked with heq | ⟨-, huntouched | hne⟩
    · intro loaded current hheld
      exact h.2.2 loaded current (heq ▸ hheld)
    · exact huntouched
    · exact absurd rfl (hne t)
  | updateTask loaded current => exact h.imp_right fun hmove => ⟨hlock.trans hmove.1, hmove.2⟩
  | deleteTask id => exact hlock.trans h
  | insertWorkflow r => exact ⟨hlock.trans h.1, h.2⟩
  | insertOutbox r =>
    intro task a b hbody
    obtain ⟨hne, loaded, current, hheld, hid, rfl, rfl⟩ := h task a b hbody
    rcases htracked with heq | ⟨huntouched, -⟩
    · exact ⟨hne, loaded, current, heq.trans hheld, hid, rfl, rfl⟩
    · -- an untouched task has not moved
      exact absurd (congrArg Task.status (huntouched loaded current hheld)) hne
  | _ => trivial

theorem Lawful.grow {db : Db} {tx tx' : Tx} (h : Lawful db tx) (hlock : tx'.lock = tx.lock)
    (htracked : tx'.tracked = tx.tracked
      ∨ Untouched tx ∧ (Untouched tx' ∨ ∀ t, .insertTask t ∉ writes tx))
    (hfresh : ∀ w ∈ writes tx', w ∈ writes tx ∨ Permitted db tx' w) : Lawful db tx' := by
  intro w hw
  rcases hfresh w hw with hold | hnew
  · refine (h w hold).transfer hlock (htracked.imp_right fun ⟨hu, hu'⟩ => ⟨hu, hu'.imp_right ?_⟩)
    rintro hnone t rfl
    exact hnone t hold
  · exact hnew

theorem permitted_of_tagging {db : Db} {tx : Tx} {w : Write} (h : w.Tagging) :
    Permitted db tx w := by
  cases w <;> trivial

theorem Session.extends {t : Option Task} {tx' : Tx}
    (h : Session held pinned new (t.map fun t => (t, t)) tx st) (hx : Extends t tx tx')
    (hdb : st'.db = st.db) : Session held pinned new (t.map fun t => (t, t)) tx' st' where
  lock := hx.lock.trans h.lock
  tracked := hx.settled.tracked
  noNew := hx.settled.noNew
  inserted t ht := h.inserted t ((hx.fresh _ ht).resolve_right id)
  lawful := by
    rw [hdb]
    refine h.lawful.grow hx.lock (.inl (hx.settled.tracked.trans h.tracked.symm)) fun w hw => ?_
    exact (hx.fresh w hw).imp_right permitted_of_tagging
  pinned := by
    rw [hdb]
    exact h.pinned

/-- A lawful session owes no more, outside the guard and the count of a replacement. -/
theorem owes_of_lawful {call : Call} {o : Op} {tx : Tx} {st : Server} (h : Lawful st.db tx)
    (hguard : ∀ mode, o ≠ .acquireGuard mode)
    (hcount : (∀ d, call ≠ .replaceActive d) ∨ o ≠ .countByStatus) : Owes call o tx st where
  lawful := h
  guard mode heq := absurd heq (hguard mode)
  count d hd ho := by
    rcases hcount with hcall | hcount
    · exact absurd hd (hcall d)
    · exact absurd ho hcount

/-- The task is one the session holds, or a new one with a status its guard vouches for. -/
def Savable (tx : Tx) (db : Db) (task : Task) : Prop :=
  (∃ loaded current, tx.tracked = some (loaded, current) ∧ current.id = task.id)
    ∨ tx.lock = some .shared ∧ task.status ∈ knownStates db ∧ Untouched tx

/-- Adding such a task is lawful. -/
theorem add_task_lawful {db : Db} {tx : Tx} {task : Task} (hlawful : Lawful db tx)
    (htask : Savable tx db task) : Lawful db (tx.add (.task task)) := by
  rcases htask with ⟨loaded, current, htracked, hid⟩ | ⟨hlock, hknown, huntouched⟩
  · rw [add_held_task htracked hid]
    exact hlawful
  · rcases add_task_cases tx task with ⟨loaded, current, htracked, hid, -⟩ | hadd
    · rw [add_held_task htracked hid]
      exact hlawful
    · refine hlawful.grow (add_lock tx _) (.inl (add_tracked tx _)) fun w hw => ?_
      rcases (mem_writes_add hadd).1 hw with hw | rfl
      · exact .inl hw
      · refine .inr ⟨(add_lock tx _).trans hlock, hknown, fun loaded current heq => ?_⟩
        exact huntouched loaded current ((add_tracked tx _).symm.trans heq)

theorem Savable.stable {st' : Server} {task : Task} (h : Savable tx st.db task)
    (hleaves : Leaves tx st st') : Savable tx st'.db task := by
  refine h.imp_right fun ⟨hlock, hknown, huntouched⟩ => ⟨hlock, ?_, huntouched⟩
  rw [knownStates, activeWorkflow_congr (hleaves.workflows (by simp [hlock]))]
  exact hknown

end Facts

variable [Jsonb] [Runtime]

/-! ## Rules -/

/-- From here on the session is lawful; if it returns, `J` holds of the value. -/
def Keeps (call : Call) {α : Type} (J : α → Tx → Server → Prop) (p : SessionProg α) (tx : Tx)
    (st : Server) : Prop :=
  Safe exec Inv (contract call) (fun r tx st => ∀ a, r = .ok a → J a tx st) p tx st

section Rules

variable {call : Call} {α β : Type} {J : α → Tx → Server → Prop} {K : β → Tx → Server → Prop}
  {tx : Tx} {st : Server}

theorem Keeps.bind {p : SessionProg α} {f : α → SessionProg β} (h : Keeps call J p tx st)
    (hf : ∀ a tx st, Inv st → J a tx st → Keeps call K (f a) tx st) :
    Keeps call K (p >>= f) tx st :=
  Safe.bind h (fun a tx st hinv hJ => hf a tx st hinv (hJ a rfl)) fun _ _ _ _ _ _ hb => nomatch hb

theorem Keeps.mono {J' : α → Tx → Server → Prop} {p : SessionProg α} (h : Keeps call J p tx st)
    (hJ : ∀ a tx st, J a tx st → J' a tx st) : Keeps call J' p tx st :=
  Safe.mono h fun _ _ _ hQ a heq => hJ _ _ _ (hQ a heq)

theorem keeps_pure {a : α} (h : ∀ st', Inv st' → Leaves tx st st' → J a tx st') :
    Keeps call J (.pure a) tx st := by
  intro st' hinv hleaves b hb
  obtain rfl := Except.ok.inj hb
  exact h st' hinv hleaves

theorem keeps_raise {e : Exn} : Keeps call J (.raise e) tx st := by
  intro st' _ _ b hb
  cases hb

theorem keeps_lift {r : Except Exn α}
    (h : ∀ a, r = .ok a → ∀ st', Inv st' → Leaves tx st st' → J a tx st') :
    Keeps call J (lift r) tx st := by
  cases r with
  | ok a => exact keeps_pure (h a rfl)
  | error e => exact keeps_raise

/-- One operation: what the session owes, and what holds after a success. -/
theorem keeps_call {o : Op} {J : Res o → Tx → Server → Prop}
    (howes : ∀ st', Inv st' → Leaves tx st st' → Owes call o tx st')
    (hJ : ∀ st' a, Inv st' → Leaves tx st st' → exec o tx st' = (.ok a, after tx st' o) →
      ∀ st'', Inv st'' → Leaves (after tx st' o).1 (after tx st' o).2 st'' →
        J a (after tx st' o).1 st'') :
    Keeps call J (perform o) tx st := by
  refine Interleaving.safe_call fun st' hinv hleaves => ?_
  have hduty := howes st' hinv hleaves
  refine ⟨hduty, hduty.lawful.exec_inv hinv, fun st'' hinv'' hleaves'' a ha => ?_⟩
  rcases exec_cases o tx st' with ⟨e, -, -, heq⟩ | ⟨-, b, heq⟩
  · rw [heq] at ha
    cases ha
  · rw [heq] at ha hleaves''
    obtain rfl := Except.ok.inj ha
    rw [heq]
    exact hJ st' b hinv hleaves heq st'' hinv'' hleaves''

end Rules

section Session

variable {held : Option LockMode} {pinned : Option Workflow} {new : Bool}
  {task : Option (Task × Task)}
  {tx : Tx} {st : Server} {call : Call} {α : Type} {P : α → Prop} {E : Exn → Prop}
    {p : SessionProg α}

/-- **Draws, reads, tags and links keep a session.** -/
theorem keeps_quiet {t : Option Task} (hp : Straight Op.Quiet (Outcome P E) p)
    (hcall : ∀ d, call ≠ .replaceActive d)
    (h : Session held pinned new (t.map fun t => (t, t)) tx st) :
    Keeps call (fun a tx st => P a ∧ Session held pinned new (t.map fun t => (t, t)) tx st)
      p tx st := by
  refine Safe.mono (Interleaving.Straight.safe hp
    (J := Session held pinned new (t.map fun t => (t, t)))
    (F := fun _ _ _ => True) ?_ (fun _ _ _ _ _ => trivial)
      (fun _ _ _ h _ hleaves => h.stable hleaves) (fun _ _ _ _ _ _ _ => trivial) h) ?_
  · intro o tx st ho hinv h
    have howes : Owes call o tx st :=
      owes_of_lawful h.lawful (by rintro mode rfl; exact ho) (.inl hcall)
    refine ⟨howes, howes.lawful.exec_inv hinv, ?_⟩
    rcases exec_quiet ho ⟨h.tracked, h.noNew⟩ with ⟨e, heq⟩ | ⟨⟨a, ha⟩, hx, hdb⟩
    · rw [heq]
      trivial
    · rw [ha]
      exact ⟨trivial, h.extends hx hdb⟩
  · rintro r tx st hafter a rfl
    exact hafter

/-- Draws keep whatever does not count them. -/
theorem keeps_draws {J : Tx → Server → Prop} (hp : Straight Op.Draw (Outcome P E) p)
    (hlawful : ∀ tx st, J tx st → Lawful st.db tx)
    (hstable : ∀ tx st st', J tx st → Leaves tx st st' → J tx st')
    (hdrawn : ∀ tx st n, J tx st → J tx { st with drawn := n }) (h : J tx st) :
    Keeps call (fun a tx st => P a ∧ J tx st) p tx st := by
  refine Safe.mono (Interleaving.Straight.safe hp (J := J) (F := fun _ _ _ => True) ?_
    (fun _ _ _ _ _ => trivial) (fun tx st st' h _ hleaves => hstable tx st st' h hleaves)
    (fun _ _ _ _ _ _ _ => trivial) h) ?_
  · intro o tx st ho hinv h
    have howes : Owes call o tx st :=
      owes_of_lawful (hlawful tx st h) (by rintro mode rfl; exact ho)
      (.inr (by rintro rfl; exact ho))
    refine ⟨howes, howes.lawful.exec_inv hinv, ?_⟩
    cases o with
    | uuid7 => exact ⟨trivial, hdrawn tx st _ h⟩
    | now => exact ⟨trivial, hdrawn tx st _ h⟩
    | _ => exact ho.elim
  · rintro r tx st hafter a rfl
    exact hafter

theorem keeps_draw (hp : Straight Op.Draw (Outcome P E) p)
    (h : Session held pinned new task tx st) :
    Keeps call (fun a tx st => P a ∧ Session held pinned new task tx st) p tx st :=
  keeps_draws hp (fun _ _ h => h.lawful) (fun _ _ _ h hleaves => h.stable hleaves)
    (fun _ _ _ h => ⟨h.lock, h.tracked, h.noNew, h.inserted, h.lawful, h.pinned⟩) h

/-! ## Staging and commit -/

theorem keeps_stageEvents {events : List Event} (hlawful : Lawful st.db tx)
    (hreports : ∀ e ∈ events, Reports tx e) :
    Keeps call (fun _ tx st => Lawful st.db tx) (stageEvents events) tx st := by
  refine Safe.mono (Interleaving.Straight.safe (stageEvents_straight events)
    (J := fun tx st => Lawful st.db tx ∧ ∀ e ∈ events, Reports tx e) (F := fun _ _ _ => True) ?_
    (fun _ _ _ _ _ => trivial) (fun _ _ _ h _ hleaves => ⟨h.1.stable hleaves, h.2⟩)
    (fun _ _ _ _ _ _ _ => trivial) ⟨hlawful, hreports⟩) ?_
  · rintro o tx st ho hinv ⟨hlawful, hreports⟩
    have howes : Owes call o tx st := by
      refine owes_of_lawful hlawful ?_ (.inr ?_)
      · rintro mode rfl
        rcases ho with ho | ⟨id, e, -, heq⟩
        · exact ho
        · cases heq
      · rintro rfl
        rcases ho with ho | ⟨id, e, -, heq⟩
        · exact ho
        · cases heq
    refine ⟨howes, howes.lawful.exec_inv hinv, ?_⟩
    -- Making an event touches nothing; adding its row leaves the task tracked as it was.
    rcases ho with ho | ⟨id, e, he, rfl⟩
    · cases o with
      | uuid7 => exact ⟨trivial, hlawful, hreports⟩
      | now => exact ⟨trivial, hlawful, hreports⟩
      | _ => exact ho.elim
    · have htracked := add_tracked tx (.outbox (.fromEvent id e))
      refine ⟨trivial, hlawful.grow (add_lock tx _) (.inl htracked) fun w hw => ?_,
        fun e he => (hreports e he).congr htracked⟩
      rcases (mem_writes_add (add_of_ne_task (by simp) tx)).1 hw with hw | rfl
      · exact .inl hw
      · -- the row carries the event, so it reports what the event does
        exact .inr ((hreports e he).congr htracked)
  · rintro r tx st hafter a rfl
    exact hafter.2.1

/-- `J` of a value; after an exception, which only a refused statement raises, nothing is left. -/
def Handled (J : α → Tx → Server → Prop) : Except Exn α → Tx → Server → Prop
  | .ok a, tx, st => J a tx st
  | .error _, tx, _ => tx = .fresh

theorem safe_flush {J : Unit → Tx → Server → Prop} (hlawful : Lawful st.db tx)
    (hJ : ∀ st', Inv st' → Leaves tx st st' → J () (flushed tx) st') :
    Safe exec Inv (contract call) (Handled J) (perform .flush) tx st := by
  refine Interleaving.safe_call fun st' hinv hleaves => ?_
  have howes : Owes call .flush tx st' :=
    owes_of_lawful (hlawful.stable hleaves) (by simp) (.inr (by simp))
  refine ⟨howes, howes.lawful.exec_inv hinv, fun st'' hinv'' hleaves'' => ?_⟩
  rcases exec_cases .flush tx st' with ⟨e, -, -, heq⟩ | ⟨-, a, heq⟩ <;> rw [heq] at hleaves'' ⊢
  · rfl
  · exact hJ st'' hinv'' ((contract call).rely_trans hleaves ⟨hleaves''.1, hleaves''.2⟩)

theorem safe_commit (hlawful : Lawful st.db tx) :
    Safe exec Inv (contract call) (Handled fun _ _ _ => True) (perform .commit) tx st := by
  refine Interleaving.safe_call fun st' hinv hleaves => ?_
  have howes : Owes call .commit tx st' :=
    owes_of_lawful (hlawful.stable hleaves) (by simp) (.inr (by simp))
  refine ⟨howes, howes.lawful.exec_inv hinv, fun st'' _ _ => ?_⟩
  rcases exec_cases .commit tx st' with ⟨e, -, -, heq⟩ | ⟨-, a, heq⟩ <;> rw [heq]
  · rfl
  · trivial

/-- The handler for a violated constraint only rolls back and raises. -/
theorem keeps_translate {J : Unit → Tx → Server → Prop} {p : SessionProg Unit} {title : PyStr}
    (h : Safe exec Inv (contract call) (Handled J) p tx st) :
    Keeps call J (p.tryCatch (Repository.translate title)) tx st := by
  refine Safe.tryCatch h ?_ ?_
  · intro a tx st _ hJ b hb
    obtain rfl := Except.ok.inj hb
    exact hJ
  · rintro e _ st hinv rfl
    unfold Repository.translate
    split
    · refine Keeps.bind (J := fun _ _ _ => True) (keeps_call ?_ fun _ _ _ _ _ _ _ _ => trivial) ?_
      · exact fun st' _ _ => owes_of_lawful (lawful_fresh _) (by simp) (.inr (by simp))
      · intro _ tx st _ _
        split <;> exact keeps_raise
    · exact keeps_raise

theorem keeps_echoTitle {J : Unit → Tx → Server → Prop} {p : SessionProg Unit} {title : PyStr}
    (h : Keeps call J p tx st) : Keeps call J (p.tryCatch (echoTitle title)) tx st := by
  refine Safe.tryCatch h (fun a tx st _ hJ => hJ) fun e tx st _ _ => ?_
  unfold echoTitle
  split <;> exact keeps_raise

/-- **Saving a task with its events.** -/
theorem keeps_persist {task : Task} {events : List Event} {title : PyStr}
    (hlawful : Lawful st.db tx) (htask : Savable tx st.db task)
    (hreports : ∀ e ∈ events, Reports tx e) :
    Keeps call (fun _ _ _ => True) (persist task events title) tx st := by
  refine keeps_echoTitle ?_
  have hadd : Keeps call (fun _ tx st => Lawful st.db tx ∧ ∀ e ∈ events, Reports tx e)
      (perform (.add (.task task))) tx st := by
    refine keeps_call ?_ fun st' a _ hleaves _ st'' _ hleaves' => ?_
    · exact fun st' _ hleaves => owes_of_lawful (hlawful.stable hleaves) (by simp) (.inr (by simp))
    · have hadded := add_task_lawful (hlawful.stable hleaves) (htask.stable hleaves)
      exact ⟨hadded.stable hleaves', fun e he => (hreports e he).congr (add_tracked tx _)⟩
  refine hadd.bind fun _ tx st _ ⟨hlawful, hreports⟩ => ?_
  refine (keeps_stageEvents hlawful hreports).bind fun _ tx st _ hlawful => ?_
  exact keeps_translate (safe_commit hlawful)

end Session

end TaskService.Concurrency
