import TaskService.Concurrency.UseCases
import TaskService.Sessions.Accounts
import TaskService.Sessions.Effects

/-!
# Worlds with notes

The running service, every session keeping its notes. Each world has a world with notes behind it,
and each run a run; what the notes say of the tables is proved there and stated without them.

* **`turn_of_run`**: a step is an operation that a session owes, of a lawful transaction, beside
  sessions with compatible guards.
* **`holds_of_answer`**: an answer is true of the committed tables when it is given.
* **`Owed.db_cases`**: only a commit changes the tables, and it is one of `Commits`.
-/

namespace TaskService.Sessions

open Store Tasks Tags Workflows Concurrency
open Interleaving (Conforms observe)

/-! ## Answers -/

/-- The answer is what these tables say. -/
def Answer.Holds (db : Db) : Answer → Prop
  | .definition row => row = db.active
  | .highest version => version = db.active.map WorkflowRecord.version
  | .stored any => any = !db.workflows.isEmpty
  | .counts found => found = db.countByStatus
  | .task id found => found = db.tasks.find? fun t => t.id = id
  | .tagNames taskId names => names = db.tagNames taskId
  | .tagRows keys rows => rows = db.tags.filter fun t => t.nameKey ∈ keys
  | .tag id found => found = db.tags.find? fun t => t.id = id
  | .linkCount tagId count => count = (db.taskTags.filter fun l => l.tagId = tagId).length
  | .unlinked taskId links => links = db.linksOf taskId
  | .drawn _ => True

/-- What is left of an answer while other tasks are written: what was found is there, and the tags
and links of a task are the same. -/
def Answer.Lasts (db : Db) : Answer → Prop
  | .task _ (some t) => t.id ∈ db.tasks.map Task.id
  | .tagNames taskId names => names = db.tagNames taskId
  | .tagRows _ rows => ∀ t ∈ rows, t ∈ db.tags
  | .unlinked taskId links => links = db.linksOf taskId
  | _ => True

theorem Answer.Holds.lasts {answer : Answer} {db : Db} (h : answer.Holds db) : answer.Lasts db := by
  cases answer with
  | task id found =>
    cases found with
    | none => trivial
    | some t => exact List.mem_map_of_mem (List.mem_of_find?_eq_some h.symm)
  | tagRows keys rows =>
    subst h
    exact fun t ht => (List.mem_filter.1 ht).1
  | tagNames taskId names | unlinked taskId links => exact h
  | _ => trivial

variable [Unicode] [Jsonb] [Runtime]

section Answers

omit [Unicode] in
/-- An answer is what the session's own view says. -/
theorem holds_view {o : Op} {tx : Tx} {st : Server} {a : Res o} {answer : Answer}
    (h : (exec o tx st).1 = .ok a) (hanswer : answer? o (.ok a) = some answer) :
    answer.Holds (view st.db (writes tx)) := by
  cases o with
  | getTask id =>
    obtain rfl := Option.some.inj hanswer
    exact (exec_getTask_eq_ok h).1
  | uuid7 =>
    obtain rfl := Option.some.inj hanswer
    trivial
  | deleteTaskTags taskId =>
    obtain rfl := Option.some.inj hanswer
    exact exec_deleteTaskTags_eq_ok h
  | selectActive | selectMaxVersion | selectDefinitionId | countByStatus | selectTagNames taskId
  | selectTags keys | getTag id | countTaskTags tagId =>
    obtain rfl := Option.some.inj hanswer
    exact query_eq_ok h
  | _ => cases hanswer

omit [Unicode] [Runtime] in
/-- The tags do not depend on the task that is about to be inserted. -/
theorem view_insertTask {ws : List Write} (h : ∀ w ∈ ws, ∃ t, w = .insertTask t) (db : Db) :
    (view db ws).tags = db.tags ∧ (view db ws).taskTags = db.taskTags := by
  induction ws generalizing db with
  | nil => exact ⟨rfl, rfl⟩
  | cons w ws ih =>
    obtain ⟨t, rfl⟩ := h w List.mem_cons_self
    exact ih (fun w hw => h w (List.mem_cons_of_mem _ hw)) _

omit [Unicode] [Runtime] in
/-- The links do not depend on the rows a flush may insert. -/
theorem links_view_insert {ws : List Write}
    (h : ∀ w ∈ ws, (∃ t, w = .insertTask t) ∨ ∃ t, w = .insertTag t) (db : Db) :
    (view db ws).taskTags = db.taskTags := by
  induction ws generalizing db with
  | nil => rfl
  | cons w ws ih =>
    rcases h w List.mem_cons_self with ⟨t, rfl⟩ | ⟨t, rfl⟩ <;>
      exact ih (fun w hw => h w (List.mem_cons_of_mem _ hw)) _

/-- **An answer is true of the committed tables when it is given.** -/
theorem holds_of_answer {call : Call} {o : Op} {tx : Tx} {notes : Notes} {st : Server} {a : Res o}
    {answer : Answer} (howed : Owed call o (tx, notes)) (h : (exec o tx st).1 = .ok a)
    (hanswer : answer? o (.ok a) = some answer) : answer.Holds st.db := by
  have hview := holds_view h hanswer
  cases o with
  | selectTagNames taskId =>
    obtain rfl := Option.some.inj hanswer
    obtain ⟨htags, hlinks⟩ := view_insertTask (howed.readsTags (by simp)) st.db
    change a = Db.tagNames _ _ at hview
    rw [Db.tagNames, Db.tagsOf, htags, hlinks] at hview
    exact hview
  | selectTags keys =>
    obtain rfl := Option.some.inj hanswer
    obtain ⟨htags, -⟩ := view_insertTask (howed.readsTags (by simp)) st.db
    change a = List.filter _ _ at hview
    rw [htags] at hview
    exact hview
  | deleteTaskTags taskId =>
    obtain rfl := Option.some.inj hanswer
    change a = Db.linksOf _ _ at hview
    rw [Db.linksOf, links_view_insert (howed.flushes (by simp))] at hview
    exact hview
  | uuid7 =>
    obtain rfl := Option.some.inj hanswer
    trivial
  | selectActive | selectMaxVersion | selectDefinitionId | countByStatus | getTask id | getTag id
  | countTaskTags tagId =>
    rw [howed.reads trivial] at hview
    exact hview
  | _ => cases hanswer

end Answers

omit [Unicode] in
/-- Draws are counted up. -/
theorem drawn_le (o : Op) (tx : Tx) (st : Server) : st.drawn ≤ (exec o tx st).2.2.drawn := by
  rcases exec_cases o tx st with ⟨e, -, -, heq⟩ | ⟨-, a, heq⟩ <;> rw [heq]
  cases o with
  | uuid7 | now => exact Nat.le_succ _
  | getTask id =>
    simp only [after]
    split <;> exact le_refl _
  | _ => exact le_refl _

/-! ## Worlds -/

/-- The program has not ended. -/
def running {α : Type} : SessionProg α → Bool
  | .op _ _ => true
  | _ => false

/-- A call in progress, with its notes. -/
abbrev NotedSession := Interleaving.Thread Res Exn Reply (Tx × Notes) Call

/-- Calls in progress with their notes, and the server. -/
abbrev NotedWorld := Interleaving.Pool Res Exn Reply (Tx × Notes) Server Call

abbrev notedRules : Interleaving.Rules Res Exn Reply (Tx × Notes) Server Call :=
  Interleaving.Rules.observe note Notes.blank rules

def NotedWorld.Reachable (world : NotedWorld) : Prop :=
  Machine.Reaches (Interleaving.step notedRules) ⟨[], ⟨.empty, 0⟩⟩ world

/-- Without the notes the world is reachable as it is. -/
theorem NotedWorld.Reachable.forget {world : NotedWorld} (h : world.Reachable) :
    World.Reachable world.forget := Interleaving.reaches_forget h

/-- Every reachable world has notes. -/
theorem exists_noted {world : World} (h : world.Reachable) :
    ∃ noted : NotedWorld, noted.Reachable ∧ noted.forget = world :=
  Interleaving.exists_reaches h

/-- What is known of a reachable world: every session owes what it issues, and the sessions do not
interfere. -/
structure Orderly (world : NotedWorld) : Prop where
  conforms : ∀ th ∈ world.threads,
    Conforms (observe note exec) (Owed th.tag) (Ended th.tag) th.prog th.here
  sound : Interleaving.Sound rules Inv contract (fun _ _ _ _ => True)
    (fun tx other => Compatible tx.lock other.lock) world.forget

theorem NotedWorld.Reachable.orderly {world : NotedWorld} (h : world.Reachable) :
    Orderly world where
  conforms := Interleaving.conforms_of_reaches call_conforms h
  sound := sound_of_reachable h.forget

/-! ## Steps -/

/-- An operation of one session beside the others. -/
structure Turn (call : Call) (o : Op) (tx : Tx) (notes : Notes) (st : Server)
    (others : List NotedSession) : Prop where
  inv : Inv st
  owed : Owed call o (tx, notes)
  owes : Owes call o tx st
  permitted : ∀ other ∈ others, permits o tx st other.here.1 = true
  compatible : ∀ other ∈ others, Compatible tx.lock other.here.1.lock

theorem Orderly.turn {before after : List NotedSession} {call : Call} {o : Op}
    {k : Except Exn (Res o) → SessionProg Reply} {tx : Tx} {notes : Notes} {st : Server}
    (h : Orderly ⟨before ++ ⟨call, .op o k, (tx, notes)⟩ :: after, st⟩)
    (hpermitted : ∀ other ∈ before ++ after, permits o tx st other.here.1 = true) :
    Turn call o tx notes st (before ++ after) where
  inv := h.sound.inv
  owed := (h.conforms ⟨call, .op o k, (tx, notes)⟩ (by simp)).1
  owes := by
    refine h.sound.duty (t := call) (k := k) ?_
    show _ ∈ (before ++ _ :: after).map _
    simp [Interleaving.Thread.forget]
  permitted := hpermitted
  compatible other hother := by
    have hpairwise := h.sound.compat
    change ((before ++ _ :: after).map _).Pairwise _ at hpairwise
    rw [List.map_append, List.map_cons, Interleaving.pairwise_middle Compatible.symm,
      ← List.map_append] at hpairwise
    exact hpairwise.2 _ (List.mem_map_of_mem hother)

/-- **A step of a session**: an operation it owes, of a lawful transaction, beside the others. -/
theorem turn_of_run {world world' : NotedWorld} {i : Nat} (h : world.Reachable)
    (hstep : Interleaving.step notedRules world (.run i) = some world') :
    ∃ before after call o k tx notes,
      world.threads = before ++ ⟨call, .op o k, (tx, notes)⟩ :: after ∧ before.length = i
        ∧ Turn call o tx notes world.shared (before ++ after)
        ∧ world' = ⟨before ++ ⟨call, k (exec o tx world.shared).1, ((exec o tx world.shared).2.1,
            note o tx (exec o tx world.shared).1 notes)⟩ :: after,
            (exec o tx world.shared).2.2⟩ := by
  obtain ⟨threads, st⟩ := world
  obtain ⟨before, after, call, o, k, ⟨tx, notes⟩, hthreads, hlen, hpermitted, hworld'⟩ :=
    Interleaving.run_cases hstep
  obtain rfl : threads = _ := hthreads
  exact ⟨before, after, call, o, k, tx, notes, rfl, hlen, h.orderly.turn hpermitted, hworld'⟩

/-- **Facts of sessions about the tables**: true at the start, and kept by every operation of the
session and of the others. -/
theorem facts_of_reachable {P : Call → Tx × Notes → Server → Prop}
    (hfresh : ∀ call st, P call (.fresh, .blank) st)
    (hturn : ∀ {before after call o k tx notes st},
      NotedWorld.Reachable ⟨before ++ ⟨call, .op o k, (tx, notes)⟩ :: after, st⟩ →
      Turn call o tx notes st (before ++ after) →
      (P call (tx, notes) st → P call ((exec o tx st).2.1, note o tx (exec o tx st).1 notes)
          (exec o tx st).2.2)
        ∧ ∀ other ∈ before ++ after,
            P other.tag other.here st → P other.tag other.here (exec o tx st).2.2)
    {world : NotedWorld} (h : world.Reachable) :
    ∀ th ∈ world.threads, P th.tag th.here world.shared :=
  Interleaving.facts_of_reaches (S := NotedWorld.Reachable) (P := P) (fun h => h) hfresh
    (fun hreach hpermitted => hturn hreach (hreach.orderly.turn hpermitted)) h

section Turns

variable {call : Call} {o : Op} {tx : Tx} {notes : Notes} {st : Server} {others : List NotedSession}

/-- **Only a commit changes the tables**, and its transaction is one the call commits. -/
theorem Owed.db_cases (h : Owed call o (tx, notes)) :
    (exec o tx st).2.2.db = st.db ∧ (note o tx (exec o tx st).1 notes).saved = none
      ∨ o = .commit
        ∧ exec .commit tx st = (.ok (), .fresh, { st with db := view st.db (writes tx) })
        ∧ Commits call tx notes.told
        ∧ Passes (view st.db tx.log) (pending tx) := by
  have hunsaved : notes.saved = none := h.unsaved
  rcases exec_cases o tx st with ⟨e, -, -, heq⟩ | ⟨hflush, a, heq⟩
  · left
    rw [heq, note_error]
    exact ⟨rfl, hunsaved⟩
  · cases o with
    | commit =>
      have hpass := (flush_eq_ok.1 (hflush.resolve_left False.elim)).1
      exact .inr ⟨rfl, heq, h.commit rfl, hpass⟩
    | _ =>
      refine .inl ⟨(exec_db _ tx st).resolve_right fun hcommit => (nomatch hcommit.1), ?_⟩
      rw [note_of_ne_commit (by simp)]
      exact hunsaved

/-- What the session was told: nothing is lost, and what is new is true. -/
theorem Owed.told_cases (h : Owed call o (tx, notes)) :
    ∃ new : Option Answer, (note o tx (exec o tx st).1 notes).told = notes.told ++ new.toList
      ∧ ∀ answer ∈ new, answer.Holds st.db
        ∧ ∀ id, answer = .drawn id → id = Runtime.uuid7 st.drawn
            ∧ (exec o tx st).2.2.drawn = st.drawn + 1 := by
  cases hr : (exec o tx st).1 with
  | error e => exact ⟨none, by rw [note_error]; exact (List.append_nil _).symm, by simp⟩
  | ok a =>
    by_cases hcommit : o = .commit
    · subst hcommit
      exact ⟨none, (List.append_nil _).symm, by simp⟩
    · refine ⟨answer? o (.ok a), by rw [note_of_ne_commit hcommit], fun answer hmem => ?_⟩
      refine ⟨holds_of_answer h hr hmem, fun id hid => ?_⟩
      cases o with
      | uuid7 =>
        obtain rfl := Except.ok.inj hr
        rw [hid] at hmem
        exact ⟨(Answer.drawn.inj (Option.some.inj hmem)).symm, rfl⟩
      | _ => rw [hid] at hmem; cases hmem

end Turns

/-- **Facts of the tables**: true of empty tables, and kept by every commit. -/
theorem tables_of_reachable {I : Db → Prop} (hempty : I .empty)
    (hcommit : ∀ {world : NotedWorld} {before after call k tx notes}, world.Reachable →
      world.threads = before ++ ⟨call, .op .commit k, (tx, notes)⟩ :: after →
      Turn call .commit tx notes world.shared (before ++ after) →
      Passes (view world.shared.db tx.log) (pending tx) →
      Effect notes.told tx world.shared.db call (view world.shared.db (writes tx)) →
      I world.shared.db → I (view world.shared.db (writes tx)))
    {world : NotedWorld} (h : world.Reachable) : I world.shared.db := by
  induction h with
  | refl => exact hempty
  | @tail world world' action hreach hstep ih =>
    cases action with
    | start t =>
      obtain rfl := Option.some.inj hstep
      exact ih
    | stop i =>
      obtain rfl := Option.some.inj hstep
      exact ih
    | run i =>
      obtain ⟨before, after, call, o, k, tx, notes, hthreads, -, hturn, rfl⟩ :=
        turn_of_run hreach hstep
      show I (exec o tx world.shared).2.2.db
      rcases hturn.owed.db_cases with ⟨hdb, -⟩ | ⟨rfl, heq, hcommits, hpass⟩
      · rw [hdb]
        exact ih
      · rw [heq]
        exact hcommit hreach hthreads hturn hpass (hcommits.effect _) ih

/-! ## Worlds and their notes -/

/-- Every step of a world is a step of one with notes. -/
theorem exists_noted_step {world world' : World} {action : Interleaving.Action Call}
    (h : world.Reachable) (hstep : Interleaving.step rules world action = some world') :
    ∃ noted noted' : NotedWorld, noted.Reachable ∧ noted.forget = world ∧ noted'.forget = world'
      ∧ noted'.Reachable ∧ Interleaving.step notedRules noted action = some noted' := by
  obtain ⟨noted, hreach, rfl⟩ := exists_noted h
  obtain ⟨noted', hstep', rfl⟩ := Interleaving.exists_step hstep
  exact ⟨noted, noted', hreach, rfl, rfl, hreach.tail action hstep', hstep'⟩

/-- One step of a session at a position, with the notes. -/
structure NotedRun (noted noted' : NotedWorld) (i : Nat) (call : Call) (o : Op)
    (k : Except Exn (Res o) → SessionProg Reply) (tx : Tx) (notes : Notes) : Prop where
  reachable : noted.Reachable
  reachable' : noted'.Reachable
  here : noted.threads[i]? = some ⟨call, .op o k, (tx, notes)⟩
  there : noted'.threads[i]? = some ⟨call, k (exec o tx noted.shared).1,
    ((exec o tx noted.shared).2.1, note o tx (exec o tx noted.shared).1 notes)⟩
  shared : noted'.shared = (exec o tx noted.shared).2.2
  turn : Turn call o tx notes noted.shared (noted.threads.eraseIdx i)

/-- **A step of a session with notes.** -/
theorem notedRun_of_step {noted noted' : NotedWorld} {i : Nat} (h : noted.Reachable)
    (hstep : Interleaving.step notedRules noted (.run i) = some noted') :
    ∃ call o k tx notes, NotedRun noted noted' i call o k tx notes := by
  obtain ⟨before, after, call, o, k, tx, notes, hthreads, hlen, hturn, hnext⟩ := turn_of_run h hstep
  refine ⟨call, o, k, tx, notes, h, h.tail _ hstep, ?_, ?_, ?_, ?_⟩
  · rw [hthreads, ← hlen]
    simp
  · rw [hnext, ← hlen]
    simp
  · rw [hnext]
  · rw [hthreads, ← hlen, List.eraseIdx_append_of_length_le (le_refl _), Nat.sub_self]
    exact hturn

/-- **Every step of a session has one with notes.** -/
theorem exists_noted_run {world world' : World} {i : Nat} (h : world.Reachable)
    (hstep : Interleaving.step rules world (.run i) = some world') :
    ∃ noted noted' call o k tx notes, noted.forget = world ∧ noted'.forget = world'
      ∧ NotedRun noted noted' i call o k tx notes := by
  obtain ⟨noted, noted', hreach, rfl, rfl, hreach', hstep'⟩ := exists_noted_step h hstep
  obtain ⟨call, o, k, tx, notes, hrun⟩ := notedRun_of_step hreach hstep'
  exact ⟨noted, noted', call, o, k, tx, notes, rfl, rfl, hrun⟩

omit [Unicode] [Jsonb] [Runtime] in
/-- A session of a world, without its notes. -/
theorem getElem?_forget {noted : NotedWorld} {i : Nat} {call : Call} {p : SessionProg Reply}
    {tx : Tx} {notes : Notes} (h : noted.threads[i]? = some ⟨call, p, (tx, notes)⟩) :
    noted.forget.threads[i]? = some ⟨call, p, tx⟩ := by
  show (noted.threads.map Interleaving.Thread.forget)[i]? = _
  rw [List.getElem?_map, h]
  rfl

omit [Unicode] [Jsonb] [Runtime] in
theorem exists_noted_thread {noted : NotedWorld} {i : Nat} {call : Call} {p : SessionProg Reply}
    {tx : Tx} (h : noted.forget.threads[i]? = some ⟨call, p, tx⟩) :
    ∃ notes, noted.threads[i]? = some ⟨call, p, (tx, notes)⟩ := by
  have hmap : (noted.threads.map Interleaving.Thread.forget)[i]? = some ⟨call, p, tx⟩ := h
  rw [List.getElem?_map, Option.map_eq_some_iff] at hmap
  obtain ⟨⟨call', p', tx', notes⟩, hthread, heq⟩ := hmap
  cases heq
  exact ⟨notes, hthread⟩

/-- Events are only ever added to the outbox. -/
theorem outbox_of_step {world world' : World} {action : Interleaving.Action Call}
    (hstep : Interleaving.step rules world action = some world') :
    ∃ events, world'.shared.db.outbox = world.shared.db.outbox ++ events := by
  cases action with
  | start t =>
    obtain rfl := Option.some.inj hstep
    exact ⟨[], (List.append_nil _).symm⟩
  | stop i =>
    obtain rfl := Option.some.inj hstep
    exact ⟨[], (List.append_nil _).symm⟩
  | run i =>
    obtain ⟨before, after, call, o, k, tx, -, -, -, rfl⟩ := Interleaving.run_cases hstep
    show ∃ events, (exec o tx world.shared).2.2.db.outbox = _
    rcases exec_db o tx world.shared with hdb | ⟨-, hdb⟩
    · rw [hdb]
      exact ⟨[], (List.append_nil _).symm⟩
    · rw [hdb]
      exact ⟨_, outbox_view _ _⟩

/-- The session at this position is at its commit, and the commit succeeds. -/
def Saves (world : World) (i : Nat) (call : Call) (tx : Tx) : Prop :=
  (∃ k, world.threads[i]? = some ⟨call, .op .commit k, tx⟩)
    ∧ (exec .commit tx world.shared).1 = .ok ()

omit [Unicode] in
theorem saves_of_isOk {world : World} {i : Nat} {call : Call}
    {k : Except Exn Unit → SessionProg Reply}
    {tx : Tx} (hthread : world.threads[i]? = some ⟨call, .op .commit k, tx⟩)
    (hok : (exec .commit tx world.shared).1.isOk = true) : Saves world i call tx := by
  refine ⟨⟨k, hthread⟩, ?_⟩
  cases hr : (exec .commit tx world.shared).1 with
  | ok a => rfl
  | error e => simp [hr, Except.isOk, Except.toBool] at hok

/-- A step that commits, without its notes. -/
theorem NotedRun.saves {noted noted' : NotedWorld} {i : Nat} {call : Call}
    {k : Except Exn Unit → SessionProg Reply} {tx : Tx} {notes : Notes}
    (h : NotedRun noted noted' i call .commit k tx notes)
    (hok : (exec .commit tx noted.shared).1 = .ok ()) : Saves noted.forget i call tx :=
  ⟨⟨k, getElem?_forget h.here⟩, hok⟩

/-- **A commit that succeeds**, with the notes: its transaction is one the call commits. -/
theorem exists_noted_save {world world' : World} {i : Nat} {call : Call} {tx : Tx}
    (h : world.Reachable) (hstep : Interleaving.step rules world (.run i) = some world')
    (hsaves : Saves world i call tx) :
    ∃ noted noted' k notes, noted.forget = world ∧ noted'.forget = world'
      ∧ NotedRun noted noted' i call .commit k tx notes
      ∧ world'.shared = { world.shared with db := view world.shared.db (writes tx) }
      ∧ Commits call tx notes.told ∧ Passes (view world.shared.db tx.log) (pending tx) := by
  obtain ⟨⟨k, hthread⟩, hok⟩ := hsaves
  obtain ⟨noted, noted', call', o, k', tx', notes, rfl, rfl, hrun⟩ := exists_noted_run h hstep
  cases (getElem?_forget hrun.here).symm.trans hthread
  have hshared : noted'.forget.shared = _ := hrun.shared
  rcases exec_cases .commit tx noted.shared with ⟨e, -, -, heq⟩ | ⟨hflush, a, heq⟩
  · change (exec .commit tx noted.shared).1 = .ok () at hok
    rw [heq] at hok
    cases hok
  · rw [heq] at hshared
    have hpass := (flush_eq_ok.1 (hflush.resolve_left False.elim)).1
    exact ⟨noted, noted', k, notes, rfl, rfl, hrun, hshared, hrun.turn.owed.commit rfl, hpass⟩

/-- Nothing follows a commit: a session that has committed has returned. -/
theorem Orderly.returned {world : NotedWorld} (h : Orderly world) {call : Call}
    {p : SessionProg Reply} {tx : Tx} {notes : Notes}
    (hmem : (⟨call, p, (tx, notes)⟩ : NotedSession) ∈ world.threads) (hsaved : notes.saved ≠ none) :
    ∃ reply, p = .pure reply := by
  have hconforms := h.conforms _ hmem
  cases p with
  | pure reply => exact ⟨reply, rfl⟩
  | raise e => exact absurd hconforms hsaved
  | op o k => exact absurd hconforms.1.unsaved hsaved

/-- **The rule of invariants for runs, with notes**: an invariant of the worlds with notes, kept by
the steps of a run, tells of the run without them. -/
theorem run_imp {P P' : World → Interleaving.Action Call → World → Prop} {J : NotedWorld → Prop}
    {start : World} {worlds : List World}
    (hrun : Machine.Run (Interleaving.step rules) P start worlds) {noted : NotedWorld}
    (hreach : noted.Reachable) (hnoted : noted.forget = start) (hJ : J noted)
    (hstep : ∀ {noted noted' : NotedWorld} {action}, noted.Reachable →
      Interleaving.step notedRules noted action = some noted' →
      P noted.forget action noted'.forget →
      J noted → J noted' ∧ P' noted.forget action noted'.forget) :
    Machine.Run (Interleaving.step rules) P' start worlds := by
  refine hrun.imp (I := fun world => ∃ noted : NotedWorld, noted.Reachable ∧ noted.forget = world
    ∧ J noted) ⟨noted, hreach, hnoted, hJ⟩ ?_
  rintro _ action world' ⟨noted, hreach, rfl, hJ⟩ hnext hP
  obtain ⟨noted', hnext', rfl⟩ := Interleaving.exists_step hnext
  obtain ⟨hJ', hP'⟩ := hstep hreach hnext' hP hJ
  exact ⟨⟨noted', hreach.tail action hnext', rfl, hJ'⟩, hP'⟩

end TaskService.Sessions
