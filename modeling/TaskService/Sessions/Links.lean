import TaskService.Concurrency.Moves
import TaskService.Sessions.Draws

/-!
# Links of a tag that is being deleted

A deletion of a tag counts its links, and deletes it several steps later; the cascade takes with it
what was linked in between.

* **`link_cascaded`**: a link that is committed after the count is gone with the tag.
* **`tag_in_use_guard`**: while no link to a tag is committed between a count and the end of its
  deletion, a deleted tag has no link, and a link goes by a write on its task only.
-/

namespace TaskService.Sessions

open Store Tasks Tags Workflows Concurrency
open Interleaving (Conforms observe conforms_call Straight.conforms)
open Prog

/-! ## After the count -/

/-- The reads of a deletion of a tag. -/
def asks : Op → Bool
  | .getTag _ | .countTaskTags _ => true
  | _ => false

/-- The session is deleting the tag, and has counted its links. -/
def pastCount (tagId : Uuid) (th : Interleaving.Thread Res Exn Reply Tx Call) : Bool :=
  match th with
  | ⟨.deleteTag id, .op o _, _⟩ => id = tagId && !asks o
  | _ => false

/-- A deletion of a tag that has counted asks nothing more. -/
def Unasked (call : Call) (o : Op) (here : Tx × Notes) : Prop :=
  ∀ tagId, call = .deleteTag tagId → ∀ id n, .linkCount id n ∈ here.2.told → asks o = false

section Programs

variable [Unicode] [Jsonb] [Runtime]

omit [Unicode] in
theorem deleteTag_unasked (tagId : Uuid) :
    Conforms (observe note exec) (Unasked (.deleteTag tagId)) (fun _ _ => True)
      (Tags.deleteTag tagId) (.fresh, .blank) := by
  -- what follows the count only draws, adds and commits
  have hrest : ∀ {α : Type} {p : SessionProg α} {here : Tx × Notes},
      Straight (fun o => asks o = false) (fun _ => True) p →
      Conforms (observe note exec) (Unasked (.deleteTag tagId)) (fun _ _ => True) p here := by
    intro α p here hstraight
    refine (Straight.conforms (J := fun _ => True) (F := fun _ _ => True) hstraight
      (fun o here hasks _ _ _ _ _ _ => hasks) (fun o here st _ _ => ?_) (fun _ _ _ _ => trivial)
      trivial).mono fun _ _ _ => trivial
    cases (observe note exec o here st).1 <;> trivial
  have huncounted : Conforms (observe note exec) (Unasked (.deleteTag tagId))
      (fun _ here => ∀ id n, .linkCount id n ∉ here.2.told) (perform (.getTag tagId))
      (.fresh, .blank) := by
    refine conforms_call (fun _ _ _ _ hmem => (nomatch hmem)) fun st id n hmem => ?_
    change .linkCount id n ∈ (note (.getTag tagId) .fresh (exec (.getTag tagId) .fresh st).1
      .blank).told
      at hmem
    rw [note_of_ne_commit (by simp)] at hmem
    cases hr : (exec (.getTag tagId) .fresh st).1 with
    | ok answer =>
      rw [hr] at hmem
      cases List.mem_singleton.1 hmem
    | error e =>
      rw [hr] at hmem
      cases hmem
  unfold Tags.deleteTag
  refine huncounted.bind (fun answer here hnone => ?_) fun _ _ _ => trivial
  cases answer with
  | none => trivial
  | some tag =>
    refine (conforms_call (Q := fun _ _ => True) (fun _ _ id n hmem => absurd hmem (hnone id n))
      fun _ => trivial).bind (fun inUse here _ => hrest ?_) fun _ _ _ => trivial
    dsimp only
    split
    · trivial
    · have hevent := (newEvent_straight (.tagDeleted tag.id tag.name)).mono
        (B := fun o => asks o = false) (fun o ho => by cases o <;> first | rfl | exact ho.elim)
        fun _ h => h
      refine hevent.bind (fun event _ => ?_) fun _ _ => trivial
      refine straight_call_bind rfl fun _ => ?_
      have hstage := (stageEvents_straight [event]).mono (B := fun o => asks o = false)
        (fun o ho => ?_) fun _ h => h
      · refine hstage.bind (fun _ _ => ?_) fun _ _ => trivial
        exact straight_call (A := fun o => asks o = false) rfl fun _ => trivial
      · rcases ho with ho | ⟨id, e, -, rfl⟩
        · cases o <;> first | rfl | exact ho.elim
        · rfl

theorem program_unasked (call : Call) :
    Conforms (observe note exec) (Unasked call) (fun _ _ => True) call.program
      (.fresh, .blank) := by
  cases call with
  | deleteTag tagId =>
    exact (deleteTag_unasked tagId).bind (fun _ _ _ => trivial) fun _ _ _ => trivial
  | _ =>
    refine Interleaving.conforms_of_forall (fun _ _ _ htag => ?_) (fun _ _ => trivial) _ _
    cases htag

/-- **A session that has counted is past its count.** -/
theorem unasked_of_reachable {noted : NotedWorld} (h : noted.Reachable) :
    ∀ th ∈ noted.threads, Conforms (observe note exec) (Unasked th.tag) (fun _ _ => True) th.prog
      th.here := by
  show ∀ th ∈ noted.threads, Conforms notedRules.exec (Unasked th.tag) _ th.prog th.here
  exact Interleaving.conforms_of_reaches (D := Unasked) (Q := fun _ _ _ => True) program_unasked h

end Programs

/-! ## Links in a run -/

section Runs

variable [Unicode] [Jsonb] [Runtime]

/-- A commit links no task to a tag whose deletion has counted its links and not ended. -/
def NoLateLink (world : World) (action : Interleaving.Action Call) : Prop :=
  ∀ i call tx l, action = .run i → Saves world i call tx → .insertTaskTag l ∈ writes tx →
    ∀ th ∈ world.threads, pastCount l.tagId th = false

/-- A link goes by a commit on its task only, and a tag that is deleted has no link. -/
structure KeepsLinks (world : World) (action : Interleaving.Action Call)
    (world' : World) : Prop where
  untagged : ∀ l ∈ world.shared.db.taskTags, l ∉ world'.shared.db.taskTags →
    ∃ i call tx, action = .run i ∧ Saves world i call tx ∧ taskOf call = some l.taskId
  unlinked : ∀ i tagId tx, action = .run i → Saves world i (.deleteTag tagId) tx →
    ∀ l ∈ world.shared.db.taskTags, l.tagId ≠ tagId

/-- An open deletion that was told its tag has no link is right. -/
def CountsRight (th : NotedSession) (st : Server) : Prop :=
  ∀ tagId, th.tag = .deleteTag tagId → running th.prog = true →
    .linkCount tagId 0 ∈ th.here.2.told → ∀ l ∈ st.db.taskTags, l.tagId ≠ tagId

/-- A session whose deletion has counted is past its count. -/
theorem pastCount_of_told {noted : NotedWorld} (h : noted.Reachable) {th : NotedSession}
    (hth : th ∈ noted.threads) {tagId : Uuid} (htag : th.tag = .deleteTag tagId)
    (hrunning : running th.prog = true) {n : Nat} (htold : .linkCount tagId n ∈ th.here.2.told) :
    pastCount tagId th.forget = true := by
  have hconforms := unasked_of_reachable h th hth
  obtain ⟨call, p, here⟩ := th
  obtain rfl : call = .deleteTag tagId := htag
  cases p with
  | op o k =>
    have hasks : asks o = false := hconforms.1 tagId rfl tagId n htold
    show (decide (tagId = tagId) && !asks o) = true
    simp [hasks]
  | pure a => cases hrunning
  | raise e => cases hrunning

omit [Jsonb] [Runtime] in
/-- Links are inserted at the commit. -/
theorem Commits.not_linked {call : Call} {tx : Tx} {told : Told} (h : Commits call tx told)
    (l : TaskTag) : .insertTaskTag l ∉ tx.log := by
  cases h with
  | @createTagged _ _ _ _ _ _ _ _ retag => cases retag <;> simp [issuedTags]
  | @replace _ _ _ _ _ _ _ _ _ _ _ retag => cases retag <;> simp [issuedTags]
  | @patch _ _ _ _ _ _ _ retag => cases retag <;> simp [issuedTags]
  | _ => simp

/-- **Both ends of every link are stored.** -/
theorem linked_of_reachable {noted : NotedWorld} (h : noted.Reachable) :
    Linked noted.shared.db := by
  refine tables_of_reachable (I := Linked) ⟨fun _ hl => (nomatch hl), fun _ hl => (nomatch hl)⟩
    (fun _ _ hturn hpass _ hlinked => ?_) h
  have hcommits := hturn.owed.commit rfl
  rw [writes, view_append]
  exact (hlinked.view_log hcommits.not_linked).view_passes hpass

/-- The links a session was told it removed are those of the task. -/
theorem gone_told {noted : NotedWorld} (h : noted.Reachable) :
    ∀ th ∈ noted.threads, ∀ taskId links, .unlinked taskId links ∈ th.here.2.told →
      ∀ l ∈ links, l.taskId = taskId := by
  refine facts_of_reachable
    (P := fun _ here _ => ∀ taskId links, .unlinked taskId links ∈ here.2.told →
    ∀ l ∈ links, l.taskId = taskId) (fun _ _ _ _ hmem => (nomatch hmem))
    (fun _ hturn => ⟨fun hknows taskId links hmem l hl => ?_, fun _ _ hknows => hknows⟩) h
  obtain ⟨new, htold, hnew⟩ := hturn.owed.told_cases
  rw [htold] at hmem
  rcases List.mem_append.1 hmem with hold | hmem
  · exact hknows taskId links hold l hl
  · have hlinks : links = _ := (hnew _ (Option.mem_toList.1 hmem)).1
    rw [hlinks] at hl
    exact of_decide_eq_true (List.mem_filter.1 hl).2

omit [Runtime] in
/-- **Only a call on its task removes a link**, or the deletion of its tag. -/
theorem Effect.unlinked {told : Told} {tx : Tx} {db db' : Db} {call : Call}
    (h : Effect told tx db call db') (hlinked : Linked db)
    (hgone : ∀ taskId links, .unlinked taskId links ∈ told → ∀ l ∈ links, l.taskId = taskId)
    (hnew : ∀ id ∈ told.ids, id ∉ Sessions.mentions db) {l : TaskTag} (hl : l ∈ db.taskTags)
    (hlost : l ∉ db'.taskTags) : taskOf call = some l.taskId ∨ call = .deleteTag l.tagId := by
  -- what `set_for_task` removed is of its task
  have hretagged : ∀ {taskId : Uuid} {names : Option (List PyStr)} {minted : List Tag}
      {retag : Option Retag} {event : Option EventBody},
      TagStage taskId told names minted retag event →
      l ∉ relinked db.taskTags taskId retag → l.taskId = taskId := by
    intro taskId names minted retag event hstage hlost
    cases hstage with
    | omitted => exact absurd hl hlost
    | kept => exact absurd hl hlost
    | @changed _ _ _ _ gone _ _ _ hunlinked =>
      refine hgone taskId gone hunlinked l ?_
      by_contra hkept
      exact hlost (List.mem_append_left _ (List.mem_filter.2 ⟨hl, decide_eq_true hkept⟩))
  cases h with
  | @created _ _ _ _ _ task _ _ _ _ htask hstage =>
    have hid := hretagged hstage hlost
    refine absurd (mem_mentions.2 (.inl ?_)) (hnew task.id htask.drawn)
    rw [← hid]
    exact hlinked.task l hl
  | changed hchange hstage =>
    have hid := hretagged hstage hlost
    left
    rw [hid]
    cases hchange <;> rfl
  | @deleted taskId =>
    left
    have hid : l.taskId = taskId := by
      by_contra hne
      exact hlost (List.mem_filter.2 ⟨hl, decide_eq_true hne⟩)
    rw [hid]
    rfl
  | @tagDeleted tagId =>
    right
    have hid : l.tagId = tagId := by
      by_contra hne
      exact hlost (List.mem_filter.2 ⟨hl, decide_eq_true hne⟩)
    rw [hid]
  | _ => exact absurd hl hlost

/-- A deletion that commits has counted, so its tag has no link. -/
theorem unlinked_of_counts {noted : NotedWorld} (h : noted.Reachable)
    (hcounts : ∀ th ∈ noted.threads, CountsRight th noted.shared) {i : Nat} {tagId : Uuid} {tx : Tx}
    (hsaves : Saves noted.forget i (.deleteTag tagId) tx) :
    ∀ l ∈ noted.shared.db.taskTags, l.tagId ≠ tagId := by
  obtain ⟨⟨k, hthread⟩, -⟩ := hsaves
  obtain ⟨notes, hhere⟩ := exists_noted_thread hthread
  have hmem := List.mem_of_getElem? hhere
  have howed : Owed (.deleteTag tagId) .commit (tx, notes) := (h.orderly.conforms _ hmem).1
  cases howed.commit rfl with
  | deleteTag htag hid hcount => exact hcounts _ hmem tagId rfl rfl hcount

/-- **A link goes by a commit on its task only.** -/
theorem untagged_of_step {noted noted' : NotedWorld} {action : Interleaving.Action Call}
    (hreach : noted.Reachable) (hstep : Interleaving.step notedRules noted action = some noted')
    (hcounts : ∀ th ∈ noted.threads, CountsRight th noted.shared) {l : TaskTag}
    (hl : l ∈ noted.shared.db.taskTags) (hlost : l ∉ noted'.shared.db.taskTags) :
    ∃ i call tx, action = .run i ∧ Saves noted.forget i call tx
      ∧ taskOf call = some l.taskId := by
  cases action with
  | start t =>
    obtain rfl := Option.some.inj hstep
    exact absurd hl hlost
  | stop i =>
    obtain rfl := Option.some.inj hstep
    exact absurd hl hlost
  | run i =>
    obtain ⟨call, o, k, tx, notes, hrun⟩ := notedRun_of_step hreach hstep
    rw [hrun.shared] at hlost
    rcases hrun.turn.owed.db_cases with ⟨hdb, -⟩ | ⟨rfl, heq, hcommits, -⟩
    · rw [hdb] at hlost
      exact absurd hl hlost
    · have hsaves := hrun.saves (congrArg Prod.fst heq)
      have hmem := List.mem_of_getElem? hrun.here
      have hfresh := fresh_of_reachable hreach
      rw [heq] at hlost
      rcases (hcommits.effect noted.shared.db).unlinked (linked_of_reachable hreach)
        (gone_told hreach _ hmem)
        (fun id hid => hfresh.not_mentioned hmem hrun.turn.owed.unsaved hid) hl hlost with
        htask | rfl
      · exact ⟨i, call, tx, rfl, hsaves, htask⟩
      · exact absurd rfl (unlinked_of_counts hreach hcounts hsaves l hl)

/-- The session that moves is told the count of the tables. -/
theorem CountsRight.told {call : Call} {o : Op} {p p' : SessionProg Reply} {tx : Tx} {notes : Notes}
    {st : Server} (h : CountsRight ⟨call, p, (tx, notes)⟩ st) (hrunning : running p = true)
    (howed : Owed call o (tx, notes)) (hdb : (exec o tx st).2.2.db = st.db) :
    CountsRight ⟨call, p', ((exec o tx st).2.1, note o tx (exec o tx st).1 notes)⟩
      (exec o tx st).2.2 := by
  intro tagId htag _ htold l hl
  rw [hdb] at hl
  obtain ⟨new, hnotes, hnew⟩ := @Owed.told_cases _ _ _ call o tx notes st howed
  change .linkCount tagId 0 ∈ (note o tx (exec o tx st).1 notes).told at htold
  rw [hnotes] at htold
  rcases List.mem_append.1 htold with hold | hanswer
  · exact h tagId htag hrunning hold l hl
  · have hnone : 0 = _ := (hnew _ (Option.mem_toList.1 hanswer)).1
    have hempty := List.filter_eq_nil_iff.1 (List.eq_nil_of_length_eq_zero hnone.symm) l hl
    simpa using hempty

/-- A commit of another session leaves the count right, as long as no link it inserts comes late. -/
theorem CountsRight.save {noted : NotedWorld} (hreach : noted.Reachable) {th : NotedSession}
    (hth : th ∈ noted.threads) (h : CountsRight th noted.shared) (ws : List Write)
    {st : Server} (hdb : st.db = view noted.shared.db ws)
    (hlate : ∀ l, .insertTaskTag l ∈ ws → pastCount l.tagId th.forget = false) :
    CountsRight th st := by
  intro tagId htag hrunning htold l hl
  rw [hdb] at hl
  rcases mem_taskTags_of_view hl with hold | hinserted
  · exact h tagId htag hrunning htold l hold
  · rintro rfl
    have hpast := pastCount_of_told hreach hth htag hrunning htold
    rw [hlate l hinserted] at hpast
    cases hpast

/-- **What a deletion has counted stays so.** -/
theorem counts_of_step {noted noted' : NotedWorld} {action : Interleaving.Action Call}
    (hreach : noted.Reachable) (hstep : Interleaving.step notedRules noted action = some noted')
    (hlate : NoLateLink noted.forget action)
    (hcounts : ∀ th ∈ noted.threads, CountsRight th noted.shared) :
    ∀ th ∈ noted'.threads, CountsRight th noted'.shared := by
  cases action with
  | start t =>
    obtain rfl := Option.some.inj hstep
    intro th hth
    rcases List.mem_append.1 hth with hth | hth
    · exact hcounts th hth
    · obtain rfl := List.mem_singleton.1 hth
      exact fun _ _ _ hmem => (nomatch hmem)
  | stop i =>
    obtain rfl := Option.some.inj hstep
    exact fun th hth => hcounts th (List.mem_of_mem_eraseIdx hth)
  | run i =>
    obtain ⟨before, after, call, o, k, tx, notes, hthreads, hlen, hturn, rfl⟩ :=
      turn_of_run hreach hstep
    rw [hthreads] at hcounts
    obtain ⟨hown, hothers⟩ := Machine.forall_mem_middle.1 hcounts
    -- links come in at a commit only
    rcases hturn.owed.db_cases with ⟨hdb, -⟩ | ⟨rfl, heq, hcommits, -⟩
    · refine Machine.forall_mem_middle.2 ⟨hown.told rfl hturn.owed hdb, fun th hth => ?_⟩
      intro tagId htag hrunning htold
      show ∀ l ∈ (exec o tx noted.shared).2.2.db.taskTags, _
      rw [hdb]
      exact hothers th hth tagId htag hrunning htold
    · have hreach' : NotedWorld.Reachable _ := hreach.tail _ hstep
      obtain ⟨reply, hreply⟩ := hreach'.orderly.returned
        (List.mem_append_right _ List.mem_cons_self) (by rw [heq]; simp [note])
      refine Machine.forall_mem_middle.2 ⟨fun tagId htag hrunning => ?_, fun th hth => ?_⟩
      · -- the session has committed
        change running (k (exec .commit tx noted.shared).1) = true at hrunning
        rw [hreply] at hrunning
        cases hrunning
      · -- no link to a counted tag is committed by the others: that is the condition
        have hhere : noted.threads[i]? = some ⟨call, .op .commit k, (tx, notes)⟩ := by
          rw [hthreads, ← hlen]
          simp
        have hmem : th ∈ noted.threads := by
          rw [hthreads]
          exact (List.sublist_cons_self _ _).append_left _ |>.subset hth
        refine (hothers th hth).save hreach hmem (writes tx) (by rw [heq]) fun l hl => ?_
        exact hlate i call tx l rfl ⟨⟨k, getElem?_forget hhere⟩, congrArg Prod.fst heq⟩ hl _
          (List.mem_map_of_mem hmem)

/-- **The guard on tags in use holds**, in every run in which no commit links a task to a tag whose
deletion has counted its links and not ended. -/
theorem tag_in_use_guard {worlds : List World}
    (hrun : Machine.Run (Interleaving.step rules) (fun world action _ => NoLateLink world action)
      World.initial worlds) :
    Machine.Run (Interleaving.step rules) KeepsLinks World.initial worlds := by
  have hstart : NotedWorld.Reachable ⟨[], ⟨.empty, 0⟩⟩ := .refl
  refine run_imp (J := fun noted => ∀ th ∈ noted.threads, CountsRight th noted.shared)
    hrun hstart rfl
    (fun _ hth => (nomatch hth)) ?_
  intro noted noted' action hreach hstep hlate hcounts
  exact ⟨counts_of_step hreach hstep hlate hcounts,
    fun l hl hlost => untagged_of_step hreach hstep hcounts hl hlost,
    fun i tagId tx _ hsaves => unlinked_of_counts hreach hcounts hsaves⟩

end Runs

/-! ## A link between the count and the deletion -/

section Schedule

open Plain

/-- A patch that names tags only. -/
def tagsPatch (names : List PyStr) : PatchFields := ⟨none, none, none, none, some (some names), []⟩

/-- The tag of these runs: its id is the ninth draw. -/
def looseTag : Uuid := 8

/-- Create a task with a tag, and take the tag from it. -/
def looseRun : List (Interleaving.Action Call) :=
  .start (.replaceActive forkDocument) :: steps 0 10
    ++ .start (.create (py "A") none none 3 (some [py "x"])) :: steps 1 23
    ++ .start (.patch forkTask (tagsPatch []) []) :: steps 2 10

/-- A deletion counts the links of the tag; a patch gives the task the tag; the deletion comes to
its commit. -/
def cascadingRun : List (Interleaving.Action Call) :=
  looseRun ++ .start (.deleteTag looseTag) :: steps 3 2
    ++ .start (.patch forkTask (tagsPatch [py "x"]) []) :: steps 4 12 ++ steps 3 5

/-- The session is at the commit of the deletion of the tag, which succeeds. -/
def savesDeletion (tagId : Uuid) (st : Server)
    (th : Interleaving.Thread Res Exn Reply Tx Call) : Bool :=
  match th with
  | ⟨.deleteTag id, .op .commit _, tx⟩ => id = tagId && (exec .commit tx st).1.isOk
  | _ => false

theorem of_savesDeletion {tagId : Uuid} {world : World} {i : Nat}
    {th : Interleaving.Thread Res Exn Reply Tx Call} (hthread : world.threads[i]? = some th)
    (h : savesDeletion tagId world.shared th = true) :
    Saves world i (.deleteTag tagId) th.here := by
  unfold savesDeletion at h
  split at h
  next id k tx =>
    simp only [Bool.and_eq_true, decide_eq_true_eq] at h
    obtain ⟨rfl, hok⟩ := h
    exact saves_of_isOk hthread hok
  next => cases h

/-- **A deletion takes a link with it**: the tag it deletes is linked to the task, and then
to none. -/
theorem link_cascaded : ∃ (world world' : World) (tx : Tx), world.Reachable
    ∧ Interleaving.step rules world (.run 3) = some world'
    ∧ Saves world 3 (.deleteTag looseTag) tx
    ∧ world.shared.db.taskTags = [⟨forkTask, looseTag⟩] ∧ world'.shared.db.taskTags = [] := by
  have hrun : (Machine.runActions (Interleaving.step rules) World.initial cascadingRun).map
      (fun world : World => (world.threads[3]?).any (savesDeletion looseTag world.shared)
        && world.shared.db.taskTags = [⟨forkTask, looseTag⟩]
        && (Interleaving.step rules world (.run 3)).any fun world' : World =>
          world'.shared.db.taskTags = []) = some true := by
    decide +kernel
  obtain ⟨world, hworld, hfacts⟩ := Option.map_eq_some_iff.1 hrun
  simp only [Bool.and_eq_true, decide_eq_true_eq, Option.any_eq_true] at hfacts
  obtain ⟨⟨⟨th, hth, hsaves⟩, hlinked⟩, world', hstep, hunlinked⟩ := hfacts
  exact ⟨world, world', th.here, Machine.reaches_of_runActions hworld, hstep,
    of_savesDeletion hth hsaves, hlinked, hunlinked⟩

/-- A test of `NoLateLink`. -/
def noLateLink (world : World) : Interleaving.Action Call → World → Bool
  | .run i, _ => (world.threads[i]?).all fun th =>
    match th with
    | ⟨_, .op .commit _, tx⟩ => (writes tx).all fun w =>
      match w with
      | .insertTaskTag l => world.threads.all fun th => !pastCount l.tagId th
      | _ => true
    | _ => true
  | _, _ => true

theorem noLateLink_of_eq_true {world world' : World} {action : Interleaving.Action Call}
    (h : noLateLink world action world' = true) : NoLateLink world action := by
  rintro i call tx l rfl ⟨⟨k, hthread⟩, -⟩ hl th hth
  change Option.all _ (world.threads[i]?) = true at h
  rw [hthread] at h
  have hnone := List.all_eq_true.1 h _ hl
  simpa using List.all_eq_true.1 hnone th hth

/-- A tag that is taken from its task and deleted. -/
theorem tag_in_use_guard_once : ∃ worlds : List World,
    Machine.Run (Interleaving.step rules) KeepsLinks World.initial worlds
    ∧ (∃ world ∈ worlds, world.shared.db.taskTags ≠ [])
    ∧ ∃ world ∈ worlds, world.shared.db.outbox.length = 5 ∧ world.shared.db.tags = [] := by
  have hrun : (Machine.runChecked (Interleaving.step rules) noLateLink World.initial
      (looseRun ++ .start (.deleteTag looseTag) :: steps 3 8)).map (fun worlds =>
        (worlds.any fun world : World => world.shared.db.taskTags ≠ [])
          && worlds.any fun world : World =>
            world.shared.db.outbox.length = 5 && world.shared.db.tags = []) = some true := by
    decide +kernel
  obtain ⟨worlds, hworlds, hfacts⟩ := Option.map_eq_some_iff.1 hrun
  simp only [Bool.and_eq_true, List.any_eq_true, decide_eq_true_eq] at hfacts
  have hmeets : Machine.Run (Interleaving.step rules)
      (fun world action _ => NoLateLink world action)
      World.initial worlds :=
    (Machine.run_of_runChecked hworlds).imp (I := fun _ => True) trivial
      fun _ _ _ _ _ htest => ⟨trivial, noLateLink_of_eq_true htest⟩
  exact ⟨worlds, tag_in_use_guard hmeets, hfacts.1, hfacts.2⟩

end Schedule

end TaskService.Sessions
