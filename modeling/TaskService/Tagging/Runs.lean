import TaskService.Tagging.Commits
import TaskService.Tagging.Granting

/-!
# Tags created on use

Any number of creations, replacements and patches of different tasks under different titles,
interleaved. A name whose key is new is minted by every session that did not find it; the first to
commit makes the others fail, since only the constraint on titles is translated. Where no INSERT of
a tag finds its key stored or being inserted, a call whose checks pass does not fail, any other
fails for its own reasons, and every task is linked to the one tag of each name.

* **`Serving.run`**: what one operation keeps.
* **`tags_created_on_use`**: what holds in every such run.
-/

namespace TaskService.Tagging

open Store Tasks Tags Workflows Concurrency Sessions TaskService.Sequential

section Runs

variable [Unicode] [Jsonb] [Runtime]

/-! ## The calls -/

/-- Two calls on different tasks, under different titles. -/
structure Differ (a b : Call) : Prop where
  tasks : ∀ taskId, taskOf a = some taskId → taskOf b ≠ some taskId
  titles : ∀ title title', titleOf a = some title → titleOf b = some title' →
    Task.normalizeTitle title ≠ Task.normalizeTitle title'

/-- A creation, or a change of a task that no session has yet to create. -/
structure TagWrite (st : Server) (call : Call) : Prop where
  sets : setsTags call = true
  named : ∀ taskId, taskOf call = some taskId → ∀ n, st.drawn ≤ n → taskId ≠ Runtime.uuid7 n

/-- The call differs from those that started before. -/
structure Begins (st : Server) (calls : List Call) (call : Call) : Prop extends
    TagWrite st call where
  differ : ∀ earlier ∈ calls, Differ earlier call

/-- The INSERT of a tag with this key. -/
def inserts (key : PyStr) : Write → Bool
  | .insertTag t => t.nameKey = key
  | _ => false

/-- The INSERT of a tag whose key is stored, or inserted by another open transaction. -/
def isLate (db : Db) (others : List Write) : Write → Bool
  | .insertTag t => t.nameKey ∈ tagKeys db || others.any (inserts t.nameKey)
  | _ => false

/-- The next operation of the session issues no such INSERT. -/
def timely (world : World) (i : Nat) : Bool :=
  match world.threads[i]? with
  | some ⟨_, .op o _, tx⟩ =>
    (statements world.shared.db tx o).all fun w =>
      !isLate world.shared.db ((world.threads.eraseIdx i).flatMap fun th => th.here.log) w
  | _ => true

/-- **Runs of such calls**, each operation of which is as the test says, with the worlds they
pass. -/
inductive TagRun (st : Server) (test : World → Nat → Bool) :
    List Call → List World → World → Prop where
  | idle : TagRun st test [] [⟨[], st⟩] ⟨[], st⟩
  | start {calls : List Call} {seen : List World} {world world' : World} {call : Call}
      (h : TagRun st test calls seen world) (hcall : Begins st calls call)
      (hstep : Interleaving.step rules world (.start call) = some world') :
      TagRun st test (call :: calls) (world' :: seen) world'
  | run {calls : List Call} {seen : List World} {world world' : World} {i : Nat}
      (h : TagRun st test calls seen world) (htest : test world i = true)
      (hstep : Interleaving.step rules world (.run i) = some world') :
      TagRun st test calls (world' :: seen) world'
  | stop {calls : List Call} {seen : List World} {world world' : World} {i : Nat}
      (h : TagRun st test calls seen world)
      (hstep : Interleaving.step rules world (.stop i) = some world') :
      TagRun st test calls (world' :: seen) world'

/-- **The checks of a call pass**: the request is accepted, what it gives can be stored, its title
is free, and the definition lets the task enter or move, with some counts at the start and with
those of the tables whenever the session counts them. -/
structure ChecksPass (st : Server) (seen : List World) (call : Call) : Prop where
  accepted : Accepted call
  fulfillable : Fulfillable st.db call
  checked : ∃ counts, CheckedWith counts st.db call
  counted : ∀ world ∈ seen, ∀ th ∈ world.threads, th.tag = call → counting th.prog = true →
    Checked world.shared.db call

/-! ## Where a session stands -/

/-- Where a session stands: what it can still raise, that it raises nothing if its checks pass, what
it was told and drew, and, once it has committed, its task. -/
structure Stands (st : Server) (seen : List World) (call : Call) (p : SessionProg Reply)
    (notes : Notes) (db : Db) : Prop where
  raising : Raising (OwnAnswer (Clashes st.db call)) (OwnFailure (Clashes st.db call))
    (fun _ => True) p
  granted : ChecksPass st seen call → Succeeds (Expected st call) (fun _ => True) p
  drawn : ∀ id ∈ notes.told.ids, ∃ n, st.drawn ≤ n ∧ id = Runtime.uuid7 n
  about : ∀ answer ∈ notes.told, ∀ taskId ∈ Answer.tagsOf? answer, OwnTask call notes.told taskId
  lasts : notes.saved = none → ∀ answer ∈ notes.told, answer.Lasts db
  informed : notes.saved = none → Informed st notes.told
  found : notes.saved = none → ∀ taskId, taskOf call = some taskId →
    db.tasks.find? (fun row => row.id = taskId) = st.db.tasks.find? fun row => row.id = taskId
  titles : notes.saved = none → ∀ row ∈ db.tasks, Titled call row → KeepsTitle st.db row
  saved : notes.saved ≠ none → ∃ taskId, OwnTask call notes.told taskId ∧ Tagged db call taskId

/-- What is known of a world that such a run leads to. -/
structure Serving (st : Server) (calls : List Call) (seen : List World) (noted : NotedWorld) :
    Prop where
  reachable : noted.Reachable
  now : noted.forget ∈ seen
  le : st.drawn ≤ noted.shared.drawn
  workflows : noted.shared.db.workflows = st.db.workflows
  grown : tagKeys st.db ⊆ tagKeys noted.shared.db
  found : ∀ taskId, (∀ call ∈ calls, taskOf call ≠ some taskId) →
    (∀ n, st.drawn ≤ n → taskId ≠ Runtime.uuid7 n) →
    noted.shared.db.tasks.find? (fun row => row.id = taskId)
      = st.db.tasks.find? fun row => row.id = taskId
  rows : ∀ row ∈ noted.shared.db.tasks, KeepsTitle st.db row ∨ ∃ call ∈ calls, Titled call row
  begun : ∀ th ∈ noted.threads, th.tag ∈ calls ∧ TagWrite st th.tag
  apart : noted.threads.Pairwise fun a b => Differ a.tag b.tag
  stands : ∀ th ∈ noted.threads, Stands st seen th.tag th.prog th.here.2 noted.shared.db

omit [Jsonb] [Runtime] in
theorem Differ.symm {a b : Call} (h : Differ a b) : Differ b a where
  tasks taskId hb ha := h.tasks taskId ha hb
  titles title title' hb ha heq := h.titles title' title ha hb heq.symm

omit [Jsonb] [Runtime] in
/-- No row has the titles of both. -/
theorem Differ.not_titled {a b : Call} (h : Differ a b) {row : Task} (ha : Titled a row) :
    ¬ Titled b row := by
  rintro ⟨title', htitle', hkey'⟩
  obtain ⟨title, htitle, hkey⟩ := ha
  exact h.titles title title' htitle htitle' (hkey.symm.trans hkey')

omit [Unicode] [Jsonb] [Runtime] in
theorem KeepsTitle.congr {db : Db} {old row : Task} (h : KeepsTitle db old) (hid : old.id = row.id)
    (hkey : old.titleKey = row.titleKey) : KeepsTitle db row := by
  obtain ⟨first, hfirst, hfirstId, hfirstKey⟩ := h
  exact ⟨first, hfirst, hfirstId.trans hid, hfirstKey.trans hkey⟩

omit [Jsonb] [Runtime] in
theorem Titled.congr {call : Call} {old row : Task} (h : Titled call old)
    (hkey : old.titleKey = row.titleKey) : Titled call row := by
  obtain ⟨title, htitle, hsubmitted⟩ := h
  exact ⟨title, htitle, hkey.symm.trans hsubmitted⟩

omit [Unicode] [Jsonb] [Runtime] in
theorem OwnTask.mono {call : Call} {told told' : Told} {taskId : Uuid}
    (h : OwnTask call told taskId) (hle : told <+: told') : OwnTask call told' taskId :=
  h.imp_right fun hdrawn => (ids_sublist hle).subset hdrawn

omit [Jsonb] [Runtime] in
/-- **The use cases raise what their operations let them.** -/
theorem raising_program {call : Call} (hcall : setsTags call = true) (taken : Prop) :
    Raising (OwnAnswer taken) (OwnFailure taken) (fun _ => True) call.program := by
  have h := raises_own taken
  cases call with
  | create title description status priority tags =>
    exact (h.create title description status priority tags).bind fun _ _ => raising_return _
  | replace taskId title description status priority tags roles =>
    exact (h.replace taskId title description status priority tags roles).bind fun _ _ =>
      raising_return _
  | patch taskId fields roles =>
    exact (h.patch taskId fields roles).bind fun _ _ => raising_return _
  | _ => cases hcall

/-! ## Starts and stops -/

section Seen

variable {st : Server} {seen : List World} {world : World} {call : Call}

omit [Jsonb] [Runtime] in
theorem ChecksPass.mono (h : ChecksPass st (world :: seen) call) : ChecksPass st seen call :=
  ⟨h.accepted, h.fulfillable, h.checked, fun world' hseen =>
    h.counted world' (List.mem_cons_of_mem _ hseen)⟩

omit [Jsonb] in
/-- A world passes. -/
theorem Stands.see {p : SessionProg Reply} {notes : Notes} {db : Db}
    (h : Stands st seen call p notes db) : Stands st (world :: seen) call p notes db :=
  { h with granted := fun hpass => h.granted hpass.mono }

/-- A session begins: no row has the title of its call but from the beginning. -/
theorem stands_fresh (hst : Committed st) {db : Db} (hcall : setsTags call = true)
    (hfound : ∀ taskId, taskOf call = some taskId →
      db.tasks.find? (fun row => row.id = taskId) = st.db.tasks.find? fun row => row.id = taskId)
    (htitles : ∀ row ∈ db.tasks, Titled call row → KeepsTitle st.db row) :
    Stands st seen call call.program .blank db where
  raising := raising_program hcall _
  granted hpass := (succeeds_program hst hpass.accepted hpass.fulfillable tells_expected
    hpass.checked).mono fun _ _ => trivial
  drawn _ hid := nomatch hid
  about _ hanswer := nomatch hanswer
  lasts _ _ hanswer := nomatch hanswer
  informed _ := ⟨fun _ hmem => (nomatch hmem), fun _ _ hmem => (nomatch hmem),
    fun _ _ hmem => (nomatch hmem)⟩
  found _ := hfound
  titles _ := htitles
  saved hsaved := absurd rfl hsaved

end Seen

section Steps

variable {st : Server} {calls : List Call} {seen : List World} {noted : NotedWorld} {call : Call}

/-- A call starts. -/
theorem Serving.start (h : Serving st calls seen noted) (hst : Committed st)
    (hcall : Begins st calls call) {noted' : NotedWorld}
    (hstep : Interleaving.step notedRules noted (.start call) = some noted') :
    Serving st (call :: calls) (noted'.forget :: seen) noted' := by
  obtain rfl := Option.some.inj hstep
  refine ⟨h.reachable.tail (.start call) rfl, List.mem_cons_self, h.le, h.workflows, h.grown,
    fun taskId hnamed => h.found taskId fun earlier hmem =>
      hnamed earlier (List.mem_cons_of_mem _ hmem), fun row hrow => ?_, fun th hth => ?_, ?_,
    fun th hth => ?_⟩
  · rcases h.rows row hrow with hkept | ⟨earlier, hmem, htitled⟩
    · exact .inl hkept
    · exact .inr ⟨earlier, List.mem_cons_of_mem _ hmem, htitled⟩
  · rcases List.mem_append.1 hth with hth | hth
    · obtain ⟨hmem, hwrite⟩ := h.begun th hth
      exact ⟨List.mem_cons_of_mem _ hmem, hwrite⟩
    · obtain rfl := List.mem_singleton.1 hth
      exact ⟨List.mem_cons_self, hcall.toTagWrite⟩
  · refine List.pairwise_append.2 ⟨h.apart, List.pairwise_singleton _ _, fun th hth th' hth' => ?_⟩
    obtain rfl := List.mem_singleton.1 hth'
    exact hcall.differ _ (h.begun th hth).1
  · rcases List.mem_append.1 hth with hth | hth
    · exact (h.stands th hth).see
    obtain rfl := List.mem_singleton.1 hth
    refine stands_fresh hst hcall.sets (fun taskId htask => ?_) fun row hrow htitled => ?_
    · exact h.found taskId (fun earlier hmem hearlier =>
        (hcall.differ earlier hmem).tasks taskId hearlier htask) (hcall.named taskId htask)
    · refine (h.rows row hrow).resolve_right ?_
      rintro ⟨earlier, hmem, hearlier⟩
      exact (hcall.differ earlier hmem).not_titled hearlier htitled

/-- A session ends. -/
theorem Serving.stop (h : Serving st calls seen noted) {i : Nat} {noted' : NotedWorld}
    (hstep : Interleaving.step notedRules noted (.stop i) = some noted') :
    Serving st calls (noted'.forget :: seen) noted' := by
  obtain rfl := Option.some.inj hstep
  exact ⟨h.reachable.tail (.stop i) rfl, List.mem_cons_self, h.le, h.workflows, h.grown, h.found,
    h.rows, fun th hth => h.begun th (List.mem_of_mem_eraseIdx hth),
    h.apart.sublist (List.eraseIdx_sublist _ i),
    fun th hth => (h.stands th (List.mem_of_mem_eraseIdx hth)).see⟩

end Steps

/-! ## Operations -/

section Operations

variable {st now : Server} {call : Call} {o : Op} {tx : Tx} {notes : Notes} {seen : List World}
  {k : Except Exn (Res o) → SessionProg Reply} {before after : List NotedSession}

omit [Jsonb] [Runtime] in
/-- Tags are staged for a task of the session. -/
theorem ownTask_of_stages {told : Told} {taskId : Uuid} {names : Option (List PyStr)}
    (h : Stages told call taskId names tx) : OwnTask call told taskId := by
  cases h with
  | new htask => exact .inr htask.drawn
  | replace htask | patch htask => exact .inl rfl

omit [Jsonb] [Runtime] in
/-- What a session is told of the tags of a task is of its own. -/
theorem about_note (howed : Owed call o (tx, notes)) (r : Except Exn (Res o))
    (h : ∀ answer ∈ notes.told, ∀ taskId ∈ Answer.tagsOf? answer, OwnTask call notes.told taskId) :
    ∀ answer ∈ (note o tx r notes).told, ∀ taskId ∈ Answer.tagsOf? answer,
      OwnTask call (note o tx r notes).told taskId := by
  by_cases hcommit : o = .commit
  · subst hcommit
    cases r <;> simpa [note, answer?] using h
  rw [note_of_ne_commit hcommit]
  intro answer hanswer taskId htask
  have hle : notes.told <+: notes.told ++ (answer? o r).toList := List.prefix_append _ _
  rcases List.mem_append.1 hanswer with hold | hnew
  · exact (h answer hold taskId htask).mono hle
  have hsome := Option.mem_toList.1 hnew
  cases r with
  | error e =>
    rw [answer?_error] at hsome
    cases hsome
  | ok a =>
    -- Two statements tell of the tags of a task, and both are issued for the task of the session.
    cases o with
    | selectTagNames id =>
      obtain rfl := Option.some.inj hsome
      obtain rfl := Option.some.inj htask
      cases howed.prepares trivial with
      | names hstages => exact (ownTask_of_stages hstages).mono hle
    | deleteTaskTags id =>
      obtain rfl := Option.some.inj hsome
      obtain rfl := Option.some.inj htask
      cases howed.prepares trivial with
      | @unlink _ _ _ _ _ tx hstages => exact (ownTask_of_stages hstages).mono hle
    | _ =>
      first
      | (obtain rfl := Option.some.inj hsome; cases htask)
      | cases hsome

/-- **An operation that commits nothing**: the session goes on from what it was answered. -/
theorem Stands.tell (h : Stands st seen call (.op o k) notes now.db)
    (howed : Owed call o (tx, notes)) (hle : st.drawn ≤ now.drawn) (hstored : Stored now.db)
    (hactive : now.db.active = st.db.active)
    (hanswer : OwnAnswer (Clashes st.db call) o (exec o tx now).1)
    (hgranted : ChecksPass st seen call → Granted (Expected st call) o (exec o tx now).1)
    (hunsaved : (note o tx (exec o tx now).1 notes).saved = none) :
    Stands st seen call (k (exec o tx now).1) (note o tx (exec o tx now).1 notes) now.db where
  raising := h.raising _ hanswer
  granted hpass := h.granted hpass _ (hgranted hpass)
  drawn id hid := by
    rcases howed.mem_ids hid with hold | rfl
    · exact h.drawn id hold
    · exact ⟨now.drawn, hle, rfl⟩
  about := about_note howed _ h.about
  lasts _ answer hmem := by
    obtain ⟨new, htold, hnew⟩ := @Owed.told_cases _ _ _ call o tx notes now howed
    rw [htold] at hmem
    rcases List.mem_append.1 hmem with hold | hmem
    · exact h.lasts howed.unsaved answer hold
    · exact (hnew answer (Option.mem_toList.1 hmem)).1.lasts
  informed _ := by
    obtain ⟨new, htold, hnew⟩ := @Owed.told_cases _ _ _ call o tx notes now howed
    rw [htold]
    exact (h.informed howed.unsaved).tell hstored hactive fun answer hmem =>
      (hnew answer (Option.mem_toList.1 hmem)).1
  found _ := h.found howed.unsaved
  titles _ := h.titles howed.unsaved
  saved hsaved := absurd hunsaved hsaved

omit [Jsonb] in
/-- **A commit**: the task is tagged. -/
theorem Stands.save {k : Except Exn Unit → SessionProg Reply} {db db' : Db} {taskId : Uuid}
    (h : Stands st seen call (.op .commit k) notes db)
    (hwrites : Writes call notes.told taskId db db') :
    Stands st seen call (k (.ok ())) { notes with saved := some tx } db' where
  raising := h.raising (.ok ()) fun _ he => nomatch he
  granted hpass := h.granted hpass (.ok ()) ⟨(), rfl, fun _ hmem => nomatch hmem⟩
  drawn := h.drawn
  about := h.about
  lasts hunsaved := nomatch hunsaved
  informed hunsaved := nomatch hunsaved
  found hunsaved := nomatch hunsaved
  titles hunsaved := nomatch hunsaved
  saved _ := ⟨taskId, hwrites.own, tagged_of_setsTags hwrites.concerns hwrites.tags⟩

omit [Jsonb] in
/-- **The commit of another session**, which writes another task under another title. -/
theorem Stands.other {p : SessionProg Reply} {db db' : Db} {call' : Call} {told : Told}
    {taskId : Uuid}
    (h : Stands st seen call p notes db) (hwrites : Writes call' told taskId db db')
    (hdb : Consistent db) (hdb' : Consistent db') (hdiffer : Differ call' call)
    (hapart : ∀ other, OwnTask call notes.told other → other ≠ taskId) :
    Stands st seen call p notes db' where
  raising := h.raising
  granted := h.granted
  drawn := h.drawn
  about := h.about
  lasts hunsaved answer hanswer :=
    hwrites.lasts hdb hdb' (h.lasts hunsaved answer hanswer) fun other hother =>
      hapart other (h.about answer hanswer other hother)
  informed := h.informed
  found hunsaved other hother :=
    (hwrites.found other (hapart other (.inl hother))).trans (h.found hunsaved other hother)
  titles hunsaved row hrow htitled := by
    rcases hwrites.titles row hrow with ⟨old, hold, hid, hkey⟩ | hother
    · -- the row had its title before the commit
      exact (h.titles hunsaved old hold (htitled.congr hkey.symm)).congr hid hkey
    · exact absurd htitled (hdiffer.not_titled hother)
  saved hsaved := by
    obtain ⟨other, hown, htagged⟩ := h.saved hsaved
    exact ⟨other, hown, hwrites.tagged htagged (hapart other hown)⟩

omit [Jsonb] in
/-- **Sessions that differ write different tasks.** -/
theorem ne_of_differ {call' : Call} {told told' : Told} {taskId taskId' : Uuid}
    (hown : OwnTask call told taskId) (hown' : OwnTask call' told' taskId')
    (hdiffer : Differ call call') (hwrite : TagWrite st call) (hwrite' : TagWrite st call')
    (hdrawn : ∀ id ∈ told.ids, ∃ n, st.drawn ≤ n ∧ id = Runtime.uuid7 n)
    (hdrawn' : ∀ id ∈ told'.ids, ∃ n, st.drawn ≤ n ∧ id = Runtime.uuid7 n)
    (hapart : ∀ id ∈ told.ids, id ∉ told'.ids) : taskId ≠ taskId' := by
  rintro rfl
  rcases hown with hnamed | hmine <;> rcases hown' with hnamed' | hmine'
  · exact hdiffer.tasks taskId hnamed hnamed'
  · obtain ⟨n, hn, heq⟩ := hdrawn' taskId hmine'
    exact hwrite.named taskId hnamed n hn heq
  · obtain ⟨n, hn, heq⟩ := hdrawn taskId hmine
    exact hwrite'.named taskId hnamed' n hn heq
  · exact hapart taskId hmine hmine'

end Operations

/-! ## A step -/

section Steps

variable {st : Server} {calls : List Call} {seen : List World} {noted noted' : NotedWorld} {i : Nat}

theorem Serving.committed (h : Serving st calls seen noted) : Committed noted.shared :=
  ⟨noted.forget, h.reachable.forget, rfl⟩

/-- The definition is that of the start. -/
theorem Serving.active (h : Serving st calls seen noted) :
    noted.shared.db.active = st.db.active := by
  rw [Db.active, Db.active, h.workflows]

omit [Unicode] [Runtime] in
/-- What a timely operation finds. -/
theorem free_of_timely {before after : List NotedSession} {call : Call} {o : Op} {tx : Tx}
    {notes : Notes} {k : Except Exn (Res o) → SessionProg Reply} {now : Server}
    (h : timely (Interleaving.Pool.forget
      (⟨before ++ ⟨call, .op o k, (tx, notes)⟩ :: after, now⟩ : NotedWorld)) before.length = true) :
    ∀ t, .insertTag t ∈ statements now.db tx o → t.nameKey ∉ tagKeys now.db := by
  intro t ht hstored
  have hget : (Interleaving.Pool.forget (⟨before ++ ⟨call, .op o k, (tx, notes)⟩ :: after, now⟩ :
      NotedWorld)).threads[before.length]? = some ⟨call, .op o k, tx⟩ := by
    simp [Interleaving.Pool.forget, Interleaving.Thread.forget]
  unfold timely at h
  rw [hget] at h
  have hfree := List.all_eq_true.1 h _ ht
  simp only [isLate, Bool.not_eq_true', Bool.or_eq_false_iff, decide_eq_false_iff_not] at hfree
  exact hfree.1 hstored

/-- **An operation of a session whose checks pass succeeds**, if it is timely, and is answered as
expected. -/
theorem Serving.granted {call : Call} {o : Op} {tx : Tx} {notes : Notes}
    {k : Except Exn (Res o) → SessionProg Reply} (h : Serving st calls seen noted)
    (hfold : FoldsCleanly) (hst : Committed st)
    (hmem : (⟨call, .op o k, (tx, notes)⟩ : NotedSession) ∈ noted.threads)
    (howed : Owed call o (tx, notes)) (hlasting : Lasting notes.told noted.shared.db)
    (hspared : ¬ Clashes noted.shared.db call)
    (hfree : ∀ t, .insertTag t ∈ statements noted.shared.db tx o →
      t.nameKey ∉ tagKeys noted.shared.db) (hpass : ChecksPass st seen call) :
    Granted (Expected st call) o (exec o tx noted.shared).1 := by
  have hmine := h.stands _ hmem
  have hcounts : counting (.op o k) = true → Checked noted.shared.db call :=
    hpass.counted _ h.now _ (List.mem_map_of_mem hmem) rfl
  refine (hlasting.granted hfold hst hpass.accepted hpass.fulfillable
    (hmine.informed howed.unsaved) h.committed.consistent howed (h.begun _ hmem).2.sets h.grown
    hspared hfree).mono fun answer hanswer => ?_
  exact Unmoved.expected ⟨h.active, hmine.found howed.unsaved⟩ hcounts hanswer

/-- **One operation keeps what is known.** -/
theorem Serving.run (h : Serving st calls seen noted) (hfold : FoldsCleanly) (hst : Committed st)
    (htimely : timely noted.forget i = true)
    (hstep : Interleaving.step notedRules noted (.run i) = some noted') :
    Serving st calls (noted'.forget :: seen) noted' := by
  have hreach' : NotedWorld.Reachable noted' := h.reachable.tail (.run i) hstep
  have hnow := h.committed
  have hdb := hnow.consistent
  obtain ⟨before, after, call, o, k, tx, notes, hthreads, rfl, hturn, rfl⟩ :=
    turn_of_run h.reachable hstep
  obtain ⟨threads, now⟩ := noted
  obtain rfl : threads = _ := hthreads
  obtain ⟨hmine, hothers⟩ := Machine.forall_mem_middle.1 h.stands
  obtain ⟨⟨hcalls, hwrite⟩, hbegun⟩ := Machine.forall_mem_middle.1 h.begun
  obtain ⟨hapart, hdiffer⟩ := (Interleaving.pairwise_middle Differ.symm).1 h.apart
  have hfresh := fresh_of_reachable h.reachable
  obtain ⟨hnodup, -, hdistinct⟩ := Machine.nodup_flatMap_middle.1 hfresh.nodup
  have hunsaved : notes.saved = none := hturn.owed.unsaved
  have hlasting : Lasting notes.told now.db := by
    refine ⟨hmine.lasts hunsaved, hnodup, fun id hid => ?_⟩
    exact ((Machine.forall_mem_middle.1 hfresh.unsaved).1 hunsaved id hid).1
  have hfree := free_of_timely htimely
  -- a title that is taken was taken at the start
  have hclashes : Clashes now.db call → Clashes st.db call := by
    rintro ⟨title, htitle, row, hrow, hother, hkey⟩
    obtain ⟨old, hold, hid, hsame⟩ := hmine.titles hunsaved row hrow ⟨title, htitle, hkey⟩
    exact ⟨title, htitle, old, hold, hid ▸ hother, hsame.trans hkey⟩
  have hbegun' := Machine.forall_mem_middle (x := (⟨call, k (exec o tx now).1, ((exec o tx now).2.1,
    note o tx (exec o tx now).1 notes)⟩ : NotedSession)).2 ⟨⟨hcalls, hwrite⟩, hbegun⟩
  have hapart' := (Interleaving.pairwise_middle (r := fun a b : NotedSession => Differ a.tag b.tag)
    (x := ⟨call, k (exec o tx now).1, ((exec o tx now).2.1, note o tx (exec o tx now).1 notes)⟩)
    Differ.symm).2 ⟨hapart, hdiffer⟩
  rcases @Owed.db_cases _ _ _ _ _ _ _ now hturn.owed with ⟨hsame, hopen⟩ | ⟨rfl, heq, hcommits, -⟩
  · have hgranted : ChecksPass st seen call → Granted (Expected st call) o (exec o tx now).1 :=
      fun hpass => h.granted hfold hst (List.mem_append_right _ List.mem_cons_self) hturn.owed
        hlasting (fun hclash => hpass.fulfillable.free (hclashes hclash)) hfree hpass
    have hmine' := hmine.tell hturn.owed h.le hnow.stored h.active
      (hlasting.ownAnswer hdb hturn.owed hwrite.sets hfree hclashes) hgranted hopen
    refine ⟨hreach', List.mem_cons_self, h.le.trans (drawn_le o tx now), ?_, ?_, ?_, ?_, hbegun',
      hapart', ?_⟩ <;> show _ <;> rw [hsame]
    · exact h.workflows
    · exact h.grown
    · exact h.found
    · exact h.rows
    · exact Machine.forall_mem_middle.2 ⟨hmine'.see, fun th hth => (hothers th hth).see⟩
  · rw [heq] at hreach' hbegun' hapart' ⊢
    have hcommitted : Committed ⟨view now.db (writes tx), now.drawn⟩ := ⟨_, hreach'.forget, rfl⟩
    have hdb' := hcommitted.consistent
    obtain ⟨taskId, hwrites⟩ :=
      writes_of_effect hlasting hdb hdb' hwrite.sets (hcommits.effect now.db)
    refine ⟨hreach', List.mem_cons_self, h.le, hwrites.workflows.trans h.workflows,
      fun key hkey => ?_, fun other hnamed hdrawn => ?_, fun row hrow => ?_, hbegun', hapart',
      Machine.forall_mem_middle.2 ⟨(hmine.save hwrites).see,
        fun th hth => ((hothers th hth).other hwrites hdb hdb' (hdiffer th hth) ?_).see⟩⟩
    · obtain ⟨minted, htags, -⟩ := hwrites.tags.vocabulary
      show key ∈ (view now.db (writes tx)).tags.map Tag.nameKey
      rw [htags, List.map_append]
      exact List.mem_append_left _ (h.grown hkey)
    · refine (hwrites.found other ?_).trans (h.found other hnamed hdrawn)
      rintro rfl
      rcases hwrites.own with hown | hmine'
      · exact hnamed call hcalls hown
      · obtain ⟨n, hn, heq⟩ := hmine.drawn _ hmine'
        exact hdrawn n hn heq
    · rcases hwrites.titles row hrow with ⟨old, hold, hid, hkey⟩ | htitled
      · refine (h.rows old hold).imp (fun hkept => hkept.congr hid hkey) ?_
        rintro ⟨earlier, hmem, htitled⟩
        exact ⟨earlier, hmem, htitled.congr hkey⟩
      · exact .inr ⟨call, hcalls, htitled⟩
    · intro other hown heq
      refine ne_of_differ hown hwrites.own (hdiffer th hth).symm (hbegun th hth).2 hwrite
        (hothers th hth).drawn hmine.drawn (fun id hid hid' => ?_) heq
      exact hdistinct id hid' (List.mem_flatMap.2 ⟨th, hth, hid⟩)

/-- **What is known of the worlds such a run leads to.** -/
theorem TagRun.serving {world : World} (h : TagRun st timely calls seen world)
    (hfold : FoldsCleanly) (hst : Committed st) :
    ∃ noted : NotedWorld, noted.forget = world ∧ Serving st calls seen noted := by
  induction h with
  | idle =>
    refine ⟨⟨[], st⟩, rfl, hst.idle, List.mem_singleton_self _, le_refl _, rfl, List.Subset.refl _,
      fun _ _ _ => rfl, fun row hrow => .inl ⟨row, hrow, rfl, rfl⟩, ?_, .nil, ?_⟩
    · exact fun _ hth => nomatch hth
    · exact fun _ hth => nomatch hth
  | start h hcall hstep ih =>
    obtain ⟨noted, rfl, hserving⟩ := ih
    obtain ⟨noted', hstep', rfl⟩ := Interleaving.exists_step hstep
    exact ⟨noted', rfl, hserving.start hst hcall hstep'⟩
  | run h htimely hstep ih =>
    obtain ⟨noted, rfl, hserving⟩ := ih
    obtain ⟨noted', hstep', rfl⟩ := Interleaving.exists_step hstep
    exact ⟨noted', rfl, hserving.run hfold hst htimely hstep'⟩
  | stop h hstep ih =>
    obtain ⟨noted, rfl, hserving⟩ := ih
    obtain ⟨noted', hstep', rfl⟩ := Interleaving.exists_step hstep
    exact ⟨noted', rfl, hserving.stop hstep'⟩

end Steps

/-! ## The runs -/

variable {st : Server} {calls : List Call} {seen : List World} {world : World}

/-- A session that returned has tagged its task. -/
theorem Serving.tagged {noted : NotedWorld} (h : Serving st calls seen noted) {th : NotedSession}
    (hth : th ∈ noted.threads) {reply : Reply} (hend : th.prog = .pure reply) :
    ∃ taskId, Tagged noted.shared.db th.tag taskId := by
  obtain ⟨call, p, tx, notes⟩ := th
  obtain rfl : p = .pure reply := hend
  have hstands := h.stands _ hth
  have hdb := h.committed.consistent
  have hended : Ended call (.ok reply) (tx, notes) := h.reachable.orderly.conforms _ hth
  rcases hended with ⟨tx', hsaved, -⟩ | ⟨hunsaved, hrests⟩
  · change notes.saved = some tx' at hsaved
    obtain ⟨taskId, -, htagged⟩ := hstands.saved (by rw [hsaved]; simp)
    exact ⟨taskId, htagged⟩
  · -- nothing was to be saved: the names are those the task had, and has
    have hlasts := hstands.lasts hunsaved
    cases hrests with
    | replace htask hstage hsame =>
      obtain ⟨hnamed, hasks⟩ := asks_of_changes (noted.shared.db.linksOf _) (.replace htask)
      exact ⟨_, tagged_of_setsTags (.named hnamed) (setsTags_of_rest hdb hasks hlasts hstage)⟩
    | patch htask hstage hsame =>
      obtain ⟨hnamed, hasks⟩ := asks_of_changes (noted.shared.db.linksOf _) (.patch htask)
      exact ⟨_, tagged_of_setsTags (.named hnamed) (setsTags_of_rest hdb hasks hlasts hstage)⟩
    | legalMoves | seed => cases (h.begun _ hth).2.sets

/-- **Tags are created on use.** Of a run of creations, replacements and patches of different tasks
under different titles, in which no INSERT of a tag finds its key stored or inserted by another open
transaction: no key is stored twice; a call whose checks pass does not raise, and one that raised
failed for itself; and the task of a call that returned is linked to the one tag of each name. -/
theorem tags_created_on_use (hfold : FoldsCleanly) (hst : Committed st)
    (h : TagRun st timely calls seen world) :
    (tagKeys world.shared.db).Nodup ∧ ∀ th ∈ world.threads,
      (ChecksPass st seen th.tag → ∀ e, th.prog ≠ .raise e)
        ∧ (∀ e, th.prog = .raise e → OwnFailure (Clashes st.db th.tag) e)
        ∧ ∀ reply, th.prog = .pure reply → ∃ taskId, Concerns world.shared.db th.tag taskId
          ∧ ∀ names, suppliedTags th.tag = some names → ∀ name ∈ names,
            (tagKeys world.shared.db).count (Tag.normalizeName name) = 1
              ∧ Tag.normalizeName name ∈ linkedKeys world.shared.db taskId := by
  obtain ⟨noted, rfl, hserving⟩ := h.serving hfold hst
  have hkeys := hserving.committed.consistent.keys
  refine ⟨hkeys, fun th hth => ?_⟩
  obtain ⟨session, hsession, rfl⟩ := List.mem_map.1 hth
  have hstands := hserving.stands session hsession
  refine ⟨fun hpass e he => ?_, fun e he => ?_, fun reply hreply => ?_⟩
  · have hgranted := hstands.granted hpass
    rw [show session.prog = .raise e from he] at hgranted
    exact hgranted
  · have hraising := hstands.raising
    rw [show session.prog = .raise e from he] at hraising
    exact hraising
  · obtain ⟨taskId, hconcerns, hlinked⟩ := hserving.tagged hsession hreply
    refine ⟨taskId, hconcerns, fun names hnames name hname => ?_⟩
    have hmem := hlinked names hnames name hname
    obtain ⟨t, ht, -, hkey⟩ := mem_linkedKeys.1 hmem
    exact ⟨List.count_eq_one_of_mem hkeys (hkey ▸ List.mem_map_of_mem ht), hmem⟩

/-- The sessions are those of the calls. -/
theorem TagRun.tags {test : World → Nat → Bool} (h : TagRun st test calls seen world) :
    ∀ th ∈ world.threads, th.tag ∈ calls := by
  induction h with
  | idle => exact fun _ hth => nomatch hth
  | start h hcall hstep ih =>
    obtain rfl := Option.some.inj hstep
    intro th hth
    rcases List.mem_append.1 hth with hth | hth
    · exact List.mem_cons_of_mem _ (ih th hth)
    · obtain rfl := List.mem_singleton.1 hth
      exact List.mem_cons_self
  | run h htest hstep ih =>
    obtain ⟨before, after, call, o, k, tx, hthreads, -, -, rfl⟩ := Interleaving.run_cases hstep
    rw [hthreads] at ih
    exact Machine.forall_mem_middle.2 (Machine.forall_mem_middle.1 ih)
  | stop h hstep ih =>
    obtain rfl := Option.some.inj hstep
    exact fun th hth => ih th (List.mem_of_mem_eraseIdx hth)

/-- A step of a session, if it is as the test says, and the worlds passed with it. -/
def runIf (test : World → Nat → Bool) (passed : List World × World) (i : Nat) :
    Option (List World × World) :=
  if test passed.2 i then
    (Interleaving.step rules passed.2 (.run i)).map fun world => (world :: passed.1, world)
  else none

/-- Some steps, by executing them. -/
theorem TagRun.steps {test : World → Nat → Bool} (h : TagRun st test calls seen world)
    {passed : List World × World} {is : List Nat}
    (hrun : is.foldlM (runIf test) (seen, world) = some passed) :
    TagRun st test calls passed.1 passed.2 := by
  induction is generalizing seen world with
  | nil => exact Option.some.inj hrun ▸ h
  | cons i is ih =>
    rw [List.foldlM_cons] at hrun
    obtain ⟨mid, hmid, hrest⟩ := Option.bind_eq_some_iff.1 hrun
    unfold runIf at hmid
    split at hmid
    next htest =>
      obtain ⟨world', hstep, rfl⟩ := Option.map_eq_some_iff.1 hmid
      exact ih (h.run htest hstep) hrest
    next => cases hmid

end Runs

/-! ## Two creations -/

section Creations

open Plain Sharp

/-- Two tasks under one new tag. -/
def firstCreate : Call := .create (py "A") none none 3 (some [py "x"])

def secondCreate : Call := .create (py "B") none none 3 (some [py "X"])

/-- The server once a definition has been put in place. -/
def forked : Server := (serve (.replaceActive forkDocument) ⟨.empty, 0⟩).2

theorem reachable_forked : Reachable forked := .tail (.replaceActive forkDocument) .refl rfl

/-- Both have started. -/
def creating (st : Server) : World :=
  ⟨[⟨firstCreate, firstCreate.program, .fresh⟩, ⟨secondCreate, secondCreate.program, .fresh⟩], st⟩

/-- The worlds until then. -/
def started (st : Server) : List World :=
  [creating st, ⟨[⟨firstCreate, firstCreate.program, .fresh⟩], st⟩, ⟨[], st⟩]

theorem tagRun_creating (st : Server) (test : World → Nat → Bool) :
    TagRun st test [secondCreate, firstCreate] (started st) (creating st) := by
  have hfirst : Begins st [] firstCreate :=
    { sets := rfl, named := nofun, differ := fun _ hmem => nomatch hmem }
  have hdiffer : Differ firstCreate secondCreate := by
    refine ⟨nofun, fun title title' htitle htitle' => ?_⟩
    obtain rfl := Option.some.inj htitle
    obtain rfl := Option.some.inj htitle'
    decide
  have hsecond : Begins st [firstCreate] secondCreate :=
    { sets := rfl, named := nofun, differ := fun _ hmem => List.mem_singleton.1 hmem ▸ hdiffer }
  exact (TagRun.idle.start hfirst rfl).start hsecond rfl

/-- The definition lets new tasks in, and no title is taken. -/
theorem admits_forked : (∀ title description priority tags,
      CheckedWith [] forked.db (.create title description none priority tags))
    ∧ ∀ call, ¬ Clashes forked.db call := by
  have hentry : ((activeWorkflow forked.db).any fun w =>
      (Engine.resolveEntry ⟨w⟩ none (contextWith [] ⟨w⟩ [] none none)).toOption.isSome) = true := by
    decide +kernel
  have hnone : forked.db.tasks.isEmpty = true := by decide +kernel
  refine ⟨fun title description priority tags => ?_, fun call => ?_⟩
  · obtain ⟨w, hactive, hok⟩ := (Option.any_eq_true _ _).1 hentry
    generalize hresolved : Engine.resolveEntry ⟨w⟩ none _ = r at hok
    cases r with
    | ok resolved => exact .create hactive hresolved
    | error e => cases hok
  · rintro ⟨title, -, row, hrow, -⟩
    rw [List.isEmpty_iff.1 hnone] at hrow
    cases hrow

/-- No session counts the tasks. -/
def uncounted (seen : List World) : Bool :=
  seen.all fun world => world.threads.all fun th => !counting th.prog

/-- The checks of such a call pass, if it counts no tasks. -/
theorem checksPass_tagged {title name : PyStr} (htitle : NonBlankTitle title)
    (hfits : TitleFits title) (hname : AcceptedNames [name]) (hkeyable : ¬ Blank name)
    (hkey : foldedLength (strip name) ≤ nameMaxLength ∧ Encodable name) {seen : List World}
    (huncounted : uncounted seen = true) :
    ChecksPass forked seen (.create title none none 3 (some [name])) := by
  obtain ⟨hadmits, hfree⟩ := admits_forked
  refine ⟨⟨fun title' htitle' => ?_, fun _ hd => (nomatch hd), fun n hn => ?_,
    fun names hnames => ?_, rfl⟩, ⟨rfl, fun title' htitle' => ?_, fun _ hd => (nomatch hd),
    ⟨List.forall_mem_singleton.2 hkeyable, fun name' hname' _ => ?_⟩, hfree _⟩, ⟨[], hadmits ..⟩,
    fun world hworld th hth _ hcounting => ?_⟩
  · exact Option.some.inj htitle' ▸ htitle
  · obtain rfl := Option.some.inj hn
    decide
  · exact Option.some.inj hnames ▸ hname
  · exact Option.some.inj htitle' ▸ hfits
  · exact List.mem_singleton.1 hname' ▸ hkey
  · have hno := List.all_eq_true.1 (List.all_eq_true.1 huncounted world hworld) th hth
    rw [hcounting] at hno
    cases hno

/-- Those of both do. -/
theorem checksPass_creating {seen : List World}
    (huncounted : uncounted seen = true) :
    ChecksPass forked seen firstCreate ∧ ChecksPass forked seen secondCreate :=
  ⟨checksPass_tagged ⟨by decide, by decide, 0x41, by decide, by decide⟩
      ⟨by decide, by decide, by decide, by decide⟩ (by decide) (by decide) (by decide) huncounted,
    checksPass_tagged ⟨by decide, by decide, 0x42, by decide, by decide⟩
      ⟨by decide, by decide, by decide, by decide⟩ (by decide) (by decide) (by decide) huncounted⟩

/-- The session returned. -/
def returned {α : Type} : SessionProg α → Bool
  | .pure _ => true
  | _ => false

/-- The second session reads the tags once the first has committed. -/
theorem tags_created_on_use_twice : ∃ (seen : List World) (world : World),
    TagRun forked timely [secondCreate, firstCreate] seen world
      ∧ (ChecksPass forked seen firstCreate ∧ ChecksPass forked seen secondCreate)
      ∧ (world.threads.all fun th => returned th.prog) = true
      ∧ (tagKeys world.shared.db).Nodup ∧ ∀ th ∈ world.threads,
        (ChecksPass forked seen th.tag → ∀ e, th.prog ≠ .raise e)
          ∧ (∀ e, th.prog = .raise e → OwnFailure (Clashes forked.db th.tag) e)
          ∧ ∀ reply, th.prog = .pure reply → ∃ taskId, Concerns world.shared.db th.tag taskId
            ∧ ∀ names, suppliedTags th.tag = some names → ∀ name ∈ names,
              (tagKeys world.shared.db).count (Tag.normalizeName name) = 1
                ∧ Tag.normalizeName name ∈ linkedKeys world.shared.db taskId := by
  have hrun : ((List.replicate 8 1 ++ List.replicate 23 0 ++ List.replicate 12 1).foldlM
      (runIf timely) (started forked, creating forked)).map (fun passed : List World × World =>
        uncounted passed.1 && passed.2.threads.all fun th => returned th.prog) = some true := by
    decide +kernel
  obtain ⟨⟨seen, world⟩, hpassed, hboth⟩ := Option.map_eq_some_iff.1 hrun
  obtain ⟨huncounted, hreturned⟩ := Bool.and_eq_true_iff.1 hboth
  have htagRun := (tagRun_creating forked timely).steps hpassed
  exact ⟨seen, world, htagRun, checksPass_creating huncounted, hreturned,
    tags_created_on_use foldsCleanly reachable_forked.committed htagRun⟩

/-- The session raised the violation of the constraint on tag names. -/
def raisedNameKey {α : Type} : SessionProg α → Bool
  | .raise (.db d) => d = .integrity Write.nameKeyConstraint
  | _ => false

/-- **Both sessions read the tags first**: the checks of both pass, and the second to insert ends
with the database's own error. -/
theorem tag_minted_twice : ∃ (seen : List World) (world : World),
    TagRun forked (fun _ _ => true) [secondCreate, firstCreate] seen world
      ∧ ∃ th ∈ world.threads, ChecksPass forked seen th.tag
        ∧ th.prog = .raise (.db (.integrity Write.nameKeyConstraint)) := by
  have hrun : ((List.replicate 15 0 ++ List.replicate 13 1 ++ List.replicate 8 0 ++ [1]).foldlM
      (runIf fun _ _ => true) (started forked, creating forked)).map
      (fun passed : List World × World =>
        uncounted passed.1 && passed.2.threads.any fun th => raisedNameKey th.prog)
          = some true := by
    decide +kernel
  obtain ⟨⟨seen, world⟩, hpassed, hboth⟩ := Option.map_eq_some_iff.1 hrun
  obtain ⟨huncounted, hraised⟩ := Bool.and_eq_true_iff.1 hboth
  have htagRun := (tagRun_creating forked _).steps hpassed
  obtain ⟨hfirst, hsecond⟩ := checksPass_creating huncounted
  obtain ⟨th, hth, hraised⟩ := List.any_eq_true.1 hraised
  refine ⟨seen, world, htagRun, th, hth, ?_, ?_⟩
  · rcases List.mem_pair.1 (htagRun.tags th hth) with htag | htag <;> rw [htag]
    · exact hsecond
    · exact hfirst
  obtain ⟨call, p, tx⟩ := th
  unfold raisedNameKey at hraised
  split at hraised
  next d heq =>
    obtain rfl := of_decide_eq_true hraised
    exact heq
  next => cases hraised

end Creations

end TaskService.Tagging
