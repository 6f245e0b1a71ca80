import TaskService.Sessions.Worlds
import Mathlib.Data.List.Flatten

/-!
# Ids are drawn once

An id is drawn by one session, and until that session commits no one else knows it: it is in no
table, in no event, and in no answer. So the ids of the tables stay distinct, and an id that was
loaded or reported means the same row ever after.

* **`Fresh`**: what is known of the ids drawn.
* **`fresh_of_reachable`**: it holds in every reachable world.
-/

namespace TaskService.Sessions

open Store Tasks Tags Workflows Concurrency

/-- The ids the tables mention: of tasks, tags and outbox rows, and of the tasks events
are about. -/
def mentions (db : Db) : List Uuid :=
  db.tasks.map Task.id ++ db.tags.map Tag.id ++ db.outbox.map OutboxRecord.id
    ++ db.outbox.filterMap fun r => subject? r.event.body

/-- The ids of the tasks and tags in an answer. -/
def Answer.ids : Answer → List Uuid
  | .task _ found => found.toList.map Task.id
  | .tagRows _ rows => rows.map Tag.id
  | .tag _ found => found.toList.map Tag.id
  | _ => []

/-- The ids a session was told of. -/
def Told.seen (told : Told) : List Uuid := told.flatMap Answer.ids

theorem seen_append (told : Told) (new : Option Answer) :
    Told.seen (told ++ new.toList) = told.seen ++ (new.toList.flatMap Answer.ids) :=
  List.flatMap_append

theorem ids_append (told new : Told) : Told.ids (told ++ new) = told.ids ++ new.ids :=
  List.filterMap_append

/-- What an answer shows is in the tables. -/
theorem ids_of_holds {answer : Answer} {db : Db} (h : answer.Holds db) {id : Uuid}
    (hid : id ∈ answer.ids) : id ∈ mentions db := by
  have hfound : ∀ {α : Type} {xs : List α} {f : α → Uuid} {p : α → Bool},
      id ∈ (xs.find? p).toList.map f → id ∈ xs.map f := by
    intro α xs f p hmem
    obtain ⟨x, hx, rfl⟩ := List.mem_map.1 hmem
    exact List.mem_map_of_mem (List.mem_of_find?_eq_some (Option.mem_toList.1 hx))
  simp only [mentions, List.append_assoc, List.mem_append]
  cases answer with
  | task key found =>
    subst h
    exact .inl (hfound hid)
  | tagRows keys rows =>
    subst h
    obtain ⟨t, ht, rfl⟩ := List.mem_map.1 hid
    exact .inr (.inl (List.mem_map_of_mem (List.mem_filter.1 ht).1))
  | tag key found =>
    subst h
    exact .inr (.inl (hfound hid))
  | _ => cases hid

variable [Runtime]

/-- **The ids a session has drawn after an operation**: those it had, or one more, drawn
just now. -/
theorem Owed.ids_cases [Unicode] [Jsonb] {call : Call} {o : Op} {tx : Tx} {notes : Notes}
    {st : Server} (h : Owed call o (tx, notes)) :
    (note o tx (exec o tx st).1 notes).told.ids = notes.told.ids
      ∨ (note o tx (exec o tx st).1 notes).told.ids = notes.told.ids ++ [Runtime.uuid7 st.drawn]
        ∧ (exec o tx st).2.2.drawn = st.drawn + 1 := by
  obtain ⟨new, htold, hnew⟩ := @Owed.told_cases _ _ _ call o tx notes st h
  rw [htold, ids_append]
  cases new with
  | none => exact .inl (List.append_nil _)
  | some answer =>
    cases answer with
    | drawn id =>
      obtain ⟨rfl, hnext⟩ := (hnew _ rfl).2 id rfl
      exact .inr ⟨rfl, hnext⟩
    | _ => exact .inl (List.append_nil _)

/-- One id is new at most. -/
theorem Owed.mem_ids [Unicode] [Jsonb] {call : Call} {o : Op} {tx : Tx} {notes : Notes}
    {st : Server} (h : Owed call o (tx, notes)) {id : Uuid}
    (hid : id ∈ (note o tx (exec o tx st).1 notes).told.ids) :
    id ∈ notes.told.ids ∨ id = Runtime.uuid7 st.drawn := by
  rcases @Owed.ids_cases _ _ _ call o tx notes st h with hsame | ⟨hdrawn, -⟩
  · exact .inl (hsame ▸ hid)
  · rw [hdrawn, List.mem_append, List.mem_singleton] at hid
    exact hid

/-- The id has been drawn. -/
def Drawn (st : Server) (id : Uuid) : Prop := ∃ n < st.drawn, id = Runtime.uuid7 n

theorem Drawn.mono {st st' : Server} {id : Uuid} (h : Drawn st id) (hle : st.drawn ≤ st'.drawn) :
    Drawn st' id := by
  obtain ⟨n, hn, rfl⟩ := h
  exact ⟨n, by omega, rfl⟩

/-- The next id has not. -/
theorem not_drawn (st : Server) : ¬ Drawn st (Runtime.uuid7 st.drawn) := by
  rintro ⟨n, hn, heq⟩
  have := Runtime.uuid7_injective heq
  omega

/-- **What is known of the ids drawn**: each by one session, none unknown to the counter, and those
of a session that has not committed are known to it alone. -/
structure Fresh (threads : List NotedSession) (st : Server) : Prop where
  nodup : (threads.flatMap fun th => th.here.2.told.ids).Nodup
  drawn : ∀ th ∈ threads, ∀ id ∈ th.here.2.told.ids, Drawn st id
  seen : ∀ th ∈ threads, ∀ id ∈ th.here.2.told.seen, Drawn st id
  stored : ∀ id ∈ mentions st.db, Drawn st id
  unsaved : ∀ th ∈ threads, th.here.2.saved = none → ∀ id ∈ th.here.2.told.ids,
    id ∉ mentions st.db ∧ ∀ other ∈ threads, id ∉ other.here.2.told.seen

variable {before after : List NotedSession} {th th' : NotedSession} {st st' : Server}

/-- What one operation tells a session is true, and an id it draws is the next one. -/
def TellsNow (st st' : Server) (new : Option Answer) : Prop :=
  ∀ answer ∈ new, answer.Holds st.db ∧ ∀ id, answer = .drawn id →
    id = Runtime.uuid7 st.drawn ∧ st'.drawn = st.drawn + 1

theorem TellsNow.draws {new : Option Answer} (h : TellsNow st st' new) :
    ∀ id ∈ new.toList.filterMap Answer.drawn?, id = Runtime.uuid7 st.drawn
      ∧ st'.drawn = st.drawn + 1 := by
  intro id hid
  obtain ⟨answer, hanswer, hdrawn⟩ := List.mem_filterMap.1 hid
  cases answer with
  | drawn id' =>
    obtain rfl := Option.some.inj hdrawn
    exact (h _ (Option.mem_toList.1 hanswer)).2 id' rfl
  | _ => cases hdrawn

theorem TellsNow.shows {new : Option Answer} (h : TellsNow st st' new) :
    ∀ id ∈ new.toList.flatMap Answer.ids, id ∈ mentions st.db := by
  intro id hid
  obtain ⟨answer, hanswer, hmem⟩ := List.mem_flatMap.1 hid
  exact ids_of_holds (h answer (Option.mem_toList.1 hanswer)).1 hmem

omit [Runtime] in
theorem nodup_drawn? (new : Option Answer) :
    (new.toList.filterMap Answer.drawn?).Nodup := by
  cases new with
  | none => exact .nil
  | some answer =>
    cases answer with
    | drawn id => exact List.nodup_singleton id
    | _ => exact .nil

/-- A session is told something, or draws an id. -/
theorem Fresh.tell (h : Fresh (before ++ th :: after) st) {new : Option Answer}
    (htold : th'.here.2.told = th.here.2.told ++ new.toList) (hsaved : th.here.2.saved = none)
    (hnew : TellsNow st st' new) (hdb : st'.db = st.db) (hle : st.drawn ≤ st'.drawn) :
    Fresh (before ++ th' :: after) st' := by
  obtain ⟨hnodup, hrest, hapart⟩ := Machine.nodup_flatMap_middle.1 h.nodup
  obtain ⟨hmine, hothers⟩ := Machine.forall_mem_middle.1 h.drawn
  obtain ⟨hseenMine, hseenOthers⟩ := Machine.forall_mem_middle.1 h.seen
  obtain ⟨hunsaved, hunsavedOthers⟩ := Machine.forall_mem_middle.1 h.unsaved
  have hdraws : th'.here.2.told.ids = th.here.2.told.ids ++ new.toList.filterMap Answer.drawn? := by
    rw [htold, ids_append]
    rfl
  have hshows : th'.here.2.told.seen = th.here.2.told.seen ++ new.toList.flatMap Answer.ids := by
    rw [htold, seen_append]
  -- ids drawn now are new
  have hundrawn : ∀ id ∈ new.toList.filterMap Answer.drawn?, ¬ Drawn st id := by
    intro id hid
    rw [(hnew.draws id hid).1]
    exact not_drawn st
  constructor
  · refine Machine.nodup_flatMap_middle.2 ⟨?_, hrest, fun id hid hother => ?_⟩
    · rw [hdraws]
      exact hnodup.append (nodup_drawn? new) fun id hold hid => hundrawn id hid (hmine id hold)
    · rw [hdraws] at hid
      rcases List.mem_append.1 hid with hid | hid
      · exact hapart id hid hother
      · obtain ⟨other, hmem, hid'⟩ := List.mem_flatMap.1 hother
        exact hundrawn id hid (hothers other hmem id hid')
  · refine Machine.forall_mem_middle.2 ⟨fun id hid => ?_,
      fun other hmem id hid => (hothers other hmem id hid).mono hle⟩
    rw [hdraws] at hid
    rcases List.mem_append.1 hid with hid | hid
    · exact (hmine id hid).mono hle
    · obtain ⟨heq, hnext⟩ := hnew.draws id hid
      exact ⟨st.drawn, by omega, heq⟩
  · refine Machine.forall_mem_middle.2 ⟨fun id hid => ?_,
      fun other hmem id hid => (hseenOthers other hmem id hid).mono hle⟩
    rw [hshows] at hid
    rcases List.mem_append.1 hid with hid | hid
    · exact (hseenMine id hid).mono hle
    · exact (h.stored id (hnew.shows id hid)).mono hle
  · rw [hdb]
    exact fun id hid => (h.stored id hid).mono hle
  · rw [hdb]
    -- what an open session drew stays unseen
    have hkeep : ∀ id, id ∉ mentions st.db →
        (∀ other ∈ before ++ th :: after, id ∉ other.here.2.told.seen) →
        ∀ other ∈ before ++ th' :: after, id ∉ other.here.2.told.seen := by
      intro id hnot hunseen
      obtain ⟨hunseen, hunseenOthers⟩ := Machine.forall_mem_middle.1 hunseen
      refine Machine.forall_mem_middle.2 ⟨fun hid => ?_, hunseenOthers⟩
      rw [hshows] at hid
      rcases List.mem_append.1 hid with hid | hid
      · exact hunseen hid
      · exact hnot (hnew.shows id hid)
    refine Machine.forall_mem_middle.2 ⟨fun _ id hid => ?_, fun other hmem hopen id hid => ?_⟩
    · rw [hdraws] at hid
      rcases List.mem_append.1 hid with hid | hid
      · obtain ⟨hnot, hunseen⟩ := hunsaved hsaved id hid
        exact ⟨hnot, hkeep id hnot hunseen⟩
      · have hnot : id ∉ mentions st.db := fun hmem => hundrawn id hid (h.stored id hmem)
        exact ⟨hnot,
          hkeep id hnot fun other hmem hid' => hundrawn id hid (h.seen other hmem id hid')⟩
    · obtain ⟨hnot, hunseen⟩ := hunsavedOthers other hmem hopen id hid
      exact ⟨hnot, hkeep id hnot hunseen⟩

/-- A session commits: what it drew may be known from now on. -/
theorem Fresh.save (h : Fresh (before ++ th :: after) st)
    (htold : th'.here.2.told = th.here.2.told) (hsaved' : th'.here.2.saved ≠ none)
    (hle : st.drawn ≤ st'.drawn)
    (hmentions : ∀ id ∈ mentions st'.db, id ∈ mentions st.db ∨ id ∈ th.here.2.told.ids
      ∨ id ∈ th.here.2.told.seen) : Fresh (before ++ th' :: after) st' := by
  obtain ⟨hnodup, hrest, hapart⟩ := Machine.nodup_flatMap_middle.1 h.nodup
  obtain ⟨hmine, hothers⟩ := Machine.forall_mem_middle.1 h.drawn
  obtain ⟨hseenMine, hseenOthers⟩ := Machine.forall_mem_middle.1 h.seen
  obtain ⟨hunsaved, hunsavedOthers⟩ := Machine.forall_mem_middle.1 h.unsaved
  constructor
  · rw [Machine.nodup_flatMap_middle, htold]
    exact ⟨hnodup, hrest, hapart⟩
  · rw [Machine.forall_mem_middle, htold]
    exact ⟨fun id hid => (hmine id hid).mono hle,
      fun other hmem id hid => (hothers other hmem id hid).mono hle⟩
  · rw [Machine.forall_mem_middle, htold]
    exact ⟨fun id hid => (hseenMine id hid).mono hle,
      fun other hmem id hid => (hseenOthers other hmem id hid).mono hle⟩
  · intro id hid
    -- what the commit mentions was stored, drawn or seen before
    rcases hmentions id hid with hold | hdrawn | hseen
    · exact (h.stored id hold).mono hle
    · exact (hmine id hdrawn).mono hle
    · exact (hseenMine id hseen).mono hle
  · refine Machine.forall_mem_middle.2
      ⟨fun hopen => absurd hopen hsaved', fun other hmem hopen id hid => ?_⟩
    obtain ⟨hnot, hunseen⟩ := hunsavedOthers other hmem hopen id hid
    obtain ⟨hunseenMine, hunseenOthers⟩ := Machine.forall_mem_middle.1 hunseen
    refine ⟨fun hid' => ?_, Machine.forall_mem_middle.2 ⟨htold ▸ hunseenMine, hunseenOthers⟩⟩
    -- an id that another open session drew is none of these
    rcases hmentions id hid' with hold | hdrawn | hseen
    · exact hnot hold
    · exact hapart id hdrawn (List.mem_flatMap.2 ⟨other, hmem, hid⟩)
    · exact hunseenMine hseen

/-- Sessions that end leave the others. -/
theorem Fresh.sublist {threads threads' : List NotedSession} (h : Fresh threads st)
    (hsub : threads'.Sublist threads) : Fresh threads' st where
  nodup := h.nodup.sublist (hsub.flatMap _)
  drawn th hth := h.drawn th (hsub.subset hth)
  seen th hth := h.seen th (hsub.subset hth)
  stored := h.stored
  unsaved th hth hopen id hid := by
    obtain ⟨hnot, hunseen⟩ := h.unsaved th (hsub.subset hth) hopen id hid
    exact ⟨hnot, fun other hother => hunseen other (hsub.subset hother)⟩

/-- A session that starts knows nothing. -/
theorem Fresh.start {threads : List NotedSession} (h : Fresh threads st)
    (htold : th.here.2.told = []) : Fresh (threads ++ [th]) st := by
  have hids : th.here.2.told.ids = [] := by rw [htold]; rfl
  have hseen : th.here.2.told.seen = [] := by rw [htold]; rfl
  constructor
  · rw [List.flatMap_append, List.flatMap_singleton, hids, List.append_nil]
    exact h.nodup
  · simpa [or_imp, forall_and, hids] using h.drawn
  · simpa [or_imp, forall_and, hseen] using h.seen
  · exact h.stored
  · simpa [or_imp, forall_and, hids, hseen] using h.unsaved

/-! ## What a commit mentions -/

section Effects

variable [Unicode] [Jsonb] {told : Told}

omit [Jsonb] [Runtime] in
/-- The tags minted have ids the session drew. -/
theorem TagStage.drawn {taskId : Uuid} {names : Option (List PyStr)} {minted : List Tag}
    {retag : Option Retag} {event : Option EventBody}
    (h : TagStage taskId told names minted retag event) : (minted.map Tag.id).Sublist told.ids := by
  cases h with
  | omitted => exact List.nil_sublist _
  | kept hbefore hresolved hsame => exact hresolved.drawn
  | changed hbefore hresolved hdiffers => exact hresolved.drawn

omit [Jsonb] [Runtime] in
/-- The task changed is one the session was told of. -/
theorem Changes.loaded {call : Call} {taskId : Uuid} {names : Option (List PyStr)}
    {engine : Option Engine} {previous updated : Task}
    (h : Changes told call taskId names engine previous updated) : Loaded taskId previous told := by
  cases h with
  | replace htask => exact htask.loaded
  | patch htask => exact htask.loaded

omit [Unicode] [Jsonb] [Runtime] in
theorem Loaded.mem_seen {taskId : Uuid} {task : Task} (h : Loaded taskId task told) :
    taskId ∈ told.seen :=
  List.mem_flatMap.2 ⟨_, h.read, by simp [Answer.ids, h.id]⟩

omit [Unicode] [Jsonb] [Runtime] in
theorem map_id_amended (tasks : List Task) (loaded current : Task) :
    (amended tasks loaded current).map Task.id = tasks.map Task.id := by
  rw [amended, List.map_map]
  refine List.map_congr_left fun row _ => ?_
  show (if row.id = loaded.id then updated loaded current row else row).id = row.id
  split <;> rfl

omit [Unicode] [Jsonb] [Runtime] in
theorem mem_mentions {db : Db} {id : Uuid} :
    id ∈ mentions db ↔ id ∈ db.tasks.map Task.id ∨ id ∈ db.tags.map Tag.id
      ∨ id ∈ db.outbox.map OutboxRecord.id ∨ ∃ r ∈ db.outbox, subject? r.event.body = some id := by
  simp only [mentions, List.append_assoc, List.mem_append, List.mem_filterMap]

omit [Unicode] [Jsonb] [Runtime] in
/-- What is mentioned after rows have joined the tables. -/
theorem mentions_of_grown {db db' : Db} (tasks : List Uuid) (tags : List Tag)
    {rows : List (OutboxRecord Event)} {P : Uuid → Prop}
    (htasks : ∀ id ∈ db'.tasks.map Task.id, id ∈ db.tasks.map Task.id ∨ id ∈ tasks)
    (htags : ∀ id ∈ db'.tags.map Tag.id, id ∈ db.tags.map Tag.id ∨ id ∈ tags.map Tag.id)
    (houtbox : db'.outbox = db.outbox ++ rows) (hnew : ∀ id ∈ tasks, P id)
    (hminted : ∀ id ∈ tags.map Tag.id, P id) (hrows : ∀ id ∈ rows.map OutboxRecord.id, P id)
    (hsubject : ∀ r ∈ rows, ∀ id, subject? r.event.body = some id → P id) :
    ∀ id ∈ mentions db', id ∈ mentions db ∨ P id := by
  intro id hid
  rw [mem_mentions, houtbox, List.map_append] at hid
  rw [mem_mentions]
  rcases hid with hid | hid | hid | ⟨r, hr, hid⟩
  · exact (htasks id hid).imp .inl (hnew id)
  · exact (htags id hid).imp (fun h => .inr (.inl h)) (hminted id)
  · exact (List.mem_append.1 hid).imp (fun h => .inr (.inr (.inl h))) (hrows id)
  · rcases List.mem_append.1 hr with hr | hr
    · exact .inl (.inr (.inr (.inr ⟨r, hr, hid⟩)))
    · exact .inr (hsubject r hr id hid)

omit [Runtime] in
/-- **A commit mentions only what was mentioned, and what the session drew or was told of.** -/
theorem Effect.mentions {tx : Tx} {db db' : Db} {call : Call} (h : Effect told tx db call db') :
    ∀ id ∈ mentions db', id ∈ Sessions.mentions db ∨ id ∈ told.ids ∨ id ∈ told.seen := by
  cases h with
  | @created title description status priority tags task minted retag event rows htask
      hstage hrows =>
    refine mentions_of_grown [task.id] minted (by simp) (by simp) rfl ?_ ?_ ?_ ?_
    · simpa using .inl htask.drawn
    · exact fun id hid => .inl (hstage.drawn.subset hid)
    · exact fun id hid => .inl (hrows.drawn.subset hid)
    · intro r hr id hid
      rcases List.mem_cons.1 (hrows.mem_bodies hr) with hbody | hbody
      · rw [hbody] at hid
        obtain rfl := Option.some.inj hid
        exact .inl htask.drawn
      · -- the tag event is about the task too
        rw [hstage.subject _ (Option.mem_toList.1 hbody)] at hid
        obtain rfl := Option.some.inj hid
        exact .inl htask.drawn
  | @changed call taskId names engine previous updated minted retag event rows htask hstage hrows =>
    obtain ⟨completes, hstaged, -⟩ := hrows.staged
    refine mentions_of_grown [] minted ?_ (by simp) rfl (by simp) ?_ ?_ ?_
    · rw [map_id_amended]
      exact fun id hid => .inl hid
    · exact fun id hid => .inl (hstage.drawn.subset hid)
    · exact fun id hid => .inl (hstaged.drawn.subset hid)
    · intro r hr id hid
      rw [hrows.subject (by rw [htask.ids.2]; exact hstage.subject) r hr] at hid
      obtain rfl := Option.some.inj hid
      rw [htask.ids.2]
      -- the task of a change was read, so its id was seen
      exact .inr htask.loaded.mem_seen
  | @deleted taskId task rows htask hrows =>
    refine mentions_of_grown [] [] ?_ (by simp) rfl (by simp) (by simp) ?_ ?_
    · exact fun id hid => .inl ((List.filter_sublist.map _).subset hid)
    · exact fun id hid => .inl (hrows.drawn.subset hid)
    · intro r hr id hid
      rw [List.mem_singleton.1 (hrows.mem_bodies hr)] at hid
      obtain rfl := Option.some.inj hid
      rw [htask.id]
      exact .inr htask.mem_seen
  | @tagDeleted tagId tag rows htag hid hcount hrows =>
    refine mentions_of_grown [] [] (by simp) ?_ rfl (by simp) (by simp) ?_ ?_
    · exact fun id hid => .inl ((List.filter_sublist.map _).subset hid)
    · exact fun id hid => .inl (hrows.drawn.subset hid)
    · intro r hr id hid
      rw [List.mem_singleton.1 (hrows.mem_bodies hr)] at hid
      cases hid
  | @defined document w counts highest createdAt rows hparse hcounts hfree hhighest hrows =>
    refine mentions_of_grown [] [] (by simp) (by simp) rfl (by simp) (by simp) ?_ ?_
    · exact fun id hid => .inl (hrows.drawn.subset hid)
    · intro r hr id hid
      rw [List.mem_singleton.1 (hrows.mem_bodies hr)] at hid
      cases hid
  | seeded => exact fun id hid => .inl hid

end Effects

/-! ## Every reachable world -/

variable [Unicode] [Jsonb]

/-- **In every reachable world ids are drawn once.** -/
theorem fresh_of_reachable {world : NotedWorld} (h : world.Reachable) :
    Fresh world.threads world.shared := by
  induction h with
  | refl => exact ⟨.nil, by simp, by simp, by simp [mentions, Db.empty], by simp⟩
  | @tail world world' action hreach hstep ih =>
    cases action with
    | start t =>
      obtain rfl := Option.some.inj hstep
      exact ih.start rfl
    | stop i =>
      obtain rfl := Option.some.inj hstep
      exact ih.sublist (List.eraseIdx_sublist _ i)
    | run i =>
      obtain ⟨before, after, call, o, k, tx, notes, hthreads, -, hturn, rfl⟩ :=
        turn_of_run hreach hstep
      rw [hthreads] at ih
      obtain ⟨new, htold, hnew⟩ := hturn.owed.told_cases
      rcases hturn.owed.db_cases with ⟨hdb, -⟩ | ⟨rfl, heq, hcommits, -⟩
      · exact ih.tell htold hturn.owed.unsaved hnew hdb (drawn_le o tx world.shared)
      · rw [heq]
        exact ih.save rfl (by simp [note]) (le_refl _) (hcommits.effect world.shared.db).mentions

omit [Unicode] [Jsonb] in
/-- An id that an open session drew is not mentioned. -/
theorem Fresh.not_mentioned {threads : List NotedSession} (h : Fresh threads st)
    {th : NotedSession} (hth : th ∈ threads) (hopen : th.here.2.saved = none) {id : Uuid}
    (hid : id ∈ th.here.2.told.ids) : id ∉ mentions st.db :=
  (h.unsaved th hth hopen id hid).1

/-- What the session drew is known to no one. -/
def Apart (notes : Notes) (st : Server) (others : List NotedSession) : Prop :=
  ∀ id ∈ notes.told.ids, id ∉ mentions st.db ∧ id ∉ notes.told.seen
    ∧ ∀ other ∈ others, id ∉ other.here.2.told.seen

theorem apart_of_reachable {call : Call} {p : SessionProg Reply} {tx : Tx} {notes : Notes}
    (h : NotedWorld.Reachable ⟨before ++ ⟨call, p, (tx, notes)⟩ :: after, st⟩)
    (hunsaved : notes.saved = none) : Apart notes st (before ++ after) := by
  intro id hid
  obtain ⟨hmine, -⟩ := Machine.forall_mem_middle.1 (fresh_of_reachable h).unsaved
  obtain ⟨hnot, hunseen⟩ := hmine hunsaved id hid
  obtain ⟨hown, hothers⟩ := Machine.forall_mem_middle.1 hunseen
  exact ⟨hnot, hown, hothers⟩

/-- **The ids of the stored tasks are distinct.** -/
theorem nodup_tasks_of_reachable {world : NotedWorld} (h : world.Reachable) :
    (world.shared.db.tasks.map Task.id).Nodup := by
  refine tables_of_reachable (I := fun db => (db.tasks.map Task.id).Nodup) .nil
    (fun {world before after call k tx notes} hreach hthreads hturn _ heffect hnodup => ?_) h
  have hfresh := fresh_of_reachable hreach
  have hmem : (⟨call, .op .commit k, (tx, notes)⟩ : NotedSession) ∈ world.threads := by
    rw [hthreads]
    simp
  generalize hview : view world.shared.db (writes tx) = db' at heffect ⊢
  cases heffect with
  | @created title description status priority tags task minted retag event rows htask =>
    have hnew : task.id ∉ world.shared.db.tasks.map Task.id := fun hold =>
      hfresh.not_mentioned hmem hturn.owed.unsaved htask.drawn (mem_mentions.2 (.inl hold))
    show ((world.shared.db.tasks ++ [task]).map Task.id).Nodup
    rw [List.map_append]
    exact hnodup.append (List.nodup_singleton _) fun id hold hid =>
      hnew (List.mem_singleton.1 hid ▸ hold)
  | changed =>
    rw [map_id_amended]
    exact hnodup
  | deleted => exact hnodup.sublist (List.filter_sublist.map _)
  | _ => exact hnodup

omit [Runtime] [Unicode] [Jsonb] in
/-- A task row is found by its id. -/
theorem find?_task {tasks : List Task} (h : (tasks.map Task.id).Nodup) {row : Task}
    (hrow : row ∈ tasks) :
    (tasks.find? fun t => t.id = row.id) = some row := by
  cases hfind : tasks.find? fun t => t.id = row.id with
  | none => simpa using List.find?_eq_none.1 hfind row hrow
  | some found =>
    have hid : found.id = row.id := by simpa using List.find?_some hfind
    rw [List.inj_on_of_nodup_map h (List.mem_of_find?_eq_some hfind) hrow hid]

end TaskService.Sessions
