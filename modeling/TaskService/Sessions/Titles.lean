import TaskService.Sessions.Replacements
import TaskService.Sessions.Uniqueness
import TaskService.Store.Refusals
import TaskService.Tasks.Fields

/-!
# The stored tasks, in every committed state

Two transactions that overlap can leave a row that neither of them made: an UPDATE sets the columns
its session changed, and leaves the others. So what is known of every stored task is known column by
column. That the key is that of the title relates two columns, and takes a condition.

* **`nodup_titleKeys_of_reachable`**: no two stored tasks have one key.
* **`stored_of_reachable`**: whatever is stored fits its columns.
* **`valid_of_reachable`**: every stored task can be copied.
* **`keyed_of_run`**: every stored task has the key of its title, as long as no UPDATE leaves out
  one of the two that is not as it was loaded.
-/

namespace TaskService.Sessions

open Store Tasks Tags Workflows Concurrency

/-! ## Distinct keys -/

/-- The keys of the stored titles. -/
def titleKeys (db : Db) : List PyStr := db.tasks.map Task.titleKey

/-- `title_key`. -/
def titleKeyColumn : UniqueColumn where
  stored := titleKeys
  inserted | .insertTask t => some t.titleKey | _ => none
  Grows | .updateTask _ _ | .deleteTask _ => False | _ => True

variable [Unicode] [Jsonb] [Runtime]

omit [Unicode] [Runtime] in
theorem lawful_titleKeyColumn : titleKeyColumn.Lawful where
  empty := rfl
  early w hw := by
    cases w with
    | insertTask t | insertTag t | deleteTaskTags links => trivial
    | _ => cases hw
  unlinks _ := rfl
  apply db w hw := by
    cases w with
    | insertTask t => simp [titleKeyColumn, titleKeys, Write.apply]
    | updateTask loaded current | deleteTask id => cases hw
    | _ => exact (List.append_nil _).symm
  check db w key hcheck hkey := by
    cases w with
    | insertTask t =>
      obtain rfl := Option.some.inj hkey
      intro hmem
      obtain ⟨row, hrow, hsame⟩ := List.mem_map.1 hmem
      exact (check_insertTask_eq_none.1 hcheck).2.2 row hrow hsame
    | _ => cases hkey
  conflicts db w w' key hkey hkey' := by
    cases w with
    | insertTask t =>
      cases w' with
      | insertTask t' =>
        have hsame : t.titleKey = t'.titleKey :=
          (Option.some.inj hkey).trans (Option.some.inj hkey').symm
        simp [conflicts, locks, hsame]
      | _ => cases hkey'
    | _ => cases hkey

omit [Unicode] [Runtime] in
/-- An UPDATE that passes keeps the keys distinct, also from those of others. -/
theorem nodup_titleKeys_update {db : Db} {loaded current : Task} {others : List PyStr}
    (hcheck : (Write.updateTask loaded current).check db = none)
    (hids : (db.tasks.map Task.id).Nodup)
    (hothers : loaded.titleKey ≠ current.titleKey → current.titleKey ∉ others)
    (h : (titleKeys db ++ others).Nodup) :
    (titleKeys ((Write.updateTask loaded current).apply db) ++ others).Nodup := by
  obtain ⟨-, -, hfree⟩ := check_updateTask_eq_none.1 hcheck
  change ((amended db.tasks loaded current).map Task.titleKey ++ others).Nodup
  by_cases hsame : loaded.titleKey = current.titleKey
  · -- the key is not among the columns that are set
    have hstay : (amended db.tasks loaded current).map Task.titleKey = titleKeys db := by
      rw [amended, List.map_map]
      refine List.map_congr_left fun row _ => ?_
      show (if row.id = loaded.id then updated loaded current row else row).titleKey
        = row.titleKey
      split
      · exact if_pos hsame
      · rfl
    rw [hstay]
    exact h
  · obtain ⟨hkeys, hnodup, hdisjoint⟩ := List.nodup_append'.1 h
    have hset : ∀ r : Task, (updated loaded current r).titleKey = current.titleKey :=
      fun r => if_neg hsame
    rw [amended, List.map_map]
    refine List.Nodup.append ?_ hnodup fun key hkey hother => ?_
    · -- the new key is none of the other rows'
      refine (List.nodup_map_iff_inj_on (List.Nodup.of_map _ hids)).2
        fun row hrow row' hrow' heq => ?_
      change (if row.id = loaded.id then updated loaded current row else row).titleKey
        = (if row'.id = loaded.id then updated loaded current row' else row').titleKey at heq
      -- each of the two rows is the one that is updated, or another
      by_cases hid : row.id = loaded.id <;> by_cases hid' : row'.id = loaded.id
      · exact List.inj_on_of_nodup_map hids hrow hrow' (hid.trans hid'.symm)
      · rw [if_pos hid, if_neg hid', hset] at heq
        exact absurd heq.symm (hfree hsame row' hrow' hid')
      · rw [if_neg hid, if_pos hid', hset] at heq
        exact absurd heq (hfree hsame row hrow hid)
      · rw [if_neg hid, if_neg hid'] at heq
        exact List.inj_on_of_nodup_map hkeys hrow hrow' heq
    · obtain ⟨row, hrow, rfl⟩ := List.mem_map.1 hkey
      change (if row.id = loaded.id then updated loaded current row else row).titleKey
        ∈ others at hother
      by_cases hid : row.id = loaded.id
      · rw [if_pos hid, hset] at hother
        exact hothers hsame hother
      · rw [if_neg hid] at hother
        exact hdisjoint (List.mem_map_of_mem hrow) hother

omit [Unicode] [Runtime] in
/-- An UPDATE of the key waits for a transaction that has inserted it. -/
theorem apart_of_update {o : Op} {tx other : Tx} {st : Server} {loaded current : Task}
    (h : permits o tx st other = true)
    (hissued : .updateTask loaded current ∈ statements st.db tx o)
    (hmoved : loaded.titleKey ≠ current.titleKey) :
    current.titleKey ∉ titleKeyColumn.claims other.log := by
  intro hkey
  obtain ⟨w, hw, hinserted⟩ := UniqueColumn.mem_claims.1 hkey
  unfold permits at h
  rw [Bool.and_eq_true, List.all_eq_true] at h
  have hconflict := List.all_eq_true.1 (h.2 _ hissued) _ hw
  cases w with
  | insertTask t =>
    have hsame : t.titleKey = current.titleKey := Option.some.inj hinserted
    simp [conflicts, locks, hmoved, hsame] at hconflict
  | _ => cases hinserted

omit [Unicode] [Jsonb] [Runtime] in
/-- Without a changed task nothing pending is an UPDATE. -/
theorem grows_or_shrinks_of_clean [Jsonb] {tx : Tx} (hclean : dirty tx = [])
    (hdeleted : ∀ w ∈ tx.deleted, ∀ loaded current, w ≠ .updateTask loaded current) :
    ∀ w ∈ pending tx, titleKeyColumn.Grows w ∨ titleKeyColumn.Shrinks w := by
  intro w hw
  have hnot : ∀ loaded current, w ≠ .updateTask loaded current := by
    rintro loaded current rfl
    simp only [pending, hclean, List.append_nil, List.mem_append, List.mem_filterMap] at hw
    rcases hw with (((((⟨row, -, hrow⟩ | ⟨row, -, hrow⟩) | ⟨row, -, hrow⟩) | ⟨row, -, hrow⟩)
      | ⟨row, -, hrow⟩) | hw)
    · cases row <;> cases hrow
    · cases row <;> cases hrow
    · cases row <;> cases hrow
    · cases row <;> cases hrow
    · cases row <;> cases hrow
    · exact hdeleted _ hw loaded current rfl
  cases w with
  | updateTask loaded current => exact absurd rfl (hnot loaded current)
  | deleteTask id => exact .inr fun db => List.filter_sublist.map _
  | _ => exact .inl trivial

section Commits

variable {lock : Option LockMode} {taskId : Uuid} {previous updated : Task} {minted : List Tag}
  {retag : Option Retag} {rows : List (OutboxRecord Event)}

omit [Unicode] [Jsonb] [Runtime] in
/-- What a change issues before its commit is on other tables. -/
theorem sparesTasks_issuedTags : ∀ w ∈ issuedTags minted retag, w.sparesTasks = true := by
  intro w hw
  cases retag with
  | none => cases hw
  | some change =>
    rcases List.mem_append.1 hw with hw | hw
    · obtain ⟨t, -, rfl⟩ := List.mem_map.1 hw
      rfl
    · obtain rfl := List.mem_singleton.1 hw
      rfl

omit [Unicode] [Jsonb] [Runtime] in
/-- So is what its commit issues, but for the UPDATE at the end. -/
theorem exists_spared_saving : ∃ ws : List Write, (∀ w ∈ ws, w.sparesTasks = true)
    ∧ pending ⟨lock, issuedTags minted retag, some (previous, updated),
        addedTags taskId minted retag ++ rows.map .outbox, []⟩
      = ws ++ if previous = updated then [] else [.updateTask previous updated] := by
  refine ⟨_, fun w hw => ?_, pending_saving⟩
  simp only [List.mem_append, List.mem_map] at hw
  rcases hw with (⟨r, -, rfl⟩ | ⟨t, -, rfl⟩) | ⟨l, -, rfl⟩ <;> rfl

omit [Unicode] [Runtime] in
/-- The commit of a change keeps the keys distinct. -/
theorem nodup_titleKeys_saving {tx : Tx} {st : Server} {others : List NotedSession}
    (htx : tx = ⟨lock, issuedTags minted retag, some (previous, updated),
      addedTags taskId minted retag ++ rows.map .outbox, []⟩)
    (hids : (st.db.tasks.map Task.id).Nodup)
    (hpermitted : ∀ other ∈ others, permits .commit tx st other.here.1 = true)
    (hpass : Passes (view st.db tx.log) (pending tx))
    (h : (titleKeys (view st.db tx.log)
      ++ others.flatMap fun th => titleKeyColumn.claims th.here.1.log).Nodup) :
    (titleKeys (view st.db (writes tx))
      ++ others.flatMap fun th => titleKeyColumn.claims th.here.1.log).Nodup := by
  obtain ⟨ws, hspares, hpending⟩ :=
    @exists_spared_saving lock taskId previous updated minted retag rows
  rw [← htx] at hpending
  have hlog : (view st.db tx.log).tasks = st.db.tasks := by
    rw [htx]
    exact tasks_view sparesTasks_issuedTags st.db
  have htasks := (tasks_view hspares (view st.db tx.log)).trans hlog
  have hkeys : titleKeys (view st.db tx.log) = titleKeys (view (view st.db tx.log) ws) :=
    congrArg (List.map Task.titleKey) (hlog.trans htasks.symm)
  rw [hpending] at hpass
  obtain ⟨-, hlast⟩ := passes_append.1 hpass
  rw [writes, view_append, hpending, view_append]
  rw [hkeys] at h
  by_cases heq : previous = updated
  · rw [if_pos heq]
    exact h
  · rw [if_neg heq] at hlast hpending ⊢
    refine nodup_titleKeys_update hlast.1 (htasks ▸ hids) (fun hmoved hother => ?_) h
    obtain ⟨other, hmem, hkey⟩ := List.mem_flatMap.1 hother
    refine apart_of_update (hpermitted other hmem) ?_ hmoved hkey
    show _ ∈ pending tx
    rw [hpending]
    exact List.mem_append_right _ (List.mem_singleton.2 rfl)

end Commits

/-- **No title key is stored or about to be stored twice.** -/
theorem unique_titles_of_reachable {noted : NotedWorld} (h : noted.Reachable) :
    titleKeyColumn.Unique noted.threads noted.shared := by
  refine lawful_titleKeyColumn.unique_of_reachable
    (fun {world before after call k tx notes} hreach _ hturn hpass hothers hunique => ?_) h
  have hclean : dirty tx = [] →
      (∀ w ∈ tx.deleted, ∀ loaded current, w ≠ .updateTask loaded current) →
      (titleKeys (view world.shared.db (writes tx))
        ++ (before ++ after).flatMap fun th => titleKeyColumn.claims th.here.1.log).Nodup := by
    intro hdirty hdeleted
    rw [writes, view_append]
    exact lawful_titleKeyColumn.nodup_view hpass (grows_or_shrinks_of_clean hdirty hdeleted) hothers
      hunique
  have hcommits := hturn.owed.commit rfl
  cases hcommits with
  | replace | patch =>
    exact nodup_titleKeys_saving rfl (nodup_tasks_of_reachable hreach) hturn.permitted hpass hunique
  | delete | deleteTag => exact hclean (by simp [dirty]) (by simp)
  | _ => exact hclean (by simp [dirty]) (List.forall_mem_nil _)

/-- **No two stored tasks have one key.** -/
theorem nodup_titleKeys_of_reachable {noted : NotedWorld} (h : noted.Reachable) :
    (titleKeys noted.shared.db).Nodup :=
  (List.nodup_append'.1 (unique_titles_of_reachable h)).1

/-! ## Bounds -/

section Bounds

/-- What no column checks: the title is not empty, and has a key; the priority is one of five. -/
structure InBounds (t : Task) : Prop where
  title : titleMinLength ≤ t.title.length
  titleKey : t.titleKey ≠ []
  priority : priorityMin ≤ t.priority ∧ t.priority ≤ priorityMax

omit [Jsonb] [Runtime]

variable {told : Told} {call : Call} {taskId : Uuid} {names : Option (List PyStr)}
  {engine : Option Engine} {previous updated : Task}

/-- A change sets the key to that of a cleaned title. -/
theorem Changes.titleKey_ne_nil (h : Changes told call taskId names engine previous updated)
    (hmoved : previous.titleKey ≠ updated.titleKey) : updated.titleKey ≠ [] := by
  cases h with
  | replace htask =>
    obtain ⟨hne, rfl⟩ := Task.applyReplace_eq_ok.1 htask.applied
    exact hne
  | @patch _ fields _ _ _ _ htask =>
    obtain ⟨-, hne, rfl⟩ := Task.applyPatch_eq_ok.1 htask.applied
    cases htitle : fields.title with
    | none =>
      rw [htitle] at hmoved
      exact absurd rfl hmoved
    | some title => exact hne title htitle

/-- A change leaves the fields that are validated within their bounds. -/
theorem Changes.valid {event : Option EventBody} {rows : List (OutboxRecord Event)}
    (h : Changes told call taskId names engine previous updated)
    (hrows : Narrates engine previous updated event rows told) :
    titleMinLength ≤ updated.title.length
      ∧ priorityMin ≤ updated.priority ∧ updated.priority ≤ priorityMax := by
  by_cases hsame : updated.changedFields previous = []
  · -- no field changed, and the session validated the row it loaded
    obtain ⟨htitle, -, -, hpriority⟩ := Task.changedFields_eq_nil_iff.1 hsame
    rw [htitle, hpriority]
    exact ⟨h.loaded.valid.1.1, h.loaded.valid.2.2.2.1⟩
  · exact ⟨(hrows.valid hsame).1.1, (hrows.valid hsame).2.2.2.1⟩

/-- An UPDATE sets columns to values within their bounds. -/
theorem Changes.inBounds {event : Option EventBody} {rows : List (OutboxRecord Event)}
    (h : Changes told call taskId names engine previous updated)
    (hrows : Narrates engine previous updated event rows told) {row : Task} (hrow : InBounds row) :
    InBounds (Store.updated previous updated row) := by
  obtain ⟨htitle, hpriority⟩ := h.valid hrows
  refine ⟨of_column (P := fun title : PyStr => titleMinLength ≤ title.length)
    (fun _ => htitle) hrow.title, ?_, ?_⟩
  · exact of_column (P := fun key : PyStr => key ≠ []) h.titleKey_ne_nil hrow.titleKey
  · exact of_column (P := fun n : Int => priorityMin ≤ n ∧ n ≤ priorityMax) (fun _ => hpriority)
      hrow.priority

/-- A new task is within them. -/
theorem Admits.inBounds {title : PyStr} {description status : Option PyStr} {priority : Int}
    {task : Task} (h : Admits title description status priority told task) : InBounds task := by
  refine ⟨h.valid.1.1, ?_, h.valid.2.2.2.1⟩
  obtain ⟨hne, hmade⟩ := Task.fromInput_eq_ok.1 h.made
  rw [hmade]
  exact hne

end Bounds

/-- **Every stored task is within its bounds.** -/
theorem inBounds_of_reachable {noted : NotedWorld} (h : noted.Reachable) :
    ∀ t ∈ noted.shared.db.tasks, InBounds t := by
  refine tables_of_reachable (I := fun db => ∀ t ∈ db.tasks, InBounds t) (fun _ ht => nomatch ht)
    (fun {world before after call k tx notes} _ _ _ _ heffect hold => ?_) h
  generalize view world.shared.db (writes tx) = db' at heffect ⊢
  intro t ht
  cases heffect with
  | created htask =>
    rcases List.mem_append.1 ht with ht | ht
    · exact hold t ht
    · obtain rfl := List.mem_singleton.1 ht
      exact htask.inBounds
  | changed htask hstage hrows =>
    obtain ⟨row, hrow, rfl⟩ := List.mem_map.1 ht
    split
    · exact htask.inBounds hrows (hold row hrow)
    · exact hold row hrow
  | deleted => exact hold t (List.mem_filter.1 ht).1
  | _ => exact hold t ht

/-! ## Columns -/

/-- What an open transaction has issued fits its columns. -/
theorem fitting_of_reachable {noted : NotedWorld} (h : noted.Reachable) :
    ∀ th ∈ noted.threads, ∀ w ∈ th.here.1.log, w.Fitting := by
  refine facts_of_reachable (P := fun _ here _ => ∀ w ∈ here.1.log, w.Fitting)
    (fun _ _ _ hw => (nomatch hw)) (fun {before after call o k tx notes st} _ _ =>
      ⟨fun hlog w hw => ?_, fun _ _ hlog => hlog⟩) h
  change w ∈ (exec o tx st).2.1.log at hw
  rcases exec_log o tx st with heq | heq | ⟨-, -, hpass, extra, heq, hextra⟩ <;> rw [heq] at hw
  · cases hw
  · exact hlog w hw
  · rcases List.mem_append.1 hw with hw | hw
    · -- what was pending passed its check
      exact (List.mem_append.1 hw).elim (hlog w) (fitting_of_passes hpass w)
    · obtain ⟨links, rfl⟩ := hextra w hw
      trivial

/-- **Whatever is stored fits its columns.** -/
theorem stored_of_reachable {noted : NotedWorld} (h : noted.Reachable) :
    Stored noted.shared.db := by
  refine tables_of_reachable (I := Stored) stored_empty
    (fun {world before after call k tx notes} hreach hthreads _ hpass _ hstored => ?_) h
  have hlog := fitting_of_reachable hreach ⟨call, .op .commit k, (tx, notes)⟩
    (by rw [hthreads]; simp)
  refine hstored.view fun w hw => ?_
  exact (List.mem_append.1 hw).elim (hlog w) (fitting_of_passes hpass w)

/-- **Every stored task can be copied.** -/
theorem valid_of_reachable {noted : NotedWorld} (h : noted.Reachable) :
    ∀ t ∈ noted.shared.db.tasks, t.Valid := by
  intro t ht
  obtain ⟨htitle, hkey, hdescription, -, -⟩ := (stored_of_reachable h).tasks t ht
  have hbounds := inBounds_of_reachable h t ht
  exact ⟨⟨hbounds.title, htitle.1⟩, hkey.1, fun d hd => (hdescription d hd).1, hbounds.priority,
    htitle.2.2, hkey.2.2, fun d hd => (hdescription d hd).2.2⟩

/-! ## The key of the title -/

section Keyed

variable {told : Told} {tx : Tx} {call : Call} {taskId : Uuid} {names : Option (List PyStr)}
  {engine : Option Engine} {previous current : Task}

/-- The UPDATE leaves out neither the title nor the key of the row if it is not as it was loaded. -/
def SparesTitle (previous current row : Task) : Prop :=
  Kept Task.title previous current row ∧ Kept Task.titleKey previous current row

omit [Jsonb] [Runtime] in
/-- A changed task has the key of its title, or the title and the key it had. -/
theorem Changes.keyed_or (h : Changes told call taskId names engine previous current) :
    current.Keyed ∨ current.title = previous.title ∧ current.titleKey = previous.titleKey := by
  cases h with
  | replace htask =>
    obtain ⟨-, rfl⟩ := Task.applyReplace_eq_ok.1 htask.applied
    exact .inl (Task.normalizeTitle_strip _).symm
  | @patch _ fields _ _ _ _ htask =>
    obtain ⟨-, -, rfl⟩ := Task.applyPatch_eq_ok.1 htask.applied
    cases hfield : fields.title with
    | none => exact .inr ⟨rfl, rfl⟩
    | some title => exact .inl (Task.normalizeTitle_strip title).symm

omit [Jsonb] [Runtime] in
theorem Changes.keyed (h : Changes told call taskId names engine previous current)
    (hkeyed : previous.Keyed) : current.Keyed := by
  rcases h.keyed_or with hnew | ⟨htitle, hkey⟩
  · exact hnew
  · rw [Task.Keyed, htitle, hkey]
    exact hkeyed

omit [Jsonb] [Runtime] in
/-- An UPDATE that keeps the title leaves the row with the key of its title. -/
theorem Changes.keyed_updated (h : Changes told call taskId names engine previous current)
    {row : Task} (hkept : SparesTitle previous current row) (hkeyed : row.Keyed) :
    (updated previous current row).Keyed := by
  obtain ⟨htitle, hkey⟩ := hkept
  show column previous.titleKey current.titleKey row.titleKey
    = Task.normalizeTitle (column previous.title current.title row.title)
  rw [htitle.column_eq, hkey.column_eq]
  rcases h.keyed_or with hnew | ⟨hsame, hsameKey⟩
  · exact hnew
  · rw [hsame, hsameKey, ← htitle hsame.symm, ← hkey hsameKey.symm]
    exact hkeyed

omit [Runtime] in
/-- A commit that keeps the title stores tasks that have the keys of their titles. -/
theorem Effect.keyed {db db' : Db} (h : Effect told tx db call db')
    (hkept : ∀ {taskId names engine previous current},
      Changes told call taskId names engine previous current →
      tx.tracked = some (previous, current) →
      ∀ row ∈ db.tasks, row.id = previous.id → SparesTitle previous current row)
    (hkeyed : ∀ t ∈ db.tasks, t.Keyed) : ∀ t ∈ db'.tasks, t.Keyed := by
  intro t ht
  cases h with
  | created htask =>
    rcases List.mem_append.1 ht with ht | ht
    · exact hkeyed t ht
    · obtain rfl := List.mem_singleton.1 ht
      obtain ⟨-, hmade⟩ := Task.fromInput_eq_ok.1 htask.made
      rw [hmade]
      exact (Task.normalizeTitle_strip _).symm
  | changed htask _ _ _ htracked =>
    obtain ⟨row, hrow, rfl⟩ := List.mem_map.1 ht
    split
    next hid => exact htask.keyed_updated (hkept htask htracked row hrow hid) (hkeyed row hrow)
    next => exact hkeyed row hrow
  | deleted => exact hkeyed t (List.mem_filter.1 ht).1
  | _ => exact hkeyed t ht

/-- A commit that changes a task keeps the title of its row. -/
def CommitsSpareTitle (world : World) (action : Interleaving.Action Call) (_ : World) : Prop :=
  ∀ i call tx previous current, action = .run i → Saves world i call tx →
    tx.tracked = some (previous, current) →
    ∀ row ∈ world.shared.db.tasks, row.id = previous.id → SparesTitle previous current row

/-- **Every stored task has the key of its title**, in every run from tables where it is so, as long
as every UPDATE finds the title and the key as it had loaded them where it leaves them out. -/
theorem keyed_of_run {start : World} {worlds : List World} (h : start.Reachable)
    (hkeyed : ∀ t ∈ start.shared.db.tasks, t.Keyed)
    (hrun : Machine.Run (Interleaving.step rules) CommitsSpareTitle start worlds) :
    ∀ world ∈ worlds, ∀ t ∈ world.shared.db.tasks, t.Keyed := by
  obtain ⟨noted, hnoted, rfl⟩ := exists_noted h
  have hholds : Machine.Run (Interleaving.step rules)
      (fun _ _ world' => ∀ t ∈ world'.shared.db.tasks, t.Keyed) noted.forget worlds := by
    refine run_imp (J := fun noted => ∀ t ∈ noted.shared.db.tasks, t.Keyed) hrun hnoted rfl
      hkeyed ?_
    intro noted noted' action hreach hstep hkept hold
    suffices hnext : ∀ t ∈ noted'.shared.db.tasks, t.Keyed from ⟨hnext, hnext⟩
    cases action with
    | start t =>
      obtain rfl := Option.some.inj hstep
      exact hold
    | stop i =>
      obtain rfl := Option.some.inj hstep
      exact hold
    | run i =>
      obtain ⟨call, o, k, tx, notes, hrun⟩ := notedRun_of_step hreach hstep
      rw [hrun.shared]
      rcases hrun.turn.owed.db_cases with ⟨hdb, -⟩ | ⟨rfl, heq, hcommits, -⟩
      · rw [hdb]
        exact hold
      · have hsaves := hrun.saves (congrArg Prod.fst heq)
        rw [heq]
        exact (hcommits.effect noted.shared.db).keyed
          (fun _ htracked => hkept i call tx _ _ rfl hsaves htracked) hold
  exact hholds.forall_mem

end Keyed

end TaskService.Sessions
