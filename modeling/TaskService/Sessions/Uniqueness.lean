import TaskService.Sessions.Links

/-!
# Unique columns

A row is inserted only where its key is free, and a second transaction that inserts the same key
waits for the first. So no key is among the stored rows and those that open transactions have
inserted twice, for as long as commits keep it so.

* **`early_of_reachable`**: what an open transaction has issued.
* **`UniqueColumn.Lawful.unique_of_reachable`**: no key twice, stored or about to be.
-/

namespace TaskService.Sessions

open Store Tasks Tags Workflows Concurrency

/-! ## Logs -/

/-- The statements of an open transaction: tasks and tags inserted, links removed. -/
def Early : Write → Prop
  | .insertTask _ | .insertTag _ | .deleteTaskTags _ => True
  | _ => False

section Logs

variable [Jsonb] [Runtime]

/-- The log after an operation: emptied, as it was, or with everything pending. -/
theorem exec_log (o : Op) (tx : Tx) (st : Server) :
    (exec o tx st).2.1.log = [] ∨ (exec o tx st).2.1.log = tx.log
      ∨ ¬ o.Silent ∧ o ≠ .commit ∧ Passes (view st.db tx.log) (pending tx)
        ∧ ∃ extra, (exec o tx st).2.1.log = writes tx ++ extra
          ∧ ∀ w ∈ extra, ∃ links, w = .deleteTaskTags links := by
  rcases exec_cases o tx st with ⟨e, -, -, heq⟩ | ⟨hflush, a, heq⟩ <;> rw [heq]
  · exact .inl rfl
  by_cases hsilent : o.Silent
  · cases o with
    | rollback => exact .inl rfl
    | add row =>
      right
      left
      show (tx.add row).log = tx.log
      unfold Tx.add
      split
      · split <;> rfl
      · rfl
    | _ => first | exact .inr (.inl rfl) | exact hsilent.elim
  · -- What is not silent sends all that is pending; only unlinking adds a statement of its own.
    have hpass := (flush_eq_ok.1 (hflush.resolve_left hsilent)).1
    cases o with
    | commit => exact .inl rfl
    | deleteTaskTags taskId => exact .inr (.inr ⟨hsilent, by simp, hpass, _, rfl, by simp⟩)
    | getTask id =>
      refine .inr (.inr ⟨hsilent, by simp, hpass, [], ?_, by simp⟩)
      rw [List.append_nil]
      simp only [after]
      split <;> rfl
    | _ =>
      first
      | exact absurd trivial hsilent
      | exact .inr (.inr ⟨hsilent, by simp, hpass, [], (List.append_nil _).symm, by simp⟩)

end Logs

variable [Unicode] [Jsonb] [Runtime]

omit [Jsonb] [Runtime] in
/-- What a session issues before its commit. -/
theorem Owed.early {call : Call} {o : Op} {tx : Tx} {notes : Notes} (h : Owed call o (tx, notes))
    (hsilent : ¬ o.Silent) (hcommit : o ≠ .commit) : ∀ w ∈ writes tx, Early w := by
  intro w hw
  cases o with
  | flush | deleteTaskTags taskId =>
    rcases h.flushes (by simp) w hw with ⟨t, rfl⟩ | ⟨t, rfl⟩ <;> trivial
  | selectTagNames taskId | selectTags keys =>
    obtain ⟨t, rfl⟩ := h.readsTags (by simp) w hw
    trivial
  | commit => exact absurd rfl hcommit
  | _ =>
    first
    | exact absurd trivial hsilent
    | rw [show writes tx = [] from h.reads trivial] at hw; cases hw

/-- **The log of an open transaction.** -/
theorem early_of_reachable {noted : NotedWorld} (h : noted.Reachable) :
    ∀ th ∈ noted.threads, ∀ w ∈ th.here.1.log, Early w := by
  refine facts_of_reachable (P := fun _ here _ => ∀ w ∈ here.1.log, Early w)
    (fun _ _ _ hw => (nomatch hw)) (fun {before after call o k tx notes st} _ hturn =>
      ⟨fun hearly w hw => ?_, fun _ _ hearly => hearly⟩) h
  change w ∈ (exec o tx st).2.1.log at hw
  rcases exec_log o tx st with hlog | hlog | ⟨hsilent, hcommit, -, extra, hlog, hextra⟩
  · rw [hlog] at hw
    cases hw
  · rw [hlog] at hw
    exact hearly w hw
  · rw [hlog] at hw
    rcases List.mem_append.1 hw with hw | hw
    · exact hturn.owed.early hsilent hcommit w hw
    · obtain ⟨links, rfl⟩ := hextra w hw
      trivial

/-! ## Columns -/

/-- A unique column: its values in the tables, the value an INSERT adds, and the statements that
only add to it. -/
structure UniqueColumn where
  stored : Db → List PyStr
  inserted : Write → Option PyStr
  Grows : Write → Prop

/-- The values that some statements insert. -/
def UniqueColumn.claims (c : UniqueColumn) (ws : List Write) : List PyStr := ws.filterMap c.inserted

/-- No value twice, among the stored ones and those of the open transactions. -/
def UniqueColumn.Unique (c : UniqueColumn) (threads : List NotedSession) (st : Server) : Prop :=
  (c.stored st.db ++ threads.flatMap fun th => c.claims th.here.1.log).Nodup

omit [Unicode] [Runtime] in
/-- How the database treats the column: an INSERT passes where its value is free, and waits for
another transaction that has inserted the value. -/
structure UniqueColumn.Lawful (c : UniqueColumn) : Prop where
  empty : c.stored .empty = []
  early : ∀ w, Early w → c.Grows w
  unlinks : ∀ links, c.inserted (.deleteTaskTags links) = none
  apply : ∀ db w, c.Grows w → c.stored (w.apply db) = c.stored db ++ (c.inserted w).toList
  check : ∀ db w key, w.check db = none → c.inserted w = some key → key ∉ c.stored db
  conflicts : ∀ db w w' key, c.inserted w = some key → c.inserted w' = some key →
    conflicts db w w' = true

/-- The statement only takes from the column. -/
def UniqueColumn.Shrinks (c : UniqueColumn) (w : Write) : Prop :=
  ∀ db, (c.stored (w.apply db)).Sublist (c.stored db)

variable {c : UniqueColumn}

omit [Unicode] [Runtime] [Jsonb] in
theorem UniqueColumn.mem_claims {ws : List Write} {key : PyStr} :
    key ∈ c.claims ws ↔ ∃ w ∈ ws, c.inserted w = some key := List.mem_filterMap

omit [Unicode] [Runtime] in
/-- Statements that only add to the column. -/
theorem UniqueColumn.Lawful.stored_view (hc : c.Lawful) {db : Db} {ws : List Write}
    (h : ∀ w ∈ ws, c.Grows w) : c.stored (view db ws) = c.stored db ++ c.claims ws := by
  induction ws generalizing db with
  | nil => exact (List.append_nil _).symm
  | cons w ws ih =>
    obtain ⟨hw, hws⟩ := List.forall_mem_cons.1 h
    rw [view_cons, ih hws, hc.apply db w hw, List.append_assoc, UniqueColumn.claims,
      UniqueColumn.claims, List.filterMap_cons]
    cases c.inserted w <;> rfl

omit [Unicode] [Runtime] in
/-- **Statements that pass keep the values distinct** if each only adds to the column or only takes
from it, also from those of others that they do not insert. -/
theorem UniqueColumn.Lawful.nodup_view (hc : c.Lawful) {db : Db} {ws : List Write}
    {others : List PyStr} (hpass : Passes db ws) (hws : ∀ w ∈ ws, c.Grows w ∨ c.Shrinks w)
    (hothers : ∀ key ∈ c.claims ws, key ∉ others) (h : (c.stored db ++ others).Nodup) :
    (c.stored (view db ws) ++ others).Nodup := by
  induction ws generalizing db with
  | nil => exact h
  | cons w ws ih =>
    obtain ⟨hcheck, hrest⟩ := hpass
    obtain ⟨hw, hws⟩ := List.forall_mem_cons.1 hws
    have hkeys : ∀ key ∈ c.claims ws, key ∉ others := by
      intro key hkey
      obtain ⟨w', hw', hkey'⟩ := UniqueColumn.mem_claims.1 hkey
      exact hothers _ (UniqueColumn.mem_claims.2 ⟨w', List.mem_cons_of_mem _ hw', hkey'⟩)
    refine ih hrest hws hkeys ?_
    rcases hw with hgrows | hshrinks
    · rw [hc.apply db w hgrows]
      cases hkey : c.inserted w with
      | none =>
        rw [Option.toList_none, List.append_nil]
        exact h
      | some key =>
        have hother : key ∉ others :=
          hothers _ (UniqueColumn.mem_claims.2 ⟨w, List.mem_cons_self, hkey⟩)
        rw [Option.toList_some, List.append_assoc]
        refine List.nodup_middle.2 (List.nodup_cons.2 ⟨?_, h⟩)
        rw [List.mem_append]
        exact fun hmem => hmem.elim (hc.check db w key hcheck hkey) hother
    · exact h.sublist ((hshrinks db).append_right others)

omit [Unicode] [Runtime] in
/-- A transaction inserts no value that another one has inserted. -/
theorem UniqueColumn.Lawful.apart_of_permits (hc : c.Lawful) {o : Op} {tx other : Tx} {st : Server}
    (hsilent : ¬ o.Silent) (h : permits o tx st other = true) :
    ∀ key ∈ c.claims (pending tx), key ∉ c.claims other.log := by
  intro key hkey hother
  obtain ⟨w, hw, hinserted⟩ := UniqueColumn.mem_claims.1 hkey
  obtain ⟨w', hw', hinserted'⟩ := UniqueColumn.mem_claims.1 hother
  have hissued : w ∈ statements st.db tx o := by
    cases o with
    | deleteTaskTags taskId => exact List.mem_append_left _ hw
    | _ => first | exact absurd trivial hsilent | exact hw
  unfold permits at h
  rw [Bool.and_eq_true, List.all_eq_true] at h
  have hconflict := List.all_eq_true.1 (h.2 _ hissued) _ hw'
  rw [hc.conflicts st.db w w' key hinserted hinserted'] at hconflict
  cases hconflict

omit [Unicode] [Jsonb] [Runtime] in
theorem UniqueColumn.unique_middle {before after : List NotedSession} {th : NotedSession}
    {st : Server} : c.Unique (before ++ th :: after) st ↔ (c.stored st.db ++ c.claims th.here.1.log
      ++ (before ++ after).flatMap fun th => c.claims th.here.1.log).Nodup := by
  have hperm : ((before ++ th :: after).flatMap fun th => c.claims th.here.1.log).Perm
      (c.claims th.here.1.log
        ++ (before ++ after).flatMap fun th => c.claims th.here.1.log) :=
    (List.perm_middle (a := th)).flatMap_right _
  rw [UniqueColumn.Unique, (hperm.append_left (c.stored st.db)).nodup_iff, List.append_assoc]

omit [Runtime] in
/-- The values that a turn issues are those of no other open transaction. -/
theorem UniqueColumn.Lawful.apart_of_turn (hc : c.Lawful) {before after : List NotedSession}
    {call : Call} {o : Op} {tx : Tx} {notes : Notes} {st : Server}
    (hturn : Turn call o tx notes st (before ++ after)) (hsilent : ¬ o.Silent) :
    ∀ key ∈ c.claims (pending tx),
      key ∉ (before ++ after).flatMap fun th => c.claims th.here.1.log := by
  intro key hkey hother
  obtain ⟨other, hmem, hother⟩ := List.mem_flatMap.1 hother
  exact hc.apart_of_permits hsilent (hturn.permitted other hmem) key hkey hother

/-- An operation that does not commit keeps the values distinct. -/
theorem UniqueColumn.Lawful.turn (hc : c.Lawful) {before after : List NotedSession} {call : Call}
    {o : Op} {p p' : SessionProg Reply} {tx : Tx} {notes notes' : Notes} {st : Server}
    (h : c.Unique (before ++ ⟨call, p, (tx, notes)⟩ :: after) st)
    (hturn : Turn call o tx notes st (before ++ after)) (hearly : ∀ w ∈ tx.log, Early w)
    (hdb : (exec o tx st).2.2.db = st.db) :
    c.Unique (before ++ ⟨call, p', ((exec o tx st).2.1, notes')⟩ :: after)
    (exec o tx st).2.2 := by
  rw [UniqueColumn.unique_middle] at h ⊢
  show (c.stored (exec o tx st).2.2.db ++ c.claims (exec o tx st).2.1.log ++ _).Nodup
  rw [hdb]
  rcases exec_log o tx st with hlog | hlog | ⟨hsilent, hcommit, hpass, extra, hlog, hextra⟩
  · rw [hlog]
    refine h.sublist (List.Sublist.append_right ?_ _)
    simp [UniqueColumn.claims]
  · rw [hlog]
    exact h
  · have hnone : c.claims extra = [] := by
      refine List.eq_nil_iff_forall_not_mem.2 fun key hkey => ?_
      obtain ⟨w, hw, hinserted⟩ := UniqueColumn.mem_claims.1 hkey
      obtain ⟨links, rfl⟩ := hextra _ hw
      rw [hc.unlinks] at hinserted
      cases hinserted
    have hwrites := hturn.owed.early hsilent hcommit
    have hclaims : c.claims (writes tx ++ extra) = c.claims (writes tx) := by
      rw [UniqueColumn.claims, List.filterMap_append]
      change c.claims (writes tx) ++ c.claims extra = _
      rw [hnone, List.append_nil]
    rw [hlog, hclaims, ← hc.stored_view fun w hw => hc.early w (hwrites w hw), writes, view_append]
    -- with what is pending issued, the view of this session has distinct values
    refine hc.nodup_view hpass
      (fun w hw => .inl (hc.early w (hwrites w (List.mem_append_right _ hw))))
      (hc.apart_of_turn hturn hsilent) ?_
    rw [hc.stored_view fun w hw => hc.early w (hearly w hw)]
    exact h

/-- **No value is stored or about to be stored twice**, if commits keep it so. -/
theorem UniqueColumn.Lawful.unique_of_reachable (hc : c.Lawful)
    (hcommits : ∀ {world : NotedWorld} {before after : List NotedSession} {call k tx notes},
      world.Reachable → world.threads = before ++ ⟨call, .op .commit k, (tx, notes)⟩ :: after →
      Turn call .commit tx notes world.shared (before ++ after) →
      Passes (view world.shared.db tx.log) (pending tx) →
      (∀ key ∈ c.claims (pending tx),
        key ∉ (before ++ after).flatMap fun th => c.claims th.here.1.log) →
      (c.stored (view world.shared.db tx.log)
        ++ (before ++ after).flatMap fun th => c.claims th.here.1.log).Nodup →
      (c.stored (view world.shared.db (writes tx))
        ++ (before ++ after).flatMap fun th => c.claims th.here.1.log).Nodup)
    {noted : NotedWorld} (h : noted.Reachable) : c.Unique noted.threads noted.shared := by
  induction h with
  | refl =>
    show (c.stored .empty ++ []).Nodup
    rw [hc.empty]
    exact List.nodup_nil
  | @tail world world' action hreach hstep ih =>
    cases action with
    | start t =>
      obtain rfl := Option.some.inj hstep
      show (c.stored world.shared.db ++ (world.threads ++ [_]).flatMap _).Nodup
      rw [List.flatMap_append]
      show (c.stored world.shared.db ++ (_ ++ [])).Nodup
      rw [List.append_nil]
      exact ih
    | stop i =>
      obtain rfl := Option.some.inj hstep
      exact ih.sublist (((List.eraseIdx_sublist _ i).flatMap _).append_left _)
    | run i =>
      obtain ⟨before, after, call, o, k, tx, notes, hthreads, -, hturn, rfl⟩ :=
        turn_of_run hreach hstep
      have hearly : ∀ w ∈ tx.log, Early w :=
        early_of_reachable hreach ⟨call, .op o k, (tx, notes)⟩ (by rw [hthreads]; simp)
      rw [hthreads] at ih
      rcases hturn.owed.db_cases with ⟨hdb, -⟩ | ⟨rfl, heq, -, hpass⟩
      · exact hc.turn ih hturn hearly hdb
      · rw [heq, UniqueColumn.unique_middle]
        show (c.stored (view world.shared.db (writes tx)) ++ [] ++ _).Nodup
        rw [List.append_nil]
        refine hcommits hreach hthreads hturn hpass (hc.apart_of_turn hturn fun h => h) ?_
        rw [UniqueColumn.unique_middle] at ih
        rw [hc.stored_view fun w hw => hc.early w (hearly w hw)]
        exact ih

end TaskService.Sessions
