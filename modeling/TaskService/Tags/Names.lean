import TaskService.Py.Folding
import TaskService.Concurrency.World

/-!
# The names of a request and the tags they stand for

`resolve` reduces a list of names to keys, each with the first spelling it came in, looks these keys
up, and makes a tag for every key that has none.

* **`wantedFrom_eq_ok`**: the keys and their spellings.
* **`run_resolve`**: the tags that are made.
* **`resolvable_iff`**: for which accepted names all of this succeeds and fits the columns.
-/

namespace TaskService.Tags

open Store Prog

/-! ## The request's names -/

def nameMinLength : Nat := 1

/-- `MAX_TAGS_PER_TASK`. -/
def maxTagsPerTask : Nat := 25

/-- `TagName`. -/
def TagName (name : PyStr) : Prop :=
  (nameMinLength ≤ name.length ∧ name.length ≤ nameMaxLength) ∧ (0 : CodePoint) ∉ name

instance (name : PyStr) : Decidable (TagName name) := inferInstanceAs (Decidable (_ ∧ _))

/-- The `tags` of a request that passes validation. -/
def AcceptedNames (names : List PyStr) : Prop :=
  names.length ≤ maxTagsPerTask ∧ ∀ name ∈ names, TagName name

instance (names : List PyStr) : Decidable (AcceptedNames names) :=
  inferInstanceAs (Decidable (_ ∧ _))

section Resolving

variable [Unicode]

/-! ## Keys and spellings -/

/-- What the collecting loop makes of names none of which is blank. -/
def wantedOf (wanted : Dict PyStr PyStr) (names : List PyStr) : Dict PyStr PyStr :=
  names.foldl (fun wanted name =>
    if Tag.normalizeName name ∈ Dict.keys wanted then wanted
    else wanted ++ [(Tag.normalizeName name, strip name)]) wanted

theorem wantedFrom_eq_ok {wanted wanted' : Dict PyStr PyStr} {names : List PyStr} :
    wantedFrom wanted names = .ok wanted' ↔
      (∀ name ∈ names, ¬ Blank name) ∧ wanted' = wantedOf wanted names := by
  induction names generalizing wanted with
  | nil => simp [wantedFrom, wantedOf, eq_comm]
  | cons name names ih =>
    rw [wantedFrom, Except.bind_eq_ok]
    simp only [Tag.cleanName_eq_ok, List.forall_mem_cons]
    constructor
    · rintro ⟨_, ⟨hblank, rfl⟩, hrest⟩
      obtain ⟨hnames, rfl⟩ := ih.1 hrest
      exact ⟨⟨hblank, hnames⟩, rfl⟩
    · rintro ⟨⟨hblank, hnames⟩, rfl⟩
      exact ⟨_, ⟨hblank, rfl⟩, ih.2 ⟨hnames, rfl⟩⟩

/-- One more name at the front: its key keeps the spelling it has, or gets this one. -/
theorem wantedOf_cons (wanted : Dict PyStr PyStr) (name : PyStr) (names : List PyStr) :
    wantedOf wanted (name :: names) = wantedOf
      (if Tag.normalizeName name ∈ Dict.keys wanted then wanted
        else wanted ++ [(Tag.normalizeName name, strip name)]) names := rfl

theorem mem_keys_wantedOf {wanted : Dict PyStr PyStr} {names : List PyStr} {key : PyStr} :
    key ∈ Dict.keys (wantedOf wanted names) ↔
      key ∈ Dict.keys wanted ∨ ∃ name ∈ names, Tag.normalizeName name = key := by
  induction names generalizing wanted with
  | nil => simp [wantedOf]
  | cons name names ih =>
    rw [wantedOf_cons, ih]
    by_cases hmem : Tag.normalizeName name ∈ Dict.keys wanted
    · simp only [if_pos hmem, List.mem_cons, exists_eq_or_imp]
      constructor
      · exact Or.imp_right .inr
      · rintro (h | rfl | h)
        · exact .inl h
        · exact .inl hmem
        · exact .inr h
    · have hkeys : key ∈ Dict.keys (wanted ++ [(Tag.normalizeName name, strip name)])
          ↔ key ∈ Dict.keys wanted ∨ Tag.normalizeName name = key := by
        simp [eq_comm]
      rw [if_neg hmem, hkeys, List.exists_mem_cons_iff, or_assoc]

theorem nodup_keys_wantedOf {wanted : Dict PyStr PyStr} (names : List PyStr)
    (h : (Dict.keys wanted).Nodup) : (Dict.keys (wantedOf wanted names)).Nodup := by
  induction names generalizing wanted with
  | nil => exact h
  | cons name names ih =>
    rw [wantedOf_cons]
    split
    · exact ih h
    next hmem =>
      refine ih ?_
      rw [Dict.keys_append, List.nodup_append_comm]
      exact List.nodup_cons.2 ⟨hmem, h⟩

/-- Every key has the first spelling it came in. -/
theorem mem_wantedOf {wanted : Dict PyStr PyStr} {names : List PyStr} {key spelling : PyStr}
    (h : (key, spelling) ∈ wantedOf wanted names) : (key, spelling) ∈ wanted
      ∨ key ∉ Dict.keys wanted
        ∧ (names.find? fun name => Tag.normalizeName name = key).map strip = some spelling := by
  induction names generalizing wanted with
  | nil => exact .inl h
  | cons name names ih =>
    rw [wantedOf_cons] at h
    -- The first name decides the spelling of its own key, unless the key was there before; of the
    -- other keys it says nothing.
    by_cases hkey : Tag.normalizeName name = key
    · by_cases hmem : Tag.normalizeName name ∈ Dict.keys wanted
      · rw [if_pos hmem] at h
        refine .inl ((ih h).resolve_right fun hnot => ?_)
        exact hnot.1 (hkey ▸ hmem)
      · rw [if_neg hmem] at h
        rcases ih h with hold | ⟨hnot, -⟩
        · rcases List.mem_append.1 hold with hold | hnew
          · exact .inl hold
          · obtain ⟨rfl, rfl⟩ := Prod.mk.inj (List.mem_singleton.1 hnew)
            exact .inr ⟨hmem, by simp⟩
        · simp [hkey] at hnot
    · have hfind : (name :: names).find? (fun name => Tag.normalizeName name = key)
          = names.find? fun name => Tag.normalizeName name = key := by
        simp [hkey]
      rw [hfind]
      by_cases hmem : Tag.normalizeName name ∈ Dict.keys wanted
      · rw [if_pos hmem] at h
        exact ih h
      · rw [if_neg hmem] at h
        rcases ih h with hold | ⟨hnot, hspelling⟩
        · rcases List.mem_append.1 hold with hold | hnew
          · exact .inl hold
          · exact absurd (Prod.mk.inj (List.mem_singleton.1 hnew)).1.symm hkey
        · refine .inr ⟨fun hin => hnot ?_, hspelling⟩
          rw [Dict.keys_append]
          exact List.mem_append_left _ hin

/-- The keys of a request. -/
theorem mem_keys_wantedOf_nil {names : List PyStr} {key : PyStr} :
    key ∈ Dict.keys (wantedOf [] names) ↔ ∃ name ∈ names, Tag.normalizeName name = key := by
  simp [mem_keys_wantedOf]

/-- The first spelling of a key in a request. -/
theorem exists_of_mem_wantedOf {names : List PyStr} {key spelling : PyStr}
    (h : (key, spelling) ∈ wantedOf [] names) :
    ∃ name ∈ names, Tag.normalizeName name = key ∧ spelling = strip name := by
  obtain ⟨-, hfind⟩ := (mem_wantedOf h).resolve_left List.not_mem_nil
  obtain ⟨name, hname, rfl⟩ := Option.map_eq_some_iff.1 hfind
  exact ⟨name, List.mem_of_find?_eq_some hname, by simpa using List.find?_some hname, rfl⟩

/-! ## The tags that are made -/

/-- The keys without a tag, with their spellings. -/
def missing (resolved : Dict PyStr Uuid) (wanted : Dict PyStr PyStr) : Dict PyStr PyStr :=
  wanted.filter fun kv => kv.1 ∉ Dict.keys resolved

omit [Unicode] in
theorem missing_cons_of_mem {resolved : Dict PyStr Uuid} {wanted : Dict PyStr PyStr}
    {kv : PyStr × PyStr} (h : kv.1 ∈ Dict.keys resolved) :
    missing resolved (kv :: wanted) = missing resolved wanted := by
  simp [missing, h]

omit [Unicode] in
/-- A key that just got a tag was missing, and is none of the others. -/
theorem missing_cons_of_notMem {resolved : Dict PyStr Uuid} {wanted : Dict PyStr PyStr}
    {kv : PyStr × PyStr} {id : Uuid} (h : kv.1 ∉ Dict.keys resolved)
    (hnd : kv.1 ∉ Dict.keys wanted) :
    missing resolved (kv :: wanted) = kv :: missing (resolved ++ [(kv.1, id)]) wanted := by
  have hrest : missing resolved wanted = missing (resolved ++ [(kv.1, id)]) wanted := by
    refine List.filter_congr fun kv' hkv' => ?_
    have hne : kv'.1 ≠ kv.1 := fun heq => hnd (heq ▸ Dict.mem_keys_of_mem hkv')
    simp [hne]
  rw [← hrest]
  simp [missing, h]

/-- The tags made for the missing keys, with their keys and spellings. -/
def Mints (resolved : Dict PyStr Uuid) (wanted : Dict PyStr PyStr) (minted : List Tag) : Prop :=
  minted.map (fun t => (t.nameKey, t.name)) = missing resolved wanted

/-- What a list of tags resolves. -/
def idsByKey (tags : List Tag) : Dict PyStr Uuid := tags.map fun tag => (tag.nameKey, tag.id)

omit [Unicode] in
@[simp] theorem keys_idsByKey (tags : List Tag) :
    Dict.keys (idsByKey tags) = tags.map Tag.nameKey := by
  simp [idsByKey, Dict.keys]

section Run

omit [Unicode] in
/-- With nothing pending no row is new. -/
theorem added_eq_nil {tx : Tx} (h : pending tx = []) : tx.added = [] :=
  List.eq_nil_iff_forall_not_mem.2 fun row hrow => by
    have hmem : row.insert ∈ pending tx := mem_pending_iff.2 (.inl ⟨row, hrow, rfl⟩)
    rw [h] at hmem
    cases hmem

variable [Jsonb] [Runtime]

omit [Unicode] in
/-- Run alone, the loop makes the missing tags and fails on nothing. -/
theorem run_mintMissing {resolved : Dict PyStr Uuid} {wanted : Dict PyStr PyStr}
    (hnd : (Dict.keys wanted).Nodup) (tx : Tx) (st : Server) : ∃ minted n,
      Mints resolved wanted minted ∧ run exec (mintMissing resolved wanted) tx st
        = (.ok (resolved ++ idsByKey minted), { tx with added := tx.added ++ minted.map .tag },
            { st with drawn := n }) := by
  induction wanted generalizing resolved tx st with
  | nil => exact ⟨[], st.drawn, rfl, by simp [mintMissing, idsByKey]⟩
  | cons kv wanted ih =>
    obtain ⟨hkey, hnd⟩ := List.nodup_cons.1 hnd
    by_cases hmem : kv.1 ∈ Dict.keys resolved
    · obtain ⟨minted, n, hmints, hrun⟩ := ih hnd tx st
      refine ⟨minted, n, ?_, ?_⟩
      · rw [Mints, missing_cons_of_mem hmem]
        exact hmints
      · rw [mintMissing, if_pos hmem]
        exact hrun
    · -- two draws, and the new tag joins the pending rows
      let tag : Tag := ⟨Runtime.uuid7 st.drawn, kv.2, kv.1, Runtime.now (st.drawn + 1)⟩
      obtain ⟨minted, n, hmints, hrun⟩ := @ih (resolved ++ [(kv.1, tag.id)]) hnd
        { tx with added := tx.added ++ [.tag tag] } { st with drawn := st.drawn + 1 + 1 }
      refine ⟨tag :: minted, n, ?_, ?_⟩
      · rw [Mints, @missing_cons_of_notMem resolved wanted kv tag.id hmem hkey, ← hmints]
        rfl
      · have hstep : run exec (mintMissing resolved (kv :: wanted)) tx st
            = run exec (mintMissing (resolved ++ [(kv.1, tag.id)]) wanted)
              { tx with added := tx.added ++ [.tag tag] }
              { st with drawn := st.drawn + 1 + 1 } := by
          rw [mintMissing, if_neg hmem, ← Dict.set_of_notMem hmem]
          rfl
        rw [hstep, hrun]
        simp [idsByKey, tag]

/-- The tags a session finds for a list of names. -/
def rowsFor (names : List PyStr) (db : Db) : List Tag :=
  db.tags.filter fun t => t.nameKey ∈ Dict.keys (wantedOf [] names)

/-- **Run alone, with nothing pending, `resolve` makes a tag for every missing key**; it fails on
nothing but a blank name. -/
theorem run_resolve {names : List PyStr} {tx : Tx} (hblank : ∀ name ∈ names, ¬ Blank name)
    (hpending : pending tx = []) (st : Server) : ∃ minted tx' n,
      Mints (idsByKey (rowsFor names (view st.db (writes tx)))) (wantedOf [] names) minted
        ∧ tx'.added = tx.added ++ minted.map .tag
        ∧ run exec (resolve names) tx st
          = (.ok (idsByKey (rowsFor names (view st.db (writes tx))) ++ idsByKey minted), tx',
              { st with drawn := n }) := by
  have hadded : tx.added = [] := added_eq_nil hpending
  have hlift : run exec (lift (wantedFrom [] names) : SessionProg (Dict PyStr PyStr)) tx st
      = (.ok (wantedOf [] names), tx, st) := by
    rw [wantedFrom_eq_ok.2 ⟨hblank, rfl⟩]
    rfl
  rw [resolve, run_bind_ok exec hlift]
  by_cases hnil : wantedOf [] names = []
  · have hrows : rowsFor names (view st.db (writes tx)) = [] := by
      rw [rowsFor, hnil]
      simp
    rw [if_pos hnil, hrows]
    exact ⟨[], tx, st.drawn, by rw [hnil]; rfl, by simp, rfl⟩
  · have hread : run exec (perform (.selectTags (Dict.keys (wantedOf [] names)))) tx st
        = (.ok (rowsFor names (view st.db (writes tx))), flushed tx, st) := by
      rw [run_call]
      have hflush : flush st.db tx = .ok (flushed tx) := flush_of_pending_nil hpending
      exact query_of_flush hflush fun db => db.tags.filter fun t =>
        t.nameKey ∈ Dict.keys (wantedOf [] names)
    obtain ⟨minted, n, hmints, hrun⟩ := run_mintMissing
      (nodup_keys_wantedOf names (show (Dict.keys ([] : Dict PyStr PyStr)).Nodup from .nil))
      (flushed tx) st
    rw [if_neg hnil, run_bind_ok exec hread]
    exact ⟨minted, _, n, hmints, by rw [hadded]; rfl, hrun⟩

theorem run_resolve_blank {names : List PyStr} (hblank : ∃ name ∈ names, Blank name) (tx : Tx)
    (st : Server) : (run exec (resolve names) tx st).1 = .error Tag.blankName := by
  cases hwanted : wantedFrom [] names with
  | ok wanted =>
    obtain ⟨name, hname, hblank⟩ := hblank
    exact absurd hblank ((wantedFrom_eq_ok.1 hwanted).1 name hname)
  | error e =>
    obtain rfl := wantedFrom_error hwanted
    rw [resolve, hwanted]
    rfl

end Run

/-! ## Accepted names -/

/-- The name and the key of a tag have the length and the characters their columns take. -/
def Bounded (tag : Tag) : Prop :=
  (nameMinLength ≤ tag.name.length ∧ nameMinLength ≤ tag.nameKey.length) ∧ TagFits tag

instance (tag : Tag) : Decidable (Bounded tag) := inferInstanceAs (Decidable (_ ∧ _))

/-- The names resolve, and every tag this makes can be stored. -/
def Resolvable [Jsonb] [Runtime] (names : List PyStr) (tx : Tx) (st : Server) : Prop :=
  (∃ ids, (run exec (resolve names) tx st).1 = .ok ids)
    ∧ ∀ tag, .tag tag ∈ (run exec (resolve names) tx st).2.1.added → Bounded tag

/-- No name is blank, and a name without a tag folds to a key of an allowed length. -/
def Keyable (names : List PyStr) (db : Db) : Prop :=
  (∀ name ∈ names, ¬ Blank name)
    ∧ ∀ name ∈ names, Tag.normalizeName name ∉ db.tags.map Tag.nameKey →
        foldedLength (strip name) ≤ nameMaxLength ∧ Encodable name

/-- What the key of a name tells. -/
theorem keyFits_iff (hfold : FoldsCleanly) {name : PyStr} :
    (Tag.normalizeName name).length ≤ nameMaxLength ∧ Encodable (Tag.normalizeName name) ↔
      foldedLength (strip name) ≤ nameMaxLength ∧ Encodable name := by
  rw [Tag.normalizeName, length_casefold, encodable_casefold_iff hfold, encodable_strip_iff]

/-- The tag of an accepted name that is not blank is bounded when its key is. -/
theorem bounded_iff (hfold : FoldsCleanly) {name : PyStr} {tag : Tag} (hname : TagName name)
    (hblank : ¬ Blank name) (hspelling : tag.name = strip name)
    (hkey : tag.nameKey = Tag.normalizeName name) :
    Bounded tag ↔ foldedLength (strip name) ≤ nameMaxLength ∧ Encodable name := by
  have hpos := length_strip_pos hblank
  have hlonger := length_le_foldedLength (strip name)
  have hnul : (0 : CodePoint) ∉ strip name := fun h => hname.2 (mem_of_mem_strip h)
  rw [Bounded, TagFits, Fits, Fits, Storable, Storable, hspelling, hkey, Tag.normalizeName,
    length_casefold, encodable_casefold_iff hfold, nul_mem_casefold_iff hfold, encodable_strip_iff]
  simp only [nameMinLength, nameMaxLength]
  constructor
  · rintro ⟨-, -, hlength, -, hencodable⟩
    exact ⟨hlength, hencodable⟩
  · rintro ⟨hlength, hencodable⟩
    exact ⟨⟨by omega, by omega⟩, ⟨by omega, hnul, hencodable⟩, hlength, hnul, hencodable⟩

/-- The keys that get a tag are those of names without one. -/
theorem mem_missing_rowsFor {names : List PyStr} {db : Db} {key spelling : PyStr} :
    (key, spelling) ∈ missing (idsByKey (rowsFor names db)) (wantedOf [] names) ↔
      (key, spelling) ∈ wantedOf [] names ∧ key ∉ db.tags.map Tag.nameKey := by
  rw [missing, List.mem_filter, decide_eq_true_eq, keys_idsByKey]
  refine and_congr_right fun hwanted => not_congr ?_
  have hkey : key ∈ Dict.keys (wantedOf [] names) := Dict.mem_keys_of_mem hwanted
  constructor
  · intro h
    obtain ⟨tag, htag, rfl⟩ := List.mem_map.1 h
    exact List.mem_map_of_mem (List.mem_filter.1 htag).1
  · intro h
    obtain ⟨tag, htag, rfl⟩ := List.mem_map.1 h
    exact List.mem_map_of_mem (List.mem_filter.2 ⟨htag, by simpa using hkey⟩)

section Accepted

variable [Jsonb] [Runtime]

/-- The new tags are those of the names without one: each is the tag of one, and each gets one. -/
theorem added_resolve {names : List PyStr} {tx : Tx} (hblank : ∀ name ∈ names, ¬ Blank name)
    (hpending : pending tx = []) (st : Server) :
    (∃ ids, (run exec (resolve names) tx st).1 = .ok ids)
    ∧ (∀ tag, .tag tag ∈ (run exec (resolve names) tx st).2.1.added → ∃ name ∈ names,
        Tag.normalizeName name ∉ (view st.db (writes tx)).tags.map Tag.nameKey
          ∧ tag.nameKey = Tag.normalizeName name ∧ tag.name = strip name)
    ∧ ∀ name ∈ names, Tag.normalizeName name ∉ (view st.db (writes tx)).tags.map Tag.nameKey →
        ∃ tag, .tag tag ∈ (run exec (resolve names) tx st).2.1.added
          ∧ tag.nameKey = Tag.normalizeName name := by
  obtain ⟨minted, tx', n, hmints, hadded, hrun⟩ := run_resolve hblank hpending st
  have hmem : ∀ tag, .tag tag ∈ tx'.added ↔ tag ∈ minted := by
    intro tag
    rw [hadded, added_eq_nil hpending]
    simp
  rw [hrun]
  refine ⟨⟨_, rfl⟩, fun tag htag => ?_, fun name hname hfree => ?_⟩
  · have hnew : (tag.nameKey, tag.name) ∈ missing _ _ :=
      hmints ▸ List.mem_map_of_mem ((hmem tag).1 htag)
    obtain ⟨hwanted, hfree⟩ := mem_missing_rowsFor.1 hnew
    obtain ⟨name, hname, hkey, hspelling⟩ := exists_of_mem_wantedOf hwanted
    exact ⟨name, hname, hkey ▸ hfree, hkey.symm, hspelling⟩
  · obtain ⟨spelling, hspelling⟩ :=
      Dict.mem_keys_iff.1 (mem_keys_wantedOf_nil.2 ⟨name, hname, rfl⟩)
    have hnew := mem_missing_rowsFor.2 ⟨hspelling, hfree⟩
    rw [← hmints] at hnew
    obtain ⟨tag, htag, heq⟩ := List.mem_map.1 hnew
    exact ⟨tag, (hmem tag).2 htag, (Prod.mk.inj heq).1⟩

/-- Names that resolve are keyable. -/
theorem Resolvable.keyable (hfold : FoldsCleanly) {names : List PyStr}
    (hnames : AcceptedNames names)
    {tx : Tx} {st : Server} (hpending : pending tx = []) (h : Resolvable names tx st) :
    Keyable names (view st.db (writes tx)) := by
  obtain ⟨⟨ids, hids⟩, hbounded⟩ := h
  have hblank : ∀ name ∈ names, ¬ Blank name := by
    intro name hname hname'
    have hraises := run_resolve_blank ⟨name, hname, hname'⟩ tx st
    rw [hids] at hraises
    cases hraises
  obtain ⟨-, hadded, hnew⟩ := added_resolve hblank hpending st
  refine ⟨hblank, fun name hname hfree => ?_⟩
  obtain ⟨tag, htag, hkey⟩ := hnew name hname hfree
  obtain ⟨name', hname', -, hkey', hspelling'⟩ := hadded tag htag
  have hfits := (bounded_iff hfold (hnames.2 name' hname') (hblank name' hname') hspelling'
    hkey').1 (hbounded tag htag)
  -- the name whose spelling the tag got has the same key
  rw [← keyFits_iff hfold] at hfits ⊢
  rw [← hkey, hkey']
  exact hfits

/-- **Which accepted tag lists are resolvable**, in any session with nothing pending and over any
vocabulary: those in which no name is blank and every new name folds to an allowed length. -/
theorem resolvable_iff (hfold : FoldsCleanly) {names : List PyStr} (hnames : AcceptedNames names)
    {tx : Tx} (st : Server) (hpending : pending tx = []) :
    Resolvable names tx st ↔ Keyable names (view st.db (writes tx)) := by
  refine ⟨fun h => h.keyable hfold hnames hpending, fun ⟨hblank, hfits⟩ => ?_⟩
  obtain ⟨hids, hadded, -⟩ := added_resolve hblank hpending st
  refine ⟨hids, fun tag htag => ?_⟩
  obtain ⟨name, hname, hfree, hkey, hspelling⟩ := hadded tag htag
  exact (bounded_iff hfold (hnames.2 name hname) (hblank name hname) hspelling hkey).2
    (hfits name hname hfree)

end Accepted

end Resolving

/-! ## Accepted lists that do not resolve -/

section Samples

open Concurrency.Plain Sharp

theorem resolvable_word : Resolvable [py "Urgent", py "urgent"] .fresh ⟨.empty, 0⟩ := by
  refine (resolvable_iff foldsCleanly (by decide) _ rfl).2 ⟨by decide, fun name hname _ => ?_⟩
  revert name
  decide

/-- Resolve the names and issue the inserts of the new tags. -/
def resolveAndFlush (names : List PyStr) : SessionProg Unit := do
  let _ ← resolve names
  perform .flush

/-- **Two accepted lists that fail**: a name of one space is refused by `clean_name`, and fifty
sharp s fold to a key of a hundred characters, which its column does not take. -/
theorem accepted_names_refused :
    (AcceptedNames [py " "] ∧ (run exec (resolve [py " "]) .fresh ⟨.empty, 0⟩).1
        = .error (.valueError (py "Tag name must not be blank.")))
    ∧ AcceptedNames [List.replicate 50 eszett]
    ∧ ¬ Resolvable [List.replicate 50 eszett] .fresh ⟨.empty, 0⟩
    ∧ (run exec (resolveAndFlush [List.replicate 50 eszett]) .fresh ⟨.empty, 0⟩).1
        = .error (.db .data) := by
  refine ⟨⟨by decide, rfl⟩, by decide, fun h => ?_, ?_⟩
  · have hkeyable := h.keyable foldsCleanly (by decide) rfl
    have hfits := hkeyable.2 _ List.mem_cons_self (by decide)
    revert hfits
    decide
  · decide +kernel

end Samples

end TaskService.Tags
