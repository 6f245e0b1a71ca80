import TaskService.Py.Folding
import TaskService.Store.Database

/-!
# Titles that pass the request check

Three layers bound a title: the request's pattern and length (`NonBlankTitle`), the cleaning of the
entity, and the bounds of the row, checked again by `snapshot` and by the column. They do not agree
on what is blank, and the last bounds the folded key, which can be longer than the title.

* **`storableTitle_iff`**: which accepted titles the other two layers take.
* **`eszett_title_refused`**: two that they do not.
-/

namespace TaskService.Tasks

open Store

/-- What the class `\s` of the request's pattern matches: Unicode `White_Space`. -/
def isWhiteSpace (c : CodePoint) : Bool :=
  (9 ≤ c.val && c.val ≤ 13) || c.val == 32 || c.val == 0x85 || c.val == 0xA0
    || c.val == 0x1680 || (0x2000 ≤ c.val && c.val ≤ 0x200A) || c.val == 0x2028
    || c.val == 0x2029 || c.val == 0x202F || c.val == 0x205F || c.val == 0x3000

/-- The information separators: `str.isspace` holds for them, `White_Space` does not. -/
def isSeparator (c : CodePoint) : Bool := 28 ≤ c.val && c.val ≤ 31

theorem isSpace_eq (c : CodePoint) : isSpace c = (isWhiteSpace c || isSeparator c) := by
  rw [Bool.eq_iff_iff]
  simp only [isSpace, isWhiteSpace, isSeparator, Bool.or_eq_true, Bool.and_eq_true,
    decide_eq_true_eq, beq_iff_eq]
  omega

theorem not_blank_iff {s : PyStr} :
    ¬ Blank s ↔ ∃ c ∈ s, isWhiteSpace c = false ∧ isSeparator c = false := by
  rw [blank_iff]
  push Not
  simp [isSpace_eq]

/-- `NonBlankTitle`. -/
def NonBlankTitle (title : PyStr) : Prop :=
  (titleMinLength ≤ title.length ∧ title.length ≤ titleMaxLength) ∧ (0 : CodePoint) ∉ title
    ∧ ∃ c ∈ title, isWhiteSpace c = false

/-- The values that requests give the other fields. -/
structure FieldsFit (description : Option PyStr) (status : PyStr) (priority : Int) : Prop where
  description : ∀ d ∈ description, Fits descriptionMaxLength d
  status : Storable status
  priority : priorityMin ≤ priority ∧ priority ≤ priorityMax

/-- The task can be copied into an event and stored as a row. -/
def Saves (t : Task) : Prop := t.snapshot = .ok t ∧ TaskFits t

section Rows

variable {t : Task}

theorem saves_of_fits (hmin : 0 < t.title.length) (htitle : Fits titleMaxLength t.title)
    (hkey : Fits titleMaxLength t.titleKey) (h : FieldsFit t.description t.status t.priority) :
    Saves t := by
  obtain ⟨hdescription, hstatus, hpriority⟩ := h
  have hvalid : t.Valid := ⟨⟨hmin, htitle.1⟩, hkey.1, fun d hd => (hdescription d hd).1, hpriority,
    htitle.2.2, hkey.2.2, fun d hd => (hdescription d hd).2.2⟩
  refine ⟨Task.snapshot_eq_ok.2 ⟨hvalid, rfl⟩, htitle, hkey, hdescription, hstatus, ?_⟩
  obtain ⟨hlow, hhigh⟩ := hpriority
  have hmin : priorityMin = 1 := rfl
  have hmax : priorityMax = 5 := rfl
  have hint4 : int4Max = 2147483647 := by decide
  omega

theorem Saves.valid (h : Saves t) : t.Valid := (Task.snapshot_eq_ok.1 h.1).1

end Rows

theorem storable_strip {s : PyStr} (h : Storable s) : Storable (strip s) :=
  ⟨fun h0 => h.1 (mem_of_mem_strip h0), encodable_strip_iff.2 h.2⟩

section Accepted

variable [Unicode]

/-- Neither the cleaning nor the row refuses the title, whichever write it comes with: a create, a
replacement, or a patch. The request's pattern only matches text with a UTF-8 encoding. -/
structure StorableTitle (title : PyStr) : Prop where
  cleans : ∃ stripped key, Task.cleanTitle title = .ok (stripped, key)
    ∧ (1 ≤ stripped.length ∧ stripped.length ≤ titleMaxLength)
    ∧ (1 ≤ key.length ∧ key.length ≤ titleMaxLength)
  creates : Encodable title → ∀ id createdAt description status priority,
    FieldsFit description status priority →
    ∃ t, Task.fromInput id createdAt title description status priority = .ok t ∧ Saves t
  replaces : Encodable title → ∀ (t : Task) description status priority,
    FieldsFit description status priority →
    ∃ t', t.applyReplace title description status priority = .ok t' ∧ Saves t'
  patches : Encodable title → ∀ (t : Task) (fields : PatchFields), fields.title = some title →
    fields.unknown = [] →
    FieldsFit (fields.description.getD t.description) (fields.status.getD t.status)
      (fields.priority.getD t.priority) →
    ∃ t', t.applyPatch fields = .ok t' ∧ Saves t'

/-- Something is left of the title when white space and separators are taken away at its ends, and
the characters left fold to no more than the key column holds. -/
def TitleKept (title : PyStr) : Prop :=
  (∃ c ∈ title, isWhiteSpace c = false ∧ isSeparator c = false)
    ∧ foldedLength (strip title) ≤ titleMaxLength

instance (title : PyStr) : Decidable (TitleKept title) := inferInstanceAs (Decidable (_ ∧ _))

theorem storable_casefold (hfold : FoldsCleanly) {s : PyStr} (h : Storable s) :
    Storable (casefold s) :=
  ⟨fun h0 => h.1 ((nul_mem_casefold_iff hfold).1 h0), (encodable_casefold_iff hfold).2 h.2⟩

/-- The rows of a title that cleans within the bounds. -/
theorem saves_of_titleKept (hfold : FoldsCleanly) {title : PyStr} (h : NonBlankTitle title)
    (hkept : TitleKept title) (hencodable : Encodable title) {t : Task}
    (htitle : t.title = strip title) (hkey : t.titleKey = Task.normalizeTitle title)
    (hfields : FieldsFit t.description t.status t.priority) : Saves t := by
  obtain ⟨⟨-, hmax⟩, hnul, -⟩ := h
  have hstorable : Storable (strip title) := storable_strip ⟨hnul, hencodable⟩
  have hpos : 0 < (strip title).length := length_strip_pos (not_blank_iff.2 hkept.1)
  have hlength : (Task.normalizeTitle title).length ≤ titleMaxLength := by
    rw [Task.normalizeTitle, length_casefold]
    exact hkept.2
  refine saves_of_fits ?_ ?_ ?_ hfields
  · rw [htitle]
    exact hpos
  · rw [htitle]
    exact ⟨(strip_length_le title).trans hmax, hstorable⟩
  · rw [hkey]
    exact ⟨hlength, storable_casefold hfold hstorable⟩

/-- A title that cleans within the bounds is kept. -/
theorem StorableTitle.titleKept {title : PyStr} (h : StorableTitle title) : TitleKept title := by
  obtain ⟨stripped, key, hclean, -, -, hkey⟩ := h.cleans
  obtain ⟨hne, heq⟩ := Task.cleanTitle_eq_ok.1 hclean
  obtain ⟨rfl, rfl⟩ := Prod.mk.inj heq
  rw [ne_eq, Task.normalizeTitle_eq_nil_iff, not_blank_iff] at hne
  rw [Task.normalizeTitle, length_casefold] at hkey
  exact ⟨hne, hkey⟩

/-- **Which accepted titles are storable**: those with a character that is neither white space nor a
separator, whose characters fold to at most two hundred. -/
theorem storableTitle_iff (hfold : FoldsCleanly) {title : PyStr} (h : NonBlankTitle title) :
    StorableTitle title ↔ TitleKept title := by
  refine ⟨StorableTitle.titleKept, fun hkept => ?_⟩
  have hblank : ¬ Blank title := not_blank_iff.2 hkept.1
  have hne : Task.normalizeTitle title ≠ [] := fun hnil =>
    hblank (Task.normalizeTitle_eq_nil_iff.1 hnil)
  have hpos := length_strip_pos hblank
  refine ⟨⟨_, _, Task.cleanTitle_eq_ok.2 ⟨hne, rfl⟩, ⟨hpos, ?_⟩, ?_, ?_⟩, ?_, ?_, ?_⟩
  · exact (strip_length_le title).trans h.1.2
  · exact List.length_pos_iff.2 hne
  · rw [Task.normalizeTitle, length_casefold]
    exact hkept.2
  · intro hencodable id createdAt description status priority hfields
    refine ⟨_, Task.fromInput_eq_ok.2 ⟨hne, rfl⟩, ?_⟩
    exact saves_of_titleKept hfold h hkept hencodable rfl rfl hfields
  · intro hencodable t description status priority hfields
    refine ⟨_, Task.applyReplace_eq_ok.2 ⟨hne, rfl⟩, ?_⟩
    exact saves_of_titleKept hfold h hkept hencodable rfl rfl hfields
  · intro hencodable t fields htitle hunknown hfields
    refine ⟨_, Task.applyPatch_eq_ok.2 ⟨hunknown, by simpa [htitle] using hne, rfl⟩, ?_⟩
    exact saves_of_titleKept hfold h hkept hencodable (by simp [htitle]) (by simp [htitle]) hfields

end Accepted

/-! ## One title that is taken, and two that are refused -/

section Samples

open Sharp

/-- A word is taken. -/
theorem storableTitle_word : StorableTitle (py "Fix") :=
  (storableTitle_iff foldsCleanly ⟨by decide, by decide +kernel, 0x46, by decide, by decide⟩).2
    ⟨⟨0x46, by decide, by decide⟩, by decide +kernel⟩

/-- Two hundred times `ß`. -/
def eszettTitle : PyStr := List.replicate 200 eszett

/-- One information separator. -/
def separatorTitle : PyStr := [0x1C]

/-- Two hundred sharp s pass the request and fold to a key of four hundred characters; a separator
passes it and is stripped to nothing. -/
theorem eszett_title_refused :
    (NonBlankTitle eszettTitle ∧ (Task.normalizeTitle eszettTitle).length = 400
      ∧ ¬ StorableTitle eszettTitle)
    ∧ NonBlankTitle separatorTitle ∧ Task.cleanTitle separatorTitle = .error Task.emptyTitle
      ∧ ¬ StorableTitle separatorTitle := by
  have hlength : (Task.normalizeTitle eszettTitle).length = 400 := by decide +kernel
  refine ⟨⟨⟨by decide +kernel, by decide +kernel, eszett, ?_, by decide⟩, hlength, ?_⟩,
    ⟨by decide, by decide, 0x1C, by decide, by decide⟩, by decide, ?_⟩
  · exact List.mem_replicate.2 ⟨by decide, rfl⟩
  · refine fun h => ?_
    have hle : foldedLength (strip eszettTitle) ≤ 200 := h.titleKept.2
    rw [← length_casefold] at hle
    change (casefold (strip eszettTitle)).length = 400 at hlength
    omega
  · rintro h
    obtain ⟨c, hc, -, hseparator⟩ := h.titleKept.1
    obtain rfl := List.mem_singleton.1 hc
    exact absurd hseparator (by decide)

end Samples

end TaskService.Tasks
