import TaskService.Py.Text
import Mathlib.Algebra.BigOperators.Group.List.Basic

/-!
# Case folding and length

Full case folding can lengthen a text and never shortens it. How long the folding is, and which
characters it brings in, is what the bounded key columns depend on.
-/

namespace TaskService

/-- Stripping takes characters away only. -/
theorem mem_of_mem_strip {s : PyStr} {c : CodePoint} (h : c ∈ strip s) : c ∈ s :=
  (List.dropWhile_suffix _).subset ((List.rdropWhile_prefix _ _).subset h)

/-- What stripping takes away is white space. -/
theorem isSpace_of_mem_of_notMem_strip {s : PyStr} {c : CodePoint} (h : c ∈ s)
    (hnot : c ∉ strip s) : isSpace c = true := by
  rw [← List.takeWhile_append_dropWhile (p := isSpace) (l := s), List.mem_append] at h
  rcases h with h | h
  · exact List.mem_takeWhile_imp h
  · rw [← List.rdropWhile_append_rtakeWhile (p := isSpace) (l := s.dropWhile isSpace)] at h
    rcases List.mem_append.1 h with h | h
    · exact absurd h hnot
    · exact List.mem_rtakeWhile_imp h

theorem not_isSurrogate_of_isSpace {c : CodePoint} (h : isSpace c = true) :
    isSurrogate c = false := by
  simp only [isSpace, Bool.or_eq_true, Bool.and_eq_true, decide_eq_true_eq, beq_iff_eq] at h
  simp only [isSurrogate, Bool.and_eq_false_iff, decide_eq_false_iff_not]
  omega

@[simp] theorem encodable_strip_iff {s : PyStr} : Encodable (strip s) ↔ Encodable s := by
  refine ⟨fun h c hc => ?_, fun h c hc => h c (mem_of_mem_strip hc)⟩
  by_cases hmem : c ∈ strip s
  · exact h c hmem
  · exact not_isSurrogate_of_isSpace (isSpace_of_mem_of_notMem_strip hc hmem)

/-- A text that is not blank keeps a character. -/
theorem length_strip_pos {s : PyStr} (h : ¬ Blank s) : 0 < (strip s).length :=
  List.length_pos_iff.2 h

section Length

variable [Unicode]

/-- How many code points the text folds to. -/
def foldedLength (s : PyStr) : Nat := (s.map fun c => (Unicode.fold c).length).sum

theorem length_casefold (s : PyStr) : (casefold s).length = foldedLength s := List.length_flatMap

theorem length_le_foldedLength (s : PyStr) : s.length ≤ foldedLength s := by
  induction s with
  | nil => exact Nat.zero_le _
  | cons c s ih =>
    have hpos : 0 < (Unicode.fold c).length := List.length_pos_iff.2 (Unicode.fold_ne_nil c)
    show s.length + 1 ≤ (Unicode.fold c).length + foldedLength s
    omega

/-- Folding neither brings in nor takes away U+0000 or half of a surrogate pair. -/
def FoldsCleanly : Prop :=
  ∀ c : CodePoint, ∀ d ∈ Unicode.fold c, (d = 0 ↔ c = 0) ∧ isSurrogate d = isSurrogate c

theorem nul_mem_casefold_iff (hfold : FoldsCleanly) {s : PyStr} :
    (0 : CodePoint) ∈ casefold s ↔ (0 : CodePoint) ∈ s := by
  rw [casefold, List.mem_flatMap]
  constructor
  · rintro ⟨c, hc, h0⟩
    rwa [((hfold c 0 h0).1).1 rfl] at hc
  · intro h0
    obtain ⟨d, hd⟩ := List.exists_mem_of_ne_nil _ (Unicode.fold_ne_nil 0)
    refine ⟨0, h0, ?_⟩
    rwa [((hfold 0 d hd).1).2 rfl] at hd

theorem encodable_casefold_iff (hfold : FoldsCleanly) {s : PyStr} :
    Encodable (casefold s) ↔ Encodable s := by
  constructor
  · intro h c hc
    obtain ⟨d, hd⟩ := List.exists_mem_of_ne_nil _ (Unicode.fold_ne_nil c)
    rw [← (hfold c d hd).2]
    exact h d (List.mem_flatMap.2 ⟨c, hc, hd⟩)
  · intro h d hd
    obtain ⟨c, hc, hd⟩ := List.mem_flatMap.1 hd
    rw [(hfold c d hd).2]
    exact h c hc

end Length

/-! ## A small folding table

ASCII letters, and the sharp s, which folds to two letters. -/

namespace Sharp

/-- `ß`. -/
def eszett : CodePoint := 0xDF

scoped instance (priority := 2000) unicode : Unicode where
  fold c :=
    if c = eszett then [0x73, 0x73] else if 0x41 ≤ c.val ∧ c.val ≤ 0x5A then [c + 0x20] else [c]
  fold_ne_nil c := by split <;> [decide; (split <;> simp)]
  printable c := 0x20 ≤ c.val && c.val < 0x7F

theorem foldsCleanly : FoldsCleanly := by
  intro c d hd
  have hd : d ∈ (if c = eszett then [0x73, 0x73] else
      if 0x41 ≤ c.val ∧ c.val ≤ 0x5A then [c + 0x20] else [c]) := hd
  split at hd
  next hc =>
    obtain rfl : d = 0x73 := by simpa using hd
    subst hc
    exact ⟨by decide, by decide⟩
  next =>
    split at hd
    next hupper =>
      obtain rfl := List.mem_singleton.1 hd
      have hval : (c + 0x20).val = c.val + 0x20 := by
        have hadd : (c + 0x20).val = (c.val + 0x20) % 0x110000 := Fin.val_add c 0x20
        omega
      refine ⟨?_, ?_⟩
      · rw [Fin.ext_iff, Fin.ext_iff, hval]
        simp
        omega
      · rw [Bool.eq_iff_iff]
        simp only [isSurrogate, hval, Bool.and_eq_true, decide_eq_true_eq]
        omega
    next =>
      obtain rfl := List.mem_singleton.1 hd
      exact ⟨Iff.rfl, rfl⟩

end Sharp

end TaskService
