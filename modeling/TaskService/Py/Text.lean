import Mathlib.Algebra.Group.Int.Defs
import Mathlib.Algebra.GroupWithZero.Nat
import Mathlib.Data.List.DropRight
import Mathlib.Data.Fin.Basic
import Mathlib.Order.Fin.Basic
import Mathlib.Data.List.Lex

/-!
# Python text

A Python `str` is a sequence of code points, surrogates included: `json.loads` builds such
strings, so they are not Lean strings. The module gives the string operations the service
calls, with Python's meaning.

* **`strip`** drops the characters for which `str.isspace` holds, at both ends; `strip_pad` says
  what it gives back.
* **`casefold`** folds each code point on its own, to one or more code points; the folding
  table itself is a parameter (`Unicode`), so that nothing below depends on its entries.
* **`repr`** is the quoting of `!r` in the error texts.
-/

namespace TaskService

/-- A Unicode code point, surrogates included. -/
abbrev CodePoint := Fin 0x110000

/-- A Python `str`. -/
abbrev PyStr := List CodePoint

-- found once here, and used by name wherever a literal or a membership of texts is decided
instance neZero_codePoints : NeZero 0x110000 := ⟨by decide⟩
instance lawfulBEq_codePoint : LawfulBEq CodePoint := inferInstance
instance lawfulBEq_pyStr : LawfulBEq PyStr := inferInstance
instance lawfulBEq_pyStr_prod : LawfulBEq (PyStr × PyStr) := inferInstance

theorem toNat_lt_codePoints (c : Char) : c.toNat < 0x110000 := by
  rcases c.valid with h | h
  · exact Nat.lt_trans h (by decide)
  · exact h.2

/-- A Python string literal. -/
def py (s : String) : PyStr := s.toList.map fun c => ⟨c.toNat, toNat_lt_codePoints c⟩

/-! ## Whitespace -/

/-- `str.isspace` on one character: bidirectional class WS, B or S, or category Zs. -/
def isSpace (c : CodePoint) : Bool :=
  (9 ≤ c.val && c.val ≤ 13) || (28 ≤ c.val && c.val ≤ 32) || c.val == 0x85 || c.val == 0xA0
    || c.val == 0x1680 || (0x2000 ≤ c.val && c.val ≤ 0x200A) || c.val == 0x2028
    || c.val == 0x2029 || c.val == 0x202F || c.val == 0x205F || c.val == 0x3000

/-- `str.strip()`. -/
def strip (s : PyStr) : PyStr := (s.dropWhile isSpace).rdropWhile isSpace

/-- Nothing is left after stripping: `not value.strip()`. -/
def Blank (s : PyStr) : Prop := strip s = []

instance (s : PyStr) : Decidable (Blank s) := inferInstanceAs (Decidable (strip s = []))

@[simp] theorem strip_nil : strip [] = [] := rfl

theorem blank_iff {s : PyStr} : Blank s ↔ ∀ c ∈ s, isSpace c := by
  have hdrop : s.dropWhile isSpace = [] ↔ ∀ c ∈ s, isSpace c := List.dropWhile_eq_nil_iff
  refine ⟨fun h => ?_, fun h => ?_⟩
  · rw [Blank, strip, List.rdropWhile_eq_nil_iff] at h
    by_contra hne
    -- a non-space head survives `dropWhile`, so it cannot be a space
    have hdne : s.dropWhile isSpace ≠ [] := fun hd => hne (hdrop.1 hd)
    obtain ⟨c, rest, hcons⟩ := List.exists_cons_of_ne_nil hdne
    have hc : isSpace c = true := h c (by simp [hcons])
    have := List.head_dropWhile_not isSpace hdne
    simp [hcons, hc] at this
  · rw [Blank, strip, hdrop.2 h]
    rfl

/-- Stripping twice is stripping once. -/
@[simp] theorem strip_strip (s : PyStr) : strip (strip s) = strip s := by
  have hhead : (strip s).dropWhile isSpace = strip s := by
    rw [List.dropWhile_eq_self_iff]
    intro hpos
    -- the first character of `strip s` is the first one `dropWhile` kept
    have hpre : strip s <+: s.dropWhile isSpace := List.rdropWhile_prefix isSpace _
    have hdne : s.dropWhile isSpace ≠ [] := by
      intro hnil
      simp [strip, hnil] at hpos
    have hnot := List.head_dropWhile_not isSpace hdne
    have hget : (strip s)[0] = (s.dropWhile isSpace).head hdne := by
      rw [List.head_eq_getElem]
      exact hpre.getElem _
    rw [hget]
    simpa using hnot
  calc strip (strip s) = (strip s).rdropWhile isSpace := by rw [strip, hhead]
    _ = strip s := List.rdropWhile_idempotent isSpace _

theorem strip_length_le (s : PyStr) : (strip s).length ≤ s.length :=
  (List.rdropWhile_prefix _ _).length_le.trans (List.dropWhile_suffix _).length_le

/-- No space at either end. -/
structure Trimmed (s : PyStr) : Prop where
  head : ∀ c, s.head? = some c → isSpace c = false
  last : ∀ c, s.getLast? = some c → isSpace c = false

theorem trimmed_of_forall {s : PyStr} (h : ∀ c ∈ s, isSpace c = false) : Trimmed s where
  head c hc := h c (List.mem_of_head? hc)
  last c hc := h c (List.mem_of_getLast? hc)

/-- Whatever stands between the two. -/
theorem Trimmed.append {s mid t : PyStr} (hs : Trimmed s) (hne : s ≠ []) (hne' : t ≠ [])
    (ht : Trimmed t) : Trimmed (s ++ mid ++ t) where
  head c hc := by
    rw [List.append_assoc, List.head?_append_of_ne_nil _ hne] at hc
    exact hs.head c hc
  last c hc := by
    rw [List.getLast?_append_of_ne_nil _ hne'] at hc
    exact ht.last c hc

/-- **Stripping gives back what stands between spaces.** -/
theorem strip_pad {pre s post : PyStr} (hpre : ∀ c ∈ pre, isSpace c = true)
    (hpost : ∀ c ∈ post, isSpace c = true) (h : Trimmed s) : strip (pre ++ s ++ post) = s := by
  cases s with
  | nil =>
    rw [List.append_nil]
    exact blank_iff.mpr fun c hc => (List.mem_append.mp hc).elim (hpre c) (hpost c)
  | cons c s =>
    have hhead : ¬ isSpace c = true := by
      rw [h.head c rfl]
      decide
    have hdrop : (pre ++ (c :: s) ++ post).dropWhile isSpace = (c :: s) ++ post := by
      rw [List.append_assoc, List.dropWhile_append_of_pos hpre, List.cons_append,
        List.dropWhile_cons_of_neg hhead]
    have hrdrop : ((c :: s) ++ post).rdropWhile isSpace = (c :: s).rdropWhile isSpace := by
      have hreverse : ∀ d ∈ post.reverse, isSpace d = true :=
        fun d hd => hpost d (List.mem_reverse.mp hd)
      rw [List.rdropWhile, List.reverse_append, List.dropWhile_append_of_pos hreverse]
      rfl
    have hself : (c :: s).rdropWhile isSpace = c :: s := by
      refine List.rdropWhile_eq_self_iff.mpr fun hne => ?_
      rw [h.last _ (List.getLast?_eq_some_getLast hne)]
      decide
    rw [strip, hdrop, hrdrop, hself]

theorem strip_of_trimmed {s : PyStr} (h : Trimmed s) : strip s = s := by
  have hpad : strip ([] ++ s ++ []) = s :=
    strip_pad (List.forall_mem_nil _) (List.forall_mem_nil _) h
  rwa [List.nil_append, List.append_nil] at hpad

/-! ## What UTF-8 can encode -/

/-- Half of a surrogate pair. -/
def isSurrogate (c : CodePoint) : Bool := 0xD800 ≤ c.val && c.val ≤ 0xDFFF

/-- The text has a UTF-8 encoding: no surrogate in it. -/
def Encodable (s : PyStr) : Prop := ∀ c ∈ s, isSurrogate c = false

instance (s : PyStr) : Decidable (Encodable s) :=
  List.decidableBAll (fun c => isSurrogate c = false) s

/-! ## Case folding

Full case folding is context-free: each code point folds to one, two or three code points,
never to none. -/

/-- The Unicode tables the service reads through `str.casefold` and `repr`. -/
class Unicode where
  /-- the full case folding of one code point -/
  fold : CodePoint → PyStr
  fold_ne_nil : ∀ c, fold c ≠ []
  /-- `str.isprintable` on one character -/
  printable : CodePoint → Bool

variable [Unicode]

/-- `str.casefold()`. -/
def casefold (s : PyStr) : PyStr := s.flatMap Unicode.fold

@[simp] theorem casefold_eq_nil_iff {s : PyStr} : casefold s = [] ↔ s = [] := by
  cases s with
  | nil => simp [casefold]
  | cons c s => simp [casefold, Unicode.fold_ne_nil]

/-! ## `repr` and the texts built from it -/

/-- One lower-case hexadecimal digit. -/
def hexDigit (n : Nat) : PyStr := py (String.ofList [Nat.digitChar n])

/-- `width` lower-case hexadecimal digits of `n`. -/
def hex (width n : Nat) : PyStr :=
  (List.range width).reverse.flatMap fun i => hexDigit (n / 16 ^ i % 16)

/-- One character inside `repr`, `quote` being the quote the literal opens with. -/
def reprChar (quote c : CodePoint) : PyStr :=
  if c = quote ∨ c = 0x5C then [0x5C, c]
  else if c = 9 then py "\\t"
  else if c = 10 then py "\\n"
  else if c = 13 then py "\\r"
  else if c.val < 0x20 ∨ c = 0x7F then py "\\x" ++ hex 2 c.val
  else if c.val < 0x7F ∨ Unicode.printable c then [c]
  else if c.val ≤ 0xFF then py "\\x" ++ hex 2 c.val
  else if c.val ≤ 0xFFFF then py "\\u" ++ hex 4 c.val
  else py "\\U" ++ hex 8 c.val

/-- `repr(s)`: single quotes, unless the text holds one and no double quote. -/
def repr (s : PyStr) : PyStr :=
  let quote : CodePoint := if 0x27 ∈ s ∧ 0x22 ∉ s then 0x22 else 0x27
  quote :: s.flatMap (reprChar quote) ++ [quote]

/-- `sep.join(parts)`. -/
def join (sep : PyStr) (parts : List PyStr) : PyStr := (parts.intersperse sep).flatten

/-- `str(list of str)`. -/
def reprList (parts : List PyStr) : PyStr :=
  py "[" ++ join (py ", ") (parts.map repr) ++ py "]"

/-- `str(n)`. -/
def decimal (n : Nat) : PyStr := py (toString n)

end TaskService
