import TaskService.Py.Json

/-!
# Writing JSON

`json.dumps(content, ensure_ascii=False, allow_nan=False, separators=(",", ":")).encode("utf-8")`,
which is how `JSONResponse` renders its content. Characters outside ASCII are written as they are,
so a text that holds half of a surrogate pair goes through `dumps` and fails in `encode`.

* **`encodable_text_iff`**: the text written has a UTF-8 encoding exactly when every string in the
  value has one.
* **`render_eq_ok`**: what can be rendered.
-/

namespace TaskService

/-- `float.__repr__`, which writes ASCII; nothing else about the digits matters. -/
class FloatText where
  repr : BitVec 64 → String

/-- What rendering raises. -/
inductive RenderError where
  /-- `ValueError: Out of range float values are not JSON compliant` -/
  | outOfRangeFloat
  /-- `TypeError: Object of type bytes is not JSON serializable` -/
  | notSerializable
  /-- `UnicodeEncodeError: surrogates not allowed` -/
  | notEncodable
  deriving DecidableEq

namespace Json

/-- One character in a string literal: `"`, `\` and the controls below U+0020 are escaped. -/
def escapeChar (c : CodePoint) : PyStr :=
  if c = 0x22 ∨ c = 0x5C then [0x5C, c]
  else if c = 8 then py "\\b"
  else if c = 9 then py "\\t"
  else if c = 10 then py "\\n"
  else if c = 12 then py "\\f"
  else if c = 13 then py "\\r"
  else if c.val < 0x20 then py "\\u" ++ hex 4 c.val
  else [c]

/-- A string literal. -/
def literal (s : PyStr) : PyStr := 0x22 :: s.flatMap escapeChar ++ [0x22]

section Text

variable [FloatText]

mutual

/-- The text of a value whose floats are finite. -/
def text : Json → PyStr
  | .null => py "null"
  | .bool true => py "true"
  | .bool false => py "false"
  | .int n => py (toString n)
  | .float bits => py (FloatText.repr bits)
  | .str s => literal s
  | .list xs => 0x5B :: join [0x2C] (listTexts xs) ++ [0x5D]
  | .dict kvs => 0x7B :: join [0x2C] (itemTexts kvs) ++ [0x7D]
termination_by structural d => d

def listTexts : List Json → List PyStr
  | [] => []
  | x :: xs => text x :: listTexts xs
termination_by structural xs => xs

def itemTexts : List (PyStr × Json) → List PyStr
  | [] => []
  | (k, v) :: kvs => (literal k ++ 0x3A :: text v) :: itemTexts kvs
termination_by structural kvs => kvs

end

theorem listTexts_eq (xs : List Json) : listTexts xs = xs.map text := by
  induction xs with
  | nil => rfl
  | cons x xs ih => rw [listTexts, ih, List.map_cons]

theorem itemTexts_eq (kvs : List (PyStr × Json)) :
    itemTexts kvs = kvs.map fun kv => literal kv.1 ++ 0x3A :: text kv.2 := by
  induction kvs with
  | nil => rfl
  | cons kv kvs ih => rw [itemTexts, ih, List.map_cons]

/-- `json.dumps(…, ensure_ascii=False, allow_nan=False)`. -/
def dumps (d : Json) : Except RenderError PyStr :=
  if ∀ bits ∈ d.floats, finiteBits bits = true then .ok (text d) else .error .outOfRangeFloat

/-- `.encode("utf-8")`, on the text. -/
def encode (s : PyStr) : Except RenderError PyStr :=
  if Encodable s then .ok s else .error .notEncodable

/-- `JSONResponse.render`. -/
def render (d : Json) : Except RenderError PyStr := do
  encode (← dumps d)

end Text

end Json

/-! ## What UTF-8 can encode -/

/-- A string literal of Lean has no half of a surrogate pair. -/
theorem encodable_py (s : String) : Encodable (py s) := by
  intro c hc
  obtain ⟨char, _, rfl⟩ := List.mem_map.mp hc
  simp only [isSurrogate, Bool.and_eq_false_iff, decide_eq_false_iff_not]
  rcases char.valid with h | ⟨h, _⟩
  · exact .inl (Nat.not_le.mpr h)
  · exact .inr (Nat.not_le.mpr h)

theorem encodable_nil : Encodable [] := fun _ h => nomatch h

theorem encodable_cons {c : CodePoint} {s : PyStr} :
    Encodable (c :: s) ↔ isSurrogate c = false ∧ Encodable s := List.forall_mem_cons

theorem encodable_append {s s' : PyStr} : Encodable (s ++ s') ↔ Encodable s ∧ Encodable s' :=
  List.forall_mem_append

theorem encodable_flatMap {f : CodePoint → PyStr} {s : PyStr} :
    Encodable (s.flatMap f) ↔ ∀ c ∈ s, Encodable (f c) := by
  unfold Encodable
  simp only [List.mem_flatMap]
  constructor
  · intro h c hc d hd
    exact h d ⟨c, hc, hd⟩
  · rintro h d ⟨c, hc, hd⟩
    exact h c hc d hd

/-- A text put together by an encodable separator. -/
theorem encodable_join {sep : PyStr} (hsep : Encodable sep) {parts : List PyStr} :
    Encodable (join sep parts) ↔ ∀ part ∈ parts, Encodable part := by
  induction parts with
  | nil => simp [join, encodable_nil]
  | cons part parts ih =>
    cases parts with
    | nil => simp [join]
    | cons next parts =>
      have hsplit : join sep (part :: next :: parts)
          = part ++ (sep ++ join sep (next :: parts)) := by
        simp [join]
      rw [hsplit, encodable_append, encodable_append, ih, List.forall_mem_cons (a := part)]
      exact and_congr_right fun _ => and_iff_right hsep

namespace Json

theorem encodable_hex (width n : Nat) : Encodable (hex width n) := by
  intro c hc
  obtain ⟨i, _, hi⟩ := List.mem_flatMap.mp hc
  exact encodable_py _ c hi

theorem not_isSurrogate_of_ascii {c : CodePoint} (h : c.val < 0x80) : isSurrogate c = false := by
  simp only [isSurrogate, Bool.and_eq_false_iff, decide_eq_false_iff_not]
  omega

/-- What is escaped is ASCII, and so is what is written for it. -/
theorem encodable_escapeChar_of_ascii {c : CodePoint} (h : c.val < 0x80) :
    Encodable (escapeChar c) := by
  have hc := not_isSurrogate_of_ascii h
  unfold escapeChar
  split
  · exact encodable_cons.mpr ⟨by decide, encodable_cons.mpr ⟨hc, encodable_nil⟩⟩
  · repeat' split
    all_goals first
      | exact encodable_py _
      | exact encodable_append.mpr ⟨encodable_py _, encodable_hex 4 _⟩
      | exact encodable_cons.mpr ⟨hc, encodable_nil⟩

theorem escapeChar_of_not_ascii {c : CodePoint} (h : ¬ c.val < 0x80) : escapeChar c = [c] := by
  have hne : ∀ d : CodePoint, d.val < 0x80 → c ≠ d := fun d hd heq => h (heq ▸ hd)
  unfold escapeChar
  rw [if_neg (not_or.mpr ⟨hne _ (by decide), hne _ (by decide)⟩), if_neg (hne _ (by decide)),
    if_neg (hne _ (by decide)), if_neg (hne _ (by decide)), if_neg (hne _ (by decide)),
    if_neg (hne _ (by decide)), if_neg (by omega)]

/-- Escaping neither brings in nor takes away half of a surrogate pair. -/
theorem encodable_escapeChar {c : CodePoint} :
    Encodable (escapeChar c) ↔ isSurrogate c = false := by
  by_cases h : c.val < 0x80
  · exact iff_of_true (encodable_escapeChar_of_ascii h) (not_isSurrogate_of_ascii h)
  · rw [escapeChar_of_not_ascii h, encodable_cons]
    exact and_iff_left encodable_nil

/-- Quotes and brackets are ASCII. -/
theorem encodable_enclosed {before after : CodePoint} (hbefore : before.val < 0x80)
    (hafter : after.val < 0x80) {s : PyStr} :
    Encodable (before :: s ++ [after]) ↔ Encodable s := by
  rw [List.cons_append, encodable_cons, encodable_append, encodable_cons]
  constructor
  · exact fun h => h.2.1
  · exact fun h => ⟨not_isSurrogate_of_ascii hbefore, h, not_isSurrogate_of_ascii hafter,
      encodable_nil⟩

theorem encodable_literal {s : PyStr} : Encodable (literal s) ↔ Encodable s := by
  rw [literal, encodable_enclosed (by decide) (by decide), encodable_flatMap]
  simp only [encodable_escapeChar]
  rfl

variable [FloatText]

/-- **The text has a UTF-8 encoding** exactly when every string and key in the value has one. -/
theorem encodable_text_iff {d : Json} : Encodable (text d) ↔ ∀ s ∈ d.strings, Encodable s := by
  -- A value without strings is written in ASCII.
  have hnone : ∀ {d : Json}, d.strings = [] → ∀ s : String,
      Encodable (py s) ↔ ∀ s ∈ d.strings, Encodable s := by
    intro d hd s
    rw [hd]
    exact iff_of_true (encodable_py s) fun _ h => nomatch h
  induction d with
  | null => exact hnone rfl _
  | bool b => cases b <;> exact hnone rfl _
  | int n => exact hnone rfl _
  | float bits => exact hnone rfl _
  | str s =>
    rw [text, encodable_literal]
    simp [strings]
  | list xs ih =>
    rw [text, encodable_enclosed (by decide) (by decide), encodable_join (by decide), listTexts_eq,
      List.forall_mem_map]
    simp only [strings, mem_listStrings]
    constructor
    · rintro h s ⟨x, hx, hs⟩
      exact (ih x hx).mp (h x hx) s hs
    · exact fun h x hx => (ih x hx).mpr fun s hs => h s ⟨x, hx, hs⟩
  | dict kvs ih =>
    rw [text, encodable_enclosed (by decide) (by decide), encodable_join (by decide), itemTexts_eq,
      List.forall_mem_map]
    simp only [strings, mem_itemStrings, encodable_append, encodable_cons, encodable_literal]
    constructor
    · rintro h s ⟨kv, hkv, rfl | hs⟩
      · exact (h kv hkv).1
      · exact (ih kv hkv).mp (h kv hkv).2.2 s hs
    · intro h kv hkv
      refine ⟨h kv.1 ⟨kv, hkv, .inl rfl⟩, by decide, (ih kv hkv).mpr fun s hs => ?_⟩
      exact h s ⟨kv, hkv, .inr hs⟩

/-- The floats in the value are finite and its strings have a UTF-8 encoding. -/
def Renderable (d : Json) : Prop :=
  (∀ bits ∈ d.floats, finiteBits bits = true) ∧ ∀ s ∈ d.strings, Encodable s

/-- **What can be rendered.** -/
theorem render_eq_ok {d : Json} {body : PyStr} :
    render d = .ok body ↔ Renderable d ∧ body = text d := by
  unfold render dumps encode Renderable
  by_cases hfloats : ∀ bits ∈ d.floats, finiteBits bits = true
  · rw [if_pos hfloats]
    show (if Encodable (text d) then _ else _) = _ ↔ _
    by_cases htext : Encodable (text d)
    · rw [if_pos htext]
      exact ⟨fun h => ⟨⟨hfloats, encodable_text_iff.mp htext⟩, (Except.ok.inj h).symm⟩,
        fun h => congrArg _ h.2.symm⟩
    · rw [if_neg htext]
      exact ⟨fun h => (nomatch h), fun h => absurd (encodable_text_iff.mpr h.1.2) htext⟩
  · rw [if_neg hfloats]
    exact ⟨fun h => (nomatch h), fun h => absurd h.1.1 hfloats⟩

end Json

end TaskService
