import TaskService.Core.Negotiation

/-!
# The grammar of `Accept-Encoding`

What a client may send: a comma-separated list whose elements may be empty, with optional space
around each; an element is a coding and, if it has one, a weight. A header is kept as this
structure, and `text` prints it. `_client_accepts_zstd` reads the printed header back by nested
splits, and never sees the structure.

* **`qIsZero_text`**: `float` finds exactly the weights that are zero.
* **`acceptsToken_items`**: the loop answers by the first element that names zstd.
* **`clientAcceptsZstd_header`**: with one such element at most, the answer is what the client
  asked for.
-/

namespace TaskService.Compression

/-! ## Tokens -/

/-- A character of a token: a digit, a letter, or one of fifteen marks. -/
def isTchar (c : CodePoint) : Bool :=
  isDigit c || (0x41 ≤ c.val && c.val ≤ 0x5A) || (0x61 ≤ c.val && c.val ≤ 0x7A)
    || c.val ∈ [0x21, 0x23, 0x24, 0x25, 0x26, 0x27, 0x2A, 0x2B, 0x2D, 0x2E, 0x5E, 0x5F, 0x60, 0x7C,
      0x7E]

/-- One or more such characters. -/
structure Token where
  text : PyStr
  nonempty : text ≠ []
  tchars : ∀ c ∈ text, isTchar c = true

/-- Optional whitespace: spaces and tabs. -/
structure Ows where
  text : PyStr
  blanks : ∀ c ∈ text, c = 0x20 ∨ c = 0x09

/-- `Z` becomes `z`, and nothing but a letter changes. -/
def asciiLower (c : CodePoint) : CodePoint := if 0x41 ≤ c.val ∧ c.val ≤ 0x5A then c + 0x20 else c

theorem bounds_of_isTchar {c : CodePoint} (h : isTchar c = true) :
    0x21 ≤ c.val ∧ c.val ≤ 0x7E := by
  simp only [isTchar, isDigit, Bool.or_eq_true, Bool.and_eq_true, decide_eq_true_eq,
    List.mem_cons, List.not_mem_nil, or_false] at h
  omega

theorem isSpace_of_isTchar {c : CodePoint} (h : isTchar c = true) : isSpace c = false := by
  have hbounds := bounds_of_isTchar h
  rw [Bool.eq_false_iff]
  intro hspace
  simp only [isSpace, Bool.or_eq_true, Bool.and_eq_true, decide_eq_true_eq, beq_iff_eq] at hspace
  omega

/-- Such characters have no space at their ends. -/
theorem trimmed_of_isTchar {s : PyStr} (h : ∀ c ∈ s, isTchar c = true) : Trimmed s :=
  trimmed_of_forall fun c hc => isSpace_of_isTchar (h c hc)

/-- The letters that `str.lower` changes outside ASCII are in no token. -/
theorem lowerChar_of_isTchar {c : CodePoint} (h : isTchar c = true) :
    lowerChar c = asciiLower c := by
  have hbounds := bounds_of_isTchar h
  have hsame : (0x41 ≤ c.val ∧ c.val ≤ 0x5A ∨ 0xC0 ≤ c.val ∧ c.val ≤ 0xDE ∧ c.val ≠ 0xD7)
      ↔ (0x41 ≤ c.val ∧ c.val ≤ 0x5A) := by omega
  unfold lowerChar asciiLower
  rw [if_congr hsame rfl rfl]

/-- What separates: neither a token nor a weight has one inside. -/
def Separator (c : CodePoint) : Prop := c = comma ∨ c = semicolon

theorem not_separator_of_isTchar {c : CodePoint} (h : isTchar c = true) : ¬ Separator c := by
  rintro (rfl | rfl)
  · exact absurd h (by decide)
  · exact absurd h (by decide)

theorem Token.not_separator {token : Token} {c : CodePoint} (h : c ∈ token.text) :
    ¬ Separator c := not_separator_of_isTchar (token.tchars c h)

theorem Ows.isSpace {ows : Ows} {c : CodePoint} (h : c ∈ ows.text) : isSpace c = true := by
  rcases ows.blanks c h with rfl | rfl <;> decide

theorem Ows.not_separator {ows : Ows} {c : CodePoint} (h : c ∈ ows.text) : ¬ Separator c := by
  rcases ows.blanks c h with rfl | rfl
  · rintro (h | h) <;> exact absurd h (by decide)
  · rintro (h | h) <;> exact absurd h (by decide)

/-! ## Weights -/

/-- A decimal digit. -/
def digit (d : Fin 10) : CodePoint := ⟨0x30 + d.val, by omega⟩

/-- `0` or `1`, with up to three decimals after a point. -/
structure QValue where
  whole : Fin 2
  decimals : Option (List (Fin 10))
  short : ∀ ds ∈ decimals, ds.length ≤ 3

def QValue.text (q : QValue) : PyStr :=
  digit (q.whole.castLE (by decide)) :: q.decimals.elim [] fun ds => point :: ds.map digit

/-- Its digits as one number. -/
def QValue.mantissa (q : QValue) : Nat :=
  (q.decimals.getD []).foldl (fun n d => 10 * n + d.val) q.whole.val

/-- Its value, in thousandths. -/
def QValue.thousandths (q : QValue) : Nat :=
  q.mantissa * 10 ^ (3 - (q.decimals.getD []).length)

/-- `OWS ";" OWS "q=" qvalue`, the `q` in either case. -/
structure Weight where
  before : Ows
  after : Ows
  upper : Bool
  value : QValue

/-- The letter in front of the value. -/
def Weight.key (w : Weight) : CodePoint := if w.upper then 0x51 else 0x71

/-- What follows the semicolon. -/
def Weight.param (w : Weight) : PyStr := w.after.text ++ w.key :: equals :: w.value.text

def Weight.text (w : Weight) : PyStr := w.before.text ++ semicolon :: w.param

/-! ## The list -/

/-- A coding, and its weight if it has one. -/
structure Element where
  coding : Token
  weight : Option Weight

def Element.text (e : Element) : PyStr := e.coding.text ++ e.weight.elim [] Weight.text

/-- The coding is zstd, in any letter case. -/
def Element.NamesZstd (e : Element) : Prop := e.coding.text.map asciiLower = py "zstd"

instance (e : Element) : Decidable e.NamesZstd := inferInstanceAs (Decidable (_ = _))

/-- What stands between two commas: perhaps nothing. -/
structure Item where
  before : Ows
  element : Option Element
  after : Ows

def Item.text (item : Item) : PyStr :=
  item.before.text ++ item.element.elim [] Element.text ++ item.after.text

/-- A header, item by item. -/
structure AcceptEncoding where
  first : Item
  rest : List Item

def AcceptEncoding.items (header : AcceptEncoding) : List Item := header.first :: header.rest

def AcceptEncoding.elements (header : AcceptEncoding) : List Element :=
  header.items.filterMap Item.element

def AcceptEncoding.text (header : AcceptEncoding) : PyStr :=
  [comma].intercalate (header.items.map Item.text)

/-! ## What `float` makes of a weight -/

theorem isDigit_digit (d : Fin 10) : isDigit (digit d) = true := by
  revert d
  decide

theorem QValue.cases_of_mem {q : QValue} {c : CodePoint} (h : c ∈ q.text) :
    isDigit c = true ∨ c = point := by
  rcases List.mem_cons.mp h with rfl | h
  · exact .inl (isDigit_digit _)
  · cases hdecimals : q.decimals with
    | none =>
      rw [hdecimals] at h
      cases h
    | some ds =>
      rw [hdecimals] at h
      rcases List.mem_cons.mp h with rfl | h
      · exact .inr rfl
      · obtain ⟨d, -, rfl⟩ := List.mem_map.mp h
        exact .inl (isDigit_digit d)

theorem QValue.tchars {q : QValue} : ∀ c ∈ q.text, isTchar c = true := by
  intro c h
  rcases q.cases_of_mem h with h | rfl
  · unfold isTchar
    rw [h]
    rfl
  · decide

/-- The digits of a text are the digits of a number. -/
theorem foldl_digit (ds : List (Fin 10)) (n : Nat) :
    (ds.map digit).foldl (fun n c => 10 * n + (c.val - 0x30)) n
      = ds.foldl (fun n d => 10 * n + d.val) n := by
  rw [List.foldl_map]
  congr 1
  funext n d
  have hd : (digit d).val - 0x30 = d.val := Nat.add_sub_cancel_left 0x30 d.val
  rw [hd]

theorem parseNumber_text (q : QValue) :
    parseNumber q.text = some (q.mantissa, -((q.decimals.getD []).length : Int)) := by
  have hwhole : (digit (q.whole.castLE (by decide))).val - 0x30 = q.whole.val :=
    Nat.add_sub_cancel_left 0x30 _
  unfold QValue.text QValue.mantissa
  cases q.decimals with
  | none =>
    rw [Option.elim_none, parseNumber_digit (isDigit_digit _)]
    show some (10 * 0 + ((digit (q.whole.castLE (by decide))).val - 0x30), (0 : Int)) = _
    rw [hwhole, Nat.mul_zero, Nat.zero_add]
    rfl
  | some ds =>
    have hdigits : ∀ c ∈ ds.map digit, isDigit c = true := by
      intro c hc
      obtain ⟨d, -, rfl⟩ := List.mem_map.mp hc
      exact isDigit_digit d
    have hvalue : digitsValue (digit (q.whole.castLE (by decide)) :: ds.map digit)
        = ds.foldl (fun n d => 10 * n + d.val) q.whole.val := by
      rw [digitsValue, List.foldl_cons, foldl_digit, hwhole, Nat.mul_zero, Nat.zero_add]
    rw [Option.elim_some, parseNumber_point (isDigit_digit _) hdigits, hvalue, List.length_map]
    rfl

theorem QValue.thousandths_eq_zero_iff {q : QValue} : q.thousandths = 0 ↔ q.mantissa = 0 := by
  have hpos : 0 < 10 ^ (3 - (q.decimals.getD []).length) := Nat.pow_pos (by decide)
  rw [thousandths, Nat.mul_eq_zero]
  exact or_iff_left (Nat.ne_of_gt hpos)

/-- With three decimals at most, only zero is rounded to zero. -/
theorem roundsToZero_neg {mantissa n : Nat} (hn : n ≤ 3) :
    roundsToZero mantissa (-(n : Int)) = decide (mantissa = 0) := by
  cases n with
  | zero => rfl
  | succ n =>
    have hpow : 10 ^ (n + 1) ≤ 10 ^ 3 := Nat.pow_le_pow_right (by decide) hn
    have hscaled : ∀ e : Nat, 10 ≤ e → (mantissa * 2 ^ e ≤ 10 ^ (n + 1) ↔ mantissa = 0) := by
      intro e he
      constructor
      · intro hle
        by_contra hne
        have hbig : 2 ^ 10 ≤ 2 ^ e := Nat.pow_le_pow_right Nat.two_pos he
        have hone : 1 * 2 ^ e ≤ mantissa * 2 ^ e :=
          Nat.mul_le_mul_right (2 ^ e) (Nat.one_le_iff_ne_zero.mpr hne)
        omega
      · rintro rfl
        rw [Nat.zero_mul]
        exact Nat.zero_le _
    have hneg : -((n + 1 : Nat) : Int) = Int.negSucc n := rfl
    rw [hneg, roundsToZero, decide_eq_decide]
    exact hscaled 1075 (by decide)

/-- **A weight is zero to `float` exactly when it is zero.** -/
theorem qIsZero_text (q : QValue) : qIsZero q.text = decide (q.thousandths = 0) := by
  have hplain : (0x5F : CodePoint) ∉ q.text := by
    intro h
    rcases q.cases_of_mem h with h | h
    · exact absurd h (by decide)
    · exact absurd h (by decide)
  have hshort : (q.decimals.getD []).length ≤ 3 := by
    cases hdecimals : q.decimals with
    | none => exact Nat.zero_le 3
    | some ds => exact q.short ds hdecimals
  have hsign : sign q.text = (false, q.text) := sign_digit (isDigit_digit _)
  have hword : ∀ word : PyStr, word.head?.any isDigit = false → lower q.text ≠ word :=
    fun _ => lower_digit_ne (isDigit_digit _)
  have hparse : parseFloat q.text
      = some (.number false q.mantissa (-((q.decimals.getD []).length : Int))) := by
    unfold parseFloat
    rw [dropUnderscores_of_notMem hplain]
    dsimp only [Option.bind_eq_bind, Option.bind_some]
    rw [hsign]
    dsimp only
    rw [if_neg (not_or.mpr ⟨hword _ rfl, hword _ rfl⟩), if_neg (hword _ rfl), parseNumber_text]
    rfl
  rw [qIsZero, hparse]
  show (false || roundsToZero q.mantissa _) = _
  rw [Bool.false_or, roundsToZero_neg hshort]
  exact decide_eq_decide.mpr QValue.thousandths_eq_zero_iff.symm

/-! ## One weight -/

namespace Weight

variable {w : Weight}

theorem isTchar_key : isTchar w.key = true := by
  unfold key
  split <;> decide

theorem lower_key : lower [w.key] = py "q" := by
  unfold key
  split <;> decide

theorem not_separator_of_mem_param {c : CodePoint} (h : c ∈ w.param) : ¬ Separator c := by
  rcases List.mem_append.mp h with h | h
  · exact Ows.not_separator h
  · rcases List.mem_cons.mp h with rfl | h
    · exact not_separator_of_isTchar isTchar_key
    · rcases List.mem_cons.mp h with rfl | h
      · rintro (h | h) <;> exact absurd h (by decide)
      · exact not_separator_of_isTchar (QValue.tchars c h)

/-- **A weight refuses when it is zero.** -/
theorem refuses_param (w : Weight) : refuses w.param = decide (w.value.thousandths = 0) := by
  have hvalue : Trimmed w.value.text := trimmed_of_isTchar QValue.tchars
  have hkey : Trimmed [w.key] :=
    trimmed_of_isTchar (List.forall_mem_singleton.mpr isTchar_key)
  have hinner : Trimmed ([w.key] ++ [equals] ++ w.value.text) :=
    hkey.append (List.cons_ne_nil _ _) (List.cons_ne_nil _ _) hvalue
  have hstrip : strip w.param = [w.key] ++ equals :: w.value.text := by
    have hpad := strip_pad (fun c => @Ows.isSpace w.after c) (List.forall_mem_nil _) hinner
    rwa [List.append_nil] at hpad
  have hequals : equals ∉ [w.key] := by
    rw [List.mem_singleton]
    intro heq
    exact absurd (heq ▸ isTchar_key (w := w)) (by decide)
  unfold refuses
  rw [hstrip, partition_append hequals]
  dsimp only
  rw [strip_of_trimmed hkey, strip_of_trimmed hvalue, lower_key, qIsZero_text]
  rfl

end Weight

/-! ## One element -/

theorem Token.lower_text (token : Token) : lower token.text = token.text.map asciiLower :=
  List.map_congr_left fun c hc => lowerChar_of_isTchar (token.tchars c hc)

namespace Element

variable {e : Element}

theorem trimmed_text (e : Element) : Trimmed e.text := by
  have hcoding : Trimmed e.coding.text := trimmed_of_isTchar e.coding.tchars
  unfold text
  cases e.weight with
  | none =>
    rw [Option.elim_none, List.append_nil]
    exact hcoding
  | some w =>
    have hsplit : e.coding.text ++ w.text = e.coding.text
        ++ (w.before.text ++ semicolon :: (w.after.text ++ [w.key, equals])) ++ w.value.text := by
      simp [Weight.text, Weight.param]
    rw [Option.elim_some, hsplit]
    exact hcoding.append e.coding.nonempty (List.cons_ne_nil _ _)
      (trimmed_of_isTchar QValue.tchars)

theorem comma_notMem_text (e : Element) : comma ∉ e.text := by
  have hcoding : comma ∉ e.coding.text := fun hc => Token.not_separator hc (.inl rfl)
  unfold text
  cases e.weight with
  | none =>
    rw [Option.elim_none, List.append_nil]
    exact hcoding
  | some w =>
    rw [Option.elim_some, Weight.text, List.mem_append, List.mem_append, List.mem_cons]
    rintro (h | h | h | h)
    · exact hcoding h
    · exact Ows.not_separator h (.inl rfl)
    · exact absurd h (by decide)
    · exact Weight.not_separator_of_mem_param h (.inl rfl)

/-- What is before the first semicolon, and after it. -/
theorem partition_text (e : Element) : partition semicolon e.text
    = (e.coding.text ++ e.weight.elim [] fun w => w.before.text,
      e.weight.elim [] Weight.param) := by
  have hcoding : semicolon ∉ e.coding.text := fun hc => Token.not_separator hc (.inr rfl)
  unfold text
  cases e.weight with
  | none =>
    simp only [Option.elim_none, List.append_nil]
    exact partition_of_notMem hcoding
  | some w =>
    have hbefore : semicolon ∉ e.coding.text ++ w.before.text := by
      rw [List.mem_append]
      rintro (h | h)
      · exact hcoding h
      · exact Ows.not_separator h (.inr rfl)
    simp only [Option.elim_some, Weight.text]
    rw [← List.append_assoc]
    exact partition_append hbefore

end Element

/-! ## The list -/

namespace Item

theorem strip_text (item : Item) : strip item.text = item.element.elim [] Element.text := by
  have htrimmed : Trimmed (item.element.elim [] Element.text) := by
    cases item.element with
    | none => exact trimmed_of_forall (List.forall_mem_nil _)
    | some e => exact e.trimmed_text
  exact strip_pad (fun c => @Ows.isSpace item.before c) (fun c => @Ows.isSpace item.after c)
    htrimmed

theorem comma_notMem_text (item : Item) : comma ∉ item.text := by
  have helement : comma ∉ item.element.elim [] Element.text := by
    cases item.element with
    | none => exact List.not_mem_nil
    | some e => exact e.comma_notMem_text
  rw [text, List.mem_append, List.mem_append]
  rintro ((h | h) | h)
  · exact Ows.not_separator h (.inl rfl)
  · exact helement h
  · exact Ows.not_separator h (.inl rfl)

/-- Nothing between two commas names no coding. -/
theorem coding_of_none {item : Item} (h : item.element = none) : coding item.text = [] := by
  rw [coding, item.strip_text, h]
  rfl

theorem coding_of_some {item : Item} {e : Element} (h : item.element = some e) :
    coding item.text = e.coding.text.map asciiLower := by
  have htrimmed : Trimmed e.coding.text := trimmed_of_isTchar e.coding.tchars
  have hblank : ∀ c ∈ e.weight.elim [] fun w => w.before.text, isSpace c = true := by
    cases e.weight with
    | none => exact List.forall_mem_nil _
    | some w => exact fun c => @Ows.isSpace w.before c
  have hpad := strip_pad (List.forall_mem_nil _) hblank htrimmed
  rw [coding, item.strip_text, h, Option.elim_some, e.partition_text, ← Token.lower_text]
  exact congrArg lower hpad

/-- **An element with its weight is refused when the weight is zero.** -/
theorem any_refuses {item : Item} {e : Element} (h : item.element = some e) :
    (params item.text).any refuses = e.weight.any fun w => decide (w.value.thousandths = 0) := by
  rw [params, item.strip_text, h, Option.elim_some, e.partition_text]
  cases e.weight with
  | none => rfl
  | some w =>
    have hsemicolon : semicolon ∉ w.param :=
      fun hc => Weight.not_separator_of_mem_param hc (.inr rfl)
    show (w.param.splitOn semicolon).any refuses = decide (w.value.thousandths = 0)
    rw [List.splitOn_eq_singleton hsemicolon, List.any_cons, List.any_nil, Bool.or_false,
      w.refuses_param]

end Item

/-- No weight, or one above zero. -/
def Element.Wanted (e : Element) : Prop := ∀ w ∈ e.weight, 0 < w.value.thousandths

/-- The first element that names zstd. -/
def firstZstd (elements : List Element) : Option Element := elements.find? fun e => e.NamesZstd

theorem firstZstd_cons_of_names {e : Element} (h : e.NamesZstd) (elements : List Element) :
    firstZstd (e :: elements) = some e := by
  rw [firstZstd, List.find?_cons, decide_eq_true h]

theorem firstZstd_cons_of_not {e : Element} (h : ¬ e.NamesZstd) (elements : List Element) :
    firstZstd (e :: elements) = firstZstd elements := by
  rw [firstZstd, List.find?_cons, decide_eq_false h]
  rfl

theorem mem_of_firstZstd {elements : List Element} {e : Element} (h : firstZstd elements = some e) :
    e ∈ elements ∧ e.NamesZstd := by
  have hnames : decide e.NamesZstd = true :=
    List.find?_some (p := fun e : Element => decide e.NamesZstd) h
  exact ⟨List.mem_of_find?_eq_some h, of_decide_eq_true hnames⟩

/-- Where zstd is named once at most, an element that names it is the first. -/
theorem firstZstd_of_mem {elements : List Element} {e : Element}
    (honce : (elements.countP fun e => e.NamesZstd) ≤ 1) (he : e ∈ elements) (h : e.NamesZstd) :
    firstZstd elements = some e := by
  induction elements with
  | nil => cases he
  | cons other elements ih =>
    rw [List.countP_cons] at honce
    by_cases hother : other.NamesZstd
    · rw [if_pos (decide_eq_true hother)] at honce
      have hnone : (elements.countP fun e => e.NamesZstd) = 0 := by omega
      have hrest : e ∉ elements := fun hmem =>
        List.countP_eq_zero.mp hnone e hmem (decide_eq_true h)
      rw [firstZstd_cons_of_names hother, (List.mem_cons.mp he).resolve_right hrest]
    · have hne : e ≠ other := fun heq => hother (heq ▸ h)
      rw [firstZstd_cons_of_not hother]
      exact ih (by omega) ((List.mem_cons.mp he).resolve_left hne)

/-- **The loop answers by the first element that names zstd.** -/
theorem acceptsToken_items (items : List Item) : acceptsToken (items.map Item.text) = true ↔
    ∃ e, firstZstd (items.filterMap Item.element) = some e ∧ e.Wanted := by
  induction items with
  | nil => simp [acceptsToken, firstZstd]
  | cons item items ih =>
    rw [List.map_cons]
    unfold acceptsToken
    cases helement : item.element with
    | none =>
      have hother : coding item.text ≠ py "zstd" := by
        rw [Item.coding_of_none helement]
        decide
      rw [if_pos hother, ih, List.filterMap_cons_none helement]
    | some e =>
      rw [Item.coding_of_some helement, List.filterMap_cons_some helement]
      by_cases hzstd : e.NamesZstd
      · have hname : ¬ e.coding.text.map asciiLower ≠ py "zstd" := not_not.mpr hzstd
        have hwanted : (!e.weight.any fun w => decide (w.value.thousandths = 0)) = true
            ↔ e.Wanted := by
          unfold Element.Wanted
          cases e.weight <;> simp [Nat.pos_iff_ne_zero]
        rw [if_neg hname, Item.any_refuses helement, hwanted, firstZstd_cons_of_names hzstd]
        constructor
        · exact fun h => ⟨e, rfl, h⟩
        · rintro ⟨other, hother, h⟩
          exact Option.some.inj hother ▸ h
      · have hname : e.coding.text.map asciiLower ≠ py "zstd" := hzstd
        rw [if_pos hname, ih, firstZstd_cons_of_not hzstd]

/-- **The splits give the list back.** -/
theorem splitOn_text (header : AcceptEncoding) :
    header.text.splitOn comma = header.items.map Item.text := by
  refine List.splitOn_intercalate comma ?_ (List.cons_ne_nil _ _)
  intro text htext
  obtain ⟨item, -, rfl⟩ := List.mem_map.mp htext
  exact item.comma_notMem_text

/-- **Negotiation is what the client asked for.** Where zstd is named once at most: it is accepted
exactly when an element names it with no weight or with one above zero, and so never when it is
refused. -/
theorem clientAcceptsZstd_header (header : AcceptEncoding)
    (honce : (header.elements.countP fun e => e.NamesZstd) ≤ 1) :
    (clientAcceptsZstd header.text = true
        ↔ ∃ e ∈ header.elements, e.NamesZstd ∧ ∀ w ∈ e.weight, 0 < w.value.thousandths)
      ∧ ((∃ e ∈ header.elements, e.NamesZstd ∧ ∃ w ∈ e.weight, w.value.thousandths = 0)
        → clientAcceptsZstd header.text = false) := by
  have hloop : clientAcceptsZstd header.text = true
      ↔ ∃ e, firstZstd header.elements = some e ∧ e.Wanted := by
    rw [clientAcceptsZstd, splitOn_text]
    exact acceptsToken_items header.items
  refine ⟨hloop.trans ?_, ?_⟩
  · constructor
    · rintro ⟨e, hfirst, hwanted⟩
      obtain ⟨he, hzstd⟩ := mem_of_firstZstd hfirst
      exact ⟨e, he, hzstd, hwanted⟩
    · rintro ⟨e, he, hzstd, hwanted⟩
      exact ⟨e, firstZstd_of_mem honce he hzstd, hwanted⟩
  · rintro ⟨e, he, hzstd, w, hw, hzero⟩
    rw [Bool.eq_false_iff]
    intro haccepts
    obtain ⟨e', hfirst, hwanted⟩ := hloop.mp haccepts
    rw [firstZstd_of_mem honce he hzstd] at hfirst
    have hpos := hwanted w (Option.some.inj hfirst ▸ hw)
    omega

/-! ## One such header -/

def oneSpace : Ows := ⟨[0x20], List.forall_mem_singleton.mpr (.inl rfl)⟩

def noSpace : Ows := ⟨[], List.forall_mem_nil _⟩

/-- `gzip;q=0, ,ZSTD ; Q=0.25`. -/
def mixedHeader : AcceptEncoding where
  first := ⟨noSpace, some ⟨⟨py "gzip", by decide, List.all_eq_true.mp (by decide)⟩,
    some ⟨noSpace, noSpace, false, ⟨0, none, by simp⟩⟩⟩, noSpace⟩
  rest := [⟨oneSpace, none, noSpace⟩,
    ⟨noSpace, some ⟨⟨py "ZSTD", by decide, List.all_eq_true.mp (by decide)⟩,
      some ⟨oneSpace, oneSpace, true, ⟨0, some [2, 5], by simp⟩⟩⟩, noSpace⟩]

example : mixedHeader.text = py "gzip;q=0, ,ZSTD ; Q=0.25" := by decide +kernel

theorem clientAcceptsZstd_mixedHeader : clientAcceptsZstd mixedHeader.text = true :=
  (clientAcceptsZstd_header mixedHeader (by decide +kernel)).1.mpr
    ⟨_, List.mem_cons_of_mem _ List.mem_cons_self, by decide +kernel, by decide +kernel⟩

end TaskService.Compression
