import TaskService.Py.Text

/-!
# Accepting zstd

`_client_accepts_zstd` and `_q_is_zero` of `core/compression.py`, on the text of an
`Accept-Encoding` header, with what they use of Python's `str` and `float`. A header is decoded as
latin-1, so no character is above U+00FF.

* **`partition_append`**, **`parseNumber_point`**: what the splits and `float` find in a plain text.
* **`clientAcceptsZstd_iff`**: the first `zstd` in the header decides, by its `q`.
-/

namespace TaskService.Compression

/-! ## Python texts -/

/-- `str.lower` on one latin-1 character. -/
def lowerChar (c : CodePoint) : CodePoint :=
  if 0x41 ≤ c.val ∧ c.val ≤ 0x5A ∨ 0xC0 ≤ c.val ∧ c.val ≤ 0xDE ∧ c.val ≠ 0xD7 then c + 0x20 else c

/-- `str.lower`. -/
def lower (s : PyStr) : PyStr := s.map lowerChar

/-- `s.partition(sep)` on one character: what is before its first occurrence, and after it. -/
def partition (sep : CodePoint) (s : PyStr) : PyStr × PyStr :=
  (s.takeWhile (· ≠ sep), (s.dropWhile (· ≠ sep)).tail)

theorem partition_append {sep : CodePoint} {s t : PyStr} (h : sep ∉ s) :
    partition sep (s ++ sep :: t) = (s, t) := by
  have hs : ∀ c ∈ s, decide (c ≠ sep) = true := fun c hc =>
    decide_eq_true fun heq => h (heq ▸ hc)
  have hsep : ¬ decide (sep ≠ sep) = true := by simp
  have htake : (sep :: t).takeWhile (· ≠ sep) = [] :=
    List.takeWhile_cons_of_neg (p := fun c => decide (c ≠ sep)) hsep
  have hdrop : (sep :: t).dropWhile (· ≠ sep) = sep :: t :=
    List.dropWhile_cons_of_neg (p := fun c => decide (c ≠ sep)) hsep
  rw [partition, List.takeWhile_append_of_pos hs, List.dropWhile_append_of_pos hs, htake, hdrop,
    List.append_nil]
  rfl

theorem partition_of_notMem {sep : CodePoint} {s : PyStr} (h : sep ∉ s) :
    partition sep s = (s, []) := by
  have hs : ∀ c ∈ s, decide (c ≠ sep) = true := fun c hc =>
    decide_eq_true fun heq => h (heq ▸ hc)
  rw [partition, List.takeWhile_eq_self_iff.mpr hs, List.dropWhile_eq_nil_iff.mpr hs]
  rfl

def comma : CodePoint := 0x2C
def semicolon : CodePoint := 0x3B
def equals : CodePoint := 0x3D
def point : CodePoint := 0x2E

/-! ## `float` -/

def isDigit (c : CodePoint) : Bool := 0x30 ≤ c.val && c.val ≤ 0x39

/-- An underscore may stand between two digits, and nowhere else. -/
def dropUnderscores (afterDigit : Bool) : PyStr → Option PyStr
  | [] => some []
  | c :: rest =>
    if c = 0x5F then
      if afterDigit && rest.head?.any isDigit then dropUnderscores false rest else none
    else (dropUnderscores (isDigit c) rest).map (c :: ·)

/-- A sign, and what it is in front of. -/
def sign : PyStr → Bool × PyStr
  | [] => (false, [])
  | c :: rest =>
    if c = 0x2D then (true, rest) else if c = 0x2B then (false, rest) else (false, c :: rest)

def digitsValue (digits : PyStr) : Nat := digits.foldl (fun n c => 10 * n + (c.val - 0x30)) 0

/-- What `float` makes of a text: a number is a mantissa and a power of ten. -/
inductive FloatValue where
  | nan
  | infinity (negative : Bool)
  | number (negative : Bool) (mantissa : Nat) (exponent : Int)
  deriving DecidableEq

/-- Digits with a point, and an exponent. -/
def parseNumber (s : PyStr) : Option (Nat × Int) :=
  let whole := s.takeWhile isDigit
  let afterWhole := s.dropWhile isDigit
  let (fraction, rest) :=
    if afterWhole.head? = some 0x2E then
      (afterWhole.tail.takeWhile isDigit, afterWhole.tail.dropWhile isDigit)
    else ([], afterWhole)
  let mantissa := digitsValue (whole ++ fraction)
  if whole ++ fraction = [] then none
  else
    match rest with
    | [] => some (mantissa, -fraction.length)
    | c :: exponent =>
      let (negative, digits) := sign exponent
      if lowerChar c = 0x65 ∧ digits ≠ [] ∧ digits.all isDigit then
        let size : Int := digitsValue digits
        some (mantissa, (if negative then -size else size) - fraction.length)
      else none

/-- `float(value)` of a text without space at its ends; `none` is the `ValueError`. -/
def parseFloat (value : PyStr) : Option FloatValue := do
  let (negative, s) := sign (← dropUnderscores false value)
  if lower s = py "inf" ∨ lower s = py "infinity" then return .infinity negative
  if lower s = py "nan" then return .nan
  let (mantissa, exponent) ← parseNumber s
  return .number negative mantissa exponent

/-- `mantissa * 10 ** exponent`, rounded to a double, is zero: it is at most half the least double
above zero. -/
def roundsToZero (mantissa : Nat) : Int → Bool
  | .ofNat _ => mantissa = 0
  | .negSucc n => mantissa * 2 ^ 1075 ≤ 10 ^ (n + 1)

/-- `value <= 0`. -/
def FloatValue.leZero : FloatValue → Bool
  | .nan => false
  | .infinity negative => negative
  | .number negative mantissa exponent => negative || roundsToZero mantissa exponent

/-! ## Numbers without a sign -/

theorem dropUnderscores_of_notMem {s : PyStr} (h : 0x5F ∉ s) (afterDigit : Bool) :
    dropUnderscores afterDigit s = some s := by
  induction s generalizing afterDigit with
  | nil => rfl
  | cons c s ih =>
    obtain ⟨hc, hs⟩ := List.ne_and_not_mem_of_not_mem_cons h
    unfold dropUnderscores
    rw [if_neg (Ne.symm hc), ih hs]
    rfl

/-- A number has no sign here, and is no word. -/
theorem sign_digit {c : CodePoint} {rest : PyStr} (hc : isDigit c = true) :
    sign (c :: rest) = (false, c :: rest) := by
  have hminus : c ≠ 0x2D := by
    rintro rfl
    exact absurd hc (by decide)
  have hplus : c ≠ 0x2B := by
    rintro rfl
    exact absurd hc (by decide)
  rw [sign, if_neg hminus, if_neg hplus]

theorem lowerChar_digit {c : CodePoint} (hc : isDigit c = true) : lowerChar c = c := by
  refine if_neg fun hletter => ?_
  simp only [isDigit, Bool.and_eq_true, decide_eq_true_eq] at hc
  omega

theorem lower_digit_ne {c : CodePoint} {rest word : PyStr} (hc : isDigit c = true)
    (hword : word.head?.any isDigit = false) : lower (c :: rest) ≠ word := by
  rintro rfl
  have hhead : (lower (c :: rest)).head? = some c := congrArg some (lowerChar_digit hc)
  rw [hhead, Option.any_some, hc] at hword
  cases hword

/-- One digit, perhaps with a point and more digits after it. -/
theorem parseNumber_digit {c : CodePoint} (hc : isDigit c = true) :
    parseNumber [c] = some (digitsValue [c], 0) := by
  have htake : [c].takeWhile isDigit = [c] := List.takeWhile_cons_of_pos hc
  have hdrop : [c].dropWhile isDigit = [] := List.dropWhile_cons_of_pos hc
  unfold parseNumber
  rw [htake, hdrop]
  rfl

theorem parseNumber_point {c : CodePoint} {fraction : PyStr} (hc : isDigit c = true)
    (hfraction : ∀ d ∈ fraction, isDigit d = true) :
    parseNumber (c :: point :: fraction)
      = some (digitsValue (c :: fraction), -(fraction.length : Int)) := by
  have hpoint : ¬ isDigit point = true := by decide
  have htake : (c :: point :: fraction).takeWhile isDigit = [c] := by
    rw [List.takeWhile_cons_of_pos hc, List.takeWhile_cons_of_neg hpoint]
  have hdrop : (c :: point :: fraction).dropWhile isDigit = point :: fraction := by
    rw [List.dropWhile_cons_of_pos hc, List.dropWhile_cons_of_neg hpoint]
  have hall : fraction.takeWhile isDigit = fraction := List.takeWhile_eq_self_iff.mpr hfraction
  have hnone : fraction.dropWhile isDigit = [] := List.dropWhile_eq_nil_iff.mpr hfraction
  have hsplit : (if (point :: fraction).head? = some 0x2E then
      ((point :: fraction).tail.takeWhile isDigit, (point :: fraction).tail.dropWhile isDigit)
      else ([], point :: fraction)) = (fraction, []) := by
    have hhead : (point :: fraction).head? = some 0x2E := rfl
    rw [if_pos hhead, List.tail_cons, hall, hnone]
  unfold parseNumber
  rw [htake, hdrop]
  dsimp only
  rw [hsplit]
  rfl

/-! ## The header -/

/-- `_q_is_zero`. -/
def qIsZero (value : PyStr) : Bool := (parseFloat value).any FloatValue.leZero

/-- A parameter `q` that refuses. -/
def refuses (param : PyStr) : Bool :=
  let (key, value) := partition equals (strip param)
  lower (strip key) = py "q" && qIsZero (strip value)

/-- The coding that a token of the header names. -/
def coding (token : PyStr) : PyStr := lower (strip (partition semicolon (strip token)).1)

def params (token : PyStr) : List PyStr := (partition semicolon (strip token)).2.splitOn semicolon

/-- The loop over the tokens. -/
def acceptsToken : List PyStr → Bool
  | [] => false
  | token :: tokens =>
    if coding token ≠ py "zstd" then acceptsToken tokens
    else !(params token).any refuses

/-- `_client_accepts_zstd`. -/
def clientAcceptsZstd (acceptEncoding : PyStr) : Bool := acceptsToken (acceptEncoding.splitOn comma)

/-- The header advertises zstd: the first token that names it does not refuse it. -/
def Advertises (acceptEncoding : PyStr) : Prop :=
  ∃ before token after, acceptEncoding.splitOn comma = before ++ token :: after
    ∧ (∀ earlier ∈ before, coding earlier ≠ py "zstd") ∧ coding token = py "zstd"
    ∧ ∀ param ∈ params token, refuses param = false

theorem acceptsToken_iff {tokens : List PyStr} : acceptsToken tokens = true ↔
    ∃ before token after, tokens = before ++ token :: after
      ∧ (∀ earlier ∈ before, coding earlier ≠ py "zstd") ∧ coding token = py "zstd"
      ∧ ∀ param ∈ params token, refuses param = false := by
  induction tokens with
  | nil => simp [acceptsToken]
  | cons first tokens ih =>
    unfold acceptsToken
    by_cases hfirst : coding first = py "zstd"
    · rw [if_neg (not_not.mpr hfirst), Bool.not_eq_true', List.any_eq_false]
      constructor
      · intro h
        exact ⟨[], first, tokens, rfl, fun _ h => (nomatch h), hfirst, fun param hparam =>
          Bool.not_eq_true _ ▸ h param hparam⟩
      · rintro ⟨before, token, after, heq, hbefore, -, hparams⟩ param hparam
        cases before with
        | nil =>
          obtain ⟨rfl, -⟩ := List.cons.inj heq
          rw [hparams param hparam]
          decide
        | cons earlier before =>
          obtain ⟨rfl, -⟩ := List.cons.inj heq
          exact absurd hfirst (hbefore _ List.mem_cons_self)
    · rw [if_pos hfirst, ih]
      constructor
      · rintro ⟨before, token, after, rfl, hbefore, htoken, hparams⟩
        exact ⟨first :: before, token, after, rfl, List.forall_mem_cons.mpr ⟨hfirst, hbefore⟩,
          htoken, hparams⟩
      · rintro ⟨before, token, after, heq, hbefore, htoken, hparams⟩
        cases before with
        | nil =>
          obtain ⟨rfl, -⟩ := List.cons.inj heq
          exact absurd htoken hfirst
        | cons earlier before =>
          obtain ⟨rfl, rfl⟩ := List.cons.inj heq
          exact ⟨before, token, after, rfl, fun other hother =>
            hbefore other (List.mem_cons_of_mem _ hother), htoken, hparams⟩

/-- **The first `zstd` decides.** -/
theorem clientAcceptsZstd_iff {acceptEncoding : PyStr} :
    clientAcceptsZstd acceptEncoding = true ↔ Advertises acceptEncoding := acceptsToken_iff

example : clientAcceptsZstd (py "gzip, ZSTD ; Q=0.5") = true := by decide +kernel

example : clientAcceptsZstd (py "zstd;q=0.000, br") = false := by decide +kernel

end TaskService.Compression
