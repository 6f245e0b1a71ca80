import TaskService.Lib.Dict
import TaskService.Py.Text

/-!
# JSON values

What `json.loads` returns: objects, lists, strings, booleans, null, integers of any size and
IEEE doubles (NaN and the infinities included). An object keeps its members in insertion order;
`Wf` says that no object in the value holds a key twice, which a Python `dict` cannot.

Python's `==` on such values, and JSONB, do not see the order of object members. `canon` sorts
every object by key, at every depth, and `Same` is equality of the canonical forms.

* **`same_dict_of_perm`**: reordering members, and replacing values by equal ones, gives an
  equal object.
* **`get?_of_perm_canonItems`**: equal objects have equal values under every key.
-/

namespace TaskService

/-- A JSON value as Python holds it. -/
inductive Json where
  | null
  | bool (b : Bool)
  | int (n : Int)
  /-- an IEEE 754 double, by its bits -/
  | float (bits : BitVec 64)
  | str (s : PyStr)
  | list (xs : List Json)
  | dict (kvs : List (PyStr × Json))

namespace Json

/-- Induction over a JSON value: lists by their elements, objects by their members' values. -/
@[elab_as_elim, induction_eliminator]
theorem induction {P : Json → Prop} (null : P .null) (bool : ∀ b, P (.bool b))
    (int : ∀ n, P (.int n)) (float : ∀ bits, P (.float bits)) (str : ∀ s, P (.str s))
    (list : ∀ xs, (∀ x ∈ xs, P x) → P (.list xs))
    (dict : ∀ kvs, (∀ kv ∈ kvs, P kv.2) → P (.dict kvs)) : ∀ d, P d
  | .null => null
  | .bool b => bool b
  | .int n => int n
  | .float bits => float bits
  | .str s => str s
  | .list xs => list xs fun x _ => induction null bool int float str list dict x
  | .dict kvs => dict kvs fun kv _ => induction null bool int float str list dict kv.2
termination_by d => sizeOf d
decreasing_by
  · have := List.sizeOf_lt_of_mem ‹x ∈ xs›
    simp only [Json.list.sizeOf_spec]
    omega
  · have := List.sizeOf_lt_of_mem ‹kv ∈ kvs›
    obtain ⟨k, v⟩ := kv
    simp only [Json.dict.sizeOf_spec, Prod.mk.sizeOf_spec] at this ⊢
    omega

/-- `type(value).__name__`. -/
def typeName : Json → PyStr
  | .null => py "NoneType"
  | .bool _ => py "bool"
  | .int _ => py "int"
  | .float _ => py "float"
  | .str _ => py "str"
  | .list _ => py "list"
  | .dict _ => py "dict"

/-- A double with an exponent field short of all ones: neither NaN nor an infinity. -/
def finiteBits (bits : BitVec 64) : Bool := bits.extractLsb' 52 11 != 0x7FF#11

/-- `bool(value)`. A double is false at the two zeros only. -/
def truthy : Json → Bool
  | .null => false
  | .bool b => b
  | .int n => n != 0
  | .float bits => bits.extractLsb' 0 63 != 0#63
  | .str s => s != []
  | .list xs => !xs.isEmpty
  | .dict kvs => !kvs.isEmpty

/-! ## Strings and floats inside a value -/

mutual

/-- Every string and every object key of a value, at any depth. -/
def strings : Json → List PyStr
  | .str s => [s]
  | .list xs => listStrings xs
  | .dict kvs => itemStrings kvs
  | _ => []
termination_by structural d => d

def listStrings : List Json → List PyStr
  | [] => []
  | x :: xs => strings x ++ listStrings xs
termination_by structural xs => xs

def itemStrings : List (PyStr × Json) → List PyStr
  | [] => []
  | (k, v) :: kvs => k :: strings v ++ itemStrings kvs
termination_by structural kvs => kvs

end

mutual

/-- Every double of a value, at any depth. -/
def floats : Json → List (BitVec 64)
  | .float bits => [bits]
  | .list xs => listFloats xs
  | .dict kvs => itemFloats kvs
  | _ => []
termination_by structural d => d

def listFloats : List Json → List (BitVec 64)
  | [] => []
  | x :: xs => floats x ++ listFloats xs
termination_by structural xs => xs

def itemFloats : List (PyStr × Json) → List (BitVec 64)
  | [] => []
  | (_, v) :: kvs => floats v ++ itemFloats kvs
termination_by structural kvs => kvs

end

theorem mem_listStrings {xs : List Json} {s : PyStr} :
    s ∈ listStrings xs ↔ ∃ x ∈ xs, s ∈ strings x := by
  induction xs with
  | nil => simp [listStrings]
  | cons x xs ih => simp [listStrings, ih]

theorem mem_itemStrings {kvs : List (PyStr × Json)} {s : PyStr} :
    s ∈ itemStrings kvs ↔ ∃ kv ∈ kvs, s = kv.1 ∨ s ∈ strings kv.2 := by
  induction kvs with
  | nil => simp [itemStrings]
  | cons kv kvs ih =>
    obtain ⟨k, v⟩ := kv
    simp [itemStrings, ih, or_assoc]

theorem mem_listFloats {xs : List Json} {bits : BitVec 64} :
    bits ∈ listFloats xs ↔ ∃ x ∈ xs, bits ∈ floats x := by
  induction xs with
  | nil => simp [listFloats]
  | cons x xs ih => simp [listFloats, ih]

theorem mem_itemFloats {kvs : List (PyStr × Json)} {bits : BitVec 64} :
    bits ∈ itemFloats kvs ↔ ∃ kv ∈ kvs, bits ∈ floats kv.2 := by
  induction kvs with
  | nil => simp [itemFloats]
  | cons kv kvs ih =>
    obtain ⟨k, v⟩ := kv
    simp [itemFloats, ih]

/-- No string and no object key of the value contains U+0000. -/
def NulFree (d : Json) : Prop := ∀ s ∈ strings d, (0 : CodePoint) ∉ s

@[simp] theorem nulFree_str {s : PyStr} : NulFree (.str s) ↔ (0 : CodePoint) ∉ s := by
  simp [NulFree, strings]

@[simp] theorem nulFree_bool {b : Bool} : NulFree (.bool b) := by
  simp [NulFree, strings]

@[simp] theorem nulFree_list {xs : List Json} : NulFree (.list xs) ↔ ∀ x ∈ xs, NulFree x := by
  simp only [NulFree, strings, mem_listStrings]
  exact ⟨fun h x hx s hs => h s ⟨x, hx, hs⟩, fun h s ⟨x, hx, hs⟩ => h x hx s hs⟩

@[simp] theorem nulFree_dict {kvs : List (PyStr × Json)} :
    NulFree (.dict kvs) ↔ ∀ kv ∈ kvs, (0 : CodePoint) ∉ kv.1 ∧ NulFree kv.2 := by
  simp only [NulFree, strings, mem_itemStrings]
  constructor
  · intro h kv hkv
    exact ⟨h kv.1 ⟨kv, hkv, .inl rfl⟩, fun s hs => h s ⟨kv, hkv, .inr hs⟩⟩
  · rintro h s ⟨kv, hkv, rfl | hs⟩
    · exact (h kv hkv).1
    · exact (h kv hkv).2 s hs

/-! ## Distinct keys -/

mutual

/-- No object of the value holds a key twice. -/
def Wf : Json → Prop
  | .list xs => ListWf xs
  | .dict kvs => (Dict.keys kvs).Nodup ∧ ItemsWf kvs
  | _ => True
termination_by structural d => d

def ListWf : List Json → Prop
  | [] => True
  | x :: xs => Wf x ∧ ListWf xs
termination_by structural xs => xs

def ItemsWf : List (PyStr × Json) → Prop
  | [] => True
  | (_, v) :: kvs => Wf v ∧ ItemsWf kvs
termination_by structural kvs => kvs

end

@[simp] theorem wf_list {xs : List Json} : Wf (.list xs) ↔ ∀ x ∈ xs, Wf x := by
  rw [Wf]
  induction xs with
  | nil => simp [ListWf]
  | cons x xs ih => simp [ListWf, ih]

@[simp] theorem wf_dict {kvs : List (PyStr × Json)} :
    Wf (.dict kvs) ↔ (Dict.keys kvs).Nodup ∧ ∀ kv ∈ kvs, Wf kv.2 := by
  have hitems : ItemsWf kvs ↔ ∀ kv ∈ kvs, Wf kv.2 := by
    induction kvs with
    | nil => simp [ItemsWf]
    | cons kv kvs ih =>
      obtain ⟨k, v⟩ := kv
      simp [ItemsWf, ih]
  rw [Wf, hitems]

@[simp] theorem wf_str (s : PyStr) : Wf (.str s) := trivial

@[simp] theorem wf_bool (b : Bool) : Wf (.bool b) := trivial

@[simp] theorem wf_int (n : Int) : Wf (.int n) := trivial

/-! ## Equality up to the order of object members -/

mutual

/-- The value with every object sorted by key. -/
def canon : Json → Json
  | .list xs => .list (canonList xs)
  | .dict kvs => .dict (Dict.sortOn id (canonItems kvs))
  | d => d
termination_by structural d => d

def canonList : List Json → List Json
  | [] => []
  | x :: xs => canon x :: canonList xs
termination_by structural xs => xs

def canonItems : List (PyStr × Json) → List (PyStr × Json)
  | [] => []
  | (k, v) :: kvs => (k, canon v) :: canonItems kvs
termination_by structural kvs => kvs

end

theorem canonItems_eq (kvs : List (PyStr × Json)) :
    canonItems kvs = kvs.map fun kv => (kv.1, canon kv.2) := by
  induction kvs with
  | nil => rfl
  | cons kv kvs ih =>
    obtain ⟨k, v⟩ := kv
    simp [canonItems, ih]

theorem canonList_eq (xs : List Json) : canonList xs = xs.map canon := by
  induction xs with
  | nil => rfl
  | cons x xs ih => simp [canonList, ih]

@[simp] theorem keys_canonItems (kvs : List (PyStr × Json)) :
    Dict.keys (canonItems kvs) = Dict.keys kvs := by
  simp [canonItems_eq, Dict.keys]

@[simp] theorem canon_list (xs : List Json) : canon (.list xs) = .list (xs.map canon) := by
  rw [canon, canonList_eq]

@[simp] theorem canon_dict (kvs : List (PyStr × Json)) :
    canon (.dict kvs) = .dict (Dict.sortOn id (canonItems kvs)) := by
  rw [canon]

/-- Equality up to the order of object members, at every depth: Python's `==` restricted to
values of the same types, and what JSONB preserves. -/
def Same (d d' : Json) : Prop := canon d = canon d'

@[refl] theorem Same.refl (d : Json) : Same d d := rfl

theorem Same.symm {d d' : Json} (h : Same d d') : Same d' d := Eq.symm h

theorem Same.trans {d d' d'' : Json} (h : Same d d') (h' : Same d' d'') : Same d d'' :=
  Eq.trans h h'

theorem same_list {xs ys : List Json} :
    Same (.list xs) (.list ys) ↔ xs.map canon = ys.map canon := by
  simp [Same]

theorem same_str {s : PyStr} {d : Json} : Same (.str s) d ↔ d = .str s := by
  cases d <;> simp [Same, canon, eq_comm]

theorem same_bool {b : Bool} {d : Json} : Same (.bool b) d ↔ d = .bool b := by
  cases d <;> simp [Same, canon, eq_comm]

theorem same_int {n : Int} {d : Json} : Same (.int n) d ↔ d = .int n := by
  cases d <;> simp [Same, canon, eq_comm]

/-- Only a list is the same as a list. -/
theorem Same.list_right {xs : List Json} {d : Json} (h : Same (.list xs) d) :
    ∃ ys, d = .list ys ∧ xs.map canon = ys.map canon := by
  cases d with
  | list ys => exact ⟨ys, rfl, same_list.1 h⟩
  | _ => simp [Same, canon] at h

/-- Only an object is the same as an object, and their members agree up to order. -/
theorem Same.dict_right {kvs : List (PyStr × Json)} {d : Json} (h : Same (.dict kvs) d) :
    ∃ kvs', d = .dict kvs' ∧ (canonItems kvs).Perm (canonItems kvs') := by
  cases d with
  | dict kvs' =>
    have heq : Dict.sortOn id (canonItems kvs) = Dict.sortOn id (canonItems kvs') := by
      simpa [Same] using h
    have hperm := Dict.sortOn_perm id (canonItems kvs')
    rw [← heq] at hperm
    exact ⟨kvs', rfl, (Dict.sortOn_perm _ _).symm.trans hperm⟩
  | _ => simp [Same, canon] at h

/-- Members that agree up to order, values compared by `Same`, make equal objects. -/
theorem same_dict_of_perm {kvs kvs' : List (PyStr × Json)} (hnd : (Dict.keys kvs).Nodup)
    (h : (canonItems kvs).Perm (canonItems kvs')) : Same (.dict kvs) (.dict kvs') := by
  rw [Same, canon_dict, canon_dict]
  exact congrArg _ (Dict.sortOn_eq_of_perm (fun _ _ h => h) (by simpa using hnd) h)

/-- Equal objects hold the same keys. -/
theorem perm_keys_of_perm_canonItems {kvs kvs' : List (PyStr × Json)}
    (h : (canonItems kvs).Perm (canonItems kvs')) : (Dict.keys kvs).Perm (Dict.keys kvs') := by
  simpa using Dict.perm_keys h

/-- **Equal objects have equal values under every key.** -/
theorem get?_of_perm_canonItems {kvs kvs' : List (PyStr × Json)} (hnd : (Dict.keys kvs).Nodup)
    (h : (canonItems kvs).Perm (canonItems kvs')) (k : PyStr) :
    (Dict.get? kvs k).map canon = (Dict.get? kvs' k).map canon := by
  have := Dict.get?_perm (by simpa using hnd) h k
  rwa [canonItems_eq, canonItems_eq, Dict.get?_mapValues, Dict.get?_mapValues] at this

/-- The canonical form is the same value. -/
@[simp] theorem canon_canon (d : Json) : canon (canon d) = canon d := by
  induction d with
  | list xs ih =>
    simp only [canon_list, List.map_map, list.injEq, List.map_inj_left]
    exact ih
  | dict kvs ih =>
    have hcanon : ∀ kv ∈ kvs, (kv.1, canon (canon kv.2)) = (kv.1, canon kv.2) :=
      fun kv hkv => by rw [ih kv hkv]
    rw [canon_dict, canon_dict, canonItems_eq, canonItems_eq, Dict.sortOn_mapValues,
      Dict.sortOn_sortOn, ← Dict.sortOn_mapValues, List.map_map]
    exact congrArg (fun l => dict (Dict.sortOn id l)) (List.map_congr_left hcanon)
  | _ => rfl

/-- Equal values hold the same strings and keys. -/
theorem mem_strings_canon {d : Json} {s : PyStr} : s ∈ strings (canon d) ↔ s ∈ strings d := by
  induction d with
  | list xs ih =>
    simp only [canon_list, strings, mem_listStrings, List.mem_map, exists_exists_and_eq_and]
    exact exists_congr fun x => and_congr_right fun hx => ih x hx
  | dict kvs ih =>
    simp only [canon_dict, strings, mem_itemStrings, Dict.mem_sortOn, canonItems_eq,
      List.mem_map, exists_exists_and_eq_and]
    exact exists_congr fun kv => and_congr_right fun hkv => or_congr_right (ih kv hkv)
  | _ => rfl

theorem Same.nulFree_iff {d d' : Json} (h : Same d d') : NulFree d ↔ NulFree d' := by
  have hmem : ∀ s, s ∈ strings d ↔ s ∈ strings d' := fun s => by
    rw [← mem_strings_canon, h, mem_strings_canon]
  simp only [NulFree, hmem]

/-- Sorting objects keeps keys distinct, and cannot make them so. -/
theorem wf_canon {d : Json} : Wf (canon d) ↔ Wf d := by
  induction d with
  | list xs ih =>
    simp only [canon_list, wf_list, List.forall_mem_map]
    exact forall₂_congr ih
  | dict kvs ih =>
    simp only [canon_dict, wf_dict, Dict.nodup_keys_sortOn, keys_canonItems, Dict.mem_sortOn]
    refine and_congr_right fun _ => ?_
    rw [canonItems_eq, List.forall_mem_map]
    exact forall₂_congr ih
  | _ => rfl

theorem Same.wf_iff {d d' : Json} (h : Same d d') : Wf d ↔ Wf d' := by
  rw [← wf_canon, h, wf_canon]

end Json

end TaskService
