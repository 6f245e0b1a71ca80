import Mathlib.Data.List.Sort
import Mathlib.Data.Prod.Lex

/-!
# Insertion-ordered dictionaries

A dictionary is the list of its items in insertion order, one item a key. Lookups,
updates and the union follow that reading: a key already present keeps its place, a new
key goes to the end. Nothing here stops a list from holding a key twice; the lemmas that
need distinct keys ask for `(keys d).Nodup`.

* **`get?_eq_some_iff`**: with distinct keys, looking a key up is membership of the item.
* **`get?_perm`**: a lookup does not see the order of the items.
* **`sortOn_eq_of_perm`**: sorting by an injective key forgets the insertion order, so two
  dictionaries with the same items sort to the same list.
-/

/-- The items of a dictionary, in insertion order. -/
abbrev Dict (κ β : Type*) := List (κ × β)

namespace Dict

variable {κ β γ : Type*}

/-- The keys, in insertion order. -/
def keys (d : Dict κ β) : List κ := d.map Prod.fst

@[simp] theorem keys_nil : keys ([] : Dict κ β) = [] := rfl

@[simp] theorem keys_cons (kv : κ × β) (d : Dict κ β) : keys (kv :: d) = kv.1 :: keys d := rfl

@[simp] theorem keys_append (d e : Dict κ β) : keys (d ++ e) = keys d ++ keys e :=
  List.map_append

theorem mem_keys_iff {d : Dict κ β} {k : κ} : k ∈ keys d ↔ ∃ v, (k, v) ∈ d := by
  simp [keys]

theorem mem_keys_of_mem {d : Dict κ β} {k : κ} {v : β} (h : (k, v) ∈ d) : k ∈ keys d :=
  mem_keys_iff.2 ⟨v, h⟩

theorem perm_keys {d e : Dict κ β} (h : d.Perm e) : (keys d).Perm (keys e) := h.map _

theorem nodup_keys_filter {d : Dict κ β} (p : κ × β → Bool) (h : (keys d).Nodup) :
    (keys (d.filter p)).Nodup :=
  h.sublist (List.filter_sublist.map _)

/-- Two items under one key are the same item, when keys are distinct. -/
theorem eq_of_mem_of_mem {d : Dict κ β} (h : (keys d).Nodup) {k : κ} {v w : β}
    (hv : (k, v) ∈ d) (hw : (k, w) ∈ d) : v = w := by
  have := List.inj_on_of_nodup_map h hv hw rfl
  simpa using this

section Lookup

variable [DecidableEq κ]

/-- The value under a key, if the key is present. -/
def get? (d : Dict κ β) (k : κ) : Option β := d.lookup k

@[simp] theorem get?_nil (k : κ) : get? ([] : Dict κ β) k = none := rfl

theorem get?_cons (kv : κ × β) (d : Dict κ β) (k : κ) :
    get? (kv :: d) k = if k = kv.1 then some kv.2 else get? d k := by
  obtain ⟨k', v⟩ := kv
  by_cases h : k = k'
  · simp [get?, h]
  · have hb : (k == k') = false := by simpa using h
    simp [get?, List.lookup_cons, h, hb]

theorem get?_isSome_iff {d : Dict κ β} {k : κ} : (get? d k).isSome ↔ k ∈ keys d := by
  induction d with
  | nil => simp
  | cons kv d ih =>
    rw [get?_cons, keys_cons, List.mem_cons]
    by_cases h : k = kv.1 <;> simp [h, ih]

theorem get?_eq_none_iff {d : Dict κ β} {k : κ} : get? d k = none ↔ k ∉ keys d := by
  rw [← get?_isSome_iff, Option.not_isSome_iff_eq_none]

theorem mem_of_get? {d : Dict κ β} {k : κ} {v : β} (h : get? d k = some v) : (k, v) ∈ d := by
  induction d with
  | nil => simp at h
  | cons kv d ih =>
    obtain ⟨k', v'⟩ := kv
    rw [get?_cons] at h
    by_cases hk : k = k'
    · simp_all
    · simp only [hk, if_false] at h
      exact List.mem_cons_of_mem _ (ih h)

/-- With distinct keys a lookup finds exactly the item filed under the key. -/
theorem get?_eq_some_iff {d : Dict κ β} (h : (keys d).Nodup) {k : κ} {v : β} :
    get? d k = some v ↔ (k, v) ∈ d := by
  refine ⟨mem_of_get?, fun hmem => ?_⟩
  obtain ⟨w, hw⟩ := Option.isSome_iff_exists.1 (get?_isSome_iff.2 (mem_keys_of_mem hmem))
  rw [hw, eq_of_mem_of_mem h hmem (mem_of_get? hw)]

/-- A lookup does not see the insertion order. -/
theorem get?_perm {d e : Dict κ β} (hd : (keys d).Nodup) (hp : d.Perm e) (k : κ) :
    get? d k = get? e k := by
  have he : (keys e).Nodup := (perm_keys hp).nodup_iff.1 hd
  ext v
  rw [get?_eq_some_iff hd, get?_eq_some_iff he, hp.mem_iff]

/-- Dictionaries that agree on every lookup hold the same items. -/
theorem perm_of_get?_eq {d e : Dict κ β} (hd : (keys d).Nodup) (he : (keys e).Nodup)
    (h : ∀ k, get? d k = get? e k) : d.Perm e := by
  rw [List.perm_ext_iff_of_nodup (List.Nodup.of_map _ hd) (List.Nodup.of_map _ he)]
  intro kv
  rw [← get?_eq_some_iff hd, ← get?_eq_some_iff he, h]

/-- Mapping the values maps the lookups. -/
theorem get?_mapValues (f : β → γ) (d : Dict κ β) (k : κ) :
    get? (d.map fun kv => (kv.1, f kv.2)) k = (get? d k).map f := by
  induction d with
  | nil => rfl
  | cons kv d ih =>
    rw [List.map_cons, get?_cons, get?_cons, ih]
    by_cases h : k = kv.1 <;> simp [h]

theorem get?_append (d e : Dict κ β) (k : κ) :
    get? (d ++ e) k = (get? d k).or (get? e k) := by
  induction d with
  | nil => simp
  | cons kv d ih =>
    rw [List.cons_append, get?_cons, get?_cons, ih]
    by_cases h : k = kv.1 <;> simp [h]

/-- A lookup after a filter on keys. -/
theorem get?_filter (p : κ → Bool) (d : Dict κ β) (k : κ) :
    get? (d.filter fun kv => p kv.1) k = if p k then get? d k else none := by
  induction d with
  | nil => simp
  | cons kv d ih =>
    by_cases hp : p kv.1 <;> by_cases hk : k = kv.1 <;>
      simp_all [get?_cons]

/-! ## Updates -/

/-- `d[k] = v`: a present key keeps its place, a new one goes to the end. -/
def set (d : Dict κ β) (k : κ) (v : β) : Dict κ β :=
  if k ∈ keys d then d.map fun kv => if kv.1 = k then (k, v) else kv else d ++ [(k, v)]

theorem set_of_notMem {d : Dict κ β} {k : κ} (h : k ∉ keys d) (v : β) :
    set d k v = d ++ [(k, v)] := if_neg h

/-- Writing one key does not change the others. -/
theorem get?_set_of_ne (d : Dict κ β) {k k' : κ} (h : k' ≠ k) (v : β) :
    get? (set d k v) k' = get? d k' := by
  by_cases hk : k ∈ keys d
  · rw [set, if_pos hk]
    clear hk
    induction d with
    | nil => rfl
    | cons kv d ih =>
      rw [List.map_cons, get?_cons, get?_cons, ih]
      by_cases hkv : kv.1 = k
      · have hne : k' ≠ kv.1 := hkv ▸ h
        rw [if_pos hkv, if_neg h, if_neg hne]
      · rw [if_neg hkv]
  · rw [set_of_notMem hk, get?_append, get?_cons, if_neg h, get?_nil, Option.or_none]

theorem get?_set_self (d : Dict κ β) (k : κ) (v : β) : get? (set d k v) k = some v := by
  by_cases hk : k ∈ keys d
  · rw [set, if_pos hk]
    induction d with
    | nil => exact absurd hk List.not_mem_nil
    | cons kv d ih =>
      rw [List.map_cons, get?_cons]
      by_cases hkv : kv.1 = k
      · rw [if_pos hkv, if_pos rfl]
      · rw [if_neg hkv, if_neg (Ne.symm hkv)]
        exact ih ((List.mem_cons.1 hk).resolve_left (Ne.symm hkv))
  · rw [set_of_notMem hk, get?_append, get?_eq_none_iff.2 hk, Option.none_or, get?_cons, if_pos rfl]

/-- `d | e`: the items of `e` written over those of `d`, in the order of `e`. -/
def union (d e : Dict κ β) : Dict κ β := e.foldl (fun acc kv => set acc kv.1 kv.2) d

/-- Dictionaries without a common key are joined end to end. -/
theorem union_of_disjoint {d e : Dict κ β} (he : (keys e).Nodup)
    (h : ∀ k ∈ keys e, k ∉ keys d) : union d e = d ++ e := by
  induction e generalizing d with
  | nil => simp [union]
  | cons kv e ih =>
    rw [keys_cons, List.nodup_cons] at he
    have hkv : kv.1 ∉ keys d := h kv.1 (by simp)
    have hrest : ∀ k ∈ keys e, k ∉ keys (d ++ [(kv.1, kv.2)]) := by
      intro k hk
      have hne : k ≠ kv.1 := fun heq => he.1 (heq ▸ hk)
      simpa [hne] using h k (by simp [hk])
    have := ih he.2 hrest
    simpa [union, set_of_notMem hkv] using this

end Lookup

/-! ## Items sorted by key -/

section Sorting

variable [LinearOrder γ]

/-- The items sorted by `f` of their key. -/
def sortOn (f : κ → γ) (d : Dict κ β) : Dict κ β :=
  d.insertionSort fun a b => f a.1 ≤ f b.1

@[simp] theorem sortOn_nil (f : κ → γ) : sortOn f ([] : Dict κ β) = [] := rfl

theorem sortOn_perm (f : κ → γ) (d : Dict κ β) : (sortOn f d).Perm d :=
  List.perm_insertionSort _ d

@[simp] theorem mem_sortOn {f : κ → γ} {d : Dict κ β} {kv : κ × β} :
    kv ∈ sortOn f d ↔ kv ∈ d := (sortOn_perm f d).mem_iff

@[simp] theorem sortOn_eq_nil_iff {f : κ → γ} {d : Dict κ β} : sortOn f d = [] ↔ d = [] := by
  rw [← List.length_eq_zero_iff, (sortOn_perm f d).length_eq, List.length_eq_zero_iff]

theorem nodup_keys_sortOn {f : κ → γ} {d : Dict κ β} :
    (keys (sortOn f d)).Nodup ↔ (keys d).Nodup :=
  (perm_keys (sortOn_perm f d)).nodup_iff

theorem sortOn_pairwise (f : κ → γ) (d : Dict κ β) :
    (sortOn f d).Pairwise fun a b => f a.1 ≤ f b.1 := by
  have : IsTrans (κ × β) fun a b => f a.1 ≤ f b.1 := ⟨fun _ _ _ => le_trans⟩
  have : Std.Total fun (a b : κ × β) => f a.1 ≤ f b.1 := ⟨fun _ _ => le_total _ _⟩
  exact List.pairwise_insertionSort _ d

theorem sortOn_eq_self {f : κ → γ} {d : Dict κ β} (h : d.Pairwise fun a b => f a.1 ≤ f b.1) :
    sortOn f d = d := h.insertionSort_eq

/-- Sorting twice is sorting once. -/
@[simp] theorem sortOn_sortOn (f : κ → γ) (d : Dict κ β) : sortOn f (sortOn f d) = sortOn f d :=
  sortOn_eq_self (sortOn_pairwise f d)

/-- **Sorting forgets the insertion order.** With distinct keys and an injective sort key,
the sorted items are determined by the set of items. -/
theorem sortOn_eq_of_perm {f : κ → γ} (hf : Function.Injective f) {d e : Dict κ β}
    (hd : (keys d).Nodup) (hp : d.Perm e) : sortOn f d = sortOn f e := by
  have hperm : (sortOn f d).Perm (sortOn f e) :=
    ((sortOn_perm f d).trans hp).trans (sortOn_perm f e).symm
  refine hperm.eq_of_pairwise ?_ (sortOn_pairwise f d) (sortOn_pairwise f e)
  intro a b ha hb hab hba
  -- equal sort keys are equal keys, and a key files one item
  have hkey : a.1 = b.1 := hf (le_antisymm hab hba)
  have hb' : b ∈ d := hp.mem_iff.2 (mem_sortOn.1 hb)
  exact List.inj_on_of_nodup_map hd (mem_sortOn.1 ha) hb' hkey

/-- Sorting commutes with a map that keeps the keys. -/
theorem sortOn_mapValues {β' : Type*} (f : κ → γ) (g : β → β') (d : Dict κ β) :
    sortOn f (d.map fun kv => (kv.1, g kv.2)) = (sortOn f d).map fun kv => (kv.1, g kv.2) :=
  (List.map_insertionSort (r := fun a b : κ × β => f a.1 ≤ f b.1)
    (s := fun a b : κ × β' => f a.1 ≤ f b.1) _ d fun _ _ _ _ => Iff.rfl).symm

end Sorting

end Dict
