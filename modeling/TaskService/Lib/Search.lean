import Mathlib.Data.Finset.Card
import Mathlib.Data.List.Perm.Basic
import Mathlib.Logic.Relation

/-!
# Graph search in any order

A search keeps the nodes it has seen and a frontier of those it has yet to expand. A round takes any
node off the frontier and visits its successors in any order: the ones not seen yet are seen, and
join the frontier.

The invariant (`Searched`) is that what was seen lies on a path, and that a seen node off the
frontier has all its successors seen. Every round takes one node off the frontier, and a node joins
it when it is first seen, so the rounds and the frontier together count the nodes seen.

* **`Run.rounds_add_frontier`**: hence a search has no more rounds than there are nodes.
* **`Run.mem_seen_iff`**: at its end the nodes seen are those on a path from a source.
-/

namespace Search

variable {α : Type*} [DecidableEq α]

/-- `y` lies on a path of the graph from a source. -/
def Reaches (succ : α → Finset α) (sources : Finset α) (y : α) : Prop :=
  ∃ x ∈ sources, Relation.ReflTransGen (fun a b => b ∈ succ a) x y

/-- One order of the members of a set. -/
structure Enumerates (xs : List α) (s : Finset α) : Prop where
  nodup : xs.Nodup
  mem_iff : ∀ x, x ∈ xs ↔ x ∈ s

theorem Enumerates.length_eq {xs : List α} {s : Finset α} (h : Enumerates xs s) :
    xs.length = s.card := by
  rw [← List.toFinset_card_of_nodup h.nodup]
  exact congrArg Finset.card (Finset.ext fun x => List.mem_toFinset.trans (h.mem_iff x))

/-- A search under way. -/
structure State (α : Type*) where
  seen : Finset α
  frontier : List α

/-- One successor of the node that is expanded. -/
def visit (s : State α) (y : α) : State α :=
  if y ∈ s.seen then s else ⟨insert y s.seen, s.frontier ++ [y]⟩

/-- One round: a node off the frontier, and its successors. -/
inductive Round (succ : α → Finset α) (s : State α) : State α → Prop
  | expand {x : α} {rest ys : List α} (hpop : s.frontier.Perm (x :: rest))
      (hys : Enumerates ys (succ x)) : Round succ s (ys.foldl visit ⟨s.seen, rest⟩)

/-- So many rounds. -/
inductive Run (succ : α → Finset α) (s : State α) : Nat → State α → Prop
  | start : Run succ s 0 s
  | next {n : Nat} {s' s'' : State α} (run : Run succ s n s') (round : Round succ s' s'') :
      Run succ s (n + 1) s''

variable {succ : α → Finset α} {sources : Finset α} {s s' : State α} {n : Nat}

/-! ## One round -/

/-- **What the visits of a round do.** -/
theorem foldl_visit (ys : List α) (s : State α) :
    ∃ new, (ys.foldl visit s).frontier = s.frontier ++ new
      ∧ (∀ y, y ∈ (ys.foldl visit s).seen ↔ y ∈ s.seen ∨ y ∈ ys)
      ∧ (∀ y ∈ ys, y ∉ s.seen → y ∈ new)
      ∧ (∀ y ∈ new, y ∈ ys)
      ∧ (ys.foldl visit s).seen.card = s.seen.card + new.length := by
  induction ys generalizing s with
  | nil => exact ⟨[], by simp⟩
  | cons y ys ih =>
    obtain ⟨new, hfrontier, hseen, hjoin, hnew, hcard⟩ := ih (visit s y)
    rw [List.foldl_cons]
    -- Only a vertex that was not seen joins the frontier, once.
    by_cases hy : y ∈ s.seen
    · have hvisit : visit s y = s := if_pos hy
      rw [hvisit] at hfrontier hseen hjoin hcard ⊢
      refine ⟨new, hfrontier, fun z => ?_, fun z hz hunseen => ?_, fun z hz => ?_, hcard⟩
      · rw [hseen, List.mem_cons]
        constructor
        · rintro (h | h)
          · exact .inl h
          · exact .inr (.inr h)
        · rintro (h | rfl | h)
          · exact .inl h
          · exact .inl hy
          · exact .inr h
      · rcases List.mem_cons.1 hz with rfl | hz
        · exact absurd hy hunseen
        · exact hjoin z hz hunseen
      · exact List.mem_cons_of_mem y (hnew z hz)
    · have hvisit : visit s y = ⟨insert y s.seen, s.frontier ++ [y]⟩ := if_neg hy
      rw [hvisit] at hfrontier hseen hjoin hcard ⊢
      refine ⟨y :: new, ?_, fun z => ?_, fun z hz hunseen => ?_, fun z hz => ?_, ?_⟩
      · rw [hfrontier, List.append_assoc, List.singleton_append]
      · rw [hseen, Finset.mem_insert, List.mem_cons]
        tauto
      · by_cases hzy : z = y
        · exact hzy ▸ List.mem_cons_self
        · have hz' : z ∈ ys := (List.mem_cons.1 hz).resolve_left hzy
          refine List.mem_cons_of_mem y (hjoin z hz' fun hmem => ?_)
          exact hunseen ((Finset.mem_insert.1 hmem).resolve_left hzy)
      · rcases List.mem_cons.1 hz with rfl | hz
        · exact List.mem_cons_self
        · exact List.mem_cons_of_mem y (hnew z hz)
      · rw [hcard, Finset.card_insert_of_notMem hy, List.length_cons]
        omega

/-- Visiting a successor twice is visiting it once, so a list with repetitions stands for an
order of its members. -/
theorem foldl_visit_enumerates (ys : List α) (s : State α) :
    ∃ zs, Enumerates zs ys.toFinset ∧ ys.foldl visit s = zs.foldl visit s := by
  induction ys using List.reverseRecOn with
  | nil => exact ⟨[], ⟨List.nodup_nil, by simp⟩, rfl⟩
  | append_singleton ys y ih =>
    obtain ⟨zs, hzs, heq⟩ := ih
    rw [List.foldl_append, heq]
    by_cases hy : y ∈ zs
    · obtain ⟨new, -, hseen, -⟩ := foldl_visit zs s
      have hvisit : visit (zs.foldl visit s) y = zs.foldl visit s := if_pos ((hseen y).2 (.inr hy))
      refine ⟨zs, ⟨hzs.nodup, fun z => ?_⟩, hvisit⟩
      rw [hzs.mem_iff, List.mem_toFinset, List.mem_toFinset, List.mem_append, List.mem_singleton]
      have hys : y ∈ ys := List.mem_toFinset.1 ((hzs.mem_iff y).1 hy)
      exact ⟨.inl, fun h => h.elim id fun hz => hz ▸ hys⟩
    · refine ⟨zs ++ [y], ⟨?_, fun z => ?_⟩, (List.foldl_append ..).symm⟩
      · exact List.nodup_append.2 ⟨hzs.nodup, List.nodup_singleton y, fun a ha b hb heq =>
          hy (List.mem_singleton.1 hb ▸ heq ▸ ha)⟩
      · rw [List.mem_append, hzs.mem_iff, List.mem_toFinset, List.mem_toFinset, List.mem_append]

/-- A round whose successors are listed, in any order and with any repetitions. -/
theorem Round.of_list {x : α} {rest succs : List α} (hpop : s.frontier.Perm (x :: rest))
    (hsuccs : succ x = succs.toFinset) : Round succ s (succs.foldl visit ⟨s.seen, rest⟩) := by
  obtain ⟨zs, hzs, heq⟩ := foldl_visit_enumerates succs ⟨s.seen, rest⟩
  rw [heq]
  exact .expand hpop (hsuccs ▸ hzs)

/-- A round can be made as long as the frontier has a node. -/
theorem exists_round (succ : α → Finset α) (h : s.frontier ≠ []) : ∃ s', Round succ s s' := by
  obtain ⟨x, rest, hpop⟩ := List.exists_cons_of_ne_nil h
  have hperm : s.frontier.Perm (x :: rest) := hpop ▸ .refl _
  have hys : Enumerates (succ x).toList (succ x) :=
    ⟨(succ x).nodup_toList, fun y => Finset.mem_toList⟩
  exact ⟨_, .expand hperm hys⟩

/-- The loop invariant. -/
structure Searched (succ : α → Finset α) (sources : Finset α) (s : State α) : Prop where
  source_seen : ∀ x ∈ sources, x ∈ s.seen
  frontier_seen : ∀ x ∈ s.frontier, x ∈ s.seen
  sound : ∀ x ∈ s.seen, Reaches succ sources x
  closed : ∀ x ∈ s.seen, x ∉ s.frontier → ∀ y ∈ succ x, y ∈ s.seen

/-- A round keeps the invariant. -/
theorem Searched.round (h : Searched succ sources s) (hround : Round succ s s') :
    Searched succ sources s' := by
  obtain @⟨x, rest, ys, hpop, hys⟩ := hround
  obtain ⟨new, hfrontier, hseen, hjoin, hnew, -⟩ := foldl_visit ys ⟨s.seen, rest⟩
  have hx : x ∈ s.seen := h.frontier_seen x (hpop.mem_iff.2 List.mem_cons_self)
  refine ⟨fun y hy => (hseen y).2 (.inl (h.source_seen y hy)), fun y hy => ?_, fun y hy => ?_,
    fun y hy hoff z hz => ?_⟩
  · rw [hfrontier] at hy
    rcases List.mem_append.1 hy with hrest | hy
    · exact (hseen y).2 (.inl (h.frontier_seen y (hpop.mem_iff.2 (List.mem_cons_of_mem x hrest))))
    · exact (hseen y).2 (.inr (hnew y hy))
  · rcases (hseen y).1 hy with hy | hy
    · exact h.sound y hy
    · obtain ⟨e, he, hpath⟩ := h.sound x hx
      exact ⟨e, he, hpath.tail ((hys.mem_iff y).1 hy)⟩
  · rw [hfrontier, List.mem_append, not_or] at hoff
    by_cases hyx : y = x
    · -- the node that was expanded
      exact (hseen z).2 (.inr ((hys.mem_iff z).2 (hyx ▸ hz)))
    · by_cases hold : y ∈ s.seen
      · have hnot : y ∉ s.frontier := fun hmem =>
          (List.mem_cons.1 (hpop.mem_iff.1 hmem)).elim hyx hoff.1
        exact (hseen z).2 (.inl (h.closed y hold hnot z hz))
      · -- a node first seen in this round is on the frontier
        exact absurd (hjoin y (((hseen y).1 hy).resolve_left hold) hold) hoff.2

/-- A round takes one node off the frontier, and adds those it sees. -/
theorem Round.card_seen (hround : Round succ s s') :
    s'.seen.card + s.frontier.length = s.seen.card + s'.frontier.length + 1 := by
  obtain @⟨x, rest, ys, hpop, hys⟩ := hround
  obtain ⟨new, hfrontier, -, -, -, hcard⟩ := foldl_visit ys ⟨s.seen, rest⟩
  have hlen : s.frontier.length = rest.length + 1 := hpop.length_eq
  rw [hfrontier, hcard, hlen, List.length_append]
  dsimp only
  omega

/-! ## A whole search -/

omit [DecidableEq α] in
theorem Searched.init {order : List α} (horder : Enumerates order sources) :
    Searched succ sources ⟨sources, order⟩ where
  source_seen _ h := h
  frontier_seen x h := (horder.mem_iff x).1 h
  sound x h := ⟨x, h, .refl⟩
  closed x h hoff := absurd ((horder.mem_iff x).2 h) hoff

/-- Every state of a search has the invariant. -/
theorem Run.searched {order : List α} (horder : Enumerates order sources)
    (h : Run succ ⟨sources, order⟩ n s) : Searched succ sources s := by
  induction h with
  | start => exact .init horder
  | next _ round ih => exact ih.round round

/-- **The rounds so far and those still to come, as far as known, are the nodes seen.** -/
theorem Run.rounds_add_frontier {order : List α} (horder : Enumerates order sources)
    (h : Run succ ⟨sources, order⟩ n s) : n + s.frontier.length = s.seen.card := by
  induction h with
  | start =>
    rw [Nat.zero_add]
    exact horder.length_eq
  | next _ round ih =>
    have hround := round.card_seen
    omega

/-- **At the end of a search the nodes seen are those on a path from a source.** -/
theorem Run.mem_seen_iff {order : List α} (horder : Enumerates order sources)
    (h : Run succ ⟨sources, order⟩ n s) (hend : s.frontier = []) {y : α} :
    y ∈ s.seen ↔ Reaches succ sources y := by
  have hinv := h.searched horder
  refine ⟨hinv.sound y, ?_⟩
  rintro ⟨x, hx, hpath⟩
  induction hpath with
  | refl => exact hinv.source_seen x hx
  | tail _ hstep ih => exact hinv.closed _ ih (hend ▸ List.not_mem_nil) _ hstep

end Search
