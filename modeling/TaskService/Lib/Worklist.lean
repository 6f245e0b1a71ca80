import TaskService.Lib.Search

/-!
# Graph reachability by a worklist

A stack of nodes still to expand, and the nodes seen so far: pop one, push its unseen
successors, stop when the stack is empty. `explore` runs that loop for at most `fuel` rounds.

The loop is one order of the search of `Search`: its stack is the frontier, up to order
(`Follows`), and expanding the top of the stack is a round. What is seen and how many rounds it
takes are then known from there: the rounds and the stack together count the nodes seen, so `fuel`
rounds empty the stack once `fuel` bounds the nodes there are.

* **`mem_explore_iff`**: with that fuel the loop returns exactly the nodes a path leads to,
  whatever the order in which successors are listed.
-/

namespace Worklist

open Search

variable {α : Type*} [DecidableEq α]

/-- Expand one node: add each unseen successor to the seen nodes and to the stack. -/
def push (succs : List α) (seen stack : List α) : List α × List α :=
  succs.foldl (fun st x => if x ∈ st.1 then st else (x :: st.1, x :: st.2)) (seen, stack)

/-- The worklist loop, `fuel` rounds at most. -/
def explore (succ : α → List α) : Nat → List α → List α → List α
  | 0, seen, _ => seen
  | _ + 1, seen, [] => seen
  | fuel + 1, seen, x :: stack =>
    let st := push (succ x) seen stack
    explore succ fuel st.1 st.2

/-- The graph whose successors a function lists. -/
def listed (succ : α → List α) (x : α) : Finset α := (succ x).toFinset

/-! ## The loop follows a search -/

/-- The two lists of the loop, and a search under way: the same nodes seen, the same nodes still to
expand. -/
structure Follows (seen stack : List α) (s : State α) : Prop where
  seen_iff : ∀ x, x ∈ s.seen ↔ x ∈ seen
  frontier : s.frontier.Perm stack

variable {succ : α → List α} {seen stack start univ : List α} {s : State α} {n : Nat}

/-- **Pushing successors is visiting them.** -/
theorem Follows.push (h : Follows seen stack s) (succs : List α) :
    Follows (push succs seen stack).1 (push succs seen stack).2 (succs.foldl visit s) := by
  induction succs generalizing seen stack s with
  | nil => exact h
  | cons y succs ih =>
    by_cases hy : y ∈ seen
    · have hvisit : visit s y = s := if_pos ((h.seen_iff y).2 hy)
      simpa [Worklist.push, hy, hvisit] using ih h
    · have hvisit : visit s y = ⟨insert y s.seen, s.frontier ++ [y]⟩ :=
        if_neg fun hmem => hy ((h.seen_iff y).1 hmem)
      have hnext : Follows (y :: seen) (y :: stack) ⟨insert y s.seen, s.frontier ++ [y]⟩ :=
        ⟨fun x => by simp [h.seen_iff],
          (List.perm_append_singleton y s.frontier).trans (h.frontier.cons y)⟩
      simpa [Worklist.push, hy, hvisit] using ih hnext

/-- Expanding the top of the stack is a round of the search. -/
theorem Follows.expand (succ : α → List α) {x : α} (h : Follows seen (x :: stack) s) :
    ∃ s', Round (listed succ) s s'
      ∧ Follows (Worklist.push (succ x) seen stack).1 (Worklist.push (succ x) seen stack).2 s' := by
  have hpopped : Follows seen stack ⟨s.seen, stack⟩ := ⟨h.seen_iff, .refl stack⟩
  exact ⟨_, .of_list h.frontier rfl, hpopped.push (succ x)⟩

/-- No search sees more than its sources and the nodes of a universe that holds the successors. -/
theorem card_seen_le (huniv : ∀ x, ∀ y ∈ succ x, y ∈ univ)
    (h : Searched (listed succ) start.toFinset s) :
    s.seen.card ≤ start.length + univ.length := by
  have hsub : s.seen ⊆ (start ++ univ).toFinset := by
    intro y hy
    obtain ⟨x, hx, hpath⟩ := h.sound y hy
    rw [List.mem_toFinset, List.mem_append]
    cases hpath with
    | refl => exact .inl (List.mem_toFinset.1 hx)
    | tail _ hstep => exact .inr (huniv _ y (List.mem_toFinset.1 hstep))
  calc s.seen.card ≤ (start ++ univ).toFinset.card := Finset.card_le_card hsub
    _ ≤ (start ++ univ).length := List.toFinset_card_le _
    _ = start.length + univ.length := List.length_append

/-- **The loop finishes.** With enough fuel it is a search to its end. -/
theorem exists_run (huniv : ∀ x, ∀ y ∈ succ x, y ∈ univ) (hstart : start.Nodup) (fuel : Nat)
    (h : Follows seen stack s) (hrun : Run (listed succ) ⟨start.toFinset, start⟩ n s)
    (hfuel : start.length + univ.length ≤ n + fuel) :
    ∃ m s', Run (listed succ) ⟨start.toFinset, start⟩ m s' ∧ s'.frontier = []
      ∧ ∀ x, x ∈ s'.seen ↔ x ∈ explore succ fuel seen stack := by
  have horder : Enumerates start start.toFinset := ⟨hstart, fun x => List.mem_toFinset.symm⟩
  induction fuel generalizing seen stack s n with
  | zero =>
    -- every node that can be seen was expanded
    have hcount := hrun.rounds_add_frontier horder
    have hle := card_seen_le huniv (hrun.searched horder)
    exact ⟨n, s, hrun, List.eq_nil_of_length_eq_zero (by omega), h.seen_iff⟩
  | succ fuel ih =>
    cases stack with
    | nil => exact ⟨n, s, hrun, h.frontier.eq_nil, h.seen_iff⟩
    | cons x stack =>
      obtain ⟨s', hround, hnext⟩ := Follows.expand succ h
      exact ih hnext (.next hrun hround) (by omega)

/-- **Worklist reachability is exact.** -/
theorem mem_explore_iff {fuel : Nat} (huniv : ∀ x, ∀ y ∈ succ x, y ∈ univ) (hstart : start.Nodup)
    (hfuel : start.length + univ.length ≤ fuel) {y : α} :
    y ∈ explore succ fuel start start ↔ Reaches (listed succ) start.toFinset y := by
  have hfollows : Follows start start ⟨start.toFinset, start⟩ :=
    ⟨fun x => List.mem_toFinset, .refl start⟩
  obtain ⟨m, s', hrun, hend, hseen⟩ := exists_run huniv hstart fuel hfollows .start (by omega)
  rw [← hseen y]
  exact hrun.mem_seen_iff ⟨hstart, fun x => List.mem_toFinset.symm⟩ hend

end Worklist
