import Mathlib.Data.Set.Card
import TaskService.Lib.Simulation
import TaskService.Sequential.Duplicates
import TaskService.Workflows.Decisions

/-!
# The board

What the service is for, apart from how it does it: a board of cards, each with the names of its
tags, and a definition the cards move by. Cards, tags and limits are functions and sets here; ids
and times come from anywhere. A request is done when the board allows it, and otherwise refused
with the board as it was.

* **`Board.Allows`**: when a request is done.
* **`Done`**: what it leaves.
* **`Step`**: one request, with what it ends with.
-/

namespace TaskService.Boards

open Tasks Tags Workflows Concurrency Sessions TaskService.Sequential

/-- What is shown of a task. -/
structure Card where
  title : PyStr
  description : Option PyStr
  status : PyStr
  priority : Int
  createdAt : Time
  /-- the names of its tags -/
  tags : Set PyStr

/-- The cards, the names of the tags, and the definition in force with its version. -/
structure Board where
  card : Uuid → Option Card
  tag : Uuid → Option PyStr
  active : Option (Nat × Workflow)

namespace Board

/-- Nothing is there yet. -/
def empty : Board := ⟨fun _ => none, fun _ => none, none⟩

/-- The board with another card under the id, or none, and with these tags. -/
def put (b : Board) (id : Uuid) (c : Option Card) (tag : Uuid → Option PyStr) : Board :=
  ⟨Function.update b.card id c, tag, b.active⟩

/-- The version of the definition in force, 0 before the first. -/
def version (b : Board) : Nat := (b.active.map Prod.fst).getD 0

/-! ## What a request may do -/

/-- How many cards are in a state. -/
noncomputable def occupancy (b : Board) (s : PyStr) : Nat :=
  {id | ∃ c, b.card id = some c ∧ c.status = s}.ncard

/-- The state is below its limit, if it has one. -/
def Room (b : Board) (w : Workflow) (s : PyStr) : Prop :=
  ∀ limit, Limits w s limit → b.occupancy s < limit

/-- A card may start in the state. -/
def Enters (b : Board) (w : Workflow) (s : PyStr) : Prop := s ∈ w.entryStates ∧ b.Room w s

/-- An actor with these roles may take the transition. -/
def Grants (t : Transition) (roles : List PyStr) : Prop :=
  ∀ listed, Requires t listed → ∃ role ∈ roles, role ∈ listed

/-- An actor with these roles may take a card from the one state to the other. -/
def Moves (b : Board) (w : Workflow) (roles : List PyStr) (s target : PyStr) : Prop :=
  target ∈ w.stateNames ∧ (target = s ∨ ∃ t, Dict.get? w.transitions (s, target) = some t
    ∧ Grants t roles ∧ b.Room w target)

variable [Unicode]

/-- No other card has the title, up to case and blanks around it. -/
def TitleFree (b : Board) (self : Option Uuid) (title : PyStr) : Prop :=
  ∀ id c, b.card id = some c → some id ≠ self →
    Task.normalizeTitle c.title ≠ Task.normalizeTitle title

/-- There is a tag of that name, up to case and blanks around it. -/
def Has (tag : Uuid → Option PyStr) (name : PyStr) : Prop :=
  ∃ id n, tag id = some n ∧ Tag.normalizeName n = Tag.normalizeName name

/-- What the request gives can be kept, under a title that no other card has. -/
structure Holds (b : Board) (call : Call) : Prop where
  title : ∀ title ∈ titleOf call, TitleFits title ∧ b.TitleFree (taskOf call) title
  description : ∀ d ∈ descriptionOf call, Encodable d
  names : ∀ name ∈ (suppliedTags call).getD [], ¬ Blank name
    ∧ (Has b.tag name ∨ foldedLength (strip name) ≤ nameMaxLength ∧ Encodable name)

/-- **When a request is done.** -/
def Allows (b : Board) : Call → Prop
  | .create title description status priority tags =>
    b.Holds (.create title description status priority tags)
      ∧ ∃ v w, b.active = some (v, w) ∧ b.Enters w (status.getD w.defaultEntry)
  | .replace taskId title description status priority tags roles =>
    b.Holds (.replace taskId title description status priority tags roles)
      ∧ ∃ c v w, b.card taskId = some c ∧ b.active = some (v, w)
        ∧ b.Moves w roles c.status (status.getD w.defaultEntry)
  | .patch taskId fields roles =>
    fields.isEmpty = false ∧ b.Holds (.patch taskId fields roles)
      ∧ ∃ c, b.card taskId = some c ∧ ∀ target ∈ fields.status, ∃ v w, b.active = some (v, w)
        ∧ b.Moves w roles c.status target
  | .delete taskId => ∃ c, b.card taskId = some c
  | .legalMoves taskId => (∃ c, b.card taskId = some c) ∧ b.active ≠ none
  | .deleteTag tagId => ∃ n, b.tag tagId = some n ∧ ∀ id c, b.card id = some c → n ∉ c.tags
  | .replaceActive document => Portable document.1 ∧ b.version < Store.int4Max
      ∧ ∃ w, workflowFromDocument document.1 = .ok w
        ∧ ∀ id c, b.card id = some c → c.status ∈ w.stateNames
  | .seed => True

end Board

/-! ## What a request does -/

section Effects

variable [Unicode]

/-- The names of the tags that some names mean. -/
def named (tag : Uuid → Option PyStr) (names : List PyStr) : Set PyStr :=
  {n | (∃ id, tag id = some n) ∧ ∃ name ∈ names, Tag.normalizeName name = Tag.normalizeName n}

/-- The tags after some names were used: none is lost or renamed, each name that meant no tag has
one now, spelled as the request first spells it, and no two have one key. -/
structure Coins (names : List PyStr) (tag tag' : Uuid → Option PyStr) : Prop where
  kept : ∀ id n, tag id = some n → tag' id = some n
  coined : ∀ id n, tag' id = some n → tag id = some n ∨ ¬ Board.Has tag n
    ∧ ∃ name, names.find? (fun name => Tag.normalizeName name = Tag.normalizeName n) = some name
      ∧ n = strip name
  complete : ∀ name ∈ names, Board.Has tag' name
  apart : ∀ id id' n n', tag' id = some n → tag' id' = some n' →
    Tag.normalizeName n = Tag.normalizeName n' → id = id'

/-- The reply shows the card. -/
def Shows (id : Uuid) (c : Card) (t : Task) : Prop :=
  t.id = id ∧ t.title = c.title ∧ t.description = c.description ∧ t.status = c.status
    ∧ t.priority = c.priority ∧ t.createdAt = c.createdAt

/-- The card after a partial update: what it does not name is as it was. -/
def Card.patched (c : Card) (fields : PatchFields) (tag : Uuid → Option PyStr) : Card where
  title := (fields.title.map strip).getD c.title
  description := fields.description.getD c.description
  status := fields.status.getD c.status
  priority := fields.priority.getD c.priority
  createdAt := c.createdAt
  tags := (fields.tags.join.map (named tag)).getD c.tags

end Effects

end TaskService.Boards
