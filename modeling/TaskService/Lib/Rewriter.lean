import TaskService.Lib.Except

/-!
# Rewriting a stream of messages

A rewriter takes a message at a time, keeps a state of its own and forwards any number of messages
for it; it may fail. Nothing here says what a message is.

* **`run_cons_ok`**: what is forwarded for the first message comes first.
* **`run_forwarding`**: in a state that forwards every message as it is, so is the rest of the
  stream.
-/

namespace Rewriter

variable {σ ε α β : Type}

/-- What is forwarded for a whole stream, and the state after it. -/
def run (send : σ → α → Except ε (σ × List β)) : σ → List α → Except ε (σ × List β)
  | s, [] => .ok (s, [])
  | s, message :: messages => do
    let (s, forwarded) ← send s message
    let (s, rest) ← run send s messages
    return (s, forwarded ++ rest)

theorem run_cons_ok {send : σ → α → Except ε (σ × List β)} {s s' : σ} {message : α}
    {forwarded : List β} (h : send s message = .ok (s', forwarded)) (messages : List α) :
    run send s (message :: messages)
      = (run send s' messages).map fun result => (result.1, forwarded ++ result.2) := by
  rw [run, h, Except.ok_bind]
  dsimp only
  cases run send s' messages <;> rfl

/-- A state that forwards every message as it is. -/
theorem run_forwarding {send : σ → α → Except ε (σ × List α)} {s : σ} {messages : List α}
    (h : ∀ message ∈ messages, send s message = .ok (s, [message])) :
    run send s messages = .ok (s, messages) := by
  induction messages with
  | nil => rfl
  | cons message messages ih =>
    obtain ⟨hfirst, hrest⟩ := List.forall_mem_cons.mp h
    rw [run_cons_ok hfirst, ih hrest]
    rfl

end Rewriter
