import Mathlib

/-! # Undo logs

A journal of undo entries, replayed from the newest entry back to a mark. Replaying
may fail.
-/

namespace UndoLog

variable {σ ε ρ : Type*}

/-- Undo `es` from its last entry to its first. -/
def undoAll (undo : ε → σ → Except ρ σ) : List ε → σ → Except ρ σ
  | [], s => .ok s
  | e :: es, s => undoAll undo es s >>= undo e

end UndoLog
