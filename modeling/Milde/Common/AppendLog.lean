/-
  Milde.Common.AppendLog

  Append-only logs with optimistic concurrency.

  A writer reads a prefix of the log, computes a batch from it and appends the
  batch on condition that the number of the last entry is still the one its
  prefix ended with (`-1` for an empty log).  The law of the pattern is
  `appendAt_of_isPrefix`: since the log only grows, an accepted writer had read
  all of it; a writer that had not is refused (`appendAt_of_stale`).
-/
import Mathlib.Data.List.Basic

namespace AppendLog

variable {α : Type _}

/-- Append `batch` iff the last entry of `log` has the number `last`. -/
def appendAt (log batch : List α) (last : Int) : Option (List α) :=
  if last = (log.length : Int) - 1 then some (log ++ batch) else none

theorem appendAt_eq_some {log batch log' : List α} {last : Int} :
    appendAt log batch last = some log' ↔
      last = (log.length : Int) - 1 ∧ log' = log ++ batch := by
  unfold appendAt
  split
  · rename_i h
    simp [h, eq_comm]
  · rename_i h
    simp [h]

theorem appendAt_eq_none {log batch : List α} {last : Int} :
    appendAt log batch last = none ↔ last ≠ (log.length : Int) - 1 := by
  simp [appendAt]

/-- An accepted writer had read the whole log. -/
theorem appendAt_of_isPrefix {base log batch log' : List α} (hbase : base <+: log)
    (h : appendAt log batch ((base.length : Int) - 1) = some log') :
    log = base ∧ log' = base ++ batch := by
  obtain ⟨hlen, rfl⟩ := appendAt_eq_some.mp h
  have heq : base = log := hbase.eq_of_length (by omega)
  exact ⟨heq.symm, by rw [heq]⟩

/-- A writer that has missed an entry is refused. -/
theorem appendAt_of_stale {base log batch : List α} (hbase : base.length < log.length) :
    appendAt log batch ((base.length : Int) - 1) = none :=
  appendAt_eq_none.mpr (by omega)

/-- A writer that has read the whole log is accepted. -/
theorem appendAt_self (log batch : List α) :
    appendAt log batch ((log.length : Int) - 1) = some (log ++ batch) :=
  appendAt_eq_some.mpr ⟨rfl, rfl⟩

end AppendLog
