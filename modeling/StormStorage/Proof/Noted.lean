import StormStorage.Await.Trace
import StormStorage.Server

/-!
# What a step notes

A step's note is what it appends to the log.
-/

namespace StormStorage

open Await

/-- What a step noted. -/
def noted (m : Moment Reply AppState) : List Event := m.after.log.drop m.before.log.length

variable {m : Moment Reply AppState}

theorem noted_same (h : m.after.log = m.before.log) : noted m = [] := by
  rw [noted, h, List.drop_length]

theorem noted_note {e : Event} (h : m.after.log = m.before.log ++ [e]) : noted m = [e] := by
  rw [noted, h]
  exact List.drop_left

end StormStorage
