import Reckoner.Store

/-!
# Reckoner.History — the latest evaluations

A history is a store whose table and order agree. So whatever it lists or counts is there, and its
operations do not have to say what they would do with a name that has no evaluation.
-/

namespace Reckoner

/-- The latest evaluations. -/
structure History extends Store where
  wellFormed : toStore.WellFormed

namespace History

/-- An empty history; a limit that is not positive is no limit given. -/
def empty (limit : Int) : History := ⟨.empty limit, .empty limit⟩

/-- Records a run; the oldest evaluation beyond the limit is forgotten. -/
def record (h : History) (source : Bytes) (r : Run) (t : Timing) : History :=
  ⟨h.toStore.record source r t, h.wellFormed.record source r t⟩

/-- The kept evaluations, the latest first. -/
def list (h : History) : List Evaluation :=
  h.toStore.list.pmap Option.get h.wellFormed.isSome_of_mem_list

/-- How many evaluations of each state are kept. -/
def stats (h : History) : Stats := h.toStore.stats?.get h.wellFormed.isSome_stats?

end History

end Reckoner
