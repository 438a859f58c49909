import BendersPlanning.Conic.Relaxation

/-!
# Conflicting rows

An infeasible relaxation is reduced to rows that are infeasible together, each of them needed: every
row is switched off in turn and stays off while the rest is still infeasible. Bounds always count.
-/

namespace BendersPlanning

variable {K : Type}

/-- Switches row `index` off if the others stay infeasible. -/
def deleteIfRedundant (infeasible : Array Bool → Bool) (active : Array Bool) (index : Nat) :
    Array Bool :=
  let without := active.setIfInBounds index false
  if infeasible without then without else active

/-- The names of the rows that are left by deletion, in model order; none for a feasible model. The
argument `infeasible` answers for each choice of active rows. -/
def Model.conflictSet? (m : Model K) (infeasible : Array Bool → Bool) : Option (List String) :=
  let all := Array.replicate m.constraints.size true
  if infeasible all then
    let active := (List.range m.constraints.size).foldl (deleteIfRedundant infeasible) all
    some (((m.constraints.toList.zip active.toList).filter (·.2)).map (·.1.name))
  else none

end BendersPlanning
