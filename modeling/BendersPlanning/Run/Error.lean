import BendersPlanning.Model.Error
import BendersPlanning.Solution

/-!
# What can stop a decomposition

Causes by what was at fault: the configuration, the problem, the planning solve, the projection, one
subproblem, or a model. `RunError.message` holds the wording of all of them.
-/

namespace BendersPlanning

/-- A configuration value out of range, or text that is no configuration. -/
inductive ConfigurationFault (K : Type) where
  | noIterations
  | cpuTime (seconds : K)
  | tolerance (value : K)
  | stabilization (gamma : K)
  | solverLimits
  | levelParameter (gamma : K)
  | unreadable
  | unwritable
  deriving DecidableEq, Repr

/-- A breach of the contract between the planning problem and its subproblems. -/
inductive ProblemFault (K : Type) where
  | noProxies
  | unknownProxy (variableId : Nat)
  | unboundedProxy (name : String)
  | noSubproblems
  | proxyCount (expected found : Nat)
  | repeatedLink (name : String)
  | unknownLink (name : String)
  | indices (count : Nat)
  | unlinked (index : Nat) (name : String)
  | missingVariable (index : Nat) (name : String)
  | penalty (index : Nat) (value : K)
  | noValue (name : String)
  | noProxyFor (index : Nat)
  | noProxy
  | unknownInCut (name : String)
  | levelBounds (lower upper : K)
  | noCentre (name : String)
  deriving DecidableEq, Repr

inductive PlanningFault (K : Type) where
  | unbounded
  | negative (name : String) (value : K)
  | noValue (name : String)
  | noIteration
  deriving DecidableEq, Repr

inductive SubproblemFault where
  | noValue (name : String)
  | ended (status : Status)
  | infeasibleWithSlacks
  | noCertificate
  | noDual (name : String)
  deriving DecidableEq, Repr

/-- Errors of a decomposition. Limits that are reached and infeasible subproblems are none. -/
inductive RunError (K : Type) where
  | configuration (fault : ConfigurationFault K)
  | problem (fault : ProblemFault K)
  | planningInfeasible (status : Status) (conflicts : Option (List String))
  | planningFailed (fault : PlanningFault K)
  | stabilizationFailed (status : Status)
  | subproblemFailed (index : Nat) (fault : SubproblemFault)
  | model (error : ModelError K)
  deriving DecidableEq, Repr

def fixingRowName (linking : String) : String := s!"fix[{linking}]"

variable {K : Type} [NumberText K]

open NumberText (plain fixed)

def ConfigurationFault.message : ConfigurationFault K → String
  | noIterations => "MaxIter must be a positive integer"
  | cpuTime seconds => s!"MaxCpuTime must be positive, got {plain seconds}"
  | tolerance value => s!"ConvTol must be a positive number, got {plain value}"
  | stabilization gamma => s!"StabParam must lie in [0, 1], got {plain gamma}"
  | solverLimits => "Solver iteration and node limits must be positive"
  | levelParameter gamma => s!"level-set parameter must lie in [0, 1], got {plain gamma}"
  | unreadable => "failed to parse TOML"
  | unwritable => "failed to serialize TOML: out-of-range value for u64 type"

def ProblemFault.message : ProblemFault K → String
  | noProxies => "planning problem needs at least one cost-proxy (theta) variable"
  | unknownProxy v => s!"theta variable {variableLabel v} is not in the planning model"
  | unboundedProxy name =>
    s!"theta variable '{name}' needs a finite lower bound, otherwise the first planning " ++
      "problem is unbounded"
  | noSubproblems => "at least one subproblem is required"
  | proxyCount expected found => s!"expected 1 or {expected} theta variables, found {found}"
  | repeatedLink name => s!"linking variable '{name}' is listed twice"
  | unknownLink name => s!"linking variable '{name}' is not in the planning model"
  | indices count => s!"subproblem indices must be unique and cover 0..{count}"
  | unlinked index name => s!"subproblem {index} links '{name}', which is not a linking variable"
  | missingVariable index name => s!"subproblem {index} has no variable named '{name}'"
  | penalty index value =>
    s!"subproblem {index} has slack penalty {plain value}; it must be positive"
  | noValue name => s!"no value for linking variable '{name}'"
  | noProxyFor index => s!"no theta variable for subproblem {index}"
  | noProxy => "planning problem has no theta variable"
  | unknownInCut name => s!"cut references '{name}', which is not in the planning model"
  | levelBounds lower upper =>
    s!"level set needs finite bounds, got LB = {plain lower}, UB = {plain upper}"
  | noCentre name => s!"centre has no value for '{name}'"

def PlanningFault.message : PlanningFault K → String
  | unbounded => "planning problem is unbounded; bound the investment variables"
  | negative name value => s!"linking variable '{name}' is {fixed 6 value} after retry"
  | noValue name => s!"no value for linking variable '{name}'"
  | noIteration => "no iteration completed"

def SubproblemFault.message : SubproblemFault → String
  | noValue name => s!"no value for linking variable '{name}'"
  | ended status => s!"solver ended {status.label}"
  | infeasibleWithSlacks => "infeasible even with penalized slacks"
  | noCertificate => "infeasible without an infeasibility certificate"
  | noDual name => s!"no dual value for {fixingRowName name}"

def RunError.message : RunError K → String
  | configuration fault => "Invalid Benders configuration: " ++ fault.message
  | problem fault => "Invalid decomposed problem: " ++ fault.message
  | planningInfeasible status conflicts =>
    s!"Planning problem solve ended {status.label}" ++
      match conflicts with
      | some (name :: names) => "; conflicting constraints: " ++ ", ".intercalate (name :: names)
      | _ => ""
  | planningFailed fault => "Planning problem failed: " ++ fault.message
  | stabilizationFailed status => s!"Interior level-set problem ended {status.label}"
  | subproblemFailed index fault => s!"Subproblem {index} failed: " ++ fault.message
  | model error => "Model error: " ++ error.message

end BendersPlanning
