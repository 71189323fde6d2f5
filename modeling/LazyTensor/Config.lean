import LazyTensor.Number.Numeral

/-!
Settings of compilation and scheduling, and how they are read from environment variables.
-/

namespace LazyTensor

abbrev Environment := List (String × String)

namespace Environment

def isSet (env : Environment) (name : String) : Bool := (env.lookup name).isSome

def number? (env : Environment) (name : String) : Option Nat := do
  (readNumeral (← env.lookup name)).toOption

end Environment

inductive GlobalDims where
  | loops
  | launch
  deriving DecidableEq, Repr

def GlobalDims.name : GlobalDims → String
  | loops => "Loops"
  | launch => "Special"

structure CompileConfig where
  maxPasses : Nat := 64
  globalDims : GlobalDims := .loops
  verify : Bool := true
  hoisting : Bool := true
  deriving DecidableEq, Repr

def CompileConfig.ofEnvironment (env : Environment) : CompileConfig where
  maxPasses := (env.number? "TESSERA_REWRITE_PASSES").getD 64
  globalDims := if env.lookup "TESSERA_SPECIAL" = some "1" then .launch else .loops
  verify := !env.isSet "TESSERA_NOVERIFY"
  hoisting := !env.isSet "TESSERA_NOHOIST"

structure ScheduleConfig where
  reuseBuffers : Bool := true
  /-- How many views a fused source may be seen through. -/
  maxViews : Nat := 2
  deriving DecidableEq, Repr

namespace ScheduleConfig

/-- At least one view is always allowed. -/
def make (reuseBuffers : Bool) (maxViews : Nat) : ScheduleConfig where
  reuseBuffers
  maxViews := max maxViews 1

def ofEnvironment (env : Environment) : ScheduleConfig :=
  make (!env.isSet "TESSERA_NO_MEMORY_PLANNER") ((env.number? "TESSERA_MAX_VIEWS").getD 2)

end ScheduleConfig

end LazyTensor
