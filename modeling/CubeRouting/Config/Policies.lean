/-
  Names of admission policies.

  A configuration chooses one policy for the neighborhood set and one for the
  routing tables.  Names are read in any case; hyphens and underscores count
  in the names of the routing tables' policies only.
-/

namespace CubeRouting

/-- An admission policy of the neighborhood set. -/
inductive NsPolicy where
  /-- First come, first served. -/
  | simple
  /-- Keep the closest peers. -/
  | distance
  /-- Keep the closest peers, spread over the orthants. -/
  | balancedOrthants
  /-- Keep the closest peers, spread over the two semirings. -/
  | balancedRing
  /-- Keep peers that are far from each other and close to the node. -/
  | evenness
  /-- Keep live peers. -/
  | liveness
deriving DecidableEq

/-- An admission policy of the routing tables. -/
inductive RtPolicy where
  /-- First come, first served. -/
  | simple
  /-- Keep the closest peers. -/
  | distance
  /-- Keep live peers. -/
  | liveness
deriving DecidableEq

/-- The short name of a policy. -/
def NsPolicy.name : NsPolicy → String
  | simple => "simple"
  | distance => "distance"
  | balancedOrthants => "balanced-orthants"
  | balancedRing => "balanced-ring"
  | evenness => "avg-dist-evenness"
  | liveness => "liveness"

/-- The short name of a policy. -/
def RtPolicy.name : RtPolicy → String
  | simple => "simple"
  | distance => "distance"
  | liveness => "liveness"

/-- The policy of the neighborhood set with this name. -/
def NsPolicy.parse? (s : String) : Option NsPolicy :=
  match String.ofList ((s.toList.map Char.toLower).filter fun c => c != '-' && c != '_') with
  | "simple" => some simple
  | "distance" => some distance
  | "balancedorthants" => some balancedOrthants
  | "balancedring" => some balancedRing
  | "avgdistevenness" => some evenness
  | "liveness" | "lns" => some liveness
  | _ => none

/-- The policy of the routing tables with this name. -/
def RtPolicy.parse? (s : String) : Option RtPolicy :=
  match String.ofList (s.toList.map Char.toLower) with
  | "simple" => some simple
  | "distance" => some distance
  | "liveness" | "lns" => some liveness
  | _ => none

end CubeRouting
