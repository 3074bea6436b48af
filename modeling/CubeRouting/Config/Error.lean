/-
  What can be wrong with a configuration.
-/
import CubeRouting.Identifier.Error

namespace CubeRouting

/-- A capacity or an interval that has to be at least one. -/
inductive Capacity where
  /-- Of the neighborhood set. -/
  | neighborhood
  /-- Of a routing table slot. -/
  | slot
  /-- Of the memory of recently processed peers. -/
  | recency
  /-- Admissions between two masks. -/
  | maskInterval
  /-- Of the memory of liveness scores. -/
  | livenessMemory
deriving DecidableEq

def Capacity.key : Capacity → String
  | neighborhood => "ns_size"
  | slot => "routing_table_slot_size"
  | recency => "recently_processed_capacity"
  | maskInterval => "secure.mask_refresh_interval"
  | livenessMemory => "liveness.cache_size"

/-- A part of the program that limits the number of dimensions. -/
inductive NarrowFeature where
  /-- Placement into the routing tables. -/
  | routingTables
  /-- The policy that balances orthants. -/
  | orthants
deriving DecidableEq

/-- The words for a limited part. -/
def NarrowFeature.text : NarrowFeature → String
  | routingTables => "RT1/RT2 placement"
  | orthants => "balanced orthant selector"

/-- A number that tunes a policy. -/
inductive Tunable where
  | livenessMax | livenessInitial | livenessThreshold | livenessBoost | livenessDecay
  | evennessW1 | evennessW2 | evennessK1 | evennessK2
deriving DecidableEq

def Tunable.key : Tunable → String
  | livenessMax => "liveness.max"
  | livenessInitial => "liveness.initial"
  | livenessThreshold => "liveness.threshold"
  | livenessBoost => "liveness.boost"
  | livenessDecay => "liveness.decay"
  | evennessW1 => "evenness.w1"
  | evennessW2 => "evenness.w2"
  | evennessK1 => "evenness.k1"
  | evennessK2 => "evenness.k2"

/-- What is wrong with the value of a tunable. -/
inductive TunableFault where
  /-- Outside the interval from `0` to `high`. -/
  | outside (high : Binary64)
  /-- Not a positive finite number. -/
  | notPositive
  /-- Not a finite number. -/
  | notFinite
  /-- Not a positive finite exponent. -/
  | notExponent
deriving DecidableEq

/-- The words for a fault of the value `x`. -/
def TunableFault.text (x : Binary64) : TunableFault → String
  | outside high => x.text ++ " is outside [0, " ++ high.text ++ "]"
  | notPositive => x.text ++ " is not a positive number"
  | notFinite => x.text ++ " is not finite"
  | notExponent => x.text ++ " is not a positive exponent"

/-- Why a file could not be read. -/
inductive ReadFault where
  /-- There is no such file. -/
  | notFound
deriving DecidableEq

/-- The words for a failed reading. -/
def ReadFault.text : ReadFault → String
  | notFound => "No such file or directory (os error 2)"

/-- A fault of a configuration. -/
inductive ConfigError where
  /-- The extents make no identifier shape. -/
  | shape (fault : IdentifierError)
  /-- A capacity of zero. -/
  | zeroCapacity (field : Capacity)
  /-- More dimensions than a part of the program can use. -/
  | tooManyDimensions (feature : NarrowFeature) (dimensions limit : Nat)
  /-- A tunable out of its range. -/
  | invalidTunable (field : Tunable) (value : Binary64) (fault : TunableFault)
  /-- A file that could not be read. -/
  | unreadable (path : String) (fault : ReadFault)
  /-- A document that does not have the form of a configuration. -/
  | malformed
  /-- No metric has this name (in lower case). -/
  | unknownMetric (name : String)
  /-- No policy of the neighborhood set has this name. -/
  | unknownNsPolicy (name : String)
  /-- No policy of the routing tables has this name. -/
  | unknownRtPolicy (name : String)
deriving DecidableEq

/-- The text for a metric name that no metric has. -/
def unknownMetricText (name : String) : String := "unknown metric: " ++ name

namespace ConfigError

/-- The text of a document's fault. -/
def parseText (reason : String) : String := "failed to parse config: " ++ reason

/-- The text of a fault. -/
def message : ConfigError → String
  | shape fault => "invalid identifier shape: " ++ fault.message
  | zeroCapacity field => field.key ++ " must be at least 1"
  | tooManyDimensions feature dimensions limit =>
    feature.text ++ " needs dimensions <= " ++ toString limit ++ ", got " ++ toString dimensions
  | invalidTunable field value fault => "invalid " ++ field.key ++ ": " ++ fault.text value
  | unreadable path fault => "failed to read " ++ path ++ ": " ++ fault.text
  | malformed => parseText "malformed document"
  | unknownMetric name => parseText (unknownMetricText name)
  | unknownNsPolicy name => parseText ("unknown NS selector: " ++ name)
  | unknownRtPolicy name => parseText ("unknown RT selector: " ++ name)

end ConfigError

end CubeRouting
