/-
  Configurations written as TOML documents.

  A document has up to five sections.  A section is a table, or an array with
  the values of all its keys in order.  Keys that are missing keep their usual
  values, other keys inside a section are ignored, and other sections are
  refused.
-/
import CubeRouting.Config.Basic
import CubeRouting.Toml.Document

namespace CubeRouting

open Toml (Value Entries)

/-! ## Values -/

namespace ConfigDocument

/-- A natural number. -/
def nat? : Value → Option Nat
  | .integer i => if 0 ≤ i then some i.toNat else none
  | _ => none

/-- A number, with or without a fraction. -/
def number? : Value → Option Binary64
  | .integer i => some (.ofInt i)
  | .float x => some x
  | _ => none

/-- A truth value. -/
def boolean? : Value → Option Bool
  | .boolean b => some b
  | _ => none

/-- A text. -/
def string? : Value → Option String
  | .string s => some s
  | _ => none

/-! ## Sections -/

/-- The value of each key of a section. -/
abbrev SectionValues := String → Option Value

/-- The values of a section with the given keys.  A missing section and a
    moment have none. -/
def sectionValues (entries : Entries) (name : String) (keys : List String) :
    Option SectionValues :=
  match entries.valueOf? name with
  | none | some .moment => some fun _ => none
  | some (.table _ inner) => some (Entries.valueOf? inner)
  | some (.array elements) =>
    if elements.length < keys.length then none
    else some fun key => (keys.zip elements).lookup key
  | some _ => none

/-- The value of a key, `usual` if it is missing; it has to be of the right
    kind. -/
def SectionValues.get {α : Type} (values : SectionValues) (key : String)
    (kind? : Value → Option α) (usual : α) : Option α :=
  match values key with
  | none => some usual
  | some v => kind? v

def sectionNames : List String := ["routing", "selectors", "liveness", "evenness", "secure"]

/-- What a document says, before names are looked up. -/
structure Draft where
  /-- The configuration, with the usual metric and policies. -/
  config : Config
  metric : Option String
  nsPolicy : Option String
  rtPolicy : Option String

/-- What the entries of a document say. -/
def draft? (entries : Entries) : Option Draft := do
  if !entries.all fun e => sectionNames.contains e.1 then none
  let usual := Config.usual
  let routing ← sectionValues entries "routing"
    ["dimensions", "digits_count", "ns_size", "routing_table_slot_size", "use_ns", "use_rt1",
      "use_rt2", "use_secure_routing", "metric", "exclude_rt2_scope_from_rt1",
      "update_network_address_when_different", "recently_processed_retention_ms",
      "recently_processed_capacity"]
  let selectors ← sectionValues entries "selectors" ["ns", "rt"]
  let liveness ← sectionValues entries "liveness"
    ["initial", "max", "threshold", "boost", "decay", "cache_size"]
  let evenness ← sectionValues entries "evenness" ["w1", "k1", "w2", "k2"]
  let secure ← sectionValues entries "secure" ["mask_refresh_interval", "seed"]
  let config : Config := {
    dimensions := ← routing.get "dimensions" nat? usual.dimensions
    digits := ← routing.get "digits_count" nat? usual.digits
    nsSize := ← routing.get "ns_size" nat? usual.nsSize
    slotSize := ← routing.get "routing_table_slot_size" nat? usual.slotSize
    useNs := ← routing.get "use_ns" boolean? usual.useNs
    useRt1 := ← routing.get "use_rt1" boolean? usual.useRt1
    useRt2 := ← routing.get "use_rt2" boolean? usual.useRt2
    useSecure := ← routing.get "use_secure_routing" boolean? usual.useSecure
    metric := usual.metric
    excludeRt2Scope :=
      ← routing.get "exclude_rt2_scope_from_rt1" boolean? usual.excludeRt2Scope
    updateAddresses :=
      ← routing.get "update_network_address_when_different" boolean? usual.updateAddresses
    retention := ← routing.get "recently_processed_retention_ms" nat? usual.retention
    recencyCapacity := ← routing.get "recently_processed_capacity" nat? usual.recencyCapacity
    nsPolicy := usual.nsPolicy
    rtPolicy := usual.rtPolicy
    liveness := {
      initial := ← liveness.get "initial" number? usual.liveness.initial
      max := ← liveness.get "max" number? usual.liveness.max
      threshold := ← liveness.get "threshold" number? usual.liveness.threshold
      boost := ← liveness.get "boost" number? usual.liveness.boost
      decay := ← liveness.get "decay" number? usual.liveness.decay
      memory := ← liveness.get "cache_size" nat? usual.liveness.memory }
    evenness := {
      w1 := ← evenness.get "w1" number? usual.evenness.w1
      k1 := ← evenness.get "k1" number? usual.evenness.k1
      w2 := ← evenness.get "w2" number? usual.evenness.w2
      k2 := ← evenness.get "k2" number? usual.evenness.k2 }
    secure := {
      maskInterval := ← secure.get "mask_refresh_interval" nat? usual.secure.maskInterval
      seed := ← secure.get "seed" (fun v => (nat? v).map (some ∘ UInt64.ofNat)) none } }
  return {
    config
    metric := ← routing.get "metric" (fun v => (string? v).map some) none
    nsPolicy := ← selectors.get "ns" (fun v => (string? v).map some) none
    rtPolicy := ← selectors.get "rt" (fun v => (string? v).map some) none }

end ConfigDocument

/-! ## Configurations -/

namespace Config

def metricOfName (name : String) : Except ConfigError Metric :=
  (Metric.parse name).mapError .unknownMetric

/-- The policy of the neighborhood set with a name. -/
def nsPolicyOfName (name : String) : Except ConfigError NsPolicy :=
  match NsPolicy.parse? name with
  | some p => .ok p
  | none => .error (.unknownNsPolicy name)

/-- The policy of the routing tables with a name. -/
def rtPolicyOfName (name : String) : Except ConfigError RtPolicy :=
  match RtPolicy.parse? name with
  | some p => .ok p
  | none => .error (.unknownRtPolicy name)

/-- The configuration that a document describes; it has to be valid. -/
def ofDocument (text : String) : Except ConfigError Config := do
  match (Toml.read? text).bind ConfigDocument.draft? with
  | none => throw .malformed
  | some draft =>
    let metric ← (draft.metric.mapM metricOfName)
    let nsPolicy ← (draft.nsPolicy.mapM nsPolicyOfName)
    let rtPolicy ← (draft.rtPolicy.mapM rtPolicyOfName)
    let config := { draft.config with
      metric := metric.getD draft.config.metric
      nsPolicy := nsPolicy.getD draft.config.nsPolicy
      rtPolicy := rtPolicy.getD draft.config.rtPolicy }
    config.validate
    return config

/-- The configuration in a file, from its path and what reading it gave. -/
def ofFile (path : String) (content : Except ReadFault String) : Except ConfigError Config :=
  match content with
  | .ok text => ofDocument text
  | .error fault => .error (.unreadable path fault)

end Config

end CubeRouting
