/-
  The configuration of a node and the conditions on it.
-/
import CubeRouting.Config.Policies
import CubeRouting.Config.Tunables
import CubeRouting.Torus.Metric
import CubeRouting.Torus.Orthant

namespace CubeRouting

/-- The largest number of dimensions of the routing tables: digits have to be
    numbers of less than 64 bits. -/
def maxRoutingDimensions : Nat := 63

/-- The configuration of a node. -/
structure Config where
  /-- Bits per digit. -/
  dimensions : Nat
  /-- Digits per identifier. -/
  digits : Nat
  /-- The capacity of the neighborhood set. -/
  nsSize : Nat
  /-- The capacity of a routing table slot. -/
  slotSize : Nat
  /-- Fill the neighborhood set. -/
  useNs : Bool
  /-- Fill the primary routing table. -/
  useRt1 : Bool
  /-- Fill the secondary routing table. -/
  useRt2 : Bool
  /-- Fill the secure routing tables. -/
  useSecure : Bool
  metric : Metric
  /-- Keep peers out of RT1 that RT2 covers at a lower level. -/
  excludeRt2Scope : Bool
  /-- Store the new address of a peer that moved. -/
  updateAddresses : Bool
  /-- Peers processed less than this many milliseconds ago are skipped; `0`
      turns this off. -/
  retention : Nat
  /-- How many processed peers are remembered. -/
  recencyCapacity : Nat
  nsPolicy : NsPolicy
  rtPolicy : RtPolicy
  liveness : LivenessTunables
  evenness : EvennessWeights Binary64
  secure : SecureTunables
deriving DecidableEq

namespace Config

def usual : Config where
  dimensions := 4
  digits := 32
  nsSize := 16
  slotSize := 2
  useNs := true
  useRt1 := true
  useRt2 := true
  useSecure := false
  metric := .manhattan
  excludeRt2Scope := false
  updateAddresses := true
  retention := 0
  recencyCapacity := 4096
  nsPolicy := .distance
  rtPolicy := .simple
  liveness := .usual
  evenness := .usual
  secure := .usual

/-- A small identifier space with small tables and a fixed seed. -/
def small : Config :=
  { usual with
    dimensions := 2
    digits := 4
    nsSize := 4
    slotSize := 2
    recencyCapacity := 64
    secure := ⟨4, some 7⟩ }

/-- The shape of the identifiers. -/
def shape (c : Config) : Except ConfigError Shape :=
  (Shape.ofExtents c.dimensions c.digits).mapError .shape

/-- Some routing table is filled. -/
def usesRoutingTables (c : Config) : Bool := c.useRt1 || c.useRt2 || c.useSecure

/-- A capacity has to be at least one. -/
def checkCapacity (field : Capacity) (n : Nat) : Except ConfigError Unit :=
  if n = 0 then .error (.zeroCapacity field) else .ok ()

/-- A part of the program cannot use more than `limit` dimensions. -/
def checkDimensions (c : Config) (feature : NarrowFeature) (limit : Nat) :
    Except ConfigError Unit :=
  if limit < c.dimensions then .error (.tooManyDimensions feature c.dimensions limit) else .ok ()

/-- The conditions on a configuration, in the order in which they are
    reported. -/
def validate (c : Config) : Except ConfigError Unit := do
  let _ ← c.shape
  checkCapacity .neighborhood c.nsSize
  checkCapacity .slot c.slotSize
  if 0 < c.retention then checkCapacity .recency c.recencyCapacity
  if c.usesRoutingTables then c.checkDimensions .routingTables maxRoutingDimensions
  if c.useNs && c.nsPolicy == .balancedOrthants then
    c.checkDimensions .orthants maxOrthantDimensions
  if c.useSecure then checkCapacity .maskInterval c.secure.maskInterval
  c.liveness.validate
  c.evenness.validate

end Config

end CubeRouting
