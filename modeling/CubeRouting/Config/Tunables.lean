/-
  The numbers that tune the policies.

  * Liveness scores live between `0` and `max`: a pong moves a score by the
    fraction `boost` of its distance to `max`, a missed pong multiplies it by
    `decay`.
  * The evenness objective of a set of peers is
    `w1 * (mean distance of a pair) ^ k1 + w2 * (mean distance to the node) ^ k2`;
    a smaller value is better.
  * The secure policy draws a new mask after a fixed number of admissions.
-/
import CubeRouting.Config.Error

namespace CubeRouting

/-! ## Liveness -/

/-- Tunables of liveness scores. -/
structure LivenessTunables where
  /-- The score of a peer without a recorded one. -/
  initial : Binary64
  /-- The largest score. -/
  max : Binary64
  /-- Members with at most this score may be replaced. -/
  threshold : Binary64
  /-- The part of the distance to `max` that a pong gains. -/
  boost : Binary64
  /-- The factor of a missed pong. -/
  decay : Binary64
  /-- How many scores of evicted peers are remembered. -/
  memory : Nat
deriving DecidableEq

namespace LivenessTunables

def usual : LivenessTunables := ⟨0.5, 1, 0.2, 0.5, 0.5, 1024⟩

/-- The score after a pong. -/
def boosted (t : LivenessTunables) (score : Binary64) : Binary64 :=
  (score + (t.max - score) * t.boost).clamp 0 t.max

/-- The score after a missed pong. -/
def decayed (t : LivenessTunables) (score : Binary64) : Binary64 :=
  (score * t.decay).clamp 0 t.max

/-- A tunable has to lie between `0` and `high`. -/
def checkRange (field : Tunable) (x high : Binary64) : Except ConfigError Unit :=
  if (0 : Binary64).le x && x.le high then .ok ()
  else .error (.invalidTunable field x (.outside high))

/-- The conditions on the tunables of liveness. -/
def validate (t : LivenessTunables) : Except ConfigError Unit := do
  if !(t.max.isFinite && (0 : Binary64).lt t.max) then
    throw (.invalidTunable .livenessMax t.max .notPositive)
  checkRange .livenessInitial t.initial t.max
  checkRange .livenessThreshold t.threshold t.max
  checkRange .livenessBoost t.boost 1
  checkRange .livenessDecay t.decay 1
  if t.memory = 0 then throw (.zeroCapacity .livenessMemory)

end LivenessTunables

/-! ## Evenness -/

/-- Weights and exponents of the evenness objective. -/
structure EvennessWeights (R : Type) where
  /-- The weight of the mean distance of a pair. -/
  w1 : R
  /-- The exponent of the mean distance of a pair. -/
  k1 : R
  /-- The weight of the mean distance to the node. -/
  w2 : R
  /-- The exponent of the mean distance to the node. -/
  k2 : R
deriving DecidableEq

namespace EvennessWeights

/-- The usual weights: distance between members counts for them, distance to
    the node against them. -/
def usual : EvennessWeights Binary64 := ⟨-1, 1, 1, 1⟩

/-- The objective of `n` peers, from the sum of the distances of all pairs and
    the sum of the distances to the node. -/
@[specialize] def objective {R : Type} [Scalar R] (w : EvennessWeights R) (pairSum selfSum : R)
    (n : Nat) : R :=
  let pairs := n * (n - 1) / 2
  let meanPair := if pairs = 0 then Scalar.zero else pairSum / Scalar.ofNat pairs
  let meanSelf := if n = 0 then Scalar.zero else selfSum / Scalar.ofNat n
  w.w1 * Scalar.pow meanPair w.k1 + w.w2 * Scalar.pow meanSelf w.k2

/-- A weight has to be finite. -/
def checkWeight (field : Tunable) (x : Binary64) : Except ConfigError Unit :=
  if x.isFinite then .ok () else .error (.invalidTunable field x .notFinite)

/-- An exponent has to be positive and finite. -/
def checkExponent (field : Tunable) (x : Binary64) : Except ConfigError Unit :=
  if x.isFinite && (0 : Binary64).lt x then .ok ()
  else .error (.invalidTunable field x .notExponent)

/-- The conditions on the weights. -/
def validate (w : EvennessWeights Binary64) : Except ConfigError Unit := do
  checkWeight .evennessW1 w.w1
  checkWeight .evennessW2 w.w2
  checkExponent .evennessK1 w.k1
  checkExponent .evennessK2 w.k2

end EvennessWeights

/-! ## Masks -/

/-- Tunables of the secure policy. -/
structure SecureTunables where
  /-- Admissions between two masks. -/
  maskInterval : Nat
  /-- The seed of the masks, if it is fixed. -/
  seed : Option UInt64
deriving DecidableEq

def SecureTunables.usual : SecureTunables := ⟨16, none⟩

end CubeRouting
