import ApiFirewall.Engine.NumericAnomaly
import ApiFirewall.Engine.ExactAnomaly
import ApiFirewall.Wire.DoubleOrder

/-!
# The worst deviation of a signal

Where the ranges of a signal can be unpacked, the loop over its numeric fields accumulates the maximum
of their deviations, which may be infinite or no numbers, and the anomaly is that maximum clipped at
ten.
-/

namespace ApiFirewall.Engine

open ApiFirewall.Wire

variable {K : Type} [Field K] [LinearOrder K]

end ApiFirewall.Engine
