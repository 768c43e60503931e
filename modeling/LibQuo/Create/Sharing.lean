import LibQuo.Create.NoStranding
import LibQuo.Lib.Completion
import LibQuo.Xml.RoundTrip

/-!
The topology on its way through the segment: what process 0 exports is what every other
process of the node gives to its own hwloc, and what it imports from there.
-/

namespace LibQuo.Create.Call
open CMem Sm Spmd

variable {n : Nat} [NeZero n] {call : Call n}
variable {s : Group n Act Coll Local Files Msg (Halt Int)} {p : Fin n}

end LibQuo.Create.Call
