import Marshal.Code.Run
import Marshal.Sample.Compiled

/-!
# Running the code of the sample schemas

The code that is generated for the sample schemas, run on bytes: they are read
as a message and written again.
-/

namespace Marshal.Sample

open Wire Code

/-- The code of the schema `geo`. -/
def geoProgram : Except EmitError Program := program compiledGeo

/-- The code of the schema `shapes`. -/
def shapesProgram : Except EmitError Program := program compiledShapes

/-- Reads bytes as a message of a program, and writes them again. There are no
    bytes where code is stuck, or where there is none. -/
def normalizeWith (prog : Except EmitError Program) (message : String) (bytes : Bytes) :
    Except Wire.Error Bytes :=
  match prog with
  | .error _ => .ok []
  | .ok prog =>
    match decodeRecord prog (typeIdent message) bytes with
    | .ok d => .ok ((encodeRecord d).getD [])
    | .error (.wire e) => .error e
    | .error .stuck => .ok []

/-- Reads bytes as a message of a name, with its package in front, and writes them
    again. -/
def normalize? : String → Option (Bytes → Except Wire.Error Bytes)
  | "geo.Point" => some (normalizeWith geoProgram "Point")
  | "shapes.Shape" => some (normalizeWith shapesProgram "Shape")
  | "shapes.Result" => some (normalizeWith shapesProgram "Result")
  | "shapes.Option" => some (normalizeWith shapesProgram "Option")
  | "shapes.String" => some (normalizeWith shapesProgram "String")
  | "shapes.Vec" => some (normalizeWith shapesProgram "Vec")
  | "shapes.Box" => some (normalizeWith shapesProgram "Box")
  | "shapes.Default" => some (normalizeWith shapesProgram "Default")
  | "shapes.Empty" => some (normalizeWith shapesProgram "Empty")
  | _ => none

end Marshal.Sample
