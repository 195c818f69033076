/-!
# JSON documents

A document as it is written: members of an object keep their order and may
repeat a name, and a number keeps the form in which it is spelt.

A string can spell a surrogate without its partner and then denotes no text. A
document may hold such a string where nobody reads it, so it is a document of
its own (`Json.unpaired`), and so is an object with such a string as a name.
-/

namespace Marshal

/-- A number, by its spelling. -/
inductive Json.Number
  /-- Digits only, with or without a minus sign: `-0` is not `0`. -/
  | integer (negative : Bool) (magnitude : Nat)
  /-- With a fraction or an exponent, as spelt. -/
  | decimal (spelling : String)
  deriving DecidableEq

/-- A JSON document. -/
inductive Json
  | null
  | bool (b : Bool)
  | number (n : Json.Number)
  | string (text : String)
  | array (items : List Json)
  | object (members : List (String × Json))
  /-- A string that denotes no text, or an object with such a name. -/
  | unpaired

namespace Json

/-- A natural number. -/
def nat (n : Nat) : Json := .number (.integer false n)

/-- An integer. -/
def int : Int → Json
  | .ofNat n => .number (.integer false n)
  | .negSucc n => .number (.integer true (n + 1))

/-- The text of a string. -/
def text? : Json → Option String
  | .string s => some s
  | _ => none

/-- The truth value. -/
def bool? : Json → Option Bool
  | .bool b => some b
  | _ => none

/-- The integer, if the number is spelt as one; `-0` is not. -/
def int? : Json → Option Int
  | .number (.integer false n) => some n
  | .number (.integer true (n + 1)) => some (.negSucc n)
  | _ => none

/-- The elements of an array. -/
def items? : Json → Option (List Json)
  | .array items => some items
  | _ => none

/-- The object with these members, if all their names are texts. -/
def ofMembers (members : List (Option String × Json)) : Json :=
  match members.mapM (fun (name, value) => name.map (·, value)) with
  | some members => .object members
  | none => .unpaired

end Json

end Marshal
