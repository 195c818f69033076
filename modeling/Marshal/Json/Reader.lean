import Marshal.Json.Token

/-!
# Reading JSON

The tokens of a document are read one after the other by a machine that keeps
the arrays and objects begun and not yet ended, the innermost first. So depth
is no limit to what can be read: how deep a document may nest is for those to
decide who make something of it.

* `Json.ofTokens?` is the document that tokens spell;
* `Json.parse?` is the document that a text spells, with blanks around it.
-/

namespace Marshal.Json

/-- An array or object that has begun, with what it holds so far, the latest first. -/
inductive Begun
  | array (items : List Json)
  /-- An object whose last name still waits for its value. -/
  | object (members : List (Option String × Json)) (name : Option String)

/-- What has to come next. -/
inductive Awaiting
  /-- A value. -/
  | value
  /-- The first element of an array, or its end. -/
  | element
  /-- A name in an object with these members, or its end if there are none yet. -/
  | name (members : List (Option String × Json))
  /-- The colon after a name. -/
  | colon (members : List (Option String × Json)) (name : Option String)
  /-- What follows a value: a comma, the end of what it stands in, or nothing at all. -/
  | follow (value : Json)

/-- The state between two tokens. -/
structure Reading where
  awaiting : Awaiting
  /-- What has begun, the innermost first. -/
  begun : List Begun

namespace Reading

/-- Nothing has been read yet. -/
def start : Reading := ⟨.value, []⟩

/-- A token where a value has to come. -/
def value (begun : List Begun) : Token → Option Reading
  | .null => some ⟨.follow .null, begun⟩
  | .bool b => some ⟨.follow (.bool b), begun⟩
  | .number n => some ⟨.follow (.number n), begun⟩
  | .string (some text) => some ⟨.follow (.string text), begun⟩
  | .string none => some ⟨.follow .unpaired, begun⟩
  | .openBracket => some ⟨.element, .array [] :: begun⟩
  | .openBrace => some ⟨.name [], begun⟩
  | _ => none

/-- One more token. -/
def step (r : Reading) (t : Token) : Option Reading :=
  match r.awaiting, r.begun, t with
  | .value, begun, t => value begun t
  | .element, .array [] :: begun, .closeBracket => some ⟨.follow (.array []), begun⟩
  | .element, begun, t => value begun t
  | .name [], begun, .closeBrace => some ⟨.follow (.object []), begun⟩
  | .name members, begun, .string name => some ⟨.colon members name, begun⟩
  | .colon members name, begun, .colon => some ⟨.value, .object members name :: begun⟩
  | .follow v, .array items :: begun, .comma => some ⟨.value, .array (v :: items) :: begun⟩
  | .follow v, .array items :: begun, .closeBracket =>
    some ⟨.follow (.array (v :: items).reverse), begun⟩
  | .follow v, .object members name :: begun, .comma =>
    some ⟨.name ((name, v) :: members), begun⟩
  | .follow v, .object members name :: begun, .closeBrace =>
    some ⟨.follow (ofMembers ((name, v) :: members).reverse), begun⟩
  | _, _, _ => none

/-- The document, if it has been read to its end. -/
def result : Reading → Option Json
  | ⟨.follow v, []⟩ => some v
  | _ => none

end Reading

/-- The document that tokens spell. -/
def ofTokens? (tokens : List Token) : Option Json := do
  let r ← tokens.foldlM Reading.step Reading.start
  r.result

/-- The document that a text spells. -/
def parse? (text : String) : Option Json := do
  let tokens ← lex text.toList
  ofTokens? tokens

end Marshal.Json
