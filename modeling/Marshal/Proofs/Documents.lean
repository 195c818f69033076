import Marshal.Proofs.Printing
import Marshal.Schema.Document

/-!
# Schemas read back from their documents

A schema is read back from its printed document, if that nests no deeper than
allowed, and is refused otherwise (`Schema.ofText?_toJson`). Only types nest
without bound. What a reader is left of the levels is all that it needs to know
of what stands around it, so that there is one statement for each kind of
declaration, by the depth of its document.
-/

namespace Marshal

namespace Json

mutual

/-- How deep the arrays and objects of a document nest. -/
def depth : Json → Nat
  | .array items => elementDepth items + 1
  | .object members => memberDepth members + 1
  | _ => 0

/-- How deep the elements of an array nest. -/
def elementDepth : List Json → Nat
  | [] => 0
  | v :: vs => max v.depth (elementDepth vs)

/-- How deep the members of an object nest. -/
def memberDepth : List (String × Json) → Nat
  | [] => 0
  | (_, v) :: ms => max v.depth (memberDepth ms)

end

/-- The depth of elements is bounded if that of each element is. -/
theorem elementDepth_le {items : List Json} {n : Nat} :
    elementDepth items ≤ n ↔ ∀ v ∈ items, v.depth ≤ n := by
  induction items with
  | nil => simp [elementDepth]
  | cons v vs ih => rw [elementDepth, Nat.max_le, ih, List.forall_mem_cons]

theorem elementDepth_map_le {α : Type} {l : List α} {write : α → Json} {n : Nat} :
    elementDepth (l.map write) ≤ n ↔ ∀ a ∈ l, (write a).depth ≤ n := by
  simp [elementDepth_le]

/-- Integers are read from the numbers that they are written as. -/
theorem int?_int (i : Int) : (Json.int i).int? = some i := by
  cases i <;> rfl

/-- An integer is written as a number without a fraction. -/
theorem integral_int (i : Int) : (Json.int i).Integral := by
  cases i <;> exact .integer _ _

/-- An array of documents with integral numbers has integral numbers. -/
theorem Integral.arrayOf {α : Type} {l : List α} {write : α → Json}
    (h : ∀ a ∈ l, (write a).Integral) : (Json.array (l.map write)).Integral :=
  .array (by simpa using h)

end Json

namespace Document

/-- Only one member has its name, if all names differ. -/
theorem filter_name_eq {members : List (String × Json)} (h : (members.map Prod.fst).Nodup)
    {m : String × Json} (hm : m ∈ members) : members.filter (·.1 = m.1) = [m] := by
  induction members with
  | nil => simp at hm
  | cons n ms ih =>
    obtain ⟨hn, hms⟩ := List.nodup_cons.1 h
    -- It is the first member, and no later one has its name, or it is a later one, and the first
    -- one has another name.
    obtain rfl | hm := List.mem_cons.1 hm
    · have hnone : ms.filter (·.1 = m.1) = [] := by
        refine List.filter_eq_nil_iff.2 fun m' hm' heq => hn ?_
        rw [← of_decide_eq_true heq]
        exact List.mem_map_of_mem hm'
      simp [hnone]
    · have hne : n.1 ≠ m.1 := fun heq => hn (heq ▸ List.mem_map_of_mem hm)
      simp [hne, ih hms hm]

/-- An object with different names gives its members as fields. -/
theorem fieldsOf_object {members : List (String × Json)} (h : (members.map Prod.fst).Nodup) :
    fieldsOf (members.map Prod.fst) (.object members) = some (members.map fun m => some m.2) := by
  -- The members are looked up one by one, in the object that they all come from.
  have hread : ∀ ms, ms ⊆ members →
      membersOf (ms.map Prod.fst) members = some (ms.map fun m => some m.2) := by
    intro ms hms
    induction ms with
    | nil => rfl
    | cons m ms ih =>
      rw [List.cons_subset] at hms
      have hrest := ih hms.2
      simp only [membersOf, List.map_cons, List.mapM_cons, filter_name_eq h hms.1] at hrest ⊢
      rw [hrest]
      rfl
  exact hread members fun _ hm => hm

/-- What is read back if a condition holds is so in lists. -/
theorem listOf_map {α : Type} {read : Json → Option α} {write : α → Json} {p : α → Prop}
    [DecidablePred p] (h : ∀ a, read (write a) = if p a then some a else none) (l : List α) :
    listOf read (.array (l.map write)) = if ∀ a ∈ l, p a then some l else none := by
  have hmapM : (l.map write).mapM read = if ∀ a ∈ l, p a then some l else none := by
    induction l with
    | nil => simp
    | cons a l ih =>
      rw [List.map_cons, List.mapM_cons, ih, h]
      simp only [List.forall_mem_cons]
      by_cases ha : p a
      · simp only [ha, true_and, if_true]
        split <;> rfl
      · simp [ha]
  exact hmapM

/-- What is always read back is so in lists. -/
theorem listOf_map_eq {α : Type} {read : Json → Option α} {write : α → Json}
    (h : ∀ a, read (write a) = some a) (l : List α) :
    listOf read (.array (l.map write)) = some l := by
  simpa using listOf_map (p := fun _ => True) (by simpa using h) l

/-- An integer within range is read as a word. -/
theorem uint32?_of_int? {j : Json} {i : Int} (h : j.int? = some i)
    (hi : 0 ≤ i ∧ i < UInt32.size) : uint32? j = some (UInt32.ofNat i.toNat) := by
  rw [uint32?, h]
  exact if_pos hi

theorem uint32?_nat (n : UInt32) : uint32? (.nat n.toNat) = some n := by
  have hint : (Json.nat n.toNat).int? = some (n.toNat : Int) := rfl
  have hrange : (0 : Int) ≤ n.toNat ∧ (n.toNat : Int) < UInt32.size :=
    ⟨Int.natCast_nonneg _, Int.ofNat_lt.2 n.toNat_lt_size⟩
  rw [uint32?_of_int? hint hrange, Int.toNat_natCast, UInt32.ofNat_toNat]

theorem int32?_int (n : Int32) : int32? (.int n.toInt) = some n := by
  have hrange : Int32.minValue.toInt ≤ n.toInt ∧ n.toInt ≤ Int32.maxValue.toInt :=
    ⟨n.minValue_le_toInt, n.toInt_le⟩
  simp only [int32?, Json.int?_int, Option.bind_eq_bind, Option.bind_some, if_pos hrange,
    Int32.ofInt_toInt]

/-- A package is read from what it is written as, which may be null. -/
theorem package?_orNull (package : Option String) :
    package? (orNull .string package) = some package := by
  cases package <;> rfl

end Document

open Document

/-- Scalars are told by their names. -/
theorem Wire.Scalar.ofName?_name (s : Wire.Scalar) : ofName? s.name = some s := by
  cases s <;> decide

/-! ## Types -/

namespace FieldType

/-- Nothing is read when no level is left. -/
theorem ofJson?_zero (j : Json) : ofJson? 0 j = none := by
  rw [ofJson?.eq_def]

/-- A type is read back if its document nests at most as deep as allowed. -/
theorem ofJson?_toJson (t : FieldType) (levels : Nat) :
    ofJson? levels t.toJson = if t.toJson.depth ≤ levels then some t else none := by
  induction t generalizing levels with
  | scalar s =>
    cases levels with
    | zero => exact ofJson?_zero _
    | succ levels =>
      rw [toJson, ofJson?.eq_def]
      simp [Json.depth, Json.memberDepth, Wire.Scalar.ofJson?, Wire.Scalar.ofName?_name]
  | named name =>
    cases levels with
    | zero => exact ofJson?_zero _
    | succ levels =>
      rw [toJson, ofJson?.eq_def]
      simp [Json.depth, Json.memberDepth, Json.text?]
  | optional inner ih =>
    cases levels with
    | zero => exact ofJson?_zero _
    | succ levels =>
      rw [toJson, ofJson?.eq_def]
      simp [Json.depth, Json.memberDepth, ih]
  | repeated inner ih =>
    cases levels with
    | zero => exact ofJson?_zero _
    | succ levels =>
      rw [toJson, ofJson?.eq_def]
      simp [Json.depth, Json.memberDepth, ih]
  | map key value ihk ihv =>
    -- a map takes two levels: one for its tag and one for its key and value
    match levels with
    | 0 => exact ofJson?_zero _
    | 1 =>
      rw [toJson, ofJson?.eq_def]
      simp [Json.depth, Json.memberDepth]
    | levels + 2 =>
      have hbody : fieldsOf ["key", "value"]
          (.object [("key", key.toJson), ("value", value.toJson)])
          = some [some key.toJson, some value.toJson] := fieldsOf_object (by simp)
      have hdepth : (FieldType.map key value).toJson.depth ≤ levels + 2
          ↔ key.toJson.depth ≤ levels ∧ value.toJson.depth ≤ levels := by
        simp only [toJson, Json.depth, Json.memberDepth]
        omega
      simp only [hdepth]
      rw [toJson, ofJson?.eq_def]
      simp only [hbody, ihk, ihv]
      by_cases hkey : key.toJson.depth ≤ levels <;>
        by_cases hvalue : value.toJson.depth ≤ levels <;> simp [hkey, hvalue]

end FieldType

/-! ## Declarations -/

/-- A field with all its members is read as far as its type is. -/
theorem Field.ofJson?_eq {j number : Json} {name : String} {n : UInt32} {type : Json}
    {deprecated : Bool} (levels : Nat)
    (h : fieldsOf ["name", "number", "type", "deprecated"] j
      = some [some (.string name), some number, some type, some (.bool deprecated)])
    (hnumber : uint32? number = some n) :
    Field.ofJson? levels j
      = (FieldType.ofJson? levels type).map fun t => ⟨name, n, t, deprecated⟩ := by
  rw [Field.ofJson?, h]
  simp only [Option.bind_eq_bind, Option.bind_some, Json.text?, hnumber]
  cases FieldType.ofJson? levels type <;> rfl

/-- A field is read from what it is written as, if that is not too deep. -/
theorem Field.ofJson?_toJson (f : Field) (levels : Nat) :
    Field.ofJson? levels f.toJson = if f.toJson.depth ≤ levels + 1 then some f else none := by
  have hfields : fieldsOf ["name", "number", "type", "deprecated"] f.toJson
      = some [some (.string f.name), some (.nat f.number.toNat), some f.type.toJson,
        some (.bool f.deprecated)] := fieldsOf_object (by simp)
  rw [Field.ofJson?_eq levels hfields (uint32?_nat f.number), FieldType.ofJson?_toJson]
  have hdepth : f.toJson.depth = f.type.toJson.depth + 1 := by
    simp [Field.toJson, Json.depth, Json.memberDepth, Json.nat]
  simp [hdepth]

/-- A message is read from what it is written as, if none of its fields is too deep. -/
theorem Message.ofJson?_toJson (m : Message) (levels : Nat) :
    Message.ofJson? levels m.toJson = if m.toJson.depth ≤ levels + 3 then some m else none := by
  have hfields : fieldsOf ["name", "fields"] m.toJson
      = some [some (.string m.name), some (.array (m.fields.map Field.toJson))] :=
    fieldsOf_object (by simp)
  have hdepth : m.toJson.depth ≤ levels + 3 ↔ ∀ f ∈ m.fields, f.toJson.depth ≤ levels + 1 := by
    simp [Message.toJson, Json.depth, Json.memberDepth, Json.elementDepth_map_le]
  rw [Message.ofJson?, hfields]
  simp only [Option.bind_eq_bind, Option.bind_some, Json.text?, orElse,
    listOf_map (fun f => Field.ofJson?_toJson f levels), hdepth]
  split <;> rfl

/-- A symbol is read from what it is written as. -/
theorem EnumSymbol.ofJson?_toJson (v : EnumSymbol) : EnumSymbol.ofJson? v.toJson = some v := by
  have hfields : fieldsOf ["name", "value"] v.toJson
      = some [some (.string v.name), some (.int v.value.toInt)] := fieldsOf_object (by simp)
  rw [EnumSymbol.ofJson?, hfields]
  simp [Json.text?, int32?_int]

/-- An enum is read from what it is written as, which is never too deep. -/
theorem Enum.ofJson?_toJson (e : Enum) : Enum.ofJson? e.toJson = some e := by
  have hfields : fieldsOf ["name", "values"] e.toJson
      = some [some (.string e.name), some (.array (e.values.map EnumSymbol.toJson))] :=
    fieldsOf_object (by simp)
  rw [Enum.ofJson?, hfields]
  simp [Json.text?, listOf_map_eq EnumSymbol.ofJson?_toJson]

/-- A method is read from what it is written as. -/
theorem Method.ofJson?_toJson (m : Method) : Method.ofJson? m.toJson = some m := by
  have hfields : fieldsOf ["name", "input", "output"] m.toJson
      = some [some (.string m.name), some (.string m.input), some (.string m.output)] :=
    fieldsOf_object (by simp)
  rw [Method.ofJson?, hfields]
  simp [Json.text?]

/-- A service is read from what it is written as, which is never too deep. -/
theorem Service.ofJson?_toJson (s : Service) : Service.ofJson? s.toJson = some s := by
  have hfields : fieldsOf ["name", "methods"] s.toJson
      = some [some (.string s.name), some (.array (s.methods.map Method.toJson))] :=
    fieldsOf_object (by simp)
  rw [Service.ofJson?, hfields]
  simp [Json.text?, orElse, listOf_map_eq Method.ofJson?_toJson]

/-! ## Schemas -/

theorem Enum.depth_toJson_le (e : Enum) : e.toJson.depth ≤ 3 := by
  have hvalue (v : EnumSymbol) : v.toJson.depth = 1 := by
    cases h : v.value.toInt <;> simp [EnumSymbol.toJson, Json.depth, Json.memberDepth, Json.int, h]
  have hvalues : Json.elementDepth (e.values.map EnumSymbol.toJson) ≤ 1 :=
    Json.elementDepth_map_le.2 fun v _ => Nat.le_of_eq (hvalue v)
  simp only [Enum.toJson, Json.depth, Json.memberDepth]
  omega

theorem Service.depth_toJson_le (s : Service) : s.toJson.depth ≤ 3 := by
  have hmethod (m : Method) : m.toJson.depth = 1 := by
    simp [Method.toJson, Json.depth, Json.memberDepth]
  have hmethods : Json.elementDepth (s.methods.map Method.toJson) ≤ 1 :=
    Json.elementDepth_map_le.2 fun m _ => Nat.le_of_eq (hmethod m)
  simp only [Service.toJson, Json.depth, Json.memberDepth]
  omega

/-- There are no numbers in a type. -/
theorem FieldType.integral_toJson (t : FieldType) : t.toJson.Integral := by
  induction t with
  | scalar s => exact .object (by simpa using .string _)
  | named name => exact .object (by simpa using .string _)
  | optional inner ih => exact .object (by simpa using ih)
  | repeated inner ih => exact .object (by simpa using ih)
  | map key value ihk ihv =>
    exact .object (by simpa using .object (by simpa using ⟨ihk, ihv⟩))

theorem Field.integral_toJson (f : Field) : f.toJson.Integral :=
  .object (by simpa using ⟨.string _, .integer _ _, f.type.integral_toJson, .bool _⟩)

theorem Message.integral_toJson (m : Message) : m.toJson.Integral :=
  .object (by simpa using ⟨.string _, .arrayOf fun f _ => f.integral_toJson⟩)

theorem Enum.integral_toJson (e : Enum) : e.toJson.Integral := by
  have hvalue (v : EnumSymbol) : v.toJson.Integral :=
    .object (by simpa using ⟨.string _, Json.integral_int _⟩)
  exact .object (by simpa using ⟨.string _, .arrayOf fun v _ => hvalue v⟩)

theorem Service.integral_toJson (s : Service) : s.toJson.Integral := by
  have hmethod (m : Method) : m.toJson.Integral :=
    .object (by simpa using ⟨.string _, .string _, .string _⟩)
  exact .object (by simpa using ⟨.string _, .arrayOf fun m _ => hmethod m⟩)

namespace Schema

/-- All numbers in the document of a schema are integral. -/
theorem integral_toJson (s : Schema) : s.toJson.Integral := by
  have hpackage : (orNull Json.string s.package).Integral := by
    cases s.package with
    | none => exact .null
    | some package => exact .string package
  exact .object (by simpa using ⟨.string _, hpackage, .arrayOf fun _ _ => .string _,
    .arrayOf fun e _ => e.integral_toJson, .arrayOf fun m _ => m.integral_toJson,
    .arrayOf fun e _ => e.integral_toJson⟩)

/-- Only messages can make a document nest too deep. -/
theorem depth_toJson_le {s : Schema} {levels : Nat} :
    s.toJson.depth ≤ levels + 5 ↔ ∀ m ∈ s.messages, m.toJson.depth ≤ levels + 3 := by
  -- All but the messages is of a bounded depth.
  have hpackage : (orNull Json.string s.package).depth = 0 := by
    cases s.package <;> rfl
  have henums : ∀ e ∈ s.enums, e.toJson.depth ≤ levels + 3 :=
    fun e _ => Nat.le_trans e.depth_toJson_le (by omega)
  have hservices : ∀ e ∈ s.services, e.toJson.depth ≤ levels + 3 :=
    fun e _ => Nat.le_trans e.depth_toJson_le (by omega)
  have himports : ∀ name ∈ s.imports, (Json.string name).depth ≤ levels + 3 :=
    fun _ _ => Nat.zero_le _
  simp only [← Json.elementDepth_map_le] at henums hservices himports ⊢
  simp only [Schema.toJson, Json.depth, Json.memberDepth, hpackage]
  omega

/-- A schema is read from its document if that is no deeper than the limit. -/
theorem ofJson?_toJson (s : Schema) :
    Schema.ofJson? s.toJson = if s.toJson.depth ≤ nestingLimit then some s else none := by
  -- Each member is found under its name, and read by itself.
  have hfields : fieldsOf ["name", "package", "imports", "enums", "messages", "services"] s.toJson
      = some [some (.string s.name), some (orNull .string s.package),
        some (.array (s.imports.map .string)), some (.array (s.enums.map Enum.toJson)),
        some (.array (s.messages.map Message.toJson)),
        some (.array (s.services.map Service.toJson))] :=
    fieldsOf_object (by simp)
  have himports : listOf Json.text? (.array (s.imports.map .string)) = some s.imports :=
    listOf_map_eq (fun (_ : String) => rfl) s.imports
  have hdepth : s.toJson.depth ≤ nestingLimit
      ↔ ∀ m ∈ s.messages, m.toJson.depth ≤ (nestingLimit - 5) + 3 := depth_toJson_le
  rw [Schema.ofJson?, hfields]
  simp only [Option.bind_eq_bind, Option.bind_some, Json.text?, orElse, package?_orNull, himports,
    listOf_map_eq Enum.ofJson?_toJson,
    listOf_map_eq Service.ofJson?_toJson,
    listOf_map (fun m => Message.ofJson?_toJson m (nestingLimit - 5)), hdepth]
  split <;> rfl

/-- It makes no difference by which text a document is given. -/
theorem ofText?_of_parse? {s : Schema} {text : String} (h : Json.parse? text = some s.toJson) :
    Schema.ofText? text = if s.toJson.depth ≤ nestingLimit then some s else none := by
  rw [Schema.ofText?, h]
  exact s.ofJson?_toJson

/-- A printed schema is read as itself, unless its document nests too deep: then it is refused. -/
theorem ofText?_toJson (s : Schema) :
    Schema.ofText? s.toJson.compact
        = (if s.toJson.depth ≤ nestingLimit then some s else none) ∧
      Schema.ofText? s.toJson.pretty
        = (if s.toJson.depth ≤ nestingLimit then some s else none) :=
  ⟨ofText?_of_parse? (Json.parse?_compact s.integral_toJson),
    ofText?_of_parse? (Json.parse?_pretty s.integral_toJson)⟩

end Schema

end Marshal
