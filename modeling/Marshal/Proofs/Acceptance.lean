import Marshal.Proofs.Cycles
import Marshal.Proofs.Default

/-!
# Which schemas compile

A schema is *valid* if it is verified, none of its field types has a container in a
container, every name in them refers to a declaration, keys of maps are enums or scalars
that can be keys, methods go from message to message, and no message holds itself by value
(`Schema.Valid`). These are exactly the schemas that compile (`compile_accepts_valid`).

One that does not compile is rejected for a fault that it has, and that the error names
(`Schema.Faulty`): `faulty_of_compile` goes through the stages of compilation, and
`Schema.Faulty.not_valid` shows that valid schemas have no such faults.
-/

namespace Marshal

/-! ## Valid schemas -/

namespace FieldType

/-- The types that a container is made of. -/
def parameters : FieldType → List FieldType
  | .optional inner | .repeated inner => [inner]
  | .map key value => [key, value]
  | _ => []

end FieldType

/-- A type that keys of a map may have: an enum, or a scalar that is neither a text, nor
    a byte string, nor a float. -/
inductive Scope.IsKey (c : Scope) : FieldType → Prop
  | scalar {s : Wire.Scalar} : s ∉ [.string, .bytes, .float, .double] → c.IsKey (.scalar s)
  | enum {name : String} {id : EnumId} :
    c.resolve? name = .ok (some (.enum id)) → c.IsKey (.named name)

namespace Schema

/-- What the names in a schema refer to, given the schemas published. -/
def scope (s : Schema) (t : ImportTable) : Scope := ⟨s, s.imports.filterMap t.get?⟩

/-- The message at one position has a field, neither optional nor repeated nor a map, whose
    type is the message at the other one. -/
def HoldsBy (s : Schema) (t : ImportTable) (i : Nat) (field : String) (j : Nat) : Prop :=
  ∃ m ∈ s.messages[i]?, ∃ f ∈ m.fields, f.name = field ∧
    ∃ name, f.type = .named name ∧ (s.scope t).resolve? name = .ok (some (.message ⟨.own, j⟩))

/-- The message at one position holds the one at the other by value. -/
def Holds (s : Schema) (t : ImportTable) (i j : Nat) : Prop := ∃ field, s.HoldsBy t i field j

/-- A schema that can be compiled. -/
structure Valid (s : Schema) (t : ImportTable) : Prop where
  verified : s.verify t = .ok ()
  /-- No container holds another one. -/
  flat : ∀ m ∈ s.messages, ∀ f ∈ m.fields, ∀ type ∈ f.type.parameters, type.isContainer = false
  names : ∀ m ∈ s.messages, ∀ f ∈ m.fields, ∀ name ∈ f.type.names,
    ∃ e, (s.scope t).resolve? name = .ok (some e)
  keys : ∀ m ∈ s.messages, ∀ f ∈ m.fields, ∀ key value, f.type = .map key value →
    (s.scope t).IsKey key
  methods : ∀ service ∈ s.services, ∀ method ∈ service.methods,
    ∀ name ∈ [method.input, method.output],
      ∃ id, (s.scope t).resolve? name = .ok (some (.message id))
  /-- No message holds itself by value, directly or through others. -/
  acyclic : ∀ i, ¬Relation.TransGen (s.Holds t) i i

end Schema

/-! ## Faults -/

namespace Scope

/-- The name does not refer to a declaration, and the error says so. -/
inductive NameFault (c : Scope) (owner member name : String) : CompileError → Prop
  | unresolved : c.resolve? name = .ok none →
    NameFault c owner member name (.unresolvedType owner member name)
  | ambiguous {a : Ambiguity} : c.resolve? name = .error a →
    NameFault c owner member name
      (.inconsistent (.field owner member) (.ambiguous a.name a.imports))

/-- There is something wrong with the type of a field, and the error says what. -/
inductive FieldFault (c : Scope) (message field : String) (type : FieldType) : CompileError → Prop
  | name {name : String} {e : CompileError} : name ∈ type.names →
    c.NameFault message field name e → FieldFault c message field type e
  | container {inner : FieldType} : inner ∈ type.parameters → inner.isContainer = true →
    FieldFault c message field type
      (.inconsistent (.field message field) (.nestedContainer inner))
  | key {key value : FieldType} : type = .map key value → ¬c.IsKey key →
    FieldFault c message field type (.mapKey message field key)

/-- There is something wrong with what a method takes or gives, and the error says what. -/
inductive MethodFault (c : Scope) (service : String) (method : Method) : CompileError → Prop
  | name {name : String} {e : CompileError} : name ∈ [method.input, method.output] →
    c.NameFault service method.name name e → MethodFault c service method e
  | notMessage {name : String} {e : ElementType} : name ∈ [method.input, method.output] →
    c.resolve? name = .ok (some e) → (∀ id, e ≠ .message id) →
    MethodFault c service method
      (.inconsistent (.method service method.name) (.notMessage name))

end Scope

namespace Schema

/-- The name of the message at a position. -/
def messageName (s : Schema) (i : Nat) : String := ((s.messages[i]?).map (·.name)).getD ""

/-- There is something wrong with a schema, and the error says what. -/
inductive Faulty (s : Schema) (t : ImportTable) : CompileError → Prop
  | unpublished {name : String} : name ∈ s.imports → t.get? name = none →
    Faulty s t (.unresolvedImport s.name name)
  | inconsistent {place : Place} {fault : Fault} :
    s.verify t = .error (.inconsistent place fault) → Faulty s t (.inconsistent place fault)
  | field {m : Message} {f : Field} {e : CompileError} : m ∈ s.messages → f ∈ m.fields →
    (s.scope t).FieldFault m.name f.name f.type e → Faulty s t e
  | method {service : Service} {method : Method} {e : CompileError} : service ∈ s.services →
    method ∈ service.methods → (s.scope t).MethodFault service.name method e → Faulty s t e
  /-- The message at position `i` holds the next one of the path by the field, and so on
      around to itself. -/
  | recursion {i : Nat} {field : String} {path : List (Nat × String)} :
    Graph.Walk (s.HoldsBy t) i ((i, field) :: path) i →
    Faulty s t (.valueRecursion (s.messageName i) field
      (s.messageName i :: path.map (s.messageName ·.1) ++ [s.messageName i]))

end Schema

/-! ## Verification -/

/-- A check of a list that fails is that of some element. -/
theorem exists_of_checkEach_error {ε α : Type} {check : List α → α → Except ε Unit}
    {earlier l : List α} {e : ε} (h : checkEach check earlier l = .error e) :
    ∃ a ∈ l, ∃ earlier, check earlier a = .error e := by
  induction l generalizing earlier with
  | nil => cases h
  | cons a l ih =>
    rw [checkEach] at h
    split at h
    · rename_i he
      cases h
      exact ⟨a, List.mem_cons_self, earlier, he⟩
    · obtain ⟨a', ha', he⟩ := ih h
      exact ⟨a', List.mem_cons_of_mem _ ha', he⟩

/-- The place is a member of a declaration. -/
def Place.isMember : Place → Bool
  | .field _ _ | .method _ _ => true
  | _ => false

section Verification

variable {s : Schema} {t : ImportTable} {e : CompileError}

/-- A name is refused at its place. -/
theorem inconsistent_of_checkName {place : Place} {role : Role} {earlier : List String}
    {name : String} (h : checkName place role earlier name = .error e) :
    ∃ fault, e = .inconsistent place fault := by
  rw [checkName] at h
  split at h
  · cases h
    exact ⟨_, rfl⟩
  · split at h
    · cases h
      exact ⟨_, rfl⟩
    · cases h

/-- An enum is refused under its name. -/
theorem Enum.inconsistent_of_check {enum : Enum} (h : enum.check = .error e) :
    ∃ fault, e = .inconsistent (.enum enum.name) fault := by
  rw [check] at h
  split at h
  · cases h
    exact ⟨_, rfl⟩
  · obtain ⟨symbol, _, earlier, h⟩ := exists_of_checkEach_error h
    rw [checkSymbol] at h
    split at h
    · rename_i hname
      cases h
      exact inconsistent_of_checkName hname
    · split at h
      · cases h
        exact ⟨_, rfl⟩
      · cases h

/-- A type is refused at the place of its field. -/
theorem FieldType.inconsistent_of_checkReferences {place : Place} {type : FieldType}
    (h : type.checkReferences place = .error e) : ∃ fault, e = .inconsistent place fault := by
  induction type with
  | scalar => cases h
  | named name =>
    rw [checkReferences] at h
    split at h
    · cases h
    · cases h
      exact ⟨_, rfl⟩
  | optional inner ih | repeated inner ih => exact ih h
  | map key value ihkey ihvalue =>
    rw [checkReferences] at h
    split at h
    · rename_i hkey
      cases h
      exact ihkey hkey
    · exact ihvalue h

/-- A message is refused under its name. -/
theorem Message.inconsistent_of_check {m : Message} (h : m.check = .error e) :
    ∃ fault, e = .inconsistent (.message m.name) fault := by
  -- The name is checked first, then the number, those of other fields, and the names in the type.
  obtain ⟨f, _, earlier, h⟩ := exists_of_checkEach_error h
  rw [checkField] at h
  split at h
  · rename_i hname
    cases h
    exact inconsistent_of_checkName hname
  · split at h
    · cases h
      exact ⟨_, rfl⟩
    · split at h
      · cases h
        exact ⟨_, rfl⟩
      · exact FieldType.inconsistent_of_checkReferences h

/-- A service is refused at a place that is no field and no method. -/
theorem Schema.inconsistent_of_checkService {earlier : List Service} {service : Service}
    (h : s.checkService earlier service = .error e) :
    ∃ place fault, e = .inconsistent place fault ∧ place.isMember = false := by
  rw [checkService] at h
  split at h
  · rename_i hname
    cases h
    obtain ⟨fault, rfl⟩ := inconsistent_of_checkName hname
    exact ⟨_, fault, rfl, rfl⟩
  · obtain ⟨name, _, earlier, h⟩ := exists_of_checkEach_error h
    obtain ⟨fault, rfl⟩ := inconsistent_of_checkName h
    exact ⟨_, fault, rfl, rfl⟩

/-- Verification finds inconsistencies of the schema and its declarations, and imports that
    are not published. -/
theorem Schema.error_of_verify (h : s.verify t = .error e) :
    (∃ place fault, e = .inconsistent place fault ∧ place.isMember = false) ∨
      ∃ name ∈ s.imports, t.get? name = none ∧ e = .unresolvedImport s.name name := by
  -- The checks of a schema come one after the other.
  rcases bind_eq_error.1 h with h | ⟨_, _, h⟩
  · left
    rw [checkPackage] at h
    split at h
    · cases h
    · split at h
      · cases h
      · cases h
        exact ⟨_, _, rfl, rfl⟩
  rcases bind_eq_error.1 h with h | ⟨_, _, h⟩
  · obtain ⟨name, hname, earlier, h⟩ := exists_of_checkEach_error h
    rw [checkImport] at h
    split at h
    · cases h
      exact .inl ⟨_, _, rfl, rfl⟩
    · split at h
      · cases h
        exact .inl ⟨_, _, rfl, rfl⟩
      · split at h
        · cases h
        · rename_i hget
          cases h
          exact .inr ⟨name, hname, hget, rfl⟩
  left
  rcases bind_eq_error.1 h with h | ⟨_, _, h⟩
  · obtain ⟨name, _, earlier, h⟩ := exists_of_checkEach_error h
    obtain ⟨fault, rfl⟩ := inconsistent_of_checkName h
    exact ⟨_, fault, rfl, rfl⟩
  rcases bind_eq_error.1 h with h | ⟨_, _, h⟩
  · obtain ⟨enum, _, _, h⟩ := exists_of_checkEach_error h
    obtain ⟨fault, rfl⟩ := enum.inconsistent_of_check h
    exact ⟨_, fault, rfl, rfl⟩
  rcases bind_eq_error.1 h with h | ⟨_, _, h⟩
  · obtain ⟨m, _, _, h⟩ := exists_of_checkEach_error h
    obtain ⟨fault, rfl⟩ := m.inconsistent_of_check h
    exact ⟨_, fault, rfl, rfl⟩
  · obtain ⟨service, _, _, h⟩ := exists_of_checkEach_error h
    exact inconsistent_of_checkService h

theorem Schema.importsFrom_of_verify (h : s.verify t = .ok ()) :
    s.importsFrom t = .ok (s.imports.filterMap t.get?) := by
  have hall : ∀ name ∈ s.imports, (t.get? name).isSome := fun _ => isSome_of_verify h
  rw [importsFrom]
  generalize s.imports = imports at hall
  induction imports with
  | nil => rfl
  | cons name imports ih =>
    obtain ⟨hname, hall⟩ := List.forall_mem_cons.1 hall
    obtain ⟨c, hc⟩ := Option.isSome_iff_exists.1 hname
    rw [List.mapM_cons, ih hall, hc, List.filterMap_cons_some hc]
    rfl

end Verification

/-! ## Types -/

namespace Scope

variable {c : Scope} {name owner member : String} {type : FieldType} {e : ElementType}
  {err : CompileError}

/-- The type is a scalar, or a name that refers to a declaration. -/
inductive Denotes (c : Scope) : FieldType → ElementType → Prop
  | scalar {s : Wire.Scalar} : Denotes c (.scalar s) (.scalar s)
  | named {name : String} {e : ElementType} :
    c.resolve? name = .ok (some e) → Denotes c (.named name) e

/-- A name that is resolved for an owner is resolved. -/
theorem resolve?_of_resolveName (h : c.resolveName owner member name = .ok e) :
    c.resolve? name = .ok (some e) := by
  rw [resolveName] at h
  split at h
  · rename_i hfound
    cases h
    exact hfound
  · cases h
  · cases h

/-- The type of an element is what the element denotes. -/
theorem denotes_of_element (h : c.element owner member type = .ok e) : c.Denotes type e := by
  cases type with
  | scalar s =>
    cases h
    exact .scalar
  | named name => exact .named (resolve?_of_resolveName h)
  | optional | repeated | map => cases h

theorem Denotes.isContainer (h : c.Denotes type e) : type.isContainer = false := by
  cases h <;> rfl

/-- All names in what denotes something are resolved. -/
theorem Denotes.names (h : c.Denotes type e) :
    ∀ name ∈ type.names, ∃ e, c.resolve? name = .ok (some e) := by
  intro name hname
  cases h with
  | scalar => exact absurd hname List.not_mem_nil
  | named hresolve => exact ⟨e, List.mem_singleton.1 hname ▸ hresolve⟩

/-- A name that cannot be resolved is at fault. -/
theorem nameFault_of_resolveName (h : c.resolveName owner member name = .error err) :
    c.NameFault owner member name err := by
  rw [resolveName] at h
  split at h
  · cases h
  · rename_i hnone
    cases h
    exact .unresolved hnone
  · rename_i a ha
    cases h
    exact .ambiguous ha

theorem names_subset {inner : FieldType} (h : inner ∈ type.parameters) :
    inner.names ⊆ type.names := by
  cases type with
  | scalar | named => exact absurd h List.not_mem_nil
  | optional | repeated =>
    cases List.mem_singleton.1 h
    exact List.Subset.refl _
  | map key value =>
    rcases List.mem_cons.1 h with rfl | h
    · exact List.subset_append_left _ _
    · cases List.mem_singleton.1 h
      exact List.subset_append_right _ _

/-- What is wrong with a type in a container is wrong with the type of the field. -/
theorem fault_of_parameter {inner : FieldType} (hinner : inner ∈ type.parameters)
    (h : c.element owner member inner = .error err) : c.FieldFault owner member type err := by
  cases inner with
  | scalar => cases h
  | named name =>
    exact .name (names_subset hinner (List.mem_singleton_self _)) (nameFault_of_resolveName h)
  | optional | repeated | map =>
    cases h
    exact .container hinner rfl

/-! ### Keys -/

/-- What is declared is no scalar. -/
theorem isDeclared_findType? {s : CompiledSchema} {origin : Origin}
    (h : s.findType? name origin = some e) : ∀ scalar, e ≠ .scalar scalar := by
  rw [CompiledSchema.findType?] at h
  split at h
  · cases h
    rintro _ ⟨⟩
  · obtain ⟨_, _, rfl⟩ := Option.map_eq_some_iff.1 h
    rintro _ ⟨⟩

/-- What a name stands for is no scalar. -/
theorem isDeclared_resolve? (h : c.resolve? name = .ok (some e)) :
    ∀ scalar, e ≠ .scalar scalar := by
  rw [resolve?] at h
  -- One case for each tier in which the name may be found.
  split at h
  · rename_i found hfound
    cases h
    rw [findOwn?] at hfound
    split at hfound
    · cases hfound
      rintro _ ⟨⟩
    · obtain ⟨_, _, rfl⟩ := Option.map_eq_some_iff.1 hfound
      rintro _ ⟨⟩
  · split at h
    · rename_i found hfound
      cases h
      obtain ⟨_, _, hfind⟩ := List.exists_of_findSome?_eq_some hfound
      obtain ⟨_, _, hfind⟩ := Option.bind_eq_some_iff.1 hfind
      obtain ⟨_, _, hfind⟩ := Option.bind_eq_some_iff.1 hfind
      exact isDeclared_findType? hfind
    · split at h
      · cases h
      · rename_i found hfound
        cases h
        obtain ⟨_, _, hfind⟩ := List.mem_filterMap.1 (hfound ▸ List.mem_singleton_self _)
        obtain ⟨_, hfind, he⟩ := Option.map_eq_some_iff.1 hfind
        cases he
        exact isDeclared_findType? hfind
      · cases h

/-- Keys of a map are told by what their type denotes. -/
theorem Denotes.isMapKey_iff (h : c.Denotes type e) : isMapKey e = true ↔ c.IsKey type := by
  cases h with
  | @scalar s =>
    -- Of scalars, those that are texts, bytes or of a fraction are no keys.
    have hscalar : isMapKey (.scalar s) = true ↔ s ∉ [.string, .bytes, .float, .double] := by
      cases s <;> decide
    rw [hscalar]
    exact ⟨.scalar, fun h => by cases h; assumption⟩
  | named hresolve =>
    cases e with
    | scalar s => exact absurd rfl (isDeclared_resolve? hresolve s)
    | enum id => exact ⟨fun _ => .enum hresolve, fun _ => rfl⟩
    | message id =>
      refine ⟨fun h => (nomatch h), fun h => ?_⟩
      cases h with
      | enum h => cases hresolve.symm.trans h

/-! ### Fields -/

/-- What the type of a field that was resolved is made of. -/
theorem fieldType_eq_ok {message field : String} {resolved : ResolvedType}
    (h : c.fieldType message field type = .ok resolved) :
    (∀ inner ∈ type.parameters, inner.isContainer = false) ∧
      (∀ name ∈ type.names, ∃ e, c.resolve? name = .ok (some e)) ∧
      ∀ key value, type = .map key value → c.IsKey key := by
  cases type with
  | scalar | named =>
    obtain ⟨e, he, _⟩ := map_eq_ok.1 h
    exact ⟨fun _ h => absurd h List.not_mem_nil, (denotes_of_element he).names,
      fun _ _ h => nomatch h⟩
  | optional inner | repeated inner =>
    obtain ⟨e, he, _⟩ := map_eq_ok.1 h
    have hinner := denotes_of_element he
    exact ⟨fun _ h => List.mem_singleton.1 h ▸ hinner.isContainer, hinner.names,
      fun _ _ h => nomatch h⟩
  | map key value =>
    -- The key is resolved first, then the value, and then the key is looked at.
    obtain ⟨k, hk, h⟩ := bind_eq_ok.1 h
    obtain ⟨v, hv, h⟩ := bind_eq_ok.1 h
    have hkey := denotes_of_element hk
    have hvalue := denotes_of_element hv
    split at h
    · rename_i hmapKey
      refine ⟨fun inner hinner => ?_, fun name hname => ?_, fun key' value' heq => ?_⟩
      · rcases List.mem_cons.1 hinner with rfl | hinner
        · exact hkey.isContainer
        · exact List.mem_singleton.1 hinner ▸ hvalue.isContainer
      · exact (List.mem_append.1 hname).elim (hkey.names name) (hvalue.names name)
      · cases heq
        exact hkey.isMapKey_iff.1 hmapKey
    · cases h

/-- A type that cannot be resolved is at fault, in one of its names or in how it is built. -/
theorem fault_of_fieldType {message field : String}
    (h : c.fieldType message field type = .error err) :
    c.FieldFault message field type err := by
  cases type with
  | scalar s => cases h
  | named name =>
    exact .name (List.mem_singleton_self _) (nameFault_of_resolveName (map_eq_error.1 h))
  | optional inner | repeated inner =>
    exact fault_of_parameter (List.mem_singleton_self _) (map_eq_error.1 h)
  | map key value =>
    -- The key or the value is at fault, or the key is of a type that keys cannot have.
    rcases bind_eq_error.1 h with h | ⟨k, hk, h⟩
    · exact fault_of_parameter List.mem_cons_self h
    · rcases bind_eq_error.1 h with h | ⟨v, _, h⟩
      · exact fault_of_parameter (List.mem_cons_of_mem _ (List.mem_singleton_self _)) h
      · split at h
        · cases h
        · rename_i hkey
          cases h
          exact .key rfl fun hisKey => hkey ((denotes_of_element hk).isMapKey_iff.2 hisKey)

/-- A field holds a message by value if and only if its type is the name of one. -/
theorem shape_eq_single_iff {message : String} {f : Field} {resolved : ResolvedType}
    (h : c.fieldType message f.name f.type = .ok resolved) {id : MessageId} :
    (FieldMapping.ofType f resolved).shape = .single (.nested id) ↔
      ∃ name, f.type = .named name ∧ c.resolve? name = .ok (some (.message id)) := by
  -- Only a field whose type is a name can hold a message by value.
  generalize f.type = type at h
  cases type with
  | scalar s =>
    cases h
    exact ⟨(nomatch ·), fun ⟨_, h, _⟩ => nomatch h⟩
  | named name =>
    obtain ⟨e, he, rfl⟩ := map_eq_ok.1 h
    cases denotes_of_element he with
    | named hresolve =>
      constructor
      · intro hshape
        refine ⟨name, rfl, ?_⟩
        cases e <;> cases hshape
        exact hresolve
      · rintro ⟨_, hname, hmessage⟩
        cases hname
        cases hresolve.symm.trans hmessage
        rfl
  | optional inner | repeated inner =>
    obtain ⟨e, _, rfl⟩ := map_eq_ok.1 h
    exact ⟨(nomatch ·), fun ⟨_, h, _⟩ => nomatch h⟩
  | map key value =>
    obtain ⟨k, _, h⟩ := bind_eq_ok.1 h
    obtain ⟨v, _, h⟩ := bind_eq_ok.1 h
    split at h
    · cases h
      exact ⟨(nomatch ·), fun ⟨_, h, _⟩ => nomatch h⟩
    · cases h

/-! ### Methods -/

/-- A message that is resolved is what its name stands for. -/
theorem resolveMessage_eq_ok {service method : String} {id : MessageId}
    (h : c.resolveMessage service method name = .ok id) :
    c.resolve? name = .ok (some (.message id)) := by
  obtain ⟨e, he, h⟩ := bind_eq_ok.1 h
  split at h
  · cases h
    exact resolve?_of_resolveName he
  · cases h

/-- An input or output that is no message is at fault. -/
theorem fault_of_resolveMessage {service : String} {method : Method}
    (hname : name ∈ [method.input, method.output])
    (h : c.resolveMessage service method.name name = .error err) :
    c.MethodFault service method err := by
  rcases bind_eq_error.1 h with h | ⟨e, he, h⟩
  · exact .name hname (nameFault_of_resolveName h)
  · split at h
    · cases h
    · rename_i hmessage
      cases h
      exact .notMessage hname (resolve?_of_resolveName he) hmessage

end Scope

/-! ## Messages held by value -/

namespace Schema

variable {s : Schema} {t : ImportTable}

/-- The plan at a position is that of the message there. -/
theorem messagePlans_getElem? {mappings : List (List FieldMapping)} {i : Nat} {p : MessagePlan} :
    (s.messagePlans mappings)[i]? = some p ↔
      ∃ m fields, s.messages[i]? = some m ∧ mappings[i]? = some fields ∧
        .ofMappings i m fields = p := by
  simp [messagePlans, List.getElem?_zip_eq_some, and_assoc]

section Mappings

variable {mappings : List (List FieldMapping)}

/-- The edges of the search are the fields that hold messages by value. -/
theorem mem_valueEdgesAt (h : s.messages.mapM (s.scope t).mapMessage = .ok mappings) {i j : Nat}
    {field : String} :
    (field, j) ∈ valueEdgesAt (s.messagePlans mappings) i ↔ s.HoldsBy t i field j := by
  constructor
  · intro hedge
    rw [valueEdgesAt] at hedge
    split at hedge
    · rename_i p hp
      -- An edge is a step of the plan, which is that of a field of the message.
      obtain ⟨m, fields, hm, hfields, rfl⟩ := messagePlans_getElem?.1 hp
      obtain ⟨fields', hfields', hmap⟩ := exists_of_getElem? (mapM_eq_ok h) hm
      cases hfields.symm.trans hfields'
      obtain ⟨step, hstep, rfl, hshape⟩ := MessagePlan.mem_valueEdges.1 hedge
      obtain ⟨mapping, hmapping, rfl⟩ := List.mem_map.1 hstep
      obtain ⟨f, hf, hfield⟩ := exists_of_mem_mapM hmap hmapping
      obtain ⟨resolved, hresolved, rfl⟩ := map_eq_ok.1 hfield
      exact ⟨m, hm, f, hf, rfl, (Scope.shape_eq_single_iff hresolved).1 hshape⟩
    · exact absurd hedge List.not_mem_nil
  · rintro ⟨m, hm, f, hf, rfl, hname⟩
    obtain ⟨fields, hfields, hmap⟩ := exists_of_getElem? (mapM_eq_ok h) hm
    obtain ⟨mapping, hmapping, hfield⟩ := exists_of_mem_left (mapM_eq_ok hmap) hf
    obtain ⟨resolved, hresolved, rfl⟩ := map_eq_ok.1 hfield
    rw [valueEdgesAt, messagePlans_getElem?.2 ⟨m, fields, hm, hfields, rfl⟩]
    have hstep :
        (FieldMapping.ofType f resolved).step ∈ (MessagePlan.ofMappings i m fields).steps :=
      List.mem_map_of_mem hmapping
    have hshape := (Scope.shape_eq_single_iff hresolved).2 hname
    exact MessagePlan.mem_valueEdges.2 ⟨_, hstep, rfl, hshape⟩

/-- The plan at a position has the name of the message there. -/
theorem planName_messagePlans (h : s.messages.mapM (s.scope t).mapMessage = .ok mappings)
    (i : Nat) : planName (s.messagePlans mappings) i = s.messageName i := by
  rw [planName, messageName]
  cases hm : s.messages[i]? with
  | none =>
    have hnone : (s.messagePlans mappings)[i]? = none := by
      rw [List.getElem?_eq_none_iff, length_messagePlans h]
      exact List.getElem?_eq_none_iff.1 hm
    rw [hnone]
    rfl
  | some m =>
    obtain ⟨fields, hfields, _⟩ := exists_of_getElem? (mapM_eq_ok h) hm
    rw [messagePlans_getElem?.2 ⟨m, fields, hm, hfields, rfl⟩]
    rfl

/-- A message that holds itself is reported with a cycle that there is. -/
theorem faulty_of_checkValueRecursion (h : s.messages.mapM (s.scope t).mapMessage = .ok mappings)
    {e : CompileError} (he : checkValueRecursion (s.messagePlans mappings) = .error e) :
    s.Faulty t e := by
  rw [checkValueRecursion] at he
  split at he
  · rename_i first field path hcycle
    cases he
    -- The cycle that is found is a walk along fields that hold messages.
    obtain ⟨_, i, hwalk⟩ := Graph.closed_search _ _ _ hcycle
    have hwalk := hwalk.mono fun i label j hedge => (mem_valueEdgesAt h).1 hedge
    simp only [planName_messagePlans h]
    cases hwalk with
    | cons hfirst hrest => exact .recursion (.cons hfirst hrest)
  · cases he

end Mappings

/-! ## Compilation -/

theorem scope_of_compile {c : CompiledSchema} (h : s.compile t = .ok c) :
    (⟨s, c.imports⟩ : Scope) = s.scope t := by
  obtain ⟨hverify, himports, _⟩ := compile_eq_ok h
  rw [importsFrom_of_verify hverify] at himports
  rw [scope, Except.ok.inj himports]

/-- The services of a compiled schema are those of the schema, mapped. -/
theorem services_of_compile {c : CompiledSchema} (h : s.compile t = .ok c) :
    s.services.mapM (s.scope t).mapService = .ok c.services := by
  rw [← scope_of_compile h]
  obtain ⟨_, _, h⟩ := bind_eq_ok.1 h
  obtain ⟨_, _, h⟩ := bind_eq_ok.1 h
  obtain ⟨_, _, h⟩ := bind_eq_ok.1 h
  obtain ⟨services, hservices, h⟩ := bind_eq_ok.1 h
  obtain ⟨_, _, h⟩ := bind_eq_ok.1 h
  cases Except.ok.inj h
  exact hservices

/-- The mappings of a schema that compiles, and the messages made from them. -/
theorem mappings_of_compile {c : CompiledSchema} (h : s.compile t = .ok c) :
    s.messages.mapM (s.scope t).mapMessage = .ok c.mappings ∧
      c.messages = s.messagePlans c.mappings := by
  obtain ⟨_, _, hmappings, hmessages, _⟩ := compile_eq_ok h
  exact ⟨scope_of_compile h ▸ hmappings, hmessages⟩

/-- The type of every field is resolved if the schema compiles. -/
theorem exists_fieldType_of_compile {c : CompiledSchema} (h : s.compile t = .ok c) {m : Message}
    (hm : m ∈ s.messages) {f : Field} (hf : f ∈ m.fields) :
    ∃ resolved, (s.scope t).fieldType m.name f.name f.type = .ok resolved := by
  obtain ⟨fields, _, hfields⟩ := exists_of_mem_left (mapM_eq_ok (mappings_of_compile h).1) hm
  obtain ⟨_, _, hmapping⟩ := exists_of_mem_left (mapM_eq_ok hfields) hf
  obtain ⟨resolved, hresolved, _⟩ := map_eq_ok.1 hmapping
  exact ⟨resolved, hresolved⟩

/-- Every input and output is a message if the schema compiles. -/
theorem exists_message_of_compile {c : CompiledSchema} (h : s.compile t = .ok c)
    {service : Service} (hservice : service ∈ s.services) {method : Method}
    (hmethod : method ∈ service.methods) {name : String}
    (hname : name ∈ [method.input, method.output]) :
    ∃ id, (s.scope t).resolve? name = .ok (some (.message id)) := by
  obtain ⟨_, _, hplan⟩ := exists_of_mem_left (mapM_eq_ok (services_of_compile h)) hservice
  obtain ⟨methods, hmethods, _⟩ := bind_eq_ok.1 hplan
  obtain ⟨_, _, hplan⟩ := exists_of_mem_left (mapM_eq_ok hmethods) hmethod
  obtain ⟨input, hinput, hplan⟩ := bind_eq_ok.1 hplan
  obtain ⟨output, houtput, _⟩ := bind_eq_ok.1 hplan
  simp only [List.mem_cons, List.not_mem_nil, or_false] at hname
  rcases hname with rfl | rfl
  · exact ⟨input, Scope.resolveMessage_eq_ok hinput⟩
  · exact ⟨output, Scope.resolveMessage_eq_ok houtput⟩

/-- Messages have ranks that go down from one to those that it holds by value. -/
theorem exists_rank_of_compile {c : CompiledSchema} (h : s.compile t = .ok c) :
    ∃ rank : Nat → Nat, ∀ i j, s.Holds t i j → rank j < rank i := by
  obtain ⟨hmappings, hmessages⟩ := mappings_of_compile h
  obtain ⟨rank, hrank⟩ := (consistent_of_compile h).rank
  refine ⟨rank, ?_⟩
  rintro i j ⟨field, hheld⟩
  have hedge := (mem_valueEdgesAt hmappings).2 hheld
  rw [← hmessages, valueEdgesAt] at hedge
  split at hedge
  · rename_i p hp
    exact (hrank i p hp).2 _ hedge
  · exact absurd hedge List.not_mem_nil

/-- No message holds itself by value if the schema compiles. -/
theorem acyclic_of_compile {c : CompiledSchema} (h : s.compile t = .ok c) (i : Nat) :
    ¬Relation.TransGen (s.Holds t) i i := by
  obtain ⟨rank, hrank⟩ := exists_rank_of_compile h
  exact Graph.acyclic_of_rank rank hrank i

/-- A schema that compiles is valid. -/
theorem valid_of_compile {c : CompiledSchema} (h : s.compile t = .ok c) : s.Valid t where
  verified := (compile_eq_ok h).1
  flat m hm f hf := by
    obtain ⟨_, hresolved⟩ := exists_fieldType_of_compile h hm hf
    exact (Scope.fieldType_eq_ok hresolved).1
  names m hm f hf := by
    obtain ⟨_, hresolved⟩ := exists_fieldType_of_compile h hm hf
    exact (Scope.fieldType_eq_ok hresolved).2.1
  keys m hm f hf := by
    obtain ⟨_, hresolved⟩ := exists_fieldType_of_compile h hm hf
    exact (Scope.fieldType_eq_ok hresolved).2.2
  methods _ hservice _ hmethod _ hname := exists_message_of_compile h hservice hmethod hname
  acyclic := acyclic_of_compile h

/-- A schema that does not compile has the fault that the error names. -/
theorem faulty_of_compile {e : CompileError} (h : s.compile t = .error e) : s.Faulty t e := by
  -- The steps of compilation in turn: verification, fields, methods, and messages held by value.
  rcases bind_eq_error.1 h with h | ⟨_, hverify, h⟩
  · rcases error_of_verify h with ⟨place, fault, rfl, -⟩ | ⟨name, hname, hget, rfl⟩
    · exact .inconsistent h
    · exact .unpublished hname hget
  rw [importsFrom_of_verify hverify] at h
  rcases bind_eq_error.1 h with h | ⟨imports, himports, h⟩
  · cases h
  cases Except.ok.inj himports
  rcases bind_eq_error.1 h with h | ⟨mappings, hmappings, h⟩
  · obtain ⟨m, hm, h⟩ := exists_of_mapM_error h
    obtain ⟨f, hf, h⟩ := exists_of_mapM_error h
    exact .field hm hf (Scope.fault_of_fieldType (map_eq_error.1 h))
  rcases bind_eq_error.1 h with h | ⟨services, _, h⟩
  · obtain ⟨service, hservice, h⟩ := exists_of_mapM_error h
    rcases bind_eq_error.1 h with h | ⟨_, _, h⟩
    · obtain ⟨method, hmethod, h⟩ := exists_of_mapM_error h
      refine .method hservice hmethod ?_
      rcases bind_eq_error.1 h with h | ⟨_, _, h⟩
      · exact Scope.fault_of_resolveMessage List.mem_cons_self h
      · rcases bind_eq_error.1 h with h | ⟨_, _, h⟩
        · exact Scope.fault_of_resolveMessage
            (List.mem_cons_of_mem _ (List.mem_singleton_self _)) h
        · cases h
    · cases h
  rcases bind_eq_error.1 h with h | ⟨_, _, h⟩
  · exact faulty_of_checkValueRecursion hmappings h
  · cases h

/-- A valid schema has no faults. -/
theorem Faulty.not_valid {e : CompileError} (h : s.Faulty t e) : ¬s.Valid t := by
  intro hvalid
  -- One case for each fault, against what makes a schema valid.
  have hname {owner member name : String} {e : CompileError} {found : ElementType}
      (hfault : (s.scope t).NameFault owner member name e)
      (hfound : (s.scope t).resolve? name = .ok (some found)) : False := by
    cases hfault with
    | unresolved hnone => cases hnone.symm.trans hfound
    | ambiguous herror => cases herror.symm.trans hfound
  cases h with
  | unpublished hmem hget =>
    have hsome := isSome_of_verify hvalid.verified hmem
    rw [hget] at hsome
    cases hsome
  | inconsistent hverify => cases hvalid.verified.symm.trans hverify
  | field hm hf hfault =>
    cases hfault with
    | name hmem hfault =>
      obtain ⟨_, hfound⟩ := hvalid.names _ hm _ hf _ hmem
      exact hname hfault hfound
    | container hmem hinner =>
      cases (hvalid.flat _ hm _ hf _ hmem).symm.trans hinner
    | key htype hkey => exact hkey (hvalid.keys _ hm _ hf _ _ htype)
  | method hservice hmethod hfault =>
    cases hfault with
    | name hmem hfault =>
      obtain ⟨_, hfound⟩ := hvalid.methods _ hservice _ hmethod _ hmem
      exact hname hfault hfound
    | notMessage hmem hfound hmessage =>
      obtain ⟨id, hid⟩ := hvalid.methods _ hservice _ hmethod _ hmem
      cases hfound.symm.trans hid
      exact hmessage id rfl
  | recursion hwalk => exact hvalid.acyclic _ (hwalk.transGen (List.cons_ne_nil _ _))

/-- The schemas that compile are the valid ones. Any other one is rejected for a fault
    that it has: an import that is not published, an inconsistency, a name that refers to
    nothing, a type that keys cannot have, or a message that holds itself by value. -/
theorem compile_accepts_valid (s : Schema) (t : ImportTable) :
    ((∃ c, s.compile t = .ok c) ↔ s.Valid t) ∧ ∀ e, s.compile t = .error e → s.Faulty t e := by
  refine ⟨⟨fun ⟨c, hc⟩ => valid_of_compile hc, fun hvalid => ?_⟩, fun e => faulty_of_compile⟩
  cases hcompile : s.compile t with
  | ok c => exact ⟨c, rfl⟩
  | error e => exact absurd hvalid (faulty_of_compile hcompile).not_valid

end Schema

namespace Sample

/-- Hens that hold eggs, and eggs that hold hens, or perhaps not. -/
def poultry (hatching : FieldType) : Schema where
  name := "poultry.proto"
  messages := [⟨"Hen", [⟨"egg", 1, .named "Egg", false⟩]⟩, ⟨"Egg", [⟨"hen", 1, hatching, false⟩]⟩]

end Sample

open Sample

theorem compile_accepts_valid_poultry :
    (poultry (.optional (.named "Hen"))).Valid .empty ∧
      (poultry (.named "Hen")).Faulty .empty
        (.valueRecursion "Hen" "egg" ["Hen", "Egg", "Hen"]) := by
  have hok := (poultry (.optional (.named "Hen"))).compile_accepts_valid .empty
  have herror := (poultry (.named "Hen")).compile_accepts_valid .empty
  exact ⟨hok.1.1 ⟨_, rfl⟩, herror.2 _ rfl⟩

end Marshal
