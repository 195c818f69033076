import Marshal.Proofs.Acceptance
import Marshal.Sample.Compiled

/-!
# Plans agree with declarations

Every decision about the encoding of a field is recorded twice, in its mapping and in
its step, and is made on the way from its declared type. Here they are compared:

* a field is *mapped to* its mapping if this has its name, number and flag, and the type
  that the declared one denotes (`Field.MappedTo`);
* a mapping is *laid out by* a step if both tell the same name, number, flag, presence,
  layout, kinds and extents, and the extents follow the rule (`FieldMapping.LaidOutBy`);
* a schema is *planned by* a compiled one if all of its declarations are, at the same
  positions, all identities can be followed, and the imports that are listed for
  emission are those referred to (`Schema.PlannedBy`).

Every schema is planned by what it compiles to (`plannedBy_of_compile`).
-/

namespace Marshal

open Wire

/-! ## Fields -/

namespace Shape

/-- The step of the value, of the elements, or of the values of a map. -/
def value : Shape → ValueStep
  | .single v | .optional v | .repeated v _ | .map _ v _ => v

/-- The step of the keys of a map. -/
def key? : Shape → Option ValueStep
  | .map key _ _ => some key
  | _ => none

/-- What the number in front of a sequence counts. -/
def extent? : Shape → Option Extent
  | .repeated _ e | .map _ _ e => some e
  | _ => none

end Shape

/-- What a declared type denotes, with its names resolved. -/
inductive Scope.DenotesType (c : Scope) : FieldType → ResolvedType → Prop
  | single {type : FieldType} {e : ElementType} :
    c.Denotes type e → DenotesType c type (.single e)
  | optional {inner : FieldType} {e : ElementType} :
    c.Denotes inner e → DenotesType c (.optional inner) (.optional e)
  | repeated {inner : FieldType} {e : ElementType} :
    c.Denotes inner e → DenotesType c (.repeated inner) (.repeated e)
  | map {key value : FieldType} {k v : ElementType} :
    c.Denotes key k → c.Denotes value v → DenotesType c (.map key value) (.map k v)

/-- The mapping tells what the field declares. -/
structure Field.MappedTo (c : Scope) (f : Field) (m : FieldMapping) : Prop where
  name : m.name = f.name
  number : m.number = f.number
  deprecated : m.deprecated = f.deprecated
  type : c.DenotesType f.type m.type

/-- How many values a field of a type holds, how they are laid out, and whether they are
    skippable. -/
inductive ResolvedType.LaidOut : ResolvedType → Presence → Shape → (skippable : Bool) → Prop
  | single {e : ElementType} : LaidOut (.single e) .required (.single e.step) false
  | optional {e : ElementType} : LaidOut (.optional e) .optional (.optional e.step) true
  | repeated {e : ElementType} {x : Extent} :
    LaidOut (.repeated e) .repeated (.repeated e.step x) false
  | map {k v : ElementType} {x : Extent} :
    LaidOut (.map k v) .map (.map k.step v.step x) false

/-- The step tells what the mapping does. -/
structure FieldMapping.LaidOutBy (m : FieldMapping) (step : Step) : Prop where
  name : step.field = m.name
  number : step.number = m.number
  deprecated : step.deprecated = m.deprecated
  presence : step.presence = m.presence
  layout : m.type.LaidOut m.presence step.shape step.skippable
  kind : m.kind = step.shape.value.kind
  keyKind : m.keyKind = step.shape.key?.map ValueStep.kind
  extent : m.extent = step.shape.extent?
  /-- The extent of a sequence follows from the kind of its elements, or of the values
      of a map. -/
  rule : ∀ e ∈ step.shape.extent?, e = .ofKind step.shape.value.kind
  /-- Keys are neither length-delimited nor floats. -/
  key : ∀ key ∈ step.shape.key?,
    key.kind.isLengthDelimited = false ∧ key ∉ [.scalar .f32, .scalar .f64]

/-! ## Schemas -/

/-- The plan of the message at a position, and the mappings of its fields. -/
structure Message.PlannedBy (c : Scope) (i : Nat) (m : Message) (fields : List FieldMapping)
    (p : MessagePlan) : Prop where
  id : p.id = ⟨.own, i⟩
  name : p.name = m.name
  mappings : List.Forall₂ (Field.MappedTo c) m.fields fields
  steps : List.Forall₂ FieldMapping.LaidOutBy fields p.steps

/-- The plan of the enum at a position. -/
structure Enum.PlannedBy (i : Nat) (e : Enum) (p : EnumPlan) : Prop where
  id : p.id = ⟨.own, i⟩
  name : p.name = e.name
  values : p.values = e.values

/-- The plan of a method goes from and to the messages that are named. -/
structure Method.PlannedBy (c : Scope) (m : Method) (p : MethodPlan) : Prop where
  name : p.name = m.name
  input : c.resolve? m.input = .ok (some (.message p.input))
  output : c.resolve? m.output = .ok (some (.message p.output))

/-- The plan of a service. -/
structure Service.PlannedBy (c : Scope) (s : Service) (p : ServicePlan) : Prop where
  name : p.name = s.name
  methods : List.Forall₂ (Method.PlannedBy c) s.methods p.methods

/-- Something in a schema refers to the import at a position. -/
inductive CompiledSchema.RefersTo (s : CompiledSchema) (i : Nat) : Prop
  | enum {p : MessagePlan} {step : Step} {index : Nat} : p ∈ s.messages → step ∈ p.steps →
    .enum ⟨.imported i, index⟩ ∈ step.shape.values → RefersTo s i
  | message {p : MessagePlan} {step : Step} {index : Nat} : p ∈ s.messages → step ∈ p.steps →
    .nested ⟨.imported i, index⟩ ∈ step.shape.values → RefersTo s i
  | method {service : ServicePlan} {m : MethodPlan} {index : Nat} : service ∈ s.services →
    m ∈ service.methods → ⟨.imported i, index⟩ ∈ [m.input, m.output] → RefersTo s i

/-- The mapping without the record of what the number in front of a sequence counts. -/
def FieldMapping.withoutExtent (m : FieldMapping) : FieldMapping := { m with extent := none }

/-- All declarations of a schema have their plans in a compiled one. -/
structure Schema.PlannedBy (s : Schema) (t : ImportTable) (c : CompiledSchema) : Prop where
  name : c.name = s.name
  package : c.package = s.package
  /-- There is a plan, and a list of mappings, for each message, and a plan for each
      enum. -/
  lengths : c.messages.length = s.messages.length ∧ c.mappings.length = s.messages.length ∧
    c.enums.length = s.enums.length
  messages : ∀ (i : Nat) (m : Message) (fields : List FieldMapping) (p : MessagePlan),
    s.messages[i]? = some m → c.mappings[i]? = some fields → c.messages[i]? = some p →
    m.PlannedBy (s.scope t) i fields p
  enums : ∀ (i : Nat) (e : Enum) (p : EnumPlan), s.enums[i]? = some e → c.enums[i]? = some p →
    e.PlannedBy i p
  services : List.Forall₂ (Service.PlannedBy (s.scope t)) s.services c.services
  /-- The identities in steps are those of declarations. -/
  resolves : ∀ p ∈ c.messages, ∀ step ∈ p.steps, ∀ v ∈ step.shape.values, c.Resolves v
  /-- The identities in methods are those of messages. -/
  methods : ∀ service ∈ c.services, ∀ m ∈ service.methods, ∀ id ∈ [m.input, m.output],
    (c.messagePlan? id).isSome
  /-- The extents that are recorded are what the rule gives anyway. -/
  extents : s.messagePlans (c.mappings.map (·.map FieldMapping.withoutExtent)) = c.messages
  /-- The imports listed for emission are those referred to, in ascending order. -/
  ascending : c.order.imports.Pairwise (· < ·)
  referred : ∀ i, i ∈ c.order.imports ↔ c.RefersTo i

/-! ## From a declared type to a step -/

/-- The kind of a type is that of the step for its values. -/
theorem ElementType.kind_step (e : ElementType) : e.step.kind = e.kind := by
  rcases e with _ | _ | _ <;> rfl

namespace Scope

variable {c : Scope} {m : Message} {f : Field} {mapping : FieldMapping} {resolved : ResolvedType}

/-- A declared type is resolved to what it denotes. -/
theorem denotesType_of_fieldType {message field : String} {type : FieldType}
    (h : c.fieldType message field type = .ok resolved) : c.DenotesType type resolved := by
  cases type with
  | scalar | named =>
    obtain ⟨e, he, rfl⟩ := map_eq_ok.1 h
    exact .single (denotes_of_element he)
  | optional inner =>
    obtain ⟨e, he, rfl⟩ := map_eq_ok.1 h
    exact .optional (denotes_of_element he)
  | repeated inner =>
    obtain ⟨e, he, rfl⟩ := map_eq_ok.1 h
    exact .repeated (denotes_of_element he)
  | map key value =>
    obtain ⟨k, hk, h⟩ := bind_eq_ok.1 h
    obtain ⟨v, hv, h⟩ := bind_eq_ok.1 h
    split at h
    · cases h
      exact .map (denotes_of_element hk) (denotes_of_element hv)
    · cases h

/-- The keys of a map were checked to be such. -/
theorem isMapKey_of_fieldType {message field : String} {type : FieldType} {k v : ElementType}
    (h : c.fieldType message field type = .ok (.map k v)) : isMapKey k = true := by
  cases type with
  | scalar | named | optional | repeated =>
    obtain ⟨_, _, hmap⟩ := map_eq_ok.1 h
    cases hmap
  | map key value =>
    obtain ⟨k', _, h⟩ := bind_eq_ok.1 h
    obtain ⟨v', _, h⟩ := bind_eq_ok.1 h
    split at h
    · rename_i hkey
      cases h
      exact hkey
    · cases h

/-- A key of a map is neither length-delimited nor a floating-point number. -/
theorem step_of_isMapKey {k : ElementType} (h : isMapKey k = true) :
    k.step.kind.isLengthDelimited = false ∧ k.step ∉ [.scalar .f32, .scalar .f64] := by
  rcases k with s | id | id
  · revert h
    cases s <;> decide
  · exact ⟨rfl, by simp [ElementType.step]⟩
  · cases h

/-- What is made of a resolved type agrees with it in mapping and step. -/
theorem laidOutBy_step (f : Field) (hkey : ∀ k v, resolved = .map k v → isMapKey k = true) :
    (FieldMapping.ofType f resolved).LaidOutBy (FieldMapping.ofType f resolved).step where
  name := rfl
  number := rfl
  deprecated := rfl
  presence := rfl
  layout := by rcases resolved with _ | _ | _ | _ <;> constructor
  kind := by rcases resolved with e | e | e | ⟨_, e⟩ <;> exact e.kind_step.symm
  keyKind := by
    rcases resolved with _ | _ | _ | ⟨k, _⟩
    · rfl
    · rfl
    · rfl
    · exact congrArg some k.kind_step.symm
  extent := by rcases resolved with _ | _ | _ | _ <;> rfl
  rule := by
    -- Only lists and maps have an extent, which is that of their values.
    rcases resolved with _ | _ | e | ⟨_, e⟩
    · simp [FieldMapping.step, FieldMapping.shape, FieldMapping.ofType, Shape.extent?]
    · simp [FieldMapping.step, FieldMapping.shape, FieldMapping.ofType, Shape.extent?]
    all_goals
      rintro x ⟨⟩
      exact congrArg Extent.ofKind e.kind_step.symm
  key := by
    rcases resolved with _ | _ | _ | ⟨k, v⟩
    all_goals rintro key ⟨⟩
    exact step_of_isMapKey (hkey k v rfl)

/-- The step of a field does not depend on the extent that is recorded. -/
theorem step_withoutExtent (f : Field) (resolved : ResolvedType) :
    (FieldMapping.ofType f resolved).withoutExtent.step =
      (FieldMapping.ofType f resolved).step := by
  rcases resolved with _ | _ | _ | _ <;> rfl

/-- The mapping of a field comes from what its type denotes. -/
theorem exists_of_mapField (h : c.mapField m f = .ok mapping) :
    ∃ resolved, c.DenotesType f.type resolved ∧ mapping = .ofType f resolved ∧
      mapping.LaidOutBy mapping.step := by
  obtain ⟨resolved, hresolved, rfl⟩ := map_eq_ok.1 h
  refine ⟨resolved, denotesType_of_fieldType hresolved, rfl, laidOutBy_step f ?_⟩
  rintro k v rfl
  exact isMapKey_of_fieldType hresolved

/-- A field is mapped to what it declares. -/
theorem mappedTo_of_mapField (h : c.mapField m f = .ok mapping) : f.MappedTo c mapping := by
  obtain ⟨resolved, htype, rfl, _⟩ := exists_of_mapField h
  exact ⟨rfl, rfl, rfl, htype⟩

/-- The mappings of a message, and the plan that is made from them. -/
theorem plannedBy_of_mapMessage {fields : List FieldMapping} (h : c.mapMessage m = .ok fields)
    (i : Nat) : m.PlannedBy c i fields (.ofMappings i m fields) where
  id := rfl
  name := rfl
  mappings := (mapM_eq_ok h).imp fun _ _ => mappedTo_of_mapField
  steps := by
    refine List.forall₂_map_right_iff.2 (List.forall₂_same.2 fun mapping hmapping => ?_)
    obtain ⟨f, _, hf⟩ := exists_of_mem_mapM h hmapping
    obtain ⟨_, _, _, hlaid⟩ := exists_of_mapField hf
    exact hlaid

/-- A service is planned as it is declared. -/
theorem plannedBy_of_mapService {service : Service} {p : ServicePlan}
    (h : c.mapService service = .ok p) : service.PlannedBy c p := by
  obtain ⟨methods, hmethods, h⟩ := bind_eq_ok.1 h
  cases Except.ok.inj h
  refine ⟨rfl, (mapM_eq_ok hmethods).imp fun method plan hplan => ?_⟩
  obtain ⟨input, hinput, hplan⟩ := bind_eq_ok.1 hplan
  obtain ⟨output, houtput, hplan⟩ := bind_eq_ok.1 hplan
  cases Except.ok.inj hplan
  exact ⟨rfl, resolveMessage_eq_ok hinput, resolveMessage_eq_ok houtput⟩

end Scope

/-! ## References to imports -/

/-- Values of an import are its enums and its messages. -/
theorem ValueStep.origin?_eq_imported {v : ValueStep} {i : Nat} :
    v.origin? = some (.imported i) ↔
      (∃ index, v = .enum ⟨.imported i, index⟩) ∨ ∃ index, v = .nested ⟨.imported i, index⟩ := by
  rcases v with _ | ⟨_, _⟩ | ⟨_, _⟩ <;> simp [origin?]

theorem Origin.position?_eq_some {origin : Origin} {i : Nat} :
    origin.position? = some i ↔ origin = .imported i := by
  rcases origin with _ | _ <;> simp [position?]

/-- The imports that plans and services are found to use are those they refer to. -/
theorem mem_usedImports {s : CompiledSchema} {i : Nat} :
    i ∈ usedImports s.messages s.services ↔ s.RefersTo i := by
  rw [usedImports, Ascending.mem_keysOf, List.mem_filterMap]
  simp only [Origin.position?_eq_some, exists_eq_right, referredOrigins, List.mem_append,
    List.mem_flatMap, List.mem_filterMap, ValueStep.origin?_eq_imported]
  constructor
  · rintro (⟨p, hp, step, hstep, v, hv, ⟨index, rfl⟩ | ⟨index, rfl⟩⟩ |
      ⟨service, hservice, m, hm, horigin⟩)
    · exact .enum hp hstep hv
    · exact .message hp hstep hv
    · obtain ⟨⟨_, index⟩, hid, rfl⟩ : ∃ id ∈ [m.input, m.output], id.origin = .imported i := by
        simpa [eq_comm] using horigin
      exact .method hservice hm hid
  · rintro (⟨hp, hstep, hv⟩ | ⟨hp, hstep, hv⟩ | ⟨hservice, hm, hid⟩)
    · exact .inl ⟨_, hp, _, hstep, _, hv, .inl ⟨_, rfl⟩⟩
    · exact .inl ⟨_, hp, _, hstep, _, hv, .inr ⟨_, rfl⟩⟩
    · exact .inr ⟨_, hservice, _, hm, List.mem_map_of_mem (f := MessageId.origin) hid⟩

/-! ## Names -/

namespace CompiledSchema

/-- The names of types, symbols and services. -/
def namesOfTypes (s : CompiledSchema) : List String :=
  s.enums.map (·.name) ++ s.enums.flatMap (·.values.map (·.name)) ++ s.messages.map (·.name) ++
    s.services.map (·.name)

/-- The names of fields and methods. -/
def namesOfFields (s : CompiledSchema) : List String :=
  s.messages.flatMap (·.steps.map (·.field)) ++ s.services.flatMap (·.methods.map (·.name))

end CompiledSchema

namespace Schema

open Text

variable {s : Schema} {t : ImportTable} {c : CompiledSchema}

/-- The plans of a schema go by the names of its declarations. -/
theorem map_name_of_compile (h : s.compile t = .ok c) :
    c.messages.map (·.name) = s.messages.map (·.name) ∧
      c.enums.map (·.name) = s.enums.map (·.name) := by
  obtain ⟨_, _, hmappings, hmessages, henums, _⟩ := compile_eq_ok h
  constructor
  · have hlength := length_messagePlans hmappings
    rw [hmessages]
    refine List.ext_getElem (by simpa using hlength) fun i hi hi' => ?_
    simp [messagePlans, MessagePlan.ofMappings]
  · rw [henums]
    refine List.ext_getElem (by simp [enumPlans]) fun i hi hi' => ?_
    simp [enumPlans, EnumPlan.ofEnum]

/-- The services of a schema that was compiled have identifiers as their names. -/
theorem names_of_services (h : s.compile t = .ok c) {p : ServicePlan} (hp : p ∈ c.services) :
    Identifier p.name ∧ ∀ m ∈ p.methods, Identifier m.name := by
  have hverify := (compile_eq_ok h).1
  obtain ⟨hservices, hmethods⟩ := checkServices_eq_ok_iff.1 (verify_eq_ok_iff.1 hverify).2.2.2.2.2
  obtain ⟨service, hservice, hplan⟩ := exists_of_mem_mapM (services_of_compile h) hp
  have hplanned := Scope.plannedBy_of_mapService hplan
  refine ⟨?_, fun m hm => ?_⟩
  · rw [hplanned.name]
    exact hservices.identifiers _ (List.mem_map_of_mem hservice)
  · obtain ⟨method, hmethod, hm⟩ := exists_of_mem_left hplanned.methods.flip hm
    rw [hm.name]
    exact (hmethods service hservice).identifiers _ (List.mem_map_of_mem hmethod)

/-- Symbols of a compiled schema are identifiers. -/
theorem names_of_symbols (h : s.compile t = .ok c) {p : EnumPlan} (hp : p ∈ c.enums) :
    ∀ v ∈ p.values, Identifier v.name := by
  obtain ⟨hverify, -, -, -, henums, -⟩ := compile_eq_ok h
  rw [henums, enumPlans, List.mem_map] at hp
  obtain ⟨⟨e, i⟩, he, rfl⟩ := hp
  have hchecked := checkAll_eq_ok_iff.1 (verify_eq_ok_iff.1 hverify).2.2.2.1 e
    (List.fst_mem_of_mem_zipIdx he)
  exact fun v hv => (Enum.check_eq_ok_iff.1 hchecked).names.identifiers _ (List.mem_map_of_mem hv)

/-- Fields of a compiled schema are identifiers. -/
theorem names_of_fields (h : s.compile t = .ok c) {p : MessagePlan} (hp : p ∈ c.messages) :
    ∀ step ∈ p.steps, Identifier step.field := by
  obtain ⟨hverify, -, hmappings, hmessages, -⟩ := compile_eq_ok h
  obtain ⟨m, hm, fields, hfields, hsteps⟩ := exists_of_mem_messagePlans hmappings (hmessages ▸ hp)
  have hnames := (wellFormed_of_verify hverify hm).names.identifiers
  rw [← map_field_of_mapM hfields, ← hsteps] at hnames
  exact fun step hstep => hnames _ (List.mem_map_of_mem hstep)

/-- All names of a schema that was compiled are identifiers. -/
theorem identifiers_of_compile (h : s.compile t = .ok c) :
    (∀ name ∈ c.namesOfTypes, Identifier name) ∧ ∀ name ∈ c.namesOfFields, Identifier name := by
  have htypes := (names_of_verify (compile_eq_ok h).1).identifiers
  obtain ⟨hmessages, henums⟩ := map_name_of_compile h
  rw [typeNames, ← hmessages, ← henums, List.forall_mem_append] at htypes
  simp only [CompiledSchema.namesOfTypes, CompiledSchema.namesOfFields, List.forall_mem_append]
  refine ⟨⟨⟨⟨htypes.1, ?_⟩, htypes.2⟩, ?_⟩, ?_, ?_⟩
  · intro name hname
    obtain ⟨p, hp, hname⟩ := List.mem_flatMap.1 hname
    obtain ⟨v, hv, rfl⟩ := List.mem_map.1 hname
    exact names_of_symbols h hp v hv
  · intro name hname
    obtain ⟨p, hp, rfl⟩ := List.mem_map.1 hname
    exact (names_of_services h hp).1
  · intro name hname
    obtain ⟨p, hp, hname⟩ := List.mem_flatMap.1 hname
    obtain ⟨step, hstep, rfl⟩ := List.mem_map.1 hname
    exact names_of_fields h hp step hstep
  · intro name hname
    obtain ⟨p, hp, hname⟩ := List.mem_flatMap.1 hname
    obtain ⟨m, hm, rfl⟩ := List.mem_map.1 hname
    exact (names_of_services h hp).2 m hm

end Schema

namespace CompiledSchema.IsCompiled

variable {s : CompiledSchema} {p : MessagePlan}

theorem identifier_message (h : s.IsCompiled) (hp : p ∈ s.messages) :
    Text.Identifier p.name := by
  obtain ⟨t, schema, -, hcompile⟩ := h
  refine (Schema.identifiers_of_compile hcompile).1 _ ?_
  exact List.mem_append_left _ (List.mem_append_right _ (List.mem_map_of_mem hp))

theorem identifier_field (h : s.IsCompiled) (hp : p ∈ s.messages) {step : Step}
    (hstep : step ∈ p.steps) : Text.Identifier step.field := by
  obtain ⟨t, schema, -, hcompile⟩ := h
  refine (Schema.identifiers_of_compile hcompile).2 _ (List.mem_append_left _ ?_)
  exact List.mem_flatMap.2 ⟨p, hp, List.mem_map_of_mem hstep⟩

end CompiledSchema.IsCompiled

/-! ## Compilation -/

namespace Schema

variable {s : Schema} {t : ImportTable} {c : CompiledSchema}

theorem enumPlans_getElem? {i : Nat} {p : EnumPlan} :
    s.enumPlans[i]? = some p ↔ ∃ e, s.enums[i]? = some e ∧ .ofEnum i e = p := by
  simp [enumPlans]

/-- Plans are made in the same way without the extents that are recorded. -/
theorem messagePlans_withoutExtent {mappings : List (List FieldMapping)}
    (h : ∀ fields ∈ mappings, ∀ m ∈ fields, m.withoutExtent.step = m.step) :
    s.messagePlans (mappings.map (·.map FieldMapping.withoutExtent)) = s.messagePlans mappings := by
  simp only [messagePlans, List.zip_map_right, List.zipIdx_map, List.map_map]
  refine List.map_congr_left ?_
  rintro ⟨⟨m, fields⟩, i⟩ hmem
  have hfields : fields ∈ mappings := (List.of_mem_zip (List.fst_mem_of_mem_zipIdx hmem)).2
  have hsteps : (fields.map FieldMapping.withoutExtent).map FieldMapping.step =
      fields.map FieldMapping.step := by
    rw [List.map_map]
    exact List.map_congr_left (h fields hfields)
  exact congrArg (MessagePlan.mk ⟨.own, i⟩ m.name) hsteps

/-- A message that a method names can be followed. -/
theorem isSome_of_resolve? (h : s.compile t = .ok c) {name : String} {id : MessageId}
    (hname : (s.scope t).resolve? name = .ok (some (.message id))) :
    (c.messagePlan? id).isSome := by
  rw [← scope_of_compile h] at hname
  exact Scope.resolves_resolve? (describedBy_of_compile h) hname

/-- Every schema is planned by what it compiles to. -/
theorem plannedBy_of_compile (h : s.compile t = .ok c) : s.PlannedBy t c := by
  obtain ⟨hname, hpackage, horder⟩ := header_of_compile h
  obtain ⟨hmappings, hmessages⟩ := mappings_of_compile h
  obtain ⟨_, _, _, _, henums, _⟩ := compile_eq_ok h
  have hservices :=
    (mapM_eq_ok (services_of_compile h)).imp fun _ _ => Scope.plannedBy_of_mapService
  refine ⟨hname, hpackage, ⟨?_, ?_, ?_⟩, ?_, ?_, hservices, (consistent_of_compile h).resolves,
    ?_, ?_, ?_, ?_⟩
  · rw [hmessages, length_messagePlans hmappings]
  · exact (mapM_eq_ok hmappings).length_eq.symm
  · rw [henums, enumPlans, List.length_map, List.length_zipIdx]
  · intro i m fields p hm hfields hp
    obtain ⟨fields', hfields', hmap⟩ := exists_of_getElem? (mapM_eq_ok hmappings) hm
    -- The plan, the mappings and the message are all at the same index.
    obtain ⟨m', fields'', hm', hfields'', rfl⟩ := messagePlans_getElem?.1 (hmessages ▸ hp)
    cases hm.symm.trans hm'
    cases hfields.symm.trans hfields'
    cases hfields.symm.trans hfields''
    exact Scope.plannedBy_of_mapMessage hmap i
  · intro i e p he hp
    obtain ⟨e', he', rfl⟩ := enumPlans_getElem?.1 (henums ▸ hp)
    cases he.symm.trans he'
    exact ⟨rfl, rfl, rfl⟩
  · intro service hservice m hm id hid
    obtain ⟨service', _, hplanned⟩ := exists_of_mem_left hservices.flip hservice
    obtain ⟨m', _, hmethod⟩ := exists_of_mem_left hplanned.methods.flip hm
    simp only [List.mem_cons, List.not_mem_nil, or_false] at hid
    rcases hid with rfl | rfl
    · exact isSome_of_resolve? h hmethod.input
    · exact isSome_of_resolve? h hmethod.output
  · rw [hmessages]
    refine messagePlans_withoutExtent fun fields hfields mapping hmapping => ?_
    obtain ⟨m, _, hmap⟩ := exists_of_mem_mapM hmappings hfields
    obtain ⟨f, _, hf⟩ := exists_of_mem_mapM hmap hmapping
    obtain ⟨resolved, _, rfl, _⟩ := Scope.exists_of_mapField hf
    exact Scope.step_withoutExtent f resolved
  · rw [horder]
    exact Ascending.pairwise_keysOf _
  · intro i
    rw [horder]
    exact mem_usedImports

end Schema

open Sample

theorem plannedBy_of_compile_shapes :
    shapes.compile ⟨[("geo.proto", compiledGeo)]⟩ = .ok compiledShapes ∧
      shapes.PlannedBy ⟨[("geo.proto", compiledGeo)]⟩ compiledShapes :=
  ⟨compile_shapes, Schema.plannedBy_of_compile compile_shapes⟩

end Marshal
