import Marshal.Proofs.Emission
import Marshal.Proofs.Encoders
import Marshal.Proofs.Filling
import Marshal.Proofs.Placement

/-!
# What generated code refers to

Code is generated for a schema only if its names stay distinct. Every type that the code
of a compiled schema refers to is then found in its program, by the name that stands in
the code, and it is the type that was generated for the declaration:

* `Runs.findsMessage`, `Runs.findsEnum`: the types of the values of a message;
* `Runs.exists_defaultFields`: the default of a message, which is written as an object
  that has no fields. Going from a message to one it holds by value makes the rank
  smaller, and going to another module makes the program smaller, so that there are
  enough types in a program to go through.
-/

namespace Marshal

open Wire Value CompiledSchema

/-- An element is found by what no other element has. -/
theorem find?_of_unique {α : Type} {f : α → Bool} {l : List α} {a : α} (ha : a ∈ l)
    (hfa : f a = true) (h : ∀ b ∈ l, f b = true → b = a) : l.find? f = some a := by
  cases hfind : l.find? f with
  | none => exact absurd hfa (List.find?_eq_none.1 hfind a ha)
  | some b => rw [h b (List.mem_of_find?_eq_some hfind) (List.find?_some hfind)]

namespace Code

/-! ## Programs -/

theorem programs_eq (l : List CompiledSchema) :
    programs l = l.map fun s => (s.importAlias, program s) := by
  induction l with
  | nil => rfl
  | cons s l ih => rw [programs, ih, List.map_cons]

/-- The program of a schema has its types, and for each import that it uses the program
    of that. -/
theorem of_program {s : CompiledSchema} {prog : Program} (h : program s = .ok prog) :
    ∃ m, moduleOf s = .ok m ∧ prog.types = m.types ∧
      List.Forall₂ (fun i use => ∃ owner, s.imports[i]? = some owner ∧
        use.1 = owner.importAlias ∧ program owner = .ok use.2) s.order.imports prog.uses := by
  obtain ⟨name, package, imports, enums, messages, mappings, services, order⟩ := s
  rw [program] at h
  obtain ⟨m, hm, h⟩ := bind_eq_ok.1 h
  obtain ⟨uses, huses, h⟩ := bind_eq_ok.1 h
  cases Except.ok.inj h
  refine ⟨m, hm, rfl, (mapM_eq_ok huses).imp fun i use huse => ?_⟩
  rw [programs_eq, List.getElem?_map] at huse
  cases howner : imports[i]? with
  | none =>
    rw [howner] at huse
    cases huse
  | some owner =>
    rw [howner] at huse
    obtain ⟨used, hused, rfl⟩ := map_eq_ok.1 huse
    exact ⟨owner, rfl, rfl, hused⟩

/-- The program of a compiled schema. -/
structure Runs (s : CompiledSchema) (prog : Program) : Prop where
  isCompiled : s.IsCompiled
  program_eq : program s = .ok prog

/-- The items of a module are the code of enums and of messages. -/
theorem typeItem_eq_ok {s : CompiledSchema} {d : Declaration} {item : TypeItem}
    (h : typeItem s d = .ok item) :
    (∃ p ∈ s.enums, item = .enum (enumCode p)) ∨
      ∃ p ∈ s.messages, ∃ code, structCode s p = .ok code ∧ item = .struct code := by
  cases d with
  | enum i =>
    rw [typeItem] at h
    split at h
    · rename_i p hp
      cases Except.ok.inj h
      exact .inl ⟨p, List.mem_of_getElem? hp, rfl⟩
    · cases h
  | message i =>
    rw [typeItem] at h
    split at h
    · rename_i p hp
      obtain ⟨code, hcode, rfl⟩ := map_eq_ok.1 h
      exact .inr ⟨p, List.mem_of_getElem? hp, code, hcode, rfl⟩
    · cases h

theorem name_enumCode (e : EnumPlan) : (TypeItem.enum (enumCode e)).name = typeIdent e.name := by
  rw [TypeItem.name, enumCode]

/-- A message has the fields, the encoder and the decoder of its steps. -/
theorem structCode_eq_ok {s : CompiledSchema} {p : MessagePlan} {code : StructCode}
    (h : structCode s p = .ok code) :
    code.name = typeIdent p.name ∧ p.steps.mapM (fieldCode s) = .ok code.fields ∧
      code.encoder = p.steps.flatMap encodeField ∧
      ∃ parts, p.steps.mapM (decodeStep s) = .ok parts ∧ code.decoder = parts.flatten := by
  obtain ⟨fields, hfields, h⟩ := bind_eq_ok.1 h
  obtain ⟨parts, hparts, h⟩ := bind_eq_ok.1 h
  cases Except.ok.inj h
  refine ⟨?_, hfields, rfl, parts, hparts, rfl⟩
  dsimp only

namespace Runs

variable {s owner : CompiledSchema} {prog : Program} {p : MessagePlan} {step : Step}

theorem wellFormed (h : Runs s prog) : s.WellFormed := h.isCompiled.wellFormed

theorem complete (h : Runs s prog) : s.Complete := by
  obtain ⟨_, _, _, hcompile⟩ := h.isCompiled
  exact Schema.complete_of_compile hcompile

theorem order_eq (h : Runs s prog) : s.order = emissionOrder s.enums s.messages s.services := by
  obtain ⟨_, _, _, hcompile⟩ := h.isCompiled
  exact (Schema.header_of_compile hcompile).2.2

/-! ### Names -/

theorem not_collides (h : Runs s prog) : ¬s.Collides := by
  obtain ⟨m, hm, -⟩ := of_program h.program_eq
  obtain ⟨_, hnames, -⟩ := bind_eq_ok.1 hm
  rw [checkNames_eq h.complete.imports] at hnames
  obtain ⟨used, hused, -⟩ := bind_eq_ok.1 hnames
  rw [collides_iff]
  rintro ⟨scope, hscope, hnodup⟩
  exact hnodup (nodup_of_takeItems nodup_reserved hused scope hscope)

/-- All names that the module has at its top are different. -/
theorem nodup_module (h : Runs s prog) :
    (s.enums.map (typeIdent ·.name) ++ s.messages.map (typeIdent ·.name) ++
      s.services.map (typeIdent ·.name) ++ s.emittedImports.map (·.importAlias)).Nodup := by
  by_contra hnodup
  exact h.not_collides (.module hnodup)

/-- The names of the fields of a message stay distinct in its code. -/
theorem nodup_fields (h : Runs s prog) (hp : p ∈ s.messages) :
    (p.steps.map (fieldIdent ·.field)).Nodup := by
  by_contra hnodup
  exact h.not_collides (.fields hp hnodup)

theorem nodup_types (h : Runs s prog) :
    (s.enums.map (typeIdent ·.name) ++ s.messages.map (typeIdent ·.name)).Nodup :=
  (h.nodup_module.sublist (List.sublist_append_left _ _)).sublist (List.sublist_append_left _ _)

/-- No enum has the name of a message in code. -/
theorem ident_ne (h : Runs s prog) {e : EnumPlan} (he : e ∈ s.enums) (hp : p ∈ s.messages) :
    typeIdent e.name ≠ typeIdent p.name := by
  intro heq
  have hmem := List.mem_map_of_mem (f := fun q : MessagePlan => typeIdent q.name) hp
  rw [← heq] at hmem
  exact List.disjoint_of_nodup_append h.nodup_types
    (List.mem_map_of_mem (f := fun e : EnumPlan => typeIdent e.name) he) hmem

/-! ### Types -/

/-- The types of a program are the code of the declarations, in their order. -/
theorem types_eq (h : Runs s prog) : s.order.declarations.mapM (typeItem s) = .ok prog.types := by
  obtain ⟨m, hm, htypes, -⟩ := of_program h.program_eq
  obtain ⟨_, -, hm⟩ := bind_eq_ok.1 hm
  obtain ⟨uses, -, hm⟩ := bind_eq_ok.1 hm
  obtain ⟨types, hmapM, hm⟩ := bind_eq_ok.1 hm
  obtain ⟨traits, -, hm⟩ := bind_eq_ok.1 hm
  cases Except.ok.inj hm
  rw [htypes, hmapM]

/-- All declarations of the schema are emitted, and each of them once. -/
theorem exists_declarations (h : Runs s prog) : ∃ messages : List Nat,
    s.order.declarations = (List.range s.enums.length).map .enum ++ messages.map .message ∧
      messages.Perm (List.range s.messages.length) := by
  obtain ⟨messages, horder, hperm, -⟩ := declarationOrder_respects s.enums
    fun q hq step hstep j hshape => MessagePlan.lt_of_mem_valueEdges (h.complete.steps q hq)
      (MessagePlan.mem_valueEdges.2 ⟨step, hstep, rfl, hshape⟩)
  exact ⟨messages, by rw [h.order_eq]; exact horder, hperm⟩

theorem length_messages_le (h : Runs s prog) : s.messages.length ≤ prog.types.length := by
  obtain ⟨messages, horder, hperm⟩ := h.exists_declarations
  have hlength := (mapM_eq_ok h.types_eq).length_eq
  rw [horder, List.length_append, List.length_map, List.length_map, hperm.length_eq,
    List.length_range, List.length_range] at hlength
  omega

/-- A message is found by its name. -/
theorem find?_message (h : Runs s prog) (hp : p ∈ s.messages) : ∃ code,
    structCode s p = .ok code ∧
      prog.types.find? (·.name = typeIdent p.name) = some (.struct code) := by
  obtain ⟨messages, horder, hperm⟩ := h.exists_declarations
  obtain ⟨i, hi, hpi⟩ := List.getElem_of_mem hp
  have hmem : .message i ∈ s.order.declarations := by
    rw [horder]
    exact List.mem_append_right _ (List.mem_map_of_mem (hperm.mem_iff.2 (List.mem_range.2 hi)))
  obtain ⟨item, hitem, htype⟩ := exists_of_mem_left (mapM_eq_ok h.types_eq) hmem
  rw [typeItem, List.getElem?_eq_getElem hi, hpi] at htype
  obtain ⟨code, hcode, rfl⟩ := map_eq_ok.1 htype
  have hname := (structCode_eq_ok hcode).1
  refine ⟨code, hcode, find?_of_unique hitem (decide_eq_true hname) fun other hother heq => ?_⟩
  replace heq := of_decide_eq_true heq
  obtain ⟨d, -, hd⟩ := exists_of_mem_mapM h.types_eq hother
  -- Of the types with this name there is only the one of the message itself.
  rcases typeItem_eq_ok hd with ⟨e, he, rfl⟩ | ⟨q, hq, code', hcode', rfl⟩
  · rw [name_enumCode] at heq
    exact absurd heq (h.ident_ne he hp)
  · rw [TypeItem.name, (structCode_eq_ok hcode').1] at heq
    have hqp := List.inj_on_of_nodup_map h.nodup_types.of_append_right hq hp heq
    rw [hqp, hcode] at hcode'
    cases Except.ok.inj hcode'
    rfl

/-- An enum is found by its name. -/
theorem find?_enum (h : Runs s prog) {e : EnumPlan} (he : e ∈ s.enums) :
    prog.types.find? (·.name = typeIdent e.name) = some (.enum (enumCode e)) := by
  obtain ⟨messages, horder, -⟩ := h.exists_declarations
  obtain ⟨i, hi, hei⟩ := List.getElem_of_mem he
  have hmem : .enum i ∈ s.order.declarations := by
    rw [horder]
    exact List.mem_append_left _ (List.mem_map_of_mem (List.mem_range.2 hi))
  obtain ⟨item, hitem, hcode⟩ := exists_of_mem_left (mapM_eq_ok h.types_eq) hmem
  rw [typeItem, List.getElem?_eq_getElem hi, hei] at hcode
  cases Except.ok.inj hcode
  -- Another item of the same name would be the code of an enum or of a message.
  refine find?_of_unique hitem (decide_eq_true (name_enumCode e)) fun other hother heq => ?_
  replace heq := of_decide_eq_true heq
  obtain ⟨d, -, hd⟩ := exists_of_mem_mapM h.types_eq hother
  rcases typeItem_eq_ok hd with ⟨e', he', rfl⟩ | ⟨q, hq, code', hcode', rfl⟩
  · rw [name_enumCode] at heq
    rw [List.inj_on_of_nodup_map h.nodup_types.of_append_left he' he heq]
  · rw [TypeItem.name, (structCode_eq_ok hcode').1] at heq
    exact absurd heq.symm (h.ident_ne he hq)

/-! ### Uses -/

theorem mem_sizeAll {uses : List (String × Program)} {use : String × Program} (h : use ∈ uses) :
    use.2.size ≤ Program.sizeAll uses := by
  induction uses with
  | nil => exact absurd h List.not_mem_nil
  | cons first uses ih =>
    rw [Program.sizeAll]
    rcases List.mem_cons.1 h with rfl | h
    · exact Nat.le_add_right _ _
    · exact (ih h).trans (Nat.le_add_left _ _)

/-- A program uses the imports of the schema that it refers to, under their aliases. -/
theorem map_fst_uses (h : Runs s prog) :
    prog.uses.map (·.1) = s.emittedImports.map (·.importAlias) := by
  obtain ⟨-, -, -, huses⟩ := of_program h.program_eq
  rw [emittedImports]
  generalize s.order.imports = positions at huses
  generalize prog.uses = uses at huses
  induction huses with
  | nil => rfl
  | cons huse _ ih =>
    obtain ⟨owner, howner, hname, -⟩ := huse
    rw [List.filterMap_cons_some howner, List.map_cons, List.map_cons, hname, ih]

/-- An import that the schema refers to is found by its alias. -/
theorem get?_uses (h : Runs s prog) {i : Nat} (hi : s.RefersTo i)
    (howner : s.imports[i]? = some owner) : ∃ used,
      Ascending.get? owner.importAlias prog.uses = some used ∧ Runs owner used ∧
        used.size ≤ Program.sizeAll prog.uses := by
  obtain ⟨-, -, -, huses⟩ := of_program h.program_eq
  have hmem : i ∈ s.order.imports := by
    rw [h.order_eq]
    exact mem_usedImports.2 hi
  obtain ⟨⟨qualifier, used⟩, huse, owner', howner', rfl, hused⟩ := exists_of_mem_left huses hmem
  cases howner.symm.trans howner'
  have hnodup : (prog.uses.map (·.1)).Nodup := by
    rw [h.map_fst_uses]
    exact h.nodup_module.of_append_right
  exact ⟨used, Ascending.get?_of_mem hnodup huse,
    ⟨h.isCompiled.of_mem_imports (List.mem_of_getElem? howner), hused⟩, mem_sizeAll huse⟩

end Runs

/-! ## Values -/

section Types

variable {prog used : Program} {item : TypeItem} {name qualifier : String}

theorem type?_own (h : prog.types.find? (·.name = name) = some item) :
    prog.type? ⟨none, name⟩ = some (prog, item) := by
  change (prog.types.find? _ >>= fun item => some (prog, item)) = _
  rw [h]
  rfl

/-- A type of an import is found in the program of the import. -/
theorem type?_imported (hused : Ascending.get? qualifier prog.uses = some used)
    (h : used.types.find? (·.name = name) = some item) :
    prog.type? ⟨some qualifier, name⟩ = some (used, item) := by
  change (Ascending.get? qualifier prog.uses >>= fun owner =>
    owner.types.find? _ >>= fun item => some (owner, item)) = _
  rw [hused]
  change (used.types.find? _ >>= fun item => some (used, item)) = _
  rw [h]
  rfl

end Types

/-- What code finds for a message that it refers to. -/
structure FindsMessage (s : CompiledSchema) (prog : Program) (id : MessageId)
    (owner : CompiledSchema) (p : MessagePlan) (used : Program) (code : StructCode) : Prop where
  type : messageType s id = .ok (typePath id.origin owner p.name)
  plan : s.messagePlan? id = some (owner, p)
  found : prog.type? (typePath id.origin owner p.name) = some (used, .struct code)
  code : structCode owner p = .ok code
  runs : Runs owner used
  /-- The message is of the same module, or of one in a smaller program. -/
  smaller : id.origin = .own ∧ used = prog ∨ used.size ≤ Program.sizeAll prog.uses

namespace Runs

variable {s owner : CompiledSchema} {prog : Program} {p : MessagePlan} {step : Step}

/-- A message that a field refers to is found. -/
theorem findsMessage (h : Runs s prog) (hp : p ∈ s.messages) (hstep : step ∈ p.steps)
    {id : MessageId} (hv : .nested id ∈ step.shape.values) :
    ∃ owner q used code, FindsMessage s prog id owner q used code := by
  have hres : (s.messagePlan? id).isSome := h.complete.steps p hp step hstep _ hv
  obtain ⟨⟨owner, q⟩, hplan⟩ := Option.isSome_iff_exists.1 hres
  obtain ⟨howner, hq⟩ := messagePlan?_eq_some.1 hplan
  have htype : messageType s id = .ok (typePath id.origin owner q.name) := by
    rw [messageType, hplan]
  obtain ⟨_ | i, index⟩ := id
  · cases Option.some.inj howner
    obtain ⟨code, hcode, hfind⟩ := h.find?_message (List.mem_of_getElem? hq)
    refine ⟨s, q, prog, code, htype, hplan, ?_, hcode, h, .inl ⟨rfl, rfl⟩⟩
    rw [typePath]
    exact type?_own hfind
  · obtain ⟨used, hget, hruns, hsize⟩ := h.get?_uses (.message hp hstep hv) howner
    obtain ⟨code, hcode, hfind⟩ := hruns.find?_message (List.mem_of_getElem? hq)
    refine ⟨owner, q, used, code, htype, hplan, ?_, hcode, hruns, .inr hsize⟩
    rw [typePath]
    exact type?_imported hget hfind

/-- An enum that a field refers to is found. -/
theorem findsEnum (h : Runs s prog) (hp : p ∈ s.messages) (hstep : step ∈ p.steps)
    {id : EnumId} (hv : .enum id ∈ step.shape.values) : ∃ path used e,
      enumType s id = .ok path ∧ s.enumPlan? id = some e ∧
        prog.type? path = some (used, .enum (enumCode e)) := by
  have hres : (s.enumPlan? id).isSome := h.complete.steps p hp step hstep _ hv
  obtain ⟨e, he⟩ := Option.isSome_iff_exists.1 hres
  obtain ⟨owner, howner, hmem⟩ := enumPlan?_eq_some.1 he
  have htype : enumType s id = .ok (typePath id.origin owner e.name) := by
    rw [enumType, howner, he]
  obtain ⟨_ | i, index⟩ := id
  · cases Option.some.inj howner
    refine ⟨_, prog, e, htype, he, ?_⟩
    rw [typePath]
    exact type?_own (h.find?_enum (List.mem_of_getElem? hmem))
  · obtain ⟨used, hget, hruns, -⟩ := h.get?_uses (.enum hp hstep hv) howner
    refine ⟨_, used, e, htype, he, ?_⟩
    rw [typePath]
    exact type?_imported hget (hruns.find?_enum (List.mem_of_getElem? hmem))

end Runs

/-! ## Defaults -/

theorem Program.size_eq (prog : Program) :
    prog.size = prog.types.length + Program.sizeAll prog.uses := by
  cases prog
  rw [Program.size]

/-- Where there are sequences and maps, they are empty. -/
def EmptyFor : Shape → Datum → Prop
  | .single _, _ | .optional _, _ => True
  | .repeated _ _, x => x = .vec []
  | .map _ _ _, x => x = .map []

/-- A datum that stands in for a field: it is written as one that is missing. -/
structure MatchesAbsent (s : CompiledSchema) (step : Step) (x : Datum) : Prop where
  matches_none : MatchesField s step x none
  empty : EmptyFor step.shape x

/-- The fields have the names of the steps in generated code, and stand in for those. -/
def MatchAbsent (s : CompiledSchema) : List Step → List (String × Datum) → Prop :=
  List.Forall₂ fun step d => d.1 = fieldIdent step.field ∧ MatchesAbsent s step d.2

/-- A message has a default, all of whose fields are written as missing ones. -/
def HasDefault (message : Program → StructCode → Option Datum) (owner : CompiledSchema)
    (p : MessagePlan) (used : Program) (code : StructCode) : Prop :=
  ∃ ds, message used code = some (.struct code ds) ∧ MatchAbsent owner p.steps ds

section Default

variable {s : CompiledSchema} {prog : Program} {p : MessagePlan}
  {message : Program → StructCode → Option Datum}

/-- Defaults match the fields of an object that has none. -/
theorem MatchAbsent.matchFields {steps : List Step} {ds : List (String × Datum)}
    (h : MatchAbsent s steps ds) : MatchFields s steps ds [] := by
  induction h with
  | nil => exact .nil
  | @cons step d _ _ hd _ ih =>
    obtain ⟨name, x⟩ := d
    obtain ⟨rfl, hx⟩ := hd
    exact .cons hx.matches_none ih

/-- A message with such a default is written as an object that has no fields. -/
theorem MatchAbsent.object (h : Runs s prog) (hp : p ∈ s.messages) {code : StructCode}
    (hcode : structCode s p = .ok code) {ds : List (String × Datum)}
    (hds : MatchAbsent s p.steps ds) :
    MatchesObject s p (.struct code ds) (.object p.name []) :=
  hds.matchFields.object (structCode_eq_ok hcode).2.2.1 (h.nodup_fields hp)
    (h.wellFormed.consistent.fields p hp)

/-- The default of an enum has the number of the first symbol. -/
theorem view_first (e : EnumPlan) :
    (Datum.first (enumCode e)).view = .symbol (some e.default) := by
  obtain ⟨id, name, _ | ⟨value, values⟩⟩ := e <;> rfl

/-- The default of a value is written as one that is missing. -/
theorem Runs.exists_default (h : Runs s prog) (hp : p ∈ s.messages) {step : Step}
    (hstep : step ∈ p.steps) {v : ValueStep} (hv : step.shape = .single v)
    (hmessage : ∀ id owner q used code, v = .nested id → FindsMessage s prog id owner q used code →
      HasDefault message owner q used code) :
    ∃ type x b, valueType s v = .ok type ∧ Program.defaultBy message prog type = some x ∧
      writeView v x.view = some b ∧ s.defaultBytes v = .ok b := by
  have hmem : v ∈ step.shape.values := hv ▸ List.mem_singleton_self v
  cases v with
  | scalar q =>
    refine ⟨_, _, q.write q.zero, rfl, rfl, ?_, defaultBytesWithin_scalar s _ q⟩
    cases q <;> rfl
  | enum id =>
    obtain ⟨path, used, e, htype, he, hfound⟩ := h.findsEnum hp hstep hmem
    have hbytes : s.defaultBytes (.enum id) =
        .ok (Primitive.ofEnum.write e.default.toUInt32) := by
      rw [defaultBytes, defaultBytesWithin_enum, defaultEnum, he]
    refine ⟨_, .first (enumCode e), _, map_eq_ok.2 ⟨path, htype, rfl⟩, ?_, ?_, hbytes⟩
    · rw [Program.defaultBy, hfound]
    · rw [view_first]
      rfl
  | nested id =>
    obtain ⟨owner, q, used, code, hfinds⟩ := h.findsMessage hp hstep hmem
    obtain ⟨ds, hdefault, hds⟩ := hmessage id owner q used code rfl hfinds
    have hq := List.mem_of_getElem? (messagePlan?_eq_some.1 hfinds.plan).2
    obtain ⟨b, hb, hw⟩ := hds.object hfinds.runs hq hfinds.code
    have hbytes : s.defaultBytes (.nested id) = .ok (framed b) := by
      rw [defaultBytes_nested h.wellFormed hfinds.plan ""]
      exact congrArg (framed <$> ·) (hw "")
    refine ⟨_, .struct code ds, _, map_eq_ok.2 ⟨_, hfinds.type, rfl⟩, ?_, ?_, hbytes⟩
    · rw [Program.defaultBy, hfinds.found]
      exact hdefault
    · rw [hb]
      rfl

/-- The default of a field is written as one that is missing. -/
theorem Runs.exists_defaultField (h : Runs s prog) (hp : p ∈ s.messages) {step : Step}
    (hstep : step ∈ p.steps)
    (hmessage : ∀ id owner q used code, step.shape = .single (.nested id) →
      FindsMessage s prog id owner q used code → HasDefault message owner q used code)
    {type : TypeExpr} (htype : fieldType s step.shape = .ok type) :
    ∃ x, Program.defaultBy message prog type = some x ∧ MatchesAbsent s step x := by
  have hshape : ∃ shape, step.shape = shape := ⟨_, rfl⟩
  obtain ⟨shape, hshape⟩ := hshape
  rw [hshape] at htype
  cases shape with
  | single v =>
    obtain ⟨_, x, b, htype', hx, hb, hbytes⟩ := h.exists_default hp hstep hshape
      fun id owner q used code hv => hmessage id owner q used code (hv ▸ hshape)
    cases htype.symm.trans htype'
    refine ⟨x, hx, ⟨b, hshape ▸ .single hb, ?_⟩, hshape ▸ trivial⟩
    change step.shape.absent _ = _
    rw [hshape]
    exact hbytes
  | optional v =>
    -- A message is boxed in its option, and other values are not.
    have hoption : ∃ inner, type = .option inner := by
      cases v with
      | scalar | enum | nested =>
        obtain ⟨inner, -, rfl⟩ := map_eq_ok.1 htype
        exact ⟨_, rfl⟩
    obtain ⟨inner, rfl⟩ := hoption
    exact ⟨_, rfl, matches_absent hshape, hshape ▸ trivial⟩
  | repeated v e =>
    obtain ⟨inner, -, rfl⟩ := map_eq_ok.1 htype
    refine ⟨.vec [], rfl, ⟨_, by rw [hshape, Datum.view]; exact .repeated e .nil, ?_⟩, ?_⟩
    · change step.shape.absent _ = _
      rw [hshape]
      rfl
    · rw [hshape]
      rfl
  | map k v e =>
    obtain ⟨key, -, htype⟩ := bind_eq_ok.1 htype
    obtain ⟨value, -, htype⟩ := bind_eq_ok.1 htype
    cases Except.ok.inj htype
    refine ⟨.map [], rfl, ⟨_, by rw [hshape, Datum.view]; exact .map e .nil, ?_⟩, ?_⟩
    · change step.shape.absent _ = _
      rw [hshape]
      rfl
    · rw [hshape]
      rfl

/-- The defaults of fields, given those of the messages that they hold by value. -/
theorem Runs.exists_defaultFieldsBy (h : Runs s prog) (hp : p ∈ s.messages) {code : StructCode}
    (hcode : structCode s p = .ok code)
    (hmessage : ∀ step ∈ p.steps, ∀ id owner q used code, step.shape = .single (.nested id) →
      FindsMessage s prog id owner q used code → HasDefault message owner q used code) :
    ∃ ds, Program.defaultFieldsBy message prog code.fields = some ds ∧
      MatchAbsent s p.steps ds := by
  -- The induction is on some of the steps, which are all of the message.
  have hall : ∀ {steps : List Step} {fields : List FieldCode},
      List.Forall₂ (fun step field => fieldCode s step = .ok field) steps fields →
      (∀ step ∈ steps, step ∈ p.steps) →
      ∃ ds, Program.defaultFieldsBy message prog fields = some ds ∧ MatchAbsent s steps ds := by
    intro steps fields hfields hsteps
    induction hfields with
    | nil => exact ⟨[], rfl, .nil⟩
    | @cons step field steps fields hfield _ ih =>
      obtain ⟨hstep, hsteps⟩ := List.forall_mem_cons.1 hsteps
      obtain ⟨type, htype, hfield⟩ := bind_eq_ok.1 hfield
      cases Except.ok.inj hfield
      obtain ⟨x, hx, hmatches⟩ := h.exists_defaultField hp hstep (hmessage step hstep) htype
      obtain ⟨ds, hds, hrest⟩ := ih hsteps
      refine ⟨(fieldIdent step.field, x) :: ds, ?_, .cons ⟨rfl, hmatches⟩ hrest⟩
      simp only [Program.defaultFieldsBy, hx, hds, Option.bind_eq_bind, Option.bind_some,
        Option.pure_def]
  exact hall (mapM_eq_ok (structCode_eq_ok hcode).2.1) fun _ => id

/-- The message at a position has a default with as many levels as its rank asks for, and
    those of the programs that are used. -/
theorem exists_defaultWithin (fuel : Nat) {s : CompiledSchema} {prog : Program} (h : Runs s prog)
    {rank : Nat → Nat}
    (hrank : ∀ i p, s.messages[i]? = some p →
      rank i < s.messages.length ∧ ∀ e ∈ p.valueEdges, rank e.2 < rank i)
    {i : Nat} {p : MessagePlan} (hp : s.messages[i]? = some p) {code : StructCode}
    (hcode : structCode s p = .ok code) (hfuel : rank i + Program.sizeAll prog.uses < fuel) :
    HasDefault (Program.defaultWithin fuel) s p prog code := by
  induction fuel generalizing s prog rank i p code with
  | zero => exact absurd hfuel (Nat.not_lt_zero _)
  | succ fuel ih =>
    have hheld : ∀ step ∈ p.steps, ∀ id owner q used code, step.shape = .single (.nested id) →
        FindsMessage s prog id owner q used code →
        HasDefault (Program.defaultWithin fuel) owner q used code := by
      intro step hstep id owner q used code hshape hfinds
      obtain ⟨howner, hq⟩ := messagePlan?_eq_some.1 hfinds.plan
      rcases hfinds.smaller with ⟨horigin, rfl⟩ | hsize
      · -- Within the module, messages held by value have a smaller rank.
        obtain ⟨origin, j⟩ := id
        cases horigin
        cases Option.some.inj howner
        have hlt : rank j < rank i :=
          (hrank i p hp).2 _ (MessagePlan.mem_valueEdges.2 ⟨step, hstep, rfl, hshape⟩)
        exact ih h hrank (i := j) hq hfinds.code (by omega)
      · -- The program of another module is smaller as a whole.
        obtain ⟨rank', hrank'⟩ := hfinds.runs.wellFormed.consistent.rank
        have hlt := (hrank' _ q hq).1
        have hlength := hfinds.runs.length_messages_le
        have hparts := used.size_eq
        exact ih hfinds.runs hrank' hq hfinds.code (by omega)
    obtain ⟨ds, hds, hmatch⟩ := h.exists_defaultFieldsBy (List.mem_of_getElem? hp) hcode hheld
    exact ⟨ds, by rw [Program.defaultWithin, hds]; rfl, hmatch⟩

/-- Putting a field goes along with sorting the maps in it. -/
theorem sortMapsFields_put (step : Step) (w : Option Value) (fields : List (String × Value)) :
    sortMapsFields (step.put w fields) = step.put (w.map sortMaps) (sortMapsFields fields) := by
  cases w <;> rfl

mutual

/-- There are no entries to sort in a default. -/
theorem sortMaps_of_isDefault {s : CompiledSchema} {v : ValueStep} {w : Value} :
    IsDefault s v w → w.sortMaps = w
  | .scalar => sortMaps_toValue _ _
  | .enum _ => rfl
  | @IsDefault.nested _ _ _ _ fields _ hfields => by
    have hsort := sortMapsFields_of_standInFor hfields
    rw [sortMapsFields_eq] at hsort
    rw [record, sortMaps, sortMapsFields_eq,
      ← Ascending.ofPairs_mapValues (fun _ w => w.sortMaps) fields, hsort]

/-- There are no maps to be sorted in what stands in for a field. -/
theorem sortMaps_of_standsIn {s : CompiledSchema} {shape : Shape} {w : Option Value} :
    StandsIn s shape w → w.map sortMaps = w
  | .single hw => congrArg some (sortMaps_of_isDefault hw)
  | .optional | .repeated | .map => rfl

/-- Nor are there in the fields that stand in for those of an object. -/
theorem sortMapsFields_of_standInFor {s : CompiledSchema} {steps : List Step}
    {fields : List (String × Value)} : StandInFor s steps fields → sortMapsFields fields = fields
  | .nil => rfl
  | @StandInFor.cons _ step _ _ _ hw hfields => by
    rw [sortMapsFields_put, sortMapsFields_of_standInFor hfields]
    split
    · rfl
    · rw [sortMaps_of_standsIn hw]

end

/-- The defaults of generated code match those of the plan. -/
theorem MatchAbsent.defaults (hs : s.WellFormed) (hp : p ∈ s.messages) {steps : List Step}
    (hsteps : steps ⊆ p.steps) {ds : List (String × Datum)} (h : MatchAbsent s steps ds) :
    MatchFields s steps ds (s.defaults steps) := by
  induction h with
  | nil => exact .nil
  | @cons step d steps ds hd _ ih =>
    obtain ⟨name, x⟩ := d
    obtain ⟨rfl, hx⟩ := hd
    obtain ⟨hstep, hrest⟩ := List.cons_subset.1 hsteps
    rw [CompiledSchema.defaults, fieldsBy_cons]
    refine .cons ?_ (ih hrest)
    split
    · exact hx.matches_none
    · obtain ⟨b, hview, hnone⟩ := hx.matches_none
      refine ⟨b, hview, ?_⟩
      have hw := standsIn_default? hs hp hstep
      change encodeFieldBy (Option.map (fieldEncoder ∘ sortMaps) _) s step = _
      rw [← Option.map_map, sortMaps_of_standsIn hw, hw.encodeFieldBy_eq hs rfl]
      exact hnone

end Default

end Code

end Marshal
