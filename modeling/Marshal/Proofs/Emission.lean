import Marshal.Code.Emit
import Marshal.Proofs.Planning

/-!
# When code is generated

Code is generated for a compiled schema unless two of its names become the same in one scope
(`CompiledSchema.Collides`). There are no other reasons to fail:

* names are taken one after the other, in the module and in the scope of each declaration
  (`Code.Item`), and what is reported is a name that stands where it is taken already
  (`Code.NameScope.Retakes`): `retakes_of_takeItems_error`, `nodup_of_takeItems`;
* all that code refers to is there in a schema that has been compiled
  (`CompiledSchema.Complete`), so that every part of it is written: `complete_of_compile`,
  `exists_moduleParts`.

Together: `emit_fails_iff_collides`.
-/

namespace Marshal

/-! ## Names -/

namespace Code

/-- A name of a schema, with what it becomes in generated code. -/
structure Entry where
  what : Named
  name : String
  ident : String

/-- Names that have to stay distinct, also from those that are reserved. -/
structure NameScope where
  reserved : List String
  entries : List Entry

/-- A name of a module, with the scope of the names inside what carries it. -/
structure Item where
  entry : Entry
  members : NameScope

/-- All that is taken in a scope, in this order. -/
def NameScope.idents (s : NameScope) : List String := s.reserved ++ s.entries.map (·.ident)

/-- The entry stands in the scope where its name is taken already. -/
def NameScope.Retakes (s : NameScope) (e : Entry) : Prop :=
  ∃ before after, s.entries = before ++ e :: after ∧
    e.ident ∈ s.reserved ++ before.map (·.ident)

/-- The error about an entry whose name is taken already. -/
def Entry.taken (e : Entry) : EmitError := .nameTaken e.what e.name e.ident

/-- Takes the name of an entry. -/
def takeEntry (taken : List String) (e : Entry) : Except EmitError (List String) :=
  takeName e.what e.name e.ident taken

/-- Takes a name of the module, and those inside what carries it. -/
def takeItem (taken : List String) (i : Item) : Except EmitError (List String) := do
  let taken ← takeEntry taken i.entry
  let _ ← i.members.entries.foldlM takeEntry i.members.reserved
  return taken

/-- Where a name is taken again, the names of the scope are not different. -/
theorem NameScope.Retakes.not_nodup {s : NameScope} {e : Entry} (h : s.Retakes e) :
    ¬s.idents.Nodup := by
  obtain ⟨before, after, hentries, hmem⟩ := h
  rw [idents, hentries, List.map_append, List.map_cons, ← List.append_assoc]
  exact fun hnodup => (List.nodup_append.1 hnodup).2.2 _ hmem _ List.mem_cons_self rfl

section Taking

variable {taken used : List String} {e : EmitError}

/-- A name can be taken only if it is not taken yet, and is so from then on. -/
theorem takeEntry_eq_ok {entry : Entry} (h : takeEntry taken entry = .ok used) :
    entry.ident ∉ taken ∧ used = entry.ident :: taken := by
  rw [takeEntry, takeName] at h
  split at h <;> cases h
  exact ⟨‹_›, rfl⟩

/-- Only a name that is taken is refused, with the error of its entry. -/
theorem takeEntry_eq_error {entry : Entry} (h : takeEntry taken entry = .error e) :
    entry.ident ∈ taken ∧ e = entry.taken := by
  rw [takeEntry, takeName] at h
  split at h <;> cases h
  exact ⟨‹_›, rfl⟩

/-- Names that could be taken are distinct, and are those taken now. -/
theorem nodup_of_takeEntries {entries : List Entry}
    (h : entries.foldlM takeEntry taken = .ok used) :
    used = (entries.map (·.ident)).reverse ++ taken ∧ (taken.Nodup → used.Nodup) := by
  induction entries generalizing taken with
  | nil =>
    cases Except.ok.inj h
    exact ⟨rfl, id⟩
  | cons entry entries ih =>
    rw [List.foldlM_cons] at h
    obtain ⟨taken', hentry, h⟩ := bind_eq_ok.1 h
    obtain ⟨hfresh, rfl⟩ := takeEntry_eq_ok hentry
    obtain ⟨rfl, hnodup⟩ := ih h
    refine ⟨by simp, fun htaken => hnodup (List.nodup_cons.2 ⟨hfresh, htaken⟩)⟩

/-- Of the entries of a scope, one that is refused takes a name again. -/
theorem retakes_of_takeEntries_error {s : NameScope}
    (h : s.entries.foldlM takeEntry s.reserved = .error e) :
    ∃ entry, s.Retakes entry ∧ e = entry.taken := by
  obtain ⟨before, entry, after, state, hentries, hbefore, herror⟩ := exists_of_foldlM_error h
  obtain ⟨hmem, he⟩ := takeEntry_eq_error herror
  obtain ⟨rfl, -⟩ := nodup_of_takeEntries hbefore
  refine ⟨entry, ⟨before, after, hentries, ?_⟩, he⟩
  simpa [or_comm] using hmem

/-- Where items could be taken, so could their names, and all names inside them. -/
theorem takeItems_eq_ok {items : List Item} (h : items.foldlM takeItem taken = .ok used) :
    (items.map (·.entry)).foldlM takeEntry taken = .ok used ∧
      ∀ i ∈ items, ∃ inner, i.members.entries.foldlM takeEntry i.members.reserved = .ok inner := by
  induction items generalizing taken with
  | nil => exact ⟨h, by simp⟩
  | cons i items ih =>
    rw [List.foldlM_cons] at h
    obtain ⟨taken', hi, h⟩ := bind_eq_ok.1 h
    obtain ⟨_, hentry, hi⟩ := bind_eq_ok.1 hi
    obtain ⟨inner, hinner, hi⟩ := bind_eq_ok.1 hi
    cases Except.ok.inj hi
    obtain ⟨hentries, hmembers⟩ := ih h
    rw [List.map_cons, List.foldlM_cons]
    exact ⟨bind_eq_ok.2 ⟨taken', hentry, hentries⟩,
      List.forall_mem_cons.2 ⟨⟨inner, hinner⟩, hmembers⟩⟩

end Taking

/-- The scopes of a module: its own, and those of its items. -/
def scopesOf (items : List Item) : List NameScope :=
  ⟨[], items.map (·.entry)⟩ :: items.map (·.members)

section Scopes

variable {items : List Item}

/-- The names of a scope are different if all of them can be taken. -/
theorem NameScope.nodup_of_takeEntries {s : NameScope} {used : List String}
    (hreserved : s.reserved.Nodup) (h : s.entries.foldlM takeEntry s.reserved = .ok used) :
    s.idents.Nodup := by
  obtain ⟨rfl, hnodup⟩ := Code.nodup_of_takeEntries h
  have hused := (List.nodup_append_comm.1 (hnodup hreserved))
  have hperm : (s.reserved ++ (s.entries.map (·.ident)).reverse).Perm s.idents :=
    .append_left _ (List.reverse_perm _)
  exact hperm.nodup hused

/-- If all items can be taken, names are distinct in every scope. -/
theorem nodup_of_takeItems {used : List String} (hreserved : ∀ i ∈ items, i.members.reserved.Nodup)
    (h : items.foldlM takeItem [] = .ok used) : ∀ s ∈ scopesOf items, s.idents.Nodup := by
  obtain ⟨hentries, hmembers⟩ := takeItems_eq_ok h
  rw [scopesOf, List.forall_mem_cons]
  refine ⟨NameScope.nodup_of_takeEntries .nil hentries, ?_⟩
  intro s hs
  obtain ⟨i, hi, rfl⟩ := List.mem_map.1 hs
  obtain ⟨inner, hinner⟩ := hmembers i hi
  exact NameScope.nodup_of_takeEntries (hreserved i hi) hinner

/-- If some item cannot be taken, its name is taken already, or one inside it is. -/
theorem retakes_of_takeItems_error {e : EmitError} (h : items.foldlM takeItem [] = .error e) :
    ∃ s ∈ scopesOf items, ∃ entry, s.Retakes entry ∧ e = entry.taken := by
  obtain ⟨before, i, after, state, rfl, hbefore, herror⟩ := exists_of_foldlM_error h
  rcases bind_eq_error.1 herror with herror | ⟨_, _, herror⟩
  · -- The names before it are those of the module that have been taken.
    obtain ⟨hmem, he⟩ := takeEntry_eq_error herror
    obtain ⟨rfl, -⟩ := nodup_of_takeEntries (takeItems_eq_ok hbefore).1
    refine ⟨_, List.mem_cons_self, i.entry, ⟨before.map (·.entry), after.map (·.entry), ?_, ?_⟩, he⟩
    · rw [List.map_append, List.map_cons]
    · simpa using hmem
  · rcases bind_eq_error.1 herror with herror | ⟨_, _, herror⟩
    · obtain ⟨entry, hretakes, he⟩ := retakes_of_takeEntries_error herror
      have hi : i ∈ before ++ i :: after := List.mem_append_right _ List.mem_cons_self
      exact ⟨_, List.mem_cons_of_mem _ (List.mem_map_of_mem hi), entry, hretakes, he⟩
    · cases herror

end Scopes

namespace Item

/-- An enum. One of its variants is reserved for numbers without a symbol. -/
def ofEnum (p : EnumPlan) : Item where
  entry := ⟨.enum, p.name, typeIdent p.name⟩
  members := ⟨[unrecognized], p.values.map fun v => ⟨.symbol p.name, v.name, typeIdent v.name⟩⟩

def ofMessage (p : MessagePlan) : Item where
  entry := ⟨.message, p.name, typeIdent p.name⟩
  members := ⟨[], p.steps.map fun step => ⟨.field p.name, step.field, fieldIdent step.field⟩⟩

def ofService (p : ServicePlan) : Item where
  entry := ⟨.service, p.name, typeIdent p.name⟩
  members := ⟨[], p.methods.map fun m => ⟨.method p.name, m.name, fieldIdent m.name⟩⟩

/-- An import, whose names are in a module of their own. -/
def ofImport (c : CompiledSchema) : Item where
  entry := ⟨.imported, c.name, c.importAlias⟩
  members := ⟨[], []⟩

theorem idents_ofEnum (p : EnumPlan) :
    (ofEnum p).members.idents = unrecognized :: p.values.map (typeIdent ·.name) := by
  simp only [ofEnum, NameScope.idents, List.map_map, Function.comp_def, List.cons_append,
    List.nil_append]

theorem idents_ofMessage (p : MessagePlan) :
    (ofMessage p).members.idents = p.steps.map (fieldIdent ·.field) := by
  simp only [ofMessage, NameScope.idents, List.map_map, Function.comp_def, List.nil_append]

theorem idents_ofService (p : ServicePlan) :
    (ofService p).members.idents = p.methods.map (fieldIdent ·.name) := by
  simp only [ofService, NameScope.idents, List.map_map, Function.comp_def, List.nil_append]

end Item

end Code

open Code Text

namespace CompiledSchema

variable {s : CompiledSchema}

/-- The imports that are referred to, in the order in which they are emitted. -/
def emittedImports (s : CompiledSchema) : List CompiledSchema :=
  s.order.imports.filterMap (s.imports[·]?)

/-- The names of the module of a schema, in the order in which they are taken. -/
def items (s : CompiledSchema) : List Item :=
  s.enums.map .ofEnum ++ s.messages.map .ofMessage ++ s.services.map .ofService ++
    s.emittedImports.map .ofImport

end CompiledSchema

/-- An enum takes a name outside and those of its symbols inside. -/
theorem takeEnum_eq (taken : List String) (p : EnumPlan) :
    takeEnum taken p = takeItem taken (.ofEnum p) := by
  simp only [takeEnum, takeItem, Item.ofEnum, List.foldlM_map, takeEntry]

/-- A message takes a name outside and those of its fields inside. -/
theorem takeMessage_eq (taken : List String) (p : MessagePlan) :
    takeMessage taken p = takeItem taken (.ofMessage p) := by
  simp only [takeMessage, takeItem, Item.ofMessage, List.foldlM_map, takeEntry]

/-- A service takes a name outside and those of its methods inside. -/
theorem takeService_eq (taken : List String) (p : ServicePlan) :
    takeService taken p = takeItem taken (.ofService p) := by
  simp only [takeService, takeItem, Item.ofService, List.foldlM_map, takeEntry]

/-- Imports are taken by their positions, all of which are there. -/
theorem takeImports_eq {s : CompiledSchema} {positions : List Nat}
    (h : ∀ i ∈ positions, ∃ c, s.imports[i]? = some c) (taken : List String) :
    positions.foldlM (takeImport s) taken =
      ((positions.filterMap (s.imports[·]?)).map Item.ofImport).foldlM takeItem taken := by
  induction positions generalizing taken with
  | nil => rfl
  | cons i positions ih =>
    obtain ⟨⟨c, hc⟩, h⟩ := List.forall_mem_cons.1 h
    -- An import takes its alias, and nothing inside.
    have hi : takeImport s taken i = takeItem taken (.ofImport c) := by
      rw [takeImport, importAt, hc]
      change takeEntry taken (Item.ofImport c).entry = _
      rw [takeItem]
      cases takeEntry taken (Item.ofImport c).entry <;> rfl
    rw [List.filterMap_cons_some hc, List.map_cons, List.foldlM_cons, List.foldlM_cons, hi]
    exact congrArg _ (funext (ih h))

/-- Names are checked by taking the items of the module one after the other. -/
theorem checkNames_eq {s : CompiledSchema}
    (h : ∀ i ∈ s.order.imports, ∃ c, s.imports[i]? = some c) :
    checkNames s = do let _ ← s.items.foldlM takeItem []; return () := by
  rw [checkNames, CompiledSchema.items, List.foldlM_append, List.foldlM_append, List.foldlM_append]
  simp only [List.foldlM_map, ← takeEnum_eq, ← takeMessage_eq, ← takeService_eq, bind_assoc,
    CompiledSchema.emittedImports, takeImports_eq h]

/-! ## What code refers to -/

namespace CompiledSchema

/-- The declaration is there. -/
def HasDeclaration (s : CompiledSchema) : Declaration → Prop
  | .enum i => i < s.enums.length
  | .message i => i < s.messages.length

/-- All that generated code refers to is there. -/
structure Complete (s : CompiledSchema) : Prop where
  steps : ∀ p ∈ s.messages, ∀ step ∈ p.steps, ∀ v ∈ step.shape.values, s.Resolves v
  methods : ∀ service ∈ s.services, ∀ m ∈ service.methods, ∀ id ∈ [m.input, m.output],
    s.Resolves (.nested id)
  imports : ∀ i ∈ s.order.imports, ∃ c, s.imports[i]? = some c
  declarations : ∀ d ∈ s.order.declarations, s.HasDeclaration d

variable {s : CompiledSchema}

/-- The plan of an enum belongs to the schema that the identity points into. -/
theorem enumPlan?_eq_some {id : EnumId} {plan : EnumPlan} : s.enumPlan? id = some plan ↔
    ∃ owner, s.owner? id.origin = some owner ∧ owner.enums[id.index]? = some plan := by
  rw [enumPlan?, Option.bind_eq_bind, Option.bind_eq_some_iff]

/-- What a value step refers to has an owner. -/
theorem exists_owner_of_resolves {v : ValueStep} {origin : Origin} (h : s.Resolves v)
    (hv : v.origin? = some origin) : ∃ owner, s.owner? origin = some owner := by
  cases v with
  | scalar p => cases hv
  | enum id =>
    cases hv
    obtain ⟨plan, hplan⟩ := Option.isSome_iff_exists.1 h
    obtain ⟨owner, howner, -⟩ := enumPlan?_eq_some.1 hplan
    exact ⟨owner, howner⟩
  | nested id =>
    cases hv
    obtain ⟨⟨owner, plan⟩, hplan⟩ := Option.isSome_iff_exists.1 h
    exact ⟨owner, (messagePlan?_eq_some.1 hplan).1⟩

/-- An import that is referred to is there. -/
theorem exists_import_of_refersTo
    (hsteps : ∀ p ∈ s.messages, ∀ step ∈ p.steps, ∀ v ∈ step.shape.values, s.Resolves v)
    (hmethods : ∀ service ∈ s.services, ∀ m ∈ service.methods, ∀ id ∈ [m.input, m.output],
      s.Resolves (.nested id)) {i : Nat} (h : s.RefersTo i) : ∃ c, s.imports[i]? = some c := by
  cases h with
  | enum hp hstep hv => exact exists_owner_of_resolves (hsteps _ hp _ hstep _ hv) rfl
  | message hp hstep hv => exact exists_owner_of_resolves (hsteps _ hp _ hstep _ hv) rfl
  | method hservice hm hid => exact exists_owner_of_resolves (hmethods _ hservice _ hm _ hid) rfl

end CompiledSchema

/-- The order of declarations has declarations of the schema only. -/
theorem hasDeclaration_of_mem_declarationOrder {s : CompiledSchema}
    (hsteps : ∀ p ∈ s.messages, ∀ step ∈ p.steps, ∀ v ∈ step.shape.values, s.Resolves v)
    {d : Declaration} (hd : d ∈ declarationOrder s.enums s.messages) : s.HasDeclaration d := by
  -- The messages that are held by value are those of the schema, so the search stays in it.
  have hedges : ∀ i < s.messages.length, ∀ e ∈ valueEdgesAt s.messages i,
      e.2 < s.messages.length := by
    intro i _ e he
    rw [valueEdgesAt] at he
    split at he
    · rename_i p hp
      exact MessagePlan.lt_of_mem_valueEdges (hsteps p (List.mem_of_getElem? hp)) he
    · exact absurd he List.not_mem_nil
  rcases List.mem_append.1 hd with hd | hd
  · obtain ⟨i, hi, rfl⟩ := List.mem_map.1 hd
    exact List.mem_range.1 hi
  · obtain ⟨i, hi, rfl⟩ := List.mem_map.1 hd
    exact List.mem_range.1 ((Graph.perm_search hedges).mem_iff.1 hi)

/-- A schema that has been compiled is complete. -/
theorem Schema.complete_of_compile {schema : Schema} {t : ImportTable} {s : CompiledSchema}
    (h : schema.compile t = .ok s) : s.Complete := by
  obtain ⟨-, -, horder⟩ := header_of_compile h
  have hsteps := (consistent_of_compile h).resolves
  have hmethods : ∀ service ∈ s.services, ∀ m ∈ service.methods, ∀ id ∈ [m.input, m.output],
      s.Resolves (.nested id) := by
    intro service hservice m hm id hid
    obtain ⟨declared, -, hplan⟩ := exists_of_mem_mapM (services_of_compile h) hservice
    have hplanned := Scope.plannedBy_of_mapService hplan
    obtain ⟨method, -, hmethod⟩ := exists_of_mem_left hplanned.methods.flip hm
    -- Inputs and outputs were resolved to messages.
    rw [List.mem_pair] at hid
    rcases hid with rfl | rfl
    · exact isSome_of_resolve? h hmethod.input
    · exact isSome_of_resolve? h hmethod.output
  refine ⟨hsteps, hmethods, ?_, ?_⟩
  · intro i hi
    rw [horder] at hi
    exact CompiledSchema.exists_import_of_refersTo hsteps hmethods (mem_usedImports.1 hi)
  · intro d hd
    rw [horder] at hd
    exact hasDeclaration_of_mem_declarationOrder hsteps hd

/-! ## Parts of a module -/

namespace Code

variable {s : CompiledSchema}

/-- A message that is declared has a type in code. -/
theorem exists_messageType {id : MessageId} (h : s.Resolves (.nested id)) :
    ∃ type, messageType s id = .ok type := by
  obtain ⟨⟨owner, plan⟩, hplan⟩ := Option.isSome_iff_exists.1 h
  exact ⟨_, by rw [messageType, hplan]⟩

/-- An enum that is declared has a type in code. -/
theorem exists_enumType {id : EnumId} (h : s.Resolves (.enum id)) :
    ∃ type, enumType s id = .ok type := by
  obtain ⟨plan, hplan⟩ := Option.isSome_iff_exists.1 h
  obtain ⟨owner, howner, -⟩ := CompiledSchema.enumPlan?_eq_some.1 hplan
  exact ⟨_, by rw [enumType, howner, hplan]⟩

/-- What resolves has a type in generated code. -/
theorem exists_valueType {v : ValueStep} (h : s.Resolves v) : ∃ type, valueType s v = .ok type := by
  cases v with
  | scalar p => exact ⟨_, rfl⟩
  | enum id => exact exists_ok_map _ (exists_enumType h)
  | nested id => exact exists_ok_map _ (exists_messageType h)

/-- A field whose values are all declared has a type in code. -/
theorem exists_fieldType {shape : Shape} (h : ∀ v ∈ shape.values, s.Resolves v) :
    ∃ type, fieldType s shape = .ok type := by
  cases shape with
  | single v => exact exists_valueType (h v List.mem_cons_self)
  | optional v =>
    have hv := exists_valueType (h v List.mem_cons_self)
    cases v with
    | scalar | enum | nested => exact exists_ok_map _ hv
  | repeated v e => exact exists_ok_map _ (exists_valueType (h v List.mem_cons_self))
  | map k v e =>
    have hk := exists_valueType (h k List.mem_cons_self)
    have hv := exists_valueType (h v (List.mem_cons_of_mem _ List.mem_cons_self))
    exact exists_ok_bind hk fun _ => exists_ok_bind hv fun _ => ⟨_, rfl⟩

/-- What resolves can be read by an expression, from either buffer. -/
theorem exists_readValue {v : ValueStep} (h : s.Resolves v) (buf : Buffer) :
    ∃ expr, readValue s v buf = .ok expr := by
  cases v with
  | scalar p => exact ⟨_, rfl⟩
  | enum id => exact exists_ok_bind (exists_enumType h) fun _ => ⟨_, rfl⟩
  | nested id => exact exists_ok_map _ (exists_messageType h)

/-- A sequence is read if its items are, from either buffer. -/
theorem exists_readSequence {item : Buffer → Except EmitError ReadStmt}
    (h : ∀ buf, ∃ stmt, item buf = .ok stmt) (e : Wire.Extent) :
    ∃ stmt, readSequence item e = .ok stmt := by
  cases e with
  | elements => exact exists_ok_map _ (h .bb)
  | bytes => exact exists_ok_map _ (h .frame)

/-- A field whose values are all declared is read by some statement. -/
theorem exists_decodeField {step : Step} (h : ∀ v ∈ step.shape.values, s.Resolves v) :
    ∃ stmt, decodeField s step = .ok stmt := by
  rw [decodeField]
  generalize step.shape = shape at h ⊢
  cases shape with
  | single v => exact exists_ok_map _ (exists_readValue (h v List.mem_cons_self) _)
  | optional v =>
    exact exists_ok_bind (exists_readValue (h v List.mem_cons_self) _) fun _ => ⟨_, rfl⟩
  | repeated v e =>
    have hv := exists_readValue (h v List.mem_cons_self)
    exact exists_readSequence (fun buf => exists_ok_map _ (hv buf)) e
  | map k v e =>
    have hk := exists_readValue (h k List.mem_cons_self)
    have hv := exists_readValue (h v (List.mem_cons_of_mem _ List.mem_cons_self))
    exact exists_readSequence (fun buf => exists_ok_bind (hk buf) fun _ =>
      exists_ok_bind (hv buf) fun _ => ⟨_, rfl⟩) e

theorem exists_decodeStep {step : Step} (h : ∀ v ∈ step.shape.values, s.Resolves v) :
    ∃ stmts, decodeStep s step = .ok stmts := by
  rw [decodeStep]
  split
  · exact ⟨_, rfl⟩
  · exact exists_ok_bind (exists_decodeField h) fun _ => ⟨_, rfl⟩

/-- A message all of whose values resolve has a type with an encoder and a decoder. -/
theorem exists_structCode {p : MessagePlan}
    (h : ∀ step ∈ p.steps, ∀ v ∈ step.shape.values, s.Resolves v) :
    ∃ code, structCode s p = .ok code := by
  have hfields : ∃ fields, p.steps.mapM (fieldCode s) = .ok fields :=
    exists_ok_mapM fun step hstep =>
      exists_ok_bind (exists_fieldType (h step hstep)) fun _ => ⟨_, rfl⟩
  have hdecoder : ∃ decoder, p.steps.mapM (decodeStep s) = .ok decoder :=
    exists_ok_mapM fun step hstep => exists_decodeStep (h step hstep)
  exact exists_ok_bind hfields fun _ => exists_ok_bind hdecoder fun _ => ⟨_, rfl⟩

/-- Every declaration in the order has its code. -/
theorem exists_typeItem (h : s.Complete) {d : Declaration} (hd : d ∈ s.order.declarations) :
    ∃ item, typeItem s d = .ok item := by
  have hdeclared := h.declarations d hd
  cases d with
  | enum i =>
    rw [typeItem, List.getElem?_eq_getElem hdeclared]
    exact ⟨_, rfl⟩
  | message i =>
    rw [typeItem, List.getElem?_eq_getElem hdeclared]
    exact exists_ok_map _ (exists_structCode (h.steps _ (List.getElem_mem hdeclared)))

/-- Every service has its trait. -/
theorem exists_traitCode (h : s.Complete) {service : ServicePlan}
    (hservice : service ∈ s.services) : ∃ code, traitCode s service = .ok code := by
  refine exists_ok_bind (exists_ok_mapM fun m hm => ?_) fun _ => ⟨_, rfl⟩
  have hids := h.methods service hservice m hm
  exact exists_ok_bind (exists_messageType (hids _ List.mem_cons_self)) fun _ =>
    exists_ok_bind (exists_messageType (hids _ (List.mem_cons_of_mem _ List.mem_cons_self)))
      fun _ => ⟨_, rfl⟩

/-- Every import in the order has its use. -/
theorem exists_useCode (h : s.Complete) {i : Nat} (hi : i ∈ s.order.imports) :
    ∃ code, useCode s i = .ok code := by
  obtain ⟨c, hc⟩ := h.imports i hi
  refine exists_ok_bind ⟨c, ?_⟩ fun _ => ⟨_, rfl⟩
  rw [importAt, hc]

/-- All parts of the module of a complete schema can be written. -/
theorem exists_moduleParts (h : s.Complete) : ∃ m, moduleParts s = .ok m :=
  exists_ok_bind (exists_ok_mapM fun _ hi => exists_useCode h hi) fun _ =>
    exists_ok_bind (exists_ok_mapM fun _ hd => exists_typeItem h hd) fun _ =>
      exists_ok_bind (exists_ok_mapM fun _ hservice => exists_traitCode h hservice) fun _ =>
        ⟨_, rfl⟩

end Code

/-! ## Collisions -/

namespace CompiledSchema

/-- Two names become the same in one scope of the generated module: that of the module itself,
    of the variants of an enum, of the fields of a message or of the methods of a service. -/
inductive Collides (s : CompiledSchema) : Prop
  | module : ¬(s.enums.map (typeIdent ·.name) ++ s.messages.map (typeIdent ·.name) ++
      s.services.map (typeIdent ·.name) ++ s.emittedImports.map (·.importAlias)).Nodup → Collides s
  | symbols {p : EnumPlan} : p ∈ s.enums →
      ¬(unrecognized :: p.values.map (typeIdent ·.name)).Nodup → Collides s
  | fields {p : MessagePlan} : p ∈ s.messages → ¬(p.steps.map (fieldIdent ·.field)).Nodup →
      Collides s
  | methods {p : ServicePlan} : p ∈ s.services → ¬(p.methods.map (fieldIdent ·.name)).Nodup →
      Collides s

variable {s : CompiledSchema}

/-- The items of a schema are its enums, messages and services, and the imports that it uses. -/
theorem mem_items {i : Item} : i ∈ s.items ↔
    (∃ p ∈ s.enums, .ofEnum p = i) ∨ (∃ p ∈ s.messages, .ofMessage p = i) ∨
      (∃ p ∈ s.services, .ofService p = i) ∨ ∃ c ∈ s.emittedImports, .ofImport c = i := by
  simp only [items, List.mem_append, List.mem_map, or_assoc]

theorem idents_module : (s.items.map (·.entry)).map (·.ident) =
    s.enums.map (typeIdent ·.name) ++ s.messages.map (typeIdent ·.name) ++
      s.services.map (typeIdent ·.name) ++ s.emittedImports.map (·.importAlias) := by
  simp only [items, List.map_append, List.map_map, Function.comp_def, Item.ofEnum, Item.ofMessage,
    Item.ofService, Item.ofImport]

theorem nodup_reserved : ∀ i ∈ s.items, i.members.reserved.Nodup := by
  intro i hi
  rcases mem_items.1 hi with ⟨p, _, rfl⟩ | ⟨p, _, rfl⟩ | ⟨p, _, rfl⟩ | ⟨c, _, rfl⟩
  · exact List.nodup_singleton _
  all_goals exact .nil

/-- The scopes are those in which names are taken. -/
theorem collides_iff : s.Collides ↔ ∃ scope ∈ scopesOf s.items, ¬scope.idents.Nodup := by
  have hmember {i : Item} (hi : i ∈ s.items) (h : ¬i.members.idents.Nodup) :
      ∃ scope ∈ scopesOf s.items, ¬scope.idents.Nodup :=
    ⟨_, List.mem_cons_of_mem _ (List.mem_map_of_mem hi), h⟩
  constructor
  · rintro (h | ⟨hp, h⟩ | ⟨hp, h⟩ | ⟨hp, h⟩)
    · exact ⟨_, List.mem_cons_self, by rwa [NameScope.idents, List.nil_append, idents_module]⟩
    · refine hmember (mem_items.2 (.inl ⟨_, hp, rfl⟩)) ?_
      rwa [Item.idents_ofEnum]
    · refine hmember (mem_items.2 (.inr (.inl ⟨_, hp, rfl⟩))) ?_
      rwa [Item.idents_ofMessage]
    · refine hmember (mem_items.2 (.inr (.inr (.inl ⟨_, hp, rfl⟩)))) ?_
      rwa [Item.idents_ofService]
  · rintro ⟨scope, hscope, h⟩
    rcases List.mem_cons.1 hscope with rfl | hscope
    · rw [NameScope.idents, List.nil_append, idents_module] at h
      exact .module h
    · obtain ⟨i, hi, rfl⟩ := List.mem_map.1 hscope
      rcases mem_items.1 hi with ⟨p, hp, rfl⟩ | ⟨p, hp, rfl⟩ | ⟨p, hp, rfl⟩ | ⟨c, hc, rfl⟩
      · rw [Item.idents_ofEnum] at h
        exact .symbols hp h
      · rw [Item.idents_ofMessage] at h
        exact .fields hp h
      · rw [Item.idents_ofService] at h
        exact .methods hp h
      · -- The names inside an import are not looked at.
        exact absurd .nil h

end CompiledSchema

/-- Of a complete schema only the names can be wrong. -/
theorem emit_eq_error {s : CompiledSchema} (h : s.Complete) {o : Options} {e : EmitError} :
    emit s o = .error e ↔ s.items.foldlM takeItem [] = .error e := by
  rw [emit, map_eq_error, moduleOf, bind_eq_error_iff fun _ => exists_moduleParts h,
    checkNames_eq h.imports]
  exact bind_eq_error_iff fun _ => ⟨(), rfl⟩

/-- Code is generated for a compiled schema, with any options, unless two of its names become
    the same in one scope. The error is then about a name that is taken already where it stands,
    and says so. -/
theorem emit_fails_iff_collides {c : CompiledSchema} (hc : c.IsCompiled) (o : Options) :
    ((∃ e, emit c o = .error e) ↔ c.Collides) ∧
      ∀ e, emit c o = .error e → ∃ scope ∈ scopesOf c.items, ∃ what name ident,
        scope.Retakes ⟨what, name, ident⟩ ∧ e = .nameTaken what name ident ∧
        e.message = "Emit error: " ++
    s!"{what.display} {quote name} becomes the Rust name {quote ident} which is already taken" := by
  obtain ⟨t, schema, -, hcompile⟩ := hc
  have hcomplete := Schema.complete_of_compile hcompile
  refine ⟨⟨?_, ?_⟩, ?_⟩
  · rintro ⟨e, he⟩
    obtain ⟨scope, hscope, entry, hretakes, -⟩ :=
      retakes_of_takeItems_error ((emit_eq_error hcomplete).1 he)
    exact CompiledSchema.collides_iff.2 ⟨scope, hscope, hretakes.not_nodup⟩
  · intro hcollides
    -- If all names could be taken, no scope would have one twice.
    obtain ⟨scope, hscope, hnodup⟩ := CompiledSchema.collides_iff.1 hcollides
    cases htaken : c.items.foldlM takeItem [] with
    | error e => exact ⟨e, (emit_eq_error hcomplete).2 htaken⟩
    | ok used =>
      exact absurd (nodup_of_takeItems CompiledSchema.nodup_reserved htaken scope hscope) hnodup
  · intro e he
    obtain ⟨scope, hscope, entry, hretakes, rfl⟩ :=
      retakes_of_takeItems_error ((emit_eq_error hcomplete).1 he)
    exact ⟨scope, hscope, _, _, _, hretakes, rfl, rfl⟩

namespace Sample

/-- A schema of the dairy, with one empty message. -/
def dairySchema (name message : String) : Schema where
  name := name
  package := some "dairy"
  messages := [⟨message, []⟩]

/-- What such a schema compiles to. -/
def compiledDairy (name message : String) : CompiledSchema where
  name := name
  package := some "dairy"
  imports := []
  enums := []
  messages := [⟨⟨.own, 0⟩, message, []⟩]
  mappings := [[]]
  services := []
  order := ⟨[], [.message 0]⟩

/-- Two schemas of one package. -/
def dairy : ImportTable where
  entries := [("cream.proto", compiledDairy "cream.proto" "Cream"),
    ("milk.proto", compiledDairy "milk.proto" "Milk")]

/-- A schema that refers to both of them. -/
def kitchen : Schema where
  name := "kitchen.proto"
  imports := ["milk.proto", "cream.proto"]
  messages := [⟨"Kitchen", [⟨"milk", 1, .named "dairy.Milk", false⟩,
    ⟨"cream", 2, .named "dairy.Cream", false⟩]⟩]

def compiledKitchen : CompiledSchema where
  name := "kitchen.proto"
  package := none
  imports := [compiledDairy "milk.proto" "Milk", compiledDairy "cream.proto" "Cream"]
  enums := []
  messages := [.ofMappings 0 ⟨"Kitchen", []⟩ kitchenMappings]
  mappings := [kitchenMappings]
  services := []
  order := ⟨[0, 1], [.message 0]⟩
where
  kitchenMappings : List FieldMapping :=
    [ .ofType ⟨"milk", 1, .named "dairy.Milk", false⟩ (.single (.message ⟨.imported 0, 0⟩)),
      .ofType ⟨"cream", 2, .named "dairy.Cream", false⟩ (.single (.message ⟨.imported 1, 0⟩)) ]

theorem built_dairy : dairy.Built :=
  .publish (s := dairySchema "milk.proto" "Milk")
    (.publish (s := dairySchema "cream.proto" "Cream") .empty .empty rfl rfl) .empty rfl rfl

end Sample

open Sample

/-- Imports from one package would get the same alias. -/
theorem emit_fails_kitchen :
    kitchen.compile dairy = .ok compiledKitchen ∧ compiledKitchen.Collides ∧
      ∃ e, emit compiledKitchen {} = .error e := by
  have hcollides : compiledKitchen.Collides := .module (by decide +kernel)
  have hcompiled : compiledKitchen.IsCompiled := ⟨dairy, kitchen, built_dairy, rfl⟩
  exact ⟨rfl, hcollides, (emit_fails_iff_collides hcompiled {}).1.2 hcollides⟩

end Marshal
