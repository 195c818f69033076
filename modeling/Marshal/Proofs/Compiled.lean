import Marshal.Compile.Basic
import Marshal.Proofs.Ascending
import Marshal.Proofs.Outcomes
import Marshal.Proofs.Search
import Marshal.Proofs.Verification

/-!
# Compiled schemas are well formed

A *well-formed* schema can be followed everywhere (`CompiledSchema.WellFormed`):
the fields of a message have different names, every identity in its plans is
that of a declaration, of its own or of an import, and its messages can be
ranked so that those held by value have a smaller rank. The same holds of all
that it imports.

Every schema compiled against a table of such schemas is one of them
(`Schema.wellFormed_of_compile`). So is, then, every schema compiled against a
table that was built by compiling and publishing alone
(`CompiledSchema.IsCompiled.wellFormed`).
-/

namespace Marshal

/-! ## Related lists -/

section Related

variable {α β : Type} {R : α → β → Prop} {l : List α} {l' : List β}

theorem rel_getElem? (h : List.Forall₂ R l l') (i : Nat) : Option.Rel R l[i]? l'[i]? := by
  induction h generalizing i with
  | nil => exact .none
  | cons hab _ ih =>
    cases i with
    | zero => exact .some hab
    | succ i => exact ih i

/-- Related lists have related elements at the same places. -/
theorem exists_of_getElem? (h : List.Forall₂ R l l') {i : Nat} {a : α} (ha : l[i]? = some a) :
    ∃ b, l'[i]? = some b ∧ R a b := by
  have hrel := rel_getElem? h i
  rw [ha] at hrel
  generalize l'[i]? = found at hrel
  cases hrel with
  | some hab => exact ⟨_, rfl, hab⟩

/-- Every element of a list is related to one of the other list. -/
theorem exists_of_mem_left (h : List.Forall₂ R l l') {a : α} (ha : a ∈ l) : ∃ b ∈ l', R a b := by
  induction h with
  | nil => exact absurd ha List.not_mem_nil
  | cons hab _ ih =>
    rcases List.mem_cons.1 ha with rfl | ha
    · exact ⟨_, List.mem_cons_self, hab⟩
    · obtain ⟨b, hb, hab⟩ := ih ha
      exact ⟨b, List.mem_cons_of_mem _ hb, hab⟩

end Related

/-! ## Imports -/

/-- A schema is larger than its imports. -/
theorem CompiledSchema.sizeOf_lt_of_mem {owner s : CompiledSchema} (h : owner ∈ s.imports) :
    sizeOf owner < sizeOf s := by
  have := List.sizeOf_lt_of_mem h
  cases s
  simp only [CompiledSchema.mk.sizeOf_spec]
  simp only at this
  omega

/-- What holds of a schema if it does of its imports holds of all schemas. -/
theorem CompiledSchema.induction_imports {P : CompiledSchema → Prop}
    (h : ∀ s, (∀ c ∈ s.imports, P c) → P s) (s : CompiledSchema) : P s :=
  (measure sizeOf).wf.induction s fun s ih => h s fun c hc => ih c (sizeOf_lt_of_mem hc)

/-! ## Identities -/

/-- What a value step refers to is declared. -/
def CompiledSchema.Resolves (s : CompiledSchema) : ValueStep → Prop
  | .scalar _ => True
  | .enum id => (s.enumPlan? id).isSome
  | .nested id => (s.messagePlan? id).isSome

/-- A compiled schema has all that is in scope, at the same positions. -/
structure Scope.DescribedBy (c : Scope) (s : CompiledSchema) : Prop where
  imports : s.imports = c.imports
  messages : s.messages.length = c.schema.messages.length
  enums : s.enums.length = c.schema.enums.length

namespace CompiledSchema

variable {s owner : CompiledSchema} {origin : Origin} {i : Nat}

/-- Every message of an owner can be found. -/
theorem resolves_message (ho : s.owner? origin = some owner) (hi : i < owner.messages.length) :
    s.Resolves (.nested ⟨origin, i⟩) := by
  change (s.messagePlan? ⟨origin, i⟩).isSome
  rw [messagePlan?, ho]
  change ((owner.messages[i]?).bind _).isSome
  rw [List.getElem?_eq_getElem hi]
  rfl

/-- Every enum of an owner can be found. -/
theorem resolves_enum (ho : s.owner? origin = some owner) (hi : i < owner.enums.length) :
    s.Resolves (.enum ⟨origin, i⟩) := by
  change (s.enumPlan? ⟨origin, i⟩).isSome
  rw [enumPlan?, ho]
  change (owner.enums[i]?).isSome
  rw [List.getElem?_eq_getElem hi]
  rfl

/-- A type that is found in an import can be followed to it. -/
theorem resolves_findType? {name : String} {e : ElementType} (ho : s.owner? origin = some owner)
    (h : owner.findType? name origin = some e) : s.Resolves e.step := by
  rw [findType?] at h
  split at h
  · rename_i index hindex
    cases Option.some.inj h
    exact resolves_message ho (List.findIdx?_eq_some_iff_getElem.1 hindex).1
  · obtain ⟨index, hindex, rfl⟩ := Option.map_eq_some_iff.1 h
    exact resolves_enum ho (List.findIdx?_eq_some_iff_getElem.1 hindex).1

end CompiledSchema

/-- The last element with a property has it. -/
theorem exists_of_lastIndex? {α : Type} {p : α → Bool} {l : List α} {i : Nat}
    (h : lastIndex? p l = some i) : ∃ a, l[i]? = some a ∧ p a = true := by
  induction l generalizing i with
  | nil => cases h
  | cons a l ih =>
    rw [lastIndex?] at h
    split at h
    · rename_i j hj
      cases Option.some.inj h
      exact ih hj
    · split at h
      · cases Option.some.inj h
        exact ⟨a, rfl, ‹_›⟩
      · cases h

theorem lt_of_lastIndex? {α : Type} {p : α → Bool} {l : List α} {i : Nat}
    (h : lastIndex? p l = some i) : i < l.length := by
  obtain ⟨_, hi, _⟩ := exists_of_lastIndex? h
  exact (List.getElem?_eq_some_iff.1 hi).1

namespace Scope

variable {c : Scope} {s : CompiledSchema} {name : String} {e : ElementType}

/-- A type that is found among the own types of a scope is there. -/
theorem resolves_findOwn? (hs : c.DescribedBy s) (h : c.findOwn? name = some e) :
    s.Resolves e.step := by
  rw [findOwn?] at h
  split at h
  · rename_i i hi
    cases Option.some.inj h
    exact CompiledSchema.resolves_message rfl (hs.messages ▸ lt_of_lastIndex? hi)
  · obtain ⟨i, hi, rfl⟩ := Option.map_eq_some_iff.1 h
    exact CompiledSchema.resolves_enum rfl (hs.enums ▸ lt_of_lastIndex? hi)

theorem owner?_of_mem_zipIdx (hs : c.DescribedBy s) {imported : CompiledSchema} {i : Nat}
    (h : (imported, i) ∈ c.imports.zipIdx) : s.owner? (.imported i) = some imported := by
  rw [CompiledSchema.owner?, hs.imports]
  exact List.mem_zipIdx_iff_getElem?.1 h

/-- So is one that is found by its qualified name. -/
theorem resolves_findQualified? (hs : c.DescribedBy s) (h : c.findQualified? name = some e) :
    s.Resolves e.step := by
  obtain ⟨⟨imported, i⟩, hmem, hfind⟩ := List.exists_of_findSome?_eq_some h
  obtain ⟨package, _, hfind⟩ := Option.bind_eq_some_iff.1 hfind
  obtain ⟨rest, _, hfind⟩ := Option.bind_eq_some_iff.1 hfind
  exact CompiledSchema.resolves_findType? (owner?_of_mem_zipIdx hs hmem) hfind

/-- So are those that are found by their short name. -/
theorem resolves_findUnqualified (hs : c.DescribedBy s) {found : CompiledSchema × ElementType}
    (h : found ∈ c.findUnqualified name) : s.Resolves found.2.step := by
  obtain ⟨⟨imported, i⟩, hmem, hfind⟩ := List.mem_filterMap.1 h
  obtain ⟨e, he, rfl⟩ := Option.map_eq_some_iff.1 hfind
  exact CompiledSchema.resolves_findType? (owner?_of_mem_zipIdx hs hmem) he

/-- What a name is resolved to is declared. -/
theorem resolves_resolve? (hs : c.DescribedBy s) (h : c.resolve? name = .ok (some e)) :
    s.Resolves e.step := by
  rw [resolve?] at h
  split at h
  · rename_i found hfound
    cases h
    exact resolves_findOwn? hs hfound
  · split at h
    · rename_i found hfound
      cases h
      exact resolves_findQualified? hs hfound
    · -- A name without a package is that of a type of just one import.
      split at h
      · cases h
      · rename_i found hfound
        cases h
        exact resolves_findUnqualified hs (hfound ▸ List.mem_singleton_self _)
      · cases h

/-- The type of an element can be found. -/
theorem resolves_element (hs : c.DescribedBy s) {owner member : String} {type : FieldType}
    (h : c.element owner member type = .ok e) : s.Resolves e.step := by
  cases type with
  | scalar _ =>
    cases h
    trivial
  | named name =>
    rw [element, resolveName] at h
    split at h
    · rename_i hfound
      cases h
      exact resolves_resolve? hs hfound
    · cases h
    · cases h
  | optional | repeated | map => cases h

/-- The types that a field's type is made of are declared. -/
theorem resolves_fieldType (hs : c.DescribedBy s) {message field : String} {type : FieldType}
    {resolved : ResolvedType} (h : c.fieldType message field type = .ok resolved) (f : Field) :
    ∀ v ∈ (FieldMapping.ofType f resolved).shape.values, s.Resolves v := by
  cases type with
  | scalar | named | optional | repeated =>
    obtain ⟨e, he, rfl⟩ := map_eq_ok.1 h
    exact fun v hv => List.mem_singleton.1 hv ▸ resolves_element hs he
  | map key value =>
    obtain ⟨k, hk, h⟩ := bind_eq_ok.1 h
    obtain ⟨e, he, h⟩ := bind_eq_ok.1 h
    split at h
    · cases h
      intro v hv
      -- Both the key and the value were resolved.
      rcases List.mem_cons.1 hv with rfl | hv
      · exact resolves_element hs hk
      · exact List.mem_singleton.1 hv ▸ resolves_element hs he
    · cases h

end Scope

/-! ## Well-formed schemas -/

/-- The plans of a schema, taken by themselves, can be followed everywhere. -/
structure CompiledSchema.Consistent (s : CompiledSchema) : Prop where
  fields : ∀ p ∈ s.messages, (p.steps.map (·.field)).Nodup
  resolves : ∀ p ∈ s.messages, ∀ step ∈ p.steps, ∀ v ∈ step.shape.values, s.Resolves v
  /-- Messages held by value have smaller ranks, of which there are as many as
      messages. -/
  rank : ∃ rank : Nat → Nat, ∀ i p, s.messages[i]? = some p →
    rank i < s.messages.length ∧ ∀ e ∈ p.valueEdges, rank e.2 < rank i

/-- The plans of a schema and of all that it imports can be followed. -/
inductive CompiledSchema.WellFormed : CompiledSchema → Prop
  | intro {s : CompiledSchema} :
    s.Consistent → (∀ c ∈ s.imports, WellFormed c) → WellFormed s

namespace CompiledSchema.WellFormed

variable {s owner : CompiledSchema}

theorem consistent (h : s.WellFormed) : s.Consistent := by
  cases h
  assumption

/-- The imports of a well-formed schema are well-formed. -/
theorem of_mem_imports (h : s.WellFormed) {c : CompiledSchema} (hc : c ∈ s.imports) :
    c.WellFormed := by
  cases h with
  | intro _ h => exact h c hc

theorem of_owner? (h : s.WellFormed) {origin : Origin} (ho : s.owner? origin = some owner) :
    owner.WellFormed := by
  cases origin with
  | own => exact Option.some.inj ho ▸ h
  | imported i => exact h.of_mem_imports (List.mem_of_getElem? ho)

end CompiledSchema.WellFormed

/-- The plan of a message belongs to the schema that the identity points into. -/
theorem CompiledSchema.messagePlan?_eq_some {s owner : CompiledSchema} {id : MessageId}
    {plan : MessagePlan} : s.messagePlan? id = some (owner, plan) ↔
      s.owner? id.origin = some owner ∧ owner.messages[id.index]? = some plan := by
  rw [messagePlan?, Option.bind_eq_bind, Option.bind_eq_some_iff]
  constructor
  · rintro ⟨owner', ho, h⟩
    obtain ⟨plan', hp, h⟩ := Option.bind_eq_some_iff.1 h
    cases Option.some.inj h
    exact ⟨ho, hp⟩
  · rintro ⟨ho, hp⟩
    exact ⟨owner, ho, Option.bind_eq_some_iff.2 ⟨plan, hp, rfl⟩⟩

/-! ## Compilation -/

namespace Schema

variable {s : Schema} {t : ImportTable} {c : CompiledSchema}

/-- What compiling a schema comes down to. -/
theorem compile_eq_ok (h : s.compile t = .ok c) :
    s.verify t = .ok () ∧ s.importsFrom t = .ok c.imports ∧
      s.messages.mapM (Scope.mapMessage ⟨s, c.imports⟩) = .ok c.mappings ∧
      c.messages = s.messagePlans c.mappings ∧ c.enums = s.enumPlans ∧
      checkValueRecursion c.messages = .ok () := by
  obtain ⟨_, hverify, h⟩ := bind_eq_ok.1 h
  obtain ⟨imports, himports, h⟩ := bind_eq_ok.1 h
  obtain ⟨mappings, hmappings, h⟩ := bind_eq_ok.1 h
  obtain ⟨services, _, h⟩ := bind_eq_ok.1 h
  obtain ⟨_, hrecursion, h⟩ := bind_eq_ok.1 h
  cases Except.ok.inj h
  exact ⟨hverify, himports, hmappings, rfl, rfl, hrecursion⟩

/-- A compiled schema goes by the name and package of its schema, and its parts are emitted
    in the order of its plans. -/
theorem header_of_compile (h : s.compile t = .ok c) :
    c.name = s.name ∧ c.package = s.package ∧
      c.order = emissionOrder c.enums c.messages c.services := by
  obtain ⟨_, _, h⟩ := bind_eq_ok.1 h
  obtain ⟨imports, _, h⟩ := bind_eq_ok.1 h
  obtain ⟨mappings, _, h⟩ := bind_eq_ok.1 h
  obtain ⟨services, _, h⟩ := bind_eq_ok.1 h
  obtain ⟨_, _, h⟩ := bind_eq_ok.1 h
  cases Except.ok.inj h
  exact ⟨rfl, rfl, rfl⟩

theorem length_messagePlans {mappings : List (List FieldMapping)} {c : Scope}
    (h : s.messages.mapM c.mapMessage = .ok mappings) :
    (s.messagePlans mappings).length = s.messages.length := by
  rw [messagePlans, List.length_map, List.length_zipIdx, List.length_zip,
    (mapM_eq_ok h).length_eq, Nat.min_self]

/-- A schema is described by its declarations and its imports. -/
theorem describedBy_of_compile (h : s.compile t = .ok c) :
    Scope.DescribedBy ⟨s, c.imports⟩ c := by
  obtain ⟨_, _, hmappings, hmessages, henums, _⟩ := compile_eq_ok h
  refine ⟨rfl, ?_, ?_⟩
  · rw [hmessages, length_messagePlans hmappings]
  · rw [henums, enumPlans, List.length_map, List.length_zipIdx]

/-- The plan of a message comes from the mappings of its fields. -/
theorem exists_of_mem_messagePlans {mappings : List (List FieldMapping)} {c : Scope}
    (h : s.messages.mapM c.mapMessage = .ok mappings) {p : MessagePlan}
    (hp : p ∈ s.messagePlans mappings) :
    ∃ m ∈ s.messages, ∃ fields, m.fields.mapM (c.mapField m) = .ok fields ∧
      p.steps = fields.map FieldMapping.step := by
  obtain ⟨⟨⟨m, fields⟩, i⟩, hmem, rfl⟩ := List.mem_map.1 hp
  have hzip := List.fst_mem_of_mem_zipIdx hmem
  exact ⟨m, (List.of_mem_zip hzip).1, fields, List.forall₂_zip (mapM_eq_ok h) hzip, rfl⟩

/-- The steps of a message go by the names of its fields. -/
theorem map_field_of_mapM {c : Scope} {m : Message} {fs : List Field} {fields : List FieldMapping}
    (h : fs.mapM (c.mapField m) = .ok fields) :
    (fields.map FieldMapping.step).map (·.field) = fs.map (·.name) := by
  rw [List.map_map]
  replace h := mapM_eq_ok h
  induction h with
  | nil => rfl
  | cons hf _ ih =>
    obtain ⟨type, _, rfl⟩ := map_eq_ok.1 hf
    rw [List.map_cons, List.map_cons, ih]
    rfl

end Schema

/-- The check passes only if the search has met no cycle. -/
theorem cycle_eq_none_of_check {plans : List MessagePlan}
    (h : checkValueRecursion plans = .ok ()) (hne : (valueSearch plans).cycle ≠ some []) :
    (valueSearch plans).cycle = none := by
  rw [checkValueRecursion] at h
  split at h
  · cases h
  · -- The check refuses cycles that have a node to start from.
    rename_i hcycle
    cases hc : (valueSearch plans).cycle with
    | none => rfl
    | some path =>
      cases path with
      | nil => exact absurd hc hne
      | cons p path => exact absurd hc (hcycle p.1 p.2 path)

/-- Messages that were checked not to hold themselves by value can be ranked. -/
theorem exists_rank_of_check {plans : List MessagePlan}
    (hedges : ∀ p ∈ plans, ∀ e ∈ p.valueEdges, e.2 < plans.length)
    (h : checkValueRecursion plans = .ok ()) :
    ∃ rank : Nat → Nat, ∀ i p, plans[i]? = some p →
      rank i < plans.length ∧ ∀ e ∈ p.valueEdges, rank e.2 < rank i := by
  have hat : ∀ i p, plans[i]? = some p → valueEdgesAt plans i = p.valueEdges := by
    intro i p hp
    rw [valueEdgesAt, hp]
  have hedges : ∀ i < plans.length, ∀ e ∈ valueEdgesAt plans i, e.2 < plans.length := by
    intro i hi e he
    rw [hat i _ (List.getElem?_eq_getElem hi)] at he
    exact hedges _ (List.getElem_mem hi) e he
  have hcycle := cycle_eq_none_of_check h (Graph.search_sound hedges).1.cycle_ne_nil
  obtain ⟨rank, hrank⟩ := Graph.exists_rank hedges hcycle
  refine ⟨rank, fun i p hp => ?_⟩
  rw [← hat i p hp]
  exact hrank i (List.getElem?_eq_some_iff.1 hp).1

/-- Edges are the fields that hold messages of the same schema by value. -/
theorem MessagePlan.mem_valueEdges {p : MessagePlan} {field : String} {j : Nat} :
    (field, j) ∈ p.valueEdges ↔
      ∃ step ∈ p.steps, step.field = field ∧ step.shape = .single (.nested ⟨.own, j⟩) := by
  rw [valueEdges, List.mem_filterMap]
  refine exists_congr fun step => and_congr_right fun _ => ⟨fun hedge => ?_, ?_⟩
  · split at hedge
    · rename_i hshape
      cases hedge
      exact ⟨rfl, hshape⟩
    · cases hedge
  · rintro ⟨rfl, hshape⟩
    rw [hshape]

/-- Edges lead to messages of the schema. -/
theorem MessagePlan.lt_of_mem_valueEdges {s : CompiledSchema} {p : MessagePlan}
    (h : ∀ step ∈ p.steps, ∀ v ∈ step.shape.values, s.Resolves v) {e : String × Nat}
    (he : e ∈ p.valueEdges) : e.2 < s.messages.length := by
  obtain ⟨step, hstep, -, hshape⟩ := mem_valueEdges.1 he
  have hres := h step hstep (.nested ⟨.own, e.2⟩)
    (by rw [hshape]; exact List.mem_singleton_self _)
  obtain ⟨⟨owner, plan⟩, hplan⟩ := Option.isSome_iff_exists.1 hres
  obtain ⟨ho, hp⟩ := CompiledSchema.messagePlan?_eq_some.1 hplan
  cases Option.some.inj ho
  exact (List.getElem?_eq_some_iff.1 hp).1

/-- The plans of a compiled schema, taken by themselves, can be followed. -/
theorem Schema.consistent_of_compile {s : Schema} {t : ImportTable} {c : CompiledSchema}
    (h : s.compile t = .ok c) : c.Consistent := by
  obtain ⟨hverify, _, hmappings, hmessages, _, hrecursion⟩ := compile_eq_ok h
  have hdesc := describedBy_of_compile h
  have hres : ∀ p ∈ c.messages, ∀ step ∈ p.steps, ∀ v ∈ step.shape.values, c.Resolves v := by
    intro p hp step hstep
    obtain ⟨m, _, fields, hfields, hsteps⟩ := exists_of_mem_messagePlans hmappings (hmessages ▸ hp)
    obtain ⟨mapping, hmapping, rfl⟩ := List.mem_map.1 (hsteps ▸ hstep)
    obtain ⟨f, _, hf⟩ := exists_of_mem_mapM hfields hmapping
    obtain ⟨type, htype, rfl⟩ := map_eq_ok.1 hf
    exact Scope.resolves_fieldType hdesc htype f
  refine ⟨fun p hp => ?_, hres, ?_⟩
  · -- The steps have the names of the fields, which were checked to differ.
    obtain ⟨m, hm, fields, hfields, hsteps⟩ := exists_of_mem_messagePlans hmappings (hmessages ▸ hp)
    rw [hsteps, map_field_of_mapM hfields]
    exact (wellFormed_of_verify hverify hm).names.nodup
  · exact exists_rank_of_check
      (fun p hp e he => MessagePlan.lt_of_mem_valueEdges (hres p hp) he) hrecursion

/-- Imports come from the table. -/
theorem Schema.exists_of_mem_importsFrom {s : Schema} {t : ImportTable}
    {imports : List CompiledSchema} (h : s.importsFrom t = .ok imports) {c : CompiledSchema}
    (hc : c ∈ imports) : ∃ name, t.get? name = some c := by
  obtain ⟨name, _, hname⟩ := exists_of_mem_mapM h hc
  split at hname
  · rename_i found hfound
    cases Except.ok.inj hname
    exact ⟨name, hfound⟩
  · cases hname

/-- What is compiled against well-formed schemas is well formed. -/
theorem Schema.wellFormed_of_compile {s : Schema} {t : ImportTable} {c : CompiledSchema}
    (h : s.compile t = .ok c) (ht : ∀ name c, t.get? name = some c → c.WellFormed) :
    c.WellFormed := by
  refine .intro (consistent_of_compile h) fun c' hc' => ?_
  obtain ⟨name, hname⟩ := exists_of_mem_importsFrom (compile_eq_ok h).2.1 hc'
  exact ht name c' hname

/-! ## Publishing -/

namespace ImportTable

variable {t t' : ImportTable} {c : CompiledSchema} {name : String}

/-- A name that is not published yet can be. -/
theorem publish_of_none (h : t.get? c.name = none) :
    t.publish c = .ok ⟨Ascending.insert c.name c t.entries⟩ := by
  rw [publish, h]

/-- Only a name that is free can be published, and is then in the table. -/
theorem of_publish (h : t.publish c = .ok t') :
    t.get? c.name = none ∧ t' = ⟨Ascending.insert c.name c t.entries⟩ := by
  rw [publish] at h
  split at h
  · cases h
  · rename_i hnone
    exact ⟨hnone, (Except.ok.inj h).symm⟩

theorem get?_publish_self (h : t.publish c = .ok t') : t'.get? c.name = some c := by
  rw [(of_publish h).2, get?, Ascending.get?_insert_self]

/-- Publishing changes no other name. -/
theorem get?_publish_of_ne (h : t.publish c = .ok t') (hname : name ≠ c.name) :
    t'.get? name = t.get? name := by
  rw [(of_publish h).2, get?, get?, Ascending.get?_insert_of_ne hname]

/-- What is found after publishing is what has been published, or was there before. -/
theorem get?_publish_eq_some_iff (h : t.publish c = .ok t') {found : CompiledSchema} :
    t'.get? name = some found ↔ name = c.name ∧ found = c ∨ t.get? name = some found := by
  by_cases hname : name = c.name
  · subst hname
    simp [get?_publish_self h, (of_publish h).1, eq_comm]
  · simp [get?_publish_of_ne h hname, hname]

end ImportTable

/-! ## Tables -/

/-- A table that was built by compiling and publishing alone. A schema need not
    have been compiled against the very table that it is published in. -/
inductive ImportTable.Built : ImportTable → Prop
  | empty : Built .empty
  | publish {t source t' : ImportTable} {s : Schema} {c : CompiledSchema} :
    Built t → Built source → s.compile source = .ok c → t.publish c = .ok t' → Built t'

/-- A schema that was compiled against such a table. -/
def CompiledSchema.IsCompiled (c : CompiledSchema) : Prop :=
  ∃ (t : ImportTable) (s : Schema), t.Built ∧ s.compile t = .ok c

/-- Such a table holds well-formed schemas only. -/
theorem ImportTable.Built.wellFormed {t : ImportTable} (h : t.Built) {name : String}
    {c : CompiledSchema} (hc : t.get? name = some c) : c.WellFormed := by
  induction h generalizing name c with
  | empty => cases hc
  | publish _ _ hcompile hpublish iht ihsource =>
    rcases (get?_publish_eq_some_iff hpublish).1 hc with ⟨_, rfl⟩ | hc
    · exact Schema.wellFormed_of_compile hcompile fun _ _ => ihsource
    · exact iht hc

/-- What such a table holds has been compiled. -/
theorem ImportTable.Built.isCompiled {t : ImportTable} (h : t.Built) {name : String}
    {c : CompiledSchema} (hc : t.get? name = some c) : c.IsCompiled := by
  induction h with
  | empty => cases hc
  | @publish _ source _ s _ _ hsource hcompile hpublish iht =>
    rcases (get?_publish_eq_some_iff hpublish).1 hc with ⟨_, rfl⟩ | hc
    · exact ⟨source, s, hsource, hcompile⟩
    · exact iht hc

/-- The imports of a schema have been compiled before it. -/
theorem CompiledSchema.IsCompiled.of_mem_imports {c i : CompiledSchema} (h : c.IsCompiled)
    (hi : i ∈ c.imports) : i.IsCompiled := by
  obtain ⟨_, _, ht, hc⟩ := h
  obtain ⟨_, hname⟩ := Schema.exists_of_mem_importsFrom (Schema.compile_eq_ok hc).2.1 hi
  exact ht.isCompiled hname

theorem CompiledSchema.IsCompiled.of_owner? {s owner : CompiledSchema} (h : s.IsCompiled)
    {origin : Origin} (ho : s.owner? origin = some owner) : owner.IsCompiled := by
  cases origin with
  | own => exact Option.some.inj ho ▸ h
  | imported i => exact h.of_mem_imports (List.mem_of_getElem? ho)

/-- A schema that was compiled against such a table is well formed. -/
theorem CompiledSchema.IsCompiled.wellFormed {c : CompiledSchema} (h : c.IsCompiled) :
    c.WellFormed := by
  obtain ⟨_, _, ht, hc⟩ := h
  exact Schema.wellFormed_of_compile hc fun _ _ => ht.wellFormed

end Marshal
