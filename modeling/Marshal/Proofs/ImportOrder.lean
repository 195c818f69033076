import Marshal.Proofs.Planning
import Marshal.Proofs.Renumbering
import Marshal.Proofs.Resolution

/-!
# The order of imports

A schema is compiled with its imports in some order. Does it mean the same with them in
another order? Both times it should fail, or compile to schemas that differ in the
positions of imports only (`SameMeaning`).

So it does, unless some name in it *clashes* (`Scope.Clashes`): no declaration of the schema
itself is meant, and several imports of one package declare what the name means together
with the package. Then the first of these imports is taken, so that the order matters as
soon as there is one in which the schema compiles (`import_order_iff`).
-/

namespace Marshal

/-! ## Computations that go alike -/

/-- Two computations that both fail, or both succeed with related results. -/
inductive Alike {ε α β : Type} (R : α → β → Prop) : Except ε α → Except ε β → Prop
  | ok {a : α} {b : β} : R a b → Alike R (.ok a) (.ok b)
  | error (e e' : ε) : Alike R (.error e) (.error e')

namespace Alike

variable {ε α β γ δ : Type} {R : α → β → Prop} {Q : γ → δ → Prop} {x : Except ε α} {y : Except ε β}

/-- Computations in a row go alike if both parts do. -/
theorem bind (h : Alike R x y) {f : α → Except ε γ} {g : β → Except ε δ}
    (hf : ∀ a b, R a b → Alike Q (f a) (g b)) : Alike Q (x >>= f) (y >>= g) := by
  cases h with
  | ok hab => exact hf _ _ hab
  | error e e' => exact .error e e'

/-- A computation goes like itself. -/
theorem refl {R : α → α → Prop} (hR : ∀ a, R a a) (x : Except ε α) : Alike R x x := by
  cases x with
  | ok a => exact .ok (hR a)
  | error e => exact .error e e

/-- Of two computations that go alike, both succeed or none. -/
theorem ok_iff (h : Alike R x y) : (∃ a, x = .ok a) ↔ ∃ b, y = .ok b := by
  cases h with
  | ok => simp
  | error => simp

theorem map (h : Alike R x y) {f : α → γ} {g : β → δ} (hf : ∀ a b, R a b → Q (f a) (g b)) :
    Alike Q (f <$> x) (g <$> y) := by
  cases h with
  | ok hab => exact .ok (hf _ _ hab)
  | error e e' => exact .error e e'

/-- Computations over a list go alike if they do for each element. -/
theorem mapM {r : β → δ} {f : α → Except ε β} {g : α → Except ε δ} {l : List α}
    (h : ∀ a ∈ l, Alike (fun b d => d = r b) (f a) (g a)) :
    Alike (fun bs ds => ds = bs.map r) (l.mapM f) (l.mapM g) := by
  induction l with
  | nil => exact .ok rfl
  | cons a l ih =>
    rw [List.forall_mem_cons] at h
    simp only [List.mapM_cons]
    refine h.1.bind fun b _ hb => (ih h.2).bind fun bs _ hbs => .ok ?_
    rw [hb, hbs, List.map_cons]

end Alike

/-! ## Names -/

namespace CompiledSchema

variable {s : CompiledSchema} {name : String} {origin : Origin}

/-- A type is found by its name wherever the schema stands among imports. -/
theorem findType?_renumber (σ : Nat → Nat) :
    s.findType? name (origin.renumber σ) =
      (s.findType? name origin).map (ElementType.renumber σ) := by
  rw [findType?, findType?]
  cases s.messages.findIdx? (·.name = name) with
  | none => rw [Option.map_map]; rfl
  | some index => rfl

theorem findQualified?_renumber (σ : Nat → Nat) :
    s.findQualified? name (origin.renumber σ) =
      (s.findQualified? name origin).map (ElementType.renumber σ) := by
  simp only [findQualified?, findType?_renumber, Option.bind_eq_bind, Option.map_bind,
    Function.comp_def]

end CompiledSchema

namespace Scope

/-- The scope with its imports in another order. -/
def withImports (c : Scope) (names : List String) (imports : List CompiledSchema) : Scope :=
  ⟨{ c.schema with imports := names }, imports⟩

variable {c : Scope} {σ : Nat → Nat} {imports : List CompiledSchema} {name : String}

/-- The same types are found by a qualified name in all imports, in another order. -/
theorem findAllQualified_perm (h : Rearranges σ c.imports imports) (names : List String)
    (name : String) :
    ((c.findAllQualified name).map (ElementType.renumber σ)).Perm
      ((c.withImports names imports).findAllQualified name) := by
  have hperm := h.zipIdx_perm.filterMap fun entry =>
    entry.1.findQualified? name (.imported entry.2)
  rw [List.filterMap_map] at hperm
  rw [findAllQualified, List.map_filterMap]
  refine .trans (.of_eq (List.filterMap_congr fun entry _ => ?_)) hperm
  exact (CompiledSchema.findQualified?_renumber σ).symm

/-- The same types are found by an unqualified name in all imports, in another order. -/
theorem findUnqualified_perm (h : Rearranges σ c.imports imports) (names : List String)
    (name : String) :
    ((c.findUnqualified name).map (Prod.map id (ElementType.renumber σ))).Perm
      ((c.withImports names imports).findUnqualified name) := by
  have hperm := h.zipIdx_perm.filterMap fun entry =>
    (entry.1.findType? name (.imported entry.2)).map (entry.1, ·)
  rw [List.filterMap_map] at hperm
  rw [findUnqualified, List.map_filterMap]
  refine .trans (.of_eq (List.filterMap_congr fun entry _ => ?_)) hperm
  obtain ⟨schema, i⟩ := entry
  change _ = (schema.findType? name (Origin.renumber σ (.imported i))).map (schema, ·)
  rw [CompiledSchema.findType?_renumber, Option.map_map, Option.map_map]
  rfl

/-- Types of the schema itself are not renumbered. -/
theorem renumber_findOwn? {e : ElementType} (h : c.findOwn? name = some e) : e.renumber σ = e := by
  rw [findOwn?] at h
  split at h
  · cases h
    rfl
  · obtain ⟨_, _, rfl⟩ := Option.map_eq_some_iff.1 h
    rfl

/-- The choice is the same whatever order the candidates are in, if there is one qualified
    candidate at most. -/
theorem alike_choose {own : Option ElementType} {qualified qualified' : List ElementType}
    {unqualified unqualified' : List (CompiledSchema × ElementType)}
    (hown : own.map (ElementType.renumber σ) = own) (hone : own = none → qualified.length ≤ 1)
    (hqualified : (qualified.map (ElementType.renumber σ)).Perm qualified')
    (hunqualified : (unqualified.map (Prod.map id (ElementType.renumber σ))).Perm unqualified') :
    Alike (fun e e' => e' = e.map (ElementType.renumber σ))
      (choose name own qualified unqualified) (choose name own qualified' unqualified') := by
  rcases own with _ | found
  · rcases qualified with _ | ⟨e, _ | ⟨_, _⟩⟩
    · obtain rfl := List.nil_perm.1 hqualified
      rcases unqualified with _ | ⟨found, _ | ⟨found', rest⟩⟩
      · obtain rfl := List.nil_perm.1 hunqualified
        exact .ok rfl
      · obtain rfl := List.singleton_perm.1 hunqualified
        exact .ok rfl
      · -- Two unqualified candidates or more are two or more in any order.
        have hlength := hunqualified.length_eq
        rcases unqualified' with _ | ⟨_, _ | ⟨_, _⟩⟩
        · simp at hlength
        · simp at hlength
        · exact .error _ _
    · obtain rfl := List.singleton_perm.1 hqualified
      exact .ok rfl
    · simp at hone
  · exact .ok hown.symm

/-- A name that does not clash refers to the same declaration. -/
theorem alike_resolve? (h : Rearranges σ c.imports imports) (names : List String)
    (hname : ¬c.Clashes name) :
    Alike (fun e e' => e' = e.map (ElementType.renumber σ)) (c.resolve? name)
      ((c.withImports names imports).resolve? name) := by
  rw [resolve?_eq_choose, resolve?_eq_choose]
  refine alike_choose ?_ (length_findAllQualified_le hname) (findAllQualified_perm h names _)
    (findUnqualified_perm h names _)
  cases hfound : c.findOwn? (c.withoutPackage (undotted name)) with
  | none => rfl
  | some e => rw [Option.map_some, renumber_findOwn? hfound]

/-! ### Fields and methods -/

section Fields

variable (h : Rearranges σ c.imports imports) (names : List String)

include h

/-- A name that does not clash stands for the same type, or for none. -/
theorem alike_resolveName (owner member : String) (hname : ¬c.Clashes name) :
    Alike (fun e e' => e' = e.renumber σ) (c.resolveName owner member name)
      ((c.withImports names imports).resolveName owner member name) := by
  have halike := alike_resolve? h names hname
  rw [resolveName, resolveName]
  generalize c.resolve? name = found, (c.withImports names imports).resolve? name = found' at halike
  cases halike with
  | @ok e e' he =>
    subst he
    rcases e with _ | e
    · exact .error _ _
    · exact .ok rfl
  | error => exact .error _ _

/-- The type of an element is the same if no name in it clashes. -/
theorem alike_element (owner member : String) {type : FieldType}
    (htype : ∀ name ∈ type.names, ¬c.Clashes name) :
    Alike (fun e e' => e' = e.renumber σ) (c.element owner member type)
      ((c.withImports names imports).element owner member type) := by
  cases type with
  | scalar => exact .ok rfl
  | named name =>
    exact alike_resolveName h names owner member (htype name (by simp [FieldType.names]))
  | optional | repeated | map => exact .error _ _

/-- The type of a field is the same if no name in it clashes. -/
theorem alike_fieldType (message field : String) {type : FieldType}
    (htype : ∀ name ∈ type.names, ¬c.Clashes name) :
    Alike (fun t t' => t' = t.renumber σ) (c.fieldType message field type)
      ((c.withImports names imports).fieldType message field type) := by
  cases type with
  | scalar | named =>
    exact (alike_element h names message field htype).map fun _ _ he => by rw [he]; rfl
  | optional inner | repeated inner =>
    have hinner : ∀ name ∈ inner.names, ¬c.Clashes name := htype
    exact (alike_element h names message field hinner).map fun _ _ he => by rw [he]; rfl
  | map key value =>
    simp only [FieldType.names, List.forall_mem_append] at htype
    refine (alike_element h names message field htype.1).bind fun k _ hk =>
      (alike_element h names message field htype.2).bind fun v _ hv => ?_
    subst hk hv
    -- Whether a type may be that of keys does not depend on where it comes from.
    rw [isMapKey_renumber]
    split
    · exact .ok rfl
    · exact .error _ _

theorem alike_mapField (m : Message) {f : Field} (hf : ∀ name ∈ f.type.names, ¬c.Clashes name) :
    Alike (fun t t' => t' = t.renumber σ) (c.mapField m f)
      ((c.withImports names imports).mapField m f) := by
  refine (alike_fieldType h names m.name f.name hf).map fun t _ ht => ?_
  rw [ht, FieldMapping.ofType_renumber]

/-- A message is mapped in the same way if no name in its fields clashes. -/
theorem alike_mapMessage {m : Message}
    (hm : ∀ f ∈ m.fields, ∀ name ∈ f.type.names, ¬c.Clashes name) :
    Alike (fun fs fs' => fs' = fs.map (FieldMapping.renumber σ)) (c.mapMessage m)
      ((c.withImports names imports).mapMessage m) :=
  .mapM fun f hf => alike_mapField h names m (hm f hf)

theorem alike_resolveMessage (service method : String) (hname : ¬c.Clashes name) :
    Alike (fun id id' => id' = id.renumber σ) (c.resolveMessage service method name)
      ((c.withImports names imports).resolveMessage service method name) := by
  refine (alike_resolveName h names service method hname).bind fun e _ he => ?_
  subst he
  rcases e with _ | _ | _
  · exact .error _ _
  · exact .error _ _
  · exact .ok rfl

theorem alike_mapMethod (service : String) {m : Method}
    (hm : ∀ name ∈ [m.input, m.output], ¬c.Clashes name) :
    Alike (fun p p' => p' = p.renumber σ) (c.mapMethod service m)
      ((c.withImports names imports).mapMethod service m) := by
  refine (alike_resolveMessage h names service m.name (hm m.input (by simp))).bind
    fun _ _ hinput => (alike_resolveMessage h names service m.name (hm m.output (by simp))).bind
      fun _ _ houtput => .ok ?_
  rw [hinput, houtput]
  rfl

/-- A service is mapped in the same way if no name in its methods clashes. -/
theorem alike_mapService {service : Service}
    (hservice : ∀ m ∈ service.methods, ∀ name ∈ [m.input, m.output], ¬c.Clashes name) :
    Alike (fun p p' => p' = p.renumber σ) (c.mapService service)
      ((c.withImports names imports).mapService service) := by
  have hmethods : Alike (fun ms ms' => ms' = ms.map (MethodPlan.renumber σ))
      (service.methods.mapM (c.mapMethod service.name))
      (service.methods.mapM ((c.withImports names imports).mapMethod service.name)) :=
    .mapM fun m hm => alike_mapMethod h names service.name (hservice m hm)
  refine hmethods.bind fun _ _ hms => .ok ?_
  rw [hms]
  rfl

end Fields

end Scope

/-! ## Schemas -/

namespace Schema

/-- The schema with its imports in another order. -/
def withImports (s : Schema) (imports : List String) : Schema := { s with imports := imports }

/-- The names in a schema that refer to declarations. -/
def references (s : Schema) : List String :=
  s.messages.flatMap (fun m => m.fields.flatMap fun f => f.type.names) ++
    s.services.flatMap fun service => service.methods.flatMap fun m => [m.input, m.output]

variable {s : Schema} {t : ImportTable} {imports : List String}

/-- The imports are checked in the same way in any order. -/
theorem alike_verify (h : s.imports.Perm imports) :
    Alike (fun _ _ => True) (s.verify t) ((s.withImports imports).verify t) := by
  have himports : Alike (fun _ _ => True) (checkEach (s.checkImport t) [] s.imports)
      (checkEach (s.checkImport t) [] imports) := by
    have hiff : checkEach (s.checkImport t) [] s.imports = .ok () ↔
        checkEach (s.checkImport t) [] imports = .ok () := by
      rw [checkImports_eq_ok_iff, checkImports_eq_ok_iff, h.nodup_iff]
      simp only [h.mem_iff]
    generalize checkEach (s.checkImport t) [] s.imports = x,
      checkEach (s.checkImport t) [] imports = y at hiff
    rcases x with e | _ <;> rcases y with e' | _
    · exact .error e e'
    · simp at hiff
    · simp at hiff
    · exact .ok trivial
  -- What else is checked does not look at the imports.
  refine (Alike.refl (fun _ => trivial) s.checkPackage).bind fun _ _ (_ : True) => ?_
  exact himports.bind fun _ _ _ => .refl (fun _ => trivial) _

/-- What compiling a schema that passes comes down to. -/
theorem compile_of_verify (h : s.verify t = .ok ()) :
    s.compile t = do
      let mappings ← s.messages.mapM (s.scope t).mapMessage
      let services ← s.services.mapM (s.scope t).mapService
      checkValueRecursion (s.messagePlans mappings)
      return {
        name := s.name
        package := s.package
        imports := (s.scope t).imports
        enums := s.enumPlans
        messages := s.messagePlans mappings
        mappings := mappings
        services := services
        order := emissionOrder s.enumPlans (s.messagePlans mappings) services } := by
  rw [compile, h, importsFrom_of_verify h]
  rfl

end Schema

/-- The second schema is the first one, with imports referred to by the position `σ i` in the
    place of `i`. -/
structure CompiledSchema.RenumberedBy (σ : Nat → Nat) (c c' : CompiledSchema) : Prop where
  imports : Rearranges σ c.imports c'.imports
  name : c'.name = c.name
  package : c'.package = c.package
  enums : c'.enums = c.enums
  messages : c'.messages = c.messages.map (MessagePlan.renumber σ)
  mappings : c'.mappings = c.mappings.map (List.map (FieldMapping.renumber σ))
  services : c'.services = c.services.map (ServicePlan.renumber σ)
  declarations : c'.order.declarations = c.order.declarations

/-- What comes of a schema with its imports in two orders: it fails both times, or compiles to
    schemas that refer to the same declarations of the same imports. -/
def SameMeaning (imports imports' : List String) :
    Except CompileError CompiledSchema → Except CompileError CompiledSchema → Prop :=
  Alike fun c c' => ∃ σ, Rearranges σ imports imports' ∧ c.RenumberedBy σ c'

namespace Schema

variable {s : Schema} {t : ImportTable} {imports : List String}

/-- The schema is compiled alike from any order of its imports in which it is verified. -/
theorem sameMeaning_of_verify {σ : Nat → Nat} (hσ : Rearranges σ s.imports imports)
    (hs : s.verify t = .ok ()) (hs' : (s.withImports imports).verify t = .ok ())
    (hclear : ∀ name ∈ s.references, ¬(s.scope t).Clashes name) :
    SameMeaning s.imports imports (s.compile t) ((s.withImports imports).compile t) := by
  have himports : Rearranges σ (s.scope t).imports (imports.filterMap t.get?) :=
    hσ.filterMap (fun _ => isSome_of_verify hs) fun _ => isSome_of_verify hs'
  have hmappings : Alike (fun ms ms' => ms' = ms.map (List.map (FieldMapping.renumber σ)))
      (s.messages.mapM (s.scope t).mapMessage)
      (s.messages.mapM ((s.withImports imports).scope t).mapMessage) := by
    refine .mapM fun m hm => Scope.alike_mapMessage himports imports fun f hf name hname => ?_
    exact hclear name (by simp only [references, List.mem_append, List.mem_flatMap]; grind)
  have hservices : Alike (fun ps ps' => ps' = ps.map (ServicePlan.renumber σ))
      (s.services.mapM (s.scope t).mapService)
      (s.services.mapM ((s.withImports imports).scope t).mapService) := by
    refine .mapM fun service hservice =>
      Scope.alike_mapService himports imports fun m hm name hname => ?_
    exact hclear name (by simp only [references, List.mem_append, List.mem_flatMap]; grind)
  rw [compile_of_verify hs, compile_of_verify hs']
  refine hmappings.bind fun mappings _ hm => hservices.bind fun services _ hp => ?_
  have hplans : (s.withImports imports).messagePlans
      (mappings.map (List.map (FieldMapping.renumber σ))) =
      (s.messagePlans mappings).map (MessagePlan.renumber σ) := messagePlans_renumber σ s mappings
  rw [hm, hp, hplans, checkValueRecursion_renumber]
  refine (Alike.refl (fun _ => trivial) _).bind fun _ _ (_ : True) => .ok ⟨σ, hσ, ?_⟩
  exact ⟨himports, rfl, rfl, rfl, rfl, rfl, rfl, declarationOrder_renumber σ _ _⟩

/-- Without clashes, the order of imports does not matter. -/
theorem sameMeaning_of_clear (h : s.imports.Perm imports)
    (hclear : ∀ name ∈ s.references, ¬(s.scope t).Clashes name) :
    SameMeaning s.imports imports (s.compile t) ((s.withImports imports).compile t) := by
  have hverify : Alike (fun _ _ => True) (s.verify t) ((s.withImports imports).verify t) :=
    alike_verify h
  -- Either order of imports passes or none does. Only if both do is there something to compare.
  cases hs : s.verify t with
  | error e =>
    cases hs' : (s.withImports imports).verify t with
    | error e' =>
      rw [compile, compile, hs, hs']
      exact .error e e'
    | ok => simpa [hs, hs'] using hverify.ok_iff
  | ok =>
    cases hs' : (s.withImports imports).verify t with
    | error => simpa [hs, hs'] using hverify.ok_iff
    | ok =>
      obtain ⟨σ, hσ⟩ := rearranges_of_perm h (nodup_of_verify hs)
      exact sameMeaning_of_verify hσ hs hs' hclear

end Schema

/-! ## Clashes -/

/-- What refers to an import after renumbering did so before. -/
theorem ElementType.origin?_eq_imported {σ : Nat → Nat} {e : ElementType} {i : Nat}
    (h : (e.renumber σ).step.origin? = some (.imported i)) :
    ∃ k, e.step.origin? = some (.imported k) ∧ σ k = i := by
  rcases e with _ | ⟨_ | k, _⟩ | ⟨_ | k, _⟩
  · cases h
  · cases h
  · cases h
    exact ⟨k, rfl, rfl⟩
  · cases h
  · cases h
    exact ⟨k, rfl, rfl⟩

namespace Scope

variable {c c' : Scope} {σ : Nat → Nat} {name : String}

/-- A name refers to the same declaration from both scopes. -/
def Agree (σ : Nat → Nat) (c c' : Scope) (name : String) : Prop :=
  ∃ e, c.resolve? name = .ok (some e) ∧ c'.resolve? name = .ok (some (e.renumber σ))

/-- Scopes that give the same meaning to a type agree about its names. -/
theorem agree_of_denotes {type : FieldType} {e : ElementType} (h : c.Denotes type e)
    (h' : c'.Denotes type (e.renumber σ)) : ∀ name ∈ type.names, Agree σ c c' name := by
  cases h with
  | scalar => simp [FieldType.names]
  | named hname =>
    cases h' with
    | named hname' => simpa [FieldType.names] using ⟨e, hname, hname'⟩

/-- Scopes that give the same meaning to the type of a field agree about its names. -/
theorem agree_of_fieldType {message field : String} {type : FieldType} {t : ResolvedType}
    (h : c.fieldType message field type = .ok t)
    (h' : c'.fieldType message field type = .ok (t.renumber σ)) :
    ∀ name ∈ type.names, Agree σ c c' name := by
  replace h := denotesType_of_fieldType h
  replace h' := denotesType_of_fieldType h'
  cases h with
  | single h =>
    cases h' with
    | single h' => exact agree_of_denotes h h'
  | optional h =>
    cases h' with
    | optional h' => exact fun name hname => agree_of_denotes h h' name hname
  | repeated h =>
    cases h' with
    | repeated h' => exact fun name hname => agree_of_denotes h h' name hname
  | map hk hv =>
    cases h' with
    | map hk' hv' =>
      exact List.forall_mem_append.2 ⟨agree_of_denotes hk hk', agree_of_denotes hv hv'⟩

theorem agree_of_mapField {m : Message} {f : Field} {mapping : FieldMapping}
    (h : c.mapField m f = .ok mapping) (h' : c'.mapField m f = .ok (mapping.renumber σ)) :
    ∀ name ∈ f.type.names, Agree σ c c' name := by
  obtain ⟨t, ht, rfl⟩ := map_eq_ok.1 h
  obtain ⟨t', ht', heq⟩ := map_eq_ok.1 h'
  have htype : t' = t.renumber σ := congrArg FieldMapping.type heq
  exact agree_of_fieldType ht (htype ▸ ht')

/-- Scopes that map a method in the same way agree about its input and its output. -/
theorem agree_of_mapMethod {service : String} {m : Method} {p : MethodPlan}
    (h : c.mapMethod service m = .ok p) (h' : c'.mapMethod service m = .ok (p.renumber σ)) :
    ∀ name ∈ [m.input, m.output], Agree σ c c' name := by
  obtain ⟨input, hinput, h⟩ := bind_eq_ok.1 h
  obtain ⟨output, houtput, h⟩ := bind_eq_ok.1 h
  cases Except.ok.inj h
  obtain ⟨input', hinput', h'⟩ := bind_eq_ok.1 h'
  obtain ⟨output', houtput', h'⟩ := bind_eq_ok.1 h'
  cases Except.ok.inj h'
  have hi := resolveMessage_eq_ok hinput
  have hi' := resolveMessage_eq_ok hinput'
  have ho := resolveMessage_eq_ok houtput
  have ho' := resolveMessage_eq_ok houtput'
  simpa using ⟨⟨.message input, hi, hi'⟩, ⟨.message output, ho, ho'⟩⟩

theorem agree_of_mapService {service : Service} {p : ServicePlan}
    (h : c.mapService service = .ok p) (h' : c'.mapService service = .ok (p.renumber σ)) :
    ∀ m ∈ service.methods, ∀ name ∈ [m.input, m.output], Agree σ c c' name := by
  obtain ⟨methods, hmethods, h⟩ := bind_eq_ok.1 h
  cases Except.ok.inj h
  obtain ⟨methods', hmethods', h'⟩ := bind_eq_ok.1 h'
  have heq : methods' = methods.map (MethodPlan.renumber σ) :=
    congrArg ServicePlan.methods (Except.ok.inj h')
  intro m hm
  obtain ⟨p, hp, hp'⟩ := exists_of_mapM_map hmethods (heq ▸ hmethods') m hm
  exact agree_of_mapMethod hp hp'

end Scope

namespace Schema

variable {s : Schema} {t : ImportTable} {imports : List String} {c c' : CompiledSchema}
  {σ : Nat → Nat}

/-- Renumbered schemas refer to the same declarations by every name. -/
theorem agree_of_compile (h : s.compile t = .ok c) (h' : (s.withImports imports).compile t = .ok c')
    (hrenumbered : c.RenumberedBy σ c') :
    ∀ name ∈ s.references, Scope.Agree σ (s.scope t) ((s.withImports imports).scope t) name := by
  intro name hname
  -- A name is referred to by a field of a message or by a method of a service.
  rcases List.mem_append.1 hname with hname | hname
  · obtain ⟨m, hm, hname⟩ := List.mem_flatMap.1 hname
    obtain ⟨f, hf, hname⟩ := List.mem_flatMap.1 hname
    have hmappings' := (mappings_of_compile h').1
    rw [hrenumbered.mappings] at hmappings'
    obtain ⟨fields, hfields, hfields'⟩ :=
      exists_of_mapM_map (mappings_of_compile h).1 hmappings' m hm
    obtain ⟨mapping, hmapping, hmapping'⟩ := exists_of_mapM_map hfields hfields' f hf
    exact Scope.agree_of_mapField hmapping hmapping' name hname
  · obtain ⟨service, hservice, hname⟩ := List.mem_flatMap.1 hname
    obtain ⟨m, hm, hname⟩ := List.mem_flatMap.1 hname
    have hservices' := services_of_compile h'
    rw [hrenumbered.services] at hservices'
    obtain ⟨p, hp, hp'⟩ := exists_of_mapM_map (services_of_compile h) hservices' service hservice
    exact Scope.agree_of_mapService hp hp' m hm name hname

/-- If the order of imports does not matter, then a name refers to whatever import declares it
    after its package: it does when that import comes first. -/
theorem refers_to_declaring
    (hsame : ∀ imports, s.imports.Perm imports →
      SameMeaning s.imports imports (s.compile t) ((s.withImports imports).compile t))
    (h : s.compile t = .ok c) {name : String} (hname : name ∈ s.references)
    (hown : (s.scope t).findOwn? ((s.scope t).withoutPackage (undotted name)) = none)
    {first : String} (hfirst : first ∈ s.imports) {a : CompiledSchema}
    (hget : t.get? first = some a) (ha : a.DeclaresQualified (undotted name)) :
    ∃ e k, (s.scope t).resolve? name = .ok (some e) ∧ e.step.origin? = some (.imported k) ∧
      s.imports[k]? = some first := by
  -- With the import in front of all others, the name stands for a type of it.
  have hfront := hsame _ (List.perm_cons_erase hfirst)
  rw [h] at hfront
  generalize h' : (s.withImports (first :: s.imports.erase first)).compile t = outcome at hfront
  rcases hfront with ⟨σ, hσ, hrenumbered⟩
  obtain ⟨e, he, he'⟩ := agree_of_compile h h' hrenumbered name hname
  obtain ⟨e', hfound, horigin⟩ := Scope.resolve?_of_first
    (c := (s.withImports (first :: s.imports.erase first)).scope t)
    (List.filterMap_cons_some hget) hown ha
  cases he'.symm.trans hfound
  obtain ⟨k, hk, hzero⟩ := ElementType.origin?_eq_imported horigin
  refine ⟨e, k, he, hk, ?_⟩
  rw [← hσ.moves k, hzero]
  rfl

/-- The order of imports does not matter, unless a name clashes and there is an order in which
    the schema compiles. -/
theorem import_order_iff (s : Schema) (t : ImportTable) :
    (∀ imports, s.imports.Perm imports →
      SameMeaning s.imports imports (s.compile t) ((s.withImports imports).compile t)) ↔
    ((∃ name ∈ s.references, (s.scope t).Clashes name) →
      ∀ imports, s.imports.Perm imports → ∃ e, (s.withImports imports).compile t = .error e) := by
  constructor
  · rintro hsame ⟨name, hname, hown, i, j, a, b, hne, hi, ha, hj, hb⟩ imports hperm
    cases hcompile : (s.withImports imports).compile t with
    | error e => exact ⟨e, rfl⟩
    | ok c' =>
      exfalso
      obtain ⟨c, hc⟩ := (hsame imports hperm).ok_iff.2 ⟨c', hcompile⟩
      have hverify := (compile_eq_ok hc).1
      have hget := (filterMap_getElem? fun _ => isSome_of_verify hverify).2
      obtain ⟨first, hfirst, hgeta⟩ := Option.bind_eq_some_iff.1 ((hget i).symm.trans hi)
      obtain ⟨second, hsecond, hgetb⟩ := Option.bind_eq_some_iff.1 ((hget j).symm.trans hj)
      -- The name refers to both of the imports that declare it.
      obtain ⟨e, k, he, hk, hat⟩ :=
        refers_to_declaring hsame hc hname hown (List.mem_of_getElem? hfirst) hgeta ha
      obtain ⟨e', k', he', hk', hat'⟩ :=
        refers_to_declaring hsame hc hname hown (List.mem_of_getElem? hsecond) hgetb hb
      cases he.symm.trans he'
      cases hk.symm.trans hk'
      cases hat.symm.trans hat'
      have hi := (List.getElem?_eq_some_iff.1 hfirst).1
      exact hne ((List.getElem?_inj hi (nodup_of_verify hverify)).1 (hfirst.trans hsecond.symm))
  · intro hfail imports hperm
    by_cases hclash : ∃ name ∈ s.references, (s.scope t).Clashes name
    · obtain ⟨e, he⟩ := hfail hclash s.imports (.refl _)
      obtain ⟨e', he'⟩ := hfail hclash imports hperm
      rw [he', show s.compile t = .error e from he]
      exact .error e e'
    · exact sameMeaning_of_clear hperm fun name hname hclashes => hclash ⟨name, hname, hclashes⟩

end Schema

namespace Sample

/-- A schema of a package that others share, with a message of these fields. -/
def idSchema (name : String) (fields : List Field) : Schema where
  name := name
  package := some "shared"
  messages := [⟨"Id", fields⟩]

/-- What such a schema compiles to. -/
def compiledId (name : String) (fields : List Field) : CompiledSchema where
  name := name
  package := some "shared"
  imports := []
  enums := []
  messages := [.ofMappings 0 ⟨"Id", fields⟩ (fields.map numberMapping)]
  mappings := [fields.map numberMapping]
  services := []
  order := ⟨[], [.message 0]⟩
where
  numberMapping (f : Field) : FieldMapping := .ofType f (.single (.scalar .int32))

/-- Two schemas of one package that declare the same name. -/
def twins : ImportTable where
  entries :=
    [ ("left.proto", compiledId "left.proto" [⟨"number", 1, .scalar .int32, false⟩]),
      ("right.proto", compiledId "right.proto" []) ]

/-- A schema that imports both, and refers to the name that they share. -/
def user : Schema where
  name := "user.proto"
  imports := ["left.proto", "right.proto"]
  messages := [⟨"User", [⟨"id", 1, .named "shared.Id", false⟩]⟩]

/-- What it compiles to: the name refers to the first import. -/
def compiledUser (imports : List CompiledSchema) : CompiledSchema where
  name := "user.proto"
  package := none
  imports := imports
  enums := []
  messages := [.ofMappings 0 ⟨"User", []⟩ [idMapping]]
  mappings := [[idMapping]]
  services := []
  order := ⟨[0], [.message 0]⟩
where
  idMapping : FieldMapping :=
    .ofType ⟨"id", 1, .named "shared.Id", false⟩ (.single (.message ⟨.imported 0, 0⟩))

theorem built_twins : twins.Built :=
  .publish (s := idSchema "right.proto" [])
    (.publish (s := idSchema "left.proto" [⟨"number", 1, .scalar .int32, false⟩])
      .empty .empty rfl rfl) .empty rfl rfl

end Sample

open Sample

/-- The imports in the other order change what the name refers to. -/
theorem not_sameMeaning_user :
    twins.Built ∧ user.imports.Perm ["right.proto", "left.proto"] ∧
      ¬SameMeaning user.imports ["right.proto", "left.proto"] (user.compile twins)
        ((user.withImports ["right.proto", "left.proto"]).compile twins) := by
  refine ⟨built_twins, .swap _ _ _, fun h => ?_⟩
  have hleft : user.compile twins = .ok (compiledUser (twins.entries.map Prod.snd)) := rfl
  have hright : (user.withImports ["right.proto", "left.proto"]).compile twins =
      .ok (compiledUser (twins.entries.map Prod.snd).reverse) := rfl
  rw [hleft, hright] at h
  rcases h with ⟨σ, hσ, hrenumbered⟩
  -- The name refers to position 0 in both orders, where different imports are.
  have hzero : 0 = σ 0 := by
    simpa [compiledUser, compiledUser.idMapping, FieldMapping.ofType, FieldMapping.renumber,
      ResolvedType.renumber, ElementType.renumber, MessageId.renumber, Origin.renumber]
      using hrenumbered.mappings
  have hmoves := hσ.moves 0
  rw [← hzero] at hmoves
  simp [user] at hmoves

end Marshal
