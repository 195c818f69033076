import Marshal.Proofs.Conformance
import Marshal.Sample.Compiled
import Mathlib.Order.WellFounded

/-!
# Messages held by value

A message may hold others by value, of its own schema or of one that is imported, and the default
of a message has their defaults in it. Compiling a schema looks for messages that hold themselves
among its own ones only. That is enough (`nesting_ends`):

* going on within a schema makes the rank of a message smaller, and going on to an import leaves
  the schema for one that is well formed by itself, so no chain of messages that hold each other
  goes on forever: `acc_holds`;
* the search for a default thus ends by itself. That it may go through so many messages of a
  schema only is never felt: `defaultValue_nested`.
-/

namespace Marshal

/-- The first message holds the second one by value. Each comes with the schema that the
    identities in its plan are relative to. -/
def Holds (m m' : CompiledSchema × MessagePlan) : Prop :=
  ∃ step ∈ m.2.steps, ∃ id, step.shape = .single (.nested id) ∧ m.1.messagePlan? id = some m'

namespace CompiledSchema

/-- The messages that can be come to from a schema by following identities. -/
inductive Reaches (s : CompiledSchema) : CompiledSchema × MessagePlan → Prop
  | first {id : MessageId} {m : CompiledSchema × MessagePlan} :
    s.messagePlan? id = some m → Reaches s m
  | next {id : MessageId} {m m' : CompiledSchema × MessagePlan} :
    Reaches s m → m.1.messagePlan? id = some m' → Reaches s m'

variable {s owner : CompiledSchema} {p : MessagePlan}

/-- What an identity points to in a well-formed schema is a message of one. -/
theorem WellFormed.of_messagePlan? (hs : s.WellFormed) {id : MessageId}
    (hid : s.messagePlan? id = some (owner, p)) : owner.WellFormed ∧ p ∈ owner.messages := by
  obtain ⟨ho, hp⟩ := messagePlan?_eq_some.1 hid
  exact ⟨hs.of_owner? ho, List.mem_of_getElem? hp⟩

theorem WellFormed.of_reaches (hs : s.WellFormed) {m : CompiledSchema × MessagePlan}
    (h : s.Reaches m) : m.1.WellFormed ∧ m.2 ∈ m.1.messages := by
  induction h with
  | first hid => exact hs.of_messagePlan? hid
  | next _ hid ih => exact ih.1.of_messagePlan? hid

/-! ## Chains -/

/-- No chain goes on forever from a message of a well-formed schema. -/
theorem acc_holds (hs : s.WellFormed) :
    ∀ p ∈ s.messages, Acc (fun m' m => Holds m m') (s, p) := by
  induction hs with
  | @intro s hcons himports ih =>
    obtain ⟨rank, hrank⟩ := hcons.rank
    have hown : ∀ n i p, rank i = n → s.messages[i]? = some p →
        Acc (fun m' m => Holds m m') (s, p) := by
      intro n
      induction n using Nat.strongRecOn with
      | ind n ihrank =>
        rintro i p rfl hp
        refine .intro _ ?_
        rintro ⟨owner, q⟩ ⟨step, hstep, id, hshape, hid⟩
        obtain ⟨ho, hq⟩ := messagePlan?_eq_some.1 hid
        obtain ⟨_ | j, k⟩ := id
        · -- Among the own messages, the rank gets smaller.
          cases Option.some.inj ho
          have hedge := MessagePlan.mem_valueEdges.2 ⟨step, hstep, rfl, hshape⟩
          exact ihrank _ ((hrank i p hp).2 _ hedge) k q rfl hq
        · -- Those of an import do not lead back.
          exact ih owner (List.mem_of_getElem? ho) q (List.mem_of_getElem? hq)
    intro p hp
    obtain ⟨i, hi⟩ := List.mem_iff_getElem?.1 hp
    exact hown _ i p rfl hi

theorem not_exists_chain (hs : s.WellFormed) :
    ¬∃ chain : Nat → CompiledSchema × MessagePlan,
      s.Reaches (chain 0) ∧ ∀ n, Holds (chain n) (chain (n + 1)) := by
  rintro ⟨chain, hreaches, hholds⟩
  obtain ⟨howner, hp⟩ := hs.of_reaches hreaches
  exact (acc_iff_isEmpty_descending_chain.1 (acc_holds howner _ hp)).false ⟨chain, rfl, hholds⟩

/-! ## Defaults -/

/-- The default of a message has those of its fields in it, each looked for anew in the schema
    that declares the message. -/
theorem defaultValue_nested (hs : s.WellFormed) {id : MessageId}
    (hid : s.messagePlan? id = some (owner, p)) :
    s.defaultValue (.nested id) = .record p.name <$> defaultFields owner.defaultValue p.steps := by
  obtain ⟨howner, hp⟩ := hs.of_messagePlan? hid
  have hsingle : ∀ step ∈ p.steps, ∀ v, step.shape = .single v →
      Spells.Default owner owner.defaultValue owner.defaultBytes v := fun step hstep v hshape =>
    exists_default howner v (resolves_single howner.consistent hp hstep hshape)
  obtain ⟨fields, -, hfields, -, hstand, -⟩ := exists_absentFields hsingle
  have hv : s.Resolves (.nested id) := by simp [Resolves, hid]
  obtain ⟨w, -, hw, -, hdefault, -⟩ := exists_default hs _ hv
  -- Both ways of looking for it come to what stands in for the message, which is unique.
  rw [hw, hfields, hdefault.unique (.nested hid hstand)]
  rfl

/-- A default is found for every step of a message, and for the values of the step, and conforms
    to it. -/
theorem exists_conforming_default (hs : s.WellFormed) (hp : p ∈ s.messages) {step : Step}
    (hstep : step ∈ p.steps) :
    (∀ v ∈ step.shape.values, ∃ w, s.defaultValue v = .ok w ∧ Conforms s v w) ∧
      ∃ w, s.defaultStep step = .ok w ∧ ConformsShape s step.shape w := by
  constructor
  · intro v hv
    obtain ⟨w, -, hw, -, hdefault, -⟩ :=
      exists_default hs v (hs.consistent.resolves p hp step hstep v hv)
    exact ⟨w, hw, hdefault.conforms hs⟩
  · exact ⟨_, defaultStep_eq hs hp hstep, (standsIn_default? hs hp hstep).conforms hs⟩

end CompiledSchema

/-- In a schema that was compiled against a table built by compiling and publishing, and in all
    that it imports, no messages hold each other by value in a chain that goes on forever. The
    default of a message is therefore made of those of the messages that it holds, one after the
    other, until there are none left, and every step of a message that can be come to has one,
    which conforms to it. -/
theorem nesting_ends {t : ImportTable} (ht : t.Built) {schema : Schema} {s : CompiledSchema}
    (hs : schema.compile t = .ok s) :
    (¬∃ chain : Nat → CompiledSchema × MessagePlan,
      s.Reaches (chain 0) ∧ ∀ n, Holds (chain n) (chain (n + 1))) ∧
    ∀ owner p, s.Reaches (owner, p) →
      (∀ id owner' p', owner.messagePlan? id = some (owner', p') →
        owner.defaultValue (.nested id) =
          .record p'.name <$> defaultFields owner'.defaultValue p'.steps) ∧
      ∀ step ∈ p.steps,
        (∀ v ∈ step.shape.values, ∃ w, owner.defaultValue v = .ok w ∧ Conforms owner v w) ∧
          ∃ w, owner.defaultStep step = .ok w ∧ ConformsShape owner step.shape w := by
  have hwf := CompiledSchema.IsCompiled.wellFormed ⟨t, schema, ht, hs⟩
  refine ⟨CompiledSchema.not_exists_chain hwf, fun owner p hreaches => ?_⟩
  obtain ⟨howner, hp⟩ := hwf.of_reaches hreaches
  exact ⟨fun id owner' p' hid => CompiledSchema.defaultValue_nested howner hid,
    fun step hstep => CompiledSchema.exists_conforming_default howner hp hstep⟩

namespace Sample

/-- The plan of shapes. -/
def shapePlan : MessagePlan := ⟨⟨.own, 0⟩, "Shape", shapeMappings.map FieldMapping.step⟩

/-- The plan of points, in another schema. -/
def pointPlan : MessagePlan := ⟨⟨.own, 0⟩, "Point", pointMappings.map FieldMapping.step⟩

end Sample

open Sample

/-- A shape holds a point of an imported schema by value. -/
theorem nesting_ends_shapes :
    compiledShapes.Reaches (compiledShapes, shapePlan) ∧
      Holds (compiledShapes, shapePlan) (compiledGeo, pointPlan) ∧
      (¬∃ chain : Nat → CompiledSchema × MessagePlan, compiledShapes.Reaches (chain 0) ∧
        ∀ n, Holds (chain n) (chain (n + 1))) ∧
      ∃ w, compiledShapes.defaultValue (.nested ⟨.imported 0, 0⟩) = .ok w ∧
        Conforms compiledShapes (.nested ⟨.imported 0, 0⟩) w := by
  have hbuilt : ImportTable.Built ⟨[("geo.proto", compiledGeo)]⟩ :=
    .publish .empty .empty compile_geo publish_compiledGeo
  have hplan : compiledShapes.messagePlan? ⟨.own, 0⟩ = some (compiledShapes, shapePlan) := rfl
  have hreaches : compiledShapes.Reaches (compiledShapes, shapePlan) := .first hplan
  obtain ⟨hchain, hdefaults⟩ := nesting_ends hbuilt compile_shapes
  obtain ⟨step, hstep, hshape⟩ : ∃ step ∈ shapePlan.steps,
      step.shape = .single (.nested ⟨.imported 0, 0⟩) := ⟨_, List.mem_of_getElem? (i := 2) rfl, rfl⟩
  refine ⟨hreaches, ⟨step, hstep, _, hshape, rfl⟩, hchain, ?_⟩
  refine (hdefaults _ _ hreaches).2 step hstep |>.1 _ ?_
  rw [hshape]
  exact List.mem_singleton_self _

end Marshal
