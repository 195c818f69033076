import Marshal.Proofs.Compiled

/-!
# Renumbered imports

Identities refer to imports by their positions. When the imports are put in another order,
these positions change, and nothing else should: `renumber σ` is an identity, a type, a
step, a plan with the position `σ i` in the place of `i`.

Everything that is made from identities without looking at positions is made from
renumbered ones in the same way: steps from mappings (`FieldMapping.step_renumber`), plans
from steps (`Schema.messagePlans_renumber`), and the search of messages by what they hold by
value (`valueSearch_renumber`), which stays in the schema itself.

The imports themselves are lists of which one is the other in another order (`Rearranges`).
-/

namespace Marshal

variable (σ : Nat → Nat)

/-! ## Identities and types -/

/-- The origin with its position renumbered. -/
def Origin.renumber : Origin → Origin
  | .own => .own
  | .imported i => .imported (σ i)

/-- The identity with its position renumbered. -/
def MessageId.renumber (id : MessageId) : MessageId := { id with origin := id.origin.renumber σ }

/-- The identity with its position renumbered. -/
def EnumId.renumber (id : EnumId) : EnumId := { id with origin := id.origin.renumber σ }

/-- The type with its positions renumbered. -/
def ElementType.renumber : ElementType → ElementType
  | .scalar s => .scalar s
  | .enum id => .enum (id.renumber σ)
  | .message id => .message (id.renumber σ)

/-- The type with its positions renumbered. -/
def ResolvedType.renumber : ResolvedType → ResolvedType
  | .single e => .single (e.renumber σ)
  | .optional e => .optional (e.renumber σ)
  | .repeated e => .repeated (e.renumber σ)
  | .map key value => .map (key.renumber σ) (value.renumber σ)

/-- The mapping with its positions renumbered. -/
def FieldMapping.renumber (m : FieldMapping) : FieldMapping := { m with type := m.type.renumber σ }

/-! ## Plans -/

/-- The value step with its positions renumbered. -/
def ValueStep.renumber : ValueStep → ValueStep
  | .scalar p => .scalar p
  | .enum id => .enum (id.renumber σ)
  | .nested id => .nested (id.renumber σ)

/-- The layout with its positions renumbered. -/
def Shape.renumber : Shape → Shape
  | .single v => .single (v.renumber σ)
  | .optional v => .optional (v.renumber σ)
  | .repeated v extent => .repeated (v.renumber σ) extent
  | .map key value extent => .map (key.renumber σ) (value.renumber σ) extent

/-- The step with its positions renumbered. -/
def Step.renumber (step : Step) : Step := { step with shape := step.shape.renumber σ }

/-- The plan with its positions renumbered. -/
def MessagePlan.renumber (p : MessagePlan) : MessagePlan :=
  { p with steps := p.steps.map (Step.renumber σ) }

/-- The plan with its positions renumbered. -/
def MethodPlan.renumber (m : MethodPlan) : MethodPlan :=
  { m with input := m.input.renumber σ, output := m.output.renumber σ }

/-- The plan with its positions renumbered. -/
def ServicePlan.renumber (s : ServicePlan) : ServicePlan :=
  { s with methods := s.methods.map (MethodPlan.renumber σ) }

/-! ## What does not look at positions -/

@[simp] theorem ElementType.kind_renumber (e : ElementType) : (e.renumber σ).kind = e.kind := by
  rcases e with _ | _ | _ <;> rfl

@[simp] theorem ElementType.step_renumber (e : ElementType) :
    (e.renumber σ).step = e.step.renumber σ := by
  rcases e with _ | _ | _ <;> rfl

@[simp] theorem Scope.isMapKey_renumber (e : ElementType) :
    isMapKey (e.renumber σ) = isMapKey e := by
  rcases e with _ | _ | _ <;> rfl

/-- A field is mapped to a renumbered type as it is to the type. -/
theorem FieldMapping.ofType_renumber (f : Field) (t : ResolvedType) :
    FieldMapping.ofType f (t.renumber σ) = (FieldMapping.ofType f t).renumber σ := by
  rcases t with _ | _ | _ | _ <;>
    simp [ofType, renumber, ResolvedType.renumber, ResolvedType.presence, ResolvedType.kind,
      ResolvedType.keyKind?, ResolvedType.extent?]

/-- Renumbering changes nothing about the shape of a field but the identities in it. -/
theorem FieldMapping.shape_renumber (m : FieldMapping) :
    (m.renumber σ).shape = m.shape.renumber σ := by
  rcases m with ⟨_, _, _ | _ | _ | _⟩ <;>
    simp [shape, renumber, ResolvedType.renumber, Shape.renumber, extentOrRule]

theorem Shape.isSkippable_renumber (s : Shape) : (s.renumber σ).isSkippable = s.isSkippable := by
  rcases s with _ | _ | _ | _ <;> rfl

/-- The step of a field is renumbered along with its mapping. -/
theorem FieldMapping.step_renumber (m : FieldMapping) :
    (m.renumber σ).step = m.step.renumber σ := by
  simp only [step, Step.renumber, shape_renumber, Shape.isSkippable_renumber]
  rfl

/-- Plans are made from renumbered mappings in the same way. -/
theorem Schema.messagePlans_renumber (s : Schema) (mappings : List (List FieldMapping)) :
    s.messagePlans (mappings.map (List.map (FieldMapping.renumber σ))) =
      (s.messagePlans mappings).map (MessagePlan.renumber σ) := by
  simp only [messagePlans, List.zip_map_right, List.zipIdx_map, List.map_map]
  refine List.map_congr_left fun entry _ => ?_
  simp [MessagePlan.ofMappings, MessagePlan.renumber, FieldMapping.step_renumber]

/-! ## What stays in the schema itself -/

/-- Messages of the schema itself are not renumbered, so neither are those held by value. -/
theorem MessagePlan.valueEdges_renumber (p : MessagePlan) :
    (p.renumber σ).valueEdges = p.valueEdges := by
  rw [valueEdges, valueEdges, renumber, List.filterMap_map]
  refine List.filterMap_congr fun step _ => ?_
  rcases step with ⟨_, _, _, (_ | _ | ⟨_ | _, _⟩) | _ | _ | _⟩ <;> rfl

variable (plans : List MessagePlan)

theorem valueEdgesAt_renumber (i : Nat) :
    valueEdgesAt (plans.map (MessagePlan.renumber σ)) i = valueEdgesAt plans i := by
  rw [valueEdgesAt, valueEdgesAt, List.getElem?_map]
  cases plans[i]? with
  | none => rfl
  | some p => exact p.valueEdges_renumber σ

theorem planName_renumber (i : Nat) :
    planName (plans.map (MessagePlan.renumber σ)) i = planName plans i := by
  rw [planName, planName, List.getElem?_map]
  cases plans[i]? <;> rfl

/-- What messages hold by value is searched in the same way. -/
theorem valueSearch_renumber :
    valueSearch (plans.map (MessagePlan.renumber σ)) = valueSearch plans := by
  rw [valueSearch, valueSearch, List.length_map, funext (valueEdgesAt_renumber σ plans)]

/-- Whether a message holds itself by value does not depend on imports. -/
theorem checkValueRecursion_renumber :
    checkValueRecursion (plans.map (MessagePlan.renumber σ)) = checkValueRecursion plans := by
  simp only [checkValueRecursion, valueSearch_renumber, planName_renumber]

/-- The order of declarations does not depend on imports. -/
theorem declarationOrder_renumber (enums : List EnumPlan) :
    declarationOrder enums (plans.map (MessagePlan.renumber σ)) = declarationOrder enums plans := by
  rw [declarationOrder, declarationOrder, valueSearch_renumber]

/-! ## Lists in another order -/

/-- The second list is the first one in another order: what is at position `i` moves to `σ i`. -/
structure Rearranges {α : Type} (σ : Nat → Nat) (l l' : List α) : Prop where
  length_eq : l'.length = l.length
  moves : ∀ i : Nat, l'[σ i]? = l[i]?
  injective : ∀ i < l.length, ∀ j < l.length, σ i = σ j → i = j

section Rearranging

variable {α β : Type} {σ : Nat → Nat} {l l' : List α}

/-- Different elements in another order, told by where they are. -/
theorem rearranges_of_perm [BEq α] [LawfulBEq α] (h : l.Perm l') (hnodup : l.Nodup) :
    ∃ σ, Rearranges σ l l' := by
  -- Every element is moved to the first place where it is found. Places past the end stay.
  have hmoves : ∀ i (hi : i < l.length), l'[l'.idxOf l[i]]? = some l[i] := fun i hi =>
    List.getElem?_idxOf (h.mem_iff.1 (List.getElem_mem hi))
  refine ⟨fun i => if hi : i < l.length then l'.idxOf l[i] else i, h.length_eq.symm, ?_, ?_⟩
  · intro i
    by_cases hi : i < l.length
    · simp only [hi, ↓reduceDIte, hmoves i hi, List.getElem?_eq_getElem hi]
    · rw [dif_neg hi, List.getElem?_eq_none (Nat.le_of_not_lt hi),
        List.getElem?_eq_none (h.length_eq ▸ Nat.le_of_not_lt hi)]
  · intro i hi j hj hij
    simp only [hi, hj, ↓reduceDIte] at hij
    have hsame := hmoves i hi
    rw [hij, hmoves j hj, Option.some.injEq] at hsame
    exact (hnodup.getElem_inj_iff).1 hsame.symm

/-- The elements with their positions, in the other order. -/
theorem Rearranges.zipIdx_perm (h : Rearranges σ l l') :
    (l.zipIdx.map (Prod.map id σ)).Perm l'.zipIdx := by
  have hnodup : (l.zipIdx.map (Prod.map id σ)).Nodup := by
    refine List.Nodup.of_map Prod.snd ?_
    rw [List.map_map]
    change (l.zipIdx.map (σ ∘ Prod.snd)).Nodup
    rw [← List.map_map, List.zipIdx_map_snd, ← List.range_eq_range']
    refine List.Nodup.map_on (fun i hi j hj => ?_) List.nodup_range
    exact h.injective i (List.mem_range.1 hi) j (List.mem_range.1 hj)
  have hsubset : l.zipIdx.map (Prod.map id σ) ⊆ l'.zipIdx := by
    intro entry hentry
    obtain ⟨⟨a, i⟩, hmem, rfl⟩ := List.mem_map.1 hentry
    have hi : l[i]? = some a := List.mem_zipIdx_iff_getElem?.1 hmem
    exact List.mem_zipIdx_iff_getElem?.2 ((h.moves i).trans hi)
  refine (List.subperm_of_subset hnodup hsubset).perm_of_length_le ?_
  rw [List.length_map, List.length_zipIdx, List.length_zipIdx, h.length_eq]

/-- Where all elements have an image, the images are at the places of the elements. -/
theorem filterMap_getElem? {f : α → Option β} (hl : ∀ a ∈ l, (f a).isSome) :
    (l.filterMap f).length = l.length ∧
      ∀ i : Nat, (l.filterMap f)[i]? = (l[i]?).bind f := by
  induction l with
  | nil => simp
  | cons a l ih =>
    rw [List.forall_mem_cons] at hl
    obtain ⟨b, hb⟩ := Option.isSome_iff_exists.1 hl.1
    obtain ⟨hlength, hget⟩ := ih hl.2
    rw [List.filterMap_cons_some hb]
    refine ⟨by simp [hlength], fun i => ?_⟩
    cases i with
    | zero => simp [hb]
    | succ i => simpa using hget i

/-- What is made of the elements one by one is in the other order as well. -/
theorem Rearranges.filterMap {f : α → Option β} (h : Rearranges σ l l')
    (hl : ∀ a ∈ l, (f a).isSome) (hl' : ∀ a ∈ l', (f a).isSome) :
    Rearranges σ (l.filterMap f) (l'.filterMap f) := by
  obtain ⟨hlength, hget⟩ := filterMap_getElem? hl
  obtain ⟨hlength', hget'⟩ := filterMap_getElem? hl'
  refine ⟨by rw [hlength, hlength', h.length_eq], fun i => ?_, ?_⟩
  · rw [hget, hget', h.moves i]
  · rw [hlength]
    exact h.injective

end Rearranging

end Marshal
