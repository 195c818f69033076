import Marshal.Proofs.Conformance

/-!
# Writing what was read

What was read conforms to its message, so it can be written. It is in normal form
(`Conforms.rebuild_normal`), so what is written for it is read as the same value again,
unless it runs into the nesting limit (`reread_of_decode`).

This does happen: where bytes end early, messages that are missing take their defaults,
and those are not counted when they are made up, but are once they have been written
(`not_reread_chain`).
-/

namespace Marshal

open Wire Value CompiledSchema

/-! ## What conforms is in normal form -/

/-- There are no fields but those of the steps, in the same order. -/
theorem sublist_fieldsBy (value : Step → Option Value) (steps : List Step) :
    ((fieldsBy value steps).map (·.1)).Sublist (steps.map (·.field)) := by
  induction steps with
  | nil => exact .slnil
  | cons step steps ih =>
    rw [fieldsBy_cons]
    cases (if step.deprecated then none else value step : Option Value) with
    | none => exact ih.cons _
    | some w => exact ih.cons_cons _

/-- Only the values for steps that are not deprecated matter. -/
theorem fieldsBy_congr {value value' : Step → Option Value} {steps : List Step}
    (h : ∀ step ∈ steps, step.deprecated = false → value step = value' step) :
    fieldsBy value steps = fieldsBy value' steps := by
  refine List.filterMap_congr fun step hstep => ?_
  cases hd : step.deprecated with
  | true => rfl
  | false => simp [h step hstep hd]

/-- The fields of an object are found by the steps of its message, in whatever order. -/
theorem ofPairs_fieldsBy {steps : List Step} (hsteps : (steps.map (·.field)).Nodup)
    {fields : List (String × Value)} (hsorted : Ascending.Sorted fields)
    (hknown : ∀ f ∈ fields, ∃ step ∈ steps, step.field = f.1 ∧ step.deprecated = false) :
    Ascending.ofPairs (fieldsBy (fun step => Ascending.get? step.field fields) steps) =
      fields := by
  have hnodup :=
    (sublist_fieldsBy (fun step => Ascending.get? step.field fields) steps).nodup hsteps
  refine (Ascending.sorted_ofPairs _).eq_of_mem_iff hsorted fun f => ?_
  rw [(Ascending.perm_ofPairs hnodup).mem_iff, fieldsBy, List.mem_filterMap]
  constructor
  · -- A field is found under the name of its step, and every field has a step.
    rintro ⟨step, -, hf⟩
    split at hf
    · cases hf
    · obtain ⟨w, hw, rfl⟩ := Option.map_eq_some_iff.1 hf
      exact (Ascending.get?_eq_some_iff hsorted).1 hw
  · intro hf
    obtain ⟨step, hstep, hname, hd⟩ := hknown f hf
    refine ⟨step, hstep, ?_⟩
    rw [hd, hname, (Ascending.get?_eq_some_iff hsorted).2 hf]
    rfl

/-- A field that may be absent has no default. -/
theorem ConformsShape.or_default? {s : CompiledSchema} {step : Step} {w : Option Value}
    (h : ConformsShape s step.shape w) : w.or (s.default? step) = w := by
  generalize hshape : step.shape = shape at h
  cases h with
  | absent => simp [default?, defaultStep, hshape, Shape.default?]
  | single | present | repeated | map => rfl

mutual

/-- A value that conforms is its own normal form. -/
theorem Conforms.rebuild_normal {s : CompiledSchema} (hs : s.WellFormed) {v : ValueStep}
    {w : Value} : Conforms s v w → w.rebuild .normal s (.single v) = w
  | .scalar _ => rebuild_scalar _ _
  | .enum _ => rebuild_enum _ _
  | @Conforms.nested _ owner _ plan fields hid hsorted hknown hshape => by
    obtain ⟨ho, hp⟩ := messagePlan?_eq_some.1 hid
    have howner := hs.of_owner? ho
    have hnodup := howner.consistent.fields plan (List.mem_of_getElem? hp)
    have hfield : ∀ f ∈ fields, (f.1, rebuildField .normal owner plan f.1 f.2) = f := by
      intro f hf
      obtain ⟨step, hstep, hname, hd⟩ := hknown f hf
      have hvalue := ConformsShape.map_rebuild_normal howner (hshape step hstep hd)
      rw [hname, (Ascending.get?_eq_some_iff hsorted).2 hf] at hvalue
      rw [← hname, rebuildField_eq (R := .normal) (MessagePlan.shape?_of_mem hnodup hstep),
        Option.some.inj hvalue, hname]
    rw [rebuild_nested (R := .normal) hid, rebuildFields_eq, List.map_congr_left hfield,
      List.map_id']
    have hpresent : fieldsBy (fun step => (Ascending.get? step.field fields).or
        (owner.default? step)) plan.steps =
        fieldsBy (fun step => Ascending.get? step.field fields) plan.steps :=
      fieldsBy_congr fun step hstep hd => (hshape step hstep hd).or_default?
    exact congrArg _ ((congrArg _ hpresent).trans (ofPairs_fieldsBy hnodup hsorted hknown))

/-- A field that conforms is in normal form. -/
theorem ConformsShape.map_rebuild_normal {s : CompiledSchema} (hs : s.WellFormed) {shape : Shape}
    {w : Option Value} : ConformsShape s shape w → w.map (rebuild .normal s shape) = w
  | .single hw => congrArg some (Conforms.rebuild_normal hs hw)
  | .absent => rfl
  | .present hw => congrArg some ((rebuild_optional _ _).trans (Conforms.rebuild_normal hs hw))
  | .repeated hitems => by
    rw [Option.map_some, rebuild, rebuildItems_eq,
      List.map_congr_left fun w hw => Conforms.rebuild_normal hs (hitems w hw), List.map_id']
  | .map hkeys hvalues => by
    rw [Option.map_some, rebuild, rebuildEntries_eq, List.map_congr_left fun e he => Prod.ext
      (Conforms.rebuild_normal hs (hkeys e he)) (Conforms.rebuild_normal hs (hvalues e he)),
      List.map_id']

end

/-- What is written for an object that conforms is read as it, if it is nested at most as
    deeply as the limit allows, and runs into the limit otherwise. -/
theorem Conforms.reads_back {s : CompiledSchema} (hs : s.WellFormed) {id : MessageId} {v : Value}
    (h : Conforms s (.nested id) v) {b : Bytes} (hv : v.encode s id = .ok b)
    (hb : b.length < 2 ^ 64) :
    if v.nesting ≤ nestingLimit then decode s id b = .ok v
    else ∃ offset, decode s id b = .error (.wire (.nestingLimit offset nestingLimit)) := by
  obtain ⟨o, p, fields, hid, hspells, hnormal⟩ := exists_spells_of_encode hs hv
  have hread := decode_of_spells (.refl hs) hid hspells hb
  rwa [extend_self, ← hnormal, Value.normal, h.rebuild_normal hs] at hread

/-- What was read can be written. It is read as the same value again if it is nested at
    most as deeply as the limit allows, and runs into the limit otherwise. Lengths are words
    of 64 bits, which no list of bytes in memory exceeds. -/
theorem reread_of_decode {t : ImportTable} (ht : t.Built) {schema : Schema} {s : CompiledSchema}
    (hs : schema.compile t = .ok s) {id : MessageId} {b : Bytes} {v : Value}
    (hv : decode s id b = .ok v) :
    ∃ b', v.encode s id = .ok b' ∧ (b'.length < 2 ^ 64 →
      if v.nesting ≤ nestingLimit then decode s id b' = .ok v
      else ∃ offset, decode s id b' = .error (.wire (.nestingLimit offset nestingLimit))) := by
  have hc : s.IsCompiled := ⟨t, schema, ht, hs⟩
  obtain ⟨found, hfind, _⟩ := bind_eq_ok.1 hv
  have hid : (s.messagePlan? id).isSome := by rw [find_eq_ok.1 hfind]; rfl
  -- What was read conforms, so it can be written, and is in normal form, so it is read back.
  rcases decode_conforms hc.wellFormed hid b with ⟨e, he⟩ | ⟨w, hw, hconforms⟩
  · cases hv.symm.trans he
  · cases Except.ok.inj (hv.symm.trans hw)
    obtain ⟨b', hb'⟩ := hconforms.exists_encode hc
    exact ⟨b', hb', hconforms.reads_back hc.wellFormed hb'⟩

open Sample

theorem reread_of_decode_sprout :
    decode (compiledTree nodeFields) ⟨.own, 0⟩ [0, 6, 4, 3, 9, 0, 0] = .ok sproutNormal ∧
      ∃ b, sproutNormal.encode (compiledTree nodeFields) ⟨.own, 0⟩ = .ok b ∧
        decode (compiledTree nodeFields) ⟨.own, 0⟩ b = .ok sproutNormal := by
  have hwrite : sproutNormal.encode (compiledTree nodeFields) ⟨.own, 0⟩ =
      .ok [0, 0, 4, 3, 9, 0, 0] := by decide +kernel
  obtain ⟨b, hb, hreread⟩ := reread_of_decode .empty compile_tree decode_sprout
  cases Except.ok.inj (hwrite.symm.trans hb)
  replace hreread := hreread (by decide)
  rw [if_pos (by decide)] at hreread
  exact ⟨decode_sprout, _, hwrite, hreread⟩

/-! ## Defaults beyond the limit -/

namespace Sample

/-- Chains, whose last one holds a tail with these fields. -/
def chain (tail : List (Field × ResolvedType)) : Schema where
  name := "chain.proto"
  messages :=
    [ ⟨"Chain", [⟨"next", 1, .optional (.named "Chain"), false⟩,
        ⟨"tail", 2, .optional (.named "Tail"), false⟩]⟩,
      ⟨"Tail", tail.map (·.1)⟩, ⟨"Leaf", []⟩ ]

/-- The next link of a chain. -/
def nextField : FieldMapping :=
  .ofType ⟨"next", 1, .optional (.named "Chain"), false⟩ (.optional (.message ⟨.own, 0⟩))

/-- The tail of a chain. -/
def tailField : FieldMapping :=
  .ofType ⟨"tail", 2, .optional (.named "Tail"), false⟩ (.optional (.message ⟨.own, 1⟩))

/-- The plan of a chain. -/
def chainPlan : MessagePlan := ⟨⟨.own, 0⟩, "Chain", [nextField.step, tailField.step]⟩

/-- The schema of chains once it is compiled, with its messages declared in an order. -/
def compiledChain (tail : List (Field × ResolvedType)) (order : List Declaration) :
    CompiledSchema where
  name := "chain.proto"
  package := none
  imports := []
  enums := []
  messages :=
    [ chainPlan, ⟨⟨.own, 1⟩, "Tail", tail.map fun f => (FieldMapping.ofType f.1 f.2).step⟩,
      ⟨⟨.own, 2⟩, "Leaf", []⟩ ]
  mappings := [[nextField, tailField], tail.map fun f => .ofType f.1 f.2, []]
  services := []
  order := ⟨[], order⟩

/-- The fields of a tail that holds a leaf. -/
def leafFields : List (Field × ResolvedType) :=
  [(⟨"leaf", 1, .named "Leaf", false⟩, .single (.message ⟨.own, 2⟩))]

/-- Chains whose tails hold nothing. -/
def bare : CompiledSchema := compiledChain [] [.message 0, .message 1, .message 2]

/-- Chains whose tails hold a leaf. -/
def leafy : CompiledSchema := compiledChain leafFields [.message 0, .message 2, .message 1]

theorem isCompiled_bare : bare.IsCompiled := ⟨.empty, chain [], .empty, rfl⟩

theorem isCompiled_leafy : leafy.IsCompiled := ⟨.empty, chain leafFields, .empty, rfl⟩

/-- Giving a leaf to the tail extends the schema of chains. -/
theorem evolves_leafy : Evolves bare leafy where
  extended :=
    { imports := rfl
      messages := by
        rintro (_ | _ | _ | i) p hp
        · exact ⟨chainPlan, rfl, Option.some.inj hp ▸ .refl _⟩
        · cases hp
          exact ⟨_, rfl, rfl, List.nil_prefix⟩
        · exact ⟨_, rfl, Option.some.inj hp ▸ .refl _⟩
        · cases hp
      enums := fun _ _ he => nomatch he }
  old := isCompiled_bare.wellFormed
  new := isCompiled_leafy.wellFormed

/-- The fields of a chain of `n` links before one with these fields. -/
def linked (fields : List (String × Value)) : (n : Nat) → List (String × Value)
  | 0 => fields
  | n + 1 => [("next", .record "Chain" (linked fields n))]

/-- What is written for a chain of `n` links, given what is for the last one. -/
def links (b : Bytes) : (n : Nat) → Bytes
  | 0 => b
  | n + 1 => 1 :: framed (links b n) ++ [0]

/-- A chain within the limit takes less than `2 ^ 64` bytes. -/
theorem length_links {b : Bytes} (hb : b.length ≤ 4) {n : Nat} (hn : n < nestingLimit) :
    (links b n).length < 2 ^ 64 := by
  have hle : (links b n).length ≤ 4 * n + 4 := by
    induction n with
    | zero => exact hb
    | succ n ih =>
      replace ih := ih (Nat.lt_of_succ_lt hn)
      rw [nestingLimit] at hn
      -- The length takes two bytes at most.
      have hvarint : (varint (links b n).length).length ≤ 2 := by
        rcases Nat.lt_or_ge (links b n).length 128 with hlt | hle
        · rw [varint_of_lt hlt]
          exact Nat.le_succ 1
        · rw [varint_of_le hle, varint_of_lt (by omega)]
          exact Nat.le_refl _
      simp only [links, framed, List.length_append, List.length_cons, List.length_nil]
      omega
  rw [nestingLimit] at hn
  omega

/-- Each link is one level. -/
theorem levels_linked (fields : List (String × Value)) (n : Nat) :
    (Value.record "Chain" (linked fields n)).levels =
      n + (Value.record "Chain" fields).levels := by
  induction n with
  | zero => exact (Nat.zero_add _).symm
  | succ n ih =>
    change max (Value.record "Chain" (linked fields n)).levels 0 + 1 = _
    rw [ih]
    omega

/-- A link spells the rest of the chain. -/
theorem spells_links {fields : List (String × Value)} {b : Bytes}
    (h : SpellsFields bare chainPlan.steps fields b) (n : Nat) :
    SpellsFields bare chainPlan.steps (linked fields n) (links b n) := by
  induction n with
  | zero => exact h
  | succ n ih =>
    exact @SpellsFields.cons _ nextField.step _ _ _ _ _ (.present (.nested rfl ih))
      (@SpellsFields.cons _ tailField.step _ _ _ _ _ .absent .nil)

/-- A link is written around the rest of the chain. -/
theorem encodeObject_links {fields : List (String × Value)} {b : Bytes}
    (h : ∀ field, encodeObject (.record "Chain" fields) leafy chainPlan field = .ok b) (n : Nat) :
    ∀ field, encodeObject (.record "Chain" (linked fields n)) leafy chainPlan field =
      .ok (links b n) := by
  induction n with
  | zero => exact h
  | succ n ih =>
    intro field
    change (do
      let bytes ← (Primitive.bool.write true ++ ·) <$>
        framed <$> encodeObject (.record "Chain" (linked fields n)) leafy chainPlan "next"
      let others ← (Except.ok [0] : Except Value.Error Bytes)
      return bytes ++ others) = _
    rw [ih]
    rfl

/-- Extending a chain changes only its end. -/
theorem extend_linked {fields fields' : List (String × Value)}
    (h : (Value.record "Chain" fields).extend bare leafy ⟨.own, 0⟩ = .record "Chain" fields')
    (n : Nat) : (Value.record "Chain" (linked fields n)).extend bare leafy ⟨.own, 0⟩ =
      .record "Chain" (linked fields' n) := by
  induction n with
  | zero => exact h
  | succ n ih =>
    rw [Value.extend] at ih ⊢
    have ho : bare.messagePlan? ⟨.own, 0⟩ = some (bare, chainPlan) := rfl
    have hn : leafy.messagePlan? ⟨.own, 0⟩ = some (leafy, chainPlan) := rfl
    refine (rebuild_extend_record ho hn rfl _).trans ?_
    change Value.record "Chain" ([("next", rebuild .extend (bare, leafy)
      (.optional (.nested ⟨.own, 0⟩)) (.record "Chain" (linked fields n)))] ++ []) = _
    rw [rebuild_optional, ih]
    rfl

/-- The last link of a chain whose tail holds nothing. -/
def bareEnd : List (String × Value) := [("tail", .object "Tail" [])]

/-- The last link of a chain whose tail holds a leaf. -/
def leafyEnd : List (String × Value) := [("tail", .object "Tail" [("leaf", .object "Leaf" [])])]

theorem spells_bareEnd : SpellsFields bare chainPlan.steps bareEnd [0, 1, 0] := by
  have hframe : framed [] = [0] := by decide +kernel
  have htail : Spells bare (.nested ⟨.own, 1⟩) (.record "Tail" []) (framed []) :=
    @Spells.nested bare bare _ ⟨⟨.own, 1⟩, "Tail", []⟩ _ _ rfl .nil
  rw [hframe] at htail
  exact @SpellsFields.cons _ nextField.step _ _ _ _ _ .absent
    (@SpellsFields.cons _ tailField.step _ _ _ _ _ (.present htail) .nil)

/-- A chain that is missing its leaf is read with one, as long as the limit allows for its
    tail. -/
theorem decode_links {n : Nat} (hn : n < nestingLimit) :
    decode leafy ⟨.own, 0⟩ (links [0, 1, 0] n) = .ok (.record "Chain" (linked leafyEnd n)) := by
  have hend : (Value.record "Chain" bareEnd).extend bare leafy ⟨.own, 0⟩ =
      .record "Chain" leafyEnd := rfl
  have hid : bare.messagePlan? ⟨.own, 0⟩ = some (bare, chainPlan) := rfl
  have hread := decode_of_spells evolves_leafy hid (spells_links spells_bareEnd n)
    (length_links (by decide) hn)
  have hnesting : (Value.record chainPlan.name (linked bareEnd n)).nesting ≤ nestingLimit := by
    change (Value.record "Chain" (linked bareEnd n)).levels - 1 ≤ _
    rw [levels_linked]
    exact hn
  rw [if_pos hnesting] at hread
  exact hread.trans (congrArg _ (extend_linked hend n))

/-- A chain is written link by link. -/
theorem encode_linked (n : Nat) :
    (Value.record "Chain" (linked leafyEnd n)).encode leafy ⟨.own, 0⟩ =
      .ok (links [0, 1, 1, 0] n) :=
  encodeObject_links (fun _ => by with_unfolding_all rfl) n ""

/-- Where the limit allows for no more than its tail, a chain cannot be read with its
    leaf. -/
theorem decode_links_error {n : Nat} (hn : n + 1 = nestingLimit) :
    ∃ offset, decode leafy ⟨.own, 0⟩ (links [0, 1, 1, 0] n) =
      .error (.wire (.nestingLimit offset nestingLimit)) := by
  have hlt : n < nestingLimit := hn ▸ Nat.lt_succ_self n
  have hwf := isCompiled_leafy.wellFormed
  have hid : (leafy.messagePlan? ⟨.own, 0⟩).isSome := rfl
  rcases decode_conforms hwf hid (links [0, 1, 0] n) with ⟨e, he⟩ | ⟨v, hv, hconforms⟩
  · cases (decode_links hlt).symm.trans he
  · cases Except.ok.inj ((decode_links hlt).symm.trans hv)
    -- What was read is one level deeper than what it was read from.
    have hread := hconforms.reads_back hwf (encode_linked n) (length_links (by decide) hlt)
    have hnesting : ¬(Value.record "Chain" (linked leafyEnd n)).nesting ≤ nestingLimit := by
      rw [nesting, levels_linked, ← hn]
      exact Nat.not_succ_le_self _
    rwa [if_neg hnesting] at hread

end Sample

/-- A chain as long as the limit allows, whose tail is missing its leaf, is read with a
    leaf beyond the limit. What is written for it cannot be read. -/
theorem not_reread_chain :
    (chain leafFields).compile .empty = .ok leafy ∧
      decode leafy ⟨.own, 0⟩ (links [0, 1, 0] 99) = .ok (.record "Chain" (linked leafyEnd 99)) ∧
      (Value.record "Chain" (linked leafyEnd 99)).encode leafy ⟨.own, 0⟩ =
        .ok (links [0, 1, 1, 0] 99) ∧
      ∃ offset, decode leafy ⟨.own, 0⟩ (links [0, 1, 1, 0] 99) =
        .error (.wire (.nestingLimit offset nestingLimit)) :=
  ⟨rfl, decode_links (by decide), encode_linked 99, decode_links_error rfl⟩

end Marshal
