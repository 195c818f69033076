import Marshal.Proofs.Compiled

/-!
# What names refer to

A name without a dot in front of it is looked for among the own declarations, then among the
imported ones that it means together with their package (`Scope.findAllQualified`), and then
among the imported ones of this very name. `Scope.resolve?_eq_choose` says which of the
candidates is taken.

A name *clashes* (`Scope.Clashes`) if several imports of one package declare it. Then the first
of them is taken.
-/

namespace Marshal

/-! ## Qualified names -/

/-- What comes after the start of a text is the rest of it. -/
theorem Text.after?_eq_some {lead s rest : List Char} :
    after? lead s = some rest ↔ s = lead ++ rest := by
  fun_induction after? lead s with
  | case1 s => simp [eq_comm]
  | case2 a lead => simp
  | case3 a lead s ih => simp [ih]
  | case4 a lead c s hne => simp [Ne.symm hne]

/-- A name without its package is what follows this and a dot. -/
theorem unqualified?_eq_some {package name rest : String} :
    unqualified? package name = some rest ↔ name = package ++ "." ++ rest := by
  -- A name starts with the package, and a dot comes next.
  have hname : name = package ++ "." ++ rest ↔
      Text.after? package.toList name.toList = some ('.' :: rest.toList) := by
    rw [Text.after?_eq_some, ← String.toList_inj]
    simp
  rw [hname, unqualified?]
  split
  · rename_i tail htail
    rw [htail]
    simp [← String.toList_inj]
  · rename_i hother
    refine ⟨(nomatch ·), fun h => absurd h (hother _)⟩

namespace CompiledSchema

/-- The schema declares a message or an enum of this name. -/
def Declares (s : CompiledSchema) (name : String) : Prop :=
  (∃ p ∈ s.messages, p.name = name) ∨ ∃ p ∈ s.enums, p.name = name

/-- The name is that of a declaration of the schema, after its package. -/
def DeclaresQualified (s : CompiledSchema) (name : String) : Prop :=
  ∃ package rest, s.package = some package ∧ name = package ++ "." ++ rest ∧ s.Declares rest

/-- The declaration that a name means together with the package. -/
def findQualified? (s : CompiledSchema) (name : String) (origin : Origin) : Option ElementType := do
  let package ← s.package
  let rest ← unqualified? package name
  s.findType? rest origin

variable {s : CompiledSchema} {name : String} {origin : Origin}

/-- A type is found by its name if and only if it is declared. -/
theorem isSome_findType? : (s.findType? name origin).isSome ↔ s.Declares name := by
  rw [findType?, Declares]
  cases hindex : s.messages.findIdx? (·.name = name) with
  | none =>
    have hnone : ∀ p ∈ s.messages, p.name ≠ name := by
      simpa using List.findIdx?_eq_none_iff.1 hindex
    simp only [Option.isSome_map, List.findIdx?_isSome, List.any_eq_true, decide_eq_true_eq]
    refine (or_iff_right ?_).symm
    rintro ⟨p, hp, hname⟩
    exact hnone p hp hname
  | some index =>
    have hsome : (s.messages.findIdx? (·.name = name)).isSome := by rw [hindex]; rfl
    simp only [List.findIdx?_isSome, List.any_eq_true, decide_eq_true_eq] at hsome
    exact ⟨fun _ => .inl hsome, fun _ => rfl⟩

/-- A type is found by its qualified name if and only if it is declared in the package. -/
theorem isSome_findQualified? :
    (s.findQualified? name origin).isSome ↔ s.DeclaresQualified name := by
  simp [findQualified?, DeclaresQualified, Option.isSome_bind, Option.any_eq_true,
    unqualified?_eq_some, isSome_findType?]

/-- A type that is found is of the schema in which it was looked for. -/
theorem origin?_findType? {e : ElementType} (h : s.findType? name origin = some e) :
    e.step.origin? = some origin := by
  rw [findType?] at h
  split at h
  · cases h
    rfl
  · obtain ⟨_, _, rfl⟩ := Option.map_eq_some_iff.1 h
    rfl

theorem origin?_findQualified? {e : ElementType} (h : s.findQualified? name origin = some e) :
    e.step.origin? = some origin := by
  obtain ⟨_, _, h⟩ := Option.bind_eq_some_iff.1 h
  obtain ⟨_, _, h⟩ := Option.bind_eq_some_iff.1 h
  exact origin?_findType? h

end CompiledSchema

/-- The name without a dot in front of it. -/
def undotted (name : String) : String := String.ofList (Text.withoutDot name.toList)

/-- Something is made of several elements if it is of two at different positions. -/
theorem two_le_length_filterMap_zipIdx {α β : Type} {l : List α} {f : α × Nat → Option β} :
    2 ≤ (l.zipIdx.filterMap f).length ↔ ∃ entry ∈ l.zipIdx, ∃ entry' ∈ l.zipIdx,
      entry.2 ≠ entry'.2 ∧ (f entry).isSome ∧ (f entry').isSome := by
  constructor
  · rw [List.length_filterMap_eq_countP, List.countP_eq_length_filter]
    have hmem : ∀ entry ∈ l.zipIdx.filter fun entry => (f entry).isSome,
        entry ∈ l.zipIdx ∧ (f entry).isSome := fun _ => List.mem_filter.1
    have hnodup : ((l.zipIdx.filter fun entry => (f entry).isSome).map Prod.snd).Nodup := by
      refine List.Nodup.sublist (List.filter_sublist.map _) ?_
      rw [List.zipIdx_map_snd]
      exact List.nodup_range'
    generalize (l.zipIdx.filter fun entry => (f entry).isSome) = kept at hmem hnodup
    rcases kept with _ | ⟨entry, _ | ⟨entry', rest⟩⟩
    · simp
    · simp
    · -- Two elements that are kept have different positions.
      intro _
      obtain ⟨hentry, hsome⟩ := hmem entry (by simp)
      obtain ⟨hentry', hsome'⟩ := hmem entry' (by simp)
      refine ⟨entry, hentry, entry', hentry', fun he => ?_, hsome, hsome'⟩
      simp [he] at hnodup
  · rintro ⟨entry, hentry, entry', hentry', hne, hsome, hsome'⟩
    obtain ⟨b, hb⟩ := Option.isSome_iff_exists.1 hsome
    obtain ⟨b', hb'⟩ := Option.isSome_iff_exists.1 hsome'
    obtain ⟨before, after, hsplit⟩ := List.append_of_mem hentry
    have hother : entry' ∈ before ++ after := by
      rw [hsplit] at hentry'
      grind
    have hpos : 0 < ((before ++ after).filterMap f).length :=
      List.length_pos_of_mem (List.mem_filterMap.2 ⟨entry', hother, hb'⟩)
    rw [List.filterMap_append, List.length_append] at hpos
    rw [hsplit, List.filterMap_append, List.filterMap_cons_some hb, List.length_append,
      List.length_cons]
    omega

namespace Scope

/-- The imported declarations that a name means together with their package. -/
def findAllQualified (c : Scope) (name : String) : List ElementType :=
  c.imports.zipIdx.filterMap fun entry => entry.1.findQualified? name (.imported entry.2)

/-- No own declaration is meant by the name, and several imports declare it after their
    package. -/
structure Clashes (c : Scope) (name : String) : Prop where
  notOwn : c.findOwn? (c.withoutPackage (undotted name)) = none
  several : ∃ (i j : Nat) (a b : CompiledSchema), i ≠ j ∧
    c.imports[i]? = some a ∧ a.DeclaresQualified (undotted name) ∧
    c.imports[j]? = some b ∧ b.DeclaresQualified (undotted name)

variable {c : Scope} {name : String}

/-- Of all the qualified declarations the first one is taken. -/
theorem findQualified?_eq_head? (c : Scope) (name : String) :
    c.findQualified? name = (c.findAllQualified name).head? :=
  List.head?_filterMap.symm

/-- A name that does not clash has one qualified declaration at most, unless an own one is
    meant. -/
theorem length_findAllQualified_le (h : ¬c.Clashes name)
    (hown : c.findOwn? (c.withoutPackage (undotted name)) = none) :
    (c.findAllQualified (undotted name)).length ≤ 1 := by
  by_contra hlength
  obtain ⟨⟨a, i⟩, ha, ⟨b, j⟩, hb, hne, hsome, hsome'⟩ :=
    two_le_length_filterMap_zipIdx.1 (Nat.lt_of_not_le hlength)
  refine h ⟨hown, i, j, a, b, hne, List.mem_zipIdx_iff_getElem?.1 ha, ?_,
    List.mem_zipIdx_iff_getElem?.1 hb, ?_⟩
  · exact CompiledSchema.isSome_findQualified?.1 hsome
  · exact CompiledSchema.isSome_findQualified?.1 hsome'

/-- The declaration that is found among the own, the qualified and the unqualified ones. -/
def choose (name : String) (own : Option ElementType) (qualified : List ElementType)
    (unqualified : List (CompiledSchema × ElementType)) : Except Ambiguity (Option ElementType) :=
  match own, qualified, unqualified with
  | some found, _, _ => .ok (some found)
  | none, found :: _, _ => .ok (some found)
  | none, [], [] => .ok none
  | none, [], [(_, found)] => .ok (some found)
  | none, [], many => .error ⟨name, many.map (·.1.name)⟩

/-- Resolving a name is choosing from what is found in each tier. -/
theorem resolve?_eq_choose (c : Scope) (name : String) :
    c.resolve? name = choose (undotted name) (c.findOwn? (c.withoutPackage (undotted name)))
      (c.findAllQualified (undotted name)) (c.findUnqualified (undotted name)) := by
  rw [undotted, resolve?, findQualified?_eq_head?]
  generalize c.findOwn? _ = own, c.findAllQualified _ = qualified, c.findUnqualified _ = unqualified
  rcases own with _ | found
  · rcases qualified with _ | ⟨found, rest⟩
    · rcases unqualified with _ | ⟨found, _ | ⟨found', rest⟩⟩ <;> rfl
    · rfl
  · rfl

/-- If the first import declares a name after its package, and no own declaration is meant,
    then the name refers to that import. -/
theorem resolve?_of_first {a : CompiledSchema} {rest : List CompiledSchema}
    (himports : c.imports = a :: rest)
    (hown : c.findOwn? (c.withoutPackage (undotted name)) = none)
    (ha : a.DeclaresQualified (undotted name)) :
    ∃ e, c.resolve? name = .ok (some e) ∧ e.step.origin? = some (.imported 0) := by
  have hsome : (a.findQualified? (undotted name) (.imported 0)).isSome :=
    CompiledSchema.isSome_findQualified?.2 ha
  obtain ⟨e, he⟩ := Option.isSome_iff_exists.1 hsome
  refine ⟨e, ?_, CompiledSchema.origin?_findQualified? he⟩
  rw [resolve?_eq_choose, hown, findAllQualified, himports, List.zipIdx_cons]
  simp only [List.filterMap_cons, he]
  rfl

end Scope

end Marshal
