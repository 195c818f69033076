import Marshal.Proofs.ImportOrder

/-!
# Which declarations names mean

A name means an own declaration if it is its name, possibly after the own package
(`Schema.MeansOwn`). It means an imported one if it is its name after the package of the import
(`Schema.MeansQualified`), or just its name (`Schema.MeansUnqualified`).

The declarations of a schema that was verified have different names, and there are no dots in
these. So a name is that of one own declaration at most, which is then found
(`Schema.findOwn?_eq_some_iff`), and an import has one declaration of a name at most, so that a
name is ambiguous only if several imports declare it. `resolve?_decides` says what is found for
any name.
-/

namespace Marshal

/-! ## Declarations -/

/-- The message or enum of a name, given the names of all messages and of all enums. -/
inductive Declared (messages enums : List String) (origin : Origin) (name : String) :
    ElementType → Prop
  | message {i : Nat} : messages[i]? = some name →
    Declared messages enums origin name (.message ⟨origin, i⟩)
  | enum {i : Nat} : enums[i]? = some name →
    Declared messages enums origin name (.enum ⟨origin, i⟩)

/-- The message or enum of a name of a compiled schema, seen from where this has the origin. -/
def CompiledSchema.DeclaresAs (s : CompiledSchema) (origin : Origin) (name : String)
    (e : ElementType) : Prop :=
  Declared (s.messages.map (·.name)) (s.enums.map (·.name)) origin name e

namespace Schema

/-- The message or enum of a name of the schema itself. -/
def DeclaresAs (s : Schema) (name : String) (e : ElementType) : Prop :=
  Declared (s.messages.map (·.name)) (s.enums.map (·.name)) .own name e

/-- The schema that is imported at a position. -/
def imported? (s : Schema) (t : ImportTable) (i : Nat) : Option CompiledSchema :=
  s.imports[i]?.bind t.get?

/-- The name is that of an own declaration, possibly after the own package. -/
def MeansOwn (s : Schema) (name : String) (e : ElementType) : Prop :=
  ∃ own, s.DeclaresAs own e ∧ (name = own ∨ ∃ package ∈ s.package, name = package ++ "." ++ own)

/-- The name is that of an imported declaration after the package of its schema. -/
def MeansQualified (s : Schema) (t : ImportTable) (name : String) (e : ElementType) : Prop :=
  ∃ i, ∃ c ∈ s.imported? t i, ∃ package ∈ c.package, ∃ own,
    name = package ++ "." ++ own ∧ c.DeclaresAs (.imported i) own e

/-- The name is that of a declaration of the schema imported at a position. -/
def MeansUnqualified (s : Schema) (t : ImportTable) (i : Nat) (name : String) (e : ElementType) :
    Prop :=
  ∃ c ∈ s.imported? t i, c.DeclaresAs (.imported i) name e

/-- The name means the declaration in one of these ways. -/
def Means (s : Schema) (t : ImportTable) (name : String) (e : ElementType) : Prop :=
  s.MeansOwn name e ∨ s.MeansQualified t name e ∨ ∃ i, s.MeansUnqualified t i name e

end Schema

/-! ## Looking names up -/

section Positions

variable {names messages enums : List String} {name : String} {origin : Origin} {x y : Option Nat}

/-- Where all names differ, a name is found at the one position that it has. -/
theorem eq_some_iff_of_nodup (hnodup : names.Nodup)
    (hsome : ∀ i, x = some i → names[i]? = some name) (hnone : x = none → name ∉ names) (i : Nat) :
    x = some i ↔ names[i]? = some name := by
  refine ⟨hsome i, fun hi => ?_⟩
  rcases x with _ | j
  · exact absurd (List.mem_of_getElem? hi) (hnone rfl)
  · have hj := hsome j rfl
    have hlt : j < names.length := (List.getElem?_eq_some_iff.1 hj).1
    rw [(List.getElem?_inj hlt hnodup).1 (hj.trans hi.symm)]

/-- What is found first among messages and then among enums is what is declared, if a name is not
    that of both. -/
theorem or_eq_some_iff_declared (hx : ∀ i, x = some i ↔ messages[i]? = some name)
    (hy : ∀ i, y = some i ↔ enums[i]? = some name) (hdisjoint : name ∈ messages → name ∉ enums)
    {e : ElementType} :
    (x.map fun i => ElementType.message ⟨origin, i⟩).or (y.map fun i => .enum ⟨origin, i⟩) =
        some e ↔ Declared messages enums origin name e := by
  rw [Option.or_eq_some_iff]
  constructor
  · rintro (h | ⟨-, h⟩)
    · obtain ⟨i, hi, rfl⟩ := Option.map_eq_some_iff.1 h
      exact .message ((hx i).1 hi)
    · obtain ⟨i, hi, rfl⟩ := Option.map_eq_some_iff.1 h
      exact .enum ((hy i).1 hi)
  · rintro (hi | hi)
    · exact .inl (Option.map_eq_some_iff.2 ⟨_, (hx _).2 hi, rfl⟩)
    · refine .inr ⟨?_, Option.map_eq_some_iff.2 ⟨_, (hy _).2 hi, rfl⟩⟩
      -- An enum is only looked for if no message has the name, and none has.
      rcases x with _ | j
      · rfl
      · exact absurd (List.mem_of_getElem? hi) (hdisjoint (List.mem_of_getElem? ((hx j).1 rfl)))

end Positions

theorem lastIndex?_eq_none {α : Type} {p : α → Bool} {l : List α} (h : lastIndex? p l = none) :
    ∀ a ∈ l, p a = false := by
  induction l with
  | nil => simp
  | cons a l ih =>
    rw [lastIndex?] at h
    grind

section Keys

variable {α : Type} {l : List α} {key : α → String}

/-- Among different names the last place of a name is its only one. -/
theorem lastIndex?_eq_some_iff (hnodup : (l.map key).Nodup) (name : String) (i : Nat) :
    lastIndex? (key · = name) l = some i ↔ (l.map key)[i]? = some name := by
  refine eq_some_iff_of_nodup hnodup (fun i hi => ?_) (fun hnone => ?_) i
  · obtain ⟨a, ha, hname⟩ := exists_of_lastIndex? hi
    simp [ha, of_decide_eq_true hname]
  · simpa using lastIndex?_eq_none hnone

/-- So is the first one. -/
theorem findIdx?_eq_some_iff (hnodup : (l.map key).Nodup) (name : String) (i : Nat) :
    l.findIdx? (key · = name) = some i ↔ (l.map key)[i]? = some name := by
  refine eq_some_iff_of_nodup hnodup (fun i hi => ?_) (fun hnone => ?_) i
  · obtain ⟨hlt, hname, -⟩ := List.findIdx?_eq_some_iff_getElem.1 hi
    simp [hlt, of_decide_eq_true hname]
  · simpa using List.findIdx?_eq_none_iff.1 hnone

end Keys

section Names

variable {messages enums : List String} {name : String} {origin : Origin} {e : ElementType}

/-- A name that is declared is one of the names. -/
theorem Declared.mem (h : Declared messages enums origin name e) : name ∈ enums ++ messages := by
  rcases h with hi | hi
  · exact List.mem_append_right _ (List.mem_of_getElem? hi)
  · exact List.mem_append_left _ (List.mem_of_getElem? hi)

/-- An identifier is not qualified. -/
theorem Text.Identifier.ne_qualified {own : String} (h : Text.Identifier own)
    (package rest : String) : own ≠ package ++ "." ++ rest := by
  rintro rfl
  exact h.dot_not_mem (by simp)

end Names

namespace CompiledSchema

variable {s : CompiledSchema} {name : String} {origin : Origin} {e : ElementType}

/-- Looking for a name in a schema finds what the schema declares under it. -/
theorem findType?_eq_some_iff (hs : Text.Names (s.enums.map (·.name) ++ s.messages.map (·.name))) :
    s.findType? name origin = some e ↔ s.DeclaresAs origin name e := by
  have hfind : s.findType? name origin =
      ((s.messages.findIdx? (·.name = name)).map fun i => ElementType.message ⟨origin, i⟩).or
        ((s.enums.findIdx? (·.name = name)).map fun i => .enum ⟨origin, i⟩) := by
    rw [findType?]
    cases s.messages.findIdx? (·.name = name) <;> rfl
  obtain ⟨henums, hmessages, hdisjoint⟩ := List.nodup_append.1 hs.nodup
  rw [hfind]
  exact or_eq_some_iff_declared (findIdx?_eq_some_iff hmessages name)
    (findIdx?_eq_some_iff henums name) fun hmem hmem' => hdisjoint _ hmem' _ hmem rfl

/-- Looking for a qualified name in a schema finds what it declares under the rest, after its
    package. -/
theorem findQualified?_eq_some_iff
    (hs : Text.Names (s.enums.map (·.name) ++ s.messages.map (·.name))) :
    s.findQualified? name origin = some e ↔ ∃ package ∈ s.package, ∃ own,
      name = package ++ "." ++ own ∧ s.DeclaresAs origin own e := by
  simp [findQualified?, Option.bind_eq_some_iff, unqualified?_eq_some, findType?_eq_some_iff hs]

end CompiledSchema

namespace Scope

variable {c : Scope} {name : String} {e : ElementType}

/-- Looking for a name in the schema itself finds what it declares under it. -/
theorem findOwn?_eq_some_iff (hc : Text.Names c.schema.typeNames) :
    c.findOwn? name = some e ↔ c.schema.DeclaresAs name e := by
  have hfind : c.findOwn? name =
      ((lastIndex? (·.name = name) c.schema.messages).map fun i =>
        ElementType.message ⟨.own, i⟩).or
      ((lastIndex? (·.name = name) c.schema.enums).map fun i => .enum ⟨.own, i⟩) := by
    rw [findOwn?]
    cases lastIndex? (·.name = name) c.schema.messages <;> rfl
  obtain ⟨henums, hmessages, hdisjoint⟩ := List.nodup_append.1 hc.nodup
  rw [hfind]
  exact or_eq_some_iff_declared (lastIndex?_eq_some_iff hmessages name)
    (lastIndex?_eq_some_iff henums name) fun hmem hmem' => hdisjoint _ hmem' _ hmem rfl

/-- A name means an own declaration if it is its name once the own package is taken away. No
    harm is done by this, since the names of declarations have no dots. -/
theorem declaresAs_withoutPackage (hc : Text.Names c.schema.typeNames) :
    c.schema.DeclaresAs (c.withoutPackage name) e ↔ c.schema.MeansOwn name e := by
  -- A declared name has no dot, so only one reading of a qualified name is left.
  by_cases hqualified : ∃ package ∈ c.schema.package, ∃ rest, name = package ++ "." ++ rest
  · obtain ⟨package, hpackage, rest, rfl⟩ := hqualified
    have hrest : c.withoutPackage (package ++ "." ++ rest) = rest := by
      rw [withoutPackage, hpackage, Option.bind_some, unqualified?_eq_some.2 rfl, Option.getD_some]
    rw [hrest]
    constructor
    · intro h
      exact ⟨rest, h, .inr ⟨package, hpackage, rfl⟩⟩
    · rintro ⟨own, hown, hname | ⟨package', hpackage', hname⟩⟩
      · exact absurd hname.symm ((hc.identifiers own hown.mem).ne_qualified package rest)
      · cases Option.some.inj (hpackage.symm.trans hpackage')
        have hown' := unqualified?_eq_some.2 hname
        rw [unqualified?_eq_some.2 rfl] at hown'
        exact Option.some.inj hown' ▸ hown
  · have hnone : c.schema.package.bind (unqualified? · name) = none := by
      rw [Option.bind_eq_none_iff]
      intro package hpackage
      by_contra hsome
      obtain ⟨rest, hrest⟩ := Option.ne_none_iff_exists'.1 hsome
      exact hqualified ⟨package, hpackage, rest, unqualified?_eq_some.1 hrest⟩
    have hsame : c.withoutPackage name = name := by rw [withoutPackage, hnone, Option.getD_none]
    rw [hsame]
    constructor
    · intro h
      exact ⟨name, h, .inl rfl⟩
    · rintro ⟨own, hown, rfl | ⟨package, hpackage, hname⟩⟩
      · exact hown
      · exact absurd ⟨package, hpackage, own, hname⟩ hqualified

section Choice

variable {own : Option ElementType} {qualified : List ElementType}
  {unqualified : List (CompiledSchema × ElementType)}

/-- What is chosen is of the first tier in which there is something. -/
theorem choose_eq_some (h : choose name own qualified unqualified = .ok (some e)) :
    own = some e ∨ own = none ∧ (e ∈ qualified ∨ qualified = [] ∧ ∃ c, (c, e) ∈ unqualified) := by
  -- The tiers are looked at one after the other.
  rcases own with _ | found
  · rcases qualified with _ | ⟨found, rest⟩
    · rcases unqualified with _ | ⟨⟨c, found⟩, _ | ⟨found', rest⟩⟩
      · cases h
      · cases h
        exact .inr ⟨rfl, .inr ⟨rfl, c, List.mem_singleton_self _⟩⟩
      · cases h
    · cases h
      exact .inr ⟨rfl, .inl List.mem_cons_self⟩
  · cases h
    exact .inl rfl

/-- Nothing is chosen if there is nothing in any tier. -/
theorem choose_eq_none_iff :
    choose name own qualified unqualified = .ok none ↔
      own = none ∧ qualified = [] ∧ unqualified = [] := by
  rcases own with _ | found
  · rcases qualified with _ | ⟨found, rest⟩
    · rcases unqualified with _ | ⟨found, _ | ⟨found', rest⟩⟩ <;> simp [choose]
    · simp [choose]
  · simp [choose]

/-- The choice is ambiguous only in the last tier, if there is more than one. -/
theorem choose_eq_error_iff :
    (∃ a, choose name own qualified unqualified = .error a) ↔
      own = none ∧ qualified = [] ∧ 2 ≤ unqualified.length := by
  rcases own with _ | found
  · rcases qualified with _ | ⟨found, rest⟩
    · rcases unqualified with _ | ⟨found, _ | ⟨found', rest⟩⟩ <;> simp [choose]
    · simp [choose]
  · simp [choose]

end Choice

end Scope

/-! ## Verified schemas -/

/-- The declarations of a published schema have different names. -/
theorem ImportTable.Built.names {t : ImportTable} (h : t.Built) {name : String}
    {c : CompiledSchema} (hc : t.get? name = some c) :
    Text.Names (c.enums.map (·.name) ++ c.messages.map (·.name)) := by
  induction h generalizing name c with
  | empty => cases hc
  | publish _ _ hcompile hpublish iht _ =>
    rcases (get?_publish_eq_some_iff hpublish).1 hc with ⟨_, rfl⟩ | hc
    · obtain ⟨hmessages, henums⟩ := Schema.map_name_of_compile hcompile
      rw [hmessages, henums]
      exact Schema.names_of_verify (Schema.compile_eq_ok hcompile).1
    · exact iht hc

namespace Schema

variable {s : Schema} {t : ImportTable} {c : CompiledSchema} {i : Nat} {name : String}
  {e : ElementType}

theorem names_of_imported (ht : t.Built) (hc : s.imported? t i = some c) :
    Text.Names (c.enums.map (·.name) ++ c.messages.map (·.name)) := by
  obtain ⟨_, _, hget⟩ := Option.bind_eq_some_iff.1 hc
  exact ht.names hget

/-- The imports are in scope at their positions. -/
theorem mem_zipIdx_scope (hs : s.verify t = .ok ()) :
    (c, i) ∈ (s.scope t).imports.zipIdx ↔ s.imported? t i = some c := by
  rw [List.mem_zipIdx_iff_getElem?, scope, (filterMap_getElem? fun _ => isSome_of_verify hs).2 i]
  rfl

theorem findOwn?_eq_some_iff (hs : s.verify t = .ok ()) :
    (s.scope t).findOwn? ((s.scope t).withoutPackage name) = some e ↔ s.MeansOwn name e := by
  have hnames : Text.Names (s.scope t).schema.typeNames := names_of_verify hs
  rw [Scope.findOwn?_eq_some_iff hnames, Scope.declaresAs_withoutPackage hnames]
  rfl

/-- What is found in imports by a qualified name is what the name means there. -/
theorem mem_findAllQualified_iff (ht : t.Built) (hs : s.verify t = .ok ()) :
    e ∈ (s.scope t).findAllQualified name ↔ s.MeansQualified t name e := by
  rw [Scope.findAllQualified, List.mem_filterMap]
  constructor
  · rintro ⟨⟨c, i⟩, hmem, hfind⟩
    have hc := (mem_zipIdx_scope hs).1 hmem
    exact ⟨i, c, hc, (CompiledSchema.findQualified?_eq_some_iff (names_of_imported ht hc)).1 hfind⟩
  · rintro ⟨i, c, hc, hmeans⟩
    exact ⟨(c, i), (mem_zipIdx_scope hs).2 hc,
      (CompiledSchema.findQualified?_eq_some_iff (names_of_imported ht hc)).2 hmeans⟩

/-- An import declares a name if something is found for it there. -/
theorem exists_meansUnqualified_iff (ht : t.Built) (hc : s.imported? t i = some c) :
    (∃ e, s.MeansUnqualified t i name e) ↔
      ((c.findType? name (.imported i)).map (c, ·)).isSome := by
  rw [Option.isSome_map, Option.isSome_iff_exists]
  refine exists_congr fun e => ?_
  rw [CompiledSchema.findType?_eq_some_iff (names_of_imported ht hc)]
  constructor
  · rintro ⟨c', hc', h⟩
    cases Option.some.inj (hc.symm.trans hc')
    exact h
  · exact fun h => ⟨c, hc, h⟩

/-- What is found in imports by an unqualified name is what the name means in one of them. -/
theorem exists_of_mem_findUnqualified (ht : t.Built) (hs : s.verify t = .ok ())
    (h : (c, e) ∈ (s.scope t).findUnqualified name) : ∃ i, s.MeansUnqualified t i name e := by
  obtain ⟨⟨c', i⟩, hmem, hfind⟩ := List.mem_filterMap.1 h
  obtain ⟨e', hfind, he⟩ := Option.map_eq_some_iff.1 hfind
  cases he
  have hc := (mem_zipIdx_scope hs).1 hmem
  exact ⟨i, c, hc, (CompiledSchema.findType?_eq_some_iff (names_of_imported ht hc)).1 hfind⟩

/-- Nothing is found by an unqualified name if it means nothing in any import. -/
theorem findUnqualified_eq_nil_iff (ht : t.Built) (hs : s.verify t = .ok ()) :
    (s.scope t).findUnqualified name = [] ↔ ∀ i e, ¬s.MeansUnqualified t i name e := by
  rw [Scope.findUnqualified, List.filterMap_eq_nil_iff]
  constructor
  · rintro h i e ⟨c, hc, hmeans⟩
    have hsome := (exists_meansUnqualified_iff ht hc).1 ⟨e, c, hc, hmeans⟩
    have hnone : (c.findType? name (.imported i)).map (c, ·) = none :=
      h (c, i) ((mem_zipIdx_scope hs).2 hc)
    rw [hnone] at hsome
    cases hsome
  · rintro h ⟨c, i⟩ hmem
    by_contra hne
    obtain ⟨e, hmeans⟩ := (exists_meansUnqualified_iff ht ((mem_zipIdx_scope hs).1 hmem)).2
      (Option.isSome_iff_ne_none.2 hne)
    exact h i e hmeans

/-- More than one type is found by an unqualified name if it means something in two imports. -/
theorem two_le_length_findUnqualified_iff (ht : t.Built) (hs : s.verify t = .ok ()) :
    2 ≤ ((s.scope t).findUnqualified name).length ↔ ∃ i j, i ≠ j ∧
      (∃ e, s.MeansUnqualified t i name e) ∧ ∃ e, s.MeansUnqualified t j name e := by
  rw [Scope.findUnqualified, two_le_length_filterMap_zipIdx]
  constructor
  · rintro ⟨⟨c, i⟩, hmem, ⟨c', j⟩, hmem', hne, hsome, hsome'⟩
    exact ⟨i, j, hne, (exists_meansUnqualified_iff ht ((mem_zipIdx_scope hs).1 hmem)).2 hsome,
      (exists_meansUnqualified_iff ht ((mem_zipIdx_scope hs).1 hmem')).2 hsome'⟩
  · rintro ⟨i, j, hne, ⟨e, c, hc, hmeans⟩, e', c', hc', hmeans'⟩
    exact ⟨(c, i), (mem_zipIdx_scope hs).2 hc, (c', j), (mem_zipIdx_scope hs).2 hc', hne,
      (exists_meansUnqualified_iff ht hc).1 ⟨e, c, hc, hmeans⟩,
      (exists_meansUnqualified_iff ht hc').1 ⟨e', c', hc', hmeans'⟩⟩

end Schema

/-- What is found for a name in a schema that was verified: a declaration that it means, an own
    one if there is one, and else one that it means after its package. There is nothing exactly if
    it means nothing, and it is ambiguous exactly if it means declarations of several imports, and
    none of those that come first. -/
theorem resolve?_decides {t : ImportTable} (ht : t.Built) {s : Schema} (hs : s.verify t = .ok ())
    (name : String) :
    (∀ e, (s.scope t).resolve? name = .ok (some e) → s.Means t (undotted name) e) ∧
      (∀ e, s.MeansOwn (undotted name) e → (s.scope t).resolve? name = .ok (some e)) ∧
      ((∀ e, ¬s.MeansOwn (undotted name) e) → (∃ e, s.MeansQualified t (undotted name) e) →
        ∃ e, (s.scope t).resolve? name = .ok (some e) ∧ s.MeansQualified t (undotted name) e) ∧
      ((∃ a, (s.scope t).resolve? name = .error a) ↔
        (∀ e, ¬s.MeansOwn (undotted name) e) ∧ (∀ e, ¬s.MeansQualified t (undotted name) e) ∧
          ∃ i j, i ≠ j ∧ (∃ e, s.MeansUnqualified t i (undotted name) e) ∧
            ∃ e, s.MeansUnqualified t j (undotted name) e) ∧
      ((s.scope t).resolve? name = .ok none ↔ ∀ e, ¬s.Means t (undotted name) e) := by
  rw [Scope.resolve?_eq_choose]
  generalize undotted name = name
  -- Each tier is empty if the name means nothing in it.
  have hown : (s.scope t).findOwn? ((s.scope t).withoutPackage name) = none ↔
      ∀ e, ¬s.MeansOwn name e := by
    rw [Option.eq_none_iff_forall_ne_some]
    exact forall_congr' fun e => not_congr (Schema.findOwn?_eq_some_iff hs)
  have hqualified : (s.scope t).findAllQualified name = [] ↔ ∀ e, ¬s.MeansQualified t name e := by
    rw [List.eq_nil_iff_forall_not_mem]
    exact forall_congr' fun e => not_congr (Schema.mem_findAllQualified_iff ht hs)
  refine ⟨fun e he => ?_, fun e he => ?_, fun hno hsome => ?_, ?_, ?_⟩
  · rcases Scope.choose_eq_some he with h | ⟨-, h | ⟨-, c, h⟩⟩
    · exact .inl ((Schema.findOwn?_eq_some_iff hs).1 h)
    · exact .inr (.inl ((Schema.mem_findAllQualified_iff ht hs).1 h))
    · exact .inr (.inr (Schema.exists_of_mem_findUnqualified ht hs h))
  · rw [(Schema.findOwn?_eq_some_iff hs).2 he]
    rfl
  · obtain ⟨e, he⟩ := hsome
    obtain ⟨first, rest, hall⟩ :=
      List.exists_cons_of_ne_nil (mt hqualified.1 fun h => h e he)
    refine ⟨first, ?_, (Schema.mem_findAllQualified_iff ht hs).1 (hall ▸ List.mem_cons_self)⟩
    rw [hown.2 hno, hall]
    rfl
  · rw [Scope.choose_eq_error_iff, hown, hqualified,
      Schema.two_le_length_findUnqualified_iff ht hs]
  · rw [Scope.choose_eq_none_iff, hown, hqualified, Schema.findUnqualified_eq_nil_iff ht hs]
    simp only [Schema.Means, not_or, not_exists]
    grind

open Sample

/-- An own declaration, and one that both imports have. -/
theorem resolve?_decides_user :
    (user.scope twins).resolve? ".User" = .ok (some (.message ⟨.own, 0⟩)) ∧
      ∃ a, (user.scope twins).resolve? "Id" = .error a := by
  have hverify : user.verify twins = .ok () := rfl
  have hown : user.MeansOwn (undotted ".User") (.message ⟨.own, 0⟩) :=
    ⟨"User", .message rfl, .inl rfl⟩
  have hleft : user.MeansUnqualified twins 0 "Id" (.message ⟨.imported 0, 0⟩) :=
    ⟨_, rfl, .message rfl⟩
  have hright : user.MeansUnqualified twins 1 "Id" (.message ⟨.imported 1, 0⟩) :=
    ⟨_, rfl, .message rfl⟩
  refine ⟨(resolve?_decides built_twins hverify ".User").2.1 _ hown,
    (resolve?_decides built_twins hverify "Id").2.2.2.1.2
      ⟨?_, ?_, 0, 1, Nat.zero_ne_one, ⟨_, hleft⟩, _, hright⟩⟩
  · rintro e ⟨own, hdeclares, hname | ⟨package, hpackage, -⟩⟩
    · have hmem : own ∈ ["User"] := hdeclares.mem
      rw [List.mem_singleton.1 hmem] at hname
      exact absurd hname (by decide)
    · cases hpackage
  · rintro e ⟨i, c, -, package, -, own, hname, -⟩
    have hid : Text.Identifier "Id" := Text.isIdentifier_iff.1 (by decide)
    exact hid.ne_qualified package own hname

end Marshal
