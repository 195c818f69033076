import Marshal.Compile.Verify
import Marshal.Proofs.Outcomes
import Mathlib.Data.List.Pairwise

/-!
# What verification accepts

A schema is *well formed* (`Schema.WellFormed`) if its names are identifiers that differ where
they have to, its enums have symbols, its numbers are positive and differ, its imports are
published, and its fields refer to types in the right form. This is said without the checks that
verification is made of: a name is a text of a certain form, and the elements of a list differ in
pairs.

Each check has one lemma that says when it succeeds. Those of single elements, given the elements
before them, become those of lists by `checkEach_eq_ok_iff`. Verification succeeds if all checks
do (`Schema.verify_eq_ok_iff`), so it accepts exactly the well-formed schemas
(`verify_accepts_wellFormed`).
-/

namespace Marshal

/-! ## Names -/

namespace Text

/-- A letter or an underscore. -/
def Letter (c : Char) : Prop := ('A' ≤ c ∧ c ≤ 'Z') ∨ ('a' ≤ c ∧ c ≤ 'z') ∨ c = '_'

/-- A decimal digit. -/
def Digit (c : Char) : Prop := '0' ≤ c ∧ c ≤ '9'

instance : DecidablePred Letter := fun _ => inferInstanceAs (Decidable (_ ∨ _ ∨ _))

instance : DecidablePred Digit := fun _ => inferInstanceAs (Decidable (_ ∧ _))

/-- A letter, and then letters and digits. -/
def Identifier (s : String) : Prop :=
  ∃ c cs, s.toList = c :: cs ∧ Letter c ∧ ∀ d ∈ cs, Letter d ∨ Digit d

/-- One or more identifiers, with dots between them. -/
def Dotted (s : String) : Prop :=
  ∃ parts, parts ≠ [] ∧ (∀ part ∈ parts, Identifier part) ∧ s = ".".intercalate parts

/-- Identifiers with dots between them, and possibly one more dot in front. -/
def Reference (s : String) : Prop := Dotted s ∨ ∃ rest, Dotted rest ∧ s = "." ++ rest

/-- Identifiers that are all different. -/
structure Names (names : List String) : Prop where
  identifiers : ∀ name ∈ names, Identifier name
  nodup : names.Nodup

theorem isIdentStart_iff {c : Char} : isIdentStart c = true ↔ Letter c := by
  have hupper : c.isUpper = true ↔ 'A' ≤ c ∧ c ≤ 'Z' := decide_eq_true_iff
  have hlower : c.isLower = true ↔ 'a' ≤ c ∧ c ≤ 'z' := by
    change (decide ('a' ≤ c) && decide (c ≤ 'z')) = true ↔ _
    simp
  change (c.isUpper || c.isLower || decide (c = '_')) = true ↔ _
  rw [Bool.or_eq_true, Bool.or_eq_true, hupper, hlower, decide_eq_true_iff, or_assoc]
  rfl

theorem isIdentRest_iff {c : Char} : isIdentRest c = true ↔ Letter c ∨ Digit c := by
  have hdigit : c.isDigit = true ↔ Digit c := by
    change (decide ('0' ≤ c) && decide (c ≤ '9')) = true ↔ _
    simp [Digit]
  rw [← isIdentStart_iff, ← hdigit]
  change (c.isAlpha || c.isDigit || decide (c = '_')) = true ↔
    (c.isAlpha || decide (c = '_')) = true ∨ _
  grind

/-- The check of a name accepts the identifiers. -/
theorem isIdentifier_iff {s : String} : isIdentifier s.toList = true ↔ Identifier s := by
  rw [Identifier]
  rcases s.toList with _ | ⟨c, cs⟩
  · simp [isIdentifier]
  · simp [isIdentifier, isIdentStart_iff, isIdentRest_iff, and_assoc]

/-- There are only letters and digits in an identifier. -/
theorem Identifier.not_mem {s : String} (h : Identifier s) {d : Char} (hletter : ¬Letter d)
    (hdigit : ¬Digit d) : d ∉ s.toList := by
  obtain ⟨c, cs, hs, hc, hcs⟩ := h
  rw [hs, List.mem_cons]
  rintro (rfl | hmem)
  · exact hletter hc
  · exact (hcs _ hmem).elim hletter hdigit

/-- There are no dots in an identifier. -/
theorem Identifier.dot_not_mem {s : String} (h : Identifier s) : '.' ∉ s.toList :=
  h.not_mem (by decide) (by decide)

/-- A separator between two texts separates their words. -/
theorem words_append (sep : Char) (s s' : String) :
    words sep (s ++ String.singleton sep ++ s') = words sep s ++ words sep s' := by
  simp only [words, String.toList_append, String.toList_singleton, List.append_assoc,
    List.singleton_append, List.splitOn_append_cons_self, List.map_append]

/-- The check of a package accepts identifiers with dots between them. -/
theorem isDotted_iff {s : String} : isDotted s.toList = true ↔ Dotted s := by
  rw [isDotted, List.all_eq_true, Dotted]
  constructor
  · intro h
    refine ⟨(s.toList.splitOn '.').map String.ofList, ?_, ?_, ?_⟩
    · simp [List.splitOn_ne_nil]
    · simpa [← isIdentifier_iff] using h
    · rw [← String.toList_inj, String.toList_intercalate, List.map_map]
      simp [List.intercalate_splitOn]
  · rintro ⟨parts, hne, hparts, rfl⟩
    have hdots : ∀ part ∈ parts.map String.toList, '.' ∉ part := by
      simpa using fun part hpart => (hparts part hpart).dot_not_mem
    rw [String.toList_intercalate]
    change ∀ part ∈ List.splitOn '.' (List.intercalate ['.'] _), _
    rw [List.splitOn_intercalate _ hdots (by simpa using hne)]
    simpa [isIdentifier_iff] using hparts

/-- The check of a reference accepts dotted names, which may start with a dot. -/
theorem isReference_iff {s : String} : isReference s.toList = true ↔ Reference s := by
  rw [isReference, Reference]
  by_cases hdot : ∃ rest, s = "." ++ rest
  · obtain ⟨rest, rfl⟩ := hdot
    have hrest : withoutDot ("." ++ rest).toList = rest.toList := by simp [withoutDot]
    -- Nothing stands in front of the dot, and so no identifier.
    have hnot : ¬Dotted ("." ++ rest) := by
      rw [← isDotted_iff]
      simp [isDotted, List.splitOn_cons_eq_if_modifyHead, isIdentifier]
    rw [hrest, isDotted_iff]
    simp [hnot]
  · have hsame : withoutDot s.toList = s.toList := by
      rw [withoutDot.eq_def]
      split
      · rename_i rest hs
        exact absurd ⟨String.ofList rest, by simp [← String.toList_inj, hs]⟩ hdot
      · rfl
    rw [hsame, isDotted_iff]
    grind

end Text

/-! ## Checks -/

section Checks

variable {ε α : Type} {check : List α → α → Except ε Unit}

/-- A list passes a check if its first element does, and the others after it. -/
theorem checkEach_cons_eq_ok_iff {earlier l : List α} {a : α} :
    checkEach check earlier (a :: l) = .ok () ↔
      check earlier a = .ok () ∧ checkEach check (a :: earlier) l = .ok () := by
  rw [checkEach]
  cases check earlier a <;> simp

/-- If an element is checked by itself and against each one before it, then a list is checked by
    its elements, by all pairs of them, and against what comes before it. -/
theorem checkEach_after_eq_ok_iff {P : α → Prop} {R : α → α → Prop}
    (hcheck : ∀ earlier a, check earlier a = .ok () ↔ P a ∧ ∀ b ∈ earlier, R b a)
    {earlier l : List α} : checkEach check earlier l = .ok () ↔
      (∀ a ∈ l, P a) ∧ l.Pairwise R ∧ ∀ b ∈ earlier, ∀ a ∈ l, R b a := by
  induction l generalizing earlier with
  | nil => simp [checkEach]
  | cons a l ih =>
    rw [checkEach_cons_eq_ok_iff, hcheck, ih]
    simp only [List.forall_mem_cons, List.pairwise_cons]
    grind

/-- A list passes a check that compares each element with those before it if all elements do, and
    any two of them. -/
theorem checkEach_eq_ok_iff {P : α → Prop} {R : α → α → Prop}
    (hcheck : ∀ earlier a, check earlier a = .ok () ↔ P a ∧ ∀ b ∈ earlier, R b a) {l : List α} :
    checkEach check [] l = .ok () ↔ (∀ a ∈ l, P a) ∧ l.Pairwise R := by
  simp [checkEach_after_eq_ok_iff hcheck]

/-- A check that does not look at what comes before. -/
theorem checkAll_eq_ok_iff {check : α → Except ε Unit} {l : List α} :
    checkEach (fun _ a => check a) [] l = .ok () ↔ ∀ a ∈ l, check a = .ok () := by
  have hcheck : ∀ (earlier : List α) a,
      check a = .ok () ↔ check a = .ok () ∧ ∀ b ∈ earlier, (fun _ _ => True) b a := by simp
  rw [checkEach_eq_ok_iff hcheck]
  exact and_iff_left (List.pairwise_of_forall fun _ _ => trivial)

/-- A name passes if it is an identifier that was not taken before. -/
theorem checkName_eq_ok_iff (place : Place) (role : Role) (earlier : List String) (name : String) :
    checkName place role earlier name = .ok () ↔
      Text.Identifier name ∧ ∀ other ∈ earlier, other ≠ name := by
  rw [checkName, ← Text.isIdentifier_iff]
  grind

/-- Each of the names is checked, given those before it. -/
theorem checkNames_eq_ok_iff {place : Place} {role : Role} {names : List String} :
    checkEach (checkName place role) [] names = .ok () ↔ Text.Names names := by
  rw [checkEach_eq_ok_iff (checkName_eq_ok_iff place role)]
  exact ⟨fun h => ⟨h.1, h.2⟩, fun h => ⟨h.identifiers, h.nodup⟩⟩

/-- A name is checked with success, or it is not an identifier of its own and there is an error. -/
theorem checkName_ok_or_error (place : Place) (role : Role) (earlier : List String)
    (name : String) :
    (checkName place role earlier name = .ok () ∧
      Text.Identifier name ∧ ∀ other ∈ earlier, other ≠ name) ∨
    ((∃ e, checkName place role earlier name = .error e) ∧
      ¬(Text.Identifier name ∧ ∀ other ∈ earlier, other ≠ name)) := by
  rw [← checkName_eq_ok_iff place role]
  cases checkName place role earlier name <;> simp

end Checks

/-! ## Declarations -/

/-- An enum has symbols, and these have names and numbers of their own. -/
structure Enum.WellFormed (e : Enum) : Prop where
  nonempty : e.values ≠ []
  names : Text.Names (e.values.map (·.name))
  numbers : (e.values.map (·.value)).Nodup

/-- The names in a type. -/
def FieldType.names : FieldType → List String
  | .scalar _ => []
  | .named name => [name]
  | .optional inner | .repeated inner => inner.names
  | .map key value => key.names ++ value.names

/-- The fields of a message have names and positive numbers of their own, and the names in
    their types are references. -/
structure Message.WellFormed (m : Message) : Prop where
  names : Text.Names (m.fields.map (·.name))
  positive : ∀ f ∈ m.fields, f.number ≠ 0
  numbers : (m.fields.map (·.number)).Nodup
  references : ∀ f ∈ m.fields, ∀ name ∈ f.type.names, Text.Reference name

/-- A schema that others may refer to and that refers to others in the right form. -/
structure Schema.WellFormed (s : Schema) (t : ImportTable) : Prop where
  package : ∀ package ∈ s.package, Text.Dotted package
  /-- The schemas that it imports are different ones, others than itself, and published. -/
  imports : s.imports.Nodup
  others : s.name ∉ s.imports
  published : ∀ name ∈ s.imports, (t.get? name).isSome
  types : Text.Names (s.enums.map (·.name) ++ s.messages.map (·.name))
  enums : ∀ e ∈ s.enums, e.WellFormed
  messages : ∀ m ∈ s.messages, m.WellFormed
  services : Text.Names (s.services.map (·.name))
  methods : ∀ service ∈ s.services, Text.Names (service.methods.map (·.name))

/-- A symbol passes if neither its name nor its number was taken before. -/
theorem Enum.checkSymbol_eq_ok_iff (e : Enum) (earlier : List EnumSymbol) (v : EnumSymbol) :
    e.checkSymbol earlier v = .ok () ↔ Text.Identifier v.name ∧
      ∀ u ∈ earlier, u.name ≠ v.name ∧ u.value ≠ v.value := by
  rw [checkSymbol]
  rcases checkName_ok_or_error (.enum e.name) .symbol (earlier.map (·.name)) v.name with
    ⟨hok, hname⟩ | ⟨⟨err, herror⟩, hname⟩
  · rw [hok]
    grind
  · rw [herror]
    grind

/-- An enum passes if and only if it is well formed. -/
theorem Enum.check_eq_ok_iff {e : Enum} : e.check = .ok () ↔ e.WellFormed := by
  rw [check]
  -- An enum without symbols is refused before any symbol is looked at.
  by_cases hempty : e.values = []
  · simp only [hempty]
    exact ⟨(nomatch ·), fun h => absurd hempty h.nonempty⟩
  rw [if_neg (by simpa using hempty), checkEach_eq_ok_iff e.checkSymbol_eq_ok_iff,
    List.pairwise_and_iff]
  constructor
  · rintro ⟨hidentifiers, hnames, hnumbers⟩
    exact ⟨hempty, ⟨by simpa using hidentifiers, List.pairwise_map.2 hnames⟩,
      List.pairwise_map.2 hnumbers⟩
  · intro h
    exact ⟨by simpa using h.names.identifiers, List.pairwise_map.1 h.names.nodup,
      List.pairwise_map.1 h.numbers⟩

/-- A type passes if all of its names are references. -/
theorem FieldType.checkReferences_eq_ok_iff (type : FieldType) (place : Place) :
    type.checkReferences place = .ok () ↔ ∀ name ∈ type.names, Text.Reference name := by
  induction type with
  | scalar s => simp [checkReferences, names]
  | named name => simp [checkReferences, names, ← Text.isReference_iff]
  | optional inner ih | repeated inner ih => exact ih
  | map key value ihkey ihvalue =>
    rw [checkReferences, names, List.forall_mem_append, ← ihkey, ← ihvalue]
    cases key.checkReferences place <;> simp

/-- A field passes if its name and its number are legal and were not taken before, and the names in
    its type are references. -/
theorem Message.checkField_eq_ok_iff (m : Message) (earlier : List Field) (f : Field) :
    m.checkField earlier f = .ok () ↔
      (Text.Identifier f.name ∧ f.number ≠ 0 ∧ ∀ name ∈ f.type.names, Text.Reference name) ∧
        ∀ g ∈ earlier, g.name ≠ f.name ∧ g.number ≠ f.number := by
  have htype := f.type.checkReferences_eq_ok_iff (.message m.name)
  rw [checkField]
  rcases checkName_ok_or_error (.message m.name) .field (earlier.map (·.name)) f.name with
    ⟨hok, hname⟩ | ⟨⟨err, herror⟩, hname⟩
  · rw [hok]
    grind
  · rw [herror]
    grind

/-- A message passes if and only if it is well formed. -/
theorem Message.check_eq_ok_iff {m : Message} : m.check = .ok () ↔ m.WellFormed := by
  rw [check, checkEach_eq_ok_iff m.checkField_eq_ok_iff, List.pairwise_and_iff]
  constructor
  · rintro ⟨hfields, hnames, hnumbers⟩
    exact ⟨⟨by simpa using fun f hf => (hfields f hf).1, List.pairwise_map.2 hnames⟩,
      fun f hf => (hfields f hf).2.1, List.pairwise_map.2 hnumbers,
      fun f hf => (hfields f hf).2.2⟩
  · intro h
    have hidentifiers : ∀ f ∈ m.fields, Text.Identifier f.name := by
      simpa using h.names.identifiers
    exact ⟨fun f hf => ⟨hidentifiers f hf, h.positive f hf, h.references f hf⟩,
      List.pairwise_map.1 h.names.nodup, List.pairwise_map.1 h.numbers⟩

/-! ## Schemas -/

namespace Schema

variable {s : Schema} {t : ImportTable}

/-- The package passes if it is a dotted name, or if there is none. -/
theorem checkPackage_eq_ok_iff :
    s.checkPackage = .ok () ↔ ∀ package ∈ s.package, Text.Dotted package := by
  rw [checkPackage]
  cases s.package <;> simp [← Text.isDotted_iff]

/-- Imports pass if they are published, other than the schema itself, and different. -/
theorem checkImports_eq_ok_iff {imports : List String} :
    checkEach (s.checkImport t) [] imports = .ok () ↔
      (∀ name ∈ imports, name ≠ s.name ∧ (t.get? name).isSome) ∧ imports.Nodup := by
  refine checkEach_eq_ok_iff fun earlier name => ?_
  rw [checkImport]
  cases t.get? name <;> grind

/-- A service passes if its name was not taken before, and those of its methods are different. -/
theorem checkService_eq_ok_iff (s : Schema) (earlier : List Service) (service : Service) :
    s.checkService earlier service = .ok () ↔
      (Text.Identifier service.name ∧ Text.Names (service.methods.map (·.name))) ∧
        ∀ other ∈ earlier, other.name ≠ service.name := by
  rw [checkService]
  rcases checkName_ok_or_error (.schema s.name) .service (earlier.map (·.name)) service.name with
    ⟨hok, hname⟩ | ⟨⟨err, herror⟩, hname⟩
  · rw [hok]
    dsimp only
    rw [checkNames_eq_ok_iff]
    grind
  · rw [herror]
    grind

/-- Services pass if their names are different identifiers, and those of the methods of each. -/
theorem checkServices_eq_ok_iff : checkEach s.checkService [] s.services = .ok () ↔
    Text.Names (s.services.map (·.name)) ∧
      ∀ service ∈ s.services, Text.Names (service.methods.map (·.name)) := by
  rw [checkEach_eq_ok_iff s.checkService_eq_ok_iff]
  constructor
  · rintro ⟨hservices, hnames⟩
    exact ⟨⟨by simpa using fun service hs => (hservices service hs).1, List.pairwise_map.2 hnames⟩,
      fun service hs => (hservices service hs).2⟩
  · rintro ⟨hnames, hmethods⟩
    have hidentifiers : ∀ service ∈ s.services, Text.Identifier service.name := by
      simpa using hnames.identifiers
    exact ⟨fun service hs => ⟨hidentifiers service hs, hmethods service hs⟩,
      List.pairwise_map.1 hnames.nodup⟩

/-- A schema is verified if all its parts are checked. -/
theorem verify_eq_ok_iff : s.verify t = .ok () ↔
    s.checkPackage = .ok () ∧ checkEach (s.checkImport t) [] s.imports = .ok () ∧
      checkEach (checkName (.schema s.name) .type) [] s.typeNames = .ok () ∧
      checkEach (fun _ e => e.check) [] s.enums = .ok () ∧
      checkEach (fun _ m => m.check) [] s.messages = .ok () ∧
      checkEach s.checkService [] s.services = .ok () := by
  rw [verify, seq_eq_ok_iff, seq_eq_ok_iff, seq_eq_ok_iff, seq_eq_ok_iff, seq_eq_ok_iff]

/-- The imports of a schema that was verified are published. -/
theorem isSome_of_verify (h : s.verify t = .ok ()) {name : String} (hname : name ∈ s.imports) :
    (t.get? name).isSome :=
  ((checkImports_eq_ok_iff.1 (verify_eq_ok_iff.1 h).2.1).1 name hname).2

/-- No schema that passes has an import twice. -/
theorem nodup_of_verify (h : s.verify t = .ok ()) : s.imports.Nodup :=
  (checkImports_eq_ok_iff.1 (verify_eq_ok_iff.1 h).2.1).2

/-- The types of a schema that passes have different names. -/
theorem names_of_verify (h : s.verify t = .ok ()) : Text.Names s.typeNames :=
  checkNames_eq_ok_iff.1 (verify_eq_ok_iff.1 h).2.2.1

/-- The messages of a schema that passes are well formed. -/
theorem wellFormed_of_verify (h : s.verify t = .ok ()) {m : Message} (hm : m ∈ s.messages) :
    m.WellFormed :=
  Message.check_eq_ok_iff.1 (checkAll_eq_ok_iff.1 (verify_eq_ok_iff.1 h).2.2.2.2.1 m hm)

end Schema

/-- Verification accepts the schemas that are well formed, and no others. -/
theorem verify_accepts_wellFormed (s : Schema) (t : ImportTable) :
    s.verify t = .ok () ↔ s.WellFormed t := by
  rw [Schema.verify_eq_ok_iff, Schema.checkPackage_eq_ok_iff, Schema.checkImports_eq_ok_iff,
    checkNames_eq_ok_iff, checkAll_eq_ok_iff, checkAll_eq_ok_iff, Schema.checkServices_eq_ok_iff]
  simp only [Enum.check_eq_ok_iff, Message.check_eq_ok_iff]
  constructor
  · rintro ⟨hpackage, ⟨himports, hnodup⟩, htypes, henums, hmessages, hservices, hmethods⟩
    exact ⟨hpackage, hnodup, fun h => (himports _ h).1 rfl, fun name h => (himports name h).2,
      htypes, henums, hmessages, hservices, hmethods⟩
  · intro h
    have himports : ∀ name ∈ s.imports, name ≠ s.name ∧ (t.get? name).isSome := fun name hname =>
      ⟨fun he => h.others (he ▸ hname), h.published name hname⟩
    exact ⟨h.package, ⟨himports, h.imports⟩, h.types, h.enums, h.messages, h.services, h.methods⟩

end Marshal
