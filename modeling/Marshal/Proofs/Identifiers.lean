import Marshal.Proofs.Emission
import Marshal.Proofs.Naming

/-!
# Identifiers of generated code

The names of a schema that was compiled are identifiers, and become others in generated code. A
name can be declared there if it is an identifier, not a single underscore, and not a keyword
(`Code.Legal`). Keywords are escaped, and changing the case of an identifier changes letters into
letters. But the capitalized form of a name loses its underscores:

* `legal_fieldIdent_iff`: the names of fields and methods are legal, unless they are a single
  underscore;
* `legal_typeIdent_iff`: the names of types, symbols and services are legal if a letter follows
  the underscores that they start with. Otherwise nothing is left of them, or a digit comes first.
-/

namespace Marshal

namespace Text

/-! ## Characters -/

/-- Only capital letters are changed to small ones. -/
theorem toLower_of_not_isUpper {c : Char} (h : ¬c.isUpper) : c.toLower = c := by
  delta Char.isUpper at h
  exact dif_neg (by simpa using h)

/-- Only small letters are changed to capital ones. -/
theorem toUpper_of_not_isLower {c : Char} (h : ¬c.isLower) : c.toUpper = c := by
  delta Char.isLower at h
  exact dif_neg (by simpa using h)

theorem isUpper_toLower (c : Char) : c.toLower.isUpper = false := by
  delta Char.isUpper Char.toLower
  split <;> grind [UInt32.toNat_add, Char.toNat_val]

/-- Letters stay letters in the other case. -/
theorem isAlpha_toLower (c : Char) : c.toLower.isAlpha = c.isAlpha := by
  delta Char.isAlpha Char.isUpper Char.isLower Char.toLower
  split <;> grind [UInt32.toNat_add, Char.toNat_val]

theorem isAlphanum_toLower (c : Char) : c.toLower.isAlphanum = c.isAlphanum := by
  change (c.toLower.isAlpha || c.toLower.isDigit) = (c.isAlpha || c.isDigit)
  rw [isAlpha_toLower]
  by_cases h : c.isUpper
  · have halpha : c.isAlpha = true := Bool.or_eq_true_iff.2 (.inl h)
    rw [halpha, Bool.true_or, Bool.true_or]
  · rw [toLower_of_not_isUpper h]

theorem isAlpha_toUpper (c : Char) : c.toUpper.isAlpha = c.isAlpha := by
  delta Char.isAlpha Char.isUpper Char.isLower Char.toUpper
  split <;> grind [UInt32.toNat_add, Char.toNat_val]

theorem isAlphanum_toUpper (c : Char) : c.toUpper.isAlphanum = c.isAlphanum := by
  change (c.toUpper.isAlpha || c.toUpper.isDigit) = (c.isAlpha || c.isDigit)
  rw [isAlpha_toUpper]
  by_cases h : c.isLower
  · have halpha : c.isAlpha = true := Bool.or_eq_true_iff.2 (.inr h)
    rw [halpha, Bool.true_or, Bool.true_or]
  · rw [toUpper_of_not_isLower h]

theorem isIdentRest_of_isAlphanum {c : Char} (h : c.isAlphanum = true) : isIdentRest c = true := by
  rw [isIdentRest, h, Bool.true_or]

/-- Identifiers have letters, digits and underscores only. -/
theorem isAlphanum_of_isIdentRest {c : Char} (h : isIdentRest c = true) (hc : c ≠ '_') :
    c.isAlphanum = true := by
  simpa [isIdentRest, hc] using h

theorem isIdentRest_toLower {c : Char} (h : isIdentRest c = true) :
    isIdentRest c.toLower = true := by
  by_cases hc : c = '_'
  · rw [hc]
    rfl
  · exact isIdentRest_of_isAlphanum (by rw [isAlphanum_toLower, isAlphanum_of_isIdentRest h hc])

/-- What may start an identifier is a letter, but for underscores. -/
theorem isAlpha_iff {c : Char} : c.isAlpha = true ↔ Letter c ∧ c ≠ '_' := by
  have hunderscore : '_'.isAlpha = false := by decide
  rw [← isIdentStart_iff, isIdentStart]
  by_cases hc : c = '_' <;> simp [hc, hunderscore]

/-! ## Capitalized names -/

/-- The words of a text are made of its characters other than separators. -/
theorem mem_of_mem_splitOn {sep c : Char} {s word : List Char} (hword : word ∈ s.splitOn sep)
    (hc : c ∈ word) : c ∈ s ∧ c ≠ sep := by
  induction s generalizing word with
  | nil =>
    rw [List.mem_singleton.1 hword] at hc
    cases hc
  | cons a s ih =>
    rw [List.splitOn_cons_eq_if_modifyHead] at hword
    split at hword
    · -- In front of the separator there is an empty word.
      rcases List.mem_cons.1 hword with rfl | hword
      · cases hc
      · exact (ih hword hc).imp_left (List.mem_cons_of_mem _)
    · -- The character is put in front of the first word of the others.
      rename_i ha
      obtain ⟨first, others, hs⟩ := List.exists_cons_of_ne_nil (List.splitOn_ne_nil sep s)
      rw [hs] at hword ih
      rcases List.mem_cons.1 hword with rfl | hword
      · rcases List.mem_cons.1 hc with rfl | hc
        · exact ⟨List.mem_cons_self, by simpa using ha⟩
        · exact (ih List.mem_cons_self hc).imp_left (List.mem_cons_of_mem _)
      · exact (ih (List.mem_cons_of_mem _ hword) hc).imp_left (List.mem_cons_of_mem _)

/-- A word in which only the first letter is capital has the letters of the word, in one case or the
    other. -/
theorem mem_capitalizeOnly {s : List Char} {d : Char} (h : d ∈ capitalizeOnly s) :
    ∃ c ∈ s, d = c.toUpper ∨ d = c.toLower := by
  cases s with
  | nil => cases h
  | cons c s =>
    rw [capitalizeOnly, List.mem_cons, List.mem_map] at h
    grind

/-- A capitalized word has the letters of the word, but for the case of one. -/
theorem mem_capitalize {s : List Char} {d : Char} (h : d ∈ capitalize s) :
    ∃ c ∈ s, d = c.toUpper ∨ d = c := by
  cases s with
  | nil => cases h
  | cons c s =>
    rw [capitalize, List.mem_cons] at h
    grind

/-- A capitalized name is made of the characters of the name other than underscores, with their
    case changed or not. -/
theorem mem_pascalCase {s : List Char} {d : Char} (h : d ∈ pascalCase s) :
    ∃ c ∈ s, c ≠ '_' ∧ (d = c.toUpper ∨ d = c.toLower ∨ d = c) := by
  rw [pascalCase] at h
  split at h
  · obtain ⟨word, hword, hd⟩ := List.mem_flatMap.1 h
    obtain ⟨c, hc, hcase⟩ := mem_capitalizeOnly hd
    obtain ⟨hmem, hne⟩ := mem_of_mem_splitOn hword hc
    exact ⟨c, hmem, hne, hcase.imp_right .inl⟩
  · rename_i hunderscore
    have hne : ∀ c ∈ s, c ≠ '_' := by
      rintro c hc rfl
      exact hunderscore (List.contains_iff_mem.2 hc)
    split at h
    · obtain ⟨c, hc, hcase⟩ := mem_capitalizeOnly h
      exact ⟨c, hc, hne c hc, hcase.imp_right .inl⟩
    · obtain ⟨c, hc, hcase⟩ := mem_capitalize h
      exact ⟨c, hc, hne c hc, hcase.imp_right .inr⟩

/-- There are letters and digits only in the capitalized form of an identifier. -/
theorem isAlphanum_of_mem_pascalCase {s : List Char} (hs : ∀ c ∈ s, isIdentRest c = true) {d : Char}
    (h : d ∈ pascalCase s) : d.isAlphanum = true := by
  obtain ⟨c, hc, hne, hd⟩ := mem_pascalCase h
  have halnum := isAlphanum_of_isIdentRest (hs c hc) hne
  rcases hd with rfl | rfl | rfl
  · rwa [isAlphanum_toUpper]
  · rwa [isAlphanum_toLower]
  · exact halnum

/-- The first word that is not empty starts with the first character that is not an underscore. -/
theorem head?_capitalizeOnly_splitOn (s : List Char) :
    ((s.splitOn '_').flatMap capitalizeOnly).head? =
      (s.dropWhile (· = '_')).head?.map Char.toUpper := by
  induction s with
  | nil => rfl
  | cons c s ih =>
    obtain ⟨word, words, hwords⟩ := List.exists_cons_of_ne_nil (List.splitOn_ne_nil '_' s)
    rw [List.splitOn_cons_eq_if_modifyHead]
    by_cases hc : c = '_'
    · simpa [hc, capitalizeOnly] using ih
    · rw [if_neg (by simpa using hc), List.dropWhile_cons_of_neg (by simpa using hc), hwords]
      rfl

/-- A capitalized name starts with the first character that is not an underscore, in upper
    case. -/
theorem head?_pascalCase (s : List Char) :
    (pascalCase s).head? = (s.dropWhile (· = '_')).head?.map Char.toUpper := by
  rw [pascalCase]
  split
  · exact head?_capitalizeOnly_splitOn s
  · rename_i hunderscore
    have hdrop : s.dropWhile (· = '_') = s := by
      cases s with
      | nil => rfl
      | cons c s => exact List.dropWhile_cons_of_neg (by grind)
    rw [hdrop]
    cases s <;> split <;> rfl

/-- The name starts with a letter, after underscores or not. -/
def LeadsToLetter (name : String) : Prop :=
  ∃ n c rest, name.toList = List.replicate n '_' ++ c :: rest ∧ Letter c ∧ c ≠ '_'

/-- A name leads to a letter if there is one after the underscores in front. -/
theorem leadsToLetter_iff {name : String} : LeadsToLetter name ↔
    ∃ c, (name.toList.dropWhile (· = '_')).head? = some c ∧ c.isAlpha = true := by
  constructor
  · rintro ⟨n, c, rest, hname, hletter, hc⟩
    refine ⟨c, ?_, isAlpha_iff.2 ⟨hletter, hc⟩⟩
    rw [hname, List.dropWhile_append_of_pos (by simp),
      List.dropWhile_cons_of_neg (by simpa using hc), List.head?_cons]
  · rintro ⟨c, hhead, hc⟩
    obtain ⟨rest, hrest⟩ := List.head?_eq_some_iff.1 hhead
    have hunderscores : name.toList.takeWhile (· = '_') =
        List.replicate (name.toList.takeWhile (· = '_')).length '_' :=
      List.eq_replicate_iff.2 ⟨rfl, fun d hd => by simpa using List.mem_takeWhile_imp hd⟩
    refine ⟨(name.toList.takeWhile (· = '_')).length, c, rest, ?_, isAlpha_iff.1 hc⟩
    rw [← hunderscores, ← hrest, List.takeWhile_append_dropWhile]

/-! ## Names in lower case -/

/-- A character is put in lower case, with an underscore in front of it where a word starts. -/
theorem snakeAfter_cons (before : Option Char) (c : Char) (s : List Char) :
    snakeAfter before (c :: s) = (if c.isUpper && startsWord before s then ['_'] else []) ++
      c.toLower :: snakeAfter (some c) s := by
  rw [snakeAfter]
  by_cases hc : c.isUpper
  · rw [if_pos hc, hc, Bool.true_and]
    split <;> rfl
  · simp [hc, toLower_of_not_isUpper]

/-- A name in lower case starts as the name does. -/
theorem snakeCase_cons (c : Char) (s : List Char) :
    snakeCase (c :: s) = c.toLower :: snakeAfter (some c) s := by
  rw [snakeCase, snakeAfter_cons, startsWord, Bool.and_false, if_neg Bool.false_ne_true,
    List.nil_append]

/-- A name in lower case is empty only if the name is. -/
theorem snakeAfter_eq_nil_iff {before : Option Char} {s : List Char} :
    snakeAfter before s = [] ↔ s = [] := by
  cases s with
  | nil => simp [snakeAfter]
  | cons c s => simp [snakeAfter_cons]

/-- A name in lower case is made of the characters of the name and of underscores. -/
theorem mem_snakeAfter {before : Option Char} {s : List Char} {d : Char}
    (h : d ∈ snakeAfter before s) : d = '_' ∨ ∃ c ∈ s, d = c.toLower := by
  induction s generalizing before with
  | nil => cases h
  | cons c s ih =>
    rw [snakeAfter_cons, List.mem_append, List.mem_cons] at h
    rcases h with h | rfl | h
    · split at h
      · exact .inl (List.mem_singleton.1 h)
      · cases h
    · exact .inr ⟨c, List.mem_cons_self, rfl⟩
    · refine (ih h).imp_right ?_
      rintro ⟨c', hc', rfl⟩
      exact ⟨c', List.mem_cons_of_mem _ hc', rfl⟩

/-- What may go on an identifier may do so in lower case. -/
theorem isIdentRest_of_mem_snakeAfter {before : Option Char} {s : List Char}
    (hs : ∀ c ∈ s, isIdentRest c = true) {d : Char} (h : d ∈ snakeAfter before s) :
    isIdentRest d = true := by
  rcases mem_snakeAfter h with rfl | ⟨c, hc, rfl⟩
  · rfl
  · exact isIdentRest_toLower (hs c hc)

end Text

/-! ## Legal names -/

namespace Code

open Text

/-- A name that can be declared in generated code. -/
structure Legal (ident : String) : Prop where
  identifier : Identifier ident
  ne_underscore : ident ≠ "_"
  not_keyword : ident ∉ keywords

/-- Keywords are identifiers that do not end in an underscore. -/
theorem keyword_form : ∀ word ∈ keywords,
    isIdentifier word.toList = true ∧ word.toList.getLast? ≠ some '_' := by
  decide +kernel

/-- A name that is escaped is no keyword. -/
theorem escapeKeyword_not_mem (name : String) : escapeKeyword name ∉ keywords := by
  rw [escapeKeyword]
  split
  · intro h
    exact (keyword_form _ h).2 (by simp)
  · assumption

/-- An identifier with an underscore after it is one still. -/
theorem identifier_append_underscore {name : String} (h : Identifier name) :
    Identifier (name ++ "_") := by
  obtain ⟨c, cs, hname, hc, hcs⟩ := h
  refine ⟨c, cs ++ ['_'], by simp [hname], hc, fun d hd => ?_⟩
  rcases List.mem_append.1 hd with hd | hd
  · exact hcs d hd
  · exact .inl (.inr (.inr (List.mem_singleton.1 hd)))

/-- Once keywords are escaped, just the form of a name has to be looked at. -/
theorem legal_escapeKeyword_iff {name : String} :
    Legal (escapeKeyword name) ↔ Identifier name ∧ name ≠ "_" := by
  by_cases hkeyword : name ∈ keywords
  · have hname : Identifier name := isIdentifier_iff.1 (keyword_form name hkeyword).1
    have hne : name ≠ "_" := by
      rintro rfl
      exact (keyword_form _ hkeyword).2 rfl
    have hescape : escapeKeyword name = name ++ "_" := if_pos hkeyword
    refine ⟨fun _ => ⟨hname, hne⟩, fun _ => ⟨?_, ?_, escapeKeyword_not_mem name⟩⟩
    · rw [hescape]
      exact identifier_append_underscore hname
    · -- There is a letter in front of the underscore.
      obtain ⟨c, cs, hcs, -⟩ := hname
      rw [hescape, ← String.toList_inj.ne]
      simp [hcs]
  · rw [escapeKeyword, if_neg hkeyword]
    exact ⟨fun h => ⟨h.identifier, h.ne_underscore⟩, fun h => ⟨h.1, h.2, hkeyword⟩⟩

theorem isIdentRest_of_identifier {name : String} (h : Identifier name) :
    ∀ c ∈ name.toList, isIdentRest c = true := by
  obtain ⟨c, cs, hname, hc, hcs⟩ := h
  rw [hname, List.forall_mem_cons]
  exact ⟨isIdentRest_iff.2 (.inl hc), fun d hd => isIdentRest_iff.2 (hcs d hd)⟩

theorem identifier_ofList_iff {s : List Char} :
    Identifier (String.ofList s) ↔ isIdentifier s = true := by
  rw [← isIdentifier_iff, String.toList_ofList]

/-- A text of letters and digits is an identifier if a letter comes first. -/
theorem isIdentifier_of_isAlphanum {s : List Char} (hs : ∀ c ∈ s, c.isAlphanum = true) :
    isIdentifier s = true ↔ ∃ c, s.head? = some c ∧ c.isAlpha = true := by
  cases s with
  | nil => simp [isIdentifier]
  | cons c s =>
    rw [List.forall_mem_cons] at hs
    have hne : c ≠ '_' := by
      rintro rfl
      exact absurd hs.1 (by decide)
    have hrest : s.all isIdentRest = true :=
      List.all_eq_true.2 fun d hd => isIdentRest_of_isAlphanum (hs.2 d hd)
    simp [isIdentifier, isIdentStart, hne, hrest]

/-- The capitalized form of an identifier starts with what follows the underscores that this
    starts with. It is legal if that is a letter. -/
theorem legal_typeIdent_iff {name : String} (h : Identifier name) :
    Legal (typeIdent name) ↔ LeadsToLetter name := by
  have hchars : ∀ d ∈ pascalCase name.toList, d.isAlphanum = true := fun d =>
    isAlphanum_of_mem_pascalCase (isIdentRest_of_identifier h)
  have hne : String.ofList (pascalCase name.toList) ≠ "_" := by
    rw [← String.toList_inj.ne, String.toList_ofList]
    intro he
    exact absurd (hchars '_' (he ▸ List.mem_singleton_self _)) (by decide)
  rw [typeIdent, legal_escapeKeyword_iff, identifier_ofList_iff, and_iff_left hne,
    isIdentifier_of_isAlphanum hchars, head?_pascalCase, leadsToLetter_iff]
  simp only [Option.map_eq_some_iff, exists_exists_and_eq_and, isAlpha_toUpper]

/-- The form of an identifier in lower case is legal, unless this is a single underscore. -/
theorem legal_fieldIdent_iff {name : String} (h : Identifier name) :
    Legal (fieldIdent name) ↔ name ≠ "_" := by
  have hchars := isIdentRest_of_identifier h
  obtain ⟨c, cs, hname, hc, -⟩ := h
  rw [hname, List.forall_mem_cons] at hchars
  rw [fieldIdent, legal_escapeKeyword_iff, identifier_ofList_iff, hname, snakeCase_cons,
    ← String.toList_inj.ne, ← String.toList_inj.ne, String.toList_ofList, hname]
  have hstart : isIdentStart c.toLower = true ∧ (c.toLower = '_' ↔ c = '_') := by
    -- An underscore stays as it is, and a letter is still one in lower case.
    by_cases hunderscore : c = '_'
    · subst hunderscore
      decide
    · have halpha : c.toLower.isAlpha = true := by
        rw [isAlpha_toLower]
        exact isAlpha_iff.2 ⟨hc, hunderscore⟩
      have hne := (isAlpha_iff.1 halpha).2
      simp [isIdentStart, halpha, hunderscore, hne]
  have hrest : (snakeAfter (some c) cs).all isIdentRest = true :=
    List.all_eq_true.2 fun d => isIdentRest_of_mem_snakeAfter hchars.2
  rw [isIdentifier, hstart.1, hrest]
  simp [hstart.2, snakeAfter_eq_nil_iff]

end Code

open Code Text

/-- The names of a compiled schema become legal ones in generated code, but for two kinds of them:
    names of types, symbols and services that do not lead to a letter, and fields and methods that
    are named by a single underscore. -/
theorem legal_names_of_compile {schema : Schema} {t : ImportTable} {c : CompiledSchema}
    (h : schema.compile t = .ok c) :
    (∀ name ∈ c.namesOfTypes, Legal (typeIdent name) ↔ LeadsToLetter name) ∧
      ∀ name ∈ c.namesOfFields, Legal (fieldIdent name) ↔ name ≠ "_" := by
  obtain ⟨htypes, hfields⟩ := Schema.identifiers_of_compile h
  exact ⟨fun name hname => legal_typeIdent_iff (htypes name hname),
    fun name hname => legal_fieldIdent_iff (hfields name hname)⟩

namespace Sample

/-- A schema with names that start with underscores. -/
def stencil : Schema where
  name := "stencil.proto"
  enums := [⟨"Mode", [⟨"_flat", 0⟩, ⟨"_2D", 1⟩]⟩]
  messages := [⟨"_", [⟨"type", 1, .named "Mode", false⟩, ⟨"_", 2, .scalar .int32, false⟩]⟩]

def compiledStencil : CompiledSchema where
  name := "stencil.proto"
  package := none
  imports := []
  enums := [.ofEnum 0 ⟨"Mode", [⟨"_flat", 0⟩, ⟨"_2D", 1⟩]⟩]
  messages := [.ofMappings 0 ⟨"_", []⟩ stencilMappings]
  mappings := [stencilMappings]
  services := []
  order := ⟨[], [.enum 0, .message 0]⟩
where
  stencilMappings : List FieldMapping :=
    [ .ofType ⟨"type", 1, .named "Mode", false⟩ (.single (.enum ⟨.own, 0⟩)),
      .ofType ⟨"_", 2, .scalar .int32, false⟩ (.single (.scalar .int32)) ]

theorem compile_stencil : stencil.compile .empty = .ok compiledStencil := rfl

end Sample

open Sample

/-- A symbol with an underscore in front of a letter, and a field named by a keyword. -/
theorem legal_names_stencil :
    stencil.compile .empty = .ok compiledStencil ∧ Legal (typeIdent "_flat") ∧
      Legal (fieldIdent "type") := by
  obtain ⟨htypes, hfields⟩ := legal_names_of_compile compile_stencil
  refine ⟨compile_stencil, (htypes "_flat" (by decide)).2 ⟨1, 'f', _, rfl, ?_⟩,
    (hfields "type" (by decide)).2 (by decide)⟩
  decide

/-- Code is generated for the schema, but its message has no name there, one of its symbols starts
    with a digit, and one of its fields is named by a single underscore. -/
theorem not_legal_stencil :
    stencil.compile .empty = .ok compiledStencil ∧ (∃ text, emit compiledStencil {} = .ok text) ∧
      ("_" ∈ compiledStencil.namesOfTypes ∧ typeIdent "_" = "" ∧ ¬Legal (typeIdent "_")) ∧
      ("_2D" ∈ compiledStencil.namesOfTypes ∧ typeIdent "_2D" = "2d" ∧ ¬Legal (typeIdent "_2D")) ∧
      ("_" ∈ compiledStencil.namesOfFields ∧ fieldIdent "_" = "_" ∧ ¬Legal (fieldIdent "_")) := by
  have hcomplete := Schema.complete_of_compile compile_stencil
  obtain ⟨m, hm⟩ := exists_moduleParts hcomplete
  have hnames : checkNames compiledStencil = .ok () := by decide +kernel
  have hempty : typeIdent "_" = "" := by decide +kernel
  have hdigit : typeIdent "_2D" = "2d" := by decide +kernel
  have hunderscore : fieldIdent "_" = "_" := by decide +kernel
  refine ⟨compile_stencil, ⟨_, by rw [emit, moduleOf, hnames, hm]; rfl⟩, ⟨by decide, hempty, ?_⟩,
    ⟨by decide, hdigit, ?_⟩, ⟨by decide, hunderscore, ?_⟩⟩
  · intro h
    have hident := isIdentifier_iff.2 h.identifier
    rw [hempty] at hident
    cases hident
  · intro h
    have hident := isIdentifier_iff.2 h.identifier
    rw [hdigit] at hident
    exact absurd hident (by decide)
  · exact fun h => h.ne_underscore hunderscore

end Marshal
