import Marshal.Proofs.Emission

/-!
# What the name of a schema changes in generated code

The name of a schema may be any text. It is printed once in the code that is generated for the
schema, at the end of a comment at the top: all other parts of the module are the same under
another name (`moduleParts_rename`, `checkNames_rename`). But a comment ends with its line. So a
name of several lines adds all but the first of them to the code (`codeLines_document`), and code
does not depend on the name just as far as the lines added do not: `emit_rename`.
-/

namespace Marshal

/-! ## Lines -/

namespace Text

/-- What comes before the first separator belongs to the first part. -/
theorem splitOn_append_left {sep : Char} {s : List Char} (hs : sep ∉ s) (s' : List Char) :
    (s ++ s').splitOn sep = (s'.splitOn sep).modifyHead (s ++ ·) := by
  obtain ⟨word, words, hwords⟩ := List.exists_cons_of_ne_nil (List.splitOn_ne_nil sep s')
  induction s with
  | nil => rw [hwords, List.modifyHead_cons, List.nil_append, List.nil_append, hwords]
  | cons c s ih =>
    rw [List.mem_cons, not_or] at hs
    rw [List.cons_append, List.splitOn_cons_eq_if_modifyHead,
      if_neg (by simpa using Ne.symm hs.1), ih hs.2, hwords]
    rfl

/-- A text without separators goes to the first word of what follows. -/
theorem words_append_left {sep : Char} {s : String} (hs : sep ∉ s.toList) (s' : String) :
    ∃ word rest, words sep s' = word :: rest ∧ words sep (s ++ s') = (s ++ word) :: rest := by
  obtain ⟨word, rest, hwords⟩ := List.exists_cons_of_ne_nil (List.splitOn_ne_nil sep s'.toList)
  refine ⟨.ofList word, rest.map .ofList, ?_, ?_⟩
  · rw [words, hwords, List.map_cons]
  · rw [words, String.toList_append, splitOn_append_left hs, hwords]
    simp

end Text

namespace Code

open Text Source

/-- Whether a line is a comment. -/
def isComment (line : String) : Bool := "//".toList.isPrefixOf line.toList

/-- The lines of a text other than comments. -/
def codeLines (text : String) : List String := (words '\n' text).filter (!isComment ·)

/-- The lines other than comments that a text adds to the one that it stands in. -/
def addedLines (text : String) : List String := (words '\n' text).tail.filter (!isComment ·)

/-- The lines of code of two texts, with a line break between them, are those of both. -/
theorem codeLines_append (text text' : String) :
    codeLines (text ++ "\n" ++ text') = codeLines text ++ codeLines text' := by
  rw [codeLines, show "\n" = String.singleton '\n' from rfl, words_append, List.filter_append]
  rfl

/-- What stands in a comment adds lines after it. -/
theorem codeLines_comment (text : String) : codeLines ("//" ++ text) = addedLines text := by
  have hslashes : '\n' ∉ "//".toList := by decide
  obtain ⟨word, rest, hwords, hcomment⟩ := words_append_left hslashes text
  have hhead : isComment ("//" ++ word) = true := by
    simp [isComment]
  rw [codeLines, addedLines, hcomment, hwords, List.filter_cons_of_neg (by simp [hhead])]
  rfl

/-- Text without a line break adds no line. -/
theorem addedLines_append {text : String} (h : '\n' ∉ text.toList) (text' : String) :
    addedLines (text ++ text') = addedLines text' := by
  obtain ⟨word, rest, hwords, happend⟩ := words_append_left h text'
  rw [addedLines, addedLines, hwords, happend]
  rfl

/-- A text of one line adds no other lines. -/
theorem addedLines_of_not_mem {text : String} (h : '\n' ∉ text.toList) : addedLines text = [] := by
  rw [← String.append_empty (s := text), addedLines_append h]
  rfl

/-- The first section of a document ends with a line break, whatever follows. -/
theorem document_cons (sections : List (List Source)) : ∃ after, ∀ pieces,
    document (pieces :: sections) = joinWith "\n" (linesAll 0 pieces) ++ "\n" ++ after := by
  by_cases hsections : sections = []
  · refine ⟨"", fun pieces => ?_⟩
    simp [hsections, document, joinWith]
  · refine ⟨"\n" ++ document sections, fun pieces => ?_⟩
    have hlines : (sections.map fun pieces => joinWith "\n" (linesAll 0 pieces)) ≠ [] := by
      simpa using hsections
    rw [document, document, List.map_cons, joinWith, String.intercalate_cons_of_ne_nil hlines,
      ← joinWith, show "\n\n" = "\n" ++ "\n" from rfl]
    simp only [String.append_assoc]

end Code

/-! ## Renaming -/

/-- A compiled schema under another name. -/
def CompiledSchema.rename (s : CompiledSchema) (name : String) : CompiledSchema :=
  { s with name := name }

/-- A schema renamed to its own name is the same. -/
theorem CompiledSchema.rename_self (s : CompiledSchema) : s.rename s.name = s := by
  cases s
  rfl

namespace Code

open Text Source

variable (s : CompiledSchema) (name : String) (o : Options)

@[simp] theorem messageType_rename : messageType (s.rename name) = messageType s := by
  funext id
  rcases id with ⟨_ | i, index⟩
  · have hplan (s : CompiledSchema) :
        s.messagePlan? ⟨.own, index⟩ = s.messages[index]?.map (Prod.mk s) := by
      rw [Option.map_eq_bind]
      rfl
    have hmessages : (s.rename name).messages[index]? = s.messages[index]? := rfl
    rw [messageType, messageType, hplan, hplan, hmessages]
    cases s.messages[index]? <;> rfl
  · rfl

@[simp] theorem enumType_rename : enumType (s.rename name) = enumType s := by
  funext id
  rcases id with ⟨_ | i, index⟩
  · have hplan : (s.rename name).enumPlan? ⟨.own, index⟩ = s.enumPlan? ⟨.own, index⟩ := rfl
    rw [enumType, enumType, hplan]
    cases s.enumPlan? ⟨.own, index⟩ <;> rfl
  · rfl

@[simp] theorem valueType_rename : valueType (s.rename name) = valueType s := by
  funext v
  unfold valueType
  simp only [messageType_rename, enumType_rename]

@[simp] theorem fieldType_rename : fieldType (s.rename name) = fieldType s := by
  funext shape
  unfold fieldType
  simp only [valueType_rename]

@[simp] theorem readValue_rename : readValue (s.rename name) = readValue s := by
  funext v buf
  unfold readValue
  simp only [messageType_rename, enumType_rename]

@[simp] theorem decodeField_rename : decodeField (s.rename name) = decodeField s := by
  funext step
  unfold decodeField readElement readEntry
  simp only [readValue_rename]

/-- The name of a schema occurs in none of its messages. -/
@[simp] theorem structCode_rename : structCode (s.rename name) = structCode s := by
  funext p
  unfold structCode fieldCode decodeStep
  simp only [fieldType_rename, decodeField_rename]

@[simp] theorem typeItem_rename : typeItem (s.rename name) = typeItem s := by
  funext d
  unfold typeItem
  simp only [structCode_rename]
  rfl

@[simp] theorem traitCode_rename : traitCode (s.rename name) = traitCode s := by
  funext p
  unfold traitCode methodCode
  simp only [messageType_rename]

/-- Of the parts of a module, the name of the schema changes just its own mention. -/
theorem moduleParts_rename : moduleParts (s.rename name) =
    (fun m => { m with schema := name }) <$> moduleParts s := by
  have himports : (s.rename name).order.imports.mapM (useCode (s.rename name)) =
      s.order.imports.mapM (useCode s) := rfl
  unfold moduleParts
  rw [himports, typeItem_rename, traitCode_rename]
  simp only [map_bind, map_pure]
  rfl

/-- The name of a schema is not checked against others. -/
theorem checkNames_rename : checkNames (s.rename name) = checkNames s := rfl

theorem indented_zero (text : String) : indented 0 text = text := by
  rw [indented, Nat.mul_zero, List.replicate_zero, String.ofList_nil, String.empty_append]

/-- The header tells the name of the schema in its second line. -/
theorem header_eq : joinWith "\n" (linesAll 0 (Module.header name)) =
    "// Code generated by polyglot-compiler. DO NOT EDIT." ++ "\n" ++ ("// source: " ++ name) := by
  have hlines : linesAll 0 (Module.header name) =
      ["// Code generated by polyglot-compiler. DO NOT EDIT.", "// source: " ++ name] := by
    rw [Module.header, linesAll, linesAll, linesAll, lines, lines, indented_zero, indented_zero]
    rfl
  rw [hlines, joinWith, String.intercalate_cons_cons, String.intercalate_singleton]

/-- The code lines of a module: those that its name adds to the comment at the top, and others. -/
theorem codeLines_document (sections : List (List Source)) : ∃ lines, ∀ name,
    codeLines (document (Module.header name :: sections)) = addedLines name ++ lines := by
  obtain ⟨after, hafter⟩ := document_cons sections
  refine ⟨codeLines after, fun name => ?_⟩
  have hgenerated : codeLines "// Code generated by polyglot-compiler. DO NOT EDIT." = [] := by
    decide +kernel
  have hsource : codeLines ("// source: " ++ name) = addedLines name := by
    rw [show "// source: " = "//" ++ " source: " from rfl, String.append_assoc, codeLines_comment]
    exact addedLines_append (by decide) name
  rw [hafter, header_eq, codeLines_append, codeLines_append, hgenerated, hsource,
    List.nil_append]

/-- Either no code is generated under any name, for the same reason, or there is under every name,
    and the names just add lines to it. -/
theorem emit_rename_cases :
    (∃ e, ∀ name, emit (s.rename name) o = .error e) ∨
      ∃ lines, ∀ name, ∃ text, emit (s.rename name) o = .ok text ∧
        codeLines text = addedLines name ++ lines := by
  -- Only the header depends on the name.
  have hemit (name : String) : emit (s.rename name) o = (do
      checkNames s
      let m ← moduleParts s
      return document (Module.header name :: m.body o)) := by
    rw [emit, moduleOf, checkNames_rename, moduleParts_rename]
    cases checkNames s with
    | error e => rfl
    | ok => cases moduleParts s <;> rfl
  simp only [hemit]
  cases checkNames s with
  | error e => exact .inl ⟨e, fun _ => rfl⟩
  | ok =>
    cases moduleParts s with
    | error e => exact .inl ⟨e, fun _ => rfl⟩
    | ok m =>
      obtain ⟨lines, hlines⟩ := codeLines_document (m.body o)
      exact .inr ⟨lines, fun name => ⟨_, rfl, hlines name⟩⟩

end Code

open Code Text

/-- For compiled schemas that differ in their names only, code is generated with the same options
    for both or for neither, and then for the same reason. Comments apart, the code is the same if
    and only if the names add the same lines to it. This is so if both names are of one line. -/
theorem emit_rename (s : CompiledSchema) (name : String) (o : Options) :
    (∃ e, emit s o = .error e ∧ emit (s.rename name) o = .error e) ∨
      ∃ text text', emit s o = .ok text ∧ emit (s.rename name) o = .ok text' ∧
        (codeLines text = codeLines text' ↔ addedLines s.name = addedLines name) ∧
        ('\n' ∉ s.name.toList → '\n' ∉ name.toList → codeLines text = codeLines text') := by
  -- Whether code is emitted does not depend on the name.
  rcases emit_rename_cases s o with ⟨e, he⟩ | ⟨lines, hlines⟩
  · exact .inl ⟨e, s.rename_self ▸ he s.name, he name⟩
  · obtain ⟨text, htext, hcode⟩ := hlines s.name
    obtain ⟨text', htext', hcode'⟩ := hlines name
    rw [s.rename_self] at htext
    refine .inr ⟨text, text', htext, htext', ?_, fun hs hname => ?_⟩
    · rw [hcode, hcode', List.append_cancel_right_eq]
    · rw [hcode, hcode', addedLines_of_not_mem hs, addedLines_of_not_mem hname]

namespace Sample

/-- A schema without declarations. -/
def note (name : String) : Schema where
  name := name
  package := some "notes"

def compiledNote (name : String) : CompiledSchema where
  name := name
  package := some "notes"
  imports := []
  enums := []
  messages := []
  mappings := []
  services := []
  order := ⟨[], []⟩

/-- A name of two lines. -/
def declaringName : String := "note.proto\npub type Note = u8;"

end Sample

open Sample

/-- Code is generated for both schemas, but the name of one adds a declaration to it. -/
theorem not_same_code_note :
    (note "note.proto").compile .empty = .ok (compiledNote "note.proto") ∧
      (note declaringName).compile .empty = .ok (compiledNote declaringName) ∧
      compiledNote declaringName = (compiledNote "note.proto").rename declaringName ∧
      ∃ text text', emit (compiledNote "note.proto") {} = .ok text ∧
        emit (compiledNote declaringName) {} = .ok text' ∧ codeLines text ≠ codeLines text' := by
  have hok : emit (compiledNote "note.proto") {} =
      .ok (Source.document [Module.header "note.proto"]) := rfl
  refine ⟨rfl, rfl, rfl, ?_⟩
  rcases emit_rename_cases (compiledNote "note.proto") {} with ⟨e, he⟩ | ⟨lines, hlines⟩
  · cases hok.symm.trans (he "note.proto")
  · obtain ⟨text, htext, hcode⟩ := hlines "note.proto"
    obtain ⟨text', htext', hcode'⟩ := hlines declaringName
    have hadded : addedLines "note.proto" ≠ addedLines declaringName := by decide +kernel
    refine ⟨text, text', htext, htext', ?_⟩
    rwa [hcode, hcode', ne_eq, List.append_cancel_right_eq]

end Marshal
