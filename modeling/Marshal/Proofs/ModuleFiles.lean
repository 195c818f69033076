import Marshal.Command.Run
import Marshal.Proofs.Identifiers

/-!
# Where generated modules are written

A schema may have any name, and the file of its module is named after it if it has no package.
The path of the file is nevertheless one below the directory that it is put in
(`moduleFile_confined`):

* its components are made of small letters, digits and underscores, since everything else is
  replaced and letters are put in lower case: `pathChar_of_mem_modulePath`;
* so they are told apart by its slashes (`words_moduleFile`), and none of them is empty or leads
  anywhere else;
* what is written to such a path in a directory is put below it: `put_of_write`.
-/

namespace Marshal

namespace Text

/-- A small letter, a digit or an underscore. -/
def PathChar (c : Char) : Prop := ('a' ≤ c ∧ c ≤ 'z') ∨ Digit c ∨ c = '_'

instance : DecidablePred PathChar := fun _ => inferInstanceAs (Decidable (_ ∨ _ ∨ _))

/-- What may go on an identifier is one of these in lower case. -/
theorem pathChar_toLower {c : Char} (h : isIdentRest c = true) : PathChar c.toLower := by
  rcases isIdentRest_iff.1 (isIdentRest_toLower h) with (hupper | hlower | hunderscore) | hdigit
  · have hcapital : c.toLower.isUpper = true := decide_eq_true hupper
    rw [isUpper_toLower] at hcapital
    cases hcapital
  · exact .inl hlower
  · exact .inr (.inr hunderscore)
  · exact .inr (.inl hdigit)

/-- Texts without slashes are found again between the slashes that they are joined with. -/
theorem words_joinWith {parts : List String} (hne : parts ≠ [])
    (hparts : ∀ part ∈ parts, '/' ∉ part.toList) : words '/' (joinWith "/" parts) = parts := by
  rw [words, joinWith, String.toList_intercalate]
  change (List.splitOn '/' (List.intercalate ['/'] _)).map String.ofList = parts
  rw [List.splitOn_intercalate _ (by simpa using hparts) (by simpa using hne)]
  simp

/-- What is added at the end is added to the last part. -/
theorem joinWith_append_last (sep : String) (init : List String) (last tail : String) :
    joinWith sep (init ++ [last]) ++ tail = joinWith sep (init ++ [last ++ tail]) := by
  by_cases hinit : init = []
  · simp [hinit, joinWith]
  · rw [joinWith, joinWith, String.intercalate_append_of_ne_nil hinit (List.cons_ne_nil _ _),
      String.intercalate_append_of_ne_nil hinit (List.cons_ne_nil _ _),
      String.intercalate_singleton, String.intercalate_singleton, String.append_assoc,
      String.append_assoc]

end Text

/-! ## Paths of modules -/

namespace Code

open Text

/-- Names of fields and modules are in lower case throughout. -/
theorem pathChar_of_mem_fieldIdent {s : List Char} (hs : ∀ c ∈ s, isIdentRest c = true) :
    ∀ d ∈ (fieldIdent (String.ofList s)).toList, PathChar d := by
  have hsnake : ∀ d ∈ snakeCase s, PathChar d := by
    intro d hd
    rcases mem_snakeAfter hd with rfl | ⟨c, hc, rfl⟩
    · decide
    · exact pathChar_toLower (hs c hc)
  have hunderscore : PathChar '_' := by decide
  rw [fieldIdent, escapeKeyword]
  split
  · simpa [or_imp, forall_and, hunderscore] using hsnake
  · simpa using hsnake

theorem fieldIdent_ne_empty {s : List Char} (hs : s ≠ []) : fieldIdent (String.ofList s) ≠ "" := by
  have hsnake : snakeCase s ≠ [] := fun h => hs (snakeAfter_eq_nil_iff.1 h)
  rw [fieldIdent, escapeKeyword, ← String.toList_inj.ne]
  split
  · simp
  · simpa using hsnake

end Code

namespace CompiledSchema

open Code Text

variable {c : CompiledSchema}

/-- The words of a package that is made of identifiers. -/
theorem isIdentifier_of_dotted {package : String} (h : Dotted package) :
    ∀ word ∈ package.toList.splitOn '.', isIdentifier word = true :=
  List.all_eq_true.1 (isDotted_iff.2 h)

theorem isIdentRest_of_mem_underscored (s : List Char) :
    ∀ c ∈ underscored s, isIdentRest c = true := by
  intro c hc
  obtain ⟨d, -, rfl⟩ := List.mem_map.1 hc
  split
  · exact isIdentRest_of_isAlphanum ‹_›
  · rfl

theorem modulePath_ne_nil (c : CompiledSchema) : c.modulePath ≠ [] := by
  rw [modulePath]
  split
  · simp [words, List.splitOn_ne_nil]
  · simp

/-- The components of the path of a module are in lower case throughout. -/
theorem pathChar_of_mem_modulePath (hc : ∀ package ∈ c.package, Dotted package) :
    ∀ part ∈ c.modulePath, ∀ d ∈ part.toList, PathChar d := by
  intro part hpart
  rw [modulePath] at hpart
  split at hpart
  · rename_i package hpackage
    obtain ⟨word, hword, rfl⟩ := List.mem_map.1 hpart
    obtain ⟨chars, hchars, rfl⟩ := List.mem_map.1 hword
    have hident := isIdentifier_of_dotted (hc package hpackage) chars hchars
    exact pathChar_of_mem_fieldIdent fun d hd =>
      isIdentRest_of_identifier (identifier_ofList_iff.2 hident) d (by simpa using hd)
  · rw [List.mem_singleton.1 hpart]
    exact pathChar_of_mem_fieldIdent (isIdentRest_of_mem_underscored _)

/-- If there is a package, the components are not empty. -/
theorem ne_empty_of_mem_modulePath {package : String} (hpackage : c.package = some package)
    (hdotted : Dotted package) : ∀ part ∈ c.modulePath, part ≠ "" := by
  intro part hpart
  rw [modulePath, hpackage] at hpart
  obtain ⟨word, hword, rfl⟩ := List.mem_map.1 hpart
  obtain ⟨chars, hchars, rfl⟩ := List.mem_map.1 hword
  refine fieldIdent_ne_empty ?_
  rintro rfl
  cases isIdentifier_of_dotted hdotted _ hchars

/-- The components of the path of a module's file: those of the module, with the ending at the
    last of them. -/
theorem words_moduleFile (hc : ∀ package ∈ c.package, Dotted package) :
    ∃ init last, c.modulePath = init ++ [last] ∧
      words '/' c.moduleFile = init ++ [last ++ ".rs"] := by
  obtain ⟨init, last, hpath⟩ := (List.eq_nil_or_concat' c.modulePath).resolve_left
    c.modulePath_ne_nil
  have hslash : ∀ part ∈ c.modulePath, '/' ∉ part.toList := fun part hpart hd =>
    absurd (pathChar_of_mem_modulePath hc part hpart '/' hd) (by decide)
  rw [hpath] at hslash
  refine ⟨init, last, hpath, ?_⟩
  rw [moduleFile, hpath, joinWith_append_last]
  refine words_joinWith (by simp) ?_
  simpa [or_imp, forall_and] using hslash

/-- If there are several components, there is a package, and they are not empty. -/
theorem ne_empty_of_mem_init (hc : ∀ package ∈ c.package, Dotted package) {init : List String}
    {last : String} (hpath : c.modulePath = init ++ [last]) : ∀ part ∈ init, part ≠ "" := by
  cases hpackage : c.package with
  | none =>
    have hlength : c.modulePath.length = 1 := by
      rw [modulePath, hpackage]
      rfl
    rw [hpath, List.length_append, List.length_singleton, Nat.add_eq_right] at hlength
    rw [List.length_eq_zero_iff.1 hlength]
    exact fun part hpart => absurd hpart List.not_mem_nil
  | some package =>
    have hne := ne_empty_of_mem_modulePath hpackage (hc package hpackage)
    rw [hpath] at hne
    exact fun part hpart => hne part (List.mem_append_left _ hpart)

/-- No component of the path is empty, or stands for a directory that it does not name. -/
theorem name_of_mem_words_moduleFile (hc : ∀ package ∈ c.package, Dotted package) :
    ∀ part ∈ words '/' c.moduleFile, part ∉ ["", ".", ".."] := by
  obtain ⟨init, last, hpath, hwords⟩ := words_moduleFile hc
  rw [hwords, List.forall_mem_append, List.forall_mem_singleton]
  constructor
  · intro part hpart
    have hmem : part ∈ c.modulePath := hpath ▸ List.mem_append_left _ hpart
    have hdot : '.' ∉ part.toList := fun hd =>
      absurd (pathChar_of_mem_modulePath hc part hmem '.' hd) (by decide)
    have hempty := ne_empty_of_mem_init hc hpath part hpart
    rw [List.mem_cons, List.mem_pair]
    rintro (rfl | rfl | rfl)
    · exact hempty rfl
    · exact hdot (by decide)
    · exact hdot (by decide)
  · -- The last one is too long for that.
    have hshort : ∀ part ∈ ["", ".", ".."], part.toList.length ≤ 2 := by decide
    intro hmem
    have hlength := hshort _ hmem
    simp at hlength

end CompiledSchema

/-! ## Files in a directory -/

namespace Directory

open Text

/-- Where one part of a path leads to. -/
def enter (enters : Location → Bool) (l : Location) (part : String) : Option Location :=
  if !enters l then none
  else if part = "" || part = "." then some l
  else if part = ".." then if l = [] then none else some l.dropLast
  else some (l ++ [part])

variable {enters : Location → Bool} {l l' : Location} {part : String} {parts : List String}

/-- Paths are followed part by part. -/
theorem follow_cons (enters : Location → Bool) (l : Location) (part : String)
    (parts : List String) :
    follow enters l (part :: parts) = (enter enters l part).bind (follow enters · parts) := by
  rw [follow, enter]
  split_ifs <;> rfl

theorem follow_append (enters : Location → Bool) (l : Location) (before after : List String) :
    follow enters l (before ++ after) =
      (follow enters l before).bind (follow enters · after) := by
  induction before generalizing l with
  | nil => rfl
  | cons part before ih =>
    simp only [List.cons_append, follow_cons, ih, Option.bind_assoc]

/-- A name leads downwards. -/
theorem enter_name (hpart : part ∉ ["", ".", ".."]) (h : enter enters l part = some l') :
    l' = l ++ [part] := by
  simp only [List.mem_cons, List.not_mem_nil, or_false, not_or] at hpart
  simp only [enter, hpart.1, hpart.2.1, hpart.2.2, decide_false, Bool.or_self, Bool.false_eq_true,
    ↓reduceIte] at h
  split at h
  · cases h
  · exact (Option.some.inj h).symm

/-- Names lead downwards. -/
theorem follow_names (hparts : ∀ part ∈ parts, part ∉ ["", ".", ".."])
    (h : follow enters l parts = some l') : l' = l ++ parts := by
  induction parts generalizing l with
  | nil =>
    cases h
    rw [List.append_nil]
  | cons part parts ih =>
    obtain ⟨hpart, hparts⟩ := List.forall_mem_cons.1 hparts
    obtain ⟨l₁, hl₁, h⟩ := Option.bind_eq_some_iff.1 (follow_cons .. ▸ h)
    rw [ih hparts h, enter_name hpart hl₁, List.append_assoc, List.singleton_append]

/-- A part that leads somewhere leads there also if everything can be entered. -/
theorem enter_of_enter (h : enter enters l part = some l') :
    enter (fun _ => true) l part = some l' := by
  rw [enter] at h
  split at h
  · cases h
  · exact h

theorem follow_of_follow (h : follow enters l parts = some l') :
    follow (fun _ => true) l parts = some l' := by
  induction parts generalizing l with
  | nil => exact h
  | cons part parts ih =>
    obtain ⟨l₁, hl₁, h⟩ := Option.bind_eq_some_iff.1 (follow_cons .. ▸ h)
    rw [follow_cons, enter_of_enter hl₁]
    exact ih h

theorem parts?_eq_some {path : String} (h : parts? path = some parts) : parts = words '/' path := by
  rw [parts?] at h
  split at h
  · cases h
  · split at h
    · exact (Option.some.inj h).symm
    · cases h

/-- What is written to a path goes to the name at its end, where the parts before it lead. -/
theorem of_write? {d d' : Directory} {path text name : String} {init : List String}
    (hpath : words '/' path = init ++ [name]) (h : d.write? path text = some d') :
    ∃ parent, follow (fun _ => true) [] init = some parent ∧
      d' = d.put (parent ++ [name]) text := by
  obtain ⟨parts, hparts, h⟩ := Option.bind_eq_some_iff.1 h
  obtain ⟨name', hname, h⟩ := Option.bind_eq_some_iff.1 h
  rw [parts?_eq_some hparts, hpath] at hname h
  rw [List.getLast?_concat] at hname
  cases Option.some.inj hname
  split at h
  · cases h
  · rw [List.dropLast_concat] at h
    obtain ⟨parent, hparent, h⟩ := Option.bind_eq_some_iff.1 h
    split at h
    · cases h
    · exact ⟨parent, follow_of_follow hparent, (Option.some.inj h).symm⟩

end Directory

namespace Command

open Text Directory

/-- The parts of the path of a file in a directory: those that lead to the directory, and those of
    the file. -/
theorem words_pathIn (directory file : String) :
    ∃ parts, words '/' (pathIn directory file) = parts ++ words '/' file ∧
      ∀ l, follow (fun _ => true) l (words '/' directory) = follow (fun _ => true) l parts := by
  rw [pathIn]
  split
  · -- A slash at the end is not doubled. It leads nowhere else.
    rename_i hslash
    obtain ⟨chars, hchars⟩ := List.getLast?_eq_some_iff.1 hslash
    have hdirectory : directory = String.ofList chars ++ "/" := by
      rw [← String.toList_inj, hchars]
      simp
    refine ⟨words '/' (String.ofList chars), ?_, fun l => ?_⟩
    · rw [hdirectory]
      exact words_append '/' _ file
    · have hwords : words '/' directory = words '/' (String.ofList chars) ++ [""] := by
        rw [hdirectory, ← String.append_empty (s := String.ofList chars ++ "/")]
        exact words_append '/' _ ""
      rw [hwords, follow_append]
      exact Option.bind_fun_some _
  · exact ⟨words '/' directory, words_append '/' directory file, fun _ => rfl⟩

/-- A file whose path is made of names is written below the directory that it is put in. -/
theorem put_of_write {file : String} (hfile : ∀ part ∈ words '/' file, part ∉ ["", ".", ".."])
    {d d' : Directory} {directory text : String}
    (h : d.write? (pathIn directory file) text = some d') :
    ∃ l, follow (fun _ => true) [] (words '/' directory) = some l ∧
      d' = d.put (l ++ words '/' file) text := by
  obtain ⟨parts, hwords, hdirectory⟩ := words_pathIn directory file
  have hne : words '/' file ≠ [] := by simp [words, List.splitOn_ne_nil]
  obtain ⟨init, name, hname⟩ := (List.eq_nil_or_concat' (words '/' file)).resolve_left hne
  rw [hname, ← List.append_assoc] at hwords
  obtain ⟨parent, hparent, rfl⟩ := of_write? hwords h
  rw [follow_append] at hparent
  obtain ⟨l, hl, hparent⟩ := Option.bind_eq_some_iff.1 hparent
  have hinit : ∀ part ∈ init, part ∉ ["", ".", ".."] := fun part hpart =>
    hfile part (hname ▸ List.mem_append_left _ hpart)
  refine ⟨l, (hdirectory []).trans hl, ?_⟩
  rw [follow_names hinit hparent, hname, List.append_assoc]

end Command

open Text Directory Command

/-- The file of the module of a compiled schema has a relative path, whose components are made of
    small letters, digits and underscores, with the ending at the last of them. If the schema has a
    package, they are not empty. No component leads elsewhere than to what it names, so that in
    whatever directory the file is written, it is below it. -/
theorem moduleFile_confined {schema : Schema} {t : ImportTable} {c : CompiledSchema}
    (h : schema.compile t = .ok c) :
    ∃ components, components ≠ [] ∧ c.moduleFile = "/".intercalate components ++ ".rs" ∧
      (∀ part ∈ components, ∀ d ∈ part.toList, PathChar d) ∧
      (c.package.isSome → ∀ part ∈ components, part ≠ "") ∧
      c.moduleFile.toList.head? ≠ some '/' ∧
      "." ∉ words '/' c.moduleFile ∧ ".." ∉ words '/' c.moduleFile ∧
      ∀ (d d' : Directory) (directory text : String),
        d.write? (pathIn directory c.moduleFile) text = some d' →
        ∃ l, follow (fun _ => true) [] (words '/' directory) = some l ∧
          d' = d.put (l ++ words '/' c.moduleFile) text := by
  have hdotted : ∀ package ∈ c.package, Dotted package := by
    rw [(Schema.header_of_compile h).2.1]
    exact Schema.checkPackage_eq_ok_iff.1 (Schema.verify_eq_ok_iff.1 (Schema.compile_eq_ok h).1).1
  have hnames := CompiledSchema.name_of_mem_words_moduleFile hdotted
  refine ⟨c.modulePath, c.modulePath_ne_nil, rfl,
    CompiledSchema.pathChar_of_mem_modulePath hdotted, fun hpackage => ?_, fun hslash => ?_,
    fun hdot => hnames _ hdot (by decide), fun hdots => hnames _ hdots (by decide),
    fun d d' directory text hwrite => put_of_write hnames hwrite⟩
  · obtain ⟨package, hpackage⟩ := Option.isSome_iff_exists.1 hpackage
    exact CompiledSchema.ne_empty_of_mem_modulePath hpackage (hdotted package hpackage)
  · -- In front of a slash at the start there would be an empty component.
    obtain ⟨rest, hrest⟩ := List.head?_eq_some_iff.1 hslash
    have hempty : "" ∈ words '/' c.moduleFile := by
      rw [words, hrest, List.splitOn_cons_eq_if_modifyHead, if_pos (beq_self_eq_true _)]
      exact List.mem_cons_self
    exact hnames _ hempty (by decide)

namespace Sample

/-- A schema whose name leads out of the directory. -/
def attic : Schema where
  name := "../../etc/Self\\.."

def compiledAttic : CompiledSchema where
  name := "../../etc/Self\\.."
  package := none
  imports := []
  enums := []
  messages := []
  mappings := []
  services := []
  order := ⟨[], []⟩

end Sample

open Sample

theorem moduleFile_confined_attic :
    attic.compile .empty = .ok compiledAttic ∧ compiledAttic.moduleFile = "self_.rs" ∧
      ".." ∉ words '/' compiledAttic.moduleFile ∧
      ∀ (d d' : Directory) (text : String), d.write? (pathIn "out" "self_.rs") text = some d' →
        d' = d.put ["out", "self_.rs"] text := by
  have hcompile : attic.compile .empty = .ok compiledAttic := rfl
  have hfile : compiledAttic.moduleFile = "self_.rs" := by decide +kernel
  obtain ⟨_, _, _, _, _, _, _, hdots, hwrite⟩ := moduleFile_confined hcompile
  refine ⟨hcompile, hfile, hdots, fun d d' text h => ?_⟩
  rw [hfile] at hwrite
  obtain ⟨l, hl, rfl⟩ := hwrite d d' "out" text h
  have hwords : words '/' "self_.rs" = ["self_.rs"] := by decide +kernel
  have hdirectory : follow (fun _ => true) [] (words '/' "out") = some ["out"] := by decide +kernel
  cases Option.some.inj (hdirectory.symm.trans hl)
  rw [hwords, List.singleton_append]

end Marshal
