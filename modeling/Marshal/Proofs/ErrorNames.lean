import Marshal.Proofs.Conformance
import Marshal.Proofs.Emission
import Marshal.Proofs.Ordering
import Marshal.Proofs.Printing
import Marshal.Proofs.Wording

/-!
# Names in error messages

A text that is quoted can be read back, and does not run into what stands around it. But not all
messages quote the names that are in them. Some of these are identifiers, since the names of a
schema are verified before anything else is looked at (`Reported.plain`). The names of schemas and
imports are not verified, nor are those of the objects and fields that are to be written. They
stand in messages as they are.

* `Reported`: the errors of all operations on schemas and values;
* `quoting_lossless`: a text is read back from its literal, and two errors that are reported have
  the same message with different names in it if and only if they are confused (`Confused`);
* `not_told_imports`: there are schemas for which such errors are reported.
-/

namespace Marshal

open Text

/-! ## Errors of compilation -/

/-- The errors for names that cannot be resolved have only the names of the member in plain. -/
theorem Scope.NameFault.plain {c : Scope} {owner member name : String} {e : CompileError}
    (h : c.NameFault owner member name e) (hmember : Identifier owner ∧ Identifier member) :
    (Report.compile e).Plain := by
  cases h with
  | unresolved => exact .unresolvedType name hmember
  | ambiguous => exact .inconsistent _ hmember

namespace Schema

variable {s : Schema} {t : ImportTable}

/-- The names of a message that passes, and of its fields, are identifiers. -/
theorem identifiers_of_field (h : s.verify t = .ok ()) {m : Message} (hm : m ∈ s.messages)
    {f : Field} (hf : f ∈ m.fields) : Identifier m.name ∧ Identifier f.name := by
  constructor
  · refine (names_of_verify h).identifiers _ (List.mem_append_right _ ?_)
    exact List.mem_map_of_mem hm
  · exact (wellFormed_of_verify h hm).names.identifiers _ (List.mem_map_of_mem hf)

/-- The names of a service that passes, and of its methods, are identifiers. -/
theorem identifiers_of_method (h : s.verify t = .ok ()) {service : Service}
    (hservice : service ∈ s.services) {method : Method} (hmethod : method ∈ service.methods) :
    Identifier service.name ∧ Identifier method.name := by
  obtain ⟨hservices, hmethods⟩ := checkServices_eq_ok_iff.1 (verify_eq_ok_iff.1 h).2.2.2.2.2
  exact ⟨hservices.identifiers _ (List.mem_map_of_mem hservice),
    (hmethods service hservice).identifiers _ (List.mem_map_of_mem hmethod)⟩

/-- The names of messages that hold others by value are identifiers. -/
theorem identifiers_of_holdsBy (h : s.verify t = .ok ()) {i j : Nat} {field : String}
    (hholds : s.HoldsBy t i field j) : Identifier (s.messageName i) ∧ Identifier field := by
  obtain ⟨m, hm, f, hf, rfl, -⟩ := hholds
  have hname : s.messageName i = m.name := by rw [messageName, Option.mem_def.1 hm]; rfl
  rw [hname]
  exact identifiers_of_field h (List.mem_of_getElem? hm) hf

/-- The path by which a message holds itself goes through messages of the schema. -/
theorem plain_of_walk (h : s.verify t = .ok ()) {i : Nat} {field : String}
    {path : List (Nat × String)}
    (hwalk : Graph.Walk (s.HoldsBy t) i ((i, field) :: path) i) :
    (Report.compile (.valueRecursion (s.messageName i) field
      (s.messageName i :: path.map (s.messageName ·.1) ++ [s.messageName i]))).Plain := by
  -- Every message on the cycle holds the next one, so it has a field.
  have hnames : ∀ j ∈ Graph.nodes ((i, field) :: path), Identifier (s.messageName j) := by
    intro j hj
    obtain ⟨label, k, hholds⟩ := hwalk.exists_edge j hj
    exact (identifiers_of_holdsBy h hholds).1
  have hfirst := hnames i List.mem_cons_self
  cases hwalk with
  | cons hholds _ =>
    refine .valueRecursion hfirst (identifiers_of_holdsBy h hholds).2 fun name hname => ?_
    rcases List.mem_append.1 hname with hname | hname
    · rcases List.mem_cons.1 hname with rfl | hname
      · exact hfirst
      · obtain ⟨step, hstep, rfl⟩ := List.mem_map.1 hname
        exact hnames _ (List.mem_cons_of_mem _ (List.mem_map_of_mem hstep))
    · rwa [List.mem_singleton.1 hname]

/-- Members are looked at when all names are known to be identifiers. -/
theorem plain_of_compile {e : CompileError} (h : s.compile t = .error e) :
    (Report.compile e).Plain := by
  -- The names of a schema that does not pass need not be identifiers, but then no error is about a
  -- member.
  cases hverify : s.verify t with
  | error e' =>
    have he : e' = e := by
      rw [compile, hverify] at h
      exact Except.error.inj h
    rcases error_of_verify hverify with ⟨place, fault, rfl, hmember⟩ | ⟨name, -, -, rfl⟩
    · exact he ▸ .inconsistent fault (place.plain_of_isMember hmember)
    · exact he ▸ .unresolvedImport s.name name
  | ok =>
    cases faulty_of_compile h with
    | unpublished => exact .unresolvedImport _ _
    | inconsistent herror => cases hverify.symm.trans herror
    | field hm hf hfault =>
      have hmember := identifiers_of_field hverify hm hf
      cases hfault with
      | name _ hname => exact hname.plain hmember
      | container => exact .inconsistent _ hmember
      | key => exact .mapKey _ hmember
    | method hservice hmethod hfault =>
      have hmember := identifiers_of_method hverify hservice hmethod
      cases hfault with
      | name _ hname => exact hname.plain hmember
      | notMessage => exact .inconsistent _ hmember
    | recursion hwalk => exact plain_of_walk hverify hwalk

end Schema

/-- The imports of several schemas together have no members. -/
theorem plain_of_orderSchemas {batch : List Schema} {t : ImportTable} {e : CompileError}
    (h : orderSchemas batch t = .error e) : (Report.compile e).Plain := by
  have hordered := ordered_orderSchemas batch t
  rw [h] at hordered
  cases hordered with
  | repeated | cycle => exact .inconsistent _ trivial
  | missing => exact .unresolvedImport _ _

theorem ImportTable.plain_of_publish {t : ImportTable} {c : CompiledSchema} {e : CompileError}
    (h : t.publish c = .error e) : (Report.compile e).Plain := by
  rw [publish] at h
  split at h
  · cases h
    exact .inconsistent _ trivial
  · cases h

/-! ## Errors of code generation -/

namespace Code

/-- The names of declarations are identifiers when code is generated for them. -/
theorem plain_of_emit {c : CompiledSchema} (hc : c.IsCompiled) {o : Options} {e : EmitError}
    (h : emit c o = .error e) : (Report.emit e).Plain := by
  obtain ⟨t, schema, -, hcompile⟩ := hc
  have hnames := (Schema.identifiers_of_compile hcompile).1
  simp only [CompiledSchema.namesOfTypes, List.forall_mem_append, List.forall_mem_map] at hnames
  obtain ⟨⟨⟨henums, -⟩, hmessages⟩, hservices⟩ := hnames
  obtain ⟨scope, hscope, entry, ⟨before, after, hentries, -⟩, rfl⟩ :=
    retakes_of_takeItems_error ((emit_eq_error (Schema.complete_of_compile hcompile)).1 h)
  refine .nameTaken _ _ ?_
  have hentry : entry ∈ scope.entries := hentries ▸ List.mem_append_right _ List.mem_cons_self
  rcases List.mem_cons.1 hscope with rfl | hscope
  · -- In the scope of the module nothing is named by its owner.
    obtain ⟨i, hi, rfl⟩ := List.mem_map.1 hentry
    rcases CompiledSchema.mem_items.1 hi with
      ⟨p, -, rfl⟩ | ⟨p, -, rfl⟩ | ⟨p, -, rfl⟩ | ⟨p, -, rfl⟩ <;> trivial
  · obtain ⟨i, hi, rfl⟩ := List.mem_map.1 hscope
    rcases CompiledSchema.mem_items.1 hi with
      ⟨p, hp, rfl⟩ | ⟨p, hp, rfl⟩ | ⟨p, hp, rfl⟩ | ⟨p, -, rfl⟩
    · obtain ⟨v, -, rfl⟩ := List.mem_map.1 hentry
      exact henums p hp
    · obtain ⟨step, -, rfl⟩ := List.mem_map.1 hentry
      exact hmessages p hp
    · obtain ⟨m, -, rfl⟩ := List.mem_map.1 hentry
      exact hservices p hp
    · exact absurd hentry List.not_mem_nil

end Code

/-! ## Errors of writing and reading -/

namespace Value

variable {s : CompiledSchema} {e : Error}

/-- Mismatches name fields of messages in plain, and what they found after that. -/
theorem Mismatched.plain (h : Mismatched e) : (Report.value e).Plain := by
  cases h with
  | value k hfield hword => exact .mismatch (.value k hfield hword)
  | object name hfield hmessage => exact .mismatch (.object name hfield hmessage)
  | unknown field hmessage => exact .mismatch (.unknown field hmessage)

/-- Errors of writing are plain. -/
theorem plain_of_encode (hs : s.IsCompiled) {v : Value} {id : MessageId}
    (h : v.encode s id = .error e) : (Report.value e).Plain := by
  cases hid : s.messagePlan? id with
  | none =>
    rw [encode, CompiledSchema.find, hid] at h
    cases h
    exact .unknownId id
  | some found =>
    have hid := Option.isSome_of_eq_some hid
    rcases decides_encode hs hid v with ⟨-, b, hb⟩ | ⟨-, e', he', herror⟩
    · cases hb.symm.trans h
    · cases herror.symm.trans h
      exact he'.plain

theorem plain_of_encodeNamed (hs : s.IsCompiled) {v : Value} (h : v.encodeNamed s = .error e) :
    (Report.value e).Plain := by
  cases v with
  | object name fields =>
    rw [encodeNamed] at h
    split at h
    · exact plain_of_encode hs h
    · cases h
      exact .unknownName name
  | _ =>
    cases h
    exact .mismatch (.value _ (.inl rfl) trivial)

/-- Errors of reading are plain: they are those of the wire, or there is no such message. -/
theorem plain_of_decode (hs : s.IsCompiled) {id : MessageId} {b : Wire.Bytes}
    (h : decode s id b = .error e) : (Report.value e).Plain := by
  cases hid : s.messagePlan? id with
  | none =>
    rw [decode, CompiledSchema.find, hid] at h
    cases h
    exact .unknownId id
  | some found =>
    rcases decode_conforms hs.wellFormed (Option.isSome_of_eq_some hid) b with
      ⟨e', he'⟩ | ⟨v, hv, -⟩
    · cases he'.symm.trans h
      exact .wire e'
    · cases hv.symm.trans h

theorem plain_of_decodeNamed (hs : s.IsCompiled) {name : String} {b : Wire.Bytes}
    (h : decodeNamed s name b = .error e) : (Report.value e).Plain := by
  rw [decodeNamed] at h
  split at h
  · exact plain_of_decode hs h
  · cases h
    exact .unknownName name

end Value

/-! ## All errors -/

/-- The errors that are reported by compiling a schema, by ordering or publishing schemas, and,
    for a schema that was compiled, by generating code and by writing and reading values. -/
inductive Reported : Report → Prop
  | compile {s : Schema} {t : ImportTable} {e : CompileError} :
    s.compile t = .error e → Reported (.compile e)
  | order {batch : List Schema} {t : ImportTable} {e : CompileError} :
    orderSchemas batch t = .error e → Reported (.compile e)
  | publish {t : ImportTable} {c : CompiledSchema} {e : CompileError} :
    t.publish c = .error e → Reported (.compile e)
  | emit {c : CompiledSchema} {o : Code.Options} {e : Code.EmitError} :
    c.IsCompiled → Code.emit c o = .error e → Reported (.emit e)
  | encode {c : CompiledSchema} {v : Value} {id : MessageId} {e : Value.Error} :
    c.IsCompiled → v.encode c id = .error e → Reported (.value e)
  | encodeNamed {c : CompiledSchema} {v : Value} {e : Value.Error} :
    c.IsCompiled → v.encodeNamed c = .error e → Reported (.value e)
  | decode {c : CompiledSchema} {id : MessageId} {b : Wire.Bytes} {e : Value.Error} :
    c.IsCompiled → Value.decode c id b = .error e → Reported (.value e)
  | decodeNamed {c : CompiledSchema} {name : String} {b : Wire.Bytes} {e : Value.Error} :
    c.IsCompiled → Value.decodeNamed c name b = .error e → Reported (.value e)

/-- What stands without quotes in the message of a reported error is an identifier, but for names
    that are not verified. -/
theorem Reported.plain {e : Report} (h : Reported e) : e.Plain := by
  cases h with
  | compile h => exact Schema.plain_of_compile h
  | order h => exact plain_of_orderSchemas h
  | publish h => exact ImportTable.plain_of_publish h
  | emit hc h => exact Code.plain_of_emit hc h
  | encode hc h => exact Value.plain_of_encode hc h
  | encodeNamed hc h => exact Value.plain_of_encodeNamed hc h
  | decode hc h => exact Value.plain_of_decode hc h
  | decodeNamed hc h => exact Value.plain_of_decodeNamed hc h

/-- Two errors that are reported have the same message and other names if and only if they are
    confused. -/
theorem Reported.alike_iff {e e' : Report} (h : Reported e) (h' : Reported e') :
    e.message = e'.message ∧ e.names ≠ e'.names ↔ Confused e e' ∨ Confused e' e := by
  constructor
  · rintro ⟨hmessage, hnames⟩
    exact (h.plain.names_eq_or_confused h'.plain hmessage).resolve_left hnames
  · rintro (hconfused | hconfused)
    · exact ⟨hconfused.message_eq, hconfused.names_ne⟩
    · exact ⟨hconfused.message_eq.symm, hconfused.names_ne.symm⟩

theorem parse?_quote (text : String) : Json.parse? (quote text) = some (.string text) := by
  have hcompact : (Json.string text).compact = quote text := rfl
  rw [← hcompact]
  exact Json.parse?_compact (.string text)

/-- Quoting a text loses nothing, and what is quoted can be told from what stands around it:

    * a literal is between two quotes, with no control character and no other quote in it, but
      for those that are escaped;
    * the literal is the JSON string for the text, so that no other text has the same one;
    * where two texts agree up to a literal, and are equal, they have the same literal there.

    But messages do not quote all of their names. Two errors that are reported can have the same
    message with different texts in its gaps. This happens if and only if they are confused: the
    words between two names that stand as they are occur in one of the names as well. -/
theorem quoting_lossless (text : String) :
    (∃ body, (quote text).toList = '"' :: (body ++ ['"']) ∧ Quoted.IsBody body) ∧
      Json.parse? (quote text) = some (.string text) ∧
      (∀ other, quote other = quote text → other = text) ∧
      (∀ before other x y, before ++ quote text ++ x = before ++ quote other ++ y →
        text = other ∧ x = y) ∧
      ∀ e e', Reported e → Reported e' →
        (e.message = e'.message ∧ e.names ≠ e'.names ↔ Confused e e' ∨ Confused e' e) := by
  refine ⟨?_, parse?_quote text, fun other hquote => ?_,
    fun _ _ _ _ => append_quote_append_inj, fun _ _ h h' => h.alike_iff h'⟩
  · exact ⟨_, String.toList_ofList, Quoted.isBody_flatMap_escape text.toList⟩
  · have hstrings := parse?_quote other
    rw [hquote, parse?_quote, Option.some.injEq, Json.string.injEq] at hstrings
    exact hstrings.symm

namespace Sample

/-- A name of an object that goes on like a message about a field. -/
def barbedName : String :=
  "Leaf" ++ "\" expects a field of " ++ "Node" ++ " but got unknown field"

/-- A name of a field that goes on like a message about an object. -/
def barbedField : String := "children" ++ "\" expects " ++ "Node" ++ " but got " ++ "Leaf"

/-- A schema with an import that has a quote in its name. -/
def quotedImport : Schema where
  name := "x"
  imports := ["y\" imports \"z"]

/-- A schema that has a quote in its name. -/
def quotedName : Schema where
  name := "x\" imports \"y"
  imports := ["z"]

end Sample

open Sample

/-- Two objects that are not written have errors with the same message. One of them holds an
    object of another message, and the other one has a field that its message does not have. -/
theorem quoting_lossless_barbed :
    ∃ e e', (Value.object "Node" [("children", .array [.object barbedName []])]).encode
        (compiledTree nodeFields) ⟨.own, 0⟩ = .error e ∧
      (Value.object "Node" [(barbedField, .u32 0)]).encode
        (compiledTree nodeFields) ⟨.own, 0⟩ = .error e' ∧
      e.message = e'.message ∧ e.names ≠ e'.names := by
  have hs : (compiledTree nodeFields).IsCompiled := ⟨.empty, tree nodeFields, .empty, rfl⟩
  have hobject : (Value.object "Node" [("children", .array [.object barbedName []])]).encode
      (compiledTree nodeFields) ⟨.own, 0⟩ =
        .error (.mismatch "children" (.message "Node") (.message barbedName)) := rfl
  have hfield : (Value.object "Node" [(barbedField, .u32 0)]).encode
      (compiledTree nodeFields) ⟨.own, 0⟩ =
        .error (.mismatch barbedField (.fieldOf "Node") .unknownField) := rfl
  have halike :=
    (quoting_lossless barbedName).2.2.2.2 _ _ (.encode hs hobject) (.encode hs hfield)
  exact ⟨_, _, hobject, hfield, halike.2 (.inl (.fields "children" "Node" "Leaf" "Node"))⟩

/-- Two schemas with imports that are not published are reported by the same message, although
    both their names and those of the imports are different. -/
theorem not_told_imports :
    ∃ e e', quotedImport.compile .empty = .error e ∧ quotedName.compile .empty = .error e' ∧
      Reported (.compile e) ∧ Reported (.compile e') ∧ e.message = e'.message ∧
      e.names = ["x", "y\" imports \"z"] ∧ e'.names = ["x\" imports \"y", "z"] ∧
      e.names ≠ e'.names := by
  have hcompile : quotedImport.compile .empty =
      .error (.unresolvedImport "x" "y\" imports \"z") := rfl
  have hcompile' : quotedName.compile .empty =
      .error (.unresolvedImport "x\" imports \"y" "z") := rfl
  exact ⟨_, _, hcompile, hcompile', .compile hcompile, .compile hcompile', by decide, rfl, rfl,
    by decide⟩

end Marshal
