import Marshal.Code.Run
import Marshal.Proofs.Sorting

/-!
# What generated encoders write

The encoder of a message goes through the steps of its plan, and for each of them its
statements write the field of the step. What is written for a field is told by its
shape (`WritesView`), and the statements write just that: `runAll_encodeField`.

A value of generated code *matches* one that was read by a plan if the same bytes are
written for both, once the maps of the other one are sorted (`Matches`, `MatchesField`,
`MatchesObject`). Messages match if their fields do, one after the other:
`MatchFields.object`.
-/

namespace Marshal

open Wire Value CompiledSchema Code

namespace Code

/-! ## Values -/

/-- What is written for a value. -/
def writeView : ValueStep → View → Option Bytes
  | .scalar p, .scalar w => p.write <$> p.ofValue? w
  | .enum _, .symbol n => (fun n => Primitive.ofEnum.write n.toUInt32) <$> n
  | .nested _, .message b => framed <$> b
  | _, _ => none

/-- The method that writes a primitive is told by its name. -/
theorem writeMethod?_writeCall (p : Primitive) : writeMethod? (writeCall p) = some p := by
  cases p <;> rfl

variable {self vars : List (String × View)}

/-- The call for a value writes it, however the operand stands for it. -/
theorem run_writeValue {v : ValueStep} {x : Operand} {view : View} {b : Bytes}
    (hx : x.view self vars = some view) (hb : writeView v view = some b) (access : Access) :
    (writeValue v x access).run self vars = some b := by
  cases v with
  | scalar p =>
    -- Whether the argument is borrowed makes no difference to what it stands for.
    have harg : (scalarArgument p x access).view self vars = some view := by
      unfold scalarArgument
      split <;> exact hx
    rw [writeValue, WriteCall.run, writeMethod?_writeCall, harg]
    cases view with
    | scalar w => exact hb
    | symbol | option | box | vec | map | message => cases hb
  | enum id =>
    rw [writeValue, WriteCall.run, writeMethod?_writeCall, Argument.view, hx]
    cases view with
    | symbol n =>
      cases n with
      | none => cases hb
      | some n => exact hb
    | scalar | option | box | vec | map | message => cases hb
  | nested id =>
    cases access with
    | place | reference =>
      rw [writeValue, WriteCall.run, Argument.view, hx]
      cases view with
      | message bytes => exact hb
      | scalar | symbol | option | box | vec | map => cases hb

/-! ## Fields -/

/-- What is written for an entry of a map. -/
def WritesViewEntry (k v : ValueStep) (e : View × View) (b : Bytes) : Prop :=
  ∃ kb vb, writeView k e.1 = some kb ∧ writeView v e.2 = some vb ∧ b = kb ++ vb

/-- What is written for a field, by its shape. -/
inductive WritesView : Shape → View → Bytes → Prop
  | single {v : ValueStep} {x : View} {b : Bytes} :
    writeView v x = some b → WritesView (.single v) x b
  | absent {v : ValueStep} : WritesView (.optional v) (.option none) (Primitive.bool.write false)
  | present {v : ValueStep} {x y : View} {b : Bytes} :
    x.through (viewMethod v) = some y → writeView v y = some b →
    WritesView (.optional v) (.option (some x)) (Primitive.bool.write true ++ b)
  | repeated {v : ValueStep} {xs : List View} {bs : List Bytes} (e : Extent) :
    List.Forall₂ (fun x b => writeView v x = some b) xs bs →
    WritesView (.repeated v e) (.vec xs) (e.write bs.length bs.flatten)
  | map {k v : ValueStep} {es : List (View × View)} {bs : List Bytes} (e : Extent) :
    List.Forall₂ (WritesViewEntry k v) es bs →
    WritesView (.map k v e) (.map es) (e.write bs.length bs.flatten)

/-- Statements write one after the other. -/
theorem runAll_cons {stmt : WriteStmt} {stmts : List WriteStmt} {b bs : Bytes}
    (hb : stmt.run self vars = some b) (hbs : WriteStmt.runAll self vars stmts = some bs) :
    WriteStmt.runAll self vars (stmt :: stmts) = some (b ++ bs) := by
  rw [WriteStmt.runAll, hb, hbs]
  rfl

theorem runAll_singleton {stmt : WriteStmt} {b : Bytes} (hb : stmt.run self vars = some b) :
    WriteStmt.runAll self vars [stmt] = some b := by
  rw [runAll_cons hb rfl, List.append_nil]

/-- Statements in a row write what both parts do. -/
theorem runAll_append {stmts stmts' : List WriteStmt} {b bs : Bytes}
    (hb : WriteStmt.runAll self vars stmts = some b)
    (hbs : WriteStmt.runAll self vars stmts' = some bs) :
    WriteStmt.runAll self vars (stmts ++ stmts') = some (b ++ bs) := by
  induction stmts generalizing b with
  | nil =>
    cases hb
    exact hbs
  | cons stmt stmts ih =>
    rw [WriteStmt.runAll] at hb
    obtain ⟨b₁, hb₁, hb⟩ := Option.bind_eq_some_iff.1 hb
    obtain ⟨b₂, hb₂, hb⟩ := Option.bind_eq_some_iff.1 hb
    cases hb
    rw [List.append_assoc]
    exact runAll_cons hb₁ (ih hb₂)

/-- Applying a function to each element succeeds if it does for each of them. -/
theorem mapM_eq_some {α β : Type} {f : α → Option β} {l : List α} {l' : List β}
    (h : List.Forall₂ (fun a b => f a = some b) l l') : l.mapM f = some l' := by
  induction h with
  | nil => rfl
  | cons ha _ ih =>
    rw [List.mapM_cons, ha, ih]
    rfl

section Field

variable {field : String}

/-- The loop over a list writes its elements one after the other. -/
theorem run_writeElements {v : ValueStep} {xs : List View} {bs : List Bytes}
    (hself : Ascending.get? field self = some (.vec xs))
    (h : List.Forall₂ (fun x b => writeView v x = some b) xs bs) :
    (writeElements field v).run self vars = some bs.flatten := by
  have hitems : xs.mapM (fun item => WriteStmt.runAll self [("item", item)]
      [.call (writeValue v (.var "item") .reference)]) = some bs := by
    refine mapM_eq_some (h.imp fun x b hb => runAll_singleton ?_)
    exact run_writeValue (x := .var "item") rfl hb .reference
  rw [writeElements, WriteStmt.run, hself]
  exact congrArg (List.flatten <$> ·) hitems

/-- The loop over a map writes its keys and values in turn. -/
theorem run_writeEntries {k v : ValueStep} {es : List (View × View)} {bs : List Bytes}
    (hself : Ascending.get? field self = some (.map es))
    (h : List.Forall₂ (WritesViewEntry k v) es bs) :
    (writeEntries field k v).run self vars = some bs.flatten := by
  have hitems : es.mapM (fun e => WriteStmt.runAll self [("key", e.1), ("value", e.2)]
      [ .call (writeValue k (.var "key") .reference),
        .call (writeValue v (.var "value") .reference) ]) = some bs := by
    refine mapM_eq_some (h.imp ?_)
    rintro e _ ⟨kb, vb, hk, hv, rfl⟩
    exact runAll_cons (run_writeValue (x := .var "key") rfl hk .reference)
      (runAll_singleton (run_writeValue (x := .var "value") rfl hv .reference))
  rw [writeEntries, WriteStmt.run, hself]
  exact congrArg (List.flatten <$> ·) hitems

/-- A loop stands after the number of elements, or in a frame. -/
theorem runAll_writeSequence {loop : WriteStmt} {b : Bytes} {count : Nat}
    (hlength : WriteCall.run self vars (.length field) = some (varint count))
    (hloop : loop.run self vars = some b) (e : Extent) :
    WriteStmt.runAll self vars (writeSequence field loop e) = some (e.write count b) := by
  cases e with
  | elements => exact runAll_cons hlength (runAll_singleton hloop)
  | bytes =>
    refine runAll_singleton ?_
    rw [WriteStmt.run, runAll_singleton hloop]
    rfl

/-- The statements for a step write its field. -/
theorem runAll_encodeField {step : Step} {x : View} {b : Bytes}
    (hself : Ascending.get? (fieldIdent step.field) self = some x)
    (h : WritesView step.shape x b) : WriteStmt.runAll self [] (encodeField step) = some b := by
  rw [encodeField]
  -- One case for each layout. An optional field is seen through its own method.
  generalize step.shape = shape at h
  cases h with
  | single hb => exact runAll_singleton (run_writeValue (x := .field _) hself hb .place)
  | absent =>
    refine runAll_singleton ?_
    rw [WriteStmt.run, hself]
    rfl
  | @present v x y b hy hb =>
    refine runAll_singleton ?_
    rw [WriteStmt.run, hself]
    change (do WriteStmt.runAll self [("value", ← x.through (viewMethod v))] _) = _
    rw [hy]
    have hvalue : WriteStmt.run self [("value", y)]
        (.call (writeValue v (.var "value") .reference)) = some b :=
      run_writeValue (x := .var "value") rfl hb .reference
    have htrue : WriteStmt.run self [("value", y)] (.call (.bool true)) =
        some (Primitive.bool.write true) := rfl
    exact runAll_cons htrue (runAll_singleton hvalue)
  | @repeated v xs bs e hbs =>
    refine runAll_writeSequence ?_ (run_writeElements hself hbs) e
    rw [WriteCall.run, hself, ← hbs.length_eq]
  | @map k v es bs e hbs =>
    refine runAll_writeSequence ?_ (run_writeEntries hself hbs) e
    rw [WriteCall.run, hself, ← hbs.length_eq]

end Field

/-! ## Matching -/

/-- Generated code writes for a datum what is written for a value. -/
def Matches (s : CompiledSchema) (v : ValueStep) (x : Datum) (w : Value) : Prop :=
  ∃ b, writeView v x.view = some b ∧ Writes s v w b

/-- Generated code writes for a datum what is written for a field, which may be absent. -/
def MatchesField (s : CompiledSchema) (step : Step) (x : Datum) (w : Option Value) : Prop :=
  ∃ b, WritesView step.shape x.view b ∧ WritesField s step w b

/-- Generated code writes for a datum what is written for an object of a message. -/
def MatchesObject (s : CompiledSchema) (p : MessagePlan) (x : Datum) (w : Value) : Prop :=
  ∃ b, x.view = .message (some b) ∧ WritesObject s p w b

/-- Data match fields one after the other, and have the names of generated code. -/
inductive MatchFields (s : CompiledSchema) :
    List Step → List (String × Datum) → List (String × Value) → Prop
  | nil : MatchFields s [] [] []
  | cons {step : Step} {steps : List Step} {x : Datum} {w : Option Value}
      {ds : List (String × Datum)} {fields : List (String × Value)} :
    MatchesField s step x w → MatchFields s steps ds fields →
    MatchFields s (step :: steps) ((fieldIdent step.field, x) :: ds) (step.put w fields)

section Match

variable {s : CompiledSchema} {step : Step} {k v : ValueStep}

/-- An optional field that is missing is written as a truth value by both. -/
theorem matches_absent (hshape : step.shape = .optional v) :
    MatchesField s step (.option none) none :=
  ⟨_, by rw [hshape, Datum.view]; exact .absent, writes_absent hshape⟩

/-- An entry of a map of generated code matches one that has been sorted, under the same
    place. -/
def MatchesEntry (s : CompiledSchema) (k v : ValueStep) (e : Int × Datum × Datum)
    (e' : Int × Value × Value) : Prop :=
  e'.1 = e.1 ∧ ∃ b, WritesViewEntry k v (e.2.1.view, e.2.2.view) b ∧ WritesEntry s k v e' b

namespace MatchFields

variable {steps : List Step} {ds : List (String × Datum)} {fields : List (String × Value)}

theorem get?_viewFields (name : String) (ds : List (String × Datum)) :
    Ascending.get? name (Datum.viewFields ds) = (Ascending.get? name ds).map Datum.view := by
  induction ds with
  | nil => rfl
  | cons d ds ih =>
    rw [Datum.viewFields, Ascending.get?, Ascending.get?, ih]
    split <;> rfl

/-- What is written for matching fields is the same. Only the fields of the steps matter
    to what the statements of the steps write. -/
theorem exists_bytes (h : MatchFields s steps ds fields)
    (hsteps : (steps.map (fieldIdent ·.field)).Nodup) {self : List (String × Datum)}
    (hself : ∀ step ∈ steps, Ascending.get? (fieldIdent step.field) self =
      Ascending.get? (fieldIdent step.field) ds) :
    ∃ b, WriteStmt.runAll (Datum.viewFields self) [] (steps.flatMap encodeField) = some b ∧
      WritesFields s steps fields b := by
  induction h with
  | nil => exact ⟨[], rfl, .nil⟩
  | @cons step steps x w ds fields hx hds ih =>
    obtain ⟨b, hb, hw⟩ := hx
    rw [List.map_cons, List.nodup_cons] at hsteps
    -- The field of a step is not that of any other, since the names stay different in code.
    have hother : ∀ other ∈ steps, Ascending.get? (fieldIdent other.field) self =
        Ascending.get? (fieldIdent other.field) ds := by
      intro other hmem
      rw [hself other (List.mem_cons_of_mem _ hmem), Ascending.get?, if_neg]
      exact fun he => hsteps.1 (he ▸ List.mem_map_of_mem hmem)
    obtain ⟨bs, hbs, hws⟩ := ih hsteps.2 hother
    refine ⟨b ++ bs, ?_, .cons hw hws⟩
    rw [List.flatMap_cons]
    refine runAll_append (runAll_encodeField ?_ hb) hbs
    rw [get?_viewFields, hself step List.mem_cons_self, Ascending.get?, if_pos rfl, Option.map_some]

/-- A message matches an object if its fields do. -/
theorem object {p : MessagePlan} {code : StructCode}
    (hcode : code.encoder = p.steps.flatMap encodeField)
    (hidents : (p.steps.map (fieldIdent ·.field)).Nodup) (hp : (p.steps.map (·.field)).Nodup)
    (h : MatchFields s p.steps ds fields) :
    MatchesObject s p (.struct code ds) (.record p.name fields) := by
  obtain ⟨b, hb, hw⟩ := h.exists_bytes hidents fun _ _ => rfl
  refine ⟨b, ?_, hw.object hp⟩
  rw [Datum.view, hcode, hb]

end MatchFields

end Match

end Code

end Marshal
