import Marshal.Proofs.Batches
import Marshal.Value.Default

/-!
# Sessions

In a session, schemas are compiled by themselves or in batches, and those that have been
compiled by themselves are published at any later time, or never (`Session.perform`). So
a schema may be published in a table other than the one that it was compiled against, and
it may be one that imports others of its own name.

What keeps the table in order is that it only grows (`ImportTable.Extends`). Hence what a
compiled schema imports stays in the table (`CompiledSchema.LinkedIn`), whether the schema
is published or not. This is kept by every operation (`consistent_perform`), and by a
session as a whole (`consistent_foldl`).

The schemas that a compiled schema imports are smaller than itself. So where the imports
of the published schemas are published schemas, they form no cycle (`acyclic_of_linkedIn`).
-/

namespace Marshal

/-! ## Tables -/

/-- Whatever one table holds, the other one holds as well. -/
def ImportTable.Extends (t t' : ImportTable) : Prop :=
  ∀ name c, t.get? name = some c → t'.get? name = some c

/-- The imports of a compiled schema are what the table holds under their names. -/
def CompiledSchema.LinkedIn (c : CompiledSchema) (t : ImportTable) : Prop :=
  ∀ imported ∈ c.imports, t.get? imported.name = some imported

namespace ImportTable

/-- The schema published under the first name imports one of the second name. -/
def Imports (t : ImportTable) (a b : String) : Prop :=
  ∃ c, t.get? a = some c ∧ ∃ imported ∈ c.imports, imported.name = b

/-- Schemas are published under their own names, together with what they import, and
    without cycles. -/
structure Coherent (t : ImportTable) : Prop where
  named : ∀ name c, t.get? name = some c → c.name = name
  linked : ∀ name c, t.get? name = some c → c.LinkedIn t
  acyclic : ∀ name, ¬Relation.TransGen t.Imports name name

variable {t t' u : ImportTable} {c : CompiledSchema}

theorem Extends.refl (t : ImportTable) : t.Extends t := fun _ _ => id

/-- A table that grows twice has grown. -/
theorem Extends.trans (h : t.Extends t') (h' : t'.Extends u) : t.Extends u :=
  fun name c hc => h' name c (h name c hc)

/-- Publishing a schema adds to the table. -/
theorem extends_publish (h : t.publish c = .ok t') : t.Extends t' :=
  fun _ _ hc => (get?_publish_eq_some_iff h).2 (.inr hc)

end ImportTable

section Links

variable {t t' : ImportTable} {c : CompiledSchema}

/-- A schema stays linked as the table grows. -/
theorem CompiledSchema.LinkedIn.extend (h : c.LinkedIn t) (ht : t.Extends t') : c.LinkedIn t' :=
  fun imported himported => ht _ _ (h imported himported)

/-- What is compiled against a table is linked in it. -/
theorem Schema.linkedIn_of_compile {s : Schema} (h : s.compile t = .ok c)
    (hnamed : ∀ name c, t.get? name = some c → c.name = name) : c.LinkedIn t := by
  intro imported himported
  obtain ⟨name, hname⟩ := exists_of_mem_importsFrom (compile_eq_ok h).2.1 himported
  rw [hnamed name imported hname, hname]

/-- Imports that are published under their names form no cycle. -/
theorem ImportTable.acyclic_of_linkedIn (h : ∀ name c, t.get? name = some c → c.LinkedIn t)
    (name : String) : ¬Relation.TransGen t.Imports name name := by
  refine Graph.acyclic_of_rank (fun name => sizeOf (t.get? name)) ?_ name
  rintro a b ⟨c, hc, imported, himported, rfl⟩
  have hsize := CompiledSchema.sizeOf_lt_of_mem himported
  simp [hc, h a c hc imported himported, hsize]

end Links

/-! ## Operations -/

/-- The schemas published in a session, and those that have been compiled. -/
structure Session where
  table : ImportTable := .empty
  compiled : List CompiledSchema := []

/-- What can be done in a session. -/
inductive Operation
  | compile (s : Schema)
  /-- Publishes one of the schemas that have been compiled. -/
  | publish (position : Nat)
  | compileBatch (batch : List Schema)

namespace Session

/-- The session after an operation. One that fails changes nothing. -/
def perform (session : Session) : Operation → Session
  | .compile s =>
    match s.compile session.table with
    | .ok c => { session with compiled := session.compiled ++ [c] }
    | .error _ => session
  | .publish position =>
    match session.compiled[position]? with
    | some c =>
      match session.table.publish c with
      | .ok t => { session with table := t }
      | .error _ => session
    | none => session
  | .compileBatch batch =>
    match session.table.compileBatch batch with
    | .ok (results, t) => ⟨t, session.compiled ++ results.filterMap (·.result.toOption)⟩
    | .error _ => session

/-- The session after some operations. -/
def run (operations : List Operation) : Session := operations.foldl perform {}

/-- Schemas are published under their own names, and what has been compiled is linked in the
    table. -/
structure Consistent (session : Session) : Prop where
  named : ∀ name c, session.table.get? name = some c → c.name = name
  linked : ∀ name c, session.table.get? name = some c → c.LinkedIn session.table
  compiled : ∀ c ∈ session.compiled, c.LinkedIn session.table

variable {session : Session}

/-- In a session that is consistent the table is coherent. -/
theorem Consistent.coherent (h : session.Consistent) : session.table.Coherent :=
  ⟨h.named, h.linked, ImportTable.acyclic_of_linkedIn h.linked⟩

/-- Compiling a schema keeps a session consistent. -/
theorem Consistent.compile (h : session.Consistent) {s : Schema} {c : CompiledSchema}
    (hcompile : s.compile session.table = .ok c) :
    Consistent { session with compiled := session.compiled ++ [c] } := by
  refine ⟨h.named, h.linked, fun c' hc' => ?_⟩
  rcases List.mem_append.1 hc' with hc' | hc'
  · exact h.compiled c' hc'
  · rw [List.mem_singleton.1 hc']
    exact Schema.linkedIn_of_compile hcompile h.named

/-- Publishing a schema that was compiled keeps a session consistent, however the table has grown
    since. -/
theorem Consistent.publish (h : session.Consistent) {c : CompiledSchema} {t : ImportTable}
    (hc : c ∈ session.compiled) (hpublish : session.table.publish c = .ok t) :
    Consistent { session with table := t } := by
  have hgrown := ImportTable.extends_publish hpublish
  refine ⟨fun name found hfound => ?_, fun name found hfound => ?_,
    fun c hc => (h.compiled c hc).extend hgrown⟩
  · rcases (ImportTable.get?_publish_eq_some_iff hpublish).1 hfound with ⟨rfl, rfl⟩ | hfound
    · rfl
    · exact h.named name found hfound
  · rcases (ImportTable.get?_publish_eq_some_iff hpublish).1 hfound with ⟨rfl, rfl⟩ | hfound
    · exact (h.compiled found hc).extend hgrown
    · exact (h.linked name found hfound).extend hgrown

/-- What a batch publishes has been compiled against the table that it leaves. -/
theorem Consistent.compileBatch (h : session.Consistent) {batch : List Schema}
    {results : List BatchResult} {t : ImportTable}
    (hbatch : session.table.compileBatch batch = .ok (results, t)) :
    Consistent ⟨t, session.compiled ++ results.filterMap (·.result.toOption)⟩ ∧
      session.table.Extends t := by
  obtain ⟨l, hrun⟩ := ImportTable.exists_batchRun hbatch
  have hgrown : session.table.Extends t := fun _ _ => hrun.compiles.kept
  -- What is in the table after the batch was there before it or comes from the batch.
  have hnamed : ∀ name c, t.get? name = some c → c.name = name := by
    intro name c hc
    rcases hrun.compiles.get?_eq_some_iff.1 hc with hc | hmem
    · exact h.named name c hc
    · exact hrun.compiles.name_of_mem hmem
  have hlinked : ∀ name c, ⟨name, .ok c⟩ ∈ results → c.LinkedIn t := by
    intro name c hmem
    obtain ⟨s, hs, rfl⟩ := hrun.exists_of_mem hmem
    exact Schema.linkedIn_of_compile ((hrun.mem_results hs).1 hmem).symm hnamed
  refine ⟨⟨hnamed, fun name c hc => ?_, fun c hc => ?_⟩, hgrown⟩
  · rcases hrun.compiles.get?_eq_some_iff.1 hc with hc | hmem
    · exact (h.linked name c hc).extend hgrown
    · exact hlinked name c hmem
  · rcases List.mem_append.1 hc with hc | hc
    · exact (h.compiled c hc).extend hgrown
    · obtain ⟨⟨name, result⟩, hmem, hresult⟩ := List.mem_filterMap.1 hc
      cases toOption_eq_some.1 hresult
      exact hlinked name c hmem

/-! ## Sessions as a whole -/

/-- An operation keeps a session consistent, and its table only grows. -/
theorem consistent_perform (h : session.Consistent) (operation : Operation) :
    (session.perform operation).Consistent ∧
      session.table.Extends (session.perform operation).table := by
  -- An operation that fails changes nothing.
  rcases operation with s | position | batch
  · rw [perform]
    rcases hcompile : s.compile session.table with _ | c
    · exact ⟨h, .refl _⟩
    · exact ⟨h.compile hcompile, .refl _⟩
  · rw [perform]
    rcases hc : session.compiled[position]? with _ | c
    · exact ⟨h, .refl _⟩
    · simp only
      rcases hpublish : session.table.publish c with _ | t
      · exact ⟨h, .refl _⟩
      · exact ⟨h.publish (List.mem_of_getElem? hc) hpublish, ImportTable.extends_publish hpublish⟩
  · rw [perform]
    rcases hbatch : session.table.compileBatch batch with _ | ⟨results, t⟩
    · exact ⟨h, .refl _⟩
    · exact h.compileBatch hbatch

/-- A session stays consistent over any sequence of operations, and its table grows. -/
theorem consistent_foldl (h : session.Consistent) (operations : List Operation) :
    (operations.foldl perform session).Consistent ∧
      session.table.Extends (operations.foldl perform session).table := by
  induction operations generalizing session with
  | nil => exact ⟨h, .refl _⟩
  | cons operation rest ih =>
    obtain ⟨hnext, hgrown⟩ := consistent_perform h operation
    obtain ⟨hlast, hgrown'⟩ := ih hnext
    exact ⟨hlast, hgrown.trans hgrown'⟩

/-- Every session is consistent. -/
theorem consistent_run (operations : List Operation) : (run operations).Consistent := by
  refine (consistent_foldl ⟨?_, ?_, ?_⟩ operations).1
  · rintro _ _ ⟨⟩
  · rintro _ _ ⟨⟩
  · simp

/-- The table of a session is coherent, and whatever it holds it holds for the rest of the
    session. -/
theorem run_coherent (before after : List Operation) :
    (run before).table.Coherent ∧
      (run before).table.Extends (run (before ++ after)).table := by
  refine ⟨(consistent_run before).coherent, ?_⟩
  rw [run, run, List.foldl_append]
  exact (consistent_foldl (consistent_run before) after).2

-- A second schema of a name can be compiled, here with an import that imports the first one,
-- but the name is taken.
example :
    let session := run [.compile { name := "grain.proto" }, .publish 0,
      .compile { name := "mill.proto", imports := ["grain.proto"] }, .publish 1,
      .compile { name := "grain.proto", imports := ["mill.proto"] }, .publish 2]
    session.compiled.map (fun c => (c.name, c.imports.map CompiledSchema.name)) =
        [("grain.proto", []), ("mill.proto", ["grain.proto"]), ("grain.proto", ["mill.proto"])] ∧
      session.table.entries.map (fun entry => (entry.1, entry.2.imports.map CompiledSchema.name)) =
        [("grain.proto", []), ("mill.proto", ["grain.proto"])] := ⟨rfl, rfl⟩

end Session

end Marshal
