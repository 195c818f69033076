import Marshal.Proofs.Ordering
import Marshal.Proofs.Placement
import Mathlib.Data.List.Chain

/-!
# What ordering a batch comes to

Ordering a batch of schemas (`orderSchemas`) has four outcomes, each with its own condition. The
conditions are looked at one after the other: whether the names are new and different, whether
all imports are in the batch or published, and whether the imports within the batch go round in
a circle.

* `orderSchemas_decides`: under each condition, what the outcome is.
-/

namespace Marshal

/-- The name is neither that of a schema of the batch nor published. -/
def ImportTable.Lacks (t : ImportTable) (batch : List Schema) (name : String) : Prop :=
  name ∉ batch.map Schema.name ∧ t.get? name = none

/-- The import is the first one with a property: no schema before this one has an import with it,
    and neither has this schema before this import. -/
structure FirstImport (P : String → Prop) (l : List Schema) (s : Schema) (name : String) :
    Prop where
  holds : P name
  schema : ∃ before after, l = before ++ s :: after ∧ ∀ s' ∈ before, ∀ n ∈ s'.imports, ¬P n
  listed : ∃ earlier later, s.imports = earlier ++ name :: later ∧ ∀ n ∈ earlier, ¬P n

/-- Every schema of the list imports the next one, and the last one is the first one again. -/
structure IsImportCycle (batch : List Schema) (names : List String) : Prop where
  chain : names.IsChain (ImportsWithin batch)
  closed : names.getLast? = names.head?
  length : 2 ≤ names.length

variable {batch : List Schema} {t : ImportTable}

/-! ## Names and imports -/

/-- The first check passes if and only if the table admits the batch. -/
theorem checkDistinct_eq_ok_iff : checkDistinct t [] batch = .ok () ↔ t.Admits batch := by
  refine ⟨fun h => (of_checkDistinct h).1, fun hadmits => ?_⟩
  cases h : checkDistinct t [] batch with
  | ok => rfl
  | error e =>
    obtain ⟨s, hs, -, hfault⟩ := error_of_checkDistinct h
    exact absurd hadmits (ImportTable.not_admits hs (hfault.resolve_left List.not_mem_nil))

theorem ImportTable.not_lacks_iff {name : String} :
    ¬t.Lacks batch name ↔ name ∈ batch.map Schema.name ∨ (t.get? name).isSome := by
  rw [Lacks, ← Option.not_isSome_iff_eq_none]
  tauto

/-- The second check passes if and only if every import is provided. -/
theorem checkImported_eq_ok_iff : checkImported batch t batch = .ok () ↔ t.Provides batch := by
  refine ⟨of_checkImported, fun hprovides => ?_⟩
  cases h : checkImported batch t batch with
  | ok => rfl
  | error e =>
    obtain ⟨s, hs, name, hname, -, hlacks⟩ := error_of_checkImported h
    exact absurd hlacks (ImportTable.not_lacks_iff.2 (hprovides s hs name hname))

/-- The import that is reported as missing is the first one. -/
theorem firstImport_of_checkImported {l : List Schema} {e : CompileError}
    (h : checkImported batch t l = .error e) :
    ∃ s name, e = .unresolvedImport s.name name ∧ FirstImport (t.Lacks batch) l s name := by
  induction l with
  | nil => cases h
  | cons s rest ih =>
    rw [checkImported] at h
    split at h
    · -- The first schema has a missing import, and `name` is the first one of these.
      rename_i name hname
      cases h
      refine ⟨s, name, rfl, (missingImport?_eq_some hname).2, ⟨[], rest, rfl, by simp⟩, ?_⟩
      obtain ⟨-, earlier, later, himports, hfound⟩ := List.find?_eq_some_iff_append.1 hname
      refine ⟨earlier, later, himports, fun n hn => ImportTable.not_lacks_iff.2 ?_⟩
      simpa [imp_iff_not_or, Option.isSome_iff_ne_none] using hfound n hn
    · rename_i hnone
      obtain ⟨s', name, rfl, hholds, ⟨before, after, rfl, hbefore⟩, hlisted⟩ := ih h
      refine ⟨s', name, rfl, hholds, ⟨s :: before, after, rfl, ?_⟩, hlisted⟩
      refine List.forall_mem_cons.2 ⟨fun n hn => ?_, hbefore⟩
      exact ImportTable.not_lacks_iff.2 (missingImport?_eq_none.1 hnone n hn)

/-! ## Cycles and orders -/

/-- A cycle that is found is one of imports. -/
theorem isImportCycle_of_search {first : Nat × Unit} {path : List (Nat × Unit)}
    (h : (importSearch batch).cycle = some (first :: path)) :
    IsImportCycle batch ((first :: path ++ [first]).map (schemaName batch ·.1)) := by
  obtain ⟨-, i, hwalk⟩ := Graph.closed_search _ _ _ h
  -- The walk starts where the cycle does.
  have hi : i = first.1 := by cases hwalk; rfl
  have hnames : (first :: path ++ [first]).map (schemaName batch ·.1) =
      (Graph.nodes (first :: path) ++ [i]).map (schemaName batch) := by simp [Graph.nodes, hi]
  refine ⟨?_, ?_, by simp⟩
  · rw [hnames, List.isChain_map]
    refine hwalk.isChain.imp fun j k hedge => ?_
    obtain ⟨_, hedge⟩ := hedge
    exact importsWithin_of_edge hedge
  · rw [List.map_append, List.map_singleton, List.getLast?_concat]
    rfl

/-- If no cycle is found, a schema comes after all those it imports. -/
theorem pair_sublist_order (hnodup : (batch.map Schema.name).Nodup)
    (hcycle : (importSearch batch).cycle = none) {i j : Nat} {s s' : Schema}
    (hs : batch[i]? = some s) (hs' : batch[j]? = some s') (himport : s'.name ∈ s.imports) :
    [j, i].Sublist (importSearch batch).order := by
  obtain ⟨hsound, hmem⟩ := search_importEdges batch
  have hi : i < batch.length := (List.getElem?_eq_some_iff.1 hs).1
  exact (hsound.topological hcycle).pair_sublist (hmem i hi)
    (mem_importEdges hnodup hs hs' himport)

/-- The search finds a cycle if and only if there is one. -/
theorem cycle_eq_none_iff (hadmits : t.Admits batch) :
    (importSearch batch).cycle = none ↔
      ¬∃ name, Relation.TransGen (ImportsWithin batch) name name := by
  constructor
  · rintro hcycle ⟨name, hname⟩
    exact (importsFirst_arrange hadmits.1 hcycle).acyclic_of_perm (perm_arrange batch) hadmits name
      hname
  · intro hacyclic
    cases hcycle : (importSearch batch).cycle with
    | none => rfl
    | some c => exact absurd (transGen_of_cycle hcycle) hacyclic

/-! ## Outcomes -/

/-- If a name is repeated or published, the error names such a schema. Otherwise, if an import is
    missing, it tells the first one. Otherwise, if there is a cycle of imports, it names its
    schemas. Otherwise there is an order of all schemas, each after those it imports. -/
theorem orderSchemas_decides (batch : List Schema) (t : ImportTable) :
    (¬t.Admits batch → ∃ s ∈ batch,
      (1 < (batch.map Schema.name).count s.name ∨ (t.get? s.name).isSome) ∧
      orderSchemas batch t = .error (.inconsistent .imports (.repeatedSchema s.name))) ∧
    (t.Admits batch → ¬t.Provides batch → ∃ s name, FirstImport (t.Lacks batch) batch s name ∧
      orderSchemas batch t = .error (.unresolvedImport s.name name)) ∧
    (t.Admits batch → t.Provides batch →
      (∃ name, Relation.TransGen (ImportsWithin batch) name name) →
      ∃ names, IsImportCycle batch names ∧
        orderSchemas batch t = .error (.inconsistent .imports (.importCycle names)) ∧
        (CompileError.inconsistent .imports (.importCycle names)).message =
          "Inconsistent IR in imports: import cycle " ++
            Text.joinWith " -> " (names.map Text.quote)) ∧
    (t.Admits batch → t.Provides batch →
      (¬∃ name, Relation.TransGen (ImportsWithin batch) name name) →
      ∃ order, orderSchemas batch t = .ok order ∧ order.Perm (List.range batch.length) ∧
        ∀ i j s s', batch[i]? = some s → batch[j]? = some s' → s'.name ∈ s.imports →
          [j, i].Sublist order) := by
  -- The checks are made in this order, so that each case has passed those of the cases before it.
  refine ⟨fun hadmits => ?_, fun hadmits hprovides => ?_, fun hadmits hprovides hcyclic => ?_,
    fun hadmits hprovides hacyclic => ?_⟩
  · cases h : checkDistinct t [] batch with
    | ok => exact absurd (checkDistinct_eq_ok_iff.1 h) hadmits
    | error e =>
      obtain ⟨s, hs, rfl, hfault⟩ := error_of_checkDistinct h
      exact ⟨s, hs, hfault.resolve_left List.not_mem_nil, by rw [orderSchemas, h]; rfl⟩
  · cases h : checkImported batch t batch with
    | ok => exact absurd (checkImported_eq_ok_iff.1 h) hprovides
    | error e =>
      obtain ⟨s, name, rfl, hfirst⟩ := firstImport_of_checkImported h
      refine ⟨s, name, hfirst, ?_⟩
      rw [orderSchemas, checkDistinct_eq_ok_iff.2 hadmits, h]
      rfl
  · cases hcycle : (importSearch batch).cycle with
    | none => exact absurd hcyclic ((cycle_eq_none_iff hadmits).1 hcycle)
    | some c =>
      cases c with
      | nil => exact absurd hcycle (search_importEdges batch).1.cycle_ne_nil
      | cons first path =>
        refine ⟨_, isImportCycle_of_search hcycle, ?_, rfl⟩
        rw [orderSchemas, checkDistinct_eq_ok_iff.2 hadmits, checkImported_eq_ok_iff.2 hprovides,
          hcycle]
        rfl
  · have hcycle := (cycle_eq_none_iff hadmits).2 hacyclic
    refine ⟨(importSearch batch).order, ?_, perm_order batch, fun i j s s' hs hs' himport =>
      pair_sublist_order hadmits.1 hcycle hs hs' himport⟩
    rw [orderSchemas, checkDistinct_eq_ok_iff.2 hadmits, checkImported_eq_ok_iff.2 hprovides,
      hcycle]
    rfl

end Marshal
