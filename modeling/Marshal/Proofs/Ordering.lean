import Marshal.Proofs.Acceptance

/-!
# Orders of batches

A batch of schemas can be compiled one after the other if their names are new and
different (`ImportTable.Admits`), all they import is in the batch or published
(`ImportTable.Provides`), and none imports itself, directly or through others
(`ImportsWithin`). In the order that is found, no schema imports itself or a later one
(`ImportsFirst`).

`ordered_orderSchemas` tells what comes of ordering a batch: such an order, or an error
for which there is a reason.
-/

namespace Marshal

/-- The names of the schemas of a batch are different, and none of them is published. -/
def ImportTable.Admits (t : ImportTable) (batch : List Schema) : Prop :=
  (batch.map Schema.name).Nodup ∧ ∀ s ∈ batch, t.get? s.name = none

/-- All that the schemas of a batch import is in the batch or published. -/
def ImportTable.Provides (t : ImportTable) (batch : List Schema) : Prop :=
  ∀ s ∈ batch, ∀ name ∈ s.imports, name ∈ batch.map Schema.name ∨ (t.get? name).isSome

/-- The schema of the first name imports the one of the second, both of a batch. -/
def ImportsWithin (batch : List Schema) (a b : String) : Prop :=
  (∃ s ∈ batch, s.name = a ∧ b ∈ s.imports) ∧ b ∈ batch.map Schema.name

/-- No schema of the list imports itself or a later one. -/
def ImportsFirst (l : List Schema) : Prop :=
  (l.Pairwise fun s later => later.name ∉ s.imports) ∧ ∀ s ∈ l, s.name ∉ s.imports

/-- The schemas of a batch at the positions of an order. -/
def arrange (batch : List Schema) (order : List Nat) : List Schema := order.filterMap (batch[·]?)

/-- What comes of ordering a batch: an order, or an error for which there is a reason. -/
inductive Ordered (batch : List Schema) (t : ImportTable) : Except CompileError (List Nat) → Prop
  | repeated {s : Schema} : s ∈ batch →
    1 < (batch.map Schema.name).count s.name ∨ (t.get? s.name).isSome →
    Ordered batch t (.error (.inconsistent .imports (.repeatedSchema s.name)))
  | missing {s : Schema} {name : String} : t.Admits batch → s ∈ batch → name ∈ s.imports →
    name ∉ batch.map Schema.name → t.get? name = none →
    Ordered batch t (.error (.unresolvedImport s.name name))
  | cycle {name : String} {path : List String} : t.Admits batch → t.Provides batch →
    Relation.TransGen (ImportsWithin batch) name name →
    Ordered batch t (.error (.inconsistent .imports (.importCycle path)))
  | order {order : List Nat} : t.Admits batch → t.Provides batch →
    (arrange batch order).Perm batch → ImportsFirst (arrange batch order) →
    Ordered batch t (.ok order)

/-! ## Names -/

section Names

variable {t : ImportTable} {batch : List Schema}

/-- Names that pass are different from each other, from those before, and from those in the
    table. -/
theorem of_checkDistinct {earlier : List String} (h : checkDistinct t earlier batch = .ok ()) :
    t.Admits batch ∧ ∀ s ∈ batch, s.name ∉ earlier := by
  induction batch generalizing earlier with
  | nil => simp [ImportTable.Admits]
  | cons s rest ih =>
    rw [checkDistinct] at h
    split_ifs at h with hs
    rw [not_or, Option.not_isSome_iff_eq_none] at hs
    obtain ⟨⟨hnodup, hnone⟩, hearlier⟩ := ih h
    simp only [List.mem_cons, not_or] at hearlier
    refine ⟨⟨?_, ?_⟩, ?_⟩
    · rw [List.map_cons, List.nodup_cons]
      refine ⟨fun hmem => ?_, hnodup⟩
      obtain ⟨s', hs', hname⟩ := List.mem_map.1 hmem
      exact (hearlier s' hs').1 hname
    · simpa using ⟨hs.2, hnone⟩
    · simpa using ⟨hs.1, fun s' hs' => (hearlier s' hs').2⟩

/-- A schema that is reported as repeated has the name of an earlier one, or of one that
    is published. -/
theorem error_of_checkDistinct {earlier : List String} {e : CompileError}
    (h : checkDistinct t earlier batch = .error e) :
    ∃ s ∈ batch, e = .inconsistent .imports (.repeatedSchema s.name) ∧
      (s.name ∈ earlier ∨ 1 < (batch.map Schema.name).count s.name ∨ (t.get? s.name).isSome) := by
  induction batch generalizing earlier with
  | nil => cases h
  | cons s rest ih =>
    rw [checkDistinct] at h
    split_ifs at h with hs
    · cases h
      exact ⟨s, List.mem_cons_self, rfl, hs.imp_right .inr⟩
    · obtain ⟨s', hs', rfl, hfault⟩ := ih h
      refine ⟨s', List.mem_cons_of_mem _ hs', rfl, ?_⟩
      rw [List.map_cons]
      rcases hfault with hmem | hcount | hsome
      rcases List.mem_cons.1 hmem with hname | hearlier
      · -- The name occurs at the head, and once more where the schema stands.
        have hpos : 0 < (rest.map Schema.name).count s'.name :=
          List.count_pos_iff.2 (List.mem_map_of_mem hs')
        refine .inr (.inl ?_)
        rw [← hname, List.count_cons_self]
        omega
      · exact .inl hearlier
      · exact .inr (.inl (Nat.lt_of_lt_of_le hcount (List.count_le_count_cons ..)))
      · exact .inr (.inr hsome)

end Names

/-! ## Imports -/

section Imports

variable {t : ImportTable} {batch l : List Schema}

/-- No import is missing if each is in the batch or in the table. -/
theorem missingImport?_eq_none {s : Schema} : missingImport? batch t s = none ↔
    ∀ name ∈ s.imports, name ∈ batch.map Schema.name ∨ (t.get? name).isSome := by
  simp [missingImport?, List.find?_eq_none, Option.isSome_iff_ne_none, imp_iff_not_or]

/-- An import that is missing is neither in the batch nor in the table. -/
theorem missingImport?_eq_some {s : Schema} {name : String}
    (h : missingImport? batch t s = some name) :
    name ∈ s.imports ∧ name ∉ batch.map Schema.name ∧ t.get? name = none := by
  have hmissing := List.find?_some h
  refine ⟨List.mem_of_find?_eq_some h, ?_⟩
  simpa using hmissing

/-- Schemas that pass have no import that is missing. -/
theorem of_checkImported (h : checkImported batch t l = .ok ()) : ∀ s ∈ l, ∀ name ∈ s.imports,
    name ∈ batch.map Schema.name ∨ (t.get? name).isSome := by
  induction l with
  | nil => simp
  | cons s rest ih =>
    rw [checkImported] at h
    split at h
    · cases h
    · rename_i hs
      exact List.forall_mem_cons.2 ⟨missingImport?_eq_none.1 hs, ih h⟩

/-- The first import that is missing is named, with the schema that has it. -/
theorem error_of_checkImported {e : CompileError} (h : checkImported batch t l = .error e) :
    ∃ s ∈ l, ∃ name ∈ s.imports, e = .unresolvedImport s.name name ∧
      name ∉ batch.map Schema.name ∧ t.get? name = none := by
  induction l with
  | nil => cases h
  | cons s rest ih =>
    rw [checkImported] at h
    split at h
    · rename_i name hname
      cases h
      obtain ⟨himport, hmissing⟩ := missingImport?_eq_some hname
      exact ⟨s, List.mem_cons_self, name, himport, rfl, hmissing⟩
    · obtain ⟨s', hs', hfault⟩ := ih h
      exact ⟨s', List.mem_cons_of_mem _ hs', hfault⟩

end Imports

/-! ## The search -/

section Search

variable {batch : List Schema}

/-- An edge leads from a schema to one that it imports. -/
theorem exists_of_mem_importEdges {i : Nat} {e : Unit × Nat} (h : e ∈ importEdges batch i) :
    ∃ s s', batch[i]? = some s ∧ batch[e.2]? = some s' ∧ s'.name ∈ s.imports := by
  rw [importEdges] at h
  split at h
  · rename_i s hs
    obtain ⟨name, hname, htarget⟩ := List.mem_filterMap.1 h
    obtain ⟨j, hj, rfl⟩ := Option.map_eq_some_iff.1 htarget
    obtain ⟨hlt, hfound, _⟩ := List.findIdx?_eq_some_iff_getElem.1 hj
    rw [decide_eq_true_eq] at hfound
    exact ⟨s, batch[j], hs, List.getElem?_eq_getElem hlt, hfound ▸ hname⟩
  · simp at h

/-- Schemas of different names are found at their places. -/
theorem findIdx?_name (hnodup : (batch.map Schema.name).Nodup) {j : Nat} {s : Schema}
    (hs : batch[j]? = some s) : batch.findIdx? (·.name = s.name) = some j := by
  obtain ⟨hj, rfl⟩ := List.getElem?_eq_some_iff.1 hs
  refine List.findIdx?_eq_some_iff_getElem.2 ⟨hj, by simp, fun k hk => ?_⟩
  have hne := List.pairwise_iff_getElem.1 hnodup k j (by simp; omega) (by simpa using hj) hk
  simpa using hne

/-- If names are different, there is an edge to every schema that is imported. -/
theorem mem_importEdges (hnodup : (batch.map Schema.name).Nodup) {i j : Nat} {s s' : Schema}
    (hs : batch[i]? = some s) (hs' : batch[j]? = some s') (himport : s'.name ∈ s.imports) :
    ((), j) ∈ importEdges batch i := by
  rw [importEdges, hs]
  exact List.mem_filterMap.2 ⟨s'.name, himport, by rw [findIdx?_name hnodup hs']; rfl⟩

theorem lt_of_mem_importEdges {i : Nat} : ∀ e ∈ importEdges batch i, e.2 < batch.length := by
  intro e he
  obtain ⟨_, _, _, htarget, _⟩ := exists_of_mem_importEdges he
  exact (List.getElem?_eq_some_iff.1 htarget).1

/-- An edge leads from the name of a schema to one that it imports. -/
theorem importsWithin_of_edge {i : Nat} {e : Unit × Nat} (h : e ∈ importEdges batch i) :
    ImportsWithin batch (schemaName batch i) (schemaName batch e.2) := by
  obtain ⟨s, s', hs, hs', himport⟩ := exists_of_mem_importEdges h
  rw [schemaName, hs, schemaName, hs']
  exact ⟨⟨s, List.mem_of_getElem? hs, rfl, himport⟩, List.mem_map_of_mem (List.mem_of_getElem? hs')⟩

/-- A cycle that is found is one of names. -/
theorem transGen_of_cycle {c : List (Nat × Unit)} (h : (importSearch batch).cycle = some c) :
    ∃ name, Relation.TransGen (ImportsWithin batch) name name := by
  obtain ⟨hne, i, hwalk⟩ := Graph.closed_search _ _ _ h
  refine ⟨schemaName batch i, (hwalk.transGen hne).lift (schemaName batch) ?_⟩
  rintro j k ⟨_, hedge⟩
  exact importsWithin_of_edge hedge

/-- The schemas in the order of their places are the batch. -/
theorem arrange_range (batch : List Schema) : arrange batch (List.range batch.length) = batch := by
  induction batch with
  | nil => rfl
  | cons s rest ih =>
    rw [arrange] at ih ⊢
    rw [List.length_cons, List.range_succ_eq_map]
    refine (List.filterMap_cons_some (by rfl)).trans ?_
    rw [List.filterMap_map]
    exact congrArg (s :: ·) ih

/-- The search through the batch is sound and goes to all of it. -/
theorem search_importEdges (batch : List Schema) :
    (importSearch batch).Sound (importEdges batch) batch.length [] ∧
      ∀ i < batch.length, i ∈ (importSearch batch).order :=
  Graph.search_sound fun _ _ => lt_of_mem_importEdges

/-- The order that is found has every place once. -/
theorem perm_order (batch : List Schema) :
    (importSearch batch).order.Perm (List.range batch.length) :=
  Graph.perm_search fun _ _ => lt_of_mem_importEdges

/-- The search is done with every schema once. -/
theorem perm_arrange (batch : List Schema) :
    (arrange batch (importSearch batch).order).Perm batch := by
  have harranged := (perm_order batch).filterMap (batch[·]?)
  rwa [← arrange, ← arrange, arrange_range] at harranged

/-- If no cycle is found, no schema comes before one that it imports. -/
theorem importsFirst_arrange (hnodup : (batch.map Schema.name).Nodup)
    (hcycle : (importSearch batch).cycle = none) :
    ImportsFirst (arrange batch (importSearch batch).order) := by
  obtain ⟨hsound, _⟩ := search_importEdges batch
  -- A schema has a larger position in the order than those it imports.
  have hdown {i j : Nat} {s s' : Schema} (hi : i ∈ (importSearch batch).order)
      (hs : batch[i]? = some s) (hs' : batch[j]? = some s') (himport : s'.name ∈ s.imports) :
      (importSearch batch).order.idxOf j < (importSearch batch).order.idxOf i :=
    (hsound.topological hcycle).idxOf_lt hsound.nodup hi (mem_importEdges hnodup hs hs' himport)
  constructor
  · rw [arrange, List.pairwise_filterMap]
    refine List.pairwise_iff_getElem.2 fun p q hp hq hpq s hs s' hs' himport => ?_
    have hlt := hdown (List.getElem_mem hp) hs hs' himport
    rw [hsound.nodup.idxOf_getElem, hsound.nodup.idxOf_getElem] at hlt
    omega
  · intro s hs himport
    obtain ⟨i, hi, hs⟩ := List.mem_filterMap.1 hs
    exact Nat.lt_irrefl _ (hdown hi hs hs himport)

end Search

/-- Ordering a batch gives an order, or an error for which there is a reason. -/
theorem ordered_orderSchemas (batch : List Schema) (t : ImportTable) :
    Ordered batch t (orderSchemas batch t) := by
  rw [orderSchemas]
  -- The names are checked first, then the imports, and then a cycle is looked for.
  cases hdistinct : checkDistinct t [] batch with
  | error e =>
    obtain ⟨s, hs, rfl, hfault⟩ := error_of_checkDistinct hdistinct
    exact .repeated hs (hfault.resolve_left List.not_mem_nil)
  | ok =>
    obtain ⟨hadmits, _⟩ := of_checkDistinct hdistinct
    cases himported : checkImported batch t batch with
    | error e =>
      obtain ⟨s, hs, name, hname, rfl, hbatch, hnone⟩ := error_of_checkImported himported
      exact .missing hadmits hs hname hbatch hnone
    | ok =>
      have hprovides : t.Provides batch := of_checkImported himported
      cases hcycle : (importSearch batch).cycle with
      | none =>
        have hfirst := importsFirst_arrange hadmits.1 hcycle
        exact .order hadmits hprovides (perm_arrange batch) hfirst
      | some c =>
        obtain ⟨name, hname⟩ := transGen_of_cycle hcycle
        cases c with
        | nil => exact absurd hcycle (search_importEdges batch).1.cycle_ne_nil
        | cons first path => exact .cycle hadmits hprovides hname

/-! ## Positions -/

/-- Where no schema imports a later one, imports have smaller positions. -/
theorem ImportsFirst.idxOf_lt {l : List Schema} (h : ImportsFirst l)
    (hnodup : (l.map Schema.name).Nodup) {s : Schema} (hs : s ∈ l) {name : String}
    (himport : name ∈ s.imports) (hname : name ∈ l.map Schema.name) :
    (l.map Schema.name).idxOf name < (l.map Schema.name).idxOf s.name := by
  obtain ⟨hfirst, hself⟩ := h
  induction l with
  | nil => simp at hs
  | cons head rest ih =>
    rw [List.map_cons, List.nodup_cons] at hnodup
    rw [List.pairwise_cons] at hfirst
    rw [List.forall_mem_cons] at hself
    rw [List.map_cons] at hname ⊢
    -- The schema is not the first one, which would import itself or a later one.
    have hrest : s ∈ rest := by
      refine (List.mem_cons.1 hs).resolve_left ?_
      rintro rfl
      rcases List.mem_cons.1 hname with rfl | hname
      · exact hself.1 himport
      · obtain ⟨s', hs', rfl⟩ := List.mem_map.1 hname
        exact hfirst.1 s' hs' himport
    have hne : head.name ≠ s.name := fun he => hnodup.1 (he ▸ List.mem_map_of_mem hrest)
    by_cases hhead : head.name = name
    · simp [hhead, hhead ▸ hne]
    · have hname : name ∈ rest.map Schema.name :=
        (List.mem_cons.1 hname).resolve_left (Ne.symm hhead)
      rw [List.idxOf_cons_ne _ hhead, List.idxOf_cons_ne _ hne]
      exact Nat.succ_lt_succ (ih hnodup.2 hrest hname hfirst.2 hself.2)

/-- Where no schema imports a later one, there are no cycles. -/
theorem ImportsFirst.acyclic {l : List Schema} (h : ImportsFirst l)
    (hnodup : (l.map Schema.name).Nodup) (name : String) :
    ¬Relation.TransGen (ImportsWithin l) name name := by
  refine Graph.acyclic_of_rank (l.map Schema.name).idxOf ?_ name
  rintro a b ⟨⟨s, hs, rfl, himport⟩, hname⟩
  exact h.idxOf_lt hnodup hs himport hname

/-! ## Which outcome there is

Whether a batch can be ordered does not depend on the order that it is given in. -/

section Outcome

variable {t : ImportTable} {batch batch' : List Schema}

/-- Whether the names of a batch are new and different does not depend on its order. -/
theorem ImportTable.admits_congr (h : batch.Perm batch') : t.Admits batch ↔ t.Admits batch' := by
  simp only [Admits, (h.map Schema.name).nodup_iff, h.mem_iff]

/-- Whether all imports are there does not depend on the order of the batch. -/
theorem ImportTable.provides_congr (h : batch.Perm batch') :
    t.Provides batch ↔ t.Provides batch' := by
  simp only [Provides, (h.map Schema.name).mem_iff, h.mem_iff]

/-- Which schemas of a batch import each other does not depend on its order. -/
theorem importsWithin_congr (h : batch.Perm batch') :
    ImportsWithin batch = ImportsWithin batch' := by
  funext a b
  simp only [ImportsWithin, (h.map Schema.name).mem_iff, h.mem_iff]

/-- A batch that can be put in an order has no cycle. -/
theorem ImportsFirst.acyclic_of_perm {l : List Schema} (h : ImportsFirst l) (hl : l.Perm batch)
    (hadmits : t.Admits batch) (name : String) :
    ¬Relation.TransGen (ImportsWithin batch) name name := by
  rw [← importsWithin_congr hl]
  exact h.acyclic ((hl.map Schema.name).nodup_iff.2 hadmits.1) name

/-- A schema that is repeated or published is not admitted. -/
theorem ImportTable.not_admits {s : Schema} (hs : s ∈ batch)
    (hfault : 1 < (batch.map Schema.name).count s.name ∨ (t.get? s.name).isSome) :
    ¬t.Admits batch := by
  rintro ⟨hnodup, hnone⟩
  rcases hfault with hcount | hsome
  · exact absurd (List.nodup_iff_count_le_one.1 hnodup s.name) (Nat.not_le.2 hcount)
  · simp [hnone s hs] at hsome

variable {outcome : Except CompileError (List Nat)} (h : Ordered batch t outcome)

include h

/-- Names that are taken are the only outcome where there are some. -/
theorem Ordered.repeated_of (hadmits : ¬t.Admits batch) :
    ∃ name, outcome = .error (.inconsistent .imports (.repeatedSchema name)) := by
  cases h with
  | repeated => exact ⟨_, rfl⟩
  | missing h | cycle h | order h => exact absurd h hadmits

/-- Where names are all new and different, a missing import comes before a cycle. -/
theorem Ordered.missing_of (hadmits : t.Admits batch) (hprovides : ¬t.Provides batch) :
    ∃ schema name, outcome = .error (.unresolvedImport schema name) := by
  cases h with
  | repeated hs hfault => exact absurd hadmits (ImportTable.not_admits hs hfault)
  | missing => exact ⟨_, _, rfl⟩
  | cycle _ h | order _ h => exact absurd h hprovides

/-- A cycle is found where there is one and nothing else is wrong. -/
theorem Ordered.cycle_of (hadmits : t.Admits batch) (hprovides : t.Provides batch)
    (hcyclic : ∃ name, Relation.TransGen (ImportsWithin batch) name name) :
    ∃ path, outcome = .error (.inconsistent .imports (.importCycle path)) := by
  cases h with
  | repeated hs hfault => exact absurd hadmits (ImportTable.not_admits hs hfault)
  | missing _ hs hname hbatch hnone =>
    simpa [hbatch, hnone] using hprovides _ hs _ hname
  | cycle => exact ⟨_, rfl⟩
  | order _ _ hperm hfirst =>
    obtain ⟨name, hname⟩ := hcyclic
    exact absurd hname (hfirst.acyclic_of_perm hperm hadmits name)

/-- There is an order where nothing is wrong. -/
theorem Ordered.order_of (hadmits : t.Admits batch) (hprovides : t.Provides batch)
    (hacyclic : ¬∃ name, Relation.TransGen (ImportsWithin batch) name name) :
    ∃ order, outcome = .ok order ∧ (arrange batch order).Perm batch ∧
      ImportsFirst (arrange batch order) := by
  cases h with
  | repeated hs hfault => exact absurd hadmits (ImportTable.not_admits hs hfault)
  | missing _ hs hname hbatch hnone =>
    simpa [hbatch, hnone] using hprovides _ hs _ hname
  | cycle _ _ hname => exact absurd ⟨_, hname⟩ hacyclic
  | order _ _ hperm hfirst => exact ⟨_, rfl, hperm, hfirst⟩

end Outcome

end Marshal
