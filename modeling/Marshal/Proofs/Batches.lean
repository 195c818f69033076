import Marshal.Proofs.Ordering

/-!
# Batches

Compiling a schema reads the table of published schemas at its imports only
(`Schema.compile_congr`). So it does not matter that the schemas of a batch are compiled
one after the other, each against the table that those before it have left
(`ImportTable.Compiles`): each has the result that it would have against the final table
(`Compiles.results_eq`).

The final table is a fixpoint (`ImportTable.Completes`): it holds what the schemas of the
batch compile to against itself, and otherwise what was published before. Against any other
such table they compile to the same (`Compiles.compile_eq`), whatever order they are in and
whatever else is in the batch. Hence the two results about batches:

* `compileBatch_settles`: what compiling a batch leaves behind;
* `compileBatch_perm`: the order in which a batch is given does not matter.
-/

namespace Marshal

/-! ## Compilation reads the imports only -/

/-- Checks that agree on all elements agree on the list. -/
theorem checkEach_congr {ε α : Type} {check check' : List α → α → Except ε Unit} {l : List α}
    (h : ∀ earlier, ∀ a ∈ l, check earlier a = check' earlier a) (earlier : List α) :
    checkEach check earlier l = checkEach check' earlier l := by
  induction l generalizing earlier with
  | nil => rfl
  | cons a rest ih =>
    rw [checkEach, checkEach, h earlier a List.mem_cons_self,
      ih fun earlier b hb => h earlier b (List.mem_cons_of_mem _ hb)]

namespace Schema

variable {s : Schema} {t u : ImportTable}

/-- Verification looks up imports only. -/
theorem verify_congr (h : ∀ name ∈ s.imports, t.get? name = u.get? name) :
    s.verify t = s.verify u := by
  have himports : checkEach (s.checkImport t) [] s.imports =
      checkEach (s.checkImport u) [] s.imports :=
    checkEach_congr (fun earlier name hname => by rw [checkImport, checkImport, h name hname]) []
  rw [verify, verify, himports]

/-- So does gathering the imports. -/
theorem importsFrom_congr (h : ∀ name ∈ s.imports, t.get? name = u.get? name) :
    s.importsFrom t = s.importsFrom u := by
  rw [importsFrom, importsFrom]
  generalize s.imports = imports at h
  induction imports with
  | nil => rfl
  | cons name imports ih =>
    rw [List.forall_mem_cons] at h
    rw [List.mapM_cons, List.mapM_cons, h.1, ih h.2]

/-- Tables that hold the same imports give the same result. -/
theorem compile_congr (h : ∀ name ∈ s.imports, t.get? name = u.get? name) :
    s.compile t = s.compile u := by
  rw [compile, compile, verify_congr h, importsFrom_congr h]

/-- Without one of its imports, a schema does not compile. -/
theorem error_of_compile {name : String} (hname : name ∈ s.imports) (hnone : t.get? name = none) :
    ∃ e, s.compile t = .error e := by
  cases hcompile : s.compile t with
  | error e => exact ⟨e, rfl⟩
  | ok c =>
    have hsome := isSome_of_verify (compile_eq_ok hcompile).1 hname
    simp [hnone] at hsome

end Schema

/-! ## Runs -/

namespace ImportTable

variable {t t' : ImportTable} {c : CompiledSchema} {name : String}

/-- Schemas are compiled one after the other, and those that compile are published. -/
inductive Compiles : ImportTable → List Schema → List BatchResult → ImportTable → Prop
  | nil {t : ImportTable} : Compiles t [] [] t
  | failed {t t' : ImportTable} {s : Schema} {rest : List Schema} {results : List BatchResult}
      {e : CompileError} :
    s.compile t = .error e → Compiles t rest results t' →
    Compiles t (s :: rest) (⟨s.name, .error e⟩ :: results) t'
  | published {t next t' : ImportTable} {s : Schema} {rest : List Schema}
      {results : List BatchResult} {c : CompiledSchema} :
    s.compile t = .ok c → t.publish c = .ok next → Compiles next rest results t' →
    Compiles t (s :: rest) (⟨s.name, .ok c⟩ :: results) t'

theorem Admits.tail {s : Schema} {rest : List Schema} (h : t.Admits (s :: rest)) : t.Admits rest :=
  ⟨(List.nodup_cons.1 h.1).2, fun s' hs' => h.2 s' (List.mem_cons_of_mem _ hs')⟩

theorem Admits.ne_of_mem {s s' : Schema} {rest : List Schema} (h : t.Admits (s :: rest))
    (hs' : s' ∈ rest) : s'.name ≠ s.name :=
  fun hname => (List.nodup_cons.1 h.1).1 (hname ▸ List.mem_map_of_mem hs')

/-- Publishing the first schema leaves the names of the others new. -/
theorem Admits.publish {s : Schema} {rest : List Schema} (h : t.Admits (s :: rest))
    (hname : c.name = s.name) (hpublish : t.publish c = .ok t') : t'.Admits rest := by
  refine ⟨h.tail.1, fun s' hs' => ?_⟩
  rw [get?_publish_of_ne hpublish (hname ▸ h.ne_of_mem hs')]
  exact h.tail.2 s' hs'

/-- If the names are new and different, publishing never fails. -/
theorem compiles_compileEach {l : List Schema} (h : t.Admits l) :
    t.Compiles l (t.compileEach l).1 (t.compileEach l).2 := by
  induction l generalizing t with
  | nil => exact .nil
  | cons s rest ih =>
    rw [compileEach, compileNext]
    cases hcompile : s.compile t with
    | error e => exact .failed hcompile (ih h.tail)
    | ok c =>
      have hname := (Schema.header_of_compile hcompile).1
      have hpublish := publish_of_none (hname ▸ h.2 s List.mem_cons_self)
      simp only [hpublish]
      exact .published hcompile hpublish (ih (h.publish hname hpublish))

namespace Compiles

variable {l : List Schema} {results : List BatchResult}

/-- Results have the names of the schemas, in the same order. -/
theorem map_name (h : t.Compiles l results t') :
    results.map BatchResult.name = l.map Schema.name := by
  induction h with
  | nil => rfl
  | failed _ _ ih | published _ _ _ ih => simp [ih]

/-- The run publishes what compiles, and nothing else. -/
theorem get?_eq_some_iff (h : t.Compiles l results t') :
    t'.get? name = some c ↔ t.get? name = some c ∨ ⟨name, .ok c⟩ ∈ results := by
  induction h with
  | nil => simp
  | failed _ _ ih => simp [ih]
  | published hcompile hpublish _ ih =>
    rw [ih, get?_publish_eq_some_iff hpublish, (Schema.header_of_compile hcompile).1]
    simp [or_assoc, or_left_comm]

/-- What was published before the run stays so. -/
theorem kept (h : t.Compiles l results t') (hc : t.get? name = some c) : t'.get? name = some c :=
  h.get?_eq_some_iff.2 (.inl hc)

/-- The run publishes names of its schemas only. -/
theorem get?_of_notMem (h : t.Compiles l results t') (hname : name ∉ l.map Schema.name) :
    t'.get? name = t.get? name := by
  ext c
  rw [h.get?_eq_some_iff]
  refine or_iff_left fun hmem => hname ?_
  rw [← h.map_name]
  exact List.mem_map_of_mem hmem

end Compiles

end ImportTable

/-! ## Results -/

/-- Neither the first schema nor a later one is imported by the first. -/
theorem ImportsFirst.head {s : Schema} {rest : List Schema} (h : ImportsFirst (s :: rest)) :
    ∀ later ∈ s :: rest, later.name ∉ s.imports :=
  List.forall_mem_cons.2 ⟨h.2 s List.mem_cons_self, (List.pairwise_cons.1 h.1).1⟩

theorem ImportsFirst.tail {s : Schema} {rest : List Schema} (h : ImportsFirst (s :: rest)) :
    ImportsFirst rest :=
  ⟨(List.pairwise_cons.1 h.1).2, fun s' hs' => h.2 s' (List.mem_cons_of_mem _ hs')⟩

/-- A schema compiles to the same against tables that differ only in schemas that it does
    not import. -/
theorem Schema.compile_eq_of_kept {s : Schema} {t u : ImportTable} {l : List Schema}
    (hkept : ∀ name ∈ s.imports, name ∉ l.map Schema.name → u.get? name = t.get? name)
    (hs : ∀ later ∈ l, later.name ∉ s.imports) : s.compile u = s.compile t := by
  refine compile_congr fun name himport => hkept name himport fun hmem => ?_
  obtain ⟨later, hlater, rfl⟩ := List.mem_map.1 hmem
  exact hs later hlater himport

namespace ImportTable

variable {t t' u : ImportTable} {l : List Schema} {results : List BatchResult}

/-- Every schema of a run has the result that it would have against the final table. -/
theorem Compiles.results_eq (h : t.Compiles l results t') (hfirst : ImportsFirst l) :
    results = l.map fun s => ⟨s.name, s.compile t'⟩ := by
  induction h with
  | nil => rfl
  | failed hcompile hrest ih =>
    have hrun := failed hcompile hrest
    rw [List.map_cons, ← ih hfirst.tail,
      Schema.compile_eq_of_kept (fun _ _ => hrun.get?_of_notMem) hfirst.head, hcompile]
  | published hcompile hpublish hrest ih =>
    have hrun := published hcompile hpublish hrest
    rw [List.map_cons, ← ih hfirst.tail,
      Schema.compile_eq_of_kept (fun _ _ => hrun.get?_of_notMem) hfirst.head, hcompile]

/-- If names are different, the result of a schema is the only one. -/
theorem Compiles.mem_results (h : t.Compiles l results t') (hadmits : t.Admits l)
    (hfirst : ImportsFirst l) {s : Schema} (hs : s ∈ l)
    {result : Except CompileError CompiledSchema} :
    ⟨s.name, result⟩ ∈ results ↔ result = s.compile t' := by
  rw [h.results_eq hfirst]
  constructor
  · intro hmem
    obtain ⟨s', hs', heq⟩ := List.mem_map.1 hmem
    rw [BatchResult.mk.injEq] at heq
    rw [← List.inj_on_of_nodup_map hadmits.1 hs' hs heq.1, heq.2]
  · rintro rfl
    exact List.mem_map.2 ⟨s, hs, rfl⟩

/-! ## Fixpoints -/

/-- The table `u` holds what the schemas of a batch compile to against `u` itself; whatever
    else they import is as in the table `t`. -/
structure Completes (u t : ImportTable) (batch : List Schema) : Prop where
  kept : ∀ s ∈ batch, ∀ name ∈ s.imports, name ∉ batch.map Schema.name → u.get? name = t.get? name
  compiled : ∀ s ∈ batch, u.get? s.name = (s.compile u).toOption

/-- If the table `t'` differs from `t` in the first schema only, on which it agrees with
    `u`, then `u` completes it by the others. -/
theorem Completes.tail {s : Schema} {rest : List Schema} (h : u.Completes t (s :: rest))
    (hself : u.get? s.name = t'.get? s.name)
    (hother : ∀ name ≠ s.name, t'.get? name = t.get? name) : u.Completes t' rest := by
  refine ⟨fun s' hs' name himport hname => ?_,
    fun s' hs' => h.compiled s' (List.mem_cons_of_mem _ hs')⟩
  by_cases hs : name = s.name
  · rw [hs, hself]
  · rw [hother name hs]
    exact h.kept s' (List.mem_cons_of_mem _ hs') name himport (by simp [hs, hname])

/-- A part of a batch that imports nothing from the rest of it is completed as well. -/
theorem Completes.restrict {batch part : List Schema} (h : u.Completes t batch)
    (hpart : ∀ s ∈ part, s ∈ batch)
    (hclosed : ∀ s ∈ part, ∀ name ∈ s.imports,
      name ∈ batch.map Schema.name → name ∈ part.map Schema.name) : u.Completes t part := by
  refine ⟨fun s hs name himport hname => ?_, fun s hs => h.compiled s (hpart s hs)⟩
  exact h.kept s (hpart s hs) name himport fun hmem => hname (hclosed s hs name himport hmem)

/-- The order of a batch does not matter for what completes it. -/
theorem Completes.perm {batch batch' : List Schema} (h : u.Completes t batch)
    (hperm : batch.Perm batch') : u.Completes t batch' :=
  h.restrict (fun _ => hperm.mem_iff.2) fun _ _ _ _ => (hperm.map Schema.name).mem_iff.1

/-- The final table of a run is such a fixpoint. -/
theorem Compiles.completes (h : t.Compiles l results t') (hadmits : t.Admits l)
    (hfirst : ImportsFirst l) : t'.Completes t l := by
  refine ⟨fun _ _ name _ => h.get?_of_notMem, fun s hs => ?_⟩
  ext c
  rw [h.get?_eq_some_iff, hadmits.2 s hs, h.mem_results hadmits hfirst hs, toOption_eq_some]
  simp [eq_comm]

/-- Against any other fixpoint, the schemas of a run compile to the same. -/
theorem Compiles.compile_eq (h : t.Compiles l results t') (hadmits : t.Admits l)
    (hfirst : ImportsFirst l) (hu : u.Completes t l) : ∀ s ∈ l, s.compile u = s.compile t' := by
  induction h with
  | nil => simp
  | @failed t _ s _ _ e hcompile hrest ih =>
    have hrun := failed hcompile hrest
    -- The first schema imports none of the run, so its result is the one against `t`.
    have hhead : s.compile u = s.compile t :=
      Schema.compile_eq_of_kept (hu.kept s List.mem_cons_self) hfirst.head
    have hself : u.get? s.name = t.get? s.name := by
      rw [hu.compiled s List.mem_cons_self, hhead, hcompile,
        hadmits.2 s List.mem_cons_self]
      rfl
    refine List.forall_mem_cons.2
      ⟨?_, ih hadmits.tail hfirst.tail (hu.tail hself fun _ _ => rfl)⟩
    rw [hhead, Schema.compile_eq_of_kept (fun _ _ => hrun.get?_of_notMem) hfirst.head]
  | @published t next _ s _ _ c hcompile hpublish hrest ih =>
    have hrun := published hcompile hpublish hrest
    have hname := (Schema.header_of_compile hcompile).1
    have hhead : s.compile u = s.compile t :=
      Schema.compile_eq_of_kept (hu.kept s List.mem_cons_self) hfirst.head
    have hself : u.get? s.name = next.get? s.name := by
      rw [hu.compiled s List.mem_cons_self, hhead, hcompile, ← hname,
        get?_publish_self hpublish]
      rfl
    refine List.forall_mem_cons.2 ⟨?_, ih (hadmits.publish hname hpublish) hfirst.tail
      (hu.tail hself fun _ hne => get?_publish_of_ne hpublish (hname ▸ hne))⟩
    rw [hhead, Schema.compile_eq_of_kept (fun _ _ => hrun.get?_of_notMem) hfirst.head]

/-! ## Tables from results -/

/-- The table with what a schema of a batch compiled to, if it did. -/
def adopt (t : ImportTable) (r : BatchResult) : ImportTable :=
  match r.result with
  | .ok c => ⟨Ascending.insert r.name c t.entries⟩
  | .error _ => t

/-- The table is the one before, with every result adopted. -/
theorem Compiles.eq_foldl (h : t.Compiles l results t') : t' = results.foldl adopt t := by
  induction h with
  | nil => rfl
  | failed _ _ ih => exact ih
  | published hcompile hpublish _ ih =>
    rw [ih, (of_publish hpublish).2, (Schema.header_of_compile hcompile).1]
    rfl

/-- Results of different names may be adopted in any order. -/
theorem adopt_comm {r r' : BatchResult} (hne : r.name ≠ r'.name) (t : ImportTable) :
    (t.adopt r).adopt r' = (t.adopt r').adopt r := by
  rcases r with ⟨name, _ | c⟩ <;> rcases r' with ⟨name', _ | c'⟩
  · rfl
  · rfl
  · rfl
  · exact congrArg mk (Ascending.insert_comm hne.symm c' c t.entries)

/-- Results of different names may be adopted in any order. -/
theorem foldl_adopt_perm {results' : List BatchResult} (h : results.Perm results')
    (hnodup : (results.map BatchResult.name).Nodup) (t : ImportTable) :
    results.foldl adopt t = results'.foldl adopt t := by
  refine h.foldl_eq' (fun r hr r' hr' t => ?_) t
  by_cases heq : r = r'
  · rw [heq]
  · exact adopt_comm (fun hname => heq (List.inj_on_of_nodup_map hnodup hr hr' hname)) t

/-! ## Runs over batches -/

/-- The schemas of a batch are compiled in an order in which imports come first. -/
structure BatchRun (t : ImportTable) (batch l : List Schema) (results : List BatchResult)
    (t' : ImportTable) : Prop where
  admits : t.Admits batch
  provides : t.Provides batch
  perm : l.Perm batch
  importsFirst : ImportsFirst l
  compiles : t.Compiles l results t'

variable {batch part : List Schema}

/-- If schemas can be ordered, they are compiled in that order. -/
theorem batchRun_of_order {order : List Nat} (h : orderSchemas batch t = .ok order)
    (hadmits : t.Admits batch) (hprovides : t.Provides batch)
    (hperm : (arrange batch order).Perm batch) (hfirst : ImportsFirst (arrange batch order)) :
    ∃ results t', t.compileBatch batch = .ok (results, t') ∧
      t.BatchRun batch (arrange batch order) results t' := by
  refine ⟨_, _, ?_, hadmits, hprovides, hperm, hfirst,
    compiles_compileEach ((admits_congr hperm).2 hadmits)⟩
  rw [compileBatch, h]
  rfl

/-- A batch that is compiled is run through in some order. -/
theorem exists_batchRun (h : t.compileBatch batch = .ok (results, t')) :
    ∃ l, t.BatchRun batch l results t' := by
  obtain ⟨order, horder, _⟩ := bind_eq_ok.1 h
  have hordered := ordered_orderSchemas batch t
  rw [horder] at hordered
  rcases hordered with _ | _ | _ | ⟨hadmits, hprovides, hperm, hfirst⟩
  obtain ⟨_, _, hbatch, hrun⟩ := batchRun_of_order horder hadmits hprovides hperm hfirst
  rw [h] at hbatch
  cases hbatch
  exact ⟨_, hrun⟩

/-- An error for a batch as a whole is one of ordering it. -/
theorem ordered_of_compileBatch {e : CompileError} (h : t.compileBatch batch = .error e) :
    Ordered batch t (.error e) := by
  rcases bind_eq_error.1 h with horder | ⟨_, _, hresults⟩
  · exact horder ▸ ordered_orderSchemas batch t
  · cases hresults

namespace BatchRun

variable (h : t.BatchRun batch l results t')

include h

theorem admits_run : t.Admits l := (admits_congr h.perm).2 h.admits

theorem map_name_perm : (results.map BatchResult.name).Perm (batch.map Schema.name) :=
  h.compiles.map_name ▸ h.perm.map Schema.name

theorem nodup : (results.map BatchResult.name).Nodup :=
  h.map_name_perm.nodup_iff.2 h.admits.1

theorem exists_of_mem {r : BatchResult} (hr : r ∈ results) : ∃ s ∈ batch, s.name = r.name :=
  List.mem_map.1 (h.map_name_perm.mem_iff.1 (List.mem_map_of_mem hr))

/-- The result for a schema is what it compiles to from the table at the end. -/
theorem mem_results {s : Schema} (hs : s ∈ batch) {result : Except CompileError CompiledSchema} :
    ⟨s.name, result⟩ ∈ results ↔ result = s.compile t' :=
  h.compiles.mem_results h.admits_run h.importsFirst (h.perm.mem_iff.2 hs)

theorem completes : t'.Completes t batch :=
  (h.compiles.completes h.admits_run h.importsFirst).perm h.perm

/-- Against a table that the same batch completes, its schemas compile to the same. -/
theorem compile_eq (hu : u.Completes t batch) {s : Schema} (hs : s ∈ batch) :
    s.compile u = s.compile t' :=
  h.compiles.compile_eq h.admits_run h.importsFirst (hu.perm h.perm.symm) s (h.perm.mem_iff.2 hs)

/-- A schema of the batch is published, or has failed. -/
theorem isSome_or_failed {s : Schema} (hs : s ∈ batch) :
    (t'.get? s.name).isSome ∨ ∃ e, ⟨s.name, .error e⟩ ∈ results := by
  rw [h.completes.compiled s hs]
  rcases hcompile : s.compile t' with e | c
  · exact .inr ⟨e, (h.mem_results hs).2 hcompile.symm⟩
  · exact .inl rfl

/-- A schema that imports one that has failed fails. -/
theorem failed_of_import {s : Schema} (hs : s ∈ batch) {name : String} (himport : name ∈ s.imports)
    {e : CompileError} (he : ⟨name, .error e⟩ ∈ results) : ∃ e, ⟨s.name, .error e⟩ ∈ results := by
  obtain ⟨imported, himported, rfl⟩ := h.exists_of_mem he
  have hnone : t'.get? imported.name = none := by
    rw [h.completes.compiled imported himported, ← (h.mem_results himported).1 he]
    rfl
  obtain ⟨e, he⟩ := Schema.error_of_compile himport hnone
  exact ⟨e, (h.mem_results hs).2 he.symm⟩

/-- A schema that imports none that has failed finds its imports. -/
theorem isSome_of_import {s : Schema} (hs : s ∈ batch)
    (hnone : ∀ name ∈ s.imports, ∀ e, ⟨name, .error e⟩ ∉ results) {name : String}
    (himport : name ∈ s.imports) : (t'.get? name).isSome := by
  rcases h.provides s hs name himport with hname | hsome
  · obtain ⟨imported, himported, rfl⟩ := List.mem_map.1 hname
    rcases h.isSome_or_failed himported with hsome | ⟨e, he⟩
    · exact hsome
    · exact absurd he (hnone _ himport e)
  · obtain ⟨c, hc⟩ := Option.isSome_iff_exists.1 hsome
    rw [h.compiles.kept hc]
    rfl

/-- A part of the batch that imports nothing from the rest has the same results without it. -/
theorem compileBatch_part (hpart : part.Sublist batch)
    (hclosed : ∀ s ∈ part, ∀ name ∈ s.imports,
      name ∈ batch.map Schema.name → name ∈ part.map Schema.name) :
    ∃ results' u, t.compileBatch part = .ok (results', u) ∧
      ∀ s ∈ part, ⟨s.name, s.compile t'⟩ ∈ results' := by
  have hadmits : t.Admits part :=
    ⟨h.admits.1.sublist (hpart.map _), fun s hs => h.admits.2 s (hpart.subset hs)⟩
  have hprovides : t.Provides part := fun s hs name himport =>
    (h.provides s (hpart.subset hs) name himport).imp_left (hclosed s hs name himport)
  have hacyclic : ¬∃ name, Relation.TransGen (ImportsWithin part) name name := by
    rintro ⟨name, hcycle⟩
    refine h.importsFirst.acyclic_of_perm h.perm h.admits name
      (Relation.TransGen.mono ?_ name name hcycle)
    rintro a b ⟨⟨s, hs, hname, himport⟩, hb⟩
    exact ⟨⟨s, hpart.subset hs, hname, himport⟩, (hpart.map Schema.name).subset hb⟩
  obtain ⟨order, horder, hperm, hfirst⟩ :=
    (ordered_orderSchemas part t).order_of hadmits hprovides hacyclic
  obtain ⟨results', u, hbatch, hrun⟩ := batchRun_of_order horder hadmits hprovides hperm hfirst
  refine ⟨results', u, hbatch, fun s hs => (hrun.mem_results hs).2 ?_⟩
  exact hrun.compile_eq (h.completes.restrict (fun _ hs => hpart.subset hs) hclosed) hs

end BatchRun

/-! ## What a batch leaves -/

/-- The table after a batch has been compiled. -/
def afterBatch (t : ImportTable) (batch : List Schema) : ImportTable :=
  match t.compileBatch batch with
  | .ok (_, t') => t'
  | .error _ => t

/-- The schemas of a batch that are published, and the one of a name. -/
def surviving (t : ImportTable) (name : String) (batch : List Schema) : List Schema :=
  batch.filter fun s => s.name = name ∨ (t.get? s.name).isSome

/-- What compiling a batch against the table `t` leaves: results, and the table `t'`. -/
structure Settled (t : ImportTable) (batch : List Schema) (results : List BatchResult)
    (t' : ImportTable) : Prop where
  /-- Every schema has one result. -/
  once : (results.map BatchResult.name).Perm (batch.map Schema.name) ∧
    (results.map BatchResult.name).Nodup
  /-- It comes after those of the schemas that are imported. -/
  importsFirst : ∀ s ∈ batch, ∀ name ∈ s.imports, name ∈ batch.map Schema.name →
    (results.map BatchResult.name).idxOf name < (results.map BatchResult.name).idxOf s.name
  /-- What was published stays as it is. -/
  kept : ∀ name c, t.get? name = some c → t'.get? name = some c
  /-- What is new is what has compiled, under its name. -/
  added : ∀ name c, t.get? name = none ∧ t'.get? name = some c ↔ ⟨name, .ok c⟩ ∈ results
  named : ∀ name c, ⟨name, .ok c⟩ ∈ results → c.name = name
  /-- The result of a schema is what it compiles to against the table that is left. -/
  result : ∀ s ∈ batch, ∀ result, ⟨s.name, result⟩ ∈ results ↔ result = s.compile t'
  /-- A schema that imports one that has failed fails. -/
  failed : ∀ s ∈ batch, ∀ name ∈ s.imports, ∀ e, ⟨name, .error e⟩ ∈ results →
    ∃ e, ⟨s.name, .error e⟩ ∈ results
  /-- One that does not finds all its imports, and has the same result in a batch without
      the others that have failed. -/
  unaffected : ∀ s ∈ batch, (∀ name ∈ s.imports, ∀ e, ⟨name, .error e⟩ ∉ results) →
    (∀ name ∈ s.imports, (t'.get? name).isSome) ∧
    ∃ results' u, t.compileBatch (t'.surviving s.name batch) = .ok (results', u) ∧
      ⟨s.name, s.compile t'⟩ ∈ results'
  /-- The schemas are compiled one after the other, and publishing them never fails. -/
  compiles : ∃ l, l.Perm batch ∧ t.Compiles l results t'

/-- What comes of a batch, with the table afterwards: an error for which there is a reason
    and that changes nothing, or results. -/
inductive BatchOutcome (t : ImportTable) (batch : List Schema) :
    Except CompileError (List BatchResult × ImportTable) → ImportTable → Prop
  | refused {e : CompileError} : Ordered batch t (.error e) → BatchOutcome t batch (.error e) t
  | settled {results : List BatchResult} {t' : ImportTable} : t.Settled batch results t' →
    BatchOutcome t batch (.ok (results, t')) t'

theorem Compiles.name_of_mem (h : t.Compiles l results t') {name : String} {c : CompiledSchema}
    (hmem : ⟨name, .ok c⟩ ∈ results) : c.name = name := by
  induction h with
  | nil => simp at hmem
  | failed _ _ ih => exact ih (by simpa using hmem)
  | published hcompile _ _ ih =>
    rcases List.mem_cons.1 hmem with heq | hmem
    · cases heq
      exact (Schema.header_of_compile hcompile).1
    · exact ih hmem

theorem BatchRun.added (h : t.BatchRun batch l results t') {name : String} {c : CompiledSchema} :
    t.get? name = none ∧ t'.get? name = some c ↔ ⟨name, .ok c⟩ ∈ results := by
  rw [h.compiles.get?_eq_some_iff]
  constructor
  · rintro ⟨hnone, hsome | hmem⟩
    · simp [hnone] at hsome
    · exact hmem
  · intro hmem
    obtain ⟨s, hs, rfl⟩ := h.exists_of_mem hmem
    exact ⟨h.admits.2 s hs, .inr hmem⟩

/-- The schemas that have compiled, with one that imports none that has failed, import
    nothing from the rest of the batch. -/
theorem BatchRun.surviving_closed (h : t.BatchRun batch l results t') {s : Schema} (hs : s ∈ batch)
    (hnone : ∀ name ∈ s.imports, ∀ e, ⟨name, .error e⟩ ∉ results) :
    ∀ b ∈ t'.surviving s.name batch, ∀ name ∈ b.imports, name ∈ batch.map Schema.name →
      name ∈ (t'.surviving s.name batch).map Schema.name := by
  intro b hb name himport hname
  obtain ⟨hbatch, hb⟩ := List.mem_filter.1 hb
  rw [decide_eq_true_eq] at hb
  have hsome : (t'.get? name).isSome := by
    -- The schema is the one that is looked at, none of whose imports failed, or it was published,
    -- which it is only if its imports were there.
    rcases hb with hb | hb
    · cases List.inj_on_of_nodup_map h.admits.1 hbatch hs hb
      exact h.isSome_of_import hs hnone himport
    · obtain ⟨c, hc⟩ := Option.isSome_iff_exists.1 hb
      rw [h.completes.compiled b hbatch, toOption_eq_some] at hc
      exact Schema.isSome_of_verify (Schema.compile_eq_ok hc).1 himport
  obtain ⟨imported, himported, rfl⟩ := List.mem_map.1 hname
  exact List.mem_map_of_mem (List.mem_filter.2 ⟨himported, by simp [hsome]⟩)

theorem BatchRun.settled (h : t.BatchRun batch l results t') : t.Settled batch results t' where
  once := ⟨h.map_name_perm, h.nodup⟩
  importsFirst s hs name himport hname := by
    rw [h.compiles.map_name]
    exact h.importsFirst.idxOf_lt h.admits_run.1 (h.perm.mem_iff.2 hs) himport
      ((h.perm.map Schema.name).mem_iff.2 hname)
  kept _ _ := h.compiles.kept
  added _ _ := h.added
  named _ _ := h.compiles.name_of_mem
  result s hs _ := h.mem_results hs
  failed s hs name himport _ := h.failed_of_import hs himport
  unaffected s hs hnone := by
    obtain ⟨results', u, hbatch, hresults⟩ :=
      h.compileBatch_part List.filter_sublist (h.surviving_closed hs hnone)
    refine ⟨fun _ => h.isSome_of_import hs hnone, results', u, hbatch, hresults s ?_⟩
    simp [hs]
  compiles := ⟨l, h.perm, h.compiles⟩

/-- A batch as a whole is refused for a reason, or leaves a table in which the schemas that
    have compiled are published, each compiled against that table. -/
theorem compileBatch_settles (t : ImportTable) (batch : List Schema) :
    t.BatchOutcome batch (t.compileBatch batch) (t.afterBatch batch) := by
  rw [afterBatch]
  rcases hbatch : t.compileBatch batch with e | ⟨results, t'⟩
  · exact .refused (ordered_of_compileBatch hbatch)
  · obtain ⟨_, hrun⟩ := exists_batchRun hbatch
    exact .settled hrun.settled

end ImportTable

/-- A market, with the poultry and the grain that it imports. -/
def Sample.farm (hatching : FieldType) : List Schema :=
  [ { name := "market.proto", imports := ["poultry.proto", "grain.proto"] },
    poultry hatching,
    { name := "grain.proto" } ]

open Sample

-- The poultry fails, and with it the market, but not the grain.
example : (ImportTable.empty.compileBatch (farm (.named "Hen"))).map
    (fun outcome => outcome.1.map fun r => (r.name, r.result.toOption.isSome)) =
      .ok [("poultry.proto", false), ("grain.proto", true), ("market.proto", false)] := rfl

namespace ImportTable

variable {t t' u : ImportTable} {batch l : List Schema} {results : List BatchResult}

/-! ## Orders of a batch -/

/-- Two outcomes of a batch: errors for the same reason, or equal tables, with the same
    results but for their order. -/
inductive SameOutcome : Except CompileError (List BatchResult × ImportTable) →
    Except CompileError (List BatchResult × ImportTable) → Prop
  | repeated (name name' : String) :
    SameOutcome (.error (.inconsistent .imports (.repeatedSchema name)))
      (.error (.inconsistent .imports (.repeatedSchema name')))
  | missing (schema name schema' name' : String) :
    SameOutcome (.error (.unresolvedImport schema name)) (.error (.unresolvedImport schema' name'))
  | cycle (path path' : List String) :
    SameOutcome (.error (.inconsistent .imports (.importCycle path)))
      (.error (.inconsistent .imports (.importCycle path')))
  | settled {results results' : List BatchResult} (t' : ImportTable) : results.Perm results' →
    (results.map BatchResult.name).Nodup → SameOutcome (.ok (results, t')) (.ok (results', t'))

/-- Two runs over the same schemas have the same results and leave the same table. -/
theorem BatchRun.perm_results {batch' l' : List Schema} {results' : List BatchResult}
    (h : t.BatchRun batch l results t') (h' : t.BatchRun batch' l' results' u)
    (hperm : batch.Perm batch') : results.Perm results' ∧ t' = u := by
  have hcompletes : u.Completes t batch := h'.completes.perm hperm.symm
  have hresults : results.Perm results' := by
    rw [h.compiles.results_eq h.importsFirst, h'.compiles.results_eq h'.importsFirst]
    have heq : (l.map fun s => (⟨s.name, s.compile t'⟩ : BatchResult)) =
        l.map fun s => ⟨s.name, s.compile u⟩ :=
      List.map_congr_left fun s hs => by rw [h.compile_eq hcompletes (h.perm.mem_iff.1 hs)]
    rw [heq]
    exact (h.perm.trans (hperm.trans h'.perm.symm)).map _
  refine ⟨hresults, ?_⟩
  rw [h.compiles.eq_foldl, h'.compiles.eq_foldl]
  exact foldl_adopt_perm hresults h.nodup t

/-- The order in which a batch is given does not matter. -/
theorem compileBatch_perm {batch batch' : List Schema} (h : batch.Perm batch') (t : ImportTable) :
    SameOutcome (t.compileBatch batch) (t.compileBatch batch') := by
  have hordered := ordered_orderSchemas batch t
  have hordered' := ordered_orderSchemas batch' t
  -- What the outcome depends on does not depend on the order of the batch.
  by_cases hadmits : t.Admits batch
  · have hadmits' := (admits_congr h).1 hadmits
    by_cases hprovides : t.Provides batch
    · have hprovides' := (provides_congr h).1 hprovides
      by_cases hcyclic : ∃ name, Relation.TransGen (ImportsWithin batch) name name
      · obtain ⟨path, he⟩ := hordered.cycle_of hadmits hprovides hcyclic
        rw [importsWithin_congr h] at hcyclic
        obtain ⟨path', he'⟩ := hordered'.cycle_of hadmits' hprovides' hcyclic
        rw [compileBatch, compileBatch, he, he']
        exact .cycle path path'
      · obtain ⟨order, ho, hperm, hfirst⟩ := hordered.order_of hadmits hprovides hcyclic
        rw [importsWithin_congr h] at hcyclic
        obtain ⟨order', ho', hperm', hfirst'⟩ := hordered'.order_of hadmits' hprovides' hcyclic
        obtain ⟨results, t', hbatch, hrun⟩ := batchRun_of_order ho hadmits hprovides hperm hfirst
        obtain ⟨results', u, hbatch', hrun'⟩ :=
          batchRun_of_order ho' hadmits' hprovides' hperm' hfirst'
        obtain ⟨hresults, rfl⟩ := hrun.perm_results hrun' h
        rw [hbatch, hbatch']
        exact .settled t' hresults hrun.nodup
    · obtain ⟨schema, name, he⟩ := hordered.missing_of hadmits hprovides
      rw [provides_congr h] at hprovides
      obtain ⟨schema', name', he'⟩ := hordered'.missing_of hadmits' hprovides
      rw [compileBatch, compileBatch, he, he']
      exact .missing schema name schema' name'
  · obtain ⟨name, he⟩ := hordered.repeated_of hadmits
    rw [admits_congr h] at hadmits
    obtain ⟨name', he'⟩ := hordered'.repeated_of hadmits
    rw [compileBatch, compileBatch, he, he']
    exact .repeated name name'

theorem compileBatch_perm_farm :
    (farm (.named "Hen")).Perm (farm (.named "Hen")).reverse ∧
      SameOutcome (empty.compileBatch (farm (.named "Hen")))
        (empty.compileBatch (farm (.named "Hen")).reverse) :=
  ⟨(List.reverse_perm _).symm, compileBatch_perm (List.reverse_perm _).symm empty⟩

end ImportTable

end Marshal
