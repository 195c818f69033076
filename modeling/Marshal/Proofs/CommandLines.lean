import Mathlib.Data.List.Forall2
import Marshal.Command.Run
import Marshal.Proofs.Batches
import Marshal.Proofs.Documents

/-!
# Import options in another order

The order of the import options of a command line does not matter to a run that
succeeds (`run_reorder`). The options may be spelt differently, and stand among
other arguments, which keep their places. Each stage of a run is compared with
the same stage of the other: what the arguments give, which schemas are read,
the table they are compiled into.
-/

namespace Marshal

namespace Command

/-- An import option. -/
inductive ImportOption
  /-- Its path is an argument of its own. -/
  | apart (path : String)
  /-- Its path follows an equals sign. -/
  | joined (path : String)
  deriving DecidableEq

namespace ImportOption

/-- The path that the option gives. -/
def path : ImportOption → String
  | .apart path | .joined path => path

/-- The arguments that spell the option. -/
def args : ImportOption → List String
  | .apart path => ["--import", path]
  | .joined path => ["--import=" ++ path]

end ImportOption

/-- A part of a command line: an import option, or any other argument. -/
inductive Part
  | option (o : ImportOption)
  | argument (arg : String)
  deriving DecidableEq

namespace Part

/-- The import option, if it is one. -/
def option? : Part → Option ImportOption
  | .option o => some o
  | .argument _ => none

/-- The argument, if it is no import option. -/
def argument? : Part → Option String
  | .option _ => none
  | .argument arg => some arg

/-- The arguments that spell the part. -/
def args : Part → List String
  | .option o => o.args
  | .argument arg => [arg]

end Part

/-- The command line of these parts. -/
def line (parts : List Part) : List String := parts.flatMap Part.args

@[simp] theorem line_cons (part : Part) (parts : List Part) :
    line (part :: parts) = part.args ++ line parts := List.flatMap_cons

/-- The same parts but for the order of the import options: all others stay in their places. -/
structure Reorders (parts parts' : List Part) : Prop where
  arguments : parts.map Part.argument? = parts'.map Part.argument?
  options : (parts.filterMap Part.option?).Perm (parts'.filterMap Part.option?)

/-! ## Arguments -/

namespace Given

/-- With these imports in front of the others. -/
def prepend (g : Given) (paths : List String) : Given := { g with imports := paths ++ g.imports }

/-- With one more import. -/
def addImport (g : Given) (path : String) : Given := { g with imports := g.imports ++ [path] }

/-- All that has been given but the imports. -/
def withoutImports (g : Given) : Given := { g with imports := [] }

variable (g : Given) (paths : List String)

theorem prepend_withoutImports : g.withoutImports.prepend g.imports = g := by
  simp [prepend, withoutImports]

/-- Flags do not depend on the paths of imports that are given already. -/
theorem giveFlag_prepend (f : Flag) :
    (g.prepend paths).giveFlag f = (g.giveFlag f).map (prepend · paths) := by
  rw [giveFlag, giveFlag, apply_ite (Option.map _)]
  rfl

/-- Nor do values. -/
theorem giveValue_prepend (s : Setting) (value : String) :
    (g.prepend paths).giveValue s value = (g.giveValue s value).map (prepend · paths) := by
  cases s with
  | imports =>
    rw [giveValue, giveValue, apply_ite (Option.map _)]
    simp [prepend]
  | input | output | runtimeCrate =>
    rw [giveValue, giveValue, apply_ite (Option.map _)]
    rfl

end Given

variable {t : Task} {g : Given} {paths : List String}

/-- What comes of an argument, with these imports in front of the others. -/
def prependTo (paths : List String) (r : Expected × Given) : Expected × Given :=
  (r.1, r.2.prepend paths)

/-- Nor do letters, which are flags, and then a setting with its value. -/
theorem takeLetters_prepend (letters : List Char) :
    takeLetters (g.prepend paths) letters = (takeLetters g letters).map (prependTo paths) := by
  induction letters generalizing g with
  | nil => rfl
  | cons c cs ih =>
    simp only [takeLetters]
    split
    case h_1 => rfl
    case h_2 f _ =>
      rw [Given.giveFlag_prepend]
      cases g.giveFlag f with
      | none => rfl
      | some g => exact ih
    case h_3 s _ =>
      split
      · rfl
      all_goals simp [Given.giveValue_prepend, prependTo, Function.comp_def]

/-- Nor do long names. -/
theorem takeLong_prepend (long : List Char) :
    takeLong t (g.prepend paths) long = (takeLong t g long).map (prependTo paths) := by
  simp only [takeLong]
  split <;> simp [Given.giveFlag_prepend, Given.giveValue_prepend, prependTo, Function.comp_def]

/-- Arguments are taken whatever imports have been given before. -/
theorem takeArgument_prepend (e : Expected) (arg : String) :
    takeArgument t (e, g.prepend paths) arg
      = (takeArgument t (e, g) arg).map (prependTo paths) := by
  cases e with
  | nothing => rfl
  | value s =>
    simp only [takeArgument]
    split
    · rfl
    · simp [Given.giveValue_prepend, prependTo, Function.comp_def]
  | switch =>
    simp only [takeArgument]
    split
    · rfl
    · exact takeLong_prepend _
    · exact takeLetters_prepend _
    · rfl

/-- An argument is taken as if no import was given before. -/
theorem takeArgument_eq (e : Expected) (g : Given) (arg : String) :
    takeArgument t (e, g) arg
      = (takeArgument t (e, g.withoutImports) arg).map (prependTo g.imports) := by
  rw [← takeArgument_prepend, g.prepend_withoutImports]

/-- Two states between arguments agree but for the imports. -/
structure Agree (r r' : Expected × Given) : Prop where
  expected : r.1 = r'.1
  others : r.2.withoutImports = r'.2.withoutImports

/-- An argument is taken alike where all but the imports agrees, and gives the same imports. -/
theorem Agree.takeArgument {r r' s : Expected × Given} (h : Agree r r') {arg : String}
    (hs : takeArgument t r arg = some s) :
    ∃ s' added, Command.takeArgument t r' arg = some s' ∧ Agree s s' ∧
      s.2.imports = r.2.imports ++ added ∧ s'.2.imports = r'.2.imports ++ added := by
  obtain ⟨e, g⟩ := r
  obtain ⟨e', g'⟩ := r'
  obtain ⟨rfl : e = e', hothers⟩ := h
  rw [takeArgument_eq] at hs
  obtain ⟨⟨e₁, g₁⟩, hbase, rfl⟩ := Option.map_eq_some_iff.1 hs
  refine ⟨prependTo g'.imports (e₁, g₁), g₁.imports, ?_, ⟨rfl, rfl⟩, rfl, rfl⟩
  change g.withoutImports = g'.withoutImports at hothers
  rw [takeArgument_eq, ← hothers, hbase]
  rfl

/-- The value of an import option is taken, or refused, whatever has been given before. -/
theorem giveValue_imports {path : String} {s : Given} (h : g.giveValue .imports path = some s)
    (g' : Given) : g'.giveValue .imports path = some (g'.addImport path) := by
  have hpath : path ≠ "" := by
    rintro rfl
    simp [Given.giveValue] at h
  exact if_neg hpath

theorem takeArgument_import : takeArgument t (.switch, g) "--import" = some (.value .imports, g) :=
  rfl

/-- An import joined to its option is given at once. -/
theorem takeArgument_joined (path : String) :
    takeArgument t (.switch, g) ("--import=" ++ path)
      = (g.giveValue .imports path).map (.switch, ·) := by
  simp [takeArgument, takeLong, Task.long?]

/-- No value starts with two dashes. -/
theorem takeArgument_dashes {e : Expected} (he : e ≠ .switch) {arg : String} {rest : List Char}
    (harg : arg.toList = '-' :: '-' :: rest) : takeArgument t (e, g) arg = none := by
  cases e with
  | switch => exact absurd rfl he
  | nothing => rfl
  | value s => simp [takeArgument, harg]

/-- A path is taken for an import, or refused, whatever has been given before. -/
theorem takeArgument_path {path : String} {s : Expected × Given}
    (h : takeArgument t (.value .imports, g) path = some s) (g' : Given) :
    takeArgument t (.value .imports, g') path = some (.switch, g'.addImport path) := by
  simp only [takeArgument] at h ⊢
  split at h
  case h_1 => cases h
  case h_2 =>
    obtain ⟨_, hvalue, -⟩ := Option.map_eq_some_iff.1 h
    rw [giveValue_imports hvalue g']
    rfl

namespace ImportOption

/-- An import option starts with two dashes. -/
theorem exists_dashes (o : ImportOption) :
    ∃ arg tail, o.args = arg :: tail ∧ ∃ rest, arg.toList = '-' :: '-' :: 'i' :: rest := by
  cases o with
  | apart path => exact ⟨_, _, rfl, _, rfl⟩
  | joined path => exact ⟨_, _, rfl, "mport=".toList ++ path.toList, by simp⟩

/-- An import option is taken only where an option may come. -/
theorem expected_of_taken {o : ImportOption} {r s : Expected × Given}
    (h : o.args.foldlM (takeArgument t) r = some s) : r.1 = .switch := by
  obtain ⟨arg, tail, hargs, rest, harg⟩ := o.exists_dashes
  by_contra he
  rw [hargs, List.foldlM_cons, takeArgument_dashes he harg] at h
  cases h

/-- There it adds its path, whatever has been given before. -/
theorem taken {o : ImportOption} {s : Expected × Given}
    (h : o.args.foldlM (takeArgument t) (.switch, g) = some s) (g' : Given) :
    o.args.foldlM (takeArgument t) (.switch, g') = some (.switch, g'.addImport o.path) := by
  cases o with
  | apart path =>
    rw [args, List.foldlM_cons, takeArgument_import] at h ⊢
    simp only [Option.bind_eq_bind, Option.bind_some, List.foldlM_cons, List.foldlM_nil,
      Option.bind_eq_some_iff] at h ⊢
    obtain ⟨_, hpath, -⟩ := h
    exact ⟨_, takeArgument_path hpath g', rfl⟩
  | joined path =>
    rw [args, List.foldlM_cons, takeArgument_joined] at h ⊢
    obtain ⟨_, hjoined, -⟩ := Option.bind_eq_some_iff.1 h
    obtain ⟨_, hvalue, -⟩ := Option.map_eq_some_iff.1 hjoined
    rw [giveValue_imports hvalue g']
    rfl

/-- The option can be taken wherever an option may come. -/
def Legible (t : Task) (o : ImportOption) : Prop :=
  ∀ g, o.args.foldlM (takeArgument t) (.switch, g) = some (.switch, g.addImport o.path)

end ImportOption

/-! ## Command lines -/

/-- All import options of a command line that is taken are legible. -/
theorem legible_of_line {parts : List Part} {r s : Expected × Given}
    (h : (line parts).foldlM (takeArgument t) r = some s) :
    ∀ o ∈ parts.filterMap Part.option?, o.Legible t := by
  induction parts generalizing r with
  | nil => simp
  | cons part parts ih =>
    rw [line_cons, List.foldlM_append, Option.bind_eq_bind, Option.bind_eq_some_iff] at h
    obtain ⟨r', hpart, hrest⟩ := h
    cases part with
    | argument arg => exact ih hrest
    | option o =>
      refine List.forall_mem_cons.2 ⟨fun g => ?_, ih hrest⟩
      obtain ⟨e, g₀⟩ := r
      obtain rfl : e = .switch := ImportOption.expected_of_taken hpart
      exact ImportOption.taken hpart g

/-- The paths of the import options. -/
def pathsOf (parts : List Part) : List String :=
  (parts.filterMap Part.option?).map ImportOption.path

@[simp] theorem pathsOf_argument (arg : String) (parts : List Part) :
    pathsOf (.argument arg :: parts) = pathsOf parts := rfl

/-- Whether a path is added or comes later, the paths are the same but for their order. -/
theorem perm_addImport {given : List String} (path : String) :
    ((g.addImport path).imports ++ (given ++ paths)).Perm
      (g.imports ++ (given ++ path :: paths)) := by
  rw [Given.addImport, List.append_assoc, List.singleton_append]
  exact List.perm_middle.symm.append_left g.imports

/-- Two command lines with the same other arguments in the same places are taken alike, and the
    imports are those that these arguments give and those of the options. -/
theorem line_reorder {parts parts' : List Part} {r r' s : Expected × Given} (hagree : Agree r r')
    (harguments : parts.map Part.argument? = parts'.map Part.argument?)
    (hlegible : ∀ o ∈ parts'.filterMap Part.option?, o.Legible t)
    (h : (line parts).foldlM (takeArgument t) r = some s) :
    ∃ s' given, (line parts').foldlM (takeArgument t) r' = some s' ∧ Agree s s' ∧
      s.2.imports.Perm (r.2.imports ++ (given ++ pathsOf parts)) ∧
      s'.2.imports.Perm (r'.2.imports ++ (given ++ pathsOf parts')) := by
  induction parts generalizing parts' r r' with
  | nil =>
    obtain rfl : parts' = [] := by simpa using harguments.symm
    obtain rfl : r = s := Option.some.inj h
    exact ⟨r', [], rfl, hagree, by simp [pathsOf], by simp [pathsOf]⟩
  | cons part parts ih =>
    obtain ⟨part', parts', rfl, hpart, hrests⟩ := List.map_eq_cons_iff.1 harguments.symm
    rw [line_cons, List.foldlM_append, Option.bind_eq_bind, Option.bind_eq_some_iff] at h
    obtain ⟨r₁, htaken, hrest⟩ := h
    rw [line_cons, List.foldlM_append]
    -- Both lines have an argument here, the same one, or both have an option.
    match part, part', hpart with
    | .argument arg, .argument _, rfl =>
      have htaken : takeArgument t r arg = some r₁ := by simpa [Part.args] using htaken
      obtain ⟨r₁', added, htaken', hagree₁, himports, himports'⟩ := hagree.takeArgument htaken
      obtain ⟨s', given, hline', hs, hperm, hperm'⟩ := ih hagree₁ hrests.symm hlegible hrest
      refine ⟨s', added ++ given, ?_, hs, ?_, ?_⟩
      · simpa [Part.args, htaken'] using hline'
      · simpa [himports] using hperm
      · simpa [himports'] using hperm'
    | .option o, .option o', _ =>
      -- The paths may differ, but the states agree again once both are added.
      obtain ⟨e, g⟩ := r
      obtain ⟨e', g'⟩ := r'
      obtain ⟨rfl : e = e', hothers⟩ := hagree
      obtain rfl : e = .switch := ImportOption.expected_of_taken htaken
      obtain ⟨ho', hlegible⟩ := List.forall_mem_cons.1 hlegible
      have hr₁ : r₁ = (.switch, g.addImport o.path) :=
        Option.some.inj (htaken.symm.trans (ImportOption.taken htaken g))
      subst hr₁
      have hagree₁ : Agree (.switch, g.addImport o.path) (.switch, g'.addImport o'.path) :=
        ⟨rfl, hothers⟩
      obtain ⟨s', given, hline', hs, hperm, hperm'⟩ := ih hagree₁ hrests.symm hlegible hrest
      refine ⟨s', given, ?_, hs, ?_, ?_⟩
      · simpa [Part.args, ho' g'] using hline'
      · exact hperm.trans (perm_addImport o.path)
      · exact hperm'.trans (perm_addImport o'.path)

/-! ## Commands -/

/-- Two commands that are the same but for the order of their imports. -/
def SameButOrder (c c' : Command) : Prop :=
  ∃ imports, c.imports.Perm imports ∧ c' = { c with imports := imports }

variable {parts parts' : List Part} {c : Command}

/-- The command that has been given, at the end of the arguments. -/
def finish? (t : Task) : Expected × Given → Option Command
  | (.value _, _) => none
  | (_, g) => do
    return {
      task := t
      input := ← g.input
      imports := g.imports
      output := g.output
      options :=
        { runtimeCrate := g.runtimeCrate.getD Code.defaultCrate, serde := g.flags.contains .serde }
      verbose := g.flags.contains .verbose }

theorem ofTask?_eq (args : List String) :
    ofTask? t args = args.foldlM (takeArgument t) (.switch, {}) >>= finish? t := by
  rw [ofTask?]
  congr 1
  funext ⟨e, g⟩
  cases e <;> rfl

/-- States that agree but for the order of imports give commands that do. -/
theorem Agree.finish? {s s' : Expected × Given} (h : Agree s s')
    (hperm : s.2.imports.Perm s'.2.imports) (hc : finish? t s = some c) :
    ∃ c', Command.finish? t s' = some c' ∧ SameButOrder c c' := by
  obtain ⟨e, flags, input, imports, output, crate⟩ := s
  obtain ⟨e', flags', input', imports', output', crate'⟩ := s'
  obtain ⟨rfl : e = e', hothers⟩ := h
  obtain ⟨rfl, rfl, rfl, rfl⟩ : flags = flags' ∧ input = input' ∧ output = output' ∧
      crate = crate' := by simpa [Given.withoutImports] using hothers
  cases e with
  | value s => cases hc
  | switch | nothing =>
    obtain ⟨path, hpath, hc⟩ := Option.bind_eq_some_iff.1 hc
    cases hc
    exact ⟨_, Option.bind_eq_some_iff.2 ⟨path, hpath, rfl⟩, imports', hperm, rfl⟩

/-- Reordering the imports keeps the command of a task. -/
theorem ofTask?_reorder (h : Reorders parts parts') (hc : ofTask? t (line parts) = some c) :
    ∃ c', ofTask? t (line parts') = some c' ∧ SameButOrder c c' := by
  rw [ofTask?_eq] at hc ⊢
  obtain ⟨s, hline, hc⟩ := Option.bind_eq_some_iff.1 hc
  have hlegible : ∀ o ∈ parts'.filterMap Part.option?, o.Legible t :=
    fun o ho => legible_of_line hline o (h.options.mem_iff.2 ho)
  have hstart : Agree (.switch, {}) (.switch, {}) := ⟨rfl, rfl⟩
  obtain ⟨s', given, hline', hagree, hperm, hperm'⟩ :=
    line_reorder hstart h.arguments hlegible hline
  have hpaths : (given ++ pathsOf parts).Perm (given ++ pathsOf parts') :=
    (h.options.map ImportOption.path).append_left given
  obtain ⟨c', hc', hsame⟩ := hagree.finish? (hperm.trans (hpaths.trans hperm'.symm)) hc
  exact ⟨c', Option.bind_eq_some_iff.2 ⟨s', hline', hc'⟩, hsame⟩

/-- An argument in front keeps its place. -/
theorem Reorders.argument_cons {arg : String} (h : Reorders (.argument arg :: parts) parts') :
    ∃ rest, parts' = .argument arg :: rest ∧ Reorders parts rest := by
  obtain ⟨part, rest, rfl, hpart, hrest⟩ := List.map_eq_cons_iff.1 h.arguments.symm
  obtain rfl : part = .argument arg := by
    cases part with
    | option o => cases hpart
    | argument arg' => rw [Option.some.inj hpart]
  exact ⟨rest, rfl, hrest.symm, h.options⟩

/-- No task has the name of an option. -/
theorem named?_option (o : ImportOption) (args : List String) : named? (o.args ++ args) = none := by
  obtain ⟨arg, tail, hargs, rest, harg⟩ := o.exists_dashes
  have hnone : Task.ofName? arg = none := by
    rw [Task.ofName?]
    all_goals
      rintro rfl
      simp at harg
  rw [hargs, List.cons_append, named?, hnone]
  rfl

/-- Reordering the imports keeps a named command. -/
theorem named?_reorder (h : Reorders parts parts') (hc : named? (line parts) = some c) :
    ∃ c', named? (line parts') = some c' ∧ SameButOrder c c' := by
  cases parts with
  | nil => cases hc
  | cons part parts =>
    cases part with
    | option o => rw [line_cons, Part.args, named?_option] at hc; cases hc
    | argument arg =>
      obtain ⟨rest, rfl, hrest⟩ := h.argument_cons
      obtain ⟨t, ht, hc⟩ := Option.bind_eq_some_iff.1 hc
      obtain ⟨c', hc', hsame⟩ := ofTask?_reorder hrest hc
      exact ⟨c', Option.bind_eq_some_iff.2 ⟨t, ht, hc'⟩, hsame⟩

theorem parse?_cons (arg : String) (args : List String) :
    parse? (arg :: args) = if arg = "-v" ∨ arg = "--verbose"
      then (named? args).map ({ · with verbose := true }) else named? (arg :: args) := by
  rw [parse?.eq_def]
  split <;> simp_all

/-- Reordering the imports keeps the command of a line. -/
theorem parse?_reorder (h : Reorders parts parts') (hc : parse? (line parts) = some c) :
    ∃ c', parse? (line parts') = some c' ∧ SameButOrder c c' := by
  cases parts with
  | nil => cases hc
  | cons part parts =>
    cases part with
    | option o =>
      -- An import cannot come first, where a command has its name.
      obtain ⟨arg, tail, hargs, rest, harg⟩ := o.exists_dashes
      have hne : ¬(arg = "-v" ∨ arg = "--verbose") := by
        rintro (rfl | rfl) <;> simp at harg
      rw [line_cons, Part.args, hargs, List.cons_append, parse?_cons, if_neg hne,
        ← List.cons_append, ← hargs, named?_option] at hc
      cases hc
    | argument arg =>
      -- An argument stays in front, where it may be the flag that comes before the command.
      obtain ⟨rest, rfl, hrest⟩ := h.argument_cons
      change parse? (arg :: line parts) = some c at hc
      change ∃ c', parse? (arg :: line rest) = some c' ∧ _
      rw [parse?_cons] at hc ⊢
      by_cases hverbose : arg = "-v" ∨ arg = "--verbose"
      · rw [if_pos hverbose] at hc ⊢
        obtain ⟨c₀, hc₀, rfl⟩ := Option.map_eq_some_iff.1 hc
        obtain ⟨_, hc', imports, hperm, rfl⟩ := named?_reorder hrest hc₀
        exact ⟨_, Option.map_eq_some_iff.2 ⟨_, hc', rfl⟩, imports, hperm, rfl⟩
      · rw [if_neg hverbose] at hc ⊢
        exact named?_reorder h hc

end Command

/-! ## Loading -/

/-- Where a batch is compiled, it is so in any order, with the same results and the same table. -/
theorem ImportTable.compileBatch_of_perm {t t' : ImportTable} {batch batch' : List Schema}
    {results : List BatchResult} (hperm : batch.Perm batch')
    (h : t.compileBatch batch = .ok (results, t')) :
    ∃ results', t.compileBatch batch' = .ok (results', t') ∧ results.Perm results' := by
  obtain ⟨l, hrun⟩ := exists_batchRun h
  have hadmits := (admits_congr hperm).1 hrun.admits
  have hprovides := (provides_congr hperm).1 hrun.provides
  have hacyclic : ¬∃ name, Relation.TransGen (ImportsWithin batch') name name := by
    rintro ⟨name, hcycle⟩
    exact hrun.importsFirst.acyclic_of_perm (hrun.perm.trans hperm) hadmits name hcycle
  obtain ⟨order, horder, harrange, hfirst⟩ :=
    (ordered_orderSchemas batch' t).order_of hadmits hprovides hacyclic
  obtain ⟨results', u, hbatch, hrun'⟩ :=
    batchRun_of_order horder hadmits hprovides harrange hfirst
  obtain ⟨hresults, rfl⟩ := hrun.perm_results hrun' hperm
  exact ⟨results', hbatch, hresults⟩

namespace Command

/-- Schemas are compiled into a table if all of them compile. -/
theorem compileImports_eq_ok {imports : List Schema} {table : ImportTable} :
    compileImports imports = .ok table ↔
      ∃ results, ImportTable.empty.compileBatch imports = .ok (results, table) ∧
        ∀ r ∈ results, ∃ c, r.result = .ok c := by
  rw [compileImports]
  split
  case h_1 e he => simp [he]
  case h_2 results t hbatch =>
    constructor
    · intro h
      obtain ⟨_, hall, ht⟩ := bind_eq_ok.1 h
      cases ht
      refine ⟨results, hbatch, fun r hr => ?_⟩
      have hr := forM_eq_ok.1 hall r hr
      split at hr
      · cases hr
      · exact ⟨_, ‹_›⟩
    · rintro ⟨results', hbatch', hall⟩
      rw [hbatch] at hbatch'
      cases hbatch'
      refine bind_eq_ok.2 ⟨(), forM_eq_ok.2 fun r hr => ?_, rfl⟩
      obtain ⟨c, hc⟩ := hall r hr
      rw [hc]

/-- The order of imports does not matter for what they compile to. -/
theorem compileImports_perm {imports imports' : List Schema} {table : ImportTable}
    (hperm : imports.Perm imports') (h : compileImports imports = .ok table) :
    compileImports imports' = .ok table := by
  obtain ⟨results, hbatch, hresults⟩ := compileImports_eq_ok.1 h
  obtain ⟨results', hbatch', hperm'⟩ := ImportTable.compileBatch_of_perm hperm hbatch
  exact compileImports_eq_ok.2 ⟨results', hbatch', fun r hr => hresults r (hperm'.mem_iff.2 hr)⟩

/-- Commands that agree but for the order of imports load the same schema. -/
theorem load_reorder {c c' : Command} (h : SameButOrder c c') {read : String → Option String}
    {s : CompiledSchema} (hs : c.load read = .ok s) : c'.load read = .ok s := by
  obtain ⟨paths, hpaths, rfl⟩ := h
  obtain ⟨imports, himports, hs⟩ := bind_eq_ok.1 hs
  obtain ⟨table, htable, hs⟩ := bind_eq_ok.1 hs
  obtain ⟨imports', himports', hperm⟩ := mapM_perm hpaths himports
  have htable' := compileImports_perm hperm htable
  exact bind_eq_ok.2 ⟨imports', himports', bind_eq_ok.2 ⟨table, htable', hs⟩⟩

/-- They have the same product. -/
theorem product_reorder {c c' : Command} (h : SameButOrder c c') {read : String → Option String}
    {p : Product} (hp : c.product read = .ok p) : c'.product read = .ok p := by
  obtain ⟨s, hs, hp⟩ := bind_eq_ok.1 hp
  have hs' := load_reorder h hs
  obtain ⟨paths, -, rfl⟩ := h
  exact bind_eq_ok.2 ⟨s, hs', hp⟩

/-! ## Runs -/

section Run

variable {σ : Type} {storage : Storage σ} {files : σ} {args : List String}

/-- A run that fails gives out nothing and leaves the files alone, unless the failure is one to
    read or write them. -/
theorem nothing_of_failure {f : Failure} (h : (runOn storage files args).failure = some f)
    (hio : f ≠ .io) :
    (runOn storage files args).stdout = "" ∧ (runOn storage files args).files = files := by
  unfold runOn at h ⊢
  split at h
  · -- The command line is refused, which is no failure.
    cases h
  · split at h
    · exact ⟨rfl, rfl⟩
    · cases h
    · -- Only a text that cannot be written fails here.
      split at h
      · exact absurd (Option.some.inj h).symm hio
      · cases h

/-- A run that succeeds does so as well with its import options in another order. -/
theorem runOn_reorder_of_code {parts parts' : List Part} (h : Reorders parts parts')
    (hcode : (runOn storage files (line parts)).code = 0) :
    runOn storage files (line parts') = runOn storage files (line parts) := by
  rcases hparse : parse? (line parts) with _ | c
  · simp [runOn, hparse] at hcode
  · rcases hproduct : c.product (storage.read files) with e | p
    · simp [runOn, hparse, hproduct] at hcode
    · obtain ⟨c', hparse', hsame⟩ := parse?_reorder h hparse
      simp only [runOn, hparse, hparse', hproduct, product_reorder hsame hproduct]

/-- A run that prints its product succeeds. -/
theorem code_of_product {c : Command} {text : String} (hparse : parse? args = some c)
    (hproduct : c.product (storage.read files) = .ok ⟨none, text⟩) :
    (runOn storage files args).code = 0 := by
  simp only [runOn, hparse, hproduct]

/-- A run without a product fails. -/
theorem failure_of_product {c : Command} {f : Failure} (hparse : parse? args = some c)
    (hproduct : c.product (storage.read files) = .error f) :
    (runOn storage files args).failure = some f := by
  simp only [runOn, hparse, hproduct]

end Run

/-- The order of the import options does not matter to a run that succeeds. A run that fails
    gives out nothing, unless a file could not be read or written. This is so however files are
    read and written. -/
theorem run_reorder {σ : Type} (storage : Storage σ) (files : σ) {parts parts' : List Part}
    (h : Reorders parts parts') :
    ((runOn storage files (line parts)).code = 0 →
        runOn storage files (line parts') = runOn storage files (line parts)) ∧
      ∀ f, (runOn storage files (line parts)).failure = some f → f ≠ .io →
        (runOn storage files (line parts)).stdout = "" ∧
          (runOn storage files (line parts)).files = files :=
  ⟨runOn_reorder_of_code h, fun _ => nothing_of_failure⟩

/-- A printed schema is read from its file. -/
theorem readSchema_compact {read : String → Option String} {path : String} {s : Schema}
    (h : read path = some s.toJson.compact) (hdepth : s.toJson.depth ≤ Document.nestingLimit) :
    readSchema read path = .ok s := by
  have htext : Schema.ofText? s.toJson.compact = some s := by
    rw [Schema.ofText?_of_parse? (Json.parse?_compact s.integral_toJson), if_pos hdepth]
  rw [readSchema, h]
  simp only [htext]

end Command

/-- The farm, each of its schemas in a file of its own. -/
def Sample.barn : Directory where
  files := (farm (.optional (.named "Hen"))).map fun s => ([s.name], s.toJson.compact)

open Sample

namespace Command

/-- The command to print the plans of the market. -/
def planMarket : Command where
  task := .plan
  input := "market.proto"
  imports := ["poultry.proto", "grain.proto"]
  output := none
  options := {}
  verbose := false

theorem readSchema_market : readSchema barn.read? "market.proto" =
    .ok { name := "market.proto", imports := ["poultry.proto", "grain.proto"] } :=
  readSchema_compact rfl (by decide)

theorem exists_load_planMarket : ∃ s, planMarket.load barn.read? = .ok s := by
  have hpoultry : readSchema barn.read? "poultry.proto"
      = .ok (poultry (.optional (.named "Hen"))) := readSchema_compact rfl (by decide)
  have hgrain : readSchema barn.read? "grain.proto" = .ok { name := "grain.proto" } :=
    readSchema_compact rfl (by decide)
  have himports := mapM_of_forall₂ (.cons hpoultry (.cons hgrain .nil))
  exact ⟨_, bind_eq_ok.2 ⟨_, himports,
    bind_eq_ok.2 ⟨_, rfl, bind_eq_ok.2 ⟨_, readSchema_market, rfl⟩⟩⟩⟩

/-- The market cannot be compiled without its imports. -/
theorem product_planMarket_alone : { planMarket with imports := [] }.product barn.read? =
    .error (.compile (.unresolvedImport "market.proto" "poultry.proto")) := by
  refine bind_eq_error.2 (.inl (bind_eq_error.2 (.inr ⟨[], rfl, ?_⟩)))
  exact bind_eq_error.2 (.inr ⟨.empty, rfl, bind_eq_error.2 (.inr ⟨_, readSchema_market, rfl⟩)⟩)

theorem run_reorder_barn :
    (run barn ["plan", "-i", "market.proto", "--import", "poultry.proto",
        "--import=grain.proto"]).code = 0 ∧
      run barn ["plan", "-i", "market.proto", "--import=grain.proto", "--import", "poultry.proto"]
        = run barn ["plan", "-i", "market.proto", "--import", "poultry.proto",
          "--import=grain.proto"] ∧
      (run barn ["plan", "-i", "market.proto"]).failure =
        some (.compile (.unresolvedImport "market.proto" "poultry.proto")) ∧
      (run barn ["plan", "-i", "market.proto"]).stdout = "" ∧
      (run barn ["plan", "-i", "market.proto"]).files = barn := by
  have hcode : (run barn ["plan", "-i", "market.proto", "--import", "poultry.proto",
      "--import=grain.proto"]).code = 0 := by
    obtain ⟨s, hs⟩ := exists_load_planMarket
    have hparse : parse? ["plan", "-i", "market.proto", "--import", "poultry.proto",
      "--import=grain.proto"] = some planMarket := rfl
    have hproduct : planMarket.product barn.read? = .ok ⟨none, s.planText ++ "\n"⟩ :=
      bind_eq_ok.2 ⟨s, hs, rfl⟩
    exact code_of_product hparse hproduct
  have h : Reorders
      [.argument "plan", .argument "-i", .argument "market.proto",
        .option (.apart "poultry.proto"), .option (.joined "grain.proto")]
      [.argument "plan", .argument "-i", .argument "market.proto",
        .option (.joined "grain.proto"), .option (.apart "poultry.proto")] :=
    ⟨rfl, .swap _ _ _⟩
  have hfailure : (run barn ["plan", "-i", "market.proto"]).failure =
      some (.compile (.unresolvedImport "market.proto" "poultry.proto")) :=
    failure_of_product (c := { planMarket with imports := [] }) rfl product_planMarket_alone
  have halone : Reorders [.argument "plan", .argument "-i", .argument "market.proto"]
      [.argument "plan", .argument "-i", .argument "market.proto"] := ⟨rfl, .nil⟩
  exact ⟨hcode, (run_reorder .directory barn h).1 hcode, hfailure,
    (run_reorder .directory barn halone).2 _ hfailure (by rintro ⟨⟩)⟩

end Command

end Marshal
