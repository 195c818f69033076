import Marshal.Proofs.Programs
import Marshal.Proofs.Scanning

/-!
# What generated decoders read

The code that is generated for a message and the plan of the message make the same
readings in the same order. So running the code *mirrors* reading by the plan
(`Mirrors`): from states that are related, it stops with the same error of the wire, or
both go on in states that are related again. This is a relation between two programs,
with rules for the ways to put them together (`Mirrors.bind`, `mirrors_times`,
`mirrors_untilEnd`), and it is proved layer by layer:

* `mirrors_readValue`: an expression reads a value;
* `mirrors_decodeField`, `mirrors_skipField`: a statement reads a field, by its shape, or
  goes past it;
* `mirrors_steps`: the statements of a decoder read the fields of a message, up to where
  the bytes end;
* `mirrors_readStruct`: a decoder reads a message, by induction on the levels of nesting.
-/

namespace Marshal

open Wire Value CompiledSchema Code Exec

variable {σ ε α β γ δ : Type}

/-! ## Mirroring -/

/-- Running code from a state mirrors reading from a reader, if the two are related. Where
    reading fails, it does so with an error of the wire. -/
structure Mirrors (stop : Wire.Error → ε) (pre : σ → Reader → Prop) (x : EStateM ε σ α)
    (n : Decoding β) (post : α → β → σ → Reader → Prop) : Prop where
  ok : ∀ {l r b r'}, pre l r → n r = .ok b r' → ∃ a l', x l = .ok a l' ∧ post a b l' r'
  error : ∀ {l r e r'}, pre l r → n r = .error e r' →
    ∃ e' l', e = .wire e' ∧ x l = .error (stop e') l'

namespace Mirrors

variable {stop : Wire.Error → ε} {pre : σ → Reader → Prop} {x : EStateM ε σ α} {n : Decoding β}
  {mid post : α → β → σ → Reader → Prop} {post' : γ → δ → σ → Reader → Prop}

/-- Code may be run where nothing is read. -/
theorem of_run {b : β} (h : ∀ l r, pre l r → ∃ a l', x l = .ok a l' ∧ post a b l' r) :
    Mirrors stop pre x (Pure.pure b : Decoding β) post where
  ok {l r _ _} hpre hb := by
    cases hb
    exact h l r hpre
  error _ hb := nomatch hb

theorem pure {a : α} {b : β} (h : ∀ l r, pre l r → post a b l r) :
    Mirrors stop pre (Pure.pure a : EStateM ε σ α) (Pure.pure b : Decoding β) post :=
  of_run fun l r hpre => ⟨a, l, rfl, h l r hpre⟩

/-- Readings in a row mirror each other if both parts do. -/
theorem bind {f : α → EStateM ε σ γ} {g : β → Decoding δ} (hx : Mirrors stop pre x n mid)
    (hf : ∀ a b, Mirrors stop (mid a b) (f a) (g b) post') :
    Mirrors stop pre (x >>= f) (n >>= g) post' where
  ok hpre hd := by
    obtain ⟨b, r₁, hb, hd⟩ := exists_of_bind_ok hd
    obtain ⟨a, l₁, ha, hmid⟩ := hx.ok hpre hb
    obtain ⟨c, l₂, hc, hpost⟩ := (hf a b).ok hmid hd
    exact ⟨c, l₂, (bind_of_ok ha).trans hc, hpost⟩
  error hpre hd := by
    rcases or_of_bind_error hd with hb | ⟨b, r₁, hb, hd⟩
    · obtain ⟨e', l', rfl, ha⟩ := hx.error hpre hb
      exact ⟨e', l', rfl, bind_of_error ha⟩
    · obtain ⟨a, l₁, ha, hmid⟩ := hx.ok hpre hb
      obtain ⟨e', l', rfl, hc⟩ := (hf a b).error hmid hd
      exact ⟨e', l', rfl, (bind_of_ok ha).trans hc⟩

/-- What is needed before may be strengthened, and what is known after weakened. -/
theorem mono {pre' : σ → Reader → Prop} (hx : Mirrors stop pre x n mid)
    (hpre : ∀ l r, pre' l r → pre l r) (hpost : ∀ a b l r, mid a b l r → post a b l r) :
    Mirrors stop pre' x n post where
  ok h hb := by
    obtain ⟨a, l', ha, hmid⟩ := hx.ok (hpre _ _ h) hb
    exact ⟨a, l', ha, hpost _ _ _ _ hmid⟩
  error h := hx.error (hpre _ _ h)

theorem map {f : α → γ} {g : β → δ} (hx : Mirrors stop pre x n mid)
    (h : ∀ a b l r, mid a b l r → post' (f a) (g b) l r) :
    Mirrors stop pre (f <$> x) (g <$> n) post' :=
  hx.bind fun a b => .pure (h a b)

theorem map_right {g : β → δ} {post' : α → δ → σ → Reader → Prop} (hx : Mirrors stop pre x n mid)
    (h : ∀ a b l r, mid a b l r → post' a (g b) l r) : Mirrors stop pre x (g <$> n) post' where
  ok hpre hd := by
    obtain ⟨b, r₁, hb, hd⟩ := exists_of_bind_ok hd
    cases hd
    obtain ⟨a, l', ha, hmid⟩ := hx.ok hpre hb
    exact ⟨a, l', ha, h _ _ _ _ hmid⟩
  error hpre hd := by
    rcases or_of_bind_error hd with hb | ⟨b, r₁, -, hd⟩
    · exact hx.error hpre hb
    · cases hd

/-- After reading, code may go on without reading. -/
theorem bind_left {f : α → EStateM ε σ γ} {post' : γ → β → σ → Reader → Prop}
    (hx : Mirrors stop pre x n mid)
    (hf : ∀ a b l r, mid a b l r → ∃ c l', f a l = .ok c l' ∧ post' c b l' r) :
    Mirrors stop pre (x >>= f) n post' where
  ok hpre hb := by
    obtain ⟨a, l', ha, hmid⟩ := hx.ok hpre hb
    obtain ⟨c, l'', hc, hpost⟩ := hf _ _ _ _ hmid
    exact ⟨c, l'', (bind_of_ok ha).trans hc, hpost⟩
  error hpre hb := by
    obtain ⟨e', l', rfl, ha⟩ := hx.error hpre hb
    exact ⟨e', l', rfl, bind_of_error ha⟩

/-- What is needed before may be known for some parameter. -/
theorem ofExists {ι : Type} {pre : ι → σ → Reader → Prop}
    (h : ∀ i, Mirrors stop (pre i) x n post) :
    Mirrors stop (fun l r => ∃ i, pre i l r) x n post where
  ok := fun ⟨i, hpre⟩ => (h i).ok hpre
  error := fun ⟨i, hpre⟩ => (h i).error hpre

/-- What is known besides the states may be used. -/
theorem ofPre {P : Prop} (h : P → Mirrors stop pre x n post) :
    Mirrors stop (fun l r => pre l r ∧ P) x n post where
  ok hpre := (h hpre.2).ok hpre.1
  error hpre := (h hpre.2).error hpre.1

/-- What is done may depend on the states that it is done from. -/
theorem congr {x' : EStateM ε σ α} {n' : Decoding β} (hx : Mirrors stop pre x' n' post)
    (h : ∀ l r, pre l r → x l = x' l ∧ n r = n' r) : Mirrors stop pre x n post where
  ok {l r _ _} hpre hb := by
    obtain ⟨hl, hr⟩ := h l r hpre
    rw [hl]
    exact hx.ok hpre (hr ▸ hb)
  error {l r _ _} hpre hb := by
    obtain ⟨hl, hr⟩ := h l r hpre
    rw [hl]
    exact hx.error hpre (hr ▸ hb)

end Mirrors

/-! ## The wire -/

section Wire

variable {d : Nat} {m : WireReading α} {P : α → Prop}

end Wire

/-! ## Buffers -/

/-- How code stops with an error of the wire. -/
def stopped (e : Wire.Error) : Halt := .stopped (.wire e)

/-- The state in which a buffer is at a place: while a frame is read, the other buffer is
    past it. -/
def Code.Buffer.locals : Buffer → (outer r : Reader) → List (String × Datum) → Locals
  | .bb, _, r, message => ⟨r, none, message⟩
  | .frame, outer, r, message => ⟨outer, some r, message⟩

/-- The buffer is at the same place, and the message has these fields. -/
def AtPlace (depth : Nat) (buf : Buffer) (outer : Reader) (message : List (String × Datum))
    (l : Locals) (r : Reader) : Prop :=
  l = buf.locals outer r message ∧ r.depth = depth

section Buffers

variable {d : Nat} {buf : Buffer} {outer : Reader} {message : List (String × Datum)}

end Buffers

/-! ## Values -/

/-- Whether keys, where there are any, are numbers or truth values. -/
def Shape.hasScalarKeys : Shape → Bool
  | .map (.scalar _) _ _ => true
  | .map _ _ _ => false
  | _ => true

/-- All maps of the schema, and of its imports, have numbers or truth values for keys. -/
inductive CompiledSchema.ScalarKeys : CompiledSchema → Prop
  | intro {s : CompiledSchema} :
    (∀ p ∈ s.messages, ∀ step ∈ p.steps, step.shape.hasScalarKeys = true) →
    (∀ c ∈ s.imports, ScalarKeys c) → ScalarKeys s

theorem CompiledSchema.ScalarKeys.scalar {s : CompiledSchema} (h : s.ScalarKeys) {p : MessagePlan}
    (hp : p ∈ s.messages) {step : Step} (hstep : step ∈ p.steps) {k v : ValueStep} {e : Extent}
    (hshape : step.shape = .map k v e) : ∃ q, k = .scalar q := by
  obtain ⟨hkeys, -⟩ := h
  have hk := hkeys p hp step hstep
  rw [hshape] at hk
  cases k with
  | scalar q => exact ⟨q, rfl⟩
  | enum id | nested id => cases hk

/-- The keys of imports are scalars too. -/
theorem CompiledSchema.ScalarKeys.of_owner? {s owner : CompiledSchema} (h : s.ScalarKeys)
    {origin : Origin} (ho : s.owner? origin = some owner) : owner.ScalarKeys := by
  cases origin with
  | own =>
    cases Option.some.inj ho
    exact h
  | imported i =>
    obtain ⟨-, himports⟩ := h
    exact himports owner (List.mem_of_getElem? ho)

section Values

variable {s : CompiledSchema} {prog : Program} {p : MessagePlan} {step : Step} {v : ValueStep}
  {levels d : Nat} {buf : Buffer} {outer : Reader} {message : List (String × Datum)}
  {e : ReadExpr}

end Values

/-! ## Loops -/

section Loops

variable {body : Exec Unit} {n : Decoding β} {J : List β → Locals → Reader → Prop}

end Loops

/-! ## Fields -/

/-- The buffer is at the same place, and among the fields of the message is one of which
    something holds. -/
def FieldAt (depth : Nat) (buf : Buffer) (outer : Reader) (done : List (String × Datum))
    (name : String) (rest : List (String × Datum)) (Q : Datum → Prop) (l : Locals) (r : Reader) :
    Prop :=
  ∃ x, AtPlace depth buf outer (done ++ (name, x) :: rest) l r ∧ Q x

section Fields

variable {done rest : List (String × Datum)} {name : String} {d : Nat} {buf : Buffer}
  {outer : Reader}

/-- The field that is changed is the first one of its name. -/
theorem changeField_append (hname : name ∉ done.map (·.1)) {f : Datum → Option Datum}
    {x y : Datum} (hy : f x = some y) :
    changeField name f (done ++ (name, x) :: rest) = some (done ++ (name, y) :: rest) := by
  induction done with
  | nil => rw [List.nil_append, changeField, if_pos rfl, hy]; rfl
  | cons first done ih =>
    rw [List.map_cons, List.mem_cons, not_or] at hname
    rw [List.cons_append, changeField, if_neg (Ne.symm hname.1), ih hname.2]
    rfl

/-- Changing a field leaves the buffers as they are. -/
theorem change_locals (hname : name ∉ done.map (·.1)) {f : Datum → Option Datum} {x y : Datum}
    (hy : f x = some y) (r : Reader) :
    change name f (buf.locals outer r (done ++ (name, x) :: rest)) =
      .ok () (buf.locals outer r (done ++ (name, y) :: rest)) := by
  cases buf with
  | bb | frame =>
    rw [change, Buffer.locals, changeField_append hname hy]
    rfl

/-- A field may be changed after a value has been read for it. -/
theorem Mirrors.change {x : Exec α} {n : Decoding β} {Q : Datum → Prop}
    {P : α → β → Prop} (hname : name ∉ done.map (·.1))
    (hx : ∀ message, Mirrors stopped (AtPlace d buf outer message) x n
      fun a b l r => AtPlace d buf outer message l r ∧ P a b)
    {f : α → Datum → Option Datum} {Q' : β → Datum → Prop}
    (hf : ∀ a b d₀, Q d₀ → P a b → ∃ d₁, f a d₀ = some d₁ ∧ Q' b d₁) :
    Mirrors stopped (FieldAt d buf outer done name rest Q) (x >>= fun a => Exec.change name (f a)) n
      fun _ b => FieldAt d buf outer done name rest (Q' b) := by
  refine .ofExists fun d₀ => .ofPre fun hQ => (hx _).bind_left ?_
  rintro a b _ r ⟨⟨rfl, hd⟩, hP⟩
  obtain ⟨d₁, hd₁, hQ'⟩ := hf a b d₀ hQ hP
  exact ⟨(), _, change_locals hname hd₁ r, d₁, ⟨rfl, hd⟩, hQ'⟩

/-! ### Sequences -/

variable {struct : Program → StructCode → Reading Stop Datum} {prog : Program}

variable {s : CompiledSchema} {p : MessagePlan} {step : Step} {levels : Nat} {k v : ValueStep}

/-- An entry is inserted at the same place on both sides. -/
theorem MapSoFar.insert {ws : List (Value × Value)} {entries : List (Int × Datum × Datum)}
    (h : List.Forall₂ (MatchesEntry s k v) entries (Ascending.ofPairs (placed ws)))
    {kd vd : Datum} {kw vw : Value} (hplace : kw.sortMaps.ordinal = kd.ordinal)
    (hk : Matches s k kd kw) (hv : Matches s v vd vw) :
    List.Forall₂ (MatchesEntry s k v) (Ascending.insert kd.ordinal (kd, vd) entries)
      (Ascending.ofPairs (placed (ws ++ [(kw, vw)]))) := by
  obtain ⟨kb, hkb, hkw⟩ := hk
  obtain ⟨vb, hvb, hvw⟩ := hv
  have hentry : MatchesEntry s k v (kd.ordinal, kd, vd)
      (kw.sortMaps.ordinal, kw.sortMaps, vw.sortMaps) :=
    ⟨hplace, kb ++ vb, ⟨kb, vb, hkb, hvb, rfl⟩, kb, vb, hkw, hvw, rfl⟩
  rw [placed_append, Ascending.ofPairs_append]
  exact Ascending.forall₂_insert (fun _ _ he => he.1) hentry h

end Fields

/-! ## Messages -/

/-- What is run up to a return may return early. -/
theorem Mirrors.upToReturn {pre : Locals → Reader → Prop} {x : Exec α} {n : Decoding β}
    {mid : α → β → Locals → Reader → Prop} {f : α → Exec Unit} {g : β → Decoding δ}
    {post : Unit → δ → Locals → Reader → Prop} (hx : Mirrors stopped pre x n mid)
    (hf : ∀ a b, Mirrors .wire (mid a b) (Exec.upToReturn (f a)) (g b) post) :
    Mirrors .wire pre (Exec.upToReturn (x >>= f)) (n >>= g) post where
  ok hpre hd := by
    obtain ⟨b, r₁, hb, hd⟩ := exists_of_bind_ok hd
    obtain ⟨a, l₁, ha, hmid⟩ := hx.ok hpre hb
    obtain ⟨c, l₂, hc, hpost⟩ := (hf a b).ok hmid hd
    exact ⟨c, l₂, by rw [Exec.upToReturn, bind_of_ok ha]; exact hc, hpost⟩
  error hpre hd := by
    rcases or_of_bind_error hd with hb | ⟨b, r₁, hb, hd⟩
    · obtain ⟨e', l', rfl, ha⟩ := hx.error hpre hb
      exact ⟨e', l', rfl, by rw [Exec.upToReturn, bind_of_error ha]; rfl⟩
    · obtain ⟨a, l₁, ha, hmid⟩ := hx.ok hpre hb
      obtain ⟨e', l', rfl, hc⟩ := (hf a b).error hmid hd
      exact ⟨e', l', rfl, by rw [Exec.upToReturn, bind_of_ok ha]; exact hc⟩

section Messages

variable {s : CompiledSchema} {prog : Program} {p : MessagePlan} {levels d : Nat} {outer : Reader}

variable {step : Step} {done rest : List (String × Datum)} {x : Datum} {stmt : ReadStmt}

section Struct

variable {code : StructCode} {ds : List (String × Datum)} {r : Reader} {l : Locals} {e : Stop}

end Struct

end Messages

end Marshal
