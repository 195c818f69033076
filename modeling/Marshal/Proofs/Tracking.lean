import Mathlib.Data.List.Forall2
import Marshal.Proofs.Reading

/-!
# Readings that track each other

One reading *tracks* another if it succeeds wherever the other does, at the same
place, with a value that is related to the other's (`Tracks`). What it does where
the other fails is told by the error, or left open. Both are only looked at from
readers with some property, which readings that succeed have to keep.

Readings that are put together in the same way track each other if their parts do
(`Tracks.bind`, `Tracks.readTimes`, `Tracks.readToEnd`). Inside a frame they need
not stop at the same place (`TracksFrame`, `TracksFrame.within`).
-/

namespace Marshal.Wire

variable {ε ε' σ α α' β β' : Type}

/-- From readers with the property `I`, the second reading does what the first one
    does. Where the first one fails with `e`, the second one fails with `E e`, if
    that is anything. -/
structure Tracks (E : ε → Option ε') (I : Reader → Prop) (Q : α → β → Prop) (m : Reading ε α)
    (n : Reading ε' β) : Prop where
  ok : ∀ {r a r'}, I r → m r = .ok a r' → I r' ∧ ∃ b, n r = .ok b r' ∧ Q a b
  error : ∀ {r e r' e'}, I r → m r = .error e r' → E e = some e' → ∃ r'', n r = .error e' r''

/-- The same of readings that have a frame to themselves, wherever they stop. -/
structure TracksFrame (E : ε → Option ε') (I : Reader → Prop) (Q : α → β → Prop)
    (m : Reading ε α) (n : Reading ε' β) : Prop where
  ok : ∀ {r a r'}, I r → m r = .ok a r' → ∃ b r'', n r = .ok b r'' ∧ Q a b
  error : ∀ {r e r' e'}, I r → m r = .error e r' → E e = some e' → ∃ r'', n r = .error e' r''

/-! ## Results -/

/-- Two readings in a row succeed only if both do. -/
theorem exists_of_bind_ok {m : EStateM ε σ α} {f : α → EStateM ε σ β} {r r' : σ} {b : β}
    (h : (m >>= f) r = .ok b r') : ∃ a r₁, m r = .ok a r₁ ∧ f a r₁ = .ok b r' := by
  cases hm : m r with
  | ok a r₁ => exact ⟨a, r₁, rfl, (bind_of_ok hm).symm.trans h⟩
  | error e r₁ => cases (bind_of_error hm).symm.trans h

/-- Two readings in a row fail where the first one does, or where the second one does after it. -/
theorem or_of_bind_error {m : EStateM ε σ α} {f : α → EStateM ε σ β} {r r' : σ} {e : ε}
    (h : (m >>= f) r = .error e r') :
    m r = .error e r' ∨ ∃ a r₁, m r = .ok a r₁ ∧ f a r₁ = .error e r' := by
  cases hm : m r with
  | ok a r₁ => exact .inr ⟨a, r₁, rfl, (bind_of_ok hm).symm.trans h⟩
  | error e₁ r₁ =>
    cases (bind_of_error hm).symm.trans h
    exact .inl rfl

variable {E : ε → Option ε'} {I : Reader → Prop} {P : α → α' → Prop} {Q : β → β' → Prop}
  {m : Reading ε α} {m' : Reading ε' α'}

/-! ## One after the other -/

namespace Tracks

/-- What reads nothing tracks itself with a related value. -/
theorem pure {a : α} {a' : α'} (h : P a a') :
    Tracks E I P (Pure.pure a : Reading ε α) (Pure.pure a' : Reading ε' α') where
  ok hr h' := by
    cases h'
    exact ⟨hr, a', rfl, h⟩
  error _ h' := nomatch h'

/-- Where readings in a row fail, so do readings in a row that do what their parts do. -/
theorem exists_error_of_bind {f : α → Reading ε β} {f' : α' → Reading ε' β'}
    (hm : Tracks E I P m m')
    (hf : ∀ a a', P a a' → ∀ {r e r' e'}, I r → f a r = .error e r' → E e = some e' →
      ∃ r'', f' a' r = .error e' r'') {r r' : Reader} {e : ε} {e' : ε'} (hr : I r)
    (h : (m >>= f) r = .error e r') (he : E e = some e') :
    ∃ r'', (m' >>= f') r = .error e' r'' := by
  -- The first part fails, or it gives a value with which the second one fails.
  rcases or_of_bind_error h with h | ⟨a, r₁, ha, hb⟩
  · obtain ⟨r'', hr''⟩ := hm.error hr h he
    exact ⟨r'', bind_of_error hr''⟩
  · obtain ⟨hr₁, a', ha', hP⟩ := hm.ok hr ha
    obtain ⟨r'', hr''⟩ := hf a a' hP hr₁ hb he
    exact ⟨r'', (bind_of_ok ha').trans hr''⟩

/-- Readings in a row track each other if both parts do. -/
theorem bind {f : α → Reading ε β} {f' : α' → Reading ε' β'} (hm : Tracks E I P m m')
    (hf : ∀ a a', P a a' → Tracks E I Q (f a) (f' a')) : Tracks E I Q (m >>= f) (m' >>= f') where
  ok hr h := by
    obtain ⟨a, r₁, ha, hb⟩ := exists_of_bind_ok h
    obtain ⟨hr₁, a', ha', hP⟩ := hm.ok hr ha
    obtain ⟨hr', b', hb', hQ⟩ := (hf a a' hP).ok hr₁ hb
    exact ⟨hr', b', (bind_of_ok ha').trans hb', hQ⟩
  error hr h he := hm.exists_error_of_bind (fun a a' hP => (hf a a' hP).error) hr h he

/-- A reading tracks itself where it succeeds. -/
theorem refl : Tracks (fun _ : ε => (none : Option ε)) (fun _ => True) Eq m m where
  ok _ ha := ⟨trivial, _, ha, rfl⟩
  error _ _ he := nomatch he

/-- The relation may be weakened. -/
theorem mono {P' : α → α' → Prop} (hm : Tracks E I P m m') (h : ∀ a a', P a a' → P' a a') :
    Tracks E I P' m m' where
  ok hr ha := by
    obtain ⟨hr', a', ha', hP⟩ := hm.ok hr ha
    exact ⟨hr', a', ha', h _ a' hP⟩
  error := hm.error

/-- What is made of the values has to be related. -/
theorem map {f : α → β} {f' : α' → β'} (hm : Tracks E I P m m')
    (h : ∀ a a', P a a' → Q (f a) (f' a')) : Tracks E I Q (f <$> m) (f' <$> m') :=
  hm.bind fun a a' hP => .pure (h a a' hP)

theorem map_right {g : α' → β'} {Q : α → β' → Prop} (hm : Tracks E I P m m')
    (h : ∀ a a', P a a' → Q a (g a')) : Tracks E I Q m (g <$> m') where
  ok hr ha := by
    obtain ⟨hr', a', ha', hP⟩ := hm.ok hr ha
    exact ⟨hr', g a', map_of_ok ha', h _ a' hP⟩
  error hr ha he := by
    obtain ⟨r', hr'⟩ := hm.error hr ha he
    exact ⟨r', map_of_error hr'⟩

/-- Readings may depend on the reader as a whole. -/
theorem ofReader (f : Reader → Reading ε β) (f' : Reader → Reading ε' β')
    (h : ∀ r, I r → Tracks E I Q (f r) (f' r)) :
    Tracks E I Q (fun r => f r r) (fun r => f' r r) where
  ok hr := (h _ hr).ok hr
  error hr := (h _ hr).error hr

/-- Where readings stop does not matter for a frame. -/
theorem frame (hm : Tracks E I P m m') : TracksFrame E I P m m' where
  ok hr ha := by
    obtain ⟨_, a', ha', hP⟩ := hm.ok hr ha
    exact ⟨a', _, ha', hP⟩
  error := hm.error

/-! ## Sequences -/

/-- Reading a fixed number of times gives lists that are related element by element. -/
theorem readTimes (hm : Tracks E I P m m') (count : Nat) :
    Tracks E I (List.Forall₂ P) (readTimes m count) (readTimes m' count) := by
  induction count with
  | zero => exact .pure .nil
  | succ count ih => exact hm.bind fun _ _ ha => ih.map fun _ _ has => .cons ha has

/-- So does reading up to the end, a bounded number of times. -/
theorem readBounded (hm : Tracks E I P m m') (bound : Nat) :
    Tracks E I (List.Forall₂ P) (readBounded m bound) (readBounded m' bound) := by
  induction bound with
  | zero => exact .pure .nil
  | succ bound ih =>
    -- Both readings are at the end at the same time, since they have stopped at the same places.
    refine ofReader (fun r => if r.atEnd then Pure.pure [] else _)
      (fun r => if r.atEnd then Pure.pure [] else _) fun r _ => ?_
    split
    · exact .pure .nil
    · exact hm.bind fun _ _ ha => ih.map fun _ _ has => .cons ha has

theorem readToEnd (hm : Tracks E I P m m') :
    Tracks E I (List.Forall₂ P) (readToEnd m) (readToEnd m') :=
  ofReader (fun r => Wire.readBounded m r.remaining) (fun r => Wire.readBounded m' r.remaining)
    fun r _ => hm.readBounded r.remaining

end Tracks

/-! ## Frames -/

/-- What has the rest of a frame to itself comes last in it. -/
theorem Tracks.bind_frame {f : α → Reading ε β} {f' : α' → Reading ε' β'} (hm : Tracks E I P m m')
    (hf : ∀ a a', P a a' → TracksFrame E I Q (f a) (f' a')) :
    TracksFrame E I Q (m >>= f) (m' >>= f') where
  ok hr h := by
    obtain ⟨a, r₁, ha, hb⟩ := exists_of_bind_ok h
    obtain ⟨hr₁, a', ha', hP⟩ := hm.ok hr ha
    obtain ⟨b', r', hb', hQ⟩ := (hf a a' hP).ok hr₁ hb
    exact ⟨b', r', (bind_of_ok ha').trans hb', hQ⟩
  error hr h he := hm.exists_error_of_bind (fun a a' hP => (hf a a' hP).error) hr h he

namespace TracksFrame

theorem map {f : α → β} {f' : α' → β'} (hm : TracksFrame E I P m m')
    (h : ∀ a a', P a a' → Q (f a) (f' a')) : TracksFrame E I Q (f <$> m) (f' <$> m') where
  ok hr hb := by
    obtain ⟨a, r₁, ha, hb⟩ := exists_of_bind_ok hb
    obtain ⟨a', r', ha', hP⟩ := hm.ok hr ha
    cases hb
    exact ⟨f' a', r', map_of_ok ha', h a a' hP⟩
  error hr hb he := by
    -- What is made of the value cannot fail.
    rcases or_of_bind_error hb with hb | ⟨a, r₁, _, hb⟩
    · obtain ⟨r', hr'⟩ := hm.error hr hb he
      exact ⟨r', map_of_error hr'⟩
    · cases hb

/-- Inside a frame readings may stop at different places. -/
theorem within {I' : Reader → Prop} (hm : TracksFrame E I' P m m') {frame : Reader}
    (hframe : I' frame) : Tracks E I P (within frame m) (within frame m') where
  ok {r a r'} hr h := by
    rw [Wire.within] at h
    split at h
    · rename_i a₁ r₁ ha
      cases h
      obtain ⟨a', r₂, ha', hP⟩ := hm.ok hframe ha
      exact ⟨hr, a', by rw [Wire.within, ha'], hP⟩
    · cases h
  error {r e r' e'} hr h he := by
    rw [Wire.within] at h
    split at h
    · cases h
    · rename_i e₁ r₁ ha
      cases h
      obtain ⟨r₂, ha'⟩ := hm.error hframe ha he
      exact ⟨r, by rw [Wire.within, ha']⟩

end TracksFrame

end Marshal.Wire
