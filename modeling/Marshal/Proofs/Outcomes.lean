import Mathlib.Data.List.Perm.Basic

/-!
# Computations that succeed or fail

What can be told from the outcome of a computation that is put together from others:
one after the other (`bind_eq_ok`, `bind_eq_error`), or one for every element of a list
(`mapM_eq_ok`, `exists_of_mapM_error`, `forM_eq_ok`, `exists_of_foldlM_error`).
-/

namespace Marshal

variable {ε α β γ σ : Type}

/-! ## One after the other -/

/-- Two computations in a row succeed if both do. -/
theorem bind_eq_ok {x : Except ε α} {f : α → Except ε β} {b : β} :
    x >>= f = .ok b ↔ ∃ a, x = .ok a ∧ f a = .ok b := by
  cases x with
  | error e => exact ⟨(nomatch ·), fun ⟨_, h, _⟩ => nomatch h⟩
  | ok a => exact ⟨fun h => ⟨a, rfl, h⟩, fun ⟨_, h, h'⟩ => Except.ok.inj h ▸ h'⟩

/-- Two computations in a row fail where the first one does, or where the second one does
    after it. -/
theorem bind_eq_error {x : Except ε α} {f : α → Except ε β} {e : ε} :
    x >>= f = .error e ↔ x = .error e ∨ ∃ a, x = .ok a ∧ f a = .error e := by
  cases x with
  | error e' => exact ⟨fun h => .inl (by cases h; rfl), by rintro (h | ⟨_, h, _⟩) <;> cases h; rfl⟩
  | ok a => exact ⟨fun h => .inr ⟨a, rfl, h⟩, by rintro (h | ⟨_, h, h'⟩) <;> cases h; exact h'⟩

theorem exists_ok_bind {x : Except ε α} {f : α → Except ε β} (hx : ∃ a, x = .ok a)
    (hf : ∀ a, ∃ b, f a = .ok b) : ∃ b, x >>= f = .ok b := by
  obtain ⟨a, rfl⟩ := hx
  exact hf a

/-- If what follows succeeds in any case, errors are those of the first part. -/
theorem bind_eq_error_iff {x : Except ε α} {f : α → Except ε β} {e : ε}
    (hf : ∀ a, ∃ b, f a = .ok b) : x >>= f = .error e ↔ x = .error e := by
  refine ⟨fun h => ?_, fun h => bind_eq_error.2 (.inl h)⟩
  rcases bind_eq_error.1 h with h | ⟨a, -, h⟩
  · exact h
  · obtain ⟨b, hb⟩ := hf a
    cases hb.symm.trans h

/-- What is made of a result is there if the result is. -/
theorem map_eq_ok {x : Except ε α} {f : α → β} {b : β} :
    f <$> x = .ok b ↔ ∃ a, x = .ok a ∧ f a = b := by
  cases x with
  | error e => exact ⟨(nomatch ·), fun ⟨_, h, _⟩ => nomatch h⟩
  | ok a => exact ⟨fun h => ⟨a, rfl, Except.ok.inj h⟩, fun ⟨_, h, h'⟩ => h' ▸ Except.ok.inj h ▸ rfl⟩

theorem map_eq_error {x : Except ε α} {f : α → β} {e : ε} :
    f <$> x = .error e ↔ x = .error e := by
  cases x with
  | error e' => exact ⟨fun h => by cases h; rfl, fun h => by cases h; rfl⟩
  | ok a => exact ⟨(nomatch ·), (nomatch ·)⟩

theorem exists_ok_map {x : Except ε α} (f : α → β) (hx : ∃ a, x = .ok a) : ∃ b, f <$> x = .ok b :=
  exists_ok_bind hx fun _ => ⟨_, rfl⟩

theorem toOption_eq_some {x : Except ε α} {a : α} : x.toOption = some a ↔ x = .ok a := by
  rcases x with _ | _ <;> simp [Except.toOption]

/-- Two checks, one after the other, succeed if both do. -/
theorem seq_eq_ok_iff {x y : Except ε Unit} :
    (x >>= fun _ => y) = .ok () ↔ x = .ok () ∧ y = .ok () := by
  rcases x with e | _
  · exact ⟨(nomatch ·), (nomatch ·.1)⟩
  · exact (and_iff_right rfl).symm

/-! ## For every element of a list -/

section Lists

variable {f : α → Except ε β} {l : List α} {l' : List β}

/-- Results are those of the elements one by one. -/
theorem mapM_eq_ok (h : l.mapM f = .ok l') : List.Forall₂ (fun a b => f a = .ok b) l l' := by
  induction l generalizing l' with
  | nil =>
    cases Except.ok.inj h
    exact .nil
  | cons a l ih =>
    rw [List.mapM_cons] at h
    obtain ⟨b, hb, h⟩ := bind_eq_ok.1 h
    obtain ⟨bs, hbs, h⟩ := bind_eq_ok.1 h
    cases Except.ok.inj h
    exact .cons hb (ih hbs)

/-- A computation for each element succeeds if it does for each of them. -/
theorem mapM_of_forall₂ (h : List.Forall₂ (fun a b => f a = .ok b) l l') : l.mapM f = .ok l' := by
  induction h with
  | nil => rfl
  | cons ha _ ih => rw [List.mapM_cons, ha, ih]; rfl

/-- Every result is that of an element. -/
theorem exists_of_mem_mapM (h : l.mapM f = .ok l') {b : β} (hb : b ∈ l') :
    ∃ a ∈ l, f a = .ok b := by
  replace h := mapM_eq_ok h
  induction h with
  | nil => exact absurd hb List.not_mem_nil
  | @cons a b' _ _ hab _ ih =>
    rcases List.mem_cons.1 hb with rfl | hb
    · exact ⟨a, List.mem_cons_self, hab⟩
    · obtain ⟨a', ha', hab'⟩ := ih hb
      exact ⟨a', List.mem_cons_of_mem _ ha', hab'⟩

/-- A failure is that of some element. -/
theorem exists_of_mapM_error {e : ε} (h : l.mapM f = .error e) : ∃ a ∈ l, f a = .error e := by
  induction l with
  | nil => cases h
  | cons a l ih =>
    rw [List.mapM_cons] at h
    rcases bind_eq_error.1 h with h | ⟨b, _, h⟩
    · exact ⟨a, List.mem_cons_self, h⟩
    · rcases bind_eq_error.1 h with h | ⟨bs, _, h⟩
      · obtain ⟨a', ha', he⟩ := ih h
        exact ⟨a', List.mem_cons_of_mem _ ha', he⟩
      · cases h

/-- A computation for each element succeeds if it can for each of them. -/
theorem exists_ok_mapM (h : ∀ a ∈ l, ∃ b, f a = .ok b) : ∃ bs, l.mapM f = .ok bs := by
  cases hl : l.mapM f with
  | ok bs => exact ⟨bs, rfl⟩
  | error e =>
    obtain ⟨a, ha, he⟩ := exists_of_mapM_error hl
    obtain ⟨b, hb⟩ := h a ha
    cases hb.symm.trans he

/-- In another order, the results are in another order. -/
theorem mapM_perm {l₁ l₂ : List α} (h : l₁.Perm l₂) (hr : l₁.mapM f = .ok l') :
    ∃ r, l₂.mapM f = .ok r ∧ l'.Perm r := by
  obtain ⟨r, hr', hperm⟩ := List.perm_comp_forall₂ h.symm (mapM_eq_ok hr)
  exact ⟨r, mapM_of_forall₂ hr', hperm.symm⟩

/-- Computations whose results correspond as lists correspond for each element. -/
theorem exists_of_mapM_map {g : α → Except ε γ} {r : β → γ} {bs : List β}
    (hf : l.mapM f = .ok bs) (hg : l.mapM g = .ok (bs.map r)) :
    ∀ a ∈ l, ∃ b, f a = .ok b ∧ g a = .ok (r b) := by
  replace hf := mapM_eq_ok hf
  replace hg := List.forall₂_map_right_iff.1 (mapM_eq_ok hg)
  induction hf with
  | nil => simp
  | cons hb _ ih =>
    cases hg with
    | cons hc hg => exact List.forall_mem_cons.2 ⟨⟨_, hb, hc⟩, ih hg⟩

/-- Checking each element succeeds if all of them pass. -/
theorem forM_eq_ok {f : α → Except ε Unit} : l.forM f = .ok () ↔ ∀ a ∈ l, f a = .ok () := by
  induction l with
  | nil => simp [pure, Except.pure]
  | cons a l ih =>
    rw [List.forM_eq_forM] at ih ⊢
    rw [List.forM_cons, bind_eq_ok, List.forall_mem_cons, ← ih]
    exact ⟨fun ⟨_, ha, hl⟩ => ⟨ha, hl⟩, fun ⟨ha, hl⟩ => ⟨(), ha, hl⟩⟩

/-- A loop that fails has gone through some elements before the one that it fails at. -/
theorem exists_of_foldlM_error {f : σ → α → Except ε σ} {init : σ} {e : ε}
    (h : l.foldlM f init = .error e) :
    ∃ before a after state, l = before ++ a :: after ∧ before.foldlM f init = .ok state ∧
      f state a = .error e := by
  induction l generalizing init with
  | nil => cases h
  | cons a l ih =>
    rw [List.foldlM_cons] at h
    rcases bind_eq_error.1 h with h | ⟨state, hstate, h⟩
    · exact ⟨[], a, l, init, rfl, rfl, h⟩
    · obtain ⟨before, b, after, state', rfl, hbefore, hb⟩ := ih h
      exact ⟨a :: before, b, after, state', rfl, bind_eq_ok.2 ⟨state, hstate, hbefore⟩, hb⟩

end Lists

end Marshal
