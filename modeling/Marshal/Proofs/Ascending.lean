import Mathlib.Data.List.Forall2
import Mathlib.Data.List.Induction
import Mathlib.Data.List.Sort
import Mathlib.Tactic.Tauto
import Marshal.Ascending

/-!
# Ascending lists as maps

Putting pairs into an ascending list one after the other (`insertAll`, of which
`ofPairs` starts with the empty list) depends on the order of the keys alone:

* `forall₂_ofPairs`: pairs may be changed one by one, as long as their keys stay;
* `perm_ofPairs`: pairs with different keys are only put in another order;
* `sorted_ofPairs`, `mem_ofPairs`: the keys are ascending, and of pairs with the same
  key the last one stays, so that
* `restrict_ofPairs`: keys may be left out before or after.
-/

namespace Marshal.Ascending

variable {κ α β : Type} [LT κ] [DecidableLT κ] [DecidableEq κ]

/-- The list with the pairs put into it, one after the other. -/
def insertAll (pairs l : List (κ × α)) : List (κ × α) :=
  pairs.foldl (fun l (k, v) => insert k v l) l

theorem ofPairs_append (l l' : List (κ × α)) : ofPairs (l ++ l') = insertAll l' (ofPairs l) := by
  rw [ofPairs, ofPairs, insertAll, List.foldl_append]

/-! ## Related lists -/

section Related

variable {R : κ × α → κ × β → Prop}

/-- Inserting related pairs into related lists gives related lists, if related pairs have the same
    key. -/
theorem forall₂_insert (hR : ∀ p q, R p q → q.1 = p.1) {p : κ × α} {q : κ × β} (hpq : R p q)
    {l : List (κ × α)} {l' : List (κ × β)} (h : List.Forall₂ R l l') :
    List.Forall₂ R (insert p.1 p.2 l) (insert q.1 q.2 l') := by
  induction h with
  | nil => exact .cons hpq .nil
  | @cons p' q' _ _ hpq' hl ih =>
    -- The keys are the same, so both are inserted at the same place.
    obtain ⟨k, a⟩ := p
    obtain ⟨k', a'⟩ := p'
    obtain ⟨_, b⟩ := q
    obtain ⟨_, b'⟩ := q'
    obtain rfl := hR _ _ hpq
    obtain rfl := hR _ _ hpq'
    rw [insert, insert]
    split_ifs
    · exact .cons hpq hl
    · exact .cons hpq (.cons hpq' hl)
    · exact .cons hpq' ih

/-- So does inserting all pairs of related lists. -/
theorem forall₂_insertAll (hR : ∀ p q, R p q → q.1 = p.1) {pairs l : List (κ × α)}
    {pairs' l' : List (κ × β)} (hpairs : List.Forall₂ R pairs pairs') (hl : List.Forall₂ R l l') :
    List.Forall₂ R (insertAll pairs l) (insertAll pairs' l') := by
  induction hpairs generalizing l l' with
  | nil => exact hl
  | cons hpq _ ih => exact ih (forall₂_insert hR hpq hl)

/-- Pairs that are related one by one still are in their ascending lists, if their keys
    are the same. -/
theorem forall₂_ofPairs (hR : ∀ p q, R p q → q.1 = p.1) {pairs : List (κ × α)}
    {pairs' : List (κ × β)} (h : List.Forall₂ R pairs pairs') :
    List.Forall₂ R (ofPairs pairs) (ofPairs pairs') :=
  forall₂_insertAll hR h .nil

end Related

/-- Values may be changed before or after, each by its key. -/
theorem ofPairs_mapValues (g : κ → α → β) (pairs : List (κ × α)) :
    ofPairs (pairs.map fun p => (p.1, g p.1 p.2)) =
      (ofPairs pairs).map fun p => (p.1, g p.1 p.2) := by
  let R (p : κ × α) (q : κ × β) : Prop := (p.1, g p.1 p.2) = q
  have h : List.Forall₂ R pairs (pairs.map fun p => (p.1, g p.1 p.2)) := by
    rw [← List.forall₂_map_left_iff, List.forall₂_eq_eq_eq]
  have hof := forall₂_ofPairs (fun p q (hq : R p q) => (congrArg Prod.fst hq).symm) h
  rw [← List.forall₂_map_left_iff, List.forall₂_eq_eq_eq] at hof
  exact hof.symm

/-! ## Looking up -/

omit [LT κ] [DecidableLT κ] in
/-- Changing the values changes what is found. -/
theorem get?_map (g : κ → α → β) (k : κ) (l : List (κ × α)) :
    get? k (l.map fun p => (p.1, g p.1 p.2)) = (get? k l).map (g k) := by
  induction l with
  | nil => rfl
  | cons p l ih =>
    rw [List.map_cons, get?, get?, ih]
    split
    · rename_i h
      rw [h]
      rfl
    · rfl

/-- What is inserted is found. -/
theorem get?_insert_self (k : κ) (v : α) (l : List (κ × α)) : get? k (insert k v l) = some v := by
  induction l with
  | nil => exact if_pos rfl
  | cons p l ih =>
    rw [insert]
    split
    · exact if_pos rfl
    · split
      · exact if_pos rfl
      · rename_i h _
        rw [get?, if_neg h, ih]

/-- Inserting under one key changes nothing under another. -/
theorem get?_insert_of_ne {k k' : κ} (h : k' ≠ k) (v : α) (l : List (κ × α)) :
    get? k' (insert k v l) = get? k' l := by
  induction l with
  | nil => exact if_neg h
  | cons p l ih =>
    rw [insert]
    split
    · rename_i hk
      rw [get?, get?, if_neg h, if_neg (hk ▸ h)]
    · split
      · rw [get?, if_neg h]
      · rw [get?, get?, ih]

omit [LT κ] [DecidableLT κ] in
/-- Nothing is found under a key that is not there. -/
theorem get?_eq_none {k : κ} {l : List (κ × α)} (h : k ∉ l.map (·.1)) : get? k l = none := by
  induction l with
  | nil => rfl
  | cons p l ih =>
    rw [List.map_cons, List.mem_cons, not_or] at h
    rw [get?, if_neg h.1, ih h.2]

omit [LT κ] [DecidableLT κ] in
/-- The value under a key that is there once. -/
theorem get?_of_mem {l : List (κ × α)} (hl : (l.map (·.1)).Nodup) {p : κ × α} (hp : p ∈ l) :
    get? p.1 l = some p.2 := by
  induction l with
  | nil => exact absurd hp List.not_mem_nil
  | cons q l ih =>
    rw [List.map_cons, List.nodup_cons] at hl
    rw [get?]
    rcases List.mem_cons.1 hp with rfl | hp
    · rw [if_pos rfl]
    · have hne : p.1 ≠ q.1 := fun he => hl.1 (he ▸ List.mem_map_of_mem hp)
      rw [if_neg hne, ih hl.2 hp]

omit [LT κ] [DecidableLT κ] in
/-- What is found is there. -/
theorem mem_of_get? {k : κ} {v : α} {l : List (κ × α)} (h : get? k l = some v) : (k, v) ∈ l := by
  induction l with
  | nil => simp [get?] at h
  | cons p l ih =>
    rw [get?] at h
    split_ifs at h with hk
    · simp [hk, ← Option.some.inj h]
    · exact List.mem_cons_of_mem _ (ih h)

/-- A key that is not looked for may be put in. -/
theorem find?_insert {q : κ → Bool} {k : κ} (hk : q k = false) (v : α) (l : List (κ × α)) :
    ((insert k v l).map (·.1)).find? q = (l.map (·.1)).find? q := by
  induction l with
  | nil => simp [insert, hk]
  | cons p l ih =>
    rw [insert]
    split_ifs with heq
    · simp [← heq]
    · simp [hk]
    · simp only [List.map_cons, List.find?_cons, ih]

/-! ## Different keys -/

/-- Of lists inserted into each other, the inserted one is looked at first. -/
theorem get?_insertAll {pairs : List (κ × α)} (h : (pairs.map (·.1)).Nodup) (k : κ)
    (l : List (κ × α)) : get? k (insertAll pairs l) = (get? k pairs).or (get? k l) := by
  induction pairs generalizing l with
  | nil => rfl
  | cons p pairs ih =>
    rw [List.map_cons, List.nodup_cons] at h
    refine (ih h.2 _).trans ?_
    rw [get?]
    split
    · rename_i hk
      subst hk
      -- No later pair has the key of the first one, so that one stays.
      rw [get?_eq_none h.1, get?_insert_self]
      rfl
    · rename_i hk
      rw [get?_insert_of_ne hk]

/-- Putting pairs with different keys in order changes nothing that is found. -/
theorem get?_ofPairs {pairs : List (κ × α)} (h : (pairs.map (·.1)).Nodup) (k : κ) :
    get? k (ofPairs pairs) = get? k pairs :=
  (get?_insertAll h k []).trans Option.or_none

/-- Inserting under a new key adds a pair. -/
theorem perm_insert {k : κ} {l : List (κ × α)} (h : k ∉ l.map (·.1)) (v : α) :
    (insert k v l).Perm ((k, v) :: l) := by
  induction l with
  | nil => exact .refl _
  | cons p l ih =>
    rw [List.map_cons, List.mem_cons, not_or] at h
    rw [insert, if_neg h.1]
    split
    · exact .refl _
    · exact ((ih h.2).cons p).trans (.swap ..)

/-- Inserting under new keys adds all pairs. -/
theorem perm_insertAll {pairs l : List (κ × α)} (h : (pairs.map (·.1)).Nodup)
    (hl : ∀ k ∈ pairs.map (·.1), k ∉ l.map (·.1)) : (insertAll pairs l).Perm (pairs ++ l) := by
  induction pairs generalizing l with
  | nil => exact .refl _
  | cons p pairs ih =>
    rw [List.map_cons, List.nodup_cons] at h
    have hp := perm_insert (hl p.1 List.mem_cons_self) p.2
    refine (ih h.2 fun k hk hmem => ?_).trans ((hp.append_left pairs).trans List.perm_middle)
    -- A later key is neither the one just put in nor one of those before.
    rcases List.mem_cons.1 ((hp.map (·.1)).mem_iff.1 hmem) with rfl | hmem
    · exact h.1 hk
    · exact hl k (List.mem_cons_of_mem _ hk) hmem

/-- Pairs with different keys are only put in another order. -/
theorem perm_ofPairs {pairs : List (κ × α)} (h : (pairs.map (·.1)).Nodup) :
    (ofPairs pairs).Perm pairs := by
  have := perm_insertAll (l := []) h fun _ _ => List.not_mem_nil
  rwa [List.append_nil] at this

/-! ## Leaving out keys -/

/-- The pairs whose keys are kept, with their values changed as their keys say. -/
def restrict (keep : κ → Option (α → β)) (l : List (κ × α)) : List (κ × β) :=
  l.filterMap fun p => (keep p.1).map fun f => (p.1, f p.2)

variable {keep : κ → Option (α → β)}

omit [LT κ] [DecidableLT κ] [DecidableEq κ] in
theorem restrict_cons_some {p : κ × α} {f : α → β} (h : keep p.1 = some f) (l : List (κ × α)) :
    restrict keep (p :: l) = (p.1, f p.2) :: restrict keep l :=
  List.filterMap_cons_some (by rw [h]; rfl)

omit [LT κ] [DecidableLT κ] [DecidableEq κ] in
theorem restrict_cons_none {p : κ × α} (h : keep p.1 = none) (l : List (κ × α)) :
    restrict keep (p :: l) = restrict keep l :=
  List.filterMap_cons_none (by rw [h]; rfl)

omit [DecidableLT κ] [DecidableEq κ] in
/-- Leaving out keys does not make the least one smaller. -/
theorem lt_of_mem_restrict {k : κ} {l : List (κ × α)} (h : ∀ p ∈ l, k < p.1) :
    ∀ q ∈ restrict keep l, k < q.1 := by
  intro q hq
  obtain ⟨p, hp, he⟩ := List.mem_filterMap.1 hq
  obtain ⟨f, _, rfl⟩ := Option.map_eq_some_iff.1 he
  exact h p hp

/-- Inserting under a key that is left out changes nothing of what is kept. -/
theorem restrict_insert_none {k : κ} (hk : keep k = none) (v : α) (l : List (κ × α)) :
    restrict keep (insert k v l) = restrict keep l := by
  induction l with
  | nil => exact restrict_cons_none (p := (k, v)) hk []
  | cons p l ih =>
    rw [insert]
    split
    · rename_i he
      rw [restrict_cons_none (p := (k, v)) hk, restrict_cons_none (he ▸ hk)]
    · split
      · exact restrict_cons_none (p := (k, v)) hk _
      · -- Whether the pair before the place is kept does not matter.
        cases hkeep : keep p.1 with
        | none => rw [restrict_cons_none hkeep, restrict_cons_none hkeep, ih]
        | some g => rw [restrict_cons_some hkeep, restrict_cons_some hkeep, ih]

/-! ## Ascending keys -/

/-- The keys are ascending. -/
def Sorted (l : List (κ × α)) : Prop := l.Pairwise fun p q => p.1 < q.1

/-- There is nothing but what is inserted and what was there. -/
theorem mem_insert {k : κ} {v : α} {l : List (κ × α)} {p : κ × α} (h : p ∈ insert k v l) :
    p = (k, v) ∨ p ∈ l := by
  induction l with
  | nil => exact .inl (List.mem_singleton.1 h)
  | cons q l ih =>
    rw [insert] at h
    split at h
    · exact (List.mem_cons.1 h).imp_right (List.mem_cons_of_mem _)
    · split at h
      · exact List.mem_cons.1 h
      · rcases List.mem_cons.1 h with rfl | h
        · exact .inr List.mem_cons_self
        · exact (ih h).imp_right (List.mem_cons_of_mem _)

/-- Inserting adds its key to the keys. -/
theorem mem_keys_insert {k k' : κ} {v : α} {l : List (κ × α)} :
    k' ∈ (insert k v l).map (·.1) ↔ k' = k ∨ k' ∈ l.map (·.1) := by
  induction l with
  | nil => simp [insert]
  | cons p l ih =>
    rw [insert]
    split
    · rename_i hk
      simp [hk]
    · split
      · simp
      · simp only [List.map_cons, List.mem_cons, ih]
        tauto

/-- The keys are those given. -/
theorem mem_keysOf {k : κ} {keys : List κ} : k ∈ keysOf keys ↔ k ∈ keys := by
  induction keys using List.reverseRecOn with
  | nil => rfl
  | append_singleton keys last ih =>
    rw [keysOf, List.map_append, ofPairs_append]
    refine mem_keys_insert.trans ?_
    rw [List.mem_append, List.mem_singleton, or_comm]
    exact or_congr_left ih

section Order

variable [LE κ] [Std.IsLinearOrder κ] [Std.LawfulOrderLT κ]

omit [DecidableLT κ] [DecidableEq κ] in
theorem lt_of_not {a b : κ} (hne : a ≠ b) (hlt : ¬a < b) : b < a :=
  ((Std.lt_trichotomy a b).resolve_left hlt).resolve_left hne

/-- Inserting keeps the order. -/
theorem sorted_insert {l : List (κ × α)} (hl : Sorted l) (k : κ) (v : α) :
    Sorted (insert k v l) := by
  induction l with
  | nil => exact List.pairwise_singleton _ _
  | cons p l ih =>
    obtain ⟨hp, hl⟩ := List.pairwise_cons.1 hl
    rw [insert]
    split
    · rename_i hk
      -- The first pair is replaced, or what is inserted comes before it, or after it.
      exact List.pairwise_cons.2 ⟨fun q hq => hk ▸ hp q hq, hl⟩
    · rename_i hne
      split
      · rename_i hlt
        refine List.pairwise_cons.2 ⟨fun q hq => ?_, List.pairwise_cons.2 ⟨hp, hl⟩⟩
        rcases List.mem_cons.1 hq with rfl | hq
        · exact hlt
        · exact Std.lt_trans hlt (hp q hq)
      · rename_i hlt
        refine List.pairwise_cons.2 ⟨fun q hq => ?_, ih hl⟩
        rcases mem_insert hq with rfl | hq
        · exact lt_of_not hne hlt
        · exact hp q hq

/-- Inserting one after the other keeps the order. -/
theorem sorted_insertAll (pairs : List (κ × α)) {l : List (κ × α)} (hl : Sorted l) :
    Sorted (insertAll pairs l) := by
  induction pairs generalizing l with
  | nil => exact hl
  | cons p pairs ih => exact ih (sorted_insert hl p.1 p.2)

theorem sorted_ofPairs (pairs : List (κ × α)) : Sorted (ofPairs pairs) :=
  sorted_insertAll pairs .nil

/-- Pairs with different keys may be put in in either order. -/
theorem insert_comm {k k' : κ} (hne : k ≠ k') (v v' : α) (l : List (κ × α)) :
    insert k v (insert k' v' l) = insert k' v' (insert k v l) := by
  have hcases := Std.lt_trichotomy k k'
  induction l with
  | nil => grind [insert]
  | cons p l ih => grind [insert]

/-- The keys are ascending. -/
theorem pairwise_keysOf (keys : List κ) : (keysOf keys).Pairwise (· < ·) :=
  List.pairwise_map.2 (sorted_ofPairs _)

omit [DecidableLT κ] [Std.IsLinearOrder κ] in
/-- What is found under a key is what the list holds under it. -/
theorem get?_eq_some_iff {l : List (κ × α)} (hl : Sorted l) {k : κ} {v : α} :
    get? k l = some v ↔ (k, v) ∈ l := by
  induction l with
  | nil => simp [get?]
  | cons p l ih =>
    obtain ⟨hp, hl⟩ := List.pairwise_cons.1 hl
    rw [get?, List.mem_cons, ← ih hl]
    split
    · rename_i hk
      subst hk
      -- No later key is the same.
      have hnone : get? p.1 l ≠ some v := fun h => Std.lt_irrefl (hp (p.1, v) ((ih hl).1 h))
      simp [hnone, Prod.ext_iff, eq_comm]
    · rename_i hk
      simp [Prod.ext_iff, hk]

omit [DecidableLT κ] [DecidableEq κ] in
/-- An ascending list is told by what it holds. -/
theorem Sorted.eq_of_mem_iff {l l' : List (κ × α)} (hl : Sorted l) (hl' : Sorted l')
    (h : ∀ p, p ∈ l ↔ p ∈ l') : l = l' := by
  have : Std.Irrefl fun p q : κ × α => p.1 < q.1 := ⟨fun _ => Std.lt_irrefl⟩
  have : Std.Antisymm fun p q : κ × α => p.1 < q.1 :=
    ⟨fun _ _ hlt hgt => absurd (Std.lt_trans hlt hgt) Std.lt_irrefl⟩
  exact List.Pairwise.eq_of_mem_iff hl hl' h

omit [Std.IsLinearOrder κ] in
theorem insert_of_lt {k : κ} {l : List (κ × α)} (h : ∀ p ∈ l, k < p.1) (v : α) :
    insert k v l = (k, v) :: l := by
  cases l with
  | nil => rfl
  | cons p l =>
    have hlt := h p List.mem_cons_self
    have hne : k ≠ p.1 := fun he => Std.lt_irrefl (he ▸ hlt)
    rw [insert, if_neg hne, if_pos hlt]

theorem restrict_insert_some {k : κ} {f : α → β} (hk : keep k = some f) {l : List (κ × α)}
    (hl : Sorted l) (v : α) :
    restrict keep (insert k v l) = insert k (f v) (restrict keep l) := by
  induction l with
  | nil => exact restrict_cons_some (p := (k, v)) hk []
  | cons p l ih =>
    obtain ⟨hp, hl⟩ := List.pairwise_cons.1 hl
    rw [insert]
    split
    · rename_i he
      rw [restrict_cons_some (p := (k, v)) hk, restrict_cons_some (he ▸ hk), insert, if_pos he]
    · rename_i hne
      split
      · -- The key comes before all of the list, also before what is left of it.
        rename_i hlt
        have hall : ∀ q ∈ p :: l, k < q.1 := fun q hq =>
          (List.mem_cons.1 hq).elim (fun he => he ▸ hlt) fun hq => Std.lt_trans hlt (hp q hq)
        rw [restrict_cons_some (p := (k, v)) hk, insert_of_lt (lt_of_mem_restrict hall)]
      · rename_i hlt
        cases hkeep : keep p.1 with
        | none => rw [restrict_cons_none hkeep, restrict_cons_none hkeep, ih hl]
        | some g =>
          rw [restrict_cons_some hkeep, restrict_cons_some hkeep, ih hl, insert, if_neg hne,
            if_neg hlt]

theorem restrict_insertAll (pairs : List (κ × α)) {l : List (κ × α)} (hl : Sorted l) :
    restrict keep (insertAll pairs l) = insertAll (restrict keep pairs) (restrict keep l) := by
  induction pairs generalizing l with
  | nil => rfl
  | cons p pairs ih =>
    refine (ih (sorted_insert hl p.1 p.2)).trans ?_
    cases hkeep : keep p.1 with
    | none => rw [restrict_insert_none hkeep, restrict_cons_none hkeep]
    | some f =>
      rw [restrict_insert_some hkeep hl, restrict_cons_some hkeep]
      rfl

/-- Keys may be left out, and values changed, before or after. -/
theorem restrict_ofPairs (pairs : List (κ × α)) :
    restrict keep (ofPairs pairs) = ofPairs (restrict keep pairs) :=
  restrict_insertAll pairs .nil

end Order

end Marshal.Ascending
