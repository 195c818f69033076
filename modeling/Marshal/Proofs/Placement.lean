import Marshal.Proofs.ValueCycles

/-!
# The order of declarations

Messages are placed one after the other, in the order of their declaration, and each after
those that it holds by value. A message that has been met is not placed again, though it may
not have its place yet if there is a cycle (`Graph.Places`). This is what a search through a
graph comes to, since the nodes that it has met are those on its path and those in its order
(`Graph.places_search`). So placing ends, whatever cycles there are, and the fuel of the
search does not matter.

* `declarationOrder_respects`: what the order of declarations is like.
-/

namespace Marshal

namespace Graph

/-- The state of placing: the nodes met, and those placed, in their order. -/
structure Placing where
  met : List Nat := []
  placed : List Nat := []

mutual

/-- Placing a node. It counts as met before those it leads to are placed, and comes after them. -/
inductive Places (targets : Nat → List Nat) : Placing → Nat → Placing → Prop
  | skip {σ : Placing} {node : Nat} : node ∈ σ.met → Places targets σ node σ
  | place {σ σ' : Placing} {node : Nat} : node ∉ σ.met →
    PlacesAll targets { σ with met := node :: σ.met } (targets node) σ' →
    Places targets σ node { σ' with placed := σ'.placed ++ [node] }

/-- Placing nodes one after the other. -/
inductive PlacesAll (targets : Nat → List Nat) : Placing → List Nat → Placing → Prop
  | nil {σ : Placing} : PlacesAll targets σ [] σ
  | cons {σ σ' σ'' : Placing} {node : Nat} {rest : List Nat} :
    Places targets σ node σ' → PlacesAll targets σ' rest σ'' →
    PlacesAll targets σ (node :: rest) σ''

end

variable {α : Type} {edges : Nat → List (α × Nat)} {size : Nat}

/-- The nodes that a node leads to. -/
def targets (edges : Nat → List (α × Nat)) (i : Nat) : List Nat := (edges i).map (·.2)

/-! ## A search places nodes -/

/-- Placing has met what a search has, which came along `path`, and placed what it is done with. -/
structure Placing.Tracks (σ : Placing) (path : List Nat) (s : Search α) : Prop where
  placed : σ.placed = s.order
  met : ∀ x, x ∈ σ.met ↔ x ∈ path ∨ x ∈ s.order

/-- A visit with this fuel places its node. -/
def VisitsPlace (edges : Nat → List (α × Nat)) (size fuel : Nat) : Prop :=
  ∀ (path : List (Nat × α)) (node : Nat) (s : Search α) (σ : Placing), Entry size fuel path node →
    node ∉ s.order → σ.Tracks (nodes path) s →
    ∃ σ', Places (targets edges) σ node σ' ∧ σ'.Tracks (nodes path) (visit edges fuel path node s)

section Visit

variable {fuel node : Nat} {path : List (Nat × α)} {s : Search α} {σ : Placing}

/-- Following an edge places its target, unless that is on the path or placed. -/
theorem places_follow (hvisit : VisitsPlace edges size fuel)
    (h : Entry size (fuel + 1) path node) {e : α × Nat} (he : e.2 < size)
    (hσ : σ.Tracks (nodes path ++ [node]) s) :
    ∃ σ', Places (targets edges) σ e.2 σ' ∧
      σ'.Tracks (nodes path ++ [node]) (follow edges fuel path node s e) := by
  rw [follow]
  split
  · -- A node on the path has been met, and a report leaves the order as it is.
    rename_i hpath
    have hmem := any_eq_true_iff.1 hpath
    rw [nodes_snoc] at hmem
    exact ⟨σ, .skip ((hσ.met e.2).2 (.inl hmem)), hσ.placed, hσ.met⟩
  · rename_i hpath
    split
    · rename_i hmem
      exact ⟨σ, .skip ((hσ.met e.2).2 (.inr hmem)), hσ⟩
    · -- The target has not been met, so it is placed along a longer path.
      rename_i hmem
      have hoff := mt any_eq_true_iff.2 hpath
      rw [← nodes_snoc path node e.1] at hσ ⊢
      exact hvisit _ _ s σ (h.next he hoff) hmem hσ

/-- Following the edges of a node places their targets, one after the other. -/
theorem places_foldl_follow (hvisit : VisitsPlace edges size fuel)
    (h : Entry size (fuel + 1) path node) {es : List (α × Nat)} (hes : ∀ e ∈ es, e.2 < size)
    (hσ : σ.Tracks (nodes path ++ [node]) s) :
    ∃ σ', PlacesAll (targets edges) σ (es.map (·.2)) σ' ∧
      σ'.Tracks (nodes path ++ [node]) (es.foldl (follow edges fuel path node) s) := by
  induction es generalizing s σ with
  | nil => exact ⟨σ, .nil, hσ⟩
  | cons e es ih =>
    obtain ⟨σ₁, hplace, hσ₁⟩ := places_follow hvisit h (hes e List.mem_cons_self) hσ
    obtain ⟨σ₂, hplaces, hσ₂⟩ := ih (fun e he => hes e (List.mem_cons_of_mem _ he)) hσ₁
    exact ⟨σ₂, .cons hplace hplaces, hσ₂⟩

end Visit

/-- Visiting a node places what it leads to, and then the node. -/
theorem places_visit (hedges : ∀ i < size, ∀ e ∈ edges i, e.2 < size) (fuel : Nat) :
    VisitsPlace edges size fuel := by
  induction fuel with
  | zero => exact fun _ _ _ _ h => absurd rfl h.fuel_pos
  | succ fuel ih =>
    intro path node s σ h hnode hσ
    have hlast : node ∈ nodes path ++ [node] := List.mem_append_right _ (List.mem_singleton_self _)
    have hfresh : node ∉ σ.met := fun hmet => ((hσ.met node).1 hmet).elim
      (fun hpath => (List.nodup_append.1 h.nodup).2.2 node hpath node
        (List.mem_singleton_self _) rfl) hnode
    have hσ' : Placing.Tracks { σ with met := node :: σ.met } (nodes path ++ [node]) s := by
      refine ⟨hσ.placed, fun x => ?_⟩
      simp only [List.mem_cons, List.mem_append, List.not_mem_nil, or_false, hσ.met x]
      tauto
    obtain ⟨σ₁, hplaces, hσ₁⟩ := places_foldl_follow ih h (hedges node (h.lt node hlast)) hσ'
    refine ⟨_, .place hfresh hplaces, ?_⟩
    -- From the end of the path, the node goes to the end of the order.
    rw [visit_succ]
    refine ⟨congrArg (· ++ [node]) hσ₁.placed, fun x => ?_⟩
    have hmet := hσ₁.met x
    simp only [List.mem_append] at hmet ⊢
    tauto

section Search

variable {s : Search α} {σ : Placing}

/-- Going on with a node places it, unless that is done. -/
theorem places_resume (hedges : ∀ i < size, ∀ e ∈ edges i, e.2 < size) {node : Nat}
    (hnode : node < size) (hσ : σ.Tracks [] s) :
    ∃ σ', Places (targets edges) σ node σ' ∧ σ'.Tracks [] (resume edges size s node) := by
  rw [resume]
  split
  · rename_i hmem
    exact ⟨σ, .skip ((hσ.met node).2 (.inr hmem)), hσ⟩
  · rename_i hmem
    exact places_visit hedges size [] node s σ (.root hnode) hmem hσ

/-- Going through nodes places them, one after the other. -/
theorem places_foldl_resume (hedges : ∀ i < size, ∀ e ∈ edges i, e.2 < size) {l : List Nat}
    (hl : ∀ i ∈ l, i < size) (hσ : σ.Tracks [] s) :
    ∃ σ', PlacesAll (targets edges) σ l σ' ∧ σ'.Tracks [] (l.foldl (resume edges size) s) := by
  induction l generalizing s σ with
  | nil => exact ⟨σ, .nil, hσ⟩
  | cons node l ih =>
    rw [List.forall_mem_cons] at hl
    obtain ⟨σ₁, hplace, hσ₁⟩ := places_resume hedges hl.1 hσ
    obtain ⟨σ₂, hplaces, hσ₂⟩ := ih hl.2 hσ₁
    exact ⟨σ₂, .cons hplace hplaces, hσ₂⟩

end Search

/-- A search places the nodes one after the other. -/
theorem places_search (hedges : ∀ i < size, ∀ e ∈ edges i, e.2 < size) :
    ∃ met, PlacesAll (targets edges) {} (List.range size) ⟨met, (search edges size).order⟩ := by
  have hstart : Placing.Tracks {} [] ({} : Search α) := ⟨rfl, by simp⟩
  obtain ⟨⟨met, placed⟩, hplaces, hσ⟩ :=
    places_foldl_resume hedges (fun i hi => List.mem_range.1 hi) hstart
  cases hσ.placed
  exact ⟨met, hplaces⟩

/-! ## Orders of nodes -/

/-- In an order of this kind, a node comes after all those it leads to. -/
theorem Topological.pair_sublist {l : List Nat} (h : Topological edges l) {i : Nat} (hi : i ∈ l)
    {e : α × Nat} (he : e ∈ edges i) : [e.2, i].Sublist l := by
  induction h with
  | nil => exact absurd hi List.not_mem_nil
  | @snoc l x _ hx ih =>
    rcases List.mem_append.1 hi with hi | hi
    · exact (ih hi).trans (List.sublist_append_left ..)
    · obtain rfl := List.mem_singleton.1 hi
      exact (List.singleton_sublist.2 (hx e he)).append (.refl [i])

/-- Where all edges lead to smaller nodes, those up to a node are done with in ascending order, so
    that its edges lead to nodes done with. -/
theorem order_foldl_resume_of_lt (h : ∀ i, ∀ e ∈ edges i, e.2 < i) {n : Nat} (hn : n ≤ size) :
    ((List.range n).foldl (resume edges size) {}).order = List.range n := by
  induction n with
  | zero => rfl
  | succ n ih =>
    replace ih := ih (Nat.le_of_succ_le hn)
    rw [List.range_succ, List.foldl_append, List.foldl_cons, List.foldl_nil]
    generalize (List.range n).foldl (resume edges size) {} = s at ih
    obtain ⟨fuel, rfl⟩ := Nat.exists_eq_succ_of_ne_zero (Nat.ne_zero_of_lt hn)
    -- All that the node leads to was placed before it.
    have hfollow : (edges n).foldl (follow edges fuel [] n) s = s := by
      refine List.foldlRecOn (motive := (· = s)) _ _ rfl fun s' hs' e he => ?_
      have hlt := h n e he
      subst hs'
      rw [follow, if_neg (by simp; omega), if_pos (by rw [ih]; exact List.mem_range.2 hlt)]
    rw [resume, if_neg (by simp [ih]), visit_succ, hfollow]
    exact congrArg (· ++ [n]) ih

theorem order_search_of_lt (h : ∀ i, ∀ e ∈ edges i, e.2 < i) :
    (search edges size).order = List.range size :=
  order_foldl_resume_of_lt h (Nat.le_refl size)

end Graph

/-! ## The messages of a schema -/

/-- The messages that the message at a position holds by value. -/
def heldByValue (plans : List MessagePlan) : Nat → List Nat := Graph.targets (valueEdgesAt plans)

variable {plans : List MessagePlan}

/-- The enums come in the order of their declaration, and then every message once. The messages are
    placed one after the other, and each comes after those that it holds by value if none holds
    itself. The order of declaration is kept if all hold earlier ones only. -/
theorem declarationOrder_respects (enums : List EnumPlan)
    (hrange : ∀ p ∈ plans, ∀ step ∈ p.steps, ∀ j, step.shape = .single (.nested ⟨.own, j⟩) →
      j < plans.length) :
    ∃ messages : List Nat,
      declarationOrder enums plans =
        (List.range enums.length).map .enum ++ messages.map .message ∧
      messages.Perm (List.range plans.length) ∧
      (∃ met, Graph.PlacesAll (heldByValue plans) {} (List.range plans.length) ⟨met, messages⟩) ∧
      (checkValueRecursion plans = .ok () →
        ∀ i field j, HoldsByValue plans i field j → [j, i].Sublist messages) ∧
      ((∀ i field j, HoldsByValue plans i field j → j < i) →
        messages = List.range plans.length) := by
  have hedges : ∀ i < plans.length, ∀ e ∈ valueEdgesAt plans i, e.2 < plans.length := by
    rintro i - ⟨field, j⟩ he
    obtain ⟨p, hp, step, hstep, -, hshape⟩ := mem_valueEdgesAt_iff.1 he
    exact hrange p (List.mem_of_getElem? hp) step hstep j hshape
  obtain ⟨hsound, hmem⟩ := Graph.search_sound hedges
  refine ⟨(valueSearch plans).order, rfl, Graph.perm_search hedges, Graph.places_search hedges,
    ?_, ?_⟩
  · intro hcheck i field j hholds
    have hi : i < plans.length := by
      obtain ⟨p, hp, -⟩ := hholds
      exact (List.getElem?_eq_some_iff.1 hp).1
    have hcycle := cycle_eq_none_of_check hcheck hsound.cycle_ne_nil
    exact (hsound.topological hcycle).pair_sublist (hmem i hi) (mem_valueEdgesAt_iff.2 hholds)
  · intro hdown
    refine Graph.order_search_of_lt fun i e he => ?_
    exact hdown i e.1 e.2 (mem_valueEdgesAt_iff.1 he)

/-- A coop that holds a hen and an egg by value, and hens that hold eggs. -/
def Sample.coop : List MessagePlan :=
  [ ⟨⟨.own, 0⟩, "Coop", [henhouse.held "hen" 1, henhouse.held "egg" 2]⟩,
    ⟨⟨.own, 1⟩, "Hen", [henhouse.held "egg" 2]⟩, ⟨⟨.own, 2⟩, "Egg", []⟩ ]

open Sample

/-- Eggs come before hens, and hens before coops, even where eggs hold hens as well. -/
theorem declarationOrder_respects_coop :
    (checkValueRecursion coop = .ok () ∧
      ∃ messages : List Nat, declarationOrder [] coop = messages.map .message ∧
        messages.Perm [0, 1, 2] ∧
        (∃ met, Graph.PlacesAll (heldByValue coop) {} [0, 1, 2] ⟨met, messages⟩) ∧
        ∀ i field j, HoldsByValue coop i field j → [j, i].Sublist messages) ∧
      ∃ messages : List Nat, declarationOrder [] henhouse = messages.map .message ∧
        messages.Perm [0, 1, 2] := by
  obtain ⟨messages, horder, hperm, hplaces, hheld, -⟩ := @declarationOrder_respects coop []
    (by simp [coop, henhouse.held])
  obtain ⟨messages', horder', hperm', -⟩ := @declarationOrder_respects henhouse []
    (by simp [henhouse, henhouse.held])
  exact ⟨⟨rfl, messages, horder, hperm, hplaces, hheld rfl⟩, messages', horder', hperm'⟩

end Marshal
