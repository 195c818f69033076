import Marshal.Graph
import Mathlib.Data.List.Nodup
import Mathlib.Data.List.Perm.Subperm
import Mathlib.Data.List.TakeWhile

/-!
# What a depth-first search finds

A search keeps an invariant (`Search.Sound`): the nodes done with are different,
none of them is on the path to the present node, and as long as no cycle has
been met each of them comes after those it leads to. Following an edge keeps it
(`sound_follow`), hence so do visiting a node (`visit_sound`) and the search as
a whole (`search_sound`), which in the end is done with every node.

A search that meets no cycle ranks the nodes: along every edge the rank goes
down (`exists_rank`).
-/

namespace Marshal.Graph

variable {α : Type} {edges : Nat → List (α × Nat)} {size : Nat}

/-- Every node of the list comes after all those it leads to. -/
inductive Topological (edges : Nat → List (α × Nat)) : List Nat → Prop
  | nil : Topological edges []
  | snoc {l : List Nat} {x : Nat} :
    Topological edges l → (∀ e ∈ edges x, e.2 ∈ l) → Topological edges (l ++ [x])

/-- The nodes of a path. -/
def nodes (path : List (Nat × α)) : List Nat := path.map (·.1)

theorem nodes_snoc (path : List (Nat × α)) (node : Nat) (label : α) :
    nodes (path ++ [(node, label)]) = nodes path ++ [node] := by
  rw [nodes, List.map_append]
  rfl

theorem any_eq_true_iff {path : List (Nat × α)} {node : Nat} :
    path.any (·.1 = node) = true ↔ node ∈ nodes path := by
  simp [nodes]

/-- The search of the nodes below `size` is in order, having come along `path`. -/
structure Search.Sound (edges : Nat → List (α × Nat)) (size : Nat) (path : List Nat)
    (s : Search α) : Prop where
  nodup : s.order.Nodup
  lt : ∀ x ∈ s.order, x < size
  /-- The search is not done with the nodes that it came along. -/
  off_path : ∀ x ∈ path, x ∉ s.order
  topological : s.cycle = none → Topological edges s.order
  /-- A cycle that has been met has nodes. -/
  cycle_ne_nil : s.cycle ≠ some []

/-- The search `s'` comes after the search `s`. -/
structure Search.Precedes (s s' : Search α) : Prop where
  order : ∀ x ∈ s.order, x ∈ s'.order
  /-- A cycle is not forgotten. -/
  cycle : s'.cycle = none → s.cycle = none

theorem Search.Precedes.refl (s : Search α) : s.Precedes s := ⟨fun _ h => h, fun h => h⟩

/-- A search that has gone on twice has gone on. -/
theorem Search.Precedes.trans {s s' s'' : Search α} (h : s.Precedes s') (h' : s'.Precedes s'') :
    s.Precedes s'' :=
  ⟨fun x hx => h'.order x (h.order x hx), fun hc => h.cycle (h'.cycle hc)⟩

/-- Once a cycle is reported there is one. -/
theorem Search.cycle_report (s : Search α) (c : List (Nat × α)) : (s.report c).cycle ≠ none := by
  rw [Search.report]
  cases s.cycle <;> exact Option.some_ne_none _

theorem Search.cycle_report_ne_nil {s : Search α} (hs : s.cycle ≠ some []) {c : List (Nat × α)}
    (hc : c ≠ []) : (s.report c).cycle ≠ some [] := by
  change (s.cycle <|> some c) ≠ some []
  cases hcycle : s.cycle with
  | none => exact fun h => hc (Option.some.inj h)
  | some c' =>
    rw [hcycle] at hs
    exact hs

/-- Following an edge from `node`, at the end of `path`. -/
def follow (edges : Nat → List (α × Nat)) (fuel : Nat) (path : List (Nat × α)) (node : Nat)
    (s : Search α) (e : α × Nat) : Search α :=
  let path := path ++ [(node, e.1)]
  if path.any (·.1 = e.2) then s.report (path.dropWhile (·.1 ≠ e.2))
  else if e.2 ∈ s.order then s
  else visit edges fuel path e.2 s

theorem visit_succ (fuel : Nat) (path : List (Nat × α)) (node : Nat) (s : Search α) :
    visit edges (fuel + 1) path node s =
      let s := (edges node).foldl (follow edges fuel path node) s
      { s with order := s.order ++ [node] } := rfl

/-- Different numbers below a bound are at most as many. -/
theorem length_le_of_nodup {l : List Nat} (h : l.Nodup) (hl : ∀ x ∈ l, x < size) :
    l.length ≤ size := by
  have := (List.subperm_of_subset h fun x hx => List.mem_range.2 (hl x hx)).length_le
  rwa [List.length_range] at this

/-- Where a node is visited from: a path of different nodes, with fuel for as
    many as are not on it. -/
structure Entry (size fuel : Nat) (path : List (Nat × α)) (node : Nat) : Prop where
  nodup : (nodes path ++ [node]).Nodup
  lt : ∀ x ∈ nodes path ++ [node], x < size
  fuel : size ≤ path.length + fuel

/-- What a visit of `node` does to a search that is in order. -/
structure Visits (edges : Nat → List (α × Nat)) (size : Nat) (path : List Nat) (node : Nat)
    (s s' : Search α) : Prop where
  sound : s'.Sound edges size path
  precedes : s.Precedes s'
  mem : node ∈ s'.order

section Visit

variable {fuel node : Nat} {path : List (Nat × α)} {s : Search α}

/-- Where a search starts, the path is empty. -/
theorem Entry.root (hnode : node < size) : Entry size size ([] : List (Nat × α)) node where
  nodup := List.nodup_singleton _
  lt _ hx := List.mem_singleton.1 hx ▸ hnode
  fuel := Nat.le_add_left _ _

/-- There is fuel left where a node is entered. -/
theorem Entry.fuel_pos (h : Entry size fuel path node) : fuel ≠ 0 := by
  -- Without fuel, the path and the node would be more nodes than there are.
  rintro rfl
  have hlen := length_le_of_nodup h.nodup h.lt
  have hfuel := h.fuel
  rw [nodes, List.length_append, List.length_map, List.length_singleton] at hlen
  omega

/-- An edge to a node that is neither on the path nor its end leads on. -/
theorem Entry.next (h : Entry size (fuel + 1) path node) {label : α} {target : Nat}
    (ht : target < size) (hmem : target ∉ nodes (path ++ [(node, label)])) :
    Entry size fuel (path ++ [(node, label)]) target where
  nodup := by
    rw [nodes_snoc] at hmem ⊢
    exact List.nodup_append.2 ⟨h.nodup, List.nodup_singleton _,
      fun x hx y hy hxy => hmem (List.mem_singleton.1 hy ▸ hxy ▸ hx)⟩
  lt := by
    intro x hx
    rcases List.mem_append.1 hx with hx | hx
    · exact h.lt x (nodes_snoc path node label ▸ hx)
    · exact List.mem_singleton.1 hx ▸ ht
  fuel := by
    have := h.fuel
    rw [List.length_append, List.length_singleton]
    omega

/-- Following an edge keeps a search in order, and if it has met no cycle by
    then it is done with the target. -/
theorem sound_follow
    (hvisit : ∀ path node s, Entry size fuel path node → node ∉ s.order →
      s.Sound edges size (nodes path) →
      Visits edges size (nodes path) node s (visit edges fuel path node s))
    (h : Entry size (fuel + 1) path node) {e : α × Nat} (he : e.2 < size)
    (hs : s.Sound edges size (nodes path ++ [node])) :
    (follow edges fuel path node s e).Sound edges size (nodes path ++ [node]) ∧
      s.Precedes (follow edges fuel path node s e) ∧
      ((follow edges fuel path node s e).cycle = none →
        e.2 ∈ (follow edges fuel path node s e).order) := by
  rw [follow]
  split
  · -- The edge leads back to the path and closes a cycle.
    rename_i hpath
    have hc := s.cycle_report ((path ++ [(node, e.1)]).dropWhile (·.1 ≠ e.2))
    have hne : (path ++ [(node, e.1)]).dropWhile (·.1 ≠ e.2) ≠ [] := fun h => by
      obtain ⟨p, hp, hpe⟩ := List.any_eq_true.1 hpath
      exact of_decide_eq_true (List.dropWhile_eq_nil_iff.1 h p hp) (of_decide_eq_true hpe)
    exact ⟨⟨hs.nodup, hs.lt, hs.off_path, fun h => absurd h hc,
      Search.cycle_report_ne_nil hs.cycle_ne_nil hne⟩,
      ⟨fun _ h => h, fun h => absurd h hc⟩, fun h => absurd h hc⟩
  · rename_i hpath
    split
    · -- The search is done with the target.
      rename_i hmem
      exact ⟨hs, .refl s, fun _ => hmem⟩
    · -- The target is visited, along a path that is longer by the node.
      rename_i hmem
      have hoff := mt any_eq_true_iff.2 hpath
      rw [← nodes_snoc path node e.1] at hs ⊢
      obtain ⟨hsound, hprec, hdone⟩ := hvisit _ _ s (h.next he hoff) hmem hs
      exact ⟨hsound, hprec, fun _ => hdone⟩

/-- Following the edges of a node keeps the invariant, and is done with all of their targets. -/
theorem foldl_follow
    (hvisit : ∀ path node s, Entry size fuel path node → node ∉ s.order →
      s.Sound edges size (nodes path) →
      Visits edges size (nodes path) node s (visit edges fuel path node s))
    (h : Entry size (fuel + 1) path node) {es : List (α × Nat)} (hes : ∀ e ∈ es, e.2 < size)
    (hs : s.Sound edges size (nodes path ++ [node])) :
    (es.foldl (follow edges fuel path node) s).Sound edges size (nodes path ++ [node]) ∧
      s.Precedes (es.foldl (follow edges fuel path node) s) ∧
      ((es.foldl (follow edges fuel path node) s).cycle = none →
        ∀ e ∈ es, e.2 ∈ (es.foldl (follow edges fuel path node) s).order) := by
  induction es generalizing s with
  | nil => exact ⟨hs, .refl s, fun _ _ h => absurd h List.not_mem_nil⟩
  | cons e es ih =>
    obtain ⟨hs₁, hp₁, hd₁⟩ := sound_follow hvisit h (hes e List.mem_cons_self) hs
    obtain ⟨hs₂, hp₂, hd₂⟩ := ih (fun e he => hes e (List.mem_cons_of_mem _ he)) hs₁
    refine ⟨hs₂, hp₁.trans hp₂, fun hc e' he' => ?_⟩
    -- What is done after the first edge stays done after the others.
    rcases List.mem_cons.1 he' with rfl | he'
    · exact hp₂.order _ (hd₁ (hp₂.cycle hc))
    · exact hd₂ hc e' he'

end Visit

/-- A visit keeps a search in order and is done with its node in the end. -/
theorem visit_sound (hedges : ∀ i < size, ∀ e ∈ edges i, e.2 < size) (fuel : Nat) :
    ∀ (path : List (Nat × α)) (node : Nat) (s : Search α), Entry size fuel path node →
      node ∉ s.order → s.Sound edges size (nodes path) →
      Visits edges size (nodes path) node s (visit edges fuel path node s) := by
  induction fuel with
  | zero => exact fun _ _ _ h => absurd rfl h.fuel_pos
  | succ fuel ih =>
    intro path node s h hnode hs
    have hlast : node ∈ nodes path ++ [node] := List.mem_append_right _ (List.mem_singleton_self _)
    -- While its edges are followed, the node belongs to the path.
    have hs' : s.Sound edges size (nodes path ++ [node]) :=
      { hs with
        off_path := fun x hx => (List.mem_append.1 hx).elim (hs.off_path x)
          fun hx => List.mem_singleton.1 hx ▸ hnode }
    obtain ⟨hs₁, hp, hd⟩ := foldl_follow ih h (hedges node (h.lt node hlast)) hs'
    -- Then it is put at the end of the order, after all that it leads to.
    rw [visit_succ]
    generalize (edges node).foldl (follow edges fuel path node) s = s₁ at hs₁ hp hd
    refine ⟨⟨?_, ?_, ?_, ?_, hs₁.cycle_ne_nil⟩, ⟨?_, hp.cycle⟩, ?_⟩
    · exact List.nodup_append.2 ⟨hs₁.nodup, List.nodup_singleton _,
        fun x hx y hy hxy => hs₁.off_path node hlast (List.mem_singleton.1 hy ▸ hxy ▸ hx)⟩
    · intro x hx
      rcases List.mem_append.1 hx with hx | hx
      · exact hs₁.lt x hx
      · exact List.mem_singleton.1 hx ▸ h.lt node hlast
    · intro x hx hmem
      rcases List.mem_append.1 hmem with hmem | hmem
      · exact hs₁.off_path x (List.mem_append_left _ hx) hmem
      · exact (List.nodup_append.1 h.nodup).2.2 x hx node (List.mem_singleton_self _)
          (List.mem_singleton.1 hmem)
    · exact fun hc => .snoc (hs₁.topological hc) (hd hc)
    · exact fun x hx => List.mem_append_left _ (hp.order x hx)
    · exact List.mem_append_right _ (List.mem_singleton_self _)

/-- Before it starts, a search is in order. -/
theorem sound_empty : ({} : Search α).Sound edges size [] where
  nodup := .nil
  lt _ h := absurd h List.not_mem_nil
  off_path _ h := absurd h List.not_mem_nil
  topological _ := .nil
  cycle_ne_nil h := nomatch h

/-- A search going on from a node, unless it is done with it. -/
def resume (edges : Nat → List (α × Nat)) (size : Nat) (s : Search α) (node : Nat) : Search α :=
  if node ∈ s.order then s else visit edges size [] node s

/-- Going on with a node visits it, unless that is done. -/
theorem visits_resume (hedges : ∀ i < size, ∀ e ∈ edges i, e.2 < size) {node : Nat}
    (hnode : node < size) {s : Search α} (hs : s.Sound edges size []) :
    Visits edges size [] node s (resume edges size s node) := by
  rw [resume]
  split
  · rename_i hmem
    exact ⟨hs, .refl s, hmem⟩
  · rename_i hmem
    exact visit_sound hedges size [] node s (.root hnode) hmem hs

/-- Going through nodes keeps the invariant, and is done with all of them. -/
theorem foldl_resume (hedges : ∀ i < size, ∀ e ∈ edges i, e.2 < size) {l : List Nat}
    (hl : ∀ i ∈ l, i < size) {s : Search α} (hs : s.Sound edges size []) :
    (l.foldl (resume edges size) s).Sound edges size [] ∧
      s.Precedes (l.foldl (resume edges size) s) ∧
      ∀ i ∈ l, i ∈ (l.foldl (resume edges size) s).order := by
  induction l generalizing s with
  | nil => exact ⟨hs, .refl s, fun _ h => absurd h List.not_mem_nil⟩
  | cons node l ih =>
    obtain ⟨hs₁, hp₁, hd₁⟩ := visits_resume hedges (hl node List.mem_cons_self) hs
    obtain ⟨hs₂, hp₂, hd₂⟩ := ih (fun i hi => hl i (List.mem_cons_of_mem _ hi)) hs₁
    refine ⟨hs₂, hp₁.trans hp₂, fun i hi => ?_⟩
    rcases List.mem_cons.1 hi with rfl | hi
    · exact hp₂.order _ hd₁
    · exact hd₂ i hi

/-- A search is in order, and done with every node. -/
theorem search_sound (hedges : ∀ i < size, ∀ e ∈ edges i, e.2 < size) :
    (search edges size).Sound edges size [] ∧ ∀ i < size, i ∈ (search edges size).order := by
  obtain ⟨hs, _, hd⟩ := foldl_resume hedges (fun i hi => List.mem_range.1 hi) sound_empty
  exact ⟨hs, fun i hi => hd i (List.mem_range.2 hi)⟩

/-- A search is done with every node once. -/
theorem perm_search (hedges : ∀ i < size, ∀ e ∈ edges i, e.2 < size) :
    (search edges size).order.Perm (List.range size) := by
  obtain ⟨hs, hmem⟩ := search_sound hedges
  refine (List.perm_ext_iff_of_nodup hs.nodup List.nodup_range).2 fun i => ?_
  rw [List.mem_range]
  exact ⟨hs.lt i, hmem i⟩

/-! ## Ranks -/

/-- In an order of this kind, targets have smaller positions. -/
theorem Topological.idxOf_lt {l : List Nat} (h : Topological edges l) (hl : l.Nodup) {i : Nat}
    (hi : i ∈ l) {e : α × Nat} (he : e ∈ edges i) : l.idxOf e.2 < l.idxOf i := by
  induction h with
  | nil => exact absurd hi List.not_mem_nil
  | @snoc l x _ hx ih =>
    obtain ⟨hnodup, _, hdisj⟩ := List.nodup_append.1 hl
    rcases List.mem_append.1 hi with hi | hi
    · have hlt := ih hnodup hi
      have hmem : e.2 ∈ l := List.idxOf_lt_length_iff.1
        (Nat.lt_trans hlt (List.idxOf_lt_length_iff.2 hi))
      rwa [List.idxOf_append_of_mem hmem, List.idxOf_append_of_mem hi]
    · -- The last node comes after all others, among them its targets.
      obtain rfl := List.mem_singleton.1 hi
      have hni : i ∉ l := fun h => hdisj i h i (List.mem_singleton_self _) rfl
      rw [List.idxOf_append_of_mem (hx e he), List.idxOf_append_of_notMem hni]
      exact Nat.lt_add_right _ (List.idxOf_lt_length_iff.2 (hx e he))

/-- A search that meets no cycle ranks the nodes, and edges go down. -/
theorem exists_rank (hedges : ∀ i < size, ∀ e ∈ edges i, e.2 < size)
    (hc : (search edges size).cycle = none) :
    ∃ rank : Nat → Nat, ∀ i < size, rank i < size ∧ ∀ e ∈ edges i, rank e.2 < rank i := by
  obtain ⟨hs, hmem⟩ := search_sound hedges
  -- The rank of a node is its position in the order of the search.
  refine ⟨fun i => (search edges size).order.idxOf i, fun i hi => ⟨?_, fun e he => ?_⟩⟩
  · exact Nat.lt_of_lt_of_le (List.idxOf_lt_length_iff.2 (hmem i hi))
      (length_le_of_nodup hs.nodup hs.lt)
  · exact (hs.topological hc).idxOf_lt hs.nodup (hmem i hi) he

end Marshal.Graph
