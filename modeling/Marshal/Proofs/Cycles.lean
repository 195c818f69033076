import Marshal.Proofs.Search
import Mathlib.Logic.Relation

/-!
# Cycles that a search reports

Where an edge leads back to the path that a search came along, the end of the path
from there is what it reports. So a property of all such ends (`HoldsOfLoops`) is one of
whatever the search reports: this is kept by following an edge, hence by visiting a node
and by the search as a whole (`reports_search`), whatever the fuel.

* `closed_search`: a cycle that a search reports is a walk back to where it starts;
* `nodup_search`: it passes every node once.
-/

namespace Marshal.Graph

variable {α : Type}

/-- A walk from one node to another: the nodes that it leaves, each with the label of the
    edge that it takes. -/
inductive Walk (R : Nat → α → Nat → Prop) : Nat → List (Nat × α) → Nat → Prop
  | nil {i : Nat} : Walk R i [] i
  | cons {i j k : Nat} {label : α} {path : List (Nat × α)} :
    R i label j → Walk R j path k → Walk R i ((i, label) :: path) k

namespace Walk

variable {R : Nat → α → Nat → Prop} {i j k : Nat} {label : α} {path : List (Nat × α)}

theorem snoc (h : Walk R i path j) (hjk : R j label k) : Walk R i (path ++ [(j, label)]) k := by
  induction h with
  | nil => exact .cons hjk .nil
  | cons hij _ ih => exact .cons hij (ih hjk)

/-- A walk goes on from any of the nodes that it leaves. -/
theorem dropWhile (h : Walk R i path k) (hj : j ∈ nodes path) :
    Walk R j (path.dropWhile (·.1 ≠ j)) k := by
  induction h with
  | nil => exact absurd hj List.not_mem_nil
  | @cons i _ _ label path hij h ih =>
    by_cases hi : i = j
    · subst hi
      rw [List.dropWhile_cons_of_neg (by simp)]
      exact .cons hij h
    · rw [List.dropWhile_cons_of_pos (by simpa using hi)]
      exact ih ((List.mem_cons.1 hj).resolve_left (Ne.symm hi))

theorem mono {R' : Nat → α → Nat → Prop} (h : Walk R i path j)
    (hR : ∀ i label j, R i label j → R' i label j) : Walk R' i path j := by
  induction h with
  | nil => exact .nil
  | cons hij _ ih => exact .cons (hR _ _ _ hij) ih

/-- A walk that takes an edge leads somewhere. -/
theorem transGen (h : Walk R i path j) (hpath : path ≠ []) :
    Relation.TransGen (fun i j => ∃ label, R i label j) i j := by
  induction h with
  | nil => exact absurd rfl hpath
  | @cons i j k label path hij h ih =>
    cases h with
    | nil => exact .single ⟨label, hij⟩
    | cons => exact .head ⟨label, hij⟩ (ih (List.cons_ne_nil _ _))

/-- The nodes of a walk are joined by edges. -/
theorem isChain (h : Walk R i path j) :
    (nodes path ++ [j]).IsChain fun i j => ∃ label, R i label j := by
  induction h with
  | nil => exact .singleton _
  | @cons i j k label path hij h ih =>
    rcases h with _ | _ <;> exact .cons_cons ⟨label, hij⟩ ih

/-- A walk leaves every one of its nodes by an edge. -/
theorem exists_edge (h : Walk R i path j) : ∀ k ∈ nodes path, ∃ label l, R k label l := by
  induction h with
  | nil => simp [nodes]
  | cons hij _ ih => exact List.forall_mem_cons.2 ⟨⟨_, _, hij⟩, ih⟩

/-- A walk starts at its first node, or ends where it starts. -/
theorem exists_head (h : Walk R i path j) : ∃ rest, nodes path ++ [j] = i :: rest := by
  rcases h with _ | _
  · exact ⟨[], rfl⟩
  · exact ⟨_, rfl⟩

end Walk

/-- Where every edge leads to a smaller rank, there are no cycles. -/
theorem acyclic_of_rank {R : α → α → Prop} (rank : α → Nat) (h : ∀ a b, R a b → rank b < rank a)
    (a : α) : ¬Relation.TransGen R a a := by
  have hdown {b : α} (hab : Relation.TransGen R a b) : rank b < rank a := by
    induction hab with
    | single hab => exact h _ _ hab
    | tail _ hbc ih => exact Nat.lt_trans (h _ _ hbc) ih
  exact fun hcycle => Nat.lt_irrefl _ (hdown hcycle)

/-- Whatever cycle has been met has the property `P`. -/
def Search.Reports (P : List (Nat × α) → Prop) (s : Search α) : Prop := ∀ c, s.cycle = some c → P c

/-- The property `P` holds of what is left of a path of different nodes from where an edge at
    its end leads back to it. -/
def HoldsOfLoops (edges : Nat → List (α × Nat)) (P : List (Nat × α) → Prop) : Prop :=
  ∀ start path node, Walk (fun i label j => (label, j) ∈ edges i) start path node →
    (nodes path).Nodup → node ∈ nodes path → P (path.dropWhile (·.1 ≠ node))

variable {edges : Nat → List (α × Nat)} {s : Search α} {P : List (Nat × α) → Prop}

theorem reports_report (hs : s.Reports P) {c : List (Nat × α)} (hc : P c) :
    (s.report c).Reports P := by
  intro c' hc'
  change (s.cycle <|> some c) = some c' at hc'
  cases hcycle : s.cycle with
  | none =>
    rw [hcycle] at hc'
    exact Option.some.inj hc' ▸ hc
  | some first =>
    rw [hcycle] at hc'
    exact hs c' (hcycle.trans hc')

theorem reports_foldl {β : Type} {step : Search α → β → Search α} {l : List β}
    (hstep : ∀ s, ∀ b ∈ l, s.Reports P → (step s b).Reports P) (hs : s.Reports P) :
    (l.foldl step s).Reports P := by
  induction l generalizing s with
  | nil => exact hs
  | cons b l ih =>
    exact ih (fun s b hb => hstep s b (List.mem_cons_of_mem _ hb))
      (hstep s b List.mem_cons_self hs)

/-- A visit reports loops only, if a path of different nodes leads to its node. -/
theorem reports_visit (hP : HoldsOfLoops edges P) {start node fuel : Nat} {path : List (Nat × α)}
    (hpath : Walk (fun i label j => (label, j) ∈ edges i) start path node)
    (hnodup : (nodes path ++ [node]).Nodup) (hs : s.Reports P) :
    (visit edges fuel path node s).Reports P := by
  induction fuel generalizing path node s with
  | zero => exact hs
  | succ fuel ih =>
    rw [visit_succ]
    refine reports_foldl (fun s e he hs => ?_) hs
    have hnext : Walk (fun i label j => (label, j) ∈ edges i) start (path ++ [(node, e.1)]) e.2 :=
      hpath.snoc he
    rw [← nodes_snoc path node e.1] at hnodup
    rw [follow]
    split
    · -- The edge leads back to the path, so what is left of it is a loop.
      rename_i hback
      exact reports_report hs (hP start _ e.2 hnext hnodup (any_eq_true_iff.1 hback))
    · rename_i hoff
      split
      · exact hs
      · -- The edge leads off the path, which goes on without repeating a node.
        refine ih hnext (List.nodup_append.2 ⟨hnodup, List.nodup_singleton _, ?_⟩) hs
        rintro x hx y hy rfl
        exact hoff (any_eq_true_iff.2 (List.mem_singleton.1 hy ▸ hx))

/-- A search reports loops only. -/
theorem reports_search (hP : HoldsOfLoops edges P) (size : Nat) :
    (search edges size).Reports P := by
  refine reports_foldl (fun s node _ hs => ?_) fun _ h => nomatch h
  split
  · exact hs
  · exact reports_visit hP .nil (List.nodup_singleton _) hs

/-- A cycle that has been met is a walk back to its first node. -/
def Search.Closed (edges : Nat → List (α × Nat)) (s : Search α) : Prop :=
  ∀ c, s.cycle = some c → c ≠ [] ∧ ∃ i, Walk (fun i label j => (label, j) ∈ edges i) i c i

/-- A cycle that a search reports is one of the graph. -/
theorem closed_search (edges : Nat → List (α × Nat)) (size : Nat) :
    (search edges size).Closed edges := by
  refine reports_search (fun start path node hwalk _ hmem => ⟨fun hnil => ?_, node, ?_⟩) size
  · obtain ⟨p, hp, rfl⟩ := List.mem_map.1 hmem
    exact of_decide_eq_true (List.dropWhile_eq_nil_iff.1 hnil p hp) rfl
  · exact hwalk.dropWhile hmem

/-- A cycle that a search reports passes every node once. -/
theorem nodup_search (edges : Nat → List (α × Nat)) (size : Nat) :
    (search edges size).Reports fun c => (nodes c).Nodup := by
  refine reports_search (fun start path node _ hnodup _ => ?_) size
  exact List.Nodup.sublist ((List.dropWhile_sublist _).map Prod.fst) hnodup

end Marshal.Graph
