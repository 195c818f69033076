import Marshal.Proofs.Compiled
import Marshal.Proofs.Cycles

/-!
# Messages that hold themselves by value

The check for value recursion (`checkValueRecursion`) against the graph of its plans: a
message leads to those that it holds by value, in fields that are neither optional nor
repeated nor maps (`HoldsByValue`). The check fails if and only if there is a cycle, and
then names one that passes every message once, with the field by which its first message
holds the next one (`checkValueRecursion_finds_cycle`).
-/

namespace Marshal

/-- The message at one position holds the one at the other by value, in a field of this
    name. -/
def HoldsByValue (plans : List MessagePlan) (i : Nat) (field : String) (j : Nat) : Prop :=
  ∃ p, plans[i]? = some p ∧
    ∃ step ∈ p.steps, step.field = field ∧ step.shape = .single (.nested ⟨.own, j⟩)

/-- The message at a position has this name. -/
def IsNamed (plans : List MessagePlan) (i : Nat) (name : String) : Prop :=
  ∃ p, plans[i]? = some p ∧ p.name = name

/-- Every message of the list holds the next one by value. The last one is the first one
    again, but the others are different. -/
structure IsValueCycle (plans : List MessagePlan) (positions : List Nat) : Prop where
  chain : positions.IsChain fun i j => ∃ field, HoldsByValue plans i field j
  closed : positions.getLast? = positions.head?
  nodup : positions.dropLast.Nodup

variable {plans : List MessagePlan}

/-! ## Edges -/

/-- The edges of the search are the fields that hold messages by value. -/
theorem mem_valueEdgesAt_iff {i j : Nat} {field : String} :
    (field, j) ∈ valueEdgesAt plans i ↔ HoldsByValue plans i field j := by
  rw [valueEdgesAt, HoldsByValue]
  cases plans[i]? with
  | none => simp
  | some p => simp [MessagePlan.mem_valueEdges]

theorem isNamed_planName {i j : Nat} {field : String} (h : HoldsByValue plans i field j) :
    IsNamed plans i (planName plans i) := by
  obtain ⟨p, hp, _⟩ := h
  exact ⟨p, hp, by rw [planName, hp]⟩

/-! ## The check -/

/-- What is reported is told by a walk from a message back to itself that leaves no message
    twice. -/
theorem exists_walk_of_check {e : CompileError} (h : checkValueRecursion plans = .error e) :
    ∃ first field path, Graph.Walk (HoldsByValue plans) first ((first, field) :: path) first ∧
      (Graph.nodes ((first, field) :: path)).Nodup ∧
      e = .valueRecursion (planName plans first) field
        ((Graph.nodes ((first, field) :: path) ++ [first]).map (planName plans)) := by
  rw [checkValueRecursion] at h
  split at h
  · rename_i first field path hcycle
    cases h
    obtain ⟨_, _, hwalk⟩ := Graph.closed_search _ _ _ hcycle
    replace hwalk := hwalk.mono fun _ _ _ => mem_valueEdgesAt_iff.1
    refine ⟨first, field, path, ?_, Graph.nodup_search _ _ _ hcycle, by simp [Graph.nodes]⟩
    cases hwalk with
    | cons hfirst hrest => exact .cons hfirst hrest
  · cases h

/-- The positions that a walk back to its start passes are a cycle, and go by their names. -/
theorem isValueCycle_of_walk {first : Nat} {path : List (Nat × String)}
    (h : Graph.Walk (HoldsByValue plans) first path first) (hnodup : (Graph.nodes path).Nodup)
    (hpath : path ≠ []) :
    IsValueCycle plans (Graph.nodes path ++ [first]) ∧
      ∀ i ∈ Graph.nodes path ++ [first], IsNamed plans i (planName plans i) := by
  have hhead : first ∈ Graph.nodes path := by
    rcases h with _ | _
    · exact absurd rfl hpath
    · exact List.mem_cons_self
  refine ⟨⟨h.isChain, ?_, ?_⟩, fun i hi => ?_⟩
  · obtain ⟨rest, hrest⟩ := h.exists_head
    rw [List.getLast?_concat, hrest]
    rfl
  · rw [List.dropLast_concat]
    exact hnodup
  · have hi : i ∈ Graph.nodes path := by
      rcases List.mem_append.1 hi with hi | hi
      · exact hi
      · exact List.mem_singleton.1 hi ▸ hhead
    obtain ⟨_, _, hheld⟩ := h.exists_edge i hi
    exact isNamed_planName hheld

/-- The check fails if and only if a message holds itself by value, directly or through
    others. It then names a cycle of messages, the first of them, and the field by which this
    holds the next one. -/
theorem checkValueRecursion_finds_cycle
    (hrange : ∀ p ∈ plans, ∀ step ∈ p.steps, ∀ j, step.shape = .single (.nested ⟨.own, j⟩) →
      j < plans.length) :
    ((∃ e, checkValueRecursion plans = .error e) ↔
      ∃ i, Relation.TransGen (fun i j => ∃ field, HoldsByValue plans i field j) i i) ∧
    ∀ e, checkValueRecursion plans = .error e →
      ∃ i j rest message field cycle, e = .valueRecursion message field cycle ∧
        IsValueCycle plans (i :: j :: rest) ∧
        List.Forall₂ (IsNamed plans) (i :: j :: rest) cycle ∧
        IsNamed plans i message ∧ HoldsByValue plans i field j := by
  refine ⟨⟨fun ⟨e, he⟩ => ?_, fun ⟨i, hcycle⟩ => ?_⟩, fun e he => ?_⟩
  · obtain ⟨first, field, path, hwalk, _⟩ := exists_walk_of_check he
    exact ⟨first, hwalk.transGen (List.cons_ne_nil _ _)⟩
  · cases hcheck : checkValueRecursion plans with
    | error e => exact ⟨e, rfl⟩
    | ok _ =>
      -- Plans that pass can be ranked, and a cycle would have to go down in rank.
      have hedges : ∀ p ∈ plans, ∀ e ∈ p.valueEdges, e.2 < plans.length := by
        intro p hp e he
        obtain ⟨step, hstep, _, hshape⟩ := MessagePlan.mem_valueEdges.1 he
        exact hrange p hp step hstep e.2 hshape
      obtain ⟨rank, hrank⟩ := exists_rank_of_check hedges hcheck
      refine absurd hcycle (Graph.acyclic_of_rank rank ?_ i)
      rintro i j ⟨field, p, hp, hstep⟩
      exact (hrank i p hp).2 _ (MessagePlan.mem_valueEdges.2 hstep)
  · obtain ⟨first, field, path, hwalk, hnodup, rfl⟩ := exists_walk_of_check he
    obtain ⟨hcycle, hnamed⟩ := isValueCycle_of_walk hwalk hnodup (List.cons_ne_nil _ _)
    cases hwalk with
    | @cons _ j _ _ _ hfirst hrest =>
      obtain ⟨rest, hnext⟩ := hrest.exists_head
      have hpositions : Graph.nodes ((first, field) :: path) ++ [first] = first :: j :: rest :=
        congrArg (first :: ·) hnext
      rw [hpositions] at hcycle hnamed ⊢
      exact ⟨first, j, rest, _, field, _, rfl, hcycle,
        List.forall₂_map_right_iff.2 (List.forall₂_same.2 hnamed), isNamed_planName hfirst, hfirst⟩

/-- A coop that holds hens by value, and hens and eggs that hold one another. -/
def Sample.henhouse : List MessagePlan :=
  [ ⟨⟨.own, 0⟩, "Coop", [held "hen" 1]⟩, ⟨⟨.own, 1⟩, "Hen", [held "egg" 2]⟩,
    ⟨⟨.own, 2⟩, "Egg", [held "hen" 1]⟩ ]
where
  held (field : String) (j : Nat) : Step :=
    ⟨field, 1, .required, .single (.nested ⟨.own, j⟩), false, false⟩

open Sample

theorem checkValueRecursion_finds_cycle_henhouse :
    checkValueRecursion henhouse =
        .error (.valueRecursion "Hen" "egg" ["Hen", "Egg", "Hen"]) ∧
      (∃ i, Relation.TransGen (fun i j => ∃ field, HoldsByValue henhouse i field j) i i) ∧
      ∃ i j rest message field cycle,
        CompileError.valueRecursion "Hen" "egg" ["Hen", "Egg", "Hen"] =
          .valueRecursion message field cycle ∧
        IsValueCycle henhouse (i :: j :: rest) ∧
        List.Forall₂ (IsNamed henhouse) (i :: j :: rest) cycle ∧
        IsNamed henhouse i message ∧ HoldsByValue henhouse i field j := by
  have h := @checkValueRecursion_finds_cycle henhouse
    (by simp [henhouse, henhouse.held])
  exact ⟨rfl, h.1.1 ⟨_, rfl⟩, h.2 _ rfl⟩

end Marshal
