/-!
# Depth-first search

A search of a graph on the numbers below a bound, whose edges carry labels. A
node is put into the order once all its successors are in it, so that in a
graph without cycles every node comes after those it leads to. An edge back to
a node that the search is still in closes a cycle: the search goes on without
it, and remembers the first one.
-/

namespace Marshal.Graph

variable {α : Type}

/-- The state of a search. -/
structure Search (α : Type) where
  /-- The nodes done with. -/
  order : List Nat := []
  /-- The first cycle met: its nodes, each with the label of the edge taken from
      it. The last edge leads back to the first node. -/
  cycle : Option (List (Nat × α)) := none

/-- Remembers a cycle, unless there was one before. -/
def Search.report (s : Search α) (cycle : List (Nat × α)) : Search α :=
  { s with cycle := s.cycle <|> some cycle }

/-- Searches from a node that has not been met. The path leads to it: its
    nodes, each with the label of the edge taken from it. The nodes of a path
    differ, so `fuel` is enough if as many nodes are not on it. -/
def visit (edges : Nat → List (α × Nat)) :
    (fuel : Nat) → (path : List (Nat × α)) → (node : Nat) → Search α → Search α
  | 0, _, _, s => s
  | fuel + 1, path, node, s =>
    let s := (edges node).foldl (fun s (label, target) =>
      let path := path ++ [(node, label)]
      if path.any (·.1 = target) then s.report (path.dropWhile (·.1 ≠ target))
      else if target ∈ s.order then s
      else visit edges fuel path target s) s
    { s with order := s.order ++ [node] }

/-- Searches the graph on the numbers below `size`. -/
def search (edges : Nat → List (α × Nat)) (size : Nat) : Search α :=
  (List.range size).foldl
    (fun s node => if node ∈ s.order then s else visit edges size [] node s) {}

end Marshal.Graph
