import QuantAccel.Graph.Basic

/-!
# Dependency order

Operators are ordered so that the producer of every operand comes before its
consumer. The order is the reverse of the order in which a depth-first search
along the dependencies leaves the operators. A second search goes through it
against the dependencies, and finds nothing but the operator it starts from
unless the dependencies have a cycle.
-/

namespace QuantAccel.Graph

variable (g : Graph)

/-- The first operator whose output an earlier one writes as well, with that
earlier one. -/
def doubleWriter? : (earlier rest : List Operator) → Option (Operator × Operator)
  | _, [] => none
  | earlier, op :: rest =>
    match earlier.find? fun other => other.output == op.output with
    | some other => some (other, op)
    | none => doubleWriter? (earlier ++ [op]) rest

/-- The producers of the operands of an operator, once for each operand, the
latest first. -/
def dependencies (id : OperatorId) : List OperatorId :=
  ((g.operator id).inputs.filterMap g.producer?).reverse

/-- The consumers of the result of an operator, once for each operand, the
latest first. -/
def dependents (id : OperatorId) : List OperatorId :=
  (g.operators.toList.flatMap fun op =>
    (op.inputs.filter fun input => g.producer? input == some id).map fun _ => op.id).reverse

/-- State of a depth-first search: the nodes found, and those left, the last one
first. -/
structure Search where
  found : List OperatorId := []
  left : List OperatorId := []

/-- Empties a stack of nodes. A node is found when it first comes to the top,
and its successors go on top of it; it is left when it comes to the top again. A
node that is its own successor is an error. -/
def Search.run (next : OperatorId → List OperatorId) :
    (fuel : Nat) → (stack : List OperatorId) → Search → Except OperatorId Search
  | 0, _, s => .ok s
  | _, [], s => .ok s
  | fuel + 1, top :: rest, s =>
    if s.found.contains top then
      run next fuel rest (if s.left.contains top then s else { s with left := top :: s.left })
    else if (next top).contains top then .error top
    else
      let found := top :: s.found
      let new := (next top).filter fun node => !found.contains node
      run next fuel (new.reverse ++ top :: rest) { s with found }

/-- The search from every node in turn. -/
def Search.all (next : OperatorId → List OperatorId) (fuel : Nat) :
    (nodes : List OperatorId) → Search → Except OperatorId Search
  | [], s => .ok s
  | node :: nodes, s =>
    if s.found.contains node then all next fuel nodes s
    else do all next fuel nodes (← s.run next fuel [node])

/-- The next node of a walk. Nodes go off the stack until one was not visited,
and those of its successors that were not visited go on top of the rest. -/
def Search.next? (next : OperatorId → List OperatorId) (visited : List OperatorId) :
    (stack : List OperatorId) → Option (OperatorId × List OperatorId)
  | [] => none
  | top :: rest =>
    if visited.contains top then next? next visited rest
    else
      let new := (next top).filter fun node => !(top :: visited).contains node
      some (top, new.reverse ++ rest)

/-- Walks from every node in turn: the first one that a walk comes to after the
node that it starts from. -/
def Search.second? (next : OperatorId → List OperatorId) :
    (visited nodes : List OperatorId) → Option OperatorId
  | _, [] => none
  | visited, node :: nodes =>
    match next? next visited [node] with
    | none => second? next visited nodes
    | some (first, stack) =>
      match next? next (first :: visited) stack with
      | none => second? next (first :: visited) nodes
      | some (second, _) => some second

/-- Enough steps for a search: a node is found once and stands on the stack once
for itself and once for each operand that leads to it. -/
def searchFuel : Nat :=
  2 * g.operators.size + g.operators.toList.foldr (·.inputs.length + ·) 0 + 1

/-- Operators ordered so that every producer comes before its consumers. -/
def order : Except GraphFault (List OperatorId) := do
  if let some (first, second) := doubleWriter? [] g.operators.toList then
    throw (.writtenTwice (g.tensor second.output).name first.name second.name)
  let nodes := g.operators.toList.map (·.id)
  match Search.all g.dependents g.searchFuel nodes {} with
  | .error node => throw (.cyclic (g.operator node).name)
  | .ok s =>
    match Search.second? g.dependencies [] s.left with
    | some node => throw (.cyclic (g.operator node).name)
    | none => return s.left

end QuantAccel.Graph
