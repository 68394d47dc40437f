import UtilityCss.Node.Basic

/-!
Walking a tree in pre-order. The visitor sees a node and where it stands, and answers with an
`Action`; the walk carries it out and carries the visitor's state along. Contexts are transparent:
they are not visited, and the values they hold are found in the scope.
-/
namespace UtilityCss

inductive Action where
  /-- go on with its children, then with what follows it -/
  | descend
  /-- pass over its children -/
  | skip
  /-- end the walk -/
  | stop
  /-- put these nodes in its place and pass over them -/
  | replace (nodes : List Node)
  /-- put these nodes in its place and end the walk -/
  | replaceAndStop (nodes : List Node)

structure Scope where
  /-- the closest ancestor that is not a context, shown without its children -/
  parent : Option Node := none
  /-- the values of the enclosing contexts, innermost first -/
  contexts : List (List (String × String)) := []
  /-- the number of ancestors that are not contexts -/
  depth : Nat := 0

namespace Scope

def isRoot (s : Scope) : Bool :=
  s.parent.isNone

/-- A value from the innermost context that has one for this key. -/
def context? (s : Scope) (key : String) : Option String :=
  s.contexts.findSome? fun entries => entries.lookup key

def enter (s : Scope) (entries : List (String × String)) : Scope :=
  { s with contexts := entries :: s.contexts }

def below (s : Scope) (node : Node) : Scope :=
  { s with parent := some (node.withChildren []), depth := s.depth + 1 }

end Scope

abbrev Visitor (σ : Type) := Node → Scope → σ → Action × σ

structure Walked (σ : Type) where
  nodes : List Node
  state : σ
  stopped : Bool

/-- Carry out the answer to a visit; `inside` walks the children of the node. -/
def Walked.ofAnswer {σ : Type} (node : Node) (inside : σ → Option (Walked σ)) :
    Action × σ → Walked σ
  | (.skip, s) => ⟨[node], s, false⟩
  | (.stop, s) => ⟨[node], s, true⟩
  | (.replace nodes, s) => ⟨nodes, s, false⟩
  | (.replaceAndStop nodes, s) => ⟨nodes, s, true⟩
  | (.descend, s) =>
    match inside s with
    | none => ⟨[node], s, false⟩
    | some walked => ⟨[node.withChildren walked.nodes], walked.state, walked.stopped⟩

mutual

def walkNode {σ : Type} (visit : Visitor σ) (scope : Scope) (s : σ) (node : Node) : Walked σ :=
  match node with
  | .context entries nodes =>
    let walked := walkFrom visit (scope.enter entries) s nodes
    ⟨[.context entries walked.nodes], walked.state, walked.stopped⟩
  | .rule selector nodes =>
    .ofAnswer (.rule selector nodes)
      (fun s => some (walkFrom visit (scope.below (.rule selector nodes)) s nodes))
      (visit (.rule selector nodes) scope s)
  | .atRule name params nodes =>
    .ofAnswer (.atRule name params nodes)
      (fun s => some (walkFrom visit (scope.below (.atRule name params nodes)) s nodes))
      (visit (.atRule name params nodes) scope s)
  | .atRoot nodes =>
    .ofAnswer (.atRoot nodes)
      (fun s => some (walkFrom visit (scope.below (.atRoot nodes)) s nodes))
      (visit (.atRoot nodes) scope s)
  | .declaration property value important =>
    .ofAnswer (.declaration property value important) (fun _ => none)
      (visit (.declaration property value important) scope s)
  | .comment text => .ofAnswer (.comment text) (fun _ => none) (visit (.comment text) scope s)

/-- Once the walk has ended, the nodes that follow are left alone. -/
def walkFrom {σ : Type} (visit : Visitor σ) (scope : Scope) (s : σ)
    (nodes : List Node) : Walked σ :=
  match nodes with
  | [] => ⟨[], s, false⟩
  | n :: ns =>
    let first := walkNode visit scope s n
    if first.stopped then ⟨first.nodes ++ ns, first.state, true⟩
    else
      let later := walkFrom visit scope first.state ns
      ⟨first.nodes ++ later.nodes, later.state, later.stopped⟩

end

def walk {σ : Type} (visit : Visitor σ) (s : σ) (nodes : List Node) : List Node × σ :=
  let walked := walkFrom visit {} s nodes
  (walked.nodes, walked.state)

def replaceDirective (directive : Directive) (content nodes : List Node) : List Node :=
  (walk
    (fun node _ (_ : Unit) =>
      (if node.directive? = some directive then .replace content else .descend, ()))
    () nodes).1

mutual

def Node.outline (depth : Nat) : Node → List (Node × Nat)
  | .context _ nodes => outlineAll depth nodes
  | .rule selector nodes => (.rule selector nodes, depth) :: outlineAll (depth + 1) nodes
  | .atRule name params nodes => (.atRule name params nodes, depth) :: outlineAll (depth + 1) nodes
  | .atRoot nodes => (.atRoot nodes, depth) :: outlineAll (depth + 1) nodes
  | .declaration property value important => [(.declaration property value important, depth)]
  | .comment text => [(.comment text, depth)]

def outlineAll (depth : Nat) : List Node → List (Node × Nat)
  | [] => []
  | n :: ns => n.outline depth ++ outlineAll depth ns

end

def outline (nodes : List Node) : List (Node × Nat) :=
  outlineAll 0 nodes

end UtilityCss
