import UtilityCss.Node.Basic

/-!
Addresses of nodes: the index of a root node, then of a child, and so on down. The empty address
names no node.
-/
namespace UtilityCss

abbrev Address := List Nat

namespace Address

def get? : Address → List Node → Option Node
  | [], _ => none
  | [i], nodes => nodes[i]?
  | i :: j :: rest, nodes => do
    let node ← nodes[i]?
    let children ← node.children?
    get? (j :: rest) children

def modify (f : Node → Node) : Address → List Node → List Node
  | [], nodes => nodes
  | [i], nodes => List.modify nodes i f
  | i :: j :: rest, nodes =>
    List.modify nodes i fun node =>
      match node.children? with
      | some children => node.withChildren (modify f (j :: rest) children)
      | none => node

end Address

mutual

def Node.find? (p : Node → Bool) (node : Node) : Option Address :=
  if p node then some []
  else match node with
    | .rule _ nodes => findAll? p 0 nodes
    | .atRule _ _ nodes => findAll? p 0 nodes
    | .context _ nodes => findAll? p 0 nodes
    | .atRoot nodes => findAll? p 0 nodes
    | .declaration .. => none
    | .comment _ => none

def findAll? (p : Node → Bool) (i : Nat) (nodes : List Node) : Option Address :=
  match nodes with
  | [] => none
  | n :: ns =>
    match n.find? p with
    | some rest => some (i :: rest)
    | none => findAll? p (i + 1) ns

end

def Address.find? (p : Node → Bool) (nodes : List Node) : Option Address :=
  findAll? p 0 nodes

end UtilityCss
