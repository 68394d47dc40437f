import UtilityCss.Node.Basic

/-!
Printing a tree as stylesheet text. The children of at-root nodes wait in a queue and are printed
behind the document, each at depth zero, in the order in which they were met.
-/
namespace UtilityCss

def indent (depth : Nat) : String :=
  String.ofList (List.replicate (2 * depth) ' ')

mutual

/-- The text of a node without what it hoists. A declaration without a value prints nothing. -/
def Node.render (depth : Nat) : Node → String
  | .declaration _ none _ => ""
  | .declaration property (some value) important =>
    indent depth ++ property ++ ": " ++ value ++ (if important then " !important" else "") ++ ";\n"
  | .rule selector nodes =>
    indent depth ++ selector ++ " \x7b\n" ++ renderAll (depth + 1) nodes ++ indent depth ++ "\x7d\n"
  | .atRule name params nodes =>
    indent depth ++ "@" ++ name ++ (if params.isEmpty then "" else " " ++ params) ++
      (if nodes.isEmpty then ";\n"
      else " \x7b\n" ++ renderAll (depth + 1) nodes ++ indent depth ++ "\x7d\n")
  | .comment text => indent depth ++ "/*" ++ text ++ "*/\n"
  | .context _ nodes => renderAll depth nodes
  | .atRoot _ => ""

def renderAll (depth : Nat) : List Node → String
  | [] => ""
  | n :: ns => n.render depth ++ renderAll depth ns

end

mutual

def Node.hoisted : Node → List Node
  | .rule _ nodes => hoistedAll nodes
  | .atRule _ _ nodes => hoistedAll nodes
  | .context _ nodes => hoistedAll nodes
  | .atRoot nodes => nodes
  | .declaration .. => []
  | .comment _ => []

def hoistedAll : List Node → List Node
  | [] => []
  | n :: ns => n.hoisted ++ hoistedAll ns

end

mutual

theorem Node.sizeAll_hoisted_lt (node : Node) : sizeAll node.hoisted < node.size := by
  cases node with
  | declaration p v i => simp [Node.hoisted, Node.size, sizeAll]
  | comment t => simp [Node.hoisted, Node.size, sizeAll]
  | rule s nodes => simpa [Node.hoisted, Node.size, Nat.lt_succ_iff] using
      sizeAll_hoistedAll_le nodes
  | atRule n p nodes =>
    simpa [Node.hoisted, Node.size, Nat.lt_succ_iff] using sizeAll_hoistedAll_le nodes
  | context e nodes =>
    simpa [Node.hoisted, Node.size, Nat.lt_succ_iff] using sizeAll_hoistedAll_le nodes
  | atRoot nodes => simp [Node.hoisted, Node.size]

theorem sizeAll_hoistedAll_le (nodes : List Node) : sizeAll (hoistedAll nodes) ≤ sizeAll nodes := by
  cases nodes with
  | nil => simp [hoistedAll]
  | cons n ns =>
    have h₁ := Node.sizeAll_hoisted_lt n
    have h₂ := sizeAll_hoistedAll_le ns
    simp only [hoistedAll, sizeAll, sizeAll_append]
    omega

end

/-- Print a queue of hoisted nodes; what they hoist in turn joins the end of the queue. -/
def renderQueue : List Node → String
  | [] => ""
  | n :: queue => n.render 0 ++ renderQueue (queue ++ n.hoisted)
termination_by queue => sizeAll queue
decreasing_by
  have h := Node.sizeAll_hoisted_lt n
  simp only [sizeAll_append, sizeAll]
  omega

def toCss (nodes : List Node) : String :=
  renderAll 0 nodes ++ renderQueue (hoistedAll nodes)

end UtilityCss
