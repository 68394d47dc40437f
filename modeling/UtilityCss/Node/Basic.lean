import UtilityCss.Text.Basic

/-!
The stylesheet tree. Two kinds of nodes never reach the output as such: a context is transparent and
carries values to the nodes inside it, and the children of an at-root node are printed behind
everything else.
-/
namespace UtilityCss

inductive Node where
  | declaration (property : String) (value : Option String) (important : Bool)
  | rule (selector : String) (nodes : List Node)
  | atRule (name params : String) (nodes : List Node)
  | comment (text : String)
  | context (entries : List (String × String)) (nodes : List Node)
  | atRoot (nodes : List Node)
  deriving Inhabited, Repr

inductive Directive where
  | importSheet
  | theme
  | utility
  | variant
  | source
  | media
  | apply
  | plugin
  | config
  | tailwind
  | keyframes
  | slot
  | other
  deriving DecidableEq, Repr

def Directive.ofName (name : String) : Directive :=
  match (Text.strip? "@" name).getD name with
  | "import" => .importSheet
  | "theme" => .theme
  | "utility" => .utility
  | "variant" => .variant
  | "source" => .source
  | "media" => .media
  | "apply" => .apply
  | "plugin" => .plugin
  | "config" => .config
  | "tailwind" => .tailwind
  | "tailwindcss" => .tailwind
  | "keyframes" => .keyframes
  | "slot" => .slot
  | _ => .other

namespace Node

def decl (property value : String) : Node :=
  .declaration property (some value) false

def ofAtName (name params : String) (nodes : List Node) : Node :=
  .atRule ((Text.strip? "@" name).getD name) params nodes

/-- The place where a variant's content goes. -/
def slot : Node :=
  .atRule "slot" "" []

/-- A rule, or an at-rule if the selector begins with `@`: its name ends at the first blank or `(`.
-/
def ofSelector (selector : String) (nodes : List Node) : Node :=
  match Text.strip? "@" selector with
  | none => .rule selector nodes
  | some rest =>
    match Text.cutAt? (fun c => Text.isBlank c || c == '(') rest with
    | some (name, params) => ofAtName name (Text.trim params) nodes
    | none => ofAtName rest "" nodes

def children? : Node → Option (List Node)
  | .rule _ nodes | .atRule _ _ nodes | .context _ nodes | .atRoot nodes => some nodes
  | .declaration .. | .comment .. => none

def withChildren (nodes : List Node) : Node → Node
  | .rule selector _ => .rule selector nodes
  | .atRule name params _ => .atRule name params nodes
  | .context entries _ => .context entries nodes
  | .atRoot _ => .atRoot nodes
  | node => node

def mapChildren? (f : List Node → List Node) (node : Node) : Option Node :=
  node.children?.map fun nodes => node.withChildren (f nodes)

def isRuleLike : Node → Bool
  | .rule .. | .atRule .. => true
  | _ => false

def directive? : Node → Option Directive
  | .atRule name _ _ => some (.ofName name)
  | _ => none

end Node

mutual

def Node.size : Node → Nat
  | .declaration .. => 1
  | .comment _ => 1
  | .rule _ nodes => sizeAll nodes + 1
  | .atRule _ _ nodes => sizeAll nodes + 1
  | .context _ nodes => sizeAll nodes + 1
  | .atRoot nodes => sizeAll nodes + 1

def sizeAll : List Node → Nat
  | [] => 0
  | n :: ns => n.size + sizeAll ns

end

theorem sizeAll_append (xs ys : List Node) : sizeAll (xs ++ ys) = sizeAll xs + sizeAll ys := by
  induction xs with
  | nil => simp [sizeAll]
  | cons x xs ih => simp [sizeAll, ih, Nat.add_assoc]

mutual

/-- Mark every declaration important; what is hoisted out of the rule stays as it is. -/
def Node.markImportant : Node → Node
  | .declaration property value _ => .declaration property value true
  | .comment text => .comment text
  | .rule selector nodes => .rule selector (markAllImportant nodes)
  | .atRule name params nodes => .atRule name params (markAllImportant nodes)
  | .context entries nodes => .context entries (markAllImportant nodes)
  | .atRoot nodes => .atRoot nodes

def markAllImportant : List Node → List Node
  | [] => []
  | n :: ns => n.markImportant :: markAllImportant ns

end

end UtilityCss
