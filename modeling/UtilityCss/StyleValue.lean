import UtilityCss.Decimal.Layout
import UtilityCss.Node.Basic

/-!
Styles written as data: an object whose keys are properties, selectors or at-rules. Members keep the
order in which they were written.
-/
namespace UtilityCss

open Decimal (Binary64 Layout)

inductive StyleValue where
  | null
  | bool (b : Bool)
  | integer (n : Int)
  | decimal (x : Binary64)
  | text (s : String)
  | list (items : List StyleValue)
  | object (entries : List (String × StyleValue))
  deriving Inhabited, Repr

/-- Numbers have the fewest digits that read back, and a point; they get an exponent below `10^-5`
and from `10^16` on. -/
def StyleValue.numberLayout : Layout :=
  { positional := fun e => decide (-5 ≤ e) && decide (e < 16), keepPoint := true, tie := .toEven }

/-- The property that a key names: `backgroundColor` is `background-color`. Custom properties are
written as they are. -/
def propertyName (key : String) : String :=
  if Text.startsWith "--" key then key
  else
    String.ofList (key.toList.flatMap fun c =>
      if 'A' ≤ c ∧ c ≤ 'Z' then ['-', c.toLower] else [c])

mutual

def StyleValue.nodes : StyleValue → List Node
  | .object entries => memberNodes entries
  | .list items => itemNodes items
  | .null => []
  | .bool _ => []
  | .integer _ => []
  | .decimal _ => []
  | .text _ => []

def itemNodes : List StyleValue → List Node
  | [] => []
  | v :: vs => v.nodes ++ itemNodes vs

def memberNodes : List (String × StyleValue) → List Node
  | [] => []
  | (key, v) :: rest => v.nodesAt key ++ memberNodes rest

/-- The nodes of one member. A list repeats its key, an object is a rule, `@slot` is a rule with a
slot in it, and `null` and `false` are left out. -/
def StyleValue.nodesAt (key : String) : StyleValue → List Node
  | .null => []
  | .bool b => if b then [.decl (propertyName key) "true"] else []
  | .integer n => [.decl (propertyName key) n.repr]
  | .decimal x => [.decl (propertyName key) (x.render StyleValue.numberLayout)]
  | .text s =>
    if s = "@slot" then [.ofSelector key [.slot]] else [.decl (propertyName key) s]
  | .list items => itemNodesAt key items
  | .object entries => [.ofSelector key (memberNodes entries)]

def itemNodesAt (key : String) : List StyleValue → List Node
  | [] => []
  | v :: vs => v.nodesAt key ++ itemNodesAt key vs

end

mutual

def StyleValue.substitute (mark replacement : String) : StyleValue → StyleValue
  | .text s => .text (Text.replaceAll mark replacement s)
  | .list items => .list (substituteItems mark replacement items)
  | .object entries => .object (substituteMembers mark replacement entries)
  | .null => .null
  | .bool b => .bool b
  | .integer n => .integer n
  | .decimal x => .decimal x

def substituteItems (mark replacement : String) : List StyleValue → List StyleValue
  | [] => []
  | v :: vs => v.substitute mark replacement :: substituteItems mark replacement vs

def substituteMembers (mark replacement : String) :
    List (String × StyleValue) → List (String × StyleValue)
  | [] => []
  | (key, v) :: rest =>
    (key, v.substitute mark replacement) :: substituteMembers mark replacement rest

end

end UtilityCss
