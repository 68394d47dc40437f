import UtilityCss.Path

/-!
What happens while modules are loaded and run, in the order in which it happens.
-/
namespace UtilityCss

inductive ModuleKind where
  | plugin
  | config
  deriving DecidableEq, Repr

inductive Event where
  | load (id : String) (base : Path) (kind : ModuleKind)
  /-- a utility of a module was asked for the styles of a value -/
  | call (name value : String)
  | themeLookup (value : Option String)
  | prefixed (className : String)
  | base (path : Path)
  | hasVariant (known : Bool)
  deriving DecidableEq, Repr

end UtilityCss
