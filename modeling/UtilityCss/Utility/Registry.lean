import UtilityCss.Candidate.Basic
import UtilityCss.Event
import UtilityCss.Node.Basic
import UtilityCss.Theme.Basic
import UtilityCss.Value.DataType

/-!
The utilities that class names may use. A name can have several definitions; all of the right kind
are tried in the order in which they were registered.
-/
namespace UtilityCss

inductive UtilityKind where
  | static
  | functional
  deriving DecidableEq, Repr

structure Utility where
  kind : UtilityKind
  /-- the declarations for a class name; `none` rejects it -/
  resolve : Candidate → Theme → Option (List Node)
  /-- the types of values that it takes, in the order in which they are inferred -/
  types : List DataType := []
  /-- what resolving a class name reports -/
  calls : Candidate → List Event := fun _ => []

structure UtilityRegistry where
  definitions : List (String × Utility) := []

namespace UtilityRegistry

def add (r : UtilityRegistry) (name : String) (utility : Utility) : UtilityRegistry :=
  ⟨r.definitions ++ [(name, utility)]⟩

def get (r : UtilityRegistry) (name : String) : List Utility :=
  r.definitions.filterMap fun (n, utility) => if n = name then some utility else none

def ofKind (r : UtilityRegistry) (name : String) (kind : UtilityKind) : List Utility :=
  (r.get name).filter fun utility => utility.kind = kind

def has (r : UtilityRegistry) (name : String) (kind : UtilityKind) : Bool :=
  r.definitions.any fun (n, utility) => n = name && utility.kind = kind

def names (r : UtilityRegistry) (kind : UtilityKind) : List String :=
  let names := r.definitions.filterMap fun (n, utility) =>
    if utility.kind = kind then some n else none
  names.eraseDups.mergeSort fun a b => (compare a b).isLE

end UtilityRegistry

end UtilityCss
