import UtilityCss.Text.Basic

/-!
Class names taken apart: `md:hover:bg-red-500/50!` has two variants, a utility with a value and a
modifier, and is important.
-/
namespace UtilityCss

inductive Modifier where
  | named (text : String)
  /-- in square brackets, decoded -/
  | arbitrary (text : String)
  deriving DecidableEq, Repr

def Modifier.text : Modifier → String
  | .named s => s
  | .arbitrary s => s

inductive UtilityValue where
  | named (text : String)
  /-- in square brackets, decoded, with the type that was given for it -/
  | arbitrary (text : String) (type : Option String)
  /-- two numbers with a slash between them -/
  | fraction (text : String)
  deriving DecidableEq, Repr

def UtilityValue.text : UtilityValue → String
  | .named s => s
  | .arbitrary s _ => s
  | .fraction s => s

inductive VariantValue where
  | named (text : String)
  | arbitrary (text : String)
  deriving DecidableEq, Repr

def VariantValue.text : VariantValue → String
  | .named s => s
  | .arbitrary s => s

inductive Variant where
  /-- a selector or at-rule in square brackets -/
  | arbitrary (selector : String) (relative : Bool)
  | static (root : String)
  | functional (root : String) (value : Option VariantValue) (modifier : Option Modifier)
  /-- a variant around another one -/
  | compound (root : String) (modifier : Option Modifier) (inner : Variant)
  deriving DecidableEq, Repr

namespace Variant

def root? : Variant → Option String
  | .arbitrary .. => none
  | .static root => some root
  | .functional root _ _ => some root
  | .compound root _ _ => some root

def modifier? : Variant → Option Modifier
  | .functional _ _ modifier => modifier
  | .compound _ modifier _ => modifier
  | _ => none

def value? : Variant → Option VariantValue
  | .functional _ value _ => value
  | _ => none

def isRelative : Variant → Bool
  | .arbitrary _ relative => relative
  | _ => false

end Variant

namespace Candidate

inductive Kind where
  | static (root : String)
  | functional (root : String) (value : Option UtilityValue) (modifier : Option Modifier)
  /-- a property and its value in square brackets -/
  | arbitrary (property value : String) (modifier : Option Modifier)
  deriving DecidableEq, Repr

end Candidate

structure Candidate where
  kind : Candidate.Kind
  /-- innermost first -/
  variants : List Variant
  negative : Bool
  important : Bool
  /-- the class name itself -/
  raw : String
  deriving DecidableEq, Repr

namespace Candidate

def root? (c : Candidate) : Option String :=
  match c.kind with
  | .static root => some root
  | .functional root _ _ => some root
  | .arbitrary .. => none

def value? (c : Candidate) : Option UtilityValue :=
  match c.kind with
  | .functional _ value _ => value
  | _ => none

def modifier? (c : Candidate) : Option Modifier :=
  match c.kind with
  | .functional _ _ modifier => modifier
  | .arbitrary _ _ modifier => modifier
  | .static _ => none

end Candidate

def compareOptions {α : Type} (cmp : α → α → Ordering) : Option α → Option α → Ordering
  | none, none => .eq
  | none, some _ => .lt
  | some _, none => .gt
  | some a, some b => cmp a b

def Modifier.order : Modifier → Modifier → Ordering
  | .named a, .named b => compare a b
  | .named _, .arbitrary _ => .lt
  | .arbitrary _, .named _ => .gt
  | .arbitrary a, .arbitrary b => compare a b

def VariantValue.order : VariantValue → VariantValue → Ordering
  | .named a, .named b => compare a b
  | .named _, .arbitrary _ => .lt
  | .arbitrary _, .named _ => .gt
  | .arbitrary a, .arbitrary b => compare a b

def Variant.form : Variant → Nat
  | .arbitrary .. => 0
  | .static _ => 1
  | .functional .. => 2
  | .compound .. => 3

/-- Order variants by their parts. It tells apart all variants that differ. -/
def Variant.order : Variant → Variant → Ordering
  | .arbitrary s r, .arbitrary s' r' => (compare s s').then (compare r.toNat r'.toNat)
  | .static root, .static root' => compare root root'
  | .functional root value modifier, .functional root' value' modifier' =>
    (compare root root').then
      ((compareOptions VariantValue.order value value').then
        (compareOptions Modifier.order modifier modifier'))
  | .compound root modifier inner, .compound root' modifier' inner' =>
    (compare root root').then
      ((compareOptions Modifier.order modifier modifier').then (inner.order inner'))
  | a, b => compare a.form b.form

end UtilityCss
